import OpenConfigd.Go.Map
import OpenConfigd.Lib.Digraph

/-!
# The dependency graph

A graph has an edge from a node to each node that it depends on, stored in both directions.
`Depend` refuses an edge that would close a cycle (`depend_eq_none_iff`), so that a graph built by
it is acyclic, and `TopoSort` puts every node behind those that it depends on
(`topoSort_dependAll`). A `range` over a map takes its keys in any order: `range n` is the order
of the n-th one.
-/

namespace OpenConfigd.Boot

open Relation

/-- A map to `struct{}`. -/
abbrev DependencyMap := GoMap String Unit

/-- `Dependency`. -/
abbrev Dependency := GoMap String DependencyMap

/-- `MapDependencyGraph`. -/
structure MapDependencyGraph where
  dependencies : Dependency := ∅
  dependents : Dependency := ∅

/-- The orders of the loops over the keys of a map. -/
structure Ranges where
  range : Nat → List String → List String
  range_perm : ∀ n l, (range n l).Perm l

/-- `updateIn`. -/
def updateIn (dep : Dependency) (key value : String) : Dependency :=
  dep.insert key ((dep.at? key ∅).insert value ())

/-- `delete(dep[key], value)`. -/
def deleteIn (dep : Dependency) (key value : String) : Dependency :=
  match dep.lookup key with
  | none => dep
  | some neighbors => dep.insert key (neighbors.erase value)

/-- The number of neighbours in a map. -/
def Dependency.size (dep : Dependency) : Nat := (dep.entries.flatMap fun x => x.2.keys).length

/-- `Transitive`: the keys that `expand` adds to an empty map. -/
def transitive (go : Ranges) (neighbors : Dependency) (node : String) : List String :=
  Digraph.expand (fun n node => go.range n (neighbors.at? node ∅).keys) (neighbors.size + 1) [] node

namespace MapDependencyGraph

variable (go : Ranges)

/-- `RemoveEdge`. -/
def removeEdge (g : MapDependencyGraph) (node dep : String) : MapDependencyGraph where
  dependencies := deleteIn g.dependencies node dep
  dependents := deleteIn g.dependents dep node

/-- `RemoveNode`. -/
def removeNode (g : MapDependencyGraph) (node : String) : MapDependencyGraph :=
  { g with dependencies := g.dependencies.erase node }

/-- `IsDepend`. -/
def isDepend (g : MapDependencyGraph) (node dep : String) : Bool :=
  (transitive go g.dependencies node).contains dep

/-- `Depend`, and nothing for its error. -/
def depend (g : MapDependencyGraph) (node dep : String) : Option MapDependencyGraph :=
  if node = dep || g.isDepend go dep node then none
  else some ⟨updateIn g.dependencies node dep, updateIn g.dependents dep node⟩

/-- `Nodes`. -/
def nodes (g : MapDependencyGraph) : DependencyMap :=
  (g.dependencies.keys ++ g.dependents.keys).foldl (fun nodes key => nodes.insert key ()) ∅

/-- `ImmediateDependents`. -/
def immediateDependents (g : MapDependencyGraph) (node : String) : DependencyMap := g.dependents.at? node ∅

/-- `ImmediateDependencies`. -/
def immediateDependencies (g : MapDependencyGraph) (node : String) : DependencyMap :=
  g.dependencies.at? node ∅

/-- The edges of a node are removed one after the other; `add` are the nodes on which none depends then. -/
def removeEdges (node : String) : List String → MapDependencyGraph × List String → MapDependencyGraph × List String
  | [], s => s
  | d :: deps, (graph, add) =>
    let graph := graph.removeEdge node d
    removeEdges node deps (graph, if (graph.immediateDependents d).keys = [] then add ++ [d] else add)

/-- The loop of `TopoSort`, and nothing when it is not done after so many nodes. -/
def sortLoop : Nat → List String → MapDependencyGraph → List String → Option (List String)
  | _, sorted, _, [] => some sorted
  | 0, _, _, _ :: _ => none
  | fuel + 1, sorted, graph, node :: more =>
    let s := removeEdges node (go.range fuel (graph.immediateDependencies node).keys) (graph, [])
    sortLoop fuel (node :: sorted) (s.1.removeNode node) (more ++ s.2)

/-- `TopoSort`. -/
def topoSort (g : MapDependencyGraph) : Option (List String) :=
  let nodes := g.nodes.keys
  sortLoop go nodes.length [] g
    ((go.range nodes.length nodes).filter fun n => (g.immediateDependents n).keys = [])

end MapDependencyGraph

/-! ## Neighbours -/

/-- A neighbour of a node. -/
def Dependency.Has (dep : Dependency) (key value : String) : Prop := value ∈ dep.at? key ∅

theorem at?_insert (dep : Dependency) (key k : String) (m : DependencyMap) :
    GoMap.at? (dep.insert key m) k ∅ = if k = key then m else dep.at? k ∅ := by
  rw [GoMap.at?]
  split
  · rename_i h
    rw [h, AList.lookup_insert, Option.getD_some]
  · rename_i h
    rw [AList.lookup_insert_ne h, GoMap.at?]

theorem has_updateIn {dep : Dependency} {key value k v : String} :
    (updateIn dep key value).Has k v ↔ dep.Has k v ∨ k = key ∧ v = value := by
  rw [Dependency.Has, updateIn, at?_insert]
  split
  · rename_i h
    rw [AList.mem_insert, Dependency.Has, h, or_comm]
    simp
  · rename_i h
    rw [Dependency.Has]
    simp [h]

theorem has_deleteIn {dep : Dependency} {key value k v : String} :
    (deleteIn dep key value).Has k v ↔ dep.Has k v ∧ ¬ (k = key ∧ v = value) := by
  rw [deleteIn]
  cases hkey : dep.lookup key with
  | none =>
    refine ⟨fun h => ⟨h, ?_⟩, And.left⟩
    rintro ⟨rfl, rfl⟩
    rw [Dependency.Has, GoMap.at?, hkey] at h
    exact AList.notMem_empty _ h
  | some neighbors =>
    dsimp only
    rw [Dependency.Has, at?_insert, Dependency.Has]
    split
    · rename_i h
      rw [AList.mem_erase, h, GoMap.at?, hkey, Option.getD_some, and_comm]
      simp
    · rename_i h
      simp [h]

theorem has_erase {dep : Dependency} {key k v : String} : Dependency.Has (dep.erase key) k v ↔ dep.Has k v ∧ k ≠ key := by
  rw [Dependency.Has, Dependency.Has, GoMap.at?, GoMap.at?]
  by_cases h : k = key
  · rw [h, AList.lookup_erase]
    simp
  · rw [AList.lookup_erase_ne h]
    simp [h]

/-- A node that has a neighbour is a key. -/
theorem Dependency.Has.mem {dep : Dependency} {key value : String} (h : dep.Has key value) : key ∈ dep := by
  rw [Dependency.Has, GoMap.at?] at h
  cases hkey : dep.lookup key with
  | none =>
    rw [hkey] at h
    exact absurd h (AList.notMem_empty _)
  | some m => exact AList.lookup_isSome.mp (Option.isSome_of_eq_some hkey)

/-- The neighbours of all nodes. -/
theorem Dependency.Has.mem_values {dep : Dependency} {key value : String} (h : dep.Has key value) :
    value ∈ dep.entries.flatMap fun x => x.2.keys := by
  rw [Dependency.Has, GoMap.at?] at h
  cases hkey : dep.lookup key with
  | none =>
    rw [hkey] at h
    exact absurd h (AList.notMem_empty _)
  | some m =>
    rw [hkey] at h
    exact List.mem_flatMap.mpr ⟨⟨key, m⟩, AList.mem_lookup_iff.mp hkey, AList.mem_keys.mp h⟩

/-- `Transitive` has what can be reached. -/
theorem mem_transitive_iff {go : Ranges} {dep : Dependency} {node b : String} :
    b ∈ transitive go dep node ↔ TransGen dep.Has node b := by
  have hnext : ∀ n k v, v ∈ go.range n (dep.at? k ∅).keys ↔ dep.Has k v :=
    fun n _ _ => (go.range_perm n _).mem_iff.trans AList.mem_keys.symm
  have hvalues : ∀ k v, dep.Has k v → v ∈ dep.entries.flatMap fun x => x.2.keys := fun _ _ h => h.mem_values
  exact Digraph.mem_expand_iff hnext hvalues (Nat.lt_succ_self _)

/-! ## Building -/

namespace MapDependencyGraph

variable {go : Ranges} {g g' : MapDependencyGraph} {a b node : String}

/-- An edge goes from a node to one that it depends on. -/
def Edge (g : MapDependencyGraph) (a b : String) : Prop := g.dependencies.Has a b

/-- Calls of `Depend` one after the other, whose errors are ignored. -/
def dependAll (go : Ranges) (g : MapDependencyGraph) (calls : List (String × String)) : MapDependencyGraph :=
  calls.foldl (fun g call => (g.depend go call.1 call.2).getD g) g

theorem isDepend_iff : g.isDepend go a b = true ↔ TransGen g.Edge a b := by
  rw [isDepend, List.contains_iff_mem, mem_transitive_iff]
  rfl

/-- `Depend` fails just for an edge that would close a cycle. -/
theorem depend_eq_none_iff : g.depend go a b = none ↔ a = b ∨ TransGen g.Edge b a := by
  rw [depend, ← @isDepend_iff go]
  split <;> simp_all

theorem depend_eq_some (h : g.depend go a b = some g') :
    g' = ⟨updateIn g.dependencies a b, updateIn g.dependents b a⟩ := by
  rw [depend] at h
  split at h
  · cases h
  · exact (Option.some.inj h).symm

/-- What holds of a graph with the edges that have been declared. -/
structure Built (declared : String → String → Prop) (g : MapDependencyGraph) : Prop where
  mirrored : ∀ a b, g.dependents.Has b a ↔ g.Edge a b
  maximal : Digraph.Maximal declared g.Edge
  tight : ∀ a, (a ∈ g.dependencies → ∃ b, g.dependencies.Has a b) ∧ (a ∈ g.dependents → ∃ b, g.dependents.Has a b)

theorem mem_updateIn {dep : Dependency} {key value k : String} : k ∈ updateIn dep key value ↔ k = key ∨ k ∈ dep :=
  AList.mem_insert _

theorem Built.empty : Built (fun _ _ => False) {} where
  mirrored _ _ := iff_of_false (AList.notMem_empty _) (AList.notMem_empty _)
  maximal _ _ := ⟨fun h => absurd h (AList.notMem_empty _), fun h => h.1.elim⟩
  tight _ := ⟨fun h => absurd h (AList.notMem_empty _), fun h => absurd h (AList.notMem_empty _)⟩

theorem tight_updateIn {dep : Dependency} {key value : String} (h : ∀ a, a ∈ dep → ∃ b, dep.Has a b) (a : String)
    (ha : a ∈ updateIn dep key value) : ∃ b, (updateIn dep key value).Has a b := by
  rcases mem_updateIn.mp ha with rfl | ha
  · exact ⟨value, has_updateIn.mpr (.inr ⟨rfl, rfl⟩)⟩
  · obtain ⟨b, hb⟩ := h a ha
    exact ⟨b, has_updateIn.mpr (.inl hb)⟩

variable {declared : String → String → Prop}

theorem Built.depend (h : Built declared g) (go : Ranges) (a b : String) :
    Built (Digraph.Insert declared a b) ((g.depend go a b).getD g) := by
  cases hd : g.depend go a b with
  | none => exact { h with maximal := h.maximal.refuse (depend_eq_none_iff.mp hd) }
  | some g' =>
    obtain ⟨hne, hback⟩ := not_or.mp (mt depend_eq_none_iff.mpr (hd ▸ Option.some_ne_none g'))
    have hg' := depend_eq_some hd
    subst hg'
    have hedge : Edge ⟨updateIn g.dependencies a b, updateIn g.dependents b a⟩ = Digraph.Insert g.Edge a b := by
      ext x y
      exact has_updateIn
    rw [Option.getD_some]
    constructor
    · intro x y
      rw [hedge]
      show (updateIn g.dependents b a).Has y x ↔ _
      rw [has_updateIn, h.mirrored, Digraph.Insert, and_comm (a := y = b)]
    · rw [hedge]
      exact h.maximal.take hne hback
    · exact fun x => ⟨tight_updateIn (fun x => (h.tight x).1) x, tight_updateIn (fun x => (h.tight x).2) x⟩

/-- After any calls of `Depend` a graph has the edges of those that do not close a cycle. -/
theorem Built.dependAll (h : Built declared g) (go : Ranges) (calls : List (String × String)) :
    Built (fun a b => declared a b ∨ (a, b) ∈ calls) (g.dependAll go calls) := by
  induction calls generalizing g declared with
  | nil => simpa [MapDependencyGraph.dependAll] using h
  | cons call calls ih =>
    have hdeclared : (fun a b => Digraph.Insert declared call.1 call.2 a b ∨ (a, b) ∈ calls) =
        fun a b => declared a b ∨ (a, b) ∈ call :: calls := by
      ext a b
      rw [Digraph.Insert, List.mem_cons, or_assoc, Prod.ext_iff]
    exact hdeclared ▸ ih (h.depend go call.1 call.2)

/-! ## Sorting -/

theorem mem_nodes : node ∈ g.nodes ↔ node ∈ g.dependencies ∨ node ∈ g.dependents := by
  have hfold : ∀ (keys : List String) (m : DependencyMap),
      node ∈ keys.foldl (fun nodes key => nodes.insert key ()) m ↔ node ∈ keys ∨ node ∈ m := by
    intro keys
    induction keys with
    | nil => simp
    | cons key keys ih =>
      intro m
      rw [List.foldl_cons, ih, AList.mem_insert, List.mem_cons, or_left_comm, or_assoc]
  rw [nodes, hfold, List.mem_append, or_iff_left (AList.notMem_empty _)]
  rfl

/-- The nodes are those with an edge. -/
theorem Built.mem_nodes_iff (h : Built declared g) : node ∈ g.nodes ↔ ∃ n, g.Edge node n ∨ g.Edge n node := by
  rw [mem_nodes]
  constructor
  · rintro (hnode | hnode)
    · exact ((h.tight node).1 hnode).imp fun n hn => .inl hn
    · exact ((h.tight node).2 hnode).imp fun n hn => .inr ((h.mirrored n node).mp hn)
  · rintro ⟨n, hn | hn⟩
    · exact .inl hn.mem
    · exact .inr ((h.mirrored n node).mpr hn).mem

theorem immediateDependents_eq_nil : (g.immediateDependents node).keys = [] ↔ ∀ a, ¬ g.dependents.Has node a := by
  rw [List.eq_nil_iff_forall_not_mem]
  rfl

/-- The edges of a node to these nodes are gone, and the new ones are those on which only the node depended. -/
theorem removeEdges_spec (node : String) (deps : List String) : ∀ (g : MapDependencyGraph) (add : List String),
    (∀ a b, (removeEdges node deps (g, add)).1.Edge a b ↔ g.Edge a b ∧ ¬ (a = node ∧ b ∈ deps)) ∧
    (∀ a b, (removeEdges node deps (g, add)).1.dependents.Has b a ↔
      g.dependents.Has b a ∧ ¬ (a = node ∧ b ∈ deps)) ∧
    (removeEdges node deps (g, add)).2.Sublist (add ++ deps) ∧
    ∀ b, b ∈ (removeEdges node deps (g, add)).2 ↔
      b ∈ add ∨ b ∈ deps ∧ ∀ a, g.dependents.Has b a → a = node := by
  induction deps with
  | nil => simp [removeEdges]
  | cons d deps ih =>
    intro g add
    rw [removeEdges]
    set g' := g.removeEdge node d with hg'
    have hedge : ∀ a b, g'.Edge a b ↔ g.Edge a b ∧ ¬ (a = node ∧ b = d) := fun a b => has_deleteIn
    have hdependents : ∀ a b, g'.dependents.Has b a ↔ g.dependents.Has b a ∧ ¬ (a = node ∧ b = d) := fun a b =>
      has_deleteIn.trans (by rw [and_comm (a := b = d)])
    have honly : (g'.immediateDependents d).keys = [] ↔ ∀ a, g.dependents.Has d a → a = node := by
      rw [immediateDependents_eq_nil]
      refine forall_congr' fun a => ?_
      rw [hdependents, not_and, not_not, and_iff_left rfl]
    obtain ⟨h₁, h₂, h₃, h₄⟩ := ih g' (if (g'.immediateDependents d).keys = [] then add ++ [d] else add)
    refine ⟨fun a b => ?_, fun a b => ?_, ?_, fun b => ?_⟩
    · rw [h₁, hedge, List.mem_cons]
      tauto
    · rw [h₂, hdependents, List.mem_cons]
      tauto
    · refine h₃.trans ?_
      split
      · rw [List.append_assoc, List.singleton_append]
      · exact List.Sublist.append_left (List.sublist_cons_self _ _) _
    · rw [h₄, List.mem_cons]
      have hlater : (∀ a, g'.dependents.Has b a → a = node) ↔ ∀ a, g.dependents.Has b a → a = node := by
        refine forall_congr' fun a => ?_
        rw [hdependents]
        tauto
      have hadd : b ∈ (if (g'.immediateDependents d).keys = [] then add ++ [d] else add) ↔
          b ∈ add ∨ b = d ∧ ∀ a, g.dependents.Has d a → a = node := by
        split
        · rename_i hd
          rw [List.mem_append, List.mem_singleton, and_iff_left (honly.mp hd)]
        · rename_i hd
          exact (or_iff_left fun h => hd (honly.mpr h.2)).symm
      rw [hlater, hadd, or_assoc]
      refine or_congr_right ?_
      constructor
      · rintro (⟨rfl, hall⟩ | ⟨hb, hall⟩)
        · exact ⟨.inl rfl, hall⟩
        · exact ⟨.inr hb, hall⟩
      · rintro ⟨rfl | hb, hall⟩
        · exact .inl ⟨rfl, hall⟩
        · exact .inr ⟨hb, hall⟩

section

variable {nodes sorted todo : List String}

open Digraph (Sorting)

/-- One turn of the loop of `TopoSort`. -/
theorem sort_step {graph : MapDependencyGraph} (hmirrored : ∀ a b, graph.dependents.Has b a ↔ graph.Edge a b)
    (hnodes : ∀ a b, g.Edge a b → b ∈ nodes) (h : Sorting g.Edge nodes graph.Edge sorted (node :: todo))
    {deps : List String} (hdeps : deps.Perm (graph.immediateDependencies node).keys) :
    (∀ a b, ((removeEdges node deps (graph, [])).1.removeNode node).dependents.Has b a ↔
      ((removeEdges node deps (graph, [])).1.removeNode node).Edge a b) ∧
    Sorting g.Edge nodes ((removeEdges node deps (graph, [])).1.removeNode node).Edge (node :: sorted)
      (todo ++ (removeEdges node deps (graph, [])).2) := by
  obtain ⟨hedge, hdependents, hsub, hadd⟩ := removeEdges_spec node deps graph []
  have hmem : ∀ b, b ∈ deps ↔ graph.Edge node b := fun b => hdeps.mem_iff
  have hrest : ((removeEdges node deps (graph, [])).1.removeNode node).Edge = fun a b => graph.Edge a b ∧ a ≠ node := by
    ext a b
    refine has_erase.trans ?_
    rw [← Edge, hedge, hmem]
    constructor
    · exact fun h => ⟨h.1.1, h.2⟩
    · exact fun h => ⟨⟨h.1, fun h' => h.2 h'.1⟩, h.2⟩
  constructor
  · intro a b
    show (removeEdges node deps (graph, [])).1.dependents.Has b a ↔ _
    rw [hrest, hdependents, hmem, hmirrored]
    constructor
    · rintro ⟨hab, hnot⟩
      exact ⟨hab, fun ha => hnot ⟨ha, ha ▸ hab⟩⟩
    · exact fun h => ⟨h.1, fun h' => h.2 h'.1⟩
  · rw [hrest]
    refine h.step hnodes (hsub.nodup (hdeps.nodup_iff.mpr (AList.keys_nodup _))) fun b => ?_
    rw [hadd, or_iff_right List.not_mem_nil, hmem]
    refine and_congr_right fun _ => forall_congr' fun a => ?_
    rw [hmirrored, not_imp_not]

/-- The loop is done before its fuel is: each node is taken up once. -/
theorem sortLoop_spec (go : Ranges) (hnodes : ∀ a b, g.Edge a b → b ∈ nodes) (fuel : Nat) :
    ∀ (sorted todo : List String) (graph : MapDependencyGraph),
    (∀ a b, graph.dependents.Has b a ↔ graph.Edge a b) → Sorting g.Edge nodes graph.Edge sorted todo →
    nodes.length ≤ sorted.length + fuel →
    ∃ sorted' rest, sortLoop go fuel sorted graph todo = some sorted' ∧ Sorting g.Edge nodes rest sorted' [] := by
  induction fuel with
  | zero =>
    intro sorted todo graph _ h hfuel
    cases todo with
    | nil => exact ⟨sorted, graph.Edge, rfl, h⟩
    | cons node todo =>
      have hsub : sorted ++ node :: todo ⊆ nodes := fun b hb => ((h.free b).mp (List.mem_append.mp hb)).1
      have hlen := (h.nodup.subperm hsub).length_le
      rw [List.length_append, List.length_cons] at hlen
      omega
  | succ fuel ih =>
    intro sorted todo graph hmirrored h hfuel
    cases todo with
    | nil => exact ⟨sorted, graph.Edge, by rw [sortLoop], h⟩
    | cons node todo =>
      obtain ⟨hmirrored', h'⟩ := sort_step hmirrored hnodes h (go.range_perm fuel _)
      rw [sortLoop]
      refine ih _ _ _ hmirrored' h' ?_
      rw [List.length_cons]
      omega

end

/-- `TopoSort` has each node of the graph once, and none before one that it depends on. -/
theorem Built.topoSort (h : Built declared g) (go : Ranges) :
    ∃ sorted, g.topoSort go = some sorted ∧ sorted.Nodup ∧ (∀ a, a ∈ sorted ↔ ∃ b, g.Edge a b ∨ g.Edge b a) ∧
      sorted.Pairwise fun a b => ¬ TransGen g.Edge a b := by
  have hmem : ∀ a, a ∈ g.nodes.keys ↔ ∃ b, g.Edge a b ∨ g.Edge b a := fun a => h.mem_nodes_iff
  have hhead : ∀ a b, g.Edge a b → a ∈ g.nodes.keys := fun a b hab => (hmem a).mpr ⟨b, .inl hab⟩
  have htail : ∀ a b, g.Edge a b → b ∈ g.nodes.keys := fun a b hab => (hmem b).mpr ⟨a, .inr hab⟩
  have hstart : Digraph.Sorting g.Edge g.nodes.keys g.Edge []
      ((go.range g.nodes.keys.length g.nodes.keys).filter fun n => (g.immediateDependents n).keys = []) := by
    have hperm := go.range_perm g.nodes.keys.length g.nodes.keys
    refine ⟨(hperm.nodup_iff.mpr (AList.keys_nodup _)).filter _, fun a b => by simp, fun b => ?_, .nil⟩
    rw [List.mem_filter, decide_eq_true_eq, immediateDependents_eq_nil, hperm.mem_iff]
    simp [h.mirrored]
  obtain ⟨sorted, rest, hsort, hdone⟩ := sortLoop_spec go htail _ _ _ _ h.mirrored hstart (Nat.le_add_left _ _)
  have hall : ∀ a, a ∈ sorted ↔ a ∈ g.nodes.keys := hdone.mem_iff hhead h.maximal.acyclic
  exact ⟨sorted, hsort, by simpa using hdone.nodup, fun a => (hall a).trans (hmem a),
    hdone.pairwise hhead h.maximal.acyclic⟩

/-- A graph that is built by any calls of `Depend` has no cycle, and all those of their edges that
do not close one; `TopoSort` has each of its nodes once, and none before one that it depends on. -/
theorem topoSort_dependAll (go go' : Ranges) (calls : List (String × String)) :
    (∀ a b, (dependAll go {} calls).Edge a b ↔
      (a, b) ∈ calls ∧ a ≠ b ∧ ¬ TransGen (dependAll go {} calls).Edge b a) ∧
    (∀ a, ¬ TransGen (dependAll go {} calls).Edge a a) ∧
    ∃ sorted, (dependAll go {} calls).topoSort go' = some sorted ∧ sorted.Nodup ∧
      (∀ a, a ∈ sorted ↔ ∃ b, (dependAll go {} calls).Edge a b ∨ (dependAll go {} calls).Edge b a) ∧
      sorted.Pairwise fun a b => ¬ TransGen (dependAll go {} calls).Edge a b := by
  have hbuilt := Built.empty.dependAll go calls
  refine ⟨fun a b => (hbuilt.maximal a b).trans ?_, hbuilt.maximal.acyclic, hbuilt.topoSort go'⟩
  simp only [false_or]

end MapDependencyGraph

end OpenConfigd.Boot
