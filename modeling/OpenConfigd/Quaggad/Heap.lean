import OpenConfigd.Lib.PointerTree
import OpenConfigd.Quaggad.Loop

/-!
# The configuration trees on pointers

The trees of quaggad as `quagga.go` keeps them: nodes with parent pointers, of which a DELETE
makes use, and a copy of the running tree node by node. `run_algebra` says what the
operations do to the sets of label paths, after every run; `run_agrees` that the trees of
`Node` are these sets.
-/

namespace OpenConfigd.Quaggad

/-- A path of labels that are not empty. -/
abbrev LabelPath := {path : List String // path ≠ [] ∧ "" ∉ path}

/-- The nodes of quaggad, and the roots of its two trees. -/
structure StateNodes where
  heap : PointerHeap String
  configRunning : Nat
  configCandidate : Nat

/-- The steps of quaggad that change its trees; a copy ranges over the maps in some order. -/
inductive StateOp where
  | quaggaConfigStateUpdate (validating : Bool) (command : Command) (path : LabelPath)
  | quaggaConfigStateSync (range : PointerHeap.Range String)

namespace StateNodes

/-- The roots that `Main` makes. -/
def main : StateNodes :=
  let (configRunning, heap) := PointerHeap.empty.make none
  let (configCandidate, heap) := heap.make none
  ⟨heap, configRunning, configCandidate⟩

/-- `quaggaConfigStateSet`. -/
def quaggaConfigStateSet (heap : PointerHeap String) (config : Nat) (path : List String) : PointerHeap String :=
  heap.set config path

/-- The loop of `quaggaConfigStateDelete`: the last node of the path and its label. -/
def descend (heap : PointerHeap String) : Nat → String → List String → Option (Nat × String)
  | c, l, [] => some (c, l)
  | c, _, n :: path =>
    match heap.child c n with
    | none => none
    | some ct => descend heap ct n path

/-- `quaggaConfigStateDelete`. -/
def quaggaConfigStateDelete (heap : PointerHeap String) (config : Nat) (path : List String) :
    PointerHeap String :=
  match descend heap config "" path with
  | none => heap
  | some (c, l) =>
    match heap.parent c with
    | none => heap
    | some parent => if l = "" then heap else heap.cut parent l

/-- The tree that `quaggaConfigStateUpdate` changes. -/
def config (s : StateNodes) (validating : Bool) : Nat :=
  if validating then s.configCandidate else s.configRunning

/-- `quaggaConfigStateUpdate`. -/
def quaggaConfigStateUpdate (s : StateNodes) (validating : Bool) (command : Command) (path : List String) :
    StateNodes :=
  { s with
    heap := match command with
      | .set => quaggaConfigStateSet s.heap (s.config validating) path
      | .delete => quaggaConfigStateDelete s.heap (s.config validating) path }

/-- `quaggaConfigStateSync`. -/
def quaggaConfigStateSync (s : StateNodes) (range : PointerHeap.Range String) : Option StateNodes :=
  let (configNew, heap) := s.heap.make none
  (PointerHeap.copy range s.heap.size heap s.configRunning configNew).map fun heap =>
    { s with heap, configCandidate := configNew }

/-- `quaggaConfigStateDiff1`. -/
def quaggaConfigStateDiff1 (s : StateNodes) (range : PointerHeap.Range String) (l r : Option Nat) : Option Bool :=
  PointerHeap.differ range s.heap (s.heap.size + 1) l r

/-- `lookup`: nothing is found at the empty path. -/
def lookup (heap : PointerHeap String) (config : Nat) : List String → Option Nat
  | [] => none
  | a :: path => heap.walk config (a :: path)

/-- `value`: the label below a path when there is just one. -/
def value (heap : PointerHeap String) (config : Nat) (path : List String) : Option String :=
  match (lookup heap config path).map fun c => (heap.entries c).map Prod.fst with
  | some [label] => some label
  | _ => none

/-- `values`. -/
def values (heap : PointerHeap String) (config : Nat) (path : List String) : List String :=
  ((lookup heap config path).map fun c => (heap.entries c).map Prod.fst).getD []

/-- A step of quaggad. -/
def step (s : StateNodes) : StateOp → Option StateNodes
  | .quaggaConfigStateUpdate validating command path => some (s.quaggaConfigStateUpdate validating command path)
  | .quaggaConfigStateSync range => s.quaggaConfigStateSync range

/-- The trees after a run. -/
def run (ops : List StateOp) : Option StateNodes := ops.foldlM step main

/-- The label paths of the two trees. -/
def paths (s : StateNodes) (validating : Bool) : Set (List String) := s.heap.paths (s.config validating)

end StateNodes

/-- What a command makes of a set of paths. -/
def Command.follow : Command → List String → Set (List String) → Set (List String)
  | .set, path, tree => {q | q ∈ tree ∨ q <+: path}
  | .delete, path, tree => {q | q ∈ tree ∧ ¬ path <+: q}

/-- What a step makes of the two sets of paths. -/
def StateOp.follow (trees : Bool → Set (List String)) : StateOp → Bool → Set (List String)
  | .quaggaConfigStateUpdate validating command path, v =>
    if v = validating then command.follow path (trees v) else trees v
  | .quaggaConfigStateSync _, _ => trees false

namespace StateNodes

/-- The trees have roots of their own, and their pointers agree. -/
structure Valid (s : StateNodes) : Prop where
  linked : s.heap.Linked
  made : ∀ v, s.config v < s.heap.size
  root : ∀ v, s.heap.parent (s.config v) = none
  apart : s.configRunning ≠ s.configCandidate

theorem valid_main : main.Valid where
  linked := (PointerHeap.Linked.empty.make none).make none
  made := by decide
  root := by decide
  apart := by decide

theorem paths_main (v : Bool) : main.paths v = {[]} := by
  have hnone (x : Nat) (a : String) : main.heap.child x a = none := by
    simp only [main, PointerHeap.child_make]
    split
    · rfl
    · split
      · rfl
      · exact AList.lookup_empty a
  ext q
  cases q with
  | nil => exact iff_of_true rfl rfl
  | cons a q =>
    rw [paths, PointerHeap.cons_mem_paths, hnone, Set.mem_singleton_iff]
    refine iff_of_false ?_ (List.cons_ne_nil a q)
    rintro ⟨y, hy, -⟩
    cases hy

variable {s : StateNodes} {heap : PointerHeap String} {r c : Nat}

/-! ## Delete -/

theorem descend_eq (heap : PointerHeap String) (c : Nat) (l : String) (path : List String) :
    descend heap c l path = (heap.walk c path).map fun x => (x, path.getLast?.getD l) := by
  induction path generalizing c l with
  | nil => rfl
  | cons n path ih =>
    rw [descend, PointerHeap.walk]
    cases heap.child c n with
    | none => rfl
    | some ct =>
      dsimp only
      rw [ih, List.getLast?_cons, Option.bind_some, Option.getD_some]

/-- A path that leads nowhere is not deleted. -/
theorem delete_absent {path : List String} (h : path ∉ heap.paths c) : quaggaConfigStateDelete heap c path = heap := by
  have hnone : heap.walk c path = none := Option.not_isSome_iff_eq_none.mp h
  rw [quaggaConfigStateDelete, descend_eq, hnone]
  rfl

/-- Another one is cut off at the node before its last. -/
theorem delete_present (hl : heap.Linked) {path : List String} {l : String} (hne : l ≠ "")
    (h : path ++ [l] ∈ heap.paths c) :
    ∃ x, heap.walk c path = some x ∧ quaggaConfigStateDelete heap c (path ++ [l]) = heap.cut x l := by
  obtain ⟨y, hy⟩ := Option.isSome_iff_exists.mp h
  have hwalk := hy
  rw [PointerHeap.walk_concat, Option.bind_eq_some_iff] at hwalk
  obtain ⟨x, hx, hxy⟩ := hwalk
  refine ⟨x, hx, ?_⟩
  rw [quaggaConfigStateDelete, descend_eq, hy, List.getLast?_concat]
  dsimp only [Option.map_some, Option.getD_some]
  rw [hl.held hxy]
  exact if_neg hne

theorem linked_delete (hl : heap.Linked) (c : Nat) (path : List String) :
    (quaggaConfigStateDelete heap c path).Linked := by
  unfold quaggaConfigStateDelete
  split
  · exact hl
  · split
    · exact hl
    · split
      · exact hl
      · exact hl.cut _ _

theorem size_delete (heap : PointerHeap String) (c : Nat) (path : List String) :
    (quaggaConfigStateDelete heap c path).size = heap.size := by
  unfold quaggaConfigStateDelete
  split
  · rfl
  · split
    · rfl
    · split <;> rfl

theorem parent_delete (heap : PointerHeap String) (c : Nat) (path : List String) (x : Nat) :
    (quaggaConfigStateDelete heap c path).parent x = heap.parent x := by
  unfold quaggaConfigStateDelete
  split
  · rfl
  · split
    · rfl
    · split
      · rfl
      · exact PointerHeap.parent_cut

/-- Delete removes the extensions of a path from the tree of its root, and leaves other roots alone. -/
theorem paths_delete (hl : heap.Linked) (hc : heap.parent c = none) (hr : heap.parent r = none)
    {path : List String} (hnil : path ≠ []) (hlabels : "" ∉ path) (q : List String) :
    q ∈ (quaggaConfigStateDelete heap c path).paths r ↔ q ∈ heap.paths r ∧ ¬ (r = c ∧ path <+: q) := by
  obtain ⟨p, l, rfl⟩ := (List.eq_nil_or_concat path).resolve_left hnil
  rw [List.concat_eq_append] at hlabels ⊢
  have hne : l ≠ "" := fun h => hlabels (h ▸ List.mem_append_right p (List.mem_singleton.mpr rfl))
  by_cases h : p ++ [l] ∈ heap.paths c
  · obtain ⟨x, hx, hcut⟩ := delete_present hl hne h
    rw [hcut, PointerHeap.paths_cut]
    refine and_congr_right fun _ => not_congr ⟨?_, ?_⟩
    · rintro ⟨s, t, hs, rfl⟩
      obtain ⟨hrc, rfl⟩ := hl.walk_inj hr hc hs hx
      exact ⟨hrc, t, by rw [List.append_assoc, List.singleton_append]⟩
    · rintro ⟨rfl, t, rfl⟩
      exact ⟨p, t, hx, by rw [List.append_assoc, List.singleton_append]⟩
  · rw [delete_absent h]
    refine ⟨fun hq => ⟨hq, ?_⟩, fun hq => hq.1⟩
    rintro ⟨rfl, t, rfl⟩
    exact h (PointerHeap.paths_closed hq)

/-! ## The steps -/

theorem config_ne (hs : s.Valid) {v w : Bool} (h : v ≠ w) : s.config v ≠ s.config w := by
  cases v with
  | false =>
    cases w with
    | false => exact absurd rfl h
    | true => exact hs.apart
  | true =>
    cases w with
    | false => exact hs.apart.symm
    | true => exact absurd rfl h

theorem valid_update (hs : s.Valid) (validating : Bool) (command : Command) (path : List String) :
    (s.quaggaConfigStateUpdate validating command path).Valid := by
  cases command with
  | set =>
    exact {
      linked := hs.linked.set (hs.made validating) path
      made := fun v => (hs.made v).trans_le (PointerHeap.size_set ..)
      root := fun v => (PointerHeap.parent_set (hs.made v) ..).trans (hs.root v)
      apart := hs.apart }
  | delete =>
    exact {
      linked := linked_delete hs.linked _ path
      made := fun v => (hs.made v).trans_eq (size_delete ..).symm
      root := fun v => (parent_delete ..).trans (hs.root v)
      apart := hs.apart }

theorem paths_update (hs : s.Valid) (validating : Bool) (command : Command) (path : LabelPath) (v : Bool) :
    (s.quaggaConfigStateUpdate validating command path).paths v =
      if v = validating then command.follow path (s.paths v) else s.paths v := by
  by_cases hv : v = validating
  · subst hv
    rw [if_pos rfl]
    ext q
    cases command with
    | set => exact PointerHeap.paths_set hs.linked (hs.made v) (hs.root v) path
    | delete =>
      have hdelete := paths_delete hs.linked (hs.root v) (hs.root v) path.2.1 path.2.2 q
      exact hdelete.trans (and_congr_right fun _ => not_congr (and_iff_right rfl))
  · rw [if_neg hv]
    cases command with
    | set =>
      exact PointerHeap.paths_set_other hs.linked (hs.made v) (hs.root v) (hs.made validating)
        (hs.root validating) (config_ne hs hv) path
    | delete =>
      ext q
      have hdelete := paths_delete hs.linked (hs.root validating) (hs.root v) path.2.1 path.2.2 q
      refine hdelete.trans (and_iff_left ?_)
      exact fun h => config_ne hs hv h.1

/-- A copy makes the paths of the candidate those of the running tree. -/
theorem sync_spec (hs : s.Valid) (range : PointerHeap.Range String) : ∃ s', s.quaggaConfigStateSync range = some s' ∧
    s'.Valid ∧ ∀ v, s'.paths v = s.paths false := by
  have hrunning : s.configRunning < s.heap.size := hs.made false
  have hchild (x : Nat) (hx : x < s.heap.size) (a : String) :
      (s.heap.make none).2.child x a = s.heap.child x a := by
    rw [PointerHeap.child_make, if_neg hx.ne]
  have hfree (a : String) : (s.heap.make none).2.child s.heap.size a = none := by
    rw [PointerHeap.child_make, if_pos rfl]
  have hclosed : s.heap.Closed s.heap.size := fun x _ a y hy => (hs.linked.newer hy).2
  have hclosed' : (s.heap.make none).2.Closed s.heap.size := fun x hx a y hy =>
    hclosed x hx a y (hchild x hx a ▸ hy)
  obtain ⟨heap, hcopy, hg, hpaths⟩ := PointerHeap.copy_spec range (hs.linked.make none) hclosed' hrunning
    (Nat.le_refl _) (Nat.lt_succ_self _) hfree (Nat.le_add_left _ _)
  have hlt {x : Nat} (hx : x < s.heap.size) : x < (s.heap.make none).2.size := Nat.lt_succ_of_lt hx
  -- The nodes there were have not changed.
  have hsame {g : PointerHeap String} (hg : ∀ x < s.heap.size, ∀ a, g.child x a = s.heap.child x a) :
      g.paths s.configRunning = s.paths false :=
    PointerHeap.paths_congr (S := (· < s.heap.size)) hclosed hg hrunning
  refine ⟨{ s with heap, configCandidate := s.heap.size }, ?_, ?_, fun v => ?_⟩
  · rw [quaggaConfigStateSync]
    show (PointerHeap.copy range s.heap.size (s.heap.make none).2 s.configRunning s.heap.size).map _ = _
    rw [hcopy]
    rfl
  · exact {
      linked := hg.linked
      made := fun v => match v with
        | false => (hlt hrunning).trans_le hg.size
        | true => (Nat.lt_succ_self _).trans_le hg.size
      root := fun v => match v with
        | false => by
          show heap.parent s.configRunning = none
          rw [hg.parent _ (hlt hrunning), PointerHeap.parent_make, if_neg hrunning.ne]
          exact hs.root false
        | true => by
          show heap.parent s.heap.size = none
          rw [hg.parent _ (Nat.lt_succ_self _), PointerHeap.parent_make, if_pos rfl]
      apart := hrunning.ne }
  · cases v with
    | false =>
      refine hsame fun x hx a => ?_
      rw [hg.child x (hlt hx) hx.ne, hchild x hx]
    | true => exact hpaths.trans (hsame hchild)

/-- No node is in both trees. -/
theorem not_shared (hs : s.Valid) {p q : List String} {x : Nat} (hp : s.heap.walk s.configRunning p = some x) :
    s.heap.walk s.configCandidate q ≠ some x := fun hq =>
  hs.apart (hs.linked.walk_inj (hs.root false) (hs.root true) hp hq).1

/-- A step keeps the trees valid, and does to their paths what it says. -/
theorem step_spec (hs : s.Valid) (op : StateOp) : ∃ s', s.step op = some s' ∧ s'.Valid ∧
    s'.paths = op.follow s.paths := by
  cases op with
  | quaggaConfigStateUpdate validating command path =>
    exact ⟨_, rfl, valid_update hs validating command path, funext fun v => paths_update hs validating command path v⟩
  | quaggaConfigStateSync range =>
    obtain ⟨s', hstep, hs', hpaths⟩ := sync_spec hs range
    exact ⟨s', hstep, hs', funext hpaths⟩

/-- After a run the trees are valid, and their paths are those of the steps. -/
theorem run_spec (ops : List StateOp) : ∃ s, run ops = some s ∧ s.Valid ∧
    s.paths = ops.foldl StateOp.follow fun _ => {[]} := by
  have hrun (ops : List StateOp) {s : StateNodes} (hs : s.Valid) : ∃ s', ops.foldlM step s = some s' ∧ s'.Valid ∧
      s'.paths = ops.foldl StateOp.follow s.paths := by
    induction ops generalizing s with
    | nil => exact ⟨s, rfl, hs, rfl⟩
    | cons op ops ih =>
      obtain ⟨s₁, hstep, hs₁, hpaths₁⟩ := step_spec hs op
      obtain ⟨s', hrun, hs', hpaths⟩ := ih hs₁
      refine ⟨s', ?_, hs', ?_⟩
      · rw [List.foldlM_cons, hstep]
        exact hrun
      · rw [hpaths, hpaths₁, List.foldl_cons]
  obtain ⟨s, hs, hvalid, hpaths⟩ := hrun ops valid_main
  exact ⟨s, hs, hvalid, by rw [hpaths, funext paths_main]⟩

/-- The comparison of any two nodes tells whether they have the same paths, or are not there. -/
theorem diff1_spec (hs : s.Valid) (range : PointerHeap.Range String) (l r : Option Nat) (hmade : ∀ x ∈ l, x < s.heap.size) :
    ∃ b, s.quaggaConfigStateDiff1 range l r = some b ∧ (b = false ↔
      l = none ∧ r = none ∨ ∃ x y, l = some x ∧ r = some y ∧ s.heap.paths x = s.heap.paths y) := by
  cases l with
  | none =>
    cases r with
    | none => exact ⟨false, rfl, iff_of_true rfl (.inl ⟨rfl, rfl⟩)⟩
    | some y =>
      refine ⟨true, rfl, iff_of_false Bool.noConfusion ?_⟩
      rintro (⟨-, h⟩ | ⟨_, _, h, -⟩)
      · cases h
      · cases h
  | some x =>
    cases r with
    | none =>
      refine ⟨true, rfl, iff_of_false Bool.noConfusion ?_⟩
      rintro (⟨h, -⟩ | ⟨_, _, -, h, -⟩)
      · cases h
      · cases h
    | some y =>
      have hfuel : s.heap.size ≤ x + (s.heap.size + 1) := by omega
      obtain ⟨b, hb, hiff⟩ := PointerHeap.differ_spec range hs.linked (r := y) (hmade x rfl) hfuel
      refine ⟨b, hb, hiff.trans ⟨fun h => .inr ⟨x, y, rfl, rfl, h⟩, ?_⟩⟩
      rintro (⟨h, -⟩ | ⟨x', y', hx, hy, h⟩)
      · cases h
      · cases hx
        cases hy
        exact h

/-- After every run of the steps the trees are sets of paths closed under prefixes, each child
is held by the node above it, and the next step does to the sets what it says. -/
theorem run_algebra (ops : List StateOp) : ∃ s, run ops = some s ∧
    (∀ v p q, p ++ q ∈ s.paths v → p ∈ s.paths v) ∧
    (∀ v path x a y, s.heap.walk (s.config v) path = some x → s.heap.child x a = some y → s.heap.parent y = some x) ∧
    (∀ v (path : LabelPath), ∃ s', s.step (.quaggaConfigStateUpdate v .set path) = some s' ∧
      s'.paths (!v) = s.paths (!v) ∧ ∀ q, q ∈ s'.paths v ↔ q ∈ s.paths v ∨ q <+: path.1) ∧
    (∀ v (path : LabelPath), ∃ s', s.step (.quaggaConfigStateUpdate v .delete path) = some s' ∧
      s'.paths (!v) = s.paths (!v) ∧ (∀ q, q ∈ s'.paths v ↔ q ∈ s.paths v ∧ ¬ path.1 <+: q) ∧
      (path.1 ∉ s.paths v → s' = s)) ∧
    (∀ range, ∃ s', s.step (.quaggaConfigStateSync range) = some s' ∧ s'.paths true = s.paths false ∧
      s'.paths false = s.paths false ∧
      ∀ p q x, s'.heap.walk s'.configRunning p = some x → s'.heap.walk s'.configCandidate q ≠ some x) ∧
    (∀ range l r, (∀ x ∈ l, x < s.heap.size) → ∃ b, s.quaggaConfigStateDiff1 range l r = some b ∧
      (b = false ↔ l = none ∧ r = none ∨
        ∃ x y, l = some x ∧ r = some y ∧ s.heap.paths x = s.heap.paths y)) := by
  obtain ⟨s, hrun, hs, -⟩ := run_spec ops
  refine ⟨s, hrun, fun v p q => PointerHeap.paths_closed, fun _ _ _ _ _ _ hy => hs.linked.held hy,
    fun v path => ?_, fun v path => ?_, fun range => ?_, fun range l r => diff1_spec hs range l r⟩
  · refine ⟨_, rfl, ?_, fun q => ?_⟩
    · rw [paths_update hs, if_neg (Bool.not_ne_self v)]
    · rw [paths_update hs, if_pos rfl]
      exact Iff.rfl
  · refine ⟨_, rfl, ?_, fun q => ?_, fun habsent => ?_⟩
    · rw [paths_update hs, if_neg (Bool.not_ne_self v)]
    · rw [paths_update hs, if_pos rfl]
      exact Iff.rfl
    · show { s with heap := quaggaConfigStateDelete s.heap (s.config v) path } = s
      rw [delete_absent habsent]
  · obtain ⟨s', hstep, hs', hpaths⟩ := sync_spec hs range
    exact ⟨s', hstep, hpaths true, hpaths false, fun p q x hp => not_shared hs' hp⟩

/-! ## The trees of `Node` -/

/-- What a step makes of the two trees. -/
def follow (nodes : Bool → Node) (op : StateOp) (v : Bool) : Node :=
  match op with
  | .quaggaConfigStateUpdate validating command path =>
    if v = validating then State.update (nodes v) (command, path.1) else nodes v
  | .quaggaConfigStateSync _ => if v then (nodes false).sync else nodes false

/-- A set of paths is that of a tree. -/
def Agrees (tree : Set (List String)) (node : Node) : Prop := ∀ p, p ∈ tree ↔ node.tree.Has p

theorem agrees_follow {trees : Bool → Set (List String)} {nodes : Bool → Node} (h : ∀ v, Agrees (trees v) (nodes v))
    (op : StateOp) (v : Bool) : Agrees (op.follow trees v) (follow nodes op v) := by
  cases op with
  | quaggaConfigStateUpdate validating command path =>
    rw [StateOp.follow, follow]
    split
    · cases command with
      | set =>
        intro p
        exact (or_congr_left (h v p)).trans (LabelTree.has_set _ _ p).symm
      | delete =>
        have hlast : path.1.getLast? ≠ some "" := fun hl => path.2.2 (List.mem_of_getLast? hl)
        intro p
        show _ ↔ (if path.1.getLast? = some "" then nodes v else _).tree.Has p
        rw [if_neg hlast]
        exact (and_congr_left fun _ => h v p).trans (LabelTree.has_delete _ path.2.1 p).symm
    · exact h v
  | quaggaConfigStateSync range =>
    rw [StateOp.follow, follow]
    cases v with
    | false => exact h false
    | true =>
      intro p
      show p ∈ trees false ↔ (nodes false).tree.copy.Has p
      rw [LabelTree.copy_eq (nodes false).distinct]
      exact h false p

/-- After every run the pointers hold the paths of the trees of `Node`. -/
theorem run_agrees (ops : List StateOp) :
    ∃ s, run ops = some s ∧ ∀ v, Agrees (s.paths v) (ops.foldl follow (fun _ => .make) v) := by
  obtain ⟨s, hrun, -, hpaths⟩ := run_spec ops
  refine ⟨s, hrun, ?_⟩
  have hfold (trees : Bool → Set (List String)) (nodes : Bool → Node) (h : ∀ v, Agrees (trees v) (nodes v)) (v : Bool) :
      Agrees (ops.foldl StateOp.follow trees v) (ops.foldl follow nodes v) := by
    clear hrun hpaths
    induction ops generalizing trees nodes with
    | nil => exact h v
    | cons op ops ih => exact ih _ _ (agrees_follow h op)
  rw [hpaths]
  refine hfold _ _ fun v p => ?_
  cases p with
  | nil => exact iff_of_true rfl rfl
  | cons a p =>
    refine iff_of_false (List.cons_ne_nil a p) ?_
    rw [Node.make, LabelTree.Has, LabelTree.find_empty (List.cons_ne_nil a p)]
    exact Bool.false_ne_true

variable {config : Nat} {node : Node}

theorem lookup_agrees (h : Agrees (heap.paths config) node) (path : List String) :
    (lookup heap config path).isSome = (node.lookup path).isSome := by
  cases path with
  | nil => rfl
  | cons a path => exact Bool.eq_iff_iff.mpr (h (a :: path))

/-- The labels below a path are those of the tree. -/
theorem values_agrees (h : Agrees (heap.paths config) node) (path : List String) :
    (values heap config path).Perm (node.values path) := by
  cases path with
  | nil => exact .nil
  | cons a path =>
    have hsome := lookup_agrees h (a :: path)
    unfold values Node.values
    cases hc : lookup heap config (a :: path) with
    | none =>
      rw [hc, Option.isSome_none, eq_comm, Option.isSome_eq_false_iff, Option.isNone_iff_eq_none] at hsome
      rw [hsome]
      exact .nil
    | some c =>
      rw [hc, Option.isSome_some, eq_comm, Option.isSome_iff_exists] at hsome
      obtain ⟨t, ht⟩ := hsome
      rw [ht, Option.map_some, Option.map_some, Option.getD_some, Option.getD_some,
        List.perm_ext_iff_of_nodup (heap.nodup_entries c) (Node.lookup_distinct ht).nodup]
      intro label
      have hwalk : heap.walk config (a :: path) = some c := hc
      have hfind : node.tree.find (a :: path) = some t := ht
      have hlabel := h (a :: path ++ [label])
      rw [PointerHeap.paths, Set.mem_ofPred_eq, PointerHeap.walk_concat, hwalk, Option.bind_some, LabelTree.Has,
        LabelTree.find_append, hfind, Option.bind_some] at hlabel
      rw [PointerHeap.mem_keys, ← Option.isSome_iff_exists, hlabel, ← LabelTree.child_isSome, LabelTree.find]
      cases t.child label <;> rfl

/-- The one label below a path is that of the tree. -/
theorem value_agrees (h : Agrees (heap.paths config) node) (path : List String) :
    value heap config path = node.value path := by
  have hperm := values_agrees h path
  have hsome := lookup_agrees h path
  unfold values Node.values at hperm
  unfold value Node.value
  cases hc : lookup heap config path with
  | none =>
    rw [hc, Option.isSome_none, eq_comm, Option.isSome_eq_false_iff, Option.isNone_iff_eq_none] at hsome
    rw [hsome]
    rfl
  | some c =>
    rw [hc, Option.isSome_some, eq_comm, Option.isSome_iff_exists] at hsome
    obtain ⟨t, ht⟩ := hsome
    rw [hc, ht, Option.map_some, Option.map_some, Option.getD_some, Option.getD_some] at hperm
    rw [ht, Option.map_some, Option.map_some]
    have hlength := hperm.length_eq
    generalize (heap.entries c).map Prod.fst = xs at *
    generalize t.labels = ys at *
    match xs, ys with
    | [], [] => rfl
    | [x], [y] => rw [List.singleton_perm_singleton.mp hperm]
    | _ :: _ :: _, _ :: _ :: _ => rfl

end StateNodes

end OpenConfigd.Quaggad
