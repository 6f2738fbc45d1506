import OpenConfigd.Component.Dependency

/-!
# The system of components

The daemon is a map of components, some of which depend on others. `Start` starts those that are
in a dependency in an order in which each is behind all that it depends on, and `Stop` stops
them so that each is before them (`start_stop`); a component in no dependency is not in the
graph, and neither starts nor stops.
-/

namespace OpenConfigd.Boot

open Relation

/-- `Component`: one that depends on none, or a `ComponentItem`. -/
inductive Component where
  | plain
  | item (depends : List String)

/-- `SystemMap`. -/
abbrev SystemMap := GoMap String Component

namespace SystemMap

/-- The dependencies of the component of a key. -/
def depends (m : SystemMap) (key : String) : List String :=
  match m.lookup key with
  | some (.item depends) => depends
  | _ => []

/-- `Graph`. -/
def graph (go : Ranges) (m : SystemMap) : MapDependencyGraph :=
  (go.range m.keys.length m.keys).foldl
    (fun graph key => (m.depends key).foldl (fun graph dep => (graph.depend go key dep).getD graph) graph) {}

/-- `Start`: the keys of the components that it starts, one after the other. -/
def start (go : Ranges) (m : SystemMap) : Option (List String) :=
  ((m.graph go).topoSort go).map fun topo => topo.filter fun key => (m.lookup key).isSome

/-- `Stop`. -/
def stop (go : Ranges) (m : SystemMap) : Option (List String) :=
  ((m.graph go).topoSort go).map fun topo => topo.reverse.filter fun key => (m.lookup key).isSome

/-- A component declares that it depends on another. -/
def Declared (m : SystemMap) (a b : String) : Prop := b ∈ m.depends a

variable {go go' : Ranges} {m : SystemMap}

theorem Declared.mem {a b : String} (h : m.Declared a b) : a ∈ m.keys := by
  rw [Declared, depends] at h
  cases ha : m.lookup a with
  | none => simp [ha] at h
  | some c => exact AList.lookup_isSome.mp (Option.isSome_of_eq_some ha)

theorem graph_eq : m.graph go = MapDependencyGraph.dependAll go {}
    ((go.range m.keys.length m.keys).flatMap fun key => (m.depends key).map fun dep => (key, dep)) := by
  rw [graph, MapDependencyGraph.dependAll, List.foldl_flatMap]
  simp only [List.foldl_map]

theorem built : (m.graph go).Built m.Declared := by
  have h := MapDependencyGraph.Built.empty.dependAll go
    ((go.range m.keys.length m.keys).flatMap fun key => (m.depends key).map fun dep => (key, dep))
  rw [← graph_eq] at h
  convert h using 3 with a b
  rw [false_or, List.mem_flatMap]
  constructor
  · exact fun hab => ⟨a, (go.range_perm _ _).mem_iff.mpr hab.mem, List.mem_map_of_mem hab⟩
  · rintro ⟨key, -, hkey⟩
    obtain ⟨dep, hdep, heq⟩ := List.mem_map.mp hkey
    cases heq
    exact hdep

/-- Without a cycle of the declared dependencies all of them are in the graph. -/
theorem topoSort_eq (hacyclic : ∀ a, ¬ TransGen m.Declared a a) (go : Ranges) :
    ∃ sorted, (m.graph go).topoSort go = some sorted ∧ sorted.Nodup ∧
      (∀ a, a ∈ sorted ↔ ∃ b, m.Declared a b ∨ m.Declared b a) ∧
      sorted.Pairwise fun a b => ¬ TransGen m.Declared a b := by
  have hbuilt : (m.graph go).Built m.Declared := built
  have h := hbuilt.topoSort go
  rwa [hbuilt.maximal.eq_of_acyclic hacyclic] at h

/-- Whatever the orders of the maps: just the components in a dependency are started, each once and
none before one that it depends on, and just these are stopped, each once and none behind one
that it depends on. -/
theorem start_stop (hacyclic : ∀ a, ¬ TransGen m.Declared a a) (go go' : Ranges) :
    ∃ started stopped, m.start go = some started ∧ m.stop go' = some stopped ∧ stopped.Perm started ∧
      started.Nodup ∧ (∀ a, a ∈ started ↔ a ∈ m ∧ ∃ b, m.Declared a b ∨ m.Declared b a) ∧
      (started.Pairwise fun a b => ¬ TransGen m.Declared a b) ∧
      stopped.Pairwise fun a b => ¬ TransGen m.Declared b a := by
  obtain ⟨topo, htopo, hnodup, hmem, hpair⟩ := topoSort_eq hacyclic go
  obtain ⟨topo', htopo', hnodup', hmem', hpair'⟩ := topoSort_eq hacyclic go'
  have hperm : topo'.Perm topo := (List.perm_ext_iff_of_nodup hnodup' hnodup).mpr fun a => (hmem' a).trans (hmem a).symm
  refine ⟨_, _, congrArg _ htopo, congrArg _ htopo', ?_, hnodup.filter _, fun a => ?_, hpair.filter _, ?_⟩
  · exact ((List.reverse_perm topo').trans hperm).filter _
  · rw [List.mem_filter, hmem, AList.lookup_isSome, and_comm]
  · exact (List.pairwise_reverse.mpr hpair').filter _

/-- The `systemMap` of the daemon. -/
def main : SystemMap :=
  (((AList.singleton "yang" .plain).insert "cli" (.item ["yang"])).insert "config" (.item ["yang", "cli"])).insert
    "rpc" (.item ["config"])

theorem main_acyclic (a : String) : ¬ TransGen main.Declared a a := by
  have hkeys : ∀ a ∈ main.keys, ∀ b ∈ main.depends a, main.keys.idxOf a < main.keys.idxOf b := by decide +kernel
  have hpath : ∀ a b, TransGen main.Declared a b → main.keys.idxOf a < main.keys.idxOf b := by
    intro a b hab
    induction hab with
    | single hab => exact hkeys a hab.mem _ hab
    | tail _ hbc ih => exact ih.trans (hkeys _ hbc.mem _ hbc)
  exact fun ha => lt_irrefl _ (hpath a a ha)

/-- `start_stop` of the daemon, for two orders of its map. -/
theorem start_stop_main :
    main.start ⟨fun _ l => l, fun _ _ => .refl _⟩ = some ["yang", "cli", "config", "rpc"] ∧
    ∃ stopped, main.stop ⟨fun _ l => l.reverse, fun _ _ => List.reverse_perm _⟩ = some stopped ∧
      stopped.Perm ["yang", "cli", "config", "rpc"] ∧ stopped.Pairwise fun a b => ¬ TransGen main.Declared b a := by
  obtain ⟨started, stopped, hstart, hstop, hperm, -, -, -, hpair⟩ :=
    start_stop main_acyclic ⟨fun _ l => l, fun _ _ => .refl _⟩ ⟨fun _ l => l.reverse, fun _ _ => List.reverse_perm _⟩
  have heq : main.start ⟨fun _ l => l, fun _ _ => .refl _⟩ = some ["yang", "cli", "config", "rpc"] := by decide +kernel
  rw [heq, Option.some.injEq] at hstart
  exact ⟨heq, stopped, hstop, hstart ▸ hperm, hpair⟩

end SystemMap

end OpenConfigd.Boot
