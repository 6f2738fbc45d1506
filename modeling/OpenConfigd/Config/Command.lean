import OpenConfigd.Config.Reach

/-!
# Commands

`CommandList` and `CommandPath`: the nodes of a tree that stand for a command,
and the tokens of the command. A node is its place, as everywhere. With distinct
names the places listed are those of the command nodes, each once
(`Typed.mem_commandList`).
-/

namespace OpenConfigd

namespace Config

/-- The nodes `CommandList` and `writeCommand` stop at. -/
def isCommand (c : Config) : Bool := c.isValueLeaf || c.isPresence

mutual

/-- `CommandList`, below the node at `loc`. -/
def commandList : Config → Loc → List Loc
  | ⟨n, configs, keys⟩, loc =>
    (if isCommand ⟨n, configs, keys⟩ then [loc] else []) ++ commandListSlot .keys keys loc ++
      commandListSlot .configs configs loc

/-- The loops of `CommandList`. -/
def commandListSlot (s : Slot) : List Config → Loc → List Loc
  | [], _ => []
  | c :: cs, loc => commandList c (loc ++ [⟨s, c.name⟩]) ++ commandListSlot s cs loc

end

/-- The tokens a node adds to `CommandPath` after its name. -/
def pathValues (c : Config) : List String :=
  (if c.value ≠ "" then [c.value] else []) ++ c.valueList

/-- `CommandPath` of the node at a place. -/
def commandPath (c : Config) : Loc → List String
  | [] => []
  | s :: l =>
    match c.child? s with
    | none => []
    | some d => d.name :: d.pathValues ++ d.commandPath l

/-- The commands of a whole tree, as `SubscribeSync` registers them. -/
def commandPaths (root : Config) : List (List String) :=
  (root.commandList []).map root.commandPath

mutual

/-- The places of the nodes that pass a check, in the order of `CommandList`. -/
def places (p : Config → Bool) : Config → Loc → List Loc
  | ⟨n, configs, keys⟩, loc =>
    (if p ⟨n, configs, keys⟩ then [loc] else []) ++ placesSlot p .keys keys loc ++
      placesSlot p .configs configs loc

/-- The places below a slice. -/
def placesSlot (p : Config → Bool) (s : Slot) : List Config → Loc → List Loc
  | [], _ => []
  | c :: cs, loc => places p c (loc ++ [⟨s, c.name⟩]) ++ placesSlot p s cs loc

end

mutual

theorem commandList_eq : ∀ (c : Config) (loc : Loc), c.commandList loc = c.places isCommand loc
  | ⟨n, configs, keys⟩, loc => by
    rw [commandList, places, commandListSlot_eq, commandListSlot_eq]

theorem commandListSlot_eq (s : Slot) : ∀ (cs : List Config) (loc : Loc),
    commandListSlot s cs loc = placesSlot isCommand s cs loc
  | [], _ => rfl
  | c :: cs, loc => by rw [commandListSlot, placesSlot, commandList_eq c, commandListSlot_eq s cs]

end

variable {p : Config → Bool}

theorem mem_placesSlot {s : Slot} {cs : List Config} {loc l : Loc} :
    l ∈ placesSlot p s cs loc ↔ ∃ d ∈ cs, l ∈ d.places p (loc ++ [⟨s, d.name⟩]) := by
  induction cs with
  | nil => simp [placesSlot]
  | cons c cs ih => simp [placesSlot, ih]

theorem mem_places_iff {c : Config} {loc l : Loc} : l ∈ c.places p loc ↔
    (p c = true ∧ l = loc) ∨ ∃ s, ∃ d ∈ c.slot s, l ∈ d.places p (loc ++ [⟨s, d.name⟩]) := by
  obtain ⟨n, configs, keys⟩ := c
  rw [places, List.mem_append, List.mem_append, mem_placesSlot, mem_placesSlot]
  constructor
  · rintro ((h | h) | h)
    · split at h
      · exact .inl ⟨‹_›, List.mem_singleton.mp h⟩
      · cases h
    · exact .inr ⟨.keys, h⟩
    · exact .inr ⟨.configs, h⟩
  · rintro (⟨h, rfl⟩ | ⟨s, h⟩)
    · exact .inl (.inl (by rw [if_pos h]; exact List.mem_singleton_self _))
    · cases s with
      | configs => exact .inr h
      | keys => exact .inl (.inr h)

end Config

/-- In a typed tree the places are those of the nodes that pass the check. -/
theorem Typed.mem_places {env : Env} {cur : Cursor} {c : Config} {p : Config → Bool}
    (h : Typed env cur c) {loc l : Loc} : l ∈ c.places p loc ↔
      ∃ r d, l = loc ++ r ∧ c.get? r = some d ∧ p d = true := by
  induction h generalizing loc l with
  | @mk cur c _ hn _ hedge _ ih =>
    rw [Config.mem_places_iff]
    constructor
    · rintro (⟨hc, rfl⟩ | ⟨s, d, hd, hl⟩)
      · exact ⟨[], c, (List.append_nil _).symm, rfl, hc⟩
      · obtain ⟨e, he⟩ := hedge s d hd
        obtain ⟨r, d', rfl, hg, hc⟩ := (ih s d hd e he.entry).mp hl
        refine ⟨⟨s, d.name⟩ :: r, d', by simp, ?_, hc⟩
        have hch : c.child? ⟨s, d.name⟩ = some d := Keyed.get_of_mem (hn s) hd
        rw [Config.get?_cons, hch]
        exact hg
    · rintro ⟨r, d, rfl, hg, hc⟩
      cases r with
      | nil =>
        cases hg
        exact .inl ⟨hc, List.append_nil _⟩
      | cons s r =>
        rw [Config.get?_cons] at hg
        obtain ⟨b, hb, hg⟩ := Option.bind_eq_some_iff.mp hg
        have hm := Config.child?_mem hb
        obtain ⟨e, he⟩ := hedge s.slot b hm
        refine .inr ⟨s.slot, b, hm, (ih s.slot b hm e he.entry).mpr ⟨r, d, ?_, hg, hc⟩⟩
        rw [Config.child?_name hb]
        simp

/-- In a typed tree, `CommandList` lists the command nodes. -/
theorem Typed.mem_commandList {env : Env} {cur : Cursor} {c : Config} (h : Typed env cur c)
    {loc l : Loc} : l ∈ c.commandList loc ↔
      ∃ r d, l = loc ++ r ∧ c.get? r = some d ∧ d.isCommand = true := by
  rw [Config.commandList_eq]
  exact h.mem_places

/-- Every node has a node without children below it, or is one. -/
theorem Typed.exists_leaf {env : Env} {cur : Cursor} {c : Config} (h : Typed env cur c) :
    ∃ r d, c.get? r = some d ∧ d.isEmpty = true := by
  induction h with
  | @mk cur c _ hn _ hedge _ ih =>
    by_cases he : c.keys = [] ∧ c.configs = []
    · exact ⟨[], c, rfl, by simp [Config.isEmpty, he]⟩
    · obtain ⟨s, d, hd⟩ : ∃ s, ∃ d, d ∈ c.slot s := by
        by_cases hk : c.keys = []
        · obtain ⟨d, hd⟩ := List.exists_mem_of_ne_nil _ fun h => he ⟨hk, h⟩
          exact ⟨.configs, d, hd⟩
        · obtain ⟨d, hd⟩ := List.exists_mem_of_ne_nil _ hk
          exact ⟨.keys, d, hd⟩
      obtain ⟨e, hed⟩ := hedge s d hd
      obtain ⟨r, d', hg, hc⟩ := ih s d hd e hed.entry
      have hch : c.child? ⟨s, d.name⟩ = some d := Keyed.get_of_mem (hn s) hd
      exact ⟨⟨s, d.name⟩ :: r, d', by rw [Config.get?_cons, hch]; exact hg, hc⟩

theorem Config.isCommand_of_isEmpty {c : Config} (h : c.isEmpty = true) : c.isCommand = true := by
  obtain ⟨hc, hk⟩ : c.configs = [] ∧ c.keys = [] := by simpa [Config.isEmpty] using h
  simp [Config.isCommand, Config.isValueLeaf, Config.isLeaf, Config.isKeyConfig, hc, hk]

end OpenConfigd
