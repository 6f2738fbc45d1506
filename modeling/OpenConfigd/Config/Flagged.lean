import OpenConfigd.Config.Reach

/-!
# Marked keys

`SetKey` sets `KeyOnlyConfig` on a key that gets a key of its own, and nothing
resets it. `Delete` and `JsonMarshal` rely on it: in every tree of set mode a key
with keys below it is marked (`Reach.flagged`), and no other (`Trace.followed`).
-/

namespace OpenConfigd

/-- Every node of the tree has a property of its fields and of whether it has keys. -/
def Config.Nodes (P : Node → Bool → Prop) (c : Config) : Prop :=
  ∀ l d, c.get? l = some d → P d.toNode d.keys.isEmpty

/-- The property is one of the nodes the `Set` functions make, and they do not take it
away. -/
structure SetKeeps (P : Node → Bool → Prop) : Prop where
  new : ∀ e, P (newNode e) true
  key : ∀ e key pre, P (newKey e key pre) true
  mark : ∀ n empty, P n empty →
    P { n with keyOnlyConfig := n.keyOnlyConfig || n.keyConfig } false
  value : ∀ n empty hasValue value valueList, P n empty →
    P { n with hasValue := hasValue, value := value, valueList := valueList } empty

namespace Config.Nodes

variable {P : Node → Bool → Prop} {root c d : Config} {loc : Loc}

theorem child {s : Step} (h : c.Nodes P) (hd : c.child? s = some d) : d.Nodes P := by
  intro l b hb
  refine h (s :: l) b ?_
  rw [get?_cons, hd]
  exact hb

theorem mem {s : Slot} (h : c.Nodes P) (hn : ((c.slot s).map (·.name)).Nodup)
    (hd : d ∈ c.slot s) : d.Nodes P :=
  h.child (s := ⟨s, d.name⟩) (Keyed.get_of_mem hn hd)

/-- A tree has the property if its root and its children have. -/
theorem of_mem (hc : P c.toNode c.keys.isEmpty) (h : ∀ s, ∀ d ∈ c.slot s, d.Nodes P) : c.Nodes P := by
  intro l d hd
  cases l with
  | nil =>
    cases hd
    exact hc
  | cons s l =>
    rw [get?_cons] at hd
    obtain ⟨b, hb, hd⟩ := Option.bind_eq_some_iff.mp hd
    exact h s.slot b (child?_mem hb) l d hd

theorem bare {n : Node} (h : P n true) : n.bare.Nodes P := by
  refine .of_mem h fun s d hd => ?_
  cases s <;> cases hd

theorem isEmpty_keys_modify (s : Step) (l : Loc) (g : Config → Config) :
    (c.modify (s :: l) g).keys.isEmpty = c.keys.isEmpty := by
  have hslot := slot_modifyChild c s (fun d => d.modify l g) .keys
  rw [show (c.modify (s :: l) g).keys = (c.modifyChild s fun d => d.modify l g).slot .keys from rfl,
    hslot]
  split
  · rw [Bool.eq_iff_iff, List.isEmpty_iff, List.isEmpty_iff, Keyed.modify_eq_nil]
    rfl
  · rfl

/-- A change of a node that leaves it with the property leaves the tree with it. -/
theorem modify {g : Config → Config} (h : root.Nodes P) (hg : KeepsName g)
    (hc : root.get? loc = some c) (hnew : (g c).Nodes P) : (root.modify loc g).Nodes P := by
  intro l d hd
  by_cases hl : loc <+: l
  · obtain ⟨r, rfl⟩ := hl
    rw [get?_modify_append hg, hc] at hd
    exact hnew r d hd
  · by_cases hl' : l <+: loc
    · obtain ⟨r, rfl⟩ := hl'
      cases r with
      | nil => exact absurd (by simp) hl
      | cons s r =>
        rw [get?_modify_above hg] at hd
        obtain ⟨b, hb, rfl⟩ := Option.map_eq_some_iff.mp hd
        rw [modify_toNode, isEmpty_keys_modify]
        exact h l b hb
    · rw [get?_modify_off hg root hl hl'] at hd
      exact h l d hd

end Config.Nodes

variable {env : Env} {ent : Entry}

/-! ## Set mode -/

section

variable {P : Node → Bool → Prop} {root c : Config} {loc : Loc} {cur : Cursor} {e : Entry}

theorem Config.Nodes.set (hP : SetKeeps P) (h : c.Nodes P) (hn : (c.configs.map (·.name)).Nodup)
    (hk : (c.keys.map (·.name)).Nodup) (e : Entry) : (c.set env e).Nodes P := by
  cases hl : c.lookup e.name with
  | some d =>
    rw [Config.set_of_some hl]
    exact h
  | none =>
    have hself := h [] c rfl
    rw [Config.set_of_none hl]
    refine .of_mem hself fun s d hd => ?_
    cases s with
    | keys => exact h.mem (s := .keys) hk hd
    | configs =>
      have hd' : d ∈ (c.set env e).configs := by
        rw [Config.set_of_none hl]
        exact hd
      rcases (Config.mem_set hl).mp hd' with hd | rfl
      · exact h.mem (s := .configs) hn ((c.kept_sublist e).subset hd)
      · exact .bare (hP.new e)

theorem Config.Nodes.addKey (hP : SetKeeps P) (h : c.Nodes P) (hn : (c.configs.map (·.name)).Nodup)
    (hk : (c.keys.map (·.name)).Nodup) (e : Entry) (key pre : String) :
    (c.addKey env e key pre).Nodes P := by
  have hne : (c.addKey env e key pre).keys.isEmpty = false := by
    rw [Bool.eq_false_iff, Ne, List.isEmpty_iff]
    exact List.ne_nil_of_mem (Config.mem_addKey.mpr (.inr rfl))
  refine .of_mem ?_ fun s d hd => ?_
  · rw [hne]
    exact hP.mark c.toNode _ (h [] c rfl)
  · cases s with
    | configs => exact h.mem (s := .configs) hn hd
    | keys =>
      rcases Config.mem_addKey.mp hd with hd | rfl
      · exact h.mem (s := .keys) hk hd
      · exact .bare (hP.key e key pre)

/-- A change of the value of a node. -/
theorem Config.Nodes.value {c' : Config} (hP : SetKeeps P) (h : c.Nodes P)
    (hs : ∀ s, c'.slot s = c.slot s) (hn : ∀ s, ((c.slot s).map (·.name)).Nodup)
    (hc : c'.toNode =
      { c.toNode with hasValue := c'.hasValue, value := c'.value, valueList := c'.valueList }) :
    c'.Nodes P := by
  refine .of_mem ?_ fun s d hd => ?_
  · rw [show c'.keys = c.keys from hs .keys, hc]
    exact hP.value _ _ _ _ _ (h [] c rfl)
  · rw [hs] at hd
    exact h.mem (hn s) hd

/-- A token of set mode keeps the property. -/
theorem Stands.nodes {str : String} (hP : SetKeeps P) (hf : Stands env ent (root, loc) cur)
    (hs : cur.Selects env str e) (h : root.Nodes P) :
    ((cur.op e str).apply env (root, loc)).1.Nodes P := by
  obtain ⟨cur₁, c, hw, hon⟩ := hf.on
  have hc := Config.get?_of_walk hw
  have ht := hf.typed.of_walk hw
  have hcf : c.Nodes P := fun l d hd => h (loc ++ l) d (by rw [Config.get?_append, hc]; exact hd)
  have hset : ((Op.set e).apply env (root, loc)).1.Nodes P :=
    h.modify (Config.set_keepsName e) hc (hcf.set hP (ht.nodup .configs) (ht.nodup .keys) e)
  rw [Cursor.op]
  split
  case h_1 | h_2 | h_3 =>
    rename_i hst
    have hd : cur.isDir = true := by rw [Cursor.isDir, hst]
    split
    · obtain ⟨ht', -, d, -, hw'⟩ := hf.walk_set hd hs
      simp only [Op.apply, Config.modify_setLeafList]
      have hd' := Config.get?_of_walk hw'
      refine hset.modify (g := Config.clearList) (fun _ => rfl) hd' ?_
      refine Config.Nodes.value (c := d) hP ?_ (fun s => by cases s <;> rfl) (ht'.of_walk hw').nodup
        rfl
      intro l b hb
      refine hset (loc ++ [⟨.configs, e.name⟩] ++ l) b ?_
      simp only [Op.apply]
      rw [Config.get?_append, hd']
      exact hb
    · exact hset
  case h_4 hst =>
    obtain rfl : cur₁ = cur := hon.eq (by simp [hst])
    rw [Op.apply, Config.setKey]
    rcases hf.typed.lookupKey_cases hw hst str with hl | ⟨_, _, _, _, _, -, -, -, -, -, -, -, hl⟩
    · rw [hl]
      cases c.lookupKeyShallow str with
      | some d => exact h
      | none =>
        exact h.modify (g := fun d => d.addKey env e str cur₁.ent.name) (fun _ => rfl) hc
          (hcf.addKey hP (ht.nodup .configs) (ht.nodup .keys) e str cur₁.ent.name)
    · rw [hl]
      exact h
  case h_5 | h_6 =>
    exact h.modify (g := fun d => d.setValue str) (fun _ => rfl) hc
      (hcf.value hP (fun s => by cases s <;> rfl) ht.nodup rfl)
  case h_7 | h_8 =>
    exact h.modify (g := fun d => d.setListValue str) (fun _ => rfl) hc
      (hcf.value hP (fun s => by cases s <;> rfl) ht.nodup rfl)

/-- So do the tokens of a path. -/
theorem Trace.nodes {cmds : List String} {ops : List Op} {cur' : Cursor} {p : Config × Loc}
    (hP : SetKeeps P) (ht : Trace env cur cmds ops cur') (hf : Stands env ent p cur)
    (h : p.1.Nodes P) : (applyOps env ops p).1.Nodes P := by
  induction ht generalizing p with
  | nil => exact h
  | cons hs _ ih => exact ih (hf.step hs).stands (hf.nodes hP hs h)

end

/-! ## Marks and keys -/

/-- A key with keys of its own is marked as one. -/
def Config.Flagged (c : Config) : Prop :=
  ∀ l d, c.get? l = some d → d.keyConfig = true → d.keys ≠ [] → d.keyOnlyConfig = true

theorem Config.flagged_iff {c : Config} : c.Flagged ↔
    c.Nodes fun n empty => n.keyConfig = true → empty = false → n.keyOnlyConfig = true := by
  refine forall_congr' fun l => forall_congr' fun d => imp_congr_right fun _ => ?_
  rw [← List.isEmpty_eq_false_iff]

theorem Config.Flagged.child {c d : Config} {s : Step} (h : c.Flagged) (hd : c.child? s = some d) :
    d.Flagged :=
  Config.flagged_iff.mpr ((Config.flagged_iff.mp h).child hd)

theorem flagged_keeps :
    SetKeeps fun n empty => n.keyConfig = true → empty = false → n.keyOnlyConfig = true where
  new _ h := by cases h
  key _ _ _ _ h := by cases h
  mark n _ _ h _ := by
    rw [show n.keyConfig = true from h, Bool.or_true]
  value _ _ _ _ _ h := h

theorem Config.flagged_bare (n : Node) : n.bare.Flagged := by
  refine Config.flagged_iff.mpr (.bare fun _ h => ?_)
  cases h

theorem Trace.flagged {cur cur' : Cursor} {cmds : List String} {ops : List Op} {p : Config × Loc}
    (ht : Trace env cur cmds ops cur') (hf : Stands env ent p cur) (h : p.1.Flagged) :
    (applyOps env ops p).1.Flagged :=
  Config.flagged_iff.mpr (ht.nodes flagged_keeps hf (Config.flagged_iff.mp h))

/-- A key that is marked has keys of its own. -/
def Config.Followed (c : Config) : Prop :=
  ∀ l d, c.get? l = some d → d.keyOnlyConfig = true → d.keys ≠ []

theorem Config.followed_iff {c : Config} :
    c.Followed ↔ c.Nodes fun n empty => n.keyOnlyConfig = true → empty = false := by
  refine forall_congr' fun l => forall_congr' fun d => imp_congr_right fun _ => ?_
  rw [← List.isEmpty_eq_false_iff]

theorem followed_keeps : SetKeeps fun n empty => n.keyOnlyConfig = true → empty = false where
  new _ h := by cases h
  key _ _ _ h := by cases h
  mark _ _ _ _ := rfl
  value _ _ _ _ _ h := h

theorem Trace.followed {cur cur' : Cursor} {cmds : List String} {ops : List Op} {p : Config × Loc}
    (ht : Trace env cur cmds ops cur') (hf : Stands env ent p cur) (h : p.1.Followed) :
    (applyOps env ops p).1.Followed :=
  Config.followed_iff.mpr (ht.nodes followed_keeps hf (Config.followed_iff.mp h))

theorem Reach.flagged {root : Config} (h : Reach env ent root) : root.Flagged := by
  induction h with
  | empty => exact Config.flagged_bare {}
  | set hr hp hs ih =>
    obtain ⟨ops, cur, htr, -, htree⟩ := parse_success hp hs
    obtain ⟨ht, hc⟩ := hr.typed_closed
    rw [htree]
    exact htr.flagged (Focus.start ht hc).stands ih

end OpenConfigd
