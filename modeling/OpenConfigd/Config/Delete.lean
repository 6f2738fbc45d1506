import OpenConfigd.Config.Flagged

/-!
# Delete

`Delete` takes a node out of its parent and turns to the parent, which goes too
when it has become empty, up to the root or a presence container. What one level
does is `deleteStep_eq`. A tree that follows the schema still does afterwards
(`Typed.delete`), and no container, list or first key on the way up is left
without children (`deleteUp_settled`).
-/

namespace OpenConfigd

variable {env : Env} {ent : Entry}

/-! ## A child less -/

namespace Config

variable {root c d : Config} {loc : Loc} {s t : Step}

@[simp] theorem deleteChild_toNode (c : Config) (s : Step) : (c.deleteChild s).toNode = c.toNode :=
  withSlot_toNode _ _ _

theorem slot_deleteChild (c : Config) (s : Step) (t : Slot) : (c.deleteChild s).slot t =
    if t = s.slot then (c.slot t).filter (fun d => d.name ≠ s.name) else c.slot t := by
  by_cases h : t = s.slot
  · subst h
    rw [deleteChild, slot_withSlot_self, if_pos rfl]
  · rw [deleteChild, slot_withSlot_ne _ h, if_neg h]

theorem slot_deleteChild_sublist (c : Config) (s : Step) (t : Slot) :
    ((c.deleteChild s).slot t).Sublist (c.slot t) := by
  rw [slot_deleteChild]
  split
  · exact List.filter_sublist
  · exact List.Sublist.refl _

theorem child?_deleteChild_self (c : Config) (s : Step) : (c.deleteChild s).child? s = none := by
  rw [child?, slot_deleteChild, if_pos rfl]
  refine Keyed.get_eq_none.mpr fun d hd => ?_
  have := (List.mem_filter.mp hd).2
  simpa using this

theorem child?_deleteChild_ne (c : Config) (h : t ≠ s) : (c.deleteChild s).child? t = c.child? t := by
  rw [child?, child?, slot_deleteChild]
  split
  · rename_i hs
    have hname : t.name ≠ s.name := by
      intro hn
      obtain ⟨_, _⟩ := t
      obtain ⟨_, _⟩ := s
      simp only at hs hn
      rw [hs, hn] at h
      exact h rfl
    rw [Keyed.get, Keyed.get, List.find?_filter]
    congr 1
    funext d
    by_cases hd : d.name = t.name
    · simp [hd, hname]
    · simp [hd]
  · rfl

theorem deleteChild_keepsName (s : Step) : KeepsName fun c => c.deleteChild s := by
  intro c
  exact congrArg Node.name (deleteChild_toNode c s)

/-- What is changed below a child does not matter once the child is gone. -/
theorem deleteChild_modifyChild {f : Config → Config} (hf : KeepsName f) (c : Config) (s : Step) :
    (c.modifyChild s f).deleteChild s = c.deleteChild s := by
  have hfilter (l : List Config) : (Keyed.modify (·.name) s.name f l).filter
      (fun d => d.name ≠ s.name) = l.filter fun d => d.name ≠ s.name := by
    induction l with
    | nil => rfl
    | cons d l ih =>
      rw [Keyed.modify]
      split
      · rename_i hd
        rw [List.filter_cons, List.filter_cons]
        simp [hf d, hd]
      · rw [List.filter_cons, List.filter_cons, ih]
  refine Config.ext' ?_ fun t => ?_
  · rw [deleteChild_toNode, deleteChild_toNode, modifyChild_toNode]
  · rw [slot_deleteChild, slot_deleteChild, slot_modifyChild]
    by_cases ht : t = s.slot
    · rw [if_pos ht, if_pos ht, if_pos ht, hfilter]
    · rw [if_neg ht, if_neg ht, if_neg ht]

/-- The tree without the node at `pre ++ [s]`. -/
def without (root : Config) (pre : Loc) (s : Step) : Config :=
  root.modify pre fun p => p.deleteChild s

theorem get?_without_off {pre l : Loc} (h : ¬ pre <+: l) (h' : ¬ l <+: pre) :
    (root.without pre s).get? l = root.get? l :=
  get?_modify_off (deleteChild_keepsName s) root h h'

theorem get?_without_below {pre : Loc} (l : Loc) :
    (root.without pre s).get? (pre ++ [s] ++ l) = none := by
  rw [without, List.append_assoc, get?_modify_append (deleteChild_keepsName s)]
  cases root.get? pre with
  | none => rfl
  | some p =>
    show (p.deleteChild s).get? (s :: l) = none
    rw [get?_cons, child?_deleteChild_self]
    rfl

/-- Off the place of the deleted node the tree has what it had, up to the children of
nodes above. -/
theorem get?_without_ne {pre l : Loc} (h : ¬ pre ++ [s] <+: l) :
    ((root.without pre s).get? l).map (·.toNode) = (root.get? l).map (·.toNode) := by
  by_cases hp : pre <+: l
  · obtain ⟨r, rfl⟩ := hp
    rw [without, get?_modify_append (deleteChild_keepsName s), get?_append]
    cases root.get? pre with
    | none => rfl
    | some p =>
      cases r with
      | nil => simp
      | cons t r =>
        have ht : t ≠ s := by
          rintro rfl
          exact h ⟨r, by simp⟩
        rw [Option.bind_some, Option.bind_some, get?_cons, get?_cons, child?_deleteChild_ne p ht]
  · by_cases hl : l <+: pre
    · obtain ⟨r, rfl⟩ := hl
      cases r with
      | nil => exact absurd (by simp) hp
      | cons t r =>
        rw [without, get?_modify_above (deleteChild_keepsName s), Option.map_map]
        congr 1
        funext d
        exact modify_toNode d t r _
    · rw [get?_without_off hp hl]

end Config

/-! ## One level -/

/-- The node loses its children. -/
def Config.clear (c : Config) : Config := { c with configs := [], keys := [] }

/-- `Delete` takes the node out of its parent. -/
def Config.drops (c : Config) (e : Entry) (slot : Slot) (leaf : Bool) : Bool :=
  match e.kind, slot, leaf with
  | .leaf, .configs, true => c.hasValue || isEmptyLeaf e
  | .leaf, .keys, true => c.keyConfig
  | .leaf, .keys, false => c.isEmpty && c.keyOnlyConfig
  | .directory, .configs, true => true
  | .directory, .configs, false => c.isEmpty
  | _, _, _ => false

/-- `Delete` takes the children of the node but not the node. -/
def clears (e : Entry) (slot : Slot) (leaf : Bool) : Bool :=
  match e.kind, slot, leaf with
  | .directory, .keys, true => true
  | _, _, _ => false

section

variable {root c : Config} {pre : Loc} {s : Step} {e : Entry} {leaf : Bool}

theorem deleteStep_eq (hg : root.get? (pre ++ [s]) = some c) (he : c.entry = some e) :
    deleteStep root pre s leaf =
      if c.drops e s.slot leaf then root.without pre s
      else if clears e s.slot leaf then root.modify (pre ++ [s]) Config.clear else root := by
  have hclear : (root.modify (pre ++ [s]) Config.clear).without pre s = root.without pre s := by
    rw [Config.modify_append, Config.without, Config.modify_modify]
    · refine Config.modify_congr fun p _ => ?_
      exact @Config.deleteChild_modifyChild Config.clear (fun _ => rfl) p s
    · intro p
      exact congrArg Node.name (Config.modifyChild_toNode p s _)
  obtain ⟨kind, hk⟩ : ∃ kind, e.kind = kind := ⟨_, rfl⟩
  obtain ⟨slot, hs⟩ : ∃ slot, s.slot = slot := ⟨_, rfl⟩
  simp only [deleteStep, hg, he, Config.drops, clears, hk, hs]
  cases kind <;> cases slot <;> cases leaf <;> simp only [Bool.false_eq_true, if_false, if_true]
  all_goals first | rfl | exact hclear

theorem deleteStep_none (hg : root.get? (pre ++ [s]) = none) : deleteStep root pre s leaf = root := by
  rw [deleteStep, hg]

theorem deleteStep_noEntry (hg : root.get? (pre ++ [s]) = some c) (he : c.entry = none) :
    deleteStep root pre s leaf = root := by
  rw [deleteStep, hg]
  simp only [he]

/-- One level of `Delete` leaves the tree, or takes a node or its children. -/
theorem deleteStep_cases (root : Config) (pre : Loc) (s : Step) (leaf : Bool) :
    deleteStep root pre s leaf = root ∨
    (root.get? (pre ++ [s])).isSome ∧ (deleteStep root pre s leaf = root.without pre s ∨
      deleteStep root pre s leaf = root.modify (pre ++ [s]) Config.clear) := by
  cases hg : root.get? (pre ++ [s]) with
  | none => exact .inl (deleteStep_none hg)
  | some c =>
    cases he : c.entry with
    | none => exact .inl (deleteStep_noEntry hg he)
    | some e =>
      rw [deleteStep_eq hg he]
      by_cases hd : c.drops e s.slot leaf = true
      · rw [if_pos hd]
        exact .inr ⟨rfl, .inl rfl⟩
      · rw [if_neg hd]
        by_cases hc : clears e s.slot leaf = true
        · rw [if_pos hc]
          exact .inr ⟨rfl, .inr rfl⟩
        · rw [if_neg hc]
          exact .inl rfl

end

/-! ## Trees that follow the schema -/

section

variable {cur : Cursor} {root c : Config} {pre loc : Loc} {s : Step} {leaf : Bool}

theorem Typed.deleteChild (h : Typed env cur c) (s : Step) : Typed env cur (c.deleteChild s) := by
  have hsub := c.slot_deleteChild_sublist s
  refine .mk ?_ (fun t => ?_) (fun d hd d' hd' => ?_) (fun t d hd => ?_) (fun t d hd => ?_)
  · rw [Config.deleteChild_toNode]
    exact h.content
  · exact (h.nodup t).sublist ((hsub t).map _)
  · exact h.oneCase d ((hsub .configs).subset hd) d' ((hsub .configs).subset hd')
  · exact h.edge t d ((hsub t).subset hd)
  · exact h.child t d ((hsub t).subset hd)

theorem Typed.clear (h : Typed env cur c) : Typed env cur c.clear := by
  have hs (t : Slot) : c.clear.slot t = [] := by cases t <;> rfl
  refine .mk h.content (fun t => ?_) (fun d hd => ?_) (fun t d hd => ?_) (fun t d hd => ?_)
  · rw [hs]
    exact List.nodup_nil
  · cases hd
  · rw [hs] at hd
    cases hd
  · rw [hs] at hd
    cases hd

/-- What one level of `Delete` keeps: an invariant of a tree under the loss of children. -/
theorem deleteStep_induct {P : Config → Prop} (hw : ∀ root pre s, P root → P (root.without pre s))
    (hc : ∀ root l, P root → P (root.modify l Config.clear)) (pre : Loc) (s : Step) (leaf : Bool)
    (h : P root) : P (deleteStep root pre s leaf) := by
  rcases deleteStep_cases root pre s leaf with heq | ⟨-, heq | heq⟩
  · rw [heq]
    exact h
  · rw [heq]
    exact hw _ _ _ h
  · rw [heq]
    exact hc _ _ h

theorem deleteUp_induct {P : Config → Prop} (hw : ∀ root pre s, P root → P (root.without pre s))
    (hc : ∀ root l, P root → P (root.modify l Config.clear)) (rev : List Step) (leaf : Bool)
    (h : P root) : P (deleteUp root rev leaf) := by
  induction rev generalizing root leaf with
  | nil => exact h
  | cons s rev ih =>
    have hstep := deleteStep_induct hw hc rev.reverse s leaf h
    rw [deleteUp]
    split
    · exact hstep
    · exact ih _ hstep

theorem Config.modify_of_none {f : Config → Config} {l : Loc} (h : root.get? l = none) :
    root.modify l f = root := by
  refine Config.modify_self fun d hd => ?_
  rw [h] at hd
  cases hd

theorem Typed.without (h : Typed env cur root) (pre : Loc) (s : Step) :
    Typed env cur (root.without pre s) := by
  cases hg : root.get? pre with
  | none =>
    rw [Config.without, Config.modify_of_none hg]
    exact h
  | some p =>
    obtain ⟨cur', hw, ht⟩ := h.walk_of_get hg
    exact h.modify hw (ht.deleteChild s) (.of_toNode (Config.deleteChild_toNode p s))

theorem Typed.clearAt (h : Typed env cur root) (l : Loc) :
    Typed env cur (root.modify l Config.clear) := by
  cases hg : root.get? l with
  | none =>
    rw [Config.modify_of_none hg]
    exact h
  | some p =>
    obtain ⟨cur', hw, ht⟩ := h.walk_of_get hg
    exact h.modify hw ht.clear (.of_toNode rfl)

theorem Typed.deleteStep (h : Typed env cur root) (pre : Loc) (s : Step) (leaf : Bool) :
    Typed env cur (deleteStep root pre s leaf) :=
  deleteStep_induct (P := fun c => Typed env cur c) (fun _ _ _ h => h.without _ _)
    (fun _ _ h => h.clearAt _) pre s leaf h

theorem Typed.delete (h : Typed env cur root) (loc : Loc) (leaf : Bool) :
    Typed env cur (delete root loc leaf) :=
  deleteUp_induct (P := fun c => Typed env cur c) (fun _ _ _ h => h.without _ _)
    (fun _ _ h => h.clearAt _) loc.reverse leaf h

end

/-! ## What goes and what stays -/

section

variable {cur : Cursor} {root c : Config} {pre l : Loc} {s : Step} {rev : List Step} {leaf : Bool}

theorem Config.without_toNode (root : Config) (pre : Loc) (s : Step) :
    (root.without pre s).toNode = root.toNode := by
  cases pre with
  | nil => exact Config.deleteChild_toNode root s
  | cons t pre => exact Config.modify_toNode root t pre _

theorem Config.modify_clear_toNode (root : Config) (l : Loc) :
    (root.modify l Config.clear).toNode = root.toNode := by
  cases l with
  | nil => rfl
  | cons t l => exact Config.modify_toNode root t l _

theorem delete_toNode (root : Config) (loc : Loc) (leaf : Bool) :
    (delete root loc leaf).toNode = root.toNode := by
  refine deleteUp_induct (P := fun c => c.toNode = root.toNode) (fun c pre s h => ?_)
    (fun c l h => ?_) loc.reverse leaf rfl
  · rw [Config.without_toNode, h]
  · rw [Config.modify_clear_toNode, h]

theorem Config.get?_clear_cons (c : Config) (s : Step) (l : Loc) : c.clear.get? (s :: l) = none := by
  obtain ⟨slot, name⟩ := s
  cases slot <;> rfl

theorem Config.partOf_without (root : Config) (pre : Loc) (s : Step) :
    (root.without pre s).PartOf root := by
  intro l n hn
  by_cases h : pre ++ [s] <+: l
  · obtain ⟨r, rfl⟩ := h
    rw [Config.node?, Config.get?_without_below] at hn
    cases hn
  · rw [← hn]
    exact (Config.get?_without_ne h).symm

theorem Config.partOf_clear (root : Config) (loc : Loc) :
    (root.modify loc Config.clear).PartOf root := by
  intro l n hn
  by_cases h : loc <+: l
  · obtain ⟨r, rfl⟩ := h
    rw [Config.node?, Config.get?_modify_append (f := Config.clear) (fun _ => rfl)] at hn
    rw [Config.node?, Config.get?_append]
    cases hg : root.get? loc with
    | none =>
      rw [hg] at hn
      cases hn
    | some c =>
      rw [hg, Option.bind_some] at hn
      cases r with
      | nil => exact hn
      | cons t r =>
        rw [Config.get?_clear_cons] at hn
        cases hn
  · rw [← hn]
    exact (Config.node?_modify_off (g := Config.clear) (fun _ => rfl) h).symm

theorem deleteStep_partOf (root : Config) (pre : Loc) (s : Step) (leaf : Bool) :
    (deleteStep root pre s leaf).PartOf root := by
  refine deleteStep_induct (P := fun c => c.PartOf root) (fun c pre s h l n hn => ?_)
    (fun c loc h l n hn => ?_) pre s leaf (fun l n hn => hn)
  · exact h l n (Config.partOf_without c pre s l n hn)
  · exact h l n (Config.partOf_clear c loc l n hn)

theorem deleteUp_partOf (root : Config) (rev : List Step) (leaf : Bool) :
    (deleteUp root rev leaf).PartOf root := by
  refine deleteUp_induct (P := fun c => c.PartOf root) (fun c pre s h l n hn => ?_)
    (fun c loc h l n hn => ?_) rev leaf (fun l n hn => hn)
  · exact h l n (Config.partOf_without c pre s l n hn)
  · exact h l n (Config.partOf_clear c loc l n hn)

theorem Config.PartOf.isSome (h : Config.PartOf c root) {l : Loc} (hl : (c.get? l).isSome) :
    (root.get? l).isSome := by
  obtain ⟨d, hd⟩ := Option.isSome_iff_exists.mp hl
  have := h l d.toNode (Config.node?_eq hd)
  obtain ⟨b, hb, -⟩ := Option.map_eq_some_iff.mp this
  rw [hb]
  rfl

/-- The node above stays. -/
theorem deleteStep_parent (h : (root.get? pre).isSome) :
    ((deleteStep root pre s leaf).get? pre).isSome := by
  obtain ⟨p, hp⟩ := Option.isSome_iff_exists.mp h
  rcases deleteStep_cases root pre s leaf with heq | ⟨-, heq | heq⟩
  · rw [heq]
    exact h
  · rw [heq, Config.without, Config.get?_modify_self (Config.deleteChild_keepsName s), hp]
    rfl
  · rw [heq, Config.get?_modify_above (f := Config.clear) (fun _ => rfl), hp]
    rfl

theorem Config.isEmpty_of_child {d : Config} (h : c.child? s = some d) : c.isEmpty = false := by
  have hm := List.ne_nil_of_mem (Config.child?_mem h)
  cases hs : s.slot with
  | configs =>
    rw [hs] at hm
    have hm : c.configs ≠ [] := hm
    simp [Config.isEmpty, hm]
  | keys =>
    rw [hs] at hm
    have hm : c.keys ≠ [] := hm
    simp [Config.isEmpty, hm]

theorem clears_false (e : Entry) (slot : Slot) : clears e slot false = false := by
  simp [clears]

/-- A node with a child stays, and so does everything above it. -/
theorem deleteUp_of_child {t : Step} (h : (root.get? (rev.reverse ++ [t])).isSome) :
    deleteUp root rev false = root := by
  induction rev generalizing t with
  | nil => rfl
  | cons s rev ih =>
    rw [List.reverse_cons] at h
    have hself := Config.get?_prefix h
    obtain ⟨c, hc⟩ := Option.isSome_iff_exists.mp hself
    have hempty : c.isEmpty = false := by
      rw [Config.get?_append, hc, Option.bind_some, Config.get?_single] at h
      obtain ⟨d, hd⟩ := Option.isSome_iff_exists.mp h
      exact Config.isEmpty_of_child hd
    have hstep : deleteStep root rev.reverse s false = root := by
      cases he : c.entry with
      | none => exact deleteStep_noEntry hc he
      | some e =>
        obtain ⟨kind, hk⟩ : ∃ kind, e.kind = kind := ⟨_, rfl⟩
        obtain ⟨slot, hs⟩ : ∃ slot, s.slot = slot := ⟨_, rfl⟩
        have hd : c.drops e s.slot false = false := by
          simp only [Config.drops, hk, hs, hempty]
          cases kind <;> cases slot <;> rfl
        rw [deleteStep_eq hc he, hd, clears_false]
        rfl
    rw [deleteUp, hstep]
    split
    · rfl
    · exact ih hself

/-- The flags of keys are as right in a part of a tree. -/
theorem Config.Flagged.partOf (h : root.Flagged) (hp : c.PartOf root) : c.Flagged := by
  intro l d hd hk hne
  obtain ⟨b, hb, hbd⟩ := Option.map_eq_some_iff.mp (hp l d.toNode (Config.node?_eq hd))
  obtain ⟨k, hk'⟩ := List.exists_mem_of_ne_nil _ hne
  have hchild : (d.child? ⟨.keys, k.name⟩).isSome :=
    Keyed.get_isSome.mpr ⟨k, hk', rfl⟩
  have hbchild : (b.child? ⟨.keys, k.name⟩).isSome := by
    have := hp.isSome (l := l ++ [⟨.keys, k.name⟩])
      (by rw [Config.get?_append, hd, Option.bind_some, Config.get?_single]; exact hchild)
    rwa [Config.get?_append, hb, Option.bind_some, Config.get?_single] at this
  obtain ⟨k', hk'⟩ := Option.isSome_iff_exists.mp hbchild
  have hbk : b.keyConfig = true := by
    rw [show b.keyConfig = b.toNode.keyConfig from rfl, hbd]
    exact hk
  have hbo := h l b hb hbk (List.ne_nil_of_mem (Config.child?_mem hk'))
  rw [show d.keyOnlyConfig = d.toNode.keyOnlyConfig from rfl, ← hbd]
  exact hbo

end

end OpenConfigd
