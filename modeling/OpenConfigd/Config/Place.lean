import OpenConfigd.Config.Tree

/-!
# Reading and changing a tree at a place

How `get?` and `modify` compose: a change at a place is seen at that place and
below it (`get?_modify_append`), leaves every other place alone
(`get?_modify_off`), and changes no node's own fields on the way to it
(`get?_modify_above`). The functions that change a node keep its name, so that
its place stays the same.
-/

namespace OpenConfigd

/-- The function keeps the name of the node it changes. -/
def KeepsName (f : Config → Config) : Prop := ∀ c, (f c).name = c.name

namespace Config

@[simp] theorem get?_nil (c : Config) : c.get? [] = some c := rfl

theorem get?_cons (c : Config) (s : Step) (l : Loc) :
    c.get? (s :: l) = (c.child? s).bind fun d => d.get? l := rfl

theorem modify_cons (c : Config) (s : Step) (l : Loc) (f : Config → Config) :
    c.modify (s :: l) f = c.modifyChild s fun d => d.modify l f := rfl

theorem get?_append (c : Config) (l l' : Loc) :
    c.get? (l ++ l') = (c.get? l).bind fun d => d.get? l' := by
  induction l generalizing c with
  | nil => rfl
  | cons s l ih =>
    rw [List.cons_append, get?_cons, get?_cons]
    cases c.child? s with
    | none => rfl
    | some d => exact ih d

theorem get?_prefix {c : Config} {l l' : Loc} (h : (c.get? (l ++ l')).isSome) :
    (c.get? l).isSome := by
  rw [get?_append] at h
  cases hc : c.get? l with
  | none =>
    rw [hc] at h
    cases h
  | some d => rfl

theorem isSome_of_prefix {c : Config} {l l' : Loc} (h : (c.get? l').isSome) (hp : l <+: l') :
    (c.get? l).isSome := by
  obtain ⟨r, rfl⟩ := hp
  exact get?_prefix h

theorem get?_single (c : Config) (s : Step) : c.get? [s] = c.child? s := by
  rw [get?_cons]
  cases c.child? s <;> rfl

theorem child?_name {c d : Config} {s : Step} (h : c.child? s = some d) : d.name = s.name :=
  Keyed.key_of_get (fun c : Config => c.name) h

theorem child?_mem {c d : Config} {s : Step} (h : c.child? s = some d) : d ∈ c.slot s.slot :=
  Keyed.mem_of_get h

@[simp] theorem modifyChild_toNode (c : Config) (s : Step) (f : Config → Config) :
    (c.modifyChild s f).toNode = c.toNode := withSlot_toNode _ _ _

theorem slot_modifyChild (c : Config) (s : Step) (f : Config → Config) (t : Slot) :
    (c.modifyChild s f).slot t =
      if t = s.slot then Keyed.modify (·.name) s.name f (c.slot t) else c.slot t := by
  by_cases h : t = s.slot
  · subst h; simp [modifyChild]
  · simp [modifyChild, h]

theorem child?_modifyChild_self {f : Config → Config} (hf : KeepsName f) (c : Config) (s : Step) :
    (c.modifyChild s f).child? s = (c.child? s).map f := by
  rw [child?, slot_modifyChild, if_pos rfl, Keyed.get_modify_self (fun c : Config => c.name) hf]
  rfl

theorem child?_modifyChild_ne {f : Config → Config} (hf : KeepsName f) (c : Config) {s t : Step}
    (h : t ≠ s) : (c.modifyChild s f).child? t = c.child? t := by
  rw [child?, slot_modifyChild]
  by_cases hs : t.slot = s.slot
  · rw [if_pos hs, Keyed.get_modify_ne (fun c : Config => c.name) (fun hn => h ?_) hf]
    · rfl
    · obtain ⟨_, _⟩ := t
      obtain ⟨_, _⟩ := s
      simp only at hs hn
      rw [hs, hn]
  · rw [if_neg hs]
    rfl

theorem modifyChild_modifyChild {f : Config → Config} (hf : KeepsName f) (c : Config) (s : Step)
    (g : Config → Config) :
    (c.modifyChild s f).modifyChild s g = c.modifyChild s fun d => g (f d) := by
  rw [modifyChild, modifyChild, slot_withSlot_self, withSlot_withSlot, Keyed.modify_modify (fun c : Config => c.name) hf]
  rfl

theorem modifyChild_congr {c : Config} {s : Step} {f g : Config → Config}
    (h : ∀ d, c.child? s = some d → f d = g d) : c.modifyChild s f = c.modifyChild s g := by
  rw [modifyChild, modifyChild, Keyed.modify_congr h]

theorem modify_keepsName {f : Config → Config} (hf : KeepsName f) (l : Loc) :
    KeepsName fun d => d.modify l f := by
  intro c
  cases l with
  | nil => exact hf c
  | cons s l => exact congrArg Node.name (modifyChild_toNode c s _)

theorem modify_toNode (c : Config) (s : Step) (l : Loc) (f : Config → Config) :
    (c.modify (s :: l) f).toNode = c.toNode := modifyChild_toNode _ _ _

theorem modify_append (c : Config) (l l' : Loc) (f : Config → Config) :
    c.modify (l ++ l') f = c.modify l fun d => d.modify l' f := by
  induction l generalizing c with
  | nil => rfl
  | cons s l ih =>
    rw [List.cons_append, modify_cons, modify_cons]
    exact modifyChild_congr fun d _ => ih d

theorem modify_modify {f : Config → Config} (hf : KeepsName f) (c : Config) (l : Loc)
    (g : Config → Config) : (c.modify l f).modify l g = c.modify l fun d => g (f d) := by
  induction l generalizing c with
  | nil => rfl
  | cons s l ih =>
    rw [modify_cons, modify_cons, modify_cons, modifyChild_modifyChild (modify_keepsName hf l)]
    exact modifyChild_congr fun d _ => ih d

theorem modify_congr {c : Config} {l : Loc} {f g : Config → Config}
    (h : ∀ d, c.get? l = some d → f d = g d) : c.modify l f = c.modify l g := by
  induction l generalizing c with
  | nil => exact h c rfl
  | cons s l ih =>
    rw [modify_cons, modify_cons]
    refine modifyChild_congr fun d hd => ih fun e he => h e ?_
    rw [get?_cons, hd]
    exact he

/-- A change that leaves the node leaves the tree. -/
theorem modify_self {root : Config} {loc : Loc} {f : Config → Config}
    (h : ∀ d, root.get? loc = some d → f d = d) : root.modify loc f = root := by
  have hid (l : Loc) (c : Config) : c.modify l id = c := by
    induction l generalizing c with
    | nil => rfl
    | cons s l ih =>
      rw [modify_cons, show (fun d : Config => d.modify l id) = id from funext ih,
        modifyChild, Keyed.modify_id, withSlot_self]
  rw [modify_congr (g := id) h, hid]

theorem get?_modify_append {f : Config → Config} (hf : KeepsName f) (c : Config) (l r : Loc) :
    (c.modify l f).get? (l ++ r) = (c.get? l).bind fun d => (f d).get? r := by
  induction l generalizing c with
  | nil => rfl
  | cons s l ih =>
    rw [List.cons_append, get?_cons, modify_cons, child?_modifyChild_self (modify_keepsName hf l),
      get?_cons]
    cases c.child? s with
    | none => rfl
    | some d => exact ih d

theorem get?_modify_self {f : Config → Config} (hf : KeepsName f) (c : Config) (l : Loc) :
    (c.modify l f).get? l = (c.get? l).map f := by
  have h := get?_modify_append hf c l []
  rw [List.append_nil] at h
  rw [h]
  cases c.get? l <;> rfl

theorem get?_modify_off {f : Config → Config} (hf : KeepsName f) (c : Config) {l l' : Loc}
    (h : ¬ l <+: l') (h' : ¬ l' <+: l) : (c.modify l f).get? l' = c.get? l' := by
  induction l generalizing c l' with
  | nil => exact absurd List.nil_prefix h
  | cons s l ih =>
    cases l' with
    | nil => exact absurd List.nil_prefix h'
    | cons t l' =>
      rw [get?_cons, get?_cons, modify_cons]
      by_cases e : t = s
      · subst e
        rw [List.prefix_cons_inj] at h h'
        rw [child?_modifyChild_self (modify_keepsName hf l)]
        cases c.child? t with
        | none => rfl
        | some d => exact ih d h h'
      · rw [child?_modifyChild_ne (modify_keepsName hf l) _ e]

theorem get?_modify_above {f : Config → Config} (hf : KeepsName f) (c : Config) (l r : Loc) :
    (c.modify (l ++ r) f).get? l = (c.get? l).map fun d => d.modify r f := by
  rw [modify_append, get?_modify_self (modify_keepsName hf r)]

end Config

end OpenConfigd
