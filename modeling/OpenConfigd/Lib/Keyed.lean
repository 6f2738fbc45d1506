import Mathlib.Data.List.Count
import Mathlib.Data.List.Forall2
import Mathlib.Data.List.Nodup
import Mathlib.Data.List.Perm.Basic

/-!
# Lists searched by a key

A list whose elements carry a key, searched and changed at the first element
with a given key (`get`, `modify`). When the keys are pairwise distinct a
search does not depend on the order (`get_perm`), and an element is what its
key finds (`get_of_mem`).
-/

namespace Keyed

variable {α κ : Type*} [DecidableEq κ] (key : α → κ)

/-- The first element with key `k`. -/
def get (k : κ) (l : List α) : Option α := l.find? fun a => key a = k

/-- The list with its first element of key `k` changed by `f`. -/
def modify (k : κ) (f : α → α) : List α → List α
  | [] => []
  | a :: l => if key a = k then f a :: l else a :: modify k f l

variable {key}

@[simp] theorem get_nil (k : κ) : get key k [] = none := rfl

theorem get_cons (k : κ) (a : α) (l : List α) :
    get key k (a :: l) = if key a = k then some a else get key k l := by
  by_cases h : key a = k <;> simp [get, h]

theorem mem_of_get {k : κ} {l : List α} {a : α} (h : get key k l = some a) : a ∈ l :=
  List.mem_of_find?_eq_some h

theorem key_of_get (key : α → κ) {k : κ} {l : List α} {a : α} (h : get key k l = some a) : key a = k := by
  have := List.find?_some h
  simpa using this

theorem get_eq_none {k : κ} {l : List α} : get key k l = none ↔ ∀ a ∈ l, key a ≠ k := by
  simp [get]

theorem get_isSome {k : κ} {l : List α} : (get key k l).isSome ↔ ∃ a ∈ l, key a = k := by
  simp [get]

/-- With distinct keys, an element is what its key finds. -/
theorem get_of_mem {l : List α} (hn : (l.map key).Nodup) {a : α} (h : a ∈ l) :
    get key (key a) l = some a := by
  induction l with
  | nil => cases h
  | cons b l ih =>
    rw [List.map_cons, List.nodup_cons] at hn
    rw [get_cons]
    rcases List.mem_cons.mp h with rfl | h
    · rw [if_pos rfl]
    · rw [if_neg, ih hn.2 h]
      intro e
      exact hn.1 (e ▸ List.mem_map_of_mem h)

theorem get_iff {l : List α} (hn : (l.map key).Nodup) {k : κ} {a : α} :
    get key k l = some a ↔ a ∈ l ∧ key a = k := by
  refine ⟨fun h => ⟨mem_of_get h, key_of_get key h⟩, ?_⟩
  rintro ⟨h, rfl⟩
  exact get_of_mem hn h

/-- With distinct keys a search does not depend on the order of the list. -/
theorem get_perm {l l' : List α} (hp : l.Perm l') (hn : (l.map key).Nodup) (k : κ) :
    get key k l = get key k l' := by
  have hn' : (l'.map key).Nodup := (hp.map key).nodup_iff.mp hn
  cases h : get key k l with
  | some a =>
    have ⟨hm, hk⟩ := (get_iff hn).mp h
    exact ((get_iff hn').mpr ⟨hp.mem_iff.mp hm, hk⟩).symm
  | none =>
    refine (get_eq_none.mpr fun a ha => ?_).symm
    exact get_eq_none.mp h a (hp.mem_iff.mpr ha)

theorem get_sublist {l l' : List α} (hs : l'.Sublist l) (hn : (l.map key).Nodup) (k : κ) :
    get key k l' = get key k l ∨ get key k l' = none := by
  cases h : get key k l' with
  | none => exact .inr rfl
  | some a =>
    refine .inl ((get_iff hn).mpr ⟨hs.subset (mem_of_get h), key_of_get key h⟩).symm

/-- What is added to a list that does not have its key is found. -/
theorem get_new {l l' : List α} {b : α} (hm : ∀ a ∈ l', a ∈ l ∨ a = b) (hb : b ∈ l')
    (hl : get key (key b) l = none) : get key (key b) l' = some b := by
  have hsome : (get key (key b) l').isSome := get_isSome.mpr ⟨b, hb, rfl⟩
  obtain ⟨a, ha⟩ := Option.isSome_iff_exists.mp hsome
  rcases hm a (mem_of_get ha) with hin | rfl
  · exact absurd (key_of_get key ha) (get_eq_none.mp hl a hin)
  · exact ha

theorem get_append (k : κ) (l l' : List α) :
    get key k (l ++ l') = (get key k l).or (get key k l') := by
  simp [get, List.find?_append]

/-- A search among the elements whose keys are kept. -/
theorem get_filter (key : α → κ) (q : κ → Bool) (k : κ) (l : List α) :
    get key k (l.filter fun a => q (key a)) = if q k then get key k l else none := by
  rw [get, List.find?_filter]
  by_cases hq : q k
  · rw [if_pos hq, get]
    congr 1
    funext a
    by_cases ha : key a = k <;> simp [ha, hq]
  · rw [if_neg hq, List.find?_eq_none]
    intro a _ ha
    simp only [decide_eq_true_eq] at ha
    exact hq (ha.2 ▸ ha.1)

@[simp] theorem modify_nil (k : κ) (f : α → α) : modify key k f [] = [] := rfl

theorem modify_cons (k : κ) (f : α → α) (a : α) (l : List α) :
    modify key k f (a :: l) = if key a = k then f a :: l else a :: modify key k f l := rfl

/-- A value of the elements that the change keeps. -/
theorem map_modify {β : Type*} (g : α → β) {k : κ} {f : α → α} {l : List α}
    (h : ∀ a, get key k l = some a → g (f a) = g a) : (modify key k f l).map g = l.map g := by
  induction l with
  | nil => rfl
  | cons a l ih =>
    rw [modify_cons]
    split
    · rename_i hk
      rw [List.map_cons, List.map_cons, h a (by rw [get_cons, if_pos hk])]
    · rename_i hk
      rw [List.map_cons, List.map_cons, ih fun b hb => h b (by rw [get_cons, if_neg hk, hb])]

theorem get_modify_self (key : α → κ) {k : κ} {f : α → α} (hf : ∀ a, key (f a) = key a) (l : List α) :
    get key k (modify key k f l) = (get key k l).map f := by
  induction l with
  | nil => rfl
  | cons a l ih =>
    rw [modify_cons, get_cons]
    split
    · rename_i h
      rw [get_cons, if_pos ((hf a).trans h)]
      rfl
    · rename_i h
      rw [get_cons, if_neg h, ih]

theorem get_modify_ne (key : α → κ) {k k' : κ} (hk : k' ≠ k) {f : α → α} (hf : ∀ a, key (f a) = key a)
    (l : List α) : get key k' (modify key k f l) = get key k' l := by
  induction l with
  | nil => rfl
  | cons a l ih =>
    rw [modify_cons, get_cons]
    split
    · rename_i h
      have ha : key a ≠ k' := fun e => hk (e.symm.trans h)
      rw [get_cons, if_neg ha, if_neg ((hf a).trans_ne ha)]
    · rw [get_cons, ih]

@[simp] theorem modify_eq_nil {k : κ} {f : α → α} {l : List α} : modify key k f l = [] ↔ l = [] := by
  cases l with
  | nil => simp
  | cons a l =>
    rw [modify_cons]
    split <;> simp

/-- An element of a changed list is an old one, or the change of the one its key found. -/
theorem mem_modify {k : κ} {f : α → α} {l : List α} {b : α} (h : b ∈ modify key k f l) :
    b ∈ l ∨ ∃ a, get key k l = some a ∧ b = f a := by
  induction l with
  | nil => cases h
  | cons a l ih =>
    rw [modify_cons] at h
    split at h
    · rename_i hk
      rcases List.mem_cons.mp h with rfl | h
      · exact .inr ⟨a, by rw [get_cons, if_pos hk], rfl⟩
      · exact .inl (List.mem_cons_of_mem _ h)
    · rename_i hk
      rcases List.mem_cons.mp h with rfl | h
      · exact .inl List.mem_cons_self
      · rcases ih h with h | ⟨c, hc, rfl⟩
        · exact .inl (List.mem_cons_of_mem _ h)
        · exact .inr ⟨c, by rw [get_cons, if_neg hk, hc], rfl⟩

theorem modify_modify (key : α → κ) {k : κ} {f g : α → α} (hf : ∀ a, key (f a) = key a) (l : List α) :
    modify key k g (modify key k f l) = modify key k (fun a => g (f a)) l := by
  induction l with
  | nil => rfl
  | cons a l ih =>
    by_cases h : key a = k
    · simp only [modify_cons, h, hf, if_true]
    · simp only [modify_cons, h, if_false, ih]

theorem modify_congr {k : κ} {f g : α → α} {l : List α}
    (h : ∀ a, get key k l = some a → f a = g a) : modify key k f l = modify key k g l := by
  induction l with
  | nil => rfl
  | cons a l ih =>
    by_cases hk : key a = k
    · simp only [modify_cons, hk, if_true]
      rw [h a (by rw [get_cons, if_pos hk])]
    · simp only [modify_cons, hk, if_false]
      rw [ih fun b hb => h b (by rw [get_cons, if_neg hk, hb])]

/-- A search in a changed list is a search in the list that sees the change. -/
theorem find?_modify (key : α → κ) {k : κ} {f : α → α} (hf : ∀ a, key (f a) = key a) {p p' : α → Bool}
    {l : List α} (hn : (l.map key).Nodup) (h : ∀ a, get key k l = some a → p (f a) = p' a)
    (h' : ∀ a ∈ l, key a ≠ k → p a = p' a) :
    ((modify key k f l).find? p).map key = (l.find? p').map key := by
  induction l with
  | nil => rfl
  | cons a l ih =>
    rw [List.map_cons, List.nodup_cons] at hn
    rw [modify_cons]
    by_cases hk : key a = k
    · have hl : ∀ b ∈ l, p b = p' b := fun b hb =>
        h' b (List.mem_cons_of_mem _ hb) fun hb' =>
          hn.1 (List.mem_map.mpr ⟨b, hb, hb'.trans hk.symm⟩)
      have hfind : l.find? p = l.find? p' := by
        rw [← List.head?_filter, ← List.head?_filter, List.filter_congr hl]
      rw [if_pos hk, List.find?_cons, List.find?_cons, h a (by rw [get_cons, if_pos hk]), hfind]
      cases p' a with
      | false => rfl
      | true => exact congrArg some (hf a)
    · have ih' := ih hn.2 (fun b hb => h b (by rw [get_cons, if_neg hk, hb]))
        fun b hb => h' b (List.mem_cons_of_mem _ hb)
      rw [if_neg hk, List.find?_cons, List.find?_cons, h' a List.mem_cons_self hk]
      cases p' a with
      | false => exact ih'
      | true => rfl

theorem modify_id (k : κ) (l : List α) : modify key k id l = l := by
  induction l with
  | nil => rfl
  | cons a l ih => simp [modify_cons, ih]

/-- How often an element is under its key among the elements of some keys. -/
theorem count_flatMap {β : Type*} [DecidableEq β] (f : κ → List β) {order : List κ} (hn : order.Nodup)
    (k : κ) (b : β) :
    (order.flatMap fun j => (f j).map fun t => (j, t)).count (k, b) =
      if k ∈ order then (f k).count b else 0 := by
  have hself (j : κ) : ((f j).map fun t => (j, t)).count (k, b) = if j = k then (f k).count b else 0 := by
    by_cases hj : j = k
    · subst hj
      rw [if_pos rfl]
      exact List.count_map_of_injective _ _ (fun _ _ h => (Prod.mk.inj h).2) _
    · rw [if_neg hj, List.count_eq_zero]
      simp [hj]
  induction order with
  | nil => simp
  | cons j order ih =>
    have hn := List.nodup_cons.mp hn
    rw [List.flatMap_cons, List.count_append, hself, ih hn.2]
    by_cases hj : j = k
    · subst hj
      simp [hn.1]
    · simp [hj, Ne.symm hj]

/-! ## Lists related element by element -/

/-- A key finds related elements in lists whose elements are related. -/
theorem rel_get {R : α → α → Prop} (hR : ∀ a b, R a b → key a = key b) {l l' : List α}
    (h : List.Forall₂ R l l') (k : κ) : Option.Rel R (get key k l) (get key k l') := by
  induction h with
  | nil => exact .none
  | @cons a b l l' hab _ ih =>
    rw [get_cons, get_cons, ← hR a b hab]
    split
    · exact .some hab
    · exact ih

/-- A change at a key keeps the relation if it does so at the elements the key finds. -/
theorem rel_modify {R : α → α → Prop} (hR : ∀ a b, R a b → key a = key b) {k : κ} {f g : α → α}
    {l l' : List α} (h : List.Forall₂ R l l')
    (hf : ∀ a b, get key k l = some a → get key k l' = some b → R a b → R (f a) (g b)) :
    List.Forall₂ R (modify key k f l) (modify key k g l') := by
  induction h with
  | nil => exact .nil
  | @cons a b l l' hab hl ih =>
    rw [modify, modify, ← hR a b hab]
    by_cases hk : key a = k
    · rw [if_pos hk, if_pos hk]
      refine .cons (hf a b ?_ ?_ hab) hl
      · rw [get_cons, if_pos hk]
      · rw [get_cons, ← hR a b hab, if_pos hk]
    · rw [if_neg hk, if_neg hk]
      refine .cons hab (ih fun a' b' ha' hb' => hf a' b' ?_ ?_)
      · rw [get_cons, if_neg hk, ha']
      · rw [get_cons, ← hR a b hab, if_neg hk, hb']

end Keyed
