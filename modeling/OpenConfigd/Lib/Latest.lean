import Mathlib.Algebra.Order.Ring.Nat
import Mathlib.Data.List.Nodup
import Mathlib.Order.Defs.LinearOrder

/-!
# The last entry of each key in a log

A log is a list of entries that carry a key. `last` is the last entry of a key, and
`survivors` keeps the entries that are the last of their keys: what a store that
applies the log holds. Where the entries come in the order of a stamp, a log is what
came before a stamp followed by the rest (`split_stamp`).
-/

namespace Latest

variable {α κ : Type*} [DecidableEq κ] (key : α → κ)

/-- The last entry of the key. -/
def last (k : κ) (l : List α) : Option α := (l.filter fun a => key a = k).getLast?

/-- The entries that are the last of their keys. -/
def survivors : List α → List α
  | [] => []
  | a :: l => if l.any fun b => key b = key a then survivors l else a :: survivors l

variable {key} {k : κ} {a b : α} {l l' : List α}

@[simp] theorem last_nil : last key k ([] : List α) = none := rfl

theorem last_append : last key k (l ++ l') = (last key k l').or (last key k l) := by
  rw [last, List.filter_append, List.getLast?_append, last, last]

theorem last_singleton : last key k [a] = if key a = k then some a else none := by
  by_cases h : key a = k <;> simp [last, h]

theorem last_cons : last key k (a :: l) = (last key k l).or (if key a = k then some a else none) := by
  rw [← List.singleton_append, last_append, last_singleton]

theorem mem_of_last (h : last key k l = some a) : a ∈ l ∧ key a = k := by
  have hmem := List.mem_filter.mp (List.mem_of_getLast? h)
  exact ⟨hmem.1, by simpa using hmem.2⟩

theorem last_eq_none : last key k l = none ↔ ∀ a ∈ l, key a ≠ k := by
  unfold last
  rw [List.getLast?_eq_none_iff, List.filter_eq_nil_iff]
  simp

theorem last_map {β : Type*} {f : β → α} {key' : β → κ} (hf : ∀ b, key (f b) = key' b) (l : List β) :
    last key k (l.map f) = (last key' k l).map f := by
  unfold last
  rw [List.filter_map, List.getLast?_map]
  simp only [Function.comp_def, hf]

theorem mem_survivors : a ∈ survivors key l ↔ last key (key a) l = some a := by
  induction l with
  | nil => simp [survivors]
  | cons b l ih =>
    have hany : (l.any fun c => key c = key b) = true ↔ last key (key b) l ≠ none := by
      rw [ne_eq, last_eq_none]
      simp
    rw [survivors, last_cons]
    split
    · next hb =>
      rw [ih]
      by_cases hk : key b = key a
      · rw [← hk]
        obtain ⟨c, hc⟩ := Option.ne_none_iff_exists'.mp (hany.mp hb)
        simp [hc]
      · simp [hk]
    · next hb =>
      have hnone : last key (key b) l = none := by
        by_contra hc
        exact hb (hany.mpr hc)
      rw [List.mem_cons, ih]
      by_cases hk : key b = key a
      · rw [hk] at hnone
        simp [hnone, hk, eq_comm]
      · have hne : a ≠ b := fun h => hk (h ▸ rfl)
        simp [hk, hne]

theorem survivors_sublist : (survivors key l).Sublist l := by
  induction l with
  | nil => exact .slnil
  | cons b l ih =>
    rw [survivors]
    split
    · exact ih.cons _
    · exact ih.cons_cons _

theorem nodup_survivors : ((survivors key l).map key).Nodup := by
  induction l with
  | nil => exact List.nodup_nil
  | cons b l ih =>
    rw [survivors]
    split
    · exact ih
    · next hb =>
      rw [List.map_cons, List.nodup_cons]
      refine ⟨fun hmem => ?_, ih⟩
      obtain ⟨c, hc, hkey⟩ := List.mem_map.mp hmem
      simp only [List.any_eq_true, decide_eq_true_eq] at hb
      exact hb ⟨c, survivors_sublist.subset hc, hkey⟩

/-- With distinct keys, an entry is the last of its key. -/
theorem last_of_nodup (hn : (l.map key).Nodup) (h : a ∈ l) : last key (key a) l = some a := by
  induction l with
  | nil => cases h
  | cons b l ih =>
    rw [List.map_cons, List.nodup_cons] at hn
    rw [last_cons]
    rcases List.mem_cons.mp h with rfl | h
    · have hnone : last key (key a) l = none :=
        last_eq_none.mpr fun c hc hkey => hn.1 (hkey ▸ List.mem_map_of_mem hc)
      simp [hnone]
    · rw [ih hn.2 h, Option.some_or]

section Stamps

variable {β : Type*} [LinearOrder β] {stamp : α → β}

/-- A log in the order of its stamps is what came before a stamp, then the rest. -/
theorem split_stamp (hs : l.Pairwise fun a b => stamp a ≤ stamp b) (n : β) :
    l.filter (fun a => stamp a < n) ++ l.filter (fun a => n ≤ stamp a) = l := by
  induction l with
  | nil => rfl
  | cons a l ih =>
    rw [List.pairwise_cons] at hs
    by_cases ha : stamp a < n
    · have hn : ¬ n ≤ stamp a := not_le.mpr ha
      simp only [List.filter_cons, ha, hn, decide_true, decide_false, if_true, Bool.false_eq_true, if_false,
        List.cons_append, ih hs.2]
    · have hn : n ≤ stamp a := not_lt.mp ha
      have hnil : l.filter (fun a => stamp a < n) = [] := by
        rw [List.filter_eq_nil_iff]
        intro b hb hlt
        exact absurd (hs.1 b hb) (not_le.mpr (lt_of_lt_of_le (of_decide_eq_true hlt) hn))
      have hall : l.filter (fun a => n ≤ stamp a) = l := by
        rw [List.filter_eq_self]
        intro b hb
        exact decide_eq_true (le_trans hn (hs.1 b hb))
      simp only [List.filter_cons, ha, hn, decide_true, decide_false, if_true, Bool.false_eq_true, if_false,
        hnil, hall, List.nil_append]

/-- The last entry of a key has the greatest stamp. -/
theorem le_last (hs : l.Pairwise fun a b => stamp a ≤ stamp b) (hl : last key k l = some a) (hb : b ∈ l)
    (hk : key b = k) : stamp b ≤ stamp a := by
  induction l with
  | nil => cases hb
  | cons c l ih =>
    rw [List.pairwise_cons] at hs
    rw [last_cons] at hl
    cases hlast : last key k l with
    | some d =>
      rw [hlast, Option.some_or, Option.some_inj] at hl
      subst hl
      rcases List.mem_cons.mp hb with rfl | hb
      · exact hs.1 _ (mem_of_last hlast).1
      · exact ih hs.2 hlast hb
    | none =>
      rw [hlast, Option.none_or] at hl
      rcases List.mem_cons.mp hb with rfl | hb
      · rw [if_pos hk, Option.some_inj] at hl
        rw [hl]
      · exact absurd hk (last_eq_none.mp hlast b hb)

end Stamps

end Latest
