import Mathlib.Data.List.Perm.Basic
import Mathlib.Data.List.Induction
import Mathlib.Order.Nat

/-!
# The best of a list

A fold that keeps the highest rank it has met, how many elements have it and the first of them;
an element of rank 0 does not count.

* `rank_le_ofList`, `ofList_count`, `ofList_first`: what the fold ends with;
* `ofList_count_one`: it counts one just if one element leads the others;
* `ofList_perm`: the order does not matter, apart from which of several is first.
-/

/-- What has been met so far. -/
structure Best (α : Type*) where
  rank : ℕ := 0
  count : ℕ := 0
  first : Option α := none

namespace Best

variable {α : Type*} (rank : α → ℕ)

/-- The next element. -/
def add (b : Best α) (x : α) : Best α :=
  if rank x = 0 then b
  else if b.rank < rank x then ⟨rank x, 1, some x⟩
  else if rank x = b.rank then { b with count := b.count + 1 }
  else b

/-- All elements of a list. -/
def ofList (l : List α) : Best α := l.foldl (add rank) {}

@[simp] theorem ofList_nil : ofList rank [] = {} := rfl

theorem ofList_snoc (l : List α) (x : α) : ofList rank (l ++ [x]) = (ofList rank l).add rank x := by
  rw [ofList, List.foldl_append]
  rfl

theorem le_add_rank (b : Best α) (x : α) : b.rank ≤ (b.add rank x).rank := by
  grind [add]

theorem rank_le_add (b : Best α) (x : α) : rank x ≤ (b.add rank x).rank := by
  grind [add]

theorem add_rank (b : Best α) (x : α) : (b.add rank x).rank = max b.rank (rank x) := by
  grind [add]

variable {rank} {l l' : List α} {x : α}

theorem rank_le_ofList (h : x ∈ l) : rank x ≤ (ofList rank l).rank := by
  induction l using List.reverseRecOn with
  | nil => cases h
  | append_singleton l y ih =>
    rw [ofList_snoc]
    rcases List.mem_append.mp h with h | h
    · exact (ih h).trans (le_add_rank rank _ y)
    · obtain rfl := List.mem_singleton.mp h
      exact rank_le_add rank _ x

theorem exists_ofList (h : (ofList rank l).rank ≠ 0) : ∃ x ∈ l, rank x = (ofList rank l).rank := by
  induction l using List.reverseRecOn with
  | nil => exact absurd rfl h
  | append_singleton l y ih =>
    rw [ofList_snoc, add_rank] at h ⊢
    rcases le_total (rank y) (ofList rank l).rank with hle | hle
    · rw [max_eq_left hle] at h ⊢
      obtain ⟨x, hx, he⟩ := ih h
      exact ⟨x, List.mem_append_left _ hx, he⟩
    · rw [max_eq_right hle]
      exact ⟨y, List.mem_append_right _ (List.mem_singleton_self y), rfl⟩

theorem ofList_count (l : List α) : (ofList rank l).count =
    if (ofList rank l).rank = 0 then 0 else l.countP fun x => rank x = (ofList rank l).rank := by
  induction l using List.reverseRecOn with
  | nil => rfl
  | append_singleton l y ih =>
    have hnone (h : (ofList rank l).rank < rank y) :
        l.countP (fun x => rank x = rank y) = 0 := by
      refine List.countP_eq_zero.mpr fun x hx => ?_
      have : rank x ≤ (ofList rank l).rank := rank_le_ofList hx
      simp only [decide_eq_true_eq]
      omega
    rw [ofList_snoc, List.countP_append, List.countP_singleton, add]
    grind

theorem ofList_first (l : List α) : (ofList rank l).first =
    if (ofList rank l).rank = 0 then none else l.find? fun x => rank x = (ofList rank l).rank := by
  induction l using List.reverseRecOn with
  | nil => rfl
  | append_singleton l y ih =>
    have hnone (h : (ofList rank l).rank < rank y) :
        l.find? (fun x => rank x = rank y) = none := by
      refine List.find?_eq_none.mpr fun x hx => ?_
      have : rank x ≤ (ofList rank l).rank := rank_le_ofList hx
      simp only [decide_eq_true_eq]
      omega
    have hsome (h : (ofList rank l).rank ≠ 0) :
        (l.find? fun x => rank x = (ofList rank l).rank).isSome := by
      simpa [List.find?_isSome] using exists_ofList h
    rw [ofList_snoc, List.find?_append, add]
    by_cases h0 : rank y = 0
    · rw [if_pos h0, ih]
      split
      · rfl
      · rename_i hr
        rw [Option.or_of_isSome (hsome hr)]
    · rw [if_neg h0]
      by_cases hlt : (ofList rank l).rank < rank y
      · rw [if_pos hlt, hnone hlt]
        simp [h0]
      · rw [if_neg hlt]
        have hr : (ofList rank l).rank ≠ 0 := by omega
        by_cases he : rank y = (ofList rank l).rank
        · rw [if_pos he, if_neg hr, Option.or_of_isSome (hsome hr)]
          simp only [ih, if_neg hr]
        · rw [if_neg he, if_neg hr, ih, if_neg hr, Option.or_of_isSome (hsome hr)]

theorem ofList_count_eq_zero (l : List α) : (ofList rank l).count = 0 ↔ (ofList rank l).first = none := by
  rw [ofList_count, ofList_first]
  split
  · exact iff_of_true rfl rfl
  · rw [List.countP_eq_zero, List.find?_eq_none]

/-! ## One element leads -/

/-- The element has a higher rank than all the others. -/
def Leads (rank : α → ℕ) (l : List α) (x : α) : Prop :=
  0 < rank x ∧ ∃ l₁ l₂, l = l₁ ++ x :: l₂ ∧ ∀ y ∈ l₁ ++ l₂, rank y < rank x

theorem Leads.mem (h : Leads rank l x) : x ∈ l := by
  obtain ⟨-, l₁, l₂, rfl, -⟩ := h
  exact List.mem_append_right _ List.mem_cons_self

theorem Leads.eq {y : α} (h : Leads rank l x) (hy : y ∈ l) (hr : rank x ≤ rank y) : y = x := by
  obtain ⟨-, l₁, l₂, rfl, hlt⟩ := h
  by_contra hne
  have hm : y ∈ l₁ ++ l₂ := by grind
  exact absurd (hlt y hm) (by omega)

theorem Leads.unique {y : α} (h : Leads rank l x) (h' : Leads rank l y) : y = x := by
  rcases le_total (rank x) (rank y) with hr | hr
  · exact h.eq h'.mem hr
  · exact (h'.eq h.mem hr).symm

theorem Leads.perm (h : Leads rank l x) (hp : l.Perm l') : Leads rank l' x := by
  obtain ⟨hpos, l₁, l₂, rfl, hlt⟩ := h
  obtain ⟨l₃, l₄, rfl⟩ := List.append_of_mem (hp.subset (List.mem_append_right _ List.mem_cons_self))
  refine ⟨hpos, l₃, l₄, rfl, fun y hy => hlt y ?_⟩
  have hp' : (x :: (l₁ ++ l₂)).Perm (x :: (l₃ ++ l₄)) :=
    List.perm_middle.symm.trans (hp.trans List.perm_middle)
  exact hp'.cons_inv.mem_iff.mpr hy

/-- In a list without an element twice. -/
theorem leads_iff_of_nodup (hl : l.Nodup) :
    Leads rank l x ↔ x ∈ l ∧ 0 < rank x ∧ ∀ y ∈ l, y ≠ x → rank y < rank x := by
  constructor
  · intro h
    refine ⟨h.mem, h.1, fun y hy hne => ?_⟩
    exact Nat.lt_of_not_le fun hle => hne (h.eq hy hle)
  · rintro ⟨hx, hpos, hlt⟩
    obtain ⟨l₁, l₂, rfl⟩ := List.append_of_mem hx
    refine ⟨hpos, l₁, l₂, rfl, fun y hy => hlt y ?_ ?_⟩
    · exact List.perm_middle.symm.subset (List.mem_cons_of_mem x hy)
    · rintro rfl
      exact (List.nodup_cons.mp (List.perm_middle.nodup_iff.mp hl)).1 hy

theorem Leads.ofList (h : Leads rank l x) : (Best.ofList rank l).rank = rank x ∧
    (Best.ofList rank l).count = 1 ∧ (Best.ofList rank l).first = some x := by
  have hle : rank x ≤ (Best.ofList rank l).rank := rank_le_ofList h.mem
  have hpos := h.1
  obtain ⟨y, hy, he⟩ : ∃ y ∈ l, rank y = (Best.ofList rank l).rank := exists_ofList (by omega)
  obtain rfl := h.eq hy (by omega)
  obtain ⟨-, l₁, l₂, rfl, hlt⟩ := h
  have hne (z : α) (hz : z ∈ l₁ ++ l₂) : ¬ rank z = rank y := (hlt z hz).ne
  have h₁ : l₁.countP (fun z => rank z = rank y) = 0 :=
    List.countP_eq_zero.mpr fun z hz => by simpa using hne z (List.mem_append_left _ hz)
  have h₂ : l₂.countP (fun z => rank z = rank y) = 0 :=
    List.countP_eq_zero.mpr fun z hz => by simpa using hne z (List.mem_append_right _ hz)
  have hf : l₁.find? (fun z => rank z = rank y) = none :=
    List.find?_eq_none.mpr fun z hz => by simpa using hne z (List.mem_append_left _ hz)
  refine ⟨he.symm, ?_, ?_⟩
  · rw [ofList_count, if_neg (by omega), ← he, List.countP_append, List.countP_cons, h₁, h₂]
    simp
  · rw [ofList_first, if_neg (by omega), ← he, List.find?_append, hf]
    simp

theorem ofList_count_one (h : (ofList rank l).count = 1) :
    ∃ x, Leads rank l x ∧ (ofList rank l).first = some x := by
  have hr : (ofList rank l).rank ≠ 0 := by
    intro hr
    rw [ofList_count, if_pos hr] at h
    cases h
  obtain ⟨x, hx⟩ : ∃ x, l.find? (fun x => rank x = (ofList rank l).rank) = some x :=
    Option.isSome_iff_exists.mp (by simpa [List.find?_isSome] using exists_ofList hr)
  obtain ⟨hxr, l₁, l₂, hl, h₁⟩ := List.find?_eq_some_iff_append.mp hx
  have hxr : rank x = (ofList rank l).rank := by simpa using hxr
  refine ⟨x, ⟨by omega, l₁, l₂, hl, fun y hy => ?_⟩, by rw [ofList_first, if_neg hr, hx]⟩
  have hym : y ∈ l := by
    rw [hl]
    exact List.perm_middle.symm.subset (List.mem_cons_of_mem x hy)
  have hle : rank y ≤ (ofList rank l).rank := rank_le_ofList hym
  refine lt_of_le_of_ne (hxr ▸ hle) fun he => ?_
  rcases List.mem_append.mp hy with hy | hy
  · simpa [he, hxr] using h₁ y hy
  · -- A second element of that rank would make the count 2.
    have h₂ : 0 < l₂.countP fun z => rank z = (ofList rank l).rank :=
      List.countP_pos_iff.mpr ⟨y, hy, by simpa [hxr] using he⟩
    rw [ofList_count, if_neg hr] at h
    conv at h => lhs; rw [hl]
    rw [List.countP_append, List.countP_cons] at h
    rw [← hl] at h
    simp only [hxr, decide_true, if_true] at h
    omega

/-! ## The order of the list -/

theorem ofList_rank_perm (h : l.Perm l') : (ofList rank l).rank = (ofList rank l').rank := by
  have hle {l l' : List α} (h : l.Perm l') : (ofList rank l).rank ≤ (ofList rank l').rank := by
    by_cases hr : (ofList rank l).rank = 0
    · omega
    · obtain ⟨x, hx, he⟩ := exists_ofList hr
      exact he ▸ rank_le_ofList (h.subset hx)
  exact le_antisymm (hle h) (hle h.symm)

theorem ofList_perm (h : l.Perm l') : (ofList rank l).rank = (ofList rank l').rank ∧
    (ofList rank l).count = (ofList rank l').count ∧
    ((ofList rank l).count = 1 → (ofList rank l).first = (ofList rank l').first) := by
  have hr : (ofList rank l).rank = (ofList rank l').rank := ofList_rank_perm h
  refine ⟨hr, ?_, fun hc => ?_⟩
  · rw [ofList_count, ofList_count, hr, h.countP_eq]
  · obtain ⟨x, hx, hf⟩ := ofList_count_one hc
    rw [hf, (hx.perm h).ofList.2.2]

end Best
