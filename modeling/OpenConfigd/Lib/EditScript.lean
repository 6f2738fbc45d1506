import Mathlib.Algebra.Order.Ring.Nat
import Mathlib.Data.List.Basic
import Mathlib.Data.List.Perm.Subperm

/-!
# Edit scripts

A script turns a list into another: it keeps, deletes and adds elements. A script is
shortest when what it keeps is a longest common subsequence.

* `Shortest.perm_of_common`: if the lists are one list apart from elements that are not on
  both sides, a shortest script deletes and adds just these;
* `filter_mem_eq`: conversely, where no more is deleted and added, the rest is in one order;
* `Shortest.split_at`: if the lists are equal from the first element of a kind on, a shortest
  script changes nothing after the last element that is not of it.
-/

/-- A step of a script. -/
inductive Edit (α : Type*) where
  | kept (a : α)
  | deleted (a : α)
  | added (a : α)

namespace Edit

variable {α : Type*}

/-- The element of the old list. -/
def old? : Edit α → Option α
  | kept a | deleted a => some a
  | added _ => none

/-- The element of the new list. -/
def new? : Edit α → Option α
  | kept a | added a => some a
  | deleted _ => none

def kept? : Edit α → Option α
  | kept a => some a
  | _ => none

def deleted? : Edit α → Option α
  | deleted a => some a
  | _ => none

def added? : Edit α → Option α
  | added a => some a
  | _ => none

/-- Exchanges the lists. -/
def swap : Edit α → Edit α
  | kept a => kept a
  | deleted a => added a
  | added a => deleted a

end Edit

namespace EditScript

variable {α : Type*}

/-- The list the script starts from. -/
def olds (es : List (Edit α)) : List α := es.filterMap Edit.old?

/-- The list it ends with. -/
def news (es : List (Edit α)) : List α := es.filterMap Edit.new?

def kept (es : List (Edit α)) : List α := es.filterMap Edit.kept?
def deleted (es : List (Edit α)) : List α := es.filterMap Edit.deleted?
def added (es : List (Edit α)) : List α := es.filterMap Edit.added?

/-- No common subsequence is longer than what is kept. -/
def Shortest (es : List (Edit α)) : Prop :=
  ∀ w : List α, w.Sublist (olds es) → w.Sublist (news es) → w.length ≤ (kept es).length

variable {es es' : List (Edit α)}

@[simp] theorem olds_append : olds (es ++ es') = olds es ++ olds es' := List.filterMap_append
@[simp] theorem news_append : news (es ++ es') = news es ++ news es' := List.filterMap_append
@[simp] theorem kept_append : kept (es ++ es') = kept es ++ kept es' := List.filterMap_append
@[simp] theorem deleted_append : deleted (es ++ es') = deleted es ++ deleted es' := List.filterMap_append
@[simp] theorem added_append : added (es ++ es') = added es ++ added es' := List.filterMap_append

theorem kept_sublist_olds (es : List (Edit α)) : (kept es).Sublist (olds es) := by
  induction es with
  | nil => exact .slnil
  | cons e es ih =>
    cases e with
    | kept a => exact ih.cons_cons a
    | deleted a => exact ih.cons a
    | added a => exact ih

theorem olds_perm (es : List (Edit α)) : (kept es ++ deleted es).Perm (olds es) := by
  induction es with
  | nil => exact .nil
  | cons e es ih =>
    cases e with
    | kept a => exact ih.cons a
    | deleted a => exact List.perm_middle.trans (ih.cons a)
    | added a => exact ih

/-! ## The lists exchanged -/

theorem olds_swap (es : List (Edit α)) : olds (es.map Edit.swap) = news es := by
  rw [olds, news, List.filterMap_map]
  congr 1
  funext e
  cases e <;> rfl

theorem news_swap (es : List (Edit α)) : news (es.map Edit.swap) = olds es := by
  rw [olds, news, List.filterMap_map]
  congr 1
  funext e
  cases e <;> rfl

theorem kept_swap (es : List (Edit α)) : kept (es.map Edit.swap) = kept es := by
  rw [kept, kept, List.filterMap_map]
  congr 1
  funext e
  cases e <;> rfl

theorem deleted_swap (es : List (Edit α)) : deleted (es.map Edit.swap) = added es := by
  rw [deleted, added, List.filterMap_map]
  congr 1
  funext e
  cases e <;> rfl

theorem kept_sublist_news (es : List (Edit α)) : (kept es).Sublist (news es) := by
  rw [← kept_swap, ← olds_swap]
  exact kept_sublist_olds _

theorem news_perm (es : List (Edit α)) : (kept es ++ added es).Perm (news es) := by
  rw [← kept_swap, ← olds_swap, ← deleted_swap]
  exact olds_perm _

theorem deleted_eq_nil (h : (olds es).length ≤ (kept es).length) : deleted es = [] := by
  have := (olds_perm es).length_eq
  rw [List.length_append] at this
  exact List.length_eq_zero_iff.mp (by omega)

theorem added_eq_nil (h : (news es).length ≤ (kept es).length) : added es = [] := by
  rw [← kept_swap, ← olds_swap] at h
  rw [← deleted_swap]
  exact deleted_eq_nil h

theorem filter_mem_append [BEq α] [LawfulBEq α] (xs ys : List α) :
    (xs.filter (· ∈ ys) ++ xs.filter (· ∉ ys)).Perm xs := by
  have := List.filter_append_perm (fun a => decide (a ∈ ys)) xs
  simpa only [decide_not] using this

/-- When no more is deleted and added than the elements on one side only, the others come in one
order. -/
theorem filter_mem_eq [BEq α] [LawfulBEq α] (hlen : (deleted es).length + (added es).length =
    ((olds es).filter (· ∉ news es)).length + ((news es).filter (· ∉ olds es)).length) :
    (olds es).filter (· ∈ news es) = (news es).filter (· ∈ olds es) := by
  have hold : (kept es).Sublist ((olds es).filter (· ∈ news es)) := by
    have hall : (kept es).filter (· ∈ news es) = kept es :=
      List.filter_eq_self.mpr fun a ha => decide_eq_true ((kept_sublist_news es).subset ha)
    exact hall ▸ (kept_sublist_olds es).filter _
  have hnew : (kept es).Sublist ((news es).filter (· ∈ olds es)) := by
    have hall : (kept es).filter (· ∈ olds es) = kept es :=
      List.filter_eq_self.mpr fun a ha => decide_eq_true ((kept_sublist_olds es).subset ha)
    exact hall ▸ (kept_sublist_news es).filter _
  have hlo := (olds_perm es).length_eq.trans (filter_mem_append (olds es) (news es)).length_eq.symm
  have hln := (news_perm es).length_eq.trans (filter_mem_append (news es) (olds es)).length_eq.symm
  simp only [List.length_append] at hlo hln
  have hle₁ := hold.length_le
  have hle₂ := hnew.length_le
  exact (hold.eq_of_length_le (by omega)).symm.trans (hnew.eq_of_length_le (by omega))

namespace Shortest

theorem swap (h : Shortest es) : Shortest (es.map Edit.swap) := by
  intro w hold hnew
  rw [olds_swap] at hold
  rw [news_swap] at hnew
  rw [kept_swap]
  exact h w hnew hold

/-- Where the lists have a common subsequence and what is left of them is disjoint, a shortest script
deletes and adds what is left. -/
theorem perm_of_common [DecidableEq α] (h : Shortest es) {common del add : List α}
    (hold : common.Sublist (olds es)) (hnew : common.Sublist (news es))
    (hdel : (common ++ del).Perm (olds es)) (hadd : (common ++ add).Perm (news es))
    (hdis : del.Disjoint add) : (deleted es).Perm del ∧ (added es).Perm add := by
  have hle : (kept es).Subperm common := by
    refine List.subperm_ext_iff.mpr fun a ha => ?_
    have ho := (kept_sublist_olds es).count_le a
    have hn := (kept_sublist_news es).count_le a
    rw [← hdel.count_eq, List.count_append] at ho
    rw [← hadd.count_eq, List.count_append] at hn
    by_cases hd : a ∈ del
    · rw [List.count_eq_zero.mpr (hdis hd)] at hn
      omega
    · rw [List.count_eq_zero.mpr hd] at ho
      omega
  have hkept : (kept es).Perm common := hle.perm_of_length_le (h common hold hnew)
  constructor
  · exact (List.perm_append_left_iff common).mp
      ((hkept.symm.append_right _).trans ((olds_perm es).trans hdel.symm))
  · exact (List.perm_append_left_iff common).mp
      ((hkept.symm.append_right _).trans ((news_perm es).trans hadd.symm))

end Shortest

/-! ## Scripts that keep all, or nothing -/

theorem olds_map_kept (l : List α) : olds (l.map Edit.kept) = l := by
  rw [olds, List.filterMap_map]
  exact List.filterMap_some

theorem news_map_kept (l : List α) : news (l.map Edit.kept) = l := by
  rw [news, List.filterMap_map]
  exact List.filterMap_some

theorem deleted_map_kept (l : List α) : deleted (l.map Edit.kept) = [] := by
  rw [deleted, List.filterMap_map]
  exact List.filterMap_none _

theorem added_map_kept (l : List α) : added (l.map Edit.kept) = [] := by
  rw [added, List.filterMap_map]
  exact List.filterMap_none _

theorem shortest_map_kept (l : List α) : Shortest (l.map Edit.kept) := by
  intro w hw _
  have hkept : kept (l.map Edit.kept) = l := by
    rw [kept, List.filterMap_map]
    exact List.filterMap_some
  rw [hkept]
  exact (olds_map_kept l ▸ hw).length_le

/-- Deletes one list and adds another. -/
def replace (xs ys : List α) : List (Edit α) := xs.map Edit.deleted ++ ys.map Edit.added

theorem olds_replace (xs ys : List α) : olds (replace xs ys) = xs := by
  rw [replace, olds_append, olds, olds, List.filterMap_map, List.filterMap_map]
  exact (congrArg₂ (· ++ ·) List.filterMap_some (List.filterMap_none _)).trans (List.append_nil xs)

theorem news_replace (xs ys : List α) : news (replace xs ys) = ys := by
  rw [replace, news_append, news, news, List.filterMap_map, List.filterMap_map]
  exact congrArg₂ (· ++ ·) (List.filterMap_none _) List.filterMap_some

theorem shortest_replace {xs ys : List α} (h : xs.Disjoint ys) : Shortest (replace xs ys) := by
  intro w hold hnew
  rw [olds_replace] at hold
  rw [news_replace] at hnew
  cases w with
  | nil => exact Nat.zero_le _
  | cons a w => exact absurd (hnew.subset List.mem_cons_self) (h (hold.subset List.mem_cons_self))

/-! ## Lists with a common end -/

/-- Two ways to split a list before its first element of a kind are one. -/
theorem split_first {P : α → Prop} {xs ys xs' ys' : List α} {a b : α} (h : xs ++ a :: ys = xs' ++ b :: ys')
    (hxs : ∀ x ∈ xs, ¬ P x) (ha : P a) (hxs' : ∀ x ∈ xs', ¬ P x) (hb : P b) :
    xs = xs' ∧ a = b ∧ ys = ys' := by
  induction xs generalizing xs' with
  | nil =>
    cases xs' with
    | nil =>
      obtain ⟨rfl, rfl⟩ := List.cons.inj h
      exact ⟨rfl, rfl, rfl⟩
    | cons x' xs' =>
      obtain ⟨rfl, -⟩ := List.cons.inj h
      exact absurd ha (hxs' a List.mem_cons_self)
  | cons x xs ih =>
    cases xs' with
    | nil =>
      obtain ⟨rfl, -⟩ := List.cons.inj h
      exact absurd hb (hxs x List.mem_cons_self)
    | cons x' xs' =>
      obtain ⟨rfl, htail⟩ := List.cons.inj h
      obtain ⟨rfl, hr⟩ := ih htail (fun y hy => hxs y (List.mem_cons_of_mem _ hy))
        fun y hy => hxs' y (List.mem_cons_of_mem _ hy)
      exact ⟨rfl, hr⟩

/-- A script with an element of a kind, split before the first one. -/
theorem exists_first {P : α → Prop} [DecidablePred P] : ∀ es : List (Edit α),
    (∀ a ∈ olds es ++ news es, ¬ P a) ∨ ∃ es₁ a e es₂, es = es₁ ++ e :: es₂ ∧ P a ∧
      (∀ b ∈ olds es₁ ++ news es₁, ¬ P b) ∧ (e = .kept a ∨ e = .deleted a ∨ e = .added a)
  | [] => .inl fun _ ha => absurd ha List.not_mem_nil
  | e :: es => by
    obtain ⟨a, he⟩ : ∃ a, e = .kept a ∨ e = .deleted a ∨ e = .added a := by
      cases e with
      | kept a => exact ⟨a, .inl rfl⟩
      | deleted a => exact ⟨a, .inr (.inl rfl)⟩
      | added a => exact ⟨a, .inr (.inr rfl)⟩
    by_cases ha : P a
    · exact .inr ⟨[], a, e, es, rfl, ha, fun _ hb => absurd hb List.not_mem_nil, he⟩
    · have hcons {es : List (Edit α)} (h : ∀ b ∈ olds es ++ news es, ¬ P b) :
          ∀ b ∈ olds (e :: es) ++ news (e :: es), ¬ P b := by
        intro b hb
        rw [List.mem_append] at hb
        by_cases hba : b = a
        · exact hba ▸ ha
        · refine h b (List.mem_append.mpr (hb.imp (fun hb => ?_) fun hb => ?_)) <;>
            rcases he with rfl | rfl | rfl <;>
            first | exact hb | exact (List.mem_cons.mp hb).resolve_left hba
      rcases exists_first (P := P) es with h | ⟨es₁, b, e', es₂, rfl, hb, h, he'⟩
      · exact .inl (hcons h)
      · exact .inr ⟨e :: es₁, b, e', es₂, rfl, hb, hcons h, he'⟩

/-- Where the lists are equal from the first element of a kind on, a shortest script has a first part
without such an element, and changes nothing after it. -/
theorem Shortest.split_at {P : α → Prop} [DecidablePred P] (h : Shortest es) {xs ys rest : List α}
    (ho : olds es = xs ++ rest) (hn : news es = ys ++ rest) (hxs : ∀ x ∈ xs, ¬ P x)
    (hys : ∀ y ∈ ys, ¬ P y) (hrest : ∀ a ∈ rest.head?, P a) :
    ∃ es₁ es₂, es = es₁ ++ es₂ ∧ (∀ a ∈ olds es₁ ++ news es₁, ¬ P a) ∧
      deleted es₂ = [] ∧ added es₂ = [] := by
  rcases exists_first (P := P) es with hno | ⟨es₁, a, e, es₂, rfl, ha, hes₁, he⟩
  · exact ⟨es, [], (List.append_nil es).symm, hno, rfl, rfl⟩
  refine ⟨es₁, e :: es₂, rfl, hes₁, ?_⟩
  have hold₁ : ∀ x ∈ olds es₁, ¬ P x := fun x hx => hes₁ x (List.mem_append_left _ hx)
  have hnew₁ : ∀ x ∈ news es₁, ¬ P x := fun x hx => hes₁ x (List.mem_append_right _ hx)
  -- The list that has the element has it in the common end.
  cases rest with
  | nil =>
    exfalso
    have hmem : a ∈ olds (es₁ ++ e :: es₂) ∨ a ∈ news (es₁ ++ e :: es₂) := by
      rw [olds_append, news_append]
      rcases he with rfl | rfl | rfl
      · exact .inl (List.mem_append_right _ List.mem_cons_self)
      · exact .inl (List.mem_append_right _ List.mem_cons_self)
      · exact .inr (List.mem_append_right _ List.mem_cons_self)
    rw [ho, hn, List.append_nil, List.append_nil] at hmem
    exact hmem.elim (fun hm => hxs a hm ha) fun hm => hys a hm ha
  | cons b rest =>
    have hb : P b := hrest b rfl
    have hmatch (hold : (kept es₁ ++ b :: rest).Sublist (olds (es₁ ++ e :: es₂)))
        (hnew : (kept es₁ ++ b :: rest).Sublist (news (es₁ ++ e :: es₂))) :
        rest.length + 1 ≤ (kept (e :: es₂)).length := by
      have := h _ hold hnew
      rw [kept_append, List.length_append, List.length_append, List.length_cons] at this
      omega
    rw [olds_append] at ho
    rw [news_append] at hn
    -- What is kept before it is common to the parts of both lists.
    have hcommon (hsub₁ : (olds es₁).Sublist xs) (hsub₂ : (news es₁).Sublist ys) :
        rest.length + 1 ≤ (kept (e :: es₂)).length := by
      refine hmatch ?_ ?_
      · rw [olds_append, ho]
        exact ((kept_sublist_olds es₁).trans hsub₁).append_right _
      · rw [news_append, hn]
        exact ((kept_sublist_news es₁).trans hsub₂).append_right _
    have hpre {l zs l₂ : List α} (hl : l ++ l₂ = zs ++ b :: rest) (hno : ∀ x ∈ l, ¬ P x) : l.Sublist zs := by
      rcases List.append_eq_append_iff.mp hl with ⟨c, rfl, -⟩ | ⟨c, rfl, hc⟩
      · exact List.sublist_append_left _ _
      · cases c with
        | nil => rw [List.append_nil]
        | cons d c =>
          obtain ⟨rfl, -⟩ := List.cons.inj hc
          exact absurd hb (hno b (List.mem_append_right _ List.mem_cons_self))
    have hkept := hcommon (hpre ho hold₁) (hpre hn hnew₁)
    rcases he with rfl | rfl | rfl
    · obtain ⟨-, -, (hr : olds es₂ = rest)⟩ := split_first (P := P) ho hold₁ ha hxs hb
      obtain ⟨-, -, (hr' : news es₂ = rest)⟩ := split_first (P := P) hn hnew₁ ha hys hb
      have hlen : rest.length + 1 ≤ (kept es₂).length + 1 := hkept
      have hdel : deleted es₂ = [] := deleted_eq_nil (by rw [hr]; omega)
      have hadd : added es₂ = [] := added_eq_nil (by rw [hr']; omega)
      exact ⟨hdel, hadd⟩
    · obtain ⟨-, -, (hr : olds es₂ = rest)⟩ := split_first (P := P) ho hold₁ ha hxs hb
      have hlen : rest.length + 1 ≤ (kept es₂).length := hkept
      have := (kept_sublist_olds es₂).length_le
      rw [hr] at this
      omega
    · obtain ⟨-, -, (hr : news es₂ = rest)⟩ := split_first (P := P) hn hnew₁ ha hys hb
      have hlen : rest.length + 1 ≤ (kept es₂).length := hkept
      have := (kept_sublist_news es₂).length_le
      rw [hr] at this
      omega

end EditScript
