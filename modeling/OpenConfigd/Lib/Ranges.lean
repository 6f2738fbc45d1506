import Mathlib.Data.List.Flatten
import Mathlib.Data.List.Perm.Basic

/-!
# Loops over a map

A loop over a map meets each entry once, in an order that no two loops need to share. `Ranges` is
the loop as a relation of the state before it and the state after it, in any order.

* `Ranges.foldl`: the order of a list is one of them;
* `Ranges.visits`: what a loop does whose body steps through a list for each entry.
-/

/-- The body runs once for each entry, in some order. -/
inductive Ranges {α σ : Type*} (body : α → σ → σ → Prop) : List α → σ → σ → Prop
  | done (s : σ) : Ranges body [] s s
  | next {m m' : List α} {a : α} {s s' s'' : σ} : m.Perm (a :: m') → body a s s' →
    Ranges body m' s' s'' → Ranges body m s s''

namespace Ranges

variable {α β σ : Type*} {body : α → σ → σ → Prop} {m : List α} {s s' : σ}

theorem foldl {step : σ → α → σ} (h : ∀ a ∈ m, ∀ s, body a s (step s a)) (s : σ) :
    Ranges body m s (m.foldl step s) := by
  induction m generalizing s with
  | nil => exact .done s
  | cons a m ih =>
    refine .next (.refl _) (h a List.mem_cons_self s) ?_
    exact ih (fun b hb => h b (List.mem_cons_of_mem a hb)) _

/-- A body that steps through a list, or through it in another order, makes the loop step through
the lists of all entries, in another order. -/
theorem visits {step : σ → β → σ} {list : α → List β}
    (h : ∀ a ∈ m, ∀ s s', body a s s' → ∃ l : List β, l.Perm (list a) ∧ s' = l.foldl step s)
    (hr : Ranges body m s s') : ∃ l : List β, l.Perm (m.flatMap list) ∧ s' = l.foldl step s := by
  induction hr with
  | done s => exact ⟨[], .refl _, rfl⟩
  | @next m m' a s s' s'' hp hb _ ih =>
    obtain ⟨l, hl, rfl⟩ := h a (hp.symm.subset List.mem_cons_self) _ _ hb
    obtain ⟨l', hl', rfl⟩ := ih fun b hbm => h b (hp.symm.subset (List.mem_cons_of_mem a hbm))
    refine ⟨l ++ l', ?_, List.foldl_append.symm⟩
    have hcons : (l ++ l').Perm ((a :: m').flatMap list) := by
      rw [List.flatMap_cons]
      exact hl.append hl'
    exact hcons.trans (hp.symm.flatMap_right list)

end Ranges
