import Mathlib.Logic.Function.Basic

/-!
# Numbers in names

The decimal text of a number reads back as it, so names that end in different numbers differ.
-/

namespace OpenConfigd

theorem isDigit_of_mem_repr {n : Nat} {c : Char} (h : c ∈ (Nat.repr n).toList) : c.isDigit = true := by
  rw [Nat.toList_repr] at h
  exact Nat.isDigit_of_mem_toDigits (by decide) (by decide) h

/-- The digits of a number stand for it. -/
theorem foldl_repr (n : Nat) : (Nat.repr n).toList.foldl (fun n c => 10 * n + (c.toNat - '0'.toNat)) 0 = n := by
  rw [Nat.toList_repr, ← Nat.ofDigitChars_eq_foldl, Nat.ofDigitChars_toDigits (by decide) (by decide)]

theorem repr_inj {a b : Nat} : Nat.repr a = Nat.repr b ↔ a = b := by
  refine ⟨fun h => ?_, congrArg Nat.repr⟩
  rw [← foldl_repr a, h, foldl_repr]

/-- A minus sign is no digit. -/
theorem repr_ne_minus (a b : Nat) : Nat.repr a ≠ "-" ++ Nat.repr b := by
  intro h
  have hmem : '-' ∈ (Nat.repr a).toList := by
    rw [h, String.toList_append]
    exact List.mem_append_left _ (by decide)
  exact absurd (isDigit_of_mem_repr hmem) (by decide)

theorem toString_int_inj {a b : Int} : toString a = toString b ↔ a = b := by
  refine ⟨fun h => ?_, congrArg toString⟩
  cases a with
  | ofNat a =>
    cases b with
    | ofNat b => rw [repr_inj.mp h]
    | negSucc b => exact absurd h (repr_ne_minus a _)
  | negSucc a =>
    cases b with
    | ofNat b => exact absurd h.symm (repr_ne_minus b _)
    | negSucc b => rw [Nat.succ.inj (repr_inj.mp ((String.append_right_inj _).mp h))]

end OpenConfigd
