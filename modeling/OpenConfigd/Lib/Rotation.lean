import Mathlib.Data.List.Induction
import Mathlib.Logic.Function.Basic

/-!
# Numbered copies of a file

A store gives the content at each place. Before a new content is written, each numbered copy is
renamed to the next number, from the last one down.

* `shift_moves`: a copy gets the next number, and none is overwritten before it was moved;
* `rotate_run`: the copies hold the last contents written, in order.
-/

namespace OpenConfigd

namespace Rotation

variable {ι α : Type*} [DecidableEq ι]

/-- The store with the content at a place. -/
def write (f : ι → Option α) (i : ι) (a : α) : ι → Option α := Function.update f i (some a)

/-- The store after a rename, which fails when the source is not there. -/
def rename (f : ι → Option α) (src dst : ι) : ι → Option α :=
  match f src with
  | none => f
  | some a => Function.update (Function.update f src none) dst (some a)

/-- The renames of the first places to the next ones, from the last down. -/
def shift (p : Nat → ι) : Nat → (ι → Option α) → ι → Option α
  | 0, f => f
  | rev + 1, f => shift p rev (rename f (p rev) (p (rev + 1)))

/-- The renames, and then a content at the place `w`. -/
def rotate (p : Nat → ι) (n : Nat) (w : ι) (f : ι → Option α) (a : α) : ι → Option α :=
  write (shift p n f) w a

variable {p : Nat → ι} {f : ι → Option α} {i src dst : ι} {a : α} {n k : Nat}

theorem write_self (f : ι → Option α) (i : ι) (a : α) : write f i a i = some a :=
  Function.update_self ..

theorem write_of_ne (h : i ≠ src) (a : α) : write f src a i = f i := Function.update_of_ne h ..

theorem rename_of_ne (h : i ≠ src) (h' : i ≠ dst) : rename f src dst i = f i := by
  rw [rename]
  cases f src with
  | none => rfl
  | some a => exact (Function.update_of_ne h' ..).trans (Function.update_of_ne h ..)

theorem rename_of_none (h : f src = none) : rename f src dst = f := by
  rw [rename, h]

theorem rename_dst (h : f src = some a) : rename f src dst dst = some a := by
  rw [rename, h]
  exact Function.update_self ..

/-- A place that is not numbered keeps its content. -/
theorem shift_of_ne (h : ∀ k ≤ n, i ≠ p k) : shift p n f i = f i := by
  induction n generalizing f with
  | zero => rfl
  | succ n ih =>
    rw [shift, ih fun k hk => h k (by omega), rename_of_ne (h n (by omega)) (h (n + 1) (by omega))]

/-- Where none of the places that are renamed has a content, nothing changes. -/
theorem shift_of_none (h : ∀ k < n, f (p k) = none) : shift p n f = f := by
  induction n generalizing f with
  | zero => rfl
  | succ n ih =>
    have hr : rename f (p n) (p (n + 1)) = f := rename_of_none (h n (by omega))
    rw [shift, hr, ih fun k hk => h k (by omega)]

theorem shift_moves (hp : p.Injective) (hk : k < n) (h : f (p k) = some a) :
    shift p n f (p (k + 1)) = some a := by
  induction n generalizing f with
  | zero => omega
  | succ n ih =>
    rw [shift]
    rcases Nat.lt_succ_iff_lt_or_eq.mp hk with hlt | rfl
    · refine ih hlt ?_
      rw [rename_of_ne (hp.ne (by omega)) (hp.ne (by omega))]
      exact h
    · -- The last place is written first, and none of the other renames reaches it.
      rw [shift_of_ne fun j hj => hp.ne (by omega)]
      exact rename_dst h

/-- The copies hold the last contents written, the newest at the first place. -/
theorem rotate_run (hp : p.Injective) (as : List α) (f : ι → Option α) (hk : k ≤ n)
    (hlt : k < as.length) : as.foldl (rotate p n (p 0)) f (p k) = as.reverse[k]? := by
  induction as using List.reverseRecOn generalizing k with
  | nil => exact absurd hlt (Nat.not_lt_zero k)
  | append_singleton as a ih =>
    rw [List.foldl_append, List.foldl_cons, List.foldl_nil, List.reverse_append,
      List.reverse_singleton, List.singleton_append, rotate]
    cases k with
    | zero => exact write_self ..
    | succ k =>
      rw [List.length_append, List.length_singleton] at hlt
      rw [write_of_ne (hp.ne (Nat.succ_ne_zero k)), List.getElem?_cons_succ]
      have hprev := ih (k := k) (by omega) (by omega)
      have hlen : k < as.reverse.length := by
        rw [List.length_reverse]
        omega
      rw [List.getElem?_eq_getElem hlen] at hprev ⊢
      exact shift_moves hp (by omega) hprev

end Rotation

end OpenConfigd
