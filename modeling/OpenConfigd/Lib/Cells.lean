import Mathlib.Data.List.Nodup

/-!
# Calls that act on cells

A state of cells, and calls each of which acts on the cells it concerns. What a list of calls
does to a cell is a matter of that cell alone (`foldl_exec`); where each call is one of an
element, and concerns cells of that element only, the calls of the others do not count
(`foldl_flatMap_of_mem`, `foldl_flatMap_of_not_mem`).
-/

namespace Cells

variable {κ V C : Type} (concerns : C → κ → Bool) (act : V → C → V)

/-- A call as a cell sees it. -/
def actOn (k : κ) (v : V) (c : C) : V := if concerns c k then act v c else v

/-- A call acts on the cells it concerns. -/
def exec (s : κ → V) (c : C) : κ → V := fun k => actOn concerns act k (s k) c

variable {concerns act}

/-- What calls do to a cell. -/
theorem foldl_exec (calls : List C) (s : κ → V) (k : κ) :
    calls.foldl (exec concerns act) s k = calls.foldl (actOn concerns act k) (s k) := by
  induction calls generalizing s with
  | nil => rfl
  | cons c calls ih => rw [List.foldl_cons, List.foldl_cons, ih, exec]

/-- Calls that do not concern a cell leave it alone. -/
theorem foldl_of_not {calls : List C} {k : κ} (h : ∀ c ∈ calls, concerns c k = false) (v : V) :
    calls.foldl (actOn concerns act k) v = v := by
  induction calls with
  | nil => rfl
  | cons c calls ih =>
    obtain ⟨hc, hcalls⟩ := List.forall_mem_cons.mp h
    rw [List.foldl_cons, actOn, if_neg (by rw [hc]; decide), ih hcalls]

/-- Calls that all concern a cell act on it one after the other. -/
theorem foldl_of_all {calls : List C} {k : κ} (h : ∀ c ∈ calls, concerns c k = true) (v : V) :
    calls.foldl (actOn concerns act k) v = calls.foldl act v := by
  induction calls generalizing v with
  | nil => rfl
  | cons c calls ih =>
    obtain ⟨hc, hcalls⟩ := List.forall_mem_cons.mp h
    rw [List.foldl_cons, List.foldl_cons, actOn, if_pos hc, ih hcalls]

section

variable {α β : Type} {calls : α → List C} {name : α → β} {owner : κ → β} {xs : List α} {k : κ}

/-- The calls of other elements leave a cell alone. -/
theorem foldl_flatMap_of_not_mem (hown : ∀ x ∈ xs, ∀ c ∈ calls x, ∀ k, concerns c k = true → owner k = name x)
    (hk : ∀ x ∈ xs, name x ≠ owner k) (v : V) : (xs.flatMap calls).foldl (actOn concerns act k) v = v := by
  refine foldl_of_not (fun c hc => ?_) v
  obtain ⟨x, hx, hcx⟩ := List.mem_flatMap.mp hc
  exact Bool.eq_false_iff.mpr fun h => hk x hx (hown x hx c hcx k h).symm

/-- Of the calls of elements with names of their own, those of one count for its cells. -/
theorem foldl_flatMap_of_mem (hown : ∀ x ∈ xs, ∀ c ∈ calls x, ∀ k, concerns c k = true → owner k = name x)
    (hnodup : (xs.map name).Nodup) {x : α} (hx : x ∈ xs) (hk : owner k = name x) (v : V) :
    (xs.flatMap calls).foldl (actOn concerns act k) v = (calls x).foldl (actOn concerns act k) v := by
  induction xs generalizing v with
  | nil => cases hx
  | cons y xs ih =>
    obtain ⟨hown₁, hown'⟩ := List.forall_mem_cons.mp hown
    obtain ⟨hnotin, hnodup'⟩ := List.nodup_cons.mp hnodup
    rw [List.flatMap_cons, List.foldl_append]
    rcases List.mem_cons.mp hx with rfl | hx
    · refine foldl_flatMap_of_not_mem hown' (fun z hz h => hnotin ?_) _
      exact h.trans hk ▸ List.mem_map_of_mem hz
    · have hne : owner k ≠ name y := fun h => hnotin (h.symm.trans hk ▸ List.mem_map_of_mem hx)
      have hfirst : (calls y).foldl (actOn concerns act k) v = v :=
        foldl_of_not (fun c hc => Bool.eq_false_iff.mpr fun h => hne (hown₁ c hc k h)) v
      rw [hfirst, ih hown' hnodup' hx]

end

end Cells
