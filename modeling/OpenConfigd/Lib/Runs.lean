import Mathlib.Data.List.Basic

/-!
# Runs of a step function

A step function says what an action leads to, `none` when it is not enabled or ends
everything. `run` does the actions of a list one after the other; `meets` says that
every step of a run meets a condition on the state before it. `run_preserves` and
`run_invariant` are the induction over all runs and over such runs.
-/

namespace OpenConfigd.Runs

variable {σ α : Type}

/-- The actions one after the other. -/
def run (step : σ → α → Option σ) : σ → List α → Option σ
  | s, [] => some s
  | s, a :: as => (step s a).bind fun s' => run step s' as

/-- Every step of the run meets the condition. -/
def meets (step : σ → α → Option σ) (ok : σ → α → Bool) : σ → List α → Bool
  | _, [] => true
  | s, a :: as => ok s a && (step s a).all fun s' => meets step ok s' as

variable {step : σ → α → Option σ} {ok : σ → α → Bool} {s s' : σ}

theorem run_append (as bs : List α) :
    run step s (as ++ bs) = (run step s as).bind fun s' => run step s' bs := by
  induction as generalizing s with
  | nil => rfl
  | cons a as ih =>
    simp only [List.cons_append, run, Option.bind_assoc, ih]

theorem run_snoc (as : List α) (a : α) :
    run step s (as ++ [a]) = (run step s as).bind fun s' => step s' a := by
  rw [run_append]
  congr 1
  funext s'
  rw [run]
  cases step s' a <;> rfl

/-- Actions that change nothing are left out. -/
theorem run_filter {p : α → Bool} {as : List α}
    (hskip : ∀ a ∈ as, p a = false → ∀ s, step s a = some s) (s : σ) :
    run step s (as.filter p) = run step s as := by
  induction as generalizing s with
  | nil => rfl
  | cons a as ih =>
    have ih := ih fun b hb => hskip b (List.mem_cons_of_mem a hb)
    rw [List.filter_cons, run]
    cases hp : p a with
    | false =>
      simp only [hskip a List.mem_cons_self hp, Option.bind_some, ih, Bool.false_eq_true, if_false]
    | true => simp only [run, ih, if_true]

/-- What holds at first and is kept by every step holds after every run. -/
theorem run_preserves {I : σ → Prop} (hstep : ∀ s a s', I s → step s a = some s' → I s') {as : List α}
    (h : I s) (hr : run step s as = some s') : I s' := by
  induction as generalizing s with
  | nil =>
    rw [run] at hr
    exact Option.some.inj hr ▸ h
  | cons a as ih =>
    obtain ⟨s₁, hs, hr⟩ := Option.bind_eq_some_iff.mp hr
    exact ih (hstep s a s₁ h hs) hr

/-- What holds at first and is kept by every step that meets the condition holds after
every run whose steps all do. -/
theorem run_invariant {I : σ → Prop}
    (hstep : ∀ s a s', I s → ok s a = true → step s a = some s' → I s') {as : List α} (h : I s)
    (hm : meets step ok s as = true) (hr : run step s as = some s') : I s' := by
  induction as generalizing s with
  | nil =>
    rw [run] at hr
    exact Option.some.inj hr ▸ h
  | cons a as ih =>
    obtain ⟨s₁, hs, hr⟩ := Option.bind_eq_some_iff.mp hr
    rw [meets, hs, Option.all_some, Bool.and_eq_true] at hm
    exact ih (hstep s a s₁ h hm.1 hs) hm.2 hr

end OpenConfigd.Runs
