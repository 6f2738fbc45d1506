import OpenConfigd.Quaggad.Converge

/-!
# Commits without a validation

Without the two phases openconfigd sends the lists of commands as commits alone. Nothing
then makes the candidate of quaggad, so it stays empty (`Unfilled`), and the callbacks that
rewrite the lists of the routing daemon can only remove them. `modes_agree_iff`: the
daemon has the same lists as in the other mode just if there are no rules in the end.
-/

namespace OpenConfigd.Quaggad

open Runs State

variable {σ : Type} {go : Go} {commands : Commands σ} {s s' : State σ}

/-- The messages of some lists of commands, each committed. -/
def committed (ms : List (List (Command × List String))) : List Msg :=
  ms.flatMap fun m => .commitStart :: messages m ++ [.commitEnd]

/-- The messages of some lists of commands, each validated and committed. -/
def validatedFirst (ms : List (List (Command × List String))) : List Msg :=
  ms.flatMap fun m => (.validateStart :: messages m ++ [.validateEnd]) ++
    (.commitStart :: messages m ++ [.commitEnd])

/-- Each list of commands leads to a configuration that passes the checks. -/
def AllValid (go : Go) : Node → List (List (Command × List String)) → Prop
  | _, [] => True
  | config, m :: ms => quaggaConfigValid go (applied config m) = some true ∧ AllValid go (applied config m) ms

/-! ## Without a validation -/

/-- The candidate is the empty tree of the start, and the daemon has no lists. -/
def Unfilled (s : State σ) : Prop :=
  s.validating = false ∧ s.configCandidate = .make ∧ Daemon.after s.vtysh = fun _ _ => []

/-- The calls for a candidate without lists remove lists. -/
theorem exec_commitLists_make (time : Nat) (running : Node) (kind : Kind) :
    (quaggaConfigCommitLists go time .make running kind).foldl Daemon.exec (fun _ _ => []) =
      fun _ _ => [] := by
  funext k n
  have hnil : Node.make.values ["policy", kind.label] = [] := rfl
  rw [daemon_commitLists, hnil, if_neg fun h => List.not_mem_nil h.2.1, ite_self]

theorem unfilled_callback (h : Unfilled s) {command : Command} {fn : Callback σ}
    (hs : s.callback go commands command fn = some s') : Unfilled s' := by
  obtain ⟨hv, hc, hd⟩ := h
  cases fn with
  | list kind =>
    rw [callback, quaggaUpdateCheck, Option.some.injEq] at hs
    split at hs
    · subst hs
      refine ⟨hv, hc, ?_⟩
      simp only [after_append, hd, hc, exec_commitLists_make]
    · subst hs
      exact ⟨hv, hc, hd⟩
  | routeMap =>
    rw [callback, quaggaUpdateCheckRouteMap] at hs
    split at hs
    · obtain ⟨cmds, -, rfl⟩ := Option.map_eq_some_iff.mp hs
      refine ⟨hv, hc, ?_⟩
      simp only [after_append, hd, exec_lines]
    · cases hs
      exact ⟨hv, hc, hd⟩
  | other f =>
    obtain ⟨out, -, rfl⟩ := Option.map_eq_some_iff.mp hs
    refine ⟨hv, hc, ?_⟩
    simp only [after_append, hd, exec_lines]

/-- A message of a commit leaves the candidate empty, and the daemon without lists. -/
theorem unfilled_step (h : Unfilled s) {msg : Msg} (hm : msg ≠ .validateStart ∧ msg ≠ .validateEnd)
    (hs : step go commands s msg = some s') : Unfilled s' := by
  cases msg with
  | validateStart => exact absurd rfl hm.1
  | validateEnd => exact absurd rfl hm.2
  | commitStart =>
    cases hs
    exact h
  | commitEnd =>
    cases hs
    exact h
  | other =>
    cases hs
    exact h
  | config command path =>
    have hs : step go commands s (.config (command, path).1 (command, path).2) = some s' := hs
    obtain ⟨s₁, ⟨-, rfl⟩ | ⟨fn, -, hs₁⟩, rfl⟩ := step_config h.1 hs
    · exact h
    · have hunfilled : Unfilled s₁ := unfilled_callback h hs₁
      exact hunfilled

theorem unfilled_run {ms : List (List (Command × List String))} (h : Unfilled s)
    (hs : run (step go commands) s (committed ms) = some s') : Unfilled s' := by
  have hmsgs : ∀ msg ∈ committed ms, msg ≠ .validateStart ∧ msg ≠ .validateEnd := by
    intro msg hmsg
    obtain ⟨m, -, hmsg⟩ := List.mem_flatMap.mp hmsg
    simp only [messages, List.cons_append, List.mem_cons, List.mem_append, List.mem_map,
      List.not_mem_nil, or_false] at hmsg
    rcases hmsg with rfl | ⟨c, -, rfl⟩ | rfl
    · simp
    · simp
    · simp
  generalize committed ms = msgs at hs hmsgs
  induction msgs generalizing s with
  | nil =>
    cases hs
    exact h
  | cons msg msgs ih =>
    obtain ⟨s₁, hs₁, hs⟩ := Option.bind_eq_some_iff.mp hs
    exact ih (unfilled_step h (hmsgs msg List.mem_cons_self) hs₁) hs fun m hm =>
      hmsgs m (List.mem_cons_of_mem _ hm)

/-! ## With a validation -/

/-- The run of lists that are valid is one of commits that have been validated, and its
running tree has all the lists. -/
theorem rounds_of_run {s₀ : State σ} {ms : List (List (Command × List String))}
    (hr : Rounds go commands s₀ s) (hvalid : AllValid go s.configRunning ms)
    (hknown : ∀ m ∈ ms, ∀ x ∈ m, Known commands x)
    (hs : run (step go commands) s (validatedFirst ms) = some s') :
    Rounds go commands s₀ s' ∧ s'.configRunning = applied s.configRunning ms.flatten := by
  induction ms generalizing s with
  | nil =>
    cases hs
    exact ⟨hr, rfl⟩
  | cons m ms ih =>
    rw [validatedFirst, List.flatMap_cons, run_append, run_append, ← validatedFirst,
      Option.bind_assoc] at hs
    obtain ⟨s₁, hs₁, hs⟩ := Option.bind_eq_some_iff.mp hs
    obtain ⟨s₂, hs₂, hs⟩ := Option.bind_eq_some_iff.mp hs
    have hsuccess : s₁.sent.getLast? = some .validateSuccess := by
      have hs₁ := hs₁
      rw [run_validation, hvalid.1, Option.map_some, Option.some.injEq] at hs₁
      subst hs₁
      simp
    obtain ⟨hv₁, hc₁, hr₁, -, -⟩ := run_success hs₁ hsuccess
    have hrunning : s₂.configRunning = applied s.configRunning m := by
      have hs₂ := hs₂
      rw [run_commit, Option.map_eq_some_iff] at hs₂
      obtain ⟨s₃, hs₃, rfl⟩ := hs₂
      rw [← hr₁]
      exact (run_config (by exact hv₁) m hs₃).2.2
    have hround : Rounds go commands s₀ s₂ :=
      .commit m hr (hknown m List.mem_cons_self) hs₁ hsuccess hs₂
    obtain ⟨hend, hrun⟩ := ih hround (hrunning ▸ hvalid.2)
      (fun m' hm' => hknown m' (List.mem_cons_of_mem _ hm')) hs
    refine ⟨hend, ?_⟩
    rw [hrun, hrunning, applied, applied, applied, List.flatten_cons, List.foldl_append]

/-- A rendered list has no lines just if there are no rules. -/
theorem rendered_nil_iff {config : Node} {kind : Kind} {name : String} {lines : List String}
    (h : Rendered go config kind name lines) :
    lines = [] ↔ config.values ["policy", kind.label, name, "rule"] = [] := by
  obtain ⟨rules, hperm, -, hmap⟩ := h
  constructor
  · rintro rfl
    rw [List.map_nil, List.map_eq_nil_iff] at hmap
    rw [hmap] at hperm
    exact List.nil_perm.mp hperm
  · intro h
    rw [h] at hperm
    rw [List.perm_nil.mp hperm, List.map_nil] at hmap
    exact List.map_eq_nil_iff.mp hmap.symm

/-- The routing daemon has the same lists in both modes just if the lists of commands leave
no rule in a list of the six kinds. -/
theorem modes_agree_iff (go : Go) (commands : Commands σ) (htable : PolicyTable commands)
    (protocols : σ) (ms : List (List (Command × List String)))
    (hknown : ∀ m ∈ ms, ∀ x ∈ m, Known commands x) (hvalid : AllValid go .make ms) (s s' : State σ)
    (hs : run (step go commands) (init protocols) (committed ms) = some s)
    (hs' : run (step go commands) (init protocols) (validatedFirst ms) = some s') :
    Daemon.after s.vtysh = Daemon.after s'.vtysh ↔
      ∀ (kind : Kind) (name : String),
        (applied .make ms.flatten).values ["policy", kind.label, name, "rule"] = [] := by
  obtain ⟨hrounds, hrunning⟩ := rounds_of_run (.refl (init protocols)) hvalid hknown hs'
  obtain ⟨-, -, hempty⟩ := unfilled_run (s := init protocols) ⟨rfl, rfl, rfl⟩ hs
  have hlists (kind : Kind) (name : String) := rendered_nil_iff ((rounds_agree htable hrounds kind).2 name)
  simp only [hrunning] at hlists
  rw [hempty]
  constructor
  · intro h kind name
    exact (hlists kind name).mp (by rw [← h])
  · intro h
    funext kind name
    exact ((hlists kind name).mpr (h kind name)).symm

/-- The access-list 10 after the list of one rule, in each mode. -/
theorem oneRule_modes :
    (run (step plainGo policyCommands) (init ()) (committed [oneRule])).map
        (fun s => Daemon.after s.vtysh .accessList "10") = some [] ∧
      (run (step plainGo policyCommands) (init ()) (validatedFirst [oneRule])).map
        (fun s => Daemon.after s.vtysh .accessList "10") = some [" permit any"] := by
  decide +kernel

theorem oneRule_valid : AllValid plainGo .make [oneRule] :=
  ⟨by decide +kernel, trivial⟩

/-- The list of one rule leaves the rule, and the daemon without it in one of the modes. -/
theorem modes_agree_iff_oneRule : ∃ s s' : State Unit,
    run (step plainGo policyCommands) (init ()) (committed [oneRule]) = some s ∧
    run (step plainGo policyCommands) (init ()) (validatedFirst [oneRule]) = some s' ∧
    (Daemon.after s.vtysh = Daemon.after s'.vtysh ↔ ∀ (kind : Kind) (name : String),
      (applied .make [oneRule].flatten).values ["policy", kind.label, name, "rule"] = []) ∧
    (applied .make [oneRule].flatten).values ["policy", "access-list", "10", "rule"] ≠ [] := by
  obtain ⟨s, hs, -⟩ := Option.map_eq_some_iff.mp oneRule_modes.1
  obtain ⟨s', hs', -⟩ := Option.map_eq_some_iff.mp oneRule_modes.2
  refine ⟨s, s', hs, hs', ?_, by decide +kernel⟩
  refine modes_agree_iff plainGo policyCommands policyCommands_table () [oneRule] ?_ oneRule_valid s s' hs hs'
  intro m hm
  rw [List.mem_singleton.mp hm]
  exact oneRule_known

/-- A rule of an access-list that is committed without a validation is not in the daemon. -/
theorem modes_differ : AllValid plainGo .make [oneRule] ∧ ∃ s s' : State Unit,
    run (step plainGo policyCommands) (init ()) (committed [oneRule]) = some s ∧
    run (step plainGo policyCommands) (init ()) (validatedFirst [oneRule]) = some s' ∧
    Daemon.after s.vtysh ≠ Daemon.after s'.vtysh := by
  obtain ⟨s, hs, hlist⟩ := Option.map_eq_some_iff.mp oneRule_modes.1
  obtain ⟨s', hs', hlist'⟩ := Option.map_eq_some_iff.mp oneRule_modes.2
  refine ⟨oneRule_valid, s, s', hs, hs', fun h => ?_⟩
  rw [h, hlist'] at hlist
  nomatch hlist

end OpenConfigd.Quaggad
