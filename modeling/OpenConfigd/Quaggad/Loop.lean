import OpenConfigd.Lib.Runs
import OpenConfigd.Quaggad.Ospf

/-!
# The messages quaggad handles

`grpcLoop` handles the messages of openconfigd one after the other. Between
VALIDATE_START and VALIDATE_END the SETs and DELETEs change the candidate, which is a
copy of the running tree; elsewhere they run the callback of their path and change the
running tree. `validate_then_commit`: a validation leaves all but the candidate alone,
its reply is the result of the checks, and a commit of the same messages makes the
running tree the candidate.
-/

namespace OpenConfigd.Quaggad

/-- `cmd.Set` and `cmd.Delete`, which are the numbers of SET and DELETE. -/
inductive Command where
  | set | delete
  deriving DecidableEq, Repr

/-- `rpc.ConfigRequest`, by its type. -/
inductive Msg where
  | validateStart | validateEnd | commitStart | commitEnd
  | config (command : Command) (path : List String)
  | other
  deriving DecidableEq, Repr

/-- What quaggad sends back. -/
inductive Reply where
  | validateSuccess | validateFailed
  deriving DecidableEq, Repr

/-- What the command parser finds for a path. The callbacks of `protocols` and
`interfaces` keep a state of their own; a callback that ends the process gives nothing. -/
inductive Callback (σ : Type) where
  | list (kind : Kind)
  | routeMap
  | other (run : Command → σ → Node → Node → Option (σ × List (List String)))

/-- The commands quaggad has installed, and `quaggaConfigCommitRouteMaps` of the
candidate and the running tree. -/
structure Commands (σ : Type) where
  parseCmd : List String → Option (Callback σ)
  routeMaps : Node → Node → Option (List (List String))

/-- No callback ends the process. -/
def Commands.Total {σ : Type} (commands : Commands σ) : Prop :=
  (∀ candidate running, (commands.routeMaps candidate running).isSome) ∧
  ∀ path f, commands.parseCmd path = some (.other f) → ∀ c p running candidate,
    (f c p running candidate).isSome

/-- The state of quaggad, with the calls of `quaggaVtysh`, the replies sent, and the
number of messages handled. -/
structure State (σ : Type) where
  validating : Bool := false
  commited : Kind → Bool := fun _ => false
  commitedRouteMap : Bool := false
  configRunning : Node := .make
  configCandidate : Node := .make
  vtysh : List Vtysh := []
  sent : List Reply := []
  protocols : σ
  time : Nat := 0

namespace State

variable {σ : Type} (go : Go) (commands : Commands σ)

/-- The state `Main` starts in. -/
def init (protocols : σ) : State σ := { protocols := protocols }

/-- `quaggaUpdateCheckAccessList` and the like. -/
def quaggaUpdateCheck (s : State σ) (kind : Kind) : State σ :=
  if !s.commited kind && quaggaConfigStateDiff s.configCandidate s.configRunning ["policy", kind.label] then
    { s with
      commited := Function.update s.commited kind true
      vtysh := s.vtysh ++ quaggaConfigCommitLists go s.time s.configCandidate s.configRunning kind }
  else s

/-- `quaggaUpdateCheckRouteMap`. -/
def quaggaUpdateCheckRouteMap (s : State σ) : Option (State σ) :=
  if !s.commitedRouteMap &&
      quaggaConfigStateDiff s.configCandidate s.configRunning ["policy", "route-map"] then
    (commands.routeMaps s.configCandidate s.configRunning).map fun cmds =>
      { s with commitedRouteMap := true, vtysh := s.vtysh ++ cmds.map .lines }
  else some s

/-- The callback of a path. -/
def callback (s : State σ) (command : Command) : Callback σ → Option (State σ)
  | .list kind => some (s.quaggaUpdateCheck go kind)
  | .routeMap => s.quaggaUpdateCheckRouteMap commands
  | .other f =>
    (f command s.protocols s.configRunning s.configCandidate).map fun r =>
      { s with protocols := r.1, vtysh := s.vtysh ++ r.2.map .lines }

/-- One command on a tree. -/
def update (config : Node) (c : Command × List String) : Node :=
  match c.1 with
  | .set => config.quaggaConfigStateSet c.2
  | .delete => config.quaggaConfigStateDelete c.2

/-- `quaggaConfigStateUpdate`. -/
def quaggaConfigStateUpdate (s : State σ) (command : Command) (path : List String) : State σ :=
  if s.validating then { s with configCandidate := update s.configCandidate (command, path) }
  else { s with configRunning := update s.configRunning (command, path) }

/-- `quaggaConfig`. -/
def quaggaConfig (s : State σ) (command : Command) (path : List String) : Option (State σ) :=
  let called :=
    if s.validating then some s
    else
      match commands.parseCmd path with
      | none => some s
      | some fn => s.callback go commands command fn
  called.map fun s => s.quaggaConfigStateUpdate command path

/-- The message that `grpcLoop` has received. -/
def handle (s : State σ) : Msg → Option (State σ)
  | .validateStart => some { s with validating := true, configCandidate := s.configRunning.sync }
  | .validateEnd =>
    (quaggaConfigValid go s.configCandidate).map fun valid =>
      { s with
        sent := s.sent ++ [if valid then .validateSuccess else .validateFailed]
        validating := false }
  | .commitStart => some { s with commited := fun _ => false, commitedRouteMap := false }
  | .commitEnd => some s
  | .config command path => s.quaggaConfig go commands command path
  | .other => some s

/-- The loop of `grpcLoop`, one message at a time. -/
def step (s : State σ) (msg : Msg) : Option (State σ) :=
  (s.handle go commands msg).map fun s => { s with time := s.time + 1 }

end State

open Runs State

variable {σ : Type} {go : Go} {commands : Commands σ} {s s' : State σ}

/-- The messages of a list of commands. -/
def messages (m : List (Command × List String)) : List Msg := m.map fun c => .config c.1 c.2

/-- A tree with a list of commands applied. -/
def applied (config : Node) (m : List (Command × List String)) : Node := m.foldl update config

theorem sync_eq (config : Node) : config.sync = config := by
  cases config with
  | mk tree distinct => exact (Node.mk.injEq ..).mpr (LabelTree.copy_eq distinct)

/-! ## A validation -/

/-- While validating, a command changes the candidate alone. -/
theorem step_validating (hv : s.validating = true) (c : Command × List String) :
    step go commands s (.config c.1 c.2) =
      some { s with configCandidate := update s.configCandidate c, time := s.time + 1 } := by
  simp [step, handle, quaggaConfig, quaggaConfigStateUpdate, hv]

theorem run_validating (hv : s.validating = true) (m : List (Command × List String)) :
    run (step go commands) s (messages m) =
      some { s with configCandidate := applied s.configCandidate m, time := s.time + m.length } := by
  induction m generalizing s with
  | nil => rfl
  | cons c m ih =>
    rw [messages, List.map_cons, run, step_validating hv, Option.bind_some, ← messages]
    refine (ih (s := { s with configCandidate := update s.configCandidate c, time := s.time + 1 }) hv).trans ?_
    rw [applied, applied, List.foldl_cons, List.length_cons, Nat.add_assoc, Nat.add_comm 1]

/-- A validation up to its end: the candidate is the running tree with the commands. -/
theorem run_validate (m : List (Command × List String)) :
    run (step go commands) s (.validateStart :: messages m) =
      some { s with
        validating := true
        configCandidate := applied s.configRunning m
        time := s.time + 1 + m.length } := by
  rw [run, step, handle, Option.map_some, Option.bind_some, sync_eq, run_validating rfl]

/-- A whole validation. -/
theorem run_validation (m : List (Command × List String)) :
    run (step go commands) s (.validateStart :: messages m ++ [.validateEnd]) =
      (quaggaConfigValid go (applied s.configRunning m)).map fun valid =>
        { s with
          validating := false
          configCandidate := applied s.configRunning m
          sent := s.sent ++ [if valid then .validateSuccess else .validateFailed]
          time := s.time + 1 + m.length + 1 } := by
  rw [run_append, run_validate, Option.bind_some, run, step, handle, Option.map_map]
  cases quaggaConfigValid go (applied s.configRunning m) with
  | none => rfl
  | some valid => rfl

/-! ## A commit -/

/-- What a callback may change. -/
theorem callback_keeps {command : Command} {fn : Callback σ}
    (h : s.callback go commands command fn = some s') :
    s'.validating = s.validating ∧ s'.configRunning = s.configRunning ∧
      s'.configCandidate = s.configCandidate ∧ s'.sent = s.sent ∧ s'.time = s.time := by
  cases fn with
  | list kind =>
    rw [callback, quaggaUpdateCheck, Option.some.injEq] at h
    split at h
    · subst h
      exact ⟨rfl, rfl, rfl, rfl, rfl⟩
    · subst h
      exact ⟨rfl, rfl, rfl, rfl, rfl⟩
  | routeMap =>
    rw [callback, quaggaUpdateCheckRouteMap] at h
    split at h
    · obtain ⟨cmds, -, rfl⟩ := Option.map_eq_some_iff.mp h
      exact ⟨rfl, rfl, rfl, rfl, rfl⟩
    · cases h
      exact ⟨rfl, rfl, rfl, rfl, rfl⟩
  | other f =>
    obtain ⟨r, -, rfl⟩ := Option.map_eq_some_iff.mp h
    exact ⟨rfl, rfl, rfl, rfl, rfl⟩

theorem callback_isSome (ht : commands.Total) {path : List String} {fn : Callback σ}
    (hp : commands.parseCmd path = some fn) (command : Command) :
    (s.callback go commands command fn).isSome := by
  cases fn with
  | list kind => rfl
  | routeMap =>
    rw [callback, quaggaUpdateCheckRouteMap]
    split
    · simpa using ht.1 _ _
    · rfl
  | other f => simpa [callback] using ht.2 path f hp _ _ _ _

/-- The state in which a command that is not validated has run its callback. -/
theorem step_config (hv : s.validating = false) {c : Command × List String}
    (h : step go commands s (.config c.1 c.2) = some s') :
    ∃ s₁, (commands.parseCmd c.2 = none ∧ s₁ = s ∨
        ∃ fn, commands.parseCmd c.2 = some fn ∧ s.callback go commands c.1 fn = some s₁) ∧
      s' = { s₁ with configRunning := update s₁.configRunning c, time := s₁.time + 1 } := by
  rw [step, handle, quaggaConfig, hv] at h
  cases hp : commands.parseCmd c.2 with
  | none =>
    refine ⟨s, .inl ⟨rfl, rfl⟩, ?_⟩
    simpa [hp, quaggaConfigStateUpdate, hv] using h.symm
  | some fn =>
    simp only [hp, Bool.false_eq_true, if_false, Option.map_map] at h
    obtain ⟨s₁, hs₁, rfl⟩ := Option.map_eq_some_iff.mp h
    refine ⟨s₁, .inr ⟨fn, rfl, hs₁⟩, ?_⟩
    simp [quaggaConfigStateUpdate, (callback_keeps hs₁).1, hv]

theorem step_config_keeps (hv : s.validating = false) {c : Command × List String}
    (h : step go commands s (.config c.1 c.2) = some s') :
    s'.validating = false ∧ s'.configCandidate = s.configCandidate ∧
      s'.configRunning = update s.configRunning c := by
  obtain ⟨s₁, ⟨-, rfl⟩ | ⟨fn, -, hs₁⟩, rfl⟩ := step_config hv h
  · exact ⟨hv, rfl, rfl⟩
  · obtain ⟨hv₁, hr₁, hc₁, -, -⟩ := callback_keeps hs₁
    exact ⟨hv₁.trans hv, hc₁, by rw [hr₁]⟩

/-- The running tree after a list of commands that is not validated. -/
theorem run_config (hv : s.validating = false) (m : List (Command × List String))
    (h : run (step go commands) s (messages m) = some s') :
    s'.validating = false ∧ s'.configCandidate = s.configCandidate ∧
      s'.configRunning = applied s.configRunning m := by
  induction m generalizing s with
  | nil =>
    cases h
    exact ⟨hv, rfl, rfl⟩
  | cons c m ih =>
    obtain ⟨s₁, hs₁, h⟩ := Option.bind_eq_some_iff.mp h
    obtain ⟨hv₁, hc₁, hr₁⟩ := step_config_keeps hv hs₁
    obtain ⟨hv', hc', hr'⟩ := ih hv₁ h
    exact ⟨hv', hc'.trans hc₁, by rw [hr', hr₁]; rfl⟩

theorem run_config_isSome (ht : commands.Total) (hv : s.validating = false)
    (m : List (Command × List String)) : (run (step go commands) s (messages m)).isSome := by
  induction m generalizing s with
  | nil => rfl
  | cons c m ih =>
    have hstep : (step go commands s (.config c.1 c.2)).isSome := by
      rw [step, handle, quaggaConfig, hv]
      cases hp : commands.parseCmd c.2 with
      | none => simp
      | some fn => simpa using callback_isSome ht hp c.1
    obtain ⟨s₁, hs₁⟩ := Option.isSome_iff_exists.mp hstep
    rw [messages, List.map_cons, run, hs₁, Option.bind_some, ← messages]
    exact ih (step_config_keeps hv hs₁).1

/-- A commit from its start, up to the state of its first command. -/
theorem run_commit (m : List (Command × List String)) :
    run (step go commands) s (.commitStart :: messages m ++ [.commitEnd]) =
      (run (step go commands)
        { s with commited := fun _ => false, commitedRouteMap := false, time := s.time + 1 }
        (messages m)).map fun s => { s with time := s.time + 1 } := by
  rw [List.cons_append, run, step, handle, Option.map_some, Option.bind_some, run_append]
  cases run (step go commands) _ (messages m) with
  | none => rfl
  | some s => rfl

theorem run_commit_validating (hv : s.validating = false) {m : List (Command × List String)}
    (h : run (step go commands) s (.commitStart :: messages m ++ [.commitEnd]) = some s') :
    s'.validating = false := by
  rw [run_commit, Option.map_eq_some_iff] at h
  obtain ⟨s₁, hs₁, rfl⟩ := h
  exact (run_config (by exact hv) m hs₁).1

/-- After a validation that has been successful the candidate is valid. -/
theorem run_success {m : List (Command × List String)}
    (h : run (step go commands) s (.validateStart :: messages m ++ [.validateEnd]) = some s')
    (hsuccess : s'.sent.getLast? = some .validateSuccess) :
    s'.validating = false ∧ s'.configCandidate = applied s.configRunning m ∧
      s'.configRunning = s.configRunning ∧ s'.vtysh = s.vtysh ∧
      quaggaConfigValid go s'.configCandidate = some true := by
  rw [run_validation, Option.map_eq_some_iff] at h
  obtain ⟨valid, hvalid, rfl⟩ := h
  cases valid with
  | false => simp at hsuccess
  | true => exact ⟨rfl, rfl, rfl, rfl, hvalid⟩

/-- A validation changes the candidate alone, whatever it has got to, and its reply is what
the checks say of the running tree with the commands; a commit of the same commands
makes the running tree the candidate that has been validated. -/
theorem validate_then_commit (go : Go) (commands : Commands σ) (s : State σ)
    (m : List (Command × List String)) :
    (∀ msgs, msgs <+: .validateStart :: messages m ++ [.validateEnd] →
      ∀ s', run (step go commands) s msgs = some s' →
        s'.configRunning = s.configRunning ∧ s'.vtysh = s.vtysh ∧ s'.protocols = s.protocols) ∧
    match quaggaConfigValid go (applied s.configRunning m) with
    | none => run (step go commands) s (.validateStart :: messages m ++ [.validateEnd]) = none
    | some valid => ∃ s₁,
      run (step go commands) s (.validateStart :: messages m ++ [.validateEnd]) = some s₁ ∧
      s₁.sent = s.sent ++ [if valid then .validateSuccess else .validateFailed] ∧
      s₁.configCandidate = applied s.configRunning m ∧
      (commands.Total →
        (run (step go commands) s₁ (.commitStart :: messages m ++ [.commitEnd])).isSome) ∧
      ∀ s₂, run (step go commands) s₁ (.commitStart :: messages m ++ [.commitEnd]) = some s₂ →
        s₂.configRunning = s₁.configCandidate := by
  constructor
  · intro msgs hmsgs s' hs'
    rcases List.prefix_concat_iff.mp hmsgs with rfl | hmsgs
    · rw [run_validation, Option.map_eq_some_iff] at hs'
      obtain ⟨valid, -, rfl⟩ := hs'
      exact ⟨rfl, rfl, rfl⟩
    · rcases List.prefix_cons_iff.mp hmsgs with rfl | ⟨msgs', rfl, hmsgs'⟩
      · cases hs'
        exact ⟨rfl, rfl, rfl⟩
      · -- A part of the commands is a list of commands too.
        have hpart : msgs' = messages (m.take msgs'.length) := by
          rw [messages, List.map_take, ← messages]
          exact List.prefix_iff_eq_take.mp hmsgs'
        rw [hpart, run_validate] at hs'
        cases hs'
        exact ⟨rfl, rfl, rfl⟩
  · rw [run_validation]
    cases quaggaConfigValid go (applied s.configRunning m) with
    | none => rfl
    | some valid =>
      refine ⟨_, rfl, rfl, rfl, fun ht => ?_, fun s₂ hs₂ => ?_⟩
      · rw [run_commit, Option.isSome_map]
        exact run_config_isSome ht rfl m
      · rw [run_commit, Option.map_eq_some_iff] at hs₂
        obtain ⟨s₃, hs₃, rfl⟩ := hs₂
        exact (run_config rfl m hs₃).2.2

end OpenConfigd.Quaggad
