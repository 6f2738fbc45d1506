import OpenConfigd.Config.Copy
import OpenConfigd.Subscribe.Hub

/-!
# Commit

`Validate`, `Commit` and `SubscribeSync` of `subscribe.go`, and the calls that
lead to them. What the remote subscribers answer is a parameter of the calls; how
their answers get here is another matter.
-/

namespace OpenConfigd

/-- How the validation of a remote subscriber ends. -/
inductive Outcome where
  | success | failed | timeout
  deriving DecidableEq, Repr

namespace Hub

/-- `(*Subscriber).Validate`: the number of subscribers asked that did not answer
with success, and the queues. -/
def validateSub (outcome : Nat → Outcome) (p : Nat × Hub) (i : Nat) : Nat × Hub :=
  let (count, h) := p
  if !h.isRemote i || !h.hasCommand i then (count, h)
  else
    match outcome i with
    | .success => (count, h)
    | .failed | .timeout => (count + 1, h.commandClear i)

/-- `Validate`. -/
def validate (twoPhase : Bool) (outcome : Nat → Outcome) (h : Hub) : Bool × Hub :=
  if twoPhase then
    let (count, h) := (List.range h.subs.length).foldl (validateSub outcome) (0, h)
    (count = 0, h)
  else (true, h)

/-- `(*Subscriber).Commit`: the commands delivered, as such or as the JSON of their
path, and the queues. -/
def commitSub (p : List (Nat × CommandRef) × Hub) (i : Nat) : List (Nat × CommandRef) × Hub :=
  let (log, h) := p
  if !h.hasCommand i then (log, h)
  else (log ++ ((h.pending i).flatMap SubPath.commands).map (i, ·), h.commandClear i)

/-- The commit phase. -/
def commitAll (h : Hub) : List (Nat × CommandRef) × Hub :=
  (List.range h.subs.length).foldl commitSub ([], h)

end Hub

/-- The server: the two trees, the subscribers, and how many commands it created. -/
structure Server where
  active : Config := {}
  candidate : Config := {}
  hub : Hub := {}
  next : Nat := 0

/-- Why `Commit` or `SubscribeSync` fails. -/
inductive CommitError where
  | mandatory (text : String)
  | validation
  deriving DecidableEq, Repr

/-- What a call returns, what it delivers in its commit phase, and the server it
leaves. -/
structure CallResult where
  err : Option CommitError := none
  delivered : List (Nat × CommandRef) := []
  server : Server

/-- Pointers to new commands. -/
def newRefs (next : Nat) (cmds : List Command) : List CommandRef :=
  cmds.mapIdx fun k c => ⟨next + k, c⟩

namespace Server

variable (env : Env) (ent : Entry) (diff : List Char → List Char → Option (List Char))
  (twoPhase : Bool)

/-- The end of `Commit` and of `SubscribeSync`, after the commands are computed. -/
def deliver (s : Server) (cmds : List Command) (sync : Bool) (outcome : Nat → Outcome) :
    CallResult :=
  let hub := s.hub.registerAll (newRefs s.next cmds) sync
  let next := s.next + cmds.length
  match hub.validate twoPhase outcome with
  | (false, hub) => { err := some .validation, server := { s with hub, next } }
  | (true, hub) =>
    let (delivered, hub) := hub.commitAll
    { delivered, server := { s with hub, next } }

/-- `Commit`; `none` when it panics. -/
def commit (s : Server) (outcome : Nat → Outcome) : Option CallResult :=
  match s.candidate.mandatoryCheck with
  | some text => some { err := some (.mandatory text), server := s }
  | none => do
    let cmds ← changeCommands env diff s.active s.candidate
    if cmds.isEmpty then return { server := s }
    let r := s.deliver twoPhase cmds false outcome
    if r.err.isNone then
      return { r with server := { r.server with active := s.candidate.copy } }
    return r

variable {env diff twoPhase} in
/-- How `Commit` ends. -/
theorem commit_cases {s : Server} {outcome : Nat → Outcome} {r : CallResult}
    (h : s.commit env diff twoPhase outcome = some r) :
    (∃ text, s.candidate.mandatoryCheck = some text ∧
      r = { err := some (.mandatory text), server := s }) ∨
    s.candidate.mandatoryCheck = none ∧ ∃ cmds,
      changeCommands env diff s.active s.candidate = some cmds ∧
      (cmds = [] ∧ r = { server := s } ∨
        cmds ≠ [] ∧ ∃ d, s.deliver twoPhase cmds false outcome = d ∧
          (d.err = none ∧ r = { d with server := { d.server with active := s.candidate.copy } } ∨
            d.err ≠ none ∧ r = d)) := by
  rw [commit] at h
  cases hm : s.candidate.mandatoryCheck with
  | some text =>
    rw [hm] at h
    exact .inl ⟨text, rfl, (Option.some.inj h).symm⟩
  | none =>
    rw [hm] at h
    simp only [Option.bind_eq_bind, Option.bind_eq_some_iff] at h
    obtain ⟨cmds, hcmds, h⟩ := h
    refine .inr ⟨rfl, cmds, hcmds, ?_⟩
    split at h
    · exact .inl ⟨List.isEmpty_iff.mp ‹_›, (Option.some.inj h).symm⟩
    · refine .inr ⟨fun hnil => ‹¬ _› (List.isEmpty_iff.mpr hnil), _, rfl, ?_⟩
      split at h
      · exact .inl ⟨Option.isNone_iff_eq_none.mp ‹_›, (Option.some.inj h).symm⟩
      · refine .inr ⟨fun hnone => ‹¬ _› ?_, (Option.some.inj h).symm⟩
        rw [hnone]
        rfl

/-- `SubscribeSync`. -/
def subscribeSync (s : Server) (outcome : Nat → Outcome) : CallResult :=
  s.deliver twoPhase (s.active.commandPaths.map (Command.mk true)) true outcome

/-- `SubscribeRemoteAddMulti`. -/
def subscribeRemoteAddMulti (s : Server) (i : Nat) (paths : List String)
    (outcome : Nat → Outcome) : CallResult :=
  let s' := { s with hub := s.hub.subscribe i paths }
  let r := s'.subscribeSync twoPhase outcome
  { r with server := { r.server with hub := r.server.hub.clearSync s.hub.subPaths.length } }

/-- A call that reaches the server. -/
inductive Action where
  | set (cmds : List String)
  | delete (cmds : List String)
  | commit (outcome : Nat → Outcome)
  | subscribeSync (outcome : Nat → Outcome)
  | subscribe (sub : Nat) (paths : List String) (outcome : Nat → Outcome)

/-- The call. -/
def step (s : Server) : Action → Option CallResult
  | .set cmds =>
    (parse env ent s.candidate cmds).map fun r => { server := { s with candidate := r.tree } }
  | .delete cmds =>
    (parseDelete s.candidate cmds).map fun r => { server := { s with candidate := r.tree } }
  | .commit outcome => s.commit env diff twoPhase outcome
  | .subscribeSync outcome => some (s.subscribeSync twoPhase outcome)
  | .subscribe i paths outcome => some (s.subscribeRemoteAddMulti twoPhase i paths outcome)

end Server

end OpenConfigd
