import OpenConfigd.Subscribe.Discard
import OpenConfigd.Subscribe.Undo

/-!
# A commit after a commit

The copy of a tree prints the commands of the tree (`writeCommandTo_copy`), so that
`CompareCommand` is empty once the copy of the candidate is the active tree. A commit
that finds an entry to register leaves nothing to commit, and empty queues. A commit
that finds none returns before the subscribers and the copy: it leaves the queues as
an earlier call that failed left them, and the trees apart where the scanner gave up
at a line of 64 KiB before the first entry (`commit_idempotent_iff`).
-/

namespace OpenConfigd

/-! ## Runs -/

variable {env : Env} {ent : Entry} {diff : List Char → List Char → Option (List Char)}
  {twoPhase : Bool}

namespace Server

/-- The servers that calls, discards and the end of subscribers lead to, from empty trees
and any subscriptions. `SubscribeDelete` drops the queues of a subscriber and leaves some
other tree of paths. -/
inductive Reached (env : Env) (ent : Entry) (diff : List Char → List Char → Option (List Char))
    (twoPhase : Bool) : Server → Prop
  | start (hub : Hub) (next : Nat) : hub.Quiet → Reached env ent diff twoPhase { hub, next }
  | call {s : Server} {a : Action} {r : CallResult} : Reached env ent diff twoPhase s →
      s.step env ent diff twoPhase a = some r → Reached env ent diff twoPhase r.server
  | discard {s : Server} : Reached env ent diff twoPhase s →
      Reached env ent diff twoPhase s.discardConfigChange
  | subscribeDelete {s : Server} (i : Nat) (root : Path) : Reached env ent diff twoPhase s →
      Reached env ent diff twoPhase { s with hub := { s.hub.commandClear i with root } }

theorem commit_kept {s : Server} {outcome : Nat → Outcome} {r : CallResult} (hk : s.hub.Kept)
    (h : s.commit env diff twoPhase outcome = some r) : r.server.hub.Kept := by
  obtain ⟨text, -, rfl⟩ | ⟨-, cmds, -, ⟨-, rfl⟩ | ⟨-, d, rfl, h⟩⟩ := commit_cases h
  · exact hk
  · exact hk
  · have hkept := (@deliver_kept twoPhase s cmds false outcome hk).1
    obtain ⟨-, rfl⟩ | ⟨-, rfl⟩ := h
    · exact ⟨hkept.solid, hkept.owned⟩
    · exact hkept

theorem step_kept {s : Server} {a : Action} {r : CallResult} (hk : s.hub.Kept)
    (h : s.step env ent diff twoPhase a = some r) : r.server.hub.Kept := by
  cases a with
  | set cmds =>
    obtain ⟨r', -, rfl⟩ := Option.map_eq_some_iff.mp h
    exact hk
  | delete cmds =>
    obtain ⟨r', -, rfl⟩ := Option.map_eq_some_iff.mp h
    exact hk
  | commit outcome => exact commit_kept hk h
  | subscribeSync outcome =>
    cases h
    exact (deliver_kept hk).1
  | subscribe i paths outcome =>
    cases h
    have hsub : (s.hub.subscribe i paths).Kept :=
      ⟨subscribe_forall hk.solid (fun _ p hp => by cases hp) i paths, subscribe_owned hk.owned i paths⟩
    obtain ⟨hsolid, howned⟩ := (@deliver_kept twoPhase { s with hub := s.hub.subscribe i paths }
      (s.active.commandPaths.map (Command.mk true)) true outcome hsub).1
    exact ⟨clearSync_forall hsolid (fun _ hP => hP) _,
      clearSync_forall (P := fun sp => sp.sub < _) howned (fun _ hP => hP) _⟩

theorem Reached.kept {s : Server} (hr : s.Reached env ent diff twoPhase) : s.hub.Kept := by
  induction hr with
  | start hub next hq => exact hq.kept
  | call _ h ih => exact step_kept ih h
  | discard _ ih => exact ih
  | subscribeDelete i root _ ih =>
    exact ⟨Hub.commandClear_forall ih.solid Hub.Solid.clear,
      Hub.commandClear_forall (P := fun sp => sp.sub < _) ih.owned fun _ hP => hP⟩

/-! ## Nothing left to commit -/

/-- There is nothing to commit: `CompareCommand` is empty, every queue is empty, and a
commit returns nil without a command delivered. -/
structure Settled (env : Env) (diff : List Char → List Char → Option (List Char)) (twoPhase : Bool)
    (s : Server) : Prop where
  compare : compareCommand env diff s.active s.candidate = some []
  queues : ∀ i, s.hub.queue i = []
  again : ∀ outcome, ∃ r, s.commit env diff twoPhase outcome = some r ∧ r.err = none ∧
    r.delivered = []

/-- The scanner reaches a line that is a command. -/
def HasEntry (text : List Char) : Prop :=
  ∃ line ∈ scanLines text, line.head? = some '+' ∨ line.head? = some '-'

theorem hasEntry_iff {text : List Char} :
    (scanLines text).filterMap (newCommand env) ≠ [] ↔ HasEntry text := by
  rw [HasEntry, ne_eq, List.filterMap_eq_nil_iff]
  push Not
  refine exists_congr fun line => and_congr_right fun _ => ?_
  cases line with
  | nil => simp [newCommand]
  | cons c line =>
    simp only [newCommand, List.head?_cons, Option.some.injEq]
    split
    · simp [*]
    · split <;> simp [*]

theorem scanLines_nil : scanLines [] = [] := by
  decide

/-- With the copy of the candidate as the active tree, or with an empty
`CompareCommand`, a commit does nothing. -/
theorem commit_nothing {s : Server} (hm : s.candidate.mandatoryCheck = none)
    (hc : compareCommand env diff s.active s.candidate = some []) (outcome : Nat → Outcome) :
    s.commit env diff twoPhase outcome = some { server := s } := by
  have hcmds : changeCommands env diff s.active s.candidate = some [] := by
    rw [changeCommands, hc, Option.map_some, scanLines_nil]
    rfl
  rw [commit, hm]
  simp only [hcmds, Option.bind_eq_bind, Option.bind_some, List.isEmpty_nil, if_true]
  rfl

theorem Settled.of {s : Server} (hm : s.candidate.mandatoryCheck = none)
    (hc : compareCommand env diff s.active s.candidate = some []) (hi : ∀ i, s.hub.queue i = []) :
    s.Settled env diff twoPhase :=
  ⟨hc, hi, fun outcome => ⟨_, commit_nothing hm hc outcome, rfl, rfl⟩⟩

/-- The copy of the candidate compares equal to it. -/
theorem compareCommand_copy (hdiff : ∀ text, diff text text = none) {c : Config} {text : List Char}
    (h : c.writeCommandTo env = some text) : compareCommand env diff c.copy c = some [] := by
  simp only [compareCommand, Config.writeCommandTo_copy, h, hdiff, Option.bind_eq_bind,
    Option.bind_some]
  rfl

end Server

open Server in
/-- After a commit that returns nil there is nothing to commit just when it found an entry
to register, or there was nothing to commit before. -/
theorem commit_idempotent_iff (hdiff : ∀ text, diff text text = none) {s : Server}
    (hr : s.Reached env ent diff twoPhase) {outcome : Nat → Outcome} {r : CallResult}
    (h : s.commit env diff twoPhase outcome = some r) (he : r.err = none) :
    r.server.Settled env diff twoPhase ↔
      ∃ text, compareCommand env diff s.active s.candidate = some text ∧
        (HasEntry text ∨ text = [] ∧ ∀ i, s.hub.queue i = []) := by
  obtain ⟨text, -, rfl⟩ | ⟨hm, cmds, hcmds, h⟩ := commit_cases h
  · cases he
  obtain ⟨text, htext, rfl⟩ := Option.map_eq_some_iff.mp hcmds
  obtain ⟨new, hnew⟩ : ∃ new, s.candidate.writeCommandTo env = some new := by
    simp only [compareCommand, Option.bind_eq_bind, Option.bind_eq_some_iff] at htext
    obtain ⟨-, -, new, hnew, -⟩ := htext
    exact ⟨new, hnew⟩
  rcases h with ⟨hnil, rfl⟩ | ⟨hne, d, hd, h⟩
  · -- No entry: the trees and the queues are as they were.
    have hno : ¬ HasEntry text := fun hentry => hasEntry_iff.mpr hentry hnil
    constructor
    · exact fun hs => ⟨[], hs.compare, .inr ⟨rfl, hs.queues⟩⟩
    · rintro ⟨text', htext', hentry | ⟨rfl, hi⟩⟩
      · cases htext.symm.trans htext'
        exact absurd hentry hno
      · exact .of hm htext' hi
  · -- An entry: every queue is flushed, and the copy is the active tree.
    have hidle : d.err = none → d.server.hub.Idle := hd ▸ (deliver_kept hr.kept).2
    obtain ⟨herr, rfl⟩ | ⟨herr, rfl⟩ := h
    · have hcand : d.server.candidate = s.candidate :=
        hd ▸ (deliver_trees s _ false outcome).2
      refine iff_of_true (.of ?_ ?_ fun i => (hidle herr).queue i)
        ⟨text, htext, .inl (hasEntry_iff.mp hne)⟩
      · rw [← hm, ← hcand]
      · show compareCommand env diff s.candidate.copy d.server.candidate = some []
        rw [hcand]
        exact compareCommand_copy hdiff hnew
    · exact absurd he herr

/-! ## A schema with a list -/

/-- A local and a remote subscriber on the path `routes`, and empty trees. -/
def routesStart : Server := { hub := (routesServer [⟨false⟩, ⟨true⟩]).hub }

theorem routesStart_reached : routesStart.Reached .ascii routesSchema Ascii.diff true :=
  .start _ _ (routesServer_quiet _)

/-- The calls of an attempt to commit one route. -/
def routeAttempt (outcome : Nat → Outcome) : Option CallResult :=
  (routesStart.step .ascii routesSchema Ascii.diff true (.set ["routes", "route", "a", "b"])).bind
    fun r => r.server.step .ascii routesSchema Ascii.diff true (.commit outcome)

theorem diff_self (text : List Char) : Ascii.diff text text = none :=
  if_pos rfl

/-- A commit fails and the change is discarded. The next commit returns nil, and the
local subscriber keeps the command. -/
theorem commit_leaves_queue : ∃ (s : Server) (r : CallResult),
    s.Reached .ascii routesSchema Ascii.diff true ∧
    s.commit .ascii Ascii.diff true (fun _ => .success) = some r ∧ r.err = none ∧
    ¬ r.server.Settled .ascii Ascii.diff true := by
  obtain ⟨r₃, h, hp⟩ := Option.map_eq_some_iff.mp (show
    ((routeAttempt fun _ => .failed).bind fun r =>
      r.server.discardConfigChange.commit .ascii Ascii.diff true fun _ => .success).map
      (fun r => (r.err, r.server.hub.queue 0)) =
    some (none, [("routes", [⟨0, ⟨true, ["routes", "route", "a", "b"]⟩⟩])])
    by decide +kernel)
  simp only [Prod.mk.injEq] at hp
  obtain ⟨r₂, h₂, h₃⟩ := Option.bind_eq_some_iff.mp h
  obtain ⟨r₁, h₁, h₂⟩ := Option.bind_eq_some_iff.mp h₂
  refine ⟨_, r₃, ((routesStart_reached.call h₁).call h₂).discard, h₃, hp.1, fun hs => ?_⟩
  have := hs.queues 0
  rw [hp.2] at this
  cases this

/-- The remote subscriber accepts the route. -/
theorem commit_idempotent_route : ∃ (s : Server) (r : CallResult),
    s.Reached .ascii routesSchema Ascii.diff true ∧
    s.commit .ascii Ascii.diff true (fun _ => .success) = some r ∧ r.delivered.length = 2 ∧
    r.server.Settled .ascii Ascii.diff true := by
  obtain ⟨r₂, h, hp⟩ := Option.map_eq_some_iff.mp (show
    (routeAttempt fun _ => .success).map (fun r => (r.err, r.delivered.length)) = some (none, 2)
    by decide +kernel)
  simp only [Prod.mk.injEq] at hp
  obtain ⟨r₁, h₁, h₂⟩ := Option.bind_eq_some_iff.mp h
  have hreached := routesStart_reached.call h₁
  refine ⟨_, r₂, hreached, h₂, hp.2, (commit_idempotent_iff diff_self hreached h₂ hp.1).mpr ?_⟩
  have hcmp : (routesStart.step .ascii routesSchema Ascii.diff true
      (.set ["routes", "route", "a", "b"])).bind
      (fun r => compareCommand .ascii Ascii.diff r.server.active r.server.candidate) =
      some "+set routes route a b\n\n".toList := by
    decide +kernel
  rw [h₁, Option.bind_some] at hcmp
  refine ⟨_, hcmp, .inl ⟨"+set routes route a b".toList, by decide, .inl rfl⟩⟩

end OpenConfigd
