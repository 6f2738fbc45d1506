import Mathlib.Data.List.Nodup
import Mathlib.Data.List.Perm.Basic
import Mathlib.Logic.Function.Basic

/-!
# Two-phase commit

The validation of a commit as a transition system: the loop of `Validate`, a
goroutine for each subscriber asked, the replies in flight, and the loop of
`DoConfig` that hands them over on the `done` channel of the subscriber. A reply
does not say which `VALIDATE_END` it answers; here it carries the number of the
validation, for the statements only. `ValidateCount` is changed without a lock, by
the loop and by the goroutines: each change reads the number in one step and
writes it in another. `agreement`: when every reply is handed over to the
validation it answers and every change of `ValidateCount` writes over the number
it has read, the commit phase is reached only after every subscriber asked has
agreed.
-/

namespace OpenConfigd.TwoPhase

/-- `VALIDATE_SUCCESS` and `VALIDATE_FAILED`. -/
inductive ReplyType where
  | success | failed
  deriving DecidableEq, Repr

/-- A reply, with the number of the validation whose `VALIDATE_END` it answers. -/
structure Reply where
  typ : ReplyType
  answers : Nat
  deriving DecidableEq, Repr

/-- Where the goroutine of a validation is: before it makes the channel, before
`VALIDATE_END`, in the select, after a `VALIDATE_SUCCESS`, between the reading and the writing
of `ValidateCount--`, and before `SubscribeWg.Done`. -/
inductive Stage where
  | spawned | started | waiting | succeeded
  | loaded (count : Int)
  | leaving
  deriving DecidableEq, Repr

/-- A subscriber, as far as validation goes. -/
structure Party where
  /-- The goroutine of its validation. -/
  stage : Option Stage := none
  /-- The goroutines after `SubscribeWg.Done` that have not closed `done` yet. -/
  closing : Nat := 0
  /-- `done != nil`. -/
  done : Bool := false
  /-- The validations whose `VALIDATE_END` it was sent. -/
  ends : List Nat := []
  /-- Its replies in flight. -/
  stream : List Reply := []
  /-- The reply for which `DoConfig` has seen a channel. -/
  checked : Option Reply := none
  /-- The reply that `DoConfig` is sending on the channel. -/
  sending : Option Reply := none
  /-- `DoConfig` sends on a channel that is nil, for ever. -/
  blocked : Bool := false
  /-- The validation in progress got a `VALIDATE_SUCCESS`. -/
  agreed : Bool := false

namespace Party

/-- The goroutine gets a reply. -/
def take (r : Reply) (p : Party) : Party :=
  { p with
    sending := none, agreed := r.typ = .success
    stage := some (if r.typ = .success then .succeeded else .leaving) }

/-- The goroutine has no reply yet. -/
def fresh (p : Party) : Bool :=
  p.stage = some .spawned || p.stage = some .started || p.stage = some .waiting

/-- The goroutine has still to change `ValidateCount`. -/
def changing (p : Party) : Bool :=
  match p.stage with
  | some .succeeded | some (.loaded _) => true
  | _ => false

/-- `ValidateCount` still counts the subscriber. -/
def counted (p : Party) : Bool := !p.agreed || p.changing

/-- The goroutine changes `ValidateCount` after a `VALIDATE_SUCCESS`. -/
def Consistent (p : Party) : Prop := (p.fresh = true → p.agreed = false) ∧ (p.changing = true → p.agreed = true)

/-- The reply is on its way to the goroutine. -/
def Holds (p : Party) (r : Reply) : Prop := r ∈ p.stream ∨ p.checked = some r ∨ p.sending = some r

end Party

/-- Where `Commit` is: not running, in the loop of `Validate` with the subscribers
still to ask, between the reading and the writing of `ValidateCount++` for one of them, or in
the commit phase. -/
inductive Phase where
  | idle
  | asking (todo : List Nat)
  | counting (i : Nat) (count : Int) (todo : List Nat)
  | committing
  deriving DecidableEq, Repr

/-- The subscribers that `Validate` has still to ask. -/
def Phase.todo : Phase → Option (List Nat)
  | .asking todo => some todo
  | .counting i _ todo => some (i :: todo)
  | _ => none

/-- The state of the system. -/
structure State where
  phase : Phase := .idle
  /-- The number of this validation. -/
  round : Nat := 0
  /-- `ValidateCount`. -/
  count : Int := 0
  /-- The subscribers with pending commands. -/
  pending : Nat → Bool := fun _ => false
  /-- The subscribers asked so far. -/
  asked : List Nat := []
  party : Nat → Party := fun _ => {}
  /-- All replies the subscribers have sent. -/
  sent : List (Nat × Reply) := []

/-- A step of one of the parties. -/
inductive Action where
  /-- `Commit` enters `Validate`, which goes through the subscribers in some order. -/
  | commit (order : List Nat) (pending : Nat → Bool)
  /-- `(*Subscriber).Validate` of the next one, up to the reading of `ValidateCount`. -/
  | ask
  /-- It writes `ValidateCount`, and makes the goroutine. -/
  | increment
  /-- The goroutine makes the channel. -/
  | start (i : Nat)
  /-- The goroutine sends `VALIDATE_END`. -/
  | sendEnd (i : Nat)
  /-- The subscriber answers a `VALIDATE_END` it was sent. -/
  | reply (i : Nat) (r : Reply)
  /-- `DoConfig` gets the next reply from the stream and looks for a channel. -/
  | receive (i : Nat)
  /-- `DoConfig` begins to send on the channel. -/
  | send (i : Nat)
  /-- The goroutine gets the reply from the channel. -/
  | handOver (i : Nat)
  /-- The goroutine reads `ValidateCount`. -/
  | load (i : Nat)
  /-- The goroutine writes `ValidateCount`. -/
  | decrement (i : Nat)
  /-- The timer of the goroutine fires, or its channel is closed. -/
  | timeout (i : Nat)
  /-- `SubscribeWg.Done`. -/
  | leave (i : Nat)
  /-- A goroutine that has left closes `done` and sets it to nil. -/
  | close (i : Nat)
  /-- `SubscribeValidateResult`. -/
  | result
  /-- The commit phase ends. -/
  | committed

namespace State

/-- The state with one of the parties changed. -/
def update (s : State) (i : Nat) (f : Party → Party) : State :=
  { s with party := Function.update s.party i (f (s.party i)) }

variable (n : Nat) (remote : Nat → Bool)

/-- A step; `none` when it is not enabled, or panics. -/
def step (s : State) : Action → Option State
  | .commit order pending =>
    if s.phase = .idle ∧ order.Perm (List.range n) then
      some { s with
        phase := .asking order, round := s.round + 1, count := 0, pending, asked := []
        party := fun i => { s.party i with agreed := false } }
    else none
  | .ask =>
    match s.phase with
    | .asking (i :: todo) =>
      if remote i && s.pending i then some { s with phase := .counting i s.count todo }
      else some { s with phase := .asking todo }
    | _ => none
  | .increment =>
    match s.phase with
    | .counting i count todo =>
      some { s.update i fun p => { p with stage := some .spawned } with
        phase := .asking todo, count := count + 1, asked := s.asked ++ [i] }
    | _ => none
  | .start i =>
    if (s.party i).stage = some .spawned then
      -- A send on the channel before, if it is still there, is never received.
      some (s.update i fun p =>
        { p with
          stage := some .started, done := true, sending := none
          blocked := p.blocked || p.sending.isSome })
    else none
  | .sendEnd i =>
    if (s.party i).stage = some .started then
      some (s.update i fun p => { p with stage := some .waiting, ends := p.ends ++ [s.round] })
    else none
  | .reply i r =>
    if r.answers ∈ (s.party i).ends then
      some { s.update i fun p => { p with stream := p.stream ++ [r] } with
        sent := s.sent ++ [(i, r)] }
    else none
  | .receive i =>
    match (s.party i).checked, (s.party i).sending, (s.party i).blocked, (s.party i).stream with
    | none, none, false, r :: stream =>
      some (s.update i fun p => { p with stream, checked := if p.done then some r else none })
    | _, _, _, _ => none
  | .send i =>
    match (s.party i).checked with
    | some r =>
      if (s.party i).done then some (s.update i fun p => { p with checked := none, sending := some r })
      else some (s.update i fun p => { p with checked := none, blocked := true })
    | none => none
  | .handOver i =>
    match (s.party i).stage, (s.party i).sending with
    | some .waiting, some r => some (s.update i (Party.take r))
    | _, _ => none
  | .load i =>
    if (s.party i).stage = some .succeeded then
      some (s.update i fun p => { p with stage := some (.loaded s.count) })
    else none
  | .decrement i =>
    match (s.party i).stage with
    | some (.loaded count) =>
      some { s.update i fun p => { p with stage := some .leaving } with count := count - 1 }
    | _ => none
  | .timeout i =>
    if (s.party i).stage = some .waiting then
      some (s.update i fun p => { p with stage := some .leaving })
    else none
  | .leave i =>
    if (s.party i).stage = some .leaving then
      some (s.update i fun p => { p with stage := none, closing := p.closing + 1 })
    else none
  | .close i =>
    match (s.party i).closing, (s.party i).done, (s.party i).sending with
    | closing + 1, true, none => some (s.update i fun p => { p with closing, done := false })
    -- Closing a channel that is nil, or on which `DoConfig` sends, panics.
    | _, _, _ => none
  | .result =>
    if s.phase = .asking [] ∧ ∀ i ∈ s.asked, (s.party i).stage = none then
      some { s with phase := if s.count = 0 then .committing else .idle }
    else none
  | .committed => if s.phase = .committing then some { s with phase := .idle } else none

/-- The steps one after the other. -/
def run (s : State) : List Action → Option State
  | [] => some s
  | a :: as => (s.step n remote a).bind fun s' => s'.run as

end State

variable {n : Nat} {remote : Nat → Bool} {s s' : State}

/-- Every remote subscriber with pending commands has answered the `VALIDATE_END` of
this validation with success. -/
def State.Agreed (n : Nat) (remote : Nat → Bool) (s : State) : Prop :=
  ∀ i < n, remote i = true → s.pending i = true → (i, ⟨.success, s.round⟩) ∈ s.sent

/-- The reply that is handed over answers the validation it is handed over to, and the number that
`ValidateCount` is counted from is the one it has. -/
def Action.orderly (s : State) : Action → Bool
  | .handOver i => ((s.party i).sending.map fun r => r.answers == s.round).getD true
  | .increment =>
    match s.phase with
    | .counting _ count _ => count == s.count
    | _ => true
  | .decrement i =>
    match (s.party i).stage with
    | some (.loaded count) => count == s.count
    | _ => true
  | _ => true

/-- What holds between the steps of such runs. -/
structure Inv (n : Nat) (remote : Nat → Bool) (s : State) : Prop where
  known : ∀ i r, (s.party i).Holds r → (i, r) ∈ s.sent
  running : ∀ i, (s.party i).stage ≠ none → i ∈ s.asked ∧ s.phase.todo.isSome
  consistent : ∀ i, (s.party i).Consistent
  agreed : ∀ i, (s.party i).agreed = true → i ∈ s.asked ∧ (i, ⟨.success, s.round⟩) ∈ s.sent
  count : ∀ todo, s.phase.todo = some todo →
    s.count = (s.asked.filter fun i => (s.party i).counted).length
  nodup : ∀ todo, s.phase.todo = some todo → (s.asked ++ todo).Nodup
  covers : ∀ todo, s.phase.todo = some todo → ∀ i < n, remote i = true → s.pending i = true →
    i ∈ s.asked ∨ i ∈ todo
  safe : s.phase = .committing → s.Agreed n remote

theorem Inv.init : Inv n remote {} := by
  refine ⟨?_, ?_, ?_, ?_, ?_, ?_, ?_, ?_⟩ <;>
    simp [Party.Holds, Party.Consistent, Party.fresh, Party.changing, Phase.todo]

/-- One subscriber less is counted. -/
theorem length_filter_counted {l : List Nat} (hn : l.Nodup) {i : Nat} (hi : i ∈ l) {p q : Nat → Bool}
    (hp : p i = true) (hq : q i = false) (hne : ∀ j, j ≠ i → q j = p j) :
    (l.filter p).length = (l.filter q).length + 1 := by
  induction l with
  | nil => cases hi
  | cons j l ih =>
    obtain ⟨hj, hn⟩ := List.nodup_cons.mp hn
    by_cases hij : j = i
    · subst hij
      have heq : l.filter q = l.filter p := by
        refine List.filter_congr fun k hk => hne k ?_
        rintro rfl
        exact hj hk
      rw [List.filter_cons_of_pos hp, List.filter_cons_of_neg (by simp [hq]), heq, List.length_cons]
    · have hm : i ∈ l := (List.mem_cons.mp hi).resolve_left fun h => hij h.symm
      have := ih hn hm
      cases hpj : p j with
      | true =>
        rw [List.filter_cons_of_pos hpj, List.filter_cons_of_pos (by rw [hne j hij, hpj]),
          List.length_cons, List.length_cons, this]
      | false =>
        rw [List.filter_cons_of_neg (by simp [hpj]),
          List.filter_cons_of_neg (by simp [hne j hij, hpj]), this]

theorem State.party_update (s : State) (i j : Nat) (f : Party → Party) :
    (s.update i f).party j = if j = i then f (s.party i) else s.party j := by
  by_cases hj : j = i
  · subst hj
    simp [State.update]
  · simp [State.update, hj]

/-- A step of one party that takes nothing it has not been sent, and leaves what counts it. -/
theorem Inv.of_update (h : Inv n remote s) {i : Nat} {f : Party → Party}
    (hholds : ∀ r, (f (s.party i)).Holds r → (s.party i).Holds r)
    (hstage : (f (s.party i)).stage ≠ none → (s.party i).stage ≠ none)
    (hcons : (f (s.party i)).Consistent)
    (hagreed : (f (s.party i)).agreed = true → i ∈ s.asked ∧ (i, ⟨.success, s.round⟩) ∈ s.sent)
    (hcounted : (f (s.party i)).counted = (s.party i).counted) : Inv n remote (s.update i f) := by
  have hcount (j : Nat) : ((s.update i f).party j).counted = (s.party j).counted := by
    rw [State.party_update]
    split
    · next hj => rw [hj, hcounted]
    · rfl
  refine ⟨fun j r hr => ?_, fun j hj => ?_, fun j => ?_, fun j hj => ?_, fun todo ht => ?_, h.nodup,
    h.covers, h.safe⟩
  · rw [State.party_update] at hr
    split at hr
    · next hj => exact h.known j r (hj ▸ hholds r hr)
    · exact h.known j r hr
  · rw [State.party_update] at hj
    split at hj
    · next hji => exact h.running j (hji ▸ hstage hj)
    · exact h.running j hj
  · rw [State.party_update]
    split
    · exact hcons
    · exact h.consistent j
  · rw [State.party_update] at hj
    split at hj
    · next hji => exact hji ▸ hagreed hj
    · exact h.agreed j hj
  · simp only [hcount]
    exact h.count todo ht

theorem Inv.commit (h : Inv n remote s) {order : List Nat} {pending : Nat → Bool}
    (hi : s.phase = .idle) (ho : order.Perm (List.range n)) :
    Inv n remote { s with
      phase := .asking order, round := s.round + 1, count := 0, pending, asked := []
      party := fun i => { s.party i with agreed := false } } := by
  -- No goroutine is left over from the last validation.
  have hnone (i : Nat) : (s.party i).stage = none := by
    by_contra hr
    have := (h.running i hr).2
    rw [hi] at this
    cases this
  refine ⟨h.known, fun i hr => absurd (hnone i) hr, fun i => ?_, fun i ha => ?_, fun _ _ => rfl,
    fun todo ht => ?_, fun todo ht i hin _ _ => ?_, fun hp => ?_⟩
  · simp [Party.Consistent, Party.changing, hnone i]
  · cases ha
  · cases ht
    exact ho.nodup_iff.mpr List.nodup_range
  · cases ht
    exact .inr (ho.mem_iff.mpr (List.mem_range.mpr hin))
  · cases hp

/-- `Commit` goes on with the subscribers it has still to ask. -/
theorem Inv.phase (h : Inv n remote s) {phase : Phase} (hp : phase.todo = s.phase.todo)
    (hc : phase ≠ .committing) : Inv n remote { s with phase } := by
  refine ⟨h.known, fun j hr => ?_, h.consistent, h.agreed, fun todo ht => h.count todo (hp ▸ ht),
    fun todo ht => h.nodup todo (hp ▸ ht), fun todo ht => h.covers todo (hp ▸ ht), fun hc' => absurd hc' hc⟩
  obtain ⟨h₁, h₂⟩ := h.running j hr
  exact ⟨h₁, hp ▸ h₂⟩

theorem Inv.skip (h : Inv n remote s) {i : Nat} {todo : List Nat}
    (hp : s.phase = .asking (i :: todo)) (hi : (remote i && s.pending i) = false) :
    Inv n remote { s with phase := .asking todo } := by
  have ht : s.phase.todo = some (i :: todo) := by rw [hp]; rfl
  refine ⟨h.known, fun j hr => ⟨(h.running j hr).1, rfl⟩, h.consistent, h.agreed, fun _ _ => h.count _ ht,
    fun todo' ht' => ?_, fun todo' ht' j hj hrem hpend => ?_, fun hc => by cases hc⟩
  · cases ht'
    exact (h.nodup _ ht).sublist (List.Sublist.append_left (List.sublist_cons_self i todo) _)
  · cases ht'
    rcases h.covers _ ht j hj hrem hpend with hm | hm
    · exact .inl hm
    · rcases List.mem_cons.mp hm with rfl | hm
      · rw [hrem, hpend] at hi
        cases hi
      · exact .inr hm

theorem Inv.increment (h : Inv n remote s) {i : Nat} {count : Int} {todo : List Nat}
    (hp : s.phase = .counting i count todo) (hcount : count = s.count) :
    Inv n remote { s.update i fun p => { p with stage := some .spawned } with
      phase := .asking todo, count := count + 1, asked := s.asked ++ [i] } := by
  have ht : s.phase.todo = some (i :: todo) := by rw [hp]; rfl
  have hn := h.nodup _ ht
  have hnew : i ∉ s.asked := fun hm =>
    (List.nodup_append.mp hn).2.2 i hm i List.mem_cons_self rfl
  have hag : (s.party i).agreed = false := by
    by_contra ha
    exact hnew (h.agreed i (by simpa using ha)).1
  have hparty (j : Nat) : ((s.update i fun p => { p with stage := some .spawned }).party j).agreed =
      (s.party j).agreed := by
    rw [State.party_update]
    split
    · next hj => rw [hj]
    · rfl
  have hcounted (j : Nat) (hj : j ∈ s.asked) :
      ((s.update i fun p => { p with stage := some .spawned }).party j).counted = (s.party j).counted := by
    have hji : j ≠ i := by
      rintro rfl
      exact hnew hj
    rw [State.party_update, if_neg hji]
  refine ⟨fun j r hr => ?_, fun j hr => ?_, fun j => ?_, fun j ha => ?_, fun todo' ht' => ?_,
    fun todo' ht' => ?_, fun todo' ht' j hj hrem hpend => ?_, fun hc => by cases hc⟩
  · rw [State.party_update] at hr
    split at hr
    · next hj => exact h.known j r (hj ▸ hr)
    · exact h.known j r hr
  · rw [State.party_update] at hr
    split at hr
    · next hj =>
      subst hj
      exact ⟨List.mem_append_right _ (List.mem_singleton_self j), rfl⟩
    · exact ⟨List.mem_append_left _ (h.running j hr).1, rfl⟩
  · rw [State.party_update]
    split
    · simp [Party.Consistent, Party.changing, hag]
    · exact h.consistent j
  · rw [hparty] at ha
    exact ⟨List.mem_append_left _ (h.agreed j ha).1, (h.agreed j ha).2⟩
  · have hrest := congrArg List.length (List.filter_congr hcounted)
    have hlen : ((s.asked ++ [i]).filter fun j => ((s.update i fun p =>
        { p with stage := some .spawned }).party j).counted).length =
          (s.asked.filter fun j => (s.party j).counted).length + 1 := by
      rw [List.filter_append, List.length_append, hrest]
      simp [State.party_update, Party.counted, Party.changing, hag]
    have := h.count _ ht
    simp only [hlen]
    omega
  · cases ht'
    simpa using hn
  · cases ht'
    rcases h.covers _ ht j hj hrem hpend with hm | hm
    · exact .inl (List.mem_append_left _ hm)
    · rcases List.mem_cons.mp hm with rfl | hm
      · exact .inl (List.mem_append_right _ (List.mem_singleton_self j))
      · exact .inr hm

theorem Inv.reply (h : Inv n remote s) (i : Nat) (r : Reply) :
    Inv n remote { s.update i fun p => { p with stream := p.stream ++ [r] } with
      sent := s.sent ++ [(i, r)] } := by
  have hparty (j : Nat) : ((s.update i fun p => { p with stream := p.stream ++ [r] }).party j).stage =
      (s.party j).stage ∧ ((s.update i fun p => { p with stream := p.stream ++ [r] }).party j).agreed =
      (s.party j).agreed := by
    rw [State.party_update]
    split
    · next hj => rw [hj]; exact ⟨rfl, rfl⟩
    · exact ⟨rfl, rfl⟩
  refine ⟨fun j r' hr => ?_, fun j hr => ?_, fun j => ?_, fun j ha => ?_, fun todo ht => ?_, h.nodup,
    h.covers, fun hc j hj hrem hpend => List.mem_append_left _ (h.safe hc j hj hrem hpend)⟩
  · rw [State.party_update] at hr
    split at hr
    · next hj =>
      subst hj
      rcases hr with hr | hr
      · rcases List.mem_append.mp hr with hr | hr
        · exact List.mem_append_left _ (h.known j r' (.inl hr))
        · rw [List.mem_singleton.mp hr]
          exact List.mem_append_right _ (List.mem_singleton_self _)
      · exact List.mem_append_left _ (h.known j r' (.inr hr))
    · exact List.mem_append_left _ (h.known j r' hr)
  · rw [(hparty j).1] at hr
    exact h.running j hr
  · rw [Party.Consistent, Party.fresh, Party.changing, (hparty j).1, (hparty j).2]
    exact h.consistent j
  · rw [(hparty j).2] at ha
    exact ⟨(h.agreed j ha).1, List.mem_append_left _ (h.agreed j ha).2⟩
  · simp only [Party.counted, Party.changing, fun j => (hparty j).1, fun j => (hparty j).2]
    exact h.count todo ht

/-- The goroutine gets a reply that answers its own validation. -/
theorem Inv.handOver (h : Inv n remote s) {i : Nat} {r : Reply}
    (hw : (s.party i).stage = some .waiting) (hs : (s.party i).sending = some r)
    (hr : r.answers = s.round) : Inv n remote (s.update i (Party.take r)) := by
  have hag : (s.party i).agreed = false := (h.consistent i).1 (by simp [Party.fresh, hw])
  have hstage : (s.party i).stage ≠ none := by rw [hw]; exact Option.some_ne_none _
  refine h.of_update (fun r' hr' => ?_) (fun _ => hstage) ?_ (fun ha => ?_) ?_
  · rcases hr' with hr' | hr' | hr'
    · exact .inl hr'
    · exact .inr (.inl hr')
    · cases hr'
  · by_cases hsucc : r.typ = .success <;>
      simp [Party.Consistent, Party.fresh, Party.changing, Party.take, hsucc]
  · obtain ⟨typ, answers⟩ := r
    simp only [Party.take, decide_eq_true_eq] at ha hr
    subst ha hr
    exact ⟨(h.running i hstage).1, h.known i _ (.inr (.inr hs))⟩
  · by_cases hsucc : r.typ = .success <;> simp [Party.counted, Party.changing, Party.take, hag, hsucc]

/-- The goroutine writes `ValidateCount` over the number it has read. -/
theorem Inv.decrement (h : Inv n remote s) {i : Nat} {count : Int}
    (hl : (s.party i).stage = some (.loaded count)) (hcount : count = s.count) :
    Inv n remote { s.update i fun p => { p with stage := some .leaving } with count := count - 1 } := by
  have hstage : (s.party i).stage ≠ none := by rw [hl]; exact Option.some_ne_none _
  obtain ⟨hi, htodo⟩ := h.running i hstage
  have hag : (s.party i).agreed = true := (h.consistent i).2 (by simp [Party.changing, hl])
  refine ⟨fun j r hr => ?_, fun j hj => ?_, fun j => ?_, fun j ha => ?_, fun todo ht => ?_, h.nodup,
    h.covers, fun hc => ?_⟩
  · rw [State.party_update] at hr
    split at hr
    · next hj => exact h.known j r (hj ▸ hr)
    · exact h.known j r hr
  · rw [State.party_update] at hj
    split at hj
    · next hji =>
      subst hji
      exact ⟨hi, htodo⟩
    · exact h.running j hj
  · rw [State.party_update]
    split
    · simp [Party.Consistent, Party.fresh, Party.changing]
    · exact h.consistent j
  · rw [State.party_update] at ha
    split at ha
    · next hji => exact hji ▸ h.agreed i ha
    · exact h.agreed j ha
  · have := h.count todo ht
    have hnd := (List.nodup_append.mp (h.nodup todo ht)).1
    have hlen := length_filter_counted hnd hi (p := fun j => (s.party j).counted)
      (q := fun j => ((s.update i fun p => { p with stage := some .leaving }).party j).counted)
      (by simp [Party.counted, Party.changing, hl])
      (by simp [State.party_update, Party.counted, Party.changing, hag])
      fun j hj => by simp [State.party_update, hj]
    have hasked : (s.update i fun p => { p with stage := some .leaving }).asked = s.asked := rfl
    simp only [hasked]
    omega
  · have hc' : s.phase = .committing := hc
    rw [hc'] at htodo
    cases htodo

/-- The goroutines are done, and all subscribers asked have agreed or not. -/
theorem Inv.result (h : Inv n remote s) (hp : s.phase = .asking [])
    (hs : ∀ i ∈ s.asked, (s.party i).stage = none) :
    Inv n remote { s with phase := if s.count = 0 then .committing else .idle } := by
  have hnone : Phase.todo (if s.count = 0 then .committing else .idle) = none := by split <;> rfl
  have ht₀ : s.phase.todo = some [] := by rw [hp]; rfl
  refine ⟨h.known, fun i hr => ?_, h.consistent, h.agreed, fun todo ht => ?_, fun todo ht => ?_,
    fun todo ht => ?_, fun hc i hi hrem hpend => ?_⟩
  · exact absurd (hs i (h.running i hr).1) hr
  · rw [hnone] at ht
    cases ht
  · rw [hnone] at ht
    cases ht
  · rw [hnone] at ht
    cases ht
  · by_cases hz : s.count = 0
    · have hasked := (h.covers _ ht₀ i hi hrem hpend).resolve_right List.not_mem_nil
      have hlen : (s.asked.filter fun i => (s.party i).counted).length = 0 := by
        have := h.count _ ht₀
        omega
      have hcounted := List.filter_eq_nil_iff.mp (List.eq_nil_of_length_eq_zero hlen) i hasked
      have hagreed : (s.party i).agreed = true := by
        simpa [Party.counted, Party.changing, hs i hasked] using hcounted
      exact (h.agreed i hagreed).2
    · simp only [hz, if_false] at hc
      cases hc

theorem Inv.committed (h : Inv n remote s) (hp : s.phase = .committing) :
    Inv n remote { s with phase := .idle } := by
  refine ⟨h.known, fun i hr => ?_, h.consistent, h.agreed, fun todo ht => ?_, fun todo ht => ?_,
    fun todo ht => ?_, fun hc => by cases hc⟩
  · have := (h.running i hr).2
    rw [hp] at this
    cases this
  all_goals cases ht

/-- A step of a goroutine that has a reply or waits for one. -/
theorem Inv.stage (h : Inv n remote s) {i : Nat} {stage : Stage} {f : Party → Party}
    (hst : (s.party i).stage = some stage) (hholds : ∀ r, (f (s.party i)).Holds r → (s.party i).Holds r)
    (hagreed : (f (s.party i)).agreed = (s.party i).agreed)
    (hfresh : (f (s.party i)).fresh = true → (s.party i).fresh = true)
    (hchanging : (f (s.party i)).changing = (s.party i).changing) : Inv n remote (s.update i f) := by
  refine h.of_update hholds (fun _ => by rw [hst]; exact Option.some_ne_none _) ?_ (fun ha => ?_) ?_
  · rw [Party.Consistent, hagreed, hchanging]
    exact ⟨fun hf => (h.consistent i).1 (hfresh hf), (h.consistent i).2⟩
  · exact h.agreed i (hagreed ▸ ha)
  · rw [Party.counted, Party.counted, hagreed, hchanging]

/-- A step of `DoConfig`, or of a goroutine that has left. -/
theorem Inv.channel (h : Inv n remote s) {i : Nat} {f : Party → Party}
    (hholds : ∀ r, (f (s.party i)).Holds r → (s.party i).Holds r)
    (hagreed : (f (s.party i)).agreed = (s.party i).agreed)
    (hstage : (f (s.party i)).stage = (s.party i).stage) : Inv n remote (s.update i f) := by
  have hfresh : (f (s.party i)).fresh = (s.party i).fresh := by rw [Party.fresh, hstage, Party.fresh]
  have hchanging : (f (s.party i)).changing = (s.party i).changing := by
    rw [Party.changing, hstage, Party.changing]
  refine h.of_update hholds (fun hne => hstage ▸ hne) ?_ (fun ha => h.agreed i (hagreed ▸ ha)) ?_
  · rw [Party.Consistent, hagreed, hfresh, hchanging]
    exact h.consistent i
  · rw [Party.counted, Party.counted, hagreed, hchanging]

/-- An orderly step. -/
theorem Inv.step (h : Inv n remote s) {a : Action} (ha : a.orderly s = true)
    (hs : s.step n remote a = some s') : Inv n remote s' := by
  cases a with
  | commit order pending =>
    simp only [State.step] at hs
    split at hs
    · rename_i hg
      cases hs
      exact h.commit hg.1 hg.2
    · cases hs
  | ask =>
    simp only [State.step] at hs
    split at hs
    · rename_i i todo hp
      split at hs
      · cases hs
        exact h.phase (by rw [hp]; rfl) (by simp)
      · rename_i hi
        cases hs
        exact h.skip hp (by simpa using hi)
    · cases hs
  | increment =>
    simp only [State.step] at hs
    split at hs
    · rename_i i count todo hp
      cases hs
      exact h.increment hp (by simpa [Action.orderly, hp] using ha)
    · cases hs
  | start i =>
    simp only [State.step] at hs
    split at hs
    · rename_i hst
      cases hs
      refine h.stage hst (fun r hr => ?_) rfl (fun _ => by simp [Party.fresh, hst])
        (by simp [Party.changing, hst])
      rcases hr with hr | hr | hr
      · exact .inl hr
      · exact .inr (.inl hr)
      · cases hr
    · cases hs
  | sendEnd i =>
    simp only [State.step] at hs
    split at hs
    · rename_i hst
      cases hs
      exact h.stage hst (fun _ hr => hr) rfl (fun _ => by simp [Party.fresh, hst])
        (by simp [Party.changing, hst])
    · cases hs
  | reply i r =>
    simp only [State.step] at hs
    split at hs
    · cases hs
      exact h.reply i r
    · cases hs
  | receive i =>
    simp only [State.step] at hs
    split at hs
    · rename_i r stream hch hse _ hstr
      cases hs
      refine h.channel (fun r' hr => .inl ?_) rfl rfl
      rw [hstr]
      rcases hr with hr | hr | hr
      · exact List.mem_cons_of_mem _ hr
      · simp only at hr
        split at hr <;> cases hr
        exact List.mem_cons_self
      · simp only [hse] at hr
        cases hr
    · cases hs
  | send i =>
    simp only [State.step] at hs
    split at hs
    · rename_i r hch
      split at hs
      · cases hs
        refine h.channel (fun r' hr => ?_) rfl rfl
        rcases hr with hr | hr | hr
        · exact .inl hr
        · cases hr
        · exact .inr (.inl (hch.trans hr))
      · cases hs
        refine h.channel (fun r' hr => ?_) rfl rfl
        rcases hr with hr | hr | hr
        · exact .inl hr
        · cases hr
        · exact .inr (.inr hr)
    · cases hs
  | handOver i =>
    simp only [State.step] at hs
    split at hs
    · rename_i r hw hsend
      cases hs
      exact h.handOver hw hsend (by simpa [Action.orderly, hsend] using ha)
    · cases hs
  | load i =>
    simp only [State.step] at hs
    split at hs
    · rename_i hst
      cases hs
      exact h.stage hst (fun _ hr => hr) rfl (fun hf => by cases hf) (by simp [Party.changing, hst])
    · cases hs
  | decrement i =>
    simp only [State.step] at hs
    split at hs
    · rename_i count hl
      cases hs
      exact h.decrement hl (by simpa [Action.orderly, hl] using ha)
    · cases hs
  | timeout i =>
    simp only [State.step] at hs
    split at hs
    · rename_i hst
      cases hs
      exact h.stage hst (fun _ hr => hr) rfl (fun hf => by cases hf) (by simp [Party.changing, hst])
    · cases hs
  | leave i =>
    simp only [State.step] at hs
    split at hs
    · rename_i hst
      cases hs
      exact h.stage hst (fun _ hr => hr) rfl (fun hf => by cases hf) (by simp [Party.changing, hst])
    · cases hs
  | close i =>
    simp only [State.step] at hs
    split at hs
    · cases hs
      exact h.channel (fun _ hr => hr) rfl rfl
    · cases hs
  | result =>
    simp only [State.step] at hs
    split at hs
    · rename_i hg
      cases hs
      exact h.result hg.1 hg.2
    · cases hs
  | committed =>
    simp only [State.step] at hs
    split at hs
    · rename_i hp
      cases hs
      exact h.committed hp
    · cases hs

/-- Every reply of the run is handed over to the validation it answers, if at all, and no change of
`ValidateCount` is lost. -/
def orderlyRun (n : Nat) (remote : Nat → Bool) : State → List Action → Bool
  | _, [] => true
  | s, a :: as =>
    a.orderly s && match s.step n remote a with
      | none => true
      | some s' => orderlyRun n remote s' as

theorem Inv.run (h : Inv n remote s) {as : List Action} (ht : orderlyRun n remote s as = true)
    (hr : s.run n remote as = some s') : Inv n remote s' := by
  induction as generalizing s with
  | nil =>
    cases hr
    exact h
  | cons a as ih =>
    obtain ⟨s₁, hs, hr⟩ := Option.bind_eq_some_iff.mp hr
    rw [orderlyRun, hs, Bool.and_eq_true] at ht
    exact ih (h.step ht.1 hs) ht.2 hr

/-- Runs that hand every reply over to the validation it answers and lose no change of
`ValidateCount`: the commit phase is reached only when every remote subscriber with pending commands
has answered the `VALIDATE_END` of this very commit with success. -/
theorem agreement {as : List Action} {s : State} (ht : orderlyRun n remote {} as = true)
    (hr : State.run n remote {} as = some s) (hp : s.phase = .committing) : s.Agreed n remote :=
  (Inv.init.run ht hr).safe hp

/-- A subscriber is asked, its timer fires, and it answers late: the next commit takes
the answer for its own. -/
def lateReply : List Action :=
  [.commit [0] fun _ => true, .ask, .increment, .start 0, .sendEnd 0, .timeout 0, .leave 0, .close 0,
    .result, .reply 0 ⟨.success, 1⟩,
    .commit [0] fun _ => true, .ask, .increment, .start 0, .sendEnd 0, .receive 0, .send 0, .handOver 0,
    .load 0, .decrement 0, .leave 0, .result]

/-- The first of two subscribers agrees while the second is asked: its goroutine reads
`ValidateCount` before the loop writes it, and writes it after. The second refuses. -/
def lostIncrement : List Action :=
  [.commit [0, 1] fun _ => true, .ask, .increment, .start 0, .sendEnd 0, .reply 0 ⟨.success, 1⟩,
    .receive 0, .send 0, .handOver 0, .ask, .load 0, .increment, .decrement 0, .leave 0, .close 0,
    .start 1, .sendEnd 1, .reply 1 ⟨.failed, 1⟩, .receive 1, .send 1, .handOver 1, .leave 1, .result]

theorem agreement_late :
    (∃ s, State.run 1 (fun _ => true) {} lateReply = some s ∧
      s.phase = .committing ∧ ¬ s.Agreed 1 fun _ => true) ∧
    ∃ s, State.run 2 (fun _ => true) {} lostIncrement = some s ∧
      s.phase = .committing ∧ ¬ s.Agreed 2 fun _ => true := by
  constructor
  · obtain ⟨s, hs, hp⟩ := Option.map_eq_some_iff.mp (show
      (State.run 1 (fun _ => true) {} lateReply).map (fun s => (s.phase, s.round, s.pending 0, s.sent)) =
        some (.committing, 2, true, [(0, ⟨.success, 1⟩)]) by decide)
    simp only [Prod.mk.injEq] at hp
    obtain ⟨hphase, hround, hpend, hsent⟩ := hp
    refine ⟨s, hs, hphase, fun h => ?_⟩
    have := h 0 (by decide) rfl hpend
    rw [hround, hsent] at this
    exact absurd this (by decide)
  · obtain ⟨s, hs, hp⟩ := Option.map_eq_some_iff.mp (show
      (State.run 2 (fun _ => true) {} lostIncrement).map (fun s => (s.phase, s.round, s.pending 1, s.sent)) =
        some (.committing, 1, true, [(0, ⟨.success, 1⟩), (1, ⟨.failed, 1⟩)]) by decide)
    simp only [Prod.mk.injEq] at hp
    obtain ⟨hphase, hround, hpend, hsent⟩ := hp
    refine ⟨s, hs, hphase, fun h => ?_⟩
    have := h 1 (by decide) rfl hpend
    rw [hround, hsent] at this
    exact absurd this (by decide)

/-- Two subscribers answer in time, the first while the second is asked. -/
def orderlyReplies : List Action :=
  [.commit [0, 1] fun _ => true, .ask, .increment, .start 0, .sendEnd 0, .reply 0 ⟨.success, 1⟩,
    .receive 0, .send 0, .handOver 0, .load 0, .decrement 0, .ask, .increment, .leave 0, .start 1,
    .sendEnd 1, .reply 1 ⟨.success, 1⟩, .receive 1, .send 1, .handOver 1, .load 1, .decrement 1,
    .leave 1, .close 1, .close 0, .result]

theorem agreement_timely : ∃ s, State.run 2 (fun _ => true) {} orderlyReplies = some s ∧
    s.phase = .committing ∧ (0, ⟨.success, 1⟩) ∈ s.sent ∧ (1, ⟨.success, 1⟩) ∈ s.sent := by
  obtain ⟨s, hs, hp⟩ := Option.map_eq_some_iff.mp (show
    (State.run 2 (fun _ => true) {} orderlyReplies).map
      (fun s => (s.phase, s.round, s.pending 0, s.pending 1)) = some (.committing, 1, true, true) by decide)
  simp only [Prod.mk.injEq] at hp
  obtain ⟨hphase, hround, hpend₀, hpend₁⟩ := hp
  have ht : orderlyRun 2 (fun _ => true) {} orderlyReplies = true := by decide
  have h := agreement ht hs hphase
  rw [State.Agreed, hround] at h
  exact ⟨s, hs, hphase, h 0 (by decide) rfl hpend₀, h 1 (by decide) rfl hpend₁⟩

end OpenConfigd.TwoPhase
