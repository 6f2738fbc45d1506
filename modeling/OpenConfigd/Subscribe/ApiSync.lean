import Mathlib.Logic.Function.Basic
import OpenConfigd.Lib.Runs

/-!
# Waiting for the subscribers

`(*Subscriber).Commit` makes the channel `ApiSyncCh`, sends the commands and waits
until the channel is closed or twenty seconds have passed; `DoConfig` of any stream
closes the channel on an `API_CALL_FINISHED`. The message says neither who sent it
nor which commit it is for; here it carries the number of the commit, for the
statements only. `api_sync`: when every message that meets a channel is the first
one of the subscriber being committed for this commit, the channel is closed once
and the wait ends by that message.
-/

namespace OpenConfigd.ApiSync

/-- `ApiSyncCh`. -/
inductive Chan where
  | nil | opened | closed
  deriving DecidableEq, Repr

/-- Where `(*Subscriber).Commit` is: not running for a remote subscriber, before
`COMMIT_END`, in the select, and after it. -/
inductive Phase where
  | idle
  | sending (i : Nat)
  | waiting (i : Nat)
  | over (i : Nat)
  deriving DecidableEq, Repr

/-- The subscriber being committed, as long as the select is not over. -/
def Phase.pending : Phase → Option Nat
  | .sending i | .waiting i => some i
  | .idle | .over _ => none

/-- A remote subscriber. -/
structure Party where
  /-- The commits whose `COMMIT_START` it was sent. -/
  started : List Nat := []
  /-- Its `API_CALL_FINISHED` in flight, with the commit each is for. -/
  stream : List Nat := []
  /-- The message for which its `DoConfig` has seen a channel, and not closed it yet. -/
  closing : Option Nat := none

/-- How the wait for a subscriber ended: the commit, and who sent the message that closed
the channel and for which commit, `none` for the timeout. -/
structure Wake where
  sub : Nat
  round : Nat
  message : Option (Nat × Nat)
  deriving DecidableEq, Repr

/-- The state of the system. -/
structure State where
  phase : Phase := .idle
  /-- The number of this commit. -/
  round : Nat := 0
  ch : Chan := .nil
  /-- How often the channel has been closed since it was made. -/
  closes : Nat := 0
  /-- The message it was closed for. -/
  closer : Option (Nat × Nat) := none
  party : Nat → Party := fun _ => {}
  /-- All messages the subscribers have sent. -/
  sent : List (Nat × Nat) := []
  wakes : List Wake := []
  panicked : Bool := false

/-- A step of one of the goroutines, or of a subscriber. -/
inductive Action where
  /-- `(*Subscriber).Commit` of a remote subscriber with commands, up to `COMMIT_START`. -/
  | commit (i : Nat)
  /-- The commands and `COMMIT_END` are sent. -/
  | commitEnd
  /-- The subscriber sends an `API_CALL_FINISHED`. -/
  | send (i : Nat) (round : Nat)
  /-- `DoConfig` gets the message and looks at `ApiSyncCh`. -/
  | receive (i : Nat)
  /-- `close(ApiSyncCh)`. -/
  | close (i : Nat)
  /-- The select gets the closed channel. -/
  | wake
  /-- The select gets the timeout. -/
  | timeout
  /-- `ApiSyncCh = nil`. -/
  | reset

namespace State

/-- The state with one of the subscribers changed. -/
def update (s : State) (i : Nat) (f : Party → Party) : State :=
  { s with party := Function.update s.party i (f (s.party i)) }

/-- A step; `none` when it is not enabled. -/
def step (s : State) (a : Action) : Option State :=
  if s.panicked then none
  else
    match a with
    | .commit i =>
      if s.phase = .idle then
        some { s.update i fun p => { p with started := p.started ++ [s.round + 1] } with
          phase := .sending i, round := s.round + 1, ch := .opened, closes := 0, closer := none }
      else none
    | .commitEnd =>
      match s.phase with
      | .sending i => some { s with phase := .waiting i }
      | _ => none
    | .send i r =>
      if r ∈ (s.party i).started then
        some { s.update i fun p => { p with stream := p.stream ++ [r] } with
          sent := s.sent ++ [(i, r)] }
      else none
    | .receive i =>
      match (s.party i).closing, (s.party i).stream with
      | none, r :: stream =>
        some (s.update i fun p =>
          { p with stream, closing := if s.ch = .nil then none else some r })
      | _, _ => none
    | .close i =>
      match (s.party i).closing with
      | none => none
      | some r =>
        let s := s.update i fun p => { p with closing := none }
        -- Closing a closed channel panics, and so does closing a nil one.
        if s.ch = .opened then
          some { s with ch := .closed, closes := s.closes + 1, closer := some (i, r) }
        else some { s with closes := s.closes + 1, panicked := true }
    | .wake =>
      match s.phase with
      | .waiting i =>
        if s.ch = .closed then
          some { s with phase := .over i, wakes := s.wakes ++ [⟨i, s.round, s.closer⟩] }
        else none
      | _ => none
    | .timeout =>
      match s.phase with
      | .waiting i => some { s with phase := .over i, wakes := s.wakes ++ [⟨i, s.round, none⟩] }
      | _ => none
    | .reset =>
      match s.phase with
      | .over _ => some { s with phase := .idle, ch := .nil }
      | _ => none

/-- A message that meets a channel is the first one to do so, of the subscriber being
committed and for this commit, and the wait does not time out between `DoConfig` looking
at the channel and closing it. -/
def timely (s : State) : Action → Bool
  | .receive i =>
    s.ch = .nil || (s.ch = .opened && s.phase.pending = some i && (s.party i).closing.isNone &&
      (s.party i).stream.head? = some s.round)
  | .timeout => s.phase.pending.all fun i => (s.party i).closing.isNone
  | _ => true

end State

variable {s s' : State}

/-- What holds between the steps of such runs. -/
structure Inv (s : State) : Prop where
  safe : s.panicked = false
  once : s.closes ≤ 1
  idle : s.phase = .idle ↔ s.ch = .nil
  opened : s.ch = .opened → s.closes = 0
  known : ∀ j, ∀ r ∈ (s.party j).stream, (j, r) ∈ s.sent
  closing : ∀ j r, (s.party j).closing = some r →
    s.phase.pending = some j ∧ r = s.round ∧ s.ch = .opened ∧ (j, r) ∈ s.sent
  closed : s.ch = .closed → ∃ i, (s.phase.pending = some i ∨ s.phase = .over i) ∧
    s.closer = some (i, s.round) ∧ (i, s.round) ∈ s.sent
  wakes : ∀ w ∈ s.wakes, w.message = none ∨
    w.message = some (w.sub, w.round) ∧ (w.sub, w.round) ∈ s.sent

theorem Inv.init : Inv {} := by
  refine ⟨rfl, Nat.zero_le 1, by simp, by simp, by simp, by simp, by simp, by simp⟩

/-- No `DoConfig` is about to close the channel when nobody waits for it. -/
theorem Inv.none_closing (h : Inv s) (hp : s.phase.pending = none) (j : Nat) :
    (s.party j).closing = none := by
  cases hc : (s.party j).closing with
  | none => rfl
  | some r =>
    obtain ⟨hj, -⟩ := h.closing j r hc
    rw [hp] at hj
    cases hj

theorem party_update (s : State) (i : Nat) (f : Party → Party) (j : Nat) :
    (s.update i f).party j = if j = i then f (s.party j) else s.party j := by
  by_cases hj : j = i
  · subst hj
    rw [if_pos rfl]
    exact Function.update_self ..
  · rw [if_neg hj]
    exact Function.update_of_ne hj ..

theorem Inv.commit (h : Inv s) {i : Nat} (hs : s.step (.commit i) = some s') : Inv s' := by
  simp only [State.step, h.safe, Bool.false_eq_true, if_false] at hs
  split at hs
  · next hidle =>
    obtain rfl := Option.some.inj hs
    have hnone := h.none_closing (by rw [hidle]; rfl)
    refine ⟨h.safe, Nat.zero_le 1, by simp, fun _ => rfl, ?_, ?_, by simp, h.wakes⟩
    · intro j r hr
      refine h.known j r ?_
      rw [party_update] at hr
      split at hr <;> exact hr
    · intro j r hr
      rw [party_update] at hr
      have : (s.party j).closing = some r := by split at hr <;> exact hr
      rw [hnone j] at this
      cases this
  · cases hs

theorem Inv.commitEnd (h : Inv s) (hs : s.step .commitEnd = some s') : Inv s' := by
  simp only [State.step, h.safe, Bool.false_eq_true, if_false] at hs
  split at hs
  · next i hp =>
    obtain rfl := Option.some.inj hs
    have hidle := h.idle
    rw [hp] at hidle
    refine ⟨rfl, h.once, by simpa using hidle, h.opened, h.known, ?_, ?_, h.wakes⟩
    · intro j r hr
      have := h.closing j r hr
      rw [hp] at this
      exact this
    · intro hc
      have := h.closed hc
      rw [hp] at this
      obtain ⟨j, hj, hrest⟩ := this
      refine ⟨j, ?_, hrest⟩
      rcases hj with hj | hj
      · exact .inl hj
      · cases hj
  · cases hs

theorem Inv.send (h : Inv s) {i r : Nat} (hs : s.step (.send i r) = some s') : Inv s' := by
  simp only [State.step, h.safe, Bool.false_eq_true, if_false] at hs
  split at hs
  · obtain rfl := Option.some.inj hs
    have hmono {x : Nat × Nat} (hx : x ∈ s.sent) : x ∈ s.sent ++ [(i, r)] :=
      List.mem_append_left _ hx
    refine ⟨h.safe, h.once, h.idle, h.opened, ?_, ?_, ?_, ?_⟩
    · intro j k hk
      rw [party_update] at hk
      split at hk
      · next hj =>
        rcases List.mem_append.mp hk with hk | hk
        · exact hmono (h.known j k hk)
        · rw [List.mem_singleton.mp hk, hj]
          exact List.mem_append_right _ (List.mem_singleton_self _)
      · exact hmono (h.known j k hk)
    · intro j k hk
      rw [party_update] at hk
      have hk : (s.party j).closing = some k := by split at hk <;> exact hk
      obtain ⟨h1, h2, h3, h4⟩ := h.closing j k hk
      exact ⟨h1, h2, h3, hmono h4⟩
    · intro hc
      obtain ⟨j, h1, h2, h3⟩ := h.closed hc
      exact ⟨j, h1, h2, hmono h3⟩
    · intro w hw
      exact (h.wakes w hw).imp_right fun hm => ⟨hm.1, hmono hm.2⟩
  · cases hs

/-- A message that meets a channel is the one that is waited for. -/
theorem Inv.receive (h : Inv s) {i : Nat} (ht : s.timely (.receive i) = true)
    (hs : s.step (.receive i) = some s') : Inv s' := by
  simp only [State.step, h.safe, Bool.false_eq_true, if_false] at hs
  split at hs
  · next r stream hc hst =>
    obtain rfl := Option.some.inj hs
    refine ⟨h.safe, h.once, h.idle, h.opened, ?_, ?_, h.closed, h.wakes⟩
    · intro j k hk
      rw [party_update] at hk
      refine h.known j k ?_
      split at hk
      · next hj =>
        subst hj
        rw [hst]
        exact List.mem_cons_of_mem _ hk
      · exact hk
    · intro j k hk
      rw [party_update] at hk
      split at hk
      · next hj =>
        subst hj
        have hk : (if s.ch = .nil then none else some r) = some k := hk
        split at hk
        · cases hk
        · next hch =>
          obtain rfl := Option.some.inj hk
          simp only [State.timely, hst, hch, decide_false, Bool.false_or, Bool.and_eq_true,
            decide_eq_true_eq, List.head?_cons, Option.some.injEq] at ht
          obtain ⟨⟨⟨hopen, hp⟩, -⟩, hround⟩ := ht
          refine ⟨hp, hround, hopen, h.known j r ?_⟩
          rw [hst]
          exact List.mem_cons_self
      · exact h.closing j k hk
  · cases hs

theorem Inv.close (h : Inv s) {i : Nat} (hs : s.step (.close i) = some s') : Inv s' := by
  simp only [State.step, h.safe, Bool.false_eq_true, if_false] at hs
  split at hs
  · cases hs
  · next r hc =>
    obtain ⟨hp, rfl, hopen, hsent⟩ := h.closing i r hc
    have hch : (s.update i fun p => { p with closing := none }).ch = .opened := hopen
    have hidle := h.idle
    rw [hopen] at hidle
    rw [if_pos hch] at hs
    obtain rfl := Option.some.inj hs
    have hzero := h.opened hopen
    refine ⟨h.safe, ?_, ?_, by simp, ?_, ?_, ?_, h.wakes⟩
    · show s.closes + 1 ≤ 1
      omega
    · show s.phase = .idle ↔ Chan.closed = .nil
      simpa using hidle
    · intro j k hk
      rw [party_update] at hk
      refine h.known j k ?_
      split at hk <;> exact hk
    · intro j k hk
      rw [party_update] at hk
      split at hk
      · cases hk
      · next hj =>
        obtain ⟨hp', -⟩ := h.closing j k hk
        rw [hp] at hp'
        exact absurd (Option.some.inj hp').symm hj
    · intro _
      exact ⟨i, .inl hp, rfl, hsent⟩

theorem Inv.wake (h : Inv s) (hs : s.step .wake = some s') : Inv s' := by
  simp only [State.step, h.safe, Bool.false_eq_true, if_false] at hs
  split at hs
  · next i hp =>
    split at hs
    · next hch =>
      obtain rfl := Option.some.inj hs
      obtain ⟨j, hj, hcloser, hsent⟩ := h.closed hch
      have hj : i = j := by
        rw [hp] at hj
        rcases hj with hj | hj
        · exact Option.some.inj hj
        · cases hj
      subst hj
      refine ⟨rfl, h.once, by simp [hch], h.opened, h.known, ?_, ?_, ?_⟩
      · intro j k hk
        have hopen := (h.closing j k hk).2.2.1
        rw [hch] at hopen
        cases hopen
      · intro _
        exact ⟨i, .inr rfl, hcloser, hsent⟩
      · intro w hw
        rcases List.mem_append.mp hw with hw | hw
        · exact h.wakes w hw
        · rw [List.mem_singleton.mp hw]
          exact .inr ⟨hcloser, hsent⟩
    · cases hs
  · cases hs

theorem Inv.timeout (h : Inv s) (ht : s.timely .timeout = true)
    (hs : s.step .timeout = some s') : Inv s' := by
  simp only [State.step, h.safe, Bool.false_eq_true, if_false] at hs
  split at hs
  · next i hp =>
    obtain rfl := Option.some.inj hs
    have hidle := h.idle
    rw [hp] at hidle
    rw [State.timely, hp] at ht
    refine ⟨rfl, h.once, by simpa using hidle, h.opened, h.known, ?_, ?_, ?_⟩
    · intro j k hk
      have hj := (h.closing j k hk).1
      rw [hp] at hj
      obtain rfl : i = j := Option.some.inj hj
      have : (s.party i).closing.isNone = true := ht
      rw [hk] at this
      cases this
    · intro hc
      obtain ⟨j, hj, hrest⟩ := h.closed hc
      rw [hp] at hj
      refine ⟨j, .inr ?_, hrest⟩
      rcases hj with hj | hj
      · rw [Option.some.inj hj]
      · cases hj
    · intro w hw
      rcases List.mem_append.mp hw with hw | hw
      · exact h.wakes w hw
      · rw [List.mem_singleton.mp hw]
        exact .inl rfl
  · cases hs

theorem Inv.reset (h : Inv s) (hs : s.step .reset = some s') : Inv s' := by
  simp only [State.step, h.safe, Bool.false_eq_true, if_false] at hs
  split at hs
  · next i hp =>
    obtain rfl := Option.some.inj hs
    have hnone := h.none_closing (by rw [hp]; rfl)
    refine ⟨rfl, h.once, by simp, by simp, h.known, ?_, by simp, h.wakes⟩
    intro j k hk
    rw [hnone j] at hk
    cases hk
  · cases hs

theorem Inv.step (s : State) (a : Action) (s' : State) (h : Inv s) (ht : s.timely a = true)
    (hs : s.step a = some s') : Inv s' := by
  cases a with
  | commit i => exact h.commit hs
  | commitEnd => exact h.commitEnd hs
  | send i r => exact h.send hs
  | receive i => exact h.receive ht hs
  | close i => exact h.close hs
  | wake => exact h.wake hs
  | timeout => exact h.timeout ht hs
  | reset => exact h.reset hs

/-- In every run in which each message that meets a channel is the first one to do so, of the
subscriber being committed and for this commit, and no wait times out while `DoConfig` is
about to close the channel: the channel is closed at most once, no close panics, and every
wait ends by the timeout or by a message of its own subscriber for its own commit. -/
theorem api_sync {as : List Action} (ht : Runs.meets State.step State.timely {} as = true)
    (hr : Runs.run State.step {} as = some s) :
    s.closes ≤ 1 ∧ s.panicked = false ∧
    ∀ w ∈ s.wakes, w.message = none ∨
      w.message = some (w.sub, w.round) ∧ (w.sub, w.round) ∈ s.sent := by
  have hinv := Runs.run_invariant Inv.step Inv.init ht hr
  exact ⟨hinv.once, hinv.safe, hinv.wakes⟩

/-- A commit, answered in time, and a second answer that finds no channel. -/
def answered : List Action :=
  [.commit 0, .commitEnd, .send 0 1, .send 0 1, .receive 0, .close 0, .wake, .reset, .receive 0]

theorem api_sync_answered : ∃ s, Runs.run State.step {} answered = some s ∧
    s.wakes = [⟨0, 1, some (0, 1)⟩] ∧ s.closes ≤ 1 ∧ s.panicked = false := by
  obtain ⟨s, hs, hw⟩ := Option.map_eq_some_iff.mp (show
    (Runs.run State.step {} answered).map (fun s => s.wakes) = some [⟨0, 1, some (0, 1)⟩] by
      decide)
  have ht : Runs.meets State.step State.timely {} answered = true := by decide
  obtain ⟨hle, hsafe, -⟩ := api_sync ht hs
  exact ⟨s, hs, hw, hle, hsafe⟩

/-- A second answer to one commit closes the channel again, and an answer that comes after
its timeout ends the wait for another subscriber. -/
theorem api_sync_late :
    (∃ s, Runs.run State.step {} [.commit 0, .commitEnd, .send 0 1, .send 0 1, .receive 0, .close 0,
        .receive 0, .close 0] = some s ∧ s.closes = 2 ∧ s.panicked = true) ∧
    ∃ s, Runs.run State.step {} [.commit 0, .commitEnd, .timeout, .reset, .send 0 1,
        .commit 1, .commitEnd, .receive 0, .close 0, .wake] = some s ∧
      ⟨1, 2, some (0, 1)⟩ ∈ s.wakes := by
  constructor
  · obtain ⟨s, hs, hx⟩ := Option.map_eq_some_iff.mp (show
      (Runs.run State.step {} [.commit 0, .commitEnd, .send 0 1, .send 0 1, .receive 0, .close 0,
        .receive 0, .close 0]).map (fun s => (s.closes, s.panicked)) = some (2, true) by
        decide)
    simp only [Prod.mk.injEq] at hx
    exact ⟨s, hs, hx⟩
  · obtain ⟨s, hs, hw⟩ := Option.map_eq_some_iff.mp (show
      (Runs.run State.step {} [.commit 0, .commitEnd, .timeout, .reset, .send 0 1, .commit 1,
        .commitEnd, .receive 0, .close 0, .wake]).map (fun s => s.wakes) =
        some [⟨0, 1, none⟩, ⟨1, 2, some (0, 1)⟩] by decide)
    refine ⟨s, hs, ?_⟩
    rw [hw]
    exact List.mem_cons_of_mem _ List.mem_cons_self

end OpenConfigd.ApiSync
