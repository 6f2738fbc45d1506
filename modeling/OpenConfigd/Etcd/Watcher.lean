import Mathlib.Data.List.Infix
import OpenConfigd.Lib.Latest
import OpenConfigd.Lib.Runs

/-!
# The etcd watcher

`ResyncAndWatch` gets the keys under the prefix, watches from the next revision on,
and starts again when the watch is interrupted, from the revision that `Watch`
returns. The server is its history of puts and deletes under the prefix;
`EtcdWatchUpdate` calls `ResyncAndWatch` again, with the revision it returned, when a
`Get` fails. `puts_ordered`: no put is lost or handled out of order.
`no_stale_key`: a key that is deleted while there is no watch stays, since a `Get`
only returns the keys that are there.
-/

namespace OpenConfigd.Etcd

/-- A put, or a delete where there is no value, with its mod revision. -/
structure Event where
  key : String
  value : Option String
  rev : Nat
  deriving DecidableEq, Repr

/-- A call of `putHandler`, or of `deleteHandler` where there is no value. The mod revision is
that of the key or event the call is made for. -/
structure Handled where
  key : String
  value : Option String
  rev : Nat
  deriving DecidableEq, Repr

/-- The value of a key on the server after some events. -/
def lookup (history : List Event) (key : String) : Option String :=
  (Latest.last Event.key key history).bind Event.value

/-- What the goroutine of `EtcdWatchUpdate` does: it is about to call `Get` with a minimum mod
revision, or is in `Watch`, whose variable `revision` it is. -/
inductive Mode where
  | resync (revision : Nat)
  | watch (revision : Nat)
  deriving DecidableEq, Repr

/-- The server with its history under the prefix, its revision and the revision it is compacted
to; the goroutine, with the revision from which the watch has still to deliver, the
handler calls and the minimum mod revisions of the calls of `Get` so far. -/
structure State where
  history : List Event := []
  revision : Nat := 1
  compacted : Nat := 0
  mode : Mode := .resync 0
  next : Nat := 0
  handled : List Handled := []
  gets : List Nat := []

/-- What the server and the goroutine do. -/
inductive Action where
  /-- A transaction with its puts and deletes under the prefix, possibly none. -/
  | write (ops : List (String × Option String))
  | compact (revision : Nat)
  /-- `Get`, and the put calls for the keys it returns. -/
  | get (kvs : List Event)
  /-- An error of `Get`. -/
  | getFails
  /-- An error of `NewWatcher`, before the call of `Get`. -/
  | newWatcherFails
  /-- A watch response with the events up to a revision, and their handler calls. -/
  | response (upTo : Nat)
  /-- The channel is closed, or a response has an error. -/
  | interrupt

namespace State

/-- The call that `ResyncAndWatch` and `Watch` make for a key or an event. -/
def handle (e : Event) : Handled := ⟨e.key, e.value, e.rev⟩

/-- The keys on the server with a mod revision from `minModRev` on. -/
def present (s : State) (minModRev : Nat) : List Event :=
  (Latest.survivors Event.key s.history).filter fun e => e.value.isSome && minModRev ≤ e.rev

/-- The events that a watch response up to a revision has. -/
def events (s : State) (upTo : Nat) : List Event :=
  s.history.filter fun e => s.next ≤ e.rev && e.rev ≤ upTo

/-- A step of the server or the goroutine. A `Get` returns the keys in the order of their
mod revisions; the header revision of a watch response is the greatest mod revision of its
events; there are none from before the revision the server is compacted to. -/
def step (s : State) : Action → Option State
  | .write ops =>
    some { s with
      history := s.history ++ ops.map fun op => ⟨op.1, op.2, s.revision + 1⟩
      revision := s.revision + 1 }
  | .compact revision => if revision ≤ s.revision then some { s with compacted := revision } else none
  | .get kvs =>
    match s.mode with
    | .resync revision =>
      if kvs.Perm (s.present revision) ∧ kvs.Pairwise (fun a b => a.rev ≤ b.rev) then
        some { s with
          handled := s.handled ++ kvs.map handle
          gets := s.gets ++ [revision]
          mode := .watch (s.revision + 1)
          next := s.revision + 1 }
      else none
    | .watch _ => none
  | .getFails =>
    match s.mode with
    | .resync revision => some { s with gets := s.gets ++ [revision] }
    | .watch _ => none
  | .newWatcherFails =>
    match s.mode with
    | .resync _ => some s
    | .watch _ => none
  | .response upTo =>
    match s.mode with
    | .watch _ =>
      if s.compacted ≤ s.next ∧ (s.events upTo).getLast?.map Event.rev = some upTo then
        some { s with
          handled := s.handled ++ (s.events upTo).map handle
          mode := .watch upTo
          next := upTo + 1 }
      else none
    | .resync _ => none
  | .interrupt =>
    match s.mode with
    | .watch revision => some { s with mode := .resync revision }
    | .resync _ => none

/-- The last handler call for a key. -/
def lastCall (s : State) (key : String) : Option (Option String) :=
  (Latest.last Handled.key key s.handled).map Handled.value

/-- The mod revisions of the put calls for a key. -/
def putRevs (s : State) (key : String) : List Nat :=
  (s.handled.filter fun h => h.key = key && h.value.isSome).map Handled.rev

/-- Every key that was put and is not on the server had a delete after its last put. -/
def Clean (s : State) : Prop :=
  ∀ key, (∃ h ∈ s.handled, h.key = key ∧ h.value.isSome) → lookup s.history key = none →
    s.lastCall key = some none

/-- What was handed over before the revision that the watch goes on from. -/
def seen (s : State) : List Event := s.history.filter fun e => e.rev < s.next

/-- At a `Get`, every key that was on the server when the watch ended is on it. -/
def keeps (s : State) : Action → Bool
  | .get _ => s.seen.all fun e => (lookup s.seen e.key).isNone || (lookup s.history e.key).isSome
  | _ => true

/-! ## What every step keeps -/

section

variable {s s' : State} {k v : String}

/-- The revision that the goroutine goes on with. -/
def goesOn (s : State) : Nat :=
  match s.mode with
  | .resync revision => revision
  | .watch revision => revision

/-- What holds in every state of a run. -/
structure Inv (s : State) : Prop where
  sorted : s.history.Pairwise fun a b => a.rev ≤ b.rev
  bound : ∀ e ∈ s.history, e.rev ≤ s.revision
  next_le : s.next ≤ s.revision + 1
  goesOn_le : s.goesOn ≤ s.next
  gets_le : ∀ r ∈ s.gets, r ≤ s.goesOn
  gets_ordered : s.gets.Pairwise fun a b => a ≤ b
  past : ∀ h ∈ s.handled, h.rev < s.next ∧ ⟨h.key, h.value, h.rev⟩ ∈ s.history
  puts_ordered : ∀ k, (s.putRevs k).Pairwise fun a b => a ≤ b
  current : ∀ k v, lookup s.seen k = some v → s.lastCall k = some (some v)

theorem lookup_eq_some {l : List Event} :
    lookup l k = some v ↔ ∃ e, Latest.last Event.key k l = some e ∧ e.value = some v :=
  Option.bind_eq_some_iff

theorem lookup_append (l l' : List Event) : lookup (l ++ l') k =
    if (Latest.last Event.key k l').isSome then lookup l' k else lookup l k := by
  unfold lookup
  rw [Latest.last_append]
  cases Latest.last Event.key k l' <;> rfl

/-- The last call for a key after the calls for some events. -/
theorem lastCall_append {l : List Event} (hs : s'.handled = s.handled ++ l.map handle) (k : String) :
    s'.lastCall k = if (Latest.last Event.key k l).isSome then some (lookup l k) else s.lastCall k := by
  have hmap : Latest.last Handled.key k (l.map handle) = (Latest.last Event.key k l).map handle :=
    Latest.last_map (fun _ => rfl) l
  unfold lastCall lookup
  rw [hs, Latest.last_append, hmap]
  cases Latest.last Event.key k l <;> rfl

theorem putRevs_append {l : List Event} (hs : s'.handled = s.handled ++ l.map handle) (k : String) :
    s'.putRevs k = s.putRevs k ++ (l.filter fun e => e.key = k && e.value.isSome).map Event.rev := by
  unfold putRevs
  rw [hs, List.filter_append, List.map_append, List.filter_map, List.map_map]
  rfl

/-- The history is what was handed over, then the rest. -/
theorem Inv.split (h : s.Inv) : s.seen ++ s.history.filter (fun e => s.next ≤ e.rev) = s.history :=
  Latest.split_stamp h.sorted s.next

theorem Inv.write (h : s.Inv) (ops : List (String × Option String)) (hs : s.step (.write ops) = some s') :
    s'.Inv ∧ s'.seen = s.seen := by
  cases hs
  have hnext := h.next_le
  have hseen : ∀ l : List Event, (∀ e ∈ l, e.rev = s.revision + 1) →
      (s.history ++ l).filter (fun e => e.rev < s.next) = s.seen := by
    intro l hl
    have hnil : l.filter (fun e => e.rev < s.next) = [] := by
      rw [List.filter_eq_nil_iff]
      intro e he
      have := hl e he
      simp only [decide_eq_true_eq]
      omega
    rw [List.filter_append, hnil, List.append_nil, seen]
  have hnew : ∀ e ∈ ops.map fun op => (⟨op.1, op.2, s.revision + 1⟩ : Event), e.rev = s.revision + 1 := by
    intro e he
    obtain ⟨op, -, rfl⟩ := List.mem_map.mp he
    rfl
  generalize (ops.map fun op => (⟨op.1, op.2, s.revision + 1⟩ : Event)) = l at hnew
  refine ⟨⟨?_, fun e he => ?_, Nat.le_succ_of_le hnext, h.goesOn_le, h.gets_le, h.gets_ordered,
    fun c hc => ?_, h.puts_ordered, ?_⟩, hseen l hnew⟩
  · refine List.pairwise_append.mpr ⟨h.sorted, ?_, fun a ha b hb => ?_⟩
    · exact List.pairwise_of_forall_mem_list fun a ha b hb => by rw [hnew a ha, hnew b hb]
    · have := h.bound a ha
      rw [hnew b hb]
      omega
  · rcases List.mem_append.mp he with he | he
    · exact Nat.le_succ_of_le (h.bound e he)
    · exact (hnew e he).le
  · exact ⟨(h.past c hc).1, List.mem_append_left _ (h.past c hc).2⟩
  · intro k v hv
    simp only [seen] at hv
    rw [hseen l hnew] at hv
    exact h.current k v hv

theorem step_response {upTo : Nat} (hs : s.step (.response upTo) = some s') :
    (∃ r, s.mode = .watch r) ∧ (s.events upTo).getLast?.map Event.rev = some upTo ∧
      s' = { s with
        handled := s.handled ++ (s.events upTo).map handle
        mode := .watch upTo
        next := upTo + 1 } := by
  unfold step at hs
  cases hm : s.mode with
  | resync r =>
    rw [hm] at hs
    cases hs
  | watch r =>
    rw [hm] at hs
    obtain ⟨hok, hs⟩ := Option.ite_none_right_eq_some.mp hs
    exact ⟨⟨r, rfl⟩, hok.2, (Option.some_inj.mp hs).symm⟩

/-- What a watch response hands over. -/
theorem Inv.seen_response (h : s.Inv) {upTo : Nat} (hs : s.step (.response upTo) = some s') :
    s.next ≤ upTo ∧ upTo ≤ s.revision ∧ s'.seen = s.seen ++ s.events upTo := by
  obtain ⟨-, hlast, rfl⟩ := step_response hs
  obtain ⟨e, he, hrev⟩ := Option.map_eq_some_iff.mp hlast
  obtain ⟨hmem, hin⟩ := List.mem_filter.mp (List.mem_of_getLast? he)
  simp only [Bool.and_eq_true, decide_eq_true_eq] at hin
  have hle := h.bound e hmem
  have hsplit := Latest.split_stamp (h.sorted.sublist
    (List.filter_sublist (p := fun e : Event => e.rev < upTo + 1))) s.next
  refine ⟨by omega, by omega, hsplit.symm.trans ?_⟩
  rw [List.filter_filter, List.filter_filter, seen, events]
  congr 1
  · refine List.filter_congr fun e _ => ?_
    rw [Bool.eq_iff_iff]
    simp only [Bool.and_eq_true, decide_eq_true_eq]
    omega
  · refine List.filter_congr fun e _ => ?_
    rw [Bool.eq_iff_iff]
    simp only [Bool.and_eq_true, decide_eq_true_eq]
    omega

theorem Inv.response (h : s.Inv) {upTo : Nat} (hs : s.step (.response upTo) = some s') : s'.Inv := by
  obtain ⟨hlo, hhi, hseen⟩ := h.seen_response hs
  obtain ⟨-, -, rfl⟩ := step_response hs
  have hevent (e : Event) (he : e ∈ s.events upTo) : e ∈ s.history ∧ s.next ≤ e.rev ∧ e.rev ≤ upTo := by
    obtain ⟨hmem, hin⟩ := List.mem_filter.mp he
    exact ⟨hmem, by simpa using hin⟩
  have hnext := h.goesOn_le
  refine ⟨h.sorted, h.bound, by simp only; omega, by simp only [goesOn]; omega, fun r hr => ?_, h.gets_ordered,
    fun c hc => ?_, fun k => ?_, fun k v hv => ?_⟩
  · have := h.gets_le r hr
    simp only [goesOn] at *
    omega
  · rcases List.mem_append.mp hc with hc | hc
    · have := h.past c hc
      exact ⟨by simp only; omega, this.2⟩
    · obtain ⟨e, he, rfl⟩ := List.mem_map.mp hc
      have := hevent e he
      exact ⟨by simp only [handle]; omega, this.1⟩
  · rw [putRevs_append (s := s) rfl]
    refine List.pairwise_append.mpr ⟨h.puts_ordered k, ?_, fun a ha b hb => ?_⟩
    · exact List.pairwise_map.mpr ((h.sorted.sublist List.filter_sublist).sublist List.filter_sublist)
    · obtain ⟨c, hc, rfl⟩ := List.mem_map.mp ha
      obtain ⟨e, he, rfl⟩ := List.mem_map.mp hb
      have hc := (h.past c (List.mem_filter.mp hc).1).1
      have he := (hevent e (List.mem_filter.mp he).1).2.1
      omega
  · rw [hseen, lookup_append] at hv
    rw [lastCall_append (s := s) rfl]
    split
    · next hsome => rw [if_pos hsome] at hv; rw [hv]
    · next hnone =>
      rw [if_neg hnone] at hv
      exact h.current k v hv

theorem step_get {kvs : List Event} (hs : s.step (.get kvs) = some s') :
    kvs.Perm (s.present s.goesOn) ∧ kvs.Pairwise (fun a b => a.rev ≤ b.rev) ∧
      s' = { s with
        handled := s.handled ++ kvs.map handle
        gets := s.gets ++ [s.goesOn]
        mode := .watch (s.revision + 1)
        next := s.revision + 1 } := by
  unfold step at hs
  unfold goesOn
  cases hm : s.mode with
  | resync r =>
    rw [hm] at hs
    obtain ⟨hok, hs⟩ := Option.ite_none_right_eq_some.mp hs
    exact ⟨hok.1, hok.2, (Option.some_inj.mp hs).symm⟩
  | watch r =>
    rw [hm] at hs
    cases hs

/-- What a `Get` returns for a key: its last put, when that is new enough. -/
theorem last_kvs {kvs : List Event} (hp : kvs.Perm (s.present s.goesOn)) (k : String) :
    Latest.last Event.key k kvs =
      (Latest.last Event.key k s.history).filter fun e => e.value.isSome && s.goesOn ≤ e.rev := by
  have hnodup : (kvs.map Event.key).Nodup := by
    rw [(hp.map Event.key).nodup_iff]
    exact (List.filter_sublist.map Event.key).nodup Latest.nodup_survivors
  have hmem (e : Event) : e ∈ kvs ↔ Latest.last Event.key e.key s.history = some e ∧
      (e.value.isSome && s.goesOn ≤ e.rev) = true := by
    rw [hp.mem_iff, present, List.mem_filter, Latest.mem_survivors]
  ext e
  rw [Option.filter_eq_some_iff]
  constructor
  · intro hl
    obtain ⟨he, rfl⟩ := Latest.mem_of_last hl
    exact (hmem e).mp he
  · intro hl
    obtain ⟨-, rfl⟩ := Latest.mem_of_last hl.1
    exact Latest.last_of_nodup hnodup ((hmem e).mpr hl)

/-- All events are handed over by a `Get`. -/
theorem Inv.seen_get (h : s.Inv) {kvs : List Event} (hs : s.step (.get kvs) = some s') :
    s'.seen = s'.history := by
  obtain ⟨-, -, rfl⟩ := step_get hs
  refine List.filter_eq_self.mpr fun e he => ?_
  have := h.bound e he
  simp only [decide_eq_true_eq]
  omega

/-- The last call for a key after a `Get`. -/
theorem Inv.lastCall_get (h : s.Inv) {kvs : List Event} (hs : s.step (.get kvs) = some s') (k : String) :
    s'.lastCall k = match lookup s.history k with
      | some v => some (some v)
      | none => s.lastCall k := by
  obtain ⟨hp, -, rfl⟩ := step_get hs
  rw [lastCall_append (s := s) rfl, lookup, last_kvs hp]
  cases hl : Latest.last Event.key k s.history with
  | none => simp [lookup, hl]
  | some e =>
    cases hv : e.value with
    | none => simp [lookup, hl, hv, Option.filter]
    | some v =>
      by_cases hnew : s.goesOn ≤ e.rev
      · simp [lookup, hl, hv, hnew, Option.filter]
      · -- The put was handed over before.
        have hgoes := h.goesOn_le
        have hsplit := h.split
        have hseen : Latest.last Event.key k s.seen = some e := by
          rw [← hsplit, Latest.last_append] at hl
          cases hrest : Latest.last Event.key k (s.history.filter fun e => s.next ≤ e.rev) with
          | none => rwa [hrest, Option.none_or] at hl
          | some e' =>
            rw [hrest, Option.some_or, Option.some_inj] at hl
            have hmem := (List.mem_filter.mp (Latest.mem_of_last hrest).1).2
            rw [hl] at hmem
            simp only [decide_eq_true_eq] at hmem
            omega
        have hcur := h.current k v (lookup_eq_some.mpr ⟨e, hseen, hv⟩)
        simp [lookup, hl, hv, hnew, Option.filter, hcur]

theorem Inv.get (h : s.Inv) {kvs : List Event} (hs : s.step (.get kvs) = some s') : s'.Inv := by
  have hseen := h.seen_get hs
  have hcall := h.lastCall_get hs
  obtain ⟨hp, hsorted, rfl⟩ := step_get hs
  have hnext := h.next_le
  have hgoes := h.goesOn_le
  have hkv (e : Event) (he : e ∈ kvs) : Latest.last Event.key e.key s.history = some e := by
    rw [hp.mem_iff, present, List.mem_filter, Latest.mem_survivors] at he
    exact he.1
  refine ⟨h.sorted, h.bound, le_refl _, le_refl _, fun r hr => ?_, ?_, fun c hc => ?_, fun k => ?_,
    fun k v hv => ?_⟩
  · show r ≤ s.revision + 1
    rcases List.mem_append.mp hr with hr | hr
    · have := h.gets_le r hr
      omega
    · rw [List.mem_singleton.mp hr]
      omega
  · refine List.pairwise_append.mpr ⟨h.gets_ordered, List.pairwise_singleton _ _, fun a ha b hb => ?_⟩
    rw [List.mem_singleton.mp hb]
    exact h.gets_le a ha
  · show c.rev < s.revision + 1 ∧ _
    rcases List.mem_append.mp hc with hc | hc
    · have := h.past c hc
      exact ⟨by omega, this.2⟩
    · obtain ⟨e, he, rfl⟩ := List.mem_map.mp hc
      have hmem := (Latest.mem_of_last (hkv e he)).1
      exact ⟨Nat.lt_succ_of_le (h.bound e hmem), hmem⟩
  · rw [putRevs_append (s := s) rfl]
    refine List.pairwise_append.mpr ⟨h.puts_ordered k, ?_, fun a ha b hb => ?_⟩
    · exact List.pairwise_map.mpr (hsorted.sublist List.filter_sublist)
    · -- The key's last put has the greatest mod revision.
      obtain ⟨c, hc, rfl⟩ := List.mem_map.mp ha
      obtain ⟨e, he, rfl⟩ := List.mem_map.mp hb
      simp only [List.mem_filter, Bool.and_eq_true, decide_eq_true_eq] at hc he
      have hlast := hkv e he.1
      rw [he.2.1] at hlast
      exact Latest.le_last h.sorted hlast (h.past c hc.1).2 hc.2.1
  · rw [hseen] at hv
    rw [hcall]
    simp only at hv
    rw [hv]

/-- The other steps change neither the history nor what was handled; one of them is a call of
`Get`. -/
structure Same (s s' : State) : Prop where
  history : s'.history = s.history
  revision : s'.revision = s.revision
  next : s'.next = s.next
  handled : s'.handled = s.handled
  gets : s'.gets = s.gets ∨ s'.gets = s.gets ++ [s.goesOn]
  goesOn : s'.goesOn = s.goesOn

theorem step_cases {a : Action} (hs : s.step a = some s') :
    (∃ ops, a = .write ops) ∨ (∃ kvs, a = .get kvs) ∨ (∃ upTo, a = .response upTo) ∨
      (∀ kvs, a ≠ .get kvs) ∧ Same s s' := by
  cases a with
  | write ops => exact .inl ⟨ops, rfl⟩
  | get kvs => exact .inr (.inl ⟨kvs, rfl⟩)
  | response upTo => exact .inr (.inr (.inl ⟨upTo, rfl⟩))
  | compact r =>
    obtain ⟨-, hs⟩ := Option.ite_none_right_eq_some.mp hs
    cases hs
    exact .inr (.inr (.inr ⟨fun _ => Action.noConfusion, rfl, rfl, rfl, rfl, .inl rfl, rfl⟩))
  | getFails =>
    unfold step at hs
    cases hm : s.mode with
    | resync r =>
      rw [hm] at hs
      cases hs
      have hgoes : s.goesOn = r := by rw [goesOn, hm]
      exact .inr (.inr (.inr ⟨fun _ => Action.noConfusion, rfl, rfl, rfl, rfl, .inr (by rw [hgoes]), hgoes.symm⟩))
    | watch r =>
      rw [hm] at hs
      cases hs
  | newWatcherFails =>
    unfold step at hs
    cases hm : s.mode with
    | resync r =>
      rw [hm] at hs
      cases hs
      exact .inr (.inr (.inr ⟨fun _ => Action.noConfusion, rfl, rfl, rfl, rfl, .inl rfl, rfl⟩))
    | watch r =>
      rw [hm] at hs
      cases hs
  | interrupt =>
    unfold step at hs
    cases hm : s.mode with
    | resync r =>
      rw [hm] at hs
      cases hs
    | watch r =>
      rw [hm] at hs
      cases hs
      exact .inr (.inr (.inr ⟨fun _ => Action.noConfusion, rfl, rfl, rfl, rfl, .inl rfl, by simp [goesOn, hm]⟩))

theorem Same.seen (h : Same s s') : s'.seen = s.seen := by
  unfold State.seen
  rw [h.history, h.next]

theorem Same.lastCall (h : Same s s') (k : String) : s'.lastCall k = s.lastCall k := by
  unfold State.lastCall
  rw [h.handled]

theorem Same.inv (h : Same s s') (hi : s.Inv) : s'.Inv := by
  refine ⟨?_, ?_, ?_, ?_, ?_, ?_, ?_, fun k => ?_, fun k v => ?_⟩
  · rw [h.history]
    exact hi.sorted
  · rw [h.history, h.revision]
    exact hi.bound
  · rw [h.next, h.revision]
    exact hi.next_le
  · rw [h.goesOn, h.next]
    exact hi.goesOn_le
  · rw [h.goesOn]
    intro r hr
    rcases h.gets with hgets | hgets
    · exact hi.gets_le r (hgets ▸ hr)
    · rw [hgets] at hr
      rcases List.mem_append.mp hr with hr | hr
      · exact hi.gets_le r hr
      · exact (List.mem_singleton.mp hr).le
  · rcases h.gets with hgets | hgets
    · rw [hgets]
      exact hi.gets_ordered
    · rw [hgets]
      refine List.pairwise_append.mpr ⟨hi.gets_ordered, List.pairwise_singleton _ _, fun a ha b hb => ?_⟩
      rw [List.mem_singleton.mp hb]
      exact hi.gets_le a ha
  · rw [h.handled, h.next, h.history]
    exact hi.past
  · unfold putRevs
    rw [h.handled]
    exact hi.puts_ordered k
  · rw [h.seen, h.lastCall]
    exact hi.current k v

theorem Inv.step {a : Action} (h : s.Inv) (hs : s.step a = some s') : s'.Inv := by
  rcases step_cases hs with ⟨ops, rfl⟩ | ⟨kvs, rfl⟩ | ⟨upTo, rfl⟩ | ⟨-, hsame⟩
  · exact (h.write ops hs).1
  · exact h.get hs
  · exact h.response hs
  · exact hsame.inv h

theorem Inv.init : ({} : State).Inv := by
  refine ⟨.nil, fun e he => ?_, by decide, le_refl _, fun r hr => ?_, .nil, fun c hc => ?_, fun k => .nil,
    fun k v hv => ?_⟩
  · cases he
  · cases hr
  · cases hc
  · cases hv

theorem Inv.run {as : List Action} (h : s.Inv) (hr : Runs.run State.step s as = some s') : s'.Inv := by
  induction as generalizing s with
  | nil =>
    cases hr
    exact h
  | cons a as ih =>
    obtain ⟨s₁, hs, hr⟩ := Option.bind_eq_some_iff.mp hr
    exact ih (h.step hs) hr

/-! ## Deletes -/

/-- No key that was not on the server when the watch was last served has a put as its last
call. -/
def Mirrored (s : State) : Prop := ∀ k v, lookup s.seen k = none → s.lastCall k ≠ some (some v)

theorem keeps_get {kvs : List Event} : s.keeps (.get kvs) = true ↔
    ∀ k, lookup s.history k = none → lookup s.seen k = none := by
  unfold keeps
  rw [List.all_eq_true]
  constructor
  · intro h k hk
    cases hl : lookup s.seen k with
    | none => rfl
    | some v =>
      obtain ⟨e, he, -⟩ := lookup_eq_some.mp hl
      obtain ⟨hmem, rfl⟩ := Latest.mem_of_last he
      have := h e hmem
      rw [hl, hk] at this
      cases this
  · intro h e _
    cases hl : lookup s.history e.key with
    | none => rw [h e.key hl]; rfl
    | some v => simp

theorem Mirrored.get (hm : s.Mirrored) (h : s.Inv) {kvs : List Event} (hs : s.step (.get kvs) = some s')
    (hok : s.keeps (.get kvs) = true) : s'.Mirrored := by
  intro k v hk
  rw [h.seen_get hs] at hk
  have hcall := h.lastCall_get hs k
  obtain ⟨-, -, rfl⟩ := step_get hs
  simp only at hk
  rw [hk] at hcall
  rw [hcall]
  exact hm k v (keeps_get.mp hok k hk)

theorem Mirrored.response (hm : s.Mirrored) (h : s.Inv) {upTo : Nat}
    (hs : s.step (.response upTo) = some s') : s'.Mirrored := by
  intro k v hk
  rw [(h.seen_response hs).2.2, lookup_append] at hk
  obtain ⟨-, -, rfl⟩ := step_response hs
  rw [lastCall_append (s := s) rfl]
  split
  · next hsome =>
    rw [if_pos hsome] at hk
    rw [hk]
    simp
  · next hnone =>
    rw [if_neg hnone] at hk
    exact hm k v hk

theorem Mirrored.step (hm : s.Mirrored) (h : s.Inv) {a : Action} (hs : s.step a = some s')
    (hok : s.keeps a = true) : s'.Mirrored := by
  rcases step_cases hs with ⟨ops, rfl⟩ | ⟨kvs, rfl⟩ | ⟨upTo, rfl⟩ | ⟨-, hsame⟩
  · have hseen := (h.write ops hs).2
    cases hs
    intro k v hk
    rw [hseen] at hk
    exact hm k v hk
  · exact hm.get h hs hok
  · exact hm.response h hs
  · intro k v hk
    rw [hsame.seen] at hk
    rw [hsame.lastCall]
    exact hm k v hk

/-- After a `Get`, no key is stale just if none was deleted before it. -/
theorem Mirrored.clean_iff (hm : s.Mirrored) (h : s.Inv) {kvs : List Event}
    (hs : s.step (.get kvs) = some s') : s'.Clean ↔ s.keeps (.get kvs) = true := by
  have hhist : s'.history = s.history := by
    obtain ⟨-, -, rfl⟩ := step_get hs
    rfl
  constructor
  · intro hc
    refine keeps_get.mpr fun k hk => ?_
    cases hl : lookup s.seen k with
    | none => rfl
    | some v =>
      have hcall := h.lastCall_get hs k
      rw [hk, h.current k v hl] at hcall
      obtain ⟨c, hc', hv⟩ := Option.map_eq_some_iff.mp hcall
      obtain ⟨hmem, hkey⟩ := Latest.mem_of_last hc'
      have hnone := hc k ⟨c, hmem, hkey, by rw [hv]; rfl⟩ (hhist ▸ hk)
      rw [hcall] at hnone
      cases hnone
  · intro hok k hput hk
    have hm' := hm.get h hs hok
    have hseen := h.seen_get hs
    cases hl : Latest.last Handled.key k s'.handled with
    | none =>
      obtain ⟨c, hc, hkey, -⟩ := hput
      exact absurd hkey (Latest.last_eq_none.mp hl c hc)
    | some c =>
      cases hv : c.value with
      | none => rw [lastCall, hl, Option.map_some, hv]
      | some v =>
        refine absurd ?_ (hm' k v (hseen ▸ hk))
        rw [lastCall, hl, Option.map_some, hv]

end

/-- No put is lost or handled out of order: the put calls for a key come in the order of their
mod revisions, the minimum mod revisions of the calls of `Get` never decrease, and after
the put calls of a `Get` the last call for every key on the server is a put of its value. -/
theorem puts_ordered {as : List Action} {s : State} (hr : Runs.run step {} as = some s) :
    (∀ key, (s.putRevs key).Pairwise fun a b => a ≤ b) ∧ s.gets.Pairwise (fun a b => a ≤ b) ∧
      ∀ pre kvs, as = pre ++ [.get kvs] → ∀ key value, lookup s.history key = some value →
        s.lastCall key = some (some value) := by
  have hinv := Inv.init.run hr
  refine ⟨hinv.puts_ordered, hinv.gets_ordered, ?_⟩
  rintro pre kvs rfl key value hv
  rw [Runs.run_snoc] at hr
  obtain ⟨s₁, hr₁, hs⟩ := Option.bind_eq_some_iff.mp hr
  have hseen := (Inv.init.run hr₁).seen_get hs
  exact hinv.current key value (hseen ▸ hv)

/-- In a run, no key is stale after any `Get` just if at every `Get` the keys that were there when
the watch ended are there. -/
theorem no_stale_key {as : List Action} {s : State} (hr : Runs.run step {} as = some s) :
    (∀ pre kvs s', pre ++ [.get kvs] <+: as → Runs.run step {} (pre ++ [.get kvs]) = some s' → s'.Clean) ↔
      Runs.meets step keeps {} as = true := by
  -- From any state without a stale key.
  have main (as : List Action) {first : State} (hinv : first.Inv) (hm : first.Mirrored)
      (hr : Runs.run step first as = some s) :
      (∀ pre kvs s', pre ++ [.get kvs] <+: as → Runs.run step first (pre ++ [.get kvs]) = some s' →
        s'.Clean) ↔ Runs.meets step keeps first as = true := by
    induction as generalizing first with
    | nil =>
      refine ⟨fun _ => rfl, fun _ pre kvs s' hpre _ => ?_⟩
      simp at hpre
    | cons a as ih =>
      obtain ⟨s₁, hs, hr₁⟩ := Option.bind_eq_some_iff.mp hr
      have hcons (pre : List Action) (kvs : List Event) :
          Runs.run step first (a :: pre ++ [.get kvs]) = Runs.run step s₁ (pre ++ [.get kvs]) := by
        rw [List.cons_append, Runs.run, hs, Option.bind_some]
      rw [Runs.meets, hs, Option.all_some, Bool.and_eq_true]
      constructor
      · intro h
        have hok : first.keeps a = true := by
          cases a with
          | get kvs =>
            refine (hm.clean_iff hinv hs).mp (h [] kvs s₁ ?_ ?_)
            · exact ⟨as, rfl⟩
            · rw [List.nil_append, Runs.run, hs]
              rfl
          | _ => rfl
        refine ⟨hok, (ih (hinv.step hs) (hm.step hinv hs hok) hr₁).mp fun pre kvs s' hpre hr' => ?_⟩
        refine h (a :: pre) kvs s' ?_ ?_
        · exact List.cons_prefix_cons.mpr ⟨rfl, hpre⟩
        · rw [hcons]
          exact hr'
      · rintro ⟨hok, hrest⟩ pre kvs s' hpre hr'
        cases pre with
        | nil =>
          obtain ⟨rfl, -⟩ := List.cons_prefix_cons.mp hpre
          rw [List.nil_append, Runs.run, hs] at hr'
          cases hr'
          exact (hm.clean_iff hinv hs).mpr hok
        | cons a' pre =>
          obtain ⟨rfl, hpre'⟩ := List.cons_prefix_cons.mp hpre
          rw [hcons] at hr'
          exact (ih (hinv.step hs) (hm.step hinv hs hok) hr₁).mpr hrest pre kvs s' hpre' hr'
  refine main as Inv.init (fun k v _ hc => ?_) hr
  cases hc

/-- Puts and a delete that watch responses hand over, an interruption and a `Get` that fails. -/
def resumed : List Action :=
  [.write [("a", some "1"), ("d", some "0")], .get [⟨"a", some "1", 2⟩, ⟨"d", some "0", 2⟩],
    .write [("a", some "2"), ("b", some "3")], .response 3, .write [("d", none)], .response 4, .interrupt,
    .getFails, .write [("c", some "4")], .get [⟨"c", some "4", 5⟩]]

theorem puts_ordered_resumed : ∃ s, Runs.run step {} resumed = some s ∧ s.putRevs "a" = [2, 3] ∧
    s.gets = [0, 4, 4] ∧ ((∀ key, (s.putRevs key).Pairwise fun a b => a ≤ b) ∧
      s.gets.Pairwise (fun a b => a ≤ b) ∧
      ∀ pre kvs, resumed = pre ++ [.get kvs] → ∀ key value, lookup s.history key = some value →
        s.lastCall key = some (some value)) :=
  ⟨_, rfl, by decide, by decide, puts_ordered rfl⟩

theorem no_stale_key_resumed : ∃ s, Runs.run step {} resumed = some s ∧
    lookup s.history "d" = none ∧ s.lastCall "d" = some none ∧
    Runs.meets step keeps {} resumed = true ∧
    ((∀ pre kvs s', pre ++ [.get kvs] <+: resumed →
      Runs.run step {} (pre ++ [.get kvs]) = some s' → s'.Clean) ↔
      Runs.meets step keeps {} resumed = true) :=
  ⟨_, rfl, by decide, by decide, by decide, no_stale_key rfl⟩

/-- A key that is deleted while the watch is interrupted is not noticed. -/
theorem no_stale_key_deleted : ∃ s,
    Runs.run step {} [.write [("a", some "1")], .get [⟨"a", some "1", 2⟩], .interrupt,
      .write [("a", none)], .get []] = some s ∧
    lookup s.history "a" = none ∧ s.handled = [⟨"a", some "1", 2⟩] ∧ ¬ s.Clean := by
  refine ⟨_, rfl, by decide, by decide, fun h => ?_⟩
  have := h "a" (by decide) (by decide)
  revert this
  decide

end State

end OpenConfigd.Etcd
