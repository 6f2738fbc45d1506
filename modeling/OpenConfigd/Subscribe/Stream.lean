import OpenConfigd.Go.Ascii
import OpenConfigd.Lib.Runs
import OpenConfigd.Subscribe.Registry
import OpenConfigd.Yang.Parse

/-!
# The messages of a stream

The loop of `DoConfig` for one stream. Every `SUBSCRIBE`, `SUBSCRIBE_MULTI`,
`SUBSCRIBE_REQUEST`, `SET` and `DELETE` is handled by a goroutine of its own, which
holds `SubscribeMutex` from its first step to its last; the end of the stream is
handled in the loop. The goroutines that wait for the mutex get it in any order.
With `RibdAsyncUpdate` set the subscriptions of `ribd` are the exception: they take no
mutex and restart the watch of etcd, which writes the trees.
`stream_order`: the trees and `SubscribeMap` are those of handling the messages one
after the other when no such subscription is received, the goroutines of sets and
deletes get the mutex in the order of their messages, and none that subscribes is left
when the stream ends.
-/

namespace OpenConfigd

/-- The messages that `DoConfig` starts a goroutine for. -/
inductive StreamMsg where
  | subscribe (module : String) (path : List String)
  | subscribeMulti (module : String) (paths : List String)
  | subscribeRequest (module : String) (paths : List String)
  | set (path : List String)
  | delete (path : List String)
  deriving DecidableEq, Repr

/-- `SET` and `DELETE`. -/
def StreamMsg.edits : StreamMsg → Bool
  | .set _ | .delete _ => true
  | _ => false

/-- `IsRibdAsync`. -/
def isRibdAsync (ribdAsyncUpdate : Bool) (module : String) : Bool :=
  ribdAsyncUpdate && module == "ribd"

/-- A subscription of `ribd` that takes no mutex. -/
def StreamMsg.ribdAsync (ribdAsyncUpdate : Bool) : StreamMsg → Bool
  | .subscribe module _ | .subscribeMulti module _ | .subscribeRequest module _ =>
    isRibdAsync ribdAsyncUpdate module
  | .set _ | .delete _ => false

/-- `configActive` and `configCandidate`. -/
structure Trees where
  active : Config := {}
  candidate : Config := {}

/-- What the goroutines change. -/
structure ConfigServer where
  trees : Trees := {}
  registry : Registry := {}

/-- `LookupByPath`, then `Delete` of what it finds. -/
def Config.pull (root : Config) (args : List String) : Config :=
  match root.lookupByPath args with
  | some loc => OpenConfigd.delete root loc true
  | none => root

namespace Trees

variable (env : Env) (ent : Entry)

/-- `YangConfigPush`; `none` when it panics. -/
def yangConfigPush (t : Trees) (args : List String) : Option Trees := do
  let active ← parse env ent t.active args
  let candidate ← parse env ent t.candidate args
  return { active := active.tree, candidate := candidate.tree }

/-- `YangConfigPull`. -/
def yangConfigPull (t : Trees) (args : List String) : Trees :=
  { active := t.active.pull args, candidate := t.candidate.pull args }

/-- What the goroutine of a message does to the trees. A subscription leaves them alone,
except that one of `ribd` may end in `EtcdWatchUpdate`: `etcdWatchUpdate` is what the watch
that is started there makes of them. -/
def handle (ribdAsyncUpdate : Bool) (etcdWatchUpdate : Trees → Trees) (t : Trees) :
    StreamMsg → Option Trees
  | .set path => t.yangConfigPush env ent path
  | .delete path => some (t.yangConfigPull path)
  | .subscribe module _ | .subscribeMulti module _ | .subscribeRequest module _ =>
    some (if isRibdAsync ribdAsyncUpdate module then etcdWatchUpdate t else t)

end Trees

/-- What the goroutine of a message does to the subscriptions. -/
def Registry.handle (stream : Nat) (r : Registry) : StreamMsg → Registry
  | .subscribe _ path => r.call (.remoteAdd stream path)
  | .subscribeMulti _ paths => r.call (.remoteAddMulti stream paths)
  | .subscribeRequest _ paths => r.call (.add stream paths)
  | .set _ | .delete _ => r

namespace ConfigServer

variable (env : Env) (ent : Entry) (ribdAsyncUpdate : Bool) (etcdWatchUpdate : Trees → Trees)
  (stream : Nat)

/-- The goroutine of a message. -/
def handle (s : ConfigServer) (m : StreamMsg) : Option ConfigServer :=
  (s.trees.handle env ent ribdAsyncUpdate etcdWatchUpdate m).map fun trees =>
    { trees, registry := s.registry.handle stream m }

/-- The end of the stream. -/
def finish (s : ConfigServer) : ConfigServer :=
  { s with registry := s.registry.call (.delete (some stream)) }

/-- The messages one after the other, then the end of the stream. -/
def handleAll (s : ConfigServer) (ms : List StreamMsg) : Option ConfigServer :=
  (Runs.run (handle env ent ribdAsyncUpdate etcdWatchUpdate stream) s ms).map (finish stream)

end ConfigServer

/-- `DoConfig` and the goroutines that have not got the mutex yet, in the order they were
started. `received` is only for the statements. -/
structure StreamState where
  server : ConfigServer := {}
  waiting : List StreamMsg := []
  received : List StreamMsg := []
  ended : Bool := false

namespace StreamState

/-- A step of `DoConfig` or of one of the goroutines. -/
inductive Action where
  /-- `Recv` returns a message. -/
  | recv (m : StreamMsg)
  /-- A goroutine gets the mutex, and runs. -/
  | start (k : Nat)
  /-- `Recv` returns an error. -/
  | stop
  /-- A goroutine that takes no mutex, or the watch that it starts, writes: it may do so in
  the middle of another goroutine, and leave anything. -/
  | unlocked (server : ConfigServer)

variable (env : Env) (ent : Entry) (ribdAsyncUpdate : Bool) (etcdWatchUpdate : Trees → Trees)
  (stream : Nat)

/-- A step; `none` when it is not enabled, or panics. -/
def step (s : StreamState) : Action → Option StreamState
  | .recv m =>
    if s.ended then none
    else some { s with waiting := s.waiting ++ [m], received := s.received ++ [m] }
  | .start k =>
    s.waiting[k]?.bind fun m =>
      (s.server.handle env ent ribdAsyncUpdate etcdWatchUpdate stream m).map fun server =>
        { s with server, waiting := s.waiting.eraseIdx k }
  | .stop =>
    if s.ended then none else some { s with server := s.server.finish stream, ended := true }
  | .unlocked server =>
    if s.received.any (StreamMsg.ribdAsync ribdAsyncUpdate) then some { s with server } else none

/-- No subscription of `ribd` is received that takes no mutex, a set or delete starts when no
set or delete of an earlier message waits, and the stream ends when no goroutine that
subscribes waits. -/
def timely (s : StreamState) : Action → Bool
  | .recv m => !m.ribdAsync ribdAsyncUpdate
  | .start k => s.waiting[k]?.all fun m => !m.edits || (s.waiting.take k).all fun m => !m.edits
  | .stop => s.waiting.all StreamMsg.edits
  | .unlocked _ => true

end StreamState

/-! ## Subscribers by stream -/

namespace Registry

variable {r : Registry} {stream : Stream}

/-- The subscribers of the other streams. -/
def others (r : Registry) (stream : Stream) : List (Stream × List Subscription) :=
  r.subs.filter fun s => s.1 ≠ stream

/-- No stream has two subscribers. -/
def Single (r : Registry) : Prop := (r.subs.map (·.1)).Nodup

theorem lookup_isSome (r : Registry) (stream : Stream) :
    (r.lookup stream).isSome ↔ stream ∈ r.subs.map (·.1) := by
  rw [lookup, List.find?_isSome, List.mem_map]
  simp only [decide_eq_true_eq]

theorem fst_addTo {sp : Subscription} {subs : List (Stream × List Subscription)}
    (hmem : stream ∈ subs.map (·.1)) : (addTo stream sp subs).map (·.1) = subs.map (·.1) := by
  induction subs with
  | nil => cases hmem
  | cons s subs ih =>
    rw [addTo]
    split
    · rfl
    · next hs =>
      rw [List.map_cons, List.mem_cons] at hmem
      rw [List.map_cons, List.map_cons, ih (hmem.resolve_left fun hc => hs hc.symm)]

theorem others_addTo (sp : Subscription) (subs : List (Stream × List Subscription)) :
    ((addTo stream sp subs).filter fun s => s.1 ≠ stream) = subs.filter fun s => s.1 ≠ stream := by
  induction subs with
  | nil => simp [addTo]
  | cons s subs ih =>
    rw [addTo]
    split
    · next hs => simp [hs]
    · rw [List.filter_cons, List.filter_cons, ih]

theorem mem_subscriber (r : Registry) (stream : Stream) :
    stream ∈ (r.subscriber stream).subs.map (·.1) := by
  rw [subscriber]
  split
  · next h => exact (lookup_isSome r stream).mp h
  · simp

theorem Single.subscriber (h : r.Single) (stream : Stream) : (r.subscriber stream).Single := by
  rw [Registry.subscriber]
  split
  · exact h
  · next hl =>
    rw [lookup_isSome] at hl
    rw [Single, List.map_append, List.nodup_append]
    refine ⟨h, List.nodup_singleton _, fun a ha b hb => ?_⟩
    rw [List.mem_singleton.mp hb]
    rintro rfl
    exact hl ha

theorem others_subscriber (r : Registry) (stream : Stream) :
    (r.subscriber stream).others stream = r.others stream := by
  rw [subscriber]
  split
  · rfl
  · simp [others]

theorem Single.registers (h : r.Single) (hmem : stream ∈ r.subs.map (·.1))
    (paths : List (List String)) : (paths.foldl (register stream) r).Single ∧
      (paths.foldl (register stream) r).others stream = r.others stream := by
  induction paths generalizing r with
  | nil => exact ⟨h, rfl⟩
  | cons path paths ih =>
    have hfst : (r.register stream path).subs.map (·.1) = r.subs.map (·.1) := fst_addTo hmem
    have hsingle : (r.register stream path).Single := by
      rw [Single, hfst]
      exact h
    obtain ⟨h1, h2⟩ := ih hsingle (by rw [hfst]; exact hmem)
    exact ⟨h1, h2.trans (others_addTo _ r.subs)⟩

/-- What the registrations of a call do to the subscribers. -/
theorem Single.subscribe (h : r.Single) (stream : Stream) (paths : List (List String)) :
    (r.subscribe stream paths).Single ∧
      (r.subscribe stream paths).others stream = r.others stream := by
  rw [← others_subscriber r]
  exact (h.subscriber stream).registers (mem_subscriber r stream) paths

/-- `SubscribeDelete` leaves the subscribers of the other streams. -/
theorem Single.delete (h : r.Single) (stream : Stream) :
    (r.delete stream).subs = r.others stream := by
  have hnone (subs : List (Stream × List Subscription)) (hs : stream ∉ subs.map (·.1)) :
      (subs.filter fun s => s.1 ≠ stream) = subs := by
    rw [List.filter_eq_self]
    intro s hmem
    simp only [decide_eq_true_eq]
    rintro rfl
    exact hs (List.mem_map.mpr ⟨s, hmem, rfl⟩)
  rw [Registry.delete, others]
  split
  · next hl =>
    rw [hnone]
    rw [← lookup_isSome, hl]
    simp
  · show (r.subs.eraseP fun s => s.1 = stream) = _
    rw [Single] at h
    generalize r.subs = subs at h
    induction subs with
    | nil => rfl
    | cons s subs ih =>
      rw [List.map_cons, List.nodup_cons] at h
      rw [List.eraseP_cons]
      by_cases hs : s.1 = stream
      · subst hs
        rw [List.filter_cons_of_neg (by simp), hnone subs h.1]
        simp
      · simp [hs, ih h.2]

theorem Single.call (h : r.Single) (c : SubscribeCall) : (r.call c).Single := by
  obtain ⟨stream, paths, hc⟩ | ⟨stream, hc⟩ := call_cases r c
  · rw [hc]
    exact (h.subscribe stream paths).1
  · rw [hc, Single, h.delete]
    exact (List.filter_sublist.map _).nodup h

theorem Single.run (calls : List SubscribeCall) : (Registry.run calls).Single := by
  induction calls using List.reverseRecOn with
  | nil => exact List.nodup_nil
  | append_singleton calls c ih =>
    rw [Registry.run, List.foldl_append]
    exact ih.call c

theorem Single.handle (h : r.Single) (stream : Nat) (m : StreamMsg) :
    (r.handle stream m).Single ∧
      (r.handle stream m).others (some stream) = r.others (some stream) := by
  cases m with
  | subscribe module path => exact h.subscribe _ _
  | subscribeMulti module paths => exact h.subscribe _ _
  | subscribeRequest module paths => exact h.subscribe _ _
  | set path => exact ⟨h, rfl⟩
  | delete path => exact ⟨h, rfl⟩

theorem lookup_others {subs : Registry} (hs : subs.subs = r.others stream) :
    subs.lookup stream = none := by
  rw [← Option.not_isSome_iff_eq_none, lookup_isSome, hs]
  simp [others]

end Registry

/-! ## Order -/

variable {env : Env} {ent : Entry} {ribdAsyncUpdate : Bool} {etcdWatchUpdate : Trees → Trees}
  {stream : Nat}

/-- A message that takes the mutex and is no set or delete leaves the trees alone. -/
theorem Trees.handle_of_not_edits {m : StreamMsg} (hedits : m.edits = false)
    (hasync : m.ribdAsync ribdAsyncUpdate = false) (t : Trees) :
    t.handle env ent ribdAsyncUpdate etcdWatchUpdate m = some t := by
  cases m with
  | set path => cases hedits
  | delete path => cases hedits
  | subscribe module path | subscribeMulti module paths | subscribeRequest module paths =>
    rw [StreamMsg.ribdAsync] at hasync
    rw [handle, hasync]
    rfl

theorem ConfigServer.run_handle (s : ConfigServer) (ms : List StreamMsg) :
    Runs.run (handle env ent ribdAsyncUpdate etcdWatchUpdate stream) s ms =
      (Runs.run (Trees.handle env ent ribdAsyncUpdate etcdWatchUpdate) s.trees ms).map
        fun trees => { trees, registry := ms.foldl (Registry.handle stream) s.registry } := by
  induction ms generalizing s with
  | nil => rfl
  | cons m ms ih =>
    rw [Runs.run, Runs.run, handle, List.foldl_cons]
    cases s.trees.handle env ent ribdAsyncUpdate etcdWatchUpdate m with
    | none => rfl
    | some t => exact ih _

theorem Registry.Single.handles {r : Registry} (h : r.Single) (stream : Nat) (ms : List StreamMsg) :
    (ms.foldl (Registry.handle stream) r).Single ∧
      (ms.foldl (Registry.handle stream) r).others (some stream) = r.others (some stream) := by
  induction ms generalizing r with
  | nil => exact ⟨h, rfl⟩
  | cons m ms ih =>
    obtain ⟨h1, h2⟩ := h.handle stream m
    obtain ⟨h3, h4⟩ := ih h1
    exact ⟨h3, h4.trans h2⟩

namespace StreamState

/-- What holds between the steps: no message received goes without the mutex, the sets and
deletes done are the first ones received, and of `SubscribeMap` only the subscriber of the
stream changes, which goes with the stream. -/
structure Inv (env : Env) (ent : Entry) (ribdAsyncUpdate : Bool)
    (etcdWatchUpdate : Trees → Trees) (stream : Nat) (first : ConfigServer) (s : StreamState) :
    Prop where
  locked : ∀ m ∈ s.received, m.ribdAsync ribdAsyncUpdate = false
  waiting : s.waiting ⊆ s.received
  trees : ∃ done, s.received.filter StreamMsg.edits = done ++ s.waiting.filter StreamMsg.edits ∧
    Runs.run (Trees.handle env ent ribdAsyncUpdate etcdWatchUpdate) first.trees done =
      some s.server.trees
  single : s.server.registry.Single
  others : s.server.registry.others (some stream) = first.registry.others (some stream)
  ended : s.ended = true → s.server.registry.subs = first.registry.others (some stream) ∧
    s.waiting.all StreamMsg.edits

/-- The sets and deletes that wait, without the first of them. -/
theorem filter_eraseIdx {ms : List StreamMsg} {k : Nat} {m : StreamMsg} (hk : ms[k]? = some m) :
    (m.edits = false → (ms.eraseIdx k).filter StreamMsg.edits = ms.filter StreamMsg.edits) ∧
    (m.edits = true → ((ms.take k).all fun m => !m.edits) →
      ms.filter StreamMsg.edits = m :: (ms.eraseIdx k).filter StreamMsg.edits) := by
  have hsplit : ms = ms.take k ++ m :: ms.drop (k + 1) := by
    obtain ⟨hlt, rfl⟩ := List.getElem?_eq_some_iff.mp hk
    rw [← List.drop_eq_getElem_cons hlt, List.take_append_drop]
  have herase : ms.eraseIdx k = ms.take k ++ ms.drop (k + 1) := List.eraseIdx_eq_take_drop_succ ..
  rw [herase]
  constructor
  · intro hm
    conv_rhs => rw [hsplit]
    rw [List.filter_append, List.filter_append, List.filter_cons_of_neg (by simp [hm])]
  · intro hm hall
    have hnil : (ms.take k).filter StreamMsg.edits = [] := by
      rw [List.filter_eq_nil_iff]
      intro a ha
      simpa using List.all_eq_true.mp hall a ha
    conv_lhs => rw [hsplit]
    rw [List.filter_append, List.filter_append, hnil, List.filter_cons_of_pos hm]
    rfl

theorem Inv.step {first : ConfigServer} (s : StreamState) (a : Action) (s' : StreamState)
    (h : Inv env ent ribdAsyncUpdate etcdWatchUpdate stream first s)
    (ht : s.timely ribdAsyncUpdate a = true)
    (hs : s.step env ent ribdAsyncUpdate etcdWatchUpdate stream a = some s') :
    Inv env ent ribdAsyncUpdate etcdWatchUpdate stream first s' := by
  obtain ⟨done, hdone, hrun⟩ := h.trees
  cases a with
  | recv m =>
    rw [StreamState.step] at hs
    split at hs
    · cases hs
    · next he =>
      obtain rfl := Option.some.inj hs
      refine ⟨?_, ?_, ⟨done, ?_, hrun⟩, h.single, h.others, fun hc => absurd hc he⟩
      · intro a ha
        obtain ha | ha := List.mem_append.mp ha
        · exact h.locked a ha
        · rw [List.mem_singleton.mp ha]
          exact Bool.not_eq_true' _ ▸ ht
      · exact List.append_subset.mpr ⟨fun a ha => List.mem_append_left _ (h.waiting ha),
          List.subset_append_right _ _⟩
      · rw [List.filter_append, List.filter_append, hdone, List.append_assoc]
  | stop =>
    rw [StreamState.step] at hs
    split at hs
    · cases hs
    · obtain rfl := Option.some.inj hs
      have hsubs := h.single.delete (some stream)
      refine ⟨h.locked, h.waiting, ⟨done, hdone, hrun⟩, h.single.call _, ?_,
        fun _ => ⟨hsubs.trans h.others, ht⟩⟩
      show (s.server.registry.delete (some stream)).subs.filter _ = _
      rw [hsubs, ← h.others]
      exact List.filter_filter.trans (by simp [Registry.others])
  | start k =>
    obtain ⟨m, hk, hs⟩ := Option.bind_eq_some_iff.mp hs
    obtain ⟨server, hserver, rfl⟩ := Option.map_eq_some_iff.mp hs
    obtain ⟨trees, htrees, rfl⟩ := Option.map_eq_some_iff.mp hserver
    obtain ⟨hsub, hedit⟩ := filter_eraseIdx hk
    have hmem : m ∈ s.waiting := List.mem_of_getElem? hk
    have hreg := h.single.handle stream m
    refine ⟨h.locked, fun a ha => h.waiting (List.mem_of_mem_eraseIdx ha), ?_, hreg.1,
      hreg.2.trans h.others, ?_⟩
    · cases hm : m.edits with
      | false =>
        refine ⟨done, hdone.trans (by rw [hsub hm]), ?_⟩
        rw [Trees.handle_of_not_edits hm (h.locked m (h.waiting hmem))] at htrees
        rw [← Option.some.inj htrees]
        exact hrun
      | true =>
        rw [timely, hk] at ht
        simp only [Option.all_some, hm, Bool.not_true, Bool.false_or] at ht
        refine ⟨done ++ [m], ?_, ?_⟩
        · rw [hdone, hedit hm ht, List.append_assoc, List.singleton_append]
        · rw [Runs.run_snoc, hrun]
          exact htrees
    · intro hend
      obtain ⟨hsubs, hall⟩ := h.ended hend
      have hm : m.edits = true := List.all_eq_true.mp hall m hmem
      refine ⟨?_, ?_⟩
      · show (s.server.registry.handle stream m).subs = _
        cases m <;> first | exact hsubs | cases hm
      · rw [List.all_eq_true] at hall ⊢
        exact fun a ha => hall a (List.mem_of_mem_eraseIdx ha)
  | unlocked server =>
    rw [StreamState.step] at hs
    split at hs
    · next hany =>
      obtain ⟨m, hm, hasync⟩ := List.any_eq_true.mp hany
      rw [h.locked m hm] at hasync
      cases hasync
    · cases hs

end StreamState

/-- In every run that receives no subscription of `ribd` while `RibdAsyncUpdate` is set, whose
sets and deletes get the mutex in the order of their messages, and in which no goroutine that
subscribes is left when the stream ends: the trees are those of the first sets and deletes
received, no subscriber of the stream is left after its end, and when all goroutines have run,
the trees and `SubscribeMap` are those of handling the messages one after the other. -/
theorem stream_order (calls : List SubscribeCall) (trees : Trees) {as : List StreamState.Action}
    {s : StreamState}
    (ht : Runs.meets (StreamState.step env ent ribdAsyncUpdate etcdWatchUpdate stream)
      (StreamState.timely ribdAsyncUpdate) { server := ⟨trees, Registry.run calls⟩ } as = true)
    (hr : Runs.run (StreamState.step env ent ribdAsyncUpdate etcdWatchUpdate stream)
      { server := ⟨trees, Registry.run calls⟩ } as = some s) :
    (∃ done, done <+: s.received.filter StreamMsg.edits ∧
      Runs.run (Trees.handle env ent ribdAsyncUpdate etcdWatchUpdate) trees done =
        some s.server.trees) ∧
    (s.ended = true → s.server.registry.lookup (some stream) = none) ∧
    (s.ended = true → s.waiting = [] →
      ∃ t, (ConfigServer.mk trees (Registry.run calls)).handleAll env ent ribdAsyncUpdate
          etcdWatchUpdate stream s.received = some t ∧
        t.trees = s.server.trees ∧ t.registry.subs = s.server.registry.subs) := by
  have hsingle := Registry.Single.run calls
  have hinv : StreamState.Inv env ent ribdAsyncUpdate etcdWatchUpdate stream
      ⟨trees, Registry.run calls⟩ s :=
    Runs.run_invariant StreamState.Inv.step
      ⟨fun m hm => (List.not_mem_nil hm).elim, List.Subset.refl _, ⟨[], rfl, rfl⟩, hsingle, rfl,
        fun hc => by cases hc⟩ ht hr
  obtain ⟨done, hdone, hrun⟩ := hinv.trees
  refine ⟨⟨done, ⟨_, hdone.symm⟩, hrun⟩, ?_, ?_⟩
  · intro hend
    exact Registry.lookup_others (hinv.ended hend).1
  · intro hend hwait
    rw [hwait, List.filter_nil, List.append_nil] at hdone
    rw [← hdone, Runs.run_filter fun m hm hedits =>
      Trees.handle_of_not_edits hedits (hinv.locked m hm)] at hrun
    obtain ⟨h1, h2⟩ := hsingle.handles stream s.received
    let registry := s.received.foldl (Registry.handle stream) (Registry.run calls)
    refine ⟨ConfigServer.finish stream ⟨s.server.trees, registry⟩, ?_, rfl, ?_⟩
    · rw [ConfigServer.handleAll, ConfigServer.run_handle, hrun]
      rfl
    · exact (h1.delete _).trans (h2.trans (hinv.ended hend).1.symm)

/-- A subscription, a set and a delete of one path, and the end of the stream; the set runs
before the subscription. -/
def orderedStream : List StreamState.Action :=
  [.recv (.subscribe "ospfd" ["routes"]), .recv (.set ["routes", "route", "a", "x"]), .start 1,
    .recv (.delete ["routes"]), .start 0, .stop, .start 0]

theorem stream_order_ordered : ∃ s,
    Runs.run (StreamState.step .ascii routesSchema true id 1)
      { server := ⟨{}, Registry.run []⟩ } orderedStream = some s ∧
    s.server.registry.lookup (some 1) = none ∧
    ∃ t, (ConfigServer.mk {} (Registry.run [])).handleAll .ascii routesSchema true id 1 s.received =
        some t ∧ t.trees = s.server.trees := by
  obtain ⟨s, hs, hx⟩ := Option.map_eq_some_iff.mp (show
    (Runs.run (StreamState.step .ascii routesSchema true id 1)
      { server := ⟨{}, Registry.run []⟩ } orderedStream).map (fun s => (s.ended, s.waiting)) =
      some (true, []) by decide +kernel)
  simp only [Prod.mk.injEq] at hx
  have ht : Runs.meets (StreamState.step .ascii routesSchema true id 1) (StreamState.timely true)
      { server := ⟨{}, Registry.run []⟩ } orderedStream = true := by decide +kernel
  obtain ⟨-, hlookup, hall⟩ := stream_order [] {} ht hs
  obtain ⟨t, h1, h2, -⟩ := hall hx.1 hx.2
  exact ⟨s, hs, hlookup hx.1, t, h1, h2⟩

/-- A delete that overtakes the set before it deletes nothing, and a subscription that gets
the mutex after the end of its stream stays. -/
theorem stream_order_overtaken :
    (∃ s t, Runs.run (StreamState.step .ascii routesSchema false id 1) {}
        [.recv (.set ["routes", "route", "a", "x"]), .recv (.delete ["routes"]), .start 1, .start 0,
          .stop] = some s ∧
      ConfigServer.handleAll .ascii routesSchema false id 1 {} s.received = some t ∧
      t.trees.active ≠ s.server.trees.active) ∧
    ∃ s, Runs.run (StreamState.step .ascii routesSchema false id 1) {}
        [.recv (.subscribe "ospfd" ["routes"]), .stop, .start 0] = some s ∧
      s.ended = true ∧ s.waiting = [] ∧ s.server.registry.lookup (some 1) ≠ none := by
  constructor
  · obtain ⟨s, hs, hx⟩ := Option.map_eq_some_iff.mp (show
      (Runs.run (StreamState.step .ascii routesSchema false id 1) {}
        [.recv (.set ["routes", "route", "a", "x"]), .recv (.delete ["routes"]), .start 1, .start 0,
          .stop]).map (fun s => (s.received, s.server.trees.active.isEmpty)) =
        some ([.set ["routes", "route", "a", "x"], .delete ["routes"]], false) by decide +kernel)
    obtain ⟨t, ht, hy⟩ := Option.map_eq_some_iff.mp (show
      (ConfigServer.handleAll .ascii routesSchema false id 1 {}
        [.set ["routes", "route", "a", "x"], .delete ["routes"]]).map
          (fun t => t.trees.active.isEmpty) = some true by decide +kernel)
    simp only [Prod.mk.injEq] at hx
    refine ⟨s, t, hs, by rw [hx.1]; exact ht, fun hc => ?_⟩
    rw [hc, hx.2] at hy
    cases hy
  · obtain ⟨s, hs, hx⟩ := Option.map_eq_some_iff.mp (show
      (Runs.run (StreamState.step .ascii routesSchema false id 1) {}
        [.recv (.subscribe "ospfd" ["routes"]), .stop, .start 0]).map (fun s =>
          (s.ended, s.waiting, (s.server.registry.lookup (some 1)).isSome)) =
        some (true, [], true) by decide +kernel)
    simp only [Prod.mk.injEq] at hx
    obtain ⟨hend, hwait, hsome⟩ := hx
    refine ⟨s, hs, hend, hwait, fun hc => ?_⟩
    rw [hc] at hsome
    cases hsome

end OpenConfigd
