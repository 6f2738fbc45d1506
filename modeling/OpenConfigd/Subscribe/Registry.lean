import OpenConfigd.Subscribe.Trie

/-!
# Subscribing and unsubscribing

`SubscribeMap` with the trie of paths, and the calls that change them:
`SubscribeLocalAdd`, `SubscribeRemoteAdd`, `SubscribeRemoteAddMulti`,
`SubscribeAdd` and `SubscribeDelete`. Each of them holds `SubscribeMutex`, so a run
is a list of calls. The trie is sound for the live subscriptions after every run in
which there are never as many of them as a `Refcnt` can count to.
-/

namespace OpenConfigd

/-- A stream, `none` for the subscriber of the local callbacks. -/
abbrev Stream := Option Nat

/-- `RootPath` and `SubscribeMap`. `next` numbers the subscriptions. -/
structure Registry where
  trie : Trie := {}
  next : Nat := 0
  subs : List (Stream × List Subscription) := []

/-- The calls that change the subscriptions. -/
inductive SubscribeCall where
  | localAdd (path : List String)
  | remoteAdd (stream : Nat) (path : List String)
  | remoteAddMulti (stream : Nat) (paths : List String)
  | add (stream : Nat) (paths : List String)
  | delete (stream : Stream)

namespace Registry

/-- `SubscribeLookup`. -/
def lookup (r : Registry) (stream : Stream) : Option (Stream × List Subscription) :=
  r.subs.find? fun s => s.1 = stream

/-- The subscriber of the stream, made where there is none. -/
def subscriber (r : Registry) (stream : Stream) : Registry :=
  if (r.lookup stream).isSome then r else { r with subs := r.subs ++ [(stream, [])] }

/-- The subscription put behind those of the subscriber that `SubscribeLookup` finds. -/
def addTo (stream : Stream) (sp : Subscription) :
    List (Stream × List Subscription) → List (Stream × List Subscription)
  | [] => [(stream, [sp])]
  | s :: subs =>
    if s.1 = stream then (s.1, s.2 ++ [sp]) :: subs else s :: addTo stream sp subs

/-- A new subscription of the subscriber of the stream. -/
def register (stream : Stream) (r : Registry) (path : List String) : Registry :=
  let reg := r.trie.registerPath r.next path
  { trie := reg.1
    next := r.next + 1
    subs := addTo stream ⟨r.next, path, reg.2⟩ r.subs }

/-- The registrations of one call. -/
def subscribe (r : Registry) (stream : Stream) (paths : List (List String)) : Registry :=
  paths.foldl (register stream) (r.subscriber stream)

/-- `SubscribeDelete`. -/
def delete (r : Registry) (stream : Stream) : Registry :=
  match r.lookup stream with
  | none => r
  | some s =>
    { r with
      trie := s.2.foldl (fun h sp => h.unregisterPath sp.node) r.trie
      subs := r.subs.eraseP fun s => s.1 = stream }

/-- One call. Each path of `SubscribeRemoteAddMulti` and `SubscribeAdd` is one token. -/
def call (r : Registry) : SubscribeCall → Registry
  | .localAdd path => r.subscribe none [path]
  | .remoteAdd stream path => r.subscribe (some stream) [path]
  | .remoteAddMulti stream paths => r.subscribe (some stream) (paths.map fun path => [path])
  | .add stream paths => r.subscribe (some stream) (paths.map fun path => [path])
  | .delete stream => r.delete stream

/-- The calls one after the other. -/
def run (calls : List SubscribeCall) : Registry := calls.foldl call {}

/-- The subscriptions of the subscribers in `SubscribeMap`. -/
def live (r : Registry) : List Subscription := r.subs.flatMap (·.2)

/-- The live subscriptions whose path, followed from `RootPath`, passes through or ends
at a node. -/
def passing (r : Registry) (i : Nat) : Nat :=
  r.live.countP fun s => s.path.inits.any fun us => r.trie.follow 0 us = some i

/-! ## The live subscriptions -/

section

variable {r : Registry} {stream : Stream}

theorem addTo_perm (stream : Stream) (sp : Subscription)
    (subs : List (Stream × List Subscription)) :
    ((addTo stream sp subs).flatMap (·.2)).Perm (sp :: subs.flatMap (·.2)) := by
  induction subs with
  | nil => exact List.Perm.refl _
  | cons s subs ih =>
    rw [addTo]
    split
    · rw [List.flatMap_cons, List.flatMap_cons, List.append_assoc, List.singleton_append]
      exact List.perm_middle
    · rw [List.flatMap_cons, List.flatMap_cons]
      exact (ih.append_left s.2).trans List.perm_middle

theorem live_subscriber (r : Registry) (stream : Stream) : (r.subscriber stream).live = r.live := by
  rw [subscriber]
  split
  · rfl
  · simp only [live, List.flatMap_append, List.flatMap_cons, List.flatMap_nil, List.append_nil]

theorem trie_subscriber (r : Registry) (stream : Stream) : (r.subscriber stream).trie = r.trie := by
  rw [subscriber]
  split <;> rfl

theorem live_register (r : Registry) (stream : Stream) (path : List String) :
    (r.register stream path).live.Perm
      (⟨r.next, path, (r.trie.registerPath r.next path).2⟩ :: r.live) :=
  addTo_perm _ _ _

theorem length_live_subscribe (r : Registry) (stream : Stream) (paths : List (List String)) :
    (r.subscribe stream paths).live.length = r.live.length + paths.length := by
  rw [subscribe, ← live_subscriber r stream]
  generalize r.subscriber stream = r
  induction paths generalizing r with
  | nil => rfl
  | cons path paths ih =>
    have hlen := (live_register r stream path).length_eq
    rw [List.length_cons] at hlen
    rw [List.foldl_cons, ih, hlen, List.length_cons]
    omega

/-- Where the subscriber is found, its subscriptions are the first to go. -/
theorem live_delete {s : Stream × List Subscription} (hs : r.lookup stream = some s) :
    r.live.Perm (s.2 ++ (r.subs.eraseP fun s => s.1 = stream).flatMap (·.2)) := by
  rw [lookup] at hs
  rw [live]
  generalize r.subs = subs at hs ⊢
  induction subs with
  | nil => cases hs
  | cons a subs ih =>
    rw [List.find?_cons] at hs
    split at hs
    · next ha =>
      obtain rfl : a = s := Option.some.inj hs
      rw [List.eraseP_cons, ha]
      exact List.Perm.refl _
    · next ha =>
      rw [List.eraseP_cons, ha, cond_false, List.flatMap_cons, List.flatMap_cons]
      refine ((ih hs).append_left a.2).trans ?_
      rw [← List.append_assoc, ← List.append_assoc]
      exact List.perm_append_comm.append_right _

/-! ## Runs -/

/-- The trie is that of the live subscriptions. -/
def Sound (r : Registry) : Prop := r.trie.Sound r.live

theorem Sound.register (hs : r.Sound) (stream : Stream) (path : List String) (hlen : r.live.length + 1 < 2 ^ 32) :
    (r.register stream path).Sound :=
  (Trie.Sound.registerPath hs r.next path hlen).perm (live_register r stream path).symm

theorem Sound.subscriber (hs : r.Sound) (stream : Stream) : (r.subscriber stream).Sound := by
  rw [Registry.Sound, trie_subscriber, live_subscriber]
  exact hs

/-- Registrations of one subscriber after the other link no node made before them. -/
theorem Sound.registers (hs : r.Sound) (stream : Stream) (paths : List (List String))
    (hlen : r.live.length + paths.length < 2 ^ 32) :
    (paths.foldl (Registry.register stream) r).Sound ∧
      r.trie.size ≤ (paths.foldl (Registry.register stream) r).trie.size ∧
      (∀ us i, i < r.trie.size →
        (paths.foldl (Registry.register stream) r).trie.follow 0 us = some i →
        r.trie.follow 0 us = some i) ∧
      (∀ path ∈ paths, ∃ s ∈ (paths.foldl (Registry.register stream) r).live, s.path = path) ∧
      ∀ s ∈ r.live, s ∈ (paths.foldl (Registry.register stream) r).live := by
  induction paths generalizing r with
  | nil =>
    refine ⟨hs, le_rfl, fun _ _ _ hu => hu, ?_, fun _ hmem => hmem⟩
    intro path hmem
    cases hmem
  | cons path paths ih =>
    rw [List.length_cons] at hlen
    have hl := live_register r stream path
    have hlen' : (r.register stream path).live.length + paths.length < 2 ^ 32 := by
      rw [hl.length_eq, List.length_cons]
      omega
    obtain ⟨h1, h2, h3, h4, h5⟩ := ih (hs.register stream path (by omega)) hlen'
    have hsize := Trie.size_registerPath r.trie r.next path
    refine ⟨h1, hsize.trans h2, ?_, ?_, fun s hmem => h5 s (hl.mem_iff.mpr (.tail _ hmem))⟩
    · intro us i hi hu
      have := h3 us i (lt_of_lt_of_le hi hsize) hu
      exact Trie.Sound.follow_of_registerPath hs (by omega) hi this
    · intro p hp
      rcases List.mem_cons.mp hp with rfl | hp
      · exact ⟨_, h5 _ (hl.mem_iff.mpr List.mem_cons_self), rfl⟩
      · exact h4 p hp

theorem Sound.subscribe (hs : r.Sound) (paths : List (List String))
    (hlen : r.live.length + paths.length < 2 ^ 32) : (r.subscribe stream paths).Sound := by
  rw [← live_subscriber r stream] at hlen
  exact ((hs.subscriber stream).registers stream paths hlen).1

theorem Sound.delete (hs : r.Sound) (stream : Stream) : (r.delete stream).Sound := by
  rw [Registry.delete]
  cases hl : r.lookup stream with
  | none => exact hs
  | some s =>
    have hp : r.trie.Sound _ := Trie.Sound.perm hs (live_delete hl)
    show Trie.Sound (s.2.foldl (fun h sp => h.unregisterPath sp.node) r.trie) _
    generalize r.trie = h at hp ⊢
    generalize s.2 = sps at hp
    induction sps generalizing h with
    | nil => exact hp
    | cons sp sps ih => exact ih _ hp.unregisterPath

theorem Sound.empty : Sound {} where
  pos := Nat.one_pos
  blank _ _ := rfl
  root := rfl
  ordered p q hq := by cases hq
  made i h0 hi := absurd hi (by show ¬i < 1; omega)
  down p t q hq := by cases hq
  small := by decide
  reach s hs := by cases hs
  refcnt i hi := rfl
  linked i p hp := by cases hp
  underflow := rfl

theorem call_cases (r : Registry) (c : SubscribeCall) :
    (∃ stream paths, r.call c = r.subscribe stream paths) ∨
      ∃ stream, r.call c = r.delete stream := by
  cases c with
  | localAdd path => exact .inl ⟨none, _, rfl⟩
  | remoteAdd stream path => exact .inl ⟨some stream, _, rfl⟩
  | remoteAddMulti stream paths => exact .inl ⟨some stream, _, rfl⟩
  | add stream paths => exact .inl ⟨some stream, _, rfl⟩
  | delete stream => exact .inr ⟨stream, rfl⟩

/-- One call keeps the trie sound as long as the counts suffice. -/
theorem Sound.call (hs : r.Sound) (c : SubscribeCall) (hlen : (r.call c).live.length < 2 ^ 32) :
    (r.call c).Sound := by
  obtain ⟨stream, paths, hc⟩ | ⟨stream, hc⟩ := call_cases r c
  · rw [hc, length_live_subscribe] at hlen
    rw [hc]
    exact hs.subscribe paths hlen
  · rw [hc]
    exact hs.delete stream

/-- After every run with fewer than `2 ^ 32` live subscriptions at any time. -/
theorem Sound.run (calls : List SubscribeCall)
    (hlen : ∀ pre, pre <+: calls → (Registry.run pre).live.length < 2 ^ 32) :
    (Registry.run calls).Sound := by
  induction calls using List.reverseRecOn with
  | nil => exact Sound.empty
  | append_singleton calls c ih =>
    have hlast := hlen _ List.prefix_rfl
    rw [Registry.run, List.foldl_append] at hlast ⊢
    exact (ih fun pre hpre => hlen pre (hpre.trans (List.prefix_append _ _))).call c hlast

/-- The paths that pass through a node, seen from `RootPath` and from where they end. -/
theorem Sound.passing_eq (hs : r.Sound) (i : Nat) : r.passing i = r.trie.through r.live i := by
  refine List.countP_congr fun s hmem => ?_
  simp only [List.any_eq_true, List.mem_inits, decide_eq_true_eq]
  exact (hs.mem_chain (hs.reach s hmem)).symm

/-- What a call leaves on the part of a path that no live subscription had is made by it. -/
theorem Sound.subscribe_fresh (hs : r.Sound) {paths : List (List String)}
    (hlen : r.live.length + paths.length < 2 ^ 32) {path us : List String} (hp : path ∈ paths)
    (hus : us <+: path) (hne : us ≠ []) (hfree : ∀ s ∈ r.live, ¬us <+: s.path) :
    ∃ i, (r.subscribe stream paths).trie.follow 0 us = some i ∧ r.trie.size ≤ i := by
  have hlen' := hlen
  rw [← live_subscriber r stream] at hlen'
  obtain ⟨hsound, -, hold, hmade, -⟩ := (hs.subscriber stream).registers stream paths hlen'
  obtain ⟨s, hmem, hs'⟩ := hmade path hp
  obtain ⟨i, hi⟩ := Option.isSome_iff_exists.mp
    ((hsound.follow_isSome hne).mpr ⟨s, hmem, hs' ▸ hus⟩)
  refine ⟨i, hi, ?_⟩
  by_contra hlt
  rw [trie_subscriber] at hold
  have hsome : (r.trie.follow 0 us).isSome := by
    rw [hold us i (by omega) hi]
    rfl
  obtain ⟨s, hmem, hpre⟩ := (Trie.Sound.follow_isSome hs hne).mp hsome
  exact hfree s hmem hpre

end

/-- After every run of calls in which the live subscriptions are never more than a `Refcnt`
can count, for every node other than `RootPath`: its `Refcnt` is the number of live paths
that pass through or end at it, and it is in the map of its parent exactly when there are
any. No `Refcnt` went below zero, the live subscriptions are where their paths lead, and
new subscriptions get fresh nodes where no live path leads. -/
theorem path_refcounts (calls : List SubscribeCall)
    (hlen : ∀ pre, pre <+: calls → (run pre).live.length < 2 ^ 32) :
    (∀ i, i ≠ 0 → ((run calls).trie.node i).refcnt = (run calls).passing i) ∧
    (∀ i p, ((run calls).trie.node i).parent = some p →
      ((∃ t, ((run calls).trie.node p).map t = some i) ↔ 0 < (run calls).passing i)) ∧
    (run calls).trie.underflow = false ∧
    (∀ s ∈ (run calls).live, (run calls).trie.follow 0 s.path = some s.node) ∧
    ∀ stream paths, (run calls).live.length + paths.length < 2 ^ 32 →
      ∀ path ∈ paths, ∀ us, us <+: path → us ≠ [] → (∀ s ∈ (run calls).live, ¬us <+: s.path) →
        ∃ i, ((run calls).subscribe stream paths).trie.follow 0 us = some i ∧
          (run calls).trie.size ≤ i := by
  have hs := Sound.run calls hlen
  refine ⟨?_, ?_, hs.underflow, hs.reach, ?_⟩
  · intro i hi
    rw [hs.passing_eq]
    exact hs.refcnt i hi
  · intro i p hp
    rw [hs.passing_eq, ← hs.linked i p hp]
    constructor
    · rintro ⟨t, ht⟩
      rw [(hs.down p t i ht).2.1]
      exact ht
    · exact fun hm => ⟨_, hm⟩
  · intro stream paths hl path hp us hus hne hfree
    exact hs.subscribe_fresh hl hp hus hne hfree

/-- Two paths that share a node, one of them given up again. -/
theorem path_refcounts_shared :
    (∀ pre, pre <+: [.localAdd ["a", "b"], .remoteAdd 1 ["a", "c"], .delete (some 1)] →
      (run pre).live.length < 2 ^ 32) ∧
    ((run [.localAdd ["a", "b"], .remoteAdd 1 ["a", "c"], .delete (some 1)]).trie.node 1).refcnt =
      (run [.localAdd ["a", "b"], .remoteAdd 1 ["a", "c"], .delete (some 1)]).passing 1 := by
  have hlen : ∀ pre, pre <+: [.localAdd ["a", "b"], .remoteAdd 1 ["a", "c"], .delete (some 1)] →
      (run pre).live.length < 2 ^ 32 := by
    intro pre hpre
    rw [← List.mem_inits] at hpre
    revert pre
    decide
  exact ⟨hlen, (path_refcounts _ hlen).1 1 (by decide)⟩

/-- The same path again and again. -/
theorem run_replicate (n : Nat) : ∃ sps : List Subscription,
    (run (List.replicate (n + 1) (.localAdd ["a"]))).subs = [(none, sps)] ∧
    sps.length = n + 1 ∧ (∀ s ∈ sps, s.path = ["a"]) ∧
    ((run (List.replicate (n + 1) (.localAdd ["a"]))).trie.node 0).map "a" = some 1 ∧
    ((run (List.replicate (n + 1) (.localAdd ["a"]))).trie.node 1).refcnt = (n + 1) % 2 ^ 32 := by
  induction n with
  | zero => exact ⟨[⟨0, ["a"], 1⟩], rfl, rfl, by simp, rfl, rfl⟩
  | succ n ih =>
    obtain ⟨sps, hsubs, hlen, hpath, hmap, href⟩ := ih
    have hrun : run (List.replicate (n + 1 + 1) (.localAdd ["a"])) =
        (run (List.replicate (n + 1) (.localAdd ["a"]))).subscribe none [["a"]] := by
      rw [List.replicate_succ', run, List.foldl_append]
      rfl
    rw [hrun]
    generalize run (List.replicate (n + 1) (.localAdd ["a"])) = r at hsubs hmap href
    have hsub : r.subscriber none = r := by
      rw [subscriber, lookup, hsubs]
      rfl
    have hreg : r.trie.registerPath r.next ["a"] =
        ((r.trie.count 1).modify 1 fun x => { x with subPath := x.subPath ++ [r.next] }, 1) := by
      rw [Trie.registerPath, Trie.descend, Trie.descend, Trie.enter, hmap]
    refine ⟨sps ++ [⟨r.next, ["a"], 1⟩], ?_, ?_, ?_, ?_, ?_⟩
    · simp only [subscribe, hsub, List.foldl_cons, List.foldl_nil, register, hreg, hsubs, addTo,
        if_true]
    · rw [List.length_append, hlen]
      rfl
    · intro s hs
      rcases List.mem_append.mp hs with hs | hs
      · exact hpath s hs
      · rw [List.mem_singleton.mp hs]
    · simp only [subscribe, hsub, List.foldl_cons, List.foldl_nil, register, hreg]
      rw [Trie.node_modify, if_neg (by decide), Trie.map_count]
      exact hmap
    · simp only [subscribe, hsub, List.foldl_cons, List.foldl_nil, register, hreg]
      rw [Trie.node_modify, if_pos rfl]
      show ((r.trie.count 1).node 1).refcnt = _
      rw [Trie.refcnt_count, if_pos rfl, href]
      omega

/-- The `Refcnt` of `RootPath` stays at zero, and that of a path subscribed `2 ^ 32` times
is zero again. -/
theorem path_refcounts_root :
    ¬(∀ (calls : List SubscribeCall) (i : Nat), i < (run calls).trie.size →
      ((run calls).trie.node i).refcnt = (run calls).passing i) ∧
    ¬(∀ (calls : List SubscribeCall) (i : Nat), i ≠ 0 →
      ((run calls).trie.node i).refcnt = (run calls).passing i) := by
  constructor
  · intro hall
    have := hall [.localAdd ["a"]] 0 (by decide)
    revert this
    decide
  · intro hall
    obtain ⟨sps, hsubs, hlen, hpath, hmap, href⟩ := run_replicate (2 ^ 32 - 1)
    have := hall (List.replicate (2 ^ 32 - 1 + 1) (.localAdd ["a"])) 1 (by decide)
    generalize run (List.replicate (2 ^ 32 - 1 + 1) (.localAdd ["a"])) = r at *
    have hpass : r.passing 1 = 2 ^ 32 := by
      rw [passing, live, hsubs, List.flatMap_singleton, List.countP_eq_length.mpr]
      · exact hlen
      · intro s hs
        rw [hpath s hs, List.any_eq_true]
        refine ⟨["a"], by simp, ?_⟩
        simp [Trie.follow, hmap]
    rw [href, hpass] at this
    revert this
    decide

end Registry

end OpenConfigd
