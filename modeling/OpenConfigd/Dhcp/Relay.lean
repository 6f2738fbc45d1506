import OpenConfigd.Dhcp.Server
import OpenConfigd.Go.Map

/-!
# The processes of the DHCP relay

A `dhcrelay` is known by the exit function that `RelayGroupExec` returns, which its instance keeps.
Calling it twice closes a channel twice; losing it leaves the process.

* `Owned`: every process that lives is kept by the instance of its interface, and no other;
* `stop_owned`, `start_owned`, `Owned.idle`: what each loop body and each change of the map keeps;
* `relay_processes`: which processes live after any run.
-/

namespace OpenConfigd.Relay

open Dhcpd (ServerGroup)

/-- A `dhcrelay`, with the number of calls of its exit function. -/
structure Process where
  ifName : String
  vrf : String
  servers : List String
  exits : Nat := 0
  deriving DecidableEq, Repr

/-- `RelayInstance`; the exit function is that of a process, by its number. -/
structure RelayInstance where
  ifName : String
  vrf : String
  group : String
  exitFunc : Option Nat := none
  deriving DecidableEq, Repr

/-- All processes started so far, `RelayInstanceMap` and `RelayGroupMap`. -/
structure State where
  processes : List Process := []
  relayInstanceMap : GoMap String RelayInstance := ∅
  relayGroupMap : GoMap String (List String) := ∅

namespace State

/-- A call of an exit function. -/
def callExit (s : State) (id : Nat) : State :=
  { s with processes := s.processes.modify id fun p => { p with exits := p.exits + 1 } }

/-- The exit function of an instance, if it has one, is called and cleared. -/
def stop (s : State) (key : String) : State :=
  match s.relayInstanceMap.lookup key with
  | none => s
  | some instance' =>
    match instance'.exitFunc with
    | none => s
    | some id =>
      { s.callExit id with
        relayInstanceMap := s.relayInstanceMap.insert key { instance' with exitFunc := none } }

/-- `RelayGroupExec` for an instance whose group is there. -/
def start (s : State) (key : String) : State :=
  match s.relayInstanceMap.lookup key with
  | none => s
  | some instance' =>
    match s.relayGroupMap.lookup instance'.group with
    | none => s
    | some servers =>
      { s with
        processes := s.processes ++ [{ ifName := instance'.ifName, vrf := instance'.vrf, servers }]
        relayInstanceMap := s.relayInstanceMap.insert key
          { instance' with exitFunc := some s.processes.length } }

/-- `RelayExitFunc`, with the order of its loop. -/
def relayExitFunc (s : State) (order : List String) : State := order.foldl stop s

/-- The groups of a document. -/
def groupMap (groups : List ServerGroup) : GoMap String (List String) :=
  groups.foldl (fun m g => m.insert g.serverGroupName g.serverAddressList) ∅

/-- `RelayGroupUpdate`, with the orders of its loops. -/
def relayGroupUpdate (s : State) (groups : List ServerGroup) (order order' : List String) : State :=
  order'.foldl start { s.relayExitFunc order with relayGroupMap := groupMap groups }

/-- `RelayAdd`; `vrf` is what `ConfigLookupVrf` finds. -/
def relayAdd (s : State) (ifName group vrf : String) : State :=
  let s := s.stop ifName
  start { s with relayInstanceMap := s.relayInstanceMap.insert ifName { ifName, vrf, group } } ifName

/-- `RelayDelete`, which does not look at the group. -/
def relayDelete (s : State) (ifName : String) : State :=
  let s := s.stop ifName
  { s with relayInstanceMap := s.relayInstanceMap.erase ifName }

end State

/-- A call, with the orders in which Go ranges over `RelayInstanceMap`. -/
inductive Call where
  | relayAdd (ifName group vrf : String)
  | relayDelete (ifName group : String)
  | relayGroupUpdate (groups : List ServerGroup) (order order' : List String)
  | relayExitFunc (order : List String)

/-- The state after a call. -/
def Call.step (s : State) : Call → State
  | .relayAdd ifName group vrf => s.relayAdd ifName group vrf
  | .relayDelete ifName _ => s.relayDelete ifName
  | .relayGroupUpdate groups order order' => s.relayGroupUpdate groups order order'
  | .relayExitFunc order => s.relayExitFunc order

/-- The loops visit every instance once. -/
def Call.Ranges (s : State) : Call → Prop
  | .relayGroupUpdate _ order order' =>
    order.Perm s.relayInstanceMap.keys ∧ order'.Perm s.relayInstanceMap.keys
  | .relayExitFunc order => order.Perm s.relayInstanceMap.keys
  | _ => True

/-- The states that calls lead to from none, the latest call first. -/
inductive Run : List Call → State → Prop
  | nil : Run [] {}
  | call {calls : List Call} {s : State} {c : Call} :
    Run calls s → c.Ranges s → Run (c :: calls) (c.step s)

/-- The interface was added, or the groups updated, since the last `RelayExitFunc`. -/
def renewed (key : String) : List Call → Bool
  | [] => false
  | .relayAdd ifName _ _ :: calls => ifName = key || renewed key calls
  | .relayDelete _ _ :: calls => renewed key calls
  | .relayGroupUpdate _ _ _ :: _ => true
  | .relayExitFunc _ :: _ => false

/-- The process lives. -/
def State.Lives (s : State) (id : Nat) (p : Process) : Prop :=
  s.processes[id]? = some p ∧ p.exits = 0

/-- What holds of the processes and the instances between the steps of every call. -/
structure State.Owned (s : State) : Prop where
  named : ∀ key i, s.relayInstanceMap.lookup key = some i → i.ifName = key
  keeps : ∀ key i id, s.relayInstanceMap.lookup key = some i → i.exitFunc = some id →
    ∃ p, s.Lives id p ∧ p.ifName = key ∧ p.vrf = i.vrf ∧
      s.relayGroupMap.lookup i.group = some p.servers
  kept : ∀ id p, s.Lives id p →
    ∃ key i, s.relayInstanceMap.lookup key = some i ∧ i.exitFunc = some id
  once : ∀ p ∈ s.processes, p.exits ≤ 1

namespace State

variable {s : State} {key : String}

/-! ## One instance -/

@[simp] theorem stop_relayGroupMap (s : State) (key : String) :
    (s.stop key).relayGroupMap = s.relayGroupMap := by
  rw [stop]
  split
  · rfl
  · split <;> rfl

@[simp] theorem start_relayGroupMap (s : State) (key : String) :
    (s.start key).relayGroupMap = s.relayGroupMap := by
  rw [start]
  split
  · rfl
  · split <;> rfl

theorem lookup_stop (s : State) (key k : String) : (s.stop key).relayInstanceMap.lookup k =
    if k = key then (s.relayInstanceMap.lookup k).map fun i => { i with exitFunc := none }
    else s.relayInstanceMap.lookup k := by
  rw [stop]
  split
  · rename_i h
    split
    · rename_i hk
      rw [hk, h]
      rfl
    · rfl
  · rename_i i h
    split
    · rename_i he
      split
      · rename_i hk
        rw [hk, h, Option.map_some, ← he]
      · rfl
    · split
      · rename_i hk
        rw [hk, h, AList.lookup_insert]
        rfl
      · rename_i hk
        exact AList.lookup_insert_ne hk

theorem lookup_start (s : State) (key k : String) : (s.start key).relayInstanceMap.lookup k =
    if k = key then (s.relayInstanceMap.lookup k).map fun i =>
      if (s.relayGroupMap.lookup i.group).isSome then { i with exitFunc := some s.processes.length }
      else i
    else s.relayInstanceMap.lookup k := by
  rw [start]
  split
  · rename_i h
    split
    · rename_i hk
      rw [hk, h]
      rfl
    · rfl
  · rename_i i h
    split
    · rename_i hg
      split
      · rename_i hk
        rw [hk, h, Option.map_some, hg]
        rfl
      · rfl
    · rename_i servers hg
      split
      · rename_i hk
        rw [hk, h, AList.lookup_insert, Option.map_some, hg]
        rfl
      · rename_i hk
        exact AList.lookup_insert_ne hk

/-- A process is kept by one instance only. -/
theorem Owned.key_inj (h : s.Owned) {k k' : String} {i i' : RelayInstance} {id : Nat}
    (hk : s.relayInstanceMap.lookup k = some i) (hi : i.exitFunc = some id)
    (hk' : s.relayInstanceMap.lookup k' = some i') (hi' : i'.exitFunc = some id) : k = k' := by
  obtain ⟨p, hp, rfl, -⟩ := h.keeps k i id hk hi
  obtain ⟨p', hp', hname, -⟩ := h.keeps k' i' id hk' hi'
  obtain rfl : p = p' := Option.some.inj (hp.1.symm.trans hp'.1)
  exact hname

theorem getElem?_callExit (s : State) (id id' : Nat) : (s.callExit id).processes[id']? =
    if id = id' then s.processes[id']?.map fun p => { p with exits := p.exits + 1 }
    else s.processes[id']? := by
  rw [callExit, List.getElem?_modify]
  split <;> simp

/-- The body of the loop of `RelayExitFunc`. -/
theorem stop_owned (h : s.Owned) (key : String) : (s.stop key).Owned := by
  cases hk : s.relayInstanceMap.lookup key with
  | none =>
    rw [stop, hk]
    exact h
  | some i =>
    cases he : i.exitFunc with
    | none =>
      rw [stop, hk]
      simp only [he]
      exact h
    | some id =>
      obtain ⟨p, hp, -⟩ := h.keeps key i id hk he
      have hlookup (k : String) := lookup_stop s key k
      have hproc : (s.stop key).processes = (s.callExit id).processes := by
        rw [stop, hk]
        simp only [he]
      have hother {k : String} {i' : RelayInstance} {id' : Nat}
          (hk' : (s.stop key).relayInstanceMap.lookup k = some i') (he' : i'.exitFunc = some id') :
          k ≠ key ∧ s.relayInstanceMap.lookup k = some i' := by
        rw [hlookup] at hk'
        split at hk'
        · obtain ⟨b, -, rfl⟩ := Option.map_eq_some_iff.mp hk'
          cases he'
        · rename_i hne
          exact ⟨hne, hk'⟩
      refine ⟨fun k i' hk' => ?_, fun k i' id' hk' he' => ?_, fun id' p' hp' => ?_, fun q hq => ?_⟩
      · rw [hlookup] at hk'
        split at hk'
        · obtain ⟨b, hb, rfl⟩ := Option.map_eq_some_iff.mp hk'
          exact h.named k b hb
        · exact h.named k i' hk'
      · obtain ⟨hne, hk'⟩ := hother hk' he'
        obtain ⟨q, hq, hrest⟩ := h.keeps k i' id' hk' he'
        refine ⟨q, ⟨?_, hq.2⟩, by rwa [stop_relayGroupMap]⟩
        rw [hproc, getElem?_callExit, if_neg, hq.1]
        rintro rfl
        exact hne (h.key_inj hk' he' hk he)
      · rw [Lives, hproc, getElem?_callExit] at hp'
        split at hp'
        · obtain ⟨hp', hz⟩ := hp'
          obtain ⟨b, -, rfl⟩ := Option.map_eq_some_iff.mp hp'
          exact absurd hz (Nat.succ_ne_zero _)
        · rename_i hid
          obtain ⟨k, i', hk', he'⟩ := h.kept id' p' hp'
          refine ⟨k, i', ?_, he'⟩
          rw [hlookup, if_neg, hk']
          rintro rfl
          rw [hk] at hk'
          cases hk'
          exact hid (Option.some.inj (he.symm.trans he'))
      · rw [hproc] at hq
        obtain ⟨id', hid'⟩ := List.getElem?_of_mem hq
        rw [getElem?_callExit] at hid'
        split at hid'
        · rename_i hid
          rw [← hid, hp.1] at hid'
          obtain rfl := Option.some.inj hid'
          exact (Nat.succ_le_succ (Nat.le_of_eq hp.2) : _)
        · exact h.once q (List.mem_of_getElem? hid')

/-- The body of the second loop of `RelayGroupUpdate`. -/
theorem start_owned (h : s.Owned)
    (hn : ∀ i, s.relayInstanceMap.lookup key = some i → i.exitFunc = none) :
    (s.start key).Owned := by
  cases hk : s.relayInstanceMap.lookup key with
  | none =>
    rw [start, hk]
    exact h
  | some i =>
    cases hg : s.relayGroupMap.lookup i.group with
    | none =>
      rw [start, hk]
      simp only [hg]
      exact h
    | some servers =>
      have hlookup (k : String) := lookup_start s key k
      have hproc : (s.start key).processes =
          s.processes ++ [{ ifName := i.ifName, vrf := i.vrf, servers }] := by
        rw [start, hk]
        simp only [hg]
      have hself : (s.start key).relayInstanceMap.lookup key =
          some { i with exitFunc := some s.processes.length } := by
        rw [hlookup, if_pos rfl, hk, Option.map_some, hg]
        rfl
      have hold {id : Nat} {p : Process} (hp : s.processes[id]? = some p) :
          (s.start key).processes[id]? = some p := by
        rw [hproc, List.getElem?_append_left (List.getElem?_eq_some_iff.mp hp).1, hp]
      refine ⟨fun k i' hk' => ?_, fun k i' id hk' he' => ?_, fun id p hp => ?_, fun p hp => ?_⟩
      · by_cases hne : k = key
        · subst hne
          obtain rfl := Option.some.inj (hself.symm.trans hk')
          exact h.named k i hk
        · rw [hlookup, if_neg hne] at hk'
          exact h.named k i' hk'
      · rw [start_relayGroupMap]
        by_cases hne : k = key
        · subst hne
          obtain rfl := Option.some.inj (hself.symm.trans hk')
          obtain rfl := Option.some.inj he'
          refine ⟨{ ifName := i.ifName, vrf := i.vrf, servers }, ⟨?_, rfl⟩, h.named k i hk, rfl, hg⟩
          rw [hproc]
          exact List.getElem?_concat_length
        · rw [hlookup, if_neg hne] at hk'
          obtain ⟨p, hp, hrest⟩ := h.keeps k i' id hk' he'
          exact ⟨p, ⟨hold hp.1, hp.2⟩, hrest⟩
      · obtain ⟨hid, hz⟩ := hp
        rw [hproc] at hid
        rcases Nat.lt_or_ge id s.processes.length with hlt | hge
        · rw [List.getElem?_append_left hlt] at hid
          obtain ⟨k, i', hk', he'⟩ := h.kept id p ⟨hid, hz⟩
          refine ⟨k, i', ?_, he'⟩
          rw [hlookup, if_neg, hk']
          rintro rfl
          rw [hn i' hk'] at he'
          cases he'
        · have hlen := (List.getElem?_eq_some_iff.mp hid).1
          rw [List.length_append, List.length_singleton] at hlen
          obtain rfl : id = s.processes.length := by omega
          exact ⟨key, _, hself, rfl⟩
      · rw [hproc, List.mem_append, List.mem_singleton] at hp
        rcases hp with hp | rfl
        · exact h.once p hp
        · exact Nat.zero_le 1

/-- An instance without an exit function can be replaced by another such one, or go. -/
theorem Owned.idle {m : GoMap String RelayInstance} (h : s.Owned)
    (hn : ∀ i, s.relayInstanceMap.lookup key = some i → i.exitFunc = none)
    (hm : ∀ k, k ≠ key → m.lookup k = s.relayInstanceMap.lookup k)
    (hi : ∀ i, m.lookup key = some i → i.ifName = key ∧ i.exitFunc = none) :
    { s with relayInstanceMap := m }.Owned := by
  refine ⟨fun k i hk => ?_, fun k i id hk he => ?_, fun id p hp => ?_, h.once⟩
  · by_cases hne : k = key
    · subst hne
      exact (hi i hk).1
    · exact h.named k i ((hm k hne).symm.trans hk)
  · by_cases hne : k = key
    · subst hne
      rw [(hi i hk).2] at he
      cases he
    · exact h.keeps k i id ((hm k hne).symm.trans hk) he
  · obtain ⟨k, i, hk, he⟩ := h.kept id p hp
    refine ⟨k, i, (hm k ?_).trans hk, he⟩
    rintro rfl
    rw [hn i hk] at he
    cases he

/-! ## The loops -/

theorem relayExitFunc_owned (h : s.Owned) (order : List String) : (s.relayExitFunc order).Owned := by
  induction order generalizing s with
  | nil => exact h
  | cons key order ih => exact ih (stop_owned h key)

@[simp] theorem relayExitFunc_relayGroupMap (s : State) (order : List String) :
    (s.relayExitFunc order).relayGroupMap = s.relayGroupMap := by
  induction order generalizing s with
  | nil => rfl
  | cons key order ih => exact (ih (s.stop key)).trans (stop_relayGroupMap s key)

/-- The loop clears the exit functions of the instances it visits. -/
theorem lookup_relayExitFunc (s : State) (order : List String) (k : String) :
    (s.relayExitFunc order).relayInstanceMap.lookup k =
      if k ∈ order then (s.relayInstanceMap.lookup k).map fun i => { i with exitFunc := none }
      else s.relayInstanceMap.lookup k := by
  induction order generalizing s with
  | nil => simp [relayExitFunc]
  | cons key order ih =>
    have hstep : s.relayExitFunc (key :: order) = (s.stop key).relayExitFunc order := rfl
    rw [hstep, ih, lookup_stop]
    by_cases hk : k = key <;> by_cases hm : k ∈ order <;> simp [hk, hm, Option.map_map, Function.comp_def]

/-- `RelayExitFunc` leaves no instance with an exit function. -/
theorem exitFunc_relayExitFunc {order : List String} (ho : order.Perm s.relayInstanceMap.keys)
    {k : String} {i : RelayInstance} (hk : (s.relayExitFunc order).relayInstanceMap.lookup k = some i) :
    i.exitFunc = none ∧ ∃ i', s.relayInstanceMap.lookup k = some i' := by
  rw [lookup_relayExitFunc] at hk
  split at hk
  · obtain ⟨i', hi', rfl⟩ := Option.map_eq_some_iff.mp hk
    exact ⟨rfl, i', hi'⟩
  · rename_i hm
    rw [ho.mem_iff, ← AList.mem_keys, ← AList.lookup_isSome, hk] at hm
    exact absurd rfl hm

/-- The second loop of `RelayGroupUpdate`. -/
theorem foldl_start (h : s.Owned) {order : List String} (hnd : order.Nodup)
    (hn : ∀ k ∈ order, ∀ i, s.relayInstanceMap.lookup k = some i → i.exitFunc = none) :
    (order.foldl start s).Owned ∧ (order.foldl start s).relayGroupMap = s.relayGroupMap ∧
      (∀ k, k ∉ order → (order.foldl start s).relayInstanceMap.lookup k = s.relayInstanceMap.lookup k) ∧
      ∀ k ∈ order, ∀ i, (order.foldl start s).relayInstanceMap.lookup k = some i →
        (i.exitFunc.isSome ↔ (s.relayGroupMap.lookup i.group).isSome) ∧
          (s.relayInstanceMap.lookup k).isSome := by
  induction order generalizing s with
  | nil => exact ⟨h, rfl, fun _ _ => rfl, fun _ hk => absurd hk List.not_mem_nil⟩
  | cons key order ih =>
    rw [List.nodup_cons] at hnd
    have hlookup (k : String) := lookup_start s key k
    have hother {k : String} (hk : k ≠ key) :
        (s.start key).relayInstanceMap.lookup k = s.relayInstanceMap.lookup k := by
      rw [hlookup, if_neg hk]
    obtain ⟨howned, hgroups, hout, hin⟩ := ih
      (start_owned h (hn key List.mem_cons_self)) hnd.2 fun k hk i hi => by
        rw [hother (by rintro rfl; exact hnd.1 hk)] at hi
        exact hn k (List.mem_cons_of_mem _ hk) i hi
    rw [start_relayGroupMap] at hgroups
    refine ⟨howned, hgroups, fun k hk => ?_, fun k hk i hi => ?_⟩
    · rw [List.mem_cons, not_or] at hk
      exact (hout k hk.2).trans (hother hk.1)
    · rw [List.foldl_cons] at hi
      rcases List.mem_cons.mp hk with rfl | hm
      · rw [hout k hnd.1, hlookup, if_pos rfl] at hi
        obtain ⟨b, hb, rfl⟩ := Option.map_eq_some_iff.mp hi
        have hidle := hn k List.mem_cons_self b hb
        refine ⟨?_, by rw [hb]; rfl⟩
        by_cases hg : (s.relayGroupMap.lookup b.group).isSome = true
        · rw [if_pos hg]
          exact iff_of_true rfl hg
        · rw [if_neg hg, hidle]
          exact iff_of_false (by simp) hg
      · have hne : k ≠ key := by
          rintro rfl
          exact hnd.1 hm
        have hres := hin k hm i hi
        rwa [start_relayGroupMap, hother hne] at hres

end State

/-! ## Runs -/

/-- What holds after a run: the processes are owned, and an instance has one just if its interface
was renewed and its group is there. -/
structure Settled (calls : List Call) (s : State) : Prop where
  owned : s.Owned
  runs : ∀ key i, s.relayInstanceMap.lookup key = some i →
    (i.exitFunc.isSome ↔ (s.relayGroupMap.lookup i.group).isSome ∧ renewed key calls = true)

theorem Settled.call {calls : List Call} {s : State} (h : Settled calls s) {c : Call}
    (hr : c.Ranges s) : Settled (c :: calls) (c.step s) := by
  have hidle (key : String) : ∀ i, (s.stop key).relayInstanceMap.lookup key = some i →
      i.exitFunc = none := by
    intro i hi
    rw [State.lookup_stop, if_pos rfl] at hi
    obtain ⟨b, -, rfl⟩ := Option.map_eq_some_iff.mp hi
    rfl
  have hstop {key k : String} (hne : k ≠ key) :
      (s.stop key).relayInstanceMap.lookup k = s.relayInstanceMap.lookup k := by
    rw [State.lookup_stop, if_neg hne]
  cases c with
  | relayAdd ifName group vrf =>
    have hins : ({ s.stop ifName with relayInstanceMap :=
        (s.stop ifName).relayInstanceMap.insert ifName { ifName, vrf, group } } : State).Owned := by
      refine (State.stop_owned h.owned ifName).idle (hidle ifName)
        (fun k hne => AList.lookup_insert_ne hne) fun i hi => ?_
      rw [AList.lookup_insert] at hi
      obtain rfl := Option.some.inj hi
      exact ⟨rfl, rfl⟩
    refine ⟨State.start_owned hins fun i hi => ?_, fun k i hi => ?_⟩
    · rw [AList.lookup_insert] at hi
      obtain rfl := Option.some.inj hi
      rfl
    · have hgroups : (Call.step s (.relayAdd ifName group vrf)).relayGroupMap = s.relayGroupMap :=
        (State.start_relayGroupMap _ ifName).trans (State.stop_relayGroupMap s ifName)
      rw [hgroups]
      rw [Call.step, State.relayAdd, State.lookup_start] at hi
      split at hi
      · rename_i hk
        subst hk
        rw [AList.lookup_insert, Option.map_some] at hi
        simp only [State.stop_relayGroupMap] at hi
        by_cases hg : (s.relayGroupMap.lookup group).isSome = true
        · rw [if_pos hg] at hi
          obtain rfl := Option.some.inj hi
          exact iff_of_true rfl ⟨hg, by simp [renewed]⟩
        · rw [if_neg hg] at hi
          obtain rfl := Option.some.inj hi
          exact iff_of_false (by simp) fun hrun => hg hrun.1
      · rename_i hne
        rw [AList.lookup_insert_ne hne, hstop hne] at hi
        rw [h.runs k i hi, renewed]
        simp [Ne.symm hne]
  | relayDelete ifName group =>
    refine ⟨(State.stop_owned h.owned ifName).idle (hidle ifName)
      (fun k hne => AList.lookup_erase_ne hne) fun i hi => ?_, fun k i hi => ?_⟩
    · rw [AList.lookup_erase] at hi
      cases hi
    · have hne : k ≠ ifName := by
        rintro rfl
        rw [Call.step, State.relayDelete, AList.lookup_erase] at hi
        cases hi
      rw [Call.step, State.relayDelete, AList.lookup_erase_ne hne, hstop hne] at hi
      have hgroups : (Call.step s (.relayDelete ifName group)).relayGroupMap = s.relayGroupMap :=
        State.stop_relayGroupMap s ifName
      rw [hgroups]
      exact h.runs k i hi
  | relayGroupUpdate groups order order' =>
    obtain ⟨ho, ho'⟩ := hr
    -- After the first loop no process lives, so the groups can be replaced.
    have hex := State.relayExitFunc_owned h.owned order
    have hnone {k : String} {i : RelayInstance}
        (hk : (s.relayExitFunc order).relayInstanceMap.lookup k = some i) : i.exitFunc = none :=
      (State.exitFunc_relayExitFunc ho hk).1
    have hcleared : ({ s.relayExitFunc order with
        relayGroupMap := State.groupMap groups } : State).Owned := by
      refine ⟨hex.named, fun k i id hk he => ?_, hex.kept, hex.once⟩
      rw [hnone hk] at he
      cases he
    obtain ⟨howned, hgroups, hout, hin⟩ := State.foldl_start hcleared
      (ho'.nodup_iff.mpr s.relayInstanceMap.keys_nodup) fun k _ i hk => hnone hk
    refine ⟨howned, fun k i hi => ?_⟩
    have hk : k ∈ order' := by
      by_contra hk
      obtain ⟨i', hi'⟩ := (State.exitFunc_relayExitFunc ho ((hout k hk).symm.trans hi)).2
      refine hk (ho'.mem_iff.mpr (AList.mem_keys.mp (AList.lookup_isSome.mp ?_)))
      rw [hi']
      rfl
    rw [show (Call.step s (.relayGroupUpdate groups order order')).relayGroupMap =
      State.groupMap groups from hgroups]
    simpa [renewed] using (hin k hk i hi).1
  | relayExitFunc order =>
    refine ⟨State.relayExitFunc_owned h.owned order, fun k i hi => ?_⟩
    rw [(State.exitFunc_relayExitFunc hr hi).1]
    exact iff_of_false (by simp) (by simp [renewed])

theorem Run.settled {calls : List Call} {s : State} (h : Run calls s) : Settled calls s := by
  induction h with
  | nil =>
    refine ⟨⟨fun _ _ h => ?_, fun _ _ _ h => ?_, fun _ _ h => ?_, fun _ h => ?_⟩, fun _ _ h => ?_⟩
    · cases h
    · cases h
    · cases h.1
    · cases h
    · cases h
  | call _ hc ih => exact ih.call hc

/-- After any run of calls: an interface has at most one process, every process is kept by the
instance of its interface, `RelayExitFunc` would stop all of them, no exit function was called twice,
and a process lives for an interface, with the servers its group has, just if the interface is
registered, its group is there and it was renewed since the last `RelayExitFunc`. -/
theorem relay_processes {calls : List Call} {s : State} (h : Run calls s) :
    (∀ id p id' p', s.Lives id p → s.Lives id' p' → p.ifName = p'.ifName → id = id') ∧
    (∀ id p, s.Lives id p → ∃ i, s.relayInstanceMap.lookup p.ifName = some i ∧ i.exitFunc = some id) ∧
    (∀ order, order.Perm s.relayInstanceMap.keys → ∀ id p, ¬ (s.relayExitFunc order).Lives id p) ∧
    (∀ p ∈ s.processes, p.exits ≤ 1) ∧
    ∀ ifName servers, (∃ id p, s.Lives id p ∧ p.ifName = ifName ∧ p.servers = servers) ↔
      ∃ i, s.relayInstanceMap.lookup ifName = some i ∧
        s.relayGroupMap.lookup i.group = some servers ∧ renewed ifName calls = true := by
  have hs := h.settled
  have hkept {id : Nat} {p : Process} (hp : s.Lives id p) :
      ∃ i, s.relayInstanceMap.lookup p.ifName = some i ∧ i.exitFunc = some id := by
    obtain ⟨k, i, hk, he⟩ := hs.owned.kept id p hp
    obtain ⟨p', hp', rfl, -⟩ := hs.owned.keeps k i id hk he
    obtain rfl : p = p' := Option.some.inj (hp.1.symm.trans hp'.1)
    exact ⟨i, hk, he⟩
  refine ⟨fun id p id' p' hp hp' hname => ?_, fun id p hp => hkept hp, fun order ho id p hp => ?_,
    hs.owned.once, fun ifName servers => ⟨?_, ?_⟩⟩
  · obtain ⟨i, hi, he⟩ := hkept hp
    obtain ⟨i', hi', he'⟩ := hkept hp'
    rw [hname, hi'] at hi
    obtain rfl := Option.some.inj hi
    exact Option.some.inj (he.symm.trans he')
  · obtain ⟨k, i, hk, he⟩ := (State.relayExitFunc_owned hs.owned order).kept id p hp
    rw [(State.exitFunc_relayExitFunc ho hk).1] at he
    cases he
  · rintro ⟨id, p, hp, rfl, rfl⟩
    obtain ⟨i, hi, he⟩ := hkept hp
    obtain ⟨p', hp', -, -, hg⟩ := hs.owned.keeps _ i id hi he
    obtain rfl : p = p' := Option.some.inj (hp.1.symm.trans hp'.1)
    exact ⟨i, hi, hg, ((hs.runs _ i hi).mp (by rw [he]; rfl)).2⟩
  · rintro ⟨i, hi, hg, hnew⟩
    obtain ⟨id, he⟩ := Option.isSome_iff_exists.mp
      ((hs.runs ifName i hi).mpr ⟨by rw [hg]; rfl, hnew⟩)
    obtain ⟨p, hp, hname, -, hg'⟩ := hs.owned.keeps ifName i id hi he
    exact ⟨id, p, hp, hname, Option.some.inj (hg'.symm.trans hg)⟩

/-- The groups come, then an interface: its relay runs with the servers of the group. -/
theorem relay_processes_added : ∃ s, Run [.relayAdd "eth0" "g" "", .relayGroupUpdate
      [⟨"g", ["10.0.0.1"]⟩] [] []] s ∧ ∃ id p, s.Lives id p ∧ p.ifName = "eth0" ∧
        p.servers = ["10.0.0.1"] := by
  have hrun : Run [.relayAdd "eth0" "g" "", .relayGroupUpdate [⟨"g", ["10.0.0.1"]⟩] [] []] _ :=
    .call (.call .nil ⟨.nil, .nil⟩) trivial
  exact ⟨_, hrun, ((relay_processes hrun).2.2.2.2 "eth0" ["10.0.0.1"]).mpr
    ⟨⟨"eth0", "", "g", some 0⟩, rfl, rfl, rfl⟩⟩

/-- `RelayExitFunc` stops the relay of `eth0`, and adding `eth1` does not bring it back. -/
theorem relay_stays_stopped : ¬ ∀ (c : Call) (calls : List Call) (s : State), Run (c :: calls) s →
    (∀ order, c ≠ .relayExitFunc order) → ∀ ifName, (∃ id p, s.Lives id p ∧ p.ifName = ifName) ↔
      ∃ i, s.relayInstanceMap.lookup ifName = some i ∧ (s.relayGroupMap.lookup i.group).isSome := by
  intro h
  have hrun : Run [.relayAdd "eth1" "g" "", .relayExitFunc ["eth0"], .relayAdd "eth0" "g" "",
      .relayGroupUpdate [⟨"g", ["10.0.0.1"]⟩] [] []] _ :=
    .call (.call (.call (.call .nil ⟨.nil, .nil⟩) trivial) (List.Perm.refl ["eth0"])) trivial
  obtain ⟨id, p, hp, hname⟩ := (h _ _ _ hrun (by simp) "eth0").mpr ⟨⟨"eth0", "", "g", none⟩, rfl, rfl⟩
  obtain ⟨k, i, hk, he⟩ := hrun.settled.owned.kept id p hp
  obtain ⟨q, hq, hqk, -⟩ := hrun.settled.owned.keeps k i id hk he
  obtain rfl : p = q := Option.some.inj (hp.1.symm.trans hq.1)
  obtain rfl : k = "eth0" := hqk.symm.trans hname
  obtain rfl : i = ⟨"eth0", "", "g", none⟩ := Option.some.inj hk.symm
  cases he

end OpenConfigd.Relay
