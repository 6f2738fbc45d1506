import Mathlib.Data.List.Infix
import OpenConfigd.Go.Map
import OpenConfigd.Lib.Runs

/-!
# The Quagga instance manager

`QuaggaInstanceManager` keeps a bgpd process for every instance of an interface of
a VRF, by VRF and interface in `QuaggaProcMap`. `processes_listed`: in the states of
a run every process that runs is listed there, and `QuaggaCleanup` ends all of them,
just if `SpawnQuagga` is never called for a new interface of a VRF that has others:
it makes the map of the VRF anew when it does not find the interface.
-/

namespace OpenConfigd.Quagga

/-- `process.Process`, with a number for the pointer, and what `SpawnQuagga` has made
it for. -/
structure Process where
  id : Nat
  vrf : Int
  interface : String
  config : String
  deriving DecidableEq, Repr

/-- `QuaggaInterfaceConfigs`, of the field `QuaggaInstanceConfig` of each instance. -/
abbrev InterfaceConfigs := GoMap String (List String)

/-- `QuaggaInstanceManager`, with its part of `process.ProcessList` and the number of
the next process. -/
structure Manager where
  procMap : GoMap Int (GoMap String (List Process)) := ∅
  configCache : GoMap Int InterfaceConfigs := ∅
  processList : List Process := []
  next : Nat := 0

namespace Manager

/-- `process.ProcessUnregister`. -/
def processUnregister (m : Manager) (proc : Process) : Manager :=
  { m with processList := m.processList.filter fun p => p.id ≠ proc.id }

/-- The processes of a VRF and interface. -/
def procs (m : Manager) (vrfId : Int) (interface : String) : List Process :=
  (m.procMap.at? vrfId ∅).at? interface []

/-- `SpawnQuagga`. The configuration file of the interface may not be writable. -/
def spawnQuagga (writable : Int → String → Bool) (m : Manager) (vrfId : Int) (interface config : String) :
    Manager :=
  if !writable vrfId interface then m
  else
    let proc : Process := ⟨m.next, vrfId, interface, config⟩
    let vrfProcMap := m.procMap.at? vrfId ∅
    let vrfProcMap := if (vrfProcMap.lookup interface).isNone then ∅ else vrfProcMap
    { m with
      procMap := m.procMap.insert vrfId
        (vrfProcMap.insert interface (vrfProcMap.at? interface [] ++ [proc]))
      processList := m.processList ++ [proc]
      next := m.next + 1 }

/-- The loop body of `ProcessConfigDelete`. -/
def interfaceDelete (vrfId : Int) (m : Manager) (interface : String) : Manager :=
  let m := (m.procs vrfId interface).foldl processUnregister m
  { m with procMap := m.procMap.insert vrfId ((m.procMap.at? vrfId ∅).erase interface) }

/-- `ProcessConfigDelete`. -/
def processConfigDelete (m : Manager) (vrfId : Int) (quaggaConfigMap : InterfaceConfigs) : Manager :=
  if (m.procMap.lookup vrfId).isSome then
    quaggaConfigMap.keys.foldl (interfaceDelete vrfId) m
  else m

/-- The processes of the interfaces of a VRF. -/
def vrfProcs (vrfProcMap : GoMap String (List Process)) : List Process :=
  vrfProcMap.entries.flatMap fun x => x.2

/-- `ProcessVrfQuaggaConfigDelete`. -/
def processVrfQuaggaConfigDelete (m : Manager) (vrfId : Int) : Manager :=
  match m.procMap.lookup vrfId with
  | none => m
  | some vrfProcMap =>
    let m := (vrfProcs vrfProcMap).foldl processUnregister m
    { m with procMap := m.procMap.erase vrfId }

/-- `QuaggaCleanup`. -/
def quaggaCleanup (m : Manager) : Manager :=
  let m := (m.procMap.entries.flatMap fun x => vrfProcs x.2).foldl processUnregister m
  { m with procMap := ∅ }

/-- The calls that start and end processes. -/
inductive Call where
  | spawnQuagga (vrfId : Int) (interface config : String)
  | processConfigDelete (vrfId : Int) (quaggaConfigMap : InterfaceConfigs)
  | processVrfQuaggaConfigDelete (vrfId : Int)
  | quaggaCleanup

/-- What a call does. -/
def call (writable : Int → String → Bool) (m : Manager) : Call → Manager
  | .spawnQuagga vrfId interface config => m.spawnQuagga writable vrfId interface config
  | .processConfigDelete vrfId quaggaConfigMap => m.processConfigDelete vrfId quaggaConfigMap
  | .processVrfQuaggaConfigDelete vrfId => m.processVrfQuaggaConfigDelete vrfId
  | .quaggaCleanup => m.quaggaCleanup

/-- A call as a step of a run. -/
def step (writable : Int → String → Bool) (m : Manager) (c : Call) : Option Manager :=
  some (m.call writable c)

/-- Every process that runs is listed under its VRF and interface. -/
def Listed (m : Manager) : Prop := ∀ p ∈ m.processList, p ∈ m.procs p.vrf p.interface

/-- `SpawnQuagga` finds the interface, or the VRF without any. -/
def spares (writable : Int → String → Bool) (m : Manager) : Call → Bool
  | .spawnQuagga vrfId interface _ => !writable vrfId interface ||
    ((m.procMap.at? vrfId ∅).lookup interface).isSome || (vrfProcs (m.procMap.at? vrfId ∅)).isEmpty
  | _ => true

/-! ## Processes by VRF and interface -/

section

variable {m m' m'' : Manager} {p : Process}

/-- What is listed runs, stands under its VRF and interface, and has a number of its own;
no interface is listed without a process. -/
structure Sound (m : Manager) : Prop where
  runs : ∀ v i p, p ∈ m.procs v i → p ∈ m.processList
  place : ∀ v i p, p ∈ m.procs v i → p.vrf = v ∧ p.interface = i
  filled : ∀ v i, (m.procMap.at? v ∅).lookup i ≠ some []
  fresh : ∀ p ∈ m.processList, p.id < m.next
  ids : (m.processList.map (·.id)).Nodup

theorem at?_insert (s : GoMap Int (GoMap String (List Process))) (v v' : Int)
    (x : GoMap String (List Process)) :
    GoMap.at? (s.insert v x) v' ∅ = if v' = v then x else s.at? v' ∅ := by
  unfold GoMap.at?
  split
  · next h => rw [h, AList.lookup_insert, Option.getD_some]
  · next h => rw [AList.lookup_insert_ne h]

theorem procs_eq (m : Manager) (v : Int) (i : String) :
    m.procs v i = ((m.procMap.at? v ∅).lookup i).getD [] := rfl

theorem procs_of_none {v : Int} (h : m.procMap.lookup v = none) (i : String) : m.procs v i = [] := by
  have hat : m.procMap.at? v ∅ = ∅ := by
    unfold GoMap.at?
    rw [h]
    rfl
  rw [procs_eq, hat]
  rfl

theorem Sound.lookup_isSome (h : m.Sound) (v : Int) (i : String) :
    ((m.procMap.at? v ∅).lookup i).isSome ↔ m.procs v i ≠ [] := by
  have hfill := h.filled v i
  rw [procs_eq]
  cases hl : (m.procMap.at? v ∅).lookup i with
  | none => simp
  | some ps =>
    rw [hl] at hfill
    simpa using hfill

theorem mem_vrfProcs {s : GoMap String (List Process)} : p ∈ vrfProcs s ↔ ∃ i, p ∈ s.at? i [] := by
  unfold vrfProcs GoMap.at?
  rw [List.mem_flatMap]
  constructor
  · rintro ⟨⟨i, ps⟩, hx, hp⟩
    have hl : s.lookup i = some ps := AList.mem_lookup_iff.mpr hx
    exact ⟨i, by rw [hl]; exact hp⟩
  · rintro ⟨i, hp⟩
    cases hl : s.lookup i with
    | none => simp [hl] at hp
    | some ps =>
      rw [hl] at hp
      exact ⟨⟨i, ps⟩, AList.mem_lookup_iff.mp hl, hp⟩

theorem vrfProcs_isEmpty (m : Manager) (v : Int) :
    (vrfProcs (m.procMap.at? v ∅)).isEmpty ↔ ∀ i, m.procs v i = [] := by
  rw [List.isEmpty_iff, List.eq_nil_iff_forall_not_mem]
  simp only [mem_vrfProcs, not_exists, List.eq_nil_iff_forall_not_mem, procs]
  exact forall_comm

/-! ## Ending processes -/

/-- The processes of some interfaces are ended and listed no more. -/
structure Drops (m m' : Manager) (d : Int → String → Bool) : Prop where
  procs : ∀ v i, m'.procs v i = if d v i then [] else m.procs v i
  filled : ∀ v i, (m'.procMap.at? v ∅).lookup i = some [] → (m.procMap.at? v ∅).lookup i = some []
  list : m'.processList = m.processList.filter fun p =>
    !(d p.vrf p.interface && decide (p ∈ m.procs p.vrf p.interface))
  next : m'.next = m.next
  cache : m'.configCache = m.configCache

theorem Drops.refl (m : Manager) : m.Drops m fun _ _ => false :=
  ⟨fun _ _ => rfl, fun _ _ h => h, by simp, rfl, rfl⟩

theorem Drops.trans {d d' : Int → String → Bool} (h : m.Drops m' d) (h' : m'.Drops m'' d') :
    m.Drops m'' fun v i => d v i || d' v i := by
  refine ⟨fun v i => ?_, fun v i hl => h.filled v i (h'.filled v i hl), ?_, h'.next.trans h.next,
    h'.cache.trans h.cache⟩
  · rw [h'.procs, h.procs]
    cases d v i <;> cases d' v i <;> rfl
  · rw [h'.list, h.list, List.filter_filter]
    refine List.filter_congr fun p _ => ?_
    rw [h.procs]
    cases d p.vrf p.interface <;> cases d' p.vrf p.interface <;> simp

theorem Drops.sound {d : Int → String → Bool} (h : m.Drops m' d) (hs : m.Sound) : m'.Sound := by
  have hsub : ∀ v i p, p ∈ m'.procs v i → d v i = false ∧ p ∈ m.procs v i := by
    intro v i p hp
    rw [h.procs] at hp
    cases hd : d v i with
    | true => simp [hd] at hp
    | false => exact ⟨rfl, by simpa [hd] using hp⟩
  have hsublist : m'.processList.Sublist m.processList := by
    rw [h.list]
    exact List.filter_sublist
  refine ⟨fun v i p hp => ?_, fun v i p hp => hs.place v i p (hsub v i p hp).2,
    fun v i hl => hs.filled v i (h.filled v i hl), fun p hp => ?_,
    (hsublist.map (·.id)).nodup hs.ids⟩
  · obtain ⟨hd, hp⟩ := hsub v i p hp
    obtain ⟨rfl, rfl⟩ := hs.place v i p hp
    rw [h.list, List.mem_filter]
    exact ⟨hs.runs _ _ p hp, by simp [hd]⟩
  · rw [h.next]
    exact hs.fresh p (hsublist.subset hp)

theorem Drops.listed {d : Int → String → Bool} (h : m.Drops m' d) (hl : m.Listed) : m'.Listed := by
  intro p hp
  rw [h.list, List.mem_filter] at hp
  have hin := hl p hp.1
  have hd : d p.vrf p.interface = false := by simpa [hin] using hp.2
  rw [h.procs, hd]
  exact hin

/-- What runs after processes of some interfaces are unregistered. -/
theorem Sound.unregister (hs : m.Sound) {l : List Process} {d : Int → String → Bool}
    (hl : ∀ p, p ∈ l ↔ ∃ v i, d v i = true ∧ p ∈ m.procs v i) :
    (l.foldl processUnregister m).processList = m.processList.filter fun p =>
      !(d p.vrf p.interface && decide (p ∈ m.procs p.vrf p.interface)) := by
  have hfold (l : List Process) (m : Manager) : (l.foldl processUnregister m).processList =
      m.processList.filter fun p => l.all fun q => p.id ≠ q.id := by
    induction l generalizing m with
    | nil => simp
    | cons q l ih =>
      rw [List.foldl_cons, ih, processUnregister, List.filter_filter]
      refine List.filter_congr fun p _ => ?_
      rw [List.all_cons, Bool.and_comm]
  rw [hfold]
  refine List.filter_congr fun p hp => ?_
  have hiff : (∃ q ∈ l, p.id = q.id) ↔
      d p.vrf p.interface = true ∧ p ∈ m.procs p.vrf p.interface := by
    constructor
    · rintro ⟨q, hq, hid⟩
      obtain ⟨v, i, hd, hin⟩ := (hl q).mp hq
      obtain rfl : p = q := List.inj_on_of_nodup_map hs.ids hp (hs.runs v i q hin) hid
      obtain ⟨rfl, rfl⟩ := hs.place v i p hin
      exact ⟨hd, hin⟩
    · rintro ⟨hd, hin⟩
      exact ⟨p, (hl p).mpr ⟨_, _, hd, hin⟩, rfl⟩
  rw [Bool.eq_iff_iff]
  simp only [List.all_eq_true, decide_eq_true_eq, Bool.not_eq_true', Bool.and_eq_false_iff,
    decide_eq_false_iff_not]
  constructor
  · intro h
    by_contra hc
    obtain ⟨q, hq, hid⟩ := hiff.mpr (by simpa [not_or] using hc)
    exact h q hq hid
  · intro h q hq hid
    obtain ⟨hd, hin⟩ := hiff.mp ⟨q, hq, hid⟩
    rcases h with h | h
    · rw [hd] at h
      cases h
    · exact h hin

theorem unregister_eq (l : List Process) (m : Manager) : l.foldl processUnregister m =
    { m with processList := (l.foldl processUnregister m).processList } := by
  induction l generalizing m with
  | nil => rfl
  | cons q l ih =>
    rw [List.foldl_cons, ih]
    rfl

theorem Sound.interfaceDelete (hs : m.Sound) (v : Int) (i : String) :
    m.Drops (Manager.interfaceDelete v m i) fun v' i' => decide (v' = v) && decide (i' = i) := by
  have hlist := hs.unregister (l := m.procs v i) (d := fun v' i' => decide (v' = v) && decide (i' = i))
    (by simp)
  have hlook (v' : Int) (i' : String) :
      (((Manager.interfaceDelete v m i).procMap.at? v' ∅).lookup i') =
        if v' = v ∧ i' = i then none else (m.procMap.at? v' ∅).lookup i' := by
    unfold Manager.interfaceDelete
    rw [unregister_eq, at?_insert]
    by_cases hv : v' = v
    · subst hv
      by_cases hi : i' = i
      · subst hi
        simp
      · simp [hi, AList.lookup_erase_ne hi]
    · simp [hv]
  refine ⟨fun v' i' => ?_, fun v' i' hl => ?_, ?_, ?_, ?_⟩
  · rw [procs_eq, hlook, procs_eq]
    by_cases h : v' = v ∧ i' = i
    · simp [h]
    · rw [if_neg h, if_neg (by simpa using h)]
  · rw [hlook] at hl
    split at hl
    · cases hl
    · exact hl
  · unfold Manager.interfaceDelete
    exact hlist
  · unfold Manager.interfaceDelete
    rw [unregister_eq]
  · unfold Manager.interfaceDelete
    rw [unregister_eq]

theorem Sound.interfacesDelete (v : Int) (is : List String) (hs : m.Sound) :
    m.Drops (is.foldl (Manager.interfaceDelete v) m) fun v' i' => decide (v' = v) && is.contains i' := by
  induction is generalizing m with
  | nil => simpa using Drops.refl m
  | cons i is ih =>
    have hone := hs.interfaceDelete v i
    have h := hone.trans (ih (hone.sound hs))
    have hd : (fun v' i' => decide (v' = v) && (i :: is).contains i') = fun v' i' =>
        decide (v' = v) && decide (i' = i) || decide (v' = v) && is.contains i' := by
      funext v' i'
      rw [← Bool.and_or_distrib_left, List.contains_cons]
      congr 1
    rw [hd]
    exact h

theorem Sound.processConfigDelete (hs : m.Sound) (v : Int) (cfg : InterfaceConfigs) :
    m.Drops (m.processConfigDelete v cfg) fun v' i' => decide (v' = v) && cfg.keys.contains i' := by
  unfold Manager.processConfigDelete
  split
  · exact hs.interfacesDelete v _
  · next hn =>
    -- Without an entry of the VRF there are no processes to end.
    have hnone : ∀ i, m.procs v i = [] := procs_of_none (by simpa using hn)
    refine ⟨fun v' i' => ?_, fun _ _ h => h, ?_, rfl, rfl⟩
    · by_cases hv : v' = v
      · subst hv
        simp [hnone]
      · simp [hv]
    · refine (List.filter_eq_self.mpr fun p _ => ?_).symm
      by_cases hv : p.vrf = v
      · simp [hv, hnone]
      · simp [hv]

theorem Sound.processVrfQuaggaConfigDelete (hs : m.Sound) (v : Int) :
    m.Drops (m.processVrfQuaggaConfigDelete v) fun v' _ => decide (v' = v) := by
  unfold Manager.processVrfQuaggaConfigDelete
  cases hl : m.procMap.lookup v with
  | none =>
    have hnone := procs_of_none hl
    refine ⟨fun v' i' => ?_, fun _ _ h => h, ?_, rfl, rfl⟩
    · by_cases hv : v' = v
      · subst hv
        simp [hnone]
      · simp [hv]
    · refine (List.filter_eq_self.mpr fun p _ => ?_).symm
      by_cases hv : p.vrf = v
      · simp [hv, hnone]
      · simp [hv]
  | some s =>
    have hat : m.procMap.at? v ∅ = s := by
      unfold GoMap.at?
      rw [hl]
      rfl
    have hlist := hs.unregister (l := vrfProcs s) (d := fun v' _ => decide (v' = v)) fun p => by
      simp [mem_vrfProcs, procs, hat]
    have hlook (v' : Int) :
        GoMap.at? (m.procMap.erase v) v' ∅ = if v' = v then ∅ else m.procMap.at? v' ∅ := by
      unfold GoMap.at?
      split
      · next h => rw [h, AList.lookup_erase, Option.getD_none]
      · next h => rw [AList.lookup_erase_ne h]
    simp only
    rw [unregister_eq]
    refine ⟨fun v' i' => ?_, fun v' i' hl => ?_, hlist, rfl, rfl⟩
    · rw [procs_eq, hlook, procs_eq]
      by_cases hv : v' = v <;> simp [hv]
    · rw [hlook] at hl
      split at hl
      · simp at hl
      · exact hl

theorem Sound.quaggaCleanup (hs : m.Sound) : m.Drops m.quaggaCleanup fun _ _ => true := by
  have hat (v : Int) : (∅ : GoMap Int (GoMap String (List Process))).at? v ∅ = ∅ := rfl
  have hmem (p : Process) : p ∈ (m.procMap.entries.flatMap fun x => vrfProcs x.2) ↔
      ∃ v i, true = true ∧ p ∈ m.procs v i := by
    simp only [List.mem_flatMap, mem_vrfProcs, true_and]
    constructor
    · rintro ⟨⟨v, s⟩, hx, i, hp⟩
      have hl : m.procMap.lookup v = some s := AList.mem_lookup_iff.mpr hx
      refine ⟨v, i, ?_⟩
      unfold procs
      rw [show m.procMap.at? v ∅ = s by unfold GoMap.at?; rw [hl]; rfl]
      exact hp
    · rintro ⟨v, i, hp⟩
      cases hl : m.procMap.lookup v with
      | none =>
        rw [procs_of_none hl] at hp
        cases hp
      | some s =>
        refine ⟨⟨v, s⟩, AList.mem_lookup_iff.mp hl, i, ?_⟩
        unfold procs at hp
        rw [show m.procMap.at? v ∅ = s by unfold GoMap.at?; rw [hl]; rfl] at hp
        exact hp
  have hlist := hs.unregister (d := fun _ _ => true) hmem
  unfold Manager.quaggaCleanup
  rw [unregister_eq]
  refine ⟨fun v i => ?_, fun v i hl => ?_, hlist, rfl, rfl⟩
  · rfl
  · rw [hat] at hl
    cases hl

/-! ## Starting processes -/

variable {writable : Int → String → Bool} {v : Int} {i : String}

theorem Sound.spares_iff (hs : m.Sound) (config : String) :
    m.spares writable (.spawnQuagga v i config) = true ↔
      writable v i = false ∨ m.procs v i ≠ [] ∨ ∀ j, m.procs v j = [] := by
  simp only [spares, Bool.or_eq_true, Bool.not_eq_true', hs.lookup_isSome, vrfProcs_isEmpty, or_assoc]

/-- What `SpawnQuagga` leaves of the other interfaces. -/
theorem Sound.procs_spawnQuagga (hs : m.Sound) (hw : writable v i = true) (config : String) (v' : Int)
    (j : String) : (m.spawnQuagga writable v i config).procs v' j =
      if v' = v ∧ j = i then m.procs v i ++ [⟨m.next, v, i, config⟩]
      else if v' = v ∧ m.procs v i = [] then [] else m.procs v' j := by
  -- The map of the VRF that the process is added to.
  obtain ⟨s, hs', hmap⟩ : ∃ s : GoMap String (List Process),
      (∀ j, s.at? j [] = if m.procs v i = [] then [] else m.procs v j) ∧
      (m.spawnQuagga writable v i config).procMap =
        m.procMap.insert v (s.insert i (s.at? i [] ++ [⟨m.next, v, i, config⟩])) := by
    refine ⟨if ((m.procMap.at? v ∅).lookup i).isNone then ∅ else m.procMap.at? v ∅, fun j => ?_, ?_⟩
    · have hsome := hs.lookup_isSome v i
      by_cases hnil : m.procs v i = []
      · rw [if_pos hnil, if_pos (by simpa [hnil] using hsome)]
        rfl
      · rw [if_neg hnil, if_neg (by simp [← Option.isSome_iff_ne_none, hsome, hnil])]
        rfl
    · simp [spawnQuagga, hw]
  have hself : s.at? i [] = m.procs v i := by
    rw [hs']
    split
    · next h => exact h.symm
    · rfl
  rw [procs, hmap, at?_insert]
  by_cases hv : v' = v
  · subst hv
    rw [if_pos rfl]
    by_cases hj : j = i
    · subst hj
      rw [if_pos ⟨rfl, rfl⟩, ← hself, GoMap.at?, AList.lookup_insert, Option.getD_some]
    · rw [if_neg (by simp [hj]), GoMap.at?, AList.lookup_insert_ne hj]
      have hj' := hs' j
      rw [GoMap.at?] at hj'
      simpa using hj'
  · rw [if_neg hv, if_neg (by simp [hv]), if_neg (by simp [hv]), procs]

theorem Sound.spawnQuagga (hs : m.Sound) (v : Int) (i config : String) :
    (m.spawnQuagga writable v i config).Sound := by
  cases hw : writable v i with
  | false => simpa [Manager.spawnQuagga, hw] using hs
  | true =>
    have hprocs := hs.procs_spawnQuagga hw config
    have hlist : (m.spawnQuagga writable v i config).processList =
        m.processList ++ [⟨m.next, v, i, config⟩] := by simp [Manager.spawnQuagga, hw]
    have hnext : (m.spawnQuagga writable v i config).next = m.next + 1 := by
      simp [Manager.spawnQuagga, hw]
    refine ⟨fun v' j p hp => ?_, fun v' j p hp => ?_, fun v' j hl => ?_, fun p hp => ?_, ?_⟩
    · rw [hprocs] at hp
      rw [hlist, List.mem_append]
      split at hp
      · rcases List.mem_append.mp hp with hp | hp
        · exact .inl (hs.runs _ _ p hp)
        · exact .inr hp
      · split at hp
        · cases hp
        · exact .inl (hs.runs _ _ p hp)
    · rw [hprocs] at hp
      split at hp
      · next h =>
        rcases List.mem_append.mp hp with hp | hp
        · rw [h.1, h.2]
          exact hs.place v i p hp
        · rw [List.mem_singleton.mp hp]
          exact ⟨h.1.symm, h.2.symm⟩
      · split at hp
        · cases hp
        · exact hs.place v' j p hp
    · simp only [Manager.spawnQuagga, hw, Bool.not_true, Bool.false_eq_true, if_false] at hl
      rw [at?_insert] at hl
      split at hl
      · by_cases hj : j = i
        · subst hj
          rw [AList.lookup_insert] at hl
          simp at hl
        · rw [AList.lookup_insert_ne hj] at hl
          split at hl
          · cases hl
          · exact hs.filled v j hl
      · exact hs.filled v' j hl
    · rw [hlist, List.mem_append] at hp
      rw [hnext]
      rcases hp with hp | hp
      · have := hs.fresh p hp
        omega
      · rw [List.mem_singleton.mp hp]
        exact Nat.lt_succ_self _
    · rw [hlist, List.map_append, List.nodup_append]
      refine ⟨hs.ids, List.nodup_singleton _, fun a ha b hb => ?_⟩
      obtain ⟨p, hp, rfl⟩ := List.mem_map.mp ha
      have hlt := hs.fresh p hp
      have hb : b = m.next := by simpa using hb
      omega

/-- A call that spares the other interfaces leaves every process listed. -/
theorem Sound.listed_spawnQuagga (hs : m.Sound) (hl : m.Listed) {config : String}
    (hok : m.spares writable (.spawnQuagga v i config) = true) :
    (m.spawnQuagga writable v i config).Listed := by
  cases hw : writable v i with
  | false => simpa [Manager.spawnQuagga, hw] using hl
  | true =>
    have hlist : (m.spawnQuagga writable v i config).processList =
        m.processList ++ [⟨m.next, v, i, config⟩] := by simp [Manager.spawnQuagga, hw]
    intro p hp
    rw [hlist, List.mem_append] at hp
    rw [hs.procs_spawnQuagga hw]
    rcases hp with hp | hp
    · have hin := hl p hp
      by_cases hsame : p.vrf = v ∧ p.interface = i
      · rw [if_pos hsame, ← hsame.1, ← hsame.2]
        exact List.mem_append_left _ hin
      · rw [if_neg hsame, if_neg]
        · exact hin
        · rintro ⟨hv, hnil⟩
          rcases (hs.spares_iff config).mp hok with h | h | h
          · rw [hw] at h
            cases h
          · exact h hnil
          · rw [hv, h] at hin
            cases hin
    · rw [List.mem_singleton.mp hp, if_pos ⟨rfl, rfl⟩]
      exact List.mem_append_right _ (List.mem_singleton_self _)

/-- A call that does not leaves a process running that is not listed. -/
theorem Sound.lost_spawnQuagga (hs : m.Sound) {config : String}
    (hbad : m.spares writable (.spawnQuagga v i config) = false) :
    ¬ (m.spawnQuagga writable v i config).Listed := by
  have hnot := mt (hs.spares_iff config).mpr (by rw [hbad]; simp)
  simp only [not_or, not_forall, not_not, Bool.not_eq_false] at hnot
  obtain ⟨hw, hnil, j, hj⟩ := hnot
  obtain ⟨p, hp⟩ := List.exists_mem_of_ne_nil _ hj
  obtain ⟨hv, hi⟩ := hs.place v j p hp
  have hlist : (m.spawnQuagga writable v i config).processList =
      m.processList ++ [⟨m.next, v, i, config⟩] := by simp [Manager.spawnQuagga, hw]
  intro hl
  have hin := hl p (by rw [hlist]; exact List.mem_append_left _ (hs.runs v j p hp))
  have hne : j ≠ i := by
    rintro rfl
    exact hj hnil
  rw [hs.procs_spawnQuagga hw, if_neg (by simp [hi, hne]), if_pos ⟨hv, hnil⟩] at hin
  cases hin

/-! ## Runs -/

theorem Sound.call (hs : m.Sound) (c : Call) : (m.call writable c).Sound := by
  cases c with
  | spawnQuagga v i config => exact hs.spawnQuagga v i config
  | processConfigDelete v cfg => exact (hs.processConfigDelete v cfg).sound hs
  | processVrfQuaggaConfigDelete v => exact (hs.processVrfQuaggaConfigDelete v).sound hs
  | quaggaCleanup => exact hs.quaggaCleanup.sound hs

theorem Sound.listed_call (hs : m.Sound) (hl : m.Listed) (c : Call) :
    (m.call writable c).Listed ↔ m.spares writable c = true := by
  cases c with
  | spawnQuagga v i config =>
    refine ⟨fun h => ?_, hs.listed_spawnQuagga hl⟩
    by_contra hbad
    exact hs.lost_spawnQuagga (by simpa using hbad) h
  | processConfigDelete v cfg =>
    exact ⟨fun _ => rfl, fun _ => (hs.processConfigDelete v cfg).listed hl⟩
  | processVrfQuaggaConfigDelete v =>
    exact ⟨fun _ => rfl, fun _ => (hs.processVrfQuaggaConfigDelete v).listed hl⟩
  | quaggaCleanup => exact ⟨fun _ => rfl, fun _ => hs.quaggaCleanup.listed hl⟩

/-- Where every process is listed, `QuaggaCleanup` ends all of them. -/
theorem Sound.cleanup (hs : m.Sound) (hl : m.Listed) : m.quaggaCleanup.processList = [] := by
  rw [hs.quaggaCleanup.list, List.filter_eq_nil_iff]
  intro p hp
  simp [hl p hp]

theorem sound_empty : ({} : Manager).Sound := by
  have hnone (v : Int) (i : String) : ({} : Manager).procs v i = [] := procs_of_none rfl i
  refine ⟨fun v i p hp => ?_, fun v i p hp => ?_, fun v i hl => ?_, fun p hp => ?_, List.nodup_nil⟩
  · rw [hnone] at hp
    cases hp
  · rw [hnone] at hp
    cases hp
  · cases hl
  · cases hp

end

/-- In the states of a run every process that runs is listed under its VRF and interface,
and `QuaggaCleanup` ends all of them, just if no call of `SpawnQuagga` is for an
interface that its VRF does not list, next to others. -/
theorem processes_listed (writable : Int → String → Bool) (calls : List Call) :
    (∀ pre m, pre <+: calls → Runs.run (step writable) {} pre = some m →
      m.Listed ∧ m.quaggaCleanup.processList = []) ↔
    Runs.meets (step writable) (spares writable) {} calls = true := by
  -- From any state in which all are listed.
  have main (calls : List Call) {m : Manager} (hs : m.Sound) (hl : m.Listed) :
      (∀ pre m', pre <+: calls → Runs.run (step writable) m pre = some m' →
        m'.Listed ∧ m'.quaggaCleanup.processList = []) ↔
      Runs.meets (step writable) (spares writable) m calls = true := by
    induction calls generalizing m with
    | nil =>
      refine ⟨fun _ => rfl, fun _ pre m' hpre hr => ?_⟩
      rw [List.prefix_nil.mp hpre] at hr
      cases hr
      exact ⟨hl, hs.cleanup hl⟩
    | cons c calls ih =>
      have hone : (m.call writable c).Listed ↔ m.spares writable c = true := hs.listed_call hl c
      rw [Runs.meets, step, Option.all_some, Bool.and_eq_true]
      constructor
      · intro h
        have hlisted : (m.call writable c).Listed := by
          refine (h [c] _ ⟨calls, rfl⟩ ?_).1
          rfl
        refine ⟨hone.mp hlisted, (ih (hs.call c) hlisted).mp fun pre m' hpre hr => ?_⟩
        exact h (c :: pre) m' (List.cons_prefix_cons.mpr ⟨rfl, hpre⟩) hr
      · rintro ⟨hok, hrest⟩ pre m' hpre hr
        cases pre with
        | nil =>
          cases hr
          exact ⟨hl, hs.cleanup hl⟩
        | cons c' pre =>
          obtain ⟨rfl, hpre'⟩ := List.cons_prefix_cons.mp hpre
          exact (ih (hs.call c') (hone.mpr hok)).mpr hrest pre m' hpre' hr
  refine main calls sound_empty fun p hp => ?_
  cases hp

/-- The processes of two interfaces of a VRF. -/
theorem processes_listed_two : ∃ m p,
    Runs.run (step fun _ _ => true) {} [.spawnQuagga 1 "eth0" "a", .spawnQuagga 1 "eth1" "b"] = some m ∧
    p ∈ m.processList ∧ p ∉ m.procs p.vrf p.interface ∧ p ∈ m.quaggaCleanup.processList := by
  refine ⟨_, ⟨0, 1, "eth0", "a"⟩, rfl, ?_⟩
  decide

end Manager

end OpenConfigd.Quagga
