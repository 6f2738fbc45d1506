import Mathlib.Data.List.Count
import Mathlib.Data.List.Perm.Subperm
import OpenConfigd.Lib.Keyed
import OpenConfigd.Quagga.Manager

/-!
# Following the configuration of a VRF

`QuaggaConfigSync` compares the configuration of a VRF with the one it had before,
ends the processes of interfaces that are gone or modified and starts those of
interfaces that are modified or new. `sync_converges`: after every run of updates
that meet `settles` the processes are those of the last configuration of each VRF.
A modified interface is started with its old texts, the cache outlives the delete of
a VRF, and `SpawnQuagga` makes the map of a VRF anew (see `Quagga.Manager`).
-/

namespace OpenConfigd.Quagga

/-- The comparison of two lists of instances in `QuaggaBgpConfigDiff`. -/
def differs (old new : List String) : Bool :=
  old.length ≠ new.length || (old.zip new).any fun x => x.1 ≠ x.2

/-- The three results of `QuaggaBgpConfigDiff`. -/
structure ConfigDiff where
  added : InterfaceConfigs
  removed : InterfaceConfigs
  modified : InterfaceConfigs

/-- `QuaggaBgpConfigDiff`. -/
def quaggaBgpConfigDiff (old new : InterfaceConfigs) : ConfigDiff where
  added := new.filter fun interface _ => (old.lookup interface).isNone
  removed := old.filter fun interface _ => (new.lookup interface).isNone
  modified := old.filter fun interface config => (new.lookup interface).any (differs config)

/-- The instances of a configuration, with their interfaces. -/
def instances (configs : InterfaceConfigs) : List (String × String) :=
  configs.entries.flatMap fun x => x.2.map fun config => (x.1, config)

/-- The calls of `ProcessQuaggaConfigAdd`, which ranges over the map in some order. -/
def spawns (vrfId : Int) (order : List String) (configs : InterfaceConfigs) : List Manager.Call :=
  (order.flatMap fun interface => (configs.at? interface []).map fun config => (interface, config)).map
    fun x => .spawnQuagga vrfId x.1 x.2

theorem differs_eq_false {old new : List String} : differs old new = false ↔ old = new := by
  unfold differs
  rw [Bool.or_eq_false_iff]
  induction old generalizing new with
  | nil =>
    cases new with
    | nil => simp
    | cons b bs => simp
  | cons a as ih =>
    cases new with
    | nil => simp
    | cons b bs =>
      have h := @ih bs
      simp only [List.length_cons, List.zip_cons_cons, List.any_cons, List.cons.injEq, ← h]
      by_cases hab : a = b <;> simp [hab]

theorem count_instances (configs : InterfaceConfigs) (i config : String) :
    (instances configs).count (i, config) = (configs.at? i []).count config := by
  have heq : instances configs = configs.keys.flatMap fun j => (configs.at? j []).map fun t => (j, t) := by
    unfold instances AList.keys List.keys
    rw [List.flatMap_map]
    refine List.flatMap_congr fun x hx => ?_
    have hl : configs.lookup x.1 = some x.2 := AList.mem_lookup_iff.mpr hx
    rw [GoMap.at?, hl, Option.getD_some]
  rw [heq, Keyed.count_flatMap _ configs.keys_nodup]
  split
  · rfl
  · next h =>
    have hnone : configs.lookup i = none := AList.lookup_eq_none.mpr h
    rw [GoMap.at?, hnone, Option.getD_none, List.count_nil]

namespace Manager

variable (writable : Int → String → Bool)

/-- `ProcessQuaggaConfigAdd`. -/
def processQuaggaConfigAdd (m : Manager) (vrfId : Int) (order : List String) (configs : InterfaceConfigs) :
    Manager :=
  (spawns vrfId order configs).foldl (call writable) m

/-- `QuaggaConfigSync` of a decoded configuration. -/
def quaggaConfigSync (m : Manager) (configs : InterfaceConfigs) (vrfId : Int) (order : List String) :
    Manager :=
  let m := match m.configCache.lookup vrfId with
    | some old =>
      let diff := quaggaBgpConfigDiff old configs
      let m := m.processConfigDelete vrfId diff.removed
      let m := m.processConfigDelete vrfId diff.modified
      let m := m.processQuaggaConfigAdd writable vrfId order diff.modified
      m.processQuaggaConfigAdd writable vrfId order diff.added
    | none => m.processQuaggaConfigAdd writable vrfId order configs
  { m with configCache := m.configCache.insert vrfId configs }

/-- `ProcessQuaggaConfigDelete`. -/
def processQuaggaConfigDelete (m : Manager) (vrfId : Int) : Manager :=
  m.processVrfQuaggaConfigDelete vrfId

/-- The updates of a VRF. -/
inductive Update where
  | quaggaConfigSync (configs : InterfaceConfigs) (vrfId : Int) (order : List String)
  | processQuaggaConfigDelete (vrfId : Int)

/-- What an update does. The maps are ranged over in an order of their keys. -/
def update (m : Manager) : Update → Option Manager
  | .quaggaConfigSync configs vrfId order =>
    if order.Nodup ∧ ∀ i ∈ configs.keys, i ∈ order then
      some (m.quaggaConfigSync writable configs vrfId order)
    else none
  | .processQuaggaConfigDelete vrfId => some (m.processQuaggaConfigDelete vrfId)

/-- The configuration of a VRF after an update. -/
def Update.follow (vrfId : Int) (configs : InterfaceConfigs) : Update → InterfaceConfigs
  | .quaggaConfigSync new v _ => if v = vrfId then new else configs
  | .processQuaggaConfigDelete v => if v = vrfId then ∅ else configs

/-- The last synced configuration of a VRF, none after a delete. -/
def lastSynced (updates : List Update) (vrfId : Int) : InterfaceConfigs :=
  updates.foldl (Update.follow vrfId) ∅

/-- The interfaces and texts of the processes of a VRF. -/
def running (m : Manager) (vrfId : Int) : List (String × String) :=
  (m.processList.filter fun p => p.vrf = vrfId).map fun p => (p.interface, p.config)

/-- What `QuaggaConfigSync` finds changed. -/
def diff (m : Manager) (configs : InterfaceConfigs) (vrfId : Int) : ConfigDiff :=
  match m.configCache.lookup vrfId with
  | some old => quaggaBgpConfigDiff old configs
  | none => ⟨configs, ∅, ∅⟩

/-- The interfaces that `QuaggaConfigSync` starts processes for. -/
def starts (m : Manager) (configs : InterfaceConfigs) (vrfId : Int) : List String :=
  let diff := m.diff configs vrfId
  (diff.modified.filter fun _ texts => !texts.isEmpty).keys ++
    (diff.added.filter fun _ texts => !texts.isEmpty).keys

/-- The interfaces with processes that `QuaggaConfigSync` does not end. -/
def stays (m : Manager) (configs : InterfaceConfigs) (vrfId : Int) : List String :=
  let diff := m.diff configs vrfId
  ((m.procMap.at? vrfId ∅).filter fun interface _ =>
    (diff.removed.lookup interface).isNone && (diff.modified.lookup interface).isNone).keys

/-- An update to a configuration in which no interface has other texts than before (apart
from their order), and none the same where no process is listed for it; that starts
processes, if any, for one interface only, whose file can be written, and leaves none
of others. -/
def settles (m : Manager) : Update → Bool
  | .quaggaConfigSync configs vrfId _ =>
    (configs.entries.all fun x => ((m.configCache.at? vrfId ∅).lookup x.1).all fun old =>
      old.isPerm x.2 && (old ≠ x.2 || old.isEmpty || !(m.procs vrfId x.1).isEmpty)) &&
    (m.starts configs vrfId).all (writable vrfId) &&
    ((m.starts configs vrfId).isEmpty ||
      (m.starts configs vrfId).length = 1 && (m.stays configs vrfId).isEmpty)
  | .processQuaggaConfigDelete _ => true

/-! ## What a call leaves running -/

section

variable {writable} {m m' : Manager}

theorem Drops.running {d : Int → String → Bool} (h : m.Drops m' d) (hl : m.Listed) (v : Int) :
    m'.running v = (m.running v).filter fun x => !d v x.1 := by
  have hlist : m'.processList = m.processList.filter fun p => !d p.vrf p.interface := by
    rw [h.list]
    refine List.filter_congr fun p hp => ?_
    simp [hl p hp]
  unfold Manager.running
  rw [hlist, List.filter_filter, List.filter_map, List.filter_filter]
  congr 1
  refine List.filter_congr fun p _ => ?_
  by_cases hv : p.vrf = v
  · simp [hv]
  · simp [hv]

theorem running_spawnQuagga {v : Int} {i config : String} (hw : writable v i = true) (v' : Int) :
    (m.spawnQuagga writable v i config).running v' =
      m.running v' ++ if v' = v then [(i, config)] else [] := by
  have hlist : (m.spawnQuagga writable v i config).processList =
      m.processList ++ [⟨m.next, v, i, config⟩] := by simp [Manager.spawnQuagga, hw]
  unfold running
  rw [hlist, List.filter_append, List.map_append]
  by_cases hv : v' = v
  · simp [hv]
  · simp [hv, Ne.symm hv]

/-- The calls of `ProcessQuaggaConfigAdd` for instances of one interface of a VRF that has
no processes of others. -/
theorem Sound.spawned {v : Int} {i : String} (hw : writable v i = true) (xs : List (String × String))
    (hxs : ∀ x ∈ xs, x.1 = i) (hs : m.Sound) (hl : m.Listed) (hone : ∀ j, j ≠ i → m.procs v j = []) :
    let m' := (xs.map fun x => Call.spawnQuagga v x.1 x.2).foldl (Manager.call writable) m
    m'.Sound ∧ m'.Listed ∧ m'.configCache = m.configCache ∧
      ∀ v', m'.running v' = m.running v' ++ if v' = v then xs else [] := by
  induction xs generalizing m with
  | nil => simpa using ⟨hs, hl⟩
  | cons x xs ih =>
    obtain ⟨j, config⟩ := x
    obtain rfl : j = i := hxs _ List.mem_cons_self
    have hok : m.spares writable (.spawnQuagga v j config) = true := by
      rw [hs.spares_iff]
      by_cases hnil : m.procs v j = []
      · refine .inr (.inr fun k => ?_)
        by_cases hk : k = j
        · rw [hk, hnil]
        · exact hone k hk
      · exact .inr (.inl hnil)
    have hone' (k : String) (hk : k ≠ j) : (m.spawnQuagga writable v j config).procs v k = [] := by
      rw [hs.procs_spawnQuagga hw, if_neg (by simp [hk])]
      split
      · rfl
      · exact hone k hk
    obtain ⟨hs', hl', hc', hrun⟩ := ih (fun x hx => hxs x (List.mem_cons_of_mem _ hx))
      (hs.spawnQuagga v j config) (hs.listed_spawnQuagga hl hok) hone'
    refine ⟨hs', hl', hc'.trans ?_, fun v' => (hrun v').trans ?_⟩
    · unfold Manager.spawnQuagga
      split <;> rfl
    · rw [running_spawnQuagga hw]
      by_cases hv : v' = v <;> simp [hv]

/-! ## What an update leaves running -/

/-- `QuaggaConfigSync` as its calls. -/
theorem quaggaConfigSync_eq (m : Manager) (configs : InterfaceConfigs) (v : Int) (order : List String) :
    let diff := m.diff configs v
    let m₁ := (m.processConfigDelete v diff.removed).processConfigDelete v diff.modified
    let m₂ := (spawns v order diff.modified ++ spawns v order diff.added).foldl (call writable) m₁
    m.quaggaConfigSync writable configs v order =
      { m₂ with configCache := m₂.configCache.insert v configs } := by
  unfold quaggaConfigSync diff
  cases hc : m.configCache.lookup v with
  | some old =>
    simp only [processQuaggaConfigAdd, List.foldl_append]
  | none =>
    have hdel (m : Manager) : m.processConfigDelete v ∅ = m := by
      unfold processConfigDelete
      split <;> rfl
    have hnil : spawns v order ∅ = [] := by
      unfold spawns
      rw [List.map_eq_nil_iff, List.flatMap_eq_nil_iff]
      exact fun _ _ => rfl
    simp only [processQuaggaConfigAdd, hdel, hnil, List.nil_append]

/-- The instances that `QuaggaConfigSync` starts. -/
def started (m : Manager) (configs : InterfaceConfigs) (v : Int) (order : List String) :
    List (String × String) :=
  (order.flatMap fun i => ((m.diff configs v).modified.at? i []).map fun t => (i, t)) ++
    order.flatMap fun i => ((m.diff configs v).added.at? i []).map fun t => (i, t)

theorem mem_starts {configs : InterfaceConfigs} {v : Int} {order : List String} {x : String × String}
    (hx : x ∈ m.started configs v order) : x.1 ∈ m.starts configs v := by
  have hkey (c : InterfaceConfigs)
      (h : x ∈ order.flatMap fun i => (c.at? i []).map fun t => (i, t)) :
      x.1 ∈ (c.filter fun _ texts => !texts.isEmpty).keys := by
    obtain ⟨i, _, hx⟩ := List.mem_flatMap.mp h
    obtain ⟨t, ht, rfl⟩ := List.mem_map.mp hx
    rw [← AList.mem_keys, ← AList.lookup_isSome, GoMap.lookup_filter]
    unfold GoMap.at? at ht
    cases hl : c.lookup i with
    | none => simp [hl] at ht
    | some texts =>
      rw [hl] at ht
      have hne : texts ≠ [] := List.ne_nil_of_mem ht
      simp [Option.filter, hne]
  rw [starts, List.mem_append]
  rcases List.mem_append.mp hx with h | h
  · exact .inl (hkey _ h)
  · exact .inr (hkey _ h)

/-- What a sync that settles leaves, and what runs then. -/
theorem Sound.quaggaConfigSync {configs : InterfaceConfigs} {v : Int} {order : List String}
    (hs : m.Sound) (hl : m.Listed)
    (hok : m.settles writable (.quaggaConfigSync configs v order) = true) :
    let m' := m.quaggaConfigSync writable configs v order
    m'.Sound ∧ m'.Listed ∧ m'.configCache = m.configCache.insert v configs ∧
      (∀ v', v' ≠ v → m'.running v' = m.running v') ∧
      m'.running v = ((m.running v).filter fun x => ((m.diff configs v).removed.lookup x.1).isNone &&
        ((m.diff configs v).modified.lookup x.1).isNone) ++ m.started configs v order := by
  simp only [settles, Bool.and_eq_true] at hok
  obtain ⟨⟨-, hwrite⟩, hone⟩ := hok
  -- The processes of removed and modified interfaces end.
  have hdrop := (hs.processConfigDelete v (m.diff configs v).removed)
  have hdrop := hdrop.trans ((hdrop.sound hs).processConfigDelete v (m.diff configs v).modified)
  have hs₁ := hdrop.sound hs
  have hl₁ := hdrop.listed hl
  have hrun₁ := hdrop.running hl
  have hcache₁ := hdrop.cache
  have hprocs₁ := hdrop.procs
  rw [quaggaConfigSync_eq]
  simp only
  generalize ((m.processConfigDelete v (m.diff configs v).removed).processConfigDelete v
    (m.diff configs v).modified) = m₁ at *
  have hgone (j : String) (hstays : m.stays configs v = []) : m₁.procs v j = [] := by
    rw [hprocs₁, GoMap.contains_keys, GoMap.contains_keys]
    by_contra hne
    have hkeep : ((m.diff configs v).removed.lookup j).isNone ∧
        ((m.diff configs v).modified.lookup j).isNone ∧ m.procs v j ≠ [] := by
      simpa [and_assoc] using hne
    have hmem : j ∈ m.stays configs v := by
      have hsome := (hs.lookup_isSome v j).mpr hkeep.2.2
      rw [stays, ← AList.mem_keys, ← AList.lookup_isSome, GoMap.lookup_filter, Option.isSome_filter]
      simpa [Option.any_eq_true_iff_get, hkeep.1, hkeep.2.1] using hsome
    rw [hstays] at hmem
    cases hmem
  have hcalls : spawns v order (m.diff configs v).modified ++ spawns v order (m.diff configs v).added =
      (m.started configs v order).map fun x => .spawnQuagga v x.1 x.2 := by
    simp only [spawns, started, List.map_append]
  rw [hcalls]
  -- Those of the instances that are started are for one interface.
  have hspawn : let m₂ := ((m.started configs v order).map fun x =>
        Call.spawnQuagga v x.1 x.2).foldl (Manager.call writable) m₁
      m₂.Sound ∧ m₂.Listed ∧ m₂.configCache = m₁.configCache ∧
        ∀ v', m₂.running v' = m₁.running v' ++ if v' = v then m.started configs v order else [] := by
    rcases Bool.or_eq_true_iff.mp hone with hnone | hsome
    · have hnil : m.started configs v order = [] := by
        refine List.eq_nil_iff_forall_not_mem.mpr fun x hx => ?_
        have := mem_starts hx
        rw [List.isEmpty_iff.mp hnone] at this
        cases this
      rw [hnil]
      simpa using ⟨hs₁, hl₁⟩
    · rw [Bool.and_eq_true, decide_eq_true_eq] at hsome
      obtain ⟨i, hi⟩ := List.length_eq_one_iff.mp hsome.1
      refine Sound.spawned (i := i) ?_ _ (fun x hx => ?_) hs₁ hl₁ fun j _ => ?_
      · exact List.all_eq_true.mp hwrite i (by rw [hi]; exact List.mem_singleton_self _)
      · have := mem_starts hx
        rw [hi] at this
        exact List.mem_singleton.mp this
      · exact hgone j (List.isEmpty_iff.mp hsome.2)
  obtain ⟨hs₂, hl₂, hcache₂, hrun₂⟩ := hspawn
  refine ⟨⟨hs₂.runs, hs₂.place, hs₂.filled, hs₂.fresh, hs₂.ids⟩, hl₂, ?_, fun v' hv => ?_, ?_⟩
  · exact congrArg (AList.insert v configs) (hcache₂.trans hcache₁)
  · refine (hrun₂ v').trans ?_
    rw [hrun₁, if_neg hv, List.append_nil]
    simp [hv]
  · refine (hrun₂ v).trans ?_
    rw [hrun₁, if_pos rfl]
    congr 1
    refine List.filter_congr fun x _ => ?_
    rw [GoMap.contains_keys, GoMap.contains_keys, decide_eq_true rfl, Bool.true_and, Bool.true_and,
      Bool.not_or, Option.not_isSome, Option.not_isSome]

/-! ## Runs -/

/-- The processes are those of the last configurations, which the cache has unless the VRF
was deleted. -/
structure Settled (m : Manager) (last : Int → InterfaceConfigs) : Prop where
  sound : m.Sound
  listed : m.Listed
  running : ∀ v, (m.running v).Perm (instances (last v))
  fresh : ∀ v, m.configCache.lookup v = none → last v = ∅
  cached : ∀ v old, m.configCache.lookup v = some old → last v = old ∨ last v = ∅

theorem Settled.processQuaggaConfigDelete {last : Int → InterfaceConfigs} (h : m.Settled last) (v : Int) :
    (m.processQuaggaConfigDelete v).Settled fun v' =>
      Update.follow v' (last v') (.processQuaggaConfigDelete v) := by
  have hdrop := h.sound.processVrfQuaggaConfigDelete v
  have hcache : (m.processQuaggaConfigDelete v).configCache = m.configCache := hdrop.cache
  refine ⟨hdrop.sound h.sound, hdrop.listed h.listed, fun v' => ?_, fun v' hc => ?_, fun v' old hc => ?_⟩
  · have hrun : (m.processQuaggaConfigDelete v).running v' = _ := hdrop.running h.listed v'
    rw [hrun, Update.follow]
    by_cases hv : v' = v
    · simp [hv, instances]
    · simpa [hv, Ne.symm hv] using h.running v'
  · rw [hcache] at hc
    simp only [Update.follow]
    split
    · rfl
    · exact h.fresh v' hc
  · rw [hcache] at hc
    simp only [Update.follow]
    split
    · exact .inr rfl
    · exact h.cached v' old hc

/-- How many processes a sync that settles leaves for an instance. -/
theorem Settled.count_sync {last : Int → InterfaceConfigs} {configs : InterfaceConfigs} {v : Int}
    {order : List String} (h : m.Settled last) (hn : order.Nodup) (hkeys : ∀ i ∈ configs.keys, i ∈ order)
    (hok : m.settles writable (.quaggaConfigSync configs v order) = true) (i config : String) :
    ((m.quaggaConfigSync writable configs v order).running v).count (i, config) =
      (configs.at? i []).count config := by
  obtain ⟨-, -, -, -, hrun⟩ := h.sound.quaggaConfigSync h.listed hok
  have hlast : (m.running v).count (i, config) = ((last v).at? i []).count config := by
    rw [(h.running v).count_eq, count_instances]
  have hout : i ∉ order → configs.lookup i = none := fun hi =>
    AList.lookup_eq_none.mpr fun hmem => hi (hkeys i hmem)
  have hfilter (p : Bool) (hp : (((m.diff configs v).removed.lookup i).isNone &&
      ((m.diff configs v).modified.lookup i).isNone) = p) :
      ((m.running v).filter fun x => ((m.diff configs v).removed.lookup x.1).isNone &&
        ((m.diff configs v).modified.lookup x.1).isNone).count (i, config) =
      if p then ((last v).at? i []).count config else 0 := by
    split
    · next h => rw [List.count_filter (by rw [← h]; exact hp), hlast]
    · next h =>
      refine List.count_eq_zero.mpr fun hmem => h ?_
      rw [← hp]
      exact (List.mem_filter.mp hmem).2
  rw [hrun, List.count_append, started, List.count_append, Keyed.count_flatMap _ hn,
    Keyed.count_flatMap _ hn,
    hfilter _ rfl]
  unfold diff GoMap.at?
  cases hc : m.configCache.lookup v with
  | none =>
    -- Without a cached configuration there is none to end, and all is started.
    rw [h.fresh v hc]
    by_cases hi : i ∈ order
    · simp [hi]
    · simp [hi, hout hi]
  | some old =>
    simp only [quaggaBgpConfigDiff, GoMap.lookup_filter]
    cases ho : old.lookup i with
    | none =>
      have hnone : (last v).lookup i = none := by
        rcases h.cached v old hc with he | he
        · rw [he, ho]
        · rw [he, AList.lookup_empty]
      by_cases hi : i ∈ order
      · cases hnew : configs.lookup i <;> simp [hi, hnone, Option.filter]
      · simp [hi, hout hi, hnone]
    | some o =>
      cases hnew : configs.lookup i with
      | none => simp [Option.filter]
      | some n =>
        have hi : i ∈ order := by
          by_contra hi
          rw [hout hi] at hnew
          cases hnew
        have hper : o.isPerm n = true ∧ (o ≠ n ∨ o = [] ∨ m.procs v i ≠ []) := by
          simp only [settles, Bool.and_eq_true] at hok
          have hall := List.all_eq_true.mp hok.1.1 ⟨i, n⟩ (AList.mem_lookup_iff.mp hnew)
          rw [GoMap.at?, hc, Option.getD_some, ho] at hall
          simpa [or_assoc] using hall
        cases hd : differs o n with
        | true =>
          -- It is started with its old texts, a permutation of the new ones.
          simpa [hi, hd, Option.filter] using (List.isPerm_iff.mp hper.1).count_eq config
        | false =>
          have hsame := differs_eq_false.mp hd
          subst hsame
          have hkept : ((last v).lookup i).getD [] = o := by
            rcases h.cached v old hc with he | he
            · rw [he, ho, Option.getD_some]
            · -- After a delete nothing runs, so nothing is listed.
              rcases hper.2 with hne | hnil | hlisted
              · exact absurd rfl hne
              · rw [he, hnil]
                rfl
              · obtain ⟨p, hp⟩ := List.exists_mem_of_ne_nil _ hlisted
                obtain ⟨hv, -⟩ := h.sound.place v i p hp
                have hmem : (p.interface, p.config) ∈ m.running v :=
                  List.mem_map.mpr ⟨p, List.mem_filter.mpr ⟨h.sound.runs v i p hp, by simpa using hv⟩, rfl⟩
                have := (h.running v).mem_iff.mp hmem
                rw [he] at this
                cases this
          simp [hi, hd, hkept, Option.filter]

theorem Settled.quaggaConfigSync {last : Int → InterfaceConfigs} {configs : InterfaceConfigs} {v : Int}
    {order : List String} (h : m.Settled last) (hn : order.Nodup) (hkeys : ∀ i ∈ configs.keys, i ∈ order)
    (hok : m.settles writable (.quaggaConfigSync configs v order) = true) :
    (m.quaggaConfigSync writable configs v order).Settled fun v' =>
      Update.follow v' (last v') (.quaggaConfigSync configs v order) := by
  obtain ⟨hs, hl, hcache, hother, -⟩ := h.sound.quaggaConfigSync h.listed hok
  refine ⟨hs, hl, fun v' => ?_, fun v' hc => ?_, fun v' old hc => ?_⟩
  · by_cases hv : v' = v
    · subst hv
      rw [Update.follow, if_pos rfl, List.perm_iff_count]
      exact fun x => (h.count_sync hn hkeys hok x.1 x.2).trans (count_instances configs x.1 x.2).symm
    · rw [Update.follow, if_neg (Ne.symm hv), hother v' hv]
      exact h.running v'
  · rw [hcache] at hc
    by_cases hv : v' = v
    · rw [hv, AList.lookup_insert] at hc
      cases hc
    · rw [AList.lookup_insert_ne hv] at hc
      rw [Update.follow, if_neg (Ne.symm hv)]
      exact h.fresh v' hc
  · rw [hcache] at hc
    by_cases hv : v' = v
    · rw [hv, AList.lookup_insert, Option.some_inj] at hc
      rw [Update.follow, if_pos hv.symm]
      exact .inl hc
    · rw [AList.lookup_insert_ne hv] at hc
      rw [Update.follow, if_neg (Ne.symm hv)]
      exact h.cached v' old hc

theorem Settled.update {last : Int → InterfaceConfigs} {u : Update} (h : m.Settled last)
    (hok : m.settles writable u = true) (hu : m.update writable u = some m') :
    m'.Settled fun v => u.follow v (last v) := by
  cases u with
  | quaggaConfigSync configs v order =>
    obtain ⟨⟨hn, hkeys⟩, hm⟩ := Option.ite_none_right_eq_some.mp hu
    cases hm
    exact h.quaggaConfigSync hn hkeys hok
  | processQuaggaConfigDelete v =>
    cases hu
    exact h.processQuaggaConfigDelete v

theorem Settled.run {us : List Update} {last : Int → InterfaceConfigs} (h : m.Settled last)
    (hok : Runs.meets (Manager.update writable) (settles writable) m us = true)
    (hr : Runs.run (Manager.update writable) m us = some m') :
    m'.Settled fun v => us.foldl (Update.follow v) (last v) := by
  induction us generalizing m last with
  | nil =>
    cases hr
    exact h
  | cons u us ih =>
    obtain ⟨m₁, hu, hr⟩ := Option.bind_eq_some_iff.mp hr
    rw [Runs.meets, hu, Option.all_some, Bool.and_eq_true] at hok
    exact ih (h.update hok.1 hu) hok.2 hr

theorem settled_empty : ({} : Manager).Settled fun _ => ∅ := by
  refine ⟨sound_empty, fun p hp => ?_, fun v => .refl _, fun _ _ => rfl, fun v old hc => ?_⟩
  · cases hp
  · cases hc

end

/-- After every run of updates that all settle, the processes of each VRF are the instances of
its last configuration. -/
theorem sync_converges (writable : Int → String → Bool) {us : List Update} {m : Manager}
    (hok : Runs.meets (update writable) (settles writable) {} us = true)
    (hr : Runs.run (update writable) {} us = some m) (v : Int) :
    (m.running v).Perm (instances (lastSynced us v)) :=
  (settled_empty.run hok hr).running v

/-- A configuration of one interface. -/
def oneInterface (interface : String) (texts : List String) : InterfaceConfigs :=
  AList.singleton interface texts

/-- An interface in the place of another, after a delete. -/
theorem sync_converges_again : ∃ us m,
    Runs.meets (update fun _ _ => true) (settles fun _ _ => true) {} us = true ∧
    Runs.run (update fun _ _ => true) {} us = some m ∧
    us = [.quaggaConfigSync (oneInterface "eth0" ["a", "b"]) 1 ["eth0"], .processQuaggaConfigDelete 1,
      .quaggaConfigSync (oneInterface "eth1" ["c"]) 1 ["eth1"]] ∧
    (m.running 1).Perm (instances (lastSynced us 1)) :=
  ⟨_, _, by decide, rfl, rfl, sync_converges (fun _ _ => true) (by decide) rfl 1⟩

/-- A modified interface keeps its old text. -/
theorem sync_converges_modified : ∃ us m,
    us = [.quaggaConfigSync (oneInterface "eth0" ["a"]) 1 ["eth0"],
      .quaggaConfigSync (oneInterface "eth0" ["b"]) 1 ["eth0"]] ∧
    Runs.run (update fun _ _ => true) {} us = some m ∧ m.running 1 = [("eth0", "a")] ∧
    ¬ (m.running 1).Perm (instances (lastSynced us 1)) :=
  ⟨_, _, rfl, rfl, by decide, by decide⟩

end Manager

end OpenConfigd.Quagga
