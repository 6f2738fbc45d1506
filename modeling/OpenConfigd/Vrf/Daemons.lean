import OpenConfigd.Etcd.Path
import OpenConfigd.Gobgp.Config
import OpenConfigd.Quagga.Sync

/-!
# The daemons of the VRFs

What `VrfParse`, `VrfDelete` and `QuaggaDelete` keep for each VRF: its configuration, its `bgpd`
processes and its `ospfd`, the VRF of `gobgpConfig` and the monitor of its hubs; the `bgpd` processes
of the instance manager; and the leaf `routing-options nexthop-walker` of the candidate. The lines
that are executed for interfaces, DHCP, VRRP, static routes and distribute lists are left out.

* `quaggaVrfSync_eq`, `ospfVrfSync_eq`: what a parse leaves of the daemons;
* `gobgpVrfs_gobgpVrfUpdate`, `gobgpVrfs_gobgpVrfDelete`, `gobgpVrfs_gobgpParse`: the VRFs are those
  of `gobgpConfig`;
* `Sound.step`: no entry of `QuaggaProc` is empty, and pointers are not used twice;
* `Sound.walkerRight`: an update of the walker agrees with the maps.
-/

namespace OpenConfigd.Vrf

open Etcd (Request etcdKeyValueParse etcdKeyDelete)

/-- `QuaggaBgp`. -/
structure QuaggaBgp where
  ciscoConfig : String
  interface : String
  deriving DecidableEq

/-- `VrfsConfig`: the fields that `Copy` takes, with the `vrf_id` of the body, those that daemons
are started for, and the others. -/
structure DaemonConfig (Ospf R : Type) extends Gobgp.VrfConfig where
  bgp : List QuaggaBgp
  ospf : List Ospf
  others : R
  deriving DecidableEq

/-- `Copy`. -/
def DaemonConfig.copy {Ospf R : Type} (vrf : DaemonConfig Ospf R) : Gobgp.VrfConfig := vrf.toVrfConfig

/-- A `bgpd` by its pointer, with the interface and the text it is started with. -/
structure Bgpd where
  ptr : ℕ
  interface : String
  config : String
  deriving DecidableEq

/-- An `ospfd` by its pointer, with its configuration. -/
structure Ospfd (Ospf : Type) where
  ptr : ℕ
  ospf : List Ospf
  deriving DecidableEq

/-- A `gobgp_hub` by its pointer, with its arguments. -/
structure GobgpHub where
  ptr : ℕ
  args : List String
  deriving DecidableEq

/-- What the handlers get from outside: the decoders of the texts, the replacement of passwords
and which files of the instance manager are written. -/
structure Host (Ospf R : Type) where
  jsonBody : List UInt8 → Option String
  vrf : String → Option (DaemonConfig Ospf R)
  quagga : List UInt8 → Option Quagga.InterfaceConfigs
  /-- The VRFs of a document for `GobgpParse`. -/
  gobgp : String → Option (List Gobgp.VrfConfig)
  password : String → String
  writable : Int → String → Bool

/-- The maps by VRF, the VRFs of `gobgpConfig`, the leaf of the candidate and the next pointer. -/
structure Daemons (Ospf R : Type) where
  etcdVrfMap : GoMap Int (DaemonConfig Ospf R) := ∅
  quaggaProc : GoMap Int (List Bgpd) := ∅
  ospfVrfMap : GoMap Int (List Ospf) := ∅
  ospfProcessMap : GoMap Int (Ospfd Ospf) := ∅
  quaggaManager : Quagga.Manager := {}
  gobgpVrfs : List Gobgp.VrfConfig := []
  gobgpHubProcessList : GoMap Int GobgpHub := ∅
  gobgpHubNode : GoMap Int String := ∅
  nexthopWalker : Bool := false
  next : ℕ := 0

/-- An event from etcd; `creatable` says whether the file of `ospfd` can be created then. -/
inductive Event where
  | put (key value : List UInt8) (creatable : Bool)
  | delete (key : List UInt8)

namespace Daemons

variable {Ospf R : Type}

/-! ## The handlers -/

/-- `NexthopWalkerUpdate`. -/
def nexthopWalkerUpdate (s : Daemons Ospf R) : Daemons Ospf R :=
  { s with nexthopWalker := s.quaggaProc.keys.length + s.ospfProcessMap.keys.length ≠ 0 }

/-- `QuaggaDelete`. -/
def quaggaDelete (s : Daemons Ospf R) (vrfId : Int) : Daemons Ospf R :=
  { s with quaggaProc := s.quaggaProc.erase vrfId }

/-- `QuaggaExec`. -/
def quaggaExec (password : String → String) (vrfId : Int) (s : Daemons Ospf R) (bgp : QuaggaBgp) :
    Daemons Ospf R :=
  let proc := ⟨s.next, bgp.interface, password bgp.ciscoConfig⟩
  { s with quaggaProc := s.quaggaProc.insert vrfId (s.quaggaProc.at? vrfId [] ++ [proc]), next := s.next + 1 }

/-- `QuaggaVrfSync`. -/
def quaggaVrfSync (password : String → String) (s : Daemons Ospf R) (vrfId : Int)
    (cfg : DaemonConfig Ospf R) : Daemons Ospf R :=
  (cfg.bgp.foldl (quaggaExec password vrfId) (s.quaggaDelete vrfId)).nexthopWalkerUpdate

/-- `QuaggaVrfDelete`. -/
def quaggaVrfDelete (s : Daemons Ospf R) (vrfId : Int) : Daemons Ospf R :=
  (s.quaggaDelete vrfId).nexthopWalkerUpdate

/-- `OspfExec`. -/
def ospfExec (creatable : Bool) (s : Daemons Ospf R) (vrfId : Int) (ospf : List Ospf) : Daemons Ospf R :=
  if creatable then
    { s with ospfProcessMap := s.ospfProcessMap.insert vrfId ⟨s.next, ospf⟩, next := s.next + 1 }
  else s

/-- `OspfVrfStop`. -/
def ospfVrfStop (s : Daemons Ospf R) (vrfId : Int) : Daemons Ospf R :=
  { s with ospfProcessMap := s.ospfProcessMap.erase vrfId }

/-- `OspfVrfSync`. -/
def ospfVrfSync (creatable : Bool) (s : Daemons Ospf R) (vrfId : Int) (cfg : DaemonConfig Ospf R) :
    Daemons Ospf R :=
  let s := s.ospfVrfStop vrfId
  let s := { s with ospfVrfMap := s.ospfVrfMap.insert vrfId cfg.ospf }
  if cfg.ospf = [] then s.nexthopWalkerUpdate
  else (s.ospfExec creatable vrfId cfg.ospf).nexthopWalkerUpdate

/-- `OspfVrfDelete`. -/
def ospfVrfDelete (s : Daemons Ospf R) (vrfId : Int) : Daemons Ospf R :=
  let s := s.ospfVrfStop vrfId
  nexthopWalkerUpdate { s with ospfVrfMap := s.ospfVrfMap.erase vrfId }

/-- `GobgpVrfUpdate`. -/
def gobgpVrfUpdate (s : Daemons Ospf R) (vrfConfig : Gobgp.VrfConfig) : Daemons Ospf R :=
  { s with gobgpVrfs := (s.gobgpVrfs.filter fun vrf => vrf.vrfId ≠ vrfConfig.vrfId) ++ [vrfConfig] }

/-- `GobgpVrfDelete`. -/
def gobgpVrfDelete (s : Daemons Ospf R) (vrfId : Int) : Daemons Ospf R :=
  { s with gobgpVrfs := s.gobgpVrfs.filter fun vrf => vrf.vrfId ≠ vrfId }

/-- `GobgpHubDelete`. -/
def gobgpHubDelete (s : Daemons Ospf R) (vrfId : Int) : Daemons Ospf R :=
  { s with
    gobgpHubProcessList := s.gobgpHubProcessList.erase vrfId
    gobgpHubNode := s.gobgpHubNode.erase vrfId }

/-- `GobgpHubUpdate`: two hubs or more are monitored, unless this node is one of them. -/
def gobgpHubUpdate (s : Daemons Ospf R) (vrfConfig : Gobgp.VrfConfig) : Daemons Ospf R :=
  let s := s.gobgpHubDelete vrfConfig.vrfId
  if vrfConfig.hubs.length < 2 then s
  else if vrfConfig.vrfRibs.any fun rib => vrfConfig.hubs.any fun h => rib.nextHop = h then
    if vrfConfig.hubNode ≠ "" then
      { s with gobgpHubNode := s.gobgpHubNode.insert vrfConfig.vrfId vrfConfig.hubNode }
    else s
  else
    let args := ["-v", s!"vrf{vrfConfig.vrfId}", "-r", vrfConfig.rd, "-u", ":".intercalate vrfConfig.hubs]
    { s with
      gobgpHubProcessList := s.gobgpHubProcessList.insert vrfConfig.vrfId ⟨s.next, args⟩
      next := s.next + 1 }

/-- `VrfParse` of a decoded configuration. -/
def vrfParse (host : Host Ospf R) (creatable : Bool) (s : Daemons Ospf R) (vrfId : Int)
    (vrf : DaemonConfig Ospf R) : Daemons Ospf R :=
  let s := s.quaggaVrfSync host.password vrfId vrf
  let s := s.ospfVrfSync creatable vrfId vrf
  let s := s.gobgpVrfUpdate vrf.copy
  let s := s.gobgpHubUpdate vrf.copy
  { s with etcdVrfMap := s.etcdVrfMap.insert vrfId vrf }

/-- `VrfDelete`. -/
def vrfDelete (s : Daemons Ospf R) (vrfId : Int) : Daemons Ospf R :=
  let s := (s.gobgpVrfDelete vrfId).gobgpHubDelete vrfId
  let s := (s.quaggaVrfDelete vrfId).ospfVrfDelete vrfId
  { s with etcdVrfMap := s.etcdVrfMap.erase vrfId }

/-- `GobgpParse`: the VRFs of the document before those that are there. -/
def gobgpParse (host : Host Ospf R) (s : Daemons Ospf R) (jsonStr : String) : Daemons Ospf R :=
  match host.gobgp jsonStr with
  | none => s
  | some vrfs => { s with gobgpVrfs := vrfs ++ s.gobgpVrfs }

/-- What a call of the handlers does for the VRFs. -/
def call (host : Host Ospf R) (creatable : Bool) (s : Daemons Ospf R) : Request → Daemons Ospf R
  | .gobgpParse body => s.gobgpParse host body
  | .quaggaConfigSync value vrfId =>
    match host.quagga value with
    | none => s
    | some configs =>
      { s with
        quaggaManager := s.quaggaManager.quaggaConfigSync host.writable configs vrfId configs.keys }
  | .vrfParse vrfId body =>
    match host.vrf body with
    | none => s
    | some vrf => s.vrfParse host creatable vrfId vrf
  | .quaggaDelete vrfId => s.quaggaDelete vrfId
  | .vrfDelete vrfId => s.vrfDelete vrfId
  | .processQuaggaConfigDelete vrfId =>
    { s with quaggaManager := s.quaggaManager.processQuaggaConfigDelete vrfId }
  | _ => s

/-- The state after an event, none where its handler panics. -/
def step (host : Host Ospf R) (s : Daemons Ospf R) : Event → Option (Daemons Ospf R)
  | .put key value creatable =>
    (etcdKeyValueParse host.jsonBody key value).map fun rs => rs.foldl (call host creatable) s
  | .delete key => (etcdKeyDelete key).map fun rs => rs.foldl (call host false) s

/-! ## What an event leaves -/

/-- No entry of `QuaggaProc` is empty, and the pointers of the processes have been used. -/
structure Sound (s : Daemons Ospf R) : Prop where
  filled : ∀ v, s.quaggaProc.lookup v ≠ some []
  bgpd : ∀ v ps p, s.quaggaProc.lookup v = some ps → p ∈ ps → p.ptr < s.next
  ospfd : ∀ v p, s.ospfProcessMap.lookup v = some p → p.ptr < s.next
  hubs : ∀ v p, s.gobgpHubProcessList.lookup v = some p → p.ptr < s.next

/-- There is a process in the maps. -/
def Running (s : Daemons Ospf R) : Prop :=
  (∃ v ps p, s.quaggaProc.lookup v = some ps ∧ p ∈ ps) ∨ ∃ v p, s.ospfProcessMap.lookup v = some p

/-- The walker is on just if there is one. -/
def WalkerRight (s : Daemons Ospf R) : Prop := s.nexthopWalker = true ↔ s.Running

variable {s : Daemons Ospf R} {host : Host Ospf R} {creatable : Bool} {v vrfId : Int}

@[simp] theorem nexthopWalkerUpdate_etcdVrfMap : s.nexthopWalkerUpdate.etcdVrfMap = s.etcdVrfMap := rfl
@[simp] theorem nexthopWalkerUpdate_quaggaProc : s.nexthopWalkerUpdate.quaggaProc = s.quaggaProc := rfl
@[simp] theorem nexthopWalkerUpdate_ospfVrfMap : s.nexthopWalkerUpdate.ospfVrfMap = s.ospfVrfMap := rfl
@[simp] theorem nexthopWalkerUpdate_ospfProcessMap :
    s.nexthopWalkerUpdate.ospfProcessMap = s.ospfProcessMap := rfl
@[simp] theorem nexthopWalkerUpdate_quaggaManager :
    s.nexthopWalkerUpdate.quaggaManager = s.quaggaManager := rfl
@[simp] theorem nexthopWalkerUpdate_next : s.nexthopWalkerUpdate.next = s.next := rfl

/-- The processes that are started for a configuration, from a pointer on. -/
def started (password : String → String) : ℕ → List QuaggaBgp → List Bgpd
  | _, [] => []
  | n, bgp :: rest => ⟨n, bgp.interface, password bgp.ciscoConfig⟩ :: started password (n + 1) rest

theorem started_eq_nil {password : String → String} {n : ℕ} {bgp : List QuaggaBgp} :
    started password n bgp = [] ↔ bgp = [] := by
  cases bgp <;> simp [started]

theorem mem_started {password : String → String} {n : ℕ} {bgp : List QuaggaBgp} {p : Bgpd}
    (h : p ∈ started password n bgp) : n ≤ p.ptr ∧ p.ptr < n + bgp.length := by
  induction bgp generalizing n with
  | nil => cases h
  | cons b rest ih =>
    rw [List.length_cons]
    rcases List.mem_cons.mp h with rfl | h
    · exact ⟨le_rfl, by dsimp only; omega⟩
    · have := ih h
      omega

theorem quaggaExecs_eq (password : String → String) (bgp : List QuaggaBgp) :
    bgp.foldl (quaggaExec password vrfId) s =
      if bgp = [] then s
      else { s with
        quaggaProc := s.quaggaProc.insert vrfId (s.quaggaProc.at? vrfId [] ++ started password s.next bgp)
        next := s.next + bgp.length } := by
  induction bgp generalizing s with
  | nil => rfl
  | cons b rest ih =>
    rw [List.foldl_cons, ih, if_neg (List.cons_ne_nil b rest)]
    by_cases hrest : rest = []
    · subst hrest
      rfl
    · rw [if_neg hrest]
      simp only [quaggaExec, GoMap.at?, AList.lookup_insert, Option.getD_some, AList.insert_insert,
        started, List.append_assoc, List.singleton_append, List.length_cons]
      congr 1
      omega

/-- What `QuaggaVrfSync` leaves. -/
theorem quaggaVrfSync_eq (password : String → String) (cfg : DaemonConfig Ospf R) :
    s.quaggaVrfSync password vrfId cfg = nexthopWalkerUpdate { s with
      quaggaProc := if cfg.bgp = [] then s.quaggaProc.erase vrfId
        else (s.quaggaProc.erase vrfId).insert vrfId (started password s.next cfg.bgp)
      next := s.next + cfg.bgp.length } := by
  rw [quaggaVrfSync, quaggaExecs_eq]
  by_cases hb : cfg.bgp = []
  · simp only [hb, if_true, List.length_nil, Nat.add_zero]
    rfl
  · simp only [hb, if_false, quaggaDelete, GoMap.at?, AList.lookup_erase, Option.getD_none, List.nil_append]

/-- What `OspfVrfSync` leaves. -/
theorem ospfVrfSync_eq (cfg : DaemonConfig Ospf R) :
    s.ospfVrfSync creatable vrfId cfg = nexthopWalkerUpdate { s with
      ospfVrfMap := s.ospfVrfMap.insert vrfId cfg.ospf
      ospfProcessMap := if cfg.ospf ≠ [] ∧ creatable then
          (s.ospfProcessMap.erase vrfId).insert vrfId ⟨s.next, cfg.ospf⟩
        else s.ospfProcessMap.erase vrfId
      next := if cfg.ospf ≠ [] ∧ creatable then s.next + 1 else s.next } := by
  rw [ospfVrfSync]
  by_cases ho : cfg.ospf = []
  · simp [ho, ospfVrfStop]
  · by_cases hc : creatable = true
    · simp [ho, hc, ospfVrfStop, ospfExec]
    · simp [ho, hc, ospfVrfStop, ospfExec]

/-- `GobgpHubUpdate` leaves all but the monitors and the hub nodes; a monitor that is started has a
new pointer. -/
theorem gobgpHubUpdate_eq (vrfConfig : Gobgp.VrfConfig) : ∃ processList node next,
    s.gobgpHubUpdate vrfConfig = { s with
      gobgpHubProcessList := processList, gobgpHubNode := node, next := next } ∧
    s.next ≤ next ∧ ∀ v p, processList.lookup v = some p →
      s.gobgpHubProcessList.lookup v = some p ∨ s.next ≤ p.ptr ∧ p.ptr < next := by
  have herase (v : Int) (p : GobgpHub)
      (hp : (s.gobgpHubProcessList.erase vrfConfig.vrfId).lookup v = some p) :
      s.gobgpHubProcessList.lookup v = some p := by
    by_cases hv : v = vrfConfig.vrfId
    · rw [hv, AList.lookup_erase] at hp
      cases hp
    · rwa [AList.lookup_erase_ne hv] at hp
  rw [gobgpHubUpdate]
  dsimp only
  split
  · exact ⟨_, _, _, rfl, le_rfl, fun v p hp => .inl (herase v p hp)⟩
  · split
    · split
      · exact ⟨_, _, _, rfl, le_rfl, fun v p hp => .inl (herase v p hp)⟩
      · exact ⟨_, _, _, rfl, le_rfl, fun v p hp => .inl (herase v p hp)⟩
    · refine ⟨_, _, _, rfl, Nat.le_succ _, fun v p hp => ?_⟩
      by_cases hv : v = vrfConfig.vrfId
      · rw [hv, AList.lookup_insert] at hp
        rw [← Option.some.inj hp]
        exact .inr ⟨le_rfl, Nat.lt_succ_self _⟩
      · rw [AList.lookup_insert_ne hv] at hp
        exact .inl (herase v p hp)

/-- What `VrfParse` leaves of the configurations and the daemons. -/
theorem vrfParse_maps (vrf : DaemonConfig Ospf R) :
    (s.vrfParse host creatable vrfId vrf).etcdVrfMap = s.etcdVrfMap.insert vrfId vrf ∧
    (s.vrfParse host creatable vrfId vrf).quaggaProc =
      (s.quaggaVrfSync host.password vrfId vrf).quaggaProc := by
  obtain ⟨processList, node, next, hhub, -, -⟩ := gobgpHubUpdate_eq
    (s := ((s.quaggaVrfSync host.password vrfId vrf).ospfVrfSync creatable vrfId vrf).gobgpVrfUpdate vrf.copy)
    vrf.copy
  rw [vrfParse]
  dsimp only
  rw [hhub, ospfVrfSync_eq, quaggaVrfSync_eq]
  exact ⟨rfl, rfl⟩

/-! ## The VRFs of `gobgpConfig` -/

section

variable {G S B O E Rd Rt Nlri Hop : Type} [DecidableEq G] [DecidableEq S] [DecidableEq Nlri]
variable {api : Gobgp.Api G S B O E Rd Rt Nlri Hop} {g : Gobgp.State G S B O E Rd Rt Nlri Hop}

theorem gobgpVrfs_gobgpVrfUpdate (h : s.gobgpVrfs = g.gobgpConfig.vrfs) (vrfConfig : Gobgp.VrfConfig) :
    (s.gobgpVrfUpdate vrfConfig).gobgpVrfs = (g.gobgpVrfUpdate api vrfConfig).gobgpConfig.vrfs := by
  rw [gobgpVrfUpdate, h]
  rfl

theorem gobgpVrfs_gobgpVrfDelete (h : s.gobgpVrfs = g.gobgpConfig.vrfs) (vrfId : Int) :
    (s.gobgpVrfDelete vrfId).gobgpVrfs = (g.gobgpVrfDelete api vrfId).gobgpConfig.vrfs := by
  rw [gobgpVrfDelete, h]
  rfl

theorem gobgpVrfs_gobgpParse (h : s.gobgpVrfs = g.gobgpConfig.vrfs) {jsonStr : String}
    (hdecode : host.gobgp jsonStr = (api.decode jsonStr).map Gobgp.GobgpConfig.vrfs) (order : List String) :
    (s.gobgpParse host jsonStr).gobgpVrfs = (g.gobgpParse api jsonStr order).gobgpConfig.vrfs := by
  cases hcfg : api.decode jsonStr with
  | none =>
    rw [hcfg] at hdecode
    simp only [gobgpParse, Gobgp.State.gobgpParse, hdecode, hcfg, Option.map_none]
    exact h
  | some cfg =>
    rw [hcfg] at hdecode
    rw [Gobgp.State.gobgpParse_gobgpConfig hcfg, gobgpParse, hdecode, Option.map_some, ← h]

end

/-! ## Every state is sound -/

theorem Sound.running_iff (h : s.Sound) : s.Running ↔
    (∃ v, s.quaggaProc.lookup v ≠ none) ∨ ∃ v, s.ospfProcessMap.lookup v ≠ none := by
  rw [Running]
  refine or_congr ⟨?_, ?_⟩ ⟨?_, ?_⟩
  · rintro ⟨v, ps, p, hps, -⟩
    exact ⟨v, by rw [hps]; exact Option.some_ne_none ps⟩
  · rintro ⟨v, hv⟩
    obtain ⟨ps, hps⟩ := Option.ne_none_iff_exists'.mp hv
    have hne : ps ≠ [] := fun hnil => h.filled v (hnil ▸ hps)
    obtain ⟨p, hp⟩ := List.exists_mem_of_ne_nil ps hne
    exact ⟨v, ps, p, hps, hp⟩
  · rintro ⟨v, p, hp⟩
    exact ⟨v, by rw [hp]; exact Option.some_ne_none p⟩
  · rintro ⟨v, hv⟩
    exact ⟨v, Option.ne_none_iff_exists'.mp hv⟩

theorem keys_length_ne_zero {β : Type} (m : GoMap Int β) : m.keys.length ≠ 0 ↔ ∃ v, m.lookup v ≠ none := by
  rw [ne_eq, List.length_eq_zero_iff]
  constructor
  · intro hkeys
    obtain ⟨v, hv⟩ := List.exists_mem_of_ne_nil _ hkeys
    exact ⟨v, Option.isSome_iff_ne_none.mp (AList.lookup_isSome.mpr (AList.mem_keys.mpr hv))⟩
  · rintro ⟨v, hv⟩
    exact List.ne_nil_of_mem (AList.mem_keys.mp (AList.lookup_isSome.mp (Option.isSome_iff_ne_none.mpr hv)))

/-- An update of the walker agrees with the maps. -/
theorem Sound.walkerRight (h : s.Sound) : s.nexthopWalkerUpdate.WalkerRight := by
  have hsum (a b : ℕ) : a + b ≠ 0 ↔ a ≠ 0 ∨ b ≠ 0 := by omega
  have hrunning : s.nexthopWalkerUpdate.Running ↔ s.Running := Iff.rfl
  rw [WalkerRight, hrunning, h.running_iff, Daemons.nexthopWalkerUpdate, decide_eq_true_eq, hsum,
    keys_length_ne_zero, keys_length_ne_zero]

theorem Sound.nexthopWalkerUpdate (h : s.Sound) : s.nexthopWalkerUpdate.Sound := ⟨h.filled, h.bgpd, h.ospfd, h.hubs⟩

theorem Sound.quaggaDelete (h : s.Sound) (vrfId : Int) : (s.quaggaDelete vrfId).Sound := by
  have hsub {v : Int} {ps : List Bgpd} (hps : (s.quaggaProc.erase vrfId).lookup v = some ps) :
      s.quaggaProc.lookup v = some ps := by
    by_cases hv : v = vrfId
    · rw [hv, AList.lookup_erase] at hps
      cases hps
    · rwa [AList.lookup_erase_ne hv] at hps
  exact ⟨fun v hv => h.filled v (hsub hv), fun v ps p hps hp => h.bgpd v ps p (hsub hps) hp, h.ospfd, h.hubs⟩

theorem Sound.ospfVrfStop (h : s.Sound) (vrfId : Int) : (s.ospfVrfStop vrfId).Sound := by
  refine ⟨h.filled, h.bgpd, fun v p hp => ?_, h.hubs⟩
  rw [Daemons.ospfVrfStop] at hp ⊢
  by_cases hv : v = vrfId
  · rw [hv, AList.lookup_erase] at hp
    cases hp
  · rw [AList.lookup_erase_ne hv] at hp
    exact h.ospfd v p hp

theorem Sound.quaggaVrfSync (h : s.Sound) (password : String → String) (vrfId : Int)
    (cfg : DaemonConfig Ospf R) : (s.quaggaVrfSync password vrfId cfg).Sound := by
  rw [quaggaVrfSync_eq]
  refine Sound.nexthopWalkerUpdate ?_
  have hd := h.quaggaDelete vrfId
  by_cases hb : cfg.bgp = []
  · simp only [hb, if_true, List.length_nil, Nat.add_zero]
    exact hd
  · simp only [hb, if_false]
    have hat {v : Int} {ps : List Bgpd}
        (hps : ((s.quaggaProc.erase vrfId).insert vrfId (started password s.next cfg.bgp)).lookup v = some ps) :
        ps = started password s.next cfg.bgp ∨ (s.quaggaDelete vrfId).quaggaProc.lookup v = some ps := by
      by_cases hv : v = vrfId
      · rw [hv, AList.lookup_insert] at hps
        exact .inl (Option.some.inj hps).symm
      · rw [AList.lookup_insert_ne hv] at hps
        exact .inr hps
    refine ⟨fun v hv => ?_, fun v ps p hps hp => ?_, fun v p hp => ?_, fun v p hp => ?_⟩
    · rcases hat hv with heq | hold
      · exact hb (started_eq_nil.mp heq.symm)
      · exact hd.filled v hold
    · rcases hat hps with rfl | hold
      · exact (mem_started hp).2
      · exact Nat.lt_add_right _ (hd.bgpd v ps p hold hp)
    · exact Nat.lt_add_right _ (h.ospfd v p hp)
    · exact Nat.lt_add_right _ (h.hubs v p hp)

theorem Sound.ospfVrfSync (h : s.Sound) (creatable : Bool) (vrfId : Int) (cfg : DaemonConfig Ospf R) :
    (s.ospfVrfSync creatable vrfId cfg).Sound := by
  rw [ospfVrfSync_eq]
  refine Sound.nexthopWalkerUpdate ?_
  have hd := h.ospfVrfStop vrfId
  by_cases hc : cfg.ospf ≠ [] ∧ creatable = true
  · simp only [if_pos hc]
    refine ⟨h.filled, fun v ps p hps hp => Nat.lt_succ_of_lt (h.bgpd v ps p hps hp), fun v p hp => ?_,
      fun v p hp => Nat.lt_succ_of_lt (h.hubs v p hp)⟩
    dsimp only at hp ⊢
    by_cases hv : v = vrfId
    · rw [hv, AList.lookup_insert] at hp
      rw [← Option.some.inj hp]
      exact Nat.lt_succ_self _
    · rw [AList.lookup_insert_ne hv] at hp
      exact Nat.lt_succ_of_lt (hd.ospfd v p hp)
  · simp only [if_neg hc]
    exact ⟨h.filled, h.bgpd, hd.ospfd, h.hubs⟩

theorem Sound.gobgpVrfUpdate (h : s.Sound) (vrfConfig : Gobgp.VrfConfig) :
    (s.gobgpVrfUpdate vrfConfig).Sound := ⟨h.filled, h.bgpd, h.ospfd, h.hubs⟩

theorem Sound.gobgpVrfDelete (h : s.Sound) (vrfId : Int) : (s.gobgpVrfDelete vrfId).Sound :=
  ⟨h.filled, h.bgpd, h.ospfd, h.hubs⟩

theorem Sound.gobgpParse (h : s.Sound) (host : Host Ospf R) (jsonStr : String) :
    (s.gobgpParse host jsonStr).Sound := by
  rw [Daemons.gobgpParse]
  split
  · exact h
  · exact ⟨h.filled, h.bgpd, h.ospfd, h.hubs⟩

theorem Sound.gobgpHubDelete (h : s.Sound) (vrfId : Int) : (s.gobgpHubDelete vrfId).Sound := by
  refine ⟨h.filled, h.bgpd, h.ospfd, fun v p hp => ?_⟩
  rw [Daemons.gobgpHubDelete] at hp ⊢
  by_cases hv : v = vrfId
  · rw [hv, AList.lookup_erase] at hp
    cases hp
  · rw [AList.lookup_erase_ne hv] at hp
    exact h.hubs v p hp

theorem Sound.gobgpHubUpdate (h : s.Sound) (vrfConfig : Gobgp.VrfConfig) :
    (s.gobgpHubUpdate vrfConfig).Sound := by
  obtain ⟨processList, node, next, hhub, hle, hnew⟩ := gobgpHubUpdate_eq (s := s) vrfConfig
  rw [hhub]
  refine ⟨h.filled, fun v ps p hps hp => (h.bgpd v ps p hps hp).trans_le hle,
    fun v p hp => (h.ospfd v p hp).trans_le hle, fun v p hp => ?_⟩
  rcases hnew v p hp with hold | ⟨-, hlt⟩
  · exact (h.hubs v p hold).trans_le hle
  · exact hlt

theorem Sound.vrfParse (h : s.Sound) (host : Host Ospf R) (creatable : Bool) (vrfId : Int)
    (vrf : DaemonConfig Ospf R) : (s.vrfParse host creatable vrfId vrf).Sound := by
  have hsync := (h.quaggaVrfSync host.password vrfId vrf).ospfVrfSync creatable vrfId vrf
  have hs := (hsync.gobgpVrfUpdate vrf.copy).gobgpHubUpdate vrf.copy
  exact ⟨hs.filled, hs.bgpd, hs.ospfd, hs.hubs⟩

theorem Sound.vrfDelete (h : s.Sound) (vrfId : Int) : (s.vrfDelete vrfId).Sound := by
  have hgobgp := (h.gobgpVrfDelete vrfId).gobgpHubDelete vrfId
  have hs := ((hgobgp.quaggaDelete vrfId).nexthopWalkerUpdate).ospfVrfStop vrfId
  exact ⟨hs.filled, hs.bgpd, hs.ospfd, hs.hubs⟩

theorem Sound.call (h : s.Sound) (host : Host Ospf R) (creatable : Bool) (r : Request) :
    (s.call host creatable r).Sound := by
  cases r with
  | gobgpParse body => exact h.gobgpParse host body
  | quaggaConfigSync value vrfId =>
    rw [Daemons.call]
    split
    · exact h
    · exact ⟨h.filled, h.bgpd, h.ospfd, h.hubs⟩
  | vrfParse vrfId body =>
    rw [Daemons.call]
    split
    · exact h
    · exact h.vrfParse host creatable vrfId _
  | quaggaDelete vrfId => exact h.quaggaDelete vrfId
  | vrfDelete vrfId => exact h.vrfDelete vrfId
  | processQuaggaConfigDelete vrfId => exact ⟨h.filled, h.bgpd, h.ospfd, h.hubs⟩
  | _ => exact h

theorem Sound.calls (h : s.Sound) (host : Host Ospf R) (creatable : Bool) (rs : List Request) :
    (rs.foldl (Daemons.call host creatable) s).Sound := by
  induction rs generalizing s with
  | nil => exact h
  | cons r rest ih => exact ih (h.call host creatable r)

/-- Every event keeps the state sound. -/
theorem Sound.step {s' : Daemons Ospf R} {e : Event} (h : s.Sound) (hs : s.step host e = some s') :
    s'.Sound := by
  cases e with
  | put key value creatable =>
    obtain ⟨rs, -, rfl⟩ := Option.map_eq_some_iff.mp hs
    exact h.calls host creatable rs
  | delete key =>
    obtain ⟨rs, -, rfl⟩ := Option.map_eq_some_iff.mp hs
    exact h.calls host false rs

theorem sound_empty : ({} : Daemons Ospf R).Sound := by
  refine ⟨fun v => ?_, fun v ps p hps => ?_, fun v p hp => ?_, fun v p hp => ?_⟩
  · simp
  · simp at hps
  · simp at hp
  · simp at hp

/-- A parse of a configuration with a `bgpd` starts the processes of the VRF anew. -/
theorem Sound.vrfParse_restarts (h : s.Sound) {vrf : DaemonConfig Ospf R} (hbgp : vrf.bgp ≠ []) :
    (s.vrfParse host creatable vrfId vrf).quaggaProc.lookup vrfId ≠ s.quaggaProc.lookup vrfId := by
  rw [(vrfParse_maps vrf).2, quaggaVrfSync_eq]
  simp only [nexthopWalkerUpdate_quaggaProc, if_neg hbgp, AList.lookup_insert]
  intro heq
  obtain ⟨p, hp⟩ := List.exists_mem_of_ne_nil _ (mt started_eq_nil.mp hbgp)
  have hlow := (mem_started hp).1
  have hhigh := h.bgpd vrfId _ p heq.symm hp
  omega

/-- The states of a run. -/
theorem sound_run {es : List Event} {s' : Daemons Ospf R} (h : s.Sound)
    (hr : Runs.run (Daemons.step host) s es = some s') : s'.Sound :=
  Runs.run_preserves (fun _ _ _ h hs => h.step hs) h hr

end Daemons

/-- Every body decodes to a VRF with one `bgpd`. -/
def oneBgpd : Host Unit Unit where
  jsonBody _ := some ""
  vrf _ := some { name := "", vrfId := 0, rd := "", bgp := [⟨"", "eth0"⟩], ospf := [], others := () }
  quagga _ := none
  gobgp _ := none
  password := id
  writable _ _ := true

/-- No body decodes to a VRF. -/
def undecoded : Host Unit Unit := { oneBgpd with vrf := fun _ => none }

end OpenConfigd.Vrf
