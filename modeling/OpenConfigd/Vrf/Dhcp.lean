import Mathlib.Data.List.Induction
import OpenConfigd.Dhcp.Server

/-!
# The DHCP configuration of the VRFs

`DhcpVrfSync` and `DhcpVrfDelete` bring the pools and the relay groups of a VRF to the candidate.
Both delete the pools of the configuration that is remembered for the VRF; a group is deleted only
where the new configuration has it again.

* `exec_at`: what lines do to one pool or group;
* `exec_entry`: the set lines of a configuration leave what it has of a pool that is not there, and
  of a group in any case;
* `Right.step`, `Right.keeps`: what a call leaves, and that it has to keep the groups;
* `dhcp_converges_iff`: for which runs the candidate is that of the last configurations.
-/

namespace OpenConfigd.Vrf.Dhcp

open Dhcpd (Range ServerGroup)

/-! ## Configurations -/

/-- `Host`. -/
structure Host where
  hostName : String
  macAddress : String
  ipAddress : String
  deriving DecidableEq

/-- `ClasslessRoutes`. -/
structure ClasslessRoutes where
  pfx : String
  nexthop : String
  deriving DecidableEq

/-- `Option`, the fields that are set; the lists hold the `Server` of their entries. -/
structure DhcpOption where
  domainName : String := ""
  domainNameServersList : List String := []
  ntpServersList : List String := []
  tftpServerName : String := ""
  voipTftpServersList : List String := []
  sipServersList : List String := []
  classlessRoutesList : List ClasslessRoutes := []
  timeOffset : Int32 := 0
  deriving DecidableEq

/-- `DhcpIpPool`, the fields that are set. -/
structure DhcpIpPool where
  interface : String
  gatewayIp : String
  subnet : String
  defaultLeaseTime : UInt32 := 0
  maxLeaseTime : UInt32 := 0
  rangeList : List Range := []
  hostList : List Host := []
  option : DhcpOption := {}
  failoverRole : String := ""
  failoverPeerAddress : String := ""
  deriving DecidableEq

/-- `VrfsConfig`: `Id`, the pools of `Dhcp.Server` and the groups of `Dhcp.Relay`. -/
structure Config where
  id : Int
  dhcpIpPoolList : List DhcpIpPool := []
  serverGroupList : List ServerGroup := []
  deriving DecidableEq

/-! ## The candidate -/

/-- An entry of the list `dhcp server dhcp-ip-pool` or `dhcp relay server-group`. -/
inductive Entry where
  | pool (name : String)
  | group (name : String)
  deriving DecidableEq

/-- What is in an entry: a leaf by its words, with its value, or an entry of a list of its own. -/
abbrev Content := List String → Option (Option String)

/-- The entries of the candidate. -/
abbrev Candidate := Entry → Option Content

/-- A command line on an entry. -/
inductive Line where
  | delete (e : Entry)
  | create (e : Entry)
  | set (e : Entry) (words : List String) (value : Option String)
  deriving DecidableEq

/-- The entry of a line. -/
def Line.entry : Line → Entry
  | .delete e => e
  | .create e => e
  | .set e _ _ => e

section

-- the `set` lines that the command parser takes
variable (accept : Line → Bool)

/-- What a line does to its entry. -/
def Line.apply (c : Option Content) : Line → Option Content
  | .delete _ => none
  | .create e => if accept (.create e) then some (c.getD fun _ => none) else c
  | .set e words value =>
    if accept (.set e words value) then
      some (Function.update (c.getD fun _ => none) words (some value))
    else c

/-- `ExecLine`. -/
def execLine (t : Candidate) (l : Line) : Candidate :=
  Function.update t l.entry (l.apply accept (t l.entry))

/-- Lines one after the other. -/
def exec (t : Candidate) (ls : List Line) : Candidate := ls.foldl (execLine accept) t

end

/-! ## The lines of a configuration -/

/-- The lines of `DhcpVrfSync` for a pool. -/
def poolLines (id : Int) (pool : DhcpIpPool) : List Line :=
  let set (words : List String) (value : String) : Line := .set (.pool pool.interface) words (some value)
  let add (words : List String) : Line := .set (.pool pool.interface) words none
  let option := pool.option
  [.create (.pool pool.interface), set ["interface"] ("vrf" ++ toString id),
    set ["gateway-ip"] pool.gatewayIp, set ["subnet"] pool.subnet] ++
  (if pool.defaultLeaseTime ≠ 0 then [set ["default-lease-time"] (toString pool.defaultLeaseTime)] else []) ++
  (if pool.maxLeaseTime ≠ 0 then [set ["max-lease-time"] (toString pool.maxLeaseTime)] else []) ++
  (pool.rangeList.zipIdx.flatMap fun (rng, pos) =>
    [set ["range", toString pos, "range-start-ip"] rng.rangeStartIp,
      set ["range", toString pos, "range-end-ip"] rng.rangeEndIp]) ++
  (pool.hostList.flatMap fun host =>
    [set ["host", host.hostName, "ip-address"] host.ipAddress,
      set ["host", host.hostName, "mac-address"] host.macAddress]) ++
  (if option.domainName ≠ "" then [set ["option", "domain-name"] option.domainName] else []) ++
  (option.domainNameServersList.map fun server => add ["option", "domain-name-servers", server]) ++
  (option.ntpServersList.map fun server => add ["option", "ntp-servers", server]) ++
  (if option.tftpServerName ≠ "" then [set ["option", "tftp-server-name"] option.tftpServerName] else []) ++
  (option.voipTftpServersList.map fun server => add ["option", "voip-tftp-servers", server]) ++
  (option.sipServersList.map fun server => add ["option", "sip-servers", server]) ++
  (option.classlessRoutesList.map fun route =>
    set ["option", "classless-routes", route.pfx, "nexthop"] route.nexthop) ++
  (if option.timeOffset ≠ 0 then [set ["option", "time-offset"] (toString option.timeOffset)] else []) ++
  (if pool.failoverRole ≠ "" then [set ["failover-role"] pool.failoverRole] else []) ++
  (if pool.failoverPeerAddress ≠ "" then [set ["failover-peer-address"] pool.failoverPeerAddress] else [])

/-- The lines of `DhcpVrfSync` for a relay group. -/
def groupLines (group : ServerGroup) : List Line :=
  .delete (.group group.serverGroupName) :: .create (.group group.serverGroupName) ::
    group.serverAddressList.map fun address =>
      .set (.group group.serverGroupName) ["server-address", address] none

/-- The lines of `DhcpVrfClear`. -/
def dhcpVrfClear (cfg : Config) : List Line := cfg.dhcpIpPoolList.map fun pool => .delete (.pool pool.interface)

/-- The lines of `DhcpVrfSync` for the pools and groups of a configuration. -/
def Config.lines (cfg : Config) : List Line :=
  cfg.dhcpIpPoolList.flatMap (poolLines cfg.id) ++ cfg.serverGroupList.flatMap groupLines

/-- The pools and groups of a configuration. -/
def Config.entries (cfg : Config) : List Entry :=
  (cfg.dhcpIpPoolList.map fun pool => .pool pool.interface) ++
    cfg.serverGroupList.map fun group => .group group.serverGroupName

/-- What a configuration has of a pool or group: what the command parser takes of its lines. -/
def Config.content (accept : Line → Bool) (cfg : Config) (e : Entry) : Option Content :=
  (cfg.lines.filter fun l => l.entry = e).foldl (fun c l => l.apply accept c) none

/-! ## The calls -/

/-- `EtcdVrfMap` and the candidate. -/
structure State where
  etcdVrfMap : Int → Option Config := fun _ => none
  candidate : Candidate := fun _ => none

/-- A call, with the change of `EtcdVrfMap` that `VrfParse` and `VrfDelete` make after it. -/
inductive Call where
  | dhcpVrfSync (vrfId : Int) (cfg : Config)
  | dhcpVrfDelete (vrfId : Int)

/-- The VRF of a call. -/
def Call.vrfId : Call → Int
  | .dhcpVrfSync vrfId _ => vrfId
  | .dhcpVrfDelete vrfId => vrfId

/-- The configuration that a call brings. -/
def Call.config : Call → Option Config
  | .dhcpVrfSync _ cfg => some cfg
  | .dhcpVrfDelete _ => none

section

variable (accept : Line → Bool)

/-- `DhcpVrfSync`. -/
def dhcpVrfSync (s : State) (vrfId : Int) (cfg : Config) : State :=
  let t := match s.etcdVrfMap vrfId with
    | some vrfConfig => exec accept s.candidate (dhcpVrfClear vrfConfig)
    | none => s.candidate
  { s with candidate := exec accept t cfg.lines }

/-- `DhcpVrfDelete`. -/
def dhcpVrfDelete (s : State) (vrfId : Int) : State :=
  match s.etcdVrfMap vrfId with
  | some vrfConfig => { s with candidate := exec accept s.candidate (dhcpVrfClear vrfConfig) }
  | none => s

/-- A call in `VrfParse` or `VrfDelete`. -/
def State.step (s : State) (c : Call) : State :=
  let s' := match c with
    | .dhcpVrfSync vrfId cfg => dhcpVrfSync accept s vrfId cfg
    | .dhcpVrfDelete vrfId => dhcpVrfDelete accept s vrfId
  { s' with etcdVrfMap := Function.update s.etcdVrfMap c.vrfId c.config }

/-- The state after calls. -/
def after (calls : List Call) : State := calls.foldl (State.step accept) {}

end

/-- The last configuration of each VRF, none after a delete. -/
def lastConfig (calls : List Call) : Int → Option Config :=
  calls.foldl (fun configs c => Function.update configs c.vrfId c.config) fun _ => none

/-- No two VRFs have a pool or group of one name. -/
def Apart (configs : Int → Option Config) : Prop :=
  ∀ v w c d, v ≠ w → configs v = some c → configs w = some d → ∀ e ∈ c.entries, e ∉ d.entries

/-- The candidate has the pools and groups of the configurations, and no others. -/
structure Right (accept : Line → Bool) (configs : Int → Option Config) (t : Candidate) : Prop where
  present : ∀ v cfg, configs v = some cfg → ∀ e ∈ cfg.entries, t e = cfg.content accept e
  absent : ∀ e, (∀ v cfg, configs v = some cfg → e ∉ cfg.entries) → t e = none

/-- The pools and groups that a call brings. -/
def Call.entries (c : Call) : List Entry := c.config.elim [] Config.entries

/-- The call brings again every group that the configuration of the VRF has so far, as far as the
command parser takes it. -/
def Call.Keeps (accept : Line → Bool) (configs : Int → Option Config) (c : Call) : Prop :=
  ∀ old, configs c.vrfId = some old → ∀ group ∈ old.serverGroupList,
    .group group.serverGroupName ∉ c.entries → old.content accept (.group group.serverGroupName) = none

/-! ## One pool or group at a time -/

variable {accept : Line → Bool}

/-- What lines do to an entry, those that are about it. -/
theorem exec_at (t : Candidate) (ls : List Line) (e : Entry) :
    exec accept t ls e = (ls.filter fun l => l.entry = e).foldl (fun c l => l.apply accept c) (t e) := by
  induction ls generalizing t with
  | nil => rfl
  | cons l ls ih =>
    have hcons : exec accept t (l :: ls) e = exec accept (execLine accept t l) ls e := rfl
    rw [hcons, ih, execLine]
    by_cases h : l.entry = e
    · subst h
      simp
    · simp [h, Function.update_of_ne (Ne.symm h)]

theorem forall_mem_if {p : Prop} [Decidable p] {a : Line} {q : Line → Prop} :
    (∀ l ∈ if p then [a] else [], q l) ↔ (p → q a) := by
  split <;> simp [*]

theorem entry_poolLines {id : Int} {pool : DhcpIpPool} {l : Line} (h : l ∈ poolLines id pool) :
    l.entry = .pool pool.interface := by
  have hall : ∀ l ∈ poolLines id pool, l.entry = .pool pool.interface := by
    simp only [poolLines, List.forall_mem_append, List.forall_mem_cons, List.forall_mem_map,
      List.forall_mem_flatMap, forall_mem_if]
    simp [Line.entry]
  exact hall l h

theorem entry_groupLines {group : ServerGroup} {l : Line} (h : l ∈ groupLines group) :
    l.entry = .group group.serverGroupName := by
  rw [groupLines, List.mem_cons, List.mem_cons, List.mem_map] at h
  rcases h with rfl | rfl | ⟨address, -, rfl⟩ <;> rfl

theorem entry_lines {cfg : Config} {l : Line} (h : l ∈ cfg.lines) : l.entry ∈ cfg.entries := by
  rw [Config.entries, List.mem_append]
  rcases List.mem_append.mp h with h | h
  · obtain ⟨pool, hpool, hl⟩ := List.mem_flatMap.mp h
    rw [entry_poolLines hl]
    exact .inl (List.mem_map_of_mem hpool)
  · obtain ⟨group, hgroup, hl⟩ := List.mem_flatMap.mp h
    rw [entry_groupLines hl]
    exact .inr (List.mem_map_of_mem hgroup)

/-- Lines about others. -/
theorem exec_other {t : Candidate} {ls : List Line} {e : Entry} (h : ∀ l ∈ ls, l.entry ≠ e) :
    exec accept t ls e = t e := by
  have hnil : (ls.filter fun l => l.entry = e) = [] := by
    refine List.filter_eq_nil_iff.mpr fun l hl => ?_
    simpa using h l hl
  rw [exec_at, hnil, List.foldl_nil]

theorem exec_lines_other {t : Candidate} {cfg : Config} {e : Entry} (h : e ∉ cfg.entries) :
    exec accept t cfg.lines e = t e := exec_other fun _ hl heq => h (heq ▸ entry_lines hl)

/-- The lines about a group start with its delete. -/
theorem filter_groupLines (groups : List ServerGroup) {name : String}
    (h : .group name ∈ groups.map fun group => Entry.group group.serverGroupName) :
    ∃ rest, ((groups.flatMap groupLines).filter fun l => l.entry = .group name) =
      .delete (.group name) :: rest := by
  induction groups with
  | nil => cases h
  | cons group groups ih =>
    rw [List.flatMap_cons, List.filter_append]
    by_cases hname : group.serverGroupName = name
    · subst hname
      have hall : ((groupLines group).filter fun l => l.entry = .group group.serverGroupName) =
          groupLines group := List.filter_eq_self.mpr fun l hl => by simp [entry_groupLines hl]
      rw [hall, groupLines, List.cons_append]
      exact ⟨_, rfl⟩
    · have hnone : ((groupLines group).filter fun l => l.entry = .group name) = [] := by
        refine List.filter_eq_nil_iff.mpr fun l hl => ?_
        simpa [entry_groupLines hl] using hname
      rw [hnone, List.nil_append]
      refine ih ?_
      rcases List.mem_cons.mp h with heq | hmem
      · exact absurd (Entry.group.inj heq).symm hname
      · exact hmem

/-- The lines of a configuration leave what it has of an entry. -/
theorem exec_entry {t : Candidate} {cfg : Config} {e : Entry} (he : e ∈ cfg.entries)
    (hpool : ∀ name, e = .pool name → t e = none) : exec accept t cfg.lines e = cfg.content accept e := by
  rw [exec_at, Config.content]
  cases e with
  | pool name => rw [hpool name rfl]
  | group name =>
    -- No line of a pool is about a group.
    have hpools : ((cfg.dhcpIpPoolList.flatMap (poolLines cfg.id)).filter fun l => l.entry = .group name) =
        [] := by
      refine List.filter_eq_nil_iff.mpr fun l hl => ?_
      obtain ⟨pool, -, hl⟩ := List.mem_flatMap.mp hl
      simp [entry_poolLines hl]
    have hmem : .group name ∈ cfg.serverGroupList.map fun group => Entry.group group.serverGroupName := by
      rw [Config.entries, List.mem_append] at he
      refine he.resolve_left fun h => ?_
      obtain ⟨pool, -, heq⟩ := List.mem_map.mp h
      cases heq
    obtain ⟨rest, hrest⟩ := filter_groupLines cfg.serverGroupList hmem
    rw [Config.lines, List.filter_append, hpools, List.nil_append, hrest]
    rfl

/-- `DhcpVrfClear` deletes the pools of the configuration. -/
theorem exec_clear (t : Candidate) (cfg : Config) (e : Entry) :
    exec accept t (dhcpVrfClear cfg) e =
      if e ∈ cfg.dhcpIpPoolList.map (fun pool => Entry.pool pool.interface) then none else t e := by
  rw [dhcpVrfClear]
  induction cfg.dhcpIpPoolList generalizing t with
  | nil => rfl
  | cons pool pools ih =>
    have hcons : exec accept t ((pool :: pools).map fun pool => .delete (.pool pool.interface)) =
        exec accept (Function.update t (.pool pool.interface) none)
          (pools.map fun pool => .delete (.pool pool.interface)) := rfl
    rw [hcons, ih, List.map_cons]
    by_cases he : e = .pool pool.interface
    · simp [he]
    · simp [he]

/-! ## What a call leaves -/

/-- The candidate without the pools that are remembered for a VRF. -/
def cleared (accept : Line → Bool) (s : State) (vrfId : Int) : Candidate :=
  match s.etcdVrfMap vrfId with
  | some vrfConfig => exec accept s.candidate (dhcpVrfClear vrfConfig)
  | none => s.candidate

theorem step_candidate (s : State) (c : Call) :
    (s.step accept c).candidate = exec accept (cleared accept s c.vrfId) (c.config.elim [] Config.lines) := by
  cases c with
  | dhcpVrfSync vrfId cfg => rfl
  | dhcpVrfDelete vrfId =>
    rw [State.step, dhcpVrfDelete, cleared, Call.vrfId, Call.config]
    dsimp only
    cases s.etcdVrfMap vrfId <;> rfl

/-- A pool or group that the call does not bring. -/
theorem step_other {s : State} {c : Call} {e : Entry} (h : e ∉ c.entries) :
    (s.step accept c).candidate e = cleared accept s c.vrfId e := by
  rw [step_candidate]
  cases hc : c.config with
  | none => rfl
  | some cfg =>
    rw [Call.entries, hc] at h
    exact exec_lines_other h

/-- A pool or group that the VRF does not have so far, or a group. -/
theorem cleared_other {s : State} {vrfId : Int} {e : Entry}
    (h : ∀ old, s.etcdVrfMap vrfId = some old → e ∉ old.dhcpIpPoolList.map fun pool => .pool pool.interface) :
    cleared accept s vrfId e = s.candidate e := by
  rw [cleared]
  cases hold : s.etcdVrfMap vrfId with
  | some old => exact (exec_clear s.candidate old e).trans (if_neg (h old hold))
  | none => rfl

/-- A pool that the VRF has. -/
theorem cleared_pool {s : State} {vrfId : Int} {old : Config} (hold : s.etcdVrfMap vrfId = some old)
    {e : Entry} (he : e ∈ old.dhcpIpPoolList.map fun pool => .pool pool.interface) :
    cleared accept s vrfId e = none := by
  rw [cleared, hold]
  exact (exec_clear s.candidate old e).trans (if_pos he)

theorem mem_entries {cfg : Config} {e : Entry} : e ∈ cfg.entries ↔
    e ∈ cfg.dhcpIpPoolList.map (fun pool => .pool pool.interface) ∨
      ∃ group ∈ cfg.serverGroupList, e = .group group.serverGroupName := by
  rw [Config.entries, List.mem_append, List.mem_map (f := fun group : ServerGroup => Entry.group _)]
  simp only [eq_comm]

theorem group_notMem_pools {cfg : Config} {name : String} :
    .group name ∉ cfg.dhcpIpPoolList.map fun pool => Entry.pool pool.interface := by
  intro h
  obtain ⟨pool, -, heq⟩ := List.mem_map.mp h
  cases heq

/-- The configurations after a call. -/
abbrev next (configs : Int → Option Config) (c : Call) : Int → Option Config :=
  Function.update configs c.vrfId c.config

section

variable {s : State} {c : Call}

/-- A call that keeps the groups. -/
theorem Right.step (h : Right accept s.etcdVrfMap s.candidate) (ha : Apart s.etcdVrfMap)
    (ha' : Apart (next s.etcdVrfMap c)) (hk : c.Keeps accept s.etcdVrfMap) :
    Right accept (next s.etcdVrfMap c) (s.step accept c).candidate := by
  -- Another VRF has nothing of the VRF of the call, before and after it.
  have hother {v : Int} {cfg : Config} (hv : v ≠ c.vrfId) (hcfg : s.etcdVrfMap v = some cfg) {e : Entry}
      (he : e ∈ cfg.entries) : e ∉ c.entries ∧ ∀ old, s.etcdVrfMap c.vrfId = some old → e ∉ old.entries := by
    refine ⟨?_, fun old hold => ha v c.vrfId cfg old hv hcfg hold e he⟩
    rw [Call.entries]
    cases hc : c.config with
    | none => exact List.not_mem_nil
    | some new =>
      refine ha' v c.vrfId cfg new hv ?_ ?_ e he
      · rw [next, Function.update_of_ne hv, hcfg]
      · rw [next, Function.update_self, hc]
  refine ⟨fun v cfg hcfg e he => ?_, fun e hnone => ?_⟩
  · by_cases hv : v = c.vrfId
    · -- The configuration of the call.
      subst hv
      rw [next, Function.update_self] at hcfg
      rw [step_candidate, hcfg]
      refine exec_entry he fun name hname => ?_
      by_cases hold : ∃ old, s.etcdVrfMap c.vrfId = some old ∧
          e ∈ old.dhcpIpPoolList.map fun pool => Entry.pool pool.interface
      · obtain ⟨old, hold, hmem⟩ := hold
        exact cleared_pool hold hmem
      · rw [cleared_other fun old ho hmem => hold ⟨old, ho, hmem⟩]
        refine h.absent e fun w d hd hmem => ?_
        by_cases hw : w = c.vrfId
        · subst hw
          rcases mem_entries.mp hmem with hpool | ⟨group, -, heq⟩
          · exact hold ⟨d, hd, hpool⟩
          · rw [hname] at heq
            cases heq
        · refine (hother hw hd hmem).1 ?_
          rw [Call.entries, hcfg]
          exact he
    · rw [next, Function.update_of_ne hv] at hcfg
      obtain ⟨hnew, hold⟩ := hother hv hcfg he
      rw [step_other hnew, cleared_other fun old ho hmem => hold old ho (mem_entries.mpr (.inl hmem)),
        h.present v cfg hcfg e he]
  · have hnew : e ∉ c.entries := by
      rw [Call.entries]
      cases hc : c.config with
      | none => exact List.not_mem_nil
      | some cfg => exact hnone c.vrfId cfg (by rw [next, Function.update_self, hc])
    rw [step_other hnew]
    by_cases hold : ∃ old, s.etcdVrfMap c.vrfId = some old ∧ e ∈ old.entries
    · obtain ⟨old, hold, hmem⟩ := hold
      rcases mem_entries.mp hmem with hpool | ⟨group, hgroup, rfl⟩
      · exact cleared_pool hold hpool
      · rw [cleared_other fun _ _ => group_notMem_pools, h.present c.vrfId old hold _ hmem]
        exact hk old hold group hgroup hnew
    · rw [cleared_other fun old ho hmem => hold ⟨old, ho, mem_entries.mpr (.inl hmem)⟩]
      refine h.absent e fun w d hd hmem => ?_
      by_cases hw : w = c.vrfId
      · subst hw
        exact hold ⟨d, hd, hmem⟩
      · exact hnone w d (by rw [next, Function.update_of_ne hw, hd]) hmem

/-- A call that does not leaves one that no configuration has. -/
theorem Right.keeps (h : Right accept s.etcdVrfMap s.candidate) (ha : Apart s.etcdVrfMap)
    (h' : Right accept (next s.etcdVrfMap c) (s.step accept c).candidate) : c.Keeps accept s.etcdVrfMap := by
  intro old hold group hgroup hnew
  have hmem : .group group.serverGroupName ∈ old.entries := mem_entries.mpr (.inr ⟨group, hgroup, rfl⟩)
  rw [← h.present c.vrfId old hold _ hmem, ← cleared_other fun _ _ => group_notMem_pools, ← step_other hnew]
  refine h'.absent _ fun w d hd => ?_
  by_cases hw : w = c.vrfId
  · subst hw
    rw [next, Function.update_self] at hd
    rw [Call.entries, hd] at hnew
    exact hnew
  · rw [next, Function.update_of_ne hw] at hd
    exact ha c.vrfId w old d (Ne.symm hw) hold hd _ hmem

end

theorem after_append (accept : Line → Bool) (calls : List Call) (c : Call) :
    after accept (calls ++ [c]) = (after accept calls).step accept c := by
  rw [after, List.foldl_append]
  rfl

/-- `EtcdVrfMap` has the last configurations. -/
theorem after_etcdVrfMap (accept : Line → Bool) (calls : List Call) : (after accept calls).etcdVrfMap = lastConfig calls := by
  induction calls using List.reverseRecOn with
  | nil => rfl
  | append_singleton calls c ih =>
    rw [after_append, lastConfig, List.foldl_append, ← lastConfig, ← ih]
    rfl

/-- After every call of a run, in which no two VRFs have pools or groups of one name at a time, the
candidate has the pools and groups of the last configurations and no others: this is so just if every
call brings again the groups that the VRF has so far. -/
theorem dhcp_converges_iff (accept : Line → Bool) {calls : List Call}
    (hapart : ∀ before rest, calls = before ++ rest → Apart (lastConfig before)) :
    (∀ before rest, calls = before ++ rest →
        Right accept (lastConfig before) (after accept before).candidate) ↔
      ∀ before c rest, calls = before ++ c :: rest → c.Keeps accept (lastConfig before) := by
  have hsnoc {before rest : List Call} {c : Call} (h : calls = before ++ c :: rest) :
      calls = (before ++ [c]) ++ rest := by rw [h, List.append_assoc, List.singleton_append]
  have hlast (before : List Call) (c : Call) :
      lastConfig (before ++ [c]) = next (after accept before).etcdVrfMap c := by
    rw [after_etcdVrfMap, lastConfig, List.foldl_append]
    rfl
  constructor
  · intro h before c rest he
    have hright := h before _ he
    have hright' := h _ _ (hsnoc he)
    have ha := hapart before _ he
    rw [hlast, after_append] at hright'
    rw [← after_etcdVrfMap accept] at hright ha ⊢
    exact hright.keeps ha hright'
  · intro h before
    induction before using List.reverseRecOn with
    | nil => exact fun rest _ => ⟨fun v cfg hcfg => (by cases hcfg), fun e _ => rfl⟩
    | append_singleton before c ih =>
      intro rest he
      have he' : calls = before ++ c :: rest := by rw [he, List.append_assoc, List.singleton_append]
      have hright := ih _ he'
      have ha := hapart before _ he'
      have ha' := hapart _ _ he
      have hk := h before c rest he'
      rw [hlast] at ha' ⊢
      rw [after_append]
      rw [← after_etcdVrfMap accept] at hright ha hk
      exact hright.step ha ha' hk

/-- A configuration in force comes from a call. -/
theorem mem_of_lastConfig {calls : List Call} {v : Int} {cfg : Config} (h : lastConfig calls v = some cfg) :
    ∃ c ∈ calls, c.vrfId = v ∧ c.config = some cfg := by
  induction calls using List.reverseRecOn with
  | nil => cases h
  | append_singleton calls c ih =>
    rw [lastConfig, List.foldl_append, ← lastConfig, List.foldl_cons, List.foldl_nil] at h
    by_cases hv : v = c.vrfId
    · subst hv
      rw [Function.update_self] at h
      exact ⟨c, by simp, rfl, h⟩
    · rw [Function.update_of_ne hv] at h
      obtain ⟨d, hd, hcfg⟩ := ih h
      exact ⟨d, List.mem_append_left _ hd, hcfg⟩

/-- The calls for different VRFs bring different pools and groups. -/
theorem apart_of_calls {calls : List Call}
    (h : ∀ c ∈ calls, ∀ d ∈ calls, c.vrfId ≠ d.vrfId → ∀ e ∈ c.entries, e ∉ d.entries) :
    Apart (lastConfig calls) := by
  intro v w c d hvw hc hd e he
  obtain ⟨c', hc', rfl, hcfg⟩ := mem_of_lastConfig hc
  obtain ⟨d', hd', rfl, hdcfg⟩ := mem_of_lastConfig hd
  have hnot := h c' hc' d' hd' hvw e
  rw [Call.entries, Call.entries, hcfg, hdcfg] at hnot
  exact hnot he

/-- A configuration with a pool and groups. -/
def onePool (id : Int) (interface : String) (groups : List ServerGroup) : Config where
  id := id
  dhcpIpPoolList := [{ interface := interface, gatewayIp := "10.0.0.1", subnet := "10.0.0.0/8" }]
  serverGroupList := groups

/-- A VRF whose pool moves to another interface and whose relay group gets another server, and a
VRF that is deleted. -/
def moved : List Call :=
  [.dhcpVrfSync 1 (onePool 1 "eth0" [⟨"g", ["10.0.0.1"]⟩]), .dhcpVrfSync 2 (onePool 2 "eth2" []),
    .dhcpVrfSync 1 (onePool 1 "eth1" [⟨"g", ["10.0.0.2"]⟩]), .dhcpVrfDelete 2]

theorem dhcp_converges_moved :
    Right (fun _ => true) (lastConfig moved) (after (fun _ => true) moved).candidate := by
  have hapart : ∀ c ∈ moved, ∀ d ∈ moved, c.vrfId ≠ d.vrfId → ∀ e ∈ c.entries, e ∉ d.entries := by decide
  have hkeeps : ∀ c ∈ moved, ∀ d ∈ moved, d.vrfId = c.vrfId → ∀ old ∈ d.config,
      ∀ group ∈ old.serverGroupList, .group group.serverGroupName ∈ c.entries := by decide
  refine (dhcp_converges_iff (fun _ => true) fun before rest he => ?_).mpr (fun before c rest he => ?_)
    moved [] (List.append_nil _).symm
  · have hsub {c : Call} (hc : c ∈ before) : c ∈ moved := he ▸ List.mem_append_left _ hc
    exact apart_of_calls fun c hc d hd => hapart c (hsub hc) d (hsub hd)
  · intro old hold group hgroup hnot
    obtain ⟨d, hd, hv, hcfg⟩ := mem_of_lastConfig hold
    have hc : c ∈ moved := he ▸ List.mem_append_right _ List.mem_cons_self
    have hd' : d ∈ moved := he ▸ List.mem_append_left _ hd
    exact absurd (hkeeps c hc d hd' hv old hcfg group hgroup) hnot

/-- A VRF with a relay group that is deleted. -/
def groupDeleted : List Call :=
  [.dhcpVrfSync 1 { id := 1, serverGroupList := [⟨"g", ["10.0.0.1"]⟩] }, .dhcpVrfDelete 1]

/-- The group stays. -/
theorem dhcp_group_stays :
    (∀ before rest, groupDeleted = before ++ rest → Apart (lastConfig before)) ∧
      ¬ Right (fun _ => true) (lastConfig groupDeleted) (after (fun _ => true) groupDeleted).candidate := by
  have hone : ∀ c ∈ groupDeleted, c.vrfId = 1 := by simp [groupDeleted, Call.vrfId]
  refine ⟨fun before rest he => apart_of_calls fun c hc d hd hne => ?_, fun h => ?_⟩
  · have hsub {c : Call} (hc : c ∈ before) : c ∈ groupDeleted := he ▸ List.mem_append_left _ hc
    exact absurd ((hone c (hsub hc)).trans (hone d (hsub hd)).symm) hne
  have hnone := h.absent (.group "g") fun v cfg hcfg => ?_
  · have hsome : ((after (fun _ => true) groupDeleted).candidate (.group "g")).isSome = true := by decide
    rw [hnone] at hsome
    cases hsome
  · obtain ⟨c, hc, rfl, -⟩ := mem_of_lastConfig hcfg
    rw [hone c hc] at hcfg
    cases hcfg

end OpenConfigd.Vrf.Dhcp
