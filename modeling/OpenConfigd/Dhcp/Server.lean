import OpenConfigd.Lib.Latest
import Mathlib.Data.List.Induction
import Mathlib.Data.List.Perm.Basic

/-!
# The DHCP servers and the relay groups

`DhcpJsonConfig` is called with the documents of `dhcp` and of `vrf name X dhcp` and
keeps one list of processes and one map of groups for all of them. It stops every server
and starts those of the document at hand:

* `dhcpJsonConfig_spec`: what one call leaves, in terms of its document alone;
* `serves_of_run`: after a run of calls the servers and groups are those of the last
  document that decoded;
* `dhcp_follows_iff`: they are those of the latest documents of all paths exactly when
  the other paths have no server and no group of their own.
-/

namespace OpenConfigd.Dhcpd

/-! ## Documents -/

/-- A range of addresses of a pool. -/
structure Range where
  rangeStartIp : String
  rangeEndIp : String
  deriving DecidableEq

/-- `DhcpIpPool`. Its other fields go to the configuration file of the server only. -/
structure DhcpIpPool where
  ipPoolName : String
  interface : String
  subnet : String
  rangeList : List Range
  deriving DecidableEq

/-- `ServerGroup`; `serverAddressList` holds the addresses. -/
structure ServerGroup where
  serverGroupName : String
  serverAddressList : List String
  deriving DecidableEq

/-- `Dhcp`: the pools of its `Server` and the groups of its `Relay`. -/
structure Dhcp where
  dhcpIpPoolList : List DhcpIpPool := []
  serverGroupList : List ServerGroup := []
  deriving DecidableEq

/-- The paths with a subscription of `DhcpJsonConfig`. -/
inductive DhcpPath where
  | dhcp
  | vrf (name : String)
  deriving DecidableEq

/-! ## Processes -/

/-- `process.Process`. -/
structure Process where
  name : String
  args : List String
  vrf : String := ""
  file : String := ""
  startTimer : Nat := 0
  retryTimer : Nat := 1
  deriving DecidableEq

/-- A registered process by its pointer. `owner` is the path of the document that asked
for it, which no code reads; processes of others have none. -/
structure Registered where
  ptr : Nat
  owner : Option DhcpPath
  proc : Process
  deriving DecidableEq

/-- `RelayInstance`; `exitFunc` has the servers of the relay that runs. -/
structure RelayInstance where
  ifName : String
  vrf : String
  group : String
  exitFunc : Option (List String) := none
  deriving DecidableEq

/-- `process.ProcessList`, `DhcpProcessList`, `RelayGroupMap` and `RelayInstanceMap`, with
the next fresh pointer. -/
structure State where
  next : Nat := 0
  processList : List Registered := []
  dhcpProcessList : List Registered := []
  relayGroupMap : String → Option (List String) := fun _ => none
  relayInstanceMap : List RelayInstance := []

/-- `ProcessUnregister`, which goes by the pointer. -/
def processUnregister (s : State) (p : Registered) : State :=
  { s with processList := s.processList.filter fun q => q.ptr ≠ p.ptr }

/-- What the machine says: whether a file can be created, and whether there is a
`dhcrelay`. -/
structure Machine where
  creates : String → Bool
  dhcrelay : Bool

/-- The configuration file of a pool. -/
def configFileName (pool : DhcpIpPool) : String := "/etc/dhcp/dhcpd-" ++ pool.ipPoolName ++ ".conf"

/-- The process that `DhcpServerStart` makes for a pool. -/
def dhcpServer (pool : DhcpIpPool) : Process where
  name := "dhcpd"
  args := ["-f", "-d", "-4", "-user", "root", "-group", "dhcpd",
    "-pf", "/var/run/dhcpd-" ++ pool.ipPoolName ++ ".pid", "-cf", configFileName pool,
    "-lf", "/var/lib/dhcp/dhcpd-" ++ pool.ipPoolName ++ ".leases", pool.ipPoolName]
  vrf := pool.interface
  file := "/var/lib/dhcp/dhcpd-" ++ pool.ipPoolName ++ ".leases"
  startTimer := 3

/-- A pool that `DhcpServerExec` does not turn away. -/
def DhcpIpPool.runnable (pool : DhcpIpPool) : Bool :=
  pool.interface ≠ "" && !pool.rangeList.isEmpty && pool.subnet ≠ ""

section

variable (m : Machine)

/-- `DhcpServerStart`: the process is registered and noted. -/
def dhcpServerStart (path : DhcpPath) (s : State) (proc : Process) : State :=
  { s with
    next := s.next + 1
    processList := s.processList ++ [⟨s.next, some path, proc⟩]
    dhcpProcessList := s.dhcpProcessList ++ [⟨s.next, some path, proc⟩] }

/-- `DhcpServerExec`. -/
def dhcpServerExec (path : DhcpPath) (s : State) (pool : DhcpIpPool) : State :=
  if pool.interface = "" then s
  else if pool.rangeList.isEmpty then s
  else if pool.subnet = "" then s
  else if m.creates (configFileName pool) then dhcpServerStart path s (dhcpServer pool)
  else s

/-- `RelayExitFunc`. -/
def relayExitFunc (s : State) : State :=
  { s with relayInstanceMap := s.relayInstanceMap.map fun i => { i with exitFunc := none } }

/-- The loop over the groups of `RelayGroupUpdate`. -/
def relayGroups (groups : List ServerGroup) : String → Option (List String) :=
  groups.foldl (fun t g => Function.update t g.serverGroupName (some g.serverAddressList)) fun _ => none

/-- `RelayGroupUpdate`. -/
def relayGroupUpdate (s : State) (dhcp : Dhcp) : State :=
  let s := relayExitFunc s
  let groups := relayGroups dhcp.serverGroupList
  { s with
    relayGroupMap := groups
    relayInstanceMap := s.relayInstanceMap.map fun i =>
      match groups i.group with
      | some servers => { i with exitFunc := if m.dhcrelay then some servers else none }
      | none => i }

variable (decode : String → Option Dhcp)

/-- `DhcpJsonConfig`; `decode` is `json.Unmarshal` and `mapstructure.Decode`. -/
def dhcpJsonConfig (s : State) (path : DhcpPath) (str : String) : State :=
  match decode str with
  | none => s
  | some dhcp =>
    let s := relayGroupUpdate m s dhcp
    let s := s.dhcpProcessList.foldl processUnregister s
    let s := { s with dhcpProcessList := [] }
    dhcp.dhcpIpPoolList.foldl (dhcpServerExec m path) s

/-- Calls one after the other. -/
def run (s : State) (calls : List (DhcpPath × String)) : State :=
  calls.foldl (fun s c => dhcpJsonConfig m decode s c.1 c.2) s

end

/-! ## One call -/

/-- `DhcpProcessList` lists the servers of the DHCP documents among all processes. -/
structure WellKept (s : State) : Prop where
  listed : s.dhcpProcessList = s.processList.filter fun p => p.owner.isSome
  nodup : (s.processList.map Registered.ptr).Nodup
  fresh : ∀ p ∈ s.processList, p.ptr < s.next

/-- The processes that documents of a path asked for. -/
def owned (s : State) (path : DhcpPath) : List Registered :=
  s.processList.filter fun p => p.owner = some path

/-- The pools that get a server. -/
def starts (m : Machine) (pool : DhcpIpPool) : Bool := pool.runnable && m.creates (configFileName pool)

variable {m : Machine} {decode : String → Option Dhcp} {s : State}

theorem unregister_all (s : State) (l : List Registered) :
    l.foldl processUnregister s =
      { s with processList := s.processList.filter fun p => l.all fun q => p.ptr ≠ q.ptr } := by
  induction l generalizing s with
  | nil => simp
  | cons q l ih =>
    rw [List.foldl_cons, ih]
    simp only [processUnregister, List.filter_filter, List.all_cons, Bool.and_comm]

/-- Of all processes those of others are left. -/
theorem unregister_listed (h : WellKept s) :
    s.dhcpProcessList.foldl processUnregister s =
      { s with processList := s.processList.filter fun p => p.owner.isNone } := by
  rw [unregister_all]
  congr 1
  refine List.filter_congr fun p hp => ?_
  rw [h.listed, Bool.eq_iff_iff, List.all_eq_true]
  constructor
  · intro hall
    by_contra hsome
    have hmem : p ∈ s.processList.filter fun p => p.owner.isSome :=
      List.mem_filter.mpr ⟨hp, by simpa [Option.isSome_iff_ne_none] using hsome⟩
    simpa using hall p hmem
  · intro hnone q hq
    obtain ⟨hq, hqsome⟩ := List.mem_filter.mp hq
    refine decide_eq_true fun hptr => ?_
    rw [← List.inj_on_of_nodup_map h.nodup hp hq hptr, Option.isNone_iff_eq_none.mp hnone] at hqsome
    cases hqsome

theorem dhcpServerExec_eq (path : DhcpPath) (pool : DhcpIpPool) :
    dhcpServerExec m path s pool = if starts m pool then dhcpServerStart path s (dhcpServer pool) else s := by
  unfold dhcpServerExec starts DhcpIpPool.runnable
  by_cases hi : pool.interface = ""
  · simp [hi]
  by_cases hr : pool.rangeList = []
  · simp [hr]
  by_cases hs : pool.subnet = ""
  · simp [hs]
  simp [hi, hr, hs]

/-- The pools of a document get their servers one after the other. -/
theorem exec_all (path : DhcpPath) (s : State) (pools : List DhcpIpPool) :
    ∃ l : List Registered, pools.foldl (dhcpServerExec m path) s =
        { s with
          next := s.next + l.length
          processList := s.processList ++ l
          dhcpProcessList := s.dhcpProcessList ++ l } ∧
      l.map Registered.proc = (pools.filter (starts m)).map dhcpServer ∧
      (∀ p ∈ l, p.owner = some path) ∧ l.map Registered.ptr = List.range' s.next l.length := by
  induction pools generalizing s with
  | nil => exact ⟨[], by simp⟩
  | cons pool pools ih =>
    rw [List.foldl_cons, dhcpServerExec_eq]
    by_cases hstart : starts m pool = true
    · rw [if_pos hstart]
      obtain ⟨l, hl, hproc, howner, hptr⟩ := ih (dhcpServerStart path s (dhcpServer pool))
      refine ⟨⟨s.next, some path, dhcpServer pool⟩ :: l, ?_, ?_, ?_, ?_⟩
      · rw [hl]
        simp [dhcpServerStart, Nat.add_comm, Nat.add_left_comm]
      · rw [List.map_cons, hproc, List.filter_cons_of_pos hstart, List.map_cons]
      · intro p hp
        rcases List.mem_cons.mp hp with rfl | hp
        · rfl
        · exact howner p hp
      · rw [List.map_cons, hptr, List.length_cons, List.range'_succ]
        rfl
    · rw [if_neg hstart, List.filter_cons_of_neg hstart]
      exact ih s

/-- One call with a document: the servers are those of the document, the processes of
others stay, and the groups are those of the document. -/
theorem dhcpJsonConfig_spec (h : WellKept s) (path : DhcpPath) {str : String} {dhcp : Dhcp}
    (hd : decode str = some dhcp) :
    WellKept (dhcpJsonConfig m decode s path str) ∧
      (dhcpJsonConfig m decode s path str).relayGroupMap = relayGroups dhcp.serverGroupList ∧
      ∀ q, (owned (dhcpJsonConfig m decode s path str) q).map Registered.proc =
        if q = path then (dhcp.dhcpIpPoolList.filter (starts m)).map dhcpServer else [] := by
  have hkept : WellKept (relayGroupUpdate m s dhcp) := ⟨h.listed, h.nodup, h.fresh⟩
  obtain ⟨s₀, hs₀⟩ : ∃ s₀ : State, s₀ = { relayGroupUpdate m s dhcp with
    processList := s.processList.filter fun p => p.owner.isNone, dhcpProcessList := [] } := ⟨_, rfl⟩
  have hcall : dhcpJsonConfig m decode s path str =
      dhcp.dhcpIpPoolList.foldl (dhcpServerExec m path) s₀ := by
    rw [hs₀]
    simp only [dhcpJsonConfig, hd]
    rw [unregister_listed hkept]
    rfl
  obtain ⟨l, hl, hproc, howner, hptr⟩ := exec_all (m := m) path s₀ dhcp.dhcpIpPoolList
  have hnext : s₀.next = s.next := by rw [hs₀]; rfl
  have hprocs : s₀.processList = s.processList.filter fun p => p.owner.isNone := by rw [hs₀]
  have hlisted : s₀.dhcpProcessList = [] := by rw [hs₀]
  have hgroups : s₀.relayGroupMap = relayGroups dhcp.serverGroupList := by rw [hs₀]; rfl
  rw [hcall, hl, hprocs, hlisted, hnext]
  rw [hnext] at hptr
  have hsome : ∀ p ∈ l, p.owner.isSome = true := fun p hp => by rw [howner p hp]; rfl
  refine ⟨⟨?_, ?_, ?_⟩, hgroups, fun q => ?_⟩
  · have hnone : (s.processList.filter fun p => p.owner.isNone).filter (fun p => p.owner.isSome) = [] := by
      simp [List.filter_filter, List.filter_eq_nil_iff, Option.isSome_iff_ne_none]
    rw [List.filter_append, hnone, List.filter_eq_self.mpr hsome]
  · rw [List.map_append, List.nodup_append, hptr]
    refine ⟨h.nodup.sublist (List.filter_sublist.map _), List.nodup_range', ?_⟩
    intro a ha b hb
    obtain ⟨p, hp, rfl⟩ := List.mem_map.mp ha
    have hlt := h.fresh p (List.mem_of_mem_filter hp)
    have hle := (List.mem_range'_1.mp hb).1
    omega
  · intro p hp
    rcases List.mem_append.mp hp with hp | hp
    · exact Nat.lt_add_right _ (h.fresh p (List.mem_of_mem_filter hp))
    · have hmem : p.ptr ∈ l.map Registered.ptr := List.mem_map_of_mem hp
      rw [hptr] at hmem
      exact (List.mem_range'_1.mp hmem).2
  · have hnone : (s.processList.filter fun p => p.owner.isNone).filter (fun p => p.owner = some q) = [] := by
      rw [List.filter_filter, List.filter_eq_nil_iff]
      intro p _ hp
      cases ho : p.owner <;> simp [ho] at hp
    rw [owned, List.filter_append, hnone, List.nil_append]
    by_cases hq : q = path
    · subst hq
      rw [if_pos rfl, ← hproc, List.filter_eq_self.mpr fun p hp => by simp [howner p hp]]
    · rw [if_neg hq, List.map_eq_nil_iff, List.filter_eq_nil_iff]
      intro p hp
      rw [howner p hp]
      simpa using Ne.symm hq

/-! ## Runs -/

/-- The servers of a group in a document. -/
def Dhcp.group (dhcp : Dhcp) (name : String) : Option (List String) :=
  (Latest.last ServerGroup.serverGroupName name dhcp.serverGroupList).map ServerGroup.serverAddressList

theorem relayGroups_eq (dhcp : Dhcp) : relayGroups dhcp.serverGroupList = dhcp.group := by
  funext name
  rw [relayGroups, Dhcp.group]
  induction dhcp.serverGroupList using List.reverseRecOn with
  | nil => rfl
  | append_singleton l g ih =>
    rw [List.foldl_append, List.foldl_cons, List.foldl_nil, Latest.last_append, Latest.last_singleton]
    by_cases h : g.serverGroupName = name
    · subst h
      simp
    · rw [Function.update_of_ne (Ne.symm h), ih, if_neg h]
      rfl

/-- The documents that decode, with their paths. -/
def decoded (decode : String → Option Dhcp) (calls : List (DhcpPath × String)) : List (DhcpPath × Dhcp) :=
  calls.filterMap fun c => (decode c.2).map fun dhcp => (c.1, dhcp)

/-- The latest document of a path. -/
def latest (decode : String → Option Dhcp) (calls : List (DhcpPath × String)) (path : DhcpPath) : Option Dhcp :=
  (Latest.last Prod.fst path (decoded decode calls)).map Prod.snd

/-- No DHCP document so far; the processes of others may be running. -/
structure Initial (s : State) : Prop where
  owner : ∀ p ∈ s.processList, p.owner = none
  nodup : (s.processList.map Registered.ptr).Nodup
  fresh : ∀ p ∈ s.processList, p.ptr < s.next
  listed : s.dhcpProcessList = []
  groups : s.relayGroupMap = fun _ => none

/-- The servers of a path after a document. -/
def serversOf (m : Machine) (doc : Option (DhcpPath × Dhcp)) (path : DhcpPath) : List Process :=
  match doc with
  | some d => if path = d.1 then (d.2.dhcpIpPoolList.filter (starts m)).map dhcpServer else []
  | none => []

/-- The servers and the groups are those of one document. -/
structure Serves (m : Machine) (s : State) (doc : Option (DhcpPath × Dhcp)) : Prop where
  kept : WellKept s
  groups : s.relayGroupMap = fun name => doc.bind fun d => d.2.group name
  servers : ∀ q, (owned s q).map Registered.proc = serversOf m doc q

theorem Initial.serves (h : Initial s) : Serves m s none := by
  have hnone (p : Registered) (hp : p ∈ s.processList) : ¬ p.owner.isSome = true := by
    rw [h.owner p hp]
    exact Bool.false_ne_true
  refine ⟨⟨?_, h.nodup, h.fresh⟩, h.groups, fun q => ?_⟩
  · rw [h.listed, List.filter_eq_nil_iff.mpr hnone]
  · rw [owned, List.filter_eq_nil_iff.mpr fun p hp => by rw [h.owner p hp]; simp]
    rfl

theorem run_append (calls : List (DhcpPath × String)) (c : DhcpPath × String) :
    run m decode s (calls ++ [c]) = dhcpJsonConfig m decode (run m decode s calls) c.1 c.2 := by
  rw [run, List.foldl_append]
  rfl

theorem decoded_append (calls : List (DhcpPath × String)) (c : DhcpPath × String) :
    decoded decode (calls ++ [c]) =
      decoded decode calls ++ ((decode c.2).map fun dhcp => (c.1, dhcp)).toList := by
  rw [decoded, List.filterMap_append]
  cases h : decode c.2 <;> simp [decoded, h]

/-- The servers and the groups after a run are those of the last document that decoded. -/
theorem serves_of_run (h : Initial s) (calls : List (DhcpPath × String)) :
    Serves m (run m decode s calls) (decoded decode calls).getLast? := by
  induction calls using List.reverseRecOn with
  | nil => exact h.serves
  | append_singleton calls c ih =>
    rw [run_append, decoded_append]
    cases hd : decode c.2 with
    | none =>
      have hsame : dhcpJsonConfig m decode (run m decode s calls) c.1 c.2 = run m decode s calls := by
        simp only [dhcpJsonConfig, hd]
      rw [hsame, Option.map_none, Option.toList_none, List.append_nil]
      exact ih
    | some dhcp =>
      obtain ⟨hkept, hgroups, hservers⟩ := dhcpJsonConfig_spec (m := m) ih.kept c.1 hd
      rw [Option.map_some, Option.toList_some, List.getLast?_append, List.getLast?_singleton]
      refine ⟨hkept, ?_, hservers⟩
      rw [hgroups, relayGroups_eq]
      rfl

theorem latest_of_getLast {calls : List (DhcpPath × String)} {d : DhcpPath × Dhcp}
    (h : (decoded decode calls).getLast? = some d) : latest decode calls d.1 = some d.2 := by
  obtain ⟨l, hl⟩ := List.getLast?_eq_some_iff.mp h
  rw [latest, hl, Latest.last_append, Latest.last_singleton, if_pos rfl]
  rfl

theorem latest_eq_none {calls : List (DhcpPath × String)}
    (h : (decoded decode calls).getLast? = none) (path : DhcpPath) : latest decode calls path = none := by
  rw [latest, List.getLast?_eq_none_iff.mp h]
  rfl

theorem latest_other (calls : List (DhcpPath × String)) {c : DhcpPath × String} {path : DhcpPath}
    (h : path ≠ c.1) : latest decode (calls ++ [c]) path = latest decode calls path := by
  rw [latest, latest, decoded_append, Latest.last_append]
  cases decode c.2 with
  | none => simp
  | some dhcp => simp [Latest.last_singleton, Ne.symm h]

/-- The DHCP servers follow the configuration: each path has a server for each runnable
pool of its latest document, the groups are those of the latest documents, and the last
call left the servers and the groups of the other paths alone. -/
structure Follows (m : Machine) (decode : String → Option Dhcp) (s : State)
    (calls : List (DhcpPath × String)) : Prop where
  servers : ∀ q, ((owned (run m decode s calls) q).map Registered.proc).Perm
    ((((latest decode calls q).map Dhcp.dhcpIpPoolList).getD []).filter DhcpIpPool.runnable |>.map dhcpServer)
  groups : ∀ name servers, (run m decode s calls).relayGroupMap name = some servers ↔
    ∃ q dhcp, latest decode calls q = some dhcp ∧ dhcp.group name = some servers
  others : ∀ earlier c, calls = earlier ++ [c] → ∀ q, q ≠ c.1 →
    owned (run m decode s calls) q = owned (run m decode s earlier) q ∧
    ∀ dhcp, latest decode calls q = some dhcp → ∀ name servers, dhcp.group name = some servers →
      (run m decode s earlier).relayGroupMap name = some servers →
      (run m decode s calls).relayGroupMap name = some servers

/-- The files for the servers of the last document can be created, and the latest
documents of the other paths have no runnable pool and no group that the last one does
not have as well. -/
def OthersIdle (m : Machine) (decode : String → Option Dhcp) (calls : List (DhcpPath × String)) : Prop :=
  ∀ d, (decoded decode calls).getLast? = some d →
    (∀ pool ∈ d.2.dhcpIpPoolList, pool.runnable = true → m.creates (configFileName pool) = true) ∧
    ∀ q dhcp, q ≠ d.1 → latest decode calls q = some dhcp →
      (∀ pool ∈ dhcp.dhcpIpPoolList, pool.runnable = false) ∧
      ∀ name servers, dhcp.group name = some servers → d.2.group name = some servers

theorem filter_starts {pools : List DhcpIpPool}
    (h : ∀ pool ∈ pools, pool.runnable = true → m.creates (configFileName pool) = true) :
    pools.filter (starts m) = pools.filter DhcpIpPool.runnable := by
  refine List.filter_congr fun pool hp => ?_
  cases hr : pool.runnable with
  | false => simp [starts, hr]
  | true => simp [starts, hr, h pool hp hr]

/-- A path other than that of the last call has no server. -/
theorem owned_idle {calls : List (DhcpPath × String)} {doc : Option (DhcpPath × Dhcp)} (q : DhcpPath)
    (h : Serves m (run m decode s calls) doc)
    (hidle : ∀ d, doc = some d → q = d.1 → ∀ pool ∈ d.2.dhcpIpPoolList, pool.runnable = false) :
    owned (run m decode s calls) q = [] := by
  rw [← List.map_eq_nil_iff, h.servers q]
  cases doc with
  | none => rfl
  | some d =>
    by_cases hq : q = d.1
    · refine (if_pos hq).trans (List.map_eq_nil_iff.mpr (List.filter_eq_nil_iff.mpr fun pool hp => ?_))
      simp [starts, hidle d rfl hq pool hp]
    · exact if_neg hq

theorem follows_of_idle (h : Initial s) {calls : List (DhcpPath × String)}
    (hidle : OthersIdle m decode calls) : Follows m decode s calls := by
  have hserves : Serves m (run m decode s calls) (decoded decode calls).getLast? := serves_of_run h calls
  refine ⟨fun q => ?_, fun name servers => ?_, fun earlier c hcalls q hq => ?_⟩
  · rw [hserves.servers q]
    cases hlast : (decoded decode calls).getLast? with
    | none => simp [serversOf, latest_eq_none hlast]
    | some d =>
      obtain ⟨hfiles, hothers⟩ := hidle d hlast
      by_cases hq : q = d.1
      · subst hq
        simp [serversOf, latest_of_getLast hlast, filter_starts hfiles]
      · cases hlatest : latest decode calls q with
        | none => simp [serversOf, hq]
        | some dhcp =>
          have hnone : dhcp.dhcpIpPoolList.filter DhcpIpPool.runnable = [] :=
            List.filter_eq_nil_iff.mpr fun pool hp => by simp [(hothers q dhcp hq hlatest).1 pool hp]
          simp [serversOf, hq, hnone]
  · rw [hserves.groups]
    cases hlast : (decoded decode calls).getLast? with
    | none => simp [latest_eq_none hlast]
    | some d =>
      constructor
      · exact fun hg => ⟨d.1, d.2, latest_of_getLast hlast, hg⟩
      · rintro ⟨q, dhcp, hlatest, hg⟩
        by_cases hq : q = d.1
        · subst hq
          rw [latest_of_getLast hlast] at hlatest
          cases hlatest
          exact hg
        · exact ((hidle d hlast).2 q dhcp hq hlatest).2 name servers hg
  · subst hcalls
    cases hd : decode c.2 with
    | none =>
      have hsame : run m decode s (earlier ++ [c]) = run m decode s earlier := by
        rw [run_append]
        simp only [dhcpJsonConfig, hd]
      rw [hsame]
      exact ⟨rfl, fun _ _ _ _ _ hg => hg⟩
    | some dhcp =>
      have hlast : (decoded decode (earlier ++ [c])).getLast? = some (c.1, dhcp) := by
        rw [decoded_append, hd]
        simp
      have hothers := (hidle _ hlast).2
      constructor
      · -- neither call has a server for the path
        rw [owned_idle q hserves, owned_idle q (serves_of_run h earlier)]
        · rintro d hd' rfl
          exact (hothers d.1 d.2 hq (by rw [latest_other earlier hq, latest_of_getLast hd'])).1
        · intro d hd' hqd
          rw [hlast] at hd'
          cases hd'
          exact absurd hqd hq
      · intro dhcp' hlatest name servers hg _
        rw [hserves.groups, hlast]
        exact (hothers q dhcp' hq hlatest).2 name servers hg

/-- The DHCP servers and the relay groups follow the configuration after a run of calls
exactly when the paths other than the last one have nothing to serve of their own. -/
theorem dhcp_follows_iff (h : Initial s) (calls : List (DhcpPath × String)) :
    Follows m decode s calls ↔ OthersIdle m decode calls := by
  refine ⟨fun hf d hlast => ?_, follows_of_idle h⟩
  have hserves : Serves m (run m decode s calls) (decoded decode calls).getLast? := serves_of_run h calls
  have hservers (q : DhcpPath) := hserves.servers q
  rw [hlast] at hservers
  constructor
  · intro pool hp hr
    have hperm := hf.servers d.1
    rw [hservers d.1, latest_of_getLast hlast] at hperm
    simp only [serversOf, if_true, Option.map_some, Option.getD_some] at hperm
    have hsub : (d.2.dhcpIpPoolList.filter (starts m)).Sublist
        (d.2.dhcpIpPoolList.filter DhcpIpPool.runnable) :=
      List.monotone_filter_right _ fun pool hs => (Bool.and_eq_true_iff.mp hs).1
    have hlen := hperm.length_eq
    rw [List.length_map, List.length_map] at hlen
    have hmem : pool ∈ d.2.dhcpIpPoolList.filter (starts m) := by
      rw [hsub.eq_of_length hlen]
      exact List.mem_filter.mpr ⟨hp, hr⟩
    exact (Bool.and_eq_true_iff.mp (List.mem_filter.mp hmem).2).2
  · intro q dhcp hq hlatest
    constructor
    · have hperm := hf.servers q
      rw [hservers q, hlatest] at hperm
      simp only [serversOf, if_neg hq, Option.map_some, Option.getD_some] at hperm
      have hnil := List.map_eq_nil_iff.mp hperm.nil_eq.symm
      exact fun pool hp => Bool.eq_false_iff.mpr (List.filter_eq_nil_iff.mp hnil pool hp)
    · intro name servers hg
      have hmap := (hf.groups name servers).mpr ⟨q, dhcp, hlatest, hg⟩
      rw [hserves.groups, hlast] at hmap
      exact hmap

/-! ## Two paths -/

/-- A document with one pool. -/
def poolJson : String :=
  "\x7b\"server\":\x7b\"dhcp-ip-pool\":[\x7b\"ip-pool-name\":\"lan\",\"interface\":\"eth1\"," ++
    "\"subnet\":\"10.0.0.0/24\",\"range\":[\x7b\"range-start-ip\":\"10.0.0.10\"," ++
    "\"range-end-ip\":\"10.0.0.20\"\x7d]\x7d]\x7d\x7d"

/-- A document with a lease time only. -/
def leaseJson : String := "\x7b\"server\":\x7b\"default-lease-time\":700\x7d\x7d"

/-- The pool of `poolJson`. -/
def lanPool : DhcpIpPool := ⟨"lan", "eth1", "10.0.0.0/24", [⟨"10.0.0.10", "10.0.0.20"⟩]⟩

/-- Decoding, on these two documents. -/
def decodeDocs (str : String) : Option Dhcp :=
  if str = poolJson then some { dhcpIpPoolList := [lanPool] }
  else if str = leaseJson then some {}
  else none

theorem decodeDocs_pool : decodeDocs poolJson = some { dhcpIpPoolList := [lanPool] } := if_pos rfl

theorem decodeDocs_lease : decodeDocs leaseJson = some {} :=
  (if_neg (by decide +kernel)).trans (if_pos rfl)

theorem initial_empty : Initial {} := ⟨by simp, by simp, by simp, rfl, rfl⟩

/-- A lease time for one path, and two changes of another. -/
theorem dhcp_follows_iff_twoPaths :
    Follows ⟨fun _ => true, true⟩ decodeDocs {}
      [(.vrf "vrf1", leaseJson), (.dhcp, leaseJson), (.dhcp, poolJson)] := by
  refine (dhcp_follows_iff initial_empty _).mpr fun d hlast => ?_
  have hdoc : decoded decodeDocs [(.vrf "vrf1", leaseJson), (.dhcp, leaseJson), (.dhcp, poolJson)] =
      [(.vrf "vrf1", {}), (.dhcp, {}), (.dhcp, { dhcpIpPoolList := [lanPool] })] := by
    simp [decoded, decodeDocs_pool, decodeDocs_lease]
  have hd : d = (.dhcp, { dhcpIpPoolList := [lanPool] }) := by
    rw [hdoc] at hlast
    exact (Option.some.inj hlast).symm
  subst hd
  refine ⟨fun _ _ _ => rfl, fun q dhcp hq hlatest => ?_⟩
  -- The document of another path is that of `vrf1`.
  have hempty : dhcp = {} := by
    rw [latest, hdoc] at hlatest
    by_cases hvrf : q = .vrf "vrf1"
    · subst hvrf
      exact (Option.some.inj hlatest).symm
    · simp [Latest.last, Ne.symm hq, Ne.symm hvrf] at hlatest
  subst hempty
  exact ⟨fun pool hp => absurd hp List.not_mem_nil, fun name servers hg => by cases hg⟩

/-- A change of the lease time under `dhcp` stops the server that `vrf name vrf1 dhcp`
asks for. -/
theorem dhcp_follows_not :
    ¬ Follows ⟨fun _ => true, true⟩ decodeDocs {} [(.vrf "vrf1", poolJson), (.dhcp, leaseJson)] := by
  intro h
  have hdoc : decoded decodeDocs [(.vrf "vrf1", poolJson), (.dhcp, leaseJson)] =
      [(.vrf "vrf1", { dhcpIpPoolList := [lanPool] }), (.dhcp, {})] := by
    simp [decoded, decodeDocs_pool, decodeDocs_lease]
  have hlatest : latest decodeDocs [(.vrf "vrf1", poolJson), (.dhcp, leaseJson)] (.vrf "vrf1") =
      some { dhcpIpPoolList := [lanPool] } := by
    rw [latest, hdoc]
    decide
  have hserves : Serves ⟨fun _ => true, true⟩ (run ⟨fun _ => true, true⟩ decodeDocs {}
      [(.vrf "vrf1", poolJson), (.dhcp, leaseJson)])
      (decoded decodeDocs [(.vrf "vrf1", poolJson), (.dhcp, leaseJson)]).getLast? :=
    serves_of_run initial_empty _
  have hperm := h.servers (.vrf "vrf1")
  rw [hserves.servers, hdoc, hlatest] at hperm
  exact absurd hperm.length_eq (by decide)

end OpenConfigd.Dhcpd
