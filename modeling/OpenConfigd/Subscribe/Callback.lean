import Mathlib.Data.List.Basic

/-!
# What a commit runs under the mutex

`Commit` holds `SubscribeMutex` while it runs the callbacks of the local
subscriptions: `ExecCmd` of the commands installed for `system` and `interfaces`,
`VrrpJsonConfig`, `DhcpJsonConfig` and `ntp.Configure`. The model keeps what these
read and write and logs what they wait for: a line or a commit of their own takes
the mutex again, a stop of the etcd watcher waits for its goroutine.
`commit_callbacks` says when no callback waits for the commit that runs it.
-/

namespace OpenConfigd.Callback

/-- What a goroutine may have to wait for. -/
inductive LockOp where
  /-- `ExecLine` of a set or delete, whose parser takes `SubscribeMutex`. -/
  | execLine (line : String)
  /-- `Commit`, which takes `SubscribeMutex`. -/
  | commit
  /-- `EtcdEventMutex.Lock()`. -/
  | eventLock
  /-- `etcdWatchWg.Wait()`. -/
  | waitWatcher
  /-- `ProcessRegister` and `ProcessUnregister`: `ProcessMutex`, and the goroutine of a
  process. -/
  | process
  /-- The goroutine of a DHCP relay. -/
  | relay
  /-- An answer of etcd. -/
  | etcd
  /-- The mutex of the NTP configuration. -/
  | ntp
  deriving DecidableEq, Repr

/-- It takes `SubscribeMutex`. -/
def LockOp.acquires : LockOp → Bool
  | .execLine _ | .commit => true
  | _ => false

/-- It waits for nothing that needs `SubscribeMutex`. -/
def LockOp.quiet : LockOp → Bool
  | .process | .relay | .etcd | .ntp => true
  | _ => false

/-- An `Interface` of a VRF: its name, its VLANs and its relay group. -/
structure VrfInterface where
  name : String
  vlans : List Int := []
  dhcpRelayGroup : String := ""

/-- `VrfsConfig`: its number, its interfaces and the interfaces of its DHCP pools. -/
structure VrfsConfig where
  id : Int
  interfaces : List VrfInterface := []
  pools : List String := []

/-- `VrrpInstance`; `running` when its process is not nil. -/
structure VrrpInstance where
  vrId : Nat
  ifName : String
  running : Bool := true

/-- `RelayInstance`; `running` when its exit function is not nil. -/
structure RelayInstance where
  ifName : String
  group : String
  running : Bool := false

/-- The variables the callbacks use. `log` holds what was waited for. -/
structure World where
  etcdPath : String := ""
  etcdEndpoints : List String := []
  /-- `etcdWatchContextCanceler != nil`. -/
  canceler : Bool := false
  /-- The goroutine of the watcher, with what it does before it sees that its context is
  cancelled. -/
  watcher : Option (List LockOp) := none
  /-- The goroutine that holds `EtcdEventMutex`, with what it does before it unlocks it. -/
  eventHolder : Option (List LockOp) := none
  etcdVrfMap : List (Int × VrfsConfig) := []
  etcdVrfStaticMap : List (Int × List (String × String)) := []
  vrfIfDeleteCache : List String := []
  gobgpHubProcessList : List Int := []
  gobgpHubNode : List (Int × String) := []
  /-- How many processes `QuaggaProc` has for a VRF. -/
  quaggaProc : List (Int × Nat) := []
  ospfProcessMap : List Int := []
  vrrpInstanceMap : List (String × List VrrpInstance) := []
  relayInstanceMap : List RelayInstance := []
  relayGroupMap : List String := []
  dhcpProcessList : Nat := 0
  hostname : Option String := none
  gobgpGrpcEndpoint : Option String := none
  log : List LockOp := []

namespace World

/-- The goroutine waits. -/
def wait (op : LockOp) (w : World) : World := { w with log := w.log ++ [op] }

/-- `ExecLine`. -/
def execLine (w : World) (line : String) : World := w.wait (.execLine line)

/-- `Commit`. -/
def commit (w : World) : World := w.wait .commit

/-! ## `VrfDelete` -/

/-- The part of `GobgpHubDelete` about the process of the hub. -/
def gobgpHubStop (w : World) (vrfId : Int) : World :=
  if vrfId ∈ w.gobgpHubProcessList then
    { w.wait .process with
      gobgpHubProcessList := w.gobgpHubProcessList.filter fun id => id ≠ vrfId }
  else w

/-- The part of `GobgpHubDelete` about the node of the hub. -/
def gobgpHubForget (w : World) (vrfId : Int) : World :=
  match w.gobgpHubNode.lookup vrfId with
  | some hubNode =>
    { (w.execLine s!"delete vrf name vrf{vrfId} hub-node {hubNode}").commit with
      gobgpHubNode := w.gobgpHubNode.filter fun p => p.1 ≠ vrfId }
  | none => w

/-- `GobgpHubDelete`. -/
def gobgpHubDelete (w : World) (vrfId : Int) : World := (w.gobgpHubStop vrfId).gobgpHubForget vrfId

/-- `DhcpVrfDelete`. -/
def dhcpVrfDelete (w : World) (vrfId : Int) : World :=
  match w.etcdVrfMap.lookup vrfId with
  | some cfg =>
    (cfg.pools.foldl (fun w pool => w.execLine s!"delete dhcp server dhcp-ip-pool {pool}") w).commit
  | none => w.commit

/-- `ProcessUnregister` of the process of an instance, if it has one. -/
def stop (w : World) (x : VrrpInstance) : World := if x.running then w.wait .process else w

/-- One instance of `VrrpVrfDelete`. -/
def vrrpInstanceDelete (vrfId : Int) (w : World) (x : VrrpInstance) : World :=
  let vrId := x.vrId
  (((w.stop x).execLine s!"delete vrf name vrf{vrfId} vrrp {vrId}").commit).wait .etcd

/-- `VrrpVrfDelete`, which keeps the instances without their processes. -/
def vrrpVrfDelete (w : World) (vrfId : Int) : World :=
  let vrf := s!"vrf{vrfId}"
  let w := ((w.vrrpInstanceMap.lookup vrf).getD []).foldl (vrrpInstanceDelete vrfId) w
  { w with
    vrrpInstanceMap := w.vrrpInstanceMap.map fun p =>
      if p.1 = vrf then (p.1, p.2.map fun x => { x with running := false }) else p }

/-- `NexthopWalkerUpdate`. -/
def nexthopWalkerUpdate (w : World) : World :=
  if w.quaggaProc.length + w.ospfProcessMap.length = 0 then
    (w.execLine "delete routing-options nexthop-walker").commit
  else (w.execLine "set routing-options nexthop-walker").commit

/-- `QuaggaDelete`. -/
def quaggaDelete (w : World) (vrfId : Int) : World :=
  match w.quaggaProc.lookup vrfId with
  | some n =>
    { (List.range n).foldl (fun w _ => w.wait .process) w with
      quaggaProc := w.quaggaProc.filter fun p => p.1 ≠ vrfId }
  | none => w

/-- `QuaggaVrfDelete`. -/
def quaggaVrfDelete (w : World) (vrfId : Int) : World := (w.quaggaDelete vrfId).nexthopWalkerUpdate

/-- `OspfVrfStop`. -/
def ospfVrfStop (w : World) (vrfId : Int) : World :=
  if vrfId ∈ w.ospfProcessMap then
    { w.wait .process with ospfProcessMap := w.ospfProcessMap.filter fun id => id ≠ vrfId }
  else w

/-- `OspfVrfDelete`. -/
def ospfVrfDelete (w : World) (vrfId : Int) : World := (w.ospfVrfStop vrfId).nexthopWalkerUpdate

/-- `DistributeListDelete`. -/
def distributeListDelete (w : World) (vrfId : Int) : World :=
  (w.execLine s!"delete vrf name vrf{vrfId} distribute-list-ospf distribute-list-vrf{vrfId}").execLine
    s!"delete prefix-list distribute-list-vrf{vrfId}"

/-- The relay group of an interface in `EtcdVrfAddressClear`. -/
def relayGroupClear (w : World) (name group : String) : World :=
  if group = "" then w
  else w.execLine s!"delete interfaces interface {name} dhcp-relay-group {group}"

/-- One interface of `EtcdVrfAddressClear`. -/
def addressClear (vrfId : Int) (w : World) (ifp : VrfInterface) : World :=
  let name := ifp.name
  let w := (w.execLine s!"delete interfaces interface {name} ipv4").commit
  (w.execLine s!"delete interfaces interface {name} vrf vrf{vrfId}").relayGroupClear name
    ifp.dhcpRelayGroup

/-- One interface of `EtcdVrfVlanSubinterfacesDelete`. -/
def vlansDelete (w : World) (ifp : VrfInterface) : World :=
  let name := ifp.name
  ifp.vlans.foldl (fun w vlan => w.execLine s!"delete interfaces interface {name} vlans {vlan}") w

/-- `EtcdVrfStaticClear`. -/
def etcdVrfStaticClear (w : World) (vrfId : Int) : World :=
  match w.etcdVrfStaticMap.lookup vrfId with
  | some routes =>
    { routes.foldl (fun w route =>
        let (dst, nexthop) := route
        w.execLine s!"delete vrf name vrf{vrfId} static route {dst} nexthop {nexthop}") w with
      etcdVrfStaticMap := w.etcdVrfStaticMap.filter fun p => p.1 ≠ vrfId }
  | none => w

/-- The part of `EtcdVrfDelete` about `VrfIfDeleteCache`. -/
def forgetIfDelete (w : World) (vrfId : Int) (vrfIfDelete : Bool) : World :=
  { w with
    vrfIfDeleteCache := if vrfIfDelete then w.vrfIfDeleteCache
      else w.vrfIfDeleteCache.erase s!"vrf name vrf{vrfId}" }

/-- `EtcdVrfDelete`. -/
def etcdVrfDelete (w : World) (vrfId : Int) (vrfIfDelete : Bool) : World :=
  match w.etcdVrfMap.lookup vrfId with
  | some cfg =>
    let w := cfg.interfaces.foldl (addressClear vrfId) w
    let w := (cfg.interfaces.foldl vlansDelete w).commit
    let w := (w.etcdVrfStaticClear vrfId).forgetIfDelete vrfId vrfIfDelete
    (w.execLine s!"delete vrf name vrf{vrfId}").commit
  | none => w

/-- `delete(EtcdVrfMap, vrfId)`. -/
def forgetVrf (w : World) (vrfId : Int) : World :=
  { w with etcdVrfMap := w.etcdVrfMap.filter fun p => p.1 ≠ vrfId }

/-- `VrfDelete`, without the requests to GoBGP. -/
def vrfDelete (w : World) (vrfId : Int) (vrfIfDelete : Bool) : World :=
  (((((((w.gobgpHubDelete vrfId).dhcpVrfDelete vrfId).vrrpVrfDelete vrfId).quaggaVrfDelete
    vrfId).ospfVrfDelete vrfId).distributeListDelete vrfId).etcdVrfDelete vrfId
      vrfIfDelete).forgetVrf vrfId

/-- `ClearVrfCache`. -/
def clearVrfCache (w : World) : World :=
  { w.etcdVrfMap.foldl (fun w p => w.vrfDelete p.2.id false) w with etcdVrfMap := [] }

/-! ## The etcd watcher -/

/-- `EtcdWatchStop`. -/
def etcdWatchStop (w : World) : World :=
  if w.canceler then { w.wait .waitWatcher with watcher := none } else w

/-- `EtcdWatchUpdate`, up to the start of a new watcher. -/
def etcdWatchUpdate (w : World) : World :=
  let w := (w.wait .eventLock).etcdWatchStop.clearVrfCache
  if w.etcdPath = "" then w
  else if w.etcdEndpoints = [] then w
  else { w with canceler := true, watcher := some [] }

/-- `EtcdPathApi`. -/
def etcdPathApi (w : World) (set : Bool) (path : String) : World :=
  { w with etcdPath := if set then path else "" }.etcdWatchUpdate

/-- `EtcdEndpointsApi`. -/
def etcdEndpointsApi (w : World) (set : Bool) (endPoint : String) : World :=
  if set then { w with etcdEndpoints := w.etcdEndpoints ++ [endPoint] }.etcdWatchUpdate
  else { w with etcdEndpoints := w.etcdEndpoints.filter fun ep => ep ≠ endPoint }.etcdWatchUpdate

/-! ## The other callbacks -/

/-- `HostnameApi`. -/
def hostnameApi (w : World) (set : Bool) (name : String) : World :=
  { w with hostname := if set then some name else none }

/-- `ConfigureGobgpGrpcEndpointApi`. -/
def configureGobgpGrpcEndpointApi (w : World) (set : Bool) (endPoint : String) : World :=
  { w with gobgpGrpcEndpoint := if set then some endPoint else none }

/-- The exit function of a relay instance, if it has one. -/
def relayExit (w : World) (x : RelayInstance) : World := if x.running then w.wait .relay else w

/-- `RelayApi`: `RelayAdd` and `RelayDelete`. -/
def relayApi (w : World) (set : Bool) (ifName group : String) : World :=
  let others := w.relayInstanceMap.filter fun x => x.ifName ≠ ifName
  let old := w.relayInstanceMap.filter fun x => x.ifName = ifName
  let w := old.foldl relayExit w
  if set then
    { w with relayInstanceMap := others ++ [⟨ifName, group, w.relayGroupMap.contains group⟩] }
  else { w with relayInstanceMap := others }

/-- `VrrpJsonConfig` of a text that decodes to these instances, `none` when it does not. -/
def vrrpJsonConfig (w : World) (path : List String) (config : Option (List VrrpInstance)) : World :=
  match config, path with
  | some config, _ :: _ :: vrf :: _ =>
    let old := (w.vrrpInstanceMap.lookup vrf).getD []
    let w := old.foldl (fun w x => (w.stop x).wait .etcd) w
    { config.foldl (fun w x => if x.running then w.wait .process else w) w with
      vrrpInstanceMap := w.vrrpInstanceMap.filter (fun p => p.1 ≠ vrf) ++ [(vrf, config)] }
  | _, _ => w

/-- `RelayGroupUpdate`. -/
def relayGroupUpdate (w : World) (groups : List String) : World :=
  { w.relayInstanceMap.foldl relayExit w with
    relayGroupMap := groups
    relayInstanceMap := w.relayInstanceMap.map fun x =>
      { x with running := groups.contains x.group } }

/-- So many processes, registered or unregistered. -/
def processes (w : World) (n : Nat) : World := (List.range n).foldl (fun w _ => w.wait .process) w

/-- `DhcpJsonConfig` of a text that decodes to these relay groups and so many pools with a
server. -/
def dhcpJsonConfig (w : World) (config : Option (List String × Nat)) : World :=
  match config with
  | none => w
  | some (groups, pools) =>
    let w := w.relayGroupUpdate groups
    { (w.processes w.dhcpProcessList).processes pools with dhcpProcessList := pools }

/-- `ntp.Configure` of a text that decodes, or does not. -/
def ntpConfigure (w : World) (path : List String) (config : Bool) : World :=
  if config then
    match path with
    | ["system", "ntp"] => w.wait .ntp
    | ["vrf", "name", _, "ntp"] => w.wait .ntp
    | _ => w
  else w

end World

/-! ## `ExecCmd` -/

/-- The functions installed in `Parser`. -/
inductive Api where
  | hostname | etcdEndpoints | etcdPath | gobgpGrpcEndpoint | relay
  deriving DecidableEq, Repr

/-- A node of `Parser`: a keyword, or `WORD`. -/
inductive CmdNode where
  | mk (keyword : Option String) (fn : Option Api) (nodes : List CmdNode)

namespace CmdNode

def keyword : CmdNode → Option String
  | mk k _ _ => k

def fn : CmdNode → Option Api
  | mk _ f _ => f

def nodes : CmdNode → List CmdNode
  | mk _ _ ns => ns

/-- `isWhiteSpaceChar`. -/
def isWhiteSpace (c : Char) : Bool := c == ' ' || c == '\n' || c == '\t'

/-- `MatchKeyword` and `MatchWord` on the next word of the line: the rank of the match. -/
def matchNode (word : List Char) (n : CmdNode) : Option Nat :=
  match n.keyword with
  | none => if word.isEmpty then none else some 1
  | some k => if word = k.toList then some 3 else if word.isPrefixOf k.toList then some 2 else none

/-- `Parse`, with the arguments collected so far. -/
def parse : Nat → List CmdNode → List Char → List String → Option (Api × List String)
  | 0, _, _, _ => none
  | fuel + 1, nodes, line, args =>
    let word := line.takeWhile fun c => !isWhiteSpace c
    let rest := (line.drop word.length).dropWhile isWhiteSpace
    let best := (nodes.filterMap (matchNode word)).foldl max 0
    match nodes.filter fun n => matchNode word n = some best with
    | [n] =>
      let args := if n.keyword.isNone then args ++ [String.ofList word] else args
      if rest.isEmpty then n.fn.map (·, args) else parse fuel n.nodes rest args
    | _ => none

/-- The lines installed in `Parser`. -/
def parser : List CmdNode :=
  [.mk (some "system") none [
    .mk (some "host-name") none [.mk none (some .hostname) []],
    .mk (some "etcd") none [
      .mk (some "endpoints") none [.mk none (some .etcdEndpoints) []],
      .mk (some "path") none [.mk none (some .etcdPath) []]],
    .mk (some "gobgp") none [
      .mk (some "grpcendpoint") none [.mk none (some .gobgpGrpcEndpoint) []]]],
  .mk (some "interfaces") none [
    .mk (some "interface") none [
      .mk none none [
        .mk (some "dhcp-relay-group") none [.mk none (some .relay) []]]]]]

/-- `Parser.ParseCmd`; no path of `Parser` has more than five nodes. -/
def parseCmd (cmds : List String) : Option (Api × List String) :=
  parse 6 parser (" ".intercalate cmds).toList []

end CmdNode

/-- `ExecCmd`. -/
def World.execCmd (w : World) (set : Bool) (cmds : List String) : World :=
  match CmdNode.parseCmd cmds with
  | some (.hostname, name :: _) => w.hostnameApi set name
  | some (.etcdEndpoints, [endPoint]) => w.etcdEndpointsApi set endPoint
  | some (.etcdPath, [path]) => w.etcdPathApi set path
  | some (.gobgpGrpcEndpoint, [endPoint]) => w.configureGobgpGrpcEndpointApi set endPoint
  | some (.relay, [ifName, group]) => w.relayApi set ifName group
  | _ => w

/-- A callback of a local subscription. -/
inductive LocalCallback where
  | execCmd (set : Bool) (cmds : List String)
  | vrrpJsonConfig (path : List String) (config : Option (List VrrpInstance))
  | dhcpJsonConfig (config : Option (List String × Nat))
  | ntpConfigure (path : List String) (config : Bool)

/-- The callback runs. -/
def World.callback (w : World) : LocalCallback → World
  | .execCmd set cmds => w.execCmd set cmds
  | .vrrpJsonConfig path config => w.vrrpJsonConfig path config
  | .dhcpJsonConfig config => w.dhcpJsonConfig config
  | .ntpConfigure path config => w.ntpConfigure path config

/-! ## Waiting for oneself -/

/-- The watcher needs `SubscribeMutex` to come to its end. -/
def World.watcherNeeds (w : World) : Bool := w.watcher.any fun ops => ops.any LockOp.acquires

/-- The goroutine that holds `EtcdEventMutex` needs `SubscribeMutex` to unlock it. -/
def World.holderNeeds (w : World) : Bool :=
  w.eventHolder.any fun ops =>
    ops.any fun op => op.acquires || (decide (op = .waitWatcher) && w.watcherNeeds)

/-- A goroutine that holds `SubscribeMutex` waits for itself. -/
def LockOp.blocks (w : World) : LockOp → Bool
  | .execLine _ | .commit => true
  | .waitWatcher => w.watcherNeeds
  | .eventLock => w.holderNeeds
  | .process | .relay | .etcd | .ntp => false

/-- The callback restarts the etcd watcher. -/
def LocalCallback.restarts : LocalCallback → Bool
  | .execCmd _ cmds =>
    match CmdNode.parseCmd cmds with
    | some (.etcdEndpoints, [_]) | some (.etcdPath, [_]) => true
    | _ => false
  | _ => false

/-- Where the callback restarts the watcher there are no VRFs to clear, and neither the
watcher nor the goroutine that holds `EtcdEventMutex` needs `SubscribeMutex`. -/
def World.Clear (w : World) (cb : LocalCallback) : Prop :=
  cb.restarts = true → w.etcdVrfMap = [] ∧ (w.canceler = true → w.watcherNeeds = false) ∧
    w.holderNeeds = false

namespace World

/-- Nothing but quiet waits was added to the log. -/
def Quietly (w w' : World) : Prop := ∀ op ∈ w'.log, op ∈ w.log ∨ op.quiet = true

section

variable {w w' w'' : World} {α : Type}

theorem Quietly.refl (w : World) : Quietly w w := fun _ hop => .inl hop

theorem Quietly.trans (h : Quietly w w') (h' : Quietly w' w'') : Quietly w w'' := by
  intro op hop
  rcases h' op hop with hop | hq
  · exact h op hop
  · exact .inr hq

theorem Quietly.wait {op : LockOp} (hop : op.quiet = true) (w : World) : Quietly w (w.wait op) := by
  intro x hx
  rcases List.mem_append.mp hx with hx | hx
  · exact .inl hx
  · rw [List.mem_singleton.mp hx]
    exact .inr hop

theorem Quietly.foldl {f : World → α → World} (hf : ∀ w x, Quietly w (f w x)) (l : List α)
    (w : World) : Quietly w (l.foldl f w) := by
  induction l generalizing w with
  | nil => exact .refl w
  | cons x l ih => exact (hf w x).trans (ih (f w x))

end

end World

end OpenConfigd.Callback
