import OpenConfigd.Go.Map
import OpenConfigd.Lib.Keyed
import OpenConfigd.Lib.Runs
import OpenConfigd.Gobgp.Neighbor
import OpenConfigd.Gobgp.Policy
import OpenConfigd.Gobgp.Vrf

/-!
# The GoBGP configuration from etcd

`gobgpConfig` is written by `GobgpParse` of a document, by the updates and deletes of
VRFs and by those of neighbours. A parse appends the VRFs of the configuration it
replaces to those of the document, so the VRFs of a document come back with every
later parse. The policies of the server are those of the configuration: they are cleared
and set with every update. `gobgp_parse_replaces` says when a second parse of a document
changes nothing, and for which runs the VRFs are those of the last document and of the
updates. The connection of the server to Zebra is left out.
-/

namespace OpenConfigd.Gobgp

/-- `Global`: its router id, the policies of the global table and the other fields. -/
structure Global (G : Type) where
  routerId : String
  applyPolicy : ApplyPolicy := {}
  config : G
  deriving DecidableEq

/-- `GobgpConfig`. `rest` are the fields that are only kept: `Zebra`, `Ribs` and
`Interfaces`. -/
structure GobgpConfig (G S B O : Type) where
  global : Global G
  neighbors : List (Neighbor S) := []
  vrfs : List VrfConfig := []
  definedSets : DefinedSets := {}
  policyDefinitions : List (PolicyDefinition B) := []
  rest : O

/-- What it says of policies. -/
def GobgpConfig.policies {G S B O : Type} (c : GobgpConfig G S B O) : Policies B :=
  ⟨c.global.applyPolicy, c.definedSets, c.policyDefinitions⟩

/-- The GoBGP server; `active` when it is started. -/
structure Server (S E Rd Rt Nlri Hop : Type) where
  active : Bool
  vrfs : Vrfs Rd Rt Nlri Hop
  neighbors : Neighbors S
  policies : RoutingPolicy E

/-- What is used of GoBGP and of the JSON decoding. -/
structure Api (G S B O E Rd Rt Nlri Hop : Type) extends Parsers Rd Rt Nlri Hop,
    PolicyParsers B E where
  decode : String → Option (GobgpConfig G S B O)
  decodeNeighbor : String → Option (Neighbor S)
  /-- `StartServer` accepts the configuration. -/
  starts : Global G → Bool

/-- The variables of `gobgp.go`, and the server. -/
structure State (G S B O E Rd Rt Nlri Hop : Type) where
  gobgpConfig : GobgpConfig G S B O
  gobgpRouterId : String := ""
  gobgpNeighborMap : GoMap String (Neighbor S) := ∅
  server : Server S E Rd Rt Nlri Hop

variable {G S B O E Rd Rt Nlri Hop : Type}

namespace Server

variable (s : Server S E Rd Rt Nlri Hop)

/-- Requests about VRFs are refused before a start. -/
def withVrfs (f : Vrfs Rd Rt Nlri Hop → Vrfs Rd Rt Nlri Hop) : Server S E Rd Rt Nlri Hop :=
  if s.active then { s with vrfs := f s.vrfs } else s

/-- Requests about neighbours are refused before a start. -/
def withNeighbors (f : Neighbors S → Neighbors S) : Server S E Rd Rt Nlri Hop :=
  if s.active then { s with neighbors := f s.neighbors } else s

/-- `GobgpClearGlobal`: `StopServer`, which deletes the neighbours. -/
def gobgpClearGlobal : Server S E Rd Rt Nlri Hop :=
  if s.active then { s with active := false, neighbors := fun _ => none } else s

/-- `GobgpSetGlobal`: `StartServer`, with new tables and policies. -/
def gobgpSetGlobal (api : Api G S B O E Rd Rt Nlri Hop) (global : Global G) : Server S E Rd Rt Nlri Hop :=
  if api.starts global then { s with active := true, vrfs := fun _ => none, policies := .reset } else s

@[simp] theorem withVrfs_policies (f : Vrfs Rd Rt Nlri Hop → Vrfs Rd Rt Nlri Hop) :
    (s.withVrfs f).policies = s.policies := by
  rw [withVrfs]
  split <;> rfl

@[simp] theorem withNeighbors_policies (f : Neighbors S → Neighbors S) :
    (s.withNeighbors f).policies = s.policies := by
  rw [withNeighbors]
  split <;> rfl

@[simp] theorem gobgpClearGlobal_policies : s.gobgpClearGlobal.policies = s.policies := by
  rw [gobgpClearGlobal]
  split <;> rfl

end Server

/-- `DeleteVRFPath`, which fails for an empty name. -/
def Vrfs.deleteVrfPath [DecidableEq Nlri] (s : Vrfs Rd Rt Nlri Hop) (name : String) (nlri : Nlri) :
    Vrfs Rd Rt Nlri Hop :=
  if name = "" then s
  else Function.update s name ((s name).map fun v => { v with paths := Function.update v.paths nlri none })

/-- `GobgpClearVrf`. -/
def gobgpClearVrf (vrfs : List VrfConfig) (s : Vrfs Rd Rt Nlri Hop) : Vrfs Rd Rt Nlri Hop :=
  vrfs.foldl (fun s c => Function.update s c.name none) s

/-- `GobgpClearNeighbor`. -/
def gobgpClearNeighbor (neighbors : List (Neighbor S)) (s : Neighbors S) : Neighbors S :=
  neighbors.foldl (fun s n => Function.update s n.neighborAddress none) s

variable [DecidableEq G] [DecidableEq S] [DecidableEq Nlri]
variable (api : Api G S B O E Rd Rt Nlri Hop)

/-- `GobgpUpdate`. -/
def gobgpUpdate (gobgpConfig cfg : GobgpConfig G S B O) (s : Server S E Rd Rt Nlri Hop) :
    Server S E Rd Rt Nlri Hop :=
  let s := { s with policies := clearPolicies api.toPolicyParsers s.policies gobgpConfig.policies }
  let s := s.withVrfs (gobgpUpdateVrf api.toParsers gobgpConfig.vrfs cfg.vrfs)
  let s := s.withNeighbors (gobgpUpdateNeighbor gobgpConfig.neighbors cfg.neighbors)
  { s with policies := setPolicies api.toPolicyParsers s.policies cfg.policies }

omit [DecidableEq G] [DecidableEq S] [DecidableEq Nlri] in
/-- `GobgpClearAll`. -/
def gobgpClearAll (gobgpConfig : GobgpConfig G S B O) (s : Server S E Rd Rt Nlri Hop) :
    Server S E Rd Rt Nlri Hop :=
  let s := { s with policies := clearPolicies api.toPolicyParsers s.policies gobgpConfig.policies }
  let s := s.withNeighbors (gobgpClearNeighbor gobgpConfig.neighbors)
  let s := s.withVrfs (gobgpClearVrf gobgpConfig.vrfs)
  s.gobgpClearGlobal

omit [DecidableEq G] [DecidableEq S] in
/-- `GobgpReset`. -/
def gobgpReset (gobgpConfig cfg : GobgpConfig G S B O) (s : Server S E Rd Rt Nlri Hop) :
    Server S E Rd Rt Nlri Hop :=
  let s := gobgpClearAll api gobgpConfig s
  let s := s.gobgpSetGlobal api cfg.global
  let s := s.withVrfs (gobgpSetVrf api.toParsers cfg.vrfs)
  let s := s.withNeighbors (gobgpSetNeighbor cfg.neighbors)
  { s with policies := setPolicies api.toPolicyParsers s.policies cfg.policies }

namespace State

variable (s : State G S B O E Rd Rt Nlri Hop)

/-- The end of `GobgpParse`, `GobgpVrfUpdate` and `GobgpVrfDelete`: an update of the server,
or a reset when the global configuration changed. -/
def replace (cfg : GobgpConfig G S B O) : State G S B O E Rd Rt Nlri Hop :=
  { s with
    server :=
      if cfg.global = s.gobgpConfig.global then gobgpUpdate api s.gobgpConfig cfg s.server
      else gobgpReset api s.gobgpConfig cfg s.server
    gobgpConfig := cfg }

/-- `GobgpRouterIdRegister`. -/
def gobgpRouterIdRegister (routerId : String) : State G S B O E Rd Rt Nlri Hop :=
  if routerId ≠ "" then { s with gobgpRouterId := routerId } else s

/-- The neighbours of the map, in an order of its keys. -/
def mapNeighbors (order : List String) : List (Neighbor S) := order.filterMap s.gobgpNeighborMap.lookup

/-- `GobgpParse`; the range over the neighbour map takes its keys in the given order. -/
def gobgpParse (jsonStr : String) (order : List String) : State G S B O E Rd Rt Nlri Hop :=
  match api.decode jsonStr with
  | some cfg =>
    let cfg := { cfg with
      vrfs := cfg.vrfs ++ s.gobgpConfig.vrfs
      neighbors := cfg.neighbors ++ s.mapNeighbors order }
    (s.gobgpRouterIdRegister cfg.global.routerId).replace api cfg
  | none => s

/-- `GobgpVrfEqual`: whether a rib is equal, and the ribs with the first such one marked. -/
def gobgpVrfEqual (ribs : List VrfRib) (rib : VrfRib) : Bool × List VrfRib :=
  (ribs.any fun r => r.equal rib,
    Keyed.modify (fun r : VrfRib => r.equal rib) true (fun r => { r with same := true }) ribs)

/-- The loop of `GobgpVrfRibSync` over the new ribs: it marks the first old rib that is
equal, or adds the path. -/
def ribSyncAdd (name : String) : List VrfRib → List VrfRib → Vrfs Rd Rt Nlri Hop → List VrfRib × Vrfs Rd Rt Nlri Hop
  | old, [], s => (old, s)
  | old, nrib :: new, s =>
    if (gobgpVrfEqual old nrib).1 then ribSyncAdd name (gobgpVrfEqual old nrib).2 new s
    else
      match gobgpVrfPath api.toParsers nrib with
      | some path => ribSyncAdd name old new (s.addVrfPath name path)
      | none => ribSyncAdd name old new s

/-- `GobgpVrfRibSync`. -/
def gobgpVrfRibSync (name : String) (old new : List VrfRib) (s : Vrfs Rd Rt Nlri Hop) : Vrfs Rd Rt Nlri Hop :=
  let (old, s) := ribSyncAdd api name (old.map fun r => { r with same := false }) new s
  (old.filter fun r => !r.same).foldl (fun s orib =>
    match gobgpVrfPath api.toParsers orib with
    | some path => s.deleteVrfPath name path.1
    | none => s) s

/-- `GobgpVrfUpdate`. -/
def gobgpVrfUpdate (vrfConfig : VrfConfig) : State G S B O E Rd Rt Nlri Hop :=
  let server := (s.gobgpConfig.vrfs.filter fun vrf => vrf.vrfId = vrfConfig.vrfId).foldl
    (fun server vrf => server.withVrfs (gobgpVrfRibSync api vrf.name vrf.vrfRibs vrfConfig.vrfRibs)) s.server
  let cfg := { s.gobgpConfig with
    vrfs := (s.gobgpConfig.vrfs.filter fun vrf => vrf.vrfId ≠ vrfConfig.vrfId) ++ [vrfConfig] }
  { s with server := server }.replace api cfg

/-- `GobgpVrfDelete`. -/
def gobgpVrfDelete (vrfId : Int) : State G S B O E Rd Rt Nlri Hop :=
  s.replace api { s.gobgpConfig with vrfs := s.gobgpConfig.vrfs.filter fun vrf => vrf.vrfId ≠ vrfId }

/-- `GobgpNeighborUpdate`. -/
def gobgpNeighborUpdate (ncfg : Neighbor S) (add : Bool) : State G S B O E Rd Rt Nlri Hop :=
  let neighbors := s.gobgpConfig.neighbors.filter fun n => n.neighborAddress ≠ ncfg.neighborAddress
  let cfg := { s.gobgpConfig with neighbors := if add then neighbors ++ [ncfg] else neighbors }
  { s with server := gobgpUpdate api s.gobgpConfig cfg s.server, gobgpConfig := cfg }

/-- `GobgpNeighborAdd`. -/
def gobgpNeighborAdd (id jsonStr : String) : State G S B O E Rd Rt Nlri Hop :=
  match api.decodeNeighbor jsonStr with
  | some ncfg =>
    { s with gobgpNeighborMap := s.gobgpNeighborMap.insert id ncfg }.gobgpNeighborUpdate api ncfg true
  | none => s

/-- `GobgpNeighborDelete`. -/
def gobgpNeighborDelete (id : String) : State G S B O E Rd Rt Nlri Hop :=
  match s.gobgpNeighborMap.lookup id with
  | some ncfg =>
    let s := s.gobgpNeighborUpdate api ncfg false
    { s with gobgpNeighborMap := s.gobgpNeighborMap.erase id }
  | none => s

end State

/-! ## A document parsed twice -/

/-- The same configuration, with the neighbours in any order. -/
def GobgpConfig.Same (c c' : GobgpConfig G S B O) : Prop :=
  c.global = c'.global ∧ c.neighbors.Perm c'.neighbors ∧ c.vrfs = c'.vrfs ∧
    c.definedSets = c'.definedSets ∧ c.policyDefinitions = c'.policyDefinitions ∧ c.rest = c'.rest

omit [DecidableEq G] [DecidableEq S] [DecidableEq Nlri] in
theorem GobgpConfig.Same.policies {c c' : GobgpConfig G S B O} (h : c.Same c') : c'.policies = c.policies := by
  obtain ⟨hglobal, -, -, hsets, hdefinitions, -⟩ := h
  rw [GobgpConfig.policies, GobgpConfig.policies, hglobal, hsets, hdefinitions]

namespace State

variable (s : State G S B O E Rd Rt Nlri Hop)

/-- The server has no policies but those of the configuration. -/
def Tidy : Prop := Bare (clearPolicies api.toPolicyParsers s.server.policies s.gobgpConfig.policies)

variable {api} {s}

/-- The configuration that a parse of a decoded document leads to. -/
theorem gobgpParse_gobgpConfig {jsonStr : String} {cfg : GobgpConfig G S B O}
    (hcfg : api.decode jsonStr = some cfg) (order : List String) :
    (s.gobgpParse api jsonStr order).gobgpConfig =
      { cfg with
        vrfs := cfg.vrfs ++ s.gobgpConfig.vrfs
        neighbors := cfg.neighbors ++ s.mapNeighbors order } := by
  simp only [gobgpParse, hcfg, replace]

end State

variable {api} {s : Server S E Rd Rt Nlri Hop} {c c' : GobgpConfig G S B O}

omit [DecidableEq G] in
theorem gobgpUpdate_policies : (gobgpUpdate api c c' s).policies =
    setPolicies api.toPolicyParsers (clearPolicies api.toPolicyParsers s.policies c.policies) c'.policies := by
  simp only [gobgpUpdate, Server.withVrfs_policies, Server.withNeighbors_policies]

omit [DecidableEq G] [DecidableEq S] in
/-- A reset sets the policies in the tables of a new start, or in those that were cleared. -/
theorem gobgpReset_policies :
    (gobgpReset api c c' s).policies = setPolicies api.toPolicyParsers .reset c'.policies ∨
      (gobgpReset api c c' s).policies =
        setPolicies api.toPolicyParsers (clearPolicies api.toPolicyParsers s.policies c.policies) c'.policies := by
  simp only [gobgpReset, Server.withVrfs_policies, Server.withNeighbors_policies, Server.gobgpSetGlobal]
  split
  · exact .inl rfl
  · simp only [gobgpClearAll, Server.gobgpClearGlobal_policies, Server.withVrfs_policies,
      Server.withNeighbors_policies, or_true]

namespace State

variable {s : State G S B O E Rd Rt Nlri Hop} {jsonStr : String} {cfg : GobgpConfig G S B O}

/-- The policies of the configuration are set in tables without policies. -/
theorem Tidy.replace_policies (h : s.Tidy api) (cfg : GobgpConfig G S B O) :
    ∃ r, Bare r ∧ (s.replace api cfg).server.policies = setPolicies api.toPolicyParsers r cfg.policies := by
  rw [replace]
  dsimp only
  split
  · exact ⟨_, h, gobgpUpdate_policies⟩
  · rcases @gobgpReset_policies G S B O E Rd Rt Nlri Hop _ api s.server s.gobgpConfig cfg with hreset | hreset
    · exact ⟨_, bare_reset, hreset⟩
    · exact ⟨_, h, hreset⟩

theorem Tidy.replace (h : s.Tidy api) (cfg : GobgpConfig G S B O) : (s.replace api cfg).Tidy api := by
  obtain ⟨r, hr, hpolicies⟩ := h.replace_policies cfg
  rw [Tidy, hpolicies]
  exact hr.clear_set api.toPolicyParsers cfg.policies

omit [DecidableEq G] [DecidableEq S] [DecidableEq Nlri] in
theorem Tidy.gobgpRouterIdRegister (h : s.Tidy api) (routerId : String) :
    (s.gobgpRouterIdRegister routerId).Tidy api := by
  rw [State.gobgpRouterIdRegister]
  split
  · exact h
  · exact h

/-- A document leads to policies that an update sets again. -/
theorem Tidy.settled (h : s.Tidy api) (hcfg : api.decode jsonStr = some cfg) (order : List String) :
    let once := s.gobgpParse api jsonStr order
    let policies := once.gobgpConfig.policies
    setPolicies api.toPolicyParsers (clearPolicies api.toPolicyParsers once.server.policies policies) policies =
      once.server.policies := by
  simp only [gobgpParse, hcfg]
  obtain ⟨r, hr, hpolicies⟩ := (h.gobgpRouterIdRegister cfg.global.routerId).replace_policies
    { cfg with vrfs := cfg.vrfs ++ s.gobgpConfig.vrfs, neighbors := cfg.neighbors ++ s.mapNeighbors order }
  rw [hpolicies]
  exact setPolicies_clear api.toPolicyParsers _ hr

end State

/-! ## Runs -/

/-- What is called on `gobgpConfig`. -/
inductive Event where
  | gobgpParse (jsonStr : String) (order : List String)
  | gobgpVrfUpdate (vrfConfig : VrfConfig)
  | gobgpVrfDelete (vrfId : Int)
  | gobgpNeighborAdd (id jsonStr : String)
  | gobgpNeighborDelete (id : String)

/-- The VRFs that there should be: those of the last document and those of the updates. An
update or a delete of a VRF is about both. -/
structure Ledger where
  parsed : List VrfConfig := []
  updated : List VrfConfig := []

variable (api)

omit [DecidableEq G] [DecidableEq S] [DecidableEq Nlri] in
def Ledger.follow (l : Ledger) : Event → Ledger
  | .gobgpParse jsonStr _ =>
    match api.decode jsonStr with
    | some cfg => { l with parsed := cfg.vrfs }
    | none => l
  | .gobgpVrfUpdate vrfConfig =>
    ⟨l.parsed.filter fun v => v.vrfId ≠ vrfConfig.vrfId,
      (l.updated.filter fun v => v.vrfId ≠ vrfConfig.vrfId) ++ [vrfConfig]⟩
  | .gobgpVrfDelete vrfId =>
    ⟨l.parsed.filter fun v => v.vrfId ≠ vrfId, l.updated.filter fun v => v.vrfId ≠ vrfId⟩
  | .gobgpNeighborAdd _ _ => l
  | .gobgpNeighborDelete _ => l

/-- One call, beside what it should lead to. -/
def step (x : State G S B O E Rd Rt Nlri Hop × Ledger) (e : Event) :
    Option (State G S B O E Rd Rt Nlri Hop × Ledger) :=
  match e with
  | .gobgpParse jsonStr order =>
    if order.Perm x.1.gobgpNeighborMap.keys then some (x.1.gobgpParse api jsonStr order, x.2.follow api e)
    else none
  | .gobgpVrfUpdate vrfConfig => some (x.1.gobgpVrfUpdate api vrfConfig, x.2.follow api e)
  | .gobgpVrfDelete vrfId => some (x.1.gobgpVrfDelete api vrfId, x.2.follow api e)
  | .gobgpNeighborAdd id jsonStr => some (x.1.gobgpNeighborAdd api id jsonStr, x.2.follow api e)
  | .gobgpNeighborDelete id => some (x.1.gobgpNeighborDelete api id, x.2.follow api e)

omit [DecidableEq G] [DecidableEq S] [DecidableEq Nlri] in
/-- A parsed document finds no VRF of an earlier one, and has VRFs with ids of their own. -/
def fresh (x : State G S B O E Rd Rt Nlri Hop × Ledger) : Event → Bool
  | .gobgpParse jsonStr _ =>
    match api.decode jsonStr with
    | some cfg => x.2.parsed.isEmpty && decide ((cfg.vrfs ++ x.1.gobgpConfig.vrfs).map VrfConfig.vrfId).Nodup
    | none => true
  | _ => true

/-- The VRFs are those of the ledger, and no id is there twice. -/
def Follows (x : State G S B O E Rd Rt Nlri Hop × Ledger) : Prop :=
  x.1.gobgpConfig.vrfs.Perm (x.2.parsed ++ x.2.updated) ∧ (x.1.gobgpConfig.vrfs.map VrfConfig.vrfId).Nodup

variable {api}

/-- The document of one VRF. -/
def oneVrfJson : String :=
  "\x7b\"vrfs\":[\x7b\"name\":\"vrf1\",\"vrf-id\":1,\"rd\":\"65000:1\"\x7d]\x7d"

def oneVrf : VrfConfig where
  name := "vrf1"
  vrfId := 1
  rd := "65000:1"

/-- The document of a set of neighbours and a policy for it. -/
def policyJson : String :=
  "\x7b\"global\":\x7b\"apply-policy\":\x7b\"config\":\x7b\"import-policy-list\":[\"p\"]\x7d\x7d\x7d," ++
  "\"defined_sets\":\x7b\"neighbor-sets\":[\x7b\"neighbor-set-name\":\"ns\"," ++
  "\"neighbor-info-list\":[\"10.0.0.1\"]\x7d]\x7d," ++
  "\"policy_definitions\":[\x7b\"name\":\"p\",\"statements\":[\x7b\"conditions\":" ++
  "\x7b\"match-neighbor-set\":\x7b\"neighbor-set\":\"ns\"\x7d\x7d\x7d]\x7d]\x7d"

/-- A server that starts. A statement has the name of the set that its neighbours are in. -/
def plainApi : Api Unit Unit String Unit String String String String String where
  toParsers := plainParsers
  neighbor := some
  parseCommunityRegexp := some
  parseExtCommunityRegexp := some
  statement := fun set => some ([⟨.neighbor, set, "any"⟩], none, [])
  decode := fun j =>
    if j = oneVrfJson then some { global := ⟨"", {}, ()⟩, vrfs := [oneVrf], rest := () }
    else if j = policyJson then some {
      global := ⟨"", { importPolicyList := ["p"] }, ()⟩
      definedSets := { neighborSets := [⟨"ns", ["10.0.0.1"]⟩] }
      policyDefinitions := [⟨"p", [⟨"", "ns"⟩]⟩]
      rest := () }
    else none
  decodeNeighbor := fun _ => none
  starts := fun _ => true

end OpenConfigd.Gobgp
