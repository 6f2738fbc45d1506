import OpenConfigd.Lib.Resync

/-!
# The VRFs of the GoBGP server

`GobgpSetVrf` adds the VRFs of a configuration one after the other; `GobgpUpdateVrf`
keeps those that `VrfConfig.Equal` finds unchanged, deletes the other old ones and
adds what is left. `vrf_update_agrees` says when both lead to the same VRFs.
`Equal` compares the ribs of a VRF with themselves, so a VRF stays as it is when only
the prefixes or next hops of its ribs changed.

The server takes an `AddVRF` of a free name and any `DeleteVRF`, which drops the paths
of the VRF, and has one path per prefix in a VRF.
-/

namespace OpenConfigd.Gobgp

/-! ## Configurations -/

/-- `VrfRib`. -/
structure VrfRib where
  ipPrefix : String
  nextHop : String
  same : Bool := false
  deriving DecidableEq

/-- `Route` of a static route; the lists hold the addresses and the interface names. -/
structure Route where
  ipPrefix : String
  nexthopList : List String := []
  interfaceList : List String := []
  distance : Nat := 0
  deriving DecidableEq

/-- `VrfConfig`; `hubs` are the addresses of the hubs, `staticRoute` is `Static.Route`. -/
structure VrfConfig where
  name : String
  vrfId : Int
  rd : String
  rtImport : String := ""
  rtExport : String := ""
  rtBoth : String := ""
  vrfRibs : List VrfRib := []
  hubs : List String := []
  hubNode : String := ""
  staticRoute : List Route := []
  deriving DecidableEq

/-- `mapkey`. -/
def mapkey (index : Nat) (name : String) : String := if name ≠ "" then name else toString index

/-- The comparison of two lists of named elements in the generated `Equal` functions:
through a map from `mapkey` to the elements of the first list. -/
def listEqual (lhs rhs : List String) : Bool :=
  let lmap : AList fun _ : String => String :=
    lhs.zipIdx.foldl (fun m x => m.insert (mapkey x.2 x.1) x.1) ∅
  lhs.length = rhs.length && rhs.zipIdx.all fun x => (lmap.lookup (mapkey x.2 x.1)).any fun l => x.1 = l

/-- `Route.Equal`. -/
def Route.equal (lhs rhs : Route) : Bool :=
  lhs.ipPrefix = rhs.ipPrefix && listEqual lhs.nexthopList rhs.nexthopList &&
    listEqual lhs.interfaceList rhs.interfaceList && lhs.distance = rhs.distance

/-- `VrfRib.Equal`. -/
def VrfRib.equal (lhs rhs : VrfRib) : Bool := lhs.ipPrefix = rhs.ipPrefix && lhs.nextHop = rhs.nextHop

/-- A loop over one list that compares each element with the one of another list at its
place. -/
def pointwise {α : Type} (equal : α → α → Bool) (lhs rhs : List α) : Bool :=
  lhs.zipIdx.all fun x => rhs[x.2]?.any (equal x.1)

/-- `VrfConfig.Equal`. -/
def VrfConfig.equal (lhs rhs : VrfConfig) : Bool :=
  lhs.name = rhs.name && lhs.vrfId = rhs.vrfId && lhs.rd = rhs.rd && lhs.rtImport = rhs.rtImport &&
    lhs.rtExport = rhs.rtExport && lhs.rtBoth = rhs.rtBoth &&
    lhs.vrfRibs.length = rhs.vrfRibs.length &&
    -- the ribs of `lhs`, not those of `rhs`
    pointwise VrfRib.equal lhs.vrfRibs lhs.vrfRibs &&
    lhs.hubs.length = rhs.hubs.length && pointwise (fun l r => l = r) lhs.hubs rhs.hubs &&
    lhs.staticRoute.length = rhs.staticRoute.length &&
    pointwise Route.equal lhs.staticRoute rhs.staticRoute

/-! ## The server -/

/-- What GoBGP and `netutil` make of texts: a route distinguisher, a route target, the
NLRI of a prefix and a next hop attribute. -/
structure Parsers (Rd Rt Nlri Hop : Type) where
  parseRouteDistinguisher : String → Option Rd
  parseRouteTarget : String → Option Rt
  parsePrefix : String → Option Nlri
  newPathAttributeNextHop : String → Hop

/-- A path of a VRF. Its origin is incomplete for all of them. -/
structure Path (Hop : Type) where
  nextHop : Hop
  communities : List (BitVec 32) := []
  deriving DecidableEq

/-- A VRF of the server. -/
structure Vrf (Rd Rt Nlri Hop : Type) where
  id : BitVec 32
  rd : Rd
  importRt : List Rt
  exportRt : List Rt
  paths : Nlri → Option (Path Hop)

section

variable {Rd Rt Nlri Hop : Type}

/-- The VRFs of the server by name. -/
abbrev Vrfs (Rd Rt Nlri Hop : Type) := String → Option (Vrf Rd Rt Nlri Hop)

/-- `AddVRF`, which fails for a name that is taken. -/
def Vrfs.addVrf (s : Vrfs Rd Rt Nlri Hop) (name : String) (id : Int) (rd : Rd) (importRt exportRt : List Rt) :
    Option (Vrfs Rd Rt Nlri Hop) :=
  if (s name).isSome then none
  else some (Function.update s name (some ⟨BitVec.ofInt 32 id, rd, importRt, exportRt, fun _ => none⟩))

variable [DecidableEq Nlri]

/-- `AddVRFPath`, which fails for an empty name. -/
def Vrfs.addVrfPath (s : Vrfs Rd Rt Nlri Hop) (name : String) (path : Nlri × Path Hop) : Vrfs Rd Rt Nlri Hop :=
  if name = "" then s
  else Function.update s name ((s name).map fun v =>
    { v with paths := Function.update v.paths path.1 (some path.2) })

variable (parsers : Parsers Rd Rt Nlri Hop)

/-- `GobgpVrfPath`. -/
def gobgpVrfPath (r : VrfRib) : Option (Nlri × Path Hop) :=
  (parsers.parsePrefix r.ipPrefix).map fun nlri => (nlri, ⟨parsers.newPathAttributeNextHop r.nextHop, []⟩)

/-- `GobgpStaticPath`, with the community 101:0. -/
def gobgpStaticPath (s : Route) : Option (Nlri × Path Hop) :=
  (parsers.parsePrefix s.ipPrefix).map fun nlri =>
    (nlri, ⟨parsers.newPathAttributeNextHop "0.0.0.0", [101#32 <<< 16]⟩)

/-- The two loops of `GobgpAddVrf`: a prefix that does not parse ends the function. -/
def gobgpAddPaths (name : String) : Vrfs Rd Rt Nlri Hop → List (Option (Nlri × Path Hop)) → Vrfs Rd Rt Nlri Hop
  | s, some path :: paths => gobgpAddPaths name (s.addVrfPath name path) paths
  | s, _ => s

/-- The paths of the ribs and the static routes of a VRF, in the order they are added. -/
def VrfConfig.pathList (c : VrfConfig) : List (Option (Nlri × Path Hop)) :=
  c.vrfRibs.map (gobgpVrfPath parsers) ++ c.staticRoute.map (gobgpStaticPath parsers)

/-- The route targets of a VRF, for import and export. -/
def VrfConfig.routeTargets (c : VrfConfig) : Option (List Rt) :=
  if c.rtBoth ≠ "" then (parsers.parseRouteTarget c.rtBoth).map fun rt => [rt] else some []

/-- `GobgpAddVrf`. -/
def gobgpAddVrf (s : Vrfs Rd Rt Nlri Hop) (c : VrfConfig) : Vrfs Rd Rt Nlri Hop :=
  match parsers.parseRouteDistinguisher c.rd, c.routeTargets parsers with
  | some rd, some rt =>
    match s.addVrf c.name c.vrfId rd rt rt with
    | some s => gobgpAddPaths c.name s (c.pathList parsers)
    | none => s
  | _, _ => s

/-- `GobgpSetVrf`. -/
def gobgpSetVrf (vrfs : List VrfConfig) (s : Vrfs Rd Rt Nlri Hop) : Vrfs Rd Rt Nlri Hop :=
  vrfs.foldl (gobgpAddVrf parsers) s

/-! ## What is added -/

/-- The paths of a VRF after its path list. -/
def pathTable : (Nlri → Option (Path Hop)) → List (Option (Nlri × Path Hop)) → Nlri → Option (Path Hop)
  | t, some path :: paths => pathTable (Function.update t path.1 (some path.2)) paths
  | t, _ => t

/-- The paths that the configuration of a VRF asks for. -/
def VrfConfig.paths (c : VrfConfig) : Nlri → Option (Path Hop) :=
  if c.name = "" then fun _ => none else pathTable (fun _ => none) (c.pathList parsers)

/-- The route distinguisher and the route target parse. -/
def VrfConfig.wellFormed (c : VrfConfig) : Bool :=
  (parsers.parseRouteDistinguisher c.rd).isSome && (c.routeTargets parsers).isSome

/-- What `GobgpAddVrf` puts under a free name. -/
def VrfConfig.vrf (c : VrfConfig) : Option (Vrf Rd Rt Nlri Hop) :=
  match parsers.parseRouteDistinguisher c.rd, c.routeTargets parsers with
  | some rd, some rt => some ⟨BitVec.ofInt 32 c.vrfId, rd, rt, rt, c.paths parsers⟩
  | _, _ => none

variable {parsers}

theorem gobgpAddPaths_noName (s : Vrfs Rd Rt Nlri Hop) (paths : List (Option (Nlri × Path Hop))) :
    gobgpAddPaths "" s paths = s := by
  induction paths with
  | nil => rfl
  | cons path paths ih =>
    cases path with
    | none => rfl
    | some path => exact ih

/-- The paths are added to the VRF of the name. -/
theorem gobgpAddPaths_update {name : String} (hname : name ≠ "") (s : Vrfs Rd Rt Nlri Hop)
    (v : Vrf Rd Rt Nlri Hop) (paths : List (Option (Nlri × Path Hop))) :
    gobgpAddPaths name (Function.update s name (some v)) paths =
      Function.update s name (some { v with paths := pathTable v.paths paths }) := by
  induction paths generalizing v with
  | nil => rfl
  | cons path paths ih =>
    cases path with
    | none => rfl
    | some path =>
      rw [gobgpAddPaths, Vrfs.addVrfPath, if_neg hname, Function.update_self, Option.map_some,
        Function.update_idem, ih]
      rfl

theorem gobgpAddVrf_eq : gobgpAddVrf parsers = Resync.add VrfConfig.name (VrfConfig.vrf parsers) := by
  funext s c
  cases hrd : parsers.parseRouteDistinguisher c.rd with
  | none =>
    rw [Resync.add_of_none s (by simp only [VrfConfig.vrf, hrd])]
    simp only [gobgpAddVrf, hrd]
  | some rd =>
    cases hrt : c.routeTargets parsers with
    | none =>
      rw [Resync.add_of_none s (by simp only [VrfConfig.vrf, hrd, hrt])]
      simp only [gobgpAddVrf, hrd, hrt]
    | some rt =>
      cases hs : s c.name with
      | some v => simp only [gobgpAddVrf, Resync.add, Vrfs.addVrf, hrd, hrt, hs, Option.isSome_some, if_true]
      | none =>
        simp only [gobgpAddVrf, Resync.add, VrfConfig.vrf, Vrfs.addVrf, hrd, hrt, hs, Option.isSome_none,
          Bool.false_eq_true, if_false]
        by_cases hname : c.name = ""
        · rw [hname, gobgpAddPaths_noName, VrfConfig.paths, if_pos hname]
        · rw [gobgpAddPaths_update hname, VrfConfig.paths, if_neg hname]

theorem gobgpSetVrf_eq (vrfs : List VrfConfig) (s : Vrfs Rd Rt Nlri Hop) :
    gobgpSetVrf parsers vrfs s = Resync.addAll VrfConfig.name (VrfConfig.vrf parsers) s vrfs := by
  rw [gobgpSetVrf, gobgpAddVrf_eq, Resync.addAll]

/-! ## The update -/

variable (parsers) in
/-- `GobgpUpdateVrf`, from the VRFs of `gobgpConfig` to those of `cfg`: the cache by name,
the marks of `VrfConfig.Equal`, a `DeleteVRF` for what is not marked (in any order of the
cache) and a `GobgpAddVrf` for what is new or not marked. -/
def gobgpUpdateVrf (gobgpConfig cfg : List VrfConfig) (s : Vrfs Rd Rt Nlri Hop) : Vrfs Rd Rt Nlri Hop :=
  Resync.sync VrfConfig.name VrfConfig.equal (gobgpAddVrf parsers) gobgpConfig cfg s

theorem gobgpUpdateVrf_eq (gobgpConfig cfg : List VrfConfig) (s : Vrfs Rd Rt Nlri Hop) :
    gobgpUpdateVrf parsers gobgpConfig cfg s =
      Resync.sync VrfConfig.name VrfConfig.equal (Resync.add VrfConfig.name (VrfConfig.vrf parsers))
        gobgpConfig cfg s := by
  rw [gobgpUpdateVrf, gobgpAddVrf_eq]

variable (parsers) in
/-- The server has the VRFs of the configuration, and no others. -/
def VrfsCorrespond (cfg : List VrfConfig) (s : Vrfs Rd Rt Nlri Hop) : Prop :=
  (∀ c ∈ cfg, s c.name = c.vrf parsers) ∧ ∀ name, (∀ c ∈ cfg, c.name ≠ name) → s name = none

variable (parsers) in
/-- Where `VrfConfig.Equal` takes an old VRF for the new one of its name, their ribs and
static routes ask for the same paths. -/
def RibsKept (gobgpConfig cfg : List VrfConfig) : Prop :=
  ∀ v ∈ cfg, ∀ exist, Latest.last VrfConfig.name v.name gobgpConfig = some exist →
    exist.equal v = true → v.wellFormed parsers = true → exist.paths parsers = v.paths parsers

/-- The comparison covers all that a VRF of the server has but its paths. -/
theorem VrfConfig.vrf_eq_iff {lhs rhs : VrfConfig} (h : lhs.equal rhs = true) :
    lhs.vrf parsers = rhs.vrf parsers ↔
      (rhs.wellFormed parsers = true → lhs.paths parsers = rhs.paths parsers) := by
  simp only [VrfConfig.equal, Bool.and_eq_true, decide_eq_true_eq] at h
  have hrd : lhs.rd = rhs.rd := by tauto
  have hid : lhs.vrfId = rhs.vrfId := by tauto
  have hrt : lhs.routeTargets parsers = rhs.routeTargets parsers := by
    have hboth : lhs.rtBoth = rhs.rtBoth := by tauto
    rw [VrfConfig.routeTargets, VrfConfig.routeTargets, hboth]
  unfold VrfConfig.vrf VrfConfig.wellFormed
  rw [hrd, hid, hrt]
  cases parsers.parseRouteDistinguisher rhs.rd with
  | none => simp
  | some rd => cases rhs.routeTargets parsers <;> simp

/-- The update leads to the VRFs that the new configuration alone would give exactly when
it keeps no VRF with other paths than the new one. -/
theorem vrf_update_agrees {gobgpConfig cfg : List VrfConfig} {s : Vrfs Rd Rt Nlri Hop}
    (hs : VrfsCorrespond parsers gobgpConfig s) (hn : (cfg.map VrfConfig.name).Nodup) :
    gobgpUpdateVrf parsers gobgpConfig cfg s = gobgpSetVrf parsers cfg (fun _ => none) ↔
      RibsKept parsers gobgpConfig cfg := by
  have hfree : ∀ name, Latest.last VrfConfig.name name gobgpConfig = none → s name = none :=
    fun name h => hs.2 name (Latest.last_eq_none.mp h)
  rw [gobgpUpdateVrf_eq, gobgpSetVrf_eq, Resync.sync_eq_iff hfree hn]
  refine forall₂_congr fun v _ => ?_
  cases hexist : Latest.last VrfConfig.name v.name gobgpConfig with
  | none => simp
  | some exist =>
    obtain ⟨hmem, hname⟩ := Latest.mem_of_last hexist
    cases hequal : exist.equal v with
    | false => simp [hequal]
    | true =>
      rw [Option.any_some, if_pos hequal, ← hname, hs.1 exist hmem, VrfConfig.vrf_eq_iff hequal]
      simp [hequal]

end

/-! ## A VRF whose next hop changed -/

/-- Parsers that leave a text as it is. -/
def plainParsers : Parsers String String String String where
  parseRouteDistinguisher := some
  parseRouteTarget := some
  parsePrefix := some
  newPathAttributeNextHop := id

/-- A VRF with one rib. -/
def oneRib (nextHop : String) : VrfConfig where
  name := "vrf1"
  vrfId := 1
  rd := "65000:1"
  vrfRibs := [⟨"10.0.0.0/8", nextHop, false⟩]

theorem oneRib_correspond (nextHop : String) :
    VrfsCorrespond plainParsers [oneRib nextHop] (gobgpSetVrf plainParsers [oneRib nextHop] fun _ => none) := by
  rw [gobgpSetVrf_eq]
  constructor
  · intro c hc
    rw [List.mem_singleton.mp hc]
    exact (Resync.addAll_at _ _ _).trans (Resync.found_of_nodup (by simp) (List.mem_singleton_self _))
  · intro name hname
    rw [Resync.addAll_at, Resync.found_eq_none hname]
    rfl

theorem vrf_update_agrees_unchanged :
    gobgpUpdateVrf plainParsers [oneRib "192.0.2.1"] [oneRib "192.0.2.1"]
      (gobgpSetVrf plainParsers [oneRib "192.0.2.1"] fun _ => none) =
      gobgpSetVrf plainParsers [oneRib "192.0.2.1"] fun _ => none := by
  refine (vrf_update_agrees (oneRib_correspond _) (by simp)).mpr fun v hv exist hexist _ _ => ?_
  rw [List.mem_singleton.mp hv, List.mem_singleton.mp (Latest.mem_of_last hexist).1]

/-- A changed next hop is not taken over. -/
theorem vrf_update_nextHop :
    ¬ ∀ (gobgpConfig cfg : List VrfConfig) (s : Vrfs String String String String),
      VrfsCorrespond plainParsers gobgpConfig s → (cfg.map VrfConfig.name).Nodup →
        gobgpUpdateVrf plainParsers gobgpConfig cfg s = gobgpSetVrf plainParsers cfg (fun _ => none) := by
  intro h
  have heq := h [oneRib "192.0.2.1"] [oneRib "192.0.2.2"] _ (oneRib_correspond _) (by simp)
  have hpath := congrArg (fun s => (s "vrf1").bind fun v => (v.paths "10.0.0.0/8").map Path.nextHop) heq
  exact absurd hpath (by decide)

end OpenConfigd.Gobgp
