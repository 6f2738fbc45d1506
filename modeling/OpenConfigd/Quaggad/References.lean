import OpenConfigd.Quaggad.Plain
import OpenConfigd.Quaggad.Rules

/-!
# The references of a routing configuration

The places below which the routing configuration names a route-map, a policy list or a
peer-group (`places`), each with the kind of what it names (`Place.target`).
`references_iff`: in a candidate that passes all checks every reference names what there
is just if that is so at the places which are not looked at (`unchecked`), and where a
leaf has several values, which `value` takes for none.
-/

namespace OpenConfigd.Quaggad

/-- What a place names: something below `policy`, or a peer-group of the AS number. -/
inductive Target where
  | policy (label : String)
  | peerGroup
  deriving DecidableEq, Repr

/-- A place of references: the labels below its path are names. The path is written like
those of the command table, in which some words stand for any label. -/
structure Place where
  pattern : List String
  target : Target
  deriving DecidableEq, Repr

/-- The words of a pattern that stand for any label. -/
def isAny (word : String) : Bool := ["WORD", "A.B.C.D/M", "X:X::X:X/M"].contains word

/-- The path is one of the pattern. -/
def fits : List String → List String → Bool
  | [], [] => true
  | word :: pattern, label :: path => (isAny word || word == label) && fits pattern path
  | _, _ => false

/-- The path of what a name at the place is. -/
def Place.object (place : Place) (path : List String) (name : String) : List String :=
  match place.target with
  | .policy label => ["policy", label, name]
  | .peerGroup => path.take 3 ++ ["peer-group", name]

/-- The name of a place is that of something in the configuration. -/
def Place.Resolves (place : Place) (config : Node) (path : List String) (name : String) : Prop :=
  (config.lookup (place.object path name)).isSome

/-! ## The places -/

/-- The places of some fields below a path. -/
def placesBelow (base : List String) (fields : List (List String × String)) : List Place :=
  fields.map fun field => ⟨base ++ field.1, .policy field.2⟩

/-- The fields of a neighbor and of a peer-group that name what is below `policy`. -/
def peerFields : List (List String × String) :=
  [(["default-originate", "route-map"], "route-map"),
    (ipv6Unicast ++ ["default-originate", "route-map"], "route-map"),
    (["distribute-list", "export"], "access-list"),
    (ipv6Unicast ++ ["distribute-list", "export"], "access-list6"),
    (["distribute-list", "import"], "access-list"),
    (ipv6Unicast ++ ["distribute-list", "import"], "access-list6"),
    (["filter-list", "export"], "as-path-list"),
    (ipv6Unicast ++ ["filter-list", "export"], "as-path-list"),
    (["filter-list", "import"], "as-path-list"),
    (ipv6Unicast ++ ["filter-list", "import"], "as-path-list"),
    (["prefix-list", "export"], "prefix-list"),
    (ipv6Unicast ++ ["prefix-list", "export"], "prefix-list6"),
    (["prefix-list", "import"], "prefix-list"),
    (ipv6Unicast ++ ["prefix-list", "import"], "prefix-list6"),
    (["route-map", "export"], "route-map"),
    (ipv6Unicast ++ ["route-map", "export"], "route-map"),
    (["route-map", "import"], "route-map"),
    (ipv6Unicast ++ ["route-map", "import"], "route-map"),
    (["unsuppress-map"], "route-map"),
    (ipv6Unicast ++ ["unsuppress-map"], "route-map")]

/-- The sources of BGP's redistribution that are looked at. -/
def redistributeFields : List (List String × String) :=
  ["connected", "kernel", "ospfv3", "static"].map (fun source =>
    (ipv6Unicast ++ ["redistribute", source, "route-map"], "route-map")) ++
  ["connected", "kernel", "ospf", "static"].map fun source =>
    (["redistribute", source, "route-map"], "route-map")

/-- The fields of OSPF that name a route-map. -/
def ospfFields : List (List String × String) :=
  (["default-information", "originate", "route-map"], "route-map") ::
    ["bgp", "connected", "kernel", "rip", "static"].map fun source =>
      (["redistribute", source, "route-map"], "route-map")

/-- The clauses of a rule of a route-map. -/
def ruleFields : List (List String × String) :=
  [(["call"], "route-map"),
    (["match", "as-path"], "as-path-list"),
    (["match", "community", "community-list"], "community-list"),
    (["match", "ip", "address", "access-list"], "access-list"),
    (["match", "ip", "address", "prefix-list"], "prefix-list"),
    (["match", "ip", "nexthop", "access-list"], "access-list"),
    (["match", "ip", "nexthop", "prefix-list"], "prefix-list"),
    (["match", "ip", "route-source", "access-list"], "access-list"),
    (["match", "ip", "route-source", "prefix-list"], "prefix-list"),
    (["match", "ipv6", "address", "access-list"], "access-list6"),
    (["match", "ipv6", "address", "prefix-list"], "prefix-list6"),
    (["match", "ipv6", "nexthop", "access-list"], "access-list6"),
    (["match", "ipv6", "nexthop", "prefix-list"], "prefix-list6"),
    (["set", "comm-list", "comm-list"], "community-list")]

/-- The places that `quaggaConfigValid` looks at. -/
def checked : List Place :=
  placesBelow ["protocols", "bgp", "WORD", "neighbor", "WORD"] peerFields ++
  [⟨["protocols", "bgp", "WORD", "neighbor", "WORD", "peer-group"], .peerGroup⟩,
    ⟨["protocols", "bgp", "WORD", "neighbor", "WORD"] ++ ipv6Unicast ++ ["peer-group"], .peerGroup⟩] ++
  placesBelow ["protocols", "bgp", "WORD", "peer-group", "WORD"] peerFields ++
  placesBelow ["protocols", "bgp", "WORD", "network", "A.B.C.D/M"] [(["route-map"], "route-map")] ++
  placesBelow (["protocols", "bgp", "WORD"] ++ ipv6Unicast ++ ["network", "X:X::X:X/M"])
    [(["route-map"], "route-map")] ++
  placesBelow ["protocols", "bgp", "WORD"] redistributeFields ++
  placesBelow ["protocols", "ospf"] ospfFields ++
  placesBelow ["policy", "route-map", "WORD", "rule", "WORD"] ruleFields

/-- The places that no check looks at: the access-lists by which OSPF filters what it
distributes, redistribution from RIP into BGP, and all of OSPFv3, where the lists of an area
are access-lists of IPv6. -/
def unchecked : List Place :=
  placesBelow ["protocols", "ospf"] [(["access-list"], "access-list")] ++
  placesBelow ["protocols", "bgp", "WORD"]
    [(["redistribute", "rip", "route-map"], "route-map"),
      (ipv6Unicast ++ ["redistribute", "ripng", "route-map"], "route-map")] ++
  placesBelow ["protocols", "ospfv3"]
    (["bgp", "connected", "kernel", "ripng", "static"].map fun source =>
      (["redistribute", source, "route-map"], "route-map")) ++
  placesBelow ["protocols", "ospfv3", "area", "WORD"]
    [(["export-list"], "access-list6"), (["import-list"], "access-list6")]

/-- All places that name something. -/
def places : List Place := checked ++ unchecked

/-! ## What is checked -/

variable {go : Go} {c : Node}

/-- What a field names is below `policy`, where the field has one value. -/
def FieldsResolve (c : Node) (base : List String) (fields : List (List String × String)) : Prop :=
  ∀ field ∈ fields, ∀ s, c.value (base ++ field.1) = some s → validatorExists c field.2 s = true

/-- A label on the way to something that is found is among the values of its path. -/
theorem mem_values_of_lookup (path : List String) {label : String} {rest : List String}
    (hp : path ≠ []) (h : (c.lookup (path ++ label :: rest)).isSome) : label ∈ c.values path := by
  rw [Node.mem_values hp]
  have hsplit : path ++ label :: rest = (path ++ [label]) ++ rest := by simp
  rw [hsplit, Node.lookup_append (by simp)] at h
  exact Option.isSome_of_isSome_bind h

theorem peer_resolve {base at_ : List String} (hl : checkPeerLists c base at_ = [])
    (hm : checkPeerMaps c base at_ = []) (hr : checkPeerRest go c base at_ = []) :
    FieldsResolve c base peerFields := by
  simp only [checkPeerLists, checkPeerMaps, checkPeerRest, checkPolicy, List.append_eq_nil_iff,
    checkField_eq_nil] at hl hm hr
  obtain ⟨⟨⟨⟨⟨⟨-, hdo⟩, hde⟩, hdi⟩, -⟩, hfe⟩, hfi⟩ := hl
  obtain ⟨⟨⟨hpe, hpi⟩, hme⟩, hmi⟩ := hm
  obtain ⟨⟨⟨⟨⟨-, hu⟩, -⟩, -⟩, -⟩, -⟩ := hr
  simp only [FieldsResolve, peerFields, List.forall_mem_cons]
  exact ⟨hdo.1, hdo.2, hde.1, hde.2, hdi.1, hdi.2, hfe.1, hfe.2, hfi.1, hfi.2, hpe.1, hpe.2, hpi.1,
    hpi.2, hme.1, hme.2, hmi.1, hmi.2, hu.1, hu.2, by simp⟩

/-- The fields of a rule of a route-map, from the check of the rule. -/
theorem rule_resolve {routeMap rule : String} (h : quaggaConfigValidRouteMapRule go c routeMap rule = []) :
    FieldsResolve c (rulePath "route-map" routeMap rule) ruleFields := by
  obtain ⟨-, r, hr, hcheck⟩ := checkRule_eq_nil.mp h
  obtain ⟨t, -, rfl⟩ := Option.map_eq_some_iff.mp hr
  simp only [RouteMapRule.checkAddress, RouteMapRule.check,
    List.append_eq_nil_iff, checkValue_eq_nil] at hcheck
  obtain ⟨⟨⟨⟨⟨⟨⟨⟨⟨⟨⟨⟨⟨⟨⟨⟨⟨⟨⟨⟨⟨⟨⟨⟨⟨⟨⟨⟨⟨⟨⟨-, hcall⟩, -⟩, hasp⟩, hcom⟩, ⟨⟨ha, hp⟩, -⟩⟩, ⟨⟨hna, hnp⟩, -⟩⟩,
    ⟨⟨hsa, hsp⟩, -⟩⟩, ⟨⟨ha6, hp6⟩, -⟩⟩, ⟨⟨hna6, hnp6⟩, -⟩⟩, -⟩, -⟩, -⟩, -⟩, -⟩, -⟩, -⟩, -⟩, -⟩, -⟩,
    hlist⟩, -⟩, -⟩, -⟩, -⟩, -⟩, -⟩, -⟩, -⟩, -⟩, -⟩, -⟩ := hcheck
  simp only [FieldsResolve, ruleFields, List.forall_mem_cons]
  exact ⟨hcall, hasp, hcom, ha, hp, hna, hnp, hsa, hsp, ha6, hp6, hna6, hnp6, hlist, by simp⟩

/-- What the checks of BGP promise for its AS number. -/
theorem bgp_checks (h : quaggaConfigValidBgp go c = []) {asNum : String}
    (has : asNum ∈ c.values ["protocols", "bgp"]) :
    (∀ neigh ∈ c.values ["protocols", "bgp", asNum, "neighbor"],
      quaggaConfigValidBgpNeighbor go c (some asNum) neigh = []) ∧
    (∀ group ∈ c.values ["protocols", "bgp", asNum, "peer-group"],
      quaggaConfigValidBgpPeerGroup go c (some asNum) group = []) ∧
    quaggaConfigValidBgpNetworks go c (some asNum) = [] ∧
    quaggaConfigValidBgpRedistributes c (some asNum) = [] := by
  -- There is one AS number, since several fail and `asNum` is there.
  have hone : c.value ["protocols", "bgp"] = some asNum ∧
      (c.values ["protocols", "bgp"]).length = 1 := by
    rw [Node.value]
    rw [Node.values] at has ⊢
    cases hl : c.lookup ["protocols", "bgp"] with
    | none => simp [hl] at has
    | some t =>
      simp only [hl, Option.map_some, Option.getD_some] at has ⊢
      rw [quaggaConfigValidBgp, Node.values, hl, Option.map_some, Option.getD_some] at h
      rcases ht : t.labels with _ | ⟨a, _ | ⟨b, l⟩⟩
      · simp [ht] at has
      · rw [ht, List.mem_singleton] at has
        exact ⟨by rw [has], rfl⟩
      · simp [ht] at h
  rw [quaggaConfigValidBgp, hone.1, hone.2] at h
  simp only [Nat.one_ne_zero, Nat.lt_irrefl, if_false, List.append_eq_nil_iff] at h
  obtain ⟨⟨⟨⟨⟨⟨⟨⟨-, hneighbors⟩, hgroups⟩, -⟩, hnetworks⟩, -⟩, hredistributes⟩, -⟩, -⟩ := h
  exact ⟨List.flatMap_eq_nil_iff.mp hneighbors, List.flatMap_eq_nil_iff.mp hgroups, hnetworks,
    hredistributes⟩

theorem neighbor_resolve {asNum neigh : String}
    (h : quaggaConfigValidBgpNeighbor go c (some asNum) neigh = []) :
    FieldsResolve c ["protocols", "bgp", asNum, "neighbor", neigh] peerFields ∧
      ∀ words ∈ [["peer-group"], ipv6Unicast ++ ["peer-group"]], ∀ s,
        c.value (["protocols", "bgp", asNum, "neighbor", neigh] ++ words) = some s →
          validatorExistsPeerGroup c asNum s = true := by
  rw [quaggaConfigValidBgpNeighbor, withAsNum] at h
  simp only at h
  split at h
  · nomatch h
  · simp only [List.append_eq_nil_iff] at h
    obtain ⟨⟨⟨⟨⟨⟨⟨⟨⟨⟨-, -⟩, hl⟩, -⟩, hg⟩, -⟩, hm⟩, -⟩, -⟩, -⟩, hr⟩ := h
    refine ⟨peer_resolve hl hm hr, ?_⟩
    simp only [checkPeerGroup, checkFamilies, List.append_eq_nil_iff, checkField_eq_nil] at hg
    simp only [List.forall_mem_cons]
    exact ⟨hg.1, hg.2, by simp⟩

theorem group_resolve {asNum group : String}
    (h : quaggaConfigValidBgpPeerGroup go c (some asNum) group = []) :
    FieldsResolve c ["protocols", "bgp", asNum, "peer-group", group] peerFields := by
  rw [quaggaConfigValidBgpPeerGroup, withAsNum] at h
  simp only [List.append_eq_nil_iff] at h
  obtain ⟨⟨⟨⟨-, hl⟩, -⟩, hm⟩, hr⟩ := h
  exact peer_resolve hl hm hr

theorem network_resolve {base : List String} {isCIDR : String → Bool} (h : checkNetworks c base isCIDR = [])
    {network : String} (hn : network ∈ c.values (base ++ ["network"])) :
    FieldsResolve c (base ++ ["network", network]) [(["route-map"], "route-map")] := by
  have hcheck := List.flatMap_eq_nil_iff.mp h network hn
  rw [List.append_eq_nil_iff, checkValue_eq_nil] at hcheck
  intro field hf s hs
  rw [List.mem_singleton.mp hf, List.append_assoc] at hs
  rw [List.mem_singleton.mp hf]
  exact hcheck.2 s hs

theorem redistribute_resolve {asNum : String} (h : quaggaConfigValidBgpRedistributes c (some asNum) = []) :
    FieldsResolve c ["protocols", "bgp", asNum] redistributeFields := by
  rw [quaggaConfigValidBgpRedistributes, withAsNum, List.append_eq_nil_iff] at h
  obtain ⟨h6, h4⟩ := h
  intro field hf s hs
  rcases List.mem_append.mp hf with hf | hf
  · obtain ⟨source, hsource, rfl⟩ := List.mem_map.mp hf
    have hcheck := List.flatMap_eq_nil_iff.mp h6 source hsource
    rw [checkRedistribute, List.append_eq_nil_iff, checkField_eq_nil, checkField_eq_nil] at hcheck
    exact hcheck.2 s hs
  · obtain ⟨source, hsource, rfl⟩ := List.mem_map.mp hf
    have hcheck := List.flatMap_eq_nil_iff.mp h4 source hsource
    rw [checkRedistribute, List.append_eq_nil_iff, checkField_eq_nil, checkField_eq_nil] at hcheck
    exact hcheck.2 s hs

theorem ospf_resolve (h : quaggaConfigValidOspf go c = []) :
    FieldsResolve c ["protocols", "ospf"] ospfFields := by
  delta quaggaConfigValidOspf at h
  simp only [List.append_eq_nil_iff] at h
  obtain ⟨⟨⟨⟨⟨⟨⟨⟨⟨⟨⟨⟨⟨⟨⟨⟨⟨⟨⟨⟨⟨-, -⟩, -⟩, -⟩, -⟩, hd⟩, -⟩, -⟩, -⟩, -⟩, -⟩, -⟩, -⟩, -⟩, -⟩, -⟩, -⟩, hr⟩, -⟩, -⟩, -⟩, -⟩ := h
  intro field hf s hs
  rcases List.mem_cons.mp hf with rfl | hf
  · exact checkField_eq_nil.mp hd s hs
  · obtain ⟨source, hsource, rfl⟩ := List.mem_map.mp hf
    have hcheck := List.flatMap_eq_nil_iff.mp hr source hsource
    rw [checkOspfRedistribute, List.append_eq_nil_iff, checkField_eq_nil] at hcheck
    exact hcheck.2 s hs

/-! ## Places and paths -/

theorem fits_append {p q path : List String} (h : fits (p ++ q) path = true) :
    ∃ a b, path = a ++ b ∧ fits p a = true ∧ fits q b = true := by
  induction p generalizing path with
  | nil => exact ⟨[], path, rfl, rfl, h⟩
  | cons w p ih =>
    cases path with
    | nil => nomatch h
    | cons label path =>
      rw [List.cons_append, fits, Bool.and_eq_true] at h
      obtain ⟨a, b, rfl, ha, hb⟩ := ih h.2
      exact ⟨label :: a, b, rfl, by rw [fits, h.1, ha]; rfl, hb⟩

/-- A pattern without words that stand for others is the path. -/
theorem fits_literal {q path : List String} (hq : ∀ w ∈ q, isAny w = false) (h : fits q path = true) :
    path = q := by
  induction q generalizing path with
  | nil =>
    cases path with
    | nil => rfl
    | cons label path => nomatch h
  | cons w q ih =>
    cases path with
    | nil => nomatch h
    | cons label path =>
      rw [fits, hq w List.mem_cons_self, Bool.false_or, Bool.and_eq_true, beq_iff_eq] at h
      rw [h.1, ih (fun v hv => hq v (List.mem_cons_of_mem _ hv)) h.2]

theorem fits_cons {w : String} {q path : List String} (h : fits (w :: q) path = true) :
    ∃ label rest, path = label :: rest ∧ (isAny w = false → label = w) ∧ fits q rest = true := by
  cases path with
  | nil => nomatch h
  | cons label path =>
    rw [fits, Bool.and_eq_true, Bool.or_eq_true, beq_iff_eq] at h
    exact ⟨label, path, rfl, fun hw => (h.1.resolve_left (by simp [hw])).symm, h.2⟩

theorem lookup_of_value {path : List String} {name : String} (h : c.value path = some name) :
    (c.lookup path).isSome := by
  rw [Node.value] at h
  cases hl : c.lookup path with
  | none => simp [hl] at h
  | some t => rfl

/-- The fields below the paths of a pattern name what there is, when they do below each path
that is there. -/
theorem below_resolves {base : List String} {fields : List (List String × String)}
    (hbase : base ≠ []) (hfields : ∀ field ∈ fields, ∀ w ∈ field.1, isAny w = false)
    (h : ∀ a, fits base a = true → (c.lookup a).isSome → FieldsResolve c a fields) {place : Place}
    (hp : place ∈ placesBelow base fields) {path : List String} (hf : fits place.pattern path = true)
    {name : String} (hv : c.value path = some name) : place.Resolves c path name := by
  obtain ⟨field, hfield, rfl⟩ := List.mem_map.mp hp
  obtain ⟨a, b, rfl, ha, hb⟩ := fits_append hf
  have hne : a ≠ [] := by
    rintro rfl
    cases base with
    | nil => exact hbase rfl
    | cons w base => nomatch ha
  rw [fits_literal (hfields field hfield) hb] at hv
  have hsome := lookup_of_value hv
  rw [Node.lookup_append hne] at hsome
  exact h a ha (Option.isSome_of_isSome_bind hsome) field hfield name hv

/-! ## What a valid candidate names -/

section Valid

variable (hvalid : quaggaConfigValid go c = some true)
include hvalid

theorem valid_bgp {asNum : String} {rest : List String}
    (h : (c.lookup ("protocols" :: "bgp" :: asNum :: rest)).isSome) :
    (∀ neigh ∈ c.values ["protocols", "bgp", asNum, "neighbor"],
      quaggaConfigValidBgpNeighbor go c (some asNum) neigh = []) ∧
    (∀ group ∈ c.values ["protocols", "bgp", asNum, "peer-group"],
      quaggaConfigValidBgpPeerGroup go c (some asNum) group = []) ∧
    quaggaConfigValidBgpNetworks go c (some asNum) = [] ∧
    quaggaConfigValidBgpRedistributes c (some asNum) = [] := by
  obtain ⟨-, -, -, -, -, -, -, hb, -⟩ := valid_parts hvalid
  exact bgp_checks hb (mem_values_of_lookup ["protocols", "bgp"] (List.cons_ne_nil _ _) h)

theorem valid_neighbor {a : List String}
    (ha : fits ["protocols", "bgp", "WORD", "neighbor", "WORD"] a = true) (hs : (c.lookup a).isSome) :
    ∃ asNum neigh, a = ["protocols", "bgp", asNum, "neighbor", neigh] ∧
      quaggaConfigValidBgpNeighbor go c (some asNum) neigh = [] := by
  obtain ⟨w₁, a, rfl, h₁, ha⟩ := fits_cons ha
  obtain ⟨w₂, a, rfl, h₂, ha⟩ := fits_cons ha
  obtain ⟨asNum, a, rfl, -, ha⟩ := fits_cons ha
  obtain ⟨w₄, a, rfl, h₄, ha⟩ := fits_cons ha
  obtain ⟨neigh, a, rfl, -, ha⟩ := fits_cons ha
  rw [fits_literal (by simp) ha, h₁ (by decide), h₂ (by decide), h₄ (by decide)] at hs ⊢
  refine ⟨asNum, neigh, rfl, (valid_bgp hvalid hs).1 neigh ?_⟩
  exact mem_values_of_lookup ["protocols", "bgp", asNum, "neighbor"] (List.cons_ne_nil _ _) hs

theorem valid_group {a : List String}
    (ha : fits ["protocols", "bgp", "WORD", "peer-group", "WORD"] a = true) (hs : (c.lookup a).isSome) :
    FieldsResolve c a peerFields := by
  obtain ⟨w₁, a, rfl, h₁, ha⟩ := fits_cons ha
  obtain ⟨w₂, a, rfl, h₂, ha⟩ := fits_cons ha
  obtain ⟨asNum, a, rfl, -, ha⟩ := fits_cons ha
  obtain ⟨w₄, a, rfl, h₄, ha⟩ := fits_cons ha
  obtain ⟨group, a, rfl, -, ha⟩ := fits_cons ha
  rw [fits_literal (by simp) ha, h₁ (by decide), h₂ (by decide), h₄ (by decide)] at hs ⊢
  refine group_resolve ((valid_bgp hvalid hs).2.1 group ?_)
  exact mem_values_of_lookup ["protocols", "bgp", asNum, "peer-group"] (List.cons_ne_nil _ _) hs

theorem valid_network {a : List String} {base : List String}
    (hbase : base = [] ∨ base = ipv6Unicast) {word : String}
    (ha : fits (["protocols", "bgp", "WORD"] ++ base ++ ["network", word]) a = true)
    (hs : (c.lookup a).isSome) : FieldsResolve c a [(["route-map"], "route-map")] := by
  obtain ⟨as, b, rfl, has, hb⟩ := fits_append ha
  obtain ⟨as, f, rfl, has, hf⟩ := fits_append has
  obtain ⟨w₁, as, rfl, h₁, has⟩ := fits_cons has
  obtain ⟨w₂, as, rfl, h₂, has⟩ := fits_cons has
  obtain ⟨asNum, as, rfl, -, has⟩ := fits_cons has
  obtain ⟨w₄, b, rfl, h₄, hb⟩ := fits_cons hb
  obtain ⟨network, b, rfl, -, hb⟩ := fits_cons hb
  have hf : f = base := by
    rcases hbase with rfl | rfl
    · exact fits_literal (by simp) hf
    · exact fits_literal (by decide) hf
  rw [fits_literal (by simp) has, fits_literal (by simp) hb, hf, h₁ (by decide), h₂ (by decide),
    h₄ (by decide)] at hs ⊢
  have hnetworks := (valid_bgp hvalid hs).2.2.1
  rw [quaggaConfigValidBgpNetworks, withAsNum, List.append_eq_nil_iff] at hnetworks
  have hmem : network ∈ c.values (["protocols", "bgp", asNum] ++ base ++ ["network"]) := by
    refine @mem_values_of_lookup c _ network [] (by simp) ?_
    simpa using hs
  rcases hbase with rfl | rfl
  · exact network_resolve hnetworks.1 hmem
  · exact network_resolve hnetworks.2 hmem

theorem valid_redistribute {a : List String} (ha : fits ["protocols", "bgp", "WORD"] a = true)
    (hs : (c.lookup a).isSome) : FieldsResolve c a redistributeFields := by
  obtain ⟨w₁, a, rfl, h₁, ha⟩ := fits_cons ha
  obtain ⟨w₂, a, rfl, h₂, ha⟩ := fits_cons ha
  obtain ⟨asNum, a, rfl, -, ha⟩ := fits_cons ha
  rw [fits_literal (by simp) ha, h₁ (by decide), h₂ (by decide)] at hs ⊢
  exact redistribute_resolve (valid_bgp hvalid hs).2.2.2

theorem valid_ospf {a : List String} (ha : fits ["protocols", "ospf"] a = true) :
    FieldsResolve c a ospfFields := by
  obtain ⟨-, -, -, -, -, -, -, -, ho⟩ := valid_parts hvalid
  rw [fits_literal (by decide) ha]
  exact ospf_resolve ho

theorem valid_rule {a : List String}
    (ha : fits ["policy", "route-map", "WORD", "rule", "WORD"] a = true) (hs : (c.lookup a).isSome) :
    FieldsResolve c a ruleFields := by
  obtain ⟨w₁, a, rfl, h₁, ha⟩ := fits_cons ha
  obtain ⟨w₂, a, rfl, h₂, ha⟩ := fits_cons ha
  obtain ⟨routeMap, a, rfl, -, ha⟩ := fits_cons ha
  obtain ⟨w₄, a, rfl, h₄, ha⟩ := fits_cons ha
  obtain ⟨rule, a, rfl, -, ha⟩ := fits_cons ha
  rw [fits_literal (by simp) ha, h₁ (by decide), h₂ (by decide), h₄ (by decide)] at hs ⊢
  have hname : routeMap ∈ c.values ["policy", "route-map"] :=
    mem_values_of_lookup ["policy", "route-map"] (List.cons_ne_nil _ _) hs
  have hrule : rule ∈ c.values ["policy", "route-map", routeMap, "rule"] :=
    mem_values_of_lookup ["policy", "route-map", routeMap, "rule"] (List.cons_ne_nil _ _) hs
  obtain ⟨-, -, -, -, -, -, hr, -, -⟩ := valid_parts hvalid
  have hmap := List.flatMap_eq_nil_iff.mp hr routeMap hname
  rw [quaggaConfigValidRouteMap, List.append_eq_nil_iff] at hmap
  exact rule_resolve (List.flatMap_eq_nil_iff.mp hmap.2 rule hrule)

theorem valid_peerGroup {a words : List String} (hwords : words ∈ [["peer-group"], ipv6Unicast ++ ["peer-group"]])
    (ha : fits (["protocols", "bgp", "WORD", "neighbor", "WORD"] ++ words) a = true) {name : String}
    (hv : c.value a = some name) :
    (⟨["protocols", "bgp", "WORD", "neighbor", "WORD"] ++ words, .peerGroup⟩ : Place).Resolves c a name := by
  obtain ⟨a, b, rfl, ha, hb⟩ := fits_append ha
  have hliteral : ∀ ws ∈ [["peer-group"], ipv6Unicast ++ ["peer-group"]], ∀ w ∈ ws, isAny w = false := by
    decide
  rw [fits_literal (hliteral words hwords) hb] at hv ⊢
  have hsome := lookup_of_value hv
  have hne : a ≠ [] := by
    rintro rfl
    nomatch ha
  rw [Node.lookup_append hne] at hsome
  obtain ⟨asNum, neigh, rfl, hneighbor⟩ := valid_neighbor hvalid ha (Option.isSome_of_isSome_bind hsome)
  exact (neighbor_resolve hneighbor).2 words hwords name hv

/-- A field of one value at a place that is looked at names what there is. -/
theorem checked_resolves {place : Place} (hp : place ∈ checked) {path : List String}
    (hf : fits place.pattern path = true) {name : String} (hv : c.value path = some name) :
    place.Resolves c path name := by
  simp only [checked, List.mem_append, List.mem_cons, List.not_mem_nil, or_false] at hp
  rcases hp with ((((((hp | hp) | hp) | hp) | hp) | hp) | hp) | hp
  · refine below_resolves (List.cons_ne_nil _ _) (by decide) (fun a ha hs => ?_) hp hf hv
    obtain ⟨asNum, neigh, rfl, hneighbor⟩ := valid_neighbor hvalid ha hs
    exact (neighbor_resolve hneighbor).1
  · rcases hp with rfl | rfl
    · exact valid_peerGroup hvalid (by decide) hf hv
    · exact valid_peerGroup hvalid (by decide) hf hv
  · exact below_resolves (List.cons_ne_nil _ _) (by decide) (fun a => valid_group hvalid) hp hf hv
  · exact below_resolves (List.cons_ne_nil _ _) (by decide)
      (fun a => valid_network hvalid (.inl rfl)) hp hf hv
  · exact below_resolves (List.cons_ne_nil _ _) (by decide)
      (fun a => valid_network hvalid (.inr rfl)) hp hf hv
  · exact below_resolves (List.cons_ne_nil _ _) (by decide) (fun a => valid_redistribute hvalid) hp hf hv
  · exact below_resolves (List.cons_ne_nil _ _) (by decide) (fun a ha _ => valid_ospf hvalid ha) hp hf hv
  · exact below_resolves (List.cons_ne_nil _ _) (by decide) (fun a => valid_rule hvalid) hp hf hv

end Valid

theorem value_of_values {path : List String} {name : String} (hn : name ∈ c.values path)
    (hone : ¬ 1 < (c.values path).length) : c.value path = some name := by
  rw [Node.values] at hn hone
  rw [Node.value]
  cases hl : c.lookup path with
  | none => simp [hl] at hn
  | some t =>
    simp only [hl, Option.map_some, Option.getD_some] at hn hone ⊢
    rcases ht : t.labels with _ | ⟨a, _ | ⟨b, l⟩⟩
    · simp [ht] at hn
    · rw [ht, List.mem_singleton] at hn
      rw [hn]
    · simp [ht] at hone

/-- In a valid candidate every reference names what there is, just if those do that are at a
place which is not looked at, or at a leaf of several values. -/
theorem references_iff (go : Go) (candidate : Node) (hvalid : quaggaConfigValid go candidate = some true) :
    (∀ place ∈ places, ∀ path, fits place.pattern path = true → ∀ name ∈ candidate.values path,
      place.Resolves candidate path name) ↔
    ∀ place ∈ places, ∀ path, fits place.pattern path = true → ∀ name ∈ candidate.values path,
      place ∈ unchecked ∨ 1 < (candidate.values path).length → place.Resolves candidate path name := by
  constructor
  · intro h place hp path hf name hn _
    exact h place hp path hf name hn
  · intro h place hp path hf name hn
    by_cases hmany : 1 < (candidate.values path).length
    · exact h place hp path hf name hn (.inr hmany)
    · rcases List.mem_append.mp hp with hchecked | hunchecked
      · exact checked_resolves hvalid hchecked hf (value_of_values hn hmany)
      · exact h place hp path hf name hn (.inl hunchecked)

/-- OSPF filters what it distributes from BGP by an access-list that is not there. -/
def filterOnly : Node :=
  Node.make.quaggaConfigStateSet ["protocols", "ospf", "access-list", "10", "export", "bgp"]

theorem filterOnly_valid : quaggaConfigValid plainGo filterOnly = some true := by decide +kernel

theorem references_iff_filterOnly :
    (∀ place ∈ places, ∀ path, fits place.pattern path = true → ∀ name ∈ filterOnly.values path,
      place.Resolves filterOnly path name) ↔
    ∀ place ∈ places, ∀ path, fits place.pattern path = true → ∀ name ∈ filterOnly.values path,
      place ∈ unchecked ∨ 1 < (filterOnly.values path).length → place.Resolves filterOnly path name :=
  references_iff plainGo filterOnly filterOnly_valid

theorem references_dangle : quaggaConfigValid plainGo filterOnly = some true ∧
    ∃ place ∈ places, ∃ path, fits place.pattern path = true ∧ ∃ name ∈ filterOnly.values path,
      ¬ place.Resolves filterOnly path name := by
  refine ⟨filterOnly_valid, ⟨["protocols", "ospf", "access-list"], .policy "access-list"⟩, by decide,
    ["protocols", "ospf", "access-list"], by decide, "10", by decide, ?_⟩
  rw [Place.Resolves]
  decide

end OpenConfigd.Quaggad
