import OpenConfigd.Quaggad.Policy

/-!
# The route-maps of quaggad

The check of a rule of a route-map, whose clauses name lists and other route-maps, and
the check of all that is below `policy`.
-/

namespace OpenConfigd.Quaggad

variable (go : Go) (candidate : Node)

/-- `strconv.ParseUint` from a number on: a range error, with the bound of 64 bits, as soon as the
digits pass it, and a syntax error at another character. -/
def parseUint : Nat → List Char → Option Nat
  | n, [] => some n
  | n, c :: ds =>
    if c.isDigit then
      let n := 10 * n + (c.toNat - '0'.toNat)
      if n < 2 ^ 64 then parseUint n ds else some (2 ^ 64 - 1)
    else none

/-- The number that `strconv.Atoi` returns: with an error zero, or the bound that is passed. -/
def atoiValue (s : String) : Int :=
  let un := fun ds => (parseUint 0 ds).getD 0
  match s.toList with
  | '-' :: ds => -(min (un ds) (2 ^ 63) : Nat)
  | '+' :: ds => (min (un ds) (2 ^ 63 - 1) : Nat)
  | ds => (min (un ds) (2 ^ 63 - 1) : Nat)

theorem parseUint_digits {ds : List Char} (hd : ∀ c ∈ ds, c.isDigit = true) {n : Nat}
    (hlt : ds.foldl (fun n c => 10 * n + (c.toNat - '0'.toNat)) n < 2 ^ 64) :
    n ≤ ds.foldl (fun n c => 10 * n + (c.toNat - '0'.toNat)) n ∧
      parseUint n ds = some (ds.foldl (fun n c => 10 * n + (c.toNat - '0'.toNat)) n) := by
  induction ds generalizing n with
  | nil => exact ⟨le_rfl, rfl⟩
  | cons c ds ih =>
    rw [List.foldl_cons] at hlt ⊢
    obtain ⟨hle, heq⟩ := ih (fun c hc => hd c (List.mem_cons_of_mem _ hc)) hlt
    refine ⟨by omega, ?_⟩
    rw [parseUint, if_pos (hd c List.mem_cons_self)]
    dsimp only
    rw [if_pos (hle.trans_lt hlt), heq]

theorem atoiValue_of_atoi {s : String} {i : Int} (h : atoi s = some i) : atoiValue s = i := by
  have hdigits {ds : List Char} {n bound : Nat} (hbound : bound ≤ 2 ^ 63)
      (hn : (if ds.isEmpty || ds.any fun c => !c.isDigit then none
        else some (ds.foldl (fun n c => 10 * n + (c.toNat - '0'.toNat)) 0)) = some n) (hle : n ≤ bound) :
      min ((parseUint 0 ds).getD 0) bound = n := by
    split at hn
    · cases hn
    · next hnot =>
      simp only [Bool.or_eq_true, List.any_eq_true, Bool.not_eq_true', not_or, not_exists, not_and,
        Bool.not_eq_false] at hnot
      have heq := Option.some.inj hn
      have hlt : ds.foldl (fun n c => 10 * n + (c.toNat - '0'.toNat)) 0 < 2 ^ 64 := by
        rw [heq]
        omega
      rw [(parseUint_digits hnot.2 hlt).2, heq, Option.getD_some, min_eq_left hle]
  rw [atoi] at h
  dsimp only at h
  split at h
  · next ds hs =>
    obtain ⟨n, hn, h⟩ := Option.bind_eq_some_iff.mp h
    split at h
    · next hle =>
      rw [atoiValue, hs]
      change -((min ((parseUint 0 ds).getD 0) (2 ^ 63) : Nat) : Int) = i
      rw [hdigits le_rfl hn hle]
      exact Option.some.inj h
    · cases h
  · next ds hs =>
    obtain ⟨n, hn, h⟩ := Option.bind_eq_some_iff.mp h
    split at h
    · next hlt =>
      rw [atoiValue, hs]
      change ((min ((parseUint 0 ds).getD 0) (2 ^ 63 - 1) : Nat) : Int) = i
      rw [hdigits (by omega) hn (by omega)]
      exact Option.some.inj h
    · cases h
  · next hminus hplus =>
    obtain ⟨n, hn, h⟩ := Option.bind_eq_some_iff.mp h
    split at h
    · next hlt =>
      rw [atoiValue]
      dsimp only
      split
      · next hs => exact absurd hs (hminus _)
      · next hs => exact absurd hs (hplus _)
      · rw [hdigits (by omega) hn (by omega)]
        exact Option.some.inj h
    · cases h

-- The digits pass 64 bits before the other character is read.
example : atoiValue "99999999999999999999x" = 2 ^ 63 - 1 := by decide

/-- `quaggaRouteMapRule`: its fields by the words of their paths. -/
structure RouteMapRule where
  value : List String → Option String
  has : List String → Bool

/-- `makeQuaggaRouteMapRule`. -/
def makeQuaggaRouteMapRule (routeMap rule : String) : Option RouteMapRule :=
  let base := rulePath "route-map" routeMap rule
  (candidate.lookup base).map fun _ =>
    { value := fun words => candidate.value (base ++ words)
      has := fun words => (candidate.lookup (base ++ words)).isSome }

/-- The check of a field, written under its path. -/
def RouteMapRule.check (r : RouteMapRule) (at_ words : List String) (ok : String → Bool)
    (message : String → List String) : List Failure :=
  checkValue (r.value words) ok fun s => [at_ ++ [" ".intercalate words, s], message s]

/-- A match of addresses by an access-list or by a prefix-list. -/
def RouteMapRule.checkAddress (r : RouteMapRule) (candidate : Node) (at_ words : List String)
    (access pre : String) (okAccess okPre : Node → String → Bool) : List Failure :=
  let accessList := words ++ ["access-list"]
  let prefixList := words ++ ["prefix-list"]
  r.check at_ accessList (okAccess candidate) (fun s => [access, s, "does not exist."]) ++
  r.check at_ prefixList (okPre candidate) (fun s => [pre, s, "does not exist."]) ++
  checkBoth (r.value accessList) (r.value prefixList) fun s t =>
    [at_ ++ [" ".intercalate accessList, s], at_ ++ [" ".intercalate prefixList, t],
      ["you may only specify a prefix-list or access-list."]]

/-- A clause that leads to a later rule. -/
def RouteMapRule.checkForward (r : RouteMapRule) (at_ words : List String) (rule range forward : String) :
    List Failure :=
  r.check at_ words (validatorRange · 1 65535) (fun _ => [range]) ++
  r.check at_ words (fun s => atoiValue rule < atoiValue s) (fun _ => [forward])

/-- `quaggaConfigValidRouteMapRule`. -/
def quaggaConfigValidRouteMapRule (routeMap rule : String) : List Failure :=
  checkRule "route-map" routeMap rule (makeQuaggaRouteMapRule candidate routeMap rule) fun r =>
    let at_ := ["policy route-map", routeMap, "rule", rule]
    checkAction at_ (r.value ["action"]) ++
    r.check at_ ["call"] (validatorExistsRouteMap candidate) (fun s => ["called route-map", s, "doesn't exist."]) ++
    r.checkForward at_ ["continue"] rule "continue must be between 1 and 65535."
      "you may only continue forward in the route-map." ++
    r.check at_ ["match", "as-path"] (validatorExistsAsPathList candidate)
      (fun s => ["match as-path: AS path list", s, "doesn't exist."]) ++
    r.check at_ ["match", "community", "community-list"] (validatorExistsCommunityList candidate)
      (fun s => ["community-list", s, "doesn't exist."]) ++
    r.checkAddress candidate at_ ["match", "ip", "address"] "access-list" "prefix-list"
      validatorExistsAccessList validatorExistsPrefixList ++
    r.checkAddress candidate at_ ["match", "ip", "nexthop"] "access-list" "prefix-list"
      validatorExistsAccessList validatorExistsPrefixList ++
    r.checkAddress candidate at_ ["match", "ip", "route-source"] "access-list" "prefix-list"
      validatorExistsAccessList validatorExistsPrefixList ++
    r.checkAddress candidate at_ ["match", "ipv6", "address"] "access-list6" "prefix-list6"
      validatorExistsAccessList6 validatorExistsPrefixList6 ++
    r.checkAddress candidate at_ ["match", "ipv6", "nexthop"] "access-list6" "prefix-list6"
      validatorExistsAccessList6 validatorExistsPrefixList6 ++
    r.check at_ ["match", "metric"] (validatorRange · 1 65535)
      (fun _ => ["metric must be between 1 and 65535."]) ++
    r.check at_ ["match", "origin"] (validatorInclude · ["egp", "igp", "incomplete"])
      (fun _ => ["origin must be egp, igp, or incomplete."]) ++
    r.check at_ ["match", "peer"] (validatorPeer go) (fun _ => ["peer must be either an IP or local."]) ++
    r.check at_ ["match", "tag"] (validatorRange · 1 65535)
      (fun _ => ["tag must be between 1 and 65535."]) ++
    r.checkForward at_ ["on-match", "goto"] rule "goto must be a rule number between 1 and 65535."
      "you may only go forward in the route-map." ++
    (if r.has ["on-match", "next"] then
      checkValue (r.value ["on-match", "goto"]) (fun _ => false) fun s =>
        [at_ ++ ["on-match goto", s], at_ ++ ["on-match next"], ["you may set only goto or next."]]
    else []) ++
    r.check at_ ["set", "aggregator", "as"] (validatorRange · 1 65535)
      (fun _ => ["BGP AS number must be between 1 and 4294967294."]) ++
    r.check at_ ["set", "aggregator", "ip"] (validatorIPv4Address go)
      (fun _ => ["aggregator IP format error."]) ++
    failIf ((r.value ["set", "aggregator", "as"]).isSome != (r.value ["set", "aggregator", "ip"]).isSome)
      [at_ ++ ["set aggregator as", (r.value ["set", "aggregator", "as"]).getD ""],
        at_ ++ ["set aggregator ip", (r.value ["set", "aggregator", "ip"]).getD ""],
        ["you must configure both as and ip."]] ++
    checkValue (r.value ["set", "as-path-prepend"]) validatorAsPathPrepend (fun s =>
      [at_ ++ ["setAsPathPrepend", s], ["invalid AS path string."]]) ++
    r.check at_ ["set", "comm-list", "comm-list"] (validatorExistsCommunityList candidate)
      (fun s => ["community list", s, "does not exist."]) ++
    r.check at_ ["set", "community"] validatorCommunity (fun _ => ["community format error."]) ++
    r.check at_ ["set", "ip-next-hop"] (validatorIPv4Address go) (fun _ => ["ip-next-hop format error."]) ++
    r.check at_ ["set", "ipv6-next-hop", "global"] (validatorIPv6Address go)
      (fun _ => ["ipv6-next-hop global format error."]) ++
    r.check at_ ["set", "ipv6-next-hop", "local"] (validatorIPv6Address go)
      (fun _ => ["ipv6-next-hop local format error."]) ++
    r.check at_ ["set", "local-preference"] (validatorRange · 0 4294967295)
      (fun _ => ["local-preference format error."]) ++
    r.check at_ ["set", "metric-type"] (validatorInclude · ["type-1", "type-2"])
      (fun _ => ["Must be (type-1, type-2)."]) ++
    r.check at_ ["set", "metric"] (validatorRange · (-4294967295) 4294967295)
      (fun _ => ["metric must be an integer with an optional +/- prepend."]) ++
    r.check at_ ["set", "origin"] (validatorInclude · ["igp", "egp", "incomplete"])
      (fun _ => ["origin must be one of igp, egp, or incomplete."]) ++
    r.check at_ ["set", "originator-id"] (validatorIPv4Address go)
      (fun _ => ["setOriginatorId format error."]) ++
    checkValue (r.value ["set", "tag"]) (validatorRange · 1 65535) (fun s =>
      [at_ ++ ["setTag", s], ["tag must be between 1 and 65535."]]) ++
    checkValue (r.value ["set", "weight"]) (validatorRange · 0 4294967295) (fun s =>
      [at_ ++ ["setWeight", s], ["weight format error."]])

/-- `quaggaConfigValidRouteMap`. -/
def quaggaConfigValidRouteMap (routeMap : String) : List Failure :=
  failIf (!isName routeMap)
    [["policy route-map", routeMap], ["route-map name must be alpha-numeric."]] ++
  (candidate.values ["policy", "route-map", routeMap, "rule"]).flatMap
    (quaggaConfigValidRouteMapRule go candidate routeMap)

/-- `quaggaConfigValidAccessLists`. -/
def quaggaConfigValidAccessLists : List Failure :=
  (candidate.values ["policy", "access-list"]).flatMap (quaggaConfigValidAccessList go candidate)

/-- `quaggaConfigValidAccessList6s`. -/
def quaggaConfigValidAccessList6s : Option (List Failure) :=
  ((candidate.values ["policy", "access-list6"]).mapM
    (quaggaConfigValidAccessList6 go candidate)).map List.flatten

/-- `quaggaConfigValidAsPathLists`. -/
def quaggaConfigValidAsPathLists : List Failure :=
  (candidate.values ["policy", "as-path-list"]).flatMap (quaggaConfigValidAsPathList candidate)

/-- `quaggaConfigValidCommunityLists`. -/
def quaggaConfigValidCommunityLists : List Failure :=
  (candidate.values ["policy", "community-list"]).flatMap (quaggaConfigValidCommunityList candidate)

/-- `quaggaConfigValidPrefixLists`. -/
def quaggaConfigValidPrefixLists : List Failure :=
  (candidate.values ["policy", "prefix-list"]).flatMap (quaggaConfigValidPrefixList go candidate)

/-- `quaggaConfigValidPrefixList6s`. -/
def quaggaConfigValidPrefixList6s : List Failure :=
  (candidate.values ["policy", "prefix-list6"]).flatMap (quaggaConfigValidPrefixList6 go candidate)

/-- `quaggaConfigValidRouteMaps`. -/
def quaggaConfigValidRouteMaps : List Failure :=
  (candidate.values ["policy", "route-map"]).flatMap (quaggaConfigValidRouteMap go candidate)

/-- `quaggaConfigValidPolicy`. -/
def quaggaConfigValidPolicy : Option (List Failure) := do
  let accessList6s ← quaggaConfigValidAccessList6s go candidate
  return quaggaConfigValidAccessLists go candidate ++ accessList6s ++
    quaggaConfigValidAsPathLists candidate ++ quaggaConfigValidCommunityLists candidate ++
    quaggaConfigValidPrefixLists go candidate ++ quaggaConfigValidPrefixList6s go candidate ++
    quaggaConfigValidRouteMaps go candidate

end OpenConfigd.Quaggad
