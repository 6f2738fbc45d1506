import OpenConfigd.Quaggad.RouteMap

/-!
# The check of BGP

What `quaggaConfigValidBgp` checks below `protocols bgp`, which may have one AS number:
neighbors, peer-groups, aggregates, networks, parameters, redistribution, the number of
paths and timers. A field is written under its path (`checkField`), and most fields of a
peer are there for each of the two address families (`checkFamilies`).
-/

namespace OpenConfigd.Quaggad

variable (go : Go) (candidate : Node)

/-- The words of the address family of IPv6. -/
def ipv6Unicast : List String := ["address-family", "ipv6-unicast"]

section Field

variable (base at_ words : List String)

/-- The check of a field below `base`, written under its path. -/
def checkField (ok : String → Bool) (message : String → List String) : List Failure :=
  checkValue (candidate.value (base ++ words)) ok fun s =>
    [at_ ++ [" ".intercalate words, s], message s]

/-- The check of a field of both address families. -/
def checkFamilies (ok : String → Bool) (message : String → List String) : List Failure :=
  checkField candidate base at_ words ok message ++
  checkField candidate base at_ (ipv6Unicast ++ words) ok message

/-- The check of a field of both address families that names what has to be below `policy`. -/
def checkPolicy (label label6 : String) (ok ok6 : Node → String → Bool) : List Failure :=
  checkField candidate base at_ words (ok candidate) (fun s => [label, s, "doesn't exist."]) ++
  checkField candidate base at_ (ipv6Unicast ++ words) (ok6 candidate) (fun s => [label6, s, "doesn't exist."])

/-- Two fields of which only one may be there. -/
def checkOnlyOne (words' : List String) (message : String) : List Failure :=
  checkBoth (candidate.value (base ++ words)) (candidate.value (base ++ words')) fun s t =>
    [at_ ++ [" ".intercalate words, s], at_ ++ [" ".intercalate words', t], [message]]

end Field

/-- A check for the AS number, which fails without a word where there is none. -/
def withAsNum (asNum : Option String) (check : String → List Failure) : List Failure :=
  match asNum with
  | none => [[]]
  | some asNum => check asNum

/-- `quaggaConfigValidBgpAsNum`. -/
def quaggaConfigValidBgpAsNum (asNum : Option String) : List Failure :=
  match asNum with
  | none => [[["AS number required."]]]
  | some asNum =>
    failIf (!validatorRange asNum 1 4294967294)
      [["protocols bgp", asNum], ["AS number must be between 1 and 4294967294."]]

section Peer

variable (base at_ : List String)

/-- The remote AS number, which a neighbor and a peer-group have to have. -/
def checkRemoteAs : List Failure :=
  match candidate.value (base ++ ["remote-as"]) with
  | none => [[at_, ["remote-as required."]]]
  | some s =>
    failIf (!validatorRange s 1 4294967294)
      [at_ ++ ["remote-as", s], ["AS number must be between 1 and 4294967294."]]

/-- The lists and route-maps a peer is filtered by, up to the multihop. -/
def checkPeerLists : List Failure :=
  checkFamilies candidate base at_ ["allowas-in", "number"] (validatorRange · 1 10)
    (fun _ => ["allowas-in number must be between 1 and 10."]) ++
  checkPolicy candidate base at_ ["default-originate", "route-map"] "route-map" "route-map"
    validatorExistsRouteMap validatorExistsRouteMap ++
  checkPolicy candidate base at_ ["distribute-list", "export"] "access-list" "access-list6"
    validatorExistsAccessList validatorExistsAccessList6 ++
  checkPolicy candidate base at_ ["distribute-list", "import"] "access-list" "access-list6"
    validatorExistsAccessList validatorExistsAccessList6 ++
  checkField candidate base at_ ["ebgp-multihop"] (validatorRange · 1 255)
    (fun _ => ["ebgp-multihop must be between 1 and 255."]) ++
  checkPolicy candidate base at_ ["filter-list", "export"] "as-path-list" "as-path-list"
    validatorExistsAsPathList validatorExistsAsPathList ++
  checkPolicy candidate base at_ ["filter-list", "import"] "as-path-list" "as-path-list"
    validatorExistsAsPathList validatorExistsAsPathList

/-- The local AS number, the number of prefixes and the password of a peer. The condition
on the length of the password never holds. -/
def checkPeerLimits (asNum : String) : List Failure :=
  checkField candidate base at_ ["local-as"] (validatorRange · 1 4294967294)
    (fun _ => ["local-as must be between 1 and 4294967294."]) ++
  checkField candidate base at_ ["local-as"] (· != asNum)
    (fun _ => ["you can't set local-as the same as the router AS."]) ++
  checkFamilies candidate base at_ ["maximum-prefix"] (validatorRange · 1 4294967295)
    (fun _ => ["maximum-prefix must be between 1 and 4294967295."]) ++
  checkValue (candidate.value (base ++ ["password"]))
    (fun s => !(s.utf8ByteSize < 1 && 80 < s.utf8ByteSize))
    (fun _ => [at_ ++ ["password"], ["password must be 80 characters or less."]])

/-- The prefix-lists and route-maps of a peer. -/
def checkPeerMaps : List Failure :=
  checkPolicy candidate base at_ ["prefix-list", "export"] "prefix-list" "prefix-list6"
    validatorExistsPrefixList validatorExistsPrefixList6 ++
  checkPolicy candidate base at_ ["prefix-list", "import"] "prefix-list" "prefix-list6"
    validatorExistsPrefixList validatorExistsPrefixList6 ++
  checkPolicy candidate base at_ ["route-map", "export"] "route-map" "route-map"
    validatorExistsRouteMap validatorExistsRouteMap ++
  checkPolicy candidate base at_ ["route-map", "import"] "route-map" "route-map"
    validatorExistsRouteMap validatorExistsRouteMap

/-- The rest of the fields of a peer, and those that exclude each other. -/
def checkPeerRest : List Failure :=
  checkField candidate base at_ ["ttl-security", "hops"] (validatorRange · 1 254)
    (fun _ => ["ttl-security hops must be between 1 and 254."]) ++
  checkPolicy candidate base at_ ["unsuppress-map"] "route-map" "route-map"
    validatorExistsRouteMap validatorExistsRouteMap ++
  checkField candidate base at_ ["update-source"] (validatorSource go)
    (fun _ => ["update-source format error."]) ++
  checkField candidate base at_ ["weight"] (validatorRange · 1 65535)
    (fun _ => ["weight must be between 1 and 65535."]) ++
  ["export", "import"].flatMap (fun direction =>
    [[], ipv6Unicast].flatMap fun family =>
      checkOnlyOne candidate base at_ (family ++ ["distribute-list", direction])
        (family ++ ["prefix-list", direction])
        "you can't set both a prefix-list and a distribute list.") ++
  checkOnlyOne candidate base at_ ["ebgp-multihop"] ["ttl-security", "hops"]
    "you can't set both ebgp-multihop and ttl-security hops."

end Peer

/-- The peer-group of a neighbor. -/
def checkPeerGroup (base at_ : List String) (asNum : String) : List Failure :=
  checkFamilies candidate base at_ ["peer-group"] (validatorExistsPeerGroup candidate asNum)
    (fun s => ["protocols bgp", asNum, "peer-group", s, "doesn't exist."])

/-- `quaggaConfigValidBgpNeighbor`. -/
def quaggaConfigValidBgpNeighbor (asNum : Option String) (neigh : String) : List Failure :=
  withAsNum asNum fun asNum =>
    let base := ["protocols", "bgp", asNum, "neighbor", neigh]
    let at_ := ["protocols bgp", asNum, "neighbor", neigh]
    if !validatorIPv4Address go neigh && !validatorIPv6Address go neigh then
      [[at_, ["neighbor format error."]]]
    else
      checkRemoteAs candidate base at_ ++
      checkField candidate base at_ ["advertisement-interval"] (validatorRange · 0 600)
        (fun _ => ["must be between 0 and 600."]) ++
      checkPeerLists candidate base at_ ++
      checkPeerLimits candidate base at_ asNum ++
      checkPeerGroup candidate base at_ asNum ++
      checkField candidate base at_ ["port"] (validatorRange · 1 65535)
        (fun _ => ["port must be between 1 and 65535."]) ++
      checkPeerMaps candidate base at_ ++
      checkField candidate base at_ ["timers", "connect"] (validatorRange · 1 65535)
        (fun _ => ["BGP connect timer must be between 0 and 65535."]) ++
      checkField candidate base at_ ["timers", "holdtime"] (validatorRange · 1 65535)
        (fun _ => ["Holdtime interval must be 0 or between 4 and 65535."]) ++
      checkField candidate base at_ ["timers", "keepalive"] (validatorRange · 1 65535)
        (fun _ => ["Keepalive interval must be between 1 and 65535."]) ++
      checkPeerRest go candidate base at_

/-- `quaggaConfigValidBgpNeighbors`. -/
def quaggaConfigValidBgpNeighbors (asNum : Option String) : List Failure :=
  withAsNum asNum fun as =>
    (candidate.values ["protocols", "bgp", as, "neighbor"]).flatMap
      (quaggaConfigValidBgpNeighbor go candidate asNum)

/-- `quaggaConfigValidBgpPeerGroup`. -/
def quaggaConfigValidBgpPeerGroup (asNum : Option String) (peerGroup : String) : List Failure :=
  withAsNum asNum fun asNum =>
    let base := ["protocols", "bgp", asNum, "peer-group", peerGroup]
    let at_ := ["protocols bgp", asNum, "peer-group", peerGroup]
    checkRemoteAs candidate base at_ ++
    checkPeerLists candidate base at_ ++
    checkPeerLimits candidate base at_ asNum ++
    checkPeerMaps candidate base at_ ++
    checkPeerRest go candidate base at_

/-- `quaggaConfigValidBgpPeerGroups`. -/
def quaggaConfigValidBgpPeerGroups (asNum : Option String) : List Failure :=
  withAsNum asNum fun as =>
    (candidate.values ["protocols", "bgp", as, "peer-group"]).flatMap
      (quaggaConfigValidBgpPeerGroup go candidate asNum)

/-- `quaggaConfigValidBgpAggregateAddresses`: an aggregate has to be an address. -/
def quaggaConfigValidBgpAggregateAddresses (asNum : Option String) : List Failure :=
  withAsNum asNum fun asNum =>
    (candidate.values ["protocols", "bgp", asNum, "aggregate-address"]).flatMap (fun s =>
      failIf (!validatorIPv4Address go s) []) ++
    (candidate.values ["protocols", "bgp", asNum, "address-family", "ipv6-unicast",
      "aggregate-address"]).flatMap fun s => failIf (!validatorIPv6Address go s) []

/-- The networks of an address family and their route-maps. -/
def checkNetworks (base : List String) (isCIDR : String → Bool) : List Failure :=
  (candidate.values (base ++ ["network"])).flatMap fun network =>
    failIf (!isCIDR network) [] ++
    checkValue (candidate.value (base ++ ["network", network, "route-map"]))
      (validatorExistsRouteMap candidate) fun _ => []

/-- `quaggaConfigValidBgpNetworks`. -/
def quaggaConfigValidBgpNetworks (asNum : Option String) : List Failure :=
  withAsNum asNum fun asNum =>
    checkNetworks candidate ["protocols", "bgp", asNum] (validatorIPv4CIDR go) ++
    checkNetworks candidate ["protocols", "bgp", asNum, "address-family", "ipv6-unicast"]
      (validatorIPv6CIDR go)

/-- Values that have to be there all or not at all. -/
def someMissing (vs : List (Option String)) : Bool := vs.any Option.isSome && vs.any Option.isNone

/-- `quaggaConfigValidBgpParameterses`. -/
def quaggaConfigValidBgpParameterses (asNum : Option String) : List Failure :=
  withAsNum asNum fun asNum =>
    let base := ["protocols", "bgp", asNum]
    let at_ := ["protocols bgp", asNum]
    let parameter := fun words => checkField candidate base at_ ("parameters" :: words)
    let value := fun words => candidate.value (base ++ "parameters" :: words)
    parameter ["cluster-id"] (validatorIPv4Address go) (fun _ => ["cluster-id format error."]) ++
    parameter ["confederation", "identifier"] (validatorRange · 1 4294967294)
      (fun _ => ["confederation AS id must be between 1 and 4294967294."]) ++
    (candidate.values (base ++ ["parameters", "confederation", "peers"])).flatMap (fun peer =>
      failIf (!validatorRange peer 1 4294967294)
        [at_ ++ ["parameters confederation peers", peer],
          ["confederation AS id must be between 1 and 4294967294."]] ++
      failIf (!validatorConfediBGPASNCheck candidate peer asNum)
        [at_ ++ ["parameters confederation peers", peer],
          ["Can't set confederation peers ASN to", peer, "."],
          ["Delete any neighbors with remote-as", peer, "and/or change the local ASN first."]]) ++
    parameter ["dampening", "half-life"] (validatorRange · 1 45)
      (fun _ => ["Half-life penalty must be between 1 and 45."]) ++
    parameter ["dampening", "max-suppress-time"] (validatorRange · 1 255)
      (fun _ => ["Max-suppress-time must be between 1 and 255."]) ++
    parameter ["dampening", "re-use"] (validatorRange · 1 20000)
      (fun _ => ["Re-use value must be between 1 and 20000."]) ++
    parameter ["dampening", "start-suppress-time"] (validatorRange · 1 20000)
      (fun _ => ["Start-suppress-time must be between 1 and 20000."]) ++
    failIf (someMissing [value ["dampening", "half-life"], value ["dampening", "max-suppress-time"],
        value ["dampening", "re-use"], value ["dampening", "start-suppress-time"]])
      [at_ ++ ["parameters dampening"],
        ["you must set a half-life, max-suppress-time, re-use, start-suppress-time."]] ++
    parameter ["default", "local-pref"] (validatorRange · 0 4294967295)
      (fun _ => ["default local-pref format error."]) ++
    parameter ["distance", "global", "external"] (validatorRange · 1 255)
      (fun _ => ["Must be between 1-255."]) ++
    parameter ["distance", "global", "internal"] (validatorRange · 1 255)
      (fun _ => ["Must be between 1-255."]) ++
    parameter ["distance", "global", "local"] (validatorRange · 1 255)
      (fun _ => ["Must be between 1-255."]) ++
    failIf (someMissing [value ["distance", "global", "external"],
        value ["distance", "global", "internal"], value ["distance", "global", "local"]])
      [at_ ++ ["parameters distance global"],
        ["you must set an external, internal, local distance."]] ++
    (candidate.values (base ++ ["parameters", "distance", "prefix"])).flatMap (fun distancePrefix =>
      let distance := candidate.value
        (base ++ ["parameters", "distance", "prefix", distancePrefix, "distance"])
      failIf (!validatorIPv4CIDR go distancePrefix)
        [at_ ++ ["parameters distance prefix", distancePrefix], ["format error."]] ++
      failIf (!distance.any (validatorRange · 1 255))
        [at_ ++ ["parameters distance prefix", distancePrefix, "distance", distance.getD ""],
          ["Must be between 1-255."]]) ++
    parameter ["graceful-restart", "stalepath-time"] (validatorRange · 1 3600)
      (fun _ => ["stalepath-time must be between 1 and 3600."]) ++
    parameter ["router-id"] (validatorIPv4Address go) (fun _ => ["format error."]) ++
    parameter ["scan-time"] (validatorRange · 5 60)
      (fun _ => ["scan-time must be between 5 and 60 seconds."])

/-- The metric and the route-map of what is redistributed. -/
def checkRedistribute (base at_ words : List String) : List Failure :=
  checkField candidate base at_ (words ++ ["metric"]) (validatorRange · 0 4294967295)
    (fun _ => ["metric format error."]) ++
  checkField candidate base at_ (words ++ ["route-map"]) (validatorExistsRouteMap candidate)
    (fun _ => ["route-map not found."])

/-- `quaggaConfigValidBgpRedistributes`: neither ripng nor rip is looked at. -/
def quaggaConfigValidBgpRedistributes (asNum : Option String) : List Failure :=
  withAsNum asNum fun asNum =>
    ["connected", "kernel", "ospfv3", "static"].flatMap (fun source =>
      checkRedistribute candidate ["protocols", "bgp", asNum] ["protocols bgp", asNum]
        (ipv6Unicast ++ ["redistribute", source])) ++
    ["connected", "kernel", "ospf", "static"].flatMap fun source =>
      checkRedistribute candidate ["protocols", "bgp", asNum] ["protocols bgp", asNum]
        ["redistribute", source]

/-- `quaggaConfigValidBgpMaximumPathses`. -/
def quaggaConfigValidBgpMaximumPathses (asNum : Option String) : List Failure :=
  withAsNum asNum fun asNum =>
    let maximumPaths := fun word =>
      checkField candidate ["protocols", "bgp", asNum] ["protocols bgp", asNum] ["maximum-paths", word]
        (validatorRange · 1 255) fun _ => ["Must be between (1-255)."]
    maximumPaths "ebgp" ++ maximumPaths "ibgp"

/-- `quaggaConfigValidBgpTimerses`. -/
def quaggaConfigValidBgpTimerses (asNum : Option String) : List Failure :=
  withAsNum asNum fun asNum =>
    checkField candidate ["protocols", "bgp", asNum] ["protocols bgp", asNum] ["timers", "holdtime"]
      (fun s => validatorRange s 0 0 || validatorRange s 4 65535)
      (fun _ => ["hold-time interval must be 0 or between 4 and 65535."]) ++
    checkField candidate ["protocols", "bgp", asNum] ["protocols bgp", asNum] ["timers", "keepalive"]
      (validatorRange · 1 65535) fun _ => ["Keepalive interval must be between 1 and 65535."]

/-- `quaggaConfigValidBgp`. -/
def quaggaConfigValidBgp : List Failure :=
  let asNums := candidate.values ["protocols", "bgp"]
  if asNums.length = 0 then []
  else if 1 < asNums.length then
    [asNums.map (fun asNum => ["protocols bgp", asNum]) ++ [["Multiple BGP can not be set."]]]
  else
    let asNum := candidate.value ["protocols", "bgp"]
    quaggaConfigValidBgpAsNum asNum ++ quaggaConfigValidBgpNeighbors go candidate asNum ++
    quaggaConfigValidBgpPeerGroups go candidate asNum ++
    quaggaConfigValidBgpAggregateAddresses go candidate asNum ++
    quaggaConfigValidBgpNetworks go candidate asNum ++
    quaggaConfigValidBgpParameterses go candidate asNum ++
    quaggaConfigValidBgpRedistributes candidate asNum ++
    quaggaConfigValidBgpMaximumPathses candidate asNum ++
    quaggaConfigValidBgpTimerses candidate asNum

end OpenConfigd.Quaggad
