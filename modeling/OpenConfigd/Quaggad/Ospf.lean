import OpenConfigd.Quaggad.Bgp

/-!
# The check of OSPF, and of the whole candidate

What `quaggaConfigValidOspf` checks below `protocols ospf` and
`quaggaConfigValidInterfacesOspf` below each interface, and `quaggaConfigValid`, which is
all the checks of quaggad. Nothing is checked below `protocols ospfv3`.
-/

namespace OpenConfigd.Quaggad

variable (go : Go) (candidate : Node)

/-- A check of a number with the message of its bounds. -/
def checkNumber (base at_ words : List String) (min max : Int) (message : String) : List Failure :=
  checkField candidate base at_ words (validatorRange · min max) fun _ => [message]

/-- A check of a word that has to be one of some. -/
def checkInclude (base at_ words list : List String) (message : String) : List Failure :=
  checkField candidate base at_ words (validatorInclude · list) fun _ => [message]

/-- `quaggaConfigValidOspfAccessList`: that the access-list exists is not checked. -/
def quaggaConfigValidOspfAccessList (accessList : String) : List Failure :=
  let exports := candidate.values ["protocols", "ospf", "access-list", accessList, "export"]
  failIf (exports.length == 0)
    [["protocols ospf access-list", accessList], ["must add protocol to filter."]] ++
  exports.flatMap fun export_ =>
    failIf (!validatorInclude export_ ["bgp", "connected", "kernel", "rip", "static"])
      [["protocols ospf access-list", accessList, "export", export_],
        ["Must be (bgp, connected, kernel, rip, or static)."]]

/-- `quaggaConfigValidOspfAccessLists`. -/
def quaggaConfigValidOspfAccessLists : List Failure :=
  (candidate.values ["protocols", "ospf", "access-list"]).flatMap
    (quaggaConfigValidOspfAccessList candidate)

/-- `quaggaConfigValidOspfAreaNetwork`. -/
def quaggaConfigValidOspfAreaNetwork (area network : String) : List Failure :=
  failIf (!validatorIPv4CIDR go network)
    [["protocols ospf area", area, "network", network], ["format error."]]

/-- `quaggaConfigValidOspfAreaRange`. -/
def quaggaConfigValidOspfAreaRange (area range_ : String) : List Failure :=
  let base := ["protocols", "ospf", "area", area, "range", range_]
  let at_ := ["protocols ospf area", area, "range", range_]
  if !validatorIPv4CIDR go range_ then [[at_, ["format error."]]]
  else
    let cost := candidate.value (base ++ ["cost"])
    let substitute := candidate.value (base ++ ["substitute"])
    checkNumber candidate base at_ ["cost"] 0 16777215 "Metric must be between 0-16777215." ++
    checkField candidate base at_ ["substitute"] (validatorIPv4CIDR go) (fun _ => ["format error."]) ++
    failIf ((candidate.lookup (base ++ ["not-advertise"])).isSome && (cost.isSome || substitute.isSome))
      (cost.toList.map (fun s => at_ ++ ["cost", s]) ++
        substitute.toList.map (fun s => at_ ++ ["substitute", s]) ++
        [at_ ++ ["not-advertise"], ["Remove 'not-advertise' before setting cost or substitue."]])

/-- `quaggaConfigValidOspfAreaVirtualLink`. The password is written as a pointer. -/
def quaggaConfigValidOspfAreaVirtualLink (area virtualLink : String) : List Failure :=
  let base := ["protocols", "ospf", "area", area, "virtual-link", virtualLink]
  let at_ := ["protocols ospf area", area, "virtual-link", virtualLink]
  if !validatorIPv4Address go virtualLink then [[at_, ["format error."]]]
  else if area == "0" || area == "0.0.0.0" then
    [[at_, ["Can't configure VL over area", area, "."]]]
  else
    let keyIds := candidate.values (base ++ ["authentication", "md5", "key-id"])
    let plaintextPassword := candidate.value (base ++ ["authentication", "plaintext-password"])
    let interval := fun word => checkNumber candidate base at_ [word] 1 65535 "Must be between 1-65535."
    keyIds.flatMap (fun keyId =>
      failIf (!validatorRange keyId 1 255)
        [at_ ++ [" authentication md5 key-id ", keyId], ["ID must be between (1-255)."]] ++
      match candidate.value (base ++ ["authentication", "md5", "key-id", keyId, "md5-key"]) with
      | none =>
        [[at_ ++ ["authentication md5 key-id", keyId], ["Must add the md5-key for key-id", keyId, "."]]]
      | some key =>
        failIf (16 < key.utf8ByteSize)
          [at_ ++ ["authentication md5 key-id", keyId, "md5-key", key],
            ["MD5 key must be 16 characters or less."]]) ++
    checkValue plaintextPassword (fun s => s.utf8ByteSize ≤ 8) (fun s =>
      [at_ ++ ["authentication plaintext-password", go.pointer s],
        ["Password must be 8 characters or less."]]) ++
    checkValue (if 0 < keyIds.length then plaintextPassword else none) (fun _ => false) (fun s =>
      keyIds.map (fun keyId => at_ ++ ["authentication md5 key-id", keyId]) ++
        [at_ ++ ["authentication plaintext-password", go.pointer s], ["authentication already set."]]) ++
    interval "dead-interval" ++ interval "hello-interval" ++ interval "retransmit-interval" ++
    interval "transmit-delay"

/-- `quaggaConfigValidOspfArea`. -/
def quaggaConfigValidOspfArea (area : String) : List Failure :=
  let base := ["protocols", "ospf", "area", area]
  let at_ := ["protocols ospf area", area]
  if !validatorIPv4Address go area && !validatorRange area 0 4294967295 then
    [[at_, ["format error."]]]
  else
    let areaType := fun word => (candidate.lookup (base ++ ["area-type", word])).isSome
    failIf (1 < (areaType "normal").toNat + (areaType "nssa").toNat + (areaType "stub").toNat)
      [at_, ["you may only define one area type."]] ++
    checkNumber candidate base at_ ["area-type", "nssa", "default-cost"] 0 16777215
      "Cost must be between 0-16777215." ++
    checkInclude candidate base at_ ["area-type", "nssa", "translate"] ["always", "candidate", "never"]
      "Must be (always, candidate, or never)." ++
    checkNumber candidate base at_ ["area-type", "stub", "default-cost"] 0 16777215
      "Cost must be between 0-16777215." ++
    checkInclude candidate base at_ ["authentication"] ["plaintext-password", "md5"]
      "Must be either plaintext-password or md5." ++
    (candidate.values (base ++ ["network"])).flatMap (quaggaConfigValidOspfAreaNetwork go area) ++
    (candidate.values (base ++ ["range"])).flatMap (quaggaConfigValidOspfAreaRange go candidate area) ++
    checkInclude candidate base at_ ["shortcut"] ["default", "disable", "enable"]
      "Must be (default, disable, enable)." ++
    (candidate.values (base ++ ["virtual-link"])).flatMap
      (quaggaConfigValidOspfAreaVirtualLink go candidate area)

/-- `quaggaConfigValidOspfAreas`. -/
def quaggaConfigValidOspfAreas : List Failure :=
  (candidate.values ["protocols", "ospf", "area"]).flatMap (quaggaConfigValidOspfArea go candidate)

/-- `quaggaConfigValidOspfNeighbor`. -/
def quaggaConfigValidOspfNeighbor (neighbor : String) : List Failure :=
  let base := ["protocols", "ospf", "neighbor", neighbor]
  let at_ := ["protocols ospf neighbor", neighbor]
  if !validatorIPv4Address go neighbor then [[at_, ["format error."]]]
  else
    checkNumber candidate base at_ ["poll-interval"] 1 65535 "Must be between 1-65535 seconds." ++
    checkNumber candidate base at_ ["priority"] 0 255 "Priority must be between 0-255."

/-- `quaggaConfigValidOspfNeighbors`. -/
def quaggaConfigValidOspfNeighbors : List Failure :=
  (candidate.values ["protocols", "ospf", "neighbor"]).flatMap
    (quaggaConfigValidOspfNeighbor go candidate)

/-- The type of metric, the metric and the route-map of what OSPF redistributes. -/
def checkOspfRedistribute (source : String) : List Failure :=
  let base := ["protocols", "ospf"]
  let at_ := ["protocols ospf"]
  checkInclude candidate base at_ ["redistribute", source, "metric-type"] ["1", "2"]
    "metric-type must be either 1 or 2." ++
  checkNumber candidate base at_ ["redistribute", source, "metric"] 1 16
    "metric must be between 1 and 16." ++
  checkField candidate base at_ ["redistribute", source, "route-map"] (validatorExistsRouteMap candidate)
    fun s => ["route-map", s, "doesn't exist."]

/-- `quaggaConfigValidOspf`. -/
def quaggaConfigValidOspf : List Failure :=
  let number := checkNumber candidate ["protocols", "ospf"] ["protocols ospf"]
  let oneOf := checkInclude candidate ["protocols", "ospf"] ["protocols ospf"]
  let field := checkField candidate ["protocols", "ospf"] ["protocols ospf"]
  quaggaConfigValidOspfAccessLists candidate ++
  quaggaConfigValidOspfAreas go candidate ++
  number ["auto-cost", "reference-bandwidth"] 1 4294967 "Must be between 1-4294967." ++
  oneOf ["default-information", "originate", "metric-type"] ["1", "2"]
    "metric must be either 1 or 2." ++
  number ["default-information", "originate", "metric"] 0 16777214 "must be between 0-16777214." ++
  field ["default-information", "originate", "route-map"] (validatorExistsRouteMap candidate)
    (fun _ => ["route-map not found."]) ++
  number ["default-metric"] 0 16777214 "Must be between 0-16777214." ++
  number ["distance", "global"] 1 255 "Must be between 1-255." ++
  number ["distance", "ospf", "external"] 1 255 "Must be between 1-255." ++
  number ["distance", "ospf", "inter-area"] 1 255 "Must be between 1-255." ++
  number ["distance", "ospf", "intra-area"] 1 255 "Must be between 1-255." ++
  number ["max-metric", "router-lsa", "on-shutdown"] 5 86400 "must be between 5-86400 seconds." ++
  number ["max-metric", "router-lsa", "on-startup"] 5 86400 "must be between 5-86400 seconds." ++
  field ["mpls-te", "router-address"] (validatorIPv4Address go) (fun _ => ["format error."]) ++
  quaggaConfigValidOspfNeighbors go candidate ++
  oneOf ["parameters", "abr-type"] ["cisco", "ibm", "shortcut", "standard"]
    "Must be (cisco, ibm, shortcut, standard)." ++
  field ["parameters", "router-id"] (validatorIPv4Address go) (fun _ => ["format error."]) ++
  ["bgp", "connected", "kernel", "rip", "static"].flatMap (checkOspfRedistribute candidate) ++
  number ["refresh", "timers"] 10 1800 "must be between 10-1800." ++
  number ["timers", "throttle", "spf", "delay"] 0 600000 "must be between 0-600000." ++
  number ["timers", "throttle", "spf", "initial-holdtime"] 0 600000 "must be between 0-600000." ++
  number ["timers", "throttle", "spf", "max-holdtime"] 0 600000 "must be between 0-600000."

/-- `quaggaConfigValidInterfaceOspf`. -/
def quaggaConfigValidInterfaceOspf (interface : String) : List Failure :=
  let base := ["interfaces", "interface", interface, "ipv4", "ospf"]
  let at_ := ["interfaces interface", interface]
  let number := fun word => checkNumber candidate base (at_ ++ ["ipv4 ospf"]) [word]
  (candidate.values (base ++ ["authentication", "md5", "key-id"])).flatMap (fun keyId =>
    failIf (!validatorRange keyId 1 255)
      [at_ ++ ["ipv4 ospf authentication md5 key-id", keyId], ["ID must be between (1-255)."]] ++
    match candidate.value (base ++ ["authentication", "md5", "key-id", keyId, "md5-key"]) with
    | none =>
      [[at_ ++ ["ipv4 ospf authentication md5 key-id", keyId],
        ["Must add the md5-key for key-id", keyId, "."]]]
    | some key =>
      failIf (key.utf8ByteSize < 1 || 16 < key.utf8ByteSize)
        [at_ ++ ["ipv4 ospf authentication md5 key-id", keyId, " md5-key ", key],
          ["MD5 key must be 16 characters or less."]]) ++
  checkValue (candidate.value (base ++ ["authentication", "plaintext-password"]))
    (fun s => !(s.utf8ByteSize < 1 || 8 < s.utf8ByteSize))
    (fun s => [at_ ++ ["ipv4 ospf authentication plaintext-password", s],
      ["Password must be 8 characters or less."]]) ++
  number "bandwidth" 1 10000000 "Must be between 1-10000000." ++
  number "cost" 1 65535 "Must be between 1-65535." ++
  number "dead-interval" 1 65535 "Must be between 1-65535." ++
  number "hello-interval" 1 65535 "Must be between 1-65535." ++
  checkInclude candidate base (at_ ++ ["ipv4 ospf"]) ["network"]
    ["broadcast", "non-broadcast", "point-to-multipoint", "point-to-point"]
    "Must be (broadcast|non-broadcast|point-to-multipoint|point-to-point)." ++
  number "priority" 0 255 "Must be between 0-255." ++
  number "retransmit-interval" 3 65535 "Must be between 3-65535." ++
  number "transmit-delay" 1 65535 "Must be between 1-65535."

/-- `quaggaConfigValidInterfacesOspf`. -/
def quaggaConfigValidInterfacesOspf : List Failure :=
  (candidate.values ["interfaces", "interface"]).flatMap (quaggaConfigValidInterfaceOspf candidate)

/-- The checks of `quaggaConfigValid`; nothing when one of them ends the process. -/
def quaggaConfigFailures : Option (List Failure) := do
  let policy ← quaggaConfigValidPolicy go candidate
  return quaggaConfigValidInterfacesOspf candidate ++ policy ++
    quaggaConfigValidBgp go candidate ++ quaggaConfigValidOspf go candidate

/-- `quaggaConfigValid`. -/
def quaggaConfigValid : Option Bool := (quaggaConfigFailures go candidate).map List.isEmpty

end OpenConfigd.Quaggad
