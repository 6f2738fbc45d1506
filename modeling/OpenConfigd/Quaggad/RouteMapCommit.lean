import OpenConfigd.Quaggad.RouteMap

/-!
# The commit of the route-maps

`quaggaConfigCommitRouteMap` enters each rule of the candidate and sends the fields that have
changed, each in a call of `quaggaVtysh` of its own. Its blocks for the fields are alike but
for their words (`blocks`).
-/

namespace OpenConfigd.Quaggad

/-- A line below a rule: the words of a command, and its arguments. -/
structure Line where
  command : String
  args : List String := []
  deriving DecidableEq, Repr

/-- The text of a line. -/
def Line.text (l : Line) : String := " ".intercalate (l.command :: l.args)

/-- What a call of `quaggaVtysh` is about, and for a rule its action: the rule is removed, or
entered, and then a line sent. -/
inductive RouteMapCall where
  | noRouteMap (routeMap : String)
  | noRule (routeMap rule action : String)
  | rule (routeMap rule action : String) (line : Option Line)
  deriving DecidableEq, Repr

/-- The commands of a call. -/
def RouteMapCall.cmds : RouteMapCall → List String
  | noRouteMap routeMap => ["configure terminal", "no route-map " ++ routeMap]
  | noRule routeMap rule_ action =>
    ["configure terminal", "no route-map " ++ routeMap ++ " " ++ action ++ " " ++ rule_]
  | rule routeMap rule_ action line =>
    ["configure terminal", "route-map " ++ routeMap ++ " " ++ action ++ " " ++ rule_] ++
      (line.map Line.text).toList

/-- A block of `quaggaConfigCommitRouteMap`, by the words of the paths it reads, and the words of its
commands: of a field with a value, of one without, of a list with a condition, and of the aggregator. -/
inductive Block where
  | value (words : List String) (set unset : String)
  | flag (words : List String) (set unset : String)
  | list (words cond : List String) (set unset text : String)
  | aggregator (as_ ip : List String) (set unset : String)
  deriving DecidableEq, Repr

namespace Block

/-- The arguments of the command for a rule; nothing when the field is not set. -/
def read (r : RouteMapRule) : Block → Option (List String)
  | value words _ _ => (r.value words).map fun v => [v]
  | flag words _ _ => if r.has words then some [] else none
  | list words cond _ _ text => (r.value words).map fun v => v :: if r.has cond then [text] else []
  | aggregator as_ ip _ _ => (r.value as_).bind fun a => (r.value ip).map fun i => [a, i]

/-- The command that sets the field. -/
def set : Block → String
  | value _ set _ | flag _ set _ | list _ _ set _ _ | aggregator _ _ set _ => set

/-- The command that removes it. -/
def unset : Block → String
  | value _ _ unset | flag _ _ unset | list _ _ _ unset _ | aggregator _ _ _ unset => unset

/-- The lines of a block for the rule of the candidate and that of the running tree. -/
def lines (actionChanged : Bool) (rRunning : Option RouteMapRule) (rCandidate : RouteMapRule) :
    Block → List Line
  | value words set unset =>
    let old := rRunning.bind (·.value words)
    let new := rCandidate.value words
    if !actionChanged && old.isSome && old = new then []
    else if old.isSome && new.isNone then [⟨unset, []⟩]
    else (new.map fun v => ⟨set, [v]⟩).toList
  | flag words set unset =>
    if !actionChanged && rRunning.any (fun r => r.has words == rCandidate.has words) then []
    else if rRunning.any (·.has words) && !rCandidate.has words then [⟨unset, []⟩]
    else if rCandidate.has words then [⟨set, []⟩]
    else []
  | list words cond set unset text =>
    if !actionChanged && rRunning.any (fun r => r.has cond == rCandidate.has cond &&
        r.value words = rCandidate.value words) then []
    else
      (if rRunning.any (fun r => (r.value words).isSome) then [⟨unset, []⟩] else []) ++
        ((rCandidate.value words).map fun v => ⟨set, v :: if rCandidate.has cond then [text] else []⟩).toList
  | aggregator as_ ip set unset =>
    if !actionChanged && rRunning.any (fun r => r.value as_ = rCandidate.value as_ &&
        r.value ip = rCandidate.value ip) then []
    else
      (if rRunning.any (fun r => (r.value as_).isSome && (r.value ip).isSome) then [⟨unset, []⟩] else []) ++
        ((rCandidate.value as_).bind fun a => (rCandidate.value ip).map fun i => ⟨set, [a, i]⟩).toList

end Block

/-- The blocks of `quaggaConfigCommitRouteMap`. -/
def blocks : List Block := [
  .value ["call"] "call" "no call",
  .value ["continue"] "continue" "no continue",
  .value ["match", "as-path"] "match as-path" "no match as-path",
  .list ["match", "community", "community-list"] ["match", "community", "exact-match"]
    "match community" "no match community" "exact-match",
  .value ["match", "interface"] "match interface" "no match interface",
  .value ["match", "ip", "address", "access-list"] "match ip address" "no match ip address",
  .value ["match", "ip", "address", "prefix-list"] "match ip address prefix-list"
    "no match ip address prefix-list",
  .value ["match", "ip", "nexthop", "access-list"] "match ip nexthop" "no match ip nexthop",
  .value ["match", "ip", "nexthop", "prefix-list"] "match ip nexthop prefix-ist"
    "no match ip nexthop prefix-list",
  .value ["match", "ip", "route-source", "access-list"] "match ip route-source"
    "no match ip route-source",
  .value ["match", "ip", "route-source", "prefix-list"] "match ip route-source prefix-list"
    "no match ip route-source prefix-ist",
  .value ["match", "ipv6", "address", "access-list"] "match ipv6 address" "no match ipv6 address",
  .value ["match", "ipv6", "address", "prefix-list"] "match ipv6 address prefix-list"
    "no match ipv6 address prefix-list",
  .value ["match", "ipv6", "nexthop", "access-list"] "match ipv6 nexthop" "no match ipv6 nexthop",
  .value ["match", "ipv6", "nexthop", "prefix-list"] "match ipv6 nexthop prefix-list"
    "no match ipv6 nexthop prefix-list",
  .value ["match", "metric"] "match metric" "no match metric",
  .value ["match", "origin"] "match origin" "no match origin",
  .value ["match", "peer"] "match peer" "no match peer",
  .value ["match", "tag"] "match tag" "no match tag",
  .value ["on-match", "goto"] "on-match goto" "no on-match goto",
  .flag ["on-match", "next"] "on-match next" "no on-match next",
  .aggregator ["set", "aggregator", "as"] ["set", "aggregator", "ip"] "set aggregator as"
    "no set aggregator as",
  .value ["set", "as-path-prepend"] "set as-path prepend" "no set as-path prepend",
  .flag ["set", "atomic-aggregate"] "set atomic-aggregate" "no set atomic-aggregate",
  .list ["set", "comm-list", "comm-list"] ["set", "comm-list", "delete"] "set comm-list"
    "no set comm-list" "delete",
  .value ["set", "community"] "set community" "no set community",
  .value ["set", "ip-next-hop"] "set ip next-hop" "no set ip next-hop",
  .value ["set", "ipv6-next-hop", "global"] "set ipv6 next-hop global" "no set ipv6 next-hop global",
  .value ["set", "ipv6-next-hop", "local"] "set ipv6 next-hop local" "no set ipv6 next-hop local",
  .value ["set", "local-preference"] "set local-preference" "no set local-preference",
  .value ["set", "metric-type"] "set metric-type" "no set metric-type",
  .value ["set", "metric"] "set metric" "no set metric",
  .value ["set", "origin"] "set origin" "no set origin",
  .value ["set", "originator-id"] "set originator-id" "no set originator-id",
  .value ["set", "tag"] "set tag" "no set tag",
  .value ["set", "weight"] "set weight" "no set weight"]

variable (go : Go) (time : Nat) (candidate running : Node)

/-- The first loop of `quaggaConfigCommitRouteMap`: a rule that the candidate does not have. -/
def removeRule (routeMap rule : String) : List RouteMapCall :=
  if (candidate.lookup (rulePath "route-map" routeMap rule)).isSome then []
  else ((running.value (rulePath "route-map" routeMap rule ++ ["action"])).map
    fun action => .noRule routeMap rule action).toList

/-- The second one: a rule of the candidate. -/
def commitRule (routeMap rule : String) : List RouteMapCall :=
  let rRunning := makeQuaggaRouteMapRule running routeMap rule
  match makeQuaggaRouteMapRule candidate routeMap rule with
  | none => []
  | some rCandidate =>
    match rCandidate.value ["action"] with
    | none => []
    | some action =>
      if !isAction action then []
      else
        let actionChanged := (rRunning.bind (·.value ["action"])).any (· ≠ action)
        .rule routeMap rule action none ::
          (blocks.flatMap (Block.lines actionChanged rRunning rCandidate)).map fun l =>
            .rule routeMap rule action (some l)

/-- `quaggaConfigCommitRouteMap`. -/
def quaggaConfigCommitRouteMap (routeMap : String) : List RouteMapCall :=
  (go.range time (running.values ["policy", "route-map", routeMap, "rule"])).flatMap
      (removeRule candidate running routeMap) ++
    (quaggaRuleSort go (go.range time (candidate.values ["policy", "route-map", routeMap, "rule"]))).flatMap
      (commitRule candidate running routeMap)

/-- `quaggaConfigCommitRouteMaps`. -/
def quaggaConfigCommitRouteMaps : List RouteMapCall :=
  ((go.range time (running.values ["policy", "route-map"])).filter fun routeMap =>
      (candidate.lookup ["policy", "route-map", routeMap]).isNone).map .noRouteMap ++
    (go.range time (candidate.values ["policy", "route-map"])).flatMap fun routeMap =>
      if quaggaConfigStateDiff candidate running ["policy", "route-map", routeMap] then
        quaggaConfigCommitRouteMap go time candidate running routeMap
      else []

end OpenConfigd.Quaggad
