import OpenConfigd.Quaggad.Node

/-!
# The policy lists of quaggad

The six kinds of lists below `policy`: access-list, access-list6, as-path-list,
community-list, prefix-list and prefix-list6, each with its rules as the tree has them
(`makeQuagga…Rule`), the check of a list (`quaggaConfigValid…`) and the commands that
make the routing daemon have it (`quaggaConfigCommit…`). The commands of the six kinds
are made by the same code around the text of one rule (`Kind.ruleText`).
-/

namespace OpenConfigd.Quaggad

/-- A kind of policy list. -/
inductive Kind where
  | accessList | accessList6 | asPathList | communityList | prefixList | prefixList6
  deriving DecidableEq, Repr

namespace Kind

/-- The label below `policy`. -/
def label : Kind → String
  | accessList => "access-list"
  | accessList6 => "access-list6"
  | asPathList => "as-path-list"
  | communityList => "community-list"
  | prefixList => "prefix-list"
  | prefixList6 => "prefix-list6"

/-- The words of the kind in a command of the routing daemon. -/
def command : Kind → String
  | accessList => "access-list "
  | accessList6 => "ipv6 access-list "
  | asPathList => "ip as-path access-list "
  | communityList => "ip community-list "
  | prefixList => "ip prefix-list "
  | prefixList6 => "ipv6 prefix-list "

end Kind

variable (go : Go) (config : Node)

/-- The path of a rule. -/
def rulePath (label name rule : String) : List String := ["policy", label, name, "rule", rule]

/-- The action of a rule is one of the two. -/
def isAction (s : String) : Bool := validatorInclude s ["permit", "deny"]

/-- What every check of a rule starts with: its number, and that it is there. -/
def checkRule {ρ : Type} (label name rule : String) (r : Option ρ) (check : ρ → List Failure) :
    List Failure :=
  let at_ := ["policy " ++ label, name, "rule", rule]
  if !validatorRange rule 1 65535 then [[at_, ["rule number must be between 1 and 65535."]]]
  else
    match r with
    | none => [[at_, ["rule not found."]]]
    | some r => check r

/-- The check of an action, which has to be there. -/
def checkAction (at_ : List String) (action : Option String) : List Failure :=
  failIf (!action.any isAction)
    [at_ ++ ["action", action.getD ""], ["action must be permit or deny."]]

/-! ## access-list -/

/-- `quaggaAccessListRule`. -/
structure AccessListRule where
  action : Option String
  dstAny : Bool
  dstHost : Option String
  dstInverseMask : Option String
  dstNetwork : Option String
  srcAny : Bool
  srcHost : Option String
  srcInverseMask : Option String
  srcNetwork : Option String

/-- `makeQuaggaAccessListRule`. -/
def makeQuaggaAccessListRule (accessList rule : String) : Option AccessListRule :=
  let base := rulePath "access-list" accessList rule
  (config.lookup base).map fun _ =>
    { action := config.value (base ++ ["action"])
      dstAny := (config.lookup (base ++ ["destination", "any"])).isSome
      dstHost := config.value (base ++ ["destination", "host"])
      dstInverseMask := config.value (base ++ ["destination", "inverse-mask"])
      dstNetwork := config.value (base ++ ["destination", "network"])
      srcAny := (config.lookup (base ++ ["source", "any"])).isSome
      srcHost := config.value (base ++ ["source", "host"])
      srcInverseMask := config.value (base ++ ["source", "inverse-mask"])
      srcNetwork := config.value (base ++ ["source", "network"]) }

/-- The numbers of access-lists that match destinations. -/
def isExtended (accessList : String) : Bool :=
  validatorRange accessList 100 199 || validatorRange accessList 2000 2699

/-- `quaggaConfigValidAccessListRule`. -/
def quaggaConfigValidAccessListRule (accessList rule : String) : List Failure :=
  checkRule "access-list" accessList rule (makeQuaggaAccessListRule config accessList rule) fun r =>
    let at_ := ["policy access-list", accessList, "rule", rule]
    let srcMatches := r.srcAny.toNat + r.srcHost.isSome.toNat + r.srcNetwork.isSome.toNat
    let dstMatches := r.dstAny.toNat + r.dstHost.isSome.toNat + r.dstNetwork.isSome.toNat
    let oneFilter := ["you may only define one filter type (host|network|any)."]
    checkAction at_ r.action ++
    checkValue r.srcHost (validatorIPv4Address go) (fun s =>
      [at_ ++ ["source host", s], ["source host format error."]]) ++
    checkValue r.srcInverseMask (validatorIPv4Address go) (fun s =>
      [at_ ++ ["source inverse-mask", s], ["source inverse-mask format error."]]) ++
    checkValue r.srcNetwork (validatorIPv4Address go) (fun s =>
      [at_ ++ ["source network", s], ["source network format error."]]) ++
    failIf (srcMatches == 0) [at_ ++ ["source"], oneFilter] ++
    failIf (1 < srcMatches) [at_ ++ ["source"], oneFilter] ++
    failIf (r.srcNetwork.isSome && r.srcInverseMask.isNone)
      [at_ ++ ["source"], ["you must specify an inverse-mask if you configure a network."]] ++
    failIf (r.srcNetwork.isNone && r.srcInverseMask.isSome)
      [at_ ++ ["source"], ["you must specify a network if you configure an inverse mask."]] ++
    checkValue r.dstHost (validatorIPv4Address go) (fun s =>
      [at_ ++ ["destination host", s], ["destination host format error."]]) ++
    checkValue r.dstInverseMask (validatorIPv4Address go) (fun s =>
      [at_ ++ ["destination inverse-mask", s], ["destination inverse-mask format error."]]) ++
    checkValue r.dstNetwork (validatorIPv4Address go) (fun s =>
      [at_ ++ ["destination network", s], ["destination network format error."]]) ++
    failIf (0 < dstMatches && !isExtended accessList)
      [at_ ++ ["destination"],
        ["access-list number must be <100-199> or <2000-2699> to set destination matches."]] ++
    failIf (dstMatches == 0 && isExtended accessList) [at_ ++ ["destination"], oneFilter] ++
    failIf (1 < dstMatches) [at_ ++ ["destination"], oneFilter] ++
    failIf (r.dstNetwork.isSome && r.dstInverseMask.isNone)
      [at_ ++ ["destination"], ["you must specify an inverse-mask if you configure a network."]] ++
    failIf (r.dstNetwork.isNone && r.dstInverseMask.isSome)
      [at_ ++ ["destination"], ["you must specify a network if you configure an inverse mask."]]

/-- `quaggaConfigValidAccessList`. -/
def quaggaConfigValidAccessList (accessList : String) : List Failure :=
  if !validatorRange accessList 1 199 && !validatorRange accessList 1300 2699 then
    [[["policy access-list", accessList],
      ["Access list number must be:"],
      ["<1-99>      IP standard access list"],
      ["<100-199>   IP extended access list"],
      ["<1300-1999> IP standard access list (expanded range)"],
      ["<2000-2699> IP extended access list (expanded range)"]]]
  else
    (config.values ["policy", "access-list", accessList, "rule"]).flatMap
      (quaggaConfigValidAccessListRule go config accessList)

/-- The text of an address: any, a host, or a network with its mask. -/
def addressText (any : Bool) (host network inverseMask : Option String) : String :=
  if any then " any"
  else
    match host, network, inverseMask with
    | some host, _, _ => " host " ++ host
    | none, some network, some mask => " " ++ network ++ " " ++ mask
    | none, _, _ => ""

/-- The command of a rule in `quaggaConfigCommitAccessList`. -/
def accessListText (accessList rule : String) : Option String := do
  let r ← makeQuaggaAccessListRule config accessList rule
  let action ← r.action.filter isAction
  let src := addressText r.srcAny r.srcHost r.srcNetwork r.srcInverseMask
  let ip := if isExtended accessList then " ip" else ""
  let dst :=
    if isExtended accessList then addressText r.dstAny r.dstHost r.dstNetwork r.dstInverseMask else ""
  return " " ++ action ++ ip ++ src ++ dst

/-! ## access-list6 -/

/-- `quaggaAccessList6Rule`. -/
structure AccessList6Rule where
  action : Option String
  srcAny : Bool
  srcExactMatch : Bool
  srcNetwork : Option String

/-- `makeQuaggaAccessList6Rule`. -/
def makeQuaggaAccessList6Rule (accessList6 rule : String) : Option AccessList6Rule :=
  let base := rulePath "access-list6" accessList6 rule
  (config.lookup base).map fun _ =>
    { action := config.value (base ++ ["action"])
      srcAny := (config.lookup (base ++ ["source", "any"])).isSome
      srcExactMatch := (config.lookup (base ++ ["source", "exact-match"])).isSome
      srcNetwork := config.value (base ++ ["source", "network"]) }

/-- `quaggaConfigValidAccessList6Rule`. -/
def quaggaConfigValidAccessList6Rule (accessList6 rule : String) : List Failure :=
  checkRule "access-list6" accessList6 rule (makeQuaggaAccessList6Rule config accessList6 rule) fun r =>
    let at_ := ["policy access-list6", accessList6, "rule", rule]
    let srcMatches := r.srcAny.toNat + r.srcNetwork.isSome.toNat
    let oneFilter := ["you may only define one filter type (network|any)."]
    checkAction at_ r.action ++
    checkValue r.srcNetwork (validatorIPv6CIDR go) (fun s =>
      [at_ ++ ["source network", s], ["source network format error."]]) ++
    failIf (srcMatches == 0) [at_ ++ ["source"], oneFilter] ++
    failIf (1 < srcMatches) [at_ ++ ["source"], oneFilter]

/-- `quaggaConfigValidAccessList6`. The first character of an empty name is looked at
before the name has been given up, which ends the process. -/
def quaggaConfigValidAccessList6 (accessList6 : String) : Option (List Failure) :=
  let at_ := ["policy access-list6", accessList6]
  match accessList6.toList with
  | [] => none
  | c :: _ =>
    some
      (failIf (accessList6.utf8ByteSize < 1 || 64 < accessList6.utf8ByteSize)
        [at_, ["access-list name must be 64 characters or less."]] ++
      failIf (c == '-') [at_, ["access-list name cannot start with \"-\"."]] ++
      failIf (accessList6.toList.any (['|', ';', '&', '$', '<', '>'].contains ·))
        [at_, ["access-list name cannot contain shell punctuation."]] ++
      (config.values ["policy", "access-list6", accessList6, "rule"]).flatMap
        (quaggaConfigValidAccessList6Rule go config accessList6))

/-- The command of a rule in `quaggaConfigCommitAccessList6`. -/
def accessList6Text (accessList6 rule : String) : Option String := do
  let r ← makeQuaggaAccessList6Rule config accessList6 rule
  let action ← r.action.filter isAction
  let src :=
    if r.srcAny then " any"
    else
      match r.srcNetwork with
      | some network => " " ++ network ++ (if r.srcExactMatch then " exact-match" else "")
      | none => ""
  return " " ++ action ++ src

/-! ## as-path-list and community-list -/

/-- `quaggaAsPathListRule`, `quaggaCommunityListRule`. -/
structure RegexRule where
  action : Option String
  regex : Option String

/-- The rule of a list of regular expressions. -/
def makeRegexRule (label name rule : String) : Option RegexRule :=
  let base := rulePath label name rule
  (config.lookup base).map fun _ =>
    { action := config.value (base ++ ["action"])
      regex := config.value (base ++ ["regex"]) }

/-- `makeQuaggaAsPathListRule`. -/
def makeQuaggaAsPathListRule := makeRegexRule config "as-path-list"

/-- `makeQuaggaCommunityListRule`. -/
def makeQuaggaCommunityListRule := makeRegexRule config "community-list"

/-- `quaggaConfigValidAsPathListRule`. -/
def quaggaConfigValidAsPathListRule (asPathList rule : String) : List Failure :=
  checkRule "as-path-list" asPathList rule (makeQuaggaAsPathListRule config asPathList rule) fun r =>
    let at_ := ["policy as-path-list", asPathList, "rule", rule]
    checkAction at_ r.action ++
    failIf r.regex.isNone [at_ ++ ["regex"], ["you must specify a regex."]]

/-- `quaggaConfigValidAsPathList`. -/
def quaggaConfigValidAsPathList (asPathList : String) : List Failure :=
  failIf (!isName asPathList)
    [["policy as-path-list", asPathList], ["as-path-list name must be alpha-numeric."]] ++
  (config.values ["policy", "as-path-list", asPathList, "rule"]).flatMap
    (quaggaConfigValidAsPathListRule config asPathList)

/-- The regular expression of standard community lists. -/
def isStandardCommunity (s : String) : Bool :=
  validatorInclude s ["internet", "local-AS", "no-advertise", "no-export"] || isPair s.toList

/-- `quaggaConfigValidCommunityListRule`: the number of the rule, not that of the list,
says whether it is a standard one. -/
def quaggaConfigValidCommunityListRule (communityList rule : String) : List Failure :=
  checkRule "community-list" communityList rule (makeQuaggaCommunityListRule config communityList rule)
    fun r =>
      let at_ := ["policy community-list", communityList, "rule", rule]
      checkAction at_ r.action ++
      failIf r.regex.isNone [at_ ++ ["regex"], ["you must specify a regex."]] ++
      checkValue (if validatorRange rule 1 99 then r.regex else none) isStandardCommunity (fun s =>
        [at_ ++ ["regex", s], ["regex", s, "is invalid for a standard community list."]])

/-- `quaggaConfigValidCommunityList`. -/
def quaggaConfigValidCommunityList (communityList : String) : List Failure :=
  failIf (!validatorRange communityList 1 500)
    [["policy community-list", communityList],
      ["community-list must be:"],
      ["<1-99>    BGP community list (standard)"],
      ["<100-500> BGP community list (expanded)"]] ++
  (config.values ["policy", "community-list", communityList, "rule"]).flatMap
    (quaggaConfigValidCommunityListRule config communityList)

/-- The command of a rule in `quaggaConfigCommitAsPathList` and
`quaggaConfigCommitCommunityList`. -/
def regexText (r : Option RegexRule) : Option String := do
  let r ← r
  let action ← r.action.filter isAction
  let regex ← r.regex
  return " " ++ action ++ " " ++ regex

/-! ## prefix-list and prefix-list6 -/

/-- `quaggaPrefixListRule`, `quaggaPrefixList6Rule`. -/
structure PrefixRule where
  action : Option String
  ge : Option String
  le : Option String
  ipPrefix : Option String

/-- The rule of a list of prefixes. -/
def makePrefixRule (label name rule : String) : Option PrefixRule :=
  let base := rulePath label name rule
  (config.lookup base).map fun _ =>
    { action := config.value (base ++ ["action"])
      ge := config.value (base ++ ["ge"])
      le := config.value (base ++ ["le"])
      ipPrefix := config.value (base ++ ["prefix"]) }

/-- `makeQuaggaPrefixListRule`. -/
def makeQuaggaPrefixListRule := makePrefixRule config "prefix-list"

/-- `makeQuaggaPrefixList6Rule`. -/
def makeQuaggaPrefixList6Rule := makePrefixRule config "prefix-list6"

/-- The check of a rule of prefixes of a family. -/
def checkPrefixRule (label : String) (isCIDR : String → Bool) (name rule : String) : List Failure :=
  checkRule label name rule (makePrefixRule config label name rule) fun r =>
    let at_ := ["policy " ++ label, name, "rule", rule]
    checkAction at_ r.action ++
    checkValue r.le (validatorRange · 0 32) (fun s =>
      [at_ ++ ["le", s], ["le must be between 0 and 32."]]) ++
    checkValue r.ge (validatorRange · 0 32) (fun s =>
      [at_ ++ ["ge", s], ["ge must be between 0 and 32."]]) ++
    failIf (!r.ipPrefix.any isCIDR)
      [at_ ++ ["prefix", r.ipPrefix.getD ""], ["you must specify a prefix."]]

/-- `quaggaConfigValidPrefixListRule`. -/
def quaggaConfigValidPrefixListRule := checkPrefixRule config "prefix-list" (validatorIPv4CIDR go)

/-- `quaggaConfigValidPrefixList6Rule`: the lengths go up to 32 here too. -/
def quaggaConfigValidPrefixList6Rule := checkPrefixRule config "prefix-list6" (validatorIPv6CIDR go)

/-- `quaggaConfigValidPrefixList`. -/
def quaggaConfigValidPrefixList (prefixList : String) : List Failure :=
  failIf (!isName prefixList)
    [["policy prefix-list", prefixList], ["prefix-list name must be alpha-numeric."]] ++
  (config.values ["policy", "prefix-list", prefixList, "rule"]).flatMap
    (quaggaConfigValidPrefixListRule go config prefixList)

/-- `quaggaConfigValidPrefixList6`. -/
def quaggaConfigValidPrefixList6 (prefixList6 : String) : List Failure :=
  failIf (!isName prefixList6)
    [["policy prefix-list6", prefixList6], ["prefix-list6 name must be alpha-numeric."]] ++
  (config.values ["policy", "prefix-list6", prefixList6, "rule"]).flatMap
    (quaggaConfigValidPrefixList6Rule go config prefixList6)

/-- The command of a rule of prefixes whose lengths go up to `max`. -/
def prefixText (isCIDR : String → Bool) (max : Int) (rule : String) (r : Option PrefixRule) :
    Option String := do
  let r ← r
  let action ← r.action.filter isAction
  let ipPrefix ← r.ipPrefix.filter isCIDR
  let length (word : String) (v : Option String) : Option String :=
    match v with
    | none => some ""
    | some s => if validatorRange s 0 max then some (word ++ s) else none
  let ge ← length " ge " r.ge
  let le ← length " le " r.le
  return " seq " ++ rule ++ " " ++ action ++ " " ++ ipPrefix ++ ge ++ le

/-! ## The commands of a list -/

/-- The command of a rule after the words of its kind and the name of the list, in
`quaggaConfigCommitAccessList`, `quaggaConfigCommitAccessList6`,
`quaggaConfigCommitAsPathList`, `quaggaConfigCommitCommunityList`,
`quaggaConfigCommitPrefixList` and `quaggaConfigCommitPrefixList6`; nothing for a rule
that they leave out. -/
def Kind.ruleText : Kind → String → String → Option String
  | accessList, name, rule => accessListText config name rule
  | accessList6, name, rule => accessList6Text config name rule
  | asPathList, name, rule => regexText (makeQuaggaAsPathListRule config name rule)
  | communityList, name, rule => regexText (makeQuaggaCommunityListRule config name rule)
  | prefixList, name, rule =>
    prefixText (validatorIPv4CIDR go) 32 rule (makeQuaggaPrefixListRule config name rule)
  | prefixList6, name, rule =>
    prefixText (validatorIPv6CIDR go) 128 rule (makeQuaggaPrefixList6Rule config name rule)

/-- A call of `quaggaVtysh`: a list is removed, a rule added to one, or other lines. -/
inductive Vtysh where
  | no (kind : Kind) (name : String)
  | add (kind : Kind) (name text : String)
  | lines (cmds : List String)
  deriving DecidableEq, Repr

/-- The commands of a call. -/
def Vtysh.cmds : Vtysh → List String
  | no kind name => ["configure terminal", "no " ++ kind.command ++ name]
  | add kind name text => ["configure terminal", kind.command ++ name ++ text]
  | lines cmds => cmds

/-- `RuleSlice.Less`. -/
def ruleLess (a b : String) : Bool :=
  match atoi a, atoi b with
  | some i, some j => i < j
  | _, _ => false

/-- `quaggaRuleSort`. -/
def quaggaRuleSort (rules : List String) : List String := go.sort ruleLess rules

/-- `quaggaConfigCommitAccessList` and the like: the list is removed and its rules added
again in the order of their numbers. -/
def quaggaConfigCommitList (time : Nat) (candidate : Node) (kind : Kind) (name : String) : List Vtysh :=
  let rules := quaggaRuleSort go (go.range time (candidate.values ["policy", kind.label, name, "rule"]))
  .no kind name :: (rules.filterMap (kind.ruleText go candidate name)).map (.add kind name)

/-- `quaggaConfigCommitAccessLists` and the like: the lists that are no longer there, then
those that differ. -/
def quaggaConfigCommitLists (time : Nat) (candidate running : Node) (kind : Kind) : List Vtysh :=
  ((go.range time (running.values ["policy", kind.label])).filter fun name =>
      (candidate.lookup ["policy", kind.label, name]).isNone).map (.no kind) ++
  ((go.range time (candidate.values ["policy", kind.label])).filter fun name =>
      quaggaConfigStateDiff candidate running ["policy", kind.label, name]).flatMap
    (quaggaConfigCommitList go time candidate kind)

end OpenConfigd.Quaggad
