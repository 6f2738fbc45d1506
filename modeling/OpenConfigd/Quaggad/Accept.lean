import OpenConfigd.Quaggad.Plain
import OpenConfigd.Quaggad.Rules

/-!
# What the checks of the policy lists accept

The check of a rule and the command that the commit makes of it were written apart.
`agree_iff` says for which rules they agree: an accepted rule has one command that has
all its fields (`Kind.fields`, `Kind.written`), and a rule that has such a command is
accepted. `validCommunityLists_iff` says for which candidates the check of the
community-lists is that of their numbers, their actions and the expressions of standard
lists.
-/

namespace OpenConfigd.Quaggad

variable {go : Go} {c : Node}

/-- A number in a range. -/
def InRange (s : String) (min max : Int) : Prop := ∃ i, atoi s = some i ∧ min ≤ i ∧ i ≤ max

theorem validatorRange_iff {s : String} {min max : Int} :
    validatorRange s min max = true ↔ InRange s min max := by
  rw [validatorRange, InRange]
  cases atoi s with
  | none => simp
  | some i => simp

theorem InRange.mono {s : String} {min max max' : Int} (h : InRange s min max) (hm : max ≤ max') :
    InRange s min max' := by
  obtain ⟨i, hi, hmin, hmax⟩ := h
  exact ⟨i, hi, hmin, hmax.trans hm⟩

/-! ## Community-lists -/

/-- A well-known community, or a number, a colon and a number. -/
def StandardRegex (s : String) : Prop :=
  s ∈ ["internet", "local-AS", "no-advertise", "no-export"] ∨
    ∃ a b : List Char, s.toList = a ++ ':' :: b ∧ (a ≠ [] ∧ ∀ x ∈ a, x.isDigit) ∧
      b ≠ [] ∧ ∀ x ∈ b, x.isDigit

theorem no_colon {a : List Char} (h : ∀ x ∈ a, x.isDigit) : ∀ x ∈ a, (x == ':') = false := by
  intro x hx
  cases hc : x == ':' with
  | false => rfl
  | true =>
    have := h x hx
    rw [eq_of_beq hc] at this
    exact absurd this (by decide)

theorem ne_colon {a : List Char} (h : ':' ∉ a) : ∀ x ∈ a, (x == ':') = false :=
  fun _ hx => beq_false_of_ne fun he => h (he ▸ hx)

theorem isPair_iff {s : List Char} : isPair s = true ↔
    ∃ a b : List Char, s = a ++ ':' :: b ∧ (a ≠ [] ∧ ∀ x ∈ a, x.isDigit) ∧ b ≠ [] ∧ ∀ x ∈ b, x.isDigit := by
  constructor
  · intro h
    by_cases hc : ':' ∈ s
    · obtain ⟨a, b, rfl, ha⟩ := List.eq_append_cons_of_mem hc
      rw [isPair, List.splitOnP_append_cons_of_forall_mem (ne_colon ha) ':' rfl] at h
      by_cases hb : ':' ∈ b
      · obtain ⟨b, d, rfl, hb'⟩ := List.eq_append_cons_of_mem hb
        rw [List.splitOnP_append_cons_of_forall_mem (ne_colon hb') ':' rfl] at h
        cases hd : d.splitOnP (· == ':') with
        | nil => exact absurd hd (List.splitOnP_ne_nil _ _)
        | cons e l => simp [hd] at h
      · rw [List.splitOnP_eq_singleton (ne_colon hb)] at h
        simp only [Bool.and_eq_true, Bool.not_eq_true', List.isEmpty_eq_false_iff, List.all_eq_true] at h
        exact ⟨a, b, rfl, ⟨h.1.1.1, h.1.2⟩, h.1.1.2, h.2⟩
    · rw [isPair, List.splitOnP_eq_singleton (ne_colon hc)] at h
      nomatch h
  · rintro ⟨a, b, rfl, ⟨ha, had⟩, hb, hbd⟩
    rw [isPair, List.splitOnP_append_cons_of_forall_mem (no_colon had) ':' rfl,
      List.splitOnP_eq_singleton (no_colon hbd)]
    simp only [Bool.and_eq_true, Bool.not_eq_true', List.isEmpty_eq_false_iff, List.all_eq_true]
    exact ⟨⟨⟨ha, hb⟩, had⟩, hbd⟩

theorem isStandardCommunity_iff {s : String} : isStandardCommunity s = true ↔ StandardRegex s := by
  rw [isStandardCommunity, Bool.or_eq_true, isPair_iff, StandardRegex]
  simp [validatorInclude]

/-- What is asked of every community-list. -/
def CommunityRules (c : Node) : Prop :=
  ∀ list ∈ c.values ["policy", "community-list"], InRange list 1 500 ∧
    ∀ rule ∈ c.values ["policy", "community-list", list, "rule"], InRange rule 1 65535 ∧
      (∃ action ∈ c.value (rulePath "community-list" list rule ++ ["action"]),
        action = "permit" ∨ action = "deny") ∧
      (c.value (rulePath "community-list" list rule ++ ["regex"])).isSome

/-- The rules that a condition picks have the expression of a standard list. -/
def StandardWhere (c : Node) (p : String → String → Prop) : Prop :=
  ∀ list ∈ c.values ["policy", "community-list"],
    ∀ rule ∈ c.values ["policy", "community-list", list, "rule"], p list rule →
      ∀ regex ∈ c.value (rulePath "community-list" list rule ++ ["regex"]), StandardRegex regex

instance (s : String) (min max : Int) : Decidable (InRange s min max) :=
  decidable_of_iff _ validatorRange_iff

instance (s : String) : Decidable (StandardRegex s) := decidable_of_iff _ isStandardCommunity_iff

instance (c : Node) : Decidable (CommunityRules c) :=
  inferInstanceAs (Decidable (∀ list ∈ c.values ["policy", "community-list"], _ ∧ ∀ rule ∈ _, _ ∧ _ ∧ _))

instance (c : Node) (p : String → String → Prop) [∀ list rule, Decidable (p list rule)] :
    Decidable (StandardWhere c p) :=
  inferInstanceAs (Decidable (∀ list ∈ c.values ["policy", "community-list"], ∀ rule ∈ _, _ → ∀ regex ∈ _, _))

theorem filter_isAction {action : Option String} : (∃ a, action.filter isAction = some a) ↔
    ∃ a ∈ action, a = "permit" ∨ a = "deny" := by
  cases action with
  | none => simp
  | some a =>
    cases ha : isAction a <;> simp_all [Option.filter, isAction, validatorInclude]

theorem checkRule_iff {ρ : Type} {label name rule : String} {o : Option ρ} {check : ρ → List Failure} :
    checkRule label name rule o check = [] ↔ ∃ r, o = some r ∧ InRange rule 1 65535 ∧ check r = [] := by
  rw [checkRule_eq_nil, validatorRange_iff]
  constructor
  · rintro ⟨hrange, r, hr, hcheck⟩
    exact ⟨r, hr, hrange, hcheck⟩
  · rintro ⟨r, hr, hrange, hcheck⟩
    exact ⟨hrange, r, hr, hcheck⟩

theorem validCommunityListRule_iff {list rule : String} :
    quaggaConfigValidCommunityListRule c list rule = [] ↔
      ∃ r, makeQuaggaCommunityListRule c list rule = some r ∧ (InRange rule 1 65535 ∧
        (∃ a, r.action.filter isAction = some a) ∧ r.regex.isSome) ∧
        (InRange rule 1 99 → ∀ regex ∈ r.regex, StandardRegex regex) := by
  refine checkRule_iff.trans (exists_congr fun r => and_congr_right fun _ => ?_)
  simp only [List.append_eq_nil_iff, checkAction_eq_nil, failIf_eq_nil, checkValue_eq_nil,
    Option.isNone_eq_false_iff, and_assoc]
  refine and_congr_right fun _ => and_congr_right fun _ => and_congr_right fun _ => ?_
  rw [← validatorRange_iff]
  cases validatorRange rule 1 99 <;> simp [isStandardCommunity_iff]

theorem validCommunityListRule_of_mem {list rule : String}
    (hr : rule ∈ c.values ["policy", "community-list", list, "rule"]) :
    quaggaConfigValidCommunityListRule c list rule = [] ↔ (InRange rule 1 65535 ∧
      (∃ action ∈ c.value (rulePath "community-list" list rule ++ ["action"]),
        action = "permit" ∨ action = "deny") ∧
      (c.value (rulePath "community-list" list rule ++ ["regex"])).isSome) ∧
      (InRange rule 1 99 → ∀ regex ∈ c.value (rulePath "community-list" list rule ++ ["regex"]),
        StandardRegex regex) := by
  have hmake : makeQuaggaCommunityListRule c list rule = some
      { action := c.value (rulePath "community-list" list rule ++ ["action"])
        regex := c.value (rulePath "community-list" list rule ++ ["regex"]) } := by
    obtain ⟨t, ht⟩ := Option.isSome_iff_exists.mp ((Node.mem_values (List.cons_ne_nil _ _)).mp hr)
    rw [makeQuaggaCommunityListRule, makeRegexRule, rulePath_eq]
    exact (congrArg (Option.map _) ht).trans rfl
  rw [validCommunityListRule_iff, hmake]
  simp only [Option.some.injEq, exists_eq_left', filter_isAction]

theorem validCommunityLists_split :
    quaggaConfigValidCommunityLists c = [] ↔ CommunityRules c ∧ StandardWhere c fun _ rule => InRange rule 1 99 := by
  rw [quaggaConfigValidCommunityLists, List.flatMap_eq_nil_iff, CommunityRules, StandardWhere, ← forall₂_and]
  refine forall₂_congr fun list _ => ?_
  rw [quaggaConfigValidCommunityList, List.append_eq_nil_iff, failIf_eq_nil, Bool.not_eq_false',
    validatorRange_iff, List.flatMap_eq_nil_iff, and_assoc, ← forall₂_and]
  exact and_congr_right fun _ => forall₂_congr fun rule hr => validCommunityListRule_of_mem hr

/-- The check of the community-lists is exact if, when all else is as it should be, the
rules numbered up to 99 have standard expressions just when the lists numbered up to 99
do. -/
theorem validCommunityLists_iff (c : Node) :
    (quaggaConfigValidCommunityLists c = [] ↔
        CommunityRules c ∧ StandardWhere c fun list _ => InRange list 1 99) ↔
      (CommunityRules c → ((StandardWhere c fun _ rule => InRange rule 1 99) ↔
        StandardWhere c fun list _ => InRange list 1 99)) := by
  rw [validCommunityLists_split]
  exact and_congr_right_iff

/-- A rule of an expanded list is refused for its own number, and one of a standard list
accepted. -/
theorem validCommunityLists_swapped :
    let expanded := Node.make.quaggaConfigStateSet
        ["policy", "community-list", "100", "rule", "10", "action", "permit"] |>.quaggaConfigStateSet
        ["policy", "community-list", "100", "rule", "10", "regex", "65000:.*"]
    let standard := Node.make.quaggaConfigStateSet
        ["policy", "community-list", "10", "rule", "100", "action", "permit"] |>.quaggaConfigStateSet
        ["policy", "community-list", "10", "rule", "100", "regex", "65000:.*"]
    ¬ (quaggaConfigValidCommunityLists expanded = [] ↔
      CommunityRules expanded ∧ StandardWhere expanded fun list _ => InRange list 1 99) ∧
    ¬ (quaggaConfigValidCommunityLists standard = [] ↔
      CommunityRules standard ∧ StandardWhere standard fun list _ => InRange list 1 99) := by
  decide +kernel

/-! ## The fields of a rule -/

/-- A field of an address of an access-list. -/
inductive Address where
  | any
  | host (s : String)
  | network (s : String)
  | inverseMask (s : String)
  deriving DecidableEq

/-- A field of a rule that is given. -/
inductive Field where
  | action (s : String)
  | source (a : Address)
  | destination (a : Address)
  | exactMatch
  | regex (s : String)
  | ipPrefix (s : String)
  | ge (s : String)
  | le (s : String)
  deriving DecidableEq

/-- The fields of an address that are given. -/
def addressFields (any : Bool) (host network inverseMask : Option String) : List Address :=
  (if any then [.any] else []) ++ host.toList.map .host ++ network.toList.map .network ++
    inverseMask.toList.map .inverseMask

/-- The fields of an address that `addressText` writes. -/
def addressWritten (any : Bool) (host network inverseMask : Option String) : List Address :=
  if any then [.any]
  else
    match host, network, inverseMask with
    | some host, _, _ => [.host host]
    | none, some network, some mask => [.network network, .inverseMask mask]
    | none, _, _ => []

/-- A field of an address in a command. -/
def Address.text : Address → String
  | any => " any"
  | host s => " host " ++ s
  | network s => " " ++ s
  | inverseMask s => " " ++ s

theorem addressText_eq (any : Bool) (host network inverseMask : Option String) :
    addressText any host network inverseMask =
      String.join ((addressWritten any host network inverseMask).map Address.text) := by
  cases any <;> cases host <;> cases network <;> cases inverseMask <;>
    simp [addressText, addressWritten, Address.text, String.append_assoc]

namespace AccessListRule

/-- The fields that are given. -/
def fields (r : AccessListRule) : List Field :=
  r.action.toList.map .action ++
    (addressFields r.srcAny r.srcHost r.srcNetwork r.srcInverseMask).map .source ++
    (addressFields r.dstAny r.dstHost r.dstNetwork r.dstInverseMask).map .destination

/-- The fields in the command. -/
def written (r : AccessListRule) (extended : Bool) : Option (List Field) := do
  let action ← r.action.filter isAction
  let src := addressWritten r.srcAny r.srcHost r.srcNetwork r.srcInverseMask
  let dst := if extended then addressWritten r.dstAny r.dstHost r.dstNetwork r.dstInverseMask else []
  return .action action :: (src.map .source ++ dst.map .destination)

end AccessListRule

namespace AccessList6Rule

/-- The fields that are given. -/
def fields (r : AccessList6Rule) : List Field :=
  r.action.toList.map .action ++ (addressFields r.srcAny none r.srcNetwork none).map .source ++
    if r.srcExactMatch then [.exactMatch] else []

/-- The fields in the command. -/
def written (r : AccessList6Rule) : Option (List Field) := do
  let action ← r.action.filter isAction
  let src :=
    if r.srcAny then [.source .any]
    else
      match r.srcNetwork with
      | some network => .source (.network network) :: if r.srcExactMatch then [.exactMatch] else []
      | none => []
  return .action action :: src

end AccessList6Rule

namespace RegexRule

/-- The fields that are given. -/
def fields (r : RegexRule) : List Field := r.action.toList.map .action ++ r.regex.toList.map .regex

/-- The fields in the command. -/
def written (r : RegexRule) : Option (List Field) := do
  let action ← r.action.filter isAction
  let regex ← r.regex
  return [.action action, .regex regex]

end RegexRule

namespace PrefixRule

/-- The fields that are given. -/
def fields (r : PrefixRule) : List Field :=
  r.action.toList.map .action ++ r.ipPrefix.toList.map .ipPrefix ++ r.ge.toList.map .ge ++
    r.le.toList.map .le

/-- The fields in the command, with lengths up to `max`. -/
def written (r : PrefixRule) (isCIDR : String → Bool) (max : Int) : Option (List Field) := do
  let action ← r.action.filter isAction
  let ipPrefix ← r.ipPrefix.filter isCIDR
  if r.ge.all (validatorRange · 0 max) && r.le.all (validatorRange · 0 max) then
    return [.action action, .ipPrefix ipPrefix] ++ r.ge.toList.map .ge ++ r.le.toList.map .le
  else none

end PrefixRule

namespace Kind

variable (go : Go) (c : Node)

/-- The fields that are given of a rule. -/
def fields : Kind → String → String → List Field
  | accessList, name, rule => (makeQuaggaAccessListRule c name rule).elim [] AccessListRule.fields
  | accessList6, name, rule => (makeQuaggaAccessList6Rule c name rule).elim [] AccessList6Rule.fields
  | asPathList, name, rule => (makeQuaggaAsPathListRule c name rule).elim [] RegexRule.fields
  | communityList, name, rule => (makeQuaggaCommunityListRule c name rule).elim [] RegexRule.fields
  | prefixList, name, rule => (makeQuaggaPrefixListRule c name rule).elim [] PrefixRule.fields
  | prefixList6, name, rule => (makeQuaggaPrefixList6Rule c name rule).elim [] PrefixRule.fields

/-- The fields in the command of a rule. -/
def written : Kind → String → String → Option (List Field)
  | accessList, name, rule => (makeQuaggaAccessListRule c name rule).bind (·.written (isExtended name))
  | accessList6, name, rule => (makeQuaggaAccessList6Rule c name rule).bind (·.written)
  | asPathList, name, rule => (makeQuaggaAsPathListRule c name rule).bind (·.written)
  | communityList, name, rule => (makeQuaggaCommunityListRule c name rule).bind (·.written)
  | prefixList, name, rule =>
    (makeQuaggaPrefixListRule c name rule).bind (·.written (validatorIPv4CIDR go) 32)
  | prefixList6, name, rule =>
    (makeQuaggaPrefixList6Rule c name rule).bind (·.written (validatorIPv6CIDR go) 128)

/-- The check of a rule. -/
def validRule : Kind → String → String → List Failure
  | accessList => quaggaConfigValidAccessListRule go c
  | accessList6 => quaggaConfigValidAccessList6Rule go c
  | asPathList => quaggaConfigValidAsPathListRule c
  | communityList => quaggaConfigValidCommunityListRule c
  | prefixList => quaggaConfigValidPrefixListRule go c
  | prefixList6 => quaggaConfigValidPrefixList6Rule go c

/-- What stands before the fields of a rule. -/
def head : Kind → String → String
  | prefixList, rule => " seq " ++ rule
  | prefixList6, rule => " seq " ++ rule
  | _, _ => ""

/-- A field in a command. -/
def word (kind : Kind) (name : String) : Field → String
  | .action s => " " ++ s ++ if kind = accessList ∧ isExtended name then " ip" else ""
  | .source a => a.text
  | .destination a => a.text
  | .exactMatch => " exact-match"
  | .regex s => " " ++ s
  | .ipPrefix s => " " ++ s
  | .ge s => " ge " ++ s
  | .le s => " le " ++ s

theorem regexText_eq (name : String) (r : Option RegexRule) : regexText r =
    (r.bind (·.written)).map fun fs => "" ++ String.join (fs.map (word asPathList name)) := by
  cases r with
  | none => rfl
  | some r =>
    cases ha : r.action.filter isAction <;> cases hr : r.regex <;>
      simp [regexText, RegexRule.written, ha, hr, word, String.append_assoc]

theorem prefixText_eq (name rule : String) (isCIDR : String → Bool) (max : Int) (r : Option PrefixRule) :
    prefixText isCIDR max rule r = (r.bind (·.written isCIDR max)).map fun fs =>
      (" seq " ++ rule) ++ String.join (fs.map (word prefixList name)) := by
  cases r with
  | none => rfl
  | some r =>
    cases ha : r.action.filter isAction with
    | none => simp [prefixText, PrefixRule.written, ha]
    | some action =>
      cases hp : r.ipPrefix.filter isCIDR with
      | none => simp [prefixText, PrefixRule.written, ha, hp]
      | some ipPrefix =>
        cases hg : r.ge with
        | none =>
          cases hl : r.le with
          | none => simp [prefixText, PrefixRule.written, ha, hp, hg, hl, word, String.append_assoc]
          | some le =>
            cases hle : validatorRange le 0 max <;>
              simp [prefixText, PrefixRule.written, ha, hp, hg, hl, hle, word, String.append_assoc]
        | some ge =>
          cases hl : r.le with
          | none =>
            cases hge : validatorRange ge 0 max <;>
              simp [prefixText, PrefixRule.written, ha, hp, hg, hl, hge, word, String.append_assoc]
          | some le =>
            cases hge : validatorRange ge 0 max <;> cases hle : validatorRange le 0 max <;>
              simp [prefixText, PrefixRule.written, ha, hp, hg, hl, hge, hle, word, String.append_assoc]

/-- The command of a rule is made of the fields in it. -/
theorem ruleText_eq (kind : Kind) (name rule : String) : kind.ruleText go c name rule =
    (kind.written go c name rule).map fun fs => kind.head rule ++ String.join (fs.map (kind.word name)) := by
  cases kind with
  | accessList =>
    rw [ruleText, accessListText, written]
    cases hr : makeQuaggaAccessListRule c name rule with
    | none => rfl
    | some r =>
      cases ha : r.action.filter isAction with
      | none => simp [AccessListRule.written, ha]
      | some action =>
        cases he : isExtended name with
        | true => simp [AccessListRule.written, ha, he, head, word, addressText_eq, Function.comp_def, String.append_assoc]
        | false => simp [AccessListRule.written, ha, he, head, word, addressText_eq, Function.comp_def, String.append_assoc]
  | accessList6 =>
    rw [ruleText, accessList6Text, written]
    cases hr : makeQuaggaAccessList6Rule c name rule with
    | none => rfl
    | some r =>
      cases ha : r.action.filter isAction with
      | none => simp [AccessList6Rule.written, ha]
      | some action =>
        cases hany : r.srcAny <;> cases hn : r.srcNetwork <;> cases hx : r.srcExactMatch <;>
          simp [AccessList6Rule.written, ha, hany, hn, hx, head, word, Address.text, String.append_assoc]
  | asPathList => exact regexText_eq name _
  | communityList => exact regexText_eq name _
  | prefixList => exact prefixText_eq name rule _ _ _
  | prefixList6 => exact prefixText_eq name rule _ _ _

end Kind

/-! ## Where the check and the commit agree -/

namespace Kind

variable (go : Go) (c : Node)

/-- The commands that `quaggaConfigCommitAccessList` and the like issue for a rule. -/
def commands (kind : Kind) (name rule : String) : List Vtysh :=
  ((kind.ruleText go c name rule).map (.add kind name)).toList

/-- The commit of a list issues one command for a rule, among those of the other rules. -/
def Issues (time : Nat) (kind : Kind) (name rule : String) (cmd : Vtysh) : Prop :=
  ∃ before after : List String, rule ∉ before ++ after ∧
    (before ++ rule :: after).Perm (c.values ["policy", kind.label, name, "rule"]) ∧
    quaggaConfigCommitList go time c kind name = .no kind name ::
      (before.flatMap (kind.commands go c name) ++ cmd :: after.flatMap (kind.commands go c name))

/-- The command of a rule has every field that is given. -/
def Complete (kind : Kind) (name rule : String) : Prop :=
  ∃ fs, kind.written go c name rule = some fs ∧ kind.fields c name rule ⊆ fs

/-- An accepted rule has exactly one command, which has all its fields, and a rule with a
complete command is accepted. -/
def Agree (time : Nat) (kind : Kind) (name rule : String) : Prop :=
  (kind.validRule go c name rule = [] →
    ∃ fs, kind.written go c name rule = some fs ∧ kind.fields c name rule ⊆ fs ∧
      kind.Issues go c time name rule
        (.add kind name (kind.head rule ++ String.join (fs.map (kind.word name))))) ∧
  (kind.Complete go c name rule → kind.validRule go c name rule = [])

end Kind

theorem commands_flatMap (kind : Kind) (name : String) (rules : List String) :
    (rules.filterMap (kind.ruleText go c name)).map (.add kind name) =
      rules.flatMap (kind.commands go c name) := by
  induction rules with
  | nil => rfl
  | cons rule rules ih =>
    rw [List.flatMap_cons, ← ih, Kind.commands]
    cases h : kind.ruleText go c name rule with
    | none => rw [List.filterMap_cons_none h]; rfl
    | some text => rw [List.filterMap_cons_some h]; rfl

/-- A rule that has a command has it once. -/
theorem issues_of_text {kind : Kind} {name rule text : String} (time : Nat)
    (hr : rule ∈ c.values ["policy", kind.label, name, "rule"])
    (ht : kind.ruleText go c name rule = some text) :
    kind.Issues go c time name rule (.add kind name text) := by
  have hperm : (quaggaRuleSort go (go.range time (c.values ["policy", kind.label, name, "rule"]))).Perm
      (c.values ["policy", kind.label, name, "rule"]) := (go.sort_perm _ _).trans (go.range_perm _ _)
  have hnodup := hperm.nodup_iff.mpr (Node.values_nodup c _)
  obtain ⟨before, after, hsplit⟩ := List.append_of_mem (hperm.mem_iff.mpr hr)
  rw [hsplit] at hperm hnodup
  refine ⟨before, after, (List.nodup_cons.mp (List.perm_middle.nodup_iff.mp hnodup)).1, hperm, ?_⟩
  have hcmds : kind.commands go c name rule = [.add kind name text] := by
    rw [Kind.commands, ht]
    rfl
  rw [quaggaConfigCommitList, hsplit, commands_flatMap, List.flatMap_append, List.flatMap_cons, hcmds]
  rfl

/-- The two agree when an accepted rule has a complete command, and the other way round. -/
theorem agree_iff_complete {time : Nat} {kind : Kind} {name rule : String}
    (hr : kind.validRule go c name rule = [] → rule ∈ c.values ["policy", kind.label, name, "rule"]) :
    kind.Agree go c time name rule ↔ (kind.validRule go c name rule = [] ↔ kind.Complete go c name rule) := by
  constructor
  · rintro ⟨hvalid, hcomplete⟩
    refine ⟨fun h => ?_, hcomplete⟩
    obtain ⟨fs, hfs, hsub, -⟩ := hvalid h
    exact ⟨fs, hfs, hsub⟩
  · intro h
    refine ⟨fun hv => ?_, h.mpr⟩
    obtain ⟨fs, hfs, hsub⟩ := h.mp hv
    refine ⟨fs, hfs, hsub, issues_of_text time (hr hv) ?_⟩
    rw [Kind.ruleText_eq, hfs, Option.map_some]

theorem found_of_checkRule {ρ : Type} {label name rule : String} {f : LabelTree String → ρ}
    {check : ρ → List Failure}
    (h : checkRule label name rule ((c.lookup (rulePath label name rule)).map f) check = []) :
    rule ∈ c.values ["policy", label, name, "rule"] := by
  obtain ⟨r, hr, -⟩ := checkRule_iff.mp h
  have hfound : (c.lookup (rulePath label name rule)).isSome := by
    rw [← Option.isSome_map, hr]
    rfl
  exact (Node.mem_values (List.cons_ne_nil _ _)).mpr hfound

/-- An accepted rule is there. -/
theorem mem_values_of_validRule {kind : Kind} {name rule : String}
    (h : kind.validRule go c name rule = []) : rule ∈ c.values ["policy", kind.label, name, "rule"] := by
  cases kind <;> exact found_of_checkRule h

/-- What is given of an address is any, a host, or a network with its mask, or nothing. -/
@[mk_iff]
structure Single (any : Bool) (host network inverseMask : Option String) : Prop where
  any : any = true → host = none ∧ network = none ∧ inverseMask = none
  host : host.isSome → network = none
  mask : network.isSome = inverseMask.isSome

/-- Something is given of an address. -/
def Given (any : Bool) (host network : Option String) : Prop :=
  any = true ∨ host.isSome ∨ network.isSome

/-- What is given of an address is in dotted decimal. -/
def Dotted (go : Go) (host network inverseMask : Option String) : Prop :=
  (∀ s ∈ host, validatorIPv4Address go s) ∧ (∀ s ∈ inverseMask, validatorIPv4Address go s) ∧
    ∀ s ∈ network, validatorIPv4Address go s

theorem addressFields_subset {any : Bool} {host network inverseMask : Option String} :
    addressFields any host network inverseMask ⊆ addressWritten any host network inverseMask ↔
      Single any host network inverseMask := by
  rw [single_iff]
  cases any <;> cases host <;> cases network <;> cases inverseMask <;>
    simp [addressFields, addressWritten]

/-- The four checks of the number of filters. -/
theorem filters_iff {any : Bool} {host network inverseMask : Option String} :
    ((any.toNat + host.isSome.toNat + network.isSome.toNat == 0) = false ∧
      decide (1 < any.toNat + host.isSome.toNat + network.isSome.toNat) = false ∧
      (network.isSome && inverseMask.isNone) = false ∧ (network.isNone && inverseMask.isSome) = false) ↔
      Given any host network ∧ Single any host network inverseMask := by
  rw [single_iff, Given]
  cases any <;> cases host <;> cases network <;> cases inverseMask <;> simp

/-- The five checks of the number of filters of a destination. -/
theorem destinationFilters_iff {any extended : Bool} {host network inverseMask : Option String} :
    ((decide (0 < any.toNat + host.isSome.toNat + network.isSome.toNat) && !extended) = false ∧
      (any.toNat + host.isSome.toNat + network.isSome.toNat == 0 && extended) = false ∧
      decide (1 < any.toNat + host.isSome.toNat + network.isSome.toNat) = false ∧
      (network.isSome && inverseMask.isNone) = false ∧ (network.isNone && inverseMask.isSome) = false) ↔
      if extended then Given any host network ∧ Single any host network inverseMask
      else addressFields any host network inverseMask = [] := by
  rw [single_iff, Given]
  cases extended <;> cases any <;> cases host <;> cases network <;> cases inverseMask <;>
    simp [addressFields]

theorem addressFields_eq_nil {any : Bool} {host network inverseMask : Option String} :
    addressFields any host network inverseMask = [] ↔
      any = false ∧ host = none ∧ network = none ∧ inverseMask = none := by
  cases any <;> cases host <;> cases network <;> cases inverseMask <;> simp [addressFields]

namespace AccessListRule

/-- All that is given of the rule is in its command. -/
def Commits (r : AccessListRule) (extended : Bool) : Prop :=
  (∃ a, r.action.filter isAction = some a) ∧ Single r.srcAny r.srcHost r.srcNetwork r.srcInverseMask ∧
    if extended then Single r.dstAny r.dstHost r.dstNetwork r.dstInverseMask
    else addressFields r.dstAny r.dstHost r.dstNetwork r.dstInverseMask = []

/-- What the check asks besides. -/
def Sound (go : Go) (r : AccessListRule) (extended : Bool) : Prop :=
  (Given r.srcAny r.srcHost r.srcNetwork ∧ Dotted go r.srcHost r.srcNetwork r.srcInverseMask) ∧
    (extended = true → Given r.dstAny r.dstHost r.dstNetwork ∧
      Dotted go r.dstHost r.dstNetwork r.dstInverseMask)

theorem sides_subset {action : String} {src dst src' dst' : List Address} :
    [.action action] ++ src.map .source ++ dst.map .destination ⊆
        .action action :: (src'.map .source ++ dst'.map Field.destination) ↔ src ⊆ src' ∧ dst ⊆ dst' := by
  constructor
  · intro h
    refine ⟨fun a ha => ?_, fun a ha => ?_⟩
    · have : Field.source a ∈ [.action action] ++ src.map .source ++ dst.map .destination := by simp [ha]
      simpa using h this
    · have : Field.destination a ∈ [.action action] ++ src.map .source ++ dst.map .destination := by
        simp [ha]
      simpa using h this
  · rintro ⟨hsrc, hdst⟩ f hf
    rw [List.append_assoc, List.mem_append, List.mem_append, List.mem_map, List.mem_map] at hf
    rcases hf with hf | ⟨a, ha, rfl⟩ | ⟨a, ha, rfl⟩
    · rw [List.mem_singleton.mp hf]
      exact List.mem_cons_self
    · exact List.mem_cons_of_mem _ (List.mem_append_left _ (List.mem_map_of_mem (hsrc ha)))
    · exact List.mem_cons_of_mem _ (List.mem_append_right _ (List.mem_map_of_mem (hdst ha)))

theorem fields_subset {r : AccessListRule} {extended : Bool} :
    (∃ fs, r.written extended = some fs ∧ r.fields ⊆ fs) ↔ r.Commits extended := by
  rw [Commits, written, fields]
  cases ha : r.action.filter isAction with
  | none => simp
  | some action =>
    obtain ⟨hact, -⟩ := Option.filter_eq_some_iff.mp ha
    simp only [hact, Option.bind_eq_bind, Option.bind_some, Option.pure_def, Option.some.injEq,
      exists_eq_left', exists_eq', true_and, Option.toList_some, List.map_cons, List.map_nil]
    cases extended with
    | true => exact sides_subset.trans (and_congr addressFields_subset addressFields_subset)
    | false => exact sides_subset.trans (and_congr addressFields_subset List.subset_nil)

end AccessListRule

theorem validAccessListRule_iff {name rule : String} :
    quaggaConfigValidAccessListRule go c name rule = [] ↔
      ∃ r, makeQuaggaAccessListRule c name rule = some r ∧ r.Commits (isExtended name) ∧
        InRange rule 1 65535 ∧ r.Sound go (isExtended name) := by
  refine checkRule_iff.trans (exists_congr fun r => and_congr_right fun _ => ?_)
  simp only [List.append_eq_nil_iff, checkAction_eq_nil, failIf_eq_nil, checkValue_eq_nil, and_assoc]
  rw [AccessListRule.Commits, AccessListRule.Sound]
  constructor
  · rintro ⟨hrange, haction, hhost, hmask, hnetwork, h₁, h₂, h₃, h₄, hhost', hmask', hnetwork', hdst⟩
    obtain ⟨hgiven, hsingle⟩ := filters_iff.mp ⟨h₁, h₂, h₃, h₄⟩
    have hdst := destinationFilters_iff.mp hdst
    cases hx : isExtended name with
    | true =>
      rw [hx, if_pos rfl] at hdst
      exact ⟨⟨haction, hsingle, hdst.2⟩, hrange, ⟨hgiven, hhost, hmask, hnetwork⟩,
        fun _ => ⟨hdst.1, hhost', hmask', hnetwork'⟩⟩
    | false =>
      rw [hx, if_neg (by decide)] at hdst
      exact ⟨⟨haction, hsingle, hdst⟩, hrange, ⟨hgiven, hhost, hmask, hnetwork⟩,
        fun h => absurd h Bool.false_ne_true⟩
  · rintro ⟨⟨haction, hsingle, hdst⟩, hrange, ⟨hgiven, hhost, hmask, hnetwork⟩, hsound⟩
    obtain ⟨h₁, h₂, h₃, h₄⟩ := filters_iff.mpr ⟨hgiven, hsingle⟩
    have hdst' : (if isExtended name then Given r.dstAny r.dstHost r.dstNetwork ∧
        Single r.dstAny r.dstHost r.dstNetwork r.dstInverseMask
        else addressFields r.dstAny r.dstHost r.dstNetwork r.dstInverseMask = []) ∧
        Dotted go r.dstHost r.dstNetwork r.dstInverseMask := by
      cases hx : isExtended name with
      | true =>
        rw [hx, if_pos rfl] at hdst
        exact ⟨⟨(hsound hx).1, hdst⟩, (hsound hx).2⟩
      | false =>
        rw [hx, if_neg (by decide)] at hdst
        obtain ⟨-, hhost, hnetwork, hmask⟩ := addressFields_eq_nil.mp hdst
        refine ⟨hdst, ?_⟩
        rw [hhost, hnetwork, hmask]
        simp [Dotted]
    obtain ⟨hfilters, hhost', hmask', hnetwork'⟩ := hdst'
    exact ⟨hrange, haction, hhost, hmask, hnetwork, h₁, h₂, h₃, h₄, hhost', hmask', hnetwork',
      destinationFilters_iff.mpr hfilters⟩

/-- All that is given of the rule is in its command. -/
def AccessList6Rule.Commits (r : AccessList6Rule) : Prop :=
  (∃ a, r.action.filter isAction = some a) ∧ (r.srcAny = true → r.srcNetwork = none ∧ r.srcExactMatch = false) ∧
    (r.srcExactMatch = true → r.srcNetwork.isSome)

theorem AccessList6Rule.fields_subset {r : AccessList6Rule} :
    (∃ fs, r.written = some fs ∧ r.fields ⊆ fs) ↔ r.Commits := by
  rw [Commits, written, fields]
  cases ha : r.action.filter isAction with
  | none => simp
  | some action =>
    obtain ⟨hact, -⟩ := Option.filter_eq_some_iff.mp ha
    cases r.srcAny <;> cases r.srcNetwork <;> cases r.srcExactMatch <;>
      simp [hact, addressFields, List.subset_def]

theorem validAccessList6Rule_iff {name rule : String} :
    quaggaConfigValidAccessList6Rule go c name rule = [] ↔
      ∃ r, makeQuaggaAccessList6Rule c name rule = some r ∧ InRange rule 1 65535 ∧
        (∃ a, r.action.filter isAction = some a) ∧ (∀ s ∈ r.srcNetwork, validatorIPv6CIDR go s) ∧
        (r.srcAny = true ↔ r.srcNetwork = none) := by
  refine checkRule_iff.trans (exists_congr fun r => and_congr_right fun _ => ?_)
  simp only [List.append_eq_nil_iff, checkAction_eq_nil, failIf_eq_nil, checkValue_eq_nil, and_assoc]
  refine and_congr_right fun _ => and_congr_right fun _ => and_congr_right fun _ => ?_
  cases r.srcAny <;> cases r.srcNetwork <;> simp

theorem RegexRule.fields_subset {r : RegexRule} : (∃ fs, r.written = some fs ∧ r.fields ⊆ fs) ↔
    (∃ a, r.action.filter isAction = some a) ∧ r.regex.isSome := by
  rw [written, fields]
  cases ha : r.action.filter isAction with
  | none => simp
  | some action =>
    obtain ⟨hact, -⟩ := Option.filter_eq_some_iff.mp ha
    cases r.regex <;> simp [hact]

/-- All that is given of the rule is in its command, with lengths up to `max`. -/
def PrefixRule.Commits (r : PrefixRule) (isCIDR : String → Bool) (max : Int) : Prop :=
  (∃ a, r.action.filter isAction = some a) ∧ (∃ p ∈ r.ipPrefix, isCIDR p) ∧
    (∀ s ∈ r.ge, InRange s 0 max) ∧ ∀ s ∈ r.le, InRange s 0 max

theorem PrefixRule.fields_subset {r : PrefixRule} {isCIDR : String → Bool} {max : Int} :
    (∃ fs, r.written isCIDR max = some fs ∧ r.fields ⊆ fs) ↔ r.Commits isCIDR max := by
  rw [Commits, written, fields]
  cases ha : r.action.filter isAction with
  | none => simp
  | some action =>
    obtain ⟨hact, -⟩ := Option.filter_eq_some_iff.mp ha
    cases hp : r.ipPrefix with
    | none => simp
    | some ipPrefix =>
      cases hc : isCIDR ipPrefix <;> cases r.ge <;> cases r.le <;>
        simp [Option.filter, hact, hc, ← validatorRange_iff, List.subset_def]

theorem validAsPathListRule_iff {name rule : String} :
    quaggaConfigValidAsPathListRule c name rule = [] ↔
      ∃ r, makeQuaggaAsPathListRule c name rule = some r ∧ InRange rule 1 65535 ∧
        (∃ a, r.action.filter isAction = some a) ∧ r.regex.isSome := by
  refine checkRule_iff.trans (exists_congr fun r => and_congr_right fun _ => ?_)
  simp only [List.append_eq_nil_iff, checkAction_eq_nil, failIf_eq_nil, Option.isNone_eq_false_iff]

theorem checkPrefixRule_iff {label name rule : String} {isCIDR : String → Bool} :
    checkPrefixRule c label isCIDR name rule = [] ↔
      ∃ r, makePrefixRule c label name rule = some r ∧ InRange rule 1 65535 ∧ r.Commits isCIDR 32 := by
  refine checkRule_iff.trans (exists_congr fun r => and_congr_right fun _ => ?_)
  rw [PrefixRule.Commits]
  simp only [List.append_eq_nil_iff, checkAction_eq_nil, failIf_eq_nil, checkValue_eq_nil, and_assoc,
    validatorRange_iff, Bool.not_eq_false', Option.any_eq_true, Option.mem_def]
  constructor
  · rintro ⟨hrange, haction, hle, hge, hp⟩
    exact ⟨hrange, haction, hp, hge, hle⟩
  · rintro ⟨hrange, haction, hp, hge, hle⟩
    exact ⟨hrange, haction, hle, hge, hp⟩

namespace Kind

/-- What makes the check accept a rule whose command has all that is given, and the other
way round. -/
def Accord (go : Go) (c : Node) : Kind → String → String → Prop
  | accessList, name, rule => ∀ r, makeQuaggaAccessListRule c name rule = some r →
    r.Commits (isExtended name) → InRange rule 1 65535 ∧ r.Sound go (isExtended name)
  | accessList6, name, rule => ∀ r, makeQuaggaAccessList6Rule c name rule = some r →
    (InRange rule 1 65535 → (∃ a, r.action.filter isAction = some a) → r.srcAny = true →
      r.srcNetwork = none → r.srcExactMatch = false) ∧
    (r.Commits → InRange rule 1 65535 ∧ (∀ s ∈ r.srcNetwork, validatorIPv6CIDR go s) ∧
      (r.srcAny = true ∨ r.srcNetwork.isSome))
  | asPathList, name, rule => ∀ r, makeQuaggaAsPathListRule c name rule = some r →
    (∃ a, r.action.filter isAction = some a) → r.regex.isSome → InRange rule 1 65535
  | communityList, name, rule => ∀ r, makeQuaggaCommunityListRule c name rule = some r →
    (∃ a, r.action.filter isAction = some a) → r.regex.isSome →
      InRange rule 1 65535 ∧ (InRange rule 1 99 → ∀ regex ∈ r.regex, StandardRegex regex)
  | prefixList, name, rule => ∀ r, makeQuaggaPrefixListRule c name rule = some r →
    r.Commits (validatorIPv4CIDR go) 32 → InRange rule 1 65535
  | prefixList6, name, rule => ∀ r, makeQuaggaPrefixList6Rule c name rule = some r →
    r.Commits (validatorIPv6CIDR go) 128 →
      InRange rule 1 65535 ∧ (∀ s ∈ r.ge, InRange s 0 32) ∧ ∀ s ∈ r.le, InRange s 0 32

/-- The command of a rule has all its fields when there is a rule for which it has. -/
theorem complete_of_option {ρ : Type} {o : Option ρ} {written : ρ → Option (List Field)}
    {fields : ρ → List Field} : (∃ fs, o.bind written = some fs ∧ o.elim [] fields ⊆ fs) ↔
      ∃ r, o = some r ∧ ∃ fs, written r = some fs ∧ fields r ⊆ fs := by
  cases o <;> simp

/-- The check and the commit look at one rule. -/
theorem iff_of_option {ρ : Type} {o : Option ρ} {p q : ρ → Prop} :
    ((∃ r, o = some r ∧ p r) ↔ ∃ r, o = some r ∧ q r) ↔ ∀ r, o = some r → (p r ↔ q r) := by
  cases o <;> simp

end Kind

/-- The check of a rule and its commit agree exactly so. -/
theorem agree_iff (go : Go) (time : Nat) (c : Node) (kind : Kind) (name rule : String) :
    kind.Agree go c time name rule ↔ kind.Accord go c name rule := by
  rw [agree_iff_complete mem_values_of_validRule]
  cases kind with
  | accessList =>
    refine (iff_congr validAccessListRule_iff Kind.complete_of_option).trans
      (Kind.iff_of_option.trans (forall₂_congr fun r _ => ?_))
    rw [AccessListRule.fields_subset]
    exact and_iff_left_iff_imp
  | accessList6 =>
    refine (iff_congr validAccessList6Rule_iff Kind.complete_of_option).trans
      (Kind.iff_of_option.trans (forall₂_congr fun r _ => ?_))
    rw [AccessList6Rule.fields_subset, AccessList6Rule.Commits]
    constructor
    · intro h
      refine ⟨fun hrange haction hany hnetwork => ?_, fun hcommits => ?_⟩
      · have hcidr : ∀ s ∈ r.srcNetwork, validatorIPv6CIDR go s := by
          rw [hnetwork]
          exact nofun
        exact ((h.mp ⟨hrange, haction, hcidr, fun _ => hnetwork, fun _ => hany⟩).2.1 hany).2
      · obtain ⟨hrange, -, hcidr, hany⟩ := h.mpr hcommits
        refine ⟨hrange, hcidr, ?_⟩
        cases hn : r.srcNetwork with
        | none => exact .inl (hany.mpr hn)
        | some network => exact .inr rfl
    · rintro ⟨hexact, hcommits⟩
      constructor
      · rintro ⟨hrange, haction, -, hany⟩
        refine ⟨haction, fun ha => ⟨hany.mp ha, hexact hrange haction ha (hany.mp ha)⟩, fun hx => ?_⟩
        cases hn : r.srcNetwork with
        | none =>
          have := hexact hrange haction (hany.mpr hn) hn
          rw [hx] at this
          nomatch this
        | some network => rfl
      · intro hc
        obtain ⟨hrange, hcidr, hgiven⟩ := hcommits hc
        refine ⟨hrange, hc.1, hcidr, fun ha => (hc.2.1 ha).1, fun hn => hgiven.resolve_right ?_⟩
        rw [hn]
        exact Bool.false_ne_true
  | asPathList =>
    refine (iff_congr validAsPathListRule_iff Kind.complete_of_option).trans
      (Kind.iff_of_option.trans (forall₂_congr fun r _ => ?_))
    rw [RegexRule.fields_subset, ← and_imp]
    exact and_iff_right_iff_imp
  | communityList =>
    refine (iff_congr validCommunityListRule_iff Kind.complete_of_option).trans
      (Kind.iff_of_option.trans (forall₂_congr fun r _ => ?_))
    rw [RegexRule.fields_subset]
    constructor
    · intro h haction hregex
      obtain ⟨⟨hrange, -⟩, hstandard⟩ := h.mpr ⟨haction, hregex⟩
      exact ⟨hrange, hstandard⟩
    · intro h
      constructor
      · rintro ⟨⟨-, haction, hregex⟩, -⟩
        exact ⟨haction, hregex⟩
      · rintro ⟨haction, hregex⟩
        obtain ⟨hrange, hstandard⟩ := h haction hregex
        exact ⟨⟨hrange, haction, hregex⟩, hstandard⟩
  | prefixList =>
    refine (iff_congr checkPrefixRule_iff Kind.complete_of_option).trans
      (Kind.iff_of_option.trans (forall₂_congr fun r _ => ?_))
    rw [PrefixRule.fields_subset]
    exact and_iff_right_iff_imp
  | prefixList6 =>
    refine (iff_congr checkPrefixRule_iff Kind.complete_of_option).trans
      (Kind.iff_of_option.trans (forall₂_congr fun r _ => ?_))
    rw [PrefixRule.fields_subset]
    constructor
    · intro h hcommits
      obtain ⟨hrange, -, -, hge, hle⟩ := h.mpr hcommits
      exact ⟨hrange, hge, hle⟩
    · intro h
      constructor
      · rintro ⟨-, haction, hp, hge, hle⟩
        exact ⟨haction, hp, fun s hs => (hge s hs).mono (by decide), fun s hs => (hle s hs).mono (by decide)⟩
      · rintro ⟨haction, hp, hge, hle⟩
        obtain ⟨hrange, hge, hle⟩ := h ⟨haction, hp, hge, hle⟩
        exact ⟨hrange, haction, hp, hge, hle⟩

/-- A rule of any source that is to match exactly is accepted, and its command leaves that
out. -/
theorem agree_exactMatch :
    let c := Node.make.quaggaConfigStateSet
        ["policy", "access-list6", "a", "rule", "10", "action", "permit"] |>.quaggaConfigStateSet
        ["policy", "access-list6", "a", "rule", "10", "source", "any"] |>.quaggaConfigStateSet
        ["policy", "access-list6", "a", "rule", "10", "source", "exact-match"]
    quaggaConfigValidAccessList6Rule plainGo c "a" "10" = [] ∧
      quaggaConfigCommitList plainGo 0 c .accessList6 "a" =
        [.no .accessList6 "a", .add .accessList6 "a" " permit any"] ∧
      ¬ Kind.accessList6.Agree plainGo c 0 "a" "10" := by
  intro c
  have hvalid : quaggaConfigValidAccessList6Rule plainGo c "a" "10" = [] := by decide +kernel
  refine ⟨hvalid, by decide +kernel, fun h => ?_⟩
  obtain ⟨fs, hfs, hsub, -⟩ := h.1 hvalid
  have hwritten : Kind.accessList6.written plainGo c "a" "10" = some [.action "permit", .source .any] := by
    decide +kernel
  cases hwritten.symm.trans hfs
  have hexact : Field.exactMatch ∈ Kind.accessList6.fields c "a" "10" := by decide +kernel
  exact absurd (hsub hexact) (by decide)

end OpenConfigd.Quaggad
