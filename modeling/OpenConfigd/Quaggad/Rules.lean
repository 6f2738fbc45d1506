import OpenConfigd.Quaggad.Ospf

/-!
# The rules of a valid policy

What the checks of the six kinds of lists promise of their rules: each has a number, and
the commit of the list makes a command of it (`valid_ruleText`).
The command of a rule depends on the tree below the name of its list alone
(`ruleText_congr`).
-/

namespace OpenConfigd.Quaggad

variable {go : Go} {c d : Node}

/-- The path of a rule goes through the path of its list. -/
theorem rulePath_eq (label name rule : String) :
    rulePath label name rule = ["policy", label, name] ++ ["rule", rule] := rfl

section Congr

variable {label name : String} (h : Node.SameAt ["policy", label, name] c d) (rule : String)
include h

theorem sameAt_rule (words : List String) : Node.SameAt (rulePath label name rule ++ words) c d := by
  have hp : ["policy", label, name] ≠ [] := List.cons_ne_nil _ _
  rw [rulePath_eq, List.append_assoc]
  exact h.append hp _

theorem value_rule (words : List String) :
    c.value (rulePath label name rule ++ words) = d.value (rulePath label name rule ++ words) :=
  (sameAt_rule h rule words).value_eq

theorem has_rule (words : List String) :
    (c.lookup (rulePath label name rule ++ words)).isSome =
      (d.lookup (rulePath label name rule ++ words)).isSome :=
  (sameAt_rule h rule words).isSome_eq

/-- A rule that is made of what is below its path is the same in both trees. -/
theorem makeRule_congr {ρ : Type} {f g : ρ} (hfg : f = g) :
    ((c.lookup (rulePath label name rule)).map fun _ => f) =
      (d.lookup (rulePath label name rule)).map fun _ => g := by
  have hmap : ∀ (o : Option (LabelTree String)) (r : ρ), o.map (fun _ => r) = if o.isSome then some r else none := by
    intro o r
    cases o <;> rfl
  have hsome := has_rule h rule []
  rw [List.append_nil] at hsome
  rw [hmap, hmap, hsome, hfg]

end Congr

/-- The command of a rule depends on what is below the name of its list. -/
theorem ruleText_congr {kind : Kind} {name : String} (h : Node.SameAt ["policy", kind.label, name] c d)
    (rule : String) : kind.ruleText go c name rule = kind.ruleText go d name rule := by
  cases kind with
  | accessList =>
    have h : Node.SameAt ["policy", "access-list", name] c d := h
    have hr : makeQuaggaAccessListRule c name rule = makeQuaggaAccessListRule d name rule :=
      makeRule_congr h rule (by simp only [value_rule h, has_rule h])
    rw [Kind.ruleText, Kind.ruleText, accessListText, accessListText, hr]
  | accessList6 =>
    have h : Node.SameAt ["policy", "access-list6", name] c d := h
    have hr : makeQuaggaAccessList6Rule c name rule = makeQuaggaAccessList6Rule d name rule :=
      makeRule_congr h rule (by simp only [value_rule h, has_rule h])
    rw [Kind.ruleText, Kind.ruleText, accessList6Text, accessList6Text, hr]
  | asPathList =>
    have h : Node.SameAt ["policy", "as-path-list", name] c d := h
    have hr : makeQuaggaAsPathListRule c name rule = makeQuaggaAsPathListRule d name rule :=
      makeRule_congr h rule (by simp only [value_rule h])
    rw [Kind.ruleText, Kind.ruleText, hr]
  | communityList =>
    have h : Node.SameAt ["policy", "community-list", name] c d := h
    have hr : makeQuaggaCommunityListRule c name rule = makeQuaggaCommunityListRule d name rule :=
      makeRule_congr h rule (by simp only [value_rule h])
    rw [Kind.ruleText, Kind.ruleText, hr]
  | prefixList =>
    have h : Node.SameAt ["policy", "prefix-list", name] c d := h
    have hr : makeQuaggaPrefixListRule c name rule = makeQuaggaPrefixListRule d name rule :=
      makeRule_congr h rule (by simp only [value_rule h])
    rw [Kind.ruleText, Kind.ruleText, hr]
  | prefixList6 =>
    have h : Node.SameAt ["policy", "prefix-list6", name] c d := h
    have hr : makeQuaggaPrefixList6Rule c name rule = makeQuaggaPrefixList6Rule d name rule :=
      makeRule_congr h rule (by simp only [value_rule h])
    rw [Kind.ruleText, Kind.ruleText, hr]

/-! ## What the checks promise -/

/-- A candidate that passes all checks passes those of each part. -/
theorem valid_parts (h : quaggaConfigValid go c = some true) :
    quaggaConfigValidAccessLists go c = [] ∧ quaggaConfigValidAccessList6s go c = some [] ∧
      quaggaConfigValidAsPathLists c = [] ∧ quaggaConfigValidCommunityLists c = [] ∧
      quaggaConfigValidPrefixLists go c = [] ∧ quaggaConfigValidPrefixList6s go c = [] ∧
      quaggaConfigValidRouteMaps go c = [] ∧ quaggaConfigValidBgp go c = [] ∧
      quaggaConfigValidOspf go c = [] := by
  obtain ⟨failures, hf, hempty⟩ := Option.map_eq_some_iff.mp h
  obtain ⟨policy, hp, hf⟩ := Option.bind_eq_some_iff.mp hf
  obtain ⟨accessList6s, h6, hp⟩ := Option.bind_eq_some_iff.mp hp
  cases hf
  cases hp
  simp only [List.isEmpty_iff, List.append_eq_nil_iff] at hempty
  obtain ⟨⟨⟨-, ⟨⟨⟨⟨⟨⟨ha, ha6⟩, has⟩, hc⟩, hpl⟩, hpl6⟩, hr⟩⟩, hb⟩, ho⟩ := hempty
  exact ⟨ha, ha6 ▸ h6, has, hc, hpl, hpl6, hr, hb, ho⟩

theorem mem_of_mapM {α β : Type} {f : α → Option β} {l : List α} {bs : List β}
    (h : l.mapM f = some bs) {a : α} (ha : a ∈ l) : ∃ b ∈ bs, f a = some b := by
  induction l generalizing bs with
  | nil => nomatch ha
  | cons x l ih =>
    rw [List.mapM_cons] at h
    obtain ⟨b, hb, h⟩ := Option.bind_eq_some_iff.mp h
    obtain ⟨bs', hbs, h⟩ := Option.bind_eq_some_iff.mp h
    cases h
    rcases List.mem_cons.mp ha with rfl | ha
    · exact ⟨b, List.mem_cons_self, hb⟩
    · obtain ⟨b', hb', hf⟩ := ih hbs ha
      exact ⟨b', List.mem_cons_of_mem _ hb', hf⟩

theorem checkRule_eq_nil {ρ : Type} {label name rule : String} {r : Option ρ} {check : ρ → List Failure} :
    checkRule label name rule r check = [] ↔
      validatorRange rule 1 65535 = true ∧ ∃ x, r = some x ∧ check x = [] := by
  cases hv : validatorRange rule 1 65535 with
  | false => simp [checkRule, hv]
  | true => cases r <;> simp [checkRule, hv]

theorem checkAction_eq_nil {at_ : List String} {action : Option String} :
    checkAction at_ action = [] ↔ ∃ a, action.filter isAction = some a := by
  rw [checkAction, failIf_eq_nil]
  cases action with
  | none => simp
  | some a => cases ha : isAction a <;> simp [Option.filter, ha]

theorem checkField_eq_nil {base at_ words : List String} {ok : String → Bool}
    {message : String → List String} :
    checkField c base at_ words ok message = [] ↔ ∀ s, c.value (base ++ words) = some s → ok s = true :=
  checkValue_eq_nil

theorem accessListRule_text {name rule : String}
    (h : quaggaConfigValidAccessListRule go c name rule = []) :
    validatorRange rule 1 65535 = true ∧ (Kind.accessList.ruleText go c name rule).isSome := by
  obtain ⟨hrange, r, hr, hcheck⟩ := checkRule_eq_nil.mp h
  simp only [List.append_eq_nil_iff, checkAction_eq_nil] at hcheck
  obtain ⟨a, ha⟩ := hcheck.1.1.1.1.1.1.1.1.1.1.1.1.1.1.1
  exact ⟨hrange, by simp [Kind.ruleText, accessListText, hr, ha]⟩

theorem accessList6Rule_text {name rule : String}
    (h : quaggaConfigValidAccessList6Rule go c name rule = []) :
    validatorRange rule 1 65535 = true ∧ (Kind.accessList6.ruleText go c name rule).isSome := by
  obtain ⟨hrange, r, hr, hcheck⟩ := checkRule_eq_nil.mp h
  simp only [List.append_eq_nil_iff, checkAction_eq_nil] at hcheck
  obtain ⟨a, ha⟩ := hcheck.1.1.1
  exact ⟨hrange, by simp [Kind.ruleText, accessList6Text, hr, ha]⟩

theorem regexText_isSome {at_ : List String} {r : RegexRule} (ha : checkAction at_ r.action = [])
    (hr : r.regex.isNone = false) : (regexText (some r)).isSome := by
  obtain ⟨a, ha⟩ := checkAction_eq_nil.mp ha
  rw [Option.isNone_eq_false_iff] at hr
  obtain ⟨e, he⟩ := Option.isSome_iff_exists.mp hr
  simp [regexText, ha, he]

theorem asPathListRule_text {name rule : String}
    (h : quaggaConfigValidAsPathListRule c name rule = []) :
    validatorRange rule 1 65535 = true ∧ (Kind.asPathList.ruleText go c name rule).isSome := by
  obtain ⟨hrange, r, hr, hcheck⟩ := checkRule_eq_nil.mp h
  rw [List.append_eq_nil_iff, failIf_eq_nil] at hcheck
  rw [Kind.ruleText, hr]
  exact ⟨hrange, regexText_isSome hcheck.1 hcheck.2⟩

theorem communityListRule_text {name rule : String}
    (h : quaggaConfigValidCommunityListRule c name rule = []) :
    validatorRange rule 1 65535 = true ∧ (Kind.communityList.ruleText go c name rule).isSome := by
  obtain ⟨hrange, r, hr, hcheck⟩ := checkRule_eq_nil.mp h
  rw [List.append_eq_nil_iff, List.append_eq_nil_iff, failIf_eq_nil] at hcheck
  rw [Kind.ruleText, hr]
  exact ⟨hrange, regexText_isSome hcheck.1.1 hcheck.1.2⟩

theorem validatorRange_mono {s : String} {min max max' : Int} (hm : max ≤ max')
    (h : validatorRange s min max = true) : validatorRange s min max' = true := by
  rw [validatorRange] at h ⊢
  cases hs : atoi s with
  | none => simp [hs] at h
  | some i =>
    simp only [hs, Bool.not_eq_true', Bool.or_eq_false_iff, decide_eq_false_iff_not, gt_iff_lt,
      not_lt] at h ⊢
    exact ⟨h.1, h.2.trans hm⟩

theorem checkPrefixRule_text {label name rule : String} {isCIDR : String → Bool} {max : Int}
    (hm : 32 ≤ max) (h : checkPrefixRule c label isCIDR name rule = []) :
    validatorRange rule 1 65535 = true ∧
      (prefixText isCIDR max rule (makePrefixRule c label name rule)).isSome := by
  obtain ⟨hrange, r, hr, hcheck⟩ := checkRule_eq_nil.mp h
  simp only [List.append_eq_nil_iff, checkAction_eq_nil, checkValue_eq_nil, failIf_eq_nil] at hcheck
  obtain ⟨⟨⟨⟨a, ha⟩, hle⟩, hge⟩, hp⟩ := hcheck
  obtain ⟨p, hp⟩ : ∃ p, r.ipPrefix.filter isCIDR = some p := by
    cases hr : r.ipPrefix with
    | none => simp [hr] at hp
    | some p => exact ⟨p, by simpa [hr, Option.filter] using hp⟩
  refine ⟨hrange, ?_⟩
  rw [hr]
  cases hge' : r.ge <;> cases hle' : r.le
  · simp [prefixText, ha, hp, hge', hle']
  · simp [prefixText, ha, hp, hge', hle', validatorRange_mono hm (hle _ hle')]
  · simp [prefixText, ha, hp, hge', hle', validatorRange_mono hm (hge _ hge')]
  · simp [prefixText, ha, hp, hge', hle', validatorRange_mono hm (hle _ hle'),
      validatorRange_mono hm (hge _ hge')]

/-- A name below a label is among its values when something is found below the name. -/
theorem mem_values_of_rule {label name rule : String}
    (h : rule ∈ c.values ["policy", label, name, "rule"]) : name ∈ c.values ["policy", label] := by
  have hrule : (c.lookup (["policy", label, name] ++ ["rule", rule])).isSome :=
    (Node.mem_values (List.cons_ne_nil _ _)).mp h
  rw [Node.lookup_append (List.cons_ne_nil _ _)] at hrule
  rw [Node.mem_values (List.cons_ne_nil _ _)]
  exact Option.isSome_of_isSome_bind hrule

/-- A rule of a valid candidate has a number, and a command. -/
theorem valid_ruleText (h : quaggaConfigValid go c = some true) {kind : Kind} {name rule : String}
    (hr : rule ∈ c.values ["policy", kind.label, name, "rule"]) :
    validatorRange rule 1 65535 = true ∧ (kind.ruleText go c name rule).isSome := by
  obtain ⟨ha, ha6, has, hc, hp, hp6, -, -, -⟩ := valid_parts h
  have hname := mem_values_of_rule hr
  cases kind with
  | accessList =>
    have hlist := List.flatMap_eq_nil_iff.mp ha name hname
    rw [quaggaConfigValidAccessList] at hlist
    split at hlist
    · nomatch hlist
    · exact accessListRule_text (List.flatMap_eq_nil_iff.mp hlist rule hr)
  | accessList6 =>
    obtain ⟨lists, hlists, hflat⟩ := Option.map_eq_some_iff.mp ha6
    obtain ⟨fs, hfs, hlist⟩ := mem_of_mapM hlists hname
    have hnil := List.flatten_eq_nil_iff.mp hflat fs hfs
    rw [quaggaConfigValidAccessList6] at hlist
    split at hlist
    · nomatch hlist
    · rw [Option.some.injEq, hnil, List.append_eq_nil_iff] at hlist
      exact accessList6Rule_text (List.flatMap_eq_nil_iff.mp hlist.2 rule hr)
  | asPathList =>
    have hlist := (List.append_eq_nil_iff.mp (List.flatMap_eq_nil_iff.mp has name hname)).2
    exact asPathListRule_text (List.flatMap_eq_nil_iff.mp hlist rule hr)
  | communityList =>
    have hlist := (List.append_eq_nil_iff.mp (List.flatMap_eq_nil_iff.mp hc name hname)).2
    exact communityListRule_text (List.flatMap_eq_nil_iff.mp hlist rule hr)
  | prefixList =>
    have hlist := (List.append_eq_nil_iff.mp (List.flatMap_eq_nil_iff.mp hp name hname)).2
    exact checkPrefixRule_text (by decide) (List.flatMap_eq_nil_iff.mp hlist rule hr)
  | prefixList6 =>
    have hlist := (List.append_eq_nil_iff.mp (List.flatMap_eq_nil_iff.mp hp6 name hname)).2
    exact checkPrefixRule_text (by decide) (List.flatMap_eq_nil_iff.mp hlist rule hr)

/-- A number that is in a range is a number. -/
theorem validatorRange_atoi {s : String} {min max : Int} (h : validatorRange s min max = true) :
    ∃ i, atoi s = some i := by
  rw [validatorRange] at h
  cases hs : atoi s with
  | none => simp [hs] at h
  | some i => exact ⟨i, rfl⟩

end OpenConfigd.Quaggad
