import OpenConfigd.Quaggad.RouteMapDaemon

/-!
# A commit of route-maps and the routing daemon

From the route-maps of the running tree, the commands of a commit lead the routing daemon to
those of the candidate just if no rule needs a command that quaggad does not spell as Quagga
does (`commit_simulates`). The calls of a commit are those of its route-maps, and the calls of
a route-map those of its rules, so that each rule is a matter of its own.
-/

namespace OpenConfigd.Quaggad

variable {go : Go} {time : Nat} {candidate running config : Node} {clears : Bool}
  {routeMap rule action command : String} {new r : RouteMapRule}

/-! ## Rules of a configuration -/

theorem makeRouteMapRule_isSome (routeMap rule : String) :
    (makeQuaggaRouteMapRule config routeMap rule).isSome = (config.lookup (rulePath "route-map" routeMap rule)).isSome :=
  Option.isSome_map

theorem mem_rules_iff :
    rule ∈ config.values ["policy", "route-map", routeMap, "rule"] ↔
      (makeQuaggaRouteMapRule config routeMap rule).isSome := by
  rw [makeRouteMapRule_isSome]
  exact Node.mem_values (List.cons_ne_nil _ _)

/-- Only the rules that the candidate lists are spelled. -/
theorem spelled_iff : Spelled clears candidate running ↔
    ∀ routeMap ∈ candidate.values ["policy", "route-map"],
      ∀ rule ∈ candidate.values ["policy", "route-map", routeMap, "rule"],
        ∀ r ∈ makeQuaggaRouteMapRule candidate routeMap rule, SpelledRule clears running routeMap rule r := by
  constructor
  · exact fun h routeMap _ rule _ r hr => h routeMap rule r hr
  · intro h routeMap rule r hr
    have hrule := mem_rules_iff.mpr (Option.isSome_of_eq_some hr)
    exact h routeMap (mem_values_of_rule hrule) rule hrule r hr

instance (clears : Bool) (candidate running : Node) : Decidable (Spelled clears candidate running) :=
  decidable_of_iff _ spelled_iff.symm

/-- A rule of a valid configuration has an action. -/
theorem RulesValid.hasAction (h : RulesValid go config) (hr : makeQuaggaRouteMapRule config routeMap rule = some r) :
    ∃ action, r.value ["action"] = some action ∧ isAction action = true := by
  have hrule : rule ∈ config.values ["policy", "route-map", routeMap, "rule"] :=
    mem_rules_iff.mpr (Option.isSome_of_eq_some hr)
  obtain ⟨-, x, hx, hcheck⟩ := checkRule_eq_nil.mp (h routeMap (mem_values_of_rule hrule) rule hrule)
  rw [hr] at hx
  cases hx
  simp only [List.append_eq_nil_iff, and_assoc, checkAction_eq_nil] at hcheck
  obtain ⟨⟨a, ha⟩, -⟩ := hcheck
  exact ⟨a, Option.filter_eq_some_iff.mp ha⟩

theorem rendered_of_none (h : makeQuaggaRouteMapRule config routeMap rule = none) :
    rendered config routeMap rule = none := by
  rw [rendered, h, Option.bind_none]

theorem rendered_of_some (h : makeQuaggaRouteMapRule config routeMap rule = some r)
    (ha : r.value ["action"] = some action) : rendered config routeMap rule = some ⟨action, r.fields⟩ := by
  rw [rendered, h, Option.bind_some, ha, Option.map_some]

/-! ## A rule of the candidate -/

/-- What the daemon has of a rule that it has entered. -/
theorem enter_rendered (h : RulesValid go running) (ha : r.value ["action"] = some action) :
    DaemonRule.enter clears action (rendered running routeMap rule) =
      ⟨action, fun command => (keptRule clears running routeMap rule r).bind (·.fields command)⟩ := by
  rw [keptRule]
  cases hold : makeQuaggaRouteMapRule running routeMap rule with
  | none => rw [rendered_of_none hold]; rfl
  | some old =>
    obtain ⟨action', ha', -⟩ := h.hasAction hold
    rw [rendered_of_some hold ha', DaemonRule.enter, Option.filter_some, ha, ha']
    by_cases heq : action' = action
    · subst heq
      simp
    · cases clears <;> simp [heq]

/-- The field of a block in a rule that has been entered is that of the running rule, or has been
cleared. -/
theorem entered_kept (h : RulesValid go running) (ha : r.value ["action"] = some action) (b : Block) :
    Entered (((makeQuaggaRouteMapRule running routeMap rule).bind (·.value ["action"])).any (· ≠ action))
      ((makeQuaggaRouteMapRule running routeMap rule).bind fun old => b.read old)
      ((keptRule clears running routeMap rule r).bind fun old => b.read old) := by
  rw [keptRule]
  cases hold : makeQuaggaRouteMapRule running routeMap rule with
  | none => exact .inl rfl
  | some old =>
    obtain ⟨action', ha', -⟩ := h.hasAction hold
    rw [Option.filter_some]
    split
    · exact .inl rfl
    · rename_i hne
      refine .inr ⟨?_, rfl⟩
      rw [Bool.not_eq_true, Bool.or_eq_false_iff, ha, ha', decide_eq_false_iff_not, Option.some.injEq] at hne
      rw [Option.bind_some, ha', Option.any_some, decide_eq_true_eq]
      exact hne.2

theorem bind_read_value {words : List String} {set unset : String} (kept : Option RouteMapRule) :
    (kept.bind fun old => (Block.value words set unset).read old) =
      (kept.bind (·.value words)).map fun v => [v] := by
  cases kept <;> rfl

/-- The lines of a rule make its fields those of the candidate just if quaggad spells what they
need. -/
theorem foldl_lines_iff (h : RulesValid go running) (ha : r.value ["action"] = some action) :
    (∀ command, (blocks.flatMap (Block.lines
        (((makeQuaggaRouteMapRule running routeMap rule).bind (·.value ["action"])).any (· ≠ action))
        (makeQuaggaRouteMapRule running routeMap rule) r)).foldl
          (Cells.actOn DaemonRule.concerns DaemonRule.assign command)
          ((keptRule clears running routeMap rule r).bind (·.fields command)) = r.fields command) ↔
      SpelledRule clears running routeMap rule r := by
  have hentered := @entered_kept _ _ clears routeMap rule _ _ h ha
  rw [SpelledRule]
  generalize ((makeQuaggaRouteMapRule running routeMap rule).bind (·.value ["action"])).any _ = changed
    at hentered ⊢
  generalize makeQuaggaRouteMapRule running routeMap rule = old at hentered ⊢
  generalize keptRule clears running routeMap rule r = kept at hentered ⊢
  -- each field is a matter of its own block
  have hfield : ∀ f ∈ routeMapFields, ((blocks.flatMap (Block.lines changed old r)).foldl
      (Cells.actOn DaemonRule.concerns DaemonRule.assign f.1) (kept.bind (·.fields f.1)) = r.fields f.1 ↔
      (f.2.lines changed old r).foldl (Cells.actOn DaemonRule.concerns DaemonRule.assign f.1)
        (kept.bind fun k => f.2.read k) = f.2.read r) := by
    intro f hf
    have hstart : kept.bind (·.fields f.1) = kept.bind fun k => f.2.read k := by
      cases kept with
      | none => rfl
      | some k => exact fields_of_mem hf k
    rw [foldl_blocks hf, hstart, fields_of_mem hf]
  constructor
  · intro hall
    constructor
    · intro words hwords
      obtain ⟨f, hf, hb, hset, hunset⟩ := mem_routeMapFields_nextHops hwords
      have heq := (hfield f hf).mp (hall f.1)
      rw [hb, foldl_unknown hset hunset, bind_read_value, Block.read] at heq
      exact Option.map_injective (fun _ _ => List.singleton_inj.mp) heq
    · obtain ⟨f, hf, hb, hset, hunset⟩ := mem_routeMapFields_routeSource
      have heq := (hfield f hf).mp (hall f.1)
      have hv := hentered f.2
      rw [hb] at heq hv
      have hsome := (foldl_setOnly hset hunset hv).mp heq
      rwa [bind_read_value, Option.isSome_map] at hsome
  · rintro ⟨hhops, hsource⟩ command
    by_cases hc : command ∈ routeMapFields.map Prod.fst
    · obtain ⟨f, hf, rfl⟩ := List.mem_map.mp hc
      rw [hfield f hf]
      have hv := hentered f.2
      rcases routeMapFields_spelled hf with hspelled | ⟨words, hwords, hb, hset, hunset⟩ | ⟨hb, hset, hunset⟩
      · exact foldl_spelled hspelled hv
      · rw [hb, foldl_unknown hset hunset, bind_read_value, hhops words hwords, Block.read]
      · rw [hb] at hv ⊢
        refine (foldl_setOnly hset hunset hv).mpr ?_
        rwa [bind_read_value, Option.isSome_map]
    · rw [foldl_blocks_of_not_mem hc, fields_of_not_mem hc]
      cases kept with
      | none => rfl
      | some k => exact fields_of_not_mem hc k

/-! ## The calls of a rule -/

/-- The lines below a rule that has been entered. -/
theorem foldl_act_lines (lines : List Line) (e : DaemonRule) (he : e.action = action) :
    (lines.map fun l => RouteMapCall.rule routeMap rule action (some l)).foldl (RouteMaps.act clears) (some e) =
      some (lines.foldl DaemonRule.exec e) := by
  induction lines generalizing e with
  | nil => rfl
  | cons l lines ih =>
    have hact : RouteMaps.act clears (some e) (.rule routeMap rule action (some l)) =
        some (DaemonRule.exec e l) := by
      rw [RouteMaps.act, DaemonRule.enter, if_pos he]
      rfl
    rw [List.map_cons, List.foldl_cons, List.foldl_cons, hact, ih (DaemonRule.exec e l) he]

/-- The commit of a rule leads to the rule of the candidate just if quaggad spells what it
needs. -/
theorem foldl_commitRule_iff (h : RulesValid go running) (hc : RulesValid go candidate)
    (hr : makeQuaggaRouteMapRule candidate routeMap rule = some r) :
    (commitRule candidate running routeMap rule).foldl (RouteMaps.act clears) (rendered running routeMap rule) =
      rendered candidate routeMap rule ↔ SpelledRule clears running routeMap rule r := by
  obtain ⟨action, ha, haction⟩ := hc.hasAction hr
  have hcalls : commitRule candidate running routeMap rule = .rule routeMap rule action none ::
      (blocks.flatMap (Block.lines
        (((makeQuaggaRouteMapRule running routeMap rule).bind (·.value ["action"])).any (· ≠ action))
        (makeQuaggaRouteMapRule running routeMap rule) r)).map fun l => .rule routeMap rule action (some l) := by
    rw [commitRule, hr]
    simp only [ha, haction, Bool.not_true, Bool.false_eq_true, if_false]
  have henter : RouteMaps.act clears (rendered running routeMap rule) (.rule routeMap rule action none) =
      some (DaemonRule.enter clears action (rendered running routeMap rule)) := rfl
  rw [hcalls, List.foldl_cons, henter, enter_rendered h ha, foldl_act_lines _ _ rfl, rendered_of_some hr ha,
    Option.some.injEq, DaemonRule.ext_iff, foldl_exec_action, foldl_exec_fields, funext_iff,
    ← foldl_lines_iff h ha]
  simp only [true_and, Cells.foldl_exec]

theorem mem_removeRule {c : RouteMapCall} (hcall : c ∈ removeRule candidate running routeMap rule) :
    (candidate.lookup (rulePath "route-map" routeMap rule)).isSome = false ∧
      ∃ action, c = .noRule routeMap rule action := by
  rw [removeRule] at hcall
  split at hcall
  · cases hcall
  · rename_i hnot
    obtain ⟨action, -, rfl⟩ := Option.map_eq_some_iff.mp (Option.mem_toList.mp hcall)
    exact ⟨Bool.not_eq_true _ ▸ hnot, action, rfl⟩

theorem mem_commitRule {c : RouteMapCall} (hcall : c ∈ commitRule candidate running routeMap rule) :
    (makeQuaggaRouteMapRule candidate routeMap rule).isSome ∧
      ∃ action line, c = .rule routeMap rule action line := by
  rw [commitRule] at hcall
  cases hr : makeQuaggaRouteMapRule candidate routeMap rule with
  | none =>
    rw [hr] at hcall
    cases hcall
  | some r =>
    rw [hr] at hcall
    dsimp only at hcall
    refine ⟨rfl, ?_⟩
    split at hcall
    · cases hcall
    · rename_i action _
      split_ifs at hcall
      · cases hcall
      · rcases List.mem_cons.mp hcall with rfl | hcall
        · exact ⟨action, none, rfl⟩
        · obtain ⟨l, -, rfl⟩ := List.mem_map.mp hcall
          exact ⟨action, some l, rfl⟩

/-! ## The calls of a route-map -/

/-- A call of the first loop is about its rule. -/
theorem owner_removeRule {rules : List String} : ∀ rule ∈ rules, ∀ c ∈ removeRule candidate running routeMap rule,
    ∀ k, RouteMaps.concerns c k = true → id k = (routeMap, rule) := by
  intro rule _ c hcall k hk
  obtain ⟨-, action, rfl⟩ := mem_removeRule hcall
  rw [RouteMaps.concerns, Bool.and_eq_true, decide_eq_true_eq, decide_eq_true_eq] at hk
  exact Prod.ext hk.1.symm hk.2.symm

/-- And one of the second loop about its own. -/
theorem owner_commitRule {rules : List String} : ∀ rule ∈ rules, ∀ c ∈ commitRule candidate running routeMap rule,
    ∀ k, RouteMaps.concerns c k = true → id k = (routeMap, rule) := by
  intro rule _ c hcall k hk
  obtain ⟨-, action, line, rfl⟩ := mem_commitRule hcall
  rw [RouteMaps.concerns, Bool.and_eq_true, decide_eq_true_eq, decide_eq_true_eq] at hk
  exact Prod.ext hk.1.symm hk.2.symm

theorem nodup_pairs {rules : List String} (h : rules.Nodup) (routeMap : String) :
    (rules.map fun rule => (routeMap, rule)).Nodup :=
  h.map fun _ _ heq => (Prod.mk.inj heq).2

/-- The first loop leaves a rule of the candidate as it is. -/
theorem foldl_removeRules_of_some (hr : makeQuaggaRouteMapRule candidate routeMap rule = some r) (rules : List String)
    (v : Option DaemonRule) : (rules.flatMap (removeRule candidate running routeMap)).foldl
      (Cells.actOn RouteMaps.concerns (RouteMaps.act clears) (routeMap, rule)) v = v := by
  refine Cells.foldl_of_not (fun c hcall => ?_) v
  obtain ⟨rule', hrule', hcall⟩ := List.mem_flatMap.mp hcall
  refine Bool.eq_false_iff.mpr fun hk => ?_
  cases owner_removeRule rule' hrule' c hcall _ hk
  have hsome := @makeRouteMapRule_isSome candidate routeMap rule
  rw [(mem_removeRule hcall).1, hr] at hsome
  cases hsome

/-- And removes any other. -/
theorem foldl_removeRules_of_none (h : RulesValid go running) {rules : List String} (hnodup : rules.Nodup)
    (hrules : ∀ rule, rule ∈ rules ↔ (makeQuaggaRouteMapRule running routeMap rule).isSome)
    (hr : makeQuaggaRouteMapRule candidate routeMap rule = none) :
    (rules.flatMap (removeRule candidate running routeMap)).foldl
      (Cells.actOn RouteMaps.concerns (RouteMaps.act clears) (routeMap, rule)) (rendered running routeMap rule) =
        none := by
  cases hold : makeQuaggaRouteMapRule running routeMap rule with
  | none =>
    have hnot : ∀ rule' ∈ rules, (routeMap, rule') ≠ id (routeMap, rule) := by
      intro rule' hmem heq
      cases heq
      have hsome := (hrules rule).mp hmem
      rw [hold] at hsome
      cases hsome
    rw [Cells.foldl_flatMap_of_not_mem owner_removeRule hnot, rendered_of_none hold]
  | some old =>
    have hmem : rule ∈ rules := (hrules rule).mpr (Option.isSome_of_eq_some hold)
    obtain ⟨action, ha, -⟩ := h.hasAction hold
    have hcalls : removeRule candidate running routeMap rule = [.noRule routeMap rule action] := by
      have hvalue : running.value (rulePath "route-map" routeMap rule ++ ["action"]) = some action := by
        obtain ⟨t, -, rfl⟩ := Option.map_eq_some_iff.mp hold
        exact ha
      have hsome := @makeRouteMapRule_isSome candidate routeMap rule
      rw [hr] at hsome
      rw [removeRule, ← hsome, hvalue]
      rfl
    rw [Cells.foldl_flatMap_of_mem owner_removeRule (nodup_pairs hnodup routeMap) hmem rfl, hcalls,
      rendered_of_some hold ha]
    simp [Cells.actOn, RouteMaps.concerns, RouteMaps.act]

/-- The commit of a route-map leads each of its rules to that of the candidate just if quaggad
spells what it needs. -/
theorem foldl_commitRouteMap_iff (h : RulesValid go running) (hc : RulesValid go candidate) :
    (quaggaConfigCommitRouteMap go time candidate running routeMap).foldl
        (Cells.actOn RouteMaps.concerns (RouteMaps.act clears) (routeMap, rule)) (rendered running routeMap rule) =
      rendered candidate routeMap rule ↔
      ∀ r, makeQuaggaRouteMapRule candidate routeMap rule = some r → SpelledRule clears running routeMap rule r := by
  have hremove := go.range_perm time (running.values ["policy", "route-map", routeMap, "rule"])
  have hcommit := (go.sort_perm ruleLess _).trans
    (go.range_perm time (candidate.values ["policy", "route-map", routeMap, "rule"]))
  rw [quaggaConfigCommitRouteMap, quaggaRuleSort, List.foldl_append]
  cases hr : makeQuaggaRouteMapRule candidate routeMap rule with
  | none =>
    have hrules := fun rule => hremove.mem_iff.trans (@mem_rules_iff running routeMap rule)
    have hnot : ∀ rule' ∈ go.sort ruleLess (go.range time (candidate.values ["policy", "route-map", routeMap, "rule"])),
        (routeMap, rule') ≠ id (routeMap, rule) := by
      intro rule' hmem heq
      cases heq
      have hsome := mem_rules_iff.mp (hcommit.mem_iff.mp hmem)
      rw [hr] at hsome
      cases hsome
    rw [foldl_removeRules_of_none h (hremove.nodup_iff.mpr (Node.values_nodup _ _)) hrules hr,
      Cells.foldl_flatMap_of_not_mem owner_commitRule hnot, rendered_of_none hr]
    simp
  | some r =>
    have hmem : rule ∈ go.sort ruleLess (go.range time (candidate.values ["policy", "route-map", routeMap, "rule"])) :=
      hcommit.mem_iff.mpr (mem_rules_iff.mpr (Option.isSome_of_eq_some hr))
    have hnodup := nodup_pairs (hcommit.nodup_iff.mpr (Node.values_nodup _ _)) routeMap
    have hall : ∀ c ∈ commitRule candidate running routeMap rule, RouteMaps.concerns c (routeMap, rule) = true := by
      intro c hcall
      obtain ⟨-, action, line, rfl⟩ := mem_commitRule hcall
      rw [RouteMaps.concerns, decide_eq_true rfl, decide_eq_true rfl, Bool.and_self]
    rw [foldl_removeRules_of_some hr, Cells.foldl_flatMap_of_mem owner_commitRule hnodup hmem rfl,
      Cells.foldl_of_all hall, foldl_commitRule_iff h hc hr]
    simp

/-! ## The calls of a commit -/

theorem owner_noRouteMap {names : List String} : ∀ name ∈ names, ∀ c ∈ [RouteMapCall.noRouteMap name],
    ∀ k : String × String, RouteMaps.concerns c k = true → k.1 = name := by
  intro name _ c hcall k hk
  rw [List.mem_singleton.mp hcall, RouteMaps.concerns, decide_eq_true_eq] at hk
  exact hk.symm

/-- The calls of a route-map are about its rules. -/
theorem owner_commitRouteMap {names : List String} : ∀ name ∈ names,
    ∀ c ∈ (if quaggaConfigStateDiff candidate running ["policy", "route-map", name] then
      quaggaConfigCommitRouteMap go time candidate running name else []),
    ∀ k : String × String, RouteMaps.concerns c k = true → k.1 = name := by
  intro name _ c hcall k hk
  split at hcall
  · rcases List.mem_append.mp hcall with hcall | hcall
    · obtain ⟨rule, hrule, hcall⟩ := List.mem_flatMap.mp hcall
      exact congrArg Prod.fst (owner_removeRule rule hrule c hcall k hk)
    · obtain ⟨rule, hrule, hcall⟩ := List.mem_flatMap.mp hcall
      exact congrArg Prod.fst (owner_commitRule rule hrule c hcall k hk)
  · cases hcall

/-- A rule of a route-map that is the same in both trees is the same, and needs no command. -/
theorem rendered_of_sameAt (h : Node.SameAt ["policy", "route-map", routeMap] candidate running) (rule : String) :
    rendered running routeMap rule = rendered candidate routeMap rule ∧
      ∀ r, makeQuaggaRouteMapRule candidate routeMap rule = some r → SpelledRule clears running routeMap rule r := by
  have hmake : makeQuaggaRouteMapRule candidate routeMap rule = makeQuaggaRouteMapRule running routeMap rule :=
    makeRule_congr h rule (by simp only [value_rule h, has_rule h])
  rw [rendered, rendered, hmake]
  refine ⟨rfl, fun r hr => ?_⟩
  have hkept : keptRule clears running routeMap rule r = some r := by
    rw [keptRule, hr, Option.filter_some, decide_eq_true rfl, Bool.or_true, if_pos rfl]
  rw [SpelledRule, hkept]
  exact ⟨fun words _ => rfl, id⟩

/-- A route-map that is not there has no rules. -/
theorem makeRouteMapRule_of_not_mem (h : routeMap ∉ config.values ["policy", "route-map"]) (rule : String) :
    makeQuaggaRouteMapRule config routeMap rule = none := by
  rw [← Option.isNone_iff_eq_none, ← Option.isSome_eq_false_iff, Bool.eq_false_iff]
  exact fun hsome => h (mem_values_of_rule (mem_rules_iff.mpr hsome))

/-- The names of the route-maps that the candidate does not have. -/
theorem mem_removed {name : String} :
    name ∈ (go.range time (running.values ["policy", "route-map"])).filter
        (fun name => (candidate.lookup ["policy", "route-map", name]).isNone) ↔
      name ∈ running.values ["policy", "route-map"] ∧ name ∉ candidate.values ["policy", "route-map"] := by
  have hvalues : name ∈ candidate.values ["policy", "route-map"] ↔
      (candidate.lookup ["policy", "route-map", name]).isSome := Node.mem_values (List.cons_ne_nil _ _)
  rw [List.mem_filter, (go.range_perm time _).mem_iff, hvalues, Option.isNone_iff_eq_none, Option.not_isSome_iff_eq_none]

/-- What a commit makes of a rule. -/
theorem after_commit_iff (h : RulesValid go running) (hc : RulesValid go candidate) (routeMap rule : String) :
    RouteMaps.after clears (quaggaConfigCommitRouteMaps go time candidate running) (rendered running) routeMap rule =
      rendered candidate routeMap rule ↔
      ∀ r, makeQuaggaRouteMapRule candidate routeMap rule = some r → SpelledRule clears running routeMap rule r := by
  have hnames := go.range_perm time (candidate.values ["policy", "route-map"])
  rw [RouteMaps.after, Cells.foldl_exec, quaggaConfigCommitRouteMaps, List.foldl_append, List.map_eq_flatMap]
  by_cases hmem : routeMap ∈ candidate.values ["policy", "route-map"]
  · have hkeep : ∀ name ∈ (go.range time (running.values ["policy", "route-map"])).filter
        (fun name => (candidate.lookup ["policy", "route-map", name]).isNone), name ≠ (routeMap, rule).1 := by
      rintro name hname rfl
      exact (mem_removed.mp hname).2 hmem
    have hnodup : ((go.range time (candidate.values ["policy", "route-map"])).map id).Nodup := by
      rw [List.map_id]
      exact hnames.nodup_iff.mpr (Node.values_nodup _ _)
    rw [Cells.foldl_flatMap_of_not_mem owner_noRouteMap hkeep,
      Cells.foldl_flatMap_of_mem owner_commitRouteMap hnodup (hnames.mem_iff.mpr hmem) rfl]
    cases hdiff : quaggaConfigStateDiff candidate running ["policy", "route-map", routeMap] with
    | true => exact foldl_commitRouteMap_iff h hc
    | false =>
      obtain ⟨hsame, hspelled⟩ := rendered_of_sameAt (Node.diff_eq_false.mp hdiff) rule
      exact iff_of_true hsame hspelled
  · have hr := makeRouteMapRule_of_not_mem hmem rule
    have hnot : ∀ name ∈ go.range time (candidate.values ["policy", "route-map"]), name ≠ (routeMap, rule).1 := by
      rintro name hname rfl
      exact hmem (hnames.mem_iff.mp hname)
    rw [Cells.foldl_flatMap_of_not_mem owner_commitRouteMap hnot, rendered_of_none hr]
    refine iff_of_true ?_ (fun r hr' => by rw [hr] at hr'; cases hr')
    by_cases hrunning : routeMap ∈ running.values ["policy", "route-map"]
    · have hnodup : (((go.range time (running.values ["policy", "route-map"])).filter
          (fun name => (candidate.lookup ["policy", "route-map", name]).isNone)).map id).Nodup := by
        rw [List.map_id]
        exact (((go.range_perm time _).nodup_iff).mpr (Node.values_nodup _ _)).filter _
      rw [Cells.foldl_flatMap_of_mem owner_noRouteMap hnodup (mem_removed.mpr ⟨hrunning, hmem⟩) rfl]
      simp [Cells.actOn, RouteMaps.concerns, RouteMaps.act]
    · have hnone : ∀ name ∈ (go.range time (running.values ["policy", "route-map"])).filter
          (fun name => (candidate.lookup ["policy", "route-map", name]).isNone), name ≠ (routeMap, rule).1 := by
        rintro name hname rfl
        exact hrunning (mem_removed.mp hname).1
      rw [Cells.foldl_flatMap_of_not_mem owner_noRouteMap hnone,
        rendered_of_none (makeRouteMapRule_of_not_mem hrunning rule)]

/-- From the route-maps of the running tree, the commands of a commit lead the daemon to those
of the candidate just if quaggad spells all that the rules need. -/
theorem commit_simulates (h : RulesValid go running) (hc : RulesValid go candidate) :
    RouteMaps.after clears (quaggaConfigCommitRouteMaps go time candidate running) (rendered running) =
      rendered candidate ↔ Spelled clears candidate running := by
  rw [funext_iff, Spelled]
  refine forall_congr' fun routeMap => ?_
  rw [funext_iff]
  exact forall_congr' fun rule => after_commit_iff h hc routeMap rule

/-- A rule of another action gains a field and loses one. -/
theorem commit_simulates_changed :
    let rule := ["policy", "route-map", "RM", "rule", "10"]
    let running := (Node.make.quaggaConfigStateSet (rule ++ ["action", "permit"])).quaggaConfigStateSet
      (rule ++ ["match", "metric", "5"])
    let candidate := (Node.make.quaggaConfigStateSet (rule ++ ["action", "deny"])).quaggaConfigStateSet
      (rule ++ ["set", "weight", "7"])
    RouteMaps.after true (quaggaConfigCommitRouteMaps plainGo 0 candidate running) (rendered running) =
      rendered candidate :=
  (commit_simulates (by decide +kernel) (by decide +kernel)).mpr (by decide +kernel)

/-- A next hop of a new rule does not come to the daemon. -/
theorem commit_loses_nexthop :
    let list := ["policy", "prefix-list", "PL", "rule", "10"]
    let rule := ["policy", "route-map", "RM", "rule", "10"]
    let candidate := Node.make.quaggaConfigStateSet (list ++ ["action", "permit"])
      |>.quaggaConfigStateSet (list ++ ["prefix", "10.0.0.0/8"])
      |>.quaggaConfigStateSet (rule ++ ["action", "permit"])
      |>.quaggaConfigStateSet (rule ++ ["match", "ip", "nexthop", "prefix-list", "PL"])
    quaggaConfigValid plainGo candidate = some true ∧ RulesValid plainGo Node.make ∧ RulesValid plainGo candidate ∧
      ∀ clears, RouteMaps.after clears (quaggaConfigCommitRouteMaps plainGo 0 candidate Node.make)
        (rendered Node.make) ≠ rendered candidate := by
  refine ⟨by decide +kernel, by decide +kernel, by decide +kernel, fun clears h => ?_⟩
  have hfield := congrArg (fun e => e.bind (·.fields "match ip next-hop prefix-list")) (congrFun (congrFun h "RM") "10")
  revert hfield
  cases clears <;> decide +kernel

end OpenConfigd.Quaggad
