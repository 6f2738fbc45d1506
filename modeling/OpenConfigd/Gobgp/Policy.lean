import OpenConfigd.Go.Map

/-!
# The policies of the GoBGP server

The tables of defined sets, statements and policies of the server, with the requests that change
them, and the functions of `gobgp.go` that set and clear the policies of a configuration.

* `Bare.clear_set`: tables without policies have none once a configuration is set and cleared;
* `setPolicies_clear`: setting it once more leads to the same tables.

A policy has pointers to statements of `statementMap`, here their names: a statement that a policy
uses is not deleted. The policies of single neighbours are left out: `AddNeighbor` takes them from
the tables, and the functions of `gobgp.go` add neighbours only when they have cleared these.
-/

namespace OpenConfigd.Gobgp

/-! ## The tables -/

inductive DefinedType where
  | ipPrefix | neighbor | asPath | community | extCommunity | largeCommunity
  deriving DecidableEq

inductive ConditionType where
  | ipPrefix | neighbor | asPath | community | extCommunity | asPathLength | rpki | routeType
  | largeCommunity | nextHop | afiSafiIn
  deriving DecidableEq

/-- The type of the set that a condition names. -/
def ConditionType.definedType : ConditionType → Option DefinedType
  | .ipPrefix => some .ipPrefix
  | .neighbor => some .neighbor
  | .asPath => some .asPath
  | .community => some .community
  | .extCommunity => some .extCommunity
  | .largeCommunity => some .largeCommunity
  | .asPathLength | .rpki | .routeType | .nextHop | .afiSafiIn => none

inductive ActionType where
  | community | extCommunity | med | asPrepend | nextHop | localPref | largeCommunity
  deriving DecidableEq

inductive RouteType where
  | none | accept | reject
  deriving DecidableEq

/-- `PolicyDirection`. -/
inductive PolicyDirection where
  | inPolicy | importPolicy | exportPolicy

structure DefinedSet (E : Type) where
  type : DefinedType
  name : String
  list : List E

structure Condition (E : Type) where
  type : ConditionType
  name : String
  arg : E

/-- `Statement`. The route action says whether the route is accepted. -/
structure Statement (E : Type) where
  name : String
  conditions : List (Condition E)
  routeAction : Option Bool
  modActions : List (ActionType × E)

structure Policy (E : Type) where
  name : String
  statements : List (Statement E)

/-- The policies of the global table in one direction, and what becomes of the other routes. -/
structure Assignment where
  policies : List String := []
  default : RouteType := .none

/-- `RoutingPolicy`. There are no types of sets before the first start of the server. -/
structure RoutingPolicy (E : Type) where
  definedSetMap : Option (GoMap (DefinedType × String) (List E)) := none
  statementMap : GoMap String (Statement E) := ∅
  policyMap : GoMap String (List String) := ∅
  importPolicies : Assignment := {}
  exportPolicies : Assignment := {}

/-- `Statement.Add`, which changes nothing where something is set already. -/
def Statement.add {E : Type} (lhs rhs : Statement E) : Statement E :=
  if (rhs.conditions.any fun x => lhs.conditions.any fun y => x.type = y.type) ||
      (rhs.routeAction.isSome && lhs.routeAction.isSome) ||
      (rhs.modActions.any fun x => lhs.modActions.any fun y => x.1 = y.1) then lhs
  else { lhs with
    conditions := lhs.conditions ++ rhs.conditions
    routeAction := rhs.routeAction.or lhs.routeAction
    modActions := lhs.modActions ++ rhs.modActions }

namespace Assignment

/-- `AddPolicyAssignment` for the policies that are there. -/
def add (known : String → Bool) (a : Assignment) (names : List String) (defaultRouteType : RouteType) : Assignment :=
  if names.all known && decide (a.policies ++ names).Nodup then
    { policies := a.policies ++ names, default := if defaultRouteType = .none then a.default else defaultRouteType }
  else a

/-- `DeletePolicyAssignment` of some policies. -/
def delete (known : String → Bool) (a : Assignment) (names : List String) : Assignment :=
  if names.all known && decide names.Nodup then
    { a with policies := a.policies.filter fun y => !names.contains y }
  else a

end Assignment

namespace RoutingPolicy

variable {E : Type} (r : RoutingPolicy E)

/-- The set that the condition names is there. -/
def validateCondition (v : Condition E) : Bool :=
  match v.type.definedType with
  | some type => (r.definedSetMap.bind fun m => m.lookup (type, v.name)).isSome
  | none => true

/-- A policy has a condition with a set of the name. -/
def inUse (name : String) : Bool :=
  r.policyMap.entries.any fun p => p.2.any fun st =>
    ((r.statementMap.lookup st).map fun s =>
      s.conditions.any fun c => c.type.definedType.isSome && c.name == name).getD false

def hasPolicy (name : String) : Bool := (r.policyMap.lookup name).isSome

def statementInUse (name : String) : Bool :=
  r.policyMap.entries.any fun p => p.2.contains name

def addDefinedSet (s : DefinedSet E) : RoutingPolicy E :=
  { r with definedSetMap := r.definedSetMap.map fun m =>
      m.insert (s.type, s.name) (m.at? (s.type, s.name) [] ++ s.list) }

/-- `DeleteDefinedSet` of a whole set. -/
def deleteDefinedSet (a : DefinedSet E) : RoutingPolicy E :=
  if r.inUse a.name then r
  else { r with definedSetMap := r.definedSetMap.map fun m => m.erase (a.type, a.name) }

def addStatement (st : Statement E) : RoutingPolicy E :=
  if st.conditions.all r.validateCondition then
    let added := ((r.statementMap.lookup st.name).map fun d => d.add st).getD st
    { r with statementMap := r.statementMap.insert st.name added }
  else r

/-- `DeleteStatement` of a whole statement. -/
def deleteStatement (name : String) : RoutingPolicy E :=
  if r.statementInUse name then r else { r with statementMap := r.statementMap.erase name }

/-- `AddPolicy` of statements that were added before. -/
def addPolicy (x : Policy E) : RoutingPolicy E :=
  if x.statements.all fun st => st.conditions.all r.validateCondition then
    { r with policyMap := r.policyMap.insert x.name (r.policyMap.at? x.name [] ++ x.statements.map (·.name)) }
  else r

/-- `DeletePolicy` of a whole policy, with its statements. Only exporting policies count as used. -/
def deletePolicy (name : String) : RoutingPolicy E :=
  match r.policyMap.lookup name with
  | none => r
  | some statements =>
    if r.exportPolicies.policies.contains name then r
    else statements.foldl deleteStatement { r with policyMap := r.policyMap.erase name }

/-- `AddPolicyAssignment` for the global table, which has no policies of the direction `in`. -/
def addPolicyAssignment (dir : PolicyDirection) (names : List String) (defaultRouteType : RouteType) : RoutingPolicy E :=
  match dir with
  | .importPolicy => { r with importPolicies := r.importPolicies.add r.hasPolicy names defaultRouteType }
  | .exportPolicy => { r with exportPolicies := r.exportPolicies.add r.hasPolicy names defaultRouteType }
  | .inPolicy => r

/-- `DeletePolicyAssignment` for the global table. -/
def deletePolicyAssignment (dir : PolicyDirection) (names : List String) : RoutingPolicy E :=
  match dir with
  | .importPolicy => { r with importPolicies := r.importPolicies.delete r.hasPolicy names }
  | .exportPolicy => { r with exportPolicies := r.exportPolicies.delete r.hasPolicy names }
  | .inPolicy => r

/-- The tables after a start of the server. -/
def reset : RoutingPolicy E where
  definedSetMap := some ∅
  importPolicies := { default := .accept }
  exportPolicies := { default := .accept }

end RoutingPolicy

/-! ## The policies of a configuration -/

/-- `NeighborSet`, `CommunitySet` and `ExtCommunitySet`. -/
structure SetConfig where
  name : String
  list : List String
  deriving DecidableEq

structure DefinedSets where
  neighborSets : List SetConfig := []
  communitySets : List SetConfig := []
  extCommunitySets : List SetConfig := []
  deriving DecidableEq

/-- A statement of the configuration: its name, and its conditions and actions. -/
structure StatementConfig (B : Type) where
  name : String
  body : B

structure PolicyDefinition (B : Type) where
  name : String
  statements : List (StatementConfig B)

structure ApplyPolicy where
  exportPolicyList : List String := []
  defaultExportPolicy : String := ""
  importPolicyList : List String := []
  defaultImportPolicy : String := ""
  inPolicyList : List String := []
  defaultInPolicy : String := ""
  deriving DecidableEq

/-- What GoBGP reads in the texts of a configuration. -/
structure PolicyParsers (B E : Type) where
  neighbor : String → Option E
  parseCommunityRegexp : String → Option E
  parseExtCommunityRegexp : String → Option E
  statement : B → Option (List (Condition E) × Option Bool × List (ActionType × E))

variable {B E : Type} (parsers : PolicyParsers B E)

/-- `NewNeighborSet`, `NewCommunitySet` and `NewExtCommunitySet`; none without a name, and where a
text is not right. -/
def newSet (type : DefinedType) (parse : String → Option E) (c : SetConfig) : Option (DefinedSet E) :=
  if c.name = "" then none else (c.list.mapM parse).map fun list => ⟨type, c.name, list⟩

/-- The sets in the order in which they are set and cleared. -/
def DefinedSets.sets (cfg : DefinedSets) : List (DefinedSet E) :=
  cfg.neighborSets.filterMap (newSet .neighbor parsers.neighbor) ++
    cfg.communitySets.filterMap (newSet .community parsers.parseCommunityRegexp) ++
    cfg.extCommunitySets.filterMap (newSet .extCommunity parsers.parseExtCommunityRegexp)

/-- `NewPolicy`, which gives statements without a name one. -/
def newPolicy (c : PolicyDefinition B) : Option (Policy E) :=
  if c.name = "" then none
  else (c.statements.zipIdx.mapM fun st => (parsers.statement st.1.body).map fun x =>
      Statement.mk (if st.1.name = "" then c.name ++ "_stmt" ++ toString st.2 else st.1.name)
        x.1 x.2.1 x.2.2).map fun statements => ⟨c.name, statements⟩

/-- `DefaultPolicyTypeToIntMap`. -/
def defaultPolicyTypeToIntMap : String → RouteType
  | "accept-route" => .accept
  | "reject-route" => .reject
  | _ => .none

section

variable (r : RoutingPolicy E)

def gobgpAddPolicyDefinition (cfg : PolicyDefinition B) : RoutingPolicy E :=
  match newPolicy parsers cfg with
  | none => r
  | some policy => (policy.statements.foldl RoutingPolicy.addStatement r).addPolicy policy

def gobgpDeletePolicyDefinition (cfg : PolicyDefinition B) : RoutingPolicy E :=
  match newPolicy parsers cfg with
  | none => r
  | some policy =>
    policy.statements.foldl (fun r st => r.deleteStatement st.name) (r.deletePolicy policy.name)

def gobgpAddGlobalPolicy (dir : PolicyDirection) (names : List String) (defaultRouteType : String) : RoutingPolicy E :=
  r.addPolicyAssignment dir names (defaultPolicyTypeToIntMap defaultRouteType)

def gobgpDeleteGlobalPolicy (dir : PolicyDirection) (names : List String) : RoutingPolicy E :=
  r.deletePolicyAssignment dir names

def gobgpSetDefinedSet (cfg : DefinedSets) : RoutingPolicy E :=
  (cfg.sets parsers).foldl RoutingPolicy.addDefinedSet r

def gobgpSetPolicyDefinition (cfg : List (PolicyDefinition B)) : RoutingPolicy E :=
  cfg.foldl (gobgpAddPolicyDefinition parsers) r

def gobgpSetGlobalPolicy (config : ApplyPolicy) : RoutingPolicy E :=
  let r := if config.exportPolicyList.length > 0 then
    gobgpAddGlobalPolicy r .exportPolicy config.exportPolicyList config.defaultExportPolicy else r
  let r := if config.importPolicyList.length > 0 then
    gobgpAddGlobalPolicy r .importPolicy config.importPolicyList config.defaultImportPolicy else r
  if config.inPolicyList.length > 0 then
    gobgpAddGlobalPolicy r .inPolicy config.inPolicyList config.defaultInPolicy else r

def gobgpClearDefinedSet (cfg : DefinedSets) : RoutingPolicy E :=
  (cfg.sets parsers).foldl RoutingPolicy.deleteDefinedSet r

def gobgpClearPolicyDefinition (cfg : List (PolicyDefinition B)) : RoutingPolicy E :=
  cfg.foldl (gobgpDeletePolicyDefinition parsers) r

def gobgpClearGlobalPolicy (cfg : ApplyPolicy) : RoutingPolicy E :=
  let r := if cfg.exportPolicyList.length > 0 then
    gobgpDeleteGlobalPolicy r .exportPolicy cfg.exportPolicyList else r
  let r := if cfg.importPolicyList.length > 0 then
    gobgpDeleteGlobalPolicy r .importPolicy cfg.importPolicyList else r
  if cfg.inPolicyList.length > 0 then gobgpDeleteGlobalPolicy r .inPolicy cfg.inPolicyList else r

/-- What a configuration says of policies. -/
structure Policies (B : Type) where
  applyPolicy : ApplyPolicy
  definedSets : DefinedSets
  policyDefinitions : List (PolicyDefinition B)

/-- The three functions that clear, in the order of `GobgpUpdate` and `GobgpClearAll`. -/
def clearPolicies (cfg : Policies B) : RoutingPolicy E :=
  let r := gobgpClearGlobalPolicy r cfg.applyPolicy
  let r := gobgpClearPolicyDefinition parsers r cfg.policyDefinitions
  gobgpClearDefinedSet parsers r cfg.definedSets

/-- The three functions that set, in the order of `GobgpUpdate` and `GobgpReset`. -/
def setPolicies (cfg : Policies B) : RoutingPolicy E :=
  let r := gobgpSetDefinedSet parsers r cfg.definedSets
  let r := gobgpSetPolicyDefinition parsers r cfg.policyDefinitions
  gobgpSetGlobalPolicy r cfg.applyPolicy

end

/-! ## Clearing what was set -/

namespace Assignment

variable {known : String → Bool} {a : Assignment} {names : List String}

theorem delete_add (h : a.policies = []) (defaultRouteType : RouteType) :
    ((a.add known names defaultRouteType).delete known names).policies = [] := by
  rw [add, h, List.nil_append]
  split
  · next hok =>
    rw [delete, if_pos hok]
    dsimp only
    rw [List.filter_eq_nil_iff]
    intro y hy
    simp [hy]
  · next hno => rw [delete, if_neg hno, h]

/-- The default type is the one that was added before. -/
theorem add_delete_add (h : a.policies = []) (defaultRouteType : RouteType) :
    ((a.add known names defaultRouteType).delete known names).add known names defaultRouteType =
      a.add known names defaultRouteType := by
  have hnil : ((a.add known names defaultRouteType).delete known names).policies = [] :=
    delete_add h defaultRouteType
  generalize hd : (a.add known names defaultRouteType).delete known names = d at hnil ⊢
  rw [add, add, hnil, h, List.nil_append]
  split
  · next hok =>
    rw [add, h, List.nil_append, if_pos hok, delete, if_pos hok] at hd
    rw [← hd]
    dsimp only
    split <;> rfl
  · next hno =>
    rw [← hd, add, h, List.nil_append, if_neg hno, delete, if_neg hno]

end Assignment

/-- There are no sets, no statements and no policies. -/
structure Bare (r : RoutingPolicy E) : Prop where
  definedSets : ∀ m, r.definedSetMap = some m → m = ∅
  statements : r.statementMap = ∅
  policies : r.policyMap = ∅
  importing : r.importPolicies.policies = []
  exporting : r.exportPolicies.policies = []

theorem bare_reset : Bare (RoutingPolicy.reset : RoutingPolicy E) :=
  ⟨fun _ h => (Option.some.inj h).symm, rfl, rfl, rfl, rfl⟩

namespace RoutingPolicy

variable {r : RoutingPolicy E}

/-- The tables with other policies of the global table. -/
def assign (r : RoutingPolicy E) (i e : Assignment) : RoutingPolicy E :=
  { r with importPolicies := i, exportPolicies := e }

@[simp] theorem assign_definedSetMap (i e : Assignment) : (r.assign i e).definedSetMap = r.definedSetMap := rfl
@[simp] theorem assign_statementMap (i e : Assignment) : (r.assign i e).statementMap = r.statementMap := rfl
@[simp] theorem assign_policyMap (i e : Assignment) : (r.assign i e).policyMap = r.policyMap := rfl
@[simp] theorem assign_assign (i e i' e' : Assignment) : (r.assign i e).assign i' e' = r.assign i' e' := rfl

theorem assign_self (r : RoutingPolicy E) : r.assign r.importPolicies r.exportPolicies = r := rfl

theorem addStatement_assign (r : RoutingPolicy E) (i e : Assignment) (st : Statement E) :
    (r.assign i e).addStatement st = (r.addStatement st).assign i e := by
  rw [addStatement, addStatement, show (r.assign i e).validateCondition = r.validateCondition from rfl]
  split <;> rfl

theorem addPolicy_assign (r : RoutingPolicy E) (i e : Assignment) (x : Policy E) :
    (r.assign i e).addPolicy x = (r.addPolicy x).assign i e := by
  rw [addPolicy, addPolicy, show (r.assign i e).validateCondition = r.validateCondition from rfl]
  split <;> rfl

end RoutingPolicy

namespace RoutingPolicy

variable {r : RoutingPolicy E}

theorem statementInUse_iff {name : String} : r.statementInUse name = true ↔
    ∃ policy statements, r.policyMap.lookup policy = some statements ∧ name ∈ statements := by
  rw [statementInUse, List.any_eq_true]
  constructor
  · rintro ⟨⟨policy, statements⟩, hmem, hname⟩
    exact ⟨policy, statements, AList.mem_lookup_iff.mpr hmem, List.contains_iff_mem.mp hname⟩
  · rintro ⟨policy, statements, hlookup, hname⟩
    exact ⟨⟨policy, statements⟩, AList.mem_lookup_iff.mp hlookup, List.contains_iff_mem.mpr hname⟩

/-- The statements that are deleted one after the other. -/
theorem deleteStatements_eq (r : RoutingPolicy E) (names : List String) :
    ∃ m, names.foldl deleteStatement r = { r with statementMap := m } ∧
      ∀ n, m.lookup n = if n ∈ names ∧ r.statementInUse n = false then none else r.statementMap.lookup n := by
  induction names generalizing r with
  | nil => exact ⟨r.statementMap, rfl, fun n => by simp⟩
  | cons name names ih =>
    rw [List.foldl_cons, deleteStatement]
    split
    · next huse =>
      obtain ⟨m, hm, hl⟩ := ih r
      refine ⟨m, hm, fun n => ?_⟩
      rw [hl]
      by_cases hn : n = name
      · subst hn
        simp [huse]
      · simp [hn]
    · next huse =>
      obtain ⟨m, hm, hl⟩ := ih { r with statementMap := r.statementMap.erase name }
      refine ⟨m, hm, fun n => ?_⟩
      rw [hl, show statementInUse { r with statementMap := r.statementMap.erase name } = r.statementInUse from rfl]
      dsimp only
      by_cases hn : n = name
      · subst hn
        simp [huse]
      · rw [AList.lookup_erase_ne hn]
        simp [hn]

/-- A policy that is deleted takes the statements with it that no other policy uses. -/
theorem deletePolicy_eq (h : r.exportPolicies.policies = []) (name : String) :
    ∃ m, r.deletePolicy name = { r with policyMap := r.policyMap.erase name, statementMap := m } ∧
      (∀ n, m.lookup n ≠ none → r.statementMap.lookup n ≠ none) ∧
      ∀ n, m.lookup n ≠ none → r.statementInUse n = true →
        (r.deletePolicy name).statementInUse n = true := by
  rw [deletePolicy]
  cases hl : r.policyMap.lookup name with
  | none =>
    have herase : r.policyMap.erase name = r.policyMap := by
      refine AList.ext (List.kerase_of_notMem_keys ?_)
      exact fun hmem => Option.isSome_iff_ne_none.mp (AList.lookup_isSome.mpr hmem) hl
    exact ⟨r.statementMap, by rw [herase], fun _ hn => hn, fun _ _ huse => huse⟩
  | some statements =>
    dsimp only
    rw [if_neg (by rw [h]; simp)]
    obtain ⟨m, hm, hlookup⟩ := deleteStatements_eq { r with policyMap := r.policyMap.erase name } statements
    refine ⟨m, hm, fun n hn => ?_, fun n hn huse => ?_⟩
    · rw [hlookup] at hn
      split at hn
      · exact absurd rfl hn
      · exact hn
    · rw [hm]
      rw [hlookup] at hn
      obtain ⟨policy, sts, hsts, hmem⟩ := statementInUse_iff.mp huse
      by_cases hp : policy = name
      · obtain rfl := Option.some.inj (hl.symm.trans (hp ▸ hsts))
        by_contra hno
        exact hn (if_pos ⟨hmem, (Bool.not_eq_true _).mp hno⟩)
      · exact statementInUse_iff.mpr ⟨policy, sts, by rw [← hsts]; exact AList.lookup_erase_ne hp, hmem⟩

end RoutingPolicy

/-- The policies of the definitions that can be read. -/
def readPolicies (cfg : List (PolicyDefinition B)) : List (Policy E) := cfg.filterMap (newPolicy parsers)

theorem gobgpSetPolicyDefinition_eq (r : RoutingPolicy E) (cfg : List (PolicyDefinition B)) :
    gobgpSetPolicyDefinition parsers r cfg = (readPolicies parsers cfg).foldl
      (fun r policy => (policy.statements.foldl RoutingPolicy.addStatement r).addPolicy policy) r := by
  rw [readPolicies, List.foldl_filterMap, gobgpSetPolicyDefinition]
  congr 1
  funext r p
  rw [gobgpAddPolicyDefinition]
  cases newPolicy parsers p <;> rfl

theorem gobgpClearPolicyDefinition_eq (r : RoutingPolicy E) (cfg : List (PolicyDefinition B)) :
    gobgpClearPolicyDefinition parsers r cfg = (readPolicies parsers cfg).foldl
      (fun r policy => (policy.statements.map (·.name)).foldl RoutingPolicy.deleteStatement
        (r.deletePolicy policy.name)) r := by
  rw [readPolicies, List.foldl_filterMap, gobgpClearPolicyDefinition]
  congr 1
  funext r p
  rw [gobgpDeletePolicyDefinition]
  cases newPolicy parsers p with
  | none => rfl
  | some policy => exact (List.foldl_map ..).symm

/-! ### What is set -/

/-- The tables have only what the sets and policies bring. -/
structure Within (sets : List (DefinedSet E)) (policies : List (Policy E)) (r : RoutingPolicy E) : Prop where
  definedSets : ∀ m, r.definedSetMap = some m → ∀ k, m.lookup k ≠ none → ∃ d ∈ sets, (d.type, d.name) = k
  statements : ∀ n, r.statementMap.lookup n ≠ none → ∃ p ∈ policies, n ∈ p.statements.map (·.name)
  policies : ∀ n, r.policyMap.lookup n ≠ none → ∃ p ∈ policies, p.name = n

section

variable {sets : List (DefinedSet E)} {policies : List (Policy E)} {r : RoutingPolicy E}

theorem Bare.within (h : Bare r) : Within sets policies r := by
  refine ⟨fun m hm k hk => ?_, fun n hn => ?_, fun n hn => ?_⟩
  · rw [h.definedSets m hm] at hk
    exact absurd (AList.lookup_empty k) hk
  · rw [h.statements] at hn
    exact absurd (AList.lookup_empty n) hn
  · rw [h.policies] at hn
    exact absurd (AList.lookup_empty n) hn

/-- A key that was put in, or was there. -/
theorem lookup_insert_ne_none {κ β : Type} [DecidableEq κ] {m : GoMap κ β} {k n : κ} {b : β}
    (h : (m.insert k b).lookup n ≠ none) : n = k ∨ m.lookup n ≠ none := by
  by_cases hn : n = k
  · exact .inl hn
  · exact .inr (by rwa [AList.lookup_insert_ne hn] at h)

theorem Within.addDefinedSet (h : Within sets policies r) {d : DefinedSet E} (hd : d ∈ sets) :
    Within sets policies (r.addDefinedSet d) := by
  refine ⟨fun m hm k hk => ?_, h.statements, h.policies⟩
  obtain ⟨m₀, hm₀, rfl⟩ := Option.map_eq_some_iff.mp hm
  obtain rfl | hk := lookup_insert_ne_none hk
  · exact ⟨d, hd, rfl⟩
  · exact h.definedSets m₀ hm₀ k hk

theorem Within.addStatement (h : Within sets policies r) {p : Policy E} (hp : p ∈ policies)
    {st : Statement E} (hst : st ∈ p.statements) : Within sets policies (r.addStatement st) := by
  rw [RoutingPolicy.addStatement]
  split
  · refine ⟨h.definedSets, fun n hn => ?_, h.policies⟩
    obtain rfl | hn := lookup_insert_ne_none hn
    · exact ⟨p, hp, List.mem_map_of_mem hst⟩
    · exact h.statements n hn
  · exact h

theorem Within.addPolicy (h : Within sets policies r) {p : Policy E} (hp : p ∈ policies) :
    Within sets policies (r.addPolicy p) := by
  rw [RoutingPolicy.addPolicy]
  split
  · refine ⟨h.definedSets, h.statements, fun n hn => ?_⟩
    obtain rfl | hn := lookup_insert_ne_none hn
    · exact ⟨p, hp, rfl⟩
    · exact h.policies n hn
  · exact h

/-- What tables without policies have once sets and policies are set. -/
theorem Bare.set_within (h : Bare r) (sets : DefinedSets) (cfg : List (PolicyDefinition B)) :
    Within (sets.sets parsers) (readPolicies parsers cfg)
      (gobgpSetPolicyDefinition parsers (gobgpSetDefinedSet parsers r sets) cfg) := by
  rw [gobgpSetPolicyDefinition_eq, gobgpSetDefinedSet]
  refine List.foldlRecOn _ _ (List.foldlRecOn _ _ h.within fun r hr d hd => hr.addDefinedSet hd) ?_
  intro r hr p hp
  exact Within.addPolicy (List.foldlRecOn _ _ hr fun r hr st hst => hr.addStatement hp hst) hp

/-! ### What is cleared -/

/-- The policies that are still to clear account for the policies, and with those for the
statements. -/
structure Clearing (policies : List (Policy E)) (r : RoutingPolicy E) : Prop where
  statements : ∀ n, r.statementMap.lookup n ≠ none →
    (∃ p ∈ policies, n ∈ p.statements.map (·.name)) ∨ r.statementInUse n = true
  policies : ∀ n, r.policyMap.lookup n ≠ none → ∃ p ∈ policies, p.name = n
  exporting : r.exportPolicies.policies = []

theorem Clearing.step {p : Policy E} (h : Clearing (p :: policies) r) :
    Clearing policies ((p.statements.map (·.name)).foldl RoutingPolicy.deleteStatement
      (r.deletePolicy p.name)) := by
  obtain ⟨m, hm, hkept, huse⟩ := RoutingPolicy.deletePolicy_eq h.exporting p.name
  obtain ⟨m', hm', hlookup⟩ :=
    RoutingPolicy.deleteStatements_eq (r.deletePolicy p.name) (p.statements.map (·.name))
  rw [hm']
  have hpolicies : (r.deletePolicy p.name).policyMap = r.policyMap.erase p.name := by rw [hm]
  have hstatements : (r.deletePolicy p.name).statementMap = m := by rw [hm]
  refine ⟨fun n hn => ?_, fun n hn => ?_, by rw [hm]; exact h.exporting⟩
  · dsimp only at hn
    have hsame : RoutingPolicy.statementInUse { r.deletePolicy p.name with statementMap := m' } n =
        (r.deletePolicy p.name).statementInUse n := rfl
    rw [hsame]
    rw [hlookup, hstatements] at hn
    by_cases hp : n ∈ p.statements.map (·.name) ∧ (r.deletePolicy p.name).statementInUse n = false
    · exact absurd (if_pos hp) hn
    · rw [if_neg hp] at hn
      rcases h.statements n (hkept n hn) with ⟨q, hq, hmem⟩ | hinuse
      · rcases List.mem_cons.mp hq with rfl | hq
        · exact .inr (by simpa [hmem] using hp)
        · exact .inl ⟨q, hq, hmem⟩
      · exact .inr (huse n hn hinuse)
  · rw [show RoutingPolicy.policyMap { r.deletePolicy p.name with statementMap := m' } =
      r.policyMap.erase p.name from hpolicies] at hn
    have hne : n ≠ p.name := by
      rintro rfl
      exact hn (AList.lookup_erase _ _)
    rw [AList.lookup_erase_ne hne] at hn
    obtain ⟨q, hq, rfl⟩ := h.policies n hn
    rcases List.mem_cons.mp hq with rfl | hq
    · exact absurd rfl hne
    · exact ⟨q, hq, rfl⟩

/-- When all are cleared there are neither policies nor statements, and the rest is as before. -/
theorem Clearing.run (h : Clearing policies r) :
    policies.foldl (fun r policy => (policy.statements.map (·.name)).foldl RoutingPolicy.deleteStatement
      (r.deletePolicy policy.name)) r = { r with policyMap := ∅, statementMap := ∅ } := by
  induction policies generalizing r with
  | nil =>
    have hp : r.policyMap = ∅ := GoMap.eq_empty fun n => by
      by_contra hn
      obtain ⟨q, hq, -⟩ := h.policies n hn
      exact List.not_mem_nil hq
    have hs : r.statementMap = ∅ := GoMap.eq_empty fun n => by
      by_contra hn
      rcases h.statements n hn with ⟨q, hq, -⟩ | huse
      · exact List.not_mem_nil hq
      · obtain ⟨policy, sts, hsts, -⟩ := RoutingPolicy.statementInUse_iff.mp huse
        rw [hp, AList.lookup_empty] at hsts
        cases hsts
    rw [List.foldl_nil, ← hp, ← hs]
  | cons p policies ih =>
    rw [List.foldl_cons, ih h.step]
    obtain ⟨m, hm, -, -⟩ := RoutingPolicy.deletePolicy_eq h.exporting p.name
    obtain ⟨m', hm', -⟩ :=
      RoutingPolicy.deleteStatements_eq (r.deletePolicy p.name) (p.statements.map (·.name))
    rw [hm', hm]

/-- Sets that no policy uses are all deleted. -/
theorem clear_sets (hp : r.policyMap = ∅)
    (hs : ∀ m, r.definedSetMap = some m → ∀ k, m.lookup k ≠ none → ∃ d ∈ sets, (d.type, d.name) = k) :
    sets.foldl RoutingPolicy.deleteDefinedSet r =
      { r with definedSetMap := r.definedSetMap.map fun _ => ∅ } := by
  induction sets generalizing r with
  | nil =>
    rw [List.foldl_nil]
    cases hm : r.definedSetMap with
    | none => rw [Option.map_none, ← hm]
    | some m =>
      have hempty : m = ∅ := GoMap.eq_empty fun k => by
        by_contra hk
        obtain ⟨d, hd, -⟩ := hs m hm k hk
        exact List.not_mem_nil hd
      rw [Option.map_some, ← hempty, ← hm]
  | cons d sets ih =>
    have huse : r.inUse d.name = false := by
      rw [RoutingPolicy.inUse, hp]
      rfl
    rw [List.foldl_cons, RoutingPolicy.deleteDefinedSet, huse, if_neg (by simp)]
    refine (@ih { r with definedSetMap := r.definedSetMap.map fun m => m.erase (d.type, d.name) } hp ?_).trans ?_
    · intro m hm k hk
      obtain ⟨m₀, hm₀, rfl⟩ := Option.map_eq_some_iff.mp hm
      have hne : k ≠ (d.type, d.name) := by
        rintro rfl
        exact hk (AList.lookup_erase _ _)
      rw [AList.lookup_erase_ne hne] at hk
      obtain ⟨d', hd', rfl⟩ := hs m₀ hm₀ k hk
      rcases List.mem_cons.mp hd' with rfl | hd'
      · exact absurd rfl hne
      · exact ⟨d', hd', rfl⟩
    · dsimp only
      rw [Option.map_map]
      rfl

end

/-- Setting sets and policies goes past what is assigned. -/
theorem gobgpSetPolicyDefinition_assign (r : RoutingPolicy E) (i e : Assignment) (sets : DefinedSets)
    (cfg : List (PolicyDefinition B)) :
    gobgpSetPolicyDefinition parsers (gobgpSetDefinedSet parsers (r.assign i e) sets) cfg =
      (gobgpSetPolicyDefinition parsers (gobgpSetDefinedSet parsers r sets) cfg).assign i e := by
  let f (r : RoutingPolicy E) := r.assign i e
  have hsets : gobgpSetDefinedSet parsers (f r) sets = f (gobgpSetDefinedSet parsers r sets) :=
    List.foldl_hom f fun _ _ => rfl
  have hadd (r : RoutingPolicy E) (p : PolicyDefinition B) :
      gobgpAddPolicyDefinition parsers (f r) p = f (gobgpAddPolicyDefinition parsers r p) := by
    rw [gobgpAddPolicyDefinition, gobgpAddPolicyDefinition]
    split
    · rfl
    · next policy _ =>
      have hstatements : policy.statements.foldl RoutingPolicy.addStatement (f r) =
          f (policy.statements.foldl RoutingPolicy.addStatement r) :=
        List.foldl_hom f fun r st => r.addStatement_assign i e st
      rw [hstatements]
      exact RoutingPolicy.addPolicy_assign _ i e policy
  show gobgpSetPolicyDefinition parsers (gobgpSetDefinedSet parsers (f r) sets) cfg = _
  rw [hsets]
  exact List.foldl_hom f hadd

/-! ### The global table -/

namespace Assignment

/-- What is set in one direction, if anything is. -/
def set (known : String → Bool) (names : List String) (defaultRouteType : String) (a : Assignment) : Assignment :=
  if names.length > 0 then a.add known names (defaultPolicyTypeToIntMap defaultRouteType) else a

/-- What is cleared in one direction. -/
def clear (known : String → Bool) (names : List String) (a : Assignment) : Assignment :=
  if names.length > 0 then a.delete known names else a

variable {known : String → Bool} {a : Assignment} {names : List String} {defaultRouteType : String}

theorem clear_set (h : a.policies = []) :
    ((a.set known names defaultRouteType).clear known names).policies = [] := by
  rw [set, clear]
  split
  · exact delete_add h _
  · exact h

theorem set_clear_set (h : a.policies = []) :
    ((a.set known names defaultRouteType).clear known names).set known names defaultRouteType =
      a.set known names defaultRouteType := by
  rw [set, set, clear]
  split
  · exact add_delete_add h _
  · rfl

end Assignment

theorem gobgpSetGlobalPolicy_eq (r : RoutingPolicy E) (config : ApplyPolicy) :
    gobgpSetGlobalPolicy r config = r.assign
      (r.importPolicies.set r.hasPolicy config.importPolicyList config.defaultImportPolicy)
      (r.exportPolicies.set r.hasPolicy config.exportPolicyList config.defaultExportPolicy) := by
  simp only [gobgpSetGlobalPolicy, gobgpAddGlobalPolicy, RoutingPolicy.addPolicyAssignment, ite_self,
    Assignment.set]
  by_cases he : config.exportPolicyList.length > 0
  · by_cases hi : config.importPolicyList.length > 0
    · simp only [he, hi, if_true]
      rfl
    · simp only [he, hi, if_true, if_false]
      rfl
  · by_cases hi : config.importPolicyList.length > 0
    · simp only [he, hi, if_true, if_false]
      rfl
    · simp only [he, hi, if_false]
      rfl

theorem gobgpClearGlobalPolicy_eq (r : RoutingPolicy E) (cfg : ApplyPolicy) :
    gobgpClearGlobalPolicy r cfg = r.assign (r.importPolicies.clear r.hasPolicy cfg.importPolicyList)
      (r.exportPolicies.clear r.hasPolicy cfg.exportPolicyList) := by
  simp only [gobgpClearGlobalPolicy, gobgpDeleteGlobalPolicy, RoutingPolicy.deletePolicyAssignment, ite_self,
    Assignment.clear]
  by_cases he : cfg.exportPolicyList.length > 0
  · by_cases hi : cfg.importPolicyList.length > 0
    · simp only [he, hi, if_true]
      rfl
    · simp only [he, hi, if_true, if_false]
      rfl
  · by_cases hi : cfg.importPolicyList.length > 0
    · simp only [he, hi, if_true, if_false]
      rfl
    · simp only [he, hi, if_false]
      rfl

/-! ### Both -/

section

variable {r : RoutingPolicy E} (cfg : Policies B)

/-- The tables after the sets and policies of a configuration are set, before any is assigned. -/
def defined (r : RoutingPolicy E) : RoutingPolicy E :=
  gobgpSetPolicyDefinition parsers (gobgpSetDefinedSet parsers r cfg.definedSets) cfg.policyDefinitions

/-- What is assigned then, and what is left of it when it is cleared. -/
def assigned (r : RoutingPolicy E) : Assignment × Assignment :=
  let known := (defined parsers cfg r).hasPolicy
  (r.importPolicies.set known cfg.applyPolicy.importPolicyList cfg.applyPolicy.defaultImportPolicy,
    r.exportPolicies.set known cfg.applyPolicy.exportPolicyList cfg.applyPolicy.defaultExportPolicy)

def unassigned (r : RoutingPolicy E) : Assignment × Assignment :=
  let known := (defined parsers cfg r).hasPolicy
  ((assigned parsers cfg r).1.clear known cfg.applyPolicy.importPolicyList,
    (assigned parsers cfg r).2.clear known cfg.applyPolicy.exportPolicyList)

theorem defined_eq (r : RoutingPolicy E) (i e : Assignment) :
    defined parsers cfg (r.assign i e) = (defined parsers cfg r).assign i e :=
  gobgpSetPolicyDefinition_assign parsers r i e cfg.definedSets cfg.policyDefinitions

theorem setPolicies_eq (r : RoutingPolicy E) :
    setPolicies parsers r cfg = (defined parsers cfg r).assign (assigned parsers cfg r).1
      (assigned parsers cfg r).2 := by
  have hassign := defined_eq parsers cfg r r.importPolicies r.exportPolicies
  rw [RoutingPolicy.assign_self] at hassign
  rw [setPolicies, gobgpSetGlobalPolicy_eq]
  show (defined parsers cfg r).assign (Assignment.set _ _ _ (defined parsers cfg r).importPolicies)
    (Assignment.set _ _ _ (defined parsers cfg r).exportPolicies) = _
  rw [show (defined parsers cfg r).importPolicies = r.importPolicies by rw [hassign]; rfl,
    show (defined parsers cfg r).exportPolicies = r.exportPolicies by rw [hassign]; rfl]
  rfl

/-- No type of set is new or missing. -/
theorem defined_definedSetMap (r : RoutingPolicy E) :
    ((defined parsers cfg r).definedSetMap.map fun _ => (∅ : GoMap (DefinedType × String) (List E))) =
      r.definedSetMap.map fun _ => ∅ := by
  have hpolicies (r : RoutingPolicy E) (p : Policy E) :
      ((p.statements.foldl RoutingPolicy.addStatement r).addPolicy p).definedSetMap = r.definedSetMap := by
    have hst : (p.statements.foldl RoutingPolicy.addStatement r).definedSetMap = r.definedSetMap := by
      refine List.foldlRecOn (motive := fun r' : RoutingPolicy E => r'.definedSetMap = r.definedSetMap) _ _ rfl ?_
      intro r' hr' st _
      rw [RoutingPolicy.addStatement]
      split
      · exact hr'
      · exact hr'
    rw [RoutingPolicy.addPolicy]
    split
    · exact hst
    · exact hst
  rw [defined, gobgpSetPolicyDefinition_eq, gobgpSetDefinedSet]
  let same (r' : RoutingPolicy E) : Prop :=
    (r'.definedSetMap.map fun _ => (∅ : GoMap (DefinedType × String) (List E))) =
      r.definedSetMap.map fun _ => ∅
  refine List.foldlRecOn (motive := same) _ _ (List.foldlRecOn (motive := same) _ _ rfl ?_) ?_
  · intro r' hr' d _
    refine Eq.trans ?_ hr'
    rw [RoutingPolicy.addDefinedSet, Option.map_map]
    rfl
  · intro r' hr' p _
    exact (congrArg (Option.map fun _ => ∅) (hpolicies r' p)).trans hr'

/-- Only the default types tell that a configuration was set and cleared. -/
theorem Bare.clear_set_eq (h : Bare r) :
    clearPolicies parsers (setPolicies parsers r cfg) cfg =
      r.assign (unassigned parsers cfg r).1 (unassigned parsers cfg r).2 := by
  have hwithin : Within (cfg.definedSets.sets parsers) (readPolicies parsers cfg.policyDefinitions)
      (defined parsers cfg r) := h.set_within parsers cfg.definedSets cfg.policyDefinitions
  have hclearing : Clearing (readPolicies parsers cfg.policyDefinitions)
      ((defined parsers cfg r).assign (unassigned parsers cfg r).1 (unassigned parsers cfg r).2) :=
    ⟨fun n hn => .inl (hwithin.statements n hn), hwithin.policies, Assignment.clear_set h.exporting⟩
  have hmap : (r.definedSetMap.map fun _ => (∅ : GoMap (DefinedType × String) (List E))) =
      r.definedSetMap := by
    cases hm : r.definedSetMap with
    | none => rfl
    | some m => rw [h.definedSets m hm, Option.map_some]
  rw [setPolicies_eq, clearPolicies, gobgpClearGlobalPolicy_eq]
  show gobgpClearDefinedSet parsers (gobgpClearPolicyDefinition parsers ((defined parsers cfg r).assign
    (unassigned parsers cfg r).1 (unassigned parsers cfg r).2) cfg.policyDefinitions) cfg.definedSets = _
  rw [gobgpClearPolicyDefinition_eq, hclearing.run, gobgpClearDefinedSet]
  refine (@clear_sets _ _ { (defined parsers cfg r).assign (unassigned parsers cfg r).1 (unassigned parsers cfg r).2
    with policyMap := ∅, statementMap := ∅ } rfl hwithin.definedSets).trans ?_
  dsimp only [RoutingPolicy.assign]
  rw [defined_definedSetMap, hmap, h.statements, h.policies]

/-- Tables without policies have none once a configuration is set and cleared. -/
theorem Bare.clear_set (h : Bare r) : Bare (clearPolicies parsers (setPolicies parsers r cfg) cfg) := by
  rw [h.clear_set_eq]
  exact ⟨h.definedSets, h.statements, h.policies, Assignment.clear_set h.importing,
    Assignment.clear_set h.exporting⟩

/-- What was set and cleared is the same when it is set once more. -/
theorem setPolicies_clear (h : Bare r) :
    setPolicies parsers (clearPolicies parsers (setPolicies parsers r cfg) cfg) cfg =
      setPolicies parsers r cfg := by
  rw [h.clear_set_eq, setPolicies_eq, setPolicies_eq, defined_eq, RoutingPolicy.assign_assign]
  have hassigned : assigned parsers cfg (r.assign (unassigned parsers cfg r).1 (unassigned parsers cfg r).2) =
      assigned parsers cfg r := by
    rw [assigned, defined_eq]
    exact Prod.ext (Assignment.set_clear_set h.importing) (Assignment.set_clear_set h.exporting)
  rw [hassigned]

end

end OpenConfigd.Gobgp
