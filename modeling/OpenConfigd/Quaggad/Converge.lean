import OpenConfigd.Quaggad.Loop
import OpenConfigd.Quaggad.Plain
import OpenConfigd.Quaggad.Rules

/-!
# The policy lists of the routing daemon

What the calls of `quaggaVtysh` make of the lists of the routing daemon (`Daemon`), and
what its lists should be for a configuration (`Rendered`). The first callback of a kind in
a commit that sees a difference rewrites the lists of the kind once
(`daemon_commitLists`), while the running tree is changed message by message.
`rounds_rendered`: in a run whose commits have been validated the lists of the daemon are
those of the running tree after every commit.
-/

namespace OpenConfigd.Quaggad

/-- The lists of the routing daemon: the rules of a kind and name, in their order. -/
abbrev Daemon := Kind → String → List String

namespace Daemon

/-- The daemon with other rules in one list. -/
def put (d : Daemon) (kind : Kind) (name : String) (rules : List String) : Daemon :=
  fun k n => if k = kind ∧ n = name then rules else d k n

/-- What a call does: a list is removed, or a rule appended to one. -/
def exec (d : Daemon) : Vtysh → Daemon
  | .no kind name => d.put kind name []
  | .add kind name text => d.put kind name (d kind name ++ [text])
  | .lines _ => d

/-- The lists after all calls, from a daemon without lists. -/
def after (calls : List Vtysh) : Daemon := calls.foldl exec fun _ _ => []

end Daemon

/-- The rules stand in the order of their numbers. -/
def Ascending (rules : List String) : Prop :=
  rules.Pairwise fun a b => ∃ i j, atoi a = some i ∧ atoi b = some j ∧ i ≤ j

/-- The lines are the commands of all rules of a list of the configuration, in the order of
their numbers. -/
def Rendered (go : Go) (config : Node) (kind : Kind) (name : String) (lines : List String) : Prop :=
  ∃ rules, rules.Perm (config.values ["policy", kind.label, name, "rule"]) ∧ Ascending rules ∧
    rules.map (kind.ruleText go config name) = lines.map some

open Runs State

variable {σ : Type} {go : Go} {commands : Commands σ} {s s' : State σ} {c d : Node} {kind : Kind}
  {name : String}

/-! ## What is rendered -/

/-- What is rendered is a matter of the tree below the name. -/
theorem Rendered.congr (h : Node.SameAt ["policy", kind.label, name] c d) {lines : List String}
    (hr : Rendered go c kind name lines) : Rendered go d kind name lines := by
  obtain ⟨rules, hperm, hasc, hmap⟩ := hr
  have hvalues : (c.values (["policy", kind.label, name] ++ ["rule"])).Perm
      (d.values (["policy", kind.label, name] ++ ["rule"])) :=
    (h.append (List.cons_ne_nil _ _) ["rule"]).values_perm
  refine ⟨rules, hperm.trans hvalues, hasc, ?_⟩
  rw [← hmap]
  exact List.map_congr_left fun rule _ => (ruleText_congr h rule).symm

/-- A list that is not there has no rules. -/
theorem values_rule_eq_nil (h : c.lookup ["policy", kind.label, name] = none) :
    c.values ["policy", kind.label, name, "rule"] = [] := by
  have hnone : c.lookup ["policy", kind.label, name, "rule"] = none := by
    have hpath : ["policy", kind.label, name, "rule"] = ["policy", kind.label, name] ++ ["rule"] := rfl
    rw [hpath, Node.lookup_append (List.cons_ne_nil _ _), h]
    rfl
  rw [Node.values, hnone]
  rfl

theorem Rendered.eq_nil (h : c.lookup ["policy", kind.label, name] = none) {lines : List String}
    (hr : Rendered go c kind name lines) : lines = [] := by
  obtain ⟨rules, hperm, -, hmap⟩ := hr
  rw [values_rule_eq_nil h] at hperm
  rw [List.perm_nil.mp hperm] at hmap
  simpa using hmap.symm

theorem Rendered.nil (h : c.lookup ["policy", kind.label, name] = none) :
    Rendered go c kind name [] :=
  ⟨[], by rw [values_rule_eq_nil h], List.Pairwise.nil, rfl⟩

/-- `RuleSlice.Less` is an order of numbers. -/
theorem ruleLess_strictWeak {rules : List String} (h : ∀ r ∈ rules, ∃ i, atoi r = some i) :
    StrictWeak ruleLess rules where
  asymm a ha b hb := by
    obtain ⟨i, hi⟩ := h a ha
    obtain ⟨j, hj⟩ := h b hb
    simp only [ruleLess, hi, hj, decide_eq_true_eq]
    omega
  negTrans a ha b hb c hc := by
    obtain ⟨i, hi⟩ := h a ha
    obtain ⟨j, hj⟩ := h b hb
    obtain ⟨k, hk⟩ := h c hc
    simp only [ruleLess, hi, hj, hk, decide_eq_true_eq]
    omega

/-- The rules of a valid candidate are sorted by their numbers. -/
theorem ruleSort_ascending {rules : List String} (h : ∀ r ∈ rules, ∃ i, atoi r = some i) :
    Ascending (quaggaRuleSort go rules) := by
  refine (go.sort_sorted ruleLess rules (ruleLess_strictWeak h)).imp_of_mem ?_
  intro a b ha hb hab
  obtain ⟨i, hi⟩ := h a ((go.sort_perm ruleLess rules).mem_iff.mp ha)
  obtain ⟨j, hj⟩ := h b ((go.sort_perm ruleLess rules).mem_iff.mp hb)
  refine ⟨i, j, hi, hj, ?_⟩
  simpa [ruleLess, hi, hj] using hab

/-- The rules that `quaggaConfigCommitAccessList` and the like add. -/
def commitLines (go : Go) (time : Nat) (candidate : Node) (kind : Kind) (name : String) : List String :=
  (quaggaRuleSort go (go.range time (candidate.values ["policy", kind.label, name, "rule"]))).filterMap
    (kind.ruleText go candidate name)

theorem filterMap_all {α β : Type} {f : α → Option β} {l : List α} (h : ∀ a ∈ l, (f a).isSome) :
    l.map f = (l.filterMap f).map some := by
  induction l with
  | nil => rfl
  | cons a l ih =>
    obtain ⟨b, hb⟩ := Option.isSome_iff_exists.mp (h a List.mem_cons_self)
    rw [List.map_cons, List.filterMap_cons_some hb, List.map_cons, hb,
      ih fun x hx => h x (List.mem_cons_of_mem _ hx)]

theorem commitLines_rendered (hvalid : quaggaConfigValid go c = some true) (time : Nat) (kind : Kind)
    (name : String) : Rendered go c kind name (commitLines go time c kind name) := by
  have hperm := (go.sort_perm ruleLess _).trans
    (go.range_perm time (c.values ["policy", kind.label, name, "rule"]))
  have hrules : ∀ r ∈ go.range time (c.values ["policy", kind.label, name, "rule"]),
      ∃ i, atoi r = some i := by
    intro r hr
    rw [(go.range_perm time _).mem_iff] at hr
    exact validatorRange_atoi (valid_ruleText hvalid hr).1
  refine ⟨_, hperm, ruleSort_ascending hrules, filterMap_all fun r hr => ?_⟩
  exact (valid_ruleText hvalid (hperm.mem_iff.mp hr)).2

/-! ## The calls of a commit -/

theorem exec_adds (kind : Kind) (name : String) (lines : List String) (d : Daemon) :
    (lines.map (Vtysh.add kind name)).foldl Daemon.exec d = d.put kind name (d kind name ++ lines) := by
  induction lines generalizing d with
  | nil =>
    funext k n
    by_cases h : k = kind ∧ n = name
    · simp [Daemon.put, h]
    · simp [Daemon.put, h]
  | cons l lines ih =>
    rw [List.map_cons, List.foldl_cons, Daemon.exec, ih]
    funext k n
    by_cases h : k = kind ∧ n = name
    · simp [Daemon.put, h]
    · simp [Daemon.put, h]

/-- A list that is committed is just the rules that are added. -/
theorem exec_commitList (time : Nat) (d : Daemon) :
    (quaggaConfigCommitList go time c kind name).foldl Daemon.exec d =
      d.put kind name (commitLines go time c kind name) := by
  rw [quaggaConfigCommitList, List.foldl_cons, exec_adds, commitLines, Daemon.exec]
  funext k n
  by_cases h : k = kind ∧ n = name
  · simp [Daemon.put, h]
  · simp [Daemon.put, h]

/-- Calls for some names, each of which puts its own list. -/
theorem exec_names {calls : String → List Vtysh} {lines : String → List String}
    (h : ∀ d : Daemon, ∀ n, (calls n).foldl Daemon.exec d = d.put kind n (lines n))
    (names : List String) (d : Daemon) (k : Kind) (n : String) :
    (names.flatMap calls).foldl Daemon.exec d k n =
      if k = kind ∧ n ∈ names then lines n else d k n := by
  induction names generalizing d with
  | nil => simp
  | cons m names ih =>
    rw [List.flatMap_cons, List.foldl_append, h, ih, Daemon.put]
    by_cases hk : k = kind
    · by_cases hn : n ∈ names
      · simp [hk, hn]
      · by_cases hm : n = m
        · simp [hk, hm]
        · simp [hk, hn, hm]
    · simp [hk]

/-- The lists after the calls of `quaggaConfigCommitAccessLists` and the like: those of the
candidate that differ are new, those it does not have are gone, and the others stay. -/
theorem daemon_commitLists (time : Nat) (candidate running : Node) (d : Daemon) (k : Kind) (n : String) :
    (quaggaConfigCommitLists go time candidate running kind).foldl Daemon.exec d k n =
      if k = kind ∧ n ∈ candidate.values ["policy", kind.label] ∧
          quaggaConfigStateDiff candidate running ["policy", kind.label, n] = true then
        commitLines go time candidate kind n
      else if k = kind ∧ n ∈ running.values ["policy", kind.label] ∧
          candidate.lookup ["policy", kind.label, n] = none then []
      else d k n := by
  have hno (names : List String) : names.map (Vtysh.no kind) = names.flatMap fun n => [.no kind n] := by
    rw [List.map_eq_flatMap]
  rw [quaggaConfigCommitLists, List.foldl_append, hno, exec_names fun d n => exec_commitList time d,
    exec_names fun d n => rfl]
  simp only [List.mem_filter, (go.range_perm time _).mem_iff, Option.isNone_iff_eq_none]

/-! ## A commit -/

/-- The lists of a kind are those of a configuration. -/
def Agrees (go : Go) (kind : Kind) (config : Node) (d : Daemon) : Prop :=
  ∀ name, Rendered go config kind name (d kind name)

/-- The trees are the same below a kind. -/
def SameKind (kind : Kind) (c d : Node) : Prop := Node.SameAt ["policy", kind.label] c d

theorem SameKind.below (h : SameKind kind c d) (n : String) :
    Node.SameAt ["policy", kind.label, n] c d := Node.SameAt.append (List.cons_ne_nil _ _) h [n]

theorem Agrees.congr (h : SameKind kind c d) {lists : Daemon} (ha : Agrees go kind c lists) :
    Agrees go kind d lists := fun name => (ha name).congr (h.below name)

/-- The paths of the table of quaggad below `policy`: those below a kind of list have the
callback of the kind, and `policy` alone is no command. -/
structure PolicyTable (commands : Commands σ) : Prop where
  list : ∀ (kind : Kind) (rest : List String) (fn : Callback σ),
    commands.parseCmd ("policy" :: kind.label :: rest) = some fn → fn = .list kind
  policy : commands.parseCmd ["policy"] = none

/-- The path is known to the parser if it is one below `policy`. -/
def Known (commands : Commands σ) (c : Command × List String) : Prop :=
  c.2.head? = some "policy" → (commands.parseCmd c.2).isSome

/-- What holds in a commit of the candidate `c`, which has begun with the running tree `r`:
the lists of the daemon are those of `r` until they have been rewritten. Until then either
nothing has been changed below the kind, or the candidate has the lists of `r` too. -/
def Committing (go : Go) (kind : Kind) (c r : Node) (s : State σ) : Prop :=
  s.validating = false ∧ s.configCandidate = c ∧
  if s.commited kind then Agrees go kind c (Daemon.after s.vtysh)
  else Agrees go kind r (Daemon.after s.vtysh) ∧
    (SameKind kind s.configRunning r ∨ SameKind kind c r)

theorem after_append (calls calls' : List Vtysh) :
    Daemon.after (calls ++ calls') = calls'.foldl Daemon.exec (Daemon.after calls) :=
  List.foldl_append

/-- Calls that name no list leave the lists alone. -/
theorem exec_lines (cmds : List (List String)) (d : Daemon) :
    (cmds.map Vtysh.lines).foldl Daemon.exec d = d := by
  induction cmds with
  | nil => rfl
  | cons l cmds ih => exact ih

/-- The lists that are rewritten agree with the candidate. -/
theorem agrees_commit {r running : Node} (hvalid : quaggaConfigValid go c = some true) {lists : Daemon}
    (ha : Agrees go kind r lists) (hr : SameKind kind running r ∨ SameKind kind c r) (time : Nat) :
    Agrees go kind c
      ((quaggaConfigCommitLists go time c running kind).foldl Daemon.exec lists) := by
  intro name
  rw [daemon_commitLists]
  by_cases hname : name ∈ c.values ["policy", kind.label]
  · by_cases hdiff : quaggaConfigStateDiff c running ["policy", kind.label, name] = true
    · rw [if_pos ⟨rfl, hname, hdiff⟩]
      exact commitLines_rendered hvalid time kind name
    · -- A list that does not differ has been that of the candidate before.
      have hsome : (c.lookup ["policy", kind.label, name]).isSome :=
        (Node.mem_values (List.cons_ne_nil _ _)).mp hname
      rw [if_neg fun h => hdiff h.2.2, if_neg fun h => by simp [h.2.2] at hsome]
      have hsame := Node.diff_eq_false.mp (Bool.not_eq_true _ ▸ hdiff)
      rcases hr with hr | hr
      · exact (ha name).congr (hsame.trans (hr.below name)).symm
      · exact (ha name).congr (hr.below name).symm
  · have hnone : c.lookup ["policy", kind.label, name] = none := by
      rw [← Option.not_isSome_iff_eq_none]
      exact fun h => hname ((Node.mem_values (List.cons_ne_nil _ _)).mpr h)
    rw [if_neg fun h => hname h.2.1]
    by_cases hold : name ∈ running.values ["policy", kind.label]
    · rw [if_pos ⟨rfl, hold, hnone⟩]
      exact Rendered.nil hnone
    · -- A list that was not there before has no rules in the daemon.
      have hrnone : r.lookup ["policy", kind.label, name] = none := by
        rw [← Option.not_isSome_iff_eq_none]
        rcases hr with hr | hr
        · rw [← (hr.below name).isSome_eq]
          exact fun h => hold ((Node.mem_values (List.cons_ne_nil _ _)).mpr h)
        · rw [← (hr.below name).isSome_eq, hnone]
          simp
      rw [if_neg fun h => hold h.2.1, (ha name).eq_nil hrnone]
      exact Rendered.nil hnone

/-- Calls for another kind leave the lists of a kind alone. -/
theorem agrees_other {k : Kind} (hk : kind ≠ k) {lists : Daemon} (time : Nat) (candidate running : Node) :
    Agrees go kind c ((quaggaConfigCommitLists go time candidate running k).foldl Daemon.exec lists) ↔
      Agrees go kind c lists := by
  refine forall_congr' fun name => ?_
  rw [daemon_commitLists, if_neg fun h => hk h.1, if_neg fun h => hk h.1]

/-- A callback keeps what holds in a commit, and when it is that of the kind and has not
rewritten the lists the candidate has those of the beginning. -/
theorem committing_callback {r : Node} (hvalid : quaggaConfigValid go c = some true)
    (h : Committing go kind c r s) {command : Command} {fn : Callback σ}
    (hs : s.callback go commands command fn = some s') :
    Committing go kind c r s' ∧ (fn = .list kind → s'.commited kind = false → SameKind kind c r) := by
  obtain ⟨hv, rfl, ha⟩ := h
  cases fn with
  | list k =>
    rw [callback, quaggaUpdateCheck, Option.some.injEq] at hs
    by_cases hk : kind = k
    · subst hk
      cases hc : s.commited kind with
      | true =>
        rw [hc, Bool.not_true, Bool.false_and, if_neg Bool.false_ne_true] at hs
        subst hs
        exact ⟨⟨hv, rfl, ha⟩, fun _ h => absurd (hc.symm.trans h) (by decide)⟩
      | false =>
        rw [hc, if_neg Bool.false_ne_true] at ha
        rw [hc, Bool.not_false, Bool.true_and] at hs
        by_cases hdiff : quaggaConfigStateDiff s.configCandidate s.configRunning ["policy", kind.label] = true
        · rw [if_pos hdiff] at hs
          subst hs
          refine ⟨⟨hv, rfl, ?_⟩, fun _ h => ?_⟩
          · rw [if_pos (Function.update_self kind true s.commited), after_append]
            exact agrees_commit hvalid ha.1 ha.2 s.time
          · simp at h
        · rw [if_neg hdiff] at hs
          subst hs
          refine ⟨⟨hv, rfl, by rw [hc, if_neg Bool.false_ne_true]; exact ha⟩, fun _ _ => ?_⟩
          have hsame : SameKind kind s.configCandidate s.configRunning :=
            Node.diff_eq_false.mp (Bool.not_eq_true _ ▸ hdiff)
          exact ha.2.elim (fun hr => hsame.trans hr) id
    · refine ⟨?_, fun h => absurd (Callback.list.inj h).symm hk⟩
      split at hs
      · subst hs
        refine ⟨hv, rfl, ?_⟩
        simp only [Function.update_of_ne hk, after_append, agrees_other hk]
        exact ha
      · subst hs
        exact ⟨hv, rfl, ha⟩
  | routeMap =>
    refine ⟨?_, fun h => by cases h⟩
    rw [callback, quaggaUpdateCheckRouteMap] at hs
    split at hs
    · obtain ⟨cmds, -, rfl⟩ := Option.map_eq_some_iff.mp hs
      refine ⟨hv, rfl, ?_⟩
      simp only [after_append, exec_lines]
      exact ha
    · cases hs
      exact ⟨hv, rfl, ha⟩
  | other f =>
    refine ⟨?_, fun h => by cases h⟩
    obtain ⟨out, -, rfl⟩ := Option.map_eq_some_iff.mp hs
    refine ⟨hv, rfl, ?_⟩
    simp only [after_append, exec_lines]
    exact ha

/-- A path that does not lead through a kind, and is not `policy` alone, changes nothing
below the kind. -/
theorem update_sameKind {path : List String} (hp : ¬ ["policy", kind.label] <+: path)
    (hpolicy : path ≠ ["policy"]) (command : Command) : SameKind kind (update c (command, path)) c := by
  refine Node.SameAt.of_eq ?_
  cases command with
  | set => exact Node.lookup_set hp c
  | delete =>
    cases path with
    | nil => rfl
    | cons a path =>
      refine Node.lookup_delete hp (fun h => ?_) c
      -- A part of the path to the kind is all of it or `policy`.
      rw [List.cons_prefix_cons] at h
      obtain ⟨rfl, h⟩ := h
      rcases List.prefix_cons_iff.mp h with rfl | ⟨path', rfl, hnil⟩
      · exact hpolicy rfl
      · rw [List.prefix_nil.mp hnil] at hp
        exact hp (List.prefix_refl _)

/-- A command keeps what holds in a commit. -/
theorem committing_step {r : Node} (hvalid : quaggaConfigValid go c = some true)
    (htable : PolicyTable commands) (h : Committing go kind c r s) {m : Command × List String}
    (hknown : Known commands m) (hs : step go commands s (.config m.1 m.2) = some s') :
    Committing go kind c r s' := by
  obtain ⟨s₁, hs₁, rfl⟩ := step_config h.1 hs
  have hcallback : Committing go kind c r s₁ ∧
      (["policy", kind.label] <+: m.2 → s₁.commited kind = false → SameKind kind c r) := by
    rcases hs₁ with ⟨hnone, rfl⟩ | ⟨fn, hfn, hs₁⟩
    · refine ⟨h, fun hp => ?_⟩
      obtain ⟨rest, hrest⟩ := hp
      have hsome := hknown (by rw [← hrest]; rfl)
      simp [hnone] at hsome
    · obtain ⟨hc, hlist⟩ := committing_callback hvalid h hs₁
      refine ⟨hc, fun hp => hlist ?_⟩
      obtain ⟨rest, hrest⟩ := hp
      rw [← hrest] at hfn
      exact htable.list kind rest fn hfn
  obtain ⟨⟨hv, hc, ha⟩, hlist⟩ := hcallback
  refine ⟨hv, hc, ?_⟩
  cases hcommited : s₁.commited kind with
  | true =>
    rw [hcommited, if_pos rfl] at ha
    simpa only [hcommited, if_true] using ha
  | false =>
    rw [hcommited, if_neg Bool.false_ne_true] at ha
    simp only [Bool.false_eq_true, if_false]
    refine ⟨ha.1, ?_⟩
    by_cases hp : ["policy", kind.label] <+: m.2
    · exact .inr (hlist hp hcommited)
    · have hpolicy : m.2 ≠ ["policy"] := by
        intro h
        have hsome := hknown (by rw [h]; rfl)
        simp [h, htable.policy] at hsome
      exact ha.2.imp_left (fun hr => Node.SameAt.trans (update_sameKind hp hpolicy m.1) hr)

theorem committing_run {r : Node} (hvalid : quaggaConfigValid go c = some true)
    (htable : PolicyTable commands) (h : Committing go kind c r s) {m : List (Command × List String)}
    (hknown : ∀ x ∈ m, Known commands x) (hs : run (step go commands) s (messages m) = some s') :
    Committing go kind c r s' := by
  induction m generalizing s with
  | nil =>
    cases hs
    exact h
  | cons x m ih =>
    obtain ⟨s₁, hs₁, hs⟩ := Option.bind_eq_some_iff.mp hs
    exact ih (committing_step hvalid htable h (hknown x List.mem_cons_self) hs₁)
      (fun y hy => hknown y (List.mem_cons_of_mem _ hy)) hs

/-- A commit of what has been validated, from a state whose daemon has the lists of the
running tree, leads to such a state. -/
theorem commit_agrees (htable : PolicyTable commands) {m : List (Command × List String)}
    (hknown : ∀ x ∈ m, Known commands x) (hv : s.validating = false)
    (hc : s.configCandidate = applied s.configRunning m)
    (hvalid : quaggaConfigValid go s.configCandidate = some true)
    (ha : Agrees go kind s.configRunning (Daemon.after s.vtysh))
    (hs : run (step go commands) s (.commitStart :: messages m ++ [.commitEnd]) = some s') :
    Agrees go kind s'.configRunning (Daemon.after s'.vtysh) := by
  rw [run_commit, Option.map_eq_some_iff] at hs
  obtain ⟨s₁, hs₁, rfl⟩ := hs
  have hstart : Committing go kind s.configCandidate s.configRunning
      { s with commited := fun _ => false, commitedRouteMap := false, time := s.time + 1 } :=
    ⟨hv, rfl, ha, .inl (Node.SameAt.refl _ _)⟩
  obtain ⟨-, -, hend⟩ := committing_run hvalid htable hstart hknown hs₁
  have hrun : s₁.configRunning = s.configCandidate := (run_config (by exact hv) m hs₁).2.2.trans hc.symm
  simp only [hrun]
  cases hcommited : s₁.commited kind with
  | true =>
    rw [hcommited, if_pos rfl] at hend
    exact hend
  | false =>
    rw [hcommited, if_neg Bool.false_ne_true, hrun] at hend
    exact hend.1.congr (Node.SameAt.symm (hend.2.elim id id))

/-! ## Runs -/

/-- The kind of a label. -/
def kindOf (label : String) : Option Kind :=
  [Kind.accessList, .accessList6, .asPathList, .communityList, .prefixList, .prefixList6].find?
    fun kind => kind.label == label

theorem kindOf_label (kind : Kind) : kindOf kind.label = some kind := by
  cases kind <;> decide

/-- The commands below the six kinds of lists. -/
def policyCommands : Commands Unit where
  parseCmd
    | "policy" :: label :: _ :: _ => (kindOf label).map .list
    | _ => none
  routeMaps _ _ := some []

theorem policyCommands_table : PolicyTable policyCommands where
  list kind rest fn h := by
    cases rest with
    | nil => nomatch h
    | cons name rest =>
      have hfn : (kindOf kind.label).map Callback.list = some fn := h
      rw [kindOf_label, Option.map_some, Option.some.injEq] at hfn
      exact hfn.symm
  policy := rfl

/-- An access-list with one rule. -/
def oneRule : List (Command × List String) :=
  [(.set, ["policy", "access-list", "10", "rule", "5", "action", "permit"]),
    (.set, ["policy", "access-list", "10", "rule", "5", "source", "any"])]

/-- The states of a validation of the list and of its commit. -/
theorem oneRule_runs : ∃ s₂ s₃,
    run (step plainGo policyCommands) (init ()) (.validateStart :: messages oneRule ++ [.validateEnd]) =
      some s₂ ∧
    s₂.sent.getLast? = some .validateSuccess ∧
    run (step plainGo policyCommands) s₂ (.commitStart :: messages oneRule ++ [.commitEnd]) = some s₃ ∧
    Daemon.after s₃.vtysh .accessList "10" = [" permit any"] := by
  have hrun : ((run (step plainGo policyCommands) (init ())
      (.validateStart :: messages oneRule ++ [.validateEnd])).bind fun s₂ =>
        (run (step plainGo policyCommands) s₂ (.commitStart :: messages oneRule ++ [.commitEnd])).map
          fun s₃ => (s₂.sent.getLast?, Daemon.after s₃.vtysh .accessList "10")) =
      some (some .validateSuccess, [" permit any"]) := by
    decide +kernel
  obtain ⟨s₂, hs₂, h⟩ := Option.bind_eq_some_iff.mp hrun
  obtain ⟨s₃, hs₃, h⟩ := Option.map_eq_some_iff.mp h
  obtain ⟨hsent, hafter⟩ := Prod.mk.inj h
  exact ⟨s₂, s₃, hs₂, hsent, hs₃, hafter⟩

theorem oneRule_known : ∀ x ∈ oneRule, Known policyCommands x := by
  intro x hx _
  simp only [oneRule, List.mem_cons, List.not_mem_nil, or_false] at hx
  rcases hx with rfl | rfl
  · rfl
  · rfl

/-- The runs of quaggad in which every commit has been validated: a validation that is not
followed by a commit, and one that has been successful and is. -/
inductive Rounds (go : Go) (commands : Commands σ) : State σ → State σ → Prop where
  | refl (s : State σ) : Rounds go commands s s
  | attempt {s s₁ s₂ : State σ} (m : List (Command × List String)) (h : Rounds go commands s s₁)
    (hv : run (step go commands) s₁ (.validateStart :: messages m ++ [.validateEnd]) = some s₂) :
    Rounds go commands s s₂
  | commit {s s₁ s₂ s₃ : State σ} (m : List (Command × List String)) (h : Rounds go commands s s₁)
    (hknown : ∀ x ∈ m, Known commands x)
    (hv : run (step go commands) s₁ (.validateStart :: messages m ++ [.validateEnd]) = some s₂)
    (hsuccess : s₂.sent.getLast? = some .validateSuccess)
    (hc : run (step go commands) s₂ (.commitStart :: messages m ++ [.commitEnd]) = some s₃) :
    Rounds go commands s s₃

theorem rounds_agree (htable : PolicyTable commands) {protocols : σ}
    (h : Rounds go commands (init protocols) s) (kind : Kind) :
    s.validating = false ∧ Agrees go kind s.configRunning (Daemon.after s.vtysh) := by
  induction h with
  | refl => exact ⟨rfl, fun name => Rendered.nil rfl⟩
  | attempt m _ hv ih =>
    obtain ⟨-, ha⟩ := ih
    rw [run_validation, Option.map_eq_some_iff] at hv
    obtain ⟨valid, -, rfl⟩ := hv
    exact ⟨rfl, ha⟩
  | commit m _ hknown hv hsuccess hc ih =>
    obtain ⟨-, ha⟩ := ih
    obtain ⟨hv₂, hcandidate, hrunning, hvtysh, hvalid⟩ := run_success hv hsuccess
    rw [← hrunning, ← hvtysh] at ha
    rw [← hrunning] at hcandidate
    refine ⟨run_commit_validating hv₂ hc, ?_⟩
    exact commit_agrees htable hknown hv₂ hcandidate hvalid ha hc

/-- In a run whose commits have been validated the daemon has the lists of the running tree,
of all six kinds, after every commit. -/
theorem rounds_rendered (go : Go) (commands : Commands σ) (htable : PolicyTable commands)
    (protocols : σ) (s : State σ) (h : Rounds go commands (init protocols) s) (kind : Kind)
    (name : String) :
    Rendered go s.configRunning kind name (Daemon.after s.vtysh kind name) :=
  (rounds_agree htable h kind).2 name

theorem rounds_rendered_oneRule : ∃ s : State Unit, Rounds plainGo policyCommands (init ()) s ∧
    Rendered plainGo s.configRunning .accessList "10" (Daemon.after s.vtysh .accessList "10") ∧
    Daemon.after s.vtysh .accessList "10" = [" permit any"] := by
  obtain ⟨s₂, s₃, hs₂, hsent, hs₃, hafter⟩ := oneRule_runs
  have hrounds : Rounds plainGo policyCommands (init ()) s₃ :=
    .commit oneRule (.refl _) oneRule_known hs₂ hsent hs₃
  exact ⟨s₃, hrounds, rounds_rendered plainGo policyCommands policyCommands_table () s₃ hrounds
    .accessList "10", hafter⟩

end OpenConfigd.Quaggad
