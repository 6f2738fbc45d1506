import OpenConfigd.Config.Reach

/-!
# Completion mode

`YParseSet` runs `Parse` in completion mode on the candidate to check a command,
and `YangSet` runs it in set mode to carry it out. The two modes share the walk
through the schema: `parseFrom_complete` says that completion mode returns the
code of the same plan, whatever it finds in the tree, and leaves the tree alone.
-/

namespace OpenConfigd

section

variable (env : Env) (ent : Entry)

/-- `Parse` in completion mode on a whole tree. -/
def parseComplete (root : Config) (cmds : List String) (trailing : Bool) : Option ParseResult :=
  parseFrom env cmds ent root (some []) { complete := true, trailing }

/-- `YParseSet`: the tokens it hands on, and what `Parse` returns. -/
def yParseSet (candidate : Config) (command : List String) (trailing : Bool) :
    List String × Option ParseResult :=
  let cmds := if (command.drop 1).isEmpty then [""] else command.drop 1
  (cmds, parseComplete env ent candidate cmds trailing)

/-- `YangSet`: the candidate it leaves. -/
def yangSet (candidate : Config) (args : List String) : Option Config :=
  (parse env ent candidate args).map (·.tree)

end

variable {env : Env}

/-! ## Tallies -/

/-- The tallies differ in the completions at most. -/
structure MatchTally.Agrees (s t : MatchTally) : Prop where
  best : s.best = t.best
  count : s.count = t.count
  entry : s.entry = t.entry

theorem MatchTally.Agrees.add {s t : MatchTally} (h : s.Agrees t) (m : MatchType) (e : Entry)
    (comp : Comp) : (s.add m e comp).Agrees (t.add m e comp) := by
  have hcore (u : MatchTally) : (u.add m e comp).Agrees
      (({ best := u.best, count := u.count, entry := u.entry } : MatchTally).add m e comp) := by
    obtain ⟨complete, best, count, entry, comps⟩ := u
    simp only [MatchTally.add]
    split
    · exact ⟨rfl, rfl, rfl⟩
    · cases complete <;> simp only [Bool.false_eq_true, if_true, if_false]
      all_goals split
      all_goals try split
      all_goals exact ⟨rfl, rfl, rfl⟩
  have hs := hcore s
  have ht := hcore t
  rw [h.best, h.count, h.entry] at hs
  exact ⟨hs.best.trans ht.best.symm, hs.count.trans ht.count.symm, hs.entry.trans ht.entry.symm⟩

theorem tallyAll_complete (l : List Alternative) (str : String) (s : MatchTally) :
    (tallyAll env l str s).complete = s.complete := by
  have hstep (m : MatchType) (e : Entry) (comp : Comp) (u : MatchTally) :
      (u.add m e comp).complete = u.complete := by
    simp only [MatchTally.add]
    split
    · rfl
    · cases hc : u.complete <;> simp only [Bool.false_eq_true, if_true, if_false]
      all_goals split
      all_goals try split
      all_goals first | exact hc | rfl
  induction l generalizing s with
  | nil => rfl
  | cons x l ih => exact (ih _).trans (hstep _ _ _ s)

theorem MatchTally.Agrees.tallyAll {s t : MatchTally} (h : s.Agrees t) (l : List Alternative)
    (str : String) : (tallyAll env l str s).Agrees (tallyAll env l str t) := by
  induction l generalizing s t with
  | nil => exact h
  | cons x l ih => exact ih (h.add _ _ _)

/-! ## Parse -/

/-- What a run of `Parse` returns, apart from the completions. -/
def ParseResult.outcome (r : ParseResult) : ParseCode × Option Callback × Config :=
  (r.code, r.callback, r.tree)

theorem outcome_endCode (m : MatchType) (next : ParseState) (comps : List Comp) (tree : Config) :
    (match endCode m next with
      | .parseSuccess =>
        some (⟨.parseSuccess, some .yangSet, comps, tree⟩ : ParseResult)
      | code => some ⟨code, none, comps, tree⟩).map ParseResult.outcome =
      some ((endCode m next).result tree).outcome := by
  cases endCode m next <;> rfl

section

variable {ent e : Entry} {root : Config} {config : Option Loc} {s : YMatchState} {t : MatchTally}
  {str : String} {cmds : List String}

/-- The last token in completion mode. What the tree offers for it makes completions only. -/
theorem parseFrom_last (hc : s.complete = true)
    (hm : matchState env ent s.state s.index str { complete := true, entry := s.entry } = some t)
    (ht : t.complete = true) (hcount : t.count = 1) (he : t.entry = some e) :
    let next := nextState ent e s.state s.index
    let next := if next = .stateLeaf ∧ isEmptyLeaf e then .stateLeafMatched else next
    (parseFrom env [str] ent root config s).map ParseResult.outcome =
      some ((endCode t.best next).result root).outcome := by
  rw [parseFrom, hc, hm]
  simp only [Option.bind_eq_bind, Option.bind_some, Option.pure_def, ht, if_true, hcount,
    Nat.one_ne_zero, Nat.lt_irrefl, if_false, he]
  cases config with
  | none => exact outcome_endCode _ _ _ _
  | some loc =>
    simp only
    generalize matchConfigAt root loc str { complete := true } = cs
    generalize (if cs.count = 1 ∧ cs.best = .typeExact then cs.config else none) = config
    cases config with
    | none => exact outcome_endCode _ _ _ _
    | some loc => exact outcome_endCode _ _ _ _

/-- A token before the last one: the tree decides where completion mode looks next. -/
theorem parseFrom_more {cmd : String} (hc : s.complete = true)
    (hm : matchState env ent s.state s.index str { complete := true, entry := s.entry } = some t)
    (ht : t.complete = true) (hcount : t.count = 1) (he : t.entry = some e) :
    let next := nextState ent e s.state s.index
    ∃ (config' : Option Loc) (s' : YMatchState), s'.complete = true ∧
      s'.state = (if next = .stateLeaf ∧ isEmptyLeaf e then .stateLeafMatched else next) ∧
      s'.index = nextIndex s.state next s.index ∧
      parseFrom env (str :: cmd :: cmds) ent root config s =
        parseFrom env (cmd :: cmds) (nextEnt ent e s.state) root config' s' := by
  rw [parseFrom, hc, hm]
  simp only [Option.bind_eq_bind, Option.bind_some, Option.pure_def, ht, if_true, hcount,
    Nat.one_ne_zero, Nat.lt_irrefl, if_false, he]
  cases config with
  | none => exact ⟨none, _, rfl, rfl, rfl, rfl⟩
  | some loc =>
    simp only
    generalize matchConfigAt root loc str { complete := true } = cs
    generalize (if cs.count = 1 ∧ cs.best = .typeExact then cs.config else none) = config
    cases config with
    | none => exact ⟨none, _, rfl, rfl, rfl, rfl⟩
    | some loc => exact ⟨some loc, _, rfl, rfl, rfl, rfl⟩

/-- A token that selects no entry, or several. -/
theorem parseFrom_stop (hc : s.complete = true)
    (hm : matchState env ent s.state s.index str { complete := true, entry := s.entry } = some t)
    (ht : t.complete = true) (hcount : t.count ≠ 1) :
    (parseFrom env (str :: cmds) ent root config s).map ParseResult.outcome =
      some (if t.count = 0 then .parseNoMatch else .parseAmbiguous, none, root) := by
  rw [parseFrom, hc, hm]
  simp only [Option.bind_eq_bind, Option.bind_some, Option.pure_def, ht, if_true]
  by_cases h : t.count = 0
  · rw [if_pos h, if_pos h]
    rfl
  · rw [if_neg h, if_pos (by omega), if_neg h]
    rfl

end

/-- Completion mode returns the code of the plan and leaves the tree as it is. -/
theorem parseFrom_complete (cmds : List String) (root : Config) (config : Option Loc)
    (s : YMatchState) (cur : Cursor) (hc : s.complete = true)
    (h : ({ s with complete := false } : YMatchState).StandsAt cur) :
    (parseFrom env cmds cur.ent root config s).map ParseResult.outcome =
      (plan env cmds cur).map fun r => (r.1.result root).outcome := by
  induction cmds generalizing config s cur with
  | nil => rfl
  | cons str cmds ih =>
    have hstate : s.state = cur.state := h.state
    have hmatch := @matchState_standsAt env _ _ h str { complete := true, entry := s.entry }
    rw [plan, Cursor.select]
    cases hl : cur.alternatives env str with
    | none =>
      rw [hl] at hmatch
      rw [parseFrom, hc]
      simp only at hmatch
      rw [hmatch]
      rfl
    | some l =>
      rw [hl] at hmatch
      simp only [Option.map_some] at hmatch ⊢
      have hs := @tallyAll_spec env l str s.entry
      have hs' := @tallyAll_spec env l str none
      have hcb := tally_stale hs hs'
      have ha := @MatchTally.Agrees.tallyAll env { complete := true, entry := s.entry }
        { entry := s.entry } ⟨rfl, rfl, rfl⟩ l str
      have ht := @tallyAll_complete env l str { complete := true, entry := s.entry }
      generalize tallyAll env l str { complete := true, entry := s.entry } = r at ha ht hmatch
      generalize tallyAll env l str { entry := s.entry } = r₀ at hs hcb ha
      generalize tallyAll env l str {} = r' at hs' hcb
      have hcount : r.count = r'.count := ha.count.trans hcb.1
      have hbest : r.best = r'.best := ha.best.trans hcb.2
      by_cases hone : r'.count = 1
      · obtain ⟨e, he, hp⟩ := hs'.picks hone
        have hentry : r.entry = some e := ha.entry.trans (hp.tally hs).2.1
        obtain ⟨h₁, h₂, h₃⟩ := h.next_eq e
        have hindex := h.nextState_eq e
        simp only at hindex h₃
        simp only [hone, Nat.one_ne_zero, Nat.lt_irrefl, if_false, he]
        cases cmds with
        | nil =>
          rw [parseFrom_last hc hmatch ht (hcount.trans hone) hentry, hstate, hindex, h₂, hbest]
          rfl
        | cons cmd cmds =>
          obtain ⟨config', s', hc', hst', hi', heq⟩ := @parseFrom_more env cur.ent e
            root config s r str cmds cmd hc hmatch ht (hcount.trans hone) hentry
          rw [hstate, hindex] at hst' hi'
          rw [heq, hstate, h₁, ih config' s' (cur.next e) hc' ⟨rfl, hst'.trans h₂, fun hk =>
            hi'.trans (h₃ hk)⟩]
          simp only [Option.map_map]
          rfl
      · rw [parseFrom_stop hc hmatch ht (hcount ▸ hone), hcount]
        by_cases hzero : r'.count = 0
        · rw [if_pos hzero, if_pos hzero]
          rfl
        · rw [if_neg hzero, if_neg hzero, if_pos (by omega)]
          rfl

section

variable (ent : Entry) (root : Config) (cmds : List String) (trailing : Bool)

/-- Completion mode returns the code of the plan and the tree it was given. -/
theorem parseComplete_plan :
    (parseComplete env ent root cmds trailing).map (fun r => (r.code, r.tree)) =
      (plan env cmds (.root ent)).map fun p => (p.1, root) := by
  have hcomplete := @parseFrom_complete env cmds root (some []) { complete := true, trailing }
    (.root ent) rfl ⟨rfl, rfl, fun _ => rfl⟩
  have hout := congrArg (Option.map fun o => (o.1, o.2.2)) hcomplete
  rw [Option.map_map, Option.map_map] at hout
  exact hout

theorem parseComplete_code :
    (parseComplete env ent root cmds trailing).map (·.code) = (parse env ent root cmds).map (·.code) := by
  have hcode := congrArg (Option.map Prod.fst) (@parseComplete_plan env ent root cmds trailing)
  rw [Option.map_map, Option.map_map] at hcode
  rw [parse_eq_plan, Option.map_map]
  exact hcode

/-- A command that is reported as a success is carried out token by token to the end. -/
theorem parseComplete_some {ent : Entry} {root : Config} {cmds : List String} {trailing : Bool}
    {r : ParseResult} (hr : parseComplete env ent root cmds trailing = some r) :
    r.tree = root ∧ (r.code = .parseSuccess → ∃ ops cur, Trace env (.root ent) cmds ops cur ∧
      cur.accepts = true ∧ parse env ent root cmds =
        some (ParseCode.parseSuccess.result (applyOps env ops (root, [])).1)) := by
  have hplan := @parseComplete_plan env ent root cmds trailing
  rw [hr, Option.map_some, eq_comm, Option.map_eq_some_iff] at hplan
  obtain ⟨⟨code, ops⟩, hplan, hout⟩ := hplan
  obtain ⟨hcode, htree⟩ := Prod.mk.inj hout
  refine ⟨htree.symm, fun hs => ?_⟩
  have hsuccess : code = .parseSuccess := hcode.trans hs
  obtain ⟨cmds', cur, -, ht, hc⟩ := plan_trace hplan
  obtain ⟨rfl, ha⟩ := hc hsuccess
  exact ⟨ops, cur, ht, ha, by rw [parse_eq_plan, hplan, hsuccess]; rfl⟩

/-- `YangSet` carries out what `YParseSet` has reported as a success of its tokens. -/
theorem yangSet_of_yParseSet {candidate : Config} {command : List String} {r : ParseResult}
    (hr : (yParseSet env ent candidate command trailing).2 = some r) (hs : r.code = .parseSuccess) :
    ∃ ops cur, Trace env (.root ent) (yParseSet env ent candidate command trailing).1 ops cur ∧
      cur.accepts = true ∧ yangSet env ent candidate (yParseSet env ent candidate command trailing).1 =
        some (applyOps env ops (candidate, [])).1 := by
  obtain ⟨ops, cur, ht, ha, hset⟩ := (parseComplete_some hr).2 hs
  refine ⟨ops, cur, ht, ha, ?_⟩
  rw [yangSet, yParseSet, hset]
  rfl

end

end OpenConfigd
