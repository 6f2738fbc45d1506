import OpenConfigd.Yang.Parse
import OpenConfigd.Yang.Tally

/-!
# Set mode as a plan

In set mode no decision of `Parse` looks at the tree: the schema and the tokens
alone fix the result code and the `Set` functions it calls. `plan` computes both
from a `Cursor` in the schema, `Op.apply` carries the calls out, and
`parse_eq_plan` says that the two together are `Parse`. `Trace` is the plan as a
relation, for inductions along the tokens.
-/

namespace OpenConfigd

/-- What `Parse` keeps of the schema between two tokens. -/
structure Cursor where
  ent : Entry
  state : ParseState
  index : Nat := 0

/-- What a token selects at a cursor. -/
inductive Selection where
  | noMatch
  | ambiguous
  | unique (e : Entry) (m : MatchType)

/-- A call of one of the `Set` functions. -/
inductive Op where
  | set (e : Entry)
  | setKey (e : Entry) (key pre : String)
  | setLeafList (e : Entry)
  | setValue (value : String)
  | setListValue (value : String)

/-- The call on the node at `loc`, and the node it returns. -/
def Op.apply (env : Env) : Op → Config × Loc → Config × Loc
  | .set e, (root, loc) => (root.modify loc fun c => c.set env e, loc ++ [⟨.configs, e.name⟩])
  | .setKey e key pre, (root, loc) => root.setKey env loc e key pre
  | .setLeafList e, (root, loc) =>
    (root.modify loc fun c => c.setLeafList env e, loc ++ [⟨.configs, e.name⟩])
  | .setValue v, (root, loc) => (root.modify loc fun c => c.setValue v, loc)
  | .setListValue v, (root, loc) => (root.modify loc fun c => c.setListValue v, loc)

/-- The calls one after the other. -/
def applyOps (env : Env) (ops : List Op) (p : Config × Loc) : Config × Loc :=
  ops.foldl (fun p op => op.apply env p) p

namespace Cursor

/-- The cursor at the root of the schema. -/
def root (ent : Entry) : Cursor := ⟨ent, .stateDir, 0⟩

/-- The cursor on a node created for `e`. -/
def enter (e : Entry) : Cursor :=
  ⟨e, if entryNextState e = .stateLeaf ∧ isEmptyLeaf e then .stateLeafMatched else entryNextState e,
    0⟩

/-- The cursor on a key of a list. -/
def enterKey (cur : Cursor) : Cursor :=
  if keyLength cur.ent ≤ cur.index + 1 then ⟨cur.ent, .stateKeyMatched, 0⟩
  else ⟨cur.ent, .stateKey, cur.index + 1⟩

/-- The cursor after a token that selected `e`. -/
def next (cur : Cursor) (e : Entry) : Cursor :=
  match cur.state with
  | .stateDir | .stateDirMatched | .stateKeyMatched => enter e
  | .stateKey => cur.enterKey
  | .stateLeaf | .stateLeafMatched => ⟨cur.ent, .stateLeafMatched, 0⟩
  | .stateLeafList | .stateLeafListMatched => ⟨cur.ent, .stateLeafListMatched, 0⟩

/-- The call a token that selected `e` leads to. -/
def op (cur : Cursor) (e : Entry) (str : String) : Op :=
  match cur.state with
  | .stateDir | .stateDirMatched | .stateKeyMatched =>
    if entryNextState e = .stateLeafList then .setLeafList e else .set e
  | .stateKey => .setKey e str cur.ent.name
  | .stateLeaf | .stateLeafMatched => .setValue str
  | .stateLeafList | .stateLeafListMatched => .setListValue str

section

variable (env : Env)

/-- The alternatives for the next token; `none` when the code panics. -/
def alternatives (cur : Cursor) (str : String) : Option (List Alternative) :=
  match cur.state with
  | .stateDir | .stateDirMatched => some (keywords (dirCandidates cur.ent))
  | .stateKey =>
    match keyEntry cur.ent cur.index with
    | none => some []
    | some key => leafMatches env key str
  | .stateKeyMatched =>
    some (keywords (candidates (cur.ent.dir.filter fun e => !keyIncludeValue cur.ent.key e.name)))
  | .stateLeaf | .stateLeafList | .stateLeafListMatched => leafMatches env cur.ent str
  | .stateLeafMatched => some []

/-- The leaf that the next token is a key or a value for. -/
def leaf (cur : Cursor) : Option Entry :=
  match cur.state with
  | .stateKey => (keyEntry cur.ent cur.index).bind fun key => key.target env
  | .stateLeaf | .stateLeafList | .stateLeafListMatched => cur.ent.target env
  | _ => none

/-- What the token selects; `none` when the code panics. -/
def select (cur : Cursor) (str : String) : Option Selection :=
  (cur.alternatives env str).map fun l =>
    let r := tallyAll env l str {}
    if r.count = 0 then .noMatch
    else if 1 < r.count then .ambiguous
    else
      match r.entry with
      | some e => .unique e r.best
      | none => .noMatch

end

end Cursor

/-- The result code of a token list and the calls it leads to. -/
def plan (env : Env) : List String → Cursor → Option (ParseCode × List Op)
  | [], _ => none
  | str :: cmds, cur =>
    match cur.select env str with
    | none => none
    | some .noMatch => some (.parseNoMatch, [])
    | some .ambiguous => some (.parseAmbiguous, [])
    | some (.unique e m) =>
      match cmds with
      | [] => some (endCode m (cur.next e).state, [cur.op e str])
      | cmd :: cmds =>
        (plan env (cmd :: cmds) (cur.next e)).map fun r => (r.1, cur.op e str :: r.2)

section

variable {env : Env}

theorem matchState_eq (cur : Cursor) (str : String) (s : MatchTally) :
    matchState env cur.ent cur.state cur.index str s =
      (cur.alternatives env str).map fun l => tallyAll env l str s := by
  obtain ⟨ent, state, index⟩ := cur
  cases state <;> simp only [matchState, Cursor.alternatives, Option.map_some]
  case stateDir | stateDirMatched => rw [matchDir_eq]
  case stateKey =>
    rw [matchKey]
    cases keyEntry ent index with
    | none => rfl
    | some key => exact matchLeaf_eq key str s
  case stateKeyMatched => rw [matchKeyMatched, matchDirLoop_eq]
  case stateLeafMatched => rfl
  all_goals exact matchLeaf_eq ent str s

theorem Cursor.select_unique {cur : Cursor} {str : String} {e : Entry} {m : MatchType} :
    cur.select env str = some (.unique e m) ↔
      ∃ l, cur.alternatives env str = some l ∧ Picks env l str e m := by
  rw [select, Option.map_eq_some_iff]
  refine exists_congr fun l => and_congr_right fun _ => ?_
  have hs := @tallyAll_spec env l str none
  constructor
  · intro h
    simp only at h
    split at h
    · cases h
    · split at h
      · cases h
      · obtain ⟨e', he', hp⟩ := hs.picks (by omega)
        rw [he'] at h
        cases h
        exact hp
  · intro hp
    obtain ⟨hc, he, hm⟩ := hp.tally hs
    simp [hc, he, hm]

/-! ## Traces -/

namespace Cursor

/-- The token selects the entry. -/
def Selects (env : Env) (cur : Cursor) (str : String) (e : Entry) : Prop :=
  ∃ m, cur.select env str = some (.unique e m)

/-- The states in which `Parse` returns success after the last token. -/
def accepts (cur : Cursor) : Bool :=
  match cur.state with
  | .stateLeafMatched | .stateLeafListMatched | .stateKeyMatched | .stateDirMatched => true
  | _ => false

theorem Selects.inj {cur : Cursor} {str : String} {e e' : Entry} (h : cur.Selects env str e)
    (h' : cur.Selects env str e') : e = e' := by
  obtain ⟨m, h⟩ := h
  obtain ⟨m', h'⟩ := h'
  rw [h] at h'
  cases h'
  rfl

end Cursor

/-- The tokens select an entry each, and lead to the calls and to the last cursor. -/
inductive Trace (env : Env) : Cursor → List String → List Op → Cursor → Prop
  | nil (cur : Cursor) : Trace env cur [] [] cur
  | cons {cur cur' : Cursor} {str : String} {e : Entry} {cmds : List String} {ops : List Op} :
    cur.Selects env str e → Trace env (cur.next e) cmds ops cur' →
      Trace env cur (str :: cmds) (cur.op e str :: ops) cur'

theorem endCode_success {m : MatchType} {cur : Cursor} (h : endCode m cur.state = .parseSuccess) :
    cur.accepts = true := by
  obtain ⟨ent, state, index⟩ := cur
  cases state <;> cases m <;> first | rfl | cases h

/-- A plan carries out a part of the tokens, and all of them when it succeeds. -/
theorem plan_trace {cmds : List String} {cur : Cursor} {code : ParseCode} {ops : List Op}
    (h : plan env cmds cur = some (code, ops)) :
    ∃ cmds' cur', cmds' <+: cmds ∧ Trace env cur cmds' ops cur' ∧
      (code = .parseSuccess → cmds' = cmds ∧ cur'.accepts = true) := by
  induction cmds generalizing cur code ops with
  | nil => cases h
  | cons str cmds ih =>
    rw [plan] at h
    split at h
    · cases h
    · cases h
      exact ⟨[], cur, List.nil_prefix, .nil cur, fun h => by cases h⟩
    · cases h
      exact ⟨[], cur, List.nil_prefix, .nil cur, fun h => by cases h⟩
    · rename_i e m hsel
      cases cmds with
      | nil =>
        cases h
        exact ⟨[str], cur.next e, List.prefix_rfl, .cons ⟨m, hsel⟩ (.nil _),
          fun h => ⟨rfl, endCode_success h⟩⟩
      | cons cmd cmds =>
        simp only [Option.map_eq_some_iff, Prod.mk.injEq] at h
        obtain ⟨⟨code', ops'⟩, hp, rfl, rfl⟩ := h
        obtain ⟨cmds', cur', hpre, ht, hc⟩ := ih hp
        refine ⟨str :: cmds', cur', by simpa using hpre, .cons ⟨m, hsel⟩ ht, fun h => ?_⟩
        rw [(hc h).1]
        exact ⟨rfl, (hc h).2⟩

/-- A nonempty trace is what the plan of its tokens carries out. -/
theorem Trace.plan {cmds : List String} {cur cur' : Cursor} {ops : List Op}
    (h : Trace env cur cmds ops cur') (hne : cmds ≠ []) :
    ∃ code, plan env cmds cur = some (code, ops) := by
  induction h with
  | nil => exact absurd rfl hne
  | @cons cur cur' str e cmds ops hsel ht ih =>
    obtain ⟨m, hsel⟩ := hsel
    rw [OpenConfigd.plan, hsel]
    cases ht with
    | nil => exact ⟨_, rfl⟩
    | cons hsel' ht =>
      obtain ⟨code, hp⟩ := ih (List.cons_ne_nil _ _)
      exact ⟨code, by simp only [hp, Option.map_some]⟩

/-- The calls of the tokens, up to the first one that selects no entry. -/
def calls (env : Env) : List String → Cursor → List Op
  | [], _ => []
  | str :: cmds, cur =>
    match cur.select env str with
    | some (.unique e _) => cur.op e str :: calls env cmds (cur.next e)
    | _ => []

theorem plan_calls {cmds : List String} {cur : Cursor} {code : ParseCode} {ops : List Op}
    (h : plan env cmds cur = some (code, ops)) : calls env cmds cur = ops := by
  induction cmds generalizing cur code ops with
  | nil => cases h
  | cons str cmds ih =>
    rw [plan] at h
    rw [calls]
    split at h
    · cases h
    · rename_i hsel
      rw [hsel]
      cases h
      rfl
    · rename_i hsel
      rw [hsel]
      cases h
      rfl
    · rename_i e m hsel
      rw [hsel]
      cases cmds with
      | nil =>
        cases h
        rfl
      | cons cmd cmds =>
        simp only [Option.map_eq_some_iff, Prod.mk.injEq] at h
        obtain ⟨⟨code', ops'⟩, hp, -, rfl⟩ := h
        simp only [ih hp]

/-! ## The equation -/

/-- The state `Parse` hands on in set mode stands at the cursor. The key index is
left over from the last list while no key is read. -/
structure YMatchState.StandsAt (s : YMatchState) (cur : Cursor) : Prop where
  complete : s.complete = false
  state : s.state = cur.state
  index : cur.state = .stateKey → s.index = cur.index

theorem matchState_standsAt {s : YMatchState} {cur : Cursor} (h : s.StandsAt cur) (str : String)
    (t : MatchTally) : matchState env cur.ent s.state s.index str t =
      (cur.alternatives env str).map fun l => tallyAll env l str t := by
  rw [← matchState_eq, h.state]
  by_cases hk : cur.state = .stateKey
  · rw [h.index hk]
  · cases hs : cur.state <;> first | rfl | exact absurd hs hk

theorem YMatchState.StandsAt.nextState_eq {s : YMatchState} {cur : Cursor} (h : s.StandsAt cur)
    (e : Entry) : nextState cur.ent e cur.state s.index = nextState cur.ent e cur.state cur.index := by
  by_cases hk : cur.state = .stateKey
  · rw [h.index hk]
  · cases hs : cur.state <;> first | rfl | exact absurd hs hk

/-- A node is entered in one of five states. -/
theorem entryNextState_cases (e : Entry) : entryNextState e = .stateDir ∨
    entryNextState e = .stateDirMatched ∨ entryNextState e = .stateKey ∨
    entryNextState e = .stateLeaf ∨ entryNextState e = .stateLeafList := by
  rw [entryNextState]
  split
  · split
    · simp
    · split <;> simp
  · split <;> simp
  · simp

theorem setConfig_eq (root : Config) (loc : Loc) (cur : Cursor) (e : Entry) (str : String) :
    setConfig env root loc (nextEnt cur.ent e cur.state) e cur.state
      (nextState cur.ent e cur.state cur.index) str = (cur.op e str).apply env (root, loc) := by
  obtain ⟨ent, state, index⟩ := cur
  cases state <;> simp only [nextEnt, nextState, Cursor.op]
  case stateDir | stateDirMatched | stateKeyMatched =>
    rcases entryNextState_cases e with h | h | h | h | h <;> simp [h, setConfig, Op.apply]
  case stateKey => split <;> simp [setConfig, Op.apply]
  all_goals simp [setConfig, Op.apply]

theorem YMatchState.StandsAt.next_eq {s : YMatchState} {cur : Cursor} (h : s.StandsAt cur)
    (e : Entry) :
    let next := nextState cur.ent e cur.state cur.index
    nextEnt cur.ent e cur.state = (cur.next e).ent ∧
    (if next = .stateLeaf ∧ isEmptyLeaf e then .stateLeafMatched else next) = (cur.next e).state ∧
    ((cur.next e).state = .stateKey → nextIndex cur.state next s.index = (cur.next e).index) := by
  obtain ⟨ent, state, index⟩ := cur
  cases state
  case stateDir | stateDirMatched | stateKeyMatched =>
    refine ⟨rfl, rfl, ?_⟩
    rcases entryNextState_cases e with h | h | h | h | h <;>
      simp [Cursor.next, Cursor.enter, nextState, nextIndex, h]
    split <;> simp
  case stateKey =>
    have hi : s.index = index := h.index rfl
    simp only [nextEnt, nextState, nextIndex, Cursor.next, Cursor.enterKey, hi]
    split <;> simp
  all_goals exact ⟨rfl, rfl, by simp [Cursor.next]⟩

/-- What `Parse` returns for a result code in set mode. -/
def ParseCode.result (code : ParseCode) (tree : Config) : ParseResult :=
  { code, callback := if code = .parseSuccess then some .yangSet else none, tree }

theorem sort_nil {α : Type} (less : α → α → Bool) : env.sort less [] = [] :=
  (env.sort_perm less []).eq_nil

theorem endCode_result (m : MatchType) (next : ParseState) (tree : Config) :
    (match endCode m next with
      | .parseSuccess =>
        some { code := .parseSuccess, callback := some .yangSet, tree := tree }
      | code => some { code := code, tree := tree }) = some ((endCode m next).result tree) := by
  cases endCode m next <;> rfl

/-- An entry left over from an earlier token changes nothing. -/
theorem tally_stale {l : List Alternative} {str : String} {r r' : MatchTally}
    (h : TallySpec env l str r) (h' : TallySpec env l str r') :
    r.count = r'.count ∧ r.best = r'.best := by
  have le {r r' : MatchTally} (h : TallySpec env l str r) (h' : TallySpec env l str r') :
      r.best.rank ≤ r'.best.rank := by
    by_cases hb : r.best = .typeNone
    · rw [hb]
      exact Nat.zero_le _
    · obtain ⟨x, hx, he⟩ := h.reached hb
      exact he ▸ h'.bound x hx
  have hb := MatchType.rank_inj (Nat.le_antisymm (le h h') (le h' h))
  exact ⟨by rw [h.count, h'.count, hb], hb⟩

theorem parseFrom_eq_plan (cmds : List String) (root : Config) (loc : Loc) (s : YMatchState)
    (cur : Cursor) (h : s.StandsAt cur) :
    parseFrom env cmds cur.ent root (some loc) s =
      (plan env cmds cur).map fun r => r.1.result (applyOps env r.2 (root, loc)).1 := by
  induction cmds generalizing root loc s cur with
  | nil => rfl
  | cons str cmds ih =>
    rw [parseFrom, plan, matchState_standsAt h, Cursor.select]
    cases hl : cur.alternatives env str with
    | none => rfl
    | some l =>
      have hs := @tallyAll_spec env l str s.entry
      have hs' := @tallyAll_spec env l str none
      have hcb := tally_stale hs hs'
      simp only [Option.map_some, h.complete]
      generalize tallyAll env l str { entry := s.entry } = r at hs hcb
      generalize tallyAll env l str {} = r' at hs' hcb
      simp only [hs.complete, hs.comps, sort_nil, Bool.false_eq_true, if_false, Bool.false_and,
        Option.bind_eq_bind, Option.bind_some, Option.pure_def, hcb.1, hcb.2]
      rcases Nat.lt_trichotomy r'.count 1 with hc | hc | hc
      · rw [if_pos (by omega), if_pos (by omega)]
        rfl
      · obtain ⟨e, he, hp⟩ := hs'.picks hc
        rw [if_neg (by omega), if_neg (by omega), if_neg (by omega), if_neg (by omega), he,
          (hp.tally hs).2.1, h.state]
        obtain ⟨h₁, h₂, h₃⟩ := h.next_eq e
        simp only [Option.bind_some, h.nextState_eq, setConfig_eq, h₂]
        cases cmds with
        | nil => exact endCode_result _ _ _
        | cons cmd cmds =>
          simp only [h₁]
          rw [ih _ _ _ _ ⟨rfl, rfl, h₃⟩]
          cases plan env (cmd :: cmds) (cur.next e) <;> rfl
      · rw [if_neg (by omega), if_pos hc, if_neg (by omega), if_pos hc]
        rfl

/-- `Parse` in set mode is its plan, carried out. -/
theorem parse_eq_plan (ent : Entry) (root : Config) (cmds : List String) :
    parse env ent root cmds = (plan env cmds (Cursor.root ent)).map fun r =>
      r.1.result (applyOps env r.2 (root, [])).1 :=
  parseFrom_eq_plan cmds root [] {} (Cursor.root ent) ⟨rfl, rfl, fun _ => rfl⟩

end

end OpenConfigd
