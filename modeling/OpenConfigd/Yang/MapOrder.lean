import OpenConfigd.Lib.Ranges
import OpenConfigd.Go.Ascii
import OpenConfigd.Yang.Plan

/-!
# The order of the maps

`Parse` ranges over the `Dir` maps of the schema and the name maps of enumerations, each time in
an order of its own. `Parses` is `Parse` with all these orders: what it may return.

* `walks_visits`: the walks through directories and choices meet the same entries in any order;
* `matchesState_same`: a token is matched the same way in any order;
* `parse_runs`: what the model of `Parse` returns is one of the results;
* `parse_map_order`: all the results are the same.
-/

namespace OpenConfigd

/-! ## The loops -/

mutual

/-- The loop of `MatchDir` and `CompDir`, which does `act` for each entry that is no choice. -/
inductive WalksDir {σ : Type} (act : Entry → σ → σ) : Entry → σ → σ → Prop
  | range {e : Entry} {s s' : σ} : Ranges (WalksEntry act) e.dir s s' → WalksDir act e s s'

/-- Its body; `MatchChoice` and `CompChoice` go through the cases of a choice. -/
inductive WalksEntry {σ : Type} (act : Entry → σ → σ) : Entry → σ → σ → Prop
  | choice {e : Entry} {s s' : σ} : e.isChoice = true → Ranges (WalksDir act) e.dir s s' →
    WalksEntry act e s s'
  | entry {e : Entry} {s : σ} : e.isChoice = false → WalksEntry act e s (act e s)

end

/-- The entries of a list that are no keys of it. -/
def Entry.notKeys (ent : Entry) : List Entry := ent.dir.filter fun e => !keyIncludeValue ent.key e.name

/-- `MatchEntry` of a keyword, in the loops over `Dir`. -/
def matchName (str : String) (e : Entry) (s : MatchTally) : MatchTally :=
  matchWord e.name e str s

/-- The loop over an enumeration in `MatchType`, and what it does with other types. -/
def MatchesType (env : Env) (str : String) (e : Entry) (typ : YangType) (s : MatchTally)
    (o : Option MatchTally) : Prop :=
  if typ.kind = .enum then
    ∃ s', o = some s' ∧ Ranges (fun name s s' => s' = matchWord name e str s) typ.enumNames s s'
  else o = matchType env e typ str s

/-- The loop over the members of a union, in their order. -/
def MatchesTypes (env : Env) (str : String) (e : Entry) :
    List YangType → MatchTally → Option MatchTally → Prop
  | [], s, o => o = some s
  | typ :: types, s, o =>
    (MatchesType env str e typ s none ∧ o = none) ∨
      ∃ s₁, MatchesType env str e typ s (some s₁) ∧ MatchesTypes env str e types s₁ o

/-- `MatchLeaf` of an entry that is no leafref; `none` when it panics. -/
def MatchesLeafType (env : Env) (str : String) (e : Entry) (s : MatchTally) (o : Option MatchTally) :
    Prop :=
  match e.type with
  | none => o = none
  | some t => if t.kind = .union then MatchesTypes env str e t.types s o else MatchesType env str e t s o

/-- `MatchLeaf`. -/
def MatchesLeaf (env : Env) (str : String) (e : Entry) (s : MatchTally) (o : Option MatchTally) :
    Prop :=
  match e.type with
  | none => o = some s
  | some t =>
    if t.kind = .leafref then
      match env.find e t.path with
      | none => o = some s
      | some target => MatchesLeafType env str target s o
    else MatchesLeafType env str e s o

/-- `MatchKey`. -/
def MatchesKey (env : Env) (ent : Entry) (index : ℕ) (str : String) (s : MatchTally)
    (o : Option MatchTally) : Prop :=
  match keyEntry ent index with
  | none => o = some s
  | some key => MatchesLeaf env str key s o

/-- The first switch of `Parse`. -/
def MatchesState (env : Env) (ent : Entry) (state : ParseState) (index : ℕ) (str : String)
    (s : MatchTally) (o : Option MatchTally) : Prop :=
  match state with
  | .stateDir | .stateDirMatched => ∃ s', o = some s' ∧ WalksDir (matchName str) ent s s'
  | .stateKey => MatchesKey env ent index str s o
  | .stateKeyMatched =>
    ∃ s', o = some s' ∧ Ranges (WalksEntry (matchName str)) ent.notKeys s s'
  | .stateLeaf | .stateLeafList | .stateLeafListMatched => MatchesLeaf env str ent s o
  | .stateLeafMatched => o = some s

/-- `CompDir` of an entry that is no choice. -/
def compName (e : Entry) (comps : List Comp) : List Comp :=
  comps ++ [{ name := e.name, dir := isCompDir e, additive := isAdditive e }]

/-- `CompLeaf`; `EntryExpanded` ranges over the names of an enumeration. -/
def CompsLeaf (ent : Entry) (comps : List Comp) : Prop :=
  if (ent.type.map (·.kind)) = some .enum then
    Ranges (fun name comps comps' => comps' = comps ++ [({ name } : Comp)])
      ((ent.type.map (·.enumNames)).getD []) [] comps
  else comps = compLeaf ent

/-- The completions `Parse` returns after the last token. -/
def CompsTrailing (env : Env) (ent : Entry) (next : ParseState) (index : ℕ) (comps : List Comp) :
    Prop :=
  ∃ l, comps = env.sort compLess l ∧
    match next with
    | .stateDir | .stateDirMatched => WalksDir compName ent [] l
    | .stateLeaf | .stateLeafList | .stateLeafListMatched => CompsLeaf ent l
    | .stateLeafMatched => l = []
    | .stateKey => l = compKey ent index
    | .stateKeyMatched => Ranges (WalksEntry compName) ent.notKeys [] l

/-! ## What they meet -/

/-- A property of every child that carries over to the entry holds of every entry. -/
theorem Entry.ind {P : Entry → Prop} (h : ∀ e : Entry, (∀ c ∈ e.dir, P c) → P e) (e : Entry) : P e := by
  refine @Entry.rec P (fun l => ∀ c ∈ l, P c) ?_ ?_ ?_ e
  · intro head dir hdir
    exact h ⟨head, dir⟩ hdir
  · intro c hc
    cases hc
  · intro e l he hl c hc
    rcases List.mem_cons.mp hc with rfl | hc
    · exact he
    · exact hl c hc

/-- The entries of an entry in a directory: those of its cases, or itself. -/
def Entry.members (e : Entry) : List Entry := if e.isChoice then choiceCandidates e else [e]

theorem candidates_eq (es : List Entry) : candidates es = es.flatMap Entry.members := by
  induction es with
  | nil => rfl
  | cons e es ih => rw [candidates, ih, List.flatMap_cons, Entry.members]

theorem caseCandidates_eq (es : List Entry) : caseCandidates es = es.flatMap dirCandidates := by
  induction es with
  | nil => rfl
  | cons e es ih => rw [caseCandidates, ih, List.flatMap_cons]

theorem dirCandidates_eq (e : Entry) : dirCandidates e = e.dir.flatMap Entry.members := by
  cases e
  rw [dirCandidates, candidates_eq]

theorem choiceCandidates_eq (e : Entry) : choiceCandidates e = e.dir.flatMap dirCandidates := by
  cases e
  rw [choiceCandidates, caseCandidates_eq]

section

variable {σ : Type} {act : Entry → σ → σ} {e : Entry} {s s' : σ}

/-- Whatever the order of the maps, a walk acts on the candidates. -/
theorem walks_visits (e : Entry) :
    (∀ s s', WalksDir act e s s' →
      ∃ l : List Entry, l.Perm (dirCandidates e) ∧ s' = l.foldl (fun s e => act e s) s) ∧
    ∀ s s', WalksEntry act e s s' →
      ∃ l : List Entry, l.Perm e.members ∧ s' = l.foldl (fun s e => act e s) s := by
  induction e using Entry.ind with
  | h e ih =>
    constructor
    · rintro s s' ⟨hr⟩
      rw [dirCandidates_eq]
      exact hr.visits fun c hc => (ih c hc).2
    · intro s s' hw
      cases hw with
      | choice hch hr =>
        rw [Entry.members, if_pos hch, choiceCandidates_eq]
        exact hr.visits fun c hc => (ih c hc).1
      | entry hch =>
        rw [Entry.members, if_neg (by simp [hch])]
        exact ⟨[e], .refl _, rfl⟩

/-- The order of the lists is one of the orders. -/
theorem walks_foldl (e : Entry) :
    (∀ s, WalksDir act e s ((dirCandidates e).foldl (fun s e => act e s) s)) ∧
    ∀ s, WalksEntry act e s (e.members.foldl (fun s e => act e s) s) := by
  induction e using Entry.ind with
  | h e ih =>
    constructor
    · intro s
      rw [dirCandidates_eq, List.foldl_flatMap]
      exact .range (.foldl (fun c hc => (ih c hc).2) s)
    · intro s
      rw [Entry.members]
      split
      · rename_i hch
        rw [choiceCandidates_eq, List.foldl_flatMap]
        exact .choice hch (.foldl (fun c hc => (ih c hc).1) s)
      · rename_i hch
        exact .entry (by simpa using hch)

end

/-! ## A token -/

section

variable {env : Env} {str : String} {s s' : MatchTally} {o : Option MatchTally}

theorem matchName_foldl (es : List Entry) (s : MatchTally) :
    es.foldl (fun s e => matchName str e s) s = tallyAll env (keywords es) str s := by
  rw [tallyAll, keywords, List.foldl_map]
  rfl

theorem matchesType_visits {e : Entry} {typ : YangType} (h : MatchesType env str e typ s o) :
    ∃ l : List Alternative, l.Perm (typeAlternatives e typ) ∧
      o = l.foldlM (fun s x => matchEntry env x.1 x.2 str s) s := by
  rw [MatchesType] at h
  split at h
  · rename_i hk
    obtain ⟨s', rfl, h⟩ := h
    have hstep : ∀ name ∈ typ.enumNames, ∀ s s', s' = matchWord name e str s →
        ∃ l : List String, l.Perm [name] ∧ s' = l.foldl (fun s name => matchWord name e str s) s :=
      fun name _ s s' hs => ⟨[name], .refl _, hs⟩
    obtain ⟨names, hp, rfl⟩ := h.visits hstep
    rw [List.flatMap_singleton'] at hp
    refine ⟨names.map fun name => (.keyword name, e), ?_, (foldlM_matchWord names e str s).symm⟩
    simp only [typeAlternatives, hk]
    exact hp.map _
  · exact ⟨_, .refl _, h.trans (matchType_eq e typ str s)⟩

theorem matchesType_matchType (e : Entry) (typ : YangType) (s : MatchTally) :
    MatchesType env str e typ s (matchType env e typ str s) := by
  rw [MatchesType]
  split
  · rename_i hk
    simp only [matchType, hk]
    refine ⟨_, rfl, .foldl ?_ s⟩
    intro name _ s
    rfl
  · rfl

theorem matchesTypes_visits {e : Entry} {types : List YangType}
    (h : MatchesTypes env str e types s o) :
    ∃ l : List Alternative, l.Perm (types.flatMap (typeAlternatives e)) ∧
      o = l.foldlM (fun s x => matchEntry env x.1 x.2 str s) s := by
  induction types generalizing s with
  | nil => exact ⟨[], .refl _, h⟩
  | cons typ types ih =>
    rcases h with ⟨ht, rfl⟩ | ⟨s₁, ht, h⟩
    · obtain ⟨l, hl, hs⟩ := matchesType_visits ht
      refine ⟨l ++ types.flatMap (typeAlternatives e), ?_, ?_⟩
      · rw [List.flatMap_cons]
        exact hl.append_right _
      · rw [List.foldlM_append, ← hs]
        rfl
    · obtain ⟨l, hl, hs⟩ := matchesType_visits ht
      obtain ⟨l', hl', rfl⟩ := ih h
      refine ⟨l ++ l', ?_, ?_⟩
      · rw [List.flatMap_cons]
        exact hl.append hl'
      · rw [List.foldlM_append, ← hs]
        rfl

theorem matchesTypes_foldlM (e : Entry) (types : List YangType) (s : MatchTally) :
    MatchesTypes env str e types s (types.foldlM (fun s typ => matchType env e typ str s) s) := by
  induction types generalizing s with
  | nil => rfl
  | cons typ types ih =>
    have ht := @matchesType_matchType env str e typ s
    rw [List.foldlM_cons]
    cases hs : matchType env e typ str s with
    | none => exact .inl ⟨hs ▸ ht, rfl⟩
    | some s₁ => exact .inr ⟨s₁, hs ▸ ht, ih s₁⟩

/-- The state is that of the alternatives in some order. -/
def Tallies (env : Env) (alts : Option (List Alternative)) (str : String) (s : MatchTally)
    (o : Option MatchTally) : Prop :=
  ∃ l, Option.Rel List.Perm l alts ∧ o = l.map fun l => tallyAll env l str s

theorem Tallies.empty (h : o = some s) : Tallies env (some []) str s o :=
  ⟨some [], .some (.refl _), h⟩

theorem Tallies.some {alts l : List Alternative} (hl : l.Perm alts) (h : s' = tallyAll env l str s) :
    Tallies env (.some alts) str s (.some s') :=
  ⟨.some l, .some hl, congrArg Option.some h⟩

/-- Whether one of the alternatives panics does not depend on their order. -/
theorem Tallies.foldlM {alts l : List Alternative} (hl : l.Perm alts)
    (h : o = l.foldlM (fun s x => matchEntry env x.1 x.2 str s) s) :
    Tallies env ((Option.some alts).filter fun l => Returns env str l) str s o := by
  have hreturns : Returns env str l ↔ Returns env str alts := forall_congr' fun x => by rw [hl.mem_iff]
  rw [h, foldlM_matchEntry, Option.filter_some]
  by_cases hr : Returns env str l
  · rw [if_pos hr, if_pos (decide_eq_true (hreturns.mp hr))]
    exact .some hl rfl
  · rw [if_neg hr, if_neg (by simpa using mt hreturns.mpr hr)]
    exact ⟨none, .none, rfl⟩

theorem matchesLeafType_tallies {e : Entry} (h : MatchesLeafType env str e s o) :
    Tallies env ((leafTypeAlternatives e).filter fun l => Returns env str l) str s o := by
  rw [MatchesLeafType] at h
  rw [leafTypeAlternatives]
  cases ht : e.type with
  | none =>
    rw [ht] at h
    exact ⟨none, .none, h⟩
  | some t =>
    simp only [ht] at h
    rw [Option.map_some]
    split at h
    · obtain ⟨l, hl, hs⟩ := matchesTypes_visits h
      rw [if_pos ‹_›]
      exact .foldlM hl hs
    · obtain ⟨l, hl, hs⟩ := matchesType_visits h
      rw [if_neg ‹_›]
      exact .foldlM hl hs

theorem matchesLeaf_tallies {e : Entry} (h : MatchesLeaf env str e s o) :
    Tallies env (leafMatches env e str) str s o := by
  rw [MatchesLeaf] at h
  rw [leafMatches, leafAlternatives]
  cases ht : e.type with
  | none =>
    rw [ht] at h
    exact .empty h
  | some t =>
    simp only [ht] at h
    dsimp only
    split at h
    · rw [if_pos ‹_›]
      cases hf : env.find e t.path with
      | none =>
        rw [hf] at h
        exact .empty h
      | some target =>
        rw [hf] at h
        exact matchesLeafType_tallies h
    · rw [if_neg ‹_›]
      exact matchesLeafType_tallies h

/-- The alternatives for a token, matched in some order. -/
theorem matchesState_tallies {ent : Entry} {state : ParseState} {index : ℕ}
    (h : MatchesState env ent state index str s o) :
    Tallies env ((Cursor.mk ent state index).alternatives env str) str s o := by
  cases state <;> rw [MatchesState] at h
  case stateDir | stateDirMatched =>
    obtain ⟨s', rfl, hw⟩ := h
    obtain ⟨l, hl, rfl⟩ := (walks_visits ent).1 _ _ hw
    exact .some (hl.map _) (matchName_foldl l s)
  case stateKey =>
    rw [MatchesKey] at h
    rw [Cursor.alternatives]
    dsimp only
    cases hk : keyEntry ent index with
    | none =>
      rw [hk] at h
      exact .empty h
    | some key =>
      rw [hk] at h
      exact matchesLeaf_tallies h
  case stateKeyMatched =>
    obtain ⟨s', rfl, hr⟩ := h
    obtain ⟨l, hl, rfl⟩ := hr.visits fun c _ => (walks_visits c).2
    rw [Cursor.alternatives]
    refine .some (l := keywords l) ?_ (matchName_foldl l s)
    rw [candidates_eq]
    exact hl.map _
  case stateLeafMatched => exact .empty h
  all_goals exact matchesLeaf_tallies h

theorem matchesLeaf_matchLeaf (e : Entry) (s : MatchTally) :
    MatchesLeaf env str e s (matchLeaf env e str s) := by
  have htype (e : Entry) : MatchesLeafType env str e s (matchLeafType env e str s) := by
    rw [MatchesLeafType, matchLeafType]
    cases e.type with
    | none => rfl
    | some t =>
      dsimp only [Option.bind_eq_bind, Option.bind_some]
      by_cases hk : t.kind = .union
      · rw [if_pos hk, if_pos hk]
        exact matchesTypes_foldlM e t.types s
      · rw [if_neg hk, if_neg hk]
        exact matchesType_matchType e t s
  rw [MatchesLeaf, matchLeaf]
  cases e.type with
  | none => rfl
  | some t =>
    dsimp only
    split
    · cases env.find e t.path with
      | none => rfl
      | some target => exact htype target
    · exact htype e

/-- The order of the lists is one of the orders. -/
theorem matchesState_matchState (ent : Entry) (state : ParseState) (index : ℕ) (s : MatchTally) :
    MatchesState env ent state index str s (matchState env ent state index str s) := by
  cases state <;> rw [MatchesState, matchState]
  case stateDir | stateDirMatched =>
    refine ⟨_, rfl, ?_⟩
    rw [@matchDir_eq env, ← matchName_foldl]
    exact (walks_foldl ent).1 s
  case stateKey =>
    rw [MatchesKey, matchKey]
    cases keyEntry ent index with
    | none => rfl
    | some key => exact matchesLeaf_matchLeaf key s
  case stateKeyMatched =>
    refine ⟨_, rfl, ?_⟩
    rw [matchKeyMatched, @matchDirLoop_eq env, ← matchName_foldl, candidates_eq, List.foldl_flatMap]
    exact .foldl (fun c _ => (walks_foldl c).2) s
  all_goals exact matchesLeaf_matchLeaf ent s

/-- The same match, as often, with the same completions, and for the same entry where there is
one match. -/
structure MatchTally.Same (t t' : MatchTally) : Prop where
  complete : t.complete = t'.complete
  best : t.best = t'.best
  count : t.count = t'.count
  entry : t.count = 1 → t.entry = t'.entry
  comps : t.comps.Perm t'.comps

theorem tallyAll_same {l l' : List Alternative} (h : l.Perm l') (complete : Bool)
    (entry : Option Entry) :
    (tallyAll env l str { complete, entry }).Same (tallyAll env l' str { complete, entry }) := by
  obtain ⟨hcomplete, hcomps, hrank, hcount, hentry⟩ := @tallyAll_best env l str complete entry
  obtain ⟨hcomplete', hcomps', hrank', hcount', hentry'⟩ := @tallyAll_best env l' str complete entry
  obtain ⟨hr, hc, hf⟩ := @Best.ofList_perm _ (altRank env str) _ _ h
  refine ⟨hcomplete.trans hcomplete'.symm, ?_, ?_, fun hone => ?_, ?_⟩
  · exact MatchType.rank_inj (by rw [hrank, hrank', hr])
  · rw [hcount, hcount', hc]
  · rw [hentry, hentry', hf (hcount.symm.trans hone)]
  · rw [hcomps, hcomps']
    split
    · exact (h.filter _).map _
    · exact .refl _

/-- A token is matched the same way in any order. -/
theorem matchesState_same {ent : Entry} {state : ParseState} {index : ℕ} {complete : Bool}
    {entry : Option Entry} {o o' : Option MatchTally}
    (h : MatchesState env ent state index str { complete, entry } o)
    (h' : MatchesState env ent state index str { complete, entry } o') :
    Option.Rel MatchTally.Same o o' := by
  obtain ⟨l, hl, rfl⟩ := matchesState_tallies h
  obtain ⟨l', hl', rfl⟩ := matchesState_tallies h'
  generalize (Cursor.mk ent state index).alternatives env str = alts at hl hl'
  cases hl with
  | none =>
    cases hl' with
    | none => exact .none
  | some hp =>
    cases hl' with
    | some hp' => exact .some (tallyAll_same (hp.trans hp'.symm) complete entry)

end

/-! ## Completions -/

section

variable {env : Env} {ent : Entry} {l : List Comp}

theorem compName_foldl (es : List Entry) (comps : List Comp) :
    es.foldl (fun comps e => compName e comps) comps = comps ++ es.flatMap fun e => compName e [] := by
  induction es generalizing comps with
  | nil => exact (List.append_nil comps).symm
  | cons e es ih =>
    rw [List.foldl_cons, ih, List.flatMap_cons, ← List.append_assoc]
    rfl

mutual

theorem compDirLoop_eq : ∀ es : List Entry,
    compDirLoop es = (candidates es).flatMap fun e => compName e []
  | [] => rfl
  | e :: es => by
    rw [compDirLoop, candidates, List.flatMap_append, compDirLoop_eq es]
    congr 1
    split
    · exact compChoice_eq e
    · exact (List.append_nil _).symm

theorem compChoice_eq : ∀ e : Entry,
    compChoice e = (choiceCandidates e).flatMap fun e => compName e []
  | ⟨_, dir⟩ => by
    rw [compChoice, choiceCandidates]
    exact compChoiceLoop_eq dir

theorem compChoiceLoop_eq : ∀ es : List Entry,
    compChoiceLoop es = (caseCandidates es).flatMap fun e => compName e []
  | [] => rfl
  | e :: es => by
    rw [compChoiceLoop, caseCandidates, List.flatMap_append, compChoiceLoop_eq es, compDirOf_eq e]

theorem compDirOf_eq : ∀ e : Entry,
    compDirOf e = (dirCandidates e).flatMap fun e => compName e []
  | ⟨_, dir⟩ => by
    rw [compDirOf, dirCandidates]
    exact compDirLoop_eq dir

end

theorem foldl_comps (names : List String) :
    names.foldl (fun comps name => comps ++ [({ name } : Comp)]) [] =
      names.map fun name => ({ name } : Comp) := by
  rw [List.foldl_append_eq_append, List.nil_append, ← List.flatMap_def, ← List.map_eq_flatMap]

theorem compsLeaf_perm (h : CompsLeaf ent l) : l.Perm (compLeaf ent) := by
  rw [CompsLeaf] at h
  split at h
  · rename_i hk
    obtain ⟨t, ht, hk⟩ := Option.map_eq_some_iff.mp hk
    simp only [ht, Option.map_some, Option.getD_some] at h
    have hstep : ∀ name ∈ t.enumNames, ∀ comps comps', comps' = comps ++ [({ name } : Comp)] →
        ∃ l : List String, l.Perm [name] ∧
          comps' = l.foldl (fun comps name => comps ++ [({ name } : Comp)]) comps :=
      fun name _ comps comps' hs => ⟨[name], .refl _, hs⟩
    obtain ⟨names, hp, rfl⟩ := h.visits hstep
    rw [List.flatMap_singleton'] at hp
    rw [foldl_comps]
    simp only [compLeaf, ht, hk]
    exact hp.map _
  · rw [h]

/-- Whatever the order of the maps, the completions are the same. -/
theorem compsTrailing_perm {next : ParseState} {index : ℕ} (h : CompsTrailing env ent next index l) :
    l.Perm (trailingComps env ent next index) := by
  obtain ⟨l, rfl, h⟩ := h
  unfold trailingComps
  refine (env.sort_perm _ _).trans (List.Perm.trans ?_ (env.sort_perm _ _).symm)
  cases next <;> dsimp only at h ⊢
  case stateDir | stateDirMatched =>
    obtain ⟨es, hes, rfl⟩ := (walks_visits ent).1 _ _ h
    rw [compName_foldl, List.nil_append, compDir, compDirLoop_eq, candidates_eq, ← dirCandidates_eq]
    exact hes.flatMap_right _
  case stateKeyMatched =>
    obtain ⟨es, hes, rfl⟩ := h.visits fun c _ => (walks_visits c).2
    rw [compName_foldl, List.nil_append, compKeyMatched, compDirLoop_eq, candidates_eq]
    exact hes.flatMap_right _
  case stateKey | stateLeafMatched => rw [h]
  all_goals exact compsLeaf_perm h

/-- The order of the lists is one of the orders. -/
theorem compsTrailing_trailingComps (ent : Entry) (next : ParseState) (index : ℕ) :
    CompsTrailing env ent next index (trailingComps env ent next index) := by
  unfold trailingComps
  refine ⟨_, rfl, ?_⟩
  have hleaf : CompsLeaf ent (compLeaf ent) := by
    rw [CompsLeaf]
    split
    · rename_i hk
      obtain ⟨t, ht, hk⟩ := Option.map_eq_some_iff.mp hk
      simp only [compLeaf, ht, hk, Option.map_some, Option.getD_some]
      rw [← foldl_comps]
      refine .foldl ?_ []
      intro name _ comps
      rfl
    · rfl
  cases next <;> dsimp only
  case stateDir | stateDirMatched =>
    have hw := (@walks_foldl _ compName ent).1 []
    rwa [compName_foldl, List.nil_append, dirCandidates_eq, ← candidates_eq, ← compDirLoop_eq] at hw
  case stateKeyMatched =>
    have hl : compKeyMatched ent =
        ent.notKeys.foldl (fun s e => e.members.foldl (fun s e => compName e s) s) [] := by
      rw [← List.foldl_flatMap, compName_foldl, List.nil_append, ← candidates_eq, ← compDirLoop_eq]
      rfl
    rw [hl]
    exact .foldl (fun c _ => (walks_foldl c).2) []
  all_goals exact hleaf

end

/-! ## Parse -/

/-- What `Parse` calls itself with. -/
structure Turn where
  ent : Entry
  tree : Config
  config : Option Loc
  state : YMatchState

/-- `Parse` from the match `t` of the token on, up to its call of itself. `trailing` are the
completions after the last token. -/
def parseTurn (env : Env) (str : String) (last : Bool) (ent : Entry) (root : Config)
    (config : Option Loc) (s₀ : YMatchState) (t : MatchTally)
    (trailing : Entry → ParseState → ℕ → List Comp) : Option (ParseResult ⊕ Turn) := do
  let s : YMatchState := { s₀ with toMatchTally := { t with comps := env.sort compLess t.comps } }
  -- Set completion: the tree's own completions, and its cursor.
  let cs : YMatchState :=
    match config with
    | some loc => if s.complete then matchConfigAt root loc str { complete := true } else {}
    | none => {}
  let s := if s.complete then { s with comps := addComps s.comps cs.comps } else s
  let config :=
    if s.complete then if cs.count = 1 ∧ cs.best = .typeExact then cs.config else none
    else config
  if s.count = 0 then return .inl { code := .parseNoMatch, comps := s.comps, tree := root }
  if 1 < s.count then return .inl { code := .parseAmbiguous, comps := s.comps, tree := root }
  let matched ← s.entry
  let next := nextState ent matched s.state s.index
  let ent' := nextEnt ent matched s.state
  let index := nextIndex s.state next s.index
  -- Config set mode.
  let (root, config) :=
    match config with
    | some loc =>
      if s.complete then (root, some loc)
      else
        let (root, loc) := setConfig env root loc ent' matched s.state next str
        (root, some loc)
    | none => (root, none)
  let next := if next = .stateLeaf ∧ isEmptyLeaf matched then .stateLeafMatched else next
  let s := { s with state := next, index := index }
  if last then
    let comps :=
      if s.complete && s.trailing then
        match config with
        | some loc => addComps (trailing ent' next index) (compConfigAt root loc cs.index)
        | none => trailing ent' next index
      else s.comps
    match endCode s.best next with
    | .parseSuccess =>
      return .inl { code := .parseSuccess, callback := some .yangSet, comps := comps, tree := root }
    | code => return .inl { code := code, comps := comps, tree := root }
  else return .inr { ent := ent', tree := root, config := config, state := s }

/-- `Parse`, with every loop over a map in an order of its own; `none` when it panics. -/
def Parses (env : Env) : List String → Entry → Config → Option Loc → YMatchState →
    Option ParseResult → Prop
  | [], _, _, _, _, o => o = none
  | str :: cmds, ent, root, config, s, o =>
    ∃ m, MatchesState env ent s.state s.index str { complete := s.complete, entry := s.entry } m ∧
      match m with
      | none => o = none
      | some t => ∃ trailing, (∀ ent next index, CompsTrailing env ent next index (trailing ent next index)) ∧
        match parseTurn env str cmds.isEmpty ent root config s t trailing with
        | none => o = none
        | some (.inl r) => o = some r
        | some (.inr u) => Parses env cmds u.ent u.tree u.config u.state o

/-- The same code and tree, and the same completions up to their order. -/
structure ParseResult.Same (r r' : ParseResult) : Prop where
  code : r.code = r'.code
  callback : r.callback = r'.callback
  tree : r.tree = r'.tree
  comps : r.comps.Perm r'.comps

/-- The states from which the next token is matched in the same way. -/
structure YMatchState.Same (s s' : YMatchState) : Prop where
  complete : s.complete = s'.complete
  entry : s.entry = s'.entry
  state : s.state = s'.state
  index : s.index = s'.index
  trailing : s.trailing = s'.trailing

/-- The same schema entry, tree and place in it. -/
structure Turn.Same (u u' : Turn) : Prop where
  ent : u.ent = u'.ent
  tree : u.tree = u'.tree
  config : u.config = u'.config
  state : u.state.Same u'.state

section

variable {env : Env}

theorem addComps_cons (comps : List Comp) (c : Comp) (new : List Comp) : addComps comps (c :: new) =
    addComps (if comps.any fun d => d.name = c.name then comps else comps ++ [c]) new := rfl

theorem addComps_perm {comps comps' : List Comp} (h : comps.Perm comps') (new : List Comp) :
    (addComps comps new).Perm (addComps comps' new) := by
  induction new generalizing comps comps' with
  | nil => exact h
  | cons c new ih =>
    have hany : comps.any (fun d => d.name = c.name) = comps'.any fun d => d.name = c.name := by
      rw [Bool.eq_iff_iff, List.any_eq_true, List.any_eq_true]
      exact exists_congr fun d => and_congr_left fun _ => h.mem_iff
    rw [addComps_cons, addComps_cons, hany]
    split
    · exact ih h
    · exact ih (h.append_right [c])

/-- Both end with the same result, or go on in the same way. -/
def SameTurn : Option (ParseResult ⊕ Turn) → Option (ParseResult ⊕ Turn) → Prop :=
  Option.Rel (Sum.LiftRel ParseResult.Same Turn.Same)

theorem endCode_same {comps comps' : List Comp} (h : comps.Perm comps') (code : ParseCode)
    (tree : Config) :
    SameTurn
      (match code with
      | .parseSuccess => some (.inl { code := .parseSuccess, callback := some .yangSet, comps, tree })
      | code => some (.inl { code, comps, tree }))
      (match code with
      | .parseSuccess =>
        some (.inl { code := .parseSuccess, callback := some .yangSet, comps := comps', tree })
      | code => some (.inl { code, comps := comps', tree })) := by
  cases code <;> exact .some (.inl ⟨rfl, rfl, rfl, h⟩)

theorem parseTurn_same {str : String} {last : Bool} {ent : Entry} {root : Config}
    {config : Option Loc} {s s' : YMatchState} {t t' : MatchTally}
    {trailing trailing' : Entry → ParseState → ℕ → List Comp} (hs : s.Same s') (ht : t.Same t')
    (hc : t.complete = s.complete)
    (htr : ∀ ent next index, (trailing ent next index).Perm (trailing' ent next index)) :
    SameTurn (parseTurn env str last ent root config s t trailing)
      (parseTurn env str last ent root config s' t' trailing') := by
  obtain ⟨complete, best, count, entry, comps⟩ := t
  obtain ⟨_, _, _, entry', comps'⟩ := t'
  obtain ⟨rfl, rfl, rfl, hentry, hcomps⟩ := ht
  obtain ⟨⟨_, _, _, _, _⟩, state, trail, index, _, _⟩ := s
  obtain ⟨⟨_, _, _, _, _⟩, _, _, _, _, _⟩ := s'
  obtain ⟨rfl, rfl, rfl, rfl, rfl⟩ := hs
  obtain rfl := hc
  dsimp only at hentry hcomps
  have hsort : (env.sort compLess comps).Perm (env.sort compLess comps') :=
    ((env.sort_perm _ _).trans hcomps).trans (env.sort_perm _ _).symm
  unfold parseTurn
  cases complete with
  | false =>
    simp only [Bool.false_eq_true, if_false, Bool.false_and]
    by_cases h0 : count = 0
    · simp only [h0, if_true]
      exact .some (.inl ⟨rfl, rfl, rfl, hsort⟩)
    · simp only [h0, if_false]
      by_cases h1 : 1 < count
      · simp only [h1, if_true]
        exact .some (.inl ⟨rfl, rfl, rfl, hsort⟩)
      · simp only [h1, if_false]
        obtain rfl := hentry (by omega)
        cases entry with
        | none => exact .none
        | some matched =>
          cases last with
          | false => exact .some (.inr ⟨rfl, rfl, rfl, ⟨rfl, rfl, rfl, rfl, rfl⟩⟩)
          | true => exact endCode_same hsort _ _
  | true =>
    simp only [if_true]
    generalize (match config with
      | some loc => matchConfigAt root loc str { complete := true }
      | none => {} : YMatchState) = cs
    have hadd := addComps_perm hsort cs.comps
    by_cases h0 : count = 0
    · simp only [h0, if_true]
      exact .some (.inl ⟨rfl, rfl, rfl, hadd⟩)
    · simp only [h0, if_false]
      by_cases h1 : 1 < count
      · simp only [h1, if_true]
        exact .some (.inl ⟨rfl, rfl, rfl, hadd⟩)
      · simp only [h1, if_false]
        obtain rfl := hentry (by omega)
        cases entry with
        | none => exact .none
        | some matched =>
          cases last with
          | false => exact .some (.inr ⟨rfl, rfl, rfl, ⟨rfl, rfl, rfl, rfl, rfl⟩⟩)
          | true =>
            refine endCode_same ?_ _ _
            cases trail with
            | false => exact hadd
            | true =>
              simp only [Bool.and_self, if_true]
              generalize (if cs.count = 1 ∧ cs.best = .typeExact then cs.config else none) = config'
              cases config' with
              | none => exact htr _ _ _
              | some loc => exact addComps_perm (htr _ _ _) _

/-- `Parse` in its turns. -/
theorem parseFrom_turn (str : String) (cmds : List String) (ent : Entry) (root : Config)
    (config : Option Loc) (s : YMatchState) : parseFrom env (str :: cmds) ent root config s =
      match matchState env ent s.state s.index str { complete := s.complete, entry := s.entry } with
      | none => none
      | some t =>
        match parseTurn env str cmds.isEmpty ent root config s t (trailingComps env) with
        | none => none
        | some (.inl r) => some r
        | some (.inr u) => parseFrom env cmds u.ent u.tree u.config u.state := by
  rw [parseFrom.eq_def]
  dsimp only
  cases matchState env ent s.state s.index str { complete := s.complete, entry := s.entry } with
  | none => rfl
  | some t =>
    obtain ⟨⟨complete, _, _, _, _⟩, state, trail, index, _, _⟩ := s
    obtain ⟨complete', best, count, entry, comps⟩ := t
    rw [Option.bind_eq_bind, Option.bind_some]
    unfold parseTurn
    by_cases h0 : count = 0
    · cases complete' <;> simp only [h0, if_true, Bool.false_eq_true, if_false] <;> rfl
    · by_cases h1 : 1 < count
      · cases complete' <;> simp only [h0, h1, if_true, Bool.false_eq_true, if_false] <;> rfl
      · cases entry with
        | none => cases complete' <;> simp only [h0, h1, if_true, Bool.false_eq_true, if_false] <;> rfl
        | some matched =>
          cases cmds with
          | nil =>
            have hend (code : ParseCode) (comps : List Comp) (tree : Config) :
                (match code with
                | .parseSuccess => some { code := .parseSuccess, callback := some .yangSet, comps, tree }
                | code => some { code, comps, tree } : Option ParseResult) =
                match (match code with
                  | .parseSuccess =>
                    some (.inl { code := .parseSuccess, callback := some .yangSet, comps, tree })
                  | code => some (.inl { code, comps, tree }) : Option (ParseResult ⊕ Turn)) with
                | none => none
                | some (.inl r) => some r
                | some (.inr u) => parseFrom env [] u.ent u.tree u.config u.state := by
              cases code <;> rfl
            cases complete' <;> simp only [h0, h1, if_false, if_true, Bool.false_eq_true] <;> exact hend _ _ _
          | cons cmd cmds =>
            cases complete' <;> simp only [h0, h1, if_false, if_true, Bool.false_eq_true] <;> rfl

/-- What `Parse` returns with the maps in the order of the lists is one of the results. -/
theorem parse_runs (cmds : List String) (ent : Entry) (root : Config) (config : Option Loc)
    (s : YMatchState) : Parses env cmds ent root config s (parseFrom env cmds ent root config s) := by
  induction cmds generalizing ent root config s with
  | nil => rfl
  | cons str cmds ih =>
    rw [Parses, parseFrom_turn]
    refine ⟨_, matchesState_matchState ent s.state s.index _, ?_⟩
    cases matchState env ent s.state s.index str { complete := s.complete, entry := s.entry } with
    | none => rfl
    | some t =>
      refine ⟨trailingComps env, compsTrailing_trailingComps, ?_⟩
      dsimp only
      split
      · rfl
      · rfl
      · exact ih _ _ _ _

theorem matchesState_complete {ent : Entry} {state : ParseState} {index : ℕ} {str : String}
    {complete : Bool} {entry : Option Entry} {t : MatchTally}
    (h : MatchesState env ent state index str { complete, entry } (some t)) : t.complete = complete := by
  obtain ⟨l, -, ht⟩ := matchesState_tallies h
  cases l with
  | none => cases ht
  | some l =>
    obtain rfl := Option.some.inj ht
    exact (tallyAll_best l str complete entry).1

theorem parses_same {cmds : List String} {ent : Entry} {root : Config} {config : Option Loc}
    {s s' : YMatchState} {o o' : Option ParseResult} (hs : s.Same s')
    (h : Parses env cmds ent root config s o) (h' : Parses env cmds ent root config s' o') :
    Option.Rel ParseResult.Same o o' := by
  induction cmds generalizing ent root config s s' with
  | nil =>
    obtain rfl : o = none := h
    obtain rfl : o' = none := h'
    exact .none
  | cons str cmds ih =>
    rw [Parses] at h h'
    obtain ⟨m, hm, h⟩ := h
    obtain ⟨m', hm', h'⟩ := h'
    rw [← hs.state, ← hs.index, ← hs.complete, ← hs.entry] at hm'
    cases matchesState_same hm hm' with
    | none =>
      obtain rfl : o = none := h
      obtain rfl : o' = none := h'
      exact .none
    | @some t t' ht =>
      obtain ⟨trailing, htr, h⟩ := h
      obtain ⟨trailing', htr', h'⟩ := h'
      have hsame : SameTurn (parseTurn env str cmds.isEmpty ent root config s t trailing)
          (parseTurn env str cmds.isEmpty ent root config s' t' trailing') :=
        parseTurn_same hs ht (matchesState_complete hm) fun ent next index =>
          (compsTrailing_perm (htr ent next index)).trans (compsTrailing_perm (htr' ent next index)).symm
      generalize parseTurn env str cmds.isEmpty ent root config s t trailing = u at h hsame
      generalize parseTurn env str cmds.isEmpty ent root config s' t' trailing' = u' at h' hsame
      cases hsame with
      | none =>
        obtain rfl : o = none := h
        obtain rfl : o' = none := h'
        exact .none
      | some hu =>
        cases hu with
        | inl hr =>
          obtain rfl : o = _ := h
          obtain rfl : o' = _ := h'
          exact .some hr
        | @inr u u' hu =>
          have h : Parses env cmds u.ent u.tree u.config u.state o := h
          have h' : Parses env cmds u'.ent u'.tree u'.config u'.state o' := h'
          rw [← hu.ent, ← hu.tree, ← hu.config] at h'
          exact ih hu.state h h'

/-- Two runs of `Parse` that range over the maps in different orders match each token in the same
way, and return the same code, the same completions and the same tree. -/
theorem parse_map_order (env : Env) (ent : Entry) :
    (∀ (state : ParseState) (index : ℕ) (str : String) (complete : Bool) (entry : Option Entry)
      (o o' : Option MatchTally), MatchesState env ent state index str { complete, entry } o →
      MatchesState env ent state index str { complete, entry } o' → Option.Rel MatchTally.Same o o') ∧
    ∀ (root : Config) (config : Option Loc) (cmds : List String) (s : YMatchState)
      (o o' : Option ParseResult), Parses env cmds ent root config s o →
      Parses env cmds ent root config s o' → Option.Rel ParseResult.Same o o' :=
  ⟨fun _ _ _ _ _ _ _ h h' => matchesState_same h h',
    fun _ _ _ _ _ _ h h' => parses_same ⟨rfl, rfl, rfl, rfl, rfl⟩ h h'⟩

end

/-- Two containers, one of which has the name that the other begins with. -/
def ipSchema : Entry :=
  { name := "", kind := .directory,
    dir := [{ name := "ip", kind := .directory }, { name := "ipv6", kind := .directory }] }

/-- The token is matched and parsed with the names in both orders. -/
theorem parse_map_order_two : ∃ (t t' : MatchTally) (r r' : ParseResult), t.comps ≠ t'.comps ∧ t.Same t' ∧
    MatchesState .ascii ipSchema .stateDir 0 "ip" { complete := true } (some t) ∧
    MatchesState .ascii ipSchema .stateDir 0 "ip" { complete := true } (some t') ∧
    parseTurn .ascii "ip" true ipSchema {} none { complete := true } t (trailingComps .ascii) = some (.inl r) ∧
    parseTurn .ascii "ip" true ipSchema {} none { complete := true } t' (trailingComps .ascii) = some (.inl r') ∧
    Parses .ascii ["ip"] ipSchema {} none { complete := true } (some r) ∧
    Parses .ascii ["ip"] ipSchema {} none { complete := true } (some r') ∧ r.Same r' := by
  let ip : Entry := { name := "ip", kind := .directory }
  let ip6 : Entry := { name := "ipv6", kind := .directory }
  have hfirst : WalksDir (matchName "ip") ipSchema { complete := true }
      (matchName "ip" ip6 (matchName "ip" ip { complete := true })) :=
    .range (.next (.refl _) (.entry rfl) (.next (.refl _) (.entry rfl) (.done _)))
  have hsecond : WalksDir (matchName "ip") ipSchema { complete := true }
      (matchName "ip" ip (matchName "ip" ip6 { complete := true })) :=
    .range (.next (.swap ip6 ip []) (.entry rfl) (.next (.refl _) (.entry rfl) (.done _)))
  -- The token ends `Parse` once it names one entry.
  have hturn {t : MatchTally} (hcomplete : t.complete = true) (hcount : t.count = 1) (he : t.entry = some ip) :
      ∃ r, parseTurn .ascii "ip" true ipSchema {} none { complete := true } t (trailingComps .ascii) =
        some (.inl r) := by
    obtain ⟨complete, best, count, entry, comps⟩ := t
    dsimp only at hcomplete hcount he
    subst hcomplete hcount he
    cases best <;> exact ⟨_, rfl⟩
  have hexact : matchKeyword "ip" ip.name = .typeExact := by decide
  have hpartial : matchKeyword "ip" ip6.name = .typePartial := by decide
  obtain ⟨r, hr⟩ := hturn (t := matchName "ip" ip6 (matchName "ip" ip { complete := true })) (by decide)
    (by decide) (by rw [matchName, matchName, matchWord, matchWord, hexact, hpartial]; rfl)
  obtain ⟨r', hr'⟩ := hturn (t := matchName "ip" ip (matchName "ip" ip6 { complete := true })) (by decide)
    (by decide) (by rw [matchName, matchName, matchWord, matchWord, hexact, hpartial]; rfl)
  -- A run of `Parse` for each of the orders.
  have hrun {t : MatchTally} {r : ParseResult} (ht : WalksDir (matchName "ip") ipSchema { complete := true } t)
      (hr : parseTurn .ascii "ip" true ipSchema {} none { complete := true } t (trailingComps .ascii) =
        some (.inl r)) :
      Parses .ascii ["ip"] ipSchema {} none { complete := true } (some r) := by
    refine ⟨some t, ⟨_, rfl, ht⟩, trailingComps .ascii, compsTrailing_trailingComps, ?_⟩
    rw [List.isEmpty_nil, hr]
  obtain ⟨hm, hp⟩ := parse_map_order .ascii ipSchema
  refine ⟨_, _, r, r', ?_, ?_, ⟨_, rfl, hfirst⟩, ⟨_, rfl, hsecond⟩, hr, hr', hrun hfirst hr, hrun hsecond hr', ?_⟩
  · decide
  · cases hm .stateDir 0 "ip" true none _ _ ⟨_, rfl, hfirst⟩ ⟨_, rfl, hsecond⟩ with
    | some h => exact h
  · cases hp {} none ["ip"] { complete := true } _ _ (hrun hfirst hr) (hrun hsecond hr') with
    | some h => exact h

end OpenConfigd
