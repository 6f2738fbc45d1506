import OpenConfigd.Lib.Best
import OpenConfigd.Yang.Match

/-!
# What the matcher picks

Every `Match*` function runs `matchEntry` over a list of alternatives
(`matchDir_eq`, `matchLeaf_eq`), and panics if it panics on one of them
(`foldlM_matchEntry`). Over such a list the tally ends with the best
match, the number of alternatives that reach it and the first of them
(`tallyAll_spec`). A keyword that one alternative matches alone, in full or
abbreviated, is matched by that alternative alone when it is spelled out
(`keyword_unique`).
-/

namespace OpenConfigd

/-- An alternative for a token: what to match against, for which entry. -/
abbrev Alternative := MatchAgainst × Entry

/-- The match of one alternative. -/
abbrev altMatch (env : Env) (str : String) (x : Alternative) : MatchType :=
  (matchAgainst env x.1 x.2 str).getD .typeNone

/-- The tally over a list of alternatives. -/
def tallyAll (env : Env) (alts : List Alternative) (str : String) (s : MatchTally) : MatchTally :=
  alts.foldl (fun s x => s.add (altMatch env str x) x.2 (matchComp x.1 x.2)) s

/-- `matchEntry` panics on none of the alternatives. -/
def Returns (env : Env) (str : String) (alts : List Alternative) : Prop :=
  ∀ x ∈ alts, (matchAgainst env x.1 x.2 str).isSome

instance (env : Env) (str : String) (alts : List Alternative) : Decidable (Returns env str alts) :=
  List.decidableBAll _ _

/-! ## The alternatives of an entry -/

mutual

/-- The entries `MatchDir` offers: those of the directory, and those of the cases
of its choices. -/
def candidates : List Entry → List Entry
  | [] => []
  | e :: es => (if e.isChoice then choiceCandidates e else [e]) ++ candidates es

/-- The entries of a choice. -/
def choiceCandidates : Entry → List Entry
  | ⟨_, dir⟩ => caseCandidates dir

/-- The entries of the cases of a choice. -/
def caseCandidates : List Entry → List Entry
  | [] => []
  | e :: es => dirCandidates e ++ caseCandidates es

/-- The entries of a case. -/
def dirCandidates : Entry → List Entry
  | ⟨_, dir⟩ => candidates dir

end

/-- Matching each candidate by its name. -/
def keywords (es : List Entry) : List Alternative := es.map fun e => (.keyword e.name, e)

/-- The alternatives of `MatchType`. -/
def typeAlternatives (e : Entry) (typ : YangType) : List Alternative :=
  match typ.kind with
  | .int8 | .int16 | .int32 | .int64 | .uint8 | .uint16 | .uint32 | .uint64 => [(.number, e)]
  | .string => [(.string typ, e)]
  | .bool => [(.keyword "true", e), (.keyword "false", e)]
  | .enum => typ.enumNames.map fun name => (.keyword name, e)
  | _ => []

/-- The alternatives of `matchLeafType`. -/
def leafTypeAlternatives (e : Entry) : Option (List Alternative) :=
  e.type.map fun t =>
    if t.kind = .union then t.types.flatMap (typeAlternatives e) else typeAlternatives e t

/-- The leaf with the type of the leaf: itself, or the target of a leafref. -/
def Entry.target (env : Env) (e : Entry) : Option Entry :=
  match e.type with
  | none => none
  | some t => if t.kind = .leafref then env.find e t.path else some e

/-- The types that a token for the leaf is matched against. -/
def Entry.matchedTypes (e : Entry) : List YangType :=
  match e.type with
  | none => []
  | some t => if t.kind = .union then t.types else [t]

/-- The alternatives of `MatchLeaf`. -/
def leafAlternatives (env : Env) (e : Entry) : Option (List Alternative) :=
  match e.type with
  | none => some []
  | some t =>
    if t.kind = .leafref then
      match env.find e t.path with
      | none => some []
      | some target => leafTypeAlternatives target
    else leafTypeAlternatives e

/-- The alternatives of `MatchLeaf` for a token; `none` when it panics. -/
def leafMatches (env : Env) (e : Entry) (str : String) : Option (List Alternative) :=
  (leafAlternatives env e).filter fun l => Returns env str l

/-- A token for a leaf with the type of `e` is no number where an integer is expected, or one that
`MatchNumber` compares without a panic. -/
def Entry.compares (env : Env) (e : Entry) (str : String) : Bool :=
  e.matchedTypes.all (fun t => !t.kind.isInteger) ||
    (env.parseNumber str).all fun num => num.compares ((e.type.map (·.range)).getD [])

section

variable {env : Env}

theorem leafAlternatives_target {e : Entry} {l : List Alternative} {y : Alternative}
    (hl : leafAlternatives env e = some l) (hy : y ∈ l) :
    ∃ x, e.target env = some x ∧ leafTypeAlternatives x = some l := by
  rw [leafAlternatives] at hl
  rw [Entry.target]
  cases ht : e.type with
  | none =>
    rw [ht] at hl
    cases hl
    cases hy
  | some t =>
    simp only [ht] at hl ⊢
    split at hl
    · next hk =>
      cases hf : env.find e t.path with
      | none =>
        rw [hf] at hl
        cases hl
        cases hy
      | some x =>
        rw [hf] at hl
        exact ⟨x, if_pos hk, hl⟩
    · next hk => exact ⟨e, if_neg hk, hl⟩

theorem leafMatches_eq_some {e : Entry} {str : String} {l : List Alternative} :
    leafMatches env e str = some l ↔ leafAlternatives env e = some l ∧ Returns env str l := by
  rw [leafMatches, Option.filter_eq_some_iff, decide_eq_true_iff]

theorem returns_typeAlternatives {e : Entry} {t : YangType} {str : String} :
    Returns env str (typeAlternatives e t) ↔
      (t.kind.isInteger = true → (matchNumber env str e).isSome = true) := by
  rw [typeAlternatives]
  cases hk : t.kind <;> simp [Returns, matchAgainst, TypeKind.isInteger]

theorem leafTypeAlternatives_returns {e : Entry} {l : List Alternative} {str : String}
    (hl : leafTypeAlternatives e = some l) : Returns env str l ↔ e.compares env str = true := by
  have hnum : (matchNumber env str e).isSome = true ↔
      (env.parseNumber str).all (fun num => num.compares ((e.type.map (·.range)).getD [])) = true := by
    rw [matchNumber]
    cases env.parseNumber str with
    | none => simp
    | some num => simp [Number.within_isSome]
  obtain ⟨t, ht, rfl⟩ := Option.map_eq_some_iff.mp hl
  have htypes : Returns env str
      (if t.kind = .union then t.types.flatMap (typeAlternatives e) else typeAlternatives e t) ↔
        ∀ t ∈ e.matchedTypes, Returns env str (typeAlternatives e t) := by
    rw [Entry.matchedTypes, ht]
    simp only
    split
    · simp only [Returns, List.mem_flatMap]
      exact ⟨fun h t ht y hy => h y ⟨t, ht, hy⟩, fun h y ⟨t, ht, hy⟩ => h t ht y hy⟩
    · simp
  simp only [htypes, returns_typeAlternatives, hnum, Entry.compares, Bool.or_eq_true, List.all_eq_true,
    Bool.not_eq_true']
  by_cases h : ∃ t ∈ e.matchedTypes, t.kind.isInteger = true
  · obtain ⟨t, ht, hi⟩ := h
    exact ⟨fun h => .inr (h t ht hi), fun h t' ht' hi' => h.resolve_left fun h => by
      rw [h t ht] at hi
      cases hi⟩
  · simp only [not_exists, not_and, Bool.not_eq_true] at h
    exact ⟨fun _ => .inl h, fun _ t ht hi => by
      rw [h t ht] at hi
      cases hi⟩

theorem tallyAll_append (l l' : List Alternative) (str : String) (s : MatchTally) :
    tallyAll env (l ++ l') str s = tallyAll env l' str (tallyAll env l str s) :=
  List.foldl_append

theorem keywords_append (l l' : List Entry) : keywords (l ++ l') = keywords l ++ keywords l' :=
  List.map_append

mutual

theorem matchDir_eq (str : String) : ∀ (e : Entry) (s : MatchTally),
    matchDir str e s = tallyAll env (keywords (dirCandidates e)) str s
  | ⟨_, dir⟩, s => by
    rw [matchDir, dirCandidates]
    exact matchDirLoop_eq str dir s

theorem matchDirLoop_eq (str : String) : ∀ (es : List Entry) (s : MatchTally),
    matchDirLoop str es s = tallyAll env (keywords (candidates es)) str s
  | [], _ => rfl
  | e :: es, s => by
    rw [matchDirLoop, matchDirLoop_eq str es, candidates, keywords_append, tallyAll_append]
    congr 1
    split
    · exact matchChoice_eq str e s
    · rfl

theorem matchChoice_eq (str : String) : ∀ (e : Entry) (s : MatchTally),
    matchChoice str e s = tallyAll env (keywords (choiceCandidates e)) str s
  | ⟨_, dir⟩, s => by
    rw [matchChoice, choiceCandidates]
    exact matchChoiceLoop_eq str dir s

theorem matchChoiceLoop_eq (str : String) : ∀ (es : List Entry) (s : MatchTally),
    matchChoiceLoop str es s = tallyAll env (keywords (caseCandidates es)) str s
  | [], _ => rfl
  | e :: es, s => by
    rw [matchChoiceLoop, matchChoiceLoop_eq str es, caseCandidates, keywords_append,
      tallyAll_append, matchDir_eq str e]

end

theorem returns_cons {str : String} {x : Alternative} {l : List Alternative} :
    Returns env str (x :: l) ↔ (matchAgainst env x.1 x.2 str).isSome ∧ Returns env str l :=
  List.forall_mem_cons

/-- `matchEntry` over a list of alternatives. -/
theorem foldlM_matchEntry (l : List Alternative) (str : String) (s : MatchTally) :
    l.foldlM (fun s x => matchEntry env x.1 x.2 str s) s =
      if Returns env str l then some (tallyAll env l str s) else none := by
  induction l generalizing s with
  | nil => rfl
  | cons x l ih =>
    rw [List.foldlM_cons, matchEntry, tallyAll, List.foldl_cons, ← tallyAll]
    simp only [returns_cons]
    cases hm : matchAgainst env x.1 x.2 str with
    | none => simp
    | some m => simpa [altMatch, hm] using ih _

theorem foldlM_matchWord (names : List String) (e : Entry) (str : String) (s : MatchTally) :
    (names.map fun name => ((.keyword name, e) : Alternative)).foldlM
        (fun s x => matchEntry env x.1 x.2 str s) s =
      some (names.foldl (fun s name => matchWord name e str s) s) := by
  induction names generalizing s with
  | nil => rfl
  | cons name names ih => exact ih _

theorem matchType_eq (e : Entry) (typ : YangType) (str : String) (s : MatchTally) :
    matchType env e typ str s =
      (typeAlternatives e typ).foldlM (fun s x => matchEntry env x.1 x.2 str s) s := by
  cases h : typ.kind <;> simp only [matchType, typeAlternatives, h]
  case enum => rw [foldlM_matchWord]
  case bool => exact (foldlM_matchWord ["true", "false"] e str s).symm
  case int8 | int16 | int32 | int64 | uint8 | uint16 | uint32 | uint64 | string =>
    simp only [List.foldlM_cons, List.foldlM_nil, bind_pure]
  all_goals rfl

theorem matchLeafType_eq (e : Entry) (str : String) (s : MatchTally) :
    matchLeafType env e str s = (leafTypeAlternatives e).bind fun l =>
      l.foldlM (fun s x => matchEntry env x.1 x.2 str s) s := by
  rw [matchLeafType, leafTypeAlternatives]
  cases e.type with
  | none => rfl
  | some t =>
    rw [Option.bind_eq_bind, Option.bind_some, Option.map_some, Option.bind_some]
    split
    · simp only [matchType_eq]
      induction t.types generalizing s with
      | nil => rfl
      | cons typ types ih => simp only [List.foldlM_cons, List.flatMap_cons, List.foldlM_append, ih]
    · exact matchType_eq e t str s

theorem matchLeaf_eq (e : Entry) (str : String) (s : MatchTally) :
    matchLeaf env e str s = (leafMatches env e str).map fun l => tallyAll env l str s := by
  have htype (o : Option (List Alternative)) :
      (o.bind fun l => l.foldlM (fun s x => matchEntry env x.1 x.2 str s) s) =
        (o.filter fun l => Returns env str l).map fun l => tallyAll env l str s := by
    cases o with
    | none => rfl
    | some l =>
      rw [Option.bind_some, foldlM_matchEntry, Option.filter_some]
      by_cases h : Returns env str l
      · simp [h]
      · simp [h]
  rw [leafMatches, leafAlternatives, matchLeaf]
  cases e.type with
  | none => rfl
  | some t =>
    dsimp only
    split
    · cases env.find e t.path with
      | none => rfl
      | some target => exact (matchLeafType_eq target str s).trans (htype _)
    · exact (matchLeafType_eq e str s).trans (htype _)

/-! ## The tally -/

theorem MatchType.rank_inj {m m' : MatchType} (h : m.rank = m'.rank) : m = m' := by
  cases m <;> cases m' <;> simp [MatchType.rank] at h <;> rfl

/-- What a tally over a list of alternatives has counted, outside completion. -/
structure TallySpec (env : Env) (l : List Alternative) (str : String) (r : MatchTally) : Prop where
  complete : r.complete = false
  comps : r.comps = []
  bound : ∀ x ∈ l, (altMatch env str x).rank ≤ r.best.rank
  reached : r.best ≠ .typeNone → ∃ x ∈ l, altMatch env str x = r.best
  count : r.count = if r.best = .typeNone then 0 else l.countP fun x => altMatch env str x = r.best
  entry : r.best ≠ .typeNone →
    r.entry = (l.find? fun x => altMatch env str x = r.best).map (·.2)

/-- The rank of a match, for the best of a list. -/
abbrev altRank (env : Env) (str : String) (x : Alternative) : ℕ := (altMatch env str x).rank

theorem MatchType.rank_eq_zero {m : MatchType} : m.rank = 0 ↔ m = .typeNone := by
  cases m <;> simp [rank]

/-- A tally is the best of the list, with the completions of all that match. -/
theorem tallyAll_best (l : List Alternative) (str : String) (complete : Bool)
    (entry : Option Entry) :
    (tallyAll env l str { complete, entry }).complete = complete ∧
    (tallyAll env l str { complete, entry }).comps = (if complete then
      (l.filter fun x => altMatch env str x ≠ .typeNone).map fun x => matchComp x.1 x.2 else []) ∧
    (tallyAll env l str { complete, entry }).best.rank = (Best.ofList (altRank env str) l).rank ∧
    (tallyAll env l str { complete, entry }).count = (Best.ofList (altRank env str) l).count ∧
    (tallyAll env l str { complete, entry }).entry =
      ((Best.ofList (altRank env str) l).first.map (·.2)).or entry := by
  induction l using List.reverseRecOn with
  | nil => cases complete <;> exact ⟨rfl, rfl, rfl, rfl, rfl⟩
  | append_singleton l x ih =>
    rw [tallyAll_append, Best.ofList_snoc, Best.add]
    generalize tallyAll env l str { complete, entry } = r at ih
    generalize Best.ofList (altRank env str) l = b at ih
    obtain ⟨hcomplete, hcomps, hrank, hcount, hentry⟩ := ih
    have hstep : tallyAll env [x] str r =
        let comps := if r.complete then r.comps ++ [matchComp x.1 x.2] else r.comps
        if altMatch env str x = .typeNone then r
        else if r.best.rank < altRank env str x then
          { r with best := altMatch env str x, entry := some x.2, count := 1, comps }
        else if altMatch env str x = r.best then { r with count := r.count + 1, comps }
        else { r with comps } := by
      rw [tallyAll, List.foldl_cons, List.foldl_nil, MatchTally.add]
      obtain ⟨_ | _, _, _, _, _⟩ := r <;> rfl
    have hsame : altMatch env str x = r.best ↔ altRank env str x = b.rank :=
      ⟨fun h => by rw [← hrank, ← h], fun h => MatchType.rank_inj (h.trans hrank.symm)⟩
    have hadd (h : altMatch env str x ≠ .typeNone) :
        (if r.complete then r.comps ++ [matchComp x.1 x.2] else r.comps) = if complete then
          ((l ++ [x]).filter fun x => altMatch env str x ≠ .typeNone).map
            fun x => matchComp x.1 x.2 else [] := by
      rw [hcomplete, hcomps]
      cases complete <;> simp [h]
    rw [hstep]
    by_cases h0 : altMatch env str x = .typeNone
    · rw [if_pos h0, if_pos (show altRank env str x = 0 from MatchType.rank_eq_zero.mpr h0)]
      refine ⟨hcomplete, ?_, hrank, hcount, hentry⟩
      rw [hcomps]
      simp [h0]
    · rw [if_neg h0, if_neg (show ¬ altRank env str x = 0 from mt MatchType.rank_eq_zero.mp h0),
        hrank, hadd h0]
      by_cases hlt : b.rank < altRank env str x
      · rw [if_pos hlt, if_pos hlt]
        exact ⟨hcomplete, rfl, rfl, rfl, rfl⟩
      · rw [if_neg hlt, if_neg hlt]
        by_cases he : altMatch env str x = r.best
        · rw [if_pos he, if_pos (hsame.mp he)]
          exact ⟨hcomplete, rfl, hrank, congrArg (· + 1) hcount, hentry⟩
        · rw [if_neg he, if_neg (mt hsame.mpr he)]
          exact ⟨hcomplete, rfl, hrank, hcount, hentry⟩

/-- `entry` may be left over from an earlier token: it is overwritten by the first match. -/
theorem tallyAll_spec (l : List Alternative) (str : String) (entry : Option Entry) :
    TallySpec env l str (tallyAll env l str { entry }) := by
  obtain ⟨hcomplete, hcomps, hrank, hcount, hentry⟩ := @tallyAll_best env l str false entry
  generalize tallyAll env l str { entry } = r at *
  have hbest (h : r.best ≠ .typeNone) : (Best.ofList (altRank env str) l).rank ≠ 0 := by
    rw [← hrank]
    exact fun h0 => h (MatchType.rank_eq_zero.mp h0)
  have hiff (x : Alternative) : altRank env str x = (Best.ofList (altRank env str) l).rank ↔
      altMatch env str x = r.best :=
    ⟨fun h => MatchType.rank_inj (h.trans hrank.symm), fun h => by rw [← hrank, ← h]⟩
  refine ⟨hcomplete, hcomps, fun x hx => ?_, fun h => ?_, ?_, fun h => ?_⟩
  · rw [hrank]
    exact @Best.rank_le_ofList _ (altRank env str) l x hx
  · obtain ⟨x, hx, he⟩ := Best.exists_ofList (hbest h)
    exact ⟨x, hx, (hiff x).mp he⟩
  · have hzero : (Best.ofList (altRank env str) l).rank = 0 ↔ r.best = .typeNone := by
      rw [← hrank, MatchType.rank_eq_zero]
    rw [hcount, Best.ofList_count]
    simp only [hzero, hiff]
  · have hsome := Best.exists_ofList (hbest h)
    rw [hentry, Best.ofList_first, if_neg (hbest h)]
    simp only [hiff] at hsome ⊢
    obtain ⟨y, hy⟩ : ∃ y, l.find? (fun x => altMatch env str x = r.best) = some y :=
      Option.isSome_iff_exists.mp (by simpa [List.find?_isSome] using hsome)
    rw [hy]
    rfl

/-- One alternative, for the entry `e`, matches the token better than all the others. -/
def Picks (env : Env) (l : List Alternative) (str : String) (e : Entry) (m : MatchType) : Prop :=
  m ≠ .typeNone ∧ ∃ l₁ x l₂, l = l₁ ++ x :: l₂ ∧ x.2 = e ∧ altMatch env str x = m ∧
    ∀ y ∈ l₁ ++ l₂, (altMatch env str y).rank < m.rank

theorem Picks.mem {l : List Alternative} {str : String} {e : Entry} {m : MatchType}
    (h : Picks env l str e m) : ∃ x ∈ l, x.2 = e ∧ altMatch env str x = m := by
  obtain ⟨_, l₁, x, l₂, rfl, he, hm, _⟩ := h
  exact ⟨x, by simp, he, hm⟩

theorem picks_iff {l : List Alternative} {str : String} {e : Entry} {m : MatchType} :
    Picks env l str e m ↔
      ∃ x, Best.Leads (altRank env str) l x ∧ x.2 = e ∧ altMatch env str x = m := by
  constructor
  · rintro ⟨hm, l₁, x, l₂, hl, he, rfl, hlt⟩
    exact ⟨x, ⟨Nat.pos_of_ne_zero (mt MatchType.rank_eq_zero.mp hm), l₁, l₂, hl, hlt⟩, he, rfl⟩
  · rintro ⟨x, ⟨hpos, l₁, l₂, hl, hlt⟩, he, rfl⟩
    exact ⟨fun h => hpos.ne' (MatchType.rank_eq_zero.mpr h), l₁, x, l₂, hl, he, rfl, hlt⟩

theorem TallySpec.eq_best {l : List Alternative} {str : String} {r : MatchTally}
    (h : TallySpec env l str r) : r.best.rank = (Best.ofList (altRank env str) l).rank ∧
      r.count = (Best.ofList (altRank env str) l).count ∧
      (r.best ≠ .typeNone → r.entry = (Best.ofList (altRank env str) l).first.map (·.2)) := by
  have hrank : r.best.rank = (Best.ofList (altRank env str) l).rank := by
    refine Nat.le_antisymm ?_ ?_
    · by_cases hb : r.best = .typeNone
      · rw [hb]
        exact Nat.zero_le _
      · obtain ⟨x, hx, he⟩ := h.reached hb
        rw [← he]
        exact @Best.rank_le_ofList _ (altRank env str) l x hx
    · by_cases hb : (Best.ofList (altRank env str) l).rank = 0
      · rw [hb]
        exact Nat.zero_le _
      · obtain ⟨x, hx, he⟩ := Best.exists_ofList hb
        rw [← he]
        exact h.bound x hx
  have hiff (x : Alternative) : altRank env str x = (Best.ofList (altRank env str) l).rank ↔
      altMatch env str x = r.best :=
    ⟨fun he => MatchType.rank_inj (he.trans hrank.symm), fun he => by rw [← hrank, ← he]⟩
  have hzero : (Best.ofList (altRank env str) l).rank = 0 ↔ r.best = .typeNone := by
    rw [← hrank, MatchType.rank_eq_zero]
  refine ⟨hrank, ?_, fun hb => ?_⟩
  · rw [h.count, Best.ofList_count]
    simp only [hzero, hiff]
  · rw [h.entry hb, Best.ofList_first, if_neg (mt hzero.mp hb)]
    simp only [hiff]

theorem TallySpec.picks {l : List Alternative} {str : String} {r : MatchTally}
    (h : TallySpec env l str r) (hc : r.count = 1) :
    ∃ e, r.entry = some e ∧ Picks env l str e r.best := by
  obtain ⟨hrank, hcount, hentry⟩ := h.eq_best
  have hb : r.best ≠ .typeNone := by
    intro hb
    rw [h.count, if_pos hb] at hc
    cases hc
  obtain ⟨x, hx, hf⟩ := Best.ofList_count_one (hcount.symm.trans hc)
  refine ⟨x.2, by rw [hentry hb, hf]; rfl, picks_iff.mpr ⟨x, hx, rfl, ?_⟩⟩
  exact MatchType.rank_inj (hx.ofList.1.symm.trans hrank.symm)

theorem Picks.tally {l : List Alternative} {str : String} {r : MatchTally}
    (h : TallySpec env l str r) {e : Entry} {m : MatchType} (hp : Picks env l str e m) :
    r.count = 1 ∧ r.entry = some e ∧ r.best = m := by
  obtain ⟨hrank, hcount, hentry⟩ := h.eq_best
  obtain ⟨x, hx, rfl, rfl⟩ := picks_iff.mp hp
  obtain ⟨hr, hc, hf⟩ := hx.ofList
  have hbest : r.best = altMatch env str x := MatchType.rank_inj (hrank.trans hr)
  refine ⟨hcount.trans hc, ?_, hbest⟩
  rw [hentry (hbest ▸ hp.1), hf]
  rfl

/-! ## Keywords -/

theorem longestCommon_self (l : List Char) : longestCommon l l = l.length := by
  induction l with
  | nil => rfl
  | cons a l ih => simp [longestCommon, ih]

theorem longestCommon_eq : ∀ {l l' : List Char}, l.length ≤ longestCommon l l' →
    l'.length ≤ longestCommon l l' → l = l'
  | [], [], _, _ => rfl
  | [], _ :: _, _, h => by simp [longestCommon] at h
  | _ :: _, [], h, _ => by simp [longestCommon] at h
  | a :: l, b :: l', h, h' => by
    rw [longestCommon] at h h'
    split at h
    · rename_i hab
      rw [if_pos hab] at h'
      have hl : l = l' := longestCommon_eq (by simpa using h) (by simpa using h')
      rw [hab, hl]
    · simp at h

/-- A name of the schema, or of the tree, that ends where a keyword ends. -/
def OneWord (s : String) : Prop := ∀ c ∈ s.toList, isWhiteSpaceChar c = false

instance (s : String) : Decidable (OneWord s) :=
  decidable_of_iff (s.toList.all (fun c => !isWhiteSpaceChar c) = true) (by simp [OneWord])

theorem OneWord.length_le {s : String} (h : OneWord s) {i : Nat}
    (hd : isDelimiter s.toList i = true) : s.toList.length ≤ i := by
  rw [isDelimiter] at hd
  split at hd
  · rename_i hn
    exact List.getElem?_eq_none_iff.mp hn
  · rename_i c hc
    rw [h c (List.mem_of_getElem? hc)] at hd
    cases hd

theorem matchKeyword_self (s : String) : matchKeyword s s = .typeExact := by
  have h : isDelimiter s.toList (longestCommon s.toList s.toList) = true := by
    simp [isDelimiter, longestCommon_self]
  simp [matchKeyword, h]

theorem matchKeyword_exact {s t : String} (hs : OneWord s) (ht : OneWord t)
    (h : matchKeyword s t = .typeExact) : s = t := by
  simp only [matchKeyword] at h
  split at h
  · cases h
  · rename_i h₁
    split at h
    · rename_i h₂
      have h₁ := hs.length_le (by simpa using h₁)
      exact String.toList_injective (longestCommon_eq h₁ (ht.length_le h₂))
    · cases h

section

variable {es : List Entry} {str str' : String} {e e' : Entry} {m m' : MatchType}

theorem mem_keywords {x : Alternative} : x ∈ keywords es ↔ x.2 ∈ es ∧ x = (.keyword x.2.name, x.2) := by
  rw [keywords, List.mem_map]
  constructor
  · rintro ⟨e, he, rfl⟩
    exact ⟨he, rfl⟩
  · rintro ⟨he, hx⟩
    exact ⟨x.2, he, hx.symm⟩

/-- The entry with a given name that a keyword can pick is unique. -/
theorem Picks.name_inj (h : Picks env (keywords es) str e m)
    (h' : Picks env (keywords es) str' e' m') (hn : e.name = e'.name) : e = e' := by
  obtain ⟨_, l₁, x, l₂, hl, rfl, hx, hlt⟩ := h
  obtain ⟨y, hy, rfl, -⟩ := h'.mem
  have hxk := (mem_keywords.mp (show x ∈ keywords es by rw [hl]; simp)).2
  have hyk := (mem_keywords.mp hy).2
  have hxy : altMatch env str y = altMatch env str x := by
    rw [hxk, hyk]
    show matchKeyword str y.2.name = matchKeyword str x.2.name
    rw [hn]
  by_cases hm : y ∈ l₁ ++ l₂
  · have := hlt y hm
    rw [hxy, hx] at this
    omega
  · have : y = x := by
      rw [hl] at hy
      grind
    rw [this]

/-- A keyword that picks an entry, in full or abbreviated, picks it when spelled out. -/
theorem keyword_unique (hw : ∀ c ∈ es, OneWord c.name) (h : Picks env (keywords es) str e m) :
    Picks env (keywords es) e.name e .typeExact := by
  obtain ⟨_, l₁, x, l₂, hl, rfl, hx, hlt⟩ := h
  have hmem (y : Alternative) (hy : y ∈ l₁ ++ x :: l₂) := mem_keywords.mp (hl ▸ hy)
  have hxk := hmem x (by simp)
  refine ⟨by decide, l₁, x, l₂, hl, rfl, ?_, fun y hy => ?_⟩
  · rw [hxk.2]
    exact matchKeyword_self _
  · have hyk := hmem y (by grind)
    have hne : altMatch env x.2.name y ≠ .typeExact := by
      intro he
      rw [hyk.2] at he
      have hn : x.2.name = y.2.name := matchKeyword_exact (hw _ hxk.1) (hw _ hyk.1) he
      have hxy : altMatch env str y = altMatch env str x := by
        rw [hxk.2, hyk.2]
        show matchKeyword str y.2.name = matchKeyword str x.2.name
        rw [hn]
      have := hlt y hy
      rw [hxy, hx] at this
      omega
    generalize altMatch env x.2.name y = r at hne
    cases r <;> first | exact absurd rfl hne | decide

end

/-! ## Candidates -/

mutual

theorem candidates_all {P : Entry → Prop} : ∀ {es : List Entry}, (∀ e ∈ es, e.All P) →
    ∀ e ∈ candidates es, e.All P
  | [], _, e, he => by
    rw [candidates] at he
    cases he
  | d :: es, h, e, he => by
    rw [candidates] at he
    rcases List.mem_append.mp he with he | he
    · split at he
      · exact choiceCandidates_all (h d List.mem_cons_self) e he
      · rw [List.mem_singleton.mp he]
        exact h d List.mem_cons_self
    · exact candidates_all (fun c hc => h c (List.mem_cons_of_mem _ hc)) e he

theorem choiceCandidates_all {P : Entry → Prop} : ∀ {d : Entry}, d.All P →
    ∀ e ∈ choiceCandidates d, e.All P
  | ⟨_, dir⟩, h, e, he => by
    rw [choiceCandidates] at he
    exact caseCandidates_all (fun c hc => h.child hc) e he

theorem caseCandidates_all {P : Entry → Prop} : ∀ {es : List Entry}, (∀ e ∈ es, e.All P) →
    ∀ e ∈ caseCandidates es, e.All P
  | [], _, e, he => by
    rw [caseCandidates] at he
    cases he
  | d :: es, h, e, he => by
    rw [caseCandidates] at he
    rcases List.mem_append.mp he with he | he
    · exact dirCandidates_all (h d List.mem_cons_self) e he
    · exact caseCandidates_all (fun c hc => h c (List.mem_cons_of_mem _ hc)) e he

theorem dirCandidates_all {P : Entry → Prop} : ∀ {d : Entry}, d.All P →
    ∀ e ∈ dirCandidates d, e.All P
  | ⟨_, dir⟩, h, e, he => by
    rw [dirCandidates] at he
    exact candidates_all (fun c hc => h.child hc) e he

end

end

end OpenConfigd
