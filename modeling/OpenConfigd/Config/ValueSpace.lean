import OpenConfigd.Config.Members

/-!
# The matcher and the value space of a leaf

`MatchLeaf` counts the members of a leaf's type that take a token: names and strings before
abbreviated names before integers.

* `Entry.words`, `Entry.Abbreviates`, `Entry.integers`: what it counts, in terms of the type;
* `countP_words`, `countP_integers`, `abbreviates_iff`: that it does;
* `match_exact_iff`: when it leaves one full match just if the token is a value of the type.
-/

namespace OpenConfigd

/-! ## What is counted -/

/-- The first pattern, if there is one, matches the token between `^` and `$`. -/
def YangType.firstPattern (env : Env) (t : YangType) (str : String) : Bool :=
  t.pattern.head?.all fun p => (env.compile ("^" ++ p ++ "$")).any fun regex => regex str

/-- The names of the type that the token is, up to white space. -/
def YangType.named (t : YangType) (str : String) : ℕ :=
  t.names.countP fun name => matchKeyword str name = .typeExact

/-- How many names and strings among the members take the token. -/
def Entry.words (env : Env) (x : Entry) (str : String) : ℕ :=
  (x.matchedTypes.map fun t =>
    t.named str + if t.kind = .string ∧ t.firstPattern env str = true then 1 else 0).sum

/-- The token abbreviates a name of a member. -/
def Entry.Abbreviates (x : Entry) (str : String) : Prop :=
  ∃ t ∈ x.matchedTypes, ∃ name ∈ t.names, matchKeyword str name = .typePartial

/-- The token is a number in every part of the range of the leaf's own type. -/
def Entry.inParts (env : Env) (x : Entry) (str : String) : Bool :=
  (env.parseNumber str).any fun num =>
    ((x.type.map (·.range)).getD []).all fun r =>
      num.less r.min == some false && r.max.less num == some false

/-- The token is an integer in a part of the range of the member. -/
def YangType.inPart (env : Env) (t : YangType) (str : String) : Bool :=
  (env.parseNumber str).any fun num => num.whole && inRange t.range num

/-- How many integers among the members take the token. -/
def Entry.integers (env : Env) (x : Entry) (str : String) : ℕ :=
  if x.inParts env str then x.matchedTypes.countP fun t => t.kind.isInteger else 0

/-- A full match: a number, or a word that is spelled out. -/
def MatchType.full (m : MatchType) : Bool := m = .typeRange || m = .typeExact

/-- The state has one full match for a value, and none for another token. -/
structure MatchTally.Right (s : MatchTally) (value : Prop) : Prop where
  one : value → s.best.full = true ∧ s.count = 1
  none : ¬ value → s.best.full = false

section

variable {env : Env} {x : Entry} {t : YangType} {str : String}

theorem matchKeyword_ne_range (str name : String) : matchKeyword str name ≠ .typeRange := by
  simp only [matchKeyword]
  split
  · simp
  · split <;> simp

theorem matchString_eq (t : YangType) (str : String) :
    matchString env str t = if t.firstPattern env str then .typeExact else .typeNone := by
  rw [matchString, YangType.firstPattern]
  cases t.pattern with
  | nil => rfl
  | cons p ps =>
    simp only [List.head?_cons, Option.all_some]
    split
    · rename_i hc
      simp [hc]
    · rename_i regex hc
      simp [hc]

theorem altMatch_number (x : Entry) (str : String) :
    altMatch env str (.number, x) = if x.inParts env str then .typeRange else .typeNone := by
  rw [altMatch, matchAgainst, matchNumber, Entry.inParts]
  cases env.parseNumber str with
  | none => rfl
  | some num =>
    have hall : ((x.type.map (·.range)).getD []).all (fun r =>
        num.less r.min == some false && r.max.less num == some false) = true ↔
        num.within ((x.type.map (·.range)).getD []) = some true := by
      rw [Number.within_eq_true, List.all_eq_true]
      simp only [Bool.and_eq_true, beq_iff_eq]
    simp only [Option.any_some, hall]
    generalize num.within ((x.type.map (·.range)).getD []) = w
    rcases w with _ | _ | _ <;> rfl

/-! ## One member -/

theorem countP_typeExact (x : Entry) (t : YangType) (str : String) :
    (typeAlternatives x t).countP (fun y => altMatch env str y = .typeExact) =
      t.named str + if t.kind = .string ∧ t.firstPattern env str = true then 1 else 0 := by
  have hnum : altMatch env str (.number, x) ≠ .typeExact := by
    rw [altMatch_number]
    split <;> simp
  have hstr : altMatch env str (.string t, x) = .typeExact ↔ t.firstPattern env str = true := by
    show matchString env str t = .typeExact ↔ _
    rw [matchString_eq]
    split <;> simp_all
  have hkey (name : String) : altMatch env str (.keyword name, x) = matchKeyword str name := rfl
  rw [YangType.named]
  cases hk : t.kind <;> simp [typeAlternatives, YangType.names, hk, hnum, hstr, hkey,
    List.countP_cons, List.countP_map, Function.comp_def]

theorem countP_typeRange (x : Entry) (t : YangType) (str : String) :
    (typeAlternatives x t).countP (fun y => altMatch env str y = .typeRange) =
      if x.inParts env str ∧ t.kind.isInteger then 1 else 0 := by
  have hword (name : String) : altMatch env str (.keyword name, x) ≠ .typeRange :=
    matchKeyword_ne_range str name
  have hstr : altMatch env str (.string t, x) ≠ .typeRange := by
    show matchString env str t ≠ .typeRange
    rw [matchString_eq]
    split <;> simp
  have hnum : altMatch env str (.number, x) = .typeRange ↔ x.inParts env str = true := by
    rw [altMatch_number]
    split <;> simp_all
  cases hk : t.kind <;> simp [typeAlternatives, TypeKind.isInteger, hk, hnum, hstr, hword,
    List.countP_cons]

theorem exists_typePartial (x : Entry) (t : YangType) (str : String) :
    (∃ y ∈ typeAlternatives x t, altMatch env str y = .typePartial) ↔
      ∃ name ∈ t.names, matchKeyword str name = .typePartial := by
  have hnum : altMatch env str (.number, x) ≠ .typePartial := by
    rw [altMatch_number]
    split <;> simp
  have hstr : altMatch env str (.string t, x) ≠ .typePartial := by
    show matchString env str t ≠ .typePartial
    rw [matchString_eq]
    split <;> simp
  have hkey (name : String) : altMatch env str (.keyword name, x) = matchKeyword str name := rfl
  cases hk : t.kind <;> simp [typeAlternatives, YangType.names, hk, hnum, hstr, hkey]

/-! ## All members -/

theorem leafTypeAlternatives_eq (ht : x.type = some t) :
    leafTypeAlternatives x = some (x.matchedTypes.flatMap (typeAlternatives x)) := by
  rw [leafTypeAlternatives, ht, Option.map_some, Entry.matchedTypes, ht]
  dsimp only
  split
  · rfl
  · rw [List.flatMap_cons, List.flatMap_nil, List.append_nil]

theorem countP_words (x : Entry) (str : String) :
    (x.matchedTypes.flatMap (typeAlternatives x)).countP (fun y => altMatch env str y = .typeExact) =
      x.words env str := by
  rw [List.countP_flatMap, Entry.words]
  congr 1
  refine List.map_congr_left fun t _ => ?_
  exact countP_typeExact x t str

theorem countP_integers (x : Entry) (str : String) :
    (x.matchedTypes.flatMap (typeAlternatives x)).countP (fun y => altMatch env str y = .typeRange) =
      x.integers env str := by
  rw [List.countP_flatMap, Entry.integers]
  simp only [Function.comp_def, countP_typeRange]
  by_cases h : x.inParts env str = true
  · simp only [h, true_and, if_true]
    induction x.matchedTypes with
    | nil => rfl
    | cons t l ih => rw [List.map_cons, List.sum_cons, ih, List.countP_cons, Nat.add_comm]
  · simp [h]

theorem abbreviates_iff (x : Entry) (str : String) :
    (∃ y ∈ x.matchedTypes.flatMap (typeAlternatives x), altMatch env str y = .typePartial) ↔
      x.Abbreviates str := by
  constructor
  · rintro ⟨y, hy, hm⟩
    obtain ⟨t, ht, hy⟩ := List.mem_flatMap.mp hy
    exact ⟨t, ht, (exists_typePartial x t str).mp ⟨y, hy, hm⟩⟩
  · rintro ⟨t, ht, hn⟩
    obtain ⟨y, hy, hm⟩ := (@exists_typePartial env x t str).mpr hn
    exact ⟨y, List.mem_flatMap.mpr ⟨t, ht, hy⟩, hm⟩

/-! ## The state -/

/-- What a tally counts, with or without completions. -/
theorem tallyAll_counts (l : List Alternative) (str : String) (complete : Bool)
    (entry : Option Entry) :
    let s := tallyAll env l str { complete, entry }
    (∀ y ∈ l, (altMatch env str y).rank ≤ s.best.rank) ∧ (s.best ≠ .typeNone →
      (∃ y ∈ l, altMatch env str y = s.best) ∧
        s.count = l.countP fun y => altMatch env str y = s.best) := by
  obtain ⟨-, -, hrank, hcount, -⟩ := @tallyAll_best env l str complete entry
  generalize tallyAll env l str { complete, entry } = s at hrank hcount ⊢
  have hiff (y : Alternative) : altRank env str y = (Best.ofList (altRank env str) l).rank ↔
      altMatch env str y = s.best :=
    ⟨fun h => MatchType.rank_inj (h.trans hrank.symm), fun h => by rw [← hrank, ← h]⟩
  refine ⟨fun y hy => hrank ▸ @Best.rank_le_ofList _ (altRank env str) l y hy, fun hb => ?_⟩
  have hne : (Best.ofList (altRank env str) l).rank ≠ 0 := by
    rw [← hrank]
    exact mt MatchType.rank_eq_zero.mp hb
  obtain ⟨y, hy, he⟩ := Best.exists_ofList hne
  refine ⟨⟨y, hy, (hiff y).mp he⟩, ?_⟩
  rw [hcount, Best.ofList_count, if_neg hne]
  simp only [hiff]

/-- The three counts decide the state. -/
theorem match_state (x : Entry) (str : String) (complete : Bool) (entry : Option Entry) :
    let s := tallyAll env (x.matchedTypes.flatMap (typeAlternatives x)) str { complete, entry }
    (s.best.full = true ∧ s.count = 1 ↔
      x.words env str = 1 ∨ x.words env str = 0 ∧ ¬ x.Abbreviates str ∧ x.integers env str = 1) ∧
    (s.best.full = false ↔
      x.words env str = 0 ∧ (x.Abbreviates str ∨ x.integers env str = 0)) := by
  have hwords := @countP_words env x str
  have hints := @countP_integers env x str
  have habb := @abbreviates_iff env x str
  obtain ⟨hbound, hreach⟩ := @tallyAll_counts env
    (x.matchedTypes.flatMap (typeAlternatives x)) str complete entry
  generalize x.matchedTypes.flatMap (typeAlternatives x) = l at hwords hints habb hbound hreach ⊢
  generalize tallyAll env l str { complete, entry } = s at hbound hreach ⊢
  -- A better match than the best one is none.
  have hnone {m : MatchType} (hm : s.best.rank < m.rank) :
      l.countP (fun y => altMatch env str y = m) = 0 := by
    refine List.countP_eq_zero.mpr fun y hy => ?_
    simp only [decide_eq_true_eq]
    rintro rfl
    exact absurd (hbound y hy) (by omega)
  have hno {m : MatchType} (hm : s.best.rank < m.rank) : ¬ ∃ y ∈ l, altMatch env str y = m := by
    rintro ⟨y, hy, rfl⟩
    exact absurd (hbound y hy) (by omega)
  have hpos (hb : s.best ≠ .typeNone) : 0 < s.count := by
    obtain ⟨⟨y, hy, he⟩, hc⟩ := hreach hb
    rw [hc]
    exact List.countP_pos_iff.mpr ⟨y, hy, by simpa using he⟩
  cases hb : s.best with
  | typeNone =>
    rw [hb] at hnone hno
    have h₁ := hwords.symm.trans (hnone (m := .typeExact) (by decide))
    have h₂ := hints.symm.trans (hnone (m := .typeRange) (by decide))
    have h₃ := mt habb.mpr (hno (m := .typePartial) (by decide))
    simp [MatchType.full, hb, h₁, h₂, h₃]
  | typeRange =>
    have h₀ := hpos (by rw [hb]; simp)
    obtain ⟨-, hc⟩ := hreach (by rw [hb]; simp)
    rw [hb] at hnone hno hc
    have h₁ := hwords.symm.trans (hnone (m := .typeExact) (by decide))
    have h₃ := mt habb.mpr (hno (m := .typePartial) (by decide))
    rw [hints] at hc
    simp [MatchType.full, hb, h₁, h₃, hc]
    omega
  | typePartial =>
    obtain ⟨hex, -⟩ := hreach (by rw [hb]; simp)
    rw [hb] at hnone hex
    have h₁ := hwords.symm.trans (hnone (m := .typeExact) (by decide))
    have h₃ := habb.mp hex
    simp [MatchType.full, hb, h₁, h₃]
  | typeExact =>
    have h₀ := hpos (by rw [hb]; simp)
    obtain ⟨-, hc⟩ := hreach (by rw [hb]; simp)
    rw [hb, hwords] at hc
    simp [MatchType.full, hb, hc]
    omega

/-! ## The value space -/

theorem YangType.allows_integer (hi : t.kind.isInteger = true) :
    t.Allows env str ↔ t.inPart env str = true := by
  rw [YangType.inPart, Option.any_eq_true]
  constructor
  · rintro (⟨-, hp, hw, hr⟩ | ⟨hk, -⟩ | hn | ⟨hu, -, -⟩)
    · exact ⟨_, hp, by rw [hw, hr]; rfl⟩
    · rw [hk] at hi
      cases hi
    · rw [YangType.names] at hn
      cases hk : t.kind <;> simp [hk, TypeKind.isInteger] at hi hn
    · rw [hu] at hi
      cases hi
  · rintro ⟨num, hp, hn⟩
    obtain ⟨hw, hr⟩ := Bool.and_eq_true_iff.mp hn
    exact .integer hi hp hw hr

/-- A value of the type is one of a member. -/
theorem allows_matchedTypes (ht : x.type = some t) :
    t.Allows env str ↔ ∃ m ∈ x.matchedTypes, m.Allows env str := by
  rw [Entry.matchedTypes, ht]
  simp only
  split
  · next hu =>
    constructor
    · rintro (⟨hi, -, -, -⟩ | ⟨hk, -⟩ | hn | ⟨-, hm, ha⟩)
      · rw [hu] at hi
        cases hi
      · rw [hu] at hk
        cases hk
      · simp [YangType.names, hu] at hn
      · exact ⟨_, hm, ha⟩
    · rintro ⟨m, hm, ha⟩
      exact .union hu hm ha
  · simp

/-- What the matcher does not get wrong about a token. It can be compared; no two names or strings
take it, and one that does is right: a name in full, and a string that all its patterns match. Where
it abbreviates a name it is no value. And else, if it is a number in every part of the range of the
leaf's own type, one member at most is an integer; and it is one, for a member that is an integer,
just if it is an integer in a part of the range of a member or a value of another member. -/
structure Entry.Clear (env : Env) (x : Entry) (t : YangType) (str : String) : Prop where
  compares : x.compares env str = true
  words : x.words env str ≤ 1
  word : x.words env str = 1 → t.Allows env str
  abbreviation : x.words env str = 0 → x.Abbreviates str → ¬ t.Allows env str
  integers : x.words env str = 0 → ¬ x.Abbreviates str → x.inParts env str = true →
    x.matchedTypes.countP (fun m => m.kind.isInteger) ≤ 1
  integer : x.words env str = 0 → ¬ x.Abbreviates str →
    (x.inParts env str = true ∧ (∃ m ∈ x.matchedTypes, m.kind.isInteger = true) ↔
      (∃ m ∈ x.matchedTypes, m.kind.isInteger = true ∧ m.inPart env str = true) ∨
        ∃ m ∈ x.matchedTypes, m.kind.isInteger = false ∧ m.Allows env str)

/-- The clauses on integers, in terms of the count. -/
theorem Entry.Clear.iff_integers (ht : x.type = some t) : x.Clear env t str ↔
    x.compares env str = true ∧ x.words env str ≤ 1 ∧ (x.words env str = 1 → t.Allows env str) ∧
      (x.words env str = 0 → x.Abbreviates str → ¬ t.Allows env str) ∧
      (x.words env str = 0 → ¬ x.Abbreviates str →
        x.integers env str ≤ 1 ∧ (x.integers env str = 1 ↔ t.Allows env str)) := by
  have hcount : x.integers env str ≤ 1 ↔
      (x.inParts env str = true → x.matchedTypes.countP (fun m => m.kind.isInteger) ≤ 1) := by
    rw [Entry.integers]
    split
    · next h => simp [h]
    · next h => simp [h]
  have hpos : 0 < x.integers env str ↔
      x.inParts env str = true ∧ ∃ m ∈ x.matchedTypes, m.kind.isInteger = true := by
    rw [Entry.integers]
    split
    · next h => simp [h, List.countP_pos_iff]
    · next h => simp [h]
  have hvalue : t.Allows env str ↔
      (∃ m ∈ x.matchedTypes, m.kind.isInteger = true ∧ m.inPart env str = true) ∨
        ∃ m ∈ x.matchedTypes, m.kind.isInteger = false ∧ m.Allows env str := by
    rw [allows_matchedTypes ht]
    constructor
    · rintro ⟨m, hm, ha⟩
      cases hi : m.kind.isInteger with
      | true => exact .inl ⟨m, hm, hi, (YangType.allows_integer hi).mp ha⟩
      | false => exact .inr ⟨m, hm, hi, ha⟩
    · rintro (⟨m, hm, hi, hp⟩ | ⟨m, hm, -, ha⟩)
      · exact ⟨m, hm, (YangType.allows_integer hi).mpr hp⟩
      · exact ⟨m, hm, ha⟩
  constructor
  · intro h
    refine ⟨h.compares, h.words, h.word, h.abbreviation, fun h₀ hn => ?_⟩
    have hle := hcount.mpr (h.integers h₀ hn)
    have hiff := h.integer h₀ hn
    rw [← hpos, ← hvalue] at hiff
    exact ⟨hle, by rw [← hiff]; omega⟩
  · rintro ⟨hc, hw, hword, habb, hint⟩
    refine ⟨hc, hw, hword, habb, fun h₀ hn => hcount.mp (hint h₀ hn).1, fun h₀ hn => ?_⟩
    obtain ⟨hle, hiff⟩ := hint h₀ hn
    rw [← hpos, ← hvalue, ← hiff]
    omega

theorem leafAlternatives_of_target {e : Entry} (hx : e.target env = some x) (ht : x.type = some t) :
    leafAlternatives env e = some (x.matchedTypes.flatMap (typeAlternatives x)) := by
  rw [← leafTypeAlternatives_eq ht, leafAlternatives]
  rw [Entry.target] at hx
  cases het : e.type with
  | none =>
    rw [het] at hx
    cases hx
  | some t' =>
    simp only [het] at hx ⊢
    split at hx
    · rename_i hk
      rw [if_pos hk, hx]
    · rename_i hk
      obtain rfl := Option.some.inj hx
      rw [if_neg hk]

/-- For a leaf with a type, its own or that of the leaf it refers to, `MatchLeaf` returns and leaves
one full match for a value of the type and none for another token just if the token is clear. -/
theorem match_exact_iff {e : Entry} (hx : e.target env = some x) (ht : x.type = some t)
    (complete : Bool) (entry : Option Entry) :
    (∃ s, matchLeaf env e str { complete, entry } = some s ∧ s.Right (t.Allows env str)) ↔
      x.Clear env t str := by
  have hl := @leafAlternatives_of_target env x t e hx ht
  have hret := @leafTypeAlternatives_returns env x _ str (leafTypeAlternatives_eq ht)
  obtain ⟨hone, hnone⟩ := @match_state env x str complete entry
  rw [matchLeaf_eq, leafMatches, hl, Entry.Clear.iff_integers ht, ← hret]
  generalize x.matchedTypes.flatMap (typeAlternatives x) = l at hone hnone ⊢
  by_cases hr : Returns env str l
  · rw [Option.filter_some_pos (by simpa using hr), Option.map_some]
    simp only [Option.some.injEq, exists_eq_left', hr, true_and]
    generalize tallyAll env l str { complete, entry } = s at hone hnone ⊢
    constructor
    · intro h
      by_cases hv : t.Allows env str
      · have hw := hone.mp (h.one hv)
        refine ⟨by omega, fun _ => hv, fun h₀ ha => ?_, fun h₀ _ => ?_⟩
        · exact absurd ha (hw.resolve_left (by omega)).2.1
        · have h₁ := (hw.resolve_left (by omega)).2.2
          exact ⟨h₁.le, iff_of_true h₁ hv⟩
      · obtain ⟨hw, hi⟩ := hnone.mp (h.none hv)
        refine ⟨by omega, fun h₁ => by omega, fun _ _ => hv, fun _ hn => ?_⟩
        have h₀ := hi.resolve_left hn
        exact ⟨by omega, iff_of_false (by omega) hv⟩
    · rintro ⟨hw, hword, habb, hint⟩
      by_cases hv : t.Allows env str
      · refine ⟨fun _ => hone.mpr ?_, fun hn => absurd hv hn⟩
        by_cases h₁ : x.words env str = 1
        · exact .inl h₁
        · have h₀ : x.words env str = 0 := by omega
          have ha : ¬ x.Abbreviates str := fun ha => habb h₀ ha hv
          exact .inr ⟨h₀, ha, (hint h₀ ha).2.mpr hv⟩
      · refine ⟨fun h' => absurd h' hv, fun _ => hnone.mpr ?_⟩
        have h₁ : x.words env str ≠ 1 := mt hword hv
        have h₀ : x.words env str = 0 := by omega
        refine ⟨h₀, ?_⟩
        by_cases ha : x.Abbreviates str
        · exact .inl ha
        · obtain ⟨hle, hiff⟩ := hint h₀ ha
          have := mt hiff.mp hv
          exact .inr (by omega)
  · rw [Option.filter_some_neg (by simpa using hr)]
    simp [hr]

end

/-- An integer of 1 to 4 or 10 to 20. -/
def partsLeaf : Entry :=
  let num (n : Nat) : Number := ⟨.positive, n, 0⟩
  { name := "priority", kind := .leaf,
    type := some { kind := .uint8, range := [⟨num 1, num 4⟩, ⟨num 10, num 20⟩] } }

/-- A number that is in no part is matched as it should be. -/
theorem match_exact_iff_parts : ∃ t s, partsLeaf.type = some t ∧
    matchLeaf .ascii partsLeaf "7" {} = some s ∧ s.Right (t.Allows .ascii "7") := by
  have hwords : partsLeaf.words .ascii "7" = 0 := by decide
  have habb : ¬ partsLeaf.Abbreviates "7" := by
    rintro ⟨t, ht, name, hn, -⟩
    rw [show partsLeaf.matchedTypes = [_] from rfl, List.mem_singleton] at ht
    subst ht
    cases hn
  have hparts : partsLeaf.inParts .ascii "7" = false := by decide
  obtain ⟨s, hs, h⟩ := (@match_exact_iff .ascii partsLeaf _ "7" partsLeaf rfl rfl false none).mpr {
    compares := by decide
    words := by rw [hwords]; decide
    word := fun h => by rw [hwords] at h; cases h
    abbreviation := fun _ h => absurd h habb
    integers := fun _ _ h => by rw [hparts] at h; cases h
    integer := fun _ _ => by
      refine iff_of_false (fun h => ?_) ?_
      · rw [hparts] at h
        cases h.1
      · rw [show partsLeaf.matchedTypes = [_] from rfl]
        simp only [List.mem_singleton, exists_eq_left]
        rintro (⟨-, hp⟩ | ⟨hi, -⟩)
        · exact absurd hp (by decide)
        · cases hi }
  exact ⟨_, s, rfl, hs, h⟩

/-- A number in one of two parts is no match, and one with 64 digits after the point makes the
matcher panic. -/
theorem match_misses_part : ∃ t, partsLeaf.type = some t ∧ t.Allows .ascii "3" ∧
    (∃ s, matchLeaf .ascii partsLeaf "3" {} = some s ∧ ¬ s.Right (t.Allows .ascii "3")) ∧
    matchLeaf .ascii partsLeaf zeros64 {} = none := by
  have hallow : ∀ t, partsLeaf.type = some t → t.Allows .ascii "3" := by
    rintro t ⟨⟩
    exact .integer rfl (show Env.ascii.parseNumber "3" = some ⟨.positive, 3, 0⟩ by decide) rfl (by decide)
  obtain ⟨s, hs, hbest⟩ := Option.map_eq_some_iff.mp (show
    (matchLeaf .ascii partsLeaf "3" {}).map (·.best) = some .typeNone by decide +kernel)
  have hpanic : (matchLeaf .ascii partsLeaf zeros64 {}).map (·.best) = none := by decide +kernel
  refine ⟨_, rfl, hallow _ rfl, ⟨s, hs, fun h => ?_⟩, Option.map_eq_none_iff.mp hpanic⟩
  obtain ⟨hfull, -⟩ := h.one (hallow _ rfl)
  rw [hbest] at hfull
  cases hfull

end OpenConfigd
