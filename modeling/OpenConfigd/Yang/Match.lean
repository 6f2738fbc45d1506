import Mathlib.Data.Nat.GCD.Basic
import OpenConfigd.Go.Env

/-!
# Matching a token against the schema

`cmd.MatchKeyword` and the `Match*` functions of `yang.go`. Each of them runs
`matchEntry` over the alternatives a schema entry offers for a token, which
tallies the best match, how many alternatives reach it, and the first of them.
-/

namespace OpenConfigd

/-- The `cmd.MatchType`s the schema matcher produces, in their order. -/
inductive MatchType where
  | typeNone | typeRange | typePartial | typeExact
  deriving DecidableEq, Repr, Inhabited

/-- The value of the `cmd.MatchType` constant. -/
def MatchType.rank : MatchType → Nat
  | .typeNone => 0
  | .typeRange => 8
  | .typePartial => 9
  | .typeExact => 10

/-- `cmd.isWhiteSpaceChar`. -/
def isWhiteSpaceChar (c : Char) : Bool := c == ' ' || c == '\t' || c == '\n'

/-- `cmd.longestCommonPrefix`. -/
def longestCommon : List Char → List Char → Nat
  | a :: as, b :: bs => if a = b then longestCommon as bs + 1 else 0
  | _, _ => 0

/-- `cmd.isDelimiter`. -/
def isDelimiter (str : List Char) (i : Nat) : Bool :=
  match str[i]? with
  | none => true
  | some c => isWhiteSpaceChar c

/-- `cmd.MatchKeyword`. -/
def matchKeyword (str name : String) : MatchType :=
  let pos := longestCommon str.toList name.toList
  if !isDelimiter str.toList pos then .typeNone
  else if isDelimiter name.toList pos then .typeExact
  else .typePartial

/-- `cmd.Comp`. -/
structure Comp where
  name : String
  help : String := ""
  dir : Bool := false
  additive : Bool := false
  deriving DecidableEq, Repr

/-- `CompSlice.Less`. -/
def compLess (a b : Comp) : Bool := a.name < b.name

/-- The parser states of `Parse`. -/
inductive ParseState where
  | stateDir | stateDirMatched | stateKey | stateKeyMatched
  | stateLeaf | stateLeafMatched | stateLeafList | stateLeafListMatched
  deriving DecidableEq, Repr, Inhabited

/-- The part of `YMatchState` that the `Match*` functions read and write. -/
structure MatchTally where
  complete : Bool := false
  best : MatchType := .typeNone
  count : Nat := 0
  entry : Option Entry := none
  comps : List Comp := []

/-- An integer type. -/
def TypeKind.isInteger : TypeKind → Bool
  | .int8 | .int16 | .int32 | .int64 | .uint8 | .uint16 | .uint32 | .uint64 => true
  | _ => false

/-- The `matchType` argument of `MatchEntry`, with what it matches against. -/
inductive MatchAgainst where
  | keyword (name : String)
  | number
  | string (typ : YangType)

section

variable (env : Env)

/-- The loop of `MatchNumber`: no part of the range leaves the number out. `none` when it panics. -/
def Number.within (num : Number) : List YRange → Option Bool
  | [] => some true
  | r :: range => do
    if ← num.less r.min then some false
    else if ← r.max.less num then some false
    else num.within range

/-- `MatchNumber`; `none` when it panics. -/
def matchNumber (str : String) (e : Entry) : Option MatchType :=
  match env.parseNumber str with
  | none => some .typeNone
  | some num =>
    (num.within ((e.type.map (·.range)).getD [])).map fun within =>
      if within then .typeRange else .typeNone

/-- `Less` of the numbers divides by no zero: one is a bound without a value, one alone is negative,
or both have less than 64 digits after the point. -/
def Number.comparable (n m : Number) : Bool :=
  (n.kind = .minNumber || m.kind = .minNumber || n.kind = .maxNumber || m.kind = .maxNumber) ||
    (n.kind == .negative) != (m.kind == .negative) || (n.fractionDigits < 64 && m.fractionDigits < 64)

/-- The number can be compared with the bounds of the parts, up to the first part that leaves it
out. -/
def Number.compares (num : Number) : List YRange → Bool
  | [] => true
  | r :: range =>
    num.comparable r.min && (num.less r.min == some true ||
      r.max.comparable num && (r.max.less num == some true || num.compares range))

theorem Number.trunc_isSome {n : Number} : n.trunc.isSome = true ↔ n.fractionDigits < 64 := by
  have hpow : Number.pow10 n.fractionDigits = 0 ↔ 64 ≤ n.fractionDigits.toNat := by
    have hco : Nat.Coprime (2 ^ 64) (5 ^ n.fractionDigits.toNat) := Nat.Coprime.pow _ _ (by decide)
    rw [Number.pow10, ← Nat.dvd_iff_mod_eq_zero, show 10 = 2 * 5 from rfl, Nat.mul_pow,
      Nat.Coprime.dvd_mul_right hco, Nat.pow_dvd_pow_iff_le_right (by decide)]
  rw [Number.trunc, UInt8.lt_iff_toNat_lt, show (64 : UInt8).toNat = 64 from rfl]
  split
  · next h => simpa using hpow.mp h
  · next h => simpa using mt hpow.mpr h

theorem Number.less_isSome {n m : Number} : (n.less m).isSome = true ↔ n.comparable m = true := by
  have htruncs : (do
      let nt ← n.trunc
      let mt ← m.trunc
      let signed (lt : Bool) : Bool := if n.kind = NumberKind.negative then !lt else lt
      if nt = mt then
        let nf ← n.frac
        let mf ← m.frac
        if nf = mf then some false else some (signed (nf < mf))
      else some (signed (nt < mt))).isSome = true ↔ n.fractionDigits < 64 ∧ m.fractionDigits < 64 := by
    rw [← Number.trunc_isSome, ← Number.trunc_isSome, Number.frac, Number.frac]
    cases n.trunc with
    | none => simp
    | some nt =>
      cases m.trunc with
      | none => simp
      | some mt =>
        simp only [Option.bind_eq_bind, Option.bind_some, Option.map_some]
        split
        · split <;> simp
        · simp
  rw [Number.less, Number.comparable]
  split
  · next h => simp [h]
  split
  · next h => simp [h]
  split
  · next h => simp [h]
  split
  · next h => simp [h]
  split
  · next h => simp [h]
  split
  · next h => simp [h]
  · rw [htruncs]
    grind

theorem Number.within_isSome {num : Number} {range : List YRange} :
    (num.within range).isSome = true ↔ num.compares range = true := by
  induction range with
  | nil => simp [Number.within, Number.compares]
  | cons r range ih =>
    rw [Number.within, Number.compares, Bool.and_eq_true, ← Number.less_isSome, Bool.or_eq_true,
      Bool.and_eq_true, ← Number.less_isSome, Bool.or_eq_true, ← ih]
    rcases num.less r.min with _ | _ | _ <;> rcases r.max.less num with _ | _ | _ <;> simp

theorem Number.within_eq_true {num : Number} {range : List YRange} : num.within range = some true ↔
    ∀ r ∈ range, num.less r.min = some false ∧ r.max.less num = some false := by
  induction range with
  | nil => simp [Number.within]
  | cons r range ih =>
    rw [Number.within, List.forall_mem_cons, ← ih]
    rcases num.less r.min with _ | _ | _ <;> rcases r.max.less num with _ | _ | _ <;> simp

/-- `MatchString`. -/
def matchString (str : String) (typ : YangType) : MatchType :=
  match typ.pattern with
  | [] => .typeExact
  | p :: _ =>
    match env.compile ("^" ++ p ++ "$") with
    | none => .typeNone
    | some regex => if regex str then .typeExact else .typeNone

/-- The match `MatchEntry` computes. -/
def matchAgainst (a : MatchAgainst) (ent : Entry) (str : String) : Option MatchType :=
  match a with
  | .keyword name => some (matchKeyword str name)
  | .number => matchNumber env str ent
  | .string typ => some (matchString env str typ)

/-- The completion `MatchEntry` adds. -/
def matchComp (a : MatchAgainst) (ent : Entry) : Comp :=
  match a with
  | .keyword name => { name, help := extHelp ent, dir := ent.isDir }
  | .number | .string _ => { name := "<" ++ ent.name ++ ">" }

/-- What `MatchEntry` does with a match. -/
def MatchTally.add (s : MatchTally) (m : MatchType) (ent : Entry) (comp : Comp) : MatchTally :=
  if m = .typeNone then s
  else
    let s := if s.complete then { s with comps := s.comps ++ [comp] } else s
    if s.best.rank < m.rank then { s with best := m, entry := some ent, count := 1 }
    else if m = s.best then { s with count := s.count + 1 }
    else s

/-- `MatchEntry`; `none` when it panics. -/
def matchEntry (a : MatchAgainst) (ent : Entry) (str : String) (s : MatchTally) : Option MatchTally :=
  (matchAgainst env a ent str).map fun m => s.add m ent (matchComp a ent)

/-- `MatchEntry` of a keyword. -/
def matchWord (name : String) (ent : Entry) (str : String) (s : MatchTally) : MatchTally :=
  s.add (matchKeyword str name) ent (matchComp (.keyword name) ent)

/-- `MatchType`. -/
def matchType (e : Entry) (typ : YangType) (str : String) (s : MatchTally) : Option MatchTally :=
  match typ.kind with
  | .int8 | .int16 | .int32 | .int64 | .uint8 | .uint16 | .uint32 | .uint64 =>
    matchEntry env .number e str s
  | .string => matchEntry env (.string typ) e str s
  | .bool => some (matchWord "false" e str (matchWord "true" e str s))
  | .enum => some (typ.enumNames.foldl (fun s name => matchWord name e str s) s)
  | _ => some s

/-- `MatchLeaf` of an entry that is no leafref; `none` when it panics. A leafref whose target has no
type makes the Go code dereference nil. -/
def matchLeafType (e : Entry) (str : String) (s : MatchTally) : Option MatchTally := do
  let t ← e.type
  if t.kind = .union then t.types.foldlM (fun s typ => matchType env e typ str s) s
  else matchType env e t str s

/-- `MatchLeaf`. -/
def matchLeaf (e : Entry) (str : String) (s : MatchTally) : Option MatchTally :=
  match e.type with
  | none => some s
  | some t =>
    if t.kind = .leafref then
      match env.find e t.path with
      | none => some s
      | some target => matchLeafType env target str s
    else matchLeafType env e str s

mutual

/-- `MatchDir`. -/
def matchDir (str : String) : Entry → MatchTally → MatchTally
  | ⟨_, dir⟩, s => matchDirLoop str dir s

/-- The loop of `MatchDir` and, without the list keys, of `MatchKeyMatched`. -/
def matchDirLoop (str : String) : List Entry → MatchTally → MatchTally
  | [], s => s
  | e :: es, s =>
    matchDirLoop str es
      (if e.isChoice then matchChoice str e s else matchWord e.name e str s)

/-- `MatchChoice`. -/
def matchChoice (str : String) : Entry → MatchTally → MatchTally
  | ⟨_, dir⟩, s => matchChoiceLoop str dir s

/-- The loop of `MatchChoice`. -/
def matchChoiceLoop (str : String) : List Entry → MatchTally → MatchTally
  | [], s => s
  | e :: es, s => matchChoiceLoop str es (matchDir str e s)

end

/-- `MatchKey`. -/
def matchKey (ent : Entry) (index : Nat) (str : String) (s : MatchTally) : Option MatchTally :=
  match keyEntry ent index with
  | none => some s
  | some key => matchLeaf env key str s

/-- `MatchKeyMatched`. -/
def matchKeyMatched (ent : Entry) (str : String) (s : MatchTally) : MatchTally :=
  matchDirLoop str (ent.dir.filter fun e => !keyIncludeValue ent.key e.name) s

end

/-! ## Completions after the last token -/

/-- `IsCompDir`. -/
def isCompDir (e : Entry) : Bool :=
  e.isDir && (if e.isList then keyLength e < e.dir.length else 0 < e.dir.length)

/-- `IsAdditive`. -/
def isAdditive (e : Entry) : Bool := e.isList && e.key ≠ ""

mutual

/-- `CompChoice`. -/
def compChoice : Entry → List Comp
  | ⟨_, dir⟩ => compChoiceLoop dir

/-- The loop of `CompChoice`. -/
def compChoiceLoop : List Entry → List Comp
  | [] => []
  | e :: es => compDirOf e ++ compChoiceLoop es

/-- `CompDir` of one entry of a choice. -/
def compDirOf : Entry → List Comp
  | ⟨_, dir⟩ => compDirLoop dir

/-- The loop of `CompDir` and, without the list keys, of `CompKeyMatched`. -/
def compDirLoop : List Entry → List Comp
  | [] => []
  | e :: es =>
    (if e.isChoice then compChoice e
      else [{ name := e.name, dir := isCompDir e, additive := isAdditive e }]) ++ compDirLoop es

end

/-- `CompDir`. -/
def compDir (ent : Entry) : List Comp := compDirLoop ent.dir

/-- `CompKeyMatched`. -/
def compKeyMatched (ent : Entry) : List Comp :=
  compDirLoop (ent.dir.filter fun e => !keyIncludeValue ent.key e.name)

/-- `CompKey`. -/
def compKey (ent : Entry) (index : Nat) : List Comp :=
  match keyEntry ent index with
  | none => []
  | some key => [{ name := "<" ++ key.name ++ ">", dir := isCompDir ent, additive := isAdditive ent }]

/-- `CompLeaf`. -/
def compLeaf (ent : Entry) : List Comp :=
  match ent.type with
  | none => []
  | some t =>
    match t.kind with
    | .bool => [{ name := "false" }, { name := "true" }]
    | .enum => t.enumNames.map fun name => { name }
    | _ => [{ name := "<" ++ ent.name ++ ">" }]

end OpenConfigd
