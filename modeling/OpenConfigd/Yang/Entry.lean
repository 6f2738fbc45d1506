import Mathlib.Algebra.Order.Ring.Nat
import Mathlib.Data.List.Basic

/-!
# Schema entries

`yang.Entry` of the goyang package, with the fields the configuration code
reads, and the small predicates of `yang.go` over it. An entry's `path` is its
place in the schema tree: it stands for the Go pointer, so that two pointers are
equal when the paths are. `Entry.All` says that every entry of a schema has a
property.
-/

namespace OpenConfigd

/-- `yang.EntryKind`. -/
inductive EntryKind where
  | leaf | directory | anyData | anyXML | case | choice | input | notification | output
  deriving DecidableEq, Repr, Inhabited

/-- `yang.TypeKind`. -/
inductive TypeKind where
  | none | int8 | int16 | int32 | int64 | uint8 | uint16 | uint32 | uint64
  | binary | bits | bool | decimal64 | empty | enum | identityref | instanceIdentifier
  | leafref | string | union
  deriving DecidableEq, Repr, Inhabited

/-- `yang.NumberKind`. -/
inductive NumberKind where
  | positive | negative | minNumber | maxNumber
  deriving DecidableEq, Repr

/-- `yang.Number`. -/
structure Number where
  kind : NumberKind
  value : Nat
  fractionDigits : UInt8
  deriving DecidableEq, Repr

namespace Number

/-- `pow10`, which does not check for overflow. -/
def pow10 (e : UInt8) : Nat := 10 ^ e.toNat % 2 ^ 64

/-- `Trunc`; `none` when it divides by zero. -/
def trunc (n : Number) : Option Nat :=
  if pow10 n.fractionDigits = 0 then none else some (n.value / pow10 n.fractionDigits)

/-- `frac`. From 19 digits on `18 - frac` wraps around. -/
def frac (n : Number) : Option Nat :=
  n.trunc.map fun t =>
    (n.value - t * pow10 n.fractionDigits) * pow10 (18 - n.fractionDigits) % 2 ^ 64

/-- `Less`; `none` when it panics. -/
def less (n m : Number) : Option Bool :=
  if m.kind = .minNumber then some false
  else if n.kind = .minNumber then some true
  else if n.kind = .maxNumber then some false
  else if m.kind = .maxNumber then some true
  else if n.kind = .negative ∧ m.kind ≠ .negative then some true
  else if n.kind ≠ .negative ∧ m.kind = .negative then some false
  else do
    let nt ← n.trunc
    let mt ← m.trunc
    let signed (lt : Bool) : Bool := if n.kind = .negative then !lt else lt
    if nt = mt then
      let nf ← n.frac
      let mf ← m.frac
      if nf = mf then some false else some (signed (nf < mf))
    else some (signed (nt < mt))

end Number

/-- `yang.YRange`. -/
structure YRange where
  min : Number
  max : Number
  deriving DecidableEq, Repr

/-- `yang.YangType`; `enumNames` are the names of `Enum.NameMap()`. -/
structure YangType where
  kind : TypeKind
  range : List YRange := []
  pattern : List String := []
  enumNames : List String := []
  path : String := ""
  types : List YangType := []
  deriving Inhabited

/-- The fields of `yang.Entry` apart from `Dir`. `isDir` is `Dir != nil`,
`listAttr` is `ListAttr != nil`, `presence` and `mandatory` say that `Node` is a
container with a presence statement, a leaf or choice with a mandatory one,
`mandatoryTrue` that the mandatory one says `true`, and `parentKind` is the kind of
`Parent`. -/
structure EntryHead where
  name : String
  path : List String := [name]
  parentKind : Option EntryKind := none
  kind : EntryKind
  isDir : Bool := kind ≠ .leaf
  listAttr : Bool := false
  key : String := ""
  presence : Bool := false
  mandatory : Bool := false
  mandatoryTrue : Bool := mandatory
  readOnlyConfig : Bool := false
  type : Option YangType := none
  exts : List (String × String) := []
  deriving Inhabited

/-- `yang.Entry`. The order of `dir` is the order in which Go happens to iterate
the map. -/
structure Entry extends EntryHead where
  dir : List Entry := []
  deriving Inhabited

namespace Entry

def isLeaf (e : Entry) : Bool := !e.isDir && e.kind == .leaf && !e.listAttr

def isLeafList (e : Entry) : Bool := !e.isDir && e.kind == .leaf && e.listAttr

def isList (e : Entry) : Bool := e.isDir && e.listAttr

def isContainer (e : Entry) : Bool := e.kind == .directory && !e.listAttr

def isChoice (e : Entry) : Bool := e.kind == .choice

/-- `Dir[name]`. -/
def dirGet (e : Entry) (name : String) : Option Entry := e.dir.find? fun c => c.name == name

/-- Every entry of the schema below and including `e` has the property. -/
inductive All (P : Entry → Prop) : Entry → Prop
  | mk {e : Entry} : P e → (∀ c ∈ e.dir, All P c) → All P e

theorem All.self {P : Entry → Prop} {e : Entry} : e.All P → P e
  | .mk h _ => h

theorem All.child {P : Entry → Prop} {e c : Entry} : e.All P → c ∈ e.dir → c.All P
  | .mk _ h, hc => h c hc

theorem All.mono {P Q : Entry → Prop} (hPQ : ∀ e, P e → Q e) {e : Entry} (h : e.All P) :
    e.All Q := by
  induction h with
  | mk hp _ ih => exact .mk (hPQ _ hp) ih

mutual

/-- Every entry below and including the entry passes the check. -/
def check (p : Entry → Bool) : Entry → Bool
  | ⟨h, dir⟩ => p ⟨h, dir⟩ && checkDir p dir

/-- Every entry of a directory passes the check. -/
def checkDir (p : Entry → Bool) : List Entry → Bool
  | [] => true
  | e :: es => check p e && checkDir p es

end

section

variable {P : Entry → Prop} [DecidablePred P]

mutual

theorem check_iff : ∀ {e : Entry}, check (fun e => P e) e = true ↔ e.All P
  | ⟨h, dir⟩ => by
    rw [check, Bool.and_eq_true, decide_eq_true_eq, checkDir_iff]
    exact ⟨fun hc => .mk hc.1 hc.2, fun ha => ⟨ha.self, fun c hc => ha.child hc⟩⟩

theorem checkDir_iff : ∀ {es : List Entry},
    checkDir (fun e => P e) es = true ↔ ∀ e ∈ es, e.All P
  | [] => by simp [checkDir]
  | c :: es => by
    rw [checkDir, Bool.and_eq_true, check_iff, checkDir_iff, List.forall_mem_cons]

end

instance (e : Entry) : Decidable (e.All P) := decidable_of_iff _ check_iff

end

end Entry

/-! ## Predicates of `yang.go` -/

def isEmptyLeaf (e : Entry) : Bool :=
  e.kind == .leaf && match e.type with
    | some t => t.kind == .empty
    | none => false

def isPresenceContainer (e : Entry) : Bool := e.presence

def isMandatory (e : Entry) : Bool := e.mandatory

def hasKey (e : Entry) : Bool := e.key ≠ ""

/-- `strings.Split(key, " ")`. -/
def keySlice (key : String) : List String := (key.toList.splitOn ' ').map String.ofList

def keyLength (ent : Entry) : Nat := (keySlice ent.key).length

def keyIndexString (key : String) (index : Nat) : String := (keySlice key).getD index ""

def keyEntry (ent : Entry) (index : Nat) : Option Entry :=
  ent.dirGet (keyIndexString ent.key index)

def keyIncludeValue (key value : String) : Bool := (keySlice key).contains value

def extHelp (e : Entry) : String :=
  match e.exts.find? fun x => x.1 == "ext:help" with
  | some x => x.2
  | none => ""

/-- `CaseEntry`: the pointer to the case the entry hangs under, if any. -/
def caseEntry (e : Entry) : Option (List String) :=
  if e.parentKind = some .case then some e.path.dropLast else none

end OpenConfigd
