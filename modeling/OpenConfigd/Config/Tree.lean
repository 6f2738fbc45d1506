import OpenConfigd.Lib.Keyed
import OpenConfigd.Go.Env

/-!
# The configuration tree

`Config` of `config.go`. A Go pointer to a node is the place of the node in its
tree, a `Loc`: the steps that lead to it from the root, each into the `Configs`
or the `Keys` slice, by name. `Parent` is the place without its last step. Code
that follows pointers takes the root and a place, code that changes the node a
pointer points to is `Config.modify`.
-/

namespace OpenConfigd

/-- The fields of `Config` apart from the children. `case` is the pointer to the
schema's case entry. `HasListValue` is never read or written. -/
structure Node where
  name : String := ""
  entry : Option Entry := none
  keyConfig : Bool := false
  keyOnlyConfig : Bool := false
  hasValue : Bool := false
  value : String := ""
  valueList : List String := []
  keyPrefix : String := ""
  case : Option (List String) := none
  deriving Inhabited

/-- `Config`. -/
structure Config extends Node where
  configs : List Config := []
  keys : List Config := []
  deriving Inhabited

/-- The two slices of children. -/
inductive Slot where
  | configs | keys
  deriving DecidableEq, Repr

/-- A step to a child: the slice and the child's name. -/
structure Step where
  slot : Slot
  name : String
  deriving DecidableEq, Repr

/-- The place of a node. -/
abbrev Loc := List Step

namespace Config

/-- The children in one of the two slices. -/
def slot (c : Config) : Slot → List Config
  | .configs => c.configs
  | .keys => c.keys

/-- The node with one of its slices replaced. -/
def withSlot (c : Config) (s : Slot) (l : List Config) : Config :=
  match s with
  | .configs => { c with configs := l }
  | .keys => { c with keys := l }

@[simp] theorem slot_withSlot_self (c : Config) (s : Slot) (l : List Config) :
    (c.withSlot s l).slot s = l := by cases s <;> rfl

@[simp] theorem slot_withSlot_ne (c : Config) {s t : Slot} (h : t ≠ s) (l : List Config) :
    (c.withSlot s l).slot t = c.slot t := by
  cases s <;> cases t <;> first | rfl | exact absurd rfl h

@[simp] theorem withSlot_toNode (c : Config) (s : Slot) (l : List Config) :
    (c.withSlot s l).toNode = c.toNode := by cases s <;> rfl

theorem withSlot_self (c : Config) (s : Slot) : c.withSlot s (c.slot s) = c := by
  cases c; cases s <;> rfl

@[simp] theorem withSlot_withSlot (c : Config) (s : Slot) (l l' : List Config) :
    (c.withSlot s l).withSlot s l' = c.withSlot s l' := by cases s <;> rfl

theorem ext' {c d : Config} (hn : c.toNode = d.toNode) (hs : ∀ s, c.slot s = d.slot s) : c = d := by
  obtain ⟨n, cs, ks⟩ := c
  obtain ⟨n', cs', ks'⟩ := d
  cases hn
  have h₁ : cs = cs' := hs .configs
  have h₂ : ks = ks' := hs .keys
  rw [h₁, h₂]

/-- A property of every child that carries over to the node holds of every node. -/
theorem ind {P : Config → Prop} (h : ∀ c : Config, (∀ s, ∀ d ∈ c.slot s, P d) → P c) (c : Config) :
    P c := by
  refine @Config.rec P (fun l => ∀ d ∈ l, P d) ?_ ?_ ?_ c
  · intro n cs ks hcs hks
    refine h _ fun s d hd => ?_
    cases s
    · exact hcs d hd
    · exact hks d hd
  · intro d hd
    cases hd
  · intro c l hc hl d hd
    rcases List.mem_cons.mp hd with rfl | hd
    · exact hc
    · exact hl d hd

/-! ## Places -/

/-- The child a step leads to. -/
def child? (c : Config) (s : Step) : Option Config := Keyed.get (·.name) s.name (c.slot s.slot)

/-- The node at a place. -/
def get? (c : Config) : Loc → Option Config
  | [] => some c
  | s :: l => (c.child? s).bind fun d => d.get? l

/-- The node with the child at a step changed. -/
def modifyChild (c : Config) (s : Step) (f : Config → Config) : Config :=
  c.withSlot s.slot (Keyed.modify (·.name) s.name f (c.slot s.slot))

/-- The tree with the node at a place changed. -/
def modify (c : Config) : Loc → (Config → Config) → Config
  | [], f => f c
  | s :: l, f => c.modifyChild s fun d => d.modify l f

end Config

/-! ## Node predicates and searches -/

namespace Config

/-- `IsKeyConfig`. -/
def isKeyConfig (c : Config) : Bool := !c.keys.isEmpty && c.keyConfig

/-- `IsLeaf`. -/
def isLeaf (c : Config) : Bool :=
  (c.keys.isEmpty && c.configs.isEmpty) || (c.entry.map fun e => e.kind == .leaf).getD false

/-- `IsContainer`. -/
def isContainer (c : Config) : Bool := (c.entry.map Entry.isContainer).getD false

/-- `IsValueLeaf`. -/
def isValueLeaf (c : Config) : Bool := c.isLeaf && !c.isKeyConfig

/-- `IsPresenceContainer`. -/
def isPresence (c : Config) : Bool := (c.entry.map isPresenceContainer).getD false

/-- `HasDir`. -/
def hasDir (c : Config) : Bool :=
  !c.configs.isEmpty || !c.keys.isEmpty || c.keyConfig || c.entry.isNone

/-- `Empty`. -/
def isEmpty (c : Config) : Bool := c.configs.isEmpty && c.keys.isEmpty

/-- `lookup`. -/
def lookup (c : Config) (name : String) : Option Config := c.child? ⟨.configs, name⟩

/-- `lookupKeyShallow`, without the receiver it also returns. -/
def lookupKeyShallow (c : Config) (key : String) : Option Config := c.child? ⟨.keys, key⟩

/-- `lookupKey` on the node at `loc`: the place of the node whose `Keys` hold the
key, or of the node itself, and the place of the key if there is one. -/
def lookupKey (root : Config) (loc : Loc) (key : String) : Loc × Option Loc :=
  match root.get? loc with
  | none => (loc, none)
  | some c =>
    if c.isKeyConfig then
      match root.get? loc.dropLast with
      | none => (loc, none)
      | some parent =>
        match parent.keys.find? fun p => (p.lookupKeyShallow key).isSome with
        | some p =>
          (loc.dropLast ++ [⟨.keys, p.name⟩], some (loc.dropLast ++ [⟨.keys, p.name⟩, ⟨.keys, key⟩]))
        | none => (loc, none)
    else
      match c.lookupKeyShallow key with
      | some _ => (loc, some (loc ++ [⟨.keys, key⟩]))
      | none => (loc, none)

/-- The loop of `LookupByPath`, from the node at `loc`. -/
def lookupFrom (root : Config) (loc : Loc) : List String → Option Loc
  | [] => some loc
  | p :: path =>
    match (root.get? loc).bind fun c => c.lookup p with
    | some _ => lookupFrom root (loc ++ [⟨.configs, p⟩]) path
    | none =>
      match (lookupKey root loc p).2 with
      | some next => lookupFrom root next path
      | none => none

/-- `LookupByPath` on the root. -/
def lookupByPath (root : Config) (path : List String) : Option Loc := lookupFrom root [] path

end Config

/-! ## Changing the tree -/

/-- `strconv.Atoi`: the decimal digits after an optional sign, in the range of
a 64-bit integer. -/
def atoi (s : String) : Option Int :=
  let digits : List Char → Option Nat := fun ds =>
    if ds.isEmpty || ds.any fun c => !c.isDigit then none
    else some (ds.foldl (fun n c => 10 * n + (c.toNat - '0'.toNat)) 0)
  match s.toList with
  | '-' :: ds => (digits ds).bind fun n => if n ≤ 2 ^ 63 then some (-(n : Int)) else none
  | '+' :: ds => (digits ds).bind fun n => if n < 2 ^ 63 then some (n : Int) else none
  | ds => (digits ds).bind fun n => if n < 2 ^ 63 then some (n : Int) else none

/-- `Priority`. -/
def priority (c : Config) : Nat :=
  match (c.entry.map (·.name)).getD "" with
  | "vrf" => 150
  | "vlans" => 100
  | "interfaces" => 50
  | "interface" => 10
  | "subnet" => 5
  | "section-start-ip" => 1
  | "range-start-ip" => 1
  | _ => 0

/-- `ConfigSlice.Less`. -/
def configLess (a b : Config) : Bool :=
  if priority a ≠ priority b then priority b < priority a
  else
    match atoi a.name, atoi b.name with
    | some i, some j => i < j
    | _, _ => a.name < b.name

/-- `exclude`. -/
def exclude (before : List Config) (c : Node) : List Config :=
  before.filter fun n => n.case.isNone || n.case = c.case

/-- The node `Set` creates. -/
def newNode (e : Entry) : Node := { name := e.name, entry := some e, case := caseEntry e }

/-- The node `SetKey` creates. -/
def newKey (e : Entry) (key pre : String) : Node :=
  { name := key, entry := some e, keyConfig := true, keyPrefix := pre }

/-- A node without children. -/
def Node.bare (n : Node) : Config := { n with configs := [], keys := [] }

namespace Config

variable (env : Env)

/-- `Set`, on the receiver. The child it returns is the one named `e.Name`. -/
def set (c : Config) (e : Entry) : Config :=
  match c.lookup e.name with
  | some _ => c
  | none =>
    let n := newNode e
    let configs := c.configs ++ [n.bare]
    let configs := if n.case.isSome then exclude configs n else configs
    { c with configs := env.sort configLess configs }

/-- What `SetKey` does to the node it adds a key to. -/
def addKey (c : Config) (e : Entry) (key pre : String) : Config :=
  { c with
    keyOnlyConfig := c.keyOnlyConfig || c.keyConfig
    keys := env.sort configLess (c.keys ++ [(newKey e key pre).bare]) }

/-- `SetKey` on the node at `loc`: the tree and the place of the key. -/
def setKey (root : Config) (loc : Loc) (e : Entry) (key pre : String) : Config × Loc :=
  match lookupKey root loc key with
  | (_, some n) => (root, n)
  | (c, none) => (root.modify c fun d => d.addKey env e key pre, c ++ [⟨.keys, key⟩])

/-- The node with an empty `ValueList`. -/
def clearList (c : Config) : Config := { c with valueList := [] }

/-- `SetLeafList`, on the receiver. -/
def setLeafList (c : Config) (e : Entry) : Config :=
  (c.set env e).modifyChild ⟨.configs, e.name⟩ clearList

/-- `SetValue`. -/
def setValue (c : Config) (value : String) : Config := { c with value := value, hasValue := true }

/-- `SetListValue`. -/
def setListValue (c : Config) (value : String) : Config :=
  { c with valueList := c.valueList ++ [value], hasValue := true }

end Config

end OpenConfigd
