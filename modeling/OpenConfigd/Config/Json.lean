import OpenConfigd.Config.Tree

/-!
# JSON

`JsonMarshal` of `config.go`, which puts its text together by hand. Text is a
list of characters. A run that dereferences nil is `none`.
-/

namespace OpenConfigd

namespace Node

/-- `hasPrefix`. -/
def hasPrefix (n : Node) : Bool := n.keyPrefix ≠ ""

/-- `needQuote`. -/
def needQuote (n : Node) : Bool :=
  match n.entry.bind (·.type) with
  | none => true
  | some t =>
    match t.kind with
    | .int8 | .int16 | .int32 | .int64 | .uint8 | .uint16 | .uint32 | .uint64 | .bool => false
    | _ => true

/-- A value between quotes, if it needs them. -/
def jsonValue (n : Node) (value : String) : List Char :=
  if n.needQuote then '"' :: value.toList ++ ['"'] else value.toList

/-- `jsonQuotedString`. -/
def jsonQuotedString (n : Node) (name value : String) : List Char :=
  '"' :: name.toList ++ ['"', ':'] ++ n.jsonValue value

/-- The values of a leaf-list, with commas between them. -/
def jsonValues (n : Node) : List String → List Char
  | [] => []
  | [v] => n.jsonValue v
  | v :: vs => n.jsonValue v ++ ',' :: n.jsonValues vs

/-- `jsonMarshalLeafList`. -/
def jsonMarshalLeafList (n : Node) : List Char :=
  '"' :: n.name.toList ++ ['"', ':', '['] ++ n.jsonValues n.valueList ++ [']']

end Node

/-- `isConfigKeyNode`, of a node with an entry. -/
def isConfigKeyNode (e : Entry) : Bool := e.key ≠ ""

/-- `YEntryJson`. -/
def yEntryJson (e : Entry) : List Char :=
  match e.type with
  | none => []
  | some t => if t.kind = .empty then "true".toList else []

/-- The text `jsonMarshal` starts with. -/
def jsonHead (n parent : Node) (e : Entry) : List Char :=
  if isConfigKeyNode e then '"' :: n.name.toList ++ ['"', ':', ' ', '[']
  else if n.hasPrefix then
    (if parent.keyOnlyConfig then [] else ['{']) ++ n.jsonQuotedString e.name n.name
  else if n.value ≠ "" then n.jsonQuotedString n.name n.value
  else if n.valueList ≠ [] then n.jsonMarshalLeafList
  else '"' :: n.name.toList ++ ['"', ':'] ++ yEntryJson e

namespace Config

mutual

/-- `jsonMarshal`, with the parent of the node. -/
def jsonMarshal : Config → Node → Nat → Option (List Char)
  | ⟨n, configs, keys⟩, parent, pos => do
    let e ← n.entry
    let ks ← jsonMarshalSlot keys n (if n.keyOnlyConfig then 1 else 0)
    let cs ← jsonMarshalSlot configs n (if n.hasPrefix then 1 else 0)
    let body :=
      if !configs.isEmpty then (if n.hasPrefix then [] else ['{']) ++ cs ++ ['}']
      else if n.hasPrefix && (parent.keyOnlyConfig || keys.isEmpty) then ['}']
      else []
    let empty := if keys.isEmpty && configs.isEmpty && isPresenceContainer e then ['{', '}'] else []
    return (if pos ≠ 0 then [','] else []) ++ jsonHead n parent e ++ ks ++ body ++ empty ++
      if isConfigKeyNode e then [']'] else []

/-- The loops of `jsonMarshal`, from a position on. -/
def jsonMarshalSlot : List Config → Node → Nat → Option (List Char)
  | [], _, _ => some []
  | c :: cs, parent, pos => do
    let t ← jsonMarshal c parent pos
    let ts ← jsonMarshalSlot cs parent (pos + 1)
    return t ++ ts

end

theorem jsonMarshal_eq (n : Node) (configs keys : List Config) (parent : Node) (pos : Nat) :
    jsonMarshal ⟨n, configs, keys⟩ parent pos = do
      let e ← n.entry
      let ks ← jsonMarshalSlot keys n (if n.keyOnlyConfig then 1 else 0)
      let cs ← jsonMarshalSlot configs n (if n.hasPrefix then 1 else 0)
      let body :=
        if !configs.isEmpty then (if n.hasPrefix then [] else ['{']) ++ cs ++ ['}']
        else if n.hasPrefix && (parent.keyOnlyConfig || keys.isEmpty) then ['}']
        else []
      let empty := if keys.isEmpty && configs.isEmpty && isPresenceContainer e then ['{', '}'] else []
      return (if pos ≠ 0 then [','] else []) ++ jsonHead n parent e ++ ks ++ body ++ empty ++
        if isConfigKeyNode e then [']'] else [] := by
  rw [jsonMarshal]

theorem jsonMarshalSlot_nil (parent : Node) (pos : Nat) :
    jsonMarshalSlot [] parent pos = some [] := by
  rw [jsonMarshalSlot]

theorem jsonMarshalSlot_cons (c : Config) (cs : List Config) (parent : Node) (pos : Nat) :
    jsonMarshalSlot (c :: cs) parent pos = do
      let t ← jsonMarshal c parent pos
      let ts ← jsonMarshalSlot cs parent (pos + 1)
      return t ++ ts := by
  rw [jsonMarshalSlot]

/-- `JsonMarshal`. The comma before every child but the first is the one
`jsonMarshal` would put there. -/
def jsonMarshalTop (c : Config) : Option (List Char) := do
  if !c.keys.isEmpty then
    let ks ← jsonMarshalSlot c.keys c.toNode 0
    return '[' :: ks ++ [']']
  else
    let cs ← jsonMarshalSlot c.configs c.toNode 0
    return '{' :: cs ++ ['}']

end Config

end OpenConfigd
