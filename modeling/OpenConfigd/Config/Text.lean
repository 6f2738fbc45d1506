import OpenConfigd.Config.Command

/-!
# The tree as text

The two writers of `config.go`: `writeCommand`, one `set` line for each command
node, and `write`, nested braces, the format of a saved configuration. Text is a
list of characters. A run that dereferences nil is `none`.
-/

namespace OpenConfigd

/-- `quote`. -/
def Node.quote (n : Node) : Option Bool := do
  let e ← n.entry
  let t ← e.type
  return t.kind == .string && t.pattern.isEmpty

/-- A value as the writers print it. -/
def Node.valueText (n : Node) (v : String) : Option String :=
  n.quote.map fun q => if q then "\"" ++ v ++ "\"" else v

/-- `strings.Join(strs, " ")`. -/
def joinSpace : List String → List Char
  | [] => []
  | [s] => s.toList
  | s :: strs => s.toList ++ ' ' :: joinSpace strs

namespace Config

/-- The values of a node as the writers print them. -/
def valueTexts (c : Config) : Option (List String) := c.pathValues.mapM c.valueText

/-! ## Commands -/

/-- `CommandLine` of the node at a place. -/
def commandLine (c : Config) : Loc → Option (List String)
  | [] => some []
  | s :: l =>
    match c.child? s with
    | none => some []
    | some d => do
      let vs ← d.valueTexts
      let strs ← d.commandLine l
      return d.name :: vs ++ strs

variable (env : Env)

mutual

/-- `writeCommand` of the node at `loc` of the tree `root`. -/
def writeCommand (root : Config) : Config → Loc → Option (List Char)
  | ⟨n, configs, keys⟩, loc => do
    let own ←
      if isCommand ⟨n, configs, keys⟩ then
        (root.commandLine loc).map fun strs =>
          env.fprintf ("set ".toList ++ joinSpace strs ++ ['\n'])
      else some []
    let ks ← writeCommandSlot root .keys keys loc
    let cs ← writeCommandSlot root .configs configs loc
    return own ++ ks ++ cs

/-- The loops of `writeCommand` and `WriteCommandTo`. -/
def writeCommandSlot (root : Config) (s : Slot) : List Config → Loc → Option (List Char)
  | [], _ => some []
  | c :: cs, loc => do
    let t ← writeCommand root c (loc ++ [⟨s, c.name⟩])
    let ts ← writeCommandSlot root s cs loc
    return t ++ ts

end

/-- `CommandString` of the root. -/
def commandString (root : Config) : Option (List Char) := writeCommand env root root []

/-- The file `WriteCommandTo` writes. -/
def writeCommandTo (root : Config) : Option (List Char) :=
  writeCommandSlot env root .configs root.configs []

/-! ## Braces -/

/-- `DisplayEntry`. -/
def displayEntry (c : Config) : Bool := c.keys.isEmpty

/-- `PrefixWrite`, with the parent of the node, the parent's parent and so on. -/
def prefixWrite (n : Node) : List Node → Option (List Char)
  | [] => if n.keyPrefix = "" then some [] else none
  | p :: up => do
    if n.keyPrefix = "" then return []
    let above ← if p.keyPrefix ≠ "" then prefixWrite p up else some []
    return above ++ p.name.toList ++ [' ']

/-- The indentation of a line. -/
def indent (depth : Nat) : List Char := List.replicate (depth * 4) ' '

mutual

/-- `write`, with the parent of the node, the parent's parent and so on. -/
def write : Config → List Node → Nat → Option (List Char)
  | ⟨n, configs, keys⟩, up, depth => do
    let c : Config := ⟨n, configs, keys⟩
    let keyFirst := !keys.isEmpty && n.keyConfig
    let brace := !(keys.isEmpty && configs.isEmpty) && !keyFirst
    let head ←
      if c.displayEntry then do
        let pre ← prefixWrite n up
        let vs ← c.valueTexts
        some (indent depth ++ pre ++ n.name.toList ++ vs.flatMap (fun v => ' ' :: v.toList) ++
          if brace then " \x7b\n".toList else if keyFirst then [] else ";\n".toList)
      else some []
    let ks ← writeSlot keys (n :: up) depth
    let cs ← writeSlot configs (n :: up) (depth + 1)
    let tail := if c.displayEntry && brace then indent depth ++ "\x7d\n".toList else []
    return head ++ ks ++ cs ++ tail

/-- The loops of `write`, `String` and `WriteTo`. -/
def writeSlot : List Config → List Node → Nat → Option (List Char)
  | [], _, _ => some []
  | c :: cs, up, depth => do
    let t ← write c up depth
    let ts ← writeSlot cs up depth
    return t ++ ts

end

/-- `String` of the root. -/
def string (root : Config) : Option (List Char) := writeSlot root.configs [root.toNode] 0

end Config

end OpenConfigd
