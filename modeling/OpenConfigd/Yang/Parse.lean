import OpenConfigd.Config.Tree
import OpenConfigd.Yang.Match

/-!
# Parse and ParseDelete

The two parsers of `yang.go`, in both of their modes. Set mode (`complete` off)
changes the tree token by token, also when a later token fails; completion mode
follows the tree and collects completions. Both return the tree they leave. A
run that panics is `none`: `Parse` and `ParseDelete` index the token list without
looking at its length.
-/

namespace OpenConfigd

/-- The result codes of the `cmd` package. -/
inductive ParseCode where
  | parseNoMatch | parseAmbiguous | parseIncomplete | parseSuccess
  deriving DecidableEq, Repr, Inhabited

/-- The callbacks the parsers return. -/
inductive Callback where
  | yangSet | yangDelete
  deriving DecidableEq, Repr

/-- What `Parse` and `ParseDelete` return, and the tree they leave. -/
structure ParseResult where
  code : ParseCode
  callback : Option Callback := none
  comps : List Comp := []
  tree : Config

/-- `YMatchState`. -/
structure YMatchState extends MatchTally where
  state : ParseState := .stateDir
  trailing : Bool := false
  index : Nat := 0
  config : Option Loc := none
  first : Bool := false

/-- `EntryNextState`. -/
def entryNextState (e : Entry) : ParseState :=
  match e.kind with
  | .directory =>
    if hasKey e then .stateKey
    else if isPresenceContainer e then .stateDirMatched
    else .stateDir
  | .leaf => if e.isLeafList then .stateLeafList else .stateLeaf
  | _ => .stateDir

/-- `CompHasName`, folded over the completions of the tree. -/
def addComps (comps new : List Comp) : List Comp :=
  new.foldl (fun cs c => if cs.any fun d => d.name = c.name then cs else cs ++ [c]) comps

/-! ## Matching a token against the tree -/

/-- `MatchConfig`. -/
def matchConfig (config : Loc) (val str : String) (s : YMatchState) : YMatchState :=
  let m := matchKeyword str val
  if m = .typeNone then s
  else
    let s := if s.complete then { s with comps := s.comps ++ [{ name := val }] } else s
    if s.best.rank < m.rank then { s with best := m, config := some config, count := 1 }
    else if m = s.best then { s with count := s.count + 1 }
    else s

/-- `MatchConfigDir`. -/
def matchConfigDir (root : Config) (loc : Loc) (str : String) (s : YMatchState) : YMatchState :=
  match root.get? loc with
  | none => s
  | some c =>
    let s := c.configs.foldl (fun s d => matchConfig (loc ++ [⟨.configs, d.name⟩]) d.name str s) s
    c.keys.foldl (fun s d => matchConfig (loc ++ [⟨.keys, d.name⟩]) d.name str s) s

/-- `MatchConfigValue`. -/
def matchConfigValue (root : Config) (loc : Loc) (str : String) (s : YMatchState) : YMatchState :=
  match root.get? loc with
  | none => s
  | some c =>
    if (c.entry.map Entry.isLeafList).getD false then
      match c.valueList[s.index]? with
      | some v => matchConfig loc v str s
      | none => s
    else if s.index = 0 then matchConfig loc c.value str s
    else s

/-- `MatchConfigDir` or, on a node without children, `MatchConfigValue`. -/
def matchConfigAt (root : Config) (loc : Loc) (str : String) (s : YMatchState) : YMatchState :=
  if ((root.get? loc).map Config.hasDir).getD false then matchConfigDir root loc str s
  else { matchConfigValue root loc str s with index := s.index + 1 }

/-- `CompConfig` or, on a node without children, `CompValue`. -/
def compConfigAt (root : Config) (loc : Loc) (index : Nat) : List Comp :=
  match root.get? loc with
  | none => []
  | some c =>
    if c.hasDir then (c.configs ++ c.keys).map fun d => { name := d.name }
    else if (c.entry.map Entry.isLeafList).getD false then
      match c.valueList[index]? with
      | some v => [{ name := v }]
      | none => []
    else if index = 0 && !(c.entry.map isEmptyLeaf).getD false then [{ name := c.value }]
    else []

/-! ## Parse -/

section

variable (env : Env)

/-- The first switch of `Parse`: the token matched against the schema. -/
def matchState (ent : Entry) (state : ParseState) (index : Nat) (str : String) (s : MatchTally) :
    Option MatchTally :=
  match state with
  | .stateDir | .stateDirMatched => some (matchDir str ent s)
  | .stateKey => matchKey env ent index str s
  | .stateKeyMatched => some (matchKeyMatched ent str s)
  | .stateLeaf | .stateLeafList | .stateLeafListMatched => matchLeaf env ent str s
  | .stateLeafMatched => some s

/-- The second switch of `Parse`: the state after a unique match. -/
def nextState (ent matched : Entry) (state : ParseState) (index : Nat) : ParseState :=
  match state with
  | .stateDir | .stateDirMatched | .stateKeyMatched => entryNextState matched
  | .stateKey => if keyLength ent ≤ index + 1 then .stateKeyMatched else .stateKey
  | .stateLeaf => .stateLeafMatched
  | .stateLeafList => .stateLeafListMatched
  | .stateLeafMatched => .stateLeafMatched
  | .stateLeafListMatched => .stateLeafListMatched

/-- The schema cursor after a unique match. -/
def nextEnt (ent matched : Entry) (state : ParseState) : Entry :=
  match state with
  | .stateDir | .stateDirMatched | .stateKeyMatched => matched
  | _ => ent

/-- The key index after a unique match. -/
def nextIndex (state next : ParseState) (index : Nat) : Nat :=
  match state with
  | .stateDir | .stateDirMatched | .stateKeyMatched => if next = .stateKey then 0 else index
  | .stateKey => index + 1
  | _ => index

/-- The third switch of `Parse`: set mode changes the tree at `loc`, and moves on
to the node the `Set` function returned. -/
def setConfig (root : Config) (loc : Loc) (ent matched : Entry) (state next : ParseState)
    (str : String) : Config × Loc :=
  let setDir := (root.modify loc fun c => c.set env matched, loc ++ [⟨.configs, matched.name⟩])
  match next with
  | .stateDir | .stateDirMatched | .stateLeaf => setDir
  | .stateKey =>
    if state ≠ .stateKey then setDir else root.setKey env loc matched str ent.name
  | .stateKeyMatched => root.setKey env loc matched str ent.name
  | .stateLeafMatched => (root.modify loc fun c => c.setValue str, loc)
  | .stateLeafList =>
    (root.modify loc fun c => c.setLeafList env matched, loc ++ [⟨.configs, matched.name⟩])
  | .stateLeafListMatched => (root.modify loc fun c => c.setListValue str, loc)

/-- The completions `Parse` returns after the last token. -/
def trailingComps (ent : Entry) (next : ParseState) (index : Nat) : List Comp :=
  env.sort compLess <|
    match next with
    | .stateDir | .stateDirMatched => compDir ent
    | .stateLeaf | .stateLeafList | .stateLeafListMatched => compLeaf ent
    | .stateLeafMatched => []
    | .stateKey => compKey ent index
    | .stateKeyMatched => compKeyMatched ent

/-- The result code of `Parse` after the last token. -/
def endCode (best : MatchType) (next : ParseState) : ParseCode :=
  if best = .typePartial then .parseIncomplete
  else
    match next with
    | .stateLeafMatched | .stateLeafListMatched | .stateKeyMatched | .stateDirMatched => .parseSuccess
    | _ => .parseIncomplete

/-- `Parse`, with the state it is handed already created. -/
def parseFrom : List String → Entry → Config → Option Loc → YMatchState → Option ParseResult
  | [], _, _, _, _ => none
  | str :: cmds, ent, root, config, s₀ => do
    let t ← matchState env ent s₀.state s₀.index str
      { complete := s₀.complete, entry := s₀.entry }
    let s : YMatchState := { s₀ with toMatchTally := { t with comps := env.sort compLess t.comps } }
    -- Set completion: the tree's own completions, and its cursor.
    let cs : YMatchState :=
      match config with
      | some loc => if s.complete then matchConfigAt root loc str { complete := true } else {}
      | none => {}
    let s := if s.complete then { s with comps := addComps s.comps cs.comps } else s
    let config :=
      if s.complete then if cs.count = 1 ∧ cs.best = .typeExact then cs.config else none
      else config
    if s.count = 0 then return { code := .parseNoMatch, comps := s.comps, tree := root }
    if 1 < s.count then return { code := .parseAmbiguous, comps := s.comps, tree := root }
    let matched ← s.entry
    let next := nextState ent matched s.state s.index
    let ent' := nextEnt ent matched s.state
    let index := nextIndex s.state next s.index
    -- Config set mode.
    let (root, config) :=
      match config with
      | some loc =>
        if s.complete then (root, some loc)
        else
          let (root, loc) := setConfig env root loc ent' matched s.state next str
          (root, some loc)
      | none => (root, none)
    let next := if next = .stateLeaf ∧ isEmptyLeaf matched then .stateLeafMatched else next
    let s := { s with state := next, index := index }
    match cmds with
    | [] =>
      let comps :=
        if s.complete && s.trailing then
          match config with
          | some loc =>
            addComps (trailingComps env ent' next index) (compConfigAt root loc cs.index)
          | none => trailingComps env ent' next index
        else s.comps
      match endCode s.best next with
      | .parseSuccess =>
        return { code := .parseSuccess, callback := some .yangSet, comps := comps, tree := root }
      | code => return { code := code, comps := comps, tree := root }
    | cmd :: cmds => parseFrom (cmd :: cmds) ent' root config s

/-- `Parse` in set mode on a whole tree, as `YangSet`, `YangConfigPush` and
`LoadConfig` call it. -/
def parse (ent : Entry) (root : Config) (cmds : List String) : Option ParseResult :=
  parseFrom env cmds ent root (some []) {}

end

/-! ## Delete -/

/-- `(*Config).Delete` and `DeleteKey`: the node without the child. -/
def Config.deleteChild (c : Config) (s : Step) : Config :=
  c.withSlot s.slot ((c.slot s.slot).filter fun d => d.name ≠ s.name)

/-- The part of `Delete` before it turns to the parent, for the node at
`pre ++ [s]`. `Parent.Delete` only searches `Configs`, `Parent.DeleteKey` only
`Keys`. -/
def deleteStep (root : Config) (pre : Loc) (s : Step) (leaf : Bool) : Config :=
  let drop (root : Config) : Config := root.modify pre fun p => p.deleteChild s
  match root.get? (pre ++ [s]) with
  | none => root
  | some c =>
    match c.entry with
    | none => root
    | some e =>
      match e.kind, s.slot, leaf with
      | .leaf, .configs, true => if c.hasValue || isEmptyLeaf e then drop root else root
      | .leaf, .keys, true => if c.keyConfig then drop root else root
      | .leaf, .configs, false => root
      | .leaf, .keys, false => if c.isEmpty && c.keyOnlyConfig then drop root else root
      | .directory, .configs, true =>
        drop (root.modify (pre ++ [s]) fun c => { c with configs := [], keys := [] })
      | .directory, .configs, false => if c.isEmpty then drop root else root
      | .directory, .keys, true =>
        root.modify (pre ++ [s]) fun c => { c with configs := [], keys := [] }
      | .directory, .keys, false => root
      | _, _, _ => root

/-- `Delete`, upwards from the node whose place is `rev.reverse`. -/
def deleteUp (root : Config) : List Step → Bool → Config
  | [], _ => root
  | s :: rev, leaf =>
    let root' := deleteStep root rev.reverse s leaf
    if ((root'.get? rev.reverse).map Config.isPresence).getD false then root'
    else deleteUp root' rev false

/-- `Delete` of the node at `loc`. -/
def delete (root : Config) (loc : Loc) (leaf : Bool) : Config := deleteUp root loc.reverse leaf

/-! ## ParseDelete -/

/-- `ParseDelete`, with the state it is handed already created. -/
def parseDeleteFrom : List String → Config → Loc → YMatchState → Option ParseResult
  | [], _, _, _ => none
  | str :: cmds, root, loc, s₀ =>
    let s := matchConfigAt root loc str { s₀ with best := .typeNone, count := 0, comps := [] }
    if s.count = 0 then some { code := .parseNoMatch, comps := s.comps, tree := root }
    else if 1 < s.count then some { code := .parseAmbiguous, comps := s.comps, tree := root }
    else
      match s.config with
      | none => none
      | some loc =>
        match cmds with
        | [] =>
          let comps :=
            if s.complete && s.trailing && !s.first then compConfigAt root loc s.index else s.comps
          if s.best ≠ .typeExact then
            some { code := .parseIncomplete, comps := comps, tree := root }
          else
            match root.get? loc with
            | none => none
            | some c =>
              if c.isValueLeaf || c.isContainer then
                if s.complete then
                  some { code := .parseSuccess, callback := some .yangDelete, comps, tree := root }
                else if (c.entry.map (·.readOnlyConfig)).getD false then
                  some { code := .parseNoMatch, tree := root }
                else
                  some { code := .parseSuccess, callback := some .yangDelete, comps
                         tree := delete root loc true }
              else some { code := .parseIncomplete, comps := comps, tree := root }
        | cmd :: cmds => parseDeleteFrom (cmd :: cmds) root loc s

/-- `ParseDelete` on a whole tree, outside completion. -/
def parseDelete (root : Config) (cmds : List String) : Option ParseResult :=
  parseDeleteFrom cmds root [] {}

end OpenConfigd
