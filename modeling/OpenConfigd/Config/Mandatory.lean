import OpenConfigd.Config.Tree

/-!
# Mandatory nodes

`MandatoryCheck`, which `Commit` runs on the candidate first: the text of the
error it returns, or `none`.
-/

namespace OpenConfigd

namespace Config

/-- `mandatoryFindList`. -/
def mandatoryFindList (e : Entry) : Nat → Config → Option String
  | 0, c =>
    if c.configs.any fun d => (d.entry.map (·.path)) = some e.path then none
    else some ("Mandatory node '" ++ e.name ++ "' is necessary under " ++ c.name ++ ".")
  | depth + 1, c => c.keys.findSome? (mandatoryFindList e depth)

/-- The loop of `mandatoryCheck` over the entries of a list. -/
def mandatoryList (c : Config) (e : Entry) : Option String :=
  e.dir.findSome? fun ent =>
    (if ent.isList then
      ent.dir.findSome? fun leaf =>
        if isMandatory leaf && keyIncludeValue ent.key leaf.name then
          mandatoryFindList ent (keyLength e) c
        else none
    else none).orElse fun _ =>
    if ent.isLeaf && isMandatory ent && !keyIncludeValue e.key ent.name then
      mandatoryFindList ent (keyLength e) c
    else none

/-- `mandatoryCheck`, of a node with its entry. -/
def mandatoryNode (c : Config) (e : Entry) : Option String :=
  (if e.isList then c.mandatoryList e else none).orElse fun _ =>
  if e.isContainer && !isPresenceContainer e then
    e.dir.findSome? fun ent =>
      if ent.isLeaf && isMandatory ent then mandatoryFindList ent 0 c else none
  else none

mutual

/-- `MandatoryCheck`. -/
def mandatoryCheck : Config → Option String
  | ⟨n, configs, keys⟩ =>
    ((n.entry.bind (mandatoryNode ⟨n, configs, keys⟩)).orElse fun _ =>
      mandatoryCheckAll keys).orElse fun _ => mandatoryCheckAll configs

/-- The loops of `MandatoryCheck`. -/
def mandatoryCheckAll : List Config → Option String
  | [] => none
  | c :: cs => (mandatoryCheck c).orElse fun _ => mandatoryCheckAll cs

end

end Config

end OpenConfigd
