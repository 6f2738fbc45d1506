import OpenConfigd.Config.Text
import OpenConfigd.Yang.Parse

/-!
# Copies

`Copy`, which `Commit` and the discarding of changes use. It copies all fields
but `KeyOnlyConfig` and `Case`: a copy is what there is to see of the tree
(`copy_eq_seen`). The searches of `SetKey` and `ParseDelete` and the two text
writers look at nothing else.
-/

namespace OpenConfigd

namespace Config

mutual

/-- `Copy`. -/
def copy : Config → Config
  | ⟨n, configs, keys⟩ =>
    ⟨{ name := n.name, entry := n.entry, keyConfig := n.keyConfig, hasValue := n.hasValue,
       value := n.value, valueList := n.valueList, keyPrefix := n.keyPrefix },
      copyAll configs, copyAll keys⟩

/-- The loops of `Copy`. -/
def copyAll : List Config → List Config
  | [] => []
  | c :: cs => copy c :: copyAll cs

end

end Config

/-! ## What there is to see of a tree -/

/-- The fields of a node without its marks for `Delete`, `JsonMarshal` and `exclude`. -/
def Node.seen (n : Node) : Node := { n with keyOnlyConfig := false, case := none }

namespace Config

mutual

/-- The tree without the marks of its nodes. -/
def seen : Config → Config
  | ⟨n, configs, keys⟩ => ⟨n.seen, seenAll configs, seenAll keys⟩

/-- The trees without the marks of their nodes. -/
def seenAll : List Config → List Config
  | [] => []
  | c :: cs => seen c :: seenAll cs

end

mutual

theorem copy_eq_seen : ∀ c : Config, c.copy = c.seen
  | ⟨n, configs, keys⟩ => by
    rw [copy, seen, copyAll_eq_seenAll configs, copyAll_eq_seenAll keys]
    rfl

theorem copyAll_eq_seenAll : ∀ cs : List Config, copyAll cs = seenAll cs
  | [] => by rw [copyAll, seenAll]
  | c :: cs => by rw [copyAll, seenAll, copy_eq_seen c, copyAll_eq_seenAll cs]

end

@[simp] theorem copy_toNode (c : Config) : c.copy.toNode = c.toNode.seen := by
  obtain ⟨n, configs, keys⟩ := c
  rfl

theorem copyAll_eq_map (cs : List Config) : copyAll cs = cs.map copy := by
  induction cs with
  | nil => rfl
  | cons c cs ih => rw [copyAll, List.map_cons, ih]

theorem slot_copy (c : Config) (s : Slot) : c.copy.slot s = (c.slot s).map Config.copy := by
  obtain ⟨n, configs, keys⟩ := c
  cases s <;> exact copyAll_eq_map _

@[simp] theorem copy_name (c : Config) : c.copy.name = c.name := by
  obtain ⟨n, configs, keys⟩ := c
  rfl

theorem copy_case (c : Config) : c.copy.case = none := by
  obtain ⟨n, configs, keys⟩ := c
  rfl

/-- The copy of a copy is the copy. -/
theorem copy_copy (c : Config) : c.copy.copy = c.copy := by
  induction c using Config.ind with
  | h c ih =>
    refine Config.ext' ?_ fun s => ?_
    · rw [copy_toNode, copy_toNode]
      rfl
    · rw [slot_copy, slot_copy, List.map_map]
      exact List.map_congr_left fun d hd => ih s d hd

theorem isEmpty_slot_copy (c : Config) :
    c.copy.configs.isEmpty = c.configs.isEmpty ∧ c.copy.keys.isEmpty = c.keys.isEmpty := by
  have hslot (s : Slot) : (c.copy.slot s).isEmpty = (c.slot s).isEmpty := by
    rw [slot_copy, List.isEmpty_map]
  exact ⟨hslot .configs, hslot .keys⟩

theorem child?_copy (c : Config) (s : Step) : c.copy.child? s = (c.child? s).map copy := by
  rw [child?, child?, Keyed.get, Keyed.get, slot_copy, List.find?_map]
  congr 2
  funext d
  simp only [Function.comp_apply, copy_name]

theorem get?_copy (c : Config) (l : Loc) : c.copy.get? l = (c.get? l).map copy := by
  induction l generalizing c with
  | nil => rfl
  | cons s l ih =>
    rw [get?_cons, get?_cons, child?_copy]
    cases c.child? s with
    | none => rfl
    | some d => exact ih d

/-! ## Searches -/

theorem isKeyConfig_copy (c : Config) : c.copy.isKeyConfig = c.isKeyConfig := by
  rw [isKeyConfig, isKeyConfig, c.isEmpty_slot_copy.2, copy_toNode]
  rfl

theorem lookupKey_copy (root : Config) (loc : Loc) (key : String) :
    lookupKey root.copy loc key = lookupKey root loc key := by
  have hshallow (c : Config) : (c.copy.lookupKeyShallow key).isSome = (c.lookupKeyShallow key).isSome := by
    rw [lookupKeyShallow, lookupKeyShallow, child?_copy, Option.isSome_map]
  rw [lookupKey, lookupKey, get?_copy, get?_copy]
  cases root.get? loc with
  | none => rfl
  | some c =>
    simp only [Option.map_some, isKeyConfig_copy]
    split
    · cases root.get? loc.dropLast with
      | none => rfl
      | some parent =>
        have hfind : parent.copy.keys.find? (fun p => (p.lookupKeyShallow key).isSome) =
            (parent.keys.find? fun p => (p.lookupKeyShallow key).isSome).map copy := by
          rw [show parent.copy.keys = parent.keys.map copy from slot_copy parent .keys, List.find?_map]
          congr 2
          funext p
          exact hshallow p
        simp only [Option.map_some, hfind]
        cases parent.keys.find? fun p => (p.lookupKeyShallow key).isSome with
        | none => rfl
        | some p => simp only [Option.map_some, copy_name]
    · have := hshallow c
      cases hc : c.copy.lookupKeyShallow key <;> cases hd : c.lookupKeyShallow key <;>
        rw [hc, hd] at this <;> first | rfl | cases this

theorem hasDir_copy (c : Config) : c.copy.hasDir = c.hasDir := by
  rw [hasDir, hasDir, c.isEmpty_slot_copy.1, c.isEmpty_slot_copy.2, copy_toNode]
  rfl

theorem matchConfigAt_copy (root : Config) (loc : Loc) (str : String) (s : YMatchState) :
    matchConfigAt root.copy loc str s = matchConfigAt root loc str s := by
  have hfold (slot : Slot) (cs : List Config) (s : YMatchState) :
      (cs.map copy).foldl (fun s d => matchConfig (loc ++ [⟨slot, d.name⟩]) d.name str s) s =
        cs.foldl (fun s d => matchConfig (loc ++ [⟨slot, d.name⟩]) d.name str s) s := by
    rw [List.foldl_map]
    simp only [copy_name]
  rw [matchConfigAt, matchConfigAt, matchConfigDir, matchConfigDir, matchConfigValue,
    matchConfigValue, get?_copy]
  cases root.get? loc with
  | none => rfl
  | some c =>
    simp only [Option.map_some, hasDir_copy, hfold, copy_toNode,
      show c.copy.configs = c.configs.map copy from slot_copy c .configs,
      show c.copy.keys = c.keys.map copy from slot_copy c .keys]
    rfl

theorem compConfigAt_copy (root : Config) (loc : Loc) (index : Nat) :
    compConfigAt root.copy loc index = compConfigAt root loc index := by
  rw [compConfigAt, compConfigAt, get?_copy]
  cases root.get? loc with
  | none => rfl
  | some c =>
    have hnames : (c.copy.configs ++ c.copy.keys).map (fun d => ({ name := d.name } : Comp)) =
        (c.configs ++ c.keys).map fun d => { name := d.name } := by
      rw [show c.copy.configs = c.configs.map copy from slot_copy c .configs,
        show c.copy.keys = c.keys.map copy from slot_copy c .keys, ← List.map_append, List.map_map]
      exact List.map_congr_left fun d _ => by rw [Function.comp_apply, copy_name]
    simp only [Option.map_some, hasDir_copy, hnames, copy_toNode]
    rfl

/-! ## Text -/

theorem isValueLeaf_copy (c : Config) : c.copy.isValueLeaf = c.isValueLeaf := by
  rw [isValueLeaf, isValueLeaf, isKeyConfig_copy, isLeaf, isLeaf, c.isEmpty_slot_copy.1,
    c.isEmpty_slot_copy.2, copy_toNode]
  rfl

theorem isPresence_copy (c : Config) : c.copy.isPresence = c.isPresence := by
  rw [isPresence, isPresence, copy_toNode]
  rfl

theorem isCommand_copy (c : Config) : c.copy.isCommand = c.isCommand := by
  rw [isCommand, isCommand, isValueLeaf_copy, isPresence_copy]

theorem valueTexts_copy (c : Config) : c.copy.valueTexts = c.valueTexts := by
  obtain ⟨n, configs, keys⟩ := c
  rfl

theorem commandLine_copy (c : Config) (loc : Loc) : c.copy.commandLine loc = c.commandLine loc := by
  induction loc generalizing c with
  | nil => rfl
  | cons s loc ih =>
    rw [commandLine, commandLine, child?_copy]
    cases hd : c.child? s with
    | none => rfl
    | some d => simp only [Option.map_some, ih, valueTexts_copy, copy_name]

variable {env : Env}

mutual

theorem writeCommand_copy (root : Config) : ∀ (c : Config) (loc : Loc),
    writeCommand env root.copy c.copy loc = writeCommand env root c loc
  | ⟨n, configs, keys⟩, loc => by
    have hcmd := isCommand_copy ⟨n, configs, keys⟩
    rw [copy] at hcmd ⊢
    rw [writeCommand, writeCommand, hcmd, commandLine_copy, writeCommandSlot_copy root .keys keys,
      writeCommandSlot_copy root .configs configs]

theorem writeCommandSlot_copy (root : Config) (s : Slot) : ∀ (cs : List Config) (loc : Loc),
    writeCommandSlot env root.copy s (copyAll cs) loc = writeCommandSlot env root s cs loc
  | [], _ => rfl
  | ⟨n, configs, keys⟩ :: cs, loc => by
    rw [copyAll, writeCommandSlot, writeCommandSlot, writeCommand_copy root,
      writeCommandSlot_copy root s cs]
    rfl

end

/-- A copy prints the commands of the tree. -/
theorem writeCommandTo_copy (root : Config) : root.copy.writeCommandTo env = root.writeCommandTo env := by
  rw [writeCommandTo, writeCommandTo, ← writeCommandSlot_copy root .configs root.configs []]
  obtain ⟨n, configs, keys⟩ := root
  rfl

theorem prefixWrite_seen (n : Node) (up : List Node) :
    prefixWrite n.seen (up.map Node.seen) = prefixWrite n up := by
  induction up generalizing n with
  | nil => rfl
  | cons p up ih =>
    rw [List.map_cons, prefixWrite, prefixWrite, ih]
    rfl

mutual

theorem write_copy : ∀ (c : Config) (up : List Node) (depth : Nat),
    write c.copy (up.map Node.seen) depth = write c up depth
  | ⟨n, configs, keys⟩, up, depth => by
    have hempty := isEmpty_slot_copy ⟨n, configs, keys⟩
    have hslots := writeSlot_copy keys (n :: up) depth
    have hslots' := writeSlot_copy configs (n :: up) (depth + 1)
    have hpre := prefixWrite_seen n up
    rw [copy] at hempty ⊢
    rw [write, write]
    simp only [displayEntry, hempty.1, hempty.2]
    simp only [List.map_cons, Node.seen] at hslots hslots' hpre
    simp only [hslots, hslots', hpre]
    rfl

theorem writeSlot_copy : ∀ (cs : List Config) (up : List Node) (depth : Nat),
    writeSlot (copyAll cs) (up.map Node.seen) depth = writeSlot cs up depth
  | [], _, _ => rfl
  | c :: cs, up, depth => by
    rw [copyAll, writeSlot, writeSlot, write_copy c, writeSlot_copy cs]

end

/-- A copy prints the text of the tree. -/
theorem string_copy (root : Config) : root.copy.string = root.string := by
  rw [string, string, ← writeSlot_copy root.configs [root.toNode] 0]
  obtain ⟨n, configs, keys⟩ := root
  rfl

theorem commandString_copy (root : Config) : root.copy.commandString env = root.commandString env :=
  writeCommand_copy root root []

end Config

end OpenConfigd
