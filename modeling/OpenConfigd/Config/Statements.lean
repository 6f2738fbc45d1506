import OpenConfigd.Config.LoadSafe
import OpenConfigd.Config.Quoting
import OpenConfigd.Config.Replay

/-!
# What a file does to the candidate

`LoadConfig` is a stack machine on items: `commands` lists what it hands to `Parse`, and the tree
it leaves is `replay` of that list.

* `loadItems_eq`: the loop is `replay` of the commands, with the result of the first ending item;
* `Statements.commands_eq`: on a list of statements the commands are those of its grammar;
* `loader_accepts`: `LoadConfig` returns nil whatever the braces do;
* `load_failed_iff`: a failed load keeps what the statements before the error did.
-/

namespace OpenConfigd

section

variable (env : Env)

/-- The grammar of the files `write` makes, blanks apart, with the commands a text stands for: a
statement is words and `;`, or words and a block. -/
inductive Statements : List Item → List (List String) → Prop
  | nil : Statements [] []
  | command {items rest : List Item} {ws : List String} {cmds : List (List String)} :
    ws ≠ [] → items.map (Item.word env) = ws.map some → Statements rest cmds →
    Statements (items ++ .itemSemiColon :: rest) (ws :: cmds)
  | block {items body rest : List Item} {ws : List String} {inner cmds : List (List String)} :
    ws ≠ [] → items.map (Item.word env) = ws.map some → Statements body inner →
    Statements rest cmds →
    Statements (items ++ .itemLeftBrace :: (body ++ .itemRightBrace :: rest))
      (inner.map (ws ++ ·) ++ cmds)

/-- `Load` of a file, `none` one that cannot be read. -/
def load (ent : Entry) (file : Option (List UInt8)) (root : Config) : Option (Bool × Config) :=
  match file with
  | none => some (false, root)
  | some input => loadItems env ent (tokens env input) [] [] root

/-- The load of `(*ConfigComponent).Start` when `zeroConfig` is off: the revision `.0`, or after
an error the base file. -/
def loadAtStart (ent : Entry) (revision base : Option (List UInt8)) : Option (Bool × Config) :=
  match load env ent revision {} with
  | none => none
  | some (true, root) => some (true, root)
  | some (false, root) => load env ent base root

/-- The text has a lexical error, which `LoadConfig` reports. -/
def lexicalError (input : List UInt8) : Bool :=
  (tokens env input).find? Item.ends = some .itemError

/-- No statement of the text before its lexical error begins with a word that selects an entry,
or one of them makes `Parse` panic. -/
def Idle (ent : Entry) (input : List UInt8) : Prop :=
  (∀ cmds ∈ commands env (tokens env input) [] [], (plan env cmds (.root ent)).isSome) →
    ∀ cmds ∈ commands env (tokens env input) [] [], calls env cmds (.root ent) = []

end

section

variable {env : Env} {ent : Entry}

/-! ## The loop as a replay -/

/-- The loop of `LoadConfig` is the replay of its commands. -/
theorem loadItems_eq (items : List Item) (s : List (List String)) (a : List String) (root : Config) :
    loadItems env ent items s a root = (items.find? Item.ends).bind fun item =>
      (replay env ent (commands env items s a) root).map fun tree => (item == .itemEOF, tree) := by
  induction items generalizing s a root with
  | nil => rfl
  | cons item items ih =>
    cases item with
    | itemError => rfl
    | itemEOF => rfl
    | itemSemiColon =>
      rw [loadItems, commands, List.find?_cons_of_neg (by simp [Item.ends])]
      simp only [ih, replay]
      cases parse env ent root (s ++ [a]).flatten <;> cases items.find? Item.ends <;> rfl
    | _ =>
      rw [loadItems, commands, List.find?_cons_of_neg (by simp [Item.ends])]
      exact ih _ _ root

/-- `Parse` carries out the calls of its plan. -/
theorem parse_calls {cmds : List String} {root : Config} : parse env ent root cmds =
    (plan env cmds (.root ent)).map fun r =>
      r.1.result (applyOps env (calls env cmds (.root ent)) (root, [])).1 := by
  rw [parse_eq_plan]
  cases hp : plan env cmds (.root ent) with
  | none => rfl
  | some r => rw [Option.map_some, Option.map_some, plan_calls hp]

/-- Replaying returns just if each command has a plan. -/
theorem replay_isSome_plan (cmdss : List (List String)) (root : Config) :
    (replay env ent cmdss root).isSome = true ↔ ∀ cmds ∈ cmdss, (plan env cmds (.root ent)).isSome := by
  induction cmdss generalizing root with
  | nil => simp [replay]
  | cons cmds cmdss ih =>
    rw [replay, parse_calls, List.forall_mem_cons]
    cases plan env cmds (.root ent) with
    | none => simp
    | some r => simpa using ih _

/-- So, for a schema whose leafrefs resolve, just if none is empty and each compares its numbers. -/
theorem replay_isSome (h : ent.All fun e => e.resolves env = true) (cmdss : List (List String))
    (root : Config) : (replay env ent cmdss root).isSome = true ↔
      [] ∉ cmdss ∧ ∀ cmds ∈ cmdss, comparable env cmds (.root ent) = true := by
  rw [replay_isSome_plan]
  constructor
  · intro hp
    exact ⟨fun hm => ((plan_isSome [] h).mp (hp [] hm)).1 rfl,
      fun cmds hm => ((plan_isSome cmds h).mp (hp cmds hm)).2⟩
  · rintro ⟨hne, hc⟩ cmds hm
    exact (plan_isSome cmds h).mpr ⟨fun he => hne (he ▸ hm), hc cmds hm⟩

/-! ## The grammar -/

/-- The words of a statement are collected. -/
theorem commands_words {items : List Item} {ws : List String}
    (h : items.map (Item.word env) = ws.map some) (rest : List Item) (s : List (List String))
    (a : List String) : commands env (items ++ rest) s a = commands env rest s (a ++ ws) := by
  induction items generalizing ws a with
  | nil =>
    have : ws = [] := by simpa using h.symm
    rw [this, List.append_nil, List.nil_append]
  | cons item items ih =>
    cases ws with
    | nil => cases h
    | cons w ws =>
      rw [List.map_cons, List.map_cons, List.cons.injEq] at h
      have hstep : commands env (item :: (items ++ rest)) s a =
          commands env (items ++ rest) s (a ++ [w]) := by
        cases item with
        | itemString val =>
          obtain rfl : String.ofList ((env.unquote val).getD val) = w := Option.some.inj h.1
          rfl
        | itemIdentifier val =>
          obtain rfl : String.ofList val = w := Option.some.inj h.1
          rfl
        | _ => cases h.1
      rw [List.cons_append, hstep, ih h.2, List.append_assoc, List.singleton_append]

/-- In an open block, the commands of a list of statements are those of the grammar after the
words of the block. -/
theorem Statements.commands_append {items : List Item} {cmds : List (List String)}
    (h : Statements env items cmds) (rest : List Item) (s : List (List String)) :
    commands env (items ++ rest) s [] =
      cmds.map (s.flatten ++ ·) ++ commands env rest s [] := by
  induction h generalizing rest s with
  | nil => rfl
  | command hne hws _ ih =>
    rw [List.append_assoc, List.cons_append, commands_words hws, commands, ih]
    simp
  | block hne hws _ _ ihb ihr =>
    rw [List.append_assoc, List.cons_append, List.append_assoc, List.cons_append,
      commands_words hws, commands, ihb, commands, List.dropLast_concat, ihr]
    simp [List.flatten_append, Function.comp_def]

/-- Blanks make no commands. -/
theorem commands_solid (items : List Item) (s : List (List String)) (a : List String) :
    commands env (items.filter Item.solid) s a = commands env items s a := by
  induction items generalizing s a with
  | nil => rfl
  | cons item items ih =>
    cases item <;> simp only [List.filter_cons, Item.solid, commands, ih, if_true, Bool.false_eq_true, if_false]

/-- The end of the text makes no command. -/
theorem commands_eof (items : List Item) (s : List (List String)) (a : List String) :
    commands env (items ++ [.itemEOF]) s a = commands env items s a := by
  induction items generalizing s a with
  | nil => rfl
  | cons item items ih => cases item <;> simp only [List.cons_append, commands, ih]

/-- The commands of a list of statements are those of the grammar. -/
theorem Statements.commands_eq {items : List Item} {cmds : List (List String)}
    (h : Statements env (items.filter Item.solid) cmds) : commands env items [] [] = cmds := by
  rw [← commands_solid, ← List.append_nil (items.filter Item.solid), h.commands_append]
  simp [commands]

/-- No command of the grammar is empty. -/
theorem Statements.ne_nil {items : List Item} {cmds : List (List String)}
    (h : Statements env items cmds) : [] ∉ cmds := by
  induction h with
  | nil => exact List.not_mem_nil
  | command hne _ _ ih =>
    rw [List.mem_cons, not_or]
    exact ⟨hne.symm, ih⟩
  | block hne _ _ _ _ ih =>
    rw [List.mem_append, not_or]
    refine ⟨fun hm => ?_, ih⟩
    obtain ⟨cmd, -, hc⟩ := List.mem_map.mp hm
    exact hne (List.append_eq_nil_iff.mp hc).1

/-- A list of statements begins with a word. -/
theorem Statements.head {item : Item} {items : List Item} {cmds : List (List String)}
    (h : Statements env (item :: items) cmds) : (item.word env).isSome = true := by
  have word {its : List Item} {ws : List String} {rest : List Item} (hne : ws ≠ [])
      (hws : its.map (Item.word env) = ws.map some) (he : item :: items = its ++ rest) :
      (item.word env).isSome = true := by
    cases its with
    | nil => exact absurd (by simpa using hws.symm) hne
    | cons it its =>
      obtain ⟨rfl, -⟩ := List.cons.inj he
      cases ws with
      | nil => cases hws
      | cons w ws =>
        have hw : item.word env = some w := (List.cons.inj hws).1
        rw [hw]
        rfl
  generalize he : item :: items = all at h
  cases h with
  | nil => cases he
  | command hne hws _ => exact word hne hws he
  | block hne hws _ _ => exact word hne hws he

/-- A list of statements ends with one. -/
theorem Statements.last {items : List Item} {cmds : List (List String)} (h : Statements env items cmds) :
    ∀ item ∈ items.getLast?, item = .itemSemiColon ∨ item = .itemRightBrace := by
  induction h with
  | nil => simp
  | @command its rest _ _ _ _ _ ih =>
    rw [List.getLast?_append, List.getLast?_cons, Option.some_or]
    cases hl : rest.getLast? with
    | none => simp
    | some item => simpa [hl] using ih
  | @block its body rest _ _ _ _ _ _ _ _ ih =>
    rw [List.getLast?_append, List.getLast?_cons, List.getLast?_append, List.getLast?_cons]
    cases hl : rest.getLast? with
    | none => simp
    | some item => simpa [hl] using ih

/-- On items that end regularly `LoadConfig` never returns an error. It returns nil just if `Parse`
returns on each command: for a schema whose leafrefs resolve, just if every `;` comes with a word,
its own or one of an open block, and each command compares its numbers. So it does not reject a list
of statements, and its commands are those of the grammar. -/
theorem loader_accepts (env : Env) (ent : Entry) (items : List Item)
    (hends : ∀ item ∈ items, item.ends = false) (root : Config) :
    (∀ tree, loadItems env ent (items ++ [.itemEOF]) [] [] root ≠ some (false, tree)) ∧
    (∀ tree, loadItems env ent (items ++ [.itemEOF]) [] [] root = some (true, tree) ↔
      replay env ent (commands env items [] []) root = some tree) ∧
    ((ent.All fun e => e.resolves env = true) →
      ((∃ tree, loadItems env ent (items ++ [.itemEOF]) [] [] root = some (true, tree)) ↔
        worded items [] 0 = true ∧
          ∀ cmds ∈ commands env items [] [], comparable env cmds (.root ent) = true)) ∧
    ∀ cmds, Statements env (items.filter Item.solid) cmds →
      commands env items [] [] = cmds ∧ worded items [] 0 = true := by
  have hfind : (items ++ [Item.itemEOF]).find? Item.ends = some .itemEOF := by
    rw [List.find?_append, List.find?_eq_none.mpr fun item hi => by simp [hends item hi]]
    rfl
  have hload : loadItems env ent (items ++ [.itemEOF]) [] [] root =
      (replay env ent (commands env items [] []) root).map fun tree => (true, tree) := by
    rw [loadItems_eq, hfind, commands_eof]
    rfl
  rw [hload]
  refine ⟨fun tree h => ?_, fun tree => by simp, fun hr => ?_, fun cmds h => ?_⟩
  · simp at h
  · have hw := @worded_commands env items [] []
    rw [List.map_nil, List.length_nil] at hw
    rw [hw, ← replay_isSome hr _ root, Option.isSome_iff_exists]
    simp
  · have hw := @worded_commands env items [] []
    rw [List.map_nil, List.length_nil, h.commands_eq] at hw
    exact ⟨h.commands_eq, hw.mpr h.ne_nil⟩

theorem loader_accepts_block :
    (∃ tree, loadItems .ascii interfacesSchema
      ([.itemIdentifier ['a'], .itemLeftBrace, .itemIdentifier ['b'], .itemSemiColon, .itemRightBrace] ++
        [.itemEOF]) [] [] {} = some (true, tree)) ∧
    commands .ascii [.itemIdentifier ['a'], .itemLeftBrace, .itemIdentifier ['b'], .itemSemiColon,
      .itemRightBrace] [] [] = [["a", "b"]] :=
  let h := loader_accepts .ascii interfacesSchema
    [.itemIdentifier ['a'], .itemLeftBrace, .itemIdentifier ['b'], .itemSemiColon, .itemRightBrace]
    (by decide) {}
  ⟨(h.2.2.1 interfacesSchema_resolves).mpr (by decide),
    (h.2.2.2 [["a", "b"]] (@Statements.block .ascii [.itemIdentifier ['a']] _ [] ["a"] [["b"]] []
      (by simp) rfl
      (@Statements.command .ascii [.itemIdentifier ['b']] [] ["b"] [] (by simp) rfl .nil) .nil)).1⟩

/-- A brace that closes nothing and words that no `;` ends are accepted. -/
theorem loader_accepts_unbalanced :
    (¬ ∀ (items : List Item) (root : Config), (∀ item ∈ items, item.ends = false) →
      ((∃ tree, loadItems .ascii interfacesSchema (items ++ [.itemEOF]) [] [] root = some (true, tree)) ↔
        ∃ cmds, Statements .ascii (items.filter Item.solid) cmds)) ∧
    ∀ items ∈ [[.itemRightBrace], [.itemLeftBrace], [.itemIdentifier ['a']]],
      (∃ tree, loadItems .ascii interfacesSchema (items ++ [.itemEOF]) [] [] {} = some (true, tree)) ∧
        ¬ ∃ cmds, Statements .ascii (items.filter Item.solid) cmds := by
  have hrun : ∀ items ∈ [[Item.itemRightBrace], [.itemLeftBrace], [.itemIdentifier ['a']]],
      (∃ tree, loadItems .ascii interfacesSchema (items ++ [.itemEOF]) [] [] {} = some (true, tree)) ∧
        ¬ ∃ cmds, Statements .ascii (items.filter Item.solid) cmds := by
    simp only [List.forall_mem_cons, List.not_mem_nil, false_implies, implies_true, and_true]
    refine ⟨⟨⟨{}, rfl⟩, ?_⟩, ⟨⟨{}, rfl⟩, ?_⟩, ⟨⟨{}, rfl⟩, ?_⟩⟩
    · rintro ⟨cmds, hs⟩
      exact absurd hs.head (by decide)
    · rintro ⟨cmds, hs⟩
      exact absurd hs.head (by decide)
    · rintro ⟨cmds, hs⟩
      exact absurd (hs.last (.itemIdentifier ['a']) rfl) (by decide)
  refine ⟨fun h => ?_, hrun⟩
  obtain ⟨hload, hnot⟩ := hrun [.itemRightBrace] List.mem_cons_self
  exact hnot ((h [.itemRightBrace] {} (by decide)).mp hload)

/-! ## A load that fails -/

/-- A root with children keeps some when the change of a node does. -/
theorem Config.modify_configs_ne {f : Config → Config} {c : Config}
    (hf : ∀ d : Config, d.configs ≠ [] → (f d).configs ≠ []) (loc : Loc) (h : c.configs ≠ []) :
    (c.modify loc f).configs ≠ [] := by
  cases loc with
  | nil => exact hf c h
  | cons s l =>
    obtain ⟨slot, name⟩ := s
    cases slot with
    | keys => exact h
    | configs =>
      have hm : Keyed.modify (fun d : Config => d.name) name (fun d => d.modify l f) c.configs ≠ [] :=
        mt Keyed.modify_eq_nil.mp h
      exact hm

theorem Config.set_configs_ne (c : Config) (e : Entry) : (c.set env e).configs ≠ [] := by
  cases hn : c.lookup e.name with
  | some d =>
    rw [Config.set_of_some hn]
    exact List.ne_nil_of_mem (Config.child?_mem hn)
  | none => exact List.ne_nil_of_mem ((Config.mem_set hn).mpr (.inr rfl))

theorem Config.setLeafList_configs_ne (c : Config) (e : Entry) : (c.setLeafList env e).configs ≠ [] :=
  mt Keyed.modify_eq_nil.mp (c.set_configs_ne e)

theorem Op.apply_configs_ne (op : Op) {root : Config} (h : root.configs ≠ []) (loc : Loc) :
    (op.apply env (root, loc)).1.configs ≠ [] := by
  cases op with
  | set e => exact Config.modify_configs_ne (fun d _ => d.set_configs_ne e) loc h
  | setLeafList e => exact Config.modify_configs_ne (fun d _ => d.setLeafList_configs_ne e) loc h
  | setKey e key pre =>
    rw [Op.apply, Config.setKey]
    split
    · exact h
    · exact Config.modify_configs_ne (f := fun d => d.addKey env e key pre) (fun _ hd => hd) _ h
  | setValue v => exact Config.modify_configs_ne (f := fun d => d.setValue v) (fun _ hd => hd) loc h
  | setListValue v =>
    exact Config.modify_configs_ne (f := fun d => d.setListValue v) (fun _ hd => hd) loc h

theorem applyOps_configs_ne (ops : List Op) {root : Config} (h : root.configs ≠ []) (loc : Loc) :
    (applyOps env ops (root, loc)).1.configs ≠ [] := by
  induction ops generalizing root loc with
  | nil => exact h
  | cons op ops ih => exact ih (op.apply_configs_ne h loc) _

/-- The call for the first word of a command makes a child of the root. -/
theorem Cursor.op_configs_ne (e : Entry) (str : String) (root : Config) :
    (((Cursor.root ent).op e str).apply env (root, [])).1.configs ≠ [] := by
  by_cases hl : entryNextState e = .stateLeafList
  · have hop : (Cursor.root ent).op e str = .setLeafList e := if_pos hl
    rw [hop]
    exact root.setLeafList_configs_ne e
  · have hop : (Cursor.root ent).op e str = .set e := if_neg hl
    rw [hop]
    exact root.set_configs_ne e

/-- A command whose first word selects an entry leaves the root with a child. -/
theorem calls_configs_ne {cmds : List String} (hc : calls env cmds (.root ent) ≠ []) (root : Config) :
    (applyOps env (calls env cmds (.root ent)) (root, [])).1.configs ≠ [] := by
  cases cmds with
  | nil => exact absurd rfl hc
  | cons str cmds =>
    rw [calls] at hc ⊢
    split at hc
    · rename_i e m hsel
      exact applyOps_configs_ne _ (Cursor.op_configs_ne e str root) _
    · exact absurd rfl hc

/-- Commands without calls change nothing. -/
theorem replay_idle {cmdss : List (List String)} (h : ∀ cmds ∈ cmdss, calls env cmds (.root ent) = [])
    {root tree : Config} (hr : replay env ent cmdss root = some tree) : tree = root := by
  induction cmdss generalizing root with
  | nil => exact (Option.some.inj hr).symm
  | cons cmds cmdss ih =>
    rw [List.forall_mem_cons] at h
    rw [replay, parse_calls, h.1] at hr
    cases hp : plan env cmds (.root ent) with
    | none =>
      rw [hp] at hr
      cases hr
    | some r =>
      rw [hp] at hr
      exact ih h.2 hr

theorem replay_configs_ne {cmdss : List (List String)} {root tree : Config} (h : root.configs ≠ [])
    (hr : replay env ent cmdss root = some tree) : tree.configs ≠ [] := by
  induction cmdss generalizing root with
  | nil =>
    rw [← Option.some.inj hr]
    exact h
  | cons cmds cmdss ih =>
    rw [replay, parse_calls] at hr
    cases hp : plan env cmds (.root ent) with
    | none =>
      rw [hp] at hr
      cases hr
    | some r =>
      rw [hp] at hr
      exact ih (applyOps_configs_ne _ h []) hr

/-- On the empty tree, commands that change nothing have no calls. -/
theorem calls_of_replay_empty {cmdss : List (List String)} (hr : replay env ent cmdss {} = some {}) :
    ∀ cmds ∈ cmdss, calls env cmds (.root ent) = [] := by
  induction cmdss with
  | nil => exact fun _ h => absurd h List.not_mem_nil
  | cons cmds cmdss ih =>
    rw [replay, parse_calls] at hr
    cases hp : plan env cmds (.root ent) with
    | none =>
      rw [hp] at hr
      cases hr
    | some r =>
      rw [hp] at hr
      by_cases hc : calls env cmds (.root ent) = []
      · rw [hc] at hr
        exact List.forall_mem_cons.mpr ⟨hc, ih hr⟩
      · exact absurd rfl (replay_configs_ne (calls_configs_ne hc {}) hr)

/-- What `Load` returns with an error. -/
theorem load_error {file : Option (List UInt8)} {root tree : Config} :
    load env ent file root = some (false, tree) ↔
      (file = none ∧ tree = root) ∨ ∃ input, file = some input ∧ lexicalError env input = true ∧
        replay env ent (commands env (tokens env input) [] []) root = some tree := by
  cases file with
  | none =>
    have hl : load env ent none root = some (false, root) := rfl
    rw [hl]
    exact ⟨fun h => .inl ⟨rfl, (Prod.mk.inj (Option.some.inj h)).2.symm⟩, by
      rintro (⟨-, rfl⟩ | ⟨_, h, -⟩)
      · rfl
      · cases h⟩
  | some input =>
    have hl : load env ent (some input) root = loadItems env ent (tokens env input) [] [] root := rfl
    have hx : lexicalError env input = true ↔
        (tokens env input).find? Item.ends = some .itemError := decide_eq_true_iff
    simp only [hl, loadItems_eq, Option.some.injEq, exists_eq_left', hx, reduceCtorEq, false_and,
      false_or]
    cases hf : (tokens env input).find? Item.ends with
    | none => simp
    | some item =>
      have hends := List.find?_some hf
      cases item with
      | itemError => simp
      | itemEOF => simp
      | _ => cases hends

end

/-- When a failed load leaves the candidate as it was. For one candidate: just if the statements
before the lexical error have no net effect on it. For every candidate, and for the empty one of
the start, where the base file is then loaded alone: just if none of them begins with a word that
selects an entry. -/
theorem load_failed_iff (env : Env) (ent : Entry) :
    (∀ file root, (∀ tree, load env ent file root = some (false, tree) → tree = root) ↔
      ∀ input, file = some input → lexicalError env input = true →
        ∀ tree, replay env ent (commands env (tokens env input) [] []) root = some tree →
          tree = root) ∧
    (∀ file, (∀ root tree, load env ent file root = some (false, tree) → tree = root) ↔
      ∀ input, file = some input → lexicalError env input = true → Idle env ent input) ∧
    ∀ revision, (∀ tree, load env ent revision {} = some (false, tree) →
        ∀ base, loadAtStart env ent revision base = load env ent base {}) ↔
      ∀ input, revision = some input → lexicalError env input = true → Idle env ent input := by
  have hone (file : Option (List UInt8)) (root : Config) :
      (∀ tree, load env ent file root = some (false, tree) → tree = root) ↔
        ∀ input, file = some input → lexicalError env input = true →
          ∀ tree, replay env ent (commands env (tokens env input) [] []) root = some tree →
            tree = root := by
    constructor
    · exact fun h input hf hx tree hr => h tree (load_error.mpr (.inr ⟨input, hf, hx, hr⟩))
    · intro h tree hl
      rcases load_error.mp hl with ⟨-, rfl⟩ | ⟨input, hf, hx, hr⟩
      · rfl
      · exact h input hf hx tree hr
  have hidle {file : Option (List UInt8)}
      (h : ∀ input, file = some input → lexicalError env input = true → Idle env ent input)
      (root tree : Config) (hl : load env ent file root = some (false, tree)) : tree = root := by
    refine (hone file root).mpr (fun input hf hx tree hr => ?_) tree hl
    have hplan := (replay_isSome_plan _ root).mp (Option.isSome_iff_exists.mpr ⟨tree, hr⟩)
    exact replay_idle (h input hf hx hplan) hr
  have hempty {file : Option (List UInt8)}
      (h : ∀ tree, load env ent file {} = some (false, tree) → tree = {}) (input : List UInt8)
      (hf : file = some input) (hx : lexicalError env input = true) : Idle env ent input := by
    intro hplan
    obtain ⟨tree, hr⟩ := Option.isSome_iff_exists.mp ((replay_isSome_plan _ {}).mpr hplan)
    rw [(hone file {}).mp h input hf hx tree hr] at hr
    exact calls_of_replay_empty hr
  refine ⟨hone, fun file => ⟨fun h => hempty (h {}), hidle⟩, fun revision => ⟨fun h => ?_, ?_⟩⟩
  · refine hempty fun tree hl => ?_
    have hb := h tree hl none
    rw [loadAtStart, hl] at hb
    exact (Prod.mk.inj (Option.some.inj hb)).2
  · intro h tree hl base
    obtain rfl : tree = {} := hidle h {} tree hl
    rw [loadAtStart, hl]

/-- A file whose statement is followed by a character the lexer does not know: the load fails, and
the statement stays. At the start the base file is then loaded on top of it. -/
theorem load_failed_half :
    (¬ ∀ file root tree, load .ascii interfacesSchema file root = some (false, tree) → tree = root) ∧
    ¬ ∀ revision base tree, load .ascii interfacesSchema revision {} = some (false, tree) →
      loadAtStart .ascii interfacesSchema revision base = load .ascii interfacesSchema base {} := by
  have hfail : (load .ascii interfacesSchema (some (asciiBytes "interfaces interface a mtu 1500; $")) {}).map
      (fun r => (r.1, r.2.configs.length)) = some (false, 1) := by decide +kernel
  obtain ⟨⟨ok, tree⟩, hl, hr⟩ := Option.map_eq_some_iff.mp hfail
  obtain ⟨rfl, hlen⟩ := Prod.mk.inj hr
  refine ⟨fun h => ?_, fun h => ?_⟩
  · rw [h _ _ _ hl] at hlen
    cases hlen
  · have hb := h _ none tree hl
    rw [loadAtStart, hl] at hb
    obtain rfl : tree = {} := (Prod.mk.inj (Option.some.inj hb)).2
    cases hlen

end OpenConfigd
