import OpenConfigd.Config.Load
import OpenConfigd.Config.Replay

/-!
# The saved file describes the tree

`saved_roundtrip`: loading the text `String` writes rebuilds the tree. The loader
reads the text of a node as the statements in it, one for each node without
children (`Typed.write_load`), and a statement is the path of its node, so that
loading is a replay.
-/

namespace OpenConfigd

variable {env : Env} {ent : Entry}

/-- A nonempty string of identifier characters. -/
def Identifier (env : Env) (s : String) : Prop :=
  s ≠ "" ∧ ∀ c ∈ s.toList, isIdentifierPart env c = true

instance (env : Env) (s : String) : Decidable (Identifier env s) :=
  decidable_of_iff (s ≠ "" ∧ s.toList.all (isIdentifierPart env) = true)
    (and_congr_right fun _ => List.all_eq_true)

/-- A nonempty string that stands for itself between double quotes. -/
def Quotable (s : String) : Prop :=
  s ≠ "" ∧ ∀ c ∈ s.toList, c ≠ '"' ∧ c ≠ '\\' ∧ isControl c = false

instance (s : String) : Decidable (Quotable s) :=
  decidable_of_iff (s ≠ "" ∧ s.toList.all (fun c => decide (c ≠ '"' ∧ c ≠ '\\' ∧
    isControl c = false)) = true) (and_congr_right fun _ => by simp)

/-- `LoadConfig` at the start of an item, with its stack, its tokens and the tree. -/
def loadFrom (env : Env) (ent : Entry) (s : List (List String)) (a : List String) (root : Config)
    (text : List Char) : Option (Bool × Config) :=
  loadItems env ent (lex env .lexText [] text) s a root

/-! ## Items -/

section

variable {s : List (List String)} {a : List String} {root : Config} {c : Char} {rest : List Char}

theorem lex_text (c : Char) (rest : List Char) : lex env .lexText [] (c :: rest) =
    lexText env c fun state buf => lex env state buf rest := by
  rw [lex]

theorem isIdentifierPart_ascii (h : c.toNat < 128) : isIdentifierPart env c =
    (c.isAlpha || c.isDigit || c == '.' || c == '/' || c == '-' || c == ':' || c == '_') := by
  rw [isIdentifierPart, env.isLetter_ascii c h, env.isDigit_ascii c h]

/-- White space is no matter to the loader. -/
theorem loadItems_space (buf rest : List Char) :
    loadItems env ent (lex env .lexWhiteSpace buf rest) s a root =
      loadItems env ent (lex env .lexText [] rest) s a root := by
  induction rest generalizing buf with
  | nil => rfl
  | cons c rest ih =>
    rw [lex_text, lex]
    by_cases hc : isSpace c = true
    · have hne : c ≠ '"' ∧ c ≠ '{' ∧ c ≠ '}' ∧ c ≠ ';' ∧ c ≠ '#' := by
        refine ⟨?_, ?_, ?_, ?_, ?_⟩ <;> (rintro rfl; revert hc; decide)
      simp only [hc, if_true, lexText, hne, if_false]
      rw [ih, ih]
    · simp only [hc]
      rfl

theorem load_space (hc : isSpace c = true) :
    loadFrom env ent s a root (c :: rest) = loadFrom env ent s a root rest := by
  have hne : c ≠ '"' ∧ c ≠ '{' ∧ c ≠ '}' ∧ c ≠ ';' ∧ c ≠ '#' := by
    refine ⟨?_, ?_, ?_, ?_, ?_⟩ <;> (rintro rfl; revert hc; decide)
  rw [loadFrom, lex_text, lexText]
  simp only [hne, if_false, hc, if_true]
  exact loadItems_space _ _

theorem load_indent (depth : Nat) :
    loadFrom env ent s a root (Config.indent depth ++ rest) = loadFrom env ent s a root rest := by
  rw [Config.indent]
  generalize depth * 4 = k
  induction k with
  | zero => rfl
  | succ k ih =>
    rw [List.replicate_succ, List.cons_append, load_space (by decide), ih]

theorem load_leftBrace : loadFrom env ent s a root ('{' :: rest) =
    loadFrom env ent (s ++ [a]) [] root rest := by
  rw [loadFrom, lex_text]
  rfl

theorem load_rightBrace : loadFrom env ent s a root ('}' :: rest) =
    loadFrom env ent s.dropLast a root rest := by
  rw [loadFrom, lex_text]
  rfl

theorem load_semiColon : loadFrom env ent s a root (';' :: rest) =
    (parse env ent root (s ++ [a]).flatten).bind fun r => loadFrom env ent s [] r.tree rest := by
  rw [loadFrom, lex_text]
  rfl

/-- The character ends an identifier. -/
def Ends (env : Env) (rest : List Char) : Prop :=
  ∃ c cs, rest = c :: cs ∧ isIdentifierPart env c = false

theorem loadItems_identifier (w buf : List Char) (hw : ∀ c ∈ w, isIdentifierPart env c = true)
    (he : Ends env rest) :
    loadItems env ent (lex env .lexIdentifier buf (w ++ rest)) s a root =
      loadFrom env ent s (a ++ [String.ofList (buf ++ w)]) root rest := by
  induction w generalizing buf with
  | nil =>
    obtain ⟨c, cs, rfl, hc⟩ := he
    rw [List.nil_append, List.append_nil, lex, loadFrom, lex_text]
    simp only [hc, Bool.false_eq_true, if_false, loadItems]
  | cons c w ih =>
    rw [List.cons_append, lex]
    simp only [hw c List.mem_cons_self, if_true]
    rw [ih _ fun d hd => hw d (List.mem_cons_of_mem _ hd), List.append_assoc]
    rfl

/-- An identifier character starts an identifier. -/
theorem lexText_identifier (hc : isIdentifierPart env c = true)
    (next : LexState → List Char → List Item) : lexText env c next = next .lexIdentifier [c] := by
  have hne : c ≠ '"' ∧ c ≠ '{' ∧ c ≠ '}' ∧ c ≠ ';' ∧ c ≠ '#' := by
    refine ⟨?_, ?_, ?_, ?_, ?_⟩ <;>
      (rintro rfl; rw [isIdentifierPart_ascii (by decide)] at hc; revert hc; decide)
  have hsp : isSpace c = false := by
    by_contra hs
    have hs : isSpace c = true := by simpa using hs
    rw [isIdentifierPart, env.isLetter_space c hs, env.isDigit_space c hs] at hc
    have hmem : c ∈ ['.', '/', '-', ':', '_'] := by simpa [or_assoc] using hc
    have hall : ['.', '/', '-', ':', '_'].all (fun d => !isSpace d) = true := by decide
    have hns := List.all_eq_true.mp hall c hmem
    rw [hs] at hns
    cases hns
  rw [lexText]
  simp only [hne, if_false, hsp, hc, if_true, Bool.false_eq_true]

theorem load_identifier {w : String} (hw : Identifier env w) (he : Ends env rest) :
    loadFrom env ent s a root (w.toList ++ rest) = loadFrom env ent s (a ++ [w]) root rest := by
  obtain ⟨hne, hall⟩ := hw
  obtain ⟨c, cs, hcs⟩ : ∃ c cs, w.toList = c :: cs := by
    refine List.exists_cons_of_ne_nil fun h => hne ?_
    rw [← String.ofList_toList (s := w), h]
  rw [hcs] at hall
  rw [hcs, List.cons_append, loadFrom, lex_text, lexText_identifier (hall c List.mem_cons_self),
    loadItems_identifier cs [c] (fun d hd => hall d (List.mem_cons_of_mem _ hd)) he,
    List.singleton_append, ← hcs, String.ofList_toList]

theorem lex_string {v : List Char} (hv : ∀ c ∈ v, c ≠ '"' ∧ c ≠ '\\' ∧ isControl c = false)
    (buf : List Char) : lex env .lexString buf (v ++ '"' :: rest) =
      .itemString (buf ++ v ++ ['"']) :: lex env .lexText [] rest := by
  induction v generalizing buf with
  | nil =>
    rw [List.nil_append, List.append_nil, lex]
    rfl
  | cons c v ih =>
    obtain ⟨h₁, h₂, h₃⟩ := hv c List.mem_cons_self
    rw [List.cons_append, lex]
    simp only [h₁, h₂, h₃, if_false, Bool.false_eq_true]
    rw [ih (fun d hd => hv d (List.mem_cons_of_mem _ hd))]
    simp

theorem load_string {v : String} (hv : Quotable v) :
    loadFrom env ent s a root ('"' :: v.toList ++ '"' :: rest) =
      loadFrom env ent s (a ++ [v]) root rest := by
  rw [loadFrom, List.cons_append, lex_text]
  show loadItems env ent (lex env .lexString ['"'] (v.toList ++ '"' :: rest)) s a root = _
  rw [lex_string hv.2, loadItems, List.singleton_append, env.unquote_plain _ hv.2]
  simp only [Option.getD_some, String.ofList_toList]
  rfl

end

/-! ## Values -/

/-- The values of the node are such that the writer and the loader agree on them. -/
def Node.Printable (env : Env) (n : Node) : Prop :=
  (n.keyConfig = true → Identifier env n.name) ∧
    ∀ v ∈ n.values, if n.quote = some true then Quotable v else Identifier env v

instance (env : Env) (n : Node) : Decidable (n.Printable env) :=
  inferInstanceAs (Decidable ((_ → _) ∧ ∀ v ∈ n.values, _))

/-- A token selects a value only where the entry has a type. -/
theorem Cursor.Selects.type {cur : Cursor} {v : String} {e : Entry} (hs : cur.Selects env v e)
    (hst : cur.state = .stateLeaf ∨ cur.state = .stateLeafList) : cur.ent.type.isSome := by
  obtain ⟨m, hs⟩ := hs
  obtain ⟨l, hl, hp⟩ := Cursor.select_unique.mp hs
  obtain ⟨x, hx, -⟩ := hp.mem
  have hl' : leafAlternatives env cur.ent = some l := by
    refine (leafMatches_eq_some.mp (?_ : leafMatches env cur.ent v = some l)).1
    rcases hst with h | h <;> simpa only [Cursor.alternatives, h] using hl
  cases ht : cur.ent.type with
  | some t => rfl
  | none =>
    rw [leafAlternatives, ht] at hl'
    cases hl'
    cases hx

/-- A node with a value is a leaf, and its values match its type. -/
theorem Typed.values_select {T c : Config} {l : Loc} {cur : Cursor} (hT : Typed env (.root ent) T)
    (hw : T.walk (.root ent) l = some (cur, c)) {v : String} (hv : v ∈ c.toNode.values) :
    (cur.state = .stateLeaf ∨ cur.state = .stateLeafList) ∧ ∃ e, cur.Selects env v e := by
  have hcon := (hT.of_walk hw).content
  have hll := fun hs => Config.walk_leaf hw hs
  cases hst : cur.state <;> simp only [Content, hst] at hcon
  case stateLeaf =>
    obtain ⟨he, hl⟩ := hll (.inl hst)
    have hl' : cur.ent.isLeafList = false := by simpa [hst] using hl
    refine ⟨.inl rfl, ?_⟩
    rcases hcon.2 with ⟨h, -⟩ | ⟨h, e, hs⟩
    · simp [Node.values, he, hl', h] at hv
    · have : v = c.value := by simpa [Node.values, he, hl', h] using hv
      exact ⟨e, this ▸ hs⟩
  case stateLeafList =>
    obtain ⟨he, hl⟩ := hll (.inr hst)
    refine ⟨.inr rfl, hcon.2.1 v ?_⟩
    simpa [Node.values, he, hl.mpr hst] using hv
  all_goals simp [Node.values, hcon] at hv

theorem Typed.quote_isSome {T c : Config} {l : Loc} {cur : Cursor} (hT : Typed env (.root ent) T)
    (hw : T.walk (.root ent) l = some (cur, c)) {v : String} (hv : v ∈ c.toNode.values) :
    ∃ q, c.quote = some q := by
  obtain ⟨hst, e, hs⟩ := hT.values_select hw hv
  obtain ⟨t, ht⟩ := Option.isSome_iff_exists.mp (hs.type hst)
  have he := (Config.walk_leaf hw hst).1
  refine ⟨t.kind == .string && t.pattern.isEmpty, ?_⟩
  rw [Node.quote, he, Option.bind_eq_bind, Option.bind_some, ht]
  rfl

theorem mapM_valueText {n : Node} {q : Bool} (hq : n.quote = some q) (vs : List String) :
    vs.mapM n.valueText = some (vs.map fun v => if q then "\"" ++ v ++ "\"" else v) := by
  induction vs with
  | nil => rfl
  | cons v vs ih =>
    rw [List.mapM_cons, ih, Node.valueText, hq]
    rfl

section

variable {s : List (List String)} {a : List String} {root : Config} {rest : List Char}

theorem ends_space (rest : List Char) : Ends env (' ' :: rest) :=
  ⟨' ', rest, rfl, by rw [isIdentifierPart_ascii (by decide)]; decide⟩

/-- The loader reads the values of a node back. -/
theorem load_values {n : Node} {q : Bool} (hq : n.quote = some q) {vs : List String}
    (hv : ∀ v ∈ vs, if n.quote = some true then Quotable v else Identifier env v)
    (he : Ends env rest) :
    loadFrom env ent s a root ((vs.map fun v => if q then "\"" ++ v ++ "\"" else v).flatMap
      (fun v => ' ' :: v.toList) ++ rest) = loadFrom env ent s (a ++ vs) root rest := by
  induction vs generalizing a with
  | nil => simp
  | cons v vs ih =>
    have hv' := hv v List.mem_cons_self
    have ih' := ih (a := a ++ [v]) fun w hw => hv w (List.mem_cons_of_mem _ hw)
    rw [List.append_assoc, List.singleton_append] at ih'
    simp only [List.map_cons, List.flatMap_cons, List.cons_append, List.append_assoc]
    rw [load_space (by decide), ← ih']
    rw [hq] at hv'
    cases q with
    | true =>
      have hquote (t : List Char) : (if true = true then "\"" ++ v ++ "\"" else v).toList ++ t =
          '"' :: v.toList ++ '"' :: t := by
        simp [String.toList_append]
      rw [hquote, load_string (by simpa using hv')]
    | false =>
      simp only [Option.some.injEq, Bool.false_eq_true, if_false] at hv' ⊢
      refine load_identifier hv' ?_
      cases vs with
      | nil => exact he
      | cons w vs => exact ends_space _

/-- The loader reads words with a space after each. -/
theorem load_words {ws : List String} (hw : ∀ w ∈ ws, Identifier env w) :
    loadFrom env ent s a root (ws.flatMap (fun w => w.toList ++ [' ']) ++ rest) =
      loadFrom env ent s (a ++ ws) root rest := by
  induction ws generalizing a with
  | nil => simp
  | cons w ws ih =>
    have ih' := ih (a := a ++ [w]) fun v hv => hw v (List.mem_cons_of_mem _ hv)
    rw [List.append_assoc, List.singleton_append] at ih'
    simp only [List.flatMap_cons, List.append_assoc, List.cons_append, List.nil_append]
    rw [load_identifier (hw w List.mem_cons_self) (ends_space _), load_space (by decide), ← ih']

end

/-! ## Nodes -/

theorem replay_append (ps ps' : List (List String)) (S : Config) :
    replay env ent (ps ++ ps') S = (replay env ent ps S).bind (replay env ent ps') := by
  induction ps generalizing S with
  | nil => rfl
  | cons p ps ih =>
    rw [List.cons_append, replay, replay]
    cases parse env ent S p with
    | none => rfl
    | some r => exact ih r.tree

/-- The loader reads the text, below the path on its stack, as the statements of the
nodes. -/
def Reads (env : Env) (ent : Entry) (T : Config) (path : List String) (text : List Char)
    (ls : List Loc) : Prop :=
  ∀ s S rest, s.flatten = path → loadFrom env ent s [] S (text ++ rest) =
    (replay env ent (ls.map T.tokens) S).bind fun S' => loadFrom env ent s [] S' rest

section

variable {T c : Config} {path : List String} {text text' : List Char} {ls ls' : List Loc} {l : Loc}
  {cur : Cursor} {up : List Node} {depth : Nat}

theorem Reads.nil : Reads env ent T path [] [] := fun _ _ _ _ => rfl

theorem Reads.append (h : Reads env ent T path text ls) (h' : Reads env ent T path text' ls') :
    Reads env ent T path (text ++ text') (ls ++ ls') := by
  intro s S rest hs
  rw [List.append_assoc, h s S _ hs, List.map_append, replay_append]
  cases replay env ent (ls.map T.tokens) S with
  | none => rfl
  | some S' => exact h' s S' rest hs

/-- The children in a slice, each read as its statements. -/
theorem reads_slot {slot : Slot} {cs : List Config}
    (h : ∀ d ∈ cs, ∃ text, d.write up depth = some text ∧
      Reads env ent T path text (d.places Config.isEmpty (l ++ [⟨slot, d.name⟩]))) :
    ∃ text, Config.writeSlot cs up depth = some text ∧
      Reads env ent T path text (Config.placesSlot Config.isEmpty slot cs l) := by
  induction cs with
  | nil => exact ⟨[], rfl, .nil⟩
  | cons d cs ih =>
    obtain ⟨t, ht, hr⟩ := h d List.mem_cons_self
    obtain ⟨ts, hts, hrs⟩ := ih fun d hd => h d (List.mem_cons_of_mem _ hd)
    refine ⟨t ++ ts, ?_, by rw [Config.placesSlot]; exact hr.append hrs⟩
    rw [Config.writeSlot, ht, hts]
    rfl

theorem Node.Printable.nonempty (h : ∀ l n, T.node? l = some n → n.Printable env) :
    T.NonemptyValues := by
  intro l n hn v hv
  have := (h l n hn).2 v hv
  split at this
  · exact this.1
  · exact this.1

/-- The values of a node, written and read back. -/
theorem Typed.valueTexts_load (hT : Typed env (.root ent) T)
    (hp : ∀ l n, T.node? l = some n → n.Printable env)
    (hw : T.walk (.root ent) l = some (cur, c)) (hd : Done cur c) :
    ∃ vs, c.valueTexts = some vs ∧ (c.toNode.values = [] → vs = []) ∧
      ∀ s a S rest, Ends env rest → loadFrom env ent s a S (vs.flatMap (fun v => ' ' :: v.toList) ++ rest)
        = loadFrom env ent s (a ++ c.toNode.values) S rest := by
  have hpv := hT.pathValues_eq hw hd (Node.Printable.nonempty hp)
  have hprint := (hp l _ (Config.node?_eq (Config.get?_of_walk hw))).2
  cases hvs : c.toNode.values with
  | nil =>
    refine ⟨[], by rw [Config.valueTexts, hpv, hvs]; rfl, fun _ => rfl, fun s a S rest _ => ?_⟩
    rw [List.append_nil]
    rfl
  | cons v vs =>
    obtain ⟨q, hq⟩ := hT.quote_isSome hw (hvs ▸ List.mem_cons_self)
    rw [hvs] at hprint
    refine ⟨_, by rw [Config.valueTexts, hpv, hvs, mapM_valueText hq], fun h => ?_,
      fun s a S rest he => load_values hq hprint he⟩
    cases h

/-- The head of a displayed node, up to the brace or the semicolon. -/
theorem load_head {ws : List String} {name : String} {vs vals : List String}
    (hw : ∀ w ∈ ws, Identifier env w) (hn : Identifier env name) {rest : List Char}
    (he : Ends env rest)
    (hv : ∀ s a S rest, Ends env rest → loadFrom env ent s a S (vs.flatMap (fun v => ' ' :: v.toList) ++
      rest) = loadFrom env ent s (a ++ vals) S rest) (s : List (List String)) (S : Config) :
    loadFrom env ent s [] S (Config.indent depth ++ ws.flatMap (fun w => w.toList ++ [' ']) ++
      name.toList ++ vs.flatMap (fun v => ' ' :: v.toList) ++ rest) =
      loadFrom env ent s (ws ++ [name] ++ vals) S rest := by
  have hends : Ends env (vs.flatMap (fun v => ' ' :: v.toList) ++ rest) := by
    cases vs with
    | nil => exact he
    | cons v vs => exact ends_space _
  simp only [List.append_assoc]
  rw [load_indent, load_words hw, load_identifier hn hends, hv _ _ _ _ he]
  simp

theorem Config.write_leaf {pre : List Char} {vs : List String} (he : c.isEmpty = true)
    (hp : Config.prefixWrite c.toNode up = some pre) (hv : c.valueTexts = some vs) :
    c.write up depth = some (Config.indent depth ++ pre ++ c.name.toList ++
      vs.flatMap (fun v => ' ' :: v.toList) ++ [';', '\n']) := by
  obtain ⟨n, configs, keys⟩ := c
  obtain ⟨rfl, rfl⟩ : configs = [] ∧ keys = [] := by simpa [Config.isEmpty] using he
  simp [Config.write, Config.displayEntry, Config.writeSlot, hp, hv]

theorem Config.write_dir {pre cs : List Char} {vs : List String} (hk : c.keys = [])
    (hc : c.configs ≠ []) (hp : Config.prefixWrite c.toNode up = some pre)
    (hv : c.valueTexts = some vs)
    (hcs : Config.writeSlot c.configs (c.toNode :: up) (depth + 1) = some cs) :
    c.write up depth = some (Config.indent depth ++ pre ++ c.name.toList ++
      vs.flatMap (fun v => ' ' :: v.toList) ++ [' ', '{', '\n'] ++ cs ++
      (Config.indent depth ++ ['}', '\n'])) := by
  obtain ⟨n, configs, keys⟩ := c
  simp only at hk hc hcs
  subst hk
  simp [Config.write, Config.displayEntry, Config.writeSlot, hp, hv, hc, hcs]

theorem Config.write_list {ks : List Char} (hk : c.keys ≠ []) (hc : c.configs = [])
    (hks : Config.writeSlot c.keys (c.toNode :: up) depth = some ks) :
    c.write up depth = some ks := by
  obtain ⟨n, configs, keys⟩ := c
  simp only at hk hc hks
  subst hc
  simp [Config.write, Config.displayEntry, Config.writeSlot, hk, hks]

/-- A node without children is read as a statement of its own. -/
theorem Typed.reads_leaf {ws : List String} (hT : Typed env (.root ent) T)
    (hp : ∀ l n, T.node? l = some n → n.Printable env)
    (hw : T.walk (.root ent) l = some (cur, c)) (hd : Done cur c) (he : c.isEmpty = true)
    (hpre : Config.prefixWrite c.toNode up = some (ws.flatMap fun w => w.toList ++ [' ']))
    (hws : ∀ w ∈ ws, Identifier env w) (hn : Identifier env c.name)
    (hpath : path ++ ws ++ [c.name] = l.map (·.name)) :
    ∃ text, c.write up depth = some text ∧ Reads env ent T path text [l] := by
  obtain ⟨vs, hvs, -, hload⟩ := hT.valueTexts_load hp hw hd
  refine ⟨_, Config.write_leaf he hpre hvs, fun s S rest hs => ?_⟩
  have hends : Ends env ([';', '\n'] ++ rest) :=
    ⟨';', _, rfl, by rw [isIdentifierPart_ascii (by decide)]; decide⟩
  have htok : (s ++ [ws ++ [c.name] ++ c.toNode.values]).flatten = T.tokens l := by
    rw [List.flatten_append, hs, Config.tokens, Config.node?_eq (Config.get?_of_walk hw), ← hpath]
    simp
  rw [List.append_assoc, load_head hws hn hends hload, List.cons_append, load_semiColon, htok,
    List.map_singleton, replay]
  cases parse env ent S (T.tokens l) with
  | none => rfl
  | some r => exact load_space (by decide)

/-- A container or a list entry is read as the statements of its children. -/
theorem Typed.reads_dir {ws : List String} {cs : List Char} (hT : Typed env (.root ent) T)
    (hp : ∀ l n, T.node? l = some n → n.Printable env)
    (hw : T.walk (.root ent) l = some (cur, c)) (hd : Done cur c) (hk : c.keys = [])
    (hc : c.configs ≠ [])
    (hpre : Config.prefixWrite c.toNode up = some (ws.flatMap fun w => w.toList ++ [' ']))
    (hws : ∀ w ∈ ws, Identifier env w) (hn : Identifier env c.name)
    (hpath : path ++ ws ++ [c.name] = l.map (·.name))
    (hcs : Config.writeSlot c.configs (c.toNode :: up) (depth + 1) = some cs)
    (hr : Reads env ent T (l.map (·.name)) cs ls) :
    ∃ text, c.write up depth = some text ∧ Reads env ent T path text ls := by
  obtain ⟨vs, hvs, hnil, hload⟩ := hT.valueTexts_load hp hw hd
  refine ⟨_, Config.write_dir hk hc hpre hvs hcs, fun s S rest hs => ?_⟩
  have hval : c.toNode.values = [] := by
    obtain ⟨d, hdm⟩ := List.exists_mem_of_ne_nil _ hc
    have hch : c.child? ⟨.configs, d.name⟩ = some d :=
      Keyed.get_of_mem ((hT.of_walk hw).nodup .configs) hdm
    rw [← hT.pathValues_eq hw hd (Node.Printable.nonempty hp)]
    exact (hT.of_walk hw).pathValues_above hch
  have hstack : (s ++ [ws ++ [c.name] ++ c.toNode.values]).flatten = l.map (·.name) := by
    rw [List.flatten_append, hs, hval, ← hpath]
    simp
  have hopen (rest : List Char) : loadFrom env ent s (ws ++ [c.name] ++ c.toNode.values) S
      ([' ', '{', '\n'] ++ rest) =
      loadFrom env ent (s ++ [ws ++ [c.name] ++ c.toNode.values]) [] S rest := by
    simp only [List.cons_append, List.nil_append]
    rw [load_space (by decide), load_leftBrace, load_space (by decide)]
  have hclose (S' : Config) : loadFrom env ent (s ++ [ws ++ [c.name] ++ c.toNode.values]) [] S'
      (Config.indent depth ++ ['}', '\n'] ++ rest) = loadFrom env ent s [] S' rest := by
    simp only [List.append_assoc, List.cons_append, List.nil_append]
    rw [load_indent, load_rightBrace, load_space (by decide), List.dropLast_concat]
  have hends (rest : List Char) : Ends env ([' ', '{', '\n'] ++ rest) := ends_space _
  rw [List.append_assoc, List.append_assoc, List.append_assoc,
    load_head hws hn (hends _) hload, hopen, hr _ _ _ hstack]
  simp only [hclose]

theorem Config.places_leaf (he : c.isEmpty = true) (l : Loc) :
    c.places Config.isEmpty l = [l] := by
  obtain ⟨n, configs, keys⟩ := c
  obtain ⟨rfl, rfl⟩ : configs = [] ∧ keys = [] := by simpa [Config.isEmpty] using he
  rfl

theorem Config.places_node (he : c.isEmpty = false) (l : Loc) : c.places Config.isEmpty l =
    Config.placesSlot Config.isEmpty .keys c.keys l ++
      Config.placesSlot Config.isEmpty .configs c.configs l := by
  obtain ⟨n, configs, keys⟩ := c
  rw [Config.places, he]
  rfl

/-- A node of a list with keys comes by its name, not by a key. -/
theorem Typed.list_noPrefix (hk : ent.All Entry.OneKey) (hT : Typed env (.root ent) T)
    (hw : T.walk (.root ent) l = some (cur, c)) (hst : cur.state = .stateKey) :
    c.keyPrefix = "" := by
  rcases List.eq_nil_or_concat l with rfl | ⟨pre, ⟨slot, name⟩, rfl⟩
  · cases hw
    cases hst
  · rw [List.concat_eq_append] at hw
    obtain ⟨cur₁, p, e, hwp, hch, -, rfl⟩ := Config.walk_snoc hw
    cases slot with
    | configs =>
      obtain ⟨e', hedge, -⟩ := (hT.of_walk hwp).child?_edge hch
      rw [hedge.2.2]
      rfl
    | keys =>
      have hone : keyLength cur₁.ent = 1 := (hT.walk_all hk hwp).self.length
      simp only [Cursor.child, Cursor.enterKey, hone] at hst
      rw [if_pos (by omega)] at hst
      cases hst

/-- The text of a node is read as the statements of the nodes without children in it. -/
theorem Typed.write_load (hk : ent.All Entry.OneKey) (hT : Typed env (.root ent) T)
    (hcl : Closed ent T) (hp : ∀ l n, T.node? l = some n → n.Printable env) (c : Config) :
    ∀ {l : Loc} {cur : Cursor} {up : List Node} {depth : Nat} {path ws : List String}, l ≠ [] →
    T.walk (.root ent) l = some (cur, c) → cur.ent.All (fun e => Identifier env e.name) →
    Config.prefixWrite c.toNode up = some (ws.flatMap fun w => w.toList ++ [' ']) →
    (∀ w ∈ ws, Identifier env w) → Identifier env c.name →
    path ++ ws ++ [c.name] = l.map (·.name) →
    ∃ text, c.write up depth = some text ∧
      Reads env ent T path text (c.places Config.isEmpty l) := by
  induction c using Config.ind with
  | h c ih =>
    intro l cur up depth path ws hl hw hall hpre hws hn hpath
    have htc := hT.of_walk hw
    have hd := hcl l cur c hl hw
    -- A child, at its place.
    have child (slot : Slot) {d : Config} (hdm : d ∈ c.slot slot) : ∃ e,
        Edge env cur slot d.toNode e ∧
        T.walk (.root ent) (l ++ [⟨slot, d.name⟩]) = some (cur.child slot e, d) := by
      obtain ⟨e, hedge⟩ := htc.edge slot d hdm
      have hch : c.child? ⟨slot, d.name⟩ = some d := Keyed.get_of_mem (htc.nodup slot) hdm
      exact ⟨e, hedge, Config.walk_snoc_eq hw hch hedge.entry⟩
    by_cases he : c.isEmpty = true
    · rw [Config.places_leaf he]
      exact hT.reads_leaf hp hw hd he hpre hws hn hpath
    · rw [Config.places_node (by simpa using he)]
      by_cases hkeys : c.keys = []
      · have hconfigs : c.configs ≠ [] := fun h => he (by simp [Config.isEmpty, hkeys, h])
        have hslot : ∃ text, Config.writeSlot c.configs (c.toNode :: up) (depth + 1) = some text ∧
            Reads env ent T (l.map (·.name)) text
              (Config.placesSlot Config.isEmpty .configs c.configs l) := by
          refine reads_slot fun d hdm => ?_
          obtain ⟨e, hedge, hwd⟩ := child .configs hdm
          obtain ⟨hdir, ⟨str, hs⟩, hnode⟩ := id hedge
          have halle := hs.all hdir hall
          refine @ih .configs d hdm _ _ _ _ _ [] (by simp) hwd halle ?_ (fun w hw => by cases hw) ?_ ?_
          · rw [Config.prefixWrite, hnode]
            rfl
          · rw [show d.name = e.name from hedge.name_configs]
            exact halle.self
          · simp
        obtain ⟨cs, hcs, hr⟩ := hslot
        rw [hkeys, Config.placesSlot, List.nil_append]
        exact hT.reads_dir hp hw hd hkeys hconfigs hpre hws hn hpath hcs hr
      · -- The node of a list is hidden, and its entries carry its name.
        obtain ⟨k, hkm⟩ := List.exists_mem_of_ne_nil _ hkeys
        obtain ⟨e₀, hedge₀, -⟩ := child .keys hkm
        have hst : cur.state = .stateKey := hedge₀.1
        have hconfigs := htc.configs_key hst
        have hnop := hT.list_noPrefix hk hw hst
        have hnil : ws = [] := by
          have hpre' : Config.prefixWrite c.toNode up = some [] := by
            cases up <;> rw [Config.prefixWrite, hnop] <;> rfl
          rw [hpre, Option.some.injEq, List.flatMap_eq_nil_iff] at hpre'
          refine List.eq_nil_iff_forall_not_mem.mpr fun w hw => ?_
          simpa using hpre' w hw
        subst hnil
        have hslot : ∃ text, Config.writeSlot c.keys (c.toNode :: up) depth = some text ∧
            Reads env ent T path text (Config.placesSlot Config.isEmpty .keys c.keys l) := by
          refine reads_slot fun d hdm => ?_
          obtain ⟨e, hedge, hwd⟩ := child .keys hdm
          obtain ⟨-, -, hnode, -⟩ := id hedge
          have hprefix : d.keyPrefix = cur.ent.name := by
            rw [show d.keyPrefix = d.toNode.keyPrefix from rfl, hnode]
            rfl
          have hkc : d.keyConfig = true := by
            rw [show d.keyConfig = d.toNode.keyConfig from rfl, hnode]
            rfl
          refine @ih .keys d hdm _ _ _ _ path [c.name] (by simp) hwd ?_ ?_ ?_ ?_ ?_
          · show cur.enterKey.ent.All _
            rw [Cursor.enterKey_ent]
            exact hall
          · rw [Config.prefixWrite, hprefix, hnop]
            simp [hall.self.1]
          · intro w hw
            rw [List.mem_singleton.mp hw]
            exact hn
          · exact (hp _ _ (Config.node?_eq (Config.get?_of_walk hwd))).1 hkc
          · rw [List.map_append, ← hpath]
            simp
        obtain ⟨ks, hks, hr⟩ := hslot
        rw [hconfigs, Config.placesSlot, List.append_nil]
        exact ⟨ks, Config.write_list hkeys hconfigs hks, hr⟩

end

/-! ## The whole tree -/

/-- The names in a schema are identifiers, and the root has none. -/
structure Entry.Identified (env : Env) (ent : Entry) : Prop where
  root : ent.name = ""
  dir : ∀ c ∈ ent.dir, c.All fun e => Identifier env e.name

theorem Identifier.oneWord {s : String} (h : Identifier env s) : OneWord s := by
  intro c hc
  by_contra hw
  have hpart := h.2 c hc
  have hmem : c ∈ [' ', '\t', '\n'] := by
    simpa [isWhiteSpaceChar, or_assoc, imp_iff_not_or, -not_or] using hw
  have hall : [' ', '\t', '\n'].all (fun d => decide (d.toNat < 128) && !(d.isAlpha || d.isDigit ||
      d == '.' || d == '/' || d == '-' || d == ':' || d == '_')) = true := by decide
  have hno := List.all_eq_true.mp hall c hmem
  rw [Bool.and_eq_true, decide_eq_true_eq, Bool.not_eq_true'] at hno
  rw [isIdentifierPart_ascii hno.1, hno.2] at hpart
  cases hpart

theorem Entry.Identified.named (h : ent.Identified env) : ent.All Entry.Named := by
  refine .mk ?_ fun c hc => (h.dir c hc).mono fun _ => Identifier.oneWord
  rw [Entry.Named, h.root]
  intro c hc
  cases hc

/-- The places of the statements in the text of the root. -/
def Config.statements (root : Config) : List Loc :=
  Config.placesSlot Config.isEmpty .configs root.configs []

/-- `String` of the root is read as its statements. -/
theorem Typed.string_load {T : Config} (hk : ent.All Entry.OneKey) (hi : ent.Identified env)
    (hT : Typed env (.root ent) T) (hcl : Closed ent T)
    (hp : ∀ l n, T.node? l = some n → n.Printable env) :
    ∃ text, T.string = some text ∧ Reads env ent T [] text T.statements := by
  refine reads_slot fun d hd => ?_
  obtain ⟨e, hedge⟩ := hT.edge .configs d hd
  obtain ⟨hdir, ⟨str, hs⟩, hnode⟩ := id hedge
  have hch : T.child? ⟨.configs, d.name⟩ = some d := Keyed.get_of_mem (hT.nodup .configs) hd
  have hw : T.walk (.root ent) [⟨.configs, d.name⟩] = some (.enter e, d) := by
    rw [Config.walk_cons hch hedge.entry]
    rfl
  have hall : e.All fun e => Identifier env e.name := hs.all_dir hdir hi.dir
  have hname : Identifier env d.name := by
    rw [show d.name = e.name from hedge.name_configs]
    exact hall.self
  refine @Typed.write_load env ent T hk hT hcl hp d _ _ _ 0 [] [] (by simp) hw hall ?_
    (fun w hw => by cases hw) hname rfl
  rw [Config.prefixWrite, hnode]
  rfl

/-- A statement stands for a finished node. -/
theorem Typed.finished_leaf {T c : Config} {l : Loc} (hT : Typed env (.root ent) T)
    (hcl : Closed ent T) (hl : l ≠ []) (hg : T.get? l = some c) (he : c.isEmpty = true) :
    Finished ent T l := by
  obtain ⟨cur, hw, -⟩ := hT.walk_of_get hg
  have hd := hcl l cur c hl hw
  obtain ⟨hc, hk⟩ : c.configs = [] ∧ c.keys = [] := by simpa [Config.isEmpty] using he
  refine ⟨hl, cur, c, hw, hd, fun hst => ?_, fun hst => ?_⟩
  · rw [Done, hst] at hd
    exact hd hc
  · rw [Done, hst] at hd
    exact hd hk

theorem Typed.mem_statements {T : Config} (hT : Typed env (.root ent) T) {l : Loc} :
    l ∈ T.statements ↔ l ≠ [] ∧ ∃ c, T.get? l = some c ∧ c.isEmpty = true := by
  have hkeys : T.keys = [] := by
    refine List.eq_nil_iff_forall_not_mem.mpr fun d hd => ?_
    obtain ⟨e, he⟩ := hT.edge .keys d hd
    cases he.1
  have hmem : l ∈ T.places Config.isEmpty [] ↔
      T.isEmpty = true ∧ l = [] ∨ l ∈ T.statements := by
    rw [Config.mem_places_iff, Config.statements, Config.mem_placesSlot]
    refine or_congr_right ⟨?_, fun ⟨d, hd, h⟩ => ⟨.configs, d, hd, h⟩⟩
    rintro ⟨slot, d, hd, h⟩
    cases slot with
    | configs => exact ⟨d, hd, h⟩
    | keys => rw [Config.slot, hkeys] at hd; cases hd
  have hnil : [] ∉ T.statements := by
    rw [Config.statements, Config.mem_placesSlot]
    rintro ⟨d, hd, h⟩
    obtain ⟨e, he⟩ := hT.edge .configs d hd
    obtain ⟨r, -, hr, -⟩ := (hT.child .configs d hd e he.entry).mem_places.mp h
    simp at hr
  constructor
  · intro h
    obtain ⟨r, d, rfl, hg, he⟩ := hT.mem_places.mp (hmem.mpr (.inr h))
    exact ⟨fun hn => hnil (hn ▸ h), d, hg, he⟩
  · rintro ⟨hl, c, hg, he⟩
    rcases hmem.mp (hT.mem_places.mpr ⟨l, c, rfl, hg, he⟩) with ⟨-, h⟩ | h
    · exact absurd h hl
    · exact h

/-- A saved configuration, loaded into an empty candidate, is the tree again. -/
theorem saved_roundtrip {root : Config} (hk : ent.All Entry.OneKey) (hi : ent.Identified env)
    (hr : Reach env ent root) (hp : ∀ l n, root.node? l = some n → n.Printable env) :
    ∃ text t, root.string = some text ∧ loadConfig env ent {} text = some (true, t) ∧
      t.Same root := by
  obtain ⟨hT, hcl⟩ := hr.typed_closed
  obtain ⟨text, htext, hreads⟩ := hT.string_load hk hi hcl hp
  have hfin : ∀ l ∈ root.statements, Finished ent root l := by
    intro l hl
    obtain ⟨hne, c, hg, he⟩ := hT.mem_statements.mp hl
    exact hT.finished_leaf hcl hne hg he
  obtain ⟨t, ht, hpart, -, hcover⟩ :=
    replay_paths hk hi.named hT hfin (.empty _) (.empty ent) (PartOf.empty hr.toNode)
  have hload := hreads [] {} [] rfl
  rw [ht, List.append_nil] at hload
  refine ⟨text, t, htext, hload, hT.same_of_cover hpart fun l c hne hg he => ?_⟩
  exact hcover l (hT.mem_statements.mpr ⟨hne, c, hg, he⟩)

theorem interfacesSchema_identified : interfacesSchema.Identified .ascii :=
  ⟨rfl, by decide⟩

/-- The file of a tree with one interface. -/
def interfacesText : List Char :=
  "interfaces \x7b\n    interface eth0 \x7b\n        mtu 1500;\n    \x7d\n\x7d\n".toList

theorem saved_roundtrip_mtu : ∃ r t,
    parse .ascii interfacesSchema {} ["interfaces", "interface", "eth0", "mtu", "1500"] = some r ∧
    r.tree.string = some interfacesText ∧
    loadConfig .ascii interfacesSchema {} interfacesText = some (true, t) ∧ t.Same r.tree := by
  obtain ⟨r, hr, hp⟩ := Option.map_eq_some_iff.mp (show (parse .ascii interfacesSchema {}
    ["interfaces", "interface", "eth0", "mtu", "1500"]).map
      (fun r => (r.code, r.tree.string, r.tree.every fun d => d.toNode.Printable .ascii)) =
    some (.parseSuccess, some interfacesText, true) by decide +kernel)
  simp only [Prod.mk.injEq] at hp
  obtain ⟨hc, hstring, hcheck⟩ := hp
  obtain ⟨text, t, ht, hload, hsame⟩ := saved_roundtrip interfacesSchema_oneKey
    interfacesSchema_identified (.set .empty hr hc)
    fun l n hn => of_decide_eq_true (Config.node?_of_every (p := fun n => n.Printable .ascii) hcheck hn)
  rw [hstring] at ht
  cases ht
  exact ⟨r, t, hr, hstring, hload, hsame⟩

end OpenConfigd
