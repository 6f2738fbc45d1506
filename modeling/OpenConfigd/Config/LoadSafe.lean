import OpenConfigd.Config.Lexer
import OpenConfigd.Config.OneKey
import OpenConfigd.Go.Map

/-!
# Loading any file

`LoadConfig` and `LoadLease` on an arbitrary string of bytes. `load_safe` says when the
goroutine of the lexer ends and the loader returns: the text must not end in a
comment, `LoadConfig` must find a word for every `;` (it hands an empty command to
`Parse`, which indexes it), and so must `LoadLease` once it has seen a lease.
-/

namespace OpenConfigd

/-! ## Leases -/

/-- `LeaseValue`. -/
structure LeaseValue where
  address : String
  hardware : String := ""
  clientHostName : String := ""
  deriving DecidableEq, Repr

/-- The variables of `LoadLease`. The values are those made so far; `leaseValue` and the values
of `leaseMap` are pointers to them, by number. -/
structure LeaseState where
  values : List LeaseValue := []
  leaseValue : Option Nat := none
  leaseKeyword : Bool := false
  leaseMap : GoMap String Nat := ∅
  cmds : List String := []

/-- A value after a statement. -/
def LeaseValue.update (cmds : List String) (v : LeaseValue) : LeaseValue :=
  match cmds with
  | "hardware" :: _ => { v with hardware := cmds.getLastD "" }
  | "client-hostname" :: _ => { v with clientHostName := cmds.getLastD "" }
  | _ => v

/-- The loop of `LoadLease`: the leases, `none` inside for an error. A run that panics or does
not end is `none`. -/
def loadLeaseItems : List Item → LeaseState → Option (Option LeaseState)
  | [], _ => none
  | .itemEOF :: _, st => some (some st)
  | .itemError :: _, _ => some none
  | .itemWhiteSpace :: items, st | .itemLeftBrace :: items, st => loadLeaseItems items st
  | .itemString val :: items, st =>
    loadLeaseItems items { st with cmds := st.cmds ++ [String.ofList val] }
  | .itemIdentifier val :: items, st =>
    if String.ofList val = "lease" then loadLeaseItems items { st with leaseKeyword := true }
    else if st.leaseKeyword then
      loadLeaseItems items { st with
        values := st.values ++ [{ address := String.ofList val }]
        leaseValue := some st.values.length
        leaseKeyword := false }
    else loadLeaseItems items { st with cmds := st.cmds ++ [String.ofList val] }
  | .itemRightBrace :: items, st =>
    match st.leaseValue with
    | none => loadLeaseItems items st
    | some i =>
      let address := (st.values[i]?.map LeaseValue.address).getD ""
      loadLeaseItems items { st with leaseMap := st.leaseMap.insert address i }
  | .itemSemiColon :: items, st =>
    match st.leaseValue, st.cmds with
    | none, _ => loadLeaseItems items { st with cmds := [] }
    | some _, [] => none
    | some i, cmds =>
      loadLeaseItems items { st with values := st.values.modify i (LeaseValue.update cmds), cmds := [] }

/-! ## What the loaders need of a text -/

/-- Every `;` ends a statement with a word, its own or one of an open block. The numbers are the
words before the open braces, and those since the last brace or `;`. -/
def worded : List Item → List Nat → Nat → Bool
  | [], _, _ | .itemEOF :: _, _, _ | .itemError :: _, _, _ => true
  | .itemWhiteSpace :: items, open', words => worded items open' words
  | .itemIdentifier _ :: items, open', words | .itemString _ :: items, open', words =>
    worded items open' (words + 1)
  | .itemLeftBrace :: items, open', words => worded items (open' ++ [words]) 0
  | .itemRightBrace :: items, open', words => worded items open'.dropLast words
  | .itemSemiColon :: items, open', words => open'.sum + words ≠ 0 && worded items open' 0

/-- After the address of a lease, every `;` has a word since the last one. -/
def leaseWorded : List Item → (keyword lease : Bool) → Nat → Bool
  | [], _, _, _ | .itemEOF :: _, _, _, _ | .itemError :: _, _, _, _ => true
  | .itemWhiteSpace :: items, keyword, lease, words | .itemLeftBrace :: items, keyword, lease, words
  | .itemRightBrace :: items, keyword, lease, words => leaseWorded items keyword lease words
  | .itemString _ :: items, keyword, lease, words => leaseWorded items keyword lease (words + 1)
  | .itemIdentifier val :: items, keyword, lease, words =>
    if String.ofList val = "lease" then leaseWorded items true lease words
    else if keyword then leaseWorded items false true words
    else leaseWorded items false lease (words + 1)
  | .itemSemiColon :: items, keyword, lease, words =>
    (!lease || words ≠ 0) && leaseWorded items keyword lease 0

/-- A leafref's target, where it has one, has a type. -/
def Entry.resolves (env : Env) (e : Entry) : Bool :=
  match e.type with
  | none => true
  | some t => t.kind ≠ .leafref || (env.find e t.path).all fun target => target.type.isSome

section

variable (env : Env)

/-- The commands `LoadConfig` hands to `Parse` up to the item that ends it, from the stack and the
words so far. -/
def commands : List Item → List (List String) → List String → List (List String)
  | [], _, _ | .itemEOF :: _, _, _ | .itemError :: _, _, _ => []
  | .itemWhiteSpace :: items, s, a => commands items s a
  | .itemIdentifier val :: items, s, a => commands items s (a ++ [String.ofList val])
  | .itemString val :: items, s, a =>
    commands items s (a ++ [String.ofList ((env.unquote val).getD val)])
  | .itemLeftBrace :: items, s, a => commands items (s ++ [a]) []
  | .itemRightBrace :: items, s, a => commands items s.dropLast a
  | .itemSemiColon :: items, s, a => (s ++ [a]).flatten :: commands items s []

/-- The tokens of a command can be compared where an integer is expected, up to the first that selects no entry. -/
def comparable : List String → Cursor → Bool
  | [], _ => true
  | str :: cmds, cur =>
    (cur.leaf env).all (fun leaf => leaf.compares env str) &&
      match cur.select env str with
      | some (.unique e _) => comparable cmds (cur.next e)
      | _ => true

/-- The goroutine of the lexer ends, and the loader returns with the items it has sent. -/
def Loads (load : List Item → Bool) (input : List UInt8) : Prop :=
  ∃ n, (Lexer.run env n { input := runes input }).2.state = none ∧
    load (Lexer.run env n { input := runes input }).1 = true

/-- `LoadConfig` returns. -/
def LoadConfigEnds (ent : Entry) (root : Config) (input : List UInt8) : Prop :=
  Loads env (fun items => (loadItems env ent items [] [] root).isSome) input

/-- `LoadLease` returns. -/
def LoadLeaseEnds (input : List UInt8) : Prop :=
  Loads env (fun items => (loadLeaseItems items {}).isSome) input

end

/-! ## Parse returns -/

section

variable {env : Env}

/-- `MatchLeaf` returns just if it can compare the token. -/
theorem leafMatches_isSome {e : Entry} (h : e.resolves env = true) (str : String) :
    (leafMatches env e str).isSome = true ↔
      (e.target env).all (fun leaf => leaf.compares env str) = true := by
  have hret {x : Entry} (hx : x.type.isSome = true) :
      ((leafTypeAlternatives x).filter fun l => Returns env str l).isSome = true ↔
        x.compares env str = true := by
    obtain ⟨t, ht⟩ := Option.isSome_iff_exists.mp hx
    cases hl : leafTypeAlternatives x with
    | none => simp [leafTypeAlternatives, ht] at hl
    | some l =>
      rw [← leafTypeAlternatives_returns hl]
      by_cases hr : Returns env str l <;> simp [Option.filter, hr]
  unfold Entry.resolves at h
  unfold leafMatches leafAlternatives Entry.target
  cases ht : e.type with
  | none => simp [Returns]
  | some t =>
    simp only [ht] at h ⊢
    by_cases hk : t.kind = .leafref
    · rw [if_pos hk, if_pos hk]
      cases hf : env.find e t.path with
      | none => simp [Returns]
      | some target =>
        simp only [hk, hf, Option.all_some] at h ⊢
        exact hret (by simpa using h)
    · rw [if_neg hk, if_neg hk, Option.all_some]
      exact hret (by rw [ht]; rfl)

theorem Cursor.alternatives_isSome {cur : Cursor} (h : cur.ent.All fun e => e.resolves env = true)
    (str : String) : (cur.alternatives env str).isSome = true ↔
      (cur.leaf env).all (fun leaf => leaf.compares env str) = true := by
  unfold alternatives leaf
  cases cur.state with
  | stateKey =>
    cases hk : keyEntry cur.ent cur.index with
    | none => simp
    | some key => exact leafMatches_isSome (h.child (List.mem_of_find?_eq_some hk)).self str
  | stateLeaf | stateLeafList | stateLeafListMatched => exact leafMatches_isSome h.self str
  | _ => simp

theorem plan_isSome (cmds : List String) {cur : Cursor} (h : cur.ent.All fun e => e.resolves env = true) :
    (plan env cmds cur).isSome = true ↔ cmds ≠ [] ∧ comparable env cmds cur = true := by
  induction cmds generalizing cur with
  | nil => simp [plan]
  | cons str cmds ih =>
    have hsel : (cur.select env str).isSome = true ↔
        (cur.leaf env).all (fun leaf => leaf.compares env str) = true := by
      rw [← Cursor.alternatives_isSome h, Cursor.select, Option.isSome_map]
    rw [plan, comparable, Bool.and_eq_true, ← hsel]
    cases hs : cur.select env str with
    | none => simp
    | some sel =>
      cases sel with
      | noMatch => simp
      | ambiguous => simp
      | unique e m =>
        cases cmds with
        | nil => simp [comparable]
        | cons cmd cmds =>
          simp only [Option.isSome_map]
          simpa using ih (Cursor.next_all ⟨m, hs⟩ h)

/-- `Parse` panics on an empty command, and on one with a number that it cannot compare. -/
theorem parse_isSome {ent : Entry} (h : ent.All fun e => e.resolves env = true) (root : Config)
    (cmds : List String) : (parse env ent root cmds).isSome = true ↔
      cmds ≠ [] ∧ comparable env cmds (.root ent) = true := by
  rw [parse_eq_plan, Option.isSome_map]
  exact plan_isSome cmds h

/-! ## The loops -/

/-- The item that ends the loop of a loader. -/
def Item.ends : Item → Bool
  | .itemEOF | .itemError => true
  | _ => false

/-- `worded` says that no command is empty. -/
theorem worded_commands (items : List Item) (s : List (List String)) (a : List String) :
    worded items (s.map List.length) a.length = true ↔ [] ∉ commands env items s a := by
  induction items generalizing s a with
  | nil => simp [worded, commands]
  | cons item items ih =>
    cases item with
    | itemError => simp [worded, commands]
    | itemEOF => simp [worded, commands]
    | itemWhiteSpace => exact ih s a
    | itemLeftBrace => simpa [worded, commands] using ih (s ++ [a]) []
    | itemRightBrace =>
      have := ih s.dropLast a
      rw [List.map_dropLast] at this
      exact this
    | itemString val =>
      simpa [worded, commands] using ih s (a ++ [String.ofList ((env.unquote val).getD val)])
    | itemIdentifier val => simpa [worded, commands] using ih s (a ++ [String.ofList val])
    | itemSemiColon =>
      have hlen : (s ++ [a]).flatten.length = (s.map List.length).sum + a.length := by
        simp [List.length_flatten]
      have hword : (s ++ [a]).flatten = [] ↔ (s.map List.length).sum + a.length = 0 := by
        rw [← List.length_eq_zero_iff, hlen]
      rw [worded, commands, Bool.and_eq_true, decide_eq_true_eq, List.mem_cons, not_or, ← ih s [],
        eq_comm (a := ([] : List String)), hword]
      rfl

theorem loadItems_isSome {ent : Entry} (h : ent.All fun e => e.resolves env = true) (items : List Item)
    (s : List (List String)) (a : List String) (root : Config) :
    (loadItems env ent items s a root).isSome = true ↔ items.any Item.ends = true ∧
      ∀ cmds ∈ commands env items s a, cmds ≠ [] ∧ comparable env cmds (.root ent) = true := by
  induction items generalizing s a root with
  | nil => simp [loadItems]
  | cons item items ih =>
    cases item with
    | itemError => simp [loadItems, commands, Item.ends]
    | itemEOF => simp [loadItems, commands, Item.ends]
    | itemWhiteSpace => simpa [loadItems, commands, Item.ends] using ih s a root
    | itemLeftBrace => simpa [loadItems, commands, Item.ends] using ih (s ++ [a]) [] root
    | itemRightBrace => simpa [loadItems, commands, Item.ends] using ih s.dropLast a root
    | itemString val =>
      simpa [loadItems, commands, Item.ends] using ih s (a ++ [String.ofList ((env.unquote val).getD val)]) root
    | itemIdentifier val => simpa [loadItems, commands, Item.ends] using ih s (a ++ [String.ofList val]) root
    | itemSemiColon =>
      have hany : (Item.itemSemiColon :: items).any Item.ends = items.any Item.ends := rfl
      rw [loadItems, commands, List.forall_mem_cons, ← parse_isSome h root, hany]
      cases hp : parse env ent root (s ++ [a]).flatten with
      | none => simp
      | some r => simpa using ih s [] r.tree

theorem loadLeaseItems_isSome (items : List Item) (st : LeaseState) :
    (loadLeaseItems items st).isSome = true ↔ items.any Item.ends = true ∧
      leaseWorded items st.leaseKeyword st.leaseValue.isSome st.cmds.length = true := by
  induction items generalizing st with
  | nil => simp [loadLeaseItems]
  | cons item items ih =>
    cases item with
    | itemError => simp [loadLeaseItems, leaseWorded, Item.ends]
    | itemEOF => simp [loadLeaseItems, leaseWorded, Item.ends]
    | itemWhiteSpace => simpa [loadLeaseItems, leaseWorded, Item.ends] using ih st
    | itemLeftBrace => simpa [loadLeaseItems, leaseWorded, Item.ends] using ih st
    | itemRightBrace =>
      rw [loadLeaseItems]
      cases hv : st.leaseValue with
      | none => simpa [leaseWorded, Item.ends, hv] using ih st
      | some i => simp only [ih]; simp [leaseWorded, Item.ends]
    | itemString val => simp only [loadLeaseItems, ih]; simp [leaseWorded, Item.ends]
    | itemIdentifier val =>
      rw [loadLeaseItems, leaseWorded]
      split
      · simp only [ih]
        simp [Item.ends]
      · split
        · simp only [ih]
          simp [Item.ends]
        · next hk =>
          simp only [ih]
          simp [Item.ends, hk]
    | itemSemiColon =>
      rw [loadLeaseItems]
      cases hv : st.leaseValue with
      | none => simp only [ih]; simp [leaseWorded, Item.ends]
      | some i =>
        cases hc : st.cmds with
        | nil => simp [leaseWorded]
        | cons cmd cmds => simp only [ih]; simp [leaseWorded, Item.ends]

/-- The items of a text that does not end in a comment end. -/
theorem lexRunes_ends (rs : List Rune) {state : LexState} (buf : List Char)
    (h : inComment env state rs = false) : (lexRunes env state buf rs).any Item.ends = true := by
  have htake (state : LexState) (buf : List Char) (r : Rune) (hn : (take env state buf r).2 = none) :
      (take env state buf r).1.any Item.ends = true := by
    unfold take endItem takeText at *
    grind [Item.ends]
  induction rs generalizing state buf with
  | nil =>
    cases state with
    | lexCommentLine => cases h
    | _ => rfl
  | cons r rs ih =>
    have hstate := Lexer.take_state env state [] buf r
    rw [inComment] at h
    rw [lexRunes, List.any_append, Bool.or_eq_true]
    cases ht : (take env state buf r).2 with
    | none => exact .inl (htake state buf r ht)
    | some p =>
      rw [ht] at hstate
      obtain ⟨q, hq, hfst⟩ := Option.map_eq_some_iff.mp hstate
      rw [hq] at h
      simp only [hfst] at h
      exact .inr (ih p.2 h)

theorem tokens_ends {input : List UInt8} (hc : endsInComment env input = false) :
    (tokens env input).any Item.ends = true :=
  lexRunes_ends (runes input) [] hc

theorem loadConfigEnds_iff {ent : Entry} (h : ent.All fun e => e.resolves env = true) (root : Config)
    (input : List UInt8) : LoadConfigEnds env ent root input ↔
      endsInComment env input = false ∧ worded (tokens env input) [] 0 = true ∧
        ∀ cmds ∈ commands env (tokens env input) [] [], comparable env cmds (.root ent) = true := by
  refine (Lexer.run_tokens env input fun items =>
    (loadItems env ent items [] [] root).isSome = true).trans ?_
  refine and_congr_right fun hc => ?_
  have hw := @worded_commands env (tokens env input) [] []
  rw [List.map_nil, List.length_nil] at hw
  rw [loadItems_isSome h, hw]
  constructor
  · exact fun hl => ⟨fun hm => (hl.2 [] hm).1 rfl, fun cmds hm => (hl.2 cmds hm).2⟩
  · exact fun hl => ⟨tokens_ends hc, fun cmds hm => ⟨fun he => hl.1 (he ▸ hm), hl.2 cmds hm⟩⟩

theorem loadLeaseEnds_iff (input : List UInt8) : LoadLeaseEnds env input ↔
    endsInComment env input = false ∧ leaseWorded (tokens env input) false false 0 = true := by
  refine (Lexer.run_tokens env input fun items =>
    (loadLeaseItems items {}).isSome = true).trans ?_
  refine and_congr_right fun hc => ?_
  rw [loadLeaseItems_isSome]
  exact ⟨fun hw => hw.2, fun hw => ⟨tokens_ends hc, hw⟩⟩

end

/-- On any bytes, `LoadConfig` returns and the lexer's goroutine ends just if the text does not end
in a comment, every `;` has a word, and no command has a number with 64 digits after the point where
an integer is compared; and so do they for `LoadLease` just if the text does not end in a comment
and every `;` after the address of a lease has a word. -/
theorem load_safe (env : Env) {ent : Entry} (h : ent.All fun e => e.resolves env = true) (root : Config)
    (input : List UInt8) :
    (LoadConfigEnds env ent root input ↔
      endsInComment env input = false ∧ worded (tokens env input) [] 0 = true ∧
        ∀ cmds ∈ commands env (tokens env input) [] [], comparable env cmds (.root ent) = true) ∧
    (LoadLeaseEnds env input ↔
      endsInComment env input = false ∧ leaseWorded (tokens env input) false false 0 = true) :=
  ⟨loadConfigEnds_iff h root input, loadLeaseEnds_iff input⟩

/-- The bytes of an ASCII text. -/
def asciiBytes (s : String) : List UInt8 := s.toList.map fun c => UInt8.ofNat c.toNat

theorem interfacesSchema_resolves : interfacesSchema.All fun e => e.resolves .ascii = true := by
  decide

theorem load_safe_statements :
    LoadConfigEnds .ascii interfacesSchema {}
      (asciiBytes "interfaces \x7b interface eth0 mtu 9.5; ; \x7d # c\n") ∧
    LoadLeaseEnds .ascii (asciiBytes "lease 10.0.0.1 \x7b hardware ethernet; \x7d") :=
  ⟨(load_safe .ascii interfacesSchema_resolves {}
      (asciiBytes "interfaces \x7b interface eth0 mtu 9.5; ; \x7d # c\n")).1.mpr (by decide +kernel),
    (load_safe .ascii interfacesSchema_resolves {}
      (asciiBytes "lease 10.0.0.1 \x7b hardware ethernet; \x7d")).2.mpr (by decide)⟩

/-- A comment at the end of a file holds the lexer, a lone `;` makes both loaders panic, and so does
a number whose digits after the point are too many to divide by. -/
theorem load_safe_hash :
    ¬ LoadConfigEnds .ascii interfacesSchema {} (asciiBytes "#") ∧
    ¬ LoadLeaseEnds .ascii (asciiBytes "#") ∧
    ¬ LoadConfigEnds .ascii interfacesSchema {} (asciiBytes ";") ∧
    ¬ LoadLeaseEnds .ascii (asciiBytes "lease a ;") ∧
    ¬ LoadConfigEnds .ascii interfacesSchema {}
      (asciiBytes ("interfaces interface eth0 mtu " ++ zeros64 ++ ";")) := by
  rw [loadConfigEnds_iff interfacesSchema_resolves, loadLeaseEnds_iff,
    loadConfigEnds_iff interfacesSchema_resolves, loadLeaseEnds_iff,
    loadConfigEnds_iff interfacesSchema_resolves]
  decide +kernel

end OpenConfigd
