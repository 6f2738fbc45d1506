import OpenConfigd.Config.Lexer
import OpenConfigd.Go.Ascii

/-!
# What the items of the lexer say of its input

The lexer of `load.go` with all of its items: their types, positions and values, in bytes.
`lex_lossless`: on valid UTF-8 that it lexes to the end without an error, the values make up
the input, and each item stands where it says. Without positions it is the lexer of
`Config.Lexer` (`Shows.run_lex`).
-/

namespace OpenConfigd.Load

/-- `itemType`, the types that are emitted. -/
inductive ItemType where
  | itemError | itemEOF | itemString | itemIdentifier | itemWhiteSpace | itemLeftBrace | itemRightBrace
  | itemSemiColon
  deriving DecidableEq, Repr

/-- `item`. -/
structure Item where
  typ : ItemType
  pos : Nat
  val : List UInt8
  deriving DecidableEq, Repr

/-- The bytes of a text. -/
def utf8 (text : List Char) : List UInt8 := text.flatMap String.utf8EncodeChar

/-- The bytes that items stand for. -/
def values (items : List Item) : List UInt8 := items.flatMap Item.val

/-- `lexer`, with the items it has sent; the state function is nil when the goroutine has ended. -/
structure Lexer where
  input : List UInt8
  buffer : List UInt8 := []
  state : Option LexState := some .lexText
  pos : Nat := 0
  start : Nat := 0
  items : List Item := []

namespace Lexer

/-- The rune that `next` returns; the end of the input is `none`. -/
def read (l : Lexer) : Option Char := if l.input = [] then none else some (decodeRune l.input).1

/-- `next`. -/
def next (l : Lexer) : Lexer :=
  if l.input = [] then l
  else
    let (r, w) := decodeRune l.input
    { l with
      pos := l.pos + w
      buffer := l.buffer ++ String.utf8EncodeChar r
      input := l.input.drop w }

/-- `emit`. -/
def emit (t : ItemType) (l : Lexer) : Lexer :=
  { l with items := l.items ++ [⟨t, l.start, l.buffer⟩], start := l.pos, buffer := [] }

/-- The lexer with another state function. -/
def goto (state : LexState) (l : Lexer) : Lexer := { l with state := some state }

/-- The lexer at its end. -/
def stop (l : Lexer) : Lexer := { l with state := none }

/-- `errorf`. -/
def errorf (message : String) (l : Lexer) : Lexer :=
  { l with items := l.items ++ [⟨.itemError, l.start, utf8 message.toList⟩], state := none }

/-- `peek`; the end of the input is `none`. -/
def peek (l : Lexer) : Option Char :=
  match l.input with
  | [] => none
  | lead :: _ =>
    let p := l.input.take (runeLen lead)
    if p.length < runeLen lead then none else some (decodeRune p).1

variable (env : Env)

/-- One round of the loop of `lexText`; the check `lexIdentifier` begins with is made here. -/
def stepText (l : Lexer) : Lexer :=
  match l.peek with
  | none => (l.next.emit .itemEOF).stop
  | some c =>
    if c = '"' then l.next.goto .lexString
    else if c = '{' then l.next.emit .itemLeftBrace
    else if c = '}' then l.next.emit .itemRightBrace
    else if c = ';' then l.next.emit .itemSemiColon
    else if c = '#' then l.goto .lexCommentLine
    else if isSpace c then l.goto .lexWhiteSpace
    else if isIdentifierPart env c then l.goto .lexIdentifier
    else l.errorf "identifier expected"

/-- One round of the loop of `lexString`. -/
def stepString (l : Lexer) : Lexer :=
  match l.read with
  | none => l.errorf "unclosed string"
  | some c =>
    if c = '"' then (l.next.emit .itemString).goto .lexText
    else if c = '\\' then l.next.goto .escape
    else if isControl c then l.next.errorf "cannot contain control characters in strings"
    else l.next

/-- One round of the loop of a state function. -/
def step (l : Lexer) : Lexer :=
  match l.state with
  | none => l
  | some .lexText => stepText env l
  | some .lexIdentifier =>
    if l.peek.any (isIdentifierPart env) then l.next else (l.emit .itemIdentifier).goto .lexText
  | some .lexWhiteSpace => if l.peek.any isSpace then l.next else (l.emit .itemWhiteSpace).goto .lexText
  | some .lexCommentLine => if l.peek ≠ some '\n' then l.next else (l.emit .itemWhiteSpace).goto .lexText
  | some .lexString => stepString l
  | some .escape =>
    if l.peek.any escapes.contains then l.next.goto .lexString
    else if l.read = some 'u' then l.next.goto (.unicode 4)
    else l.next.goto .lexString
  | some (.unicode digits) =>
    if l.peek.any hexdigit.contains then
      l.next.goto (if digits ≤ 1 then .lexString else .unicode (digits - 1))
    else l.errorf "expected 4 hexadecimal digits"

/-- The lexer after a number of rounds. -/
def run : Nat → Lexer → Lexer
  | 0, l => l
  | n + 1, l => run n (l.step env)

end Lexer

/-! ## Runes of valid UTF-8 -/

theorem utf8_cons (c : Char) (cs : List Char) : utf8 (c :: cs) = String.utf8EncodeChar c ++ utf8 cs := rfl

theorem toNat_byte {x : Nat} (h : x < 256) : (UInt8.ofNat x).toNat = x := by
  rw [UInt8.toNat_ofNat', Nat.mod_eq_of_lt h]

/-- A byte of a rune with more bytes is not ASCII. -/
theorem not_ascii {x : Nat} (h : x < 256) (hx : 0x80 ≤ x) : ¬ UInt8.ofNat x < 0x80 := by
  rw [UInt8.lt_iff_toNat_lt, toNat_byte h]
  exact Nat.not_lt.mpr hx

theorem within_byte {lo hi x : Nat} (h : x < 256) : within lo hi (UInt8.ofNat x) = true ↔ lo ≤ x ∧ x ≤ hi := by
  rw [within, toNat_byte h, Bool.and_eq_true, decide_eq_true_eq, decide_eq_true_eq]

theorem decodeRune_one {x : Nat} (rest : List UInt8) (h : x < 0x80) :
    decodeRune (UInt8.ofNat x :: rest) = (Char.ofNat x, 1) := by
  have hx : UInt8.ofNat x < 0x80 := by
    rw [UInt8.lt_iff_toNat_lt, toNat_byte (by omega)]
    exact h
  simp only [decodeRune, List.getElem?_cons_zero, Option.getD_some]
  rw [if_pos hx, toNat_byte (by omega)]

theorem decodeRune_two {x y : Nat} (rest : List UInt8) (hx : 0xC2 ≤ x ∧ x ≤ 0xDF) (hy : 0x80 ≤ y ∧ y ≤ 0xBF) :
    decodeRune (UInt8.ofNat x :: UInt8.ofNat y :: rest) = (Char.ofNat (x % 32 * 64 + y % 64), 2) := by
  simp only [decodeRune, List.getElem?_cons_zero, List.getElem?_cons_succ, Option.getD_some]
  rw [if_neg (not_ascii (by omega) (by omega)), if_pos, toNat_byte (by omega), toNat_byte (by omega)]
  rw [Bool.and_eq_true, within_byte (by omega), within_byte (by omega)]
  exact ⟨hx, hy⟩

theorem decodeRune_three {x y z : Nat} (rest : List UInt8) (hx : 0xE0 ≤ x ∧ x ≤ 0xEF)
    (hy : (if x = 0xE0 then 0xA0 else 0x80) ≤ y ∧ y ≤ (if x = 0xED then 0x9F else 0xBF))
    (hz : 0x80 ≤ z ∧ z ≤ 0xBF) :
    decodeRune (UInt8.ofNat x :: UInt8.ofNat y :: UInt8.ofNat z :: rest) =
      (Char.ofNat (x % 16 * 4096 + y % 64 * 64 + z % 64), 3) := by
  have hyb : y < 256 := by split at hy <;> split at hy <;> omega
  have h0 : (UInt8.ofNat x = 0xE0) = (x = 0xE0) := by
    rw [← UInt8.toNat_inj, toNat_byte (by omega)]
    rfl
  have h1 : (UInt8.ofNat x = 0xED) = (x = 0xED) := by
    rw [← UInt8.toNat_inj, toNat_byte (by omega)]
    rfl
  simp only [decodeRune, List.getElem?_cons_zero, List.getElem?_cons_succ, Option.getD_some, h0, h1]
  rw [if_neg (not_ascii (by omega) (by omega)), if_neg, if_pos, toNat_byte (by omega), toNat_byte hyb,
    toNat_byte (by omega)]
  · rw [Bool.and_eq_true, Bool.and_eq_true, within_byte (by omega), within_byte hyb, within_byte (by omega)]
    exact ⟨⟨hx, hy⟩, hz⟩
  · rw [Bool.and_eq_true, within_byte (by omega)]
    omega

theorem decodeRune_four {x y z w : Nat} (rest : List UInt8) (hx : 0xF0 ≤ x ∧ x ≤ 0xF4)
    (hy : (if x = 0xF0 then 0x90 else 0x80) ≤ y ∧ y ≤ (if x = 0xF4 then 0x8F else 0xBF))
    (hz : 0x80 ≤ z ∧ z ≤ 0xBF) (hw : 0x80 ≤ w ∧ w ≤ 0xBF) :
    decodeRune (UInt8.ofNat x :: UInt8.ofNat y :: UInt8.ofNat z :: UInt8.ofNat w :: rest) =
      (Char.ofNat (x % 8 * 262144 + y % 64 * 4096 + z % 64 * 64 + w % 64), 4) := by
  have hyb : y < 256 := by split at hy <;> split at hy <;> omega
  have h0 : (UInt8.ofNat x = 0xF0) = (x = 0xF0) := by
    rw [← UInt8.toNat_inj, toNat_byte (by omega)]
    rfl
  have h1 : (UInt8.ofNat x = 0xF4) = (x = 0xF4) := by
    rw [← UInt8.toNat_inj, toNat_byte (by omega)]
    rfl
  simp only [decodeRune, List.getElem?_cons_zero, List.getElem?_cons_succ, Option.getD_some, h0, h1]
  rw [if_neg (not_ascii (by omega) (by omega)), if_neg, if_neg, if_pos, toNat_byte (by omega), toNat_byte hyb,
    toNat_byte (by omega), toNat_byte (by omega)]
  · rw [Bool.and_eq_true, Bool.and_eq_true, Bool.and_eq_true, within_byte (by omega), within_byte hyb,
      within_byte (by omega), within_byte (by omega)]
    exact ⟨⟨⟨hx, hy⟩, hz⟩, hw⟩
  · rw [Bool.and_eq_true, Bool.and_eq_true, within_byte (by omega)]
    omega
  · rw [Bool.and_eq_true, within_byte (by omega)]
    omega

/-- `DecodeRune` reads what `WriteRune` writes. -/
theorem decodeRune_encode (c : Char) (rest : List UInt8) :
    decodeRune (String.utf8EncodeChar c ++ rest) = (c, (String.utf8EncodeChar c).length) := by
  have hvalid : c.val.toNat < 0xd800 ∨ 0xdfff < c.val.toNat ∧ c.val.toNat < 0x110000 := c.valid
  have hc {n : Nat} (h : n = c.val.toNat) : Char.ofNat n = c := by
    rw [h]
    exact Char.ofNat_toNat c
  unfold String.utf8EncodeChar
  dsimp only
  generalize c.val.toNat = v at hvalid hc
  split_ifs with h1 h2 h3
  · rw [List.cons_append, decodeRune_one _ (by omega), hc rfl]
    rfl
  · rw [List.cons_append, List.cons_append, decodeRune_two _ (by omega) (by omega), hc (by omega)]
    rfl
  · rw [List.cons_append, List.cons_append, List.cons_append, decodeRune_three _ (by omega) _ (by omega),
      hc (by omega)]
    · rfl
    · constructor <;> split <;> omega
  · rw [List.cons_append, List.cons_append, List.cons_append, List.cons_append,
      decodeRune_four _ (by omega) _ (by omega) (by omega), hc (by omega)]
    · rfl
    · constructor <;> split <;> omega

/-- `runeLen` is the length of the rune that the byte leads. -/
theorem length_encode (c : Char) : ∃ lead rest, String.utf8EncodeChar c = lead :: rest ∧
    (String.utf8EncodeChar c).length = runeLen lead := by
  have hvalid : c.val.toNat < 0xd800 ∨ 0xdfff < c.val.toNat ∧ c.val.toNat < 0x110000 := c.valid
  unfold String.utf8EncodeChar
  dsimp only
  generalize c.val.toNat = v at hvalid
  have hlt {x : Nat} (h : x < 256) (b : UInt8) : UInt8.ofNat x < b ↔ x < b.toNat := by
    rw [UInt8.lt_iff_toNat_lt, toNat_byte h]
  split_ifs with h1 h2 h3
  · refine ⟨_, _, rfl, ?_⟩
    rw [runeLen, if_pos ((hlt (by omega) _).mpr (lt_of_le_of_lt h1 (by decide)))]
    rfl
  · refine ⟨_, _, rfl, ?_⟩
    rw [runeLen, if_neg ((hlt (by omega) _).not.mpr (show ¬ _ < 0xC0 by omega)),
      if_pos ((hlt (by omega) _).mpr (show _ < 0xE0 by omega))]
    rfl
  · refine ⟨_, _, rfl, ?_⟩
    rw [runeLen, if_neg ((hlt (by omega) _).not.mpr (show ¬ _ < 0xC0 by omega)),
      if_neg ((hlt (by omega) _).not.mpr (show ¬ _ < 0xE0 by omega)),
      if_pos ((hlt (by omega) _).mpr (show _ < 0xF0 by omega))]
    rfl
  · refine ⟨_, _, rfl, ?_⟩
    rw [runeLen, if_neg ((hlt (by omega) _).not.mpr (show ¬ _ < 0xC0 by omega)),
      if_neg ((hlt (by omega) _).not.mpr (show ¬ _ < 0xE0 by omega)),
      if_neg ((hlt (by omega) _).not.mpr (show ¬ _ < 0xF0 by omega))]
    rfl

/-! ## Where the items stand -/

namespace Lexer

variable {env : Env} {input : List UInt8} {l : Lexer} {c : Char} {cs : List Char}

theorem utf8_ne_nil : utf8 (c :: cs) ≠ [] := by
  rw [utf8_cons]
  exact List.append_ne_nil_of_left_ne_nil String.utf8EncodeChar_ne_nil _

theorem peek_cons (h : l.input = utf8 (c :: cs)) : l.peek = some c := by
  obtain ⟨lead, rest, he, hlen⟩ := length_encode c
  have hp : l.input.take (runeLen lead) = String.utf8EncodeChar c := by
    rw [h, utf8_cons, ← hlen, List.take_left]
  have hlead : l.input = lead :: (rest ++ utf8 cs) := by rw [h, utf8_cons, he, List.cons_append]
  have hdecode := decodeRune_encode c []
  rw [List.append_nil] at hdecode
  unfold peek
  rw [hlead] at hp ⊢
  dsimp only
  rw [hp, if_neg (by omega), hdecode]

theorem next_cons (h : l.input = utf8 (c :: cs)) : l.next =
    { l with
      pos := l.pos + (String.utf8EncodeChar c).length
      buffer := l.buffer ++ String.utf8EncodeChar c
      input := utf8 cs } := by
  rw [next, if_neg (h ▸ utf8_ne_nil), h, utf8_cons, decodeRune_encode]
  simp only [List.drop_left]

theorem next_nil (h : l.input = []) : l.next = l := by rw [next, if_pos h]

theorem peek_nil (h : l.input = []) : l.peek = none := by rw [peek, h]

/-- The values sent, the buffer and what is left make up the input; the items sent stand where
they say, and the next one at the end of their values. -/
structure Placed (input : List UInt8) (l : Lexer) : Prop where
  bytes : values l.items ++ l.buffer ++ l.input = input
  start : l.start = (values l.items).length
  pos : l.pos = l.start + l.buffer.length
  valid : ∃ cs, l.input = utf8 cs
  items : ∀ k x, l.items[k]? = some x → x.pos = (values (l.items.take k)).length
  full : ∀ x ∈ l.items, x.typ ≠ .itemEOF → x.val ≠ []

theorem Placed.next (h : Placed input l) : Placed input l.next := by
  obtain ⟨cs, hcs⟩ := h.valid
  cases cs with
  | nil =>
    rw [next_nil hcs]
    exact h
  | cons c cs =>
    rw [next_cons hcs]
    exact {
      bytes := by
        rw [← h.bytes, hcs, utf8_cons]
        simp only [List.append_assoc]
      start := h.start
      pos := by
        rw [h.pos, List.length_append, Nat.add_assoc]
      valid := ⟨cs, rfl⟩
      items := h.items
      full := h.full }

theorem Placed.goto (h : Placed input l) (state : LexState) : Placed input (l.goto state) :=
  ⟨h.bytes, h.start, h.pos, h.valid, h.items, h.full⟩

theorem Placed.stop (h : Placed input l) : Placed input l.stop :=
  ⟨h.bytes, h.start, h.pos, h.valid, h.items, h.full⟩

/-- An item that is emitted stands where the last one ended. -/
theorem Placed.emit (h : Placed input l) {t : ItemType} (ht : t ≠ .itemEOF → l.buffer ≠ []) :
    Placed input (l.emit t) where
  bytes := by
    rw [← h.bytes]
    simp [Lexer.emit, values]
  start := by
    show l.pos = _
    rw [h.pos, h.start]
    simp [Lexer.emit, values]
  pos := rfl
  valid := h.valid
  items := by
    intro k x hx
    have hx : (l.items ++ [⟨t, l.start, l.buffer⟩])[k]? = some x := hx
    show x.pos = (values ((l.items ++ [(⟨t, l.start, l.buffer⟩ : Item)]).take k)).length
    rcases Nat.lt_or_ge k l.items.length with hk | hk
    · rw [List.getElem?_append_left hk] at hx
      rw [List.take_append_of_le_length hk.le]
      exact h.items k x hx
    · rw [List.getElem?_append_right hk, List.getElem?_singleton] at hx
      split at hx
      · next hz =>
        cases hx
        rw [List.take_append_of_le_length (by omega), List.take_of_length_le hk]
        exact h.start
      · cases hx
  full := by
    intro x hx hne
    rcases List.mem_append.mp hx with hx | hx
    · exact h.full x hx hne
    · obtain rfl := List.mem_singleton.mp hx
      exact ht hne

theorem next_buffer (h : l.buffer ≠ []) : l.next.buffer ≠ [] := by
  rw [Lexer.next]
  split
  · exact h
  · exact List.append_ne_nil_of_left_ne_nil h _

theorem next_buffer_of_peek (h : l.peek ≠ none) : l.next.buffer ≠ [] := by
  have hne : l.input ≠ [] := fun hnil => h (peek_nil hnil)
  rw [Lexer.next, if_neg hne]
  exact List.append_ne_nil_of_right_ne_nil _ String.utf8EncodeChar_ne_nil

@[simp] theorem next_items : l.next.items = l.items := by
  rw [Lexer.next]
  split <;> rfl

@[simp] theorem next_state : l.next.state = l.state := by
  rw [Lexer.next]
  split <;> rfl

/-- What a state function has taken of its item, or is about to. -/
def Begun (env : Env) (l : Lexer) : LexState → Prop
  | .lexText => l.buffer = []
  | .lexIdentifier => l.buffer ≠ [] ∨ l.peek.any (isIdentifierPart env) = true
  | .lexWhiteSpace => l.buffer ≠ [] ∨ l.peek.any isSpace = true
  | .lexCommentLine => l.buffer ≠ [] ∨ l.peek = some '#'
  | .lexString | .escape | .unicode _ => l.buffer ≠ []

/-- The last item, and no other, is the end of the input. -/
def Ended (items : List Item) : Prop :=
  ∃ sent x, items = sent ++ [x] ∧ x.typ = .itemEOF ∧ ∀ y ∈ sent, y.typ ≠ .itemEOF

/-- A lexer that has met no error. -/
structure Sound (env : Env) (input : List UInt8) (l : Lexer) : Prop where
  placed : Placed input l
  running : ∀ state, l.state = some state → Begun env l state ∧ ∀ x ∈ l.items, x.typ ≠ .itemEOF
  ended : l.state = none → l.buffer = [] ∧ l.input = [] ∧ Ended l.items

theorem sound_of_running {state : LexState} (hp : Placed input l) (hs : l.state = some state)
    (hb : Begun env l state) (hno : ∀ x ∈ l.items, x.typ ≠ .itemEOF) : Sound env input l where
  placed := hp
  running := by
    intro state' hs'
    obtain rfl : state = state' := Option.some_inj.mp (hs.symm.trans hs')
    exact ⟨hb, hno⟩
  ended := by
    intro hnone
    rw [hs] at hnone
    cases hnone

/-- After an item the lexer is back in `lexText`. -/
theorem sound_emit {t : ItemType} (hp : Placed input l) (hb : l.buffer ≠ []) (ht : t ≠ .itemEOF)
    (hno : ∀ x ∈ l.items, x.typ ≠ .itemEOF) : Sound env input ((l.emit t).goto .lexText) := by
  refine sound_of_running ((hp.emit fun _ => hb).goto .lexText) rfl rfl fun x hx => ?_
  rcases List.mem_append.mp hx with hx | hx
  · exact hno x hx
  · obtain rfl := List.mem_singleton.mp hx
    exact ht

theorem Placed.input_nil (hp : Placed input l) (h : l.peek = none) : l.input = [] := by
  obtain ⟨cs, hcs⟩ := hp.valid
  cases cs with
  | nil => exact hcs
  | cons c cs =>
    rw [peek_cons hcs] at h
    cases h

/-- A lexer that has sent an error. -/
def Failed (l : Lexer) : Prop := ∃ x ∈ l.items, x.typ = .itemError

theorem failed_errorf (message : String) : Failed (l.errorf message) :=
  ⟨_, List.mem_append_right _ (List.mem_singleton.mpr rfl), rfl⟩

theorem Sound.stepText (h : Sound env input l) (hs : l.state = some .lexText) :
    Sound env input (l.stepText env) ∨ Failed (l.stepText env) := by
  obtain ⟨hb, hno⟩ := h.running _ hs
  have hbuf : l.buffer = [] := hb
  cases hpeek : l.peek with
  | none =>
    have hnil := h.placed.input_nil hpeek
    rw [Lexer.stepText, hpeek]
    dsimp only
    rw [next_nil hnil]
    refine .inl ⟨(h.placed.emit fun hne => absurd rfl hne).stop, ?_, fun _ => ⟨rfl, hnil, ?_⟩⟩
    · intro state hnone
      cases hnone
    · exact ⟨l.items, _, rfl, rfl, hno⟩
  | some c =>
    have hne : l.peek ≠ none := by
      rw [hpeek]
      exact Option.some_ne_none c
    have hno' : ∀ x ∈ l.next.items, x.typ ≠ .itemEOF := by rwa [next_items]
    -- A rune that is an item by itself.
    have hsingle {t : ItemType} (ht : t ≠ .itemEOF) : Sound env input (l.next.emit t) := by
      have hstate : (l.next.emit t).goto .lexText = l.next.emit t := by
        have hnext : l.next.state = some .lexText := by rw [next_state, hs]
        rw [Lexer.goto, ← hnext]
        rfl
      rw [← hstate]
      exact sound_emit h.placed.next (next_buffer_of_peek hne) ht hno'
    rw [Lexer.stepText, hpeek]
    dsimp only
    split_ifs with hquote hopen hclose hsemi hhash hspace hpart
    · exact .inl (sound_of_running (h.placed.next.goto _) rfl (next_buffer_of_peek hne) hno')
    · exact .inl (hsingle (by decide))
    · exact .inl (hsingle (by decide))
    · exact .inl (hsingle (by decide))
    · refine .inl (sound_of_running (h.placed.goto _) rfl (.inr ?_) hno)
      rw [← hhash]
      exact hpeek
    · refine .inl (sound_of_running (h.placed.goto _) rfl (.inr ?_) hno)
      show l.peek.any isSpace = true
      rw [hpeek]
      exact hspace
    · refine .inl (sound_of_running (h.placed.goto _) rfl (.inr ?_) hno)
      show l.peek.any (isIdentifierPart env) = true
      rw [hpeek]
      exact hpart
    · exact .inr (failed_errorf _)

theorem Sound.stepString (h : Sound env input l) (hs : l.state = some .lexString) :
    Sound env input l.stepString ∨ Failed l.stepString := by
  obtain ⟨hb, hno⟩ := h.running _ hs
  have hno' : ∀ x ∈ l.next.items, x.typ ≠ .itemEOF := by rwa [next_items]
  cases hread : l.read with
  | none =>
    rw [Lexer.stepString, hread]
    exact .inr (failed_errorf _)
  | some c =>
    rw [Lexer.stepString, hread]
    dsimp only
    split_ifs
    · exact .inl (sound_emit h.placed.next (next_buffer hb) (by decide) hno')
    · exact .inl (sound_of_running (h.placed.next.goto _) rfl (next_buffer hb) hno')
    · exact .inr (failed_errorf _)
    · exact .inl (sound_of_running h.placed.next (next_state.trans hs) (next_buffer hb) hno')

/-- A round keeps the lexer sound, or sends an error. -/
theorem Sound.step (h : Sound env input l) : Sound env input (l.step env) ∨ Failed (l.step env) := by
  cases hs : l.state with
  | none =>
    rw [Lexer.step, hs]
    exact .inl h
  | some state =>
    obtain ⟨hb, hno⟩ := h.running _ hs
    have hno' : ∀ x ∈ l.next.items, x.typ ≠ .itemEOF := by rwa [next_items]
    -- The loops of the states that look ahead: a rune that belongs to the item, and its end.
    have htake (hb' : Begun env l.next state) : Sound env input l.next :=
      sound_of_running h.placed.next (next_state.trans hs) hb' hno'
    have hgoto {state' : LexState} (hb' : Begun env (l.next.goto state') state') :
        Sound env input (l.next.goto state') :=
      sound_of_running (h.placed.next.goto _) rfl hb' hno'
    rw [Lexer.step, hs]
    cases state with
    | lexText => exact h.stepText hs
    | lexIdentifier =>
      dsimp only
      split_ifs with hpart
      · refine .inl (htake (.inl (next_buffer_of_peek fun hnone => ?_)))
        rw [hnone] at hpart
        cases hpart
      · exact .inl (sound_emit h.placed (hb.resolve_right hpart) (by decide) hno)
    | lexWhiteSpace =>
      dsimp only
      split_ifs with hspace
      · refine .inl (htake (.inl (next_buffer_of_peek fun hnone => ?_)))
        rw [hnone] at hspace
        cases hspace
      · exact .inl (sound_emit h.placed (hb.resolve_right hspace) (by decide) hno)
    | lexCommentLine =>
      dsimp only
      split_ifs with hline
      · refine .inl (htake (.inl ?_))
        rcases hb with hb | hb
        · exact next_buffer hb
        · exact next_buffer_of_peek (hb ▸ Option.some_ne_none _)
      · have hbuf : l.buffer ≠ [] := by
          refine hb.resolve_right fun hhash => ?_
          rw [not_not, hhash] at hline
          exact absurd hline (by decide)
        exact .inl (sound_emit h.placed hbuf (by decide) hno)
    | lexString => exact h.stepString hs
    | escape =>
      dsimp only
      split_ifs
      · exact .inl (hgoto (next_buffer hb))
      · exact .inl (hgoto (next_buffer hb))
      · exact .inl (hgoto (next_buffer hb))
    | unicode digits =>
      dsimp only
      split
      · refine .inl (hgoto ?_)
        split
        · exact next_buffer hb
        · exact next_buffer hb
      · exact .inr (failed_errorf _)

theorem items_emit (t : ItemType) (l : Lexer) : l.items <+: (l.emit t).items := List.prefix_append _ _

theorem items_errorf (message : String) (l : Lexer) : l.items <+: (l.errorf message).items :=
  List.prefix_append _ _

theorem items_next_emit (t : ItemType) (l : Lexer) : l.items <+: (l.next.emit t).items :=
  next_items (l := l) ▸ items_emit t l.next

theorem items_next (l : Lexer) : l.items <+: l.next.items :=
  next_items (l := l) ▸ List.prefix_rfl

theorem items_stepText (l : Lexer) : l.items <+: (l.stepText env).items := by
  rw [Lexer.stepText]
  split
  · exact items_next_emit _ l
  · split_ifs
    · exact items_next l
    · exact items_next_emit _ l
    · exact items_next_emit _ l
    · exact items_next_emit _ l
    · exact List.prefix_rfl
    · exact List.prefix_rfl
    · exact List.prefix_rfl
    · exact items_errorf _ l

theorem items_stepString (l : Lexer) : l.items <+: l.stepString.items := by
  rw [Lexer.stepString]
  split
  · exact items_errorf _ l
  · split_ifs
    · exact items_next_emit _ l
    · exact items_next l
    · exact (items_next l).trans (items_errorf _ _)
    · exact items_next l

/-- Items that are sent stay sent. -/
theorem items_step (l : Lexer) : l.items <+: (l.step env).items := by
  rw [Lexer.step]
  split
  · exact List.prefix_rfl
  · exact items_stepText l
  · split
    · exact items_next l
    · exact items_emit _ l
  · split
    · exact items_next l
    · exact items_emit _ l
  · split
    · exact items_next l
    · exact items_emit _ l
  · exact items_stepString l
  · split_ifs
    · exact items_next l
    · exact items_next l
    · exact items_next l
  · split
    · exact items_next l
    · exact items_errorf _ l

theorem items_run (n : Nat) (l : Lexer) : l.items <+: (l.run env n).items := by
  induction n generalizing l with
  | zero => exact List.prefix_rfl
  | succ n ih => exact (items_step l).trans (ih _)

theorem Sound.run (n : Nat) (h : Sound env input l) : Sound env input (l.run env n) ∨ Failed (l.run env n) := by
  induction n generalizing l with
  | zero => exact .inl h
  | succ n ih =>
    rcases h.step with hsound | ⟨x, hx, hfailed⟩
    · exact ih hsound
    · exact .inr ⟨x, (items_run n _).subset hx, hfailed⟩

theorem sound_lex (input : List Char) : Sound env (utf8 input) { input := utf8 input } := by
  refine sound_of_running ⟨rfl, rfl, rfl, ⟨input, rfl⟩, ?_, ?_⟩ rfl rfl ?_
  · intro k x hx
    cases hx
  · intro x hx
    cases hx
  · intro x hx
    cases hx

/-- On valid UTF-8 that the lexer ends on without an error the values of the items, of which
the last is the end, make up the input; each item is where its value starts, and none but the
end is empty. -/
theorem lex_lossless (env : Env) (input : List Char) (n : Nat)
    (hend : (run env n { input := utf8 input }).state = none)
    (hok : ∀ x ∈ (run env n { input := utf8 input }).items, x.typ ≠ .itemError) :
    values (run env n { input := utf8 input }).items = utf8 input ∧
      Ended (run env n { input := utf8 input }).items ∧
      (∀ k x, (run env n { input := utf8 input }).items[k]? = some x →
        x.pos = (values ((run env n { input := utf8 input }).items.take k)).length) ∧
      ∀ x ∈ (run env n { input := utf8 input }).items, x.typ ≠ .itemEOF → x.val ≠ [] := by
  rcases (sound_lex input).run n with h | ⟨x, hx, hfailed⟩
  · obtain ⟨hbuf, hinput, hended⟩ := h.ended hend
    refine ⟨?_, hended, h.placed.items, h.placed.full⟩
    have hbytes := h.placed.bytes
    rwa [hbuf, hinput, List.append_nil, List.append_nil] at hbytes
  · exact absurd hfailed (hok x hx)

/-- A comment of two-byte runes, its end of line and a semicolon. -/
theorem lex_comment : values (run Env.ascii 9 { input := utf8 ['#', 'é', '\n', ';'] }).items =
    utf8 ['#', 'é', '\n', ';'] :=
  (lex_lossless Env.ascii ['#', 'é', '\n', ';'] 9 (by decide) (by decide)).1

end Lexer

/-! ## Without positions -/

/-- The item as `LoadConfig` sees it. -/
def Shown (x : Item) (y : OpenConfigd.Item) : Prop :=
  match y with
  | .itemError => x.typ = .itemError
  | .itemEOF => x.typ = .itemEOF
  | .itemWhiteSpace => x.typ = .itemWhiteSpace
  | .itemLeftBrace => x.typ = .itemLeftBrace
  | .itemRightBrace => x.typ = .itemRightBrace
  | .itemSemiColon => x.typ = .itemSemiColon
  | .itemString val => x.typ = .itemString ∧ x.val = utf8 val
  | .itemIdentifier val => x.typ = .itemIdentifier ∧ x.val = utf8 val

/-- The lexer that has sent items and stands as the other does. -/
structure Shows (l : Lexer) (items : List OpenConfigd.Item) (m : OpenConfigd.Lexer) : Prop where
  state : l.state = m.state
  buffer : l.buffer = utf8 m.buffer
  input : runes l.input = m.input
  items : List.Forall₂ Shown l.items items

theorem runesFrom_skip (input : List UInt8) (skip : Nat) : runesFrom input skip = runes (input.drop skip) := by
  induction input generalizing skip with
  | nil => rw [List.drop_nil, runes, runesFrom, runesFrom]
  | cons b bs ih =>
    cases skip with
    | zero => rfl
    | succ skip =>
      rw [runesFrom, ih]
      rfl

theorem one_le_width (p : List UInt8) : 1 ≤ (decodeRune p).2 := by
  have hite {q : Prop} [Decidable q] {x y : Char × Nat} (hx : 1 ≤ x.2) (hy : 1 ≤ y.2) : 1 ≤ (if q then x else y).2 := by
    split
    · exact hx
    · exact hy
  exact hite (Nat.le_add_left 1 0) (hite (Nat.le_add_left 1 1) (hite (Nat.le_add_left 1 2)
    (hite (Nat.le_add_left 1 3) (Nat.le_refl 1))))

/-- What follows a rune in the input. -/
theorem runes_cons (b : UInt8) (bs : List UInt8) : runes (b :: bs) =
    ⟨(decodeRune (b :: bs)).1, (b :: bs).length < runeLen b⟩ :: runes ((b :: bs).drop (decodeRune (b :: bs)).2) := by
  have hwidth := one_le_width (b :: bs)
  obtain ⟨w, hw⟩ : ∃ w, (decodeRune (b :: bs)).2 = w + 1 := ⟨_, (Nat.sub_add_cancel hwidth).symm⟩
  rw [runes, runesFrom]
  show _ :: runesFrom bs ((decodeRune (b :: bs)).2 - 1) = _
  rw [runesFrom_skip, hw]
  rfl

theorem within_false {lo hi : Nat} {b : UInt8} (h : b.toNat < lo) : within lo hi b = false := by
  rw [within, decide_eq_false (Nat.not_le.mpr h), Bool.false_and]

/-- `DecodeRune` does not look behind the bytes that the first one announces. -/
theorem decodeRune_take (b : UInt8) (bs : List UInt8) :
    decodeRune ((b :: bs).take (runeLen b)) = decodeRune (b :: bs) := by
  have hlt {c : UInt8} : b < c ↔ b.toNat < c.toNat := UInt8.lt_iff_toNat_lt
  have hc0 : (0xC0 : UInt8).toNat = 0xC0 := rfl
  have he0 : (0xE0 : UInt8).toNat = 0xE0 := rfl
  have hf0 : (0xF0 : UInt8).toNat = 0xF0 := rfl
  rw [runeLen]
  split_ifs with h1 h2 h3
  · rw [hlt, hc0] at h1
    simp only [decodeRune, List.getElem?_take, List.getElem?_cons_zero, Option.getD_some, Nat.one_pos, if_true,
      within_false (show b.toNat < 0xC2 by omega), within_false (show b.toNat < 0xE0 by omega),
      within_false (show b.toNat < 0xF0 by omega), Bool.false_and, Bool.false_eq_true, if_false]
  · rw [hlt, he0] at h2
    simp only [decodeRune, List.getElem?_take, List.getElem?_cons_zero, Option.getD_some, Nat.two_pos,
      Nat.one_lt_two, if_true, within_false (show b.toNat < 0xE0 by omega),
      within_false (show b.toNat < 0xF0 by omega), Bool.false_and, Bool.false_eq_true, if_false]
  · rw [hlt, hf0] at h3
    simp only [decodeRune, List.getElem?_take, show 0 < 3 by decide, show 1 < 3 by decide, show 2 < 3 by decide,
      List.getElem?_cons_zero, Option.getD_some, if_true, within_false (show b.toNat < 0xF0 by omega),
      Bool.false_and, Bool.false_eq_true, if_false]
  · simp only [decodeRune, List.getElem?_take, show 0 < 4 by decide, show 1 < 4 by decide, show 2 < 4 by decide,
      show 3 < 4 by decide, if_true]

namespace Shows

variable {env : Env} {l : Lexer} {items : List OpenConfigd.Item} {m : OpenConfigd.Lexer}

theorem input_nil (h : Shows l items m) (hl : l.input = []) : m.input = [] := by
  rw [← h.input, hl]
  rfl

theorem read_eq (h : Shows l items m) : l.read = m.read := by
  rw [Lexer.read, OpenConfigd.Lexer.read, ← h.input]
  cases hl : l.input with
  | nil => rfl
  | cons b bs =>
    rw [if_neg (List.cons_ne_nil b bs), runes_cons]
    rfl

theorem peek_eq (h : Shows l items m) : l.peek = m.peek := by
  rw [Lexer.peek, OpenConfigd.Lexer.peek, ← h.input]
  cases hl : l.input with
  | nil => rfl
  | cons b bs =>
    rw [runes_cons]
    dsimp only
    have hlen : ((b :: bs).take (runeLen b)).length < runeLen b ↔ (b :: bs).length < runeLen b := by
      rw [List.length_take]
      omega
    rw [decodeRune_take]
    by_cases hcut : (b :: bs).length < runeLen b
    · rw [if_pos (hlen.mpr hcut), if_pos (decide_eq_true hcut)]
    · rw [if_neg (hlen.not.mpr hcut), if_neg (by simpa using hcut)]

theorem next (h : Shows l items m) : Shows l.next items m.next := by
  rw [Lexer.next, OpenConfigd.Lexer.next]
  cases hl : l.input with
  | nil =>
    rw [if_pos rfl, h.input_nil hl]
    exact h
  | cons b bs =>
    have hm : m.input = runes (b :: bs) := by rw [← h.input, hl]
    rw [if_neg (List.cons_ne_nil b bs), hm, runes_cons]
    refine ⟨h.state, ?_, rfl, h.items⟩
    show l.buffer ++ String.utf8EncodeChar _ = utf8 (m.buffer ++ [_])
    rw [h.buffer, utf8, utf8, List.flatMap_append, List.flatMap_singleton]

theorem goto (h : Shows l items m) (state : LexState) : Shows (l.goto state) items (m.goto state) :=
  ⟨rfl, h.buffer, h.input, h.items⟩

theorem stop (h : Shows l items m) : Shows l.stop items m.stop := ⟨rfl, h.buffer, h.input, h.items⟩

theorem errorf (h : Shows l items m) (message : String) :
    Shows (l.errorf message) (items ++ [.itemError]) m.stop :=
  ⟨rfl, h.buffer, h.input, List.rel_append h.items (.cons rfl .nil)⟩

theorem emit (h : Shows l items m) {t : ItemType} {y : OpenConfigd.Item}
    (hy : ∀ pos, Shown ⟨t, pos, utf8 m.buffer⟩ y) : Shows ((l.emit t).goto .lexText) (items ++ [y]) m.text := by
  refine ⟨rfl, rfl, h.input, List.rel_append h.items (.cons ?_ .nil)⟩
  rw [h.buffer]
  exact hy l.start

theorem none (h : Shows l items m) : Shows l (items ++ []) m := by
  rwa [List.append_nil]

theorem stepText (h : Shows l items m) (hs : m.state = some .lexText) :
    Shows (l.stepText env) (items ++ (m.stepText env).1) (m.stepText env).2 := by
  have htext {t : ItemType} {y : OpenConfigd.Item} (hy : ∀ pos, Shown ⟨t, pos, utf8 m.next.buffer⟩ y) :
      Shows (l.next.emit t) (items ++ [y]) m.next.text := by
    have hstate : (l.next.emit t).goto .lexText = l.next.emit t := by
      have hnext : l.next.state = some .lexText := by rw [Lexer.next_state, h.state, hs]
      rw [Lexer.goto, ← hnext]
      rfl
    rw [← hstate]
    exact h.next.emit hy
  rw [Lexer.stepText, OpenConfigd.Lexer.stepText, h.peek_eq]
  cases m.peek with
  | none =>
    have heof : Shows (l.next.emit .itemEOF) (items ++ [.itemEOF]) m.next.text := htext fun _ => rfl
    exact heof.stop
  | some c =>
    dsimp only
    split_ifs
    · exact (h.next.goto _).none
    · exact htext fun _ => rfl
    · exact htext fun _ => rfl
    · exact htext fun _ => rfl
    · exact (h.goto _).none
    · exact (h.goto _).none
    · exact (h.goto _).none
    · exact h.errorf _

theorem stepString (h : Shows l items m) :
    Shows l.stepString (items ++ m.stepString.1) m.stepString.2 := by
  rw [Lexer.stepString, OpenConfigd.Lexer.stepString, h.read_eq]
  cases m.read with
  | none => exact h.errorf _
  | some c =>
    dsimp only
    split_ifs
    · exact h.next.emit fun _ => ⟨rfl, rfl⟩
    · exact (h.next.goto _).none
    · exact h.next.errorf _
    · exact h.next.none

/-- A round of the lexer is a round of the other. -/
theorem step (h : Shows l items m) : Shows (l.step env) (items ++ (m.step env).1) (m.step env).2 := by
  rw [Lexer.step, OpenConfigd.Lexer.step, h.state]
  cases hs : m.state with
  | none => exact h.none
  | some state =>
    rw [h.peek_eq, h.read_eq]
    cases state with
    | lexText => exact h.stepText hs
    | lexIdentifier =>
      dsimp only
      split
      · exact h.next.none
      · exact h.emit fun _ => ⟨rfl, rfl⟩
    | lexWhiteSpace =>
      dsimp only
      split
      · exact h.next.none
      · exact h.emit fun _ => rfl
    | lexCommentLine =>
      dsimp only
      split
      · exact h.next.none
      · exact h.emit fun _ => rfl
    | lexString => exact h.stepString
    | escape =>
      dsimp only
      split_ifs
      · exact (h.next.goto _).none
      · exact (h.next.goto _).none
      · exact (h.next.goto _).none
    | unicode digits =>
      dsimp only
      split
      · exact (h.next.goto _).none
      · exact h.errorf _

theorem run (h : Shows l items m) (n : Nat) :
    Shows (l.run env n) (items ++ (m.run env n).1) (m.run env n).2 := by
  induction n generalizing l items m with
  | zero => exact h.none
  | succ n ih =>
    rw [OpenConfigd.Lexer.run]
    dsimp only
    rw [← List.append_assoc]
    exact ih h.step

/-- On every input the items are those of `Config.Lexer`. -/
theorem run_lex (env : Env) (input : List UInt8) (n : Nat) :
    Shows (Lexer.run env n { input }) (OpenConfigd.Lexer.run env n { input := runes input }).1
      (OpenConfigd.Lexer.run env n { input := runes input }).2 := by
  have h : Shows { input } [] { input := runes input } := ⟨rfl, rfl, rfl, .nil⟩
  exact h.run n

end Shows

end OpenConfigd.Load
