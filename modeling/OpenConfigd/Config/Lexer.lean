import OpenConfigd.Config.Load

/-!
# The lexer on bytes

`load.go`'s lexer takes runes from its input with `next`, which reads an invalid byte
as U+FFFD, and looks ahead with `peek`, which sees the end of the input when fewer
bytes are left than the first one announces. `Lexer.step` is one round of the loops of
its state functions. `run_tokens`: the goroutine sends `tokens` and ends, unless the
text ends in a comment (`endsInComment`), where `lexCommentLine` goes on for ever.
-/

namespace OpenConfigd

/-- A rune as `next` returns it; `cut` when `peek` sees the end of the input there. -/
structure Rune where
  char : Char
  cut : Bool := false
  deriving DecidableEq, Repr

/-- `runeLen`. -/
def runeLen (lead : UInt8) : Nat :=
  if lead < 0xC0 then 1 else if lead < 0xE0 then 2 else if lead < 0xF0 then 3 else 4

/-- The byte is within bounds. -/
def within (lo hi : Nat) (b : UInt8) : Bool := lo ≤ b.toNat && b.toNat ≤ hi

/-- `utf8.DecodeRune`: the rune and its width, U+FFFD and one for an encoding that is not
valid. A byte that is missing counts as 0, which continues no rune. -/
def decodeRune (p : List UInt8) : Char × Nat :=
  let b (i : Nat) : UInt8 := p[i]?.getD 0
  let low (i : Nat) : Nat := (b i).toNat % 64
  if b 0 < 0x80 then (Char.ofNat (b 0).toNat, 1)
  else if within 0xC2 0xDF (b 0) && within 0x80 0xBF (b 1) then
    (Char.ofNat ((b 0).toNat % 32 * 64 + low 1), 2)
  else if within 0xE0 0xEF (b 0) &&
      within (if b 0 = 0xE0 then 0xA0 else 0x80) (if b 0 = 0xED then 0x9F else 0xBF) (b 1) &&
      within 0x80 0xBF (b 2) then
    (Char.ofNat ((b 0).toNat % 16 * 4096 + low 1 * 64 + low 2), 3)
  else if within 0xF0 0xF4 (b 0) &&
      within (if b 0 = 0xF0 then 0x90 else 0x80) (if b 0 = 0xF4 then 0x8F else 0xBF) (b 1) &&
      within 0x80 0xBF (b 2) && within 0x80 0xBF (b 3) then
    (Char.ofNat ((b 0).toNat % 8 * 262144 + low 1 * 4096 + low 2 * 64 + low 3), 4)
  else ('\uFFFD', 1)

/-- The runes of the input; `skip` bytes belong to the rune before. -/
def runesFrom : List UInt8 → (skip : Nat) → List Rune
  | [], _ => []
  | b :: bs, 0 =>
    let (char, width) := decodeRune (b :: bs)
    ⟨char, (b :: bs).length < runeLen b⟩ :: runesFrom bs (width - 1)
  | _ :: bs, skip + 1 => runesFrom bs skip

/-- The runes of the input. -/
def runes (input : List UInt8) : List Rune := runesFrom input 0

/-- `lexer`: the state function, nil when the goroutine has ended, and what it has taken of the
item so far. -/
structure Lexer where
  state : Option LexState := some .lexText
  buffer : List Char := []
  input : List Rune

namespace Lexer

/-- `peek`; the end of the input is `none`. -/
def peek (l : Lexer) : Option Char :=
  match l.input with
  | [] => none
  | r :: _ => if r.cut then none else some r.char

/-- The rune that `next` returns; the end of the input is `none`. -/
def read (l : Lexer) : Option Char := l.input.head?.map Rune.char

/-- `next`. -/
def next (l : Lexer) : Lexer :=
  match l.input with
  | [] => l
  | r :: rs => { l with buffer := l.buffer ++ [r.char], input := rs }

/-- The lexer with another state function. -/
def goto (state : LexState) (l : Lexer) : Lexer := { l with state := some state }

/-- The lexer after `emit`, back in `lexText`. -/
def text (l : Lexer) : Lexer := { l with state := some .lexText, buffer := [] }

/-- The lexer at its end. -/
def stop (l : Lexer) : Lexer := { l with state := none }

variable (env : Env)

/-- One round of the loop of `lexText`. -/
def stepText (l : Lexer) : List Item × Lexer :=
  match l.peek with
  | none => ([.itemEOF], l.next.text.stop)
  | some c =>
    if c = '"' then ([], l.next.goto .lexString)
    else if c = '{' then ([.itemLeftBrace], l.next.text)
    else if c = '}' then ([.itemRightBrace], l.next.text)
    else if c = ';' then ([.itemSemiColon], l.next.text)
    else if c = '#' then ([], l.goto .lexCommentLine)
    else if isSpace c then ([], l.goto .lexWhiteSpace)
    else if isIdentifierPart env c then ([], l.goto .lexIdentifier)
    else ([.itemError], l.stop)

/-- One round of the loop of `lexString`. -/
def stepString (l : Lexer) : List Item × Lexer :=
  match l.read with
  | none => ([.itemError], l.stop)
  | some c =>
    if c = '"' then ([.itemString l.next.buffer], l.next.text)
    else if c = '\\' then ([], l.next.goto .escape)
    else if isControl c then ([.itemError], l.next.stop)
    else ([], l.next)

/-- One round of the loop of a state function: the items it sends, and the lexer. -/
def step (l : Lexer) : List Item × Lexer :=
  match l.state with
  | none => ([], l)
  | some .lexText => stepText env l
  | some .lexIdentifier =>
    if l.peek.any (isIdentifierPart env) then ([], l.next) else ([.itemIdentifier l.buffer], l.text)
  | some .lexWhiteSpace => if l.peek.any isSpace then ([], l.next) else ([.itemWhiteSpace], l.text)
  | some .lexCommentLine => if l.peek ≠ some '\n' then ([], l.next) else ([.itemWhiteSpace], l.text)
  | some .lexString => stepString l
  | some .escape =>
    if l.peek.any escapes.contains then ([], l.next.goto .lexString)
    else if l.read = some 'u' then ([], l.next.goto (.unicode 4))
    else ([], l.next.goto .lexString)
  | some (.unicode digits) =>
    if l.peek.any hexdigit.contains then
      ([], l.next.goto (if digits ≤ 1 then .lexString else .unicode (digits - 1)))
    else ([.itemError], l.stop)

/-- The items sent in a number of rounds, and the lexer after them. -/
def run : Nat → Lexer → List Item × Lexer
  | 0, l => ([], l)
  | n + 1, l =>
    let r := run n (l.step env).2
    ((l.step env).1 ++ r.1, r.2)

end Lexer

/-! ## The items of a text -/

section

variable (env : Env)

/-- What `lexText` makes of a rune: the item it sends, and the next state with the item so far;
`none` when the lexer ends. -/
def takeText (r : Rune) : List Item × Option (LexState × List Char) :=
  if r.cut then ([.itemEOF], none)
  else if r.char = '"' then ([], some (.lexString, [r.char]))
  else if r.char = '{' then ([.itemLeftBrace], some (.lexText, []))
  else if r.char = '}' then ([.itemRightBrace], some (.lexText, []))
  else if r.char = ';' then ([.itemSemiColon], some (.lexText, []))
  else if r.char = '#' then ([], some (.lexCommentLine, [r.char]))
  else if isSpace r.char then ([], some (.lexWhiteSpace, [r.char]))
  else if isIdentifierPart env r.char then ([], some (.lexIdentifier, [r.char]))
  else ([.itemError], none)

/-- An item, and then what `lexText` makes of the rune. -/
def endItem (item : Item) (r : Rune) : List Item × Option (LexState × List Char) :=
  (item :: (takeText env r).1, (takeText env r).2)

/-- What the lexer makes of the next rune. -/
def take (state : LexState) (buf : List Char) (r : Rune) : List Item × Option (LexState × List Char) :=
  let go (state : LexState) : List Item × Option (LexState × List Char) :=
    ([], some (state, buf ++ [r.char]))
  match state with
  | .lexText => takeText env r
  | .lexIdentifier =>
    if !r.cut && isIdentifierPart env r.char then go .lexIdentifier else endItem env (.itemIdentifier buf) r
  | .lexWhiteSpace => if !r.cut && isSpace r.char then go .lexWhiteSpace else endItem env .itemWhiteSpace r
  | .lexCommentLine =>
    if r.cut || r.char ≠ '\n' then go .lexCommentLine else endItem env .itemWhiteSpace r
  | .lexString =>
    if r.char = '"' then ([.itemString (buf ++ [r.char])], some (.lexText, []))
    else if r.char = '\\' then go .escape
    else if isControl r.char then ([.itemError], none)
    else go .lexString
  | .escape =>
    if !r.cut && escapes.contains r.char then go .lexString
    else if r.char = 'u' then go (.unicode 4)
    else go .lexString
  | .unicode digits =>
    if !r.cut && hexdigit.contains r.char then go (if digits ≤ 1 then .lexString else .unicode (digits - 1))
    else ([.itemError], none)

/-- The items the lexer sends from a state on. -/
def lexRunes : LexState → List Char → List Rune → List Item
  | state, buf, [] => lex env state buf []
  | state, buf, r :: rs =>
    (take env state buf r).1 ++
      match (take env state buf r).2 with
      | none => []
      | some (state, buf) => lexRunes state buf rs

/-- The text from a state on ends in a comment. -/
def inComment : LexState → List Rune → Bool
  | state, [] => state = .lexCommentLine
  | state, r :: rs =>
    match (take env state [] r).2 with
    | none => false
    | some (state, _) => inComment state rs

/-- The items of a text. -/
def tokens (input : List UInt8) : List Item := lexRunes env .lexText [] (runes input)

/-- The text ends in a comment: what follows its last `#` that is not in a string or a comment
has no end of line. -/
def endsInComment (input : List UInt8) : Bool := inComment env .lexText (runes input)

end

/-- On runes that are whole, the items are those of `lex`. -/
theorem lexRunes_chars (env : Env) (cs : List Char) (state : LexState) (buf : List Char) :
    lexRunes env state buf (cs.map fun c => ⟨c, false⟩) = lex env state buf cs := by
  -- What is sent for a rune, and then for what is left of it.
  let sent (cs : List Char) (p : List Item × Option (LexState × List Char)) : List Item :=
    p.1 ++ match p.2 with
      | none => []
      | some (state, buf) => lex env state buf cs
  have htext (c : Char) (cs : List Char) : sent cs (takeText env ⟨c, false⟩) =
      lexText env c fun state buf => lex env state buf cs := by
    rw [takeText, if_neg Bool.false_ne_true]
    simp only [apply_ite (sent cs)]
    rfl
  have hend (item : Item) (c : Char) (cs : List Char) : sent cs (endItem env item ⟨c, false⟩) =
      item :: lexText env c fun state buf => lex env state buf cs :=
    congrArg (item :: ·) (htext c cs)
  induction cs generalizing state buf with
  | nil => rfl
  | cons c cs ih =>
    have hsent : lexRunes env state buf ((c :: cs).map fun c => ⟨c, false⟩) =
        sent cs (take env state buf ⟨c, false⟩) := by
      rw [List.map_cons, lexRunes]
      show _ ++ _ = _ ++ _
      congr 1
      split
      · rfl
      · exact ih _ _
    rw [hsent]
    cases state with
    | lexText => exact htext c cs
    | lexIdentifier =>
      by_cases h : isIdentifierPart env c = true
      · exact (congrArg (sent cs) (if_pos h)).trans (if_pos h).symm
      · exact (congrArg (sent cs) (if_neg h)).trans ((hend _ c cs).trans (if_neg h).symm)
    | lexWhiteSpace =>
      by_cases h : isSpace c = true
      · exact (congrArg (sent cs) (if_pos h)).trans (if_pos h).symm
      · exact (congrArg (sent cs) (if_neg h)).trans ((hend _ c cs).trans (if_neg h).symm)
    | lexCommentLine =>
      by_cases h : c ≠ '\n'
      · exact (congrArg (sent cs) (if_pos (by simpa using h))).trans (if_pos h).symm
      · exact (congrArg (sent cs) (if_neg (by simpa using h))).trans ((hend _ c cs).trans (if_neg h).symm)
    | lexString =>
      rw [take]
      simp only [apply_ite (sent cs)]
      rfl
    | escape =>
      rw [take]
      simp only [apply_ite (sent cs)]
      rfl
    | unicode digits =>
      by_cases h : hexdigit.contains c = true
      · exact (congrArg (sent cs) (if_pos h)).trans (if_pos h).symm
      · exact (congrArg (sent cs) (if_neg h)).trans (if_neg h).symm

/-! ## The goroutine -/

namespace Lexer

variable {env : Env}

/-- The lexer sends the items and gets to the other in some rounds. -/
def Reaches (env : Env) (l : Lexer) (items : List Item) (l' : Lexer) : Prop := ∃ n, l.run env n = (items, l')

theorem Reaches.refl (l : Lexer) : Reaches env l [] l := ⟨0, rfl⟩

theorem Reaches.step {l l' : Lexer} {items : List Item} (h : l.step env = (items, l')) :
    Reaches env l items l' :=
  ⟨1, by simp [run, h]⟩

theorem run_add (env : Env) (n m : Nat) (l : Lexer) : l.run env (n + m) =
    ((l.run env n).1 ++ ((l.run env n).2.run env m).1, ((l.run env n).2.run env m).2) := by
  induction n generalizing l with
  | zero => simp [run]
  | succ n ih => rw [Nat.succ_add, run, ih, run, List.append_assoc]

theorem Reaches.trans {l l' l'' : Lexer} {items items' : List Item} (h : Reaches env l items l')
    (h' : Reaches env l' items' l'') : Reaches env l (items ++ items') l'' := by
  obtain ⟨n, hn⟩ := h
  obtain ⟨m, hm⟩ := h'
  exact ⟨n + m, by rw [run_add, hn, hm]⟩

/-- What the lexer is left as when it has taken a rune. -/
def Left (rs : List Rune) (l : Lexer) : Option (LexState × List Char) → Prop
  | none => l.state = none
  | some (state, buf) => l = ⟨some state, buf, rs⟩

/-- The rounds of `lexText` on a rune. -/
theorem reaches_takeText (env : Env) (r : Rune) (rs : List Rune) :
    ∃ l, Reaches env ⟨some .lexText, [], r :: rs⟩ (takeText env r).1 l ∧ Left rs l (takeText env r).2 := by
  obtain ⟨c, cut⟩ := r
  cases cut with
  | true => exact ⟨_, ⟨1, rfl⟩, rfl⟩
  | false =>
    by_cases hquote : c = '"'
    · subst hquote
      exact ⟨_, ⟨1, rfl⟩, rfl⟩
    by_cases hopen : c = '{'
    · subst hopen
      exact ⟨_, ⟨1, rfl⟩, rfl⟩
    by_cases hclose : c = '}'
    · subst hclose
      exact ⟨_, ⟨1, rfl⟩, rfl⟩
    by_cases hsemi : c = ';'
    · subst hsemi
      exact ⟨_, ⟨1, rfl⟩, rfl⟩
    by_cases hhash : c = '#'
    · subst hhash
      exact ⟨_, ⟨2, rfl⟩, rfl⟩
    have htake : takeText env ⟨c, false⟩ =
        if isSpace c then ([], some (.lexWhiteSpace, [c]))
        else if isIdentifierPart env c then ([], some (.lexIdentifier, [c])) else ([.itemError], none) := by
      rw [takeText, if_neg Bool.false_ne_true, if_neg hquote, if_neg hopen, if_neg hclose, if_neg hsemi,
        if_neg hhash]
    have hstep : step env ⟨some .lexText, [], ⟨c, false⟩ :: rs⟩ =
        if isSpace c then ([], ⟨some .lexWhiteSpace, [], ⟨c, false⟩ :: rs⟩)
        else if isIdentifierPart env c then ([], ⟨some .lexIdentifier, [], ⟨c, false⟩ :: rs⟩)
        else ([.itemError], ⟨none, [], ⟨c, false⟩ :: rs⟩) := by
      have hpeek : peek ⟨some .lexText, [], ⟨c, false⟩ :: rs⟩ = some c := rfl
      show stepText env ⟨some .lexText, [], ⟨c, false⟩ :: rs⟩ = _
      rw [stepText, hpeek]
      dsimp only
      rw [if_neg hquote, if_neg hopen, if_neg hclose, if_neg hsemi, if_neg hhash]
      rfl
    -- White space and identifiers are taken by their own state functions.
    by_cases hspace : isSpace c = true
    · rw [if_pos hspace] at htake hstep
      have hnext : step env ⟨some .lexWhiteSpace, [], ⟨c, false⟩ :: rs⟩ = ([], ⟨some .lexWhiteSpace, [c], rs⟩) :=
        if_pos hspace
      rw [htake]
      exact ⟨_, (Reaches.step hstep).trans (.step hnext), rfl⟩
    · rw [if_neg hspace] at htake hstep
      by_cases hpart : isIdentifierPart env c = true
      · rw [if_pos hpart] at htake hstep
        have hnext : step env ⟨some .lexIdentifier, [], ⟨c, false⟩ :: rs⟩ = ([], ⟨some .lexIdentifier, [c], rs⟩) :=
          if_pos hpart
        rw [htake]
        exact ⟨_, (Reaches.step hstep).trans (.step hnext), rfl⟩
      · rw [if_neg hpart] at htake hstep
        rw [htake]
        exact ⟨_, .step hstep, rfl⟩

/-- An item ends before the rune, which `lexText` takes. -/
theorem reaches_endItem {state : LexState} {buf : List Char} {r : Rune} {rs : List Rune} {item : Item}
    (h : step env ⟨some state, buf, r :: rs⟩ = ([item], text ⟨some state, buf, r :: rs⟩)) :
    ∃ l, Reaches env ⟨some state, buf, r :: rs⟩ (endItem env item r).1 l ∧ Left rs l (endItem env item r).2 := by
  obtain ⟨l, hl, hleft⟩ := reaches_takeText env r rs
  exact ⟨l, (Reaches.step h).trans hl, hleft⟩

/-- The rounds of the lexer on a rune. -/
theorem reaches_take (env : Env) (state : LexState) {buf : List Char} (hbuf : state = .lexText → buf = []) (r : Rune)
    (rs : List Rune) : ∃ l, Reaches env ⟨some state, buf, r :: rs⟩ (take env state buf r).1 l ∧
      Left rs l (take env state buf r).2 := by
  obtain ⟨c, cut⟩ := r
  -- A rune that is added to the item.
  have go (state' : LexState) (ht : take env state buf ⟨c, cut⟩ = ([], some (state', buf ++ [c])))
      (hs : step env ⟨some state, buf, ⟨c, cut⟩ :: rs⟩ = ([], ⟨some state', buf ++ [c], rs⟩)) :
      ∃ l, Reaches env ⟨some state, buf, ⟨c, cut⟩ :: rs⟩ (take env state buf ⟨c, cut⟩).1 l ∧
        Left rs l (take env state buf ⟨c, cut⟩).2 := by
    rw [ht]
    exact ⟨_, .step hs, rfl⟩
  cases state with
  | lexText =>
    rw [hbuf rfl]
    exact reaches_takeText env ⟨c, cut⟩ rs
  | lexIdentifier =>
    by_cases h : (!cut && isIdentifierPart env c) = true
    · refine go .lexIdentifier (if_pos h) ?_
      cases cut with
      | true => cases h
      | false => simpa [step, peek, next] using h
    · have ht : take env .lexIdentifier buf ⟨c, cut⟩ = endItem env (.itemIdentifier buf) ⟨c, cut⟩ := if_neg h
      rw [ht]
      refine reaches_endItem ?_
      cases cut with
      | true => rfl
      | false => simpa [step, peek] using h
  | lexWhiteSpace =>
    by_cases h : (!cut && isSpace c) = true
    · refine go .lexWhiteSpace (if_pos h) ?_
      cases cut with
      | true => cases h
      | false => simpa [step, peek, next] using h
    · have ht : take env .lexWhiteSpace buf ⟨c, cut⟩ = endItem env .itemWhiteSpace ⟨c, cut⟩ := if_neg h
      rw [ht]
      refine reaches_endItem ?_
      cases cut with
      | true => rfl
      | false => simpa [step, peek] using h
  | lexCommentLine =>
    by_cases h : (cut || c ≠ '\n') = true
    · refine go .lexCommentLine (if_pos h) ?_
      cases cut with
      | true => rfl
      | false => simpa [step, peek, next] using h
    · have ht : take env .lexCommentLine buf ⟨c, cut⟩ = endItem env .itemWhiteSpace ⟨c, cut⟩ := if_neg h
      rw [ht]
      refine reaches_endItem ?_
      cases cut with
      | true => exact absurd rfl h
      | false => simpa [step, peek] using h
  | lexString =>
    by_cases hquote : c = '"'
    · subst hquote
      exact ⟨_, ⟨1, rfl⟩, rfl⟩
    by_cases hslash : c = '\\'
    · subst hslash
      exact go .escape rfl rfl
    by_cases hcontrol : isControl c = true
    · have ht : take env .lexString buf ⟨c, cut⟩ = ([.itemError], none) := by
        simp only [take, if_neg hquote, if_neg hslash, if_pos hcontrol]
      rw [ht]
      refine ⟨stop (next ⟨some .lexString, buf, ⟨c, cut⟩ :: rs⟩), .step ?_, rfl⟩
      simp [step, stepString, read, hquote, hslash, hcontrol]
    · refine go .lexString ?_ ?_
      · simp only [take, if_neg hquote, if_neg hslash, if_neg hcontrol]
      · simp [step, stepString, read, next, hquote, hslash, hcontrol]
  | escape =>
    by_cases h : (!cut && escapes.contains c) = true
    · refine go .lexString (if_pos h) (if_pos ?_)
      cases cut with
      | true => cases h
      | false => simpa [peek] using h
    · have hpeek : ¬ (peek ⟨some .escape, buf, ⟨c, cut⟩ :: rs⟩).any escapes.contains = true := by
        cases cut with
        | true => simp [peek]
        | false => simpa [peek] using h
      by_cases hu : c = 'u'
      · exact go (.unicode 4) ((if_neg h).trans (if_pos hu)) ((if_neg hpeek).trans (if_pos (congrArg some hu)))
      · refine go .lexString ((if_neg h).trans (if_neg hu)) ((if_neg hpeek).trans (if_neg ?_))
        exact fun hr => hu (Option.some_inj.mp hr)
  | unicode digits =>
    by_cases h : (!cut && hexdigit.contains c) = true
    · refine go _ (if_pos h) ?_
      cases cut with
      | true => cases h
      | false => simpa [step, peek, next, goto] using h
    · have ht : take env (.unicode digits) buf ⟨c, cut⟩ = ([.itemError], none) := if_neg h
      have hpeek : (peek ⟨some (.unicode digits), buf, ⟨c, cut⟩ :: rs⟩).any hexdigit.contains = false := by
        cases cut with
        | true => rfl
        | false => simpa [peek] using h
      rw [ht]
      refine ⟨stop ⟨some (.unicode digits), buf, ⟨c, cut⟩ :: rs⟩, .step ?_, rfl⟩
      simp [step, hpeek]

/-- Where the lexer goes does not depend on the item so far, which `lexText` starts anew. -/
theorem take_state (env : Env) (state : LexState) (buf buf' : List Char) (r : Rune) :
    (take env state buf r).2.map Prod.fst = (take env state buf' r).2.map Prod.fst := by
  cases state <;> simp only [take, endItem] <;> repeat' split
  all_goals rfl

theorem take_text {state : LexState} {buf buf' : List Char} {r : Rune}
    (h : (take env state buf r).2 = some (.lexText, buf')) : buf' = [] := by
  unfold take endItem takeText at h
  grind

/-- A text that does not end in a comment is lexed to its end. -/
theorem reaches_lexRunes (env : Env) (rs : List Rune) {state : LexState} {buf : List Char}
    (hbuf : state = .lexText → buf = []) (hc : inComment env state rs = false) :
    ∃ l, Reaches env ⟨some state, buf, rs⟩ (lexRunes env state buf rs) l ∧ l.state = none := by
  induction rs generalizing state buf with
  | nil =>
    cases state with
    | lexText => exact ⟨_, ⟨1, rfl⟩, rfl⟩
    | lexIdentifier => exact ⟨_, ⟨2, rfl⟩, rfl⟩
    | lexWhiteSpace => exact ⟨_, ⟨2, rfl⟩, rfl⟩
    | lexCommentLine => cases hc
    | lexString => exact ⟨_, ⟨1, rfl⟩, rfl⟩
    | escape => exact ⟨_, ⟨2, rfl⟩, rfl⟩
    | unicode digits => exact ⟨_, ⟨1, rfl⟩, rfl⟩
  | cons r rs ih =>
    obtain ⟨l, hl, hleft⟩ := reaches_take env state hbuf r rs
    have hstate := take_state env state [] buf r
    rw [inComment] at hc
    rw [lexRunes]
    cases ht : (take env state buf r).2 with
    | none =>
      rw [ht] at hleft
      simp only [List.append_nil]
      exact ⟨l, hl, hleft⟩
    | some p =>
      obtain ⟨state', buf'⟩ := p
      rw [ht] at hleft hstate
      obtain ⟨q, hq, hfst⟩ := Option.map_eq_some_iff.mp hstate
      rw [hq] at hc
      simp only [hfst] at hc
      obtain ⟨l', hl', hend⟩ := ih (fun he => take_text (he ▸ ht)) hc
      rw [hleft] at hl
      exact ⟨l', hl.trans hl', hend⟩

/-- A text that ends in a comment is lexed up to its end. -/
theorem reaches_comment (env : Env) (rs : List Rune) {state : LexState} {buf : List Char}
    (hbuf : state = .lexText → buf = []) (hc : inComment env state rs = true) :
    ∃ items buf', Reaches env ⟨some state, buf, rs⟩ items ⟨some .lexCommentLine, buf', []⟩ := by
  induction rs generalizing state buf with
  | nil =>
    have hstate : state = .lexCommentLine := by simpa [inComment] using hc
    subst hstate
    exact ⟨[], buf, .refl _⟩
  | cons r rs ih =>
    obtain ⟨l, hl, hleft⟩ := reaches_take env state hbuf r rs
    have hstate := take_state env state [] buf r
    rw [inComment] at hc
    cases ht : (take env state buf r).2 with
    | none =>
      rw [ht] at hstate
      rw [Option.map_eq_none_iff.mp hstate] at hc
      cases hc
    | some p =>
      obtain ⟨state', buf'⟩ := p
      rw [ht] at hleft hstate
      obtain ⟨q, hq, hfst⟩ := Option.map_eq_some_iff.mp hstate
      rw [hq] at hc
      simp only [hfst] at hc
      obtain ⟨items, b, hl'⟩ := ih (fun he => take_text (he ▸ ht)) hc
      rw [hleft] at hl
      exact ⟨_, b, hl.trans hl'⟩

theorem run_stopped (env : Env) (n : Nat) {l : Lexer} (h : l.state = none) : l.run env n = ([], l) := by
  induction n with
  | zero => rfl
  | succ n ih =>
    have hstep : l.step env = ([], l) := by simp [step, h]
    rw [run, hstep, ih]
    rfl

/-- The lexer does not get out of a comment at the end of the input. -/
theorem run_comment (env : Env) (n : Nat) (buf : List Char) :
    (run env n ⟨some .lexCommentLine, buf, []⟩).2 = ⟨some .lexCommentLine, buf, []⟩ := by
  induction n with
  | zero => rfl
  | succ n ih => exact ih

/-- The goroutine ends just if the text does not end in a comment; it has then sent the items
of the text. -/
theorem run_tokens (env : Env) (input : List UInt8) (P : List Item → Prop) :
    (∃ n, (run env n { input := runes input }).2.state = none ∧ P (run env n { input := runes input }).1) ↔
      endsInComment env input = false ∧ P (tokens env input) := by
  constructor
  · rintro ⟨n, hend, hP⟩
    cases hc : endsInComment env input with
    | true =>
      obtain ⟨items, buf, m, hm⟩ := reaches_comment env (runes input) (fun _ => rfl) hc
      -- The lexer that has ended after `n` rounds would have ended after `n + m`.
      have h₁ := run_add env n m { input := runes input }
      rw [run_stopped env m hend, Nat.add_comm, run_add, hm, run_comment] at h₁
      have hstate := congrArg (fun r : List Item × Lexer => r.2.state) h₁
      rw [hend] at hstate
      cases hstate
    | false =>
      obtain ⟨l, ⟨m, hm⟩, hstop⟩ := reaches_lexRunes env (runes input) (fun _ => rfl) hc
      have hsame : (run env n { input := runes input }).1 = tokens env input := by
        have h₁ := run_add env n m { input := runes input }
        rw [run_stopped env m hend, Nat.add_comm, run_add, hm, run_stopped env n hstop] at h₁
        have hitems := congrArg Prod.fst h₁
        simpa [tokens] using hitems.symm
      exact ⟨rfl, hsame ▸ hP⟩
  · rintro ⟨hc, hP⟩
    obtain ⟨l, ⟨n, hn⟩, hstop⟩ := reaches_lexRunes env (runes input) (fun _ => rfl) hc
    exact ⟨n, by rw [hn]; exact hstop, by rw [hn]; exact hP⟩

end Lexer

end OpenConfigd
