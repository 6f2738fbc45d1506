import OpenConfigd.Config.Saved

/-!
# How values are quoted

`write` prints a value as it is, between double quotes when the type is a string without
a pattern, and a key always without. `quoting_law` says which of the values in a tree the
lexer of `LoadConfig` reads back as one token, the value.
-/

namespace OpenConfigd

/-- The token `LoadConfig` makes of an item. -/
def Item.word (env : Env) : Item → Option String
  | .itemIdentifier val => some (String.ofList val)
  | .itemString val => some (String.ofList ((env.unquote val).getD val))
  | _ => none

/-- The items that `LoadConfig` does not skip. -/
def Item.solid : Item → Bool
  | .itemWhiteSpace => false
  | _ => true

/-- The text is one item to `LoadConfig`, the value, whatever follows in a statement. -/
def ReadsAs (env : Env) (text : List Char) (v : String) : Prop :=
  ∀ c rest, c = ' ' ∨ c = ';' → ∃ item : Item, item.word env = some v ∧
    (lex env .lexText [] (text ++ c :: rest)).filter Item.solid =
      item :: (lex env .lexText [] (c :: rest)).filter Item.solid

/-- The characters take the lexer from a state of `lexString` to the end of the string. -/
def closes : LexState → List Char → Bool
  | .lexString, c :: cs =>
    if c = '"' then cs.isEmpty
    else if c = '\\' then closes .escape cs
    else !isControl c && closes .lexString cs
  | .escape, c :: cs => closes (if c = 'u' then .unicode 4 else .lexString) cs
  | .unicode digits, c :: cs =>
    hexdigit.contains c && closes (if digits ≤ 1 then .lexString else .unicode (digits - 1)) cs
  | _, _ => false

/-- The text is a string of the lexer, with its quotes. -/
def isLiteral : List Char → Bool
  | '"' :: cs => closes .lexString cs
  | _ => false

/-- What stands for itself without quotes: an identifier, or a string of the lexer that
`strconv.Unquote` does not take for one. -/
def Bare (env : Env) (v : String) : Prop :=
  Identifier env v ∨ isLiteral v.toList = true ∧ env.unquote v.toList = none

instance (env : Env) (v : String) : Decidable (Bare env v) :=
  inferInstanceAs (Decidable (_ ∨ _ ∧ _))

/-- What stands for itself between quotes. -/
def Plain (v : String) : Prop := ∀ c ∈ v.toList, c ≠ '"' ∧ c ≠ '\\' ∧ isControl c = false

instance (v : String) : Decidable (Plain v) :=
  decidable_of_iff (v.toList.all fun c => decide (c ≠ '"' ∧ c ≠ '\\' ∧ isControl c = false)) (by simp [Plain])

/-- An escape of `strconv.Unquote` is longer than the character it stands for. -/
def Env.UnquoteShortens (env : Env) : Prop :=
  ∀ v w : List Char, env.unquote ('"' :: v ++ ['"']) = some w →
    w.length ≤ v.length ∧ ('\\' ∈ v → w.length < v.length)

/-! ## Strings -/

section

variable {env : Env}

/-- The states of `lexString`. -/
def LexState.inString : LexState → Bool
  | .lexString | .escape | .unicode _ => true
  | _ => false

/-- The lexer takes a string as one item. -/
theorem lex_closes {state : LexState} {cs : List Char} (h : closes state cs = true) (buf rest : List Char) :
    lex env state buf (cs ++ rest) = .itemString (buf ++ cs) :: lex env .lexText [] rest := by
  induction cs generalizing state buf with
  | nil => cases state <;> cases h
  | cons c cs ih =>
    rw [List.cons_append]
    cases state with
    | lexString =>
      rw [closes] at h
      rw [lex]
      split at h
      · next hc =>
        rw [List.isEmpty_iff] at h
        simp [hc, h]
      · next hc =>
        split at h
        · next hb => simp [hb, ih h]
        · next hb =>
          obtain ⟨hctl, hcl⟩ := Bool.and_eq_true_iff.mp h
          rw [Bool.not_eq_true'] at hctl
          simp [hc, hb, hctl, ih hcl]
    | escape =>
      rw [closes] at h
      rw [lex]
      by_cases hu : c = 'u'
      · subst hu
        rw [if_pos rfl] at h
        simp [ih h, escapes]
      · rw [if_neg hu] at h
        simp [hu, ih h]
    | unicode digits =>
      rw [closes] at h
      obtain ⟨hx, hcl⟩ := Bool.and_eq_true_iff.mp h
      rw [lex]
      simp only [hx, if_true, ih hcl]
      simp
    | lexText => cases h
    | lexIdentifier => cases h
    | lexWhiteSpace => cases h
    | lexCommentLine => cases h

/-- In a string, the lexer comes to its end or to an error. -/
theorem lex_inString {state : LexState} (hs : state.inString = true) (buf text : List Char) :
    lex env state buf text = [.itemError] ∨ ∃ cs rest, text = cs ++ rest ∧ closes state cs = true := by
  induction text generalizing state buf with
  | nil =>
    left
    cases state with
    | lexString | escape | unicode => rfl
    | _ => cases hs
  | cons c text ih =>
    have go (state' : LexState) (hs' : state'.inString = true)
        (hl : lex env state buf (c :: text) = lex env state' (buf ++ [c]) text)
        (hc : ∀ cs, closes state' cs = true → closes state (c :: cs) = true) :
        lex env state buf (c :: text) = [.itemError] ∨
          ∃ cs rest, c :: text = cs ++ rest ∧ closes state cs = true := by
      rcases ih hs' (buf ++ [c]) with
      herr | ⟨cs, rest, htext, hcl⟩
      · exact .inl (hl.trans herr)
      · exact .inr ⟨c :: cs, rest, by rw [htext, List.cons_append], hc cs hcl⟩
    cases state with
    | lexString =>
      by_cases hq : c = '"'
      · exact .inr ⟨[c], text, rfl, by simp [closes, hq]⟩
      by_cases hb : c = '\\'
      · exact go .escape rfl (by simp [lex, hb]) fun cs hcs => by simp [closes, hb, hcs]
      by_cases hctl : isControl c = true
      · exact .inl (by simp [lex, hq, hb, hctl])
      · exact go .lexString rfl (by simp [lex, hq, hb, hctl])
          fun cs hcs => by simp [closes, hq, hb, hctl, hcs]
    | escape =>
      by_cases hu : c = 'u'
      · exact go (.unicode 4) rfl (by simp [lex, hu, escapes]) fun cs hcs => by simp [closes, hu, hcs]
      · exact go .lexString rfl (by simp [lex, hu]) fun cs hcs => by simp [closes, hu, hcs]
    | unicode digits =>
      by_cases hx : hexdigit.contains c = true
      · refine go (if digits ≤ 1 then .lexString else .unicode (digits - 1)) ?_
          (by simp only [lex, hx, if_true]) fun cs hcs => by rw [closes, hx, hcs]; rfl
        split <;> rfl
      · exact .inl (by simp only [lex, hx]; rfl)
    | lexText => cases hs
    | lexIdentifier => cases hs
    | lexWhiteSpace => cases hs
    | lexCommentLine => cases hs

/-! ## The items of a text -/

/-- What the lexer sends of a text of some length: identifiers of identifier characters, and
strings that are no longer. -/
def Item.Within (env : Env) (n : Nat) : Item → Prop
  | .itemIdentifier val => val ≠ [] ∧ ∀ c ∈ val, isIdentifierPart env c = true
  | .itemString val => isLiteral val = true ∧ val.length ≤ n
  | _ => True

theorem Item.Within.mono {n m : Nat} (hnm : n ≤ m) {item : Item} (h : item.Within env n) :
    item.Within env m := by
  cases item with
  | itemString val => exact ⟨h.1, h.2.trans hnm⟩
  | _ => exact h

/-- What the lexer has taken of an item is the start of one. -/
def Begun (env : Env) (buf : List Char) : LexState → Prop
  | .lexIdentifier => buf ≠ [] ∧ ∀ c ∈ buf, isIdentifierPart env c = true
  | .lexString => ∀ cs, closes .lexString cs = true → isLiteral (buf ++ cs) = true
  | .escape => ∀ cs, closes .escape cs = true → isLiteral (buf ++ cs) = true
  | .unicode digits => ∀ cs, closes (.unicode digits) cs = true → isLiteral (buf ++ cs) = true
  | _ => True

/-- A string state goes on in another. -/
theorem Begun.next {buf : List Char} {c : Char} {state : LexState} (hs : state.inString = true)
    (state' : LexState) (hs' : state'.inString = true) (h : Begun env buf state)
    (hc : ∀ cs, closes state' cs = true → closes state (c :: cs) = true) : Begun env (buf ++ [c]) state' := by
  have hbuf (cs : List Char) (hcs : closes state cs = true) : isLiteral (buf ++ cs) = true := by
    cases state with
    | lexString | escape | unicode => exact h cs hcs
    | _ => cases hs
  have hnext (cs : List Char) (hcs : closes state' cs = true) : isLiteral (buf ++ [c] ++ cs) = true := by
    rw [List.append_assoc]
    exact hbuf _ (hc cs hcs)
  cases state' with
  | lexString | escape | unicode => exact hnext
  | _ => cases hs'

/-- `lexText` begins an item. -/
theorem lexText_within {c : Char} {n : Nat} {next : LexState → List Char → List Item}
    (h : ∀ state buf, Begun env buf state → buf.length ≤ 1 → ∀ item ∈ next state buf, item.Within env n) :
    ∀ item ∈ lexText env c next, item.Within env n := by
  have htrivial (item : Item) (state : LexState) (buf : List Char) (hb : Begun env buf state)
      (hl : buf.length ≤ 1) (hw : item.Within env n) : ∀ x ∈ item :: next state buf, x.Within env n :=
    List.forall_mem_cons.mpr ⟨hw, h state buf hb hl⟩
  unfold lexText
  split
  · next hc =>
    subst hc
    exact h .lexString ['"'] (fun cs hcs => hcs) le_rfl
  split
  · exact htrivial .itemLeftBrace .lexText [] trivial (by simp) trivial
  split
  · exact htrivial .itemRightBrace .lexText [] trivial (by simp) trivial
  split
  · exact htrivial .itemSemiColon .lexText [] trivial (by simp) trivial
  split
  · exact h .lexCommentLine [c] trivial le_rfl
  split
  · exact h .lexWhiteSpace [c] trivial le_rfl
  split
  · next hc => exact h .lexIdentifier [c] ⟨by simp, by simpa using hc⟩ le_rfl
  · simp [Item.Within]

theorem lex_within (text : List Char) {state : LexState} {buf : List Char} (h : Begun env buf state) :
    ∀ item ∈ lex env state buf text, item.Within env (buf.length + text.length) := by
  induction text generalizing state buf with
  | nil =>
    cases state with
    | lexIdentifier =>
      intro item hi
      rcases List.mem_pair.mp hi with rfl | rfl
      · exact h
      · trivial
    | _ => simp [lex, Item.Within]
  | cons c text ih =>
    have hlen : buf.length + (c :: text).length = (buf ++ [c]).length + text.length := by simp; omega
    have htext : ∀ item ∈ lexText env c (fun state buf => lex env state buf text),
        item.Within env (buf.length + (c :: text).length) := by
      refine lexText_within fun state' buf' hb hl item hi => (ih hb item hi).mono ?_
      rw [List.length_cons]
      omega
    have hgo {state' : LexState} (hb : Begun env (buf ++ [c]) state') :
        ∀ item ∈ lex env state' (buf ++ [c]) text, item.Within env (buf.length + (c :: text).length) := by
      rw [hlen]
      exact ih hb
    cases state with
    | lexText => exact htext
    | lexIdentifier =>
      rw [lex]
      split
      · next hc =>
        refine hgo ⟨by simp, fun d hd => ?_⟩
        rcases List.mem_append.mp hd with hd | hd
        · exact h.2 d hd
        · rw [List.mem_singleton.mp hd]
          exact hc
      · exact List.forall_mem_cons.mpr ⟨h, htext⟩
    | lexWhiteSpace =>
      rw [lex]
      split
      · exact hgo trivial
      · exact List.forall_mem_cons.mpr ⟨trivial, htext⟩
    | lexCommentLine =>
      rw [lex]
      split
      · exact hgo trivial
      · exact List.forall_mem_cons.mpr ⟨trivial, htext⟩
    | lexString =>
      rw [lex]
      split
      · next hc =>
        refine List.forall_mem_cons.mpr ⟨⟨h [c] (by simp [closes, hc]), ?_⟩, fun item hi => ?_⟩
        · simp
        · refine (@ih .lexText [] trivial item hi).mono ?_
          simp
          omega
      split
      · next hb => exact hgo (h.next rfl .escape rfl fun cs hcs => by simp [closes, hb, hcs])
      split
      · simp [Item.Within]
      · next hq hb hctl =>
        exact hgo (h.next rfl .lexString rfl fun cs hcs => by simp [closes, hq, hb, hctl, hcs])
    | escape =>
      rw [lex]
      by_cases hu : c = 'u'
      · subst hu
        exact hgo (h.next rfl (.unicode 4) rfl fun cs hcs => by simp [closes, hcs])
      · simp only [hu, if_false, ite_self]
        exact hgo (h.next rfl .lexString rfl fun cs hcs => by simp [closes, hu, hcs])
    | unicode digits =>
      rw [lex]
      split
      · next hx =>
        refine hgo (h.next rfl _ ?_ fun cs hcs => by rw [closes, hx, hcs]; rfl)
        split <;> rfl
      · simp [Item.Within]

/-! ## Which texts stand for themselves -/

/-- White space before an item is skipped. -/
theorem filter_lex_space (buf rest : List Char) : (lex env .lexWhiteSpace buf rest).filter Item.solid =
    (lex env .lexText [] rest).filter Item.solid := by
  induction rest generalizing buf with
  | nil => rfl
  | cons c rest ih =>
    rw [lex_text, lex]
    by_cases hc : isSpace c = true
    · have htext : lexText env c (fun state buf => lex env state buf rest) =
          lex env .lexWhiteSpace [c] rest := by
        have hne : c ≠ '"' ∧ c ≠ '{' ∧ c ≠ '}' ∧ c ≠ ';' ∧ c ≠ '#' := by
          refine ⟨?_, ?_, ?_, ?_, ?_⟩ <;> (rintro rfl; revert hc; decide)
        simp only [lexText, hne, if_false, hc, if_true]
      rw [if_pos hc, ih, htext, ih]
    · rw [if_neg hc]
      rfl

theorem lex_identifier (w buf rest : List Char) (hw : ∀ c ∈ w, isIdentifierPart env c = true)
    (he : Ends env rest) : lex env .lexIdentifier buf (w ++ rest) =
      .itemIdentifier (buf ++ w) :: lex env .lexText [] rest := by
  induction w generalizing buf with
  | nil =>
    obtain ⟨c, cs, rfl, hc⟩ := he
    rw [List.nil_append, List.append_nil, lex_text, lex]
    simp [hc]
  | cons c w ih =>
    rw [List.cons_append, lex]
    simp only [hw c List.mem_cons_self, if_true]
    rw [ih _ fun d hd => hw d (List.mem_cons_of_mem _ hd), List.append_assoc]
    rfl

theorem ends_semiColon (rest : List Char) : Ends env (';' :: rest) :=
  ⟨';', rest, rfl, by rw [isIdentifierPart_ascii (by decide)]; decide⟩

/-- Nothing is no token. -/
theorem not_readsAs_nil (v : String) : ¬ ReadsAs env [] v := by
  intro h
  obtain ⟨item, -, hf⟩ := h ';' [] (.inr rfl)
  have hlen := congrArg List.length hf
  rw [List.nil_append, List.length_cons] at hlen
  omega

/-- The first item of a text that reads as a value. -/
theorem ReadsAs.item {text : List Char} {v : String} (h : ReadsAs env text v) :
    ∃ item : Item, item.word env = some v ∧ item.Within env (text.length + 1) ∧
      (lex env .lexText [] (text ++ [';'])).filter Item.solid = [item, .itemSemiColon, .itemEOF] := by
  obtain ⟨item, hword, hf⟩ := h ';' [] (.inr rfl)
  refine ⟨item, hword, ?_, hf⟩
  have hmem : item ∈ lex env .lexText [] (text ++ [';']) :=
    List.mem_of_mem_filter (hf ▸ List.mem_cons_self)
  have := @lex_within env (text ++ [';']) .lexText [] trivial item hmem
  simpa using this

/-- Without its quotes, what `closes` takes. -/
theorem isLiteral_iff {val : List Char} (h : isLiteral val = true) :
    ∃ body, val = '"' :: body ++ ['"'] := by
  have hend : ∀ (cs : List Char) (state : LexState), closes state cs = true → ∃ body, cs = body ++ ['"'] := by
    intro cs
    induction cs with
    | nil => intro state hcl; cases state <;> cases hcl
    | cons c cs ih =>
      intro state hcl
      have hcons {state' : LexState} (h' : closes state' cs = true) : ∃ body, c :: cs = body ++ ['"'] := by
        obtain ⟨body, hb⟩ := ih state' h'
        exact ⟨c :: body, by rw [hb, List.cons_append]⟩
      cases state with
      | lexString =>
        rw [closes] at hcl
        split at hcl
        · next hc =>
          rw [List.isEmpty_iff] at hcl
          exact ⟨[], by rw [hc, hcl]; rfl⟩
        split at hcl
        · exact hcons hcl
        · exact hcons (Bool.and_eq_true_iff.mp hcl).2
      | escape => exact hcons hcl
      | unicode digits => exact hcons (Bool.and_eq_true_iff.mp hcl).2
      | _ => cases hcl
  cases val with
  | nil => cases h
  | cons c cs =>
    unfold isLiteral at h
    split at h
    · next cs' heq =>
      obtain ⟨rfl, rfl⟩ := List.cons.inj heq
      obtain ⟨body, hb⟩ := hend _ _ h
      exact ⟨body, by rw [hb, List.cons_append]⟩
    · cases h

theorem readsAs_bare (hu : env.UnquoteShortens) (v : String) : ReadsAs env v.toList v ↔ Bare env v := by
  have hsolid (c : Char) (cs : List Char) (item : Item) (hi : item.solid = true)
      (hl : lex env .lexText [] (v.toList ++ c :: cs) = item :: lex env .lexText [] (c :: cs)) :
      (lex env .lexText [] (v.toList ++ c :: cs)).filter Item.solid =
        item :: (lex env .lexText [] (c :: cs)).filter Item.solid := by
    rw [hl, List.filter_cons_of_pos hi]
  constructor
  · intro h
    obtain ⟨item, hword, hin, -⟩ := h.item
    cases item with
    | itemIdentifier val =>
      have hv : String.ofList val = v := by simpa [Item.word] using hword
      subst hv
      refine .inl ⟨fun hne => hin.1 ?_, by simpa using hin.2⟩
      rw [← String.toList_ofList (l := val), hne]
      rfl
    | itemString val =>
      obtain ⟨hlit, hlen⟩ := hin
      have hv : String.ofList ((env.unquote val).getD val) = v := by simpa [Item.word] using hword
      cases hq : env.unquote val with
      | none =>
        rw [hq, Option.getD_none] at hv
        subst hv
        rw [Bare, String.toList_ofList]
        exact .inr ⟨hlit, hq⟩
      | some w =>
        -- What `Unquote` makes of a string in the text is too short to be the text.
        rw [hq, Option.getD_some] at hv
        subst hv
        obtain ⟨body, rfl⟩ := isLiteral_iff hlit
        have := (hu body w hq).1
        rw [String.toList_ofList] at hlen
        simp at hlen
        omega
    | _ => cases hword
  · rintro (⟨hne, hall⟩ | ⟨hlit, hq⟩) c rest hc
    · obtain ⟨d, ds, hds⟩ : ∃ d ds, v.toList = d :: ds := by
        refine List.exists_cons_of_ne_nil fun h => hne ?_
        rw [← String.ofList_toList (s := v), h]
      refine ⟨.itemIdentifier v.toList, by simp [Item.word], hsolid c rest _ rfl ?_⟩
      have hends : Ends env (c :: rest) := by
        rcases hc with rfl | rfl
        · exact ends_space rest
        · exact ends_semiColon rest
      rw [hds] at hall ⊢
      rw [List.cons_append, lex_text, lexText_identifier (hall d List.mem_cons_self),
        lex_identifier ds [d] (c :: rest) (fun x hx => hall x (List.mem_cons_of_mem _ hx)) hends]
      rfl
    · refine ⟨.itemString v.toList, by simp [Item.word, hq], hsolid c rest _ rfl ?_⟩
      obtain ⟨ds, hds⟩ : ∃ ds, v.toList = '"' :: ds := by
        obtain ⟨body, hb⟩ := isLiteral_iff hlit
        exact ⟨body ++ ['"'], by rw [hb, List.cons_append]⟩
      rw [hds] at hlit ⊢
      rw [List.cons_append, lex_text]
      exact lex_closes hlit ['"'] (c :: rest)

/-- A string without a backslash has no quote inside and no control character. -/
theorem closes_plain {cs : List Char} (h : closes .lexString (cs ++ ['"']) = true) (hb : '\\' ∉ cs) :
    ∀ c ∈ cs, c ≠ '"' ∧ c ≠ '\\' ∧ isControl c = false := by
  induction cs with
  | nil => simp
  | cons c cs ih =>
    rw [List.mem_cons, not_or] at hb
    have hc : c ≠ '\\' := fun hc => hb.1 hc.symm
    rw [List.cons_append, closes] at h
    split at h
    · simp at h
    · next hq =>
      rw [Bool.and_eq_true, Bool.not_eq_true'] at h
      exact List.forall_mem_cons.mpr ⟨⟨hq, hc, h.1⟩, ih h.2 hb.2⟩

theorem readsAs_quoted (hu : env.UnquoteShortens) (v : String) :
    ReadsAs env ('"' :: v.toList ++ ['"']) v ↔ Plain v := by
  constructor
  · intro h
    obtain ⟨item, hword, -, hf⟩ := h.item
    have hlex : lex env .lexText [] ('"' :: v.toList ++ ['"'] ++ [';']) =
        lex env .lexString ['"'] (v.toList ++ ['"'] ++ [';']) := by
      rw [List.append_assoc, List.cons_append, lex_text, List.append_assoc]
      rfl
    rw [hlex] at hf
    rcases @lex_inString env .lexString rfl ['"'] (v.toList ++ ['"'] ++ [';']) with
      herr | ⟨cs, rest, htext, hcl⟩
    · rw [herr] at hf
      cases hf
    rw [htext, lex_closes hcl, List.filter_cons_of_pos rfl, List.cons.injEq] at hf
    obtain ⟨rfl, -⟩ := hf
    obtain ⟨body, hbody⟩ := @isLiteral_iff ('"' :: cs) hcl
    obtain rfl : cs = body ++ ['"'] := (List.cons.inj hbody).2
    have hv : String.ofList ((env.unquote ('"' :: body ++ ['"'])).getD ('"' :: body ++ ['"'])) = v := by
      simpa [Item.word] using hword
    have hlen : v.toList.length + 2 = body.length + (rest.length + 1) := by
      simpa using congrArg List.length htext
    have hpos : rest ≠ [] := by
      rintro rfl
      rw [List.append_nil] at htext
      cases (List.append_inj' htext rfl).2
    have hrest := List.length_pos_iff.mpr hpos
    cases hq : env.unquote ('"' :: body ++ ['"']) with
    | none =>
      -- The token keeps its quotes, so that the value starts with one, and the string is empty.
      rw [hq, Option.getD_none] at hv
      have hvl : v.toList = '"' :: body ++ ['"'] := by rw [← hv, String.toList_ofList]
      cases body with
      | nil =>
        exact absurd (hq.symm.trans (env.unquote_plain [] (by simp))) (by simp)
      | cons b bs =>
        rw [hvl] at htext
        obtain rfl : '"' = b := (List.cons.inj htext).1
        simp [closes] at hcl
    | some w =>
      rw [hq, Option.getD_some] at hv
      have hvl : v.toList = w := by rw [← hv, String.toList_ofList]
      obtain ⟨hle, hlt⟩ := hu body w hq
      have hsame : v.toList.length = body.length := by
        rw [← hvl] at hle
        omega
      have hbs : '\\' ∉ body := fun hb => by
        have := hlt hb
        rw [← hvl] at this
        omega
      have hv' : v.toList = body := by
        rw [List.append_assoc, List.append_assoc] at htext
        exact (List.append_inj htext hsame).1
      rw [Plain, hv']
      exact closes_plain hcl hbs
  · intro h c rest _
    refine ⟨.itemString ('"' :: v.toList ++ ['"']), ?_, ?_⟩
    · simp only [Item.word, env.unquote_plain _ h]
      simp
    · have hlex : lex env .lexText [] ('"' :: v.toList ++ ['"'] ++ c :: rest) =
          lex env .lexString ['"'] (v.toList ++ '"' :: c :: rest) := by
        rw [List.append_assoc, List.cons_append, lex_text]
        rfl
      rw [hlex, lex_string h, List.filter_cons_of_pos rfl]
      rfl

end

/-! ## The values of a tree -/

/-- What `write` prints of a value of a node: a space, and the value with or without quotes; of the
empty value of a leaf it prints nothing. -/
def Node.printed (n : Node) (v : String) : Option (List Char) :=
  if v = "" ∧ n.valueList = [] then some [] else (n.valueText v).map fun t => ' ' :: t.toList

/-- The value is such that the loader reads back what is printed of it. -/
def Node.Readable (env : Env) (n : Node) (v : String) : Prop :=
  if n.quote = some true then Plain v ∧ (v = "" → n.valueList ≠ []) else Bare env v

section

variable {env : Env}

theorem ReadsAs.space {text : List Char} {v : String} :
    ReadsAs env (' ' :: text) v ↔ ReadsAs env text v := by
  have hspace (rest : List Char) : (lex env .lexText [] (' ' :: rest)).filter Item.solid =
      (lex env .lexText [] rest).filter Item.solid := by
    rw [lex_text]
    exact filter_lex_space [' '] rest
  simp only [ReadsAs, List.cons_append, hspace]

theorem Node.readsAs_printed (hu : env.UnquoteShortens) {n : Node} {q : Bool} (hq : n.quote = some q)
    (v : String) : ∃ text, n.printed v = some text ∧ (ReadsAs env text v ↔ n.Readable env v) := by
  unfold printed Readable
  by_cases hv : v = "" ∧ n.valueList = []
  · refine ⟨[], if_pos hv, iff_of_false (not_readsAs_nil v) ?_⟩
    obtain ⟨rfl, hl⟩ := hv
    split
    · exact fun h => h.2 rfl hl
    · rintro (h | h)
      · exact h.1 rfl
      · cases h.1
  · rw [if_neg hv, valueText, hq, Option.map_some, Option.map_some]
    refine ⟨_, rfl, ?_⟩
    rw [ReadsAs.space]
    cases q with
    | true =>
      have ht : ("\"" ++ v ++ "\"").toList = '"' :: v.toList ++ ['"'] := by simp [String.toList_append]
      simp only [if_true, ht]
      rw [readsAs_quoted hu]
      exact ⟨fun h => ⟨h, fun hv' hl => hv ⟨hv', hl⟩⟩, fun h => h.1⟩
    | false =>
      simp only [Bool.false_eq_true, if_false, Option.some.injEq]
      exact readsAs_bare hu v

variable {ent : Entry}

/-- The values part of a node's text is what is printed of each value. -/
theorem Typed.valueTexts_printed {T c : Config} {l : Loc} {cur : Cursor} (hT : Typed env (.root ent) T)
    (hw : T.walk (.root ent) l = some (cur, c)) :
    c.valueTexts.map (fun vs => vs.flatMap fun v => ' ' :: v.toList) =
      (c.toNode.values.mapM c.toNode.printed).map List.flatten := by
  have hcon := (hT.of_walk hw).content
  cases hst : cur.state <;> simp only [Content, hst] at hcon
  case stateLeaf =>
    obtain ⟨he, hll⟩ := Config.walk_leaf hw (.inl hst)
    have hll' : cur.ent.isLeafList = false := by simpa [hst] using hll
    obtain ⟨hl, ⟨hh, hv⟩ | ⟨hh, -⟩⟩ := hcon
    · simp [Config.valueTexts, Config.pathValues, Node.values, he, hll', hl, hh, hv]
    · by_cases hv : c.value = ""
      · simp [Config.valueTexts, Config.pathValues, Node.values, Node.printed, he, hll', hl, hh, hv]
      · cases ht : c.toNode.valueText c.value <;>
          simp [Config.valueTexts, Config.pathValues, Node.values, Node.printed, he, hll', hl, hh, hv, ht]
  case stateLeafList =>
    obtain ⟨he, hll⟩ := Config.walk_leaf hw (.inr hst)
    have hprint (v : String) (hv : v ∈ c.valueList) : c.toNode.printed v =
        (c.toNode.valueText v).map fun t => ' ' :: t.toList :=
      if_neg fun h => by rw [h.2] at hv; cases hv
    have hmapM (vs : List String) (hvs : ∀ v ∈ vs, v ∈ c.valueList) :
        (vs.mapM c.toNode.valueText).map (fun ts => ts.flatMap fun t => ' ' :: t.toList) =
          (vs.mapM c.toNode.printed).map List.flatten := by
      induction vs with
      | nil => rfl
      | cons v vs ih =>
        have ih := ih fun w hw => hvs w (List.mem_cons_of_mem _ hw)
        rw [List.mapM_cons, List.mapM_cons, hprint v (hvs v List.mem_cons_self)]
        cases ht : c.toNode.valueText v with
        | none => rfl
        | some t =>
          cases hm : vs.mapM c.toNode.valueText with
          | none =>
            rw [hm] at ih
            simp [Option.map_eq_none_iff.mp ih.symm]
          | some ts =>
            rw [hm] at ih
            obtain ⟨us, hus, heq⟩ := Option.map_eq_some_iff.mp ih.symm
            simp [hus, heq]
    have hvalues : c.toNode.values = c.valueList := by simp [Node.values, he, hll.mpr hst]
    rw [hvalues, ← hmapM c.valueList fun v hv => hv, Config.valueTexts, Config.pathValues]
    simp [hcon.1]
  all_goals simp [Config.valueTexts, Config.pathValues, Node.values, hcon]

/-- Of each key and each value in a tree that set-mode calls have made, the loader reads what
`write` prints as one token, the value, just if a key or a value that is not quoted is `Bare`, and
a value that is quoted is `Plain` and not the empty value of a leaf. -/
theorem quoting_law (hu : env.UnquoteShortens) {root c : Config} {l : Loc} (hr : Reach env ent root)
    (hg : root.get? l = some c) :
    (c.keyConfig = true → (ReadsAs env c.name.toList c.name ↔ Bare env c.name)) ∧
    c.valueTexts.map (fun vs => vs.flatMap fun v => ' ' :: v.toList) =
      (c.toNode.values.mapM c.toNode.printed).map List.flatten ∧
    ∀ v ∈ c.toNode.values, ∃ text, c.toNode.printed v = some text ∧
      (ReadsAs env text v ↔ c.toNode.Readable env v) := by
  obtain ⟨hT, -⟩ := hr.typed_closed
  obtain ⟨cur, hw, -⟩ := hT.walk_of_get hg
  refine ⟨fun _ => readsAs_bare hu c.name, hT.valueTexts_printed hw, fun v hv => ?_⟩
  obtain ⟨q, hq⟩ := hT.quote_isSome hw hv
  exact c.toNode.readsAs_printed hu hq v

end

theorem ascii_unquoteShortens : Env.ascii.UnquoteShortens := by
  intro v w h
  have hlast : (v ++ ['"']).getLast? = some '"' := by simp
  change (if (v ++ ['"']).getLast? = some '"' ∧ (v ++ ['"']).dropLast.all Ascii.plain then
    some (v ++ ['"']).dropLast else none) = some w at h
  rw [List.dropLast_concat] at h
  split at h
  · next hp =>
    cases h
    refine ⟨le_rfl, fun hb => ?_⟩
    exact absurd (List.all_eq_true.mp hp.2 '\\' hb) (by decide)
  · cases h

/-- The interface with a name, and its addresses. -/
def interfacePlace (name : String) : Loc :=
  [⟨.configs, "interfaces"⟩, ⟨.configs, "interface"⟩, ⟨.keys, name⟩]

/-- The addresses of an interface. -/
def addressPlace (name : String) : Loc := interfacePlace name ++ [⟨.configs, "address"⟩]

/-- An address with a space in it. -/
theorem quoting_law_space : ∃ root c, Reach .ascii interfacesSchema root ∧
    root.get? (addressPlace "eth0") = some c ∧ c.toNode.printed "a b" = some " \"a b\"".toList ∧
    ReadsAs .ascii " \"a b\"".toList "a b" := by
  obtain ⟨r, hr, hx⟩ := Option.map_eq_some_iff.mp (show
    (parse .ascii interfacesSchema {} ["interfaces", "interface", "eth0", "address", "a b"]).map (fun r =>
      (r.code, (r.tree.get? (addressPlace "eth0")).any fun c => decide (c.toNode.values = ["a b"] ∧
        c.toNode.quote = some true ∧ c.toNode.printed "a b" = some " \"a b\"".toList))) =
    some (.parseSuccess, true) by decide +kernel)
  obtain ⟨hc, hg⟩ := Prod.mk.inj hx
  obtain ⟨c, hg, hfields⟩ := (Option.any_eq_true _ _).mp hg
  simp only [decide_eq_true_eq] at hfields
  obtain ⟨hvalues, hquote, hprinted⟩ := hfields
  have hreach : Reach .ascii interfacesSchema r.tree := .set .empty hr hc
  obtain ⟨text, ht, hiff⟩ := (quoting_law ascii_unquoteShortens hreach hg).2.2 "a b"
    (hvalues ▸ List.mem_singleton.mpr rfl)
  rw [hprinted] at ht
  cases ht
  refine ⟨r.tree, c, hreach, hg, hprinted, hiff.mpr ?_⟩
  rw [Node.Readable, hquote, if_pos rfl]
  exact ⟨by decide, nofun⟩

/-- A key with a semicolon, and an address with a quote, are read back as something else. -/
theorem quoting_law_semiColon : ∃ root c d, Reach .ascii interfacesSchema root ∧
    root.get? (interfacePlace "a;b") = some c ∧ c.keyConfig = true ∧ c.name = "a;b" ∧
    ¬ ReadsAs .ascii "a;b".toList "a;b" ∧
    root.get? (addressPlace "a;b") = some d ∧ d.toNode.values = ["a\"b"] ∧
    ∃ text, d.toNode.printed "a\"b" = some text ∧ ¬ ReadsAs .ascii text "a\"b" := by
  obtain ⟨r, hr, hx⟩ := Option.map_eq_some_iff.mp (show
    (parse .ascii interfacesSchema {} ["interfaces", "interface", "a;b", "address", "a\"b"]).map (fun r =>
      (r.code, (r.tree.get? (interfacePlace "a;b")).any (fun c => decide (c.keyConfig = true ∧ c.name = "a;b")),
        (r.tree.get? (addressPlace "a;b")).any fun d => decide (d.toNode.values = ["a\"b"] ∧
          d.toNode.quote = some true))) =
    some (.parseSuccess, true, true) by decide +kernel)
  simp only [Prod.mk.injEq] at hx
  obtain ⟨hc, hkey, hvalue⟩ := hx
  obtain ⟨c, hgc, hcf⟩ := (Option.any_eq_true _ _).mp hkey
  obtain ⟨d, hgd, hdf⟩ := (Option.any_eq_true _ _).mp hvalue
  simp only [decide_eq_true_eq] at hcf hdf
  obtain ⟨hkc, hname⟩ := hcf
  obtain ⟨hvalues, hquote⟩ := hdf
  obtain ⟨text, ht, hiff⟩ := d.toNode.readsAs_printed ascii_unquoteShortens hquote "a\"b"
  refine ⟨r.tree, c, d, .set .empty hr hc, hgc, hkc, hname, ?_, hgd, hvalues, text, ht, ?_⟩
  · rw [readsAs_bare ascii_unquoteShortens]
    decide
  · rw [hiff, Node.Readable, hquote, if_pos rfl]
    exact fun h => absurd h.1 (by decide)

end OpenConfigd
