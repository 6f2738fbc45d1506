import Mathlib.Data.List.Basic
import Mathlib.Data.List.Infix

/-!
# JSON texts

The grammar of JSON as a relation: `Reads t j r` says that the text `t` starts
with a spelling of the value `j` and goes on with `r`. Numbers, `true`, `false`
and `null` are literals and keep their spelling, strings are the characters they
stand for. A string spelled by its own characters is read back just if none of
them has to be escaped (`reads_str_iff`).
-/

/-- A JSON value; the members of an object are in the order of the text. -/
inductive Json where
  | lit (s : List Char)
  | str (s : List Char)
  | arr (items : List Json)
  | obj (members : List (List Char × Json))

namespace Json

/-! ## Tokens -/

/-- White space. -/
def isSpace (c : Char) : Bool := c == ' ' || c == '\t' || c == '\n' || c == '\r'

/-- The text after white space. -/
def skip (t : List Char) : List Char := t.dropWhile isSpace

/-- The text after one or more digits. -/
def digits : List Char → Option (List Char)
  | [] => none
  | c :: cs => if c.isDigit then some (cs.dropWhile Char.isDigit) else none

/-- The text after the digits before a decimal point. -/
def natural : List Char → Option (List Char)
  | [] => none
  | c :: cs => if c = '0' then some cs else digits (c :: cs)

/-- The text after a fraction, if there is one. -/
def fraction : List Char → Option (List Char)
  | '.' :: cs => digits cs
  | t => some t

/-- The text is an exponent or empty. -/
def isExponent : List Char → Bool
  | [] => true
  | c :: cs =>
    (c == 'e' || c == 'E') &&
      digits (if cs.head? = some '+' ∨ cs.head? = some '-' then cs.tail else cs) == some []

/-- The text without a minus sign. -/
def unsigned (t : List Char) : List Char := if t.head? = some '-' then t.tail else t

/-- The text is a number. -/
def isNumber (t : List Char) : Bool :=
  (((natural (unsigned t)).bind fraction).map isExponent).getD false

/-- The text is a literal. -/
def isLiteral (t : List Char) : Bool :=
  t == "true".toList || t == "false".toList || t == "null".toList || isNumber t

/-- A literal ends here. -/
def Ends (r : List Char) : Prop :=
  ∀ c ∈ r.head?, isSpace c = true ∨ c = ',' ∨ c = ']' ∨ c = '}'

/-- Stands for itself in a string. -/
def plain (c : Char) : Bool := c != '"' && c != '\\' && 0x20 ≤ c.toNat

/-- No character has to be escaped. -/
def Safe (s : List Char) : Prop := ∀ c ∈ s, plain c = true

instance (s : List Char) : Decidable (Safe s) :=
  decidable_of_iff (s.all plain = true) List.all_eq_true

/-- The characters after a backslash, but for `u`, and what they stand for. -/
def escape : Char → Option Char
  | '"' => some '"'
  | '\\' => some '\\'
  | '/' => some '/'
  | 'b' => some '\x08'
  | 'f' => some '\x0c'
  | 'n' => some '\n'
  | 'r' => some '\r'
  | 't' => some '\t'
  | _ => none

/-- The value of a hexadecimal digit. -/
def hexDigit (c : Char) : Option Nat :=
  if c.isDigit then some (c.toNat - '0'.toNat)
  else if 'a' ≤ c ∧ c ≤ 'f' then some (c.toNat - 'a'.toNat + 10)
  else if 'A' ≤ c ∧ c ≤ 'F' then some (c.toNat - 'A'.toNat + 10)
  else none

/-- The value of hexadecimal digits. -/
def hex (ds : List Char) : Option Nat :=
  (ds.mapM hexDigit).map fun ns => ns.foldl (fun n d => 16 * n + d) 0

/-- The text between the quotes, and the characters it stands for. -/
inductive Unescapes : List Char → List Char → Prop
  | nil : Unescapes [] []
  | plain {c : Char} {t s : List Char} : plain c = true → Unescapes t s → Unescapes (c :: t) (c :: s)
  | escape {c c' : Char} {t s : List Char} : escape c = some c' → Unescapes t s →
    Unescapes ('\\' :: c :: t) (c' :: s)
  | unicode {ds t s : List Char} {n : Nat} : ds.length = 4 → hex ds = some n → n.isValidChar →
    Unescapes t s → Unescapes ('\\' :: 'u' :: (ds ++ t)) (Char.ofNat n :: s)
  | surrogates {ds ds' t s : List Char} {n n' : Nat} : ds.length = 4 → ds'.length = 4 →
    hex ds = some n → hex ds' = some n' → 0xd800 ≤ n → n < 0xdc00 → 0xdc00 ≤ n' → n' < 0xe000 →
    Unescapes t s → Unescapes ('\\' :: 'u' :: (ds ++ '\\' :: 'u' :: (ds' ++ t)))
      (Char.ofNat (0x10000 + (n - 0xd800) * 0x400 + (n' - 0xdc00)) :: s)

/-! ## Values -/

mutual

/-- The text starts with a spelling of the value. -/
inductive Reads : List Char → Json → List Char → Prop
  | lit {t s r : List Char} : skip t = s ++ r → isLiteral s = true → Ends r → Reads t (.lit s) r
  | str {t raw s r : List Char} : skip t = '"' :: (raw ++ '"' :: r) → Unescapes raw s →
    Reads t (.str s) r
  | arr {t t' r : List Char} {js : List Json} : skip t = '[' :: t' → Items t' js r →
    Reads t (.arr js) r
  | obj {t t' r : List Char} {ms : List (List Char × Json)} : skip t = '{' :: t' → Members t' ms r →
    Reads t (.obj ms) r

/-- The text of an array after its bracket. -/
inductive Items : List Char → List Json → List Char → Prop
  | nil {t r : List Char} : skip t = ']' :: r → Items t [] r
  | cons {t t' r : List Char} {j : Json} {js : List Json} : Reads t j t' → MoreItems t' js r →
    Items t (j :: js) r

/-- The text of an array after a value in it. -/
inductive MoreItems : List Char → List Json → List Char → Prop
  | nil {t r : List Char} : skip t = ']' :: r → MoreItems t [] r
  | cons {t t' t'' r : List Char} {j : Json} {js : List Json} : skip t = ',' :: t' → Reads t' j t'' →
    MoreItems t'' js r → MoreItems t (j :: js) r

/-- The text of an object after its brace. -/
inductive Members : List Char → List (List Char × Json) → List Char → Prop
  | nil {t r : List Char} : skip t = '}' :: r → Members t [] r
  | cons {t t' r : List Char} {m : List Char × Json} {ms : List (List Char × Json)} :
    Member t m t' → MoreMembers t' ms r → Members t (m :: ms) r

/-- The text of an object after a member. -/
inductive MoreMembers : List Char → List (List Char × Json) → List Char → Prop
  | nil {t r : List Char} : skip t = '}' :: r → MoreMembers t [] r
  | cons {t t' t'' r : List Char} {m : List Char × Json} {ms : List (List Char × Json)} :
    skip t = ',' :: t' → Member t' m t'' → MoreMembers t'' ms r → MoreMembers t (m :: ms) r

/-- The text starts with a member of an object. -/
inductive Member : List Char → List Char × Json → List Char → Prop
  | mk {t raw name t' t'' r : List Char} {j : Json} : skip t = '"' :: (raw ++ '"' :: t') →
    Unescapes raw name → skip t' = ':' :: t'' → Reads t'' j r → Member t (name, j) r

end

/-- The whole text spells the value. -/
def Denotes (t : List Char) (j : Json) : Prop := ∃ r, Reads t j r ∧ skip r = []

/-! ## Strings -/

section

variable {raw s a t r x y : List Char}

theorem quote_notMem_hex {ds : List Char} {n : Nat} (h : hex ds = some n) : '"' ∉ ds := by
  obtain ⟨ns, hns, -⟩ := Option.map_eq_some_iff.mp h
  clear h
  induction ds generalizing ns with
  | nil => simp
  | cons d ds ih =>
    rw [List.mapM_cons] at hns
    obtain ⟨m, hm, hns⟩ := Option.bind_eq_some_iff.mp hns
    obtain ⟨ms, hms, -⟩ := Option.bind_eq_some_iff.mp hns
    rw [List.mem_cons, not_or]
    refine ⟨?_, ih ms hms⟩
    rintro rfl
    cases hm

/-- A quote in a text lies behind a part of the text without quotes. -/
theorem append_quote {ds : List Char} (hd : '"' ∉ ds) (h : ds ++ t = a ++ '"' :: r) :
    ∃ a', a = ds ++ a' ∧ t = a' ++ '"' :: r := by
  rcases List.append_eq_append_iff.mp h with ⟨a', rfl, h'⟩ | ⟨c', h₁, h₂⟩
  · exact ⟨a', rfl, h'⟩
  · cases c' with
    | nil => exact ⟨[], by simpa using h₁.symm, h₂.symm⟩
    | cons c c' =>
      rw [List.cons_append, List.cons.injEq] at h₂
      refine absurd ?_ hd
      rw [h₁, ← h₂.1]
      simp

/-- A quote in the text of a string is escaped. -/
theorem Unescapes.quote (h : Unescapes (a ++ '"' :: t) s) : ∃ a₀ s₀ s₁,
    a = a₀ ++ ['\\'] ∧ Unescapes a₀ s₀ ∧ s = s₀ ++ '"' :: s₁ := by
  generalize hraw : a ++ '"' :: t = raw at h
  induction h generalizing a with
  | nil => simp at hraw
  | @plain c t' s' hc _ ih =>
    cases a with
    | nil =>
      rw [List.nil_append, List.cons.injEq] at hraw
      rw [← hraw.1] at hc
      cases hc
    | cons b a =>
      rw [List.cons_append, List.cons.injEq] at hraw
      obtain ⟨a₀, s₀, s₁, ha, hu, hs⟩ := ih hraw.2
      rw [ha, hs, hraw.1]
      exact ⟨c :: a₀, c :: s₀, s₁, rfl, .plain hc hu, rfl⟩
  | @escape c c' t' s' hc _ ih =>
    rcases a with _ | ⟨b, _ | ⟨b', a⟩⟩
    · rw [List.nil_append, List.cons.injEq] at hraw
      cases hraw.1
    · simp only [List.cons_append, List.nil_append, List.cons.injEq] at hraw
      rw [← hraw.2.1] at hc
      cases hc
      exact ⟨[], [], s', by rw [hraw.1]; rfl, .nil, rfl⟩
    · simp only [List.cons_append, List.cons.injEq] at hraw
      obtain ⟨a₀, s₀, s₁, ha, hu, hs⟩ := ih hraw.2.2
      rw [ha, hs, hraw.1, hraw.2.1]
      exact ⟨'\\' :: c :: a₀, c' :: s₀, s₁, rfl, .escape hc hu, rfl⟩
  | @unicode ds t' s' n hl hx hv _ ih =>
    have hraw' : ('\\' :: 'u' :: ds) ++ t' = a ++ '"' :: t := hraw.symm
    obtain ⟨a', ha, hraw'⟩ := append_quote (by simpa using quote_notMem_hex hx) hraw'
    obtain ⟨a₀, s₀, s₁, ha', hu, hs⟩ := ih hraw'.symm
    rw [ha, ha', hs]
    exact ⟨'\\' :: 'u' :: (ds ++ a₀), _ :: s₀, s₁, by simp, .unicode hl hx hv hu, rfl⟩
  | @surrogates ds ds' t' s' n n' hl hl' hx hx' h₁ h₂ h₃ h₄ _ ih =>
    have hraw' : ('\\' :: 'u' :: (ds ++ '\\' :: 'u' :: ds')) ++ t' = a ++ '"' :: t := by
      rw [hraw]
      simp
    obtain ⟨a', ha, hraw'⟩ := append_quote
      (by simpa using ⟨quote_notMem_hex hx, quote_notMem_hex hx'⟩) hraw'
    obtain ⟨a₀, s₀, s₁, ha', hu, hs⟩ := ih hraw'.symm
    rw [ha, ha', hs]
    exact ⟨'\\' :: 'u' :: (ds ++ '\\' :: 'u' :: (ds' ++ a₀)), _ :: s₀, s₁, by simp,
      .surrogates hl hl' hx hx' h₁ h₂ h₃ h₄ hu, rfl⟩

theorem Unescapes.length_le (h : Unescapes raw s) : s.length ≤ raw.length := by
  induction h with
  | nil => exact Nat.le_refl _
  | plain | escape | unicode | surrogates =>
    simp only [List.length_cons, List.length_append]
    omega

/-- Only a text without escapes is as long as the characters it stands for. -/
theorem Unescapes.eq_of_length (h : Unescapes raw s) (hl : raw.length = s.length) :
    raw = s ∧ Safe s := by
  induction h with
  | nil => exact ⟨rfl, fun c hc => by cases hc⟩
  | @plain c t s hc _ ih =>
    obtain ⟨rfl, hs⟩ := ih (by simpa using hl)
    refine ⟨rfl, fun d hd => ?_⟩
    rcases List.mem_cons.mp hd with rfl | hd
    · exact hc
    · exact hs d hd
  | escape _ hu | unicode _ _ _ hu | surrogates _ _ _ _ _ _ _ _ hu =>
    have := hu.length_le
    simp only [List.length_cons, List.length_append] at hl
    omega

/-- A text without escapes stands for itself only. -/
theorem Unescapes.eq_of_safe (h : Unescapes raw s) (hs : Safe raw) : s = raw := by
  induction h with
  | nil => rfl
  | plain _ _ ih => rw [ih fun d hd => hs d (List.mem_cons_of_mem _ hd)]
  | escape | unicode | surrogates =>
    have := hs '\\' List.mem_cons_self
    cases this

/-- A text stands for itself without escapes. -/
theorem Safe.unescapes (h : Safe s) : Unescapes s s := by
  induction s with
  | nil => exact .nil
  | cons c s ih =>
    exact .plain (h c List.mem_cons_self) (ih fun d hd => h d (List.mem_cons_of_mem _ hd))

/-- No text goes on behind the characters it stands for. -/
theorem not_unescapes_append (s t : List Char) : ¬ Unescapes (s ++ '"' :: t) s := by
  induction hn : s.length using Nat.strong_induction_on generalizing s t with
  | _ n ih =>
    intro h
    obtain ⟨a₀, s₀, s₁, ha, hu, hs⟩ := h.quote
    -- The quote stands for a quote in `s`, which is behind a shorter such text.
    have hle := hu.length_le
    have hlen := congrArg List.length ha
    rw [List.length_append] at hlen
    have heq : a₀ ++ ['\\'] = s₀ ++ '"' :: s₁ := by rw [← ha, ← hs]
    rcases List.append_eq_append_iff.mp heq with ⟨c, hc, h'⟩ | ⟨c, hc, h'⟩
    · have hnil : c = [] := by
        have := congrArg List.length hc
        rw [List.length_append] at this
        exact List.length_eq_zero_iff.mp (by omega)
      rw [hnil] at h'
      cases h'
    · cases c with
      | nil => cases h'
      | cons d c =>
        obtain ⟨rfl, -⟩ := List.cons.inj h'
        rw [hc] at hu
        refine ih s₀.length ?_ s₀ c rfl hu
        have := congrArg List.length hc
        simp only [List.length_append, List.length_cons, List.length_nil] at this hlen
        omega

/-- A string spelled by its own characters. -/
theorem unescapes_self_iff : Unescapes raw s ∧ raw ++ '"' :: x = s ++ '"' :: y ↔
    Safe s ∧ raw = s ∧ x = y := by
  constructor
  · rintro ⟨hu, heq⟩
    have hle := hu.length_le
    rcases List.append_eq_append_iff.mp heq with ⟨c, rfl, h'⟩ | ⟨c, rfl, h'⟩
    · have hnil : c = [] := by
        rw [List.length_append] at hle
        exact List.length_eq_zero_iff.mp (by omega)
      subst hnil
      rw [List.append_nil] at hu ⊢
      exact ⟨(hu.eq_of_length rfl).2, rfl, (List.cons.inj h').2⟩
    · cases c with
      | nil =>
        rw [List.append_nil] at hu ⊢
        exact ⟨(hu.eq_of_length rfl).2, rfl, (List.cons.inj h').2.symm⟩
      | cons d c =>
        obtain ⟨rfl, -⟩ := List.cons.inj h'
        exact absurd hu (not_unescapes_append s c)
  · rintro ⟨hs, rfl, rfl⟩
    exact ⟨hs.unescapes, rfl⟩

/-- A string spelled by characters that need no escape. -/
theorem unescapes_safe_iff (ha : Safe a) : Unescapes raw s ∧ raw ++ '"' :: x = a ++ '"' :: y ↔
    raw = a ∧ s = a ∧ x = y := by
  constructor
  · rintro ⟨hu, heq⟩
    rcases List.append_eq_append_iff.mp heq with ⟨c, hc, h'⟩ | ⟨c, hc, h'⟩
    · cases c with
      | nil =>
        rw [List.append_nil] at hc
        subst hc
        exact ⟨rfl, hu.eq_of_safe ha, (List.cons.inj h').2⟩
      | cons d c =>
        rw [hc, ← (List.cons.inj h').1] at ha
        have := ha '"' (by simp)
        cases this
    · cases c with
      | nil =>
        rw [List.append_nil] at hc
        subst hc
        exact ⟨rfl, hu.eq_of_safe ha, (List.cons.inj h').2.symm⟩
      | cons d c =>
        rw [hc, ← (List.cons.inj h').1] at hu
        obtain ⟨a₀, s₀, s₁, rfl, -⟩ := hu.quote
        have := ha '\\' (by simp)
        cases this
  · rintro ⟨rfl, rfl, rfl⟩
    exact ⟨ha.unescapes, rfl⟩

end

/-! ## The start of a text -/

section

variable {c : Char} {a b s t r rest : List Char} {j : Json} {js : List Json}
  {ms : List (List Char × Json)}

theorem skip_cons (h : isSpace c = false) : skip (c :: t) = c :: t := by
  rw [skip, List.dropWhile_cons, h]
  rfl

theorem isLiteral_head (h : isLiteral s = true) : ∃ c cs, s = c :: cs ∧ isSpace c = false := by
  cases s with
  | nil => cases h
  | cons c cs =>
    refine ⟨c, cs, rfl, ?_⟩
    by_contra hs
    have hmem : c ∈ [' ', '\t', '\n', '\r'] := by
      simpa [isSpace, or_assoc, imp_iff_not_or] using hs
    have hnot : [' ', '\t', '\n', '\r'].all (fun c => decide
        (c ≠ 't' ∧ c ≠ 'f' ∧ c ≠ 'n' ∧ c ≠ '-' ∧ c ≠ '0' ∧ c.isDigit = false)) = true := by decide
    obtain ⟨h₁, h₂, h₃, h₄, h₅, h₆⟩ := of_decide_eq_true (List.all_eq_true.mp hnot c hmem)
    simp [isLiteral, isNumber, unsigned, natural, digits, h₁, h₂, h₃, h₄, h₅, h₆] at h

theorem reads_lit_iff (he : Ends rest) :
    Reads (s ++ rest) (.lit s) r ↔ isLiteral s = true ∧ r = rest := by
  have hskip (h : isLiteral s = true) : skip (s ++ rest) = s ++ rest := by
    obtain ⟨c, cs, rfl, hc⟩ := isLiteral_head h
    exact skip_cons hc
  constructor
  · rintro ⟨h, hl, -⟩
    rw [hskip hl] at h
    exact ⟨hl, (List.append_cancel_left h).symm⟩
  · rintro ⟨hl, rfl⟩
    exact .lit (hskip hl) hl he

theorem reads_str_iff : Reads ('"' :: (s ++ '"' :: rest)) (.str s) r ↔ Safe s ∧ r = rest := by
  have hskip : skip ('"' :: (s ++ '"' :: rest)) = '"' :: (s ++ '"' :: rest) := skip_cons rfl
  constructor
  · intro h
    cases h with
    | @str _ raw _ _ h hu =>
      rw [hskip, List.cons.injEq] at h
      obtain ⟨hs, -, hr⟩ := unescapes_self_iff.mp ⟨hu, h.2.symm⟩
      exact ⟨hs, hr⟩
  · rintro ⟨hs, rfl⟩
    exact .str hskip hs.unescapes

theorem reads_arr_iff : Reads ('[' :: t) (.arr js) r ↔ Items t js r := by
  constructor
  · intro h
    cases h with
    | arr h hi =>
      rw [skip_cons rfl, List.cons.injEq] at h
      rwa [h.2]
  · exact .arr (skip_cons rfl)

theorem reads_obj_iff : Reads ('{' :: t) (.obj ms) r ↔ Members t ms r := by
  constructor
  · intro h
    cases h with
    | obj h hm =>
      rw [skip_cons rfl, List.cons.injEq] at h
      rwa [h.2]
  · exact .obj (skip_cons rfl)

theorem not_reads_obj (hc : isSpace c = false) (h : c ≠ '{') : ¬ Reads (c :: t) (.obj ms) r := by
  intro hr
  cases hr with
  | obj h' =>
    rw [skip_cons hc] at h'
    exact h (List.cons.inj h').1

theorem reads_space (hc : isSpace c = true) : Reads (c :: t) j r ↔ Reads t j r := by
  have hskip : skip (c :: t) = skip t := by
    rw [skip, List.dropWhile_cons, hc]
    rfl
  constructor
  · intro h
    cases h with
    | lit h => exact .lit (hskip ▸ h) ‹_› ‹_›
    | str h => exact .str (hskip ▸ h) ‹_›
    | arr h => exact .arr (hskip ▸ h) ‹_›
    | obj h => exact .obj (hskip ▸ h) ‹_›
  · intro h
    cases h with
    | lit h => exact .lit (hskip.trans h) ‹_› ‹_›
    | str h => exact .str (hskip.trans h) ‹_›
    | arr h => exact .arr (hskip.trans h) ‹_›
    | obj h => exact .obj (hskip.trans h) ‹_›

theorem member_iff (ha : Safe a) :
    Member ('"' :: (a ++ '"' :: ':' :: t)) (b, j) r ↔ b = a ∧ Reads t j r := by
  have hskip : skip ('"' :: (a ++ '"' :: ':' :: t)) = '"' :: (a ++ '"' :: ':' :: t) := skip_cons rfl
  constructor
  · rintro ⟨h, hu, hc, hj⟩
    rw [hskip, List.cons.injEq] at h
    obtain ⟨-, rfl, rfl⟩ := (unescapes_safe_iff ha).mp ⟨hu, h.2.symm⟩
    rw [skip_cons rfl, List.cons.injEq] at hc
    exact ⟨rfl, hc.2 ▸ hj⟩
  · rintro ⟨rfl, hj⟩
    exact .mk hskip ha.unescapes (skip_cons rfl) hj

end

/-! ## Texts put together -/

section

variable {a b t t' r rest : List Char} {j : Json} {js js' : List Json} {m : List Char × Json}
  {ms : List (List Char × Json)} {g g' : Prop}

/-- A value has come to its end, without white space. -/
def Stops (r : List Char) : Prop := ∀ c ∈ r.head?, c = ',' ∨ c = ']' ∨ c = '}'

/-- The text is read as the value, up to its end, just if `g`. -/
def Spells (t : List Char) (j : Json) (g : Prop) : Prop :=
  ∀ rest r, Stops rest → (Reads (t ++ rest) j r ↔ g ∧ r = rest)

/-- The text is read as the member, up to its end, just if `g`. -/
def SpellsMember (t : List Char) (m : List Char × Json) (g : Prop) : Prop :=
  ∀ rest r, Stops rest → (Member (t ++ rest) m r ↔ g ∧ r = rest)

/-- Nothing, or a comma and more. -/
def Continues (t : List Char) : Prop := ∀ c ∈ t.head?, c = ','

/-- The text, which has a comma before each member, is read as the last members of an
object just if `g`. -/
structure SpellsMembers (t : List Char) (ms : List (List Char × Json)) (g : Prop) : Prop where
  continues : Continues t
  iff : ∀ rest r, MoreMembers (t ++ '}' :: rest) ms r ↔ g ∧ r = rest

/-- The text is read as the last members of an object, one or more and the first without
a comma, and its closing brace, just if `g`. -/
def SpellsRest (t : List Char) (ms : List (List Char × Json)) (g : Prop) : Prop :=
  ∃ m ms', ms = m :: ms' ∧ ∀ rest r,
    (∃ t', Member (t ++ rest) m t' ∧ MoreMembers t' ms' r) ↔ g ∧ r = rest

/-- The text is read as values of an array, one or more, just if `g`. -/
def SpellsChunk (t : List Char) (js : List Json) (g : Prop) : Prop :=
  ∃ j js', js = j :: js' ∧ ∀ rest more r, Stops rest →
    ((∃ t', Reads (t ++ rest) j t' ∧ MoreItems t' (js' ++ more) r) ↔ g ∧ MoreItems rest more r)

/-- The text, which has a comma before each value, is read as the last values of an
array just if `g`. -/
structure SpellsItems (t : List Char) (js : List Json) (g : Prop) : Prop where
  continues : Continues t
  iff : ∀ rest r, MoreItems (t ++ ']' :: rest) js r ↔ g ∧ r = rest

theorem Continues.stops (h : Continues t) {c : Char} (hc : c = ']' ∨ c = '}') :
    Stops (t ++ c :: rest) := by
  cases t with
  | nil =>
    intro d hd
    cases hd
    rcases hc with rfl | rfl <;> simp
  | cons d t =>
    intro d' hd
    cases hd
    exact .inl (h d rfl)

theorem Stops.ends (h : Stops rest) : Ends rest := fun c hc => .inr (h c hc)

theorem Spells.lit (s : List Char) : Spells s (.lit s) (isLiteral s = true) :=
  fun _ _ he => reads_lit_iff he.ends

/-- No text at all is no string. -/
theorem Spells.not_str (s : List Char) : Spells [] (.str s) False := by
  intro rest r he
  refine ⟨fun h => ?_, fun h => h.1.elim⟩
  cases h with
  | str h =>
    cases rest with
    | nil => cases h
    | cons c rest =>
      have hc := he c rfl
      have hspace : isSpace c = false := by rcases hc with rfl | rfl | rfl <;> rfl
      rw [List.nil_append, skip_cons hspace, List.cons.injEq] at h
      rw [h.1] at hc
      exact absurd hc (by decide)

theorem Spells.str (s : List Char) : Spells ('"' :: (s ++ ['"'])) (.str s) (Safe s) := by
  intro rest r _
  rw [List.cons_append, List.append_assoc]
  exact reads_str_iff

theorem Spells.space (h : Spells t j g) : Spells (' ' :: t) j g := fun rest r he =>
  (reads_space rfl).trans (h rest r he)

theorem SpellsMember.mk (ha : Safe a) (h : Spells t j g) :
    SpellsMember ('"' :: (a ++ '"' :: ':' :: t)) (b, j) (b = a ∧ g) := by
  intro rest r he
  rw [List.cons_append, List.append_assoc]
  refine (member_iff ha).trans ?_
  rw [List.append_eq, h rest r he, and_assoc]

theorem SpellsMembers.nil : SpellsMembers [] [] True := by
  refine ⟨(fun c hc => by cases hc), fun rest r => ⟨fun h => ?_, fun h => ?_⟩⟩
  · cases h with
    | nil h =>
      rw [List.nil_append, skip_cons rfl, List.cons.injEq] at h
      exact ⟨trivial, h.2.symm⟩
  · rw [h.2]
    exact .nil (skip_cons rfl)

theorem SpellsMembers.cons (h : SpellsMember t m g) (h' : SpellsMembers t' ms g') :
    SpellsMembers (',' :: (t ++ t')) (m :: ms) (g ∧ g') := by
  refine ⟨fun c hc => by cases hc; rfl, fun rest r => ⟨fun hm => ?_, fun hm => ?_⟩⟩
  · cases hm with
    | cons hs hm hms =>
      rw [List.cons_append, skip_cons rfl, List.cons.injEq] at hs
      rw [← hs.2, List.append_assoc, h _ _ (h'.continues.stops (.inr rfl))] at hm
      rw [hm.2, h'.iff] at hms
      exact ⟨⟨hm.1, hms.1⟩, hms.2⟩
  · refine .cons (skip_cons rfl) ?_ ((h'.iff rest r).mpr ⟨hm.1.2, hm.2⟩)
    rw [List.append_eq, List.append_assoc, h _ _ (h'.continues.stops (.inr rfl))]
    exact ⟨hm.1.1, rfl⟩

theorem Spells.obj_nil : Spells ['{', '}'] (.obj []) True := by
  intro rest r _
  refine reads_obj_iff.trans ⟨fun h => ?_, fun h => ?_⟩
  · cases h with
    | nil h =>
      rw [List.append_eq, List.singleton_append, skip_cons rfl, List.cons.injEq] at h
      exact ⟨trivial, h.2.symm⟩
  · rw [h.2]
    exact .nil (skip_cons rfl)

theorem SpellsRest.close (h : SpellsMember t m g) (h' : SpellsMembers t' ms g') :
    SpellsRest (t ++ t' ++ ['}']) (m :: ms) (g ∧ g') := by
  refine ⟨m, ms, rfl, fun rest r => ?_⟩
  have he : Stops (t' ++ '}' :: rest) := h'.continues.stops (.inr rfl)
  rw [List.append_assoc, List.append_assoc, List.singleton_append]
  constructor
  · rintro ⟨t₁, hm, hms⟩
    rw [h _ _ he] at hm
    rw [hm.2, h'.iff] at hms
    exact ⟨⟨hm.1, hms.1⟩, hms.2⟩
  · rintro ⟨⟨hg, hg'⟩, hr⟩
    exact ⟨_, (h _ _ he).mpr ⟨hg, rfl⟩, (h'.iff rest r).mpr ⟨hg', hr⟩⟩

theorem SpellsRest.cons (h : SpellsMember t m g) (h' : SpellsRest t' ms g') :
    SpellsRest (t ++ ',' :: t') (m :: ms) (g ∧ g') := by
  obtain ⟨m', ms, rfl, h'⟩ := h'
  refine ⟨m, m' :: ms, rfl, fun rest r => ?_⟩
  have he : Stops (',' :: (t' ++ rest)) := by
    intro c hc
    cases hc
    exact .inl rfl
  rw [List.append_assoc, List.cons_append]
  constructor
  · rintro ⟨t₁, hm, hms⟩
    obtain ⟨hg, rfl⟩ := (h _ _ he).mp hm
    cases hms with
    | cons hs hm' hms =>
      rw [skip_cons rfl, List.cons.injEq] at hs
      obtain ⟨hg', hr⟩ := (h' rest r).mp ⟨_, hs.2 ▸ hm', hms⟩
      exact ⟨⟨hg, hg'⟩, hr⟩
  · rintro ⟨⟨hg, hg'⟩, hr⟩
    obtain ⟨t₁, hm', hms⟩ := (h' rest r).mpr ⟨hg', hr⟩
    exact ⟨_, (h _ _ he).mpr ⟨hg, rfl⟩, .cons (skip_cons rfl) hm' hms⟩

theorem SpellsRest.reads_iff (h : SpellsRest t ms g) :
    Reads ('{' :: (t ++ rest)) (.obj ms) r ↔ g ∧ r = rest := by
  obtain ⟨m, ms, rfl, h⟩ := h
  refine reads_obj_iff.trans ⟨fun hm => ?_, fun hm => ?_⟩
  · cases hm with
    | cons hm hms => exact (h rest r).mp ⟨_, hm, hms⟩
  · obtain ⟨t', hm, hms⟩ := (h rest r).mpr hm
    exact .cons hm hms

theorem Spells.obj (h : SpellsRest t ms g) : Spells ('{' :: t) (.obj ms) g := fun _ _ _ =>
  h.reads_iff

/-- The text does not go on as an array that goes on with the values. -/
def Breaks (t : List Char) (js : List Json) : Prop :=
  (∃ z, t = '}' :: z) ∨ ∃ z ms js', t = ',' :: '"' :: z ∧ js = .obj ms :: js'

theorem Breaks.append (h : Breaks t js) (t' : List Char) (js' : List Json) :
    Breaks (t ++ t') (js ++ js') := by
  rcases h with ⟨z, rfl⟩ | ⟨z, ms, js'', rfl, rfl⟩
  · exact .inl ⟨z ++ t', rfl⟩
  · exact .inr ⟨z ++ t', ms, js'' ++ js', rfl, rfl⟩

theorem Breaks.not_moreItems (h : Breaks t js) : ¬ MoreItems t js r := by
  intro hm
  rcases h with ⟨z, rfl⟩ | ⟨z, ms, js', rfl, rfl⟩
  · cases hm with
    | nil h | cons h =>
      rw [skip_cons rfl] at h
      cases h
  · cases hm with
    | cons h hj =>
      rw [skip_cons rfl, List.cons.injEq] at h
      rw [← h.2] at hj
      exact not_reads_obj rfl (by decide) hj

/-- An object with a text after it that breaks the array. -/
theorem SpellsChunk.breaks (h : SpellsRest t ms g) (hb : Breaks t' js) :
    SpellsChunk ('{' :: (t ++ t')) (.obj ms :: js) False := by
  refine ⟨.obj ms, js, rfl, fun rest more r _ => ⟨?_, fun h => h.1.elim⟩⟩
  rintro ⟨t₁, hj, hm⟩
  rw [List.cons_append, List.append_assoc, h.reads_iff] at hj
  rw [hj.2] at hm
  exact ((hb.append rest more).not_moreItems hm).elim

/-- One value. -/
theorem SpellsChunk.one (h : Spells t j g) : SpellsChunk t [j] g := by
  refine ⟨j, [], rfl, fun rest more r he => ⟨?_, ?_⟩⟩
  · rintro ⟨t', hj, hm⟩
    obtain ⟨hg, rfl⟩ := (h rest t' he).mp hj
    exact ⟨hg, hm⟩
  · rintro ⟨hg, hm⟩
    exact ⟨rest, (h rest rest he).mpr ⟨hg, rfl⟩, hm⟩

/-- The text, which comes after the opening brace and some members `pre` of an object, is
read as the rest of the object and the objects after it, which are `es pre` with the first
one, just if `g`; there is only one object then. -/
def SpellsOpen (t : List Char) (es : List (List Char × Json) → List Json) (g : Prop) : Prop :=
  ∃ (p z : List Char) (ms : List (List Char × Json)) (ok : Prop)
    (js : List (List Char × Json) → List Json),
    t = p ++ z ∧ p.head? = some '"' ∧ SpellsRest p ms ok ∧
    (∀ pre, es pre = .obj (pre ++ ms) :: js pre) ∧
    ((z = [] ∧ (∀ pre, js pre = []) ∧ (g ↔ ok)) ∨ (∀ pre, Breaks z (js pre)) ∧ ¬ g)

section

variable {es es' : List (List Char × Json) → List Json}

theorem SpellsOpen.one (h : SpellsRest t ms g) (ht : t.head? = some '"') :
    SpellsOpen t (fun pre => [.obj (pre ++ ms)]) g :=
  ⟨t, [], ms, g, fun _ => [], (List.append_nil _).symm, ht, h, fun _ => rfl,
    .inl ⟨rfl, fun _ => rfl, .rfl⟩⟩

theorem SpellsOpen.cons (h : SpellsMember t m g) (ht : t.head? = some '"')
    (h' : SpellsOpen t' es g') :
    SpellsOpen (t ++ ',' :: t') (fun pre => es (pre ++ [m])) (g ∧ g') := by
  obtain ⟨p, z, ms, ok, js, rfl, -, hr, hes, hz⟩ := h'
  refine ⟨t ++ ',' :: p, z, m :: ms, g ∧ ok, fun pre => js (pre ++ [m]), by simp,
    by rw [List.head?_append, ht]; rfl, .cons h hr, fun pre => ?_, ?_⟩
  · show es (pre ++ [m]) = _
    rw [hes, List.append_assoc]
    rfl
  · rcases hz with ⟨hz, hjs, hg⟩ | ⟨hz, hg⟩
    · exact .inl ⟨hz, fun pre => hjs _, and_congr_right fun _ => hg⟩
    · exact .inr ⟨fun pre => hz _, fun h => hg h.2⟩

theorem SpellsOpen.head (h : SpellsOpen t es g) : ∃ t', t = '"' :: t' := by
  obtain ⟨p, z, -, -, -, rfl, hp, -⟩ := h
  cases p with
  | nil => cases hp
  | cons c p =>
    cases hp
    exact ⟨p ++ z, rfl⟩

/-- A second object where only members are expected. -/
theorem SpellsOpen.more (h : SpellsOpen t es g) (h' : SpellsOpen t' es' g') :
    SpellsOpen (t ++ ',' :: t') (fun pre => es pre ++ es' pre) False := by
  obtain ⟨t₁, ht⟩ := h'.head
  obtain ⟨p, z, ms, ok, js, rfl, hp, hr, hes, hz⟩ := h
  obtain ⟨-, -, ms', -, js', -, -, -, hes', -⟩ := h'
  refine ⟨p, z ++ ',' :: t', ms, ok, fun pre => js pre ++ es' pre, by simp, hp, hr, fun pre => ?_,
    .inr ⟨fun pre => ?_, id⟩⟩
  · show es pre ++ es' pre = _
    rw [hes]
    rfl
  · show Breaks _ (js pre ++ es' pre)
    rcases hz with ⟨rfl, hjs, -⟩ | ⟨hz, -⟩
    · rw [hjs, hes', ht]
      exact .inr ⟨t₁, _, _, rfl, rfl⟩
    · exact (hz pre).append _ _

/-- A second closing brace. -/
theorem SpellsOpen.brace (h : SpellsOpen t es g) : SpellsOpen (t ++ ['}']) es False := by
  obtain ⟨p, z, ms, ok, js, rfl, hp, hr, hes, hz⟩ := h
  refine ⟨p, z ++ ['}'], ms, ok, js, by simp, hp, hr, hes, .inr ⟨fun pre => ?_, id⟩⟩
  rcases hz with ⟨rfl, -⟩ | ⟨hz, -⟩
  · exact .inl ⟨[], rfl⟩
  · have := (hz pre).append ['}'] []
    rwa [List.append_nil] at this

/-- The values of an array from an opening brace on. -/
theorem SpellsOpen.chunk (h : SpellsOpen t es g) : SpellsChunk ('{' :: t) (es []) g := by
  obtain ⟨p, z, ms, ok, js, rfl, -, hr, hes, hz⟩ := h
  rw [hes, List.nil_append]
  rcases hz with ⟨rfl, hjs, hg⟩ | ⟨hz, hg⟩
  · rw [hjs, List.append_nil, propext hg]
    exact .one (.obj hr)
  · rw [iff_false_intro hg]
    exact .breaks hr (hz [])

end

theorem SpellsItems.nil : SpellsItems [] [] True := by
  refine ⟨(fun c hc => by cases hc), fun rest r => ⟨fun h => ?_, fun h => ?_⟩⟩
  · cases h with
    | nil h =>
      rw [List.nil_append, skip_cons rfl, List.cons.injEq] at h
      exact ⟨trivial, h.2.symm⟩
  · rw [h.2]
    exact .nil (skip_cons rfl)

theorem SpellsItems.append (h : SpellsChunk t js g) (h' : SpellsItems t' js' g') :
    SpellsItems (',' :: (t ++ t')) (js ++ js') (g ∧ g') := by
  obtain ⟨j, js, rfl, h⟩ := h
  have h := fun rest r => h (t' ++ ']' :: rest) js' r (h'.continues.stops (.inl rfl))
  refine ⟨fun c hc => by cases hc; rfl, fun rest r => ⟨fun hm => ?_, fun hm => ?_⟩⟩
  · cases hm with
    | cons hs hj hms =>
      rw [List.cons_append, skip_cons rfl, List.cons.injEq] at hs
      rw [← hs.2, List.append_assoc] at hj
      obtain ⟨hg, hms⟩ := (h rest r).mp ⟨_, hj, hms⟩
      rw [h'.iff] at hms
      exact ⟨⟨hg, hms.1⟩, hms.2⟩
  · obtain ⟨t'', hj, hms⟩ := (h rest r).mpr ⟨hm.1.1, (h'.iff rest r).mpr ⟨hm.1.2, hm.2⟩⟩
    refine .cons (skip_cons rfl) ?_ hms
    rwa [List.append_eq, List.append_assoc]

theorem Spells.arr (h : SpellsChunk t js g) (h' : SpellsItems t' js' g') :
    Spells ('[' :: (t ++ t' ++ [']'])) (.arr (js ++ js')) (g ∧ g') := by
  obtain ⟨j, js, rfl, h⟩ := h
  intro rest r _
  have h := h (t' ++ ']' :: rest) js' r (h'.continues.stops (.inl rfl))
  refine reads_arr_iff.trans ?_
  rw [List.append_eq, List.append_assoc, List.append_assoc, List.singleton_append]
  constructor
  · intro hm
    cases hm with
    | cons hj hms =>
      obtain ⟨hg, hms⟩ := h.mp ⟨_, hj, hms⟩
      rw [h'.iff] at hms
      exact ⟨⟨hg, hms.1⟩, hms.2⟩
  · rintro ⟨⟨hg, hg'⟩, hr⟩
    obtain ⟨t'', hj, hms⟩ := h.mpr ⟨hg, (h'.iff rest r).mpr ⟨hg', hr⟩⟩
    exact .cons hj hms

theorem Spells.denotes_iff (h : Spells t j g) : Denotes t j ↔ g := by
  have h := fun r => h [] r fun c hc => by cases hc
  rw [List.append_nil] at h
  constructor
  · rintro ⟨r, hr, -⟩
    exact ((h r).mp hr).1
  · intro hg
    exact ⟨[], (h []).mpr ⟨hg, rfl⟩, rfl⟩

end

end Json
