import Mathlib.Data.List.Sort
import OpenConfigd.Yang.Entry

/-!
# The libraries the configuration code calls

What the model takes from Go's library and from goyang, as fields of `Env`, each
with the documented behaviour the proofs use. `sort.Sort` is any sort: on a slice
whose elements `Less` does not put in a strict weak order (and `ConfigSlice.Less`
does not in general) its result is only known to be a permutation.
-/

namespace OpenConfigd

/-- A strict weak order on the elements of a slice, what `sort.Interface` asks of `Less`. -/
structure StrictWeak {α : Type} (less : α → α → Bool) (l : List α) : Prop where
  asymm : ∀ a ∈ l, ∀ b ∈ l, less a b → ¬ less b a
  negTrans : ∀ a ∈ l, ∀ b ∈ l, ∀ c ∈ l, ¬ less a b → ¬ less b c → ¬ less a c

/-- `unicode.IsSpace`. -/
def isSpace (c : Char) : Bool :=
  c == ' ' || (0x09 ≤ c.toNat && c.toNat ≤ 0x0d) || c.toNat == 0x85 || c.toNat == 0xa0 ||
  c.toNat == 0x1680 || (0x2000 ≤ c.toNat && c.toNat ≤ 0x200a) || c.toNat == 0x2028 ||
  c.toNat == 0x2029 || c.toNat == 0x202f || c.toNat == 0x205f || c.toNat == 0x3000

/-- `unicode.IsControl`. -/
def isControl (c : Char) : Bool := c.toNat < 0x20 || (0x7f ≤ c.toNat && c.toNat < 0xa0)

/-- What the configuration code uses of Go's library and of goyang. -/
structure Env where
  /-- `sort.Sort`, given `Less`. -/
  sort : {α : Type} → (α → α → Bool) → List α → List α
  sort_perm : ∀ {α : Type} (less : α → α → Bool) (l : List α), (sort less l).Perm l
  sort_sorted : ∀ {α : Type} (less : α → α → Bool) (l : List α), StrictWeak less l →
    (sort less l).Pairwise fun a b => ¬ less b a
  /-- `regexp.Compile`, then `MatchString`; `none` when the expression does not compile. -/
  compile : String → Option (String → Bool)
  /-- `strconv.Unquote`; `none` when it returns an error. -/
  unquote : List Char → Option (List Char)
  unquote_plain : ∀ v : List Char, (∀ c ∈ v, c ≠ '"' ∧ c ≠ '\\' ∧ isControl c = false) →
    unquote ('"' :: v ++ ['"']) = some v
  unquote_bare : ∀ (c : Char) (v : List Char), c ≠ '"' → c ≠ '\x27' → c ≠ '\x60' →
    unquote (c :: v) = none
  /-- `fmt.Fprintf` of a format without operands. -/
  fprintf : List Char → List Char
  fprintf_plain : ∀ f : List Char, '%' ∉ f → fprintf f = f
  /-- `unicode.IsLetter` and `unicode.IsDigit`, whose tables grow with the Unicode version. -/
  isLetter : Char → Bool
  isDigit : Char → Bool
  isLetter_ascii : ∀ c : Char, c.toNat < 128 → isLetter c = c.isAlpha
  isDigit_ascii : ∀ c : Char, c.toNat < 128 → isDigit c = c.isDigit
  isLetter_space : ∀ c, isSpace c → isLetter c = false
  isDigit_space : ∀ c, isSpace c → isDigit c = false
  /-- `yang.ParseNumber`; `none` when it returns an error. -/
  parseNumber : String → Option Number
  /-- `(*yang.Entry).Find`. -/
  find : Entry → String → Option Entry

end OpenConfigd
