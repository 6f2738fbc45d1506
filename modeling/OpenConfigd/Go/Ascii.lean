import OpenConfigd.Go.Env

/-!
# The libraries on plain ASCII text

An instance of `Env` that computes, to run the model on concrete inputs: an
insertion sort, and the library functions as they are on ASCII text without
escapes, format verbs, patterns and leafrefs. `routesSchema` is a schema with a
list of two keys.
-/

namespace OpenConfigd

namespace Ascii

/-- An insertion sort that keeps the order of elements neither of which is less. -/
def sort {α : Type} (less : α → α → Bool) (l : List α) : List α :=
  l.insertionSort fun a b => less b a = false

theorem sort_sorted {α : Type} (less : α → α → Bool) (l : List α) (h : StrictWeak less l) :
    (sort less l).Pairwise fun a b => ¬ less b a := by
  -- The elements of the list alone, where the order is one.
  have htotal : Std.Total fun a b : {x // x ∈ l} => less b.1 a.1 = false := ⟨fun a b => by
    cases hab : less a.1 b.1 with
    | false => exact .inr rfl
    | true => exact .inl (by simpa using h.asymm a.1 a.2 b.1 b.2 hab)⟩
  have htrans : IsTrans {x // x ∈ l} fun a b => less b.1 a.1 = false := ⟨fun a b c hab hbc => by
    simpa using h.negTrans c.1 c.2 b.1 b.2 a.1 a.2 (by simpa using hbc) (by simpa using hab)⟩
  have hsorted := List.pairwise_insertionSort (fun a b : {x // x ∈ l} => less b.1 a.1 = false) l.attach
  have hmap : (l.attach.insertionSort fun a b => less b.1 a.1 = false).map Subtype.val =
      sort less l := by
    rw [List.map_insertionSort _ (fun a b => less b a = false) Subtype.val _ fun _ _ _ _ => Iff.rfl,
      List.attach_map_subtype_val, sort]
  rw [← hmap, List.pairwise_map]
  simpa using hsorted

/-- A character that stands for itself in a quoted string. -/
def plain (c : Char) : Bool := c != '"' && c != '\\' && !isControl c

/-- `strconv.Unquote` of a string in double quotes without escapes. -/
def unquote : List Char → Option (List Char)
  | '"' :: v => if v.getLast? = some '"' ∧ v.dropLast.all plain then some v.dropLast else none
  | _ => none

theorem unquote_plain (v : List Char) (h : ∀ c ∈ v, c ≠ '"' ∧ c ≠ '\\' ∧ isControl c = false) :
    unquote ('"' :: v ++ ['"']) = some v := by
  have hv : v.all plain = true := by
    rw [List.all_eq_true]
    intro c hc
    obtain ⟨h₁, h₂, h₃⟩ := h c hc
    simp [plain, h₁, h₂, h₃]
  simp [unquote, hv]

/-- The value of a text of decimal digits, below the bound. -/
def digits (bound : Nat) (ds : List Char) : Option Nat :=
  if ds.isEmpty || ds.any fun c => !c.isDigit then none
  else
    let n := ds.foldl (fun n c => 10 * n + (c.toNat - '0'.toNat)) 0
    if n < bound then some n else none

/-- `yang.ParseNumber` of a decimal number: an integer of 64 bits, or a number with a fraction whose
digits are an `int64`. -/
def parseNumber (s : String) : Option Number :=
  let negative := s.toList.head? = some '-'
  let kind : NumberKind := if negative then .negative else .positive
  let ds := if negative then s.toList.drop 1 else s.toList
  let whole := ds.takeWhile (fun c => c != '.')
  match ds.dropWhile (fun c => c != '.') with
  | [] => (digits (2 ^ 64) whole).map fun n => ⟨kind, n, 0⟩
  | _ :: fraction =>
    (digits (if negative then 2 ^ 63 + 1 else 2 ^ 63) (whole ++ fraction)).map fun n =>
      ⟨if n = 0 then .positive else kind, n, UInt8.ofNat fraction.length⟩

/-- White space is no ASCII letter and no digit. -/
theorem isSpace_toNat {c : Char} (h : isSpace c) : c.toNat ≤ 0x20 ∨ 0x85 ≤ c.toNat := by
  by_cases hc : c = ' '
  · subst hc
    exact .inl (by decide)
  · simp only [isSpace, Bool.or_eq_true, Bool.and_eq_true, decide_eq_true_eq, beq_iff_eq, hc,
      false_or] at h
    omega

theorem isAlpha_space (c : Char) (h : isSpace c) : c.isAlpha = false := by
  have hs := isSpace_toNat h
  have hletter : c.isAlpha = (decide ('A'.val ≤ c.val ∧ c.val ≤ 'Z'.val) ||
    (decide ('a'.val ≤ c.val) && decide (c.val ≤ 'z'.val))) := rfl
  by_contra ha
  simp only [Bool.not_eq_false, hletter, Bool.or_eq_true, Bool.and_eq_true, decide_eq_true_eq,
    UInt32.le_iff_toNat_le] at ha
  have h₀ : c.toNat = c.val.toNat := rfl
  have h₁ : 'A'.val.toNat = 65 := rfl
  have h₂ : 'Z'.val.toNat = 90 := rfl
  have h₃ : 'a'.val.toNat = 97 := rfl
  have h₄ : 'z'.val.toNat = 122 := rfl
  omega

theorem isDigit_space (c : Char) (h : isSpace c) : c.isDigit = false := by
  have hs := isSpace_toNat h
  by_contra ha
  simp only [Bool.not_eq_false, Char.isDigit, Bool.and_eq_true, decide_eq_true_eq,
    UInt32.le_iff_toNat_le, ge_iff_le] at ha
  have h₀ : c.toNat = c.val.toNat := rfl
  have h₁ : '0'.val.toNat = 48 := rfl
  have h₂ : '9'.val.toNat = 57 := rfl
  omega

/-- The lines of a file. -/
def fileLines (text : List Char) : List (List Char) := (text.splitOn '\n').dropLast

/-- `diff -U 65535` of files without a common line. -/
def diff (old new : List Char) : Option (List Char) :=
  if old = new then none
  else
    some ("--- /tmp/config.1\n+++ /tmp/config.2\n@@ @@\n".toList ++
      (fileLines old).flatMap (fun l => '-' :: l ++ ['\n']) ++
      (fileLines new).flatMap (fun l => '+' :: l ++ ['\n']))

end Ascii

/-- The libraries on plain ASCII text. -/
def Env.ascii : Env where
  sort := Ascii.sort
  sort_perm _ _ := List.perm_insertionSort _ _
  sort_sorted := Ascii.sort_sorted
  compile _ := none
  unquote := Ascii.unquote
  unquote_plain := Ascii.unquote_plain
  unquote_bare c v h _ _ := by
    rw [Ascii.unquote]
    intro w hw
    exact h (List.cons.inj hw).1
  fprintf f := f
  fprintf_plain _ _ := rfl
  isLetter := Char.isAlpha
  isDigit := Char.isDigit
  isLetter_ascii _ _ := rfl
  isDigit_ascii _ _ := rfl
  isLetter_space := Ascii.isAlpha_space
  isDigit_space := Ascii.isDigit_space
  parseNumber := Ascii.parseNumber
  find _ _ := none

/-- A number with 64 zeros after the point. -/
def zeros64 : String := "0." ++ String.ofList (List.replicate 64 '0')

/-- A schema with a list of two keys. -/
def routesSchema : Entry :=
  { name := "", kind := .directory, dir := [
    { name := "routes", kind := .directory, parentKind := some .directory, dir := [
      { name := "route", kind := .directory, parentKind := some .directory, listAttr := true,
        key := "dst gw", dir := [
        { name := "dst", kind := .leaf, parentKind := some .directory,
          type := some { kind := .string } },
        { name := "gw", kind := .leaf, parentKind := some .directory,
          type := some { kind := .string } },
        { name := "metric", kind := .leaf, parentKind := some .directory,
          type := some { kind := .uint16 } }] }] }] }

end OpenConfigd
