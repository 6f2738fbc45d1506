import OpenConfigd.Go.Ascii
import OpenConfigd.Quaggad.Node

/-!
# Go on plain text

An instance of `Go` that computes, to run quaggad on concrete messages: addresses in
dotted decimal alone, an insertion sort, and maps in the order of their labels in the
tree.
-/

namespace OpenConfigd.Quaggad

/-- An address in dotted decimal. -/
def isDotted (s : String) : Bool :=
  let parts := s.toList.splitOnP (· == '.')
  parts.length == 4 && parts.all fun p => validatorRange (String.ofList p) 0 255

/-- Go on plain text. -/
def plainGo : Go where
  parseIP s := if isDotted s then some true else none
  parseCIDR s :=
    match s.toList.splitOnP (· == '/') with
    | [a, l] => if isDotted (String.ofList a) && validatorRange (String.ofList l) 0 32 then some true else none
    | _ => none
  pointer _ := "0xc000012345"
  sort := Ascii.sort
  sort_perm _ l := List.perm_insertionSort _ l
  sort_sorted := Ascii.sort_sorted
  range _ l := l
  range_perm _ l := List.Perm.refl l

end OpenConfigd.Quaggad
