import Mathlib.Data.List.AList

/-!
# Go maps

A Go map is an association list without a key twice. A `range` over it takes the
entries in any order; here it takes them as they stand, or in an order that is
given with the call where the order matters.
-/

namespace OpenConfigd

/-- A Go map. -/
abbrev GoMap (κ β : Type) := AList fun _ : κ => β

namespace GoMap

variable {κ β : Type} [DecidableEq κ]

/-- `m[k]` of a map of maps or slices: the zero value when there is none. -/
def at? (m : GoMap κ β) (k : κ) (zero : β) : β := (m.lookup k).getD zero

/-- The entries that pass a check. -/
def filter (p : κ → β → Bool) (m : GoMap κ β) : GoMap κ β :=
  ⟨m.entries.filter fun x => p x.1 x.2, m.nodupKeys.sublist List.filter_sublist⟩

@[simp] theorem lookup_filter (p : κ → β → Bool) (m : GoMap κ β) (k : κ) :
    (m.filter p).lookup k = (m.lookup k).filter (p k) := by
  ext b
  have hmem : b ∈ (m.filter p).lookup k ↔ ⟨k, b⟩ ∈ m.entries ∧ p k b = true := by
    rw [AList.mem_lookup_iff]
    exact List.mem_filter
  rw [← Option.mem_def, hmem, ← AList.mem_lookup_iff, Option.mem_def, Option.filter_eq_some_iff]

theorem contains_keys (m : GoMap κ β) (k : κ) : m.keys.contains k = (m.lookup k).isSome := by
  rw [Bool.eq_iff_iff, List.contains_iff_mem, ← AList.mem_keys, AList.lookup_isSome]

theorem eq_empty {m : GoMap κ β} (h : ∀ k, m.lookup k = none) : m = ∅ := by
  refine AList.ext ?_
  refine List.eq_nil_iff_forall_not_mem.mpr fun ⟨k, b⟩ hx => ?_
  have hl : m.lookup k = some b := AList.mem_lookup_iff.mpr hx
  rw [h k] at hl
  cases hl

end GoMap

end OpenConfigd
