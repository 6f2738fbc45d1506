import Mathlib.Data.List.AList
import Mathlib.Data.List.Induction
import Mathlib.Data.Set.Basic
import Mathlib.Logic.Function.Basic

/-!
# Trees of nodes with parent pointers

Trees as a program keeps them: nodes that are made one after the other, each with the node
it is held by and a map of labels to the nodes below. `paths` reads the tree below a node as
the set of its label paths. The operations keep `Linked`, which says that the two kinds of
pointers agree, and `paths_set`, `paths_cut`, `copy_spec` and `differ_spec` say what they
do to the paths.
-/

/-- A node: the one that holds it, and those below it. -/
structure PointerNode (α : Type) where
  parent : Option Nat
  children : AList fun _ : α => Nat

/-- The nodes that have been made, which are those before `size`. -/
structure PointerHeap (α : Type) where
  node : Nat → PointerNode α
  size : Nat

namespace PointerHeap

variable {α : Type}

/-- No node. -/
def empty : PointerHeap α := ⟨fun _ => ⟨none, ∅⟩, 0⟩

/-- The node that holds a node. -/
def parent (h : PointerHeap α) (x : Nat) : Option Nat := (h.node x).parent

/-- A new node. -/
def make (h : PointerHeap α) (parent : Option Nat) : Nat × PointerHeap α :=
  (h.size, ⟨Function.update h.node h.size ⟨parent, ∅⟩, h.size + 1⟩)

variable [DecidableEq α]

/-- The node below another at a label. -/
def child (h : PointerHeap α) (x : Nat) (a : α) : Option Nat := (h.node x).children.lookup a

/-- A node is put below another. -/
def store (h : PointerHeap α) (x : Nat) (a : α) (y : Nat) : PointerHeap α :=
  { h with node := Function.update h.node x ⟨h.parent x, (h.node x).children.insert a y⟩ }

/-- A label is taken from a node. -/
def cut (h : PointerHeap α) (x : Nat) (a : α) : PointerHeap α :=
  { h with node := Function.update h.node x ⟨h.parent x, (h.node x).children.erase a⟩ }

/-- The node that a path leads to. -/
def walk (h : PointerHeap α) : Nat → List α → Option Nat
  | x, [] => some x
  | x, a :: p => (h.child x a).bind fun y => h.walk y p

/-- The paths below a node. -/
def paths (h : PointerHeap α) (x : Nat) : Set (List α) := {p | (h.walk x p).isSome}

/-- A new node below another. -/
def extend (h : PointerHeap α) (x : Nat) (a : α) : PointerHeap α :=
  (h.make (some x)).2.store x a (h.make (some x)).1

/-- The nodes of a path are made where they are missing. -/
def set (h : PointerHeap α) : Nat → List α → PointerHeap α
  | _, [] => h
  | x, a :: p =>
    match h.child x a with
    | some y => h.set y p
    | none => (h.extend x a).set h.size p

/-- The pointers agree: a node below another is held by it, at one label, and was made after it. -/
structure Linked (h : PointerHeap α) : Prop where
  held : ∀ {x a y}, h.child x a = some y → h.parent y = some x
  newer : ∀ {x a y}, h.child x a = some y → x < y ∧ y < h.size
  single : ∀ {x a b y}, h.child x a = some y → h.child x b = some y → a = b

variable {h h' : PointerHeap α} {x y r c : Nat} {a b : α} {p q : List α}

/-! ## One node -/

theorem child_store : (h.store x a y).child c b = if c = x ∧ b = a then some y else h.child c b := by
  unfold child store
  dsimp only
  by_cases hc : c = x
  · subst hc
    rw [Function.update_self]
    by_cases hb : b = a
    · subst hb
      rw [if_pos ⟨rfl, rfl⟩, AList.lookup_insert]
    · rw [if_neg fun hcb => hb hcb.2, AList.lookup_insert_ne hb]
  · rw [Function.update_of_ne hc, if_neg fun hcb => hc hcb.1]

theorem child_cut : (h.cut x a).child c b = if c = x ∧ b = a then none else h.child c b := by
  unfold child cut
  dsimp only
  by_cases hc : c = x
  · subst hc
    rw [Function.update_self]
    by_cases hb : b = a
    · subst hb
      rw [if_pos ⟨rfl, rfl⟩, AList.lookup_erase]
    · rw [if_neg fun hcb => hb hcb.2, AList.lookup_erase_ne hb]
  · rw [Function.update_of_ne hc, if_neg fun hcb => hc hcb.1]

theorem child_make (parent : Option Nat) :
    (h.make parent).2.child c b = if c = h.size then none else h.child c b := by
  unfold child make
  dsimp only
  by_cases hc : c = h.size
  · subst hc
    rw [Function.update_self, if_pos rfl, AList.lookup_empty]
  · rw [Function.update_of_ne hc, if_neg hc]

@[simp] theorem parent_store : (h.store x a y).parent c = h.parent c := by
  unfold parent store
  dsimp only
  by_cases hc : c = x
  · subst hc
    rw [Function.update_self]
    rfl
  · rw [Function.update_of_ne hc]

@[simp] theorem parent_cut : (h.cut x a).parent c = h.parent c := by
  unfold parent cut
  dsimp only
  by_cases hc : c = x
  · subst hc
    rw [Function.update_self]
    rfl
  · rw [Function.update_of_ne hc]

omit [DecidableEq α] in
theorem parent_make (parent : Option Nat) :
    (h.make parent).2.parent c = if c = h.size then parent else h.parent c := by
  unfold PointerHeap.parent make
  dsimp only
  by_cases hc : c = h.size
  · subst hc
    rw [Function.update_self, if_pos rfl]
  · rw [Function.update_of_ne hc, if_neg hc]

@[simp] theorem size_store : (h.store x a y).size = h.size := rfl

@[simp] theorem size_cut : (h.cut x a).size = h.size := rfl

@[simp] theorem size_extend : (h.extend x a).size = h.size + 1 := rfl

theorem child_extend : (h.extend x a).child c b =
    if c = x ∧ b = a then some h.size else if c = h.size then none else h.child c b := by
  rw [extend, child_store, child_make]
  rfl

theorem parent_extend : (h.extend x a).parent c = if c = h.size then some x else h.parent c := by
  rw [extend, parent_store, parent_make]

/-! ## The pointers agree -/

namespace Linked

theorem empty : (PointerHeap.empty : PointerHeap α).Linked := by
  have hnone (x : Nat) (a : α) : PointerHeap.empty.child x a = none := AList.lookup_empty a
  constructor
  · intro x a y hxy
    rw [hnone] at hxy
    cases hxy
  · intro x a y hxy
    rw [hnone] at hxy
    cases hxy
  · intro x a b y hxy
    rw [hnone] at hxy
    cases hxy

theorem make (hl : h.Linked) (parent : Option Nat) : (h.make parent).2.Linked := by
  have hold {x a y} (hxy : (h.make parent).2.child x a = some y) : h.child x a = some y := by
    rw [child_make] at hxy
    split at hxy
    · cases hxy
    · exact hxy
  constructor
  · intro x a y hxy
    have hy := (hl.newer (hold hxy)).2
    rw [parent_make, if_neg (by omega)]
    exact hl.held (hold hxy)
  · intro x a y hxy
    have hy := hl.newer (hold hxy)
    exact ⟨hy.1, Nat.lt_succ_of_lt hy.2⟩
  · intro x a b y ha hb
    exact hl.single (hold ha) (hold hb)

/-- A node that is held by another, at no label yet, may be put below it. -/
theorem store (hl : h.Linked) (hxy : x < y) (hy : y < h.size) (hparent : h.parent y = some x)
    (hnew : ∀ b, h.child x b ≠ some y) : (h.store x a y).Linked := by
  constructor
  · intro c b z hz
    rw [parent_store]
    rw [child_store] at hz
    split at hz
    · next hcb =>
      cases hz
      rw [hparent, hcb.1]
    · exact hl.held hz
  · intro c b z hz
    rw [child_store] at hz
    split at hz
    · next hcb =>
      cases hz
      exact ⟨hcb.1 ▸ hxy, hy⟩
    · exact hl.newer hz
  · intro c b b' z hz hz'
    rw [child_store] at hz hz'
    split at hz
    · next hcb =>
      cases hz
      split at hz'
      · next hcb' => exact hcb.2.trans hcb'.2.symm
      · exact absurd (hcb.1 ▸ hz') (hnew b')
    · split at hz'
      · next hcb' =>
        cases hz'
        exact absurd (hcb'.1 ▸ hz) (hnew b)
      · exact hl.single hz hz'

theorem cut (hl : h.Linked) (x : Nat) (a : α) : (h.cut x a).Linked := by
  have hold {c b y} (hcy : (h.cut x a).child c b = some y) : h.child c b = some y := by
    rw [child_cut] at hcy
    split at hcy
    · cases hcy
    · exact hcy
  constructor
  · intro c b y hcy
    rw [parent_cut]
    exact hl.held (hold hcy)
  · intro c b y hcy
    exact hl.newer (hold hcy)
  · intro c b b' y hb hb'
    exact hl.single (hold hb) (hold hb')

theorem extend (hl : h.Linked) (hx : x < h.size) (a : α) : (h.extend x a).Linked := by
  refine (hl.make (some x)).store hx (Nat.lt_succ_self _) ?_ fun b hb => ?_
  · rw [parent_make]
    exact if_pos rfl
  · rw [child_make, if_neg hx.ne] at hb
    exact absurd (hl.newer hb).2 (Nat.lt_irrefl _)

theorem set (hl : h.Linked) (hx : x < h.size) (p : List α) : (h.set x p).Linked := by
  induction p generalizing h x with
  | nil => exact hl
  | cons a p ih =>
    rw [PointerHeap.set]
    split
    · next y hy => exact ih hl (hl.newer hy).2
    · exact ih (hl.extend hx a) (Nat.lt_succ_self _)

end Linked

theorem size_set (h : PointerHeap α) (x : Nat) (p : List α) : h.size ≤ (h.set x p).size := by
  induction p generalizing h x with
  | nil => exact Nat.le_refl _
  | cons a p ih =>
    rw [set]
    split
    · exact ih h _
    · exact (Nat.le_succ _).trans (ih (h.extend x a) _)

theorem parent_set (hr : r < h.size) (x : Nat) (p : List α) : (h.set x p).parent r = h.parent r := by
  induction p generalizing h x with
  | nil => rfl
  | cons a p ih =>
    rw [set]
    split
    · exact ih hr _
    · rw [ih (h := h.extend x a) (Nat.lt_succ_of_lt hr), parent_extend, if_neg hr.ne]

/-! ## Paths -/

theorem nil_mem_paths (h : PointerHeap α) (x : Nat) : [] ∈ h.paths x := rfl

theorem cons_mem_paths : a :: p ∈ h.paths x ↔ ∃ y, h.child x a = some y ∧ p ∈ h.paths y := by
  rw [paths, Set.mem_ofPred_eq, walk]
  cases h.child x a with
  | none => simp
  | some y => simp [paths]

theorem walk_append (h : PointerHeap α) (x : Nat) (p q : List α) :
    h.walk x (p ++ q) = (h.walk x p).bind fun y => h.walk y q := by
  induction p generalizing x with
  | nil => rfl
  | cons a p ih =>
    rw [List.cons_append, walk, walk, Option.bind_assoc]
    exact Option.bind_congr fun y _ => ih y

theorem walk_concat (h : PointerHeap α) (x : Nat) (p : List α) (a : α) :
    h.walk x (p ++ [a]) = (h.walk x p).bind fun y => h.child y a := by
  rw [walk_append]
  refine Option.bind_congr fun y _ => ?_
  rw [walk]
  cases h.child y a <;> rfl

/-- The paths are those of a tree. -/
theorem paths_closed (hpq : p ++ q ∈ h.paths x) : p ∈ h.paths x := by
  rw [paths, Set.mem_ofPred_eq, walk_append] at hpq
  exact Option.isSome_of_isSome_bind hpq

/-- Where the children are the same, so are the paths. -/
theorem paths_congr {S : Nat → Prop} (hclosed : ∀ x, S x → ∀ a y, h.child x a = some y → S y)
    (hsame : ∀ x, S x → ∀ a, h'.child x a = h.child x a) (hx : S x) : h'.paths x = h.paths x := by
  ext p
  induction p generalizing x with
  | nil => exact Iff.rfl
  | cons a p ih =>
    rw [cons_mem_paths, cons_mem_paths, hsame x hx]
    exact exists_congr fun y => and_congr_right fun hy => ih (hclosed x hx a y hy)

namespace Linked

/-- A node below a root has one path, and is below no other root. -/
theorem walk_inj (hl : h.Linked) (hr : h.parent r = none) (hc : h.parent c = none) (hp : h.walk r p = some x)
    (hq : h.walk c q = some x) : r = c ∧ p = q := by
  induction p using List.reverseRecOn generalizing x q with
  | nil =>
    cases q using List.reverseRecOn with
    | nil => exact ⟨Option.some_inj.mp (hp.trans hq.symm), rfl⟩
    | append_singleton q b =>
      obtain rfl : r = x := Option.some_inj.mp hp
      rw [walk_concat, Option.bind_eq_some_iff] at hq
      obtain ⟨y, -, hy⟩ := hq
      rw [hl.held hy] at hr
      cases hr
  | append_singleton p a ih =>
    rw [walk_concat, Option.bind_eq_some_iff] at hp
    obtain ⟨y, hpy, hy⟩ := hp
    cases q using List.reverseRecOn with
    | nil =>
      obtain rfl : c = x := Option.some_inj.mp hq
      rw [hl.held hy] at hc
      cases hc
    | append_singleton q b =>
      rw [walk_concat, Option.bind_eq_some_iff] at hq
      obtain ⟨z, hqz, hz⟩ := hq
      obtain rfl : y = z := Option.some_inj.mp ((hl.held hy).symm.trans (hl.held hz))
      obtain ⟨hrc, hpq⟩ := ih hpy hqz
      exact ⟨hrc, by rw [hpq, hl.single hy hz]⟩

theorem walk_lt (hl : h.Linked) (hr : r < h.size) (hp : h.walk r p = some x) : x < h.size := by
  cases p using List.reverseRecOn with
  | nil => exact Option.some_inj.mp hp ▸ hr
  | append_singleton p a =>
    rw [walk_concat, Option.bind_eq_some_iff] at hp
    obtain ⟨y, -, hy⟩ := hp
    exact (hl.newer hy).2

end Linked

/-! ## Set -/

/-- A new node does not change the paths to the others. -/
theorem walk_extend_old (hl : h.Linked) (hr : r < h.size) (hx : x < h.size) (hfree : h.child x a = none)
    (hy : y < h.size) : (h.extend x a).walk r q = some y ↔ h.walk r q = some y := by
  induction q generalizing r with
  | nil => exact Iff.rfl
  | cons b q ih =>
    rw [walk, walk, child_extend]
    by_cases hnew : r = x ∧ b = a
    · rw [if_pos hnew, hnew.1, hnew.2, hfree, Option.bind_some, Option.bind_none]
      cases q with
      | nil =>
        refine ⟨fun h => ?_, fun h => nomatch h⟩
        exact absurd (Option.some_inj.mp h) hy.ne'
      | cons d q =>
        rw [walk, child_extend, if_neg fun hxd => hx.ne' hxd.1, if_pos rfl]
        exact Iff.rfl
    · rw [if_neg hnew, if_neg hr.ne]
      cases hz : h.child r b with
      | none => exact Iff.rfl
      | some z => exact ih (hl.newer hz).2

/-- The path to a new node. -/
theorem walk_extend_new (hl : h.Linked) (hr : r < h.size) (hx : x < h.size) (hfree : h.child x a = none) :
    (h.extend x a).walk r q = some h.size ↔ ∃ p, h.walk r p = some x ∧ q = p ++ [a] := by
  constructor
  · intro hq
    cases q using List.reverseRecOn with
    | nil => exact absurd (Option.some_inj.mp hq) hr.ne
    | append_singleton p b =>
      rw [walk_concat, Option.bind_eq_some_iff] at hq
      obtain ⟨z, hp, hz⟩ := hq
      rw [child_extend] at hz
      split at hz
      · next hnew => exact ⟨p, (walk_extend_old hl hr hx hfree hx).mp (hnew.1 ▸ hp), by rw [hnew.2]⟩
      · split at hz
        · cases hz
        · exact absurd (hl.newer hz).2 (Nat.lt_irrefl _)
  · rintro ⟨p, hp, rfl⟩
    rw [walk_concat, (walk_extend_old hl hr hx hfree hx).mpr hp, Option.bind_some, child_extend,
      if_pos ⟨rfl, rfl⟩]

/-- A new node at a label that is free adds its path. -/
theorem paths_extend (hl : h.Linked) (hr : r < h.size) (hx : x < h.size) (hfree : h.child x a = none) :
    q ∈ (h.extend x a).paths r ↔ q ∈ h.paths r ∨ ∃ p, h.walk r p = some x ∧ q = p ++ [a] := by
  rw [← walk_extend_new hl hr hx hfree]
  simp only [paths, Set.mem_ofPred_eq, Option.isSome_iff_exists]
  constructor
  · rintro ⟨y, hy⟩
    have hlt : y < h.size + 1 := (hl.extend hx a).walk_lt (Nat.lt_succ_of_lt hr) hy
    rcases Nat.lt_succ_iff_lt_or_eq.mp hlt with hlt | rfl
    · exact .inl ⟨y, (walk_extend_old hl hr hx hfree hlt).mp hy⟩
    · exact .inr hy
  · rintro (⟨y, hy⟩ | hy)
    · exact ⟨y, (walk_extend_old hl hr hx hfree (hl.walk_lt hr hy)).mpr hy⟩
    · exact ⟨_, hy⟩

/-- The path to a node below another. -/
theorem walk_child (hl : h.Linked) (hroot : h.parent r = none) (hy : h.child x a = some y) :
    h.walk r q = some y ↔ ∃ p, h.walk r p = some x ∧ q = p ++ [a] := by
  constructor
  · intro hq
    cases q using List.reverseRecOn with
    | nil =>
      obtain rfl : r = y := Option.some_inj.mp hq
      rw [hl.held hy] at hroot
      cases hroot
    | append_singleton p b =>
      rw [walk_concat, Option.bind_eq_some_iff] at hq
      obtain ⟨z, hp, hz⟩ := hq
      obtain rfl : x = z := Option.some_inj.mp ((hl.held hy).symm.trans (hl.held hz))
      exact ⟨p, hp, by rw [hl.single hy hz]⟩
  · rintro ⟨p, hp, rfl⟩
    rw [walk_concat, hp, Option.bind_some, hy]

/-- The prefixes of a path below a node: the node itself, and those that go on at its label. -/
theorem prefixes_cons : (∃ s t, h.walk r s = some x ∧ t <+: a :: p ∧ q = s ++ t) ↔
    h.walk r q = some x ∨ ∃ s t, h.walk r s = some x ∧ t <+: p ∧ q = s ++ [a] ++ t := by
  constructor
  · rintro ⟨s, t, hs, ht, rfl⟩
    rcases List.prefix_cons_iff.mp ht with rfl | ⟨t, rfl, ht'⟩
    · exact .inl (by rwa [List.append_nil])
    · exact .inr ⟨s, t, hs, ht', by rw [List.append_assoc, List.singleton_append]⟩
  · rintro (hq | ⟨s, t, hs, ht, rfl⟩)
    · exact ⟨q, [], hq, List.nil_prefix, (List.append_nil q).symm⟩
    · exact ⟨s, a :: t, hs, List.prefix_cons_iff.mpr (.inr ⟨t, rfl, ht⟩), by
        rw [List.append_assoc, List.singleton_append]⟩

/-- The nodes that are made below a root add the prefixes of the path. -/
theorem paths_set_from (hl : h.Linked) (hr : r < h.size) (hroot : h.parent r = none) (hx : x < h.size)
    (p : List α) :
    q ∈ (h.set x p).paths r ↔ q ∈ h.paths r ∨ ∃ s t, h.walk r s = some x ∧ t <+: p ∧ q = s ++ t := by
  have hpaths {h : PointerHeap α} {x : Nat} {s : List α} (hs : h.walk r s = some x) : s ∈ h.paths r := by
    rw [paths, Set.mem_ofPred_eq, hs]
    rfl
  induction p generalizing h x with
  | nil =>
    refine ⟨.inl, ?_⟩
    rintro (hq | ⟨s, t, hs, ht, rfl⟩)
    · exact hq
    · rw [List.prefix_nil.mp ht, List.append_nil]
      exact hpaths hs
  | cons a p ih =>
    rw [prefixes_cons, set]
    cases hy : h.child x a with
    | some y =>
      dsimp only
      have hset : q ∈ (h.set y p).paths r ↔ _ := ih hl hr hroot (hl.newer hy).2
      rw [hset]
      constructor
      · rintro (hq | ⟨s, t, hs, ht, rfl⟩)
        · exact .inl hq
        · obtain ⟨s, hs', rfl⟩ := (walk_child hl hroot hy).mp hs
          exact .inr (.inr ⟨s, t, hs', ht, rfl⟩)
      · rintro (hq | hq | ⟨s, t, hs, ht, rfl⟩)
        · exact .inl hq
        · exact .inl (hpaths hq)
        · exact .inr ⟨s ++ [a], t, (walk_child hl hroot hy).mpr ⟨s, hs, rfl⟩, ht, rfl⟩
    | none =>
      dsimp only
      have hroot' : (h.extend x a).parent r = none := by rw [parent_extend, if_neg hr.ne, hroot]
      have hset : q ∈ ((h.extend x a).set h.size p).paths r ↔ _ := ih (hl.extend hx a) (Nat.lt_succ_of_lt hr) hroot' (Nat.lt_succ_self _)
      rw [hset, paths_extend hl hr hx hy]
      constructor
      · rintro ((hq | ⟨s, hs, rfl⟩) | ⟨s, t, hs, ht, rfl⟩)
        · exact .inl hq
        · exact .inr (.inr ⟨s, [], hs, List.nil_prefix, (List.append_nil _).symm⟩)
        · obtain ⟨s, hs', rfl⟩ := (walk_extend_new hl hr hx hy).mp hs
          exact .inr (.inr ⟨s, t, hs', ht, rfl⟩)
      · rintro (hq | hq | ⟨s, t, hs, ht, rfl⟩)
        · exact .inl (.inl hq)
        · exact .inl (.inl (hpaths hq))
        · exact .inr ⟨s ++ [a], t, (walk_extend_new hl hr hx hy).mpr ⟨s, hs, rfl⟩, ht, rfl⟩

/-- Set adds the prefixes of the path to the tree of a root. -/
theorem paths_set (hl : h.Linked) (hr : r < h.size) (hroot : h.parent r = none) (p : List α) :
    q ∈ (h.set r p).paths r ↔ q ∈ h.paths r ∨ q <+: p := by
  rw [paths_set_from hl hr hroot hr p]
  refine or_congr_right ⟨?_, fun hq => ⟨[], q, rfl, hq, rfl⟩⟩
  rintro ⟨s, t, hs, ht, rfl⟩
  obtain ⟨-, rfl⟩ := hl.walk_inj (q := []) hroot hroot hs rfl
  exact ht

/-- The tree of another root stays as it is. -/
theorem paths_set_other (hl : h.Linked) (hr : r < h.size) (hroot : h.parent r = none) (hc : c < h.size)
    (hroot' : h.parent c = none) (hne : r ≠ c) (p : List α) : (h.set c p).paths r = h.paths r := by
  ext q
  rw [paths_set_from hl hr hroot hc p]
  refine or_iff_left ?_
  rintro ⟨s, t, hs, -⟩
  exact hne (hl.walk_inj (q := []) hroot hroot' hs rfl).1

/-! ## Cut -/

/-- What is below the label is cut off. -/
theorem paths_cut : q ∈ (h.cut x a).paths r ↔
    q ∈ h.paths r ∧ ¬ ∃ s t, h.walk r s = some x ∧ q = s ++ a :: t := by
  induction q generalizing r with
  | nil =>
    refine ⟨fun _ => ⟨rfl, ?_⟩, fun _ => rfl⟩
    rintro ⟨s, t, -, hst⟩
    exact List.append_ne_nil_of_right_ne_nil s (List.cons_ne_nil a t) hst.symm
  | cons b q ih =>
    rw [cons_mem_paths, cons_mem_paths, child_cut]
    by_cases hcut : r = x ∧ b = a
    · obtain ⟨rfl, rfl⟩ := hcut
      rw [if_pos ⟨rfl, rfl⟩]
      refine ⟨?_, fun hq => absurd ⟨[], q, rfl, rfl⟩ hq.2⟩
      rintro ⟨y, hy, -⟩
      cases hy
    · rw [if_neg hcut]
      have hstep {y : Nat} (hy : h.child r b = some y) : (∃ s t, h.walk r s = some x ∧ b :: q = s ++ a :: t) ↔
          ∃ s t, h.walk y s = some x ∧ q = s ++ a :: t := by
        constructor
        · rintro ⟨s, t, hs, hst⟩
          cases s with
          | nil =>
            obtain ⟨rfl, -⟩ := List.cons_eq_cons.mp hst
            exact absurd ⟨Option.some_inj.mp hs, rfl⟩ hcut
          | cons d s =>
            obtain ⟨rfl, hst'⟩ := List.cons_eq_cons.mp hst
            rw [walk, hy, Option.bind_some] at hs
            exact ⟨s, t, hs, hst'⟩
        · rintro ⟨s, t, hs, rfl⟩
          refine ⟨b :: s, t, ?_, rfl⟩
          rw [walk, hy, Option.bind_some, hs]
      constructor
      · rintro ⟨y, hy, hq⟩
        obtain ⟨hq, hno⟩ := ih.mp hq
        exact ⟨⟨y, hy, hq⟩, fun hex => hno ((hstep hy).mp hex)⟩
      · rintro ⟨⟨y, hy, hq⟩, hno⟩
        exact ⟨y, hy, ih.mpr ⟨hq, fun hex => hno ((hstep hy).mpr hex)⟩⟩

/-! ## Copy -/

/-- The labels and nodes below a node. -/
def entries (h : PointerHeap α) (x : Nat) : List (α × Nat) := (h.node x).children.entries.map fun e => (e.1, e.2)

/-- The orders in which a program ranges over the children of each node. -/
structure Range (α : Type) where
  order : Nat → List (α × Nat) → List (α × Nat)
  perm : ∀ x l, (order x l).Perm l

variable (range : Range α)

/-- New nodes are made below `dst` as there are below `src`; `none` when the fuel is too little. -/
def copy : Nat → PointerHeap α → (src dst : Nat) → Option (PointerHeap α)
  | 0, _, _, _ => none
  | fuel + 1, h, src, dst =>
    (range.order src (h.entries src)).foldlM
      (fun h e => copy fuel (h.extend dst e.1) e.2 h.size) h

/-- The trees below two nodes differ, or one of the two is not there. -/
def differ (h : PointerHeap α) : Nat → Option Nat → Option Nat → Option Bool
  | 0, _, _ => none
  | _ + 1, none, none => some false
  | _ + 1, some _, none => some true
  | _ + 1, none, some _ => some true
  | fuel + 1, some l, some r =>
    if (h.entries l).length ≠ (h.entries r).length then some true
    else (range.order l (h.entries l)).anyM fun e =>
      match h.child r e.1 with
      | none => some true
      | some rc => differ h fuel (some e.2) (some rc)

omit [DecidableEq α] in
theorem keys_entries (h : PointerHeap α) (x : Nat) : (h.entries x).map Prod.fst = (h.node x).children.keys := by
  rw [entries, List.map_map]
  rfl

omit [DecidableEq α] in
theorem nodup_entries (h : PointerHeap α) (x : Nat) : ((h.entries x).map Prod.fst).Nodup := by
  rw [keys_entries]
  exact (h.node x).children.keys_nodup

theorem mem_entries : (a, y) ∈ h.entries x ↔ h.child x a = some y := by
  rw [child, ← Option.mem_def, AList.mem_lookup_iff, entries, List.mem_map]
  constructor
  · rintro ⟨e, he, hay⟩
    obtain ⟨rfl, rfl⟩ := Prod.mk.inj hay
    exact he
  · intro he
    exact ⟨⟨a, y⟩, he, rfl⟩

/-- The heap has grown below a node: the others are as they were. -/
structure Grown (h h' : PointerHeap α) (dst : Nat) : Prop where
  linked : h'.Linked
  size : h.size ≤ h'.size
  child : ∀ x < h.size, x ≠ dst → ∀ a, h'.child x a = h.child x a
  parent : ∀ x < h.size, h'.parent x = h.parent x

namespace Grown

variable {h₁ h₂ : PointerHeap α} {dst : Nat}

protected theorem refl (hl : h.Linked) (dst : Nat) : Grown h h dst :=
  ⟨hl, Nat.le_refl _, fun _ _ _ _ => rfl, fun _ _ => rfl⟩

theorem extend (hl : h.Linked) (hdst : dst < h.size) (a : α) : Grown h (h.extend dst a) dst where
  linked := hl.extend hdst a
  size := Nat.le_succ _
  child x hx hne b := by rw [child_extend, if_neg fun hxb => hne hxb.1, if_neg hx.ne]
  parent x hx := by rw [parent_extend, if_neg hx.ne]

/-- What has grown below a new node has grown below the node that it was put under. -/
theorem trans_new (hg : Grown h h₁ dst) (hg' : Grown h₁ h₂ h.size) : Grown h h₂ dst where
  linked := hg'.linked
  size := hg.size.trans hg'.size
  child x hx hne a := by rw [hg'.child x (hx.trans_le hg.size) hx.ne, hg.child x hx hne]
  parent x hx := by rw [hg'.parent x (hx.trans_le hg.size), hg.parent x hx]

theorem trans (hg : Grown h h₁ dst) (hg' : Grown h₁ h₂ dst) : Grown h h₂ dst where
  linked := hg'.linked
  size := hg.size.trans hg'.size
  child x hx hne a := by rw [hg'.child x (hx.trans_le hg.size) hne, hg.child x hx hne]
  parent x hx := by rw [hg'.parent x (hx.trans_le hg.size), hg.parent x hx]

end Grown

/-- The nodes before `n` lead to such nodes only. -/
def Closed (h : PointerHeap α) (n : Nat) : Prop := ∀ x < n, ∀ a y, h.child x a = some y → y < n

/-- The paths after one child has been copied. -/
theorem paths_copied {h₂ : PointerHeap α} {dst : Nat} (hl : h.Linked) (hdst : dst < h.size)
    (hfree : h.child dst a = none) (hg : Grown (h.extend dst a) h₂ h.size) :
    q ∈ h₂.paths dst ↔ q ∈ h.paths dst ∨ ∃ s, q = a :: s ∧ s ∈ h₂.paths h.size := by
  have hchild (x : Nat) (hx : x < h.size) (b : α) : h₂.child x b = (h.extend dst a).child x b :=
    hg.child x (Nat.lt_succ_of_lt hx) hx.ne b
  cases q with
  | nil => exact ⟨fun _ => .inl rfl, fun _ => rfl⟩
  | cons b q =>
    rw [cons_mem_paths, cons_mem_paths, hchild dst hdst, child_extend]
    by_cases hb : b = a
    · subst hb
      rw [if_pos ⟨rfl, rfl⟩, hfree]
      constructor
      · rintro ⟨y, hy, hq⟩
        cases hy
        exact .inr ⟨q, rfl, hq⟩
      · rintro (⟨y, hy, -⟩ | ⟨s, hs, hq⟩)
        · cases hy
        · cases hs
          exact ⟨_, rfl, hq⟩
    · rw [if_neg fun hdb => hb hdb.2, if_neg hdst.ne]
      -- The trees below the labels there were have not changed.
      have hold {y : Nat} (hy : h.child dst b = some y) : h₂.paths y = h.paths y := by
        refine paths_congr (S := fun x => dst < x ∧ x < h.size) ?_ ?_ (hl.newer hy)
        · intro x hx c z hz
          exact ⟨hx.1.trans (hl.newer hz).1, (hl.newer hz).2⟩
        · intro x hx c
          rw [hchild x hx.2, child_extend, if_neg fun hxc => hx.1.ne' hxc.1, if_neg hx.2.ne]
      constructor
      · rintro ⟨y, hy, hq⟩
        exact .inl ⟨y, hy, hold hy ▸ hq⟩
      · rintro (⟨y, hy, hq⟩ | ⟨s, hs, -⟩)
        · exact ⟨y, hy, (hold hy).symm ▸ hq⟩
        · exact absurd (List.cons_eq_cons.mp hs).1 hb

/-- The loop of a copy, where the copies of the nodes below are right. -/
theorem copy_loop {fuel n src dst : Nat}
    (hcopy : ∀ {h : PointerHeap α} {x c : Nat}, h.Linked → h.Closed n → x < n → n ≤ c → c < h.size →
      (∀ a, h.child c a = none) → n ≤ x + fuel →
      ∃ h', copy range fuel h x c = some h' ∧ Grown h h' c ∧ h'.paths c = h.paths x)
    (hclosed : h.Closed n) (hfuel : n ≤ src + (fuel + 1)) (l : List (α × Nat)) {h₁ : PointerHeap α}
    (hl : h₁.Linked) (hsame : ∀ x < n, ∀ a, h₁.child x a = h.child x a) (hdst : n ≤ dst) (hsize : dst < h₁.size)
    (hmem : ∀ e ∈ l, src < e.2 ∧ e.2 < n) (hnodup : (l.map Prod.fst).Nodup)
    (hfree : ∀ e ∈ l, h₁.child dst e.1 = none) :
    ∃ h', l.foldlM (fun h e => copy range fuel (h.extend dst e.1) e.2 h.size) h₁ = some h' ∧ Grown h₁ h' dst ∧
      ∀ q, q ∈ h'.paths dst ↔ q ∈ h₁.paths dst ∨ ∃ e ∈ l, ∃ s, q = e.1 :: s ∧ s ∈ h.paths e.2 := by
  have hcongr {g : PointerHeap α} (hg : ∀ x < n, ∀ a, g.child x a = h.child x a) {x : Nat} (hx : x < n) :
      g.paths x = h.paths x := paths_congr (S := (· < n)) hclosed hg hx
  induction l generalizing h₁ with
  | nil => exact ⟨h₁, rfl, .refl hl dst, fun q => ⟨.inl, fun hq => hq.resolve_right fun ⟨e, he, _⟩ => nomatch he⟩⟩
  | cons e l ih =>
    obtain ⟨he, hl'⟩ := List.forall_mem_cons.mp hmem
    obtain ⟨hnotin, hnodup'⟩ := List.nodup_cons.mp hnodup
    obtain ⟨hfree₁, hfree'⟩ := List.forall_mem_cons.mp hfree
    have hgrow := Grown.extend hl hsize e.1
    have hsame₁ : ∀ x < n, ∀ a, (h₁.extend dst e.1).child x a = h.child x a := fun x hx a => by
      rw [hgrow.child x (by omega) (by omega), hsame x hx]
    have hclosed₁ : (h₁.extend dst e.1).Closed n := fun x hx a y hy => hclosed x hx a y (hsame₁ x hx a ▸ hy)
    have hnone (a : α) : (h₁.extend dst e.1).child h₁.size a = none := by
      rw [child_extend, if_neg fun hxa => hsize.ne' hxa.1, if_pos rfl]
    obtain ⟨h₂, hrun, hg, hpaths⟩ := hcopy hgrow.linked hclosed₁ he.2 (hdst.trans hsize.le) (Nat.lt_succ_self _)
      hnone (by omega)
    have hg₂ : Grown h₁ h₂ dst := hgrow.trans_new hg
    have hsame₂ : ∀ x < n, ∀ a, h₂.child x a = h.child x a := fun x hx a => by
      rw [hg₂.child x (by omega) (by omega), hsame x hx]
    have hfree₂ : ∀ e' ∈ l, h₂.child dst e'.1 = none := by
      intro e' he'
      have hne : e'.1 ≠ e.1 := fun heq => hnotin (heq ▸ List.mem_map_of_mem he')
      rw [hg.child dst (Nat.lt_succ_of_lt hsize) hsize.ne, child_extend, if_neg fun hd => hne hd.2, if_neg hsize.ne]
      exact hfree' e' he'
    obtain ⟨h', hrun', hg', hpaths'⟩ := ih hg₂.linked hsame₂ (hsize.trans_le hg₂.size) hl' hnodup' hfree₂
    refine ⟨h', ?_, hg₂.trans hg', fun q => ?_⟩
    · rw [List.foldlM_cons, hrun]
      exact hrun'
    · rw [hpaths', paths_copied hl hsize hfree₁ hg, hpaths, hcongr hsame₁ he.2, List.exists_mem_cons_iff,
        or_assoc]

/-- With fuel for the nodes below, a copy makes a tree of new nodes with the same paths. -/
theorem copy_spec {fuel n src dst : Nat} (hl : h.Linked) (hclosed : h.Closed n) (hsrc : src < n) (hdst : n ≤ dst)
    (hsize : dst < h.size) (hfree : ∀ a, h.child dst a = none) (hfuel : n ≤ src + fuel) :
    ∃ h', copy range fuel h src dst = some h' ∧ Grown h h' dst ∧ h'.paths dst = h.paths src := by
  induction fuel generalizing h src dst with
  | zero => omega
  | succ fuel ih =>
    have hperm := range.perm src (h.entries src)
    have hmem : ∀ e ∈ range.order src (h.entries src), src < e.2 ∧ e.2 < n := fun e he =>
      have hchild := mem_entries.mp (hperm.mem_iff.mp he)
      ⟨(hl.newer hchild).1, hclosed src hsrc _ _ hchild⟩
    have hnodup : ((range.order src (h.entries src)).map Prod.fst).Nodup :=
      (hperm.map Prod.fst).nodup_iff.mpr (h.nodup_entries src)
    obtain ⟨h', hrun, hg, hpaths⟩ := copy_loop range ih hclosed hfuel _ hl (fun _ _ _ => rfl) hdst hsize hmem
      hnodup (fun e _ => hfree e.1)
    refine ⟨h', hrun, hg, ?_⟩
    ext q
    rw [hpaths]
    cases q with
    | nil => exact ⟨fun _ => rfl, fun _ => .inl rfl⟩
    | cons a q =>
      rw [cons_mem_paths, cons_mem_paths, hfree]
      constructor
      · rintro (⟨y, hy, -⟩ | ⟨e, he, s, hs, hq⟩)
        · cases hy
        · obtain ⟨rfl, rfl⟩ := List.cons_eq_cons.mp hs
          exact ⟨e.2, mem_entries.mp (hperm.mem_iff.mp he), hq⟩
      · rintro ⟨y, hy, hq⟩
        exact .inr ⟨(a, y), hperm.mem_iff.mpr (mem_entries.mpr hy), q, rfl, hq⟩

/-! ## Differ -/

omit [DecidableEq α] in
/-- A loop that looks for an entry, and does find out of each. -/
theorem anyM_spec {P : α × Nat → Prop} {f : α × Nat → Option Bool} {l : List (α × Nat)}
    (hf : ∀ e ∈ l, ∃ b, f e = some b ∧ (b = false ↔ P e)) :
    ∃ b, l.anyM f = some b ∧ (b = false ↔ ∀ e ∈ l, P e) := by
  induction l with
  | nil => exact ⟨false, rfl, iff_of_true rfl fun _ he => nomatch he⟩
  | cons e l ih =>
    obtain ⟨⟨b, hb, hiff⟩, hl⟩ := List.forall_mem_cons.mp hf
    rw [List.forall_mem_cons, ← hiff]
    cases b with
    | true =>
      refine ⟨true, ?_, iff_of_false Bool.noConfusion fun h => Bool.noConfusion h.1⟩
      rw [List.anyM, hb]
      rfl
    | false =>
      obtain ⟨b, hb', hiff'⟩ := ih hl
      refine ⟨b, ?_, ?_⟩
      · rw [List.anyM, hb]
        exact hb'
      · rw [hiff']
        exact (and_iff_right rfl).symm

theorem mem_keys : a ∈ (h.entries x).map Prod.fst ↔ ∃ y, h.child x a = some y := by
  constructor
  · intro ha
    obtain ⟨e, he, rfl⟩ := List.mem_map.mp ha
    exact ⟨e.2, mem_entries.mp he⟩
  · rintro ⟨y, hy⟩
    exact List.mem_map_of_mem (mem_entries.mpr hy)

/-- Two nodes have the same paths if they have as many labels, and each label of the one leads
to the same paths below the other. -/
theorem paths_eq_iff {l r : Nat} : h.paths l = h.paths r ↔ (h.entries l).length = (h.entries r).length ∧
    ∀ e ∈ h.entries l, ∃ y, h.child r e.1 = some y ∧ h.paths e.2 = h.paths y := by
  have hlength (x : Nat) : (h.entries x).length = ((h.entries x).map Prod.fst).length := (List.length_map _).symm
  constructor
  · intro heq
    have hchild {a : α} : (∃ y, h.child l a = some y) ↔ ∃ y, h.child r a = some y := by
      have ha : [a] ∈ h.paths l ↔ [a] ∈ h.paths r := by rw [heq]
      rw [cons_mem_paths, cons_mem_paths] at ha
      simpa only [nil_mem_paths, and_true] using ha
    refine ⟨?_, fun e he => ?_⟩
    · have hperm : ((h.entries l).map Prod.fst).Perm ((h.entries r).map Prod.fst) := by
        rw [List.perm_ext_iff_of_nodup (h.nodup_entries l) (h.nodup_entries r)]
        intro a
        rw [mem_keys, mem_keys, hchild]
      rw [hlength, hlength, hperm.length_eq]
    · have he := mem_entries.mp he
      obtain ⟨y, hy⟩ := hchild.mp ⟨_, he⟩
      refine ⟨y, hy, Set.ext fun q => ?_⟩
      have hq : e.1 :: q ∈ h.paths l ↔ e.1 :: q ∈ h.paths r := by rw [heq]
      rw [cons_mem_paths, cons_mem_paths, he, hy] at hq
      simpa only [Option.some.injEq, exists_eq_left'] using hq
  · rintro ⟨hlen, hsame⟩
    have hsub : (h.entries l).map Prod.fst ⊆ (h.entries r).map Prod.fst := by
      intro a ha
      obtain ⟨e, he, rfl⟩ := List.mem_map.mp ha
      obtain ⟨y, hy, -⟩ := hsame e he
      exact mem_keys.mpr ⟨y, hy⟩
    -- As many labels, so the labels of the other are all there.
    have hperm : ((h.entries l).map Prod.fst).Perm ((h.entries r).map Prod.fst) :=
      (List.subperm_of_subset (h.nodup_entries l) hsub).perm_of_length_le (by rw [← hlength, ← hlength, hlen])
    ext q
    cases q with
    | nil => exact ⟨fun _ => rfl, fun _ => rfl⟩
    | cons a q =>
      rw [cons_mem_paths, cons_mem_paths]
      constructor
      · rintro ⟨y, hy, hq⟩
        obtain ⟨z, hz, heq⟩ := hsame (a, y) (mem_entries.mpr hy)
        exact ⟨z, hz, heq ▸ hq⟩
      · rintro ⟨z, hz, hq⟩
        obtain ⟨y, hy⟩ := mem_keys.mp (hperm.mem_iff.mpr (mem_keys.mpr ⟨z, hz⟩))
        obtain ⟨z', hz', heq⟩ := hsame (a, y) (mem_entries.mpr hy)
        obtain rfl : z = z' := Option.some_inj.mp (hz.symm.trans hz')
        exact ⟨y, hy, heq ▸ hq⟩

/-- With fuel for the nodes below, the comparison tells whether the paths are the same. -/
theorem differ_spec (hl : h.Linked) {fuel l r : Nat} (hsize : l < h.size) (hfuel : h.size ≤ l + fuel) :
    ∃ b, differ range h fuel (some l) (some r) = some b ∧ (b = false ↔ h.paths l = h.paths r) := by
  induction fuel generalizing l r with
  | zero => omega
  | succ fuel ih =>
    have hperm := range.perm l (h.entries l)
    rw [differ, paths_eq_iff]
    by_cases hlen : (h.entries l).length = (h.entries r).length
    · rw [if_neg (not_not.mpr hlen)]
      simp only [hlen, true_and, ← hperm.mem_iff]
      refine anyM_spec fun e he => ?_
      have hnewer := hl.newer (mem_entries.mp (hperm.mem_iff.mp he))
      cases hy : h.child r e.1 with
      | none =>
        refine ⟨true, rfl, iff_of_false Bool.noConfusion ?_⟩
        rintro ⟨y, hy', -⟩
        cases hy'
      | some y =>
        obtain ⟨b, hb, hiff⟩ := ih (l := e.2) (r := y) hnewer.2 (by omega)
        refine ⟨b, hb, hiff.trans ?_⟩
        simp only [Option.some.injEq, exists_eq_left']
    · rw [if_pos hlen]
      exact ⟨true, rfl, iff_of_false Bool.noConfusion fun h => hlen h.1⟩

end PointerHeap
