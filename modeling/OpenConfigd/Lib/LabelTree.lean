import Mathlib.Data.List.Infix
import Mathlib.Data.List.Perm.Subperm
import OpenConfigd.Lib.Keyed

/-!
# Trees of labels

A tree whose edges carry labels, each at most once below a node (`LabelTree.Distinct`), seen
as the set of paths that lead from its root to a node. `set` adds a path and `delete`
cuts one off: `has_set` and `has_delete` say which paths there are afterwards, and
`find_set`, `find_delete` that the other subtrees stay as they are. `copy` makes a tree
anew, and `differ` compares two trees label by label: `differ_iff` says that it tells
whether the two are the same set of paths (`Same`).
-/

/-- A node is the labels of the edges below it, each with the node it leads to. -/
inductive LabelTree (α : Type) where
  | node (children : List (α × LabelTree α))

namespace LabelTree

variable {α : Type}

/-- The edges below the root. -/
def children : LabelTree α → List (α × LabelTree α)
  | node l => l

/-- The tree that is only a root. -/
def empty : LabelTree α := node []

/-- The labels below the root. -/
def labels (t : LabelTree α) : List α := t.children.map Prod.fst

/-- No node of the tree has two edges of one label. -/
inductive Distinct : LabelTree α → Prop where
  | node {l : List (α × LabelTree α)} : (l.map Prod.fst).Nodup → (∀ x ∈ l, Distinct x.2) →
      Distinct (node l)

/-- Induction over a tree: what holds of a node when it holds of the nodes below it. -/
theorem induct {motive : LabelTree α → Prop}
    (h : ∀ l : List (α × LabelTree α), (∀ x ∈ l, motive x.2) → motive (node l)) : ∀ t, motive t
  | node l => h l fun x _ => induct h x.2
decreasing_by
  rename_i hx
  have hx : sizeOf x < sizeOf l := List.sizeOf_lt_of_mem hx
  have hx₂ : sizeOf x.2 < sizeOf x := by
    cases x
    simp only [Prod.mk.sizeOf_spec]
    omega
  simp only [LabelTree.node.sizeOf_spec]
  omega

namespace Distinct

theorem empty : (LabelTree.empty : LabelTree α).Distinct := .node List.nodup_nil fun _ h => nomatch h

variable {t : LabelTree α}

theorem nodup (ht : t.Distinct) : t.labels.Nodup := by
  obtain ⟨hn, -⟩ := ht
  exact hn

theorem of_mem (ht : t.Distinct) {x : α × LabelTree α} (hx : x ∈ t.children) : x.2.Distinct := by
  obtain ⟨-, h⟩ := ht
  exact h x hx

end Distinct

variable [DecidableEq α]

/-- The node below the root at a label. -/
def child (t : LabelTree α) (a : α) : Option (LabelTree α) :=
  (Keyed.get Prod.fst a t.children).map Prod.snd

/-- The tree with another node at a label. -/
def put (t : LabelTree α) (a : α) (c : LabelTree α) : LabelTree α :=
  if (t.child a).isSome then node (Keyed.modify Prod.fst a (fun x => (x.1, c)) t.children)
  else node (t.children ++ [(a, c)])

/-- The tree without a label. -/
def erase (t : LabelTree α) (a : α) : LabelTree α := node (t.children.filter fun x => x.1 ≠ a)

/-- The node a path leads to. -/
def find : LabelTree α → List α → Option (LabelTree α)
  | t, [] => some t
  | t, a :: p => (t.child a).bind fun c => c.find p

/-- The path leads to a node. -/
def Has (t : LabelTree α) (p : List α) : Prop := (t.find p).isSome

/-- The nodes of a path are made where they are missing. -/
def set : LabelTree α → List α → LabelTree α
  | t, [] => t
  | t, a :: p => t.put a (((t.child a).getD empty).set p)

/-- The last node of a path is cut off; nothing when a node of the path is missing. -/
def delete : LabelTree α → List α → LabelTree α
  | t, [] => t
  | t, [a] => t.erase a
  | t, a :: b :: p =>
    match t.child a with
    | none => t
    | some c => t.put a (c.delete (b :: p))

mutual

/-- The tree made anew, edge by edge. -/
def copy : LabelTree α → LabelTree α
  | node l => copyInto l empty

/-- The edges put below a root. -/
def copyInto : List (α × LabelTree α) → LabelTree α → LabelTree α
  | [], t => t
  | (a, c) :: l, t => copyInto l (t.put a c.copy)

end

mutual

/-- The two trees differ in the number of labels of a node, or in a label. -/
def differ : LabelTree α → LabelTree α → Bool
  | node l, u => l.length ≠ u.children.length || differAt l u

/-- An edge that the tree does not have, or that leads to a node that differs. -/
def differAt : List (α × LabelTree α) → LabelTree α → Bool
  | [], _ => false
  | (a, c) :: l, u =>
    (match u.child a with
      | none => true
      | some d => differ c d) || differAt l u

end

/-- The two trees are the same set of paths. -/
def Same (t u : LabelTree α) : Prop := ∀ p, t.Has p ↔ u.Has p

/-! ## One label -/

theorem child_isSome {t : LabelTree α} {a : α} : (t.child a).isSome ↔ a ∈ t.labels := by
  simp [child, Keyed.get_isSome, labels]

theorem mem_of_child {t c : LabelTree α} {a : α} (h : t.child a = some c) : (a, c) ∈ t.children := by
  obtain ⟨x, hx, rfl⟩ := Option.map_eq_some_iff.mp h
  have hk := Keyed.key_of_get Prod.fst hx
  exact hk ▸ Keyed.mem_of_get hx

theorem child_put_self (t : LabelTree α) (a : α) (c : LabelTree α) : (t.put a c).child a = some c := by
  have hkey : ∀ x : α × LabelTree α, (x.1, c).1 = x.1 := fun _ => rfl
  rw [put]
  split
  · rename_i h
    obtain ⟨d, hd⟩ := Option.isSome_iff_exists.mp h
    obtain ⟨x, hx, -⟩ := Option.map_eq_some_iff.mp hd
    rw [child, children, Keyed.get_modify_self Prod.fst hkey, hx]
    rfl
  · rename_i h
    rw [Option.not_isSome_iff_eq_none, child, Option.map_eq_none_iff] at h
    rw [child, children, Keyed.get_append, h]
    simp [Keyed.get_cons]

theorem child_put_ne (t : LabelTree α) {a b : α} (hb : b ≠ a) (c : LabelTree α) :
    (t.put a c).child b = t.child b := by
  have hkey : ∀ x : α × LabelTree α, (x.1, c).1 = x.1 := fun _ => rfl
  rw [put]
  split
  · rw [child, children, Keyed.get_modify_ne Prod.fst hb hkey]
    rfl
  · rw [child, children, Keyed.get_append, Keyed.get_cons, if_neg (Ne.symm hb)]
    simp [child]

theorem child_put (t : LabelTree α) (a b : α) (c : LabelTree α) :
    (t.put a c).child b = if b = a then some c else t.child b := by
  by_cases hb : b = a
  · rw [if_pos hb, hb, child_put_self]
  · rw [if_neg hb, child_put_ne t hb]

theorem child_erase (t : LabelTree α) (a b : α) :
    (t.erase a).child b = if b = a then none else t.child b := by
  rw [erase, child, children, Keyed.get, List.find?_filter]
  by_cases hb : b = a
  · rw [if_pos hb, Option.map_eq_none_iff, List.find?_eq_none]
    simp [hb]
  · rw [if_neg hb, child, Keyed.get]
    congr 2
    funext x
    by_cases hx : x.1 = b
    · simp [hx, hb]
    · simp [hx]

/-- Below a node of distinct labels an edge is what its label leads to. -/
theorem child_of_mem {t : LabelTree α} (ht : t.labels.Nodup) {x : α × LabelTree α} (hx : x ∈ t.children) :
    t.child x.1 = some x.2 := by
  rw [child, Keyed.get_of_mem ht hx]
  rfl

theorem labels_put (t : LabelTree α) (a : α) (c : LabelTree α) :
    (t.put a c).labels = if a ∈ t.labels then t.labels else t.labels ++ [a] := by
  by_cases ha : a ∈ t.labels
  · rw [if_pos ha, put, if_pos (child_isSome.mpr ha), labels, children, labels]
    exact Keyed.map_modify Prod.fst fun _ _ => rfl
  · rw [if_neg ha, put, if_neg fun h => ha (child_isSome.mp h)]
    simp [labels, children]

/-! ## Distinct labels -/

namespace Distinct

variable {t : LabelTree α}

theorem child (ht : t.Distinct) {a : α} {c : LabelTree α} (h : t.child a = some c) : c.Distinct :=
  ht.of_mem (mem_of_child h)

theorem put (ht : t.Distinct) (a : α) {c : LabelTree α} (hc : c.Distinct) : (t.put a c).Distinct := by
  have hmem : ∀ x ∈ (t.put a c).children, x.2.Distinct := by
    intro x hx
    rw [LabelTree.put] at hx
    split at hx
    · rcases Keyed.mem_modify hx with hx | ⟨_, -, rfl⟩
      · exact ht.of_mem hx
      · exact hc
    · rcases List.mem_append.mp hx with hx | hx
      · exact ht.of_mem hx
      · rw [List.mem_singleton.mp hx]
        exact hc
  have hnodup : (t.put a c).labels.Nodup := by
    rw [labels_put]
    split
    · exact ht.nodup
    · rename_i ha
      exact ht.nodup.append (List.nodup_singleton a) (by simpa using ha)
  cases hp : t.put a c with
  | node l =>
    rw [hp] at hmem hnodup
    exact .node hnodup hmem

theorem erase (ht : t.Distinct) (a : α) : (t.erase a).Distinct := by
  refine .node ?_ fun x hx => ht.of_mem (List.mem_of_mem_filter hx)
  exact ht.nodup.sublist (List.filter_sublist.map Prod.fst)

theorem set (ht : t.Distinct) (p : List α) : (t.set p).Distinct := by
  induction p generalizing t with
  | nil => exact ht
  | cons a p ih =>
    refine ht.put a (ih ?_)
    cases h : t.child a with
    | none => exact Distinct.empty
    | some c => exact ht.child h

theorem delete (ht : t.Distinct) (p : List α) : (t.delete p).Distinct := by
  induction p generalizing t with
  | nil => exact ht
  | cons a p ih =>
    cases p with
    | nil => exact ht.erase a
    | cons b p =>
      rw [LabelTree.delete]
      split
      · exact ht
      · rename_i c hc
        exact ht.put a (ih (ht.child hc))

theorem find (ht : t.Distinct) {p : List α} {u : LabelTree α} (h : t.find p = some u) : u.Distinct := by
  induction p generalizing t with
  | nil =>
    rw [LabelTree.find, Option.some.injEq] at h
    exact h ▸ ht
  | cons a p ih =>
    obtain ⟨c, hc, hu⟩ := Option.bind_eq_some_iff.mp h
    exact ih (ht.child hc) hu

end Distinct

/-! ## Paths -/

theorem find_append (t : LabelTree α) (p q : List α) :
    t.find (p ++ q) = (t.find p).bind fun u => u.find q := by
  induction p generalizing t with
  | nil => rfl
  | cons a p ih =>
    rw [List.cons_append, find, find, Option.bind_assoc]
    congr 1
    funext c
    exact ih c

theorem find_empty {p : List α} (hp : p ≠ []) : (empty : LabelTree α).find p = none := by
  cases p with
  | nil => exact absurd rfl hp
  | cons a p => rfl

/-- What a path that is added leads through is there, and nothing else is new. -/
theorem has_set (t : LabelTree α) (p q : List α) : (t.set p).Has q ↔ t.Has q ∨ q <+: p := by
  induction p generalizing t q with
  | nil =>
    rw [set]
    refine ⟨.inl, ?_⟩
    rintro (h | h)
    · exact h
    · rw [List.prefix_nil.mp h]
      rfl
  | cons a p ih =>
    cases q with
    | nil => simp [Has, find]
    | cons b q =>
      rw [set, Has, find, child_put, Has, find, List.cons_prefix_cons]
      by_cases hb : b = a
      · rw [if_pos hb, Option.bind_some, ← Has, ih, hb]
        cases h : t.child a with
        | none =>
          cases q with
          | nil => simp
          | cons c q => simp [Has, find_empty]
        | some c => simp [Has]
      · rw [if_neg hb]
        simp [hb]

/-- A subtree that an added path does not lead into stays as it is. -/
theorem find_set (t : LabelTree α) {p q : List α} (hq : ¬ q <+: p) : (t.set p).find q = t.find q := by
  induction p generalizing t q with
  | nil => rfl
  | cons a p ih =>
    cases q with
    | nil => exact absurd List.nil_prefix hq
    | cons b q =>
      rw [set, find, child_put, find]
      by_cases hb : b = a
      · have hq : ¬ q <+: p := fun h => hq (List.cons_prefix_cons.mpr ⟨hb, h⟩)
        rw [if_pos hb, Option.bind_some, ih _ hq, hb]
        cases h : t.child a with
        | none => exact find_empty fun h => hq (h ▸ List.nil_prefix)
        | some c => rfl
      · rw [if_neg hb]

/-- A path is cut off with all that is below it, and nothing else. -/
theorem has_delete (t : LabelTree α) {p : List α} (hp : p ≠ []) (q : List α) :
    (t.delete p).Has q ↔ t.Has q ∧ ¬ p <+: q := by
  induction p generalizing t q with
  | nil => exact absurd rfl hp
  | cons a p ih =>
    cases q with
    | nil => simp [Has, find]
    | cons b q =>
      rw [List.cons_prefix_cons]
      cases p with
      | nil =>
        rw [delete, Has, find, child_erase, Has, find]
        by_cases hb : b = a
        · simp [hb]
        · rw [if_neg hb]
          simp [Ne.symm hb]
      | cons c p =>
        rw [delete]
        cases h : t.child a with
        | none =>
          by_cases hb : b = a
          · simp [Has, find, hb, h]
          · simp [Ne.symm hb]
        | some d =>
          simp only [Has, find, child_put]
          by_cases hb : b = a
          · rw [if_pos hb, Option.bind_some, ← Has, ih d (by simp), hb, h]
            simp [Has]
          · rw [if_neg hb]
            simp [Ne.symm hb]

/-- A subtree that is neither below the path that is cut off nor above it stays as it is. -/
theorem find_delete (t : LabelTree α) {p q : List α} (hq : ¬ q <+: p) (hp : ¬ p <+: q) :
    (t.delete p).find q = t.find q := by
  induction p generalizing t q with
  | nil => rfl
  | cons a p ih =>
    cases q with
    | nil => exact absurd List.nil_prefix hq
    | cons b q =>
      rw [List.cons_prefix_cons] at hq hp
      cases p with
      | nil =>
        have hb : b ≠ a := fun h => hp ⟨h.symm, List.nil_prefix⟩
        rw [delete, find, child_erase, if_neg hb, find]
      | cons c p =>
        rw [delete]
        cases h : t.child a with
        | none => rfl
        | some d =>
          simp only [find, child_put]
          by_cases hb : b = a
          · rw [if_pos hb, Option.bind_some, hb, h]
            exact ih d (fun h => hq ⟨hb, h⟩) fun h => hp ⟨hb.symm, h⟩
          · rw [if_neg hb]

/-! ## Copies -/

theorem put_new {t : LabelTree α} {a : α} (ha : a ∉ t.labels) (c : LabelTree α) :
    t.put a c = node (t.children ++ [(a, c)]) :=
  if_neg fun h => ha (child_isSome.mp h)

/-- A copy of a tree of distinct labels is the tree itself. -/
theorem copy_eq {t : LabelTree α} (ht : t.Distinct) : t.copy = t := by
  induction t using induct with
  | h l ih =>
    -- The edges that are put stand after those that have been put before.
    have hinto : ∀ l' t', (∀ x ∈ l', x ∈ l) → (l'.map Prod.fst ++ t'.labels).Nodup →
        copyInto l' t' = node (t'.children ++ l') := by
      intro l'
      induction l' with
      | nil =>
        intro t' _ _
        cases t' with
        | node l => simp [copyInto, children]
      | cons x l' ih' =>
        intro t' hmem hn
        rw [List.map_cons, List.cons_append, List.nodup_cons, List.mem_append, not_or] at hn
        have hx := hmem x List.mem_cons_self
        rw [copyInto, ih x hx (ht.of_mem hx), put_new hn.1.2]
        rw [ih' _ (fun y hy => hmem y (List.mem_cons_of_mem _ hy))]
        · simp [children]
        · have hnode : (node (t'.children ++ [(x.1, x.2)])).labels = t'.labels ++ [x.1] := by
            simp [labels, children]
          rw [hnode, ← List.append_assoc, List.nodup_append_comm, List.singleton_append,
            List.nodup_cons, List.mem_append, not_or]
          exact ⟨hn.1, hn.2⟩
    rw [copy, hinto l empty (fun _ h => h)]
    · rfl
    · simpa [labels, empty, children] using ht.nodup

/-! ## Comparing -/

namespace Same

variable {t u v : LabelTree α}

protected theorem refl (t : LabelTree α) : Same t t := fun _ => Iff.rfl

protected theorem symm (h : Same t u) : Same u t := fun p => (h p).symm

protected theorem trans (h : Same t u) (h' : Same u v) : Same t v := fun p => (h p).trans (h' p)

/-- The trees have the same labels, and the same trees below them. -/
theorem child_iff : Same t u ↔ ∀ a, Option.Rel Same (t.child a) (u.child a) := by
  constructor
  · intro h a
    have ha := h [a]
    rw [Has, Has, find, find] at ha
    cases ht : t.child a with
    | none =>
      cases hu : u.child a with
      | none => exact .none
      | some d => simp [ht, hu, find] at ha
    | some c =>
      cases hu : u.child a with
      | none => simp [ht, hu, find] at ha
      | some d =>
        refine .some fun p => ?_
        have hp := h (a :: p)
        rwa [Has, Has, find, find, ht, hu, Option.bind_some, Option.bind_some, ← Has, ← Has] at hp
  · intro h p
    cases p with
    | nil => exact Iff.rfl
    | cons a p =>
      rw [Has, Has, find, find]
      have ha := h a
      cases ht : t.child a with
      | none =>
        rw [ht] at ha
        cases hu : u.child a with
        | none => rfl
        | some d =>
          rw [hu] at ha
          nomatch ha
      | some c =>
        rw [ht] at ha
        cases hu : u.child a with
        | none =>
          rw [hu] at ha
          nomatch ha
        | some d =>
          rw [hu] at ha
          cases ha with
          | some hcd => exact hcd p

theorem mem_labels (h : Same t u) (a : α) : a ∈ t.labels ↔ a ∈ u.labels := by
  have ha := h [a]
  simpa [Has, find, Option.isSome_bind, ← child_isSome] using ha

theorem labels_perm (h : Same t u) (ht : t.Distinct) (hu : u.Distinct) : t.labels.Perm u.labels :=
  (List.perm_ext_iff_of_nodup ht.nodup hu.nodup).mpr h.mem_labels

/-- A path leads to the same tree in both. -/
theorem find (h : Same t u) (p : List α) : Option.Rel Same (t.find p) (u.find p) := by
  induction p generalizing t u with
  | nil => exact .some h
  | cons a p ih =>
    have ha := child_iff.mp h a
    rw [LabelTree.find, LabelTree.find]
    cases ht : t.child a with
    | none =>
      rw [ht] at ha
      cases hu : u.child a with
      | none => exact .none
      | some d =>
        rw [hu] at ha
        nomatch ha
    | some c =>
      rw [ht] at ha
      cases hu : u.child a with
      | none =>
        rw [hu] at ha
        nomatch ha
      | some d =>
        rw [hu] at ha
        cases ha with
        | some hcd => exact ih hcd

end Same

theorem differAt_eq_false {l : List (α × LabelTree α)} {u : LabelTree α} :
    differAt l u = false ↔ ∀ x ∈ l, ∃ d, u.child x.1 = some d ∧ differ x.2 d = false := by
  induction l with
  | nil => simp [differAt]
  | cons x l ih =>
    rw [differAt, Bool.or_eq_false_iff, ih, List.forall_mem_cons]
    cases h : u.child x.1 with
    | none => simp
    | some d => simp

/-- Two trees of distinct labels do not differ just if they are the same set of paths. -/
theorem differ_iff {t u : LabelTree α} (ht : t.Distinct) (hu : u.Distinct) :
    t.differ u = false ↔ Same t u := by
  induction t using induct generalizing u with
  | h l ih =>
    rw [differ, Bool.or_eq_false_iff, differAt_eq_false, decide_eq_false_iff_not, not_not]
    constructor
    · rintro ⟨hlen, hall⟩
      -- As many labels, and all those of the one among those of the other.
      have hsub : (node l).labels ⊆ u.labels := by
        intro a ha
        obtain ⟨x, hx, rfl⟩ := List.mem_map.mp ha
        obtain ⟨d, hd, -⟩ := hall x hx
        exact child_isSome.mp (by rw [hd]; rfl)
      have hperm : (node l).labels.Perm u.labels := by
        refine (List.subperm_of_subset ht.nodup hsub).perm_of_length_le ?_
        simp [labels, children, hlen]
      refine Same.child_iff.mpr fun a => ?_
      cases ha : (node l).child a with
      | none =>
        have hna : u.child a = none := by
          rw [← Option.not_isSome_iff_eq_none, child_isSome, ← hperm.mem_iff, ← child_isSome, ha]
          simp
        rw [hna]
        exact .none
      | some c =>
        have hmem : (a, c) ∈ l := mem_of_child ha
        obtain ⟨d, hd, hcd⟩ := hall (a, c) hmem
        rw [hd]
        exact .some ((ih (a, c) hmem (ht.of_mem hmem) (hu.child hd)).mp hcd)
    · intro h
      refine ⟨by simpa [labels, children] using (h.labels_perm ht hu).length_eq, fun x hx => ?_⟩
      have hx' : (node l).child x.1 = some x.2 := child_of_mem ht.nodup hx
      have hrel := Same.child_iff.mp h x.1
      rw [hx'] at hrel
      cases hd : u.child x.1 with
      | none =>
        rw [hd] at hrel
        nomatch hrel
      | some d =>
        rw [hd] at hrel
        cases hrel with
        | some hxd => exact ⟨d, rfl, (ih x hx (ht.of_mem hx) (hu.child hd)).mpr hxd⟩

end LabelTree
