import Mathlib.Data.List.Induction
import Mathlib.Data.List.Infix
import Mathlib.Data.List.Nodup

/-!
# Maps from paths, as trees

A tree whose edges carry labels and whose nodes may have a value, as the map from the paths to
the values that it is. `insert` makes the nodes of a path where they are missing, and sets the
value of the last: `get_insert` and `has_insert` say what it changes, `get_ofList` and
`has_ofList` what a tree made by a list of them has.
-/

namespace PathMap

/-- The edges below a node: the label of the first, the value of the node it leads to, what is
below that, and the other edges. -/
inductive Forest (α β : Type) where
  | nil
  | cons (label : α) (value : Option β) (below rest : Forest α β)

/-- A node. -/
structure Node (α β : Type) where
  value : Option β := none
  below : Forest α β := .nil

variable {α β : Type}

namespace Forest

/-- The edges one after the other. -/
def edges : Forest α β → List (α × Node α β)
  | nil => []
  | cons label value below rest => (label, ⟨value, below⟩) :: rest.edges

/-- The labels of the edges. -/
def labels (t : Forest α β) : List α := t.edges.map Prod.fst

/-- The length of the longest path. -/
def height : Forest α β → Nat
  | nil => 0
  | cons _ _ below rest => max (below.height + 1) rest.height

/-- No node has two edges of one label. -/
def Distinct : Forest α β → Prop
  | nil => True
  | cons label _ below rest => label ∉ rest.labels ∧ below.Distinct ∧ rest.Distinct

variable [DecidableEq α]

/-- The node that the edge of a label leads to. -/
def child (a : α) : Forest α β → Option (Node α β)
  | nil => none
  | cons label value below rest => if label = a then some ⟨value, below⟩ else rest.child a

/-- The node at a label is changed; a new one when there is none. -/
def change (a : α) (f : Node α β → Node α β) : Forest α β → Forest α β
  | nil => cons a (f {}).value (f {}).below nil
  | cons label value below rest =>
    if label = a then cons label (f ⟨value, below⟩).value (f ⟨value, below⟩).below rest
    else cons label value below (rest.change a f)

end Forest

namespace Node

variable [DecidableEq α]

/-- The node at the end of a path. -/
def find : Node α β → List α → Option (Node α β)
  | n, [] => some n
  | n, a :: p => (n.below.child a).bind fun m => m.find p

/-- The value at the end of a path. -/
def get (n : Node α β) (p : List α) : Option β := (n.find p).bind value

/-- The path leads to a node. -/
def Has (n : Node α β) (p : List α) : Prop := (n.find p).isSome

/-- The value at the end of a path is set; the nodes of the path are made where they are missing. -/
def insert : Node α β → List α → β → Node α β
  | n, [], b => { n with value := some b }
  | n, a :: p, b => { n with below := n.below.change a fun m => m.insert p b }

/-- The tree of a list of paths with values. -/
def ofList (l : List (List α × β)) : Node α β := l.foldl (fun n x => n.insert x.1 x.2) {}

end Node

namespace Forest

variable {t : Forest α β} {a : α} {n : Node α β}

theorem edges_cons (label : α) (value : Option β) (below rest : Forest α β) :
    (cons label value below rest).edges = (label, ⟨value, below⟩) :: rest.edges := rfl

theorem labels_cons (label : α) (value : Option β) (below rest : Forest α β) :
    (cons label value below rest).labels = label :: rest.labels := rfl

theorem nodup_labels (ht : t.Distinct) : t.labels.Nodup := by
  induction t with
  | nil => exact List.nodup_nil
  | cons label value below rest _ ih => exact List.nodup_cons.mpr ⟨ht.1, ih ht.2.2⟩

/-- Below an edge there is less. -/
theorem height_lt (h : (a, n) ∈ t.edges) : n.below.height < t.height := by
  induction t with
  | nil => cases h
  | cons label value below rest _ ih =>
    rw [height]
    rcases List.mem_cons.mp h with h | h
    · cases h
      exact Nat.lt_of_lt_of_le (Nat.lt_succ_self _) (Nat.le_max_left _ _)
    · exact Nat.lt_of_lt_of_le (ih h) (Nat.le_max_right _ _)

variable [DecidableEq α]

theorem child_cons (a label : α) (value : Option β) (below rest : Forest α β) :
    (cons label value below rest).child a = if label = a then some ⟨value, below⟩ else rest.child a := rfl

theorem change_nil (a : α) (f : Node α β → Node α β) :
    (nil : Forest α β).change a f = cons a (f {}).value (f {}).below nil := rfl

theorem change_cons (a label : α) (value : Option β) (below rest : Forest α β) (f : Node α β → Node α β) :
    (cons label value below rest).change a f =
      if label = a then cons label (f ⟨value, below⟩).value (f ⟨value, below⟩).below rest
      else cons label value below (rest.change a f) := rfl

theorem child_change (t : Forest α β) (a b : α) (f : Node α β → Node α β) :
    (t.change a f).child b = if b = a then some (f ((t.child a).getD {})) else t.child b := by
  induction t with
  | nil =>
    rw [change_nil, child_cons]
    by_cases h : b = a
    · rw [if_pos h.symm, if_pos h]
      rfl
    · rw [if_neg (Ne.symm h), if_neg h]
  | cons label value below rest _ ih =>
    rw [change_cons]
    by_cases hl : label = a
    · subst hl
      rw [if_pos rfl, child_cons, child_cons, child_cons, if_pos rfl]
      by_cases h : label = b
      · rw [if_pos h, if_pos h.symm]
        rfl
      · rw [if_neg h, if_neg (Ne.symm h), if_neg h]
    · rw [if_neg hl, child_cons, child_cons, child_cons, if_neg hl, ih]
      by_cases h : b = a
      · rw [if_pos h, if_pos h, if_neg fun h' => hl (h'.trans h)]
      · rw [if_neg h, if_neg h]

theorem labels_change (t : Forest α β) (a : α) (f : Node α β → Node α β) :
    (t.change a f).labels = if a ∈ t.labels then t.labels else t.labels ++ [a] := by
  induction t with
  | nil => rfl
  | cons label value below rest _ ih =>
    rw [change_cons, labels_cons]
    by_cases hl : label = a
    · rw [if_pos hl, if_pos (hl ▸ List.mem_cons_self), labels_cons]
    · rw [if_neg hl, labels_cons, ih]
      by_cases ha : a ∈ rest.labels
      · rw [if_pos ha, if_pos (List.mem_cons_of_mem _ ha)]
      · rw [if_neg ha, if_neg fun h => ha ((List.mem_cons.mp h).resolve_left (Ne.symm hl)), List.cons_append]

theorem distinct_change (ht : t.Distinct) (hf : ∀ n : Node α β, n.below.Distinct → (f n).below.Distinct) (a : α) :
    (t.change a f).Distinct := by
  induction t with
  | nil => exact ⟨List.not_mem_nil, hf {} trivial, trivial⟩
  | cons label value below rest _ ih =>
    obtain ⟨hlabel, hbelow, hrest⟩ := ht
    rw [change_cons]
    split
    · exact ⟨hlabel, hf ⟨value, below⟩ hbelow, hrest⟩
    · rename_i hl
      refine ⟨?_, hbelow, ih hrest⟩
      rw [labels_change]
      split
      · exact hlabel
      · rw [List.mem_append, List.mem_singleton]
        exact not_or.mpr ⟨hlabel, hl⟩

theorem mem_edges (ht : t.Distinct) : (a, n) ∈ t.edges ↔ t.child a = some n := by
  induction t with
  | nil => exact iff_of_false List.not_mem_nil nofun
  | cons label value below rest _ ih =>
    rw [edges_cons, List.mem_cons, child_cons, ih ht.2.2, Prod.mk.injEq]
    by_cases hl : label = a
    · rw [if_pos hl, Option.some.injEq, and_iff_right hl.symm, eq_comm, or_iff_left]
      intro h
      rw [← ih ht.2.2] at h
      exact ht.1 (hl ▸ List.mem_map_of_mem h)
    · rw [if_neg hl, or_iff_right fun h => hl h.1.symm]

theorem child_distinct (ht : t.Distinct) (h : t.child a = some n) : n.below.Distinct := by
  induction t with
  | nil => cases h
  | cons label value below rest _ ih =>
    rw [child_cons] at h
    split at h
    · cases h
      exact ht.2.1
    · exact ih ht.2.2 h

end Forest

namespace Node

variable [DecidableEq α] {n m : Node α β} {p q : List α} {a : α} {b : β} {l : List (List α × β)}

theorem find_cons (n : Node α β) (a : α) (p : List α) : n.find (a :: p) = (n.below.child a).bind fun m => m.find p :=
  rfl

theorem find_snoc (n : Node α β) (p : List α) (a : α) : n.find (p ++ [a]) = (n.find p).bind fun m => m.below.child a := by
  induction p generalizing n with
  | nil =>
    show (n.below.child a).bind (fun m => some m) = _
    exact Option.bind_fun_some _
  | cons c p ih =>
    rw [List.cons_append, find_cons, find_cons, Option.bind_assoc]
    congr 1
    funext m
    exact ih m

theorem find_empty_cons (a : α) (p : List α) : (({} : Node α β).find (a :: p)) = none := rfl

/-- What a path that is added leads to: what was there with the rest of the path added. -/
theorem find_insert_cons (n : Node α β) (a : α) (p : List α) (b : β) (c : α) (q : List α) :
    (n.insert (a :: p) b).find (c :: q) =
      if c = a then (((n.below.child a).getD {}).insert p b).find q else n.find (c :: q) := by
  rw [insert, find_cons, Forest.child_change, find_cons]
  split
  · rfl
  · rfl

theorem get_insert (n : Node α β) (p : List α) (b : β) (q : List α) :
    (n.insert p b).get q = if q = p then some b else n.get q := by
  induction p generalizing n q with
  | nil => cases q <;> rfl
  | cons a p ih =>
    cases q with
    | nil => rfl
    | cons c q =>
      rw [get, find_insert_cons]
      by_cases hc : c = a
      · subst hc
        rw [if_pos rfl, ← get, ih]
        by_cases hq : q = p
        · rw [if_pos hq, if_pos (congrArg _ hq)]
        · rw [if_neg hq, if_neg fun h => hq (List.cons.inj h).2, get, get, find_cons]
          cases n.below.child c with
          | some m => rfl
          | none => cases q <;> rfl
      · rw [if_neg hc, if_neg fun h => hc (List.cons.inj h).1, get]

theorem has_insert (n : Node α β) (p : List α) (b : β) (q : List α) :
    (n.insert p b).Has q ↔ n.Has q ∨ q <+: p := by
  induction p generalizing n q with
  | nil =>
    cases q with
    | nil => exact iff_of_true rfl (.inl rfl)
    | cons c q => exact (or_iff_left (by simp)).symm
  | cons a p ih =>
    cases q with
    | nil => exact iff_of_true rfl (.inl rfl)
    | cons c q =>
      rw [Has, find_insert_cons, List.cons_prefix_cons]
      by_cases hc : c = a
      · subst hc
        rw [if_pos rfl, ← Has, ih, and_iff_right rfl, Has, Has, find_cons]
        cases n.below.child c with
        | some m => rfl
        | none =>
          cases q with
          | nil => simp
          | cons d q => rfl
      · rw [if_neg hc, Has]
        exact (or_iff_left fun h => hc h.1).symm

theorem distinct_insert (hn : n.below.Distinct) (p : List α) (b : β) : (n.insert p b).below.Distinct := by
  induction p generalizing n with
  | nil => exact hn
  | cons a p ih => exact Forest.distinct_change hn (fun _ hm => ih hm) a

theorem find_distinct (hn : n.below.Distinct) (h : n.find p = some m) : m.below.Distinct := by
  induction p generalizing n with
  | nil =>
    cases h
    exact hn
  | cons a p ih =>
    obtain ⟨c, hc, h⟩ := Option.bind_eq_some_iff.mp h
    exact ih (Forest.child_distinct hn hc) h

/-! ## A list of paths -/

theorem ofList_snoc (l : List (List α × β)) (x : List α × β) : ofList (l ++ [x]) = (ofList l).insert x.1 x.2 := by
  rw [ofList, List.foldl_append]
  rfl

/-- The last value that was given to the path. -/
theorem get_ofList (l : List (List α × β)) (p : List α) :
    (ofList l).get p = ((l.filter fun x => x.1 = p).getLast?).map Prod.snd := by
  induction l using List.reverseRecOn with
  | nil => cases p <;> rfl
  | append_singleton l x ih =>
    rw [ofList_snoc, get_insert, List.filter_append, ih]
    by_cases h : x.1 = p
    · rw [if_pos h.symm, List.filter_singleton]
      simp [h]
    · rw [if_neg (Ne.symm h), List.filter_singleton]
      simp [h]

theorem has_ofList (l : List (List α × β)) (p : List α) : (ofList l).Has p ↔ p = [] ∨ ∃ x ∈ l, p <+: x.1 := by
  induction l using List.reverseRecOn with
  | nil =>
    cases p with
    | nil => exact iff_of_true rfl (.inl rfl)
    | cons a p => simp [Has, ofList, find_empty_cons]
  | append_singleton l x ih =>
    rw [ofList_snoc, has_insert, ih, or_assoc]
    simp [or_and_right, exists_or]

theorem distinct_ofList (l : List (List α × β)) : (ofList l).below.Distinct := by
  induction l using List.reverseRecOn with
  | nil => trivial
  | append_singleton l x ih =>
    rw [ofList_snoc]
    exact distinct_insert ih x.1 x.2

end Node

end PathMap
