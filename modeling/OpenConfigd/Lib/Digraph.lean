import Mathlib.Data.List.Infix
import Mathlib.Data.List.Nodup
import Mathlib.Logic.Relation
import Mathlib.Order.WellFounded
import Mathlib.Data.Set.Finite.Basic

/-!
# Directed graphs, searched and sorted

Which nodes a depth-first search finds (`mem_expand_iff`), which edges a graph has when each is
taken unless it closes a cycle (`Maximal`), and what keeps a list sorted that takes up the nodes
of a graph one after the other, each when all edges into it are gone (`Sorting`): at the end of
an acyclic graph it has every node, and no node before one that has an edge into it
(`Sorting.mem_iff`).
-/

namespace Digraph

open Relation

variable {α : Type}

/-! ## Search -/

/-- The nodes that are found from a node, besides those that have been found; `next` has the
neighbours of a node, in the order in which they are taken when so many have been found. -/
def expand [DecidableEq α] (next : Nat → α → List α) : Nat → List α → α → List α
  | 0, expanded, _ => expanded
  | fuel + 1, expanded, node => (next expanded.length node).foldl
      (fun expanded n => if n ∈ expanded then expanded else expand next fuel (n :: expanded) n) expanded

section Search

variable {edge : α → α → Prop} {next : Nat → α → List α} {fuel : Nat} {found found' : List α} {node : α}

/-- What a search adds: it can be reached from the node, and all that is one edge further is there. -/
structure Expands (edge : α → α → Prop) (node : α) (found found' : List α) : Prop where
  subset : found ⊆ found'
  reached : ∀ b ∈ found', b ∈ found ∨ TransGen edge node b
  closed : ∀ b ∈ found', b ∉ found → ∀ c, edge b c → c ∈ found'

namespace Expands

theorem refl (edge : α → α → Prop) (node : α) (found : List α) : Expands edge node found found where
  subset := List.Subset.refl _
  reached _ hb := .inl hb
  closed _ hb hnot := absurd hb hnot

theorem trans {found'' : List α} (h : Expands edge node found found') (h' : Expands edge node found' found'') :
    Expands edge node found found'' where
  subset := List.Subset.trans h.subset h'.subset
  reached b hb := (h'.reached b hb).elim (h.reached b) .inr
  closed b hb hnot c hc := by
    by_cases hmem : b ∈ found'
    · exact h'.subset (h.closed b hmem hnot c hc)
    · exact h'.closed b hb hmem c hc

/-- A neighbour, and what is found from it. -/
theorem cons {n : α} (hn : edge node n) (h : Expands edge n (n :: found) found')
    (hnext : ∀ c, edge n c → c ∈ found') : Expands edge node found found' where
  subset _ hb := h.subset (List.mem_cons_of_mem _ hb)
  reached b hb := by
    rcases h.reached b hb with hb | hb
    · rcases List.mem_cons.mp hb with rfl | hb
      · exact .inr (.single hn)
      · exact .inl hb
    · exact .inr (.head hn hb)
  closed b hb hnot c hc := by
    by_cases hbn : b = n
    · exact hnext c (hbn ▸ hc)
    · exact h.closed b hb (fun hmem => (List.mem_cons.mp hmem).elim hbn hnot) c hc

end Expands

variable [DecidableEq α]

/-- How many nodes are still to be found. -/
def missing (nodes found : List α) : Nat := (nodes.filter (· ∉ found)).length

theorem missing_le {nodes : List α} (h : found ⊆ found') : missing nodes found' ≤ missing nodes found := by
  refine List.Sublist.length_le (List.monotone_filter_right nodes fun a ha => ?_)
  rw [decide_eq_true_eq] at ha ⊢
  exact fun hmem => ha (h hmem)

theorem missing_cons_lt {nodes : List α} {n : α} (hn : n ∈ nodes) (hnot : n ∉ found) :
    missing nodes (n :: found) < missing nodes found := by
  refine Nat.lt_of_le_of_ne (missing_le (List.subset_cons_self _ _)) fun heq => ?_
  have hsub : List.Sublist (nodes.filter (· ∉ n :: found)) (nodes.filter (· ∉ found)) :=
    List.monotone_filter_right nodes fun a ha => by
      rw [decide_eq_true_eq] at ha ⊢
      exact fun hmem => ha (List.mem_cons_of_mem _ hmem)
  have hmem : n ∈ nodes.filter (· ∉ found) := List.mem_filter.mpr ⟨hn, decide_eq_true hnot⟩
  rw [← hsub.eq_of_length heq, List.mem_filter, decide_eq_true_eq] at hmem
  exact hmem.2 List.mem_cons_self

/-- With more fuel than there are nodes to be found, a search finds the neighbours of the node too. -/
theorem expand_spec (hnext : ∀ k a b, b ∈ next k a ↔ edge a b) {nodes : List α}
    (hnodes : ∀ a b, edge a b → b ∈ nodes) (fuel : Nat) : ∀ (found : List α) (node : α), missing nodes found < fuel →
    Expands edge node found (expand next fuel found node) ∧ ∀ c, edge node c → c ∈ expand next fuel found node := by
  induction fuel with
  | zero => exact fun _ _ h => absurd h (Nat.not_lt_zero _)
  | succ fuel ih =>
    intro found node hfuel
    rw [expand]
    have hedges : ∀ n ∈ next found.length node, edge node n := fun n hn => (hnext _ _ _).mp hn
    have hall : ∀ c, edge node c → c ∈ next found.length node := fun c hc => (hnext _ _ _).mpr hc
    -- the neighbours one after the other, each from what those before it have found
    suffices h : ∀ (ns : List α) (acc : List α), (∀ n ∈ ns, edge node n) → found ⊆ acc →
        Expands edge node acc (ns.foldl (fun acc n => if n ∈ acc then acc else expand next fuel (n :: acc) n) acc) ∧
        ∀ n ∈ ns, n ∈ ns.foldl (fun acc n => if n ∈ acc then acc else expand next fuel (n :: acc) n) acc by
      obtain ⟨hexp, hmem⟩ := h _ found hedges (List.Subset.refl _)
      exact ⟨hexp, fun c hc => hmem c (hall c hc)⟩
    intro ns
    induction ns with
    | nil => exact fun acc _ _ => ⟨.refl _ _ _, nofun⟩
    | cons n ns ihns =>
      intro acc hns hsub
      obtain ⟨hn, hns⟩ := List.forall_mem_cons.mp hns
      rw [List.foldl_cons]
      split
      · rename_i hmem
        obtain ⟨hexp, hrest⟩ := ihns acc hns hsub
        exact ⟨hexp, List.forall_mem_cons.mpr ⟨hexp.subset hmem, hrest⟩⟩
      · rename_i hnot
        have hlt : missing nodes (n :: acc) < fuel := by
          have := missing_cons_lt (hnodes node n hn) hnot
          have : missing nodes acc ≤ missing nodes found := missing_le hsub
          omega
        obtain ⟨hinner, hclosed⟩ := ih (n :: acc) n hlt
        have hstep : Expands edge node acc (expand next fuel (n :: acc) n) := hinner.cons hn hclosed
        obtain ⟨hexp, hrest⟩ := ihns _ hns (List.Subset.trans hsub hstep.subset)
        exact ⟨hstep.trans hexp,
          List.forall_mem_cons.mpr ⟨hexp.subset (hinner.subset List.mem_cons_self), hrest⟩⟩

/-- A search finds what can be reached. -/
theorem mem_expand_iff (hnext : ∀ k a b, b ∈ next k a ↔ edge a b) {nodes : List α}
    (hnodes : ∀ a b, edge a b → b ∈ nodes) (hfuel : nodes.length < fuel) {b : α} :
    b ∈ expand next fuel [] node ↔ TransGen edge node b := by
  have hlt : missing nodes [] < fuel := (List.length_filter_le _ _).trans_lt hfuel
  obtain ⟨hexp, hfirst⟩ := expand_spec hnext hnodes fuel [] node hlt
  constructor
  · exact fun hb => (hexp.reached b hb).resolve_left List.not_mem_nil
  · intro hb
    induction hb with
    | single h => exact hfirst _ h
    | tail _ h ih => exact hexp.closed _ ih List.not_mem_nil _ h

end Search

/-! ## Edges that close no cycle -/

section Maximal

variable {declared edge : α → α → Prop} {a b x y : α}

/-- The edges of a graph and one more. -/
def Insert (edge : α → α → Prop) (a b x y : α) : Prop := edge x y ∨ x = a ∧ y = b

theorem le_insert : edge ≤ Insert edge a b := fun _ _ => .inl

/-- A path over one more edge has a path before it and one behind it. -/
theorem transGen_insert : TransGen (Insert edge a b) x y ↔
    TransGen edge x y ∨ ReflTransGen edge x a ∧ ReflTransGen edge b y := by
  have hedge : ReflTransGen edge ≤ ReflTransGen (Insert edge a b) := ReflTransGen.mono le_insert
  constructor
  · intro h
    induction h with
    | single h =>
      rcases h with h | ⟨rfl, rfl⟩
      · exact .inl (.single h)
      · exact .inr ⟨.refl, .refl⟩
    | tail _ h ih =>
      rcases h with h | ⟨rfl, rfl⟩
      · exact ih.imp (fun hx => hx.tail h) fun ⟨hx, hb⟩ => ⟨hx, hb.tail h⟩
      · exact .inr ⟨ih.elim TransGen.to_reflTransGen And.left, .refl⟩
  · rintro (h | ⟨hx, hy⟩)
    · exact TransGen.mono le_insert x y h
    · exact (TransGen.tail' (hedge x a hx) (.inr ⟨rfl, rfl⟩)).trans_left (hedge b y hy)

/-- The edges are those of the declared ones that do not close a cycle of theirs. -/
def Maximal (declared edge : α → α → Prop) : Prop :=
  ∀ a b, edge a b ↔ declared a b ∧ a ≠ b ∧ ¬ TransGen edge b a

namespace Maximal

theorem acyclic (h : Maximal declared edge) (x : α) : ¬ TransGen edge x x := by
  intro hx
  obtain ⟨y, hxy, hyx⟩ := TransGen.tail'_iff.mp hx
  obtain ⟨-, hne, hback⟩ := (h y x).mp hyx
  rcases Relation.reflTransGen_iff_eq_or_transGen.mp hxy with heq | hpath
  · exact hne heq
  · exact hback hpath

/-- A declared edge is taken unless it closes a cycle. -/
theorem take (h : Maximal declared edge) (hne : a ≠ b) (hback : ¬ TransGen edge b a) :
    Maximal (Insert declared a b) (Insert edge a b) := by
  have hacyclic : ∀ x, ¬ TransGen (Insert edge a b) x x := by
    intro x hx
    rcases transGen_insert.mp hx with hx | ⟨hxa, hbx⟩
    · exact h.acyclic x hx
    · rcases Relation.reflTransGen_iff_eq_or_transGen.mp (hbx.trans hxa) with heq | hpath
      · exact hne heq
      · exact hback hpath
  intro x y
  constructor
  · intro hxy
    refine ⟨hxy.imp_left fun hedge => ((h x y).mp hedge).1, ?_, fun hyx => hacyclic x (.head hxy hyx)⟩
    rintro rfl
    exact hacyclic x (.single hxy)
  · rintro ⟨hdecl, hxy, hnot⟩
    refine hdecl.imp_left fun hdecl => (h x y).mpr ⟨hdecl, hxy, fun hyx => hnot ?_⟩
    exact TransGen.mono le_insert y x hyx

theorem refuse (h : Maximal declared edge) (hclose : a = b ∨ TransGen edge b a) :
    Maximal (Insert declared a b) edge := by
  intro x y
  rw [h x y]
  constructor
  · exact fun hxy => ⟨.inl hxy.1, hxy.2⟩
  · rintro ⟨hdecl | ⟨rfl, rfl⟩, hne, hnot⟩
    · exact ⟨hdecl, hne, hnot⟩
    · exact absurd hclose (not_or.mpr ⟨hne, hnot⟩)

/-- Without a cycle all of them are taken. -/
theorem eq_of_acyclic (h : Maximal declared edge) (hacyclic : ∀ x, ¬ TransGen declared x x) : edge = declared := by
  ext a b
  rw [h a b, and_iff_left_iff_imp]
  have hle : edge ≤ declared := fun x y hxy => ((h x y).mp hxy).1
  refine fun hab => ⟨?_, fun hba => hacyclic a (.head hab (TransGen.mono hle b a hba))⟩
  rintro rfl
  exact hacyclic a (.single hab)

end Maximal

end Maximal

/-! ## Sorting -/

/-- A list of nodes that is sorted while edges go: `rest` are the edges that are left, those out of
nodes that are not in it; the nodes without an edge into them are in it or are to be taken up. -/
structure Sorting (edge : α → α → Prop) (nodes : List α) (rest : α → α → Prop) (sorted todo : List α) : Prop where
  nodup : (sorted ++ todo).Nodup
  rest_iff : ∀ a b, rest a b ↔ edge a b ∧ a ∉ sorted
  free : ∀ b, b ∈ sorted ∨ b ∈ todo ↔ b ∈ nodes ∧ ∀ a, ¬ rest a b
  order : sorted.Pairwise fun a b => ¬ edge a b

namespace Sorting

variable {edge rest : α → α → Prop} {nodes sorted todo : List α} {node : α}

/-- The next node is taken up, and its edges go; `add` are the nodes into which no edge is left. -/
theorem step (h : Sorting edge nodes rest sorted (node :: todo)) (hnodes : ∀ a b, edge a b → b ∈ nodes)
    {add : List α} (hnodup : add.Nodup)
    (hadd : ∀ b, b ∈ add ↔ rest node b ∧ ∀ a, a ≠ node → ¬ rest a b) :
    Sorting edge nodes (fun a b => rest a b ∧ a ≠ node) (node :: sorted) (todo ++ add) := by
  obtain ⟨hsorted, htodo, hdisj⟩ := List.nodup_append'.mp h.nodup
  obtain ⟨hnode, htodo⟩ := List.nodup_cons.mp htodo
  have hnot : node ∉ sorted := fun hmem => hdisj hmem List.mem_cons_self
  have hfree : ∀ b, b ∈ sorted ∨ b ∈ node :: todo → ∀ a, ¬ rest a b := fun b hb => ((h.free b).mp hb).2
  constructor
  · have hadd' : ∀ b ∈ add, b ∉ sorted ∧ b ≠ node ∧ b ∉ todo := by
      intro b hb
      have hrest := ((hadd b).mp hb).1
      refine ⟨fun hmem => hfree b (.inl hmem) node hrest, ?_, fun hmem =>
        hfree b (.inr (List.mem_cons_of_mem _ hmem)) node hrest⟩
      rintro rfl
      exact hfree b (.inr List.mem_cons_self) b hrest
    rw [List.cons_append, List.nodup_cons, List.nodup_append', List.nodup_append']
    refine ⟨?_, hsorted, ⟨htodo, hnodup, fun b hb hb' => (hadd' b hb').2.2 hb⟩, ?_⟩
    · rw [List.mem_append, List.mem_append]
      rintro (hmem | hmem | hmem)
      · exact hnot hmem
      · exact hnode hmem
      · exact (hadd' node hmem).2.1 rfl
    · intro b hb hb'
      rcases List.mem_append.mp hb' with hb' | hb'
      · exact hdisj hb (List.mem_cons_of_mem _ hb')
      · exact (hadd' b hb').1 hb
  · intro a b
    rw [h.rest_iff, List.mem_cons, not_or, and_assoc, and_comm (a := a ∉ sorted)]
  · intro b
    rw [List.mem_cons, List.mem_append]
    constructor
    · intro hb
      have hcases : (b ∈ sorted ∨ b ∈ node :: todo) ∨ b ∈ add := by
        rcases hb with (rfl | hb) | hb | hb
        · exact .inl (.inr List.mem_cons_self)
        · exact .inl (.inl hb)
        · exact .inl (.inr (List.mem_cons_of_mem _ hb))
        · exact .inr hb
      rcases hcases with hb | hb
      · exact ⟨((h.free b).mp hb).1, fun a ha => hfree b hb a ha.1⟩
      · obtain ⟨hrest, hall⟩ := (hadd b).mp hb
        exact ⟨hnodes node b ((h.rest_iff _ _).mp hrest).1, fun a ha => hall a ha.2 ha.1⟩
    · rintro ⟨hb, hall⟩
      by_cases hrest : rest node b
      · exact .inr (.inr ((hadd b).mpr ⟨hrest, fun a ha hab => hall a ⟨hab, ha⟩⟩))
      · have hnone : ∀ a, ¬ rest a b := fun a ha => by
          by_cases hane : a = node
          · exact hrest (hane ▸ ha)
          · exact hall a ⟨ha, hane⟩
        rcases (h.free b).mpr ⟨hb, hnone⟩ with hmem | hmem
        · exact .inl (.inr hmem)
        · rcases List.mem_cons.mp hmem with rfl | hmem
          · exact .inl (.inl rfl)
          · exact .inr (.inl hmem)
  · refine List.pairwise_cons.mpr ⟨fun b hb hedge => ?_, h.order⟩
    exact hfree b (.inl hb) node ((h.rest_iff _ _).mpr ⟨hedge, hnot⟩)

/-- When nothing is left to be taken up, an acyclic graph has been sorted as a whole. -/
theorem mem_iff (h : Sorting edge nodes rest sorted []) (hnodes : ∀ a b, edge a b → a ∈ nodes)
    (hacyclic : ∀ a, ¬ TransGen edge a a) (b : α) : b ∈ sorted ↔ b ∈ nodes := by
  refine ⟨fun hb => ((h.free b).mp (.inl hb)).1, fun hb => ?_⟩
  -- a node that is not in the list has an edge from another such node, and there is a first one
  let r : {a // a ∈ nodes} → {a // a ∈ nodes} → Prop := fun x y => TransGen edge x.1 y.1
  have : IsTrans _ r := ⟨fun _ _ _ => TransGen.trans⟩
  have : Std.Irrefl r := ⟨fun x => hacyclic x.1⟩
  have : Finite {a // a ∈ nodes} := (List.finite_toSet nodes).to_subtype
  have hwf : WellFounded r := Finite.wellFounded_of_trans_of_irrefl r
  suffices hall : ∀ x : {a // a ∈ nodes}, x.1 ∈ sorted from hall ⟨b, hb⟩
  intro x
  induction x using hwf.induction with
  | _ x ih =>
    have hnone : ∀ a, ¬ rest a x.1 := by
      intro a ha
      obtain ⟨hedge, hnot⟩ := (h.rest_iff _ _).mp ha
      exact hnot (ih ⟨a, hnodes a x.1 hedge⟩ (.single hedge))
    exact ((h.free x.1).mpr ⟨x.2, hnone⟩).resolve_right List.not_mem_nil

/-- Then no node is before one that can be reached from it. -/
theorem pairwise [DecidableEq α] (h : Sorting edge nodes rest sorted []) (hnodes : ∀ a b, edge a b → a ∈ nodes)
    (hacyclic : ∀ a, ¬ TransGen edge a a) : sorted.Pairwise fun a b => ¬ TransGen edge a b := by
  have hnodup : sorted.Nodup := by simpa using h.nodup
  have hmem : ∀ a b, edge a b → a ∈ sorted := fun a b hab => (h.mem_iff hnodes hacyclic a).mpr (hnodes a b hab)
  -- an edge goes to the front of the list, and so does a path
  have hedge : ∀ a b, edge a b → b ∈ sorted → sorted.idxOf b < sorted.idxOf a := by
    intro a b hab hb
    have ha := List.idxOf_lt_length_iff.mpr (hmem a b hab)
    have hb := List.idxOf_lt_length_iff.mpr hb
    rcases Nat.lt_trichotomy (sorted.idxOf a) (sorted.idxOf b) with hlt | heq | hgt
    · have hnot := List.pairwise_iff_getElem.mp h.order _ _ ha hb hlt
      rw [List.getElem_idxOf, List.getElem_idxOf] at hnot
      exact absurd hab hnot
    · have hsame : a = b := by
        rw [← List.getElem_idxOf ha, ← List.getElem_idxOf hb]
        simp only [heq]
      exact absurd (.single (hsame ▸ hab)) (hacyclic b)
    · exact hgt
  have hpath : ∀ a b, TransGen edge a b → b ∈ sorted → sorted.idxOf b < sorted.idxOf a := by
    intro a b hab
    induction hab with
    | single hab => exact hedge _ _ hab
    | tail _ hbc ih => exact fun hc => (hedge _ _ hbc hc).trans (ih (hmem _ _ hbc))
  refine List.pairwise_iff_getElem.mpr fun i j hi hj hij hab => ?_
  have hlt := hpath _ _ hab (List.getElem_mem hj)
  rw [hnodup.idxOf_getElem, hnodup.idxOf_getElem] at hlt
  exact absurd hij hlt.le.not_gt

end Sorting

end Digraph
