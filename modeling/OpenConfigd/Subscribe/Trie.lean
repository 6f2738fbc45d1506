import Mathlib.Algebra.Order.Ring.Nat
import Mathlib.Data.List.Infix
import Mathlib.Logic.Function.Basic

/-!
# The paths of subscriptions

`Path` of `subscribe.go` with its pointers: nodes with a name, a parent, a map to
the nodes below, a reference count and the subscriptions on them. `RegisterPath`
goes down from `RootPath`, makes the nodes that are missing and counts, and
`UnregisterPath` goes up the parents, counts down and unlinks the nodes that
reach zero. `Trie.Sound` says what the trie is for a list of live subscriptions:
one step down (`Sound.enter`) and one step up (`Sound.release`) keep it, with the
part of the path done so far as one more subscription.
-/

namespace OpenConfigd

/-- `Path`. A pointer is a number, `RootPath` is 0. -/
structure PathNode where
  name : String := ""
  parent : Option Nat := none
  map : String → Option Nat := fun _ => none
  refcnt : Nat := 0
  subPath : List Nat := []

/-- The nodes made so far. `underflow` records a `Refcnt` counted down at zero. -/
structure Trie where
  node : Nat → PathNode := fun _ => {}
  size : Nat := 1
  underflow : Bool := false

/-- A subscription: its number, the tokens it was registered with and its `path`. -/
structure Subscription where
  id : Nat
  path : List String
  node : Nat
  deriving DecidableEq, Repr

namespace Trie

/-- The trie with one node changed. -/
def modify (h : Trie) (p : Nat) (f : PathNode → PathNode) : Trie :=
  { h with node := Function.update h.node p (f (h.node p)) }

/-- `NewPath`, put into the map of its parent. -/
def newPath (h : Trie) (p : Nat) (t : String) : Trie :=
  let n := h.size
  { h with
    node := Function.update (Function.update h.node n { name := t, parent := some p }) p
      { h.node p with map := Function.update (h.node p).map t (some n) }
    size := n + 1 }

/-- `Refcnt++`, of 32 bits. -/
def count (h : Trie) (p : Nat) : Trie :=
  h.modify p fun x => { x with refcnt := (x.refcnt + 1) % 2 ^ 32 }

/-- One turn of the loop of `RegisterPath`. -/
def enter (h : Trie) (p : Nat) (t : String) : Trie × Nat :=
  match (h.node p).map t with
  | some q => (h.count q, q)
  | none => ((h.newPath p t).count h.size, h.size)

/-- The loop of `RegisterPath`. -/
def descend : Trie → Nat → List String → Trie × Nat
  | h, p, [] => (h, p)
  | h, p, t :: ts => (h.enter p t).1.descend (h.enter p t).2 ts

/-- `RegisterPath` of the subscription `id`. -/
def registerPath (h : Trie) (id : Nat) (ts : List String) : Trie × Nat :=
  let r := h.descend 0 ts
  (r.1.modify r.2 fun x => { x with subPath := x.subPath ++ [id] }, r.2)

/-- `Refcnt--`, of 32 bits. -/
def uncount (h : Trie) (p : Nat) : Trie :=
  { h.modify p fun x => { x with refcnt := (x.refcnt + 2 ^ 32 - 1) % 2 ^ 32 } with
    underflow := h.underflow || decide ((h.node p).refcnt = 0) }

/-- The node `p` taken out of the map of `q`. -/
def unlink (h : Trie) (p q : Nat) : Trie :=
  h.modify q fun x => { x with map := Function.update x.map (h.node p).name none }

/-- One turn of `UnregisterPath`, at a node `p` with the parent `q`. -/
def release (h : Trie) (p q : Nat) : Trie :=
  if ((h.uncount p).node p).refcnt = 0 then (h.uncount p).unlink p q else h.uncount p

/-- `UnregisterPath` of a node with at most `n` nodes above it. -/
def unregisterUp : Nat → Trie → Nat → Trie
  | 0, h, _ => h
  | n + 1, h, p =>
    match (h.node p).parent with
    | none => h
    | some q => unregisterUp n (h.release p q) q

/-- `UnregisterPath`. A node is made after its parent, so there are fewer nodes above
it than its number says. -/
def unregisterPath (h : Trie) (p : Nat) : Trie := unregisterUp p h p

/-- The node the tokens lead to from `p`. -/
def follow (h : Trie) : Nat → List String → Option Nat
  | p, [] => some p
  | p, t :: ts => ((h.node p).map t).bind fun q => h.follow q ts

/-- The node and the nodes above it, at most `n` of them. -/
def chainUp (h : Trie) : Nat → Nat → List Nat
  | 0, p => [p]
  | n + 1, p => p :: ((h.node p).parent.elim [] fun q => h.chainUp n q)

/-- The node and the nodes above it. -/
def chain (h : Trie) (p : Nat) : List Nat := h.chainUp p p

/-- The number of subscriptions whose path passes through or ends at a node. -/
def through (h : Trie) (live : List Subscription) (i : Nat) : Nat :=
  live.countP fun s => i ∈ h.chain s.node

/-! ## Fields -/

section

variable {h : Trie} {p q i : Nat} {t : String}

theorem node_modify (h : Trie) (p : Nat) (f : PathNode → PathNode) (i : Nat) :
    (h.modify p f).node i = if i = p then f (h.node i) else h.node i := by
  by_cases hi : i = p
  · subst hi
    rw [if_pos rfl]
    exact Function.update_self ..
  · rw [if_neg hi]
    exact Function.update_of_ne hi ..

theorem node_newPath (h : Trie) (hp : p ≠ h.size) (i : Nat) : (h.newPath p t).node i =
    if i = p then { h.node p with map := Function.update (h.node p).map t (some h.size) }
    else if i = h.size then { name := t, parent := some p } else h.node i := by
  by_cases hi : i = p
  · subst hi
    rw [if_pos rfl]
    exact Function.update_self ..
  · rw [if_neg hi]
    refine (Function.update_of_ne hi ..).trans ?_
    by_cases hn : i = h.size
    · subst hn
      rw [if_pos rfl]
      exact Function.update_self ..
    · rw [if_neg hn]
      exact Function.update_of_ne hn ..

section

variable (h : Trie) (f : PathNode → PathNode) (p i : Nat)

theorem parent_modify (hf : ∀ x, (f x).parent = x.parent) :
    ((h.modify p f).node i).parent = (h.node i).parent := by
  rw [node_modify]
  split
  · exact hf _
  · rfl

theorem map_modify (hf : ∀ x, (f x).map = x.map) :
    ((h.modify p f).node i).map = (h.node i).map := by
  rw [node_modify]
  split
  · exact hf _
  · rfl

theorem name_modify (hf : ∀ x, (f x).name = x.name) :
    ((h.modify p f).node i).name = (h.node i).name := by
  rw [node_modify]
  split
  · exact hf _
  · rfl

theorem parent_count : ((h.count p).node i).parent = (h.node i).parent :=
  parent_modify _ _ _ _ fun _ => rfl

theorem map_count : ((h.count p).node i).map = (h.node i).map :=
  map_modify _ _ _ _ fun _ => rfl

theorem name_count : ((h.count p).node i).name = (h.node i).name :=
  name_modify h _ p i fun _ => rfl

theorem refcnt_count : ((h.count p).node i).refcnt =
    if i = p then ((h.node i).refcnt + 1) % 2 ^ 32 else (h.node i).refcnt := by
  rw [count, node_modify]
  split <;> rfl

end

theorem follow_append (h : Trie) (p : Nat) (ts us : List String) :
    h.follow p (ts ++ us) = (h.follow p ts).bind fun q => h.follow q us := by
  induction ts generalizing p with
  | nil => rfl
  | cons t ts ih =>
    rw [List.cons_append, follow, follow, Option.bind_assoc]
    exact congrArg _ (funext ih)

theorem follow_snoc (h : Trie) (p : Nat) (ts : List String) (t : String) :
    h.follow p (ts ++ [t]) = (h.follow p ts).bind fun q => (h.node q).map t := by
  rw [follow_append]
  congr 1
  funext q
  rw [follow]
  cases (h.node q).map t <;> rfl

/-- Maps that keep their entries lead where they led. -/
theorem follow_mono {h' : Trie} (hm : ∀ p t q, (h.node p).map t = some q → (h'.node p).map t = some q)
    {ts : List String} (hf : h.follow p ts = some q) : h'.follow p ts = some q := by
  induction ts generalizing p with
  | nil => exact hf
  | cons t ts ih =>
    rw [follow] at hf ⊢
    obtain ⟨b, hb, hf⟩ := Option.bind_eq_some_iff.mp hf
    rw [hm p t b hb]
    exact ih hf

end

/-- Nodes are made after their parents. -/
def Ordered (h : Trie) : Prop := ∀ p q, (h.node p).parent = some q → q < p

section

variable {h h' : Trie} {p q i : Nat}

theorem Ordered.chainUp (ho : h.Ordered) (n m : Nat) (hn : p ≤ n) (hm : p ≤ m) :
    h.chainUp n p = h.chainUp m p := by
  have hzero (m : Nat) : h.chainUp m 0 = [0] := by
    cases m with
    | zero => rfl
    | succ m =>
      rw [Trie.chainUp]
      cases hq : (h.node 0).parent with
      | none => rfl
      | some q => exact absurd (ho 0 q hq) (Nat.not_lt_zero q)
  induction n generalizing p m with
  | zero =>
    obtain rfl : p = 0 := by omega
    rw [hzero, hzero]
  | succ n ih =>
    cases m with
    | zero =>
      obtain rfl : p = 0 := by omega
      rw [hzero, hzero]
    | succ m =>
      rw [Trie.chainUp, Trie.chainUp]
      cases hq : (h.node p).parent with
      | none => rfl
      | some q =>
        have := ho p q hq
        simp only [Option.elim_some, ih m (by omega : q ≤ n) (by omega)]

theorem chain_root (hp : (h.node p).parent = none) : h.chain p = [p] := by
  rw [chain]
  cases p with
  | zero => rfl
  | succ p => rw [Trie.chainUp, hp, Option.elim_none]

theorem Ordered.chain_cons (ho : h.Ordered) (hp : (h.node p).parent = some q) :
    h.chain p = p :: h.chain q := by
  have hlt := ho p q hp
  obtain ⟨n, rfl⟩ : ∃ n, p = n + 1 := ⟨p - 1, by omega⟩
  rw [chain, Trie.chainUp, hp, chain, Option.elim_some, ho.chainUp n q (by omega) le_rfl]

theorem Ordered.mem_chain_le (ho : h.Ordered) (hi : i ∈ h.chain p) : i ≤ p := by
  induction p using Nat.strongRecOn with
  | ind p ih =>
    cases hq : (h.node p).parent with
    | none =>
      rw [chain_root hq, List.mem_singleton] at hi
      exact hi.le
    | some q =>
      have hlt := ho p q hq
      rw [ho.chain_cons hq, List.mem_cons] at hi
      rcases hi with rfl | hi
      · exact le_rfl
      · have := ih q hlt hi
        omega

/-- A chain depends on the parents of the nodes up to its own. -/
theorem Ordered.chain_congr (ho : h.Ordered) (ho' : h'.Ordered)
    (hp : ∀ i ≤ p, (h'.node i).parent = (h.node i).parent) : h'.chain p = h.chain p := by
  induction p using Nat.strongRecOn with
  | ind p ih =>
    cases hq : (h.node p).parent with
    | none => rw [chain_root hq, chain_root ((hp p le_rfl).trans hq)]
    | some q =>
      have hlt := ho p q hq
      rw [ho.chain_cons hq, ho'.chain_cons ((hp p le_rfl).trans hq),
        ih q hlt fun i hi => hp i (by omega)]

theorem through_cons (s : Subscription) (live : List Subscription) (i : Nat) :
    h.through (s :: live) i = h.through live i + if i ∈ h.chain s.node then 1 else 0 := by
  simp only [through, List.countP_cons, decide_eq_true_eq]

theorem through_congr {live : List Subscription}
    (hc : ∀ s ∈ live, h'.chain s.node = h.chain s.node) (i : Nat) :
    h'.through live i = h.through live i :=
  List.countP_congr fun s hs => by rw [hc s hs]

theorem through_le (live : List Subscription) (i : Nat) : h.through live i ≤ live.length :=
  List.countP_le_length

theorem through_eq_zero {live : List Subscription} :
    h.through live i = 0 ↔ ∀ s ∈ live, i ∉ h.chain s.node := by
  rw [through, List.countP_eq_zero]
  simp only [decide_eq_true_eq]

end

/-! ## The trie of the live subscriptions -/

/-- The nodes made are a tree under `RootPath`, the others are blank, and a map leads
to a node that knows where it hangs. -/
structure Shaped (h : Trie) : Prop where
  pos : 0 < h.size
  blank : ∀ i, h.size ≤ i → h.node i = {}
  root : (h.node 0).parent = none
  ordered : h.Ordered
  made : ∀ i, 0 < i → i < h.size → (h.node i).parent.isSome
  down : ∀ p t q, (h.node p).map t = some q →
    (h.node q).parent = some p ∧ (h.node q).name = t ∧ q < h.size

/-- What the trie is for the live subscriptions. -/
structure Sound (h : Trie) (live : List Subscription) : Prop extends Shaped h where
  small : live.length < 2 ^ 32
  reach : ∀ s ∈ live, h.follow 0 s.path = some s.node
  refcnt : ∀ i, i ≠ 0 → (h.node i).refcnt = h.through live i
  linked : ∀ i p, (h.node i).parent = some p →
    ((h.node p).map (h.node i).name = some i ↔ 0 < h.through live i)
  underflow : h.underflow = false

section

variable {h h' : Trie} {p q i : Nat} {t : String}

theorem Shaped.lt_of_parent (hs : h.Shaped) (hp : (h.node p).parent = some q) : p < h.size := by
  by_contra hlt
  rw [hs.blank p (by omega)] at hp
  cases hp

theorem Shaped.lt_of_follow (hs : h.Shaped) {ts : List String} (hf : h.follow 0 ts = some p) :
    p < h.size := by
  rcases List.eq_nil_or_concat ts with rfl | ⟨us, u, rfl⟩
  · obtain rfl : 0 = p := Option.some.inj hf
    exact hs.pos
  · rw [List.concat_eq_append, follow_snoc] at hf
    obtain ⟨q, -, hq⟩ := Option.bind_eq_some_iff.mp hf
    exact (hs.down q u p hq).2.2

/-- Where a walk down ends, a walk up comes back. -/
theorem Shaped.follow_snoc_inv (hs : h.Shaped) {ts : List String}
    (hf : h.follow 0 (ts ++ [t]) = some p) :
    ∃ q, h.follow 0 ts = some q ∧ (h.node q).map t = some p ∧ (h.node p).parent = some q ∧
      (h.node p).name = t := by
  rw [follow_snoc] at hf
  obtain ⟨q, hq, hp⟩ := Option.bind_eq_some_iff.mp hf
  obtain ⟨hpar, hname, -⟩ := hs.down q t p hp
  exact ⟨q, hq, hp, hpar, hname⟩

/-- A walk that does not pass through a node does not need the entry that leads to it. -/
theorem Shaped.follow_unlink (hs : h.Shaped)
    (hm : ∀ a u b, (h.node a).map u = some b → b ≠ p → (h'.node a).map u = some b)
    {ts : List String} (hf : h.follow 0 ts = some q) (hp : p ∉ h.chain q) :
    h'.follow 0 ts = some q := by
  induction ts using List.reverseRecOn generalizing q with
  | nil => exact hf
  | append_singleton ts t ih =>
    obtain ⟨r, hr, hmap, hpar, -⟩ := hs.follow_snoc_inv hf
    rw [hs.ordered.chain_cons hpar, List.mem_cons, not_or] at hp
    rw [follow_snoc, ih hr hp.2]
    exact hm r t q hmap (Ne.symm hp.1)

/-- A change of a made node that keeps the pointers keeps the shape. -/
theorem Shaped.modify (hs : h.Shaped) {f : PathNode → PathNode} (hp : p < h.size)
    (hpar : ∀ x, (f x).parent = x.parent) (hmap : ∀ x, (f x).map = x.map)
    (hname : ∀ x, (f x).name = x.name) : (h.modify p f).Shaped where
  pos := hs.pos
  blank i hi := by
    have hi : h.size ≤ i := hi
    rw [node_modify, if_neg (by omega), hs.blank i hi]
  root := (parent_modify h f p 0 hpar).trans hs.root
  ordered a b hab := hs.ordered a b ((parent_modify h f p a hpar).symm.trans hab)
  made i h0 hi := by
    rw [parent_modify h f p i hpar]
    exact hs.made i h0 hi
  down a t b hab := by
    rw [map_modify h f p a hmap] at hab
    rw [parent_modify h f p b hpar, name_modify h f p b hname]
    exact hs.down a t b hab

section

variable {live : List Subscription} {id : Nat} {pre : List String}

/-- A change that keeps the pointers and the counts. -/
theorem Sound.modify (hs : h.Sound live) {f : PathNode → PathNode} (hp : p < h.size)
    (hpar : ∀ x, (f x).parent = x.parent) (hmap : ∀ x, (f x).map = x.map)
    (hname : ∀ x, (f x).name = x.name) (href : ∀ x, (f x).refcnt = x.refcnt) :
    (h.modify p f).Sound live := by
  have hshape := hs.toShaped.modify hp hpar hmap hname
  have hthrough (i : Nat) : (h.modify p f).through live i = h.through live i :=
    through_congr (fun s _ => hs.ordered.chain_congr hshape.ordered fun i _ =>
      parent_modify h f p i hpar) i
  refine ⟨hshape, hs.small, ?_, ?_, ?_, hs.underflow⟩
  · intro s hmem
    exact follow_mono (fun a u b hab => (congrFun (map_modify h f p a hmap) u).trans hab)
      (hs.reach s hmem)
  · intro i hi
    rw [hthrough, ← hs.refcnt i hi, node_modify]
    split
    · exact href _
    · rfl
  · intro i q hq
    rw [parent_modify h f p i hpar] at hq
    rw [hthrough, map_modify h f p q hmap, name_modify h f p i hname]
    exact hs.linked i q hq

/-- One token further to a node that is there: only its count changes. -/
theorem Sound.count (hs : h.Sound (⟨id, pre, p⟩ :: live)) (hq : (h.node p).map t = some q) :
    (h.count q).Sound (⟨id, pre ++ [t], q⟩ :: live) := by
  have hreach : h.follow 0 pre = some p := hs.reach _ List.mem_cons_self
  obtain ⟨hpar, hname, hqlt⟩ := hs.down p t q hq
  have hshape : (h.count q).Shaped :=
    hs.toShaped.modify hqlt (fun _ => rfl) (fun _ => rfl) fun _ => rfl
  have hchain (j : Nat) : (h.count q).chain j = h.chain j :=
    hs.ordered.chain_congr hshape.ordered fun i _ => parent_count h q i
  have hpq := hs.ordered q p hpar
  have hnot : q ∉ h.chain p := fun hc => absurd (hs.ordered.mem_chain_le hc) (by omega)
  have hthrough (i : Nat) : (h.count q).through (⟨id, pre ++ [t], q⟩ :: live) i =
      h.through (⟨id, pre, p⟩ :: live) i + if i = q then 1 else 0 := by
    rw [through_cons, through_cons, through_congr (fun s _ => hchain s.node), hchain,
      hs.ordered.chain_cons hpar]
    by_cases hi : i = q
    · subst hi
      rw [if_pos List.mem_cons_self, if_neg hnot, if_pos rfl]
    · simp only [List.mem_cons, hi, false_or, if_false]
      rfl
  have hfollow (ts : List String) (r : Nat) (hf : h.follow 0 ts = some r) :
      (h.count q).follow 0 ts = some r :=
    follow_mono (fun a u b hab => (congrFun (map_count h q a) u).trans hab) hf
  refine ⟨hshape, hs.small, ?_, ?_, ?_, hs.underflow⟩
  · intro s hmem
    rcases List.mem_cons.mp hmem with rfl | hmem
    · refine hfollow _ _ ?_
      rw [follow_snoc, hreach]
      exact hq
    · exact hfollow _ _ (hs.reach s (List.mem_cons_of_mem _ hmem))
  · intro i hi
    rw [refcnt_count, hthrough, hs.refcnt i hi]
    split
    · next heq =>
      subst heq
      have := through_le (h := h) live i
      have := hs.small
      rw [List.length_cons] at this
      rw [through_cons, if_neg hnot, Nat.mod_eq_of_lt (by omega)]
    · rfl
  · intro i r hr
    rw [parent_count] at hr
    rw [map_count, name_count, hthrough, hs.linked i r hr]
    by_cases hi : i = q
    · subst hi
      obtain rfl : r = p := Option.some.inj (hr.symm.trans hpar)
      rw [← hs.linked i r hr, hname, hq, if_pos rfl]
      simp
    · rw [if_neg hi, Nat.add_zero]

theorem parent_newPath (hp : p < h.size) (i : Nat) : ((h.newPath p t).node i).parent =
    if i = h.size then some p else (h.node i).parent := by
  rw [node_newPath h hp.ne]
  by_cases hi : i = p
  · rw [if_pos hi, if_neg (by omega), hi]
  · rw [if_neg hi]
    split <;> rfl

theorem name_newPath (hp : p < h.size) (i : Nat) : ((h.newPath p t).node i).name =
    if i = h.size then t else (h.node i).name := by
  rw [node_newPath h hp.ne]
  by_cases hi : i = p
  · rw [if_pos hi, if_neg (by omega), hi]
  · rw [if_neg hi]
    split <;> rfl

theorem Shaped.refcnt_newPath (hs : h.Shaped) (hp : p < h.size) (i : Nat) :
    ((h.newPath p t).node i).refcnt = (h.node i).refcnt := by
  rw [node_newPath h hp.ne]
  split
  · next hi => rw [hi]
  · split
    · next hi => rw [hi, hs.blank h.size le_rfl]
    · rfl

theorem Shaped.map_newPath (hs : h.Shaped) (hp : p < h.size) (i : Nat) (u : String) :
    ((h.newPath p t).node i).map u =
      if i = p ∧ u = t then some h.size else (h.node i).map u := by
  rw [node_newPath h hp.ne]
  by_cases hi : i = p
  · subst hi
    rw [if_pos rfl]
    show Function.update (h.node i).map t (some h.size) u = _
    rw [Function.update_apply]
    simp only [true_and]
  · rw [if_neg hi, if_neg (fun hc : i = p ∧ u = t => hi hc.1)]
    split
    · next hn => rw [hn, hs.blank h.size le_rfl]
    · rfl

theorem Shaped.newPath (hs : h.Shaped) (hp : p < h.size) (t : String) :
    (h.newPath p t).Shaped := by
  have hpos := hs.pos
  refine ⟨Nat.succ_pos _, ?_, ?_, ?_, ?_, ?_⟩
  · intro i hi
    have hi : h.size + 1 ≤ i := hi
    rw [node_newPath h hp.ne, if_neg (by omega), if_neg (by omega), hs.blank i (by omega)]
  · rw [parent_newPath hp, if_neg (by omega)]
    exact hs.root
  · intro a b hab
    rw [parent_newPath hp] at hab
    split at hab
    · cases hab
      omega
    · exact hs.ordered a b hab
  · intro i h0 hi
    have hi : i < h.size + 1 := hi
    rw [parent_newPath hp]
    split
    · rfl
    · exact hs.made i h0 (by omega)
  · intro a u b hab
    rw [hs.map_newPath hp] at hab
    rw [parent_newPath hp, name_newPath hp]
    show _ ∧ _ ∧ b < h.size + 1
    split at hab
    · next hau =>
      obtain rfl : h.size = b := Option.some.inj hab
      rw [if_pos rfl, if_pos rfl]
      exact ⟨congrArg some hau.1.symm, hau.2.symm, by omega⟩
    · obtain ⟨hpar, hname, hb⟩ := hs.down a u b hab
      rw [if_neg (by omega), if_neg (by omega)]
      exact ⟨hpar, hname, by omega⟩

/-- One token further to a node that is made for it. -/
theorem Sound.newPath (hs : h.Sound (⟨id, pre, p⟩ :: live)) (hq : (h.node p).map t = none) :
    ((h.newPath p t).count h.size).Sound (⟨id, pre ++ [t], h.size⟩ :: live) := by
  have hreach : h.follow 0 pre = some p := hs.reach _ List.mem_cons_self
  have hp := hs.lt_of_follow hreach
  have hsn := hs.toShaped.newPath hp t
  have hshape : ((h.newPath p t).count h.size).Shaped :=
    hsn.modify (Nat.lt_succ_self h.size) (fun _ => rfl) (fun _ => rfl) fun _ => rfl
  have hparent (i : Nat) : (((h.newPath p t).count h.size).node i).parent =
      if i = h.size then some p else (h.node i).parent :=
    (parent_count _ _ _).trans (parent_newPath hp i)
  have hname (i : Nat) : (((h.newPath p t).count h.size).node i).name =
      if i = h.size then t else (h.node i).name :=
    (name_count _ _ _).trans (name_newPath hp i)
  have hmap (i : Nat) (u : String) : (((h.newPath p t).count h.size).node i).map u =
      if i = p ∧ u = t then some h.size else (h.node i).map u :=
    (congrFun (map_count _ _ _) u).trans (hs.map_newPath hp i u)
  have hchain (j : Nat) (hj : j < h.size) : ((h.newPath p t).count h.size).chain j = h.chain j :=
    hs.ordered.chain_congr hshape.ordered fun i hi => by
      rw [hparent, if_neg (by omega)]
  have hlast : ((h.newPath p t).count h.size).chain h.size = h.size :: h.chain p := by
    rw [hshape.ordered.chain_cons ((hparent h.size).trans (if_pos rfl)), hchain p hp]
  have hlt (s : Subscription) (hmem : s ∈ live) : s.node < h.size :=
    hs.lt_of_follow (hs.reach s (List.mem_cons_of_mem _ hmem))
  have hfresh : h.through live h.size = 0 :=
    through_eq_zero.mpr fun s hmem hc =>
      absurd (hs.ordered.mem_chain_le hc) (by have := hlt s hmem; omega)
  have hnot : h.size ∉ h.chain p := fun hc => absurd (hs.ordered.mem_chain_le hc) (by omega)
  have hthrough (i : Nat) :
      ((h.newPath p t).count h.size).through (⟨id, pre ++ [t], h.size⟩ :: live) i =
        h.through (⟨id, pre, p⟩ :: live) i + if i = h.size then 1 else 0 := by
    rw [through_cons, through_cons, through_congr fun s hmem => hchain s.node (hlt s hmem), hlast]
    by_cases hi : i = h.size
    · subst hi
      rw [if_pos List.mem_cons_self, if_neg hnot, if_pos rfl]
    · simp only [List.mem_cons, hi, false_or, if_false]
      rfl
  have hzero : h.through (⟨id, pre, p⟩ :: live) h.size = 0 := by
    rw [through_cons, hfresh, if_neg hnot]
  have hfollow (ts : List String) (r : Nat) (hf : h.follow 0 ts = some r) :
      ((h.newPath p t).count h.size).follow 0 ts = some r :=
    follow_mono (fun a u b hab => by
      rw [hmap, if_neg]
      · exact hab
      · rintro ⟨rfl, rfl⟩
        rw [hq] at hab
        cases hab) hf
  refine ⟨hshape, hs.small, ?_, ?_, ?_, hs.underflow⟩
  · intro s hmem
    rcases List.mem_cons.mp hmem with rfl | hmem
    · rw [follow_snoc, hfollow _ _ hreach]
      exact (hmap p t).trans (if_pos ⟨rfl, rfl⟩)
    · exact hfollow _ _ (hs.reach s (List.mem_cons_of_mem _ hmem))
  · intro i hi
    rw [refcnt_count, hthrough, hs.refcnt_newPath hp, hs.refcnt i hi]
    split
    · next heq =>
      subst heq
      simp [hzero]
    · rfl
  · intro i r hr
    rw [hparent] at hr
    rw [hmap, hname, hthrough]
    by_cases hi : i = h.size
    · subst hi
      rw [if_pos rfl] at hr
      obtain rfl : p = r := Option.some.inj hr
      simp
    · rw [if_neg hi] at hr
      rw [if_neg hi, if_neg hi, Nat.add_zero, ← hs.linked i r hr]
      split
      · next hrt =>
        obtain ⟨rfl, ht⟩ := hrt
        rw [ht, hq]
        simp only [Option.some.injEq, reduceCtorEq, iff_false]
        exact fun hc => hi hc.symm
      · rfl

theorem Sound.enter (hs : h.Sound (⟨id, pre, p⟩ :: live)) (t : String) :
    (h.enter p t).1.Sound (⟨id, pre ++ [t], (h.enter p t).2⟩ :: live) := by
  cases hq : (h.node p).map t with
  | some q =>
    have : h.enter p t = (h.count q, q) := by rw [Trie.enter, hq]
    rw [this]
    exact hs.count hq
  | none =>
    have : h.enter p t = ((h.newPath p t).count h.size, h.size) := by rw [Trie.enter, hq]
    rw [this]
    exact hs.newPath hq

/-- The loop of `RegisterPath`. -/
theorem Sound.descend (hs : h.Sound (⟨id, pre, p⟩ :: live)) (ts : List String) :
    (h.descend p ts).1.Sound (⟨id, pre ++ ts, (h.descend p ts).2⟩ :: live) := by
  induction ts generalizing h p pre with
  | nil =>
    rw [List.append_nil]
    exact hs
  | cons t ts ih =>
    have := ih (hs.enter t)
    rw [List.append_assoc, List.singleton_append] at this
    exact this

/-- The counts are all that the trie keeps of the live subscriptions. -/
theorem Sound.congr {live' : List Subscription} (hs : h.Sound live) (hlen : live'.length < 2 ^ 32)
    (hreach : ∀ s ∈ live', h.follow 0 s.path = some s.node)
    (hthrough : ∀ i, i ≠ 0 → h.through live' i = h.through live i) : h.Sound live' := by
  refine ⟨hs.toShaped, hlen, hreach, ?_, ?_, hs.underflow⟩
  · intro i hi
    rw [hthrough i hi]
    exact hs.refcnt i hi
  · intro i q hq
    have hlt := hs.ordered i q hq
    rw [hthrough i (by omega)]
    exact hs.linked i q hq

theorem Shaped.through_root (hs : h.Shaped) (hi : i ≠ 0) :
    h.through (⟨id, pre, 0⟩ :: live) i = h.through live i := by
  rw [through_cons, chain_root hs.root, if_neg (by simpa using hi), Nat.add_zero]

/-- `RootPath` is on the way of no token. -/
theorem Sound.cons_root (hs : h.Sound live) (id : Nat) (hlen : live.length + 1 < 2 ^ 32) :
    h.Sound (⟨id, [], 0⟩ :: live) := by
  refine hs.congr hlen ?_ fun i hi => hs.through_root hi
  intro s hmem
  rcases List.mem_cons.mp hmem with rfl | hmem
  · rfl
  · exact hs.reach s hmem

theorem Sound.of_cons_root (hs : h.Sound (⟨id, pre, 0⟩ :: live)) : h.Sound live := by
  have hlen := hs.small
  rw [List.length_cons] at hlen
  exact hs.congr (by omega) (fun s hmem => hs.reach s (List.mem_cons_of_mem _ hmem))
    fun i hi => (hs.through_root hi).symm

theorem Sound.perm {live' : List Subscription} (hs : h.Sound live) (hp : live.Perm live') :
    h.Sound live' :=
  hs.congr (hp.length_eq ▸ hs.small) (fun s hmem => hs.reach s (hp.mem_iff.mpr hmem))
    fun _ _ => (hp.countP_eq _).symm

/-- `RegisterPath`. -/
theorem Sound.registerPath (hs : h.Sound live) (id : Nat) (ts : List String)
    (hlen : live.length + 1 < 2 ^ 32) :
    (h.registerPath id ts).1.Sound (⟨id, ts, (h.registerPath id ts).2⟩ :: live) := by
  have hd := (hs.cons_root id hlen).descend ts
  rw [List.nil_append] at hd
  have hlt := hd.lt_of_follow (hd.reach _ List.mem_cons_self)
  exact hd.modify (f := fun x => { x with subPath := x.subPath ++ [id] }) hlt (fun _ => rfl)
    (fun _ => rfl) (fun _ => rfl) fun _ => rfl

/-! ## `UnregisterPath` -/

theorem node_uncount (p i : Nat) : (h.uncount p).node i =
    if i = p then { h.node i with refcnt := ((h.node i).refcnt + 2 ^ 32 - 1) % 2 ^ 32 }
    else h.node i :=
  node_modify h p (fun x => { x with refcnt := (x.refcnt + 2 ^ 32 - 1) % 2 ^ 32 }) i

theorem node_unlink (p q i : Nat) : (h.unlink p q).node i =
    if i = q then { h.node i with map := Function.update (h.node i).map (h.node p).name none }
    else h.node i := node_modify h q _ i

theorem parent_release (p q i : Nat) : ((h.release p q).node i).parent = (h.node i).parent := by
  have hu : ((h.uncount p).node i).parent = (h.node i).parent := by
    rw [node_uncount]
    split <;> rfl
  rw [release]
  split
  · rw [node_unlink, ← hu]
    split <;> rfl
  · exact hu

theorem name_release (p q i : Nat) : ((h.release p q).node i).name = (h.node i).name := by
  have hu : ((h.uncount p).node i).name = (h.node i).name := by
    rw [node_uncount]
    split <;> rfl
  rw [release]
  split
  · rw [node_unlink, ← hu]
    split <;> rfl
  · exact hu

theorem refcnt_release (p q i : Nat) : ((h.release p q).node i).refcnt =
    if i = p then ((h.node i).refcnt + 2 ^ 32 - 1) % 2 ^ 32 else (h.node i).refcnt := by
  have hu : ((h.uncount p).node i).refcnt =
      if i = p then ((h.node i).refcnt + 2 ^ 32 - 1) % 2 ^ 32 else (h.node i).refcnt := by
    rw [node_uncount]
    split <;> rfl
  rw [release]
  split
  · rw [node_unlink, ← hu]
    split <;> rfl
  · exact hu

theorem map_release (p q i : Nat) (u : String) : ((h.release p q).node i).map u =
    if i = q ∧ u = (h.node p).name ∧ ((h.node p).refcnt + 2 ^ 32 - 1) % 2 ^ 32 = 0 then none
    else (h.node i).map u := by
  have hu (i : Nat) : ((h.uncount p).node i).map = (h.node i).map := by
    rw [node_uncount]
    split <;> rfl
  have hr : ((h.uncount p).node p).refcnt = ((h.node p).refcnt + 2 ^ 32 - 1) % 2 ^ 32 := by
    rw [node_uncount, if_pos rfl]
  have hn : ((h.uncount p).node p).name = (h.node p).name := by
    rw [node_uncount, if_pos rfl]
  rw [release, hr]
  split
  · next hz =>
    rw [node_unlink, hn]
    by_cases hi : i = q
    · rw [if_pos hi]
      simp only [hi, hz, hu, Function.update_apply, true_and, and_true]
    · rw [if_neg hi, hu, if_neg fun hc => hi hc.1]
  · next hz => rw [hu, if_neg fun hc => hz hc.2.2]

theorem size_release (p q : Nat) : (h.release p q).size = h.size := by
  rw [release]
  split <;> rfl

theorem underflow_release (p q : Nat) : (h.release p q).underflow =
    (h.underflow || decide ((h.node p).refcnt = 0)) := by
  rw [release]
  split <;> rfl

theorem Shaped.release (hs : h.Shaped) (hpar : (h.node p).parent = some q) :
    (h.release p q).Shaped := by
  have hp := hs.lt_of_parent hpar
  have hq := hs.ordered p q hpar
  refine ⟨(size_release p q).symm ▸ hs.pos, ?_, ?_, ?_, ?_, ?_⟩
  · intro i hi
    rw [size_release] at hi
    have hu : (h.uncount p).node i = {} := by
      rw [node_uncount, if_neg (by omega), hs.blank i hi]
    rw [Trie.release]
    split
    · rw [node_unlink, if_neg (by omega), hu]
    · exact hu
  · rw [parent_release]
    exact hs.root
  · intro a b hab
    rw [parent_release] at hab
    exact hs.ordered a b hab
  · intro i h0 hi
    rw [size_release] at hi
    rw [parent_release]
    exact hs.made i h0 hi
  · intro a u b hab
    rw [map_release] at hab
    rw [parent_release, name_release, size_release]
    split at hab
    · cases hab
    · exact hs.down a u b hab

/-- One token back. -/
theorem Sound.release (hs : h.Sound (⟨id, pre ++ [t], p⟩ :: live))
    (hpar : (h.node p).parent = some q) : (h.release p q).Sound (⟨id, pre, q⟩ :: live) := by
  obtain ⟨r, hreach, hmap, hr, hname⟩ := hs.follow_snoc_inv (hs.reach _ List.mem_cons_self)
  obtain rfl : r = q := Option.some.inj (hr.symm.trans hpar)
  have hlt := hs.ordered p r hpar
  have hshape := hs.toShaped.release hpar
  have hchain (j : Nat) : (h.release p r).chain j = h.chain j :=
    hs.ordered.chain_congr hshape.ordered fun i _ => parent_release p r i
  have hnot : p ∉ h.chain r := fun hc => absurd (hs.ordered.mem_chain_le hc) (by omega)
  -- what the count of `p` was and is
  have hcount : (h.node p).refcnt = h.through live p + 1 := by
    rw [hs.refcnt p (by omega), through_cons, hs.ordered.chain_cons hpar,
      if_pos List.mem_cons_self]
  have hsmall := hs.small
  have hle := through_le (h := h) live p
  rw [List.length_cons] at hsmall
  have hdec : ((h.node p).refcnt + 2 ^ 32 - 1) % 2 ^ 32 = h.through live p := by omega
  have hthrough (i : Nat) : (h.release p r).through (⟨id, pre, r⟩ :: live) i =
      if i = p then h.through live p else h.through (⟨id, pre ++ [t], p⟩ :: live) i := by
    rw [through_cons, through_cons, through_congr (fun s _ => hchain s.node), hchain,
      hs.ordered.chain_cons hpar]
    by_cases hi : i = p
    · subst hi
      rw [if_neg hnot, if_pos rfl]
      rfl
    · simp only [List.mem_cons, hi, false_or, if_false]
  have hkeep (a : Nat) (u : String) (b : Nat) (hab : (h.node a).map u = some b) (hb : b ≠ p) :
      ((h.release p r).node a).map u = some b := by
    rw [map_release, if_neg]
    · exact hab
    · rintro ⟨rfl, rfl, -⟩
      rw [hname, hmap] at hab
      exact hb (Option.some.inj hab).symm
  refine ⟨hshape, hsmall, ?_, ?_, ?_, ?_⟩
  · intro s hmem
    rcases List.mem_cons.mp hmem with rfl | hmem
    · exact hs.follow_unlink hkeep hreach hnot
    · have hf := hs.reach s (List.mem_cons_of_mem _ hmem)
      by_cases hz : h.through live p = 0
      · exact hs.follow_unlink hkeep hf (through_eq_zero.mp hz s hmem)
      · refine follow_mono (fun a u b hab => ?_) hf
        rw [map_release, if_neg]
        · exact hab
        · rw [hdec]
          exact fun hc => hz hc.2.2
  · intro i hi
    rw [refcnt_release, hthrough]
    split
    · next heq => rw [heq, hdec]
    · exact hs.refcnt i hi
  · intro i a ha
    rw [parent_release] at ha
    rw [map_release, name_release, hthrough, hdec]
    by_cases hi : i = p
    · subst hi
      obtain rfl : a = r := Option.some.inj (ha.symm.trans hpar)
      rw [if_pos rfl]
      split
      · next hz => simp [hz.2.2]
      · next hz =>
        simp only [true_and] at hz
        simp only [hname, hmap, true_iff]
        exact Nat.pos_of_ne_zero hz
    · rw [if_neg hi, ← hs.linked i a ha]
      split
      · next hz =>
        obtain ⟨rfl, hn, -⟩ := hz
        rw [hn, hname, hmap]
        simp only [Option.some.injEq, reduceCtorEq, false_iff]
        exact fun hc => hi hc.symm
      · rfl
  · rw [underflow_release, hs.underflow, hcount]
    rfl

/-- The recursion of `UnregisterPath`. -/
theorem Sound.unregisterUp (n : Nat) (hs : h.Sound (⟨id, pre, p⟩ :: live)) (hn : p ≤ n) :
    (unregisterUp n h p).Sound live := by
  induction n generalizing h p pre with
  | zero =>
    obtain rfl : p = 0 := by omega
    exact hs.of_cons_root
  | succ n ih =>
    have hreach : h.follow 0 pre = some p := hs.reach _ List.mem_cons_self
    rw [Trie.unregisterUp]
    cases hq : (h.node p).parent with
    | none =>
      have hp : p = 0 := by
        by_contra h0
        have := hs.made p (by omega) (hs.lt_of_follow hreach)
        rw [hq] at this
        cases this
      subst hp
      exact hs.of_cons_root
    | some q =>
      have hlt := hs.ordered p q hq
      rcases List.eq_nil_or_concat pre with rfl | ⟨us, u, rfl⟩
      · obtain rfl : 0 = p := Option.some.inj hreach
        omega
      · rw [List.concat_eq_append] at hs
        exact ih (hs.release hq) (by omega)

theorem Sound.unregisterPath (hs : h.Sound (⟨id, pre, p⟩ :: live)) :
    (h.unregisterPath p).Sound live := hs.unregisterUp p le_rfl

/-! ## Paths and nodes -/

/-- A node hangs in one place. -/
theorem Shaped.follow_inj (hs : h.Shaped) {ts us : List String} (ht : h.follow 0 ts = some p)
    (hu : h.follow 0 us = some p) : ts = us := by
  have hroot (ts : List String) (t : String) (hf : h.follow 0 (ts ++ [t]) = some 0) : False := by
    obtain ⟨q, -, -, hq, -⟩ := hs.follow_snoc_inv hf
    rw [hs.root] at hq
    cases hq
  induction ts using List.reverseRecOn generalizing us p with
  | nil =>
    obtain rfl : 0 = p := Option.some.inj ht
    rcases List.eq_nil_or_concat us with rfl | ⟨us, u, rfl⟩
    · rfl
    · rw [List.concat_eq_append] at hu
      exact (hroot us u hu).elim
  | append_singleton ts t ih =>
    obtain ⟨q, hq, -, hpar, hname⟩ := hs.follow_snoc_inv ht
    rcases List.eq_nil_or_concat us with rfl | ⟨us, u, rfl⟩
    · obtain rfl : 0 = p := Option.some.inj hu
      exact (hroot ts t ht).elim
    · rw [List.concat_eq_append] at hu ⊢
      obtain ⟨r, hr, -, hpar', hname'⟩ := hs.follow_snoc_inv hu
      obtain rfl : q = r := Option.some.inj (hpar.symm.trans hpar')
      rw [ih hq hr, ← hname, ← hname']

/-- The nodes above a node are those on the way to it. -/
theorem Shaped.mem_chain (hs : h.Shaped) {ts : List String} (ht : h.follow 0 ts = some p) :
    i ∈ h.chain p ↔ ∃ us, us <+: ts ∧ h.follow 0 us = some i := by
  induction ts using List.reverseRecOn generalizing p with
  | nil =>
    obtain rfl : 0 = p := Option.some.inj ht
    rw [chain_root hs.root, List.mem_singleton]
    constructor
    · rintro rfl
      exact ⟨[], List.prefix_rfl, rfl⟩
    · rintro ⟨us, hus, hf⟩
      obtain rfl := List.prefix_nil.mp hus
      exact (Option.some.inj hf).symm
  | append_singleton ts t ih =>
    obtain ⟨q, hq, -, hpar, -⟩ := hs.follow_snoc_inv ht
    rw [hs.ordered.chain_cons hpar, List.mem_cons, ih hq]
    constructor
    · rintro (rfl | ⟨us, hus, hf⟩)
      · exact ⟨_, List.prefix_rfl, ht⟩
      · exact ⟨us, hus.trans (List.prefix_append _ _), hf⟩
    · rintro ⟨us, hus, hf⟩
      rcases List.prefix_concat_iff.mp hus with rfl | hus
      · exact .inl (Option.some.inj (hf.symm.trans ht))
      · exact .inr ⟨us, hus, hf⟩

theorem Sound.through_pos (hs : h.Sound live) :
    0 < h.through live i ↔ ∃ s ∈ live, ∃ us, us <+: s.path ∧ h.follow 0 us = some i := by
  rw [through, List.countP_pos_iff]
  simp only [decide_eq_true_eq]
  exact exists_congr fun s => and_congr_right fun hmem => hs.mem_chain (hs.reach s hmem)

/-- The nodes under `RootPath` are those on the paths of the live subscriptions. -/
theorem Sound.follow_isSome (hs : h.Sound live) {ts : List String} (hts : ts ≠ []) :
    (h.follow 0 ts).isSome ↔ ∃ s ∈ live, ts <+: s.path := by
  constructor
  · intro hf
    obtain ⟨p, hp⟩ := Option.isSome_iff_exists.mp hf
    obtain ⟨us, u, rfl⟩ := (List.eq_nil_or_concat ts).resolve_left hts
    rw [List.concat_eq_append] at hp ⊢
    obtain ⟨q, -, hmap, hpar, hname⟩ := hs.follow_snoc_inv hp
    have hpos : 0 < h.through live p := by
      rw [← hs.linked p q hpar, hname]
      exact hmap
    obtain ⟨s, hmem, vs, hvs, hv⟩ := hs.through_pos.mp hpos
    rw [hs.follow_inj hp hv]
    exact ⟨s, hmem, hvs⟩
  · rintro ⟨s, hmem, us, hus⟩
    have hf := hs.reach s hmem
    rw [← hus, follow_append] at hf
    obtain ⟨q, hq, -⟩ := Option.bind_eq_some_iff.mp hf
    rw [hq]
    rfl

/-- `RegisterPath` links no node that was made before. -/
theorem Sound.map_of_descend (hs : h.Sound (⟨id, pre, p⟩ :: live)) (ts : List String)
    (hi : i < h.size) (hm : ((h.descend p ts).1.node q).map t = some i) :
    (h.node q).map t = some i := by
  induction ts generalizing h p pre with
  | nil => exact hm
  | cons u ts ih =>
    have hp := hs.lt_of_follow (hs.reach _ List.mem_cons_self)
    rw [Trie.descend] at hm
    have hs' := hs.enter u
    cases hr : (h.node p).map u with
    | some r =>
      have he : h.enter p u = (h.count r, r) := by rw [Trie.enter, hr]
      rw [he] at hs' hm
      have := ih hs' hi hm
      rw [map_count] at this
      exact this
    | none =>
      have he : h.enter p u = ((h.newPath p u).count h.size, h.size) := by rw [Trie.enter, hr]
      rw [he] at hs' hm
      have hlt : i < ((h.newPath p u).count h.size).size := Nat.lt_succ_of_lt hi
      have := ih hs' hlt hm
      rw [map_count, hs.map_newPath hp] at this
      split at this
      · have := Option.some.inj this
        omega
      · exact this

theorem Sound.follow_of_registerPath (hs : h.Sound live) (hlen : live.length + 1 < 2 ^ 32)
    {ts us : List String} (hi : i < h.size) (hu : (h.registerPath id ts).1.follow 0 us = some i) :
    h.follow 0 us = some i := by
  have hr := hs.registerPath id ts hlen
  induction us using List.reverseRecOn generalizing i with
  | nil => exact hu
  | append_singleton us u ih =>
    obtain ⟨q, hq, hmap, hpar, -⟩ := hr.follow_snoc_inv hu
    have hlt := hr.ordered i q hpar
    rw [follow_snoc, ih (by omega) hq]
    refine (hs.cons_root id hlen).map_of_descend ts hi ?_
    have hkeep := map_modify (h.descend 0 ts).1
      (fun x => { x with subPath := x.subPath ++ [id] }) (h.descend 0 ts).2 q fun _ => rfl
    exact (congrFun hkeep u).symm.trans hmap

theorem size_enter (h : Trie) (p : Nat) (t : String) : h.size ≤ (h.enter p t).1.size := by
  rw [enter]
  split
  · exact le_rfl
  · exact Nat.le_succ _

theorem size_registerPath (h : Trie) (id : Nat) (ts : List String) :
    h.size ≤ (h.registerPath id ts).1.size := by
  have hd (ts : List String) (h : Trie) (p : Nat) : h.size ≤ (h.descend p ts).1.size := by
    induction ts generalizing h p with
    | nil => exact le_rfl
    | cons t ts ih => exact (size_enter h p t).trans (ih _ _)
  exact hd ts h 0

/-! ## The subscriptions on a node -/

/-- Going down changes the subscriptions of no node. -/
theorem Sound.subPath_descend (hs : h.Sound (⟨id, pre, p⟩ :: live)) (ts : List String) (i : Nat) :
    ((h.descend p ts).1.node i).subPath = (h.node i).subPath := by
  induction ts generalizing h p pre with
  | nil => rfl
  | cons t ts ih =>
    have hp := hs.lt_of_follow (hs.reach _ List.mem_cons_self)
    refine (ih (hs.enter t)).trans ?_
    have hcount (h : Trie) (q : Nat) : ((h.count q).node i).subPath = (h.node i).subPath := by
      rw [Trie.count, node_modify]
      split <;> rfl
    rw [Trie.enter]
    split
    · exact hcount h _
    · rw [hcount, node_newPath h hp.ne]
      split
      · next hi => rw [hi]
      · split
        · next hi => rw [hi, hs.blank h.size le_rfl]
        · rfl

theorem Sound.subPath_registerPath (hs : h.Sound live) (hlen : live.length + 1 < 2 ^ 32)
    (id : Nat) (ts : List String) (i : Nat) : ((h.registerPath id ts).1.node i).subPath =
      if i = (h.registerPath id ts).2 then (h.node i).subPath ++ [id] else (h.node i).subPath := by
  have hd := (hs.cons_root id hlen).subPath_descend ts i
  rw [Trie.registerPath, node_modify]
  split
  · exact congrArg (· ++ [id]) hd
  · exact hd

theorem subPath_unregisterPath (h : Trie) (p i : Nat) :
    ((h.unregisterPath p).node i).subPath = (h.node i).subPath := by
  have hrelease (h : Trie) (p q : Nat) :
      ((h.release p q).node i).subPath = (h.node i).subPath := by
    have hu : ((h.uncount p).node i).subPath = (h.node i).subPath := by
      rw [node_uncount]
      split <;> rfl
    rw [Trie.release]
    split
    · rw [node_unlink, ← hu]
      split <;> rfl
    · exact hu
  have hup (n : Nat) (h : Trie) (p : Nat) :
      ((Trie.unregisterUp n h p).node i).subPath = (h.node i).subPath := by
    induction n generalizing h p with
    | zero => rfl
    | succ n ih =>
      rw [Trie.unregisterUp]
      split
      · rfl
      · exact (ih _ _).trans (hrelease h p _)
  exact hup p h p

end

end

end Trie

end OpenConfigd
