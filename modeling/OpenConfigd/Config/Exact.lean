import OpenConfigd.Config.Built
import OpenConfigd.Config.Target

/-!
# What a path removes

`Cut` is the tree without a node and without what is empty then, up to the first node that is not.

* `deleteUp_cut`, `delete_cut`: `Delete` cuts, from a node that it takes;
* `delete_other`: it takes no node that is neither a container, a list nor a leaf;
* `delete_exact_iff`: when an accepted path removes what it names and nothing else.
-/

namespace OpenConfigd

variable {env : Env} {ent : Entry}

/-- The node at `pre` has one child and goes with it: a container without presence, a list or a key
that more keys follow. -/
def Hollow (ent : Entry) (root : Config) (pre : Loc) (s : Step) : Prop :=
  pre ≠ [] ∧ ∃ cur c, root.walk (.root ent) pre = some (cur, c) ∧ Inner cur c ∧
    (c.deleteChild s).isEmpty = true

/-- The tree without the node at a place, and without the nodes above that it leaves empty. -/
inductive Cut (ent : Entry) (root : Config) : Loc → Config → Prop
  | stop {pre : Loc} {s : Step} : ¬ Hollow ent root pre s →
    Cut ent root (pre ++ [s]) (root.without pre s)
  | climb {pre : Loc} {s : Step} {r : Config} : Hollow ent root pre s → Cut ent root pre r →
    Cut ent root (pre ++ [s]) r

/-- The values that are not the given one. -/
def Config.others (c : Config) (v : String) : List String := c.valueList.filter (· ≠ v)

/-- The leaf-list without a value. -/
def Config.dropValue (v : String) (c : Config) : Config := { c with valueList := c.others v }

/-- What the tree is without the target. A leaf-list without values goes as a node does. -/
inductive Removed (ent : Entry) (root : Config) : Target → Config → Prop
  | node {loc : Loc} {r : Config} : Cut ent root loc r → Removed ent root (.node loc) r
  | last {loc : Loc} {c r : Config} {v : String} : root.get? loc = some c → c.others v = [] →
    Cut ent root loc r → Removed ent root (.value loc v) r
  | value {loc : Loc} {c : Config} {v : String} : root.get? loc = some c → c.others v ≠ [] →
    Removed ent root (.value loc v) (root.modify loc (Config.dropValue v))

section

variable {root c r : Config} {pre loc : Loc} {s : Step} {rev : List Step}

/-- One node is missing, with all below it. -/
theorem Cut.without (h : Cut ent root loc r) :
    ∃ pre s, pre ++ [s] <+: loc ∧ r = root.without pre s := by
  induction h with
  | @stop pre s => exact ⟨pre, s, List.prefix_rfl, rfl⟩
  | climb _ _ ih =>
    obtain ⟨pre, s, hpre, rfl⟩ := ih
    exact ⟨pre, s, hpre.trans (List.prefix_append _ _), rfl⟩

theorem Cut.gone (h : Cut ent root loc r) : r.get? loc = none := by
  obtain ⟨pre, s, ⟨l, rfl⟩, rfl⟩ := h.without
  exact Config.get?_without_below l

/-- What is missing is on the path to the node, or below it. -/
theorem Cut.comparable (h : Cut ent root loc r) {l : Loc} (hl : (root.get? l).isSome)
    (hr : r.get? l = none) : l <+: loc ∨ loc <+: l := by
  induction h with
  | @stop pre s =>
    right
    by_contra hnot
    have := @Config.get?_without_ne root s pre l hnot
    rw [hr] at this
    obtain ⟨d, hd⟩ := Option.isSome_iff_exists.mp hl
    rw [hd] at this
    cases this
  | @climb pre s r hh _ ih =>
    rcases ih hr with hpre | ⟨x, rfl⟩
    · exact .inl (hpre.trans (List.prefix_append _ _))
    · cases x with
      | nil => exact .inl (by simp)
      | cons t x =>
        right
        -- The hollow node has no other child.
        obtain ⟨-, cur, c, hw, -, hempty⟩ := hh
        rw [Config.get?_append, Config.get?_of_walk hw, Option.bind_some, Config.get?_cons] at hl
        have hts : t = s := by
          by_contra hne
          cases hd : c.child? t with
          | none =>
            rw [hd] at hl
            cases hl
          | some d =>
            rw [← Config.child?_deleteChild_ne c hne] at hd
            rw [Config.isEmpty_of_child hd] at hempty
            cases hempty
        exact ⟨x, by simp [hts]⟩

/-- A node that goes takes with it what was changed below. -/
theorem Config.without_without (root : Config) (pre : Loc) (s t : Step) :
    (root.without (pre ++ [t]) s).without pre t = root.without pre t := by
  rw [without, without, without, modify_append, modify_modify]
  · refine modify_congr fun p _ => ?_
    exact @deleteChild_modifyChild (fun d => d.deleteChild s) (deleteChild_keepsName s) p t
  · intro p
    exact congrArg Node.name (modifyChild_toNode p t _)

theorem Config.get?_without_self (hg : root.get? pre = some c) :
    (root.without pre s).get? pre = some (c.deleteChild s) := by
  rw [without, get?_modify_self (deleteChild_keepsName s), hg]
  rfl

theorem Config.exists_child (h : c.isEmpty = false) : ∃ s, (c.child? s).isSome := by
  rw [isEmpty, Bool.and_eq_false_iff, List.isEmpty_eq_false_iff, List.isEmpty_eq_false_iff] at h
  rcases h with h | h
  · obtain ⟨d, hd⟩ := List.exists_mem_of_ne_nil _ h
    exact ⟨⟨.configs, d.name⟩, Keyed.get_isSome.mpr ⟨d, hd, rfl⟩⟩
  · obtain ⟨d, hd⟩ := List.exists_mem_of_ne_nil _ h
    exact ⟨⟨.keys, d.name⟩, Keyed.get_isSome.mpr ⟨d, hd, rfl⟩⟩

theorem Inner.congr {cur : Cursor} {d : Config} (h : Inner cur c) (hn : d.toNode = c.toNode) :
    Inner cur d := by
  rw [Inner, show d.entry = c.entry from congrArg Node.entry hn,
    show d.keyConfig = c.keyConfig from congrArg Node.keyConfig hn]
  exact h

/-- `Delete` leaves an empty node that is neither inner nor a presence container. -/
theorem Typed.drops_false {cur : Cursor} {e : Entry} (ht : Typed env (.root ent) root)
    (hw : root.walk (.root ent) (pre ++ [s]) = some (cur, c)) (hi : ¬ Inner cur c)
    (hp : c.isPresence = false) (he : c.entry = some e) : c.drops e s.slot false = false := by
  obtain ⟨cur₁, p, e', hwp, hch, he', rfl⟩ := Config.walk_snoc hw
  obtain rfl := Option.some.inj (he.symm.trans he')
  obtain ⟨e', hedge, he', -⟩ := (ht.of_walk hwp).child?_edge hch
  obtain rfl := Option.some.inj (he.symm.trans he')
  obtain ⟨slot, n⟩ := s
  by_contra hd
  rw [Bool.not_eq_false] at hd
  cases slot with
  | keys =>
    obtain ⟨-, -, hfields, hkey⟩ := hedge
    cases hk : e.kind <;> simp [Config.drops, hk] at hd
    have hkc : c.keyConfig = true := congrArg Node.keyConfig hfields
    exact hi (.inr ⟨hkc, hkey hd.2⟩)
  | configs =>
    cases hk : e.kind <;> simp [Config.drops, hk] at hd
    refine hi (.inl ⟨e, he, hk, ?_⟩)
    rw [Config.isPresence, he] at hp
    exact hp

variable (hf : FindsRegular env) (hall : ent.All Entry.Regular)

include hf hall

theorem Typed.inner_not_presence {cur : Cursor} (ht : Typed env (.root ent) root)
    (hw : root.walk (.root ent) (pre ++ [s]) = some (cur, c)) (hi : Inner cur c) :
    c.isPresence = false := by
  obtain ⟨e, he, hkind⟩ := ht.kind_of_walk hf hall hw
  rw [Config.isPresence, he]
  rcases hi with ⟨e', he', -, hp⟩ | ⟨hk, -⟩
  · obtain rfl := Option.some.inj (he.symm.trans he')
    exact hp
  · cases hs : s.slot with
    | configs =>
      rw [hs] at hkind
      rw [show c.keyConfig = false from hkind] at hk
      cases hk
    | keys =>
      rw [hs] at hkind
      obtain ⟨hr, hleaf⟩ := hkind
      by_contra hp
      rw [hr.presence ((Bool.not_eq_false _).mp hp)] at hleaf
      cases hleaf

/-- What `Delete` does above a node that it has taken. -/
theorem deleteUp_cut (ht : Typed env (.root ent) root) (hm : Marked ent root rev.reverse)
    (hg : (root.get? rev.reverse).isSome) : Cut ent root (rev.reverse ++ [s])
      (if (((root.without rev.reverse s).get? rev.reverse).map Config.isPresence).getD false
        then root.without rev.reverse s else deleteUp (root.without rev.reverse s) rev false) := by
  induction rev generalizing s with
  | nil =>
    rw [deleteUp, ite_self]
    exact .stop fun h => h.1 rfl
  | cons t rev ih =>
    rw [List.reverse_cons] at hm hg ⊢
    obtain ⟨p, hp⟩ := Option.isSome_iff_exists.mp hg
    obtain ⟨cur, hw, htp⟩ := ht.walk_of_get hp
    obtain ⟨e, he, -⟩ := ht.kind_of_walk hf hall hw
    have hroot := Config.get?_without_self (s := s) hp
    have hpart := Config.partOf_without root (rev.reverse ++ [t]) s
    have ht' : Typed env (.root ent) (root.without (rev.reverse ++ [t]) s) := ht.without _ _
    have hw' : (root.without (rev.reverse ++ [t]) s).walk (.root ent) (rev.reverse ++ [t]) =
        some (cur, p.deleteChild s) := by
      obtain ⟨cur', hw', -⟩ := ht'.walk_of_get hroot
      obtain ⟨p', hw'', -⟩ := hpart.walk ht' ht hw'
      rw [hw', ← (Prod.mk.inj (Option.some.inj (hw.symm.trans hw''))).1]
    have hnode := Config.deleteChild_toNode p s
    have hent : (p.deleteChild s).entry = some e := by
      rw [show (p.deleteChild s).entry = p.entry from congrArg Node.entry hnode, he]
    rw [hroot, Option.map_some, Option.getD_some]
    by_cases hh : Hollow ent root (rev.reverse ++ [t]) s
    · -- The node is inner and empty: `Delete` takes it, and goes on.
      obtain ⟨-, cur', p', hwp, hi, hempty⟩ := id hh
      obtain ⟨rfl, rfl⟩ := Prod.mk.inj (Option.some.inj (hw.symm.trans hwp))
      have hi' := hi.congr hnode
      have hmark := hm.partOf hpart ht' ht
      have hdrop := ht'.drops_inner hf hall hw'
        (hmark _ _ _ (by simp) List.prefix_rfl hw') hi' hempty hent
      have hstep := @deleteStep_eq _ _ rev.reverse t e false hroot hent
      rw [if_pos hdrop, Config.without_without] at hstep
      rw [if_neg (by rw [ht'.inner_not_presence hf hall hw' hi']; simp), deleteUp, hstep]
      refine .climb hh (ih (fun l cur c hl hpre => hm l cur c hl (hpre.trans (List.prefix_append _ _))) ?_)
      exact Config.get?_prefix hg
    · have hstop : (if (p.deleteChild s).isPresence then root.without (rev.reverse ++ [t]) s
          else deleteUp (root.without (rev.reverse ++ [t]) s) (t :: rev) false) =
          root.without (rev.reverse ++ [t]) s := by
        split
        · rfl
        · rename_i hpres
          cases hempty : (p.deleteChild s).isEmpty with
          | true =>
            have hni : ¬ Inner cur (p.deleteChild s) := fun hi =>
              hh ⟨by simp, cur, p, hw, hi.congr hnode.symm, hempty⟩
            have hdrop := ht'.drops_false hw' hni (by simpa using hpres) hent
            have hstep := @deleteStep_eq _ _ rev.reverse t e false hroot hent
            rw [hdrop, clears_false] at hstep
            rw [deleteUp, hstep]
            have hsome : ((root.without (rev.reverse ++ [t]) s).get? (rev.reverse ++ [t])).isSome := by
              rw [hroot]
              rfl
            simp only [Bool.false_eq_true, if_false, deleteUp_of_child hsome, ite_self]
          | false =>
            obtain ⟨x, hx⟩ := Config.exists_child hempty
            refine @deleteUp_of_child _ (t :: rev) x ?_
            rw [List.reverse_cons, Config.get?_append, hroot, Option.bind_some, Config.get?_single]
            exact hx
      rw [hstop]
      exact .stop hh

/-- `Delete` on a node that it takes. -/
theorem delete_cut {cur : Cursor} {e : Entry} (ht : Typed env (.root ent) root) (hfl : root.Flagged)
    (hw : root.walk (.root ent) (pre ++ [s]) = some (cur, c)) (he : c.entry = some e)
    (hd : c.drops e s.slot true = true) :
    Cut ent root (pre ++ [s]) (delete root (pre ++ [s]) true) := by
  have hg : (root.get? (pre ++ [s])).isSome := by
    rw [Config.get?_of_walk hw]
    rfl
  have hstep := @deleteStep_eq _ _ pre s e true (Config.get?_of_walk hw) he
  rw [if_pos hd] at hstep
  have := @deleteUp_cut env ent root s pre.reverse hf hall ht
    (by rw [List.reverse_reverse]; exact hfl.marked ht hg)
    (by rw [List.reverse_reverse]; exact Config.get?_prefix hg)
  rw [List.reverse_reverse] at this
  rwa [delete, List.reverse_append, List.reverse_singleton, List.singleton_append, deleteUp,
    List.reverse_reverse, hstep]

omit hf hall in
/-- `Delete` on a node that it takes neither from its parent nor its children from it. -/
theorem delete_untaken {e : Entry} (hg : root.get? (pre ++ [s]) = some c) (he : c.entry = some e)
    (hd : c.drops e s.slot true = false) (hc : clears e s.slot true = false) :
    delete root (pre ++ [s]) true = root := by
  have hstep := @deleteStep_eq _ _ pre s e true hg he
  rw [hd, hc] at hstep
  have hsome : (root.get? (pre.reverse.reverse ++ [s])).isSome := by
    rw [List.reverse_reverse, hg]
    rfl
  rw [delete, List.reverse_append, List.reverse_singleton, List.singleton_append, deleteUp,
    List.reverse_reverse, hstep]
  simp only [Bool.false_eq_true, if_false, deleteUp_of_child hsome, ite_self]

omit hf hall in
/-- `Delete` takes neither a node of another kind nor its children. -/
theorem delete_other {e : Entry} (hg : root.get? (pre ++ [s]) = some c) (he : c.entry = some e)
    (hk : ¬ (e.kind = .directory ∨ e.kind = .leaf)) : delete root (pre ++ [s]) true = root := by
  refine delete_untaken hg he ?_ ?_
  · cases hkind : e.kind <;> simp [hkind] at hk <;> simp [Config.drops, hkind]
  · cases hkind : e.kind <;> simp [hkind] at hk <;> simp [clears, hkind]

end

/-! ## Leaves have values -/

/-- Every leaf and leaf-list has a value. -/
def Valued (ent : Entry) (root : Config) : Prop :=
  ∀ l cur c, l ≠ [] → root.walk (.root ent) l = some (cur, c) →
    cur.state = .stateLeaf ∨ cur.state = .stateLeafList → Done cur c

theorem Built.valued {root : Config} (h : Built env ent root) : Valued ent root := by
  induction h with
  | empty => exact fun l cur c hl hw _ => Closed.empty ent l cur c hl hw
  | set h hp hs ih =>
    obtain ⟨ops, cur, htr, ha, htree⟩ := parse_success hp hs
    rw [htree]
    intro l cur' c hl hw hst
    have hpend := htr.pending (Q := fun cur => cur.state = .stateLeaf ∨ cur.state = .stateLeafList)
      (.start h.edited.typed) fun l cur c hl hw hst => .inl (ih l cur c hl hw hst)
    rcases hpend l cur' c hl hw hst with hdone | hpre
    · exact hdone
    · exact (htr.stands (.start h.edited.typed)).done ha hpre hw
  | @delete root cmds r h hp hs ih =>
    obtain ⟨hn, -⟩ | ⟨-, l₀, -, -, htree⟩ := parseDelete_cases hp
    · exact absurd hs hn
    · rw [htree]
      intro l cur c hl hw hst
      have hpart : (OpenConfigd.delete root l₀ true).PartOf root := deleteUp_partOf _ _ _
      obtain ⟨d, hd, hnode⟩ := hpart.walk (h.edited.typed.delete _ _) h.edited.typed hw
      have hdone := ih l cur d hl hd hst
      rcases hst with hst | hst <;> rw [Done, hst] at hdone ⊢
      · rwa [show c.hasValue = d.hasValue from congrArg Node.hasValue hnode.symm]
      · rwa [show c.valueList = d.valueList from congrArg Node.valueList hnode.symm]

section

variable {root c : Config} {loc : Loc} {path : List String} {t : Target} {v : String}

/-- A node with values is a leaf-list without children. -/
theorem Typed.leafList_of_mem {cur : Cursor} {s : Step} {pre : Loc}
    (ht : Typed env (.root ent) root) (hw : root.walk (.root ent) (pre ++ [s]) = some (cur, c))
    (hv : v ∈ c.valueList) : c.isLeafList = true ∧ c.hasDir = false ∧ c.entry.map (·.kind) = some .leaf := by
  obtain ⟨cur₁, p, e, hwp, hch, he, rfl⟩ := Config.walk_snoc hw
  obtain ⟨e', hedge, he', -⟩ := (ht.of_walk hwp).child?_edge hch
  obtain rfl := Option.some.inj (he.symm.trans he')
  have htc := ht.of_walk hw
  have hne : c.valueList ≠ [] := List.ne_nil_of_mem hv
  have hst : (cur₁.child s.slot e).state = .stateLeafList := by
    have hcont := htc.content
    rw [Content] at hcont
    split at hcont
    · exact absurd hcont.1 hne
    · assumption
    · exact absurd hcont.2.1 hne
  have hconf := htc.configs_nil (by simp [Cursor.isDir, hst])
  have hkeys := htc.keys_nil (by simp [hst])
  obtain ⟨slot, n⟩ := s
  cases slot with
  | keys =>
    simp only [Cursor.child, Cursor.enterKey] at hst
    split at hst <;> cases hst
  | configs =>
    have hkc : c.keyConfig = false := congrArg Node.keyConfig hedge.2.2
    have hnext : entryNextState e = .stateLeafList := by
      simp only [Cursor.child, Cursor.enter] at hst
      split at hst
      · cases hst
      · exact hst
    obtain ⟨hleaf, hll⟩ : e.kind = .leaf ∧ e.isLeafList = true := by
      rw [entryNextState] at hnext
      split at hnext
      · split at hnext
        · cases hnext
        · split at hnext <;> cases hnext
      · rename_i hk
        split at hnext
        · exact ⟨hk, ‹_›⟩
        · cases hnext
      · cases hnext
    refine ⟨by rw [Config.isLeafList, he]; exact hll, ?_, by rw [he, Option.map_some, hleaf]⟩
    simp [Config.hasDir, hconf, hkeys, hkc, he]

theorem Names.prefix_loc (h : Names root loc path t) : loc <+: t.loc := by
  induction h with
  | child _ _ _ _ ih => exact (List.prefix_append _ _).trans ih
  | _ => exact List.prefix_rfl

/-- From the root a path leads to a node below. -/
theorem Names.loc_ne (h : Names root [] path t) (hr : root.entry = none) (hne : path ≠ []) :
    t.loc ≠ [] := by
  have hd : root.hasDir = true := by simp [Config.hasDir, hr]
  cases h with
  | here => exact absurd rfl hne
  | child _ _ _ hn => exact fun h => by simpa [h] using hn.prefix_loc
  | value hg hd' | item hg hd' | items hg hd' =>
    obtain rfl := Option.some.inj hg
    rw [hd] at hd'
    cases hd'

/-- A path to a value begins with one to its leaf-list. -/
theorem Names.leafList {l : Loc} (h : Names root loc path (.value l v)) :
    ∃ pre, pre <+: path ∧ Names root loc pre (.node l) := by
  generalize ht : Target.value l v = t at h
  induction h with
  | here => cases ht
  | child hg hd hx _ ih =>
    obtain ⟨pre, hpre, hn⟩ := ih ht
    exact ⟨_, List.cons_prefix_cons.mpr ⟨rfl, hpre⟩, .child hg hd hx hn⟩
  | value => cases ht
  | item =>
    cases ht
    exact ⟨[], List.nil_prefix, .here _⟩
  | items =>
    cases ht
    exact ⟨[], List.nil_prefix, .here _⟩

theorem Names.value_mem {l : Loc} (h : Names root loc path (.value l v)) (hg : root.get? l = some c) :
    v ∈ c.valueList := by
  generalize ht : Target.value l v = t at h
  induction h with
  | here => cases ht
  | child _ _ _ _ ih => exact ih ht
  | value => cases ht
  | item hg' _ _ hv =>
    cases ht
    obtain rfl := Option.some.inj (hg.symm.trans hg')
    exact hv
  | items _ _ _ _ _ _ ih => exact ih ht

/-- `ParseDelete` accepts the first value of a leaf-list and deletes the leaf-list. -/
theorem Names.accepts_first {l : Loc} (h : Names root [] path (.node l))
    (hg : root.get? l = some c) (hd : c.hasDir = false) (hl : c.isLeafList = true)
    (ha : c.Accepted) (hv : c.valueList.head? = some v) :
    ∃ r, parseDelete root (path ++ [v]) = some r ∧ r.code = .parseSuccess ∧
      r.tree = delete root l true := by
  obtain ⟨s', hc', hi', heq⟩ := h.follow [v] hg hl (List.cons_ne_nil _ _) (s := {}) rfl
  have hat : c.valueAt s'.index = some v := by
    rw [Config.valueAt, hl, if_pos rfl, hi', ← hv]
    exact List.head?_eq_getElem?.symm
  obtain ⟨-, -, -, hval⟩ := matchConfigAt_leaf v hg hd
    (s := { s' with best := .typeNone, count := 0, comps := [] }) hc' rfl rfl
  have hself := matchKeyword_self v
  rw [parseDelete, heq]
  exact parseDeleteFrom_last hc' (by rw [← hself]; exact hval v hat (by rw [hself]; simp)) hg ha

end

/-! ## Exactness -/

/-- The tree left for an accepted path lacks what the path names and nothing else, and is another
one. Where the path ends in a value of a leaf-list, each value of it can be named and removed. -/
structure DeletesExactly (ent : Entry) (root : Config) (path : List String) (tree : Config) :
    Prop where
  removed : ∃ t, Names root [] path t ∧ Removed ent root t tree
  changed : tree ≠ root
  nameable : ∀ loc w c v, Names root [] path (.value loc w) → root.get? loc = some c →
    v ∈ c.valueList → ∃ pre r, pre <+: path ∧ Names root [] pre (.node loc) ∧
      parseDelete root (pre ++ [v]) = some r ∧ r.code = .parseSuccess ∧
      Removed ent root (.value loc v) r.tree

/-- A container, a list or a leaf; when it is a value that is named, one of a leaf-list that does
not have two of them. -/
def Target.Erasable (c : Config) (t : Target) : Prop :=
  (∃ e, c.entry = some e ∧ (e.kind = .directory ∨ e.kind = .leaf)) ∧
    ∀ loc x, t = .value loc x → ∀ v ∈ c.valueList, ∀ w ∈ c.valueList, v = w

section

variable {root : Config} {path : List String} {r : ParseResult}

/-- An accepted path in a tree of successful calls removes exactly what it names just if that is a
container, a list, a key or a leaf, and no value of a leaf-list with two different ones. -/
theorem delete_exact_iff (hf : FindsRegular env) (hall : ent.All Entry.Regular)
    (h : Built env ent root) (hp : parseDelete root path = some r) (hs : r.code = .parseSuccess) :
    DeletesExactly ent root path r.tree ↔
      ∀ t c, Names root [] path t → root.get? t.loc = some c → t.Erasable c := by
  have ht := h.edited.typed
  have hpath : path ≠ [] := (parseDeleteFrom_names rfl hp hs).1
  obtain ⟨t, c, hn, hg, hacc, htree⟩ := parseDelete_names hp hs
  have hne := hn.loc_ne (congrArg Node.entry h.toNode) hpath
  obtain ⟨pre, s, hloc⟩ : ∃ pre s, t.loc = pre ++ [s] := by
    obtain h0 | ⟨pre, s, hps⟩ := List.eq_nil_or_concat t.loc
    · exact absurd h0 hne
    · exact ⟨pre, s, by rw [hps, List.concat_eq_append]⟩
  obtain ⟨cur, hw, -⟩ := ht.walk_of_get hg
  rw [hloc] at hw
  obtain ⟨e, he, -⟩ := ht.kind_of_walk hf hall hw
  -- What `Delete` does with a node of the right kind, in the path or with a value behind it.
  have hcut (hkind : e.kind = .directory ∨ e.kind = .leaf) :
      Cut ent root t.loc (delete root t.loc true) := by
    rw [hloc]
    exact delete_cut hf hall ht h.edited.flagged hw he
      (ht.drops_done hf hall hw (fun hst => h.valued _ _ _ (by simp) hw hst) he hkind)
  have hsame {t' : Target} (hn' : Names root [] path t') : t'.loc = t.loc := (hn'.same hn).1
  constructor
  · rintro ⟨⟨t', hn', hrem⟩, hchanged, -⟩ t'' c'' hn'' hg''
    obtain rfl : c'' = c := Option.some.inj (hg''.symm.trans (hsame hn'' ▸ hg))
    refine ⟨⟨e, he, ?_⟩, ?_⟩
    · by_contra hk
      refine hchanged (htree.trans ?_)
      rw [hloc] at hg ⊢
      exact delete_other hg he hk
    · rintro l x rfl v hv w hw'
      by_contra hvw
      obtain rfl : l = t.loc := hsame hn''
      have hleaf : e.kind = .leaf := by
        have := (ht.leafList_of_mem hw hv).2.2
        rw [he] at this
        exact Option.some.inj this
      have hgone := (hcut (.inr hleaf)).gone
      rw [htree] at hrem
      -- The leaf-list is gone, but one of the two values should be left.
      generalize delete root t.loc true = after at hgone hrem
      cases hrem with
      | node =>
        obtain ⟨l', hl'⟩ := (hn'.same hn'').2.mp ⟨_, rfl⟩
        cases hl'
      | @last l' c' _ x' hg' hothers =>
        obtain rfl : l' = t.loc := hsame hn'
        obtain rfl := Option.some.inj (hg.symm.trans hg')
        rw [Config.others, List.filter_eq_nil_iff] at hothers
        have h₁ := hothers v hv
        have h₂ := hothers w hw'
        simp only [ne_eq, decide_not, Bool.not_eq_true', decide_eq_false_iff_not, not_not] at h₁ h₂
        exact hvw (h₁.trans h₂.symm)
      | @value l' c' x' hg' =>
        obtain rfl : l' = t.loc := hsame hn'
        rw [Config.get?_modify_self (f := Config.dropValue x') fun _ => rfl, hg] at hgone
        cases hgone
  · intro herase
    obtain ⟨⟨e', he', hkind⟩, hequal⟩ := herase t c hn hg
    obtain rfl := Option.some.inj (he.symm.trans he')
    have hr := hcut hkind
    have hothers {l : Loc} {x v : String} (ht' : t = .value l x) (hv : v ∈ c.valueList) :
        c.others v = [] := by
      rw [Config.others, List.filter_eq_nil_iff]
      intro w hw'
      simp [hequal l x ht' w hw' v hv]
    refine ⟨⟨t, hn, ?_⟩, fun heq => ?_, fun loc w c' v hn' hg' hv => ?_⟩
    · rw [htree]
      cases ht' : t with
      | node l =>
        rw [ht'] at hr
        exact .node hr
      | value l v =>
        subst ht'
        exact .last hg (hothers rfl (hn.value_mem hg)) hr
    · have hgone := hr.gone
      rw [← htree, heq, hg] at hgone
      cases hgone
    · obtain rfl : loc = t.loc := hsame hn'
      obtain rfl := Option.some.inj (hg.symm.trans hg')
      obtain ⟨x, ht'⟩ : ∃ x, t = .value t.loc x := by
        cases ht' : t with
        | node l =>
          obtain ⟨l', hl'⟩ := (hn'.same hn).2.mpr ⟨l, ht'⟩
          cases hl'
        | value l x => exact ⟨x, rfl⟩
      obtain ⟨pre, hpre, hnode⟩ := hn'.leafList
      obtain ⟨hll, hd, -⟩ := ht.leafList_of_mem hw hv
      have hhead : c.valueList.head? = some v := by
        cases hvl : c.valueList with
        | nil => rw [hvl] at hv; cases hv
        | cons w l =>
          rw [List.head?_cons, hequal _ x ht' w (by rw [hvl]; exact List.mem_cons_self) v hv]
      obtain ⟨r', hp', hs', htree'⟩ := hnode.accepts_first hg hd hll hacc hhead
      exact ⟨pre, r', hpre, hnode, hp', hs', by rw [htree']; exact .last hg (hothers ht' hv) hr⟩

end

/-- A container with a leaf-list. -/
def segmentsSchema : Entry :=
  { name := "", kind := .directory, dir := [
    { name := "top", kind := .directory, parentKind := some .directory, dir := [
      { name := "segments", kind := .leaf, listAttr := true, parentKind := some .directory,
        type := some { kind := .string } }] }] }

/-- The places of the container and of its leaf-list. -/
def topLoc : Loc := [⟨.configs, "top"⟩]

def segmentsLoc : Loc := [⟨.configs, "top"⟩, ⟨.configs, "segments"⟩]

/-- The tree with two values in the leaf-list. -/
theorem segments_twoValues : ∃ s, parse .ascii segmentsSchema {} ["top", "segments", "a::1", "b::1"] =
      some s ∧ s.code = .parseSuccess ∧
    (∃ c, s.tree.get? segmentsLoc = some c ∧ c.hasDir = false ∧ c.isLeafList = true ∧
      c.valueList = ["a::1", "b::1"] ∧ c.entry.map (·.kind) = some .leaf) ∧
    ∀ path t, Names s.tree segmentsLoc path t → Names s.tree [] ("top" :: "segments" :: path) t := by
  obtain ⟨s, hs, hcode⟩ := Option.map_eq_some_iff.mp (show
    (parse .ascii segmentsSchema {} ["top", "segments", "a::1", "b::1"]).map (·.code) =
      some .parseSuccess by decide +kernel)
  have fact {β : Type} (f : ParseResult → β) (v : β)
      (h : (parse .ascii segmentsSchema {} ["top", "segments", "a::1", "b::1"]).map f = some v) :
      f s = v := by
    rw [hs] at h
    exact Option.some.inj h
  obtain ⟨hroot, hsteps⟩ : s.tree.hasDir = true ∧ s.tree.steps = topLoc :=
    Prod.mk.inj (fact (fun s => (s.tree.hasDir, s.tree.steps)) (true, topLoc) (by decide +kernel))
  have htop : (s.tree.get? topLoc).map (fun c => (c.hasDir, c.steps)) =
      some (true, [⟨.configs, "segments"⟩]) :=
    fact (fun s => (s.tree.get? topLoc).map fun c => (c.hasDir, c.steps)) _ (by decide +kernel)
  have hseg : (s.tree.get? segmentsLoc).map (fun c =>
      (c.hasDir, c.isLeafList, c.valueList, c.entry.map (·.kind))) =
      some (false, true, ["a::1", "b::1"], some .leaf) :=
    fact (fun s => (s.tree.get? segmentsLoc).map fun c =>
      (c.hasDir, c.isLeafList, c.valueList, c.entry.map (·.kind))) _ (by decide +kernel)
  simp only [Option.map_eq_some_iff, Prod.mk.injEq] at htop hseg
  obtain ⟨c, hc, hcd, hcs⟩ := htop
  obtain ⟨d, hd, hdd, hll, hvl, hkind⟩ := hseg
  refine ⟨s, hs, hcode, ⟨d, hd, hdd, hll, hvl, Option.map_eq_some_iff.mpr hkind⟩, fun path t hn => ?_⟩
  refine .child rfl hroot (s := ⟨.configs, "top"⟩) ⟨by decide, [], [], hsteps, by simp⟩ ?_
  exact .child hc hcd (s := ⟨.configs, "segments"⟩) ⟨by decide, [], [], hcs, by simp⟩ hn

/-- A leaf-list of two values goes with its name. -/
theorem delete_exact_iff_segments : ∃ s r,
    parse .ascii segmentsSchema {} ["top", "segments", "a::1", "b::1"] = some s ∧
    parseDelete s.tree ["top", "segments"] = some r ∧
    DeletesExactly segmentsSchema s.tree ["top", "segments"] r.tree := by
  obtain ⟨s, hs, hcode, ⟨c, hc, -, -, -, hkind⟩, hnames⟩ := segments_twoValues
  have hdel : (parse .ascii segmentsSchema {} ["top", "segments", "a::1", "b::1"]).map
      (fun s => (parseDelete s.tree ["top", "segments"]).map (·.code)) =
        some (some .parseSuccess) := by decide +kernel
  rw [hs, Option.map_some, Option.some.injEq] at hdel
  obtain ⟨r, hr, hrcode⟩ := Option.map_eq_some_iff.mp hdel
  refine ⟨s, r, hs, hr, (@delete_exact_iff .ascii segmentsSchema s.tree ["top", "segments"] r
    (fun _ _ _ h => by cases h) (by decide) (.set .empty hs hcode) hr hrcode).mpr ?_⟩
  intro t d hn hd
  obtain ⟨hloc, hnode⟩ := hn.same (hnames [] _ (.here _))
  rw [hloc] at hd
  obtain rfl := Option.some.inj (hd.symm.trans hc)
  obtain ⟨e, he, hleaf⟩ := Option.map_eq_some_iff.mp hkind
  refine ⟨⟨e, he, .inr hleaf⟩, fun l x ht => ?_⟩
  obtain ⟨l', hl'⟩ := hnode.mpr ⟨_, rfl⟩
  rw [hl'] at ht
  cases ht

/-- Deleting the first of two values leaves nothing of the leaf-list. -/
theorem delete_not_exact : ∃ s r,
    parse .ascii segmentsSchema {} ["top", "segments", "a::1", "b::1"] = some s ∧
    s.code = .parseSuccess ∧ (s.tree.get? segmentsLoc).map (·.valueList) = some ["a::1", "b::1"] ∧
    parseDelete s.tree ["top", "segments", "a::1"] = some r ∧ r.code = .parseSuccess ∧
    (r.tree.get? segmentsLoc).isNone ∧
    ¬ DeletesExactly segmentsSchema s.tree ["top", "segments", "a::1"] r.tree := by
  obtain ⟨s, hs, hcode, ⟨d, hd, hdd, hll, hvl, -⟩, hsegments⟩ := segments_twoValues
  have hdel : (parse .ascii segmentsSchema {} ["top", "segments", "a::1", "b::1"]).map (fun s =>
      (parseDelete s.tree ["top", "segments", "a::1"]).map fun r =>
        (r.code, (r.tree.get? segmentsLoc).isNone)) = some (some (.parseSuccess, true)) := by
    decide +kernel
  rw [hs, Option.map_some, Option.some.injEq] at hdel
  simp only [Option.map_eq_some_iff, Prod.mk.injEq] at hdel
  obtain ⟨r, hr, hrcode, hgone⟩ := hdel
  refine ⟨s, r, hs, hcode, by rw [hd, Option.map_some, hvl], hr, hrcode, hgone, fun hexact => ?_⟩
  -- The path names the first value.
  have hnames : Names s.tree [] ["top", "segments", "a::1"] (.value segmentsLoc "a::1") :=
    hsegments _ _ (.item hd hdd hll (by rw [hvl]; exact List.mem_cons_self) (by decide))
  obtain ⟨t, hn, hrem⟩ := hexact.removed
  obtain ⟨hloc, hnode⟩ := hn.same hnames
  generalize r.tree = after at hgone hrem
  cases hrem with
  | node => exact absurd (hnode.mp ⟨_, rfl⟩) (by simp)
  | @last l c _ v hg hothers =>
    obtain rfl : l = segmentsLoc := hloc
    obtain rfl := Option.some.inj (hg.symm.trans hd)
    rw [Config.others, hvl, List.filter_eq_nil_iff] at hothers
    have h₁ := hothers "a::1" (by decide)
    have h₂ := hothers "b::1" (by decide)
    simp only [ne_eq, decide_not, Bool.not_eq_true', decide_eq_false_iff_not, not_not] at h₁ h₂
    exact absurd (h₁.trans h₂.symm) (by decide)
  | @value l c v hg =>
    obtain rfl : l = segmentsLoc := hloc
    rw [Config.get?_modify_self (f := Config.dropValue v) fun _ => rfl, hd] at hgone
    cases hgone

end OpenConfigd
