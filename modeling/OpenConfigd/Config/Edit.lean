import OpenConfigd.Config.Delete
import OpenConfigd.Config.Encode

/-!
# Editing a tree

`Edited` are the trees that calls of `Parse`, `ParseDelete` and `Delete` reach
from the empty root, failed calls included. They all follow the schema
(`Edited.typed`). After a successful `ParseDelete` the nodes above the one that
went are settled: none of them is a container, a list or a key that more keys
follow and has no children (`parseDelete_settled`).
-/

namespace OpenConfigd

variable {env : Env} {ent : Entry}

/-- Only leaves have a type, and only containers a presence statement. -/
structure Entry.Regular (e : Entry) : Prop where
  typed : e.type ≠ none → e.kind = .leaf
  presence : e.presence = true → e.kind = .directory

instance : DecidablePred Entry.Regular := fun e =>
  decidable_of_iff ((e.type ≠ none → e.kind = .leaf) ∧ (e.presence = true → e.kind = .directory))
    ⟨fun h => ⟨h.1, h.2⟩, fun h => ⟨h.typed, h.presence⟩⟩

/-- Leafrefs lead to entries of the same kind. -/
def FindsRegular (env : Env) : Prop :=
  ∀ e path t, env.find e path = some t → t.Regular

theorem ascii_findsRegular : FindsRegular .ascii := by
  intro e path t ht
  cases ht

/-- The entry of a key is a leaf. -/
theorem Edge.kind_leaf {cur : Cursor} {n : Node} {e : Entry} (h : Edge env cur .keys n e)
    (hf : FindsRegular env) (hall : cur.ent.All Entry.Regular) : e.Regular ∧ e.kind = .leaf := by
  obtain ⟨key, t, hkey, ht, htype, ⟨-, rfl⟩ | ⟨-, hfind⟩⟩ := h.2.1.key h.1
  · have hr := (hall.child (List.mem_of_find?_eq_some hkey)).self
    exact ⟨hr, hr.typed (by rw [ht]; simp)⟩
  · have hr := hf _ _ _ hfind
    refine ⟨hr, hr.typed fun hn => ?_⟩
    rw [hn] at htype
    cases htype

/-! ## What `Delete` leaves above -/

/-- A container without presence, a list, or a key that more keys follow. -/
def Inner (cur : Cursor) (c : Config) : Prop :=
  (∃ e, c.entry = some e ∧ e.kind = .directory ∧ e.presence = false) ∨
    c.keyConfig = true ∧ cur.state = .stateKey

/-- The inner nodes on the way to a place have children. -/
def Settled (ent : Entry) (root : Config) (loc : Loc) : Prop :=
  ∀ l cur c, l ≠ [] → l <+: loc → root.walk (.root ent) l = some (cur, c) → Inner cur c →
    c.isEmpty = false

section

variable {root c : Config} {loc : Loc} {s : Step} {rev : List Step}

theorem Config.PartOf.walk {cur₀ cur : Cursor} {d : Config} (h : c.PartOf root)
    (ht : Typed env cur₀ c) (ht' : Typed env cur₀ root) {l : Loc}
    (hw : c.walk cur₀ l = some (cur, d)) :
    ∃ d', root.walk cur₀ l = some (cur, d') ∧ d'.toNode = d.toNode := by
  have hn := h l d.toNode (Config.node?_eq (Config.get?_of_walk hw))
  obtain ⟨d', hd', heq⟩ := Option.map_eq_some_iff.mp hn
  obtain ⟨cur', hw', -⟩ := ht'.walk_of_get hd'
  have hcur := ht.cursor_unique ht' hw hw'
  rw [← hcur] at hw'
  exact ⟨d', hw', heq⟩

theorem settled_of_child (h : (root.get? (loc ++ [s])).isSome) : Settled ent root loc := by
  intro l cur c _ hpre hw _
  obtain ⟨r, rfl⟩ := hpre
  rw [List.append_assoc, Config.get?_append, Config.get?_of_walk hw, Option.bind_some] at h
  cases r with
  | nil =>
    rw [List.nil_append, Config.get?_single] at h
    obtain ⟨d, hd⟩ := Option.isSome_iff_exists.mp h
    exact Config.isEmpty_of_child hd
  | cons t r =>
    rw [List.cons_append, Config.get?_cons] at h
    cases hd : c.child? t with
    | none =>
      rw [hd] at h
      cases h
    | some d => exact Config.isEmpty_of_child hd

/-- The keys on the way to a place that more keys follow are marked as such. -/
def Marked (ent : Entry) (root : Config) (loc : Loc) : Prop :=
  ∀ l cur c, l ≠ [] → l <+: loc → root.walk (.root ent) l = some (cur, c) → c.keyConfig = true →
    cur.state = .stateKey → c.keyOnlyConfig = true

theorem Marked.partOf (h : Marked ent root loc) (hp : c.PartOf root)
    (ht : Typed env (.root ent) c) (ht' : Typed env (.root ent) root) : Marked ent c loc := by
  intro l cur d hl hpre hw hk hst
  obtain ⟨d', hw', heq⟩ := hp.walk ht ht' hw
  have hk' : d'.keyConfig = true := by
    rw [show d'.keyConfig = d'.toNode.keyConfig from rfl, heq]
    exact hk
  rw [show d.keyOnlyConfig = d.toNode.keyOnlyConfig from rfl, ← heq]
  exact h l cur d' hl hpre hw' hk' hst

theorem Config.Flagged.marked (hfl : root.Flagged) (ht : Typed env (.root ent) root)
    (h : (root.get? (loc ++ [s])).isSome) : Marked ent root loc := by
  intro l cur c hl hpre hw hk hst
  refine hfl l c (Config.get?_of_walk hw) hk fun hkeys => ?_
  -- The step below the key leads to a key, so the key has keys.
  obtain ⟨r, rfl⟩ := hpre
  rw [List.append_assoc, Config.get?_append, Config.get?_of_walk hw, Option.bind_some] at h
  obtain ⟨t, r', hr⟩ : ∃ t r', r ++ [s] = t :: r' := List.exists_cons_of_ne_nil (by simp)
  rw [hr, Config.get?_cons] at h
  cases hd : c.child? t with
  | none =>
    rw [hd] at h
    cases h
  | some d =>
    obtain ⟨e, hedge, -⟩ := (ht.of_walk hw).child?_edge hd
    obtain ⟨slot, n⟩ := t
    cases slot with
    | configs =>
      have hdir := hedge.1
      rw [Cursor.isDir, hst] at hdir
      cases hdir
    | keys =>
      have hm : d ∈ c.keys := Config.child?_mem hd
      rw [hkeys] at hm
      cases hm

end

section

variable {root c : Config} {loc : Loc} {s : Step} {rev : List Step} (hf : FindsRegular env)
  (hall : ent.All Entry.Regular)

include hf hall

/-- What a node is, by the slice that holds it. -/
theorem Typed.kind_of_walk {cur : Cursor} (ht : Typed env (.root ent) root)
    (hw : root.walk (.root ent) (loc ++ [s]) = some (cur, c)) :
    ∃ e, c.entry = some e ∧
      match s.slot with
      | .configs => c.keyConfig = false
      | .keys => e.Regular ∧ e.kind = .leaf := by
  obtain ⟨cur₁, p, e, hwp, hch, he, -⟩ := Config.walk_snoc hw
  obtain ⟨e', hedge, he', -⟩ := (ht.of_walk hwp).child?_edge hch
  refine ⟨e', he', ?_⟩
  obtain ⟨slot, n⟩ := s
  cases slot with
  | configs =>
    rw [show c.keyConfig = c.toNode.keyConfig from rfl, hedge.2.2]
    rfl
  | keys => exact hedge.kind_leaf hf (ht.walk_all hall hwp)

/-- An inner node without children goes. -/
theorem Typed.drops_inner {cur : Cursor} (ht : Typed env (.root ent) root)
    (hw : root.walk (.root ent) (loc ++ [s]) = some (cur, c))
    (hm : c.keyConfig = true → cur.state = .stateKey → c.keyOnlyConfig = true)
    (hi : Inner cur c) (he : c.isEmpty = true) {e : Entry} (hent : c.entry = some e) :
    c.drops e s.slot false = true := by
  obtain ⟨e', he', hkind⟩ := ht.kind_of_walk hf hall hw
  rw [hent] at he'
  cases he'
  obtain ⟨slot, n⟩ := s
  cases slot with
  | configs =>
    rcases hi with ⟨e', he', hk, -⟩ | ⟨hk, -⟩
    · rw [hent] at he'
      cases he'
      simp only [Config.drops, hk, he]
    · rw [show c.keyConfig = false from hkind] at hk
      cases hk
  | keys =>
    obtain ⟨-, hleaf⟩ := hkind
    rcases hi with ⟨e', he', hk, -⟩ | ⟨hk, hst⟩
    · rw [hent] at he'
      cases he'
      rw [hk] at hleaf
      cases hleaf
    · simp only [Config.drops, hleaf, he, hm hk hst, Bool.and_self]

theorem settled_of_presence (ht : Typed env (.root ent) root)
    (hp : ((root.get? loc).map Config.isPresence).getD false = true) : Settled ent root loc := by
  rcases List.eq_nil_or_concat loc with rfl | ⟨pre, s, rfl⟩
  · intro l _ _ hl hpre
    exact absurd (List.prefix_nil.mp hpre) hl
  · rw [List.concat_eq_append] at hp ⊢
    obtain ⟨c, hc⟩ : ∃ c, root.get? (pre ++ [s]) = some c := by
      cases hc : root.get? (pre ++ [s]) with
      | none =>
        rw [hc] at hp
        cases hp
      | some c => exact ⟨c, rfl⟩
    intro l cur d hl hpre hw hi
    rcases List.prefix_concat_iff.mp hpre with rfl | hpre
    · exfalso
      obtain ⟨e, he, hkind⟩ := ht.kind_of_walk hf hall hw
      rw [Config.get?_of_walk hw, Option.map_some, Option.getD_some, Config.isPresence, he] at hp
      have hpr : e.presence = true := hp
      rcases hi with ⟨e', he', -, hn⟩ | ⟨hk, -⟩
      · rw [he] at he'
        cases he'
        rw [hpr] at hn
        cases hn
      · cases hs : s.slot with
        | configs =>
          rw [hs] at hkind
          rw [show d.keyConfig = false from hkind] at hk
          cases hk
        | keys =>
          rw [hs] at hkind
          obtain ⟨hr, hleaf⟩ := hkind
          rw [hr.presence hpr] at hleaf
          cases hleaf
    · exact settled_of_child (by rw [hc]; rfl) l cur d hl hpre hw hi

/-- `Delete` on a node that lost a child settles the nodes from there up. -/
theorem deleteUp_settled (ht : Typed env (.root ent) root) (hm : Marked ent root rev.reverse) :
    Settled ent (deleteUp root rev false) rev.reverse := by
  induction rev generalizing root with
  | nil =>
    intro l _ _ hl hpre
    exact absurd (List.prefix_nil.mp hpre) hl
  | cons s rev ih =>
    rw [List.reverse_cons] at hm ⊢
    have hm' : Marked ent root rev.reverse := fun l cur c hl hpre =>
      hm l cur c hl (hpre.trans (List.prefix_append _ _))
    -- The node is not there, or goes: the nodes above it are settled in turn.
    have hgone (root' : Config) (h : deleteStep root rev.reverse s false = root')
        (hnone : root'.get? (rev.reverse ++ [s]) = none) (ht' : Typed env (.root ent) root')
        (hp : root'.PartOf root) :
        Settled ent (deleteUp root (s :: rev) false) (rev.reverse ++ [s]) := by
      have hup : Settled ent (deleteUp root (s :: rev) false) rev.reverse := by
        rw [deleteUp, h]
        split
        · rename_i hpr
          exact settled_of_presence hf hall ht' hpr
        · exact ih ht' (hm'.partOf hp ht' ht)
      intro l cur c hl hpre hw hi
      rcases List.prefix_concat_iff.mp hpre with rfl | hpre
      · exfalso
        have hpart : (deleteUp root (s :: rev) false).PartOf root' := by
          rw [deleteUp, h]
          split
          · exact fun l n hn => hn
          · exact deleteUp_partOf _ _ _
        have := hpart.isSome (l := rev.reverse ++ [s]) (by rw [Config.get?_of_walk hw]; rfl)
        rw [hnone] at this
        cases this
      · exact hup l cur c hl hpre hw hi
    cases hg : root.get? (rev.reverse ++ [s]) with
    | none => exact hgone root (deleteStep_none hg) hg ht fun l n hn => hn
    | some c =>
      obtain ⟨cur, hw, htc⟩ := ht.walk_of_get hg
      obtain ⟨e, he, -⟩ := ht.kind_of_walk hf hall hw
      have hstep := @deleteStep_eq root c rev.reverse s e false hg he
      rw [clears_false] at hstep
      by_cases hd : c.drops e s.slot false = true
      · rw [if_pos hd] at hstep
        have hnone := @Config.get?_without_below root s rev.reverse []
        rw [List.append_nil] at hnone
        have ht' : Typed env (.root ent) (root.without rev.reverse s) := ht.without _ _
        exact hgone _ hstep hnone ht' (Config.partOf_without root rev.reverse s)
      · rw [if_neg hd] at hstep
        have hsame : deleteUp root (s :: rev) false = root := by
          rw [deleteUp, hstep]
          have hc : (root.get? (rev.reverse ++ [s])).isSome := by
            rw [hg]
            rfl
          simp only [Bool.false_eq_true, if_false, deleteUp_of_child hc, ite_self]
        rw [hsame]
        intro l cur' c' hl hpre hw' hi
        rcases List.prefix_concat_iff.mp hpre with rfl | hpre
        · rw [hw] at hw'
          cases hw'
          by_contra hempty
          exact hd (ht.drops_inner hf hall hw (hm _ _ _ (by simp) List.prefix_rfl hw) hi
            (by simpa using hempty) he)
        · exact settled_of_child (by rw [hg]; rfl) l cur' c' hl hpre hw' hi

/-- The nodes above one that `Delete` is called on are settled. -/
theorem delete_settled (ht : Typed env (.root ent) root) (hfl : root.Flagged) {leaf : Bool}
    (h : (root.get? (loc ++ [s])).isSome) : Settled ent (delete root (loc ++ [s]) leaf) loc := by
  have hm := hfl.marked ht h
  have ht' : Typed env (.root ent) (deleteStep root loc s leaf) := ht.deleteStep _ _ _
  have hp : (deleteStep root loc s leaf).PartOf root := deleteStep_partOf _ _ _ _
  rw [delete, List.reverse_append, List.reverse_singleton, List.singleton_append, deleteUp,
    List.reverse_reverse]
  split
  · rename_i hpr
    exact settled_of_presence hf hall ht' hpr
  · have := @deleteUp_settled env ent _ loc.reverse hf hall ht'
      (by rw [List.reverse_reverse]; exact hm.partOf hp ht' ht)
    rwa [List.reverse_reverse] at this

end

/-! ## ParseDelete -/

/-- The place the tokens lead to, as `ParseDelete` follows them in the tree. -/
def deletePlace (root : Config) : List String → Loc → YMatchState → Option Loc
  | [], loc, _ => some loc
  | str :: cmds, loc, s₀ =>
    let s := matchConfigAt root loc str { s₀ with best := .typeNone, count := 0, comps := [] }
    if s.count = 1 then s.config.bind fun loc => deletePlace root cmds loc s else none

section

variable {root : Config} {loc : Loc} {cmds : List String} {r : ParseResult} {str : String}

theorem matchConfig_complete (config : Loc) (val str : String) (s : YMatchState) :
    (matchConfig config val str s).complete = s.complete := by
  have htally (m : MatchType) (s : YMatchState) :
      (if s.best.rank < m.rank then { s with best := m, config := some config, count := 1 }
        else if m = s.best then { s with count := s.count + 1 } else s).complete = s.complete := by
    split
    · rfl
    · split <;> rfl
  rw [matchConfig]
  split
  · rfl
  · exact (htally _ _).trans (by split <;> rfl)

theorem matchConfigAt_complete (root : Config) (loc : Loc) (str : String) (s : YMatchState) :
    (matchConfigAt root loc str s).complete = s.complete := by
  have hfold (l : List Config) (f : Config → Loc) (s : YMatchState) :
      (l.foldl (fun s d => matchConfig (f d) d.name str s) s).complete = s.complete := by
    induction l generalizing s with
    | nil => rfl
    | cons d l ih => rw [List.foldl_cons, ih, matchConfig_complete]
  rw [matchConfigAt]
  split
  · rw [matchConfigDir]
    split
    · rfl
    · rw [hfold, hfold]
  · show (matchConfigValue root loc str s).complete = s.complete
    rw [matchConfigValue]
    split
    · rfl
    · split
      · split
        · exact matchConfig_complete _ _ _ _
        · rfl
      · split
        · exact matchConfig_complete _ _ _ _
        · rfl

/-- Outside completion `ParseDelete` calls `Delete` on the place its tokens lead to,
or fails and leaves the tree. -/
theorem parseDeleteFrom_cases {s : YMatchState} (hc : s.complete = false)
    (h : parseDeleteFrom cmds root loc s = some r) :
    r.code ≠ .parseSuccess ∧ r.tree = root ∨
    r.code = .parseSuccess ∧ ∃ l, deletePlace root cmds loc s = some l ∧ (root.get? l).isSome ∧
      r.tree = delete root l true := by
  induction cmds generalizing loc s with
  | nil => cases h
  | cons str cmds ih =>
    rw [parseDeleteFrom] at h
    rw [deletePlace]
    have hc' := matchConfigAt_complete root loc str
      { s with best := .typeNone, count := 0, comps := [] }
    generalize matchConfigAt root loc str { s with best := .typeNone, count := 0, comps := [] } = t
      at h hc' ⊢
    rw [show ({ s with best := .typeNone, count := 0, comps := [] } : YMatchState).complete =
      s.complete from rfl, hc] at hc'
    dsimp only at h ⊢
    split at h
    · cases h
      exact .inl ⟨by simp, rfl⟩
    · split at h
      · cases h
        exact .inl ⟨by simp, rfl⟩
      · have hcount : t.count = 1 := by omega
        rw [if_pos hcount]
        split at h
        · cases h
        · rename_i l hl
          rw [hl, Option.bind_some]
          cases cmds with
          | cons cmd cmds => exact ih hc' h
          | nil =>
            simp only [hc', Bool.false_and, Bool.false_eq_true, if_false] at h
            split at h
            · cases h
              exact .inl ⟨by simp, rfl⟩
            · split at h
              · cases h
              · rename_i c hg
                split at h
                · split at h
                  · cases h
                    exact .inl ⟨by simp, rfl⟩
                  · cases h
                    exact .inr ⟨rfl, l, rfl, by rw [hg]; rfl, rfl⟩
                · cases h
                  exact .inl ⟨by simp, rfl⟩

theorem parseDelete_cases (h : parseDelete root cmds = some r) :
    r.code ≠ .parseSuccess ∧ r.tree = root ∨
    r.code = .parseSuccess ∧ ∃ l, deletePlace root cmds [] {} = some l ∧ (root.get? l).isSome ∧
      r.tree = delete root l true :=
  parseDeleteFrom_cases rfl h

end

/-! ## Runs -/

theorem Stands.start {root : Config} (h : Typed env (.root ent) root) :
    Stands env ent (root, []) (.root ent) :=
  ⟨h, _, _, rfl, .same _ _⟩

/-- Set mode carries out the calls of a part of the tokens. -/
theorem parse_trace {root : Config} {cmds : List String} {r : ParseResult}
    (hp : parse env ent root cmds = some r) :
    ∃ cmds' ops cur, Trace env (.root ent) cmds' ops cur ∧
      r.tree = (applyOps env ops (root, [])).1 := by
  rw [parse_eq_plan, Option.map_eq_some_iff] at hp
  obtain ⟨⟨code, ops⟩, hp, rfl⟩ := hp
  obtain ⟨cmds', cur, -, ht, -⟩ := plan_trace hp
  exact ⟨cmds', ops, cur, ht, rfl⟩

/-- The trees that calls of set-mode `Parse`, `ParseDelete` and `Delete` reach from
the empty root, whatever they return. -/
inductive Edited (env : Env) (ent : Entry) : Config → Prop
  | empty : Edited env ent {}
  | parse {root : Config} {cmds : List String} {r : ParseResult} : Edited env ent root →
    parse env ent root cmds = some r → Edited env ent r.tree
  | parseDelete {root : Config} {cmds : List String} {r : ParseResult} : Edited env ent root →
    parseDelete root cmds = some r → Edited env ent r.tree
  | delete {root : Config} {loc : Loc} (leaf : Bool) : Edited env ent root →
    (root.get? loc).isSome → Edited env ent (delete root loc leaf)

namespace Edited

variable {root : Config}

theorem typed (h : Edited env ent root) : Typed env (.root ent) root := by
  induction h with
  | empty => exact .empty _
  | parse _ hp ih =>
    obtain ⟨cmds', ops, cur, ht, htree⟩ := parse_trace hp
    rw [htree]
    exact (ht.stands (.start ih)).typed
  | parseDelete _ hp ih =>
    obtain ⟨-, htree⟩ | ⟨-, l, -, -, htree⟩ := parseDelete_cases hp
    · rw [htree]
      exact ih
    · rw [htree]
      exact ih.delete l true
  | delete leaf _ _ ih => exact ih.delete _ leaf

theorem flagged (h : Edited env ent root) : root.Flagged := by
  induction h with
  | empty => exact Config.flagged_bare {}
  | parse h hp ih =>
    obtain ⟨cmds', ops, cur, ht, htree⟩ := parse_trace hp
    rw [htree]
    exact ht.flagged (.start h.typed) ih
  | parseDelete _ hp ih =>
    obtain ⟨-, htree⟩ | ⟨-, l, -, -, htree⟩ := parseDelete_cases hp
    · rw [htree]
      exact ih
    · rw [htree]
      exact ih.partOf (deleteUp_partOf _ _ _)
  | delete leaf _ _ ih => exact ih.partOf (deleteUp_partOf _ _ _)

end Edited

theorem parseDelete_settled {root : Config} {cmds : List String} {r : ParseResult}
    (hf : FindsRegular env) (hall : ent.All Entry.Regular) (h : Edited env ent root)
    (hp : parseDelete root cmds = some r) (hs : r.code = .parseSuccess) :
    ∃ loc, deletePlace root cmds [] {} = some loc ∧ r.tree = delete root loc true ∧
      Settled ent r.tree loc.dropLast := by
  obtain ⟨hn, -⟩ | ⟨-, loc, hloc, hg, htree⟩ := parseDelete_cases hp
  · exact absurd hs hn
  · refine ⟨loc, hloc, htree, ?_⟩
    rcases List.eq_nil_or_concat loc with rfl | ⟨pre, s, rfl⟩
    · intro l _ _ hl hpre
      exact absurd (List.prefix_nil.mp hpre) hl
    · rw [List.concat_eq_append] at htree hg ⊢
      rw [htree, List.dropLast_concat]
      exact delete_settled hf hall h.typed h.flagged hg

end OpenConfigd
