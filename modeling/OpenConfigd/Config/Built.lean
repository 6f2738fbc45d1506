import OpenConfigd.Config.Edit
import OpenConfigd.Config.Rebuild

/-!
# Trees of successful calls

`Built` are the trees that successful calls of `Parse` and `ParseDelete` reach
from the empty root. None of their nodes is half made (`Built.closed`): `Delete`
takes the node it is called on, and what it leaves without children above it.
-/

namespace OpenConfigd

variable {env : Env} {ent : Entry}

/-- The trees that successful calls of set-mode `Parse` and of `ParseDelete` reach from
the empty root. -/
inductive Built (env : Env) (ent : Entry) : Config → Prop
  | empty : Built env ent {}
  | set {root : Config} {cmds : List String} {r : ParseResult} : Built env ent root →
    parse env ent root cmds = some r → r.code = .parseSuccess → Built env ent r.tree
  | delete {root : Config} {cmds : List String} {r : ParseResult} : Built env ent root →
    parseDelete root cmds = some r → r.code = .parseSuccess → Built env ent r.tree

theorem Built.edited {root : Config} (h : Built env ent root) : Edited env ent root := by
  induction h with
  | empty => exact .empty
  | set _ hp _ ih => exact .parse ih hp
  | delete _ hp _ ih => exact .parseDelete ih hp

/-! ## What `Delete` leaves -/

section

variable {root c : Config} {pre loc l : Loc} {s : Step} {leaf : Bool}

/-- Off the way to the node, one level of `Delete` leaves what there was, or nothing. -/
theorem deleteStep_off (h : ¬ l <+: pre ++ [s]) :
    (deleteStep root pre s leaf).get? l = root.get? l ∨
      (deleteStep root pre s leaf).get? l = none := by
  rcases deleteStep_cases root pre s leaf with heq | ⟨-, heq | heq⟩
  · rw [heq]
    exact .inl rfl
  · rw [heq]
    have hpre : ¬ l <+: pre := fun hp => h (hp.trans (List.prefix_append pre [s]))
    by_cases hp : pre <+: l
    · obtain ⟨r, rfl⟩ := hp
      cases r with
      | nil => exact absurd (by simp) hpre
      | cons t r =>
        by_cases hts : t = s
        · subst hts
          have := @Config.get?_without_below root t pre r
          rw [List.append_assoc] at this
          exact .inr this
        · left
          rw [Config.without, Config.get?_modify_append (Config.deleteChild_keepsName s),
            Config.get?_append]
          cases root.get? pre with
          | none => rfl
          | some p =>
            rw [Option.bind_some, Option.bind_some, Config.get?_cons, Config.get?_cons,
              Config.child?_deleteChild_ne p hts]
    · exact .inl (Config.get?_without_off hp hpre)
  · rw [heq]
    by_cases hp : pre ++ [s] <+: l
    · obtain ⟨r, rfl⟩ := hp
      cases r with
      | nil => exact absurd (by simp) h
      | cons t r =>
        right
        rw [Config.get?_modify_append (f := Config.clear) fun _ => rfl]
        cases root.get? (pre ++ [s]) with
        | none => rfl
        | some c => exact Config.get?_clear_cons c t r
    · exact .inl (Config.get?_modify_off (f := Config.clear) (fun _ => rfl) root hp h)

theorem deleteUp_off {rev : List Step} (h : ¬ l <+: rev.reverse) :
    (deleteUp root rev leaf).get? l = root.get? l ∨ (deleteUp root rev leaf).get? l = none := by
  induction rev generalizing root leaf with
  | nil => exact .inl rfl
  | cons s rev ih =>
    rw [List.reverse_cons] at h
    have hrev : ¬ l <+: rev.reverse := fun hp => h (hp.trans (List.prefix_append _ _))
    have hstep := @deleteStep_off root rev.reverse l s leaf h
    rw [deleteUp]
    split
    · exact hstep
    · rcases @ih (deleteStep root rev.reverse s leaf) false hrev with heq | hnone
      · rw [heq]
        exact hstep
      · exact .inr hnone

/-- Off the way to the node, `Delete` leaves what there was, or nothing. -/
theorem delete_off (h : ¬ l <+: loc) :
    (delete root loc leaf).get? l = root.get? l ∨ (delete root loc leaf).get? l = none :=
  deleteUp_off (by rwa [List.reverse_reverse])

/-- A node that is settled or has its values is done. -/
theorem Typed.done_of_settled {cur : Cursor} {e : Entry} (ht : Typed env (.root ent) root)
    (hw : root.walk (.root ent) (pre ++ [s]) = some (cur, c)) (he : c.entry = some e)
    (hkind : e.kind = .directory ∨ e.kind = .leaf) (hlist : hasKey e = true → e.presence = false)
    (hin : Inner cur c → c.isEmpty = false)
    (hval : cur.state = .stateLeaf ∨ cur.state = .stateLeafList → Done cur c) : Done cur c := by
  have htc := ht.of_walk hw
  obtain ⟨cur₁, p, e', hwp, hch, he', hcur⟩ := Config.walk_snoc hw
  rw [he] at he'
  cases he'
  obtain ⟨e', hedge, he', -⟩ := (ht.of_walk hwp).child?_edge hch
  rw [he] at he'
  cases he'
  -- A state in which children are missing is that of an inner node.
  have hinner (hst : cur.state = .stateDir ∨ cur.state = .stateKey) : Inner cur c := by
    obtain ⟨slot, n⟩ := s
    cases slot with
    | keys =>
      rw [hcur] at hst ⊢
      refine .inr ⟨hedge.fields_key.2.1, hst.resolve_left fun h => ?_⟩
      simp only [Cursor.child, Cursor.enterKey] at h
      split at h <;> cases h
    | configs =>
      refine .inl ⟨e, he, ?_⟩
      rw [hcur] at hst
      simp only [Cursor.child, Cursor.enter] at hst
      rcases hkind with hk | hk
      · refine ⟨hk, ?_⟩
        simp only [entryNextState, hk, isPresenceContainer] at hst
        cases hkey : hasKey e with
        | true => exact hlist hkey
        | false =>
          cases hp : e.presence with
          | false => rfl
          | true => simp [hkey, hp] at hst
      · exfalso
        simp only [entryNextState, hk] at hst
        split at hst
        · simp at hst
        · split at hst <;> simp at hst
  cases hst : cur.state with
  | stateDir =>
    have hne := hin (hinner (.inl hst))
    have hkeys := htc.keys_nil (by simp [hst])
    rw [Done, hst]
    intro hconf
    simp [Config.isEmpty, hconf, hkeys] at hne
  | stateKey =>
    have hne := hin (hinner (.inr hst))
    have hconf := htc.configs_nil (by simp [Cursor.isDir, hst])
    rw [Done, hst]
    intro hkeys
    simp [Config.isEmpty, hconf, hkeys] at hne
  | stateLeaf => exact hval (.inl hst)
  | stateLeafList => exact hval (.inr hst)
  | _ => rw [Done, hst]; trivial

end

section

variable {root c : Config} {pre loc l : Loc} {s : Step} (hf : FindsRegular env)
  (hall : ent.All Entry.Regular)

include hf hall

/-- A finished leaf, a key or a container is taken out of its parent. -/
theorem Typed.drops_done {cur : Cursor} {e : Entry} (ht : Typed env (.root ent) root)
    (hw : root.walk (.root ent) (pre ++ [s]) = some (cur, c))
    (hd : cur.state = .stateLeaf ∨ cur.state = .stateLeafList → Done cur c)
    (he : c.entry = some e) (hkind : e.kind = .directory ∨ e.kind = .leaf) :
    c.drops e s.slot true = true := by
  obtain ⟨cur₁, p, e', hwp, hch, he', rfl⟩ := Config.walk_snoc hw
  rw [he] at he'
  cases he'
  obtain ⟨e', hedge, he', -⟩ := (ht.of_walk hwp).child?_edge hch
  rw [he] at he'
  cases he'
  have hcont := (ht.of_walk hw).content
  obtain ⟨slot, n⟩ := s
  cases slot with
  | keys =>
    have hleaf := (hedge.kind_leaf hf (ht.walk_all hall hwp)).2
    simp only [Config.drops, hleaf]
    exact hedge.fields_key.2.1
  | configs =>
    rcases hkind with hk | hk
    · simp only [Config.drops, hk]
    · simp only [Config.drops, hk]
      rw [Bool.or_eq_true]
      by_cases hem : isEmptyLeaf e = true
      · exact .inr hem
      · left
        have hst : (Cursor.enter e).state = if e.isLeafList then .stateLeafList else .stateLeaf := by
          simp [Cursor.enter, entryNextState, hk, hem]
        by_cases hl : e.isLeafList = true
        · rw [if_pos hl] at hst
          have hdone := hd (.inr hst)
          simp only [Cursor.child, Done, Content, hst] at hdone hcont
          exact hcont.2.2 hdone
        · rw [if_neg hl] at hst
          have hdone := hd (.inl hst)
          simp only [Cursor.child, Done, hst] at hdone
          exact hdone

/-- `Delete` on a finished node takes it out. -/
theorem delete_gone {cur : Cursor} {e : Entry} (ht : Typed env (.root ent) root)
    (hw : root.walk (.root ent) (pre ++ [s]) = some (cur, c)) (hd : Done cur c)
    (he : c.entry = some e) (hkind : e.kind = .directory ∨ e.kind = .leaf) :
    (delete root (pre ++ [s]) true).get? (pre ++ [s]) = none := by
  have hstep : (deleteStep root pre s true).get? (pre ++ [s]) = none := by
    rw [deleteStep_eq (Config.get?_of_walk hw) he, if_pos (ht.drops_done hf hall hw (fun _ => hd) he hkind)]
    have := @Config.get?_without_below root s pre []
    rwa [List.append_nil] at this
  rw [delete, List.reverse_append, List.reverse_singleton, List.singleton_append, deleteUp,
    List.reverse_reverse]
  split
  · exact hstep
  · by_contra hne
    have hsome := (deleteUp_partOf (deleteStep root pre s true) pre.reverse false).isSome
      (l := pre ++ [s]) (Option.ne_none_iff_isSome.mp hne)
    rw [hstep] at hsome
    cases hsome

/-- The nodes of the tree are containers, lists and leaves, and no list has a presence
statement. -/
def DataNodes (root : Config) : Prop :=
  ∀ l c e, l ≠ [] → root.get? l = some c → c.entry = some e →
    (e.kind = .directory ∨ e.kind = .leaf) ∧ (hasKey e = true → e.presence = false)

/-- `Delete` leaves no node half made. -/
theorem Closed.delete (hc : Closed ent root) (ht : Typed env (.root ent) root) (hfl : root.Flagged)
    (hd : DataNodes root) (hg : (root.get? loc).isSome) : Closed ent (delete root loc true) := by
  rcases List.eq_nil_or_concat loc with rfl | ⟨pre, s, rfl⟩
  · exact hc
  · rw [List.concat_eq_append] at hg ⊢
    have ht' : Typed env (.root ent) (OpenConfigd.delete root (pre ++ [s]) true) := ht.delete _ _
    have hpart : (OpenConfigd.delete root (pre ++ [s]) true).PartOf root := deleteUp_partOf _ _ _
    have hset := @delete_settled env ent root pre s hf hall ht hfl true hg
    intro l cur c hl hw
    obtain ⟨c₀, hw₀, hnode⟩ := hpart.walk ht' ht hw
    have hdone := hc l cur c₀ hl hw₀
    by_cases hpre : l <+: pre ++ [s]
    · rcases List.prefix_concat_iff.mp hpre with rfl | hpre
      · exfalso
        obtain ⟨-, -, e, -, -, he, -⟩ := Config.walk_snoc hw₀
        have hgone := delete_gone hf hall ht hw₀ hdone he (hd _ _ _ hl (Config.get?_of_walk hw₀) he).1
        rw [Config.get?_of_walk hw] at hgone
        cases hgone
      · obtain ⟨pre', t, rfl⟩ := List.eq_nil_or_concat l |>.resolve_left hl
        rw [List.concat_eq_append] at hw hw₀ hl hpre
        obtain ⟨-, -, e, -, -, he, -⟩ := Config.walk_snoc hw
        have he₀ : c₀.entry = some e := by
          rw [show c₀.entry = c₀.toNode.entry from rfl, hnode]
          exact he
        obtain ⟨hkind, hlist⟩ := hd _ _ _ hl (Config.get?_of_walk hw₀) he₀
        refine ht'.done_of_settled hw he hkind hlist (hset _ _ _ hl hpre hw) fun hst => ?_
        rcases hst with hst | hst
        · rw [Done, hst] at hdone ⊢
          rw [show c.hasValue = c.toNode.hasValue from rfl, ← hnode]
          exact hdone
        · rw [Done, hst] at hdone ⊢
          rw [show c.valueList = c.toNode.valueList from rfl, ← hnode]
          exact hdone
    · have hgl := Config.get?_of_walk hw
      rcases @delete_off root (pre ++ [s]) l true hpre with heq | hnone
      · rw [heq, Config.get?_of_walk hw₀] at hgl
        cases hgl
        exact hdone
      · rw [hnone] at hgl
        cases hgl

end

/-! ## Runs -/

/-- The root carries no fields of its own. -/
theorem Edited.toNode {root : Config} (h : Edited env ent root) : root.toNode = {} := by
  induction h with
  | empty => rfl
  | parse h hp ih =>
    obtain ⟨cmds', ops, cur, htr, htree⟩ := parse_trace hp
    rw [htree, htr.toNode (.start h.typed)]
    exact ih
  | parseDelete _ hp ih =>
    obtain ⟨-, htree⟩ | ⟨-, l, -, -, htree⟩ := parseDelete_cases hp
    · rw [htree]
      exact ih
    · rw [htree, delete_toNode, ih]
  | delete leaf _ _ ih => rw [delete_toNode, ih]

namespace Built

variable {root : Config}

theorem toNode (h : Built env ent root) : root.toNode = {} := h.edited.toNode

theorem closed (hf : FindsRegular env) (hall : ent.All Entry.Regular)
    (hd : ∀ root, Typed env (.root ent) root → DataNodes root) (h : Built env ent root) :
    Closed ent root := by
  induction h with
  | empty => exact .empty ent
  | set h hp hs ih =>
    obtain ⟨ops, cur, htr, ha, htree⟩ := parse_success hp hs
    rw [htree]
    exact (htr.focus (.start h.edited.typed ih)).closed ha
  | delete h hp hs ih =>
    obtain ⟨hn, -⟩ | ⟨-, l, -, hg, htree⟩ := parseDelete_cases hp
    · exact absurd hs hn
    · rw [htree]
      exact ih.delete hf hall h.edited.typed h.edited.flagged (hd _ h.edited.typed) hg

end Built

/-- With one key a list and no choices, the nodes are containers, lists and leaves. -/
theorem Typed.dataNodes {root : Config} (hf : FindsRegular env) (hall : ent.All Entry.Regular)
    (hk : ent.All Entry.OneKey) (hn : ent.All Entry.NoChoice) (ht : Typed env (.root ent) root) :
    DataNodes root := by
  intro l c e hl hg he
  obtain ⟨pre, s, rfl⟩ := List.eq_nil_or_concat l |>.resolve_left hl
  rw [List.concat_eq_append] at hg
  obtain ⟨cur, hw, -⟩ := ht.walk_of_get hg
  obtain ⟨cur₁, p, e', hwp, hch, -, -⟩ := Config.walk_snoc hw
  obtain ⟨e', hedge, he', -⟩ := (ht.of_walk hwp).child?_edge hch
  rw [he] at he'
  cases he'
  obtain ⟨slot, n⟩ := s
  cases slot with
  | keys =>
    obtain ⟨hr, hleaf⟩ := hedge.kind_leaf hf (ht.walk_all hall hwp)
    refine ⟨.inr hleaf, fun _ => ?_⟩
    by_contra hp
    rw [hr.presence (by simpa using hp)] at hleaf
    cases hleaf
  | configs =>
    obtain ⟨hdir, ⟨str, hs⟩, -⟩ := id hedge
    refine ⟨(hs.all hdir (ht.walk_all hn hwp)).self.kind, fun hkey => ?_⟩
    exact (hs.all hdir (ht.walk_all hk hwp)).self.list hkey

end OpenConfigd
