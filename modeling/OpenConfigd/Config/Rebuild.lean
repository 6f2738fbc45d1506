import OpenConfigd.Config.Command
import OpenConfigd.Config.OneKey

/-!
# Rebuilding a tree from its paths

The tokens along the place of a node select the entries along it
(`Typed.path_trace`), so that `Parse` of the path of a node of a tree, run on a
part of that tree, adds just the nodes along the path (`rebuild_path`).
-/

namespace OpenConfigd

variable {env : Env} {ent : Entry}

/-- The name of a schema node is one word, as YANG identifiers are. -/
def Entry.Named (e : Entry) : Prop := OneWord e.name

instance : DecidablePred Entry.Named := fun e => inferInstanceAs (Decidable (OneWord e.name))

section

variable {cur cur' cur'' : Cursor} {c d : Config} {ops ops' : List Op} {cmds cmds' : List String}

theorem Trace.append (h : Trace env cur cmds ops cur') (h' : Trace env cur' cmds' ops' cur'') :
    Trace env cur (cmds ++ cmds') (ops ++ ops') cur'' := by
  induction h with
  | nil => exact h'
  | cons hs _ ih => exact .cons hs (ih h')

theorem Trace.pathLoc_append (h : Trace env cur cmds ops cur') (cmds' : List String) :
    pathLoc env (cmds ++ cmds') cur = pathLoc env cmds cur ++ pathLoc env cmds' cur' := by
  induction h with
  | nil => rfl
  | cons hs _ ih =>
    obtain ⟨m, hs⟩ := hs
    rw [List.cons_append, pathLoc, pathLoc, hs]
    simp only [ih, List.append_assoc]

/-- The names in a directory do not depend on the token. -/
theorem Cursor.alternatives_dir (hd : cur.isDir = true) (str str' : String) :
    cur.alternatives env str = cur.alternatives env str' := by
  rw [alternatives, alternatives]
  cases hst : cur.state <;> simp [isDir, hst] at hd
  all_goals rfl

/-- An entry that a token selects is selected by its name. -/
theorem Cursor.Selects.name {str : String} {e : Entry} (hn : cur.ent.All Entry.Named)
    (hd : cur.isDir = true) (hs : cur.Selects env str e) : cur.Selects env e.name e := by
  obtain ⟨m, hs⟩ := hs
  obtain ⟨l, hl, hp⟩ := Cursor.select_unique.mp hs
  refine ⟨.typeExact, Cursor.select_unique.mpr ⟨l, cur.alternatives_dir hd _ _ ▸ hl, ?_⟩⟩
  rw [alternatives] at hl
  cases hst : cur.state <;> simp [isDir, hst] at hd <;> simp only [hst, Option.some.injEq] at hl
  case stateDir | stateDirMatched =>
    subst hl
    exact keyword_unique (fun c hc => (dirCandidates_all hn c hc).self) hp
  case stateKeyMatched =>
    subst hl
    refine keyword_unique (fun c hc => ?_) hp
    exact (candidates_all (fun c hc => hn.child (List.mem_filter.mp hc).1) c hc).self

/-- The tokens name the nodes along a place, one each. -/
structure PathTrace (env : Env) (cur : Cursor) (l : Loc) (ops : List Op) (cur' : Cursor) : Prop where
  trace : Trace env cur (l.map (·.name)) ops cur'
  place : pathLoc env (l.map (·.name)) cur = l
  exact : Exact env (l.map (·.name)) cur
  value : ∀ cmds, valuePart env (l.map (·.name) ++ cmds) cur = valuePart env cmds cur'

theorem PathTrace.cons {s : Step} {l : Loc} {e : Entry} (hi : cur.isNode = true)
    (hs : cur.Selects env s.name e) (hx : cur.isDir = true → s.name = e.name)
    (hst : (cur.op e s.name).steps = [s]) (h : PathTrace env (cur.next e) l ops cur') :
    PathTrace env cur (s :: l) (cur.op e s.name :: ops) cur' := by
  refine ⟨.cons hs h.trace, ?_, ?_, fun cmds => ?_⟩ <;> obtain ⟨m, hs⟩ := hs
  · rw [List.map_cons, pathLoc, hs]
    simp only [h.place, hst]
    rfl
  · rw [List.map_cons, Exact, hs]
    exact ⟨hx, h.exact⟩
  · rw [List.map_cons, List.cons_append, valuePart, hs]
    simp only [hi, if_true]
    exact h.value cmds

/-- The names along a place select the entries along it. -/
theorem Typed.path_trace {l : Loc} (ht : Typed env cur c) (hn : cur.ent.All Entry.Named)
    (hw : c.walk cur l = some (cur', d)) : ∃ ops, PathTrace env cur l ops cur' := by
  induction l generalizing c cur with
  | nil =>
    cases hw
    exact ⟨[], .nil _, rfl, trivial, fun _ => rfl⟩
  | cons s l ih =>
    rw [Config.walk] at hw
    split at hw
    · cases hw
    · rename_i b hb
      obtain ⟨e, hedge, he, htb⟩ := ht.child?_edge hb
      simp only [he] at hw
      obtain ⟨slot, name⟩ := s
      have hname : b.name = name := Config.child?_name hb
      cases slot with
      | configs =>
        obtain ⟨hdir, ⟨str, hs⟩, -⟩ := id hedge
        have hen : name = e.name := hname.symm.trans hedge.name_configs
        obtain ⟨ops, h⟩ := ih htb (hs.all hdir hn) hw
        rw [show cur.child .configs e = cur.next e from (Cursor.next_dir hdir).symm] at h
        exact ⟨_, .cons (by simp [Cursor.isNode, hdir]) (hen ▸ hs.name hn hdir) (fun _ => hen)
          (by rw [Cursor.steps_dir hdir, hen]) h⟩
      | keys =>
        obtain ⟨hk, hs, -⟩ := id hedge
        have hs' : cur.Selects env name e := by
          rw [← hname]
          exact hs
        have hnn : (cur.child .keys e).ent.All Entry.Named := by
          show cur.enterKey.ent.All Entry.Named
          rw [Cursor.enterKey_ent]
          exact hn
        obtain ⟨ops, h⟩ := ih htb hnn hw
        rw [show cur.child .keys e = cur.next e from (Cursor.next_key hk).symm] at h
        refine ⟨_, .cons (by simp [Cursor.isNode, hk]) hs' (fun hd => ?_) (Cursor.steps_key hk) h⟩
        rw [Cursor.isDir, hk] at hd
        cases hd

/-- A list of values, after the first. -/
theorem Trace.listMatched {vs : List String} (h : ∀ v ∈ vs, ∃ e, cur.Selects env v e)
    (hs : cur.state = .stateLeafListMatched) :
    ∃ ops cur', Trace env cur vs ops cur' ∧ cur'.state = .stateLeafListMatched := by
  induction vs generalizing cur with
  | nil => exact ⟨[], cur, .nil cur, hs⟩
  | cons v vs ih =>
    obtain ⟨e, he⟩ := h v List.mem_cons_self
    have hnext : cur.next e = ⟨cur.ent, .stateLeafListMatched, 0⟩ := by simp only [Cursor.next, hs]
    have hsel (w : String) (hw : w ∈ vs) : ∃ e', (cur.next e).Selects env w e' := by
      obtain ⟨e', m, hw⟩ := h w (List.mem_cons_of_mem _ hw)
      refine ⟨e', m, ?_⟩
      rw [← hw, hnext, Cursor.select, Cursor.select, Cursor.alternatives, Cursor.alternatives, hs]
    obtain ⟨ops, cur', ht, hc⟩ := ih hsel (by rw [hnext])
    exact ⟨_, cur', .cons he ht, hc⟩

/-- The values of a finished node are accepted where the node is. -/
theorem Typed.value_trace {root : Config} {l : Loc} (ht : Typed env (.root ent) root)
    (hw : root.walk (.root ent) l = some (cur, c)) (hd : Done cur c)
    (hst : cur.state ≠ .stateDir ∧ cur.state ≠ .stateKey) :
    ∃ ops cur', Trace env cur c.toNode.values ops cur' ∧ cur'.accepts = true ∧
      valuePart env c.toNode.values cur = c.toNode.values ∧
      pathLoc env c.toNode.values cur = [] := by
  have hcon := (ht.of_walk hw).content
  have hne := Config.walk_state hw
  have none (hs : cur.state = .stateLeafMatched ∨ cur.state = .stateKeyMatched ∨
      cur.state = .stateDirMatched) : c.toNode.values = [] ∧ cur.accepts = true := by
    rcases hs with hs | hs | hs <;> simp only [Content, hs] at hcon <;>
      exact ⟨by simp [Node.values, hcon], by simp [Cursor.accepts, hs]⟩
  cases hs : cur.state <;> simp only [hs, ne_eq, not_true_eq_false, false_and, and_false] at hst hne
  case stateDirMatched | stateKeyMatched | stateLeafMatched =>
    obtain ⟨hv, ha⟩ := none (by simp [hs])
    rw [hv]
    exact ⟨[], cur, .nil cur, ha, rfl, rfl⟩
  case stateLeaf =>
    obtain ⟨he, hll⟩ := Config.walk_leaf hw (.inl hs)
    simp only [Done, hs] at hd
    simp only [Content, hs, hd, Bool.true_eq_false, false_and, true_and, false_or] at hcon
    obtain ⟨-, e, m, hsel⟩ := hcon
    have hv : c.toNode.values = [c.value] := by
      have : cur.ent.isLeafList = false := by simpa [hs] using hll
      simp [Node.values, he, this, hd]
    rw [hv]
    have hnode : cur.isNode = false := by simp [Cursor.isNode, Cursor.isDir, hs]
    have htr : Trace env cur [c.value] _ _ := .cons ⟨m, hsel⟩ (.nil _)
    refine ⟨_, _, htr, by simp [Cursor.next, hs, Cursor.accepts], ?_, (htr.pathLoc_value hnode).1⟩
    rw [valuePart, hsel]
    simp [hnode]
  case stateLeafList =>
    obtain ⟨he, hll⟩ := Config.walk_leaf hw (.inr hs)
    simp only [Done, hs] at hd
    simp only [Content, hs] at hcon
    have hv : c.toNode.values = c.valueList := by simp [Node.values, he, hll.mpr hs]
    rw [hv]
    obtain ⟨v, vs, hvs⟩ := List.exists_cons_of_ne_nil hd
    rw [hvs] at hcon ⊢
    obtain ⟨-, hsel, -⟩ := hcon
    obtain ⟨e, m, hsv⟩ := hsel v List.mem_cons_self
    have hnext : cur.next e = ⟨cur.ent, .stateLeafListMatched, 0⟩ := by simp only [Cursor.next, hs]
    have hsel' (w : String) (hw : w ∈ vs) : ∃ e', (cur.next e).Selects env w e' := by
      obtain ⟨e', m, hw⟩ := hsel w (List.mem_cons_of_mem _ hw)
      refine ⟨e', m, ?_⟩
      rw [← hw, hnext, Cursor.select, Cursor.select, Cursor.alternatives, Cursor.alternatives, hs]
    obtain ⟨ops, cur', htr, hc⟩ := Trace.listMatched hsel' (by rw [hnext])
    have hnode : cur.isNode = false := by simp [Cursor.isNode, Cursor.isDir, hs]
    have htr' := Trace.cons ⟨m, hsv⟩ htr
    refine ⟨_, cur', htr', by simp [Cursor.accepts, hc], ?_, (htr'.pathLoc_value hnode).1⟩
    rw [valuePart, hsv]
    simp [hnode]

end

/-! ## Parts of a tree -/

/-- The places of the first tree are places of the second. -/
def Config.Within (c d : Config) : Prop := ∀ l, (c.get? l).isSome → (d.get? l).isSome

theorem Edge.case_configs {cur : Cursor} {n : Node} {e : Entry} (h : Edge env cur .configs n e) :
    n.case = caseEntry e := by
  rw [h.2.2]
  rfl

section

variable {S T c : Config} {loc : Loc} {cur cur' : Cursor} {cmds : List String} {ops : List Op}

/-- In a part of a tree, no node of the tree displaces a sibling. -/
theorem Typed.kept_within {e : Entry} (hS : Typed env (.root ent) S) (hT : Typed env (.root ent) T)
    (hw : S.walk (.root ent) loc = some (cur, c)) (hin : S.Within T)
    (hg : (T.get? (loc ++ [⟨.configs, e.name⟩])).isSome) {str : String} (hd : cur.isDir = true)
    (hs : cur.Selects env str e) : c.kept e = c.configs := by
  obtain ⟨t, ht⟩ := Option.isSome_iff_exists.mp (Config.get?_prefix hg)
  obtain ⟨cur₁, hwt, htt⟩ := hT.walk_of_get ht
  obtain rfl := hT.cursor_unique hS hwt hw
  have htc := hS.of_walk hw
  have at_child {s : Step} (hg : (T.get? (loc ++ [s])).isSome) : ∃ d, t.child? s = some d := by
    rw [Config.get?_append, ht, Option.bind_some, Config.get?_single] at hg
    exact Option.isSome_iff_exists.mp hg
  rw [Config.kept]
  split
  · rename_i hcase
    refine List.filter_eq_self.mpr fun d hd' => ?_
    obtain ⟨e', hedge⟩ := htc.edge .configs d hd'
    have hch : c.child? ⟨.configs, d.name⟩ = some d := Keyed.get_of_mem (htc.nodup .configs) hd'
    have hgd : (S.get? (loc ++ [⟨.configs, d.name⟩])).isSome := by
      rw [Config.get?_append, Config.get?_of_walk hw, Option.bind_some, Config.get?_single, hch]
      rfl
    obtain ⟨d', hd''⟩ := at_child (hin _ hgd)
    obtain ⟨b, hb⟩ := at_child hg
    obtain ⟨e₁, hedge₁, -⟩ := htt.child?_edge hd''
    obtain ⟨e₂, hedge₂, -⟩ := htt.child?_edge hb
    have hcd : d'.case = d.case := by
      rw [hedge₁.case_configs, hedge.case_configs, hedge₁.inj hedge (Config.child?_name hd'')]
    have hcb : b.case = caseEntry e := by
      obtain ⟨-, ⟨str', hs'⟩, -⟩ := id hedge₂
      rw [hedge₂.case_configs, hs'.name_inj hd hs
        (hedge₂.name_configs.symm.trans (Config.child?_name hb))]
    cases hdc : d.case with
    | none => simp
    | some x =>
      have := htt.oneCase d' (Config.child?_mem hd'') b (Config.child?_mem hb)
        (by rw [hcd, hdc]; rfl) (by rw [hcb]; exact hcase)
      rw [hcd, hcb, hdc] at this
      simp [newNode, this]
  · rfl

theorem Focus.plain_within {str : String} {e : Entry} (hk : ent.All Entry.OneKey)
    (hT : Typed env (.root ent) T) (hf : Focus env ent (S, loc) cur) (hin : S.Within T)
    (hs : cur.Selects env str e) (hg : (T.get? (loc ++ (cur.op e str).steps)).isSome) :
    (cur.op e str).Plain S loc := by
  obtain ⟨cur₁, c, hw, hon⟩ := hf.on
  have hgc := Config.get?_of_walk hw
  rw [Op.Plain, hgc]
  by_cases hd : cur.isDir = true
  · rw [hon.eq (by constructor <;> intro h <;> rw [Cursor.isDir, h] at hd <;> cases hd)] at hw
    rw [Cursor.steps_dir hd] at hg
    have he := hf.typed.kept_within hT hw hin hg hd hs
    rw [Cursor.op_dir hd]
    by_cases hl : entryNextState e = .stateLeafList
    · rw [if_pos hl]
      exact .inr he
    · rw [if_neg hl]
      exact .inr he
  · cases hst : cur.state <;> simp [Cursor.isDir, hst] at hd <;> simp only [Cursor.op, hst]
    case stateKey =>
      rw [hon.eq (by simp [hst])] at hw
      exact hf.typed.lookupKey_oneKey hk hw hst str

/-- A plain call along a path of the tree stays within it. -/
theorem Focus.within {str : String} {e : Entry} (hf : Focus env ent (S, loc) cur)
    (hin : S.Within T) (hp : (cur.op e str).Plain S loc)
    (hg : (T.get? (loc ++ (cur.op e str).steps)).isSome) :
    Config.Within ((cur.op e str).apply env (S, loc)).1 T := by
  intro l hl
  by_cases hpre : l <+: loc ++ (cur.op e str).steps
  · obtain ⟨r, hr⟩ := hpre
    rw [← hr] at hg
    exact Config.get?_prefix hg
  · obtain ⟨cur₁, c, hw, -⟩ := hf.on
    rw [Op.apply_frame (Config.get?_of_walk hw) (hf.typed.of_walk hw).nodup hp hpre] at hl
    exact hin l hl

theorem Trace.plains_within (hk : ent.All Entry.OneKey) (hT : Typed env (.root ent) T)
    (ht : Trace env cur cmds ops cur') (hf : Focus env ent (S, loc) cur) (hin : S.Within T)
    (hg : (T.get? (loc ++ pathLoc env cmds cur)).isSome) : Plains env ops (S, loc) := by
  induction ht generalizing S loc with
  | nil => trivial
  | @cons cur cur' str e cmds ops hs _ ih =>
    obtain ⟨m, hsel⟩ := id hs
    rw [pathLoc, hsel] at hg
    simp only [← List.append_assoc] at hg
    have hg' := Config.get?_prefix hg
    have hp := hf.plain_within hk hT hin hs hg'
    have hin' := hf.within hin hp hg'
    have hf' := hf.step hs
    refine ⟨hp, ?_⟩
    have hloc := @Op.Direct.apply_loc env _ _ _ hp.direct
    generalize (cur.op e str).apply env (S, loc) = p at hin' hf' hloc
    obtain ⟨S', loc'⟩ := p
    simp only at hloc
    subst hloc
    exact ih hf' hin' hg

theorem Config.lookupKey_none {root : Config} {loc' : Loc} {key : String}
    (h : Config.lookupKey root loc key = (loc', none)) : loc' = loc := by
  rw [Config.lookupKey] at h
  split at h
  · cases h
    rfl
  · split at h
    · split at h
      · cases h
        rfl
      · split at h
        · cases h
        · cases h
          rfl
    · split at h
      · cases h
      · cases h
        rfl

/-- A call keeps the fields of the root. -/
theorem Stands.apply_toNode {str : String} {e : Entry} (hf : Stands env ent (S, loc) cur) :
    ((cur.op e str).apply env (S, loc)).1.toNode = S.toNode := by
  cases loc with
  | nil =>
    obtain ⟨cur₁, c, hw, hon⟩ := hf.on
    cases hw
    have hcur : cur = .root ent := by
      cases hon with
      | same => rfl
      | leaf h => simp [Cursor.root] at h
      | leafList h => simp [Cursor.root] at h
    subst hcur
    simp only [Cursor.op, Cursor.root]
    split
    · simp [Op.apply, Config.modify, Config.setLeafList]
    · simp [Op.apply, Config.modify]
  | cons s l =>
    cases cur.op e str with
    | setKey e key pre =>
      rw [Op.apply, Config.setKey]
      split
      · rfl
      · rename_i loc' heq
        rw [Config.lookupKey_none heq]
        exact Config.modify_toNode _ _ _ _
    | _ => exact Config.modify_toNode _ _ _ _

theorem Trace.toNode (ht : Trace env cur cmds ops cur') (hf : Stands env ent (S, loc) cur) :
    (applyOps env ops (S, loc)).1.toNode = S.toNode := by
  induction ht generalizing S loc with
  | nil => rfl
  | @cons cur cur' str e cmds ops hs _ ih =>
    rw [applyOps_cons, ← @Stands.apply_toNode env ent _ _ _ str e hf]
    exact ih (hf.step hs).stands

end

section

variable {S T c d : Config} {l : Loc} {cur : Cursor}

/-- The schema, the value and the mark of a key fix the fields of a node. -/
theorem Typed.toNode_of (hS : Typed env (.root ent) S) (hT : Typed env (.root ent) T) (hl : l ≠ [])
    (hwS : S.walk (.root ent) l = some (cur, c)) (hwT : T.walk (.root ent) l = some (cur, d))
    (hv : c.hasValue = d.hasValue ∧ c.value = d.value ∧ c.valueList = d.valueList)
    (hm : c.keyOnlyConfig = d.keyOnlyConfig) : c.toNode = d.toNode := by
  obtain ⟨pre, s, rfl⟩ := List.eq_nil_or_concat l |>.resolve_left hl
  rw [List.concat_eq_append] at hwS hwT
  obtain ⟨cur₁, p, e, hwp, hcp, -, -⟩ := Config.walk_snoc hwS
  obtain ⟨cur₂, q, e', hwq, hcq, -, -⟩ := Config.walk_snoc hwT
  obtain rfl := hS.cursor_unique hT hwp hwq
  obtain ⟨e₁, hc, -⟩ := (hS.of_walk hwp).child?_edge hcp
  obtain ⟨e₂, hd, -⟩ := (hT.of_walk hwq).child?_edge hcq
  have hnc := Config.child?_name hcp
  have hnd := Config.child?_name hcq
  obtain rfl := hc.inj hd (hnc.trans hnd.symm)
  obtain ⟨slot, name⟩ := s
  cases slot with
  | configs =>
    rw [hc.2.2, hd.2.2, hv.1, hv.2.1, hv.2.2]
  | keys =>
    rw [hc.2.2.1, hd.2.2.1, hm, hnc, hnd]

/-- The mark of a key says that the key has keys after it. -/
theorem Typed.marked {s : Step} (hS : Typed env (.root ent) S)
    (hw : S.walk (.root ent) (l ++ [s]) = some (cur, c)) (hm : c.keyOnlyConfig = true) :
    s.slot = .keys ∧ cur.state = .stateKey := by
  obtain ⟨cur₁, p, e, hwp, hcp, -, rfl⟩ := Config.walk_snoc hw
  obtain ⟨e₁, hc, -⟩ := (hS.of_walk hwp).child?_edge hcp
  obtain ⟨slot, name⟩ := s
  cases slot with
  | configs =>
    rw [show c.keyOnlyConfig = c.toNode.keyOnlyConfig from rfl, hc.2.2] at hm
    cases hm
  | keys => exact ⟨rfl, hc.2.2.2 hm⟩

/-- With one key a list, no key is marked. -/
theorem Typed.not_marked (hk : ent.All Entry.OneKey) (hS : Typed env (.root ent) S) (hl : l ≠ [])
    (hw : S.walk (.root ent) l = some (cur, c)) : c.keyOnlyConfig = false := by
  by_contra hm
  obtain ⟨pre, s, rfl⟩ := List.eq_nil_or_concat l |>.resolve_left hl
  rw [List.concat_eq_append] at hw
  obtain ⟨hslot, hst⟩ := hS.marked hw (by simpa using hm)
  obtain ⟨cur₁, p, e, hwp, -, -, rfl⟩ := Config.walk_snoc hw
  have hone : keyLength cur₁.ent = 1 := (hS.walk_all hk hwp).self.length
  rw [hslot, Cursor.child, Cursor.enterKey, hone, if_pos (by omega)] at hst
  cases hst

/-- With one key a list, the schema and the value fix the fields of a node. -/
theorem Typed.toNode_eq (hk : ent.All Entry.OneKey) (hS : Typed env (.root ent) S)
    (hT : Typed env (.root ent) T) (hl : l ≠ []) (hwS : S.walk (.root ent) l = some (cur, c))
    (hwT : T.walk (.root ent) l = some (cur, d))
    (hv : c.hasValue = d.hasValue ∧ c.value = d.value ∧ c.valueList = d.valueList) :
    c.toNode = d.toNode :=
  hS.toNode_of hT hl hwS hwT hv ((hS.not_marked hk hl hwS).trans (hT.not_marked hk hl hwT).symm)

/-- Finished nodes of one cursor with the same values have the same fields. -/
theorem Typed.fields_eq (hS : Typed env (.root ent) S) (hT : Typed env (.root ent) T)
    (hwS : S.walk (.root ent) l = some (cur, c)) (hwT : T.walk (.root ent) l = some (cur, d))
    (hc : Done cur c) (hd : Done cur d) (hv : c.toNode.values = d.toNode.values) :
    c.hasValue = d.hasValue ∧ c.value = d.value ∧ c.valueList = d.valueList := by
  have h₁ := (hS.of_walk hwS).content
  have h₂ := (hT.of_walk hwT).content
  cases hs : cur.state <;> simp only [Content, Done, hs] at h₁ h₂ hc hd
  case stateLeaf =>
    obtain ⟨hce, hcl⟩ := Config.walk_leaf hwS (.inl hs)
    obtain ⟨hde, -⟩ := Config.walk_leaf hwT (.inl hs)
    have hll : cur.ent.isLeafList = false := by simpa [hs] using hcl
    simp only [Node.values, hce, hde, hll, hc, hd, Option.map_some, Option.getD_some,
      Bool.false_eq_true, if_false, if_true, List.cons.injEq, and_true] at hv
    exact ⟨hc.trans hd.symm, hv, h₁.1.trans h₂.1.symm⟩
  case stateLeafList =>
    obtain ⟨hce, hcl⟩ := Config.walk_leaf hwS (.inr hs)
    obtain ⟨hde, -⟩ := Config.walk_leaf hwT (.inr hs)
    simp only [Node.values, hce, hde, hcl.mpr hs, Option.map_some, Option.getD_some, if_true] at hv
    exact ⟨(h₁.2.2 hc).trans (h₂.2.2 hd).symm, h₁.1.trans h₂.1.symm, hv⟩
  all_goals exact ⟨h₁.2.2.trans h₂.2.2.symm, h₁.1.trans h₂.1.symm, h₁.2.1.trans h₂.2.1.symm⟩

/-- A node with children has the cursor of one. -/
theorem Typed.isNode {s : Step} {b : Config} (h : Typed env cur c) (hb : c.child? s = some b) :
    cur.isNode = true := by
  obtain ⟨e, hedge, -⟩ := h.child?_edge hb
  obtain ⟨slot, n⟩ := s
  cases slot with
  | configs => simp [Cursor.isNode, hedge.1]
  | keys => simp [Cursor.isNode, hedge.1]

/-- A node above others has no value. -/
theorem Content.of_isNode {n : Node} (h : Content env cur n) (hi : cur.isNode = true) :
    n.value = "" ∧ n.valueList = [] ∧ n.hasValue = false := by
  cases hst : cur.state <;> simp only [Content, hst] at h <;>
    simp only [Cursor.isNode, Cursor.isDir, hst, Bool.false_or, Bool.true_or, reduceCtorEq,
      decide_false, Bool.false_eq_true] at hi
  all_goals exact h

/-- Nodes with children of one cursor have the same fields. -/
theorem Typed.fields_above (hS : Typed env (.root ent) S) (hT : Typed env (.root ent) T)
    (hwS : S.walk (.root ent) l = some (cur, c)) (hwT : T.walk (.root ent) l = some (cur, d))
    {s : Step} {b : Config} (hb : d.child? s = some b) :
    c.hasValue = d.hasValue ∧ c.value = d.value ∧ c.valueList = d.valueList := by
  have hi := (hT.of_walk hwT).isNode hb
  have h₁ := (hS.of_walk hwS).content.of_isNode hi
  have h₂ := (hT.of_walk hwT).content.of_isNode hi
  exact ⟨h₁.2.2.trans h₂.2.2.symm, h₁.1.trans h₂.1.symm, h₁.2.1.trans h₂.2.1.symm⟩

/-- `Parse` of the path of a finished node of a tree, on a part of the tree: the
part grows by the nodes along the path, each as the tree has it. -/
theorem rebuild_path (hk : ent.All Entry.OneKey) (hn : ent.All Entry.Named)
    (hT : Typed env (.root ent) T) (hS : Typed env (.root ent) S) (hSc : Closed ent S)
    (hST : S.PartOf T) (hl : l ≠ []) (hw : T.walk (.root ent) l = some (cur, c))
    (hd : Done cur c) (hst : cur.state ≠ .stateDir ∧ cur.state ≠ .stateKey) :
    ∃ r, parse env ent S (l.map (·.name) ++ c.toNode.values) = some r ∧
      Typed env (.root ent) r.tree ∧ Closed ent r.tree ∧ r.tree.PartOf T ∧
      (∀ l', l' <+: l → r.tree.node? l' = T.node? l') ∧
      ∀ l', (S.node? l').isSome → (r.tree.node? l').isSome := by
  obtain ⟨ops, hpt⟩ := hT.path_trace hn hw
  obtain ⟨ops', cur', hvt, ha, hvp, hvl⟩ := hT.value_trace hw hd hst
  have htr := hpt.trace.append hvt
  have hplace : pathLoc env (l.map (·.name) ++ c.toNode.values) (.root ent) = l := by
    rw [hpt.trace.pathLoc_append, hpt.place, hvl, List.append_nil]
  have hgT : (T.get? ([] ++ pathLoc env (l.map (·.name) ++ c.toNode.values) (.root ent))).isSome := by
    rw [hplace, List.nil_append, Config.get?_of_walk hw]
    rfl
  have hin : S.Within T := fun l hl => by
    obtain ⟨b, hb⟩ := Option.isSome_iff_exists.mp hl
    have := hST l _ (Config.node?_eq hb)
    rw [Config.node?, Option.map_eq_some_iff] at this
    obtain ⟨b', hb', -⟩ := this
    rw [hb']
    rfl
  have hf := Focus.start hS hSc
  have hpl := htr.plains_within hk hT hf hin hgT
  have hf' := htr.focus hf
  obtain ⟨n, hnode, hval⟩ := htr.values hf ⟨S, rfl, fun h => by cases h⟩ ha
  rw [htr.place hpl.directs, hplace, List.nil_append] at hnode
  rw [hpt.value, hvp] at hval
  obtain ⟨code, hplan⟩ := htr.plan (by simpa using fun h => absurd h hl)
  have hframe : ∀ l', ¬ l' <+: l → (applyOps env (ops ++ ops') (S, [])).1.get? l' = S.get? l' :=
    fun l' hl' => htr.frame hf hpl (by rwa [hplace, List.nil_append])
  have htop := htr.toNode hf.stands
  have hS' := hf'.typed
  have hSc' := hf'.closed ha
  refine ⟨_, by rw [parse_eq_plan, hplan]; rfl, hS', hSc', ?_⟩
  simp only [ParseCode.result]
  generalize (applyOps env (ops ++ ops') (S, [])).1 = S' at hnode hframe htop hS' hSc'
  have hpath : ∀ l', l' <+: l → S'.node? l' = T.node? l' := by
    rintro l' ⟨r, rfl⟩
    obtain ⟨b, hb, hbn⟩ := Option.map_eq_some_iff.mp hnode
    have hend : (S'.get? (l' ++ r)).isSome := by
      rw [hb]
      rfl
    obtain ⟨c', hc'⟩ := Option.isSome_iff_exists.mp (Config.get?_prefix hend)
    by_cases hnil : l' = []
    · subst hnil
      rw [hST [] S.toNode rfl, ← htop]
      rfl
    · rw [Config.walk_append, Option.bind_eq_some_iff] at hw
      obtain ⟨⟨cur₁, d'⟩, hwT, hw⟩ := hw
      obtain ⟨cur₂, hwS, -⟩ := hS'.walk_of_get hc'
      obtain rfl := hS'.cursor_unique hT hwS hwT
      rw [Config.node?_eq hc', Config.node?_eq (Config.get?_of_walk hwT)]
      congr 1
      refine hS'.toNode_eq hk hT hnil hwS hwT ?_
      cases r with
      | nil =>
        cases hw
        rw [List.append_nil, hc'] at hb
        cases hb
        exact hS'.fields_eq hT hwS hwT (hSc' _ _ _ hnil hwS) hd (hbn ▸ hval)
      | cons s r =>
        have hg := Config.get?_of_walk hw
        rw [Config.get?_cons] at hg
        obtain ⟨a, ha, -⟩ := Option.bind_eq_some_iff.mp hg
        exact hS'.fields_above hT hwS hwT ha
  refine ⟨fun l' n' hn' => ?_, hpath, fun l' hl' => ?_⟩
  · by_cases hp : l' <+: l
    · rw [← hpath l' hp, hn']
    · rw [Config.node?, hframe l' hp] at hn'
      exact hST l' n' hn'
  · by_cases hp : l' <+: l
    · obtain ⟨r, rfl⟩ := hp
      rw [hpath l' ⟨r, rfl⟩, Config.node?, Option.isSome_map]
      exact Config.get?_prefix (by rw [Config.get?_of_walk hw]; rfl)
    · rw [Config.node?, hframe l' hp]
      exact hl'

end

end OpenConfigd
