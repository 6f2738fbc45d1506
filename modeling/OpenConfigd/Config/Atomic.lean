import OpenConfigd.Config.Edit
import OpenConfigd.Go.Ascii

/-!
# What a failed set leaves

Set mode changes the tree as it reads the tokens, and does not undo what the
tokens before the one that fails have done. The tree is as it was exactly when
those tokens name what it has already (`restates`): the nodes and keys on the way
are there, and the value or the list of values is the one given.
-/

namespace OpenConfigd

variable {env : Env} {ent : Entry}

/-- The values a list of calls gives a leaf-list. -/
def listValues : List Op → List String
  | .setListValue v :: ops => v :: listValues ops
  | _ => []

/-- The calls, from the node at `loc` on, name what the tree has. -/
def restates (root : Config) : Loc → List Op → Bool
  | _, [] => true
  | loc, .set e :: ops =>
    (root.get? (loc ++ [⟨.configs, e.name⟩])).isSome && restates root (loc ++ [⟨.configs, e.name⟩]) ops
  | loc, .setKey _ key _ :: ops =>
    match (Config.lookupKey root loc key).2 with
    | some l => restates root l ops
    | none => false
  | loc, .setValue v :: ops =>
    ((root.get? loc).map fun c => c.hasValue && c.value == v).getD false && restates root loc ops
  -- The calls that follow are those of the values.
  | loc, .setLeafList e :: ops =>
    ((root.get? (loc ++ [⟨.configs, e.name⟩])).map fun c => c.valueList == listValues ops).getD false
  | _, .setListValue _ :: _ => true

section

variable {root : Config} {loc : Loc} {cur cur' : Cursor} {cmds : List String} {ops : List Op}

/-! ## The values of a leaf-list -/

theorem Trace.listOps (ht : Trace env cur cmds ops cur')
    (hs : cur.state = .stateLeafList ∨ cur.state = .stateLeafListMatched) :
    ops = cmds.map .setListValue := by
  induction ht with
  | nil => rfl
  | @cons cur cur' str e cmds ops _ _ ih =>
    have hop : cur.op e str = .setListValue str := by
      rcases hs with hs | hs <;> simp only [Cursor.op, hs]
    have hnext : (cur.next e).state = .stateLeafListMatched := by
      rcases hs with hs | hs <;> simp only [Cursor.next, hs]
    rw [hop, ih (.inr hnext)]
    rfl

theorem listValues_map (vs : List String) : listValues (vs.map .setListValue) = vs := by
  induction vs with
  | nil => rfl
  | cons v vs ih => rw [List.map_cons, listValues, ih]

/-- A node with more values. -/
def Config.addValues (c : Config) (vs : List String) : Config :=
  { c with valueList := c.valueList ++ vs, hasValue := c.hasValue || !vs.isEmpty }

theorem applyOps_listValues (vs : List String) (root : Config) (loc : Loc) :
    applyOps env (vs.map .setListValue) (root, loc) =
      (root.modify loc fun c => c.addValues vs, loc) := by
  induction vs generalizing root with
  | nil =>
    refine Prod.ext (Config.modify_self fun c _ => ?_).symm rfl
    rw [Config.addValues, List.append_nil, List.isEmpty_nil, Bool.not_true, Bool.or_false]
    cases c
    rfl
  | cons v vs ih =>
    rw [List.map_cons, applyOps_cons, Op.apply, ih,
      Config.modify_modify (f := fun c => c.setListValue v) (fun _ => rfl)]
    simp [Config.addValues, Config.setListValue]

/-! ## A node that was made stays -/

/-- The node at a place on the way stays, unless a search for a key turns away from it,
which happens at a key that has keys. -/
theorem Trace.keeps (ht : Trace env cur cmds ops cur') (hst : Stands env ent (root, loc) cur)
    {l : Loc} (hl : l <+: loc) (hk : l = loc → ∀ c, root.get? loc = some c → c.keys = []) :
    ((applyOps env ops (root, loc)).1.get? l).isSome := by
  induction ht generalizing root loc with
  | nil =>
    obtain ⟨cur₁, c, hw, -⟩ := hst.on
    have hc : root.get? loc = some c := Config.get?_of_walk hw
    have hsome : (root.get? loc).isSome := by
      rw [hc]
      rfl
    exact Config.isSome_of_prefix hsome hl
  | @cons cur cur' str e cmds ops hs _ ih =>
    obtain ⟨cur₁, c, hw, hon⟩ := hst.on
    have hc := Config.get?_of_walk hw
    have hst' := (hst.step hs).stands
    have hdown {root' : Config} {t : Step} (hst : Stands env ent (root', loc ++ [t]) (cur.next e)) :
        ((applyOps env ops (root', loc ++ [t])).1.get? l).isSome := by
      refine ih hst (hl.trans (List.prefix_append _ _)) fun heq => ?_
      have := hl.length_le
      rw [heq, List.length_append, List.length_singleton] at this
      omega
    have hvalue {g : Config → Config} (hg : KeepsName g) (hkeys : ∀ d, (g d).keys = d.keys)
        (hst : Stands env ent (root.modify loc g, loc) (cur.next e)) :
        ((applyOps env ops (root.modify loc g, loc)).1.get? l).isSome := by
      refine ih hst hl fun heq d hd => ?_
      rw [Config.get?_modify_self hg] at hd
      obtain ⟨b, hb, rfl⟩ := Option.map_eq_some_iff.mp hd
      rw [hkeys]
      exact hk heq b hb
    rw [applyOps_cons]
    rw [Cursor.op] at hst' ⊢
    split at hst'
    case h_1 | h_2 | h_3 =>
      split at hst'
      · rename_i hleaf
        rw [if_pos hleaf]
        exact hdown hst'
      · rename_i hleaf
        rw [if_neg hleaf]
        exact hdown hst'
    case h_4 hstate =>
      obtain rfl : cur₁ = cur := hon.eq (by simp [hstate])
      rw [Op.apply, Config.setKey] at hst' ⊢
      rcases hst.typed.lookupKey_cases hw hstate str with hlk | ⟨pre, k, _, _, p, rfl, hkeys, -, -, -,
        -, -, hlk⟩
      · rw [hlk] at hst' ⊢
        cases hn : c.lookupKeyShallow str with
        | some d =>
          rw [hn] at hst'
          exact hdown hst'
        | none =>
          rw [hn] at hst'
          exact hdown hst'
      · rw [hlk] at hst' ⊢
        rcases List.prefix_concat_iff.mp hl with heq | hpre
        · exact absurd (hk heq c hc) hkeys
        · refine ih hst' (hpre.trans (List.prefix_append _ _)) fun heq => ?_
          have := hpre.length_le
          rw [heq, List.length_append, List.length_cons] at this
          omega
    case h_5 | h_6 => exact hvalue (g := fun c => c.setValue str) (fun _ => rfl) (fun _ => rfl) hst'
    case h_7 | h_8 =>
      exact hvalue (g := fun c => c.setListValue str) (fun _ => rfl) (fun _ => rfl) hst'

/-- A new node makes the tree another one. -/
theorem Trace.ne_of_new {root' : Config} (ht : Trace env cur cmds ops cur')
    (hst : Stands env ent (root', loc) cur) (hnew : root.get? loc = none)
    (hk : ∀ c, root'.get? loc = some c → c.keys = []) :
    (applyOps env ops (root', loc)).1 ≠ root := by
  intro heq
  have := ht.keeps hst List.prefix_rfl fun _ => hk
  rw [heq, hnew] at this
  cases this

/-! ## The tokens of a path -/

theorem Config.modify_eq_self {c : Config} {f : Config → Config} (hf : KeepsName f)
    (hc : root.get? loc = some c) : root.modify loc f = root ↔ f c = c := by
  constructor
  · intro h
    have hg := Config.get?_modify_self hf root loc
    rw [h, hc] at hg
    exact (Option.some.inj hg).symm
  · intro h
    refine Config.modify_self fun d hd => ?_
    rw [hc] at hd
    cases hd
    exact h

theorem Config.setValue_eq_self {c : Config} {v : String} :
    c.setValue v = c ↔ c.hasValue = true ∧ c.value = v := by
  constructor
  · intro h
    exact ⟨congrArg (·.hasValue) h.symm, congrArg (·.value) h.symm⟩
  · rintro ⟨hh, hv⟩
    rw [Config.setValue, ← hh, ← hv]
    cases c
    rfl

theorem Config.list_eq_self {c : Config} {vs : List String}
    (hv : c.valueList ≠ [] → c.hasValue = true) :
    c.clearList.addValues vs = c ↔ c.valueList = vs := by
  constructor
  · intro h
    exact (congrArg (·.valueList) h).symm
  · intro hvs
    have hflag : (c.hasValue || !vs.isEmpty) = c.hasValue := by
      cases hvs' : c.valueList with
      | nil => simp [← hvs, hvs']
      | cons v vs' => simp [hv (by simp [hvs'])]
    rw [Config.addValues, show c.clearList.hasValue = c.hasValue from rfl, hflag,
      show c.clearList.valueList ++ vs = c.valueList from hvs.symm]
    cases c
    rfl

theorem Config.set_same {e : Entry} {c d : Config} (hc : root.get? loc = some c)
    (hd : c.lookup e.name = some d) : root.modify loc (fun c => c.set env e) = root := by
  refine Config.modify_self fun b hb => ?_
  rw [hc] at hb
  cases hb
  exact Config.set_of_some hd

theorem Config.get?_lookup {c : Config} (hc : root.get? loc = some c) (name : String) :
    root.get? (loc ++ [⟨.configs, name⟩]) = c.lookup name := by
  rw [Config.get?_append, hc, Option.bind_some, Config.get?_single]
  rfl

/-- The node `Set` makes has no children. -/
theorem Config.set_new {e : Entry} {c d : Config} (hc : root.get? loc = some c)
    (hn : (c.configs.map (·.name)).Nodup) (hl : c.lookup e.name = none)
    (hd : (root.modify loc fun c => c.set env e).get? (loc ++ [⟨.configs, e.name⟩]) = some d) :
    d.keys = [] := by
  rw [Config.get?_modify_append (Config.set_keepsName e), hc, Option.bind_some,
    Config.get?_single, Config.child?_set_self hn, hl] at hd
  cases hd
  rfl

/-- A leaf-list, and the tokens that give it its values. -/
theorem Trace.restates_leafList {str : String} {e : Entry} (hst : Stands env ent (root, loc) cur)
    (hd : cur.isDir = true) (hs : cur.Selects env str e)
    (hleaf : entryNextState e = .stateLeafList) (ht : Trace env (.enter e) cmds ops cur') :
    (applyOps env ops ((Op.setLeafList e).apply env (root, loc))).1 = root ↔
      restates root loc (.setLeafList e :: ops) = true := by
  obtain ⟨cur₁, c, hw, hon⟩ := hst.on
  have hc : root.get? loc = some c := Config.get?_of_walk hw
  have htc := hst.typed.of_walk hw
  have hstate : (Cursor.enter e).state = .stateLeafList := by simp [Cursor.enter, hleaf]
  obtain rfl := ht.listOps (.inl hstate)
  have hst' := (hst.setLeafList hd hs hleaf).stands
  rw [restates, listValues_map, Config.get?_lookup hc]
  cases hl : c.lookup e.name with
  | none =>
    refine iff_of_false (ht.ne_of_new hst' ((Config.get?_lookup hc _).trans hl) fun d hd => ?_) ?_
    · rw [Config.modify_setLeafList, Config.get?_modify_self (f := Config.clearList)
        (fun _ => rfl)] at hd
      obtain ⟨b, hb, rfl⟩ := Option.map_eq_some_iff.mp hd
      exact @Config.set_new env root loc e c b hc (htc.nodup .configs) hl hb
    · simp
  | some d =>
    have hg := (Config.get?_lookup hc e.name).trans hl
    have hcontent : d.valueList ≠ [] → d.hasValue = true := by
      obtain ⟨cur₂, hw₂, ht₂⟩ := hst.typed.walk_of_get hg
      obtain ⟨cur₃, p, e', hw₃, hch, he', rfl⟩ := Config.walk_snoc hw₂
      obtain rfl : cur₁ = cur := hon.eq (by
        constructor <;> intro h <;> rw [Cursor.isDir, h] at hd <;> cases hd)
      have hw : root.walk (.root ent) loc = some (cur₁, c) := hw
      rw [hw] at hw₃
      cases hw₃
      obtain ⟨e'', hedge, he'', -⟩ := htc.child?_edge hch
      obtain ⟨-, ⟨str', hs'⟩, -⟩ := id hedge
      have hname : e''.name = e.name := hedge.name_configs.symm.trans (Config.child?_name hch)
      have hee := hs'.name_inj hd hs hname
      rw [he''] at he'
      cases he'
      have hcont := ht₂.content
      rw [hee] at hcont
      simp only [Cursor.child, Content, hstate] at hcont
      exact hcont.2.2
    rw [Op.apply, Config.modify_setLeafList, Config.set_same hc hl, applyOps_listValues,
      Config.modify_modify (f := Config.clearList) (fun _ => rfl),
      Config.modify_eq_self (f := fun d => d.clearList.addValues cmds) (fun _ => rfl) hg,
      Config.list_eq_self hcontent]
    simp

/-- The tokens of a path leave the tree exactly when they name what it has. -/
theorem Trace.restates_iff (ht : Trace env cur cmds ops cur') (hst : Stands env ent (root, loc) cur)
    (hcur : cur.state ≠ .stateLeafList ∧ cur.state ≠ .stateLeafListMatched) :
    (applyOps env ops (root, loc)).1 = root ↔ restates root loc ops = true := by
  induction ht generalizing root loc with
  | nil => exact iff_of_true rfl rfl
  | @cons cur cur' str e cmds ops hs ht ih =>
    obtain ⟨cur₁, c, hw, hon⟩ := hst.on
    have hc : root.get? loc = some c := Config.get?_of_walk hw
    have htc := hst.typed.of_walk hw
    have hst' := (hst.step hs).stands
    rw [applyOps_cons]
    by_cases hd : cur.isDir = true
    · rw [Cursor.op_dir hd] at hst' ⊢
      rw [Cursor.next_dir hd] at hst' ht ih
      split at hst'
      · rename_i hleaf
        rw [if_pos hleaf]
        exact Trace.restates_leafList hst hd hs hleaf ht
      · rename_i hleaf
        rw [if_neg hleaf, restates, Config.get?_lookup hc]
        cases hl : c.lookup e.name with
        | none =>
          refine iff_of_false (ht.ne_of_new hst' ((Config.get?_lookup hc _).trans hl)
            fun d hd => Config.set_new hc (htc.nodup .configs) hl hd) ?_
          simp
        | some d =>
          rw [Op.apply, Config.set_same hc hl] at hst' ⊢
          have hnext : (Cursor.enter e).state ≠ .stateLeafList ∧
              (Cursor.enter e).state ≠ .stateLeafListMatched := by
            rw [Cursor.enter]
            split
            · simp
            · rcases entryNextState_cases e with h | h | h | h | h <;> simp [h] at hleaf ⊢
          rw [ih hst' hnext]
          simp
    · cases hstate : cur.state <;> simp [Cursor.isDir, hstate] at hd <;>
        simp only [Cursor.op, hstate] at hst' ⊢
      case stateKey =>
        obtain rfl : cur₁ = cur := hon.eq (by simp [hstate])
        have hnext : (cur₁.next e).state ≠ .stateLeafList ∧
            (cur₁.next e).state ≠ .stateLeafListMatched := by
          rw [Cursor.next_key hstate, Cursor.enterKey]
          split <;> simp
        have hcases := hst.typed.lookupKey_cases hw hstate str
        rw [Op.apply, Config.setKey] at hst' ⊢
        rw [restates]
        rcases hcases with hlk | ⟨_, _, _, _, _, -, -, -, -, -, -, -, hlk⟩
        · have hlk : Config.lookupKey root loc str = _ := hlk
          rw [hlk] at hst' ⊢
          cases hn : c.lookupKeyShallow str with
          | some d =>
            rw [hn] at hst'
            exact ih hst' hnext
          | none =>
            rw [hn] at hst'
            refine iff_of_false (ht.ne_of_new hst' ?_ fun d hd => ?_) (by simp)
            · rw [Config.get?_append, hc, Option.bind_some, Config.get?_single]
              exact hn
            · rw [Config.get?_modify_append (f := fun d => d.addKey env e str cur₁.ent.name)
                (fun _ => rfl), hc, Option.bind_some, Config.get?_single,
                Config.child?_addKey (htc.nodup .keys) hn, if_pos rfl] at hd
              cases hd
              rfl
        · have hlk : Config.lookupKey root loc str = _ := hlk
          rw [hlk] at hst' ⊢
          exact ih hst' hnext
      case stateLeaf =>
        obtain ⟨-, rfl⟩ := ht.leafMatched (by simp only [Cursor.next, hstate])
        rw [Op.apply, restates, restates, Bool.and_true]
        show root.modify loc (fun c => c.setValue str) = root ↔ _
        rw [Config.modify_eq_self (f := fun c => c.setValue str) (fun _ => rfl) hc,
          Config.setValue_eq_self, hc]
        simp
      case stateLeafMatched =>
        cases ((Trace.cons hs ht).leafMatched hstate).2
      case stateLeafList => exact absurd hstate hcur.1
      case stateLeafListMatched => exact absurd hstate hcur.2

end

/-- A set that fails leaves the tree as it was exactly when the tokens before the one that
fails name what the tree has. -/
theorem failed_set {root : Config} {cmds : List String} {r : ParseResult}
    (hr : Edited env ent root) (hp : parse env ent root cmds = some r)
    (hs : r.code ≠ .parseSuccess) :
    r.tree = root ↔ restates root [] (calls env cmds (.root ent)) = true := by
  rw [parse_eq_plan, Option.map_eq_some_iff] at hp
  obtain ⟨⟨code, ops⟩, hp, rfl⟩ := hp
  obtain ⟨cmds', cur, -, ht, -⟩ := plan_trace hp
  rw [plan_calls hp]
  exact ht.restates_iff (.start hr.typed) (by simp [Cursor.root])

/-- A path that fails at an unknown name, in a tree that has the rest of it. -/
theorem failed_set_known : ∃ r r', parse .ascii routesSchema {} ["routes", "route", "a", "x"] =
      some r ∧
    parse .ascii routesSchema r.tree ["routes", "route", "a", "x", "mtu"] = some r' ∧
    r'.code = .parseNoMatch ∧ r'.tree = r.tree := by
  obtain ⟨r, hr, hx⟩ := Option.bind_eq_some_iff.mp (show
    ((parse .ascii routesSchema {} ["routes", "route", "a", "x"]).bind fun r =>
      (parse .ascii routesSchema r.tree ["routes", "route", "a", "x", "mtu"]).map fun r' =>
        (r'.code, restates r.tree [] (calls .ascii ["routes", "route", "a", "x", "mtu"]
          (.root routesSchema)))) = some (.parseNoMatch, true) by decide +kernel)
  obtain ⟨r', hr', hx⟩ := Option.map_eq_some_iff.mp hx
  simp only [Prod.mk.injEq] at hx
  obtain ⟨hcode, hrest⟩ := hx
  refine ⟨r, r', hr, hr', hcode, ?_⟩
  exact (failed_set (.parse .empty hr) hr' (by rw [hcode]; simp)).mpr hrest

/-- A value that does not fit its type: the entry and the leaf without its value stay. -/
theorem failed_set_half : ∃ r, Edited .ascii routesSchema {} ∧
    parse .ascii routesSchema {} ["routes", "route", "a", "x", "metric", "foo"] = some r ∧
    r.code = .parseNoMatch ∧ r.tree ≠ {} := by
  obtain ⟨r, hr, hx⟩ := Option.map_eq_some_iff.mp (show
    (parse .ascii routesSchema {} ["routes", "route", "a", "x", "metric", "foo"]).map (fun r =>
      (r.code, r.tree.configs.isEmpty)) = some (.parseNoMatch, false) by decide +kernel)
  simp only [Prod.mk.injEq] at hx
  obtain ⟨hcode, hne⟩ := hx
  refine ⟨r, .empty, hr, hcode, fun heq => ?_⟩
  rw [heq] at hne
  cases hne

end OpenConfigd
