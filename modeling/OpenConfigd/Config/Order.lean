import OpenConfigd.Config.Flagged
import OpenConfigd.Config.Json
import OpenConfigd.Config.Replay
import OpenConfigd.Config.Sorted
import OpenConfigd.Config.Text

/-!
# The order of edits

A tree of set mode is fixed by the values at its places and the order of its
slices (`Reach.same`). `edit_order`: paths to different places lead to the same
tree in whatever order they are run, where `Less` puts the nodes of every slice
in a line and `SetKey` finds no key below another entry. `Less` compares two
numbers as numbers and a number with another name as text, so that 9, 10 and 1a
are in no line (`edit_order_cycle`).
-/

namespace OpenConfigd

variable {env : Env} {ent : Entry}

/-! ## The calls of a path -/

/-- The call is for no node of a case. -/
def Op.noCase : Op → Bool
  | .set e | .setLeafList e => (caseEntry e).isNone
  | _ => true

/-- `SetKey` finds its key below the node it is called on, or not at all. -/
def Op.ownKey (op : Op) (root : Config) (loc : Loc) : Bool :=
  match op with
  | .setKey _ key _ => (Config.lookupKey root loc key).2.all (· == loc ++ [⟨.keys, key⟩])
  | _ => true

/-- So do the calls one after the other. -/
def ownKeys (env : Env) : List Op → Config × Loc → Bool
  | [], _ => true
  | op :: ops, p => op.ownKey p.1 p.2 && ownKeys env ops (op.apply env p)

section

variable {root : Config} {loc : Loc} {cur cur' : Cursor} {cmds : List String} {ops : List Op}
  {ns : List (Loc × Node)}

theorem Stands.plain {str : String} {e : Entry} (hf : Stands env ent (root, loc) cur)
    (hcase : (cur.op e str).noCase = true) (hown : (cur.op e str).ownKey root loc = true) :
    (cur.op e str).Plain root loc := by
  obtain ⟨cur₁, c, hw, hon⟩ := hf.on
  have hg := Config.get?_of_walk hw
  have hkept (h : (caseEntry e).isNone = true) : c.kept e = c.configs := by
    rw [Config.kept, Option.isNone_iff_eq_none.mp h]
    rfl
  rw [Op.Plain, hg]
  by_cases hd : cur.isDir = true
  · rw [Cursor.op_dir hd] at hcase ⊢
    by_cases hl : entryNextState e = .stateLeafList
    · rw [if_pos hl] at hcase ⊢
      exact .inr (hkept hcase)
    · rw [if_neg hl] at hcase ⊢
      exact .inr (hkept hcase)
  · cases hst : cur.state <;> simp [Cursor.isDir, hst] at hd <;> simp only [Cursor.op, hst]
    case stateKey =>
      rw [hon.eq (by simp [hst])] at hw
      rcases hf.typed.lookupKey_cases hw hst str with hl | ⟨pre, k, _, _, p, rfl, -, -, -, hpk, -, -, hl⟩
      · exact hl
      · -- A key below another entry.
        simp only [Cursor.op, hst, Op.ownKey, hl, Option.all_some, beq_iff_eq] at hown
        simp only [List.append_assoc, List.append_cancel_left_eq, List.cons_append, List.nil_append,
          List.cons.injEq, Step.mk.injEq, true_and, and_true] at hown
        exact absurd hown hpk

/-- Without choices and with its own keys, every call of a path is plain. -/
theorem Trace.plains_own (ht : Trace env cur cmds ops cur') (hf : Focus env ent (root, loc) cur)
    (hcase : ops.all Op.noCase = true) (hown : ownKeys env ops (root, loc) = true) :
    Plains env ops (root, loc) := by
  induction ht generalizing root loc with
  | nil => trivial
  | cons hs _ ih =>
    rw [List.all_cons, Bool.and_eq_true] at hcase
    rw [ownKeys, Bool.and_eq_true] at hown
    exact ⟨hf.stands.plain hcase.1 hown.1, ih (hf.step hs) hcase.2 hown.2⟩

/-- Plain calls keep the tree sorted, and its nodes among those that are in a line. -/
theorem Trace.sorted (ht : Trace env cur cmds ops cur') (hf : Focus env ent (root, loc) cur)
    (hp : Plains env ops (root, loc)) (hl : Lined ns) (hns : ∀ a ∈ named ops loc, a ∈ ns)
    (h : root.Sorted) (hcov : Covered ns root.node?) :
    (applyOps env ops (root, loc)).1.Sorted ∧ Covered ns (applyOps env ops (root, loc)).1.node? := by
  induction ht generalizing root loc with
  | nil => exact ⟨h, hcov⟩
  | @cons cur cur' str e cmds ops hs _ ih =>
    obtain ⟨cur₁, c, hw, -⟩ := hf.on
    have hg := Config.get?_of_walk hw
    have hop : ∀ n, (cur.op e str).label = some n → (loc ++ (cur.op e str).steps, n) ∈ ns := by
      intro n hn
      refine hns _ ?_
      rw [named, hn]
      exact List.mem_append_left _ (List.mem_singleton_self _)
    have hrest : ∀ a ∈ named ops (loc ++ (cur.op e str).steps), a ∈ ns := by
      intro a ha
      refine hns a ?_
      rw [named]
      exact List.mem_append_right _ ha
    have hsorted := @Op.apply_sorted env ns root c loc _ h hl hcov hf.typed.distinct hg hp.1 hop
    obtain ⟨hloc, hnode⟩ := @Op.apply_node? env root c loc _ hg (hf.typed.of_walk hw).nodup hp.1
    have hcov' := @Covered.update ns loc _ _ hcov hop
    rw [← hnode] at hcov'
    have hf' := hf.step hs
    have hp' := hp.2
    rw [applyOps_cons]
    generalize (cur.op e str).apply env (root, loc) = p at hsorted hloc hcov' hf' hp'
    obtain ⟨root', loc'⟩ := p
    simp only at hloc
    subst hloc
    exact ih hf' hp' hrest hsorted hcov'

end

/-! ## The values of a tree -/

/-- The values of the node at a place. -/
def Config.valuesAt (root : Config) (l : Loc) : Option (List String) :=
  (root.node? l).map Node.values

section

variable {S T c : Config} {l : Loc} {cur : Cursor}

theorem Config.valuesAt_eq (h : S.get? l = some c) : S.valuesAt l = some c.toNode.values := by
  rw [valuesAt, node?_eq h]
  rfl

/-- The mark of a key in a finished tree. -/
theorem Typed.marked_iff {s : Step} (hS : Typed env (.root ent) S) (hc : Closed ent S)
    (hf : S.Flagged) (hw : S.walk (.root ent) (l ++ [s]) = some (cur, c)) :
    c.keyOnlyConfig = true ↔ s.slot = .keys ∧ cur.state = .stateKey := by
  refine ⟨hS.marked hw, fun ⟨hslot, hst⟩ => ?_⟩
  have hkeys : c.keys ≠ [] := by
    have := hc _ _ _ (by simp) hw
    rwa [Done, hst] at this
  refine hf _ c (Config.get?_of_walk hw) ?_ hkeys
  obtain ⟨cur₁, p, e, hwp, hcp, -, -⟩ := Config.walk_snoc hw
  obtain ⟨e₁, hedge, -⟩ := (hS.of_walk hwp).child?_edge hcp
  obtain ⟨slot, name⟩ := s
  cases hslot
  rw [show c.keyConfig = c.toNode.keyConfig from rfl, hedge.2.2.1]
  rfl

/-- The values at its places fix a tree up to the order of siblings. -/
theorem Reach.same (hS : Reach env ent S) (hT : Reach env ent T)
    (h : ∀ l, S.valuesAt l = T.valuesAt l) : S.Same T := by
  obtain ⟨htS, hcS⟩ := hS.typed_closed
  obtain ⟨htT, hcT⟩ := hT.typed_closed
  intro l
  rcases List.eq_nil_or_concat l with rfl | ⟨pre, s, rfl⟩
  · exact congrArg some (hS.toNode.trans hT.toNode.symm)
  · rw [List.concat_eq_append]
    have hv := h (pre ++ [s])
    cases hgS : S.get? (pre ++ [s]) with
    | none =>
      rw [Config.valuesAt, Config.valuesAt, Config.node?, hgS] at hv
      rw [Config.node?, hgS]
      exact (Option.map_eq_none_iff.mp hv.symm).symm
    | some c =>
      rw [Config.valuesAt_eq hgS] at hv
      obtain ⟨n, hn, -⟩ := Option.map_eq_some_iff.mp hv.symm
      obtain ⟨d, hgT, -⟩ := Option.map_eq_some_iff.mp hn
      rw [Config.valuesAt_eq hgT, Option.some.injEq] at hv
      obtain ⟨cur, hwS, -⟩ := htS.walk_of_get hgS
      obtain ⟨cur', hwT, -⟩ := htT.walk_of_get hgT
      obtain rfl := htS.cursor_unique htT hwS hwT
      have hne : pre ++ [s] ≠ [] := by simp
      have hmark : c.keyOnlyConfig = d.keyOnlyConfig := by
        rw [Bool.eq_iff_iff, htS.marked_iff hcS hS.flagged hwS, htT.marked_iff hcT hT.flagged hwT]
      have hfields := htS.fields_eq htT hwS hwT (hcS _ _ _ hne hwS) (hcT _ _ _ hne hwT) hv
      rw [Config.node?_eq hgS, Config.node?_eq hgT, htS.toNode_of htT hne hwS hwT hfields hmark]

/-- A node above a place of the other tree has no values. -/
theorem Typed.values_above {s : Step} {r : Loc} (hS : Typed env (.root ent) S)
    (hT : Typed env (.root ent) T) (hc : S.get? l = some c) (h : (T.get? (l ++ s :: r)).isSome) :
    c.toNode.values = [] := by
  obtain ⟨d, hd⟩ := Option.isSome_iff_exists.mp (Config.get?_prefix h)
  rw [Config.get?_append, hd, Option.bind_some, Config.get?_cons] at h
  obtain ⟨b, hb⟩ : ∃ b, d.child? s = some b := by
    cases hb : d.child? s with
    | none =>
      rw [hb] at h
      cases h
    | some b => exact ⟨b, rfl⟩
  obtain ⟨cur, hwS, hts⟩ := hS.walk_of_get hc
  obtain ⟨cur', hwT, htt⟩ := hT.walk_of_get hd
  obtain rfl := hS.cursor_unique hT hwS hwT
  obtain ⟨-, hvl, hhv⟩ := hts.content.of_isNode (htt.isNode hb)
  simp [Node.values, hvl, hhv]

end

/-! ## One path -/

/-- `Parse` of the path on the empty tree succeeds. -/
def Accepted (env : Env) (ent : Entry) (path : List String) : Prop :=
  ∃ r, parse env ent {} path = some r ∧ r.code = .parseSuccess

instance (env : Env) (ent : Entry) (path : List String) : Decidable (Accepted env ent path) :=
  decidable_of_iff ((parse env ent {} path).map (·.code) = some .parseSuccess)
    Option.map_eq_some_iff

section

variable {root : Config} {path : List String} {ns : List (Loc × Node)}

/-- A path that is accepted on its own is accepted on every tree. -/
theorem Accepted.parse (h : Accepted env ent path) (root : Config) :
    ∃ r cur, OpenConfigd.parse env ent root path = some r ∧ r.code = .parseSuccess ∧
      Trace env (.root ent) path (calls env path (.root ent)) cur ∧ cur.accepts = true ∧
      r.tree = (applyOps env (calls env path (.root ent)) (root, [])).1 := by
  obtain ⟨r, hr, hc⟩ := h
  obtain ⟨ops, cur, htr, ha, -⟩ := parse_success hr hc
  rw [parse_eq_plan, Option.map_eq_some_iff] at hr
  obtain ⟨⟨code, ops'⟩, hp, rfl⟩ := hr
  have hne : path ≠ [] := by
    rintro rfl
    cases hp
  obtain ⟨code', hp'⟩ := htr.plan hne
  rw [hp'] at hp
  cases hp
  rw [plan_calls hp']
  exact ⟨code.result (applyOps env ops (root, [])).1, cur, by rw [parse_eq_plan, hp']; rfl, hc, htr,
    ha, rfl⟩

/-- A tree of set mode with sorted slices, all its nodes among those that are in a line. -/
structure Ordered (env : Env) (ent : Entry) (ns : List (Loc × Node)) (root : Config) : Prop where
  reach : Reach env ent root
  sorted : root.Sorted
  covered : Covered ns root.node?

theorem Ordered.empty (env : Env) (ent : Entry) (ns : List (Loc × Node)) :
    Ordered env ent ns {} := by
  refine ⟨.empty, Config.sorted_bare {}, fun l n hl hn => ?_⟩
  rw [Config.node?, show ({} : Config) = ({} : Node).bare from rfl, Config.get?_bare _ hl] at hn
  cases hn

/-- One path: its values at its place, no values above, and elsewhere what there was. -/
theorem Ordered.edit (h : Ordered env ent ns root) (hl : Lined ns) (ha : Accepted env ent path)
    (hcase : (calls env path (.root ent)).all Op.noCase = true)
    (hown : ownKeys env (calls env path (.root ent)) (root, []) = true)
    (hns : ∀ a ∈ named (calls env path (.root ent)) [], a ∈ ns) :
    ∃ r, parse env ent root path = some r ∧ Ordered env ent ns r.tree ∧
      r.tree.valuesAt (pathLoc env path (.root ent)) = some (valuePart env path (.root ent)) ∧
      ∀ l, l ≠ pathLoc env path (.root ent) → r.tree.valuesAt l =
        if l <+: pathLoc env path (.root ent) then some [] else root.valuesAt l := by
  obtain ⟨ht, hc⟩ := h.reach.typed_closed
  have hf := Focus.start ht hc
  obtain ⟨r, cur, hp, hs, htr, hacc, htree⟩ := ha.parse root
  have hpl := htr.plains_own hf hcase hown
  have hreach := Reach.set h.reach hp hs
  obtain ⟨hsorted, hcov⟩ := htr.sorted hf hpl hl hns h.sorted h.covered
  obtain ⟨n, hnode, hval⟩ := htr.values hf ⟨root, rfl, fun h => by cases h⟩ hacc
  rw [htr.place hpl.directs, List.nil_append] at hnode
  have hframe := fun l => @Trace.frame env ent _ _ _ _ _ _ htr hf hpl l
  rw [List.nil_append] at hframe
  rw [← htree] at hsorted hcov hnode hframe
  have hat : r.tree.valuesAt (pathLoc env path (.root ent)) =
      some (valuePart env path (.root ent)) := by
    rw [Config.valuesAt, hnode, ← hval]
    rfl
  refine ⟨r, hp, ⟨hreach, hsorted, hcov⟩, hat, fun l hne => ?_⟩
  by_cases hpre : l <+: pathLoc env path (.root ent)
  · rw [if_pos hpre]
    obtain ⟨x, hx⟩ := hpre
    cases x with
    | nil => exact absurd (by simpa using hx) hne
    | cons s x =>
      have hend : (r.tree.get? (l ++ s :: x)).isSome := by
        rw [Config.node?, ← hx] at hnode
        obtain ⟨d, hd, -⟩ := Option.map_eq_some_iff.mp hnode
        rw [hd]
        rfl
      obtain ⟨c, hc⟩ := Option.isSome_iff_exists.mp (Config.get?_prefix hend)
      have htT := hreach.typed_closed.1
      rw [Config.valuesAt_eq hc, htT.values_above htT hc hend]
  · rw [if_neg hpre, Config.valuesAt, Config.valuesAt, Config.node?, Config.node?, hframe l hpre]

end

/-! ## A run of paths -/

/-- In a run of paths, `SetKey` finds every key below the node it is called on. -/
def keysFound (env : Env) (ent : Entry) : List (List String) → Config → Bool
  | [], _ => true
  | path :: paths, root => ownKeys env (calls env path (.root ent)) (root, []) &&
    (parse env ent root path).all fun r => keysFound env ent paths r.tree

/-- The nodes that paths name, as `Less` looks at them. -/
def namedBy (env : Env) (ent : Entry) (paths : List (List String)) : List (Loc × Node) :=
  paths.flatMap fun path => named (calls env path (.root ent)) []

/-- Paths that `Parse` accepts, none through a choice, to different places. -/
structure Edits (env : Env) (ent : Entry) (paths : List (List String)) : Prop where
  accepted : ∀ path ∈ paths, Accepted env ent path
  noChoice : ∀ path ∈ paths, (calls env path (.root ent)).all Op.noCase = true
  distinct : (paths.map fun path => pathLoc env path (.root ent)).Nodup

instance (env : Env) (ent : Entry) (paths : List (List String)) : Decidable (Edits env ent paths) :=
  decidable_of_iff ((∀ path ∈ paths, Accepted env ent path) ∧
      (∀ path ∈ paths, (calls env path (.root ent)).all Op.noCase = true) ∧
      (paths.map fun path => pathLoc env path (.root ent)).Nodup)
    ⟨fun h => ⟨h.1, h.2.1, h.2.2⟩, fun h => ⟨h.accepted, h.noChoice, h.distinct⟩⟩

section

variable {root : Config} {paths : List (List String)} {ns : List (Loc × Node)}

/-- The values of the tree after a run. -/
theorem Ordered.run (h : Ordered env ent ns root) (hl : Lined ns) (he : Edits env ent paths)
    (hk : keysFound env ent paths root = true)
    (hns : ∀ path ∈ paths, ∀ a ∈ named (calls env path (.root ent)) [], a ∈ ns) :
    ∃ t, replay env ent paths root = some t ∧ Ordered env ent ns t ∧
      (∀ path ∈ paths,
        t.valuesAt (pathLoc env path (.root ent)) = some (valuePart env path (.root ent))) ∧
      ∀ l, (∀ path ∈ paths, pathLoc env path (.root ent) ≠ l) → t.valuesAt l =
        if ∃ path ∈ paths, l <+: pathLoc env path (.root ent) then some [] else root.valuesAt l := by
  induction paths generalizing root with
  | nil => exact ⟨root, rfl, h, (fun _ h => nomatch h), fun l _ => by simp⟩
  | cons path paths ih =>
    rw [keysFound, Bool.and_eq_true] at hk
    obtain ⟨r, hp, hr, hat, hoff⟩ := h.edit hl (he.accepted path List.mem_cons_self)
      (he.noChoice path List.mem_cons_self) hk.1 (hns path List.mem_cons_self)
    have hdist := List.nodup_cons.mp he.distinct
    have he' : Edits env ent paths := ⟨fun q hq => he.accepted q (List.mem_cons_of_mem _ hq),
      fun q hq => he.noChoice q (List.mem_cons_of_mem _ hq), hdist.2⟩
    rw [hp, Option.all_some] at hk
    obtain ⟨t, ht, hord, hvals, hrest⟩ := ih hr he' hk.2 fun q hq => hns q (List.mem_cons_of_mem _ hq)
    refine ⟨t, by rw [replay, hp]; exact ht, hord, fun q hq => ?_, fun l hne => ?_⟩
    · rcases List.mem_cons.mp hq with rfl | hq
      · have hq : ∀ q' ∈ paths, pathLoc env q' (.root ent) ≠ pathLoc env q (.root ent) :=
          fun q' hq' heq => hdist.1 (List.mem_map.mpr ⟨q', hq', heq⟩)
        rw [hrest _ hq, hat]
        split
        · -- A later path goes below the place: there are no values to keep.
          rename_i hex
          obtain ⟨q', hq', x, hx⟩ := hex
          cases x with
          | nil => exact absurd (by simpa using hx.symm) (hq q' hq')
          | cons s x =>
            have hend : (t.get? (pathLoc env q (.root ent) ++ s :: x)).isSome := by
              have := hvals q' hq'
              rw [← hx, Config.valuesAt, Config.node?, Option.map_map] at this
              obtain ⟨d, hd, -⟩ := Option.map_eq_some_iff.mp this
              rw [hd]
              rfl
            obtain ⟨n, hn, hval⟩ := Option.map_eq_some_iff.mp hat
            obtain ⟨c, hc, rfl⟩ := Option.map_eq_some_iff.mp hn
            rw [← hval, hr.reach.typed_closed.1.values_above hord.reach.typed_closed.1 hc hend]
        · rfl
      · exact hvals q hq
    · have hne' : l ≠ pathLoc env path (.root ent) := (hne path List.mem_cons_self).symm
      rw [hrest l fun q hq => hne q (List.mem_cons_of_mem _ hq), hoff l hne']
      by_cases h₁ : l <+: pathLoc env path (.root ent)
      · simp [h₁]
      · simp [h₁]

end

/-- Paths to different places, none through a choice, lead to the same texts in any two
orders where `Less` puts the siblings they name in a line and, in both runs, `SetKey`
finds every key below the node it is called on. -/
theorem edit_order {paths paths' : List (List String)} (he : Edits env ent paths)
    (hp : paths.Perm paths') (hl : Lined (namedBy env ent paths))
    (hk : keysFound env ent paths {} = true) (hk' : keysFound env ent paths' {} = true) :
    ∃ t t', replay env ent paths {} = some t ∧ replay env ent paths' {} = some t' ∧
      t.commandString env = t'.commandString env ∧ t.string = t'.string ∧
      t.jsonMarshalTop = t'.jsonMarshalTop := by
  have he' : Edits env ent paths' := ⟨fun q hq => he.accepted q (hp.mem_iff.mpr hq),
    fun q hq => he.noChoice q (hp.mem_iff.mpr hq), (hp.map _).nodup_iff.mp he.distinct⟩
  have hns : ∀ path ∈ paths, ∀ a ∈ named (calls env path (.root ent)) [], a ∈ namedBy env ent paths :=
    fun path hpath a ha => List.mem_flatMap.mpr ⟨path, hpath, ha⟩
  obtain ⟨t, ht, hord, hvals, hrest⟩ := (Ordered.empty env ent _).run hl he hk hns
  obtain ⟨t', ht', hord', hvals', hrest'⟩ :=
    (Ordered.empty env ent _).run hl he' hk' fun path hpath => hns path (hp.mem_iff.mpr hpath)
  have hvalues : ∀ l, t.valuesAt l = t'.valuesAt l := by
    intro l
    by_cases hex : ∃ path ∈ paths, pathLoc env path (.root ent) = l
    · obtain ⟨path, hpath, rfl⟩ := hex
      rw [hvals path hpath, hvals' path (hp.mem_iff.mp hpath)]
    · have hne : ∀ path ∈ paths, pathLoc env path (.root ent) ≠ l :=
        fun path hpath heq => hex ⟨path, hpath, heq⟩
      rw [hrest l hne, hrest' l fun path hpath => hne path (hp.mem_iff.mpr hpath)]
      simp only [hp.mem_iff]
  have hsame := hord.reach.same hord'.reach hvalues
  have heq : t = t' := hsame.eq hord.reach.typed_closed.1.distinct
    hord'.reach.typed_closed.1.distinct hord.sorted hord'.sorted
  subst heq
  exact ⟨t, t, ht, ht', rfl, rfl, rfl⟩

/-- Two routes, in either order. -/
theorem edit_order_routes : ∃ t t',
    replay .ascii routesSchema [["routes", "route", "a", "x", "metric", "1"],
      ["routes", "route", "b", "x", "metric", "2"]] {} = some t ∧
    replay .ascii routesSchema [["routes", "route", "b", "x", "metric", "2"],
      ["routes", "route", "a", "x", "metric", "1"]] {} = some t' ∧
    t.commandString .ascii = t'.commandString .ascii ∧ t.string = t'.string ∧
    t.jsonMarshalTop = t'.jsonMarshalTop :=
  edit_order (by decide +kernel) (List.Perm.swap _ _ _) (by decide +kernel) (by decide +kernel)
    (by decide +kernel)

/-- The interfaces 9, 10 and 1a: entered in this order they stay in it, entered from 10
on, 9 comes last. -/
theorem edit_order_cycle : ∃ paths paths' t t', Edits .ascii interfacesSchema paths ∧
    paths.Perm paths' ∧ keysFound .ascii interfacesSchema paths {} = true ∧
    keysFound .ascii interfacesSchema paths' {} = true ∧
    replay .ascii interfacesSchema paths {} = some t ∧
    replay .ascii interfacesSchema paths' {} = some t' ∧
    t.commandString .ascii ≠ t'.commandString .ascii ∧ t.string ≠ t'.string ∧
    t.jsonMarshalTop ≠ t'.jsonMarshalTop := by
  have hrun : (replay .ascii interfacesSchema [["interfaces", "interface", "9"],
      ["interfaces", "interface", "10"], ["interfaces", "interface", "1a"]] {}).bind (fun t =>
      (replay .ascii interfacesSchema [["interfaces", "interface", "10"],
        ["interfaces", "interface", "1a"], ["interfaces", "interface", "9"]] {}).map fun t' =>
        (decide (t.commandString .ascii = t'.commandString .ascii), decide (t.string = t'.string),
          decide (t.jsonMarshalTop = t'.jsonMarshalTop))) = some (false, false, false) := by
    decide +kernel
  obtain ⟨t, ht, hrun⟩ := Option.bind_eq_some_iff.mp hrun
  obtain ⟨t', ht', hrun⟩ := Option.map_eq_some_iff.mp hrun
  simp only [Prod.mk.injEq, decide_eq_false_iff_not] at hrun
  exact ⟨_, _, t, t', by decide +kernel, by decide +kernel, by decide +kernel, by decide +kernel,
    ht, ht', hrun⟩

end OpenConfigd
