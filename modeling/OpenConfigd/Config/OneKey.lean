import OpenConfigd.Config.SetGet
import OpenConfigd.Go.Ascii

/-!
# Schemas whose lists have one key

Where every list has one key, `lookupKey` never leaves the node it is called on
(`Typed.lookupKey_oneKey`), and without choices no `Set` displaces a sibling: all
calls of set mode are plain (`Trace.plains`). `set_get_frame` is the law of the
configuration tree for such schemas.
-/

namespace OpenConfigd

/-- An entry that is no list, or a list with one key; a list is no container. -/
structure Entry.OneKey (e : Entry) : Prop where
  length : keyLength e = 1
  list : hasKey e = true → isPresenceContainer e = false

/-- A container, a leaf, a leaf-list or a list, outside any choice. -/
structure Entry.NoChoice (e : Entry) : Prop where
  kind : e.kind = .directory ∨ e.kind = .leaf
  parent : e.parentKind ≠ some .case

instance : DecidablePred Entry.OneKey := fun e =>
  decidable_of_iff (keyLength e = 1 ∧ (hasKey e = true → isPresenceContainer e = false))
    ⟨fun h => ⟨h.1, h.2⟩, fun h => ⟨h.length, h.list⟩⟩

instance : DecidablePred Entry.NoChoice := fun e =>
  decidable_of_iff ((e.kind = .directory ∨ e.kind = .leaf) ∧ e.parentKind ≠ some .case)
    ⟨fun h => ⟨h.1, h.2⟩, fun h => ⟨h.kind, h.parent⟩⟩

variable {env : Env} {ent : Entry}

section

variable {P : Entry → Prop} {cur cur' : Cursor} {e : Entry} {str : String}

theorem Cursor.Selects.all_dir (hs : cur.Selects env str e) (hd : cur.isDir = true)
    (h : ∀ c ∈ cur.ent.dir, c.All P) : e.All P := by
  obtain ⟨m, hs⟩ := hs
  obtain ⟨l, hl, hp⟩ := Cursor.select_unique.mp hs
  obtain ⟨x, hx, rfl, -⟩ := hp.mem
  have hdir (d : Entry) : dirCandidates d = candidates d.dir := by
    obtain ⟨_, dir⟩ := d
    rw [dirCandidates]
  rw [alternatives] at hl
  cases hst : cur.state <;> simp [isDir, hst] at hd <;> simp only [hst, Option.some.injEq] at hl
  case stateDir | stateDirMatched =>
    rw [← hl, hdir] at hx
    exact candidates_all h _ (mem_keywords.mp hx).1
  case stateKeyMatched =>
    rw [← hl] at hx
    exact candidates_all (fun c hc => h c (List.mem_filter.mp hc).1) _ (mem_keywords.mp hx).1

theorem Cursor.Selects.all (hs : cur.Selects env str e) (hd : cur.isDir = true)
    (h : cur.ent.All P) : e.All P :=
  hs.all_dir hd fun _ hc => h.child hc

theorem Cursor.enterKey_ent (cur : Cursor) : cur.enterKey.ent = cur.ent := by
  rw [enterKey]
  split <;> rfl

/-- A property of every entry of the schema holds wherever the parser gets. -/
theorem Cursor.next_all (hs : cur.Selects env str e) (h : cur.ent.All P) :
    (cur.next e).ent.All P := by
  by_cases hd : cur.isDir = true
  · rw [next_dir hd]
    exact hs.all hd h
  · cases hst : cur.state <;> simp [isDir, hst] at hd <;> simp only [next, hst]
    case stateKey =>
      rw [enterKey_ent]
      exact h
    all_goals exact h

theorem Typed.walk_all {root c : Config} {l : Loc} (ht : Typed env cur root)
    (h : cur.ent.All P) (hw : root.walk cur l = some (cur', c)) : cur'.ent.All P := by
  induction l generalizing root cur with
  | nil =>
    cases hw
    exact h
  | cons s l ih =>
    rw [Config.walk] at hw
    split at hw
    · cases hw
    · rename_i d hd
      obtain ⟨e, hedge, he, htd⟩ := ht.child?_edge hd
      simp only [he] at hw
      refine ih htd ?_ hw
      obtain ⟨slot, n⟩ := s
      cases slot with
      | configs =>
        obtain ⟨hdir, ⟨str, hs⟩, -⟩ := hedge
        exact hs.all hdir h
      | keys =>
        show cur.enterKey.ent.All P
        rw [Cursor.enterKey_ent]
        exact h

end

/-- With one key a list, keys are looked up at the node itself. -/
theorem Typed.lookupKey_oneKey {root c : Config} {loc : Loc} {cur : Cursor}
    (hs : ent.All Entry.OneKey) (h : Typed env (.root ent) root)
    (hw : root.walk (.root ent) loc = some (cur, c)) (hk : cur.state = .stateKey) (key : String) :
    Config.lookupKey root loc key =
      (loc, if (c.lookupKeyShallow key).isSome then some (loc ++ [⟨.keys, key⟩]) else none) := by
  rcases h.lookupKey_cases hw hk key with hl | ⟨pre, k, cur₁, parent, p, rfl, -, hwp, -⟩
  · exact hl
  · obtain ⟨cur₂, parent', e, hwp', -, -, rfl⟩ := Config.walk_snoc hw
    have hone : keyLength cur₂.ent = 1 := (h.walk_all hs hwp').self.length
    simp only [Cursor.child, Cursor.enterKey, hone] at hk
    rw [if_pos (by omega)] at hk
    cases hk

theorem Config.kept_of_noCase {c : Config} {e : Entry} (h : e.parentKind ≠ some .case) :
    c.kept e = c.configs := by
  rw [Config.kept, caseEntry, if_neg h]
  rfl

section

variable {root : Config} {loc : Loc} {cur cur' : Cursor} {cmds : List String} {ops : List Op}

theorem Cursor.next_isNode {e : Entry} (hi : cur.isNode = false) : (cur.next e).isNode = false := by
  cases hst : cur.state <;> simp [isNode, isDir, hst] at hi <;> simp [next, hst, isNode, isDir]

theorem Focus.plain {str : String} {e : Entry} (hs : ent.All Entry.OneKey)
    (hn : cur.ent.All Entry.NoChoice) (hf : Focus env ent (root, loc) cur)
    (hsel : cur.Selects env str e) : (cur.op e str).Plain root loc := by
  obtain ⟨cur₁, c, hw, hon⟩ := hf.on
  have hg := Config.get?_of_walk hw
  rw [Op.Plain, hg]
  by_cases hd : cur.isDir = true
  · have he : c.kept e = c.configs := Config.kept_of_noCase (hsel.all hd hn).self.parent
    rw [Cursor.op_dir hd]
    by_cases hl : entryNextState e = .stateLeafList
    · rw [if_pos hl]
      exact .inr he
    · rw [if_neg hl]
      exact .inr he
  · cases hst : cur.state <;> simp [Cursor.isDir, hst] at hd <;> simp only [Cursor.op, hst]
    case stateKey =>
      rw [hon.eq (by simp [hst])] at hw
      exact hf.typed.lookupKey_oneKey hs hw hst str

/-- Every call of a path is plain. -/
theorem Trace.plains (hs : ent.All Entry.OneKey) (hn : cur.ent.All Entry.NoChoice)
    (ht : Trace env cur cmds ops cur') (hf : Focus env ent (root, loc) cur) :
    Plains env ops (root, loc) := by
  induction ht generalizing root loc with
  | nil => trivial
  | cons hsel _ ih =>
    exact ⟨hf.plain hs hn hsel, ih (Cursor.next_all hsel hn) (hf.step hsel)⟩

/-- Keys of a path that leads to a node are found where the path has them. -/
theorem Trace.looksDirect (hs : ent.All Entry.OneKey) (ht : Trace env cur cmds ops cur')
    (hT : Typed env (.root ent) root)
    (hw : cur.isNode = true → ∃ c, root.walk (.root ent) loc = some (cur, c))
    (hg : (root.get? (loc ++ pathLoc env cmds cur)).isSome) :
    LooksDirect env root cmds cur loc := by
  induction ht generalizing loc with
  | nil => trivial
  | @cons cur cur' str e cmds ops hsel ht ih =>
    obtain ⟨m, hsel'⟩ := id hsel
    rw [pathLoc, hsel'] at hg
    rw [LooksDirect, hsel']
    simp only [← List.append_assoc] at hg ⊢
    obtain ⟨d, hd⟩ : ∃ d, root.get? (loc ++ (cur.op e str).steps) = some d := by
      rw [Config.get?_append] at hg
      cases h : root.get? (loc ++ (cur.op e str).steps) with
      | none => rw [h] at hg; cases hg
      | some d => exact ⟨d, rfl⟩
    refine ⟨fun hk => ?_, ih (fun hi => ?_) hg⟩
    · obtain ⟨c, hw⟩ := hw (by simp [Cursor.isNode, hk])
      rw [hT.lookupKey_oneKey hs hw hk str]
      rw [Cursor.steps_key hk, Config.get?_append, Config.get?_of_walk hw, Option.bind_some,
        Config.get?_single] at hd
      rw [Config.lookupKeyShallow, hd]
      rfl
    · by_cases hi' : cur.isNode = true
      · obtain ⟨c, hw⟩ := hw hi'
        exact ⟨d, hT.walk_next hw hi' hsel hd⟩
      · -- After a value no token names a node.
        have := @Cursor.next_isNode cur e (by simpa using hi')
        rw [this] at hi
        cases hi

end

/-- The law of the configuration tree: the node the path names holds the path's
value and is what `LookupByPath` finds, the nodes off the path are as they were,
and no other node appears. -/
theorem set_get_frame {root : Config} {path : List String} {r : ParseResult}
    (hk : ent.All Entry.OneKey) (hn : ent.All Entry.NoChoice) (hr : Reach env ent root)
    (hp : parse env ent root path = some r) (hs : r.code = .parseSuccess)
    (hx : Exact env path (.root ent)) :
    ∃ loc n, loc.map (·.name) = nodePart env path (.root ent) ∧
      r.tree.lookupByPath (nodePart env path (.root ent)) = some loc ∧
      r.tree.node? loc = some n ∧ n.values = valuePart env path (.root ent) ∧
      (∀ l d, root.get? l = some d → ¬ l <+: loc → r.tree.get? l = some d) ∧
      ∀ l, (r.tree.get? l).isSome → (root.get? l).isSome ∨ l <+: loc := by
  obtain ⟨ht, hc⟩ := hr.typed_closed
  have hf := Focus.start ht hc
  obtain ⟨ops, cur, htr, ha, htree⟩ := parse_success hp hs
  have hpl := htr.plains hk hn hf
  have hplace := htr.place hpl.directs
  rw [List.nil_append] at hplace
  obtain ⟨n, hnode, hval⟩ := htr.values hf ⟨root, rfl, fun h => by cases h⟩ ha
  have htT := (htr.focus hf).typed
  have hframe := fun l => @Trace.frame env ent _ _ _ _ _ _ htr hf hpl l
  rw [hplace] at hnode
  rw [← htree] at hnode htT hframe
  have hg : (r.tree.get? ([] ++ pathLoc env path (.root ent))).isSome := by
    rw [List.nil_append]
    rw [Config.node?, Option.map_eq_some_iff] at hnode
    obtain ⟨d, hd, -⟩ := hnode
    rw [hd]
    rfl
  have hroot : ∃ c, r.tree.walk (.root ent) [] = some (.root ent, c) := ⟨r.tree, rfl⟩
  have hdirect := htr.looksDirect hk htT (fun _ => hroot) hg
  refine ⟨pathLoc env path (.root ent), n, (htr.nodePart_eq hx).symm,
    htr.lookup htT hx hdirect (fun _ => hroot) hg, hnode, hval, fun l d hd hl => ?_, fun l hl => ?_⟩
  · rw [hframe l hl, hd]
  · by_cases hpre : l <+: pathLoc env path (.root ent)
    · exact .inr hpre
    · rw [hframe l hpre] at hl
      exact .inl hl

/-- A schema with a one-key list of a leaf and a leaf-list. -/
def interfacesSchema : Entry :=
  { name := "", kind := .directory, dir := [
    { name := "interfaces", kind := .directory, parentKind := some .directory, dir := [
      { name := "interface", kind := .directory, parentKind := some .directory, listAttr := true,
        key := "name", dir := [
        { name := "name", kind := .leaf, parentKind := some .directory,
          type := some { kind := .string } },
        { name := "mtu", kind := .leaf, parentKind := some .directory,
          type := some { kind := .uint16, range := [⟨⟨.positive, 0, 0⟩, ⟨.positive, 65535, 0⟩⟩] } },
        { name := "address", kind := .leaf, parentKind := some .directory, listAttr := true,
          type := some { kind := .string } }] }] }] }

theorem interfacesSchema_oneKey : interfacesSchema.All Entry.OneKey := by
  decide

theorem interfacesSchema_noChoice : interfacesSchema.All Entry.NoChoice := by
  decide

theorem set_get_frame_mtu : ∃ r loc,
    parse .ascii interfacesSchema {} ["interfaces", "interface", "eth0", "mtu", "1500"] = some r ∧
    r.tree.lookupByPath ["interfaces", "interface", "eth0", "mtu"] = some loc ∧
    (r.tree.node? loc).map (·.values) = some ["1500"] := by
  obtain ⟨r, hr, hc⟩ := Option.map_eq_some_iff.mp (show (parse .ascii interfacesSchema {}
    ["interfaces", "interface", "eth0", "mtu", "1500"]).map (·.code) = some .parseSuccess by decide +kernel)
  obtain ⟨loc, n, -, hl, hn, hv, -⟩ := set_get_frame interfacesSchema_oneKey
    interfacesSchema_noChoice .empty hr hc (by decide +kernel)
  refine ⟨r, loc, hr, hl, ?_⟩
  rw [hn]
  exact congrArg some hv

end OpenConfigd
