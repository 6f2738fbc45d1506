import OpenConfigd.Config.Rebuild

/-!
# The command list describes the tree

`commandPaths_rebuild`: the commands of a tree, replayed in their order on an
empty root, rebuild the tree. The one exception is the empty tree: `CommandList`
takes its root for a value leaf and lists it with no tokens, on which `Parse`
panics.
-/

namespace OpenConfigd

variable {env : Env} {ent : Entry}

/-- `Parse` of the commands one after the other, whatever codes it returns. -/
def replay (env : Env) (ent : Entry) : List (List String) → Config → Option Config
  | [], root => some root
  | cmds :: paths, root => (parse env ent root cmds).bind fun r => replay env ent paths r.tree

/-- No value is the empty string. -/
def Config.NonemptyValues (root : Config) : Prop :=
  ∀ l n, root.node? l = some n → ∀ v ∈ n.values, v ≠ ""

section

variable {S T c d : Config} {l : Loc} {cur cur' : Cursor}

/-- A node of the tree whose path ends in a state that `Parse` accepts. -/
def Finished (ent : Entry) (T : Config) (l : Loc) : Prop :=
  l ≠ [] ∧ ∃ cur c, T.walk (.root ent) l = some (cur, c) ∧ Done cur c ∧
    cur.state ≠ .stateDir ∧ cur.state ≠ .stateKey

/-- The tokens of the node at a place. -/
def Config.tokens (T : Config) (l : Loc) : List String :=
  l.map (·.name) ++ ((T.node? l).map Node.values).getD []

/-- Replaying the paths of finished nodes of a tree on a part of it. -/
theorem replay_paths (hk : ent.All Entry.OneKey) (hn : ent.All Entry.Named)
    (hT : Typed env (.root ent) T) {ls : List Loc} (hls : ∀ l ∈ ls, Finished ent T l)
    (hS : Typed env (.root ent) S) (hSc : Closed ent S) (hST : S.PartOf T) :
    ∃ S', replay env ent (ls.map T.tokens) S = some S' ∧ S'.PartOf T ∧
      (∀ l, (S.node? l).isSome → (S'.node? l).isSome) ∧
      ∀ l ∈ ls, ∀ l', l' <+: l → (S'.node? l').isSome := by
  induction ls generalizing S with
  | nil => exact ⟨S, rfl, hST, fun _ h => h, fun l hl => by cases hl⟩
  | cons l ls ih =>
    obtain ⟨hne, cur, c, hw, hd, hst⟩ := hls l List.mem_cons_self
    obtain ⟨r, hr, hrt, hrc, hrT, hpath, hmono⟩ := rebuild_path hk hn hT hS hSc hST hne hw hd hst
    obtain ⟨S', hS', hpart, hmono', hcover⟩ :=
      ih (fun l hl => hls l (List.mem_cons_of_mem _ hl)) hrt hrc hrT
    have htok : T.tokens l = l.map (·.name) ++ c.toNode.values := by
      rw [Config.tokens, Config.node?_eq (Config.get?_of_walk hw)]
      rfl
    refine ⟨S', ?_, hpart, fun l hl => hmono' l (hmono l hl), fun l₁ hl₁ l' hl' => ?_⟩
    · rw [List.map_cons, replay, htok, hr]
      exact hS'
    · rcases List.mem_cons.mp hl₁ with rfl | hl₁
      · refine hmono' l' ?_
        rw [hpath l' hl', Config.node?, Option.isSome_map]
        obtain ⟨x, rfl⟩ := hl'
        exact Config.get?_prefix (by rw [Config.get?_of_walk hw]; rfl)
      · exact hcover l₁ hl₁ l' hl'

/-! ## The path of a command -/

/-- A node above another adds no values to a path. -/
theorem Typed.pathValues_above (h : Typed env cur c) {s : Step} (hd : c.child? s = some d) :
    c.pathValues = [] := by
  obtain ⟨e, hedge, -⟩ := h.child?_edge hd
  have hcon := h.content
  have hs : cur.isDir = true ∨ cur.state = .stateKey := by
    obtain ⟨slot, n⟩ := s
    cases slot with
    | configs => exact .inl hedge.1
    | keys => exact .inr hedge.1
  cases hst : cur.state <;> simp only [Content, hst] at hcon <;>
    simp only [Cursor.isDir, hst, Bool.false_eq_true, reduceCtorEq, or_self] at hs
  all_goals simp [Config.pathValues, hcon]

/-- `CommandPath` splices in the values of the last node only. -/
theorem Typed.commandPath_eq (h : Typed env cur c) (hw : c.walk cur l = some (cur', d))
    (hl : l ≠ []) : c.commandPath l = l.map (·.name) ++ d.pathValues := by
  induction l generalizing c cur with
  | nil => exact absurd rfl hl
  | cons s l ih =>
    rw [Config.walk] at hw
    split at hw
    · cases hw
    · rename_i b hb
      obtain ⟨e, -, he, htb⟩ := h.child?_edge hb
      simp only [he] at hw
      rw [Config.commandPath, hb]
      simp only [Config.child?_name hb, List.map_cons, List.cons_append, List.cons.injEq, true_and]
      cases l with
      | nil =>
        cases hw
        simp [Config.commandPath]
      | cons t l =>
        have hg := Config.get?_of_walk hw
        rw [Config.get?_cons] at hg
        obtain ⟨a, ha, -⟩ := Option.bind_eq_some_iff.mp hg
        rw [htb.pathValues_above ha, List.nil_append, ih htb hw (List.cons_ne_nil _ _)]

/-- The values of a finished node, none of them empty, as `CommandPath` has them. -/
theorem Typed.pathValues_eq (h : Typed env (.root ent) T)
    (hw : T.walk (.root ent) l = some (cur, c)) (hd : Done cur c) (hv : T.NonemptyValues) :
    c.pathValues = c.toNode.values := by
  have hcon := (h.of_walk hw).content
  have hne := hv l c.toNode (Config.node?_eq (Config.get?_of_walk hw))
  cases hst : cur.state <;> simp only [Content, Done, hst] at hcon hd
  case stateLeaf =>
    obtain ⟨he, hll⟩ := Config.walk_leaf hw (.inl hst)
    have hll' : cur.ent.isLeafList = false := by simpa [hst] using hll
    have hvals : c.toNode.values = [c.value] := by simp [Node.values, he, hll', hd]
    rw [hvals] at hne ⊢
    simp [Config.pathValues, hcon, hne]
  case stateLeafList =>
    obtain ⟨he, hll⟩ := Config.walk_leaf hw (.inr hst)
    simp [Config.pathValues, Node.values, he, hll.mpr hst, hcon]
  all_goals simp [Config.pathValues, Node.values, hcon]

theorem entryNextState_kind {e : Entry} (h : e.kind = .leaf) :
    entryNextState e = .stateLeaf ∨ entryNextState e = .stateLeafList := by
  rw [entryNextState, h]
  simp only
  split <;> simp

/-- A command node other than the root is finished. -/
theorem Typed.finished (hk : ent.All Entry.OneKey) (hn : ent.All Entry.NoChoice)
    (hT : Typed env (.root ent) T) (hc : Closed ent T) (hl : l ≠ []) (hg : T.get? l = some c)
    (hcmd : c.isCommand = true) : Finished ent T l := by
  obtain ⟨cur, hw, htc⟩ := hT.walk_of_get hg
  refine ⟨hl, cur, c, hw, hc l cur c hl hw, ?_⟩
  have hdone := hc l cur c hl hw
  obtain ⟨pre, ⟨slot, name⟩, rfl⟩ := (List.eq_nil_or_concat l).resolve_left hl
  rw [List.concat_eq_append] at hw
  obtain ⟨cur₁, p, e, hwp, hcp, he, rfl⟩ := Config.walk_snoc hw
  cases slot with
  | keys =>
    have hone := (hT.walk_all hk hwp).self.length
    simp only [Cursor.child, Cursor.enterKey, hone]
    rw [if_pos (by omega)]
    simp
  | configs =>
    obtain ⟨e', hedge, he', -⟩ := (hT.of_walk hwp).child?_edge hcp
    rw [he] at he'
    cases he'
    obtain ⟨hdir, ⟨str, hs⟩, -⟩ := id hedge
    have hkind := (hs.all hdir (hT.walk_all hn hwp)).self.kind
    have hlist := (hs.all hdir (hT.walk_all hk hwp)).self.list
    simp only [Config.isCommand, Config.isValueLeaf, Config.isLeaf, Config.isPresence, he,
      Option.map_some, Option.getD_some] at hcmd
    simp only [Cursor.child, Cursor.enter] at hdone ⊢
    split
    · simp
    · rename_i hempty
      rw [if_neg hempty] at hdone
      rcases hkind with hkind | hkind
      · -- A container or a list with children and without presence is no command.
        simp only [hkind, Done] at hcmd hdone
        by_cases hkey : hasKey e = true
        · have hst : entryNextState e = .stateKey := by simp [entryNextState, hkind, hkey]
          rw [hst] at hdone
          simp [hlist hkey, hdone] at hcmd
        · by_cases hpres : isPresenceContainer e = true
          · simp [entryNextState, hkind, hkey, hpres]
          · have hst : entryNextState e = .stateDir := by
              simp [entryNextState, hkind, hkey, hpres]
            rw [hst] at hdone
            simp [hpres, hdone] at hcmd
      · rcases entryNextState_kind hkind with h | h <;> simp [h]

end

/-! ## The whole tree -/

/-- The root carries no fields of its own. -/
theorem Reach.toNode {root : Config} (h : Reach env ent root) : root.toNode = {} := by
  induction h with
  | empty => rfl
  | set hr hp hs ih =>
    obtain ⟨ops, cur, htr, -, htree⟩ := parse_success hp hs
    obtain ⟨ht, hc⟩ := hr.typed_closed
    rw [htree, htr.toNode (Focus.start ht hc).stands]
    exact ih

theorem Config.isCommand_root {root : Config} (h : root.toNode = {}) :
    root.isCommand = root.isEmpty := by
  have he : root.entry = none := by
    rw [show root.entry = root.toNode.entry from rfl, h]
  have hk : root.keyConfig = false := by
    rw [show root.keyConfig = root.toNode.keyConfig from rfl, h]
  simp [Config.isCommand, Config.isValueLeaf, Config.isLeaf, Config.isKeyConfig, Config.isPresence,
    Config.isEmpty, he, hk, Bool.and_comm]

theorem PartOf.empty {T : Config} (h : T.toNode = {}) : Config.PartOf {} T := by
  intro l n hn
  cases l with
  | nil =>
    cases hn
    exact congrArg some h
  | cons s l =>
    rw [Config.node?, show ({} : Config) = ({} : Node).bare from rfl,
      Config.get?_bare _ (List.cons_ne_nil _ _)] at hn
    cases hn

/-- A part of a tree that has every node without children is the tree. -/
theorem Typed.same_of_cover {T t : Config} (hT : Typed env (.root ent) T) (hpart : t.PartOf T)
    (hcover : ∀ l c, l ≠ [] → T.get? l = some c → c.isEmpty = true →
      ∀ l', l' <+: l → (t.node? l').isSome) : t.Same T := by
  intro l
  cases hl : T.node? l with
  | none =>
    cases htl : t.node? l with
    | none => rfl
    | some n =>
      rw [hpart l n htl] at hl
      cases hl
  | some n =>
    obtain ⟨c, hg, -⟩ := Option.map_eq_some_iff.mp hl
    obtain ⟨cur, -, htc⟩ := hT.walk_of_get hg
    obtain ⟨r, d, hgd, hleaf⟩ := htc.exists_leaf
    have hsome : (t.node? l).isSome := by
      by_cases hne : l ++ r = []
      · rw [(List.append_eq_nil_iff.mp hne).1]
        rfl
      · refine hcover (l ++ r) d hne ?_ hleaf l (List.prefix_append l r)
        rw [Config.get?_append, hg]
        exact hgd
    obtain ⟨n', hn'⟩ := Option.isSome_iff_exists.mp hsome
    rw [hn', ← hpart l n' hn', hl]

/-- Replaying the commands of a tree that is not empty. -/
theorem replay_commandPaths {root : Config} (hk : ent.All Entry.OneKey) (hc : ent.All Entry.NoChoice)
    (hn : ent.All Entry.Named) (hr : Reach env ent root) (hv : root.NonemptyValues)
    (he : root.isEmpty = false) :
    ∃ t, replay env ent root.commandPaths {} = some t ∧ t.Same root := by
  obtain ⟨hT, hcl⟩ := hr.typed_closed
  have hroot := hr.toNode
  have hfin : ∀ l ∈ root.commandList [], Finished ent root l := by
    intro l hl
    obtain ⟨r, d, rfl, hg, hcmd⟩ := hT.mem_commandList.mp hl
    refine hT.finished hk hc hcl ?_ hg hcmd
    rintro rfl
    cases hg
    rw [Config.isCommand_root hroot, he] at hcmd
    cases hcmd
  have hpaths : root.commandPaths = (root.commandList []).map root.tokens := by
    refine List.map_congr_left fun l hl => ?_
    obtain ⟨hne, cur, c, hw, hd, -⟩ := hfin l hl
    rw [hT.commandPath_eq hw hne, hT.pathValues_eq hw hd hv, Config.tokens,
      Config.node?_eq (Config.get?_of_walk hw)]
    rfl
  obtain ⟨t, ht, hpart, -, hcover⟩ :=
    replay_paths hk hn hT hfin (.empty _) (.empty ent) (PartOf.empty hroot)
  refine ⟨t, hpaths ▸ ht, hT.same_of_cover hpart fun l c _ hg hleaf => ?_⟩
  exact hcover l (hT.mem_commandList.mpr ⟨l, c, rfl, hg, Config.isCommand_of_isEmpty hleaf⟩)

/-- The commands of a reachable tree describe it, unless it is empty: replayed on
an empty root they rebuild it, and no other tree has the same. -/
theorem commandPaths_rebuild {root : Config} (hk : ent.All Entry.OneKey)
    (hc : ent.All Entry.NoChoice) (hn : ent.All Entry.Named) (hr : Reach env ent root)
    (hv : root.NonemptyValues) :
    ((∃ t, replay env ent root.commandPaths {} = some t ∧ t.Same root) ∧
      ∀ root', Reach env ent root' → root'.NonemptyValues →
        root'.commandPaths = root.commandPaths → root'.Same root) ↔ root.isEmpty = false := by
  have empty_paths {root : Config} (hr : Reach env ent root) (he : root.isEmpty = true) :
      replay env ent root.commandPaths {} = none := by
    have hroot := hr.toNode
    obtain ⟨n, configs, keys⟩ := root
    obtain ⟨rfl, rfl⟩ : configs = [] ∧ keys = [] := by simpa [Config.isEmpty] using he
    obtain rfl : n = {} := hroot
    rfl
  constructor
  · rintro ⟨⟨t, ht, -⟩, -⟩
    cases he : root.isEmpty with
    | false => rfl
    | true =>
      rw [empty_paths hr he] at ht
      cases ht
  · intro he
    obtain ⟨t, ht, hs⟩ := replay_commandPaths hk hc hn hr hv he
    refine ⟨⟨t, ht, hs⟩, fun root' hr' hv' hp => ?_⟩
    cases he' : root'.isEmpty with
    | true =>
      rw [← hp, empty_paths hr' he'] at ht
      cases ht
    | false =>
      obtain ⟨t', ht', hs'⟩ := replay_commandPaths hk hc hn hr' hv' he'
      rw [hp, ht] at ht'
      cases ht'
      exact fun l => (hs' l).symm.trans (hs l)

theorem interfacesSchema_named : interfacesSchema.All Entry.Named := by
  decide

theorem Config.nonemptyValues_of_every {c : Config}
    (h : (c.every fun d => d.values.all fun v => v ≠ "") = true) : c.NonemptyValues := by
  intro l n hn v hv
  simpa using List.all_eq_true.mp (Config.node?_of_every (p := fun n => n.values.all fun v => v ≠ "") h hn) v hv

/-- The empty tree: `Parse` panics on its only command. -/
theorem commandPaths_empty : Reach .ascii interfacesSchema {} ∧ Config.NonemptyValues {} ∧
    ¬ ∃ t, replay .ascii interfacesSchema ({} : Config).commandPaths {} = some t ∧ t.Same {} := by
  refine ⟨.empty, Config.nonemptyValues_of_every rfl, ?_⟩
  rintro ⟨t, ht, -⟩
  cases ht

theorem commandPaths_rebuild_mtu : ∃ r t,
    parse .ascii interfacesSchema {} ["interfaces", "interface", "eth0", "mtu", "1500"] = some r ∧
    r.tree.commandPaths = [["interfaces", "interface", "eth0"],
      ["interfaces", "interface", "eth0", "mtu", "1500"]] ∧
    replay .ascii interfacesSchema r.tree.commandPaths {} = some t ∧ t.Same r.tree := by
  obtain ⟨r, hr, hp⟩ := Option.map_eq_some_iff.mp (show (parse .ascii interfacesSchema {}
    ["interfaces", "interface", "eth0", "mtu", "1500"]).map
      (fun r => (r.code, r.tree.commandPaths, r.tree.isEmpty,
        r.tree.every fun d => d.values.all fun v => v ≠ "")) =
    some (.parseSuccess, [["interfaces", "interface", "eth0"],
      ["interfaces", "interface", "eth0", "mtu", "1500"]], false, true) by decide +kernel)
  simp only [Prod.mk.injEq] at hp
  obtain ⟨hc, hpaths, he, hv⟩ := hp
  obtain ⟨⟨t, ht, hs⟩, -⟩ := (commandPaths_rebuild interfacesSchema_oneKey
    interfacesSchema_noChoice interfacesSchema_named (.set .empty hr hc)
    (Config.nonemptyValues_of_every hv)).mpr he
  exact ⟨r, t, hr, hpaths, ht, hs⟩

end OpenConfigd
