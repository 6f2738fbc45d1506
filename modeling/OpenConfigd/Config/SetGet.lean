import OpenConfigd.Config.Reach

/-!
# The set, get and frame laws

What a successful call of `Parse` in set mode does to the tree when its calls are
plain: it changes nothing off the path (`Trace.frame`), the node the path leads
to holds the path's value (`Trace.values`), and `LookupByPath` finds that node
(`Trace.lookup`).
-/

namespace OpenConfigd

/-- The value or the list of values a node holds. -/
def Node.values (n : Node) : List String :=
  if (n.entry.map Entry.isLeafList).getD false then n.valueList
  else if n.hasValue then [n.value] else []

/-! ## The parts of a path -/

section

variable (env : Env)

/-- The next token names a node: an entry of the schema, or a key. -/
def Cursor.isNode (cur : Cursor) : Bool := cur.isDir || cur.state = .stateKey

/-- The tokens of a path that name nodes. -/
def nodePart : List String → Cursor → List String
  | [], _ => []
  | str :: cmds, cur =>
    match cur.select env str with
    | some (.unique e _) => if cur.isNode then str :: nodePart cmds (cur.next e) else []
    | _ => []

/-- The tokens of a path that are values. -/
def valuePart : List String → Cursor → List String
  | [], _ => []
  | str :: cmds, cur =>
    match cur.select env str with
    | some (.unique e _) => if cur.isNode then valuePart cmds (cur.next e) else str :: cmds
    | _ => []

/-- The place a path leads to, through `Configs` and `Keys`. -/
def pathLoc : List String → Cursor → Loc
  | [], _ => []
  | str :: cmds, cur =>
    match cur.select env str with
    | some (.unique e _) => (cur.op e str).steps ++ pathLoc cmds (cur.next e)
    | _ => []

/-- The tokens that name entries of the schema are not abbreviated. -/
def Exact : List String → Cursor → Prop
  | [], _ => True
  | str :: cmds, cur =>
    match cur.select env str with
    | some (.unique e _) => (cur.isDir = true → str = e.name) ∧ Exact cmds (cur.next e)
    | _ => True

instance decidableExact : ∀ (cmds : List String) (cur : Cursor), Decidable (Exact env cmds cur)
  | [], _ => .isTrue trivial
  | str :: cmds, cur =>
    match h : cur.select env str with
    | some (.unique e _) =>
      have := decidableExact cmds (cur.next e)
      decidable_of_iff ((cur.isDir = true → str = e.name) ∧ Exact env cmds (cur.next e))
        (by rw [Exact, h])
    | none | some .noMatch | some .ambiguous => .isTrue (by rw [Exact, h]; trivial)

/-- The call finds a key where it looks for it. -/
def Op.Direct (op : Op) (root : Config) (loc : Loc) : Prop :=
  match op with
  | .setKey _ key _ => ∃ c, root.get? loc = some c ∧ Config.lookupKey root loc key =
    (loc, if (c.lookupKeyShallow key).isSome then some (loc ++ [⟨.keys, key⟩]) else none)
  | _ => True

/-- Every call finds its keys where it looks for them. -/
def Directs : List Op → Config × Loc → Prop
  | [], _ => True
  | op :: ops, p => op.Direct p.1 p.2 ∧ Directs ops (op.apply env p)

/-- Every call is plain. -/
def Plains : List Op → Config × Loc → Prop
  | [], _ => True
  | op :: ops, p => op.Plain p.1 p.2 ∧ Plains ops (op.apply env p)

end

variable {env : Env} {ent : Entry}

section

variable {cur cur' : Cursor} {cmds : List String} {ops : List Op} {root : Config} {loc : Loc}

theorem applyOps_cons (op : Op) (ops : List Op) (p : Config × Loc) :
    applyOps env (op :: ops) p = applyOps env ops (op.apply env p) := rfl

theorem Op.Plain.direct {op : Op} (h : op.Plain root loc) : op.Direct root loc := by
  cases op with
  | setKey e key pre =>
    rw [Op.Plain] at h
    split at h
    · exact h.elim
    · rename_i c hc
      exact ⟨c, hc, h⟩
  | _ => trivial

theorem Plains.directs {p : Config × Loc} (h : Plains env ops p) : Directs env ops p := by
  induction ops generalizing p with
  | nil => trivial
  | cons op ops ih => exact ⟨h.1.direct, ih h.2⟩

theorem Op.Direct.apply_loc {op : Op} (h : op.Direct root loc) :
    (op.apply env (root, loc)).2 = loc ++ op.steps := by
  cases op with
  | setKey e key pre =>
    obtain ⟨c, -, hl⟩ := h
    rw [Op.apply, Config.setKey, hl]
    cases (c.lookupKeyShallow key).isSome <;> rfl
  | set | setLeafList => rfl
  | setValue | setListValue => exact (List.append_nil loc).symm

/-- Calls that find their keys end at the place of the path. -/
theorem Trace.place (ht : Trace env cur cmds ops cur') (hp : Directs env ops (root, loc)) :
    (applyOps env ops (root, loc)).2 = loc ++ pathLoc env cmds cur := by
  induction ht generalizing root loc with
  | nil => exact (List.append_nil loc).symm
  | @cons cur cur' str e cmds ops hs _ ih =>
    have hl := @Op.Direct.apply_loc env _ _ _ hp.1
    have hp' := hp.2
    obtain ⟨m, hs⟩ := hs
    rw [applyOps_cons, pathLoc, hs]
    generalize (cur.op e str).apply env (root, loc) = p at hl hp'
    obtain ⟨root', loc'⟩ := p
    simp only at hl
    subst hl
    rw [ih hp', List.append_assoc]

/-- Plain calls keep every subtree off the path. -/
theorem Trace.frame (ht : Trace env cur cmds ops cur') (hf : Focus env ent (root, loc) cur)
    (hp : Plains env ops (root, loc)) {l : Loc} (hl : ¬ l <+: loc ++ pathLoc env cmds cur) :
    (applyOps env ops (root, loc)).1.get? l = root.get? l := by
  induction ht generalizing root loc with
  | nil => rfl
  | @cons cur cur' str e cmds ops hs _ ih =>
    have hloc := @Op.Direct.apply_loc env _ _ _ hp.1.direct
    obtain ⟨cur₁, c, hw, -⟩ := hf.on
    have hg := Config.get?_of_walk hw
    have hn := (hf.typed.of_walk hw).nodup
    have hf' := hf.step hs
    have hp' := hp.2
    obtain ⟨m, hs⟩ := hs
    rw [pathLoc, hs] at hl
    simp only [← List.append_assoc] at hl
    have hl' : ¬ l <+: loc ++ (cur.op e str).steps :=
      fun h => hl (h.trans (List.prefix_append _ _))
    have hframe := @Op.apply_frame env _ _ _ _ hg hn hp.1 l hl'
    rw [applyOps_cons]
    generalize (cur.op e str).apply env (root, loc) = p at hloc hf' hp' hframe
    obtain ⟨root', loc'⟩ := p
    simp only at hloc
    subst hloc
    rw [ih hf' hp' hl, hframe]

/-! ## The value at the end of the path -/

/-- The parser has just entered a node, and a leaf-list without its values. -/
def Entered (ent : Entry) (p : Config × Loc) (cur : Cursor) : Prop :=
  ∃ c, p.1.walk (.root ent) p.2 = some (cur, c) ∧ (cur.state = .stateLeafList → c.valueList = [])

theorem entryNextState_leaf {e : Entry}
    (h : entryNextState e = .stateLeaf ∨ entryNextState e = .stateLeafList) :
    e.isLeafList = true ↔ entryNextState e = .stateLeafList := by
  rw [entryNextState] at h ⊢
  split at h
  · split at h
    · simp at h
    · split at h <;> simp at h
  · split <;> simp_all
  · simp at h

theorem Config.walk_leaf {c : Config} (hw : root.walk (.root ent) loc = some (cur, c))
    (hs : cur.state = .stateLeaf ∨ cur.state = .stateLeafList) :
    c.entry = some cur.ent ∧ (cur.ent.isLeafList = true ↔ cur.state = .stateLeafList) := by
  rcases List.eq_nil_or_concat loc with rfl | ⟨pre, ⟨slot, k⟩, rfl⟩
  · cases hw
    simp [Cursor.root] at hs
  · rw [List.concat_eq_append] at hw
    obtain ⟨cur₁, p, e, -, -, he, rfl⟩ := Config.walk_snoc hw
    cases slot with
    | keys =>
      simp only [Cursor.child, Cursor.enterKey] at hs
      split at hs <;> simp at hs
    | configs =>
      simp only [Cursor.child, Cursor.enter] at hs ⊢
      split at hs
      · simp at hs
      · rename_i hne
        rw [if_neg hne]
        exact ⟨he, entryNextState_leaf hs⟩

theorem Trace.listValues (ht : Trace env cur cmds ops cur') (hf : Focus env ent (root, loc) cur)
    (hs : cur.state = .stateLeafList ∨ cur.state = .stateLeafListMatched) {n : Node}
    (hn : root.node? loc = some n) : ∃ n', (applyOps env ops (root, loc)).2 = loc ∧
      (applyOps env ops (root, loc)).1.node? loc = some n' ∧ n'.entry = n.entry ∧
      n'.valueList = n.valueList ++ cmds := by
  induction ht generalizing root n with
  | nil => exact ⟨n, rfl, hn, rfl, (List.append_nil _).symm⟩
  | @cons cur cur' str e cmds ops hsel _ ih =>
    have hop : cur.op e str = .setListValue str := by
      rcases hs with hs | hs <;> simp only [Cursor.op, hs]
    have hnext : (cur.next e).state = .stateLeafListMatched := by
      rcases hs with hs | hs <;> simp only [Cursor.next, hs]
    obtain ⟨cur₁, c, hw, -⟩ := hf.on
    have hg := Config.get?_of_walk hw
    have hup := (@Op.apply_node? env root c loc (.setListValue str) hg
      (hf.typed.of_walk hw).nodup (by simp [Op.Plain, hg])).2
    have hf' := hf.step hsel
    rw [applyOps_cons, hop] at *
    have hn' := congrFun hup loc
    simp only [Op.update, Op.steps, List.append_nil, Function.update_self, hn,
      Option.map_some] at hn'
    obtain ⟨n', hloc, h₁, h₂, h₃⟩ := ih hf' (.inr hnext) hn'
    exact ⟨n', hloc, h₁, h₂, by rw [h₃]; simp⟩

theorem Cursor.next_dir {e : Entry} (hd : cur.isDir = true) : cur.next e = .enter e := by
  cases hst : cur.state <;> simp [isDir, hst] at hd <;> simp only [next, hst]

theorem Cursor.op_dir {str : String} {e : Entry} (hd : cur.isDir = true) : cur.op e str =
    if entryNextState e = .stateLeafList then .setLeafList e else .set e := by
  cases hst : cur.state <;> simp [isDir, hst] at hd <;> simp only [op, hst]

theorem Cursor.next_key {e : Entry} (hk : cur.state = .stateKey) : cur.next e = cur.enterKey := by
  simp only [next, hk]

/-- A call that enters a node leaves the parser on the node it entered. -/
theorem Focus.entered {str : String} {e : Entry} (hf : Focus env ent (root, loc) cur)
    (hs : cur.Selects env str e) (hi : cur.isNode = true) :
    Entered ent ((cur.op e str).apply env (root, loc)) (cur.next e) := by
  by_cases hd : cur.isDir = true
  · have hnext := @Cursor.next_dir cur e hd
    obtain ⟨ht, c, d, hw, hw'⟩ := hf.stands.walk_set hd hs
    rw [hnext, Cursor.op_dir hd]
    split
    · rename_i hl
      have hst : (Cursor.enter e).state = .stateLeafList := by simp [Cursor.enter, hl]
      have htc := ht.modify (f := Config.clearList) hw' ((ht.of_walk hw').clearList hst)
        (.of_value (.inr hst) rfl)
      have := ht.walk_modify (g := Config.clearList) hw' (fun _ => rfl) htc
      rw [← Config.modify_setLeafList] at this
      exact ⟨d.clearList, this, fun _ => rfl⟩
    · rename_i hl
      refine ⟨d, hw', fun hst => ?_⟩
      simp only [Cursor.enter] at hst
      split at hst
      · cases hst
      · exact absurd hst hl
  · have hk : cur.state = .stateKey := by simpa [Cursor.isNode, hd] using hi
    have hf' := hf.step hs
    obtain ⟨cur₁, c, hw, hon⟩ := hf'.on
    have hne : (cur.next e).state = .stateKeyMatched ∨ (cur.next e).state = .stateKey := by
      simp only [Cursor.next, hk, Cursor.enterKey]
      split <;> simp
    rw [hon.eq (by rcases hne with h | h <;> simp [h])] at hw
    exact ⟨c, hw, fun h => by rcases hne with h' | h' <;> rw [h] at h' <;> cases h'⟩

/-- No token is accepted after the value of a leaf. -/
theorem Trace.leafMatched (ht : Trace env cur cmds ops cur') (hs : cur.state = .stateLeafMatched) :
    cmds = [] ∧ ops = [] := by
  cases ht with
  | nil => exact ⟨rfl, rfl⟩
  | cons hsel =>
    obtain ⟨m, hsel⟩ := hsel
    obtain ⟨l, hl, hp⟩ := Cursor.select_unique.mp hsel
    rw [Cursor.alternatives, hs] at hl
    cases hl
    obtain ⟨x, hx, -⟩ := hp.mem
    cases hx

/-- The node at the end of the path holds the path's value. -/
theorem Trace.values (ht : Trace env cur cmds ops cur') (hf : Focus env ent (root, loc) cur)
    (hin : Entered ent (root, loc) cur) (ha : cur'.accepts = true) :
    ∃ n, (applyOps env ops (root, loc)).1.node? (applyOps env ops (root, loc)).2 = some n ∧
      n.values = valuePart env cmds cur := by
  induction ht generalizing root loc with
  | nil cur =>
    obtain ⟨c, hw, -⟩ := hin
    refine ⟨c.toNode, Config.node?_eq (Config.get?_of_walk hw), ?_⟩
    have hcon := (hf.typed.of_walk hw).content
    have hne := Config.walk_state hw
    -- The cursor accepts, so it is not that of a leaf or a leaf-list without a value.
    have hv : c.valueList = [] ∧ c.hasValue = false := by
      obtain ⟨ent', state, index⟩ := cur
      cases state <;> simp [Cursor.accepts] at ha <;> simp [Content] at hcon hne <;>
        exact ⟨hcon.2.1, hcon.2.2⟩
    simp [Node.values, hv, valuePart]
  | @cons cur cur' str e cmds ops hs ht ih =>
    by_cases hi : cur.isNode = true
    · have hen := hf.entered hs hi
      have hf' := hf.step hs
      obtain ⟨m, hs⟩ := hs
      rw [applyOps_cons, valuePart, hs]
      simp only [hi, if_true]
      exact ih hf' hen ha
    · obtain ⟨c, hw, hlist⟩ := hin
      have hg := Config.get?_of_walk hw
      have htr := Trace.cons hs ht
      obtain ⟨m, hsel⟩ := id hs
      rw [valuePart, hsel]
      simp only [hi]
      have hne := Config.walk_state hw
      cases hst : cur.state <;> simp [Cursor.isNode, Cursor.isDir, hst] at hi hne
      case stateLeaf =>
        obtain ⟨he, hll⟩ := Config.walk_leaf hw (.inl hst)
        have hop : cur.op e str = .setValue str := by simp only [Cursor.op, hst]
        obtain ⟨rfl, rfl⟩ := ht.leafMatched (by simp only [Cursor.next, hst])
        obtain ⟨hloc, hup⟩ := @Op.apply_node? env root c loc (.setValue str) hg
          (hf.typed.of_walk hw).nodup (by simp [Op.Plain, hg])
        rw [applyOps_cons, hop]
        simp only [applyOps, List.foldl_nil, hloc, hup, Op.update, Op.steps, List.append_nil,
          Function.update_self, Config.node?_eq hg, Option.map_some]
        refine ⟨_, rfl, ?_⟩
        have : cur.ent.isLeafList = false := by simpa [hst] using hll
        simp [Node.values, he, this]
      case stateLeafMatched => exact absurd (htr.leafMatched hst).1 (List.cons_ne_nil _ _)
      case stateLeafList =>
        obtain ⟨he, hll⟩ := Config.walk_leaf hw (.inr hst)
        obtain ⟨n', hloc, hn, hen, hv⟩ := htr.listValues hf (.inl hst) (Config.node?_eq hg)
        refine ⟨n', by rw [hloc]; exact hn, ?_⟩
        rw [hlist hst, List.nil_append] at hv
        simp [Node.values, hen, he, hll.mpr hst, hv]

/-! ## Finding the end of the path -/

/-- `lookupKey` finds the keys of the path where the path has them. -/
def LooksDirect (env : Env) (root : Config) : List String → Cursor → Loc → Prop
  | [], _, _ => True
  | str :: cmds, cur, loc =>
    match cur.select env str with
    | some (.unique e _) =>
      (cur.state = .stateKey → (Config.lookupKey root loc str).2 = some (loc ++ [⟨.keys, str⟩])) ∧
        LooksDirect env root cmds (cur.next e) (loc ++ (cur.op e str).steps)
    | _ => True

/-- A path has no place below a value. -/
theorem Trace.pathLoc_value (ht : Trace env cur cmds ops cur') (hi : cur.isNode = false) :
    pathLoc env cmds cur = [] ∧ nodePart env cmds cur = [] := by
  induction ht with
  | nil => exact ⟨rfl, rfl⟩
  | @cons cur cur' str e cmds ops hs _ ih =>
    obtain ⟨m, hs⟩ := hs
    rw [pathLoc, nodePart, hs]
    simp only [hi, Bool.false_eq_true, if_false, and_true]
    have : (cur.op e str).steps = [] ∧ (cur.next e).isNode = false := by
      cases hst : cur.state <;> simp [Cursor.isNode, Cursor.isDir, hst] at hi <;>
        simp [Cursor.op, Cursor.next, hst, Op.steps, Cursor.isNode, Cursor.isDir]
    rw [this.1, (ih this.2).1]
    rfl

theorem Cursor.steps_dir {str : String} {e : Entry} (hd : cur.isDir = true) :
    (cur.op e str).steps = [⟨.configs, e.name⟩] := by
  cases hst : cur.state <;> simp [isDir, hst] at hd <;> simp only [op, hst] <;> split <;> rfl

theorem Cursor.steps_key {str : String} {e : Entry} (hk : cur.state = .stateKey) :
    (cur.op e str).steps = [⟨.keys, str⟩] := by
  simp only [op, hk]
  rfl

theorem Typed.configs_key {c : Config} (h : Typed env cur c) (hk : cur.state = .stateKey) :
    c.configs = [] := by
  refine List.eq_nil_iff_forall_not_mem.mpr fun d hd => ?_
  obtain ⟨e, he⟩ := h.edge .configs d hd
  have := he.1
  rw [Cursor.isDir, hk] at this
  cases this

/-- The node a token leads to has the cursor the parser moves to. -/
theorem Typed.walk_next {str : String} {e : Entry} {c d : Config}
    (hT : Typed env (.root ent) root) (hw : root.walk (.root ent) loc = some (cur, c))
    (hi : cur.isNode = true) (hs : cur.Selects env str e)
    (hd : root.get? (loc ++ (cur.op e str).steps) = some d) :
    root.walk (.root ent) (loc ++ (cur.op e str).steps) = some (cur.next e, d) := by
  have htc := hT.of_walk hw
  rw [Config.get?_append, Config.get?_of_walk hw, Option.bind_some] at hd
  by_cases hdir : cur.isDir = true
  · rw [Cursor.steps_dir hdir] at hd ⊢
    rw [Config.get?_single] at hd
    obtain ⟨e', hedge, he, -⟩ := htc.child?_edge hd
    obtain ⟨-, ⟨str', hs'⟩, -⟩ := id hedge
    have hn : e'.name = e.name := hedge.name_configs.symm.trans (Config.child?_name hd)
    rw [hs'.name_inj hdir hs hn] at he
    rw [Config.walk_snoc_eq hw hd he, Cursor.next_dir hdir]
    rfl
  · have hk : cur.state = .stateKey := by simpa [Cursor.isNode, hdir] using hi
    rw [Cursor.steps_key hk] at hd ⊢
    rw [Config.get?_single] at hd
    rw [Config.walk_snoc_eq hw hd (htc.entry_of_key hd hs), Cursor.next_key hk]
    rfl

theorem Trace.nodePart_eq (ht : Trace env cur cmds ops cur') (hx : Exact env cmds cur) :
    nodePart env cmds cur = (pathLoc env cmds cur).map (·.name) := by
  induction ht with
  | nil => rfl
  | @cons cur cur' str e cmds ops hs ht ih =>
    by_cases hi : cur.isNode = true
    · obtain ⟨m, hs⟩ := hs
      rw [Exact, hs] at hx
      rw [nodePart, pathLoc, hs]
      simp only [hi, if_true, List.map_append]
      rw [ih hx.2]
      by_cases hd : cur.isDir = true
      · rw [Cursor.steps_dir hd, hx.1 hd]
        rfl
      · rw [Cursor.steps_key (by simpa [Cursor.isNode, hd] using hi)]
        rfl
    · have := (Trace.cons hs ht).pathLoc_value (by simpa using hi)
      rw [this.1, this.2]
      rfl

/-- `LookupByPath` at a node whose children have names of the schema. -/
theorem Typed.lookupFrom_dir {c : Config} (hT : Typed env (.root ent) root)
    (hw : root.walk (.root ent) loc = some (cur, c)) (hd : cur.isDir = true) (name : String)
    (path : List String) : Config.lookupFrom root loc (name :: path) =
      (c.lookup name).bind fun _ => Config.lookupFrom root (loc ++ [⟨.configs, name⟩]) path := by
  have hg := Config.get?_of_walk hw
  have hkeys : c.keys = [] := by
    refine List.eq_nil_iff_forall_not_mem.mpr fun d hd' => ?_
    obtain ⟨e, he⟩ := (hT.of_walk hw).edge .keys d hd'
    rw [Cursor.isDir, he.1] at hd
    cases hd
  have hno : c.lookupKeyShallow name = none := by
    rw [Config.lookupKeyShallow, Config.child?, Config.slot, hkeys]
    rfl
  have hlk : (Config.lookupKey root loc name).2 = none := by
    simp [Config.lookupKey, hg, Config.isKeyConfig, hkeys, hno]
  rw [Config.lookupFrom, hg, Option.bind_some]
  cases c.lookup name with
  | none => simp only [hlk]; rfl
  | some d => rfl

/-- `LookupByPath` at a node whose children are keys. -/
theorem Typed.lookupFrom_key {c : Config} (hT : Typed env (.root ent) root)
    (hw : root.walk (.root ent) loc = some (cur, c)) (hk : cur.state = .stateKey) (key : String)
    (path : List String) : Config.lookupFrom root loc (key :: path) =
      (Config.lookupKey root loc key).2.bind fun next => Config.lookupFrom root next path := by
  have hno : c.lookup key = none := by
    rw [Config.lookup, Config.child?, Config.slot, (hT.of_walk hw).configs_key hk]
    rfl
  rw [Config.lookupFrom, Config.get?_of_walk hw, Option.bind_some, hno]
  cases (Config.lookupKey root loc key).2 <;> rfl

/-- `LookupByPath` follows an exact path to its place. -/
theorem Trace.lookup (ht : Trace env cur cmds ops cur') (hT : Typed env (.root ent) root)
    (hx : Exact env cmds cur) (hd : LooksDirect env root cmds cur loc)
    (hw : cur.isNode = true → ∃ c, root.walk (.root ent) loc = some (cur, c))
    (hg : (root.get? (loc ++ pathLoc env cmds cur)).isSome) :
    Config.lookupFrom root loc (nodePart env cmds cur) = some (loc ++ pathLoc env cmds cur) := by
  induction ht generalizing loc with
  | nil => simp [nodePart, pathLoc, Config.lookupFrom]
  | @cons cur cur' str e cmds ops hs ht ih =>
    by_cases hi : cur.isNode = true
    · obtain ⟨c, hw⟩ := hw hi
      have hgc := Config.get?_of_walk hw
      obtain ⟨m, hsel⟩ := id hs
      rw [Exact, hsel] at hx
      rw [LooksDirect, hsel] at hd
      rw [pathLoc, hsel] at hg
      rw [nodePart, pathLoc, hsel]
      simp only [hi, if_true] at hx hd hg ⊢
      rw [← List.append_assoc] at hg ⊢
      obtain ⟨d, hgd⟩ : ∃ d, root.get? (loc ++ (cur.op e str).steps) = some d := by
        rw [Config.get?_append] at hg
        cases h : root.get? (loc ++ (cur.op e str).steps) with
        | none => rw [h] at hg; cases hg
        | some d => exact ⟨d, rfl⟩
      have hwd := hT.walk_next hw hi hs hgd
      by_cases hdir : cur.isDir = true
      · obtain rfl := hx.1 hdir
        rw [Cursor.steps_dir hdir] at hgd hwd hg hd ⊢
        have hch : c.lookup e.name = some d := by
          rw [Config.get?_append, hgc] at hgd
          exact (Config.get?_single _ _).symm.trans hgd
        rw [hT.lookupFrom_dir hw hdir, hch]
        exact ih hx.2 hd.2 (fun _ => ⟨d, hwd⟩) hg
      · have hk : cur.state = .stateKey := by simpa [Cursor.isNode, hdir] using hi
        rw [Cursor.steps_key hk] at hgd hwd hg hd ⊢
        rw [hT.lookupFrom_key hw hk, hd.1 hk]
        exact ih hx.2 hd.2 (fun _ => ⟨d, hwd⟩) hg
    · have := (Trace.cons hs ht).pathLoc_value (by simpa using hi)
      rw [this.1, this.2, List.append_nil, Config.lookupFrom]

end

end OpenConfigd
