import OpenConfigd.Config.KeySearch
import OpenConfigd.Config.OneKey

/-!
# Lists with several keys

`set_tuple`: a path reaches the entry of its own keys, `LookupByPath` finds that
entry, and the other entries are as they were, just if every key of the path is
the first with the next key below it (`keysFirst`).
-/

namespace OpenConfigd

variable {env : Env} {ent : Entry}

/-- A token that is followed by another key of its list is the first with that key
below it. -/
def keyFirst (env : Env) (root : Config) (cur : Cursor) (e : Entry) (loc : Loc) (str key : String) :
    Bool :=
  if cur.state = .stateKey ∧ (cur.next e).state = .stateKey then
    isFirst (keysAfter env (root.keysAt loc) e str cur.ent.name) str key
  else true

/-- Every key of the path that is followed by another key of its list is the first
with that key below it. -/
def keysFirst (env : Env) (root : Config) : List String → Cursor → Loc → Bool
  | [], _, _ => true
  | str :: cmds, cur, loc =>
    match cur.select env str with
    | some (.unique e _) => cmds.head?.all (keyFirst env root cur e loc str) &&
      keysFirst env root cmds (cur.next e) (loc ++ (cur.op e str).steps)
    | _ => true

/-! ## Along a path -/

section

variable {R c : Config} {loc r : Loc} {e : Entry}

theorem keysFirst_congr {R' : Config} {cmds : List String} {cur : Cursor}
    (h : ∀ r, R.keysAt (loc ++ r) = R'.keysAt (loc ++ r)) :
    keysFirst env R cmds cur loc = keysFirst env R' cmds cur loc := by
  induction cmds generalizing cur loc with
  | nil => rfl
  | cons str cmds ih =>
    have h₀ := h []
    rw [List.append_nil] at h₀
    have ih' (e : Entry) := @ih (loc ++ (cur.op e str).steps) (cur.next e) fun r => by
      rw [List.append_assoc]
      exact h _
    have hfirst (e : Entry) : keyFirst env R cur e loc str = keyFirst env R' cur e loc str := by
      funext key
      rw [keyFirst, keyFirst, h₀]
    rw [keysFirst, keysFirst]
    split
    · rw [hfirst, ih']
    · rfl

theorem Config.keysAt_append (h : R.get? loc = some c) (r : Loc) :
    R.keysAt (loc ++ r) = c.keysAt r := by
  rw [Config.keysAt, Config.get?_append, h]
  rfl

theorem Config.keysAt_modify_append {f : Config → Config} (hf : KeepsName f)
    (h : R.get? loc = some c) (r : Loc) :
    (R.modify loc f).keysAt (loc ++ r) = (f c).keysAt r := by
  rw [Config.keysAt, Config.get?_modify_append hf, h]
  rfl

theorem Config.keysAt_cons (c : Config) (s : Step) (r : Loc) :
    c.keysAt (s :: r) = ((c.child? s).map fun d => d.keysAt r).getD [] := by
  rw [Config.keysAt, Config.get?_cons]
  cases c.child? s <;> rfl

theorem Config.keysAt_bare (n : Node) (r : Loc) : n.bare.keysAt r = [] := by
  cases r with
  | nil => rfl
  | cons s r => rw [Config.keysAt, Config.get?_bare n (List.cons_ne_nil _ _)]; rfl

theorem Config.keysAt_of_child? {d : Config} (h : ∀ s, d.child? s = c.child? s)
    (hk : d.keys = c.keys) (r : Loc) : d.keysAt r = c.keysAt r := by
  by_cases hr : r = []
  · rw [hr]
    exact hk
  · rw [Config.keysAt, Config.keysAt, Config.get?_of_child? h hr]

theorem Config.keysAt_set (h : (c.configs.map (·.name)).Nodup) (r : Loc) :
    (c.set env e).keysAt (⟨.configs, e.name⟩ :: r) = c.keysAt (⟨.configs, e.name⟩ :: r) := by
  rw [Config.keysAt_cons, Config.keysAt_cons, Config.child?_set_self h,
    show c.child? ⟨.configs, e.name⟩ = c.lookup e.name from rfl]
  cases c.lookup e.name with
  | none => exact Config.keysAt_bare _ r
  | some d => rfl

/-- A call adds no keys below the node it returns. -/
theorem Op.apply_keysAt {op : Op} (hc : R.get? loc = some c)
    (hn : ∀ s, ((c.slot s).map (·.name)).Nodup) (hd : op.Direct R loc) (r : Loc) :
    (op.apply env (R, loc)).1.keysAt (loc ++ (op.steps ++ r)) = R.keysAt (loc ++ (op.steps ++ r)) := by
  rw [Config.keysAt_append hc]
  cases op with
  | set e =>
    exact (Config.keysAt_modify_append (Config.set_keepsName e) hc _).trans
      (Config.keysAt_set (hn .configs) r)
  | setLeafList e =>
    refine (Config.keysAt_modify_append (Config.setLeafList_keepsName e) hc _).trans ?_
    rw [Op.steps, List.cons_append, List.nil_append, ← @Config.keysAt_set env c e (hn .configs) r,
      Config.keysAt_cons, Config.keysAt_cons, Config.setLeafList,
      Config.child?_modifyChild_self (f := Config.clearList) fun _ => rfl]
    cases (c.set env e).child? ⟨.configs, e.name⟩ with
    | none => rfl
    | some d => exact Config.keysAt_of_child? (c := d) (d := d.clearList) (fun _ => rfl) rfl r
  | setKey e key pre =>
    obtain ⟨c', hc', hl⟩ := hd
    rw [hc] at hc'
    cases hc'
    rw [Op.apply, Config.setKey, hl]
    cases hk : c.lookupKeyShallow key with
    | some d => exact Config.keysAt_append hc _
    | none =>
      refine (Config.keysAt_modify_append (f := fun d => d.addKey env e key pre) (fun _ => rfl) hc
        _).trans ?_
      rw [Op.steps, List.cons_append, List.nil_append, Config.keysAt_cons, Config.keysAt_cons,
        Config.child?_addKey (hn .keys) hk, if_pos rfl, show c.child? ⟨.keys, key⟩ = none from hk]
      exact Config.keysAt_bare _ r
  | setValue v =>
    refine (Config.keysAt_modify_append (f := fun d => d.setValue v) (fun _ => rfl) hc _).trans ?_
    exact Config.keysAt_of_child? (c := c) (d := c.setValue v) (fun _ => rfl) rfl _
  | setListValue v =>
    refine (Config.keysAt_modify_append (f := fun d => d.setListValue v) (fun _ => rfl) hc _).trans ?_
    exact Config.keysAt_of_child? (c := c) (d := c.setListValue v) (fun _ => rfl) rfl _

/-- The keys beside a key once the call for it has been made. -/
theorem keysAt_setKey {key pre : String} (hc : R.get? loc = some c)
    (hd : (Op.setKey e key pre).Direct R loc) :
    ((Op.setKey e key pre).apply env (R, loc)).1.keysAt loc =
      keysAfter env (R.keysAt loc) e key pre := by
  obtain ⟨c', hc', hl⟩ := hd
  rw [hc] at hc'
  cases hc'
  rw [Op.apply, Config.setKey, hl, Config.keysAt_eq hc, keysAfter,
    show Keyed.get (·.name) key c.keys = c.lookupKeyShallow key from rfl]
  cases c.lookupKeyShallow key with
  | some d => exact Config.keysAt_eq hc
  | none =>
    have := Config.keysAt_modify_append (f := fun d => d.addKey env e key pre) (fun _ => rfl) hc []
    rw [List.append_nil] at this
    exact this

/-- `LookupByPath` finds the keys of the path, but for its first token. -/
def LooksRest (env : Env) (T : Config) : List String → Cursor → Loc → Prop
  | [], _, _ => True
  | str :: cmds, cur, loc =>
    match cur.select env str with
    | some (.unique e _) => LooksDirect env T cmds (cur.next e) (loc ++ (cur.op e str).steps)
    | _ => True

theorem Cursor.op_direct {cur : Cursor} {str : String} (h : cur.state ≠ .stateKey) :
    (cur.op e str).Direct R loc := by
  cases hst : cur.state <;> simp only [Cursor.op, hst]
  case stateKey => exact absurd hst h
  case stateDir | stateDirMatched | stateKeyMatched => split <;> trivial
  all_goals trivial

theorem Interior.get?_isSome {g : Config → Config} (hg : Interior g) {s t t' : Step}
    (h : (R.get? (loc ++ [t] ++ [t'])).isSome) :
    ((R.modify (loc ++ [s]) g).get? (loc ++ [t] ++ [t'])).isSome := by
  by_cases hst : t = s
  · subst hst
    rw [Config.get?_append] at h
    rw [Config.get?_modify_append hg.name]
    cases hd : R.get? (loc ++ [t]) with
    | none => rw [hd] at h; cases h
    | some d =>
      rw [hd, Option.bind_some, Config.get?_single] at h
      rw [Option.bind_some, Config.get?_single, hg.child]
      exact h
  · rw [List.append_assoc] at h ⊢
    have hoff : ¬ loc ++ [s] <+: loc ++ ([t] ++ [t']) := by
      rw [List.prefix_append_right_inj]
      simpa using fun h => hst h.symm
    have hoff' : ¬ loc ++ ([t] ++ [t']) <+: loc ++ [s] := by
      rw [List.prefix_append_right_inj]
      simp
    rwa [Config.get?_modify_off hg.name R hoff hoff']

/-- Without keys above, `lookupKey` looks at the node itself. -/
theorem Typed.lookupKey_list {name key : String} {cur : Cursor} {d : Config}
    (h : Typed env (.root ent) R)
    (hw : R.walk (.root ent) (loc ++ [⟨.configs, name⟩]) = some (cur, d))
    (hk : cur.state = .stateKey) : Config.lookupKey R (loc ++ [⟨.configs, name⟩]) key =
      (loc ++ [⟨.configs, name⟩],
        if (d.lookupKeyShallow key).isSome then some (loc ++ [⟨.configs, name⟩] ++ [⟨.keys, key⟩])
        else none) := by
  rcases h.lookupKey_cases hw hk key with hl | ⟨pre, k, -, -, -, heq, -⟩
  · exact hl
  · have := congrArg List.getLast? heq
    simp at this

/-- Once the path has been read, `LookupByPath` goes from `k` to the next key just if
`k` is the first with it. -/
theorem KeyAt.looks_iff {k key pre : String} {parent : Config} {ops : List Op}
    (h : KeyAt R loc k parent c)
    (h₂ : Typed env (.root ent) (R.setKey env (loc ++ [⟨.keys, k⟩]) e key pre).1)
    (hT : Typed env (.root ent)
      (applyOps env ops (R.setKey env (loc ++ [⟨.keys, k⟩]) e key pre)).1) :
    (Config.lookupKey (applyOps env ops (R.setKey env (loc ++ [⟨.keys, k⟩]) e key pre)).1
      (loc ++ [⟨.keys, k⟩]) key).2 = some (loc ++ [⟨.keys, k⟩] ++ [⟨.keys, key⟩]) ↔
      isFirst parent.keys k key = true := by
  rw [← @KeyAt.firstWith_setKey env _ _ _ _ _ key pre e h]
  obtain ⟨n, x, hplace, hsome⟩ := @KeyAt.setKey_place env _ _ _ _ _ key pre e h
  generalize R.setKey env (loc ++ [⟨.keys, k⟩]) e key pre = p at h₂ hT hplace hsome ⊢
  obtain ⟨R₂, loc₂⟩ := p
  simp only at h₂ hplace hsome ⊢
  subst hplace
  obtain ⟨g, r, hg, -, hops⟩ := @applyOps_below env R₂ (loc ++ [⟨.keys, n⟩]) [⟨.keys, key⟩] ops
    (List.cons_ne_nil _ _)
  rw [hops] at hT ⊢
  simp only at hT ⊢
  -- The node of `k` in the last tree.
  have hchild := @Interior.get?_isSome _ _ _ hg ⟨.keys, n⟩ _ _ hsome
  rw [Config.get?_append] at hchild
  obtain ⟨d, hd, hdx⟩ : ∃ d, (R₂.modify (loc ++ [⟨.keys, n⟩]) g).get? (loc ++ [⟨.keys, k⟩]) = some d ∧
      (d.get? [⟨.keys, x⟩]).isSome := by
    cases hget : (R₂.modify (loc ++ [⟨.keys, n⟩]) g).get? (loc ++ [⟨.keys, k⟩]) with
    | none => rw [hget] at hchild; cases hchild
    | some d => exact ⟨d, rfl, by rw [hget] at hchild; exact hchild⟩
  have hkeys : d.keys ≠ [] := by
    intro hnil
    rw [Config.get?_single, Config.child?, Config.slot, hnil] at hdx
    cases hdx
  obtain ⟨p, hp, hpd⟩ : ∃ p, (R₂.modify (loc ++ [⟨.keys, n⟩]) g).get? loc = some p ∧
      p.child? ⟨.keys, k⟩ = some d := by
    rw [Config.get?_append] at hd
    obtain ⟨p, hp, hpd⟩ := Option.bind_eq_some_iff.mp hd
    exact ⟨p, hp, by rwa [Config.get?_single] at hpd⟩
  rw [(hT.keyAt hp hpd).lookupKey_direct_iff hkeys, Config.keysAt_modify R₂ loc n hg.name]
  have hn : ((R₂.keysAt loc).map (·.name)).Nodup := by
    rw [Config.keysAt]
    cases hget : R₂.get? loc with
    | none => exact List.nodup_nil
    | some q =>
      obtain ⟨cur, -, htq⟩ := h₂.walk_of_get hget
      exact htq.nodup .keys
  rw [firstWith_modify hg hn]

/-- Once the path has been read, `LookupByPath` goes from a list to its first key. -/
theorem Typed.looks_list {name key pre : String} {cur : Cursor} {ops : List Op}
    (h : Typed env (.root ent) R)
    (hw : R.walk (.root ent) (loc ++ [⟨.configs, name⟩]) = some (cur, c))
    (hk : cur.state = .stateKey)
    (hT : Typed env (.root ent)
      (applyOps env ops (R.setKey env (loc ++ [⟨.configs, name⟩]) e key pre)).1) :
    (Config.lookupKey (applyOps env ops (R.setKey env (loc ++ [⟨.configs, name⟩]) e key pre)).1
      (loc ++ [⟨.configs, name⟩]) key).2 = some (loc ++ [⟨.configs, name⟩] ++ [⟨.keys, key⟩]) := by
  have hc := Config.get?_of_walk hw
  have hset : ∃ R₂ d, R.setKey env (loc ++ [⟨.configs, name⟩]) e key pre =
      (R₂, loc ++ [⟨.configs, name⟩] ++ [⟨.keys, key⟩]) ∧
      R₂.get? (loc ++ [⟨.configs, name⟩]) = some d ∧ (d.lookupKeyShallow key).isSome := by
    rw [Config.setKey, h.lookupKey_list hw hk]
    cases hl : c.lookupKeyShallow key with
    | some d => exact ⟨R, c, rfl, hc, by rw [hl]; rfl⟩
    | none =>
      refine ⟨_, c.addKey env e key pre, rfl, ?_, ?_⟩
      · rw [Config.get?_modify_self (f := fun d => d.addKey env e key pre) fun _ => rfl, hc]
        rfl
      · rw [Config.lookupKeyShallow, Config.child?_addKey ((h.of_walk hw).nodup .keys) hl, if_pos rfl]
        rfl
  obtain ⟨R₂, d, hset, hd, hdk⟩ := hset
  rw [hset] at hT ⊢
  obtain ⟨g, r, hg, -, hops⟩ := @applyOps_below env R₂ (loc ++ [⟨.configs, name⟩]) [⟨.keys, key⟩] ops
    (List.cons_ne_nil _ _)
  rw [hops] at hT ⊢
  simp only at hT ⊢
  have hgd : (R₂.modify (loc ++ [⟨.configs, name⟩]) g).get? (loc ++ [⟨.configs, name⟩]) =
      some (g d) := by
    rw [Config.get?_modify_self hg.name, hd]
    rfl
  obtain ⟨cur', hw', -⟩ := hT.walk_of_get hgd
  rw [hT.cursor_unique h hw' hw] at hw'
  rw [hT.lookupKey_list hw' hk, if_pos]
  exact (hg.child d _).trans hdk

section

variable {cur cur' : Cursor} {str key : String} {e₂ : Entry}

/-- The parser after a token that finds its key: where it stands, and the keys there. -/
theorem Focus.direct_step (hf : Focus env ent (R, loc) cur)
    (hd : (cur.op e str).Direct R loc) :
    ∃ R₁, (cur.op e str).apply env (R, loc) = (R₁, loc ++ (cur.op e str).steps) ∧
      (∀ r, R₁.keysAt (loc ++ (cur.op e str).steps ++ r) =
        R.keysAt (loc ++ (cur.op e str).steps ++ r)) ∧
      (cur.state = .stateKey → R₁.keysAt loc = keysAfter env (R.keysAt loc) e str cur.ent.name) := by
  obtain ⟨cur₁, c, hw, -⟩ := hf.on
  have hc := Config.get?_of_walk hw
  have hloc := @Op.Direct.apply_loc env _ _ _ hd
  have hkeys := @Op.apply_keysAt env R c loc _ hc (hf.typed.of_walk hw).nodup hd
  have hafter (hk : cur.state = .stateKey) : ((cur.op e str).apply env (R, loc)).1.keysAt loc =
      keysAfter env (R.keysAt loc) e str cur.ent.name := by
    have hop : cur.op e str = .setKey e str cur.ent.name := by simp only [Cursor.op, hk]
    rw [hop] at hd ⊢
    exact keysAt_setKey hc hd
  refine ⟨_, Prod.ext rfl hloc, fun r => ?_, hafter⟩
  rw [List.append_assoc]
  exact hkeys r

/-- Between the keys of a tuple the parser stands on a key, and before them on a list. -/
theorem Focus.key_cases (hf : Focus env ent (R, loc ++ (cur.op e str).steps) (cur.next e))
    (hk : (cur.next e).state = .stateKey) :
    (∃ parent c, cur.state = .stateKey ∧ (cur.op e str).steps = [⟨.keys, str⟩] ∧
      KeyAt R loc str parent c) ∨
    ∃ c, cur.state ≠ .stateKey ∧ (cur.op e str).steps = [⟨.configs, e.name⟩] ∧
      R.walk (.root ent) (loc ++ [⟨.configs, e.name⟩]) = some (cur.next e, c) := by
  obtain ⟨cur₂, c, hw, hon⟩ := hf.on
  rw [hon.eq (by simp [hk])] at hw
  by_cases hst : cur.state = .stateKey
  · have hsteps := @Cursor.steps_key cur str e hst
    rw [hsteps] at hw
    have hg := Config.get?_of_walk hw
    rw [Config.get?_append] at hg
    obtain ⟨parent, hp, hpc⟩ := Option.bind_eq_some_iff.mp hg
    rw [Config.get?_single] at hpc
    exact .inl ⟨parent, c, hst, hsteps, hf.typed.keyAt hp hpc⟩
  · have hdir : cur.isDir = true := by
      cases h : cur.state <;> simp_all [Cursor.next, Cursor.isDir]
    have hsteps := @Cursor.steps_dir cur str e hdir
    rw [hsteps] at hw
    exact .inr ⟨c, hst, hsteps, hw⟩

theorem Cursor.op_key (hk : cur.state = .stateKey) : cur.op e str = .setKey e str cur.ent.name := by
  simp only [Cursor.op, hk]

/-- A key that is first is found from the token before it. -/
theorem Focus.direct_next {R₁ : Config}
    (hf : Focus env ent (R₁, loc ++ (cur.op e str).steps) (cur.next e))
    (hafter : cur.state = .stateKey →
      R₁.keysAt loc = keysAfter env (R.keysAt loc) e str cur.ent.name)
    (h : keyFirst env R cur e loc str key = true) :
    ((cur.next e).op e₂ key).Direct R₁ (loc ++ (cur.op e str).steps) := by
  by_cases hk : (cur.next e).state = .stateKey
  · rw [Cursor.op_key hk]
    rcases hf.key_cases hk with ⟨parent, c, hst, hsteps, hat⟩ | ⟨c, hst, hsteps, hw⟩
    · rw [keyFirst, if_pos ⟨hst, hk⟩, ← hafter hst, hat.keysAt] at h
      rw [hsteps]
      exact hat.direct h
    · rw [hsteps]
      exact ⟨c, Config.get?_of_walk hw, hf.typed.lookupKey_list hw hk⟩
  · exact Cursor.op_direct hk

/-- A key is first just if `LookupByPath` finds it once the path has been read. -/
theorem Focus.looks_next {R₁ : Config} {ops : List Op}
    (hf : Focus env ent (R₁, loc ++ (cur.op e str).steps) (cur.next e))
    (hs : (cur.next e).Selects env key e₂)
    (hafter : cur.state = .stateKey →
      R₁.keysAt loc = keysAfter env (R.keysAt loc) e str cur.ent.name)
    (hT : Typed env (.root ent) (applyOps env ((cur.next e).op e₂ key :: ops)
      (R₁, loc ++ (cur.op e str).steps)).1) :
    keyFirst env R cur e loc str key = true ↔ ((cur.next e).state = .stateKey →
      (Config.lookupKey (applyOps env ((cur.next e).op e₂ key :: ops)
        (R₁, loc ++ (cur.op e str).steps)).1 (loc ++ (cur.op e str).steps) key).2 =
          some (loc ++ (cur.op e str).steps ++ [⟨.keys, key⟩])) := by
  by_cases hk : (cur.next e).state = .stateKey
  · have h₂ := (hf.step hs).typed
    rw [Cursor.op_key hk, Op.apply] at h₂
    rw [applyOps_cons, Cursor.op_key hk, Op.apply] at hT ⊢
    rw [keyFirst]
    rcases hf.key_cases hk with ⟨parent, c, hst, hsteps, hat⟩ | ⟨c, hst, hsteps, hw⟩
    · rw [hsteps] at h₂ hT ⊢
      rw [if_pos ⟨hst, hk⟩, ← hafter hst, hat.keysAt, ← hat.looks_iff h₂ hT]
      exact ⟨fun h _ => h, fun h => h hk⟩
    · rw [hsteps] at hT ⊢
      rw [if_neg fun h => hst h.1]
      exact ⟨fun _ _ => hf.typed.looks_list hw hk hT, fun _ => rfl⟩
  · rw [keyFirst, if_neg fun h => hk h.2]
    exact ⟨fun _ h => absurd h hk, fun _ => rfl⟩

variable {cmds : List String} {ops : List Op}

/-- Along a path whose first token finds its key, the keys are first just if
`LookupByPath` finds them all once the path has been read. -/
theorem Trace.keysFirst_iff (ht : Trace env cur cmds ops cur') (hf : Focus env ent (R, loc) cur)
    (hd : ∀ op ops', ops = op :: ops' → op.Direct R loc) :
    keysFirst env R cmds cur loc = true ↔
      LooksRest env (applyOps env ops (R, loc)).1 cmds cur loc := by
  induction ht generalizing R loc with
  | nil => exact ⟨fun _ => trivial, fun _ => rfl⟩
  | @cons cur cur' str e cmds ops hs ht ih =>
    obtain ⟨R₁, hop, hkeys, hafter⟩ := hf.direct_step (hd _ _ rfl)
    have hf₁ := hf.step hs
    obtain ⟨m, hsel⟩ := id hs
    rw [keysFirst, LooksRest, hsel, applyOps_cons]
    rw [hop] at hf₁ ⊢
    simp only
    rw [Bool.and_eq_true, keysFirst_congr fun r => (hkeys r).symm]
    cases ht with
    | nil => exact ⟨fun _ => trivial, fun _ => ⟨rfl, rfl⟩⟩
    | @cons _ _ key e₂ cmds ops hs₂ ht₂ =>
      have hlooks := hf₁.looks_next hs₂ hafter ((Trace.cons hs₂ ht₂).focus hf₁).typed
      obtain ⟨m₂, hsel₂⟩ := id hs₂
      have ih' (h : keyFirst env R cur e loc str key = true) := by
        have := ih hf₁ fun op ops' heq => by cases heq; exact hf₁.direct_next hafter h
        rwa [LooksRest, hsel₂] at this
      rw [LooksDirect, hsel₂, List.head?_cons, Option.all_some]
      constructor
      · rintro ⟨h, h'⟩
        exact ⟨hlooks.mp h, (ih' h).mp h'⟩
      · rintro ⟨h, h'⟩
        have hfirst := hlooks.mpr h
        exact ⟨hfirst, (ih' hfirst).mpr h'⟩

/-- Where the keys are first, every call finds its key. -/
theorem Trace.directs (ht : Trace env cur cmds ops cur') (hf : Focus env ent (R, loc) cur)
    (hd : ∀ op ops', ops = op :: ops' → op.Direct R loc)
    (h : keysFirst env R cmds cur loc = true) : Directs env ops (R, loc) := by
  induction ht generalizing R loc with
  | nil => trivial
  | @cons cur cur' str e cmds ops hs ht ih =>
    obtain ⟨R₁, hop, hkeys, hafter⟩ := hf.direct_step (hd _ _ rfl)
    have hf₁ := hf.step hs
    refine ⟨hd _ _ rfl, ?_⟩
    obtain ⟨m, hsel⟩ := id hs
    rw [keysFirst, hsel, Bool.and_eq_true, keysFirst_congr fun r => (hkeys r).symm] at h
    rw [hop] at hf₁ ⊢
    refine ih hf₁ (fun op ops' heq => ?_) h.2
    cases ht with
    | nil => cases heq
    | cons hs₂ ht₂ =>
      cases heq
      exact hf₁.direct_next hafter (by simpa using h.1)

end

end

/-! ## Off the path -/

/-- The place is in a case of a choice, beside a node that the path to `loc` adds. -/
def Displaced (root : Config) (loc l : Loc) : Prop :=
  ∃ pre s t d, pre ++ [s] <+: loc ∧ root.get? (pre ++ [s]) = none ∧ t ≠ s ∧ pre ++ [t] <+: l ∧
    root.get? (pre ++ [t]) = some d ∧ d.case.isSome = true

section

variable {R c : Config} {loc l : Loc} {e : Entry}

theorem Displaced.mono {loc' : Loc} (h : Displaced R loc l) (hl : loc <+: loc') :
    Displaced R loc' l := by
  obtain ⟨pre, s, t, d, hs, h⟩ := h
  exact ⟨pre, s, t, d, hs.trans hl, h⟩

theorem prefix_snoc_inj {pre : Loc} {s t : Step} (hs : pre ++ [s] <+: l) (ht : pre ++ [t] <+: l) :
    s = t := by
  have hlen : (pre ++ [s]).length = (pre ++ [t]).length := by simp
  have := (List.prefix_of_prefix_length_le hs ht hlen.le).eq_of_length hlen
  simpa using this

/-- A path does not displace its own nodes. -/
theorem Displaced.off (h : Displaced R loc l) : ¬ l <+: loc := by
  obtain ⟨pre, s, t, d, hs, -, hne, ht, -⟩ := h
  exact fun hl => hne (prefix_snoc_inj (ht.trans hl) hs)

/-- What `Set` drops belongs to a case. -/
theorem Config.case_of_dropped (hl : c.lookup e.name = none) {t : Step} {d : Config}
    (hd : c.child? t = some d) (hno : (c.set env e).child? t = none) : d.case.isSome = true := by
  obtain ⟨slot, name⟩ := t
  cases slot with
  | keys =>
    rw [Config.child?, Config.slot, Config.set_keys] at hno
    exact absurd (hno.symm.trans hd) (by simp)
  | configs =>
    by_contra hcase
    have hkept : d ∈ c.kept e := by
      have hm : d ∈ c.configs := Config.child?_mem hd
      rw [Config.kept]
      split
      · refine List.mem_filter.mpr ⟨hm, ?_⟩
        have hnone : d.case = none := by simpa using hcase
        simp [hnone]
      · exact hm
    have hm := (@Config.mem_set env c e d hl).mpr (.inl hkept)
    exact Keyed.get_eq_none.mp hno d hm (Config.child?_name hd)

/-- Off its path a call for an entry changes nothing but what it displaces. -/
theorem Config.get?_modify_displaced {g : Config → Config} (hg : KeepsName g)
    (hc : R.get? loc = some c) (hn : (c.configs.map (·.name)).Nodup)
    (hset : ∀ r, ¬ r <+: [⟨.configs, e.name⟩] → (g c).get? r = (c.set env e).get? r)
    (hl : ¬ l <+: loc ++ [⟨.configs, e.name⟩]) : (R.modify loc g).get? l = R.get? l ∨
      (R.modify loc g).get? l = none ∧ Displaced R (loc ++ [⟨.configs, e.name⟩]) l := by
  by_cases hp : loc <+: l
  · obtain ⟨r, rfl⟩ := hp
    have hr : ¬ r <+: [⟨.configs, e.name⟩] := by simpa using hl
    rw [Config.get?_modify_append hg, Config.get?_append, hc, Option.bind_some, Option.bind_some,
      hset r hr]
    rcases @Config.get?_set_sub env c e hn r hr with h | h
    · exact .inl h
    · cases hlook : c.lookup e.name with
      | some d => exact .inl (by rw [Config.set_of_some hlook])
      | none =>
        cases hgr : c.get? r with
        | none => exact .inl h
        | some b =>
          refine .inr ⟨h, ?_⟩
          cases r with
          | nil => exact absurd List.nil_prefix hr
          | cons t r =>
            rw [Config.get?_cons] at hgr h
            obtain ⟨d, hd, hdr⟩ := Option.bind_eq_some_iff.mp hgr
            have hne : t ≠ ⟨.configs, e.name⟩ := by
              rintro rfl
              rw [show c.child? ⟨.configs, e.name⟩ = none from hlook] at hd
              cases hd
            have hno : (c.set env e).child? t = none := by
              rcases @Config.child?_set_sub env c e hn t hne with hsame | hno
              · rw [hsame, hd, Option.bind_some, hdr] at h
                cases h
              · exact hno
            refine ⟨loc, ⟨.configs, e.name⟩, t, d, List.prefix_rfl, ?_, hne, ?_, ?_,
              Config.case_of_dropped hlook hd hno⟩
            · rw [Config.get?_append, hc, Option.bind_some, Config.get?_single]
              exact hlook
            · exact ⟨r, by simp⟩
            · rw [Config.get?_append, hc, Option.bind_some, Config.get?_single, hd]
  · exact .inl (Config.get?_modify_off hg R hp fun hp => hl (hp.trans (List.prefix_append loc _)))

theorem Config.get?_setLeafList_set (h : (c.configs.map (·.name)).Nodup) {r : Loc}
    (hr : ¬ r <+: [⟨.configs, e.name⟩]) : (c.setLeafList env e).get? r = (c.set env e).get? r := by
  show (Config.modify _ [⟨.configs, e.name⟩] Config.clearList).get? r = _
  refine Config.get?_modify_frame (x := []) (fun _ => rfl)
    (Config.get?_single _ _ ▸ Config.child?_set_self h) (fun r hr => ?_) hr
  refine Config.get?_of_child? (fun s => ?_) fun hn => hr (hn ▸ List.nil_prefix)
  rfl

/-- Off its path a call changes nothing but what it displaces. -/
theorem Op.apply_displaced {op : Op} (hc : R.get? loc = some c)
    (hn : ∀ s, ((c.slot s).map (·.name)).Nodup) (hd : op.Direct R loc)
    (hl : ¬ l <+: loc ++ op.steps) : (op.apply env (R, loc)).1.get? l = R.get? l ∨
      (op.apply env (R, loc)).1.get? l = none ∧ Displaced R (loc ++ op.steps) l := by
  cases op with
  | set e =>
    exact Config.get?_modify_displaced (Config.set_keepsName e) hc (hn .configs) (fun _ _ => rfl) hl
  | setLeafList e =>
    exact Config.get?_modify_displaced (Config.setLeafList_keepsName e) hc (hn .configs)
      (fun _ hr => Config.get?_setLeafList_set (hn .configs) hr) hl
  | setKey e key pre =>
    obtain ⟨c', hc', hlk⟩ := hd
    refine .inl (Op.apply_frame hc hn ?_ hl)
    rw [hc] at hc'
    cases hc'
    rw [Op.Plain, hc]
    exact hlk
  | setValue v | setListValue v =>
    refine .inl (Op.apply_frame hc hn ?_ hl)
    rw [Op.Plain, hc]
    trivial

variable {cur cur' : Cursor} {cmds : List String} {ops : List Op}

/-- Off the path, calls that find their keys change nothing but what they displace. -/
theorem Trace.displaced (ht : Trace env cur cmds ops cur') (hf : Focus env ent (R, loc) cur)
    (hd : Directs env ops (R, loc)) (hl : ¬ l <+: loc ++ pathLoc env cmds cur) :
    (applyOps env ops (R, loc)).1.get? l = R.get? l ∨
      (applyOps env ops (R, loc)).1.get? l = none ∧ Displaced R (loc ++ pathLoc env cmds cur) l := by
  induction ht generalizing R loc with
  | nil => exact .inl rfl
  | @cons cur cur' str e cmds ops hs _ ih =>
    obtain ⟨cur₁, c, hw, -⟩ := hf.on
    have hone {l : Loc} := @Op.apply_displaced env R c loc l _ (Config.get?_of_walk hw)
      (hf.typed.of_walk hw).nodup hd.1
    have hloc := @Op.Direct.apply_loc env _ _ _ hd.1
    have hf₁ := hf.step hs
    have hd₁ := hd.2
    obtain ⟨m, hsel⟩ := hs
    rw [pathLoc, hsel] at hl ⊢
    simp only [← List.append_assoc] at hl ⊢
    rw [applyOps_cons]
    generalize (cur.op e str).apply env (R, loc) = p at hone hloc hf₁ hd₁ ⊢
    obtain ⟨R₁, loc₁⟩ := p
    simp only at hone hloc
    subst hloc
    have hpre : loc ++ (cur.op e str).steps <+:
        loc ++ (cur.op e str).steps ++ pathLoc env cmds (cur.next e) := List.prefix_append _ _
    have hhere : ∀ l', l' <+: loc ++ (cur.op e str).steps → (R₁.get? l').isSome := by
      rintro l' ⟨x, hx⟩
      obtain ⟨cur₂, c₂, hw₂, -⟩ := hf₁.on
      have hg := Config.get?_of_walk hw₂
      simp only [← hx] at hg
      exact Config.get?_prefix (by rw [hg]; rfl)
    rcases ih hf₁ hd₁ hl with h | ⟨h, pre, s, t, d, hps, hnone, hne, hpt, hsome, hcase⟩
    · rw [h]
      rcases hone fun hp => hl (hp.trans hpre) with h' | ⟨h', hdis⟩
      · exact .inl h'
      · exact .inr ⟨h', hdis.mono hpre⟩
    · refine .inr ⟨h, pre, s, t, d, hps, ?_, hne, hpt, ?_, hcase⟩
      · have hnot : ¬ pre ++ [s] <+: loc ++ (cur.op e str).steps := fun hp => by
          have := hhere _ hp
          rw [hnone] at this
          cases this
        rcases hone hnot with h' | ⟨-, hdis⟩
        · rw [← h', hnone]
        · exact absurd hps (hdis.mono hpre).off
      · have hnot : ¬ pre ++ [t] <+: loc ++ (cur.op e str).steps := fun hp =>
          hne (prefix_snoc_inj (hp.trans hpre) hps)
        rcases hone hnot with h' | ⟨h', -⟩
        · rw [← h', hsome]
        · rw [hsome] at h'
          cases h'

/-! ## Looking the path up -/

/-- A path that `LookupByPath` follows to its place leads from key to key. -/
theorem Trace.looksDirect_of_lookup {T : Config} (ht : Trace env cur cmds ops cur')
    (hT : Typed env (.root ent) T) (hx : Exact env cmds cur)
    (hw : cur.isNode = true → ∃ c, T.walk (.root ent) loc = some (cur, c))
    (h : Config.lookupFrom T loc (nodePart env cmds cur) = some (loc ++ pathLoc env cmds cur)) :
    LooksDirect env T cmds cur loc := by
  induction ht generalizing loc with
  | nil => trivial
  | @cons cur cur' str e cmds ops hs ht ih =>
    obtain ⟨m, hsel⟩ := id hs
    rw [LooksDirect, hsel]
    simp only
    by_cases hi : cur.isNode = true
    · obtain ⟨c, hw⟩ := hw hi
      have hgc := Config.get?_of_walk hw
      rw [Exact, hsel] at hx
      rw [nodePart, pathLoc, hsel] at h
      simp only [hi, if_true] at hx h
      rw [← List.append_assoc] at h
      have next {s : Step} {d : Config} (hsteps : (cur.op e str).steps = [s])
          (hd : c.child? s = some d) :
          T.walk (.root ent) (loc ++ (cur.op e str).steps) = some (cur.next e, d) := by
        refine hT.walk_next hw hi hs ?_
        rw [hsteps, Config.get?_append, hgc, Option.bind_some, Config.get?_single, hd]
      by_cases hdir : cur.isDir = true
      · have hsteps := @Cursor.steps_dir cur str e hdir
        have hne : cur.state ≠ .stateKey := fun hk => by
          rw [Cursor.isDir, hk] at hdir
          cases hdir
        rw [hT.lookupFrom_dir hw hdir, hx.1 hdir] at h
        obtain ⟨d, hd, h⟩ := Option.bind_eq_some_iff.mp h
        refine ⟨fun hk => absurd hk hne, ih hx.2 (fun _ => ⟨d, next hsteps hd⟩) ?_⟩
        rw [hx.1 hdir] at hsteps ⊢
        rwa [hsteps] at h ⊢
      · have hk : cur.state = .stateKey := by simpa [Cursor.isNode, hdir] using hi
        have hsteps := @Cursor.steps_key cur str e hk
        rw [hT.lookupFrom_key hw hk] at h
        rcases hT.lookupKey_cases hw hk str with hl | ⟨pre, k, -, -, p, rfl, -, -, -, hpk, -, -, hl⟩
        · rw [hl] at h
          cases hsh : c.lookupKeyShallow str with
          | none => simp [hsh] at h
          | some d =>
            simp only [hsh, Option.isSome_some, if_true, Option.bind_some] at h
            refine ⟨fun _ => by rw [hl, hsh]; rfl, ih hx.2 (fun _ => ⟨d, next hsteps hsh⟩) ?_⟩
            rwa [hsteps] at h ⊢
        · -- Another key of the list: the search ends below it.
          rw [hl, Option.bind_some] at h
          have hpre := @Config.lookupFrom_below T (pre ++ [⟨.keys, p.name⟩]) [⟨.keys, str⟩] _ _
            (List.cons_ne_nil _ _) (by rw [List.append_assoc]; exact h)
          have hloc : pre ++ [⟨.keys, k⟩] <+: pre ++ [⟨.keys, k⟩] ++ (cur.op e str).steps ++
              pathLoc env cmds (cur.next e) := ⟨_, (List.append_assoc _ _ _).symm⟩
          have := prefix_snoc_inj hpre hloc
          simp only [Step.mk.injEq, true_and] at this
          exact absurd this hpk
    · have hi' : cur.isNode = false := by simpa using hi
      obtain ⟨hpl, hnp⟩ := (Trace.cons hs ht).pathLoc_value hi'
      have hnext := @Cursor.next_isNode cur e hi'
      obtain ⟨hpl', hnp'⟩ := ht.pathLoc_value hnext
      rw [pathLoc, hsel] at hpl
      rw [Exact, hsel] at hx
      have hsteps : (cur.op e str).steps = [] := (List.append_eq_nil_iff.mp hpl).1
      refine ⟨fun hk => absurd hk fun hk => hi (by simp [Cursor.isNode, hk]), ?_⟩
      refine ih hx.2 (fun h => ?_) ?_
      · rw [hnext] at h
        cases h
      · rw [hnp', hpl', hsteps]
        simp [Config.lookupFrom]

end

/-! ## The law -/

/-- A path leads to the entry of its own keys and to the value there, `LookupByPath`
finds that node, and what is off the path is as it was (but for the other cases of
the choices the path makes), just if every key of the path is the first with the
next key below it. -/
theorem set_tuple {root : Config} {path : List String} {r : ParseResult} (hr : Reach env ent root)
    (hp : parse env ent root path = some r) (hs : r.code = .parseSuccess)
    (hx : Exact env path (.root ent)) :
    ((∃ n, r.tree.node? (pathLoc env path (.root ent)) = some n ∧
        n.values = valuePart env path (.root ent)) ∧
      r.tree.lookupByPath (nodePart env path (.root ent)) = some (pathLoc env path (.root ent)) ∧
      ∀ l, ¬ l <+: pathLoc env path (.root ent) → r.tree.get? l = root.get? l ∨
        r.tree.get? l = none ∧ Displaced root (pathLoc env path (.root ent)) l) ↔
      keysFirst env root path (.root ent) [] = true := by
  obtain ⟨ht, hc⟩ := hr.typed_closed
  have hf := Focus.start ht hc
  obtain ⟨ops, cur, htr, ha, htree⟩ := parse_success hp hs
  have htT := (htr.focus hf).typed
  -- The first token of a path is no key.
  have hfirst : ∀ op ops', ops = op :: ops' → op.Direct root [] := by
    intro op ops' heq
    cases htr with
    | nil => cases heq
    | cons hsel _ =>
      cases heq
      exact Cursor.op_direct fun h => by cases h
  have hiff := htr.keysFirst_iff hf hfirst
  have hrest : LooksDirect env r.tree path (.root ent) [] ↔
      LooksRest env r.tree path (.root ent) [] := by
    cases htr with
    | nil => exact Iff.rfl
    | cons hsel _ =>
      obtain ⟨m, hsel⟩ := hsel
      rw [LooksDirect, LooksRest, hsel]
      exact ⟨fun h => h.2, fun h => ⟨(fun hk => by cases hk), h⟩⟩
  have hroot : (Cursor.root ent).isNode = true →
      ∃ c, r.tree.walk (.root ent) [] = some (.root ent, c) := fun _ => ⟨r.tree, rfl⟩
  rw [← htree] at htT hiff
  constructor
  · rintro ⟨-, hlook, -⟩
    exact hiff.mpr (hrest.mp (htr.looksDirect_of_lookup htT hx hroot hlook))
  · intro hk
    have hds := htr.directs hf hfirst hk
    have hplace := htr.place hds
    obtain ⟨n, hnode, hval⟩ := htr.values hf ⟨root, rfl, fun h => by cases h⟩ ha
    have hoff := fun l => @Trace.displaced env ent root [] l _ _ _ _ htr hf hds
    rw [List.nil_append] at hplace
    rw [hplace] at hnode
    rw [← htree] at hnode hoff
    have hg : (r.tree.get? ([] ++ pathLoc env path (.root ent))).isSome := by
      obtain ⟨d, hd, -⟩ := Option.map_eq_some_iff.mp hnode
      rw [List.nil_append, hd]
      rfl
    exact ⟨⟨n, hnode, hval⟩, htr.lookup htT hx (hrest.mpr (hiff.mp hk)) hroot hg, hoff⟩

/-- The metric of a route. -/
def metricLoc (dst gw : String) : Loc :=
  [⟨.configs, "routes"⟩, ⟨.configs, "route"⟩, ⟨.keys, dst⟩, ⟨.keys, gw⟩, ⟨.configs, "metric"⟩]

/-- With routes from `a` by `x` and from `b` by `y`, the metric of the route from `b` by
`x` goes to the route from `a` by `x`. -/
theorem set_tuple_other : ∃ root r, Reach .ascii routesSchema root ∧
    parse .ascii routesSchema root ["routes", "route", "b", "x", "metric", "3"] = some r ∧
    r.code = .parseSuccess ∧
    Exact .ascii ["routes", "route", "b", "x", "metric", "3"] (.root routesSchema) ∧
    pathLoc .ascii ["routes", "route", "b", "x", "metric", "3"] (.root routesSchema) =
      metricLoc "b" "x" ∧
    (r.tree.node? (metricLoc "b" "x")).isSome = false ∧
    (root.node? (metricLoc "a" "x")).map Node.values = some ["1"] ∧
    (r.tree.node? (metricLoc "a" "x")).map Node.values = some ["3"] := by
  obtain ⟨r₁, hr₁, h⟩ := Option.bind_eq_some_iff.mp (show
    ((parse .ascii routesSchema {} ["routes", "route", "a", "x", "metric", "1"]).bind fun r₁ =>
      (parse .ascii routesSchema r₁.tree ["routes", "route", "b", "y", "metric", "2"]).bind fun r₂ =>
        (parse .ascii routesSchema r₂.tree ["routes", "route", "b", "x", "metric", "3"]).map fun r =>
          ([r₁.code, r₂.code, r.code], (r.tree.node? (metricLoc "b" "x")).isSome,
            [(r₂.tree.node? (metricLoc "a" "x")).map Node.values,
              (r.tree.node? (metricLoc "a" "x")).map Node.values])) =
      some ([.parseSuccess, .parseSuccess, .parseSuccess], false, [some ["1"], some ["3"]]) by
    decide +kernel)
  obtain ⟨r₂, hr₂, h⟩ := Option.bind_eq_some_iff.mp h
  obtain ⟨r, hr, h⟩ := Option.map_eq_some_iff.mp h
  simp only [Prod.mk.injEq, List.cons.injEq, and_true] at h
  obtain ⟨⟨hc₁, hc₂, hc⟩, h⟩ := h
  exact ⟨r₂.tree, r, .set (.set .empty hr₁ hc₁) hr₂ hc₂, hr, hc, by decide +kernel,
    by decide +kernel, h⟩

theorem set_tuple_empty : ∃ r,
    parse .ascii routesSchema {} ["routes", "route", "b", "x", "metric", "3"] = some r ∧
    r.tree.lookupByPath ["routes", "route", "b", "x", "metric"] = some (metricLoc "b" "x") := by
  obtain ⟨r, hr, hc⟩ := Option.map_eq_some_iff.mp (show (parse .ascii routesSchema {}
    ["routes", "route", "b", "x", "metric", "3"]).map (·.code) = some .parseSuccess by decide +kernel)
  obtain ⟨-, hl, -⟩ := (set_tuple .empty hr hc (by decide +kernel)).mpr (by decide +kernel)
  have hnode : nodePart .ascii ["routes", "route", "b", "x", "metric", "3"] (.root routesSchema) =
      ["routes", "route", "b", "x", "metric"] := by decide +kernel
  have hloc : pathLoc .ascii ["routes", "route", "b", "x", "metric", "3"] (.root routesSchema) =
      metricLoc "b" "x" := by decide +kernel
  rw [hnode, hloc] at hl
  exact ⟨r, hr, hl⟩

end OpenConfigd
