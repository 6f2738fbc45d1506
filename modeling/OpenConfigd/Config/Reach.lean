import OpenConfigd.Config.Store

/-!
# The trees set mode reaches

A token in set mode keeps the tree typed and moves on to a node whose cursor is
the parser's (`Focus.step`), and so does a list of tokens (`Trace.focus`). When
the parser succeeds the tree is also closed: no node was left half made. The
trees that successful calls reach from the empty root are typed and closed
(`Reach.typed_closed`).
-/

namespace OpenConfigd

variable {env : Env}

/-! ## The cursor of a place -/

theorem Cursor.Selects.name_inj {cur : Cursor} (hd : cur.isDir = true) {str str' : String}
    {e e' : Entry} (h : cur.Selects env str e) (h' : cur.Selects env str' e')
    (hn : e.name = e'.name) : e = e' := by
  obtain ⟨m, h⟩ := h
  obtain ⟨m', h'⟩ := h'
  obtain ⟨l, hl, hp⟩ := Cursor.select_unique.mp h
  obtain ⟨l', hl', hp'⟩ := Cursor.select_unique.mp h'
  obtain ⟨ent, state, index⟩ := cur
  cases state <;> simp only [isDir, Bool.false_eq_true] at hd
  all_goals
    cases hl
    cases hl'
    exact hp.name_inj hp' hn

theorem Edge.inj {cur : Cursor} {s : Slot} {n n' : Node} {e e' : Entry}
    (h : Edge env cur s n e) (h' : Edge env cur s n' e') (hn : n.name = n'.name) : e = e' := by
  cases s with
  | configs =>
    obtain ⟨hd, ⟨str, hs⟩, -⟩ := id h
    obtain ⟨-, ⟨str', hs'⟩, -⟩ := id h'
    exact hs.name_inj hd hs' (by rw [← h.name_configs, ← h'.name_configs, hn])
  | keys =>
    obtain ⟨-, hs, -⟩ := h
    obtain ⟨-, hs', -⟩ := h'
    exact hs.inj (hn ▸ hs')

/-- The schema and the place alone fix the cursor of a node. -/
theorem Typed.cursor_unique {cur cur₁ cur₂ : Cursor} {c c₁ d d₁ : Config} {l : Loc}
    (hc : Typed env cur c) (hd : Typed env cur d) (h₁ : c.walk cur l = some (cur₁, c₁))
    (h₂ : d.walk cur l = some (cur₂, d₁)) : cur₁ = cur₂ := by
  induction l generalizing c d cur with
  | nil =>
    cases h₁
    cases h₂
    rfl
  | cons s l ih =>
    rw [Config.walk] at h₁ h₂
    split at h₁
    · cases h₁
    · rename_i a ha
      split at h₂
      · cases h₂
      · rename_i b hb
        obtain ⟨e, hea, he, hta⟩ := hc.child?_edge ha
        obtain ⟨e', heb, he', htb⟩ := hd.child?_edge hb
        have hee : e = e' := hea.inj heb ((Config.child?_name ha).trans (Config.child?_name hb).symm)
        subst hee
        simp only [he] at h₁
        simp only [he'] at h₂
        exact ih hta htb h₁ h₂

/-! ## A token -/

/-- A call of `lookupKey` while keys are read: it looks at the node itself or, on a
key that has keys of its own, may end up at another key of the same list. -/
theorem Typed.lookupKey_cases {ent : Entry} {root c : Config} {loc : Loc} {cur : Cursor}
    (h : Typed env (.root ent) root) (hw : root.walk (.root ent) loc = some (cur, c))
    (hk : cur.state = .stateKey) (key : String) :
    Config.lookupKey root loc key =
      (loc, if (c.lookupKeyShallow key).isSome then some (loc ++ [⟨.keys, key⟩]) else none) ∨
    ∃ pre k cur₁ parent p, loc = pre ++ [⟨.keys, k⟩] ∧ c.keys ≠ [] ∧
      root.walk (.root ent) pre = some (cur₁, parent) ∧ parent.child? ⟨.keys, p.name⟩ = some p ∧
      p.name ≠ k ∧ (p.lookupKeyShallow key).isSome ∧
      parent.keys.find? (fun p => (p.lookupKeyShallow key).isSome) = some p ∧
      Config.lookupKey root loc key =
        (pre ++ [⟨.keys, p.name⟩], some (pre ++ [⟨.keys, p.name⟩, ⟨.keys, key⟩])) := by
  have hc := Config.get?_of_walk hw
  by_cases hkc : c.isKeyConfig
  · rcases List.eq_nil_or_concat loc with rfl | ⟨pre, s, rfl⟩
    · cases hw
      cases hk
    · rw [List.concat_eq_append] at hw hc ⊢
      obtain ⟨cur₁, parent, e, hwp, hch, he, rfl⟩ := Config.walk_snoc hw
      have hp := Config.get?_of_walk hwp
      have htp := h.of_walk hwp
      obtain ⟨slot, k⟩ := s
      obtain ⟨hkeys, hkc'⟩ : c.keys ≠ [] ∧ c.keyConfig = true := by
        simpa [Config.isKeyConfig] using hkc
      cases slot with
      | configs =>
        obtain ⟨e', hedge, -⟩ := htp.child?_edge hch
        rw [hedge.2.2] at hkc'
        cases hkc'
      | keys =>
        have hfind : Config.lookupKey root (pre ++ [⟨.keys, k⟩]) key =
            (parent.keys.find? fun p => (p.lookupKeyShallow key).isSome).elim (pre ++ [⟨.keys, k⟩], none)
              fun p => (pre ++ [⟨.keys, p.name⟩], some (pre ++ [⟨.keys, p.name⟩, ⟨.keys, key⟩])) := by
          cases hf : parent.keys.find? fun p => (p.lookupKeyShallow key).isSome <;>
            simp only [Config.lookupKey, hc, hkc, if_true, List.dropLast_concat, hp, hf, Option.elim]
        rw [hfind]
        cases hf : parent.keys.find? fun p => (p.lookupKeyShallow key).isSome with
        | none =>
          left
          have := List.find?_eq_none.mp hf c (Config.child?_mem hch)
          rw [if_neg this, Option.elim_none]
        | some p =>
          have hm := List.mem_of_find?_eq_some hf
          have hpc : parent.child? ⟨.keys, p.name⟩ = some p :=
            Keyed.get_of_mem (htp.nodup .keys) hm
          have hsome := List.find?_some hf
          by_cases hpk : p.name = k
          · left
            rw [hpk, hch] at hpc
            cases hpc
            rw [if_pos hsome]
            simp [hpk]
          · exact .inr ⟨pre, k, cur₁, parent, p, rfl, hkeys, hwp, hpc, hpk, hsome, hf, rfl⟩
  · left
    simp only [Config.lookupKey, hc, hkc, Bool.false_eq_true, if_false]
    cases c.lookupKeyShallow key <;> rfl

/-- The parser's cursor on a node with the cursor `cur'`: the same or, once the
node has its value, past it. -/
inductive Cursor.On : Cursor → Cursor → Config → Prop
  | same (cur : Cursor) (c : Config) : On cur cur c
  | leaf {cur : Cursor} {c : Config} : cur.state = .stateLeaf → c.hasValue = true →
    On ⟨cur.ent, .stateLeafMatched, 0⟩ cur c
  | leafList {cur : Cursor} {c : Config} : cur.state = .stateLeafList → c.valueList ≠ [] →
    On ⟨cur.ent, .stateLeafListMatched, 0⟩ cur c

/-- The node has what a successful call gives a node with this cursor. -/
def Done (cur : Cursor) (c : Config) : Prop :=
  match cur.state with
  | .stateDir => c.configs ≠ []
  | .stateKey => c.keys ≠ []
  | .stateLeaf => c.hasValue = true
  | .stateLeafList => c.valueList ≠ []
  | _ => True

/-- The tree and the place between two tokens of set mode. -/
structure Focus (env : Env) (ent : Entry) (p : Config × Loc) (cur : Cursor) : Prop where
  typed : Typed env (.root ent) p.1
  on : ∃ cur' c, p.1.walk (.root ent) p.2 = some (cur', c) ∧ cur.On cur' c
  pending : ∀ l cur' c, l ≠ [] → p.1.walk (.root ent) l = some (cur', c) →
    Done cur' c ∨ l <+: p.2

/-- The same in a tree that may hold half made nodes anywhere. -/
structure Stands (env : Env) (ent : Entry) (p : Config × Loc) (cur : Cursor) : Prop where
  typed : Typed env (.root ent) p.1
  on : ∃ cur' c, p.1.walk (.root ent) p.2 = some (cur', c) ∧ cur.On cur' c

/-- A token changes the tree on its path only, apart from subtrees it drops, and
what it leaves aside is done. -/
structure Moves (env : Env) (ent : Entry) (p p' : Config × Loc) (cur : Cursor) : Prop where
  stands : Stands env ent p' cur
  sub : ∀ l, ¬ l <+: p'.2 → p'.1.get? l = p.1.get? l ∨ p'.1.get? l = none
  left : ∀ l cur' c, l <+: p.2 → ¬ l <+: p'.2 → p'.1.walk (.root ent) l = some (cur', c) →
    Done cur' c

section

variable {ent : Entry} {root root' c : Config} {loc loc' : Loc} {cur : Cursor}

theorem Focus.stands {p : Config × Loc} (h : Focus env ent p cur) : Stands env ent p cur :=
  ⟨h.typed, h.on⟩

/-- What a token leaves half made is on the path to where the parser stands then. -/
theorem Moves.pending {Q : Cursor → Prop} {p p' : Config × Loc} {cur' : Cursor}
    (hm : Moves env ent p p' cur') (ht : Typed env (.root ent) p.1)
    (h : ∀ l cur c, l ≠ [] → p.1.walk (.root ent) l = some (cur, c) → Q cur →
      Done cur c ∨ l <+: p.2) :
    ∀ l cur c, l ≠ [] → p'.1.walk (.root ent) l = some (cur, c) → Q cur →
      Done cur c ∨ l <+: p'.2 := by
  intro l cur c hl hw hq
  by_cases hp : l <+: p'.2
  · exact .inr hp
  · left
    have hg := Config.get?_of_walk hw
    rcases hm.sub l hp with he | he
    · obtain ⟨cur'', hw', -⟩ := ht.walk_of_get (he ▸ hg)
      have hcc := hm.stands.typed.cursor_unique ht hw hw'
      subst hcc
      rcases h l cur c hl hw' hq with hdone | hpre
      · exact hdone
      · exact hm.left l cur c hpre hp hw
    · rw [he] at hg
      cases hg

theorem Focus.move {p p' : Config × Loc} {cur' : Cursor} (h : Focus env ent p cur)
    (hm : Moves env ent p p' cur') : Focus env ent p' cur' :=
  ⟨hm.stands.typed, hm.stands.on, fun l cur c hl hw =>
    hm.pending (Q := fun _ => True) h.typed (fun l cur c hl hw _ => h.pending l cur c hl hw)
      l cur c hl hw trivial⟩

/-- A token that goes down from where the parser stands. -/
theorem Moves.append {cur₁ cur₂ : Cursor} {x : Loc} (ht : Typed env (.root ent) root')
    (hon : ∃ c, root'.walk (.root ent) (loc ++ x) = some (cur₁, c) ∧ cur₂.On cur₁ c)
    (hsub : ∀ l, ¬ l <+: loc ++ x → root'.get? l = root.get? l ∨ root'.get? l = none) :
    Moves env ent (root, loc) (root', loc ++ x) cur₂ := by
  obtain ⟨d, hd⟩ := hon
  exact ⟨⟨ht, cur₁, d, hd⟩, hsub,
    fun _ _ _ hl hx _ => absurd (hl.trans (List.prefix_append loc x)) hx⟩

/-- The change of a node, seen from the root. -/
theorem Typed.walk_modify {g : Config → Config} {cur₁ : Cursor} (h : Typed env cur root)
    (hw : root.walk cur loc = some (cur₁, c)) (hg : KeepsName g)
    (ht : Typed env cur (root.modify loc g)) :
    (root.modify loc g).walk cur loc = some (cur₁, g c) := by
  have hc : (root.modify loc g).get? loc = some (g c) := by
    rw [Config.get?_modify_self hg, Config.get?_of_walk hw]
    rfl
  obtain ⟨cur₂, hw', -⟩ := ht.walk_of_get hc
  rw [hw', ht.cursor_unique h hw' hw]

theorem Config.walk_snoc_eq {cur₀ : Cursor} {d : Config} {s : Step} {e : Entry}
    (hw : root.walk cur₀ loc = some (cur, c)) (hc : c.child? s = some d) (he : d.entry = some e) :
    root.walk cur₀ (loc ++ [s]) = some (cur.child s.slot e, d) := by
  rw [Config.walk_append, hw]
  exact Config.walk_cons hc he

theorem Cursor.On.eq {cur₁ : Cursor} (h : cur.On cur₁ c)
    (hd : cur.state ≠ .stateLeafMatched ∧ cur.state ≠ .stateLeafListMatched) : cur₁ = cur := by
  cases h with
  | same => rfl
  | leaf => exact absurd rfl hd.1
  | leafList => exact absurd rfl hd.2

/-- The child `Set` returns. -/
theorem Typed.set_child {e : Entry} {str : String} (h : Typed env cur c) (hd : cur.isDir = true)
    (hs : cur.Selects env str e) :
    ∃ d, (c.set env e).child? ⟨.configs, e.name⟩ = some d ∧ d.entry = some e := by
  rw [Config.child?_set_self (h.nodup .configs)]
  refine ⟨_, rfl, ?_⟩
  cases hl : c.lookup e.name with
  | none => rfl
  | some d =>
    obtain ⟨e', hedge, he, -⟩ := h.child?_edge (s := ⟨.configs, e.name⟩) hl
    obtain ⟨-, ⟨str', hs'⟩, -⟩ := id hedge
    have hn : e'.name = e.name := hedge.name_configs.symm.trans (Config.child?_name hl)
    rw [← hs'.name_inj hd hs hn]
    exact he

theorem Config.get?_set_sub {e : Entry} (h : (c.configs.map (·.name)).Nodup) {r : Loc}
    (hr : ¬ r <+: [⟨.configs, e.name⟩]) :
    (c.set env e).get? r = c.get? r ∨ (c.set env e).get? r = none := by
  cases r with
  | nil => exact absurd List.nil_prefix hr
  | cons t r =>
    rw [Config.get?_cons, Config.get?_cons]
    by_cases ht : t = ⟨.configs, e.name⟩
    · subst ht
      have hr' : r ≠ [] := fun h => hr (h ▸ List.prefix_rfl)
      rw [Config.child?_set_self h]
      cases hl : c.lookup e.name with
      | none => exact .inr (Config.get?_bare _ hr')
      | some d => exact .inl (by rw [show c.child? ⟨.configs, e.name⟩ = some d from hl]; rfl)
    · rcases @Config.child?_set_sub env c e h t ht with hc | hc
      · exact .inl (by rw [hc])
      · exact .inr (by rw [hc]; rfl)

/-- Off the path, a change that drops subtrees of the node drops them from the tree. -/
theorem Config.get?_modify_sub {g : Config → Config} (hg : KeepsName g)
    (hc : root.get? loc = some c) {x l : Loc}
    (h : ∀ r, ¬ r <+: x → (g c).get? r = c.get? r ∨ (g c).get? r = none) (hl : ¬ l <+: loc ++ x) :
    (root.modify loc g).get? l = root.get? l ∨ (root.modify loc g).get? l = none := by
  by_cases hp : loc <+: l
  · obtain ⟨r, rfl⟩ := hp
    rw [Config.get?_modify_append hg, Config.get?_append, hc]
    exact h r (by simpa using hl)
  · exact .inl (Config.get?_modify_off hg root hp
      fun hp => hl (hp.trans (List.prefix_append loc x)))

theorem Stands.walk_set {e : Entry} {str : String} (h : Stands env ent (root, loc) cur)
    (hd : cur.isDir = true) (hs : cur.Selects env str e) :
    Typed env (.root ent) (root.modify loc fun c => c.set env e) ∧
      ∃ c d, root.walk (.root ent) loc = some (cur, c) ∧
        (root.modify loc fun c => c.set env e).walk (.root ent) (loc ++ [⟨.configs, e.name⟩]) =
          some (.enter e, d) := by
  obtain ⟨cur₁, c, hw, hon⟩ := h.on
  obtain rfl : cur₁ = cur := hon.eq (by
    constructor <;> intro hst <;> rw [Cursor.isDir, hst] at hd <;> cases hd)
  have htc := h.typed.of_walk hw
  have ht : Typed env (.root ent) (root.modify loc fun c => c.set env e) :=
    h.typed.modify hw (htc.set hd hs) (.of_toNode (Config.set_toNode c e))
  obtain ⟨d, hd', he⟩ := htc.set_child hd hs
  exact ⟨ht, c, d, hw,
    Config.walk_snoc_eq (h.typed.walk_modify hw (Config.set_keepsName e) ht) hd' he⟩

theorem Stands.set {e : Entry} {str : String} (h : Stands env ent (root, loc) cur)
    (hd : cur.isDir = true) (hs : cur.Selects env str e) :
    Moves env ent (root, loc) ((Op.set e).apply env (root, loc)) (.enter e) := by
  obtain ⟨ht, c, d, hw, hw'⟩ := h.walk_set hd hs
  refine .append ht ⟨d, hw', .same _ _⟩ fun l hl => ?_
  exact Config.get?_modify_sub (Config.set_keepsName e) (Config.get?_of_walk hw)
    (fun r hr => Config.get?_set_sub ((h.typed.of_walk hw).nodup .configs) hr) hl

/-- A change of the value of the node the parser stands on. -/
theorem Stands.value {g : Config → Config} {cur₁ cur₂ : Cursor}
    (h : Stands env ent (root, loc) cur)
    (hw : root.walk (.root ent) loc = some (cur₁, c)) (hg : KeepsName g)
    (hk : KeepsEdge env cur₁ c (g c)) (hc : ∀ s, (g c).child? s = c.child? s)
    (ht : Typed env cur₁ (g c)) (hon : cur₂.On cur₁ (g c)) :
    Moves env ent (root, loc) (root.modify loc g, loc) cur₂ := by
  have ht' := h.typed.modify hw ht hk
  refine ⟨⟨ht', cur₁, g c, h.typed.walk_modify hw hg ht', hon⟩, fun l hl => ?_,
    fun _ _ _ hl hx => absurd hl hx⟩
  have hl : ¬ l <+: loc ++ [] := by simpa using hl
  refine .inl (Config.get?_modify_frame hg (Config.get?_of_walk hw) (fun r hr => ?_) hl)
  exact Config.get?_of_child? hc fun hn => hr (hn ▸ List.nil_prefix)

theorem Config.modify_setLeafList (root : Config) (loc : Loc) (e : Entry) :
    root.modify loc (fun c => c.setLeafList env e) =
      (root.modify loc fun c => c.set env e).modify (loc ++ [⟨.configs, e.name⟩]) clearList := by
  rw [Config.modify_append, Config.modify_modify (Config.set_keepsName e)]
  rfl

theorem Stands.setLeafList {e : Entry} {str : String} (h : Stands env ent (root, loc) cur)
    (hd : cur.isDir = true) (hs : cur.Selects env str e)
    (hl : entryNextState e = .stateLeafList) :
    Moves env ent (root, loc) ((Op.setLeafList e).apply env (root, loc)) (.enter e) := by
  have hm := h.set hd hs
  have h' := hm.stands
  obtain ⟨cur₁, c, hw, hon⟩ := h'.on
  have hst : (Cursor.enter e).state = .stateLeafList := by simp [Cursor.enter, hl]
  obtain rfl : cur₁ = .enter e := hon.eq (by simp [hst])
  simp only [Op.apply] at h' hw ⊢
  rw [Config.modify_setLeafList]
  have hv := h'.value (g := Config.clearList) hw (fun _ => rfl) (.of_value (.inr hst) rfl)
    (fun _ => rfl) ((h'.typed.of_walk hw).clearList hst) (.same _ _)
  refine ⟨hv.stands, fun l hl => ?_, fun l cur' d hpre hl => ?_⟩
  · rcases hv.sub l hl with he | he
    · rw [he]
      exact hm.sub l hl
    · exact .inr he
  · exact absurd (hpre.trans (List.prefix_append loc _)) hl

theorem Stands.setValue {v : String} {e : Entry} (h : Stands env ent (root, loc) cur)
    (hl : cur.state = .stateLeaf) (hs : cur.Selects env v e) :
    Moves env ent (root, loc) ((Op.setValue v).apply env (root, loc))
      ⟨cur.ent, .stateLeafMatched, 0⟩ := by
  obtain ⟨cur₁, c, hw, hon⟩ := h.on
  obtain rfl : cur₁ = cur := hon.eq (by simp [hl])
  exact h.value (g := fun c => c.setValue v) hw (fun _ => rfl) (.of_value (.inl hl) rfl)
    (fun _ => rfl) ((h.typed.of_walk hw).setValue hl hs) (.leaf hl rfl)

/-- The node of a leaf-list, before and after its first value. -/
theorem Cursor.On.leafList_eq {cur₁ : Cursor} (hon : cur.On cur₁ c)
    (hl : cur.state = .stateLeafList ∨ cur.state = .stateLeafListMatched)
    (hne : cur₁.state ≠ .stateLeafListMatched) : cur₁.state = .stateLeafList ∧
      cur₁.ent = cur.ent ∧ ∀ v, cur₁.select env v = cur.select env v := by
  cases hon with
  | same => exact ⟨hl.resolve_right hne, rfl, fun _ => rfl⟩
  | leaf => simp at hl
  | leafList hst =>
    refine ⟨hst, rfl, fun v => ?_⟩
    rw [Cursor.select, Cursor.select, Cursor.alternatives, Cursor.alternatives, hst]

theorem Config.walk_state {cur₁ : Cursor} (hw : root.walk (.root ent) loc = some (cur₁, c)) :
    cur₁.state ≠ .stateLeafListMatched := by
  rcases List.eq_nil_or_concat loc with rfl | ⟨pre, s, rfl⟩
  · cases hw
    simp [Cursor.root]
  · rw [List.concat_eq_append] at hw
    obtain ⟨cur₂, p, e, -, -, -, rfl⟩ := Config.walk_snoc hw
    obtain ⟨slot, k⟩ := s
    cases slot with
    | configs =>
      simp only [Cursor.child, Cursor.enter]
      split
      · simp
      · rcases entryNextState_cases e with h | h | h | h | h <;> simp [h]
    | keys =>
      simp only [Cursor.child, Cursor.enterKey]
      split <;> simp

theorem Stands.setListValue {v : String} {e : Entry} (h : Stands env ent (root, loc) cur)
    (hl : cur.state = .stateLeafList ∨ cur.state = .stateLeafListMatched)
    (hs : cur.Selects env v e) :
    Moves env ent (root, loc) ((Op.setListValue v).apply env (root, loc))
      ⟨cur.ent, .stateLeafListMatched, 0⟩ := by
  obtain ⟨cur₁, c, hw, hon⟩ := h.on
  obtain ⟨hst, he, hsel⟩ := @Cursor.On.leafList_eq env _ _ _ hon hl (Config.walk_state hw)
  have hs' : cur₁.Selects env v e := by
    obtain ⟨m, hs⟩ := hs
    exact ⟨m, (hsel v).trans hs⟩
  rw [← he]
  exact h.value (g := fun c => c.setListValue v) hw (fun _ => rfl) (.of_value (.inr hst) rfl)
    (fun _ => rfl) ((h.typed.of_walk hw).setListValue hst hs')
    (.leafList hst (by simp [Config.setListValue]))

theorem Typed.entry_of_key {key : String} {d : Config} {e : Entry} (h : Typed env cur c)
    (hd : c.lookupKeyShallow key = some d) (hs : cur.Selects env key e) : d.entry = some e := by
  obtain ⟨e', hedge, he, -⟩ := h.child?_edge (s := ⟨.keys, key⟩) hd
  have hn : d.name = key := Config.child?_name hd
  have hs' : cur.Selects env key e' := hn ▸ hedge.2.1
  rw [hs.inj hs']
  exact he

theorem Stands.setKey {key : String} {e : Entry} (h : Stands env ent (root, loc) cur)
    (hk : cur.state = .stateKey) (hs : cur.Selects env key e) :
    Moves env ent (root, loc) ((Op.setKey e key cur.ent.name).apply env (root, loc)) cur.enterKey := by
  obtain ⟨cur₁, c, hw, hon⟩ := h.on
  obtain rfl : cur₁ = cur := hon.eq (by simp [hk])
  have htc := h.typed.of_walk hw
  rw [Op.apply, Config.setKey]
  rcases h.typed.lookupKey_cases hw hk key with hl | ⟨pre, k, cur₂, parent, p, rfl, hkeys, hwp, hp,
    hpk, hsome, -, hl⟩
  · rw [hl]
    cases hn : c.lookupKeyShallow key with
    | some d =>
      exact .append h.typed ⟨d, Config.walk_snoc_eq hw hn (htc.entry_of_key hn hs), .same _ _⟩
        fun l _ => .inl rfl
    | none =>
      have ht := h.typed.modify (f := fun d => d.addKey env e key cur₁.ent.name) hw
        (htc.addKey hk hs hn) (.addKey hk)
      have hch : (c.addKey env e key cur₁.ent.name).child? ⟨.keys, key⟩ =
          some (newKey e key cur₁.ent.name).bare := by
        rw [Config.child?_addKey (htc.nodup .keys) hn, if_pos rfl]
      have hw' := Config.walk_snoc_eq
        (h.typed.walk_modify (g := fun d => d.addKey env e key cur₁.ent.name) hw (fun _ => rfl) ht)
        hch rfl
      refine .append ht ⟨_, hw', .same _ _⟩ fun l hl => .inl ?_
      exact Config.get?_modify_frame (g := fun d => d.addKey env e key cur₁.ent.name) (fun _ => rfl)
        (Config.get?_of_walk hw) (fun r hr => Config.get?_addKey (htc.nodup .keys) hn hr) hl
  · -- The key is found below another key of the list, where the parser goes on.
    rw [hl]
    obtain ⟨d, hd⟩ := Option.isSome_iff_exists.mp hsome
    have htp := h.typed.of_walk hwp
    obtain ⟨ep, -, hep, htp'⟩ := htp.child?_edge hp
    obtain ⟨cur₃, parent', e', hwp', hch', he', hcur⟩ := Config.walk_snoc hw
    rw [hwp] at hwp'
    cases hwp'
    have hwq : root.walk (.root ent) (pre ++ [⟨.keys, p.name⟩]) = some (cur₁, p) := by
      rw [Config.walk_snoc_eq hwp hp hep, hcur]
      rfl
    have htq := h.typed.of_walk hwq
    have hwd := Config.walk_snoc_eq hwq hd (htq.entry_of_key hd hs)
    rw [List.append_assoc] at hwd
    refine ⟨⟨h.typed, _, d, hwd, .same _ _⟩, fun l _ => .inl rfl, fun l cur' c' hpre hnp hw' => ?_⟩
    rcases List.prefix_concat_iff.mp hpre with rfl | hpre
    · rw [hw] at hw'
      cases hw'
      rw [Done, hk]
      exact hkeys
    · exact absurd (hpre.trans (List.prefix_append pre _)) hnp

/-- What a token that selects an entry does. -/
theorem Stands.step {p : Config × Loc} {str : String} {e : Entry} (h : Stands env ent p cur)
    (hs : cur.Selects env str e) :
    Moves env ent p ((cur.op e str).apply env p) (cur.next e) := by
  obtain ⟨root, loc⟩ := p
  rw [Cursor.op, Cursor.next]
  split
  case h_1 | h_2 | h_3 =>
    rename_i hst
    have hd : cur.isDir = true := by rw [Cursor.isDir, hst]
    split
    · rename_i hl
      exact h.setLeafList hd hs hl
    · exact h.set hd hs
  case h_4 hst => exact h.setKey hst hs
  case h_5 hst => exact h.setValue hst hs
  case h_6 hst =>
    obtain ⟨m, hs⟩ := hs
    obtain ⟨l, hl, hp⟩ := Cursor.select_unique.mp hs
    rw [Cursor.alternatives, hst] at hl
    cases hl
    obtain ⟨x, hx, -⟩ := hp.mem
    cases hx
  case h_7 hst => exact h.setListValue (.inl hst) hs
  case h_8 hst => exact h.setListValue (.inr hst) hs

/-- A token that selects an entry leads from one such tree to the next. -/
theorem Focus.step {p : Config × Loc} {str : String} {e : Entry} (h : Focus env ent p cur)
    (hs : cur.Selects env str e) :
    Focus env ent ((cur.op e str).apply env p) (cur.next e) :=
  h.move (h.stands.step hs)

/-- Tokens that select an entry each. -/
theorem Trace.focus {cmds : List String} {ops : List Op} {cur' : Cursor} {p : Config × Loc}
    (ht : Trace env cur cmds ops cur') (h : Focus env ent p cur) :
    Focus env ent (applyOps env ops p) cur' := by
  induction ht generalizing p with
  | nil => exact h
  | cons hs _ ih => exact ih (h.step hs)

theorem Trace.stands {cmds : List String} {ops : List Op} {cur' : Cursor} {p : Config × Loc}
    (ht : Trace env cur cmds ops cur') (h : Stands env ent p cur) :
    Stands env ent (applyOps env ops p) cur' := by
  induction ht generalizing p with
  | nil => exact h
  | cons hs _ ih => exact ih (h.step hs).stands

theorem Trace.pending {Q : Cursor → Prop} {cmds : List String} {ops : List Op} {cur' : Cursor}
    {p : Config × Loc} (ht : Trace env cur cmds ops cur') (hs : Stands env ent p cur)
    (h : ∀ l cur c, l ≠ [] → p.1.walk (.root ent) l = some (cur, c) → Q cur →
      Done cur c ∨ l <+: p.2) :
    ∀ l cur c, l ≠ [] → (applyOps env ops p).1.walk (.root ent) l = some (cur, c) → Q cur →
      Done cur c ∨ l <+: (applyOps env ops p).2 := by
  induction ht generalizing p with
  | nil => exact h
  | cons hsel _ ih =>
    have hm := hs.step hsel
    exact ih hm.stands (hm.pending hs.typed h)

end

/-! ## Runs -/

/-- No node is half made. -/
def Closed (ent : Entry) (root : Config) : Prop :=
  ∀ l cur c, l ≠ [] → root.walk (.root ent) l = some (cur, c) → Done cur c

/-- A node with a child is done. -/
theorem Typed.done_of_child {cur : Cursor} {c d : Config} {s : Step} (h : Typed env cur c)
    (hd : c.child? s = some d) : Done cur c := by
  obtain ⟨e, hedge, -⟩ := h.child?_edge hd
  have hm := Config.child?_mem hd
  obtain ⟨slot, n⟩ := s
  cases slot with
  | configs =>
    have hne : c.configs ≠ [] := List.ne_nil_of_mem hm
    have hdir := hedge.1
    rw [Cursor.isDir] at hdir
    rw [Done]
    split at hdir <;> simp_all
  | keys =>
    have hne : c.keys ≠ [] := List.ne_nil_of_mem hm
    rw [Done, hedge.1]
    exact hne

/-- After a success the nodes on the path are done. -/
theorem Stands.done {ent : Entry} {p : Config × Loc} {cur cur' : Cursor} {l : Loc} {c : Config}
    (h : Stands env ent p cur) (ha : cur.accepts = true) (hl : l <+: p.2)
    (hw : p.1.walk (.root ent) l = some (cur', c)) : Done cur' c := by
  obtain ⟨r, hr⟩ := hl
  obtain ⟨cur₁, c₁, hw₁, hon⟩ := h.on
  rw [← hr, Config.walk_append, hw] at hw₁
  cases r with
  | nil =>
    cases hw₁
    cases hon with
    | same =>
      rw [Cursor.accepts] at ha
      rw [Done]
      split at ha <;> simp_all
    | leaf hst hv => rwa [Done, hst]
    | leafList hst hv => rwa [Done, hst]
  | cons s r =>
    have hg := Config.get?_of_walk hw₁
    rw [Config.get?_cons] at hg
    obtain ⟨d, hd, -⟩ := Option.bind_eq_some_iff.mp hg
    exact (h.typed.of_walk hw).done_of_child hd

theorem Focus.closed {ent : Entry} {p : Config × Loc} {cur : Cursor} (h : Focus env ent p cur)
    (ha : cur.accepts = true) : Closed ent p.1 := by
  intro l cur' c hl hw
  rcases h.pending l cur' c hl hw with hd | hpre
  · exact hd
  · exact h.stands.done ha hpre hw

/-- The trees that successful set-mode calls reach from the empty root. -/
inductive Reach (env : Env) (ent : Entry) : Config → Prop
  | empty : Reach env ent {}
  | set {root : Config} {cmds : List String} {r : ParseResult} : Reach env ent root →
    parse env ent root cmds = some r → r.code = .parseSuccess → Reach env ent r.tree

theorem Typed.empty (cur : Cursor) : Typed env cur {} := .bare (.none rfl rfl rfl)

theorem Closed.empty (ent : Entry) : Closed ent {} := by
  intro l cur c hl hw
  have hg := Config.get?_of_walk hw
  rw [show ({} : Config) = ({} : Node).bare from rfl, Config.get?_bare _ hl] at hg
  cases hg

/-- A typed and closed tree is where set mode starts. -/
theorem Focus.start {ent : Entry} {root : Config} (h : Typed env (.root ent) root)
    (hc : Closed ent root) : Focus env ent (root, []) (.root ent) :=
  ⟨h, ⟨_, _, rfl, .same _ _⟩, fun l cur c hl hw => .inl (hc l cur c hl hw)⟩

theorem parse_success {ent : Entry} {root : Config} {cmds : List String} {r : ParseResult}
    (hp : parse env ent root cmds = some r) (hs : r.code = .parseSuccess) :
    ∃ ops cur, Trace env (.root ent) cmds ops cur ∧ cur.accepts = true ∧
      r.tree = (applyOps env ops (root, [])).1 := by
  rw [parse_eq_plan, Option.map_eq_some_iff] at hp
  obtain ⟨⟨code, ops⟩, hp, rfl⟩ := hp
  obtain ⟨cmds', cur, -, ht, hc⟩ := plan_trace hp
  obtain ⟨rfl, ha⟩ := hc hs
  exact ⟨ops, cur, ht, ha, rfl⟩

theorem Reach.typed_closed {ent : Entry} {root : Config} (h : Reach env ent root) :
    Typed env (.root ent) root ∧ Closed ent root := by
  induction h with
  | empty => exact ⟨.empty _, .empty ent⟩
  | set _ hp hs ih =>
    obtain ⟨ops, cur, ht, ha, htree⟩ := parse_success hp hs
    have hf := ht.focus (.start ih.1 ih.2)
    rw [htree]
    exact ⟨hf.typed, hf.closed ha⟩

end OpenConfigd
