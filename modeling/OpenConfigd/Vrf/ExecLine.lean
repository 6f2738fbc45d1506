import OpenConfigd.Config.OneKey
import OpenConfigd.Subscribe.Pull
import OpenConfigd.Yang.Complete

/-!
# Command lines at a place

A `set` or `delete` line names a place of the tree, and for a leaf its value. In a schema whose lists
have one key and that has no choices and no presence statements:

* `set_at`: a `set` line that is taken gives its place the value, and changes only what is on the way;
* `delete_at`: a `delete` line whose inner keys are in the tree cuts it at its place if the value is
  there, and else leaves it as it is;
* `execSet_shows`, `execDelete_shows`: what the other places have after `ExecLine`;
* `execSet_keeps`, `execDelete_keeps`: which keys stay.
-/

namespace OpenConfigd

variable {env : Env} {ent : Entry}

/-- The entry is regular and writable, outside any choice, and a list of one key if any. -/
structure Entry.Simple (e : Entry) : Prop where
  regular : e.Regular
  oneKey : e.OneKey
  noChoice : e.NoChoice
  noPresence : e.presence = false
  writable : e.readOnlyConfig = false

instance : DecidablePred Entry.Simple := fun e =>
  decidable_of_iff (e.Regular ∧ e.OneKey ∧ e.NoChoice ∧ e.presence = false ∧ e.readOnlyConfig = false)
    ⟨fun ⟨h₁, h₂, h₃, h₄, h₅⟩ => ⟨h₁, h₂, h₃, h₄, h₅⟩,
      fun h => ⟨h.regular, h.oneKey, h.noChoice, h.noPresence, h.writable⟩⟩

/-- Leafrefs lead to such entries. -/
def FindsSimple (env : Env) : Prop := ∀ e path t, env.find e path = some t → t.Simple

theorem FindsSimple.regular (h : FindsSimple env) : FindsRegular env :=
  fun e path t ht => (h e path t ht).regular

/-- The cursor at a place whose names select their entries. -/
def Cursor.follow (env : Env) (cur : Cursor) : Loc → Option Cursor
  | [] => some cur
  | ⟨.configs, name⟩ :: l =>
    match cur.isDir, cur.select env name with
    | true, some (.unique e _) => if e.name = name then (enter e).follow env l else none
    | _, _ => none
  | ⟨.keys, _⟩ :: l => if cur.state = .stateKey then cur.enterKey.follow env l else none

/-- No name of the place is short for another entry. -/
def Cursor.alone (env : Env) (cur : Cursor) : Loc → Bool
  | [] => true
  | ⟨.configs, name⟩ :: l =>
    cur.ent.dir.all (fun x => matchKeyword name x.name = .typeNone || x.name = name) &&
      match cur.select env name with
      | some (.unique e _) => (enter e).alone env l
      | _ => false
  | ⟨.keys, _⟩ :: l => cur.enterKey.alone env l

section

variable {cur cur' cur₁ : Cursor} {e : Entry} {str name : String} {l : Loc}

/-! ## The way through the schema -/

theorem candidates_noChoice {es : List Entry} (h : ∀ e ∈ es, e.NoChoice) : candidates es = es := by
  induction es with
  | nil => rfl
  | cons e es ih =>
    have he : e.isChoice = false := by
      rcases (h e List.mem_cons_self).kind with hk | hk <;> simp [Entry.isChoice, hk]
    rw [candidates, he, ih fun x hx => h x (List.mem_cons_of_mem _ hx)]
    rfl

theorem Cursor.Selects.child (hs : cur.Selects env str e) (hd : cur.isDir = true)
    (hn : cur.ent.All Entry.Simple) : e ∈ cur.ent.dir := by
  have hno : ∀ x ∈ cur.ent.dir, x.NoChoice := fun x hx => (hn.child hx).self.noChoice
  obtain ⟨m, hs⟩ := hs
  obtain ⟨l, hl, hp⟩ := Cursor.select_unique.mp hs
  obtain ⟨x, hx, rfl, -⟩ := hp.mem
  rw [alternatives] at hl
  cases hst : cur.state <;> simp [isDir, hst] at hd <;> simp only [hst, Option.some.injEq] at hl
  case stateDir | stateDirMatched =>
    have hdir : dirCandidates cur.ent = cur.ent.dir := by
      obtain ⟨⟨_, dir⟩, _, _⟩ := cur
      rw [dirCandidates]
      exact candidates_noChoice hno
    rw [← hl, hdir] at hx
    exact (mem_keywords.mp hx).1
  case stateKeyMatched =>
    rw [← hl, candidates_noChoice fun x hx => hno x (List.mem_of_mem_filter hx)] at hx
    exact List.mem_of_mem_filter (mem_keywords.mp hx).1

theorem Cursor.follow_configs (h : cur.follow env (⟨.configs, name⟩ :: l) = some cur₁) :
    cur.isDir = true ∧ ∃ e m, cur.select env name = some (.unique e m) ∧ e.name = name ∧
      (enter e).follow env l = some cur₁ := by
  rw [follow] at h
  split at h
  · rename_i e m hd hs
    split at h
    · exact ⟨hd, e, m, hs, ‹_›, h⟩
    · cases h
  · cases h

theorem Cursor.follow_keys (h : cur.follow env (⟨.keys, name⟩ :: l) = some cur₁) :
    cur.state = .stateKey ∧ cur.enterKey.follow env l = some cur₁ := by
  rw [follow] at h
  split at h
  · exact ⟨‹_›, h⟩
  · cases h

theorem Cursor.follow_append {l' : Loc} (h : cur.follow env l = some cur₁) :
    cur.follow env (l ++ l') = cur₁.follow env l' := by
  induction l generalizing cur with
  | nil =>
    cases h
    rfl
  | cons s l ih =>
    obtain ⟨slot, name⟩ := s
    cases slot with
    | configs =>
      obtain ⟨hd, e, m, hs, hname, hl⟩ := follow_configs h
      rw [List.cons_append, follow, hd, hs]
      simp only [hname, if_true]
      exact ih hl
    | keys =>
      obtain ⟨hk, hl⟩ := follow_keys h
      rw [List.cons_append, follow, if_pos hk]
      exact ih hl

/-- Accepted words lead to the place that they are the names of. -/
theorem Trace.pathLoc_follow {vals : List String} {ops : List Op}
    (ht : Trace env cur (l.map (·.name) ++ vals) ops cur') (hl : cur.follow env l = some cur₁)
    (hv : vals ≠ [] → cur₁.isNode = false) :
    pathLoc env (l.map (·.name) ++ vals) cur = l ∧
      valuePart env (l.map (·.name) ++ vals) cur = vals := by
  induction l generalizing cur ops with
  | nil =>
    cases hl
    rw [List.map_nil, List.nil_append] at ht ⊢
    cases vals with
    | nil => exact ⟨rfl, rfl⟩
    | cons v vals =>
      have hi := hv (List.cons_ne_nil _ _)
      refine ⟨(ht.pathLoc_value hi).1, ?_⟩
      cases ht with
      | cons hsel _ =>
        obtain ⟨m, hsel⟩ := hsel
        rw [valuePart, hsel]
        simp only [hi, Bool.false_eq_true, if_false]
  | cons s l ih =>
    rw [List.map_cons, List.cons_append] at ht ⊢
    cases ht with
    | @cons _ _ _ e _ _ hsel ht =>
      obtain ⟨m, hm⟩ := id hsel
      obtain ⟨slot, name⟩ := s
      cases slot with
      | configs =>
        obtain ⟨hd, e', m', hm', rfl, hl'⟩ := Cursor.follow_configs hl
        obtain rfl := hsel.inj ⟨m', hm'⟩
        rw [Cursor.next_dir hd] at ht
        obtain ⟨hloc, hval⟩ := ih ht hl'
        have hi : cur.isNode = true := by rw [Cursor.isNode, hd, Bool.true_or]
        constructor
        · rw [pathLoc, hm]
          simp only [Cursor.steps_dir hd, Cursor.next_dir hd, hloc, List.singleton_append]
        · rw [valuePart, hm]
          simp only [hi, if_true, Cursor.next_dir hd, hval]
      | keys =>
        obtain ⟨hk, hl⟩ := Cursor.follow_keys hl
        rw [Cursor.next_key hk] at ht
        obtain ⟨hloc, hval⟩ := ih ht hl
        have hi : cur.isNode = true := by simp [Cursor.isNode, hk]
        constructor
        · rw [pathLoc, hm]
          simp only [Cursor.steps_key hk, Cursor.next_key hk, hloc, List.singleton_append]
        · rw [valuePart, hm]
          simp only [hi, if_true, Cursor.next_key hk, hval]

variable {root c d : Config} {s t : Step}

/-- The entry of a key. -/
theorem Edge.simple {n : Node} (h : Edge env cur .keys n e) (hf : FindsSimple env)
    (hn : cur.ent.All Entry.Simple) : e.Simple := by
  obtain ⟨key, u, hkey, -, -, ⟨-, rfl⟩ | ⟨-, hfind⟩⟩ := h.2.1.key h.1
  · exact (hn.child (List.mem_of_find?_eq_some hkey)).self
  · exact hf _ _ _ hfind

/-- Names and keys are not side by side. -/
theorem Typed.child_slot (ht : Typed env cur c) (hl : cur.follow env (s :: l) = some cur₁)
    (hd : c.child? t = some d) : t.slot = s.slot := by
  obtain ⟨e, hedge, -⟩ := ht.child?_edge hd
  obtain ⟨slot, name⟩ := s
  obtain ⟨slot', name'⟩ := t
  cases slot <;> cases slot'
  · rfl
  · have hdir := (Cursor.follow_configs hl).1
    rw [Cursor.isDir, hedge.1] at hdir
    cases hdir
  · have hdir := hedge.1
    rw [Cursor.isDir, (Cursor.follow_keys hl).1] at hdir
    cases hdir
  · rfl

/-- The child on the way. -/
theorem Typed.child_follow (ht : Typed env cur c) (hl : cur.follow env (s :: l) = some cur₁)
    (hd : c.child? s = some d) : ∃ e, d.entry = some e ∧ (cur.child s.slot e).follow env l = some cur₁ ∧
      (cur.alone env (s :: l) = true → (cur.child s.slot e).alone env l = true) := by
  obtain ⟨e, hedge, he, -⟩ := ht.child?_edge hd
  refine ⟨e, he, ?_⟩
  obtain ⟨slot, name⟩ := s
  cases slot with
  | configs =>
    obtain ⟨hdir, ⟨str, hs⟩, -⟩ := id hedge
    obtain ⟨-, e', m, hm, hname, hl⟩ := Cursor.follow_configs hl
    have hen : e.name = e'.name :=
      (hedge.name_configs.symm.trans (Config.child?_name hd)).trans hname.symm
    obtain rfl := hs.name_inj hdir ⟨m, hm⟩ hen
    refine ⟨hl, fun ha => ?_⟩
    rw [Cursor.alone, hm, Bool.and_eq_true] at ha
    exact ha.2
  | keys => exact ⟨(Cursor.follow_keys hl).2, id⟩

/-- A child that a name on the way is a match for, and that has no key, is the one on the way. -/
theorem Typed.child_alone (ht : Typed env cur c) (hn : cur.ent.All Entry.Simple)
    (ha : cur.alone env (s :: l) = true) (hs : s.slot = .configs) (hslot : t.slot = s.slot)
    (hd : c.child? t = some d) (hm : matchKeyword s.name t.name ≠ .typeNone) : t = s := by
  obtain ⟨e, hedge, -⟩ := ht.child?_edge hd
  obtain ⟨slot, name⟩ := s
  obtain ⟨slot', name'⟩ := t
  obtain rfl : slot = .configs := hs
  obtain rfl : slot' = .configs := hslot
  obtain ⟨hdir, ⟨str, hs⟩, -⟩ := id hedge
  obtain rfl : e.name = name' := hedge.name_configs.symm.trans (Config.child?_name hd)
  rw [Cursor.alone, Bool.and_eq_true] at ha
  have := List.all_eq_true.mp ha.1 e (hs.child hdir hn)
  rw [Bool.or_eq_true, decide_eq_true_iff, decide_eq_true_iff] at this
  rw [this.resolve_left hm]

end

/-! ## The values of a node -/

theorem Cursor.enter_ne_key (e : Entry) : (Cursor.enter e).state ≠ .stateKeyMatched := by
  have h : entryNextState e ≠ .stateKeyMatched := by
    rw [entryNextState]
    cases e.kind <;> simp only <;> (try split_ifs) <;> simp
  simp only [Cursor.enter]
  split
  · simp
  · exact h

theorem Config.get?_name {root c : Config} {pre : Loc} {s : Step}
    (hg : root.get? (pre ++ [s]) = some c) : c.name = s.name := by
  rw [Config.get?_append] at hg
  cases hp : root.get? pre with
  | none => rw [hp] at hg; cases hg
  | some p =>
    rw [hp, Option.bind_some, Config.get?_single] at hg
    exact Config.child?_name hg

/-- A node other than a leaf or a leaf-list has no value. -/
theorem Content.values {cur : Cursor} {n : Node} (h : Content env cur n) (hl : cur.state ≠ .stateLeaf)
    (hll : cur.state ≠ .stateLeafList) : n.value = "" ∧ n.values = [] := by
  have h' : n.value = "" ∧ n.valueList = [] ∧ n.hasValue = false := by
    cases hst : cur.state <;> simp [hst] at hl hll <;> simpa [Content, hst] using h
  refine ⟨h'.1, ?_⟩
  rw [Node.values, h'.2.1, h'.2.2]
  simp

/-- A leaf has its value. -/
theorem Built.values_leaf {root c : Config} {l : Loc} {cur : Cursor} (h : Built env ent root)
    (hne : l ≠ []) (hw : root.walk (.root ent) l = some (cur, c)) (hl : cur.state = .stateLeaf) :
    c.values = [c.value] ∧ c.hasDir = false ∧ c.isLeafList = false := by
  obtain ⟨he, hll⟩ := Config.walk_leaf hw (.inl hl)
  have hlist : cur.ent.isLeafList = false := by simpa [hl] using hll
  have hdone := h.valued l cur c hne hw (.inl hl)
  rw [Done, hl] at hdone
  have ht := h.edited.typed.of_walk hw
  have hkc : c.keyConfig = false := by
    rcases List.eq_nil_or_concat l with rfl | ⟨pre, ⟨slot, n⟩, rfl⟩
    · exact absurd rfl hne
    · rw [List.concat_eq_append] at hw
      obtain ⟨cur₁, p, e, hwp, hch, he', rfl⟩ := Config.walk_snoc hw
      obtain ⟨e', hedge, -, -⟩ := (h.edited.typed.of_walk hwp).child?_edge hch
      cases slot with
      | configs => exact congrArg Node.keyConfig hedge.2.2
      | keys =>
        simp only [Cursor.child, Cursor.enterKey] at hl
        split at hl <;> cases hl
  refine ⟨?_, ?_, ?_⟩
  · simp [Node.values, he, hlist, hdone]
  · have hconf := ht.configs_nil (by simp [Cursor.isDir, hl])
    have hkeys := ht.keys_nil (by simp [hl])
    simp [Config.hasDir, he, hkc, hconf, hkeys]
  · rw [Config.isLeafList, he]
    exact hlist

/-! ## What a line says -/

/-- The place has the value: that of a leaf, or none. -/
def Config.Shows (root : Config) (l : Loc) (vals : List String) : Prop :=
  ∃ n, root.node? l = some n ∧ n.values = vals

/-- The names and values of the tree are one word each. -/
def Config.Worded (root : Config) : Prop :=
  ∀ l n, root.node? l = some n → OneWord n.name ∧ OneWord n.value

/-- What a `delete` line can end with: the value of a leaf, a key, or a container. -/
def Cursor.Ends (cur : Cursor) (vals : List String) : Prop :=
  cur.state = .stateLeaf ∧ (∃ v, vals = [v]) ∨
    vals = [] ∧ (cur.state = .stateKeyMatched ∨ cur.state = .stateDir ∧ cur.ent.isContainer = true)

/-- A key and a container have no value. -/
theorem Cursor.Ends.values {cur : Cursor} {n : Node} (h : cur.Ends []) (hn : Content env cur n) :
    n.values = [] := by
  rcases h with ⟨-, v, hv⟩ | ⟨-, hst⟩
  · cases hv
  · refine (hn.values ?_ ?_).2 <;> rcases hst with hst | ⟨hst, -⟩ <;> rw [hst] <;> simp

/-- The keys on the way to a place, but for the last step, are in the tree. -/
def Config.HasKeys (root : Config) (l : Loc) : Prop :=
  ∀ a k b, l = a ++ ⟨.keys, k⟩ :: b → b ≠ [] → (root.get? (a ++ [⟨.keys, k⟩])).isSome

section

variable {cur cur₁ : Cursor} {root c d : Config} {pre l l' : Loc} {s t : Step} {vals : List String}
  {r : ParseResult}

theorem Config.Shows.get (h : root.Shows l vals) : ∃ c, root.get? l = some c ∧ c.values = vals := by
  obtain ⟨n, hn, hv⟩ := h
  rw [Config.node?, Option.map_eq_some_iff] at hn
  obtain ⟨c, hg, rfl⟩ := hn
  exact ⟨c, hg, hv⟩

theorem Config.shows_iff (hg : root.get? l = some c) : root.Shows l vals ↔ c.values = vals := by
  rw [Config.Shows, Config.node?_eq hg]
  exact ⟨fun ⟨n, hn, hv⟩ => by cases hn; exact hv, fun h => ⟨_, rfl, h⟩⟩

/-- The keys on the way to a node are in the tree with it. -/
theorem Config.hasKeys_append (hg : (root.get? pre).isSome) (hl : ∀ s ∈ l.dropLast, s.slot = .configs) :
    root.HasKeys (pre ++ l) := by
  intro a k b heq hb
  have hnot {x : Loc} (hx : l = x ++ ⟨.keys, k⟩ :: b) : False := by
    have := hl ⟨.keys, k⟩ (by
      rw [hx, List.dropLast_append_of_ne_nil (List.cons_ne_nil _ _), List.dropLast_cons_of_ne_nil hb]
      simp)
    cases this
  rcases List.append_eq_append_iff.mp heq with ⟨x, rfl, hx⟩ | ⟨x, rfl, hx⟩
  · exact (hnot hx).elim
  · cases x with
    | nil => exact (hnot (show l = [] ++ _ from hx.symm)).elim
    | cons t x =>
      obtain ⟨rfl, -⟩ := List.cons.inj hx
      rw [List.append_cons] at hg
      exact Config.get?_prefix hg

/-- The steps to the children of a typed node are different. -/
theorem Typed.steps_nodup (h : Typed env cur c) : c.steps.Nodup := by
  have hslot (slot : Slot) : ((c.slot slot).map fun d => (⟨slot, d.name⟩ : Step)).Nodup := by
    have := (h.nodup slot).map (f := fun n => (⟨slot, n⟩ : Step)) fun a b hab => (Step.mk.inj hab).2
    rwa [List.map_map] at this
  rw [Config.steps]
  refine List.nodup_append'.mpr ⟨hslot .configs, hslot .keys, fun x hx hx' => ?_⟩
  obtain ⟨a, -, rfl⟩ := List.mem_map.mp hx
  obtain ⟨b, -, hb⟩ := List.mem_map.mp hx'
  cases hb

theorem Config.mem_steps : t ∈ c.steps ↔ (c.child? t).isSome := by
  obtain ⟨slot, n⟩ := t
  rw [Config.steps, Config.child?, Keyed.get_isSome]
  cases slot <;> simp [Config.slot]

theorem Config.Worded.step (h : root.Worded) (hg : root.get? pre = some c) (ht : t ∈ c.steps) :
    OneWord t.name := by
  obtain ⟨d, hd⟩ := Option.isSome_iff_exists.mp (Config.mem_steps.mp ht)
  have hgd : root.get? (pre ++ [t]) = some d := by
    rw [Config.get?_append, hg, Option.bind_some, Config.get?_single, hd]
  have := (h _ _ (Config.node?_eq hgd)).1
  rwa [show d.toNode.name = t.name from Config.child?_name hd] at this

/-- Where the parser gets is where the nodes are. -/
theorem Typed.walk_follow (ht : Typed env (.root ent) root)
    (hw : root.walk (.root ent) pre = some (cur, c)) (hl : cur.follow env l = some cur₁)
    (hg : root.get? (pre ++ l) = some d) : root.walk (.root ent) (pre ++ l) = some (cur₁, d) := by
  induction l generalizing pre cur c with
  | nil =>
    cases hl
    rw [List.append_nil] at hg ⊢
    rw [hw, Option.some.inj ((Config.get?_of_walk hw).symm.trans hg)]
  | cons s l ih =>
    rw [List.append_cons] at hg ⊢
    obtain ⟨x, hx⟩ := Option.isSome_iff_exists.mp (Config.get?_prefix (by rw [hg]; rfl))
    have hch : c.child? s = some x := by
      rwa [Config.get?_append, Config.get?_of_walk hw, Option.bind_some, Config.get?_single] at hx
    obtain ⟨e, he, hl, -⟩ := (ht.of_walk hw).child_follow hl hch
    exact ih (Config.walk_snoc_eq hw hch he) hl hg

theorem Typed.walk_root (ht : Typed env (.root ent) root)
    (hl : (Cursor.root ent).follow env l = some cur₁) (hg : root.get? l = some d) : root.walk (.root ent) l = some (cur₁, d) :=
  @Typed.walk_follow env ent _ _ _ _ _ [] l ht rfl hl hg

/-- The name of a step on the way picks it, where it is in the tree. -/
theorem Typed.picks_follow (ht : Typed env (.root ent) root) (hword : root.Worded)
    (hw : root.walk (.root ent) pre = some (cur, c)) (hl : cur.follow env (s :: l) = some cur₁)
    (hs : (c.child? s).isSome) : c.Picks s.name s := by
  have htc := ht.of_walk hw
  have hg := Config.get?_of_walk hw
  have hmem := Config.mem_steps.mpr hs
  refine (Best.leads_iff_of_nodup htc.steps_nodup).mpr ⟨hmem, ?_, fun x hx hne => ?_⟩
  · rw [matchKeyword_self]
    decide
  · rw [matchKeyword_self]
    have hexact : matchKeyword s.name x.name ≠ .typeExact := by
      intro h
      have hname := matchKeyword_exact (hword.step hg hmem) (hword.step hg hx) h
      obtain ⟨d, hd⟩ := Option.isSome_iff_exists.mp (Config.mem_steps.mp hx)
      have hslot := htc.child_slot hl hd
      apply hne
      cases x
      cases s
      simp only at hname hslot
      rw [hname, hslot]
    cases hm : matchKeyword s.name x.name <;> simp [MatchType.rank, hm] at hexact ⊢

/-- The names of a place in the tree lead to it. -/
theorem leads_follow (ht : Typed env (.root ent) root) (hword : root.Worded)
    (hw : root.walk (.root ent) pre = some (cur, c)) (hl : cur.follow env l = some cur₁)
    (hs : (root.get? (pre ++ l)).isSome) : Leads root pre (l.map (·.name)) (pre ++ l) := by
  induction l generalizing pre cur c with
  | nil =>
    rw [List.append_nil]
    exact .here pre
  | cons s l ih =>
    rw [List.append_cons] at hs ⊢
    obtain ⟨x, hx⟩ := Option.isSome_iff_exists.mp (Config.get?_prefix hs)
    have hch : c.child? s = some x := by
      rwa [Config.get?_append, Config.get?_of_walk hw, Option.bind_some, Config.get?_single] at hx
    obtain ⟨e, he, hl', -⟩ := (ht.of_walk hw).child_follow hl hch
    exact .child (Config.get?_of_walk hw) (Config.hasDir_of_child hch)
      (ht.picks_follow hword hw hl (by rw [hch]; rfl))
      (ih (Config.walk_snoc_eq hw hch he) hl' hs)

theorem leads_root (ht : Typed env (.root ent) root) (hword : root.Worded)
    (hl : (Cursor.root ent).follow env l = some cur₁) (hs : (root.get? l).isSome) :
    Leads root [] (l.map (·.name)) l :=
  @leads_follow env ent _ _ _ _ [] l ht hword rfl hl hs

variable (hf : FindsSimple env) (hall : ent.All Entry.Simple)

include hf hall

/-- A node that words go on from has children, or is a key. -/
theorem Built.hasDir (h : Built env ent root) (hw : root.walk (.root ent) l = some (cur, c))
    (hi : cur.isNode = true) : c.hasDir = true := by
  have hreg : ent.All Entry.Regular := hall.mono fun e he => he.regular
  have hclosed := h.closed hf.regular hreg fun _ ht =>
    ht.dataNodes hf.regular hreg (hall.mono fun e he => he.oneKey) (hall.mono fun e he => he.noChoice)
  rcases List.eq_nil_or_concat l with rfl | ⟨pre, s, rfl⟩
  · cases hw
    have : root.entry = none := congrArg Node.entry h.toNode
    simp [Config.hasDir, this]
  · rw [List.concat_eq_append] at hw
    have hdone := hclosed _ _ _ (by simp) hw
    obtain ⟨cur₁, p, e, hwp, hch, he, rfl⟩ := Config.walk_snoc hw
    have htp := h.edited.typed.of_walk hwp
    obtain ⟨e', hedge, he', -⟩ := htp.child?_edge hch
    obtain rfl := Option.some.inj (he.symm.trans he')
    obtain ⟨slot, n⟩ := s
    cases slot with
    | keys =>
      have hk : c.keyConfig = true := hedge.fields_key.2.1
      simp [Config.hasDir, hk]
    | configs =>
      obtain ⟨hdir, ⟨str, hs⟩, -⟩ := id hedge
      have hsim := (hs.all hdir (h.edited.typed.walk_all hall hwp)).self
      simp only [Cursor.child, Cursor.enter] at hdone hi
      rcases hsim.noChoice.kind with hk | hk
      · cases hkey : hasKey e with
        | true =>
          simp [Done, entryNextState, hk, hkey] at hdone
          simp [Config.hasDir, hdone]
        | false =>
          simp [Done, entryNextState, hk, hkey, isPresenceContainer, hsim.noPresence] at hdone
          simp [Config.hasDir, hdone]
      · exfalso
        simp only [entryNextState, hk] at hi
        split at hi <;> split at hi <;> simp [Cursor.isNode, Cursor.isDir] at hi

/-! ## Set lines -/

/-- A `set` line that is taken gives its place the value, and changes only what is on the way. -/
theorem set_at (h : Built env ent root) (hp : parse env ent root (l.map (·.name) ++ vals) = some r)
    (hs : r.code = .parseSuccess) (hl : (Cursor.root ent).follow env l = some cur₁)
    (hv : vals ≠ [] → cur₁.isNode = false) :
    r.tree.Shows l vals ∧ ∀ l', ¬ l' <+: l → r.tree.get? l' = root.get? l' := by
  have hreg : ent.All Entry.Regular := hall.mono fun e he => he.regular
  have hk : ent.All Entry.OneKey := hall.mono fun e he => he.oneKey
  have hn : ent.All Entry.NoChoice := hall.mono fun e he => he.noChoice
  have hfo := Focus.start h.edited.typed
    (h.closed hf.regular hreg fun _ ht => ht.dataNodes hf.regular hreg hk hn)
  obtain ⟨ops, cur, htr, ha, htree⟩ := parse_success hp hs
  have hpl := htr.plains hk hn hfo
  obtain ⟨hloc, hval⟩ := htr.pathLoc_follow hl hv
  have hplace := htr.place hpl.directs
  rw [List.nil_append, hloc] at hplace
  obtain ⟨n, hnode, hvals⟩ := htr.values hfo ⟨root, rfl, fun h => by cases h⟩ ha
  rw [hplace, ← htree] at hnode
  refine ⟨⟨n, hnode, hvals.trans hval⟩, fun l' hl' => ?_⟩
  rw [htree]
  exact htr.frame hfo hpl (by rwa [List.nil_append, hloc])

/-- A `set` line of words leaves a tree of words. -/
theorem set_worded (h : Built env ent root)
    (hp : parse env ent root (l.map (·.name) ++ vals) = some r) (hs : r.code = .parseSuccess)
    (hl : (Cursor.root ent).follow env l = some cur₁) (hv : vals ≠ [] → cur₁.isNode = false)
    (hw : root.Worded) (hnames : ∀ s ∈ l, OneWord s.name) (hvals : ∀ v ∈ vals, OneWord v) :
    r.tree.Worded := by
  intro l' n hn
  have hb : Built env ent r.tree := .set h hp hs
  obtain ⟨hshow, hframe⟩ := set_at hf hall h hp hs hl hv
  by_cases hpre : l' <+: l
  · rw [Config.node?, Option.map_eq_some_iff] at hn
    obtain ⟨c, hg, rfl⟩ := hn
    rcases List.eq_nil_or_concat l' with rfl | ⟨pre, s, rfl⟩
    · cases hg
      rw [hb.toNode]
      exact ⟨by decide, by decide⟩
    · rw [List.concat_eq_append] at hg hpre
      refine ⟨?_, ?_⟩
      · rw [show c.toNode.name = s.name from Config.get?_name hg]
        exact hnames s (hpre.subset (by simp))
      · obtain ⟨cur, hwalk, htc⟩ := hb.edited.typed.walk_of_get hg
        by_cases hleaf : cur.state = .stateLeaf
        · -- A leaf is where the place ends.
          obtain ⟨hcv, hd, -⟩ := hb.values_leaf (by simp) hwalk hleaf
          obtain ⟨x, rfl⟩ := hpre
          cases x with
          | nil =>
            rw [List.append_nil] at hshow
            have := (Config.shows_iff hg).mp hshow
            exact hvals _ (by rw [← this, hcv]; simp)
          | cons t x =>
            obtain ⟨d, hd', -⟩ := hshow.get
            rw [Config.get?_append, hg, Option.bind_some, Config.get?_cons] at hd'
            cases hch : c.child? t with
            | none => rw [hch] at hd'; cases hd'
            | some d' =>
              rw [Config.hasDir_of_child hch] at hd
              cases hd
        · by_cases hlist : cur.state = .stateLeafList
          · have hcont := htc.content
            rw [Content, hlist] at hcont
            rw [hcont.1]
            decide
          · rw [(htc.content.values hleaf hlist).1]
            decide
  · rw [Config.node?, hframe l' hpre] at hn
    exact hw l' n hn

/-! ## Delete lines -/

/-- The entry of the last key of a list. -/
theorem Typed.key_leaf (ht : Typed env (.root ent) root) (hw : root.walk (.root ent) l = some (cur, c))
    (hk : cur.state = .stateKeyMatched) : ∃ e, c.entry = some e ∧ e.kind = .leaf := by
  obtain rfl | ⟨pre, ⟨slot, n⟩, rfl⟩ := List.eq_nil_or_concat l
  · cases hw
    cases hk
  · rw [List.concat_eq_append] at hw
    obtain ⟨e, he, hkind⟩ :=
      ht.kind_of_walk hf.regular (hall.mono fun e he => Entry.Simple.regular he) hw
    cases slot with
    | keys => exact ⟨e, he, hkind.2⟩
    | configs =>
      obtain ⟨cur₁, p, e', -, -, -, rfl⟩ := Config.walk_snoc hw
      exact absurd hk (Cursor.enter_ne_key e')

/-- What a `delete` line can end with is accepted and taken. -/
theorem Built.ends (h : Built env ent root) (hw : root.walk (.root ent) (pre ++ [s]) = some (cur, c))
    (he : cur.Ends vals) : c.Accepted ∧ c.Taken (pre ++ [s]) := by
  have hreg : ent.All Entry.Regular := hall.mono fun e he => he.regular
  have ht := h.edited.typed
  have htc := ht.of_walk hw
  obtain ⟨cur', p, e, hwp, hch, hce, rfl⟩ := Config.walk_snoc hw
  obtain ⟨hslot, hsimple⟩ : (s.slot = .configs → (cur'.child s.slot e).ent = e) ∧ e.Simple := by
    obtain ⟨e', hedge, he', -⟩ := (ht.of_walk hwp).child?_edge hch
    obtain rfl := Option.some.inj (hce.symm.trans he')
    have hall' := ht.walk_all hall hwp
    obtain ⟨slot, n⟩ := s
    cases slot with
    | configs =>
      obtain ⟨hdir, ⟨str, hs⟩, -⟩ := id hedge
      exact ⟨fun _ => rfl, (hs.all hdir hall').self⟩
    | keys => exact ⟨nofun, hedge.simple hf hall'⟩
  refine ⟨⟨?_, by rw [hce]; exact hsimple.writable⟩, pre, s, e, rfl, hce,
    ht.drops_done hf.regular hreg hw (fun hst => h.valued _ _ _ (by simp) hw hst) hce
      hsimple.noChoice.kind⟩
  rcases he with ⟨hst, -⟩ | ⟨-, hst | ⟨hst, hcont⟩⟩
  · have hkeys := htc.keys_nil (by simp [hst])
    have hconf := htc.configs_nil (by simp [Cursor.isDir, hst])
    simp [Config.isValueLeaf, Config.isLeaf, Config.isKeyConfig, hkeys, hconf]
  · have hkeys := htc.keys_nil (by simp [hst])
    obtain ⟨e', he', hkind⟩ := ht.key_leaf hf hall hw hst
    simp [Config.isValueLeaf, Config.isLeaf, Config.isKeyConfig, hkeys, he', hkind]
  · have hk : s.slot = .configs := by
      cases hs : s.slot with
      | configs => rfl
      | keys =>
        rw [hs] at hst
        simp only [Cursor.child, Cursor.enterKey] at hst
        split at hst <;> cases hst
    rw [hslot hk] at hcont
    simp [Config.isContainer, hce, hcont]

/-- A `delete` line cuts the tree at its place where that has the value. -/
theorem delete_shown (h : Built env ent root) (hword : root.Worded)
    (hl : (Cursor.root ent).follow env l = some cur₁) (hne : l ≠ []) (he : cur₁.Ends vals)
    (hshow : root.Shows l vals) : ∃ r, parseDelete root (l.map (·.name) ++ vals) = some r ∧
      r.code = .parseSuccess ∧ Cut ent root l r.tree := by
  obtain ⟨c, hg, hv⟩ := hshow.get
  have ht := h.edited.typed
  have hreg : ent.All Entry.Regular := hall.mono fun e he => he.regular
  have hw : root.walk (.root ent) l = some (cur₁, c) := ht.walk_root hl hg
  obtain ⟨pre, s, rfl⟩ : ∃ pre s, l = pre ++ [s] := by
    obtain h0 | ⟨pre, s, hps⟩ := List.eq_nil_or_concat l
    · exact absurd h0 hne
    · exact ⟨pre, s, by rw [hps, List.concat_eq_append]⟩
  obtain ⟨hacc, htaken⟩ := h.ends hf hall hw he
  have hleads := leads_root ht hword hl (by rw [hg]; rfl)
  have hend : vals = [] ∧ (∃ token t, ((pre ++ [s]).map (·.name)).getLast? = some token ∧
      (pre ++ [s]).getLast? = some t ∧ matchKeyword token t.name = .typeExact) ∨
      c.hasDir = false ∧ c.Fits 0 vals := by
    rcases he with ⟨hst, v, rfl⟩ | ⟨rfl, -⟩
    · obtain ⟨hcv, hd, hll⟩ := h.values_leaf hne hw hst
      refine .inr ⟨hd, c.value, by rw [Config.valueAt, hll]; rfl, ?_⟩
      rw [← (List.cons.inj (hcv.symm.trans hv)).1]
      exact matchKeyword_self _
    · exact .inl ⟨rfl, s.name, s, by simp, by simp, matchKeyword_self _⟩
  obtain ⟨r, hr, hs, htree⟩ := @parseDeleteFrom_of_accepts root [] (pre ++ [s])
    ((pre ++ [s]).map (·.name) ++ vals) {} rfl ⟨_, vals, c, rfl, hleads, hg, hacc, hend⟩
  exact ⟨r, hr, hs, by rw [htree]; exact delete_taken hf.regular hreg h.edited hg htaken⟩

/-- Where the inner keys are in the tree, words lead to the place that they are the names of. -/
theorem Leads.forced (h : Built env ent root) (hword : root.Worded) (hnames : ∀ s ∈ l, OneWord s.name)
    (hw : root.walk (.root ent) pre = some (cur, c)) (hl : cur.follow env l = some cur₁)
    (halone : cur.alone env l = true) (he : cur₁.Ends vals) (hkeys : root.HasKeys (pre ++ l))
    {p vs : List String} (hleads : Leads root pre p l') (heq : l.map (·.name) ++ vals = p ++ vs)
    (hend : vs = [] ∧ (∀ token t, p.getLast? = some token → l'.getLast? = some t →
        matchKeyword token t.name = .typeExact) ∨
      vs ≠ [] ∧ ∃ d, root.get? l' = some d ∧ d.hasDir = false) : l' = pre ++ l ∧ vs = vals := by
  have ht := h.edited.typed
  induction l generalizing pre cur c p with
  | nil =>
    cases hl
    cases hleads with
    | here => exact ⟨(List.append_nil _).symm, heq.symm⟩
    | child hg hd _ _ =>
      -- No name leads on from a leaf.
      exfalso
      rcases he with ⟨hst, -⟩ | ⟨rfl, -⟩
      · have hne : pre ≠ [] := by
          rintro rfl
          cases hw
          cases hst
        obtain rfl := Option.some.inj ((Config.get?_of_walk hw).symm.trans hg)
        rw [(h.values_leaf hne hw hst).2.1] at hd
        cases hd
      · cases heq
  | cons s l ih =>
    have hg := Config.get?_of_walk hw
    have hi : cur.isNode = true := by
      obtain ⟨slot, n⟩ := s
      cases slot with
      | configs => rw [Cursor.isNode, (Cursor.follow_configs hl).1, Bool.true_or]
      | keys => simp [Cursor.isNode, (Cursor.follow_keys hl).1]
    cases hleads with
    | here =>
      exfalso
      rcases hend with ⟨rfl, -⟩ | ⟨-, d, hgd, hd⟩
      · cases heq
      · obtain rfl := Option.some.inj (hg.symm.trans hgd)
        rw [h.hasDir hf hall hw hi] at hd
        cases hd
    | @child _ _ c' token path t hg' _ hx hleads =>
      obtain rfl := Option.some.inj (hg.symm.trans hg')
      obtain ⟨rfl, hrest⟩ := List.cons.inj heq
      have hmem := hx.mem
      obtain ⟨d, hd⟩ := Option.isSome_iff_exists.mp (Config.mem_steps.mp hmem)
      have hslot := (ht.of_walk hw).child_slot hl hd
      have hm : matchKeyword s.name t.name ≠ .typeNone := by
        intro h0
        have hpos : 0 < (matchKeyword s.name t.name).rank := hx.1
        rw [h0] at hpos
        cases hpos
      obtain rfl : t = s := by
        cases hs : s.slot with
        | configs => exact (ht.of_walk hw).child_alone (ht.walk_all hall hw) halone hs hslot hd hm
        | keys =>
          obtain ⟨slot, n⟩ := s
          obtain rfl : slot = .keys := hs
          by_cases hlast : l = []
          · -- The last key is named in full.
            subst hlast
            obtain ⟨-, hcur⟩ := Cursor.follow_keys hl
            cases hcur
            have hvals : vals = [] := by
              rcases he with ⟨hst, -⟩ | ⟨rfl, -⟩
              · simp only [Cursor.enterKey] at hst
                split at hst <;> cases hst
              · rfl
            subst hvals
            obtain ⟨rfl, rfl⟩ := List.append_eq_nil_iff.mp (show path ++ vs = [] from hrest.symm)
            cases hleads
            rcases hend with ⟨-, hm⟩ | ⟨hne, -⟩
            · have := matchKeyword_exact (hnames _ List.mem_cons_self) (hword.step hg hmem)
                (hm _ _ rfl List.getLast?_concat)
              cases t
              simp only at this hslot
              rw [← this, hslot]
            · exact absurd rfl hne
          · have hkey := hkeys pre n l rfl hlast
            refine (ht.picks_follow hword hw hl ?_).unique hx
            rwa [Config.get?_append, hg, Option.bind_some, Config.get?_single] at hkey
      obtain ⟨e, hde, hl', ha⟩ := (ht.of_walk hw).child_follow hl hd
      rw [List.append_cons] at hkeys ⊢
      refine ih (fun s hs => hnames s (List.mem_cons_of_mem _ hs)) (Config.walk_snoc_eq hw hd hde) hl'
        (ha halone) hkeys hleads hrest ?_
      refine hend.imp_left (And.imp_right fun hm token x hp hlx => hm token x ?_ hlx)
      rw [List.getLast?_cons, hp]
      rfl

/-- A `delete` line is accepted only where the place has the value. -/
theorem delete_shows (h : Built env ent root) (hword : root.Worded) (hnames : ∀ s ∈ l, OneWord s.name)
    (hvals : ∀ v ∈ vals, OneWord v) (hl : (Cursor.root ent).follow env l = some cur₁) (hne : l ≠ [])
    (halone : (Cursor.root ent).alone env l = true) (he : cur₁.Ends vals) (hkeys : root.HasKeys l)
    (hp : parseDelete root (l.map (·.name) ++ vals) = some r) (hs : r.code = .parseSuccess) :
    root.Shows l vals := by
  have ht := h.edited.typed
  obtain ⟨l', ⟨p, vs, c, heq, hleads, hg, -, hend⟩, -⟩ := parseDeleteFrom_accepts (s := {}) rfl hp hs
  obtain ⟨hl', hvs⟩ : l' = [] ++ l ∧ vs = vals := by
    have hkeys' : root.HasKeys ([] ++ l) := hkeys
    refine Leads.forced hf hall h hword hnames rfl hl halone he hkeys' hleads heq ?_
    rcases hend with ⟨hvs, token, t, hp, hl', hm⟩ | ⟨hd, hfits⟩
    · refine .inl ⟨hvs, fun token' t' hp' ht' => ?_⟩
      cases hp.symm.trans hp'
      cases hl'.symm.trans ht'
      exact hm
    · exact .inr ⟨fun h0 => by rw [h0] at hfits; exact hfits, c, hg, hd⟩
  rw [List.nil_append] at hl'
  subst hl' hvs
  have hw : root.walk (.root ent) l' = some (cur₁, c) := ht.walk_root hl hg
  refine (Config.shows_iff hg).mpr ?_
  rcases he with ⟨hst, v, rfl⟩ | ⟨rfl, hst⟩
  · obtain ⟨hcv, -, hll⟩ := h.values_leaf hne hw hst
    rcases hend with ⟨hvs, -⟩ | ⟨-, w, hat, hm⟩
    · cases hvs
    · obtain ⟨-, rfl⟩ := Config.valueAt_value hat hll
      rw [hcv, matchKeyword_exact (hvals v (by simp)) (hword l' _ (Config.node?_eq hg)).2 hm]
  · exact Cursor.Ends.values (.inr ⟨rfl, hst⟩) (ht.of_walk hw).content

/-- A `delete` line whose inner keys are in the tree cuts it at its place if that has the value, and
else leaves it as it is. -/
theorem delete_at (h : Built env ent root) (hword : root.Worded) (hnames : ∀ s ∈ l, OneWord s.name)
    (hvals : ∀ v ∈ vals, OneWord v) (hl : (Cursor.root ent).follow env l = some cur₁) (hne : l ≠ [])
    (halone : (Cursor.root ent).alone env l = true) (he : cur₁.Ends vals) (hkeys : root.HasKeys l)
    (hp : parseDelete root (l.map (·.name) ++ vals) = some r) :
    Built env ent r.tree ∧ (root.Shows l vals ∧ Cut ent root l r.tree ∨
      ¬ root.Shows l vals ∧ r.tree = root) := by
  by_cases hs : r.code = .parseSuccess
  · have hshow := delete_shows hf hall h hword hnames hvals hl hne halone he hkeys hp hs
    obtain ⟨r', hr', -, hcut⟩ := delete_shown hf hall h hword hl hne he hshow
    obtain rfl := Option.some.inj (hp.symm.trans hr')
    exact ⟨.delete h hp hs, .inl ⟨hshow, hcut⟩⟩
  · have htree : r.tree = root := by
      obtain ⟨-, htree⟩ | ⟨hs', -⟩ := parseDelete_cases hp
      · exact htree
      · exact absurd hs' hs
    refine ⟨by rw [htree]; exact h, .inr ⟨fun hshow => ?_, htree⟩⟩
    obtain ⟨r', hr', hs', -⟩ := delete_shown hf hall h hword hl hne he hshow
    obtain rfl := Option.some.inj (hp.symm.trans hr')
    exact hs hs'

omit hf hall

/-- What a cut tree has at a place that is not above the cut. -/
theorem Cut.shows {tree : Config} (h : Cut ent root l tree) (hl : l' <+: l → l' = l) :
    tree.Shows l' vals ↔ root.Shows l' vals ∧ ¬ l <+: l' := by
  obtain ⟨pre, s, hpre, rfl⟩ := h.without
  by_cases hbelow : pre ++ [s] <+: l'
  · have hnone : (root.without pre s).get? l' = none := by
      obtain ⟨x, rfl⟩ := hbelow
      exact Config.get?_without_below x
    constructor
    · intro hshow
      obtain ⟨c, hg, -⟩ := hshow.get
      rw [hnone] at hg
      cases hg
    · rintro ⟨hshow, hnot⟩
      obtain ⟨c, hg, -⟩ := hshow.get
      rcases h.comparable (by rw [hg]; rfl) hnone with hle | hle
      · exact absurd (by rw [hl hle]) hnot
      · exact absurd hle hnot
  · have hnode := @Config.get?_without_ne root s pre l' hbelow
    have hnot : ¬ l <+: l' := fun hle => hbelow (hpre.trans hle)
    rw [Config.Shows, Config.Shows, Config.node?, Config.node?, hnode]
    simp [hnot]

theorem Cut.worded {tree : Config} (h : Cut ent root l tree) (hw : root.Worded) : tree.Worded := by
  obtain ⟨pre, s, -, rfl⟩ := h.without
  intro l' n hn
  by_cases hbelow : pre ++ [s] <+: l'
  · obtain ⟨x, rfl⟩ := hbelow
    rw [Config.node?, Config.get?_without_below x] at hn
    cases hn
  · rw [Config.node?, Config.get?_without_ne hbelow] at hn
    exact hw l' n hn

/-- The last key of a list stays when what is below it goes. -/
theorem Cut.keeps_key {tree : Config} (h : Cut ent root (pre ++ l) tree) (hne : l ≠ [])
    (hw : root.walk (.root ent) pre = some (cur, c)) (hk : cur.state = .stateKeyMatched)
    (hd : ∀ e, c.entry = some e → e.kind = .leaf) : (tree.get? pre).isSome := by
  have hg := Config.get?_of_walk hw
  generalize hL : pre ++ l = L at h
  induction h generalizing l with
  | @stop q s =>
    have hnot : ¬ q ++ [s] <+: pre := by
      rintro ⟨x, hx⟩
      have := congrArg List.length hL
      have := congrArg List.length hx
      have := List.length_pos_iff.mpr hne
      simp only [List.length_append, List.length_singleton] at *
      omega
    have hnode := @Config.get?_without_ne root s q pre hnot
    rw [hg] at hnode
    cases hget : (root.without q s).get? pre with
    | none => rw [hget] at hnode; cases hnode
    | some d => rfl
  | @climb q s r hh hcut ih =>
    obtain ⟨l₀, t, rfl⟩ := (List.eq_nil_or_concat l).resolve_left hne
    rw [List.concat_eq_append, ← List.append_assoc] at hL
    obtain ⟨rfl, -⟩ := List.append_inj' hL rfl
    refine ih ?_ rfl
    rintro rfl
    -- The key is not an inner node.
    rw [List.append_nil] at hh
    obtain ⟨-, cur', c', hw', hin, -⟩ := hh
    obtain ⟨rfl, rfl⟩ := Prod.mk.inj (Option.some.inj (hw.symm.trans hw'))
    rcases hin with ⟨e, he, hkind, -⟩ | ⟨-, hst⟩
    · rw [hd e he] at hkind
      cases hkind
    · rw [hk] at hst
      cases hst

end

/-! ## The command -/

/-- `ExecLine` with the words of a `set` line: `YParseSet` checks them and `YangSet` carries out what
it has taken. -/
def execSet (env : Env) (ent : Entry) (candidate : Config) (words : List String) : Option Config :=
  let (args, res) := yParseSet env ent candidate ("set" :: words) false
  res.bind fun r => if r.code = .parseSuccess then yangSet env ent candidate args else some candidate

/-- `ExecLine` with the words of a `delete` line. -/
def execDelete (candidate : Config) (words : List String) : Option Config :=
  (parseDelete candidate words).map (·.tree)

/-- The command parser takes the `set` line. -/
def Takes (env : Env) (ent : Entry) (words : List String) : Prop :=
  (parse env ent {} words).map (·.code) = some .parseSuccess

instance (words : List String) : Decidable (Takes env ent words) := inferInstanceAs (Decidable (_ = _))

/-- Whether the words are taken does not depend on the candidate. -/
theorem takes_iff {root : Config} {words : List String} :
    Takes env ent words ↔ (parse env ent root words).map (·.code) = some .parseSuccess := by
  rw [Takes, parse_eq_plan, parse_eq_plan, Option.map_map, Option.map_map]
  rfl

theorem execSet_cases {root tree : Config} {words : List String} (hne : words ≠ [])
    (h : execSet env ent root words = some tree) :
    (∃ r, parse env ent root words = some r ∧ r.code = .parseSuccess ∧ r.tree = tree) ∧
        Takes env ent words ∨
      tree = root ∧ ¬ Takes env ent words := by
  have hargs : (yParseSet env ent root ("set" :: words) false).1 = words := by
    rw [yParseSet]
    exact if_neg (by simpa using hne)
  rw [execSet] at h
  obtain ⟨r, hr, h⟩ := Option.bind_eq_some_iff.mp h
  have hcode : (parse env ent root words).map (·.code) = some r.code := by
    have hcheck : parseComplete env ent root words false = some r := by
      simpa [yParseSet, hne] using hr
    rw [← parseComplete_code ent root words false, hcheck, Option.map_some]
  split at h
  · rename_i hs
    obtain ⟨r', hr', htree⟩ := Option.map_eq_some_iff.mp (hargs ▸ h :
      yangSet env ent root words = some tree)
    rw [hs] at hcode
    rw [hr', Option.map_some] at hcode
    exact .inl ⟨⟨r', hr', Option.some.inj hcode, htree⟩, takes_iff.mpr (by rw [hr']; exact hcode)⟩
  · rename_i hs
    refine .inr ⟨(Option.some.inj h).symm, fun ht => hs ?_⟩
    exact Option.some.inj (hcode.symm.trans (takes_iff.mp ht))

/-- The words of a line: the names on the way, and the value. -/
def lineWords (l : Loc) (vals : List String) : List String := l.map (·.name) ++ vals

/-- The place and the value that a line is about. -/
structure LinePlace (env : Env) (ent : Entry) (l : Loc) (vals : List String) : Prop where
  ne : l ≠ []
  follow : ∃ cur, (Cursor.root ent).follow env l = some cur ∧ cur.Ends vals

/-- The place is that of a key which no other key follows. -/
def LastKey (env : Env) (ent : Entry) (l : Loc) : Prop :=
  ∃ cur, (Cursor.root ent).follow env l = some cur ∧ cur.state = .stateKeyMatched

/-- The tree of successful lines, whose words are without white space. -/
structure Kept (env : Env) (ent : Entry) (root : Config) : Prop where
  built : Built env ent root
  worded : root.Worded

theorem Config.get?_empty {l : Loc} (hl : l ≠ []) : ({} : Config).get? l = none :=
  Config.get?_bare {} hl

/-- The empty tree shows nothing. -/
theorem Config.not_shows_empty {l : Loc} (hl : l ≠ []) (vals : List String) :
    ¬ ({} : Config).Shows l vals := by
  intro h
  obtain ⟨c, hg, -⟩ := h.get
  rw [Config.get?_empty hl] at hg
  cases hg

theorem Kept.empty : Kept env ent {} := by
  refine ⟨.empty, fun l n hn => ?_⟩
  by_cases hl : l = []
  · subst hl
    cases hn
    exact ⟨by decide, by decide⟩
  · rw [Config.node?, Config.get?_empty hl] at hn
    cases hn

theorem Cursor.Ends.isNode {cur : Cursor} {vals : List String} (h : cur.Ends vals) (hne : vals ≠ []) :
    cur.isNode = false := by
  rcases h with ⟨hst, -⟩ | ⟨rfl, -⟩
  · simp [Cursor.isNode, Cursor.isDir, hst]
  · exact absurd rfl hne

section

variable {root tree : Config} {l l' k : Loc} {vals vals' : List String}

theorem Config.Shows.inj (h : root.Shows l vals) (h' : root.Shows l vals') : vals = vals' := by
  obtain ⟨n, hn, rfl⟩ := h
  obtain ⟨n', hn', rfl⟩ := h'
  rw [Option.some.inj (hn.symm.trans hn')]

/-- A place that a line can end with shows no value, if it is in the tree. -/
theorem Kept.shows (h : Kept env ent root) (hl : LinePlace env ent l [])
    (hg : (root.get? l).isSome) : root.Shows l [] := by
  obtain ⟨cur, hfollow, hends⟩ := hl.follow
  obtain ⟨c, hg⟩ := Option.isSome_iff_exists.mp hg
  have ht := h.built.edited.typed
  have hw : root.walk (.root ent) l = some (cur, c) :=
    ht.walk_root hfollow hg
  refine (Config.shows_iff hg).mpr (hends.values (ht.of_walk hw).content)

variable (hf : FindsSimple env) (hall : ent.All Entry.Simple) (h : Kept env ent root)
  (hl : LinePlace env ent l vals) (hnames : ∀ s ∈ l, OneWord s.name) (hvals : ∀ v ∈ vals, OneWord v)

include hf hall h hl hnames hvals

theorem execSet_at (he : execSet env ent root (lineWords l vals) = some tree) : Kept env ent tree ∧
    (Takes env ent (lineWords l vals) ∧ tree.Shows l vals ∧
        (∀ l', ¬ l' <+: l → tree.get? l' = root.get? l') ∨
      ¬ Takes env ent (lineWords l vals) ∧ tree = root) := by
  obtain ⟨cur, hfollow, hends⟩ := hl.follow
  have hne : lineWords l vals ≠ [] := by simp [lineWords, hl.ne]
  rcases execSet_cases hne he with ⟨⟨r, hp, hs, rfl⟩, ht⟩ | ⟨rfl, ht⟩
  · have hset := set_at hf hall h.built hp hs hfollow hends.isNode
    exact ⟨⟨.set h.built hp hs,
      set_worded hf hall h.built hp hs hfollow hends.isNode h.worded hnames hvals⟩, .inl ⟨ht, hset⟩⟩
  · exact ⟨h, .inr ⟨ht, rfl⟩⟩

/-- What the places that are not above that of a `set` line have after it. -/
theorem execSet_shows (he : execSet env ent root (lineWords l vals) = some tree)
    (hl' : l' <+: l → l' = l) : tree.Shows l' vals' ↔
      if Takes env ent (lineWords l vals) ∧ l' = l then vals' = vals else root.Shows l' vals' := by
  obtain ⟨-, ⟨ht, hshow, hframe⟩ | ⟨ht, rfl⟩⟩ := execSet_at hf hall h hl hnames hvals he
  · by_cases heq : l' = l
    · subst heq
      rw [if_pos ⟨ht, rfl⟩]
      exact ⟨fun h' => h'.inj hshow, fun h' => h' ▸ hshow⟩
    · rw [if_neg fun h' => heq h'.2, Config.Shows, Config.node?, hframe l' (mt hl' heq)]
      rfl
  · rw [if_neg fun h' => ht h'.1]

theorem execSet_keeps (he : execSet env ent root (lineWords l vals) = some tree)
    (hk : (root.get? k).isSome) : (tree.get? k).isSome := by
  obtain ⟨-, ⟨-, hshow, hframe⟩ | ⟨-, rfl⟩⟩ := execSet_at hf hall h hl hnames hvals he
  · by_cases hpre : k <+: l
    · obtain ⟨x, rfl⟩ := hpre
      obtain ⟨c, hg, -⟩ := hshow.get
      exact Config.get?_prefix (show (tree.get? (k ++ x)).isSome = true by rw [hg]; rfl)
    · rwa [hframe k hpre]
  · exact hk

variable (halone : (Cursor.root ent).alone env l = true) (hkeys : root.HasKeys l)

include halone hkeys

theorem execDelete_at (he : execDelete root (lineWords l vals) = some tree) : Kept env ent tree ∧
    (root.Shows l vals ∧ Cut ent root l tree ∨ ¬ root.Shows l vals ∧ tree = root) := by
  obtain ⟨cur, hfollow, hends⟩ := hl.follow
  obtain ⟨r, hp, rfl⟩ := Option.map_eq_some_iff.mp he
  obtain ⟨hb, hcut⟩ :=
    delete_at hf hall h.built h.worded hnames hvals hfollow hl.ne halone hends hkeys hp
  refine ⟨⟨hb, ?_⟩, hcut⟩
  rcases hcut with ⟨-, hcut⟩ | ⟨-, heq⟩
  · exact hcut.worded h.worded
  · rw [heq]
    exact h.worded

/-- What the places that are not above that of a `delete` line have after it. -/
theorem execDelete_shows (he : execDelete root (lineWords l vals) = some tree)
    (hl' : l' <+: l → l' = l) : tree.Shows l' vals' ↔
      root.Shows l' vals' ∧ ¬ (root.Shows l vals ∧ l <+: l') := by
  obtain ⟨-, ⟨hshow, hcut⟩ | ⟨hshow, rfl⟩⟩ := execDelete_at hf hall h hl hnames hvals halone hkeys he
  · rw [hcut.shows hl']
    simp [hshow]
  · simp [hshow]

/-- The last key of a list stays when a line deletes something below it. -/
theorem execDelete_keeps (he : execDelete root (lineWords l vals) = some tree)
    (hlast : LastKey env ent k) (hnot : ¬ l <+: k) (hk : (root.get? k).isSome) : (tree.get? k).isSome := by
  obtain ⟨-, ⟨-, hcut⟩ | ⟨-, rfl⟩⟩ := execDelete_at hf hall h hl hnames hvals halone hkeys he
  · by_contra hgone
    have hnone : tree.get? k = none := by simpa using hgone
    rcases hcut.comparable hk hnone with ⟨x, rfl⟩ | hle
    · obtain ⟨c, hg⟩ := Option.isSome_iff_exists.mp hk
      obtain ⟨cur, hfollow, hst⟩ := hlast
      have ht := h.built.edited.typed
      have hw : root.walk (.root ent) k = some (cur, c) :=
        ht.walk_root hfollow hg
      obtain ⟨e, he, hkind⟩ := ht.key_leaf hf hall hw hst
      refine hgone (hcut.keeps_key ?_ hw hst fun e' he' => ?_)
      · rintro rfl
        exact hnot (by rw [List.append_nil])
      · obtain rfl := Option.some.inj (he.symm.trans he')
        exact hkind
    · exact hnot hle
  · exact hk

end

/-! ## Schemas -/

/-- A leaf of a schema. -/
def leafOf (name : String) (type : YangType) : Entry :=
  { name, kind := .leaf, parentKind := some .directory, type := some type }

/-- A container. -/
def containerOf (name : String) (dir : List Entry) : Entry :=
  { name, kind := .directory, parentKind := some .directory, dir }

/-- A list with its key. -/
def listOf (name key : String) (dir : List Entry) : Entry :=
  { name, kind := .directory, parentKind := some .directory, listAttr := true, key, dir }

end OpenConfigd
