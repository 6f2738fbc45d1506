import OpenConfigd.Config.Copy
import OpenConfigd.Config.Edit
import OpenConfigd.Config.Rebuild

/-!
# Trees alike but for the case of nodes

Two trees are alike when they have the same nodes in the same order, and the nodes of
the second have the `Case` of those of the first or, where all entries of choices among
the next tokens are of one case, none (`Alike`). `exclude` then drops the same nodes of
both. Every call leaves the trees alike (`Trace.alike`, `Alike.delete`), and what it
returns is the same.
-/

namespace OpenConfigd

variable {env : Env} {ent : Entry}

/-- `sort.Sort` sees the elements of a slice through `Less` alone. -/
def SortsByLess (env : Env) : Prop :=
  ∀ {α β : Type} (f : α → β) (less : β → β → Bool) (l : List α),
    env.sort less (l.map f) = (env.sort (fun a b => less (f a) (f b)) l).map f

/-- Slices that `Less` cannot tell apart are sorted alike. -/
theorem SortsByLess.rel {α : Type} {less : α → α → Bool} {R : α → α → Prop} {l l' : List α}
    (hsort : SortsByLess env) (hR : ∀ a a' b b', R a a' → R b b' → less a b = less a' b')
    (h : List.Forall₂ R l l') : List.Forall₂ R (env.sort less l) (env.sort less l') := by
  -- Both slices are parts of one slice of pairs, on which the two orders are one.
  obtain ⟨ps, rfl, rfl⟩ : ∃ ps : List {p : α × α // R p.1 p.2},
      ps.map (fun p => p.1.1) = l ∧ ps.map (fun p => p.1.2) = l' := by
    induction h with
    | nil => exact ⟨[], rfl, rfl⟩
    | @cons a b l l' hab _ ih =>
      obtain ⟨ps, rfl, rfl⟩ := ih
      exact ⟨⟨(a, b), hab⟩ :: ps, rfl, rfl⟩
  have hless : (fun p q : {p : α × α // R p.1 p.2} => less p.1.1 q.1.1) =
      fun p q => less p.1.2 q.1.2 := by
    funext p q
    exact hR _ _ _ _ p.2 q.2
  rw [hsort, hsort, hless, List.forall₂_map_left_iff, List.forall₂_map_right_iff, List.forall₂_same]
  exact fun p _ => p.2

/-- The entries of choices among the next tokens are of one case. -/
def Cursor.OneCase (env : Env) (cur : Cursor) : Prop :=
  ∀ str e str' e', cur.Selects env str e → cur.Selects env str' e' → (caseEntry e).isSome →
    (caseEntry e').isSome → caseEntry e = caseEntry e'

/-- The cursor on a child. -/
def Cursor.childOf (cur : Cursor) (s : Slot) (d : Config) : Cursor :=
  match d.entry with
  | some e => cur.child s e
  | none => cur

theorem Cursor.childOf_eq {cur : Cursor} {s : Slot} {d : Config} {e : Entry} (h : d.entry = some e) :
    cur.childOf s d = cur.child s e := by
  rw [childOf, h]

/-- The case of the second node is that of the first, or missing where it has no rival. -/
def LikeCase (env : Env) (cur : Cursor) (d d' : Config) : Prop :=
  d'.case = d.case ∨ d'.case = none ∧ cur.OneCase env

/-- The text of a node starts with what there is to see of the node. -/
theorem jsonHead_seen (n : Node) {p p' : Node} (e : Entry) (hp : p'.keyOnlyConfig = p.keyOnlyConfig) :
    jsonHead n.seen p' e = jsonHead n p e := by
  have hvalues (vs : List String) : n.seen.jsonValues vs = n.jsonValues vs := by
    fun_induction Node.jsonValues n vs with
    | case1 => rfl
    | case2 v => rfl
    | case3 v vs _ ih =>
      rw [Node.jsonValues, ih]
      · rfl
      · assumption
  have hlist : n.seen.jsonMarshalLeafList = n.jsonMarshalLeafList := by
    rw [Node.jsonMarshalLeafList, Node.jsonMarshalLeafList, hvalues]
    rfl
  simp only [jsonHead, hp, hlist]
  rfl

/-- The node with another case. -/
def Node.withCase (n : Node) (case : Option (List String)) : Node := { n with case := case }

mutual

/-- The trees are the same but for the case of their nodes, which the second may miss
where it has no rival. -/
def Alike (env : Env) : Cursor → Config → Config → Prop
  | cur, ⟨n, configs, keys⟩, c' => c'.toNode = n.withCase c'.case ∧
    AlikeSlot env cur .configs configs c'.configs ∧ AlikeSlot env cur .keys keys c'.keys

/-- So are the trees of a slice, one by one. -/
def AlikeSlot (env : Env) : Cursor → Slot → List Config → List Config → Prop
  | _, _, [], [] => True
  | cur, s, c :: cs, c' :: cs' =>
    LikeCase env cur c c' ∧ Alike env (cur.childOf s c) c c' ∧ AlikeSlot env cur s cs cs'
  | _, _, _, _ => False

end

/-- The children are alike. -/
def Twins (env : Env) (cur : Cursor) (s : Slot) (d d' : Config) : Prop :=
  LikeCase env cur d d' ∧ Alike env (cur.childOf s d) d d'

section

variable {cur : Cursor} {c c' d d' : Config} {s : Slot} {l : Loc}

theorem alikeSlot_iff {cs cs' : List Config} :
    AlikeSlot env cur s cs cs' ↔ List.Forall₂ (Twins env cur s) cs cs' := by
  induction cs generalizing cs' with
  | nil =>
    cases cs' with
    | nil => simp [AlikeSlot]
    | cons c' cs' => simp [AlikeSlot]
  | cons c cs ih =>
    cases cs' with
    | nil => simp [AlikeSlot]
    | cons c' cs' => rw [AlikeSlot, List.forall₂_cons, ih, Twins, and_assoc]

theorem alike_iff : Alike env cur c c' ↔ c'.toNode = c.toNode.withCase c'.case ∧
    ∀ s, List.Forall₂ (Twins env cur s) (c.slot s) (c'.slot s) := by
  obtain ⟨n, configs, keys⟩ := c
  rw [Alike, alikeSlot_iff, alikeSlot_iff]
  refine and_congr_right fun _ => ⟨fun h s => ?_, fun h => ⟨h .configs, h .keys⟩⟩
  cases s
  · exact h.1
  · exact h.2

namespace Alike

theorem node (h : Alike env cur c c') : c'.toNode = c.toNode.withCase c'.case :=
  (alike_iff.mp h).1

theorem slot (h : Alike env cur c c') (s : Slot) :
    List.Forall₂ (Twins env cur s) (c.slot s) (c'.slot s) :=
  (alike_iff.mp h).2 s

theorem name (h : Alike env cur c c') : c'.name = c.name := by
  rw [show c'.name = c'.toNode.name from rfl, h.node]
  rfl

theorem entry (h : Alike env cur c c') : c'.entry = c.entry := by
  rw [show c'.entry = c'.toNode.entry from rfl, h.node]
  rfl

theorem isEmpty_slot (h : Alike env cur c c') :
    c'.configs.isEmpty = c.configs.isEmpty ∧ c'.keys.isEmpty = c.keys.isEmpty := by
  have hslot (s : Slot) : (c'.slot s).isEmpty = (c.slot s).isEmpty := by
    have := (h.slot s).length_eq
    rw [Bool.eq_iff_iff, List.isEmpty_iff_length_eq_zero, List.isEmpty_iff_length_eq_zero, this]
  exact ⟨hslot .configs, hslot .keys⟩

end Alike

theorem Twins.name_eq (h : Twins env cur s d d') : d.name = d'.name := h.2.name.symm

namespace Alike

theorem child? (h : Alike env cur c c') (s : Step) :
    Option.Rel (Twins env cur s.slot) (c.child? s) (c'.child? s) :=
  Keyed.rel_get (fun _ _ h => Twins.name_eq h) (h.slot s.slot) s.name

theorem child_some {s : Step} (h : Alike env cur c c') (hd : c.child? s = some d) :
    ∃ d', c'.child? s = some d' ∧ Twins env cur s.slot d d' := by
  have ht := h.child? s
  generalize c'.child? s = o at ht
  rw [hd] at ht
  cases ht with
  | some ht => exact ⟨_, rfl, ht⟩

theorem get_walk {cur₁ : Cursor} {p : Config} (h : Alike env cur c c')
    (hw : c.walk cur l = some (cur₁, p)) : ∃ p', c'.get? l = some p' ∧ Alike env cur₁ p p' := by
  induction l generalizing c c' cur with
  | nil =>
    cases hw
    exact ⟨c', rfl, h⟩
  | cons s l ih =>
    rw [Config.walk] at hw
    split at hw
    · cases hw
    · rename_i d hd
      split at hw
      · cases hw
      · rename_i e he
        obtain ⟨d', hd', ht⟩ := h.child_some hd
        rw [Config.get?_cons, hd']
        rw [Option.bind_some]
        rw [← Cursor.childOf_eq he] at hw
        exact ih ht.2 hw

/-! ## What there is to see -/

theorem copy_eq (h : Alike env cur c c') : c.copy = c'.copy := by
  induction c using Config.ind generalizing c' cur with
  | h c ih =>
    refine Config.ext' ?_ fun s => ?_
    · rw [Config.copy_toNode, Config.copy_toNode, h.node]
      rfl
    · rw [Config.slot_copy, Config.slot_copy]
      have hs := h.slot s
      have hih := ih s
      generalize c.slot s = cs at hs hih
      generalize c'.slot s = cs' at hs
      induction hs with
      | nil => rfl
      | @cons d d' cs cs' ht _ ihs =>
        rw [List.map_cons, List.map_cons, hih d List.mem_cons_self ht.2,
          ihs fun b hb => hih b (List.mem_cons_of_mem _ hb)]

theorem get?_isSome (h : Alike env cur c c') (l : Loc) : (c'.get? l).isSome = (c.get? l).isSome := by
  have := congrArg (fun o => o.isSome) ((c.get?_copy l).symm.trans (h.copy_eq ▸ c'.get?_copy l))
  simpa using this.symm

theorem jsonMarshalSlot {cs cs' : List Config} {n n' : Node}
    (h : List.Forall₂ (fun d d' => ∀ pos, d'.jsonMarshal n' pos = d.jsonMarshal n pos) cs cs') (pos : Nat) :
    Config.jsonMarshalSlot cs' n' pos = Config.jsonMarshalSlot cs n pos := by
  induction h generalizing pos with
  | nil => rw [Config.jsonMarshalSlot_nil, Config.jsonMarshalSlot_nil]
  | cons hd _ ih => rw [Config.jsonMarshalSlot_cons, Config.jsonMarshalSlot_cons, hd, ih]

/-- `JsonMarshal` does not look at cases. -/
theorem jsonMarshal {parent parent' : Node} (h : Alike env cur c c')
    (hp : parent'.keyOnlyConfig = parent.keyOnlyConfig) (pos : Nat) :
    c'.jsonMarshal parent' pos = c.jsonMarshal parent pos := by
  induction c using Config.ind generalizing c' cur parent parent' pos with
  | h c ih =>
    have hslot (s : Slot) (pos : Nat) : Config.jsonMarshalSlot (c'.slot s) c'.toNode pos =
        Config.jsonMarshalSlot (c.slot s) c.toNode pos := by
      refine jsonMarshalSlot ?_ pos
      refine ((List.forall₂_and_left _ _).mpr ⟨ih s, h.slot s⟩).imp fun d d' ⟨hd, ht⟩ => ?_
      exact hd ht.2 (by rw [h.node]; rfl)
    have hnode := h.node
    have hempty := h.isEmpty_slot
    have hk := hslot .keys
    have hc := hslot .configs
    obtain ⟨n, configs, keys⟩ := c
    obtain ⟨n', configs', keys'⟩ := c'
    simp only [Config.slot] at hk hc hnode hempty
    rw [Config.jsonMarshal_eq, Config.jsonMarshal_eq, hempty.1, hempty.2]
    simp only [hk, hc, hp]
    generalize n'.case = case at hnode
    subst hnode
    have hhead (e : Entry) : jsonHead (n.withCase case) parent' e = jsonHead n parent e :=
      (jsonHead_seen (n.withCase case) e rfl).symm.trans (jsonHead_seen n e hp)
    simp only [hhead]
    rfl

theorem jsonMarshalTop (h : Alike env cur c c') : c'.jsonMarshalTop = c.jsonMarshalTop := by
  have hslot (s : Slot) : Config.jsonMarshalSlot (c'.slot s) c'.toNode 0 =
      Config.jsonMarshalSlot (c.slot s) c.toNode 0 := by
    refine jsonMarshalSlot ((h.slot s).imp fun d d' ht => ?_) 0
    exact ht.2.jsonMarshal (by rw [h.node]; rfl)
  have hk := hslot .keys
  have hc := hslot .configs
  simp only [Config.slot] at hk hc
  rw [Config.jsonMarshalTop, Config.jsonMarshalTop, h.isEmpty_slot.2, hk, hc]

end Alike

/-- The fields a change of a node keeps. -/
structure KeepsKin (g : Config → Config) : Prop where
  name : KeepsName g
  entry : ∀ c, (g c).entry = c.entry
  case : ∀ c, (g c).case = c.case

theorem KeepsKin.of_toNode {g : Config → Config} (h : ∀ c, (g c).toNode = c.toNode) : KeepsKin g :=
  ⟨fun c => congrArg Node.name (h c), fun c => congrArg Node.entry (h c),
    fun c => congrArg Node.case (h c)⟩

theorem KeepsKin.modify {g : Config → Config} (h : KeepsKin g) (l : Loc) :
    KeepsKin fun c => c.modify l g := by
  cases l with
  | nil => exact h
  | cons s l => exact .of_toNode fun c => Config.modify_toNode c s l g

namespace Alike

/-! ## Changes -/

/-- A change of two nodes that leaves them alike leaves their trees alike. -/
theorem modify {g : Config → Config} {cur₁ : Cursor} {p : Config} (h : Alike env cur c c')
    (hw : c.walk cur l = some (cur₁, p)) (hg : KeepsKin g)
    (hp : ∀ p', Alike env cur₁ p p' → Alike env cur₁ (g p) (g p')) :
    Alike env cur (c.modify l g) (c'.modify l g) := by
  induction l generalizing c c' cur with
  | nil =>
    cases hw
    exact hp c' h
  | cons s l ih =>
    rw [Config.walk] at hw
    split at hw
    · cases hw
    · rename_i d hd
      split at hw
      · cases hw
      · rename_i e he
        have hk := hg.modify l
        refine alike_iff.mpr ⟨?_, fun t => ?_⟩
        · have hnode (b : Config) : (b.modify (s :: l) g).toNode = b.toNode := Config.modify_toNode b s l g
          rw [show (c'.modify (s :: l) g).case = c'.case from congrArg Node.case (hnode c'), hnode,
            hnode]
          exact h.node
        · rw [Config.modify, Config.modify, Config.slot_modifyChild, Config.slot_modifyChild]
          split
          · rename_i ht
            subst ht
            refine Keyed.rel_modify (fun _ _ h => Twins.name_eq h) (h.slot s.slot) fun a b ha hb hab => ?_
            obtain rfl : d = a := Option.some.inj (hd.symm.trans ha)
            refine ⟨?_, ?_⟩
            · rw [LikeCase, hk.case, hk.case]
              exact hab.1
            · have hcur : cur.childOf s.slot (d.modify l g) = cur.child s.slot e :=
                Cursor.childOf_eq ((hk.entry d).trans he)
              rw [hcur]
              exact ih (Cursor.childOf_eq he ▸ hab.2) hw
          · exact h.slot t

/-- A change of the fields of a node. -/
theorem value {g : Config → Config} {f : Node → Node} {cur₁ : Cursor} {p : Config}
    (h : Alike env cur c c') (hw : c.walk cur l = some (cur₁, p)) (hg : KeepsKin g)
    (hs : ∀ c s, (g c).slot s = c.slot s) (hn : ∀ c, (g c).toNode = f c.toNode)
    (hf : ∀ n case, f (n.withCase case) = (f n).withCase case) :
    Alike env cur (c.modify l g) (c'.modify l g) := by
  refine h.modify hw hg fun p' hp => alike_iff.mpr ⟨?_, fun s => ?_⟩
  · rw [hg.case, hn, hn]
    exact (congrArg f hp.node).trans (hf _ _)
  · rw [hs, hs]
    exact hp.slot s

theorem refl (cur : Cursor) (c : Config) : Alike env cur c c := by
  induction c using Config.ind generalizing cur with
  | h c ih =>
    refine alike_iff.mpr ⟨rfl, fun s => List.forall₂_same.mpr fun d hd => ?_⟩
    exact ⟨.inl rfl, ih s d hd _⟩

theorem less {cur₁ cur₂ : Cursor} {s₁ s₂ : Slot} {a a' b b' : Config} (ha : Twins env cur₁ s₁ a a')
    (hb : Twins env cur₂ s₂ b b') : configLess a b = configLess a' b' := by
  rw [configLess, configLess, priority, priority, priority, priority, ha.2.name, ha.2.entry, hb.2.name,
    hb.2.entry]

/-- `exclude` drops the same nodes. -/
theorem kept {str : String} {e : Entry} (h : Alike env cur c c') (ht : Typed env cur c)
    (hs : cur.Selects env str e) :
    List.Forall₂ (Twins env cur .configs) (c.kept e) (c'.kept e) := by
  rw [Config.kept, Config.kept]
  split
  · rename_i he
    have hslot : List.Forall₂ (fun d d' => d ∈ c.configs ∧ Twins env cur .configs d d')
        c.configs c'.configs := (List.forall₂_and_left _ _).mpr ⟨fun _ hd => hd, h.slot .configs⟩
    refine (List.rel_filter (fun d d' hdd => ?_) hslot).imp fun _ _ h => h.2
    obtain ⟨hd, hcase | ⟨hnone, hone⟩, -⟩ := hdd <;> beta_reduce
    · rw [hcase]
    · -- A node that lost its case has no rival here.
      rw [hnone]
      obtain ⟨e', hedge⟩ := ht.edge .configs d hd
      obtain ⟨-, ⟨str', hs'⟩, -⟩ := id hedge
      have hdcase : d.case = caseEntry e' := hedge.case_configs
      simp only [Option.isNone_none, Bool.true_or, iff_true, Bool.or_eq_true, decide_eq_true_eq]
      by_cases hd' : d.case.isNone
      · exact .inl hd'
      · refine .inr (hdcase.trans (hone str' e' str e hs' hs ?_ he))
        rw [← hdcase]
        simpa [Option.isSome_iff_ne_none] using hd'
  · exact h.slot .configs

theorem set {str : String} {e : Entry} (hsort : SortsByLess env) (h : Alike env cur c c')
    (ht : Typed env cur c) (hs : cur.Selects env str e) : Alike env cur (c.set env e) (c'.set env e) := by
  cases hl : c.lookup e.name with
  | some d =>
    obtain ⟨d', hd', -⟩ := h.child_some hl
    rw [Config.set_of_some hl, Config.set_of_some hd']
    exact h
  | none =>
    have hl' : c'.lookup e.name = none := by
      have := h.child? ⟨.configs, e.name⟩
      generalize ho : c'.child? ⟨.configs, e.name⟩ = o at this
      rw [show c.child? ⟨.configs, e.name⟩ = none from hl] at this
      cases this
      exact ho
    rw [Config.set_of_none hl, Config.set_of_none hl']
    refine alike_iff.mpr ⟨h.node, fun s => ?_⟩
    cases s with
    | keys => exact h.slot .keys
    | configs =>
      refine hsort.rel (fun _ _ _ _ ha hb => less ha hb) (List.rel_append (h.kept ht hs) ?_)
      exact .cons ⟨.inl rfl, .refl _ _⟩ .nil

theorem addKey (hsort : SortsByLess env) (h : Alike env cur c c') (e : Entry) (key pre : String) :
    Alike env cur (c.addKey env e key pre) (c'.addKey env e key pre) := by
  refine alike_iff.mpr ⟨?_, fun s => ?_⟩
  · have hnode := h.node
    obtain ⟨n, configs, keys⟩ := c
    obtain ⟨n', configs', keys'⟩ := c'
    simp only at hnode
    generalize n'.case = case at hnode
    subst hnode
    rfl
  · cases s with
    | configs => exact h.slot .configs
    | keys =>
      refine hsort.rel (fun _ _ _ _ ha hb => less ha hb) (List.rel_append (h.slot .keys) ?_)
      exact .cons ⟨.inl rfl, .refl _ _⟩ .nil

theorem deleteChild (h : Alike env cur c c') (s : Step) :
    Alike env cur (c.deleteChild s) (c'.deleteChild s) := by
  refine alike_iff.mpr ⟨?_, fun t => ?_⟩
  · rw [show (c'.deleteChild s).case = c'.case from congrArg Node.case (Config.deleteChild_toNode c' s),
      Config.deleteChild_toNode, Config.deleteChild_toNode]
    exact h.node
  · rw [Config.slot_deleteChild, Config.slot_deleteChild]
    split
    · refine List.rel_filter (fun d d' hdd => ?_) (h.slot t)
      beta_reduce
      rw [hdd.2.name]
    · exact h.slot t

theorem clear (h : Alike env cur c c') : Alike env cur c.clear c'.clear := by
  refine alike_iff.mpr ⟨h.node, fun s => ?_⟩
  cases s <;> exact .nil

end Alike

end

/-! ## Calls -/

section

variable {a b : Config} {loc : Loc} {cur cur' : Cursor}

theorem Alike.lookupKey {cur₀ : Cursor} (h : Alike env cur₀ a b) (loc : Loc) (key : String) :
    Config.lookupKey b loc key = Config.lookupKey a loc key := by
  rw [← Config.lookupKey_copy b, ← h.copy_eq, Config.lookupKey_copy]

/-- A token of set mode leaves the trees alike, and leads to the same place. -/
theorem Stands.alike {str : String} {e : Entry} (hsort : SortsByLess env)
    (hf : Stands env ent (a, loc) cur) (h : Alike env (.root ent) a b) (hs : cur.Selects env str e) :
    ((cur.op e str).apply env (b, loc)).2 = ((cur.op e str).apply env (a, loc)).2 ∧
      Alike env (.root ent) ((cur.op e str).apply env (a, loc)).1
        ((cur.op e str).apply env (b, loc)).1 := by
  obtain ⟨cur₁, c, hw, hon⟩ := hf.on
  have ht := hf.typed.of_walk hw
  rw [Cursor.op]
  split
  case h_1 | h_2 | h_3 =>
    rename_i hst
    have hd : cur.isDir = true := by rw [Cursor.isDir, hst]
    obtain rfl : cur₁ = cur := hon.eq (by simp [hst])
    have hset : Alike env (.root ent) (a.modify loc fun c => c.set env e)
        (b.modify loc fun c => c.set env e) :=
      h.modify (g := fun c => c.set env e) hw (.of_toNode fun c => Config.set_toNode c e)
        fun p' hp => hp.set hsort ht hs
    split
    · refine ⟨rfl, ?_⟩
      obtain ⟨-, -, d, -, hw'⟩ := hf.walk_set hd hs
      simp only [Op.apply, Config.modify_setLeafList]
      exact hset.value (g := Config.clearList) (f := fun n => { n with valueList := [] }) hw'
        ⟨fun _ => rfl, fun _ => rfl, fun _ => rfl⟩ (fun c s => by cases s <;> rfl) (fun _ => rfl)
        fun _ _ => rfl
    · exact ⟨rfl, hset⟩
  case h_4 hst =>
    obtain rfl : cur₁ = cur := hon.eq (by simp [hst])
    rw [Op.apply, Op.apply, Config.setKey, Config.setKey, h.lookupKey]
    rcases hf.typed.lookupKey_cases hw hst str with hl | ⟨_, _, _, _, _, -, -, -, -, -, -, -, hl⟩
    · rw [hl]
      cases c.lookupKeyShallow str with
      | some d => exact ⟨rfl, h⟩
      | none =>
        exact ⟨rfl, h.modify (g := fun d => d.addKey env e str cur₁.ent.name) hw
          ⟨fun _ => rfl, fun _ => rfl, fun _ => rfl⟩ fun p' hp => hp.addKey hsort e str _⟩
    · rw [hl]
      exact ⟨rfl, h⟩
  case h_5 | h_6 =>
    exact ⟨rfl, h.value (g := fun c => c.setValue str)
      (f := fun n => { n with value := str, hasValue := true }) hw
      ⟨fun _ => rfl, fun _ => rfl, fun _ => rfl⟩ (fun c s => by cases s <;> rfl) (fun _ => rfl)
      fun _ _ => rfl⟩
  case h_7 | h_8 =>
    exact ⟨rfl, h.value (g := fun c => c.setListValue str)
      (f := fun n => { n with valueList := n.valueList ++ [str], hasValue := true }) hw
      ⟨fun _ => rfl, fun _ => rfl, fun _ => rfl⟩ (fun c s => by cases s <;> rfl) (fun _ => rfl)
      fun _ _ => rfl⟩

/-- So do the tokens of a path. -/
theorem Trace.alike {cmds : List String} {ops : List Op} (hsort : SortsByLess env)
    (ht : Trace env cur cmds ops cur') (hf : Stands env ent (a, loc) cur)
    (h : Alike env (.root ent) a b) :
    Alike env (.root ent) (applyOps env ops (a, loc)).1 (applyOps env ops (b, loc)).1 := by
  induction ht generalizing a b loc with
  | nil => exact h
  | cons hs _ ih =>
    obtain ⟨hloc, halike⟩ := hf.alike hsort h hs
    rw [applyOps_cons, applyOps_cons, ← Prod.eta (Op.apply env _ (b, loc)), hloc]
    exact ih (hf.step hs).stands halike

/-- `Set` mode returns the same, and leaves the trees alike. -/
theorem Alike.parse (hsort : SortsByLess env) (h : Alike env (.root ent) a b)
    (ht : Typed env (.root ent) a) (cmds : List String) :
    Option.Rel (fun r r' => r'.code = r.code ∧ r'.callback = r.callback ∧ r'.comps = r.comps ∧
      Alike env (.root ent) r.tree r'.tree)
      (OpenConfigd.parse env ent a cmds) (OpenConfigd.parse env ent b cmds) := by
  rw [parse_eq_plan, parse_eq_plan]
  cases hp : plan env cmds (.root ent) with
  | none => exact .none
  | some r =>
    obtain ⟨cmds', cur, -, htr, -⟩ := plan_trace hp
    exact .some ⟨rfl, rfl, rfl, htr.alike hsort (.start ht) h⟩

theorem Alike.drops {c c' : Config} (h : Alike env cur c c') (e : Entry) (slot : Slot) (leaf : Bool) :
    c'.drops e slot leaf = c.drops e slot leaf := by
  have hempty : c'.isEmpty = c.isEmpty := by
    rw [Config.isEmpty, Config.isEmpty, h.isEmpty_slot.1, h.isEmpty_slot.2]
  have hnode := h.node
  simp only [Config.drops, hempty, show c'.hasValue = c.hasValue from (congrArg Node.hasValue hnode :),
    show c'.keyConfig = c.keyConfig from (congrArg Node.keyConfig hnode :),
    show c'.keyOnlyConfig = c.keyOnlyConfig from (congrArg Node.keyOnlyConfig hnode :)]

/-- One level of `Delete` leaves the trees alike. -/
theorem Alike.deleteStep (h : Alike env (.root ent) a b) (ht : Typed env (.root ent) a) (pre : Loc)
    (s : Step) (leaf : Bool) :
    Alike env (.root ent) (deleteStep a pre s leaf) (deleteStep b pre s leaf) := by
  cases hg : a.get? (pre ++ [s]) with
  | none =>
    have hb := h.get?_isSome (pre ++ [s])
    rw [hg] at hb
    rw [deleteStep_none hg, deleteStep_none (by simpa using hb)]
    exact h
  | some c =>
    obtain ⟨cur, hw, -⟩ := ht.walk_of_get hg
    obtain ⟨c', hg', hc⟩ := h.get_walk hw
    cases he : c.entry with
    | none =>
      rw [deleteStep_noEntry hg he, deleteStep_noEntry hg' (hc.entry.trans he)]
      exact h
    | some e =>
      rw [deleteStep_eq hg he, deleteStep_eq hg' (hc.entry.trans he), hc.drops]
      obtain ⟨cur₁, p, -, hwp, -⟩ := Config.walk_snoc hw
      split
      · exact h.modify (g := fun p => p.deleteChild s) hwp
          (.of_toNode fun p => Config.deleteChild_toNode p s) fun p' hp => hp.deleteChild s
      · split
        · exact h.modify (g := Config.clear) hw ⟨fun _ => rfl, fun _ => rfl, fun _ => rfl⟩
            fun p' hp => hp.clear
        · exact h

theorem Alike.deleteUp (h : Alike env (.root ent) a b) (ht : Typed env (.root ent) a)
    (rev : List Step) (leaf : Bool) :
    Alike env (.root ent) (deleteUp a rev leaf) (deleteUp b rev leaf) := by
  induction rev generalizing a b leaf with
  | nil => exact h
  | cons s rev ih =>
    have hstep := h.deleteStep ht rev.reverse s leaf
    have hpresence (root : Config) : ((root.copy.get? rev.reverse).map Config.isPresence) =
        (root.get? rev.reverse).map Config.isPresence := by
      rw [Config.get?_copy, Option.map_map]
      congr 1
      funext d
      exact Config.isPresence_copy d
    rw [OpenConfigd.deleteUp, OpenConfigd.deleteUp]
    simp only [← hpresence (OpenConfigd.deleteStep b _ _ _), ← hstep.copy_eq, hpresence]
    split
    · exact hstep
    · exact ih hstep (ht.deleteStep _ _ _) false

/-- `Delete` leaves the trees alike. -/
theorem Alike.delete (h : Alike env (.root ent) a b) (ht : Typed env (.root ent) a) (loc : Loc)
    (leaf : Bool) : Alike env (.root ent) (delete a loc leaf) (delete b loc leaf) :=
  h.deleteUp ht loc.reverse leaf

/-- `ParseDelete` returns the same, and leaves the trees alike. -/
theorem Alike.parseDelete (h : Alike env (.root ent) a b) (ht : Typed env (.root ent) a)
    (cmds : List String) :
    Option.Rel (fun r r' => r'.code = r.code ∧ r'.callback = r.callback ∧ r'.comps = r.comps ∧
      Alike env (.root ent) r.tree r'.tree)
      (OpenConfigd.parseDelete a cmds) (OpenConfigd.parseDelete b cmds) := by
  have hmatch (loc : Loc) (str : String) (s : YMatchState) :
      matchConfigAt b loc str s = matchConfigAt a loc str s := by
    rw [← Config.matchConfigAt_copy b, ← h.copy_eq, Config.matchConfigAt_copy]
  have hcomps (loc : Loc) (index : Nat) : compConfigAt b loc index = compConfigAt a loc index := by
    rw [← Config.compConfigAt_copy b, ← h.copy_eq, Config.compConfigAt_copy]
  have hfrom (cmds : List String) (loc : Loc) (s : YMatchState) :
      Option.Rel (fun r r' => r'.code = r.code ∧ r'.callback = r.callback ∧ r'.comps = r.comps ∧
        Alike env (.root ent) r.tree r'.tree)
        (parseDeleteFrom cmds a loc s) (parseDeleteFrom cmds b loc s) := by
    induction cmds generalizing loc s with
    | nil => exact .none
    | cons str cmds ih =>
      rw [parseDeleteFrom, parseDeleteFrom, hmatch]
      generalize matchConfigAt a loc str _ = s
      dsimp only
      split
      · exact .some ⟨rfl, rfl, rfl, h⟩
      · split
        · exact .some ⟨rfl, rfl, rfl, h⟩
        · cases s.config with
          | none => exact .none
          | some loc =>
            cases cmds with
            | cons cmd cmds => exact ih loc s
            | nil =>
              simp only [hcomps]
              split
              · exact .some ⟨rfl, rfl, rfl, h⟩
              · cases hg : a.get? loc with
                | none =>
                  have hb := h.get?_isSome loc
                  rw [hg] at hb
                  rw [show b.get? loc = none by simpa using hb]
                  exact .none
                | some c =>
                  obtain ⟨cur, hw, -⟩ := ht.walk_of_get hg
                  obtain ⟨c', hg', hc⟩ := h.get_walk hw
                  have hvalue : c'.isValueLeaf = c.isValueLeaf := by
                    rw [← Config.isValueLeaf_copy, ← hc.copy_eq, Config.isValueLeaf_copy]
                  have hcontainer : c'.isContainer = c.isContainer := by
                    rw [Config.isContainer, Config.isContainer, hc.entry]
                  simp only [hg', hvalue, hcontainer, hc.entry]
                  by_cases hend : (c.isValueLeaf || c.isContainer) = true
                  · rw [if_pos hend, if_pos hend]
                    by_cases hcomplete : s.complete = true
                    · rw [if_pos hcomplete, if_pos hcomplete]
                      exact .some ⟨rfl, rfl, rfl, h⟩
                    · rw [if_neg hcomplete, if_neg hcomplete]
                      by_cases hread : (c.entry.map (·.readOnlyConfig)).getD false = true
                      · rw [if_pos hread, if_pos hread]
                        exact .some ⟨rfl, rfl, rfl, h⟩
                      · rw [if_neg hread, if_neg hread]
                        exact .some ⟨rfl, rfl, rfl, h.delete ht loc true⟩
                  · rw [if_neg hend, if_neg hend]
                    exact .some ⟨rfl, rfl, rfl, h⟩
  exact hfrom cmds [] {}

end

end OpenConfigd
