import OpenConfigd.Config.Atomic
import OpenConfigd.Config.Copy

/-!
# Choices

`Set` drops the siblings whose `Case` is another one than that of the node it
makes, and keeps those without a `Case`: nodes outside any choice, and nodes that
came into the tree through `Copy`. As long as no node is made beside such a node
of a rival case (`Excludes`), no node has children of two cases of one choice
(`Cased`).
-/

namespace OpenConfigd

variable {env : Env} {ent : Entry}

/-! ## Cases in the schema -/

/-- The path and the kind of the parent are those of the parent, and the entries of a
choice are cases. -/
structure Entry.Pathed (e : Entry) : Prop where
  path : ∀ c ∈ e.dir, c.path = e.path ++ [c.name]
  parent : ∀ c ∈ e.dir, c.parentKind = some e.kind
  case : e.kind = .choice → ∀ c ∈ e.dir, c.kind = .case

instance : DecidablePred Entry.Pathed := fun e =>
  decidable_of_iff ((∀ c ∈ e.dir, c.path = e.path ++ [c.name]) ∧
      (∀ c ∈ e.dir, c.parentKind = some e.kind) ∧ (e.kind = .choice → ∀ c ∈ e.dir, c.kind = .case))
    ⟨fun ⟨hp, hk, hc⟩ => ⟨hp, hk, hc⟩, fun h => ⟨h.path, h.parent, h.case⟩⟩

/-- The entries of a schema. -/
inductive Entry.Has (ent : Entry) : Entry → Prop
  | self : Has ent ent
  | child {x c : Entry} : Has ent x → c ∈ x.dir → Has ent c

theorem Entry.All.has {P : Entry → Prop} {x : Entry} (h : ent.All P) (hx : ent.Has x) : x.All P := by
  induction hx with
  | self => exact h
  | child _ hc ih => exact ih.child hc

/-- The two entries belong to different cases of a choice of the schema. -/
def Rivals (ent e e' : Entry) : Prop :=
  ∃ x a a', ent.Has x ∧ x.kind = .choice ∧ a ∈ x.dir ∧ a' ∈ x.dir ∧ a.path ≠ a'.path ∧
    e ∈ dirCandidates a ∧ e' ∈ dirCandidates a'

theorem mem_candidates {es : List Entry} {e : Entry} : e ∈ candidates es ↔
    ∃ c ∈ es, if c.isChoice then e ∈ choiceCandidates c else e = c := by
  induction es with
  | nil => simp [candidates]
  | cons c es ih =>
    simp only [candidates, List.mem_append, ih, List.mem_cons, exists_eq_or_imp]
    refine or_congr ?_ Iff.rfl
    split
    · exact Iff.rfl
    · exact List.mem_singleton

theorem mem_choiceCandidates {c e : Entry} : e ∈ choiceCandidates c ↔
    ∃ b ∈ c.dir, e ∈ dirCandidates b := by
  have hcases (es : List Entry) : e ∈ caseCandidates es ↔ ∃ b ∈ es, e ∈ dirCandidates b := by
    induction es with
    | nil => simp [caseCandidates]
    | cons b es ih =>
      simp only [caseCandidates, List.mem_append, ih, List.mem_cons, exists_eq_or_imp]
  obtain ⟨_, dir⟩ := c
  rw [choiceCandidates]
  exact hcases dir

theorem mem_dirCandidates {a e : Entry} : e ∈ dirCandidates a ↔ e ∈ candidates a.dir := by
  obtain ⟨_, dir⟩ := a
  rw [dirCandidates]

theorem Cursor.Selects.mem_dir {cur : Cursor} {str : String} {e : Entry} (hs : cur.Selects env str e)
    (hd : cur.isDir = true) : e ∈ dirCandidates cur.ent := by
  obtain ⟨m, hs⟩ := hs
  obtain ⟨l, hl, hp⟩ := Cursor.select_unique.mp hs
  obtain ⟨x, hx, rfl, -⟩ := hp.mem
  rw [alternatives] at hl
  cases hst : cur.state <;> simp [isDir, hst] at hd <;> simp only [hst, Option.some.injEq] at hl
  case stateDir | stateDirMatched =>
    rw [← hl] at hx
    exact (mem_keywords.mp hx).1
  case stateKeyMatched =>
    rw [← hl] at hx
    obtain ⟨b, hb, hx⟩ := mem_candidates.mp (mem_keywords.mp hx).1
    exact mem_dirCandidates.mpr (mem_candidates.mpr ⟨b, (List.mem_filter.mp hb).1, hx⟩)

/-- What is in a case has a `Case`, which is in the case. -/
theorem Entry.All.case {a : Entry} (h : a.All Entry.Pathed) :
    (a.kind = .case → ∀ e ∈ dirCandidates a, ∃ p, caseEntry e = some p ∧ a.path <+: p) ∧
    (a.kind = .choice → ∀ e ∈ choiceCandidates a, ∃ p, caseEntry e = some p ∧ a.path <+: p) := by
  induction h with
  | @mk a hp _ ih =>
    have hup {c : Entry} (hc : c ∈ a.dir) : a.path <+: c.path := by
      rw [hp.path c hc]
      exact List.prefix_append _ _
    refine ⟨fun hk e he => ?_, fun hk e he => ?_⟩
    · obtain ⟨c, hc, hce⟩ := mem_candidates.mp (mem_dirCandidates.mp he)
      split at hce
      · rename_i hch
        obtain ⟨p, hpe, hpre⟩ := (ih c hc).2 (by simpa [Entry.isChoice] using hch) e hce
        exact ⟨p, hpe, (hup hc).trans hpre⟩
      · subst hce
        refine ⟨a.path, ?_, List.prefix_rfl⟩
        rw [caseEntry, hp.parent e hc, hk, if_pos rfl, hp.path e hc, List.dropLast_concat]
    · obtain ⟨b, hb, hbe⟩ := mem_choiceCandidates.mp he
      obtain ⟨p, hpe, hpre⟩ := (ih b hb).1 (hp.case hk b hb) e hbe
      exact ⟨p, hpe, (hup hb).trans hpre⟩

theorem Rivals.symm {e e' : Entry} (h : Rivals ent e e') : Rivals ent e' e := by
  obtain ⟨x, a, a', hx, hk, ha, ha', hne, he, he'⟩ := h
  exact ⟨x, a', a, hx, hk, ha', ha, hne.symm, he', he⟩

/-- Rivals have different `Case`s. -/
theorem Rivals.case {e e' : Entry} (h : Rivals ent e e') (hall : ent.All Entry.Pathed) :
    (caseEntry e).isSome ∧ caseEntry e ≠ caseEntry e' := by
  obtain ⟨x, a, a', hx, hk, ha, ha', hne, he, he'⟩ := h
  have hxall := hall.has hx
  have hcase {b : Entry} (hb : b ∈ x.dir) := (hxall.child hb).case.1 (hxall.self.case hk b hb)
  obtain ⟨p, hp, hpre⟩ := hcase ha e he
  obtain ⟨p', hp', hpre'⟩ := hcase ha' e' he'
  refine ⟨by rw [hp]; rfl, fun heq => hne ?_⟩
  rw [hp, hp'] at heq
  cases heq
  -- The two cases are at the same depth above the one both entries have.
  refine (List.prefix_of_prefix_length_le hpre hpre' ?_).eq_of_length ?_ <;>
    rw [hxall.self.path a ha, hxall.self.path a' ha'] <;> simp

/-! ## Cases in the tree -/

/-- Every node of the tree has the property. -/
inductive Config.Every (P : Config → Prop) : Config → Prop
  | mk {c : Config} : P c → (∀ s, ∀ d ∈ c.slot s, Every P d) → Every P c

namespace Config.Every

variable {P : Config → Prop} {c d : Config}

theorem self : c.Every P → P c
  | .mk h _ => h

theorem mem : c.Every P → ∀ s, ∀ d ∈ c.slot s, d.Every P
  | .mk _ h => h

theorem get {l : Loc} (h : c.Every P) (hd : c.get? l = some d) : d.Every P := by
  induction l generalizing c with
  | nil =>
    cases hd
    exact h
  | cons s l ih =>
    rw [Config.get?_cons] at hd
    obtain ⟨b, hb, hd⟩ := Option.bind_eq_some_iff.mp hd
    exact ih (h.mem s.slot b (Config.child?_mem hb)) hd

theorem bare {n : Node} (h : P n.bare) : n.bare.Every P := by
  refine .mk h fun s d hd => ?_
  have hs : n.bare.slot s = [] := by cases s <;> rfl
  rw [hs] at hd
  cases hd

theorem imp {Q : Config → Prop} (hP : ∀ d, P d → Q d) (h : c.Every P) : c.Every Q := by
  induction h with
  | mk hc _ ih => exact .mk (hP _ hc) ih

theorem copy_of {Q : Config → Prop} (hP : ∀ d, P d → Q d.copy) (h : c.Every P) : c.copy.Every Q := by
  induction h with
  | @mk c hc _ ih =>
    refine .mk (hP c hc) fun s d hd => ?_
    rw [Config.slot_copy] at hd
    obtain ⟨b, hb, rfl⟩ := List.mem_map.mp hd
    exact ih s b hb

end Config.Every

theorem Typed.every {P : Config → Prop} {cur : Cursor} {c : Config} (h : Typed env cur c)
    (hP : ∀ l cur' d, c.walk cur l = some (cur', d) → P d) : c.Every P := by
  induction h with
  | @mk cur c _ hn _ hedge _ ih =>
    refine .mk (hP [] cur c rfl) fun s d hd => ?_
    obtain ⟨e, he⟩ := hedge s d hd
    have hch : c.child? ⟨s, d.name⟩ = some d := Keyed.get_of_mem (hn s) hd
    exact ih s d hd e he.entry fun l cur' b hb =>
      hP (⟨s, d.name⟩ :: l) cur' b (by rw [Config.walk_cons hch he.entry]; exact hb)

/-- No two children belong to different cases of a choice, and the `Case` of a child is
missing or right. -/
structure Cased (ent : Entry) (c : Config) : Prop where
  apart : ∀ d ∈ c.configs, ∀ d' ∈ c.configs, ∀ e e', d.entry = some e → d'.entry = some e' →
    ¬ Rivals ent e e'
  case : ∀ d ∈ c.configs, ∀ e, d.entry = some e → d.case.isSome → d.case = caseEntry e
  plain : ∀ d ∈ c.configs, d.keyConfig = false

/-- The nodes agree in what `Cased` says of a child. -/
structure Kin (d d' : Config) : Prop where
  entry : d'.entry = d.entry
  case : d'.case = d.case
  keyConfig : d'.keyConfig = d.keyConfig

theorem Kin.of_toNode {d d' : Config} (h : d'.toNode = d.toNode) : Kin d d' :=
  ⟨congrArg Node.entry h, congrArg Node.case h, congrArg Node.keyConfig h⟩

section

variable {root c c' : Config} {l : Loc}

theorem Cased.of_kin (h : Cased ent c) (hk : ∀ d' ∈ c'.configs, ∃ d ∈ c.configs, Kin d d') :
    Cased ent c' := by
  refine ⟨fun d hd d' hd' e e' he he' => ?_, fun d hd e he hc => ?_, fun d hd => ?_⟩
  · obtain ⟨b, hb, hkin⟩ := hk d hd
    obtain ⟨b', hb', hkin'⟩ := hk d' hd'
    exact h.apart b hb b' hb' e e' (hkin.entry ▸ he) (hkin'.entry ▸ he')
  · obtain ⟨b, hb, hkin⟩ := hk d hd
    rw [hkin.case] at hc ⊢
    exact h.case b hb e (hkin.entry ▸ he) hc
  · obtain ⟨b, hb, hkin⟩ := hk d hd
    rw [hkin.keyConfig]
    exact h.plain b hb

/-- The property of a node looks at what `Kin` keeps of its children. -/
def Familial (P : Config → Prop) : Prop :=
  ∀ c c', (∀ d' ∈ c'.configs, ∃ d ∈ c.configs, Kin d d') → P c → P c'

theorem Cased.familial (ent : Entry) : Familial (Cased ent) := fun _ _ hk h => h.of_kin hk

/-- The children of a node are among those of another one. -/
theorem Config.Every.of_sub {P : Config → Prop} (hP : Familial P) (h : c.Every P)
    (hs : ∀ s, ∀ d ∈ c'.slot s, d ∈ c.slot s) : c'.Every P :=
  .mk (hP c c' (fun d hd => ⟨d, hs .configs d hd, .of_toNode rfl⟩) h.self)
    fun s d hd => h.mem s d (hs s d hd)

theorem Config.Every.modify {P : Config → Prop} (hP : Familial P) {g : Config → Config}
    (h : root.Every P) (hg : ∀ c, root.get? l = some c → (g c).Every P ∧ Kin c (g c)) :
    (root.modify l g).Every P := by
  induction l generalizing root with
  | nil => exact (hg root rfl).1
  | cons s l ih =>
    have hmem {t : Slot} {b : Config} (hb : b ∈ (root.modify (s :: l) g).slot t) :
        b ∈ root.slot t ∨ t = s.slot ∧ ∃ d, root.child? s = some d ∧ b = d.modify l g := by
      rw [Config.modify, Config.slot_modifyChild] at hb
      split at hb
      · rename_i ht
        rcases Keyed.mem_modify hb with hb | ⟨d, hd, rfl⟩
        · exact .inl hb
        · exact .inr ⟨ht, d, by rw [← hd, ht]; rfl, rfl⟩
      · exact .inl hb
    have hchild {d : Config} (hd : root.child? s = some d) :
        (d.modify l g).Every P ∧ Kin d (d.modify l g) := by
      have hget {c : Config} (hc : d.get? l = some c) : root.get? (s :: l) = some c := by
        rw [Config.get?_cons, hd]
        exact hc
      refine ⟨ih (h.mem s.slot d (Config.child?_mem hd)) fun c hc => hg c (hget hc), ?_⟩
      cases l with
      | nil => exact (hg d (hget rfl)).2
      | cons t l => exact .of_toNode (Config.modify_toNode d t l g)
    refine .mk (hP root _ (fun b hb => ?_) h.self) fun t b hb => ?_
    · rcases hmem (t := .configs) hb with hb | ⟨hs, d, hd, rfl⟩
      · exact ⟨b, hb, .of_toNode rfl⟩
      · have hm := Config.child?_mem hd
        rw [← hs] at hm
        exact ⟨d, hm, (hchild hd).2⟩
    · rcases hmem hb with hb | ⟨-, d, hd, rfl⟩
      · exact h.mem t b hb
      · exact (hchild hd).1

/-! ## The functions that change a tree -/

theorem Cased.bare (n : Node) : Cased ent n.bare :=
  ⟨fun _ hd => absurd hd List.not_mem_nil, fun _ hd => absurd hd List.not_mem_nil,
    fun _ hd => absurd hd List.not_mem_nil⟩

/-- A node of `e` can be made here: the children of rival cases have a `Case`. -/
def Admits (ent : Entry) (c : Config) (e : Entry) : Prop :=
  ∀ d ∈ c.configs, ∀ e', d.entry = some e' → Rivals ent e' e → d.case.isSome

theorem Config.Every.set (hall : ent.All Entry.Pathed) (h : c.Every (Cased ent)) {e : Entry}
    (ha : c.lookup e.name = none → Admits ent c e) : (c.set env e).Every (Cased ent) := by
  cases hn : c.lookup e.name with
  | some d =>
    rw [Config.set_of_some hn]
    exact h
  | none =>
    have hcase (d : Config) (hd : d ∈ c.kept e) (e' : Entry) (he' : d.entry = some e')
        (hr : Rivals ent e' e) : False := by
      have hd' := (c.kept_sublist e).subset hd
      have hsome := ha hn d hd' e' he' hr
      have hkept := Config.case_of_kept hd (hr.symm.case hall).1 hsome
      exact (hr.case hall).2 ((h.self.case d hd' e' he' hsome).symm.trans hkept)
    refine .mk ⟨fun d hd d' hd' e₁ e₂ he₁ he₂ hr => ?_, fun d hd e' he' hc => ?_, fun d hd => ?_⟩
      fun s d hd => ?_
    · rcases (Config.mem_set hn).mp hd with hd | rfl
      · rcases (Config.mem_set hn).mp hd' with hd' | rfl
        · exact h.self.apart d ((c.kept_sublist e).subset hd) d' ((c.kept_sublist e).subset hd') e₁ e₂
            he₁ he₂ hr
        · cases he₂
          exact hcase d hd e₁ he₁ hr
      · cases he₁
        rcases (Config.mem_set hn).mp hd' with hd' | rfl
        · exact hcase d' hd' e₂ he₂ hr.symm
        · cases he₂
          exact (hr.case hall).2 rfl
    · rcases (Config.mem_set hn).mp hd with hd | rfl
      · exact h.self.case d ((c.kept_sublist e).subset hd) e' he' hc
      · cases he'
        rfl
    · rcases (Config.mem_set hn).mp hd with hd | rfl
      · exact h.self.plain d ((c.kept_sublist e).subset hd)
      · rfl
    · cases s with
      | configs =>
        rcases (Config.mem_set hn).mp hd with hd | rfl
        · exact h.mem .configs d ((c.kept_sublist e).subset hd)
        · exact .bare (.bare _)
      | keys =>
        rw [show (c.set env e).slot .keys = c.keys from Config.set_keys c e] at hd
        exact h.mem .keys d hd

theorem Config.Every.addKey {P : Config → Prop} (hP : Familial P) (hbare : ∀ n : Node, P n.bare)
    (h : c.Every P) (e : Entry) (key pre : String) : (c.addKey env e key pre).Every P := by
  refine .mk (hP c _ (fun d hd => ⟨d, hd, .of_toNode rfl⟩) h.self) fun s d hd => ?_
  cases s with
  | configs => exact h.mem .configs d hd
  | keys =>
    have hd : d ∈ env.sort configLess (c.keys ++ [(newKey e key pre).bare]) := hd
    rw [(env.sort_perm configLess _).mem_iff, List.mem_append, List.mem_singleton] at hd
    rcases hd with hd | rfl
    · exact h.mem .keys d hd
    · exact .bare (hbare _)

theorem Config.Every.copy (h : c.Every (Cased ent)) : c.copy.Every (Cased ent) := by
  induction h with
  | @mk c hc _ ih =>
    have hfields (d : Config) : d.copy.entry = d.entry ∧ d.copy.case = none ∧
        d.copy.keyConfig = d.keyConfig := by
      obtain ⟨n, configs, keys⟩ := d
      exact ⟨rfl, rfl, rfl⟩
    have hmem {s : Slot} {d : Config} (hd : d ∈ c.copy.slot s) : ∃ b ∈ c.slot s, b.copy = d := by
      rw [Config.slot_copy] at hd
      exact List.mem_map.mp hd
    refine .mk ⟨fun d hd d' hd' e e' he he' => ?_, fun d hd e he hs => ?_, fun d hd => ?_⟩
      fun s d hd => ?_
    · obtain ⟨b, hb, rfl⟩ := hmem (s := .configs) hd
      obtain ⟨b', hb', rfl⟩ := hmem (s := .configs) hd'
      exact hc.apart b hb b' hb' e e' ((hfields b).1 ▸ he) ((hfields b').1 ▸ he')
    · obtain ⟨b, hb, rfl⟩ := hmem (s := .configs) hd
      rw [(hfields b).2.1] at hs
      cases hs
    · obtain ⟨b, hb, rfl⟩ := hmem (s := .configs) hd
      rw [(hfields b).2.2]
      exact hc.plain b hb
    · obtain ⟨b, hb, rfl⟩ := hmem hd
      exact ih s b hb

theorem Config.Every.delete {P : Config → Prop} (hP : Familial P) (h : root.Every P) (loc : Loc)
    (leaf : Bool) : (delete root loc leaf).Every P := by
  refine deleteUp_induct (P := fun c => c.Every P) (fun root pre s h => ?_)
    (fun root l h => ?_) loc.reverse leaf h
  · refine h.modify hP fun c hc => ⟨(h.get hc).of_sub hP fun t d hd => ?_, .of_toNode ?_⟩
    · exact (c.slot_deleteChild_sublist s t).subset hd
    · exact Config.deleteChild_toNode c s
  · refine h.modify hP fun c hc => ⟨(h.get hc).of_sub hP fun t d hd => ?_, .of_toNode rfl⟩
    have hs : c.clear.slot t = [] := by cases t <;> rfl
    rw [hs] at hd
    cases hd

end

/-! ## Set mode -/

/-- The first node the calls make, from the node at `loc` on, can be made there. -/
def Excludes (ent : Entry) (root : Config) : Loc → List Op → Prop
  | loc, .set e :: ops | loc, .setLeafList e :: ops =>
    match root.get? (loc ++ [⟨.configs, e.name⟩]) with
    | some _ => Excludes ent root (loc ++ [⟨.configs, e.name⟩]) ops
    | none => ∀ c, root.get? loc = some c → Admits ent c e
  | loc, .setKey _ key _ :: ops =>
    match (Config.lookupKey root loc key).2 with
    | some l => Excludes ent root l ops
    | none => True
  | _, _ => True

/-- A tree whose nodes have no children of rival cases, and whose root is no key. -/
structure Exclusive (ent : Entry) (root : Config) : Prop where
  every : root.Every (Cased ent)
  root : root.keyConfig = false

section

variable {root c : Config} {loc l : Loc} {cur cur' : Cursor} {cmds : List String} {ops : List Op}

theorem Exclusive.modify {g : Config → Config} (h : Exclusive ent root)
    (hg : ∀ c, root.get? l = some c → (g c).Every (Cased ent) ∧ Kin c (g c)) :
    Exclusive ent (root.modify l g) := by
  refine ⟨h.every.modify (Cased.familial ent) hg, ?_⟩
  cases l with
  | nil => exact (hg root rfl).2.keyConfig.trans h.root
  | cons s l => exact (congrArg Node.keyConfig (Config.modify_toNode root s l g)).trans h.root

/-- A change of the value of a node. -/
theorem Exclusive.value {g : Config → Config} (h : Exclusive ent root) (hs : ∀ c s, (g c).slot s = c.slot s)
    (hk : ∀ c, Kin c (g c)) : Exclusive ent (root.modify l g) := by
  refine h.modify fun c hc => ⟨(h.every.get hc).of_sub (Cased.familial ent) fun s d hd => ?_, hk c⟩
  rwa [hs] at hd

theorem Exclusive.set (hall : ent.All Entry.Pathed) (h : Exclusive ent root) {e : Entry}
    (ha : ∀ c, root.get? l = some c → c.lookup e.name = none → Admits ent c e) :
    Exclusive ent (root.modify l fun c => c.set env e) :=
  h.modify fun c hc => ⟨(h.every.get hc).set hall (ha c hc), .of_toNode (Config.set_toNode c e)⟩

theorem Exclusive.setLeafList (hall : ent.All Entry.Pathed) (h : Exclusive ent root) {e : Entry}
    (ha : ∀ c, root.get? l = some c → c.lookup e.name = none → Admits ent c e) :
    Exclusive ent (root.modify l fun c => c.setLeafList env e) := by
  rw [Config.modify_setLeafList]
  exact (h.set hall ha).value (g := Config.clearList) (fun c s => by cases s <;> rfl)
    fun _ => ⟨rfl, rfl, rfl⟩

theorem Exclusive.addKey (h : Exclusive ent root) (e : Entry) (key pre : String) :
    Exclusive ent (root.modify l fun c => c.addKey env e key pre) :=
  h.modify fun _ hc => ⟨(h.every.get hc).addKey (Cased.familial ent) Cased.bare e key pre,
    ⟨rfl, rfl, rfl⟩⟩

theorem Config.child?_set_new {e : Entry} (h : c.lookup e.name = none) :
    (c.set env e).child? ⟨.configs, e.name⟩ = some (newNode e).bare := by
  refine Keyed.get_new (b := (newNode e).bare) (l := c.configs) (fun d hd => ?_) ((Config.mem_set h).mpr (.inr rfl)) h
  exact ((Config.mem_set h).mp hd).imp_left fun hd => (c.kept_sublist e).subset hd

theorem Config.child?_addKey_new {e : Entry} {key pre : String}
    (h : c.lookupKeyShallow key = none) :
    (c.addKey env e key pre).child? ⟨.keys, key⟩ = some (newKey e key pre).bare := by
  have hmem (d : Config) : d ∈ (c.addKey env e key pre).keys ↔
      d ∈ c.keys ∨ d = (newKey e key pre).bare := by
    show d ∈ env.sort configLess (c.keys ++ [(newKey e key pre).bare]) ↔ _
    rw [(env.sort_perm configLess _).mem_iff, List.mem_append, List.mem_singleton]
  exact Keyed.get_new (b := (newKey e key pre).bare) (l := c.keys) (fun d hd => (hmem d).mp hd) ((hmem _).mpr (.inr rfl)) h

/-- There is no node at the place, or one without children. -/
def Fresh (root : Config) (loc : Loc) : Prop :=
  ∀ c, root.get? loc = some c → c.configs = [] ∧ c.keys = []

theorem Fresh.child {g : Config → Config} {s : Step} (hg : KeepsName g)
    (h : ∀ c, root.get? loc = some c → ∃ d, (g c).child? s = some d ∧ d.configs = [] ∧ d.keys = []) :
    Fresh (root.modify loc g) (loc ++ [s]) := by
  intro b hb
  rw [Config.get?_modify_append hg] at hb
  obtain ⟨c, hc, hb⟩ := Option.bind_eq_some_iff.mp hb
  rw [Config.get?_single] at hb
  obtain ⟨d, hd, hnil⟩ := h c hc
  rw [hd] at hb
  cases hb
  exact hnil

theorem Fresh.set (h : Fresh root loc) (e : Entry) :
    Fresh (root.modify loc fun c => c.set env e) (loc ++ [⟨.configs, e.name⟩]) := by
  refine .child (Config.set_keepsName e) fun c hc => ⟨_, Config.child?_set_new ?_, rfl, rfl⟩
  rw [Config.lookup, Config.child?, show c.slot .configs = [] from (h c hc).1]
  rfl

/-- What is made below a new node is made beside nothing. -/
theorem Exclusive.fresh (hall : ent.All Entry.Pathed) (h : Exclusive ent root)
    (hf : Fresh root loc) (ops : List Op) : Exclusive ent (applyOps env ops (root, loc)).1 := by
  induction ops generalizing root loc with
  | nil => exact h
  | cons op ops ih =>
    have hadm (e : Entry) (c : Config) (hc : root.get? loc = some c)
        (_ : c.lookup e.name = none) : Admits ent c e := by
      intro d hd
      rw [(hf c hc).1] at hd
      cases hd
    have hvalue {g : Config → Config} (hg : KeepsName g) (hs : ∀ c s, (g c).slot s = c.slot s)
        (hk : ∀ c, Kin c (g c)) :
        Exclusive ent (applyOps env ops (root.modify loc g, loc)).1 := by
      refine ih (h.value hs hk) fun b hb => ?_
      rw [Config.get?_modify_self hg] at hb
      obtain ⟨c, hc, rfl⟩ := Option.map_eq_some_iff.mp hb
      exact ⟨(hs c .configs).trans (hf c hc).1, (hs c .keys).trans (hf c hc).2⟩
    rw [applyOps_cons]
    cases op with
    | set e => exact ih (h.set hall (hadm e)) (hf.set e)
    | setLeafList e =>
      refine ih (h.setLeafList hall (hadm e)) fun b hb => ?_
      rw [Config.modify_setLeafList, Config.get?_modify_self (f := Config.clearList)
        (fun _ => rfl)] at hb
      obtain ⟨d, hd, rfl⟩ := Option.map_eq_some_iff.mp hb
      exact hf.set e d hd
    | setKey e key pre =>
      have hlook : Config.lookupKey root loc key = (loc, none) := by
        rw [Config.lookupKey]
        cases hc : root.get? loc with
        | none => rfl
        | some c =>
          have hkeys := (hf c hc).2
          have hkey : c.isKeyConfig = false := by simp [Config.isKeyConfig, hkeys]
          have hshallow : c.lookupKeyShallow key = none := by
            rw [Config.lookupKeyShallow, Config.child?, show c.slot .keys = [] from hkeys]
            rfl
          simp only [hkey, Bool.false_eq_true, if_false, hshallow]
      rw [Op.apply, Config.setKey, hlook]
      refine ih (h.addKey e key pre) (.child (g := fun d => d.addKey env e key pre) (fun _ => rfl)
        fun c hc => ⟨_, Config.child?_addKey_new ?_, rfl, rfl⟩)
      rw [Config.lookupKeyShallow, Config.child?, show c.slot .keys = [] from (hf c hc).2]
      rfl
    | setValue v =>
      exact hvalue (g := fun c => c.setValue v) (fun _ => rfl) (fun c s => by cases s <;> rfl)
        fun _ => ⟨rfl, rfl, rfl⟩
    | setListValue v =>
      exact hvalue (g := fun c => c.setListValue v) (fun _ => rfl) (fun c s => by cases s <;> rfl)
        fun _ => ⟨rfl, rfl, rfl⟩

theorem Exclusive.lookupKey_none {key : String} (h : Exclusive ent root) (hc : root.get? loc = some c)
    (hn : (Config.lookupKey root loc key).2 = none) :
    Config.lookupKey root loc key = (loc, none) ∧ c.lookupKeyShallow key = none := by
  have hc' : root.get? loc = some c := hc
  rw [Config.lookupKey, hc] at hn ⊢
  simp only at hn ⊢
  split at hn
  · rename_i hkc
    -- A key is among the keys of the node above it.
    obtain ⟨hne, hkey⟩ : c.keys ≠ [] ∧ c.keyConfig = true := by simpa [Config.isKeyConfig] using hkc
    rw [if_pos hkc]
    rcases List.eq_nil_or_concat loc with rfl | ⟨pre, s, rfl⟩
    · cases hc'
      rw [h.root] at hkey
      cases hkey
    · rw [List.concat_eq_append] at hn hc hc' ⊢
      rw [List.dropLast_concat] at hn ⊢
      rw [Config.get?_append] at hc'
      obtain ⟨p, hp, hch⟩ := Option.bind_eq_some_iff.mp hc'
      rw [Config.get?_single] at hch
      rw [hp] at hn ⊢
      simp only at hn ⊢
      split at hn
      · cases hn
      · rename_i hfind
        refine ⟨rfl, ?_⟩
        obtain ⟨slot, k⟩ := s
        cases slot with
        | configs =>
          rw [(h.every.get hp).self.plain c (Config.child?_mem hch)] at hkey
          cases hkey
        | keys =>
          have := List.find?_eq_none.mp hfind c (Config.child?_mem hch)
          simpa using this
  · rename_i hkc
    rw [if_neg hkc]
    split at hn
    · cases hn
    · rename_i hs
      rw [hs]
      exact ⟨rfl, rfl⟩

/-- The tokens of a path, when the first node they make can be made. -/
theorem Trace.exclusive (hall : ent.All Entry.Pathed)
    (ht : Trace env cur cmds ops cur') (h : Exclusive ent root) (hx : Excludes ent root loc ops) :
    Exclusive ent (applyOps env ops (root, loc)).1 := by
  induction ht generalizing root loc with
  | nil => exact h
  | @cons cur cur' str e cmds ops _ ht ih =>
    rw [applyOps_cons]
    by_cases hd : cur.isDir = true
    · rw [Cursor.op_dir hd] at hx ⊢
      rw [Cursor.next_dir hd] at ht
      split
      · rename_i hleaf
        have hstate : (Cursor.enter e).state = .stateLeafList := by simp [Cursor.enter, hleaf]
        rw [if_pos hleaf, Excludes] at hx
        obtain rfl := ht.listOps (.inl hstate)
        rw [Op.apply, applyOps_listValues]
        refine (h.setLeafList hall fun c hc hl => ?_).value (g := fun c => c.addValues cmds)
          (fun c s => by cases s <;> rfl) fun _ => ⟨rfl, rfl, rfl⟩
        rw [(Config.get?_lookup hc _).trans hl] at hx
        exact hx c hc
      · rename_i hleaf
        rw [if_neg hleaf, Excludes] at hx
        split at hx
        · rename_i d hg
          have hpre : (root.get? loc).isSome := Config.get?_prefix (by rw [hg]; rfl)
          obtain ⟨c, hc⟩ := Option.isSome_iff_exists.mp hpre
          rw [Op.apply, Config.set_same hc ((Config.get?_lookup hc _).symm.trans hg)]
          exact ih h hx
        · rename_i hg
          refine (h.set hall fun c hc _ => hx c hc).fresh hall (.child (Config.set_keepsName e)
            fun c hc => ⟨_, Config.child?_set_new ?_, rfl, rfl⟩) ops
          exact (Config.get?_lookup hc _).symm.trans hg
    · cases hstate : cur.state <;> simp [Cursor.isDir, hstate] at hd <;>
        simp only [Cursor.op, hstate] at hx ⊢
      case stateKey =>
        rw [Excludes] at hx
        rw [Op.apply, Config.setKey]
        split at hx
        · rename_i l hl
          have hlk : Config.lookupKey root loc str = ((Config.lookupKey root loc str).1, some l) :=
            Prod.ext rfl hl
          rw [hlk]
          exact ih h hx
        · rename_i hl
          cases hc : root.get? loc with
          | none =>
            have hlk : Config.lookupKey root loc str = (loc, none) := by rw [Config.lookupKey, hc]
            rw [hlk]
            refine (h.addKey e str cur.ent.name).fresh hall (.child
              (g := fun d => d.addKey env e str cur.ent.name) (fun _ => rfl) fun c hc' => ?_) ops
            rw [hc] at hc'
            cases hc'
          | some c =>
            obtain ⟨hlk, hs⟩ := h.lookupKey_none hc hl
            rw [hlk]
            refine (h.addKey e str cur.ent.name).fresh hall (.child
              (g := fun d => d.addKey env e str cur.ent.name) (fun _ => rfl) fun c' hc' => ?_) ops
            rw [hc] at hc'
            cases hc'
            exact ⟨_, Config.child?_addKey_new hs, rfl, rfl⟩
      case stateLeaf =>
        obtain ⟨-, rfl⟩ := ht.leafMatched (by simp only [Cursor.next, hstate])
        exact h.value (g := fun c => c.setValue str) (fun c s => by cases s <;> rfl)
          fun _ => ⟨rfl, rfl, rfl⟩
      case stateLeafMatched =>
        obtain ⟨-, rfl⟩ := ht.leafMatched (by simp only [Cursor.next, hstate])
        exact h.value (g := fun c => c.setValue str) (fun c s => by cases s <;> rfl)
          fun _ => ⟨rfl, rfl, rfl⟩
      case stateLeafList | stateLeafListMatched =>
        obtain rfl := ht.listOps (.inr (by simp only [Cursor.next, hstate]))
        rw [Op.apply, applyOps_listValues]
        refine (h.value (g := fun c => c.setListValue str) (fun c s => by cases s <;> rfl)
          fun _ => ⟨rfl, rfl, rfl⟩).value (g := fun c => c.addValues cmds)
          (fun c s => by cases s <;> rfl) fun _ => ⟨rfl, rfl, rfl⟩

end

end OpenConfigd
