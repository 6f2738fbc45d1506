import OpenConfigd.Subscribe.Discard

/-!
# What a set does to the siblings

`Set` compares the `Case` of the new child with those of its siblings, and looks neither at the
choice a case belongs to nor at the cases around it.

* `caseRight_run`: over runs of sets, deletes, commits and discards a node has the `Case` of its
  entry or none;
* `choice_frame_iff`: when the siblings that go are those of the rival cases.
-/

namespace OpenConfigd

variable {env : Env} {ent : Entry} {diff : List Char → List Char → Option (List Char)}
  {twoPhase : Bool}

/-- The children have the `Case` of their entry or none. -/
def CaseRight (c : Config) : Prop :=
  ∀ d ∈ c.configs, d.case.isSome → d.case = d.entry.bind caseEntry

/-- The node belongs to another case of a choice that the entry belongs to, at any depth. -/
def Config.Rival (ent : Entry) (d : Config) (e : Entry) : Prop :=
  ∃ e', d.entry = some e' ∧ Rivals ent e' e

/-- `Set` of the entry takes the children in rival cases away, and leaves all others. -/
def FramesChoice (env : Env) (ent : Entry) (c : Config) (e : Entry) : Prop :=
  ∀ d ∈ c.configs, d ∈ (c.set env e).configs ↔ ¬ d.Rival ent e

/-- When the child is there, none of its siblings is in a rival case. When it is made, those in rival
cases have their `Case`, and those with another `Case` than the child's are in rival cases. -/
def RivalsMarked (ent : Entry) (c : Config) (e : Entry) : Prop :=
  match c.lookup e.name with
  | some _ => ∀ d ∈ c.configs, ¬ d.Rival ent e
  | none => ∀ d ∈ c.configs, (d.Rival ent e → d.case.isSome) ∧
      (d.case.isSome → (caseEntry e).isSome → d.case ≠ caseEntry e → d.Rival ent e)

theorem CaseRight.familial : Familial CaseRight := by
  intro c c' hk h d' hd' hs
  obtain ⟨d, hd, hkin⟩ := hk d' hd'
  rw [hkin.case] at hs ⊢
  rw [hkin.entry]
  exact h d hd hs

theorem CaseRight.bare (n : Node) : CaseRight n.bare := fun _ hd => absurd hd List.not_mem_nil

/-! ## Runs -/

section

variable {c root : Config}

theorem CaseRight.set (h : c.Every CaseRight) (e : Entry) : (c.set env e).Every CaseRight := by
  cases hn : c.lookup e.name with
  | some d =>
    rw [Config.set_of_some hn]
    exact h
  | none =>
    refine .mk (fun d hd hs => ?_) fun s d hd => ?_
    · rcases (Config.mem_set hn).mp hd with hd | rfl
      · exact h.self d ((c.kept_sublist e).subset hd) hs
      · rfl
    · cases s with
      | configs =>
        rcases (Config.mem_set hn).mp hd with hd | rfl
        · exact h.mem .configs d ((c.kept_sublist e).subset hd)
        · exact .bare (.bare _)
      | keys =>
        rw [show (c.set env e).slot .keys = c.keys from Config.set_keys c e] at hd
        exact h.mem .keys d hd

/-- The fields of a node that `Kin` does not look at can be changed. -/
theorem CaseRight.fields {g : Config → Config} (hs : ∀ c s, (g c).slot s = c.slot s)
    (h : c.Every CaseRight) : (g c).Every CaseRight := by
  refine .mk (CaseRight.familial c _ (fun d hd => ⟨d, ?_, .of_toNode rfl⟩) h.self) fun s d hd => ?_
  · rwa [show (g c).configs = c.configs from hs c .configs] at hd
  · exact h.mem s d (hs c s ▸ hd)

theorem CaseRight.setLeafList (h : c.Every CaseRight) (e : Entry) :
    (c.setLeafList env e).Every CaseRight :=
  Config.Every.modify (l := [⟨.configs, e.name⟩]) CaseRight.familial (CaseRight.set h e)
    fun d hd => ⟨CaseRight.fields (g := Config.clearList) (fun _ s => by cases s <;> rfl)
      ((CaseRight.set h e).get hd), ⟨rfl, rfl, rfl⟩⟩

theorem CaseRight.op (h : root.Every CaseRight) (op : Op) (loc : Loc) :
    (op.apply env (root, loc)).1.Every CaseRight := by
  cases op with
  | set e =>
    exact h.modify CaseRight.familial fun c hc =>
      ⟨CaseRight.set (h.get hc) e, .of_toNode (Config.set_toNode c e)⟩
  | setLeafList e =>
    exact h.modify CaseRight.familial fun c hc =>
      ⟨CaseRight.setLeafList (h.get hc) e, .of_toNode (Config.set_toNode c e)⟩
  | setKey e key pre =>
    rw [Op.apply, Config.setKey]
    split
    · exact h
    · exact h.modify CaseRight.familial fun c hc =>
        ⟨(h.get hc).addKey CaseRight.familial CaseRight.bare e key pre, ⟨rfl, rfl, rfl⟩⟩
  | setValue v =>
    exact h.modify CaseRight.familial fun c hc => ⟨CaseRight.fields (g := fun c => c.setValue v)
      (fun _ s => by cases s <;> rfl) (h.get hc), ⟨rfl, rfl, rfl⟩⟩
  | setListValue v =>
    exact h.modify CaseRight.familial fun c hc => ⟨CaseRight.fields (g := fun c => c.setListValue v)
      (fun _ s => by cases s <;> rfl) (h.get hc), ⟨rfl, rfl, rfl⟩⟩

theorem CaseRight.applyOps (ops : List Op) (h : root.Every CaseRight) (loc : Loc) :
    (applyOps env ops (root, loc)).1.Every CaseRight := by
  induction ops generalizing root loc with
  | nil => exact h
  | cons op ops ih => exact ih (CaseRight.op h op loc) _

/-- The copy of a node has no `Case`. -/
theorem CaseRight.copy (c : Config) : c.copy.Every CaseRight := by
  induction c using Config.ind with
  | h c ih =>
    have hcase (d : Config) : d.copy.case = none := by
      obtain ⟨n, configs, keys⟩ := d
      rfl
    refine .mk (fun d hd hs => ?_) fun s d hd => ?_
    · rw [show c.copy.configs = c.copy.slot .configs from rfl, Config.slot_copy] at hd
      obtain ⟨b, -, rfl⟩ := List.mem_map.mp hd
      rw [hcase b] at hs
      cases hs
    · rw [Config.slot_copy] at hd
      obtain ⟨b, hb, rfl⟩ := List.mem_map.mp hd
      exact ih s b hb

end

/-- Over runs the nodes of both trees have the `Case` of their entry or none. -/
theorem caseRight_run {meets : Config → List String → Prop} {s : Server}
    (hr : s.Edits env ent diff twoPhase meets) :
    s.candidate.Every CaseRight ∧ s.active.Every CaseRight := by
  induction hr with
  | empty => exact ⟨.bare (.bare {}), .bare (.bare {})⟩
  | set _ hp _ ih =>
    rw [parse_eq_plan, Option.map_eq_some_iff] at hp
    obtain ⟨⟨code, ops⟩, -, rfl⟩ := hp
    exact ⟨CaseRight.applyOps ops ih.1 [], ih.2⟩
  | delete _ hp ih =>
    refine ⟨?_, ih.2⟩
    obtain ⟨-, htree⟩ | ⟨-, l, -, -, htree⟩ := parseDelete_cases hp
    · rw [htree]
      exact ih.1
    · rw [htree]
      exact ih.1.delete CaseRight.familial l true
  | commit _ hc ih =>
    obtain ⟨hcand, hact⟩ := Server.commit_trees hc
    rw [hcand]
    refine ⟨ih.1, ?_⟩
    rcases hact with hact | hact
    · rw [hact]
      exact ih.2
    · rw [hact]
      exact CaseRight.copy _
  | discard _ ih => exact ⟨CaseRight.copy _, ih.2⟩
  | configDiscard _ hc ih =>
    obtain ⟨text, -, rfl⟩ := Option.map_eq_some_iff.mp hc
    split
    · exact ⟨CaseRight.copy _, ih.2⟩
    · exact ih

/-! ## One set -/

section

variable {c d : Config} {e : Entry}

/-- A rival of a node that has its `Case` has another one. -/
theorem Config.Rival.case (hall : ent.All Entry.Pathed) (h : d.Rival ent e)
    (hd : d.case = d.entry.bind caseEntry) : (caseEntry e).isSome ∧ d.case ≠ caseEntry e := by
  obtain ⟨e', he', hr⟩ := h
  rw [hd, he', Option.bind_some]
  exact ⟨(hr.symm.case hall).1, (hr.case hall).2⟩

/-- The siblings that a new child leaves. -/
theorem Config.mem_set_of_mem (hn : c.lookup e.name = none) (hd : d ∈ c.configs) :
    d ∈ (c.set env e).configs ↔
      ¬ (d.case.isSome ∧ (caseEntry e).isSome ∧ d.case ≠ caseEntry e) := by
  have hnew : d ≠ (newNode e).bare := fun heq =>
    Keyed.get_eq_none.mp hn d hd (congrArg (fun b : Config => b.name) heq)
  rw [Config.mem_set hn, or_iff_left hnew, Config.kept]
  cases he : caseEntry e with
  | none => simp [hd]
  | some p =>
    have hcase : (newNode e).case = some p := he
    rw [if_pos (show (some p).isSome = true from rfl), exclude, List.mem_filter, hcase]
    cases d.case <;> simp [hd]

end

/-- Which siblings a set takes away, in any state that a run reaches. A child that is there takes
none. A new one takes just those in rival cases if and only if those have their `Case`, and the others
have none or that of the child. -/
theorem choice_frame_iff (hall : ent.All Entry.Pathed) {s : Server}
    (hr : s.Edits env ent diff twoPhase fun _ _ => True) {l : Loc} {c : Config}
    (hc : s.candidate.get? l = some c) (e : Entry) :
    FramesChoice env ent c e ↔ RivalsMarked ent c e := by
  have hright := ((caseRight_run hr).1.get hc).self
  rw [FramesChoice, RivalsMarked]
  split
  · rename_i hn
    rw [Config.set_of_some hn]
    exact forall₂_congr fun d hd => ⟨fun h => h.mp hd, fun h => ⟨fun _ => h, fun _ => hd⟩⟩
  · rename_i hn
    refine forall₂_congr fun d hd => ?_
    rw [Config.mem_set_of_mem hn hd, not_iff_not]
    constructor
    · exact fun h => ⟨fun hrival => (h.mpr hrival).1, fun h₁ h₂ h₃ => h.mp ⟨h₁, h₂, h₃⟩⟩
    · rintro ⟨hmarked, hother⟩
      refine ⟨fun ⟨h₁, h₂, h₃⟩ => hother h₁ h₂ h₃, fun hrival => ?_⟩
      have hs := hmarked hrival
      exact ⟨hs, hrival.case hall (hright d hd hs)⟩

open ChoiceSchema in
/-- `udp` is set, and then `tcp` takes it away. -/
theorem choice_frame_iff_replaced : ∃ (s : Server) (c : Config),
    s.candidate.get? [⟨.configs, "protocol"⟩] = some c ∧ c.configs.map (·.name) = ["udp"] ∧
      FramesChoice .ascii ChoiceSchema.root c tcp := by
  obtain ⟨r, hr, htree⟩ := parse_udp
  have hrun : Server.Edits .ascii ChoiceSchema.root Ascii.diff false (fun _ _ => True)
      { candidate := r.tree } := .set (.empty {} 0) hr trivial
  have hc : ({ candidate := r.tree } : Server).candidate.get? [⟨.configs, "protocol"⟩] =
      some { newNode protocol with configs := [(newNode udp).bare] } := by
    rw [show ({ candidate := r.tree } : Server).candidate = udpTree from htree]
    rfl
  refine ⟨_, _, hc, rfl, (choice_frame_iff pathed hrun hc tcp).mpr fun d hd => ?_⟩
  obtain rfl := List.mem_singleton.mp hd
  exact ⟨fun _ => rfl, fun _ _ _ => ⟨udp, rfl, rivals.symm⟩⟩

/-! ## Two choices and a nested one -/

/-- The entries have no choice of which they belong to different cases. -/
theorem not_rivals {e e' : Entry} (h : ent.All fun x => x.kind = .choice → ∀ a ∈ x.dir, ∀ a' ∈ x.dir,
    a.path ≠ a'.path → e.name ∈ (dirCandidates a).map (·.name) →
      e'.name ∉ (dirCandidates a').map (·.name)) : ¬ Rivals ent e e' := by
  rintro ⟨x, a, a', hx, hk, ha, ha', hne, he, he'⟩
  exact (h.has hx).self hk a ha a' ha' hne (List.mem_map_of_mem he) (List.mem_map_of_mem he')

namespace NestedSchema

def leaf (path : List String) (name : String) : Entry :=
  { name, path := path ++ [name], parentKind := some .case, kind := .leaf,
    type := some { kind := .empty } }

def tcp : Entry := leaf ["link", "transport", "tcp"] "tcp"

def udp : Entry := leaf ["link", "transport", "udp"] "udp"

def fast : Entry := leaf ["link", "transport", "udp", "mode", "fast"] "fast"

def red : Entry := leaf ["link", "color", "red"] "red"

def mode : Entry :=
  { name := "mode", path := ["link", "transport", "udp", "mode"], parentKind := some .case,
    kind := .choice, dir := [
    { name := "fast", path := ["link", "transport", "udp", "mode", "fast"],
      parentKind := some .choice, kind := .case, dir := [fast] }] }

def link : Entry :=
  { name := "link", path := ["link"], parentKind := some .directory, kind := .directory, dir := [
    { name := "transport", path := ["link", "transport"], parentKind := some .directory,
      kind := .choice, dir := [
      { name := "tcp", path := ["link", "transport", "tcp"], parentKind := some .choice,
        kind := .case, dir := [tcp] },
      { name := "udp", path := ["link", "transport", "udp"], parentKind := some .choice,
        kind := .case, dir := [udp, mode] }] },
    { name := "color", path := ["link", "color"], parentKind := some .directory, kind := .choice,
      dir := [
      { name := "red", path := ["link", "color", "red"], parentKind := some .choice, kind := .case,
        dir := [red] }] }] }

/-- A container with two choices, and a choice in a case of one of them. -/
def root : Entry := { name := "", path := [], kind := .directory, dir := [link] }

end NestedSchema

open NestedSchema in
/-- A leaf of a case goes when a leaf of another choice is set, and when one of a choice in its own
case is set. -/
theorem choice_frame_broken : NestedSchema.root.All Entry.Pathed ∧ ∃ (s s' : Server) (c c' : Config),
    s.Edits .ascii NestedSchema.root Ascii.diff false (fun _ _ => True) ∧
    s.candidate.get? [⟨.configs, "link"⟩] = some c ∧ ¬ FramesChoice .ascii NestedSchema.root c red ∧
    s'.Edits .ascii NestedSchema.root Ascii.diff false (fun _ _ => True) ∧
    s'.candidate.get? [⟨.configs, "link"⟩] = some c' ∧
      ¬ FramesChoice .ascii NestedSchema.root c' fast := by
  have broken {e f : Entry} (hr : ¬ Rivals NestedSchema.root e f)
      (hne : (newNode e).bare ∉ (Config.set .ascii { newNode link with
        configs := [(newNode e).bare] } f).configs) :
      ¬ FramesChoice .ascii NestedSchema.root
        { newNode link with configs := [(newNode e).bare] } f := by
    refine fun h => hne ((h _ List.mem_cons_self).mpr ?_)
    rintro ⟨e', he', hrival⟩
    cases he'
    exact hr hrival
  have gone {e f : Entry} (hn : e.name ≠ f.name)
      (h : (Config.set .ascii { newNode link with configs := [(newNode e).bare] } f).configs.map
        (fun d => d.name) = [f.name]) :
      (newNode e).bare ∉ (Config.set .ascii { newNode link with
        configs := [(newNode e).bare] } f).configs := by
    intro hm
    have hname := List.mem_map_of_mem (f := fun d : Config => d.name) hm
    rw [h, List.mem_singleton] at hname
    exact hn hname
  obtain ⟨r, hr, htree⟩ := Option.map_eq_some_iff.mp (show
    (parse .ascii NestedSchema.root {} ["link", "tcp"]).map (·.tree) =
      some { configs := [{ newNode link with configs := [(newNode tcp).bare] }] } by rfl)
  obtain ⟨r', hr', htree'⟩ := Option.map_eq_some_iff.mp (show
    (parse .ascii NestedSchema.root {} ["link", "udp"]).map (·.tree) =
      some { configs := [{ newNode link with configs := [(newNode udp).bare] }] } by rfl)
  refine ⟨by decide, { candidate := r.tree }, { candidate := r'.tree }, _, _, .set (.empty {} 0) hr trivial,
    by rw [htree]; rfl, broken (not_rivals (by decide)) (gone (by decide) (by decide)),
    .set (.empty {} 0) hr' trivial, by rw [htree']; rfl,
    broken (not_rivals (by decide)) (gone (by decide) (by decide))⟩

end OpenConfigd
