import OpenConfigd.Config.Choice
import OpenConfigd.Subscribe.Commit

/-!
# Choices over commits and discards

The candidate and the active tree over runs of sets, deletes, commits and
discards. A discard gives the candidate the copy of the active tree, whose nodes
have no `Case`; from there on a set of another case adds to the old one
(`choice_kept`). As long as sets do not meet such nodes, neither tree ever has
two cases of a choice below a node (`choice_exclusive`).
-/

namespace OpenConfigd

variable {env : Env} {ent : Entry} {diff : List Char → List Char → Option (List Char)}
  {twoPhase : Bool}

namespace Server

/-- `DiscardConfigChange`. -/
def discardConfigChange (s : Server) : Server := { s with candidate := s.active.copy }

/-- `ConfigDiscard`. -/
def configDiscard (env : Env) (diff : List Char → List Char → Option (List Char)) (s : Server) :
    Option Server :=
  (compareCommand env diff s.active s.candidate).map fun text =>
    if text ≠ [] then { s with candidate := s.active.copy } else s

/-- The runs from empty trees, with any subscribers, whose sets meet a condition. -/
inductive Edits (env : Env) (ent : Entry) (diff : List Char → List Char → Option (List Char))
    (twoPhase : Bool) (meets : Config → List String → Prop) : Server → Prop
  | empty (hub : Hub) (next : Nat) : Edits env ent diff twoPhase meets { hub, next }
  | set {s : Server} {cmds : List String} {r : ParseResult} :
    Edits env ent diff twoPhase meets s → parse env ent s.candidate cmds = some r →
      meets s.candidate cmds → Edits env ent diff twoPhase meets { s with candidate := r.tree }
  | delete {s : Server} {cmds : List String} {r : ParseResult} :
    Edits env ent diff twoPhase meets s → parseDelete s.candidate cmds = some r →
      Edits env ent diff twoPhase meets { s with candidate := r.tree }
  | commit {s : Server} {outcome : Nat → Outcome} {r : CallResult} :
    Edits env ent diff twoPhase meets s → s.commit env diff twoPhase outcome = some r →
      Edits env ent diff twoPhase meets r.server
  | discard {s : Server} : Edits env ent diff twoPhase meets s →
      Edits env ent diff twoPhase meets s.discardConfigChange
  | configDiscard {s s' : Server} : Edits env ent diff twoPhase meets s →
      s.configDiscard env diff = some s' → Edits env ent diff twoPhase meets s'

theorem deliver_trees (s : Server) (cmds : List Command) (sync : Bool) (outcome : Nat → Outcome) :
    (s.deliver twoPhase cmds sync outcome).server.active = s.active ∧
      (s.deliver twoPhase cmds sync outcome).server.candidate = s.candidate := by
  simp only [deliver]
  split <;> exact ⟨rfl, rfl⟩

/-- What a commit does to the trees. -/
theorem commit_trees {s : Server} {outcome : Nat → Outcome} {r : CallResult}
    (h : s.commit env diff twoPhase outcome = some r) :
    r.server.candidate = s.candidate ∧
      (r.server.active = s.active ∨ r.server.active = s.candidate.copy) := by
  obtain ⟨text, -, rfl⟩ | ⟨-, cmds, -, ⟨-, rfl⟩ | ⟨-, d, rfl, h⟩⟩ := commit_cases h
  · exact ⟨rfl, .inl rfl⟩
  · exact ⟨rfl, .inl rfl⟩
  · have htrees := @deliver_trees twoPhase s cmds false outcome
    obtain ⟨-, rfl⟩ | ⟨-, rfl⟩ := h
    · exact ⟨htrees.2, .inr rfl⟩
    · exact ⟨htrees.2, .inl htrees.1⟩

end Server

/-- No two children of the node belong to different cases of a choice. -/
def Apart (ent : Entry) (c : Config) : Prop :=
  ∀ d ∈ c.configs, ∀ d' ∈ c.configs, ∀ e e', d.entry = some e → d'.entry = some e' →
    ¬ Rivals ent e e'

theorem Config.Every.mono {P Q : Config → Prop} (hPQ : ∀ c, P c → Q c) {c : Config}
    (h : c.Every P) : c.Every Q := by
  induction h with
  | mk hp _ ih => exact .mk (hPQ _ hp) ih

theorem Exclusive.parse {root : Config} {cmds : List String} {r : ParseResult}
    (hall : ent.All Entry.Pathed) (h : Exclusive ent root) (hp : parse env ent root cmds = some r)
    (hx : Excludes ent root [] (calls env cmds (.root ent))) : Exclusive ent r.tree := by
  rw [parse_eq_plan, Option.map_eq_some_iff] at hp
  obtain ⟨⟨code, ops⟩, hp, rfl⟩ := hp
  obtain ⟨cmds', cur, -, ht, -⟩ := plan_trace hp
  rw [plan_calls hp] at hx
  exact ht.exclusive hall h hx

theorem Exclusive.parseDelete {root : Config} {cmds : List String} {r : ParseResult}
    (h : Exclusive ent root) (hp : parseDelete root cmds = some r) : Exclusive ent r.tree := by
  obtain ⟨-, htree⟩ | ⟨-, l, -, -, htree⟩ := parseDelete_cases hp
  · rw [htree]
    exact h
  · rw [htree]
    refine ⟨h.every.delete (Cased.familial ent) l true, ?_⟩
    rw [show (delete root l true).keyConfig = (delete root l true).toNode.keyConfig from rfl,
      delete_toNode]
    exact h.root

theorem Exclusive.copy {root : Config} (h : Exclusive ent root) : Exclusive ent root.copy := by
  refine ⟨h.every.copy, ?_⟩
  have hroot := h.root
  obtain ⟨n, configs, keys⟩ := root
  exact hroot

/-- In every run whose sets make no node beside a node of a rival case that has lost its
`Case`, neither tree has a node with children of two cases of a choice. -/
theorem choice_exclusive (hall : ent.All Entry.Pathed) {s : Server}
    (hr : s.Edits env ent diff twoPhase fun root cmds =>
      Excludes ent root [] (calls env cmds (.root ent))) :
    s.candidate.Every (Apart ent) ∧ s.active.Every (Apart ent) := by
  have hinv : Exclusive ent s.candidate ∧ Exclusive ent s.active := by
    induction hr with
    | empty => exact ⟨⟨.bare (.bare {}), rfl⟩, .bare (.bare {}), rfl⟩
    | set _ hp hx ih => exact ⟨ih.1.parse hall hp hx, ih.2⟩
    | delete _ hp ih => exact ⟨ih.1.parseDelete hp, ih.2⟩
    | commit _ hc ih =>
      obtain ⟨hcand, hact⟩ := Server.commit_trees hc
      rw [hcand]
      refine ⟨ih.1, ?_⟩
      rcases hact with hact | hact
      · rw [hact]
        exact ih.2
      · rw [hact]
        exact ih.1.copy
    | discard _ ih => exact ⟨ih.2.copy, ih.2⟩
    | configDiscard _ hc ih =>
      obtain ⟨text, -, rfl⟩ := Option.map_eq_some_iff.mp hc
      split
      · exact ⟨ih.2.copy, ih.2⟩
      · exact ih
  exact ⟨hinv.1.every.mono fun c hc => hc.apart, hinv.2.every.mono fun c hc => hc.apart⟩

/-! ## A schema with a choice -/

namespace ChoiceSchema

def udp : Entry :=
  { name := "udp", path := ["protocol", "name", "a", "udp"], parentKind := some .case,
    kind := .leaf, type := some { kind := .empty } }

def tcp : Entry :=
  { name := "tcp", path := ["protocol", "name", "b", "tcp"], parentKind := some .case,
    kind := .leaf, type := some { kind := .empty } }

def caseA : Entry :=
  { name := "a", path := ["protocol", "name", "a"], parentKind := some .choice, kind := .case,
    dir := [udp] }

def caseB : Entry :=
  { name := "b", path := ["protocol", "name", "b"], parentKind := some .choice, kind := .case,
    dir := [tcp] }

def choice : Entry :=
  { name := "name", path := ["protocol", "name"], parentKind := some .directory, kind := .choice,
    dir := [caseA, caseB] }

def protocol : Entry :=
  { name := "protocol", path := ["protocol"], parentKind := some .directory, kind := .directory,
    dir := [choice] }

/-- The container `protocol` of `test-choice.yang`. -/
def root : Entry := { name := "", path := [], kind := .directory, dir := [protocol] }

theorem pathed : root.All Entry.Pathed := by
  decide

theorem rivals : Rivals root tcp udp := by
  have hin (a e : Entry) (h : a.dir = [e]) (he : e.isChoice = false) : e ∈ dirCandidates a := by
    rw [mem_dirCandidates, h, mem_candidates]
    exact ⟨e, List.mem_singleton_self e, by rw [he]; rfl⟩
  refine ⟨choice, caseB, caseA, ?_, rfl, ?_, ?_, by decide, hin caseB tcp rfl rfl,
    hin caseA udp rfl rfl⟩
  · exact .child (.child .self (List.mem_singleton_self protocol)) (List.mem_singleton_self choice)
  · exact List.mem_cons_of_mem _ (List.mem_singleton_self caseB)
  · exact List.mem_cons_self

/-- The tree after `set protocol udp`. -/
def udpTree : Config := { configs := [{ newNode protocol with configs := [(newNode udp).bare] }] }

theorem parse_udp : ∃ r, parse .ascii root {} ["protocol", "udp"] = some r ∧ r.tree = udpTree :=
  Option.map_eq_some_iff.mp
    (show (parse .ascii root {} ["protocol", "udp"]).map (·.tree) = some udpTree by rfl)

end ChoiceSchema

open ChoiceSchema in
/-- A case is set, committed and, after a discard, the other one: both are there. -/
theorem choice_kept : ∃ s : Server,
    s.Edits .ascii ChoiceSchema.root Ascii.diff false (fun _ _ => True) ∧
    ¬ s.candidate.Every (Apart ChoiceSchema.root) := by
  obtain ⟨r₁, h₁, htree₁⟩ := parse_udp
  obtain ⟨r₂, h₂, hne⟩ := Option.map_eq_some_iff.mp (show
    (Server.commit .ascii Ascii.diff false { candidate := udpTree } fun _ => .success).map
      (fun r => r.server.active.configs.isEmpty) = some false by decide)
  have hactive : r₂.server.active.copy = udpTree.copy := by
    rcases (Server.commit_trees h₂).2 with hact | hact
    · rw [hact] at hne
      cases hne
    · rw [hact]
      rfl
  -- The copy of the committed tree has lost the case of `udp`.
  obtain ⟨r₃, h₃, htree₃⟩ := Option.map_eq_some_iff.mp (show
    (parse .ascii ChoiceSchema.root udpTree.copy ["protocol", "tcp"]).map (·.tree) =
      some { configs := [{ newNode protocol with configs := [(newNode tcp).bare,
        { name := "udp", entry := some udp }] }] } by rfl)
  have hrun : r₂.server.Edits .ascii ChoiceSchema.root Ascii.diff false (fun _ _ => True) := by
    rw [← htree₁] at h₂
    exact .commit (.set (.empty {} 0) h₁ trivial) h₂
  have h₄ : parse .ascii ChoiceSchema.root r₂.server.active.copy ["protocol", "tcp"] = some r₃ := by
    rw [hactive]
    exact h₃
  refine ⟨_, .set hrun.discard h₄ trivial, fun h => ?_⟩
  have h : r₃.tree.Every (Apart ChoiceSchema.root) := h
  rw [htree₃] at h
  have hapart := (h.mem .configs _ List.mem_cons_self).self
  exact hapart _ List.mem_cons_self _ (List.mem_cons_of_mem _ List.mem_cons_self) _ _ rfl rfl
    ChoiceSchema.rivals

open ChoiceSchema in
/-- A case is set, and then the other one. -/
theorem choice_exclusive_replaced : ∃ s : Server,
    s.candidate.configs.map (fun c => c.configs.map (·.name)) = [["tcp"]] ∧
    s.candidate.Every (Apart ChoiceSchema.root) := by
  obtain ⟨r₁, h₁, htree₁⟩ := parse_udp
  obtain ⟨r₂, h₂, htree₂⟩ := Option.map_eq_some_iff.mp (show
    (parse .ascii ChoiceSchema.root udpTree ["protocol", "tcp"]).map (·.tree) =
      some { configs := [{ newNode protocol with configs := [(newNode tcp).bare] }] } by rfl)
  have hcalls₁ : calls .ascii ["protocol", "udp"] (.root ChoiceSchema.root) =
      [.set protocol, .set udp] := by rfl
  have hcalls₂ : calls .ascii ["protocol", "tcp"] (.root ChoiceSchema.root) =
      [.set protocol, .set tcp] := by rfl
  have hrun : Server.Edits .ascii ChoiceSchema.root Ascii.diff false (fun root cmds =>
      Excludes ChoiceSchema.root root [] (calls .ascii cmds (.root ChoiceSchema.root)))
      { candidate := r₂.tree } := by
    rw [← htree₁] at h₂
    refine .set (.set (.empty {} 0) h₁ ?_) h₂ ?_
    · show Excludes _ _ _ _
      rw [hcalls₁]
      intro c hc d hd
      cases hc
      cases hd
    · show Excludes _ _ _ _
      rw [hcalls₂, htree₁]
      intro c hc d hd e _ _
      cases hc
      rw [List.mem_singleton.mp hd]
      rfl
  have hex := (choice_exclusive pathed hrun).1
  exact ⟨_, by rw [show ({ candidate := r₂.tree } : Server).candidate = r₂.tree from rfl, htree₂]; rfl,
    hex⟩

end OpenConfigd
