import OpenConfigd.Config.Place
import OpenConfigd.Yang.Plan

/-!
# Trees that follow the schema

`Typed env cur c`: the node `c`, at the schema cursor `cur`, has the fields the
`Set` functions give a node there, its children are nodes of entries a token
selects at that cursor, in the slice for them and with distinct names, and so on
below. `Config.walk` follows a place in the tree and the schema together.
A tree stays typed when a typed node is changed to a typed one (`Typed.modify`).
-/

namespace OpenConfigd

namespace Cursor

/-- The next token names a node of the schema. -/
def isDir (cur : Cursor) : Bool :=
  match cur.state with
  | .stateDir | .stateDirMatched | .stateKeyMatched => true
  | _ => false

/-- The cursor on a child. -/
def child (cur : Cursor) : Slot → Entry → Cursor
  | .configs, e => enter e
  | .keys, _ => cur.enterKey

end Cursor

variable {env : Env}

/-- The fields of a child apart from its value: what `Set` and `SetKey` give it. -/
def Edge (env : Env) (cur : Cursor) : Slot → Node → Entry → Prop
  | .configs, n, e => cur.isDir = true ∧ (∃ str, cur.Selects env str e) ∧
    n = { newNode e with hasValue := n.hasValue, value := n.value, valueList := n.valueList }
  | .keys, n, e => cur.state = .stateKey ∧ cur.Selects env n.name e ∧
    n = { newKey e n.name cur.ent.name with keyOnlyConfig := n.keyOnlyConfig } ∧
    (n.keyOnlyConfig = true → cur.enterKey.state = .stateKey)

/-- The value of a node: a token that matches its type, a list of such, or none. -/
def Content (env : Env) (cur : Cursor) (n : Node) : Prop :=
  match cur.state with
  | .stateLeaf => n.valueList = [] ∧
    (n.hasValue = false ∧ n.value = "" ∨ n.hasValue = true ∧ ∃ e, cur.Selects env n.value e)
  | .stateLeafList => n.value = "" ∧ (∀ v ∈ n.valueList, ∃ e, cur.Selects env v e) ∧
    (n.valueList ≠ [] → n.hasValue = true)
  | _ => n.value = "" ∧ n.valueList = [] ∧ n.hasValue = false

/-- The node and everything below it follow the schema. -/
inductive Typed (env : Env) : Cursor → Config → Prop
  | mk {cur : Cursor} {c : Config} :
    Content env cur c.toNode →
    (∀ s, ((c.slot s).map (·.name)).Nodup) →
    (∀ d ∈ c.configs, ∀ d' ∈ c.configs, d.case.isSome → d'.case.isSome → d.case = d'.case) →
    (∀ s, ∀ d ∈ c.slot s, ∃ e, Edge env cur s d.toNode e) →
    (∀ s, ∀ d ∈ c.slot s, ∀ e, d.entry = some e → Typed env (cur.child s e) d) →
    Typed env cur c

namespace Typed

variable {cur : Cursor} {c d : Config}

theorem content : Typed env cur c → Content env cur c.toNode
  | .mk h _ _ _ _ => h

theorem nodup : Typed env cur c → ∀ s, ((c.slot s).map (·.name)).Nodup
  | .mk _ h _ _ _ => h

/-- The children that belong to a case belong to the same one. -/
theorem oneCase : Typed env cur c →
    ∀ d ∈ c.configs, ∀ d' ∈ c.configs, d.case.isSome → d'.case.isSome → d.case = d'.case
  | .mk _ _ h _ _ => h

theorem edge : Typed env cur c → ∀ s, ∀ d ∈ c.slot s, ∃ e, Edge env cur s d.toNode e
  | .mk _ _ _ h _ => h

theorem child : Typed env cur c → ∀ s, ∀ d ∈ c.slot s, ∀ e, d.entry = some e →
    Typed env (cur.child s e) d
  | .mk _ _ _ _ h => h

end Typed

theorem Edge.entry {cur : Cursor} {s : Slot} {n : Node} {e : Entry} (h : Edge env cur s n e) :
    n.entry = some e := by
  cases s with
  | configs => rw [h.2.2]; rfl
  | keys => rw [h.2.2.1]; rfl

theorem Edge.name_configs {cur : Cursor} {n : Node} {e : Entry}
    (h : Edge env cur .configs n e) : n.name = e.name := by
  rw [h.2.2]
  rfl

/-! ## Walking the tree and the schema -/

/-- The cursor and the node at a place. -/
def Config.walk (cur : Cursor) (c : Config) : Loc → Option (Cursor × Config)
  | [] => some (cur, c)
  | s :: l =>
    match c.child? s with
    | none => none
    | some d =>
      match d.entry with
      | none => none
      | some e => d.walk (cur.child s.slot e) l

namespace Config

variable {cur cur' : Cursor} {c d : Config} {l : Loc}

theorem walk_cons {s : Step} {e : Entry} (hc : c.child? s = some d) (he : d.entry = some e) :
    c.walk cur (s :: l) = d.walk (cur.child s.slot e) l := by
  rw [walk, hc]
  simp only [he]

theorem walk_append (l l' : Loc) : c.walk cur (l ++ l') =
    (c.walk cur l).bind fun p => p.2.walk p.1 l' := by
  induction l generalizing c cur with
  | nil => rfl
  | cons s l ih =>
    rw [List.cons_append, walk, walk]
    split
    · rfl
    · split
      · rfl
      · exact ih

theorem walk_snoc {s : Step} (h : c.walk cur (l ++ [s]) = some (cur', d)) :
    ∃ cur₁ p e, c.walk cur l = some (cur₁, p) ∧ p.child? s = some d ∧ d.entry = some e ∧
      cur' = cur₁.child s.slot e := by
  rw [walk_append, Option.bind_eq_some_iff] at h
  obtain ⟨⟨cur₁, p⟩, hw, h⟩ := h
  rw [walk] at h
  split at h
  · cases h
  · rename_i b hb
    split at h
    · cases h
    · rename_i e he
      cases h
      exact ⟨cur₁, p, e, hw, hb, he, rfl⟩

theorem get?_of_walk (h : c.walk cur l = some (cur', d)) : c.get? l = some d := by
  induction l generalizing c cur with
  | nil =>
    cases h
    rfl
  | cons s l ih =>
    rw [walk] at h
    split at h
    · cases h
    · rename_i b hb
      split at h
      · cases h
      · rw [get?_cons, hb]
        exact ih h

end Config

namespace Typed

variable {cur cur' : Cursor} {c d : Config} {l : Loc}

theorem child?_edge (h : Typed env cur c) {s : Step} (hd : c.child? s = some d) :
    ∃ e, Edge env cur s.slot d.toNode e ∧ d.entry = some e ∧ Typed env (cur.child s.slot e) d := by
  have hm := Config.child?_mem hd
  obtain ⟨e, he⟩ := h.edge s.slot d hm
  exact ⟨e, he, he.entry, h.child s.slot d hm e he.entry⟩

theorem walk_of_get (h : Typed env cur c) (hg : c.get? l = some d) :
    ∃ cur', c.walk cur l = some (cur', d) ∧ Typed env cur' d := by
  induction l generalizing c cur with
  | nil =>
    cases hg
    exact ⟨cur, rfl, h⟩
  | cons s l ih =>
    rw [Config.get?_cons] at hg
    obtain ⟨b, hb, hg⟩ := Option.bind_eq_some_iff.mp hg
    obtain ⟨e, -, he, ht⟩ := h.child?_edge hb
    rw [Config.walk_cons hb he]
    exact ih ht hg

theorem of_walk (h : Typed env cur c) (hw : c.walk cur l = some (cur', d)) : Typed env cur' d := by
  obtain ⟨cur'', hw', ht⟩ := h.walk_of_get (Config.get?_of_walk hw)
  rw [hw] at hw'
  cases hw'
  exact ht

end Typed

/-- A change of a node that keeps what its parent says of it. -/
structure KeepsEdge (env : Env) (cur : Cursor) (d d' : Config) : Prop where
  name : d'.name = d.name
  case : d'.case = d.case
  edge : ∀ cur₀ s e, cur₀.child s e = cur → Edge env cur₀ s d.toNode e → Edge env cur₀ s d'.toNode e

theorem KeepsEdge.of_toNode {cur : Cursor} {d d' : Config} (h : d'.toNode = d.toNode) :
    KeepsEdge env cur d d' := by
  refine ⟨?_, ?_, fun cur₀ s e _ he => ?_⟩
  · rw [show d'.name = d'.toNode.name from rfl, h]
  · rw [show d'.case = d'.toNode.case from rfl, h]
  · rw [h]
    exact he

namespace Typed

variable {cur cur' : Cursor} {c d : Config}

theorem modifyChild (h : Typed env cur c) {s : Step} {e : Entry} (hc : c.child? s = some d)
    (he : d.entry = some e) {f : Config → Config} (hf : Typed env (cur.child s.slot e) (f d))
    (hk : KeepsEdge env (cur.child s.slot e) d (f d)) : Typed env cur (c.modifyChild s f) := by
  -- Only the child that the step finds is changed.
  have mem {t : Slot} {b : Config} (hb : b ∈ (c.modifyChild s f).slot t) :
      b ∈ c.slot t ∨ t = s.slot ∧ b = f d := by
    rw [Config.slot_modifyChild] at hb
    split at hb
    · rename_i ht
      rcases Keyed.mem_modify hb with hb | ⟨a, ha, rfl⟩
      · exact .inl hb
      · subst ht
        have : c.child? s = some a := ha
        rw [hc] at this
        cases this
        exact .inr ⟨rfl, rfl⟩
    · exact .inl hb
  have hd := Config.child?_mem hc
  have hedge : Edge env cur s.slot (f d).toNode e := by
    obtain ⟨e', he'⟩ := h.edge _ d hd
    have : e' = e := Option.some_injective _ (he'.entry.symm.trans he)
    exact hk.edge cur s.slot e rfl (this ▸ he')
  refine .mk ?_ (fun t => ?_) ?_ (fun t b hb => ?_) (fun t b hb e' he' => ?_)
  · rw [Config.modifyChild_toNode]
    exact h.content
  · rw [Config.slot_modifyChild]
    split
    · rename_i ht
      subst ht
      rw [Keyed.map_modify fun c : Config => c.name]
      · exact h.nodup s.slot
      · intro a ha
        have : c.child? s = some a := ha
        rw [hc] at this
        cases this
        exact hk.name
    · exact h.nodup t
  · have old {b : Config} (hb : b ∈ (c.modifyChild s f).slot .configs) :
        ∃ b' ∈ c.configs, b'.case = b.case := by
      rcases mem hb with hb | ⟨hs, rfl⟩
      · exact ⟨b, hb, rfl⟩
      · exact ⟨d, by rw [← hs] at hd; exact hd, hk.case.symm⟩
    intro b hb b' hb' hs hs'
    obtain ⟨a, ha, hab⟩ := old hb
    obtain ⟨a', ha', hab'⟩ := old hb'
    rw [← hab, ← hab']
    exact h.oneCase a ha a' ha' (hab ▸ hs) (hab' ▸ hs')
  · rcases mem hb with hb | ⟨rfl, rfl⟩
    · exact h.edge t b hb
    · exact ⟨e, hedge⟩
  · rcases mem hb with hb | ⟨rfl, rfl⟩
    · exact h.child t b hb e' he'
    · have : e' = e := Option.some_injective _ (he'.symm.trans hedge.entry)
      rw [this]
      exact hf

/-- A typed tree stays typed when the node at a place is changed to a typed one. -/
theorem modify (h : Typed env cur c) {l : Loc} (hw : c.walk cur l = some (cur', d))
    {f : Config → Config} (hf : Typed env cur' (f d)) (hk : KeepsEdge env cur' d (f d)) :
    Typed env cur (c.modify l f) := by
  induction l generalizing c cur with
  | nil =>
    cases hw
    exact hf
  | cons s l ih =>
    rw [Config.walk] at hw
    split at hw
    · cases hw
    · rename_i b hb
      split at hw
      · cases hw
      · rename_i e he
        obtain ⟨e', hedge, he', ht⟩ := h.child?_edge hb
        rw [he] at he'
        cases he'
        refine h.modifyChild hb he (ih ht hw) ?_
        cases l with
        | nil =>
          cases hw
          exact hk
        | cons t l => exact .of_toNode (Config.modify_toNode b t l f)

/-! ## The `Set` functions -/

theorem bare {n : Node} (h : Content env cur n) : Typed env cur n.bare := by
  have hs (s : Slot) : n.bare.slot s = [] := by cases s <;> rfl
  refine .mk h (fun s => ?_) (fun d hd => ?_) (fun s d hd => ?_) (fun s d hd => ?_)
  · rw [hs]
    exact List.nodup_nil
  · cases hd
  · rw [hs] at hd
    cases hd
  · rw [hs] at hd
    cases hd

end Typed

/-- A node without a value. -/
theorem Content.none {cur : Cursor} {n : Node} (h : n.value = "") (hl : n.valueList = [])
    (hh : n.hasValue = false) : Content env cur n := by
  rw [Content]
  split
  · exact ⟨hl, .inl ⟨hh, h⟩⟩
  · exact ⟨h, by simp [hl], fun hv => absurd hl hv⟩
  · exact ⟨h, hl, hh⟩

section

variable {cur : Cursor} {c : Config} {e : Entry} {str : String}

/-- The children `Set` keeps when it creates a node for `e`. -/
def Config.kept (c : Config) (e : Entry) : List Config :=
  if (caseEntry e).isSome then exclude c.configs (newNode e) else c.configs

theorem Config.set_of_some {d : Config} (h : c.lookup e.name = some d) : c.set env e = c := by
  rw [Config.set, h]

theorem Config.set_of_none (h : c.lookup e.name = none) : c.set env e =
    { c with configs := env.sort configLess (c.kept e ++ [(newNode e).bare]) } := by
  rw [Config.set, h]
  by_cases hc : (caseEntry e).isSome = true
  · simp [Config.kept, newNode, hc, exclude, Node.bare]
  · simp [Config.kept, newNode, hc]

theorem Config.kept_sublist (c : Config) (e : Entry) : (c.kept e).Sublist c.configs := by
  rw [Config.kept]
  split
  · exact List.filter_sublist
  · exact List.Sublist.refl _

/-- Distinct names stay distinct when a node of a new name is appended. -/
theorem nodup_append_new {l : List Config} (h : (l.map (·.name)).Nodup) {b : Config} {m : String}
    (hm : b.name = m) (hb : Keyed.get (·.name) m l = none) :
    ((l ++ [b]).map (·.name)).Nodup := by
  subst hm
  rw [List.map_append, List.nodup_append]
  refine ⟨h, List.nodup_singleton _, fun a ha a' ha' haa => ?_⟩
  obtain ⟨d, hd, rfl⟩ := List.mem_map.mp ha
  exact Keyed.get_eq_none.mp hb d hd (haa.trans (List.mem_singleton.mp ha'))

theorem get_sort_append {l : List Config} (h : (l.map (·.name)).Nodup) {b : Config} {m : String}
    (hm : b.name = m) (hb : Keyed.get (·.name) m l = none) (n : String) :
    Keyed.get (·.name) n (env.sort configLess (l ++ [b])) =
      if m = n then some b else Keyed.get (·.name) n l := by
  have hp := (env.sort_perm configLess (l ++ [b])).symm
  rw [← Keyed.get_perm hp (nodup_append_new h hm hb), Keyed.get_append, Keyed.get_cons, hm]
  by_cases hn : m = n
  · rw [if_pos hn, if_pos hn, ← hn, hb]
    rfl
  · rw [if_neg hn, if_neg hn, Keyed.get_nil, Option.or_none]

theorem Config.get_kept_none {n : String} (h : c.lookup n = none) :
    Keyed.get (·.name) n (c.kept e) = none :=
  Keyed.get_eq_none.mpr fun d hd => Keyed.get_eq_none.mp h d ((c.kept_sublist e).subset hd)

theorem Config.kept_nodup (h : (c.configs.map (·.name)).Nodup) (hn : c.lookup e.name = none) :
    ((c.kept e ++ [(newNode e).bare]).map (·.name)).Nodup :=
  nodup_append_new (h.sublist ((c.kept_sublist e).map _)) rfl (Config.get_kept_none hn)

theorem Config.case_of_kept {d : Config} (h : d ∈ c.kept e) (he : (caseEntry e).isSome)
    (hd : d.case.isSome) : d.case = caseEntry e := by
  rw [Config.kept, if_pos he] at h
  rcases Bool.or_eq_true _ _ ▸ (List.mem_filter.mp h).2 with hn | hc
  · rw [Option.isNone_iff_eq_none.mp hn] at hd
    cases hd
  · exact of_decide_eq_true hc

theorem Config.mem_set {d : Config} (hn : c.lookup e.name = none) :
    d ∈ (c.set env e).configs ↔ d ∈ c.kept e ∨ d = (newNode e).bare := by
  rw [Config.set_of_none hn]
  simp [(env.sort_perm configLess _).mem_iff]

@[simp] theorem Config.set_toNode (c : Config) (e : Entry) : (c.set env e).toNode = c.toNode := by
  rw [Config.set]
  split <;> rfl

@[simp] theorem Config.set_keys (c : Config) (e : Entry) : (c.set env e).keys = c.keys := by
  rw [Config.set]
  split <;> rfl

theorem Typed.set (h : Typed env cur c) (hd : cur.isDir = true) (hs : cur.Selects env str e) :
    Typed env cur (c.set env e) := by
  cases hn : c.lookup e.name with
  | some d =>
    rw [Config.set_of_some hn]
    exact h
  | none =>
    have hb : Typed env (.enter e) (newNode e).bare := .bare (.none rfl rfl rfl)
    have mem {b : Config} (hb : b ∈ (c.set env e).slot .configs) :
        b ∈ c.configs ∨ b = (newNode e).bare :=
      ((Config.mem_set hn).mp hb).imp_left fun hb => (c.kept_sublist e).subset hb
    refine .mk ?_ (fun s => ?_) ?_ (fun s b hb => ?_) (fun s b hb' e' he' => ?_)
    · rw [Config.set_toNode]
      exact h.content
    · cases s with
      | configs =>
        have hp : ((c.set env e).configs.map (·.name)).Perm
            ((c.kept e ++ [(newNode e).bare]).map (·.name)) := by
          rw [Config.set_of_none hn]
          exact (env.sort_perm _ _).map _
        exact hp.nodup_iff.mpr (Config.kept_nodup (h.nodup .configs) hn)
      | keys =>
        rw [show (c.set env e).slot .keys = c.keys from Config.set_keys c e]
        exact h.nodup .keys
    · intro b hb b' hb' hs hs'
      have bare {b' : Config} (hb' : b' ∈ (c.set env e).configs) (hs' : b'.case.isSome)
          (he : (caseEntry e).isSome) : b'.case = caseEntry e := by
        rcases (Config.mem_set hn).mp hb' with hb' | rfl
        · exact Config.case_of_kept hb' he hs'
        · rfl
      rcases mem hb with hm | rfl
      · rcases mem hb' with hm' | rfl
        · exact h.oneCase b hm b' hm' hs hs'
        · exact bare hb hs hs'
      · exact (bare hb' hs' hs).symm
    · cases s with
      | configs =>
        rcases mem hb with hb | rfl
        · exact h.edge .configs b hb
        · exact ⟨e, hd, ⟨str, hs⟩, rfl⟩
      | keys => exact h.edge .keys b (by simpa [Config.slot] using hb)
    · cases s with
      | configs =>
        rcases mem hb' with hb' | rfl
        · exact h.child .configs b hb' e' he'
        · cases he'
          exact hb
      | keys => exact h.child .keys b (by simpa [Config.slot] using hb') e' he'

theorem Config.addKey_keys_perm (c : Config) (e : Entry) (key pre : String) :
    ((c.addKey env e key pre).keys).Perm (c.keys ++ [(newKey e key pre).bare]) :=
  env.sort_perm _ _

theorem Config.mem_addKey {key pre : String} {d : Config} :
    d ∈ (c.addKey env e key pre).keys ↔ d ∈ c.keys ∨ d = (newKey e key pre).bare := by
  rw [(c.addKey_keys_perm e key pre).mem_iff]
  simp

theorem Config.child?_set_self (h : (c.configs.map (·.name)).Nodup) :
    (c.set env e).child? ⟨.configs, e.name⟩ = some ((c.lookup e.name).getD (newNode e).bare) := by
  cases hn : c.lookup e.name with
  | some d =>
    rw [Config.set_of_some hn]
    exact hn
  | none =>
    rw [Config.set_of_none hn]
    have hk := h.sublist ((c.kept_sublist e).map (·.name))
    exact (get_sort_append hk rfl (Config.get_kept_none hn) e.name).trans (if_pos rfl)

theorem Config.child?_set_ne (h : (c.configs.map (·.name)).Nodup) (hk : c.kept e = c.configs)
    {s : Step} (hs : s ≠ ⟨.configs, e.name⟩) : (c.set env e).child? s = c.child? s := by
  obtain ⟨slot, n⟩ := s
  cases slot with
  | keys => rw [Config.child?, Config.child?, Config.slot, Config.slot, Config.set_keys]
  | configs =>
    cases hn : c.lookup e.name with
    | some d => rw [Config.set_of_some hn]
    | none =>
      rw [Config.set_of_none hn, hk]
      exact (get_sort_append h (m := e.name) rfl hn n).trans (if_neg fun he : e.name = n => hs (he ▸ rfl))

theorem Config.child?_set_sub (h : (c.configs.map (·.name)).Nodup) {s : Step}
    (hs : s ≠ ⟨.configs, e.name⟩) :
    (c.set env e).child? s = c.child? s ∨ (c.set env e).child? s = none := by
  obtain ⟨slot, n⟩ := s
  cases slot with
  | keys => exact .inl (by rw [Config.child?, Config.child?, Config.slot, Config.slot, Config.set_keys])
  | configs =>
    cases hn : c.lookup e.name with
    | some d => exact .inl (by rw [Config.set_of_some hn])
    | none =>
      have hk := h.sublist ((c.kept_sublist e).map (·.name))
      have : (c.set env e).child? ⟨.configs, n⟩ = Keyed.get (·.name) n (c.kept e) := by
        rw [Config.set_of_none hn]
        exact (get_sort_append hk (m := e.name) rfl (Config.get_kept_none hn) n).trans
          (if_neg fun he : e.name = n => hs (he ▸ rfl))
      rw [this]
      exact Keyed.get_sublist (c.kept_sublist e) h n

theorem Config.child?_addKey {key pre : String} (h : (c.keys.map (·.name)).Nodup)
    (hn : c.lookupKeyShallow key = none) (s : Step) : (c.addKey env e key pre).child? s =
      if s = ⟨.keys, key⟩ then some (newKey e key pre).bare else c.child? s := by
  obtain ⟨slot, n⟩ := s
  cases slot with
  | configs => rfl
  | keys =>
    refine (get_sort_append h (m := key) rfl hn n).trans ?_
    by_cases hk : key = n
    · subst hk
      rw [if_pos rfl, if_pos rfl]
    · rw [if_neg hk, if_neg (by simpa using fun h : n = key => hk h.symm)]
      rfl

theorem Typed.addKey {key : String} (h : Typed env cur c) (hk : cur.state = .stateKey)
    (hs : cur.Selects env key e) (hn : c.lookupKeyShallow key = none) :
    Typed env cur (c.addKey env e key cur.ent.name) := by
  refine .mk ?_ (fun s => ?_) h.oneCase (fun s b hb => ?_) (fun s b hb e' he' => ?_)
  · have := h.content
    simp only [Content, hk] at this ⊢
    exact this
  · cases s with
    | configs => exact h.nodup .configs
    | keys =>
      have hp := (@Config.addKey_keys_perm env c e key cur.ent.name).map (·.name)
      exact hp.nodup_iff.mpr (nodup_append_new (h.nodup .keys) rfl hn)
  · cases s with
    | configs => exact h.edge .configs b hb
    | keys =>
      rcases Config.mem_addKey.mp hb with hb | rfl
      · exact h.edge .keys b hb
      · exact ⟨e, hk, hs, rfl, fun h => by cases h⟩
  · cases s with
    | configs => exact h.child .configs b hb e' he'
    | keys =>
      rcases Config.mem_addKey.mp hb with hb | rfl
      · exact h.child .keys b hb e' he'
      · exact .bare (.none rfl rfl rfl)

theorem Typed.clearList (h : Typed env cur c) (hl : cur.state = .stateLeafList) :
    Typed env cur c.clearList := by
  refine .mk ?_ h.nodup h.oneCase h.edge h.child
  have := h.content
  simp only [Content, hl] at this ⊢
  exact ⟨this.1, by simp [Config.clearList], fun hv => absurd rfl hv⟩

/-- A change of the value of a leaf keeps what the parent says of it. -/
theorem KeepsEdge.of_value {d d' : Config}
    (hl : cur.state = .stateLeaf ∨ cur.state = .stateLeafList)
    (hd : d'.toNode = { d.toNode with
      hasValue := d'.hasValue, value := d'.value, valueList := d'.valueList }) :
    KeepsEdge env cur d d' := by
  refine ⟨?_, ?_, fun cur₀ s e' hc he => ?_⟩
  · rw [show d'.name = d'.toNode.name from rfl, hd]
  · rw [show d'.case = d'.toNode.case from rfl, hd]
  · cases s with
    | configs =>
      obtain ⟨hdir, hs, hn⟩ := he
      refine ⟨hdir, hs, ?_⟩
      rw [hd, hn]
    | keys =>
      -- No key node has the cursor of a leaf.
      rw [← hc, Cursor.child, Cursor.enterKey] at hl
      split at hl <;> simp at hl

theorem KeepsEdge.addKey {key pre : String} (hk : cur.state = .stateKey) :
    KeepsEdge env cur c (c.addKey env e key pre) := by
  refine ⟨rfl, rfl, fun cur₀ s e' hc he => ?_⟩
  cases s with
  | configs =>
    obtain ⟨hd, hs, hn⟩ := he
    refine ⟨hd, hs, ?_⟩
    obtain ⟨⟨name, entry, kc, ko, hv, v, vl, kp, cs⟩, configs, keys⟩ := c
    simp only [newNode, Node.mk.injEq] at hn
    simp [Config.addKey, newNode, hn]
  | keys =>
    obtain ⟨hd, hs, hn, ho⟩ := he
    refine ⟨hd, hs, ?_, fun _ => ?_⟩
    · obtain ⟨⟨name, entry, kc, ko, hv, v, vl, kp, cs⟩, configs, keys⟩ := c
      simp only [newKey, Node.mk.injEq] at hn
      simp [Config.addKey, newKey, hn]
    · rw [show cur₀.enterKey = cur from hc]
      exact hk

theorem Typed.setValue {v : String} (h : Typed env cur c) (hl : cur.state = .stateLeaf)
    (hs : cur.Selects env v e) : Typed env cur (c.setValue v) := by
  refine .mk ?_ h.nodup h.oneCase h.edge h.child
  have := h.content
  simp only [Content, hl] at this ⊢
  exact ⟨this.1, .inr ⟨rfl, e, hs⟩⟩

theorem Typed.setListValue {v : String} (h : Typed env cur c) (hl : cur.state = .stateLeafList)
    (hs : cur.Selects env v e) : Typed env cur (c.setListValue v) := by
  refine .mk ?_ h.nodup h.oneCase h.edge h.child
  have := h.content
  simp only [Content, hl] at this ⊢
  refine ⟨this.1, fun w hw => ?_, fun _ => rfl⟩
  rcases List.mem_append.mp hw with hw | hw
  · exact this.2.1 w hw
  · rw [List.mem_singleton.mp hw]
    exact ⟨e, hs⟩

end

end OpenConfigd
