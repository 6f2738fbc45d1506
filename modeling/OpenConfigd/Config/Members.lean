import OpenConfigd.Config.Bools
import OpenConfigd.Config.Choice

/-!
# Values and their types

`Parse` stores the token it has matched. `type_safety`: every key and every value is one of
its leaf's type, in a run in which the matcher is right about each token (`exactTokens`).
It is wrong about a name that is abbreviated or has white space in it, and takes it unless
it is the last token; about a number with a fraction, or in a union; and about a string
with a further pattern, or one that `^` and `$` do not bind as a whole.
-/

namespace OpenConfigd

/-! ## Types -/

/-- The number is an integer, and not `min` or `max`. -/
def Number.whole (n : Number) : Bool :=
  (n.kind = .positive || n.kind = .negative) && n.fractionDigits = 0

/-- The number lies in a part of the range, if there is one. -/
def inRange (range : List YRange) (n : Number) : Bool :=
  range.isEmpty || range.any fun r => n.less r.min == some false && r.max.less n == some false

/-- The pattern matches the whole value. -/
def Env.matchesWhole (env : Env) (v pattern : String) : Bool :=
  (env.compile ("^(" ++ pattern ++ ")$")).any fun regex => regex v

/-- The names of a boolean or an enumeration. -/
def YangType.names (t : YangType) : List String :=
  match t.kind with
  | .bool => ["true", "false"]
  | .enum => t.enumNames
  | _ => []

/-- The value is one of the type. -/
inductive YangType.Allows (env : Env) : YangType → String → Prop
  | integer {t : YangType} {v : String} {num : Number} : t.kind.isInteger = true →
    env.parseNumber v = some num → num.whole = true → inRange t.range num = true → Allows env t v
  | string {t : YangType} {v : String} : t.kind = .string →
    (∀ p ∈ t.pattern, env.matchesWhole v p = true) → Allows env t v
  | name {t : YangType} {v : String} : v ∈ t.names → Allows env t v
  | union {t member : YangType} {v : String} : t.kind = .union → member ∈ t.types →
    Allows env member v → Allows env t v

/-- The value is one of the leaf's type. -/
def Entry.Allows (env : Env) (e : Entry) (v : String) : Prop :=
  ∃ x t, e.target env = some x ∧ x.type = some t ∧ t.Allows env v

/-! ## The tokens -/

/-- What `MatchType` is wrong about in a token for the leaf `e` with the type `t`, the token
avoids. A name is spelled out, or has no white space and abbreviates none, unless it is the last
token and the names have no white space; a number is an integer and, in a union, in the range; and
a string that the first pattern lets pass matches each pattern as a whole. -/
def YangType.exact (env : Env) (e : Entry) (t : YangType) (last : Bool) (str : String) : Bool :=
  (t.names.isEmpty || t.names.contains str ||
    (decide (OneWord str) && t.names.all fun name => !str.toList.isPrefixOf name.toList ||
      last && decide (OneWord name))) &&
  (!t.kind.isInteger || (env.parseNumber str).all fun num =>
    num.whole && (e.type.map (·.kind) ≠ some .union || inRange t.range num)) &&
  (t.kind ≠ .string || matchString env str t = .typeNone || t.pattern.all (env.matchesWhole str))

/-- The type of the leaf that takes the token, with the match `m`, is right about it. -/
def Entry.exact (env : Env) (e : Entry) (last : Bool) (m : MatchType) (str : String) : Bool :=
  e.matchedTypes.all fun t =>
    !((typeAlternatives e t).any fun y => altMatch env str y = m) || t.exact env e last str

/-- The tokens of a command avoid what the matcher is wrong about. -/
def exactTokens (env : Env) : List String → Cursor → Bool
  | [], _ => true
  | str :: cmds, cur =>
    match cur.select env str with
    | some (.unique e m) =>
      (cur.leaf env).all (fun leaf => leaf.exact env cmds.isEmpty m str) && exactTokens env cmds (cur.next e)
    | _ => true

section

variable {env : Env} {e x : Entry} {t : YangType} {str : String} {last : Bool} {m : MatchType}

theorem longestCommon_take : ∀ l l' : List Char, l.take (longestCommon l l') = l'.take (longestCommon l l')
  | [], l' => by cases l' <;> rfl
  | a :: l, [] => rfl
  | a :: l, b :: l' => by
    rw [longestCommon]
    split
    · next hab => rw [List.take_succ_cons, List.take_succ_cons, longestCommon_take l l', hab]
    · rfl

/-- One word that a name matches is a part of the name. -/
theorem matchKeyword_prefix {name : String} (hs : OneWord str) (h : matchKeyword str name ≠ .typeNone) :
    str.toList <+: name.toList := by
  have hd : isDelimiter str.toList (longestCommon str.toList name.toList) = true := by
    by_contra hd
    exact h (by simp [matchKeyword, hd])
  have htake := longestCommon_take str.toList name.toList
  rw [List.take_of_length_le (hs.length_le hd)] at htake
  rw [htake]
  exact List.take_prefix _ _

/-- A name that is matched as it should be is one of the type's. -/
theorem YangType.exact.name {name : String} (h : t.exact env e last str = true) (hn : name ∈ t.names)
    (hm : matchKeyword str name ≠ .typeNone) (hlast : last = true → matchKeyword str name ≠ .typePartial) :
    str ∈ t.names := by
  rw [YangType.exact, Bool.and_eq_true, Bool.and_eq_true] at h
  have hne : t.names.isEmpty = false := by
    simpa using List.ne_nil_of_mem hn
  simp only [hne, Bool.false_or, Bool.or_eq_true, List.contains_eq_mem, decide_eq_true_eq] at h
  rcases h.1.1 with h | h
  · exact h
  · rw [Bool.and_eq_true, decide_eq_true_eq, List.all_eq_true] at h
    obtain ⟨hword, hall⟩ := h
    have hpre := matchKeyword_prefix hword hm
    have hname := hall name hn
    rw [List.isPrefixOf_iff_prefix.mpr hpre, Bool.not_true, Bool.false_or, Bool.and_eq_true,
      decide_eq_true_eq] at hname
    -- The last token is no abbreviation, so the word is the name.
    have hexact : matchKeyword str name = .typeExact := by
      have hp := hlast hname.1
      cases hk : matchKeyword str name with
      | typeNone => exact absurd hk hm
      | typePartial => exact absurd hk hp
      | typeExact => rfl
      | typeRange =>
        simp only [matchKeyword] at hk
        split at hk
        · cases hk
        · split at hk <;> cases hk
    rw [matchKeyword_exact hword hname.2 hexact]
    exact hn

theorem YangType.exact.number (h : t.exact env e last str = true) (hk : t.kind.isInteger = true)
    (hu : e.type.map (·.kind) ≠ some .union → e.type = some t)
    (hm : altMatch env str (.number, e) ≠ .typeNone) : t.Allows env str := by
  rw [YangType.exact, Bool.and_eq_true, Bool.and_eq_true] at h
  have hnum := h.1.2
  rw [hk, Bool.not_true, Bool.false_or] at hnum
  rw [altMatch, matchAgainst, matchNumber] at hm
  cases hp : env.parseNumber str with
  | none => exact absurd (by rw [hp]; rfl) hm
  | some num =>
    simp only [hp, Option.all_some, Bool.and_eq_true, Bool.or_eq_true, decide_eq_true_eq] at hnum hm
    refine .integer hk hp hnum.1 ?_
    rcases hnum.2 with hne | hr
    · rw [hu hne, Option.map_some, Option.getD_some] at hm
      have hwithin : num.within t.range = some true := by
        cases hw : num.within t.range with
        | none => simp [hw] at hm
        | some w => cases w <;> simp_all
      have hall := Number.within_eq_true.mp hwithin
      rw [inRange, Bool.or_eq_true, List.isEmpty_iff, List.any_eq_true]
      by_cases hnil : t.range = []
      · exact .inl hnil
      · obtain ⟨r, hr⟩ := List.exists_mem_of_ne_nil _ hnil
        refine .inr ⟨r, hr, ?_⟩
        simpa using hall r hr
    · exact hr

/-- A token that one of the alternatives for a type matches is one of the type. -/
theorem typeAlternatives_allows {y : Alternative} (h : t.exact env e last str = true)
    (hu : e.type.map (·.kind) ≠ some .union → e.type = some t) (hy : y ∈ typeAlternatives e t)
    (hm : altMatch env str y ≠ .typeNone) (hlast : last = true → altMatch env str y ≠ .typePartial) :
    t.Allows env str := by
  have hnames {name : String} (hn : name ∈ t.names) (hy : y = (.keyword name, e)) : t.Allows env str := by
    subst hy
    exact .name (YangType.exact.name h hn hm hlast)
  have hnumber (hk : t.kind.isInteger = true) (hy : y ∈ [(MatchAgainst.number, e)]) : t.Allows env str := by
    rw [List.mem_singleton.mp hy] at hm
    exact YangType.exact.number h hk hu hm
  rw [typeAlternatives] at hy
  cases hk : t.kind <;> simp only [hk] at hy
  case string =>
    rw [List.mem_singleton.mp hy] at hm
    refine .string hk ?_
    rw [YangType.exact, Bool.and_eq_true, Bool.and_eq_true] at h
    simpa [hk, show matchString env str t ≠ .typeNone from hm] using h.2
  case bool =>
    rcases List.mem_cons.mp hy with hy | hy
    · exact hnames (by simp [YangType.names, hk]) hy
    · exact hnames (by simp [YangType.names, hk]) (List.mem_singleton.mp hy)
  case enum =>
    obtain ⟨name, hn, hy⟩ := List.mem_map.mp hy
    exact hnames (by simpa [YangType.names, hk] using hn) hy.symm
  case int8 | int16 | int32 | int64 | uint8 | uint16 | uint32 | uint64 =>
    exact hnumber (by rw [hk]; rfl) hy
  all_goals cases hy

theorem YangType.Allows.kind {v : String} (h : t.Allows env v) : t.kind ≠ .leafref := by
  intro hk
  cases h with
  | integer hi => simp [hk, TypeKind.isInteger] at hi
  | string hs => simp [hk] at hs
  | name hn => simp [YangType.names, hk] at hn
  | union hu => simp [hk] at hu

theorem leafTypeAlternatives_allows {l : List Alternative} {y : Alternative}
    (hl : leafTypeAlternatives e = some l) (hy : y ∈ l)
    (h : e.exact env last (altMatch env str y) str = true)
    (hm : altMatch env str y ≠ .typeNone) (hlast : last = true → altMatch env str y ≠ .typePartial) :
    ∃ t, e.type = some t ∧ t.Allows env str := by
  obtain ⟨t, ht, rfl⟩ := Option.map_eq_some_iff.mp hl
  rw [Entry.exact, List.all_eq_true, Entry.matchedTypes, ht] at h
  have htype (t : YangType) (hy : y ∈ typeAlternatives e t) (hx : (!((typeAlternatives e t).any fun y' =>
      altMatch env str y' = altMatch env str y) || t.exact env e last str) = true) :
      t.exact env e last str = true := by
    rw [Bool.or_eq_true, Bool.not_eq_true'] at hx
    rcases hx with hx | hx
    · exact absurd (decide_eq_true rfl) (List.any_eq_false.mp hx y hy)
    · exact hx
  refine ⟨t, ht, ?_⟩
  by_cases hu : t.kind = .union
  · simp only [hu, if_true] at h hy
    obtain ⟨member, hmem, hy⟩ := List.mem_flatMap.mp hy
    refine .union hu hmem (typeAlternatives_allows (htype member hy (h member hmem)) (fun hne => ?_) hy hm hlast)
    exact absurd (by rw [ht, Option.map_some, hu]) hne
  · simp only [hu, if_false] at h hy
    exact typeAlternatives_allows (htype t hy (h t (List.mem_singleton.mpr rfl))) (fun _ => ht) hy hm hlast

/-- A leaf takes the token, and the alternative that does is for the leaf with the type. -/
theorem Picks.allows {l : List Alternative} (hl : leafMatches env x str = some l) (hp : Picks env l str e m)
    (hlast : last = true → m ≠ .typePartial)
    (h : (x.target env).all (fun leaf => leaf.exact env last m str) = true) :
    x.Allows env str ∧ e.Allows env str := by
  obtain ⟨y, hy, rfl, hm⟩ := hp.mem
  obtain ⟨x', hx, hl'⟩ := leafAlternatives_target (leafMatches_eq_some.mp hl).1 hy
  rw [hx, Option.all_some] at h
  obtain ⟨t, ht, hall⟩ := leafTypeAlternatives_allows hl' hy (hm ▸ h) (hm ▸ hp.1) fun hla => hm ▸ hlast hla
  obtain ⟨he, -⟩ := leafTypeAlternatives_entry hl' hy
  refine ⟨⟨x', t, hx, ht, hall⟩, x', t, ?_, ht, hall⟩
  rw [he, Entry.target, ht]
  exact if_neg hall.kind

/-- A token that the matcher is right about is one of the type of its leaf. -/
theorem Cursor.select_allows {cur : Cursor} (hs : cur.select env str = some (.unique e m))
    (hlast : last = true → m ≠ .typePartial)
    (h : (cur.leaf env).all (fun leaf => leaf.exact env last m str) = true) :
    (cur.state = .stateKey → e.Allows env str) ∧
    (cur.state = .stateLeaf ∨ cur.state = .stateLeafList ∨ cur.state = .stateLeafListMatched →
      cur.ent.Allows env str) := by
  obtain ⟨l, hl, hp⟩ := Cursor.select_unique.mp hs
  constructor
  · intro hst
    rw [Cursor.leaf, hst] at h
    rw [Cursor.alternatives, hst] at hl
    cases hk : keyEntry cur.ent cur.index with
    | none =>
      simp only [hk] at hl
      cases hl
      obtain ⟨y, hy, -⟩ := hp.mem
      cases hy
    | some key =>
      simp only [hk, Option.bind_some] at hl h
      exact (hp.allows hl hlast h).2
  · intro hst
    have hl' : leafMatches env cur.ent str = some l := by
      rcases hst with hst | hst | hst <;> simpa only [Cursor.alternatives, hst] using hl
    have h' : (cur.ent.target env).all (fun leaf => leaf.exact env last m str) = true := by
      rcases hst with hst | hst | hst <;> simpa only [Cursor.leaf, hst] using h
    exact (hp.allows hl' hlast h').1

end

/-! ## The tree -/

/-- The key and the values of the node are of the type of its leaf. -/
def Node.Members (env : Env) (n : Node) : Prop :=
  ∀ e, n.entry = some e → (n.keyConfig = true → e.Allows env n.name) ∧ ∀ v ∈ n.values, e.Allows env v

namespace Config.Every

variable {P : Node → Prop} {root c : Config} {loc : Loc} {env : Env}

/-- A property of the fields of every node, after a change of one of the nodes. -/
theorem modify_node {g : Config → Config} (h : root.Every fun c => P c.toNode)
    (hg : ∀ c, root.get? loc = some c → (g c).Every fun c => P c.toNode) :
    (root.modify loc g).Every fun c => P c.toNode := by
  induction loc generalizing root with
  | nil => exact hg root rfl
  | cons s l ih =>
    refine .mk ?_ fun t b hb => ?_
    · rw [Config.modify_toNode]
      exact h.self
    · rw [Config.modify, Config.slot_modifyChild] at hb
      split at hb
      · next ht =>
        rcases Keyed.mem_modify hb with hb | ⟨d, hd, rfl⟩
        · exact h.mem t b hb
        · have hchild : root.child? s = some d := by
            rw [← hd, ht]
            rfl
          refine ih (h.mem s.slot d (Config.child?_mem hchild)) fun c hc => hg c ?_
          rw [Config.get?_cons, hchild]
          exact hc
      · exact h.mem t b hb

/-- A change of the fields of a node. -/
theorem fields {c' : Config} (h : c.Every fun c => P c.toNode) (hs : ∀ s, c'.slot s = c.slot s)
    (hn : P c'.toNode) : c'.Every fun c => P c.toNode :=
  .mk hn fun s d hd => h.mem s d (hs s ▸ hd)

theorem set_node (h : c.Every fun c => P c.toNode) {e : Entry} (hnew : P (newNode e)) :
    (c.set env e).Every fun c => P c.toNode := by
  cases hl : c.lookup e.name with
  | some d =>
    rw [Config.set_of_some hl]
    exact h
  | none =>
    refine .mk (by rw [Config.set_toNode]; exact h.self) fun s d hd => ?_
    cases s with
    | configs =>
      rcases (Config.mem_set hl).mp hd with hd | rfl
      · exact h.mem .configs d ((c.kept_sublist e).subset hd)
      · exact .bare hnew
    | keys =>
      rw [show (c.set env e).slot .keys = c.keys from Config.set_keys c e] at hd
      exact h.mem .keys d hd

theorem addKey_node (h : c.Every fun c => P c.toNode) {e : Entry} {key pre : String}
    (hself : P (c.addKey env e key pre).toNode) (hnew : P (newKey e key pre)) :
    (c.addKey env e key pre).Every fun c => P c.toNode := by
  refine .mk hself fun s d hd => ?_
  cases s with
  | configs => exact h.mem .configs d hd
  | keys =>
    rcases Config.mem_addKey.mp hd with hd | rfl
    · exact h.mem .keys d hd
    · exact .bare hnew

end Config.Every

section

variable {env : Env} {ent : Entry} {root : Config} {loc : Loc} {cur : Cursor} {e : Entry} {str : String}
  {m : MatchType}

theorem newNode_members (e : Entry) : (newNode e).Members env := by
  intro e' he'
  constructor
  · intro hk
    cases hk
  · intro v hv
    rw [Node.values] at hv
    split at hv <;> cases hv

/-- A value of a node of the leaf. -/
theorem Node.Members.value {n n' : Node} (h : n.Members env) (he : n.entry = some e)
    (hent : n'.entry = n.entry) (hkc : n'.keyConfig = n.keyConfig) (hn : n'.name = n.name)
    (hv : ∀ v ∈ n'.values, v ∈ n.values ∨ e.Allows env v) : n'.Members env := by
  intro e' he'
  have heq : n.entry = some e' := hent ▸ he'
  obtain rfl : e = e' := by
    rw [he] at heq
    exact Option.some.inj heq
  refine ⟨fun hk => ?_, fun v hm => ?_⟩
  · rw [hn]
    exact (h e he).1 (hkc ▸ hk)
  · rcases hv v hm with hm | ha
    · exact (h e he).2 v hm
    · exact ha

/-- One token of set mode: if it is of the type of its leaf, all is as before. -/
theorem Stands.members (hf : Stands env ent (root, loc) cur) (hs : cur.select env str = some (.unique e m))
    (hkey : cur.state = .stateKey → e.Allows env str)
    (hleaf : cur.state = .stateLeaf ∨ cur.state = .stateLeafList ∨ cur.state = .stateLeafListMatched →
      cur.ent.Allows env str)
    (h : root.Every fun c => c.toNode.Members env) :
    ((cur.op e str).apply env (root, loc)).1.Every fun c => c.toNode.Members env := by
  obtain ⟨cur₁, c, hw, hon⟩ := hf.on
  have hc := Config.get?_of_walk hw
  have hset : ((Op.set e).apply env (root, loc)).1.Every fun c => c.toNode.Members env :=
    h.modify_node fun c hc => (h.get hc).set_node (newNode_members e)
  rw [Cursor.op]
  split
  case h_1 | h_2 | h_3 =>
    split
    · simp only [Op.apply, Config.modify_setLeafList]
      refine hset.modify_node fun d hd => (hset.get hd).fields (fun s => by cases s <;> rfl) ?_
      intro e' he'
      have hd' := (hset.get hd).self e' he'
      refine ⟨hd'.1, fun v hv => hd'.2 v ?_⟩
      by_cases hl : (d.entry.map Entry.isLeafList).getD false = true
      · rw [Node.values, show d.clearList.toNode.entry = d.entry from rfl, if_pos hl] at hv
        cases hv
      · rw [Node.values, show d.clearList.toNode.entry = d.entry from rfl, if_neg hl] at hv
        rw [Node.values, if_neg hl]
        exact hv
    · exact hset
  case h_4 hst =>
    obtain rfl : cur₁ = cur := hon.eq (by simp [hst])
    rw [Op.apply, Config.setKey]
    rcases hf.typed.lookupKey_cases hw hst str with hl | ⟨_, _, _, _, _, -, -, -, -, -, -, -, hl⟩
    · rw [hl]
      cases c.lookupKeyShallow str with
      | some d => exact h
      | none =>
        refine h.modify_node fun d hd => (h.get hd).addKey_node ?_ ?_
        · exact (h.get hd).self
        · intro e' he'
          cases he'
          refine ⟨fun _ => hkey hst, fun v hv => ?_⟩
          rw [Node.values] at hv
          split at hv <;> cases hv
    · rw [hl]
      exact h
  case h_5 hst =>
    obtain rfl : cur₁ = cur := hon.eq (by simp [hst])
    obtain ⟨he, hll⟩ := Config.walk_leaf hw (.inl hst)
    have hll' : cur₁.ent.isLeafList = false := by simpa [hst] using hll
    refine h.modify_node fun d hd => (h.get hd).fields (fun s => by cases s <;> rfl) ?_
    obtain rfl : c = d := Option.some.inj (hc.symm.trans hd)
    refine (h.get hd).self.value he rfl rfl rfl fun v hv => .inr ?_
    have hval : v = str := by
      simpa [Node.values, Config.setValue, he, hll'] using hv
    rw [hval]
    exact hleaf (.inl hst)
  case h_6 hst =>
    obtain ⟨l, hl, hp⟩ := Cursor.select_unique.mp hs
    rw [Cursor.alternatives, hst] at hl
    cases hl
    obtain ⟨y, hy, -⟩ := hp.mem
    cases hy
  case h_7 hst | h_8 hst =>
    have hstate : cur.state = .stateLeafList ∨ cur.state = .stateLeafListMatched := by simp [hst]
    obtain ⟨hst₁, hent, -⟩ := @Cursor.On.leafList_eq env _ _ _ hon hstate (Config.walk_state hw)
    obtain ⟨he, hll⟩ := Config.walk_leaf hw (.inr hst₁)
    refine h.modify_node fun d hd => (h.get hd).fields (fun s => by cases s <;> rfl) ?_
    obtain rfl : c = d := Option.some.inj (hc.symm.trans hd)
    refine (h.get hd).self.value he rfl rfl rfl fun v hv => ?_
    have hv : v ∈ c.valueList ∨ v = str := by
      simpa [Node.values, Config.setListValue, he, hll.mpr hst₁] using hv
    rcases hv with hv | rfl
    · exact .inl (by simpa [Node.values, he, hll.mpr hst₁] using hv)
    · rw [hent]
      exact .inr (hleaf (.inr hstate))

theorem endCode_partial (next : ParseState) : endCode .typePartial next ≠ .parseSuccess := by
  simp [endCode]

/-- The tokens of a command. -/
theorem plan_members {cmds : List String} {ops : List Op} {p : Config × Loc}
    (hp : plan env cmds cur = some (.parseSuccess, ops)) (hx : exactTokens env cmds cur = true)
    (hf : Stands env ent p cur) (h : p.1.Every fun c => c.toNode.Members env) :
    (applyOps env ops p).1.Every fun c => c.toNode.Members env := by
  induction cmds generalizing cur ops p with
  | nil => cases hp
  | cons str cmds ih =>
    rw [plan] at hp
    rw [exactTokens] at hx
    split at hp
    · cases hp
    · cases hp
    · cases hp
    · next e m hsel =>
      simp only [hsel, Bool.and_eq_true] at hx
      have hstep (hlast : cmds.isEmpty = true → m ≠ .typePartial) :
          ((cur.op e str).apply env p).1.Every fun c => c.toNode.Members env := by
        obtain ⟨hkey, hleaf⟩ := Cursor.select_allows hsel hlast hx.1
        exact hf.members hsel hkey hleaf h
      cases cmds with
      | nil =>
        simp only [Option.some.injEq, Prod.mk.injEq] at hp
        obtain ⟨hcode, rfl⟩ := hp
        refine hstep fun _ hm => ?_
        rw [hm] at hcode
        exact endCode_partial _ hcode
      | cons cmd cmds =>
        simp only [Option.map_eq_some_iff, Prod.mk.injEq] at hp
        obtain ⟨⟨code, ops'⟩, hp, rfl, rfl⟩ := hp
        show (applyOps env ops' ((cur.op e str).apply env p)).1.Every _
        exact ih hp hx.2 (hf.step ⟨m, hsel⟩).stands (hstep fun he => by cases he)

end

/-- The trees that successful set-mode calls reach from the empty root, with tokens that the
matcher is right about. -/
inductive ExactReach (env : Env) (ent : Entry) : Config → Prop
  | empty : ExactReach env ent {}
  | set {root : Config} {cmds : List String} {r : ParseResult} : ExactReach env ent root →
    exactTokens env cmds (.root ent) = true → parse env ent root cmds = some r →
    r.code = .parseSuccess → ExactReach env ent r.tree

theorem ExactReach.reach {env : Env} {ent : Entry} {root : Config} (h : ExactReach env ent root) :
    Reach env ent root := by
  induction h with
  | empty => exact .empty
  | set _ _ hp hc ih => exact .set ih hp hc

/-- Every key and every value in the tree is one of the type of its leaf, in every run of set-mode
calls whose tokens the matcher is right about. -/
theorem type_safety {env : Env} {ent : Entry} {root c : Config} {l : Loc} {e : Entry}
    (h : ExactReach env ent root) (hg : root.get? l = some c) (he : c.entry = some e) :
    (c.keyConfig = true → e.Allows env c.name) ∧ ∀ v ∈ c.toNode.values, e.Allows env v := by
  have hall : root.Every fun c => c.toNode.Members env := by
    clear hg
    induction h with
    | empty => exact .bare (n := {}) fun e he => by cases he
    | set hr hx hp hc ih =>
      obtain ⟨ht, hcl⟩ := hr.reach.typed_closed
      rw [parse_eq_plan, Option.map_eq_some_iff] at hp
      obtain ⟨⟨code, ops⟩, hp, rfl⟩ := hp
      obtain rfl : code = .parseSuccess := hc
      exact plan_members hp hx (Focus.start ht hcl).stands ih
  exact (hall.get hg).self e he

/-- Booleans that are spelled out. -/
theorem type_safety_flags : ∃ root c e, ExactReach .ascii flagsSchema root ∧
    root.get? flagPlace = some c ∧ c.entry = some e ∧ c.toNode.values = ["false", "true"] ∧
    e.Allows .ascii "false" ∧ e.Allows .ascii "true" := by
  obtain ⟨r, hr, hx⟩ := Option.map_eq_some_iff.mp (show
    (parse .ascii flagsSchema {} ["interface", "eth0", "flag", "false", "true"]).map (fun r =>
      (r.code, (r.tree.get? flagPlace).any fun c =>
        decide (c.entry.isSome = true ∧ c.toNode.values = ["false", "true"]))) =
    some (.parseSuccess, true) by decide +kernel)
  simp only [Prod.mk.injEq] at hx
  obtain ⟨hcode, hflag⟩ := hx
  obtain ⟨c, hg, hc⟩ := (Option.any_eq_true _ _).mp hflag
  obtain ⟨he, hv⟩ := of_decide_eq_true hc
  obtain ⟨e, he⟩ := Option.isSome_iff_exists.mp he
  have hexact : exactTokens .ascii ["interface", "eth0", "flag", "false", "true"] (.root flagsSchema) = true := by
    decide +kernel
  have hreach : ExactReach .ascii flagsSchema r.tree := .set .empty hexact hr hcode
  obtain ⟨-, hall⟩ := type_safety hreach hg he
  rw [hv] at hall
  exact ⟨r.tree, c, e, hreach, hg, he, hv, hall _ (by simp), hall _ (by simp)⟩

theorem not_allows_bool {env : Env} {e : Entry} {v : String} (h : e.type.map (·.kind) = some .bool)
    (ht : v ≠ "true") (hf : v ≠ "false") : ¬ e.Allows env v := by
  rintro ⟨x, t, hx, hxt, hall⟩
  obtain ⟨t', ht', hk⟩ := Option.map_eq_some_iff.mp h
  obtain rfl : e = x := by simpa [Entry.target, ht', hk] using hx
  obtain rfl : t' = t := Option.some.inj (ht'.symm.trans hxt)
  cases hall with
  | integer hi => simp [hk, TypeKind.isInteger] at hi
  | string hs => simp [hk] at hs
  | name hn => simp [YangType.names, hk, ht, hf] at hn
  | union hu => simp [hk] at hu

/-- `t` for `true`, before the last value of a leaf-list. -/
theorem type_safety_abbreviated : ∃ root c e, Reach .ascii flagsSchema root ∧
    root.get? flagPlace = some c ∧ c.entry = some e ∧ c.toNode.values = ["t", "true"] ∧
    ¬ e.Allows .ascii "t" := by
  obtain ⟨r, hr, hx⟩ := Option.map_eq_some_iff.mp (show
    (parse .ascii flagsSchema {} ["interface", "eth0", "flag", "t", "true"]).map (fun r =>
      (r.code, (r.tree.get? flagPlace).any fun c =>
        decide (c.toNode.values = ["t", "true"]) && c.entry.any fun e => e.type.map (·.kind) = some .bool)) =
    some (.parseSuccess, true) by decide +kernel)
  simp only [Prod.mk.injEq] at hx
  obtain ⟨hcode, hflag⟩ := hx
  obtain ⟨c, hg, hc⟩ := (Option.any_eq_true _ _).mp hflag
  obtain ⟨hv, he⟩ := Bool.and_eq_true_iff.mp hc
  obtain ⟨e, he, hk⟩ := (Option.any_eq_true _ _).mp he
  exact ⟨r.tree, c, e, .set .empty hr hcode, hg, he, of_decide_eq_true hv,
    not_allows_bool (of_decide_eq_true hk) (by decide) (by decide)⟩

end OpenConfigd
