import OpenConfigd.Config.Flagged
import OpenConfigd.Config.Json
import OpenConfigd.Config.OneKey
import OpenConfigd.Lib.Json

/-!
# What the JSON of a tree says

The data of a node as a JSON value, by the schema: an object member for a child,
an array with an object for each list entry, an array for a leaf-list. `Good`
says of a tree that `JsonMarshal` spells its data, and `Typed.jsonMarshalTop_iff` when
it does.
-/

namespace OpenConfigd

/-! ## Data -/

/-- A value of a node. -/
def Node.scalar (n : Node) (v : String) : Json :=
  if n.needQuote then .str v.toList else .lit v.toList

namespace Config

mutual

/-- The data of a node below a container or a list entry. -/
def jsonData : Config → Json
  | ⟨n, configs, keys⟩ =>
    match n.entry with
    | none => .obj (jsonMembers configs)
    | some e =>
      if hasKey e then .arr (jsonEntries (keySlice e.key) [] keys)
      else if e.kind = .leaf then
        if e.isLeafList then .arr (n.valueList.map n.scalar)
        else if isEmptyLeaf e then .lit "true".toList
        else n.scalar n.value
      else .obj (jsonMembers configs)

/-- The members for some children. -/
def jsonMembers : List Config → List (List Char × Json)
  | [] => []
  | c :: cs => (c.name.toList, jsonData c) :: jsonMembers cs

/-- The entries of a list below one of its keys: `names` are the leaves of this key and
of the keys after it, `pre` the members of the keys before it. -/
def jsonEntry (names : List String) (pre : List (List Char × Json)) : Config → List Json
  | ⟨n, configs, keys⟩ =>
    match names with
    | [] => []
    | [name] => [.obj (pre ++ (name.toList, n.scalar n.name) :: jsonMembers configs)]
    | name :: names => jsonEntries names (pre ++ [(name.toList, n.scalar n.name)]) keys

/-- The entries of a list below some of its keys. -/
def jsonEntries (names : List String) (pre : List (List Char × Json)) : List Config → List Json
  | [] => []
  | k :: ks => jsonEntry names pre k ++ jsonEntries names pre ks

end

/-- The data of a node as `JsonMarshal` has it: of a list entry, its children. -/
def jsonNode (c : Config) : Json :=
  if (c.entry.map hasKey).getD false then c.jsonData else .obj (jsonMembers c.configs)

end Config

/-! ## What can be spelled -/

/-- The value can stand in a JSON text as it is. -/
def Node.ScalarOk (n : Node) (v : String) : Prop :=
  if n.needQuote then Json.Safe v.toList else Json.isLiteral v.toList = true

/-- The key and the values of the node can stand in a JSON text as they are, and the
value of a leaf is not empty. -/
def Node.Encodes (n : Node) : Prop :=
  (n.keyConfig = true → n.ScalarOk n.name) ∧ (∀ v ∈ n.values, n.ScalarOk v) ∧
    (n.valueList = [] → n.hasValue = true → n.value ≠ "")

/-- The name of the leaf a key has matched. -/
def Config.keyName (k : Config) : String := (k.entry.map (·.name)).getD ""

/-- The list has one key, or two and a second key for each first; and the leaves its
keys have matched are its own. -/
def Config.KeysEncode (c : Config) : Prop :=
  ∀ e, c.entry = some e → hasKey e = true →
    keyLength e = 1 ∧ (∀ k ∈ c.keys, k.keyName = keyIndexString e.key 0) ∨
    keyLength e = 2 ∧ ∀ k ∈ c.keys, k.keyName = keyIndexString e.key 0 ∧
      ∃ k', k.keys = [k'] ∧ k'.keyName = keyIndexString e.key 1

/-- Every node can be encoded. -/
def Config.Good (c : Config) : Prop := ∀ l d, c.get? l = some d → d.toNode.Encodes ∧ d.KeysEncode

/-- What every entry of a YANG schema has. -/
structure Entry.Formed (e : Entry) : Prop where
  nonempty : e.name ≠ ""
  safe : Json.Safe e.name.toList
  leaf : e.kind = .leaf → e.key = "" ∧ e.presence = false
  untyped : e.kind ≠ .leaf → e.type = none
  list : e.key ≠ "" → e.kind = .directory ∧ e.presence = false

instance : DecidablePred Entry.Formed := fun e =>
  decidable_of_iff (e.name ≠ "" ∧ Json.Safe e.name.toList ∧
      (e.kind = .leaf → e.key = "" ∧ e.presence = false) ∧ (e.kind ≠ .leaf → e.type = none) ∧
      (e.key ≠ "" → e.kind = .directory ∧ e.presence = false))
    ⟨fun ⟨hn, hs, hl, hu, hk⟩ => ⟨hn, hs, hl, hu, hk⟩,
      fun h => ⟨h.nonempty, h.safe, h.leaf, h.untyped, h.list⟩⟩

/-- The path of a leafref leads to a leaf. -/
def FindsLeaf (env : Env) : Prop :=
  ∀ e path t, env.find e path = some t → t.Formed ∧ t.kind = .leaf

variable {env : Env} {ent : Entry}

/-! ## Texts of nodes -/

section

variable {n : Node}

theorem Node.spells_value (n : Node) (v : String) :
    Json.Spells (n.jsonValue v) (n.scalar v) (n.ScalarOk v) := by
  rw [Node.jsonValue, Node.scalar, Node.ScalarOk]
  split
  · exact .str v.toList
  · exact .lit v.toList

theorem Node.spells_member (n : Node) {a b : String} (ha : Json.Safe a.toList) (v : String) :
    Json.SpellsMember (n.jsonQuotedString a v) (b.toList, n.scalar v)
      (b.toList = a.toList ∧ n.ScalarOk v) := by
  have htext : n.jsonQuotedString a v = '"' :: (a.toList ++ '"' :: ':' :: n.jsonValue v) := by
    simp [Node.jsonQuotedString]
  rw [htext]
  exact .mk ha (n.spells_value v)

/-- The values of a leaf-list after the first. -/
theorem Node.spells_values (n : Node) (vs : List String) :
    Json.SpellsItems (vs.flatMap fun v => ',' :: n.jsonValue v) (vs.map n.scalar)
      (∀ v ∈ vs, n.ScalarOk v) := by
  induction vs with
  | nil => simpa using Json.SpellsItems.nil
  | cons v vs ih =>
    have := Json.SpellsItems.append (.one (n.spells_value v)) ih
    rw [List.flatMap_cons, List.cons_append, List.map_cons, List.forall_mem_cons]
    exact this

theorem Node.jsonValues_eq (n : Node) (v : String) (vs : List String) :
    n.jsonValues (v :: vs) = n.jsonValue v ++ vs.flatMap fun v => ',' :: n.jsonValue v := by
  induction vs generalizing v with
  | nil => simp [Node.jsonValues]
  | cons w vs ih => rw [Node.jsonValues, ih, List.flatMap_cons, List.cons_append]; simp

/-- A leaf-list with a value. -/
theorem Node.spells_leafList {n : Node} (hs : Json.Safe n.name.toList) (hv : n.valueList ≠ []) :
    Json.SpellsMember n.jsonMarshalLeafList (n.name.toList, .arr (n.valueList.map n.scalar))
      (∀ v ∈ n.valueList, n.ScalarOk v) := by
  obtain ⟨v, vs, hvs⟩ := List.exists_cons_of_ne_nil hv
  have harr := Json.Spells.arr (.one (n.spells_value v)) (n.spells_values vs)
  have := Json.SpellsMember.mk (b := n.name.toList) hs harr
  simp only [true_and] at this
  rw [Node.jsonMarshalLeafList, hvs, Node.jsonValues_eq, List.forall_mem_cons, List.map_cons]
  simpa using this

end

/-! ## Entries of the schema -/

section

variable {P : Entry → Prop} {cur cur' : Cursor} {c d : Config} {l : Loc} {str : String} {e : Entry}

/-- A property of every entry below the root holds wherever a place leads. -/
theorem Typed.walk_dir (ht : Typed env cur c) (h : ∀ x ∈ cur.ent.dir, x.All P)
    (hw : c.walk cur l = some (cur', d)) : ∀ x ∈ cur'.ent.dir, x.All P := by
  induction l generalizing c cur with
  | nil =>
    cases hw
    exact h
  | cons s l ih =>
    rw [Config.walk] at hw
    split at hw
    · cases hw
    · rename_i b hb
      obtain ⟨e, hedge, he, htb⟩ := ht.child?_edge hb
      simp only [he] at hw
      refine ih htb ?_ hw
      obtain ⟨slot, n⟩ := s
      cases slot with
      | configs =>
        obtain ⟨hdir, ⟨str, hs⟩, -⟩ := hedge
        exact fun x hx => (hs.all_dir hdir h).child hx
      | keys =>
        show ∀ x ∈ cur.enterKey.ent.dir, x.All P
        rw [Cursor.enterKey_ent]
        exact h

theorem leafTypeAlternatives_entry {x : Alternative} {l : List Alternative}
    (hl : leafTypeAlternatives e = some l) (hx : x ∈ l) : x.2 = e ∧ e.type.isSome := by
  have htype (t : YangType) (hx : x ∈ typeAlternatives e t) : x.2 = e := by
    rw [typeAlternatives] at hx
    split at hx <;> simp only [List.mem_cons, List.mem_map, List.not_mem_nil, or_false] at hx
    case h_11 =>
      obtain ⟨name, -, rfl⟩ := hx
      rfl
    all_goals rcases hx with rfl | rfl <;> rfl
  obtain ⟨t, ht, rfl⟩ := Option.map_eq_some_iff.mp hl
  refine ⟨?_, by rw [ht]; rfl⟩
  split at hx
  · obtain ⟨t', -, hx⟩ := List.mem_flatMap.mp hx
    exact htype t' hx
  · exact htype t hx

/-- A token for a key selects the leaf of the key or, through a leafref, another one. -/
theorem Cursor.Selects.key (hs : cur.Selects env str e) (hk : cur.state = .stateKey) :
    ∃ key t, keyEntry cur.ent cur.index = some key ∧ key.type = some t ∧ e.type.isSome ∧
      (t.kind ≠ .leafref ∧ e = key ∨ t.kind = .leafref ∧ env.find key t.path = some e) := by
  obtain ⟨m, hs⟩ := hs
  obtain ⟨l, hl, hp⟩ := Cursor.select_unique.mp hs
  obtain ⟨x, hx, rfl, -⟩ := hp.mem
  rw [Cursor.alternatives, hk] at hl
  simp only at hl
  cases hkey : keyEntry cur.ent cur.index with
  | none =>
    rw [hkey] at hl
    cases hl
    cases hx
  | some key =>
    rw [hkey] at hl
    replace hl : leafAlternatives env key = some l := (leafMatches_eq_some.mp hl).1
    simp only [leafAlternatives] at hl
    cases ht : key.type with
    | none =>
      rw [ht] at hl
      cases hl
      cases hx
    | some t =>
      rw [ht] at hl
      simp only at hl
      split at hl
      · rename_i href
        cases hfind : env.find key t.path with
        | none =>
          rw [hfind] at hl
          cases hl
          cases hx
        | some target =>
          rw [hfind] at hl
          obtain ⟨he, htype⟩ := leafTypeAlternatives_entry hl hx
          rw [he]
          exact ⟨key, t, rfl, ht, htype, .inr ⟨href, hfind⟩⟩
      · rename_i href
        obtain ⟨he, htype⟩ := leafTypeAlternatives_entry hl hx
        rw [he]
        exact ⟨key, t, rfl, ht, htype, .inl ⟨href, rfl⟩⟩

/-- What a key has matched is a leaf. -/
theorem Cursor.Selects.key_leaf (hs : cur.Selects env str e) (hk : cur.state = .stateKey)
    (hf : FindsLeaf env) (h : ∀ x ∈ cur.ent.dir, x.All Entry.Formed) : e.Formed ∧ e.kind = .leaf := by
  obtain ⟨key, t, hkey, -, htype, ⟨-, rfl⟩ | ⟨-, hfind⟩⟩ := hs.key hk
  · have hm : e ∈ cur.ent.dir := List.mem_of_find?_eq_some hkey
    have hform := (h e hm).self
    refine ⟨hform, ?_⟩
    by_contra hkind
    rw [hform.untyped hkind] at htype
    cases htype
  · exact hf _ _ _ hfind

end

/-! ## Nodes that can be encoded -/

section

variable {c d : Config}

theorem Config.good_iff (hn : ∀ s, ((c.slot s).map (·.name)).Nodup) : c.Good ↔
    (c.toNode.Encodes ∧ c.KeysEncode) ∧ ∀ s, ∀ d ∈ c.slot s, d.Good := by
  constructor
  · intro h
    refine ⟨h [] c rfl, fun s d hd l x hx => h (⟨s, d.name⟩ :: l) x ?_⟩
    have hch : c.child? ⟨s, d.name⟩ = some d := Keyed.get_of_mem (hn s) hd
    rw [Config.get?_cons, hch]
    exact hx
  · rintro ⟨h, hch⟩ l x hx
    cases l with
    | nil =>
      cases hx
      exact h
    | cons s l =>
      rw [Config.get?_cons] at hx
      obtain ⟨d, hd, hx⟩ := Option.bind_eq_some_iff.mp hx
      exact hch s.slot d (Config.child?_mem hd) l x hx

theorem Config.keysEncode_of_noKey {e : Entry} (he : c.entry = some e) (hk : e.key = "") :
    c.KeysEncode := by
  intro e' he' hk'
  rw [he] at he'
  cases he'
  rw [hasKey, hk] at hk'
  cases hk'

end

/-! ## The text of a node -/

section

variable {n parent : Node} {cs ks : List Config} {e : Entry} {t : List Char} {pos : Nat}

/-- The text without the comma before it. -/
def Config.HasText (d : Config) (parent : Node) (t : List Char) : Prop :=
  ∀ pos, d.jsonMarshal parent pos = some ((if pos ≠ 0 then [','] else []) ++ t)

theorem Config.hasText_leaf (he : n.entry = some e) (hk : e.key = "") (hp : n.keyPrefix = "")
    (hpr : e.presence = false) (hv : n.value ≠ "") :
    Config.HasText ⟨n, [], []⟩ parent (n.jsonQuotedString n.name n.value) := by
  intro pos
  simp [Config.jsonMarshal_eq, Config.jsonMarshalSlot_nil, he, jsonHead, isConfigKeyNode, hk,
    Node.hasPrefix, hp, hv, isPresenceContainer, hpr]

theorem Config.hasText_leafList (he : n.entry = some e) (hk : e.key = "") (hp : n.keyPrefix = "")
    (hpr : e.presence = false) (hv : n.value = "") (hl : n.valueList ≠ []) :
    Config.HasText ⟨n, [], []⟩ parent n.jsonMarshalLeafList := by
  intro pos
  simp [Config.jsonMarshal_eq, Config.jsonMarshalSlot_nil, he, jsonHead, isConfigKeyNode, hk,
    Node.hasPrefix, hp, hv, hl, isPresenceContainer, hpr]

/-- A leaf of type empty, and a leaf with an empty value. -/
theorem Config.hasText_bare (he : n.entry = some e) (hk : e.key = "") (hp : n.keyPrefix = "")
    (hpr : e.presence = false) (hv : n.value = "") (hl : n.valueList = []) :
    Config.HasText ⟨n, [], []⟩ parent ('"' :: (n.name.toList ++ '"' :: ':' :: yEntryJson e)) := by
  intro pos
  simp [Config.jsonMarshal_eq, Config.jsonMarshalSlot_nil, he, jsonHead, isConfigKeyNode, hk,
    Node.hasPrefix, hp, hv, hl, isPresenceContainer, hpr]

theorem Config.hasText_presence (he : n.entry = some e) (hk : e.key = "") (hp : n.keyPrefix = "")
    (hpr : e.presence = true) (ht : e.type = none) (hv : n.value = "") (hl : n.valueList = []) :
    Config.HasText ⟨n, [], []⟩ parent ('"' :: (n.name.toList ++ '"' :: ':' :: ['{', '}'])) := by
  intro pos
  simp [Config.jsonMarshal_eq, Config.jsonMarshalSlot_nil, he, jsonHead, isConfigKeyNode, hk,
    Node.hasPrefix, hp, hv, hl, isPresenceContainer, hpr, yEntryJson, ht]

theorem Config.hasText_container (he : n.entry = some e) (hk : e.key = "") (hp : n.keyPrefix = "")
    (ht : e.type = none) (hv : n.value = "") (hl : n.valueList = []) (hc : cs ≠ [])
    (hs : Config.jsonMarshalSlot cs n 0 = some t) :
    Config.HasText ⟨n, cs, []⟩ parent ('"' :: (n.name.toList ++ '"' :: ':' :: '{' :: (t ++ ['}']))) := by
  intro pos
  have hne : cs.isEmpty = false := by simpa using hc
  simp [Config.jsonMarshal_eq, Config.jsonMarshalSlot_nil, he, jsonHead, isConfigKeyNode, hk,
    Node.hasPrefix, hp, hv, hl, hs, hne, yEntryJson, ht]

theorem Config.hasText_list (he : n.entry = some e) (hk : e.key ≠ "") (hp : n.keyPrefix = "")
    (hpr : e.presence = false) (ho : n.keyOnlyConfig = false)
    (hs : Config.jsonMarshalSlot ks n 0 = some t) :
    Config.HasText ⟨n, [], ks⟩ parent
      ('"' :: (n.name.toList ++ '"' :: ':' :: ' ' :: '[' :: (t ++ [']']))) := by
  intro pos
  simp [Config.jsonMarshal_eq, Config.jsonMarshalSlot_nil, he, jsonHead, isConfigKeyNode, hk,
    Node.hasPrefix, hp, hs, ho, isPresenceContainer, hpr]

/-- The brace before a key, unless it has a key before it. -/
def openBrace (parent : Node) : List Char := if parent.keyOnlyConfig then [] else ['{']

theorem Config.hasText_lastKey (parent : Node) (he : n.entry = some e) (hk : e.key = "") (hp : n.keyPrefix ≠ "")
    (hpr : e.presence = false) (hs : Config.jsonMarshalSlot cs n 1 = some t) :
    Config.HasText ⟨n, cs, []⟩ parent
      (openBrace parent ++ (n.jsonQuotedString e.name n.name ++ t ++ ['}'])) := by
  intro pos
  cases cs with
  | nil =>
    cases hs
    simp [Config.jsonMarshal_eq, Config.jsonMarshalSlot_nil, he, jsonHead, isConfigKeyNode, hk,
      Node.hasPrefix, hp, isPresenceContainer, hpr, openBrace]
  | cons c cs =>
    simp [Config.jsonMarshal_eq, he, jsonHead, isConfigKeyNode, hk,
      Node.hasPrefix, hp, hs, openBrace]
    simp [Config.jsonMarshalSlot_nil]

theorem Config.hasText_key (parent : Node) (he : n.entry = some e) (hk : e.key = "") (hp : n.keyPrefix ≠ "")
    (ho : n.keyOnlyConfig = true) (hne : ks ≠ []) (hs : Config.jsonMarshalSlot ks n 1 = some t) :
    Config.HasText ⟨n, [], ks⟩ parent (openBrace parent ++ (n.jsonQuotedString e.name n.name ++ t ++
      if parent.keyOnlyConfig then ['}'] else [])) := by
  intro pos
  simp [Config.jsonMarshal_eq, Config.jsonMarshalSlot_nil, he, jsonHead, isConfigKeyNode, hk,
    Node.hasPrefix, hp, hs, hne, ho, openBrace]

end

/-! ## The texts of children -/

/-- The text of a node that is no key is the member for its data, if it can be encoded. -/
def Config.IsMember (d : Config) : Prop :=
  ∃ t, (∀ parent, d.HasText parent t) ∧
    Json.SpellsMember t (d.name.toList, d.jsonData) d.Good

/-- The entry of a list from one of its keys on can be encoded: the key is the last
one, or the last but one with one key below it. -/
def Config.EntryGood : List String → Config → Prop
  | [name], k => (name.toList = k.keyName.toList ∧ k.ScalarOk k.name) ∧ ∀ d ∈ k.configs, d.Good
  | [name, name'], k => (name.toList = k.keyName.toList ∧ k.ScalarOk k.name) ∧
    ∃ k', k.keys = [k'] ∧ k'.EntryGood [name']
  | _, _ => False

/-- The text of a key, and of what is below it. -/
def Config.IsEntry (names : List String) (k : Config) : Prop :=
  ∃ t, (∀ parent, k.HasText parent (openBrace parent ++ (t ++
      if names.length ≠ 1 ∧ parent.keyOnlyConfig = true then ['}'] else []))) ∧
    Json.SpellsOpen t (fun pre => k.jsonEntry names pre) (k.EntryGood names)

section

variable {n parent : Node} {cs ks : List Config} {e : Entry} {pos : Nat} {names : List String}

theorem Config.slot_cons {d : Config} {t ts : List Char} (h : d.HasText parent t)
    (hs : jsonMarshalSlot cs parent (pos + 1) = some ts) :
    jsonMarshalSlot (d :: cs) parent pos =
      some ((if pos ≠ 0 then [','] else []) ++ t ++ ts) := by
  rw [jsonMarshalSlot_cons, h pos, hs]
  rfl

theorem Config.members_more (h : ∀ d ∈ cs, d.IsMember) (parent : Node) (pos : Nat) :
    ∃ t, jsonMarshalSlot cs parent (pos + 1) = some t ∧
      Json.SpellsMembers t (jsonMembers cs) (∀ d ∈ cs, d.Good) := by
  induction cs generalizing pos with
  | nil => exact ⟨[], jsonMarshalSlot_nil _ _, by rw [jsonMembers]; simpa using .nil⟩
  | cons c cs ih =>
    obtain ⟨hc, hcs⟩ := List.forall_mem_cons.mp h
    obtain ⟨t, ht, hm⟩ := hc
    obtain ⟨ts, hts, hms⟩ := ih hcs (pos + 1)
    refine ⟨',' :: (t ++ ts), ?_, ?_⟩
    · rw [slot_cons (ht parent) hts]
      simp
    · rw [jsonMembers, List.forall_mem_cons]
      exact .cons hm hms

theorem Config.members_all (h : ∀ d ∈ cs, d.IsMember) (hne : cs ≠ []) (parent : Node) :
    ∃ t, jsonMarshalSlot cs parent 0 = some t ∧
      Json.SpellsRest (t ++ ['}']) (jsonMembers cs) (∀ d ∈ cs, d.Good) := by
  cases cs with
  | nil => exact absurd rfl hne
  | cons c cs =>
    obtain ⟨hc, hcs⟩ := List.forall_mem_cons.mp h
    obtain ⟨t, ht, hm⟩ := hc
    obtain ⟨ts, hts, hms⟩ := members_more hcs parent 0
    refine ⟨t ++ ts, ?_, ?_⟩
    · rw [slot_cons (ht parent) hts]
      rfl
    · rw [jsonMembers, List.forall_mem_cons]
      exact .close hm hms

/-- Keys with a key before them: the text of a list entry goes on with one of them only. -/
theorem Config.keys_more (h : ∀ k ∈ ks, k.IsEntry names) (hne : ks ≠ [])
    (ho : parent.keyOnlyConfig = true) (pos : Nat) :
    ∃ t, jsonMarshalSlot ks parent (pos + 1) = some (',' :: t) ∧
      Json.SpellsOpen t (fun pre => jsonEntries names pre ks)
        (∃ k, ks = [k] ∧ names.length = 1 ∧ k.EntryGood names) := by
  induction ks generalizing pos with
  | nil => exact absurd rfl hne
  | cons k ks ih =>
    obtain ⟨hk, hks⟩ := List.forall_mem_cons.mp h
    obtain ⟨t, ht, hm⟩ := hk
    have ht := ht parent
    simp only [ho, and_true, openBrace, if_true, List.nil_append] at ht
    -- The text of the first key, with the brace of a key that is not the last.
    have hfirst : Json.SpellsOpen (t ++ if names.length ≠ 1 then ['}'] else [])
        (fun pre => k.jsonEntry names pre) (names.length = 1 ∧ k.EntryGood names) := by
      by_cases hl : names.length = 1
      · simpa [hl] using hm
      · simpa [hl] using hm.brace
    cases ks with
    | nil =>
      refine ⟨t ++ if names.length ≠ 1 then ['}'] else [], ?_, ?_⟩
      · rw [slot_cons ht (jsonMarshalSlot_nil _ _)]
        simp
      · simpa [jsonEntries] using hfirst
    | cons k' ks =>
      obtain ⟨ts, hts, hms⟩ := ih hks (by simp) (pos + 1)
      refine ⟨t ++ (if names.length ≠ 1 then ['}'] else []) ++ ',' :: ts, ?_, ?_⟩
      · rw [slot_cons ht hts]
        simp
      · simpa [jsonEntries] using hfirst.more hms

/-- The keys of a list. -/
theorem Config.keys_items (h : ∀ k ∈ ks, k.IsEntry names) (ho : parent.keyOnlyConfig = false)
    (pos : Nat) : ∃ t, jsonMarshalSlot ks parent (pos + 1) = some t ∧
      Json.SpellsItems t (jsonEntries names [] ks) (∀ k ∈ ks, k.EntryGood names) := by
  induction ks generalizing pos with
  | nil => exact ⟨[], jsonMarshalSlot_nil _ _, by rw [jsonEntries]; simpa using .nil⟩
  | cons k ks ih =>
    obtain ⟨hk, hks⟩ := List.forall_mem_cons.mp h
    obtain ⟨t, ht, hm⟩ := hk
    have ht := ht parent
    simp only [ho, Bool.false_eq_true, and_false, openBrace, if_false, List.append_nil,
      List.singleton_append] at ht
    obtain ⟨ts, hts, hms⟩ := ih hks (pos + 1)
    refine ⟨',' :: ('{' :: t ++ ts), ?_, ?_⟩
    · rw [slot_cons ht hts]
      simp
    · rw [jsonEntries, List.forall_mem_cons]
      exact .append hm.chunk hms

theorem Config.keys_all (h : ∀ k ∈ ks, k.IsEntry names) (hne : ks ≠ [])
    (ho : parent.keyOnlyConfig = false) : ∃ t, jsonMarshalSlot ks parent 0 = some t ∧
      Json.Spells ('[' :: (t ++ [']'])) (.arr (jsonEntries names [] ks))
        (∀ k ∈ ks, k.EntryGood names) := by
  cases ks with
  | nil => exact absurd rfl hne
  | cons k ks =>
    obtain ⟨hk, hks⟩ := List.forall_mem_cons.mp h
    obtain ⟨t, ht, hm⟩ := hk
    have ht := ht parent
    simp only [ho, Bool.false_eq_true, and_false, openBrace, if_false, List.append_nil,
      List.singleton_append] at ht
    obtain ⟨ts, hts, hms⟩ := keys_items hks ho 0
    refine ⟨'{' :: t ++ ts, ?_, ?_⟩
    · rw [slot_cons ht hts]
      rfl
    · rw [jsonEntries, List.forall_mem_cons]
      exact .arr hm.chunk hms

end

/-! ## Typed nodes -/

section

variable {cur : Cursor} {c d k : Config} {e : Entry}

/-- On a list the parser expects a key. -/
theorem Entry.Formed.enter_list (hf : e.Formed) (hk : e.key ≠ "") :
    (Cursor.enter e).state = .stateKey := by
  simp [Cursor.enter, entryNextState, (hf.list hk).1, hasKey, hk]

theorem Typed.configs_nil (h : Typed env cur c) (hd : cur.isDir = false) : c.configs = [] := by
  refine List.eq_nil_iff_forall_not_mem.mpr fun d hm => ?_
  obtain ⟨e, he⟩ := h.edge .configs d hm
  rw [he.1] at hd
  cases hd

theorem Typed.keys_nil (h : Typed env cur c) (hk : cur.state ≠ .stateKey) : c.keys = [] := by
  refine List.eq_nil_iff_forall_not_mem.mpr fun d hm => ?_
  obtain ⟨e, he⟩ := h.edge .keys d hm
  exact hk he.1

/-- What `Set` gives a node, apart from the value. -/
theorem Edge.fields (h : Edge env cur .configs d.toNode e) :
    d.entry = some e ∧ d.name = e.name ∧ d.keyConfig = false ∧ d.keyOnlyConfig = false ∧
      d.keyPrefix = "" := by
  have hn := h.2.2
  refine ⟨h.entry, h.name_configs, ?_⟩
  rw [show d.keyConfig = d.toNode.keyConfig from rfl,
    show d.keyOnlyConfig = d.toNode.keyOnlyConfig from rfl,
    show d.keyPrefix = d.toNode.keyPrefix from rfl, hn]
  exact ⟨rfl, rfl, rfl⟩

theorem Edge.fields_key (h : Edge env cur .keys d.toNode e) :
    d.entry = some e ∧ d.keyConfig = true ∧ d.keyPrefix = cur.ent.name := by
  have hn := h.2.2.1
  refine ⟨h.entry, ?_⟩
  rw [show d.keyConfig = d.toNode.keyConfig from rfl,
    show d.keyPrefix = d.toNode.keyPrefix from rfl, hn]
  exact ⟨rfl, rfl⟩

/-- A node without children can be encoded if its own fields can. -/
theorem Config.good_leaf {n : Node} (he : n.entry = some e) (hk : e.key = "") :
    Config.Good ⟨n, [], []⟩ ↔ n.Encodes := by
  rw [Config.good_iff (fun s => by cases s <;> exact List.nodup_nil)]
  have hkeys : Config.KeysEncode ⟨n, [], []⟩ := Config.keysEncode_of_noKey he hk
  have hslot : ∀ s, ∀ d ∈ Config.slot ⟨n, [], []⟩ s, d.Good := by
    intro s d hd
    cases s <;> cases hd
  exact ⟨fun h => h.1.1, fun h => ⟨⟨h, hkeys⟩, hslot⟩⟩

section

variable {n : Node}

/-- A leaf-list. -/
theorem Config.isMember_leafList (he : n.entry = some e) (hf : e.Formed) (hn : n.name = e.name)
    (hkc : n.keyConfig = false) (hp : n.keyPrefix = "") (hl : e.isLeafList = true)
    (hv : n.value = "") (hvs : n.valueList ≠ []) : Config.IsMember ⟨n, [], []⟩ := by
  have hkind : e.kind = .leaf := by
    simp only [Entry.isLeafList, Bool.and_eq_true, beq_iff_eq] at hl
    exact hl.1.2
  obtain ⟨hk, hpr⟩ := hf.leaf hkind
  refine ⟨n.jsonMarshalLeafList, fun _ => hasText_leafList he hk hp hpr hv hvs, ?_⟩
  have hdata : jsonData ⟨n, [], []⟩ = .arr (n.valueList.map n.scalar) := by
    simp [jsonData, he, hasKey, hk, hkind, hl]
  have hgood : n.Encodes ↔ ∀ v ∈ n.valueList, n.ScalarOk v := by
    simp [Node.Encodes, hkc, hvs, Node.values, he, hl]
  rw [hdata, propext (good_leaf he hk), propext hgood]
  exact Node.spells_leafList (by rw [hn]; exact hf.safe) hvs

/-- A leaf of type empty. -/
theorem Config.isMember_empty (he : n.entry = some e) (hf : e.Formed) (hn : n.name = e.name)
    (hkc : n.keyConfig = false) (hp : n.keyPrefix = "") (hl : e.isLeafList = false)
    (hem : isEmptyLeaf e = true) (hv : n.value = "") (hvs : n.valueList = [])
    (hh : n.hasValue = false) : Config.IsMember ⟨n, [], []⟩ := by
  obtain ⟨hkind, t, ht, htk⟩ : e.kind = .leaf ∧ ∃ t, e.type = some t ∧ t.kind = .empty := by
    rw [isEmptyLeaf, Bool.and_eq_true, beq_iff_eq] at hem
    cases ht : e.type with
    | none => simp [ht] at hem
    | some t => exact ⟨hem.1, t, rfl, by simpa [ht] using hem.2⟩
  obtain ⟨hk, hpr⟩ := hf.leaf hkind
  refine ⟨_, fun _ => hasText_bare he hk hp hpr hv hvs, ?_⟩
  have hdata : jsonData ⟨n, [], []⟩ = .lit "true".toList := by
    simp [jsonData, he, hasKey, hk, hkind, hl, hem]
  have hgood : n.Encodes ↔ Json.isLiteral "true".toList = true := by
    simp [Node.Encodes, hkc, hvs, Node.values, he, hl, hh, Json.isLiteral]
  rw [hdata, propext (good_leaf he hk), propext hgood,
    show yEntryJson e = "true".toList by simp [yEntryJson, ht, htk]]
  have hsafe : Json.Safe n.name.toList := by
    rw [hn]
    exact hf.safe
  have := Json.SpellsMember.mk (b := n.name.toList) hsafe (Json.Spells.lit "true".toList)
  rwa [propext (and_iff_right rfl)] at this

/-- A leaf with a value. -/
theorem Config.isMember_value (he : n.entry = some e) (hf : e.Formed) (hn : n.name = e.name)
    (hkc : n.keyConfig = false) (hp : n.keyPrefix = "") (hkind : e.kind = .leaf)
    (hl : e.isLeafList = false) (hem : isEmptyLeaf e = false) (hvs : n.valueList = [])
    (hh : n.hasValue = true) : Config.IsMember ⟨n, [], []⟩ := by
  obtain ⟨hk, hpr⟩ := hf.leaf hkind
  have hsafe : Json.Safe n.name.toList := by
    rw [hn]
    exact hf.safe
  have hdata : jsonData ⟨n, [], []⟩ = n.scalar n.value := by
    simp [jsonData, he, hasKey, hk, hkind, hl, hem]
  have hgood : n.Encodes ↔ n.ScalarOk n.value ∧ n.value ≠ "" := by
    simp [Node.Encodes, hkc, hvs, Node.values, he, hl, hh]
  rw [Config.IsMember, hdata, propext (good_leaf he hk), propext hgood]
  by_cases hv : n.value = ""
  · -- Without a value the text ends after the colon.
    refine ⟨_, fun _ => hasText_bare he hk hp hpr hv hvs, ?_⟩
    have hjson : yEntryJson e = [] := by
      have : ∀ t, e.type = some t → t.kind ≠ .empty := by
        intro t ht htk
        simp [isEmptyLeaf, hkind, ht, htk] at hem
      rw [yEntryJson]
      split
      · rfl
      · rw [if_neg (this _ ‹_›)]
    have hspells : Json.Spells [] (n.scalar n.value) False := by
      rw [Node.scalar, hv]
      split
      · exact .not_str []
      · have := Json.Spells.lit []
        rwa [show (Json.isLiteral [] = true) = False by simp [Json.isLiteral, Json.isNumber,
          Json.unsigned, Json.natural]] at this
    rw [hjson]
    have := Json.SpellsMember.mk (b := n.name.toList) hsafe hspells
    simpa [hv] using this
  · refine ⟨_, fun _ => hasText_leaf he hk hp hpr hv, ?_⟩
    have := n.spells_member (b := n.name) hsafe n.value
    simpa [hv] using this

end

theorem Typed.isMember_leaf (h : Typed env (.enter e) d) (hd : Edge env cur .configs d.toNode e)
    (hf : e.Formed) (hl : e.kind = .leaf) (hdone : Done (.enter e) d) : d.IsMember := by
  obtain ⟨he, hn, hkc, -, hp⟩ := hd.fields
  have hcont := h.content
  have hst : (Cursor.enter e).isDir = false ∧ (Cursor.enter e).state ≠ .stateKey := by
    simp only [Cursor.enter, entryNextState, hl]
    split
    · exact ⟨rfl, by simp⟩
    · split <;> exact ⟨rfl, by simp⟩
  obtain ⟨n, configs, keys⟩ := d
  obtain rfl : configs = [] := h.configs_nil hst.1
  obtain rfl : keys = [] := h.keys_nil hst.2
  by_cases hll : e.isLeafList = true
  · simp only [Content, Done, Cursor.enter, entryNextState, hl, hll, if_true] at hcont hdone
    exact Config.isMember_leafList he hf hn hkc hp hll hcont.1 hdone
  · by_cases hem : isEmptyLeaf e = true
    · simp only [Content, Cursor.enter, entryNextState, hl, hll, hem] at hcont
      exact Config.isMember_empty he hf hn hkc hp (by simpa using hll) hem hcont.1 hcont.2.1 hcont.2.2
    · simp only [Content, Done, Cursor.enter, entryNextState, hl, hll, hem] at hcont hdone
      exact Config.isMember_value he hf hn hkc hp hl (by simpa using hll) (by simpa using hem)
        hcont.1 hdone

/-- A container. -/
theorem Typed.isMember_container (h : Typed env (.enter e) d)
    (hd : Edge env cur .configs d.toNode e) (hf : e.Formed) (hl : e.kind ≠ .leaf) (hk : e.key = "")
    (hdone : Done (.enter e) d) (hcs : ∀ b ∈ d.configs, b.IsMember) : d.IsMember := by
  obtain ⟨he, hn, hkc, -, hp⟩ := hd.fields
  have htype := hf.untyped hl
  have hsafe : Json.Safe d.name.toList := by
    rw [hn]
    exact hf.safe
  have hstate : (Cursor.enter e).state = .stateDirMatched ∧ e.presence = true ∨
      (Cursor.enter e).state = .stateDir := by
    have hem : isEmptyLeaf e = false := by simp [isEmptyLeaf, hl]
    simp only [Cursor.enter, entryNextState, hasKey, hk, isPresenceContainer, hem]
    cases hkind : e.kind with
    | directory =>
      by_cases hpr : e.presence = true
      · simp [hpr]
      · simp [hpr]
    | leaf => exact absurd hkind hl
    | _ => simp
  have hcont : d.value = "" ∧ d.valueList = [] ∧ d.hasValue = false := by
    have := h.content
    rcases hstate with hst | hst <;> simpa [Content, hst] using this
  have hkeys : d.keys = [] := h.keys_nil (by rcases hstate with hst | hst <;> simp [hst])
  have hgood : d.Good ↔ ∀ b ∈ d.configs, b.Good := by
    have henc : d.toNode.Encodes := by simp [Node.Encodes, hkc, hcont, Node.values]
    rw [Config.good_iff h.nodup]
    refine ⟨fun hg => hg.2 .configs, fun hg => ⟨⟨henc, Config.keysEncode_of_noKey he hk⟩, ?_⟩⟩
    intro s b hb
    cases s with
    | configs => exact hg b hb
    | keys =>
      rw [show d.slot .keys = [] from hkeys] at hb
      cases hb
  have hdata : d.jsonData = .obj (Config.jsonMembers d.configs) := by
    obtain ⟨n, configs, keys⟩ := d
    simp [Config.jsonData, show n.entry = some e from he, hasKey, hk, hl]
  obtain ⟨n, configs, keys⟩ := d
  obtain rfl : keys = [] := hkeys
  rw [Config.IsMember, hdata, propext hgood]
  by_cases hc : configs = []
  · subst hc
    have hpr : e.presence = true := by
      rcases hstate with hst | hst
      · exact hst.2
      · rw [Done, hst] at hdone
        exact absurd rfl hdone
    refine ⟨_, fun _ => Config.hasText_presence he hk hp hpr htype hcont.1 hcont.2.1, ?_⟩
    have := Json.SpellsMember.mk (b := n.name.toList) hsafe Json.Spells.obj_nil
    simpa [Config.jsonMembers] using this
  · obtain ⟨t, ht, hspells⟩ := Config.members_all hcs hc n
    refine ⟨_, fun _ => Config.hasText_container he hk hp htype hcont.1 hcont.2.1 hc ht, ?_⟩
    have := Json.SpellsMember.mk (b := n.name.toList) hsafe (.obj hspells)
    rwa [propext (and_iff_right rfl)] at this

/-- The leaves of the keys from a cursor on. -/
def Cursor.keyNames (cur : Cursor) : List String := (keySlice cur.ent.key).drop cur.index

/-- A key with nothing but children below it. -/
theorem Typed.isEntry_last (h : Typed env cur.enterKey k) (hk : Edge env cur .keys k.toNode e)
    (hl : cur.enterKey.state = .stateKeyMatched) (hkey : e.key = "") (hpr : e.presence = false)
    (hsafe : Json.Safe e.name.toList) (hne : cur.ent.name ≠ "") {name : String}
    (hcs : ∀ b ∈ k.configs, b.IsMember) : k.IsEntry [name] := by
  obtain ⟨he, hkc, hp⟩ := hk.fields_key
  have hkeys : k.keys = [] := h.keys_nil (by simp [hl])
  obtain ⟨n, configs, keys⟩ := k
  obtain rfl : keys = [] := hkeys
  obtain ⟨t, ht, hms⟩ := Config.members_more hcs n 0
  refine ⟨n.jsonQuotedString e.name n.name ++ t ++ ['}'], fun parent => ?_, ?_⟩
  · have := Config.hasText_lastKey parent he hkey (hp ▸ hne) hpr ht
    simpa using this
  · have hm := n.spells_member (b := name) hsafe n.name
    have hname : Config.keyName ⟨n, configs, []⟩ = e.name := by
      rw [Config.keyName, he]
      rfl
    rw [Config.EntryGood, hname]
    simp only [Config.jsonEntry]
    exact .one (.close hm hms) rfl

/-- A key with keys below it. -/
theorem Typed.isEntry_key (h : Typed env cur.enterKey k) (hk : Edge env cur .keys k.toNode e)
    (hl : cur.enterKey.state = .stateKey) (hkey : e.key = "")
    (hsafe : Json.Safe e.name.toList) (hne : cur.ent.name ≠ "") {name : String}
    {names : List String} (hnames : names ≠ []) (hdone : k.keys ≠ [])
    (ho : k.keyOnlyConfig = true) (hks : ∀ b ∈ k.keys, b.IsEntry names) :
    k.IsEntry (name :: names) := by
  obtain ⟨he, hkc, hp⟩ := hk.fields_key
  have hconfigs : k.configs = [] := h.configs_nil (by simp [Cursor.isDir, hl])
  obtain ⟨n, configs, keys⟩ := k
  obtain rfl : configs = [] := hconfigs
  obtain ⟨t, ht, hms⟩ := Config.keys_more hks hdone ho 0
  refine ⟨n.jsonQuotedString e.name n.name ++ ',' :: t, fun parent => ?_, ?_⟩
  · have := Config.hasText_key parent he hkey (hp ▸ hne) ho hdone ht
    simpa [hnames] using this
  · have hm := n.spells_member (b := name) hsafe n.name
    have hname : Config.keyName ⟨n, [], keys⟩ = e.name := by
      rw [Config.keyName, he]
      rfl
    have := Json.SpellsOpen.cons hm rfl hms
    obtain ⟨name', names, rfl⟩ := List.exists_cons_of_ne_nil hnames
    have hgood : Config.EntryGood (name :: name' :: names) ⟨n, [], keys⟩ ↔
        (name.toList = e.name.toList ∧ n.ScalarOk n.name) ∧
          ∃ k, keys = [k] ∧ (name' :: names).length = 1 ∧ k.EntryGood (name' :: names) := by
      cases names with
      | nil => simp [Config.EntryGood, hname]
      | cons => simp [Config.EntryGood]
    rw [propext hgood]
    simpa only [Config.jsonEntry] using this

/-- A list. -/
theorem Typed.isMember_list (h : Typed env (.enter e) d) (hd : Edge env cur .configs d.toNode e)
    (hf : e.Formed) (hk : e.key ≠ "") (hdone : Done (.enter e) d)
    (hks : ∀ b ∈ d.keys, b.IsEntry (keySlice e.key))
    (hgood : d.Good ↔ ∀ k ∈ d.keys, k.EntryGood (keySlice e.key)) : d.IsMember := by
  obtain ⟨he, hn, hkc, ho, hp⟩ := hd.fields
  have hpr := (hf.list hk).2
  have hst := hf.enter_list hk
  have hconfigs := h.configs_key hst
  rw [Done, hst] at hdone
  have hsafe : Json.Safe d.name.toList := by
    rw [hn]
    exact hf.safe
  obtain ⟨n, configs, keys⟩ := d
  obtain rfl : configs = [] := hconfigs
  have hdata : Config.jsonData ⟨n, [], keys⟩ = .arr (Config.jsonEntries (keySlice e.key) [] keys) := by
    simp [Config.jsonData, show n.entry = some e from he, hasKey, hk]
  obtain ⟨t, ht, hspells⟩ := Config.keys_all hks hdone ho
  refine ⟨_, fun _ => Config.hasText_list he hk hp hpr ho ht, ?_⟩
  rw [hdata, propext hgood]
  have := Json.SpellsMember.mk (b := n.name.toList) hsafe hspells.space
  rwa [propext (and_iff_right rfl)] at this

/-- A key can be encoded if its name and everything below it can. -/
theorem Typed.good_key (h : Typed env cur.enterKey k) (hk : Edge env cur .keys k.toNode e)
    (hkey : e.key = "") :
    k.Good ↔ k.ScalarOk k.name ∧ ∀ s, ∀ b ∈ k.slot s, b.Good := by
  obtain ⟨he, hkc, -⟩ := hk.fields_key
  have hcont : k.valueList = [] ∧ k.hasValue = false := by
    have := h.content
    rw [Cursor.enterKey] at this
    split at this <;> exact this.2
  have henc : k.toNode.Encodes ↔ k.ScalarOk k.name := by
    simp [Node.Encodes, hkc, hcont, Node.values]
  rw [Config.good_iff h.nodup, henc]
  have hkeys := Config.keysEncode_of_noKey he hkey
  exact ⟨fun hg => ⟨hg.1.1, hg.2⟩, fun hg => ⟨⟨hg.1, hkeys⟩, hg.2⟩⟩

theorem Typed.entryGood_last (h : Typed env cur.enterKey k) (hk : Edge env cur .keys k.toNode e)
    (hl : cur.enterKey.state = .stateKeyMatched) (hkey : e.key = "") (name : String) :
    k.EntryGood [name] ↔ k.keyName = name ∧ k.Good := by
  have hkeys : k.keys = [] := h.keys_nil (by simp [hl])
  rw [Config.EntryGood, h.good_key hk hkey, String.toList_inj, and_assoc, eq_comm]
  refine and_congr_right fun _ => and_congr_right fun _ => ⟨fun hg s b hb => ?_, fun hg => hg .configs⟩
  cases s with
  | configs => exact hg b hb
  | keys =>
    rw [show k.slot .keys = [] from hkeys] at hb
    cases hb

end

section

variable {cur : Cursor} {c d k : Config} {e : Entry}

theorem Edge.key_leaf (h : Edge env cur .keys k.toNode e) (hf : FindsLeaf env)
    (hall : ∀ x ∈ cur.ent.dir, x.All Entry.Formed) :
    e.key = "" ∧ e.presence = false ∧ Json.Safe e.name.toList := by
  obtain ⟨hform, hkind⟩ := h.2.1.key_leaf h.1 hf hall
  obtain ⟨hkey, hpr⟩ := hform.leaf hkind
  exact ⟨hkey, hpr, hform.safe⟩

theorem Cursor.enterKey_last (h : (keySlice cur.ent.key).length ≤ cur.index + 1) :
    cur.enterKey.state = .stateKeyMatched := by
  rw [enterKey, keyLength, if_pos h]

theorem Cursor.enterKey_more (h : cur.index + 1 < (keySlice cur.ent.key).length) :
    cur.enterKey = ⟨cur.ent, .stateKey, cur.index + 1⟩ := by
  rw [enterKey, if_neg (by rw [keyLength]; omega)]

/-- The entry of a list with two keys, from its first key on. -/
theorem Typed.entryGood_two {name name' : String} (hall : ∀ x ∈ cur.ent.dir, x.All Entry.Formed)
    (hf : FindsLeaf env) (h : Typed env cur.enterKey k) (hk : Edge env cur .keys k.toNode e)
    (hl : (keySlice cur.ent.key).length = cur.index + 2) :
    k.EntryGood [name, name'] ↔
      (k.keyName = name ∧ ∃ k', k.keys = [k'] ∧ k'.keyName = name') ∧ k.Good := by
  have hmore := cur.enterKey_more (by omega)
  have hent : cur.enterKey.ent = cur.ent := cur.enterKey_ent
  have hst : cur.enterKey.state = .stateKey := by rw [hmore]
  have hlast : cur.enterKey.enterKey.state = .stateKeyMatched :=
    Cursor.enterKey_last (by rw [hmore]; simp only; omega)
  have hconfigs : k.configs = [] := h.configs_key hst
  have hgood {k' : Config} (hk' : k' ∈ k.keys) :
      k'.EntryGood [name'] ↔ k'.keyName = name' ∧ k'.Good := by
    obtain ⟨e', he'⟩ := h.edge .keys k' hk'
    obtain ⟨hkey', -⟩ := he'.key_leaf hf (by rw [hent]; exact hall)
    exact (h.child .keys k' hk' e' he'.entry).entryGood_last he' hlast hkey' name'
  rw [Config.EntryGood, h.good_key hk (hk.key_leaf hf hall).1, String.toList_inj, eq_comm]
  constructor
  · rintro ⟨⟨hname, hok⟩, k', hks, hg⟩
    have hg := (hgood (by rw [hks]; simp)).mp hg
    refine ⟨⟨hname, k', hks, hg.1⟩, hok, fun s b hb => ?_⟩
    cases s with
    | configs =>
      rw [show k.slot .configs = [] from hconfigs] at hb
      cases hb
    | keys =>
      rw [show k.slot .keys = [k'] from hks, List.mem_singleton] at hb
      rw [hb]
      exact hg.2
  · rintro ⟨⟨hname, k', hks, hname'⟩, hok, hg⟩
    have hm : k' ∈ k.keys := by rw [hks]; simp
    exact ⟨⟨hname, hok⟩, k', hks, (hgood hm).mpr ⟨hname', hg .keys k' hm⟩⟩

/-- A list can be encoded if each of its entries can. -/
theorem Typed.good_list (h : Typed env (.enter e) d) (hd : Edge env cur .configs d.toNode e)
    (hf : FindsLeaf env) (hall : e.All Entry.Formed) (hk : e.key ≠ "") (hne : d.keys ≠ []) :
    d.Good ↔ ∀ k ∈ d.keys, k.EntryGood (keySlice e.key) := by
  obtain ⟨he, -, hkc, -⟩ := hd.fields
  have hdir : ∀ x ∈ (Cursor.enter e).ent.dir, x.All Entry.Formed := fun x hx => hall.child hx
  have hst := hall.self.enter_list hk
  have hcont := h.content
  simp only [Content, hst] at hcont
  have henc : d.toNode.Encodes := by simp [Node.Encodes, hkc, hcont, Node.values]
  have hslot : (∀ s, ∀ b ∈ d.slot s, b.Good) ↔ ∀ k ∈ d.keys, k.Good := by
    refine ⟨fun hg => hg .keys, fun hg s b hb => ?_⟩
    cases s with
    | keys => exact hg b hb
    | configs =>
      rw [show d.slot .configs = [] from h.configs_key hst] at hb
      cases hb
  have hkeys : d.KeysEncode ↔
      keyLength e = 1 ∧ (∀ k ∈ d.keys, k.keyName = keyIndexString e.key 0) ∨
      keyLength e = 2 ∧ ∀ k ∈ d.keys, k.keyName = keyIndexString e.key 0 ∧
        ∃ k', k.keys = [k'] ∧ k'.keyName = keyIndexString e.key 1 := by
    refine ⟨fun hg => hg e he (by simpa [hasKey] using hk), fun hg e' he' _ => ?_⟩
    rw [he] at he'
    cases he'
    exact hg
  rw [Config.good_iff h.nodup, hslot, hkeys]
  simp only [henc, true_and, keyLength, keyIndexString]
  -- By the number of keys of the list.
  rcases hsl : keySlice e.key with _ | ⟨name, _ | ⟨name', _ | ⟨_, _⟩⟩⟩
  · obtain ⟨k, hk'⟩ := List.exists_mem_of_ne_nil _ hne
    exact ⟨fun hg => by simp at hg, fun hg => (hg k hk').elim⟩
  · -- one key
    have hlast : (Cursor.enter e).enterKey.state = .stateKeyMatched :=
      Cursor.enterKey_last (by simp [Cursor.enter, hsl])
    simp only [List.length_singleton, true_and, List.getD_cons_zero, show (1 = 2) = False by simp,
      false_and, or_false]
    rw [← forall₂_and]
    refine forall₂_congr fun k hk' => ?_
    obtain ⟨e', he'⟩ := h.edge .keys k hk'
    exact ((h.child .keys k hk' e' he'.entry).entryGood_last he' hlast
      (he'.key_leaf hf hdir).1 name).symm
  · -- two keys
    simp only [List.length_cons, List.length_nil, List.getD_cons_zero, List.getD_cons_succ]
    simp only [show (0 + 1 + 1 = 1) = False by simp, false_and, false_or, true_and]
    rw [← forall₂_and]
    refine forall₂_congr fun k hk' => ?_
    obtain ⟨e', he'⟩ := h.edge .keys k hk'
    exact (Typed.entryGood_two hdir hf (h.child .keys k hk' e' he'.entry) he'
      (by simp [Cursor.enter, hsl])).symm
  · obtain ⟨k, hk'⟩ := List.exists_mem_of_ne_nil _ hne
    exact ⟨fun hg => by simp at hg, fun hg => (hg k hk').elim⟩

end

/-! ## Whole trees -/

section

variable {cur : Cursor} {c d : Config}

/-- No node is half made, the first one included. -/
def Config.AllDone (cur : Cursor) (c : Config) : Prop :=
  ∀ l cur' d, c.walk cur l = some (cur', d) → Done cur' d

theorem Config.AllDone.child {s : Step} {e : Entry} (h : c.AllDone cur) (hd : c.child? s = some d)
    (he : d.entry = some e) : d.AllDone (cur.child s.slot e) := by
  intro l cur' b hw
  refine h (s :: l) cur' b ?_
  rw [Config.walk_cons hd he]
  exact hw

theorem keySlice_pos (key : String) : 0 < (keySlice key).length := by
  rw [keySlice, List.length_map]
  exact List.length_pos_of_ne_nil (List.splitOn_ne_nil _ _)

theorem Cursor.keyNames_cons (h : cur.index < (keySlice cur.ent.key).length) :
    ∃ name, cur.keyNames = name :: (keySlice cur.ent.key).drop (cur.index + 1) :=
  ⟨_, List.drop_eq_getElem_cons h⟩

/-- Every node has the text of a member or of an entry. -/
theorem Typed.spelled (h : Typed env cur c) (hf : FindsLeaf env)
    (hall : cur.ent.All Entry.Formed) (hdone : c.AllDone cur) (hflag : c.Flagged) :
    (∀ cur₀ e, cur = .enter e → Edge env cur₀ .configs c.toNode e → c.IsMember) ∧
    ∀ cur₀ e, cur = cur₀.enterKey → cur₀.index < (keySlice cur₀.ent.key).length →
      Edge env cur₀ .keys c.toNode e → c.IsEntry cur₀.keyNames := by
  induction h with
  | @mk cur c hcont hn hcase hedge hch ih =>
    have ht : Typed env cur c := .mk hcont hn hcase hedge hch
    have hd (s : Slot) (b : Config) (hb : b ∈ c.slot s) : c.child? ⟨s, b.name⟩ = some b :=
      Keyed.get_of_mem (hn s) hb
    have hmembers : ∀ b ∈ c.configs, b.IsMember := by
      intro b hb
      obtain ⟨e, he⟩ := hedge .configs b hb
      obtain ⟨hdir, ⟨str, hs⟩, -⟩ := id he
      exact (ih .configs b hb e he.entry (hs.all hdir hall) (hdone.child (hd .configs b hb) he.entry)
        (hflag.child (hd .configs b hb))).1 cur e rfl he
    have hentries (hi : cur.index < (keySlice cur.ent.key).length) :
        ∀ b ∈ c.keys, b.IsEntry cur.keyNames := by
      intro b hb
      obtain ⟨e, he⟩ := hedge .keys b hb
      have hent : (cur.child .keys e).ent.All Entry.Formed := by
        rw [Cursor.child, Cursor.enterKey_ent]
        exact hall
      exact (ih .keys b hb e he.entry hent (hdone.child (hd .keys b hb) he.entry)
        (hflag.child (hd .keys b hb))).2 cur e rfl hi he
    have hself : Done cur c := hdone [] cur c rfl
    refine ⟨fun cur₀ e hcur he => ?_, fun cur₀ e hcur hi he => ?_⟩
    · subst hcur
      by_cases hl : e.kind = .leaf
      · exact ht.isMember_leaf he hall.self hl hself
      · by_cases hk : e.key = ""
        · exact ht.isMember_container he hall.self hl hk hself hmembers
        · have hne : c.keys ≠ [] := by
            have := hself
            have hst := Entry.Formed.enter_list (e := e) hall.self hk
            rwa [Done, hst] at this
          exact ht.isMember_list he hall.self hk hself (hentries (keySlice_pos e.key))
            (ht.good_list he hf hall hk hne)
    · have hent : cur.ent = cur₀.ent := by rw [hcur, Cursor.enterKey_ent]
      have hname : cur₀.ent.name ≠ "" := by
        rw [← hent]
        exact hall.self.nonempty
      have hdir : ∀ x ∈ cur₀.ent.dir, x.All Entry.Formed := by
        rw [← hent]
        exact fun x hx => hall.child hx
      obtain ⟨hkey, hpr, hsafe⟩ := he.key_leaf hf hdir
      obtain ⟨name, hnames⟩ := Cursor.keyNames_cons hi
      rw [hnames]
      by_cases hlast : (keySlice cur₀.ent.key).length ≤ cur₀.index + 1
      · rw [List.drop_eq_nil_of_le hlast]
        subst hcur
        exact ht.isEntry_last he (Cursor.enterKey_last hlast) hkey hpr hsafe hname hmembers
      · have hmore := @Cursor.enterKey_more cur₀ (by omega)
        have hst : cur.state = .stateKey := by rw [hcur, hmore]
        have hne : c.keys ≠ [] := by
          rw [Done, hst] at hself
          exact hself
        have hkeys := hentries (by rw [hcur, hmore]; simp only; omega)
        have hdrop : cur.keyNames = (keySlice cur₀.ent.key).drop (cur₀.index + 1) := by
          rw [hcur, hmore]
          rfl
        rw [hdrop] at hkeys
        have hflagged := hflag [] c rfl he.fields_key.2.1 hne
        subst hcur
        exact ht.isEntry_key he hst hkey hsafe hname (by simpa using hlast) hne hflagged hkeys

/-- The children of a node in a tree of set mode. -/
theorem Typed.children_spelled (h : Typed env cur c) (hf : FindsLeaf env)
    (hdir : ∀ x ∈ cur.ent.dir, x.All Entry.Formed)
    (hdone : ∀ l cur' d, l ≠ [] → c.walk cur l = some (cur', d) → Done cur' d) (hflag : c.Flagged) :
    ∀ d ∈ c.configs, d.IsMember := by
  intro d hd
  obtain ⟨e, he⟩ := h.edge .configs d hd
  obtain ⟨hisDir, ⟨str, hs⟩, -⟩ := id he
  have hch : c.child? ⟨.configs, d.name⟩ = some d := Keyed.get_of_mem (h.nodup .configs) hd
  refine ((h.child .configs d hd e he.entry).spelled hf (hs.all_dir hisDir hdir) ?_
    (hflag.child hch)).1 cur e rfl he
  intro l cur' b hw
  refine hdone (⟨.configs, d.name⟩ :: l) cur' b (by simp) ?_
  rw [Config.walk_cons hch he.entry]
  exact hw

/-- The keys of a list. -/
theorem Typed.keys_spelled (h : Typed env cur c) (hf : FindsLeaf env)
    (hall : cur.ent.All Entry.Formed) (hdone : c.AllDone cur) (hflag : c.Flagged)
    (hi : cur.index < (keySlice cur.ent.key).length) : ∀ k ∈ c.keys, k.IsEntry cur.keyNames := by
  intro k hk
  obtain ⟨e, he⟩ := h.edge .keys k hk
  have hch : c.child? ⟨.keys, k.name⟩ = some k := Keyed.get_of_mem (h.nodup .keys) hk
  have hent : (cur.child .keys e).ent.All Entry.Formed := by
    rw [Cursor.child, Cursor.enterKey_ent]
    exact hall
  exact ((h.child .keys k hk e he.entry).spelled hf hent (hdone.child hch he.entry)
    (hflag.child hch)).2 cur e rfl hi he

/-- The nodes below a node. -/
theorem Config.below_iff (hn : ∀ s, ((c.slot s).map (·.name)).Nodup) :
    (∀ l d, l ≠ [] → c.get? l = some d → d.toNode.Encodes ∧ d.KeysEncode) ↔
      ∀ s, ∀ d ∈ c.slot s, d.Good := by
  constructor
  · intro h s d hd l x hx
    refine h (⟨s, d.name⟩ :: l) x (by simp) ?_
    have hch : c.child? ⟨s, d.name⟩ = some d := Keyed.get_of_mem (hn s) hd
    rw [Config.get?_cons, hch]
    exact hx
  · intro h l d hl hd
    cases l with
    | nil => exact absurd rfl hl
    | cons s l =>
      rw [Config.get?_cons] at hd
      obtain ⟨b, hb, hd⟩ := Option.bind_eq_some_iff.mp hd
      exact h s.slot b (Config.child?_mem hb) l d hd

/-- The root, a container or a list entry: an object. -/
theorem Typed.top_obj (h : Typed env cur c) (hk : c.keys = [])
    (hm : ∀ d ∈ c.configs, d.IsMember) (he : ∀ e, c.entry = some e → hasKey e = false) :
    ∃ text, c.jsonMarshalTop = some text ∧ Json.Spells text c.jsonNode
      (c.KeysEncode ∧ ∀ l d, l ≠ [] → c.get? l = some d → d.toNode.Encodes ∧ d.KeysEncode) := by
  have hkeys : c.KeysEncode := by
    intro e hentry hkey
    rw [he e hentry] at hkey
    cases hkey
  have hnode : c.jsonNode = .obj (Config.jsonMembers c.configs) := by
    rw [Config.jsonNode, if_neg]
    cases hentry : c.entry with
    | none => simp
    | some e => simp [he e hentry]
  have hgood : (∀ l d, l ≠ [] → c.get? l = some d → d.toNode.Encodes ∧ d.KeysEncode) ↔
      ∀ d ∈ c.configs, d.Good := by
    rw [Config.below_iff h.nodup]
    refine ⟨fun hg => hg .configs, fun hg s d hd => ?_⟩
    cases s with
    | configs => exact hg d hd
    | keys =>
      rw [show c.slot .keys = [] from hk] at hd
      cases hd
  rw [propext (and_iff_right hkeys), propext hgood, hnode, Config.jsonMarshalTop, hk]
  by_cases hc : c.configs = []
  · rw [hc]
    refine ⟨['{', '}'], rfl, ?_⟩
    simpa [Config.jsonMembers] using Json.Spells.obj_nil
  · obtain ⟨t, ht, hspells⟩ := Config.members_all hm hc c.toNode
    refine ⟨'{' :: (t ++ ['}']), ?_, .obj hspells⟩
    simp [ht]

/-- A list: an array. -/
theorem Typed.top_arr {e : Entry} {cur₀ : Cursor} (h : Typed env (.enter e) c)
    (he : Edge env cur₀ .configs c.toNode e) (hf : FindsLeaf env) (hall : e.All Entry.Formed)
    (hk : e.key ≠ "") (hne : c.keys ≠ []) (hks : ∀ k ∈ c.keys, k.IsEntry (keySlice e.key)) :
    ∃ text, c.jsonMarshalTop = some text ∧ Json.Spells text c.jsonNode
      (c.KeysEncode ∧ ∀ l d, l ≠ [] → c.get? l = some d → d.toNode.Encodes ∧ d.KeysEncode) := by
  obtain ⟨hentry, -, hkc, ho, -⟩ := he.fields
  have hcont := h.content
  simp only [Content, hall.self.enter_list hk] at hcont
  have henc : c.toNode.Encodes := by simp [Node.Encodes, hkc, hcont, Node.values]
  have hgood : (c.KeysEncode ∧
      ∀ l d, l ≠ [] → c.get? l = some d → d.toNode.Encodes ∧ d.KeysEncode) ↔
      ∀ k ∈ c.keys, k.EntryGood (keySlice e.key) := by
    rw [← h.good_list he hf hall hk hne, Config.below_iff h.nodup, Config.good_iff h.nodup,
      and_iff_right henc]
  have hnode : c.jsonNode = .arr (Config.jsonEntries (keySlice e.key) [] c.keys) := by
    have : hasKey e = true := by simpa [hasKey] using hk
    obtain ⟨n, configs, keys⟩ := c
    simp [Config.jsonNode, Config.jsonData, show n.entry = some e from hentry, this]
  rw [propext hgood, hnode, Config.jsonMarshalTop]
  obtain ⟨t, ht, hspells⟩ := Config.keys_all hks hne ho
  refine ⟨'[' :: (t ++ [']']), ?_, hspells⟩
  simp [hne, ht]

end

/-- `JsonMarshal` of a node, other than a key with keys of its own, spells its data just
if everything below the node can be encoded. -/
theorem Typed.jsonMarshalTop_iff {T c : Config} {l : Loc} (hT : Typed env (.root ent) T)
    (hc : Closed ent T) (hroot : T.toNode = {}) (hfl : T.Flagged) (hf : FindsLeaf env)
    (hall : ∀ x ∈ ent.dir, x.All Entry.Formed) (hg : T.get? l = some c)
    (hk : c.keys ≠ [] → c.keyConfig = false) :
    (∃ text, c.jsonMarshalTop = some text ∧ Json.Denotes text c.jsonNode) ↔
      c.KeysEncode ∧ ∀ r d, r ≠ [] → c.get? r = some d → d.toNode.Encodes ∧ d.KeysEncode := by
  obtain ⟨cur, hw, ht⟩ := hT.walk_of_get hg
  suffices h : ∃ text, c.jsonMarshalTop = some text ∧ Json.Spells text c.jsonNode
      (c.KeysEncode ∧ ∀ r d, r ≠ [] → c.get? r = some d → d.toNode.Encodes ∧ d.KeysEncode) by
    obtain ⟨text, htext, hs⟩ := h
    constructor
    · rintro ⟨text', htext', hden⟩
      rw [htext] at htext'
      cases htext'
      exact hs.denotes_iff.mp hden
    · exact fun hgood => ⟨text, htext, hs.denotes_iff.mpr hgood⟩
  have hdir := hT.walk_dir hall hw
  have hflag : c.Flagged := fun r d hd => hfl (l ++ r) d (by rw [Config.get?_append, hg]; exact hd)
  have hdone : ∀ r cur' d, r ≠ [] → c.walk cur r = some (cur', d) → Done cur' d := by
    intro r cur' d hr hwr
    refine hc (l ++ r) cur' d (by simp [hr]) ?_
    rw [Config.walk_append, hw]
    exact hwr
  have hmembers := ht.children_spelled hf hdir hdone hflag
  rcases List.eq_nil_or_concat l with rfl | ⟨pre, s, rfl⟩
  · cases hw
    refine ht.top_obj (ht.keys_nil (by simp [Cursor.root])) hmembers fun e he => ?_
    rw [show T.entry = T.toNode.entry from rfl, hroot] at he
    cases he
  · rw [List.concat_eq_append] at hw hg
    obtain ⟨cur₀, p, e, hwp, hch, he, rfl⟩ := Config.walk_snoc hw
    obtain ⟨e', hedge, he', -⟩ := (hT.of_walk hwp).child?_edge hch
    rw [he] at he'
    cases he'
    have hdir₀ := hT.walk_dir hall hwp
    obtain ⟨slot, name⟩ := s
    cases slot with
    | keys =>
      have hkey := (hedge.key_leaf hf hdir₀).1
      have hnokeys : c.keys = [] := by
        by_contra hne
        have := hk hne
        rw [hedge.fields_key.2.1] at this
        cases this
      refine ht.top_obj hnokeys hmembers fun e' he' => ?_
      rw [he] at he'
      cases he'
      simp [hasKey, hkey]
    | configs =>
      obtain ⟨hisDir, ⟨str, hs⟩, -⟩ := id hedge
      have halle := hs.all_dir hisDir hdir₀
      have hdonec : c.AllDone (.enter e) := by
        intro r cur' d hwr
        refine hc (pre ++ [⟨.configs, name⟩] ++ r) cur' d (by simp) ?_
        rw [Config.walk_append, hw]
        exact hwr
      by_cases hkey : e.key = ""
      · have hst : (Cursor.enter e).state ≠ .stateKey := by
          simp only [Cursor.enter]
          split
          · simp
          · simp only [entryNextState, hasKey, hkey]
            split <;> simp
            · split <;> simp
            · split <;> simp
        refine ht.top_obj (ht.keys_nil hst) hmembers fun e' he' => ?_
        rw [he] at he'
        cases he'
        simp [hasKey, hkey]
      · have hne : c.keys ≠ [] := by
          have := hdonec [] _ _ rfl
          rwa [Done, halle.self.enter_list hkey] at this
        exact ht.top_arr hedge hf halle hkey hne
          (ht.keys_spelled hf halle hdonec hflag (keySlice_pos e.key))

end OpenConfigd
