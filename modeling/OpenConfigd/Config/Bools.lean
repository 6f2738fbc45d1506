import OpenConfigd.Config.Built
import OpenConfigd.Config.Encoded
import OpenConfigd.Config.Saved

/-!
# The JSON of one-key trees

`json_tree`: where lists have one key, `JsonMarshal` of a node of a tree of
successful calls gives the node's data just if every boolean below it is spelled
out. `Parse` also takes `t` for `true` (in a leaf-list, but for its last value),
and stores the token; `JsonMarshal` writes it without quotes.
-/

namespace OpenConfigd

variable {env : Env} {ent : Entry}

/-! ## Keys and values -/

/-- The kind of the type of a node. -/
def Node.typeKind (n : Node) : Option TypeKind := (n.entry.bind (·.type)).map (·.kind)

/-- An optional minus sign, and digits that do not start with a zero or are one. -/
def isDecimal (v : String) : Bool := Json.natural (Json.unsigned v.toList) == some []

/-- A key or a value that is not empty, has no character to escape and is in plain
decimal if it is an integer. -/
def Node.plainText (n : Node) (v : String) : Bool :=
  v != "" && v.toList.all Json.plain && (!(n.typeKind.map TypeKind.isInteger).getD false || isDecimal v)

/-- The key and the values of the node are such. -/
def Node.plainTexts (n : Node) : Bool :=
  (!n.keyConfig || n.plainText n.name) && n.values.all n.plainText

/-- A boolean is `true` or `false`. -/
def Node.spelled (n : Node) (v : String) : Bool :=
  n.typeKind != some .bool || v == "true" || v == "false"

/-- The key and the values of the node, if booleans, are `true` or `false`. -/
def Node.boolsSpelled (n : Node) : Bool :=
  (!n.keyConfig || n.spelled n.name) && n.values.all n.spelled

theorem Json.isLiteral_of_decimal {t : List Char} (h : Json.natural (Json.unsigned t) = some []) :
    Json.isLiteral t = true := by
  simp [Json.isLiteral, Json.isNumber, h, Json.fraction, Json.isExponent]

theorem Node.needQuote_eq (n : Node) : n.needQuote =
    !((n.typeKind.map TypeKind.isInteger).getD false || n.typeKind == some .bool) := by
  rw [Node.needQuote, Node.typeKind]
  cases n.entry.bind (·.type) with
  | none => rfl
  | some t => cases hk : t.kind <;> simp [hk, TypeKind.isInteger]

/-- The token is matched against `true` and `false`. -/
def BoolMatch (v : String) : Prop :=
  matchKeyword v "true" ≠ .typeNone ∨ matchKeyword v "false" ≠ .typeNone

theorem Json.head_of_isNumber {t : List Char} (h : Json.isNumber t = true) :
    ∃ c cs, t = c :: cs ∧ (c = '-' ∨ c.isDigit = true) := by
  cases t with
  | nil => simp [Json.isNumber, Json.unsigned, Json.natural] at h
  | cons c cs =>
    refine ⟨c, cs, rfl, ?_⟩
    by_cases hc : c = '-'
    · exact .inl hc
    · right
      by_contra hd
      have hz : c ≠ '0' := by
        rintro rfl
        exact hd (by decide)
      simp [Json.isNumber, Json.unsigned, hc, Json.natural, hz, Json.digits, hd] at h

theorem matchKeyword_none {c d : Char} {cs ds : List Char} (hne : c ≠ d)
    (hw : isWhiteSpaceChar c = false) {v name : String} (hv : v.toList = c :: cs)
    (hn : name.toList = d :: ds) : matchKeyword v name = .typeNone := by
  simp [matchKeyword, hv, hn, longestCommon, hne, isDelimiter, hw]

/-- A token for a boolean is a literal of JSON just if it is `true` or `false`. -/
theorem BoolMatch.isLiteral {v : String} (h : BoolMatch v) :
    Json.isLiteral v.toList = true ↔ v = "true" ∨ v = "false" := by
  constructor
  · intro hl
    simp only [Json.isLiteral, Bool.or_eq_true, beq_iff_eq, String.toList_inj] at hl
    rcases hl with ((hl | hl) | hl) | hl
    · exact .inl hl
    · exact .inr hl
    · subst hl
      exact absurd h (by unfold BoolMatch; decide)
    · exfalso
      obtain ⟨c, cs, hv, hc⟩ := Json.head_of_isNumber hl
      have hchar : c ≠ 't' ∧ c ≠ 'f' ∧ isWhiteSpaceChar c = false := by
        rcases hc with rfl | hc
        · decide
        · have hdig (d : Char) (hd : d.isDigit = false) : c ≠ d := by
            rintro rfl
            rw [hd] at hc
            cases hc
          refine ⟨hdig 't' (by decide), hdig 'f' (by decide), ?_⟩
          simp [isWhiteSpaceChar, hdig ' ' (by decide), hdig '\t' (by decide), hdig '\n' (by decide)]
      obtain ⟨ht, hf, hw⟩ := hchar
      rcases h with h | h
      · exact h (matchKeyword_none ht hw hv rfl)
      · exact h (matchKeyword_none hf hw hv rfl)
  · rintro (rfl | rfl) <;> decide

/-- A plain key or value can stand in a JSON text just if it is no abbreviated boolean. -/
theorem Node.scalarOk_iff {n : Node} {v : String} (hp : n.plainText v = true)
    (hb : n.typeKind = some .bool → BoolMatch v) : n.ScalarOk v ↔ n.spelled v = true := by
  simp only [Node.plainText, Bool.and_eq_true] at hp
  obtain ⟨⟨-, hsafe⟩, hdec⟩ := hp
  have hsafe : Json.Safe v.toList := fun c hc => List.all_eq_true.mp hsafe c hc
  rw [Node.ScalarOk, Node.needQuote_eq, Node.spelled]
  by_cases hbool : n.typeKind = some .bool
  · simp [hbool, (hb hbool).isLiteral]
  · by_cases hint : (n.typeKind.map TypeKind.isInteger).getD false = true
    · have hlit : Json.isLiteral v.toList = true := by
        simp only [hint, Bool.not_true, Bool.false_or, isDecimal, beq_iff_eq] at hdec
        exact Json.isLiteral_of_decimal hdec
      simp [hint, hbool, hlit]
    · simp [hint, hbool, hsafe]

/-! ## Nodes -/

/-- The keys of a list are no leafrefs. -/
def Entry.OwnKeys (e : Entry) : Prop :=
  ∀ key t, keyEntry e 0 = some key → key.type = some t → t.kind ≠ .leafref

instance : DecidablePred Entry.OwnKeys := fun e =>
  decidable_of_iff (∀ t ∈ (keyEntry e 0).bind (·.type), t.kind ≠ .leafref)
    ⟨fun h key t hkey ht => h t (Option.bind_eq_some_iff.mpr ⟨key, hkey, ht⟩),
      fun h t ht => by
        obtain ⟨key, hkey, ht⟩ := Option.bind_eq_some_iff.mp ht
        exact h key t hkey ht⟩

/-- What a token for a boolean leaf is matched against. -/
theorem Picks.boolMatch {x e : Entry} {t : YangType} {l : List Alternative} {v : String}
    {m : MatchType} (hl : leafAlternatives env x = some l) (ht : x.type = some t)
    (hb : t.kind = .bool) (hp : Picks env l v e m) : BoolMatch v := by
  have halts : l = [(.keyword "true", x), (.keyword "false", x)] := by
    simp only [leafAlternatives, leafTypeAlternatives, typeAlternatives, ht, hb, reduceCtorEq,
      if_false, Option.map_some, Option.some.injEq] at hl
    exact hl.symm
  obtain ⟨y, hy, -, hm⟩ := hp.mem
  have hne := hp.1
  rw [halts] at hy
  rcases List.mem_cons.mp hy with rfl | hy
  · exact .inl fun h => hne (hm.symm.trans h)
  · rw [List.mem_singleton.mp hy] at hm
    exact .inr fun h => hne (hm.symm.trans h)

section

variable {root c : Config} {l : Loc} {cur : Cursor}

theorem Node.typeKind_eq {n : Node} {e : Entry} (he : n.entry = some e) :
    n.typeKind = e.type.map (·.kind) := by
  rw [Node.typeKind, he]
  rfl

/-- The value of a boolean leaf. -/
theorem Typed.value_bool (ht : Typed env (.root ent) root)
    (hw : root.walk (.root ent) l = some (cur, c)) {v : String} (hv : v ∈ c.toNode.values)
    (hb : c.typeKind = some .bool) : BoolMatch v := by
  obtain ⟨hst, e, m, hs⟩ := ht.values_select hw hv
  obtain ⟨alts, halts, hp⟩ := Cursor.select_unique.mp hs
  have hl : leafMatches env cur.ent v = some alts := by
    rcases hst with h | h <;> simpa only [Cursor.alternatives, h] using halts
  rw [Node.typeKind_eq (Config.walk_leaf hw hst).1] at hb
  obtain ⟨t, htype, hk⟩ := Option.map_eq_some_iff.mp hb
  exact hp.boolMatch (leafMatches_eq_some.mp hl).1 htype hk

/-- The leaf a key has matched, where keys are no leafrefs. -/
theorem Edge.own_key {n : Node} {e : Entry} (h : Edge env cur .keys n e) (hi : cur.index = 0)
    (hown : cur.ent.OwnKeys) : keyEntry cur.ent 0 = some e := by
  obtain ⟨key, t, hkey, htype, -, ⟨-, rfl⟩ | ⟨href, -⟩⟩ := h.2.1.key h.1
  · rw [hi] at hkey
    exact hkey
  · rw [hi] at hkey
    exact absurd href (hown key t hkey htype)

/-- A boolean key. -/
theorem Edge.key_bool {n : Node} {e : Entry} (h : Edge env cur .keys n e) (hi : cur.index = 0)
    (hown : cur.ent.OwnKeys) (hb : n.typeKind = some .bool) : BoolMatch n.name := by
  have hkey := h.own_key hi hown
  rw [Node.typeKind_eq h.entry] at hb
  obtain ⟨t, htype, hk⟩ := Option.map_eq_some_iff.mp hb
  obtain ⟨hst, ⟨m, hs⟩, -⟩ := h
  obtain ⟨alts, halts, hp⟩ := Cursor.select_unique.mp hs
  simp only [Cursor.alternatives, hst, hi, hkey] at halts
  exact hp.boolMatch (leafMatches_eq_some.mp halts).1 htype hk

theorem Config.walk_index (hk : ent.All Entry.OneKey) (ht : Typed env (.root ent) root)
    (hw : root.walk (.root ent) l = some (cur, c)) : cur.index = 0 := by
  rcases List.eq_nil_or_concat l with rfl | ⟨pre, s, rfl⟩
  · cases hw
    rfl
  · rw [List.concat_eq_append] at hw
    obtain ⟨cur₁, p, e, hwp, -, -, rfl⟩ := Config.walk_snoc hw
    obtain ⟨slot, n⟩ := s
    cases slot with
    | configs => rfl
    | keys =>
      have hone : keyLength cur₁.ent = 1 := (ht.walk_all hk hwp).self.length
      rw [Cursor.child, Cursor.enterKey, hone, if_pos (by omega)]

/-- With one key a list and no leafrefs for keys, the keys can be encoded. -/
theorem Typed.keysEncode_oneKey (hk : ent.All Entry.OneKey) (hown : ent.All Entry.OwnKeys)
    (ht : Typed env (.root ent) root) (hw : root.walk (.root ent) l = some (cur, c)) (hl : l ≠ []) :
    c.KeysEncode := by
  intro e he hkey
  obtain ⟨pre, s, rfl⟩ := List.eq_nil_or_concat l |>.resolve_left hl
  rw [List.concat_eq_append] at hw
  have htc := ht.of_walk hw
  have hi := Config.walk_index hk ht hw
  obtain ⟨cur₁, p, e', hwp, hch, he', hcur⟩ := Config.walk_snoc hw
  rw [he] at he'
  cases he'
  obtain ⟨slot, n⟩ := s
  cases slot with
  | configs =>
    subst hcur
    refine .inl ⟨(ht.walk_all hk hw).self.length, fun k hkk => ?_⟩
    obtain ⟨e', hedge⟩ := htc.edge .keys k hkk
    have hkey' := hedge.own_key hi (ht.walk_all hown hw).self
    rw [Config.keyName, hedge.entry]
    have := List.find?_some hkey'
    simpa [Cursor.child, Cursor.enter] using this
  | keys =>
    -- A key has no keys after it.
    obtain ⟨e', hedge, he', -⟩ := (ht.of_walk hwp).child?_edge hch
    rw [he] at he'
    cases he'
    have hkey' := hedge.own_key (Config.walk_index hk ht hwp) (ht.walk_all hown hwp).self
    have hmem : e ∈ cur₁.ent.dir := List.mem_of_find?_eq_some hkey'
    have hone : keyLength cur₁.ent = 1 := (ht.walk_all hk hwp).self.length
    have hnokeys : c.keys = [] := by
      refine htc.keys_nil ?_
      rw [hcur, Cursor.child, Cursor.enterKey, hone, if_pos (by omega)]
      simp
    refine .inl ⟨((ht.walk_all hk hwp).child hmem).self.length, fun k hkk => ?_⟩
    rw [hnokeys] at hkk
    cases hkk

/-- A node with plain texts can be encoded just if its booleans are spelled out. -/
theorem Typed.encodes_iff (hk : ent.All Entry.OneKey) (hown : ent.All Entry.OwnKeys)
    (ht : Typed env (.root ent) root) (hc : Closed ent root)
    (hw : root.walk (.root ent) l = some (cur, c)) (hl : l ≠ [])
    (hp : c.toNode.plainTexts = true) :
    c.toNode.Encodes ↔ c.toNode.boolsSpelled = true := by
  rw [Node.plainTexts, Bool.and_eq_true, List.all_eq_true] at hp
  have hkey : (c.keyConfig = true → c.ScalarOk c.name) ↔
      (!c.keyConfig || c.spelled c.name) = true := by
    cases hkc : c.keyConfig with
    | false => simp
    | true =>
      have hplain : c.plainText c.name = true := by simpa [hkc] using hp.1
      have hbool : c.typeKind = some .bool → BoolMatch c.name := by
        obtain ⟨pre, s, rfl⟩ := List.eq_nil_or_concat l |>.resolve_left hl
        rw [List.concat_eq_append] at hw
        obtain ⟨cur₁, p, e, hwp, hch, -, -⟩ := Config.walk_snoc hw
        obtain ⟨e', hedge, -⟩ := (ht.of_walk hwp).child?_edge hch
        obtain ⟨slot, n⟩ := s
        cases slot with
        | configs =>
          rw [hedge.fields.2.2.1] at hkc
          cases hkc
        | keys =>
          exact hedge.key_bool (Config.walk_index hk ht hwp) (ht.walk_all hown hwp).self
      simp [Node.scalarOk_iff hplain hbool]
  have hvals : (∀ v ∈ c.toNode.values, c.ScalarOk v) ↔ c.toNode.values.all c.spelled = true := by
    rw [List.all_eq_true]
    refine forall₂_congr fun v hv => ?_
    exact Node.scalarOk_iff (hp.2 v hv) (ht.value_bool hw hv)
  have hempty : c.valueList = [] → c.hasValue = true → c.value ≠ "" := by
    intro hvl hh
    have hdone := hc l cur c hl hw
    have hcont := (ht.of_walk hw).content
    cases hst : cur.state <;> simp only [Content, Done, hst] at hcont hdone
    case stateLeaf =>
      obtain ⟨he, hll⟩ := Config.walk_leaf hw (.inl hst)
      have hll : cur.ent.isLeafList = false := by simpa [hst] using hll
      have hmem : c.value ∈ c.toNode.values := by simp [Node.values, he, hll, hh]
      have := hp.2 _ hmem
      simp only [Node.plainText, Bool.and_eq_true, bne_iff_ne] at this
      exact this.1.1
    case stateLeafList => exact absurd hvl hdone
    all_goals
      rw [hcont.2.2] at hh
      cases hh
  rw [Node.Encodes, Node.boolsSpelled, Bool.and_eq_true, ← hkey, ← hvals]
  exact ⟨fun h => ⟨h.1, h.2.1⟩, fun h => ⟨h.1, h.2, hempty⟩⟩

end

/-! ## The law -/

theorem FindsLeaf.regular (h : FindsLeaf env) : FindsRegular env := by
  intro e path t ht
  obtain ⟨hform, hkind⟩ := h e path t ht
  refine ⟨fun _ => hkind, fun hp => ?_⟩
  rw [(hform.leaf hkind).2] at hp
  cases hp

/-- `JsonMarshal` of the root or of a node below it gives the data of the node, just if
every boolean below the node is `true` or `false`. -/
theorem json_tree {root c : Config} {l : Loc} (hk : ent.All Entry.OneKey)
    (hn : ent.All Entry.NoChoice) (hown : ent.All Entry.OwnKeys) (hreg : ent.All Entry.Regular)
    (hall : ∀ x ∈ ent.dir, x.All Entry.Formed) (hf : FindsLeaf env) (hb : Built env ent root)
    (hp : ∀ l d, l ≠ [] → root.get? l = some d → d.toNode.plainTexts = true)
    (hg : root.get? l = some c) :
    (∃ text, c.jsonMarshalTop = some text ∧ Json.Denotes text c.jsonNode) ↔
      ∀ r d, r ≠ [] → c.get? r = some d → d.toNode.boolsSpelled = true := by
  have ht := hb.edited.typed
  have hc := hb.closed hf.regular hreg fun _ ht => ht.dataNodes hf.regular hreg hk hn
  have hroot := hb.toNode
  obtain ⟨cur, hw, -⟩ := ht.walk_of_get hg
  have hkeys : c.KeysEncode := by
    by_cases hl : l = []
    · subst hl
      cases hg
      intro e he
      rw [show root.entry = root.toNode.entry from rfl, hroot] at he
      cases he
    · exact ht.keysEncode_oneKey hk hown hw hl
  have hkey : c.keys ≠ [] → c.keyConfig = false := by
    intro hne
    rcases List.eq_nil_or_concat l with rfl | ⟨pre, s, rfl⟩
    · cases hg
      rw [show root.keyConfig = root.toNode.keyConfig from rfl, hroot]
    · rw [List.concat_eq_append] at hw
      obtain ⟨cur₁, p, e, hwp, hch, -, rfl⟩ := Config.walk_snoc hw
      obtain ⟨e', hedge, -⟩ := (ht.of_walk hwp).child?_edge hch
      obtain ⟨slot, n⟩ := s
      cases slot with
      | configs => exact hedge.fields.2.2.1
      | keys =>
        have hone : keyLength cur₁.ent = 1 := (ht.walk_all hk hwp).self.length
        refine absurd ((ht.of_walk hw).keys_nil ?_) hne
        rw [Cursor.child, Cursor.enterKey, hone, if_pos (by omega)]
        simp
  rw [ht.jsonMarshalTop_iff hc hroot hb.edited.flagged hf hall hg hkey, and_iff_right hkeys]
  refine forall₂_congr fun r d => forall₂_congr fun hr hd => ?_
  have hgd : root.get? (l ++ r) = some d := by
    rw [Config.get?_append, hg]
    exact hd
  have hne : l ++ r ≠ [] := by simp [hr]
  obtain ⟨cur', hwd, -⟩ := ht.walk_of_get hgd
  rw [← ht.encodes_iff hk hown hc hwd hne (hp _ d hne hgd)]
  exact and_iff_left (ht.keysEncode_oneKey hk hown hwd hne)

/-- A schema with a list of a leaf and a leaf-list of booleans. -/
def flagsSchema : Entry :=
  { name := "", kind := .directory, dir := [
    { name := "interface", kind := .directory, parentKind := some .directory, listAttr := true,
      key := "name", dir := [
      { name := "name", kind := .leaf, parentKind := some .directory,
        type := some { kind := .string } },
      { name := "mtu", kind := .leaf, parentKind := some .directory,
        type := some { kind := .uint16 } },
      { name := "flag", kind := .leaf, parentKind := some .directory, listAttr := true,
        type := some { kind := .bool } }] }] }

theorem flagsSchema_oneKey : flagsSchema.All Entry.OneKey := by
  decide

theorem flagsSchema_noChoice : flagsSchema.All Entry.NoChoice := by
  decide

theorem flagsSchema_regular : flagsSchema.All Entry.Regular := by
  decide

theorem flagsSchema_ownKeys : flagsSchema.All Entry.OwnKeys := by
  decide

theorem flagsSchema_formed : ∀ x ∈ flagsSchema.dir, x.All Entry.Formed := by
  decide

/-- Booleans that are spelled out, in a tree with a leaf that has been deleted. -/
theorem json_tree_flags : ∃ root text, Built .ascii flagsSchema root ∧
    root.jsonMarshalTop = some text ∧ Json.Denotes text root.jsonNode := by
  obtain ⟨r, hr, hx⟩ := Option.bind_eq_some_iff.mp (show
    (parse .ascii flagsSchema {} ["interface", "eth0", "flag", "false", "true"]).bind (fun r₁ =>
      (parse .ascii flagsSchema r₁.tree ["interface", "eth0", "mtu", "1500"]).bind fun r₂ =>
        (parseDelete r₂.tree ["interface", "eth0", "mtu"]).map fun r₃ =>
          ([r₁.code, r₂.code, r₃.code],
            r₃.tree.every fun c => c.toNode.plainTexts && c.toNode.boolsSpelled)) =
    some ([.parseSuccess, .parseSuccess, .parseSuccess], true) by decide +kernel)
  obtain ⟨r', hr', hx⟩ := Option.bind_eq_some_iff.mp hx
  obtain ⟨r'', hr'', hx⟩ := Option.map_eq_some_iff.mp hx
  simp only [Prod.mk.injEq, List.cons.injEq, and_true] at hx
  obtain ⟨⟨hc₁, hc₂, hc₃⟩, hevery⟩ := hx
  have hb : Built .ascii flagsSchema r''.tree := .delete (.set (.set .empty hr hc₁) hr' hc₂) hr'' hc₃
  have hgood (l : Loc) (d : Config) (hd : r''.tree.get? l = some d) :
      d.toNode.plainTexts = true ∧ d.toNode.boolsSpelled = true := by
    simpa using Config.get?_of_every hevery hd
  obtain ⟨text, htext, hden⟩ := (json_tree flagsSchema_oneKey flagsSchema_noChoice flagsSchema_ownKeys
    flagsSchema_regular flagsSchema_formed ascii_findsLeaf hb (fun l d _ hd => (hgood l d hd).1)
    (show r''.tree.get? [] = some _ from rfl)).mpr fun l d _ hd => (hgood l d hd).2
  exact ⟨_, text, hb, htext, hden⟩

/-- The leaf-list of `eth0`. -/
def flagPlace : Loc := [⟨.configs, "interface"⟩, ⟨.keys, "eth0"⟩, ⟨.configs, "flag"⟩]

/-- `t` for `true` in a leaf-list. -/
theorem json_tree_abbreviated : ∃ root, Built .ascii flagsSchema root ∧
    (∀ l d, l ≠ [] → root.get? l = some d → d.toNode.plainTexts = true) ∧
    root.jsonMarshalTop =
      some "\x7b\"interface\": [\x7b\"name\":\"eth0\",\"flag\":[t,true]\x7d]\x7d".toList ∧
    ¬ ∃ text, root.jsonMarshalTop = some text ∧ Json.Denotes text root.jsonNode := by
  obtain ⟨r, hr, hx⟩ := Option.map_eq_some_iff.mp (show
    (parse .ascii flagsSchema {} ["interface", "eth0", "flag", "t", "true"]).map (fun r =>
      (r.code, [r.tree.every fun c => c.toNode.plainTexts,
        decide (r.tree.jsonMarshalTop =
          some "\x7b\"interface\": [\x7b\"name\":\"eth0\",\"flag\":[t,true]\x7d]\x7d".toList),
        r.tree.keys.isEmpty, (r.tree.get? flagPlace).any fun c =>
          decide ("t" ∈ c.toNode.values) && !c.needQuote])) =
    some (.parseSuccess, [true, true, true, true]) by decide +kernel)
  simp only [Prod.mk.injEq, List.cons.injEq, and_true, decide_eq_true_eq, List.isEmpty_iff] at hx
  obtain ⟨hcode, hplain, htext, hkeys, hflag⟩ := hx
  have hb : Built .ascii flagsSchema r.tree := .set .empty hr hcode
  refine ⟨r.tree, hb, fun l d _ hd => Config.get?_of_every hplain hd, htext, fun h => ?_⟩
  have ht := hb.edited.typed
  have hreg := ascii_findsLeaf.regular
  have hc := hb.closed hreg flagsSchema_regular fun _ ht =>
    ht.dataNodes hreg flagsSchema_regular flagsSchema_oneKey flagsSchema_noChoice
  obtain ⟨-, hgood⟩ := (ht.jsonMarshalTop_iff hc hb.toNode hb.edited.flagged ascii_findsLeaf
    flagsSchema_formed (show r.tree.get? [] = some _ from rfl) fun hne => absurd hkeys hne).mp h
  cases hg : r.tree.get? flagPlace with
  | none => simp [hg] at hflag
  | some d =>
    simp only [hg, Option.any_some, Bool.and_eq_true, decide_eq_true_eq, Bool.not_eq_true'] at hflag
    have hok := (hgood flagPlace d (by decide) hg).1.2.1 "t" hflag.1
    rw [Node.ScalarOk, hflag.2, if_neg (by decide)] at hok
    exact absurd hok (by decide)

end OpenConfigd
