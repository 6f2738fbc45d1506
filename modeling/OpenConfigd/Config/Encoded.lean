import OpenConfigd.Config.Encode
import OpenConfigd.Config.Replay

/-!
# The JSON of reachable trees

`json_list`: in a tree of set mode, `JsonMarshal` of a list gives its entries just
if the list has one key, or two with one second key for each first one, the leaves
that the keys have matched are the list's own, and the same holds of everything
below it. A further second key, a third key or a leafref breaks the text.
`json_escaping` is about every node: nothing in a value is escaped, so that it must have
no character that needs it, or be a literal of JSON where the type has no quotes.
-/

namespace OpenConfigd

variable {env : Env} {ent : Entry}

/-! ## Checks -/

/-- The key and the values of the node can stand in a JSON text as they are. -/
def Node.encodes (n : Node) : Bool :=
  let ok (v : String) : Bool :=
    if n.needQuote then v.toList.all Json.plain else Json.isLiteral v.toList
  (!n.keyConfig || ok n.name) && n.values.all ok &&
    (!n.valueList.isEmpty || !n.hasValue || n.value != "")

theorem Node.encodes_of {n : Node} (h : n.encodes = true) : n.Encodes := by
  have hok (v : String) : (if n.needQuote then v.toList.all Json.plain else
      Json.isLiteral v.toList) = true → n.ScalarOk v := by
    intro hv
    rw [Node.ScalarOk]
    by_cases hq : n.needQuote = true
    · rw [if_pos hq] at hv ⊢
      exact fun c hc => List.all_eq_true.mp hv c hc
    · rw [if_neg hq] at hv ⊢
      exact hv
  rw [Node.encodes, Bool.and_eq_true, Bool.and_eq_true] at h
  obtain ⟨⟨hk, hv⟩, hl⟩ := h
  refine ⟨fun hkc => hok n.name ?_, fun v hm => hok v ?_, fun hvl hh he => ?_⟩
  · simpa [hkc] using hk
  · exact List.all_eq_true.mp hv v hm
  · simp [hvl, hh, he] at hl

/-- The keys of the list can be encoded. -/
def Config.keysEncode (c : Config) : Bool :=
  match c.entry with
  | none => true
  | some e =>
    let first (k : Config) : Bool := k.keyName = keyIndexString e.key 0
    let second (k : Config) : Bool :=
      match k.keys with
      | [k'] => k'.keyName = keyIndexString e.key 1
      | _ => false
    !hasKey e || (keyLength e = 1 && c.keys.all first) ||
      (keyLength e = 2 && c.keys.all fun k => first k && second k)

theorem Config.keysEncode_iff {c : Config} : c.keysEncode = true ↔ c.KeysEncode := by
  have hsecond (e : Entry) (k : Config) : (match k.keys with
      | [k'] => decide (k'.keyName = keyIndexString e.key 1)
      | _ => false) = true ↔ ∃ k', k.keys = [k'] ∧ k'.keyName = keyIndexString e.key 1 := by
    match hk : k.keys with
    | [] => simp
    | [k'] => simp
    | _ :: _ :: _ => simp
  rw [Config.keysEncode, Config.KeysEncode]
  cases he : c.entry with
  | none => simp
  | some e =>
    by_cases hk : hasKey e = true
    · simp [hk, hsecond]
    · simp [hk]

/-! ## Lists -/

/-- `JsonMarshal` of a list gives an array with an object for each tuple of keys: the keys
under the names of the list's key leaves, then the children. -/
theorem json_list {root c : Config} {l : Loc} {e : Entry} (hr : Reach env ent root)
    (hall : ∀ x ∈ ent.dir, x.All Entry.Formed) (hf : FindsLeaf env) (hg : root.get? l = some c)
    (he : c.entry = some e) (hk : hasKey e = true) :
    (∃ text, c.jsonMarshalTop = some text ∧
      Json.Denotes text (.arr (Config.jsonEntries (keySlice e.key) [] c.keys))) ↔
    c.KeysEncode ∧ ∀ r d, r ≠ [] → c.get? r = some d → d.toNode.Encodes ∧ d.KeysEncode := by
  obtain ⟨ht, hc⟩ := hr.typed_closed
  have hkc : c.keyConfig = false := by
    obtain ⟨cur, hw, -⟩ := ht.walk_of_get hg
    rcases List.eq_nil_or_concat l with rfl | ⟨pre, s, rfl⟩
    · cases hg
      rw [show root.keyConfig = root.toNode.keyConfig from rfl, hr.toNode]
    · rw [List.concat_eq_append] at hw
      obtain ⟨cur₀, p, e', hwp, hch, he', rfl⟩ := Config.walk_snoc hw
      rw [he] at he'
      cases he'
      obtain ⟨e', hedge, he', -⟩ := (ht.of_walk hwp).child?_edge hch
      rw [he] at he'
      cases he'
      obtain ⟨slot, name⟩ := s
      cases slot with
      | configs => exact hedge.fields.2.2.1
      | keys =>
        have hkey := (hedge.key_leaf hf (ht.walk_dir hall hwp)).1
        simp [hasKey, hkey] at hk
  have hnode : c.jsonNode = .arr (Config.jsonEntries (keySlice e.key) [] c.keys) := by
    obtain ⟨n, configs, keys⟩ := c
    simp [Config.jsonNode, Config.jsonData, show n.entry = some e from he, hk]
  rw [← hnode]
  exact ht.jsonMarshalTop_iff hc hr.toNode hr.flagged hf hall hg fun _ => hkc

theorem ascii_findsLeaf : FindsLeaf .ascii := by
  intro e path t ht
  cases ht

theorem routesSchema_formed : ∀ x ∈ routesSchema.dir, x.All Entry.Formed := by
  decide

/-- An entry of two keys. -/
theorem json_list_pair : ∃ r c, parse .ascii routesSchema {} ["routes", "route", "a", "x"] = some r ∧
    r.tree.get? [⟨.configs, "routes"⟩, ⟨.configs, "route"⟩] = some c ∧
    ∃ text, c.jsonMarshalTop = some text ∧
      Json.Denotes text (.arr (Config.jsonEntries ["dst", "gw"] [] c.keys)) := by
  obtain ⟨r, hr, hx⟩ := Option.map_eq_some_iff.mp (show (parse .ascii routesSchema {}
    ["routes", "route", "a", "x"]).map (fun r => (r.code,
      (r.tree.get? [⟨.configs, "routes"⟩, ⟨.configs, "route"⟩]).map fun c =>
        (c.every (fun d => d.encodes && d.keysEncode), c.entry.map (·.key)))) =
    some (.parseSuccess, some (true, some "dst gw")) by decide +kernel)
  simp only [Prod.mk.injEq] at hx
  obtain ⟨hcode, hc⟩ := hx
  obtain ⟨c, hc, hx⟩ := Option.map_eq_some_iff.mp hc
  simp only [Prod.mk.injEq] at hx
  obtain ⟨hevery, he⟩ := hx
  obtain ⟨e, he, hkey⟩ := Option.map_eq_some_iff.mp he
  refine ⟨r, c, hr, hc, ?_⟩
  have hiff := json_list (.set .empty hr hcode) routesSchema_formed ascii_findsLeaf hc he
    (by rw [hasKey, hkey]; decide)
  rw [hkey, show keySlice "dst gw" = ["dst", "gw"] by decide +kernel] at hiff
  have hgood : ∀ l d, c.get? l = some d → d.toNode.Encodes ∧ d.KeysEncode := by
    intro l d hd
    have := Config.get?_of_every hevery hd
    rw [Bool.and_eq_true] at this
    exact ⟨Node.encodes_of this.1, Config.keysEncode_iff.mp this.2⟩
  exact hiff.mpr ⟨(hgood [] c rfl).2, fun l d _ hd => hgood l d hd⟩

/-- Two entries with the same first key. -/
theorem json_list_shared : ∃ root c e, Reach .ascii routesSchema root ∧
    root.get? [⟨.configs, "routes"⟩, ⟨.configs, "route"⟩] = some c ∧ c.entry = some e ∧
    c.keys.map (fun k => k.name :: k.keys.map (·.name)) = [["a", "x", "y"]] ∧
    c.jsonMarshalTop = some "[\x7b\"dst\":\"a\",\"gw\":\"x\"\x7d,\"gw\":\"y\"\x7d]".toList ∧
    ¬ ∃ text, c.jsonMarshalTop = some text ∧
      Json.Denotes text (.arr (Config.jsonEntries (keySlice e.key) [] c.keys)) := by
  obtain ⟨r, hr, hx⟩ := Option.bind_eq_some_iff.mp (show
    ((parse .ascii routesSchema {} ["routes", "route", "a", "x"]).bind fun r₁ =>
      (parse .ascii routesSchema r₁.tree ["routes", "route", "a", "y"]).map fun r₂ =>
        ([r₁.code, r₂.code],
          (r₂.tree.get? [⟨.configs, "routes"⟩, ⟨.configs, "route"⟩]).map fun c =>
            [decide (c.keys.map (fun k => k.name :: k.keys.map (·.name)) = [["a", "x", "y"]]),
              decide (c.jsonMarshalTop =
                some "[\x7b\"dst\":\"a\",\"gw\":\"x\"\x7d,\"gw\":\"y\"\x7d]".toList),
              !c.keyConfig, !c.keysEncode, decide (c.entry.map (·.key) = some "dst gw")])) =
    some ([.parseSuccess, .parseSuccess], some [true, true, true, true, true]) by decide +kernel)
  obtain ⟨r', hr', hx⟩ := Option.map_eq_some_iff.mp hx
  simp only [Prod.mk.injEq, List.cons.injEq, and_true] at hx
  obtain ⟨⟨hc₁, hc₂⟩, hx⟩ := hx
  obtain ⟨c, hg, hx⟩ := Option.map_eq_some_iff.mp hx
  simp only [List.cons.injEq, and_true, decide_eq_true_eq, Bool.not_eq_true'] at hx
  obtain ⟨hkeys, htext, hkc, hbad, he⟩ := hx
  obtain ⟨e, he, hkey⟩ := Option.map_eq_some_iff.mp he
  have hreach : Reach .ascii routesSchema r'.tree := .set (.set .empty hr hc₁) hr' hc₂
  refine ⟨r'.tree, c, e, hreach, hg, he, hkeys, htext, fun h => ?_⟩
  obtain ⟨ht, hc⟩ := hreach.typed_closed
  have hnode : c.jsonNode = .arr (Config.jsonEntries (keySlice e.key) [] c.keys) := by
    have hk : hasKey e = true := by rw [hasKey, hkey]; decide
    obtain ⟨n, configs, keys⟩ := c
    simp [Config.jsonNode, Config.jsonData, show n.entry = some e from he, hk]
  rw [← hnode] at h
  have := (ht.jsonMarshalTop_iff hc hreach.toNode hreach.flagged ascii_findsLeaf routesSchema_formed
    hg fun _ => hkc).mp h
  rw [← Config.keysEncode_iff, hbad] at this
  cases this.1

/-! ## Keys and values -/

/-- A key with keys below it is written as an array, and its data is an object. -/
theorem Typed.not_denotes_key {T c : Config} {l : Loc} (hT : Typed env (.root ent) T)
    (hall : ∀ x ∈ ent.dir, x.All Entry.Formed) (hf : FindsLeaf env) (hroot : T.toNode = {})
    (hg : T.get? l = some c) (hne : c.keys ≠ []) (hkc : c.keyConfig = true) {text : List Char}
    (ht : c.jsonMarshalTop = some text) : ¬ Json.Denotes text c.jsonNode := by
  obtain ⟨cur, hw, -⟩ := hT.walk_of_get hg
  have hnode : c.jsonNode = .obj (Config.jsonMembers c.configs) := by
    rcases List.eq_nil_or_concat l with rfl | ⟨pre, s, rfl⟩
    · cases hg
      rw [show T.keyConfig = T.toNode.keyConfig from rfl, hroot] at hkc
      cases hkc
    · rw [List.concat_eq_append] at hw
      obtain ⟨cur₀, p, e, hwp, hch, he, -⟩ := Config.walk_snoc hw
      obtain ⟨e', hedge, he', -⟩ := (hT.of_walk hwp).child?_edge hch
      rw [he] at he'
      cases he'
      obtain ⟨slot, name⟩ := s
      cases slot with
      | configs =>
        rw [hedge.fields.2.2.1] at hkc
        cases hkc
      | keys =>
        have hkey := (hedge.key_leaf hf (hT.walk_dir hall hwp)).1
        simp [Config.jsonNode, he, hasKey, hkey]
  have hempty : c.keys.isEmpty = false := by simpa using hne
  simp only [Config.jsonMarshalTop, hempty] at ht
  obtain ⟨ks, -, htext⟩ := Option.bind_eq_some_iff.mp ht
  cases htext
  rw [hnode]
  rintro ⟨r, hr, -⟩
  exact Json.not_reads_obj rfl (by decide) hr

/-- `JsonMarshal` of the root, or of a node that subscribers are sent, gives the data just if the
node is no key with keys of its own, the keys of the lists can be written, and of every key and
every value: it has no character to escape if its type is written with quotes, and is a literal of
JSON if not; and no leaf has the empty value. -/
theorem json_escaping {root c : Config} {l : Loc} (hr : Reach env ent root)
    (hall : ∀ x ∈ ent.dir, x.All Entry.Formed) (hf : FindsLeaf env) (hg : root.get? l = some c) :
    (∃ text, c.jsonMarshalTop = some text ∧ Json.Denotes text c.jsonNode) ↔
      ((c.keys ≠ [] → c.keyConfig = false) ∧ c.KeysEncode ∧
        ∀ r d, r ≠ [] → c.get? r = some d → d.KeysEncode) ∧
      ∀ r d, r ≠ [] → c.get? r = some d →
        (d.keyConfig = true → d.toNode.ScalarOk d.name) ∧ (∀ v ∈ d.toNode.values, d.toNode.ScalarOk v) ∧
        (d.valueList = [] → d.hasValue = true → d.value ≠ "") := by
  obtain ⟨ht, hc⟩ := hr.typed_closed
  by_cases hk : c.keys ≠ [] → c.keyConfig = false
  · rw [ht.jsonMarshalTop_iff hc hr.toNode hr.flagged hf hall hg hk]
    constructor
    · rintro ⟨hkeys, hbelow⟩
      exact ⟨⟨hk, hkeys, fun r d hne hd => (hbelow r d hne hd).2⟩, fun r d hne hd => (hbelow r d hne hd).1⟩
    · rintro ⟨⟨-, hkeys, hbelow⟩, henc⟩
      exact ⟨hkeys, fun r d hne hd => ⟨henc r d hne hd, hbelow r d hne hd⟩⟩
  · obtain ⟨hne, hkc⟩ := Classical.not_imp.mp hk
    refine iff_of_false ?_ fun h => hk h.1.1
    rintro ⟨text, htext, hden⟩
    exact ht.not_denotes_key hall hf hr.toNode hg hne (by simpa using hkc) htext hden

theorem interfacesSchema_formed : ∀ x ∈ interfacesSchema.dir, x.All Entry.Formed := by
  decide

/-- A number and a name that stand for themselves. -/
theorem json_escaping_mtu : ∃ r, parse .ascii interfacesSchema {}
      ["interfaces", "interface", "eth0", "mtu", "1500"] = some r ∧
    ∃ text, r.tree.jsonMarshalTop = some text ∧ Json.Denotes text r.tree.jsonNode := by
  obtain ⟨r, hr, hx⟩ := Option.map_eq_some_iff.mp (show (parse .ascii interfacesSchema {}
    ["interfaces", "interface", "eth0", "mtu", "1500"]).map (fun r =>
      (r.code, r.tree.keys.isEmpty, r.tree.every fun d => d.encodes && d.keysEncode)) =
    some (.parseSuccess, true, true) by decide +kernel)
  simp only [Prod.mk.injEq, List.isEmpty_iff] at hx
  obtain ⟨hc, hkeys, hevery⟩ := hx
  have hgood : ∀ l d, r.tree.get? l = some d → d.toNode.Encodes ∧ d.KeysEncode := by
    intro l d hd
    have := Config.get?_of_every hevery hd
    rw [Bool.and_eq_true] at this
    exact ⟨Node.encodes_of this.1, Config.keysEncode_iff.mp this.2⟩
  refine ⟨r, hr, (json_escaping (.set .empty hr hc) interfacesSchema_formed ascii_findsLeaf
    (show r.tree.get? [] = some r.tree from rfl)).mpr ⟨⟨fun hne => absurd hkeys hne, (hgood [] _ rfl).2,
      fun l d _ hd => (hgood l d hd).2⟩, fun l d _ hd => (hgood l d hd).1⟩⟩

/-- A name that adds a member to the document. -/
theorem json_escaping_member : ∃ r, parse .ascii interfacesSchema {}
      ["interfaces", "interface", "e\",\"mtu\":\"9", "address", "a"] = some r ∧ r.code = .parseSuccess ∧
    r.tree.jsonMarshalTop = some (("\x7b\"interfaces\":\x7b\"interface\": [\x7b\"name\":" ++
      "\"e\",\"mtu\":\"9\",\"address\":[\"a\"]\x7d]\x7d\x7d").toList) ∧
    ¬ ∃ text, r.tree.jsonMarshalTop = some text ∧ Json.Denotes text r.tree.jsonNode := by
  obtain ⟨r, hr, hx⟩ := Option.map_eq_some_iff.mp (show (parse .ascii interfacesSchema {}
    ["interfaces", "interface", "e\",\"mtu\":\"9", "address", "a"]).map (fun r =>
      (r.code, [r.tree.keys.isEmpty,
        decide (r.tree.jsonMarshalTop = some (("\x7b\"interfaces\":\x7b\"interface\": [\x7b\"name\":" ++
          "\"e\",\"mtu\":\"9\",\"address\":[\"a\"]\x7d]\x7d\x7d").toList)),
        (r.tree.get? [⟨.configs, "interfaces"⟩, ⟨.configs, "interface"⟩,
          ⟨.keys, "e\",\"mtu\":\"9"⟩]).any fun d => d.keyConfig && d.needQuote &&
            !d.name.toList.all Json.plain])) = some (.parseSuccess, [true, true, true]) by decide +kernel)
  simp only [Prod.mk.injEq, List.cons.injEq, and_true, decide_eq_true_eq, List.isEmpty_iff] at hx
  obtain ⟨hc, hkeys, htext, hbad⟩ := hx
  refine ⟨r, hr, hc, htext, fun h => ?_⟩
  have hreach : Reach .ascii interfacesSchema r.tree := .set .empty hr hc
  obtain ⟨ht, hcl⟩ := hreach.typed_closed
  obtain ⟨-, hgood⟩ := (ht.jsonMarshalTop_iff hcl hreach.toNode hreach.flagged ascii_findsLeaf
    interfacesSchema_formed (show r.tree.get? [] = some _ from rfl) fun hne => absurd hkeys hne).mp h
  obtain ⟨d, hd, hx⟩ := (Option.any_eq_true _ _).mp hbad
  simp only [Bool.and_eq_true, Bool.not_eq_true'] at hx
  obtain ⟨⟨hkc, hq⟩, hplain⟩ := hx
  have hok := (hgood _ d (by simp) hd).1.1 hkc
  rw [Node.ScalarOk, if_pos hq] at hok
  rw [List.all_eq_true.mpr hok] at hplain
  cases hplain

end OpenConfigd
