import OpenConfigd.Config.Alike
import OpenConfigd.Config.Built
import OpenConfigd.Config.Choice
import OpenConfigd.Config.Json

/-!
# Later calls on a copy

Calls on a copy of a tree, and the same calls on the tree. `Copy` misses two fields
that later calls look at: `JsonMarshal` and `Delete` read `KeyOnlyConfig`, `exclude`
reads `Case`. Without a mark on a key, and where a child has a `Case` no child of
another case can come, every call returns on the copy what it returns on the tree and
leaves the same to see. Otherwise one call tells the two apart: the JSON text of the
whole tree, or a `Parse` that makes a child of another case (`copy_faithful`).
-/

namespace OpenConfigd

/-! ## Calls -/

/-- A call on a tree. -/
inductive Call where
  | parse (cmds : List String)
  | parseDelete (cmds : List String)
  | delete (loc : Loc) (leaf : Bool)
  | jsonMarshal (loc : Loc)
  | string
  | commandString

/-- What a call returns; `none` is a run that panics. -/
inductive Output where
  | parsed (r : Option (ParseCode × Option Callback × List Comp))
  | text (t : Option (List Char))
  | done

section

variable (env : Env) (ent : Entry)

/-- A call and the tree it leaves. -/
def Call.run (root : Config) : Call → Output × Config
  | .parse cmds =>
    match OpenConfigd.parse env ent root cmds with
    | none => (.parsed none, root)
    | some r => (.parsed (some (r.code, r.callback, r.comps)), r.tree)
  | .parseDelete cmds =>
    match OpenConfigd.parseDelete root cmds with
    | none => (.parsed none, root)
    | some r => (.parsed (some (r.code, r.callback, r.comps)), r.tree)
  | .delete loc leaf => (.done, OpenConfigd.delete root loc leaf)
  | .jsonMarshal loc => (.text ((root.get? loc).bind (·.jsonMarshalTop)), root)
  | .string => (.text root.string, root)
  | .commandString => (.text (root.commandString env), root)

/-- The calls one after the other: what each returns, and the tree after it. -/
def runCalls : List Call → Config → List (Output × Config)
  | [], _ => []
  | call :: calls, root =>
    call.run env ent root :: runCalls calls (call.run env ent root).2

/-- What there is to see of the calls: what each returns, and of the tree after it all
but the marks of its nodes. -/
def seenCalls (calls : List Call) (root : Config) : List (Output × Config) :=
  (runCalls env ent calls root).map fun r => (r.1, r.2.seen)

end

variable {env : Env} {ent : Entry}

/-! ## Where a copy is as good -/

/-- The node has no mark that a copy lacks and a later call misses: it is no key that is
marked for the keys below it, and where a child has a `Case`, none of another case can
come. -/
def Copyable (env : Env) (cur : Cursor) (c : Config) : Prop :=
  c.keyOnlyConfig = false ∧ ((∀ d ∈ c.configs, d.case = none) ∨ cur.OneCase env)

theorem Typed.alike_copy {cur : Cursor} {c : Config} (ht : Typed env cur c)
    (h : ∀ l cur' d, c.walk cur l = some (cur', d) → Copyable env cur' d) : Alike env cur c c.copy := by
  induction ht with
  | @mk cur c _ hn _ hedge _ ih =>
    obtain ⟨hmark, hone⟩ := h [] cur c rfl
    refine alike_iff.mpr ⟨?_, fun s => ?_⟩
    · rw [Config.copy_case, Config.copy_toNode, Node.seen, Node.withCase]
      rw [show c.toNode.keyOnlyConfig = false from hmark]
    · rw [Config.slot_copy, List.forall₂_map_right_iff]
      refine List.forall₂_same.mpr fun d hd => ⟨?_, ?_⟩
      · rw [LikeCase, Config.copy_case]
        rcases hone with hnone | hone
        · cases s with
          | configs => exact .inl (hnone d hd).symm
          | keys =>
            obtain ⟨e, hd'⟩ := hedge .keys d hd
            refine .inl ?_
            rw [show d.case = d.toNode.case from rfl, hd'.2.2.1]
            rfl
        · exact .inr ⟨rfl, hone⟩
      · obtain ⟨e, he⟩ := hedge s d hd
        rw [Cursor.childOf_eq he.entry]
        have hch : c.child? ⟨s, d.name⟩ = some d := Keyed.get_of_mem (hn s) hd
        refine ih s d hd e he.entry fun l cur' b hb => h (⟨s, d.name⟩ :: l) cur' b ?_
        rw [Config.walk_cons hch he.entry]
        exact hb

/-- A call returns the same on trees that are alike, and leaves them alike. -/
theorem Alike.run {a b : Config} (hsort : SortsByLess env) (h : Alike env (.root ent) a b)
    (ht : Typed env (.root ent) a) (call : Call) :
    (call.run env ent b).1 = (call.run env ent a).1 ∧
      Alike env (.root ent) (call.run env ent a).2 (call.run env ent b).2 ∧
      Typed env (.root ent) (call.run env ent a).2 := by
  cases call with
  | parse cmds =>
    have hr := h.parse hsort ht cmds
    simp only [Call.run]
    generalize ha : OpenConfigd.parse env ent a cmds = o at hr ⊢
    generalize OpenConfigd.parse env ent b cmds = o' at hr ⊢
    cases hr with
    | none => exact ⟨rfl, h, ht⟩
    | some hr =>
      obtain ⟨hcode, hcallback, hcomps, halike⟩ := hr
      obtain ⟨cmds', ops, cur, htr, htree⟩ := parse_trace ha
      dsimp only
      refine ⟨by rw [hcode, hcallback, hcomps], halike, ?_⟩
      rw [htree]
      exact (htr.stands (.start ht)).typed
  | parseDelete cmds =>
    have hr := h.parseDelete ht cmds
    simp only [Call.run]
    generalize ha : OpenConfigd.parseDelete a cmds = o at hr ⊢
    generalize OpenConfigd.parseDelete b cmds = o' at hr ⊢
    cases hr with
    | none => exact ⟨rfl, h, ht⟩
    | some hr =>
      obtain ⟨hcode, hcallback, hcomps, halike⟩ := hr
      dsimp only
      refine ⟨by rw [hcode, hcallback, hcomps], halike, ?_⟩
      obtain ⟨-, htree⟩ | ⟨-, l, -, -, htree⟩ := parseDelete_cases ha
      · rw [htree]
        exact ht
      · rw [htree]
        exact ht.delete l true
  | delete loc leaf => exact ⟨rfl, h.delete ht loc leaf, ht.delete loc leaf⟩
  | jsonMarshal loc =>
    refine ⟨?_, h, ht⟩
    simp only [Call.run]
    cases hg : a.get? loc with
    | none =>
      have hb := h.get?_isSome loc
      rw [hg] at hb
      rw [show b.get? loc = none by simpa using hb]
    | some c =>
      obtain ⟨cur, hw, -⟩ := ht.walk_of_get hg
      obtain ⟨c', hg', hc⟩ := h.get_walk hw
      rw [hg', Option.bind_some, Option.bind_some, hc.jsonMarshalTop]
  | string =>
    refine ⟨?_, h, ht⟩
    simp only [Call.run]
    rw [← Config.string_copy b, ← h.copy_eq, Config.string_copy]
  | commandString =>
    refine ⟨?_, h, ht⟩
    simp only [Call.run]
    rw [← Config.commandString_copy b, ← h.copy_eq, Config.commandString_copy]

/-- So do the calls of a run. -/
theorem Alike.runCalls {a b : Config} (hsort : SortsByLess env) (h : Alike env (.root ent) a b)
    (ht : Typed env (.root ent) a) (calls : List Call) :
    seenCalls env ent calls b = seenCalls env ent calls a := by
  induction calls generalizing a b with
  | nil => rfl
  | cons call calls ih =>
    obtain ⟨hout, halike, htyped⟩ := h.run hsort ht call
    have hrest := ih halike htyped
    rw [seenCalls, seenCalls] at hrest ⊢
    rw [OpenConfigd.runCalls, OpenConfigd.runCalls, List.map_cons, List.map_cons, hrest, hout,
      ← Config.copy_eq_seen, ← Config.copy_eq_seen, halike.copy_eq]

/-! ## The JSON of a marked key -/

/-- Up to some place the texts agree, and there they differ. -/
def TextsApart (s t : List Char) : Prop :=
  ∃ p x u y v, x ≠ y ∧ s = p ++ x :: u ∧ t = p ++ y :: v

theorem TextsApart.ne {s t : List Char} (h : TextsApart s t) : s ≠ t := by
  obtain ⟨p, x, u, y, v, hne, rfl, rfl⟩ := h
  intro heq
  exact hne (List.cons.inj (List.append_cancel_left heq)).1

theorem TextsApart.within {s t : List Char} (h : TextsApart s t) (p u v : List Char) :
    TextsApart (p ++ (s ++ u)) (p ++ (t ++ v)) := by
  obtain ⟨q, x, u', y, v', hne, rfl, rfl⟩ := h
  exact ⟨p ++ q, x, u' ++ u, y, v' ++ v, hne, by simp, by simp⟩

/-- Both texts are there, and they are apart unless they are the same and the condition
holds. -/
def ApartUnless (same : Prop) (o o' : Option (List Char)) : Prop :=
  ∃ s t, o = some s ∧ o' = some t ∧ (same ∧ s = t ∨ TextsApart s t)

/-- What `jsonMarshal` writes after the keys of a node. -/
def jsonTail (n p : Node) (e : Entry) (noKeys noConfigs : Bool) (cs : List Char) : List Char :=
  (if !noConfigs then (if n.hasPrefix then [] else ['{']) ++ cs ++ ['}']
    else if n.hasPrefix && (p.keyOnlyConfig || noKeys) then ['}'] else []) ++
  (if noKeys && noConfigs && isPresenceContainer e then ['{', '}'] else []) ++
  (if isConfigKeyNode e then [']'] else [])

theorem jsonTail_configs (n p : Node) (e : Entry) (noKeys : Bool) (cs : List Char) :
    jsonTail n p e noKeys false cs = (if n.hasPrefix then [] else ['{']) ++
      (cs ++ ('}' :: if isConfigKeyNode e then [']'] else [])) := by
  simp [jsonTail]

namespace Config

variable {c : Config} {n p p' : Node} {configs keys : List Config} {e : Entry} {pos : Nat}

theorem jsonMarshal_text {ks cs : List Char} (he : c.entry = some e)
    (hk : jsonMarshalSlot (c.slot .keys) c.toNode (if c.keyOnlyConfig then 1 else 0) = some ks)
    (hc : jsonMarshalSlot (c.slot .configs) c.toNode (if c.hasPrefix then 1 else 0) = some cs) :
    c.jsonMarshal p pos = some ((if pos ≠ 0 then [','] else []) ++ jsonHead c.toNode p e ++
      (ks ++ jsonTail c.toNode p e c.keys.isEmpty c.configs.isEmpty cs)) := by
  obtain ⟨n, configs, keys⟩ := c
  simp only [slot] at hk hc he
  rw [jsonMarshal_eq, he]
  simp only [hk, hc, Option.bind_eq_bind, Option.bind_some, Option.pure_def, jsonTail,
    List.append_assoc]

/-- Below a key that is not marked the text of a node starts with a brace or a quote. -/
theorem jsonHead_cons (n : Node) (e : Entry) (hp : p.keyOnlyConfig = false) :
    ∃ x t, jsonHead n p e = x :: t ∧ x ≠ ',' := by
  rw [jsonHead]
  split
  · exact ⟨_, _, rfl, by decide⟩
  · split
    · rw [hp]
      exact ⟨_, _, rfl, by decide⟩
    · split
      · exact ⟨_, _, rfl, by decide⟩
      · split
        · exact ⟨_, _, rfl, by decide⟩
        · exact ⟨_, _, rfl, by decide⟩

theorem jsonMarshalSlot_some {cs : List Config}
    (h : ∀ d ∈ cs, ∀ p pos, ∃ t, d.jsonMarshal p pos = some t) (p : Node) (pos : Nat) :
    ∃ t, jsonMarshalSlot cs p pos = some t := by
  induction cs generalizing pos with
  | nil => exact ⟨[], jsonMarshalSlot_nil p pos⟩
  | cons d cs ih =>
    obtain ⟨t, ht⟩ := h d List.mem_cons_self p pos
    obtain ⟨ts, hts⟩ := ih (fun b hb => h b (List.mem_cons_of_mem _ hb)) (pos + 1)
    exact ⟨t ++ ts, by rw [jsonMarshalSlot_cons, ht, hts]; rfl⟩

/-- Nodes with entries have a text. -/
theorem jsonMarshal_some (h : c.Every fun d => d.entry.isSome) (p : Node) (pos : Nat) :
    ∃ e t, c.jsonMarshal p pos = some ((if pos ≠ 0 then [','] else []) ++ jsonHead c.toNode p e ++ t) := by
  induction h generalizing p pos with
  | @mk c hc _ ih =>
    have hslot (s : Slot) (n : Node) (pos : Nat) : ∃ t, jsonMarshalSlot (c.slot s) n pos = some t := by
      refine jsonMarshalSlot_some (fun d hd p pos => ?_) n pos
      obtain ⟨e, t, ht⟩ := ih s d hd p pos
      exact ⟨_, ht⟩
    obtain ⟨e, he⟩ := Option.isSome_iff_exists.mp hc
    obtain ⟨ks, hks⟩ := hslot .keys c.toNode (if c.keyOnlyConfig then 1 else 0)
    obtain ⟨cs, hcs⟩ := hslot .configs c.toNode (if c.hasPrefix then 1 else 0)
    exact ⟨e, _, jsonMarshal_text he hks hcs⟩

/-- A node with an entry, and with keys if it is marked. -/
def Marshals (c : Config) : Prop := c.entry.isSome ∧ (c.keyOnlyConfig = true → c.keys ≠ [])

/-- The texts of the trees of a slice are apart if one of them is from that of its copy. -/
theorem jsonMarshalSlot_apart {Q : Config → Prop} {cs : List Config}
    (h : ∀ d ∈ cs, ∀ pos, ApartUnless (Q d) (d.jsonMarshal p pos) (d.copy.jsonMarshal p' pos)) (pos : Nat) :
    ApartUnless (∀ d ∈ cs, Q d) (jsonMarshalSlot cs p pos) (jsonMarshalSlot (cs.map copy) p' pos) := by
  induction cs generalizing pos with
  | nil =>
    refine ⟨[], [], jsonMarshalSlot_nil p pos, jsonMarshalSlot_nil p' pos, .inl ⟨fun d hd => ?_, rfl⟩⟩
    cases hd
  | cons d cs ih =>
    obtain ⟨t, t', ht, ht', hd⟩ := h d List.mem_cons_self pos
    obtain ⟨ts, ts', hts, hts', hds⟩ := ih (fun b hb => h b (List.mem_cons_of_mem _ hb)) (pos + 1)
    refine ⟨t ++ ts, t' ++ ts', by rw [jsonMarshalSlot_cons, ht, hts]; rfl,
      by rw [List.map_cons, jsonMarshalSlot_cons, ht', hts']; rfl, ?_⟩
    rcases hd with ⟨hd, rfl⟩ | hd
    · rcases hds with ⟨hds, rfl⟩ | hds
      · exact .inl ⟨List.forall_mem_cons.mpr ⟨hd, hds⟩, rfl⟩
      · have := hds.within t [] []
        rw [List.append_nil, List.append_nil] at this
        exact .inr this
    · exact .inr (hd.within [] ts ts')

/-- The text of a tree and that of its copy are apart unless no node is marked. -/
theorem jsonMarshal_apart (h : c.Every Marshals) (hp : p.keyOnlyConfig = false)
    (hp' : p'.keyOnlyConfig = false) (pos : Nat) :
    ApartUnless (c.Every fun d => d.keyOnlyConfig = false) (c.jsonMarshal p pos)
      (c.copy.jsonMarshal p' pos) := by
  induction h generalizing p p' pos with
  | @mk c hc hch ih =>
    obtain ⟨hentry, hmark⟩ := hc
    obtain ⟨e, he⟩ := Option.isSome_iff_exists.mp hentry
    have hslot (s : Slot) (n n' : Node) (hn : n.keyOnlyConfig = false) (hn' : n'.keyOnlyConfig = false)
        (pos : Nat) : ApartUnless (∀ d ∈ c.slot s, d.Every fun d => d.keyOnlyConfig = false)
          (jsonMarshalSlot (c.slot s) n pos) (jsonMarshalSlot (c.copy.slot s) n' pos) := by
      rw [slot_copy]
      exact jsonMarshalSlot_apart (fun d hd pos => ih s d hd hn hn' pos) pos
    have hhead := jsonHead_seen c.toNode e (hp'.trans hp.symm)
    have htail (cs : List Char) : jsonTail c.toNode.seen p' e c.copy.keys.isEmpty
        c.copy.configs.isEmpty cs = jsonTail c.toNode p e c.keys.isEmpty c.configs.isEmpty cs := by
      rw [c.isEmpty_slot_copy.1, c.isEmpty_slot_copy.2, jsonTail, jsonTail, hp, hp']
      rfl
    have hcopy (ks cs : List Char) (hks : jsonMarshalSlot (c.copy.slot .keys) c.toNode.seen 0 = some ks)
        (hcs : jsonMarshalSlot (c.copy.slot .configs) c.toNode.seen (if c.hasPrefix then 1 else 0) =
          some cs) : c.copy.jsonMarshal p' pos = some ((if pos ≠ 0 then [','] else []) ++
            jsonHead c.toNode p e ++ (ks ++ jsonTail c.toNode p e c.keys.isEmpty c.configs.isEmpty cs)) := by
      have hentry : c.copy.entry = some e := by
        rw [show c.copy.entry = c.copy.toNode.entry from rfl, copy_toNode]
        exact he
      rw [jsonMarshal_text (p := p') hentry (by rw [copy_toNode]; exact hks) (by rw [copy_toNode]; exact hcs),
        copy_toNode, hhead, htail]
    by_cases hm : c.keyOnlyConfig = true
    · -- The first key of a marked key has a comma before it, and none in the copy.
      obtain ⟨k, ks, hkeys⟩ := List.exists_cons_of_ne_nil (hmark hm)
      have hevery (s : Slot) (d : Config) (hd : d ∈ c.slot s) : d.Every fun d => d.entry.isSome :=
        (hch s d hd).imp fun _ h => h.1
      have hcopies (s : Slot) (d : Config) (hd : d ∈ c.copy.slot s) : d.Every fun d => d.entry.isSome := by
        rw [slot_copy] at hd
        obtain ⟨b, hb, rfl⟩ := List.mem_map.mp hd
        exact (hevery s b hb).copy_of fun d h => by
          rw [show d.copy.entry = d.copy.toNode.entry from rfl, copy_toNode]
          exact h
      have hsome {cs : List Config} (hcs : ∀ d ∈ cs, d.Every fun d => d.entry.isSome) (n : Node)
          (pos : Nat) : ∃ t, jsonMarshalSlot cs n pos = some t := by
        refine jsonMarshalSlot_some (fun d hd p pos => ?_) n pos
        obtain ⟨e, t, ht⟩ := jsonMarshal_some (hcs d hd) p pos
        exact ⟨_, ht⟩
      obtain ⟨cs, hcs⟩ := hsome (hevery .configs) c.toNode (if c.hasPrefix then 1 else 0)
      obtain ⟨cs', hcs'⟩ := hsome (hcopies .configs) c.toNode.seen (if c.hasPrefix then 1 else 0)
      have hkeys' : c.copy.slot .keys = k.copy :: ks.map copy := by
        rw [slot_copy, show c.slot .keys = k :: ks from hkeys, List.map_cons]
      have hk := hevery .keys
      have hk' := hcopies .keys
      rw [show c.slot .keys = k :: ks from hkeys] at hk
      rw [hkeys'] at hk'
      obtain ⟨ek, t, ht⟩ := jsonMarshal_some (hk k List.mem_cons_self) c.toNode 1
      obtain ⟨ts, hts⟩ := hsome (fun d hd => hk d (List.mem_cons_of_mem _ hd)) c.toNode 2
      obtain ⟨ek', t', ht'⟩ := jsonMarshal_some (hk' k.copy List.mem_cons_self) c.toNode.seen 0
      obtain ⟨ts', hts'⟩ := hsome (fun d hd => hk' d (List.mem_cons_of_mem _ hd)) c.toNode.seen 1
      obtain ⟨x, u, hx, hne⟩ := @jsonHead_cons c.toNode.seen k.copy.toNode ek' rfl
      have htext : jsonMarshalSlot (c.slot .keys) c.toNode (if c.keyOnlyConfig then 1 else 0) =
          some (',' :: (jsonHead k.toNode c.toNode ek ++ (t ++ ts))) := by
        rw [hm, show c.slot .keys = k :: ks from hkeys, if_pos rfl, jsonMarshalSlot_cons, ht, hts]
        simp
      have htext' : jsonMarshalSlot (c.copy.slot .keys) c.toNode.seen 0 =
          some (x :: (u ++ (t' ++ ts'))) := by
        rw [hkeys', jsonMarshalSlot_cons, ht', hts', hx]
        simp
      refine ⟨_, _, jsonMarshal_text he htext hcs, hcopy _ _ htext' hcs', .inr ?_⟩
      exact TextsApart.within ⟨[], ',', _, x, _, hne.symm, rfl, rfl⟩ _ _ _
    · have hm : c.keyOnlyConfig = false := by simpa using hm
      obtain ⟨ks, ks', hks, hks', hkeys⟩ := hslot .keys c.toNode c.toNode.seen hm rfl 0
      obtain ⟨cs, cs', hcs, hcs', hconfigs⟩ := hslot .configs c.toNode c.toNode.seen hm rfl
        (if c.hasPrefix then 1 else 0)
      have htext : c.jsonMarshal p pos = some ((if pos ≠ 0 then [','] else []) ++ jsonHead c.toNode p e ++
          (ks ++ jsonTail c.toNode p e c.keys.isEmpty c.configs.isEmpty cs)) := by
        refine jsonMarshal_text he ?_ hcs
        rw [hm]
        exact hks
      refine ⟨_, _, htext, hcopy _ _ hks' hcs', ?_⟩
      rcases hkeys with ⟨hkeys, rfl⟩ | hkeys
      · rcases hconfigs with ⟨hconfigs, rfl⟩ | hconfigs
        · refine .inl ⟨.mk hm fun s d hd => ?_, rfl⟩
          cases s
          · exact hconfigs d hd
          · exact hkeys d hd
        · -- There are children, so that their texts stand between braces.
          have hne : c.configs.isEmpty = false := by
            by_contra hempty
            have hnil : c.configs = [] := by simpa using hempty
            replace hnil : c.slot .configs = [] := hnil
            rw [hnil, jsonMarshalSlot_nil] at hcs
            rw [slot_copy, hnil, List.map_nil, jsonMarshalSlot_nil] at hcs'
            cases hcs
            cases hcs'
            exact hconfigs.ne rfl
          have := hconfigs.within ((if pos ≠ 0 then [','] else []) ++ jsonHead c.toNode p e ++
            (ks ++ if c.hasPrefix then [] else ['{']))
            ('}' :: if isConfigKeyNode e then [']'] else []) ('}' :: if isConfigKeyNode e then [']'] else [])
          rw [hne, jsonTail_configs, jsonTail_configs]
          right
          simpa only [List.append_assoc] using this
      · have := hkeys.within ((if pos ≠ 0 then [','] else []) ++ jsonHead c.toNode p e)
          (jsonTail c.toNode p e c.keys.isEmpty c.configs.isEmpty cs)
          (jsonTail c.toNode p e c.keys.isEmpty c.configs.isEmpty cs')
        exact .inr this

end Config

/-! ## Marked keys have keys -/

section

variable {root : Config} {loc : Loc}

/-- `Delete` takes a marked key that lost its last key. -/
theorem Config.Followed.delete (hf : FindsRegular env) (hall : ent.All Entry.Regular)
    (ht : Typed env (.root ent) root) (hroot : root.toNode = {}) (hflag : root.Flagged)
    (h : root.Followed) (hg : (root.get? loc).isSome) (leaf : Bool) : (delete root loc leaf).Followed := by
  rcases List.eq_nil_or_concat loc with rfl | ⟨pre, s, rfl⟩
  · exact h
  rw [List.concat_eq_append] at hg ⊢
  have hpart : (OpenConfigd.delete root (pre ++ [s]) leaf).PartOf root := deleteUp_partOf _ _ _
  have ht' : Typed env (.root ent) (OpenConfigd.delete root (pre ++ [s]) leaf) := ht.delete _ _
  intro l d hd hm
  obtain ⟨cur, hw, -⟩ := ht'.walk_of_get hd
  obtain ⟨d₀, hw₀, hnode⟩ := hpart.walk ht' ht hw
  have hm₀ : d₀.keyOnlyConfig = true := by
    rw [show d₀.keyOnlyConfig = d₀.toNode.keyOnlyConfig from rfl, hnode]
    exact hm
  have hkeys₀ := h l d₀ (Config.get?_of_walk hw₀) hm₀
  obtain ⟨pre', t, rfl⟩ : ∃ pre' t, l = pre' ++ [t] := by
    rcases List.eq_nil_or_concat l with rfl | ⟨pre', t, rfl⟩
    · cases hw₀
      rw [show root.keyOnlyConfig = root.toNode.keyOnlyConfig from rfl, hroot] at hm₀
      cases hm₀
    · exact ⟨pre', t, by rw [List.concat_eq_append]⟩
  obtain ⟨hslot, hst⟩ := ht'.marked hw hm
  by_cases hpre : pre' ++ [t] <+: pre ++ [s]
  · rcases List.prefix_concat_iff.mp hpre with heq | hpre
    · -- The node `Delete` is called on goes, or has its keys and stays.
      rw [heq] at hw₀ hd
      obtain ⟨e, he, hkind⟩ := ht.kind_of_walk hf hall hw₀
      obtain ⟨rfl, rfl⟩ : pre' = pre ∧ t = s := by simpa using heq
      rw [hslot] at hkind
      have hdone : Done cur d₀ := by
        rw [Done, hst]
        exact hkeys₀
      cases leaf with
      | true =>
        rw [delete_gone hf hall ht hw₀ hdone he (.inr hkind.2)] at hd
        cases hd
      | false =>
        have hg₀ := Config.get?_of_walk hw₀
        have hdrops : d₀.drops e t.slot false = false := by
          have hempty : d₀.isEmpty = false := by simp [Config.isEmpty, hkeys₀]
          simp [Config.drops, hkind.2, hslot, hempty]
        have hstep : deleteStep root pre' t false = root := by
          rw [deleteStep_eq hg₀ he, hdrops, clears_false]
          rfl
        have hsame : OpenConfigd.delete root (pre' ++ [t]) false = root := by
          rw [OpenConfigd.delete, List.reverse_append, List.reverse_singleton, List.singleton_append,
            deleteUp, List.reverse_reverse, hstep]
          split
          · rfl
          · exact deleteUp_of_child (t := t) (by rw [List.reverse_reverse, hg₀]; rfl)
        rw [hsame, hg₀] at hd
        cases hd
        exact hkeys₀
    · -- The nodes above are settled.
      have htd := ht'.of_walk hw
      have hinner : Inner cur d := by
        obtain ⟨cur₁, p, e, hwp, hch, -⟩ := Config.walk_snoc hw
        obtain ⟨e', hedge, -⟩ := (ht'.of_walk hwp).child?_edge hch
        rw [hslot] at hedge
        exact .inr ⟨hedge.fields_key.2.1, hst⟩
      have hempty := delete_settled hf hall ht hflag hg _ cur d (by simp) hpre hw hinner
      have hconfigs := htd.configs_nil (by simp [Cursor.isDir, hst])
      intro hkeys
      simp [Config.isEmpty, hkeys, hconfigs] at hempty
  · rcases @delete_off root (pre ++ [s]) (pre' ++ [t]) leaf hpre with heq | hnone
    · rw [heq, Config.get?_of_walk hw₀] at hd
      cases hd
      exact hkeys₀
    · rw [hnone] at hd
      cases hd

theorem Edited.followed (hf : FindsRegular env) (hall : ent.All Entry.Regular)
    (h : Edited env ent root) : root.Followed := by
  induction h with
  | empty =>
    intro l d hd hm
    have hbare := Config.get?_bare ({} : Node) (r := l)
    by_cases hl : l = []
    · subst hl
      cases hd
      cases hm
    · rw [show ({} : Config) = ({} : Node).bare from rfl, hbare hl] at hd
      cases hd
  | parse h hp ih =>
    obtain ⟨cmds', ops, cur, htr, htree⟩ := parse_trace hp
    rw [htree]
    exact htr.followed (.start h.typed) ih
  | parseDelete h hp ih =>
    obtain ⟨-, htree⟩ | ⟨-, l, -, hg, htree⟩ := parseDelete_cases hp
    · rw [htree]
      exact ih
    · rw [htree]
      exact ih.delete hf hall h.typed h.toNode h.flagged hg true
  | delete leaf h hg ih => exact ih.delete hf hall h.typed h.toNode h.flagged hg leaf

end

theorem Typed.marshals {cur : Cursor} {c : Config} (ht : Typed env cur c) (he : c.entry.isSome)
    (h : c.Followed) : c.Every Config.Marshals := by
  refine ht.every fun l cur' d hw => ⟨?_, h l d (Config.get?_of_walk hw)⟩
  rcases List.eq_nil_or_concat l with rfl | ⟨pre, s, rfl⟩
  · cases hw
    exact he
  · rw [List.concat_eq_append] at hw
    obtain ⟨-, -, e, -, -, hd, -⟩ := Config.walk_snoc hw
    rw [hd]
    rfl

/-- The JSON of a tree with a marked key is not that of its copy. -/
theorem Edited.unmarked {root : Config} (hf : FindsRegular env) (hall : ent.All Entry.Regular)
    (h : Edited env ent root) (heq : root.copy.jsonMarshalTop = root.jsonMarshalTop) :
    root.Every fun d => d.keyOnlyConfig = false := by
  have ht := h.typed
  have hroot : root.keyOnlyConfig = false := by
    rw [show root.keyOnlyConfig = root.toNode.keyOnlyConfig from rfl, h.toNode]
  have hnil : root.keys = [] := ht.keys_nil (by simp [Cursor.root])
  have hkeys := root.isEmpty_slot_copy.2
  rw [hnil] at hkeys
  obtain ⟨t, t', hts, hts', hsame⟩ := @Config.jsonMarshalSlot_apart root.toNode root.copy.toNode
    (fun d => d.Every fun d => d.keyOnlyConfig = false) root.configs (fun d hd pos => by
      obtain ⟨e, hedge⟩ := ht.edge .configs d hd
      have hfol := (Config.followed_iff.mp (h.followed hf hall)).mem (ht.nodup .configs) hd
      refine Config.jsonMarshal_apart ((ht.child .configs d hd e hedge.entry).marshals ?_
        (Config.followed_iff.mpr hfol)) hroot (by rw [Config.copy_toNode]; rfl) pos
      rw [hedge.entry]
      rfl) 0
  rw [Config.jsonMarshalTop, Config.jsonMarshalTop, hkeys, hnil,
    show root.copy.configs = root.configs.map Config.copy from root.slot_copy .configs, hts, hts'] at heq
  rcases hsame with ⟨hmarks, -⟩ | hapart
  · refine .mk hroot fun s d hd => ?_
    cases s with
    | configs => exact hmarks d hd
    | keys =>
      rw [show root.slot .keys = [] from hnil] at hd
      cases hd
  · refine absurd ?_ hapart.ne
    simpa using heq.symm

/-! ## A child of another case -/

section

variable {root c : Config} {l : Loc} {cur : Cursor}

/-- Where no key has keys of its own, the tokens along a place lead to it and leave the
tree, and so they do in every tree that looks the same. -/
theorem Typed.retrace (ht : Typed env (.root ent) root)
    (hk : ∀ l d, root.get? l = some d → d.isKeyConfig = false)
    (hw : root.walk (.root ent) l = some (cur, c)) (hn : cur.isNode = true) :
    ∃ cmds ops, Trace env (.root ent) cmds ops cur ∧
      ∀ T : Config, T.copy = root.copy → applyOps env ops (T, []) = (T, l) := by
  induction l using List.reverseRecOn generalizing cur c with
  | nil =>
    cases hw
    exact ⟨[], [], .nil _, fun T _ => rfl⟩
  | append_singleton pre s ih =>
    obtain ⟨cur₁, p, e, hwp, hch, he, rfl⟩ := Config.walk_snoc hw
    obtain ⟨e', hedge, he', -⟩ := (ht.of_walk hwp).child?_edge hch
    obtain rfl : e = e' := Option.some.inj (he.symm.trans he')
    obtain ⟨cmds, ops, htr, hat⟩ := ih hwp ((ht.of_walk hwp).isNode hch)
    have hg := Config.get?_of_walk hwp
    -- One token more, whose call finds what it is for.
    have hmore (str : String) (hs : cur₁.Selects env str e)
        (hnext : cur₁.next e = cur₁.child s.slot e)
        (hop : ∀ T : Config, T.copy = root.copy →
          (cur₁.op e str).apply env (T, pre) = (T, pre ++ [s])) :
        ∃ cmds ops, Trace env (.root ent) cmds ops (cur₁.child s.slot e) ∧
          ∀ T : Config, T.copy = root.copy → applyOps env ops (T, []) = (T, pre ++ [s]) := by
      refine ⟨cmds ++ [str], ops ++ [cur₁.op e str], ?_, fun T hT => ?_⟩
      · exact htr.append (.cons hs (hnext ▸ .nil _))
      · rw [applyOps, List.foldl_append]
        have := hat T hT
        rw [applyOps] at this
        rw [this]
        exact hop T hT
    obtain ⟨slot, name⟩ := s
    cases slot with
    | configs =>
      obtain ⟨hdir, ⟨str, hs⟩, -⟩ := id hedge
      have hname : name = e.name := (Config.child?_name hch).symm.trans hedge.name_configs
      refine hmore str hs (Cursor.next_dir hdir) fun T hT => ?_
      have hlist : entryNextState e ≠ .stateLeafList := by
        intro hl
        simp [Cursor.child, Cursor.enter, Cursor.isNode, Cursor.isDir, hl] at hn
      rw [Cursor.op_dir hdir, if_neg hlist, Op.apply, hname]
      congr 1
      refine Config.modify_self fun t hgt => ?_
      have hcopy := Config.get?_copy T pre
      rw [hT, Config.get?_copy, hg, hgt, Option.map_some, Option.map_some, Option.some.injEq] at hcopy
      have hlook := Config.child?_copy t ⟨.configs, e.name⟩
      rw [← hcopy, Config.child?_copy, ← hname, hch, Option.map_some] at hlook
      obtain ⟨d, hd, -⟩ := Option.map_eq_some_iff.mp hlook.symm
      exact Config.set_of_some (hname ▸ hd)
    | keys =>
      obtain ⟨hst, hs, -⟩ := id hedge
      have hname : c.name = name := Config.child?_name hch
      have hs' : cur₁.Selects env name e := by
        rw [← hname]
        exact hs
      refine hmore name hs' (Cursor.next_key hst) fun T hT => ?_
      have hlook : Config.lookupKey T pre name = (pre, some (pre ++ [⟨.keys, name⟩])) := by
        rw [← Config.lookupKey_copy, hT, Config.lookupKey_copy, Config.lookupKey, hg]
        simp only [hk pre p hg, Bool.false_eq_true, if_false,
          show p.lookupKeyShallow name = some c from hch]
      rw [Cursor.op, hst]
      simp only [Op.apply, Config.setKey, hlook]

/-- Where a child has a `Case` and a token names a child of another case, `Parse` of that
token drops the child from the tree, and not from the copy. -/
theorem Typed.copy_misses {d : Config} {str : String} {e : Entry} (ht : Typed env (.root ent) root)
    (hk : ∀ l d, root.get? l = some d → d.isKeyConfig = false)
    (hw : root.walk (.root ent) l = some (cur, c)) (hd : d ∈ c.configs) (hs : cur.Selects env str e)
    (hcase : d.case.isSome) (he : (caseEntry e).isSome) (hne : d.case ≠ caseEntry e) :
    ∃ calls, seenCalls env ent calls root.copy ≠ seenCalls env ent calls root := by
  have htc := ht.of_walk hw
  have hg := Config.get?_of_walk hw
  obtain ⟨ed, hedge⟩ := htc.edge .configs d hd
  have hdir := hedge.1
  -- No child has the name of the new one: it would be of its case.
  have hlook : c.lookup e.name = none := by
    by_contra hsome
    obtain ⟨b, hb⟩ := Option.ne_none_iff_exists'.mp hsome
    obtain ⟨eb, hbe, -⟩ := htc.child?_edge (s := ⟨.configs, e.name⟩) hb
    obtain ⟨-, ⟨str', hs'⟩, -⟩ := id hbe
    have hname : eb.name = e.name := hbe.name_configs.symm.trans (Config.child?_name hb)
    obtain rfl := hs'.name_inj hdir hs hname
    have hbcase : b.case = caseEntry eb := hbe.case_configs
    exact hne ((htc.oneCase d hd b (Config.child?_mem hb) hcase (hbcase ▸ he)).trans hbcase)
  have hdname : d.name ≠ e.name := by
    intro heq
    exact Keyed.get_eq_none.mp hlook d hd heq
  obtain ⟨cmds, ops, htr, hat⟩ := ht.retrace hk hw (by simp [Cursor.isNode, hdir])
  have htr' := htr.append (.cons hs (.nil _))
  obtain ⟨code, hplan⟩ := htr'.plan (by simp)
  -- What the call leaves of the child.
  have hrun (T t : Config) (hT : T.copy = root.copy) (hgt : T.get? l = some t) :
      ∃ r, parse env ent T (cmds ++ [str]) = some r ∧
        r.tree.get? (l ++ [⟨.configs, d.name⟩]) = (t.set env e).child? ⟨.configs, d.name⟩ := by
    refine ⟨_, by rw [parse_eq_plan, hplan]; rfl, ?_⟩
    have hset : (T.modify l fun c => c.set env e).get? (l ++ [⟨.configs, d.name⟩]) =
        (t.set env e).child? ⟨.configs, d.name⟩ := by
      rw [Config.get?_modify_append (Config.set_keepsName e), hgt, Option.bind_some, Config.get?_single]
    have happly := hat T hT
    rw [applyOps] at happly
    simp only [ParseCode.result]
    rw [applyOps, List.foldl_append, happly, List.foldl_cons, List.foldl_nil, Cursor.op_dir hdir]
    split
    · simp only [Op.apply, Config.modify_setLeafList]
      rw [Config.get?_modify_off (f := Config.clearList) (fun _ => rfl) _ _ _, hset]
      · simpa using hdname.symm
      · simpa using hdname
    · exact hset
  obtain ⟨r, hr, hrd⟩ := hrun root c rfl hg
  obtain ⟨r', hr', hrd'⟩ := hrun root.copy c.copy root.copy_copy (by rw [Config.get?_copy, hg]; rfl)
  have hgone : (c.set env e).child? ⟨.configs, d.name⟩ = none := by
    by_contra hsome
    obtain ⟨b, hb⟩ := Option.ne_none_iff_exists'.mp hsome
    have hbname : b.name = d.name := Config.child?_name hb
    rcases (Config.mem_set hlook).mp (Config.child?_mem hb) with hb | rfl
    · have hbd := Keyed.get_of_mem (htc.nodup .configs) ((c.kept_sublist e).subset hb)
      rw [hbname, Keyed.get_of_mem (htc.nodup .configs) hd] at hbd
      obtain rfl := Option.some.inj hbd
      exact hne (Config.case_of_kept hb he hcase)
    · exact hdname hbname.symm
  have hstays : (c.copy.set env e).child? ⟨.configs, d.name⟩ = some d.copy := by
    have hconfigs : c.copy.configs = c.configs.map Config.copy := c.slot_copy .configs
    have hkept : c.copy.kept e = c.copy.configs := by
      rw [Config.kept, if_pos he, exclude, List.filter_eq_self, hconfigs]
      intro b hb
      obtain ⟨b, -, rfl⟩ := List.mem_map.mp hb
      rw [Config.copy_case]
      rfl
    have hnodup : (c.copy.configs.map (·.name)).Nodup := by
      rw [hconfigs, List.map_map, show (fun b : Config => b.name) ∘ Config.copy = fun b => b.name from
        funext Config.copy_name]
      exact htc.nodup .configs
    have hch : c.child? ⟨.configs, d.name⟩ = some d := Keyed.get_of_mem (htc.nodup .configs) hd
    rw [Config.child?_set_ne hnodup hkept (by simpa using hdname), Config.child?_copy, hch]
    rfl
  refine ⟨[.parse (cmds ++ [str])], fun heq => ?_⟩
  simp only [seenCalls, runCalls, Call.run, hr, hr', List.map_cons, List.map_nil, List.cons.injEq,
    Prod.mk.injEq, and_true, ← Config.copy_eq_seen] at heq
  have hget := congrArg (fun T : Config => T.get? (l ++ [⟨.configs, d.name⟩])) heq.2
  simp only [Config.get?_copy, hrd, hrd', hgone, hstays, Option.map_some, Option.map_none,
    reduceCtorEq] at hget

end

/-! ## The condition -/

/-- Calls on the copy of a tree return what they return on the tree, and leave the same to
see, just when no key of the tree is marked and where a child has a `Case` no token names
a child of another case. -/
theorem copy_faithful (hsort : SortsByLess env) (hf : FindsRegular env)
    (hall : ent.All Entry.Regular) {root : Config} (h : Edited env ent root) :
    (∀ calls, seenCalls env ent calls root.copy = seenCalls env ent calls root) ↔
      ∀ l cur c, root.walk (.root ent) l = some (cur, c) →
        c.keyOnlyConfig = false ∧ ((∀ d ∈ c.configs, d.case = none) ∨ cur.OneCase env) := by
  have ht := h.typed
  refine ⟨fun heq => ?_, fun hgood => (ht.alike_copy hgood).runCalls hsort ht⟩
  have hmarks := h.unmarked hf hall (by
    have := heq [.jsonMarshal []]
    simp only [seenCalls, runCalls, Call.run, Config.get?_nil, Option.bind_some, List.map_cons,
      List.map_nil, List.cons.injEq, Prod.mk.injEq, Output.text.injEq] at this
    exact this.1.1)
  have hkeys (l : Loc) (d : Config) (hd : root.get? l = some d) : d.isKeyConfig = false := by
    by_contra hkey
    obtain ⟨hne, hkc⟩ : d.keys ≠ [] ∧ d.keyConfig = true := by simpa [Config.isKeyConfig] using hkey
    have hm := h.flagged l d hd hkc hne
    rw [(hmarks.get hd).self] at hm
    cases hm
  intro l cur c hw
  have hg := Config.get?_of_walk hw
  refine ⟨(hmarks.get hg).self, ?_⟩
  by_contra hcase
  rw [not_or] at hcase
  obtain ⟨hsome, hone⟩ := hcase
  obtain ⟨d, hd, hdcase⟩ : ∃ d ∈ c.configs, d.case ≠ none := by simpa using hsome
  have hdsome := Option.isSome_iff_ne_none.mpr hdcase
  simp only [Cursor.OneCase, not_forall] at hone
  obtain ⟨str, e, str', e', hs, hs', he, he', hne⟩ := hone
  -- One of the two cases is not that of the child.
  have hmiss (str : String) (e : Entry) (hs : cur.Selects env str e) (he : (caseEntry e).isSome)
      (hne : d.case ≠ caseEntry e) : False := by
    obtain ⟨calls, hcalls⟩ := ht.copy_misses hkeys hw hd hs hdsome he hne
    exact hcalls (heq calls)
  by_cases hde : d.case = caseEntry e
  · exact hmiss str' e' hs' he' (hde ▸ hne)
  · exact hmiss str e hs he hde

theorem ascii_sortsByLess : SortsByLess .ascii := by
  intro α β f less l
  exact (List.map_insertionSort _ _ f l fun a _ b _ => Iff.rfl).symm

/-! ## A schema with a choice of one case -/

namespace OneCaseSchema

def spi : Entry :=
  { name := "spi", path := ["tunnel", "keying", "manual", "spi"], parentKind := some .case,
    kind := .leaf, type := some { kind := .empty } }

def secret : Entry :=
  { name := "secret", path := ["tunnel", "keying", "manual", "secret"], parentKind := some .case,
    kind := .leaf, type := some { kind := .empty } }

def manual : Entry :=
  { name := "manual", path := ["tunnel", "keying", "manual"], parentKind := some .choice,
    kind := .case, dir := [spi, secret] }

def keying : Entry :=
  { name := "keying", path := ["tunnel", "keying"], parentKind := some .directory, kind := .choice,
    dir := [manual] }

def tunnel : Entry :=
  { name := "tunnel", path := ["tunnel"], parentKind := some .directory, kind := .directory,
    dir := [keying] }

/-- A container `tunnel` with a choice that has the one case `manual`. -/
def root : Entry := { name := "", path := [], kind := .directory, dir := [tunnel] }

/-- The tree after `set tunnel spi`. -/
def tree : Config := { configs := [{ newNode tunnel with configs := [(newNode spi).bare] }] }

theorem parse_spi : ∃ r, parse .ascii root {} ["tunnel", "spi"] = some r ∧ r.tree = tree :=
  ⟨_, rfl, rfl⟩

theorem oneCase : (Cursor.enter tunnel).OneCase .ascii := by
  intro str e str' e' hs hs' he he'
  have hdir : (Cursor.enter tunnel).isDir = true := by decide
  have hall : ∀ x ∈ dirCandidates tunnel, caseEntry x = some ["tunnel", "keying", "manual"] := by
    decide
  rw [hall e (hs.mem_dir hdir), hall e' (hs'.mem_dir hdir)]

/-- No node of the tree is marked, and the one that has a `Case` has no rival. -/
theorem copyable {l : Loc} {cur : Cursor} {c : Config} (hw : tree.walk (.root root) l = some (cur, c)) :
    Copyable .ascii cur c := by
  have hstep {p d : Config} {m : String} (hp : p.configs = [d]) (hk : p.keys = [])
      (hn : d.name = m) (s : Step) :
      p.child? s = if s = ⟨.configs, m⟩ then some d else none := by
    obtain ⟨slot, n⟩ := s
    cases slot with
    | keys => simp [Config.child?, Config.slot, hk]
    | configs => simp [Config.child?, Config.slot, hp, Keyed.get_cons, hn, eq_comm]
  cases l with
  | nil =>
    cases hw
    exact ⟨rfl, .inl (by decide)⟩
  | cons s l =>
    rw [Config.walk, hstep (p := tree) (m := "tunnel") rfl rfl rfl] at hw
    by_cases hs : s = ⟨.configs, "tunnel"⟩
    · subst hs
      cases l with
      | nil =>
        cases hw
        exact ⟨rfl, .inr oneCase⟩
      | cons s l =>
        have hw : ({ newNode tunnel with configs := [(newNode spi).bare] } : Config).walk
          (.enter tunnel) (s :: l) = some (cur, c) := hw
        rw [Config.walk, hstep (d := (newNode spi).bare) (m := "spi") rfl rfl rfl] at hw
        by_cases hs : s = ⟨.configs, "spi"⟩
        · subst hs
          cases l with
          | nil =>
            cases hw
            exact ⟨rfl, .inl (by decide)⟩
          | cons s l =>
            have hg := Config.get?_of_walk (show (newNode spi).bare.walk (.enter spi) (s :: l) =
              some (cur, c) from hw)
            rw [Config.get?_bare _ (by simp)] at hg
            cases hg
        · rw [if_neg hs] at hw
          cases hw
    · rw [if_neg hs] at hw
      cases hw

end OneCaseSchema

/-- A leaf of a choice of one case: every call returns on the copy what it returns on the
tree. -/
theorem copy_faithful_oneCase : ∃ r,
    parse .ascii OneCaseSchema.root {} ["tunnel", "spi"] = some r ∧
    r.tree.configs.all (fun c => c.configs.any fun d => d.case.isSome) = true ∧
    ∀ calls, seenCalls .ascii OneCaseSchema.root calls r.tree.copy =
      seenCalls .ascii OneCaseSchema.root calls r.tree := by
  obtain ⟨r, hr, htree⟩ := OneCaseSchema.parse_spi
  refine ⟨r, hr, by rw [htree]; decide, ?_⟩
  refine (copy_faithful ascii_sortsByLess ascii_findsRegular (by decide) (.parse .empty hr)).mpr ?_
  rw [htree]
  exact fun l cur c hw => OneCaseSchema.copyable hw

/-- One entry of a list with two keys: the copy of the tree has other JSON. -/
theorem copy_twoKeys : ∃ r,
    parse .ascii routesSchema {} ["routes", "route", "10.0.0.0/8", "10.1.1.1"] = some r ∧
    Edited .ascii routesSchema r.tree ∧
    ¬ ∀ calls, seenCalls .ascii routesSchema calls r.tree.copy =
      seenCalls .ascii routesSchema calls r.tree := by
  obtain ⟨r, hr, hp⟩ := Option.map_eq_some_iff.mp (show (parse .ascii routesSchema {}
    ["routes", "route", "10.0.0.0/8", "10.1.1.1"]).map
      (fun r => (r.tree.jsonMarshalTop, r.tree.copy.jsonMarshalTop)) =
    some (
      some "\x7b\"routes\":\x7b\"route\": [\x7b\"dst\":\"10.0.0.0/8\",\"gw\":\"10.1.1.1\"\x7d]\x7d\x7d".toList,
      some "\x7b\"routes\":\x7b\"route\": [\x7b\"dst\":\"10.0.0.0/8\"\x7b\"gw\":\"10.1.1.1\"\x7d]\x7d\x7d".toList)
    by decide +kernel)
  obtain ⟨hj, hj'⟩ := Prod.mk.inj hp
  refine ⟨r, hr, .parse .empty hr, fun h => ?_⟩
  have hs := h [.jsonMarshal []]
  simp only [seenCalls, runCalls, Call.run, Config.get?_nil, Option.bind_some, hj, hj', List.map_cons,
    List.map_nil, List.cons.injEq, Prod.mk.injEq, Output.text.injEq, Option.some.injEq] at hs
  exact absurd hs.1.1 (by decide)

end OpenConfigd
