import OpenConfigd.Config.SetGet

/-!
# Searching the keys of a list

A key of a list is a node below the key before it. `lookupKey` on a key that has
keys of its own searches all keys of its list, so that a token may lead to the
entry of another key. `isFirst` says that it does not, and `KeyAt.looks_iff` that
it does not after the rest of the path has been read either.
-/

namespace OpenConfigd

variable {env : Env} {ent : Entry}

/-- The keys at a place. -/
def Config.keysAt (root : Config) (loc : Loc) : List Config :=
  ((root.get? loc).map (·.keys)).getD []

/-- The keys beside a key and the key itself, once `SetKey` has been called for it. -/
def keysAfter (env : Env) (keys : List Config) (e : Entry) (k pre : String) : List Config :=
  if (Keyed.get (·.name) k keys).isSome then keys
  else env.sort configLess (keys ++ [(newKey e k pre).bare])

/-- The first of some keys with a given key below it. -/
def firstWith (keys : List Config) (key : String) : Option String :=
  (keys.find? fun p => (p.lookupKeyShallow key).isSome).map (·.name)

/-- Among some keys, `k` is the first with `key` below it, where `k` counts if it has
no key yet; or there is none. -/
def isFirst (keys : List Config) (k key : String) : Bool :=
  (keys.find? fun p => (p.lookupKeyShallow key).isSome || (p.name == k && p.keys.isEmpty)).all
    (·.name == k)

/-! ## Changes below a node -/

/-- The function changes a node only below its children. -/
structure Interior (g : Config → Config) : Prop where
  name : KeepsName g
  child : ∀ d s, ((g d).child? s).isSome = (d.child? s).isSome

theorem Interior.id : Interior fun d => d := ⟨fun _ => rfl, fun _ _ => rfl⟩

theorem Interior.comp {g g' : Config → Config} (h : Interior g) (h' : Interior g') :
    Interior fun d => g' (g d) :=
  ⟨fun d => (h'.name (g d)).trans (h.name d), fun d s => (h'.child (g d) s).trans (h.child d s)⟩

theorem Interior.modify {f : Config → Config} (hf : KeepsName f) (s : Step) (r : Loc) :
    Interior fun d => d.modify (s :: r) f := by
  refine ⟨Config.modify_keepsName hf _, fun d t => ?_⟩
  rw [Config.modify]
  by_cases ht : t = s
  · subst ht
    rw [Config.child?_modifyChild_self (Config.modify_keepsName hf r), Option.isSome_map]
  · rw [Config.child?_modifyChild_ne (Config.modify_keepsName hf r) d ht]

section

variable {R : Config} {q r : Loc}

theorem Config.modify_id (c : Config) (l : Loc) : (c.modify l fun d => d) = c := by
  induction l generalizing c with
  | nil => rfl
  | cons s l ih =>
    rw [Config.modify, Config.modifyChild,
      show (fun d : Config => d.modify l fun d => d) = (id : Config → Config) from funext ih, Keyed.modify_id,
      Config.withSlot_self]

/-- `lookupKey` stays below the parent of the node it is called on. -/
theorem Config.lookupKey_below (hr : r ≠ []) (key : String) :
    ((Config.lookupKey R (q ++ r) key).2 = none ∧ (Config.lookupKey R (q ++ r) key).1 = q ++ r) ∨
    ∃ r', r' ≠ [] ∧ (Config.lookupKey R (q ++ r) key).2 = some (q ++ r') := by
  rw [Config.lookupKey]
  split
  · exact .inl ⟨rfl, rfl⟩
  · split
    · split
      · exact .inl ⟨rfl, rfl⟩
      · split
        · rename_i p _
          refine .inr ⟨r.dropLast ++ [⟨.keys, p.name⟩, ⟨.keys, key⟩], by simp, ?_⟩
          simp only [List.dropLast_append_of_ne_nil hr, List.append_assoc]
        · exact .inl ⟨rfl, rfl⟩
    · split
      · exact .inr ⟨r ++ [⟨.keys, key⟩], by simp, by rw [List.append_assoc]⟩
      · exact .inl ⟨rfl, rfl⟩

/-- A call on a node below `q` changes the node at `q` only below its children. -/
theorem Op.apply_below (op : Op) (hr : r ≠ []) : ∃ g r', Interior g ∧ r' ≠ [] ∧
    op.apply env (R, q ++ r) = (R.modify q g, q ++ r') := by
  obtain ⟨s, r, rfl⟩ := List.exists_cons_of_ne_nil hr
  have step {f : Config → Config} (hf : KeepsName f) (r' : Loc) (hr' : r' ≠ []) :
      ∃ g r'', Interior g ∧ r'' ≠ [] ∧ (R.modify (q ++ s :: r) f, q ++ r') = (R.modify q g, q ++ r'') :=
    ⟨_, r', Interior.modify hf s r, hr', by rw [Config.modify_append]⟩
  cases op with
  | set e =>
    rw [Op.apply, List.append_assoc]
    exact step (Config.set_keepsName e) _ (by simp)
  | setLeafList e =>
    rw [Op.apply, List.append_assoc]
    exact step (Config.setLeafList_keepsName e) _ (by simp)
  | setKey e key pre =>
    rw [Op.apply, Config.setKey]
    rcases @Config.lookupKey_below R q _ hr key with ⟨h₂, h₁⟩ | ⟨r', hr', h₂⟩
    · rw [← Prod.eta (Config.lookupKey R (q ++ s :: r) key), h₁, h₂]
      simp only [List.append_assoc]
      exact step (f := fun d => d.addKey env e key pre) (fun _ => rfl) _ (by simp)
    · rw [← Prod.eta (Config.lookupKey R (q ++ s :: r) key), h₂]
      exact ⟨_, r', Interior.id, hr', by rw [Config.modify_id]⟩
  | setValue v => exact step (f := fun d => d.setValue v) (fun _ => rfl) _ hr
  | setListValue v => exact step (f := fun d => d.setListValue v) (fun _ => rfl) _ hr

theorem applyOps_below (ops : List Op) (hr : r ≠ []) : ∃ g r', Interior g ∧ r' ≠ [] ∧
    applyOps env ops (R, q ++ r) = (R.modify q g, q ++ r') := by
  induction ops generalizing R r with
  | nil => exact ⟨_, r, Interior.id, hr, by rw [Config.modify_id]; rfl⟩
  | cons op ops ih =>
    obtain ⟨g, r₁, hg, hr₁, h⟩ := @Op.apply_below env R q r op hr
    obtain ⟨g', r₂, hg', hr₂, h'⟩ := @ih (R.modify q g) r₁ hr₁
    refine ⟨_, r₂, hg.comp hg', hr₂, ?_⟩
    rw [applyOps_cons, h, h', Config.modify_modify hg.name]

/-- `LookupByPath` from a node below `q` stays below `q`. -/
theorem Config.lookupFrom_below {path : List String} {l : Loc} (hr : r ≠ [])
    (h : Config.lookupFrom R (q ++ r) path = some l) : q <+: l := by
  induction path generalizing r with
  | nil =>
    rw [Config.lookupFrom, Option.some.injEq] at h
    exact h ▸ List.prefix_append q r
  | cons p path ih =>
    rw [Config.lookupFrom] at h
    split at h
    · rw [List.append_assoc] at h
      exact ih (by simp) h
    · rcases @Config.lookupKey_below R q r hr p with ⟨h₂, -⟩ | ⟨r', hr', h₂⟩
      · rw [h₂] at h
        cases h
      · rw [h₂] at h
        exact ih hr' h

end

/-! ## A key after a key -/

section

variable {R T parent c : Config} {loc l : Loc} {k key pre : String} {e : Entry} {cur : Cursor}
  {g : Config → Config}

theorem Config.keysAt_eq (h : R.get? loc = some c) : R.keysAt loc = c.keys := by
  rw [Config.keysAt, h]
  rfl

theorem Config.keysAt_modify (R : Config) (loc : Loc) (k : String)
    (hg : KeepsName g) : (R.modify (loc ++ [⟨.keys, k⟩]) g).keysAt loc =
      Keyed.modify (·.name) k g (R.keysAt loc) := by
  rw [Config.keysAt, Config.get?_modify_above hg, Config.keysAt]
  cases R.get? loc with
  | none => rfl
  | some c => exact (Config.slot_modifyChild c ⟨.keys, k⟩ g .keys).trans (if_pos rfl)

/-- A change below the children of a key is none to a search for the key of an entry. -/
theorem firstWith_modify (hg : Interior g) {keys : List Config} (hn : (keys.map (·.name)).Nodup) :
    firstWith (Keyed.modify (·.name) k g keys) key = firstWith keys key :=
  Keyed.find?_modify (fun c : Config => c.name) hg.name hn (fun a _ => hg.child a _) fun _ _ _ => rfl

/-- A search for a key once it has been added below `k`. -/
theorem firstWith_addKey {keys : List Config} (hn : (keys.map (·.name)).Nodup)
    (hk : ∀ d, Keyed.get (·.name) k keys = some d →
      (d.keys.map (·.name)).Nodup ∧ d.lookupKeyShallow key = none) :
    firstWith (Keyed.modify (·.name) k (fun d => d.addKey env e key pre) keys) key =
      (keys.find? fun p => (p.lookupKeyShallow key).isSome || p.name == k).map (·.name) := by
  refine Keyed.find?_modify (f := fun d => d.addKey env e key pre) (fun c : Config => c.name)
    (fun _ => rfl) hn (fun a ha => ?_) fun a _ hne => ?_
  rotate_left
  · have hne' : (a.name == k) = false := by simpa using hne
    rw [hne', Bool.or_false]
  obtain ⟨hna, hno⟩ := hk a ha
  have hself : (a.addKey env e key pre).lookupKeyShallow key = some (newKey e key pre).bare := by
    rw [Config.lookupKeyShallow, Config.child?_addKey hna hno, if_pos rfl]
  have hname : a.name = k := Keyed.key_of_get (fun c : Config => c.name) ha
  rw [hself]
  simp [hname]

theorem find?_all_eq {α : Type} {p p' : α → Bool} {l : List α} (h : ∀ a ∈ l, p a = p' a) :
    l.find? p = l.find? p' := by
  rw [← List.head?_filter, ← List.head?_filter, List.filter_congr h]

/-- Only the key `k` itself may count without the key that is searched for. -/
theorem isFirst_eq {keys : List Config} (hn : (keys.map (·.name)).Nodup)
    (hk : Keyed.get (·.name) k keys = some c) : isFirst keys k key =
      (keys.find? fun p => (p.lookupKeyShallow key).isSome || (p.name == k && c.keys.isEmpty)).all
        (·.name == k) := by
  rw [isFirst, find?_all_eq]
  intro a ha
  by_cases hak : a.name = k
  · have hac : a = c := by
      have := Keyed.get_of_mem hn ha
      rw [hak, hk] at this
      exact (Option.some.inj this).symm
    rw [hac]
  · have hak' : (a.name == k) = false := by simpa using hak
    rw [hak', Bool.false_and, Bool.false_and]

/-- A key below a place of a typed tree. -/
structure KeyAt (R : Config) (loc : Loc) (k : String) (parent c : Config) : Prop where
  above : R.get? loc = some parent
  child : parent.child? ⟨.keys, k⟩ = some c
  keyConfig : c.keyConfig = true
  nodup : (parent.keys.map (·.name)).Nodup
  nodup' : (c.keys.map (·.name)).Nodup

theorem Typed.keyAt (h : Typed env (.root ent) R) (hp : R.get? loc = some parent)
    (hc : parent.child? ⟨.keys, k⟩ = some c) : KeyAt R loc k parent c := by
  obtain ⟨cur, -, htp⟩ := h.walk_of_get hp
  obtain ⟨e, hedge, -, htc⟩ := htp.child?_edge hc
  refine ⟨hp, hc, ?_, htp.nodup .keys, htc.nodup .keys⟩
  rw [show c.keyConfig = c.toNode.keyConfig from rfl, hedge.2.2.1]
  rfl

namespace KeyAt

theorem get (h : KeyAt R loc k parent c) : R.get? (loc ++ [⟨.keys, k⟩]) = some c := by
  rw [Config.get?_append, h.above, Option.bind_some, Config.get?_single, h.child]

theorem keysAt (h : KeyAt R loc k parent c) : R.keysAt loc = parent.keys :=
  Config.keysAt_eq h.above

/-- A key of the list by the name of `k` is `k`. -/
theorem eq_of_name (h : KeyAt R loc k parent c) {p : Config} (hp : p ∈ parent.keys)
    (hk : p.name = k) : p = c := by
  have hp' := Keyed.get_of_mem h.nodup hp
  rw [hk] at hp'
  exact Option.some.inj (hp'.symm.trans h.child)

/-- `lookupKey` on a key: a search of the whole list once the key has keys. -/
theorem lookupKey_eq (h : KeyAt R loc k parent c) (key : String) :
    Config.lookupKey R (loc ++ [⟨.keys, k⟩]) key =
      if c.keys = [] then (loc ++ [⟨.keys, k⟩], none)
      else match parent.keys.find? fun p => (p.lookupKeyShallow key).isSome with
        | some p => (loc ++ [⟨.keys, p.name⟩], some (loc ++ [⟨.keys, p.name⟩, ⟨.keys, key⟩]))
        | none => (loc ++ [⟨.keys, k⟩], none) := by
  rw [Config.lookupKey, h.get]
  by_cases hc : c.keys = []
  · have hkc : c.isKeyConfig = false := by simp [Config.isKeyConfig, hc]
    have hno : c.lookupKeyShallow key = none := by
      rw [Config.lookupKeyShallow, Config.child?, Config.slot, hc]
      rfl
    simp only [hkc, Bool.false_eq_true, if_false, hno, hc, if_true]
  · have hkc : c.isKeyConfig = true := by simp [Config.isKeyConfig, hc, h.keyConfig]
    cases hf : parent.keys.find? fun p => (p.lookupKeyShallow key).isSome <;>
      simp only [hkc, if_true, List.dropLast_concat, h.above, if_neg hc, hf]

/-- A key that is first is found from the key before it. -/
theorem direct (h : KeyAt R loc k parent c) (hf : isFirst parent.keys k key = true) :
    (Op.setKey e key pre).Direct R (loc ++ [⟨.keys, k⟩]) := by
  refine ⟨c, h.get, ?_⟩
  rw [isFirst_eq h.nodup h.child] at hf
  rw [h.lookupKey_eq]
  by_cases hc : c.keys = []
  · have hno : c.lookupKeyShallow key = none := by
      rw [Config.lookupKeyShallow, Config.child?, Config.slot, hc]
      rfl
    rw [if_pos hc, hno]
    rfl
  · have hce : c.keys.isEmpty = false := by simpa using hc
    simp only [hce, Bool.and_false, Bool.or_false] at hf
    rw [if_neg hc]
    cases hfind : parent.keys.find? fun p => (p.lookupKeyShallow key).isSome with
    | none =>
      have hno := List.find?_eq_none.mp hfind c (Config.child?_mem h.child)
      simp only [if_neg hno]
    | some p =>
      rw [hfind, Option.all_some, beq_iff_eq] at hf
      have hpc := h.eq_of_name (List.mem_of_find?_eq_some hfind) hf
      have hsome := List.find?_some hfind
      subst hpc
      simp only [if_pos hsome, hf, List.append_assoc]
      rfl

/-- The call for the next key, seen from the key before it. -/
theorem firstWith_setKey (h : KeyAt R loc k parent c) :
    firstWith ((R.setKey env (loc ++ [⟨.keys, k⟩]) e key pre).1.keysAt loc) key = some k ↔
      isFirst parent.keys k key = true := by
  have hadd (hno : c.lookupKeyShallow key = none) :
      firstWith ((R.modify (loc ++ [⟨.keys, k⟩]) fun d => d.addKey env e key pre).keysAt loc) key =
        (parent.keys.find? fun p => (p.lookupKeyShallow key).isSome || p.name == k).map (·.name) := by
    rw [Config.keysAt_modify (g := fun d => d.addKey env e key pre) R loc k fun _ => rfl, h.keysAt]
    refine firstWith_addKey h.nodup fun d hd => ?_
    have hd' : parent.child? ⟨.keys, k⟩ = some d := hd
    rw [h.child] at hd'
    cases hd'
    exact ⟨h.nodup', hno⟩
  have hmem := Config.child?_mem h.child
  have hname : c.name = k := Config.child?_name h.child
  rw [isFirst_eq h.nodup h.child, Config.setKey, h.lookupKey_eq]
  by_cases hc : c.keys = []
  · have hno : c.lookupKeyShallow key = none := by
      rw [Config.lookupKeyShallow, Config.child?, Config.slot, hc]
      rfl
    rw [if_pos hc]
    simp only [hadd hno, hc, List.isEmpty_nil, Bool.and_true]
    cases hfind : parent.keys.find? fun p => (p.lookupKeyShallow key).isSome || p.name == k with
    | none =>
      have := List.find?_eq_none.mp hfind c hmem
      simp [hname] at this
    | some p => simp
  · have hce : c.keys.isEmpty = false := by simpa using hc
    simp only [if_neg hc, hce, Bool.and_false, Bool.or_false]
    cases hfind : parent.keys.find? fun p => (p.lookupKeyShallow key).isSome with
    | none =>
      have hno := List.find?_eq_none.mp hfind
      have hsame : (parent.keys.find? fun p => (p.lookupKeyShallow key).isSome || p.name == k) =
          some c := by
        rw [@find?_all_eq Config _ (fun p => decide (p.name = k))]
        · exact h.child
        · intro a ha
          have ha' : (a.lookupKeyShallow key).isSome = false := by simpa using hno a ha
          rw [ha', Bool.false_or]
          rfl
      have hcno : c.lookupKeyShallow key = none := by simpa using hno c hmem
      simp only [hadd hcno, hsame, Option.map_some, hname, Option.all_none]
    | some p =>
      simp only [h.keysAt, firstWith, hfind, Option.map_some, Option.some.injEq, Option.all_some,
        beq_iff_eq]

/-- The call for the next key ends below a key of the list, and `k` has a key after it. -/
theorem setKey_place (h : KeyAt R loc k parent c) : ∃ n x,
    (R.setKey env (loc ++ [⟨.keys, k⟩]) e key pre).2 = loc ++ [⟨.keys, n⟩] ++ [⟨.keys, key⟩] ∧
    ((R.setKey env (loc ++ [⟨.keys, k⟩]) e key pre).1.get?
      (loc ++ [⟨.keys, k⟩] ++ [⟨.keys, x⟩])).isSome := by
  have hadd (hno : c.lookupKeyShallow key = none) :
      ((R.modify (loc ++ [⟨.keys, k⟩]) fun d => d.addKey env e key pre).get?
        (loc ++ [⟨.keys, k⟩] ++ [⟨.keys, key⟩])).isSome := by
    rw [Config.get?_modify_append (f := fun d => d.addKey env e key pre) fun _ => rfl, h.get,
      Option.bind_some, Config.get?_single, Config.child?_addKey h.nodup' hno, if_pos rfl]
    rfl
  rw [Config.setKey, h.lookupKey_eq]
  by_cases hc : c.keys = []
  · rw [if_pos hc]
    refine ⟨k, key, rfl, hadd ?_⟩
    rw [Config.lookupKeyShallow, Config.child?, Config.slot, hc]
    rfl
  · rw [if_neg hc]
    cases hfind : parent.keys.find? fun p => (p.lookupKeyShallow key).isSome with
    | none =>
      refine ⟨k, key, rfl, hadd ?_⟩
      simpa using List.find?_eq_none.mp hfind c (Config.child?_mem h.child)
    | some p =>
      obtain ⟨d, hd⟩ := List.exists_mem_of_ne_nil _ hc
      have hch : c.child? ⟨.keys, d.name⟩ = some d := Keyed.get_of_mem h.nodup' hd
      refine ⟨p.name, d.name, by simp, ?_⟩
      rw [Config.get?_append, h.get, Option.bind_some, Config.get?_single, hch]
      rfl

/-- `LookupByPath` at the next key. -/
theorem lookupKey_direct_iff (h : KeyAt R loc k parent c) (hc : c.keys ≠ []) :
    (Config.lookupKey R (loc ++ [⟨.keys, k⟩]) key).2 =
      some (loc ++ [⟨.keys, k⟩] ++ [⟨.keys, key⟩]) ↔
      firstWith (R.keysAt loc) key = some k := by
  rw [h.lookupKey_eq, if_neg hc, h.keysAt, firstWith]
  cases parent.keys.find? fun p => (p.lookupKeyShallow key).isSome with
  | none => simp
  | some p => simp

end KeyAt

end

end OpenConfigd
