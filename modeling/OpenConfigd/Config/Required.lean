import OpenConfigd.Config.Built
import OpenConfigd.Config.Choice
import OpenConfigd.Config.Encoded
import OpenConfigd.Config.Mandatory

/-!
# What MandatoryCheck accepts

* `mandatoryCheck_eq_none`: the check passes just if every node has the children that a mandatory
  statement, whatever it says, asks for;
* `Built.filled`: in a tree of successful calls a list has an entry;
* `mandatory_exact_iff`: where the check agrees with the mandatory statements that say `true`.
-/

namespace OpenConfigd

/-- The leaf is marked `mandatory true`. -/
def Entry.marked (e : Entry) : Bool := isMandatory e && e.mandatoryTrue

/-- The leaf has a mandatory statement that does not say `true`. -/
def Entry.waived (e : Entry) : Bool := isMandatory e && !e.mandatoryTrue

/-- One of the key leaves of the list counts as mandatory. -/
def Entry.mandatoryKey (m : Entry → Bool) (e : Entry) : Bool :=
  e.isList && e.dir.any fun leaf => m leaf && keyIncludeValue e.key leaf.name

namespace Config

section

variable {P : Config → Prop} [DecidablePred P]

mutual

theorem every_iff : ∀ {c : Config}, every (fun c => P c) c = true ↔ c.Every P
  | ⟨n, configs, keys⟩ => by
    rw [every, Bool.and_eq_true, Bool.and_eq_true, decide_eq_true_eq, everyOf_iff, everyOf_iff]
    constructor
    · rintro ⟨⟨hn, hc⟩, hk⟩
      refine .mk hn fun s d hd => ?_
      cases s with
      | configs => exact hc d hd
      | keys => exact hk d hd
    · exact fun h => ⟨⟨h.self, h.mem .configs⟩, h.mem .keys⟩

theorem everyOf_iff : ∀ {cs : List Config},
    everyOf (fun c => P c) cs = true ↔ ∀ c ∈ cs, c.Every P
  | [] => by simp [everyOf]
  | c :: cs => by rw [everyOf, Bool.and_eq_true, every_iff, everyOf_iff, List.forall_mem_cons]

end

instance (c : Config) : Decidable (c.Every P) := decidable_of_iff _ every_iff

end

/-- The nodes so many keys below the node. -/
def entries : Nat → Config → List Config
  | 0, c => [c]
  | depth + 1, c => c.keys.flatMap (entries depth)

/-- A child of the node is made for the entry. -/
def hasChild (c : Config) (e : Entry) : Bool := c.configs.any fun d => (d.entry.map (·.path)) = some e.path

/-- A child of the node is made for the list and has an entry of it, with all its keys. -/
def hasEntry (c : Config) (e : Entry) : Bool :=
  c.configs.any fun d => (d.entry.map (·.path)) = some e.path && !(d.entries (keyLength e)).isEmpty

/-- The children the node needs when the leaves in `m` are mandatory: in each entry of a list its
leaves and the lists with such a key, in a container its leaves. -/
structure Has (m : Entry → Bool) (c : Config) : Prop where
  leaf : ∀ e, c.entry = some e → e.isList = true → ∀ k ∈ c.entries (keyLength e), ∀ x ∈ e.dir,
    x.isLeaf = true → m x = true → keyIncludeValue e.key x.name = false → k.hasChild x = true
  list : ∀ e, c.entry = some e → e.isList = true → ∀ k ∈ c.entries (keyLength e), ∀ x ∈ e.dir,
    x.mandatoryKey m = true → k.hasChild x = true
  container : ∀ e, c.entry = some e → e.isContainer = true → isPresenceContainer e = false →
    ∀ x ∈ e.dir, x.isLeaf = true → m x = true → c.hasChild x = true

/-- The lists with a key marked `mandatory true` that stand in the entries of the list have an
entry themselves. -/
def Filled (c : Config) : Prop :=
  ∀ e, c.entry = some e → e.isList = true → ∀ k ∈ c.entries (keyLength e), ∀ x ∈ e.dir,
    x.mandatoryKey Entry.marked = true → k.hasChild x = true → k.hasEntry x = true

/-- What the mandatory statements that say `true` ask of the node. -/
structure Complete (c : Config) : Prop where
  leaf : ∀ e, c.entry = some e → e.isList = true → ∀ k ∈ c.entries (keyLength e), ∀ x ∈ e.dir,
    x.isLeaf = true → x.marked = true → keyIncludeValue e.key x.name = false → k.hasChild x = true
  list : ∀ e, c.entry = some e → e.isList = true → ∀ k ∈ c.entries (keyLength e), ∀ x ∈ e.dir,
    x.mandatoryKey Entry.marked = true → k.hasEntry x = true
  container : ∀ e, c.entry = some e → e.isContainer = true → isPresenceContainer e = false →
    ∀ x ∈ e.dir, x.isLeaf = true → x.marked = true → c.hasChild x = true

section

variable (c : Config)

/-- What the entries of a list have of each child of its schema entry can be decided. -/
instance decidableEntries (P : Entry → Config → Entry → Prop) [∀ e k x, Decidable (P e k x)] :
    Decidable (∀ e, c.entry = some e → e.isList = true → ∀ k ∈ c.entries (keyLength e), ∀ x ∈ e.dir, P e k x) :=
  inferInstanceAs
    (Decidable (∀ e ∈ c.entry, e.isList = true → ∀ k ∈ c.entries (keyLength e), ∀ x ∈ e.dir, P e k x))

instance decidableContainer (P : Entry → Entry → Prop) [∀ e x, Decidable (P e x)] :
    Decidable (∀ e, c.entry = some e → e.isContainer = true → isPresenceContainer e = false →
      ∀ x ∈ e.dir, P e x) :=
  inferInstanceAs
    (Decidable (∀ e ∈ c.entry, e.isContainer = true → isPresenceContainer e = false → ∀ x ∈ e.dir, P e x))

instance (m : Entry → Bool) : DecidablePred (Has m) := fun c =>
  decidable_of_iff ((∀ e, c.entry = some e → e.isList = true → ∀ k ∈ c.entries (keyLength e), ∀ x ∈ e.dir,
      x.isLeaf = true → m x = true → keyIncludeValue e.key x.name = false → k.hasChild x = true) ∧
    (∀ e, c.entry = some e → e.isList = true → ∀ k ∈ c.entries (keyLength e), ∀ x ∈ e.dir,
      x.mandatoryKey m = true → k.hasChild x = true) ∧
    ∀ e, c.entry = some e → e.isContainer = true → isPresenceContainer e = false →
      ∀ x ∈ e.dir, x.isLeaf = true → m x = true → c.hasChild x = true)
    ⟨fun h => ⟨h.1, h.2.1, h.2.2⟩, fun h => ⟨h.leaf, h.list, h.container⟩⟩

instance : DecidablePred Complete := fun c =>
  decidable_of_iff ((∀ e, c.entry = some e → e.isList = true → ∀ k ∈ c.entries (keyLength e), ∀ x ∈ e.dir,
      x.isLeaf = true → x.marked = true → keyIncludeValue e.key x.name = false → k.hasChild x = true) ∧
    (∀ e, c.entry = some e → e.isList = true → ∀ k ∈ c.entries (keyLength e), ∀ x ∈ e.dir,
      x.mandatoryKey Entry.marked = true → k.hasEntry x = true) ∧
    ∀ e, c.entry = some e → e.isContainer = true → isPresenceContainer e = false →
      ∀ x ∈ e.dir, x.isLeaf = true → x.marked = true → c.hasChild x = true)
    ⟨fun h => ⟨h.1, h.2.1, h.2.2⟩, fun h => ⟨h.leaf, h.list, h.container⟩⟩

end

/-! ## The check -/

theorem mandatoryFindList_eq_none (e : Entry) (depth : Nat) (c : Config) :
    mandatoryFindList e depth c = none ↔ ∀ k ∈ c.entries depth, k.hasChild e = true := by
  induction depth generalizing c with
  | zero =>
    rw [mandatoryFindList, entries, List.forall_mem_singleton]
    split
    · rename_i h
      exact iff_of_true rfl h
    · rename_i h
      exact iff_of_false (by simp) h
  | succ depth ih =>
    rw [mandatoryFindList, entries, List.findSome?_eq_none_iff]
    simp only [ih, List.mem_flatMap]
    exact ⟨fun h k ⟨d, hd, hk⟩ => h d hd k hk, fun h d hd k hk => h k ⟨d, hd, hk⟩⟩

theorem orElse_eq_none {α : Type*} {a : Option α} {b : Unit → Option α} :
    (a.orElse b) = none ↔ a = none ∧ b () = none := by
  cases a <;> simp [Option.orElse]

/-- A list with a mandatory key is asked for once for each such key. -/
theorem mandatoryKey_eq_none (c : Config) (e x : Entry) :
    ((if x.isList then
      x.dir.findSome? fun leaf =>
        if isMandatory leaf && keyIncludeValue x.key leaf.name then
          mandatoryFindList x (keyLength e) c
        else none
      else none) = none) ↔
      (x.mandatoryKey isMandatory = true → ∀ k ∈ c.entries (keyLength e), k.hasChild x = true) := by
  rw [Entry.mandatoryKey, ← mandatoryFindList_eq_none]
  by_cases hl : x.isList = true
  · rw [if_pos hl, hl, Bool.true_and, List.any_eq_true, List.findSome?_eq_none_iff]
    constructor
    · rintro h ⟨leaf, hleaf, hm⟩
      have := h leaf hleaf
      rwa [if_pos hm] at this
    · intro h leaf hleaf
      split
      · rename_i hm
        exact h ⟨leaf, hleaf, hm⟩
      · rfl
  · rw [if_neg hl]
    simp [hl]

theorem mandatoryList_eq_none (c : Config) (e : Entry) : c.mandatoryList e = none ↔
    (∀ x ∈ e.dir, x.mandatoryKey isMandatory = true →
      ∀ k ∈ c.entries (keyLength e), k.hasChild x = true) ∧
    ∀ x ∈ e.dir, x.isLeaf = true → isMandatory x = true → keyIncludeValue e.key x.name = false →
      ∀ k ∈ c.entries (keyLength e), k.hasChild x = true := by
  have hleaf (x : Entry) : (if x.isLeaf && isMandatory x && !keyIncludeValue e.key x.name then
      mandatoryFindList x (keyLength e) c else none) = none ↔
      (x.isLeaf = true → isMandatory x = true → keyIncludeValue e.key x.name = false →
        ∀ k ∈ c.entries (keyLength e), k.hasChild x = true) := by
    rw [← mandatoryFindList_eq_none]
    split
    · rename_i h
      simp only [Bool.and_eq_true, Bool.not_eq_true'] at h
      simp [h]
    · rename_i h
      simp only [Bool.and_eq_true, Bool.not_eq_true', not_and] at h
      exact iff_of_true rfl fun hl hm hk => absurd hk (h ⟨hl, hm⟩)
  simp only [mandatoryList, List.findSome?_eq_none_iff, orElse_eq_none, mandatoryKey_eq_none, hleaf]
  exact ⟨fun h => ⟨fun x hx => (h x hx).1, fun x hx => (h x hx).2⟩,
    fun h x hx => ⟨h.1 x hx, h.2 x hx⟩⟩

theorem mandatoryNode_eq_none {c : Config} {e : Entry} (he : c.entry = some e) :
    c.mandatoryNode e = none ↔ c.Has isMandatory := by
  have hlist : (if e.isList then c.mandatoryList e else none) = none ↔
      (e.isList = true → c.mandatoryList e = none) := by
    split <;> simp_all
  have hbox : (if e.isContainer && !isPresenceContainer e then
      e.dir.findSome? fun x => if x.isLeaf && isMandatory x then mandatoryFindList x 0 c else none
      else none) = none ↔
      (e.isContainer = true → isPresenceContainer e = false → ∀ x ∈ e.dir, x.isLeaf = true →
        isMandatory x = true → c.hasChild x = true) := by
    have hone (x : Entry) : mandatoryFindList x 0 c = none ↔ c.hasChild x = true := by
      rw [mandatoryFindList_eq_none, entries, List.forall_mem_singleton]
    split
    · rename_i h
      simp only [Bool.and_eq_true, Bool.not_eq_true'] at h
      simp [h, hone, List.findSome?_eq_none_iff]
    · rename_i h
      simp only [Bool.and_eq_true, Bool.not_eq_true', not_and] at h
      exact iff_of_true rfl fun hc hp => absurd hp (h hc)
  rw [mandatoryNode, orElse_eq_none, hlist, mandatoryList_eq_none, hbox]
  constructor
  · rintro ⟨hl, hc⟩
    refine ⟨fun e' he' hel k hk x hx hxl hxm hkey => ?_, fun e' he' hel k hk x hx hm => ?_,
      fun e' he' => ?_⟩ <;> cases he.symm.trans he'
    · exact (hl hel).2 x hx hxl hxm hkey k hk
    · exact (hl hel).1 x hx hm k hk
    · exact hc
  · intro h
    exact ⟨fun hel => ⟨fun x hx hm k hk => h.list e he hel k hk x hx hm,
      fun x hx hxl hxm hkey k hk => h.leaf e he hel k hk x hx hxl hxm hkey⟩, h.container e he⟩

theorem mandatoryNode_bind_eq_none (c : Config) :
    c.entry.bind c.mandatoryNode = none ↔ c.Has isMandatory := by
  cases he : c.entry with
  | none =>
    refine iff_of_true rfl ⟨fun e h => ?_, fun e h => ?_, fun e h => ?_⟩ <;>
      exact absurd (he.symm.trans h) (by simp)
  | some e => exact mandatoryNode_eq_none he

mutual

theorem mandatoryCheck_eq_none : ∀ c : Config, c.mandatoryCheck = none ↔ c.Every (Has isMandatory)
  | ⟨n, configs, keys⟩ => by
    have hnode : n.entry.bind (mandatoryNode ⟨n, configs, keys⟩) = none ↔
        (⟨n, configs, keys⟩ : Config).Has isMandatory :=
      mandatoryNode_bind_eq_none ⟨n, configs, keys⟩
    rw [mandatoryCheck, orElse_eq_none, orElse_eq_none, hnode, mandatoryCheckAll_eq_none keys,
      mandatoryCheckAll_eq_none configs]
    constructor
    · rintro ⟨⟨hn, hk⟩, hc⟩
      refine .mk hn fun s d hd => ?_
      cases s with
      | configs => exact hc d hd
      | keys => exact hk d hd
    · exact fun h => ⟨⟨h.self, h.mem .keys⟩, h.mem .configs⟩

theorem mandatoryCheckAll_eq_none : ∀ cs : List Config,
    mandatoryCheckAll cs = none ↔ ∀ c ∈ cs, c.Every (Has isMandatory)
  | [] => by simp [mandatoryCheckAll]
  | c :: cs => by
    rw [mandatoryCheckAll, orElse_eq_none, mandatoryCheck_eq_none, mandatoryCheckAll_eq_none,
      List.forall_mem_cons]

end

/-! ## What the statements say -/

theorem hasChild_of_hasEntry {c : Config} {e : Entry} (h : c.hasEntry e = true) :
    c.hasChild e = true := by
  obtain ⟨d, hd, hx⟩ := List.any_eq_true.mp h
  exact List.any_eq_true.mpr ⟨d, hd, (Bool.and_eq_true _ _ ▸ hx).1⟩

theorem complete_iff (c : Config) : c.Complete ↔ c.Has Entry.marked ∧ c.Filled := by
  constructor
  · exact fun h => ⟨⟨h.leaf, fun e he hl k hk x hx hm =>
      hasChild_of_hasEntry (h.list e he hl k hk x hx hm), h.container⟩,
      fun e he hl k hk x hx hm _ => h.list e he hl k hk x hx hm⟩
  · exact fun ⟨h, hf⟩ => ⟨h.leaf, fun e he hl k hk x hx hm =>
      hf e he hl k hk x hx hm (h.list e he hl k hk x hx hm), h.container⟩

/-- A mandatory statement says `true` or it does not. -/
theorem isMandatory_iff (e : Entry) :
    isMandatory e = true ↔ e.marked = true ∨ e.waived = true := by
  rw [Entry.marked, Entry.waived]
  cases isMandatory e <;> cases e.mandatoryTrue <;> decide

theorem mandatoryKey_isMandatory (e : Entry) : e.mandatoryKey isMandatory = true ↔
    e.mandatoryKey Entry.marked = true ∨ e.mandatoryKey Entry.waived = true := by
  simp only [Entry.mandatoryKey, Bool.and_eq_true, List.any_eq_true, isMandatory_iff, or_and_right,
    and_or_left, exists_or]

theorem has_isMandatory (c : Config) :
    c.Has isMandatory ↔ c.Has Entry.marked ∧ c.Has Entry.waived := by
  have hm (x : Entry) (h : x.marked = true) : isMandatory x = true := (isMandatory_iff x).mpr (.inl h)
  have hw (x : Entry) (h : x.waived = true) : isMandatory x = true := (isMandatory_iff x).mpr (.inr h)
  constructor
  · intro h
    refine ⟨⟨fun e he hl k hk x hx hxl hx' => h.leaf e he hl k hk x hx hxl (hm x hx'),
      fun e he hl k hk x hx hx' => h.list e he hl k hk x hx ?_,
      fun e he hc hp x hx hxl hx' => h.container e he hc hp x hx hxl (hm x hx')⟩,
      fun e he hl k hk x hx hxl hx' => h.leaf e he hl k hk x hx hxl (hw x hx'),
      fun e he hl k hk x hx hx' => h.list e he hl k hk x hx ?_,
      fun e he hc hp x hx hxl hx' => h.container e he hc hp x hx hxl (hw x hx')⟩
    · exact (mandatoryKey_isMandatory x).mpr (.inl hx')
    · exact (mandatoryKey_isMandatory x).mpr (.inr hx')
  · rintro ⟨h, h'⟩
    refine ⟨fun e he hl k hk x hx hxl hx' hkey => ?_, fun e he hl k hk x hx hx' => ?_,
      fun e he hc hp x hx hxl hx' => ?_⟩
    · rcases (isMandatory_iff x).mp hx' with hx' | hx'
      · exact h.leaf e he hl k hk x hx hxl hx' hkey
      · exact h'.leaf e he hl k hk x hx hxl hx' hkey
    · rcases (mandatoryKey_isMandatory x).mp hx' with hx' | hx'
      · exact h.list e he hl k hk x hx hx'
      · exact h'.list e he hl k hk x hx hx'
    · rcases (isMandatory_iff x).mp hx' with hx' | hx'
      · exact h.container e he hc hp x hx hxl hx'
      · exact h'.container e he hc hp x hx hxl hx'

theorem Every.and {P Q : Config → Prop} {c : Config} :
    c.Every (fun d => P d ∧ Q d) ↔ c.Every P ∧ c.Every Q := by
  constructor
  · intro h
    induction h with
    | mk hc _ ih =>
      exact ⟨.mk hc.1 fun s d hd => (ih s d hd).1, .mk hc.2 fun s d hd => (ih s d hd).2⟩
  · rintro ⟨hp, hq⟩
    induction hp with
    | mk hc _ ih => exact .mk ⟨hc, hq.self⟩ fun s d hd => ih s d hd (hq.mem s d hd)

theorem Every.congr {P Q : Config → Prop} (h : ∀ c, P c ↔ Q c) {c : Config} :
    c.Every P ↔ c.Every Q := by
  rw [show P = Q from funext fun c => propext (h c)]

end Config

/-! ## Trees of successful calls -/

/-- What a token can name below the entry is a container, a leaf, a leaf-list or a list, and two
entries never have one path. -/
structure Entry.Offers (e : Entry) : Prop where
  kind : ∀ x ∈ dirCandidates e, x.kind = .directory ∨ x.kind = .leaf
  list : ∀ x ∈ dirCandidates e, hasKey x = true → x.kind = .directory ∧ x.presence = false
  own : ((dirCandidates e).map (·.path)).Nodup
  choice : ∀ x ∈ e.dir, x.isChoice = true → x.isList = false
  named : ∀ x ∈ e.dir, x.name ≠ ""

/-- An entry of a regular schema; a leaf is no list. -/
structure Entry.Shaped (e : Entry) : Prop extends e.Regular, e.Offers where
  leaf : e.kind = .leaf → e.isList = false

instance : DecidablePred Entry.Offers := fun e =>
  decidable_of_iff ((∀ x ∈ dirCandidates e, x.kind = .directory ∨ x.kind = .leaf) ∧
      (∀ x ∈ dirCandidates e, hasKey x = true → x.kind = .directory ∧ x.presence = false) ∧
      ((dirCandidates e).map (·.path)).Nodup ∧ (∀ x ∈ e.dir, x.isChoice = true → x.isList = false) ∧
      ∀ x ∈ e.dir, x.name ≠ "")
    ⟨fun h => ⟨h.1, h.2.1, h.2.2.1, h.2.2.2.1, h.2.2.2.2⟩,
      fun h => ⟨h.kind, h.list, h.own, h.choice, h.named⟩⟩

instance : DecidablePred Entry.Shaped := fun e =>
  decidable_of_iff (e.Regular ∧ e.Offers ∧ (e.kind = .leaf → e.isList = false))
    ⟨fun h => ⟨h.1, h.2.1, h.2.2⟩, fun h => ⟨h.toRegular, h.toOffers, h.leaf⟩⟩

section

variable {env : Env} {ent : Entry} {cur : Cursor} {c d : Config}

theorem keyLength_pos (e : Entry) : 0 < keyLength e := by
  rw [keyLength, keySlice, List.length_map, List.length_pos_iff]
  exact List.splitOn_ne_nil ' ' e.key.toList

theorem hasKey_of_mandatoryKey {m : Entry → Bool} {e : Entry} (h : e.mandatoryKey m = true)
    (hn : ∀ x ∈ e.dir, x.name ≠ "") : e.isList = true ∧ hasKey e = true := by
  obtain ⟨hl, hd⟩ := (Bool.and_eq_true _ _ ▸ h : e.isList = true ∧ _)
  refine ⟨hl, ?_⟩
  obtain ⟨x, hx, hk⟩ := List.any_eq_true.mp hd
  rw [hasKey, decide_eq_true_eq]
  intro he
  have hmem : x.name ∈ keySlice e.key := by
    rw [Bool.and_eq_true] at hk
    simpa [keyIncludeValue] using hk.2
  rw [he] at hmem
  exact hn x hx (by simpa [keySlice] using hmem)

/-- A key of a list is one step of the walk away. -/
theorem Typed.walk_key (h : Typed env cur c) (hd : d ∈ c.keys) :
    Typed env cur.enterKey d ∧ ∀ l, c.walk cur (⟨.keys, d.name⟩ :: l) = d.walk cur.enterKey l := by
  obtain ⟨e, he⟩ := h.edge .keys d hd
  have hch : c.child? ⟨.keys, d.name⟩ = some d := Keyed.get_of_mem (h.nodup .keys) hd
  exact ⟨h.child .keys d hd e he.entry, fun l => Config.walk_cons hch he.entry⟩

/-- An entry of a list is where all its keys have been read. -/
theorem Typed.entries_walk {n : Nat} (h : Typed env cur c) (hst : cur.state = .stateKey)
    (hi : cur.index + (n + 1) = keyLength cur.ent) {k : Config} (hk : k ∈ c.entries (n + 1)) :
    ∃ l, c.walk cur l = some (⟨cur.ent, .stateKeyMatched, 0⟩, k) := by
  induction n generalizing cur c with
  | zero =>
    obtain ⟨d, hd, hk⟩ := List.mem_flatMap.mp hk
    obtain rfl : k = d := List.mem_singleton.mp hk
    refine ⟨[⟨.keys, k.name⟩], ?_⟩
    rw [(h.walk_key hd).2, Config.walk, Cursor.enterKey, if_pos (by omega)]
  | succ n ih =>
    obtain ⟨d, hd, hk⟩ := List.mem_flatMap.mp hk
    have hnext : cur.enterKey = ⟨cur.ent, .stateKey, cur.index + 1⟩ := if_neg (by omega)
    obtain ⟨htd, hw⟩ := h.walk_key hd
    rw [hnext] at htd hw
    obtain ⟨l, hl⟩ := ih htd rfl (by simp only; omega) hk
    exact ⟨⟨.keys, d.name⟩ :: l, (hw l).trans hl⟩

/-- Where each node is done, a list has an entry. -/
theorem Typed.entries_ne {n : Nat} (h : Typed env cur c)
    (hdone : ∀ l cur' d, c.walk cur l = some (cur', d) → Done cur' d) (hst : cur.state = .stateKey)
    (hi : cur.index + (n + 1) = keyLength cur.ent) : c.entries (n + 1) ≠ [] := by
  have hkeys : c.keys ≠ [] := by
    have := hdone [] cur c rfl
    rwa [Done, hst] at this
  obtain ⟨d, hd⟩ := List.exists_mem_of_ne_nil _ hkeys
  induction n generalizing cur c d with
  | zero => exact List.ne_nil_of_mem (List.mem_flatMap.mpr ⟨d, hd, List.mem_singleton_self d⟩)
  | succ n ih =>
    have hnext : cur.enterKey = ⟨cur.ent, .stateKey, cur.index + 1⟩ := if_neg (by omega)
    obtain ⟨htd, hw⟩ := h.walk_key hd
    rw [hnext] at htd hw
    have hdone' : ∀ l cur' b, d.walk ⟨cur.ent, .stateKey, cur.index + 1⟩ l = some (cur', b) →
        Done cur' b := fun l cur' b hb => hdone _ cur' b ((hw l).trans hb)
    have hkeys' : d.keys ≠ [] := hdone' [] _ d rfl
    obtain ⟨b, hb⟩ := List.exists_mem_of_ne_nil _ hkeys'
    obtain ⟨k, hk⟩ := List.exists_mem_of_ne_nil _ (ih htd hdone' rfl (by simp only; omega) hkeys' b hb)
    exact List.ne_nil_of_mem (List.mem_flatMap.mpr ⟨d, hd, hk⟩)

end

section

variable {env : Env} {ent : Entry}
  (hf : ∀ e path t, env.find e path = some t → t.Regular ∧ (t.kind = .leaf → t.isList = false))
  (hall : ent.All Entry.Shaped)

include hf hall

/-- The entry of a node away from the root, and where its node stands when it is a list. -/
theorem Typed.entry_shaped {root c : Config} {l : Loc} {cur : Cursor} {e : Entry}
    (ht : Typed env (.root ent) root) (hl : l ≠ []) (hw : root.walk (.root ent) l = some (cur, c))
    (he : c.entry = some e) :
    ((e.kind = .directory ∨ e.kind = .leaf) ∧ (hasKey e = true → e.presence = false)) ∧
      (e.isList = true → cur = .enter e ∧ e.All Entry.Shaped) := by
  obtain ⟨pre, s, rfl⟩ := List.eq_nil_or_concat l |>.resolve_left hl
  rw [List.concat_eq_append] at hw
  obtain ⟨cur₁, p, e', hwp, hch, he', rfl⟩ := Config.walk_snoc hw
  cases he.symm.trans he'
  obtain ⟨e', hedge, he', -⟩ := (ht.of_walk hwp).child?_edge hch
  cases he.symm.trans he'
  have hent := ht.walk_all hall hwp
  obtain ⟨slot, n⟩ := s
  cases slot with
  | configs =>
    obtain ⟨hdir, ⟨str, hs⟩, -⟩ := id hedge
    have hmem := hs.mem_dir hdir
    exact ⟨⟨hent.self.kind e hmem, fun hk => (hent.self.list e hmem hk).2⟩,
      fun _ => ⟨rfl, hs.all hdir hent⟩⟩
  | keys =>
    have hleaf : e.Regular ∧ (e.kind = .leaf → e.isList = false) := by
      obtain ⟨key, t, hkey, -, -, ⟨-, rfl⟩ | ⟨-, hfind⟩⟩ := hedge.2.1.key hedge.1
      · have hx := (hent.child (List.mem_of_find?_eq_some hkey)).self
        exact ⟨hx.toRegular, hx.leaf⟩
      · exact hf _ _ _ hfind
    have hkind : e.kind = .leaf := by
      obtain ⟨-, -, -, -, htype, -⟩ := hedge.2.1.key hedge.1
      exact hleaf.1.typed (Option.isSome_iff_ne_none.mp htype)
    refine ⟨⟨.inr hkind, fun _ => ?_⟩, fun hlist => ?_⟩
    · by_contra hp
      rw [hleaf.1.presence (by simpa using hp)] at hkind
      cases hkind
    · rw [hleaf.2 hkind] at hlist
      cases hlist

/-- In a tree of successful calls the lists that stand in an entry have an entry. -/
theorem Built.filled {root : Config} (h : Built env ent root) : root.Every Config.Filled := by
  have ht := h.edited.typed
  have hclosed : Closed ent root := by
    refine h.closed (fun e path t hfind => (hf e path t hfind).1) (hall.mono fun e he => he.toRegular)
      fun root ht l c e hl hg he => ?_
    obtain ⟨cur, hw, -⟩ := ht.walk_of_get hg
    exact (Typed.entry_shaped hf hall ht hl hw he).1
  refine ht.every fun l cur c hw e he hlist k hk x hx hm hchild => ?_
  have hl : l ≠ [] := by
    rintro rfl
    cases hw
    rw [show root.entry = root.toNode.entry from rfl, h.toNode] at he
    cases he
  obtain ⟨-, hshape⟩ := Typed.entry_shaped hf hall ht hl hw he
  obtain ⟨rfl, hent⟩ := hshape hlist
  have htc := ht.of_walk hw
  obtain ⟨n, hn⟩ : ∃ n, keyLength e = n + 1 := ⟨keyLength e - 1, by have := keyLength_pos e; omega⟩
  have hst : (Cursor.enter e).state = .stateKey := by
    rw [hn] at hk
    obtain ⟨d, hd, -⟩ := List.mem_flatMap.mp hk
    obtain ⟨e', hedge⟩ := htc.edge .keys d hd
    exact hedge.1
  rw [hn] at hk
  obtain ⟨l', hw'⟩ := htc.entries_walk hst (by rw [← hn]; exact Nat.zero_add _) hk
  obtain ⟨d, hd, hpath⟩ := List.any_eq_true.mp hchild
  have htk := htc.of_walk hw'
  obtain ⟨e', hedge⟩ := htk.edge .configs d hd
  have hed : d.entry = some e' := hedge.entry
  have hmem : e' ∈ dirCandidates e := by
    obtain ⟨hdir, ⟨str, hs⟩, -⟩ := hedge
    exact hs.mem_dir hdir
  obtain ⟨hxl, hkey⟩ := hasKey_of_mandatoryKey hm fun y hy => (hent.child hx).self.named y hy
  obtain rfl : e' = x := by
    have hxc : x ∈ dirCandidates e := by
      refine mem_dirCandidates.mpr (mem_candidates.mpr ⟨x, hx, ?_⟩)
      rw [if_neg fun hc => by rw [hent.self.choice x hx hc] at hxl; cases hxl]
    exact List.inj_on_of_nodup_map hent.self.own hmem hxc (by simpa [hed] using hpath)
  have hxst : Cursor.enter e' = ⟨e', .stateKey, 0⟩ := by
    have hnext : entryNextState e' = .stateKey := by
      rw [entryNextState, (hent.self.list e' hmem hkey).1]
      exact if_pos hkey
    rw [Cursor.enter, hnext]
    rfl
  have hwd : ∀ m, root.walk (.root ent) (l ++ (l' ++ ⟨.configs, d.name⟩ :: m)) =
      d.walk ⟨e', .stateKey, 0⟩ m := by
    intro m
    have hch : k.child? ⟨.configs, d.name⟩ = some d := Keyed.get_of_mem (htk.nodup .configs) hd
    rw [Config.walk_append, hw, Option.bind_some, Config.walk_append, hw', Option.bind_some,
      Config.walk_cons hch hed, ← hxst]
    rfl
  have htd : Typed env ⟨e', .stateKey, 0⟩ d := hxst ▸ htk.child .configs d hd e' hed
  obtain ⟨n', hn'⟩ : ∃ n', keyLength e' = n' + 1 :=
    ⟨keyLength e' - 1, by have := keyLength_pos e'; omega⟩
  have hne := htd.entries_ne (n := n')
    (fun m cur' b hb => hclosed _ cur' b (by simp) ((hwd m).trans hb)) rfl
    (by rw [← hn']; exact Nat.zero_add _)
  refine List.any_eq_true.mpr ⟨d, hd, ?_⟩
  rw [Bool.and_eq_true, hn']
  exact ⟨hpath, by simpa using hne⟩

end

/-- When the check is exact. In any tree: just if one of the nodes that `mandatory true` asks for is
missing, or both or none of these hold: a node that another mandatory statement asks for is missing,
and a list that stands in an entry of a list and has a key marked `mandatory true` has no entry. In a
tree of successful calls the last never happens. -/
theorem mandatory_exact_iff (root : Config) :
    ((root.mandatoryCheck = none ↔ root.Every Config.Complete) ↔
      (root.Every (Config.Has Entry.marked) →
        (root.Every (Config.Has Entry.waived) ↔ root.Every Config.Filled))) ∧
    ∀ env ent, (∀ e path t, env.find e path = some t → t.Regular ∧ (t.kind = .leaf → t.isList = false)) →
      ent.All Entry.Shaped → Built env ent root →
      ((root.mandatoryCheck = none ↔ root.Every Config.Complete) ↔
        (root.Every (Config.Has Entry.marked) → root.Every (Config.Has Entry.waived))) := by
  have hcode : root.mandatoryCheck = none ↔
      root.Every (Config.Has Entry.marked) ∧ root.Every (Config.Has Entry.waived) := by
    rw [Config.mandatoryCheck_eq_none, Config.Every.congr Config.has_isMandatory, Config.Every.and]
  have hspec : root.Every Config.Complete ↔
      root.Every (Config.Has Entry.marked) ∧ root.Every Config.Filled := by
    rw [Config.Every.congr Config.complete_iff, Config.Every.and]
  rw [hcode, hspec, and_congr_right_iff]
  refine ⟨Iff.rfl, fun env ent hf hall hb => ?_⟩
  have hfill := Built.filled hf hall hb
  simp only [hfill, iff_true]

/-- A list with a leaf marked `mandatory false`, and with a list in it whose key is mandatory. -/
def staticSchema : Entry :=
  { name := "", kind := .directory, dir := [
    { name := "route", path := ["route"], kind := .directory, listAttr := true, key := "dst", dir := [
      { name := "dst", path := ["route", "dst"], kind := .leaf, type := some { kind := .string } },
      { name := "tag", path := ["route", "tag"], kind := .leaf, mandatory := true,
        mandatoryTrue := false, type := some { kind := .string } }] },
    { name := "static", path := ["static"], kind := .directory, listAttr := true, key := "dst", dir := [
      { name := "dst", path := ["static", "dst"], kind := .leaf, type := some { kind := .string } },
      { name := "nexthop", path := ["static", "nexthop"], kind := .directory, listAttr := true,
        key := "ip", dir := [
        { name := "ip", path := ["static", "nexthop", "ip"], kind := .leaf, mandatory := true,
          type := some { kind := .string } }] }] }] }

/-- A route without its tag, which is waived, and with it. -/
theorem mandatory_exact_iff_static :
    (∃ r, parse .ascii staticSchema {} ["route", "a"] = some r ∧
      ((r.tree.mandatoryCheck = none ↔ r.tree.Every Config.Complete) ↔
        (r.tree.Every (Config.Has Entry.marked) → r.tree.Every (Config.Has Entry.waived))) ∧
      r.tree.Every (Config.Has Entry.marked) ∧ ¬ r.tree.Every (Config.Has Entry.waived)) ∧
    ∃ r, parse .ascii staticSchema {} ["route", "a", "tag", "x"] = some r ∧
      (r.tree.mandatoryCheck = none ↔ r.tree.Every Config.Complete) ∧
      r.tree.Every (Config.Has Entry.waived) := by
  have hexact {r : ParseResult} {cmds : List String} (hr : parse .ascii staticSchema {} cmds = some r)
      (hc : r.code = .parseSuccess) := (mandatory_exact_iff r.tree).2 .ascii staticSchema
    (fun _ _ _ h => by cases h) (by decide) (.set .empty hr hc)
  obtain ⟨r, hr, hx⟩ := Option.map_eq_some_iff.mp (show
    (parse .ascii staticSchema {} ["route", "a"]).map (fun r => (r.code,
      decide (r.tree.Every (Config.Has Entry.marked)), decide (r.tree.Every (Config.Has Entry.waived)))) =
    some (.parseSuccess, true, false) by decide +kernel)
  obtain ⟨r', hr', hx'⟩ := Option.map_eq_some_iff.mp (show
    (parse .ascii staticSchema {} ["route", "a", "tag", "x"]).map (fun r => (r.code,
      decide (r.tree.Every (Config.Has Entry.waived)))) = some (.parseSuccess, true) by decide +kernel)
  simp only [Prod.mk.injEq, decide_eq_true_eq, decide_eq_false_iff_not] at hx hx'
  exact ⟨⟨r, hr, hexact hr hx.1, hx.2⟩, r', hr', (hexact hr' hx'.1).mpr fun _ => hx'.2, hx'.2⟩

/-- A leaf with `mandatory false` is asked for, and a list that a failed command has left without an
entry passes. -/
theorem mandatory_not_exact :
    (∃ r, parse .ascii staticSchema {} ["route", "a"] = some r ∧ r.code = .parseSuccess ∧
      r.tree.Every Config.Complete ∧
      r.tree.mandatoryCheck = some "Mandatory node 'tag' is necessary under a.") ∧
    ∃ r, parse .ascii staticSchema {} ["static", "a", "nexthop"] = some r ∧
      r.tree.mandatoryCheck = none ∧ ¬ r.tree.Every Config.Complete := by
  obtain ⟨r, hr, hx⟩ := Option.map_eq_some_iff.mp (show
    (parse .ascii staticSchema {} ["route", "a"]).map (fun r =>
      (r.code, decide (r.tree.Every Config.Complete), r.tree.mandatoryCheck)) =
    some (.parseSuccess, true, some "Mandatory node 'tag' is necessary under a.") by decide +kernel)
  obtain ⟨r', hr', hx'⟩ := Option.map_eq_some_iff.mp (show
    (parse .ascii staticSchema {} ["static", "a", "nexthop"]).map (fun r =>
      (decide (r.tree.Every Config.Complete), r.tree.mandatoryCheck)) =
    some (false, none) by decide +kernel)
  simp only [Prod.mk.injEq, decide_eq_true_eq, decide_eq_false_iff_not] at hx hx'
  exact ⟨⟨r, hr, hx⟩, r', hr', hx'.2, hx'.1⟩

end OpenConfigd
