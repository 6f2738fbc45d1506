import OpenConfigd.Config.Store

/-!
# Sorted slices

`Set` and `SetKey` sort the slice they add a node to. Where `Less` puts the nodes
of every slice in a line (`Lined`), a call leaves every slice in its one order
(`Op.apply_sorted`), and trees with the same nodes are equal (`Config.Same.eq`).
-/

namespace OpenConfigd

variable {env : Env}

/-! ## Sorted slices -/

/-- What `Less` looks at. -/
def Node.label (n : Node) : Node := { name := n.name, entry := n.entry }

theorem pairwise_label (l : List Config) :
    (l.map fun c => c.label.bare).Pairwise (fun a b => configLess a b = true) ↔
      l.Pairwise fun a b => configLess a b = true := List.pairwise_map

theorem configLess_asymm {a b : Config} (h : configLess a b = true) : configLess b a = false := by
  unfold configLess at h ⊢
  by_cases hp : priority a = priority b
  · simp only [hp, ne_eq, not_true, if_false] at h ⊢
    cases ha : atoi a.name with
    | none =>
      simp only [ha, decide_eq_true_eq] at h
      cases hb : atoi b.name <;> exact decide_eq_false (String.lt_asymm h)
    | some i =>
      cases hb : atoi b.name with
      | none =>
        simp only [ha, hb, decide_eq_true_eq] at h
        exact decide_eq_false (String.lt_asymm h)
      | some j =>
        simp only [ha, hb, decide_eq_true_eq] at h
        exact decide_eq_false (by omega)
  · have hp' : priority b ≠ priority a := fun h => hp h.symm
    simp only [ne_eq, hp, hp', not_false_iff, if_true, decide_eq_true_eq] at h ⊢
    exact decide_eq_false (by omega)

/-- Every slice of the tree is in the order of `Less`, without ties. -/
def Config.Sorted (c : Config) : Prop :=
  ∀ l d, c.get? l = some d → ∀ s, (d.slot s).Pairwise fun a b => configLess a b = true

/-- The siblings at every place have different names. -/
def Config.Distinct (c : Config) : Prop :=
  ∀ l d, c.get? l = some d → ∀ s, ((d.slot s).map (·.name)).Nodup

theorem Typed.distinct {cur : Cursor} {c : Config} (h : Typed env cur c) : c.Distinct := by
  intro l d hd
  obtain ⟨cur', -, ht⟩ := h.walk_of_get hd
  exact ht.nodup

namespace Config

variable {root c d : Config} {loc : Loc}

theorem Sorted.child {s : Step} (h : c.Sorted) (hd : c.child? s = some d) : d.Sorted := by
  intro l b hb
  refine h (s :: l) b ?_
  rw [get?_cons, hd]
  exact hb

theorem Distinct.child {s : Step} (h : c.Distinct) (hd : c.child? s = some d) : d.Distinct := by
  intro l b hb
  refine h (s :: l) b ?_
  rw [get?_cons, hd]
  exact hb

theorem Same.child {s : Step} {c' d' : Config} (h : c.Same d) (hc : c.child? s = some c')
    (hd : d.child? s = some d') : c'.Same d' := by
  intro l
  have := h (s :: l)
  rwa [node?, node?, get?_cons, get?_cons, hc, hd] at this

theorem Same.symm (h : c.Same d) : d.Same c := fun l => (h l).symm

/-- A child of one of two trees with the same nodes, in the other. -/
theorem Same.child? {s : Step} {c' : Config} (h : c.Same d) (hc : c.child? s = some c') :
    ∃ d', d.child? s = some d' := by
  have := h [s]
  rw [node?, node?, get?_single, get?_single, hc] at this
  obtain ⟨d', hd', -⟩ := Option.map_eq_some_iff.mp this.symm
  exact ⟨d', hd'⟩

/-- Sorted trees with the same nodes are equal. -/
theorem Same.eq (h : c.Same d) (hc : c.Distinct) (hd : d.Distinct) (hsc : c.Sorted)
    (hsd : d.Sorted) : c = d := by
  induction c using Config.ind generalizing d with
  | h c ih =>
    refine ext' (Option.some.inj (h [])) fun s => ?_
    have hnc := hc [] c rfl s
    have hnd := hd [] d rfl s
    have hmem : ∀ a, a ∈ c.slot s ↔ a ∈ d.slot s := by
      -- A node and its counterpart are equal by induction.
      have hboth {a b : Config} (ha : c.child? ⟨s, a.name⟩ = some a)
          (hb : d.child? ⟨s, a.name⟩ = some b) : a = b :=
        ih s a (child?_mem ha) (h.child ha hb) (hc.child ha) (hd.child hb) (hsc.child ha)
          (hsd.child hb)
      intro a
      constructor
      · intro ha
        have hca : c.child? ⟨s, a.name⟩ = some a := Keyed.get_of_mem hnc ha
        obtain ⟨b, hb⟩ := h.child? hca
        rw [hboth hca hb]
        exact child?_mem hb
      · intro ha
        have hda : d.child? ⟨s, a.name⟩ = some a := Keyed.get_of_mem hnd ha
        obtain ⟨b, hb⟩ := h.symm.child? hda
        have hname : b.name = a.name := child?_name hb
        have hab : b = a := hboth (hname ▸ hb) (hname ▸ hda)
        rw [← hab]
        exact child?_mem hb
    have hperm : (c.slot s).Perm (d.slot s) :=
      (List.perm_ext_iff_of_nodup hnc.of_map hnd.of_map).mpr hmem
    refine hperm.eq_of_pairwise (fun a b _ _ hab hba => ?_) (hsc [] c rfl s) (hsd [] d rfl s)
    rw [configLess_asymm hab] at hba
    cases hba

/-- A change of a node that leaves it sorted and keeps what `Less` looks at leaves the
tree sorted. -/
theorem Sorted.modify {g : Config → Config} (h : root.Sorted) (hg : KeepsName g)
    (he : ∀ c, (g c).entry = c.entry) (hc : root.get? loc = some c) (hnew : (g c).Sorted) :
    (root.modify loc g).Sorted := by
  intro l d hd
  by_cases hl : loc <+: l
  · obtain ⟨r, rfl⟩ := hl
    rw [get?_modify_append hg, hc] at hd
    exact hnew r d hd
  · by_cases hl' : l <+: loc
    · obtain ⟨r, rfl⟩ := hl'
      cases r with
      | nil => exact absurd (by simp) hl
      | cons s r =>
        rw [get?_modify_above hg] at hd
        obtain ⟨b, hb, rfl⟩ := Option.map_eq_some_iff.mp hd
        intro t
        rw [Config.modify, slot_modifyChild]
        split
        · have hlabel : (Keyed.modify (·.name) s.name (fun d => d.modify r g) (b.slot t)).map
              (fun c => c.label.bare) = (b.slot t).map fun c => c.label.bare := by
            refine Keyed.map_modify _ fun a _ => ?_
            show Node.bare _ = Node.bare _
            have hname := modify_keepsName hg r a
            have hentry : (a.modify r g).entry = a.entry := by
              cases r with
              | nil => exact he a
              | cons s r => exact congrArg Node.entry (modify_toNode a s r g)
            simp only [Node.label, hname, hentry]
          rw [← pairwise_label, hlabel, pairwise_label]
          exact h l b hb t
        · exact h l b hb t
    · rw [get?_modify_off hg root hl hl'] at hd
      exact h l d hd

theorem Sorted.mem {s : Slot} (h : c.Sorted) (hn : ((c.slot s).map (·.name)).Nodup)
    (hd : d ∈ c.slot s) : d.Sorted :=
  h.child (s := ⟨s, d.name⟩) (Keyed.get_of_mem hn hd)

/-- A node is sorted if its slices are and its children are. -/
theorem Sorted.of_mem (hc : ∀ s, (c.slot s).Pairwise fun a b => configLess a b = true)
    (h : ∀ s, ∀ d ∈ c.slot s, d.Sorted) : c.Sorted := by
  intro l d hd
  cases l with
  | nil =>
    cases hd
    exact hc
  | cons s l =>
    rw [get?_cons] at hd
    obtain ⟨b, hb, hd⟩ := Option.bind_eq_some_iff.mp hd
    exact h s.slot b (child?_mem hb) l d hd

theorem sorted_bare (n : Node) : n.bare.Sorted := by
  refine .of_mem (fun s => ?_) fun s d hd => ?_
  · cases s <;> exact .nil
  · cases s <;> cases hd

/-- A node with the children of a sorted node. -/
theorem Sorted.of_slot (h : c.Sorted) (hs : ∀ s, d.slot s = c.slot s) : d.Sorted := by
  intro l b hb
  cases l with
  | nil =>
    cases hb
    intro s
    rw [hs]
    exact h [] c rfl s
  | cons t l =>
    rw [get?_cons, child?, hs] at hb
    exact h (t :: l) b hb

/-- A node with one more child, in order. -/
theorem Sorted.add {s : Slot} {n : Node} (h : c.Sorted) (hn : ∀ s, ((c.slot s).map (·.name)).Nodup)
    (hs : (d.slot s).Perm (c.slot s ++ [n.bare])) (ht : ∀ t, t ≠ s → d.slot t = c.slot t)
    (hp : (d.slot s).Pairwise fun a b => configLess a b = true) : d.Sorted := by
  refine .of_mem (fun t => ?_) fun t b hb => ?_
  · by_cases hts : t = s
    · rw [hts]
      exact hp
    · rw [ht t hts]
      exact h [] c rfl t
  · by_cases hts : t = s
    · subst hts
      rcases List.mem_append.mp (hs.mem_iff.mp hb) with hb | hb
      · exact h.mem (hn t) hb
      · rw [List.mem_singleton.mp hb]
        exact sorted_bare n
    · rw [ht t hts] at hb
      exact h.mem (hn t) hb

end Config

/-! ## Nodes in a line -/

/-- What `Less` looks at of the node a call names. -/
def Op.label : Op → Option Node
  | .set e | .setLeafList e => some { name := e.name, entry := some e }
  | .setKey e key _ => some { name := key, entry := some e }
  | .setValue _ | .setListValue _ => none

/-- The nodes that calls name, by place, as `Less` looks at them. -/
def named : List Op → Loc → List (Loc × Node)
  | [], _ => []
  | op :: ops, loc =>
    (op.label.map fun n => (loc ++ op.steps, n)).toList ++ named ops (loc ++ op.steps)

/-- The places of two nodes in one slice. -/
def beside (l l' : Loc) : Bool :=
  l.dropLast == l'.dropLast && l.getLast?.map (·.slot) == l'.getLast?.map (·.slot)

/-- `Less` puts the nodes of one slice in a line: of two with different names one is less
than the other, and what is less than a lesser node is less. -/
structure Lined (ns : List (Loc × Node)) : Prop where
  total : ∀ a ∈ ns, ∀ b ∈ ns, beside a.1 b.1 = true → a.1 ≠ b.1 →
    configLess a.2.bare b.2.bare = true ∨ configLess b.2.bare a.2.bare = true
  trans : ∀ a ∈ ns, ∀ b ∈ ns, ∀ c ∈ ns, beside a.1 b.1 = true → beside b.1 c.1 = true →
    configLess a.2.bare b.2.bare = true → configLess b.2.bare c.2.bare = true →
    configLess a.2.bare c.2.bare = true

instance (ns : List (Loc × Node)) : Decidable (Lined ns) :=
  decidable_of_iff (_ ∧ _) ⟨fun h => ⟨h.1, h.2⟩, fun h => ⟨h.total, h.trans⟩⟩

/-- Every node below the root is one of some nodes. -/
def Covered (ns : List (Loc × Node)) (m : Store) : Prop :=
  ∀ l n, l ≠ [] → m l = some n → (l, n.label) ∈ ns

section

variable {ns : List (Loc × Node)} {root c : Config} {loc : Loc} {op : Op}

theorem beside_snoc (loc : Loc) (s : Slot) (n n' : String) :
    beside (loc ++ [⟨s, n⟩]) (loc ++ [⟨s, n'⟩]) = true := by
  simp [beside]

/-- A sort puts nodes of a line in their order. -/
theorem Lined.sort (h : Lined ns) (loc : Loc) (s : Slot) {l : List Config}
    (hm : ∀ a ∈ l, (loc ++ [⟨s, a.name⟩], a.label) ∈ ns) (hn : (l.map (·.name)).Nodup) :
    (env.sort configLess l).Pairwise fun a b => configLess a b = true := by
  have htotal : ∀ a ∈ l, ∀ b ∈ l, a.name ≠ b.name →
      configLess a b = true ∨ configLess b a = true := by
    intro a ha b hb hne
    exact h.total _ (hm a ha) _ (hm b hb) (beside_snoc loc s _ _) (by simpa using hne)
  have heq : ∀ a ∈ l, ∀ b ∈ l, a.name = b.name → a = b := fun a ha b hb hab =>
    List.inj_on_of_nodup_map hn ha hb hab
  have hweak : StrictWeak configLess l := by
    refine ⟨fun a _ b _ hab => by simp [configLess_asymm hab], ?_⟩
    intro a ha b hb c hc hab hbc
    by_cases h₁ : a.name = b.name
    · rw [heq a ha b hb h₁]
      exact hbc
    · by_cases h₂ : b.name = c.name
      · rw [← heq b hb c hc h₂]
        exact hab
      · have hba := (htotal a ha b hb h₁).resolve_left hab
        have hcb := (htotal b hb c hc h₂).resolve_left hbc
        have hca : configLess c a = true := h.trans _ (hm c hc) _ (hm b hb) _ (hm a ha)
          (beside_snoc loc s _ _) (beside_snoc loc s _ _) hcb hba
        simp [configLess_asymm hca]
  have hperm := env.sort_perm configLess l
  have hnames : ((env.sort configLess l).map (·.name)).Nodup := (hperm.map _).nodup_iff.mpr hn
  have hsorted := (env.sort_sorted configLess l hweak).and (List.pairwise_map.mp hnames)
  refine hsorted.imp_of_mem fun {a b} ha hb hab => ?_
  exact (htotal a (hperm.mem_iff.mp ha) b (hperm.mem_iff.mp hb) hab.2).resolve_right hab.1

/-- A node that only a call names is one of the nodes. -/
theorem Covered.update {m : Store} (h : Covered ns m)
    (hop : ∀ n, op.label = some n → (loc ++ op.steps, n) ∈ ns) : Covered ns (op.update m loc) := by
  -- A change of one place: a node of the same label, or the one the call names.
  have one {m : Store} {x : Loc} {v : Option Node} (hm : Covered ns m)
      (hv : ∀ n, v = some n → (∃ n', m x = some n' ∧ n'.label = n.label) ∨ (x, n.label) ∈ ns) :
      Covered ns (Function.update m x v) := by
    intro l n hl hn
    by_cases hx : l = x
    · subst hx
      rw [Function.update_self] at hn
      rcases hv n hn with ⟨n', hn', hlab⟩ | hmem
      · rw [← hlab]
        exact hm l n' hl hn'
      · exact hmem
    · rw [Function.update_of_ne hx] at hn
      exact hm l n hl hn
  have mapped {x : Loc} {f : Node → Node} {n : Node} (hn : (m x).map f = some n)
      (hf : ∀ n, (f n).label = n.label) : ∃ n', m x = some n' ∧ n'.label = n.label := by
    obtain ⟨n', hn', rfl⟩ := Option.map_eq_some_iff.mp hn
    exact ⟨n', hn', (hf n').symm⟩
  have entered {e : Entry} {f : Node → Node} (hf : ∀ n, (f n).label = n.label)
      (he : (loc ++ [⟨.configs, e.name⟩], (newNode e).label) ∈ ns) :
      Covered ns (Function.update m (loc ++ [⟨.configs, e.name⟩])
        (some (f ((m (loc ++ [⟨.configs, e.name⟩])).getD (newNode e))))) := by
    refine one h fun n hn => ?_
    cases hn
    cases hm : m (loc ++ [⟨.configs, e.name⟩]) with
    | none => exact .inr (by rw [Option.getD_none, hf]; exact he)
    | some n' => exact .inl ⟨n', rfl, by rw [Option.getD_some, hf]⟩
  cases op with
  | set e => exact entered (f := fun n => n) (fun _ => rfl) (hop _ rfl)
  | setLeafList e =>
    exact entered (f := fun n => { n with valueList := [] }) (fun _ => rfl) (hop _ rfl)
  | setKey e key pre =>
    simp only [Op.update]
    split
    · exact h
    · refine one (one h fun n hn => .inl (mapped hn fun _ => rfl)) fun n hn => ?_
      cases hn
      exact .inr (hop _ rfl)
  | setValue v => exact one h fun n hn => .inl (mapped hn fun _ => rfl)
  | setListValue v => exact one h fun n hn => .inl (mapped hn fun _ => rfl)

/-- A child by its label. -/
theorem Covered.child {s : Slot} {d : Config} (h : Covered ns root.node?)
    (hc : root.get? loc = some c) (hn : ((c.slot s).map (·.name)).Nodup) (hd : d ∈ c.slot s) :
    (loc ++ [⟨s, d.name⟩], d.label) ∈ ns := by
  refine h _ d.toNode (by simp) (Config.node?_eq ?_)
  have hch : c.child? ⟨s, d.name⟩ = some d := Keyed.get_of_mem hn hd
  rw [Config.get?_append, hc, Option.bind_some, Config.get?_single, hch]

theorem Config.Sorted.at (h : root.Sorted) (hc : root.get? loc = some c) : c.Sorted := by
  intro l d hd
  refine h (loc ++ l) d ?_
  rw [Config.get?_append, hc]
  exact hd

/-- The node with one more child, sorted in. -/
theorem Config.Sorted.sort_add {s : Slot} {n : Node} {d : Config} (h : root.Sorted) (hl : Lined ns)
    (hcov : Covered ns root.node?) (hc : root.get? loc = some c)
    (hn : ∀ s, ((c.slot s).map (·.name)).Nodup) (hnew : c.child? ⟨s, n.name⟩ = none)
    (hs : d.slot s = env.sort configLess (c.slot s ++ [n.bare]))
    (ht : ∀ t, t ≠ s → d.slot t = c.slot t) (hmem : (loc ++ [⟨s, n.name⟩], n.label) ∈ ns) :
    d.Sorted := by
  refine (h.at hc).add hn (n := n) (hs ▸ env.sort_perm configLess _) ht ?_
  rw [hs]
  refine hl.sort loc s (fun a ha => ?_) (nodup_append_new (hn s) rfl hnew)
  rcases List.mem_append.mp ha with ha | ha
  · exact hcov.child hc (hn s) ha
  · rw [List.mem_singleton.mp ha]
    exact hmem

theorem Config.Sorted.set {e : Entry} (h : root.Sorted) (hl : Lined ns)
    (hcov : Covered ns root.node?) (hc : root.get? loc = some c)
    (hn : ∀ s, ((c.slot s).map (·.name)).Nodup)
    (hp : (c.lookup e.name).isSome ∨ c.kept e = c.configs)
    (hmem : (loc ++ [⟨.configs, e.name⟩], (newNode e).label) ∈ ns) : (c.set env e).Sorted := by
  cases hlook : c.lookup e.name with
  | some d =>
    rw [Config.set_of_some hlook]
    exact h.at hc
  | none =>
    have hk : c.kept e = c.configs := by simpa [hlook] using hp
    rw [Config.set_of_none hlook, hk]
    refine h.sort_add (s := .configs) (n := newNode e) hl hcov hc hn hlook rfl (fun t ht => ?_) hmem
    cases t with
    | configs => exact absurd rfl ht
    | keys => rfl

/-- A plain call keeps the tree sorted. -/
theorem Op.apply_sorted (h : root.Sorted) (hl : Lined ns) (hcov : Covered ns root.node?)
    (hd : root.Distinct) (hc : root.get? loc = some c) (hp : op.Plain root loc)
    (hop : ∀ n, op.label = some n → (loc ++ op.steps, n) ∈ ns) :
    (op.apply env (root, loc)).1.Sorted := by
  have hn := hd loc c hc
  have value {g : Config → Config} (hg : KeepsName g) (he : ∀ c, (g c).entry = c.entry)
      (hs : ∀ s, (g c).slot s = c.slot s) : (root.modify loc g).Sorted :=
    h.modify hg he hc ((h.at hc).of_slot hs)
  rw [Op.Plain, hc] at hp
  cases op with
  | set e =>
    refine h.modify (Config.set_keepsName e) (fun c => ?_) hc (h.set hl hcov hc hn hp (hop _ rfl))
    exact congrArg Node.entry (Config.set_toNode c e)
  | setLeafList e =>
    have hset : (c.set env e).Sorted := h.set hl hcov hc hn hp (hop _ rfl)
    have hchild := @Config.child?_set_self env c e (hn .configs)
    refine h.modify (Config.setLeafList_keepsName e) (fun c => ?_) hc ?_
    · rw [show (c.setLeafList env e).entry = (c.setLeafList env e).toNode.entry from rfl,
        Config.setLeafList, Config.modifyChild_toNode, Config.set_toNode]
    · have hget : (c.set env e).get? [⟨.configs, e.name⟩] = _ :=
        (Config.get?_single _ _).trans hchild
      refine hset.modify (g := Config.clearList) (fun _ => rfl) (fun _ => rfl) hget ?_
      exact (hset.child hchild).of_slot fun s => by cases s <;> rfl
  | setKey e key pre =>
    rw [Op.apply, Config.setKey]
    simp only at hp
    rw [hp]
    cases hk : c.lookupKeyShallow key with
    | some d => exact h
    | none =>
      refine h.modify (g := fun d => d.addKey env e key pre) (fun _ => rfl) (fun _ => rfl) hc ?_
      refine h.sort_add (s := .keys) (n := newKey e key pre) hl hcov hc hn hk rfl (fun t ht => ?_)
        (hop _ rfl)
      cases t with
      | configs => rfl
      | keys => exact absurd rfl ht
  | setValue v =>
    exact value (g := fun d => d.setValue v) (fun _ => rfl) (fun _ => rfl) fun s => by cases s <;> rfl
  | setListValue v =>
    exact value (g := fun d => d.setListValue v) (fun _ => rfl) (fun _ => rfl)
      fun s => by cases s <;> rfl

end

end OpenConfigd
