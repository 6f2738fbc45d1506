import Mathlib.Logic.Function.Basic
import OpenConfigd.Config.Typed

/-!
# The tree as a store

A tree is a partial map from places to node fields, `Config.node?`; two trees
with the same map differ at most in the order of siblings (`Config.Same`). On
maps the `Set` functions are updates at one place (`Op.update`). The code does
just that (`Op.apply_node?`), and leaves every subtree off its path as it is
(`Op.apply_frame`), as long as the call is plain: it finds keys where it looks
for them, and displaces no other case of a choice.
-/

namespace OpenConfigd

/-- The fields of the nodes, by place. -/
abbrev Store := Loc → Option Node

/-- The fields of the node at a place. -/
def Config.node? (c : Config) : Store := fun l => (c.get? l).map (·.toNode)

/-- The same nodes, up to the order of siblings. -/
def Config.Same (c d : Config) : Prop := ∀ l, c.node? l = d.node? l

/-- The nodes of the first tree are nodes of the second. -/
def Config.PartOf (c d : Config) : Prop := ∀ l n, c.node? l = some n → d.node? l = some n

namespace Config

mutual

/-- Every node passes the check. -/
def every (p : Config → Bool) : Config → Bool
  | ⟨n, configs, keys⟩ => p ⟨n, configs, keys⟩ && everyOf p configs && everyOf p keys

/-- Every node below a slice passes the check. -/
def everyOf (p : Config → Bool) : List Config → Bool
  | [] => true
  | c :: cs => every p c && everyOf p cs

end

theorem every_of_mem {p : Config → Bool} {cs : List Config} (h : everyOf p cs = true) {c : Config}
    (hc : c ∈ cs) : c.every p = true := by
  induction cs with
  | nil => cases hc
  | cons d cs ih =>
    rw [everyOf, Bool.and_eq_true] at h
    rcases List.mem_cons.mp hc with rfl | hc
    · exact h.1
    · exact ih h.2 hc

theorem get?_of_every {p : Config → Bool} {c d : Config} {l : Loc} (h : c.every p = true)
    (hd : c.get? l = some d) : p d = true := by
  induction l generalizing c with
  | nil =>
    cases hd
    obtain ⟨n, configs, keys⟩ := d
    rw [every, Bool.and_eq_true, Bool.and_eq_true] at h
    exact h.1.1
  | cons s l ih =>
    rw [get?_cons] at hd
    obtain ⟨b, hb, hd⟩ := Option.bind_eq_some_iff.mp hd
    refine ih ?_ hd
    have hm := child?_mem hb
    obtain ⟨n, configs, keys⟩ := c
    obtain ⟨slot, name⟩ := s
    rw [every, Bool.and_eq_true, Bool.and_eq_true] at h
    cases slot with
    | configs => exact every_of_mem h.1.2 hm
    | keys => exact every_of_mem h.2 hm

theorem node?_of_every {p : Node → Bool} {c : Config} (h : (c.every fun d => p d.toNode) = true) {l : Loc}
    {n : Node} (hn : c.node? l = some n) : p n = true := by
  obtain ⟨d, hd, rfl⟩ := Option.map_eq_some_iff.mp hn
  exact get?_of_every h hd

end Config

/-- The steps from the node a function is called on to the node it returns. -/
def Op.steps : Op → Loc
  | .set e | .setLeafList e => [⟨.configs, e.name⟩]
  | .setKey _ key _ => [⟨.keys, key⟩]
  | .setValue _ | .setListValue _ => []

/-- What a call does to the store. -/
def Op.update (op : Op) (m : Store) (loc : Loc) : Store :=
  let l := loc ++ op.steps
  match op with
  | .set e => Function.update m l (some ((m l).getD (newNode e)))
  | .setLeafList e => Function.update m l (some { (m l).getD (newNode e) with valueList := [] })
  | .setKey e key pre =>
    match m l with
    | some _ => m
    | none =>
      let marked := (m loc).map fun n =>
        { n with keyOnlyConfig := n.keyOnlyConfig || n.keyConfig }
      Function.update (Function.update m loc marked) l (some (newKey e key pre))
  | .setValue v => Function.update m l ((m l).map fun n => { n with value := v, hasValue := true })
  | .setListValue v =>
    Function.update m l
      ((m l).map fun n => { n with valueList := n.valueList ++ [v], hasValue := true })

/-- The call does to the tree what it does to the store. -/
def Op.Plain (op : Op) (root : Config) (loc : Loc) : Prop :=
  match root.get? loc with
  | none => False
  | some c =>
    match op with
    | .set e | .setLeafList e => (c.lookup e.name).isSome ∨ c.kept e = c.configs
    | .setKey _ key _ => Config.lookupKey root loc key =
      (loc, if (c.lookupKeyShallow key).isSome then some (loc ++ [⟨.keys, key⟩]) else none)
    | .setValue _ | .setListValue _ => True

namespace Config

variable {root c : Config} {loc l : Loc} {g : Config → Config}

theorem node?_eq (hc : root.get? l = some c) : root.node? l = some c.toNode := by
  rw [node?, hc]
  rfl

theorem node?_modify_append (hg : KeepsName g) (hc : root.get? loc = some c) (r : Loc) :
    (root.modify loc g).node? (loc ++ r) = (g c).node? r := by
  rw [node?, get?_modify_append hg, hc]
  rfl

theorem node?_modify_off (hg : KeepsName g) (h : ¬ loc <+: l) :
    (root.modify loc g).node? l = root.node? l := by
  by_cases hp : l <+: loc
  · obtain ⟨r, rfl⟩ := hp
    cases r with
    | nil => exact absurd (by simp) h
    | cons s r =>
      rw [node?, node?, get?_modify_above hg, Option.map_map]
      congr 1
      funext d
      exact modify_toNode d s r g
  · rw [node?, node?, get?_modify_off hg root h hp]

theorem get?_bare (n : Node) {r : Loc} (h : r ≠ []) : n.bare.get? r = none := by
  cases r with
  | nil => exact absurd rfl h
  | cons s r =>
    obtain ⟨slot, name⟩ := s
    cases slot <;> rfl

/-- A change that keeps the children is seen at the node itself only. -/
theorem get?_of_child? {d : Config} (h : ∀ s, d.child? s = c.child? s) {r : Loc} (hr : r ≠ []) :
    d.get? r = c.get? r := by
  cases r with
  | nil => exact absurd rfl hr
  | cons s r => rw [get?_cons, get?_cons, h]

theorem node?_of_child? {d : Config} (h : ∀ s, d.child? s = c.child? s) (r : Loc) :
    d.node? r = Function.update c.node? [] (some d.toNode) r := by
  by_cases hr : r = []
  · rw [hr, Function.update_self]
    rfl
  · rw [Function.update_of_ne hr, node?, node?, get?_of_child? h hr]

theorem node?_modify_eq (hg : KeepsName g) (hc : root.get? loc = some c) {m : Store}
    (hin : ∀ r, (g c).node? r = m (loc ++ r)) (hout : ∀ l, ¬ loc <+: l → root.node? l = m l) :
    (root.modify loc g).node? = m := by
  funext l
  by_cases hl : loc <+: l
  · obtain ⟨r, rfl⟩ := hl
    rw [node?_modify_append hg hc, hin]
  · rw [node?_modify_off hg hl, hout l hl]

theorem node?_append (hc : root.get? loc = some c) (r : Loc) : root.node? (loc ++ r) = c.node? r := by
  rw [node?, get?_append, hc]
  rfl

/-- An update below the node is an update of the tree. -/
theorem node?_modify_update (hg : KeepsName g) (hc : root.get? loc = some c) {x : Loc}
    {v : Option Node} (h : ∀ r, (g c).node? r = Function.update c.node? x v r) :
    (root.modify loc g).node? = Function.update root.node? (loc ++ x) v := by
  refine node?_modify_eq hg hc (fun r => ?_) fun l hl => ?_
  · rw [h]
    by_cases hr : r = x
    · rw [hr, Function.update_self, Function.update_self]
    · rw [Function.update_of_ne hr, Function.update_of_ne (by simpa using hr), node?_append hc]
  · rw [Function.update_of_ne]
    rintro rfl
    exact hl (List.prefix_append loc x)

theorem node?_modify_node (hg : KeepsName g) (hc : root.get? loc = some c)
    (h : ∀ s, (g c).child? s = c.child? s) :
    (root.modify loc g).node? = Function.update root.node? loc (some (g c).toNode) := by
  have := node?_modify_update hg hc (node?_of_child? h)
  rwa [List.append_nil] at this

/-- Off the path, a change below the node is none of the tree. -/
theorem get?_modify_frame (hg : KeepsName g) (hc : root.get? loc = some c) {x : Loc}
    (h : ∀ r, ¬ r <+: x → (g c).get? r = c.get? r) (hl : ¬ l <+: loc ++ x) :
    (root.modify loc g).get? l = root.get? l := by
  by_cases hp : loc <+: l
  · obtain ⟨r, rfl⟩ := hp
    rw [get?_modify_append hg, get?_append, hc]
    exact h r (by simpa using hl)
  · exact get?_modify_off hg root hp fun hp => hl (hp.trans (List.prefix_append loc x))

end Config

theorem not_prefix_single {r : Loc} {s : Step} (hn : r ≠ []) (hr : r ≠ [s]) : ¬ r <+: [s] := by
  intro h
  rcases List.prefix_cons_iff.mp h with h | ⟨t, rfl, ht⟩
  · exact hn h
  · exact hr (by rw [List.prefix_nil.mp ht])

/-! ## One call -/

section

variable {env : Env} {root c : Config} {loc : Loc} {e : Entry}

theorem Config.set_keepsName (e : Entry) : KeepsName fun c => c.set env e := by
  intro c
  rw [show (c.set env e).name = (c.set env e).toNode.name from rfl, Config.set_toNode]

theorem Config.setLeafList_keepsName (e : Entry) : KeepsName fun c => c.setLeafList env e := by
  intro c
  rw [show (c.setLeafList env e).name = (c.setLeafList env e).toNode.name from rfl,
    Config.setLeafList, Config.modifyChild_toNode, Config.set_toNode]

theorem Config.get?_set (h : (c.configs.map (·.name)).Nodup)
    (hp : (c.lookup e.name).isSome ∨ c.kept e = c.configs) {r : Loc}
    (hr : ¬ r <+: [⟨.configs, e.name⟩]) : (c.set env e).get? r = c.get? r := by
  cases hn : c.lookup e.name with
  | some d => rw [Config.set_of_some hn]
  | none =>
    have hk : c.kept e = c.configs := by simpa [hn] using hp
    cases r with
    | nil => exact absurd List.nil_prefix hr
    | cons t r =>
      rw [Config.get?_cons, Config.get?_cons]
      by_cases ht : t = ⟨.configs, e.name⟩
      · subst ht
        have hr' : r ≠ [] := fun h => hr (h ▸ List.prefix_rfl)
        rw [Config.child?_set_self h, show c.child? ⟨.configs, e.name⟩ = none from hn, hn]
        exact Config.get?_bare _ hr'
      · rw [Config.child?_set_ne h hk ht]

theorem Config.node?_set (h : (c.configs.map (·.name)).Nodup)
    (hp : (c.lookup e.name).isSome ∨ c.kept e = c.configs) (r : Loc) :
    (c.set env e).node? r = Function.update c.node? [⟨.configs, e.name⟩]
      (some ((c.node? [⟨.configs, e.name⟩]).getD (newNode e))) r := by
  by_cases hr : r = [⟨.configs, e.name⟩]
  · subst hr
    rw [Function.update_self, Config.node?, Config.get?_single, Config.child?_set_self h,
      Config.node?, Config.get?_single]
    show some _ = some (((c.lookup e.name).map _).getD _)
    cases c.lookup e.name <;> rfl
  · rw [Function.update_of_ne hr]
    by_cases hn : r = []
    · subst hn
      rw [Config.node?, Config.node?, Config.get?_nil, Config.get?_nil, Option.map_some,
        Option.map_some, Config.set_toNode]
    · rw [Config.node?, Config.node?, Config.get?_set h hp (not_prefix_single hn hr)]

theorem Config.get?_setLeafList (h : (c.configs.map (·.name)).Nodup)
    (hp : (c.lookup e.name).isSome ∨ c.kept e = c.configs) {r : Loc}
    (hr : ¬ r <+: [⟨.configs, e.name⟩]) : (c.setLeafList env e).get? r = c.get? r := by
  rw [← Config.get?_set h hp hr]
  show (Config.modify _ [⟨.configs, e.name⟩] Config.clearList).get? r = _
  refine Config.get?_modify_frame (x := []) (fun _ => rfl)
    (Config.get?_single _ _ ▸ Config.child?_set_self h) (fun r hr => ?_) hr
  refine Config.get?_of_child? (fun s => ?_) fun hn => hr (hn ▸ List.nil_prefix)
  rfl

theorem Config.node?_setLeafList (h : (c.configs.map (·.name)).Nodup)
    (hp : (c.lookup e.name).isSome ∨ c.kept e = c.configs) (r : Loc) :
    (c.setLeafList env e).node? r = Function.update c.node? [⟨.configs, e.name⟩]
      (some { (c.node? [⟨.configs, e.name⟩]).getD (newNode e) with valueList := [] }) r := by
  have hd := Config.get?_single _ _ ▸ @Config.child?_set_self env c e h
  show (Config.modify _ [⟨.configs, e.name⟩] Config.clearList).node? r = _
  rw [Config.node?_modify_node (g := Config.clearList) (fun _ => rfl) hd (fun _ => rfl), funext (Config.node?_set h hp),
    Function.update_idem,
    show c.node? [⟨.configs, e.name⟩] = (c.lookup e.name).map (·.toNode) by
      rw [Config.node?, Config.get?_single]; rfl]
  cases c.lookup e.name <;> rfl

theorem Config.get?_addKey {key pre : String} (h : (c.keys.map (·.name)).Nodup)
    (hn : c.lookupKeyShallow key = none) {r : Loc} (hr : ¬ r <+: [⟨.keys, key⟩]) :
    (c.addKey env e key pre).get? r = c.get? r := by
  cases r with
  | nil => exact absurd List.nil_prefix hr
  | cons t r =>
    rw [Config.get?_cons, Config.get?_cons, Config.child?_addKey h hn]
    by_cases ht : t = ⟨.keys, key⟩
    · subst ht
      have hr' : r ≠ [] := fun h => hr (h ▸ List.prefix_rfl)
      rw [if_pos rfl, show c.child? ⟨.keys, key⟩ = none from hn]
      exact Config.get?_bare _ hr'
    · rw [if_neg ht]

theorem Config.node?_addKey {key pre : String} (h : (c.keys.map (·.name)).Nodup)
    (hn : c.lookupKeyShallow key = none) (r : Loc) : (c.addKey env e key pre).node? r =
      Function.update (Function.update c.node? [] (some (c.addKey env e key pre).toNode))
        [⟨.keys, key⟩] (some (newKey e key pre)) r := by
  by_cases hr : r = [⟨.keys, key⟩]
  · subst hr
    rw [Function.update_self, Config.node?, Config.get?_single, Config.child?_addKey h hn, if_pos rfl]
    rfl
  · rw [Function.update_of_ne hr]
    by_cases hnil : r = []
    · subst hnil
      rw [Function.update_self]
      rfl
    · rw [Function.update_of_ne hnil, Config.node?, Config.node?,
        Config.get?_addKey h hn (not_prefix_single hnil hr)]

/-- A plain call on the node at `loc` changes the store as `Op.update` says. -/
theorem Op.apply_node? {op : Op} (hc : root.get? loc = some c)
    (hn : ∀ s, ((c.slot s).map (·.name)).Nodup) (hp : op.Plain root loc) :
    (op.apply env (root, loc)).2 = loc ++ op.steps ∧
      (op.apply env (root, loc)).1.node? = op.update root.node? loc := by
  have hroot : root.node? loc = some c.toNode := Config.node?_eq hc
  cases op with
  | set e =>
    simp only [Op.Plain, hc] at hp
    simp only [Op.update, Op.steps, Config.node?_append hc]
    exact ⟨rfl, Config.node?_modify_update (Config.set_keepsName e) hc
      (Config.node?_set (hn .configs) hp)⟩
  | setLeafList e =>
    simp only [Op.Plain, hc] at hp
    simp only [Op.update, Op.steps, Config.node?_append hc]
    exact ⟨rfl, Config.node?_modify_update (Config.setLeafList_keepsName e) hc
      (Config.node?_setLeafList (hn .configs) hp)⟩
  | setKey e key pre =>
    simp only [Op.Plain, hc] at hp
    simp only [Op.update, Op.steps, Config.node?_append hc, Op.apply, Config.setKey, hp]
    cases hk : c.lookupKeyShallow key with
    | some d =>
      have : c.node? [⟨.keys, key⟩] = some d.toNode :=
        Config.node?_eq ((Config.get?_single _ _).trans hk)
      rw [this]
      exact ⟨rfl, rfl⟩
    | none =>
      have : c.node? [⟨.keys, key⟩] = none := by
        rw [Config.node?, Config.get?_single, show c.child? ⟨.keys, key⟩ = none from hk]
        rfl
      rw [this]
      simp only [Option.isSome_none, Bool.false_eq_true, if_false, hroot]
      refine ⟨trivial, Config.node?_modify_eq (g := fun d => d.addKey env e key pre) (fun _ => rfl) hc
        (fun r => ?_) fun l hl => ?_⟩
      · rw [Config.node?_addKey (hn .keys) hk]
        by_cases hr : r = [⟨.keys, key⟩]
        · rw [hr, Function.update_self, Function.update_self]
        · have hr' : loc ++ r ≠ loc ++ [⟨.keys, key⟩] := by simpa using hr
          rw [Function.update_of_ne hr, Function.update_of_ne hr']
          by_cases hnil : r = []
          · rw [hnil, List.append_nil, Function.update_self, Function.update_self]
            rfl
          · have hnil' : loc ++ r ≠ loc := by simpa using hnil
            rw [Function.update_of_ne hnil, Function.update_of_ne hnil', Config.node?_append hc]
      · rw [Function.update_of_ne, Function.update_of_ne]
        · rintro rfl
          exact hl List.prefix_rfl
        · rintro rfl
          exact hl (List.prefix_append _ _)
  | setValue v =>
    simp only [Op.update, Op.steps, List.append_nil, hroot]
    exact ⟨rfl, Config.node?_modify_node (g := fun d => d.setValue v) (fun _ => rfl) hc fun _ => rfl⟩
  | setListValue v =>
    simp only [Op.update, Op.steps, List.append_nil, hroot]
    exact ⟨rfl,
      Config.node?_modify_node (g := fun d => d.setListValue v) (fun _ => rfl) hc fun _ => rfl⟩

/-- A plain call on the node at `loc` keeps every subtree off its path. -/
theorem Op.apply_frame {op : Op} (hc : root.get? loc = some c)
    (hn : ∀ s, ((c.slot s).map (·.name)).Nodup) (hp : op.Plain root loc) {l : Loc}
    (hl : ¬ l <+: loc ++ op.steps) : (op.apply env (root, loc)).1.get? l = root.get? l := by
  cases op with
  | set e =>
    simp only [Op.Plain, hc] at hp
    exact Config.get?_modify_frame (Config.set_keepsName e) hc
      (fun r hr => Config.get?_set (hn .configs) hp hr) hl
  | setLeafList e =>
    simp only [Op.Plain, hc] at hp
    exact Config.get?_modify_frame (Config.setLeafList_keepsName e) hc
      (fun r hr => Config.get?_setLeafList (hn .configs) hp hr) hl
  | setKey e key pre =>
    simp only [Op.Plain, hc] at hp
    simp only [Op.apply, Config.setKey, hp]
    cases hk : c.lookupKeyShallow key with
    | some d => rfl
    | none =>
      exact Config.get?_modify_frame (g := fun d => d.addKey env e key pre) (fun _ => rfl) hc
        (fun r hr => Config.get?_addKey (hn .keys) hk hr) hl
  | setValue v =>
    refine Config.get?_modify_frame (g := fun d => d.setValue v) (fun _ => rfl) hc (fun r hr => ?_) hl
    refine Config.get?_of_child? (fun s => ?_) fun h : r = [] => hr (by rw [h]; exact List.nil_prefix)
    rfl
  | setListValue v =>
    refine Config.get?_modify_frame (g := fun d => d.setListValue v) (fun _ => rfl) hc
      (fun r hr => ?_) hl
    refine Config.get?_of_child? (fun s => ?_) fun h : r = [] => hr (by rw [h]; exact List.nil_prefix)
    rfl

end

end OpenConfigd
