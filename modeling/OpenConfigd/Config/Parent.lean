import OpenConfigd.Config.Edit

/-!
# Parent pointers

`Linked` is the tree with its pointers: a number for every node, the pointer the
slices hold at a place, and the field `Parent` of every node. The functions that
change a tree are given here as they follow and set `Parent`. In every run
`Parent` is the node that holds the node (`Wired`), and what the functions do to
the tree is what they do to it through places (`Linked.Run.edited`).
-/

namespace OpenConfigd

/-- A tree and its pointers. `place` is where a node was put, `addr` the pointer that
is held there, `parent` the field `Parent`, and `next` the next node `new` returns. -/
structure Linked where
  root : Config := {}
  addr : Loc → Nat := fun _ => 0
  place : Nat → Loc := fun _ => []
  parent : Nat → Option Nat := fun _ => none
  next : Nat := 1

namespace Linked

/-- The node a pointer points to. -/
def node? (h : Linked) (p : Nat) : Option Config := h.root.get? (h.place p)

/-- A new node in a slice of the node `p`, whose `Parent` is `p`. -/
def link (h : Linked) (p : Nat) (s : Step) : Linked :=
  let l := h.place p ++ [s]
  { h with
    addr := Function.update h.addr l h.next
    place := Function.update h.place h.next l
    parent := Function.update h.parent h.next (some p)
    next := h.next + 1 }

/-- The tree is changed at the node `p`. -/
def modify (h : Linked) (p : Nat) (f : Config → Config) : Linked :=
  { h with root := h.root.modify (h.place p) f }

section

variable (env : Env)

/-- `Set`. -/
def set (h : Linked) (p : Nat) (e : Entry) : Linked × Nat :=
  match (h.node? p).bind fun c => c.lookup e.name with
  | some _ => (h.modify p fun c => c.set env e, h.addr (h.place p ++ [⟨.configs, e.name⟩]))
  | none => ((h.modify p fun c => c.set env e).link p ⟨.configs, e.name⟩, h.next)

/-- `lookupKey`. -/
def lookupKey (h : Linked) (p : Nat) (key : String) : Nat × Option Nat :=
  match h.node? p with
  | none => (p, none)
  | some c =>
    if c.isKeyConfig then
      match h.parent p with
      | none => (p, none)
      | some q =>
        match (h.node? q).bind fun d => d.keys.find? fun k => (k.lookupKeyShallow key).isSome with
        | some k =>
          let l := h.place q ++ [⟨.keys, k.name⟩]
          (h.addr l, some (h.addr (l ++ [⟨.keys, key⟩])))
        | none => (p, none)
    else
      match c.lookupKeyShallow key with
      | some _ => (p, some (h.addr (h.place p ++ [⟨.keys, key⟩])))
      | none => (p, none)

/-- `SetKey`. -/
def setKey (h : Linked) (p : Nat) (e : Entry) (key pre : String) : Linked × Nat :=
  match h.lookupKey p key with
  | (_, some n) => (h, n)
  | (c, none) => ((h.modify c fun d => d.addKey env e key pre).link c ⟨.keys, key⟩, h.next)

/-- `SetLeafList`. -/
def setLeafList (h : Linked) (p : Nat) (e : Entry) : Linked × Nat :=
  let (h, n) := h.set env p e
  (h.modify n Config.clearList, n)

/-- A call of one of the `Set` functions on the node `p`. -/
def call (h : Linked) (p : Nat) : Op → Linked × Nat
  | .set e => h.set env p e
  | .setKey e key pre => h.setKey env p e key pre
  | .setLeafList e => h.setLeafList env p e
  | .setValue v => (h.modify p fun c => c.setValue v, p)
  | .setListValue v => (h.modify p fun c => c.setListValue v, p)

end

/-- The calls one after the other, each on the node the last one returned. -/
def calls (env : Env) (h : Linked) (p : Nat) (ops : List Op) : Linked × Nat :=
  ops.foldl (fun r op => r.1.call env r.2 op) (h, p)

/-- `c.Parent.Delete(c)` and `c.Parent.DeleteKey(c)`, which compare pointers. -/
def deleteChild (h : Linked) (slot : Slot) (p : Nat) : Linked :=
  match h.parent p with
  | none => h
  | some q => h.modify q fun d => d.withSlot slot
      ((d.slot slot).filter fun x => h.addr (h.place q ++ [⟨slot, x.name⟩]) ≠ p)

/-- The part of `Delete` before it turns to the parent. -/
def deleteStep (h : Linked) (p : Nat) (leaf : Bool) : Linked :=
  match h.node? p with
  | none => h
  | some c =>
    match c.entry with
    | none => h
    | some e =>
      match e.kind, leaf with
      | .leaf, true =>
        let h := if c.hasValue || isEmptyLeaf e then h.deleteChild .configs p else h
        if c.keyConfig then h.deleteChild .keys p else h
      | .leaf, false => if c.isEmpty && c.keyOnlyConfig then h.deleteChild .keys p else h
      | .directory, true => (h.modify p Config.clear).deleteChild .configs p
      | .directory, false => if c.isEmpty then h.deleteChild .configs p else h
      | _, _ => h

/-- `Delete` of a node that `n` nodes are above. -/
def deleteUp : Nat → Linked → Nat → Bool → Linked
  | 0, h, _, _ => h
  | n + 1, h, p, leaf =>
    let h := h.deleteStep p leaf
    match h.parent p with
    | none => h
    | some q =>
      if ((h.node? q).map Config.isPresence).getD false then h else deleteUp n h q false

/-- `Delete`. -/
def delete (h : Linked) (p : Nat) (leaf : Bool) : Linked := deleteUp (h.place p).length h p leaf

/-- `Parse` in set mode: what it does is fixed by the schema and the tokens. -/
def parse (env : Env) (ent : Entry) (h : Linked) (cmds : List String) :
    Option (ParseCode × Linked) :=
  (plan env cmds (.root ent)).map fun r => (r.1, (h.calls env (h.addr []) r.2).1)

/-- `ParseDelete`. -/
def parseDelete (h : Linked) (cmds : List String) : Option (ParseCode × Linked) :=
  (OpenConfigd.parseDelete h.root cmds).map fun r =>
    match r.code, deletePlace h.root cmds [] {} with
    | .parseSuccess, some loc => (r.code, h.delete (h.addr loc) true)
    | _, _ => (r.code, h)

end Linked

/-! ## Where `Parent` points to -/

/-- Every pointer of the tree points to the node at its place, and `Parent` is the
node that holds the node. -/
structure Wired (h : Linked) : Prop where
  place : ∀ l, (h.root.get? l).isSome → h.place (h.addr l) = l
  parent : ∀ l s, (h.root.get? (l ++ [s])).isSome → h.parent (h.addr (l ++ [s])) = some (h.addr l)
  top : h.parent (h.addr []) = none
  bound : ∀ l, (h.root.get? l).isSome → h.addr l < h.next

variable {env : Env} {ent : Entry} {h : Linked} {root' : Config} {loc : Loc} {s : Step}

theorem Wired.inj (hw : Wired h) {l l' : Loc} (hl : (h.root.get? l).isSome)
    (hl' : (h.root.get? l').isSome) (ha : h.addr l = h.addr l') : l = l' := by
  rw [← hw.place l hl, ha, hw.place l' hl']

theorem Wired.sub (hw : Wired h) (hsub : ∀ l, (root'.get? l).isSome → (h.root.get? l).isSome) :
    Wired { h with root := root' } :=
  ⟨fun l hl => hw.place l (hsub l hl), fun l s hl => hw.parent l s (hsub _ hl), hw.top,
    fun l hl => hw.bound l (hsub l hl)⟩

/-- A new node in the tree, whose `Parent` is the node that holds it. -/
theorem Wired.link (hw : Wired h) (hloc : (h.root.get? loc).isSome)
    (hnone : h.root.get? (loc ++ [s]) = none)
    (hsub : ∀ l, (root'.get? l).isSome → (h.root.get? l).isSome ∨ l = loc ++ [s]) :
    Wired (Linked.link { h with root := root' } (h.addr loc) s) ∧
      (Linked.link { h with root := root' } (h.addr loc) s).addr (loc ++ [s]) = h.next := by
  have hp : h.place (h.addr loc) = loc := hw.place loc hloc
  have hne {l : Loc} (hl : (h.root.get? l).isSome) : l ≠ loc ++ [s] := by
    rintro rfl
    rw [hnone] at hl
    cases hl
  have hnext {l : Loc} (hl : (h.root.get? l).isSome) : h.addr l ≠ h.next := by
    have := hw.bound l hl
    omega
  have haddr : (Linked.link { h with root := root' } (h.addr loc) s).addr =
      Function.update h.addr (loc ++ [s]) h.next := by
    show Function.update h.addr (h.place (h.addr loc) ++ [s]) h.next = _
    rw [hp]
  have hplace : (Linked.link { h with root := root' } (h.addr loc) s).place =
      Function.update h.place h.next (loc ++ [s]) := by
    show Function.update h.place h.next (h.place (h.addr loc) ++ [s]) = _
    rw [hp]
  have hparent : (Linked.link { h with root := root' } (h.addr loc) s).parent =
      Function.update h.parent h.next (some (h.addr loc)) := rfl
  refine ⟨⟨fun l hl => ?_, fun l t hl => ?_, ?_, fun l hl => ?_⟩, ?_⟩
  · rw [haddr, hplace]
    rcases hsub l hl with hl | rfl
    · rw [Function.update_of_ne (hne hl), Function.update_of_ne (hnext hl), hw.place l hl]
    · rw [Function.update_self, Function.update_self]
  · rw [haddr, hparent]
    rcases hsub (l ++ [t]) hl with hl | heq
    · rw [Function.update_of_ne (hne hl), Function.update_of_ne (hnext hl), hw.parent l t hl,
        Function.update_of_ne (hne (Config.get?_prefix hl))]
    · obtain ⟨rfl, rfl⟩ : l = loc ∧ t = s := by simpa using heq
      rw [Function.update_self, Function.update_self, Function.update_of_ne (by simp)]
  · have hroot : (h.root.get? []).isSome := rfl
    rw [haddr, hparent, Function.update_of_ne (hne hroot), Function.update_of_ne (hnext hroot)]
    exact hw.top
  · show _ < h.next + 1
    rw [haddr]
    rcases hsub l hl with hl | rfl
    · rw [Function.update_of_ne (hne hl)]
      exact Nat.lt_succ_of_lt (hw.bound l hl)
    · rw [Function.update_self]
      exact Nat.lt_succ_self _
  · rw [haddr, Function.update_self]

/-! ## The `Set` functions -/

theorem Moves.present {root : Config} {loc' : Loc} {cur : Cursor}
    (hm : Moves env ent (root, loc) (root', loc') cur) {l : Loc} (hl : (root'.get? l).isSome) :
    (root.get? l).isSome ∨ l <+: loc' := by
  by_cases hp : l <+: loc'
  · exact .inr hp
  · rcases hm.sub l hp with he | he
    · exact .inl (he ▸ hl)
    · rw [show root'.get? l = none from he] at hl
      cases hl

theorem Config.isSome_modify_node {root c : Config} {g : Config → Config} (hg : KeepsName g)
    (hc : root.get? loc = some c) (h : ∀ s, (g c).child? s = c.child? s) (l : Loc) :
    ((root.modify loc g).get? l).isSome = (root.get? l).isSome := by
  have hn := congrFun (Config.node?_modify_node hg hc h) l
  have hiff (d : Config) : (d.get? l).isSome = (d.node? l).isSome := by
    rw [Config.node?, Option.isSome_map]
  rw [hiff, hiff, hn]
  by_cases hl : l = loc
  · rw [hl, Function.update_self, Config.node?_eq hc]
    rfl
  · rw [Function.update_of_ne hl]

section

variable {cur : Cursor} {str : String} {e : Entry}

/-- A tree with its pointers, and one of them, stand for the tree and a place. -/
structure Linked.Holds (r : Linked × Nat) (q : Config × Loc) : Prop where
  wired : Wired r.1
  root : r.1.root = q.1
  addr : r.2 = r.1.addr q.2

theorem Wired.set (hw : Wired h) (hst : Stands env ent (h.root, loc) cur) (hd : cur.isDir = true)
    (hs : cur.Selects env str e) :
    Linked.Holds (h.set env (h.addr loc) e) ((Op.set e).apply env (h.root, loc)) := by
  obtain ⟨cur₁, c, hwk, -⟩ := hst.on
  have hc := Config.get?_of_walk hwk
  have hloc : (h.root.get? loc).isSome := by
    rw [show h.root.get? loc = some c from hc]
    rfl
  have hp : h.place (h.addr loc) = loc := hw.place loc hloc
  have hm := hst.set hd hs
  have hnode : h.node? (h.addr loc) = some c := by
    rw [Linked.node?, hp]
    exact hc
  have hch : h.root.get? (loc ++ [⟨.configs, e.name⟩]) = c.lookup e.name := by
    rw [Config.get?_append, show h.root.get? loc = some c from hc, Option.bind_some,
      Config.get?_single]
    rfl
  have hmod : h.modify (h.addr loc) (fun c => c.set env e) =
      { h with root := h.root.modify loc fun c => c.set env e } := by
    rw [Linked.modify, hp]
  rw [Linked.set, hnode, Option.bind_some, hmod]
  cases hl : c.lookup e.name with
  | some d =>
    refine ⟨hw.sub fun l hl' => ?_, rfl, by rw [hp]; rfl⟩
    rcases hm.present hl' with hin | hpre
    · exact hin
    · exact Config.isSome_of_prefix (by rw [hch, hl]; rfl) hpre
  | none =>
    have hlink := @Wired.link h (h.root.modify loc fun c => c.set env e) loc ⟨.configs, e.name⟩ hw
      hloc (hch.trans hl) fun l hl' => ?_
    · exact ⟨hlink.1, rfl, hlink.2.symm⟩
    · rcases hm.present hl' with hin | hpre
      · exact .inl hin
      · rcases List.prefix_concat_iff.mp hpre with heq | hpre
        · exact .inr heq
        · exact .inl (Config.isSome_of_prefix hloc hpre)

theorem Wired.value (hw : Wired h) {c : Config} {g : Config → Config} (hg : KeepsName g)
    (hc : h.root.get? loc = some c) (hch : ∀ s, (g c).child? s = c.child? s) :
    Linked.Holds (h.modify (h.addr loc) g, h.addr loc) (h.root.modify loc g, loc) := by
  have hp : h.place (h.addr loc) = loc := hw.place loc (by rw [hc]; rfl)
  rw [Linked.modify, hp]
  refine ⟨hw.sub fun l hl => ?_, rfl, rfl⟩
  rwa [Config.isSome_modify_node hg hc hch] at hl

theorem Wired.setLeafList (hw : Wired h) (hst : Stands env ent (h.root, loc) cur)
    (hd : cur.isDir = true) (hs : cur.Selects env str e) :
    Linked.Holds (h.setLeafList env (h.addr loc) e)
      ((Op.setLeafList e).apply env (h.root, loc)) := by
  have h₁ := hw.set hst hd hs
  obtain ⟨-, c, d, -, hwd⟩ := hst.walk_set hd hs
  rw [Linked.setLeafList]
  generalize h.set env (h.addr loc) e = r at h₁
  obtain ⟨h', n⟩ := r
  obtain ⟨hw', hroot, haddr⟩ := h₁
  have hd' : h'.root.get? (loc ++ [⟨.configs, e.name⟩]) = some d := by
    rw [hroot]
    exact Config.get?_of_walk hwd
  have h₂ := hw'.value (g := Config.clearList) (fun _ => rfl) hd' fun _ => rfl
  simp only [Op.apply] at haddr hroot ⊢
  rw [Config.modify_setLeafList, ← hroot, haddr]
  exact h₂

/-- Through `Parent`, `lookupKey` finds what it finds through places. -/
theorem Wired.lookupKey (hw : Wired h) {c : Config}
    (hwk : h.root.walk (.root ent) loc = some (cur, c)) (hk : cur.state = .stateKey)
    (key : String) :
    h.lookupKey (h.addr loc) key =
      (h.addr (Config.lookupKey h.root loc key).1,
        (Config.lookupKey h.root loc key).2.map h.addr) := by
  have hc := Config.get?_of_walk hwk
  have hp : h.place (h.addr loc) = loc := hw.place loc (by rw [hc]; rfl)
  have hnode : h.node? (h.addr loc) = some c := by
    rw [Linked.node?, hp]
    exact hc
  simp only [Linked.lookupKey, Config.lookupKey, hnode, hc]
  by_cases hkc : c.isKeyConfig = true
  · rw [if_pos hkc, if_pos hkc]
    rcases List.eq_nil_or_concat loc with rfl | ⟨pre, s, rfl⟩
    · cases hwk
      cases hk
    · rw [List.concat_eq_append] at hc hp ⊢
      have hsome : (h.root.get? (pre ++ [s])).isSome := by
        rw [hc]
        rfl
      obtain ⟨d, hd⟩ := Option.isSome_iff_exists.mp (Config.get?_prefix hsome)
      have hpp : h.place (h.addr pre) = pre := hw.place pre (by rw [hd]; rfl)
      simp only [hw.parent pre s hsome, Linked.node?, hpp, List.dropLast_concat, hd,
        Option.bind_some]
      cases d.keys.find? fun k => (k.lookupKeyShallow key).isSome with
      | none => rfl
      | some k => simp
  · rw [if_neg hkc, if_neg hkc]
    cases c.lookupKeyShallow key with
    | none => rfl
    | some d => simp only [hp, Option.map_some]

theorem Wired.setKey (hw : Wired h) (hst : Stands env ent (h.root, loc) cur)
    (hk : cur.state = .stateKey) (hs : cur.Selects env str e) :
    Linked.Holds (h.setKey env (h.addr loc) e str cur.ent.name)
      ((Op.setKey e str cur.ent.name).apply env (h.root, loc)) := by
  obtain ⟨cur₁, c, hwk, hon⟩ := hst.on
  obtain rfl : cur₁ = cur := hon.eq (by simp [hk])
  have hc := Config.get?_of_walk hwk
  have hm := hst.setKey hk hs
  rw [Op.apply, Config.setKey] at hm ⊢
  rw [Linked.setKey, hw.lookupKey hwk hk]
  rcases hst.typed.lookupKey_cases hwk hk str with hl | ⟨_, _, _, _, _, -, -, -, -, -, -, -, hl⟩
  · have hl : Config.lookupKey h.root loc str = _ := hl
    rw [hl] at hm ⊢
    cases hn : c.lookupKeyShallow str with
    | some d => exact ⟨hw, rfl, rfl⟩
    | none =>
      rw [hn] at hm
      have hloc : (h.root.get? loc).isSome := by
        rw [show h.root.get? loc = some c from hc]
        rfl
      have hp : h.place (h.addr loc) = loc := hw.place loc hloc
      have hnone : h.root.get? (loc ++ [⟨.keys, str⟩]) = none := by
        rw [Config.get?_append, show h.root.get? loc = some c from hc, Option.bind_some,
          Config.get?_single]
        exact hn
      simp only [Option.isSome_none, Bool.false_eq_true, if_false, Option.map_none, Linked.modify,
        hp] at hm ⊢
      have hlink := @Wired.link h (h.root.modify loc fun d => d.addKey env e str cur₁.ent.name) loc
        ⟨.keys, str⟩ hw hloc hnone fun l hl' => ?_
      · exact ⟨hlink.1, rfl, hlink.2.symm⟩
      · rcases hm.present hl' with hin | hpre
        · exact .inl hin
        · rcases List.prefix_concat_iff.mp hpre with heq | hpre
          · exact .inr heq
          · exact .inl (Config.isSome_of_prefix hloc hpre)
  · have hl : Config.lookupKey h.root loc str = _ := hl
    rw [hl]
    exact ⟨hw, rfl, rfl⟩

/-- A token of set mode, through pointers. -/
theorem Wired.call (hw : Wired h) (hst : Stands env ent (h.root, loc) cur)
    (hs : cur.Selects env str e) :
    Linked.Holds (h.call env (h.addr loc) (cur.op e str))
      ((cur.op e str).apply env (h.root, loc)) := by
  obtain ⟨cur₁, c, hwk, hon⟩ := hst.on
  have hc := Config.get?_of_walk hwk
  rw [Cursor.op]
  split
  case h_1 | h_2 | h_3 =>
    rename_i hstate
    have hd : cur.isDir = true := by rw [Cursor.isDir, hstate]
    split
    · exact hw.setLeafList hst hd hs
    · exact hw.set hst hd hs
  case h_4 hstate => exact hw.setKey hst hstate hs
  case h_5 | h_6 => exact hw.value (g := fun c => c.setValue str) (fun _ => rfl) hc fun _ => rfl
  case h_7 | h_8 => exact hw.value (g := fun c => c.setListValue str) (fun _ => rfl) hc fun _ => rfl

theorem Wired.calls {cmds : List String} {ops : List Op} {cur' : Cursor}
    (htr : Trace env cur cmds ops cur') (hw : Wired h) (hst : Stands env ent (h.root, loc) cur) :
    Linked.Holds (h.calls env (h.addr loc) ops) (applyOps env ops (h.root, loc)) := by
  induction htr generalizing h loc with
  | nil => exact ⟨hw, rfl, rfl⟩
  | @cons cur cur' str e cmds ops hs _ ih =>
    have h₁ := hw.call hst hs
    have hst' := (hst.step hs).stands
    rw [Linked.calls, applyOps, List.foldl_cons, List.foldl_cons]
    generalize h.call env (h.addr loc) (cur.op e str) = r at h₁
    generalize (cur.op e str).apply env (h.root, loc) = q at h₁ hst'
    obtain ⟨h', p'⟩ := r
    obtain ⟨root', loc'⟩ := q
    obtain ⟨hw', hroot, haddr⟩ := h₁
    simp only at hroot haddr
    subst hroot haddr
    exact ih hw' hst'

end

/-! ## Delete -/

section

variable {pre : Loc} {leaf : Bool}

/-- Comparing pointers takes the node that stands at the place, if the slice is its own. -/
theorem Wired.deleteChild (hw : Wired h) (hg : (h.root.get? (pre ++ [s])).isSome) (slot : Slot) :
    h.deleteChild slot (h.addr (pre ++ [s])) =
      if slot = s.slot then { h with root := h.root.without pre s } else h := by
  have hp : h.place (h.addr pre) = pre := hw.place pre (Config.get?_prefix hg)
  have hsame (d x : Config) (hd : h.root.get? pre = some d) (hx : x ∈ d.slot slot) :
      h.addr (pre ++ [⟨slot, x.name⟩]) = h.addr (pre ++ [s]) ↔ slot = s.slot ∧ x.name = s.name := by
    have hin : (h.root.get? (pre ++ [⟨slot, x.name⟩])).isSome := by
      rw [Config.get?_append, hd, Option.bind_some, Config.get?_single]
      exact Keyed.get_isSome.mpr ⟨x, hx, rfl⟩
    constructor
    · intro ha
      have hs := hw.inj hin hg ha
      simp only [List.append_cancel_left_eq, List.cons.injEq, and_true] at hs
      rw [← hs]
      exact ⟨rfl, rfl⟩
    · rintro ⟨rfl, hn⟩
      rw [hn]
  rw [Linked.deleteChild, hw.parent pre s hg]
  simp only [Linked.modify, hp]
  split
  · rename_i hs
    congr 1
    refine Config.modify_congr fun d hd => ?_
    rw [Config.deleteChild, hs]
    congr 1
    refine List.filter_congr fun x hx => ?_
    have := hsame d x hd (hs ▸ hx)
    simp only [hs, true_and] at this
    simp only [ne_eq, this]
  · rename_i hs
    congr 1
    refine Config.modify_self fun d hd => ?_
    have hall : (d.slot slot).filter
        (fun x => h.addr (pre ++ [⟨slot, x.name⟩]) ≠ h.addr (pre ++ [s])) = d.slot slot := by
      refine List.filter_eq_self.mpr fun x hx => ?_
      simp [hsame d x hd hx, hs]
    rw [hall, Config.withSlot_self]

theorem Wired.clear (hw : Wired h) (l : Loc) :
    Wired { h with root := h.root.modify l Config.clear } :=
  hw.sub fun _ hl => (Config.partOf_clear h.root l).isSome hl

/-- One level of `Delete` through `Parent` is one level through places. -/
theorem Wired.deleteStep (hw : Wired h) (ht : Typed env (.root ent) h.root)
    (hg : (h.root.get? (pre ++ [s])).isSome) :
    h.deleteStep (h.addr (pre ++ [s])) leaf =
      { h with root := OpenConfigd.deleteStep h.root pre s leaf } := by
  obtain ⟨c, hc⟩ := Option.isSome_iff_exists.mp hg
  have hp : h.place (h.addr (pre ++ [s])) = pre ++ [s] := hw.place _ hg
  have hnode : h.node? (h.addr (pre ++ [s])) = some c := by
    rw [Linked.node?, hp]
    exact hc
  obtain ⟨cur, hwk, -⟩ := ht.walk_of_get hc
  obtain ⟨cur₁, p, e, hwp, hch, he, -⟩ := Config.walk_snoc hwk
  obtain ⟨e', hedge, -⟩ := (ht.of_walk hwp).child?_edge hch
  have hconfigs : s.slot = .configs → c.keyConfig = false := by
    intro hs
    rw [hs] at hedge
    rw [show c.keyConfig = c.toNode.keyConfig from rfl, hedge.2.2]
    rfl
  have hpresent : ((h.root.modify (pre ++ [s]) Config.clear).get? (pre ++ [s])).isSome := by
    rw [Config.get?_modify_self (f := Config.clear) (fun _ => rfl), hc]
    rfl
  have hclear := (hw.clear (pre ++ [s])).deleteChild hpresent .configs
  obtain ⟨kind, hk⟩ : ∃ kind, e.kind = kind := ⟨_, rfl⟩
  obtain ⟨slot, hs⟩ : ∃ slot, s.slot = slot := ⟨_, rfl⟩
  simp only [Linked.deleteStep, OpenConfigd.deleteStep, hnode, hc, he, hk, hs, Linked.modify, hp,
    hw.deleteChild hg]
  cases slot with
  | configs =>
    have hkc := hconfigs hs
    rw [hs] at hclear
    cases kind <;> cases leaf <;> simp only [hkc, Bool.false_eq_true, if_false, if_true, reduceCtorEq,
      ite_self]
    all_goals first | rfl | exact hclear | (split <;> rfl)
  | keys =>
    rw [hs] at hclear
    cases kind <;> cases leaf <;> simp only [if_false, if_true, reduceCtorEq,
      ite_self, hw.deleteChild hg, hs]
    all_goals first | rfl | exact hclear | (split <;> rfl)

theorem Wired.deleteUp (hw : Wired h) (ht : Typed env (.root ent) h.root) {rev : List Step}
    (hg : (h.root.get? rev.reverse).isSome) :
    h.deleteUp rev.length (h.addr rev.reverse) leaf =
      { h with root := OpenConfigd.deleteUp h.root rev leaf } := by
  induction rev generalizing h leaf with
  | nil => rfl
  | cons s rev ih =>
    rw [List.reverse_cons] at hg ⊢
    have hpre : (h.root.get? rev.reverse).isSome := Config.get?_prefix hg
    rw [List.length_cons, Linked.deleteUp, hw.deleteStep ht hg, OpenConfigd.deleteUp]
    simp only [hw.parent rev.reverse s hg, Linked.node?, hw.place rev.reverse hpre]
    split
    · rfl
    · have hpart := deleteStep_partOf h.root rev.reverse s leaf
      have hw' : Wired { h with root := OpenConfigd.deleteStep h.root rev.reverse s leaf } :=
        hw.sub fun _ hl => hpart.isSome hl
      exact ih hw' (ht.deleteStep _ _ _) (deleteStep_parent hpre)

end

/-! ## Runs -/

/-- The trees that calls of set-mode `Parse`, `ParseDelete` and `Delete` reach from
the empty root, whatever they return. -/
inductive Linked.Run (env : Env) (ent : Entry) : Linked → Prop
  | empty : Run env ent {}
  | parse {h h' : Linked} {cmds : List String} {code : ParseCode} : Run env ent h →
    h.parse env ent cmds = some (code, h') → Run env ent h'
  | parseDelete {h h' : Linked} {cmds : List String} {code : ParseCode} : Run env ent h →
    h.parseDelete cmds = some (code, h') → Run env ent h'
  | delete {h : Linked} {loc : Loc} (leaf : Bool) : Run env ent h →
    (h.root.get? loc).isSome → Run env ent (h.delete (h.addr loc) leaf)

theorem Wired.empty : Wired {} := by
  have hnil {l : Loc} (hl : ((({} : Linked).root).get? l).isSome) : l = [] := by
    by_contra hn
    rw [show ({} : Linked).root = ({} : Node).bare from rfl, Config.get?_bare _ hn] at hl
    cases hl
  refine ⟨fun l hl => (hnil hl).symm, fun l s hl => ?_, rfl, fun l _ => Nat.one_pos⟩
  have := hnil hl
  simp at this

theorem Wired.delete (hw : Wired h) (ht : Typed env (.root ent) h.root)
    (hg : (h.root.get? loc).isSome) (leaf : Bool) :
    h.delete (h.addr loc) leaf = { h with root := OpenConfigd.delete h.root loc leaf } := by
  have := @Wired.deleteUp env ent h leaf hw ht loc.reverse (by rw [List.reverse_reverse]; exact hg)
  rw [List.length_reverse, List.reverse_reverse] at this
  rw [Linked.delete, hw.place loc hg, this]
  rfl

theorem Linked.Run.edited (hr : h.Run env ent) : Edited env ent h.root ∧ Wired h := by
  induction hr with
  | empty => exact ⟨.empty, .empty⟩
  | @parse h h' cmds code _ hp ih =>
    obtain ⟨⟨code', ops⟩, hplan, heq⟩ := Option.map_eq_some_iff.mp hp
    obtain ⟨cmds', cur, -, htr, -⟩ := plan_trace hplan
    have hd := Wired.calls htr ih.2 (.start ih.1.typed)
    rw [← (Prod.mk.inj heq).2]
    refine ⟨?_, hd.wired⟩
    rw [hd.root]
    have hparse : OpenConfigd.parse env ent h.root cmds = some (code'.result (applyOps env ops (h.root, [])).1) := by
      rw [parse_eq_plan, hplan]
      rfl
    exact ih.1.parse hparse
  | @parseDelete h h' cmds code _ hp ih =>
    obtain ⟨r, hr, heq⟩ := Option.map_eq_some_iff.mp hp
    obtain ⟨hn, htree⟩ | ⟨hs, loc, hloc, hg, htree⟩ := parseDelete_cases hr
    · have : h' = h := by
        split at heq
        · rename_i hs _
          exact absurd hs hn
        · exact (Prod.mk.inj heq).2.symm
      rw [this]
      exact ih
    · simp only [hs, hloc] at heq
      rw [← (Prod.mk.inj heq).2, ih.2.delete ih.1.typed hg]
      refine ⟨ih.1.delete true hg, ih.2.sub fun l hl => ?_⟩
      exact (deleteUp_partOf _ _ _).isSome hl
  | @delete h loc leaf _ hg ih =>
    rw [ih.2.delete ih.1.typed hg]
    refine ⟨ih.1.delete leaf hg, ih.2.sub fun l hl => ?_⟩
    exact (deleteUp_partOf _ _ _).isSome hl

theorem Typed.slots {cur : Cursor} {c : Config} (ht : Typed env cur c) :
    (∀ d ∈ c.configs, d.keyConfig = false) ∧ ∀ d ∈ c.keys, d.keyConfig = true := by
  refine ⟨fun d hd => ?_, fun d hd => ?_⟩
  · obtain ⟨e, hedge⟩ := ht.edge .configs d hd
    rw [show d.keyConfig = d.toNode.keyConfig from rfl, hedge.2.2]
    rfl
  · obtain ⟨e, hedge⟩ := ht.edge .keys d hd
    rw [show d.keyConfig = d.toNode.keyConfig from rfl, hedge.2.2.1]
    rfl

/-- In every run `Parent` is the node that holds the node, no node is held twice,
siblings have distinct names, keys and only keys are in `Keys`, and a successful
`ParseDelete` leaves no node above the one it removes that is a container without
presence, a list or a key that more keys follow, and has no children. -/
theorem representation_invariant (hf : FindsRegular env) (hall : ent.All Entry.Regular)
    (hr : h.Run env ent) :
    (∀ l s, (h.root.get? (l ++ [s])).isSome →
      h.parent (h.addr (l ++ [s])) = some (h.addr l)) ∧
    (∀ l l', (h.root.get? l).isSome → (h.root.get? l').isSome → h.addr l = h.addr l' → l = l') ∧
    (∀ l c, h.root.get? l = some c → (c.configs.map (·.name)).Nodup ∧ (c.keys.map (·.name)).Nodup ∧
      (∀ d ∈ c.configs, d.keyConfig = false) ∧ ∀ d ∈ c.keys, d.keyConfig = true) ∧
    ∀ cmds h', h.parseDelete cmds = some (.parseSuccess, h') →
      ∃ loc, deletePlace h.root cmds [] {} = some loc ∧
        ∀ l cur c, l ≠ [] → l <+: loc.dropLast → h'.root.walk (.root ent) l = some (cur, c) →
          Inner cur c → c.isEmpty = false := by
  obtain ⟨he, hw⟩ := hr.edited
  have ht := he.typed
  refine ⟨hw.parent, fun l l' hl hl' => hw.inj hl hl', fun l c hc => ?_, fun cmds h' hp => ?_⟩
  · obtain ⟨cur, -, htc⟩ := ht.walk_of_get hc
    exact ⟨htc.nodup .configs, htc.nodup .keys, htc.slots⟩
  · obtain ⟨r, hr, heq⟩ := Option.map_eq_some_iff.mp hp
    have hs : r.code = .parseSuccess := by
      split at heq <;> exact (Prod.mk.inj heq).1
    obtain ⟨loc, hloc, htree, hset⟩ := parseDelete_settled hf hall he hr hs
    obtain ⟨hn, -⟩ | ⟨-, loc', hloc', hg, -⟩ := parseDelete_cases hr
    · exact absurd hs hn
    · rw [hloc] at hloc'
      cases hloc'
      simp only [hs, hloc] at heq
      rw [htree] at hset
      refine ⟨loc, hloc, ?_⟩
      rw [← (Prod.mk.inj heq).2, hw.delete ht hg]
      exact hset

theorem routesSchema_regular : routesSchema.All Entry.Regular := by
  decide

/-- A list entry of two keys, and its removal. -/
theorem representation_invariant_routes : ∃ h h' : Linked,
    ({} : Linked).parse .ascii routesSchema ["routes", "route", "a", "x"] =
      some (.parseSuccess, h) ∧
    h.parseDelete ["routes", "route", "a", "x"] = some (.parseSuccess, h') ∧
    h.parent (h.addr [⟨.configs, "routes"⟩, ⟨.configs, "route"⟩, ⟨.keys, "a"⟩]) =
      some (h.addr [⟨.configs, "routes"⟩, ⟨.configs, "route"⟩]) := by
  obtain ⟨⟨code, h⟩, hp, hx⟩ := Option.bind_eq_some_iff.mp (show
    (({} : Linked).parse .ascii routesSchema ["routes", "route", "a", "x"]).bind (fun r =>
      (r.2.parseDelete ["routes", "route", "a", "x"]).map fun r' => ([r.1, r'.1],
        (r.2.root.get? [⟨.configs, "routes"⟩, ⟨.configs, "route"⟩, ⟨.keys, "a"⟩]).isSome)) =
    some ([.parseSuccess, .parseSuccess], true) by decide +kernel)
  obtain ⟨⟨code', h'⟩, hd, hx⟩ := Option.map_eq_some_iff.mp hx
  simp only [Prod.mk.injEq, List.cons.injEq, and_true] at hx
  obtain ⟨⟨rfl, rfl⟩, hg⟩ := hx
  have hinv := representation_invariant ascii_findsRegular routesSchema_regular (.parse .empty hp)
  exact ⟨h, h', hp, hd, hinv.1 [⟨.configs, "routes"⟩, ⟨.configs, "route"⟩] ⟨.keys, "a"⟩ hg⟩

end OpenConfigd
