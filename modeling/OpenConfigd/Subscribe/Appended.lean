import OpenConfigd.Subscribe.Routing

/-!
# The path that a command is queued with

`PathRegisterCommand` collects the tokens of every node that it goes through, and queues the command
with all of them on the subscriptions of the last node that has any. `Commit` looks the tree up by
that path, which is kept as one text with `|` between the tokens.

* `Trie.walk_path`: the tokens are those of the whole route;
* `Registry.Placed.run`: the subscriptions on a node were registered with the names from the root to
  it, also those that are deleted since;
* `appended_iff`: for which commands the path is what the pattern matches.
-/

namespace OpenConfigd

/-- The path that `Commit` of a subscription looks up, of the text that `Append` makes. -/
def lookupPath (path : List String) : List String :=
  (("|".intercalate path).toList.splitOn '|').map String.ofList

theorem notMem_of_mem_splitOn {c : Char} {text l : List Char} (h : l ∈ text.splitOn c) : c ∉ l := by
  induction text generalizing l with
  | nil =>
    rw [List.splitOn_nil, List.mem_singleton] at h
    rw [h]
    exact List.not_mem_nil
  | cons d text ih =>
    rw [List.splitOn_cons_eq_if_modifyHead] at h
    obtain ⟨first, rest, hsplit⟩ := List.exists_cons_of_ne_nil (List.splitOn_ne_nil c text)
    rw [hsplit] at h ih
    split at h
    · rcases List.mem_cons.mp h with rfl | h
      · exact List.not_mem_nil
      · exact ih h
    · next hd =>
      rw [List.modifyHead_cons] at h
      rcases List.mem_cons.mp h with rfl | h
      · have hne : c ≠ d := fun heq => hd (by simp [heq])
        rw [List.mem_cons, not_or]
        exact ⟨hne, ih List.mem_cons_self⟩
      · exact ih (List.mem_cons_of_mem _ h)

/-- A path is found again in its text just if no token has a `|`. -/
theorem lookupPath_eq_self {path : List String} (hne : path ≠ []) :
    lookupPath path = path ↔ ∀ t ∈ path, '|' ∉ t.toList := by
  rw [lookupPath]
  constructor
  · intro heq t ht
    rw [← heq] at ht
    obtain ⟨l, hl, rfl⟩ := List.mem_map.mp ht
    rw [String.toList_ofList]
    exact notMem_of_mem_splitOn hl
  · intro hbar
    have hjoin : ("|".intercalate path).toList = ['|'].intercalate (path.map String.toList) :=
      String.toList_intercalate
    rw [hjoin, List.splitOn_intercalate '|' (by simpa using hbar) (by simpa using hne), List.map_map]
    simp

namespace Trie

variable {h h' : Trie} {p q i : Nat} {cmds v w : List String}

/-! ## The tokens of a route -/

/-- The loop of `PathRegisterCommand` collects a token for every node of the route. -/
theorem walk_path (h : Trie) (p : Nat) (cmds path : List String) (last : Option Nat) :
    (h.walk p cmds path last).1 = path ++ cmds.take (h.route p cmds).length := by
  induction cmds generalizing p path last with
  | nil => simp [walk]
  | cons lit cmds ih =>
    rw [walk]
    cases hor : ((h.node p).map lit).or ((h.node p).map "*") with
    | none =>
      rw [route_none hor]
      simp
    | some m =>
      obtain ⟨t, hr, -⟩ := route_some cmds hor
      simp only [ih, hr, List.length_cons, List.take_succ_cons, List.append_assoc, List.singleton_append]

theorem length_route_le (h : Trie) (p : Nat) (cmds : List String) : (h.route p cmds).length ≤ cmds.length := by
  induction cmds generalizing p with
  | nil => rfl
  | cons lit cmds ih =>
    cases hor : ((h.node p).map lit).or ((h.node p).map "*") with
    | none =>
      rw [route_none hor]
      exact Nat.zero_le _
    | some m =>
      obtain ⟨t, hr, -⟩ := route_some cmds hor
      rw [hr, List.length_cons, List.length_cons]
      exact Nat.succ_le_succ (ih m)

/-- A route goes on from each of its nodes. -/
theorem route_eq_append {m : Nat} (hv : v <+: h.route p cmds) (hf : h.follow p v = some m) :
    h.route p cmds = v ++ h.route m (cmds.drop v.length) := by
  induction cmds generalizing p v with
  | nil =>
    rw [route, List.prefix_nil] at hv
    subst hv
    rfl
  | cons lit cmds ih =>
    rcases v with _ | ⟨t, v⟩
    · obtain rfl : p = m := Option.some.inj hf
      rfl
    · cases hor : ((h.node p).map lit).or ((h.node p).map "*") with
      | none =>
        rw [route_none hor, List.prefix_nil] at hv
        cases hv
      | some q =>
        obtain ⟨u, hr, hq⟩ := route_some cmds hor
        rw [hr] at hv ⊢
        obtain ⟨rfl, hpre⟩ := List.cons_prefix_cons.mp hv
        rw [follow, hq, Option.bind_some] at hf
        have hrest := ih hpre hf
        rw [hrest]
        rfl

theorem route_eq_nil : h.route p cmds = [] ↔
    ∀ c, cmds[0]? = some c → (h.node p).map c = none ∧ (h.node p).map "*" = none := by
  cases cmds with
  | nil => simp [route]
  | cons lit cmds =>
    have hzero : (lit :: cmds)[0]? = some lit := rfl
    simp only [hzero, Option.some.injEq, forall_eq']
    constructor
    · intro hr
      rw [← Option.or_eq_none_iff]
      cases hor : ((h.node p).map lit).or ((h.node p).map "*") with
      | none => rfl
      | some m =>
        obtain ⟨t, hcons, -⟩ := route_some cmds hor
        rw [hcons] at hr
        cases hr
    · intro hnone
      exact route_none (Option.or_eq_none_iff.mpr hnone)

/-! ## The names from the root -/

/-- The names of the nodes from `RootPath` to a node. -/
inductive Spells (h : Trie) : Nat → List String → Prop where
  | root : Spells h 0 []
  | child {q i : Nat} {v : List String} : Spells h q v → (h.node i).parent = some q →
      Spells h i (v ++ [(h.node i).name])

theorem Shaped.spells_of_follow (hs : h.Shaped) (hf : h.follow 0 v = some i) : h.Spells i v := by
  induction v using List.reverseRecOn generalizing i with
  | nil =>
    obtain rfl : 0 = i := Option.some.inj hf
    exact .root
  | append_singleton v t ih =>
    obtain ⟨q, hq, -, hpar, hname⟩ := hs.follow_snoc_inv hf
    have hchild := Spells.child (ih hq) hpar
    rwa [hname] at hchild

theorem Shaped.spells_unique (hs : h.Shaped) (hv : h.Spells i v) (hw : h.Spells i w) : v = w := by
  induction hv generalizing w with
  | root =>
    cases hw with
    | root => rfl
    | child _ hpar =>
      rw [hs.root] at hpar
      cases hpar
  | child _ hpar ih =>
    cases hw with
    | root =>
      rw [hs.root] at hpar
      cases hpar
    | child hw hpar' =>
      obtain rfl := Option.some.inj (hpar.symm.trans hpar')
      rw [ih hw]

theorem Shaped.lt_of_spells (hs : h.Shaped) (hv : h.Spells i v) : i < h.size := by
  cases hv with
  | root => exact hs.pos
  | child _ hpar => exact hs.lt_of_parent hpar

/-- The nodes with a parent keep it and their names, and all keep their subscriptions. -/
structure Grows (h h' : Trie) : Prop where
  keep : ∀ i q, (h.node i).parent = some q →
    (h'.node i).parent = some q ∧ (h'.node i).name = (h.node i).name
  subPath : ∀ i, (h'.node i).subPath = (h.node i).subPath

theorem Grows.refl (h : Trie) : h.Grows h := ⟨fun _ _ hq => ⟨hq, rfl⟩, fun _ => rfl⟩

theorem Grows.trans {h'' : Trie} (hg : h.Grows h') (hg' : h'.Grows h'') : h.Grows h'' := by
  refine ⟨fun i q hq => ?_, fun i => (hg'.subPath i).trans (hg.subPath i)⟩
  obtain ⟨hq', hname⟩ := hg.keep i q hq
  obtain ⟨hq'', hname'⟩ := hg'.keep i q hq'
  exact ⟨hq'', hname'.trans hname⟩

/-- The names are those of nodes with a parent. -/
theorem Spells.mono (hv : h.Spells i v) (hkeep : ∀ i q, (h.node i).parent = some q →
    (h'.node i).parent = some q ∧ (h'.node i).name = (h.node i).name) : h'.Spells i v := by
  induction hv with
  | root => exact .root
  | child _ hpar ih =>
    obtain ⟨hpar', hname⟩ := hkeep _ _ hpar
    rw [← hname]
    exact .child ih hpar'

theorem Spells.grows (hv : h.Spells i v) (hg : h.Grows h') : h'.Spells i v := hv.mono hg.keep

/-! ## Registering and unregistering -/

theorem grows_count (h : Trie) (p : Nat) : h.Grows (h.count p) := by
  refine ⟨fun i q hq => ⟨(parent_count h p i).trans hq, name_count h p i⟩, fun i => ?_⟩
  rw [count, node_modify]
  split <;> rfl

theorem Shaped.grows_newPath (hs : h.Shaped) (hp : p < h.size) (t : String) : h.Grows (h.newPath p t) := by
  refine ⟨fun i q hq => ?_, fun i => ?_⟩
  · have hlt := hs.lt_of_parent hq
    rw [parent_newPath hp, name_newPath hp, if_neg (by omega), if_neg (by omega)]
    exact ⟨hq, rfl⟩
  · rw [node_newPath h hp.ne]
    split
    · next hi => rw [hi]
    · split
      · next hi => rw [hi, hs.blank h.size le_rfl]
      · rfl

theorem Shaped.count (hs : h.Shaped) (hp : p < h.size) : (h.count p).Shaped :=
  hs.modify hp (fun _ => rfl) (fun _ => rfl) fun _ => rfl

/-- One turn of the loop of `RegisterPath`. -/
theorem Shaped.enter (hs : h.Shaped) (hv : h.Spells p v) (t : String) :
    (h.enter p t).1.Shaped ∧ (h.enter p t).1.Spells (h.enter p t).2 (v ++ [t]) ∧ h.Grows (h.enter p t).1 := by
  have hp := hs.lt_of_spells hv
  rw [Trie.enter]
  cases hm : (h.node p).map t with
  | some q =>
    obtain ⟨hpar, hname, hq⟩ := hs.down p t q hm
    have hg := grows_count h q
    refine ⟨hs.count hq, ?_, hg⟩
    have hchild := (Spells.child hv hpar).grows hg
    rwa [hname] at hchild
  | none =>
    have hs' := hs.newPath hp t
    have hg := (hs.grows_newPath hp t).trans (grows_count _ h.size)
    refine ⟨hs'.count (Nat.lt_succ_self _), ?_, hg⟩
    have hpar : (((h.newPath p t).count h.size).node h.size).parent = some p := by
      rw [parent_count, parent_newPath hp, if_pos rfl]
    have hchild := Spells.child (hv.grows hg) hpar
    rwa [name_count, name_newPath hp, if_pos rfl] at hchild

/-- The loop of `RegisterPath`. -/
theorem Shaped.descend (hs : h.Shaped) (hv : h.Spells p v) (ts : List String) :
    (h.descend p ts).1.Shaped ∧ (h.descend p ts).1.Spells (h.descend p ts).2 (v ++ ts) ∧
      h.Grows (h.descend p ts).1 := by
  induction ts generalizing h p v with
  | nil =>
    rw [List.append_nil]
    exact ⟨hs, hv, Grows.refl h⟩
  | cons t ts ih =>
    obtain ⟨hs₁, hv₁, hg₁⟩ := hs.enter hv t
    obtain ⟨hs₂, hv₂, hg₂⟩ := ih hs₁ hv₁
    rw [List.append_assoc, List.singleton_append] at hv₂
    exact ⟨hs₂, hv₂, hg₁.trans hg₂⟩

theorem grows_release (h : Trie) (p q : Nat) : h.Grows (h.release p q) := by
  refine ⟨fun i r hr => ⟨(parent_release p q i).trans hr, name_release p q i⟩, fun i => ?_⟩
  have hu : ((h.uncount p).node i).subPath = (h.node i).subPath := by
    rw [node_uncount]
    split <;> rfl
  rw [Trie.release]
  split
  · rw [node_unlink, ← hu]
    split <;> rfl
  · exact hu

/-- `UnregisterPath`. -/
theorem Shaped.unregisterPath (hs : h.Shaped) (p : Nat) :
    (h.unregisterPath p).Shaped ∧ h.Grows (h.unregisterPath p) := by
  have hup (n : Nat) : ∀ (h : Trie) (p : Nat), h.Shaped →
      (unregisterUp n h p).Shaped ∧ h.Grows (unregisterUp n h p) := by
    induction n with
    | zero => exact fun h p hs => ⟨hs, Grows.refl h⟩
    | succ n ih =>
      intro h p hs
      rw [unregisterUp]
      cases hq : (h.node p).parent with
      | none => exact ⟨hs, Grows.refl h⟩
      | some q =>
        obtain ⟨hs', hg⟩ := ih (h.release p q) q (hs.release hq)
        exact ⟨hs', (grows_release h p q).trans hg⟩
  exact hup p h p hs

end Trie

/-! ## The patterns of the subscriptions -/

/-- The patterns that a call registers. -/
def SubscribeCall.patterns : SubscribeCall → List (List String)
  | .localAdd path => [path]
  | .remoteAdd _ path => [path]
  | .remoteAddMulti _ paths => paths.map fun path => [path]
  | .add _ paths => paths.map fun path => [path]
  | .delete _ => []

namespace Registry

/-- The patterns of the subscriptions made so far, by number. -/
def registered (calls : List SubscribeCall) : List (List String) := calls.flatMap SubscribeCall.patterns

/-- The path that `PathRegisterCommand` passes to `Append`. -/
def appendedPath (r : Registry) (cmds : List String) : List String := (r.trie.walk 0 cmds [] none).1

/-- `PathRegisterCommand` appends the command with one path to the targets. -/
theorem pathRegisterCommand_eq (r : Registry) (sps : List SubPath) (c : CommandRef) (sync : Bool) :
    r.pathRegisterCommand sps c sync = (r.targets c.command.cmds).foldl (fun sps j =>
      sps.modify j fun sp => if !sync || sp.sync then sp.append (r.appendedPath c.command.cmds) c else sp)
      sps := by
  rw [pathRegisterCommand, targets, appendedPath]
  generalize r.trie.walk 0 c.command.cmds [] none = w
  obtain ⟨path, last⟩ := w
  cases last <;> rfl

/-- The subscriptions on a node were registered with the names from the root to it. -/
structure Placed (r : Registry) (patterns : List (List String)) : Prop where
  shaped : r.trie.Shaped
  next : r.next = patterns.length
  on : ∀ i, ∀ id ∈ (r.trie.node i).subPath, ∃ p, patterns[id]? = some p ∧ r.trie.Spells i p

variable {r : Registry} {patterns : List (List String)}

theorem placed_empty : Placed {} [] := by
  refine ⟨Sound.empty.toShaped, rfl, fun i id hid => ?_⟩
  cases hid

theorem Placed.subscriber (hp : r.Placed patterns) (stream : Stream) : (r.subscriber stream).Placed patterns := by
  rw [Registry.subscriber]
  split <;> exact ⟨hp.shaped, hp.next, hp.on⟩

theorem Placed.register (hp : r.Placed patterns) (stream : Stream) (path : List String) :
    (r.register stream path).Placed (patterns ++ [path]) := by
  obtain ⟨hs, hv, hg⟩ := hp.shaped.descend .root path
  rw [List.nil_append] at hv
  have hlt := hs.lt_of_spells hv
  let f : PathNode → PathNode := fun x => { x with subPath := x.subPath ++ [r.next] }
  have hf (j : Nat) (w : List String) (hw : (r.trie.descend 0 path).1.Spells j w) :
      ((r.trie.descend 0 path).1.modify (r.trie.descend 0 path).2 f).Spells j w := by
    refine hw.mono fun i q hq => ⟨?_, Trie.name_modify _ f _ i fun _ => rfl⟩
    exact (Trie.parent_modify _ f _ i fun _ => rfl).trans hq
  refine ⟨hs.modify hlt (f := f) (fun _ => rfl) (fun _ => rfl) fun _ => rfl, ?_, fun i id hid => ?_⟩
  · rw [List.length_append, ← hp.next]
    rfl
  · -- The subscription of the call, or one from before it.
    have hold (hid : id ∈ ((r.trie.descend 0 path).1.node i).subPath) :
        ∃ p, (patterns ++ [path])[id]? = some p ∧ (r.register stream path).trie.Spells i p := by
      rw [hg.subPath i] at hid
      obtain ⟨p, hget, hspells⟩ := hp.on i id hid
      have hlt := (List.getElem?_eq_some_iff.mp hget).1
      exact ⟨p, by rw [List.getElem?_append_left hlt, hget], hf i p (hspells.grows hg)⟩
    have hnode : ((r.register stream path).trie.node i) =
        if i = (r.trie.descend 0 path).2 then f ((r.trie.descend 0 path).1.node i)
        else (r.trie.descend 0 path).1.node i := Trie.node_modify (r.trie.descend 0 path).1 _ f i
    rw [hnode] at hid
    split at hid
    · next hi =>
      rcases List.mem_append.mp hid with hid | hid
      · exact hold hid
      · obtain rfl := List.mem_singleton.mp hid
        refine ⟨path, ?_, ?_⟩
        · rw [hp.next, List.getElem?_append_right le_rfl, Nat.sub_self]
          rfl
        · rw [hi]
          exact hf _ _ hv
    · exact hold hid

theorem Placed.registers (hp : r.Placed patterns) (stream : Stream) (paths : List (List String)) :
    (paths.foldl (Registry.register stream) r).Placed (patterns ++ paths) := by
  induction paths generalizing r patterns with
  | nil =>
    rw [List.append_nil]
    exact hp
  | cons path paths ih =>
    have hrest := ih (hp.register stream path)
    rwa [List.append_assoc, List.singleton_append] at hrest

theorem Placed.delete (hp : r.Placed patterns) (stream : Stream) : (r.delete stream).Placed patterns := by
  rw [Registry.delete]
  cases r.lookup stream with
  | none => exact hp
  | some s =>
    have hfold : ∀ (sps : List Subscription) (h : Trie), h.Shaped →
        (sps.foldl (fun h sp => h.unregisterPath sp.node) h).Shaped ∧
          h.Grows (sps.foldl (fun h sp => h.unregisterPath sp.node) h) := by
      intro sps
      induction sps with
      | nil => exact fun h hs => ⟨hs, Trie.Grows.refl h⟩
      | cons sp sps ih =>
        intro h hs
        obtain ⟨hs', hg⟩ := hs.unregisterPath sp.node
        obtain ⟨hs'', hg'⟩ := ih _ hs'
        exact ⟨hs'', hg.trans hg'⟩
    obtain ⟨hs, hg⟩ := hfold s.2 r.trie hp.shaped
    refine ⟨hs, hp.next, fun i id hid => ?_⟩
    have hid' : id ∈ (r.trie.node i).subPath := by rwa [← hg.subPath i]
    obtain ⟨p, hget, hspells⟩ := hp.on i id hid'
    exact ⟨p, hget, hspells.grows hg⟩

theorem Placed.call (hp : r.Placed patterns) (c : SubscribeCall) :
    (r.call c).Placed (patterns ++ c.patterns) := by
  cases c with
  | localAdd path => exact (hp.subscriber none).registers none [path]
  | remoteAdd stream path => exact (hp.subscriber (some stream)).registers (some stream) [path]
  | remoteAddMulti stream paths => exact (hp.subscriber (some stream)).registers (some stream) _
  | add stream paths => exact (hp.subscriber (some stream)).registers (some stream) _
  | delete stream =>
    rw [SubscribeCall.patterns, List.append_nil]
    exact hp.delete stream

/-- After every run of calls. -/
theorem Placed.run (calls : List SubscribeCall) : (Registry.run calls).Placed (registered calls) := by
  induction calls using List.reverseRecOn with
  | nil => exact placed_empty
  | append_singleton calls c ih =>
    have hcall := ih.call c
    rw [registered, List.flatMap_append, List.flatMap_singleton, ← registered, Registry.run,
      List.foldl_append]
    exact hcall

/-! ## The path of a command -/

/-- The route of a command that is queued on a subscription starts with its pattern, and where it ends
there says whether the tokens are those that the pattern matches. -/
theorem Placed.target (hp : r.Placed patterns) {cmds pattern : List String} {id : Nat}
    (hid : id ∈ r.targets cmds) (hget : patterns[id]? = some pattern) :
    pattern ≠ [] ∧ pathMatches pattern cmds ∧ ∃ m, r.trie.follow 0 pattern = some m ∧
      r.trie.route 0 cmds = pattern ++ r.trie.route m (cmds.drop pattern.length) := by
  obtain ⟨v, m, hv, hpre, hf, hmem, -⟩ := mem_targets.mp hid
  obtain ⟨p, hget', hspells⟩ := hp.on m id hmem
  obtain rfl : pattern = p := Option.some.inj (hget.symm.trans hget')
  obtain rfl : v = pattern := hp.shaped.spells_unique (hp.shaped.spells_of_follow hf) hspells
  refine ⟨hv, ?_, m, hf, Trie.route_eq_append hpre hf⟩
  exact ((Trie.prefix_route (by rw [hf]; rfl)).mp hpre).1

end Registry

open Registry in
/-- After every run of calls, a command that is queued on a subscription starts with what its pattern
matches, and the path passed to `Append` is that, and is looked up as that: this is so just if neither
the next token of the command nor `*` leads on from the node of the subscription, and none of the
tokens that it matches has a `|`. -/
theorem appended_iff (calls : List SubscribeCall) {cmds pattern : List String} {id : Nat}
    (hid : id ∈ (run calls).targets cmds) (hget : (registered calls)[id]? = some pattern) :
    pathMatches pattern cmds ∧
      ((run calls).appendedPath cmds = cmds.take pattern.length ∧
          lookupPath ((run calls).appendedPath cmds) = cmds.take pattern.length ↔
        (∀ c, cmds[pattern.length]? = some c → (run calls).trie.follow 0 (pattern ++ [c]) = none ∧
          (run calls).trie.follow 0 (pattern ++ ["*"]) = none) ∧
        ∀ t ∈ cmds.take pattern.length, '|' ∉ t.toList) := by
  obtain ⟨hne, hmatch, m, hf, hroute⟩ := (Placed.run calls).target hid hget
  refine ⟨hmatch, ?_⟩
  have happended : (run calls).appendedPath cmds = cmds.take pattern.length ↔
      ∀ c, cmds[pattern.length]? = some c → (run calls).trie.follow 0 (pattern ++ [c]) = none ∧
        (run calls).trie.follow 0 (pattern ++ ["*"]) = none := by
    have hle := Trie.length_route_le (run calls).trie 0 cmds
    rw [hroute, List.length_append] at hle
    have hnil : (run calls).appendedPath cmds = cmds.take pattern.length ↔
        (run calls).trie.route m (cmds.drop pattern.length) = [] := by
      rw [appendedPath, Trie.walk_path, List.nil_append, hroute, List.length_append, ← List.length_eq_zero_iff]
      constructor
      · intro heq
        have hlen := congrArg List.length heq
        rw [List.length_take, List.length_take] at hlen
        omega
      · intro hzero
        rw [hzero, Nat.add_zero]
    have hstep (t : String) : (run calls).trie.follow 0 (pattern ++ [t]) = ((run calls).trie.node m).map t := by
      rw [Trie.follow_snoc, hf, Option.bind_some]
    rw [hnil, Trie.route_eq_nil]
    simp only [List.getElem?_drop, Nat.add_zero, hstep]
  rw [happended]
  refine and_congr_right fun hstops => ?_
  rw [happended.mpr hstops]
  refine lookupPath_eq_self fun hnil => ?_
  -- A pattern that matches is no longer than the command.
  rcases List.take_eq_nil_iff.mp hnil with hlen | rfl
  · exact hne (List.length_eq_zero_iff.mp hlen)
  · obtain ⟨t, ts, rfl⟩ := List.exists_cons_of_ne_nil hne
    cases hmatch

/-- The subscription of the DHCP of each VRF. -/
theorem appended_vrf_dhcp :
    let calls := [SubscribeCall.localAdd ["vrf", "name", "*", "dhcp"]]
    let cmds := ["vrf", "name", "blue", "dhcp", "server"]
    (Registry.run calls).appendedPath cmds = cmds.take 4 ∧
      lookupPath ((Registry.run calls).appendedPath cmds) = cmds.take 4 := by
  refine (@appended_iff [.localAdd ["vrf", "name", "*", "dhcp"]] ["vrf", "name", "blue", "dhcp", "server"]
    ["vrf", "name", "*", "dhcp"] 0 ?_ rfl).2.mpr ⟨fun c hc => ?_, by decide⟩
  · decide +kernel
  · obtain rfl : "server" = c := Option.some.inj hc
    decide +kernel

/-- A subscription of `interfaces`, where another one is on a path below. -/
theorem appended_below :
    let calls := [SubscribeCall.localAdd ["interfaces", "interface", "*", "dhcp-relay-group"],
      .remoteAdd 1 ["interfaces"]]
    let cmds := ["interfaces", "interface", "eth0", "mtu", "1500"]
    1 ∈ (Registry.run calls).targets cmds ∧ (Registry.registered calls)[1]? = some ["interfaces"] ∧
      (Registry.run calls).appendedPath cmds ≠ cmds.take 1 := by
  refine ⟨?_, rfl, ?_⟩ <;> decide +kernel

end OpenConfigd
