import Mathlib.Data.Finset.Max
import OpenConfigd.Subscribe.Hub
import OpenConfigd.Subscribe.Registry

/-!
# Routing of commands to subscriptions

`PathRegisterCommand` over the trie of paths: it goes down the tokens of the
command, by the token itself where the map has it and by `*` otherwise, and appends
the command to the subscriptions on the last node that has any. It never goes back
to a `*` it passed by, and the subscriptions on a node stay on it after
`SubscribeDelete` while other paths keep the node. `Routable` says when neither
matters to a command.
-/

namespace OpenConfigd

namespace Trie

/-- The loop of `PathRegisterCommand`: the tokens that match, and `lastMatch`. -/
def walk (h : Trie) : Nat → List String → List String → Option Nat → List String × Option Nat
  | _, [], path, last => (path, last)
  | p, lit :: cmds, path, last =>
    match ((h.node p).map lit).or ((h.node p).map "*") with
    | none => (path, last)
    | some m => h.walk m cmds (path ++ [lit]) (if (h.node m).subPath.isEmpty then last else some m)

/-- The tokens of the maps that the loop of `PathRegisterCommand` goes down by. -/
def route (h : Trie) : Nat → List String → List String
  | _, [] => []
  | p, lit :: cmds =>
    match (h.node p).map lit with
    | some m => lit :: h.route m cmds
    | none =>
      match (h.node p).map "*" with
      | some m => "*" :: h.route m cmds
      | none => []

/-- There is no subscription on the nodes of a route that are further down than `n`. -/
def BareBelow (h : Trie) (p : Nat) (cmds : List String) (n : Nat) : Prop :=
  ∀ v, v <+: h.route p cmds → n < v.length → ∀ m, h.follow p v = some m → (h.node m).subPath = []

end Trie

/-- A pattern matches a beginning of the command. -/
def pathMatches : List String → List String → Bool
  | [], _ => true
  | _ :: _, [] => false
  | t :: ts, c :: cs => (t == c || t == "*") && pathMatches ts cs

namespace Registry

/-- `PathRegisterCommand` on the queues of the subscriptions, by number. -/
def pathRegisterCommand (r : Registry) (sps : List SubPath) (c : CommandRef) (sync : Bool) :
    List SubPath :=
  match r.trie.walk 0 c.command.cmds [] none with
  | (_, none) => sps
  | (path, some m) => (r.trie.node m).subPath.foldl (fun sps j =>
      sps.modify j fun sp => if !sync || sp.sync then sp.append path c else sp) sps

/-- The live subscription has a longest pattern of those that match a beginning of the
command. -/
def Longest (r : Registry) (cmds : List String) (s : Subscription) : Prop :=
  s ∈ r.live ∧ pathMatches s.path cmds ∧
    ∀ s' ∈ r.live, pathMatches s'.path cmds → s'.path.length ≤ s.path.length

/-- A command is queued on the live subscriptions with a longest pattern and on no other
subscription. -/
def Routed (r : Registry) (cmds : List String) : Prop :=
  ∀ (c : CommandRef) (sps : List SubPath), c.command.cmds = cmds → sps.length = r.next →
    ∀ id sp, sps[id]? = some sp →
      ((∃ s, r.Longest cmds s ∧ s.id = id) →
        ∃ path, (r.pathRegisterCommand sps c false)[id]? = some (sp.append path c)) ∧
      ((¬∃ s, r.Longest cmds s ∧ s.id = id) →
        (r.pathRegisterCommand sps c false)[id]? = some sp)

/-- The pattern goes by `*` only where no live pattern goes on with the token of the
command. -/
def Preferred (r : Registry) (cmds v : List String) : Prop :=
  pathMatches v cmds ∧ ∀ u t, u ++ [t] <+: v → ∀ c, cmds[u.length]? = some c →
    t = c ∨ ∀ s ∈ r.live, ¬u ++ [c] <+: s.path

/-- The longest patterns are found by going down, and the subscriptions on the nodes
from there on are live. -/
structure Routable (r : Registry) (cmds : List String) : Prop where
  preferred : ∀ s, r.Longest cmds s → s.path ≠ [] ∧ r.Preferred cmds s.path
  fresh : ∀ v, v ≠ [] → r.Preferred cmds v →
    (∀ s ∈ r.live, pathMatches s.path cmds → s.path.length ≤ v.length) →
    ∀ p, r.trie.follow 0 v = some p → ∀ id ∈ (r.trie.node p).subPath, ∃ s ∈ r.live, s.id = id

end Registry

/-! ## The route of a command -/

namespace Trie

variable {h : Trie} {p m : Nat} {cmds : List String}

theorem route_none {lit : String} (hm : ((h.node p).map lit).or ((h.node p).map "*") = none) :
    h.route p (lit :: cmds) = [] := by
  obtain ⟨h1, h2⟩ := Option.or_eq_none_iff.mp hm
  rw [route, h1, h2]

theorem route_some {lit : String} (cmds : List String)
    (hm : ((h.node p).map lit).or ((h.node p).map "*") = some m) :
    ∃ t, h.route p (lit :: cmds) = t :: h.route m cmds ∧ (h.node p).map t = some m := by
  rw [route]
  cases hl : (h.node p).map lit with
  | some q =>
    rw [hl, Option.some_or] at hm
    obtain rfl : q = m := Option.some.inj hm
    exact ⟨lit, rfl, hl⟩
  | none =>
    rw [hl, Option.none_or] at hm
    refine ⟨"*", ?_, hm⟩
    rw [hm]

theorem bareBelow_nil (hr : h.route p cmds = []) (n : Nat) : h.BareBelow p cmds n := by
  intro v hv hn
  rw [hr, List.prefix_nil] at hv
  subst hv
  exact absurd hn (Nat.not_lt_zero n)

section

variable {lit t : String} (hr : h.route p (lit :: cmds) = t :: h.route m cmds)
  (hm : (h.node p).map t = some m)

include hr hm

theorem bareBelow_succ (n : Nat) :
    h.BareBelow p (lit :: cmds) (n + 1) ↔ h.BareBelow m cmds n := by
  have hfollow (v : List String) : h.follow p (t :: v) = h.follow m v := by
    rw [follow, hm, Option.bind_some]
  constructor
  · intro hb v hv hn q hq
    refine hb (t :: v) ?_ ?_ q ((hfollow v).trans hq)
    · rw [hr]
      exact List.cons_prefix_cons.mpr ⟨rfl, hv⟩
    · rw [List.length_cons]
      omega
  · intro hb v hv hn q hq
    rw [hr] at hv
    rcases v with _ | ⟨u, v⟩
    · exact absurd hn (Nat.not_lt_zero _)
    · obtain ⟨rfl, hv'⟩ := List.cons_prefix_cons.mp hv
      rw [List.length_cons] at hn
      exact hb v hv' (by omega) q ((hfollow v).symm.trans hq)

theorem bareBelow_zero :
    h.BareBelow p (lit :: cmds) 0 ↔ (h.node m).subPath = [] ∧ h.BareBelow m cmds 0 := by
  have hone : h.follow p [t] = some m := by
    rw [follow, hm]
    rfl
  rw [← bareBelow_succ hr hm]
  constructor
  · intro hb
    refine ⟨hb [t] ?_ Nat.one_pos m hone, fun v hv hn => hb v hv (by omega)⟩
    rw [hr]
    exact List.cons_prefix_cons.mpr ⟨rfl, List.nil_prefix⟩
  · rintro ⟨h0, hb⟩ v hv hn q hq
    rcases Nat.lt_or_ge 1 v.length with hlt | hle
    · exact hb v hv hlt q hq
    · rw [hr] at hv
      rcases v with _ | ⟨u, v⟩
      · exact absurd hn (Nat.lt_irrefl 0)
      · obtain ⟨rfl, -⟩ := List.cons_prefix_cons.mp hv
        rw [List.length_cons] at hle
        obtain rfl := List.length_eq_zero_iff.mp (by omega : v.length = 0)
        obtain rfl : m = q := Option.some.inj (hone.symm.trans hq)
        exact h0

end

/-- `lastMatch` is the last node of the route that has a subscription. -/
theorem walk_last (cmds path : List String) (last : Option Nat) :
    (h.walk p cmds path last).2 = some m ↔
      (∃ v, v ≠ [] ∧ v <+: h.route p cmds ∧ h.follow p v = some m ∧ (h.node m).subPath ≠ [] ∧
        h.BareBelow p cmds v.length) ∨ last = some m ∧ h.BareBelow p cmds 0 := by
  have hstop (p : Nat) (cmds : List String) (last : Option Nat) (hr : h.route p cmds = []) :
      last = some m ↔ (∃ v, v ≠ [] ∧ v <+: h.route p cmds ∧ h.follow p v = some m ∧
        (h.node m).subPath ≠ [] ∧ h.BareBelow p cmds v.length) ∨
          last = some m ∧ h.BareBelow p cmds 0 := by
    constructor
    · exact fun hl => .inr ⟨hl, bareBelow_nil hr 0⟩
    · rintro (⟨v, hv, hpre, -⟩ | ⟨hl, -⟩)
      · rw [hr, List.prefix_nil] at hpre
        exact absurd hpre hv
      · exact hl
  induction cmds generalizing p path last with
  | nil => exact hstop p [] last rfl
  | cons lit cmds ih =>
    rw [walk]
    cases hor : ((h.node p).map lit).or ((h.node p).map "*") with
    | none => exact hstop p _ last (route_none hor)
    | some q =>
      obtain ⟨t, hr, hq⟩ := route_some cmds hor
      have hfollow (v : List String) : h.follow p (t :: v) = h.follow q v := by
        rw [follow, hq, Option.bind_some]
      simp only [ih, bareBelow_zero hr hq]
      constructor
      · rintro (⟨v, hv, hpre, hf, hsub, hb⟩ | ⟨hl, hb⟩)
        · refine .inl ⟨t :: v, List.cons_ne_nil _ _, ?_, (hfollow v).trans hf, hsub, ?_⟩
          · rw [hr]
            exact List.cons_prefix_cons.mpr ⟨rfl, hpre⟩
          · exact (bareBelow_succ hr hq _).mpr hb
        · split at hl
          · next hemp => exact .inr ⟨hl, List.isEmpty_iff.mp hemp, hb⟩
          · next hne =>
            obtain rfl : q = m := Option.some.inj hl
            refine .inl ⟨[t], List.cons_ne_nil _ _, ?_, hfollow [], ?_, ?_⟩
            · rw [hr]
              exact List.cons_prefix_cons.mpr ⟨rfl, List.nil_prefix⟩
            · simpa using hne
            · exact (bareBelow_succ hr hq 0).mpr hb
      · rintro (⟨v, hv, hpre, hf, hsub, hb⟩ | ⟨hl, hemp, hb⟩)
        · rw [hr] at hpre
          rcases v with _ | ⟨u, v⟩
          · exact absurd rfl hv
          · obtain ⟨rfl, hpre'⟩ := List.cons_prefix_cons.mp hpre
            rw [hfollow] at hf
            rw [List.length_cons, bareBelow_succ hr hq] at hb
            rcases v with _ | ⟨w, v⟩
            · obtain rfl : q = m := Option.some.inj hf
              refine .inr ⟨if_neg ?_, hb⟩
              simpa using hsub
            · exact .inl ⟨w :: v, List.cons_ne_nil _ _, hpre', hf, hsub, hb⟩
        · refine .inr ⟨?_, hb⟩
          rw [if_pos (by rw [hemp]; rfl)]
          exact hl

theorem walk_none {path : List String} {last : Option Nat}
    (hw : (h.walk p cmds path last).2 = none) : h.BareBelow p cmds 0 := by
  induction cmds generalizing p path last with
  | nil => exact bareBelow_nil rfl 0
  | cons lit cmds ih =>
    rw [walk] at hw
    cases hor : ((h.node p).map lit).or ((h.node p).map "*") with
    | none => exact bareBelow_nil (route_none hor) 0
    | some q =>
      obtain ⟨t, hr, hq⟩ := route_some cmds hor
      simp only [hor] at hw
      refine (bareBelow_zero hr hq).mpr ⟨?_, ih hw⟩
      by_contra hsub
      -- a node with subscriptions would be the last match, or a later one
      have hlast := (walk_last (m := q) cmds (path ++ [lit])
        (if (h.node q).subPath.isEmpty then last else some q)).mpr
        (.inr ⟨if_neg (by simpa using hsub), ih hw⟩)
      rw [hlast] at hw
      cases hw

/-- A way down the trie is on the route exactly when it goes by `*` only where the token
leads nowhere. -/
theorem prefix_route {v : List String} (hf : (h.follow p v).isSome) :
    v <+: h.route p cmds ↔ pathMatches v cmds ∧ ∀ u t, u ++ [t] <+: v →
      ∀ c, cmds[u.length]? = some c → t = c ∨ h.follow p (u ++ [c]) = none := by
  induction cmds generalizing p v with
  | nil =>
    rw [route, List.prefix_nil]
    constructor
    · rintro rfl
      exact ⟨rfl, fun u t _ c hc => by cases hc⟩
    · rintro ⟨hv, -⟩
      cases v with
      | nil => rfl
      | cons t v => cases hv
  | cons lit cmds ih =>
    rcases v with _ | ⟨t, v⟩
    · refine iff_of_true List.nil_prefix ⟨rfl, fun u t hu => ?_⟩
      rw [List.prefix_nil] at hu
      exact absurd hu (by simp)
    · rw [follow] at hf
      obtain ⟨q, hq⟩ : ∃ q, (h.node p).map t = some q := by
        cases hq : (h.node p).map t with
        | none =>
          rw [hq] at hf
          cases hf
        | some q => exact ⟨q, rfl⟩
      rw [hq, Option.bind_some] at hf
      have hfollow (v : List String) : h.follow p (t :: v) = h.follow q v := by
        rw [follow, hq, Option.bind_some]
      have hone (c : String) : h.follow p ([] ++ [c]) = (h.node p).map c := by
        rw [follow_snoc]
        rfl
      have hroute : t :: v <+: h.route p (lit :: cmds) ↔
          ((t = lit ∨ t = "*") ∧ (t = lit ∨ (h.node p).map lit = none)) ∧ v <+: h.route q cmds := by
        rw [route]
        cases hl : (h.node p).map lit with
        | some m =>
          simp only [List.cons_prefix_cons, reduceCtorEq, or_false]
          constructor
          · rintro ⟨rfl, hv⟩
            obtain rfl : m = q := Option.some.inj (hl.symm.trans hq)
            exact ⟨⟨.inl rfl, rfl⟩, hv⟩
          · rintro ⟨⟨-, rfl⟩, hv⟩
            obtain rfl : m = q := Option.some.inj (hl.symm.trans hq)
            exact ⟨rfl, hv⟩
        | none =>
          have hne : t ≠ lit := by
            rintro rfl
            rw [hl] at hq
            cases hq
          simp only [hne, or_true, false_or, and_true]
          by_cases hstar : t = "*"
          · subst hstar
            rw [hq]
            simp only [List.cons_prefix_cons]
          · refine iff_of_false ?_ fun hc => hstar hc.1
            cases (h.node p).map "*" with
            | none => simp
            | some m => simpa using fun hc => absurd hc hstar
      rw [hroute, ih hf]
      have hrest : (∀ u t', u ++ [t'] <+: t :: v → ∀ c, (lit :: cmds)[u.length]? = some c →
          t' = c ∨ h.follow p (u ++ [c]) = none) ↔ (t = lit ∨ (h.node p).map lit = none) ∧
            ∀ u t', u ++ [t'] <+: v → ∀ c, cmds[u.length]? = some c →
              t' = c ∨ h.follow q (u ++ [c]) = none := by
        constructor
        · intro hall
          refine ⟨?_, fun u t' hu c hc => ?_⟩
          · have := hall [] t (List.cons_prefix_cons.mpr ⟨rfl, List.nil_prefix⟩) lit rfl
            rwa [hone] at this
          · have := hall (t :: u) t' (List.cons_prefix_cons.mpr ⟨rfl, hu⟩) c hc
            rwa [List.cons_append, hfollow] at this
        · rintro ⟨h0, hall⟩ u t' hu c hc
          rcases u with _ | ⟨a, u⟩
          · obtain ⟨rfl, -⟩ := List.cons_prefix_cons.mp hu
            obtain rfl : lit = c := Option.some.inj hc
            rw [hone]
            exact h0
          · obtain ⟨rfl, hu'⟩ := List.cons_prefix_cons.mp hu
            rw [List.cons_append, hfollow]
            exact hall u t' hu' c hc
      rw [hrest, pathMatches]
      simp only [Bool.and_eq_true, Bool.or_eq_true, beq_iff_eq]
      constructor
      · rintro ⟨⟨hlit, hstar⟩, hv, hall⟩
        exact ⟨⟨hlit, hv⟩, hstar, hall⟩
      · rintro ⟨⟨hlit, hv⟩, hstar, hall⟩
        exact ⟨⟨hlit, hstar⟩, hv, hall⟩

end Trie

/-! ## The subscriptions on the nodes -/

namespace Registry

/-- Which subscriptions are on a node: each live one on its own node and no other, under
numbers given out once. -/
structure Listed (r : Registry) : Prop where
  ids : (r.live.map (·.id)).Nodup
  bound : ∀ i, ∀ id ∈ (r.trie.node i).subPath, id < r.next
  nodup : ∀ i, (r.trie.node i).subPath.Nodup
  on : ∀ s ∈ r.live, s.id ∈ (r.trie.node s.node).subPath
  only : ∀ s ∈ r.live, ∀ i, s.id ∈ (r.trie.node i).subPath → i = s.node

section

variable {r : Registry} {stream : Stream}

theorem Listed.lt (hl : r.Listed) {s : Subscription} (hs : s ∈ r.live) : s.id < r.next :=
  hl.bound _ _ (hl.on s hs)

theorem Listed.register (hl : r.Listed) (hs : r.Sound) (hlen : r.live.length + 1 < 2 ^ 32)
    (path : List String) : (r.register stream path).Listed := by
  have hp := live_register r stream path
  have hsub (i : Nat) : ((r.register stream path).trie.node i).subPath =
      if i = (r.trie.registerPath r.next path).2 then (r.trie.node i).subPath ++ [r.next]
      else (r.trie.node i).subPath := Trie.Sound.subPath_registerPath hs hlen r.next path i
  have hnew (i : Nat) : r.next ∉ (r.trie.node i).subPath :=
    fun hc => Nat.lt_irrefl _ (hl.bound i _ hc)
  refine ⟨?_, ?_, ?_, ?_, ?_⟩
  · rw [(hp.map _).nodup_iff, List.map_cons, List.nodup_cons]
    refine ⟨fun hc => ?_, hl.ids⟩
    obtain ⟨s, hmem, hid⟩ := List.mem_map.mp hc
    have := hl.lt hmem
    have hid : s.id = r.next := hid
    omega
  · intro i id hid
    show id < r.next + 1
    rw [hsub] at hid
    split at hid
    · rcases List.mem_append.mp hid with hid | hid
      · exact Nat.lt_succ_of_lt (hl.bound i id hid)
      · rw [List.mem_singleton.mp hid]
        exact Nat.lt_succ_self _
    · exact Nat.lt_succ_of_lt (hl.bound i id hid)
  · intro i
    rw [hsub]
    split
    · rw [List.nodup_append]
      refine ⟨hl.nodup i, List.nodup_singleton _, fun a ha b hb => ?_⟩
      rw [List.mem_singleton.mp hb]
      rintro rfl
      exact hnew i ha
    · exact hl.nodup i
  · intro s hmem
    rw [hsub]
    rcases List.mem_cons.mp (hp.mem_iff.mp hmem) with rfl | hmem
    · rw [if_pos rfl]
      exact List.mem_append_right _ (List.mem_singleton_self _)
    · split
      · exact List.mem_append_left _ (hl.on s hmem)
      · exact hl.on s hmem
  · intro s hmem i hi
    rw [hsub] at hi
    rcases List.mem_cons.mp (hp.mem_iff.mp hmem) with rfl | hmem
    · split at hi
      · assumption
      · exact absurd hi (hnew i)
    · split at hi
      · rcases List.mem_append.mp hi with hi | hi
        · exact hl.only s hmem i hi
        · have := hl.lt hmem
          have := List.mem_singleton.mp hi
          omega
      · exact hl.only s hmem i hi

theorem Listed.subscriber (hl : r.Listed) (stream : Stream) : (r.subscriber stream).Listed := by
  have hlive := live_subscriber r stream
  rw [Registry.subscriber] at hlive ⊢
  split
  · exact hl
  · next hn =>
    rw [if_neg hn] at hlive
    refine ⟨hlive ▸ hl.ids, hl.bound, hl.nodup, ?_, ?_⟩
    · rw [hlive]
      exact hl.on
    · rw [hlive]
      exact hl.only

theorem Listed.subscribe (hl : r.Listed) (hs : r.Sound) (stream : Stream)
    (paths : List (List String)) (hlen : r.live.length + paths.length < 2 ^ 32) :
    (r.subscribe stream paths).Listed := by
  rw [Registry.subscribe]
  rw [← live_subscriber r stream] at hlen
  have hl := hl.subscriber stream
  have hs := hs.subscriber stream
  generalize r.subscriber stream = r at hl hs hlen
  induction paths generalizing r with
  | nil => exact hl
  | cons path paths ih =>
    rw [List.length_cons] at hlen
    have hlen' : (r.register stream path).live.length + paths.length < 2 ^ 32 := by
      rw [(live_register r stream path).length_eq, List.length_cons]
      omega
    exact ih _ (hl.register hs (by omega) path) (hs.register stream path (by omega)) hlen'

theorem Listed.delete (hl : r.Listed) (stream : Stream) : (r.delete stream).Listed := by
  rw [Registry.delete]
  cases hs : r.lookup stream with
  | none => exact hl
  | some s =>
    have hp := live_delete hs
    have hsub (sps : List Subscription) (h : Trie) (i : Nat) :
        ((sps.foldl (fun h sp => h.unregisterPath sp.node) h).node i).subPath =
          (h.node i).subPath := by
      induction sps generalizing h with
      | nil => rfl
      | cons sp sps ih => exact (ih _).trans (Trie.subPath_unregisterPath h sp.node i)
    have hmem {sp : Subscription}
        (hsp : sp ∈ (r.subs.eraseP fun s => s.1 = stream).flatMap (·.2)) : sp ∈ r.live :=
      hp.mem_iff.mpr (List.mem_append_right _ hsp)
    refine ⟨?_, ?_, ?_, ?_, ?_⟩
    · have := (hp.map (·.id)).nodup_iff.mp hl.ids
      rw [List.map_append] at this
      exact (List.nodup_append.mp this).2.1
    · intro i
      simp only [hsub]
      exact hl.bound i
    · intro i
      simp only [hsub]
      exact hl.nodup i
    · intro sp hsp
      simp only [hsub]
      exact hl.on sp (hmem hsp)
    · intro sp hsp
      simp only [hsub]
      exact hl.only sp (hmem hsp)

theorem Listed.call (hl : r.Listed) (hs : r.Sound) (c : SubscribeCall)
    (hlen : (r.call c).live.length < 2 ^ 32) : (r.call c).Listed := by
  obtain ⟨stream, paths, hc⟩ | ⟨stream, hc⟩ := call_cases r c
  · rw [hc, length_live_subscribe] at hlen
    rw [hc]
    exact hl.subscribe hs stream paths hlen
  · rw [hc]
    exact hl.delete stream

theorem Listed.run (calls : List SubscribeCall)
    (hlen : ∀ pre, pre <+: calls → (Registry.run pre).live.length < 2 ^ 32) :
    (Registry.run calls).Listed := by
  induction calls using List.reverseRecOn with
  | nil =>
    refine ⟨List.nodup_nil, ?_, fun i => List.nodup_nil, ?_, ?_⟩
    · intro i id hid
      cases hid
    · intro s hs
      cases hs
    · intro s hs
      cases hs
  | append_singleton calls c ih =>
    have hlast := hlen _ List.prefix_rfl
    have hpre : ∀ pre, pre <+: calls → (Registry.run pre).live.length < 2 ^ 32 :=
      fun pre hp => hlen pre (hp.trans (List.prefix_append _ _))
    rw [Registry.run, List.foldl_append] at hlast ⊢
    exact (ih hpre).call (Sound.run calls hpre) c hlast

/-! ## Routing -/

theorem getElem?_queued {f : SubPath → SubPath} {ids : List Nat} (hn : ids.Nodup)
    (sps : List SubPath) (id : Nat) :
    (ids.foldl (fun sps j => sps.modify j f) sps)[id]? =
      if id ∈ ids then sps[id]?.map f else sps[id]? := by
  induction ids generalizing sps with
  | nil => rfl
  | cons j ids ih =>
    rw [List.nodup_cons] at hn
    rw [List.foldl_cons, ih hn.2, List.getElem?_modify]
    by_cases hj : j = id
    · subst hj
      rw [if_neg hn.1, if_pos List.mem_cons_self]
      simp only [if_true, Option.map_eq_map]
    · have hne : id ≠ j := fun hc => hj hc.symm
      simp only [if_neg hj, List.mem_cons, hne, false_or, id_map']

/-- The subscriptions that `PathRegisterCommand` appends a command to. -/
def targets (r : Registry) (cmds : List String) : List Nat :=
  (r.trie.walk 0 cmds [] none).2.elim [] fun m => (r.trie.node m).subPath

theorem Listed.nodup_targets (hl : r.Listed) (cmds : List String) : (r.targets cmds).Nodup := by
  rw [targets]
  cases (r.trie.walk 0 cmds [] none).2 with
  | none => exact List.nodup_nil
  | some m => exact hl.nodup m

theorem Listed.queued (hl : r.Listed) (sps : List SubPath) (c : CommandRef) (id : Nat) :
    (r.pathRegisterCommand sps c false)[id]? =
      if id ∈ r.targets c.command.cmds then
        sps[id]?.map (SubPath.append (r.trie.walk 0 c.command.cmds [] none).1 c)
      else sps[id]? := by
  have hn := hl.nodup_targets c.command.cmds
  rw [targets] at hn ⊢
  rw [pathRegisterCommand]
  generalize r.trie.walk 0 c.command.cmds [] none = w at hn ⊢
  obtain ⟨path, last⟩ := w
  cases last with
  | none => simp
  | some m => exact getElem?_queued hn sps id

theorem appendTo_ne (path : String) (c : CommandRef) (m : List (String × List CommandRef)) :
    SubPath.appendTo path c m ≠ m := by
  induction m with
  | nil => exact List.cons_ne_nil _ _
  | cons p m ih =>
    obtain ⟨q, cs⟩ := p
    rw [SubPath.appendTo]
    split
    · simp
    · simpa using ih

theorem append_ne (path : List String) (c : CommandRef) (sp : SubPath) : sp.append path c ≠ sp :=
  fun hc => appendTo_ne _ c _ (congrArg SubPath.pathToCmd hc)

/-- A command is routed well exactly when the subscriptions on the last node are the live
ones with a longest pattern. -/
theorem Listed.routed_iff (hl : r.Listed) (cmds : List String) :
    r.Routed cmds ↔ ∀ id, id ∈ r.targets cmds ↔ ∃ s, r.Longest cmds s ∧ s.id = id := by
  have htarget (id : Nat) (hid : id ∈ r.targets cmds) : id < r.next := by
    rw [targets] at hid
    cases hw : (r.trie.walk 0 cmds [] none).2 with
    | none =>
      rw [hw] at hid
      cases hid
    | some m =>
      rw [hw] at hid
      exact hl.bound m id hid
  constructor
  · intro hr id
    let c : CommandRef := ⟨0, { set := true, cmds := cmds }⟩
    let sps : List SubPath := List.replicate r.next { sub := 0 }
    have hget (hid : id < r.next) : sps[id]? = some { sub := 0 } :=
      List.getElem?_replicate_of_lt hid
    have hq := hl.queued sps c id
    constructor
    · intro hid
      have hlt := htarget id hid
      obtain ⟨-, hno⟩ := hr c sps rfl List.length_replicate id _ (hget hlt)
      by_contra hs
      have := hno hs
      rw [hq, if_pos hid, hget hlt] at this
      exact append_ne _ _ _ (Option.some.inj this)
    · rintro ⟨s, hs, rfl⟩
      have hlt := hl.lt hs.1
      obtain ⟨hyes, -⟩ := hr c sps rfl List.length_replicate s.id _ (hget hlt)
      obtain ⟨path, hp⟩ := hyes ⟨s, hs, rfl⟩
      by_contra hid
      rw [hq, if_neg hid, hget hlt] at hp
      exact append_ne _ _ _ (Option.some.inj hp).symm
  · intro ht c sps hc _ id sp hsp
    subst hc
    have hq := hl.queued sps c id
    rw [hsp] at hq
    constructor
    · intro hs
      rw [if_pos ((ht id).mpr hs)] at hq
      exact ⟨_, hq⟩
    · intro hs
      rw [if_neg fun hc => hs ((ht id).mp hc)] at hq
      exact hq

theorem Sound.prefix_route_iff (hs : r.Sound) {v cmds : List String} {p : Nat}
    (hf : r.trie.follow 0 v = some p) : v <+: r.trie.route 0 cmds ↔ r.Preferred cmds v := by
  rw [Trie.prefix_route (by rw [hf]; rfl), Preferred]
  have hfree (u : List String) (c : String) : r.trie.follow 0 (u ++ [c]) = none ↔
      ∀ s ∈ r.live, ¬u ++ [c] <+: s.path := by
    have := Trie.Sound.follow_isSome hs (List.append_ne_nil_of_right_ne_nil u (List.cons_ne_nil c []))
    rw [← Option.not_isSome_iff_eq_none, this]
    push Not
    rfl
  simp only [hfree]

/-- The live subscriptions on a node have the path of the node. -/
theorem Listed.path_eq (hl : r.Listed) (hs : r.Sound) {s : Subscription} (hmem : s ∈ r.live)
    {v : List String} {m : Nat} (hv : r.trie.follow 0 v = some m)
    (hid : s.id ∈ (r.trie.node m).subPath) : s.path = v ∧ s.node = m := by
  have hm := hl.only s hmem m hid
  subst hm
  exact ⟨hs.follow_inj (hs.reach s hmem) hv, rfl⟩

theorem mem_targets {cmds : List String} {id : Nat} : id ∈ r.targets cmds ↔
    ∃ v m, v ≠ [] ∧ v <+: r.trie.route 0 cmds ∧ r.trie.follow 0 v = some m ∧
      id ∈ (r.trie.node m).subPath ∧ r.trie.BareBelow 0 cmds v.length := by
  have hwalk (m : Nat) := Trie.walk_last (h := r.trie) (p := 0) (m := m) cmds [] none
  simp only [reduceCtorEq, false_and, or_false] at hwalk
  rw [targets]
  constructor
  · intro hid
    cases hw : (r.trie.walk 0 cmds [] none).2 with
    | none =>
      rw [hw] at hid
      cases hid
    | some m =>
      rw [hw] at hid
      obtain ⟨v, hv, hpre, hf, -, hb⟩ := (hwalk m).mp hw
      exact ⟨v, m, hv, hpre, hf, hid, hb⟩
  · rintro ⟨v, m, hv, hpre, hf, hid, hb⟩
    rw [(hwalk m).mpr ⟨v, hv, hpre, hf, List.ne_nil_of_mem hid, hb⟩]
    exact hid

/-- Where a node of the route has a subscription, there are targets, on a node no higher. -/
theorem exists_target {cmds v : List String} {m id : Nat} (hv : v ≠ [])
    (hpre : v <+: r.trie.route 0 cmds) (hf : r.trie.follow 0 v = some m)
    (hid : id ∈ (r.trie.node m).subPath) :
    ∃ v' m', v.length ≤ v'.length ∧ v' ≠ [] ∧ v' <+: r.trie.route 0 cmds ∧
      r.trie.follow 0 v' = some m' ∧ (r.trie.node m').subPath ≠ [] ∧
      r.trie.BareBelow 0 cmds v'.length := by
  cases hw : (r.trie.walk 0 cmds [] none).2 with
  | none =>
    have := Trie.walk_none hw v hpre (List.length_pos_of_ne_nil hv) m hf
    exact absurd this (List.ne_nil_of_mem hid)
  | some m' =>
    obtain ⟨v', hv', hpre', hf', hsub, hb⟩ | ⟨hc, -⟩ := (Trie.walk_last _ [] none).mp hw
    · refine ⟨v', m', ?_, hv', hpre', hf', hsub, hb⟩
      by_contra hlt
      exact List.ne_nil_of_mem hid (hb v hpre (by omega) m hf)
    · cases hc

theorem exists_longest {cmds : List String} {s : Subscription} (hmem : s ∈ r.live)
    (hm : pathMatches s.path cmds) : ∃ s', r.Longest cmds s' ∧ s.path.length ≤ s'.path.length := by
  have hin {a : Subscription} : a ∈ (r.live.filter fun a => pathMatches a.path cmds).toFinset ↔
      a ∈ r.live ∧ pathMatches a.path cmds := by
    rw [List.mem_toFinset, List.mem_filter]
  obtain ⟨s', hs', hmax⟩ := Finset.exists_max_image _ (fun a : Subscription => a.path.length)
    ⟨s, hin.mpr ⟨hmem, hm⟩⟩
  obtain ⟨hmem', hm'⟩ := hin.mp hs'
  exact ⟨s', ⟨hmem', hm', fun a ha hma => hmax a (hin.mpr ⟨ha, hma⟩)⟩, hmax s (hin.mpr ⟨hmem, hm⟩)⟩

theorem eq_of_prefix_of_length {u v w : List String} (hu : u <+: w) (hv : v <+: w)
    (hlen : u.length = v.length) : u = v :=
  (List.prefix_of_prefix_length_le hu hv hlen.le).eq_of_length hlen

/-- A command is routed well exactly when it is routable. -/
theorem Listed.routed_iff_routable (hl : r.Listed) (hs : r.Sound) (cmds : List String) :
    r.Routed cmds ↔ r.Routable cmds := by
  rw [hl.routed_iff]
  constructor
  · intro ht
    refine ⟨?_, ?_⟩
    · intro s hlong
      obtain ⟨v, m, hv, hpre, hf, hid, -⟩ := mem_targets.mp ((ht s.id).mpr ⟨s, hlong, rfl⟩)
      obtain ⟨hp, -⟩ := hl.path_eq hs hlong.1 hf hid
      rw [hp]
      exact ⟨hv, (hs.prefix_route_iff hf).mp hpre⟩
    · intro v hv hpref hmax p hf id hid
      have hpre := (hs.prefix_route_iff hf).mpr hpref
      obtain ⟨v', m', hle, hv', hpre', hf', hsub, hb⟩ := exists_target hv hpre hf hid
      obtain ⟨id', hid'⟩ := List.exists_mem_of_ne_nil _ hsub
      -- the targets have a longest pattern, which is no longer than `v`
      obtain ⟨s, hlong, rfl⟩ := (ht id').mp (mem_targets.mpr ⟨v', m', hv', hpre', hf', hid', hb⟩)
      obtain ⟨hp, -⟩ := hl.path_eq hs hlong.1 hf' hid'
      have hle' := hmax s hlong.1 hlong.2.1
      rw [hp] at hle'
      obtain rfl := eq_of_prefix_of_length hpre hpre' (by omega)
      obtain rfl : p = m' := Option.some.inj (hf.symm.trans hf')
      obtain ⟨s', hlong', hs'⟩ := (ht id).mp (mem_targets.mpr ⟨v, p, hv, hpre, hf, hid, hb⟩)
      exact ⟨s', hlong'.1, hs'⟩
  · intro hr id
    constructor
    · intro hid
      obtain ⟨v, m, hv, hpre, hf, hid, hb⟩ := mem_targets.mp hid
      have hpref := (hs.prefix_route_iff hf).mp hpre
      have hmax (s : Subscription) (hmem : s ∈ r.live) (hm : pathMatches s.path cmds) :
          s.path.length ≤ v.length := by
        obtain ⟨s', hlong, hle⟩ := exists_longest hmem hm
        by_contra hlt
        have hf' := hs.reach s' hlong.1
        have hpre' := (hs.prefix_route_iff hf').mpr (hr.preferred s' hlong).2
        exact List.ne_nil_of_mem (hl.on s' hlong.1) (hb s'.path hpre' (by omega) _ hf')
      obtain ⟨s, hmem, rfl⟩ := hr.fresh v hv hpref hmax m hf id hid
      obtain ⟨hp, -⟩ := hl.path_eq hs hmem hf hid
      exact ⟨s, ⟨hmem, hp ▸ hpref.1, hp ▸ hmax⟩, rfl⟩
    · rintro ⟨s, hlong, rfl⟩
      obtain ⟨hne, hpref⟩ := hr.preferred s hlong
      have hf := hs.reach s hlong.1
      have hpre := (hs.prefix_route_iff hf).mpr hpref
      have hon := hl.on s hlong.1
      obtain ⟨v, m, hle, hv, hpre', hf', hsub, hb⟩ := exists_target hne hpre hf hon
      have hpref' := (hs.prefix_route_iff hf').mp hpre'
      obtain ⟨id, hid⟩ := List.exists_mem_of_ne_nil _ hsub
      -- a deeper node with subscriptions would hold a longer live pattern
      obtain ⟨s', hmem, rfl⟩ := hr.fresh v hv hpref'
        (fun a ha hm => (hlong.2.2 a ha hm).trans hle) m hf' id hid
      obtain ⟨hp, -⟩ := hl.path_eq hs hmem hf' hid
      have hle' := hlong.2.2 s' hmem (hp ▸ hpref'.1)
      rw [hp] at hle'
      obtain rfl := eq_of_prefix_of_length hpre hpre' (by omega)
      exact mem_targets.mpr ⟨s.path, s.node, hne, hpre, hf, hon, hb⟩

end

/-- After every run of calls, with fewer than `2 ^ 32` live subscriptions at any time, a command
is queued on exactly the live subscriptions with a longest matching pattern if and only if it
is routable. -/
theorem routing (calls : List SubscribeCall)
    (hlen : ∀ pre, pre <+: calls → (run pre).live.length < 2 ^ 32) (cmds : List String) :
    (run calls).Routed cmds ↔ (run calls).Routable cmds :=
  (Listed.run calls hlen).routed_iff_routable (Sound.run calls hlen) cmds

/-- A single subscription gets the commands under its path. -/
theorem routing_single :
    (∀ pre, pre <+: [SubscribeCall.localAdd ["a"]] → (run pre).live.length < 2 ^ 32) ∧
    (run [.localAdd ["a"]]).Routed ["a", "b"] := by
  have hlen : ∀ pre, pre <+: [SubscribeCall.localAdd ["a"]] → (run pre).live.length < 2 ^ 32 := by
    intro pre hpre
    rw [← List.mem_inits] at hpre
    revert pre
    decide
  have hlive : (run [.localAdd ["a"]]).live = [⟨0, ["a"], 1⟩] := rfl
  have hbound := (Listed.run [.localAdd ["a"]] hlen).bound
  refine ⟨hlen, (routing _ hlen _).mpr ⟨?_, ?_⟩⟩
  · rintro s ⟨hmem, -, -⟩
    rw [hlive, List.mem_singleton] at hmem
    subst hmem
    refine ⟨List.cons_ne_nil _ _, by decide, ?_⟩
    intro u t hu c hc
    rcases u with _ | ⟨a, u⟩
    · obtain ⟨rfl, -⟩ := List.cons_prefix_cons.mp hu
      exact .inl (Option.some.inj hc)
    · have := hu.length_le
      simp at this
  · intro v _ _ _ p _ id hid
    have hlt : id < 1 := hbound p id hid
    obtain rfl : id = 0 := by omega
    exact ⟨_, List.mem_singleton_self _, rfl⟩

/-- The pattern with `*` is passed by where a longer literal pattern starts with the same
token, and a deleted subscription is served while another path keeps its node. -/
theorem routing_overlap :
    ¬(run [.localAdd ["*", "b"], .localAdd ["a", "c"]]).Routed ["a", "b"] ∧
    ¬(run [.remoteAdd 1 ["a"], .remoteAdd 2 ["a", "b"], .delete (some 1)]).Routed ["a"] := by
  constructor
  · intro hr
    obtain ⟨hyes, -⟩ := hr ⟨0, { set := true, cmds := ["a", "b"] }⟩
      [{ sub := 0 }, { sub := 0 }] rfl rfl 0 { sub := 0 } rfl
    have hlong : (run [.localAdd ["*", "b"], .localAdd ["a", "c"]]).Longest ["a", "b"]
        ⟨0, ["*", "b"], 2⟩ := by
      refine ⟨by decide, by decide +kernel, ?_⟩
      decide
    obtain ⟨path, hp⟩ := hyes ⟨_, hlong, rfl⟩
    exact append_ne _ _ _ (Option.some.inj hp).symm
  · intro hr
    obtain ⟨-, hno⟩ := hr ⟨0, { set := true, cmds := ["a"] }⟩
      [{ sub := 1 }, { sub := 2 }] rfl rfl 0 { sub := 1 } rfl
    have hp := hno (by
      rintro ⟨s, ⟨hmem, -, -⟩, hid⟩
      revert hid
      revert s
      decide)
    revert hp
    decide

end Registry

end OpenConfigd
