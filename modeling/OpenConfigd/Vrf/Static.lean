import OpenConfigd.Go.Map
import OpenConfigd.Gobgp.Vrf
import Mathlib.Data.Finset.Basic

/-!
# The static routes of a VRF

`EtcdVrfStaticUpdate` deletes the routes that it has noted for a VRF and sets the new ones, each
with its first next hop. What it notes is a map: of two routes with one prefix only the last.

* `step_candidate`: what a call leaves in the candidate;
* `step_noted`: what is noted after a call;
* `static_follows_iff`: for which runs the candidate has the routes of the last updates.
-/

namespace OpenConfigd.Vrf

open Gobgp (Route)
open Function (update)

/-- A prefix and a next hop of it. -/
abbrev StaticRoute := String × String

/-- The static routes of each VRF of the candidate, and `EtcdVrfStaticMap`. -/
structure Statics where
  candidate : Int → Finset StaticRoute := fun _ => ∅
  etcdVrfStaticMap : Int → Option (GoMap String String) := fun _ => none

/-- A call. -/
inductive StaticCall where
  | etcdVrfStaticUpdate (vrfId : Int) (routes : List Route)
  | etcdVrfStaticClear (vrfId : Int)

/-- The routes that have a next hop, with the first one. -/
def withNexthop (routes : List Route) : List StaticRoute :=
  routes.filterMap fun r => r.nexthopList.head?.map fun nexthop => (r.ipPrefix, nexthop)

namespace Statics

-- the `set` lines that the command parser takes
variable (accept : Int → StaticRoute → Bool)

/-- `set vrf name vrf%d static route %s nexthop %s`. -/
def set (s : Statics) (vrfId : Int) (r : StaticRoute) : Statics :=
  if accept vrfId r then { s with candidate := update s.candidate vrfId (insert r (s.candidate vrfId)) }
  else s

/-- `delete vrf name vrf%d static route %s nexthop %s`. -/
def delete (s : Statics) (vrfId : Int) (r : StaticRoute) : Statics :=
  { s with candidate := update s.candidate vrfId ((s.candidate vrfId).erase r) }

/-- `EtcdVrfStaticClear`. -/
def etcdVrfStaticClear (s : Statics) (vrfId : Int) : Statics :=
  match s.etcdVrfStaticMap vrfId with
  | none => s
  | some staticRoutes =>
    let s := staticRoutes.entries.foldl (fun s x => s.delete vrfId (x.1, x.2)) s
    { s with etcdVrfStaticMap := update s.etcdVrfStaticMap vrfId none }

/-- The map of the routes, in which the last of a prefix stays. -/
def noted (routes : List StaticRoute) : GoMap String String :=
  routes.foldl (fun m r => m.insert r.1 r.2) ∅

/-- `EtcdVrfStaticUpdate`. -/
def etcdVrfStaticUpdate (s : Statics) (vrfId : Int) (routes : List Route) : Statics :=
  let s := s.etcdVrfStaticClear vrfId
  if routes.length = 0 then s
  else
    let s := (withNexthop routes).foldl (fun s r => s.set accept vrfId r) s
    { s with etcdVrfStaticMap := update s.etcdVrfStaticMap vrfId (some (noted (withNexthop routes))) }

/-- The state after a call. -/
def step (s : Statics) : StaticCall → Statics
  | .etcdVrfStaticUpdate vrfId routes => s.etcdVrfStaticUpdate accept vrfId routes
  | .etcdVrfStaticClear vrfId => s.etcdVrfStaticClear vrfId

/-- The state after calls from the start. -/
def after (calls : List StaticCall) : Statics := calls.foldl (step accept) {}

end Statics

/-- The VRF of a call. -/
def StaticCall.vrfId : StaticCall → Int
  | .etcdVrfStaticUpdate vrfId _ => vrfId
  | .etcdVrfStaticClear vrfId => vrfId

/-- The routes of an update that have a next hop; none for a clear. -/
def StaticCall.routes : StaticCall → List StaticRoute
  | .etcdVrfStaticUpdate _ routes => withNexthop routes
  | .etcdVrfStaticClear _ => []

/-- The routes of the last call for a VRF. -/
def lastRoutes (calls : List StaticCall) (vrfId : Int) : List StaticRoute :=
  ((calls.filter fun c => c.vrfId = vrfId).getLast?.map StaticCall.routes).getD []

/-- A later route of the list has the prefix and another next hop, which is the last of it. -/
def Overridden (routes : List StaticRoute) (r : StaticRoute) : Prop :=
  r ∈ routes ∧ (routes.filter fun r' => r'.1 = r.1).getLast? ≠ some r

/-- The call is right about the routes: the command parser takes them, and they have again what
the last call for the VRF has overridden. -/
structure StaticCall.Safe (accept : Int → StaticRoute → Bool) (before : List StaticCall)
    (c : StaticCall) : Prop where
  accepted : ∀ r ∈ c.routes, accept c.vrfId r = true
  overridden : ∀ r, Overridden (lastRoutes before c.vrfId) r → r ∈ c.routes

namespace Statics

variable {accept : Int → StaticRoute → Bool} {s : Statics}

/-! ## One call -/

theorem delete_fold (vrfId : Int) (l : List (Σ _ : String, String)) (s : Statics) :
    l.foldl (fun s x => s.delete vrfId (x.1, x.2)) s = { s with
      candidate := update s.candidate vrfId
        ((s.candidate vrfId).filter fun r => ¬ ⟨r.1, r.2⟩ ∈ l) } := by
  induction l generalizing s with
  | nil => simp
  | cons x l ih =>
    rw [List.foldl_cons, ih, delete]
    simp only [Function.update_self, Function.update_idem]
    congr 2
    ext r
    obtain ⟨x₁, x₂⟩ := x
    obtain ⟨r₁, r₂⟩ := r
    simp only [Finset.mem_filter, Finset.mem_erase, List.mem_cons, Sigma.mk.injEq, heq_eq_eq, ne_eq,
      Prod.mk.injEq, not_or]
    tauto

theorem set_fold (vrfId : Int) (l : List StaticRoute) (s : Statics) :
    l.foldl (fun s r => s.set accept vrfId r) s = { s with
      candidate := update s.candidate vrfId
        (s.candidate vrfId ∪ (l.filter fun r => accept vrfId r).toFinset) } := by
  induction l generalizing s with
  | nil =>
    have hn : s.candidate vrfId ∪ (([] : List StaticRoute).filter fun r => accept vrfId r).toFinset =
        s.candidate vrfId := by ext; simp
    rw [hn, Function.update_eq_self]
    rfl
  | cons r l ih =>
    rw [List.foldl_cons, ih, set]
    by_cases h : accept vrfId r = true
    · simp only [h, if_true, Function.update_self, Function.update_idem]
      congr 2
      ext r'
      simp only [List.filter_cons_of_pos h, List.toFinset_cons, Finset.mem_union, Finset.mem_insert]
      tauto
    · simp [h]

/-- What is noted for a VRF. -/
def nexthopNoted (s : Statics) (vrfId : Int) (ipPrefix : String) : Option String :=
  (s.etcdVrfStaticMap vrfId).bind fun m => m.lookup ipPrefix

theorem clear_eq (s : Statics) (vrfId : Int) : s.etcdVrfStaticClear vrfId = {
    candidate := update s.candidate vrfId
      ((s.candidate vrfId).filter fun r => s.nexthopNoted vrfId r.1 ≠ some r.2)
    etcdVrfStaticMap := update s.etcdVrfStaticMap vrfId none } := by
  rw [etcdVrfStaticClear]
  cases h : s.etcdVrfStaticMap vrfId with
  | none =>
    have hf : (s.candidate vrfId).filter (fun r => s.nexthopNoted vrfId r.1 ≠ some r.2) =
        s.candidate vrfId := by
      refine Finset.filter_true_of_mem fun r _ => ?_
      simp [nexthopNoted, h]
    dsimp only
    rw [hf, Function.update_eq_self, ← h, Function.update_eq_self]
  | some m =>
    dsimp only
    rw [delete_fold]
    dsimp only
    congr 2
    refine Finset.filter_congr fun r _ => not_congr ?_
    rw [← AList.mem_lookup_iff, nexthopNoted, h, Option.bind_some]
    exact Iff.rfl

theorem lookup_noted (routes : List StaticRoute) (r : StaticRoute) :
    (noted routes).lookup r.1 = some r.2 ↔ (routes.filter fun r' => r'.1 = r.1).getLast? = some r := by
  induction routes using List.reverseRecOn with
  | nil => simp [noted]
  | append_singleton routes r' ih =>
    have hn : noted (routes ++ [r']) = (noted routes).insert r'.1 r'.2 := by
      rw [noted, List.foldl_append]
      rfl
    rw [hn, List.filter_append]
    by_cases h : r'.1 = r.1
    · rw [← h, AList.lookup_insert, List.filter_cons_of_pos (by simp), List.filter_nil, List.getLast?_concat,
        Option.some.injEq, Option.some.injEq, Prod.ext_iff]
      exact ⟨fun h₂ => ⟨h, h₂⟩, fun h₂ => h₂.2⟩
    · rw [AList.lookup_insert_ne (Ne.symm h), List.filter_cons_of_neg (by simpa using h), List.filter_nil,
        List.append_nil, ih]

theorem nexthopNoted_update (m : Int → Option (GoMap String String)) (t : Int → Finset StaticRoute)
    (vrfId v : Int) (o : Option (GoMap String String)) (p : String) :
    nexthopNoted ⟨t, update m vrfId o⟩ v p =
      if v = vrfId then o.bind fun m => m.lookup p else nexthopNoted ⟨t, m⟩ v p := by
  rw [nexthopNoted, nexthopNoted]
  dsimp only
  by_cases h : v = vrfId
  · subst h
    rw [if_pos rfl, Function.update_self]
  · rw [if_neg h, Function.update_of_ne h]

theorem update_eq (s : Statics) (vrfId : Int) (routes : List Route) :
    s.etcdVrfStaticUpdate accept vrfId routes = {
      candidate := update s.candidate vrfId
        ((s.candidate vrfId).filter (fun r => s.nexthopNoted vrfId r.1 ≠ some r.2) ∪
          ((withNexthop routes).filter fun r => accept vrfId r).toFinset)
      etcdVrfStaticMap := update s.etcdVrfStaticMap vrfId
        (if routes.length = 0 then none else some (noted (withNexthop routes))) } := by
  rw [etcdVrfStaticUpdate, clear_eq]
  dsimp only
  split
  · rename_i h
    rw [List.length_eq_zero_iff.mp h]
    congr 2
    ext r
    simp [withNexthop]
  · rw [set_fold]
    simp only [Function.update_self, Function.update_idem]

/-- What a call leaves in the candidate. -/
theorem step_candidate (s : Statics) (c : StaticCall) (vrfId : Int) :
    (s.step accept c).candidate vrfId = if vrfId = c.vrfId then
        (s.candidate vrfId).filter (fun r => s.nexthopNoted vrfId r.1 ≠ some r.2) ∪
          (c.routes.filter fun r => accept vrfId r).toFinset
      else s.candidate vrfId := by
  cases c with
  | etcdVrfStaticClear v =>
    rw [step, clear_eq, StaticCall.vrfId, StaticCall.routes]
    dsimp only
    by_cases h : vrfId = v
    · subst h
      rw [Function.update_self, if_pos rfl]
      ext r
      simp
    · rw [Function.update_of_ne h, if_neg h]
  | etcdVrfStaticUpdate v routes =>
    rw [step, update_eq, StaticCall.vrfId, StaticCall.routes]
    dsimp only
    by_cases h : vrfId = v
    · subst h
      rw [Function.update_self, if_pos rfl]
    · rw [Function.update_of_ne h, if_neg h]

/-- What a call notes. -/
theorem step_noted (s : Statics) (c : StaticCall) (vrfId : Int) (p : String) :
    (s.step accept c).nexthopNoted vrfId p = if vrfId = c.vrfId then (noted c.routes).lookup p
      else s.nexthopNoted vrfId p := by
  cases c with
  | etcdVrfStaticClear v =>
    rw [step, clear_eq, nexthopNoted_update]
    rfl
  | etcdVrfStaticUpdate v routes =>
    rw [step, update_eq, nexthopNoted_update, StaticCall.vrfId, StaticCall.routes]
    split
    · split
      · rename_i h
        rw [List.length_eq_zero_iff.mp h]
        rfl
      · rfl
    · rfl

/-! ## Runs -/

theorem after_snoc (before : List StaticCall) (c : StaticCall) :
    after accept (before ++ [c]) = (after accept before).step accept c := by
  rw [after, List.foldl_append]
  rfl

end Statics

theorem lastRoutes_snoc (before : List StaticCall) (c : StaticCall) (vrfId : Int) :
    lastRoutes (before ++ [c]) vrfId = if vrfId = c.vrfId then c.routes else lastRoutes before vrfId := by
  rw [lastRoutes, List.filter_append]
  by_cases h : vrfId = c.vrfId
  · rw [if_pos h, List.filter_cons_of_pos (by simp [h]), List.filter_nil, List.getLast?_concat]
    rfl
  · rw [if_neg h, List.filter_cons_of_neg (by simpa using Ne.symm h), List.filter_nil, List.append_nil]
    rfl

/-- The candidate has the static routes of the last updates. -/
def StaticsFollow (accept : Int → StaticRoute → Bool) (calls : List StaticCall) : Prop :=
  ∀ vrfId, (Statics.after accept calls).candidate vrfId = (lastRoutes calls vrfId).toFinset

section

variable {accept : Int → StaticRoute → Bool}

/-- The last routes of the prefixes are noted. -/
theorem after_noted (calls : List StaticCall) (vrfId : Int) (p : String) :
    (Statics.after accept calls).nexthopNoted vrfId p =
      (Statics.noted (lastRoutes calls vrfId)).lookup p := by
  induction calls using List.reverseRecOn with
  | nil => rfl
  | append_singleton before c ih =>
    rw [Statics.after_snoc, Statics.step_noted, lastRoutes_snoc]
    split
    · rfl
    · exact ih

/-- Only routes that the command parser takes are in the candidate. -/
theorem after_accepted (calls : List StaticCall) (vrfId : Int) :
    ∀ r ∈ (Statics.after accept calls).candidate vrfId, accept vrfId r = true := by
  induction calls using List.reverseRecOn with
  | nil => simp [Statics.after]
  | append_singleton before c ih =>
    intro r hr
    rw [Statics.after_snoc, Statics.step_candidate] at hr
    split at hr
    · rcases Finset.mem_union.mp hr with hr | hr
      · exact ih r (Finset.mem_filter.mp hr).1
      · exact (List.mem_filter.mp (List.mem_toFinset.mp hr)).2
    · exact ih r hr

theorem follow_nil : StaticsFollow accept [] := fun _ => rfl

/-- When the candidate has the routes before a call, it has them after it just if the call is
right about them. -/
theorem follow_snoc {before : List StaticCall} (h : StaticsFollow accept before) (c : StaticCall) :
    StaticsFollow accept (before ++ [c]) ↔ c.Safe accept before := by
  have hstep (vrfId : Int) (r : StaticRoute) : r ∈ (Statics.after accept (before ++ [c])).candidate vrfId ↔
      if vrfId = c.vrfId then
        Overridden (lastRoutes before vrfId) r ∨ r ∈ c.routes ∧ accept vrfId r = true
      else r ∈ lastRoutes before vrfId := by
    rw [Statics.after_snoc, Statics.step_candidate]
    split
    · rw [Finset.mem_union, Finset.mem_filter, h, List.mem_toFinset, List.mem_toFinset, List.mem_filter,
        after_noted, Ne, Statics.lookup_noted, Overridden]
    · rw [h, List.mem_toFinset]
  constructor
  · intro hf
    have hiff (r : StaticRoute) :
        (Overridden (lastRoutes before c.vrfId) r ∨ r ∈ c.routes ∧ accept c.vrfId r = true) ↔ r ∈ c.routes := by
      have := hstep c.vrfId r
      rw [hf, lastRoutes_snoc, if_pos rfl, if_pos rfl, List.mem_toFinset] at this
      exact this.symm
    refine ⟨fun r hr => ?_, fun r hr => (hiff r).mp (.inl hr)⟩
    rcases (hiff r).mpr hr with ho | ha
    · refine after_accepted before c.vrfId r ?_
      rw [h, List.mem_toFinset]
      exact ho.1
    · exact ha.2
  · intro hs vrfId
    ext r
    rw [hstep, lastRoutes_snoc, List.mem_toFinset]
    split
    · rename_i he
      subst he
      constructor
      · rintro (ho | ha)
        · exact hs.overridden r ho
        · exact ha.1
      · exact fun hr => .inr ⟨hr, hs.accepted r hr⟩
    · rfl

/-- After each call of a run the candidate has the static routes of the last updates, just if each
call is right about the routes. -/
theorem static_follows_iff (accept : Int → StaticRoute → Bool) (calls : List StaticCall) :
    (∀ before c rest, calls = before ++ c :: rest → StaticsFollow accept (before ++ [c])) ↔
      ∀ before c rest, calls = before ++ c :: rest → c.Safe accept before := by
  constructor
  · intro h before c rest he
    refine (follow_snoc ?_ c).mp (h before c rest he)
    cases before using List.reverseRecOn with
    | nil => exact follow_nil
    | append_singleton before' c' =>
      exact h before' c' (c :: rest) (by rw [he, List.append_assoc, List.singleton_append])
  · intro h
    have hall : ∀ before rest, calls = before ++ rest → StaticsFollow accept before := by
      intro before
      induction before using List.reverseRecOn with
      | nil => exact fun _ _ => follow_nil
      | append_singleton before c ih =>
        intro rest he
        rw [List.append_assoc, List.singleton_append] at he
        exact (follow_snoc (ih _ he) c).mpr (h before c rest he)
    intro before c rest he
    exact hall (before ++ [c]) rest (by rw [he, List.append_assoc, List.singleton_append])

end

/-- Two next hops of one prefix, and then a clear. -/
theorem static_leaves_nexthop :
    ¬ StaticsFollow (fun _ _ => true) [
      .etcdVrfStaticUpdate 1 [{ ipPrefix := "10.0.0.0/8", nexthopList := ["10.1.1.1"] },
        { ipPrefix := "10.0.0.0/8", nexthopList := ["10.1.1.2"] }],
      .etcdVrfStaticClear 1] := by
  intro h
  have h₁ := h 1
  revert h₁
  decide

end OpenConfigd.Vrf
