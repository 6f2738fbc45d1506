import OpenConfigd.Gobgp.Config

/-!
# The ribs of a VRF

`GobgpVrfRibSync` adds the new ribs that are not among the old ones, and then deletes the old ones
that no new one has marked. `DeleteVRFPath` goes by the prefix alone, and a mark goes to the first
of several equal old ribs.

* `marks_cons`, `all_marked`: which old ribs are marked;
* `ribSync_paths`: the paths that are left;
* `rib_sync_agrees_iff`: when they are those of the new ribs.
-/

namespace OpenConfigd.Gobgp

open Function (update)

/-- What `VrfRib.Equal` compares. -/
def VrfRib.route (r : VrfRib) : String × String := (r.ipPrefix, r.nextHop)

theorem VrfRib.equal_iff {r r' : VrfRib} : r.equal r' = true ↔ r.route = r'.route := by
  simp [VrfRib.equal, VrfRib.route]

section

variable {Rd Rt Nlri Hop : Type} [DecidableEq Nlri] (parsers : Parsers Rd Rt Nlri Hop)

/-- The ribs of a prefix. -/
def ribsOf (nlri : Nlri) (ribs : List VrfRib) : List VrfRib :=
  ribs.filter fun r => parsers.parsePrefix r.ipPrefix = some nlri

/-- The path of a rib. -/
def ribPath (r : VrfRib) : Path Hop := ⟨parsers.newPathAttributeNextHop r.nextHop, []⟩

/-- The path of the last rib of a prefix. -/
def lastPath (ribs : List VrfRib) (nlri : Nlri) : Option (Path Hop) :=
  (ribsOf parsers nlri ribs).getLast?.map (ribPath parsers)

/-- The new ribs of a prefix that are not among the old ones. -/
def addedRibs (nlri : Nlri) (old new : List VrfRib) : List VrfRib :=
  (ribsOf parsers nlri new).filter fun n => !old.any fun r => r.equal n

/-- The sync is right about a prefix of the new ribs: no two old ribs of it are equal, each is
among the new ones, and the last of those that are added, or of the old ones if there are none,
has the next hop of the last new one. -/
structure RibsSafe (nlri : Nlri) (old new : List VrfRib) : Prop where
  nodup : ((ribsOf parsers nlri old).map VrfRib.route).Nodup
  kept : ∀ o ∈ ribsOf parsers nlri old, ∃ n ∈ new, o.route = n.route
  last : ((addedRibs parsers nlri old new).getLast?.or (ribsOf parsers nlri old).getLast?).map
    (ribPath parsers) = lastPath parsers new nlri

end

/-! ## The marks -/

/-- The ribs that `GobgpVrfEqual` leaves: the first old one that is equal is marked. -/
def markRib (old : List VrfRib) (nrib : VrfRib) : List VrfRib := (State.gobgpVrfEqual old nrib).2

theorem markRib_cons (r : VrfRib) (old : List VrfRib) (nrib : VrfRib) : markRib (r :: old) nrib =
    if r.equal nrib then { r with same := true } :: old else r :: markRib old nrib := rfl

theorem markRib_none {old : List VrfRib} {nrib : VrfRib} (h : ¬ old.any fun r => r.equal nrib) :
    markRib old nrib = old := by
  induction old with
  | nil => rfl
  | cons r old ih =>
    simp only [List.any_cons, Bool.or_eq_true, not_or] at h
    rw [markRib_cons, if_neg h.1, ih h.2]

/-- Marks do not change what the ribs are compared by. -/
theorem markRib_any (old : List VrfRib) (nrib n : VrfRib) :
    (markRib old nrib).any (fun r => r.equal n) = old.any fun r => r.equal n := by
  induction old with
  | nil => rfl
  | cons r old ih =>
    rw [markRib_cons]
    split
    · rfl
    · rw [List.any_cons, List.any_cons, ih]

/-- A rib is marked by the new ones that are equal to it, and takes them from the ribs after it. -/
theorem marks_cons (r : VrfRib) (old new : List VrfRib) : new.foldl markRib (r :: old) =
    { r with same := r.same || new.any fun n => r.equal n } ::
      (new.filter fun n => !r.equal n).foldl markRib old := by
  induction new generalizing r old with
  | nil => simp
  | cons n new ih =>
    rw [List.foldl_cons, markRib_cons]
    by_cases h : r.equal n = true
    · rw [if_pos h, ih]
      have heq (n : VrfRib) : VrfRib.equal { r with same := true } n = r.equal n := rfl
      simp [h, heq]
    · rw [if_neg h, ih]
      simp [h]

variable {Rd Rt Nlri Hop : Type} [DecidableEq Nlri]

theorem all_marked (parsers : Parsers Rd Rt Nlri Hop) (nlri : Nlri) (old new : List VrfRib)
    (hold : ∀ r ∈ old, r.same = false) :
    (∀ r ∈ ribsOf parsers nlri (new.foldl markRib old), r.same = true) ↔
      ((ribsOf parsers nlri old).map VrfRib.route).Nodup ∧
        ∀ o ∈ ribsOf parsers nlri old, ∃ n ∈ new, o.route = n.route := by
  induction old generalizing new with
  | nil =>
    have hnil : new.foldl markRib [] = [] := by
      induction new with
      | nil => rfl
      | cons n new ih => exact ih
    simp [hnil, ribsOf]
  | cons r old ih =>
    have hr : r.same = false := hold r List.mem_cons_self
    have ih := ih (new.filter fun n => !r.equal n) fun o ho => hold o (List.mem_cons_of_mem r ho)
    have hmem {o : VrfRib} : (∃ n ∈ new.filter fun n => !r.equal n, o.route = n.route) ↔
        r.route ≠ o.route ∧ ∃ n ∈ new, o.route = n.route := by
      simp only [List.mem_filter, Bool.not_eq_true', ← Bool.not_eq_true, VrfRib.equal_iff]
      constructor
      · rintro ⟨n, ⟨hn, hne⟩, he⟩
        exact ⟨fun h => hne (h.trans he), n, hn, he⟩
      · rintro ⟨hne, n, hn, he⟩
        exact ⟨n, ⟨hn, fun h => hne (h.trans he.symm)⟩, he⟩
    have hany : (new.any fun n => r.equal n) = true ↔ ∃ n ∈ new, r.route = n.route := by
      simp only [List.any_eq_true, VrfRib.equal_iff]
    rw [marks_cons]
    by_cases hp : parsers.parsePrefix r.ipPrefix = some nlri
    · rw [ribsOf, List.filter_cons_of_pos (by simpa using hp), List.forall_mem_cons, ← ribsOf, ih, ribsOf,
        ribsOf, List.filter_cons_of_pos (by simpa using hp), List.map_cons, List.nodup_cons,
        List.forall_mem_cons, ← ribsOf, hr, Bool.false_or, hany]
      simp only [hmem, List.mem_map, not_exists, not_and]
      constructor
      · rintro ⟨h₁, h₂, h₃⟩
        exact ⟨⟨fun o ho he => (h₃ o ho).1 he.symm, h₂⟩, h₁, fun o ho => (h₃ o ho).2⟩
      · rintro ⟨⟨h₁, h₂⟩, h₃, h₄⟩
        exact ⟨h₃, h₂, fun o ho => ⟨fun he => h₁ o ho he.symm, h₄ o ho⟩⟩
    · rw [ribsOf, List.filter_cons_of_neg (by simpa using hp), ← ribsOf, ih, ribsOf, ribsOf,
        List.filter_cons_of_neg (by simpa using hp), ← ribsOf]
      simp only [hmem]
      refine and_congr_right fun _ => forall₂_congr fun o ho => and_iff_right fun he => hp ?_
      -- Ribs with the same text have the same prefix.
      have hpo := (List.mem_filter.mp ho).2
      rw [show r.ipPrefix = o.ipPrefix from congrArg Prod.fst he]
      simpa using hpo

/-! ## The paths -/

section

variable {G S B O E : Type} (api : Api G S B O E Rd Rt Nlri Hop) {name : String}

/-- The ribs that are added, and the marks. -/
theorem ribSyncAdd_eq (old new : List VrfRib) (s : Vrfs Rd Rt Nlri Hop) :
    State.ribSyncAdd api name old new s = (new.foldl markRib old,
      ((new.filter fun n => !old.any fun r => r.equal n).filterMap (gobgpVrfPath api.toParsers)).foldl
        (fun s path => s.addVrfPath name path) s) := by
  induction new generalizing old s with
  | nil => rfl
  | cons n new ih =>
    have hequal : State.gobgpVrfEqual old n = (old.any fun r => r.equal n, markRib old n) := rfl
    rw [State.ribSyncAdd, hequal, List.foldl_cons]
    dsimp only
    by_cases h : (old.any fun r => r.equal n) = true
    · rw [if_pos h, ih]
      simp only [markRib_any, List.filter_cons, h, Bool.not_true, Bool.false_eq_true, if_false]
    · rw [if_neg h, markRib_none h]
      simp only [Bool.not_eq_true] at h
      simp only [List.filter_cons, h, Bool.not_false, if_true]
      cases hp : gobgpVrfPath api.toParsers n with
      | none =>
        rw [List.filterMap_cons_none hp]
        exact ih old s
      | some path =>
        rw [List.filterMap_cons_some hp]
        exact ih old _

variable {api}

/-- The paths of the VRF after paths have been added. -/
theorem addVrfPath_paths (hname : name ≠ "") (paths : List (Nlri × Path Hop))
    {s : Vrfs Rd Rt Nlri Hop} {v : Vrf Rd Rt Nlri Hop} (hv : s name = some v) :
    ∃ v', paths.foldl (fun s path => s.addVrfPath name path) s name = some v' ∧ ∀ nlri,
      v'.paths nlri = ((paths.filter fun path => path.1 = nlri).getLast?.map Prod.snd).or (v.paths nlri) := by
  induction paths generalizing s v with
  | nil => exact ⟨v, hv, fun _ => rfl⟩
  | cons path paths ih =>
    have hadd : s.addVrfPath name path name =
        some { v with paths := update v.paths path.1 (some path.2) } := by
      rw [Vrfs.addVrfPath, if_neg hname, Function.update_self, hv]
      rfl
    obtain ⟨v', hv', hp⟩ := ih hadd
    refine ⟨v', hv', fun nlri => ?_⟩
    rw [hp nlri]
    dsimp only
    by_cases hn : path.1 = nlri
    · subst hn
      rw [List.filter_cons_of_pos (by simp), List.getLast?_cons, Function.update_self]
      cases (paths.filter fun p => p.1 = path.1).getLast? <;> rfl
    · rw [List.filter_cons_of_neg (by simpa using hn), Function.update_of_ne (Ne.symm hn)]

/-- The paths of the VRF after ribs have been deleted. -/
theorem deleteVrfPath_paths (hname : name ≠ "") (ribs : List VrfRib)
    {s : Vrfs Rd Rt Nlri Hop} {v : Vrf Rd Rt Nlri Hop} (hv : s name = some v) :
    ∃ v', ribs.foldl (fun s orib =>
        match gobgpVrfPath api.toParsers orib with
        | some path => s.deleteVrfPath name path.1
        | none => s) s name = some v' ∧ ∀ nlri,
      v'.paths nlri = if ribsOf api.toParsers nlri ribs = [] then v.paths nlri else none := by
  induction ribs generalizing s v with
  | nil => exact ⟨v, hv, fun _ => rfl⟩
  | cons r ribs ih =>
    rw [List.foldl_cons]
    cases hp : api.parsePrefix r.ipPrefix with
    | none =>
      have hpath : gobgpVrfPath api.toParsers r = none := by rw [gobgpVrfPath, hp]; rfl
      rw [hpath]
      obtain ⟨v', hv', hpaths⟩ := ih hv
      refine ⟨v', hv', fun nlri => ?_⟩
      rw [hpaths, ribsOf, ribsOf, List.filter_cons_of_neg (by simp [hp])]
    | some n =>
      have hpath : gobgpVrfPath api.toParsers r = some (n, ribPath api.toParsers r) := by
        rw [gobgpVrfPath, hp]
        rfl
      rw [hpath]
      have hdel : s.deleteVrfPath name n name = some { v with paths := update v.paths n none } := by
        rw [Vrfs.deleteVrfPath, if_neg hname, Function.update_self, hv]
        rfl
      obtain ⟨v', hv', hpaths⟩ := ih hdel
      refine ⟨v', hv', fun nlri => ?_⟩
      rw [hpaths]
      dsimp only
      by_cases hn : n = nlri
      · subst hn
        rw [Function.update_self, ite_self, if_neg]
        rw [ribsOf, List.filter_cons_of_pos (by simpa using hp)]
        exact List.cons_ne_nil _ _
      · rw [Function.update_of_ne (Ne.symm hn), ribsOf, ribsOf, List.filter_cons_of_neg]
        simpa [hp] using hn

/-- The added paths of a prefix. -/
theorem added_paths (nlri : Nlri) (ribs : List VrfRib) :
    ((ribs.filterMap (gobgpVrfPath api.toParsers)).filter fun path => path.1 = nlri).map Prod.snd =
      (ribsOf api.toParsers nlri ribs).map (ribPath api.toParsers) := by
  induction ribs with
  | nil => rfl
  | cons r ribs ih =>
    cases hp : api.parsePrefix r.ipPrefix with
    | none =>
      have hpath : gobgpVrfPath api.toParsers r = none := by rw [gobgpVrfPath, hp]; rfl
      rw [List.filterMap_cons_none hpath, ih, ribsOf, ribsOf, List.filter_cons_of_neg (by simp [hp])]
    | some n =>
      have hpath : gobgpVrfPath api.toParsers r = some (n, ribPath api.toParsers r) := by
        rw [gobgpVrfPath, hp]
        rfl
      rw [List.filterMap_cons_some hpath, List.filter_cons, ribsOf, List.filter_cons]
      by_cases hn : n = nlri
      · simp only [hn, hp, decide_true, if_true, List.map_cons, ih, ribsOf]
      · simp only [hn, hp, Option.some.injEq, decide_false, Bool.false_eq_true, if_false, ih, ribsOf]

/-- The paths that a sync leaves: none where an old rib is not marked, else that of the last rib
that is added, or the one there was. -/
theorem ribSync_paths (hname : name ≠ "") {old new : List VrfRib} {s : Vrfs Rd Rt Nlri Hop}
    {v : Vrf Rd Rt Nlri Hop} (hv : s name = some v) :
    ∃ v', State.gobgpVrfRibSync api name old new s name = some v' ∧ ∀ nlri, v'.paths nlri =
      if ((ribsOf api.toParsers nlri old).map VrfRib.route).Nodup ∧
          ∀ o ∈ ribsOf api.toParsers nlri old, ∃ n ∈ new, o.route = n.route then
        ((addedRibs api.toParsers nlri old new).getLast?.map (ribPath api.toParsers)).or (v.paths nlri)
      else none := by
  have hreset (nlri : Nlri) (old : List VrfRib) :
      (ribsOf api.toParsers nlri (old.map fun r => { r with same := false })).map VrfRib.route =
        (ribsOf api.toParsers nlri old).map VrfRib.route := by
    rw [ribsOf, List.filter_map, List.map_map]
    rfl
  have hany (n : VrfRib) : (old.map fun r => { r with same := false }).any (fun r => r.equal n) =
      old.any fun r => r.equal n := by
    rw [List.any_map]
    rfl
  rw [State.gobgpVrfRibSync, ribSyncAdd_eq]
  dsimp only
  simp only [hany]
  obtain ⟨v₁, hv₁, hp₁⟩ := addVrfPath_paths hname
    ((new.filter fun n => !old.any fun r => r.equal n).filterMap (gobgpVrfPath api.toParsers)) hv
  obtain ⟨v₂, hv₂, hp₂⟩ := @deleteVrfPath_paths _ _ _ _ _ _ _ _ _ _ api name hname
    ((new.foldl markRib (old.map fun r => { r with same := false })).filter fun r => !r.same) _ _ hv₁
  refine ⟨v₂, hv₂, fun nlri => ?_⟩
  have hmarks := all_marked api.toParsers nlri (old.map fun r => { r with same := false }) new
    (by simp)
  have hnone : ribsOf api.toParsers nlri
      ((new.foldl markRib (old.map fun r => { r with same := false })).filter fun r => !r.same) = [] ↔
      ∀ r ∈ ribsOf api.toParsers nlri (new.foldl markRib (old.map fun r => { r with same := false })),
        r.same = true := by
    rw [ribsOf, List.filter_filter, List.filter_eq_nil_iff]
    constructor
    · intro h r hr
      obtain ⟨hm, hp⟩ := List.mem_filter.mp hr
      have := h r hm
      simpa [hp] using this
    · intro h r hm hbad
      obtain ⟨hs, hp⟩ : r.same = false ∧ api.parsePrefix r.ipPrefix = some nlri := by
        simpa [and_comm] using hbad
      have := h r (List.mem_filter.mpr ⟨hm, by simpa using hp⟩)
      rw [hs] at this
      cases this
  have hkept : (∀ o ∈ ribsOf api.toParsers nlri (old.map fun r => { r with same := false }),
      ∃ n ∈ new, o.route = n.route) ↔
      ∀ o ∈ ribsOf api.toParsers nlri old, ∃ n ∈ new, o.route = n.route := by
    have hmem (l : List VrfRib) : (∀ o ∈ l, ∃ n ∈ new, o.route = n.route) ↔
        ∀ x ∈ l.map VrfRib.route, ∃ n ∈ new, x = n.route := by
      simp
    rw [hmem, hmem, hreset]
  have hadded : addedRibs api.toParsers nlri old new =
      ribsOf api.toParsers nlri (new.filter fun n => !old.any fun r => r.equal n) := by
    rw [addedRibs, ribsOf, ribsOf, List.filter_filter, List.filter_filter]
    simp only [Bool.and_comm]
  rw [hp₂, hp₁, ← List.getLast?_map, added_paths, List.getLast?_map, ← hadded]
  have hcond := (hnone.trans hmarks).trans (and_congr (by rw [hreset]) hkept)
  simp only [hcond]

/-- When the VRF has the paths of the old ribs, a sync leaves it with those of the new ones just
if it is right about each of their prefixes. -/
theorem rib_sync_agrees_iff (hname : name ≠ "") {old new : List VrfRib} {s : Vrfs Rd Rt Nlri Hop}
    {v : Vrf Rd Rt Nlri Hop} (hv : s name = some v)
    (hold : ∀ nlri, v.paths nlri = lastPath api.toParsers old nlri) :
    (∃ v', State.gobgpVrfRibSync api name old new s name = some v' ∧
      ∀ nlri, v'.paths nlri = lastPath api.toParsers new nlri) ↔
      ∀ nlri, ribsOf api.toParsers nlri new ≠ [] → RibsSafe api.toParsers nlri old new := by
  obtain ⟨v', hv', hpaths⟩ := @ribSync_paths _ _ _ _ _ _ _ _ _ _ api name hname old new s v hv
  have hone (nlri : Nlri) : v'.paths nlri = lastPath api.toParsers new nlri ↔
      (ribsOf api.toParsers nlri new ≠ [] → RibsSafe api.toParsers nlri old new) := by
    rw [hpaths, hold]
    by_cases hnew : ribsOf api.toParsers nlri new = []
    · -- Old ribs of a prefix that has no new ones are not marked.
      refine iff_of_true ?_ fun h => absurd hnew h
      have hadded : addedRibs api.toParsers nlri old new = [] := by
        rw [addedRibs, hnew]
        rfl
      have hnone : lastPath api.toParsers new nlri = none := by
        rw [lastPath, hnew]
        rfl
      rw [hnone, hadded]
      split
      · rename_i h
        have hnil : ribsOf api.toParsers nlri old = [] := by
          by_contra hne
          obtain ⟨o, ho⟩ := List.exists_mem_of_ne_nil _ hne
          obtain ⟨n, hn, he⟩ := h.2 o ho
          have hmem : n ∈ ribsOf api.toParsers nlri new := by
            refine List.mem_filter.mpr ⟨hn, ?_⟩
            rw [← show o.ipPrefix = n.ipPrefix from congrArg Prod.fst he]
            exact (List.mem_filter.mp ho).2
          rw [hnew] at hmem
          cases hmem
        rw [lastPath, hnil]
        rfl
      · rfl
    · have hsome : lastPath api.toParsers new nlri ≠ none := by
        rw [lastPath, Ne, Option.map_eq_none_iff, List.getLast?_eq_none_iff]
        exact hnew
      have hlast : ((addedRibs api.toParsers nlri old new).getLast?.map (ribPath api.toParsers)).or
          (lastPath api.toParsers old nlri) =
          ((addedRibs api.toParsers nlri old new).getLast?.or (ribsOf api.toParsers nlri old).getLast?).map
            (ribPath api.toParsers) := by
        rw [lastPath]
        cases (addedRibs api.toParsers nlri old new).getLast? <;> rfl
      rw [hlast]
      constructor
      · intro h _
        split at h
        · rename_i hk
          exact ⟨hk.1, hk.2, h⟩
        · exact absurd h.symm hsome
      · intro h
        have h := h hnew
        rw [if_pos ⟨h.nodup, h.kept⟩]
        exact h.last
  constructor
  · rintro ⟨v'', hv'', h⟩ nlri
    obtain rfl := Option.some.inj (hv'.symm.trans hv'')
    exact (hone nlri).mp (h nlri)
  · exact fun h => ⟨v', hv', fun nlri => (hone nlri).mpr (h nlri)⟩

end

/-- A rib, one of another prefix and one of another next hop. -/
def aRib : VrfRib := { ipPrefix := "10.0.0.0/8", nextHop := "10.1.1.1" }

def otherPrefix : VrfRib := { ipPrefix := "10.0.0.0/9", nextHop := "10.1.1.1" }

def otherHop : VrfRib := { ipPrefix := "10.0.0.0/8", nextHop := "10.1.1.2" }

/-- The server with one VRF that has the rib. -/
def aVrf : Vrf String String String String :=
  ⟨1, "1:1", [], [], lastPath plainApi.toParsers [aRib]⟩

/-- A rib of another prefix is added. -/
theorem rib_sync_agrees_iff_added : ∃ v',
    State.gobgpVrfRibSync plainApi "vrf1" [aRib] [aRib, otherPrefix] (update (fun _ => none) "vrf1" (some aVrf))
      "vrf1" = some v' ∧
    ∀ nlri, v'.paths nlri = lastPath plainApi.toParsers [aRib, otherPrefix] nlri := by
  refine (rib_sync_agrees_iff (by decide) (v := aVrf) rfl fun _ => rfl).mpr fun nlri hne => ?_
  by_cases h₁ : nlri = "10.0.0.0/8"
  · subst h₁
    exact ⟨by decide, by decide, by decide⟩
  · by_cases h₂ : nlri = "10.0.0.0/9"
    · subst h₂
      exact ⟨by decide, by decide, by decide⟩
    · refine absurd (List.filter_eq_nil_iff.mpr fun r hr hp => ?_) hne
      have hp : r.ipPrefix = nlri := Option.some.inj (of_decide_eq_true hp)
      rcases List.mem_cons.mp hr with rfl | hr
      · exact h₁ hp.symm
      · obtain rfl := List.mem_singleton.mp hr
        exact h₂ hp.symm

/-- A new next hop: the path is added and then deleted. -/
theorem rib_sync_loses_path : ∃ v',
    State.gobgpVrfRibSync plainApi "vrf1" [aRib] [otherHop] (update (fun _ => none) "vrf1" (some aVrf)) "vrf1" =
      some v' ∧
    v'.paths "10.0.0.0/8" ≠ lastPath plainApi.toParsers [otherHop] "10.0.0.0/8" :=
  ⟨_, rfl, by decide⟩

end OpenConfigd.Gobgp
