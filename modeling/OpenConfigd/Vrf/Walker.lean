import OpenConfigd.Vrf.Daemons

/-!
# The nexthop walker

`nexthop-walker` is to be on while a `bgpd` or `ospfd` runs for a VRF. Every parse and delete of a
VRF updates it after its own change; `QuaggaDelete`, for the delete of a key `vrf/<id>/bgp`, does
not.

* `Daemons.WalkerRight.call`: the calls that keep it right;
* `Daemons.WalkerRight.stopsLast`: the one that does not;
* `nexthop_walker_iff`: for which runs it is right after every event.
-/

namespace OpenConfigd.Vrf

open Etcd (Request etcdKeyValueParse etcdKeyDelete served fields)
open Quaggad (atoiValue)

namespace Daemons

variable {Ospf R : Type}

/-- The key is `bgp` of a VRF, whose processes are the only ones. -/
def StopsLast (s : Daemons Ospf R) (key : List UInt8) : Prop :=
  ∃ id rest, served (fields key) = "vrf" :: id :: "bgp" :: rest ∧ atoiValue id ≠ 0 ∧
    (s.quaggaProc.lookup (atoiValue id)).isSome ∧
    (∀ v, v ≠ atoiValue id → s.quaggaProc.lookup v = none) ∧ ∀ v, s.ospfProcessMap.lookup v = none

variable {s s' : Daemons Ospf R} {host : Host Ospf R} {creatable : Bool}

/-- A call other than `QuaggaDelete`. -/
theorem WalkerRight.call (h : s.WalkerRight) (hs : s.Sound) {r : Request}
    (hr : ∀ vrfId, r ≠ .quaggaDelete vrfId) : (s.call host creatable r).WalkerRight := by
  cases r with
  | gobgpParse body =>
    rw [Daemons.call, Daemons.gobgpParse]
    split <;> exact h
  | quaggaConfigSync value vrfId =>
    rw [Daemons.call]
    split <;> exact h
  | vrfParse vrfId body =>
    rw [Daemons.call]
    split
    · exact h
    · next vrf _ =>
      -- The last step of `OspfVrfSync` is the update.
      have hsync := hs.quaggaVrfSync host.password vrfId vrf
      have hospf := hsync.ospfVrfSync creatable vrfId vrf
      rw [ospfVrfSync_eq] at hospf
      have hright : (Daemons.ospfVrfSync creatable (s.quaggaVrfSync host.password vrfId vrf) vrfId
          vrf).WalkerRight := by
        rw [ospfVrfSync_eq]
        exact Sound.walkerRight ⟨hospf.filled, hospf.bgpd, hospf.ospfd, hospf.hubs⟩
      -- The updates of GoBGP and of the monitor leave the maps and the walker.
      obtain ⟨processList, node, next, hhub, -, -⟩ := gobgpHubUpdate_eq
        (s := ((s.quaggaVrfSync host.password vrfId vrf).ospfVrfSync creatable vrfId vrf).gobgpVrfUpdate
          vrf.copy) vrf.copy
      rw [vrfParse]
      rw [hhub]
      exact hright
  | quaggaDelete vrfId => exact absurd rfl (hr vrfId)
  | vrfDelete vrfId =>
    have hgobgp := (hs.gobgpVrfDelete vrfId).gobgpHubDelete vrfId
    have hd := ((hgobgp.quaggaDelete vrfId).nexthopWalkerUpdate).ospfVrfStop vrfId
    exact Sound.walkerRight
      (s := { (((s.gobgpVrfDelete vrfId).gobgpHubDelete vrfId).quaggaVrfDelete vrfId).ospfVrfStop vrfId with
        ospfVrfMap := s.ospfVrfMap.erase vrfId }) ⟨hd.filled, hd.bgpd, hd.ospfd, hd.hubs⟩
  | processQuaggaConfigDelete vrfId => exact h
  | _ => exact h

theorem WalkerRight.calls (h : s.WalkerRight) (hs : s.Sound) {rs : List Request}
    (hr : ∀ vrfId, .quaggaDelete vrfId ∉ rs) : (rs.foldl (Daemons.call host creatable) s).WalkerRight := by
  induction rs generalizing s with
  | nil => exact h
  | cons r rest ih =>
    have hfirst : (s.call host creatable r).WalkerRight :=
      h.call hs fun v heq => hr v (heq ▸ List.mem_cons_self)
    exact ih hfirst (hs.call host creatable r) fun v hv => hr v (List.mem_cons_of_mem _ hv)

theorem running_quaggaDelete (hs : s.Sound) (vrfId : Int) : (s.quaggaDelete vrfId).Running ↔
    (∃ v, v ≠ vrfId ∧ s.quaggaProc.lookup v ≠ none) ∨ ∃ v, s.ospfProcessMap.lookup v ≠ none := by
  rw [(hs.quaggaDelete vrfId).running_iff]
  refine or_congr ⟨?_, ?_⟩ Iff.rfl
  · rintro ⟨v, hv⟩
    rw [Daemons.quaggaDelete] at hv
    by_cases heq : v = vrfId
    · rw [heq, AList.lookup_erase] at hv
      exact absurd rfl hv
    · rw [AList.lookup_erase_ne heq] at hv
      exact ⟨v, heq, hv⟩
  · rintro ⟨v, hne, hv⟩
    refine ⟨v, ?_⟩
    rw [Daemons.quaggaDelete]
    rwa [AList.lookup_erase_ne hne]

/-- `QuaggaDelete` keeps the walker right just if it does not end the last process. -/
theorem WalkerRight.quaggaDelete_iff (h : s.WalkerRight) (hs : s.Sound) (vrfId : Int) :
    (s.quaggaDelete vrfId).WalkerRight ↔
      ¬ ((s.quaggaProc.lookup vrfId).isSome ∧ (∀ v, v ≠ vrfId → s.quaggaProc.lookup v = none) ∧
        ∀ v, s.ospfProcessMap.lookup v = none) := by
  have hflag : (s.quaggaDelete vrfId).nexthopWalker = s.nexthopWalker := rfl
  have hright : s.nexthopWalker = true ↔ s.Running := h
  rw [WalkerRight, hflag, hright, running_quaggaDelete hs, hs.running_iff]
  constructor
  · rintro hiff ⟨hsome, hothers, hospf⟩
    rcases hiff.mp (.inl ⟨vrfId, Option.isSome_iff_ne_none.mp hsome⟩) with ⟨v, hne, hv⟩ | ⟨v, hv⟩
    · exact hv (hothers v hne)
    · exact hv (hospf v)
  · intro hnot
    constructor
    · rintro (⟨v, hv⟩ | hospf)
      · by_contra hnone
        rw [not_or, not_exists, not_exists] at hnone
        refine hnot ⟨?_, fun u hu => ?_, fun u => not_not.mp (hnone.2 u)⟩
        · by_cases heq : v = vrfId
          · exact Option.isSome_iff_ne_none.mpr (heq ▸ hv)
          · exact absurd ⟨heq, hv⟩ (hnone.1 v)
        · by_contra hsome
          exact hnone.1 u ⟨hu, hsome⟩
      · exact .inr hospf
    · rintro (⟨v, -, hv⟩ | hospf)
      · exact .inl ⟨v, hv⟩
      · exact .inr hospf

/-- An event that does not end the last process by `QuaggaDelete`. -/
theorem WalkerRight.step (h : s.WalkerRight) (hs : s.Sound) {e : Event} (hstep : s.step host e = some s')
    (he : ∀ key, e = .delete key → ¬ s.StopsLast key) : s'.WalkerRight := by
  cases e with
  | put key value creatable =>
    obtain ⟨rs, hrs, rfl⟩ := Option.map_eq_some_iff.mp hstep
    obtain ⟨loc, hput⟩ := Etcd.etcdKeyValueParse_eq host.jsonBody key value
    rw [hput] at hrs
    refine h.calls hs fun v => ?_
    split at hrs
    · cases hrs
      exact List.not_mem_nil
    · split at hrs
      · cases hrs
        exact List.not_mem_nil
      · exact Etcd.putRequest_quaggaDelete hrs v
  | delete key =>
    obtain ⟨rs, hrs, rfl⟩ := Option.map_eq_some_iff.mp hstep
    obtain ⟨loc, hdelete⟩ := Etcd.etcdKeyDelete_eq key
    rw [hdelete] at hrs
    split at hrs
    · cases hrs
      exact h
    · rcases Etcd.deleteRequest_cases hrs with ⟨id, rest, hpath, hid⟩ | hnone
      · rw [hpath, Etcd.deleteRequest_bgp rest loc hid] at hrs
        cases hrs
        have hnot := he key rfl
        refine (h.quaggaDelete_iff hs (atoiValue id)).mpr fun hlast => hnot ?_
        exact ⟨id, rest, hpath, hid, hlast⟩
      · exact h.calls hs hnone

/-- The delete that ends the last process leaves the walker on. -/
theorem WalkerRight.stopsLast (h : s.WalkerRight) (hs : s.Sound) {key : List UInt8}
    (hlast : s.StopsLast key) : ∃ s', s.step host (.delete key) = some s' ∧ ¬ s'.WalkerRight := by
  obtain ⟨id, rest, hpath, hid, hlast⟩ := hlast
  obtain ⟨loc, hdelete⟩ := Etcd.etcdKeyDelete_eq key
  have hne : served (fields key) ≠ [] := by
    rw [hpath]
    exact List.cons_ne_nil _ _
  refine ⟨s.quaggaDelete (atoiValue id), ?_, fun hright => ?_⟩
  · rw [Daemons.step, hdelete, if_neg hne, hpath, Etcd.deleteRequest_bgp rest loc hid]
    rfl
  · exact (h.quaggaDelete_iff hs (atoiValue id)).mp hright hlast

theorem walkerRight_empty : ({} : Daemons Ospf R).WalkerRight := by
  rw [WalkerRight, sound_empty.running_iff]
  simp

end Daemons

open Daemons in
/-- After every event of a run `nexthop-walker` is set just if a process is in `QuaggaProc` or
`OspfProcessMap`: this is so just if no delete of `bgp` of a VRF ends the last processes. -/
theorem nexthop_walker_iff {Ospf R : Type} (host : Host Ospf R) (es : List Event) :
    (∀ before rest, es = before ++ rest → ∀ s, Runs.run (step host) {} before = some s → s.WalkerRight) ↔
      ∀ before key rest, es = before ++ .delete key :: rest →
        ∀ s, Runs.run (step host) {} before = some s → ¬ s.StopsLast key := by
  constructor
  · intro h before key rest he s hrun hlast
    have hright := h before _ he s hrun
    obtain ⟨s', hstep, hwrong⟩ := hright.stopsLast (sound_run sound_empty hrun) hlast
    refine hwrong (h (before ++ [.delete key]) rest (by rw [he, List.append_assoc]; rfl) s' ?_)
    rw [Runs.run_snoc, hrun, Option.bind_some, hstep]
  · intro h before
    induction before using List.reverseRecOn with
    | nil =>
      intro rest _ s hrun
      cases hrun
      exact walkerRight_empty
    | append_singleton before e ih =>
      intro rest he s hrun
      rw [List.append_assoc, List.singleton_append] at he
      rw [Runs.run_snoc] at hrun
      obtain ⟨s₁, hbefore, hstep⟩ := Option.bind_eq_some_iff.mp hrun
      refine (ih _ he s₁ hbefore).step (sound_run sound_empty hbefore) hstep fun key hkey => ?_
      subst hkey
      exact h before key rest he s₁ hbefore

/-- A VRF with a `bgpd`, and the delete of its `bgp`. -/
theorem nexthop_walker_left : ∃ s : Daemons Unit Unit,
    Runs.run (Daemons.step oneBgpd) {} [.put (Etcd.bytes "/config/services/vrf/1") [] true,
      .delete (Etcd.bytes "/config/services/vrf/1/bgp")] = some s ∧ ¬ s.WalkerRight := by
  have hrun : (Runs.run (Daemons.step oneBgpd) {} [.put (Etcd.bytes "/config/services/vrf/1") [] true,
      .delete (Etcd.bytes "/config/services/vrf/1/bgp")]).map
        (fun s => (s.nexthopWalker, s.quaggaProc.keys, s.ospfProcessMap.keys)) = some (true, [], []) := by
    decide +kernel
  obtain ⟨s, hs, heq⟩ := Option.map_eq_some_iff.mp hrun
  obtain ⟨hwalker, hbgpd, hospfd⟩ : s.nexthopWalker = true ∧ s.quaggaProc.keys = [] ∧
    s.ospfProcessMap.keys = [] := by simpa using heq
  refine ⟨s, hs, fun hright => ?_⟩
  rcases hright.mp hwalker with ⟨v, ps, p, hps, -⟩ | ⟨v, p, hp⟩
  · have hmem := AList.mem_keys.mp (AList.lookup_isSome.mp (by rw [hps]; rfl : (s.quaggaProc.lookup v).isSome))
    rw [hbgpd] at hmem
    cases hmem
  · have hmem := AList.mem_keys.mp (AList.lookup_isSome.mp (by rw [hp]; rfl : (s.ospfProcessMap.lookup v).isSome))
    rw [hospfd] at hmem
    cases hmem

end OpenConfigd.Vrf
