import OpenConfigd.Go.Decimal
import OpenConfigd.Vrf.Interfaces

/-!
# Updates of two VRFs

An update deletes what the old configuration of its VRF had of an interface, whoever
has the interface now. `updates_commute_iff` says when the updates of two VRFs lead to
the two new configurations in both orders: the parser takes the new lines, and of an
interface that moves to a VRF the lines that the other VRF still has to delete are not
among the new ones. `updates_collide` is an interface that moves with an address.
-/

namespace OpenConfigd.Vrf

open Keyed (get_iff get_eq_none)

/-! ## What the lines of an update do to an interface -/

/-- What a configuration says of an interface. -/
def settings (vrfId : Int) (ifp : Interface) : List Setting :=
  ifp.vlans.map .vlan ++ [.vrf (vrfName vrfId)] ++ ifp.ipv4.map .address ++
    if ifp.dhcpRelayGroup ≠ "" then [.dhcpRelayGroup ifp.dhcpRelayGroup] else []

/-- The lines of an interface that is as a configuration says. -/
def configured (vrfId : Int) (ifp : Interface) : Finset Setting := (settings vrfId ifp).toFinset

theorem vrfName_inj {a b : Int} : vrfName a = vrfName b ↔ a = b := by
  rw [vrfName, vrfName, String.append_right_inj, toString_int_inj]

section

variable {vrfId : Int} {ifp : Interface}

@[simp] theorem vlan_mem_settings {v : Int} : .vlan v ∈ settings vrfId ifp ↔ v ∈ ifp.vlans := by
  simp [settings]

@[simp] theorem vrf_mem_settings {name : String} :
    .vrf name ∈ settings vrfId ifp ↔ name = vrfName vrfId := by
  simp [settings]

@[simp] theorem address_mem_settings {ip : String} : .address ip ∈ settings vrfId ifp ↔ ip ∈ ifp.ipv4 := by
  simp [settings]

@[simp] theorem relay_mem_settings {name : String} :
    .dhcpRelayGroup name ∈ settings vrfId ifp ↔ name ≠ "" ∧ name = ifp.dhcpRelayGroup := by
  by_cases h : ifp.dhcpRelayGroup = ""
  · simp [settings, h]
  · simp only [settings, ne_eq, h, not_false_eq_true, if_true, List.mem_append, List.mem_map,
      List.mem_singleton]
    constructor
    · rintro (((⟨_, -, h'⟩ | h') | ⟨_, -, h'⟩) | h')
      · cases h'
      · cases h'
      · cases h'
      · cases h'
        exact ⟨h, rfl⟩
    · rintro ⟨-, rfl⟩
      exact .inr rfl

/-- A configuration gives a leaf one value. -/
theorem settings_sameLeaf : ∀ s ∈ settings vrfId ifp, ∀ s' ∈ settings vrfId ifp,
    s.sameLeaf s' = true → s = s' := by
  intro s hs s' hs' h
  cases s <;> cases s' <;> simp_all [Setting.sameLeaf]

@[simp] theorem mem_configured {s : Setting} : s ∈ configured vrfId ifp ↔ s ∈ settings vrfId ifp :=
  List.mem_toFinset

end

section

variable {accept : String → Setting → Bool}

/-- What lines do to their interface. -/
def applyAll (accept : String → Setting → Bool) (e : Finset Setting) (ls : List Line) : Finset Setting :=
  ls.foldl (fun e l => l.apply accept e) e

theorem applyAll_append (e : Finset Setting) (ls ls' : List Line) :
    applyAll accept e (ls ++ ls') = applyAll accept (applyAll accept e ls) ls' :=
  List.foldl_append

theorem mem_apply_set {e : Finset Setting} {n : String} {s x : Setting} (h : accept n s = true) :
    x ∈ Line.apply accept e (.set n s) ↔ x = s ∨ (x ∈ e ∧ s.sameLeaf x = false) := by
  simp [Line.apply, h]

/-- Settings one after the other, of different leaves. -/
theorem mem_sets {n : String} {ss : List Setting} (hacc : ∀ s ∈ ss, accept n s = true)
    (hone : ∀ s ∈ ss, ∀ s' ∈ ss, s.sameLeaf s' = true → s = s') (e : Finset Setting) (x : Setting) :
    x ∈ applyAll accept e (ss.map (.set n)) ↔
      x ∈ ss ∨ (x ∈ e ∧ ∀ s ∈ ss, s.sameLeaf x = false) := by
  induction ss generalizing e with
  | nil => simp [applyAll]
  | cons s ss ih =>
    have ih := ih (fun s' hs' => hacc s' (List.mem_cons_of_mem _ hs'))
      (fun s' hs' s'' hs'' => hone s' (List.mem_cons_of_mem _ hs') s'' (List.mem_cons_of_mem _ hs''))
      (Line.apply accept e (.set n s))
    have hcons : applyAll accept e ((s :: ss).map (.set n)) =
        applyAll accept (Line.apply accept e (.set n s)) (ss.map (.set n)) := rfl
    rw [hcons, ih, mem_apply_set (hacc s List.mem_cons_self), List.mem_cons, List.forall_mem_cons]
    constructor
    · rintro (h | ⟨h | h, hss⟩)
      · exact .inl (.inr h)
      · exact .inl (.inl h)
      · exact .inr ⟨h.1, h.2, hss⟩
    · rintro ((rfl | h) | h)
      · -- a later line of the same leaf has the same value
        by_cases hmem : x ∈ ss
        · exact .inl hmem
        · refine .inr ⟨.inl rfl, fun s hs => Bool.eq_false_iff.mpr fun hleaf => hmem ?_⟩
          rwa [← hone s (List.mem_cons_of_mem _ hs) x List.mem_cons_self hleaf]
      · exact .inl h
      · exact .inr ⟨.inr ⟨h.1, h.2.1⟩, h.2.2⟩

theorem mem_deletes {n : String} {ss : List Setting} (e : Finset Setting) (x : Setting) :
    x ∈ applyAll accept e (ss.map (.delete n)) ↔ x ∈ e ∧ x ∉ ss := by
  induction ss generalizing e with
  | nil => simp [applyAll]
  | cons s ss ih =>
    have hcons : applyAll accept e ((s :: ss).map (.delete n)) =
        applyAll accept (e.erase s) (ss.map (.delete n)) := rfl
    rw [hcons, ih, Finset.mem_erase, List.mem_cons]
    tauto

/-- The lines of an added interface. -/
theorem mem_added {vrfId : Int} {ifp : Interface} (hacc : ∀ s ∈ settings vrfId ifp, accept ifp.name s = true)
    (e : Finset Setting) (x : Setting) :
    x ∈ applyAll accept e (ifp.vlanLines ++ ifp.addressLines vrfId) ↔
      x ∈ settings vrfId ifp ∨ (x ∈ e ∧ ∀ s ∈ settings vrfId ifp, s.sameLeaf x = false) := by
  have hlines : applyAll accept e (ifp.vlanLines ++ ifp.addressLines vrfId) =
      applyAll accept e ((settings vrfId ifp).map (.set ifp.name)) := by
    by_cases h : ifp.dhcpRelayGroup = ""
    · simp [applyAll, Interface.vlanLines, Interface.addressLines, settings, h, Line.apply,
        List.foldl_map]
    · simp [applyAll, Interface.vlanLines, Interface.addressLines, settings, h, Line.apply,
        List.foldl_map]
  rw [hlines, mem_sets hacc settings_sameLeaf]

/-- The lines of a removed interface. -/
theorem mem_removed {vrfId : Int} {ifp : Interface} (e : Finset Setting) (x : Setting) :
    x ∈ applyAll accept e (ifp.clearLines vrfId ++ removeVlans ifp ifp.vlans) ↔
      x ∈ e ∧ x.inIpv4 = false ∧ x ∉ settings vrfId ifp := by
  have hvlans : removeVlans ifp ifp.vlans = (ifp.vlans.map Setting.vlan).map (.delete ifp.name) := by
    simp [removeVlans]
  rw [applyAll_append, hvlans, mem_deletes, Interface.clearLines]
  by_cases h : ifp.dhcpRelayGroup = ""
  · cases x <;> simp [applyAll, Line.apply, h, Setting.inIpv4, and_comm]
  · cases x with
    | dhcpRelayGroup name =>
      have hname : name = ifp.dhcpRelayGroup → name ≠ "" := fun he => he ▸ h
      simp [applyAll, Line.apply, h, Setting.inIpv4]
      tauto
    | _ => simp [applyAll, Line.apply, h, Setting.inIpv4, and_comm]

theorem mem_calculateChanges_added {α : Type} [DecidableEq α] {old new : List α} {x : α} :
    x ∈ (calculateChanges old new).1 ↔ x ∈ new ∧ x ∉ old := by
  simp only [calculateChanges, List.mem_filter, Bool.not_eq_true', List.any_eq_false, decide_eq_true_eq]
  exact and_congr_right fun _ => ⟨fun h hx => h x hx rfl, fun h y hy hxy => h (hxy ▸ hy)⟩

theorem mem_calculateChanges_removed {α : Type} [DecidableEq α] {old new : List α} {x : α} :
    x ∈ (calculateChanges old new).2 ↔ x ∈ old ∧ x ∉ new := by
  simp only [calculateChanges, List.mem_filter, Bool.not_eq_true', List.any_eq_false, decide_eq_true_eq]
  exact and_congr_right fun _ => ⟨fun h hx => h x hx rfl, fun h y hy hxy => h (hxy ▸ hy)⟩

/-- The lines about addresses and VLANs of an interface that both configurations have. -/
theorem mem_changed {oldifp newifp : Interface} (e : Finset Setting) (x : Setting)
    (hip : ∀ ip ∈ newifp.ipv4, ip ∉ oldifp.ipv4 → accept newifp.name (.address ip) = true)
    (hvlan : ∀ v ∈ newifp.vlans, v ∉ oldifp.vlans → accept newifp.name (.vlan v) = true) :
    x ∈ applyAll accept e
        (removeIPAddress oldifp (calculateChanges oldifp.ipv4 newifp.ipv4).2 ++
          removeVlans oldifp (calculateChanges oldifp.vlans newifp.vlans).2 ++
          addVlans newifp (calculateChanges oldifp.vlans newifp.vlans).1 ++
          addIPAddress newifp (calculateChanges oldifp.ipv4 newifp.ipv4).1) ↔
      match x with
      | .address ip => (ip ∈ newifp.ipv4 ∧ ip ∉ oldifp.ipv4) ∨ (.address ip ∈ e ∧ (ip ∈ oldifp.ipv4 → ip ∈ newifp.ipv4))
      | .vlan v => (v ∈ newifp.vlans ∧ v ∉ oldifp.vlans) ∨ (.vlan v ∈ e ∧ (v ∈ oldifp.vlans → v ∈ newifp.vlans))
      | x => x ∈ e := by
  have hdel : removeIPAddress oldifp (calculateChanges oldifp.ipv4 newifp.ipv4).2 ++
      removeVlans oldifp (calculateChanges oldifp.vlans newifp.vlans).2 =
      ((calculateChanges oldifp.ipv4 newifp.ipv4).2.map Setting.address ++
        (calculateChanges oldifp.vlans newifp.vlans).2.map Setting.vlan).map (.delete oldifp.name) := by
    simp only [removeIPAddress, removeVlans, List.map_append, List.map_map]
    rfl
  have hadd : addVlans newifp (calculateChanges oldifp.vlans newifp.vlans).1 ++
      addIPAddress newifp (calculateChanges oldifp.ipv4 newifp.ipv4).1 =
      ((calculateChanges oldifp.vlans newifp.vlans).1.map Setting.vlan ++
        (calculateChanges oldifp.ipv4 newifp.ipv4).1.map Setting.address).map (.set newifp.name) := by
    simp only [addVlans, addIPAddress, List.map_append, List.map_map]
    rfl
  rw [List.append_assoc, hdel, hadd, applyAll_append, mem_sets, mem_deletes]
  · have hleaf : ∀ s ∈ (calculateChanges oldifp.vlans newifp.vlans).1.map Setting.vlan ++
        (calculateChanges oldifp.ipv4 newifp.ipv4).1.map Setting.address, s.sameLeaf x = false := by
      intro s hs
      simp only [List.mem_append, List.mem_map] at hs
      rcases hs with ⟨v, -, rfl⟩ | ⟨ip, -, rfl⟩ <;> rfl
    rw [and_iff_left hleaf]
    cases x <;> simp [mem_calculateChanges_added, mem_calculateChanges_removed]
  · intro s hs
    simp only [List.mem_append, List.mem_map, mem_calculateChanges_added] at hs
    rcases hs with ⟨v, ⟨hv, hold⟩, rfl⟩ | ⟨ip, ⟨hip', hold⟩, rfl⟩
    · exact hvlan v hv hold
    · exact hip ip hip' hold
  · intro s hs s' _ hleaf
    simp only [List.mem_append, List.mem_map] at hs
    rcases hs with ⟨v, -, rfl⟩ | ⟨ip, -, rfl⟩
    · cases hleaf
    · cases hleaf

/-- The lines about the relay group of an interface that both configurations have. -/
theorem mem_relayChanges {oldifp newifp : Interface} {e : Finset Setting} {x : Setting}
    (hold : ∀ name, .dhcpRelayGroup name ∈ e ↔ name ≠ "" ∧ name = oldifp.dhcpRelayGroup)
    (hacc : newifp.dhcpRelayGroup ≠ "" → newifp.dhcpRelayGroup ≠ oldifp.dhcpRelayGroup →
      accept newifp.name (.dhcpRelayGroup newifp.dhcpRelayGroup) = true) :
    x ∈ applyAll accept e (relayChanges oldifp newifp) ↔
      match x with
      | .dhcpRelayGroup name => name ≠ "" ∧ name = newifp.dhcpRelayGroup
      | x => x ∈ e := by
  rw [relayChanges]
  by_cases h : oldifp.dhcpRelayGroup = newifp.dhcpRelayGroup
  · rw [if_neg (not_not.mpr h), ← h]
    cases x with
    | dhcpRelayGroup name => exact hold name
    | _ => rfl
  · rw [if_pos h]
    by_cases hnew : newifp.dhcpRelayGroup = ""
    · by_cases hempty : oldifp.dhcpRelayGroup = ""
      · exact absurd (hempty.trans hnew.symm) h
      · cases x with
        | dhcpRelayGroup name =>
          simp only [applyAll, Line.apply, hnew, hempty, hold, ne_eq, not_false_eq_true, not_true_eq_false,
            if_true, if_false, List.append_nil, List.foldl_cons, List.foldl_nil, Finset.mem_erase,
            Setting.dhcpRelayGroup.injEq]
          tauto
        | _ => simp [applyAll, Line.apply, hnew, hempty]
    · have hkeep (x : Setting) (hx : x ≠ .dhcpRelayGroup oldifp.dhcpRelayGroup) :
          x ∈ applyAll accept e (if oldifp.dhcpRelayGroup ≠ "" then
            [.delete oldifp.name (.dhcpRelayGroup oldifp.dhcpRelayGroup)] else []) ↔ x ∈ e := by
        split
        · exact Finset.mem_erase.trans (and_iff_right hx)
        · exact Iff.rfl
      rw [if_pos hnew, applyAll_append]
      show x ∈ Line.apply accept _ (.set newifp.name (.dhcpRelayGroup newifp.dhcpRelayGroup)) ↔ _
      rw [mem_apply_set (hacc hnew (Ne.symm h))]
      -- The line takes the leaf from whatever value it had.
      cases x with
      | dhcpRelayGroup name =>
        constructor
        · rintro (he | ⟨-, hleaf⟩)
          · cases he
            exact ⟨hnew, rfl⟩
          · cases hleaf
        · rintro ⟨-, rfl⟩
          exact .inl rfl
      | vrf name => exact (or_iff_right (by simp)).trans ((and_iff_left rfl).trans (hkeep _ (by simp)))
      | address ip => exact (or_iff_right (by simp)).trans ((and_iff_left rfl).trans (hkeep _ (by simp)))
      | vlan v => exact (or_iff_right (by simp)).trans ((and_iff_left rfl).trans (hkeep _ (by simp)))

/-- The lines of an interface that both configurations have. -/
theorem changed_eq {vrfId : Int} {oldifp newifp : Interface}
    (hacc : ∀ s ∈ settings vrfId newifp, s ∉ settings vrfId oldifp → accept newifp.name s = true) :
    applyAll accept (configured vrfId oldifp) (interfaceChanges oldifp newifp) = configured vrfId newifp := by
  have hip : ∀ ip ∈ newifp.ipv4, ip ∉ oldifp.ipv4 → accept newifp.name (.address ip) = true :=
    fun ip hn ho => hacc _ (address_mem_settings.mpr hn) (mt address_mem_settings.mp ho)
  have hvlan : ∀ v ∈ newifp.vlans, v ∉ oldifp.vlans → accept newifp.name (.vlan v) = true :=
    fun v hn ho => hacc _ (vlan_mem_settings.mpr hn) (mt vlan_mem_settings.mp ho)
  have hrelay : newifp.dhcpRelayGroup ≠ "" → newifp.dhcpRelayGroup ≠ oldifp.dhcpRelayGroup →
      accept newifp.name (.dhcpRelayGroup newifp.dhcpRelayGroup) = true :=
    fun hn ho => hacc _ (relay_mem_settings.mpr ⟨hn, rfl⟩) fun h => ho (relay_mem_settings.mp h).2
  ext x
  rw [interfaceChanges, applyAll_append, mem_relayChanges _ hrelay]
  · cases x with
    | dhcpRelayGroup name => simp
    | vrf name => simp only [mem_changed _ _ hip hvlan, mem_configured, vrf_mem_settings]
    | address ip =>
      simp only [mem_changed _ _ hip hvlan, mem_configured, address_mem_settings]
      tauto
    | vlan v =>
      simp only [mem_changed _ _ hip hvlan, mem_configured, vlan_mem_settings]
      tauto
  · intro name
    simp only [mem_changed _ _ hip hvlan, mem_configured, relay_mem_settings]

end

/-- A line that the parser does not take is never added. -/
theorem refused_stays {accept : String → Setting → Bool} {n : String} {s : Setting}
    (hacc : accept n s = false) {t : Candidate} (hs : s ∉ t n) (ls : List Line) :
    s ∉ execLines accept t ls n := by
  induction ls generalizing t with
  | nil => exact hs
  | cons l ls ih =>
    refine ih (t := execLine accept t l) ?_
    rw [execLine]
    by_cases h : l.name = n
    · subst h
      rw [Function.update_self]
      cases l with
      | create _ => exact hs
      | delete _ s' => exact fun h => hs (Finset.mem_of_mem_erase h)
      | deleteIpv4 _ => exact fun h => hs (Finset.mem_of_mem_filter s h)
      | set n s' =>
        rw [Line.apply]
        split
        · rename_i hs'
          intro h
          rcases Finset.mem_insert.mp h with rfl | h
          · exact Bool.false_ne_true (hacc.symm.trans hs')
          · exact hs (Finset.mem_of_mem_filter s h)
        · exact hs
    · rwa [Function.update_of_ne (Ne.symm h)]

/-! ## Both orders -/

section

variable {Others : Type} (accept : String → Setting → Bool)
  (etcdVrfMap : Int → Option (VrfsConfig Others))

/-- The candidate has the stored configurations of two VRFs, and nothing of the
interfaces that are new to both. -/
structure Holds (start : Candidate) (a b : Int) (newA newB : VrfsConfig Others) : Prop where
  first : ∀ o ∈ stored etcdVrfMap a, start o.name = configured a o
  second : ∀ o ∈ stored etcdVrfMap b, start o.name = configured b o
  fresh : ∀ i, i ∈ newA.interfaces ∨ i ∈ newB.interfaces → (∀ o ∈ stored etcdVrfMap a, o.name ≠ i.name) →
    (∀ o ∈ stored etcdVrfMap b, o.name ≠ i.name) → start i.name = ∅

/-- The candidate with the new configurations of two VRFs in place of the stored ones. -/
def wanted (start : Candidate) (a b : Int) (newA newB : VrfsConfig Others) : Candidate := fun n =>
  match Keyed.get Interface.name n newA.interfaces, Keyed.get Interface.name n newB.interfaces with
  | some i, _ => configured a i
  | none, some i => configured b i
  | none, none =>
    if (Keyed.get Interface.name n (stored etcdVrfMap a)).isSome ||
        (Keyed.get Interface.name n (stored etcdVrfMap b)).isSome then ∅
    else start n

/-- An interface that moves to another VRF comes without addresses, without a VLAN it had
and without its relay group. -/
def CleanMove (oldifp newifp : Interface) : Prop :=
  newifp.ipv4 = [] ∧ (∀ v ∈ newifp.vlans, v ∉ oldifp.vlans) ∧
    (newifp.dhcpRelayGroup = "" ∨ newifp.dhcpRelayGroup ≠ oldifp.dhcpRelayGroup)

/-- The parser takes what a new configuration of the VRF `a` adds, and its interfaces that
move from the VRF `b` move clean. -/
structure Fits (start : Candidate) (a b : Int) (new : VrfsConfig Others) : Prop where
  accepted : ∀ i ∈ new.interfaces, ∀ s ∈ settings a i, s ∉ start i.name → accept i.name s = true
  moves : ∀ i ∈ new.interfaces, ∀ o ∈ stored etcdVrfMap b, o.name = i.name → CleanMove o i

variable {accept etcdVrfMap} {start : Candidate} {a b : Int} {newA newB : VrfsConfig Others}

theorem Holds.symm (h : Holds etcdVrfMap start a b newA newB) : Holds etcdVrfMap start b a newB newA :=
  ⟨h.second, h.first, fun i hi hb ha => h.fresh i hi.symm ha hb⟩

theorem wanted_first {i : Interface} (hi : i ∈ newA.interfaces) :
    wanted etcdVrfMap start a b newA newB i.name = configured a i := by
  rw [wanted, Keyed.get_of_mem newA.nodup hi]

theorem wanted_symm (hdisj : ∀ i ∈ newA.interfaces, ∀ j ∈ newB.interfaces, i.name ≠ j.name) :
    wanted etcdVrfMap start b a newB newA = wanted etcdVrfMap start a b newA newB := by
  funext n
  rw [wanted, wanted]
  cases ha : Keyed.get Interface.name n newA.interfaces with
  | none =>
    cases hb : Keyed.get Interface.name n newB.interfaces with
    | none => simp only [Bool.or_comm]
    | some j => rfl
  | some i =>
    cases hb : Keyed.get Interface.name n newB.interfaces with
    | none => rfl
    | some j =>
      have hi := (get_iff newA.nodup).mp ha
      have hj := (get_iff newB.nodup).mp hb
      exact absurd (hi.2.trans hj.2.symm) (hdisj i hi.1 j hj.1)

/-- No line of an interface that moves clean is one that it had. -/
theorem CleanMove.disjoint {oldifp newifp : Interface} (h : CleanMove oldifp newifp) (hab : a ≠ b) :
    ∀ s ∈ settings a newifp, s ∉ settings b oldifp := by
  intro s hs hold
  cases s with
  | vrf name => exact hab (vrfName_inj.mp ((vrf_mem_settings.mp hs).symm.trans (vrf_mem_settings.mp hold)))
  | address ip => simp [h.1] at hs
  | vlan v => exact h.2.1 v (vlan_mem_settings.mp hs) (vlan_mem_settings.mp hold)
  | dhcpRelayGroup name =>
    obtain ⟨hne, rfl⟩ := relay_mem_settings.mp hs
    rcases h.2.2 with h | h
    · exact hne h
    · exact h (relay_mem_settings.mp hold).2

/-- The stored interfaces of two VRFs are different ones. -/
theorem Holds.disjoint (h : Holds etcdVrfMap start a b newA newB) (hab : a ≠ b) {o o' : Interface}
    (ho : o ∈ stored etcdVrfMap a) (ho' : o' ∈ stored etcdVrfMap b) : o.name ≠ o'.name := by
  intro hname
  have heq : configured a o = configured b o' := by rw [← h.first o ho, ← h.second o' ho', hname]
  have hmem : Setting.vrf (vrfName a) ∈ configured a o := by simp
  rw [heq, mem_configured, vrf_mem_settings] at hmem
  exact hab (vrfName_inj.mp hmem)

variable [DecidableEq Others]

/-- What two updates do to an interface. -/
theorem order_at (n : String) :
    execLines accept (execLines accept start (processVrfUpdate etcdVrfMap a newA))
        (processVrfUpdate etcdVrfMap b newB) n =
      applyAll accept (applyAll accept (start n)
        (touch a (Keyed.get Interface.name n (stored etcdVrfMap a))
          (Keyed.get Interface.name n newA.interfaces)))
        (touch b (Keyed.get Interface.name n (stored etcdVrfMap b))
          (Keyed.get Interface.name n newB.interfaces)) := by
  rw [run_at, run_at, update_at, update_at]
  rfl

theorem added_eq {vrfId : Int} {ifp : Interface} (hacc : ∀ s ∈ settings vrfId ifp, accept ifp.name s = true) :
    applyAll accept ∅ (ifp.vlanLines ++ ifp.addressLines vrfId) = configured vrfId ifp := by
  ext x
  rw [mem_added hacc]
  simp

theorem removed_eq {vrfId : Int} {ifp : Interface} :
    applyAll accept (configured vrfId ifp) (ifp.clearLines vrfId ++ removeVlans ifp ifp.vlans) = ∅ := by
  ext x
  rw [mem_removed]
  simp only [mem_configured, Finset.notMem_empty, iff_false]
  exact fun h => h.2.2 h.1

/-- An interface that moves clean, when the VRF it moves to comes first. -/
theorem moved_eq {oldifp newifp : Interface} (h : CleanMove oldifp newifp) (hab : a ≠ b)
    (hacc : ∀ s ∈ settings a newifp, accept newifp.name s = true) :
    applyAll accept (applyAll accept (configured b oldifp) (newifp.vlanLines ++ newifp.addressLines a))
      (oldifp.clearLines b ++ removeVlans oldifp oldifp.vlans) = configured a newifp := by
  ext x
  rw [mem_removed, mem_added hacc, mem_configured, mem_configured]
  constructor
  · rintro ⟨hx | hx, -, hold⟩
    · exact hx
    · exact absurd hx.1 hold
  · intro hx
    refine ⟨.inl hx, ?_, h.disjoint hab x hx⟩
    cases x with
    | address ip => simp [h.1] at hx
    | _ => rfl

/-- The first update comes out as it should when its interfaces fit. -/
theorem order_of_fits (hab : a ≠ b) (hdisj : ∀ i ∈ newA.interfaces, ∀ j ∈ newB.interfaces, i.name ≠ j.name)
    (hs : Holds etcdVrfMap start a b newA newB) (hfa : Fits accept etcdVrfMap start a b newA)
    (hfb : Fits accept etcdVrfMap start b a newB) :
    execLines accept (execLines accept start (processVrfUpdate etcdVrfMap a newA))
      (processVrfUpdate etcdVrfMap b newB) = wanted etcdVrfMap start a b newA newB := by
  funext n
  rw [order_at, wanted]
  cases hna : Keyed.get Interface.name n newA.interfaces with
  | some i =>
    obtain ⟨hi, rfl⟩ := (get_iff newA.nodup).mp hna
    have hnb : Keyed.get Interface.name i.name newB.interfaces = none :=
      get_eq_none.mpr fun j hj => Ne.symm (hdisj i hi j hj)
    have hacc := hfa.accepted i hi
    rw [hnb]
    cases hob : Keyed.get Interface.name i.name (stored etcdVrfMap b) with
    | some o =>
      obtain ⟨ho, hname⟩ := (get_iff (stored_nodup etcdVrfMap b)).mp hob
      have hoa : Keyed.get Interface.name i.name (stored etcdVrfMap a) = none :=
        get_eq_none.mpr fun o' ho' h => hs.disjoint hab ho' ho (h.trans hname.symm)
      have hmove := hfa.moves i hi o ho hname
      have hstart : start i.name = configured b o := hname ▸ hs.second o ho
      rw [hoa, hstart]
      refine moved_eq hmove hab fun s hset => hacc s hset ?_
      rw [hstart, mem_configured]
      exact hmove.disjoint hab s hset
    | none =>
      cases hoa : Keyed.get Interface.name i.name (stored etcdVrfMap a) with
      | some o =>
        obtain ⟨ho, hname⟩ := (get_iff (stored_nodup etcdVrfMap a)).mp hoa
        have hstart : start i.name = configured a o := hname ▸ hs.first o ho
        rw [hstart]
        refine changed_eq fun s hset hold => hacc s hset ?_
        rwa [hstart, mem_configured]
      | none =>
        have hstart : start i.name = ∅ :=
          hs.fresh i (.inl hi) (get_eq_none.mp hoa) (get_eq_none.mp hob)
        rw [hstart]
        exact added_eq fun s hset => hacc s hset (by simp [hstart])
  | none =>
    cases hnb : Keyed.get Interface.name n newB.interfaces with
    | some j =>
      obtain ⟨hj, rfl⟩ := (get_iff newB.nodup).mp hnb
      have hacc := hfb.accepted j hj
      cases hoa : Keyed.get Interface.name j.name (stored etcdVrfMap a) with
      | some o =>
        obtain ⟨ho, hname⟩ := (get_iff (stored_nodup etcdVrfMap a)).mp hoa
        have hob : Keyed.get Interface.name j.name (stored etcdVrfMap b) = none :=
          get_eq_none.mpr fun o' ho' h => hs.disjoint hab ho ho' (hname.trans h.symm)
        have hmove := hfb.moves j hj o ho hname
        have hstart : start j.name = configured a o := hname ▸ hs.first o ho
        rw [hob, hstart, touch, touch, removed_eq]
        refine added_eq fun s hset => hacc s hset ?_
        rw [hstart, mem_configured]
        exact hmove.disjoint hab.symm s hset
      | none =>
        cases hob : Keyed.get Interface.name j.name (stored etcdVrfMap b) with
        | some o =>
          obtain ⟨ho, hname⟩ := (get_iff (stored_nodup etcdVrfMap b)).mp hob
          have hstart : start j.name = configured b o := hname ▸ hs.second o ho
          rw [hstart]
          refine changed_eq fun s hset hold => hacc s hset ?_
          rwa [hstart, mem_configured]
        | none =>
          have hstart : start j.name = ∅ :=
            hs.fresh j (.inr hj) (get_eq_none.mp hoa) (get_eq_none.mp hob)
          rw [hstart]
          exact added_eq fun s hset => hacc s hset (by simp [hstart])
    | none =>
      cases hoa : Keyed.get Interface.name n (stored etcdVrfMap a) with
      | some o =>
        obtain ⟨ho, rfl⟩ := (get_iff (stored_nodup etcdVrfMap a)).mp hoa
        have hob : Keyed.get Interface.name o.name (stored etcdVrfMap b) = none :=
          get_eq_none.mpr fun o' ho' h => hs.disjoint hab ho ho' h.symm
        rw [hob, hs.first o ho, touch, touch, removed_eq]
        rfl
      | none =>
        cases hob : Keyed.get Interface.name n (stored etcdVrfMap b) with
        | some o =>
          obtain ⟨ho, rfl⟩ := (get_iff (stored_nodup etcdVrfMap b)).mp hob
          rw [hs.second o ho]
          exact removed_eq
        | none => rfl

/-- An interface that moves does not come out as it should when it does not move clean and
the VRF that it moves to comes first. -/
theorem fits_of_order (hdisj : ∀ i ∈ newA.interfaces, ∀ j ∈ newB.interfaces, i.name ≠ j.name)
    (h : execLines accept (execLines accept start (processVrfUpdate etcdVrfMap a newA))
      (processVrfUpdate etcdVrfMap b newB) = wanted etcdVrfMap start a b newA newB) :
    Fits accept etcdVrfMap start a b newA := by
  have hfinal : ∀ i ∈ newA.interfaces, execLines accept (execLines accept start
      (processVrfUpdate etcdVrfMap a newA)) (processVrfUpdate etcdVrfMap b newB) i.name = configured a i :=
    fun i hi => (congrFun h i.name).trans (wanted_first hi)
  refine ⟨fun i hi s hset hstart => ?_, fun i hi o ho hname => ?_⟩
  · by_contra hacc
    have hacc : accept i.name s = false := Bool.eq_false_iff.mpr hacc
    refine refused_stays hacc (refused_stays hacc hstart (processVrfUpdate etcdVrfMap a newA))
      (processVrfUpdate etcdVrfMap b newB) ?_
    rw [hfinal i hi]
    exact mem_configured.mpr hset
  · have hnb : Keyed.get Interface.name i.name newB.interfaces = none :=
      get_eq_none.mpr fun j hj => Ne.symm (hdisj i hi j hj)
    have hob : Keyed.get Interface.name i.name (stored etcdVrfMap b) = some o :=
      (get_iff (stored_nodup etcdVrfMap b)).mpr ⟨ho, hname⟩
    have hkept : ∀ s ∈ settings a i, s.inIpv4 = false ∧ s ∉ settings b o := by
      intro s hset
      have hmem : s ∈ configured a i := mem_configured.mpr hset
      rw [← hfinal i hi, order_at, hnb, hob, touch, mem_removed] at hmem
      exact hmem.2
    refine ⟨?_, fun v hv hold => ?_, ?_⟩
    · refine List.eq_nil_iff_forall_not_mem.mpr fun ip hip => ?_
      exact Bool.noConfusion (hkept _ (address_mem_settings.mpr hip)).1
    · exact (hkept _ (vlan_mem_settings.mpr hv)).2 (vlan_mem_settings.mpr hold)
    · by_contra hne
      rw [not_or, not_not] at hne
      have hset : .dhcpRelayGroup i.dhcpRelayGroup ∈ settings a i := relay_mem_settings.mpr ⟨hne.1, rfl⟩
      exact (hkept _ hset).2 (relay_mem_settings.mpr ⟨hne.1, hne.2⟩)

/-- The updates of two VRFs with different interfaces lead to the two new configurations
in both orders, exactly when both fit: each interface that moves from one of the VRFs to
the other moves clean, and the parser takes what they add. -/
theorem updates_commute_iff (hab : a ≠ b)
    (hdisj : ∀ i ∈ newA.interfaces, ∀ j ∈ newB.interfaces, i.name ≠ j.name)
    (hs : Holds etcdVrfMap start a b newA newB) :
    (execLines accept (execLines accept start (processVrfUpdate etcdVrfMap a newA))
        (processVrfUpdate etcdVrfMap b newB) = wanted etcdVrfMap start a b newA newB ∧
      execLines accept (execLines accept start (processVrfUpdate etcdVrfMap b newB))
        (processVrfUpdate etcdVrfMap a newA) = wanted etcdVrfMap start a b newA newB) ↔
      Fits accept etcdVrfMap start a b newA ∧ Fits accept etcdVrfMap start b a newB := by
  have hdisj' : ∀ j ∈ newB.interfaces, ∀ i ∈ newA.interfaces, j.name ≠ i.name :=
    fun j hj i hi => (hdisj i hi j hj).symm
  rw [← wanted_symm hdisj]
  constructor
  · rintro ⟨hab', hba'⟩
    rw [wanted_symm hdisj] at hab'
    exact ⟨fits_of_order hdisj hab', fits_of_order hdisj' hba'⟩
  · rintro ⟨hfa, hfb⟩
    refine ⟨?_, order_of_fits hab.symm hdisj' hs.symm hfb hfa⟩
    rw [wanted_symm hdisj]
    exact order_of_fits hab hdisj hs hfa hfb

end

/-! ## An interface that moves -/

/-- `eth0` is in VRF 1 with an address. -/
def boundMap : Int → Option (VrfsConfig Unit) := fun vrfId =>
  if vrfId = 1 then some ⟨[{ name := "eth0", ipv4 := ["10.0.0.1/24"] }], (), by decide⟩ else none

/-- The candidate then. -/
def boundStart : Candidate := fun n =>
  if n = "eth0" then {.vrf "vrf1", .address "10.0.0.1/24"} else ∅

/-- A VRF without interfaces. -/
def noInterface : VrfsConfig Unit := ⟨[], (), by decide⟩

/-- A VRF with `eth0` and addresses of it. -/
def onlyEth0 (ipv4 : List String) : VrfsConfig Unit := ⟨[{ name := "eth0", ipv4 := ipv4 }], (), by simp⟩

theorem bound_holds (ipv4 : List String) : Holds boundMap boundStart 2 1 (onlyEth0 ipv4) noInterface := by
  refine ⟨fun o ho => ?_, fun o ho => ?_, fun i hi _ hb => ?_⟩
  · cases ho
  · rw [List.mem_singleton.mp ho]
    decide
  · rcases hi with hi | hi
    · rw [List.mem_singleton.mp hi] at hb
      exact absurd rfl (hb { name := "eth0", ipv4 := ["10.0.0.1/24"] } List.mem_cons_self)
    · cases hi

/-- Moved without an address, in both orders. -/
theorem updates_commute_iff_bare :
    (execLines (fun _ _ => true) (execLines (fun _ _ => true) boundStart
        (processVrfUpdate boundMap 2 (onlyEth0 []))) (processVrfUpdate boundMap 1 noInterface) =
        wanted boundMap boundStart 2 1 (onlyEth0 []) noInterface ∧
      execLines (fun _ _ => true) (execLines (fun _ _ => true) boundStart
        (processVrfUpdate boundMap 1 noInterface)) (processVrfUpdate boundMap 2 (onlyEth0 [])) =
        wanted boundMap boundStart 2 1 (onlyEth0 []) noInterface) := by
  have hdisj : ∀ i ∈ (onlyEth0 []).interfaces, ∀ j ∈ noInterface.interfaces, i.name ≠ j.name :=
    fun _ _ j hj => absurd hj List.not_mem_nil
  refine (updates_commute_iff (by decide) hdisj (bound_holds [])).mpr ⟨⟨?_, ?_⟩, ⟨?_, ?_⟩⟩
  · exact fun _ _ _ _ _ => rfl
  · intro i hi o _ _
    rw [List.mem_singleton.mp hi]
    exact ⟨rfl, fun v hv => absurd hv List.not_mem_nil, .inl rfl⟩
  · exact fun i hi => absurd hi List.not_mem_nil
  · exact fun i hi => absurd hi List.not_mem_nil

/-- Moved with an address, VRF 2 first: the update of VRF 1 deletes the new address. In
the other order it stays. -/
theorem updates_collide :
    Holds boundMap boundStart 2 1 (onlyEth0 ["10.0.0.2/24"]) noInterface ∧
    wanted boundMap boundStart 2 1 (onlyEth0 ["10.0.0.2/24"]) noInterface "eth0" =
      {.vrf "vrf2", .address "10.0.0.2/24"} ∧
    execLines (fun _ _ => true) (execLines (fun _ _ => true) boundStart
      (processVrfUpdate boundMap 2 (onlyEth0 ["10.0.0.2/24"]))) (processVrfUpdate boundMap 1 noInterface) "eth0" =
      {.vrf "vrf2"} ∧
    execLines (fun _ _ => true) (execLines (fun _ _ => true) boundStart
      (processVrfUpdate boundMap 1 noInterface)) (processVrfUpdate boundMap 2 (onlyEth0 ["10.0.0.2/24"])) "eth0" =
      {.vrf "vrf2", .address "10.0.0.2/24"} := by
  refine ⟨bound_holds _, ?_, ?_, ?_⟩
  · decide
  · decide
  · decide

end OpenConfigd.Vrf
