import OpenConfigd.Lib.Keyed
import Mathlib.Data.Finset.Basic

/-!
# The interfaces of a VRF

`ProcessVrfUpdate` brings the interfaces of a VRF from its stored configuration to a new
one, by `set` and `delete` lines on the candidate. Each line is about one interface, so
the candidate is seen interface by interface: `run_at` says what a list of lines does to
one of them and `update_at` which lines of an update are about it.

An interface of the candidate is the set of its lines. An address and a VLAN are keys of
lists, the VRF and the relay group are leaves: a leaf has one value, and `delete` with a
value deletes the leaf only when it has that value.
-/

namespace OpenConfigd.Vrf

open Keyed (get)

/-! ## Configurations -/

/-- `Interface`; `ipv4` holds the `Ip` of its addresses and `vlans` the `VlanId` of its
VLANs. -/
structure Interface where
  name : String
  ipv4 : List String := []
  vlans : List Int := []
  duplex : String := ""
  speed : String := ""
  dhcpRelayGroup : String := ""
  deriving DecidableEq

/-- `VrfsConfig`. The interfaces are keyed by their names; `others` are the fields that
only the comparison of two configurations reads. -/
structure VrfsConfig (Others : Type) where
  interfaces : List Interface
  others : Others
  nodup : (interfaces.map Interface.name).Nodup
  deriving DecidableEq

/-! ## The candidate -/

/-- What a line says of an interface. -/
inductive Setting where
  | vrf (name : String)
  | address (ip : String)
  | vlan (id : Int)
  | dhcpRelayGroup (name : String)
  deriving DecidableEq

/-- Two values of one leaf. -/
def Setting.sameLeaf : Setting → Setting → Bool
  | .vrf _, .vrf _ => true
  | .dhcpRelayGroup _, .dhcpRelayGroup _ => true
  | _, _ => false

/-- A line that is in the `ipv4` container. -/
def Setting.inIpv4 : Setting → Bool
  | .address _ => true
  | _ => false

/-- The lines of each interface of the candidate; one without lines may also be missing. -/
abbrev Candidate := String → Finset Setting

/-- The command lines on `interfaces interface <name>`. -/
inductive Line where
  | create (name : String)
  | set (name : String) (s : Setting)
  | delete (name : String) (s : Setting)
  | deleteIpv4 (name : String)
  deriving DecidableEq

/-- The interface of a line. -/
def Line.name : Line → String
  | .create name => name
  | .set name _ => name
  | .delete name _ => name
  | .deleteIpv4 name => name

section

-- the `set` lines that the command parser takes
variable (accept : String → Setting → Bool)

/-- What a line does to its interface. -/
def Line.apply (e : Finset Setting) : Line → Finset Setting
  | .create _ => e
  | .set name s => if accept name s then insert s (e.filter fun x => ¬ s.sameLeaf x) else e
  | .delete _ s => e.erase s
  | .deleteIpv4 _ => e.filter fun x => ¬ x.inIpv4

/-- `ExecLine`. -/
def execLine (t : Candidate) (l : Line) : Candidate :=
  Function.update t l.name (l.apply accept (t l.name))

/-- Lines one after the other. A `Commit` between them leaves the candidate as it is. -/
def execLines (t : Candidate) (ls : List Line) : Candidate := ls.foldl (execLine accept) t

end

/-! ## The lines of an update -/

/-- The VRF that an interface is bound to, `vrf%d`. -/
def vrfName (vrfId : Int) : String := "vrf" ++ toString vrfId

/-- The VLAN lines of an interface. -/
def Interface.vlanLines (ifp : Interface) : List Line := ifp.vlans.map fun v => .set ifp.name (.vlan v)

/-- The other lines of an interface. -/
def Interface.addressLines (vrfId : Int) (ifp : Interface) : List Line :=
  [.create ifp.name, .set ifp.name (.vrf (vrfName vrfId))] ++
    ifp.ipv4.map (fun ip => .set ifp.name (.address ip)) ++
    if ifp.dhcpRelayGroup ≠ "" then [.set ifp.name (.dhcpRelayGroup ifp.dhcpRelayGroup)] else []

/-- `EtcdVrfVlanSubinterfacesAdd`. -/
def etcdVrfVlanSubinterfacesAdd {Others : Type} (vrf : VrfsConfig Others) : List Line :=
  vrf.interfaces.flatMap Interface.vlanLines

/-- `EtcdVrfAddressAdd`. -/
def etcdVrfAddressAdd {Others : Type} (vrfId : Int) (vrf : VrfsConfig Others) : List Line :=
  vrf.interfaces.flatMap (Interface.addressLines vrfId)

/-- `ProcessInterfacesAdd`. -/
def processInterfacesAdd (vrfId : Int) (ifaces : List Interface) : List Line :=
  ifaces.flatMap Interface.vlanLines ++ ifaces.flatMap (Interface.addressLines vrfId)

/-- The first loop of `ProcessInterfacesDelete` on an interface. -/
def Interface.clearLines (vrfId : Int) (ifp : Interface) : List Line :=
  [.deleteIpv4 ifp.name, .delete ifp.name (.vrf (vrfName vrfId))] ++
    if ifp.dhcpRelayGroup ≠ "" then [.delete ifp.name (.dhcpRelayGroup ifp.dhcpRelayGroup)] else []

/-- `RemoveVlans`. -/
def removeVlans (ifp : Interface) (vlans : List Int) : List Line :=
  vlans.map fun v => .delete ifp.name (.vlan v)

/-- `AddVlans`. -/
def addVlans (ifp : Interface) (vlans : List Int) : List Line :=
  vlans.map fun v => .set ifp.name (.vlan v)

/-- `RemoveIPAddress`. -/
def removeIPAddress (ifp : Interface) (ipaddrs : List String) : List Line :=
  ipaddrs.map fun ip => .delete ifp.name (.address ip)

/-- `AddIPAddress`. -/
def addIPAddress (ifp : Interface) (ipaddrs : List String) : List Line :=
  ipaddrs.map fun ip => .set ifp.name (.address ip)

/-- `ProcessInterfacesDelete`. -/
def processInterfacesDelete (vrfId : Int) (ifaces : List Interface) : List Line :=
  ifaces.flatMap (Interface.clearLines vrfId) ++ ifaces.flatMap fun ifp => removeVlans ifp ifp.vlans

/-- `CalculateVlanChanges` and `CalculateAddressChanges`: what is added and what is
removed. -/
def calculateChanges {α : Type} [DecidableEq α] (old new : List α) : List α × List α :=
  (new.filter fun n => !old.any fun o => n = o, old.filter fun o => !new.any fun n => o = n)

/-- The lines for the relay group in `ProcessVrfInterfaceChanges`. -/
def relayChanges (oldifp newifp : Interface) : List Line :=
  if oldifp.dhcpRelayGroup ≠ newifp.dhcpRelayGroup then
    (if oldifp.dhcpRelayGroup ≠ "" then
      [.delete oldifp.name (.dhcpRelayGroup oldifp.dhcpRelayGroup)] else []) ++
    if newifp.dhcpRelayGroup ≠ "" then
      [.set newifp.name (.dhcpRelayGroup newifp.dhcpRelayGroup)] else []
  else []

/-- The lines of `ProcessVrfInterfaceChanges` for an interface that both configurations
have. -/
def interfaceChanges (oldifp newifp : Interface) : List Line :=
  let ips := calculateChanges oldifp.ipv4 newifp.ipv4
  let vlans := calculateChanges oldifp.vlans newifp.vlans
  removeIPAddress oldifp ips.2 ++ removeVlans oldifp vlans.2 ++
    addVlans newifp vlans.1 ++ addIPAddress newifp ips.1 ++ relayChanges oldifp newifp

/-- `ProcessVrfInterfaceChanges`. -/
def processVrfInterfaceChanges (vrfId : Int) (currentConfig newConfig : List Interface) : List Line :=
  currentConfig.flatMap (fun oldifp =>
    match newConfig.find? fun newifp => oldifp.name = newifp.name with
    | some newifp => interfaceChanges oldifp newifp
    | none => []) ++
  processInterfacesAdd vrfId
    (newConfig.filter fun newifp => !currentConfig.any fun oldifp => oldifp.name = newifp.name) ++
  processInterfacesDelete vrfId
    (currentConfig.filter fun oldifp => !newConfig.any fun newifp => oldifp.name = newifp.name)

/-- `ProcessVrfUpdate`; `etcdVrfMap` is `EtcdVrfMap`. -/
def processVrfUpdate {Others : Type} [DecidableEq Others] (etcdVrfMap : Int → Option (VrfsConfig Others))
    (vrfId : Int) (vrf : VrfsConfig Others) : List Line :=
  match etcdVrfMap vrfId with
  | some vrfConfig =>
    if vrf ≠ vrfConfig then processVrfInterfaceChanges vrfId vrfConfig.interfaces vrf.interfaces else []
  | none => etcdVrfVlanSubinterfacesAdd vrf ++ etcdVrfAddressAdd vrfId vrf

/-! ## One interface at a time -/

section

variable {accept : String → Setting → Bool}

/-- What lines do to an interface, those that are about it. -/
theorem run_at (t : Candidate) (ls : List Line) (n : String) :
    execLines accept t ls n =
      (ls.filter fun l => l.name = n).foldl (fun e l => l.apply accept e) (t n) := by
  induction ls generalizing t with
  | nil => rfl
  | cons l ls ih =>
    have hcons : execLines accept t (l :: ls) n = execLines accept (execLine accept t l) ls n := rfl
    rw [hcons, ih, execLine]
    by_cases h : l.name = n
    · subst h
      simp
    · simp [h, Function.update_of_ne (Ne.symm h)]

end

/-- The lines about one interface, of lists of lines that are each about their own. -/
theorem filter_flatMap_name {is : List Interface} (hn : (is.map Interface.name).Nodup)
    {f : Interface → List Line} (hf : ∀ i ∈ is, ∀ l ∈ f i, l.name = i.name) (n : String) :
    (is.flatMap f).filter (fun l => l.name = n) = ((get Interface.name n is).map f).getD [] := by
  induction is with
  | nil => rfl
  | cons i is ih =>
    rw [List.map_cons, List.nodup_cons] at hn
    have ih := ih hn.2 fun j hj => hf j (List.mem_cons_of_mem _ hj)
    have hi := hf i List.mem_cons_self
    rw [List.flatMap_cons, List.filter_append, ih, Keyed.get_cons]
    by_cases h : i.name = n
    · have hnone : get Interface.name n is = none := by
        rw [Keyed.get_eq_none]
        intro a ha han
        exact hn.1 (List.mem_map.mpr ⟨a, ha, han.trans h.symm⟩)
      rw [if_pos h, hnone, List.filter_eq_self.mpr fun l hl => by simpa [h] using hi l hl]
      simp
    · rw [if_neg h, List.filter_eq_nil_iff.mpr fun l hl => by simpa [hi l hl] using h]
      simp

/-- The lines of an update about an interface, from what the old and the new
configuration have of it. -/
def touch (vrfId : Int) : Option Interface → Option Interface → List Line
  | some oldifp, some newifp => interfaceChanges oldifp newifp
  | none, some newifp => newifp.vlanLines ++ newifp.addressLines vrfId
  | some oldifp, none => oldifp.clearLines vrfId ++ removeVlans oldifp oldifp.vlans
  | none, none => []

theorem Interface.vlanLines_name (ifp : Interface) : ∀ l ∈ ifp.vlanLines, l.name = ifp.name := by
  simp [Interface.vlanLines, Line.name]

theorem Interface.addressLines_name (vrfId : Int) (ifp : Interface) :
    ∀ l ∈ ifp.addressLines vrfId, l.name = ifp.name := by
  intro l hl
  simp only [Interface.addressLines, List.mem_append, List.mem_cons, List.mem_map, List.not_mem_nil,
    or_false] at hl
  rcases hl with ((rfl | rfl) | ⟨ip, -, rfl⟩) | hl
  · rfl
  · rfl
  · rfl
  · split at hl
    · rw [List.mem_singleton.mp hl]
      rfl
    · cases hl

theorem Interface.clearLines_name (vrfId : Int) (ifp : Interface) :
    ∀ l ∈ ifp.clearLines vrfId, l.name = ifp.name := by
  intro l hl
  simp only [Interface.clearLines, List.mem_append, List.mem_cons, List.not_mem_nil, or_false] at hl
  rcases hl with (rfl | rfl) | hl
  · rfl
  · rfl
  · split at hl
    · rw [List.mem_singleton.mp hl]
      rfl
    · cases hl

theorem removeVlans_name (ifp : Interface) (vlans : List Int) :
    ∀ l ∈ removeVlans ifp vlans, l.name = ifp.name := by
  simp [removeVlans, Line.name]

theorem interfaceChanges_name {oldifp newifp : Interface} (h : oldifp.name = newifp.name) :
    ∀ l ∈ interfaceChanges oldifp newifp, l.name = oldifp.name := by
  intro l hl
  simp only [interfaceChanges, removeIPAddress, removeVlans, addVlans, addIPAddress, relayChanges,
    List.mem_append, List.mem_map] at hl
  rcases hl with (((⟨_, -, rfl⟩ | ⟨_, -, rfl⟩) | ⟨_, -, rfl⟩) | ⟨_, -, rfl⟩) | hl
  · rfl
  · rfl
  · exact h.symm
  · exact h.symm
  · split at hl
    · rcases List.mem_append.mp hl with hl | hl <;> split at hl
      · rw [List.mem_singleton.mp hl]
        rfl
      · cases hl
      · rw [List.mem_singleton.mp hl]
        exact h.symm
      · cases hl
    · cases hl

/-- The lines of `ProcessVrfInterfaceChanges` about an interface. -/
theorem changes_at (vrfId : Int) {cur new : List Interface} (hc : (cur.map Interface.name).Nodup)
    (hn : (new.map Interface.name).Nodup) (n : String) :
    (processVrfInterfaceChanges vrfId cur new).filter (fun l => l.name = n) =
      touch vrfId (get Interface.name n cur) (get Interface.name n new) := by
  have hboth : ∀ o ∈ cur, ∀ l ∈ (match new.find? fun i => o.name = i.name with
      | some newifp => interfaceChanges o newifp
      | none => []), l.name = o.name := by
    intro o _ l hl
    split at hl
    · rename_i i hfind
      have hname : o.name = i.name := by simpa using List.find?_some hfind
      exact interfaceChanges_name hname l hl
    · cases hl
  have hadd := (List.filter_sublist (p := fun i : Interface =>
    !cur.any fun o => o.name = i.name) (l := new)).map Interface.name |>.nodup hn
  have hdel := (List.filter_sublist (p := fun o : Interface =>
    !new.any fun i => o.name = i.name) (l := cur)).map Interface.name |>.nodup hc
  rw [processVrfInterfaceChanges, processInterfacesAdd, processInterfacesDelete]
  simp only [List.filter_append]
  rw [filter_flatMap_name hc hboth, filter_flatMap_name hadd fun i _ => i.vlanLines_name,
    filter_flatMap_name hadd fun i _ => i.addressLines_name vrfId,
    filter_flatMap_name hdel fun i _ => i.clearLines_name vrfId,
    filter_flatMap_name hdel fun i _ => removeVlans_name i i.vlans]
  have hget : (new.find? fun i => n = i.name) = get Interface.name n new := by
    rw [Keyed.get]
    congr 1
    funext i
    exact decide_eq_decide.mpr eq_comm
  rw [Keyed.get_filter Interface.name (fun k => !cur.any fun o => o.name = k),
    Keyed.get_filter Interface.name (fun k => !new.any fun i => k = i.name)]
  cases ho : get Interface.name n cur with
  | none =>
    have hnot : (cur.any fun o => o.name = n) = false := by
      simpa using Keyed.get_eq_none.mp ho
    cases hi : get Interface.name n new with
    | none => simp [touch]
    | some i => simp [touch, hnot]
  | some o =>
    have hoin : (cur.any fun o => o.name = n) = true := by
      simpa using ⟨o, Keyed.mem_of_get ho, Keyed.key_of_get Interface.name ho⟩
    have hon : o.name = n := Keyed.key_of_get Interface.name ho
    cases hi : get Interface.name n new with
    | none =>
      have hnot : (new.any fun i => n = i.name) = false := by
        refine List.any_eq_false.mpr fun i hin => ?_
        simpa using fun h => Keyed.get_eq_none.mp hi i hin (Eq.symm h)
      simp [touch, hoin, hnot, hon, hget, hi]
    | some i =>
      have hiin : (new.any fun i => n = i.name) = true :=
        List.any_eq_true.mpr ⟨i, Keyed.mem_of_get hi,
          decide_eq_true (Keyed.key_of_get Interface.name hi).symm⟩
      simp [touch, hoin, hiin, hon, hget, hi]

theorem calculateChanges_self {α : Type} [DecidableEq α] (l : List α) : calculateChanges l l = ([], []) := by
  simp [calculateChanges]

/-- The interfaces of a stored configuration. -/
def stored {Others : Type} (etcdVrfMap : Int → Option (VrfsConfig Others)) (vrfId : Int) : List Interface :=
  ((etcdVrfMap vrfId).map VrfsConfig.interfaces).getD []

theorem stored_nodup {Others : Type} (etcdVrfMap : Int → Option (VrfsConfig Others)) (vrfId : Int) :
    ((stored etcdVrfMap vrfId).map Interface.name).Nodup := by
  rw [stored]
  cases etcdVrfMap vrfId with
  | none => exact List.nodup_nil
  | some c => exact c.nodup

theorem touch_self (vrfId : Int) (o : Option Interface) : touch vrfId o o = [] := by
  cases o with
  | none => rfl
  | some i =>
    simp [touch, interfaceChanges, calculateChanges_self, relayChanges, removeIPAddress, removeVlans,
      addVlans, addIPAddress]

/-- The lines of an update about an interface. -/
theorem update_at {Others : Type} [DecidableEq Others] (etcdVrfMap : Int → Option (VrfsConfig Others))
    (vrfId : Int) (vrf : VrfsConfig Others) (n : String) :
    (processVrfUpdate etcdVrfMap vrfId vrf).filter (fun l => l.name = n) =
      touch vrfId (get Interface.name n (stored etcdVrfMap vrfId)) (get Interface.name n vrf.interfaces) := by
  rw [processVrfUpdate, stored]
  cases etcdVrfMap vrfId with
  | none =>
    simp only [etcdVrfVlanSubinterfacesAdd, etcdVrfAddressAdd, List.filter_append, Option.map_none,
      Option.getD_none, Keyed.get_nil]
    rw [filter_flatMap_name vrf.nodup fun i _ => i.vlanLines_name,
      filter_flatMap_name vrf.nodup fun i _ => i.addressLines_name vrfId]
    cases get Interface.name n vrf.interfaces <;> rfl
  | some c =>
    by_cases h : vrf = c
    · subst h
      simp [touch_self]
    · simp only [ne_eq, h, not_false_eq_true, if_true, Option.map_some, Option.getD_some]
      exact changes_at vrfId c.nodup vrf.nodup n

end OpenConfigd.Vrf
