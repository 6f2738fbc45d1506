import OpenConfigd.Vrf.Commute

/-!
# An update of the interfaces of a VRF

`ProcessVrfInterfaceChanges` changes the addresses, the VLANs and the relay group of an interface
that both configurations have, sets the interfaces that are new and clears those that are gone.

* `touched_eq`: what the lines about one interface leave of it;
* `interfaces_converge_iff`: when the candidate ends with the new configuration.
-/

namespace OpenConfigd.Vrf

/-- What a configuration has of an interface. -/
def configuredAt (vrfId : Int) (ifaces : List Interface) (n : String) : Finset Setting :=
  ((Keyed.get Interface.name n ifaces).map (configured vrfId)).getD ∅

/-- The interface is in one of the configurations. -/
def Named (cur new : List Interface) (n : String) : Prop :=
  (∃ o ∈ cur, o.name = n) ∨ ∃ i ∈ new, i.name = n

section

variable {accept : String → Setting → Bool} {vrfId : Int}

/-- The lines about an interface, when the command parser takes what is new of it. -/
theorem touched_eq {o i : Option Interface} {n : String} (hi : ∀ ifp, i = some ifp → ifp.name = n)
    (hacc : ∀ s ∈ ((i.map (configured vrfId)).getD ∅), s ∉ ((o.map (configured vrfId)).getD ∅) →
      accept n s = true) :
    applyAll accept ((o.map (configured vrfId)).getD ∅) (touch vrfId o i) =
      (i.map (configured vrfId)).getD ∅ := by
  cases i with
  | none =>
    cases o with
    | none => rfl
    | some oldifp => exact removed_eq
  | some newifp =>
    obtain rfl := hi newifp rfl
    cases o with
    | none =>
      refine added_eq fun s hs => hacc s ?_ (Finset.notMem_empty s)
      exact mem_configured.mpr hs
    | some oldifp =>
      refine changed_eq fun s hs hold => hacc s ?_ (mt mem_configured.mp hold)
      exact mem_configured.mpr hs

/-- When the candidate has what the old configuration says of the interfaces of both, it has what
the new one says after the update, just if the command parser takes what is new in it. -/
theorem interfaces_converge_iff (accept : String → Setting → Bool) (vrfId : Int)
    {cur new : List Interface} (hc : (cur.map Interface.name).Nodup)
    (hn : (new.map Interface.name).Nodup) {t : Candidate}
    (ht : ∀ n, Named cur new n → t n = configuredAt vrfId cur n) :
    (∀ n, Named cur new n →
      execLines accept t (processVrfInterfaceChanges vrfId cur new) n = configuredAt vrfId new n) ↔
      ∀ i ∈ new, ∀ s ∈ settings vrfId i, s ∉ configuredAt vrfId cur i.name → accept i.name s = true := by
  have hget {i : Interface} (hi : i ∈ new) : configuredAt vrfId new i.name = configured vrfId i := by
    rw [configuredAt, Keyed.get_of_mem hn hi]
    rfl
  constructor
  · intro h i hi s hs hold
    have hnamed : Named cur new i.name := .inr ⟨i, hi, rfl⟩
    by_contra hacc
    have hstays := refused_stays (Bool.eq_false_iff.mpr hacc) (ht i.name hnamed ▸ hold)
      (processVrfInterfaceChanges vrfId cur new)
    rw [h i.name hnamed, hget hi, mem_configured] at hstays
    exact hstays hs
  · intro hacc n hnamed
    rw [run_at, changes_at vrfId hc hn, ht n hnamed]
    refine touched_eq (n := n) (fun ifp h => Keyed.key_of_get Interface.name h) fun s hs hold => ?_
    cases h : Keyed.get Interface.name n new with
    | none =>
      rw [h] at hs
      cases hs
    | some ifp =>
      rw [h] at hs
      obtain rfl := Keyed.key_of_get Interface.name h
      exact hacc ifp (Keyed.mem_of_get h) s (mem_configured.mp hs) hold

end

/-- An interface with another address and a VLAN that comes twice, one that is gone and one that is
new. -/
theorem interfaces_converge_iff_changed :
    let cur : List Interface := [{ name := "eth0", ipv4 := ["10.0.0.1/8"], vlans := [5] },
      { name := "eth1", ipv4 := ["10.1.0.1/16"], dhcpRelayGroup := "g" }]
    let new : List Interface := [{ name := "eth0", ipv4 := ["10.0.0.2/8"], vlans := [5, 6, 6] },
      { name := "eth2", vlans := [7], dhcpRelayGroup := "g" }]
    ∀ n, Named cur new n →
      execLines (fun _ _ => true) (configuredAt 1 cur) (processVrfInterfaceChanges 1 cur new) n =
        configuredAt 1 new n := by
  intro cur new
  have hc : (cur.map Interface.name).Nodup := by decide
  have hn : (new.map Interface.name).Nodup := by decide
  exact (interfaces_converge_iff (fun _ _ => true) 1 hc hn fun _ _ => rfl).mpr fun _ _ _ _ _ => rfl

/-- An address that the command parser does not take. -/
theorem interfaces_miss_address : ∃ accept : String → Setting → Bool,
    execLines accept (fun _ => ∅) (processVrfInterfaceChanges 1 []
      [{ name := "eth0", ipv4 := ["10.0.0.1/33"] }]) "eth0" ≠
    configuredAt 1 [{ name := "eth0", ipv4 := ["10.0.0.1/33"] }] "eth0" := by
  refine ⟨fun _ s => s ≠ .address "10.0.0.1/33", fun h => ?_⟩
  have hmem : Setting.address "10.0.0.1/33" ∈
      configuredAt 1 [{ name := "eth0", ipv4 := ["10.0.0.1/33"] }] "eth0" := by decide
  rw [← h] at hmem
  exact refused_stays (by decide) (Finset.notMem_empty _) _ hmem

end OpenConfigd.Vrf
