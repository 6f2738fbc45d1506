import OpenConfigd.Lib.Resync

/-!
# The neighbours of the GoBGP server

`GobgpSetNeighbor` adds the neighbours of a configuration, each with a restart time of
one second; `GobgpUpdateNeighbor` keeps the neighbours that are the same, deletes the
other old ones and adds what is left, with the restart time that is configured.
`neighbor_update_agrees` says when both lead to the same neighbours.

The server has one neighbour per address; `AddNeighbor` of a free address and
`DeleteNeighbor` succeed, and `Neighbor.Equal` is equality of the configured fields.
-/

namespace OpenConfigd.Gobgp

/-- `Neighbor`: its address, `GracefulRestart.Config.RestartTime` and the other fields
that are configured. -/
structure Neighbor (S : Type) where
  neighborAddress : String
  restartTime : Nat
  settings : S
  deriving DecidableEq

variable {S : Type}

/-- The neighbour that `GobgpSetNeighbor` adds. -/
def Neighbor.adjusted (n : Neighbor S) : Neighbor S := { n with restartTime := 1 }

/-- What `AddNeighbor` puts under the address: a neighbour without one is refused. -/
def Neighbor.peer (n : Neighbor S) : Option (Neighbor S) := if n.neighborAddress = "" then none else some n

/-- The neighbours of the server by address. -/
abbrev Neighbors (S : Type) := String → Option (Neighbor S)

/-- `AddNeighbor`, which fails for an address that is taken. -/
def Neighbors.addNeighbor (s : Neighbors S) (n : Neighbor S) : Neighbors S :=
  Resync.add Neighbor.neighborAddress Neighbor.peer s n

/-- `GobgpSetNeighbor`. -/
def gobgpSetNeighbor (neighbors : List (Neighbor S)) (s : Neighbors S) : Neighbors S :=
  neighbors.foldl (fun s n => s.addNeighbor n.adjusted) s

theorem gobgpSetNeighbor_eq (neighbors : List (Neighbor S)) (s : Neighbors S) :
    gobgpSetNeighbor neighbors s =
      Resync.addAll Neighbor.neighborAddress (fun n => n.adjusted.peer) s neighbors := rfl

/-- The server has the neighbours of the configuration and no others. Each has its settings,
but the restart time may be the one that `GobgpSetNeighbor` gave it. -/
def NeighborsCorrespond (cfg : List (Neighbor S)) (s : Neighbors S) : Prop :=
  (∀ n ∈ cfg, s n.neighborAddress = n.peer ∨ s n.neighborAddress = n.adjusted.peer) ∧
    ∀ address, (∀ n ∈ cfg, n.neighborAddress ≠ address) → s address = none

theorem Neighbor.peer_eq_adjusted {n : Neighbor S} (h : n.neighborAddress ≠ "") :
    n.peer = n.adjusted.peer ↔ n.restartTime = 1 := by
  have h' : n.adjusted.neighborAddress ≠ "" := h
  rw [Neighbor.peer, Neighbor.peer, if_neg h, if_neg h', Option.some_inj]
  cases n
  simp [Neighbor.adjusted]

theorem Neighbor.peer_noAddress {n : Neighbor S} (h : n.neighborAddress = "") : n.peer = none := if_pos h

/-- A neighbour that is kept is on the server as `GobgpSetNeighbor` would add it exactly when
it has its restart time. -/
theorem NeighborsCorrespond.adjusted_iff {cfg : List (Neighbor S)} {s : Neighbors S}
    (hs : NeighborsCorrespond cfg s) {n : Neighbor S} (hn : n ∈ cfg) (h : n.neighborAddress ≠ "") :
    s n.neighborAddress = n.adjusted.peer ↔ (s n.neighborAddress).map Neighbor.restartTime = some 1 := by
  have hadj : n.adjusted.peer = some n.adjusted := if_neg h
  have hpeer : n.peer = some n := if_neg h
  rcases hs.1 n hn with hat | hat
  · rw [hat, Neighbor.peer_eq_adjusted h, hpeer]
    simp
  · rw [hat, hadj]
    simp [Neighbor.adjusted]

variable [DecidableEq S]

/-- `GobgpUpdateNeighbor`, from the neighbours of `gobgpConfig` to those of `cfg`: the cache
by address, the marks of `Neighbor.Equal`, a `DeleteNeighbor` for what is not marked (in
any order of the cache) and an `AddNeighbor` for what is new or not marked. -/
def gobgpUpdateNeighbor (gobgpConfig cfg : List (Neighbor S)) (s : Neighbors S) : Neighbors S :=
  Resync.sync Neighbor.neighborAddress (fun exist n => decide (exist = n)) Neighbors.addNeighbor gobgpConfig cfg s

/-- The neighbours that the configuration had before have a restart time of one second on
the server, and the others have it in the configuration. -/
def RestartTimesOne (gobgpConfig cfg : List (Neighbor S)) (s : Neighbors S) : Prop :=
  ∀ n ∈ cfg, n.neighborAddress ≠ "" →
    if n ∈ gobgpConfig then (s n.neighborAddress).map Neighbor.restartTime = some 1 else n.restartTime = 1

/-- The update leads to the neighbours that `GobgpSetNeighbor` gives on an empty server
exactly when all the restart times are those it writes. -/
theorem neighbor_update_agrees {gobgpConfig cfg : List (Neighbor S)} {s : Neighbors S}
    (hs : NeighborsCorrespond gobgpConfig s) (ho : (gobgpConfig.map Neighbor.neighborAddress).Nodup)
    (hn : (cfg.map Neighbor.neighborAddress).Nodup) :
    gobgpUpdateNeighbor gobgpConfig cfg s = gobgpSetNeighbor cfg (fun _ => none) ↔
      RestartTimesOne gobgpConfig cfg s := by
  have hfree : ∀ address, Latest.last Neighbor.neighborAddress address gobgpConfig = none → s address = none :=
    fun address h => hs.2 address (Latest.last_eq_none.mp h)
  have hsame : ∀ n : Neighbor S, (Latest.last Neighbor.neighborAddress n.neighborAddress gobgpConfig).any
      (fun exist => decide (exist = n)) = decide (n ∈ gobgpConfig) := by
    intro n
    rw [Bool.eq_iff_iff, Option.any_eq_true, decide_eq_true_iff]
    constructor
    · rintro ⟨o, hlast, heq⟩
      exact of_decide_eq_true heq ▸ (Latest.mem_of_last hlast).1
    · intro hmem
      exact ⟨n, Latest.last_of_nodup ho hmem, decide_eq_true rfl⟩
  unfold gobgpUpdateNeighbor
  rw [gobgpSetNeighbor_eq, show Neighbors.addNeighbor = Resync.add Neighbor.neighborAddress (Neighbor.peer (S := S))
    from rfl, Resync.sync_eq_iff hfree hn]
  refine forall₂_congr fun n hmem => ?_
  rw [hsame]
  by_cases haddr : n.neighborAddress = ""
  · -- nothing is added for a neighbour without an address, and nothing was
    have hnone : n.adjusted.peer = none := Neighbor.peer_noAddress haddr
    have hold : n ∈ gobgpConfig → s n.neighborAddress = none := fun h => by
      rcases hs.1 n h with hat | hat
      · rw [hat, Neighbor.peer_noAddress haddr]
      · rw [hat, hnone]
    simp only [haddr, ne_eq, not_true_eq_false, false_imp_iff, iff_true, hnone]
    split
    · next h => exact haddr ▸ hold (of_decide_eq_true h)
    · exact Neighbor.peer_noAddress haddr
  · by_cases hold : n ∈ gobgpConfig
    · simp only [hold, decide_true, if_true, haddr, ne_eq, not_false_eq_true, true_imp_iff]
      exact hs.adjusted_iff hold haddr
    · simp only [hold, decide_false, Bool.false_eq_true, if_false, haddr, ne_eq, not_false_eq_true, true_imp_iff]
      exact Neighbor.peer_eq_adjusted haddr

omit [DecidableEq S] in
theorem neighborsCorrespond_gobgpSetNeighbor {cfg : List (Neighbor S)}
    (hn : (cfg.map Neighbor.neighborAddress).Nodup) :
    NeighborsCorrespond cfg (gobgpSetNeighbor cfg fun _ => none) := by
  rw [gobgpSetNeighbor_eq]
  constructor
  · intro n hmem
    exact .inr ((Resync.addAll_at _ _ _).trans (Resync.found_of_nodup hn hmem))
  · intro address haddress
    rw [Resync.addAll_at, Resync.found_eq_none haddress]
    rfl

/-- The first neighbour is kept, the second has other settings, the third is gone and the last is
new. -/
theorem neighbor_update_agrees_new :
    let gobgpConfig : List (Neighbor String) :=
      [⟨"192.0.2.1", 0, "65001"⟩, ⟨"192.0.2.2", 1, "65002"⟩, ⟨"192.0.2.3", 1, "65003"⟩]
    let cfg : List (Neighbor String) :=
      [⟨"192.0.2.1", 0, "65001"⟩, ⟨"192.0.2.2", 1, "65022"⟩, ⟨"192.0.2.4", 1, "65004"⟩]
    gobgpUpdateNeighbor gobgpConfig cfg (gobgpSetNeighbor gobgpConfig fun _ => none) =
      gobgpSetNeighbor cfg (fun _ => none) := by
  intro gobgpConfig cfg
  have ho : (gobgpConfig.map Neighbor.neighborAddress).Nodup := by decide
  refine (neighbor_update_agrees (neighborsCorrespond_gobgpSetNeighbor ho) ho (by decide)).mpr ?_
  unfold RestartTimesOne
  decide

/-- A new neighbour without a restart time is added without one. -/
theorem neighbor_update_restartTime :
    ¬ ∀ (gobgpConfig cfg : List (Neighbor Unit)) (s : Neighbors Unit),
      NeighborsCorrespond gobgpConfig s → (gobgpConfig.map Neighbor.neighborAddress).Nodup →
        (cfg.map Neighbor.neighborAddress).Nodup →
          gobgpUpdateNeighbor gobgpConfig cfg s = gobgpSetNeighbor cfg (fun _ => none) := by
  intro h
  have heq := h [] [⟨"192.0.2.1", 0, ()⟩] (fun _ => none) ⟨by simp, by simp⟩ (by simp) (by simp)
  have htime := congrArg (fun s => (s "192.0.2.1").map Neighbor.restartTime) heq
  exact absurd htime (by decide)

end OpenConfigd.Gobgp
