import OpenConfigd.Quaggad.Accept
import OpenConfigd.Quaggad.Bgp

/-!
# The limits of BGP peers

The limits that the check of BGP reports for neighbors and peer-groups, stated of every
value below a field: ranges (`peerLimits`, `neighborLimits`), pairs of fields that exclude
each other (`exclusions`), and three that the check gets wrong: the length of a password,
the holdtime and the local AS number. `respects_iff` says which candidates that pass the
check respect them.
-/

namespace OpenConfigd.Quaggad

/-- A field and what its values have to be. -/
structure Limit where
  words : List String
  ok : String → Bool

/-- A field that is a number in a range. -/
def Limit.range (words : List String) (min max : Int) : Limit := ⟨words, fun s => decide (InRange s min max)⟩

/-- The ranges of fields of neighbors and of peer-groups. -/
def peerLimits : List Limit :=
  [.range ["remote-as"] 1 4294967294, .range ["local-as"] 1 4294967294,
    .range ["ebgp-multihop"] 1 255, .range ["ttl-security", "hops"] 1 254,
    .range ["allowas-in", "number"] 1 10, .range (ipv6Unicast ++ ["allowas-in", "number"]) 1 10,
    .range ["weight"] 1 65535]

/-- The ranges of fields that only neighbors have. -/
def neighborLimits : List Limit :=
  [.range ["timers", "keepalive"] 1 65535, .range ["port"] 1 65535]

/-- The pairs of fields of which only one may be there. -/
def exclusions : List (List String × List String) :=
  (["export", "import"].flatMap fun direction => [[], ipv6Unicast].map fun family =>
    (family ++ ["distribute-list", direction], family ++ ["prefix-list", direction])) ++
  [(["ebgp-multihop"], ["ttl-security", "hops"])]

section

variable (c : Node) (base : List String)

/-- The values of a field keep to its limit. -/
def Keeps (l : Limit) : Prop := ∀ s ∈ c.values (base ++ l.words), l.ok s

/-- Only one of two fields is there. -/
def Excludes (pair : List String × List String) : Prop :=
  c.values (base ++ pair.1) = [] ∨ c.values (base ++ pair.2) = []

/-- A password of 1 to 80 characters. -/
def passwordLimit : Limit := ⟨["password"], fun s => decide (1 ≤ s.length ∧ s.length ≤ 80)⟩

/-- A local AS number that is not that of the router. -/
def localAsLimit (asNum : String) : Limit := ⟨["local-as"], fun s => decide (atoi s ≠ atoi asNum)⟩

/-- A holdtime of 0, or from 4. -/
def holdtimeLimit : Limit :=
  ⟨["timers", "holdtime"], fun s => decide (InRange s 0 0 ∨ InRange s 4 65535)⟩

instance (l : Limit) : Decidable (Keeps c base l) :=
  inferInstanceAs (Decidable (∀ s ∈ c.values (base ++ l.words), l.ok s))

instance (pair : List String × List String) : Decidable (Excludes c base pair) :=
  inferInstanceAs (Decidable (_ = [] ∨ _ = []))

/-- A peer keeps to its limits. -/
structure PeerRespects (asNum : String) : Prop where
  ranges : ∀ l ∈ peerLimits, Keeps c base l
  exclusions : ∀ pair ∈ exclusions, Excludes c base pair
  password : Keeps c base passwordLimit
  localAs : Keeps c base (localAsLimit asNum)

/-- A neighbor keeps to its limits. -/
structure NeighborRespects (asNum : String) : Prop extends PeerRespects c base asNum where
  own : ∀ l ∈ neighborLimits, Keeps c base l
  holdtime : Keeps c base holdtimeLimit

/-- What the check of a peer leaves open: fields with several values, and the password and
the local AS number. -/
structure PeerLeft (asNum : String) : Prop where
  ranges : ∀ l ∈ peerLimits, 1 < (c.values (base ++ l.words)).length → Keeps c base l
  exclusions : ∀ pair ∈ exclusions, 1 < (c.values (base ++ pair.1)).length ∨
    1 < (c.values (base ++ pair.2)).length → Excludes c base pair
  password : Keeps c base passwordLimit
  localAs : Keeps c base (localAsLimit asNum)

/-- What the check of a neighbor leaves open: the holdtime as well. -/
structure NeighborLeft (asNum : String) : Prop extends PeerLeft c base asNum where
  own : ∀ l ∈ neighborLimits, 1 < (c.values (base ++ l.words)).length → Keeps c base l
  holdtime : Keeps c base holdtimeLimit

end

/-- The peers of a candidate. -/
def Peers (c : Node) (neighbor peerGroup : List String → String → Prop) : Prop :=
  ∀ asNum ∈ c.values ["protocols", "bgp"],
    (∀ neigh ∈ c.values ["protocols", "bgp", asNum, "neighbor"],
      neighbor ["protocols", "bgp", asNum, "neighbor", neigh] asNum) ∧
    ∀ group ∈ c.values ["protocols", "bgp", asNum, "peer-group"],
      peerGroup ["protocols", "bgp", asNum, "peer-group", group] asNum

variable {go : Go} {c : Node}

theorem value_eq_some {path : List String} {s : String} : c.value path = some s ↔ c.values path = [s] := by
  rw [Node.value, Node.values]
  cases (c.lookup path).map LabelTree.labels with
  | none => simp
  | some labels =>
    rcases labels with _ | ⟨a, _ | ⟨b, l⟩⟩ <;> simp

/-- A check of the one value leaves the case of several. -/
theorem keeps_iff {base : List String} {l : Limit}
    (h : ∀ s, c.value (base ++ l.words) = some s → l.ok s) :
    Keeps c base l ↔ (1 < (c.values (base ++ l.words)).length → Keeps c base l) := by
  refine ⟨fun hk _ => hk, fun hk => ?_⟩
  rcases hv : c.values (base ++ l.words) with _ | ⟨a, _ | ⟨b, vs⟩⟩
  · intro s hs
    rw [hv] at hs
    nomatch hs
  · intro s hs
    rw [hv, List.mem_singleton] at hs
    exact hs ▸ h a (value_eq_some.mpr hv)
  · exact hk (by rw [hv]; simp)

theorem excludes_iff {base : List String} {pair : List String × List String}
    (h : ∀ s t, c.value (base ++ pair.1) = some s → c.value (base ++ pair.2) ≠ some t) :
    Excludes c base pair ↔ (1 < (c.values (base ++ pair.1)).length ∨
      1 < (c.values (base ++ pair.2)).length → Excludes c base pair) := by
  refine ⟨fun hk _ => hk, fun hk => ?_⟩
  rcases hv : c.values (base ++ pair.1) with _ | ⟨a, _ | ⟨b, vs⟩⟩
  · exact .inl hv
  · rcases hw : c.values (base ++ pair.2) with _ | ⟨a', _ | ⟨b', ws⟩⟩
    · exact .inr hw
    · exact absurd (value_eq_some.mpr hw) (h a a' (value_eq_some.mpr hv))
    · exact hk (.inr (by rw [hw]; simp))
  · exact hk (.inl (by rw [hv]; simp))

/-! ## What the checks say -/

section

variable {base at_ words words' : List String}

@[simp] theorem checkOnlyOne_eq_nil {message : String} : checkOnlyOne c base at_ words words' message = [] ↔
    ∀ s t, c.value (base ++ words) = some s → c.value (base ++ words') ≠ some t := by
  rw [checkOnlyOne]
  cases c.value (base ++ words) <;> cases c.value (base ++ words') <;> simp [checkBoth]

theorem checkRemoteAs_value (h : checkRemoteAs c base at_ = []) :
    ∀ s, c.value (base ++ ["remote-as"]) = some s → validatorRange s 1 4294967294 = true := by
  intro s hs
  rw [checkRemoteAs, hs, failIf_eq_nil, Bool.not_eq_false'] at h
  exact h

end

/-- What the check of a neighbor and that of a peer-group say of the limits of a peer. -/
theorem peer_checked {base at_ : List String} {asNum : String} (hremote : checkRemoteAs c base at_ = [])
    (hlists : checkPeerLists c base at_ = []) (hlimits : checkPeerLimits c base at_ asNum = [])
    (hrest : checkPeerRest go c base at_ = []) :
    (∀ l ∈ peerLimits, ∀ s, c.value (base ++ l.words) = some s → l.ok s) ∧
      ∀ pair ∈ exclusions, ∀ s t, c.value (base ++ pair.1) = some s → c.value (base ++ pair.2) ≠ some t := by
  simp only [checkPeerLists, checkFamilies, List.append_eq_nil_iff, checkField_eq_nil] at hlists
  obtain ⟨⟨⟨⟨⟨⟨⟨hallow, hallow6⟩, -⟩, -⟩, -⟩, hmultihop⟩, -⟩, -⟩ := hlists
  simp only [checkPeerLimits, checkFamilies, List.append_eq_nil_iff, checkField_eq_nil] at hlimits
  obtain ⟨⟨⟨hlocal, -⟩, -⟩, -⟩ := hlimits
  simp only [checkPeerRest, List.append_eq_nil_iff, checkField_eq_nil, checkOnlyOne_eq_nil,
    List.flatMap_eq_nil_iff] at hrest
  obtain ⟨⟨⟨⟨⟨hhops, -⟩, -⟩, hweight⟩, hlistPairs⟩, hhopPair⟩ := hrest
  constructor
  · intro l hl s hs
    simp only [peerLimits, List.mem_cons, List.not_mem_nil, or_false] at hl
    rcases hl with rfl | rfl | rfl | rfl | rfl | rfl | rfl
    · exact decide_eq_true (validatorRange_iff.mp (checkRemoteAs_value hremote s hs))
    · exact decide_eq_true (validatorRange_iff.mp (hlocal s hs))
    · exact decide_eq_true (validatorRange_iff.mp (hmultihop s hs))
    · exact decide_eq_true (validatorRange_iff.mp (hhops s hs))
    · exact decide_eq_true (validatorRange_iff.mp (hallow s hs))
    · exact decide_eq_true (validatorRange_iff.mp (hallow6 s hs))
    · exact decide_eq_true (validatorRange_iff.mp (hweight s hs))
  · intro pair hpair
    rcases List.mem_append.mp hpair with hpair | hpair
    · obtain ⟨direction, hd, hpair⟩ := List.mem_flatMap.mp hpair
      obtain ⟨family, hf, rfl⟩ := List.mem_map.mp hpair
      exact hlistPairs direction hd family hf
    · rw [List.mem_singleton.mp hpair]
      exact hhopPair

theorem peerRespects_iff {base : List String} {asNum : String}
    (hranges : ∀ l ∈ peerLimits, ∀ s, c.value (base ++ l.words) = some s → l.ok s)
    (hexclusions : ∀ pair ∈ exclusions, ∀ s t,
      c.value (base ++ pair.1) = some s → c.value (base ++ pair.2) ≠ some t) :
    PeerRespects c base asNum ↔ PeerLeft c base asNum := by
  constructor
  · rintro ⟨h, hx, hp, hl⟩
    exact ⟨fun l hm => (keeps_iff (hranges l hm)).mp (h l hm),
      fun pair hm => (excludes_iff (hexclusions pair hm)).mp (hx pair hm), hp, hl⟩
  · rintro ⟨h, hx, hp, hl⟩
    exact ⟨fun l hm => (keeps_iff (hranges l hm)).mpr (h l hm),
      fun pair hm => (excludes_iff (hexclusions pair hm)).mpr (hx pair hm), hp, hl⟩

theorem neighborRespects_iff {asNum neigh : String}
    (h : quaggaConfigValidBgpNeighbor go c (some asNum) neigh = []) :
    NeighborRespects c ["protocols", "bgp", asNum, "neighbor", neigh] asNum ↔
      NeighborLeft c ["protocols", "bgp", asNum, "neighbor", neigh] asNum := by
  rw [quaggaConfigValidBgpNeighbor, withAsNum] at h
  simp only at h
  split at h
  · nomatch h
  · simp only [List.append_eq_nil_iff, checkField_eq_nil] at h
    obtain ⟨⟨⟨⟨⟨⟨⟨⟨⟨⟨hremote, -⟩, hlists⟩, hlimits⟩, -⟩, hport⟩, -⟩, -⟩, -⟩, hkeepalive⟩, hrest⟩ := h
    obtain ⟨hranges, hexclusions⟩ := peer_checked hremote hlists hlimits hrest
    have hpeer := @peerRespects_iff c _ asNum hranges hexclusions
    have hown : ∀ l ∈ neighborLimits, ∀ s,
        c.value (["protocols", "bgp", asNum, "neighbor", neigh] ++ l.words) = some s → l.ok s := by
      intro l hl s hs
      simp only [neighborLimits, List.mem_cons, List.not_mem_nil, or_false] at hl
      rcases hl with rfl | rfl
      · exact decide_eq_true (validatorRange_iff.mp (hkeepalive s hs))
      · exact decide_eq_true (validatorRange_iff.mp (hport s hs))
    constructor
    · rintro ⟨h, ho, hh⟩
      exact ⟨hpeer.mp h, fun l hm => (keeps_iff (hown l hm)).mp (ho l hm), hh⟩
    · rintro ⟨h, ho, hh⟩
      exact ⟨hpeer.mpr h, fun l hm => (keeps_iff (hown l hm)).mpr (ho l hm), hh⟩

theorem groupRespects_iff {asNum group : String}
    (h : quaggaConfigValidBgpPeerGroup go c (some asNum) group = []) :
    PeerRespects c ["protocols", "bgp", asNum, "peer-group", group] asNum ↔
      PeerLeft c ["protocols", "bgp", asNum, "peer-group", group] asNum := by
  rw [quaggaConfigValidBgpPeerGroup, withAsNum] at h
  simp only [List.append_eq_nil_iff] at h
  obtain ⟨⟨⟨⟨hremote, hlists⟩, hlimits⟩, -⟩, hrest⟩ := h
  obtain ⟨hranges, hexclusions⟩ := peer_checked hremote hlists hlimits hrest
  exact peerRespects_iff hranges hexclusions

/-- A candidate that passes the check respects the limits of its peers when the fields with
several values, the passwords, the local AS numbers and the holdtimes do. -/
theorem respects_iff (go : Go) (c : Node) (h : quaggaConfigValidBgp go c = []) :
    Peers c (NeighborRespects c) (PeerRespects c) ↔ Peers c (NeighborLeft c) (PeerLeft c) := by
  refine forall₂_congr fun asNum hasNum => ?_
  obtain ⟨hneighbors, hgroups⟩ : quaggaConfigValidBgpNeighbors go c (some asNum) = [] ∧
      quaggaConfigValidBgpPeerGroups go c (some asNum) = [] := by
    rw [quaggaConfigValidBgp] at h
    rcases hv : c.values ["protocols", "bgp"] with _ | ⟨a, _ | ⟨b, l⟩⟩
    · rw [hv] at hasNum
      nomatch hasNum
    · rw [hv, List.mem_singleton] at hasNum
      subst hasNum
      simp only [hv, List.length_singleton, Nat.one_ne_zero, if_false, Nat.lt_irrefl,
        value_eq_some.mpr hv, List.append_eq_nil_iff] at h
      exact ⟨h.1.1.1.1.1.1.1.2, h.1.1.1.1.1.1.2⟩
    · rw [hv] at h
      simp at h
  rw [quaggaConfigValidBgpNeighbors, withAsNum, List.flatMap_eq_nil_iff] at hneighbors
  rw [quaggaConfigValidBgpPeerGroups, withAsNum, List.flatMap_eq_nil_iff] at hgroups
  exact and_congr (forall₂_congr fun neigh hm => neighborRespects_iff (hneighbors neigh hm))
    (forall₂_congr fun group hm => groupRespects_iff (hgroups group hm))

/-- A candidate with a neighbor, of these fields. -/
def oneNeighbor (fields : List (List String)) : Node :=
  fields.foldl (fun c words =>
    c.quaggaConfigStateSet (["protocols", "bgp", "65000", "neighbor", "10.0.0.1"] ++ words)) .make

/-- A password of 81 characters and a holdtime of 2 pass the check. -/
theorem bgp_limits_passed :
    let c := oneNeighbor [["remote-as", "65001"], ["password", String.ofList (List.replicate 81 'p')],
      ["timers", "holdtime", "2"]]
    quaggaConfigValidBgp plainGo c = [] ∧ ¬ Peers c (NeighborRespects c) (PeerRespects c) := by
  intro c
  refine ⟨by decide +kernel, fun h => ?_⟩
  have hneigh := (h "65000" (by decide +kernel)).1 "10.0.0.1" (by decide +kernel)
  exact absurd (hneigh.holdtime "2" (by decide +kernel)) (by decide)

/-- A neighbor with a port and a holdtime. -/
theorem respects_port :
    let c := oneNeighbor [["remote-as", "65001"], ["port", "179"], ["timers", "holdtime", "90"]]
    quaggaConfigValidBgp plainGo c = [] ∧ Peers c (NeighborRespects c) (PeerRespects c) := by
  intro c
  have hvalid : quaggaConfigValidBgp plainGo c = [] := by decide +kernel
  refine ⟨hvalid, (respects_iff plainGo c hvalid).mpr fun asNum hasNum => ?_⟩
  have hnums : c.values ["protocols", "bgp"] = ["65000"] := by decide +kernel
  have hneighbors : c.values ["protocols", "bgp", "65000", "neighbor"] = ["10.0.0.1"] := by decide +kernel
  have hgroups : c.values ["protocols", "bgp", "65000", "peer-group"] = [] := by decide +kernel
  rw [hnums, List.mem_singleton] at hasNum
  subst hasNum
  rw [hneighbors, hgroups]
  refine ⟨fun neigh hneigh => ?_, nofun⟩
  rw [List.mem_singleton.mp hneigh]
  exact ⟨⟨by decide +kernel, by decide +kernel, by decide +kernel, by decide +kernel⟩, by decide +kernel,
    by decide +kernel⟩

end OpenConfigd.Quaggad
