import OpenConfigd.Config.Tree
import OpenConfigd.Go.Decimal
import OpenConfigd.Vrf.Dhcp

/-!
# The option of classless routes

`listClasslessRoutes` writes the routes of a pool as the octets of the option of RFC 3442:
for each the length of the prefix, its significant octets and the router. A client reads
them one after the other, with nothing between two routes (`decode`), and reads the
configured routes (`decode_listClasslessRoutes`).
-/

namespace OpenConfigd.Vrf.Dhcp

/-! ## The writer -/

/-- `net.IP`. -/
abbrev IP := List UInt8

/-- `To4`: an address of four octets, or one of sixteen that stands for it. -/
def to4 (ip : IP) : Option IP :=
  if ip.length = 4 then some ip
  else if ip.length = 16 ∧ ip.take 12 = List.replicate 10 0 ++ [0xff, 0xff] then some (ip.drop 12)
  else none

/-- `netutil.Prefix`. -/
structure Prefix where
  ip : IP
  length : Int

section

-- `net.ParseIP`; `none` for nil.
variable (parseIP : String → Option IP)

/-- `netutil.ParsePrefix`; `none` when it returns an error. -/
def parsePrefix (s : String) : Option Prefix :=
  match s.toList.dropWhile (· != '/') with
  | [] => none
  | _ :: mask => do
    let ip ← parseIP (String.ofList (s.toList.takeWhile (· != '/')))
    let length ← atoi (String.ofList mask)
    return ⟨(to4 ip).getD ip, length⟩

/-- `netutil.ParseIPv4`; nil has no octets. -/
def parseIPv4 (s : String) : IP :=
  match parseIP s with
  | none => []
  | some ip => (to4 ip).getD ip

/-- What the loop of `listClasslessRoutes` adds for a route; `none` when it panics, for a
prefix that is nil or an octet that is not there. -/
def routeText (route : ClasslessRoutes) : Option (List Char) := do
  let pfx ← parsePrefix parseIP route.pfx
  let octets ← (List.range ((pfx.length + 7).tdiv 8).toNat).mapM fun i => pfx.ip[i]?
  let nexthop := parseIPv4 parseIP route.nexthop
  let router ← (List.range 4).mapM fun i => nexthop[i]?
  return (toString pfx.length).toList ++
    (octets ++ router).flatMap fun octet => ", ".toList ++ (toString octet.toNat).toList

/-- The loop of `listClasslessRoutes` from a position. -/
def listRoutes (pos : Nat) : List ClasslessRoutes → Option (List Char)
  | [] => some []
  | route :: routes => do
    let text ← routeText parseIP route
    let rest ← listRoutes (pos + 1) routes
    return (if pos ≠ 0 then ", ".toList else []) ++ text ++ rest

/-- `listClasslessRoutes`. -/
def listClasslessRoutes (dhcpIpPool : DhcpIpPool) : Option (List Char) :=
  listRoutes parseIP 0 dhcpIpPool.option.classlessRoutesList

end

/-! ## The reader -/

/-- A route of the option: the address of the subnet and its length, and the router. -/
structure StaticRoute where
  subnet : Nat
  length : Nat
  router : IP
  deriving DecidableEq

/-- The number that octets stand for, the first one being the highest. -/
def number (octets : IP) : Nat := octets.foldl (fun n octet => 256 * n + octet.toNat) 0

/-- An address with the bits beyond a length cleared. -/
def masked (address length : Nat) : Nat := address / 2 ^ (32 - length) * 2 ^ (32 - length)

/-- One octet of a list. -/
def readOctet (word : List Char) : Option UInt8 :=
  match atoi (String.ofList (word.dropWhile (· == ' '))) with
  | some i => if 0 ≤ i ∧ i < 256 then some (UInt8.ofNat i.toNat) else none
  | none => none

/-- The octets of a list with commas. -/
def readOctets (text : List Char) : Option IP :=
  if text = [] then some [] else (text.splitOn ',').mapM readOctet

/-- The routes that octets stand for, by RFC 3442: a length up to 32, as many octets of the
subnet as it reaches into, four octets of the router, and so on to the end. The bits of the
subnet beyond the length are cleared. -/
def decode : IP → Option (List StaticRoute)
  | [] => some []
  | width :: rest =>
    let significant := (width.toNat + 7) / 8
    if width.toNat ≤ 32 ∧ significant + 4 ≤ rest.length then do
      let routes ← decode (rest.drop (significant + 4))
      let subnet := rest.take significant ++ List.replicate (4 - significant) 0
      return ⟨masked (number subnet) width.toNat, width.toNat, (rest.drop significant).take 4⟩ :: routes
    else none
termination_by octets => octets.length
decreasing_by
  simp only [List.length_drop, List.length_cons]
  omega

/-- The route that is configured, when the prefix is one of IPv4 and the nexthop an address
of IPv4. -/
def configured (parseIP : String → Option IP) (route : ClasslessRoutes) : Option StaticRoute := do
  let pfx ← parsePrefix parseIP route.pfx
  let nexthop := parseIPv4 parseIP route.nexthop
  if pfx.ip.length = 4 ∧ nexthop.length = 4 ∧ 0 ≤ pfx.length ∧ pfx.length ≤ 32 then
    return ⟨masked (number pfx.ip) pfx.length.toNat, pfx.length.toNat, nexthop⟩
  else none

/-! ## Octets as text -/

/-- The text of an octet. -/
def octetText (octet : UInt8) : List Char := (toString octet.toNat).toList

/-- Octets after others. -/
def moreText (octets : IP) : List Char := octets.flatMap fun octet => ", ".toList ++ octetText octet

theorem atoi_digits {n : Nat} (hn : n < 2 ^ 63) : atoi (toString n) = some (n : Int) := by
  have hdigit : ∀ c ∈ (toString n).toList, c.isDigit = true := fun c hc => isDigit_of_mem_repr hc
  have hfold : (toString n).toList.foldl (fun m c => 10 * m + (c.toNat - '0'.toNat)) 0 = n := foldl_repr n
  have hne : (toString n).toList ≠ [] := by
    rw [show (toString n).toList = Nat.toDigits 10 n from Nat.toList_repr]
    exact Nat.toDigits_ne_nil
  rw [atoi]
  generalize (toString n).toList = ds at hdigit hfold hne
  have hread : (if (ds.isEmpty || ds.any fun c => !c.isDigit) = true then none
      else some (ds.foldl (fun m c => 10 * m + (c.toNat - '0'.toNat)) 0)) = some n := by
    have hok : (ds.isEmpty || ds.any fun c => !c.isDigit) = false := by
      rw [Bool.or_eq_false_iff, List.isEmpty_eq_false_iff, List.any_eq_false]
      exact ⟨hne, fun c hc => by simp [hdigit c hc]⟩
    rw [hok, hfold]
    rfl
  simp only
  split
  · exact absurd (hdigit '-' List.mem_cons_self) (by decide)
  · exact absurd (hdigit '+' List.mem_cons_self) (by decide)
  · rw [hread, Option.bind_some, if_pos hn]

theorem octetText_digit {octet : UInt8} {c : Char} (hc : c ∈ octetText octet) : c.isDigit = true :=
  isDigit_of_mem_repr hc

theorem octetText_ne {octet : UInt8} {c : Char} (hc : c.isDigit = false) : c ∉ octetText octet := by
  intro hm
  have := octetText_digit hm
  rw [hc] at this
  nomatch this

theorem dropWhile_octetText (octet : UInt8) : (octetText octet).dropWhile (· == ' ') = octetText octet := by
  cases h : octetText octet with
  | nil => rfl
  | cons c cs =>
    have hc : c ≠ ' ' := by
      rintro rfl
      exact octetText_ne (by decide : ' '.isDigit = false) (h.symm ▸ List.mem_cons_self)
    rw [List.dropWhile_cons_of_neg (by simpa using hc)]

theorem readOctet_text (octet : UInt8) : readOctet (octetText octet) = some octet := by
  have hlt := octet.toNat_lt
  rw [readOctet, dropWhile_octetText, octetText, String.ofList_toList, atoi_digits (by omega)]
  simp only
  rw [if_pos (by omega), Int.toNat_natCast, UInt8.ofNat_toNat]

theorem readOctet_space (word : List Char) : readOctet (' ' :: word) = readOctet word := by
  rw [readOctet, List.dropWhile_cons_of_pos (by decide), readOctet]

/-- The pieces of a list are the texts of its octets. -/
theorem splitOn_octets (octet : UInt8) (octets : IP) : (octetText octet ++ moreText octets).splitOn ',' =
    octetText octet :: octets.map fun o => ' ' :: octetText o := by
  have hcomma (o : UInt8) : ',' ∉ octetText o := octetText_ne (by decide)
  induction octets generalizing octet with
  | nil =>
    rw [moreText, List.flatMap_nil, List.append_nil, List.splitOn_eq_singleton (hcomma octet)]
    rfl
  | cons o octets ih =>
    have hmore : moreText (o :: octets) = ',' :: ' ' :: (octetText o ++ moreText octets) := by
      rw [moreText, List.flatMap_cons, moreText]
      rfl
    rw [hmore, List.splitOn_append_cons_self_of_not_mem (hcomma octet), List.map_cons]
    congr 1
    have hspace : (' ' :: (octetText o ++ moreText octets)).splitOn ',' =
        ((octetText o ++ moreText octets).splitOn ',').modifyHead (' ' :: ·) := by
      rw [List.splitOn_cons_eq_if_modifyHead, if_neg (by decide)]
    rw [hspace, ih, List.modifyHead_cons]

theorem mapM_readOctet (octets : IP) :
    (octets.map fun o => ' ' :: octetText o).mapM readOctet = some octets := by
  induction octets with
  | nil => rfl
  | cons o octets ih =>
    rw [List.map_cons, List.mapM_cons, readOctet_space, readOctet_text, ih]
    rfl

theorem readOctets_text (octet : UInt8) (octets : IP) :
    readOctets (octetText octet ++ moreText octets) = some (octet :: octets) := by
  have hne : octetText octet ++ moreText octets ≠ [] := by
    rw [octetText, show (toString octet.toNat).toList = _ from Nat.toList_repr]
    exact List.append_ne_nil_of_left_ne_nil Nat.toDigits_ne_nil _
  rw [readOctets, if_neg hne, splitOn_octets, List.mapM_cons, readOctet_text, mapM_readOctet]
  rfl

/-! ## Reading a route -/

/-- The octets of a route. -/
def routeOctets (ip : IP) (width : Nat) (nexthop : IP) : IP :=
  UInt8.ofNat width :: (ip.take ((width + 7) / 8) ++ nexthop)

theorem number_four (a b c d : UInt8) :
    number [a, b, c, d] = ((a.toNat * 256 + b.toNat) * 256 + c.toNat) * 256 + d.toNat := by
  simp only [number, List.foldl]
  omega

/-- The bits that are cleared do not count. -/
theorem masked_congr {x y m width : Nat} (h : x / 2 ^ m = y / 2 ^ m) (hm : m ≤ 32 - width) :
    masked x width = masked y width := by
  have hdiv (z : Nat) : z / 2 ^ (32 - width) = z / 2 ^ m / 2 ^ (32 - width - m) := by
    rw [Nat.div_div_eq_div_mul, ← Nat.pow_add, Nat.add_sub_cancel' hm]
  rw [masked, masked, hdiv, hdiv y, h]

/-- The octets that a length does not reach into do not count. -/
theorem masked_significant {ip : IP} {width : Nat} (hip : ip.length = 4) (hw : width ≤ 32) :
    masked (number (ip.take ((width + 7) / 8) ++ List.replicate (4 - (width + 7) / 8) 0)) width =
      masked (number ip) width := by
  obtain ⟨a, b, c, d, rfl⟩ : ∃ a b c d, ip = [a, b, c, d] := by
    match ip, hip with
    | [a, b, c, d], _ => exact ⟨a, b, c, d, rfl⟩
  have ha := a.toNat_lt
  have hb := b.toNat_lt
  have hc := c.toNat_lt
  have hd := d.toNat_lt
  have hzero : (0 : UInt8).toNat = 0 := rfl
  rcases (by omega : (width + 7) / 8 = 0 ∨ (width + 7) / 8 = 1 ∨ (width + 7) / 8 = 2 ∨
    (width + 7) / 8 = 3 ∨ (width + 7) / 8 = 4) with h | h | h | h | h
  · refine @masked_congr _ _ 32 width ?_ (by omega)
    simp only [h, List.take, List.replicate, List.nil_append, number_four, hzero]
    omega
  · refine @masked_congr _ _ 24 width ?_ (by omega)
    simp only [h, List.take, List.replicate, List.cons_append, List.nil_append, number_four, hzero]
    omega
  · refine @masked_congr _ _ 16 width ?_ (by omega)
    simp only [h, List.take, List.replicate, List.cons_append, List.nil_append, number_four, hzero]
    omega
  · refine @masked_congr _ _ 8 width ?_ (by omega)
    simp only [h, List.take, List.replicate, List.cons_append, List.nil_append, number_four, hzero]
    omega
  · rw [h]
    rfl

/-- The octets of a route are read as the route, whatever comes after them. -/
theorem decode_routeOctets {ip nexthop tail : IP} {width : Nat} {routes : List StaticRoute}
    (hip : ip.length = 4) (hnexthop : nexthop.length = 4) (hw : width ≤ 32)
    (htail : decode tail = some routes) : decode (routeOctets ip width nexthop ++ tail) =
      some (⟨masked (number ip) width, width, nexthop⟩ :: routes) := by
  have hwidth : (UInt8.ofNat width).toNat = width := by
    rw [UInt8.toNat_ofNat', Nat.mod_eq_of_lt (by omega)]
  have htake : (ip.take ((width + 7) / 8)).length = (width + 7) / 8 := by
    rw [List.length_take, hip]
    omega
  have hlen : (width + 7) / 8 + 4 ≤ (ip.take ((width + 7) / 8) ++ nexthop ++ tail).length := by
    simp only [List.length_append, htake, hnexthop]
    omega
  have hdrop : (ip.take ((width + 7) / 8) ++ nexthop ++ tail).drop ((width + 7) / 8) = nexthop ++ tail := by
    rw [List.append_assoc, List.drop_left' htake]
  have hrest : (ip.take ((width + 7) / 8) ++ nexthop ++ tail).drop ((width + 7) / 8 + 4) = tail := by
    rw [← List.drop_drop, hdrop, List.drop_left' hnexthop]
  rw [routeOctets, List.cons_append, decode]
  simp only [hwidth]
  rw [if_pos ⟨hw, hlen⟩, hrest, htail, hdrop, List.append_assoc, List.take_left' htake, masked_significant hip hw,
    List.take_left' hnexthop]
  rfl

/-! ## Reading the option -/

section

variable {parseIP : String → Option IP}

theorem mapM_getElem {ip : IP} {n : Nat} (hn : n ≤ ip.length) :
    (List.range n).mapM (fun i => ip[i]?) = some (ip.take n) := by
  induction n with
  | zero => rfl
  | succ n ih =>
    rw [List.range_succ, List.mapM_append, ih (by omega), List.mapM_cons, List.getElem?_eq_getElem (by omega),
      List.take_succ_eq_append_getElem (by omega)]
    rfl

/-- The text of a route that is configured. -/
theorem routeText_configured {route : ClasslessRoutes} {r : StaticRoute}
    (h : configured parseIP route = some r) : ∃ (ip nexthop : IP) (width : Nat), ip.length = 4 ∧
      nexthop.length = 4 ∧ width ≤ 32 ∧ r = ⟨masked (number ip) width, width, nexthop⟩ ∧
      routeText parseIP route = some (octetText (UInt8.ofNat width) ++
        moreText (ip.take ((width + 7) / 8) ++ nexthop)) := by
  obtain ⟨pfx, hpfx, h⟩ := Option.bind_eq_some_iff.mp h
  simp only at h
  split at h
  · rename_i hc
    obtain ⟨hip, hnexthop, hpos, hwidth⟩ := hc
    obtain ⟨width, hw⟩ := Int.eq_ofNat_of_zero_le hpos
    rw [hw, Int.toNat_natCast] at h
    refine ⟨pfx.ip, parseIPv4 parseIP route.nexthop, width, hip, hnexthop, by omega, (Option.some.inj h).symm, ?_⟩
    have hoctets : ((pfx.length + 7).tdiv 8).toNat = (width + 7) / 8 := by
      rw [hw, Int.tdiv_eq_ediv_of_nonneg (by omega)]
      omega
    have hrouter : (List.range 4).mapM (fun i => (parseIPv4 parseIP route.nexthop)[i]?) =
        some (parseIPv4 parseIP route.nexthop) := by
      rw [mapM_getElem (Nat.le_of_eq hnexthop.symm), List.take_of_length_le (Nat.le_of_eq hnexthop)]
    have htext : (toString pfx.length).toList = octetText (UInt8.ofNat width) := by
      rw [hw, octetText, UInt8.toNat_ofNat', Nat.mod_eq_of_lt (by omega)]
      rfl
    rw [routeText, hpfx, Option.bind_eq_bind, Option.bind_some]
    simp only
    rw [hoctets, mapM_getElem (by omega), hrouter, htext]
    rfl
  · nomatch h

/-- The texts of routes are the octets of these routes. -/
theorem listRoutes_configured {routes : List ClasslessRoutes} {rs : List StaticRoute}
    (h : routes.mapM (configured parseIP) = some rs) : ∃ octets, decode octets = some rs ∧
      (∀ pos, pos ≠ 0 → listRoutes parseIP pos routes = some (moreText octets)) ∧
      ∃ text, listRoutes parseIP 0 routes = some text ∧ readOctets text = some octets := by
  induction routes generalizing rs with
  | nil =>
    rw [List.mapM_nil] at h
    cases h
    exact ⟨[], by rw [decode], fun _ _ => rfl, [], rfl, rfl⟩
  | cons route routes ih =>
    rw [List.mapM_cons] at h
    obtain ⟨r, hr, h⟩ := Option.bind_eq_some_iff.mp h
    obtain ⟨rs, hrs, h⟩ := Option.bind_eq_some_iff.mp h
    cases h
    obtain ⟨ip, nexthop, width, hip, hnexthop, hw, rfl, htext⟩ := routeText_configured hr
    obtain ⟨octets, hdecode, hmore, -⟩ := ih hrs
    have hjoin : moreText (ip.take ((width + 7) / 8) ++ nexthop) ++ moreText octets =
        moreText (ip.take ((width + 7) / 8) ++ nexthop ++ octets) := List.flatMap_append.symm
    refine ⟨routeOctets ip width nexthop ++ octets, decode_routeOctets hip hnexthop hw hdecode, ?_, ?_⟩
    · intro pos hpos
      have hcons : moreText (routeOctets ip width nexthop ++ octets) = ", ".toList ++
          octetText (UInt8.ofNat width) ++ moreText (ip.take ((width + 7) / 8) ++ nexthop ++ octets) := rfl
      rw [listRoutes, htext, hmore (pos + 1) (Nat.succ_ne_zero _), hcons, ← hjoin]
      simp [hpos]
    · refine ⟨octetText (UInt8.ofNat width) ++ moreText (ip.take ((width + 7) / 8) ++ nexthop ++ octets),
        ?_, readOctets_text _ _⟩
      rw [listRoutes, htext, hmore 1 Nat.one_ne_zero, ← hjoin]
      simp

end

/-- A client reads the routes of the option as they are configured. -/
theorem decode_listClasslessRoutes (parseIP : String → Option IP) (dhcpIpPool : DhcpIpPool)
    (routes : List StaticRoute)
    (h : dhcpIpPool.option.classlessRoutesList.mapM (configured parseIP) = some routes) :
    ∃ text octets, listClasslessRoutes parseIP dhcpIpPool = some text ∧ readOctets text = some octets ∧
      decode octets = some routes := by
  obtain ⟨octets, hdecode, -, text, htext, hread⟩ := listRoutes_configured h
  exact ⟨text, octets, htext, hread, hdecode⟩

/-- The parser on the addresses of one pool, in sixteen octets. -/
def parseThree (s : String) : Option IP :=
  let mapped := fun octets : IP => List.replicate 10 0 ++ [0xff, 0xff] ++ octets
  if s = "10.1.130.0" then some (mapped [10, 1, 130, 0])
  else if s = "0.0.0.0" then some (mapped [0, 0, 0, 0])
  else if s = "10.1.0.1" then some (mapped [10, 1, 0, 1])
  else none

/-- A default route after one with 17 bits. -/
theorem decode_defaultRoute :
    let pool : DhcpIpPool := { interface := "eth0", gatewayIp := "", subnet := "10.1.0.0/16", option :=
      { classlessRoutesList := [⟨"10.1.130.0/17", "10.1.0.1"⟩, ⟨"0.0.0.0/0", "10.1.0.1"⟩] } }
    listClasslessRoutes parseThree pool = some "17, 10, 1, 130, 10, 1, 0, 1, 0, 10, 1, 0, 1".toList ∧
    ∃ text octets, listClasslessRoutes parseThree pool = some text ∧ readOctets text = some octets ∧
      decode octets = some [⟨number [10, 1, 128, 0], 17, [10, 1, 0, 1]⟩, ⟨0, 0, [10, 1, 0, 1]⟩] := by
  intro pool
  exact ⟨by decide +kernel, decode_listClasslessRoutes parseThree pool _ (by decide +kernel)⟩

end OpenConfigd.Vrf.Dhcp
