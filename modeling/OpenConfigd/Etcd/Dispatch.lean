import OpenConfigd.Vrf.Daemons

/-!
# Every key and value

An event from etcd is to be handled whatever its key is, and a put for a VRF whose number does not
parse is to change nothing of any VRF.

* `Daemons.vrfParse_not_same`, `Daemons.quaggaConfigSync_not_same`: a put that decodes changes a VRF;
* `Daemons.step_put_unparsed`: one that does not leaves every state as it is;
* `events_handled_iff`: a put without the name of a `command` panics, and the handlers of `vrf` and
  `quagga` go on with the number that comes with the error, and for GoBGP with that of the body.
-/

namespace OpenConfigd.Vrf

open Etcd (Request etcdKeyValueParse etcdKeyDelete getFunctionalityPathFromKey served fields bytes)
open Quaggad (atoiValue)

namespace Daemons

variable {Ospf R : Type}

/-- What is kept for a VRF is the same in two states. -/
structure SameVrf (s s' : Daemons Ospf R) (v : Int) : Prop where
  config : s'.etcdVrfMap.lookup v = s.etcdVrfMap.lookup v
  bgpd : s'.quaggaProc.lookup v = s.quaggaProc.lookup v
  ospf : s'.ospfVrfMap.lookup v = s.ospfVrfMap.lookup v
  ospfd : s'.ospfProcessMap.lookup v = s.ospfProcessMap.lookup v
  instances : ∀ i, s'.quaggaManager.procs v i = s.quaggaManager.procs v i
  cached : ∀ i, (s'.quaggaManager.configCache.lookup v).map (fun c => c.lookup i) =
    (s.quaggaManager.configCache.lookup v).map fun c => c.lookup i
  gobgp : (s'.gobgpVrfs.filter fun vrf => vrf.vrfId = v) = s.gobgpVrfs.filter fun vrf => vrf.vrfId = v
  hubs : s'.gobgpHubProcessList.lookup v = s.gobgpHubProcessList.lookup v
  hubNode : s'.gobgpHubNode.lookup v = s.gobgpHubNode.lookup v

variable {s : Daemons Ospf R} {host : Host Ospf R} {creatable : Bool} {vrfId : Int}

theorem SameVrf.refl (s : Daemons Ospf R) (v : Int) : s.SameVrf s v :=
  ⟨rfl, rfl, rfl, rfl, fun _ => rfl, fun _ => rfl, rfl, rfl, rfl⟩

/-! ## The dispatch -/

/-- The key is one of a VRF whose number does not parse. -/
def UnparsedId (key : List UInt8) : Prop :=
  ∃ name id rest, served (fields key) = name :: id :: rest ∧ (name = "vrf" ∨ name = "quagga") ∧
    atoi id = none

/-- What should hold of a put and of a delete of its key: no index is out of range, and where the
number of a VRF does not parse nothing of any VRF changes. -/
structure Handled (host : Host Ospf R) (s : Daemons Ospf R) (key value : List UInt8) (creatable : Bool) :
    Prop where
  path : (getFunctionalityPathFromKey key).isSome
  delete : (etcdKeyDelete key).isSome
  put : (etcdKeyValueParse host.jsonBody key value).isSome
  same : UnparsedId key → ∀ s', s.step host (.put key value creatable) = some s' → ∀ v, s.SameVrf s' v

/-- A put that names its command and, where the number of a VRF does not parse, does not decode. -/
structure PutSafe (host : Host Ospf R) (key value : List UInt8) (body : String) : Prop where
  command : served (fields key) ≠ ["command"]
  vrf : ∀ id rest, served (fields key) = "vrf" :: id :: rest → atoi id = none → host.vrf body = none
  quagga : ∀ id rest, served (fields key) = "quagga" :: id :: rest → atoi id = none →
    host.quagga value = none

/-- A put whose path has one call. -/
theorem step_put {key value : List UInt8} {body : String} {r : Request}
    (hbody : host.jsonBody value = some body)
    (hput : ∀ loc, Etcd.putRequest (served (fields key)) loc value body = some [r]) :
    s.step host (.put key value creatable) = some (s.call host creatable r) := by
  obtain ⟨loc, hparse⟩ := Etcd.etcdKeyValueParse_eq host.jsonBody key value
  have hne : served (fields key) ≠ [] := by
    intro hnil
    have hnone := hput loc
    rw [hnil] at hnone
    cases hnone
  rw [step, hparse, if_neg hne, hbody]
  simp only [hput loc]
  rfl

theorem step_put_vrf {key value : List UInt8} {body id : String} {rest : List String}
    (hbody : host.jsonBody value = some body) (hpath : served (fields key) = "vrf" :: id :: rest) :
    s.step host (.put key value creatable) =
      some (s.call host creatable (.vrfParse (atoiValue id) body)) :=
  step_put hbody fun loc => hpath ▸ Etcd.putRequest_vrf id rest loc value body

theorem step_put_quagga {key value : List UInt8} {body id : String} {rest : List String}
    (hbody : host.jsonBody value = some body) (hpath : served (fields key) = "quagga" :: id :: rest) :
    s.step host (.put key value creatable) =
      some (s.call host creatable (.quaggaConfigSync value (atoiValue id))) :=
  step_put hbody fun loc => hpath ▸ Etcd.putRequest_quagga id rest loc value body

/-- A value that does not decode changes nothing. -/
theorem step_put_undecoded {key value : List UInt8} (hbody : host.jsonBody value = none) :
    s.step host (.put key value creatable) = some s := by
  obtain ⟨loc, hput⟩ := Etcd.etcdKeyValueParse_eq host.jsonBody key value
  rw [step, hput, hbody]
  split <;> rfl

/-- A VRF that was not there has a configuration after a parse. -/
theorem vrfParse_not_same (vrf : DaemonConfig Ospf R) (hnew : s.etcdVrfMap.lookup vrfId = none) :
    ¬ s.SameVrf (s.vrfParse host creatable vrfId vrf) vrfId := by
  intro h
  have hconfig := h.config
  rw [(vrfParse_maps vrf).1, AList.lookup_insert, hnew] at hconfig
  cases hconfig

theorem quaggaConfigSync_not_same (configs : Quagga.InterfaceConfigs)
    (hnew : s.quaggaManager.configCache.lookup vrfId = none) :
    ¬ s.SameVrf { s with quaggaManager :=
      s.quaggaManager.quaggaConfigSync host.writable configs vrfId configs.keys } vrfId := by
  intro h
  have hcached := h.cached ""
  rw [Quagga.Manager.quaggaConfigSync_eq] at hcached
  simp only [AList.lookup_insert, hnew, Option.map_some, Option.map_none] at hcached
  cases hcached

/-- A put that is safe leaves every state as it is where the number of a VRF does not parse. -/
theorem step_put_unparsed {s' : Daemons Ospf R} {key value : List UInt8} (hkey : UnparsedId key)
    (hsafe : ∀ body, host.jsonBody value = some body → PutSafe host key value body)
    (hstep : s.step host (.put key value creatable) = some s') : s' = s := by
  obtain ⟨name, id, rest, hpath, hname, hid⟩ := hkey
  cases hbody : host.jsonBody value with
  | none =>
    rw [step_put_undecoded hbody] at hstep
    exact (Option.some.inj hstep).symm
  | some body =>
    rcases hname with rfl | rfl
    · rw [step_put_vrf hbody hpath, call, (hsafe body hbody).vrf id rest hpath hid] at hstep
      exact (Option.some.inj hstep).symm
    · rw [step_put_quagga hbody hpath, call, (hsafe body hbody).quagga id rest hpath hid] at hstep
      exact (Option.some.inj hstep).symm

end Daemons

open Daemons in
/-- For every key and value, no handler indexes a component that is not there and in no state of a run
a put for a VRF whose number does not parse changes anything of a VRF: this is so just if the value
does not decode, or the key names a command where it is about one, and the configuration does not
decode where the number does not parse. -/
theorem events_handled_iff {Ospf R : Type} (host : Host Ospf R) (key value : List UInt8) :
    (∀ before s creatable, Runs.run (step host) {} before = some s →
        Handled host s key value creatable) ↔
      ∀ body, host.jsonBody value = some body → PutSafe host key value body := by
  have hput := Etcd.etcdKeyValueParse_isSome host.jsonBody key value
  constructor
  · intro h body hbody
    -- The state at the start, where no VRF is known, and a put with any `creatable`.
    have hstart := h [] {} false rfl
    refine ⟨fun hpath => ?_, fun id rest hpath hid => ?_, fun id rest hpath hid => ?_⟩
    · exact hput.mp hstart.put ⟨by rw [hbody]; rfl, hpath⟩
    · have hsame := hstart.same ⟨"vrf", id, rest, hpath, .inl rfl, hid⟩ _ (step_put_vrf hbody hpath)
      by_contra hsome
      obtain ⟨vrf, hvrf⟩ := Option.ne_none_iff_exists'.mp hsome
      rw [call, hvrf] at hsame
      exact vrfParse_not_same vrf (AList.lookup_empty _) (hsame (atoiValue id))
    · have hsame := hstart.same ⟨"quagga", id, rest, hpath, .inr rfl, hid⟩ _ (step_put_quagga hbody hpath)
      by_contra hsome
      obtain ⟨configs, hconfigs⟩ := Option.ne_none_iff_exists'.mp hsome
      rw [call, hconfigs] at hsame
      exact quaggaConfigSync_not_same configs (AList.lookup_empty _) (hsame (atoiValue id))
  · intro h before s creatable _
    refine ⟨?_, Etcd.etcdKeyDelete_isSome key, ?_, fun hkey s' hstep v => ?_⟩
    · obtain ⟨loc, hpath⟩ := Etcd.getFunctionalityPathFromKey_eq key
      rw [hpath]
      rfl
    · refine hput.mpr ?_
      rintro ⟨hsome, hpath⟩
      obtain ⟨body, hbody⟩ := Option.isSome_iff_exists.mp hsome
      exact (h body hbody).command hpath
    · rw [step_put_unparsed hkey h hstep]
      exact SameVrf.refl s v

/-- A VRF whose number parses, and a body that does not decode for one whose number does not. -/
theorem events_handled_undecoded :
    (∀ before s creatable, Runs.run (Daemons.step oneBgpd) {} before = some s →
      Daemons.Handled oneBgpd s (bytes "/config/services/vrf/1") [] creatable) ∧
    ∀ before s creatable, Runs.run (Daemons.step undecoded) {} before = some s →
      Daemons.Handled undecoded s (bytes "/config/services/vrf/x") [] creatable := by
  constructor
  · have hpath : served (fields (bytes "/config/services/vrf/1")) = ["vrf", "1"] := by decide +kernel
    refine (events_handled_iff oneBgpd _ _).mpr fun body _ => ⟨?_, fun id rest hvrf hid => ?_, fun id rest _ _ => rfl⟩
    · rw [hpath]
      decide
    · rw [hpath] at hvrf
      obtain ⟨-, htail⟩ := List.cons.inj hvrf
      rw [← (List.cons.inj htail).1] at hid
      exact absurd hid (by decide)
  · have hpath : served (fields (bytes "/config/services/vrf/x")) = ["vrf", "x"] := by decide +kernel
    refine (events_handled_iff undecoded _ _).mpr fun body _ => ⟨?_, fun id rest _ _ => rfl, fun id rest _ _ => rfl⟩
    rw [hpath]
    decide

/-- A command without a name, and a VRF whose number does not parse, at the start. -/
theorem events_unhandled :
    ¬ Daemons.Handled oneBgpd {} (bytes "/config/services/command") [] false ∧
    ¬ Daemons.Handled oneBgpd {} (bytes "/config/services/vrf/x") [] false := by
  constructor
  · intro h
    have hput := (Etcd.etcdKeyValueParse_isSome _ _ _).mp h.put
    exact hput ⟨rfl, by decide +kernel⟩
  · intro h
    have hpath : served (fields (bytes "/config/services/vrf/x")) = ["vrf", "x"] := by decide +kernel
    have hid : atoi "x" = none := by decide
    have hsame := h.same ⟨"vrf", "x", [], hpath, .inl rfl, hid⟩ _ (Daemons.step_put_vrf rfl hpath)
    -- The `bgpd` of VRF 0 is another one.
    exact Daemons.sound_empty.vrfParse_restarts (List.cons_ne_nil _ _) (hsame (atoiValue "x")).bgpd

end OpenConfigd.Vrf
