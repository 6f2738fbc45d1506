import Mathlib.Data.List.Induction
import Mathlib.Tactic.Common

/-!
# The GoBGP process of the WAN

`GobgpWanParse` and `GobgpWanStop` keep one configuration of each source and run one `gobgpd`,
with the configuration that is not local before the local one. A parse stops the process before
it decodes its document.

* `Wan.Kept`: the process that is registered is the one in the variable, and the one that the
  configurations ask for;
* `Wan.Kept.step`: an event that decodes leaves the process that the configurations ask for;
* `wan_follows_iff`: for which runs that is so after every event.
-/

namespace OpenConfigd.Gobgp

/-- `GobgpConfig` as the WAN process uses it: its AS and the other fields. -/
structure WanConfig (R : Type) where
  as : UInt32 := 0
  rest : R
  deriving DecidableEq

/-- A `gobgpd` by its pointer, with the configuration it is started with. -/
structure WanProcess (R : Type) where
  ptr : ℕ
  cfg : WanConfig R
  deriving DecidableEq

/-- The variables of the WAN process, and the registered processes. -/
structure Wan (R : Type) where
  processList : List (WanProcess R) := []
  gobgpWanProcess : Option (WanProcess R) := none
  gobgpWanConfigLocal : WanConfig R
  gobgpWanConfigGohan : WanConfig R
  /-- The next pointer. -/
  next : ℕ := 0
  deriving DecidableEq

/-- An event from etcd. -/
inductive WanEvent where
  | gobgpWanParse (jsonStr : String) (loc : Bool)
  | gobgpWanStop (loc : Bool)

namespace Wan

variable {R : Type}

/-- The variables at the start, with the zero value of the other fields. -/
def init (zero : R) : Wan R :=
  { gobgpWanConfigLocal := { rest := zero }, gobgpWanConfigGohan := { rest := zero } }

/-- The process is unregistered and forgotten. -/
def unregister (s : Wan R) : Wan R :=
  match s.gobgpWanProcess with
  | none => s
  | some p =>
    { s with processList := s.processList.filter (fun q => q.ptr ≠ p.ptr), gobgpWanProcess := none }

/-- `GobgpWanConfig`. -/
def gobgpWanConfig (s : Wan R) (cfg : WanConfig R) : Wan R :=
  let p := ⟨s.next, cfg⟩
  { s with processList := s.processList ++ [p], gobgpWanProcess := some p, next := s.next + 1 }

/-- A process for the configuration that is not local, or else for the local one. -/
def restart (s : Wan R) : Wan R :=
  if s.gobgpWanConfigGohan.as ≠ 0 then s.gobgpWanConfig s.gobgpWanConfigGohan
  else if s.gobgpWanConfigLocal.as ≠ 0 then s.gobgpWanConfig s.gobgpWanConfigLocal
  else s

/-- `GobgpWanParse`; `decode` is `json.Unmarshal` and `mapstructure.Decode`. -/
def gobgpWanParse (decode : String → Option (WanConfig R)) (s : Wan R) (jsonStr : String) (loc : Bool) :
    Wan R :=
  let s := s.unregister
  match decode jsonStr with
  | none => s
  | some cfg =>
    restart (if loc then { s with gobgpWanConfigLocal := cfg } else { s with gobgpWanConfigGohan := cfg })

/-- `GobgpWanStop`. -/
def gobgpWanStop (s : Wan R) (loc : Bool) : Wan R :=
  let s := s.unregister
  restart (if loc then
      { s with gobgpWanConfigLocal := { s.gobgpWanConfigLocal with as := 0 } }
    else { s with gobgpWanConfigGohan := { s.gobgpWanConfigGohan with as := 0 } })

/-- The state after an event. -/
def step (decode : String → Option (WanConfig R)) (s : Wan R) : WanEvent → Wan R
  | .gobgpWanParse jsonStr loc => s.gobgpWanParse decode jsonStr loc
  | .gobgpWanStop loc => s.gobgpWanStop loc

/-- The state after events from the start. -/
def after (decode : String → Option (WanConfig R)) (zero : R) (es : List WanEvent) : Wan R :=
  es.foldl (step decode) (init zero)

/-- The configuration that a process should run with. -/
def wanted (s : Wan R) : Option (WanConfig R) :=
  if s.gobgpWanConfigGohan.as ≠ 0 then some s.gobgpWanConfigGohan
  else if s.gobgpWanConfigLocal.as ≠ 0 then some s.gobgpWanConfigLocal
  else none

/-- The event is a parse of a document that does not decode. -/
def Undecoded (decode : String → Option (WanConfig R)) : WanEvent → Prop
  | .gobgpWanParse jsonStr _ => decode jsonStr = none
  | .gobgpWanStop _ => False

/-- What should hold after an event: a process is registered just for the configuration that one
should run with, and a document that does not decode changes nothing. -/
structure Follows (decode : String → Option (WanConfig R)) (s : Wan R) (e : WanEvent) : Prop where
  processes : (s.step decode e).processList.map WanProcess.cfg = (s.step decode e).wanted.toList
  undecoded : Undecoded decode e → s.step decode e = s

/-- The processes are the one that the configurations ask for, and the variable has it. -/
structure Kept (s : Wan R) : Prop where
  processes : s.processList = s.gobgpWanProcess.toList
  wanted : s.gobgpWanProcess.map WanProcess.cfg = s.wanted

variable {decode : String → Option (WanConfig R)} {s : Wan R} {e : WanEvent}

theorem kept_init (zero : R) : (init zero).Kept := ⟨rfl, rfl⟩

theorem Kept.follows_processes (h : s.Kept) :
    s.processList.map WanProcess.cfg = s.wanted.toList := by
  rw [h.processes, ← h.wanted]
  cases s.gobgpWanProcess <;> rfl

/-- No process is left, and the configurations are as before. -/
theorem Kept.unregister (h : s.Kept) : s.unregister =
    { s with processList := [], gobgpWanProcess := none } := by
  have hp := h.processes
  obtain ⟨processList, process, loc, gohan, next⟩ := s
  cases process with
  | none =>
    obtain rfl : processList = [] := hp
    rfl
  | some p =>
    obtain rfl : processList = [p] := hp
    simp [Wan.unregister]

/-- A restart without a process leaves the one that the configurations ask for. -/
theorem kept_restart (hp : s.processList = []) (hv : s.gobgpWanProcess = none) : s.restart.Kept := by
  obtain ⟨processList, process, loc, gohan, next⟩ := s
  obtain rfl : processList = [] := hp
  obtain rfl : process = none := hv
  rw [restart]
  dsimp only
  split
  · rename_i hg
    exact ⟨rfl, by simp [gobgpWanConfig, Wan.wanted, hg]⟩
  · rename_i hg
    split
    · rename_i hl
      exact ⟨rfl, by simp [gobgpWanConfig, Wan.wanted, hg, hl]⟩
    · rename_i hl
      exact ⟨rfl, by simp [Wan.wanted, hg, hl]⟩

/-- An event other than a document that does not decode. -/
theorem Kept.step (h : s.Kept) (hd : ¬ Undecoded decode e) : (s.step decode e).Kept := by
  cases e with
  | gobgpWanParse jsonStr loc =>
    have hd : decode jsonStr ≠ none := hd
    obtain ⟨cfg, hcfg⟩ := Option.ne_none_iff_exists'.mp hd
    rw [Wan.step, gobgpWanParse, h.unregister, hcfg]
    cases loc <;> exact kept_restart rfl rfl
  | gobgpWanStop loc =>
    rw [Wan.step, gobgpWanStop, h.unregister]
    cases loc <;> exact kept_restart rfl rfl

/-- A document that does not decode stops the process. -/
theorem step_undecoded (hd : Undecoded decode e) : s.step decode e = s.unregister := by
  cases e with
  | gobgpWanParse jsonStr loc =>
    have hd : decode jsonStr = none := hd
    rw [Wan.step, gobgpWanParse, hd]
  | gobgpWanStop loc => exact hd.elim

theorem unregister_eq_self : s.unregister = s ↔ s.gobgpWanProcess = none := by
  rw [Wan.unregister]
  constructor
  · intro h
    split at h
    · assumption
    · rw [← h]
  · intro h
    rw [h]

end Wan

/-- After each event of a run a WAN process is registered just for the configuration with an AS,
the one that is not local first, and a document that does not decode changes nothing: this is so
just if no such document comes while a process is registered. -/
theorem wan_follows_iff {R : Type} (decode : String → Option (WanConfig R)) (zero : R)
    (es : List WanEvent) :
    (∀ before e rest, es = before ++ e :: rest → (Wan.after decode zero before).Follows decode e) ↔
      ∀ before e rest, es = before ++ e :: rest → Wan.Undecoded decode e →
        (Wan.after decode zero before).gobgpWanProcess = none := by
  constructor
  · intro h before e rest he hd
    have hsame := (h before e rest he).undecoded hd
    rw [Wan.step_undecoded hd] at hsame
    exact Wan.unregister_eq_self.mp hsame
  · intro h
    have hstep {before rest : List WanEvent} {e : WanEvent} (he : es = before ++ e :: rest)
        (hd : Wan.Undecoded decode e) :
        (Wan.after decode zero before).step decode e = Wan.after decode zero before := by
      rw [Wan.step_undecoded hd]
      exact Wan.unregister_eq_self.mpr (h before e rest he hd)
    -- The process is kept up to every point of the run.
    have hkept : ∀ before rest, es = before ++ rest → (Wan.after decode zero before).Kept := by
      intro before
      induction before using List.reverseRecOn with
      | nil => exact fun _ _ => Wan.kept_init zero
      | append_singleton before e ih =>
        intro rest he
        rw [List.append_assoc, List.singleton_append] at he
        rw [Wan.after, List.foldl_append, ← Wan.after, List.foldl_cons, List.foldl_nil]
        by_cases hd : Wan.Undecoded decode e
        · rw [hstep he hd]
          exact ih _ he
        · exact (ih _ he).step hd
    intro before e rest he
    refine ⟨?_, hstep he⟩
    by_cases hd : Wan.Undecoded decode e
    · rw [hstep he hd]
      exact (hkept before _ he).follows_processes
    · exact ((hkept before _ he).step hd).follows_processes

/-- A document that does not decode, after one with an AS. -/
theorem wan_stopped_by_text : ∃ decode : String → Option (WanConfig Unit), ∃ before e,
    ¬ (Wan.after decode () before).Follows decode e := by
  refine ⟨fun str => if str = "{}" then some ⟨65000, ()⟩ else none, [.gobgpWanParse "{}" false],
    .gobgpWanParse "" false, fun h => ?_⟩
  have hsame := h.undecoded rfl
  exact absurd hsame (by decide)

end OpenConfigd.Gobgp
