import Mathlib.Algebra.Order.BigOperators.Group.List
import Mathlib.Algebra.Order.Ring.Nat
import OpenConfigd.Go.Map
import OpenConfigd.Lib.Keyed
import OpenConfigd.Lib.Runs
import OpenConfigd.Subscribe.Commit

/-!
# The filter of VRF deletes

`SendCommand` notes every SET of `vrf name X` in `VrfIfDeleteCache`, and lets a
DELETE of it through just if it finds the note, which it takes away. The notes are
one map for all subscribers, so the first subscriber's DELETE filters the others',
and the DELETE of a validation the one of the commit. `vrf_delete_sent`: in runs of
commits without validation, and with one subscription for each VRF that is deleted,
a subscriber that was sent a SET is sent its DELETE.
-/

namespace OpenConfigd

/-- `EtcdVrfCommand`. -/
def etcdVrfCommand (cmd : Command) : Bool :=
  cmd.cmds.length = 3 && cmd.cmds[0]? = some "vrf" && cmd.cmds[1]? = some "name"

/-- The subscribers with their queues, `VrfIfDeleteCache`, and the SET and DELETE messages
sent to the subscribers. -/
structure Notifier where
  hub : Hub := {}
  vrfIfDeleteCache : GoMap String Bool := ∅
  next : Nat := 0
  sent : List (Nat × Command) := []

namespace Notifier

/-- `EtcdVrfDeleteCacheRegister`. -/
def etcdVrfDeleteCacheRegister (cmd : Command) (n : Notifier) : Notifier :=
  if etcdVrfCommand cmd then
    { n with vrfIfDeleteCache := n.vrfIfDeleteCache.insert (" ".intercalate cmd.cmds) true }
  else n

/-- `EtcdVrfDeleteCacheCheck`. -/
def etcdVrfDeleteCacheCheck (n : Notifier) (str : String) : Bool := n.vrfIfDeleteCache.at? str false

/-- `SendMessage` of a SET or a DELETE. -/
def sendMessage (i : Nat) (cmd : Command) (n : Notifier) : Notifier :=
  { n with sent := n.sent ++ [(i, cmd)] }

/-- `SendCommand`. -/
def sendCommand (n : Notifier) (x : Nat × Command) : Notifier :=
  let (i, cmd) := x
  if cmd.set then (n.etcdVrfDeleteCacheRegister cmd).sendMessage i cmd
  else if etcdVrfCommand cmd then
    let str := " ".intercalate cmd.cmds
    if !n.etcdVrfDeleteCacheCheck str then n
    else { n with vrfIfDeleteCache := n.vrfIfDeleteCache.erase str }.sendMessage i cmd
  else n.sendMessage i cmd

variable (json : Nat → Bool)

/-- The commands that `(*SubPathRemote).Commit` sends for the subscriptions of a subscriber,
those with the numbers in `json` apart: they send the JSON of their paths. -/
def commands (h : Hub) (i : Nat) : List Command :=
  (List.range h.subPaths.length).flatMap fun j => (h.subPaths[j]?.filter fun sp =>
    sp.sub = i && !json j).toList.flatMap fun sp => sp.commands.map (·.command)

/-- The calls of `SendCommand` that a phase makes for a subscriber. -/
def calls (h : Hub) (i : Nat) : List (Nat × Command) :=
  (if h.isRemote i && h.hasCommand i then commands json h i else []).map fun c => (i, c)

/-- `(*Subscriber).Commit`. -/
def subCommit (n : Notifier) (i : Nat) : Notifier :=
  if !n.hub.hasCommand i then n
  else
    let n := (calls json n.hub i).foldl sendCommand n
    { n with hub := n.hub.commandClear i }

/-- A call of `Commit`: the commands of the diff, the calls of `SendCommand` as the goroutines
of the validation make them, how each of them ends, and the order in which the commit
phase ranges over the subscribers. -/
structure CommitCall where
  cmds : List Command
  validation : List (Nat × Command) := []
  outcome : Nat → Outcome := fun _ => .success
  order : List Nat

/-- The commit phase. -/
def commitPhase (n : Notifier) (order : List Nat) : Notifier := order.foldl (subCommit json) n

/-- The calls of the validation: each subscriber's one after the other, with those of others
in between. -/
def interleaved (h : Hub) (validation : List (Nat × Command)) : Bool :=
  validation.all (fun x => x.1 < h.subs.length) &&
    (List.range h.subs.length).all fun i =>
      validation.filter (fun x => x.1 = i) = calls json h i

/-- `Commit`. The diff has the line of a VRF at most once with each sign. -/
def commit (twoPhase : Bool) (n : Notifier) (c : CommitCall) : Option Notifier :=
  if (c.cmds.filter etcdVrfCommand).Nodup ∧ c.order.Perm (List.range n.hub.subs.length) then
    if c.cmds.isEmpty then some n
    else
      let n := { n with
        hub := n.hub.registerAll (newRefs n.next c.cmds) false
        next := n.next + c.cmds.length }
      if twoPhase then
        if interleaved json n.hub c.validation then
          let n := c.validation.foldl sendCommand n
          match n.hub.validate true c.outcome with
          | (false, hub) => some { n with hub }
          | (true, hub) => some (commitPhase json { n with hub } c.order)
        else none
      else some (n.commitPhase json c.order)
  else none

/-- The command that sets or deletes a VRF. -/
def vrfName (set : Bool) (x : String) : Command := { set, cmds := ["vrf", "name", x] }

/-- The last message about a VRF that the subscriber was sent is a SET. -/
def sentSet (sent : List (Nat × Command)) (i : Nat) (x : String) : Bool :=
  ((sent.filter fun m => m.1 = i && m.2.cmds = (vrfName true x).cmds).getLast?.map (·.2.set)).getD false

/-- Every subscriber that was sent a SET of a VRF that the diff deletes is sent one DELETE. -/
def Notified (n n' : Notifier) (c : CommitCall) : Prop :=
  ∀ x, vrfName false x ∈ c.cmds → ∀ i, sentSet n.sent i x = true →
    (n'.sent.drop n.sent.length).count (i, vrfName false x) = 1

/-- The subscriptions whose subscribers are sent a command. -/
def senders (h : Hub) (cmd : Command) : List Nat :=
  (h.targets cmd).2.filter fun j => (h.subPaths[j]?.map fun sp => h.isRemote sp.sub && !json j).getD false

/-- There is no validation, and at most one subscription for each VRF that is deleted. -/
def unshared (twoPhase : Bool) (n : Notifier) (c : CommitCall) : Bool :=
  !twoPhase && c.cmds.all fun cmd => cmd.set || !etcdVrfCommand cmd ||
    (senders json n.hub cmd).length ≤ 1

/-! ## Queues -/

section

variable {json}

theorem countP_append (p : CommandRef → Bool) (path : List String) (c : CommandRef) (sp : SubPath) :
    (sp.append path c).commands.countP p = sp.commands.countP p + if p c then 1 else 0 := by
  have happend (path : String) (m : List (String × List CommandRef)) :
      ((SubPath.appendTo path c m).flatMap (·.2)).countP p =
        (m.flatMap (·.2)).countP p + if p c then 1 else 0 := by
    induction m with
    | nil => simp [SubPath.appendTo, List.countP_cons]
    | cons q m ih =>
      obtain ⟨q, cs⟩ := q
      rw [SubPath.appendTo]
      split
      · simp only [List.flatMap_cons, List.countP_append, List.countP_cons, List.countP_nil]
        omega
      · simp only [List.flatMap_cons, List.countP_append, ih]
        omega
  exact happend _ _

/-- The commands queued on a subscription. -/
def queue (h : Hub) (j : Nat) : List CommandRef := (h.subPaths[j]?.map SubPath.commands).getD []

/-- The two hubs differ in their queues only. -/
structure Alike (h h' : Hub) : Prop where
  root : h'.root = h.root
  subs : h'.subs = h.subs
  sub : h'.subPaths.map (·.sub) = h.subPaths.map (·.sub)

theorem Alike.refl (h : Hub) : Alike h h := ⟨rfl, rfl, rfl⟩

theorem Alike.trans {h h' h'' : Hub} (hh : Alike h h') (hh' : Alike h' h'') : Alike h h'' :=
  ⟨hh'.root.trans hh.root, hh'.subs.trans hh.subs, hh'.sub.trans hh.sub⟩

theorem Alike.targets {h h' : Hub} (hh : Alike h h') (c : Command) : h'.targets c = h.targets c := by
  unfold Hub.targets
  rw [hh.root]

theorem Alike.isRemote {h h' : Hub} (hh : Alike h h') (i : Nat) : h'.isRemote i = h.isRemote i := by
  unfold Hub.isRemote
  rw [hh.subs]

theorem Alike.length {h h' : Hub} (hh : Alike h h') : h'.subPaths.length = h.subPaths.length := by
  simpa using congrArg List.length hh.sub

theorem Alike.owner {h h' : Hub} (hh : Alike h h') (j : Nat) :
    h'.subPaths[j]?.map (·.sub) = h.subPaths[j]?.map (·.sub) := by
  have := congrArg (fun l => l[j]?) hh.sub
  simpa using this

theorem Alike.senders {h h' : Hub} (hh : Alike h h') (c : Command) : senders json h' c = senders json h c := by
  unfold Notifier.senders
  rw [hh.targets]
  refine List.filter_congr fun j _ => ?_
  have hj := hh.owner j
  cases h₁ : h.subPaths[j]? <;> cases h₂ : h'.subPaths[j]? <;> simp_all [hh.isRemote]

theorem getElem?_modifies {f : SubPath → SubPath} (ids : List Nat) (sps : List SubPath) (j : Nat) :
    (ids.foldl (fun sps k => sps.modify k f) sps)[j]? = sps[j]?.map f^[ids.count j] := by
  induction ids generalizing sps with
  | nil => simp
  | cons k ids ih =>
    rw [List.foldl_cons, ih, List.getElem?_modify]
    by_cases hk : k = j
    · subst hk
      cases sps[k]? <;> simp
    · cases sps[j]? <;> simp [hk]

/-- What registering a command leaves on a subscription. -/
theorem countP_pathRegisterCommand (p : CommandRef → Bool) (h : Hub) (c : CommandRef) {j : Nat}
    (hj : j < h.subPaths.length) :
    (queue (h.pathRegisterCommand c false) j).countP p =
      (queue h j).countP p + if p c then (h.targets c.command).2.count j else 0 := by
  have hiter (path : List String) (k : Nat) (sp : SubPath) :
      ((SubPath.append path c)^[k] sp).commands.countP p = sp.commands.countP p + if p c then k else 0 := by
    induction k generalizing sp with
    | zero => simp
    | succ k ih =>
      rw [Function.iterate_succ_apply, ih, countP_append]
      split <;> omega
  unfold queue Hub.pathRegisterCommand
  simp only [Bool.not_false, Bool.true_or, if_true]
  rw [getElem?_modifies, List.getElem?_eq_getElem hj]
  simp only [Option.map_some, Option.getD_some, hiter]

theorem alike_pathRegisterCommand (h : Hub) (c : CommandRef) : Alike h (h.pathRegisterCommand c false) := by
  refine ⟨rfl, rfl, List.ext_getElem? fun j => ?_⟩
  unfold Hub.pathRegisterCommand
  simp only [Bool.not_false, Bool.true_or, if_true, List.getElem?_map]
  rw [getElem?_modifies]
  have hiter (path : List String) (k : Nat) (sp : SubPath) : ((SubPath.append path c)^[k] sp).sub = sp.sub := by
    induction k generalizing sp with
    | zero => rfl
    | succ k ih => rw [Function.iterate_succ_apply, ih, SubPath.append]
  cases h.subPaths[j]? <;> simp [hiter]

theorem alike_registerAll (cs : List CommandRef) (h : Hub) : Alike h (h.registerAll cs false) := by
  unfold Hub.registerAll
  induction cs generalizing h with
  | nil => exact .refl h
  | cons c cs ih => exact (alike_pathRegisterCommand h c).trans (ih _)

theorem countP_registerAll (p : CommandRef → Bool) (cs : List CommandRef) (h : Hub) {j : Nat}
    (hj : j < h.subPaths.length) : (queue (h.registerAll cs false) j).countP p =
      (queue h j).countP p +
        (cs.map fun c => if p c then (h.targets c.command).2.count j else 0).sum := by
  induction cs generalizing h with
  | nil => rfl
  | cons c cs ih =>
    have hone := alike_pathRegisterCommand h c
    have hlt : j < (h.pathRegisterCommand c false).subPaths.length := by rwa [hone.length]
    have h' := ih (h.pathRegisterCommand c false) hlt
    simp only [hone.targets] at h'
    rw [Hub.registerAll, List.foldl_cons]
    rw [Hub.registerAll] at h'
    rw [h', countP_pathRegisterCommand p h c hj, List.map_cons, List.sum_cons]
    omega

/-! ## The commit phase -/

/-- Nothing is queued, and every subscription has its subscriber. -/
def Idle (h : Hub) : Prop := ∀ sp ∈ h.subPaths, sp.commands = [] ∧ sp.sub < h.subs.length

/-- The queues after `(*Subscriber).Commit`. -/
def cleared (h : Hub) (i : Nat) : Hub := if h.hasCommand i then h.commandClear i else h

/-- `SendCommand` neither reads nor changes the queues. -/
theorem sendCommand_frame (n : Notifier) (hub : Hub) (next : Nat) (x : Nat × Command) :
    { n with hub, next }.sendCommand x = { n.sendCommand x with hub, next } := by
  unfold sendCommand etcdVrfDeleteCacheRegister sendMessage etcdVrfDeleteCacheCheck
  grind

theorem sendCommands_frame (L : List (Nat × Command)) (n : Notifier) (hub : Hub) (next : Nat) :
    L.foldl sendCommand { n with hub, next } = { L.foldl sendCommand n with hub, next } := by
  induction L generalizing n with
  | nil => rfl
  | cons x L ih => rw [List.foldl_cons, sendCommand_frame, ih, List.foldl_cons]

theorem sendCommands_same (L : List (Nat × Command)) (n : Notifier) :
    (L.foldl sendCommand n).hub = n.hub ∧ (L.foldl sendCommand n).next = n.next := by
  have h := sendCommands_frame L n n.hub n.next
  have hhub := congrArg Notifier.hub h
  have hnext := congrArg Notifier.next h
  exact ⟨by simpa using hhub, by simpa using hnext⟩

theorem sendCommands_hub (L : List (Nat × Command)) (n : Notifier) (hub : Hub) :
    L.foldl sendCommand { n with hub } = { L.foldl sendCommand n with hub } := by
  have h := sendCommands_frame L n hub n.next
  simp only [(sendCommands_same L n).2]
  exact h

theorem subCommit_eq (n : Notifier) (i : Nat) : n.subCommit json i =
    { (calls json n.hub i).foldl sendCommand n with hub := cleared n.hub i } := by
  have hhub := (sendCommands_same (calls json n.hub i) n).1
  unfold subCommit cleared
  cases hc : n.hub.hasCommand i with
  | false => simp [calls, hc]
  | true => simp only [Bool.not_true, Bool.false_eq_true, if_false, if_true, hhub]

theorem getElem?_cleared (h : Hub) (i j : Nat) : (cleared h i).subPaths[j]? = h.subPaths[j]?.map fun sp =>
    if h.hasCommand i && sp.sub = i then sp.commandClear else sp := by
  unfold cleared Hub.commandClear
  cases h.hasCommand i <;> simp

theorem alike_cleared (h : Hub) (i : Nat) : Alike h (cleared h i) := by
  refine ⟨?_, ?_, List.ext_getElem? fun j => ?_⟩
  · unfold cleared
    split <;> rfl
  · unfold cleared
    split <;> rfl
  · rw [List.getElem?_map, List.getElem?_map, getElem?_cleared, Option.map_map]
    congr 1
    funext sp
    simp only [Function.comp_apply]
    split <;> rfl

theorem pending_cleared (h : Hub) {i k : Nat} (hk : k ≠ i) : (cleared h i).pending k = h.pending k := by
  have hmap (sps : List SubPath) : (sps.map fun sp => if sp.sub = i then sp.commandClear else sp).filter
      (fun sp => sp.sub = k) = sps.filter fun sp => sp.sub = k := by
    induction sps with
    | nil => rfl
    | cons sp sps ih =>
      rw [List.map_cons, List.filter_cons, List.filter_cons, ih]
      by_cases hi : sp.sub = i
      · simp [hi, SubPath.commandClear, Ne.symm hk]
      · simp [hi]
  unfold cleared
  split
  · exact hmap h.subPaths
  · rfl

theorem calls_cleared (h : Hub) {i k : Nat} (hk : k ≠ i) : calls json (cleared h i) k = calls json h k := by
  have hcommand : (cleared h i).hasCommand k = h.hasCommand k := by
    unfold Hub.hasCommand
    rw [pending_cleared h hk]
  have hcommands : commands json (cleared h i) k = commands json h k := by
    unfold commands
    rw [(alike_cleared h i).length]
    refine List.flatMap_congr fun j _ => ?_
    rw [getElem?_cleared]
    cases h.subPaths[j]? with
    | none => rfl
    | some sp =>
      simp only [Option.map_some]
      split
      · next hc =>
        have hsub : sp.sub = i := by simpa using (Bool.and_eq_true_iff.mp hc).2
        simp [Option.filter, SubPath.commandClear, hsub, Ne.symm hk]
      · rfl
  unfold calls
  rw [(alike_cleared h i).isRemote, hcommand, hcommands]

/-- The commit phase as its calls of `SendCommand`. -/
theorem commitPhase_eq {order : List Nat} (hn : order.Nodup) (n : Notifier) : n.commitPhase json order =
    { (order.flatMap (calls json n.hub)).foldl sendCommand n with hub := order.foldl cleared n.hub } := by
  unfold commitPhase
  induction order generalizing n with
  | nil => rfl
  | cons i order ih =>
    have hn := List.nodup_cons.mp hn
    have hcalls : order.flatMap (calls json (cleared n.hub i)) = order.flatMap (calls json n.hub) := by
      refine List.flatMap_congr fun k hk => calls_cleared n.hub ?_
      rintro rfl
      exact hn.1 hk
    rw [List.foldl_cons, ih hn.2, subCommit_eq]
    simp only [hcalls, List.flatMap_cons, List.foldl_append, List.foldl_cons, sendCommands_hub]

theorem alike_clearedAll (order : List Nat) (h : Hub) : Alike h (order.foldl cleared h) := by
  induction order generalizing h with
  | nil => exact .refl h
  | cons i order ih => exact (alike_cleared h i).trans (ih _)

/-- The commit phase leaves nothing queued. -/
theorem idle_clearedAll {order : List Nat} {h : Hub} (hsub : ∀ sp ∈ h.subPaths, sp.sub < h.subs.length)
    (hin : ∀ sp ∈ h.subPaths, sp.sub ∈ order ∨ sp.commands = []) : Idle (order.foldl cleared h) := by
  induction order generalizing h with
  | nil =>
    refine fun sp hsp => ⟨?_, hsub sp hsp⟩
    simpa using hin sp hsp
  | cons i order ih =>
    have hmem (sp' : SubPath) (hsp' : sp' ∈ (cleared h i).subPaths) : ∃ sp ∈ h.subPaths, sp'.sub = sp.sub ∧
        (sp.commands = [] → sp'.commands = []) ∧ (sp.sub = i → sp'.commands = []) := by
      obtain ⟨j, hj⟩ := List.mem_iff_getElem?.mp hsp'
      rw [getElem?_cleared] at hj
      obtain ⟨sp, hsp, rfl⟩ := Option.map_eq_some_iff.mp hj
      refine ⟨sp, List.mem_of_getElem? hsp, ?_, fun hnil => ?_, fun hi => ?_⟩
      · split <;> rfl
      · split
        · rfl
        · exact hnil
      · split
        · rfl
        · next hc =>
          -- Without a command for the subscriber there is none on its subscriptions.
          have hno : h.hasCommand i = false := by simpa [hi] using hc
          have hlen : sp.len = 0 := by
            have hsum : ((h.pending i).map SubPath.len).sum = 0 := by simpa [Hub.hasCommand] using hno
            have hpend : sp ∈ h.pending i :=
              List.mem_filter.mpr ⟨List.mem_of_getElem? hsp, by simpa using hi⟩
            exact List.sum_eq_zero_iff.mp hsum _ (List.mem_map_of_mem hpend)
          rw [SubPath.commands, List.flatMap_eq_nil_iff]
          intro q hq
          exact List.length_eq_zero_iff.mp
            (List.sum_eq_zero_iff.mp hlen _ (List.mem_map_of_mem (f := fun p => p.2.length) hq))
    refine ih (fun sp' hsp' => ?_) fun sp' hsp' => ?_
    · obtain ⟨sp, hsp, hs, -⟩ := hmem sp' hsp'
      rw [hs, (alike_cleared h i).subs]
      exact hsub sp hsp
    · obtain ⟨sp, hsp, hs, hnil, hi⟩ := hmem sp' hsp'
      rw [hs]
      rcases hin sp hsp with h | h
      · rcases List.mem_cons.mp h with h | h
        · exact .inr (hi h)
        · exact .inl h
      · exact .inr (hnil h)

/-! ## What is sent -/

/-- There is a note for the VRF. -/
def cached (n : Notifier) (x : String) : Bool := n.etcdVrfDeleteCacheCheck ("vrf name " ++ x)

theorem etcdVrfCommand_iff (c : Command) : etcdVrfCommand c = true ↔ ∃ x, c = vrfName c.set x := by
  obtain ⟨set, cmds⟩ := c
  unfold etcdVrfCommand vrfName
  simp only [Bool.and_eq_true, decide_eq_true_eq, Command.mk.injEq, true_and]
  constructor
  · rintro ⟨⟨hlen, h0⟩, h1⟩
    obtain ⟨a, b, x, rfl⟩ := List.length_eq_three.mp hlen
    refine ⟨x, ?_⟩
    rw [List.getElem?_cons_zero, Option.some_inj] at h0
    rw [List.getElem?_cons_succ, List.getElem?_cons_zero, Option.some_inj] at h1
    rw [h0, h1]
  · rintro ⟨x, rfl⟩
    simp

theorem intercalate_vrfName (set : Bool) (x : String) :
    " ".intercalate (vrfName set x).cmds = "vrf name " ++ x := by
  unfold vrfName
  rw [String.intercalate_cons_cons, String.intercalate_cons_cons, String.intercalate_singleton,
    ← String.append_assoc]
  rfl

theorem etcdVrfCommand_vrfName (set : Bool) (x : String) : etcdVrfCommand (vrfName set x) = true :=
  (etcdVrfCommand_iff _).mpr ⟨x, rfl⟩

theorem sendCommand_set (n : Notifier) (i : Nat) (x : String) : n.sendCommand (i, vrfName true x) =
    { n with
      vrfIfDeleteCache := n.vrfIfDeleteCache.insert ("vrf name " ++ x) true
      sent := n.sent ++ [(i, vrfName true x)] } := by
  unfold sendCommand etcdVrfDeleteCacheRegister sendMessage
  simp only [etcdVrfCommand_vrfName, intercalate_vrfName, if_true]
  rw [show (vrfName true x).set = true from rfl, if_pos rfl]

theorem sendCommand_delete (n : Notifier) (i : Nat) (x : String) : n.sendCommand (i, vrfName false x) =
    if n.cached x then
      { n with
        vrfIfDeleteCache := n.vrfIfDeleteCache.erase ("vrf name " ++ x)
        sent := n.sent ++ [(i, vrfName false x)] }
    else n := by
  unfold sendCommand sendMessage cached
  simp only [etcdVrfCommand_vrfName, intercalate_vrfName, if_true]
  rw [show (vrfName false x).set = false from rfl]
  cases n.etcdVrfDeleteCacheCheck ("vrf name " ++ x) <;> rfl

theorem sendCommand_other (n : Notifier) (i : Nat) {c : Command} (h : etcdVrfCommand c = false) :
    n.sendCommand (i, c) = n.sendMessage i c := by
  unfold sendCommand etcdVrfDeleteCacheRegister
  simp only [h, Bool.false_eq_true, if_false]
  split <;> rfl

/-- A command is one of a VRF, or none. -/
theorem vrf_cases (c : Command) :
    (∃ y, c = vrfName true y) ∨ (∃ y, c = vrfName false y) ∨ etcdVrfCommand c = false := by
  cases hvrf : etcdVrfCommand c with
  | false => exact .inr (.inr rfl)
  | true =>
    obtain ⟨y, hy⟩ := (etcdVrfCommand_iff c).mp hvrf
    cases hset : c.set with
    | true => exact .inl ⟨y, hset ▸ hy⟩
    | false => exact .inr (.inl ⟨y, hset ▸ hy⟩)

theorem vrfName_inj {set set' : Bool} {x y : String} : vrfName set x = vrfName set' y ↔ set = set' ∧ x = y := by
  simp [vrfName]

/-- The notes after `SendCommand`. -/
theorem cached_sendCommand (n : Notifier) (i : Nat) (c : Command) (x : String) :
    (n.sendCommand (i, c)).cached x =
      if c = vrfName true x then true else if c = vrfName false x then false else n.cached x := by
  have hkey {y : String} (hy : y ≠ x) : "vrf name " ++ x ≠ "vrf name " ++ y :=
    fun h => hy ((String.append_right_inj "vrf name ").mp h).symm
  rcases vrf_cases c with ⟨y, rfl⟩ | ⟨y, rfl⟩ | hc
  · rw [sendCommand_set]
    by_cases hy : y = x
    · subst hy
      simp [cached, etcdVrfDeleteCacheCheck, GoMap.at?]
    · simp [cached, etcdVrfDeleteCacheCheck, GoMap.at?, vrfName_inj, hy, AList.lookup_insert_ne (hkey hy)]
  · rw [sendCommand_delete]
    by_cases hy : y = x
    · subst hy
      cases hn : n.cached y with
      | true => simp [cached, etcdVrfDeleteCacheCheck, GoMap.at?, vrfName_inj]
      | false => simpa [vrfName_inj] using hn
    · cases n.cached y with
      | true =>
        simp [cached, etcdVrfDeleteCacheCheck, GoMap.at?, vrfName_inj, hy, AList.lookup_erase_ne (hkey hy)]
      | false => simp [vrfName_inj, hy]
  · rw [sendCommand_other n i hc]
    have hne (set : Bool) : c ≠ vrfName set x := by
      rintro rfl
      rw [etcdVrfCommand_vrfName] at hc
      cases hc
    rw [if_neg (hne true), if_neg (hne false)]
    rfl

/-- The messages of `SendCommand`. -/
theorem sent_sendCommand (n : Notifier) (i : Nat) (c : Command) :
    (n.sendCommand (i, c)).sent = n.sent ++ [(i, c)] ∨
      n.sendCommand (i, c) = n ∧ ∃ y, c = vrfName false y ∧ n.cached y = false := by
  rcases vrf_cases c with ⟨y, rfl⟩ | ⟨y, rfl⟩ | hc
  · rw [sendCommand_set]
    exact .inl rfl
  · rw [sendCommand_delete]
    cases hn : n.cached y with
    | true => exact .inl rfl
    | false => exact .inr ⟨rfl, y, rfl, hn⟩
  · rw [sendCommand_other n i hc]
    exact .inl rfl

/-- Only what is sent gets to the subscribers. -/
theorem sublist_sendCommands (L : List (Nat × Command)) (n : Notifier) :
    ∃ l, (L.foldl sendCommand n).sent = n.sent ++ l ∧ l.Sublist L := by
  induction L generalizing n with
  | nil => exact ⟨[], by simp, .slnil⟩
  | cons m L ih =>
    obtain ⟨i, c⟩ := m
    obtain ⟨l, hl, hsub⟩ := ih (n.sendCommand (i, c))
    rw [List.foldl_cons, hl]
    rcases sent_sendCommand n i c with hs | ⟨hs, -⟩
    · exact ⟨(i, c) :: l, by simp [hs], hsub.cons_cons _⟩
    · exact ⟨l, by rw [hs], hsub.cons _⟩

/-- A DELETE that is sent once gets through where there is a note. -/
theorem count_sendCommands {x : String} (i : Nat) (L : List (Nat × Command)) {n : Notifier}
    (hc : n.cached x = true) (hone : L.countP (fun m => m.2 = vrfName false x) ≤ 1) :
    ∃ l, (L.foldl sendCommand n).sent = n.sent ++ l ∧
      l.count (i, vrfName false x) = L.count (i, vrfName false x) := by
  induction L generalizing n with
  | nil => exact ⟨[], by simp, rfl⟩
  | cons m L ih =>
    obtain ⟨k, c⟩ := m
    rw [List.foldl_cons]
    rw [List.countP_cons] at hone
    by_cases hdel : c = vrfName false x
    · -- The rest has no other.
      have hrest : L.countP (fun m => m.2 = vrfName false x) = 0 := by
        simp only [hdel, decide_true, if_true] at hone
        omega
      obtain ⟨l, hl, hsub⟩ := sublist_sendCommands L (n.sendCommand (k, c))
      have hsent : (n.sendCommand (k, c)).sent = n.sent ++ [(k, c)] := by
        rw [hdel, sendCommand_delete, if_pos hc]
      have hnone (l : List (Nat × Command)) (h : l.countP (fun m => m.2 = vrfName false x) = 0) :
          l.count (i, vrfName false x) = 0 := by
        refine List.count_eq_zero.mpr fun hmem => ?_
        have := List.countP_eq_zero.mp h _ hmem
        simp at this
      have hl0 : l.countP (fun m => m.2 = vrfName false x) = 0 :=
        Nat.le_zero.mp (hrest ▸ hsub.countP_le)
      refine ⟨(k, c) :: l, by rw [hl, hsent]; simp, ?_⟩
      rw [List.count_cons, List.count_cons, hnone L hrest, hnone l hl0]
    · have hc' : (n.sendCommand (k, c)).cached x = true := by
        rw [cached_sendCommand, if_neg hdel, hc]
        split <;> rfl
      obtain ⟨l, hl, hcount⟩ := ih hc' (by omega)
      rw [hl]
      have hcons (l : List (Nat × Command)) :
          ((k, c) :: l).count (i, vrfName false x) = l.count (i, vrfName false x) := by
        rw [List.count_cons, if_neg (by simp [hdel]), Nat.add_zero]
      rw [hcons]
      rcases sent_sendCommand n k c with hs | ⟨hs, -⟩
      · exact ⟨(k, c) :: l, by simp [hs], by rw [hcons, hcount]⟩
      · exact ⟨l, by rw [hs], hcount⟩

/-! ## Notes and messages -/

theorem sentSet_snoc (sent : List (Nat × Command)) (k : Nat) (c : Command) (i : Nat) (x : String) :
    sentSet (sent ++ [(k, c)]) i x =
      if k = i ∧ c.cmds = (vrfName true x).cmds then c.set else sentSet sent i x := by
  unfold sentSet
  rw [List.filter_append, List.filter_singleton]
  by_cases h : k = i ∧ c.cmds = (vrfName true x).cmds
  · simp [h]
  · have hf : (decide (k = i) && decide (c.cmds = (vrfName true x).cmds)) = false := by simpa using h
    simp only [if_neg h, hf, cond_false, List.append_nil]

/-- A subscriber that was last sent a SET of the VRF has its note. -/
def Noted (n : Notifier) (x : String) : Prop := ∀ i, sentSet n.sent i x = true → n.cached x = true

/-- The messages about a VRF are all for one subscriber. -/
def Sole (l : List (Nat × Command)) (x : String) (i : Nat) : Prop :=
  ∀ m ∈ l, m.2.cmds = (vrfName true x).cmds → m.1 = i

theorem Sole.sentSet {l : List (Nat × Command)} {x : String} {i k : Nat} (h : Sole l x i) (hk : k ≠ i) :
    Notifier.sentSet l k x = false := by
  have hnil : l.filter (fun m => m.1 = k && m.2.cmds = (vrfName true x).cmds) = [] := by
    rw [List.filter_eq_nil_iff]
    intro m hm hc
    simp only [Bool.and_eq_true, decide_eq_true_eq] at hc
    exact hk (hc.1 ▸ h m hm hc.2)
  unfold Notifier.sentSet
  rw [hnil]
  rfl

/-- What is not a DELETE of the VRF leaves its note. -/
theorem Noted.send {n : Notifier} {x : String} (h : n.Noted x) (k : Nat) {c : Command}
    (hc : c ≠ vrfName false x) : (n.sendCommand (k, c)).Noted x := by
  intro i hi
  rw [cached_sendCommand, if_neg hc]
  split
  · rfl
  · next hset =>
    refine h i ?_
    rcases sent_sendCommand n k c with hs | ⟨hs, -⟩
    · rw [hs, sentSet_snoc, if_neg] at hi
      · exact hi
      · rintro ⟨-, hcmds⟩
        obtain ⟨set, cmds⟩ := c
        cases set
        · exact hc (congrArg (Command.mk false) hcmds)
        · exact hset (congrArg (Command.mk true) hcmds)
    · rwa [hs] at hi

/-- A DELETE to the only subscriber takes the note of what it was sent. -/
theorem Noted.delete {n : Notifier} {x : String} {k : Nat} (h : n.Noted x) (hsole : Sole n.sent x k) :
    (n.sendCommand (k, vrfName false x)).Noted x := by
  intro i hi
  exfalso
  rw [sendCommand_delete] at hi
  cases hc : n.cached x with
  | true =>
    rw [hc, if_pos rfl] at hi
    rw [sentSet_snoc] at hi
    by_cases hik : k = i
    · rw [if_pos ⟨hik, rfl⟩] at hi
      cases hi
    · rw [if_neg (by simp [hik]), hsole.sentSet (Ne.symm hik)] at hi
      cases hi
  | false =>
    rw [hc, if_neg (by simp)] at hi
    rw [h i hi] at hc
    cases hc

/-- The notes after some commands, where those that are deleted are for one subscriber. -/
theorem Noted.sends {x : String} (L : List (Nat × Command)) {n : Notifier} (h : n.Noted x)
    (hsole : (∃ k, (k, vrfName false x) ∈ L) → ∃ i, Sole (n.sent ++ L) x i) :
    (L.foldl sendCommand n).Noted x := by
  induction L generalizing n with
  | nil => exact h
  | cons m L ih =>
    obtain ⟨k, c⟩ := m
    rw [List.foldl_cons]
    refine ih ?_ ?_
    · by_cases hc : c = vrfName false x
      · subst hc
        obtain ⟨i, hi⟩ := hsole ⟨k, List.mem_cons_self⟩
        have hk : k = i := hi (k, vrfName false x) (by simp) rfl
        refine h.delete fun m hm hcmds => ?_
        rw [hk]
        exact hi m (List.mem_append_left _ hm) hcmds
      · exact h.send k hc
    · rintro ⟨k', hk'⟩
      obtain ⟨i, hi⟩ := hsole ⟨k', List.mem_cons_of_mem _ hk'⟩
      refine ⟨i, fun m hm => hi m ?_⟩
      have hsub : ((n.sendCommand (k, c)).sent ++ L).Sublist (n.sent ++ (k, c) :: L) := by
        rcases sent_sendCommand n k c with hs | ⟨hs, -⟩
        · rw [hs, List.append_assoc, List.singleton_append]
        · rw [hs]
          exact (List.Sublist.refl _).append (List.sublist_cons_self _ _)
      exact hsub.subset hm

/-! ## What is queued -/

theorem command_mem_newRefs {next : Nat} {cmds : List Command} {r : CommandRef}
    (h : r ∈ newRefs next cmds) : r.command ∈ cmds := by
  obtain ⟨k, hk, rfl⟩ := List.mem_mapIdx.mp h
  exact List.getElem_mem hk

theorem sum_newRefs (f : Command → Nat) (next : Nat) (cmds : List Command) :
    ((newRefs next cmds).map fun r => f r.command).sum = (cmds.map f).sum := by
  congr 1
  refine List.ext_getElem (by simp [newRefs]) fun k h₁ h₂ => ?_
  simp [newRefs]

theorem Idle.queue {h : Hub} (hidle : Idle h) (j : Nat) : Notifier.queue h j = [] := by
  unfold Notifier.queue
  cases hj : h.subPaths[j]? with
  | none => rfl
  | some sp => exact (hidle sp (List.mem_of_getElem? hj)).1

/-- The queues of an idle hub after some commands are registered. -/
theorem Idle.countP_queue {h : Hub} (hidle : Idle h) (p : CommandRef → Bool) (cs : List CommandRef) {j : Nat}
    (hj : j < h.subPaths.length) : (Notifier.queue (h.registerAll cs false) j).countP p =
      (cs.map fun c => if p c then (h.targets c.command).2.count j else 0).sum := by
  rw [countP_registerAll p cs h hj, hidle.queue, List.countP_nil, Nat.zero_add]

theorem Idle.mem_queue {h : Hub} (hidle : Idle h) {cs : List CommandRef} {j : Nat} {r : CommandRef}
    (hj : j < h.subPaths.length) (hr : r ∈ Notifier.queue (h.registerAll cs false) j) :
    r ∈ cs ∧ j ∈ (h.targets r.command).2 := by
  have hpos := List.countP_pos_iff.mpr ⟨r, hr, beq_self_eq_true r⟩
  rw [hidle.countP_queue _ _ hj] at hpos
  by_contra hno
  have hzero : ∀ c ∈ cs, (if r == c then (h.targets c.command).2.count j else 0) = 0 := by
    intro c hc
    split
    · next he =>
      obtain rfl := eq_of_beq he
      exact List.count_eq_zero.mpr fun hmem => hno ⟨hc, hmem⟩
    · rfl
  rw [List.map_congr_left hzero] at hpos
  simp at hpos

/-- The commands that a subscriber is sent, by its subscriptions. -/
theorem mem_commands {h : Hub} {i : Nat} {c : Command} : c ∈ commands json h i ↔
    ∃ j sp, h.subPaths[j]? = some sp ∧ sp.sub = i ∧ json j = false ∧ c ∈ sp.commands.map (·.command) := by
  unfold commands
  constructor
  · intro hc
    obtain ⟨j, -, hc⟩ := List.mem_flatMap.mp hc
    obtain ⟨sp, hsp, hc⟩ := List.mem_flatMap.mp hc
    rw [Option.mem_toList, Option.filter_eq_some_iff] at hsp
    obtain ⟨hj, hown⟩ := hsp
    simp only [Bool.and_eq_true, decide_eq_true_eq, Bool.not_eq_true'] at hown
    exact ⟨j, sp, hj, hown.1, hown.2, hc⟩
  · rintro ⟨j, sp, hj, hsub, hjson, hc⟩
    refine List.mem_flatMap.mpr ⟨j, ?_, List.mem_flatMap.mpr ⟨sp, ?_, hc⟩⟩
    · exact List.mem_range.mpr (List.getElem?_eq_some_iff.mp hj).1
    · rw [Option.mem_toList, Option.filter_eq_some_iff]
      simp [hj, hsub, hjson]

/-- What is registered for the subscriptions of an idle hub. -/
theorem Idle.mem_calls {h : Hub} (hidle : Idle h) {next : Nat} {cmds : List Command} {i : Nat}
    {m : Nat × Command} (hm : m ∈ calls json (h.registerAll (newRefs next cmds) false) i) :
    m.1 = i ∧ m.2 ∈ cmds ∧ ∃ j ∈ senders json h m.2, h.subPaths[j]?.map (·.sub) = some i := by
  have halike := alike_registerAll (newRefs next cmds) h
  obtain ⟨c, hc, rfl⟩ := List.mem_map.mp hm
  split at hc
  · next hremote =>
    rw [Bool.and_eq_true, halike.isRemote] at hremote
    obtain ⟨j, sp, hj, hsub, hjson, hc⟩ := mem_commands.mp hc
    obtain ⟨r, hr, rfl⟩ := List.mem_map.mp hc
    have hlt : j < h.subPaths.length := by
      rw [← halike.length]
      exact (List.getElem?_eq_some_iff.mp hj).1
    have hqueue : r ∈ Notifier.queue (h.registerAll (newRefs next cmds) false) j := by
      rw [Notifier.queue, hj]
      exact hr
    obtain ⟨hmem, htarget⟩ := hidle.mem_queue hlt hqueue
    have hown : h.subPaths[j]?.map (·.sub) = some i := by
      rw [← halike.owner, hj, Option.map_some, hsub]
    refine ⟨rfl, command_mem_newRefs hmem, j, List.mem_filter.mpr ⟨htarget, ?_⟩, hown⟩
    obtain ⟨sp', hsp', hsub'⟩ := Option.map_eq_some_iff.mp hown
    simp [hsp', hsub', hremote.1, hjson]
  · cases hc

theorem hasCommand_of_mem {h : Hub} {i : Nat} {c : Command} (hc : c ∈ commands json h i) :
    h.hasCommand i = true := by
  obtain ⟨j, sp, hj, hsub, -, hc⟩ := mem_commands.mp hc
  have hlen : sp.len = sp.commands.length := by
    rw [SubPath.len, SubPath.commands, List.length_flatMap]
  have hpos : sp.commands ≠ [] := by
    rintro hnil
    simp [hnil] at hc
  have hmem : sp ∈ h.pending i := List.mem_filter.mpr ⟨List.mem_of_getElem? hj, by simpa using hsub⟩
  unfold Hub.hasCommand
  rw [decide_eq_true_eq]
  intro hzero
  have := List.sum_eq_zero_iff.mp hzero _ (List.mem_map_of_mem hmem)
  rw [hlen, List.length_eq_zero_iff] at this
  exact hpos this

theorem count_subPath (h : Hub) (i k : Nat) (c : Command) :
    ((h.subPaths[k]?.filter fun sp => sp.sub = i && !json k).toList.flatMap
      fun sp => sp.commands.map (·.command)).count c =
    if h.subPaths[k]?.map (·.sub) = some i ∧ json k = false then
      (queue h k).countP (fun r => r.command = c) else 0 := by
  unfold queue
  cases h.subPaths[k]? with
  | none => simp
  | some sp =>
    simp only [Option.map_some, Option.some_inj]
    by_cases hown : sp.sub = i ∧ json k = false
    · rw [if_pos hown]
      simp [Option.filter, hown, List.count_eq_countP, List.countP_map]
      rfl
    · rw [if_neg hown]
      have hf : (decide (sp.sub = i) && !json k) = false := by simpa using hown
      simp [Option.filter, hf]

/-- How often a command is queued on a subscription. -/
theorem Idle.countP_command {h : Hub} (hidle : Idle h) (next : Nat) {cmds : List Command} {c : Command}
    (hc : cmds.count c = 1) {k : Nat} (hk : k < h.subPaths.length) :
    (Notifier.queue (h.registerAll (newRefs next cmds) false) k).countP (fun r => r.command = c) =
      (h.targets c).2.count k := by
  have hsum := sum_newRefs (fun cmd => if cmd = c then (h.targets cmd).2.count k else 0) next cmds
  rw [hidle.countP_queue _ _ hk]
  simp only [decide_eq_true_eq]
  rw [hsum, List.sum_map_eq_nsmul_single c _ fun c' hne _ => if_neg hne, hc, one_nsmul, if_pos rfl]

/-- How often a command is sent to the subscriber of the only subscription for it. -/
theorem Idle.count_calls {h : Hub} (hidle : Idle h) (next : Nat) {cmds : List Command} {c : Command}
    (hc : cmds.count c = 1) {j i : Nat} (hj : senders json h c = [j])
    (hi : h.subPaths[j]?.map (·.sub) = some i) :
    (calls json (h.registerAll (newRefs next cmds) false) i).count (i, c) = 1 := by
  have halike := alike_registerAll (newRefs next cmds) h
  have hsender : j ∈ senders json h c := by rw [hj]; exact List.mem_singleton_self j
  obtain ⟨spj, hspj, hsubj⟩ := Option.map_eq_some_iff.mp hi
  obtain ⟨hremote, hjson⟩ : h.isRemote i = true ∧ json j = false := by
    simpa [hspj, hsubj] using (List.mem_filter.mp hsender).2
  have hlt : j < h.subPaths.length := (List.getElem?_eq_some_iff.mp hspj).1
  have hcount : (h.targets c).2.count j = 1 := by
    have hfilter := congrArg (List.count j) hj
    rw [senders, List.count_filter (by exact (List.mem_filter.mp hsender).2)] at hfilter
    simpa using hfilter
  -- The command is queued once, on this subscription.
  have hcommands : (commands json (h.registerAll (newRefs next cmds) false) i).count c = 1 := by
    unfold commands
    rw [List.count_flatMap, List.sum_map_eq_nsmul_single j, halike.length]
    · rw [List.count_eq_one_of_mem List.nodup_range (List.mem_range.mpr hlt), one_nsmul,
        Function.comp_apply, count_subPath, halike.owner, if_pos ⟨hi, hjson⟩,
        hidle.countP_command next hc hlt, hcount]
    · intro k hk hmem
      rw [halike.length, List.mem_range] at hmem
      rw [Function.comp_apply, count_subPath, halike.owner]
      split
      · next hown =>
        rw [hidle.countP_command next hc hmem, List.count_eq_zero]
        intro htarget
        obtain ⟨sp, hsp, hsub⟩ := Option.map_eq_some_iff.mp hown.1
        have hkj : k ∈ senders json h c :=
          List.mem_filter.mpr ⟨htarget, by simp [hsp, hsub, hremote, hown.2]⟩
        rw [hj] at hkj
        exact hk (List.mem_singleton.mp hkj)
      · rfl
  have hmem : c ∈ commands json (h.registerAll (newRefs next cmds) false) i :=
    List.count_pos_iff.mp (hcommands ▸ Nat.one_pos)
  have hhas := hasCommand_of_mem hmem
  unfold calls
  rw [halike.isRemote, hremote, hhas, Bool.and_self, if_pos rfl,
    List.count_map_of_injective _ _ (fun _ _ h => (Prod.mk.inj h).2), hcommands]

/-! ## Runs -/

/-- What holds between the commits. -/
structure Inv (json : Nat → Bool) (n : Notifier) : Prop where
  idle : Idle n.hub
  noted : ∀ x, n.Noted x
  own : ∀ m ∈ n.sent, ∃ j ∈ senders json n.hub m.2, n.hub.subPaths[j]?.map (·.sub) = some m.1

/-- The calls of `SendCommand` of a commit without validation. -/
def sends (json : Nat → Bool) (n : Notifier) (c : CommitCall) : List (Nat × Command) :=
  c.order.flatMap (calls json (n.hub.registerAll (newRefs n.next c.cmds) false))

/-- A commit without validation. -/
theorem commit_eq {n n' : Notifier} {c : CommitCall} (h : n.commit json false c = some n') :
    (c.cmds.filter etcdVrfCommand).Nodup ∧ c.order.Perm (List.range n.hub.subs.length) ∧
      (c.cmds = [] ∧ n' = n ∨ n' = { (n.sends json c).foldl sendCommand n with
        hub := c.order.foldl cleared (n.hub.registerAll (newRefs n.next c.cmds) false)
        next := n.next + c.cmds.length }) := by
  unfold commit at h
  split at h
  · next hok =>
    refine ⟨hok.1, hok.2, ?_⟩
    split at h
    · next hnil =>
      cases h
      exact .inl ⟨List.isEmpty_iff.mp hnil, rfl⟩
    · have hn : c.order.Nodup := hok.2.nodup_iff.mpr List.nodup_range
      simp only [Bool.false_eq_true, if_false, Option.some_inj] at h
      rw [commitPhase_eq hn, sendCommands_frame] at h
      exact .inr h.symm
  · cases h

/-- A command that is sent has a subscription of its receiver. -/
theorem Idle.mem_sends {n : Notifier} (hidle : Idle n.hub) {c : CommitCall} {m : Nat × Command}
    (hm : m ∈ n.sends json c) : m.2 ∈ c.cmds ∧
      ∃ j ∈ senders json n.hub m.2, n.hub.subPaths[j]?.map (·.sub) = some m.1 := by
  obtain ⟨i, -, hm⟩ := List.mem_flatMap.mp hm
  obtain ⟨rfl, hmem, hj⟩ := hidle.mem_calls hm
  exact ⟨hmem, hj⟩

theorem senders_vrfName (h : Hub) (c : Command) {x : String} (hc : c.cmds = (vrfName true x).cmds) :
    senders json h c = senders json h (vrfName false x) := by
  unfold senders Hub.targets
  rw [hc]
  rfl

/-- A deleted VRF has one subscription, whose subscriber gets all its messages. -/
theorem Inv.sole {n : Notifier} {c : CommitCall} (h : Inv json n)
    (hok : n.unshared json false c = true) {x : String} (hx : vrfName false x ∈ c.cmds) {j i : Nat}
    (hj : j ∈ senders json n.hub (vrfName false x)) (hi : n.hub.subPaths[j]?.map (·.sub) = some i) :
    senders json n.hub (vrfName false x) = [j] ∧ Sole (n.sent ++ n.sends json c) x i := by
  have hle : (senders json n.hub (vrfName false x)).length ≤ 1 := by
    have hall := List.all_eq_true.mp (Bool.and_eq_true_iff.mp hok).2 _ hx
    rw [etcdVrfCommand_vrfName] at hall
    simpa [show (vrfName false x).set = false from rfl] using hall
  have hone : senders json n.hub (vrfName false x) = [j] := by
    have hpos := List.length_pos_of_mem hj
    obtain ⟨k, hk⟩ := List.length_eq_one_iff.mp (by omega : (senders json n.hub (vrfName false x)).length = 1)
    rw [hk] at hj ⊢
    rw [List.mem_singleton.mp hj]
  refine ⟨hone, fun m hm hcmds => ?_⟩
  obtain ⟨k, hk, hown⟩ : ∃ k ∈ senders json n.hub m.2, n.hub.subPaths[k]?.map (·.sub) = some m.1 := by
    rcases List.mem_append.mp hm with hm | hm
    · exact h.own m hm
    · exact (h.idle.mem_sends hm).2
  rw [senders_vrfName n.hub m.2 hcmds, hone, List.mem_singleton] at hk
  rw [hk, hi] at hown
  exact (Option.some_inj.mp hown).symm

/-- Between the commits nothing is queued, the notes are those of what was sent, and what was
sent has its subscriptions. -/
theorem Inv.commit {n n' : Notifier} {c : CommitCall} (h : Inv json n)
    (hok : n.unshared json false c = true) (hc : n.commit json false c = some n') : Inv json n' := by
  obtain ⟨-, hperm, ⟨-, rfl⟩ | rfl⟩ := commit_eq hc
  · exact h
  · have halike : Alike n.hub (c.order.foldl cleared (n.hub.registerAll (newRefs n.next c.cmds) false)) :=
      (alike_registerAll _ _).trans (alike_clearedAll _ _)
    have hreg := alike_registerAll (newRefs n.next c.cmds) n.hub
    have hsub : ∀ sp ∈ (n.hub.registerAll (newRefs n.next c.cmds) false).subPaths,
        sp.sub < n.hub.subs.length := by
      intro sp hsp
      have hmem : sp.sub ∈ n.hub.subPaths.map (·.sub) := hreg.sub ▸ List.mem_map_of_mem hsp
      obtain ⟨sp', hsp', he⟩ := List.mem_map.mp hmem
      exact he ▸ (h.idle sp' hsp').2
    refine ⟨?_, fun x => ?_, fun m hm => ?_⟩
    · refine idle_clearedAll (fun sp hsp => ?_) fun sp hsp => .inl ?_
      · rw [hreg.subs]
        exact hsub sp hsp
      · exact hperm.mem_iff.mpr (List.mem_range.mpr (hsub sp hsp))
    · refine Noted.sends _ (h.noted x) ?_
      rintro ⟨k, hk⟩
      obtain ⟨hmem, j, hj, hown⟩ := h.idle.mem_sends hk
      exact ⟨k, (h.sole hok hmem hj hown).2⟩
    · simp only [halike.senders, halike.owner]
      obtain ⟨l, hl, hlsub⟩ := sublist_sendCommands (n.sends json c) n
      have hm : m ∈ n.sent ++ l := hl ▸ hm
      rcases List.mem_append.mp hm with hm | hm
      · exact h.own m hm
      · exact (h.idle.mem_sends (hlsub.subset hm)).2

/-- A subscriber that was sent a SET has a subscription for the VRF. -/
theorem Inv.sender {n : Notifier} (h : Inv json n) {i : Nat} {x : String}
    (hs : sentSet n.sent i x = true) :
    ∃ j ∈ senders json n.hub (vrfName false x), n.hub.subPaths[j]?.map (·.sub) = some i := by
  unfold sentSet at hs
  cases hlast : (n.sent.filter fun m => m.1 = i && m.2.cmds = (vrfName true x).cmds).getLast? with
  | none =>
    rw [hlast] at hs
    cases hs
  | some m =>
    obtain ⟨hmem, hm⟩ := List.mem_filter.mp (List.mem_of_getLast? hlast)
    simp only [Bool.and_eq_true, decide_eq_true_eq] at hm
    obtain ⟨j, hj, hown⟩ := h.own m hmem
    rw [senders_vrfName n.hub m.2 hm.2] at hj
    exact ⟨j, hj, hm.1 ▸ hown⟩

/-- A commit that deletes a VRF tells the subscriber once. -/
theorem Inv.notified {n n' : Notifier} {c : CommitCall} (h : Inv json n)
    (hok : n.unshared json false c = true) (hc : n.commit json false c = some n') : Notified n n' c := by
  intro x hx i hs
  obtain ⟨hnodup, hperm, ⟨hnil, -⟩ | rfl⟩ := commit_eq hc
  · rw [hnil] at hx
    cases hx
  · obtain ⟨j, hj, hi⟩ := h.sender hs
    obtain ⟨hone, hsole⟩ := h.sole hok hx hj hi
    have hcount : c.cmds.count (vrfName false x) = 1 := by
      have hmem := List.mem_filter.mpr ⟨hx, etcdVrfCommand_vrfName false x⟩
      rw [← List.count_filter (etcdVrfCommand_vrfName false x)]
      exact List.count_eq_one_of_mem hnodup hmem
    have horder : i ∈ c.order := by
      obtain ⟨sp, hsp, rfl⟩ := Option.map_eq_some_iff.mp hi
      exact hperm.mem_iff.mpr (List.mem_range.mpr (h.idle sp (List.mem_of_getElem? hsp)).2)
    have hsent : (n.sends json c).count (i, vrfName false x) = 1 := by
      have hcalls := h.idle.count_calls n.next hcount hone hi
      unfold calls at hcalls
      rw [List.count_map_of_injective _ _ (fun _ _ h => (Prod.mk.inj h).2)] at hcalls
      unfold sends calls
      rw [Keyed.count_flatMap _ (hperm.nodup_iff.mpr List.nodup_range), if_pos horder, hcalls]
    have hle : (n.sends json c).countP (fun m => m.2 = vrfName false x) ≤ 1 := by
      rw [← hsent, List.count_eq_countP]
      refine le_of_eq (List.countP_congr fun m hm => ?_)
      simp only [decide_eq_true_eq, beq_iff_eq]
      refine ⟨fun hm2 => Prod.ext ?_ hm2, fun he => by rw [he]⟩
      exact hsole m (List.mem_append_right _ hm) (by rw [hm2]; rfl)
    obtain ⟨l, hl, hlcount⟩ := count_sendCommands i _ (h.noted x i hs) hle
    rw [← hsent, ← hlcount]
    simp only [hl, List.drop_left]

end

/-- In a run of commits that are all `unshared`, every commit that deletes a VRF sends one
DELETE to each subscriber that was sent a SET of it since its last DELETE. -/
theorem vrf_delete_sent (json : Nat → Bool) (twoPhase : Bool) {first n n' : Notifier} (hidle : Idle first.hub)
    (hfirst : first.sent = []) {cs : List CommitCall} {c : CommitCall}
    (hok : Runs.meets (commit json twoPhase) (unshared json twoPhase) first (cs ++ [c]) = true)
    (hr : Runs.run (commit json twoPhase) first cs = some n) (hc : n.commit json twoPhase c = some n') :
    Notified n n' c := by
  have hinv : Inv json first := by
    refine ⟨hidle, fun x i hi => ?_, fun m hm => ?_⟩
    · rw [hfirst] at hi
      cases hi
    · rw [hfirst] at hm
      cases hm
  have main (cs : List CommitCall) {first : Notifier} (hinv : Inv json first)
      (hok : Runs.meets (commit json twoPhase) (unshared json twoPhase) first (cs ++ [c]) = true)
      (hr : Runs.run (commit json twoPhase) first cs = some n) :
      Inv json n ∧ n.unshared json twoPhase c = true := by
    induction cs generalizing first with
    | nil =>
      cases hr
      exact ⟨hinv, (Bool.and_eq_true_iff.mp hok).1⟩
    | cons c' cs ih =>
      obtain ⟨n₁, hn₁, hr⟩ := Option.bind_eq_some_iff.mp hr
      rw [List.cons_append, Runs.meets, hn₁, Option.all_some, Bool.and_eq_true] at hok
      cases twoPhase with
      | true => cases hok.1
      | false => exact ih (hinv.commit hok.1 hn₁) hok.2 hr
  obtain ⟨hinv, hok⟩ := main cs hinv hok hr
  cases twoPhase with
  | true => cases hok
  | false => exact hinv.notified hok hc

/-- Subscribers to `vrf`. -/
def vrfHub (k : Nat) : Hub :=
  { subs := List.replicate k ⟨true⟩
    subPaths := (List.range k).map fun i => { sub := i }
    root := { map := [("vrf", { subPath := List.range k })] } }

/-- The commit of one command. -/
def oneCommand (cmd : Command) (order : List Nat) : CommitCall := { cmds := [cmd], order }

/-- A VRF is set and deleted. -/
theorem vrf_delete_sent_one : ∃ n n' : Notifier,
    Runs.meets (commit (fun _ => false) false) (unshared (fun _ => false) false) { hub := vrfHub 1 }
      ([oneCommand (vrfName true "red") [0]] ++ [oneCommand (vrfName false "red") [0]]) = true ∧
    Runs.run (commit (fun _ => false) false) { hub := vrfHub 1 }
      [oneCommand (vrfName true "red") [0]] = some n ∧
    n.commit (fun _ => false) false (oneCommand (vrfName false "red") [0]) = some n' ∧
    sentSet n.sent 0 "red" = true ∧ Notified n n' (oneCommand (vrfName false "red") [0]) := by
  have hidle : Idle ({ hub := vrfHub 1 } : Notifier).hub := by
    unfold Idle
    decide
  have hok : Runs.meets (commit (fun _ => false) false) (unshared (fun _ => false) false) { hub := vrfHub 1 }
      ([oneCommand (vrfName true "red") [0]] ++ [oneCommand (vrfName false "red") [0]]) = true := by decide
  exact ⟨_, _, hok, rfl, rfl, by decide, vrf_delete_sent (fun _ => false) false hidle rfl hok rfl rfl⟩

/-- The second of two subscribers is not told that the VRF is deleted. -/
theorem vrf_delete_sent_two : ∃ n n' : Notifier,
    Runs.run (commit (fun _ => false) false) { hub := vrfHub 2 }
      [oneCommand (vrfName true "red") [0, 1]] = some n ∧
    n.commit (fun _ => false) false (oneCommand (vrfName false "red") [0, 1]) = some n' ∧
    sentSet n.sent 1 "red" = true ∧ ¬ Notified n n' (oneCommand (vrfName false "red") [0, 1]) := by
  refine ⟨_, _, rfl, rfl, by decide, fun h => ?_⟩
  have := h "red" (by decide) 1 (by decide)
  revert this
  decide

end Notifier

end OpenConfigd
