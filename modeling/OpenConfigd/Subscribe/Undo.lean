import OpenConfigd.Subscribe.Commit
import OpenConfigd.Go.Ascii

/-!
# What a failed call leaves behind

When validation fails, the queues of the remote subscribers that refused are
cleared, and no others. So a failed call leaves the queues as they were when all
the commands it queued went to subscribers that refused. In a run whose failed
calls are such, the queues are empty between calls, and a command is delivered in
the commit phase of the call that computed it or not at all
(`failed_leaves_nothing`).
-/

namespace OpenConfigd

namespace Hub

/-- The subscriber and the synchronisation of each subscription. -/
def owners (h : Hub) : List (Nat × Bool) := h.subPaths.map fun sp => (sp.sub, sp.sync)

/-- The command is queued for the subscriber. -/
def Queues (h : Hub) (c : Command) (sync : Bool) (i : Nat) : Prop :=
  ∃ j ∈ (h.targets c).2, ∃ b, h.owners[j]? = some (i, b) ∧ (sync = true → b = true)

/-- The commands pending for a subscriber, by path. -/
def queue (h : Hub) (i : Nat) : List (String × List CommandRef) := (h.pending i).flatMap (·.pathToCmd)

/-- Nothing is queued. -/
def Idle (h : Hub) : Prop := ∀ sp ∈ h.subPaths, sp.pathToCmd = []

/-- Every subscription belongs to a subscriber. -/
def Owned (h : Hub) : Prop := ∀ sp ∈ h.subPaths, sp.sub < h.subs.length

variable {h : Hub} {cs : List CommandRef} {sync : Bool} {i : Nat}

theorem Idle.queue (hi : h.Idle) (i : Nat) : h.queue i = [] := by
  refine List.flatMap_eq_nil_iff.mpr fun sp hsp => ?_
  exact hi sp (List.mem_filter.mp hsp).1

/-! ## Queueing -/

theorem modify_owners (sps : List SubPath) (j : Nat) (path : List String) (c : CommandRef) :
    (sps.modify j fun sp => if !sync || sp.sync then sp.append path c else sp).map
      (fun sp => (sp.sub, sp.sync)) = sps.map fun sp => (sp.sub, sp.sync) := by
  induction sps generalizing j with
  | nil => simp
  | cons sp sps ih =>
    cases j with
    | zero =>
      simp only [List.modify_zero_cons, List.map_cons, List.cons.injEq, and_true]
      split <;> rfl
    | succ j => rw [List.modify_succ_cons, List.map_cons, List.map_cons, ih]

theorem pathRegisterCommand_owners (h : Hub) (c : CommandRef) :
    (h.pathRegisterCommand c sync).owners = h.owners := by
  show (List.foldl _ h.subPaths (h.targets c.command).2).map _ = h.subPaths.map _
  generalize (h.targets c.command).2 = ids
  generalize h.subPaths = sps
  induction ids generalizing sps with
  | nil => rfl
  | cons j ids ih => rw [List.foldl_cons, ih, modify_owners]

/-- A property of the subscriptions that queueing one of the commands keeps. -/
theorem pathRegisterCommand_forall {P : SubPath → Prop} {c : CommandRef}
    (h₀ : ∀ sp ∈ h.subPaths, P sp)
    (hs : ∀ sp path, h.Queues c.command sync sp.sub → P sp → P (sp.append path c)) :
    ∀ sp ∈ (h.pathRegisterCommand c sync).subPaths, P sp := by
  obtain ⟨path, hpath⟩ : ∃ path, (h.targets c.command).1 = path := ⟨_, rfl⟩
  -- Each subscription of the target path is visited; the owners stay the same.
  suffices loop : ∀ (ids : List Nat) (sps : List SubPath), (∀ j ∈ ids, j ∈ (h.targets c.command).2) →
      sps.map (fun sp => (sp.sub, sp.sync)) = h.owners → (∀ sp ∈ sps, P sp) →
      ∀ sp ∈ ids.foldl (fun sps j => sps.modify j fun sp =>
        if !sync || sp.sync then sp.append path c else sp) sps, P sp by
    have := loop (h.targets c.command).2 h.subPaths (fun _ hj => hj) rfl h₀
    rwa [← hpath] at this
  intro ids
  induction ids with
  | nil => exact fun sps _ _ hP => hP
  | cons j ids ih =>
    intro sps hj ho hP
    rw [List.foldl_cons]
    refine ih _ (fun k hk => hj k (List.mem_cons_of_mem _ hk)) ?_ fun sp hsp => ?_
    · rw [modify_owners, ho]
    · obtain ⟨k, hk, hget⟩ := List.mem_iff_getElem.mp hsp
      rw [List.length_modify] at hk
      rw [List.getElem_modify] at hget
      split at hget
      · rename_i hjk
        subst hjk
        split at hget
        · rename_i hsync
          rw [← hget]
          refine hs _ path ⟨j, hj j List.mem_cons_self, sps[j].sync, ?_, ?_⟩ (hP _ (List.getElem_mem hk))
          · rw [← ho]
            simp [hk]
          · intro h
            simpa [h] using hsync
        · exact hget ▸ hP _ (List.getElem_mem hk)
      · exact hget ▸ hP _ (List.getElem_mem hk)

theorem registerAll_frame (h : Hub) (cs : List CommandRef) (sync : Bool) :
    (h.registerAll cs sync).subs = h.subs ∧ (h.registerAll cs sync).root = h.root ∧
      (h.registerAll cs sync).owners = h.owners := by
  induction cs generalizing h with
  | nil => exact ⟨rfl, rfl, rfl⟩
  | cons c cs ih =>
    obtain ⟨h₁, h₂, h₃⟩ := ih (h.pathRegisterCommand c sync)
    exact ⟨h₁, h₂, h₃.trans (pathRegisterCommand_owners h c)⟩

theorem Queues.congr {h h' : Hub} (hr : h'.root = h.root) (ho : h'.owners = h.owners)
    {c : Command} : h'.Queues c sync i ↔ h.Queues c sync i := by
  rw [Queues, Queues, targets, targets, hr, ho]

/-- A property of the subscriptions that queueing keeps. -/
theorem registerAll_forall (cs : List CommandRef) (sync : Bool) {P : SubPath → Prop} (h₀ : ∀ sp ∈ h.subPaths, P sp)
    (hs : ∀ sp path, ∀ c ∈ cs, h.Queues c.command sync sp.sub → P sp → P (sp.append path c)) :
    ∀ sp ∈ (h.registerAll cs sync).subPaths, P sp := by
  induction cs generalizing h with
  | nil => exact h₀
  | cons c cs ih =>
    refine ih (pathRegisterCommand_forall h₀ fun sp path hq => hs sp path c List.mem_cons_self hq)
      fun sp path c' hc' hq => hs sp path c' (List.mem_cons_of_mem _ hc') ?_
    exact (@Queues.congr sync sp.sub h (h.pathRegisterCommand c sync) rfl
      (pathRegisterCommand_owners h c) c'.command).mp hq

/-! ## Clearing -/

/-- The queues hold a command for every path they name. -/
def Solid (sp : SubPath) : Prop := ∀ p ∈ sp.pathToCmd, p.2 ≠ []

theorem solid_appendTo {path : String} {c : CommandRef} {m : List (String × List CommandRef)}
    (hm : ∀ p ∈ m, p.2 ≠ []) : ∀ p ∈ SubPath.appendTo path c m, p.2 ≠ [] := by
  induction m with
  | nil =>
    intro p hp
    rw [SubPath.appendTo, List.mem_singleton] at hp
    rw [hp]
    exact List.cons_ne_nil _ _
  | cons q m ih =>
    intro p hp
    rw [SubPath.appendTo] at hp
    split at hp
    · rcases List.mem_cons.mp hp with rfl | hp
      · simp
      · exact hm p (List.mem_cons_of_mem _ hp)
    · rcases List.mem_cons.mp hp with rfl | hp
      · exact hm _ List.mem_cons_self
      · exact ih (fun p hp => hm p (List.mem_cons_of_mem _ hp)) p hp

theorem mem_appendTo {path : String} {c c' : CommandRef} {m : List (String × List CommandRef)}
    (h : c' ∈ (SubPath.appendTo path c m).flatMap (·.2)) : c' = c ∨ c' ∈ m.flatMap (·.2) := by
  induction m with
  | nil => exact .inl (by simpa [SubPath.appendTo] using h)
  | cons q m ih =>
    rw [SubPath.appendTo] at h
    split at h
    · simp only [List.flatMap_cons, List.mem_append, List.mem_singleton] at h ⊢
      tauto
    · simp only [List.flatMap_cons, List.mem_append] at h ⊢
      rcases h with h | h
      · exact .inr (.inl h)
      · exact (ih h).imp_right .inr

/-- A subscriber without commands has empty queues. -/
theorem nil_of_hasCommand (hs : ∀ sp ∈ h.subPaths, Solid sp) (hc : h.hasCommand i = false)
    {sp : SubPath} (hsp : sp ∈ h.subPaths) (hi : sp.sub = i) : sp.pathToCmd = [] := by
  have hmem : sp ∈ h.pending i := List.mem_filter.mpr ⟨hsp, by simpa using hi⟩
  have hzero : ((h.pending i).map SubPath.len).sum = 0 := by simpa [hasCommand] using hc
  have hlen : sp.len = 0 := List.sum_eq_zero_iff_forall_eq_nat.mp hzero _ (List.mem_map_of_mem hmem)
  refine List.eq_nil_iff_forall_not_mem.mpr fun p hp => hs sp hsp p hp ?_
  have := List.sum_eq_zero_iff_forall_eq_nat.mp hlen _ (List.mem_map_of_mem hp)
  exact List.eq_nil_of_length_eq_zero this

theorem mem_commandClear {sp : SubPath} (hsp : sp ∈ (h.commandClear i).subPaths) :
    ∃ sp₀ ∈ h.subPaths, sp.sub = sp₀.sub ∧
      (sp = sp₀ ∧ sp₀.sub ≠ i ∨ sp = sp₀.commandClear ∧ sp₀.sub = i) := by
  obtain ⟨sp₀, h₀, rfl⟩ := List.mem_map.mp hsp
  refine ⟨sp₀, h₀, ?_⟩
  by_cases hi : sp₀.sub = i
  · rw [if_pos hi]
    exact ⟨rfl, .inr ⟨rfl, hi⟩⟩
  · rw [if_neg hi]
    exact ⟨rfl, .inl ⟨rfl, hi⟩⟩

/-- A property of the subscriptions that clearing a queue keeps. -/
theorem commandClear_forall {P : SubPath → Prop} (h₀ : ∀ sp ∈ h.subPaths, P sp)
    (hs : ∀ sp, P sp → P sp.commandClear) : ∀ sp ∈ (h.commandClear i).subPaths, P sp := by
  intro sp hsp
  obtain ⟨sp₀, hm, -, ⟨rfl, -⟩ | ⟨rfl, -⟩⟩ := mem_commandClear hsp
  · exact h₀ _ hm
  · exact hs _ (h₀ _ hm)

theorem Solid.clear (sp : SubPath) (_ : Solid sp) : Solid sp.commandClear := by
  intro p hp
  cases hp

/-- What a loop over the subscribers that clears some of their queues leaves: the
queues of those that `clears` says, given the hub at that point, are empty. -/
structure Clears (h h' : Hub) (cleared : Nat → Prop) : Prop where
  subs : h'.subs = h.subs
  keeps : ∀ P : SubPath → Prop, (∀ sp ∈ h.subPaths, P sp) → (∀ sp, P sp → P sp.commandClear) →
    ∀ sp ∈ h'.subPaths, P sp
  empty : ∀ sp ∈ h'.subPaths, cleared sp.sub → sp.pathToCmd = []

theorem Clears.refl (h : Hub) : h.Clears h fun _ => False :=
  ⟨rfl, fun _ hP _ => hP, fun _ _ hc => hc.elim⟩

/-- A subscriber whose queues are cleared if it has any commands. -/
theorem Clears.step {h h₁ h₂ : Hub} {cleared : Nat → Prop} (hc : h.Clears h₁ cleared)
    (hs : ∀ sp ∈ h.subPaths, Solid sp)
    (hi : h₂ = h₁.commandClear i ∨ h₂ = h₁ ∧ h₁.hasCommand i = false) :
    h.Clears h₂ fun k => cleared k ∨ k = i := by
  have hs₁ := hc.keeps Solid hs Solid.clear
  rcases hi with rfl | ⟨rfl, hcmd⟩
  · refine ⟨hc.subs, fun P h₀ hP => commandClear_forall (hc.keeps P h₀ hP) hP, fun sp hsp hcl => ?_⟩
    obtain ⟨sp₀, hm, hsub, ⟨rfl, hne⟩ | ⟨rfl, -⟩⟩ := mem_commandClear hsp
    · exact hc.empty _ hm (hcl.resolve_right hne)
    · rfl
  · refine ⟨hc.subs, hc.keeps, fun sp hsp hcl => ?_⟩
    rcases hcl with hcl | hcl
    · exact hc.empty sp hsp hcl
    · exact nil_of_hasCommand hs₁ hcmd hsp hcl

theorem Clears.mono {h h' : Hub} {p q : Nat → Prop} (hc : h.Clears h' p) (hpq : ∀ k, q k → p k) :
    h.Clears h' q :=
  ⟨hc.subs, hc.keeps, fun sp hsp hq => hc.empty sp hsp (hpq _ hq)⟩

theorem validateSub_clears {outcome : Nat → Outcome} {count : Nat} {h h₁ : Hub} {p : Nat → Prop}
    (hc : h.Clears h₁ p) (hs : ∀ sp ∈ h.subPaths, Solid sp) (i : Nat) :
    h.Clears (validateSub outcome (count, h₁) i).2 fun k =>
      p k ∨ k = i ∧ h.isRemote i = true ∧ outcome i ≠ .success := by
  have hrem : h₁.isRemote i = h.isRemote i := by rw [isRemote, isRemote, hc.subs]
  by_cases hask : h.isRemote i = true ∧ outcome i ≠ .success
  · -- The subscriber refuses, so its queues are cleared if it was asked.
    have hleft : (validateSub outcome (count, h₁) i).2 = h₁.commandClear i ∨
        (validateSub outcome (count, h₁) i).2 = h₁ ∧ h₁.hasCommand i = false := by
      rw [validateSub, hrem, hask.1]
      cases hcmd : h₁.hasCommand i with
      | false => exact .inr ⟨rfl, rfl⟩
      | true =>
        left
        cases ho : outcome i with
        | success => exact absurd ho hask.2
        | failed => rfl
        | timeout => rfl
    exact (hc.step hs hleft).mono fun k hk => hk.imp_right (·.1)
  · have heq : (validateSub outcome (count, h₁) i).2 = h₁ := by
      rw [validateSub, hrem]
      by_cases hr : h.isRemote i = true
      · have ho : outcome i = .success := by
          by_contra ho
          exact hask ⟨hr, ho⟩
        simp only [ho]
        split <;> rfl
      · simp [hr]
    rw [heq]
    exact hc.mono fun k hk => hk.resolve_right fun hk => hask hk.2

/-- A loop of `Validate` over some of the subscribers. -/
theorem validateLoop_clears {outcome : Nat → Outcome} (is : List Nat) {count : Nat} {h h₁ : Hub}
    {p : Nat → Prop} (hc : h.Clears h₁ p) (hs : ∀ sp ∈ h.subPaths, Solid sp) :
    h.Clears (is.foldl (validateSub outcome) (count, h₁)).2 fun k =>
      p k ∨ k ∈ is ∧ h.isRemote k = true ∧ outcome k ≠ .success := by
  induction is generalizing count h₁ p with
  | nil => exact hc.mono fun k hk => hk.resolve_right fun hk => by cases hk.1
  | cons i is ih =>
    rw [List.foldl_cons]
    refine (ih (@validateSub_clears outcome count _ _ _ hc hs i)).mono ?_
    rintro k (hk | ⟨hm, hk⟩)
    · exact .inl (.inl hk)
    · rcases List.mem_cons.mp hm with rfl | hm
      · exact .inl (.inr ⟨rfl, hk⟩)
      · exact .inr ⟨hm, hk⟩

theorem validate_clears {twoPhase : Bool} {outcome : Nat → Outcome} {h : Hub}
    (hs : ∀ sp ∈ h.subPaths, Solid sp) : h.Clears (h.validate twoPhase outcome).2 fun k =>
      twoPhase = true ∧ k < h.subs.length ∧ h.isRemote k = true ∧ outcome k ≠ .success := by
  rw [validate]
  split
  · exact (validateLoop_clears (List.range h.subs.length) (Clears.refl h) hs).mono fun k hk =>
      .inr ⟨List.mem_range.mpr hk.2.1, hk.2.2⟩
  · rename_i htwo
    exact (Clears.refl h).mono fun k hk => htwo hk.1

/-- A loop of the commit phase over some of the subscribers. -/
theorem commitLoop_clears (is : List Nat) {log : List (Nat × CommandRef)} {h h₁ : Hub}
    {p : Nat → Prop} (hc : h.Clears h₁ p) (hs : ∀ sp ∈ h.subPaths, Solid sp)
    {Q : CommandRef → Prop} (hQ : ∀ sp ∈ h.subPaths, ∀ c ∈ sp.commands, Q c)
    (hlog : ∀ x ∈ log, Q x.2) :
    h.Clears (is.foldl commitSub (log, h₁)).2 (fun k => p k ∨ k ∈ is) ∧
      ∀ x ∈ (is.foldl commitSub (log, h₁)).1, Q x.2 := by
  induction is generalizing log h₁ p with
  | nil => exact ⟨hc.mono fun k hk => hk.resolve_right List.not_mem_nil, hlog⟩
  | cons i is ih =>
    rw [List.foldl_cons, commitSub]
    have mono {h₂ : Hub} (h₂c : h.Clears h₂ fun k => (p k ∨ k = i) ∨ k ∈ is) :
        h.Clears h₂ fun k => p k ∨ k ∈ i :: is :=
      h₂c.mono fun k hk => by rwa [or_assoc, ← List.mem_cons]
    cases hcmd : h₁.hasCommand i with
    | false =>
      obtain ⟨h₁, h₂⟩ := ih (hc.step hs (.inr ⟨rfl, hcmd⟩)) hlog
      exact ⟨mono h₁, h₂⟩
    | true =>
      have hQ₁ := hc.keeps (fun sp => ∀ c ∈ sp.commands, Q c) hQ fun sp _ c hc => by cases hc
      obtain ⟨h₁, h₂⟩ := @ih (log ++ ((h₁.pending i).flatMap SubPath.commands).map (i, ·)) _ _
        (hc.step hs (.inl rfl)) fun x hx => by
        rcases List.mem_append.mp hx with hx | hx
        · exact hlog x hx
        · obtain ⟨c, hm, rfl⟩ := List.mem_map.mp hx
          obtain ⟨sp, hsp, hm⟩ := List.mem_flatMap.mp hm
          exact hQ₁ sp (List.mem_filter.mp hsp).1 c hm
      exact ⟨mono h₁, h₂⟩

end Hub

/-! ## Calls -/

open Hub

theorem mem_newRefs {next : Nat} {cmds : List Command} {c : CommandRef}
    (h : c ∈ newRefs next cmds) :
    c.command ∈ cmds ∧ next ≤ c.id ∧ c.id < next + cmds.length := by
  obtain ⟨k, hk, rfl⟩ := List.mem_mapIdx.mp h
  exact ⟨List.getElem_mem hk, Nat.le_add_right _ _, Nat.add_lt_add_left hk _⟩

/-- Every subscription belongs to a subscriber, and its queue has a command for every
path it names. -/
structure Hub.Kept (h : Hub) : Prop where
  solid : ∀ sp ∈ h.subPaths, Solid sp
  owned : h.Owned

/-- Nothing is queued, and every subscription belongs to a subscriber. -/
structure Hub.Quiet (h : Hub) : Prop where
  idle : h.Idle
  owned : h.Owned

theorem Hub.Quiet.kept {h : Hub} (hq : h.Quiet) : h.Kept := by
  refine ⟨fun sp hsp p hp => ?_, hq.owned⟩
  rw [hq.idle sp hsp] at hp
  cases hp

/-- Every subscriber that gets one of the commands is remote and refuses. -/
def Hub.Refused (h : Hub) (cmds : List Command) (sync : Bool) (outcome : Nat → Outcome) : Prop :=
  ∀ i, (∃ c ∈ cmds, h.Queues c sync i) → h.isRemote i = true ∧ outcome i ≠ .success

namespace Server

variable {env : Env} {ent : Entry} {diff : List Char → List Char → Option (List Char)}
  {twoPhase : Bool}

theorem validate_err {h : Hub} {outcome : Nat → Outcome} (hf : (h.validate twoPhase outcome).1 = false) :
    twoPhase = true := by
  rw [validate] at hf
  split at hf
  · assumption
  · cases hf

/-- A call that does not fail leaves empty queues. -/
theorem deliver_kept {s : Server} {cmds : List Command} {sync : Bool} {outcome : Nat → Outcome}
    (hk : s.hub.Kept) : (s.deliver twoPhase cmds sync outcome).server.hub.Kept ∧
      ((s.deliver twoPhase cmds sync outcome).err = none →
        (s.deliver twoPhase cmds sync outcome).server.hub.Idle) := by
  rw [deliver]
  obtain ⟨hsubs, -, -⟩ := registerAll_frame s.hub (newRefs s.next cmds) sync
  have hsolid := registerAll_forall (newRefs s.next cmds) sync (P := Solid) hk.solid
    fun sp path c _ _ hP => solid_appendTo hP
  have howned := registerAll_forall (newRefs s.next cmds) sync
    (P := fun sp => sp.sub < s.hub.subs.length) hk.owned fun sp path c _ _ hP => hP
  generalize s.hub.registerAll (newRefs s.next cmds) sync = h₁ at *
  have hcl := @validate_clears twoPhase outcome h₁ hsolid
  generalize h₁.validate twoPhase outcome = v at *
  obtain ⟨ok, h₂⟩ := v
  have hs₂ := hcl.keeps _ hsolid Solid.clear
  have ho₂ : h₂.Owned := by
    rw [Owned, hcl.subs, hsubs]
    exact hcl.keeps _ howned fun _ h => h
  cases ok with
  | false => exact ⟨⟨hs₂, ho₂⟩, fun he => by cases he⟩
  | true =>
    obtain ⟨hcl', -⟩ := @commitLoop_clears (List.range h₂.subs.length) [] _ _ _ (Clears.refl h₂) hs₂
      (fun _ => True) (fun _ _ _ _ => trivial) fun _ _ => trivial
    have howned' := hcl'.keeps _ ho₂ fun _ h => h
    refine ⟨⟨hcl'.keeps _ hs₂ Solid.clear, ?_⟩, fun _ sp hsp => ?_⟩
    · rw [Owned]
      show ∀ sp ∈ (h₂.commitAll).2.subPaths, sp.sub < (h₂.commitAll).2.subs.length
      rw [show (h₂.commitAll).2.subs = h₂.subs from hcl'.subs]
      exact howned'
    · exact hcl'.empty sp hsp (.inr (List.mem_range.mpr (howned' sp hsp)))

/-- A call delivers commands of its own, and leaves empty queues unless it fails with
a command queued for a subscriber that did not refuse. -/
theorem deliver_quiet {s : Server} {cmds : List Command} {sync : Bool} {outcome : Nat → Outcome}
    (hq : s.hub.Quiet)
    (hr : (s.deliver twoPhase cmds sync outcome).err = some .validation →
      s.hub.Refused cmds sync outcome) :
    (s.deliver twoPhase cmds sync outcome).server.hub.Quiet ∧
    (s.deliver twoPhase cmds sync outcome).server.next = s.next + cmds.length ∧
    ∀ x ∈ (s.deliver twoPhase cmds sync outcome).delivered,
      s.next ≤ x.2.id ∧ x.2.id < s.next + cmds.length := by
  obtain ⟨hkept, hidle⟩ := @deliver_kept twoPhase s cmds sync outcome hq.kept
  revert hr hkept hidle
  rw [deliver]
  obtain ⟨hsubs, hroot, hown⟩ := registerAll_frame s.hub (newRefs s.next cmds) sync
  -- What holds of every queue once the commands are queued.
  have hsolid := registerAll_forall (newRefs s.next cmds) sync (P := Solid) hq.kept.solid
    fun sp path c _ _ hP => solid_appendTo hP
  have hnew := registerAll_forall (newRefs s.next cmds) sync
    (P := fun sp => ∀ c ∈ sp.commands, s.next ≤ c.id ∧ c.id < s.next + cmds.length)
    (fun sp hsp c hc => by rw [SubPath.commands, hq.idle sp hsp] at hc; cases hc)
    fun sp path c hc _ hP c' hc' => by
      rcases mem_appendTo hc' with rfl | hc'
      · exact (mem_newRefs hc).2
      · exact hP c' hc'
  have hgot := registerAll_forall (newRefs s.next cmds) sync
    (P := fun sp => sp.pathToCmd = [] ∨ ∃ c ∈ cmds, s.hub.Queues c sync sp.sub) (fun sp hsp => .inl (hq.idle sp hsp))
    fun sp path c hc hqueue _ => .inr ⟨c.command, (mem_newRefs hc).1, hqueue⟩
  generalize s.hub.registerAll (newRefs s.next cmds) sync = h₁ at *
  have hcl := @validate_clears twoPhase outcome h₁ hsolid
  have hfail := @validate_err twoPhase h₁ outcome
  generalize h₁.validate twoPhase outcome = v at *
  obtain ⟨ok, h₂⟩ := v
  cases ok with
  | false =>
    intro hr hkept _
    refine ⟨⟨fun sp hsp => ?_, hkept.owned⟩, rfl, fun x hx => by cases hx⟩
    rcases hcl.keeps _ hgot (fun _ _ => .inl rfl) sp hsp with h | h
    · exact h
    · obtain ⟨hrem, hout⟩ := hr rfl sp.sub h
      refine hcl.empty sp hsp ⟨hfail rfl, ?_, ?_, hout⟩
      · rw [← hcl.subs]
        exact hkept.owned sp hsp
      · rwa [isRemote, hsubs]
  | true =>
    intro _ hkept hidle
    refine ⟨⟨hidle rfl, hkept.owned⟩, rfl, ?_⟩
    exact (commitLoop_clears (List.range h₂.subs.length) (Clears.refl h₂)
      (hcl.keeps _ hsolid Solid.clear) (Q := fun c => s.next ≤ c.id ∧ c.id < s.next + cmds.length)
      (hcl.keeps _ hnew fun sp _ c hc => by cases hc) fun x hx => absurd hx List.not_mem_nil).2

/-- A property of the subscriptions that a new one has. -/
theorem subscribe_forall {P : SubPath → Prop} {h : Hub} (h₀ : ∀ sp ∈ h.subPaths, P sp)
    (hnew : ∀ i, P { sub := i, sync := true }) (i : Nat) (paths : List String) :
    ∀ sp ∈ (h.subscribe i paths).subPaths, P sp := by
  have loop (i : Nat) : ∀ h : Hub, (∀ sp ∈ h.subPaths, P sp) →
      ∀ sp ∈ (paths.foldl (addSubPath i) h).subPaths, P sp := by
    induction paths with
    | nil => exact fun h h₀ => h₀
    | cons path paths ih =>
      refine fun h h₀ => ih _ fun sp hsp => ?_
      rcases List.mem_append.mp hsp with hsp | hsp
      · exact h₀ sp hsp
      · rw [List.mem_singleton.mp hsp]
        exact hnew i
  rw [subscribe]
  split
  · exact loop i h h₀
  · exact loop h.subs.length { h with subs := h.subs ++ [⟨true⟩] } h₀

theorem addSubPaths_owned {h : Hub} (ho : h.Owned) {i : Nat} (hi : i < h.subs.length)
    (paths : List String) : (paths.foldl (addSubPath i) h).Owned := by
  induction paths generalizing h with
  | nil => exact ho
  | cons path paths ih =>
    refine @ih (addSubPath i h path) (fun sp hsp => ?_) hi
    rcases List.mem_append.mp hsp with hsp | hsp
    · exact ho sp hsp
    · rw [List.mem_singleton.mp hsp]
      exact hi

theorem subscribe_owned {h : Hub} (ho : h.Owned) (i : Nat) (paths : List String) :
    (h.subscribe i paths).Owned := by
  rw [subscribe]
  split
  · exact addSubPaths_owned ho ‹_› paths
  · have hlen : (h.subs ++ [Subscriber.mk true]).length = h.subs.length + 1 := List.length_append
    refine addSubPaths_owned (h := { h with subs := h.subs ++ [⟨true⟩] }) (fun sp hsp => ?_)
      (hlen ▸ Nat.lt_succ_self _) paths
    have := ho sp hsp
    rw [hlen]
    omega

theorem clearSync_forall {P : SubPath → Prop} {h : Hub} (h₀ : ∀ sp ∈ h.subPaths, P sp)
    (hs : ∀ sp, P sp → P { sp with sync := false }) (n : Nat) :
    ∀ sp ∈ (h.clearSync n).subPaths, P sp := by
  intro sp hsp
  obtain ⟨k, hk, rfl⟩ := List.mem_mapIdx.mp hsp
  have hP := h₀ _ (List.getElem_mem hk)
  split
  · exact hs _ hP
  · exact hP

theorem subscribe_quiet {h : Hub} (hq : h.Quiet) (i : Nat) (paths : List String) :
    (h.subscribe i paths).Quiet :=
  ⟨subscribe_forall hq.idle (fun _ => rfl) i paths, subscribe_owned hq.owned i paths⟩

theorem clearSync_quiet {h : Hub} (hq : h.Quiet) (n : Nat) : (h.clearSync n).Quiet :=
  ⟨clearSync_forall hq.idle (fun _ h => h) n,
    clearSync_forall (P := fun sp => sp.sub < h.subs.length) hq.owned (fun _ h => h) n⟩

end Server

/-! ## Runs -/

/-- A call of a run, with the server before it and what it returns. -/
structure Event where
  before : Server
  action : Server.Action
  result : CallResult

/-- Calls one after the other. -/
inductive Run (env : Env) (ent : Entry) (diff : List Char → List Char → Option (List Char))
    (twoPhase : Bool) : Server → List Event → Server → Prop
  | nil (s : Server) : Run env ent diff twoPhase s [] s
  | cons {s s' : Server} {a : Server.Action} {r : CallResult} {es : List Event} :
    s.step env ent diff twoPhase a = some r → Run env ent diff twoPhase r.server es s' →
      Run env ent diff twoPhase s (⟨s, a, r⟩ :: es) s'

/-- Every subscriber the call queues a command for is remote and refuses. -/
def Event.Refused (env : Env) (diff : List Char → List Char → Option (List Char)) (e : Event) : Prop :=
  match e.action with
  | .commit outcome => ∀ cmds, changeCommands env diff e.before.active e.before.candidate = some cmds →
    e.before.hub.Refused cmds false outcome
  | .subscribeSync outcome =>
    e.before.hub.Refused (e.before.active.commandPaths.map (Command.mk true)) true outcome
  | .subscribe i paths outcome => (e.before.hub.subscribe i paths).Refused
    (e.before.active.commandPaths.map (Command.mk true)) true outcome
  | .set _ | .delete _ => True

section

variable {env : Env} {ent : Entry} {diff : List Char → List Char → Option (List Char)}
  {twoPhase : Bool}

/-- One call of such a run. -/
theorem Server.step_quiet {s : Server} {a : Server.Action} {r : CallResult}
    (h : s.step env ent diff twoPhase a = some r) (hq : s.hub.Quiet)
    (hc : r.err = some .validation → Event.Refused env diff ⟨s, a, r⟩) :
    r.server.hub.Quiet ∧ s.next ≤ r.server.next ∧
      ∀ x ∈ r.delivered, s.next ≤ x.2.id ∧ x.2.id < r.server.next := by
  cases a with
  | set cmds =>
    obtain ⟨r', -, rfl⟩ := Option.map_eq_some_iff.mp h
    exact ⟨hq, Nat.le_refl _, fun x hx => absurd hx List.not_mem_nil⟩
  | delete cmds =>
    obtain ⟨r', -, rfl⟩ := Option.map_eq_some_iff.mp h
    exact ⟨hq, Nat.le_refl _, fun x hx => absurd hx List.not_mem_nil⟩
  | commit outcome =>
    obtain ⟨text, -, rfl⟩ | ⟨-, cmds, hcmds, ⟨-, rfl⟩ | ⟨-, d, rfl, h⟩⟩ := commit_cases h
    · exact ⟨hq, Nat.le_refl _, fun x hx => absurd hx List.not_mem_nil⟩
    · exact ⟨hq, Nat.le_refl _, fun x hx => absurd hx List.not_mem_nil⟩
    · -- The new active tree is no matter of the queues.
      have herr : r.err = (s.deliver twoPhase cmds false outcome).err ∧
          r.delivered = (s.deliver twoPhase cmds false outcome).delivered ∧
          r.server.hub = (s.deliver twoPhase cmds false outcome).server.hub ∧
          r.server.next = (s.deliver twoPhase cmds false outcome).server.next := by
        obtain ⟨-, rfl⟩ | ⟨-, rfl⟩ := h <;> exact ⟨rfl, rfl, rfl, rfl⟩
      obtain ⟨he, hd, hh, hn⟩ := herr
      obtain ⟨h₁, h₂, h₃⟩ := @deliver_quiet twoPhase s cmds false outcome hq
        fun hv => hc (he.trans hv) cmds hcmds
      rw [hd, hh, hn, h₂]
      exact ⟨h₁, Nat.le_add_right _ _, h₃⟩
  | subscribeSync outcome =>
    cases h
    obtain ⟨h₁, h₂, h₃⟩ := deliver_quiet hq hc
    rw [subscribeSync, h₂]
    exact ⟨h₁, Nat.le_add_right _ _, h₃⟩
  | subscribe i paths outcome =>
    cases h
    have hq' := subscribe_quiet hq i paths
    obtain ⟨h₁, h₂, h₃⟩ := deliver_quiet (s := { s with hub := s.hub.subscribe i paths }) hq' hc
    simp only [subscribeRemoteAddMulti, subscribeSync] at h₁ h₂ h₃ ⊢
    rw [h₂]
    exact ⟨clearSync_quiet h₁ _, Nat.le_add_right _ _, h₃⟩

/-- In a run whose failed calls queue commands for subscribers that refuse only, a
failed call leaves the queue of every subscriber as it was, and a command is
delivered in the commit phase of the call that computed it or in none. -/
theorem failed_leaves_nothing {s s' : Server} {es : List Event} (hq : s.hub.Quiet)
    (hr : Run env ent diff twoPhase s es s')
    (hc : ∀ e ∈ es, e.result.err = some .validation → e.Refused env diff) :
    (∀ e ∈ es, e.result.err = some .validation →
      ∀ i, e.result.server.hub.queue i = e.before.hub.queue i) ∧
    (∀ e ∈ es, ∀ x ∈ e.result.delivered,
      e.before.next ≤ x.2.id ∧ x.2.id < e.result.server.next) ∧
    es.Pairwise fun e e' => ∀ x ∈ e.result.delivered, x ∉ e'.result.delivered := by
  suffices h : (∀ e ∈ es, e.before.hub.Quiet ∧ e.result.server.hub.Quiet ∧ s.next ≤ e.before.next ∧
      ∀ x ∈ e.result.delivered, e.before.next ≤ x.2.id ∧ x.2.id < e.result.server.next) ∧
      es.Pairwise fun e e' => e.result.server.next ≤ e'.before.next by
    refine ⟨fun e he _ i => ?_, fun e he => (h.1 e he).2.2.2, ?_⟩
    · obtain ⟨h₁, h₂, -⟩ := h.1 e he
      rw [h₁.idle.queue, h₂.idle.queue]
    · refine h.2.imp_of_mem fun {e e'} he he' hle x hx hx' => ?_
      have h₁ := (h.1 e he).2.2.2 x hx
      have h₂ := (h.1 e' he').2.2.2 x hx'
      omega
  induction hr with
  | nil => exact ⟨fun e he => absurd he List.not_mem_nil, List.Pairwise.nil⟩
  | @cons s s' a r es hstep _ ih =>
    obtain ⟨h₁, h₂, h₃⟩ := Server.step_quiet hstep hq (hc _ List.mem_cons_self)
    obtain ⟨ih₁, ih₂⟩ := ih h₁ fun e he => hc e (List.mem_cons_of_mem _ he)
    refine ⟨fun e he => ?_, List.Pairwise.cons (fun e he => (ih₁ e he).2.2.1) ih₂⟩
    rcases List.mem_cons.mp he with rfl | he
    · exact ⟨hq, h₁, Nat.le_refl _, h₃⟩
    · obtain ⟨k₁, k₂, k₃, k₄⟩ := ih₁ e he
      exact ⟨k₁, k₂, Nat.le_trans h₂ k₃, k₄⟩

end

/-- Subscribers on the path `routes`, and a candidate with one route more than the
active tree. -/
def routesServer (subs : List Subscriber) : Server :=
  { candidate := ((parse .ascii routesSchema {} ["routes", "route", "a", "b"]).map (·.tree)).getD {}
    hub :=
      { subs
        subPaths := (List.range subs.length).map fun i => { sub := i }
        root := { map := [("routes", { subPath := List.range subs.length })] } } }

theorem routesServer_quiet (subs : List Subscriber) : (routesServer subs).hub.Quiet := by
  refine ⟨fun sp hsp => ?_, fun sp hsp => ?_⟩
  · obtain ⟨i, -, rfl⟩ := List.mem_map.mp hsp
    rfl
  · obtain ⟨i, hi, rfl⟩ := List.mem_map.mp hsp
    exact List.mem_range.mp hi

/-- The remote subscriber refuses, and the local one keeps the command. -/
theorem failed_leaves_local : ∃ r,
    (routesServer [⟨false⟩, ⟨true⟩]).step .ascii routesSchema Ascii.diff true
      (.commit fun _ => .failed) = some r ∧
    r.err = some .validation ∧ (routesServer [⟨false⟩, ⟨true⟩]).hub.Quiet ∧
    ¬ ∀ i, r.server.hub.queue i = (routesServer [⟨false⟩, ⟨true⟩]).hub.queue i := by
  obtain ⟨r, hr, hp⟩ := Option.map_eq_some_iff.mp (show
    ((routesServer [⟨false⟩, ⟨true⟩]).step .ascii routesSchema Ascii.diff true
      (.commit fun _ => .failed)).map (fun r => (r.err, r.server.hub.queue 0)) =
    some (some .validation, [("routes", [⟨0, ⟨true, ["routes", "route", "a", "b"]⟩⟩])])
    by decide +kernel)
  simp only [Prod.mk.injEq] at hp
  refine ⟨r, hr, hp.1, routesServer_quiet _, fun h => ?_⟩
  have := h 0
  rw [hp.2, (routesServer_quiet _).idle.queue] at this
  cases this

theorem failed_leaves_nothing_remote : ∃ r,
    (routesServer [⟨true⟩]).step .ascii routesSchema Ascii.diff true (.commit fun _ => .failed) =
      some r ∧
    r.err = some .validation ∧ ∀ i, r.server.hub.queue i = (routesServer [⟨true⟩]).hub.queue i := by
  obtain ⟨r, hr, he⟩ := Option.map_eq_some_iff.mp (show
    ((routesServer [⟨true⟩]).step .ascii routesSchema Ascii.diff true
      (.commit fun _ => .failed)).map (·.err) = some (some .validation) by decide +kernel)
  refine ⟨r, hr, he, ?_⟩
  refine (failed_leaves_nothing (routesServer_quiet _) (.cons hr (.nil _)) fun e hmem _ => ?_).1 _
    List.mem_cons_self he
  obtain rfl := List.mem_singleton.mp hmem
  rintro cmds - i ⟨c, -, j, -, b, hj, -⟩
  -- The only subscriber is remote.
  obtain rfl : i = 0 := by
    have hown : (routesServer [⟨true⟩]).hub.owners = [(0, false)] := rfl
    rw [hown] at hj
    have := List.mem_of_getElem? hj
    simpa using congrArg Prod.fst (List.mem_singleton.mp this)
  exact ⟨rfl, by decide⟩

end OpenConfigd
