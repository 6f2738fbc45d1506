import OpenConfigd.Vrf.ExecLine
import OpenConfigd.Vrf.Commute
import OpenConfigd.Vrf.Static

/-!
# The candidate of the lines

The lines of an update see the candidate interface by interface, and those of the static routes VRF by
VRF. Here it is the tree of a schema that has their commands, and a line is what `ExecLine` does with
its words.

* `Refines.line`, `Refines.lines`: lines on interfaces do to the tree what `execLine` says;
* `Refines.changes`: the lines of `ProcessVrfInterfaceChanges`;
* `RefinesStatics.set`, `RefinesStatics.delete`: the lines of the static routes do what `set` and
  `delete` say;
* `RefinesStatics.step`: the lines of a call.

The line of a deletion needs the keys before its last word in the tree, since `ParseDelete` takes an
abbreviation for them. A key that a line has set stays (`Refines.keeps`).
-/

namespace OpenConfigd.Vrf

variable {env : Env} {ent : Entry} {root tree : OpenConfigd.Config}

/-! ## Interfaces -/

/-- The place of an interface. -/
def interfaceLoc (name : String) : Loc :=
  [⟨.configs, "interfaces"⟩, ⟨.configs, "interface"⟩, ⟨.keys, name⟩]

/-- The place of a setting in its interface. -/
def Setting.loc : Setting → Loc
  | .vrf _ => [⟨.configs, "vrf"⟩]
  | .address ip => [⟨.configs, "ipv4"⟩, ⟨.configs, "address"⟩, ⟨.keys, ip⟩]
  | .vlan id => [⟨.configs, "vlans"⟩, ⟨.keys, toString id⟩]
  | .dhcpRelayGroup _ => [⟨.configs, "dhcp-relay-group"⟩]

/-- The value of a setting that is a leaf. -/
def Setting.vals : Setting → List String
  | .vrf name | .dhcpRelayGroup name => [name]
  | .address _ | .vlan _ => []

namespace Line

/-- The place that a line names. -/
def loc : Line → Loc
  | .create name => interfaceLoc name
  | .set name s | .delete name s => interfaceLoc name ++ s.loc
  | .deleteIpv4 name => interfaceLoc name ++ [⟨.configs, "ipv4"⟩]

/-- The value at the end of a line. -/
def vals : Line → List String
  | .set _ s | .delete _ s => s.vals
  | .create _ | .deleteIpv4 _ => []

/-- The line is a `set` line. -/
def isSet : Line → Bool
  | .create _ | .set _ _ => true
  | .delete _ _ | .deleteIpv4 _ => false

/-- The line on the tree of the candidate. -/
def exec (env : Env) (ent : Entry) (root : OpenConfigd.Config) (l : Line) : Option OpenConfigd.Config :=
  if l.isSet then execSet env ent root (lineWords l.loc l.vals)
  else execDelete root (lineWords l.loc l.vals)

/-- No word of the line has white space. -/
def Worded (l : Line) : Prop := (∀ s ∈ l.loc, OneWord s.name) ∧ ∀ v ∈ l.vals, OneWord v

end Line

/-- The command parser takes the `set` line. -/
def accepts (env : Env) (ent : Entry) (name : String) (s : Setting) : Bool :=
  decide (Takes env ent (lineWords (interfaceLoc name ++ s.loc) s.vals))

/-- The schema has the commands of the lines. -/
structure InterfaceCommands (env : Env) (ent : Entry) : Prop where
  finds : FindsSimple env
  simple : ent.All Entry.Simple
  line : ∀ l : Line, LinePlace env ent l.loc l.vals
  alone : ∀ l : Line, (Cursor.root ent).alone env l.loc = true
  key : ∀ name, LastKey env ent (interfaceLoc name)

/-- The tree has the lines of each interface. -/
structure Refines (env : Env) (ent : Entry) (root : OpenConfigd.Config) (t : Candidate) : Prop where
  kept : Kept env ent root
  shows : ∀ name s, root.Shows (interfaceLoc name ++ s.loc) s.vals ↔ s ∈ t name

theorem setting_below {n n' : String} {s s' : Setting} :
    interfaceLoc n ++ s.loc <+: interfaceLoc n' ++ s'.loc ↔
      n = n' ∧ (s = s' ∨ s.sameLeaf s' = true) := by
  have hrepr : ∀ a b : Int, a.repr = b.repr ↔ a = b := fun _ _ => toString_int_inj
  cases s <;> cases s' <;>
    simp [interfaceLoc, Setting.loc, Setting.sameLeaf, List.cons_prefix_cons, hrepr]

theorem ipv4_below {n n' : String} {s : Setting} :
    interfaceLoc n ++ [⟨.configs, "ipv4"⟩] <+: interfaceLoc n' ++ s.loc ↔ n = n' ∧ s.inIpv4 = true := by
  cases s <;> simp [interfaceLoc, Setting.loc, Setting.inIpv4, List.cons_prefix_cons]

theorem setting_eq {n n' : String} {s s' : Setting}
    (h : interfaceLoc n ++ s.loc <+: interfaceLoc n' ++ s'.loc) :
    interfaceLoc n ++ s.loc = interfaceLoc n' ++ s'.loc := by
  obtain ⟨rfl, rfl | hsame⟩ := setting_below.mp h
  · rfl
  · cases s <;> cases s' <;> simp [Setting.sameLeaf] at hsame <;> rfl

/-- Two settings of one place have the same value just if they are the same. -/
theorem setting_vals {s s' : Setting} (h : s = s' ∨ s.sameLeaf s' = true) :
    s'.vals = s.vals ↔ s' = s := by
  rcases h with rfl | h
  · simp
  · cases s <;> cases s' <;> simp [Setting.sameLeaf, Setting.vals] at h ⊢

/-- The key of the interface is the only one that the place of a line goes on from. -/
theorem hasKeys_line {l : Line} (hs : l.isSet = false) (h : (root.get? (interfaceLoc l.name)).isSome) :
    root.HasKeys l.loc := by
  cases l with
  | create | set => cases hs
  | delete name s => exact Config.hasKeys_append h (by cases s <;> simp [Setting.loc])
  | deleteIpv4 name => exact Config.hasKeys_append h (by simp)

theorem Refines.empty : Refines env ent {} fun _ => ∅ :=
  ⟨.empty, fun _ _ =>
    iff_of_false (Config.not_shows_empty (List.cons_ne_nil _ _) _) (Finset.notMem_empty _)⟩

section

variable {accept : String → Setting → Bool} {t : Candidate} {name n : String} {s s' : Setting}

theorem mem_execLine_set : s' ∈ execLine accept t (.set name s) n ↔
    if accept name s = true ∧ name = n ∧ (s = s' ∨ s.sameLeaf s' = true) then s' = s else s' ∈ t n := by
  rw [execLine]
  simp only [Line.name, Line.apply]
  by_cases hn : name = n
  · subst hn
    rw [Function.update_self]
    cases accept name s with
    | false => simp
    | true =>
      by_cases hs : s = s' ∨ s.sameLeaf s' = true
      · simp only [if_true, Finset.mem_insert, Finset.mem_filter, hs, and_self]
        exact ⟨fun h => h.elim id fun h' => (hs.resolve_right h'.2).symm, .inl⟩
      · push Not at hs
        simp [hs.1, hs.1.symm, hs.2]
  · rw [Function.update_of_ne (Ne.symm hn), if_neg fun h => hn h.2.1]

theorem mem_execLine_delete : s' ∈ execLine accept t (.delete name s) n ↔
    s' ∈ t n ∧ ¬ (name = n ∧ s' = s) := by
  rw [execLine]
  simp only [Line.name, Line.apply]
  by_cases hn : name = n
  · subst hn
    rw [Function.update_self, Finset.mem_erase]
    tauto
  · rw [Function.update_of_ne (Ne.symm hn)]
    tauto

theorem mem_execLine_deleteIpv4 : s' ∈ execLine accept t (.deleteIpv4 name) n ↔
    s' ∈ t n ∧ ¬ (name = n ∧ s'.inIpv4 = true) := by
  rw [execLine]
  simp only [Line.name, Line.apply]
  by_cases hn : name = n
  · subst hn
    rw [Function.update_self, Finset.mem_filter]
    tauto
  · rw [Function.update_of_ne (Ne.symm hn)]
    tauto

end

section

variable (hc : InterfaceCommands env ent) {t : Candidate} {l : Line} {ls : List Line}

include hc

/-- A line leaves the tree with what `execLine` says. -/
theorem Refines.line (h : Refines env ent root t) (hw : l.Worded)
    (hkey : l.isSet = false → (root.get? (interfaceLoc l.name)).isSome)
    (he : l.exec env ent root = some tree) :
    Refines env ent tree (execLine (accepts env ent) t l) := by
  have hline := hc.line l
  rw [Line.exec] at he
  cases l with
  | create name =>
    refine ⟨(execSet_at hc.finds hc.simple h.kept hline hw.1 hw.2 he).1, fun n s => ?_⟩
    have hnot : ¬ interfaceLoc n ++ s.loc <+: interfaceLoc name := by
      cases s <;> simp [interfaceLoc, Setting.loc, List.cons_prefix_cons]
    rw [execSet_shows hc.finds hc.simple h.kept hline hw.1 hw.2 he fun hle => absurd hle hnot,
      if_neg fun ⟨_, heq⟩ => hnot (heq ▸ List.prefix_rfl), h.shows]
    simp [execLine, Line.apply, Line.name, Function.update_eq_self]
  | set name s =>
    refine ⟨(execSet_at hc.finds hc.simple h.kept hline hw.1 hw.2 he).1, fun n s' => ?_⟩
    rw [execSet_shows hc.finds hc.simple h.kept hline hw.1 hw.2 he setting_eq, h.shows, mem_execLine_set]
    have hplace : interfaceLoc n ++ s'.loc = interfaceLoc name ++ s.loc ↔
        name = n ∧ (s = s' ∨ s.sameLeaf s' = true) :=
      ⟨fun heq => setting_below.mp (heq ▸ List.prefix_rfl),
        fun heq => (setting_eq (setting_below.mpr heq)).symm⟩
    simp only [Line.loc, Line.vals, hplace, accepts, decide_eq_true_iff]
    split
    · rename_i hs
      exact setting_vals hs.2.2
    · rfl
  | delete name s =>
    have hkeys := hasKeys_line rfl (hkey rfl)
    refine ⟨(execDelete_at hc.finds hc.simple h.kept hline hw.1 hw.2 (hc.alone _) hkeys he).1,
      fun n s' => ?_⟩
    rw [execDelete_shows hc.finds hc.simple h.kept hline hw.1 hw.2 (hc.alone _) hkeys he setting_eq,
      h.shows, mem_execLine_delete]
    simp only [Line.loc, Line.vals, h.shows, setting_below]
    refine and_congr_right fun hs' => not_congr ⟨?_, ?_⟩
    · rintro ⟨hs, rfl, hsame⟩
      -- A leaf has one value.
      refine ⟨rfl, (setting_vals hsame).mp ?_⟩
      have hshow := (h.shows name s').mpr hs'
      rw [← setting_eq (setting_below.mpr ⟨rfl, hsame⟩)] at hshow
      exact hshow.inj ((h.shows name s).mpr hs)
    · rintro ⟨rfl, rfl⟩
      exact ⟨hs', rfl, .inl rfl⟩
  | deleteIpv4 name =>
    have hkeys := hasKeys_line rfl (hkey rfl)
    refine ⟨(execDelete_at hc.finds hc.simple h.kept hline hw.1 hw.2 (hc.alone _) hkeys he).1,
      fun n s' => ?_⟩
    have hnot : ¬ interfaceLoc n ++ s'.loc <+: interfaceLoc name ++ [⟨.configs, "ipv4"⟩] := by
      cases s' <;> simp [interfaceLoc, Setting.loc, List.cons_prefix_cons]
    rw [execDelete_shows hc.finds hc.simple h.kept hline hw.1 hw.2 (hc.alone _) hkeys he
      fun hle => absurd hle hnot, h.shows, mem_execLine_deleteIpv4]
    simp only [Line.loc, Line.vals, ipv4_below]
    refine and_congr_right fun hs' => not_congr (and_iff_right_of_imp ?_)
    rintro ⟨rfl, hin⟩
    -- The container of an address is in the tree.
    obtain ⟨x, hx⟩ := ipv4_below.mpr ⟨rfl, hin⟩
    obtain ⟨c, hg, -⟩ := ((h.shows name s').mpr hs').get
    have hsome : (root.get? (interfaceLoc name ++ [⟨.configs, "ipv4"⟩] ++ x)).isSome := by
      rw [hx, hg]
      rfl
    exact h.kept.shows hline (Config.get?_prefix hsome)

/-- The key of an interface stays. -/
theorem Refines.keeps (h : Refines env ent root t) (hw : l.Worded)
    (hkey : l.isSet = false → (root.get? (interfaceLoc l.name)).isSome)
    (he : l.exec env ent root = some tree) {name : String} (hn : (root.get? (interfaceLoc name)).isSome) :
    (tree.get? (interfaceLoc name)).isSome := by
  have hline := hc.line l
  rw [Line.exec] at he
  cases hs : l.isSet with
  | true =>
    rw [hs, if_pos rfl] at he
    exact execSet_keeps hc.finds hc.simple h.kept hline hw.1 hw.2 he hn
  | false =>
    rw [hs, if_neg (by simp)] at he
    refine execDelete_keeps hc.finds hc.simple h.kept hline hw.1 hw.2 (hc.alone _)
      (hasKeys_line hs (hkey hs)) he (hc.key name) ?_ hn
    cases l with
    | create | set => cases hs
    | delete n s => cases s <;> simp [Line.loc, interfaceLoc, Setting.loc, List.cons_prefix_cons]
    | deleteIpv4 n => simp [Line.loc, interfaceLoc, List.cons_prefix_cons]

/-- Lines leave the tree with what `execLines` says, if their deletions are of interfaces in it. -/
theorem Refines.lines (h : Refines env ent root t) (hw : ∀ l ∈ ls, l.Worded)
    (hkey : ∀ l ∈ ls, l.isSet = false → (root.get? (interfaceLoc l.name)).isSome)
    (he : ls.foldlM (fun root l => l.exec env ent root) root = some tree) :
    Refines env ent tree (execLines (accepts env ent) t ls) := by
  induction ls generalizing root t with
  | nil =>
    cases he
    exact h
  | cons l ls ih =>
    rw [List.foldlM_cons] at he
    obtain ⟨root', hl, he⟩ := Option.bind_eq_some_iff.mp he
    have hwl := hw l List.mem_cons_self
    have hkl := hkey l List.mem_cons_self
    exact ih (h.line hc hwl hkl hl) (fun x hx => hw x (List.mem_cons_of_mem _ hx))
      (fun x hx hs => h.keeps hc hwl hkl hl (hkey x (List.mem_cons_of_mem _ hx) hs)) he

omit hc

theorem Interface.vlanLines_isSet (ifp : Interface) : ∀ l ∈ ifp.vlanLines, l.isSet = true := by
  simp [Interface.vlanLines, Line.isSet]

theorem Interface.addressLines_isSet (vrfId : Int) (ifp : Interface) :
    ∀ l ∈ ifp.addressLines vrfId, l.isSet = true := by
  intro l hl
  simp only [Interface.addressLines, List.mem_append, List.mem_cons, List.mem_map, List.not_mem_nil,
    or_false] at hl
  rcases hl with ((rfl | rfl) | ⟨ip, -, rfl⟩) | hl
  · rfl
  · rfl
  · rfl
  · split at hl
    · rw [List.mem_singleton.mp hl]
      rfl
    · cases hl

/-- The deletions of a change are of interfaces that the old configuration has. -/
theorem deletion_mem {vrfId : Int} {cur new : List Interface} (hcur : (cur.map Interface.name).Nodup)
    (hnew : (new.map Interface.name).Nodup) (hl : l ∈ processVrfInterfaceChanges vrfId cur new)
    (hs : l.isSet = false) : ∃ o ∈ cur, o.name = l.name := by
  have hmem : l ∈ touch vrfId (Keyed.get Interface.name l.name cur)
      (Keyed.get Interface.name l.name new) := by
    rw [← changes_at vrfId hcur hnew]
    exact List.mem_filter.mpr ⟨hl, by simp⟩
  cases ho : Keyed.get Interface.name l.name cur with
  | some o => exact ⟨o, Keyed.mem_of_get ho, Keyed.key_of_get Interface.name ho⟩
  | none =>
    exfalso
    rw [ho] at hmem
    cases hn : Keyed.get Interface.name l.name new with
    | none =>
      rw [hn] at hmem
      cases hmem
    | some i =>
      -- What is new is only set.
      rw [hn] at hmem
      rcases List.mem_append.mp hmem with hmem | hmem
      · rw [i.vlanLines_isSet l hmem] at hs
        cases hs
      · rw [i.addressLines_isSet vrfId l hmem] at hs
        cases hs

include hc

/-- The lines of a change of interfaces that the candidate has as they were. -/
theorem Refines.changes {vrfId : Int} {cur new : List Interface} (h : Refines env ent root t)
    (hcur : (cur.map Interface.name).Nodup) (hnew : (new.map Interface.name).Nodup)
    (ht : ∀ o ∈ cur, .vrf (vrfName vrfId) ∈ t o.name)
    (hw : ∀ l ∈ processVrfInterfaceChanges vrfId cur new, l.Worded)
    (he : (processVrfInterfaceChanges vrfId cur new).foldlM (fun root l => l.exec env ent root) root =
      some tree) :
    Refines env ent tree (execLines (accepts env ent) t (processVrfInterfaceChanges vrfId cur new)) := by
  refine h.lines hc hw (fun l hl hs => ?_) he
  obtain ⟨o, ho, hname⟩ := deletion_mem hcur hnew hl hs
  obtain ⟨c, hg, -⟩ := ((h.shows _ _).mpr (ht o ho)).get
  rw [hname] at hg
  exact Config.get?_prefix (by rw [hg]; rfl)

end

/-! ## Static routes -/

/-- The place of a VRF. -/
def vrfLoc (vrfId : Int) : Loc :=
  [⟨.configs, "vrf"⟩, ⟨.configs, "name"⟩, ⟨.keys, vrfName vrfId⟩]

/-- The place of a prefix of a VRF. -/
def prefixLoc (vrfId : Int) (pfx : String) : Loc :=
  vrfLoc vrfId ++ [⟨.configs, "static"⟩, ⟨.configs, "route"⟩, ⟨.keys, pfx⟩]

/-- The place of a static route. -/
def routeLoc (vrfId : Int) (r : StaticRoute) : Loc :=
  prefixLoc vrfId r.1 ++ [⟨.configs, "nexthop"⟩, ⟨.keys, r.2⟩]

/-- The command parser takes the `set` line. -/
def takesRoute (env : Env) (ent : Entry) (vrfId : Int) (r : StaticRoute) : Bool :=
  decide (Takes env ent (lineWords (routeLoc vrfId r) []))

/-- The schema has the commands of the static routes. -/
structure StaticCommands (env : Env) (ent : Entry) : Prop where
  finds : FindsSimple env
  simple : ent.All Entry.Simple
  line : ∀ vrfId r, LinePlace env ent (routeLoc vrfId r) []
  alone : ∀ vrfId r, (Cursor.root ent).alone env (routeLoc vrfId r) = true
  pfx : ∀ vrfId pfx, LastKey env ent (prefixLoc vrfId pfx)

/-- The tree has the static routes of each VRF. -/
structure RefinesStatics (env : Env) (ent : Entry) (root : OpenConfigd.Config) (s : Statics) : Prop where
  kept : Kept env ent root
  shows : ∀ vrfId r, root.Shows (routeLoc vrfId r) [] ↔ r ∈ s.candidate vrfId

theorem RefinesStatics.empty : RefinesStatics env ent {} {} :=
  ⟨.empty, fun _ _ =>
    iff_of_false (Config.not_shows_empty (List.cons_ne_nil _ _) _) (Finset.notMem_empty _)⟩

theorem route_below {v v' : Int} {r r' : StaticRoute} :
    routeLoc v r <+: routeLoc v' r' ↔ v = v' ∧ r = r' := by
  obtain ⟨p, nexthop⟩ := r
  obtain ⟨p', nexthop'⟩ := r'
  simp [routeLoc, prefixLoc, vrfLoc, List.cons_prefix_cons, vrfName_inj]

theorem mem_set {accept : Int → StaticRoute → Bool} {s : Statics} {vrfId v : Int} {r r' : StaticRoute} :
    r' ∈ (s.set accept vrfId r).candidate v ↔
      (accept vrfId r = true ∧ v = vrfId ∧ r' = r) ∨ r' ∈ s.candidate v := by
  rw [Statics.set]
  by_cases hv : v = vrfId
  · subst hv
    split <;> rename_i ha <;> simp [ha]
  · split <;> simp [hv, Function.update_of_ne]

theorem mem_delete {s : Statics} {vrfId v : Int} {r r' : StaticRoute} :
    r' ∈ (s.delete vrfId r).candidate v ↔ r' ∈ s.candidate v ∧ ¬ (v = vrfId ∧ r' = r) := by
  rw [Statics.delete]
  by_cases hv : v = vrfId
  · subst hv
    simp [and_comm]
  · simp [hv, Function.update_of_ne]

theorem hasKeys_route {v : Int} {r : StaticRoute} (h : (root.get? (prefixLoc v r.1)).isSome) :
    root.HasKeys (routeLoc v r) :=
  Config.hasKeys_append h (by simp)

section

variable (hc : StaticCommands env ent) {s : Statics} {vrfId : Int} {r : StaticRoute}
  (h : RefinesStatics env ent root s) (hw : ∀ x ∈ routeLoc vrfId r, OneWord x.name)

include hc h hw

/-- The `set` line of a route. -/
theorem RefinesStatics.set (he : execSet env ent root (lineWords (routeLoc vrfId r) []) = some tree) :
    RefinesStatics env ent tree (s.set (takesRoute env ent) vrfId r) := by
  have hline := hc.line vrfId r
  refine ⟨(execSet_at hc.finds hc.simple h.kept hline hw (by simp) he).1, fun v r' => ?_⟩
  rw [execSet_shows hc.finds hc.simple h.kept hline hw (by simp) he fun hle => by
    obtain ⟨rfl, rfl⟩ := route_below.mp hle
    rfl, h.shows]
  have hplace : routeLoc v r' = routeLoc vrfId r ↔ v = vrfId ∧ r' = r :=
    ⟨fun heq => route_below.mp (heq ▸ List.prefix_rfl), fun ⟨hv, hr⟩ => by rw [hv, hr]⟩
  simp only [mem_set, hplace, takesRoute, decide_eq_true_iff]
  split <;> rename_i ht <;> simp [ht]

/-- The `delete` line of a route whose prefix is in the tree. -/
theorem RefinesStatics.delete (hkey : (root.get? (prefixLoc vrfId r.1)).isSome)
    (he : execDelete root (lineWords (routeLoc vrfId r) []) = some tree) :
    RefinesStatics env ent tree (s.delete vrfId r) := by
  have hline := hc.line vrfId r
  have hkeys := hasKeys_route hkey
  refine ⟨(execDelete_at hc.finds hc.simple h.kept hline hw (by simp) (hc.alone _ _) hkeys he).1,
    fun v r' => ?_⟩
  rw [execDelete_shows hc.finds hc.simple h.kept hline hw (by simp) (hc.alone _ _) hkeys he fun hle => by
    obtain ⟨rfl, rfl⟩ := route_below.mp hle
    rfl, h.shows, h.shows, route_below, mem_delete]
  refine and_congr_right fun hr' => not_congr ⟨fun ⟨_, hv, hr⟩ => ⟨hv.symm, hr.symm⟩, ?_⟩
  rintro ⟨rfl, rfl⟩
  exact ⟨hr', rfl, rfl⟩

/-- The key of a prefix stays. -/
theorem RefinesStatics.keeps_key (hkey : (root.get? (prefixLoc vrfId r.1)).isSome)
    (he : execDelete root (lineWords (routeLoc vrfId r) []) = some tree) {v : Int} {pfx : String}
    (hp : (root.get? (prefixLoc v pfx)).isSome) : (tree.get? (prefixLoc v pfx)).isSome := by
  refine execDelete_keeps hc.finds hc.simple h.kept (hc.line vrfId r) hw (by simp) (hc.alone _ _)
    (hasKeys_route hkey) he
    (hc.pfx v pfx) ?_ hp
  simp [routeLoc, prefixLoc, vrfLoc, List.cons_prefix_cons]

end

/-- The `delete` lines of routes. -/
def deleteRoutes (root : OpenConfigd.Config) (vrfId : Int) (l : List StaticRoute) :
    Option OpenConfigd.Config :=
  l.foldlM (fun root r => execDelete root (lineWords (routeLoc vrfId r) [])) root

/-- The `set` lines of routes. -/
def setRoutes (env : Env) (ent : Entry) (root : OpenConfigd.Config) (vrfId : Int)
    (l : List StaticRoute) : Option OpenConfigd.Config :=
  l.foldlM (fun root r => execSet env ent root (lineWords (routeLoc vrfId r) [])) root

/-- The routes that are noted for a VRF. -/
def Statics.notedRoutes (s : Statics) (vrfId : Int) : List StaticRoute :=
  (s.etcdVrfStaticMap vrfId).elim [] fun m => m.entries.map fun x => (x.1, x.2)

/-- The lines of a call. -/
def StaticCall.exec (env : Env) (ent : Entry) (root : OpenConfigd.Config) (s : Statics)
    (c : StaticCall) : Option OpenConfigd.Config :=
  (deleteRoutes root c.vrfId (s.notedRoutes c.vrfId)).bind fun root =>
    setRoutes env ent root c.vrfId c.routes

theorem RefinesStatics.congr {s s' : Statics} (h : RefinesStatics env ent root s)
    (hs : s'.candidate = s.candidate) : RefinesStatics env ent root s' :=
  ⟨h.kept, fun v r => by rw [h.shows, hs]⟩

section

variable (hc : StaticCommands env ent) {s : Statics} {vrfId : Int} {l : List StaticRoute}
  (h : RefinesStatics env ent root s) (hw : ∀ r ∈ l, ∀ x ∈ routeLoc vrfId r, OneWord x.name)

include hc h hw

theorem RefinesStatics.deletes (hkeys : ∀ r ∈ l, (root.get? (prefixLoc vrfId r.1)).isSome)
    (he : deleteRoutes root vrfId l = some tree) :
    RefinesStatics env ent tree (l.foldl (fun s r => s.delete vrfId r) s) := by
  induction l generalizing root s with
  | nil =>
    cases he
    exact h
  | cons r l ih =>
    rw [deleteRoutes, List.foldlM_cons] at he
    obtain ⟨root', hr, he⟩ := Option.bind_eq_some_iff.mp he
    have hwr := hw r List.mem_cons_self
    have hkr := hkeys r List.mem_cons_self
    exact ih (h.delete hc hwr hkr hr) (fun x hx => hw x (List.mem_cons_of_mem _ hx))
      (fun x hx => h.keeps_key hc hwr hkr hr (hkeys x (List.mem_cons_of_mem _ hx))) he

theorem RefinesStatics.sets (he : setRoutes env ent root vrfId l = some tree) :
    RefinesStatics env ent tree (l.foldl (fun s r => s.set (takesRoute env ent) vrfId r) s) := by
  induction l generalizing root s with
  | nil =>
    cases he
    exact h
  | cons r l ih =>
    rw [setRoutes, List.foldlM_cons] at he
    obtain ⟨root', hr, he⟩ := Option.bind_eq_some_iff.mp he
    exact ih (h.set hc (hw r List.mem_cons_self) hr) (fun x hx => hw x (List.mem_cons_of_mem _ hx)) he

end

/-- The lines of a call leave the tree with what the call does, if the prefixes that are noted are
in it. -/
theorem RefinesStatics.step (hc : StaticCommands env ent) {s : Statics} {c : StaticCall}
    (h : RefinesStatics env ent root s)
    (hw : ∀ r, r ∈ s.notedRoutes c.vrfId ∨ r ∈ c.routes → ∀ x ∈ routeLoc c.vrfId r, OneWord x.name)
    (hkeys : ∀ r ∈ s.notedRoutes c.vrfId, (root.get? (prefixLoc c.vrfId r.1)).isSome)
    (he : c.exec env ent root s = some tree) :
    RefinesStatics env ent tree (s.step (takesRoute env ent) c) := by
  obtain ⟨root', hdel, hset⟩ := Option.bind_eq_some_iff.mp he
  have hclear : RefinesStatics env ent root' (s.etcdVrfStaticClear c.vrfId) := by
    have hdeleted := h.deletes hc (fun r hr => hw r (.inl hr)) hkeys hdel
    rw [Statics.etcdVrfStaticClear]
    rw [Statics.notedRoutes] at hdeleted
    cases hm : s.etcdVrfStaticMap c.vrfId with
    | none =>
      rw [hm] at hdeleted
      exact hdeleted
    | some m =>
      rw [hm, Option.elim_some, List.foldl_map] at hdeleted
      exact hdeleted.congr rfl
  have hsets := hclear.sets hc (fun r hr => hw r (.inr hr)) hset
  cases c with
  | etcdVrfStaticClear vrfId => exact hsets
  | etcdVrfStaticUpdate vrfId routes =>
    rw [Statics.step, Statics.etcdVrfStaticUpdate]
    dsimp only
    split
    · rename_i hlen
      rw [StaticCall.routes, List.length_eq_zero_iff.mp hlen] at hsets
      exact hsets
    · exact hsets.congr rfl

/-! ## A schema with the commands -/

/-- The part of the schema that the lines are about. -/
def coreswitch : Entry :=
  { name := "", kind := .directory, dir := [
    containerOf "interfaces" [
      listOf "interface" "name" [
        leafOf "name" { kind := .string },
        leafOf "vrf" { kind := .string },
        containerOf "ipv4" [listOf "address" "ip" [leafOf "ip" { kind := .string }]],
        leafOf "dhcp-relay-group" { kind := .string },
        leafOf "vlan" { kind := .uint16, range := [⟨⟨.positive, 1, 0⟩, ⟨.positive, 4096, 0⟩⟩] },
        listOf "vlans" "vlan-id" [
          leafOf "vlan-id" { kind := .uint16, range := [⟨⟨.positive, 1, 0⟩, ⟨.positive, 4096, 0⟩⟩] }]]],
    containerOf "vrf" [
      listOf "name" "name" [
        leafOf "name" { kind := .string },
        containerOf "static" [
          listOf "route" "prefix" [
            leafOf "prefix" { kind := .string },
            listOf "nexthop" "address" [leafOf "address" { kind := .string }]]]]]] }

theorem coreswitch_simple : coreswitch.All Entry.Simple := by
  decide

theorem ascii_findsSimple : FindsSimple .ascii := nofun

theorem coreswitch_interfaces : InterfaceCommands .ascii coreswitch where
  finds := ascii_findsSimple
  simple := coreswitch_simple
  line l := by
    rcases l with n | ⟨n, s⟩ | ⟨n, s⟩ | n <;> (try cases s) <;>
      refine ⟨List.cons_ne_nil _ _, _, rfl, ?_⟩
    all_goals first
      | exact .inl ⟨rfl, _, rfl⟩
      | exact .inr ⟨rfl, .inl rfl⟩
      | exact .inr ⟨rfl, .inr ⟨rfl, rfl⟩⟩
  alone l := by
    rcases l with n | ⟨n, s⟩ | ⟨n, s⟩ | n <;> (try cases s) <;> rfl
  key _ := ⟨_, rfl, rfl⟩

theorem coreswitch_statics : StaticCommands .ascii coreswitch where
  finds := ascii_findsSimple
  simple := coreswitch_simple
  line _ _ := ⟨List.cons_ne_nil _ _, _, rfl, .inr ⟨rfl, .inl rfl⟩⟩
  alone _ _ := rfl
  pfx _ _ := ⟨_, rfl, rfl⟩

end OpenConfigd.Vrf
