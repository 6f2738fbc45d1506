import OpenConfigd.Vrf.ExecLine
import OpenConfigd.Vrf.Dhcp
import Mathlib.Tactic.FinCases

/-!
# The candidate of the DHCP lines

The pools and relay groups of the candidate, as the tree of a schema that has their commands. A line
deletes an entry as a whole, so that no key is before its last word.

* `said_lines`: what the lines of a configuration can set;
* `Refines.line`, `Refines.lines`: lines do to the tree what `execLine` says;
* `Refines.calls`, `Refines.after`: and so do the calls of a run.
-/

namespace OpenConfigd.Vrf.Dhcp

open Dhcpd (Range ServerGroup)

variable {env : Env} {ent : OpenConfigd.Entry} {root tree : OpenConfigd.Config}

/-! ## Places -/

/-- The place of a pool or group. -/
def Entry.loc : Entry → Loc
  | .pool name => [⟨.configs, "dhcp"⟩, ⟨.configs, "server"⟩, ⟨.configs, "dhcp-ip-pool"⟩, ⟨.keys, name⟩]
  | .group name => [⟨.configs, "dhcp"⟩, ⟨.configs, "relay"⟩, ⟨.configs, "server-group"⟩, ⟨.keys, name⟩]

/-- The place in its pool or group that words name. -/
def wordsLoc : List String → Loc
  | [list, key] =>
    if list = "option" then [⟨.configs, list⟩, ⟨.configs, key⟩] else [⟨.configs, list⟩, ⟨.keys, key⟩]
  | [list, key, leaf] =>
    if list = "option" then [⟨.configs, list⟩, ⟨.configs, key⟩, ⟨.keys, leaf⟩]
    else [⟨.configs, list⟩, ⟨.keys, key⟩, ⟨.configs, leaf⟩]
  | [option, list, key, leaf] => [⟨.configs, option⟩, ⟨.configs, list⟩, ⟨.keys, key⟩, ⟨.configs, leaf⟩]
  | words => words.map fun word => ⟨.configs, word⟩

/-- What the lines of a configuration set in a pool or group. -/
inductive Said : Entry → List String → Option String → Prop
  | leaf {name leaf value : String} : leaf ∈ ["interface", "gateway-ip", "subnet", "default-lease-time",
      "max-lease-time", "failover-role", "failover-peer-address"] → Said (.pool name) [leaf] (some value)
  | range {name pos leaf value : String} : leaf ∈ ["range-start-ip", "range-end-ip"] →
    Said (.pool name) ["range", pos, leaf] (some value)
  | host {name host leaf value : String} : leaf ∈ ["ip-address", "mac-address"] →
    Said (.pool name) ["host", host, leaf] (some value)
  | option {name leaf value : String} : leaf ∈ ["domain-name", "tftp-server-name", "time-offset"] →
    Said (.pool name) ["option", leaf] (some value)
  | server {name list server : String} :
    list ∈ ["domain-name-servers", "ntp-servers", "voip-tftp-servers", "sip-servers"] →
    Said (.pool name) ["option", list, server] none
  | route {name pfx value : String} :
    Said (.pool name) ["option", "classless-routes", pfx, "nexthop"] (some value)
  | address {name address : String} : Said (.group name) ["server-address", address] none

namespace Line

/-- The place that a line names. -/
def loc : Line → Loc
  | .delete e | .create e => e.loc
  | .set e words _ => e.loc ++ wordsLoc words

/-- The value at the end of a line. -/
def vals : Line → List String
  | .set _ _ value => value.toList
  | .delete _ | .create _ => []

/-- The line on the tree of the candidate. -/
def exec (env : Env) (ent : OpenConfigd.Entry) (root : OpenConfigd.Config) (l : Line) :
    Option OpenConfigd.Config :=
  match l with
  | .delete _ => execDelete root (lineWords l.loc l.vals)
  | .create _ | .set _ _ _ => execSet env ent root (lineWords l.loc l.vals)

/-- The line is one of those of a configuration. -/
def Said : Line → Prop
  | .set e words value => Dhcp.Said e words value
  | .delete _ | .create _ => True

/-- No word of the line has white space. -/
def Worded (l : Line) : Prop := (∀ s ∈ l.loc, OneWord s.name) ∧ ∀ v ∈ l.vals, OneWord v

end Line

/-- The command parser takes the `set` line. -/
def accepts (env : Env) (ent : OpenConfigd.Entry) (l : Line) : Bool :=
  decide (Takes env ent (lineWords l.loc l.vals))

theorem accepts_iff {l : Line} : accepts env ent l = true ↔ Takes env ent (lineWords l.loc l.vals) :=
  decide_eq_true_iff

theorem entry_below {e e' : Entry} : e.loc <+: e'.loc ↔ e = e' := by
  cases e <;> cases e' <;> simp [Entry.loc, List.cons_prefix_cons]

/-- What is said of an entry is in it. -/
theorem Said.below_entry {e e' : Entry} {words : List String} {value : Option String}
    (h : Said e words value) : e'.loc <+: e.loc ++ wordsLoc words ↔ e' = e := by
  cases e <;> cases e' <;> simp [Entry.loc, List.cons_prefix_cons]

theorem Said.not_above {e e' : Entry} {words : List String} {value : Option String}
    (h : Said e words value) : ¬ e.loc ++ wordsLoc words <+: e'.loc := by
  cases h <;> cases e' <;> simp [Entry.loc, wordsLoc, List.cons_prefix_cons]

theorem Said.below_iff {e e' : Entry} {words words' : List String} {value value' : Option String}
    (h : Said e words value) (h' : Said e' words' value') :
    e.loc ++ wordsLoc words <+: e'.loc ++ wordsLoc words' ↔ e = e' ∧ words = words' := by
  cases h <;> cases h' <;> simp [Entry.loc, wordsLoc, List.cons_prefix_cons]
  -- A leaf has not the name of a list.
  all_goals
    rintro _ rfl
    simp_all
  rename_i hleaf _ hlist
  rcases hleaf with rfl | rfl | rfl <;> simp at hlist

theorem hasKeys_entry (e : Entry) : root.HasKeys e.loc := by
  refine Config.hasKeys_append (show (root.get? []).isSome from rfl) (l := e.loc) ?_
  cases e <;> simp [Entry.loc]

/-! ## One line -/

/-- The schema has the commands of the lines. -/
structure Commands (env : Env) (ent : OpenConfigd.Entry) : Prop where
  finds : FindsSimple env
  simple : ent.All Entry.Simple
  line : ∀ l : Line, l.Said → LinePlace env ent l.loc l.vals
  alone : ∀ e : Entry, (Cursor.root ent).alone env e.loc = true

/-- The tree has the pools and groups, and what is set in them. -/
structure Refines (env : Env) (ent : OpenConfigd.Entry) (root : OpenConfigd.Config) (t : Candidate) :
    Prop where
  kept : Kept env ent root
  entry : ∀ e : Entry, root.Shows e.loc [] ↔ (t e).isSome = true
  shows : ∀ e words value, Said e words value →
    (root.Shows (e.loc ++ wordsLoc words) value.toList ↔ ∃ c, t e = some c ∧ c words = some value)

section

variable {accept : Line → Bool} {t : Candidate} {e e' : Entry} {words words' : List String}
  {value value' : Option String}

theorem execLine_delete : execLine accept t (.delete e) e' = if e' = e then none else t e' := by
  rw [execLine, Function.update_apply]
  rfl

theorem execLine_create : execLine accept t (.create e) e' =
    if accept (.create e) = true ∧ e' = e then some ((t e').getD fun _ => none) else t e' := by
  rw [execLine, Function.update_apply]
  simp only [Line.entry, Line.apply]
  by_cases h : e' = e
  · subst h
    simp
  · simp [h]

theorem execLine_set : execLine accept t (.set e words value) e' =
    if accept (.set e words value) = true ∧ e' = e then
      some (Function.update ((t e').getD fun _ => none) words (some value))
    else t e' := by
  rw [execLine, Function.update_apply]
  simp only [Line.entry, Line.apply]
  by_cases h : e' = e
  · subst h
    simp
  · simp [h]

end

section

variable (hc : Commands env ent) {t : Candidate} {l : Line} {ls : List Line}

include hc

/-- A line leaves the tree with what `execLine` says. -/
theorem Refines.line (h : Refines env ent root t) (hs : l.Said) (hw : l.Worded)
    (he : l.exec env ent root = some tree) :
    Refines env ent tree (execLine (accepts env ent) t l) := by
  have hline := hc.line l hs
  cases l with
  | delete e =>
    have hkeys := @hasKeys_entry root e
    have hshows := fun l' vals' => @execDelete_shows env ent root tree e.loc l' [] vals' hc.finds
      hc.simple h.kept hline hw.1 hw.2 (hc.alone e) hkeys he
    refine ⟨(execDelete_at hc.finds hc.simple h.kept hline hw.1 hw.2 (hc.alone e) hkeys he).1,
      fun e' => ?_, fun e' words value hsaid => ?_⟩
    · rw [hshows _ _ fun hle => by rw [entry_below.mp hle], h.entry, h.entry, entry_below,
        execLine_delete]
      by_cases heq : e' = e
      · subst heq
        simp only [if_true, and_true, and_not_self_iff, Option.isSome_none, Bool.false_eq_true]
      · simp [heq, Ne.symm heq]
    · rw [hshows _ _ fun hle => absurd hle hsaid.not_above, h.shows e' words value hsaid, h.entry,
        hsaid.below_entry, execLine_delete]
      by_cases heq : e' = e
      · subst heq
        simp only [if_true, and_true]
        refine iff_of_false ?_ (by simp)
        rintro ⟨⟨c, hce, -⟩, hnone⟩
        rw [hce] at hnone
        exact hnone rfl
      · simp [heq, Ne.symm heq]
  | create e =>
    have hat := execSet_at hc.finds hc.simple h.kept hline hw.1 hw.2 he
    refine ⟨hat.1, fun e' => ?_, fun e' words value hsaid => ?_⟩
    · rw [execSet_shows hc.finds hc.simple h.kept hline hw.1 hw.2 he fun hle => by
        rw [entry_below.mp hle]; rfl, h.entry, execLine_create]
      have hplace : e'.loc = e.loc ↔ e' = e :=
        ⟨fun heq => entry_below.mp (heq ▸ List.prefix_rfl), fun heq => by rw [heq]⟩
      simp only [accepts_iff, Line.loc, Line.vals, hplace]
      split
      · simp
      · rfl
    · rw [execSet_shows hc.finds hc.simple h.kept hline hw.1 hw.2 he
        fun hle => absurd hle hsaid.not_above, h.shows e' words value hsaid,
        if_neg fun h' => (hsaid.not_above : ¬ _ <+: e.loc) (by rw [h'.2]; exact List.prefix_rfl),
        execLine_create]
      split
      · cases t e' <;> simp
      · rfl
  | set e words value =>
    have hat := execSet_at hc.finds hc.simple h.kept hline hw.1 hw.2 he
    refine ⟨hat.1, fun e' => ?_, fun e' words' value' hsaid => ?_⟩
    · rw [execLine_set]
      simp only [accepts_iff]
      rcases hat.2 with ⟨ht, hshow, hframe⟩ | ⟨ht, rfl⟩
      · by_cases heq : e' = e
        · subst heq
          -- The key of what is set is in the tree.
          obtain ⟨c, hg, -⟩ := hshow.get
          have hkey : (tree.get? e'.loc).isSome :=
            Config.get?_prefix (Option.isSome_iff_exists.mpr ⟨c, hg⟩)
          rw [if_pos ⟨ht, rfl⟩]
          exact iff_of_true (hat.1.shows (hc.line (.create e') trivial) hkey) rfl
        · rw [if_neg fun h' => heq h'.2, ← h.entry, Config.Shows, Config.Shows, Config.node?, Config.node?,
            hframe _ fun hle => heq ((Said.below_entry hs).mp hle)]
      · rw [if_neg fun h' => ht h'.1, h.entry]
    · have hplace : e'.loc ++ wordsLoc words' = e.loc ++ wordsLoc words ↔ e' = e ∧ words' = words :=
        ⟨fun heq => (hsaid.below_iff hs).mp (heq ▸ List.prefix_rfl), fun h' => by rw [h'.1, h'.2]⟩
      rw [execSet_shows hc.finds hc.simple h.kept hline hw.1 hw.2 he fun hle => by
        obtain ⟨rfl, rfl⟩ := (hsaid.below_iff hs).mp hle
        rfl, h.shows e' words' value' hsaid, execLine_set]
      simp only [accepts_iff, Line.loc, Line.vals, hplace]
      by_cases ht : Takes env ent (lineWords (e.loc ++ wordsLoc words) value.toList) ∧ e' = e
      · rw [if_pos ht]
        by_cases heq : words' = words
        · subst heq
          rw [if_pos ⟨ht.1, ht.2, rfl⟩]
          simp only [Option.some.injEq, exists_eq_left', Function.update_self]
          cases value <;> cases value' <;> simp [eq_comm]
        · rw [if_neg fun h' => heq h'.2.2]
          simp only [Option.some.injEq, exists_eq_left', Function.update_of_ne heq]
          cases t e' <;> simp
      · rw [if_neg ht, if_neg fun h' => ht ⟨h'.1, h'.2.1⟩]

/-- Lines leave the tree with what `exec` says. -/
theorem Refines.lines (h : Refines env ent root t) (hs : ∀ l ∈ ls, l.Said) (hw : ∀ l ∈ ls, l.Worded)
    (he : ls.foldlM (fun root l => l.exec env ent root) root = some tree) :
    Refines env ent tree (exec (accepts env ent) t ls) := by
  induction ls generalizing root t with
  | nil =>
    cases he
    exact h
  | cons l ls ih =>
    rw [List.foldlM_cons] at he
    obtain ⟨root', hl, he⟩ := Option.bind_eq_some_iff.mp he
    exact ih (h.line hc (hs l List.mem_cons_self) (hw l List.mem_cons_self) hl)
      (fun x hx => hs x (List.mem_cons_of_mem _ hx)) (fun x hx => hw x (List.mem_cons_of_mem _ hx)) he

end

/-! ## The calls -/

/-- The lines of a call. -/
def Call.lines (configs : Int → Option Config) (c : Call) : List Line :=
  ((configs c.vrfId).elim [] dhcpVrfClear) ++ c.config.elim [] Config.lines

theorem said_poolLines {id : Int} {pool : DhcpIpPool} {l : Line} (h : l ∈ poolLines id pool) :
    l.Said := by
  have hall : ∀ l ∈ poolLines id pool, l.Said := by
    simp only [poolLines, List.forall_mem_append, List.forall_mem_cons, List.forall_mem_map,
      List.forall_mem_flatMap, forall_mem_if, and_assoc]
    exact ⟨trivial, .leaf (by simp), .leaf (by simp), .leaf (by simp), List.forall_mem_nil _,
      fun _ => .leaf (by simp), fun _ => .leaf (by simp),
      fun _ _ => ⟨.range (by simp), .range (by simp), List.forall_mem_nil _⟩,
      fun _ _ => ⟨.host (by simp), .host (by simp), List.forall_mem_nil _⟩,
      fun _ => .option (by simp), fun _ _ => .server (by simp), fun _ _ => .server (by simp),
      fun _ => .option (by simp), fun _ _ => .server (by simp), fun _ _ => .server (by simp),
      fun _ _ => .route, fun _ => .option (by simp), fun _ => .leaf (by simp), fun _ => .leaf (by simp)⟩
  exact hall l h

theorem said_groupLines {group : ServerGroup} {l : Line} (h : l ∈ groupLines group) : l.Said := by
  rw [groupLines, List.mem_cons, List.mem_cons, List.mem_map] at h
  rcases h with rfl | rfl | ⟨address, -, rfl⟩
  · trivial
  · trivial
  · exact .address

/-- A configuration has only such lines. -/
theorem said_lines {cfg : Config} {l : Line} (h : l ∈ cfg.lines) : l.Said := by
  rcases List.mem_append.mp h with h | h
  · obtain ⟨pool, -, hl⟩ := List.mem_flatMap.mp h
    exact said_poolLines hl
  · obtain ⟨group, -, hl⟩ := List.mem_flatMap.mp h
    exact said_groupLines hl

theorem Call.said (configs : Int → Option Config) (c : Call) : ∀ l ∈ c.lines configs, l.Said := by
  intro l hl
  rcases List.mem_append.mp hl with hl | hl
  · cases hcfg : configs c.vrfId with
    | none =>
      rw [hcfg] at hl
      cases hl
    | some cfg =>
      rw [hcfg, Option.elim_some, dhcpVrfClear] at hl
      obtain ⟨pool, -, rfl⟩ := List.mem_map.mp hl
      trivial
  · cases hcfg : c.config with
    | none =>
      rw [hcfg] at hl
      cases hl
    | some cfg =>
      rw [hcfg] at hl
      exact said_lines hl

theorem Call.step_lines {accept : Line → Bool} (s : State) (c : Call) :
    (s.step accept c).candidate = exec accept s.candidate (c.lines s.etcdVrfMap) := by
  rw [step_candidate, Call.lines, cleared]
  cases s.etcdVrfMap c.vrfId with
  | none => rfl
  | some cfg => exact List.foldl_append.symm

/-- The lines of a configuration have no white space in their words. -/
def Config.Worded (cfg : Config) : Prop := ∀ l ∈ cfg.lines, l.Worded

theorem Call.worded {configs : Int → Option Config} {c : Call}
    (hold : ∀ cfg, configs c.vrfId = some cfg → cfg.Worded)
    (hnew : ∀ cfg, c.config = some cfg → cfg.Worded) :
    ∀ l ∈ c.lines configs, l.Worded := by
  intro l hl
  rcases List.mem_append.mp hl with hl | hl
  · cases hcfg : configs c.vrfId with
    | none =>
      rw [hcfg] at hl
      cases hl
    | some cfg =>
      rw [hcfg, Option.elim_some, dhcpVrfClear] at hl
      obtain ⟨pool, hpool, rfl⟩ := List.mem_map.mp hl
      -- The words are those of the line that has made the pool.
      refine hold cfg hcfg (.create (.pool pool.interface)) (List.mem_append_left _ ?_)
      exact List.mem_flatMap.mpr ⟨pool, hpool, by simp [poolLines]⟩
  · cases hcfg : c.config with
    | none =>
      rw [hcfg] at hl
      cases hl
    | some cfg =>
      rw [hcfg] at hl
      exact hnew cfg hcfg l hl

/-- The lines of calls, one call after the other. -/
def execCalls (env : Env) (ent : OpenConfigd.Entry) (configs : Int → Option Config)
    (root : OpenConfigd.Config) : List Call → Option OpenConfigd.Config
  | [] => some root
  | c :: calls =>
    ((c.lines configs).foldlM (fun root (l : Line) => l.exec env ent root) root).bind fun root =>
      execCalls env ent (Function.update configs c.vrfId c.config) root calls

/-- Calls leave the tree with what `State.step` says. -/
theorem Refines.calls (hc : Commands env ent) {s : State} {calls : List Call}
    (h : Refines env ent root s.candidate) (hold : ∀ v cfg, s.etcdVrfMap v = some cfg → cfg.Worded)
    (hnew : ∀ c ∈ calls, ∀ cfg, c.config = some cfg → cfg.Worded)
    (he : execCalls env ent s.etcdVrfMap root calls = some tree) :
    Refines env ent tree (calls.foldl (State.step (accepts env ent)) s).candidate := by
  induction calls generalizing root s with
  | nil =>
    cases he
    exact h
  | cons c calls ih =>
    obtain ⟨root', hl, he⟩ := Option.bind_eq_some_iff.mp he
    have hc' := hnew c List.mem_cons_self
    have hlines := h.lines hc (c.said s.etcdVrfMap) (Call.worded (hold c.vrfId) hc') hl
    rw [← Call.step_lines] at hlines
    refine ih hlines (fun v cfg hv => ?_) (fun x hx => hnew x (List.mem_cons_of_mem _ hx)) he
    have hmap : (s.step (accepts env ent) c).etcdVrfMap =
        Function.update s.etcdVrfMap c.vrfId c.config := rfl
    by_cases hvc : v = c.vrfId
    · subst hvc
      rw [hmap, Function.update_self] at hv
      exact hc' cfg hv
    · rw [hmap, Function.update_of_ne hvc] at hv
      exact hold v cfg hv

theorem Refines.empty : Refines env ent {} fun _ => none := by
  refine ⟨.empty, fun e => iff_of_false ?_ (by simp), fun e words value _ => iff_of_false ?_ (by simp)⟩
  · exact Config.not_shows_empty (by cases e <;> exact List.cons_ne_nil _ _) _
  · exact Config.not_shows_empty (by cases e <;> exact List.cons_ne_nil _ _) _

/-- After a run of calls the tree has what is in the candidate. -/
theorem Refines.after (hc : Commands env ent) {calls : List Call}
    (hw : ∀ c ∈ calls, ∀ cfg, c.config = some cfg → cfg.Worded)
    (he : execCalls env ent (fun _ => none) {} calls = some tree) :
    Refines env ent tree (after (accepts env ent) calls).candidate :=
  Refines.calls (s := {}) hc Refines.empty nofun hw he

/-! ## A schema with the commands -/

/-- The list of the pools, as far as the lines are about it. -/
def dhcpIpPool : OpenConfigd.Entry :=
  listOf "dhcp-ip-pool" "ip-pool-name" [
    leafOf "ip-pool-name" { kind := .string },
    leafOf "interface" { kind := .string },
    leafOf "subnet" { kind := .string },
    leafOf "gateway-ip" { kind := .string },
    leafOf "default-lease-time"
      { kind := .uint32, range := [⟨⟨.positive, 180, 0⟩, ⟨.positive, 31536000, 0⟩⟩] },
    leafOf "max-lease-time"
      { kind := .uint32, range := [⟨⟨.positive, 180, 0⟩, ⟨.positive, 31536000, 0⟩⟩] },
    listOf "host" "host-name" [
      leafOf "host-name" { kind := .string },
      leafOf "mac-address" { kind := .string },
      leafOf "ip-address" { kind := .string }],
    listOf "range" "range-index" [
      leafOf "range-index" { kind := .uint16, range := [⟨⟨.positive, 0, 0⟩, ⟨.positive, 255, 0⟩⟩] },
      leafOf "range-start-ip" { kind := .string },
      leafOf "range-end-ip" { kind := .string }],
    containerOf "option" [
      leafOf "domain-name" { kind := .string },
      listOf "domain-name-servers" "server" [leafOf "server" { kind := .string }],
      listOf "ntp-servers" "server" [leafOf "server" { kind := .string }],
      leafOf "tftp-server-name" { kind := .string },
      listOf "voip-tftp-servers" "server" [leafOf "server" { kind := .string }],
      listOf "sip-servers" "server" [leafOf "server" { kind := .string }],
      listOf "classless-routes" "prefix" [
        leafOf "prefix" { kind := .string },
        leafOf "nexthop" { kind := .string }],
      leafOf "time-offset" { kind := .int32 }],
    leafOf "failover-role" { kind := .string },
    leafOf "failover-peer-address" { kind := .string }]

/-- The list of the relay groups. -/
def serverGroup : OpenConfigd.Entry :=
  listOf "server-group" "server-group-name" [
    leafOf "server-group-name" { kind := .string },
    listOf "server-address" "address" [leafOf "address" { kind := .string }]]

/-- The part of the schema that the lines are about. -/
def dhcpSchema : OpenConfigd.Entry :=
  { name := "", kind := .directory, dir := [
    containerOf "dhcp" [containerOf "server" [dhcpIpPool], containerOf "relay" [serverGroup]]] }

theorem dhcpSchema_pool (name : String) :
    (Cursor.root dhcpSchema).follow .ascii (Entry.pool name).loc =
      some ⟨dhcpIpPool, .stateKeyMatched, 0⟩ := rfl

theorem dhcpSchema_group (name : String) :
    (Cursor.root dhcpSchema).follow .ascii (Entry.group name).loc =
      some ⟨serverGroup, .stateKeyMatched, 0⟩ := rfl

/-- What is said of a pool or group is a place below it. -/
theorem dhcpSchema_place {e : Entry} {cur cur' : Cursor} {words : List String} {vals : List String}
    (he : (Cursor.root dhcpSchema).follow .ascii e.loc = some cur)
    (hw : cur.follow .ascii (wordsLoc words) = some cur') (hends : cur'.Ends vals) :
    LinePlace .ascii dhcpSchema (e.loc ++ wordsLoc words) vals := by
  refine ⟨?_, cur', by rw [Cursor.follow_append he, hw], hends⟩
  cases e <;> exact List.cons_ne_nil _ _

theorem dhcpSchema_simple : dhcpSchema.All Entry.Simple := by
  decide

theorem dhcpSchema_alone (e : Entry) : (Cursor.root dhcpSchema).alone .ascii e.loc = true := by
  cases e <;> rfl

theorem dhcpSchema_commands : Commands .ascii dhcpSchema where
  finds := nofun
  simple := dhcpSchema_simple
  line l hl := by
    cases l with
    | delete e | create e =>
      cases e with
      | pool name => exact ⟨List.cons_ne_nil _ _, _, dhcpSchema_pool name, .inr ⟨rfl, .inl rfl⟩⟩
      | group name => exact ⟨List.cons_ne_nil _ _, _, dhcpSchema_group name, .inr ⟨rfl, .inl rfl⟩⟩
    | set e words value =>
      cases hl with
      | server hl => fin_cases hl <;> exact dhcpSchema_place (dhcpSchema_pool _) rfl (.inr ⟨rfl, .inl rfl⟩)
      | address => exact dhcpSchema_place (dhcpSchema_group _) rfl (.inr ⟨rfl, .inl rfl⟩)
      | route => exact dhcpSchema_place (dhcpSchema_pool _) rfl (.inl ⟨rfl, _, rfl⟩)
      | leaf hl | range hl | host hl | option hl =>
        fin_cases hl <;> exact dhcpSchema_place (dhcpSchema_pool _) rfl (.inl ⟨rfl, _, rfl⟩)
  alone := dhcpSchema_alone

end OpenConfigd.Vrf.Dhcp
