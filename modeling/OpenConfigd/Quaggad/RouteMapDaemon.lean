import OpenConfigd.Lib.Cells
import OpenConfigd.Quaggad.Plain
import OpenConfigd.Quaggad.RouteMapCommit
import OpenConfigd.Quaggad.Rules

/-!
# The route-maps of the routing daemon

What the calls of a commit make of the route-maps of the routing daemon, and what its
route-maps should be for a configuration (`rendered`). Quagga spells some of the commands
otherwise than quaggad does (`routeMapFields_spelled`): those of the next hops, and the one
that removes a prefix-list of route sources. The lines of any other block make its field that
of the candidate (`foldl_spelled`).
-/

namespace OpenConfigd.Quaggad

/-- The commands of Quagga for the fields of a rule, as the templates of `config.go` have
them, in the order of `blocks`. -/
def quaggaCommands : List String := [
  "call", "continue", "match as-path", "match community", "match interface", "match ip address",
  "match ip address prefix-list", "match ip next-hop", "match ip next-hop prefix-list",
  "match ip route-source", "match ip route-source prefix-list", "match ipv6 address",
  "match ipv6 address prefix-list", "match ipv6 next-hop", "match ipv6 next-hop prefix-list",
  "match metric", "match origin", "match peer", "match tag", "on-match goto", "on-match next",
  "set aggregator as", "set as-path prepend", "set atomic-aggregate", "set comm-list",
  "set community", "set ip next-hop", "set ipv6 next-hop global", "set ipv6 next-hop local",
  "set local-preference", "set metric-type", "set metric", "set origin", "set originator-id",
  "set tag", "set weight"]

/-- The fields of a rule: each with its command and the block that commits it. -/
def routeMapFields : List (String × Block) := quaggaCommands.zip blocks

/-- A rule of the daemon: its action, and the arguments of the commands that it has. -/
@[ext]
structure DaemonRule where
  action : String
  fields : String → Option (List String)

/-- The route-maps of the daemon: the rules of a name by their numbers. -/
abbrev RouteMaps := String → String → Option DaemonRule

/-- What the words of a line are to Quagga: a command, or `no` and a command. -/
def readCommand (words : String) : Option (String × Bool) :=
  if words ∈ quaggaCommands then some (words, true)
  else (quaggaCommands.find? fun command => "no " ++ command == words).map fun command => (command, false)

namespace DaemonRule

/-- The line is about the field of a command. -/
def concerns (l : Line) (command : String) : Bool := (readCommand l.command).any fun c => c.1 == command

/-- What a line makes of the field that it is about. -/
def assign (_ : Option (List String)) (l : Line) : Option (List String) :=
  if (readCommand l.command).any (·.2) then some l.args else none

/-- A line below the rule; one that is no command has no effect. -/
def exec (e : DaemonRule) (l : Line) : DaemonRule := { e with fields := Cells.exec concerns assign e.fields l }

/-- The rule is entered. One of another action takes the action on, and begins anew or
(`clears` is false) keeps its fields. -/
def enter (clears : Bool) (action : String) : Option DaemonRule → DaemonRule
  | none => ⟨action, fun _ => none⟩
  | some e =>
    if e.action = action then e
    else if clears then ⟨action, fun _ => none⟩
    else { e with action }

end DaemonRule

namespace RouteMaps

/-- The call is about a rule of a route-map. -/
def concerns (c : RouteMapCall) (at_ : String × String) : Bool :=
  match c with
  | .noRouteMap routeMap => routeMap = at_.1
  | .noRule routeMap rule _ | .rule routeMap rule _ _ => routeMap = at_.1 && rule = at_.2

/-- What a call makes of a rule that it is about. -/
def act (clears : Bool) (e : Option DaemonRule) : RouteMapCall → Option DaemonRule
  | .noRouteMap _ => none
  | .noRule _ _ action => e.filter fun e => e.action ≠ action
  | .rule _ _ action line => some (line.toList.foldl DaemonRule.exec (DaemonRule.enter clears action e))

/-- The route-maps after the calls. -/
def after (clears : Bool) (calls : List RouteMapCall) (d : RouteMaps) : RouteMaps := fun routeMap rule =>
  calls.foldl (Cells.exec concerns (act clears)) (fun at_ => d at_.1 at_.2) (routeMap, rule)

end RouteMaps

/-- The fields of a rule of the configuration. -/
def RouteMapRule.fields (r : RouteMapRule) (command : String) : Option (List String) :=
  (routeMapFields.find? fun f => f.1 == command).bind fun f => f.2.read r

/-- The route-maps of a configuration. -/
def rendered (config : Node) : RouteMaps := fun routeMap rule =>
  (makeQuaggaRouteMapRule config routeMap rule).bind fun r =>
    (r.value ["action"]).map fun action => ⟨action, r.fields⟩

/-- The rules of the route-maps are valid. -/
def RulesValid (go : Go) (config : Node) : Prop :=
  ∀ routeMap ∈ config.values ["policy", "route-map"],
    ∀ rule ∈ config.values ["policy", "route-map", routeMap, "rule"],
      quaggaConfigValidRouteMapRule go config routeMap rule = []

instance (go : Go) (config : Node) : Decidable (RulesValid go config) :=
  inferInstanceAs (Decidable (∀ routeMap ∈ config.values ["policy", "route-map"], ∀ rule ∈ _, _ = []))

/-- The next hops that a rule matches, which Quagga spells otherwise. -/
def nextHops : List (List String) := [
  ["match", "ip", "nexthop", "access-list"], ["match", "ip", "nexthop", "prefix-list"],
  ["match", "ipv6", "nexthop", "access-list"], ["match", "ipv6", "nexthop", "prefix-list"]]

/-- The route sources, which can be set but not removed. -/
def routeSource : List String := ["match", "ip", "route-source", "prefix-list"]

/-- The running rule whose fields the daemon still has when the rule of the candidate has been
entered. -/
def keptRule (clears : Bool) (running : Node) (routeMap rule : String) (r : RouteMapRule) : Option RouteMapRule :=
  (makeQuaggaRouteMapRule running routeMap rule).filter fun old =>
    !clears || old.value ["action"] = r.value ["action"]

/-- A rule of the candidate has the next hops that the daemon keeps, and does not lose a
prefix-list of route sources. -/
def SpelledRule (clears : Bool) (running : Node) (routeMap rule : String) (r : RouteMapRule) : Prop :=
  let kept := keptRule clears running routeMap rule r
  (∀ words ∈ nextHops, kept.bind (·.value words) = r.value words) ∧
    ((kept.bind (·.value routeSource)).isSome → (r.value routeSource).isSome)

instance (clears : Bool) (running : Node) (routeMap rule : String) (r : RouteMapRule) :
    Decidable (SpelledRule clears running routeMap rule r) := by
  unfold SpelledRule
  infer_instance

/-- Quaggad spells the commands that the rules of the candidate need. -/
def Spelled (clears : Bool) (candidate running : Node) : Prop :=
  ∀ routeMap rule r, makeQuaggaRouteMapRule candidate routeMap rule = some r →
    SpelledRule clears running routeMap rule r

/-! ## The commands -/

/-- The block spells its commands as Quagga does. -/
def Block.Spelled (command : String) (b : Block) : Prop :=
  readCommand b.set = some (command, true) ∧ readCommand b.unset = some (command, false)

instance (command : String) (b : Block) : Decidable (b.Spelled command) := by
  unfold Block.Spelled
  infer_instance

/-- The words of the path of a field with a value. -/
def Block.words : Block → List String
  | .value words _ _ => words
  | _ => []

/-- Which blocks do not, and what is left of their commands. -/
theorem routeMapFields_table : ∀ f ∈ routeMapFields,
    (f.2.words ∉ routeSource :: nextHops ∧ f.2.Spelled f.1) ∨
    (f.2.words ∈ nextHops ∧ readCommand f.2.set = none ∧ readCommand f.2.unset = none) ∨
    (f.2.words = routeSource ∧ readCommand f.2.set = some (f.1, true) ∧ readCommand f.2.unset = none) := by
  decide +kernel

theorem quaggaCommands_nodup : quaggaCommands.Nodup := by decide +kernel

theorem exists_mem_routeMapFields : ∀ words ∈ routeSource :: nextHops, ∃ f ∈ routeMapFields, f.2.words = words := by
  decide +kernel

theorem blocks_eq : blocks = routeMapFields.map Prod.snd := (List.map_snd_zip (by decide)).symm

theorem routeMapFields_nodup : (routeMapFields.map Prod.fst).Nodup := by
  rw [routeMapFields, List.map_fst_zip (by decide)]
  exact quaggaCommands_nodup

theorem Block.eq_value {b : Block} (h : b.words ∈ routeSource :: nextHops) :
    b = .value b.words b.set b.unset := by
  have hne : [] ∉ routeSource :: nextHops := by decide
  cases b with
  | value words set unset => rfl
  | flag words set unset => exact absurd h hne
  | list words cond set unset text => exact absurd h hne
  | aggregator as_ ip set unset => exact absurd h hne

theorem routeMapFields_spelled {f : String × Block} (hf : f ∈ routeMapFields) : f.2.Spelled f.1 ∨
    (∃ words ∈ nextHops, f.2 = .value words f.2.set f.2.unset ∧ readCommand f.2.set = none ∧
      readCommand f.2.unset = none) ∨
    (f.2 = .value routeSource f.2.set f.2.unset ∧ readCommand f.2.set = some (f.1, true) ∧
      readCommand f.2.unset = none) := by
  rcases routeMapFields_table f hf with ⟨-, hspelled⟩ | ⟨hw, hread⟩ | ⟨hw, hread⟩
  · exact .inl hspelled
  · exact .inr (.inl ⟨f.2.words, hw, Block.eq_value (List.mem_cons_of_mem _ hw), hread⟩)
  · exact .inr (.inr ⟨hw ▸ Block.eq_value (hw ▸ List.mem_cons_self), hread⟩)

theorem mem_routeMapFields_nextHops {words : List String} (hwords : words ∈ nextHops) :
    ∃ f ∈ routeMapFields, f.2 = .value words f.2.set f.2.unset ∧ readCommand f.2.set = none ∧
      readCommand f.2.unset = none := by
  obtain ⟨f, hf, rfl⟩ := exists_mem_routeMapFields words (List.mem_cons_of_mem _ hwords)
  refine ⟨f, hf, Block.eq_value (List.mem_cons_of_mem _ hwords), ?_⟩
  rcases routeMapFields_table f hf with ⟨hnot, -⟩ | ⟨-, hread⟩ | ⟨hw, -⟩
  · exact absurd (List.mem_cons_of_mem _ hwords) hnot
  · exact hread
  · exact absurd (hw ▸ hwords) (by decide)

theorem mem_routeMapFields_routeSource : ∃ f ∈ routeMapFields, f.2 = .value routeSource f.2.set f.2.unset ∧
    readCommand f.2.set = some (f.1, true) ∧ readCommand f.2.unset = none := by
  obtain ⟨f, hf, hsource⟩ := exists_mem_routeMapFields routeSource List.mem_cons_self
  refine ⟨f, hf, hsource ▸ Block.eq_value (hsource ▸ List.mem_cons_self), ?_⟩
  rcases routeMapFields_table f hf with ⟨hnot, -⟩ | ⟨hw, -⟩ | ⟨-, hread⟩
  · exact absurd (hsource ▸ List.mem_cons_self) hnot
  · exact absurd (hsource ▸ hw) (by decide)
  · exact hread

/-! ## The lines of a block -/

section Block

variable {command : String} {b : Block} {changed : Bool} {old : Option RouteMapRule} {new : RouteMapRule}
  {v : Option (List String)} {words : List String} {set unset : String}

/-- A line as the field of a command sees it. -/
theorem actOn_line (command : String) (v : Option (List String)) (l : Line) :
    Cells.actOn DaemonRule.concerns DaemonRule.assign command v l =
      match readCommand l.command with
      | some (c, sets) => if c = command then if sets then some l.args else none else v
      | none => v := by
  rw [Cells.actOn, DaemonRule.concerns, DaemonRule.assign]
  cases readCommand l.command with
  | none => rfl
  | some c =>
    simp only [Option.any_some, beq_iff_eq]

/-- What the field of a command is when the rule has been entered: that of the running rule, or
nothing when the action has changed. -/
def Entered (changed : Bool) (old v : Option (List String)) : Prop := v = old ∨ changed = true ∧ v = none

theorem actOn_set (hset : readCommand set = some (command, true)) (v : Option (List String)) (args : List String) :
    Cells.actOn DaemonRule.concerns DaemonRule.assign command v ⟨set, args⟩ = some args := by
  rw [actOn_line, hset]
  dsimp only
  rw [if_pos rfl, if_pos rfl]

theorem actOn_unset (hunset : readCommand unset = some (command, false)) (v : Option (List String)) :
    Cells.actOn DaemonRule.concerns DaemonRule.assign command v ⟨unset, []⟩ = none := by
  rw [actOn_line, hunset]
  dsimp only
  rw [if_pos rfl, if_neg Bool.false_ne_true]

/-- A line that is no command has no effect. -/
theorem actOn_unknown {l : Line} (hl : readCommand l.command = none) (command : String) (v : Option (List String)) :
    Cells.actOn DaemonRule.concerns DaemonRule.assign command v l = v := by
  rw [actOn_line, hl]

/-- The lines of a field that is removed, if it may be there, and then set. -/
def replaceLines (set unset : String) (there : Bool) (args : Option (List String)) : List Line :=
  (if there then [⟨unset, []⟩] else []) ++ (args.map fun a => ⟨set, a⟩).toList

theorem lines_list {cond : List String} {text : String} :
    (Block.list words cond set unset text).lines changed old new =
      if !changed && old.any (fun r => r.has cond == new.has cond && r.value words = new.value words) then []
      else replaceLines set unset (old.any fun r => (r.value words).isSome)
        ((Block.list words cond set unset text).read new) := by
  rw [Block.lines, Block.read, replaceLines, Option.map_map]
  rfl

theorem lines_aggregator {as_ ip : List String} :
    (Block.aggregator as_ ip set unset).lines changed old new =
      if !changed && old.any (fun r => r.value as_ = new.value as_ && r.value ip = new.value ip) then []
      else replaceLines set unset (old.any fun r => (r.value as_).isSome && (r.value ip).isSome)
        ((Block.aggregator as_ ip set unset).read new) := by
  rw [Block.lines, Block.read, replaceLines]
  cases new.value as_ <;> cases new.value ip <;> rfl

theorem foldl_replaceLines (hset : readCommand set = some (command, true))
    (hunset : readCommand unset = some (command, false)) {there : Bool} (hv : there = false → v = none)
    (args : Option (List String)) :
    (replaceLines set unset there args).foldl (Cells.actOn DaemonRule.concerns DaemonRule.assign command) v =
      args := by
  have hnone : (if there then [(⟨unset, []⟩ : Line)] else []).foldl
      (Cells.actOn DaemonRule.concerns DaemonRule.assign command) v = none := by
    cases there with
    | false => exact hv rfl
    | true => exact actOn_unset hunset v
  rw [replaceLines, List.foldl_append, hnone]
  cases args with
  | none => rfl
  | some a => exact actOn_set hset none a

theorem mem_replaceLines {there : Bool} {args : Option (List String)} {l : Line}
    (hl : l ∈ replaceLines set unset there args) : l.command = set ∨ l.command = unset := by
  rcases List.mem_append.mp hl with hl | hl
  · cases there with
    | false => cases hl
    | true => exact .inr (by rw [List.mem_singleton.mp hl])
  · obtain ⟨a, -, rfl⟩ := Option.map_eq_some_iff.mp (Option.mem_toList.mp hl)
    exact .inl rfl

theorem Entered.eq_none (hv : Entered changed none v) : v = none := by
  rcases hv with hv | hv
  · exact hv
  · exact hv.2

theorem Entered.eq_old {o : Option (List String)} (hv : Entered false o v) : v = o := by
  rcases hv with hv | hv
  · exact hv
  · cases hv.1

/-- A field that is as in the running rule, which the rule has kept, is left alone. -/
theorem Entered.eq_read {same : RouteMapRule → Bool} (hread : ∀ r, same r = true → b.read r = b.read new)
    (hsame : (!changed && old.any same) = true) (hv : Entered changed (old.bind fun r => b.read r) v) :
    v = b.read new := by
  rw [Bool.and_eq_true, Bool.not_eq_true'] at hsame
  obtain ⟨rfl, hold⟩ := hsame
  cases old with
  | none => cases hold
  | some r => rw [hv.eq_old, Option.bind_some, hread r hold]

/-- A field that the running rule does not have is not there. -/
theorem Entered.eq_none_of_any {there : RouteMapRule → Bool} (hread : ∀ r, there r = false → b.read r = none)
    (hv : Entered changed (old.bind fun r => b.read r) v) (hold : old.any there = false) : v = none := by
  cases old with
  | none => exact hv.eq_none
  | some r =>
    rw [Option.bind_some, hread r hold] at hv
    exact hv.eq_none

/-- A block that spells its commands as Quagga does makes the field that of the candidate. -/
theorem foldl_spelled (hb : b.Spelled command) (hv : Entered changed (old.bind fun r => b.read r) v) :
    (b.lines changed old new).foldl (Cells.actOn DaemonRule.concerns DaemonRule.assign command) v =
      b.read new := by
  obtain ⟨hset, hunset⟩ := hb
  cases b with
  | value words set unset =>
    have hold : (old.bind fun r => (Block.value words set unset).read r) =
        (old.bind (·.value words)).map fun v => [v] := by cases old <;> rfl
    rw [hold] at hv
    rw [Block.lines, Block.read]
    generalize old.bind (·.value words) = o at hv ⊢
    generalize new.value words = w
    split_ifs with hsame hgone
    · simp only [Bool.and_eq_true, Bool.not_eq_true', decide_eq_true_eq] at hsame
      obtain ⟨⟨rfl, -⟩, rfl⟩ := hsame
      exact hv.eq_old
    · rw [Bool.and_eq_true, Option.isNone_iff_eq_none] at hgone
      rw [hgone.2]
      exact actOn_unset hunset v
    · cases w with
      | some x => exact actOn_set hset v [x]
      | none =>
        cases o with
        | some x => exact absurd rfl hgone
        | none => exact hv.eq_none
  | flag words set unset =>
    rw [Block.lines]
    by_cases hsame : (!changed && old.any fun r => r.has words == new.has words) = true
    · rw [if_pos hsame]
      refine hv.eq_read (fun r hr => ?_) hsame
      rw [Block.read, Block.read, eq_of_beq hr]
    · rw [if_neg hsame, Block.read]
      cases hnew : new.has words with
      | true =>
        rw [Bool.not_true, Bool.and_false]
        exact actOn_set hset v []
      | false =>
        rw [Bool.not_false, Bool.and_true]
        cases hold : old.any (·.has words) with
        | true => exact actOn_unset hunset v
        | false => exact hv.eq_none_of_any (fun r hr => by rw [Block.read, hr]; rfl) hold
  | list words cond set unset text =>
    rw [lines_list]
    by_cases hsame : (!changed && old.any fun r => r.has cond == new.has cond &&
        r.value words = new.value words) = true
    · rw [if_pos hsame]
      refine hv.eq_read (fun r hr => ?_) hsame
      rw [Bool.and_eq_true, beq_iff_eq, decide_eq_true_eq] at hr
      rw [Block.read, Block.read, hr.1, hr.2]
    · rw [if_neg hsame]
      refine foldl_replaceLines hset hunset (hv.eq_none_of_any fun r hr => ?_) _
      rw [Block.read, Option.isNone_iff_eq_none.mp (Option.isSome_eq_false_iff.mp hr), Option.map_none]
  | aggregator as_ ip set unset =>
    rw [lines_aggregator]
    by_cases hsame : (!changed && old.any fun r => r.value as_ = new.value as_ && r.value ip = new.value ip) = true
    · rw [if_pos hsame]
      refine hv.eq_read (fun r hr => ?_) hsame
      rw [Bool.and_eq_true, decide_eq_true_eq, decide_eq_true_eq] at hr
      rw [Block.read, Block.read, hr.1, hr.2]
    · rw [if_neg hsame]
      refine foldl_replaceLines hset hunset (hv.eq_none_of_any fun r hr => ?_) _
      rw [Block.read]
      cases has : r.value as_ with
      | none => rfl
      | some a =>
        cases hip : r.value ip with
        | none => rfl
        | some i =>
          rw [has, hip] at hr
          cases hr

/-- Lines that are no commands leave the field as it is. -/
theorem foldl_unknown (hset : readCommand set = none) (hunset : readCommand unset = none) :
    ((Block.value words set unset).lines changed old new).foldl
      (Cells.actOn DaemonRule.concerns DaemonRule.assign command) v = v := by
  rw [Block.lines]
  split_ifs
  · rfl
  · exact actOn_unknown hunset command v
  · cases new.value words with
    | none => rfl
    | some x => exact actOn_unknown hset command v

/-- A field that can be set and not removed. -/
theorem foldl_setOnly (hset : readCommand set = some (command, true)) (hunset : readCommand unset = none)
    (hv : Entered changed (old.bind fun r => (Block.value words set unset).read r) v) :
    ((Block.value words set unset).lines changed old new).foldl
        (Cells.actOn DaemonRule.concerns DaemonRule.assign command) v = (Block.value words set unset).read new ↔
      (v.isSome → (new.value words).isSome) := by
  have hold : (old.bind fun r => (Block.value words set unset).read r) =
      (old.bind (·.value words)).map fun v => [v] := by cases old <;> rfl
  rw [hold] at hv
  rw [Block.lines, Block.read]
  generalize old.bind (·.value words) = o at hv ⊢
  cases new.value words with
  | some w =>
    refine ⟨fun _ _ => rfl, fun _ => ?_⟩
    split_ifs with hsame hgone
    · simp only [Bool.and_eq_true, Bool.not_eq_true', decide_eq_true_eq] at hsame
      obtain ⟨⟨rfl, -⟩, rfl⟩ := hsame
      exact hv.eq_old
    · rw [Option.isNone_some, Bool.and_false] at hgone
      cases hgone
    · exact actOn_set hset v [w]
  | none =>
    -- nothing is sent that counts
    have hkeep : (if (!changed && o.isSome && decide (o = none)) = true then []
        else if (o.isSome && (none : Option String).isNone) = true then [(⟨unset, []⟩ : Line)]
        else ((none : Option String).map fun v => ⟨set, [v]⟩).toList).foldl
          (Cells.actOn DaemonRule.concerns DaemonRule.assign command) v = v := by
      split_ifs
      · rfl
      · exact actOn_unknown hunset command v
      · rfl
    rw [hkeep]
    cases v with
    | none => exact ⟨fun _ h => h, fun _ => rfl⟩
    | some a => exact ⟨nofun, fun h => absurd (h rfl) Bool.false_ne_true⟩

end Block

/-! ## The lines of a rule -/

section Rule

variable {clears changed : Bool} {action command routeMap rule : String} {new r : RouteMapRule}
  {old kept : Option RouteMapRule}

/-- An entry is found by its key where all keys are different. -/
theorem find?_of_nodup {β : Type} {l : List (String × β)} (h : (l.map Prod.fst).Nodup) {f : String × β}
    (hf : f ∈ l) : l.find? (fun g => g.1 == f.1) = some f := by
  induction l with
  | nil => cases hf
  | cons g l ih =>
    obtain ⟨hg, hl⟩ := List.nodup_cons.mp h
    rcases List.mem_cons.mp hf with rfl | hf
    · exact List.find?_cons_of_pos (beq_self_eq_true _)
    · have hne : g.1 ≠ f.1 := fun heq => hg (heq ▸ List.mem_map_of_mem hf)
      rw [List.find?_cons_of_neg (by simpa using hne), ih hl hf]

/-- A rule has the field of a block. -/
theorem fields_of_mem {f : String × Block} (hf : f ∈ routeMapFields) (r : RouteMapRule) :
    r.fields f.1 = f.2.read r := by
  rw [RouteMapRule.fields, find?_of_nodup routeMapFields_nodup hf, Option.bind_some]

theorem fields_of_not_mem (hc : command ∉ routeMapFields.map Prod.fst) (r : RouteMapRule) :
    r.fields command = none := by
  have hfind : routeMapFields.find? (fun g => g.1 == command) = none := by
    refine List.find?_eq_none.mpr fun g hg h => hc ?_
    rw [← eq_of_beq h]
    exact List.mem_map_of_mem hg
  rw [RouteMapRule.fields, hfind, Option.bind_none]

/-- The lines of a block are of its two commands. -/
theorem mem_lines {b : Block} {l : Line} (hl : l ∈ b.lines changed old new) :
    l.command = b.set ∨ l.command = b.unset := by
  cases b with
  | value words set unset =>
    rw [Block.lines] at hl
    split_ifs at hl
    · cases hl
    · exact .inr (by rw [List.mem_singleton.mp hl]; rfl)
    · obtain ⟨v, -, rfl⟩ := Option.map_eq_some_iff.mp (Option.mem_toList.mp hl)
      exact .inl rfl
  | flag words set unset =>
    rw [Block.lines] at hl
    split_ifs at hl
    · cases hl
    · exact .inr (by rw [List.mem_singleton.mp hl]; rfl)
    · exact .inl (by rw [List.mem_singleton.mp hl]; rfl)
    · cases hl
  | list words cond set unset text =>
    rw [lines_list] at hl
    split at hl
    · cases hl
    · exact mem_replaceLines hl
  | aggregator as_ ip set unset =>
    rw [lines_aggregator] at hl
    split at hl
    · cases hl
    · exact mem_replaceLines hl

/-- The lines of a block are about its field. -/
theorem owner_lines : ∀ f ∈ routeMapFields, ∀ l ∈ f.2.lines changed old new, ∀ command,
    DaemonRule.concerns l command = true → command = f.1 := by
  intro f hf l hl command hcommand
  have hread : readCommand l.command = some (f.1, true) ∨ readCommand l.command = some (f.1, false) ∨
      readCommand l.command = none := by
    rcases mem_lines hl with h | h <;> rw [h]
    · rcases routeMapFields_table f hf with ⟨-, hset, -⟩ | ⟨-, hset, -⟩ | ⟨-, hset, -⟩
      · exact .inl hset
      · exact .inr (.inr hset)
      · exact .inl hset
    · rcases routeMapFields_table f hf with ⟨-, -, hunset⟩ | ⟨-, -, hunset⟩ | ⟨-, -, hunset⟩
      · exact .inr (.inl hunset)
      · exact .inr (.inr hunset)
      · exact .inr (.inr hunset)
  rcases hread with h | h | h <;> rw [DaemonRule.concerns, h] at hcommand
  · exact (eq_of_beq hcommand).symm
  · exact (eq_of_beq hcommand).symm
  · cases hcommand

theorem foldl_exec_action (lines : List Line) (e : DaemonRule) :
    (lines.foldl DaemonRule.exec e).action = e.action := by
  induction lines generalizing e with
  | nil => rfl
  | cons l lines ih => rw [List.foldl_cons, ih, DaemonRule.exec]

theorem foldl_exec_fields (lines : List Line) (e : DaemonRule) :
    (lines.foldl DaemonRule.exec e).fields = lines.foldl (Cells.exec DaemonRule.concerns DaemonRule.assign) e.fields := by
  induction lines generalizing e with
  | nil => rfl
  | cons l lines ih => rw [List.foldl_cons, List.foldl_cons, ih, DaemonRule.exec]

/-- The lines of all blocks do to a field what those of its block do. -/
theorem foldl_blocks {f : String × Block} (hf : f ∈ routeMapFields) (v : Option (List String)) :
    (blocks.flatMap (Block.lines changed old new)).foldl (Cells.actOn DaemonRule.concerns DaemonRule.assign f.1) v =
      (f.2.lines changed old new).foldl (Cells.actOn DaemonRule.concerns DaemonRule.assign f.1) v := by
  have howner : ∀ f ∈ routeMapFields, ∀ l ∈ f.2.lines changed old new, ∀ command,
      DaemonRule.concerns l command = true → id command = f.1 := owner_lines
  rw [blocks_eq, List.flatMap_map]
  exact Cells.foldl_flatMap_of_mem howner routeMapFields_nodup hf rfl v

/-- And nothing to what is no field. -/
theorem foldl_blocks_of_not_mem (hc : command ∉ routeMapFields.map Prod.fst) (v : Option (List String)) :
    (blocks.flatMap (Block.lines changed old new)).foldl (Cells.actOn DaemonRule.concerns DaemonRule.assign command) v =
      v := by
  have howner : ∀ f ∈ routeMapFields, ∀ l ∈ f.2.lines changed old new, ∀ command,
      DaemonRule.concerns l command = true → id command = f.1 := owner_lines
  rw [blocks_eq, List.flatMap_map]
  exact Cells.foldl_flatMap_of_not_mem howner (fun f hf (h : f.1 = command) => hc (h ▸ List.mem_map_of_mem hf)) v

end Rule

end OpenConfigd.Quaggad
