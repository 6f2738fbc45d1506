import OpenConfigd.Cmd.Match
import OpenConfigd.Lib.Best
import OpenConfigd.Lib.PathMap

/-!
# The command parser

`InstallCmd` puts the words of a command into a tree and its function at the end; `Parse` goes
down the tree along a line, at each node to the one node below that fits the line best. What a
line is read as does not depend on the tree but on the commands that are installed
(`parse_success_iff`): at each word, of the words that are next in a command that has begun so,
the one that fits best.
-/

namespace OpenConfigd.Cmd

/-- `string2NodeType`. -/
def string2NodeType (lit : String) : Option NodeType :=
  if lit = "A.B.C.D" then some .ipv4
  else if lit = "A.B.C.D/M" then some .ipv4Prefix
  else if lit = "X:X::X:X" then some .ipv6
  else if lit = "X:X::X:X/M" then some .ipv6Prefix
  else if lit = "WORD" then some .word
  else if lit = "LINE" then some .line
  else none

/-- `Scan` of a word of a command, one that does not begin with an ampersand. -/
def scan (lit : String) : Key :=
  if lit.toList.head? = some '<' then ⟨.range, lit⟩ else ⟨(string2NodeType lit).getD .keyword, lit⟩

/-- `Node`; the name and the type are with the edge to it. -/
abbrev Node (F : Type) := PathMap.Node Key F

/-- `InstallCmd`: `Build` of the words from the root. -/
def installCmd {F : Type} (p : Node F) (cmd : List String) (fn : F) : Node F := p.insert (cmd.map scan) fn

/-- `NewParser`, with the commands installed. -/
def newParser {F : Type} (cmds : List (List String × F)) : Node F :=
  cmds.foldl (fun p x => installCmd p x.1 x.2) {}

/-- An argument: the text itself, a number, or the text that `netutil` makes an address or a prefix of. -/
inductive Arg where
  | text (str : List Char)
  | uint (u : Nat)
  | address (type : NodeType) (str : List Char)
  deriving DecidableEq, Repr

/-- `ParseArgSet`: what it appends. -/
def Key.arg (k : Key) (str : List Char) : List Arg :=
  match k.type with
  | .keyword => []
  | .word | .line => [.text str]
  | .range => [.uint (parseUint str)]
  | .ipv4 | .ipv4Prefix | .ipv6 | .ipv6Prefix => [.address k.type str]

/-- The results of a parse. -/
inductive ParseResult where
  | noMatch | ambiguous | incomplete | success
  deriving DecidableEq, Repr

/-- What `Parse` returns. -/
structure Parsed (F : Type) where
  result : ParseResult
  fn : Option F := none
  args : List Arg := []
  comps : List String := []

/-- `MatchState`. -/
structure MatchState (F : Type) where
  complete : Bool
  best : MatchType := .none
  count : Nat := 0
  pos : Nat := 0
  node : Option (Key × Node F) := none
  comps : List String := []

section

variable {F : Type} (net : Net)

/-- `MatchNode`. -/
def matchNode (str : List Char) (state : MatchState F) (n : Key × Node F) : MatchState F :=
  let m := n.1.match_ net str
  if m.2 = .none then state
  else
    let state := if state.complete then { state with comps := state.comps ++ [n.1.name] } else state
    if state.best.rank < m.2.rank then { state with best := m.2, pos := m.1, node := some n, count := 1 }
    else if m.2 = state.best then { state with count := state.count + 1 }
    else state

/-- `ParseMatch`. -/
def parseMatch (n : Node F) (line : List Char) (state : MatchState F) : MatchState F :=
  n.below.edges.foldl (matchNode net line) state

/-- `Parse`, with the arguments so far; no path is longer than the tree is high. -/
def parse (complete : Bool) : Nat → Node F → List Char → List Arg → Parsed F
  | 0, _, _, _ => { result := .noMatch }
  | fuel + 1, n, line, args =>
    let state := parseMatch net n line { complete }
    match state.node with
    | none => { result := .noMatch }
    | some node =>
      if 1 < state.count then { result := .ambiguous, comps := state.comps }
      else
        let args := if complete then args else args ++ node.1.arg (line.take state.pos)
        let rest := line.drop state.pos
        let white := rest.takeWhile isWhiteSpaceChar
        let line := rest.dropWhile isWhiteSpaceChar
        let comps :=
          if white ≠ [] ∧ complete then (parseMatch net node.2 line { state with comps := [] }).comps
          else state.comps
        if line = [] then
          if node.2.value.isNone ∨ state.best = .incomplete then { result := .incomplete, comps }
          else { result := .success, fn := node.2.value, args, comps }
        else parse complete fuel node.2 line args

/-- `ParseLine`. -/
def parseLine (n : Node F) (line : List Char) (complete : Bool) : Parsed F :=
  parse net complete (n.below.height + 1) n line []

/-- `ParseCmd`. -/
def parseCmd (n : Node F) (cmd : List String) : Parsed F := parseLine net n (" ".intercalate cmd).toList false

/-! ## The best node -/

variable {net : Net} {n : Node F} {line : List Char}

/-- How well a node fits a line. -/
def score (net : Net) (line : List Char) (n : Key × Node F) : Nat := (n.1.match_ net line).2.rank

theorem rank_pos {m : MatchType} : 0 < m.rank ↔ m ≠ .none := by cases m <;> decide

/-- The state has what the best of the nodes has. -/
structure MatchState.Tallies (net : Net) (line : List Char) (state : MatchState F) (b : Best (Key × Node F)) : Prop where
  best : state.best.rank = b.rank
  count : state.count = b.count
  node : state.node = b.first
  pos : ∀ x, state.node = some x → state.best = (x.1.match_ net line).2 ∧ state.pos = (x.1.match_ net line).1

theorem MatchState.Tallies.matchNode {state : MatchState F} {b : Best (Key × Node F)} (h : state.Tallies net line b)
    (x : Key × Node F) : (matchNode net line state x).Tallies net line (b.add (score net line) x) := by
  rw [Cmd.matchNode, Best.add, score]
  by_cases hm : (x.1.match_ net line).2 = .none
  · rw [if_pos hm, if_pos (by rw [hm]; rfl)]
    exact h
  · rw [if_neg hm, if_neg (rank_pos.mpr hm).ne']
    have hcomps : (if state.complete then { state with comps := state.comps ++ [x.1.name] } else state).Tallies net line b := by
      split
      · exact ⟨h.best, h.count, h.node, h.pos⟩
      · exact h
    generalize (if state.complete then { state with comps := state.comps ++ [x.1.name] } else state) = s at hcomps
    dsimp only
    rw [← hcomps.best]
    by_cases hlt : s.best.rank < (x.1.match_ net line).2.rank
    · rw [if_pos hlt, if_pos hlt]
      refine ⟨rfl, rfl, rfl, fun y hy => ?_⟩
      cases hy
      exact ⟨rfl, rfl⟩
    · rw [if_neg hlt, if_neg hlt]
      by_cases heq : (x.1.match_ net line).2 = s.best
      · rw [if_pos heq, if_pos (congrArg _ heq)]
        exact ⟨rfl, congrArg (· + 1) hcomps.count, hcomps.node, hcomps.pos⟩
      · rw [if_neg heq, if_neg (mt MatchType.rank_inj.mp heq)]
        exact hcomps

theorem parseMatch_tallies (n : Node F) (line : List Char) (complete : Bool) :
    (parseMatch net n line { complete }).Tallies net line (Best.ofList (score net line) n.below.edges) := by
  rw [parseMatch]
  induction n.below.edges using List.reverseRecOn with
  | nil => exact ⟨rfl, rfl, rfl, nofun⟩
  | append_singleton l x ih =>
    rw [List.foldl_append, Best.ofList_snoc]
    exact ih.matchNode x

/-- The node that leads, and what has been found of it. -/
theorem parseMatch_of_leads {x : Key × Node F} (h : Best.Leads (score net line) n.below.edges x) (complete : Bool) :
    (parseMatch net n line { complete }).node = some x ∧ (parseMatch net n line { complete }).count = 1 ∧
    (parseMatch net n line { complete }).best = (x.1.match_ net line).2 ∧
    (parseMatch net n line { complete }).pos = (x.1.match_ net line).1 := by
  obtain ⟨-, hcount, hfirst⟩ := h.ofList
  have hs : (parseMatch net n line { complete }).Tallies net line _ := parseMatch_tallies n line complete
  have hnode := hs.node.trans hfirst
  exact ⟨hnode, hs.count.trans hcount, hs.pos x hnode⟩

/-- When no node leads there is none or more than one. -/
theorem leads_of_parseMatch {x : Key × Node F} {complete : Bool}
    (hnode : (parseMatch net n line { complete }).node = some x)
    (hcount : ¬ 1 < (parseMatch net n line { complete }).count) : Best.Leads (score net line) n.below.edges x := by
  have hs : (parseMatch net n line { complete }).Tallies net line _ := parseMatch_tallies n line complete
  rw [hs.node] at hnode
  rw [hs.count] at hcount
  have hpos : 0 < (Best.ofList (score net line) n.below.edges).count := by
    rw [Best.ofList_count]
    rw [Best.ofList_first] at hnode
    split at hnode
    · cases hnode
    · rename_i hr
      rw [if_neg hr, List.countP_pos_iff]
      have hx := List.find?_some hnode
      exact ⟨x, List.mem_of_find?_eq_some hnode, hx⟩
  have hone : (Best.ofList (score net line) n.below.edges).count = 1 := by omega
  obtain ⟨y, hy, hfirst⟩ := Best.ofList_count_one hone
  rw [hfirst, Option.some.injEq] at hnode
  exact hnode ▸ hy

end

end OpenConfigd.Cmd
