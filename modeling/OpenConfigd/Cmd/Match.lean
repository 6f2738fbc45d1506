import OpenConfigd.Yang.Match

/-!
# Matching a line against a node of the command parser

The `Match*` functions of the command parser: how well the beginning of a line fits a node, and
where the line goes on. A match of a keyword by its whole name is the best one, and no two
names have one on a line (`matchKeyword_eq_exact_iff`).
-/

namespace OpenConfigd.Cmd

/-- The `NodeType`s of the nodes that are installed by words. -/
inductive NodeType where
  | keyword | ipv4 | ipv4Prefix | ipv6 | ipv6Prefix | word | line | range
  deriving DecidableEq, Repr

/-- `MatchType`. -/
inductive MatchType where
  | none | incomplete | line | word | ipv6 | ipv6Prefix | ipv4 | ipv4Prefix | range | partial_ | exact
  deriving DecidableEq, Repr

/-- The value of a `MatchType`. -/
def MatchType.rank : MatchType → Nat
  | none => 0
  | incomplete => 1
  | line => 2
  | word => 3
  | ipv6 => 4
  | ipv6Prefix => 5
  | ipv4 => 6
  | ipv4Prefix => 7
  | range => 8
  | partial_ => 9
  | exact => 10

theorem MatchType.rank_inj {a b : MatchType} : a.rank = b.rank ↔ a = b := by
  cases a <;> cases b <;> decide

/-- `net.ParseIP`: whether a text is an address, and one that `To4` has a form of. -/
structure Net where
  parseIP : List Char → Option Bool

/-- `MatchKeyword`. -/
def matchKeyword (str name : List Char) : Nat × MatchType :=
  let pos := longestCommon str name
  if !isDelimiter str pos then (pos, .none)
  else if isDelimiter name pos then (pos, .exact)
  else (pos, .partial_)

/-- The characters of a line before the first white space. -/
def firstWord (str : List Char) : List Char := str.takeWhile fun c => !isWhiteSpaceChar c

/-- `MatchWord`. -/
def matchWord (str : List Char) : Nat × MatchType :=
  let pos := (firstWord str).length
  if pos = 0 then (pos, .none) else (pos, .word)

/-- `MatchLine`. -/
def matchLine (str : List Char) : Nat × MatchType :=
  let pos := str.length
  if pos = 0 then (pos, .none) else (pos, .line)

/-- The number of a text of digits. -/
def digitsValue (digits : List Char) : Nat := digits.foldl (fun n c => 10 * n + (c.toNat - '0'.toNat)) 0

/-- The loop of `MatchIPv4`; `digits` are those of the number that it is in. -/
def ipv4Loop (pos dots nums : Nat) (digits : List Char) : List Char → Nat × MatchType
  | [] => ipv4End
  | c :: str =>
    if c = '.' then if 3 < dots then (pos, .none) else ipv4Loop (pos + 1) (dots + 1) nums [] str
    else if isWhiteSpaceChar c then ipv4End
    else if !c.isDigit || 255 < digitsValue (digits ++ [c]) then (pos, .none)
    else ipv4Loop (pos + 1) dots (if digits = [] then nums + 1 else nums) (digits ++ [c]) str
where
  /-- What follows the loop. -/
  ipv4End : Nat × MatchType :=
    if 4 < nums ∨ 3 < dots then (pos, .none)
    else if nums < 4 ∨ dots < 3 then (pos, .incomplete)
    else (pos, .ipv4)

/-- `MatchIPv4`. -/
def matchIPv4 (str : List Char) : Nat × MatchType := ipv4Loop 0 0 0 [] str

/-- The loop of `MatchIPv4Prefix` behind the slash. -/
def ipv4PrefixLoop (pos : Nat) (digits : List Char) : List Char → Nat × MatchType
  | [] => if digits = [] then (pos, .incomplete) else (pos, .ipv4Prefix)
  | c :: str =>
    if isWhiteSpaceChar c then if digits = [] then (pos, .incomplete) else (pos, .ipv4Prefix)
    else if !c.isDigit || 32 < digitsValue (digits ++ [c]) then (pos, .none)
    else ipv4PrefixLoop (pos + 1) (digits ++ [c]) str

/-- `MatchIPv4Prefix`. -/
def matchIPv4Prefix (line : List Char) : Nat × MatchType :=
  let p := line.idxOf '/'
  if p = line.length then
    let m := matchIPv4 line
    if m.2 = .none then m else (m.1, .incomplete)
  else
    let m := matchIPv4 (line.take p)
    if m.2 ≠ .ipv4 then m else ipv4PrefixLoop (p + 1) [] (line.drop (p + 1))

/-- `MatchIPv6`. -/
def matchIPv6 (net : Net) (line : List Char) : Nat × MatchType :=
  if line = [] then (0, .incomplete)
  else
    let str := line.takeWhile fun c => "0123456789abcdefABCDEF:.%".toList.contains c
    if str = [] ∨ 46 < str.length then (str.length, .none)
    else
      match net.parseIP str with
      | none => (str.length, .incomplete)
      | some true => (str.length, .none)
      | some false => (str.length, .ipv6)

/-- The loop of `MatchIPv6Prefix` behind the slash. -/
def ipv6PrefixLoop (pos : Nat) (digits : List Char) : List Char → Nat × MatchType
  | [] => if digits = [] then (pos, .incomplete) else (pos, .ipv6Prefix)
  | c :: str =>
    if !c.isDigit then if digits = [] then (pos, .incomplete) else (pos, .ipv6Prefix)
    else if 128 < digitsValue (digits ++ [c]) then (pos, .none)
    else ipv6PrefixLoop (pos + 1) (digits ++ [c]) str

/-- `MatchIPv6Prefix`. -/
def matchIPv6Prefix (net : Net) (line : List Char) : Nat × MatchType :=
  let p := line.idxOf '/'
  if p = line.length then
    let m := matchIPv6 net line
    if m.2 = .none then m else (m.1, .incomplete)
  else
    let m := matchIPv6 net (line.take p)
    if m.2 ≠ .ipv6 then m else ipv6PrefixLoop (p + 1) [] (line.drop (p + 1))

/-- `MatchRange`. -/
def matchRange (line : List Char) (min max : Nat) : Nat × MatchType :=
  let digits := line.takeWhile Char.isDigit
  if digits = [] ∨ 2 ^ 64 ≤ digitsValue digits then (digits.length, .none)
  else if min ≤ digitsValue digits ∧ digitsValue digits ≤ max then (digits.length, .range)
  else (digits.length, .none)

/-- `strconv.ParseUint` without its error. -/
def parseUint (str : List Char) : Nat :=
  if str = [] ∨ str.any fun c => !c.isDigit then 0
  else if 2 ^ 64 ≤ digitsValue str then 2 ^ 64 - 1
  else digitsValue str

/-- What tells the nodes below a node apart: `Type` and `Name`. -/
structure Key where
  type : NodeType
  name : String
  deriving DecidableEq, Repr

/-- The bounds that `NewNodeType` reads from the name of a range. -/
def Key.bounds (k : Key) : Nat × Nat :=
  let lit := k.name.toList
  let p := lit.idxOf '-'
  if k.type ≠ .range ∨ p = lit.length ∨ lit.length ≤ p + 2 then (0, 0)
  else (parseUint ((lit.take p).drop 1), parseUint ((lit.take (lit.length - 1)).drop (p + 1)))

/-- `Match`. -/
def Key.match_ (net : Net) (k : Key) (str : List Char) : Nat × MatchType :=
  match k.type with
  | .keyword => matchKeyword str k.name.toList
  | .word => matchWord str
  | .line => matchLine str
  | .ipv4 => matchIPv4 str
  | .ipv4Prefix => matchIPv4Prefix str
  | .ipv6 => matchIPv6 net str
  | .ipv6Prefix => matchIPv6Prefix net str
  | .range => matchRange str k.bounds.1 k.bounds.2

end OpenConfigd.Cmd
