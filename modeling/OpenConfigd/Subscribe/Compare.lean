import OpenConfigd.Config.Mandatory
import OpenConfigd.Config.Text

/-!
# From two trees to commands

What `Commit` does before it turns to the subscribers: it writes the commands of
the active and the candidate tree to files, runs `diff` on them, and reads the
commands back from its output.
-/

namespace OpenConfigd

/-- `Command`. -/
structure Command where
  set : Bool
  cmds : List String
  deriving DecidableEq, Repr

/-- `strings.Fields`. -/
def fields (s : List Char) : List (List Char) := (s.splitOnP isSpace).filter fun f => !f.isEmpty

/-- The bytes of a text in UTF-8. -/
def byteLength (s : List Char) : Nat := (s.map Char.utf8Size).sum

/-- `bufio.dropCR`. -/
def dropCR (line : List Char) : List Char :=
  if line.getLast? = some '\r' then line.dropLast else line

/-- The lines a `bufio.Scanner` yields: it gives up at a line of 64 KiB. -/
def scanLines (text : List Char) : List (List Char) :=
  let pieces := text.splitOn '\n'
  let lines := if pieces.getLast? = some [] then pieces.dropLast else pieces
  (lines.takeWhile fun l => byteLength l < 65536).map dropCR

section

variable (env : Env)

/-- `UnQuote`, of one token. -/
def unQuote (arg : List Char) : List Char := (env.unquote arg).getD arg

/-- `NewCommand`. -/
def newCommand (line : List Char) : Option Command :=
  match line with
  | [] => none
  | c :: _ =>
    let cmds := ((fields line).drop 1).map fun f => String.ofList (unQuote env f)
    if c = '+' then some ⟨true, cmds⟩
    else if c = '-' then some ⟨false, cmds⟩
    else none

/-- `CompareCommand`. `diff` is the output of `diff -U 65535` on the two files, or
`none` when it finds no difference. -/
def compareCommand (diff : List Char → List Char → Option (List Char)) (active candidate : Config) :
    Option (List Char) := do
  let old ← active.writeCommandTo env
  let new ← candidate.writeCommandTo env
  match diff old new with
  | none => return []
  | some out =>
    let lines := out.splitOn '\n'
    let lines := if 3 < lines.length then lines.drop 3 else lines
    return lines.flatMap fun l => l ++ ['\n']

/-- The commands that `Commit` reads from the lines of `CompareCommand`. -/
def changeCommands (diff : List Char → List Char → Option (List Char)) (active candidate : Config) :
    Option (List Command) :=
  (compareCommand env diff active candidate).map fun text =>
    (scanLines text).filterMap (newCommand env)

/-- The commands `Commit` registers: none when a mandatory node is missing. -/
def commitCommands (diff : List Char → List Char → Option (List Char)) (active candidate : Config) :
    Option (List Command) :=
  match candidate.mandatoryCheck with
  | some _ => some []
  | none => changeCommands env diff active candidate

end

end OpenConfigd
