import OpenConfigd.Config.Text
import OpenConfigd.Yang.Parse

/-!
# Loading a saved configuration

The lexer of `load.go` and `LoadConfig`. The lexer is a state machine on
characters: each of its state functions either takes the next character or hands
over to `lexText`, which looks at it again. `lex` lists the items it sends on its
channel; when the list ends without `itemEOF` or `itemError`, the lexer is in an
endless loop and so is `LoadConfig`.
-/

namespace OpenConfigd

/-- The items `LoadConfig` tells apart. -/
inductive Item where
  | itemError | itemEOF | itemWhiteSpace | itemLeftBrace | itemRightBrace | itemSemiColon
  | itemString (val : List Char)
  | itemIdentifier (val : List Char)
  deriving DecidableEq, Repr

/-- The states of the lexer; `lexString` after a backslash, and before the last hex
digits of a code point, is a state of its own. -/
inductive LexState where
  | lexText | lexIdentifier | lexWhiteSpace | lexCommentLine | lexString | escape
  | unicode (digits : Nat)
  deriving DecidableEq, Repr

section

variable (env : Env)

/-- `isIdentifierPart`. -/
def isIdentifierPart (c : Char) : Bool :=
  env.isLetter c || env.isDigit c || c == '.' || c == '/' || c == '-' || c == ':' || c == '_'

/-- `lexText` at a character; `next` is the lexer after it. -/
def lexText (c : Char) (next : LexState → List Char → List Item) : List Item :=
  if c = '"' then next .lexString [c]
  else if c = '{' then .itemLeftBrace :: next .lexText []
  else if c = '}' then .itemRightBrace :: next .lexText []
  else if c = ';' then .itemSemiColon :: next .lexText []
  else if c = '#' then next .lexCommentLine [c]
  else if isSpace c then next .lexWhiteSpace [c]
  else if isIdentifierPart env c then next .lexIdentifier [c]
  else [.itemError]

/-- The escapes of `lexString`. -/
def escapes : List Char := ['"', '\\', '/', 'b', 'f', 'n', 'r', 't']

/-- The constant of that name. -/
def hexdigit : List Char := "0123456789ABDEFabcdef".toList

/-- The items the lexer sends from a state on, with the characters of the item so far. -/
def lex : LexState → List Char → List Char → List Item
  | .lexText, _, [] => [.itemEOF]
  | .lexIdentifier, buf, [] => [.itemIdentifier buf, .itemEOF]
  | .lexWhiteSpace, _, [] => [.itemWhiteSpace, .itemEOF]
  -- It looks for the end of the line and stays at the end of the input.
  | .lexCommentLine, _, [] => []
  | .lexString, _, [] | .escape, _, [] | .unicode _, _, [] => [.itemError]
  | state, buf, c :: cs =>
    let next : LexState → List Char → List Item := fun state buf => lex state buf cs
    match state with
    | .lexText => lexText env c next
    | .lexIdentifier =>
      if isIdentifierPart env c then next .lexIdentifier (buf ++ [c])
      else .itemIdentifier buf :: lexText env c next
    | .lexWhiteSpace =>
      if isSpace c then next .lexWhiteSpace (buf ++ [c]) else .itemWhiteSpace :: lexText env c next
    | .lexCommentLine =>
      if c ≠ '\n' then next .lexCommentLine (buf ++ [c]) else .itemWhiteSpace :: lexText env c next
    | .lexString =>
      if c = '"' then .itemString (buf ++ [c]) :: next .lexText []
      else if c = '\\' then next .escape (buf ++ [c])
      else if isControl c then [.itemError]
      else next .lexString (buf ++ [c])
    | .escape =>
      if escapes.contains c then next .lexString (buf ++ [c])
      else if c = 'u' then next (.unicode 4) (buf ++ [c])
      else next .lexString (buf ++ [c])
    | .unicode digits =>
      if hexdigit.contains c then
        next (if digits ≤ 1 then .lexString else .unicode (digits - 1)) (buf ++ [c])
      else [.itemError]

/-- The loop of `LoadConfig`: whether it returns without an error, and the tree.
A run that panics or does not end is `none`. -/
def loadItems (ent : Entry) :
    List Item → List (List String) → List String → Config → Option (Bool × Config)
  | [], _, _, _ => none
  | .itemEOF :: _, _, _, root => some (true, root)
  | .itemError :: _, _, _, root => some (false, root)
  | .itemWhiteSpace :: items, s, a, root => loadItems ent items s a root
  | .itemIdentifier val :: items, s, a, root => loadItems ent items s (a ++ [String.ofList val]) root
  | .itemString val :: items, s, a, root =>
    loadItems ent items s (a ++ [String.ofList ((env.unquote val).getD val)]) root
  | .itemLeftBrace :: items, s, a, root => loadItems ent items (s ++ [a]) [] root
  | .itemRightBrace :: items, s, a, root => loadItems ent items s.dropLast a root
  | .itemSemiColon :: items, s, a, root =>
    (parse env ent root (s ++ [a]).flatten).bind fun r => loadItems ent items s [] r.tree

/-- `LoadConfig`. -/
def loadConfig (ent : Entry) (root : Config) (text : List Char) : Option (Bool × Config) :=
  loadItems env ent (lex env .lexText [] text) [] [] root

end

end OpenConfigd
