import SwiftObservation.Grammar.Vocabulary
import SwiftObservation.Tree.Basic

/-!
# A place in a list of tokens

The parser stands between the tokens it has taken and those still to come. The token at the end of the file is
kept apart: it is what the cursor sees when nothing is left, and it is never passed. Tokens behind the first end of
file are out of reach.
-/

namespace SwiftObservation.Grammar

/-- The parser's place and the one thing it remembers: whether it stands between a word such as `if` and the body
that belongs to it. -/
structure Cursor where
  /-- The tokens taken, the last one first. -/
  taken : List Token
  /-- The tokens to come, none of them the end of the file. -/
  upcoming : List Token
  /-- The token at the end of the file. -/
  ending : Token
  inCondition : Bool := false
deriving DecidableEq, Repr

namespace Cursor

/-- The cursor in front of all tokens up to the first end of file, which is supplied when there is none. -/
def ofTokens (tokens : List Token) : Cursor where
  taken := []
  upcoming := tokens.takeWhile (·.kind != .endOfFile)
  ending := (tokens.find? (·.kind == .endOfFile)).getD Token.endOfFile

def peek (c : Cursor) (n : Nat) : Token := c.upcoming.getD n c.ending

def current (c : Cursor) : Token := c.peek 0

/-- The next token and the cursor behind it. The end of the file is not passed. -/
def advance (c : Cursor) : Token × Cursor :=
  match c.upcoming with
  | [] => (c.ending, c)
  | t :: rest => (t, { c with taken := t :: c.taken, upcoming := rest })

/-- Nothing stands between the token last taken and the next one. -/
def attached (c : Cursor) : Bool :=
  c.taken.head?.any (·.trailing.isEmpty) && c.current.leading.isEmpty

/-- A closing bracket or the end of the file comes next. -/
def atBoundary (c : Cursor) : Bool := c.current.kind == .endOfFile || c.current.kind.isCloser

/-- An operator cut behind its first character. -/
def splitToken (t : Token) : Token × Token :=
  ({ t with text := t.text.take 1, trailing := [] },
    { kind := .ofOperator (t.text.drop 1), text := t.text.drop 1, trailing := t.trailing,
      position := ⟨t.position.line, t.position.column + 1⟩ })

/-- The first character of the next operator as a token of its own, and the cursor behind it. -/
def splitOff (c : Cursor) : Token × Cursor :=
  match c.upcoming with
  | [] => (c.ending, c)
  | t :: rest =>
    if t.text.length ≤ 1 then c.advance
    else
      let (first, second) := splitToken t
      (first, { c with taken := first :: c.taken, upcoming := second :: rest })

/-- The cursor moved back to where only as many tokens are taken as at `start`. Operators split in the meantime
stay split. -/
def rewindTo (start c : Cursor) : Cursor :=
  let n := c.taken.length - start.taken.length
  { c with taken := c.taken.drop n, upcoming := (c.taken.take n).reverse ++ c.upcoming }

/-- The token last taken, or the end of the file if none is. -/
def previous (c : Cursor) : Token := c.taken.headD c.ending

/-- A measure of the tokens to come that every token taken lowers and that splitting an operator keeps. -/
def weight (c : Cursor) : Nat := c.upcoming.foldr (fun t n => max 1 t.text.length + n) 0

/-! ### What comes next -/

def atAttribute (c : Cursor) : Bool := c.current.kind == .atSign && (c.peek 1).isWord

/-- A modifier stands at the front of the tokens: a modifier word, or `class` before a member of a class. -/
def startsModifier : List Token → Bool
  | [] => false
  | t :: rest =>
    t.isName modifierWords || (t.kind == .classWord && rest.head?.any (·.isOneOf classMemberWords))

/-- The tokens begin with an identifier in parentheses, as in `private(set)`. -/
def startsDetail : List Token → Bool
  | l :: w :: r :: _ => l.kind == .leftParen && w.kind == .identifier && r.kind == .rightParen
  | _ => false

/-- The modifiers at the front of the tokens, as the number of tokens of each: four with a detail in parentheses,
one without. -/
def modifierLengths : List Token → List Nat
  | [] => []
  | t :: rest =>
    if startsModifier (t :: rest) then
      match rest with
      | l :: w :: r :: more =>
        if startsDetail (l :: w :: r :: more) then 4 :: modifierLengths more
        else 1 :: modifierLengths (l :: w :: r :: more)
      | rest => 1 :: modifierLengths rest
    else []

/-- A declaration that modifiers may precede stands at the front of the tokens. -/
def startsDeclaration : List Token → Bool
  | [] => false
  | t :: _ => t.kind.declaresType || t.kind.declaresVariable || t.isName declarationWords

/-- The modifiers that come next, none if no declaration follows them. -/
def modifierRun (c : Cursor) : List Nat :=
  let lengths := modifierLengths c.upcoming
  if startsDeclaration (c.upcoming.drop (lengths.foldr (· + ·) 0)) then lengths else []

/-- The keyword of a type declaration comes next. `class` is one before an identifier unless it is a modifier, and
`actor` before an identifier on the same line. -/
def atTypeKeyword (c : Cursor) : Bool :=
  if c.current.kind == .classWord then
    (c.peek 1).kind == .identifier && !(c.peek 1).isOneOf classMemberWords
  else
    c.current.kind.declaresType ||
      (c.current.isOneOf (words ["actor"]) && (c.peek 1).kind == .identifier && !(c.peek 1).startsLine)

/-- The next token is an operator spaced alike on both sides, and not the last token. -/
def atBinaryOperator (c : Cursor) : Bool :=
  let spacedBefore := !c.previous.trailing.isEmpty || !c.current.leading.isEmpty
  let spacedAfter := !c.current.trailing.isEmpty || !(c.peek 1).leading.isEmpty
  c.current.kind == .operator && spacedBefore == spacedAfter && (c.peek 1).kind != .endOfFile

/-- The next token is a question or exclamation mark, back to back with the token before it. -/
def atAttachedMark (c : Cursor) : Bool :=
  c.current.kind == .operator && (c.current.text == ['?'] || c.current.text == ['!']) && c.attached

end Cursor

end SwiftObservation.Grammar
