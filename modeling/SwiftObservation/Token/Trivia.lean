import SwiftObservation.Token.Basic

/-!
# White space and comments

Trivia is a sequence of pieces: single white space characters, line comments up to their line break, and block
comments, which nest. Leading trivia runs over line breaks, trailing trivia stops in front of one. Scanners say
how many characters a piece takes, so that what they take and what they leave is always the text itself.
-/

namespace SwiftObservation

/-- Why a text has no tokens. Offsets count from where the scanner was started. -/
inductive ScanFault where
  /-- The block comment that begins at the offset has no end. -/
  | unterminatedComment (offset : Nat)
  /-- The string literal that begins at the offset has no end. -/
  | unterminatedString (offset : Nat)
  /-- An interpolation of the string literal that begins at the offset has no end. -/
  | unterminatedInterpolation (offset : Nat)
  /-- String literals stand inside one another beyond the limit. -/
  | tooDeep
deriving DecidableEq, Repr

namespace ScanFault

/-- The fault as seen by a scanner that was started `n` characters earlier. -/
def shift (n : Nat) : ScanFault → ScanFault
  | unterminatedComment offset => unterminatedComment (n + offset)
  | unterminatedString offset => unterminatedString (n + offset)
  | unterminatedInterpolation offset => unterminatedInterpolation (n + offset)
  | tooDeep => tooDeep

end ScanFault

namespace Trivia

/-- White space that does not end a line. -/
def isInlineSpace (c : Char) : Bool := c == ' ' || c == '\t' || c == '\x0c' || c == '\x0b'

/-- The length of a block comment whose first `n` characters are behind and which is `depth` openers deep;
nothing if it never ends. -/
def blockCommentFrom : (depth n : Nat) → Text → Option Nat
  | _, _, [] => none
  | depth, n, '/' :: '*' :: rest => blockCommentFrom (depth + 1) (n + 2) rest
  | depth, n, '*' :: '/' :: rest => if depth ≤ 1 then some (n + 2) else blockCommentFrom (depth - 1) (n + 2) rest
  | depth, n, _ :: rest => blockCommentFrom depth (n + 1) rest

def blockComment? (s : Text) : Option Nat := blockCommentFrom 0 0 s

/-- The length of the trivia piece that opens the text, less one; nothing if the text opens with no trivia. Line
breaks are pieces of leading trivia only. -/
def piece? (acrossLines : Bool) (c : Char) (rest : Text) : Except ScanFault (Option Nat) :=
  if isInlineSpace c || (acrossLines && Text.isLineBreak c) then .ok (some 0)
  else if c == '/' && rest.head? == some '/' then .ok (some (Text.runLength (!Text.isLineBreak ·) rest))
  else if c == '/' && rest.head? == some '*' then
    match blockComment? (c :: rest) with
    | some n => .ok (some (n - 1))
    | none => .error (.unterminatedComment 0)
  else .ok none

/-- The length of the trivia that opens the text, `n` characters of which are behind. -/
def lengthFrom (acrossLines : Bool) (n : Nat) : Text → Except ScanFault Nat
  | [] => .ok n
  | c :: rest =>
    match piece? acrossLines c rest with
    | .error fault => .error (fault.shift n)
    | .ok none => .ok n
    | .ok (some k) => lengthFrom acrossLines (n + k + 1) (rest.drop k)
termination_by s => s.length
decreasing_by simp only [List.length_cons, List.length_drop]; omega

def leadingLength (s : Text) : Except ScanFault Nat := lengthFrom true 0 s

/-- The length of the trivia behind a token, on the token's own line. -/
def trailingLength (s : Text) : Except ScanFault Nat := lengthFrom false 0 s

end Trivia

end SwiftObservation
