import SwiftObservation.Token.Basic

/-!
# Trivia that changes hands

When a token goes, the trivia in front of it moves in front of the next one. `mergeLeading` joins the two so that no
line with nothing but white space is left behind; comments are always kept.
-/

namespace SwiftObservation.Trivia

/-- The white space that indents a line. -/
def isIndent (c : Char) : Bool := c == ' ' || c == '\t'

/-- The text without the line break at its end, if it has one. -/
def dropLineBreak (s : Text) : Text :=
  match s.reverse with
  | '\n' :: '\r' :: rest => rest.reverse
  | '\n' :: rest => rest.reverse
  | '\r' :: rest => rest.reverse
  | _ => s

/-- The leading trivia of a token that takes the place of a removed one. If the token starts a line of its own, the
last line break and the indentation in front of the removed token go. -/
def mergeLeading (removed following : Text) : Text :=
  if following.hasLineBreak then dropLineBreak (removed.dropEndWhile isIndent) ++ following
  else removed ++ following

def lastLine (s : Text) : Text := (s.reverse.takeWhile (!Text.isLineBreak ·)).reverse

/-- The indentation that the trivia ends with: what stands behind its last line break, if only white space does. -/
def indentation (s : Text) : Text := if (lastLine s).all isIndent then lastLine s else []

/-- A carriage return and a line feed stand side by side in the text. -/
def hasPairedBreak : Text → Bool
  | '\r' :: '\n' :: _ => true
  | _ :: rest => hasPairedBreak rest
  | [] => false

/-- The line break to write in a text: the pair where the text has one, and a line feed elsewhere. -/
def lineEnding (s : Text) : Text := if hasPairedBreak s then ['\r', '\n'] else ['\n']

end SwiftObservation.Trivia
