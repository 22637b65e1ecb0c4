import SwiftObservation.Token.Trivia

/-!
# String literals

A literal is opened by a run of number signs, possibly empty, and one or three quotes, and closed by the same
quotes and number signs. A backslash followed by as many number signs escapes the next character, or opens an
interpolation when that is a parenthesis. Inside an interpolation parentheses are counted, comments are skipped
and literals may stand again, so the scanner keeps a stack of what is open.
-/

namespace SwiftObservation.Literal

/-- Something open at a point of a literal. -/
inductive Frame where
  /-- A literal with its number signs, whether it may run over lines, and the offset where it begins. -/
  | literal (pounds : Nat) (multiline : Bool) (start : Nat)
  /-- An interpolation and how many of its parentheses are open, the first one not counted. -/
  | interpolation (parens : Nat)
deriving DecidableEq, Repr

/-- The quotes that close a literal opened with three quotes or with one. -/
def quotes (multiline : Bool) : Text := if multiline then ['"', '"', '"'] else ['"']

def closing (pounds : Nat) (multiline : Bool) : Text := quotes multiline ++ List.replicate pounds '#'

def escape (pounds : Nat) : Text := '\\' :: List.replicate pounds '#'

/-- The fault of a text that ends while frames are open, the innermost first. -/
def openFault : Frame → List Frame → ScanFault
  | .literal _ _ start, _ => .unterminatedString start
  | .interpolation _, .literal _ _ start :: _ => .unterminatedInterpolation start
  | .interpolation _, _ => .unterminatedInterpolation 0

/-- How many number signs open the literal at the beginning of the text, if one is there. -/
def opening? (s : Text) : Option Nat :=
  let pounds := s.runLength (· == '#')
  if (s.drop pounds).head? == some '"' then some pounds else none

/-- The frame of the literal that begins at the text, and how long its opening is. -/
def opened (pounds start : Nat) (s : Text) : Frame × Nat :=
  let multiline := (quotes true).isPrefixOf (s.drop pounds)
  (.literal pounds multiline start, pounds + (quotes multiline).length)

/-- What a scanner does at a character: go on with the character and `skip` more behind, under the frames that
are then open, or stop with a fault. No frame left means that the literal has ended. -/
abbrev Move := Except ScanFault (Nat × List Frame)

def moveInLiteral (pounds : Nat) (multiline : Bool) (start : Nat) (below : List Frame) (s : Text) (c : Char) : Move :=
  let here := Frame.literal pounds multiline start
  if !multiline && Text.isLineBreak c then .error (.unterminatedString start)
  else if c == '"' && (closing pounds multiline).isPrefixOf s then
    .ok ((closing pounds multiline).length - 1, below)
  else if c == '\\' && (escape pounds).isPrefixOf s then
    if (s.drop (pounds + 1)).head? == some '(' then .ok (pounds + 1, .interpolation 0 :: here :: below)
    else .ok (pounds + 1, here :: below)
  else .ok (0, here :: below)

/-- The move inside an interpolation, `n` characters into the outermost literal. At most `limit` literals may be
open at once. -/
def moveInInterpolation (limit parens n : Nat) (below : List Frame) (s : Text) (c : Char) : Move :=
  let here := Frame.interpolation parens
  if c == '(' then .ok (0, .interpolation (parens + 1) :: below)
  else if c == ')' then
    match parens with
    | 0 => .ok (0, below)
    | parens + 1 => .ok (0, .interpolation parens :: below)
  else if c == '"' || c == '#' then
    match opening? s with
    | some pounds =>
      if 2 * limit ≤ below.length + 1 then .error .tooDeep
      else
        let (frame, length) := opened pounds n s
        .ok (length - 1, frame :: here :: below)
    | none => .ok (0, here :: below)
  else if c == '/' && (s.drop 1).head? == some '*' then
    match Trivia.blockComment? s with
    | some length => .ok (length - 1, here :: below)
    | none => .error (.unterminatedComment n)
  else .ok (0, here :: below)

/-- The move at a character under the innermost open frame. -/
def move (limit n : Nat) (top : Frame) (below : List Frame) (s : Text) (c : Char) : Move :=
  match top with
  | .literal pounds multiline start => moveInLiteral pounds multiline start below s c
  | .interpolation parens => moveInInterpolation limit parens n below s c

/-- The length of a literal of which `n` characters are behind, the next `skip` of the text belong to what was
last seen, and the given frames are open. -/
def lengthFrom (limit : Nat) : (skip n : Nat) → (top : Frame) → (below : List Frame) → Text → Except ScanFault Nat
  | _, _, top, below, [] => .error (openFault top below)
  | skip + 1, n, top, below, _ :: rest => lengthFrom limit skip (n + 1) top below rest
  | 0, n, top, below, c :: rest =>
    match move limit n top below (c :: rest) c with
    | .error fault => .error fault
    | .ok (skip, []) => .ok (n + 1 + skip)
    | .ok (skip, top :: below) => lengthFrom limit skip (n + 1) top below rest

/-- The length of the literal that opens the text after `pounds` number signs. -/
def length (limit pounds : Nat) (s : Text) : Except ScanFault Nat :=
  let (frame, openingLength) := opened pounds 0 s
  lengthFrom limit openingLength 0 frame [] s

end SwiftObservation.Literal
