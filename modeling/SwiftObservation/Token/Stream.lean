import SwiftObservation.Token.Lexeme

/-!
# The tokens of a source

A source is cut into leading trivia, lexeme and trailing trivia, over and over, until only trivia is left, which
the token at the end of the file carries. A byte order mark at the very beginning counts as leading trivia.
-/

namespace SwiftObservation

/-- Why a source has no tokens, with the position the fault is about. -/
inductive LexError where
  | unterminatedComment (position : Position)
  | unterminatedString (position : Position)
  | unterminatedInterpolation (position : Position)
  | tooDeep
deriving DecidableEq, Repr

namespace LexError

/-- The fault of a scanner that was started at `p` in front of the text. -/
def ofFault (p : Position) (s : Text) : ScanFault → LexError
  | .unterminatedComment offset => unterminatedComment (p.advance offset s)
  | .unterminatedString offset => unterminatedString (p.advance offset s)
  | .unterminatedInterpolation offset => unterminatedInterpolation (p.advance offset s)
  | .tooDeep => tooDeep

def message : LexError → Text
  | unterminatedComment _ => "Unterminated block comment".toList
  | unterminatedString _ => "Unterminated string".toList
  | unterminatedInterpolation _ => "Unterminated string interpolation".toList
  | tooDeep => "Nesting too deep to convert".toList

def position? : LexError → Option Position
  | unterminatedComment p | unterminatedString p | unterminatedInterpolation p => some p
  | tooDeep => none

end LexError

namespace Token

def byteOrderMark : Char := '\ufeff'

/-- How much of a byte order mark opens the source. -/
def markLength (source : Text) : Nat := if source.head? == some byteOrderMark then 1 else 0

/-- What is cut off the front of a text: the end of the file, or a token together with the text and the position
behind it. -/
inductive Cut (s : Text) where
  | last (token : Token)
  | more (token : Token) (rest : Text) (position : Position) (shorter : rest.length < s.length)

/-- The token whose lexeme begins with `c` at `p`, and how many characters of the rest it takes with its trailing
trivia. -/
def withTrailing (limit : Nat) (leading : Text) (p : Position) (c : Char) (rest : Text) :
    Except LexError (Token × Nat) :=
  match Lexeme.scan limit c rest with
  | .error fault => .error (.ofFault p (c :: rest) fault)
  | .ok (kind, n) =>
    match Trivia.trailingLength (rest.drop n) with
    | .error fault => .error (.ofFault p (c :: rest) (fault.shift (n + 1)))
    | .ok m =>
      .ok ({ kind, text := c :: rest.take n, leading, trailing := (rest.drop n).take m, position := p }, n + m)

theorem drop_length_lt {s rest : Text} {c : Char} {n : Nat} (h : s.drop n = c :: rest) (m : Nat) :
    (rest.drop m).length < s.length := by
  have same := congrArg List.length h
  simp only [List.length_drop, List.length_cons] at same ⊢
  omega

/-- The next token of the text that begins at `p`. The first `skip` characters are leading trivia whatever they
are. -/
def cut (limit skip : Nat) (p : Position) (s : Text) : Except LexError (Cut s) :=
  match Trivia.leadingLength (s.drop skip) with
  | .error fault => .error (.ofFault p s (fault.shift skip))
  | .ok n =>
    let leading := s.take (skip + n)
    let q := p.advance (skip + n) s
    match behind : s.drop (skip + n) with
    | [] => .ok (.last { kind := .endOfFile, text := [], leading, position := q })
    | c :: rest =>
      match withTrailing limit leading q c rest with
      | .error e => .error e
      | .ok (token, m) =>
        .ok (.more token (rest.drop m) (q.advance (m + 1) (c :: rest)) (drop_length_lt behind m))

/-- The tokens from a position on, in front of which the given tokens, the last one first, have been cut off. -/
def streamFrom (limit skip : Nat) (done : List Token) (p : Position) (s : Text) : Except LexError (List Token) :=
  match cut limit skip p s with
  | .error e => .error e
  | .ok (.last token) => .ok (token :: done).reverse
  | .ok (.more token rest q _) => streamFrom limit 0 (token :: done) q rest
termination_by s.length
decreasing_by assumption

/-- All tokens of a source, the end of the file last. At most `limit` string literals may be open at once. -/
def stream (limit : Nat) (source : Text) : Except LexError (List Token) :=
  streamFrom limit (markLength source) [] .start source

end Token

end SwiftObservation
