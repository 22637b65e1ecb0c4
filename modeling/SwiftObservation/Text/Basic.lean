/-!
# Text as a list of code points

All texts of the library are lists of code points: offsets, columns and lengths count code points, and cutting a text is
`List.take` and `List.drop`. Strings are met only at the boundary.

Texts are ordered code point by code point, and lists of texts text by text; a text comes after its beginnings. For showing
differences a text is cut into lines behind every character that ends a line or a paragraph; a carriage return and a line
feed side by side end a line together. Every line keeps what ends it, so the lines of a text are the text.
-/

namespace SwiftObservation

/-- A text is the list of its code points. -/
abbrev Text := List Char

namespace Text

/-- A table of code points is a list of closed intervals. -/
abbrev Intervals := List (Nat × Nat)

/-- The code point of the character lies in one of the intervals. -/
def inIntervals (intervals : Intervals) (c : Char) : Bool :=
  intervals.any fun interval => interval.1 ≤ c.toNat && c.toNat ≤ interval.2

/-- The two characters that end a line by themselves. -/
def isLineBreak (c : Char) : Bool := c == '\n' || c == '\r'

/-- A line ends somewhere in the text. -/
def hasLineBreak (s : Text) : Bool := s.any isLineBreak

/-- The text with the trailing characters of a class cut off. -/
def dropEndWhile (p : Char → Bool) (s : Text) : Text := (s.reverse.dropWhile p).reverse

/-- The length of the longest beginning of the text made of characters of a class. -/
def runLength (p : Char → Bool) (s : Text) : Nat := (s.takeWhile p).length

/-- The next character, if there is one, belongs to a class. -/
def startsWith (p : Char → Bool) : Text → Bool
  | [] => false
  | c :: _ => p c

/-! ### Integers in decimal -/

/-- The decimal digits of a natural number. -/
def ofNat (n : Nat) : Text := Nat.toDigits 10 n

/-- An integer in decimal. -/
def ofInt : Int → Text
  | .ofNat n => ofNat n
  | .negSucc n => '-' :: ofNat (n + 1)

/-! ### The order of texts -/

/-- The first text comes before the second or is the same. -/
def le : Text → Text → Bool
  | [], _ => true
  | _ :: _, [] => false
  | a :: as, b :: bs => if a == b then le as bs else a.toNat < b.toNat

/-- The first list of texts comes before the second or is the same. -/
def listLE : List Text → List Text → Bool
  | [], _ => true
  | _ :: _, [] => false
  | a :: as, b :: bs => if a == b then listLE as bs else le a b

/-! ### Lines -/

/-- The characters that end a line: line feed, vertical tab, form feed, carriage return, the separators of files,
groups and records, the next-line control, and the line and paragraph separators. -/
def endsLine (c : Char) : Bool :=
  c == '\n' || c == '\r' || c == '\x0b' || c == '\x0c' || c == '\x1c' || c == '\x1d' || c == '\x1e' ||
    c == '\u0085' || c == '\u2028' || c == '\u2029'

/-- The lines of a text behind the given lines and the beginning of a line, both kept last first. -/
def linesFrom (line : Text) (done : List Text) : Text → List Text
  | [] => (if line.isEmpty then done else line.reverse :: done).reverse
  | '\r' :: '\n' :: rest => linesFrom [] (('\n' :: '\r' :: line).reverse :: done) rest
  | c :: rest =>
    if endsLine c then linesFrom [] ((c :: line).reverse :: done) rest else linesFrom (c :: line) done rest

/-- The lines of a text, each with what ends it. -/
def lines (s : Text) : List Text := linesFrom [] [] s

end Text

end SwiftObservation
