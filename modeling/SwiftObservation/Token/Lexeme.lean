import SwiftObservation.Text.Character
import SwiftObservation.Token.Literal

/-!
# Lexemes

A lexeme is the text of one token. `Lexeme.scan` looks at the first character and answers the kind of the token
and how many further characters belong to it, so a lexeme always has at least one character. Every character
begins some lexeme: one that fits nothing else is an operator of its own.
-/

namespace SwiftObservation.Lexeme

/-- A character that may begin an identifier. -/
def isNameStart (c : Char) : Bool := c == '_' || Text.isLetter c

def isAlphanumeric (c : Char) : Bool := Text.isLetter c || Text.isNumeral c

/-- A character that may continue an identifier. -/
def isNameChar (c : Char) : Bool := c == '_' || isAlphanumeric c

def isDigitChar (c : Char) : Bool := Text.isDigit c || c == '_'

def isOperatorChar (c : Char) : Bool :=
  c == '/' || c == '=' || c == '-' || c == '+' || c == '!' || c == '*' || c == '%' || c == '<' || c == '>' ||
    c == '&' || c == '|' || c == '^' || c == '~' || c == '?' || c == '.'

/-- A sign of an exponent. -/
def isSign (c : Char) : Bool := c == '+' || c == '-'

/-- The length of the rest of a number with a radix mark, `n` characters of it behind. A dot belongs to the number
when a letter or numeral follows it, a sign when it follows the mark of a binary exponent. -/
def radixLengthFrom (n : Nat) : Text → Nat
  | [] => n
  | c :: [] => if isNameChar c then n + 1 else n
  | c :: next :: rest =>
    if c == '.' then if isAlphanumeric next then radixLengthFrom (n + 1) (next :: rest) else n
    else if !isNameChar c then n
    else if (c == 'p' || c == 'P') && isSign next then radixLengthFrom (n + 2) rest
    else radixLengthFrom (n + 1) (next :: rest)

/-- The length of the fraction that opens the text, its dot included. -/
def fractionLength : Text → Nat
  | '.' :: rest => if Text.startsWith Text.isDigit rest then 1 + Text.runLength isDigitChar rest else 0
  | _ => 0

/-- The length of the decimal exponent that opens the text, its mark included. -/
def exponentLength : Text → Nat
  | mark :: next :: rest =>
    if (mark == 'e' || mark == 'E') && (Text.isDigit next || (isSign next && Text.startsWith Text.isDigit rest)) then
      2 + Text.runLength isDigitChar rest
    else 0
  | _ => 0

/-- The length of a number after its first digit. -/
def numberLength (first : Char) (rest : Text) : Nat :=
  if first == '0' && rest.startsWith (fun c => c == 'x' || c == 'b' || c == 'o') then
    1 + radixLengthFrom 0 (rest.drop 1)
  else
    let whole := Text.runLength isDigitChar rest
    let fraction := fractionLength (rest.drop whole)
    whole + fraction + exponentLength (rest.drop (whole + fraction))

/-- The length of the rest of an operator, `n` characters of it behind. Only an operator that begins with a dot
has dots, and no operator runs into a comment. -/
def operatorLengthFrom (dotted : Bool) (n : Nat) : Text → Nat
  | [] => n
  | c :: rest =>
    if !isOperatorChar c || (c == '.' && !dotted) then n
    else if c == '/' && Text.startsWith (fun next => next == '/' || next == '*') rest then n
    else operatorLengthFrom dotted (n + 1) rest

/-- The length of an identifier in backquotes after the first one; nothing if the closing one is missing or stands
behind a line feed. -/
def quotedNameLength? (rest : Text) : Option Nat :=
  let n := rest.runLength (fun c => c != '\x60' && c != '\n')
  if (rest.drop n).head? == some '\x60' then some (n + 1) else none

/-- The kind of the token that begins with the character `c` and how many characters of the rest belong to it. -/
def scan (limit : Nat) (c : Char) (rest : Text) : Except ScanFault (TokenKind × Nat) :=
  if c == '"' || c == '#' then
    match Literal.opening? (c :: rest) with
    | some pounds => do return (.string, (← Literal.length limit pounds (c :: rest)) - 1)
    | none =>
      if rest.startsWith isNameStart then .ok (.pound, rest.runLength isNameChar) else .ok (.operator, 0)
  else if Text.isDigit c then .ok (.number, numberLength c rest)
  else if c == '\x60' then
    match quotedNameLength? rest with
    | some n => .ok (.identifier, n)
    | none => .ok (.backquote, 0)
  else if isNameStart c || (c == '$' && rest.startsWith isNameChar) then
    let n := rest.runLength isNameChar
    .ok (.ofWord (c :: rest.take n), n)
  else if let some kind := TokenKind.ofPunctuation? c then .ok (kind, 0)
  else if isOperatorChar c then
    let n := operatorLengthFrom (c == '.') 0 rest
    .ok (.ofOperator (c :: rest.take n), n)
  else .ok (.operator, 0)

end SwiftObservation.Lexeme
