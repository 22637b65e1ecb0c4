import SwiftObservation.Text.Position

/-!
# Tokens with their trivia

A token owns the white space and the comments around it, so that a list of tokens can be printed back without
loss. `Token.fullText` is the view that the losslessness statements are about.
-/

namespace SwiftObservation

/-- The kinds of tokens. Declaration keywords and brackets have kinds of their own, every other word is an
identifier and every other run of operator characters an operator. -/
inductive TokenKind where
  | number
  | string
  | identifier
  | pound
  | classWord
  | structWord
  | enumWord
  | protocolWord
  | extensionWord
  | varWord
  | letWord
  | leftParen
  | rightParen
  | leftBracket
  | rightBracket
  | leftBrace
  | rightBrace
  | dot
  | comma
  | colon
  | semicolon
  | atSign
  | assign
  | arrow
  | backslash
  | backquote
  | operator
  | endOfFile
deriving DecidableEq, Inhabited, Repr

namespace TokenKind

/-- Identifiers and declaration keywords are words. -/
def isWord : TokenKind → Bool
  | identifier | classWord | structWord | enumWord | protocolWord | extensionWord | varWord | letWord => true
  | _ => false

def declaresType : TokenKind → Bool
  | classWord | structWord | enumWord | protocolWord | extensionWord => true
  | _ => false

def declaresVariable : TokenKind → Bool
  | varWord | letWord => true
  | _ => false

/-- The bracket that closes what an opening bracket opens. -/
def closer? : TokenKind → Option TokenKind
  | leftParen => some rightParen
  | leftBracket => some rightBracket
  | leftBrace => some rightBrace
  | _ => none

def isCloser : TokenKind → Bool
  | rightParen | rightBracket | rightBrace => true
  | _ => false

/-- The kind of a word: the seven declaration keywords have their own, all others are identifiers. -/
def ofWord (word : Text) : TokenKind :=
  if word = "class".toList then classWord
  else if word = "struct".toList then structWord
  else if word = "enum".toList then enumWord
  else if word = "protocol".toList then protocolWord
  else if word = "extension".toList then extensionWord
  else if word = "var".toList then varWord
  else if word = "let".toList then letWord
  else identifier

/-- The kind of a run of operator characters: the dot, the equals sign and the arrow have their own. -/
def ofOperator (run : Text) : TokenKind :=
  if run = ['.'] then dot
  else if run = ['='] then assign
  else if run = ['-', '>'] then arrow
  else operator

/-- The kind of a punctuation mark, if the character is one. -/
def ofPunctuation? : Char → Option TokenKind
  | '(' => some leftParen
  | ')' => some rightParen
  | '[' => some leftBracket
  | ']' => some rightBracket
  | '{' => some leftBrace
  | '}' => some rightBrace
  | ',' => some comma
  | ':' => some colon
  | ';' => some semicolon
  | '@' => some atSign
  | '\\' => some backslash
  | _ => none

end TokenKind

/-- A token: its own text, the trivia before and after it, and where its text begins. -/
structure Token where
  kind : TokenKind
  text : Text
  leading : Text := []
  trailing : Text := []
  position : Position := {}
deriving DecidableEq, Inhabited, Repr

namespace Token

/-- The token as it stands in the source, trivia included. -/
def fullText (t : Token) : Text := t.leading ++ t.text ++ t.trailing

/-- A line break stands before the token, in its own leading trivia. -/
def startsLine (t : Token) : Bool := t.leading.hasLineBreak

def isWord (t : Token) : Bool := t.kind.isWord

def isOneOf (t : Token) (words : List Text) : Bool := t.isWord && words.contains t.text

/-- The token is an identifier spelled like one of the given words. -/
def isName (t : Token) (words : List Text) : Bool := t.kind == .identifier && words.contains t.text

/-- An operator that begins with the given character. -/
def isOperatorFrom (t : Token) (head : Char) : Bool :=
  t.kind == .operator && t.text.startsWith (· == head)

/-- The end of a text that is followed by nothing. -/
def endOfFile : Token := { kind := .endOfFile, text := [] }

/-- The text that a list of tokens stands for. -/
def textOf (tokens : List Token) : Text := tokens.flatMap fullText

@[simp] theorem textOf_nil : textOf [] = [] := rfl

@[simp] theorem textOf_cons (t : Token) (rest : List Token) : textOf (t :: rest) = t.fullText ++ textOf rest := rfl

@[simp] theorem textOf_append (front back : List Token) : textOf (front ++ back) = textOf front ++ textOf back :=
  List.flatMap_append

end Token

end SwiftObservation
