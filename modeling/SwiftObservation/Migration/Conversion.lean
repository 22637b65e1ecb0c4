import SwiftObservation.Grammar.SourceFile
import SwiftObservation.Migration.Evidence
import SwiftObservation.Migration.Rules
import SwiftObservation.Patch.Unified
import SwiftObservation.Token.Stream

/-!
# The conversion of a source

A source is read into a tree, the tree gives evidence for observable classes, and the tree migrated with these names
is printed. Reading and migrating both fail on sources nested too deep, each with a diagnostic of its own.
-/

namespace SwiftObservation

/-- How deep a source may be nested. -/
structure Limits where
  /-- How many string literals may be open at once. -/
  literals : Nat
  /-- How deep items and types may stand inside one another. -/
  items : Nat
  /-- How many nodes a tree that is migrated may be deep. -/
  nodes : Nat

/-- The limits in force. -/
def Limits.standard : Limits := { literals := 490, items := 250, nodes := 490 }

/-- Why a source has no tree. -/
inductive ReadError where
  | lexical (e : LexError)
  | grammatical (e : ParseError)
deriving DecidableEq, Repr

namespace ReadError

def message : ReadError → Text
  | lexical e => e.message
  | grammatical e => e.message

def position? : ReadError → Option Position
  | lexical e => e.position?
  | grammatical e => e.position?

end ReadError

/-- The tree of a source. -/
def Tree.ofSource (limits : Limits) (source : Text) : Except ReadError Tree :=
  match Token.stream limits.literals source with
  | .error e => .error (.lexical e)
  | .ok tokens =>
    match Tree.ofTokens limits.items tokens with
    | .error e => .error (.grammatical e)
    | .ok t => .ok t

/-- A source, what it was converted to, and what was found out on the way. -/
structure Conversion where
  source : Text
  output : Text
  names : List Text := []
  diagnostics : List Diagnostic := []

namespace Conversion

/-- The conversion made a difference. -/
def isChanged (c : Conversion) : Bool := c.output != c.source

/-- What a difference calls a text: its path, or a word in its place when it has none. -/
def nameFor (path : Option Text) : Text :=
  match path with
  | none | some [] => "<source>".toList
  | some path => path

/-- What the conversion changed, as a unified difference. -/
def diff (c : Conversion) (path : Option Text) : Text := Patch.unified (nameFor path) c.source c.output

/-- The diagnostic of a source that cannot be read. -/
def readDiagnostic (path : Option Text) (e : ReadError) : Diagnostic :=
  Diagnostic.placed { severity := .error, code := .parseFailure, message := e.message, path } e.position?

/-- The diagnostic of a tree that is too deep to be migrated. -/
def depthDiagnostic (path : Option Text) : Diagnostic :=
  { severity := .error, code := .migrationFailure, message := "Nesting too deep to convert".toList, path }

/-- Converts a source. The path is only named in diagnostics. -/
def ofSource (limits : Limits) (path : Option Text) (source : Text) : Except Diagnostic Conversion :=
  match Tree.ofSource limits source with
  | .error e => .error (readDiagnostic path e)
  | .ok t =>
    let names := Migration.inferredNames t
    match Migration.migrate? limits.nodes names t with
    | none => .error (depthDiagnostic path)
    | some migrated =>
      .ok { source, output := migrated.text, names, diagnostics := Migration.warnings path t }

end Conversion

end SwiftObservation
