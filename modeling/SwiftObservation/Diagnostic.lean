import SwiftObservation.Text.Position

/-!
# Diagnostics

A diagnostic says what is wrong and where. Any part of the place may be unknown; what is known is written in front
of the severity and the message, divided by colons.
-/

namespace SwiftObservation

/-- How bad a problem is, by name. -/
structure Severity where
  name : Text
deriving DecidableEq, Repr

/-- A problem that does not keep a file from being converted. -/
def Severity.warning : Severity := ⟨"warning".toList⟩

/-- A problem that does. -/
def Severity.error : Severity := ⟨"error".toList⟩

/-- The kind of a problem, by name. -/
structure ProblemCode where
  name : Text
deriving DecidableEq, Repr

namespace ProblemCode

/-- A candidate for an observable class is a generic parameter. -/
def ambiguousGeneric : ProblemCode := ⟨"ambiguous-generic".toList⟩

/-- A text cannot be parsed. -/
def parseFailure : ProblemCode := ⟨"parse-failure".toList⟩

/-- A tree cannot be migrated. -/
def migrationFailure : ProblemCode := ⟨"rewrite-failure".toList⟩

/-- A file cannot be read. -/
def readFailure : ProblemCode := ⟨"read-failure".toList⟩

/-- A file cannot be written. -/
def writeFailure : ProblemCode := ⟨"write-failure".toList⟩

end ProblemCode

/-- A problem and the place it was found at. -/
structure Diagnostic where
  severity : Severity
  code : ProblemCode
  message : Text
  path : Option Text := none
  line : Option Int := none
  column : Option Int := none
deriving DecidableEq, Repr

namespace Diagnostic

/-- The diagnostic keeps its file from being converted. -/
def isError (d : Diagnostic) : Bool := d.severity == .error

/-- The parts of the place that are known, divided by colons. -/
def location (d : Diagnostic) : Text :=
  [':'].intercalate (d.path.toList ++ (d.line.toList ++ d.column.toList).map Text.ofInt)

/-- The diagnostic in one line. -/
def render (d : Diagnostic) : Text :=
  (if d.location.isEmpty then [] else d.location ++ ": ".toList) ++ d.severity.name ++ ": ".toList ++ d.message

/-- The diagnostic at a position, if there is one. -/
def placed (d : Diagnostic) (p : Option Position) : Diagnostic :=
  { d with line := p.map (·.line), column := p.map (·.column) }

end Diagnostic

end SwiftObservation
