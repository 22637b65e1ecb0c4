import SwiftObservation.Text.Utf8

/-!
# Paths

A path is a list of names, taken from the working directory or, if it begins with a slash, from the root. Empty names
and single dots are dropped when a path is read; two dots stay, because where they lead is known only on the way.
-/

namespace SwiftObservation

/-- A path as it was written, without the names that say nothing. -/
structure Path where
  /-- The slashes that a path from the root begins with: one, or two if it was written with exactly two. -/
  root : Text := []
  names : List Text
deriving DecidableEq, Repr

namespace Path

def pieces : Text → List Text
  | [] => [[]]
  | c :: rest =>
    if c == '/' then [] :: pieces rest
    else
      match pieces rest with
      | piece :: more => (c :: piece) :: more
      | [] => [[c]]

def ofText (s : Text) : Path where
  root :=
    match s.runLength (· == '/') with
    | 0 => []
    | 2 => ['/', '/']
    | _ => ['/']
  names := (pieces s).filter fun name => name != [] && name != ['.']

/-- The path as it is printed. The working directory itself is a dot. -/
def text (p : Path) : Text :=
  if p.root.isEmpty && p.names.isEmpty then ['.'] else p.root ++ ['/'].intercalate p.names

def below (p : Path) (names : List Text) : Path := { p with names := p.names ++ names }

def name (p : Path) : Text := p.names.getLastD []

/-- A path with a null character denotes nothing. -/
def hasNull (p : Path) : Bool := p.text.contains '\x00'

end Path

end SwiftObservation
