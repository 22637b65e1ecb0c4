import SwiftObservation.Batch.Basic
import SwiftObservation.Command.Arguments
import SwiftObservation.Store.Search

/-!
# Running the command

The paths of a command line are expanded to files, the files are converted as a batch, and the batch is reported:
diagnostics go to the error output, differences and the paths of converted files to the standard output.
-/

namespace SwiftObservation.Command

/-- The ending of the files that are converted in directories. -/
def sourceEnding : Text := ".swift".toList

/-- Why paths have no files. -/
inductive ExpandError where
  | usage (e : UsageError)
  | fault (f : PathFault)
deriving DecidableEq, Repr

/-- The files that one path stands for: a file for itself, a directory for the sources below it. -/
def expand (store : Store) (argument : Text) : Except ExpandError (List Path) :=
  let path := Path.ofText argument
  if path.hasNull then .error (.usage (.missing argument))
  else
    match store.find path with
    | .ok (.file _) => .ok [path]
    | .ok .directory =>
      match store.filesBelow sourceEnding path <$> store.locate path with
      | .ok (.ok found) => .ok found
      | .ok (.error unreachable) => .error (.fault (.unreachable unreachable.text .nameTooLong))
      | .error _ => .ok []
    | .error .nameTooLong => .error (.fault (.unreachable path.text .nameTooLong))
    | .error _ => .error (.usage (.missing argument))

def expandAll (store : Store) : List Text → Except ExpandError (List Path)
  | [] => .ok []
  | argument :: rest =>
    match expand store argument with
    | .error e => .error e
    | .ok found =>
      match expandAll store rest with
      | .error e => .error e
      | .ok more => .ok (found ++ more)

/-- What is printed to the standard output and to the error output. -/
structure Printed where
  out : Text := []
  err : Text := []

/-- A text with the line feed that ends a printed line. -/
def line (s : Text) : Text := s ++ ['\n']

def usageReport (e : UsageError) : Printed := { err := line e.message ++ line usage }

/-- What is printed to the standard output about a file. -/
def fileReport (quiet : Bool) (r : FileResult) : Text :=
  if !r.diff.isEmpty then r.diff
  else if r.status == .converted && !quiet then line ("converted ".toList ++ r.path)
  else []

def report (quiet : Bool) (b : BatchResult) : Printed where
  out := b.files.flatMap (fileReport quiet)
  err := b.diagnostics.flatMap (line ·.render) ++
    if b.interrupted then line "interrupted; remaining files were not converted".toList else []

def exitStatus (b : BatchResult) : Nat :=
  if b.interrupted then 130 else if b.files.all (·.isOk) then 0 else 1

def usageStatus : Nat := 2

/-- What a run leaves: the store, what was printed, and the exit status or what cut the run short. -/
structure Outcome where
  store : Store
  printed : Printed := {}
  status : Except PathFault Nat

/-- The end of a conversion: the batch is reported and decides the exit status. -/
def conclude (quiet : Bool) (store : Store) : Except PathFault BatchResult → Outcome
  | .error f => { store, status := .error f }
  | .ok b => { store, printed := report quiet b, status := .ok (exitStatus b) }

/-- Runs a conversion. The batch does not notice an interruption behind its last file, but the command does. -/
def runConversion (faults : WriteFaults) (interruption : Option Interruption) (store : Store) (o : Options) : Outcome :=
  match expandAll store o.paths with
  | .error (.usage e) => { store, printed := usageReport e, status := .ok usageStatus }
  | .error (.fault f) => { store, status := .error f }
  | .ok paths =>
    let (after, batch) := Batch.convertAll { dryRun := o.dryRun, faults } store interruption paths
    conclude o.quiet after (batch.map ({ · with interrupted := interruption.isSome }))

def run (faults : WriteFaults) (interruption : Option Interruption) (store : Store) (arguments : List Text) : Outcome :=
  match Call.ofArguments arguments with
  | .help => { store, printed := { out := line usage }, status := .ok 0 }
  | .mistaken e => { store, printed := usageReport e, status := .ok usageStatus }
  | .convert o => runConversion faults interruption store o

end SwiftObservation.Command
