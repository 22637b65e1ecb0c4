import SwiftObservation.Text.Basic

/-!
# The command line

Options may stand anywhere among the paths; everything behind two dashes is a path. A single dash is a path too.
-/

namespace SwiftObservation.Command

structure Options where
  dryRun : Bool := false
  quiet : Bool := false
  paths : List Text := []
deriving DecidableEq, Repr

/-- Why a command line makes no sense. -/
inductive UsageError where
  | unknownOption (option : Text)
  | noPaths
  | missing (path : Text)
deriving DecidableEq, Repr

def UsageError.message : UsageError → Text
  | unknownOption option => "Unknown option: ".toList ++ option
  | noPaths => "No input paths given".toList
  | missing path => "No such file or directory: ".toList ++ path

/-- A command line as it is understood: a call for help, a mistake, or files to convert. -/
inductive Call where
  | help
  | mistaken (e : UsageError)
  | convert (options : Options)
deriving DecidableEq, Repr

/-- The call once all arguments are read. -/
def Call.ofOptions (o : Options) : Call := if o.paths.isEmpty then .mistaken .noPaths else .convert o

/-- The call that the arguments make, given what was read before. -/
def Call.readFrom (o : Options) : List Text → Call
  | [] => .ofOptions o
  | argument :: rest =>
    if argument = "--".toList then .ofOptions { o with paths := o.paths ++ rest }
    else if argument = "--dry-run".toList then readFrom { o with dryRun := true } rest
    else if argument = "-q".toList ∨ argument = "--quiet".toList then readFrom { o with quiet := true } rest
    else if argument = "-h".toList ∨ argument = "--help".toList then .help
    else if argument.startsWith (· == '-') && argument != ['-'] then .mistaken (.unknownOption argument)
    else readFrom { o with paths := o.paths ++ [argument] } rest

def Call.ofArguments (arguments : List Text) : Call := readFrom {} arguments

/-- How the command is used, in one line. -/
def usage : Text := "usage: observable-converter [--dry-run] [--quiet] PATH...".toList

end SwiftObservation.Command
