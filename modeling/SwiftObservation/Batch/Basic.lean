import SwiftObservation.Batch.File

/-!
# Batches

The files of a batch are converted one after another, each on its own. An interruption comes in the middle of the
conversion of one of them and ends the batch with the results of the files before that one. Those stay converted; what
becomes of the interrupted file depends on the moment. Behind the last file an interruption finds no conversion, and the
batch knows nothing of it.
-/

namespace SwiftObservation

/-- An interruption of a batch. -/
structure Interruption where
  /-- How many files come before the one whose conversion is interrupted. -/
  place : Nat
  moment : Moment := .outset
deriving DecidableEq, Repr

/-- A place alone stands for an interruption there before anything is written. -/
instance : Coe Nat Interruption where
  coe place := { place }

structure BatchResult where
  files : List FileResult := []
  interrupted : Bool := false

namespace BatchResult

/-- Every file was converted or needed no conversion. -/
def isOk (b : BatchResult) : Bool := !b.interrupted && b.files.all (·.isOk)

def diagnostics (b : BatchResult) : List Diagnostic := b.files.flatMap (·.diagnostics)

def withStatus (b : BatchResult) (status : FileStatus) : List FileResult := b.files.filter (·.status == status)

end BatchResult

namespace Batch

/-- Converts files behind others whose results are given last first. A path that cannot even be tried ends it all. -/
def convertFrom (mode : ConversionMode) (interruption : Option Interruption) (store : Store)
    (reversed : List FileResult) : List Path → Store × Except PathFault BatchResult
  | [] => (store, .ok { files := reversed.reverse })
  | path :: rest =>
    match interruption.filter (·.place == reversed.length) with
    | some i =>
      match interruptFile mode store path i.moment with
      | (after, .error fault) => (after, .error fault)
      | (after, .ok ()) => (after, .ok { files := reversed.reverse, interrupted := true })
    | none =>
      match convertFile mode store path with
      | (after, .error fault) => (after, .error fault)
      | (after, .ok result) => convertFrom mode interruption after (result :: reversed) rest

/-- Converts files one after another until an interruption, if there is one. -/
def convertAll (mode : ConversionMode) (store : Store) (interruption : Option Interruption) (paths : List Path) :
    Store × Except PathFault BatchResult :=
  convertFrom mode interruption store [] paths

end Batch

end SwiftObservation
