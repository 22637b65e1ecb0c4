import SwiftObservation.Migration.Conversion
import SwiftObservation.Text.Quoted
import SwiftObservation.Store.Replace

/-!
# The conversion of a file

A file is read, converted and replaced. Whatever goes wrong on the way becomes a diagnostic of the result, and the file
keeps its old contents. On a dry run the difference is shown and nothing is written. A conversion may be interrupted at any
moment; it then has no result, and the file has its new contents only if it was replaced before.
-/

namespace SwiftObservation

inductive FileStatus where
  | converted
  | unchanged
  | failed
deriving DecidableEq, Repr

/-- What became of a file, with everything there is to say about it. -/
structure FileResult where
  path : Text
  status : FileStatus
  diagnostics : List Diagnostic := []
  diff : Text := []

/-- Why a path cannot even be tried. -/
inductive PathFault where
  /-- The path has a null character. -/
  | embeddedNull
  /-- Looking at the path failed in a way that does not mean that nothing is there. -/
  | unreachable (path : Text) (fault : FileFault)
deriving DecidableEq, Repr

def PathFault.message : PathFault → Text
  | embeddedNull => "embedded null byte".toList
  | unreachable path fault =>
    "[Errno ".toList ++ Text.ofNat fault.number ++ "] ".toList ++ fault.message ++ ": ".toList ++ path.quoted

namespace FileResult

/-- The file was not left behind for a failure. -/
def isOk (r : FileResult) : Bool := r.status != .failed

def reason (r : FileResult) : Option Text := (r.diagnostics.find? (·.isError)).map (·.message)

/-- The result when the file at a path cannot be read, with the reason. -/
def unread (path message : Text) : FileResult :=
  let failure : Diagnostic := { severity := .error, code := .readFailure, message, path := some path }
  { path, status := .failed, diagnostics := [failure] }

/-- The result when the file cannot be written after all, with the reason. -/
def unwritten (r : FileResult) (message : Text) : FileResult :=
  let failure : Diagnostic := { severity := .error, code := .writeFailure, message, path := some r.path }
  { r with status := .failed, diagnostics := r.diagnostics ++ [failure] }

end FileResult

structure ConversionMode where
  limits : Limits := .standard
  dryRun : Bool := false
  /-- The steps of writing that are bound to fail. -/
  faults : WriteFaults := {}

/-- How far the conversion of a file has come when it is interrupted. One that does not come so far is interrupted at its
end. -/
inductive Moment where
  /-- Nothing is written yet. -/
  | outset
  /-- So many bytes are in the temporary file. -/
  | filling (count : Nat)
  /-- Everything is done, but the result is not noted. -/
  | finished
deriving DecidableEq, Repr

namespace Batch

/-- The refusal of bytes that are no text, in words. -/
def decodeMessage (e : Text.DecodeError) : Text :=
  "'utf-8' codec can't decode ".toList ++
    (if e.count ≤ 1 then
      "byte 0x".toList ++ Text.ofHex 2 e.first.toNat ++ " in position ".toList ++ Text.ofNat e.offset
    else
      "bytes in position ".toList ++ Text.ofNat e.offset ++ '-' :: Text.ofNat (e.offset + e.count - 1)) ++
    ": ".toList ++ e.flaw.message

/-- The text of a file, or what keeps it from being read. -/
def readText (store : Store) (path : Path) : Except Text Text :=
  match store.read path with
  | .error fault => .error fault.message
  | .ok bytes =>
    match Text.decode bytes with
    | .error e => .error (decodeMessage e)
    | .ok source => .ok source

/-- Writes a conversion that changed something and tells the result. -/
def writeConversion (mode : ConversionMode) (store : Store) (path : Path) (c : Conversion) : Store × FileResult :=
  let name := path.text
  if mode.dryRun then
    (store, { path := name, status := .converted, diagnostics := c.diagnostics, diff := c.diff (some name) })
  else
    let result : FileResult := { path := name, status := .converted, diagnostics := c.diagnostics }
    match store.replace mode.faults path c.output.encode with
    | (after, none) => (after, result)
    | (after, some fault) => (after, result.unwritten fault.message)

/-- Converts the file that a path without null characters denotes. -/
def convertReachable (mode : ConversionMode) (store : Store) (path : Path) : Store × FileResult :=
  let name := path.text
  match readText store path with
  | .error message => (store, .unread name message)
  | .ok source =>
    match Conversion.ofSource mode.limits (some name) source with
    | .error failure => (store, { path := name, status := .failed, diagnostics := [failure] })
    | .ok c =>
      if c.isChanged then writeConversion mode store path c
      else (store, { path := name, status := .unchanged, diagnostics := c.diagnostics })

def convertFile (mode : ConversionMode) (store : Store) (path : Path) : Store × Except PathFault FileResult :=
  if path.hasNull then (store, .error .embeddedNull)
  else
    let (after, result) := convertReachable mode store path
    (after, .ok result)

/-! ### Interruptions -/

/-- What the conversion of a file writes, if it comes to writing. -/
def pending? (mode : ConversionMode) (store : Store) (path : Path) : Option Bytes := do
  let source ← (readText store path).toOption
  let c ← (Conversion.ofSource mode.limits (some path.text) source).toOption
  if c.isChanged && !mode.dryRun then some c.output.encode else none

/-- What is left when the conversion of the file at a path without null characters is interrupted. -/
def interruptReachable (mode : ConversionMode) (store : Store) (path : Path) : Moment → Store
  | .outset => store
  | .filling count =>
    match pending? mode store path with
    | some contents => store.cutOff mode.faults path contents count
    | none => store
  | .finished => (convertReachable mode store path).1

/-- What is left when the conversion of a file is interrupted. A null character is met before anything is written, so no
later interruption comes to pass. -/
def interruptFile (mode : ConversionMode) (store : Store) (path : Path) (moment : Moment) :
    Store × Except PathFault Unit :=
  if path.hasNull && moment != .outset then (store, .error .embeddedNull)
  else (interruptReachable mode store path moment, .ok ())

end Batch

end SwiftObservation
