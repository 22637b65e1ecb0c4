import SwiftObservation.Store.Basic

/-!
# Replacing a file

A write goes to a new file beside the old one, which then takes its place, so a file has either its old or its new
contents. Each of the three steps may fail; the new file is then removed again, as it is when the write is interrupted before
the new file takes the place of the old one. The new file is created by its full path from the root, so its path may be too
long where the path of the old file is not.
-/

namespace SwiftObservation

/-- The steps of a write that are bound to fail, with their faults. -/
structure WriteFaults where
  create : Option FileFault := none
  write : Option FileFault := none
  replace : Option FileFault := none
deriving DecidableEq, Repr

namespace Store

/-- A mark of eight digits that tells temporary files apart. -/
def stamp (n : Nat) : Text :=
  let digits := Nat.toDigits 10 n
  List.replicate (8 - digits.length) '0' ++ digits

def temporaryName (name : Text) (n : Nat) : Text := name ++ '.' :: stamp n ++ ".temp".toList

/-- The location beside a file for the temporary file with the given mark. -/
def temporaryLocation (l : Location) (n : Nat) : Location := l.dropLast ++ [temporaryName (l.getLastD []) n]

/-- The length in bytes of the path that leads from the root to a location. -/
def pathLength (l : Location) : Nat := l.foldr (fun name n => byteLength name + 1 + n) 0

/-- No file can be created at the location, because its name or its path is too long. -/
def isBeyondReach (l : Location) : Bool := maxName < byteLength (l.getLastD []) || maxPath < pathLength l

/-- A location beside a file at which nothing is yet, found in so many attempts from a mark on. -/
def freeLocation? (s : Store) (l : Location) (n : Nat) : (attempts : Nat) → Option Location
  | 0 => none
  | attempts + 1 =>
    if (s.get? (temporaryLocation l n)).isNone then some (temporaryLocation l n)
    else s.freeLocation? l (n + 1) attempts

/-- Makes an empty temporary file for the file at a location, and tells where it is. One more mark is tried than there are
entries, so one of them is free. -/
def createTemporary (s : Store) (faults : WriteFaults) (l : Location) : Except FileFault (Store × Location) :=
  if isBeyondReach (temporaryLocation l 0) then .error .nameTooLong
  else
    match faults.create, s.freeLocation? l 0 (s.entries.length + 1) with
    | some fault, _ => .error fault
    | none, none => .error .noTemporaryName
    | none, some temporary => .ok (s.put temporary (.file []), temporary)

/-- Fills the empty file at a temporary location and puts it in the place of the file at `l`. -/
def fillAndReplace (created : Store) (faults : WriteFaults) (temporary l : Location) (contents : Bytes) :
    Store × Option FileFault :=
  match faults.write with
  | some fault => (created.erase temporary, some fault)
  | none =>
    let written := created.put temporary (.file contents)
    match faults.replace with
    | some fault => (written.erase temporary, some fault)
    | none => ((written.erase temporary).put l (.file contents), none)

/-- Replaces the file at a location by way of a temporary file, and says which step failed. -/
def replaceAt (s : Store) (faults : WriteFaults) (l : Location) (contents : Bytes) : Store × Option FileFault :=
  match s.createTemporary faults l with
  | .error fault => (s, some fault)
  | .ok (created, temporary) => created.fillAndReplace faults temporary l contents

/-- What is left by a replacement that is interrupted when so many bytes are in the temporary file, which is then removed
like that of a replacement that fails. -/
def cutOffAt (s : Store) (faults : WriteFaults) (l : Location) (contents : Bytes) (count : Nat) : Store :=
  match s.createTemporary faults l with
  | .error _ => s
  | .ok (created, temporary) => (created.put temporary (.file (contents.take count))).erase temporary

/-- Replaces the file that a path denotes, and says what failed. -/
def replace (s : Store) (faults : WriteFaults) (p : Path) (contents : Bytes) : Store × Option FileFault :=
  match s.locate p with
  | .error fault => (s, some fault)
  | .ok l => s.replaceAt faults l contents

/-- The replacement of the file that a path denotes, cut off when so many bytes are in the temporary file. -/
def cutOff (s : Store) (faults : WriteFaults) (p : Path) (contents : Bytes) (count : Nat) : Store :=
  match s.locate p with
  | .error _ => s
  | .ok l => s.cutOffAt faults l contents count

end Store

end SwiftObservation
