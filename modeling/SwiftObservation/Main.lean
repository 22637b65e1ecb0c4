import SwiftObservation.Command.Run

/-!
# The command on a disk

The directories and files that the arguments name are entered into a store, and the arguments are expanded there. The files
are then converted one after another, each with the contents that the disk has of it when its turn comes, and written to the
disk before the next. What the disk refuses is a failure of that file only, as any other.
-/

namespace SwiftObservation.Disk

/-- A location as a path from the root of the disk. -/
def pathText (l : Location) : String := "/" ++ "/".intercalate (l.map String.ofList)

/-- What the system says about an error. -/
def reason : IO.Error → Text
  | .alreadyExists _ _ details | .interrupted _ _ details | .noFileOrDirectory _ _ details | .invalidArgument _ _ details
  | .permissionDenied _ _ details | .resourceExhausted _ _ details | .inappropriateType _ _ details
  | .noSuchThing _ _ details | .otherError _ details | .resourceBusy _ details | .resourceVanished _ details
  | .unsupportedOperation _ details | .hardwareFault _ details | .unsatisfiedConstraints _ details
  | .illegalOperation _ details | .protocolError _ details | .timeExpired _ details => details.toList
  | e => e.toString.toList

/-! ### What there is -/

/-- Enters what is at a location, files without their contents, and if asked to everything below a directory. A directory
that may not be looked into counts as empty. -/
partial def load (deep : Bool) (l : Location) (store : Store) : IO Store := do
  let path := (← IO.currentDir) / pathText l
  if ← path.isDir then
    let mut store := store.put l .directory
    if deep then
      let inside ← try path.readDir catch
        | .permissionDenied .. => pure #[]
        | e => throw e
      for entry in inside do
        store ← load true (l ++ [entry.fileName.toList]) store
    return store
  else if ← path.pathExists then return store.put l (.file [])
  else return store

/-- Enters everything on the way to a path and everything below its end. -/
def loadPath (store : Store) (path : Path) : IO Store := do
  let mut l := if path.root.isEmpty then store.workingDirectory else []
  let mut store := store
  for name in path.names do
    l := if name == ['.', '.'] then l.dropLast else l ++ [name]
    store ← load false l store
  load true l store

/-- The store of everything that the arguments name. -/
def snapshot (arguments : List Text) : IO Store := do
  let here := (Path.ofText (← IO.currentDir).toString.toList).names
  let mut store := (({ entries := [], workingDirectory := here } : Store).makeDirectories [] here).1
  for argument in arguments do
    let path := Path.ofText argument
    unless path.hasNull do store ← loadPath store path
  return store

/-! ### Reading and writing -/

/-- How many marks are tried for a temporary file. -/
def maxMarks : Nat := 10000

/-- Makes and opens a temporary file for the file at a location, at the first of so many marks at which nothing is yet. -/
def openTemporary (l : Location) (mark : Nat) : (attempts : Nat) → IO (IO.FS.Handle × String)
  | 0 => throw (IO.userError (String.ofList FileFault.noTemporaryName.message))
  | attempts + 1 => do
    let path := pathText (Store.temporaryLocation l mark)
    try return (← IO.FS.Handle.mk path .writeNew, path)
    catch
      | .alreadyExists .. => openTemporary l (mark + 1) attempts
      | e => throw e

/-- Replaces a file by way of a temporary file beside it, which does not outlive a failure. The new file has the access
rights of any new file: those of the old one can be set, but not asked for. -/
def replace (l : Location) (contents : Bytes) : IO Unit := do
  let (handle, temporary) ← openTemporary l 0 maxMarks
  try
    handle.write contents.toByteArray
    handle.flush
    IO.FS.rename temporary (pathText l)
  catch e =>
    try IO.FS.removeFile temporary catch _ => pure ()
    throw e

/-- The store with the contents that the file at a path has on the disk. -/
def refresh (store : Store) (path : Path) : IO Store := do
  let .ok l := store.locate path | return store
  let some (.file _) := store.get? l | return store
  return store.put l (.file (← IO.FS.readBinFile (pathText l)).toList)

/-- Writes the file at a path to the disk if its contents are others than before. -/
def save (before after : Store) (path : Path) : IO Unit := do
  let .ok l := after.locate path | return
  let some (.file contents) := after.get? l | return
  unless before.get? l == some (.file contents) do replace l contents

/-! ### The command -/

/-- Converts a file on the disk. -/
def convertFile (mode : ConversionMode) (store : Store) (path : Path) : IO (Store × Except PathFault FileResult) := do
  let before ← try refresh store path catch e => return (store, .ok (.unread path.text (reason e)))
  match Batch.convertFile mode before path with
  | (after, .error fault) => return (after, .error fault)
  | (after, .ok result) =>
    try
      save before after path
      return (after, .ok result)
    catch e => return (before, .ok (result.unwritten (reason e)))

/-- Converts files on the disk one after another, behind others whose results are given last first. -/
def convertFrom (mode : ConversionMode) (store : Store) (reversed : List FileResult) :
    List Path → IO (Store × Except PathFault BatchResult)
  | [] => return (store, .ok { files := reversed.reverse })
  | path :: rest => do
    match ← convertFile mode store path with
    | (after, .error fault) => return (after, .error fault)
    | (after, .ok result) => convertFrom mode after (result :: reversed) rest

/-- Runs the command on the disk. Where there is nothing to convert, the store tells the outcome. -/
def run (arguments : List Text) : IO Command.Outcome := do
  let .convert options := Command.Call.ofArguments arguments | return Command.run {} none { entries := [] } arguments
  let store ← snapshot options.paths
  let .ok paths := Command.expandAll store options.paths | return Command.run {} none store arguments
  let (after, batch) ← convertFrom { dryRun := options.dryRun } store [] paths
  return Command.conclude options.quiet after batch

end SwiftObservation.Disk

open SwiftObservation in
/-- Converts the files that the command line names. -/
def main (arguments : List String) : IO UInt32 := do
  let outcome ← Disk.run (arguments.map String.toList)
  IO.print (String.ofList outcome.printed.out)
  IO.eprint (String.ofList outcome.printed.err)
  match outcome.status with
  | .ok status => return status.toUInt32
  | .error fault =>
    IO.eprintln (String.ofList fault.message)
    return 1
