import SwiftObservation.Store.Basic

/-!
# Searching a directory

A search visits a directory and then the directories in it, one after another. In every directory it first looks at the
entries whose names have the ending that is sought, and keeps those that are files. It gives up at the first path that
is too long to be looked at: paths grow on the way down, so a directory may be within reach and its entries beyond it.
-/

namespace SwiftObservation.Store

/-- The entries directly in a directory, in the order of their names. -/
def inside (s : Store) (directory : Location) : List (Text × Entry) :=
  (s.entries.filterMap fun (l, e) =>
    if !l.isEmpty && l.dropLast == directory then some (l.getLastD [], e) else none).mergeSort fun a b => Text.le a.1 b.1

/-- How many names the longest location of an entry has. -/
def height (s : Store) : Nat := s.entries.foldr (fun entry n => max entry.1.length n) 0

/-- The path of a file, nothing for a directory. -/
def fileIn (p : Path) : Text × Entry → Option Path
  | (name, .file _) => some (p.below [name])
  | (_, .directory) => none

/-- The files with the given ending in the directory at a path and a location and in at most so many levels of
directories, or the first path that is too long. -/
def search (s : Store) (ending : Text) : (levels : Nat) → Path → Location → Except Path (List Path)
  | 0, _, _ => .ok []
  | levels + 1, p, l => do
    if isTooLong p then throw p
    let found := (s.inside l).filter fun entry => ending.isSuffixOf entry.1
    if let some (name, _) := found.find? fun entry => isTooLong (p.below [entry.1]) then throw (p.below [name])
    let directories := (s.inside l).filter fun entry => entry.2 == .directory
    let deeper ← directories.mapM fun entry => s.search ending levels (p.below [entry.1]) (l ++ [entry.1])
    return found.filterMap (fileIn p) ++ deeper.flatten

/-- The files with the given ending in and below the directory at a path and a location, in the order of their names, or
the first path that is too long. -/
def filesBelow (s : Store) (ending : Text) (p : Path) (l : Location) : Except Path (List Path) := do
  return (← s.search ending (s.height + 1) p l).mergeSort fun a b => Text.listLE a.names b.names

end SwiftObservation.Store
