import SwiftObservation.Store.Path

/-!
# A store of files

A store holds files and directories by their locations, which are lists of names from the root without dots. Paths are
walked name by name, as an operating system does: every name but the last must denote a directory, and two dots lead to
the directory above.

`get?` is the view of a store; `get?_put_self` and `get?_put_of_ne` say what writing does to it.
-/

namespace SwiftObservation

/-- Where something is: the names from the root down to it. -/
abbrev Location := List Text

/-- What may be at a location. -/
inductive Entry where
  | file (contents : Bytes)
  | directory
deriving DecidableEq, Repr

/-- Why a file cannot be reached or changed. -/
inductive FileFault where
  | noEntry
  | notDirectory
  | isDirectory
  | nameTooLong
  | denied
  /-- Every mark that was tried for a temporary file is taken. -/
  | noTemporaryName
deriving DecidableEq, Repr

namespace FileFault

def message : FileFault → Text
  | noEntry => "No such file or directory".toList
  | notDirectory => "Not a directory".toList
  | isDirectory => "Is a directory".toList
  | nameTooLong => "File name too long".toList
  | denied => "Permission denied".toList
  | noTemporaryName => "No usable temporary file name found".toList

/-- The number by which an operating system knows the fault. -/
def number : FileFault → Nat
  | noEntry => 2
  | denied => 13
  | noTemporaryName => 17
  | notDirectory => 20
  | isDirectory => 21
  | nameTooLong => 36

end FileFault

/-- Files and directories by location, and the directory that paths start from. The root is always a directory. -/
structure Store where
  entries : List (Location × Entry)
  workingDirectory : Location := []
deriving Repr

namespace Store

def get? (s : Store) (l : Location) : Option Entry := if l.isEmpty then some .directory else s.entries.lookup l

def erase (s : Store) (l : Location) : Store := { s with entries := s.entries.filter (·.1 != l) }

def put (s : Store) (l : Location) (e : Entry) : Store :=
  { s with entries := (l, e) :: s.entries.filter (·.1 != l) }

theorem lookup_filter_ne {l m : Location} (different : m ≠ l) (entries : List (Location × Entry)) :
    (entries.filter (·.1 != l)).lookup m = entries.lookup m := by
  induction entries with
  | nil => rfl
  | cons pair rest ih =>
      obtain ⟨k, e⟩ := pair
      by_cases same : k = l
      · subst same
        have no : (m == k) = false := beq_eq_false_iff_ne.mpr different
        simp [List.lookup_cons, ih, no]
      · simp [List.lookup_cons, ih, same]

@[simp] theorem get?_put_self (s : Store) {l : Location} (below : l ≠ []) (e : Entry) :
    (s.put l e).get? l = some e := by
  simp [get?, put, below]

theorem get?_put_of_ne (s : Store) {l m : Location} (different : m ≠ l) (e : Entry) :
    (s.put l e).get? m = s.get? m := by
  have no : (m == l) = false := beq_eq_false_iff_ne.mpr different
  simp [get?, put, List.lookup_cons, no, lookup_filter_ne different]

def maxName : Nat := 255

def maxPath : Nat := 4095

def byteLength (s : Text) : Nat := s.encode.length

/-- The location that names lead to from a location. What is at the end need not exist. -/
def walk (s : Store) (l : Location) : List Text → Except FileFault Location
  | [] => .ok l
  | name :: rest =>
    match s.get? l with
    | none => .error .noEntry
    | some (.file _) => .error .notDirectory
    | some .directory =>
      if name == ['.', '.'] then s.walk l.dropLast rest
      else if maxName < byteLength name then .error .nameTooLong
      else s.walk (l ++ [name]) rest

/-- The path has more bytes than any path that can be walked. -/
def isTooLong (p : Path) : Bool := maxPath < byteLength p.text

/-- Where the walk along a path begins. -/
def origin (s : Store) (p : Path) : Location := if p.root.isEmpty then s.workingDirectory else []

def locate (s : Store) (p : Path) : Except FileFault Location :=
  if isTooLong p then .error .nameTooLong else s.walk (s.origin p) p.names

def find (s : Store) (p : Path) : Except FileFault Entry :=
  match s.locate p with
  | .error fault => .error fault
  | .ok l =>
    match s.get? l with
    | some e => .ok e
    | none => .error .noEntry

def read (s : Store) (p : Path) : Except FileFault Bytes :=
  match s.find p with
  | .error fault => .error fault
  | .ok .directory => .error .isDirectory
  | .ok (.file contents) => .ok contents

/-! ### Filling a store -/

/-- The store with all directories that names pass through from a location, and the location they lead to. -/
def makeDirectories (s : Store) (l : Location) : List Text → Store × Location
  | [] => (s, l)
  | name :: rest =>
    let next := if name == ['.', '.'] then l.dropLast else l ++ [name]
    (if (s.get? next).isNone then s.put next .directory else s).makeDirectories next rest

/-- The store with a file at a path, and the directories on the way to it. -/
def putFile (s : Store) (p : Path) (contents : Bytes) : Store :=
  let (made, l) := s.makeDirectories (s.origin p) p.names.dropLast
  made.put (l ++ [p.name]) (.file contents)

def files (s : Store) : List (Location × Bytes) :=
  s.entries.filterMap fun
    | (l, .file contents) => some (l, contents)
    | (_, .directory) => none

end Store

end SwiftObservation
