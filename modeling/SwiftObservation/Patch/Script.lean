import SwiftObservation.Patch.Matching

/-!
# Edit scripts

A script tells how one list of lines becomes another: runs of lines that are kept alternate with changes. Reading off
the kept and removed lines gives the old text, the kept and added lines the new one. The blocks that two texts share
say which lines are kept; all lines between them are changed.

Main statement: `oldLines_scriptFrom` says that a script made along any blocks has the lines it was made from as its old
text. Its new text is right only along blocks that both texts share.
-/

namespace SwiftObservation.Patch

/-- A run of lines that stay, or a change of some lines into others. -/
inductive Segment where
  | keep (lines : List Text)
  | change (removed added : List Text)
deriving DecidableEq, Repr

namespace Segment

def old : Segment → List Text
  | keep lines => lines
  | change removed _ => removed

def new : Segment → List Text
  | keep lines => lines
  | change _ added => added

end Segment

def oldLines (script : List Segment) : List Text := script.flatMap Segment.old

def newLines (script : List Segment) : List Text := script.flatMap Segment.new

@[simp] theorem oldLines_append (front back : List Segment) :
    oldLines (front ++ back) = oldLines front ++ oldLines back :=
  List.flatMap_append

@[simp] theorem newLines_append (front back : List Segment) :
    newLines (front ++ back) = newLines front ++ newLines back :=
  List.flatMap_append

/-- The change of some lines into others, if there is anything to change. -/
def changeOf (removed added : List Text) : List Segment :=
  if removed.isEmpty && added.isEmpty then [] else [.change removed added]

/-- The lines that are kept, if there are any. -/
def keepOf (lines : List Text) : List Segment := if lines.isEmpty then [] else [.keep lines]

@[simp] theorem oldLines_changeOf (removed added : List Text) : oldLines (changeOf removed added) = removed := by
  unfold changeOf
  split <;> simp_all [oldLines, Segment.old]

@[simp] theorem newLines_changeOf (removed added : List Text) : newLines (changeOf removed added) = added := by
  unfold changeOf
  split <;> simp_all [newLines, Segment.new]

@[simp] theorem oldLines_keepOf (lines : List Text) : oldLines (keepOf lines) = lines := by
  unfold keepOf
  split <;> simp_all [oldLines, Segment.old]

@[simp] theorem newLines_keepOf (lines : List Text) : newLines (keepOf lines) = lines := by
  unfold keepOf
  split <;> simp_all [newLines, Segment.new]

/-- The script from the lines left of either text, which begin at the given line numbers, along the blocks to come. -/
def scriptFrom (i j : Nat) (old new : List Text) : List Block → List Segment
  | [] => changeOf old new
  | b :: rest =>
    let removed := b.old - i
    let added := b.new - j
    changeOf (old.take removed) (new.take added) ++ keepOf ((old.drop removed).take b.size) ++
      scriptFrom (b.old + b.size) (b.new + b.size) ((old.drop removed).drop b.size) ((new.drop added).drop b.size) rest

theorem oldLines_scriptFrom (i j : Nat) (old new : List Text) (found : List Block) :
    oldLines (scriptFrom i j old new found) = old := by
  induction found generalizing i j old new with
  | nil => simp [scriptFrom]
  | cons b rest ih =>
      simp only [scriptFrom, oldLines_append, oldLines_changeOf, oldLines_keepOf, ih, List.append_assoc,
        List.take_append_drop]

def script (old new : List Text) : List Segment := scriptFrom 0 0 old new (blocks old new)

end SwiftObservation.Patch
