import SwiftObservation.Patch.Script

/-!
# Unified differences

A script is shown as hunks: changes with a few kept lines around them. Hunks are parted where more lines are kept than
the two contexts need. Every line of a hunk is marked as kept, removed or added, and a header tells the ranges of
lines that the hunk covers in either text.
-/

namespace SwiftObservation.Patch

/-- How many kept lines are shown around a change. -/
def context : Nat := 3

/-- Segments shown together, and how many lines precede them in either text. -/
structure Hunk where
  oldStart : Nat
  newStart : Nat
  segments : List Segment
deriving DecidableEq, Repr

/-- The segments with the last one, if it is kept, cut down to the context behind it. -/
def trimEnd (script : List Segment) : List Segment :=
  match script.getLast? with
  | some (.keep lines) => script.dropLast ++ [.keep (lines.take context)]
  | _ => script

/-- The hunks from a line of either text on. The open hunk is given with its segments last first. -/
def hunksFrom (opened : Hunk) (i j : Nat) : List Segment → List Hunk
  | [] => [{ opened with segments := opened.segments.reverse }]
  | .keep lines :: rest =>
    let n := lines.length
    if 2 * context < n then
      { opened with segments := (.keep (lines.take context) :: opened.segments).reverse } ::
        hunksFrom ⟨i + (n - context), j + (n - context), [.keep (lines.drop (n - context))]⟩ (i + n) (j + n) rest
    else hunksFrom { opened with segments := .keep lines :: opened.segments } (i + n) (j + n) rest
  | .change removed added :: rest =>
    hunksFrom { opened with segments := .change removed added :: opened.segments } (i + removed.length)
      (j + added.length) rest

/-- The hunks of a script. A script that changes nothing has none. -/
def hunks (script : List Segment) : List Hunk :=
  match script with
  | [] | [.keep _] => []
  | .keep lines :: rest =>
    let skipped := lines.length - context
    hunksFrom ⟨skipped, skipped, []⟩ skipped skipped (.keep (lines.drop skipped) :: trimEnd rest)
  | rest => hunksFrom ⟨0, 0, []⟩ 0 0 (trimEnd rest)

/-- A range of lines: its first line and its length, which is not written when it is one. An empty range is named by
the line in front of it. -/
def rangeText (start length : Nat) : Text :=
  if length == 1 then Text.ofNat (start + 1)
  else Text.ofNat (if length == 0 then start else start + 1) ++ ',' :: Text.ofNat length

/-- The lines of a segment with their marks. -/
def Segment.marked : Segment → List Text
  | keep lines => lines.map (' ' :: ·)
  | change removed added => removed.map ('-' :: ·) ++ added.map ('+' :: ·)

def Hunk.header (h : Hunk) : Text :=
  "@@ -".toList ++ rangeText h.oldStart (oldLines h.segments).length ++ " +".toList ++
    rangeText h.newStart (newLines h.segments).length ++ " @@\n".toList

/-- A hunk as the lines that show it. -/
def Hunk.lines (h : Hunk) : List Text := h.header :: h.segments.flatMap Segment.marked

/-- The two lines that name the texts. -/
def nameLines (name : Text) : List Text :=
  ["--- a/".toList ++ name ++ ['\n'], "+++ b/".toList ++ name ++ ['\n']]

/-- The difference between two texts as the lines that show it, none if there is no difference. -/
def unifiedLines (name old new : Text) : List Text :=
  match hunks (script old.lines new.lines) with
  | [] => []
  | found => nameLines name ++ found.flatMap Hunk.lines

def unified (name old new : Text) : Text := (unifiedLines name old new).flatten

end SwiftObservation.Patch
