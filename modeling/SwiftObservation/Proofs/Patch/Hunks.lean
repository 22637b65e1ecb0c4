import SwiftObservation.Patch.Unified

/-!
# The hunks of a script

A script is shown as hunks, with kept lines left out in front of them, between them and behind them. What is left out is
kept, so it stands in both texts: `Covers` says that two texts are made of the hunks and of equal gaps around them, and
`hunks_covers` that the hunks of any script cover its old and its new text.
-/

namespace SwiftObservation.Patch

def Hunk.oldEnd (h : Hunk) : Nat := h.oldStart + (oldLines h.segments).length

def Hunk.newEnd (h : Hunk) : Nat := h.newStart + (newLines h.segments).length

/-- The two texts, of which `i` and `j` lines precede, are made of the hunks and of gaps that are the same in both. -/
inductive Covers : (i j : Nat) → (old new : List Text) → List Hunk → Prop where
  | done {i j : Nat} (same : List Text) : Covers i j same same []
  | hunk {i j : Nat} {old new old' new' : List Text} {h : Hunk} {rest : List Hunk} (gap : List Text)
      (oldStart : h.oldStart = i + gap.length) (newStart : h.newStart = j + gap.length)
      (oldText : old = gap ++ oldLines h.segments ++ old') (newText : new = gap ++ newLines h.segments ++ new')
      (behind : Covers h.oldEnd h.newEnd old' new' rest) : Covers i j old new (h :: rest)

/-- Lines that both texts begin with widen the first gap. -/
theorem Covers.prepend {i j : Nat} {old new : List Text} {found : List Hunk} (gap : List Text)
    (hcovers : Covers (i + gap.length) (j + gap.length) old new found) :
    Covers i j (gap ++ old) (gap ++ new) found := by
  cases hcovers with
  | done same => exact .done (gap ++ old)
  | hunk more hold hnew holdText hnewText hbehind =>
      refine .hunk (gap ++ more) ?_ ?_ ?_ ?_ hbehind
      · rw [hold, List.length_append, Nat.add_assoc]
      · rw [hnew, List.length_append, Nat.add_assoc]
      · rw [holdText, List.append_assoc, List.append_assoc, List.append_assoc]
      · rw [hnewText, List.append_assoc, List.append_assoc, List.append_assoc]

@[simp] theorem oldLines_nil : oldLines [] = [] := rfl

@[simp] theorem newLines_nil : newLines [] = [] := rfl

@[simp] theorem oldLines_cons (segment : Segment) (rest : List Segment) :
    oldLines (segment :: rest) = segment.old ++ oldLines rest :=
  List.flatMap_cons

@[simp] theorem newLines_cons (segment : Segment) (rest : List Segment) :
    newLines (segment :: rest) = segment.new ++ newLines rest :=
  List.flatMap_cons

/-- A long run of kept lines has a context at either end and a gap between them. -/
theorem exists_gap {lines : List Text} (hlong : 2 * context < lines.length) :
    ∃ gap : List Text, lines = lines.take context ++ (gap ++ lines.drop (lines.length - context)) ∧
      gap.length = lines.length - 2 * context := by
  refine ⟨(lines.drop context).take (lines.length - 2 * context), ?_, ?_⟩
  · have hbehind : lines.drop (lines.length - context) = (lines.drop context).drop (lines.length - 2 * context) := by
      rw [List.drop_drop]
      congr 1
      omega
    rw [hbehind, List.take_append_drop, List.take_append_drop]
  · rw [List.length_take, List.length_drop]
    omega

/-- The hunks from a place on cover the open hunk, the script to come and the lines that were cut off behind it. -/
theorem hunksFrom_covers (opened : Hunk) {i j : Nat} (script : List Segment) (tail : List Text)
    (hi : i = opened.oldStart + (oldLines opened.segments.reverse).length)
    (hj : j = opened.newStart + (newLines opened.segments.reverse).length) :
    Covers opened.oldStart opened.newStart (oldLines opened.segments.reverse ++ (oldLines script ++ tail))
      (newLines opened.segments.reverse ++ (newLines script ++ tail)) (hunksFrom opened i j script) := by
  induction script generalizing opened i j with
  | nil => exact .hunk [] rfl rfl (by simp) (by simp) (.done tail)
  | cons segment rest ih =>
      cases segment with
      | change removed added =>
          have hmore := ih { opened with segments := .change removed added :: opened.segments }
            (i := i + removed.length) (j := j + added.length)
            (by simp [hi, Segment.old, Nat.add_assoc]) (by simp [hj, Segment.new, Nat.add_assoc])
          simpa [hunksFrom, Segment.old, Segment.new] using hmore
      | keep lines =>
          rw [hunksFrom]
          split
          next hlong =>
            obtain ⟨gap, hlines, hgap⟩ := exists_gap hlong
            have hcontext : (lines.take context).length = context := by
              rw [List.length_take]
              omega
            have hbehind : (lines.drop (lines.length - context)).length = context := by
              rw [List.length_drop]
              omega
            have hreach : ∀ k, k + lines.length = k + (lines.length - context) + context := by
              intro k
              omega
            have hmore := ih ⟨i + (lines.length - context), j + (lines.length - context),
              [.keep (lines.drop (lines.length - context))]⟩ (i := i + lines.length) (j := j + lines.length)
              (by simpa only [List.reverse_singleton, oldLines_cons, oldLines_nil, List.append_nil, Segment.old, hbehind]
                using hreach i)
              (by simpa only [List.reverse_singleton, newLines_cons, newLines_nil, List.append_nil, Segment.new, hbehind]
                using hreach j)
            -- The context in front closes the open hunk; the gap and the context behind belong to what follows.
            have hfollows : Covers
                (Hunk.oldEnd { opened with segments := (.keep (lines.take context) :: opened.segments).reverse })
                (Hunk.newEnd { opened with segments := (.keep (lines.take context) :: opened.segments).reverse })
                (gap ++ (lines.drop (lines.length - context) ++ (oldLines rest ++ tail)))
                (gap ++ (lines.drop (lines.length - context) ++ (newLines rest ++ tail)))
                (hunksFrom ⟨i + (lines.length - context), j + (lines.length - context),
                  [.keep (lines.drop (lines.length - context))]⟩ (i + lines.length) (j + lines.length) rest) := by
              refine .prepend gap ?_
              have hold : Hunk.oldEnd { opened with segments := (.keep (lines.take context) :: opened.segments).reverse } +
                  gap.length = i + (lines.length - context) := by
                simp [Hunk.oldEnd, Segment.old, hcontext, hi, hgap]
                omega
              have hnew : Hunk.newEnd { opened with segments := (.keep (lines.take context) :: opened.segments).reverse } +
                  gap.length = j + (lines.length - context) := by
                simp [Hunk.newEnd, Segment.new, hcontext, hj, hgap]
                omega
              rw [hold, hnew]
              simpa [Segment.old, Segment.new] using hmore
            refine .hunk [] rfl rfl ?_ ?_ hfollows
            · conv => lhs; rw [oldLines_cons, Segment.old, hlines]
              simp [Segment.old]
            · conv => lhs; rw [newLines_cons, Segment.new, hlines]
              simp [Segment.new]
          next =>
            have hmore := ih { opened with segments := .keep lines :: opened.segments }
              (i := i + lines.length) (j := j + lines.length)
              (by simp [hi, Segment.old, Nat.add_assoc]) (by simp [hj, Segment.new, Nat.add_assoc])
            simpa [Segment.old, Segment.new] using hmore

/-- What is cut off at the end of a script is kept. -/
theorem exists_trimmed (script : List Segment) :
    ∃ tail, oldLines script = oldLines (trimEnd script) ++ tail ∧ newLines script = newLines (trimEnd script) ++ tail := by
  unfold trimEnd
  split
  next lines hlast =>
    obtain ⟨front, rfl⟩ := List.getLast?_eq_some_iff.mp hlast
    refine ⟨lines.drop context, ?_, ?_⟩
    · simp [Segment.old]
    · simp [Segment.new]
  next => exact ⟨[], by simp, by simp⟩

theorem hunks_covers (script : List Segment) : Covers 0 0 (oldLines script) (newLines script) (hunks script) := by
  unfold hunks
  split
  next => exact .done []
  next lines => simpa [Segment.old, Segment.new] using Covers.done lines
  next lines rest _ =>
    obtain ⟨tail, hold, hnew⟩ := exists_trimmed rest
    have hskipped : (lines.take (lines.length - context)).length = lines.length - context := by
      rw [List.length_take]
      omega
    have hmore := hunksFrom_covers ⟨lines.length - context, lines.length - context, []⟩
      (.keep (lines.drop (lines.length - context)) :: trimEnd rest) tail rfl rfl
    have hall := Covers.prepend (i := 0) (j := 0) (lines.take (lines.length - context)) (by
      rw [hskipped, Nat.zero_add]
      exact hmore)
    simpa [Segment.old, Segment.new, hold, hnew, ← List.append_assoc] using hall
  next =>
    obtain ⟨tail, hold, hnew⟩ := exists_trimmed script
    rw [hold, hnew]
    exact hunksFrom_covers ⟨0, 0, []⟩ (trimEnd script) tail rfl rfl

/-- Only a script that changes nothing has no hunks. -/
theorem oldLines_eq_newLines_of_hunks {script : List Segment} (hnone : hunks script = []) :
    oldLines script = newLines script := by
  have hcovers := hunks_covers script
  rw [hnone] at hcovers
  generalize oldLines script = old, newLines script = new at hcovers
  cases hcovers
  rfl

theorem hunks_keepOf (lines : List Text) : hunks (keepOf lines) = [] := by
  unfold keepOf
  split <;> rfl

end SwiftObservation.Patch
