import SwiftObservation.Migration.Conversion
import SwiftObservation.Proofs.Patch.Hunks
import SwiftObservation.Proofs.Patch.Script

/-!
# A difference is a patch

A unified difference is read here as the tools that apply patches read it, from its lines alone: a header tells the ranges
of lines that a hunk covers in either text, and the mark of every line below it tells the side that the line belongs to.
`IsPatch` says what makes the hunks read a patch from one text to another.

Main statement: `Conversion.diff_isPatch`, that what the difference of a conversion shows is a patch from the source to
the output, and that there is a difference exactly if the two differ.
-/

namespace SwiftObservation

/-! ### The lines of a text -/

theorem Text.flatten_linesFrom (line : Text) (done : List Text) (s : Text) :
    (Text.linesFrom line done s).flatten = done.reverse.flatten ++ line.reverse ++ s := by
  fun_induction Text.linesFrom line done s with
  | case1 line done =>
      cases line with
      | nil => simp
      | cons c rest => simp
  | case2 line done rest ih =>
      rw [ih]
      simp
  | case3 line done c rest _ _ ih =>
      rw [ih]
      simp
  | case4 line done c rest _ _ ih =>
      rw [ih]
      simp

/-- The lines of a text are the text. -/
theorem Text.flatten_lines (s : Text) : s.lines.flatten = s := by
  rw [Text.lines, Text.flatten_linesFrom]
  simp

namespace Patch

/-! ### Reading a difference -/

/-- A range of lines: how many lines stand in front of it, and how many it has. -/
structure Range where
  start : Nat
  length : Nat
deriving DecidableEq, Repr

namespace Range

def stop (r : Range) : Nat := r.start + r.length

/-- The lines of a text in the range. -/
def of (r : Range) (lines : List Text) : List Text := (lines.drop r.start).take r.length

end Range

def readNumber? (s : Text) : Option Nat :=
  if !s.isEmpty && s.all Char.isDigit then some (Nat.ofDigitChars 10 s 0) else none

/-- A range as it is written: the number of its first line, counted from one, and its length unless that is one. Of an
empty range the number is that of the line in front of it. -/
def readRange? (s : Text) : Option Range :=
  match s.splitOn ',' with
  | [first] => (readNumber? first).map fun first => ⟨first - 1, 1⟩
  | [first, length] =>
    match readNumber? first, readNumber? length with
    | some first, some length => some ⟨if length == 0 then first else first - 1, length⟩
    | _, _ => none
  | _ => none

/-- The two ranges that a header tells. -/
def readHeader? (line : Text) : Option (Range × Range) :=
  match line.splitOn ' ' with
  | [['@', '@'], '-' :: old, '+' :: new, ['@', '@', '\n']] =>
    match readRange? old, readRange? new with
    | some old, some new => some (old, new)
    | _, _ => none
  | _ => none

/-- A hunk as it is read: the ranges that its header tells, and the marked lines below it. -/
structure ReadHunk where
  old : Range
  new : Range
  body : List Text
deriving DecidableEq, Repr

def isMarked (line : Text) : Bool := line.startsWith fun c => c == ' ' || c == '-' || c == '+'

/-- The hunks that lines show, if the lines are headers with marked lines below them. -/
def readHunks? : List Text → Option (List ReadHunk)
  | [] => some []
  | line :: rest =>
    match readHeader? line, readHunks? (rest.dropWhile isMarked) with
    | some (old, new), some more => some (⟨old, new, rest.takeWhile isMarked⟩ :: more)
    | _, _ => none
termination_by lines => lines.length
decreasing_by
  simp only [List.length_cons]
  exact Nat.lt_succ_of_le (List.dropWhile_sublist _).length_le

/-- The line behind one of two marks. -/
def unmark? (kept side : Char) : Text → Option Text
  | [] => none
  | mark :: line => if mark == kept || mark == side then some line else none

namespace ReadHunk

/-- The context and the removed lines. -/
def oldSide (h : ReadHunk) : List Text := h.body.filterMap (unmark? ' ' '-')

/-- The context and the added lines. -/
def newSide (h : ReadHunk) : List Text := h.body.filterMap (unmark? ' ' '+')

end ReadHunk

/-- The lines around the hunks, from the lines `i` and `j` on, are the same in both texts. -/
def SameOutside (old new : List Text) : (i j : Nat) → List ReadHunk → Prop
  | i, j, [] => old.drop i = new.drop j
  | i, j, h :: rest => (old.drop i).take (h.old.start - i) = (new.drop j).take (h.new.start - j) ∧
      SameOutside old new h.old.stop h.new.stop rest

/-- The lines of a text from line `i` on with the hunks put in place of the ranges they cover. -/
def applyFrom (old : List Text) : (i : Nat) → List ReadHunk → List Text
  | i, [] => old.drop i
  | i, h :: rest => (old.drop i).take (h.old.start - i) ++ h.newSide ++ applyFrom old h.old.stop rest

/-- The hunks are a patch from one text to another, from the lines `i` and `j` on: they stand one behind the other in both,
show the lines of their ranges, and leave out only lines that are the same, so that putting them in place of what they
cover turns the one text into the other. -/
structure IsPatch (old new : List Text) (i j : Nat) (found : List ReadHunk) : Prop where
  behind : ∀ h ∈ found, i ≤ h.old.start ∧ j ≤ h.new.start
  ordered : found.Pairwise fun h later => h.old.stop ≤ later.old.start ∧ h.new.stop ≤ later.new.start
  inside : ∀ h ∈ found, h.old.stop ≤ old.length ∧ h.new.stop ≤ new.length
  oldSide : ∀ h ∈ found, h.oldSide = h.old.of old
  newSide : ∀ h ∈ found, h.newSide = h.new.of new
  outside : SameOutside old new i j found
  applied : applyFrom old i found = new.drop j

/-! ### What is read is what is shown -/

theorem readNumber?_ofNat (n : Nat) : readNumber? (Text.ofNat n) = some n := by
  have hdigits : (Text.ofNat n).all Char.isDigit = true := by
    rw [List.all_eq_true]
    intro c hc
    exact Nat.isDigit_of_mem_toDigits (by decide) (by decide) hc
  have hne : (Text.ofNat n).isEmpty = false := by
    rw [List.isEmpty_eq_false_iff]
    exact Nat.toDigits_ne_nil
  rw [readNumber?, hdigits, hne]
  exact congrArg some Nat.ofDigitChars_ten_toDigits

theorem not_mem_ofNat {c : Char} (hc : c.isDigit = false) (n : Nat) : c ∉ Text.ofNat n := by
  intro hmem
  have hdigit : c.isDigit = true := Nat.isDigit_of_mem_toDigits (by decide) (by decide) hmem
  rw [hdigit] at hc
  contradiction

theorem readRange?_rangeText (start length : Nat) : readRange? (rangeText start length) = some ⟨start, length⟩ := by
  have hcomma := fun n => not_mem_ofNat (c := ',') (by decide) n
  unfold rangeText
  split
  next hone =>
    have hsplit : ([','].intercalate [Text.ofNat (start + 1)]).splitOn ',' = [Text.ofNat (start + 1)] :=
      List.splitOn_intercalate ',' (by simpa using hcomma _) (by simp)
    rw [List.intercalate_singleton] at hsplit
    rw [readRange?, hsplit]
    simp [readNumber?_ofNat, beq_iff_eq.mp hone]
  next hother =>
    generalize hfirst : (if length == 0 then start else start + 1) = first
    have hsplit : ([','].intercalate [Text.ofNat first, Text.ofNat length]).splitOn ',' =
        [Text.ofNat first, Text.ofNat length] :=
      List.splitOn_intercalate ',' (by simpa using ⟨hcomma _, hcomma _⟩) (by simp)
    have hrange : Text.ofNat first ++ ',' :: Text.ofNat length =
        [','].intercalate [Text.ofNat first, Text.ofNat length] := by
      simp [List.intercalate]
    rw [hrange, readRange?, hsplit]
    simp only [readNumber?_ofNat, Option.some.injEq, Range.mk.injEq, and_true]
    rw [← hfirst]
    split <;> rfl

theorem not_mem_rangeText {c : Char} (hdigit : c.isDigit = false) (hcomma : c ≠ ',') (start length : Nat) :
    c ∉ rangeText start length := by
  unfold rangeText
  split
  · exact not_mem_ofNat hdigit _
  · simp only [List.mem_append, List.mem_cons, not_or]
    exact ⟨not_mem_ofNat hdigit _, hcomma, not_mem_ofNat hdigit _⟩

/-- What a reader sees of a hunk. -/
def Hunk.shown (h : Hunk) : ReadHunk where
  old := ⟨h.oldStart, (oldLines h.segments).length⟩
  new := ⟨h.newStart, (newLines h.segments).length⟩
  body := h.segments.flatMap Segment.marked

theorem readHeader?_header (h : Hunk) : readHeader? h.header = some (h.shown.old, h.shown.new) := by
  have hblank := fun start length => not_mem_rangeText (c := ' ') (by decide) (by decide) start length
  have hheader : h.header = [' '].intercalate [['@', '@'], '-' :: rangeText h.oldStart (oldLines h.segments).length,
      '+' :: rangeText h.newStart (newLines h.segments).length, ['@', '@', '\n']] := by
    simp [Hunk.header, List.intercalate]
  rw [readHeader?, hheader, List.splitOn_intercalate ' ' (by simpa using ⟨hblank _ _, hblank _ _⟩) (by simp)]
  simp [readRange?_rangeText, Hunk.shown]

theorem isMarked_of_mem_marked {segment : Segment} {line : Text} (hline : line ∈ segment.marked) :
    isMarked line = true := by
  cases segment with
  | keep lines =>
      obtain ⟨kept, -, rfl⟩ := List.mem_map.mp hline
      rfl
  | change removed added =>
      rcases List.mem_append.mp hline with hline | hline
      · obtain ⟨gone, -, rfl⟩ := List.mem_map.mp hline
        rfl
      · obtain ⟨come, -, rfl⟩ := List.mem_map.mp hline
        rfl

/-- The lines below a header go on up to the next header. -/
theorem span_isMarked (h : Hunk) (rest : List Hunk) :
    (h.shown.body ++ rest.flatMap Hunk.lines).takeWhile isMarked = h.shown.body ∧
      (h.shown.body ++ rest.flatMap Hunk.lines).dropWhile isMarked = rest.flatMap Hunk.lines := by
  have hbody : ∀ line ∈ h.shown.body, isMarked line = true := by
    intro line hline
    obtain ⟨segment, -, hmarked⟩ := List.mem_flatMap.mp hline
    exact isMarked_of_mem_marked hmarked
  rw [List.takeWhile_append_of_pos hbody, List.dropWhile_append_of_pos hbody]
  cases rest with
  | nil => simp
  | cons next more =>
      have hheader : isMarked next.header = false := rfl
      simp [Hunk.lines, hheader]

theorem readHunks?_lines (found : List Hunk) :
    readHunks? (found.flatMap Hunk.lines) = some (found.map Hunk.shown) := by
  induction found with
  | nil => rw [List.flatMap_nil, readHunks?, List.map_nil]
  | cons h rest ih =>
      obtain ⟨htake, hdrop⟩ := span_isMarked h rest
      have hlines : (h :: rest).flatMap Hunk.lines = h.header :: (h.shown.body ++ rest.flatMap Hunk.lines) := rfl
      rw [hlines, readHunks?, htake, hdrop, ih, readHeader?_header]
      rfl

theorem oldSide_shown (h : Hunk) : h.shown.oldSide = oldLines h.segments := by
  have hsegment : ∀ segment : Segment, segment.marked.filterMap (unmark? ' ' '-') = segment.old := by
    intro segment
    cases segment with
    | keep lines => simp [Segment.marked, Segment.old, List.filterMap_map, Function.comp_def, unmark?]
    | change removed added =>
        simp [Segment.marked, Segment.old, List.filterMap_append, List.filterMap_map, Function.comp_def, unmark?]
  simp only [ReadHunk.oldSide, Hunk.shown, List.filterMap_flatMap, hsegment, oldLines]

theorem newSide_shown (h : Hunk) : h.shown.newSide = newLines h.segments := by
  have hsegment : ∀ segment : Segment, segment.marked.filterMap (unmark? ' ' '+') = segment.new := by
    intro segment
    cases segment with
    | keep lines => simp [Segment.marked, Segment.new, List.filterMap_map, Function.comp_def, unmark?]
    | change removed added =>
        simp [Segment.marked, Segment.new, List.filterMap_append, List.filterMap_map, Function.comp_def, unmark?]
  simp only [ReadHunk.newSide, Hunk.shown, List.filterMap_flatMap, hsegment, newLines]

/-! ### Hunks that cover two texts are a patch -/

theorem drop_eq_of_drop_append {old gap shown behind : List Text} {i start : Nat}
    (hdrop : old.drop i = gap ++ shown ++ behind) (hstart : start = i + gap.length) :
    (old.drop i).take (start - i) = gap ∧ (old.drop start).take shown.length = shown ∧
      old.drop (start + shown.length) = behind := by
  have hshown : old.drop start = shown ++ behind := by
    rw [hstart, ← List.drop_drop, hdrop, List.append_assoc, List.drop_left]
  refine ⟨?_, ?_, ?_⟩
  · rw [hdrop, hstart, Nat.add_sub_cancel_left, List.append_assoc, List.take_left]
  · rw [hshown, List.take_left]
  · rw [← List.drop_drop, hshown, List.drop_left]

theorem Covers.isPatch {old new : List Text} {i j : Nat} {found : List Hunk} (hi : i ≤ old.length) (hj : j ≤ new.length)
    (hcovers : Covers i j (old.drop i) (new.drop j) found) : IsPatch old new i j (found.map Hunk.shown) := by
  generalize hold : old.drop i = old', hnew : new.drop j = new' at hcovers
  induction hcovers with
  | @done i j same =>
      have hsame : old.drop i = new.drop j := by rw [hold, hnew]
      exact ⟨by simp, List.Pairwise.nil, by simp, by simp, by simp, hsame, hsame⟩
  | @hunk i j old' new' oldBehind newBehind h rest gap hoStart hnStart hoText hnText _ ih =>
      obtain ⟨hoGap, hoShown, hoBehind⟩ := drop_eq_of_drop_append (hold.trans hoText) hoStart
      obtain ⟨hnGap, hnShown, hnBehind⟩ := drop_eq_of_drop_append (hnew.trans hnText) hnStart
      have hoLength := congrArg List.length (hold.trans hoText)
      have hnLength := congrArg List.length (hnew.trans hnText)
      simp only [List.length_drop, List.length_append] at hoLength hnLength
      have hoInside : h.oldEnd ≤ old.length := by
        rw [Hunk.oldEnd]
        omega
      have hnInside : h.newEnd ≤ new.length := by
        rw [Hunk.newEnd]
        omega
      have hrest := ih hoInside hnInside hoBehind hnBehind
      have hoStop : h.shown.old.stop = h.oldEnd := rfl
      have hnStop : h.shown.new.stop = h.newEnd := rfl
      have hoSide : h.shown.oldSide = h.shown.old.of old := by rw [oldSide_shown]; exact hoShown.symm
      have hnSide : h.shown.newSide = h.shown.new.of new := by rw [newSide_shown]; exact hnShown.symm
      rw [List.map_cons]
      constructor
      · rw [List.forall_mem_cons]
        refine ⟨⟨?_, ?_⟩, fun later hlater => ?_⟩
        · show i ≤ h.oldStart
          omega
        · show j ≤ h.newStart
          omega
        · have hbehind := hrest.behind later hlater
          rw [Hunk.oldEnd, Hunk.newEnd] at hbehind
          omega
      · exact List.pairwise_cons.mpr ⟨hrest.behind, hrest.ordered⟩
      · exact List.forall_mem_cons.mpr ⟨⟨hoInside, hnInside⟩, hrest.inside⟩
      · exact List.forall_mem_cons.mpr ⟨hoSide, hrest.oldSide⟩
      · exact List.forall_mem_cons.mpr ⟨hnSide, hrest.newSide⟩
      · exact ⟨hoGap.trans hnGap.symm, hrest.outside⟩
      · calc applyFrom old i (h.shown :: rest.map Hunk.shown)
            = (old.drop i).take (h.oldStart - i) ++ newLines h.segments ++ new.drop h.newEnd := by
              rw [applyFrom, newSide_shown, hoStop, hrest.applied]
              rfl
          _ = gap ++ newLines h.segments ++ newBehind := by
              rw [hoGap, Hunk.newEnd, hnBehind]
          _ = new.drop j := by rw [hnew, hnText]

/-- The lines behind the two names of a difference are the hunks of the script. -/
theorem drop_unifiedLines (name old new : Text) :
    (unifiedLines name old new).drop 2 = (hunks (script old.lines new.lines)).flatMap Hunk.lines := by
  unfold unifiedLines
  split
  next hnone => rw [hnone]; rfl
  next => rfl

/-- There is a difference exactly between texts that differ. -/
theorem hunks_script_eq_nil_iff (old new : Text) : hunks (script old.lines new.lines) = [] ↔ new = old := by
  constructor
  · intro hnone
    have hlines := oldLines_eq_newLines_of_hunks hnone
    rw [oldLines_script, newLines_script] at hlines
    rw [← Text.flatten_lines new, ← hlines, Text.flatten_lines]
  · rintro rfl
    rw [script_self, hunks_keepOf]

theorem unified_eq_nil_iff (name old new : Text) : unified name old new = [] ↔ new = old := by
  have hempty : unified name old new = [] ↔ hunks (script old.lines new.lines) = [] := by
    unfold unified unifiedLines
    split
    next hnone => simp [hnone]
    next hsome => exact iff_of_false (List.cons_ne_nil _ _) hsome
  rw [hempty, hunks_script_eq_nil_iff]

end Patch

/-- The difference of a conversion is empty exactly if the output is the source. It is made of the lines emitted: two that
name the texts if there is a difference, and behind them the lines of hunks, which are a patch. The hunks stand one behind
the other, each shows the lines of its two ranges, the lines around them are the same in both texts, and applied to the
lines of the source they give the output. -/
theorem Conversion.diff_isPatch (c : Conversion) (path : Option Text) :
    (c.diff path = [] ↔ c.output = c.source) ∧
    c.diff path = (Patch.unifiedLines (nameFor path) c.source c.output).flatten ∧
    (c.output = c.source ∨
      (Patch.unifiedLines (nameFor path) c.source c.output).take 2 = Patch.nameLines (nameFor path)) ∧
    ∃ found, Patch.readHunks? ((Patch.unifiedLines (nameFor path) c.source c.output).drop 2) = some found ∧
      (found = [] ↔ c.output = c.source) ∧
      Patch.IsPatch c.source.lines c.output.lines 0 0 found ∧
      (Patch.applyFrom c.source.lines 0 found).flatten = c.output := by
  have hcovers := Patch.hunks_covers (Patch.script c.source.lines c.output.lines)
  rw [Patch.oldLines_script, Patch.newLines_script] at hcovers
  have hpatch : Patch.IsPatch c.source.lines c.output.lines 0 0
      ((Patch.hunks (Patch.script c.source.lines c.output.lines)).map Patch.Hunk.shown) :=
    Patch.Covers.isPatch (Nat.zero_le _) (Nat.zero_le _) hcovers
  refine ⟨Patch.unified_eq_nil_iff _ _ _, rfl, ?_, (Patch.hunks _).map Patch.Hunk.shown, ?_, ?_, hpatch, ?_⟩
  · rw [← Patch.hunks_script_eq_nil_iff, Patch.unifiedLines]
    split
    next hnone => exact Or.inl hnone
    next => exact Or.inr rfl
  · rw [Patch.drop_unifiedLines, Patch.readHunks?_lines]
  · rw [List.map_eq_nil_iff, Patch.hunks_script_eq_nil_iff]
  · rw [hpatch.applied, List.drop_zero, Text.flatten_lines]

end SwiftObservation
