import Std.Data.HashMap
import SwiftObservation.Text.Basic

/-!
# Blocks of lines that two texts share

The longest block of lines that stands in both texts is found first, the earliest one among equals, and then the
longest blocks to its left and to its right, until nothing is shared any more. In a long text a line that occurs very
often cannot begin a block, though blocks run on over it.
-/

namespace SwiftObservation.Patch

/-- A block of `size` lines that begins at line `old` of one text and at line `new` of the other. -/
structure Block where
  old : Nat
  new : Nat
  size : Nat
deriving DecidableEq, Repr

/-- A range of lines of either text, its ends not included. -/
structure Window where
  oldLow : Nat
  oldHigh : Nat
  newLow : Nat
  newHigh : Nat

/-- Two texts by their lines, and for every line of the old one the places in the new one where a block may run
through it, in order. -/
structure Comparison where
  old : Array Text
  new : Array Text
  places : Array (List Nat)

/-- The number of lines from which on frequent lines do not begin blocks. -/
def frequentFrom : Nat := 200

/-- How often a line may occur in a text of so many lines before it counts as frequent. -/
def frequency (lineCount : Nat) : Nat := lineCount / 100 + 1

/-- Where each line occurs, in order. Frequent lines of a long text are left out. -/
def occurrences (lines : Array Text) : Std.HashMap String (List Nat) :=
  let all := (List.range lines.size).foldr (fun i found =>
    found.alter (String.ofList (lines.getD i [])) fun places => some (i :: places.getD [])) {}
  if lines.size < frequentFrom then all
  else all.filter fun _ places => places.length ≤ frequency lines.size

namespace Comparison

/-- The comparison of two lists of lines. -/
def ofLines (old new : List Text) : Comparison :=
  let found := occurrences new.toArray
  { old := old.toArray, new := new.toArray, places := old.toArray.map fun line => found.getD (String.ofList line) [] }

/-- Line `i` of the old and line `j` of the new text are the same. -/
def agree (c : Comparison) (i j : Nat) : Bool :=
  match c.old[i]?, c.new[j]? with
  | some x, some y => x == y
  | _, _ => false

/-- The blocks that end at line `i` of the old text, as pairs of where they end in the new text and how long they are.
They prolong the blocks that end one line earlier. The best block so far is carried along. -/
def prolong (i : Nat) (w : Window) : (places : List Nat) → (earlier : List (Nat × Nat)) →
    (row : List (Nat × Nat)) → (best : Block) → List (Nat × Nat) × Block
  | [], _, row, best => (row.reverse, best)
  | j :: places, earlier, row, best =>
    if j < w.newLow then prolong i w places earlier row best
    else if w.newHigh ≤ j then (row.reverse, best)
    else
      let earlier := earlier.dropWhile (·.1 + 1 < j)
      let size := match earlier with
        | (end_, size) :: _ => if end_ + 1 == j then size + 1 else 1
        | [] => 1
      let best := if best.size < size then ⟨i + 1 - size, j + 1 - size, size⟩ else best
      prolong i w places earlier ((j, size) :: row) best

/-- The longest block through the places, searched from line `i` of the old text over `count` lines. -/
def searchFrom (c : Comparison) (w : Window) : (count i : Nat) → (row : List (Nat × Nat)) → (best : Block) → Block
  | 0, _, _, best => best
  | count + 1, i, row, best =>
    let (row, best) := prolong i w (c.places.getD i []) row [] best
    searchFrom c w count (i + 1) row best

/-- A block prolonged to its left as far as the lines agree. -/
def extendLeft (c : Comparison) (w : Window) : (old new size : Nat) → Block
  | i + 1, j + 1, size =>
    if w.oldLow ≤ i && w.newLow ≤ j && c.agree i j then extendLeft c w i j (size + 1) else ⟨i + 1, j + 1, size⟩
  | i, j, size => ⟨i, j, size⟩

/-- A block prolonged to its right by at most `count` lines, as far as the lines agree. -/
def extendRight (c : Comparison) (w : Window) (b : Block) : (count : Nat) → Block
  | 0 => b
  | count + 1 =>
    if b.old + b.size < w.oldHigh && b.new + b.size < w.newHigh && c.agree (b.old + b.size) (b.new + b.size) then
      extendRight c w { b with size := b.size + 1 } count
    else b

/-- The longest block in a window. -/
def longest (c : Comparison) (w : Window) : Block :=
  let best := c.searchFrom w (w.oldHigh - w.oldLow) w.oldLow [] ⟨w.oldLow, w.newLow, 0⟩
  let best := c.extendLeft w best.old best.new best.size
  c.extendRight w best (w.oldHigh - w.oldLow)

/-- The blocks of a window from left to right, at most `fuel` of them inside one another. -/
def blocksIn (c : Comparison) : (fuel : Nat) → Window → List Block
  | 0, _ => []
  | fuel + 1, w =>
    let b := c.longest w
    if b.size == 0 then []
    else
      let left :=
        if w.oldLow < b.old && w.newLow < b.new then
          blocksIn c fuel { w with oldHigh := b.old, newHigh := b.new }
        else []
      let right :=
        if b.old + b.size < w.oldHigh && b.new + b.size < w.newHigh then
          blocksIn c fuel { w with oldLow := b.old + b.size, newLow := b.new + b.size }
        else []
      left ++ b :: right

end Comparison

/-- The blocks with those that touch in both texts joined. -/
def joinBlocks : List Block → List Block
  | [] => []
  | b :: rest =>
    match joinBlocks rest with
    | next :: more =>
      if b.old + b.size == next.old && b.new + b.size == next.new then
        { b with size := b.size + next.size } :: more
      else b :: next :: more
    | [] => [b]

/-- The blocks that two lists of lines share, from left to right. -/
def blocks (old new : List Text) : List Block :=
  joinBlocks ((Comparison.ofLines old new).blocksIn (old.length + 1)
    { oldLow := 0, oldHigh := old.length, newLow := 0, newHigh := new.length })

end SwiftObservation.Patch
