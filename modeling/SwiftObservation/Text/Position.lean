import SwiftObservation.Text.Basic

/-!
# Positions in a text

Lines and columns count from one. A line ends after a line feed, after a carriage return that no line feed
follows, and after the pair of the two; a column counts the code points since the line began.
-/

namespace SwiftObservation

/-- A line and a column. Positions of characters of a text count from one; a token that was made up may have any
other position, and `⟨0, 0⟩` if it was given none. -/
structure Position where
  line : Int := 0
  column : Int := 0
deriving DecidableEq, Inhabited, Repr

namespace Position

/-- Where every text begins. -/
def start : Position := ⟨1, 1⟩

/-- The position behind a character, given the text that follows it. -/
def step (p : Position) (c : Char) (rest : Text) : Position :=
  if c == '\n' || (c == '\r' && rest.head? != some '\n') then ⟨p.line + 1, 1⟩
  else ⟨p.line, p.column + 1⟩

/-- The position behind the first `n` characters of the text that begins at `p`. -/
def advance (p : Position) : Nat → Text → Position
  | 0, _ => p
  | _ + 1, [] => p
  | n + 1, c :: rest => advance (p.step c rest) n rest

@[simp] theorem advance_zero (p : Position) (s : Text) : p.advance 0 s = p := by
  cases s <;> rfl

/-- Advancing in two steps is advancing once, because a step sees the text behind it. -/
theorem advance_add (p : Position) (m n : Nat) (s : Text) :
    p.advance (m + n) s = (p.advance m s).advance n (s.drop m) := by
  induction m generalizing p s with
  | zero => simp
  | succ m ih =>
      rw [Nat.add_right_comm]
      cases s with
      | nil => cases n <;> rfl
      | cons c rest => exact ih (p.step c rest) rest

/-- The position of the character at an offset of a text. -/
def ofOffset (source : Text) (offset : Nat) : Position := start.advance offset source

end Position

end SwiftObservation
