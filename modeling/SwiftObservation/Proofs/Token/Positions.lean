import SwiftObservation.Proofs.Token.Course

/-!
# Tokens stand where they say

The lexer carries a position along and moves it character by character. `Position.inText` counts lines and columns afresh
for every offset, from the whole text in front of it, and the two agree. So every token of a source carries the position of
its own first character, and the end of the file that of the end.
-/

namespace SwiftObservation

/-- A line break ends with the character at the offset: a line feed, or a carriage return that no line feed follows. -/
def Text.breaksAt (s : Text) (offset : Nat) : Bool :=
  s[offset]? == some '\n' || (s[offset]? == some '\r' && s[offset + 1]? != some '\n')

/-- The offsets at which lines begin behind a line break, up to the given one. -/
def Text.lineStarts (s : Text) (offset : Nat) : List Nat :=
  ((List.range offset).filter s.breaksAt).map (· + 1)

namespace Position

/-- The position of an offset, counted in the text in front of it: one line more than there are line breaks, and one
column more than there are characters since the last of them. -/
def inText (s : Text) (offset : Nat) : Position where
  line := 1 + (s.lineStarts offset).length
  column := 1 + (offset - (s.lineStarts offset).getLastD 0)

theorem ofOffset_succ {s rest : Text} {c : Char} {offset : Nat} (hbehind : s.drop offset = c :: rest) :
    ofOffset s (offset + 1) = (ofOffset s offset).step c rest := by
  rw [ofOffset, advance_add, hbehind]
  rfl

theorem breaksAt_iff {s rest : Text} {c : Char} {offset : Nat} (hbehind : s.drop offset = c :: rest) :
    s.breaksAt offset = (c == '\n' || (c == '\r' && rest.head? != some '\n')) := by
  have hhere : s[offset]? = some c := by
    have hhead : (s.drop offset)[0]? = s[offset + 0]? := List.getElem?_drop
    rw [hbehind] at hhead
    simpa using hhead.symm
  have hnext : s[offset + 1]? = rest.head? := by
    have hsecond : (s.drop offset)[1]? = s[offset + 1]? := List.getElem?_drop
    rw [hbehind] at hsecond
    rw [← hsecond, List.head?_eq_getElem?]
    rfl
  simp [Text.breaksAt, hhere, hnext]

/-- Moving the position along and counting afresh come to the same. -/
theorem ofOffset_eq_inText {s : Text} {offset : Nat} (hoffset : offset ≤ s.length) :
    ofOffset s offset = inText s offset := by
  induction offset with
  | zero => rfl
  | succ offset ih =>
      obtain ⟨c, rest, hbehind⟩ : ∃ c rest, s.drop offset = c :: rest :=
        List.exists_cons_of_length_pos (by rw [List.length_drop]; omega)
      have hstarts : s.lineStarts (offset + 1) =
          s.lineStarts offset ++ if s.breaksAt offset then [offset + 1] else [] := by
        rw [Text.lineStarts, List.range_succ, List.filter_append, List.map_append]
        cases hbreak : s.breaksAt offset <;> simp [Text.lineStarts, hbreak]
      rw [ofOffset_succ hbehind, ih (by omega), step, ← breaksAt_iff hbehind]
      cases hbreak : s.breaksAt offset with
      | false =>
          simp only [hbreak, Bool.false_eq_true, ite_false, List.append_nil] at hstarts
          simp only [inText, hstarts, Bool.false_eq_true, ite_false, mk.injEq, true_and]
          omega
      | true =>
          simp only [hbreak, ite_true] at hstarts
          simp only [inText, hstarts, ite_true, mk.injEq, List.length_append, List.length_singleton,
            List.getLastD_concat]
          omega

theorem advance_length_take (p : Position) (n : Nat) (s : Text) : p.advance (s.take n).length s = p.advance n s := by
  induction n generalizing p s with
  | zero => simp
  | succ n ih =>
      cases s with
      | nil => rfl
      | cons c rest => exact ih (p.step c rest) rest

end Position

namespace Token

/-- The tokens stand one behind the other from the offset on, each at its position. -/
def Placed (source : Text) : (offset : Nat) → List Token → Prop
  | _, [] => True
  | offset, t :: rest =>
    t.position = .ofOffset source (offset + t.leading.length) ∧ Placed source (offset + t.fullText.length) rest

theorem placed_append {source : Text} {offset : Nat} {front back : List Token} :
    Placed source offset (front ++ back) ↔
      Placed source offset front ∧ Placed source (offset + (textOf front).length) back := by
  induction front generalizing offset with
  | nil => simp [Placed]
  | cons t rest ih => simp [Placed, ih, and_assoc, Nat.add_assoc]

variable {limit skip : Nat} {p : Position} {s source : Text} {tokens : List Token}

/-- What one turn of the lexer takes off the text is the token with its trivia. -/
theorem take_turn {n k m : Nat} {c : Char} {rest : Text} (hbegins : s.drop n = c :: rest) :
    s.take (n + (k + m + 1)) = s.take n ++ c :: rest.take k ++ (rest.drop k).take m := by
  rw [List.take_add, hbegins, List.take_succ_cons, List.take_add, List.append_assoc, List.cons_append]

theorem Streams.placed (hstreams : Streams limit skip p s tokens) {offset : Nat} (hs : source.drop offset = s)
    (hp : p = .ofOffset source offset) : Placed source offset tokens := by
  -- The position of a turn is that of its offset, because advancing goes on from where it was.
  have hadvance : ∀ {offset s p}, source.drop offset = s → p = Position.ofOffset source offset → ∀ n,
      p.advance n s = .ofOffset source (offset + (s.take n).length) := by
    rintro offset s p rfl rfl n
    rw [Position.ofOffset, Position.ofOffset, Position.advance_add, Position.advance_length_take]
  induction hstreams generalizing offset with
  | last hleading hends => exact ⟨hadvance hs hp _, trivial⟩
  | @more skip n k m p s rest c kind tokens hleading hbegins hscan htrailing _ ih =>
      have htaken := take_turn (k := k) (m := m) hbegins
      refine ⟨hadvance hs hp _, ih ?_ ?_⟩
      · have hbehind : s.drop (skip + n + (k + m + 1)) = rest.drop (k + m) := by
          rw [← List.drop_drop, hbegins, List.drop_succ_cons]
        have hsplit := List.take_append_drop (skip + n + (k + m + 1)) s
        rw [htaken, hbehind] at hsplit
        rw [← List.drop_drop, hs]
        exact (congrArg _ hsplit.symm).trans (List.drop_left' rfl)
      · rw [hadvance hs hp, htaken]
        rfl

theorem placed_of_stream (hstream : stream limit source = .ok tokens) : Placed source 0 tokens :=
  (stream_eq_ok_iff.mp hstream).placed rfl rfl

end Token

end SwiftObservation
