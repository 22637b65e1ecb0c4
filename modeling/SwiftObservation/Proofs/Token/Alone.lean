import Mathlib.Data.List.Infix
import Mathlib.Data.List.TakeWhile
import SwiftObservation.Proofs.Token.Lossless

/-!
# A lexeme does not depend on what follows it

Most scanners look ahead: for the mark that closes a literal, the digit that makes a dot a fraction, the slash that makes
an operator end before a comment. Whatever they find there, the lexeme alone tells it again: cut off behind the lexeme
and continued by a line feed or by nothing, the text is scanned as before. The one thing that has to be said of the line
feed is that it continues no lexeme and closes nothing.
-/

namespace SwiftObservation

/-- Nothing is left of the line: the text ends, or a line feed comes next. -/
def Text.EndsLine (s : Text) : Prop := ∀ c ∈ s.head?, c = '\n'

namespace Text

variable {p : Char → Bool} {s front tail : Text}

theorem endsLine_nil : EndsLine [] := by simp [EndsLine]

theorem endsLine_cons (rest : Text) : EndsLine ('\n' :: rest) := by simp [EndsLine]

theorem EndsLine.cases (htail : EndsLine tail) : tail = [] ∨ ∃ rest, tail = '\n' :: rest := by
  cases tail with
  | nil => exact .inl rfl
  | cons c rest => exact .inr ⟨rest, by rw [htail c rfl]⟩

theorem EndsLine.startsWith (htail : EndsLine tail) (hp : p '\n' = false) : tail.startsWith p = false := by
  obtain rfl | ⟨rest, rfl⟩ := htail.cases
  · rfl
  · exact hp

/-- A class of characters without the line feed is found at the front only where it was. -/
theorem startsWith_take_append (htail : EndsLine tail) (hp : p '\n' = false) (n : Nat) :
    startsWith p (s.take n ++ tail) = (decide (0 < n) && startsWith p s) := by
  cases n with
  | zero => simpa using htail.startsWith hp
  | succ n =>
      cases s with
      | nil => simpa [Text.startsWith] using htail.startsWith hp
      | cons c rest => simp [Text.startsWith]

theorem startsWith_take_append_of_pos {n : Nat} (hn : 0 < n) (hs : startsWith p s = true) :
    startsWith p (s.take n ++ tail) = true := by
  obtain ⟨n, rfl⟩ := Nat.exists_eq_succ_of_ne_zero (Nat.ne_of_gt hn)
  cases s with
  | nil => simp [startsWith] at hs
  | cons c rest => exact hs

theorem runLength_le (p : Char → Bool) (s : Text) : runLength p s ≤ s.length := (List.takeWhile_prefix p).length_le

theorem take_runLength (p : Char → Bool) (s : Text) : s.take (runLength p s) = s.takeWhile p :=
  (List.prefix_iff_eq_take.mp (List.takeWhile_prefix p)).symm

theorem of_mem_take_runLength {c : Char} (hc : c ∈ s.take (runLength p s)) : p c = true := by
  rw [take_runLength] at hc
  exact List.mem_takeWhile_imp hc

theorem runLength_append (hfront : ∀ c ∈ front, p c = true) (htail : startsWith p tail = false) :
    runLength p (front ++ tail) = front.length := by
  rw [runLength, List.takeWhile_append_of_pos hfront]
  cases tail with
  | nil => simp
  | cons c rest =>
      have hc : p c = false := htail
      simp [hc]

theorem length_take_runLength (p : Char → Bool) (s : Text) : (s.take (runLength p s)).length = runLength p s := by
  rw [take_runLength, runLength]

theorem runLength_take_append (htail : startsWith p tail = false) :
    runLength p (s.take (runLength p s) ++ tail) = runLength p s := by
  rw [runLength_append (fun c hc => of_mem_take_runLength hc) htail, length_take_runLength]

theorem runLength_pos (hs : startsWith p s = true) : 0 < runLength p s := by
  cases s with
  | nil => simp [startsWith] at hs
  | cons c rest =>
      have hc : p c = true := hs
      simp [runLength, hc]

/-- A mark without a line feed is found at the front only where it was. -/
theorem prefix_of_prefix_take_append {mark : Text} {n : Nat} (htail : EndsLine tail) (hmark : '\n' ∉ mark)
    (hfound : mark <+: s.take n ++ tail) : mark <+: s := by
  obtain hshort | hlong := List.prefix_or_prefix_of_prefix hfound (List.prefix_append (s.take n) tail)
  · exact hshort.trans (List.take_prefix n s)
  · obtain ⟨more, rfl⟩ := hlong
    have hmore : more <+: tail := (List.prefix_append_right_inj _).mp hfound
    cases more with
    | nil => simpa using List.take_prefix n s
    | cons c more =>
        obtain ⟨rest, rfl⟩ := hmore
        have hc : c = '\n' := htail c rfl
        simp [hc] at hmark

theorem prefix_take_append {mark : Text} {n : Nat} (hfound : mark <+: s) (hn : mark.length ≤ n) :
    mark <+: s.take n ++ tail :=
  (List.prefix_take_iff.mpr ⟨hfound, hn⟩).trans (List.prefix_append _ _)

theorem drop_take_append {m n : Nat} (hm : m ≤ n) (hs : m ≤ s.length) :
    (s.take n ++ tail).drop m = (s.drop m).take (n - m) ++ tail := by
  rw [List.drop_append_of_le_length (by rw [List.length_take]; omega), List.drop_take]

/-- A character other than the line feed comes first only where it did. -/
theorem head?_take_append {c : Char} (htail : EndsLine tail) (hc : c ≠ '\n') (n : Nat) :
    (s.take n ++ tail).head? = some c ↔ 0 < n ∧ s.head? = some c := by
  have hnever : tail.head? ≠ some c := fun hhead => hc (htail c hhead)
  cases n with
  | zero => simpa using hnever
  | succ n =>
      cases s with
      | nil => simpa using hnever
      | cons d rest => simp

end Text

/-! ### Comments -/

namespace Trivia

theorem blockCommentFrom_bounds {depth n m : Nat} {s : Text} (hcomment : blockCommentFrom depth n s = some m) :
    n + 2 ≤ m ∧ m ≤ n + s.length := by
  fun_induction blockCommentFrom depth n s with
  | case1 => simp at hcomment
  | case2 depth n rest ih =>
      have hbounds := ih hcomment
      simp only [List.length_cons]
      omega
  | case3 depth n rest hdepth =>
      simp only [Option.some.injEq] at hcomment
      simp only [List.length_cons]
      omega
  | case4 depth n rest hdepth ih =>
      have hbounds := ih hcomment
      simp only [List.length_cons]
      omega
  | case5 depth n c rest _ _ ih =>
      have hbounds := ih hcomment
      simp only [List.length_cons]
      omega

/-- A block comment that has an end is the same comment in a text cut off behind it. -/
theorem blockCommentFrom_take_append {depth n m k : Nat} {s tail : Text} (htail : tail.EndsLine)
    (hcomment : blockCommentFrom depth n s = some m) (hk : m ≤ n + k) :
    blockCommentFrom depth n (s.take k ++ tail) = some m := by
  fun_induction blockCommentFrom depth n s generalizing k with
  | case1 => simp at hcomment
  | case2 depth n rest ih =>
      have hbounds := blockCommentFrom_bounds hcomment
      obtain ⟨k, rfl⟩ : ∃ j, k = j + 2 := ⟨k - 2, by omega⟩
      simpa [blockCommentFrom] using ih hcomment (by omega)
  | case3 depth n rest hdepth =>
      simp only [Option.some.injEq] at hcomment
      obtain ⟨k, rfl⟩ : ∃ j, k = j + 2 := ⟨k - 2, by omega⟩
      simpa [blockCommentFrom, hdepth] using hcomment
  | case4 depth n rest hdepth ih =>
      have hbounds := blockCommentFrom_bounds hcomment
      obtain ⟨k, rfl⟩ : ∃ j, k = j + 2 := ⟨k - 2, by omega⟩
      simpa [blockCommentFrom, hdepth] using ih hcomment (by omega)
  | case5 depth n c rest hopener hcloser ih =>
      have hbounds := blockCommentFrom_bounds hcomment
      obtain ⟨k, rfl⟩ : ∃ j, k = j + 1 := ⟨k - 1, by omega⟩
      rw [List.take_succ_cons, List.cons_append, blockCommentFrom]
      · exact ih hcomment (by omega)
      -- What follows the slash or the star is the next character of the comment, or the end of the line.
      · intro behind hc hrest
        have hstar : ['*'] <+: rest := Text.prefix_of_prefix_take_append htail (by decide) ⟨behind, hrest.symm⟩
        obtain ⟨behind', hbehind⟩ := hstar
        exact hopener behind' hc hbehind.symm
      · intro behind hc hrest
        have hslash : ['/'] <+: rest := Text.prefix_of_prefix_take_append htail (by decide) ⟨behind, hrest.symm⟩
        obtain ⟨behind', hbehind⟩ := hslash
        exact hcloser behind' hc hbehind.symm

theorem blockComment?_take_append {m k : Nat} {s tail : Text} (htail : tail.EndsLine)
    (hcomment : blockComment? s = some m) (hk : m ≤ k) : blockComment? (s.take k ++ tail) = some m :=
  blockCommentFrom_take_append htail hcomment (by omega)

/-- No trivia begins where none began. -/
theorem piece?_take_append {n : Nat} {c : Char} {rest tail : Text} (htail : tail.EndsLine)
    (hpiece : piece? true c rest = .ok none) : piece? true c (rest.take n ++ tail) = .ok none := by
  unfold piece? at hpiece ⊢
  repeat' split at hpiece
  all_goals simp only [reduceCtorEq, Except.ok.injEq] at hpiece
  next hspace hline hblock =>
    have hline' : ¬ (c == '/' && (rest.take n ++ tail).head? == some '/') = true := by
      simp only [Bool.and_eq_true, beq_iff_eq, Text.head?_take_append htail (by decide : '/' ≠ '\n')] at hline ⊢
      exact fun hfound => hline ⟨hfound.1, hfound.2.2⟩
    have hblock' : ¬ (c == '/' && (rest.take n ++ tail).head? == some '*') = true := by
      simp only [Bool.and_eq_true, beq_iff_eq, Text.head?_take_append htail (by decide : '*' ≠ '\n')] at hblock ⊢
      exact fun hfound => hblock ⟨hfound.1, hfound.2.2⟩
    rw [if_neg hspace, if_neg hline', if_neg hblock']

end Trivia

/-! ### String literals -/

namespace Literal

variable {s tail : Text}

/-- The number signs and the quote that open a literal. -/
def mark (pounds : Nat) : Text := List.replicate pounds '#' ++ ['"']

theorem length_mark (pounds : Nat) : (mark pounds).length = pounds + 1 := by simp [mark]

theorem opening?_eq_some_iff {pounds : Nat} : opening? s = some pounds ↔ mark pounds <+: s := by
  unfold opening?
  dsimp only
  constructor
  · intro hopen
    split at hopen
    next hquote =>
      obtain rfl := Option.some.inj hopen
      obtain ⟨behind, hbehind⟩ := List.head?_eq_some_iff.mp (beq_iff_eq.mp hquote)
      have hpounds : s.take (s.runLength (· == '#')) = List.replicate (s.runLength (· == '#')) '#' := by
        rw [List.eq_replicate_iff]
        exact ⟨Text.length_take_runLength _ s, fun c hc => by simpa using Text.of_mem_take_runLength hc⟩
      refine ⟨behind, ?_⟩
      rw [mark, List.append_assoc, List.singleton_append, ← hbehind, ← hpounds, List.take_append_drop]
    next => simp at hopen
  · rintro ⟨behind, rfl⟩
    have hrun : Text.runLength (· == '#') (mark pounds ++ behind) = pounds := by
      rw [mark, List.append_assoc, Text.runLength_append (by simp) rfl, List.length_replicate]
    rw [hrun, mark, List.append_assoc, List.drop_left' List.length_replicate]
    rfl

theorem newline_not_mem_mark (pounds : Nat) : '\n' ∉ mark pounds := by simp [mark, List.mem_replicate]

theorem newline_not_mem_quotes (multiline : Bool) : '\n' ∉ quotes multiline := by cases multiline <;> decide

theorem newline_not_mem_closing (pounds : Nat) (multiline : Bool) : '\n' ∉ closing pounds multiline := by
  simp [closing, List.mem_replicate, newline_not_mem_quotes]

theorem newline_not_mem_escape (pounds : Nat) : '\n' ∉ escape pounds := by simp [escape, List.mem_replicate]

theorem opening?_take_append {n pounds : Nat} (hopen : opening? s = some pounds) (hn : pounds < n) :
    opening? (s.take n ++ tail) = some pounds := by
  rw [opening?_eq_some_iff] at hopen ⊢
  exact Text.prefix_take_append hopen (by rw [length_mark]; omega)

theorem opening?_take_append_eq_none {n : Nat} (htail : tail.EndsLine) (hopen : opening? s = none) :
    opening? (s.take n ++ tail) = none := by
  rw [Option.eq_none_iff_forall_ne_some] at hopen ⊢
  intro pounds hfound
  rw [opening?_eq_some_iff] at hfound
  exact hopen pounds (opening?_eq_some_iff.mpr
    (Text.prefix_of_prefix_take_append htail (newline_not_mem_mark pounds) hfound))

/-- Whether a mark stands at the front is decided by as many characters as it has. -/
theorem isPrefixOf_take_append {text : Text} {n : Nat} (htail : tail.EndsLine) (htext : '\n' ∉ text)
    (hn : text <+: s → text.length ≤ n) : text.isPrefixOf (s.take n ++ tail) = text.isPrefixOf s := by
  rw [Bool.eq_iff_iff, List.isPrefixOf_iff_prefix, List.isPrefixOf_iff_prefix]
  constructor
  · intro hfound
    exact Text.prefix_of_prefix_take_append htail htext hfound
  · intro hfound
    exact Text.prefix_take_append hfound (hn hfound)

theorem not_isPrefixOf_take_append {text : Text} {n : Nat} {here : Bool} (htail : tail.EndsLine) (htext : '\n' ∉ text)
    (hnot : ¬ (here && text.isPrefixOf s) = true) : ¬ (here && text.isPrefixOf (s.take n ++ tail)) = true := by
  simp only [Bool.and_eq_true, List.isPrefixOf_iff_prefix, not_and] at hnot ⊢
  intro hhere hfound
  exact hnot hhere (Text.prefix_of_prefix_take_append htail htext hfound)

theorem opened_take_append {n pounds start : Nat} (htail : tail.EndsLine) (hopen : opening? s = some pounds)
    (hn : (opened pounds start s).2 ≤ n) : opened pounds start (s.take n ++ tail) = opened pounds start s := by
  have hmark := (opening?_eq_some_iff.mp hopen).length_le
  rw [length_mark] at hmark
  simp only [opened] at hn ⊢
  have hsame : (quotes true).isPrefixOf ((s.take n ++ tail).drop pounds) = (quotes true).isPrefixOf (s.drop pounds) := by
    rw [Text.drop_take_append (by omega) (by omega)]
    refine isPrefixOf_take_append htail (newline_not_mem_quotes true) fun hthree => ?_
    rw [List.isPrefixOf_iff_prefix.mpr hthree] at hn
    omega
  rw [hsame]

/-- A move in a literal sees no further than it goes. -/
theorem moveInLiteral_take_append {pounds start skip n : Nat} {multiline : Bool} {below frames : List Frame} {c : Char}
    (htail : tail.EndsLine) (hmove : moveInLiteral pounds multiline start below s c = .ok (skip, frames))
    (hn : skip < n) : moveInLiteral pounds multiline start below (s.take n ++ tail) c = .ok (skip, frames) := by
  unfold moveInLiteral at hmove ⊢
  dsimp only at hmove ⊢
  split at hmove
  next => simp at hmove
  next hline =>
    rw [if_neg hline]
    split at hmove
    next hclose =>
      obtain ⟨rfl, rfl⟩ := Prod.mk.inj (Except.ok.inj hmove)
      have hsame := isPrefixOf_take_append (s := s) htail (newline_not_mem_closing pounds multiline)
        (n := n) (fun _ => by omega)
      rw [hsame, if_pos hclose]
    next hclose =>
      rw [if_neg (not_isPrefixOf_take_append htail (newline_not_mem_closing pounds multiline) hclose)]
      split at hmove
      next hescape =>
        have hlength : (escape pounds).length = pounds + 1 := by simp [escape]
        have hskip : skip = pounds + 1 := by
          split at hmove <;> exact (Prod.mk.inj (Except.ok.inj hmove)).1.symm
        have hsame := isPrefixOf_take_append (s := s) htail (newline_not_mem_escape pounds)
          (n := n) (fun _ => by omega)
        have hfound : escape pounds <+: s := by
          simp only [Bool.and_eq_true, List.isPrefixOf_iff_prefix] at hescape
          exact hescape.2
        have hparen : ((s.take n ++ tail).drop (pounds + 1)).head? = some '(' ↔ (s.drop (pounds + 1)).head? = some '(' := by
          rw [Text.drop_take_append (by omega) (by simpa [hlength] using hfound.length_le),
            Text.head?_take_append htail (by decide)]
          exact and_iff_right (by omega)
        rw [hsame, if_pos hescape]
        simpa only [beq_iff_eq, hparen] using hmove
      next hescape =>
        rw [if_neg (not_isPrefixOf_take_append htail (newline_not_mem_escape pounds) hescape)]
        exact hmove

/-- A move in an interpolation sees no further than it goes. -/
theorem moveInInterpolation_take_append {limit parens i skip n : Nat} {below frames : List Frame} {c : Char}
    (htail : tail.EndsLine) (hs : s ≠ []) (hmove : moveInInterpolation limit parens i below s c = .ok (skip, frames))
    (hn : skip < n) : moveInInterpolation limit parens i below (s.take n ++ tail) c = .ok (skip, frames) := by
  unfold moveInInterpolation at hmove ⊢
  dsimp only at hmove ⊢
  split at hmove
  next hparen =>
    rw [if_pos hparen]
    exact hmove
  next hparen =>
    rw [if_neg hparen]
    split at hmove
    next hclose =>
      rw [if_pos hclose]
      exact hmove
    next hclose =>
      rw [if_neg hclose]
      split at hmove
      next hsign =>
        rw [if_pos hsign]
        split at hmove
        next pounds hopen =>
          split at hmove
          next => simp at hmove
          next hlimit =>
            obtain ⟨rfl, rfl⟩ := Prod.mk.inj (Except.ok.inj hmove)
            have hpounds : pounds < (opened pounds i s).2 := by
              simp only [opened]
              cases (quotes true).isPrefixOf (s.drop pounds) <;> simp [quotes]
            rw [opening?_take_append hopen (by omega)]
            dsimp only
            rw [if_neg hlimit, opened_take_append htail hopen (by omega)]
        next hopen =>
          rw [opening?_take_append_eq_none htail hopen]
          exact hmove
      next hsign =>
        rw [if_neg hsign]
        have hpos := List.length_pos_iff.mpr hs
        have hstar : ((s.take n ++ tail).drop 1).head? = some '*' ↔ 0 < n - 1 ∧ (s.drop 1).head? = some '*' := by
          rw [Text.drop_take_append (by omega) (by omega), Text.head?_take_append htail (by decide)]
        simp only [Bool.and_eq_true, beq_iff_eq, hstar] at hmove ⊢
        split at hmove
        next hcomment =>
          split at hmove
          next length hlength =>
            obtain ⟨rfl, rfl⟩ := Prod.mk.inj (Except.ok.inj hmove)
            have hbounds := Trivia.blockCommentFrom_bounds hlength
            rw [if_pos ⟨hcomment.1, by omega, hcomment.2⟩, Trivia.blockComment?_take_append htail hlength (by omega)]
          next => simp at hmove
        next hcomment =>
          rw [if_neg fun hfound => hcomment ⟨hfound.1, hfound.2.2⟩]
          exact hmove

theorem move_take_append {limit i skip n : Nat} {top : Frame} {below frames : List Frame} {c : Char}
    (htail : tail.EndsLine) (hs : s ≠ []) (hmove : move limit i top below s c = .ok (skip, frames)) (hn : skip < n) :
    move limit i top below (s.take n ++ tail) c = .ok (skip, frames) := by
  cases top with
  | literal pounds multiline start => exact moveInLiteral_take_append htail hmove hn
  | interpolation parens => exact moveInInterpolation_take_append htail hs hmove hn

theorem lt_of_lengthFrom {limit skip i m : Nat} {top : Frame} {below : List Frame}
    (hlength : lengthFrom limit skip i top below s = .ok m) : i + skip < m := by
  fun_induction lengthFrom limit skip i top below s with
  | case1 => simp at hlength
  | case2 skip i top below c rest ih =>
      have hrest := ih hlength
      omega
  | case3 => simp at hlength
  | case4 i top below c rest skip hmove =>
      have hend := Except.ok.inj hlength
      omega
  | case5 i top below c rest skip top' below' hmove ih =>
      have hrest := ih hlength
      omega

/-- A move that closes the literal stays in the text. -/
theorem lt_length_of_move {limit i skip : Nat} {top : Frame} {below : List Frame} {c : Char} (hs : s ≠ [])
    (hmove : move limit i top below s c = .ok (skip, [])) : skip < s.length := by
  have hpos := List.length_pos_iff.mpr hs
  cases top with
  | literal pounds multiline start =>
      simp only [move, moveInLiteral] at hmove
      split at hmove
      next => simp at hmove
      next =>
        split at hmove
        next hclose =>
          simp only [Bool.and_eq_true, List.isPrefixOf_iff_prefix] at hclose
          have hle := hclose.2.length_le
          have hskip := (Prod.mk.inj (Except.ok.inj hmove)).1
          omega
        next =>
          repeat' split at hmove
          all_goals simp at hmove
  | interpolation parens =>
      simp only [move, moveInInterpolation] at hmove
      repeat' split at hmove
      all_goals simp only [reduceCtorEq, Except.ok.injEq, Prod.mk.injEq, and_false] at hmove
      omega

theorem lengthFrom_le {limit skip i m : Nat} {top : Frame} {below : List Frame}
    (hlength : lengthFrom limit skip i top below s = .ok m) : m ≤ i + s.length := by
  fun_induction lengthFrom limit skip i top below s with
  | case1 => simp at hlength
  | case2 skip i top below c rest ih =>
      have hrest := ih hlength
      rw [List.length_cons]
      omega
  | case3 => simp at hlength
  | case4 i top below c rest skip hmove =>
      have hskip := lt_length_of_move (List.cons_ne_nil c rest) hmove
      have hend := Except.ok.inj hlength
      omega
  | case5 i top below c rest skip top' below' hmove ih =>
      have hrest := ih hlength
      rw [List.length_cons]
      omega

/-- A literal that has an end is the same literal in a text cut off behind it. -/
theorem lengthFrom_take_append {limit skip i m n : Nat} {top : Frame} {below : List Frame} (htail : tail.EndsLine)
    (hlength : lengthFrom limit skip i top below s = .ok m) (hn : m ≤ i + n) :
    lengthFrom limit skip i top below (s.take n ++ tail) = .ok m := by
  have hlt := lt_of_lengthFrom hlength
  obtain ⟨n, rfl⟩ : ∃ k, n = k + 1 := ⟨n - 1, by omega⟩
  fun_induction lengthFrom limit skip i top below s generalizing n with
  | case1 => simp at hlength
  | case2 skip i top below c rest ih =>
      obtain ⟨n, rfl⟩ : ∃ k, n = k + 1 := ⟨n - 1, by omega⟩
      rw [List.take_succ_cons, List.cons_append, lengthFrom]
      exact ih hlength (by omega) n (by omega)
  | case3 => simp at hlength
  | case4 i top below c rest skip hmove =>
      obtain rfl := Except.ok.inj hlength
      have hsame := move_take_append htail (List.cons_ne_nil c rest) hmove (n := n + 1) (by omega)
      rw [List.take_succ_cons, List.cons_append] at hsame ⊢
      rw [lengthFrom, hsame]
  | case5 i top below c rest skip top' below' hmove ih =>
      have hrest := lt_of_lengthFrom hlength
      have hsame := move_take_append htail (List.cons_ne_nil c rest) hmove (n := n + 1) (by omega)
      obtain ⟨n, rfl⟩ : ∃ k, n = k + 1 := ⟨n - 1, by omega⟩
      rw [List.take_succ_cons, List.cons_append] at hsame ⊢
      rw [lengthFrom, hsame]
      exact ih hlength (by omega) n (by omega)

theorem length_take_append {limit pounds n : Nat} (htail : tail.EndsLine) (hopen : opening? s = some pounds)
    (hlength : length limit pounds s = .ok n) : length limit pounds (s.take n ++ tail) = .ok n := by
  have hlt : (opened pounds 0 s).2 < n := by simpa [opened] using lt_of_lengthFrom hlength
  unfold length at hlength ⊢
  rw [opened_take_append htail hopen (by omega)]
  exact lengthFrom_take_append htail hlength (by omega)

end Literal

/-! ### Numbers and operators -/

namespace Lexeme

variable {s tail : Text}

theorem le_radixLengthFrom (n : Nat) (s : Text) : n ≤ radixLengthFrom n s := by
  fun_induction radixLengthFrom n s <;> omega

theorem radixLengthFrom_le (n : Nat) (s : Text) : radixLengthFrom n s ≤ n + s.length := by
  fun_induction radixLengthFrom n s
  all_goals simp only [List.length_cons, List.length_nil] at *
  all_goals omega

theorem isNameChar_of_isAlphanumeric {c : Char} (hc : isAlphanumeric c = true) : isNameChar c = true := by
  simp [isNameChar, hc]

theorem isNameChar_of_isNameStart {c : Char} (hc : isNameStart c = true) : isNameChar c = true := by
  simp only [isNameStart, Bool.or_eq_true] at hc
  rcases hc with hc | hc
  · simp [isNameChar, hc]
  · simp [isNameChar, isAlphanumeric, hc]

theorem isNameChar_newline : isNameChar '\n' = false := by decide +kernel

theorem isDigitChar_newline : isDigitChar '\n' = false := by decide +kernel

theorem startsWith_isDigitChar (hs : Text.startsWith Text.isDigit s = true) : Text.startsWith isDigitChar s = true := by
  cases s with
  | nil => exact hs
  | cons c rest =>
      have hc : Text.isDigit c = true := hs
      simp [Text.startsWith, isDigitChar, hc]

theorem startsWith_isNameChar (hs : Text.startsWith isNameStart s = true) : Text.startsWith isNameChar s = true := by
  cases s with
  | nil => exact hs
  | cons c rest => exact isNameChar_of_isNameStart hs

theorem radixLengthFrom_endsLine (htail : tail.EndsLine) (n : Nat) : radixLengthFrom n tail = n := by
  obtain rfl | ⟨rest, rfl⟩ := htail.cases
  · rfl
  · cases rest <;> simp [radixLengthFrom, isNameChar_newline]

/-- A character of a name that no exponent follows is taken by itself. -/
theorem radixLengthFrom_cons {n : Nat} {c : Char} (hc : isNameChar c = true)
    (hsign : ((c == 'p' || c == 'P') && s.startsWith isSign) = false) :
    radixLengthFrom n (c :: s) = radixLengthFrom (n + 1) s := by
  have hdot : (c == '.') = false := by
    rw [beq_eq_false_iff_ne]
    rintro rfl
    exact absurd hc (by decide +kernel)
  cases s with
  | nil => simp [radixLengthFrom, hc]
  | cons next rest =>
      simp only [Text.startsWith] at hsign
      simp [radixLengthFrom, hc, hdot, hsign]

theorem lt_radixLengthFrom {n : Nat} {c : Char} (hc : isNameChar c = true) (rest : Text) :
    n < radixLengthFrom n (c :: rest) := by
  cases hsign : (c == 'p' || c == 'P') && rest.startsWith isSign with
  | false =>
      rw [radixLengthFrom_cons hc hsign]
      exact le_radixLengthFrom (n + 1) rest
  | true =>
      cases rest with
      | nil => simp [Text.startsWith] at hsign
      | cons next rest =>
          have hdot : (c == '.') = false := by
            rw [beq_eq_false_iff_ne]
            rintro rfl
            simp at hsign
          simp only [Text.startsWith] at hsign
          have hle := le_radixLengthFrom (n + 2) rest
          simp only [radixLengthFrom, hdot, hc, hsign, Bool.not_true, Bool.false_eq_true, ite_false, ite_true]
          omega

theorem radixLengthFrom_take_append {n k : Nat} (htail : tail.EndsLine) (hlength : radixLengthFrom n s = n + k) :
    radixLengthFrom n (s.take k ++ tail) = n + k := by
  -- Where the number ends, nothing is left but the end of the line.
  have hend : ∀ {n k}, n = n + k → ∀ s : Text, radixLengthFrom n (s.take k ++ tail) = n + k := by
    intro n k hk s
    obtain rfl : k = 0 := by omega
    simpa using radixLengthFrom_endsLine htail n
  have hnosign : isSign '\n' = false := by decide
  fun_induction radixLengthFrom n s generalizing k with
  | case1 n => exact hend hlength []
  | case2 n c hc =>
      obtain rfl : k = 1 := by omega
      show radixLengthFrom n (c :: tail) = n + 1
      rw [radixLengthFrom_cons hc (by simp [htail.startsWith hnosign]), radixLengthFrom_endsLine htail]
  | case3 n c hc => exact hend hlength [c]
  | case4 n c next rest hdot hnext ih =>
      have hlt := lt_radixLengthFrom (n := n + 1) (isNameChar_of_isAlphanumeric hnext) rest
      obtain ⟨k, rfl⟩ : ∃ j, k = j + 2 := ⟨k - 2, by omega⟩
      have hrest := ih (k := k + 1) (by omega)
      simp only [List.take_succ_cons, List.cons_append, radixLengthFrom, hdot, hnext, ite_true] at hrest ⊢
      rw [hrest]
      omega
  | case5 n c next rest hdot hnext => exact hend hlength _
  | case6 n c next rest hdot hc => exact hend hlength _
  | case7 n c next rest hdot hc hsign ih =>
      have hle := le_radixLengthFrom (n + 2) rest
      obtain ⟨k, rfl⟩ : ∃ j, k = j + 2 := ⟨k - 2, by omega⟩
      have hrest := ih (k := k) (by omega)
      simp only [List.take_succ_cons, List.cons_append, radixLengthFrom, hdot, hc, hsign, Bool.false_eq_true, ite_false,
        ite_true]
      rw [hrest]
      omega
  | case8 n c next rest hdot hc hsign ih =>
      have hle := le_radixLengthFrom (n + 1) (next :: rest)
      obtain ⟨k, rfl⟩ : ∃ j, k = j + 1 := ⟨k - 1, by omega⟩
      have hsign' : ((c == 'p' || c == 'P') && Text.startsWith isSign ((next :: rest).take k ++ tail)) = false := by
        rw [Text.startsWith_take_append htail hnosign, Bool.eq_false_iff]
        intro hfound
        simp only [Bool.and_eq_true, Text.startsWith] at hfound
        exact hsign (by simp [hfound.1, hfound.2.2])
      have hrest := ih (k := k) (by omega)
      rw [List.take_succ_cons, List.cons_append, radixLengthFrom_cons (by simpa using hc) hsign', hrest]
      omega

/-- The front of an exponent, and what stands in its place where there is none. -/
theorem startsWith_exponent {p : Char → Bool} (htail : tail.EndsLine) (hline : p '\n' = false) (hsmall : p 'e' = false)
    (hlarge : p 'E' = false) : Text.startsWith p (s.take (exponentLength s) ++ tail) = false := by
  fun_cases exponentLength s with
  | case1 mark next rest hmark =>
      simp only [Bool.and_eq_true, Bool.or_eq_true, beq_iff_eq] at hmark
      rw [Text.startsWith_take_append htail hline, Bool.and_eq_false_iff]
      refine .inr ?_
      rcases hmark.1 with rfl | rfl
      · exact hsmall
      · exact hlarge
  | case2 | case3 => simpa using htail.startsWith hline

theorem exponentLength_take_append (htail : tail.EndsLine) :
    exponentLength (s.take (exponentLength s) ++ tail) = exponentLength s := by
  have hnone : exponentLength tail = 0 := by
    obtain rfl | ⟨rest, rfl⟩ := htail.cases
    · rfl
    · cases rest <;> simp [exponentLength]
  fun_cases exponentLength s with
  | case1 mark next rest hmark =>
      have hrun := Text.runLength_take_append (s := rest) (htail.startsWith isDigitChar_newline)
      have hdigit : Text.startsWith Text.isDigit (rest.take (Text.runLength isDigitChar rest) ++ tail) =
          Text.startsWith Text.isDigit rest := by
        rw [Text.startsWith_take_append htail (by decide +kernel), Bool.and_eq_right_iff_imp]
        intro hfirst
        simpa using Text.runLength_pos (startsWith_isDigitChar hfirst)
      rw [Nat.add_comm 2, List.take_succ_cons, List.take_succ_cons, List.cons_append, List.cons_append, exponentLength,
        hdigit, if_pos hmark, hrun, Nat.add_comm]
  | case2 | case3 => simpa using hnone

/-- A fraction ends in front of what is neither a digit nor a dot. -/
theorem fractionLength_take_append (htail : Text.startsWith (fun c => isDigitChar c || c == '.') tail = false) :
    fractionLength (s.take (fractionLength s) ++ tail) = fractionLength s := by
  have hdigit : Text.startsWith isDigitChar tail = false := by
    cases tail with
    | nil => rfl
    | cons c rest => exact (Bool.or_eq_false_iff.mp htail).1
  have hnone : fractionLength tail = 0 := by
    cases tail with
    | nil => rfl
    | cons c rest =>
        have hdot : c ≠ '.' := by simpa using (Bool.or_eq_false_iff.mp htail).2
        rw [fractionLength]
        intro rest' hcons
        exact hdot (List.cons.inj hcons).1
  fun_cases fractionLength s with
  | case1 rest hfirst =>
      have hpos := Text.runLength_pos (startsWith_isDigitChar hfirst)
      have hrun := Text.runLength_take_append (s := rest) hdigit
      have hfirst' : Text.startsWith Text.isDigit (rest.take (Text.runLength isDigitChar rest) ++ tail) = true :=
        Text.startsWith_take_append_of_pos hpos hfirst
      rw [Nat.add_comm 1, List.take_succ_cons, List.cons_append, fractionLength, if_pos hfirst', hrun, Nat.add_comm]
  | case2 | case3 => simpa using hnone

/-- The front of a fraction, and what stands in its place where there is none. -/
theorem startsWith_fraction {p : Char → Bool} (hdot : p '.' = false) (htail : tail.startsWith p = false) :
    Text.startsWith p (s.take (fractionLength s) ++ tail) = false := by
  fun_cases fractionLength s with
  | case1 rest hfirst =>
      rw [Nat.add_comm 1]
      exact hdot
  | case2 | case3 => simpa using htail

theorem fractionLength_le (s : Text) : fractionLength s ≤ s.length := by
  fun_cases fractionLength s with
  | case1 rest hfirst =>
      have hle := Text.runLength_le isDigitChar rest
      rw [List.length_cons]
      omega
  | case2 | case3 => exact Nat.zero_le _

theorem exponentLength_le (s : Text) : exponentLength s ≤ s.length := by
  fun_cases exponentLength s with
  | case1 mark next rest hmark =>
      have hle := Text.runLength_le isDigitChar rest
      simp only [List.length_cons]
      omega
  | case2 | case3 => exact Nat.zero_le _

theorem numberLength_le (c : Char) (s : Text) : numberLength c s ≤ s.length := by
  unfold numberLength
  dsimp only
  split
  next hradix =>
    cases s with
    | nil => simp [Text.startsWith] at hradix
    | cons mark rest =>
        have hle := radixLengthFrom_le 0 rest
        simp only [List.drop_succ_cons, List.drop_zero, List.length_cons]
        omega
  next =>
    have hwhole := Text.runLength_le isDigitChar s
    have hfraction := fractionLength_le (s.drop (Text.runLength isDigitChar s))
    have hexponent := exponentLength_le
      (s.drop (Text.runLength isDigitChar s + fractionLength (s.drop (Text.runLength isDigitChar s))))
    rw [List.length_drop] at hfraction hexponent
    omega

theorem numberLength_take_append (htail : tail.EndsLine) (c : Char) :
    numberLength c (s.take (numberLength c s) ++ tail) = numberLength c s := by
  cases hradix : c == '0' && s.startsWith (fun c => c == 'x' || c == 'b' || c == 'o') with
  | true =>
      have hlength : numberLength c s = 1 + radixLengthFrom 0 (s.drop 1) := by simp only [numberLength, hradix, ite_true]
      cases s with
      | nil => simp [Text.startsWith] at hradix
      | cons mark rest =>
          have hrest := radixLengthFrom_take_append htail (Nat.zero_add (radixLengthFrom 0 rest)).symm
          rw [hlength, List.drop_succ_cons, List.drop_zero, Nat.add_comm 1, List.take_succ_cons, List.cons_append]
          simp only [Text.startsWith] at hradix
          simp only [numberLength, Text.startsWith, hradix, ite_true, List.drop_succ_cons, List.drop_zero]
          omega
  | false =>
      -- The number is the digits in front, the fraction and the exponent; each ends where the next one begins.
      obtain ⟨whole, hwhole⟩ : ∃ n, n = Text.runLength isDigitChar s := ⟨_, rfl⟩
      obtain ⟨fraction, hfraction⟩ : ∃ n, n = fractionLength (s.drop whole) := ⟨_, rfl⟩
      obtain ⟨exponent, hexponent⟩ : ∃ n, n = exponentLength (s.drop (whole + fraction)) := ⟨_, rfl⟩
      have hlength : numberLength c s = whole + fraction + exponent := by
        simp only [numberLength, hradix, Bool.false_eq_true, ite_false]
        rw [← hwhole, ← hfraction, ← hexponent]
      let third := (s.drop (whole + fraction)).take exponent ++ tail
      let second := (s.drop whole).take fraction ++ third
      have hsplit : s.take (whole + fraction + exponent) ++ tail = s.take whole ++ second := by
        simp only [second, third, List.take_add, List.append_assoc]
      have hthird : exponentLength third = exponent := by
        simp only [third, hexponent]
        exact exponentLength_take_append htail
      have hsecond : fractionLength second = fraction := by
        simp only [second, hfraction]
        refine fractionLength_take_append ?_
        simp only [third, hexponent]
        exact startsWith_exponent htail (by decide +kernel) (by decide +kernel) (by decide +kernel)
      have hfirst : Text.runLength isDigitChar (s.take whole ++ second) = whole := by
        have hstop : Text.startsWith isDigitChar second = false := by
          simp only [second, hfraction]
          refine startsWith_fraction (by decide +kernel) ?_
          simp only [third, hexponent]
          exact startsWith_exponent htail (by decide +kernel) (by decide +kernel) (by decide +kernel)
        rw [hwhole]
        exact Text.runLength_take_append hstop
      have hbehind : (s.take whole ++ second).drop whole = second :=
        List.drop_left' (by rw [hwhole, Text.length_take_runLength])
      have hbehind' : (s.take whole ++ second).drop (whole + fraction) = third := by
        have hle := fractionLength_le (s.drop whole)
        rw [← List.drop_drop, hbehind]
        exact List.drop_left' (by rw [List.length_take]; omega)
      have hradix' : (c == '0' && Text.startsWith (fun c => c == 'x' || c == 'b' || c == 'o')
          (s.take (whole + fraction + exponent) ++ tail)) = false := by
        rw [Text.startsWith_take_append htail (by decide), Bool.eq_false_iff]
        intro hfound
        simp only [Bool.and_eq_true] at hfound
        simp [hfound.1, hfound.2.2] at hradix
      rw [hlength]
      simp only [numberLength, hradix', Bool.false_eq_true, ite_false]
      rw [hsplit, hfirst, hbehind, hsecond, hbehind', hthird]

theorem operatorLengthFrom_take_append {dotted : Bool} {n k : Nat} (htail : tail.EndsLine)
    (hlength : operatorLengthFrom dotted n s = n + k) : operatorLengthFrom dotted n (s.take k ++ tail) = n + k := by
  have hend : ∀ {n k}, n = n + k → ∀ s : Text, operatorLengthFrom dotted n (s.take k ++ tail) = n + k := by
    intro n k hk s
    obtain rfl : k = 0 := by omega
    obtain rfl | ⟨rest, rfl⟩ := htail.cases
    · rfl
    · have hline : isOperatorChar '\n' = false := by decide
      simp [operatorLengthFrom, hline]
  fun_induction operatorLengthFrom dotted n s generalizing k with
  | case1 n => exact hend hlength []
  | case2 n c rest hstop => exact hend hlength _
  | case3 n c rest hrun hcomment => exact hend hlength _
  | case4 n c rest hrun hcomment ih =>
      obtain ⟨j, hj, -⟩ := isOperatorChar_of_mem_take dotted (n + 1) rest
      obtain ⟨k, rfl⟩ : ∃ i, k = i + 1 := ⟨k - 1, by omega⟩
      have hcomment' : ¬ (c == '/' && Text.startsWith (fun next => next == '/' || next == '*') (rest.take k ++ tail)) =
          true := by
        rw [Text.startsWith_take_append htail (by decide)]
        intro hfound
        simp only [Bool.and_eq_true] at hfound
        exact hcomment (by simp [hfound.1, hfound.2.2])
      have hrest := ih (k := k) (by omega)
      rw [List.take_succ_cons, List.cons_append, operatorLengthFrom, if_neg hrun, if_neg hcomment', hrest]
      omega

theorem operatorLengthFrom_le (dotted : Bool) (n : Nat) (s : Text) : operatorLengthFrom dotted n s ≤ n + s.length := by
  fun_induction operatorLengthFrom dotted n s
  all_goals simp only [List.length_cons, List.length_nil] at *
  all_goals omega

theorem quotedNameLength?_take_append {n : Nat} (hname : quotedNameLength? s = some n) :
    quotedNameLength? (s.take n ++ tail) = some n := by
  unfold quotedNameLength? at hname
  dsimp only at hname
  split at hname
  next hquote =>
    obtain rfl := Option.some.inj hname
    obtain ⟨behind, hbehind⟩ := List.head?_eq_some_iff.mp (beq_iff_eq.mp hquote)
    let name := s.take (s.runLength (fun c => c != '\x60' && c != '\n'))
    have hname : s.take (s.runLength (fun c => c != '\x60' && c != '\n') + 1) ++ tail = name ++ '\x60' :: tail := by
      rw [List.take_add, hbehind]
      simp [name]
    have hrun : Text.runLength (fun c => c != '\x60' && c != '\n') (name ++ '\x60' :: tail) = name.length :=
      Text.runLength_append (fun c hc => Text.of_mem_take_runLength hc) rfl
    rw [hname, quotedNameLength?, hrun, List.drop_left, Text.length_take_runLength]
    rfl
  next => simp at hname

theorem quotedNameLength?_endsLine (htail : tail.EndsLine) : quotedNameLength? tail = none := by
  obtain rfl | ⟨rest, rfl⟩ := htail.cases <;> rfl

/-- A lexeme is scanned again when nothing of its line follows it. -/
theorem scan_take_append {limit n : Nat} {c : Char} {kind : TokenKind} (htail : tail.EndsLine)
    (hscan : scan limit c s = .ok (kind, n)) : scan limit c (s.take n ++ tail) = .ok (kind, n) := by
  have hnamestart : isNameStart '\n' = false := by decide +kernel
  unfold scan at hscan ⊢
  split at hscan
  next hsign =>
    have hcons : c :: (s.take n ++ tail) = (c :: s).take (n + 1) ++ tail := rfl
    rw [if_pos hsign, hcons]
    split at hscan
    next pounds hopen =>
      cases hlength : Literal.length limit pounds (c :: s) with
      | error fault => simp [hlength, bind, Except.bind] at hscan
      | ok length =>
          have hlong : (Literal.opened pounds 0 (c :: s)).2 < length := by
            simpa [Literal.opened] using Literal.lt_of_lengthFrom hlength
          have hpounds : pounds ≤ (Literal.opened pounds 0 (c :: s)).2 := Nat.le_add_right _ _
          simp only [hlength, bind, Except.bind, pure, Except.pure, Except.ok.injEq, Prod.mk.injEq] at hscan
          obtain ⟨rfl, rfl⟩ := hscan
          rw [Nat.sub_add_cancel (by omega), Literal.opening?_take_append hopen (by omega)]
          simp only [Literal.length_take_append htail hopen hlength, bind, Except.bind, pure, Except.pure]
    next hopen =>
      rw [Literal.opening?_take_append_eq_none htail hopen]
      dsimp only
      split at hscan
      next hname =>
        obtain ⟨rfl, rfl⟩ := Prod.mk.inj (Except.ok.inj hscan)
        have hpos := Text.runLength_pos (startsWith_isNameChar hname)
        rw [if_pos (Text.startsWith_take_append_of_pos hpos hname),
          Text.runLength_take_append (htail.startsWith isNameChar_newline)]
      next hname =>
        obtain ⟨rfl, rfl⟩ := Prod.mk.inj (Except.ok.inj hscan)
        rw [if_neg (by simp [htail.startsWith hnamestart])]
  next hsign =>
    rw [if_neg hsign]
    split at hscan
    next hdigit =>
      obtain ⟨rfl, rfl⟩ := Prod.mk.inj (Except.ok.inj hscan)
      rw [if_pos hdigit, numberLength_take_append htail c]
    next hdigit =>
      rw [if_neg hdigit]
      split at hscan
      next hquote =>
        rw [if_pos hquote]
        split at hscan
        next name hname =>
          obtain ⟨rfl, rfl⟩ := Prod.mk.inj (Except.ok.inj hscan)
          rw [quotedNameLength?_take_append hname]
        next hname =>
          obtain ⟨rfl, rfl⟩ := Prod.mk.inj (Except.ok.inj hscan)
          rw [List.take_zero, List.nil_append, quotedNameLength?_endsLine htail]
      next hquote =>
        rw [if_neg hquote]
        split at hscan
        next hname =>
          obtain ⟨rfl, rfl⟩ := Prod.mk.inj (Except.ok.inj hscan)
          have hname' : (isNameStart c || (c == '$' &&
              Text.startsWith isNameChar (s.take (Text.runLength isNameChar s) ++ tail))) = true := by
            simp only [Bool.or_eq_true, Bool.and_eq_true] at hname ⊢
            exact hname.imp_right fun h => ⟨h.1, Text.startsWith_take_append_of_pos (Text.runLength_pos h.2) h.2⟩
          rw [if_pos hname', Text.runLength_take_append (htail.startsWith isNameChar_newline)]
          dsimp only
          rw [List.take_left' (Text.length_take_runLength isNameChar s)]
        next hname =>
          have hname' : ¬ (isNameStart c || (c == '$' && Text.startsWith isNameChar (s.take n ++ tail))) = true := by
            rw [Text.startsWith_take_append htail isNameChar_newline]
            simp only [Bool.or_eq_true, Bool.and_eq_true] at hname ⊢
            exact fun hfound => hname (hfound.imp_right fun h => ⟨h.1, h.2.2⟩)
          rw [if_neg hname']
          split at hscan
          next hmark => exact hscan
          next hmark =>
            split at hscan
            next hrun =>
              obtain ⟨rfl, rfl⟩ := Prod.mk.inj (Except.ok.inj hscan)
              have hsame := operatorLengthFrom_take_append htail
                (Nat.zero_add (operatorLengthFrom (c == '.') 0 s)).symm
              rw [Nat.zero_add] at hsame
              have hlong : (s.take (operatorLengthFrom (c == '.') 0 s)).length = operatorLengthFrom (c == '.') 0 s := by
                have hle := operatorLengthFrom_le (c == '.') 0 s
                rw [List.length_take]
                omega
              rw [if_pos hrun, hsame]
              dsimp only
              rw [List.take_left' hlong]
            next hrun => rw [if_neg hrun, hscan]

/-- A lexeme ends where the text does at the latest. -/
theorem Scanned.le_length {limit n : Nat} {c : Char} {kind : TokenKind} (hscanned : Scanned limit c s kind n) :
    n ≤ s.length := by
  cases hscanned with
  | literal pounds length hopens hlength =>
      have hle := Literal.lengthFrom_le hlength
      rw [List.length_cons] at hle
      omega
  | pound | word => exact Text.runLength_le isNameChar s
  | number => exact numberLength_le c s
  | quoted n hquote hclosed =>
      unfold quotedNameLength? at hclosed
      dsimp only at hclosed
      split at hclosed
      next hfound =>
        obtain rfl := Option.some.inj hclosed
        obtain ⟨behind, hbehind⟩ := List.head?_eq_some_iff.mp (beq_iff_eq.mp hfound)
        have hlength := congrArg List.length hbehind
        rw [List.length_drop, List.length_cons] at hlength
        omega
      next => simp at hclosed
  | operators => simpa using operatorLengthFrom_le (c == '.') 0 s
  | backquote | punctuation | single => exact Nat.zero_le _

end Lexeme

end SwiftObservation
