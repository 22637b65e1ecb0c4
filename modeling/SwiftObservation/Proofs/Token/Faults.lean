import SwiftObservation.Proofs.Token.Positions

/-!
# What a lexical error is about

A source without tokens has a comment or a literal without an end, and the error says where that begins. The literal may
stand in an interpolation of another one, and the scanner then works on a stack of open frames. It only ever changes the
top of the stack, so above the frame of a literal it runs as it would on that literal alone: the literal that the error
names, scanned from its own first character, has no end there either.
-/

namespace SwiftObservation

namespace Literal

/-- The states that the scanner of the literal at the front of the text comes through: how many characters are behind it,
and which frames are open. -/
inductive Reaches (limit : Nat) (s : Text) : Nat → List Frame → Prop where
  | opened {pounds : Nat} (opens : opening? s = some pounds) :
      Reaches limit s (Literal.opened pounds 0 s).2 [(Literal.opened pounds 0 s).1]
  | moved {n skip : Nat} {c : Char} {rest : Text} {top : Frame} {below frames : List Frame}
      (reached : Reaches limit s n (top :: below)) (behind : s.drop n = c :: rest)
      (move : Literal.move limit n top below (c :: rest) c = .ok (skip, frames)) : Reaches limit s (n + 1 + skip) frames

/-- The frame of a scanner that was started `k` characters later. -/
def Frame.since (k : Nat) : Frame → Frame
  | literal pounds multiline start => literal pounds multiline (start - k)
  | interpolation parens => interpolation parens

/-- What a move at the text `s`, `n` characters into the literal, makes of the innermost frame. -/
inductive Turns (n skip : Nat) (s : Text) : Frame → List Frame → Prop where
  | closed {top : Frame} : Turns n skip s top []
  | kept {top : Frame} : Turns n skip s top [top]
  | entered {pounds start : Nat} {multiline : Bool} :
      Turns n skip s (.literal pounds multiline start) [.interpolation 0, .literal pounds multiline start]
  | counted {parens parens' : Nat} : Turns n skip s (.interpolation parens) [.interpolation parens']
  | opened {parens pounds : Nat} (opens : opening? s = some pounds) (length : skip + 1 = (Literal.opened pounds n s).2) :
      Turns n skip s (.interpolation parens) [(Literal.opened pounds n s).1, .interpolation parens]

variable {limit n skip : Nat} {s : Text} {c : Char} {top : Frame} {below frames : List Frame}

/-- A move changes the innermost frame only, in the same way whatever frames are below it. -/
theorem turns_of_move (hmove : move limit n top below s c = .ok (skip, frames)) :
    ∃ turned, Turns n skip s top turned ∧ frames = turned ++ below ∧
      ∀ {k : Nat} {below' : List Frame}, below'.length ≤ below.length →
        move limit (n - k) (top.since k) below' s c = .ok (skip, turned.map (Frame.since k) ++ below') := by
  cases top with
  | literal pounds multiline start =>
      simp only [move, moveInLiteral, Frame.since] at hmove ⊢
      split at hmove
      next => cases hmove
      next hline =>
        split at hmove
        next hclose =>
          cases hmove
          exact ⟨[], .closed, rfl, fun _ => by rw [if_neg hline, if_pos hclose]; rfl⟩
        next hclose =>
          split at hmove
          next hescape =>
            split at hmove
            next hparen =>
              cases hmove
              exact ⟨_, .entered, rfl, fun _ => by rw [if_neg hline, if_neg hclose, if_pos hescape, if_pos hparen]; rfl⟩
            next hparen =>
              cases hmove
              exact ⟨_, .kept, rfl, fun _ => by rw [if_neg hline, if_neg hclose, if_pos hescape, if_neg hparen]; rfl⟩
          next hescape =>
            cases hmove
            exact ⟨_, .kept, rfl, fun _ => by rw [if_neg hline, if_neg hclose, if_neg hescape]; rfl⟩
  | interpolation parens =>
      simp only [move, moveInInterpolation, Frame.since] at hmove ⊢
      split at hmove
      next hparen =>
        cases hmove
        exact ⟨_, .counted, rfl, fun _ => by rw [if_pos hparen]; rfl⟩
      next hparen =>
        split at hmove
        next hclose =>
          cases parens with
          | zero =>
              cases hmove
              exact ⟨_, .closed, rfl, fun _ => by rw [if_neg hparen, if_pos hclose]; rfl⟩
          | succ parens =>
              cases hmove
              exact ⟨_, .counted, rfl, fun _ => by rw [if_neg hparen, if_pos hclose]; rfl⟩
        next hclose =>
          split at hmove
          next hsign =>
            split at hmove
            next pounds hopens =>
              split at hmove
              next => cases hmove
              next hlimit =>
                cases hmove
                have hlength : (opened pounds n s).2 - 1 + 1 = (opened pounds n s).2 := by
                  apply Nat.sub_add_cancel
                  simp only [opened]
                  cases (quotes true).isPrefixOf (s.drop pounds) <;> simp [quotes]
                refine ⟨_, .opened hopens hlength, rfl, fun hbelow => ?_⟩
                rw [if_neg hparen, if_neg hclose, if_pos hsign, if_neg (by omega)]
                rfl
            next hopens =>
              cases hmove
              exact ⟨_, .kept, rfl, fun _ => by rw [if_neg hparen, if_neg hclose, if_pos hsign]; rfl⟩
          next hsign =>
            split at hmove
            next hcomment =>
              split at hmove
              next length hlength =>
                cases hmove
                refine ⟨_, .kept, rfl, fun _ => ?_⟩
                rw [if_neg hparen, if_neg hclose, if_neg hsign, if_pos hcomment]
                rfl
              next => cases hmove
            next hcomment =>
              cases hmove
              exact ⟨_, .kept, rfl, fun _ => by
                rw [if_neg hparen, if_neg hclose, if_neg hsign, if_neg hcomment]; rfl⟩

/-! ### Frames -/

/-- Every interpolation stands in a literal. -/
def Stacked : List Frame → Prop
  | [] => True
  | .literal _ _ _ :: below => Stacked below
  | .interpolation _ :: .literal _ _ _ :: below => Stacked below
  | .interpolation _ :: _ => False

theorem stacked_of_interpolation {parens : Nat} (hstacked : Stacked (.interpolation parens :: below)) :
    ∃ pounds multiline start outer, below = .literal pounds multiline start :: outer ∧ Stacked outer := by
  cases below with
  | nil => exact absurd hstacked not_false
  | cons frame outer =>
      cases frame with
      | literal pounds multiline start => exact ⟨pounds, multiline, start, outer, rfl, hstacked⟩
      | interpolation parens' => exact absurd hstacked not_false

theorem Turns.stacked {turned : List Frame} (hturns : Turns n skip s top turned) (hstacked : Stacked (top :: below)) :
    Stacked (turned ++ below) := by
  cases hturns with
  | closed =>
      cases top with
      | literal pounds multiline start => exact hstacked
      | interpolation parens =>
          obtain ⟨pounds, multiline, start, outer, rfl, houter⟩ := stacked_of_interpolation hstacked
          exact houter
  | kept => exact hstacked
  | entered => exact hstacked
  | counted =>
      obtain ⟨pounds, multiline, start, outer, rfl, houter⟩ := stacked_of_interpolation hstacked
      exact houter
  | opened => exact hstacked

theorem Reaches.stacked (hreaches : Reaches limit s n frames) : Stacked frames := by
  induction hreaches with
  | opened hopens => trivial
  | moved _ _ hmove ih =>
      obtain ⟨turned, hturns, rfl, -⟩ := turns_of_move hmove
      exact hturns.stacked ih

/-- A literal begins at the offset: the scanner opens one there. -/
def BeginsAt (limit : Nat) (s : Text) (start : Nat) : Prop :=
  start = 0 ∨ ∃ parens below, Reaches limit s start (.interpolation parens :: below)

/-- The frame of a literal among those that a move leaves: it was open before, or the move opens it. -/
theorem Turns.of_literal {turned above newer : List Frame} {pounds start : Nat} {multiline : Bool}
    (hturns : Turns n skip s top turned) (hturned : turned = above ++ .literal pounds multiline start :: newer) :
    (top = .literal pounds multiline start ∧ newer = []) ∨
      (above = [] ∧ start = n ∧ opening? s = some pounds ∧ skip + 1 = (Literal.opened pounds 0 s).2 ∧
        (∃ parens, top = .interpolation parens) ∧ .literal pounds multiline 0 = (Literal.opened pounds 0 s).1) := by
  cases hturns with
  | closed => simp at hturned
  | kept =>
      cases above with
      | nil => exact .inl ⟨(List.cons.inj hturned).1, (List.cons.inj hturned).2.symm⟩
      | cons frame above => simp at hturned
  | entered =>
      match above, hturned with
      | [], hturned => simp at hturned
      | [frame], hturned =>
          have hlast := (List.cons.inj hturned).2
          exact .inl ⟨(List.cons.inj hlast).1, (List.cons.inj hlast).2.symm⟩
      | frame :: frame' :: above, hturned => simp at hturned
  | counted => cases above <;> simp at hturned
  | opened hopens hlength =>
      match above, hturned with
      | [], hturned =>
          simp only [Literal.opened, List.nil_append, List.cons.injEq, Frame.literal.injEq] at hturned
          obtain ⟨⟨rfl, rfl, rfl⟩, -⟩ := hturned
          exact .inr ⟨rfl, rfl, hopens, hlength, ⟨_, rfl⟩, rfl⟩
      | [frame], hturned => simp at hturned
      | frame :: frame' :: above, hturned => simp at hturned

/-- Above the frame of a literal the scanner runs as it would on that literal alone. -/
theorem Reaches.alone {m : Nat} (hreaches : Reaches limit s m frames) {above below : List Frame} {pounds start : Nat}
    {multiline : Bool} (hframes : frames = above ++ .literal pounds multiline start :: below) :
    start ≤ m ∧ opening? (s.drop start) = some pounds ∧ BeginsAt limit s start ∧
      Reaches limit (s.drop start) (m - start) (above.map (Frame.since start) ++ [.literal pounds multiline 0]) := by
  induction hreaches generalizing above below with
  | @opened pounds' hopens =>
      obtain ⟨rfl, hlast⟩ : above = [] ∧ _ := by
        cases above with
        | nil => exact ⟨rfl, (List.cons.inj hframes).1⟩
        | cons frame above => simp at hframes
      simp only [Literal.opened, Frame.literal.injEq] at hlast
      obtain ⟨rfl, rfl, rfl⟩ := hlast
      exact ⟨Nat.zero_le _, hopens, .inl rfl, .opened hopens⟩
  | @moved n skip c rest top below₀ frames hreached hbehind hmove ih =>
      obtain ⟨turned, hturns, rfl, hlocal⟩ := turns_of_move hmove
      -- A move made alone, above a literal that was open before it.
      have hstep : ∀ {start lower}, start ≤ n → lower.length ≤ below₀.length →
          Reaches limit (s.drop start) (n - start) (top.since start :: lower) →
          Reaches limit (s.drop start) (n + 1 + skip - start) (turned.map (Frame.since start) ++ lower) := by
        intro start lower hstart hlower halone
        have hdrop : (s.drop start).drop (n - start) = c :: rest := by
          rw [List.drop_drop, Nat.add_sub_cancel' hstart, hbehind]
        have hcount : n + 1 + skip - start = n - start + 1 + skip := by omega
        rw [hcount]
        exact .moved halone hdrop (hlocal hlower)
      have hwhere : (∃ inner, above = turned ++ inner ∧ below₀ = inner ++ .literal pounds multiline start :: below) ∨
          ∃ newer, turned = above ++ .literal pounds multiline start :: newer := by
        obtain ⟨inner, habove, hbelow⟩ | ⟨newer, hturned, hbelow⟩ := List.append_eq_append_iff.mp hframes
        · exact .inl ⟨inner, habove, hbelow⟩
        · cases newer with
          | nil => exact .inl ⟨[], by simpa using hturned.symm, by simpa using hbelow.symm⟩
          | cons frame newer => exact .inr ⟨newer, (List.cons.inj hbelow).1 ▸ hturned⟩
      obtain ⟨inner, rfl, hbelow⟩ | ⟨newer, hturned⟩ := hwhere
      · obtain ⟨hstart, hopens, hbegins, halone⟩ := ih (show top :: below₀ = (top :: inner) ++ _ by
          rw [hbelow, List.cons_append])
        refine ⟨by omega, hopens, hbegins, ?_⟩
        rw [List.map_append, List.append_assoc]
        exact hstep hstart (by simp [hbelow]) halone
      · obtain ⟨rfl, rfl⟩ | ⟨rfl, rfl, hopens, hlength, ⟨parens, rfl⟩, hlast⟩ := hturns.of_literal hturned
        · obtain ⟨hstart, hopens, hbegins, halone⟩ := ih (show Frame.literal pounds multiline start :: below₀ = [] ++ _ from rfl)
          refine ⟨by omega, hopens, hbegins, ?_⟩
          have hturn : Reaches limit (s.drop start) (n + 1 + skip - start) (turned.map (Frame.since start) ++ []) :=
            hstep hstart (Nat.zero_le _) (by simpa [Frame.since] using halone)
          simpa [hturned, Frame.since] using hturn
        · refine ⟨by omega, hbehind ▸ hopens, .inr ⟨parens, below₀, hreached⟩, ?_⟩
          have hcount : start + 1 + skip - start = (Literal.opened pounds 0 (c :: rest)).2 := by
            rw [← hlength]
            omega
          rw [hcount, hbehind, List.map_nil, List.nil_append, hlast]
          exact .opened hopens

/-! ### The end of a run -/

theorem lengthFrom_eq_drop (limit skip n : Nat) (top : Frame) (below : List Frame) (s : Text) :
    lengthFrom limit skip n top below s = lengthFrom limit 0 (n + skip) top below (s.drop skip) := by
  induction skip generalizing n s with
  | zero => rfl
  | succ skip ih =>
      cases s with
      | nil => rfl
      | cons c rest =>
          rw [lengthFrom, ih, List.drop_succ_cons, Nat.add_right_comm, Nat.add_assoc]

/-- What is left to scan at a state decides the length of the literal. -/
theorem Reaches.length_eq {pounds : Nat} (hreaches : Reaches limit s n frames) (hopens : opening? s = some pounds)
    (hframes : frames = top :: below) : length limit pounds s = lengthFrom limit 0 n top below (s.drop n) := by
  induction hreaches generalizing top below with
  | @opened pounds' hopens' =>
      obtain rfl := Option.some.inj (hopens.symm.trans hopens')
      obtain ⟨rfl, rfl⟩ := List.cons.inj hframes
      have hskipped := lengthFrom_eq_drop limit (Literal.opened pounds 0 s).2 0 (Literal.opened pounds 0 s).1 [] s
      rw [Nat.zero_add] at hskipped
      exact hskipped
  | @moved n skip c rest top' below' frames _ hbehind hmove ih =>
      rw [ih rfl, hbehind, lengthFrom, hmove, hframes]
      dsimp only
      rw [lengthFrom_eq_drop, ← List.drop_drop, ← List.drop_drop, hbehind]
      rfl

/-- A literal without an end comes to a state with nothing left, or with a move that is refused. -/
theorem exists_reaches_of_lengthFrom {s' : Text} {fault : ScanFault} (hreaches : Reaches limit s (n + skip) (top :: below))
    (hs : s.drop n = s') (hlength : lengthFrom limit skip n top below s' = .error fault) :
    ∃ m top' below', Reaches limit s m (top' :: below') ∧
      ((s.drop m = [] ∧ fault = openFault top' below') ∨
        ∃ c rest, s.drop m = c :: rest ∧ move limit m top' below' (c :: rest) c = .error fault) := by
  fun_induction lengthFrom limit skip n top below s' with
  | case1 skip n top below =>
      refine ⟨n + skip, top, below, hreaches, .inl ⟨?_, (Except.error.inj hlength).symm⟩⟩
      rw [← List.drop_drop, hs, List.drop_nil]
  | case2 skip n top below c rest ih =>
      refine ih ?_ ?_ hlength
      · rwa [Nat.add_right_comm]
      · rw [← List.drop_drop, hs]
        rfl
  | case3 n top below c rest fault' hmove =>
      obtain rfl := Except.error.inj hlength
      exact ⟨n, top, below, hreaches, .inr ⟨c, rest, hs, hmove⟩⟩
  | case4 => simp at hlength
  | case5 n top below c rest skip top' below' hmove ih =>
      refine ih (.moved hreaches hs hmove) ?_ hlength
      rw [← List.drop_drop, hs]
      rfl

end Literal

/-! ### What the errors say -/

theorem Trivia.opener_prefix {c : Char} {rest : Text} (hopener : (c == '/' && rest.head? == some '*') = true) :
    ['/', '*'] <+: c :: rest := by
  simp only [Bool.and_eq_true, beq_iff_eq] at hopener
  obtain ⟨rfl, hstar⟩ := hopener
  obtain ⟨more, rfl⟩ := List.head?_eq_some_iff.mp hstar
  exact ⟨more, rfl⟩

/-- The error is about what begins the text: a block comment without an end, a literal without an end, or a literal with an
interpolation without an end. -/
def LexError.IsAbout (limit : Nat) (s : Text) : LexError → Prop
  | unterminatedComment _ => ['/', '*'] <+: s ∧ Trivia.blockComment? s = none
  | unterminatedString _ =>
    ∃ pounds, Literal.opening? s = some pounds ∧ Literal.length limit pounds s = .error (.unterminatedString 0)
  | unterminatedInterpolation _ =>
    ∃ pounds, Literal.opening? s = some pounds ∧ Literal.length limit pounds s = .error (.unterminatedInterpolation 0)
  | tooDeep => False

theorem LexError.IsAbout.ne_nil {limit : Nat} {s : Text} {e : LexError} (habout : e.IsAbout limit s) : s ≠ [] := by
  rintro rfl
  cases e with
  | unterminatedComment => simpa using habout.1
  | unterminatedString | unterminatedInterpolation =>
      obtain ⟨pounds, hopens, -⟩ := habout
      simp [Literal.opening?_eq_some_iff, Literal.mark] at hopens
  | tooDeep => exact habout

/-- The fault is about what begins at the offset of the text, and is reported there. -/
def ScanFault.Names (limit : Nat) (s : Text) (offset : Nat) (fault : ScanFault) : Prop :=
  ∀ p text, (LexError.ofFault p text fault).IsAbout limit (s.drop offset) ∧
    (LexError.ofFault p text fault).position? = some (p.advance offset text)

namespace Literal

variable {limit pounds : Nat} {s : Text} {fault : ScanFault}

/-- A comment in an interpolation has no end. -/
theorem names_of_moveInInterpolation {parens n : Nat} {below : List Frame} {c : Char} {rest : Text}
    (hbehind : s.drop n = c :: rest) (hmove : moveInInterpolation limit parens n below (c :: rest) c = .error fault) :
    fault = .tooDeep ∨ fault.Names limit s n := by
  unfold moveInInterpolation at hmove
  dsimp only at hmove
  repeat' split at hmove
  all_goals simp only [reduceCtorEq, Except.error.injEq] at hmove
  next => exact .inl hmove.symm
  next hcomment _ hnone =>
    subst hmove
    refine .inr fun p text => ⟨?_, rfl⟩
    rw [hbehind]
    exact ⟨Trivia.opener_prefix hcomment, hnone⟩

/-- The fault of a literal without an end is about the literal itself, or about something that begins in an
interpolation. -/
theorem exists_names_of_length (hopens : opening? s = some pounds) (hlength : length limit pounds s = .error fault) :
    fault = .tooDeep ∨ ∃ offset, BeginsAt limit s offset ∧ fault.Names limit s offset := by
  have hstart : Reaches limit s (0 + (Literal.opened pounds 0 s).2) [(Literal.opened pounds 0 s).1] := by
    rw [Nat.zero_add]
    exact .opened hopens
  obtain ⟨m, top, below, hreaches, hend⟩ := exists_reaches_of_lengthFrom hstart List.drop_zero hlength
  cases top with
  | literal pounds multiline start =>
      obtain ⟨hstart, hopens, hbegins, halone⟩ := hreaches.alone (show _ = [] ++ _ from rfl)
      have hscan := halone.length_eq hopens (List.nil_append _)
      rw [List.drop_drop, Nat.add_sub_cancel' hstart] at hscan
      -- The text ends in the literal, or a line does that the literal may not leave.
      refine .inr ⟨start, hbegins, ?_⟩
      obtain ⟨hnothing, rfl⟩ | ⟨c, rest, hbehind, hmove⟩ := hend
      · rw [hnothing] at hscan
        exact fun p text => ⟨⟨pounds, hopens, hscan⟩, rfl⟩
      · simp only [move, moveInLiteral] at hmove
        split at hmove
        next hline =>
          obtain rfl := Except.error.inj hmove
          rw [hbehind, lengthFrom, move, moveInLiteral, if_pos hline] at hscan
          exact fun p text => ⟨⟨pounds, hopens, hscan⟩, rfl⟩
        next =>
          repeat' split at hmove
          all_goals simp at hmove
  | interpolation parens =>
      obtain ⟨hnothing, rfl⟩ | ⟨c, rest, hbehind, hmove⟩ := hend
      · obtain ⟨pounds, multiline, start, outer, rfl, -⟩ := stacked_of_interpolation hreaches.stacked
        obtain ⟨hstart, hopens, hbegins, halone⟩ := hreaches.alone (show _ = [.interpolation parens] ++ _ from rfl)
        have hscan := halone.length_eq hopens rfl
        rw [List.drop_drop, Nat.add_sub_cancel' hstart, hnothing] at hscan
        exact .inr ⟨start, hbegins, fun p text => ⟨⟨pounds, hopens, hscan⟩, rfl⟩⟩
      · exact (names_of_moveInInterpolation hbehind hmove).imp_right fun hnames =>
          ⟨m, .inr ⟨parens, below, hreaches⟩, hnames⟩

end Literal

/-! ### The course of the lexer up to an error -/

namespace Token

/-- The offsets at which the lexer looks for trivia or a lexeme. -/
inductive Visits (limit : Nat) (source : Text) : Nat → Prop where
  | start : Visits limit source (markLength source)
  | trivia {offset n : Nat} {c : Char} {rest : Text} (visited : Visits limit source offset)
      (behind : source.drop offset = c :: rest) (piece : Trivia.piece? true c rest = .ok (some n)) :
      Visits limit source (offset + (n + 1))
  | lexeme {offset n : Nat} {c : Char} {rest : Text} {kind : TokenKind} (visited : Visits limit source offset)
      (behind : source.drop offset = c :: rest) (piece : Trivia.piece? true c rest = .ok none)
      (scanned : Lexeme.scan limit c rest = .ok (kind, n)) : Visits limit source (offset + (n + 1))

/-- A comment or a literal may begin at the offset: the lexer looks for one there, or the scanner of a literal does in one
of its interpolations. -/
def AtCode (limit : Nat) (source : Text) (offset : Nat) : Prop :=
  ∃ start n, offset = start + n ∧ Visits limit source start ∧ Literal.BeginsAt limit (source.drop start) n

variable {limit : Nat} {source : Text}

theorem Visits.atCode {offset : Nat} (hvisits : Visits limit source offset) : AtCode limit source offset :=
  ⟨offset, 0, rfl, hvisits, .inl rfl⟩

/-- Trivia behind a token is trivia in front of the next one. -/
theorem piece?_acrossLines {acrossLines : Bool} {c : Char} {rest : Text} {n : Nat}
    (hpiece : Trivia.piece? acrossLines c rest = .ok (some n)) : Trivia.piece? true c rest = .ok (some n) := by
  cases acrossLines with
  | true => exact hpiece
  | false =>
      have hslash : Trivia.isInlineSpace c = false → c = '/' := by
        intro hspace
        unfold Trivia.piece? at hpiece
        simp only [hspace, Bool.false_and, Bool.or_self, Bool.false_eq_true, ite_false] at hpiece
        by_contra hother
        simp [hother] at hpiece
      unfold Trivia.piece? at hpiece ⊢
      cases hspace : Trivia.isInlineSpace c with
      | true => simpa [hspace] using hpiece
      | false =>
          obtain rfl := hslash hspace
          exact hpiece

theorem visits_of_lengthFrom {acrossLines : Bool} {n m offset : Nat} {s : Text} (hvisits : Visits limit source offset)
    (hs : source.drop offset = s) (hlength : Trivia.lengthFrom acrossLines n s = .ok (n + m)) :
    Visits limit source (offset + m) := by
  fun_induction Trivia.lengthFrom acrossLines n s generalizing offset m with
  | case1 n =>
      obtain rfl : m = 0 := by simpa using hlength
      exact hvisits
  | case2 => simp at hlength
  | case3 n c rest hpiece =>
      obtain rfl : m = 0 := by simpa using hlength
      exact hvisits
  | case4 n c rest k hpiece ih =>
      have hle := Trivia.le_of_lengthFrom hlength
      obtain ⟨m, rfl⟩ : ∃ j, m = k + 1 + j := ⟨m - (k + 1), by omega⟩
      rw [← Nat.add_assoc]
      refine ih (hvisits.trivia hs (piece?_acrossLines hpiece)) ?_ (by rw [hlength, Except.ok.injEq]; omega)
      rw [← List.drop_drop, hs, List.drop_succ_cons]

/-- Trivia has no end because a block comment has none. -/
theorem exists_comment_of_lengthFrom {acrossLines : Bool} {n offset : Nat} {s : Text} {fault : ScanFault}
    (hvisits : Visits limit source offset) (hs : source.drop offset = s)
    (hlength : Trivia.lengthFrom acrossLines n s = .error fault) :
    ∃ k, fault = .unterminatedComment (n + k) ∧ Visits limit source (offset + k) ∧
      ['/', '*'] <+: source.drop (offset + k) ∧ Trivia.blockComment? (source.drop (offset + k)) = none := by
  fun_induction Trivia.lengthFrom acrossLines n s generalizing offset with
  | case1 => simp at hlength
  | case2 n c rest fault' hpiece =>
      obtain rfl := Except.error.inj hlength
      refine ⟨0, ?_⟩
      rw [Nat.add_zero, Nat.add_zero, hs]
      unfold Trivia.piece? at hpiece
      repeat' split at hpiece
      all_goals simp only [reduceCtorEq, Except.error.injEq] at hpiece
      next hopener _ hnone =>
        subst hpiece
        exact ⟨rfl, hvisits, Trivia.opener_prefix hopener, hnone⟩
  | case3 => simp at hlength
  | case4 n c rest k hpiece ih =>
      obtain ⟨j, rfl, hfound⟩ := ih (hvisits.trivia hs (piece?_acrossLines hpiece))
        (by rw [← List.drop_drop, hs, List.drop_succ_cons]) hlength
      refine ⟨k + 1 + j, by rw [ScanFault.unterminatedComment.injEq]; omega, ?_⟩
      rwa [← Nat.add_assoc]

theorem advance_ofOffset {offset : Nat} {s : Text} (hs : source.drop offset = s) (n : Nat) :
    (Position.ofOffset source offset).advance n s = .ofOffset source (offset + n) := by
  rw [Position.ofOffset, Position.ofOffset, Position.advance_add, hs]

/-- A lexeme has no end because it is a literal that has none. -/
theorem exists_isAbout_of_scan {offset : Nat} {c : Char} {rest : Text} {fault : ScanFault}
    (hvisits : Visits limit source offset) (hbegins : source.drop offset = c :: rest)
    (hscan : Lexeme.scan limit c rest = .error fault) :
    fault = .tooDeep ∨ ∃ o, AtCode limit source o ∧
      (LexError.ofFault (.ofOffset source offset) (c :: rest) fault).IsAbout limit (source.drop o) ∧
      (LexError.ofFault (.ofOffset source offset) (c :: rest) fault).position? = some (.ofOffset source o) := by
  obtain ⟨pounds, hopens, hlength⟩ : ∃ pounds, Literal.opening? (c :: rest) = some pounds ∧
      Literal.length limit pounds (c :: rest) = .error fault := by
    unfold Lexeme.scan at hscan
    repeat' split at hscan
    all_goals try simp only [reduceCtorEq] at hscan
    next pounds hopens =>
      cases hlength : Literal.length limit pounds (c :: rest) with
      | error fault' =>
          simp only [hlength, bind, Except.bind, Except.error.injEq] at hscan
          exact ⟨pounds, hopens, hscan ▸ hlength⟩
      | ok length => simp [hlength, bind, Except.bind, pure, Except.pure] at hscan
  obtain hdeep | ⟨n, hbeginsAt, hnames⟩ := Literal.exists_names_of_length hopens hlength
  · exact .inl hdeep
  · obtain ⟨habout, hposition⟩ := hnames (.ofOffset source offset) (c :: rest)
    refine .inr ⟨offset + n, ⟨offset, n, rfl, hvisits, hbegins ▸ hbeginsAt⟩, ?_, ?_⟩
    · rwa [← List.drop_drop, hbegins]
    · rw [hposition, advance_ofOffset hbegins]

/-- The error of one turn of the lexer. -/
theorem exists_isAbout_of_cut {skip offset : Nat} {s : Text} {e : LexError} (hs : source.drop offset = s)
    (hvisits : Visits limit source (offset + skip)) (hcut : cut limit skip (.ofOffset source offset) s = .error e) :
    e = .tooDeep ∨ ∃ o, AtCode limit source o ∧ e.IsAbout limit (source.drop o) ∧
      e.position? = some (.ofOffset source o) := by
  have hskip : source.drop (offset + skip) = s.drop skip := by rw [← List.drop_drop, hs]
  unfold cut at hcut
  split at hcut
  next fault hleading =>
    obtain ⟨k, hfault, hcode, hopener, hnone⟩ := exists_comment_of_lengthFrom hvisits hskip hleading
    rw [Nat.zero_add] at hfault
    subst hfault
    obtain rfl := Except.error.inj hcut
    refine .inr ⟨offset + skip + k, hcode.atCode, ⟨hopener, hnone⟩, ?_⟩
    have hplace := advance_ofOffset hs (skip + k)
    rw [← Nat.add_assoc] at hplace
    exact congrArg some hplace
  next n hleading =>
    have hcode : Visits limit source (offset + skip + n) :=
      visits_of_lengthFrom hvisits hskip (by rw [Nat.zero_add]; exact hleading)
    dsimp only at hcut
    rw [advance_ofOffset hs, ← Nat.add_assoc] at hcut
    split at hcut
    next => simp at hcut
    next c rest hbegins =>
      have hbehind : source.drop (offset + skip + n) = c :: rest := by
        rw [← List.drop_drop, hskip, List.drop_drop, hbegins]
      split at hcut
      next e' htoken =>
        obtain rfl := Except.error.inj hcut
        unfold withTrailing at htoken
        split at htoken
        next fault hscan =>
          obtain rfl := Except.error.inj htoken
          exact (exists_isAbout_of_scan hcode hbehind hscan).imp_left LexError.ofFault_eq_tooDeep.mpr
        next kind k hscan =>
          split at htoken
          next fault htrailing =>
            have hcode' := hcode.lexeme hbehind (Trivia.piece?_of_leadingLength hleading hbegins) hscan
            obtain ⟨j, hfault, hfound, hopener, hnone⟩ := exists_comment_of_lengthFrom hcode'
              (by rw [← List.drop_drop, hbehind, List.drop_succ_cons]) htrailing
            rw [Nat.zero_add] at hfault
            subst hfault
            obtain rfl := Except.error.inj htoken
            refine .inr ⟨_, hfound.atCode, ⟨hopener, hnone⟩, ?_⟩
            have hplace := advance_ofOffset hbehind (k + 1 + j)
            rw [← Nat.add_assoc] at hplace
            exact congrArg some hplace
          next => simp at htoken
      next => simp at hcut

/-- A turn of the lexer that succeeds ends where the next one begins. -/
theorem visits_of_cut {skip offset : Nat} {s rest : Text} {t : Token} {q : Position} {shorter : rest.length < s.length}
    (hs : source.drop offset = s) (hvisits : Visits limit source (offset + skip))
    (hcut : cut limit skip (.ofOffset source offset) s = .ok (.more t rest q shorter)) :
    ∃ offset', source.drop offset' = rest ∧ q = .ofOffset source offset' ∧ Visits limit source offset' := by
  obtain ⟨n, k, m, c, behind, kind, hleading, hbegins, hscan, htrailing, -, rfl, rfl⟩ := cut_eq_more hcut
  have hskip : source.drop (offset + skip) = s.drop skip := by rw [← List.drop_drop, hs]
  have hbehind : source.drop (offset + skip + n) = c :: behind := by
    rw [← List.drop_drop, hskip, List.drop_drop, hbegins]
  have hcode : Visits limit source (offset + skip + n) :=
    visits_of_lengthFrom hvisits hskip (by rw [Nat.zero_add]; exact hleading)
  have hrest : source.drop (offset + skip + n + (k + 1)) = behind.drop k := by
    rw [← List.drop_drop, hbehind, List.drop_succ_cons]
  have hnext := hcode.lexeme hbehind (Trivia.piece?_of_leadingLength hleading hbegins) hscan
  refine ⟨offset + skip + n + (k + 1) + m, ?_, ?_, ?_⟩
  · rw [← List.drop_drop, hrest, List.drop_drop]
  · rw [advance_ofOffset hs]
    congr 1
    omega
  · exact visits_of_lengthFrom hnext hrest (by rw [Nat.zero_add]; exact htrailing)

theorem exists_isAbout_of_streamFrom {skip offset : Nat} {done : List Token} {p : Position} {s : Text} {e : LexError}
    (hs : source.drop offset = s) (hp : p = .ofOffset source offset) (hvisits : Visits limit source (offset + skip))
    (hstream : streamFrom limit skip done p s = .error e) :
    e = .tooDeep ∨ ∃ o, AtCode limit source o ∧ e.IsAbout limit (source.drop o) ∧
      e.position? = some (.ofOffset source o) := by
  fun_induction streamFrom limit skip done p s generalizing offset with
  | case1 skip done p s e' hcut =>
      subst hp
      obtain rfl := Except.error.inj hstream
      exact exists_isAbout_of_cut hs hvisits hcut
  | case2 => simp at hstream
  | case3 skip done p s t rest q hshorter hcut ih =>
      subst hp
      obtain ⟨offset', hrest, hq, hnext⟩ := visits_of_cut hs hvisits hcut
      exact ih hrest hq hnext hstream

/-- A lexical error stands at the first character of the comment or literal that it is about. -/
theorem exists_isAbout_of_stream {e : LexError} (hstream : stream limit source = .error e) :
    e = .tooDeep ∨ ∃ offset, AtCode limit source offset ∧ e.IsAbout limit (source.drop offset) ∧
      e.position? = some (.inText source offset) := by
  have hstart : Visits limit source (0 + markLength source) := by
    rw [Nat.zero_add]
    exact .start
  obtain hdeep | ⟨offset, hcode, habout, hposition⟩ := exists_isAbout_of_streamFrom List.drop_zero rfl hstart hstream
  · exact .inl hdeep
  · have hlt : offset < source.length := by
      have hne := habout.ne_nil
      rw [ne_eq, List.drop_eq_nil_iff] at hne
      omega
    rw [Position.ofOffset_eq_inText (Nat.le_of_lt hlt)] at hposition
    exact .inr ⟨offset, hcode, habout, hposition⟩

end Token

end SwiftObservation
