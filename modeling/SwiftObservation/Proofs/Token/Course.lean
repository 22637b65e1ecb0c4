import SwiftObservation.Proofs.Token.Alone

/-!
# The course of the lexer

`Streams` lists the turns of the lexer: each one takes leading trivia, a lexeme and trailing trivia off the front of the
text, and the last one finds nothing behind the trivia. What the lexer does to a source is an induction over these turns,
and a source has the tokens that some such list of turns gives it. The trivia of a turn is a row of pieces, and `Piece` says
what these can be, with `CommentBody` for the inside of block comments.
-/

namespace SwiftObservation

namespace Trivia

/-! ### Pieces of trivia -/

/-- What is left of a block comment that stands in `outer` other ones, up to the end of the outermost. -/
inductive CommentBody : (outer : Nat) → Text → Prop where
  | ends : CommentBody 0 ['*', '/']
  | leaves {outer : Nat} {rest : Text} (behind : CommentBody outer rest) : CommentBody (outer + 1) ('*' :: '/' :: rest)
  | enters {outer : Nat} {rest : Text} (behind : CommentBody (outer + 1) rest) : CommentBody outer ('/' :: '*' :: rest)
  /-- A slash or a star that neither opens nor ends a comment is a character like any other. -/
  | plain {outer : Nat} {c d : Char} {rest : Text} (opens : c = '/' → d ≠ '*') (ends : c = '*' → d ≠ '/')
      (behind : CommentBody outer (d :: rest)) : CommentBody outer (c :: d :: rest)

theorem commentBody_of_blockCommentFrom {depth n k : Nat} {s : Text} (hcomment : blockCommentFrom depth n s = some (n + k)) :
    ∀ outer, depth = outer + 1 → CommentBody outer (s.take k) := by
  fun_induction blockCommentFrom depth n s generalizing k with
  | case1 => simp at hcomment
  | case2 depth n rest ih =>
      rintro outer rfl
      have hbounds := blockCommentFrom_bounds hcomment
      obtain ⟨k, rfl⟩ : ∃ j, k = j + 2 := ⟨k - 2, by omega⟩
      exact .enters (ih (by rw [hcomment, Option.some.injEq]; omega) (outer + 1) rfl)
  | case3 depth n rest hdepth =>
      rintro outer rfl
      obtain rfl : outer = 0 := by omega
      obtain rfl : k = 2 := by simpa using hcomment.symm
      exact .ends
  | case4 depth n rest hdepth ih =>
      rintro outer rfl
      have hbounds := blockCommentFrom_bounds hcomment
      obtain ⟨outer, rfl⟩ : ∃ o, outer = o + 1 := ⟨outer - 1, by omega⟩
      obtain ⟨k, rfl⟩ : ∃ j, k = j + 2 := ⟨k - 2, by omega⟩
      exact .leaves (ih (by rw [hcomment, Option.some.injEq]; omega) outer rfl)
  | case5 depth n c rest hopener hcloser ih =>
      rintro outer rfl
      have hbounds := blockCommentFrom_bounds hcomment
      obtain ⟨k, rfl⟩ : ∃ j, k = j + 2 := ⟨k - 2, by omega⟩
      have hinside := ih (k := k + 1) (by rw [hcomment, Option.some.injEq]; omega) outer rfl
      cases rest with
      | nil => cases hinside
      | cons d more =>
          refine .plain ?_ ?_ hinside
          · rintro rfl rfl
            exact hopener more rfl rfl
          · rintro rfl rfl
            exact hcloser more rfl rfl

/-- What a piece of trivia can be that begins with `c` and takes `k` characters of the rest. -/
inductive Piece (acrossLines : Bool) : (c : Char) → (rest : Text) → (k : Nat) → Prop where
  | blank {c : Char} {rest : Text} (space : (isInlineSpace c || (acrossLines && Text.isLineBreak c)) = true) :
      Piece acrossLines c rest 0
  | line {rest : Text} : Piece acrossLines '/' ('/' :: rest) (Text.runLength (!Text.isLineBreak ·) ('/' :: rest))
  | block {rest : Text} {k : Nat} (closed : blockCommentFrom 1 2 rest = some (2 + k)) :
      Piece acrossLines '/' ('*' :: rest) (k + 1)

theorem piece?_eq_some_iff {acrossLines : Bool} {c : Char} {rest : Text} {k : Nat} :
    piece? acrossLines c rest = .ok (some k) ↔ Piece acrossLines c rest k := by
  constructor
  · intro hpiece
    unfold piece? at hpiece
    split at hpiece
    next hspace =>
      obtain rfl : k = 0 := by simpa using hpiece.symm
      exact .blank hspace
    split at hpiece
    next hline =>
      obtain rfl : k = Text.runLength (!Text.isLineBreak ·) rest := by simpa using hpiece.symm
      rw [Bool.and_eq_true, beq_iff_eq, beq_iff_eq] at hline
      obtain ⟨rfl, hslash⟩ := hline
      obtain ⟨more, rfl⟩ := List.head?_eq_some_iff.mp hslash
      exact .line
    split at hpiece
    next hblock =>
      rw [Bool.and_eq_true, beq_iff_eq, beq_iff_eq] at hblock
      obtain ⟨rfl, hstar⟩ := hblock
      obtain ⟨more, rfl⟩ := List.head?_eq_some_iff.mp hstar
      split at hpiece
      next n hcomment =>
        obtain rfl : k = n - 1 := by simpa using hpiece.symm
        have hopened : blockCommentFrom 1 2 more = some n := hcomment
        have hbounds := blockCommentFrom_bounds hopened
        obtain ⟨n, rfl⟩ : ∃ j, n = 2 + j := ⟨n - 2, by omega⟩
        rw [show 2 + n - 1 = n + 1 by omega]
        exact .block hopened
      next => cases hpiece
    next => cases hpiece
  · intro hpiece
    cases hpiece with
    | blank hspace => rw [piece?, if_pos hspace]
    | line => cases acrossLines <;> rfl
    | @block rest k hclosed =>
        have hcomment : blockComment? ('/' :: '*' :: rest) = some (2 + k) := hclosed
        have hlength : 2 + k - 1 = k + 1 := by omega
        cases acrossLines <;> simp [piece?, isInlineSpace, Text.isLineBreak, hcomment, hlength]

theorem Piece.space_ne_slash {acrossLines : Bool} {c : Char}
    (hspace : (isInlineSpace c || (acrossLines && Text.isLineBreak c)) = true) : c ≠ '/' := by
  rintro rfl
  cases acrossLines <;> cases hspace

/-! ### Rows of pieces -/

theorem le_of_lengthFrom {acrossLines : Bool} {n m : Nat} {s : Text} (hlength : lengthFrom acrossLines n s = .ok m) :
    n ≤ m := by
  fun_induction lengthFrom acrossLines n s with
  | case1 | case3 => exact Nat.le_of_eq (Except.ok.inj hlength)
  | case2 => simp at hlength
  | case4 n c rest k hpiece ih =>
      have hle := ih hlength
      omega

/-- Trivia goes on for as long as there is some. -/
theorem piece?_of_lengthFrom {acrossLines : Bool} {n m : Nat} {s rest : Text} {c : Char}
    (hlength : lengthFrom acrossLines n s = .ok (n + m)) (hbehind : s.drop m = c :: rest) :
    piece? acrossLines c rest = .ok none := by
  fun_induction lengthFrom acrossLines n s generalizing m with
  | case1 n => simp at hbehind
  | case2 => simp at hlength
  | case3 n d more hpiece =>
      obtain rfl : m = 0 := by simpa using hlength
      obtain ⟨rfl, rfl⟩ := List.cons.inj hbehind
      exact hpiece
  | case4 n d more k hpiece ih =>
      have hle := le_of_lengthFrom hlength
      obtain ⟨m, rfl⟩ : ∃ j, m = k + 1 + j := ⟨m - (k + 1), by omega⟩
      refine ih (m := m) (by rw [hlength, Except.ok.injEq]; omega) ?_
      rw [Nat.add_right_comm, List.drop_succ_cons] at hbehind
      rw [List.drop_drop]
      exact hbehind

/-- No trivia begins where the leading trivia has ended. -/
theorem piece?_of_leadingLength {skip n : Nat} {s rest : Text} {c : Char} (hleading : leadingLength (s.drop skip) = .ok n)
    (hbegins : s.drop (skip + n) = c :: rest) : piece? true c rest = .ok none := by
  have hlength : lengthFrom true 0 (s.drop skip) = .ok (0 + n) := by
    rw [Nat.zero_add]
    exact hleading
  exact piece?_of_lengthFrom hlength (by rw [List.drop_drop]; exact hbegins)

end Trivia

namespace Token

/-- The text from `p` on is cut into the given tokens, its first `skip` characters being leading trivia whatever they
are. -/
inductive Streams (limit : Nat) : (skip : Nat) → (p : Position) → (s : Text) → (tokens : List Token) → Prop where
  | last {skip n : Nat} {p : Position} {s : Text} (leading : Trivia.leadingLength (s.drop skip) = .ok n)
      (ends : s.drop (skip + n) = []) :
      Streams limit skip p s
        [{ kind := .endOfFile, text := [], leading := s.take (skip + n), position := p.advance (skip + n) s }]
  | more {skip n k m : Nat} {p : Position} {s rest : Text} {c : Char} {kind : TokenKind} {tokens : List Token}
      (leading : Trivia.leadingLength (s.drop skip) = .ok n) (begins : s.drop (skip + n) = c :: rest)
      (lexeme : Lexeme.scan limit c rest = .ok (kind, k)) (trailing : Trivia.trailingLength (rest.drop k) = .ok m)
      (behind : Streams limit 0 (p.advance (skip + n + (k + m + 1)) s) (rest.drop (k + m)) tokens) :
      Streams limit skip p s
        ({ kind, text := c :: rest.take k, leading := s.take (skip + n), trailing := (rest.drop k).take m,
           position := p.advance (skip + n) s } :: tokens)

variable {limit skip : Nat} {p : Position} {s : Text} {done tokens : List Token}

/-- What a turn that finds a token has found. -/
theorem cut_eq_more {t : Token} {s' : Text} {q : Position} {shorter : s'.length < s.length}
    (hcut : cut limit skip p s = .ok (.more t s' q shorter)) :
    ∃ n k m c rest kind, Trivia.leadingLength (s.drop skip) = .ok n ∧ s.drop (skip + n) = c :: rest ∧
      Lexeme.scan limit c rest = .ok (kind, k) ∧ Trivia.trailingLength (rest.drop k) = .ok m ∧
      t = { kind, text := c :: rest.take k, leading := s.take (skip + n), trailing := (rest.drop k).take m,
            position := p.advance (skip + n) s } ∧
      s' = rest.drop (k + m) ∧ q = p.advance (skip + n + (k + m + 1)) s := by
  unfold cut at hcut
  split at hcut
  next => simp at hcut
  next n hleading =>
    dsimp only at hcut
    split at hcut
    next => simp at hcut
    next c rest hbegins =>
      split at hcut
      next => simp at hcut
      next t' m' htoken =>
        cases Except.ok.inj hcut
        unfold withTrailing at htoken
        split at htoken
        next => simp at htoken
        next kind k hscan =>
          split at htoken
          next => simp at htoken
          next m htrailing =>
            obtain ⟨rfl, rfl⟩ := Prod.mk.inj (Except.ok.inj htoken)
            refine ⟨n, k, m, c, rest, kind, hleading, hbegins, hscan, htrailing, rfl, rfl, ?_⟩
            rw [Position.advance_add p (skip + n), hbegins]

theorem streams_of_streamFrom (hstream : streamFrom limit skip done p s = .ok tokens) :
    ∃ cutOff, tokens = done.reverse ++ cutOff ∧ Streams limit skip p s cutOff := by
  fun_induction streamFrom limit skip done p s with
  | case1 skip done p s e hcut => simp at hstream
  | case2 skip done p s t hcut =>
      obtain rfl := Except.ok.inj hstream
      refine ⟨[t], by simp, ?_⟩
      unfold cut at hcut
      split at hcut
      next => simp at hcut
      next n hleading =>
        dsimp only at hcut
        split at hcut
        next hends =>
          cases Except.ok.inj hcut
          exact .last hleading hends
        next => split at hcut <;> simp at hcut
  | case3 skip done p s t rest q hshorter hcut ih =>
      obtain ⟨cutOff, rfl, hbehind⟩ := ih hstream
      obtain ⟨n, k, m, c, rest, kind, hleading, hbegins, hscan, htrailing, rfl, rfl, rfl⟩ := cut_eq_more hcut
      exact ⟨_ :: cutOff, by simp, .more hleading hbegins hscan htrailing hbehind⟩

theorem streamFrom_of_streams (hstreams : Streams limit skip p s tokens) (done : List Token) :
    streamFrom limit skip done p s = .ok (done.reverse ++ tokens) := by
  induction hstreams generalizing done with
  | @last skip n p s hleading hends =>
      have hcut : cut limit skip p s = .ok (.last
          { kind := .endOfFile, text := [], leading := s.take (skip + n), position := p.advance (skip + n) s }) := by
        unfold cut
        rw [hleading]
        dsimp only
        split
        next => rfl
        next hbegins => simp [hends] at hbegins
      rw [streamFrom, hcut]
      simp
  | @more skip n k m p s rest c kind tokens hleading hbegins hscan htrailing _ ih =>
      let t : Token := { kind, text := c :: rest.take k, leading := s.take (skip + n), trailing := (rest.drop k).take m,
                         position := p.advance (skip + n) s }
      have htoken : withTrailing limit (s.take (skip + n)) (p.advance (skip + n) s) c rest = .ok (t, k + m) := by
        unfold withTrailing
        rw [hscan]
        dsimp only
        rw [htrailing]
      have hcut : ∃ hshorter, cut limit skip p s =
          .ok (.more t (rest.drop (k + m)) (p.advance (skip + n + (k + m + 1)) s) hshorter) := by
        refine ⟨drop_length_lt hbegins _, ?_⟩
        unfold cut
        rw [hleading]
        dsimp only
        split
        next hends => simp [hends] at hbegins
        next c' rest' hbegins' =>
          obtain ⟨rfl, rfl⟩ := List.cons.inj (hbegins.symm.trans hbegins')
          simp only [htoken, Position.advance_add p (skip + n) (k + m + 1), hbegins]
      obtain ⟨hshorter, hcut⟩ := hcut
      rw [streamFrom, hcut]
      simpa using ih (t :: done)

theorem stream_eq_ok_iff {source : Text} :
    stream limit source = .ok tokens ↔ Streams limit (markLength source) .start source tokens := by
  constructor
  · intro hstream
    obtain ⟨cutOff, rfl, hstreams⟩ := streams_of_streamFrom hstream
    simpa using hstreams
  · intro hstreams
    rw [stream]
    simpa using streamFrom_of_streams hstreams []

end Token

end SwiftObservation
