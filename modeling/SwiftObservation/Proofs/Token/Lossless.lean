import SwiftObservation.Token.Stream

/-!
# Cutting a source into tokens loses nothing

Every cut takes a token off the front of the text and leaves the rest of it, so the tokens of a source are the source
again once they are printed in order. What has to be shown of the scanners is that they take at least one character
for a token and never yield the end of the file before the text ends; both are read off `Lexeme.Scanned`, which says
once what a lexeme can be.

The one failure that the text does not explain by itself is the nesting limit. `Literal.lengthFrom` opens a frame only
together with a character of the text, so a source shorter than the limit never reaches it.
-/

namespace SwiftObservation

namespace Lexeme

/-- What the lexeme that begins with `c` can be, with the number of characters of the rest that belong to it. -/
inductive Scanned (limit : Nat) (c : Char) (rest : Text) : TokenKind → Nat → Prop where
  | literal (pounds length : Nat) (opens : Literal.opening? (c :: rest) = some pounds)
      (scanned : Literal.length limit pounds (c :: rest) = .ok length) : Scanned limit c rest .string (length - 1)
  | pound (sign : c = '"' ∨ c = '#') (named : rest.startsWith isNameStart) :
      Scanned limit c rest .pound (rest.runLength isNameChar)
  | number (digit : Text.isDigit c) : Scanned limit c rest .number (numberLength c rest)
  | quoted (n : Nat) (quote : c = '\x60') (closed : quotedNameLength? rest = some n) :
      Scanned limit c rest .identifier n
  | backquote (quote : c = '\x60') (unclosed : quotedNameLength? rest = none) : Scanned limit c rest .backquote 0
  | word (named : isNameStart c ∨ (c = '$' ∧ rest.startsWith isNameChar)) :
      Scanned limit c rest (.ofWord (c :: rest.take (rest.runLength isNameChar))) (rest.runLength isNameChar)
  | punctuation (kind : TokenKind) (mark : TokenKind.ofPunctuation? c = some kind) : Scanned limit c rest kind 0
  | operators (run : isOperatorChar c) :
      Scanned limit c rest (.ofOperator (c :: rest.take (operatorLengthFrom (c == '.') 0 rest)))
        (operatorLengthFrom (c == '.') 0 rest)
  | single : Scanned limit c rest .operator 0

theorem scanned_of_scan {limit : Nat} {c : Char} {rest : Text} {kind : TokenKind} {n : Nat}
    (hscan : scan limit c rest = .ok (kind, n)) : Scanned limit c rest kind n := by
  unfold scan at hscan
  split at hscan
  next hquote =>
    have hsign : c = '"' ∨ c = '#' := by simpa using hquote
    split at hscan
    next pounds hopens =>
      cases hlength : Literal.length limit pounds (c :: rest) with
      | error fault => simp [hlength, bind, Except.bind] at hscan
      | ok length =>
          simp only [hlength, bind, Except.bind, pure, Except.pure, Except.ok.injEq, Prod.mk.injEq] at hscan
          obtain ⟨rfl, rfl⟩ := hscan
          exact .literal pounds length hopens hlength
    next =>
      split at hscan <;> obtain ⟨rfl, rfl⟩ := Prod.mk.inj (Except.ok.inj hscan)
      next hnamed => exact .pound hsign hnamed
      next => exact .single
  split at hscan
  next hdigit =>
    obtain ⟨rfl, rfl⟩ := Prod.mk.inj (Except.ok.inj hscan)
    exact .number hdigit
  split at hscan
  next hquote =>
    split at hscan <;> obtain ⟨rfl, rfl⟩ := Prod.mk.inj (Except.ok.inj hscan)
    next hclosed => exact .quoted _ (by simpa using hquote) hclosed
    next hunclosed => exact .backquote (by simpa using hquote) hunclosed
  split at hscan
  next hnamed =>
    obtain ⟨rfl, rfl⟩ := Prod.mk.inj (Except.ok.inj hscan)
    exact .word (by simpa using hnamed)
  split at hscan
  next hmark =>
    obtain ⟨rfl, rfl⟩ := Prod.mk.inj (Except.ok.inj hscan)
    exact .punctuation _ hmark
  split at hscan <;> obtain ⟨rfl, rfl⟩ := Prod.mk.inj (Except.ok.inj hscan)
  next hrun => exact .operators hrun
  next => exact .single

end Lexeme

/-! ### The kinds of lexemes -/

theorem TokenKind.ofWord_ne_endOfFile (word : Text) : TokenKind.ofWord word ≠ .endOfFile := by
  unfold TokenKind.ofWord
  repeat' split
  all_goals simp

theorem TokenKind.ofOperator_ne_endOfFile (run : Text) : TokenKind.ofOperator run ≠ .endOfFile := by
  unfold TokenKind.ofOperator
  repeat' split
  all_goals simp

theorem TokenKind.ne_endOfFile_of_ofPunctuation? {c : Char} {kind : TokenKind}
    (hmark : TokenKind.ofPunctuation? c = some kind) : kind ≠ .endOfFile := by
  unfold TokenKind.ofPunctuation? at hmark
  split at hmark
  all_goals simp only [Option.some.injEq, reduceCtorEq] at hmark
  all_goals subst hmark; simp

theorem Lexeme.Scanned.kind_ne_endOfFile {limit : Nat} {c : Char} {rest : Text} {kind : TokenKind} {n : Nat}
    (hscanned : Lexeme.Scanned limit c rest kind n) : kind ≠ .endOfFile := by
  cases hscanned with
  | word => exact TokenKind.ofWord_ne_endOfFile _
  | punctuation _ hmark => exact TokenKind.ne_endOfFile_of_ofPunctuation? hmark
  | operators => exact TokenKind.ofOperator_ne_endOfFile _
  | literal | pound | number | quoted | backquote | single => simp

/-! ### Operators -/

theorem Lexeme.isOperatorChar_of_mem_take (dotted : Bool) (n : Nat) (s : Text) :
    ∃ k, Lexeme.operatorLengthFrom dotted n s = n + k ∧ ∀ c ∈ s.take k, Lexeme.isOperatorChar c = true := by
  induction s generalizing n with
  | nil => exact ⟨0, rfl, by simp⟩
  | cons c rest ih =>
      rw [Lexeme.operatorLengthFrom]
      split
      · exact ⟨0, rfl, by simp⟩
      next hrun =>
        split
        · exact ⟨0, rfl, by simp⟩
        · obtain ⟨k, hlength, hchars⟩ := ih (n + 1)
          refine ⟨k + 1, by rw [hlength]; omega, ?_⟩
          have hfirst : Lexeme.isOperatorChar c = true := by
            simp only [Bool.or_eq_true, not_or, Bool.not_eq_true'] at hrun
            simpa using hrun.1
          rw [List.take_succ_cons, List.forall_mem_cons]
          exact ⟨hfirst, hchars⟩

theorem TokenKind.ofWord_ne_operator (word : Text) : TokenKind.ofWord word ≠ .operator := by
  unfold TokenKind.ofWord
  repeat' split
  all_goals simp

theorem TokenKind.ofPunctuation?_ne_operator (c : Char) : TokenKind.ofPunctuation? c ≠ some .operator := by
  unfold TokenKind.ofPunctuation?
  split <;> simp

/-- An operator is made of operator characters, unless it is a character that fits nothing else. -/
theorem Lexeme.Scanned.isOperatorChar {limit : Nat} {c : Char} {rest : Text} {kind : TokenKind} {n : Nat}
    (hscanned : Lexeme.Scanned limit c rest kind n) (hkind : kind = .operator) :
    n = 0 ∨ ∀ d ∈ c :: rest.take n, Lexeme.isOperatorChar d = true := by
  cases hscanned with
  | word => exact absurd hkind (TokenKind.ofWord_ne_operator _)
  | punctuation _ hmark => exact absurd (hkind ▸ hmark) (TokenKind.ofPunctuation?_ne_operator c)
  | operators hrun =>
      obtain ⟨k, hlength, hchars⟩ := Lexeme.isOperatorChar_of_mem_take (c == '.') 0 rest
      rw [hlength, Nat.zero_add]
      exact .inr (List.forall_mem_cons.mpr ⟨hrun, hchars⟩)
  | single => exact .inl rfl
  | literal | pound | number | quoted | backquote => simp at hkind

/-! ### One cut -/

namespace Token

/-- What is true of every token of a source but the last. -/
structure IsProper (t : Token) : Prop where
  kind_ne : t.kind ≠ .endOfFile
  text_ne : t.text ≠ []
  operator : t.kind = .operator → t.text.length ≤ 1 ∨ ∀ c ∈ t.text, Lexeme.isOperatorChar c = true

/-- A token with its trailing trivia, together with the text behind it, is the text that it was cut from. -/
theorem withTrailing_spec {limit : Nat} {leading : Text} {p : Position} {c : Char} {rest : Text} {t : Token} {n : Nat}
    (hcut : withTrailing limit leading p c rest = .ok (t, n)) :
    t.IsProper ∧ t.fullText ++ rest.drop n = leading ++ c :: rest := by
  unfold withTrailing at hcut
  split at hcut
  next => simp at hcut
  next kind m hscan =>
    split at hcut
    next => simp at hcut
    next k _ =>
      obtain ⟨rfl, rfl⟩ := Prod.mk.inj (Except.ok.inj hcut)
      have hscanned := Lexeme.scanned_of_scan hscan
      refine ⟨⟨hscanned.kind_ne_endOfFile, List.cons_ne_nil _ _, fun hkind => ?_⟩, ?_⟩
      · rcases hscanned.isOperatorChar hkind with rfl | hchars
        · exact .inl (by simp)
        · exact .inr hchars
      have hbehind : (rest.drop m).take k ++ rest.drop (m + k) = rest.drop m := by
        rw [← List.drop_drop, List.take_append_drop]
      simp only [fullText, List.append_assoc, List.cons_append, hbehind, List.take_append_drop]

/-- What a cut takes and what it leaves make up the text again, and only the end of the file leaves nothing. -/
theorem cut_spec {limit skip : Nat} {p : Position} {s : Text} {taken : Cut s}
    (hcut : cut limit skip p s = .ok taken) :
    match taken with
    | .last t => t.kind = .endOfFile ∧ t.fullText = s
    | .more t rest _ _ => t.IsProper ∧ t.fullText ++ rest = s := by
  unfold cut at hcut
  split at hcut
  next => simp at hcut
  next n _ =>
    dsimp only at hcut
    split at hcut
    next hend =>
      cases Except.ok.inj hcut
      have hall : s.take (skip + n) = s := List.take_of_length_le (List.drop_eq_nil_iff.mp hend)
      exact ⟨rfl, by simp [fullText, hall]⟩
    next c rest hbehind =>
      split at hcut
      next => simp at hcut
      next t m htoken =>
        cases Except.ok.inj hcut
        obtain ⟨hproper, htext⟩ := withTrailing_spec htoken
        exact ⟨hproper, by rw [htext, ← hbehind, List.take_append_drop]⟩

/-! ### The whole stream -/

/-- The tokens cut off a text: proper ones that print it, and the end of the file behind them. -/
def Covers (tokens : List Token) (s : Text) : Prop :=
  ∃ front last, tokens = front ++ [last] ∧ last.kind = .endOfFile ∧ (∀ t ∈ front, t.IsProper) ∧ textOf tokens = s

theorem streamFrom_covers {limit skip : Nat} {done : List Token} {p : Position} {s : Text} {tokens : List Token}
    (hstream : streamFrom limit skip done p s = .ok tokens) :
    ∃ cutOff, tokens = done.reverse ++ cutOff ∧ Covers cutOff s := by
  fun_induction streamFrom limit skip done p s with
  | case1 skip done p s e hcut => simp at hstream
  | case2 skip done p s t hcut =>
      obtain ⟨hkind, htext⟩ := cut_spec hcut
      refine ⟨[t], ?_, [], t, rfl, hkind, by simp, by simpa using htext⟩
      simpa using (Except.ok.inj hstream).symm
  | case3 skip done p s t rest q hshorter hcut ih =>
      obtain ⟨hproper, htext⟩ := cut_spec hcut
      obtain ⟨cutOff, hdone, front, last, rfl, hlast, hfront, hrest⟩ := ih hstream
      refine ⟨t :: (front ++ [last]), by simpa using hdone, t :: front, last, rfl, hlast, ?_, ?_⟩
      · intro u hu
        rcases List.mem_cons.mp hu with rfl | hu
        · exact hproper
        · exact hfront u hu
      · rw [textOf_cons, hrest, htext]

theorem stream_covers {limit : Nat} {source : Text} {tokens : List Token}
    (hstream : stream limit source = .ok tokens) : Covers tokens source := by
  obtain ⟨cutOff, rfl, hcovers⟩ := streamFrom_covers hstream
  simpa using hcovers

end Token

/-! ### The nesting limit -/

namespace Literal

/-- A move opens at most one frame. -/
theorem length_frames_of_move {limit n skip : Nat} {top : Frame} {below frames : List Frame} {s : Text} {c : Char}
    (hmove : move limit n top below s c = .ok (skip, frames)) : frames.length ≤ below.length + 2 := by
  cases top with
  | literal pounds multiline start =>
      simp only [move, moveInLiteral] at hmove
      repeat' split at hmove
      all_goals cases hmove
      all_goals simp
  | interpolation parens =>
      simp only [move, moveInInterpolation] at hmove
      repeat' split at hmove
      all_goals cases hmove
      all_goals simp

/-- A move is refused for its depth only when as many frames are open as the limit allows. -/
theorem limit_le_of_move_tooDeep {limit n : Nat} {top : Frame} {below : List Frame} {s : Text} {c : Char}
    (hmove : move limit n top below s c = .error .tooDeep) : 2 * limit ≤ below.length + 1 := by
  cases top with
  | literal pounds multiline start =>
      simp only [move, moveInLiteral] at hmove
      repeat' split at hmove
      all_goals cases hmove
  | interpolation parens =>
      simp only [move, moveInInterpolation] at hmove
      repeat' split at hmove
      all_goals cases hmove
      assumption

theorem openFault_ne_tooDeep (top : Frame) (below : List Frame) : openFault top below ≠ .tooDeep := by
  unfold openFault
  split <;> simp

/-- Every open frame has taken a character, so the limit is only reached by a text that is long enough. -/
theorem le_length_of_lengthFrom_tooDeep {limit skip n : Nat} {top : Frame} {below : List Frame} {s : Text}
    (hdeep : lengthFrom limit skip n top below s = .error .tooDeep) (hframes : below.length + 1 ≤ n + skip) :
    2 * limit ≤ n + s.length := by
  fun_induction lengthFrom limit skip n top below s with
  | case1 skip n top below => exact absurd (Except.error.inj hdeep) (openFault_ne_tooDeep top below)
  | case2 n top below skip _ rest ih =>
      have hbound := ih hdeep (by omega)
      simp only [List.length_cons]
      omega
  | case3 n top below c rest fault hmove =>
      have hlimit := limit_le_of_move_tooDeep (Except.error.inj hdeep ▸ hmove)
      omega
  | case4 => simp at hdeep
  | case5 n top below c rest skip top' below' hmove ih =>
      have hopened := length_frames_of_move hmove
      simp only [List.length_cons] at hopened
      have hbound := ih hdeep (by omega)
      simp only [List.length_cons]
      omega

theorem le_length_of_length_tooDeep {limit pounds : Nat} {s : Text}
    (hdeep : length limit pounds s = .error .tooDeep) : 2 * limit ≤ s.length := by
  have hquotes : ∀ multiline, 1 ≤ (quotes multiline).length := by
    intro multiline
    cases multiline <;> decide
  have hbound := le_length_of_lengthFrom_tooDeep hdeep (by simpa using Nat.le_add_left_of_le (hquotes _))
  omega

end Literal

theorem Lexeme.le_length_of_scan_tooDeep {limit : Nat} {c : Char} {rest : Text}
    (hdeep : Lexeme.scan limit c rest = .error .tooDeep) : 2 * limit ≤ rest.length + 1 := by
  unfold Lexeme.scan at hdeep
  repeat' split at hdeep
  all_goals try simp only [reduceCtorEq] at hdeep
  next pounds _ =>
    cases hlength : Literal.length limit pounds (c :: rest) with
    | error fault =>
        simp only [hlength, bind, Except.bind, Except.error.injEq] at hdeep
        exact Literal.le_length_of_length_tooDeep (hdeep ▸ hlength)
    | ok length => simp [hlength, bind, Except.bind, pure, Except.pure] at hdeep

theorem Trivia.piece?_ne_tooDeep (acrossLines : Bool) (c : Char) (rest : Text) :
    Trivia.piece? acrossLines c rest ≠ .error .tooDeep := by
  unfold Trivia.piece?
  repeat' split
  all_goals simp

theorem ScanFault.shift_eq_tooDeep {n : Nat} {fault : ScanFault} : fault.shift n = .tooDeep ↔ fault = .tooDeep := by
  cases fault <;> simp [ScanFault.shift]

theorem Trivia.lengthFrom_ne_tooDeep (acrossLines : Bool) (n : Nat) (s : Text) :
    Trivia.lengthFrom acrossLines n s ≠ .error .tooDeep := by
  fun_induction Trivia.lengthFrom acrossLines n s with
  | case1 => simp
  | case2 n c rest fault hpiece =>
      intro hdeep
      have hfault : fault = .tooDeep := ScanFault.shift_eq_tooDeep.mp (Except.error.inj hdeep)
      exact Trivia.piece?_ne_tooDeep acrossLines c rest (hfault ▸ hpiece)
  | case3 => simp
  | case4 n c rest k hpiece ih => exact ih

theorem LexError.ofFault_eq_tooDeep {p : Position} {s : Text} {fault : ScanFault} :
    LexError.ofFault p s fault = .tooDeep ↔ fault = .tooDeep := by
  cases fault <;> simp [LexError.ofFault]

namespace Token

theorem le_length_of_withTrailing_tooDeep {limit : Nat} {leading : Text} {p : Position} {c : Char} {rest : Text}
    (hdeep : withTrailing limit leading p c rest = .error .tooDeep) : 2 * limit ≤ rest.length + 1 := by
  unfold withTrailing at hdeep
  split at hdeep
  next fault hscan =>
    have hfault : fault = .tooDeep := LexError.ofFault_eq_tooDeep.mp (Except.error.inj hdeep)
    exact Lexeme.le_length_of_scan_tooDeep (hfault ▸ hscan)
  next =>
    split at hdeep
    next fault htrailing =>
      have hfault := ScanFault.shift_eq_tooDeep.mp (LexError.ofFault_eq_tooDeep.mp (Except.error.inj hdeep))
      exact absurd (hfault ▸ htrailing) (Trivia.lengthFrom_ne_tooDeep _ _ _)
    next => simp at hdeep

theorem le_length_of_cut_tooDeep {limit skip : Nat} {p : Position} {s : Text}
    (hdeep : cut limit skip p s = .error .tooDeep) : 2 * limit ≤ s.length := by
  unfold cut at hdeep
  split at hdeep
  next fault hleading =>
    have hfault := ScanFault.shift_eq_tooDeep.mp (LexError.ofFault_eq_tooDeep.mp (Except.error.inj hdeep))
    exact absurd (hfault ▸ hleading) (Trivia.lengthFrom_ne_tooDeep _ _ _)
  next n _ =>
    dsimp only at hdeep
    split at hdeep
    next => simp at hdeep
    next c rest hbehind =>
      split at hdeep
      next e htoken =>
        have hbound := le_length_of_withTrailing_tooDeep (Except.error.inj hdeep ▸ htoken)
        have hlength := congrArg List.length hbehind
        simp only [List.length_drop, List.length_cons] at hlength
        omega
      next => simp at hdeep

theorem le_length_of_streamFrom_tooDeep {limit skip : Nat} {done : List Token} {p : Position} {s : Text}
    (hdeep : streamFrom limit skip done p s = .error .tooDeep) : 2 * limit ≤ s.length := by
  fun_induction streamFrom limit skip done p s with
  | case1 skip done p s e hcut => exact le_length_of_cut_tooDeep (Except.error.inj hdeep ▸ hcut)
  | case2 => simp at hdeep
  | case3 skip done p s t rest q hshorter hcut ih => exact Nat.le_trans (ih hdeep) (Nat.le_of_lt hshorter)

/-- Lexing loses nothing: a source has a lexical fault, or its tokens end with the only end of the file, all others
have a text of their own, and printed in order they are the source. The nesting limit stands in the way only of sources
with two characters for every literal that it allows. -/
theorem stream_lossless (limit : Nat) (source : Text) :
    match stream limit source with
    | .error e => e = .tooDeep → 2 * limit ≤ source.length
    | .ok tokens => ∃ front last, tokens = front ++ [last] ∧ last.kind = .endOfFile ∧
        (∀ t ∈ front, t.kind ≠ .endOfFile ∧ t.text ≠ []) ∧ textOf tokens = source := by
  cases hstream : stream limit source with
  | error e =>
      intro hdeep
      exact le_length_of_streamFrom_tooDeep (hdeep ▸ hstream)
  | ok tokens =>
      obtain ⟨front, last, happend, hlast, hfront, htext⟩ := stream_covers hstream
      exact ⟨front, last, happend, hlast, fun t ht => ⟨(hfront t ht).kind_ne, (hfront t ht).text_ne⟩, htext⟩

end Token

end SwiftObservation
