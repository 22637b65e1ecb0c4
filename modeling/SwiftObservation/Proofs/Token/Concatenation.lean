import SwiftObservation.Proofs.Grammar.Joined

/-!
# Sources joined at a line feed

A source that has tokens has the same ones in front of a line feed, whatever follows. A scanner that comes to the end of
the source looks ahead into the line feed instead, and that continues no lexeme, closes no literal and ends a line comment;
so the scanner stops where it did. Only leading trivia runs on over the line feed, and from there it is the leading trivia
of the second source. So the tokens of two sources joined at a line feed are those of the first, its end apart, and those
of the second.
-/

namespace SwiftObservation

/-! ### Looking ahead into a line feed -/

namespace Text

variable {p : Char → Bool} {s tail : Text}

theorem startsWith_append (htail : EndsLine tail) (hp : p '\n' = false) : startsWith p (s ++ tail) = startsWith p s := by
  cases s with
  | nil => exact htail.startsWith hp
  | cons c rest => rfl

/-- A run of a class without the line feed ends where the line does. -/
theorem runLength_append_tail (htail : EndsLine tail) (hp : p '\n' = false) : runLength p (s ++ tail) = runLength p s := by
  induction s with
  | nil =>
      have hstart := htail.startsWith hp
      cases tail with
      | nil => rfl
      | cons c rest =>
          have hc : p c = false := hstart
          simp [runLength, hc]
  | cons c rest ih =>
      cases hc : p c with
      | false => simp [runLength, hc]
      | true => simpa [runLength, hc] using ih

theorem head?_append {c : Char} (htail : EndsLine tail) (hc : c ≠ '\n') :
    (s ++ tail).head? = some c ↔ s.head? = some c := by
  cases s with
  | nil =>
      refine ⟨fun hhead => absurd (htail c hhead) hc, fun hhead => ?_⟩
      cases hhead
  | cons d rest => rfl

theorem prefix_append_iff {mark : Text} (htail : EndsLine tail) (hmark : '\n' ∉ mark) : mark <+: s ++ tail ↔ mark <+: s := by
  constructor
  · intro hfound
    refine prefix_of_prefix_take_append (n := s.length) htail hmark ?_
    rwa [List.take_length]
  · intro hfound
    exact hfound.trans (List.prefix_append s tail)

end Text

namespace Trivia

variable {acrossLines : Bool} {c : Char} {n m k : Nat} {s rest tail : Text}

theorem blockComment?_append (htail : tail.EndsLine) (hcomment : blockComment? s = some m) :
    blockComment? (s ++ tail) = some m := by
  have hbounds := blockCommentFrom_bounds hcomment
  have hsame := blockComment?_take_append htail hcomment (k := s.length) (by omega)
  rwa [List.take_length] at hsame

/-- A piece of trivia ends within the text that it was found in. -/
theorem le_length_of_piece? (hpiece : piece? acrossLines c rest = .ok (some k)) : k ≤ rest.length := by
  cases piece?_eq_some_iff.mp hpiece with
  | blank => exact Nat.zero_le _
  | line => exact Text.runLength_le _ _
  | block hclosed =>
      have hbounds := blockCommentFrom_bounds hclosed
      rw [List.length_cons]
      omega

/-- What trivia there is at the front of a text is the same in front of a line feed. -/
theorem piece?_append {found : Option Nat} (htail : tail.EndsLine) (hpiece : piece? acrossLines c rest = .ok found) :
    piece? acrossLines c (rest ++ tail) = .ok found := by
  have hslash : ((rest ++ tail).head? == some '/') = (rest.head? == some '/') := by
    rw [Bool.eq_iff_iff, beq_iff_eq, beq_iff_eq, Text.head?_append htail (by decide)]
  have hstar : ((rest ++ tail).head? == some '*') = (rest.head? == some '*') := by
    rw [Bool.eq_iff_iff, beq_iff_eq, beq_iff_eq, Text.head?_append htail (by decide)]
  unfold piece? at hpiece ⊢
  rw [hslash, hstar, Text.runLength_append_tail htail (by decide)]
  split at hpiece
  next hspace => rwa [if_pos hspace]
  next hspace =>
    rw [if_neg hspace]
    split at hpiece
    next hline => rwa [if_pos hline]
    next hline =>
      rw [if_neg hline]
      split at hpiece
      next hblock =>
        rw [if_pos hblock, ← List.cons_append]
        split at hpiece
        next length hcomment => rwa [blockComment?_append htail hcomment]
        next => cases hpiece
      next hblock => rwa [if_neg hblock]

theorem lengthFrom_false_endsLine (htail : tail.EndsLine) (n : Nat) : lengthFrom false n tail = .ok n := by
  obtain rfl | ⟨rest, rfl⟩ := htail.cases
  · rw [lengthFrom]
  · have hpiece : piece? false '\n' rest = .ok none := rfl
    rw [lengthFrom, hpiece]

/-- Trailing trivia ends in front of a line feed. -/
theorem lengthFrom_false_append (htail : tail.EndsLine) (hlength : lengthFrom false n s = .ok m) :
    lengthFrom false n (s ++ tail) = .ok m := by
  fun_induction lengthFrom false n s with
  | case1 n =>
      rw [List.nil_append, lengthFrom_false_endsLine htail]
      exact hlength
  | case2 => cases hlength
  | case3 n c rest hpiece =>
      rw [List.cons_append, lengthFrom, piece?_append htail hpiece]
      exact hlength
  | case4 n c rest k hpiece ih =>
      rw [List.cons_append, lengthFrom, piece?_append htail hpiece]
      dsimp only
      rw [List.drop_append_of_le_length (le_length_of_piece? hpiece)]
      exact ih hlength

/-- Leading trivia that ends in front of a lexeme ends there whatever follows behind the line. -/
theorem lengthFrom_append_of_begins (htail : tail.EndsLine) (hlength : lengthFrom acrossLines n s = .ok (n + m))
    (hbegins : s.drop m = c :: rest) : lengthFrom acrossLines n (s ++ tail) = .ok (n + m) := by
  fun_induction lengthFrom acrossLines n s generalizing m with
  | case1 n => simp at hbegins
  | case2 => cases hlength
  | case3 n d more hpiece =>
      rw [List.cons_append, lengthFrom, piece?_append htail hpiece]
      exact hlength
  | case4 n d more k hpiece ih =>
      have hle := le_of_lengthFrom hlength
      obtain ⟨m, rfl⟩ : ∃ j, m = k + 1 + j := ⟨m - (k + 1), by omega⟩
      have hbehind : (more.drop k).drop m = c :: rest := by
        rw [List.drop_drop]
        rwa [Nat.add_right_comm, List.drop_succ_cons] at hbegins
      have hsum : n + (k + 1 + m) = n + k + 1 + m := by omega
      rw [hsum] at hlength ⊢
      rw [List.cons_append, lengthFrom, piece?_append htail hpiece]
      dsimp only
      rw [List.drop_append_of_le_length (le_length_of_piece? hpiece)]
      exact ih hlength hbehind

/-- Leading trivia up to the end of a text goes on behind it. -/
theorem lengthFrom_append_of_ends (htail : tail.EndsLine) (hlength : lengthFrom acrossLines n s = .ok (n + m))
    (hends : s.drop m = []) : lengthFrom acrossLines n (s ++ tail) = lengthFrom acrossLines (n + s.length) tail := by
  fun_induction lengthFrom acrossLines n s generalizing m with
  | case1 n => rfl
  | case2 => cases hlength
  | case3 n d more hpiece =>
      obtain rfl : m = 0 := by simpa using hlength
      cases hends
  | case4 n d more k hpiece ih =>
      have hle := le_of_lengthFrom hlength
      have hlong := le_length_of_piece? hpiece
      obtain ⟨m, rfl⟩ : ∃ j, m = k + 1 + j := ⟨m - (k + 1), by omega⟩
      have hbehind : (more.drop k).drop m = [] := by
        rw [List.drop_drop]
        rwa [Nat.add_right_comm, List.drop_succ_cons] at hends
      rw [List.cons_append, lengthFrom, piece?_append htail hpiece]
      dsimp only
      rw [List.drop_append_of_le_length hlong, ih (by rw [hlength, Except.ok.injEq]; omega) hbehind]
      congr 1
      rw [List.length_drop, List.length_cons]
      omega

/-- Trivia ends within the text that it was found in. -/
theorem lengthFrom_le (hlength : lengthFrom acrossLines n s = .ok m) : m ≤ n + s.length := by
  fun_induction lengthFrom acrossLines n s with
  | case1 n => exact (Except.ok.inj hlength).ge
  | case2 => cases hlength
  | case3 n c rest hpiece =>
      obtain rfl := Except.ok.inj hlength
      exact Nat.le_add_right n _
  | case4 n c rest k hpiece ih =>
      have hlong := le_length_of_piece? hpiece
      have hrest := ih hlength
      rw [List.length_drop] at hrest
      rw [List.length_cons]
      omega

/-- How much is behind already does not matter to what follows. -/
theorem lengthFrom_add (k : Nat) :
    lengthFrom acrossLines (k + n) s = .ok m ↔ ∃ j, m = k + j ∧ lengthFrom acrossLines n s = .ok j := by
  fun_induction lengthFrom acrossLines n s with
  | case1 n =>
      rw [lengthFrom]
      simp [eq_comm]
  | case2 n c rest fault hpiece =>
      rw [lengthFrom, hpiece]
      simp
  | case3 n c rest hpiece =>
      rw [lengthFrom, hpiece]
      simp [eq_comm]
  | case4 n c rest i hpiece ih =>
      rw [lengthFrom, hpiece]
      dsimp only
      rw [Nat.add_assoc k n, Nat.add_assoc k]
      exact ih

end Trivia

/-! ### Lexemes in front of a line feed -/

namespace Literal

variable {limit pounds n : Nat} {s tail : Text}

theorem opening?_append (htail : tail.EndsLine) : opening? (s ++ tail) = opening? s := by
  apply Option.ext
  intro pounds
  rw [opening?_eq_some_iff, opening?_eq_some_iff, Text.prefix_append_iff htail (newline_not_mem_mark pounds)]

theorem length_append (htail : tail.EndsLine) (hopen : opening? s = some pounds) (hlength : length limit pounds s = .ok n) :
    length limit pounds (s ++ tail) = .ok n := by
  have hlt : (opened pounds 0 s).2 < n := by simpa [opened] using lt_of_lengthFrom hlength
  have hle : n ≤ s.length := by simpa using lengthFrom_le hlength
  have hsame : opened pounds 0 (s.take s.length ++ tail) = opened pounds 0 s := opened_take_append htail hopen (by omega)
  rw [List.take_length] at hsame
  unfold length at hlength ⊢
  rw [hsame]
  have hscan := lengthFrom_take_append (n := s.length) htail hlength (by omega)
  rwa [List.take_length] at hscan

end Literal

namespace Lexeme

variable {s tail : Text}

theorem radixLengthFrom_append (htail : tail.EndsLine) (n : Nat) :
    radixLengthFrom n (s ++ tail) = radixLengthFrom n s := by
  have hnosign : isSign '\n' = false := by decide
  have hnodigit : isAlphanumeric '\n' = false := by decide +kernel
  fun_induction radixLengthFrom n s with
  | case1 n => exact radixLengthFrom_endsLine htail n
  | case2 n c hc =>
      rw [List.singleton_append, radixLengthFrom_cons hc (by simp [htail.startsWith hnosign]),
        radixLengthFrom_endsLine htail]
  | case3 n c hc =>
      obtain rfl | ⟨rest, rfl⟩ := htail.cases
      · simp [radixLengthFrom, hc]
      · simp [radixLengthFrom, hc, hnodigit]
  | case4 n c next rest hdot hnext ih =>
      rw [← ih]
      simp [radixLengthFrom, hdot, hnext]
  | case5 n c next rest hdot hnext => simp [radixLengthFrom, hdot, hnext]
  | case6 n c next rest hdot hc => simp [radixLengthFrom, hdot, hc]
  | case7 n c next rest hdot hc hsign ih =>
      rw [← ih]
      simp only [List.cons_append, radixLengthFrom, hdot, hc, hsign, Bool.false_eq_true, ite_false, ite_true]
  | case8 n c next rest hdot hc hsign ih =>
      rw [← ih]
      simp only [List.cons_append, radixLengthFrom, hdot, hc, hsign, Bool.false_eq_true, ite_false]

theorem fractionLength_append (htail : tail.EndsLine) : fractionLength (s ++ tail) = fractionLength s := by
  have hdigit : Text.isDigit '\n' = false := by decide +kernel
  cases s with
  | nil => obtain rfl | ⟨rest, rfl⟩ := htail.cases <;> rfl
  | cons c rest =>
      by_cases hdot : c = '.'
      · subst hdot
        rw [List.cons_append, fractionLength, fractionLength, Text.startsWith_append htail hdigit,
          Text.runLength_append_tail htail isDigitChar_newline]
      · simp [fractionLength, hdot]

theorem exponentLength_append (htail : tail.EndsLine) : exponentLength (s ++ tail) = exponentLength s := by
  have hdigit : Text.isDigit '\n' = false := by decide +kernel
  have hsign : isSign '\n' = false := by decide
  match s with
  | [] =>
      obtain rfl | ⟨rest, rfl⟩ := htail.cases
      · rfl
      · cases rest <;> simp [exponentLength]
  | [mark] =>
      obtain rfl | ⟨rest, rfl⟩ := htail.cases
      · rfl
      · simp [exponentLength, hdigit, hsign]
  | mark :: next :: rest =>
      simp only [List.cons_append, exponentLength, Text.startsWith_append htail hdigit,
        Text.runLength_append_tail htail isDigitChar_newline]

theorem numberLength_append (htail : tail.EndsLine) (c : Char) : numberLength c (s ++ tail) = numberLength c s := by
  have hmark : Text.startsWith (fun c => c == 'x' || c == 'b' || c == 'o') (s ++ tail) =
      Text.startsWith (fun c => c == 'x' || c == 'b' || c == 'o') s := Text.startsWith_append htail (by decide)
  have hwhole := Text.runLength_le isDigitChar s
  have hfraction := fractionLength_le (s.drop (Text.runLength isDigitChar s))
  rw [List.length_drop] at hfraction
  unfold numberLength
  rw [hmark]
  split
  next hradix =>
    cases s with
    | nil => simp [Text.startsWith] at hradix
    | cons mark rest =>
        simp only [List.cons_append, List.drop_succ_cons, List.drop_zero, radixLengthFrom_append htail]
  next =>
    dsimp only
    rw [Text.runLength_append_tail htail isDigitChar_newline, List.drop_append_of_le_length hwhole,
      fractionLength_append htail, List.drop_append_of_le_length (by omega), exponentLength_append htail]

theorem operatorLengthFrom_append {dotted : Bool} (htail : tail.EndsLine) (n : Nat) :
    operatorLengthFrom dotted n (s ++ tail) = operatorLengthFrom dotted n s := by
  have hline : isOperatorChar '\n' = false := by decide
  induction s generalizing n with
  | nil =>
      obtain rfl | ⟨rest, rfl⟩ := htail.cases
      · rfl
      · simp [operatorLengthFrom, hline]
  | cons c rest ih =>
      rw [List.cons_append, operatorLengthFrom, operatorLengthFrom, ih, Text.startsWith_append htail (by decide)]

theorem quotedNameLength?_append (htail : tail.EndsLine) : quotedNameLength? (s ++ tail) = quotedNameLength? s := by
  have hrun : Text.runLength (fun c => c != '\x60' && c != '\n') (s ++ tail) =
      Text.runLength (fun c => c != '\x60' && c != '\n') s := Text.runLength_append_tail htail (by decide)
  have hquote : (((s ++ tail).drop (s.runLength fun c => c != '\x60' && c != '\n')).head? == some '\x60') =
      ((s.drop (s.runLength fun c => c != '\x60' && c != '\n')).head? == some '\x60') := by
    rw [List.drop_append_of_le_length (Text.runLength_le _ s), Bool.eq_iff_iff, beq_iff_eq, beq_iff_eq,
      Text.head?_append htail (by decide)]
  unfold quotedNameLength?
  rw [hrun]
  dsimp only
  rw [hquote]

/-- A lexeme is scanned again when a line feed follows the text that it was found in. -/
theorem scan_append {limit n : Nat} {c : Char} {kind : TokenKind} (htail : tail.EndsLine)
    (hscan : scan limit c s = .ok (kind, n)) : scan limit c (s ++ tail) = .ok (kind, n) := by
  have hnamestart : isNameStart '\n' = false := by decide +kernel
  have hrun := Text.runLength_le isNameChar s
  have hoperator : operatorLengthFrom (c == '.') 0 s ≤ s.length := by simpa using operatorLengthFrom_le (c == '.') 0 s
  unfold scan at hscan ⊢
  rw [← List.cons_append, Literal.opening?_append htail, Text.startsWith_append htail hnamestart,
    Text.startsWith_append htail isNameChar_newline, Text.runLength_append_tail htail isNameChar_newline,
    numberLength_append htail, quotedNameLength?_append htail, operatorLengthFrom_append htail]
  dsimp only at hscan ⊢
  rw [List.take_append_of_le_length hrun, List.take_append_of_le_length hoperator]
  split at hscan
  next hsign =>
    rw [if_pos hsign]
    split at hscan
    next pounds hopen =>
      -- Only a literal can fail, and one that has an end keeps it.
      cases hlength : Literal.length limit pounds (c :: s) with
      | error fault => simp [hlength, bind, Except.bind] at hscan
      | ok length =>
          rw [hlength] at hscan
          rw [Literal.length_append htail hopen hlength]
          exact hscan
    next => exact hscan
  next hsign =>
    rw [if_neg hsign]
    exact hscan

end Lexeme

/-! ### Tokens in front of a line feed -/

namespace Token

variable {limit skip : Nat} {p q : Position} {s a b : Text} {tokens : List Token} {words : List (TokenKind × Text)}

/-- The text is cut into tokens with the given spellings, wherever it stands. -/
def Spelled (limit skip : Nat) (s : Text) (words : List (TokenKind × Text)) : Prop :=
  ∀ p, ∃ tokens, Streams limit skip p s tokens ∧ tokens.map spelling = words

/-- Where a text stands does not matter to the spelling of its tokens. -/
theorem Streams.spelled (hstreams : Streams limit skip p s tokens) : Spelled limit skip s (tokens.map spelling) := by
  induction hstreams with
  | last hleading hends => exact fun q => ⟨_, .last hleading hends, rfl⟩
  | @more skip n k m p s rest c kind tokens hleading hbegins hscan htrailing _ ih =>
      intro q
      obtain ⟨more, hmore, hspelling⟩ := ih (q.advance (skip + n + (k + m + 1)) s)
      refine ⟨_, .more hleading hbegins hscan htrailing hmore, ?_⟩
      rw [List.map_cons, List.map_cons, hspelling]
      rfl

theorem spelled_iff : Spelled limit skip s words ↔ ∃ tokens, Streams limit skip p s tokens ∧ tokens.map spelling = words := by
  constructor
  · intro hspelled
    exact hspelled p
  · rintro ⟨tokens, hstreams, rfl⟩
    exact hstreams.spelled

/-- A text that ends in its leading trivia has no token but the end of the file. -/
theorem spelled_of_ends {n : Nat} (hleading : Trivia.leadingLength (s.drop skip) = .ok n) (hends : s.drop (skip + n) = []) :
    Spelled limit skip s words ↔ words = [(.endOfFile, [])] := by
  constructor
  · intro hspelled
    obtain ⟨tokens, hstreams, rfl⟩ := hspelled .start
    cases hstreams with
    | last => rfl
    | more hleading' hbegins =>
        obtain rfl := Except.ok.inj (hleading.symm.trans hleading')
        simp [hends] at hbegins
  · rintro rfl p
    exact ⟨_, .last hleading hends, rfl⟩

/-- The turn of the lexer at a lexeme, and the turns behind it. -/
theorem spelled_of_begins {n k m : Nat} {c : Char} {rest : Text} {kind : TokenKind}
    (hleading : Trivia.leadingLength (s.drop skip) = .ok n) (hbegins : s.drop (skip + n) = c :: rest)
    (hscan : Lexeme.scan limit c rest = .ok (kind, k)) (htrailing : Trivia.trailingLength (rest.drop k) = .ok m) :
    Spelled limit skip s words ↔
      ∃ more, words = (kind, c :: rest.take k) :: more ∧ Spelled limit 0 (rest.drop (k + m)) more := by
  constructor
  · intro hspelled
    obtain ⟨tokens, hstreams, rfl⟩ := hspelled .start
    cases hstreams with
    | last hleading' hends =>
        obtain rfl := Except.ok.inj (hleading.symm.trans hleading')
        simp [hends] at hbegins
    | more hleading' hbegins' hscan' htrailing' hbehind =>
        obtain rfl := Except.ok.inj (hleading.symm.trans hleading')
        obtain ⟨rfl, rfl⟩ := List.cons.inj (hbegins.symm.trans hbegins')
        obtain ⟨rfl, rfl⟩ := Prod.mk.inj (Except.ok.inj (hscan.symm.trans hscan'))
        obtain rfl := Except.ok.inj (htrailing.symm.trans htrailing')
        exact ⟨_, rfl, hbehind.spelled⟩
  · rintro ⟨more, rfl, hmore⟩ p
    obtain ⟨tokens, hbehind, rfl⟩ := hmore (p.advance (skip + n + (k + m + 1)) s)
    exact ⟨_, .more hleading hbegins hscan htrailing hbehind, rfl⟩

/-- A text behind a front of leading trivia, all of it, has the tokens that it has by itself. -/
theorem spelled_append_of_leading (hskip : skip ≤ a.length)
    (hleading : ∀ n, Trivia.leadingLength ((a ++ b).drop skip) = .ok n ↔
      ∃ j, n = a.length - skip + j ∧ Trivia.leadingLength b = .ok j) :
    Spelled limit skip (a ++ b) words ↔ Spelled limit 0 b words := by
  have hdrop (j : Nat) : (a ++ b).drop (skip + (a.length - skip + j)) = b.drop (0 + j) := by
    have hsum : skip + (a.length - skip + j) = a.length + j := by omega
    rw [hsum, List.drop_length_add_append, Nat.zero_add]
  constructor
  · intro hspelled
    obtain ⟨tokens, hstreams, rfl⟩ := hspelled .start
    cases hstreams with
    | last hfound hends =>
        obtain ⟨j, rfl, hj⟩ := (hleading _).mp hfound
        rw [hdrop] at hends
        have hleading' : Trivia.leadingLength (b.drop 0) = .ok j := hj
        exact (spelled_of_ends hleading' hends).mpr rfl
    | more hfound hbegins hscan htrailing hbehind =>
        obtain ⟨j, rfl, hj⟩ := (hleading _).mp hfound
        rw [hdrop] at hbegins
        have hleading' : Trivia.leadingLength (b.drop 0) = .ok j := hj
        exact (spelled_of_begins hleading' hbegins hscan htrailing).mpr ⟨_, rfl, hbehind.spelled⟩
  · intro hspelled
    obtain ⟨tokens, hstreams, rfl⟩ := hspelled .start
    cases hstreams with
    | last hfound hends =>
        rw [← hdrop] at hends
        exact (spelled_of_ends ((hleading _).mpr ⟨_, rfl, hfound⟩) hends).mpr rfl
    | more hfound hbegins hscan htrailing hbehind =>
        rw [← hdrop] at hbegins
        exact (spelled_of_begins ((hleading _).mpr ⟨_, rfl, hfound⟩) hbegins hscan htrailing).mpr ⟨_, rfl, hbehind.spelled⟩

/-- The leading trivia that a source ends in runs on over the line feed into the next source. -/
theorem leadingLength_append_newline {n : Nat} (hskip : skip ≤ a.length)
    (hleading : Trivia.leadingLength (a.drop skip) = .ok n) (hends : a.drop (skip + n) = []) (m : Nat) :
    Trivia.leadingLength (((a ++ ['\n']) ++ b).drop skip) = .ok m ↔
      ∃ j, m = (a ++ ['\n']).length - skip + j ∧ Trivia.leadingLength b = .ok j := by
  have hline : Trivia.piece? true '\n' b = .ok (some 0) := rfl
  have hends' : (a.drop skip).drop n = [] := by rw [List.drop_drop, hends]
  have hrest : ((a ++ ['\n']) ++ b).drop skip = a.drop skip ++ '\n' :: b := by
    rw [List.append_assoc, List.drop_append_of_le_length hskip, List.singleton_append]
  have hlength : Trivia.lengthFrom true 0 (a.drop skip) = .ok (0 + n) := by
    rw [Nat.zero_add]
    exact hleading
  have hlong : 0 + (a.drop skip).length + 0 + 1 = (a ++ ['\n']).length - skip := by
    rw [List.length_drop, List.length_append, List.length_singleton]
    omega
  rw [hrest, Trivia.leadingLength, Trivia.lengthFrom_append_of_ends (Text.endsLine_cons b) hlength hends',
    Trivia.lengthFrom, hline]
  dsimp only
  rw [List.drop_zero, hlong]
  exact Trivia.lengthFrom_add (n := 0) _

/-- A source in front of a line feed keeps its tokens, and the next source has its own. -/
theorem Streams.spelled_append_newline (hstreams : Streams limit skip p a tokens) (hskip : skip ≤ a.length) :
    Spelled limit skip (a ++ '\n' :: b) words ↔
      ∃ more, words = tokens.dropLast.map spelling ++ more ∧ Spelled limit 0 b more := by
  induction hstreams generalizing words with
  | @last skip n p a hleading hends =>
      have hjoined : a ++ '\n' :: b = (a ++ ['\n']) ++ b := by simp
      have hfront := leadingLength_append_newline (b := b) hskip hleading hends
      rw [hjoined, spelled_append_of_leading (by rw [List.length_append]; omega) hfront]
      simp
  | @more skip n k m p a rest c kind tokens hleading hbegins hscan htrailing hbehind ih =>
      have htail := Text.endsLine_cons b
      have hlong := (Lexeme.scanned_of_scan hscan).le_length
      have hleading' : Trivia.leadingLength ((a ++ '\n' :: b).drop skip) = .ok n := by
        have hlength : Trivia.lengthFrom true 0 (a.drop skip) = .ok (0 + n) := by
          rw [Nat.zero_add]
          exact hleading
        have hsame := Trivia.lengthFrom_append_of_begins htail hlength (by rw [List.drop_drop, hbegins])
        rw [List.drop_append_of_le_length hskip]
        rwa [Nat.zero_add] at hsame
      have hbegins' : (a ++ '\n' :: b).drop (skip + n) = c :: (rest ++ '\n' :: b) := by
        have hshort : skip + n ≤ a.length := by
          by_contra hlt
          rw [List.drop_eq_nil_of_le (by omega)] at hbegins
          cases hbegins
        rw [List.drop_append_of_le_length hshort, hbegins, List.cons_append]
      have htrailing' : Trivia.trailingLength ((rest ++ '\n' :: b).drop k) = .ok m := by
        rw [List.drop_append_of_le_length hlong]
        exact Trivia.lengthFrom_false_append htail htrailing
      have hm : k + m ≤ rest.length := by
        have hle := Trivia.lengthFrom_le htrailing
        rw [List.length_drop] at hle
        omega
      rw [spelled_of_begins hleading' hbegins' (Lexeme.scan_append htail hscan) htrailing',
        List.take_append_of_le_length hlong, List.drop_append_of_le_length hm]
      have hmore : tokens ≠ [] := by cases hbehind <;> simp
      simp only [ih (Nat.zero_le _), List.dropLast_cons_of_ne_nil hmore, List.map_cons, List.cons_append]
      constructor
      · rintro ⟨_, rfl, more, rfl, hspelled⟩
        exact ⟨more, rfl, hspelled⟩
      · rintro ⟨more, rfl, hspelled⟩
        exact ⟨_, rfl, more, rfl, hspelled⟩

/-- Two sources joined at a line feed are cut as each is by itself. -/
theorem spelled_joined (hstream : stream limit a = .ok tokens) (hb : b.head? ≠ some byteOrderMark) :
    (∃ all, stream limit (a ++ '\n' :: b) = .ok all ∧ all.map spelling = words) ↔
      ∃ more, stream limit b = .ok more ∧ words = tokens.dropLast.map spelling ++ more.map spelling := by
  have hmark : markLength (a ++ '\n' :: b) = markLength a := by
    cases a <;> rfl
  have hmark' : markLength b = 0 := by
    rw [markLength, if_neg]
    simpa using hb
  have hskip : markLength a ≤ a.length := by
    cases a with
    | nil => exact Nat.le_refl 0
    | cons c rest =>
        rw [markLength, List.length_cons]
        split <;> omega
  have hstreams := stream_eq_ok_iff.mp hstream
  simp only [stream_eq_ok_iff, hmark, hmark']
  rw [← spelled_iff, hstreams.spelled_append_newline hskip]
  constructor
  · rintro ⟨more, rfl, hspelled⟩
    obtain ⟨tokens', hmore, rfl⟩ := hspelled .start
    exact ⟨tokens', hmore, rfl⟩
  · rintro ⟨tokens', hmore, rfl⟩
    exact ⟨_, rfl, hmore.spelled⟩

/-- Lexing is compositional over line breaks. -/
theorem stream_append_newline (ha : stream limit a = .ok tokens) (hb : b.head? ≠ some byteOrderMark) :
    ((∃ all, stream limit (a ++ '\n' :: b) = .ok all) ↔ ∃ more, stream limit b = .ok more) ∧
      ∀ all more, stream limit (a ++ '\n' :: b) = .ok all → stream limit b = .ok more →
        all.map spelling = tokens.dropLast.map spelling ++ more.map spelling := by
  refine ⟨⟨?_, ?_⟩, ?_⟩
  · rintro ⟨all, hall⟩
    obtain ⟨more, hmore, -⟩ := (spelled_joined ha hb).mp ⟨all, hall, rfl⟩
    exact ⟨more, hmore⟩
  · rintro ⟨more, hmore⟩
    obtain ⟨all, hall, -⟩ := (spelled_joined ha hb).mpr ⟨more, hmore, rfl⟩
    exact ⟨all, hall⟩
  · intro all more hall hmore
    obtain ⟨more', hmore', hspelling⟩ := (spelled_joined ha hb).mp ⟨all, hall, rfl⟩
    obtain rfl := Except.ok.inj (hmore.symm.trans hmore')
    exact hspelling

/-- A backquote and an exponent that the first source leaves open stay open, though the second source would go on. -/
theorem stream_append_newline_open :
    ∃ all, stream 1 "\x60a 1e\n5\x60 // b".toList = .ok all ∧
      all.map spelling = [(.backquote, ['\x60']), (.identifier, ['a']), (.number, ['1']), (.identifier, ['e']),
        (.number, ['5']), (.backquote, ['\x60']), (.endOfFile, [])] := by
  have hfirst : (stream 1 "\x60a 1e".toList).toOption.any (fun tokens => tokens.dropLast.map spelling ==
      [(.backquote, ['\x60']), (.identifier, ['a']), (.number, ['1']), (.identifier, ['e'])]) = true := by decide +kernel
  have hsecond : (stream 1 "5\x60 // b".toList).toOption.any (fun tokens => tokens.map spelling ==
      [(.number, ['5']), (.backquote, ['\x60']), (.endOfFile, [])]) = true := by decide +kernel
  obtain ⟨tokens, ha, htokens⟩ := exists_eq_ok_of_any hfirst
  obtain ⟨more, hmore, hspelled⟩ := exists_eq_ok_of_any hsecond
  obtain ⟨hiff, hspelling⟩ := stream_append_newline ha (b := "5\x60 // b".toList) (by decide)
  obtain ⟨all, hall⟩ := hiff.mpr ⟨more, hmore⟩
  refine ⟨all, hall, ?_⟩
  rw [hspelling all more hall hmore, beq_iff_eq.mp htokens, beq_iff_eq.mp hspelled]
  rfl

end Token

end SwiftObservation
