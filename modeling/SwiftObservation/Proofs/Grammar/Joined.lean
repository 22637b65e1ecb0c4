import SwiftObservation.Proofs.Grammar.Lossless
import SwiftObservation.Proofs.Token.Course

/-!
# The text of a token tells the token

A token of a source is found again when its text stands alone on a line, and so is every piece that the grammar cuts off
an operator: what is left behind an angle bracket is the operator that the lexer reads there, since an operator with an
angle bracket in front has no dots and does not run into a comment. Any tokens written one to a line are therefore read
back as they are.
-/

namespace SwiftObservation

/-- The text is one lexeme of the kind wherever nothing of the line follows it. -/
def Lexeme.StandsAlone (limit : Nat) (kind : TokenKind) (text : Text) : Prop :=
  ∃ c rest, text = c :: rest ∧ ∀ tail : Text, tail.EndsLine →
    Trivia.piece? true c (rest ++ tail) = .ok none ∧ Lexeme.scan limit c (rest ++ tail) = .ok (kind, rest.length)

/-! ### Tokens of a source -/

namespace Token

variable {limit skip : Nat} {p : Position} {s : Text} {tokens : List Token}

theorem Streams.standsAlone (hstreams : Streams limit skip p s tokens) :
    ∀ t ∈ tokens, t.kind ≠ .endOfFile → Lexeme.StandsAlone limit t.kind t.text := by
  induction hstreams with
  | last => simp
  | @more skip n k m p s rest c kind tokens hleading hbegins hscan htrailing _ ih =>
      rw [List.forall_mem_cons]
      refine ⟨fun _ => ⟨c, rest.take k, rfl, fun tail htail => ?_⟩, ih⟩
      have hpiece := Trivia.piece?_of_leadingLength hleading hbegins
      have hlong : (rest.take k).length = k := by
        have hle := (Lexeme.scanned_of_scan hscan).le_length
        rw [List.length_take]
        omega
      rw [hlong]
      exact ⟨Trivia.piece?_take_append htail hpiece, Lexeme.scan_take_append htail hscan⟩

end Token

/-! ### Pieces of operators -/

namespace Lexeme

theorem operatorLengthFrom_add (dotted : Bool) (m n : Nat) (s : Text) :
    operatorLengthFrom dotted (m + n) s = m + operatorLengthFrom dotted n s := by
  induction s generalizing n with
  | nil => rfl
  | cons c rest ih =>
      simp only [operatorLengthFrom, Nat.add_assoc, ih]
      split
      · rfl
      · split <;> rfl

variable {limit : Nat} {text : Text}

/-- What scanning an operator character comes to. -/
theorem scan_operatorChar {c : Char} (hc : isOperatorChar c = true) (rest : Text) :
    scan limit c rest = .ok (.ofOperator (c :: rest.take (operatorLengthFrom (c == '.') 0 rest)),
      operatorLengthFrom (c == '.') 0 rest) := by
  simp only [isOperatorChar, Bool.or_eq_true, beq_iff_eq] at hc
  rcases hc with ((((((((((((((rfl | rfl) | rfl) | rfl) | rfl) | rfl) | rfl) | rfl) | rfl) | rfl) | rfl) | rfl) | rfl) |
    rfl) | rfl) <;> rfl

/-- An operator character begins no trivia unless it is the slash of a comment. -/
theorem piece?_operatorChar {c : Char} (hc : isOperatorChar c = true) {rest : Text}
    (hcomment : ¬ (c == '/' && Text.startsWith (fun next => next == '/' || next == '*') rest) = true) :
    Trivia.piece? true c rest = .ok none := by
  have hspace : ¬ (Trivia.isInlineSpace c || (true && Text.isLineBreak c)) = true := by
    intro hspace
    simp only [Trivia.isInlineSpace, Text.isLineBreak, Bool.true_and, Bool.or_eq_true, beq_iff_eq] at hspace
    rcases hspace with (((rfl | rfl) | rfl) | rfl) | (rfl | rfl) <;> exact absurd hc (by decide)
  have hnot : ∀ mark, mark = '/' ∨ mark = '*' → ¬ (c == '/' && rest.head? == some mark) = true := by
    intro mark hmark hfound
    simp only [Bool.and_eq_true, beq_iff_eq] at hfound
    obtain ⟨more, rfl⟩ := List.head?_eq_some_iff.mp hfound.2
    exact hcomment (by simpa [hfound.1, Text.startsWith] using hmark)
  rw [Trivia.piece?, if_neg hspace, if_neg (hnot '/' (.inl rfl)), if_neg (hnot '*' (.inr rfl))]

/-- An angle bracket is an operator by itself. -/
theorem standsAlone_angle {c : Char} (hangle : c = '<' ∨ c = '>') : StandsAlone limit .operator [c] := by
  refine ⟨c, [], rfl, fun tail htail => ?_⟩
  have hnone : ∀ dotted, operatorLengthFrom dotted 0 tail = 0 := by
    intro dotted
    obtain rfl | ⟨rest, rfl⟩ := htail.cases <;> rfl
  rcases hangle with rfl | rfl
  all_goals
    rw [List.nil_append, scan_operatorChar rfl, hnone]
    exact ⟨rfl, rfl⟩

/-- What follows an angle bracket in an operator is an operator by itself. -/
theorem StandsAlone.behind_angle {c : Char} (hangle : c = '<' ∨ c = '>') (hlong : text ≠ [])
    (halone : StandsAlone limit .operator (c :: text)) : StandsAlone limit (.ofOperator text) text := by
  obtain ⟨_, _, hcons, halone⟩ := halone
  obtain ⟨rfl, rfl⟩ := List.cons.inj hcons
  obtain ⟨d, rest, rfl⟩ := List.exists_cons_of_ne_nil hlong
  refine ⟨d, rest, rfl, fun tail htail => ?_⟩
  have hwhole : operatorLengthFrom false 0 (d :: rest ++ tail) = rest.length + 1 := by
    have hscan := (halone tail htail).2
    rw [scan_operatorChar (by rcases hangle with rfl | rfl <;> rfl)] at hscan
    have hdot : (c == '.') = false := by rcases hangle with rfl | rfl <;> rfl
    simpa [hdot] using (Prod.mk.inj (Except.ok.inj hscan)).2
  rw [List.cons_append, operatorLengthFrom] at hwhole
  split at hwhole
  next => omega
  next hrun =>
    split at hwhole
    next => omega
    next hcomment =>
      simp only [Bool.or_eq_true, Bool.not_eq_eq_eq_not, Bool.not_true, Bool.not_false, Bool.and_true, beq_iff_eq,
        not_or, Bool.not_eq_false] at hrun
      have hlength : operatorLengthFrom (d == '.') 0 (rest ++ tail) = rest.length := by
        have hshift := operatorLengthFrom_add false 1 0 (rest ++ tail)
        rw [beq_eq_false_iff_ne.mpr hrun.2]
        rw [Nat.zero_add] at hwhole
        rw [Nat.add_zero] at hshift
        omega
      refine ⟨piece?_operatorChar hrun.1 hcomment, ?_⟩
      rw [scan_operatorChar hrun.1, hlength, List.take_left]

end Lexeme

namespace Grammar

theorem Cuts.standsAlone {limit : Nat} {t : Token} {pieces : List Token} (hcuts : Cuts t pieces)
    (halone : Lexeme.StandsAlone limit t.kind t.text) : ∀ piece ∈ pieces, Lexeme.StandsAlone limit piece.kind piece.text := by
  induction hcuts with
  | whole t => simpa using halone
  | @split t pieces hoperator hlong hangle _ ih =>
      obtain ⟨c, rest, htext⟩ := List.exists_cons_of_length_pos (Nat.lt_of_lt_of_le Nat.two_pos hlong)
      have hc : c = '<' ∨ c = '>' := by simpa [htext] using hangle
      have hrest : rest ≠ [] := by
        rintro rfl
        simp [htext] at hlong
      rw [hoperator, htext] at halone
      have hfirst : Lexeme.StandsAlone limit (Cursor.splitToken t).1.kind (Cursor.splitToken t).1.text := by
        simpa [Cursor.splitToken, hoperator, htext] using Lexeme.standsAlone_angle hc
      have hsecond : Lexeme.StandsAlone limit (Cursor.splitToken t).2.kind (Cursor.splitToken t).2.text := by
        simpa [Cursor.splitToken, htext] using halone.behind_angle hc hrest
      exact List.forall_mem_cons.mpr ⟨hfirst, ih hsecond⟩

end Grammar

/-- Every leaf of a source's tree is found again when its text stands alone on a line. -/
theorem Tree.standsAlone_of_ofSource {limits : Limits} {source : Text} {t : Tree}
    (hread : Tree.ofSource limits source = .ok t) {leaf : Token} (hmem : leaf ∈ t.leaves)
    (hkind : leaf.kind ≠ .endOfFile) : Lexeme.StandsAlone limits.literals leaf.kind leaf.text := by
  obtain ⟨tokens, hstream, hparse⟩ := Tree.ofSource_eq_ok hread
  have hrefines := Grammar.refines_leaves_of_ofTokens hparse
  rw [Token.throughEnd_terminated_of_stream hstream] at hrefines
  obtain ⟨whole, hwhole, pieces, hcuts, hpiece⟩ := hrefines.exists_cuts hmem
  refine hcuts.standsAlone ((Token.stream_eq_ok_iff.mp hstream).standsAlone whole hwhole ?_) leaf hpiece
  -- The end of the file is never cut, so a piece of it is the end of the file.
  intro hwholekind
  obtain rfl | ⟨hoperator, -⟩ := hcuts.eq_or_operator
  · exact hkind (List.mem_singleton.mp hpiece ▸ hwholekind)
  · simp [hwholekind] at hoperator

/-! ### Tokens written one to a line -/

namespace Token

/-- The kind and the text of a token. -/
def spelling (t : Token) : TokenKind × Text := (t.kind, t.text)

variable {limit : Nat}

/-- A text that stands alone, on the first line or on a new one, is one turn of the lexer. -/
theorem exists_streams_cons {kind : TokenKind} {gap text tail : Text} (hgap : gap = [] ∨ gap = ['\n'])
    (halone : Lexeme.StandsAlone limit kind text) (htail : tail.EndsLine) (p : Position) :
    ∃ t q, t.spelling = (kind, text) ∧
      ∀ {tokens}, Streams limit 0 q tail tokens → Streams limit 0 p (gap ++ text ++ tail) (t :: tokens) := by
  obtain ⟨c, rest, rfl, hfound⟩ := halone
  obtain ⟨hpiece, hscan⟩ := hfound tail htail
  have hleading : Trivia.leadingLength ((gap ++ c :: rest ++ tail).drop 0) = .ok gap.length := by
    rcases hgap with rfl | rfl
    · simp [Trivia.leadingLength, Trivia.lengthFrom, hpiece]
    · have hbreak : Trivia.piece? true '\n' (c :: (rest ++ tail)) = .ok (some 0) := rfl
      simp [Trivia.leadingLength, Trivia.lengthFrom, hbreak, hpiece]
  have htrailing : Trivia.trailingLength ((rest ++ tail).drop rest.length) = .ok 0 := by
    rw [List.drop_left]
    obtain rfl | ⟨more, rfl⟩ := htail.cases
    · simp [Trivia.trailingLength, Trivia.lengthFrom]
    · have hstop : Trivia.piece? false '\n' more = .ok none := rfl
      simp [Trivia.trailingLength, Trivia.lengthFrom, hstop]
  refine ⟨_, p.advance (0 + gap.length + (rest.length + 0 + 1)) (gap ++ c :: rest ++ tail), ?_,
    fun hbehind => Streams.more hleading ?_ hscan htrailing ?_⟩
  · simp [spelling]
  · simp
  · simpa using hbehind

theorem endsLine_lines (tokens : List Token) : Text.EndsLine (tokens.flatMap fun t => '\n' :: t.text) := by
  cases tokens with
  | nil => exact Text.endsLine_nil
  | cons t rest => exact Text.endsLine_cons _

/-- Texts that stand alone, each on a new line, are read back as they are. -/
theorem exists_streams_lines {tokens : List Token} (halone : ∀ t ∈ tokens, Lexeme.StandsAlone limit t.kind t.text)
    (p : Position) : ∃ found, Streams limit 0 p (tokens.flatMap fun t => '\n' :: t.text) found ∧
      found.map spelling = tokens.map spelling ++ [(.endOfFile, [])] := by
  induction tokens generalizing p with
  | nil =>
      refine ⟨_, Streams.last (n := 0) ?_ rfl, rfl⟩
      simp [Trivia.leadingLength, Trivia.lengthFrom]
  | cons t rest ih =>
      obtain ⟨first, q, hfirst, hturn⟩ := exists_streams_cons (.inr rfl) (halone t (by simp)) (endsLine_lines rest) p
      obtain ⟨found, hstreams, hfound⟩ := ih (fun u hu => halone u (List.mem_cons_of_mem t hu)) q
      refine ⟨first :: found, ?_, ?_⟩
      · simpa using hturn hstreams
      · rw [List.map_cons, hfirst, hfound]
        rfl

theorem intercalate_cons {t : Token} {rest : List Token} :
    ['\n'].intercalate ((t :: rest).map (·.text)) = t.text ++ rest.flatMap fun u => '\n' :: u.text := by
  induction rest generalizing t with
  | nil => simp
  | cons u more ih =>
      rw [List.map_cons, List.map_cons, List.intercalate_cons_cons, ← List.map_cons, ih]
      simp

/-- The byte order mark is a lexeme by itself. -/
theorem head_ne_byteOrderMark {kind : TokenKind} {text : Text} (halone : Lexeme.StandsAlone limit kind text)
    (hmark : text ≠ [byteOrderMark]) : text.head? ≠ some byteOrderMark := by
  obtain ⟨c, rest, rfl, hfound⟩ := halone
  intro hhead
  obtain rfl : c = byteOrderMark := Option.some.inj hhead
  have hdigit : Text.isDigit byteOrderMark = false := by decide +kernel
  have hname : Lexeme.isNameStart byteOrderMark = false := by decide +kernel
  have hscan : Lexeme.scan limit byteOrderMark (rest ++ []) = .ok (.operator, 0) := by
    simp only [Lexeme.scan, hdigit, hname]
    rfl
  have hlength := (Prod.mk.inj (Except.ok.inj (hscan.symm.trans (hfound [] Text.endsLine_nil).2))).2
  rw [List.length_eq_zero_iff.mp hlength.symm] at hmark
  exact hmark rfl

/-- The text of a token tells the token: tokens taken from any sources that can be read, operators that the grammar has cut
included, are read back in order when their texts stand one to a line. A byte order mark is left out, since it is no
token in front of a text. -/
theorem stream_lines (limits : Limits) (tokens : List Token)
    (hleaf : ∀ t ∈ tokens, t.kind ≠ .endOfFile ∧ t.text ≠ [byteOrderMark] ∧
      ∃ source tree, Tree.ofSource limits source = .ok tree ∧ t ∈ tree.leaves) :
    ∃ found, stream limits.literals (['\n'].intercalate (tokens.map (·.text))) = .ok found ∧
      found.map spelling = tokens.map spelling ++ [(.endOfFile, [])] := by
  have halone : ∀ t ∈ tokens, Lexeme.StandsAlone limits.literals t.kind t.text := by
    intro t ht
    obtain ⟨hkind, -, source, tree, hread, hmem⟩ := hleaf t ht
    exact Tree.standsAlone_of_ofSource hread hmem hkind
  simp only [stream_eq_ok_iff]
  cases tokens with
  | nil =>
      refine ⟨_, Streams.last (n := 0) ?_ rfl, rfl⟩
      simp [markLength, Trivia.leadingLength, Trivia.lengthFrom]
  | cons t rest =>
      have hfirst := halone t (by simp)
      have hmark : markLength (['\n'].intercalate ((t :: rest).map (·.text))) = 0 := by
        have hhead := head_ne_byteOrderMark hfirst (hleaf t (by simp)).2.1
        obtain ⟨c, more, htext, -⟩ := hfirst
        rw [intercalate_cons, markLength, htext, if_neg]
        simpa [htext] using hhead
      obtain ⟨first, q, hspelling, hturn⟩ := exists_streams_cons (.inl rfl) hfirst (endsLine_lines rest) .start
      obtain ⟨found, hstreams, hfound⟩ := exists_streams_lines (fun u hu => halone u (List.mem_cons_of_mem t hu)) q
      refine ⟨first :: found, ?_, ?_⟩
      · rw [hmark, intercalate_cons]
        exact hturn hstreams
      · rw [List.map_cons, hspelling, hfound]
        rfl

/-- The operator that closes two generic argument lists and assigns a value is three tokens on lines of their own. -/
theorem stream_lines_nestedArguments :
    ∃ found, stream 1 "let\nx\n:\nA\n<\nB\n<\nC\n>\n>\n=\n\"a\\(b)\"".toList = .ok found ∧
      found.map spelling = [(.letWord, "let".toList), (.identifier, ['x']), (.colon, [':']), (.identifier, ['A']),
        (.operator, ['<']), (.identifier, ['B']), (.operator, ['<']), (.identifier, ['C']), (.operator, ['>']),
        (.operator, ['>']), (.assign, ['=']), (.string, "\"a\\(b)\"".toList), (.endOfFile, [])] := by
  let limits : Limits := { literals := 1, items := 9, nodes := 0 }
  let spellings : List (TokenKind × Text) := [(.letWord, "let".toList), (.identifier, ['x']), (.colon, [':']),
    (.identifier, ['A']), (.operator, ['<']), (.identifier, ['B']), (.operator, ['<']), (.identifier, ['C']),
    (.operator, ['>']), (.operator, ['>']), (.assign, ['=']), (.string, "\"a\\(b)\"".toList)]
  have hany : (Tree.ofSource limits "let x: A<B<C>>=\"a\\(b)\"".toList).toOption.any (fun tree =>
      tree.leaves.dropLast.map spelling == spellings) = true := by decide +kernel
  obtain ⟨tree, hread, hspelled⟩ := exists_eq_ok_of_any hany
  have hspelled : tree.leaves.dropLast.map spelling = spellings := beq_iff_eq.mp hspelled
  have hproper : ∀ word ∈ spellings, word.1 ≠ .endOfFile ∧ word.2 ≠ [byteOrderMark] := by decide
  obtain ⟨found, hstream, hfound⟩ := stream_lines limits tree.leaves.dropLast fun t ht => by
    have hword := hproper t.spelling (hspelled ▸ List.mem_map_of_mem ht)
    exact ⟨hword.1, hword.2, _, tree, hread, List.mem_of_mem_dropLast ht⟩
  have htexts : tree.leaves.dropLast.map (·.text) = spellings.map (·.2) := by
    rw [← hspelled, List.map_map]
    rfl
  rw [htexts] at hstream
  rw [hspelled] at hfound
  exact ⟨found, hstream, hfound⟩

end Token

end SwiftObservation
