import SwiftObservation.Proofs.Grammar.Lossless
import SwiftObservation.Proofs.Token.Comments

/-!
# Where trivia is attached

Between two lexemes stands trivia, and the lexer divides it: the first token keeps what stands on its line, and the next
one takes the rest. `Attachment` says what this comes to. Each half is trivia also when it is read alone; the half that
trails a token has line breaks only inside of block comments, and the half that leads the next token is empty or begins
with a line break. `Text.breaksLine` asks for a line break outside of block comments, and the division makes it easy to
answer: a token starts a line just when such a line break stands in front of it, wherever the trivia was divided. A line
break inside of a block comment goes unnoticed when the comment trails the token before.
-/

namespace SwiftObservation

/-! ### Line breaks outside of block comments -/

namespace Place

def isInBlock : Place → Bool
  | block _ | blockSlash _ | blockStar _ => true
  | _ => false

/-- A line breaks outside of block comments in the text that a reader of comments goes through from the place on. -/
def breaks : Place → Text → Bool
  | _, [] => false
  | p, c :: rest => !p.isInBlock && Text.isLineBreak c || breaks (p.next c) rest

variable {p : Place} {outer : Nat}

theorem breaks_append (p : Place) (a b : Text) : breaks p (a ++ b) = (breaks p a || breaks (a.foldl next p) b) := by
  induction a generalizing p with
  | nil => rfl
  | cons c rest ih => rw [List.cons_append, breaks, breaks, ih, Bool.or_assoc, List.foldl_cons]

theorem isInBlock_inBlock (outer : Nat) (c : Char) : (inBlock outer c).isInBlock = true := by
  unfold inBlock
  repeat' split
  all_goals rfl

theorem breaks_line_of_plain {s : Text} (hs : ∀ c ∈ s, Text.isLineBreak c = false) : breaks line s = false := by
  induction s with
  | nil => rfl
  | cons c rest ih =>
      obtain ⟨hc, hrest⟩ := List.forall_mem_cons.mp hs
      simpa [breaks, next, hc] using ih hrest

/-- Outside of block comments a line break at the front is one that breaks the line. -/
theorem breaks_of_startsWith {s : Text} (hp : p.isInBlock = false) (hs : s.startsWith Text.isLineBreak = true) :
    breaks p s = true := by
  cases s with
  | nil => cases hs
  | cons c rest =>
      have hc : Text.isLineBreak c = true := hs
      rw [breaks, hp, hc]
      rfl

end Place

namespace Text

/-- A line breaks in the text outside of block comments. -/
def breaksLine (s : Text) : Bool := Place.code.breaks s

/-- The text ends inside of a block comment. -/
def endsInBlockComment (s : Text) : Bool := (s.foldl Place.next .code).isInBlock

theorem hasLineBreak_of_startsWith {s : Text} (hs : s.startsWith isLineBreak = true) : s.hasLineBreak = true := by
  cases s with
  | nil => cases hs
  | cons c rest =>
      have hc : isLineBreak c = true := hs
      simp [hasLineBreak, hc]

theorem startsWith_drop_runLength (p : Char → Bool) (s : Text) : startsWith p (s.drop (runLength p s)) = false := by
  induction s with
  | nil => rfl
  | cons c rest ih =>
      cases hc : p c with
      | true => simpa [runLength, hc] using ih
      | false => simp [runLength, startsWith, hc]

theorem startsWith_take {p : Char → Bool} {s : Text} (hs : startsWith p s = false) (n : Nat) :
    startsWith p (s.take n) = false := by
  cases n with
  | zero => rfl
  | succ n =>
      cases s with
      | nil => rfl
      | cons c rest => exact hs

/-- A run that ends within a text ends there also when the text is cut off behind it. -/
theorem runLength_take_add (p : Char → Bool) (s : Text) (n : Nat) :
    runLength p (s.take (runLength p s + n)) = runLength p s := by
  rw [List.take_add]
  exact runLength_take_append (startsWith_take (startsWith_drop_runLength p s) n)

end Text

/-! ### Scanned trivia -/

namespace Trivia

variable {acrossLines : Bool} {c : Char} {n m k : Nat} {s a rest : Text}

/-- A piece of trivia opens the text. -/
def opens (s : Text) : Bool :=
  s.startsWith (fun c => isInlineSpace c || Text.isLineBreak c) || ['/', '/'].isPrefixOf s || ['/', '*'].isPrefixOf s

theorem opens_eq_false (hpiece : piece? true c rest = .ok none) : opens (c :: rest) = false := by
  unfold piece? at hpiece
  repeat' split at hpiece
  all_goals simp only [reduceCtorEq, Except.ok.injEq] at hpiece
  next hspace hline hblock =>
    have hblank : Text.startsWith (fun c => isInlineSpace c || Text.isLineBreak c) (c :: rest) = false := by
      simpa [Text.startsWith] using hspace
    have hmark (d : Char) (hd : ¬ (c == '/' && rest.head? == some d) = true) : ['/', d].isPrefixOf (c :: rest) = false := by
      rw [← Bool.not_eq_true, List.isPrefixOf_iff_prefix]
      rintro ⟨more, hmore⟩
      obtain ⟨rfl, rfl⟩ := List.cons.inj hmore
      simp at hd
    rw [opens, hblank, hmark '/' hline, hmark '*' hblock]
    rfl

/-- Where no piece of trivia begins, none begins when the text is cut off. -/
theorem opens_take_eq_false (hpiece : piece? true c rest = .ok none) (n : Nat) : opens (c :: rest.take n) = false := by
  have hnone := piece?_take_append (n := n) Text.endsLine_nil hpiece
  rw [List.append_nil] at hnone
  exact opens_eq_false hnone

/-- A piece of trivia is found in a text also when the text is cut off behind it. -/
theorem piece?_take (hpiece : piece? acrossLines c rest = .ok (some k)) (m : Nat) :
    piece? true c (rest.take (k + m)) = .ok (some k) := by
  rw [piece?_eq_some_iff] at hpiece ⊢
  cases hpiece with
  | blank hspace =>
      apply Piece.blank
      cases acrossLines <;> simp_all
  | @line more =>
      have hsame := Text.runLength_take_add (!Text.isLineBreak ·) ('/' :: more) m
      obtain ⟨j, hj⟩ : ∃ j, Text.runLength (!Text.isLineBreak ·) ('/' :: more) = j + 1 := ⟨_, rfl⟩
      rw [hj, Nat.add_right_comm, List.take_succ_cons] at hsame ⊢
      rw [← hsame]
      exact .line
  | @block more k hclosed =>
      have hsame := blockCommentFrom_take_append (k := k + m) Text.endsLine_nil hclosed (by omega)
      rw [List.append_nil] at hsame
      rw [Nat.add_right_comm, List.take_succ_cons]
      exact .block hsame

/-- Trivia is trivia also when the text is cut off behind it. -/
theorem lengthFrom_take (hlength : lengthFrom acrossLines n s = .ok (n + m)) :
    lengthFrom true n (s.take m) = .ok (n + m) := by
  fun_induction lengthFrom acrossLines n s generalizing m with
  | case1 n =>
      rw [List.take_nil, lengthFrom]
      exact hlength
  | case2 => cases hlength
  | case3 n c rest hpiece =>
      obtain rfl : m = 0 := by simpa using hlength
      rw [List.take_zero, lengthFrom]
      rfl
  | case4 n c rest k hpiece ih =>
      have hle := le_of_lengthFrom hlength
      obtain ⟨m, rfl⟩ : ∃ j, m = k + j + 1 := ⟨m - (k + 1), by omega⟩
      have hsum : n + (k + m + 1) = n + k + 1 + m := by omega
      rw [hsum] at hlength ⊢
      rw [List.take_succ_cons, lengthFrom, piece?_take hpiece m]
      dsimp only
      rw [List.drop_take, Nat.add_sub_cancel_left]
      exact ih hlength

theorem CommentBody.breaks {outer : Nat} (hs : CommentBody outer s) : Place.breaks (.block outer) s = false := by
  induction hs with
  | ends => rfl
  | leaves _ ih | enters _ ih => exact ih
  | @plain outer c d rest hopens hends _ ih =>
      change Place.breaks (.inBlock outer c) (d :: rest) = false
      rw [Place.breaks, Place.isInBlock_inBlock, Place.next_inBlock hopens hends]
      exact ih

/-- A piece of trivia on the line of a token has line breaks only inside of block comments. -/
theorem breaksLine_of_piece? (hpiece : piece? false c rest = .ok (some k)) :
    Text.breaksLine ((c :: rest).take (k + 1)) = false := by
  cases piece?_eq_some_iff.mp hpiece with
  | blank hspace =>
      have hbreak : Text.isLineBreak c = false := by
        rw [Bool.eq_false_iff]
        intro hbreak
        have hline : c = '\n' ∨ c = '\r' := by simpa [Text.isLineBreak] using hbreak
        rcases hline with rfl | rfl <;> cases hspace
      simp [Text.breaksLine, Place.breaks, hbreak]
  | line =>
      rw [List.take_succ_cons, Text.take_runLength]
      exact Place.breaks_line_of_plain fun d hd => by simpa using List.mem_takeWhile_imp hd
  | block hclosed => exact (commentBody_of_blockCommentFrom hclosed 0 rfl).breaks

theorem EndsAt.isInBlock {rest : Text} (hs : EndsAt s rest) : (s.foldl Place.next .code).isInBlock = false := by
  rcases hs with hclosed | ⟨hopen, -⟩
  · rw [Place.foldl_of_walk hclosed]
    rfl
  · rw [Place.foldl_of_walk hopen]
    rfl

/-- Behind a line comment no more trivia can follow without a line break. -/
theorem EndsAt.breaksLine_append (ha : EndsAt a s) (hline : a.breaksLine = false)
    (hmore : Text.breaksLine (s.take n) = false) : Text.breaksLine (a ++ s.take n) = false := by
  rw [Text.breaksLine, Place.breaks_append, Bool.or_eq_false_iff]
  refine ⟨hline, ?_⟩
  rcases ha with hclosed | ⟨hopen, hstops⟩
  · rw [Place.foldl_of_walk hclosed]
    exact hmore
  cases hnext : s.take n with
  | nil => rfl
  | cons c rest =>
      have hstarts : Text.startsWith Text.isLineBreak (c :: rest) = true := by
        rw [← List.take_append_drop n s, hnext] at hstops
        exact hstops c rfl
      have hbreaks : Text.breaksLine (c :: rest) = true := Place.breaks_of_startsWith rfl hstarts
      rw [hnext, hbreaks] at hmore
      cases hmore

theorem breaksLine_of_lengthFrom (hlength : lengthFrom false n s = .ok (n + m)) : Text.breaksLine (s.take m) = false := by
  fun_induction lengthFrom false n s generalizing m with
  | case1 n =>
      rw [List.take_nil]
      rfl
  | case2 => cases hlength
  | case3 n c rest hpiece =>
      obtain rfl : m = 0 := by simpa using hlength
      rfl
  | case4 n c rest k hpiece ih =>
      have hle := le_of_lengthFrom hlength
      obtain ⟨m, rfl⟩ : ∃ j, m = k + 1 + j := ⟨m - (k + 1), by omega⟩
      have hmore : Text.breaksLine ((rest.drop k).take m) = false := ih (by rw [hlength, Except.ok.injEq]; omega)
      have htake : (c :: rest).take (k + 1 + m) = (c :: rest).take (k + 1) ++ (rest.drop k).take m := List.take_add
      rw [htake]
      exact (endsAt_of_piece? hpiece).breaksLine_append (breaksLine_of_piece? hpiece) hmore

end Trivia

/-! ### Trivia by itself -/

namespace Token

variable {limit skip n : Nat} {p : Position} {s source : Text} {tokens front back : List Token} {t u : Token}

/-- Read by itself, the text has no tokens but the end of the file. -/
def IsTrivia (limit : Nat) (s : Text) : Prop := ∃ ending, stream limit s = .ok [ending] ∧ ending.kind = .endOfFile

/-- No trivia begins with a byte order mark but the one of the source. -/
theorem markLength_take {acrossLines : Bool} (hskip : skip ≤ markLength s)
    (hlength : Trivia.lengthFrom acrossLines 0 (s.drop skip) = .ok n) : markLength (s.take (skip + n)) = skip := by
  cases s with
  | nil =>
      rw [List.take_nil]
      exact (Nat.le_zero.mp hskip).symm
  | cons c rest =>
      by_cases hc : c = byteOrderMark
      · subst hc
        have hle : skip ≤ 1 := hskip
        obtain rfl | rfl : skip = 0 ∨ skip = 1 := by omega
        · have hnone : Trivia.piece? acrossLines byteOrderMark rest = .ok none := by cases acrossLines <;> rfl
          rw [List.drop_zero, Trivia.lengthFrom, hnone] at hlength
          obtain rfl := Except.ok.inj hlength
          rfl
        · rw [Nat.add_comm, List.take_succ_cons]
          rfl
      · have hmark (more : Text) : markLength (c :: more) = 0 := by simp [markLength, hc]
        obtain rfl : skip = 0 := Nat.le_zero.mp (hmark rest ▸ hskip)
        cases n with
        | zero => rfl
        | succ n =>
            rw [Nat.zero_add, List.take_succ_cons]
            exact hmark _

theorem isTrivia_take {acrossLines : Bool} (hskip : skip ≤ markLength s)
    (hlength : Trivia.lengthFrom acrossLines 0 (s.drop skip) = .ok n) : IsTrivia limit (s.take (skip + n)) := by
  refine ⟨_, stream_eq_ok_iff.mpr (.last (n := n) ?_ ?_), rfl⟩
  · rw [markLength_take hskip hlength, List.drop_take, Nat.add_sub_cancel_left, Trivia.leadingLength]
    have hsame := Trivia.lengthFrom_take (m := n) (by rw [Nat.zero_add]; exact hlength)
    rwa [Nat.zero_add] at hsame
  · rw [markLength_take hskip hlength]
    exact List.drop_eq_nil_of_le (List.length_take_le _ _)

/-! ### The trivia of one token -/

/-- What holds of the trivia and the text of a token, each taken by itself. -/
structure Enclosed (limit : Nat) (t : Token) : Prop where
  leading_trivia : IsTrivia limit t.leading
  trailing_trivia : IsTrivia limit t.trailing
  trailing_inline : t.trailing.breaksLine = false ∧ t.trailing.endsInBlockComment = false
  text_begins : t.kind ≠ .endOfFile → Trivia.opens t.text = false

theorem isTrivia_nil : IsTrivia limit [] := by
  have hnone : Trivia.lengthFrom true 0 [] = .ok 0 := by rw [Trivia.lengthFrom]
  exact isTrivia_take (s := []) (Nat.zero_le 0) hnone

theorem Streams.enclosed (hstreams : Streams limit skip p s tokens) (hskip : skip ≤ markLength s) :
    ∀ t ∈ tokens, Enclosed limit t := by
  induction hstreams with
  | last hleading =>
      rw [List.forall_mem_singleton]
      exact ⟨isTrivia_take hskip hleading, isTrivia_nil, ⟨rfl, rfl⟩, fun hkind => absurd rfl hkind⟩
  | @more skip n k m p s rest c kind tokens hleading hbegins _ htrailing _ ih =>
      rw [List.forall_mem_cons]
      refine ⟨⟨isTrivia_take hskip hleading, ?_, ⟨?_, ?_⟩, fun _ => ?_⟩, ih (Nat.zero_le _)⟩
      · have htrivia : IsTrivia limit ((rest.drop k).take (0 + m)) := isTrivia_take (Nat.zero_le _) htrailing
        rwa [Nat.zero_add] at htrivia
      · exact Trivia.breaksLine_of_lengthFrom (by rw [Nat.zero_add]; exact htrailing)
      · exact (Trivia.endsAt_of_trailingLength htrailing).isInBlock
      · exact Trivia.opens_take_eq_false (Trivia.piece?_of_leadingLength hleading hbegins) k

/-! ### The trivia between two tokens -/

theorem Streams.textOf_eq (hstreams : Streams limit skip p s tokens) : textOf tokens = s := by
  obtain ⟨cutOff, hcutOff, _, _, _, _, _, htext⟩ := streamFrom_covers (streamFrom_of_streams hstreams [])
  rw [show tokens = cutOff by simpa using hcutOff]
  exact htext

theorem Streams.leading_eq (hstreams : Streams limit skip p s (u :: back)) :
    ∃ n, Trivia.leadingLength (s.drop skip) = .ok n ∧ u.leading = s.take (skip + n) := by
  cases hstreams with
  | last hleading | more hleading => exact ⟨_, hleading, rfl⟩

/-- What the lexer did between two tokens: the gap is the text behind the first one. -/
theorem Streams.between (hstreams : Streams limit skip p s tokens) (hsplit : tokens = front ++ t :: u :: back) :
    ∃ gap m n, Trivia.trailingLength gap = .ok m ∧ Trivia.leadingLength (gap.drop m) = .ok n ∧
      t.trailing = gap.take m ∧ u.leading = (gap.drop m).take n ∧ textOf (u :: back) = gap.drop m := by
  induction front generalizing skip p s tokens with
  | nil =>
      cases hstreams with
      | last => simp at hsplit
      | @more _ _ k m _ _ rest _ _ _ _ _ _ htrailing hbehind =>
          obtain ⟨rfl, rfl⟩ := List.cons.inj hsplit
          rw [← List.drop_drop] at hbehind
          obtain ⟨n, hleading, htaken⟩ := hbehind.leading_eq
          rw [List.drop_zero] at hleading
          rw [Nat.zero_add] at htaken
          exact ⟨rest.drop k, m, n, htrailing, hleading, rfl, htaken, hbehind.textOf_eq⟩
  | cons first front ih =>
      cases hstreams with
      | last => simp at hsplit
      | more _ _ _ _ hbehind => exact ih hbehind (List.cons.inj hsplit).2

/-- The trivia between two tokens is divided where the line of the first one ends. -/
theorem Streams.divided (hstreams : Streams limit skip p s tokens) (hsplit : tokens = front ++ t :: u :: back) :
    Lead.fresh.Admits u.leading ∧
      (Trivia.Closed t.trailing ∨ Lead.broken.Admits u.leading ∨ textOf (u :: back) = []) := by
  obtain ⟨gap, m, n, htrailing, hleading, htaken, htaken', htext⟩ := hstreams.between hsplit
  rw [htaken, htaken', htext]
  refine ⟨Trivia.fresh_of_trailingLength htrailing hleading, ?_⟩
  rcases Trivia.endsAt_of_trailingLength htrailing with hclosed | ⟨-, hstops⟩
  · exact .inl hclosed
  by_cases hends : gap.drop m = []
  · exact .inr (.inr hends)
  · exact .inr (.inl (Trivia.broken_of_leadingLength hstops hleading hends))

/-- Every token but the first has one in front of it. -/
theorem exists_split_of_mem_tail (hu : u ∈ tokens.tail) : ∃ front t back, tokens = front ++ t :: u :: back := by
  obtain ⟨before, back, hback⟩ := List.append_of_mem hu
  cases tokens with
  | nil => cases hu
  | cons first rest =>
      rcases List.eq_nil_or_concat' (first :: before) with hnil | ⟨front, t, hfront⟩
      · cases hnil
      · refine ⟨front, t, back, ?_⟩
        rw [List.append_cons, ← hfront, List.cons_append, ← hback]
        rfl

/-- How the trivia of a source is divided among its tokens. -/
structure Attachment (limit : Nat) (source : Text) (tokens : List Token) : Prop where
  enclosed : ∀ t ∈ tokens, Enclosed limit t
  leading_fresh : ∀ t ∈ tokens.tail, t.leading = [] ∨ t.leading.startsWith Text.isLineBreak = true
  /-- A line comment behind a token ends in front of a line break, or with the source. -/
  comment_ends : ∀ front t u back, tokens = front ++ t :: u :: back → t.trailing.endsInLineComment = true →
    u.leading.startsWith Text.isLineBreak = true ∨ source = textOf (front ++ [t])

/-- The lexer attaches trivia to the line that it stands on. -/
theorem attachment_of_stream (hstream : stream limit source = .ok tokens) : Attachment limit source tokens := by
  have hstreams := stream_eq_ok_iff.mp hstream
  refine ⟨hstreams.enclosed le_rfl, ?_, ?_⟩
  · intro u hu
    obtain ⟨front, t, back, hsplit⟩ := exists_split_of_mem_tail hu
    exact (hstreams.divided hsplit).1
  · intro front t u back hsplit hcomment
    rcases (hstreams.divided hsplit).2 with hclosed | hbroken | hends
    · rw [hclosed.endsInLineComment] at hcomment
      cases hcomment
    · exact .inl hbroken
    · right
      rw [← hstreams.textOf_eq, hsplit, List.append_cons, textOf_append, hends, List.append_nil]

/-- A byte order mark, block comments over two lines and line comments, the last one at the end of the source. -/
theorem attachment_of_stream_comments :
    ∃ tokens, stream 1 "\ufeff/* a\n*/ f /*\n*/ // b\r\n (x) // c".toList = .ok tokens ∧
      tokens.map (fun t => (t.leading, t.trailing)) = [("\ufeff/* a\n*/ ".toList, " /*\n*/ // b".toList),
        ("\r\n ".toList, []), ([], []), ([], " // c".toList), ([], [])] ∧
      Attachment 1 "\ufeff/* a\n*/ f /*\n*/ // b\r\n (x) // c".toList tokens := by
  have hany : (stream 1 "\ufeff/* a\n*/ f /*\n*/ // b\r\n (x) // c".toList).toOption.any (fun tokens =>
      tokens.map (fun t => (t.leading, t.trailing)) == [("\ufeff/* a\n*/ ".toList, " /*\n*/ // b".toList),
        ("\r\n ".toList, []), ([], []), ([], " // c".toList), ([], [])]) = true := by decide +kernel
  obtain ⟨tokens, hstream, htrivia⟩ := exists_eq_ok_of_any hany
  exact ⟨tokens, hstream, beq_iff_eq.mp htrivia, attachment_of_stream hstream⟩

/-! ### Tokens that start a line -/

/-- A token starts a line just when a line breaks in front of it outside of block comments. -/
theorem startsLine_eq_breaksLine (hstream : stream limit source = .ok (front ++ t :: u :: back)) :
    source = textOf front ++ (t.leading ++ t.text) ++ (t.trailing ++ u.leading) ++ (u.text ++ u.trailing) ++ textOf back ∧
      u.startsLine = (t.trailing ++ u.leading).breaksLine := by
  have hstreams := stream_eq_ok_iff.mp hstream
  constructor
  · rw [← hstreams.textOf_eq]
    simp [fullText]
  obtain ⟨hline, hblock⟩ := (hstreams.enclosed le_rfl t (by simp)).trailing_inline
  rw [Text.breaksLine, Place.breaks_append, startsLine]
  rw [Text.breaksLine] at hline
  rw [hline, Bool.false_or]
  rcases (hstreams.divided rfl).1 with hnone | hstarts
  · rw [hnone]
    rfl
  · rw [Place.breaks_of_startsWith hblock hstarts, Text.hasLineBreak_of_startsWith hstarts]

/-- The line breaks behind both comments, and in the first one as well. -/
theorem startsLine_eq_breaksLine_comments :
    ∃ t u back, stream 1 "f /*\n*/ // a\r(x)".toList = .ok (t :: u :: back) ∧ t.trailing = " /*\n*/ // a".toList ∧
      u.startsLine = true ∧ (t.trailing ++ u.leading).breaksLine = true := by
  have hany : (stream 1 "f /*\n*/ // a\r(x)".toList).toOption.any (fun tokens =>
      tokens.map (fun t => (t.trailing, t.startsLine)) ==
        [(" /*\n*/ // a".toList, false), ([], true), ([], false), ([], false), ([], false)]) = true := by decide +kernel
  obtain ⟨tokens, hstream, htokens⟩ := exists_eq_ok_of_any hany
  obtain ⟨t, rest, rfl, ht, hrest⟩ := List.map_eq_cons_iff.mp (beq_iff_eq.mp htokens)
  obtain ⟨u, back, rfl, hu, -⟩ := List.map_eq_cons_iff.mp hrest
  have hsplit : stream 1 "f /*\n*/ // a\r(x)".toList = .ok ([] ++ t :: u :: back) := hstream
  have hstarts : u.startsLine = true := (Prod.mk.inj hu).2
  exact ⟨t, u, back, hstream, (Prod.mk.inj ht).1, hstarts, (startsLine_eq_breaksLine hsplit).2.symm.trans hstarts⟩

/-- A line break in a block comment behind a token stands between the token and the next one, which starts no line. -/
theorem exists_unnoticed_lineBreak :
    ∃ t u back, stream 1 "f /*\n*/ (x)\n".toList = .ok (t :: u :: back) ∧
      (t.trailing ++ u.leading).hasLineBreak = true ∧ u.startsLine = false := by
  have hany : (stream 1 "f /*\n*/ (x)\n".toList).toOption.any (fun tokens =>
      tokens.map (fun t => (t.leading, t.trailing)) ==
        [([], " /*\n*/ ".toList), ([], []), ([], []), ([], []), (['\n'], [])]) = true := by decide +kernel
  obtain ⟨tokens, hstream, htokens⟩ := exists_eq_ok_of_any hany
  obtain ⟨t, rest, rfl, ht, hrest⟩ := List.map_eq_cons_iff.mp (beq_iff_eq.mp htokens)
  obtain ⟨u, back, rfl, hu, -⟩ := List.map_eq_cons_iff.mp hrest
  refine ⟨t, u, back, hstream, ?_, ?_⟩
  · rw [(Prod.mk.inj ht).2, (Prod.mk.inj hu).1]
    decide
  · rw [startsLine, (Prod.mk.inj hu).1]
    rfl

end Token

end SwiftObservation
