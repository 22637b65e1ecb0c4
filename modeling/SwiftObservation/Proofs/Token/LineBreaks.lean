import SwiftObservation.Proofs.Token.Course

/-!
# Line breaks of one kind

A line ends in a line feed, in a carriage return, or in the two of them. A text is uniform in one of these if it has no
other line breaks. Uniform texts make a uniform text when they are joined, and the parts of a uniform text are uniform
unless the cut goes through a pair. The lexer never cuts there: no lexeme and no trivia behind a token ends in a carriage
return, and no lexeme begins with a line feed. So the tokens of a uniform source are uniform in all of their parts.
-/

namespace SwiftObservation

/-- The ways to end a line. -/
inductive LineBreak where
  | feed
  | pair
  | carriage
deriving DecidableEq, Repr

def LineBreak.text : LineBreak → Text
  | feed => ['\n']
  | pair => ['\r', '\n']
  | carriage => ['\r']

namespace Text

/-- The line breaks of a text in order. -/
def lineBreaks : Text → List LineBreak
  | '\r' :: '\n' :: rest => .pair :: lineBreaks rest
  | '\r' :: rest => .carriage :: lineBreaks rest
  | '\n' :: rest => .feed :: lineBreaks rest
  | _ :: rest => lineBreaks rest
  | [] => []

/-- All line breaks of the text are of the given kind. -/
inductive Uniform (k : LineBreak) : Text → Prop where
  | nil : Uniform k []
  | plain {c : Char} {rest : Text} (inner : isLineBreak c = false) (behind : Uniform k rest) : Uniform k (c :: rest)
  | broken {rest : Text} (behind : Uniform k rest) : Uniform k (k.text ++ rest)

variable {k : LineBreak} {s front behind : Text} {c : Char}

/-- A uniform text has no other characters that break lines. -/
theorem Uniform.not_mem (hs : Uniform k s) (hbreak : isLineBreak c = true) (hother : c ∉ k.text) : c ∉ s := by
  induction hs with
  | nil => exact List.not_mem_nil
  | plain hinner _ ih =>
      rw [List.mem_cons, not_or]
      refine ⟨?_, ih⟩
      rintro rfl
      rw [hinner] at hbreak
      cases hbreak
  | broken _ ih =>
      rw [List.mem_append, not_or]
      exact ⟨hother, ih⟩

theorem lineBreaks_plain (hinner : isLineBreak c = false) (s : Text) : lineBreaks (c :: s) = lineBreaks s := by
  simp only [isLineBreak, Bool.or_eq_false_iff, beq_eq_false_iff_ne] at hinner
  rw [lineBreaks.eq_4]
  · exact fun _ hreturn _ => hinner.2 hreturn
  · exact hinner.2
  · exact hinner.1

theorem lineBreaks_return (hbehind : s.head? ≠ some '\n') : lineBreaks ('\r' :: s) = .carriage :: lineBreaks s := by
  rw [lineBreaks.eq_2]
  rintro rest rfl
  exact hbehind rfl

/-- A text is uniform if its line breaks are all the same. -/
theorem uniform_iff : Uniform k s ↔ ∀ b ∈ s.lineBreaks, b = k := by
  constructor
  · intro hs
    induction hs with
    | nil => simp [lineBreaks]
    | plain hinner _ ih => rwa [lineBreaks_plain hinner]
    | @broken rest hbehind ih =>
        cases k with
        | feed => simpa [LineBreak.text, lineBreaks] using ih
        | pair => simpa [LineBreak.text, lineBreaks] using ih
        | carriage =>
            have hhead : rest.head? ≠ some '\n' :=
              fun hfeed => hbehind.not_mem (by decide) (by decide) (List.mem_of_head? hfeed)
            simpa [LineBreak.text, lineBreaks_return hhead] using ih
  · intro hall
    fun_induction lineBreaks s with
    | case1 rest ih =>
        obtain ⟨rfl, hrest⟩ := List.forall_mem_cons.mp hall
        exact .broken (ih hrest)
    | case2 rest _ ih =>
        obtain ⟨rfl, hrest⟩ := List.forall_mem_cons.mp hall
        exact .broken (ih hrest)
    | case3 rest ih =>
        obtain ⟨rfl, hrest⟩ := List.forall_mem_cons.mp hall
        exact .broken (ih hrest)
    | case4 c rest _ hreturn hfeed ih =>
        refine .plain ?_ (ih hall)
        simpa [isLineBreak] using ⟨hfeed, hreturn⟩
    | case5 => exact .nil

/-! ### Parts of uniform texts -/

theorem Uniform.append (hfront : Uniform k front) (hbehind : Uniform k behind) : Uniform k (front ++ behind) := by
  induction hfront with
  | nil => exact hbehind
  | plain hinner _ ih => exact .plain hinner ih
  | broken _ ih =>
      rw [List.append_assoc]
      exact .broken ih

theorem uniform_of_plain (hs : s.hasLineBreak = false) : Uniform k s := by
  induction s with
  | nil => exact .nil
  | cons c rest ih =>
      obtain ⟨hinner, hrest⟩ := Bool.or_eq_false_iff.mp hs
      exact .plain hinner (ih hrest)

theorem uniform_text (k : LineBreak) : Uniform k k.text := by
  rw [← List.append_nil k.text]
  exact .broken .nil

/-- Only a cut through a pair tears a line break apart. -/
theorem Uniform.split (hs : Uniform k (front ++ behind))
    (hcut : front.getLast? = some '\r' → behind.head? ≠ some '\n') : Uniform k front ∧ Uniform k behind := by
  generalize hwhole : front ++ behind = s at hs
  -- The last character of what is left of the front is that of the front, unless nothing is left.
  have hrest {c : Char} {more : Text} (hcut : (c :: more).getLast? = some '\r' → behind.head? ≠ some '\n') :
      more.getLast? = some '\r' → behind.head? ≠ some '\n' := by
    intro hlast
    apply hcut
    rw [List.getLast?_cons, hlast]
    rfl
  induction hs generalizing front with
  | nil =>
      obtain ⟨rfl, rfl⟩ := List.append_eq_nil_iff.mp hwhole
      exact ⟨.nil, .nil⟩
  | @plain c rest hinner hrests ih =>
      cases front with
      | nil =>
          obtain rfl : behind = c :: rest := hwhole
          exact ⟨.nil, .plain hinner hrests⟩
      | cons d more =>
          obtain ⟨rfl, hmore⟩ := List.cons.inj hwhole
          obtain ⟨hfront, hbehind⟩ := ih (hrest hcut) hmore
          exact ⟨.plain hinner hfront, hbehind⟩
  | @broken rest hrests ih =>
      cases front with
      | nil =>
          obtain rfl : behind = k.text ++ rest := hwhole
          exact ⟨.nil, .broken hrests⟩
      | cons d more =>
          cases k with
          | feed =>
              obtain ⟨rfl, hmore⟩ := List.cons.inj hwhole
              obtain ⟨hfront, hbehind⟩ := ih (hrest hcut) hmore
              exact ⟨.broken hfront, hbehind⟩
          | carriage =>
              obtain ⟨rfl, hmore⟩ := List.cons.inj hwhole
              obtain ⟨hfront, hbehind⟩ := ih (hrest hcut) hmore
              exact ⟨.broken hfront, hbehind⟩
          | pair =>
              obtain ⟨rfl, hmore⟩ := List.cons.inj (show d :: (more ++ behind) = '\r' :: '\n' :: rest from hwhole)
              cases more with
              | nil => exact absurd (by rw [show behind = '\n' :: rest from hmore]; rfl) (hcut rfl)
              | cons d more =>
                  obtain ⟨rfl, hleft⟩ := List.cons.inj (show d :: (more ++ behind) = '\n' :: rest from hmore)
                  obtain ⟨hfront, hbehind⟩ := ih (hrest (hrest hcut)) hleft
                  exact ⟨.broken hfront, hbehind⟩

theorem Uniform.of_cons_plain (hs : Uniform k (c :: s)) (hinner : isLineBreak c = false) : Uniform k s := by
  refine (Uniform.split (show Uniform k ([c] ++ s) from hs) fun hreturn => ?_).2
  obtain rfl : c = '\r' := by simpa using hreturn
  cases hinner

theorem getLast?_ne_return (hs : '\r' ∉ s) : s.getLast? ≠ some '\r' := fun hlast => hs (List.mem_of_getLast? hlast)

end Text

/-! ### Trivia -/

namespace Trivia

variable {c : Char} {s rest : Text} {n m : Nat}

/-- A block comment ends in a slash. -/
theorem CommentBody.getLast? {outer : Nat} (hs : CommentBody outer s) : s.getLast? = some '/' := by
  induction hs with
  | ends => rfl
  | leaves _ ih | enters _ ih =>
      rw [List.getLast?_cons, List.getLast?_cons, ih]
      rfl
  | plain _ _ _ ih =>
      rw [List.getLast?_cons, ih]
      rfl

/-- A piece of trivia on the line of a token does not end in a carriage return. -/
theorem getLast?_piece? (hpiece : piece? false c rest = .ok (some n)) :
    ((c :: rest).take (n + 1)).getLast? ≠ some '\r' := by
  cases piece?_eq_some_iff.mp hpiece with
  | blank hspace =>
      intro hlast
      obtain rfl : c = '\r' := by simpa using hlast
      cases hspace
  | line =>
      apply Text.getLast?_ne_return
      rw [List.take_succ_cons, List.mem_cons, not_or]
      refine ⟨by decide, fun hreturn => ?_⟩
      exact absurd (Text.of_mem_take_runLength hreturn) (by decide)
  | block hclosed =>
      rw [List.take_succ_cons, List.take_succ_cons, List.getLast?_cons, List.getLast?_cons,
        (commentBody_of_blockCommentFrom hclosed 0 rfl).getLast?]
      decide

/-- Trivia behind a token does not end in a carriage return. -/
theorem getLast?_lengthFrom (hlength : lengthFrom false n s = .ok (n + m)) : (s.take m).getLast? ≠ some '\r' := by
  fun_induction lengthFrom false n s generalizing m with
  | case1 n => simp
  | case2 => cases hlength
  | case3 n c rest hpiece =>
      obtain rfl : m = 0 := by simpa using hlength
      simp
  | case4 n c rest j hpiece ih =>
      have hle := le_of_lengthFrom hlength
      obtain ⟨m, rfl⟩ : ∃ i, m = j + 1 + i := ⟨m - (j + 1), by omega⟩
      have hrest := ih (m := m) (by rw [hlength]; congr 1; omega)
      have hparts : (c :: rest).take (j + 1 + m) = (c :: rest).take (j + 1) ++ (rest.drop j).take m := by
        rw [List.take_add]
        rfl
      rw [hparts, List.getLast?_append]
      cases hlast : ((rest.drop j).take m).getLast? with
      | none => simpa using getLast?_piece? hpiece
      | some d => simpa [hlast] using hrest

end Trivia

/-! ### Lexemes -/

namespace Literal

variable {limit skip n m : Nat} {top : Frame} {below : List Frame} {s rest : Text} {c : Char}

theorem return_not_mem_closing (pounds : Nat) (multiline : Bool) : '\r' ∉ closing pounds multiline := by
  cases multiline <;> simp [closing, quotes, List.mem_replicate]

/-- The move that ends a literal takes its quotes and number signs. -/
theorem exists_getLast?_move (hmove : move limit n top below (c :: rest) c = .ok (skip, [])) :
    ∃ d, ((c :: rest).take (skip + 1)).getLast? = some d ∧ d ≠ '\r' := by
  cases top with
  | literal pounds multiline start =>
      simp only [move, moveInLiteral] at hmove
      split at hmove
      next => cases hmove
      split at hmove
      next hclose =>
        simp only [Bool.and_eq_true, List.isPrefixOf_iff_prefix] at hclose
        obtain ⟨rfl, -⟩ := Prod.mk.inj (Except.ok.inj hmove)
        have hpos : 0 < (closing pounds multiline).length := by cases multiline <;> simp [closing, quotes]
        have hne : closing pounds multiline ≠ [] := List.length_pos_iff.mp hpos
        rw [Nat.sub_add_cancel hpos, ← List.prefix_iff_eq_take.mp hclose.2, List.getLast?_eq_some_getLast hne]
        refine ⟨_, rfl, fun hreturn => return_not_mem_closing pounds multiline ?_⟩
        rw [← hreturn]
        exact List.getLast_mem hne
      next =>
        repeat' split at hmove
        all_goals simp at hmove
  | interpolation parens =>
      simp only [move, moveInInterpolation] at hmove
      split at hmove
      next => simp at hmove
      split at hmove
      next hparen =>
        obtain rfl : c = ')' := by simpa using hparen
        cases parens with
        | zero =>
            obtain ⟨rfl, -⟩ := Prod.mk.inj (Except.ok.inj hmove)
            exact ⟨')', rfl, by decide⟩
        | succ parens => simp at hmove
      next =>
        repeat' split at hmove
        all_goals simp at hmove

theorem exists_getLast?_lengthFrom (hlength : lengthFrom limit skip n top below s = .ok (n + m)) :
    ∃ d, (s.take m).getLast? = some d ∧ d ≠ '\r' := by
  fun_induction lengthFrom limit skip n top below s generalizing m with
  | case1 => cases hlength
  | case2 skip n top below c rest ih =>
      have hlt := lt_of_lengthFrom hlength
      obtain ⟨m, rfl⟩ : ∃ j, m = j + 1 := ⟨m - 1, by omega⟩
      obtain ⟨d, hlast, hd⟩ := ih (m := m) (by rw [hlength]; congr 1; omega)
      exact ⟨d, by rw [List.take_succ_cons, List.getLast?_cons, hlast]; rfl, hd⟩
  | case3 => cases hlength
  | case4 n top below c rest skip hmove =>
      obtain rfl : m = skip + 1 := by
        have hend := Except.ok.inj hlength
        omega
      exact exists_getLast?_move hmove
  | case5 n top below c rest skip top' below' hmove ih =>
      have hlt := lt_of_lengthFrom hlength
      obtain ⟨m, rfl⟩ : ∃ j, m = j + 1 := ⟨m - 1, by omega⟩
      obtain ⟨d, hlast, hd⟩ := ih (m := m) (by rw [hlength]; congr 1; omega)
      exact ⟨d, by rw [List.take_succ_cons, List.getLast?_cons, hlast]; rfl, hd⟩

end Literal

namespace Lexeme

variable {s rest : Text} {c : Char} {n : Nat}

theorem isNameChar_return : isNameChar '\r' = false := by decide +kernel

theorem return_not_mem_run {p : Char → Bool} (hp : p '\r' = false) (s : Text) : '\r' ∉ s.take (s.runLength p) :=
  fun hreturn => by simpa [hp] using Text.of_mem_take_runLength hreturn

theorem return_not_mem_radix (n : Nat) (s : Text) : ∃ j, radixLengthFrom n s = n + j ∧ '\r' ∉ s.take j := by
  have hname {c : Char} (hc : ¬ (!isNameChar c) = true) : c ≠ '\r' := by
    rintro rfl
    exact hc (by rw [isNameChar_return]; rfl)
  fun_induction radixLengthFrom n s with
  | case1 n => exact ⟨0, rfl, by simp⟩
  | case2 n c hc => exact ⟨1, rfl, by simpa using (hname (by simp [hc])).symm⟩
  | case3 n c hc => exact ⟨0, rfl, by simp⟩
  | case4 n c next rest hdot hnext ih =>
      obtain ⟨j, hlength, hreturn⟩ := ih
      refine ⟨j + 1, by rw [hlength]; omega, ?_⟩
      rw [List.take_succ_cons, List.mem_cons, not_or]
      exact ⟨by rw [beq_iff_eq.mp hdot]; decide, hreturn⟩
  | case5 n c next rest hdot hnext => exact ⟨0, rfl, by simp⟩
  | case6 n c next rest hdot hc => exact ⟨0, rfl, by simp⟩
  | case7 n c next rest hdot hc hsign ih =>
      obtain ⟨j, hlength, hreturn⟩ := ih
      refine ⟨j + 2, by rw [hlength]; omega, ?_⟩
      simp only [Bool.and_eq_true, isSign, Bool.or_eq_true, beq_iff_eq] at hsign
      rw [List.take_succ_cons, List.take_succ_cons, List.mem_cons, List.mem_cons, not_or, not_or]
      refine ⟨(hname hc).symm, ?_, hreturn⟩
      rcases hsign.2 with rfl | rfl <;> decide
  | case8 n c next rest hdot hc hsign ih =>
      obtain ⟨j, hlength, hreturn⟩ := ih
      refine ⟨j + 1, by rw [hlength]; omega, ?_⟩
      rw [List.take_succ_cons, List.mem_cons, not_or]
      exact ⟨(hname hc).symm, hreturn⟩

theorem return_not_mem_fraction (s : Text) : '\r' ∉ s.take (fractionLength s) := by
  unfold fractionLength
  split
  next rest =>
    split
    · rw [Nat.add_comm, List.take_succ_cons, List.mem_cons, not_or]
      exact ⟨by decide, return_not_mem_run (by decide +kernel) rest⟩
    · simp
  next => simp

theorem return_not_mem_exponent (s : Text) : '\r' ∉ s.take (exponentLength s) := by
  unfold exponentLength
  split
  next mark next rest =>
    split
    next hexponent =>
      simp only [Bool.and_eq_true, Bool.or_eq_true, beq_iff_eq] at hexponent
      rw [Nat.add_comm, List.take_succ_cons, List.take_succ_cons, List.mem_cons, List.mem_cons, not_or, not_or]
      refine ⟨?_, ?_, return_not_mem_run (by decide +kernel) rest⟩
      · rcases hexponent.1 with rfl | rfl <;> decide
      · rintro rfl
        rcases hexponent.2 with hdigit | ⟨hsign, -⟩
        · exact absurd hdigit (by decide +kernel)
        · exact absurd hsign (by decide)
    next => simp
  next => simp

theorem return_not_mem_number (c : Char) (rest : Text) : '\r' ∉ rest.take (numberLength c rest) := by
  unfold numberLength
  split
  next hradix =>
    simp only [Bool.and_eq_true] at hradix
    obtain ⟨j, hlength, hreturn⟩ := return_not_mem_radix 0 (rest.drop 1)
    rw [hlength, Nat.zero_add, List.take_add, List.mem_append, not_or]
    refine ⟨?_, hreturn⟩
    cases rest with
    | nil => simp
    | cons mark rest =>
        rintro hreturn
        obtain rfl : '\r' = mark := by simpa using hreturn
        simp [Text.startsWith] at hradix
  next =>
    dsimp only
    rw [List.take_add, List.take_add, List.mem_append, List.mem_append, not_or, not_or]
    exact ⟨⟨return_not_mem_run (by decide +kernel) rest, return_not_mem_fraction _⟩, return_not_mem_exponent _⟩

/-- No lexeme ends in a carriage return. -/
theorem Scanned.getLast?_ne {limit : Nat} {kind : TokenKind} (hscanned : Scanned limit c rest kind n) (hc : c ≠ '\r') :
    (c :: rest.take n).getLast? ≠ some '\r' := by
  -- Behind the first character there is no carriage return at all, except in literals and in names in backquotes.
  have hwhole (hrest : '\r' ∉ rest.take n) : (c :: rest.take n).getLast? ≠ some '\r' := by
    apply Text.getLast?_ne_return
    rw [List.mem_cons, not_or]
    exact ⟨hc.symm, hrest⟩
  cases hscanned with
  | literal pounds length hopens hlength =>
      have hlt := Literal.lt_of_lengthFrom hlength
      obtain ⟨d, hlast, hd⟩ := Literal.exists_getLast?_lengthFrom (n := 0) (m := length) (by rw [Nat.zero_add]; exact hlength)
      rw [← List.take_succ_cons, Nat.sub_add_cancel (by omega), hlast]
      simpa using hd
  | pound => exact hwhole (return_not_mem_run isNameChar_return rest)
  | number => exact hwhole (return_not_mem_number c rest)
  | quoted n hquote hclosed =>
      unfold quotedNameLength? at hclosed
      dsimp only at hclosed
      split at hclosed
      next hback =>
        obtain rfl := Option.some.inj hclosed
        obtain ⟨behind, hbehind⟩ := List.head?_eq_some_iff.mp (beq_iff_eq.mp hback)
        rw [List.take_add, hbehind, List.take_succ_cons, List.take_zero, ← List.cons_append, List.getLast?_concat]
        decide
      next => cases hclosed
  | backquote | punctuation | single => exact hwhole (by simp)
  | word => exact hwhole (return_not_mem_run isNameChar_return rest)
  | operators hrun =>
      obtain ⟨k, hlength, hchars⟩ := isOperatorChar_of_mem_take (c == '.') 0 rest
      rw [Nat.zero_add] at hlength
      apply hwhole
      intro hreturn
      rw [hlength] at hreturn
      exact absurd (hchars _ hreturn) (by decide)

end Lexeme

/-! ### Tokens -/

namespace Token

/-- The text and the trivia of the token are uniform, each by itself. -/
structure Uniform (k : LineBreak) (t : Token) : Prop where
  leading : t.leading.Uniform k
  text : t.text.Uniform k
  trailing : t.trailing.Uniform k

theorem isLineBreak_of_piece? {c : Char} {rest : Text} (hpiece : Trivia.piece? true c rest = .ok none) :
    Text.isLineBreak c = false := by
  rw [Bool.eq_false_iff]
  intro hbreak
  simp [Trivia.piece?, hbreak] at hpiece

/-- The lexer tears no line break apart. -/
theorem Streams.uniform {limit skip : Nat} {p : Position} {s : Text} {tokens : List Token} {k : LineBreak}
    (hstreams : Streams limit skip p s tokens) (hs : s.Uniform k) : ∀ t ∈ tokens, t.Uniform k := by
  induction hstreams with
  | @last skip n p s _ hends =>
      rw [List.forall_mem_singleton]
      refine ⟨?_, .nil, .nil⟩
      rw [← List.take_append_drop (skip + n) s, hends, List.append_nil] at hs
      exact hs
  | @more skip n j m p s rest c kind tokens hleading hbegins hlexeme htrailing _ ih =>
      have hc := isLineBreak_of_piece? (Trivia.piece?_of_leadingLength hleading hbegins)
      have hfeed : c ≠ '\n' := by
        rintro rfl
        cases hc
      have hreturn : c ≠ '\r' := by
        rintro rfl
        cases hc
      -- The three cuts of a turn, in front of the lexeme, behind it, and behind the trivia that follows it.
      obtain ⟨hfront, hlexed⟩ : Text.Uniform k (s.take (skip + n)) ∧ Text.Uniform k (c :: rest) := by
        rw [← List.take_append_drop (skip + n) s, hbegins] at hs
        exact hs.split fun _ => by simpa using hfeed
      obtain ⟨htext, hbehind⟩ : Text.Uniform k (c :: rest.take j) ∧ Text.Uniform k (rest.drop j) := by
        rw [← List.take_append_drop j rest, ← List.cons_append] at hlexed
        exact hlexed.split fun hlast => absurd hlast ((Lexeme.scanned_of_scan hlexeme).getLast?_ne hreturn)
      obtain ⟨htrivia, hrest⟩ : Text.Uniform k ((rest.drop j).take m) ∧ Text.Uniform k (rest.drop (j + m)) := by
        rw [← List.take_append_drop m (rest.drop j), List.drop_drop] at hbehind
        refine hbehind.split fun hlast => absurd hlast (Trivia.getLast?_lengthFrom (n := 0) ?_)
        rw [Nat.zero_add]
        exact htrailing
      exact List.forall_mem_cons.mpr ⟨⟨hfront, htext, htrivia⟩, ih hrest⟩

theorem uniform_of_stream {limit : Nat} {source : Text} {tokens : List Token} {k : LineBreak}
    (hstream : stream limit source = .ok tokens) (hsource : source.Uniform k) : ∀ t ∈ tokens, t.Uniform k :=
  (stream_eq_ok_iff.mp hstream).uniform hsource

end Token

end SwiftObservation
