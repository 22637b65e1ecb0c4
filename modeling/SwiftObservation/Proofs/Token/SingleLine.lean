import SwiftObservation.Proofs.Grammar.Joined

/-!
# Literals of one line

A literal that is opened by one quote is meant to end on its line, and the scanner refuses a line break in it. An escape,
though, takes the character behind it unseen, so a line break passes where it is escaped. It passes nowhere else:
`LineBody` is what can stand behind the quote if no interpolation is opened, and in it every line break stands right behind
an escape.
-/

namespace SwiftObservation

namespace Literal

variable {limit pounds start skip n : Nat} {s front back : Text} {c : Char}

/-- An interpolation is opened somewhere behind the opening of a literal, of which the first `skip` characters belong to
the escape that was last seen. -/
def interpolates (pounds : Nat) : (skip : Nat) → Text → Bool
  | _, [] => false
  | skip + 1, _ :: rest => interpolates pounds skip rest
  | 0, c :: rest =>
    if (escape pounds).isPrefixOf (c :: rest) then
      (rest.drop pounds).head? == some '(' || interpolates pounds (pounds + 1) rest
    else interpolates pounds 0 rest

/-- What stands behind the quote of a literal that opens no interpolation: characters other than line breaks and escaped
characters of all kinds, up to the closing quote. -/
inductive LineBody (pounds : Nat) : Text → Prop where
  | closes : LineBody pounds (closing pounds false)
  | plain {c : Char} {rest : Text} (line : Text.isLineBreak c = false) (behind : LineBody pounds rest) :
      LineBody pounds (c :: rest)
  | escaped {c : Char} {rest : Text} (behind : LineBody pounds rest) : LineBody pounds (escape pounds ++ c :: rest)

theorem not_isLineBreak_of_mem_escape (hc : c ∈ escape pounds) : Text.isLineBreak c = false := by
  simp only [escape, List.mem_cons, List.mem_replicate] at hc
  rcases hc with rfl | ⟨-, rfl⟩ <;> rfl

theorem not_isLineBreak_of_mem_closing (hc : c ∈ closing pounds false) : Text.isLineBreak c = false := by
  simp only [closing, quotes, Bool.false_eq_true, if_false, List.mem_append, List.mem_singleton, List.mem_replicate] at hc
  rcases hc with rfl | ⟨-, rfl⟩ <;> rfl

/-- A line break in a literal stands behind an escape. -/
theorem LineBody.escape_suffix (hs : LineBody pounds s) (hsplit : s = front ++ c :: back)
    (hbreak : Text.isLineBreak c = true) : escape pounds <:+ front := by
  induction hs generalizing front with
  | closes =>
      have hmem : c ∈ closing pounds false := by simp [hsplit]
      simp [not_isLineBreak_of_mem_closing hmem] at hbreak
  | plain hline _ ih =>
      cases front with
      | nil =>
          obtain ⟨rfl, -⟩ := List.cons.inj hsplit
          simp [hline] at hbreak
      | cons d front =>
          obtain ⟨-, hrest⟩ := List.cons.inj hsplit
          exact (ih hrest).trans (List.suffix_cons d front)
  | @escaped d rest _ ih =>
      rcases List.append_eq_append_iff.mp hsplit with ⟨more, rfl, hmore⟩ | ⟨more, hmore, hrest⟩
      · cases more with
        | nil => simp
        | cons e more =>
            obtain ⟨rfl, hrest⟩ := List.cons.inj hmore
            exact (ih hrest).trans ((List.suffix_cons d more).trans (List.suffix_append _ _))
      · cases more with
        | nil =>
            rw [List.append_nil] at hmore
            rw [hmore]
        | cons e more =>
            obtain ⟨rfl, -⟩ := List.cons.inj hrest
            have hmem : c ∈ escape pounds := by simp [hmore]
            simp [not_isLineBreak_of_mem_escape hmem] at hbreak

/-- What a move in a literal of one line with nothing below it can be. -/
theorem moveInLiteral_cases {frames : List Frame} {rest : Text}
    (hmove : moveInLiteral pounds false start [] (c :: rest) c = .ok (skip, frames)) :
    (frames = [] ∧ closing pounds false <+: c :: rest ∧ skip + 1 = (closing pounds false).length) ∨
      (escape pounds <+: c :: rest ∧ skip = pounds + 1 ∧
        ((rest.drop pounds).head? = some '(' ∨ frames = [.literal pounds false start])) ∨
      (¬ escape pounds <+: c :: rest ∧ Text.isLineBreak c = false ∧ skip = 0 ∧ frames = [.literal pounds false start]) := by
  unfold moveInLiteral at hmove
  dsimp only at hmove
  split at hmove
  next => cases hmove
  next hline =>
    split at hmove
    next hclose =>
      obtain ⟨rfl, rfl⟩ := Prod.mk.inj (Except.ok.inj hmove)
      rw [Bool.and_eq_true, List.isPrefixOf_iff_prefix] at hclose
      exact .inl ⟨rfl, hclose.2, by simp [closing, quotes]⟩
    next =>
      split at hmove
      next hescape =>
        rw [Bool.and_eq_true, List.isPrefixOf_iff_prefix] at hescape
        refine .inr (.inl ⟨hescape.2, ?_⟩)
        split at hmove
        next hparen =>
          obtain ⟨rfl, rfl⟩ := Prod.mk.inj (Except.ok.inj hmove)
          exact ⟨rfl, .inl (by simpa using hparen)⟩
        next =>
          obtain ⟨rfl, rfl⟩ := Prod.mk.inj (Except.ok.inj hmove)
          exact ⟨rfl, .inr rfl⟩
      next hescape =>
        obtain ⟨rfl, rfl⟩ := Prod.mk.inj (Except.ok.inj hmove)
        refine .inr (.inr ⟨fun hprefix => hescape ?_, by simpa using hline, rfl, rfl⟩)
        rw [Bool.and_eq_true, List.isPrefixOf_iff_prefix]
        obtain ⟨more, hmore⟩ := hprefix
        exact ⟨by simpa [escape] using (List.cons.inj hmore).1.symm, more, hmore⟩

/-- A text that is a literal to its end has such a body. -/
theorem lineBody_of_lengthFrom {top : Frame} {below : List Frame}
    (hlength : lengthFrom limit skip n top below s = .ok (n + s.length)) (htop : top = .literal pounds false start)
    (hbelow : below = []) (hplain : interpolates pounds skip s = false) : LineBody pounds (s.drop skip) := by
  fun_induction lengthFrom limit skip n top below s with
  | case1 => simp at hlength
  | case2 skip n top below c rest ih =>
      refine ih ?_ htop hbelow hplain
      rw [hlength, List.length_cons, Nat.add_right_comm, Nat.add_assoc]
  | case3 => simp at hlength
  | case4 n top below c rest skip hmove =>
      subst htop hbelow
      have hend : n + 1 + skip = n + (rest.length + 1) := Except.ok.inj hlength
      rcases moveInLiteral_cases hmove with ⟨-, hclose, hskip⟩ | ⟨hescape, -, hparen | hframes⟩ | ⟨-, -, -, hframes⟩
      · rw [List.drop_zero, ← hclose.eq_of_length (by rw [List.length_cons]; omega)]
        exact .closes
      · simp [interpolates, List.isPrefixOf_iff_prefix.mpr hescape, hparen] at hplain
      · cases hframes
      · cases hframes
  | case5 n top below c rest skip top' below' hmove ih =>
      subst htop hbelow
      have hmore : lengthFrom limit skip (n + 1) top' below' rest = .ok (n + 1 + rest.length) := by
        rw [hlength, List.length_cons, Nat.add_right_comm, Nat.add_assoc]
      rcases moveInLiteral_cases hmove with ⟨hframes, -⟩ | ⟨hescape, rfl, hparen | hframes⟩ | ⟨hescape, hline, rfl, hframes⟩
      · cases hframes
      · simp [interpolates, List.isPrefixOf_iff_prefix.mpr hescape, hparen] at hplain
      · obtain ⟨rfl, rfl⟩ := List.cons.inj hframes
        rw [interpolates, if_pos (List.isPrefixOf_iff_prefix.mpr hescape), Bool.or_eq_false_iff] at hplain
        have hbody := ih hmore rfl rfl hplain.2
        obtain ⟨behind, hbehind⟩ := hescape
        have hlt := lt_of_lengthFrom hmore
        have hlong := congrArg List.length hbehind
        simp only [escape, List.length_append, List.length_cons, List.length_replicate] at hlong
        cases behind with
        | nil => simp at hlong; omega
        | cons d behind =>
            obtain rfl : List.replicate pounds '#' ++ d :: behind = rest := (List.cons.inj hbehind).2
            have hdrop : (List.replicate pounds '#' ++ d :: behind).drop (pounds + 1) = behind := by simp [List.drop_append]
            rw [hdrop] at hbody
            rw [List.drop_zero, ← hbehind]
            exact .escaped hbody
      · obtain ⟨rfl, rfl⟩ := List.cons.inj hframes
        rw [interpolates, if_neg (by rwa [List.isPrefixOf_iff_prefix])] at hplain
        exact .plain hline (ih hmore rfl rfl hplain)

/-- The literal is opened by this many number signs and one quote, and opens no interpolation. -/
def isPlainLine (pounds : Nat) (s : Text) : Bool :=
  opening? s == some pounds && !(quotes true).isPrefixOf (s.drop pounds) && !interpolates pounds 0 (s.drop (pounds + 1))

theorem interpolates_drop (pounds skip : Nat) (s : Text) :
    interpolates pounds skip s = interpolates pounds 0 (s.drop skip) := by
  induction skip generalizing s with
  | zero => rfl
  | succ skip ih =>
      cases s with
      | nil => rfl
      | cons c rest => rw [interpolates, ih, List.drop_succ_cons]

/-- A text that is a literal to its end, with its opening in front of its body. -/
theorem exists_lineBody (hlength : length limit pounds s = .ok s.length) (hplain : isPlainLine pounds s = true) :
    ∃ body, s = mark pounds ++ body ∧ LineBody pounds body := by
  simp only [isPlainLine, Bool.and_eq_true, Bool.not_eq_true', beq_iff_eq] at hplain
  obtain ⟨⟨hopens, hsingle⟩, hplain⟩ := hplain
  have hscan : lengthFrom limit (pounds + 1) 0 (.literal pounds false 0) [] s = .ok (0 + s.length) := by
    rw [Nat.zero_add, ← hlength, length, opened, hsingle]
    rfl
  obtain ⟨body, hbody⟩ := opening?_eq_some_iff.mp hopens
  have hdrop : s.drop (pounds + 1) = body := by rw [← hbody, List.drop_left' (length_mark pounds)]
  refine ⟨body, hbody.symm, ?_⟩
  rw [← hdrop]
  exact lineBody_of_lengthFrom hscan rfl rfl (by rw [interpolates_drop, hplain])

theorem not_isLineBreak_of_mem_mark (hc : c ∈ mark pounds) : Text.isLineBreak c = false := by
  simp only [mark, List.mem_append, List.mem_singleton, List.mem_replicate] at hc
  rcases hc with ⟨-, rfl⟩ | rfl <;> rfl

end Literal

/-- A lexeme that begins like a string literal is one to its end. -/
theorem Lexeme.length_of_standsAlone {limit pounds : Nat} {kind : TokenKind} {text : Text}
    (halone : StandsAlone limit kind text) (hopens : Literal.opening? text = some pounds) :
    Literal.length limit pounds text = .ok text.length := by
  obtain ⟨c, rest, rfl, halone⟩ := halone
  have hscan := (halone [] Text.endsLine_nil).2
  have hsign : (c == '"' || c == '#') = true := by
    obtain ⟨behind, hbehind⟩ := Literal.opening?_eq_some_iff.mp hopens
    cases pounds with
    | zero =>
        obtain ⟨rfl, -⟩ : '"' = c ∧ behind = rest := List.cons.inj hbehind
        rfl
    | succ pounds =>
        obtain ⟨rfl, -⟩ : '#' = c ∧ _ := List.cons.inj hbehind
        rfl
  rw [List.append_nil, scan, if_pos hsign, hopens] at hscan
  cases hlength : Literal.length limit pounds (c :: rest) with
  | error fault => simp [hlength, bind, Except.bind] at hscan
  | ok m =>
      have hpos := Literal.lt_of_lengthFrom hlength
      simp only [hlength, bind, Except.bind, pure, Except.pure, Except.ok.injEq, Prod.mk.injEq] at hscan
      rw [List.length_cons]
      congr 1
      omega

namespace Token

open SwiftObservation.Literal

variable {limit pounds : Nat} {source : Text} {tokens : List Token} {t : Token}

/-- In a literal that is opened by one quote and opens no interpolation a line breaks only where the break is escaped. -/
theorem escape_before_lineBreak (hstream : stream limit source = .ok tokens) (ht : t ∈ tokens) (hkind : t.kind = .string)
    (hplain : isPlainLine pounds t.text = true) (front back : Text) (c : Char) (hsplit : t.text = front ++ c :: back)
    (hbreak : Text.isLineBreak c = true) : escape pounds <:+ front := by
  have halone := (stream_eq_ok_iff.mp hstream).standsAlone t ht (by simp [hkind])
  have hopens : opening? t.text = some pounds := by
    simp only [isPlainLine, Bool.and_eq_true, beq_iff_eq] at hplain
    exact hplain.1.1
  obtain ⟨body, hbody, hline⟩ := exists_lineBody (Lexeme.length_of_standsAlone halone hopens) hplain
  rcases List.append_eq_append_iff.mp (hbody.symm.trans hsplit) with ⟨more, rfl, hmore⟩ | ⟨more, hmore, hrest⟩
  · exact (hline.escape_suffix hmore hbreak).trans (List.suffix_append _ _)
  · cases more with
    | nil =>
        -- Nothing in front of the break but the opening.
        have hsuffix : escape pounds <:+ [] := hline.escape_suffix hrest.symm hbreak
        simp [escape] at hsuffix
    | cons d more =>
        obtain ⟨rfl, -⟩ := List.cons.inj hrest
        have hmem : c ∈ mark pounds := by simp [hmore]
        simp [not_isLineBreak_of_mem_mark hmem] at hbreak

/-- A raw literal with an escaped line break, and a parenthesis behind a backslash that escapes nothing. -/
theorem escape_before_lineBreak_raw :
    ∃ tokens t, stream 1 "f(#\"a\\(b\\#\nc\"#)".toList = .ok tokens ∧ t ∈ tokens ∧ t.kind = .string ∧
      isPlainLine 1 t.text = true ∧ t.text = "#\"a\\(b\\#".toList ++ '\n' :: "c\"#".toList ∧
      escape 1 <:+ "#\"a\\(b\\#".toList := by
  have hany : (stream 1 "f(#\"a\\(b\\#\nc\"#)".toList).toOption.any (fun tokens => tokens.any fun t =>
      t.kind == .string && isPlainLine 1 t.text && t.text == "#\"a\\(b\\#\nc\"#".toList) = true := by decide +kernel
  obtain ⟨tokens, hstream, hfound⟩ := exists_eq_ok_of_any hany
  obtain ⟨t, ht, hchecked⟩ := List.any_eq_true.mp hfound
  rw [Bool.and_eq_true, Bool.and_eq_true, beq_iff_eq, beq_iff_eq] at hchecked
  obtain ⟨⟨hkind, hplain⟩, htext⟩ := hchecked
  have hsplit : t.text = "#\"a\\(b\\#".toList ++ '\n' :: "c\"#".toList := htext
  exact ⟨tokens, t, hstream, ht, hkind, hplain, hsplit,
    escape_before_lineBreak hstream ht hkind hplain _ _ '\n' hsplit rfl⟩

/-- A line breaks in a literal that is opened by one quote and opens no interpolation. -/
theorem exists_lineBreak_in_plainLine :
    ∃ tokens t, stream 1 "\"\\\n\"".toList = .ok tokens ∧ t ∈ tokens ∧ t.kind = .string ∧
      isPlainLine 0 t.text = true ∧ t.text.hasLineBreak = true := by
  have hany : (stream 1 "\"\\\n\"".toList).toOption.any (fun tokens => tokens.any fun t =>
      t.kind == .string && isPlainLine 0 t.text && t.text.hasLineBreak) = true := by decide +kernel
  obtain ⟨tokens, hstream, hfound⟩ := exists_eq_ok_of_any hany
  obtain ⟨t, ht, hchecked⟩ := List.any_eq_true.mp hfound
  rw [Bool.and_eq_true, Bool.and_eq_true, beq_iff_eq] at hchecked
  exact ⟨tokens, t, hstream, ht, hchecked.1.1, hchecked.1.2, hchecked.2⟩

end Token

end SwiftObservation
