import SwiftObservation.Proofs.Grammar.Faults.Declarations
import SwiftObservation.Proofs.Token.Faults

/-!
# Positions are true

The tokens of a source carry the positions at which they begin. Cutting an operator keeps that: no operator holds a line
break, so its pieces stand in one line, each as far to the right as the pieces before it are long. With what the lexer and
the grammar are known to complain about, every position that a leaf or an error carries is one of a place in the source
that the leaf or error is about.
-/

namespace SwiftObservation

/-! ### Pieces of operators -/

namespace Grammar

variable {source behind : Text} {offset : Nat}

theorem not_isLineBreak_of_isOperatorChar {c : Char} (hc : Lexeme.isOperatorChar c = true) : c ≠ '\n' ∧ c ≠ '\r' := by
  constructor <;> rintro rfl <;> exact absurd hc (by decide)

/-- The pieces of an operator stand in its line, each as far behind as the ones before it are long. -/
theorem Cuts.placed {t : Token} {pieces : List Token} (hcuts : Cuts t pieces)
    (hchars : t.kind = .operator → t.text.length ≤ 1 ∨ ∀ c ∈ t.text, Lexeme.isOperatorChar c = true)
    (hs : source.drop offset = t.fullText ++ behind) (hposition : t.position = .ofOffset source (offset + t.leading.length)) :
    Token.Placed source offset pieces := by
  induction hcuts generalizing offset with
  | whole t => exact ⟨hposition, trivial⟩
  | @split t pieces hoperator hlong _ _ ih =>
      obtain ⟨c, rest, htext⟩ := List.exists_cons_of_length_pos (Nat.lt_of_lt_of_le Nat.two_pos hlong)
      have hall : ∀ d ∈ c :: rest, Lexeme.isOperatorChar d = true := by
        rw [← htext]
        exact (hchars hoperator).resolve_left (by omega)
      have hlength : (Cursor.splitToken t).1.fullText.length = t.leading.length + 1 := by
        simp [Cursor.splitToken, Token.fullText, htext]
      have hbehind : source.drop (offset + t.leading.length) = c :: (rest ++ t.trailing ++ behind) := by
        rw [← List.drop_drop, hs, Token.fullText, htext]
        simp
      have hnext : Position.ofOffset source (offset + t.leading.length + 1) =
          ⟨t.position.line, t.position.column + 1⟩ := by
        obtain ⟨hfeed, hreturn⟩ := not_isLineBreak_of_isOperatorChar (hall c (by simp))
        rw [Position.ofOffset_succ hbehind, ← hposition, Position.step, if_neg (by simp [hfeed, hreturn])]
      refine ⟨hposition, ih (fun _ => .inr fun d hd => ?_) ?_ ?_⟩
      · have hd : d ∈ rest := by simpa [Cursor.splitToken, htext] using hd
        exact hall d (List.mem_cons_of_mem c hd)
      · rw [hlength, ← Nat.add_assoc, ← List.drop_drop, hbehind]
        simp [Cursor.splitToken, Token.fullText, htext]
      · rw [hlength]
        exact hnext.symm

theorem Refines.placed {tokens tokens' : List Token} (hrefines : Refines tokens tokens')
    (hchars : ∀ t ∈ tokens, t.kind = .operator → t.text.length ≤ 1 ∨ ∀ c ∈ t.text, Lexeme.isOperatorChar c = true)
    (hs : source.drop offset = Token.textOf tokens ++ behind) (hplaced : Token.Placed source offset tokens) :
    Token.Placed source offset tokens' := by
  induction hrefines generalizing offset with
  | nil => trivial
  | @cons t rest pieces finer hcuts _ ih =>
      obtain ⟨hposition, hrest⟩ := hplaced
      rw [Token.textOf_cons, List.append_assoc] at hs
      have hbehind : source.drop (offset + t.fullText.length) = Token.textOf rest ++ behind := by
        rw [← List.drop_drop, hs, List.drop_left]
      rw [Token.placed_append, hcuts.textOf]
      exact ⟨hcuts.placed (hchars t (by simp)) hs hposition, ih (fun u hu => hchars u (by simp [hu])) hbehind hrest⟩

end Grammar

/-- The operators of a source are made of operator characters. -/
theorem Token.isOperatorChar_of_stream {limit : Nat} {source : Text} {tokens : List Token}
    (hstream : Token.stream limit source = .ok tokens) {t : Token} (ht : t ∈ tokens) (hkind : t.kind = .operator) :
    t.text.length ≤ 1 ∨ ∀ c ∈ t.text, Lexeme.isOperatorChar c = true := by
  obtain ⟨front, last, rfl, hlast, hfront, -⟩ := Token.stream_covers hstream
  rcases List.mem_append.mp ht with ht | ht
  · exact (hfront t ht).operator hkind
  · rw [List.mem_singleton.mp ht, hlast] at hkind
    simp at hkind

/-- The tokens of a source, cut any further, stand where they say. -/
theorem Token.placed_of_refines {limit : Nat} {source : Text} {tokens tokens' : List Token}
    (hstream : Token.stream limit source = .ok tokens) (hrefines : Grammar.Refines tokens tokens') :
    Token.Placed source 0 tokens' := by
  obtain ⟨-, -, -, -, -, htext⟩ := Token.stream_covers hstream
  have hs : source.drop 0 = Token.textOf tokens ++ [] := by rw [List.drop_zero, List.append_nil, htext]
  exact hrefines.placed (fun t ht hkind => Token.isOperatorChar_of_stream hstream ht hkind) hs
    (Token.placed_of_stream hstream)

theorem Token.Placed.position_eq {source : Text} {front back : List Token} {t : Token}
    (hplaced : Token.Placed source 0 (front ++ t :: back)) (htext : Token.textOf (front ++ t :: back) = source) :
    t.position = .inText source ((Token.textOf front).length + t.leading.length) := by
  rw [Token.placed_append, Nat.zero_add] at hplaced
  rw [hplaced.2.1, Position.ofOffset_eq_inText]
  rw [← htext]
  simp only [Token.textOf_append, Token.textOf_cons, Token.fullText, List.length_append]
  omega

/-! ### Leaves and errors -/

/-- The token stands in the text between the others, and carries the position at which its own text begins. -/
def Token.StandsIn (source : Text) (front : List Token) (t : Token) (back : List Token) : Prop :=
  source = Token.textOf front ++ t.leading ++ (t.text ++ t.trailing ++ Token.textOf back) ∧
    t.position = .inText source (Token.textOf front ++ t.leading).length

/-- In the tokens of a source, cut any further, every token stands where it says. -/
theorem Token.standsIn_of_refines {limit : Nat} {source : Text} {tokens front back : List Token} {t : Token}
    (hstream : Token.stream limit source = .ok tokens) (hrefines : Grammar.Refines tokens (front ++ t :: back)) :
    t.StandsIn source front back := by
  obtain ⟨-, -, -, -, -, htext⟩ := Token.stream_covers hstream
  have hsource : Token.textOf (front ++ t :: back) = source := by rw [hrefines.textOf, htext]
  refine ⟨?_, ?_⟩
  · rw [← hsource]
    simp [Token.textOf_append, Token.textOf_cons, Token.fullText]
  · rw [List.length_append]
    exact (Token.placed_of_refines hstream hrefines).position_eq hsource

theorem Grammar.blames_of_ofTokens {limit : Nat} {tokens : List Token} {e : ParseError}
    (hparse : Tree.ofTokens limit tokens = .error e) : Blames limit (Cursor.ofTokens tokens) e := by
  have hfails : Fails (sourceFile (nonterminals ((Cursor.ofTokens tokens).weight + 1) limit)) (Cursor.ofTokens tokens) e := by
    simp only [Tree.ofTokens, StateT.run', Functor.map, Except.map] at hparse
    split at hparse
    next e' hrun =>
      obtain rfl := Except.error.inj hparse
      exact hrun
    next => cases hparse
  refine blames_sourceFile (blaming_nonterminals _ _) (Cursor.sound_ofTokens tokens) ?_ hfails
  rw [fuel_nonterminals]
  exact Nat.lt_succ_self _

/-- A grammatical error names a token that can be met, unless the source is nested too deep. -/
theorem Grammar.Blames.exists_meets {limit : Nat} {c : Cursor} {e : ParseError} (hblames : Blames limit c e) :
    e = .tooDeep ∨ ∃ t, c.Meets t ∧ e.position? = some t.position := by
  cases hblames with
  | unbalanced hmet | unclosedParameters hmet | missingName hmet | missingBody hmet => exact .inr ⟨_, hmet, rfl⟩
  | unclosed hopen => exact .inr ⟨_, hopen.meets, rfl⟩
  | tooDeep => exact .inl rfl

theorem Tree.ofSource_eq_error {limits : Limits} {source : Text} {e : ReadError}
    (hread : Tree.ofSource limits source = .error e) :
    (∃ fault, e = .lexical fault ∧ Token.stream limits.literals source = .error fault) ∨
      ∃ fault tokens, e = .grammatical fault ∧ Token.stream limits.literals source = .ok tokens ∧
        Tree.ofTokens limits.items tokens = .error fault := by
  unfold Tree.ofSource at hread
  split at hread
  next fault hstream => exact .inl ⟨fault, (Except.error.inj hread).symm, hstream⟩
  next tokens hstream =>
    split at hread
    next fault hparse => exact .inr ⟨fault, tokens, (Except.error.inj hread).symm, hstream, hparse⟩
    next => cases hread

/-- Reported positions are true. Every leaf of the tree of a source carries the line and column at which its own text begins
in the source. A source without a tree is nested too deep, or its error carries the position of the first character of the
comment or literal without an end, or that of a token of the source or of a piece of one. -/
theorem Tree.positions_true (limits : Limits) (source : Text) :
    (∀ t, Tree.ofSource limits source = .ok t → ∀ front leaf back, t.leaves = front ++ leaf :: back →
      leaf.StandsIn source front back) ∧
    (∀ e, Tree.ofSource limits source = .error (.lexical e) → e = .tooDeep ∨
      ∃ offset, Token.AtCode limits.literals source offset ∧ e.IsAbout limits.literals (source.drop offset) ∧
        e.position? = some (.inText source offset)) ∧
    (∀ e, Tree.ofSource limits source = .error (.grammatical e) → e = .tooDeep ∨
      ∃ tokens front piece back, Token.stream limits.literals source = .ok tokens ∧
        Grammar.Refines tokens (front ++ piece :: back) ∧ piece.StandsIn source front back ∧
        e.position? = some piece.position) := by
  refine ⟨?_, ?_, ?_⟩
  · intro t hread front leaf back hleaves
    obtain ⟨tokens, hstream, hparse⟩ := Tree.ofSource_eq_ok hread
    have hrefines := Grammar.refines_leaves_of_ofTokens hparse
    rw [Token.throughEnd_terminated_of_stream hstream, hleaves] at hrefines
    exact Token.standsIn_of_refines hstream hrefines
  · intro e hread
    obtain ⟨fault, heq, hstream⟩ | ⟨_, _, heq, -, -⟩ := Tree.ofSource_eq_error hread
    · obtain rfl := ReadError.lexical.inj heq
      exact Token.exists_isAbout_of_stream hstream
    · cases heq
  · intro e hread
    obtain ⟨_, heq, -⟩ | ⟨fault, tokens, heq, hstream, hparse⟩ := Tree.ofSource_eq_error hread
    · cases heq
    obtain rfl := ReadError.grammatical.inj heq
    obtain hdeep | ⟨piece, ⟨pieces, hrefines, hmem⟩, hposition⟩ := (Grammar.blames_of_ofTokens hparse).exists_meets
    · exact .inl hdeep
    rw [← Grammar.throughEnd_terminated, Token.throughEnd_terminated_of_stream hstream] at hrefines
    obtain ⟨front, back, rfl⟩ := List.append_of_mem hmem
    exact .inr ⟨tokens, front, piece, back, hstream, hrefines, Token.standsIn_of_refines hstream hrefines, hposition⟩

theorem exists_eq_error_of_match {ε α : Type} {r : Except ε α} {p : ε → Bool}
    (hmatch : (match r with | .error e => p e | .ok _ => false) = true) : ∃ e, r = .error e ∧ p e = true := by
  cases r with
  | error e => exact ⟨e, rfl, hmatch⟩
  | ok a => simp at hmatch

/-- The second piece of an operator that is cut, a comment without an end in an interpolation, and a class without a body. -/
theorem Tree.positions_true_pieceAndFaults :
    (∃ t front leaf back, Tree.ofSource ⟨1, 9, 0⟩ "\r\nvar x: A<B<C>>".toList = .ok t ∧
      t.leaves = front ++ leaf :: back ∧ leaf.position = ⟨2, 14⟩ ∧
      leaf.StandsIn "\r\nvar x: A<B<C>>".toList front back) ∧
    (∃ e, Tree.ofSource ⟨1, 9, 0⟩ "\"\\(a /*b)\"".toList = .error (.lexical e) ∧
      ∃ offset, Token.AtCode 1 "\"\\(a /*b)\"".toList offset ∧ e.IsAbout 1 ("\"\\(a /*b)\"".toList.drop offset) ∧
        e.position? = some (.inText "\"\\(a /*b)\"".toList offset)) ∧
    ∃ e, Tree.ofSource ⟨1, 9, 0⟩ "class A\n".toList = .error (.grammatical e) ∧
      ∃ tokens front piece back, Token.stream 1 "class A\n".toList = .ok tokens ∧
        Grammar.Refines tokens (front ++ piece :: back) ∧ piece.StandsIn "class A\n".toList front back ∧
        e.position? = some piece.position := by
  refine ⟨?_, ?_, ?_⟩
  · obtain ⟨t, hread, hleaf⟩ := exists_eq_ok_of_any (show (Tree.ofSource ⟨1, 9, 0⟩
      "\r\nvar x: A<B<C>>".toList).toOption.any (·.leaves.any (·.position == ⟨2, 14⟩)) = true by decide +kernel)
    obtain ⟨leaf, hmem, hposition⟩ := List.any_eq_true.mp hleaf
    obtain ⟨front, back, hleaves⟩ := List.append_of_mem hmem
    exact ⟨t, front, leaf, back, hread, hleaves, beq_iff_eq.mp hposition,
      (Tree.positions_true _ _).1 t hread front leaf back hleaves⟩
  · obtain ⟨e, hread, hlexical⟩ := exists_eq_error_of_match (r := Tree.ofSource ⟨1, 9, 0⟩ "\"\\(a /*b)\"".toList)
      (p := fun e => decide (e = .lexical (.unterminatedComment ⟨1, 6⟩))) (by decide +kernel)
    obtain rfl := of_decide_eq_true hlexical
    exact ⟨_, hread, ((Tree.positions_true _ _).2.1 _ hread).resolve_left (by simp)⟩
  · obtain ⟨e, hread, hend⟩ := exists_eq_error_of_match (r := Tree.ofSource ⟨1, 9, 0⟩ "class A\n".toList)
      (p := fun | .grammatical e => e.position? == some ⟨2, 1⟩ | .lexical _ => false) (by decide +kernel)
    cases e with
    | lexical fault => cases hend
    | grammatical fault =>
        refine ⟨fault, hread, ((Tree.positions_true _ _).2.2 fault hread).resolve_left ?_⟩
        rintro rfl
        cases hend

end SwiftObservation
