import SwiftObservation.Grammar.Cursor
import SwiftObservation.Proofs.Token.Lossless

/-!
# Operators cut into pieces

The parser changes tokens in one way only: it cuts an operator behind the angle bracket that opens it, and may cut what
is left again. `Cuts` follows these steps, `Refines` lifts them to lists of tokens, where each token is replaced by its
pieces in place. Refinement is transitive and goes well with `++`, so a rule that is made of other rules refines the
tokens to come as its parts do.

`IsPieces` says what the steps add up to without mentioning them.
-/

namespace SwiftObservation.Grammar

/-- The token cut behind an angle bracket that opens it any number of times. -/
inductive Cuts : Token → List Token → Prop where
  | whole (t : Token) : Cuts t [t]
  | split {t : Token} {pieces : List Token} (operator : t.kind = .operator) (long : 2 ≤ t.text.length)
      (angle : t.text.head? = some '<' ∨ t.text.head? = some '>') (behind : Cuts (Cursor.splitToken t).2 pieces) :
      Cuts t ((Cursor.splitToken t).1 :: pieces)

/-- The tokens with each one replaced by its pieces. -/
inductive Refines : List Token → List Token → Prop where
  | nil : Refines [] []
  | cons {t : Token} {rest pieces behind : List Token} (here : Cuts t pieces) (there : Refines rest behind) :
      Refines (t :: rest) (pieces ++ behind)

/-- The pieces stand for the token: their texts make up its text, the trivia around it stays around them, none stands
between them, and each begins in the token's line as far behind its beginning as the pieces before it are long. -/
structure IsPieces (t : Token) (pieces : List Token) : Prop where
  text : pieces.flatMap (·.text) = t.text
  leading : pieces.head?.map (·.leading) = some t.leading
  trailing : pieces.getLast?.map (·.trailing) = some t.trailing
  between : ∀ i (hi : i + 1 < pieces.length), pieces[i].trailing = [] ∧ pieces[i + 1].leading = []
  position : ∀ i (hi : i < pieces.length),
    pieces[i].position = ⟨t.position.line, t.position.column + ((pieces.take i).flatMap (·.text)).length⟩

/-! ### One operator -/

theorem text_splitToken (t : Token) : (Cursor.splitToken t).1.text ++ (Cursor.splitToken t).2.text = t.text :=
  List.take_append_drop 1 t.text

theorem length_text_splitToken_fst {t : Token} (hlong : 2 ≤ t.text.length) :
    (Cursor.splitToken t).1.text.length = 1 := by
  simp only [Cursor.splitToken, List.length_take]
  omega

theorem length_text_splitToken_snd {t : Token} : (Cursor.splitToken t).2.text.length = t.text.length - 1 :=
  List.length_drop

/-- A token of one character is never cut. -/
theorem Cuts.eq_whole {t : Token} {pieces : List Token} (hcuts : Cuts t pieces) (hshort : t.text.length ≤ 1) :
    pieces = [t] := by
  cases hcuts with
  | whole => rfl
  | split _ hlong => omega

theorem Cuts.ne_nil {t : Token} {pieces : List Token} (hcuts : Cuts t pieces) : pieces ≠ [] := by
  cases hcuts <;> simp

theorem Cuts.textOf {t : Token} {pieces : List Token} (hcuts : Cuts t pieces) : Token.textOf pieces = t.fullText := by
  induction hcuts with
  | whole t => simp
  | @split t pieces _ _ _ _ ih =>
      rw [Token.textOf_cons, ih]
      simp only [Cursor.splitToken, Token.fullText, List.append_nil, List.nil_append, List.append_assoc,
        List.append_cancel_left_eq]
      rw [← List.append_assoc, List.take_append_drop]

/-- The pieces of a token other than the end of the file are none either. -/
theorem Cuts.kind_ne {t : Token} {pieces : List Token} (hcuts : Cuts t pieces) (hkind : t.kind ≠ .endOfFile) :
    ∀ p ∈ pieces, p.kind ≠ .endOfFile := by
  induction hcuts with
  | whole t => simpa using hkind
  | split _ _ _ _ ih =>
      intro p hp
      rcases List.mem_cons.mp hp with rfl | hp
      · exact hkind
      · exact ih (TokenKind.ofOperator_ne_endOfFile _) p hp

/-- Only operators are cut, and no piece is empty. -/
theorem Cuts.eq_or_operator {t : Token} {pieces : List Token} (hcuts : Cuts t pieces) :
    pieces = [t] ∨ (t.kind = .operator ∧ ∀ p ∈ pieces, p.text ≠ []) := by
  induction hcuts with
  | whole t => exact .inl rfl
  | @split t pieces hoperator hlong _ _ ih =>
      have hfirst : (Cursor.splitToken t).1.text ≠ [] := by
        rw [← List.length_pos_iff, length_text_splitToken_fst hlong]
        exact Nat.one_pos
      have hsecond : (Cursor.splitToken t).2.text ≠ [] := by
        rw [← List.length_pos_iff, length_text_splitToken_snd]
        omega
      refine .inr ⟨hoperator, fun p hp => ?_⟩
      rcases List.mem_cons.mp hp with rfl | hp
      · exact hfirst
      · rcases ih with rfl | ⟨_, hbehind⟩
        · exact List.mem_singleton.mp hp ▸ hsecond
        · exact hbehind p hp

theorem IsPieces.whole (t : Token) : IsPieces t [t] where
  text := by simp
  leading := rfl
  trailing := rfl
  between := by simp
  position := by
    intro i hi
    obtain rfl : i = 0 := by simpa using hi
    simp

/-- A piece cut off in front joins the pieces of what was left. -/
theorem IsPieces.cons {t : Token} {pieces : List Token} (hlong : 2 ≤ t.text.length) (hne : pieces ≠ [])
    (hpieces : IsPieces (Cursor.splitToken t).2 pieces) : IsPieces t ((Cursor.splitToken t).1 :: pieces) where
  text := by rw [List.flatMap_cons, hpieces.text, text_splitToken]
  leading := rfl
  trailing := by rw [List.getLast?_cons_of_ne_nil hne, hpieces.trailing]; rfl
  between := by
    intro i hi
    cases i with
    | zero =>
        obtain ⟨p, rest, rfl⟩ := List.exists_cons_of_ne_nil hne
        exact ⟨rfl, Option.some.inj hpieces.leading⟩
    | succ i => exact hpieces.between i (by simpa using hi)
  position := by
    intro i hi
    cases i with
    | zero => simp [Cursor.splitToken]
    | succ i =>
        have hshift := hpieces.position i (by simpa using hi)
        rw [List.getElem_cons_succ, hshift, List.take_succ_cons, List.flatMap_cons, List.length_append,
          length_text_splitToken_fst hlong]
        simp only [Cursor.splitToken, Position.mk.injEq, true_and]
        omega

theorem Cuts.isPieces {t : Token} {pieces : List Token} (hcuts : Cuts t pieces) : IsPieces t pieces := by
  induction hcuts with
  | whole t => exact .whole t
  | split _ hlong _ hbehind ih => exact .cons hlong hbehind.ne_nil ih

/-! ### Lists of tokens -/

theorem Refines.refl (tokens : List Token) : Refines tokens tokens := by
  induction tokens with
  | nil => exact .nil
  | cons t rest ih => exact .cons (.whole t) ih

theorem Refines.append {front front' back back' : List Token} (hfront : Refines front front')
    (hback : Refines back back') : Refines (front ++ back) (front' ++ back') := by
  induction hfront with
  | nil => exact hback
  | cons hcuts _ ih =>
      rw [List.cons_append, List.append_assoc]
      exact .cons hcuts ih

theorem Refines.of_nil {tokens : List Token} (hrefines : Refines [] tokens) : tokens = [] := by
  cases hrefines
  rfl

/-- A refinement of a first token and a rest is made of pieces of the one and a refinement of the other. -/
theorem Refines.of_cons {t : Token} {rest tokens : List Token} (hrefines : Refines (t :: rest) tokens) :
    ∃ pieces behind, tokens = pieces ++ behind ∧ Cuts t pieces ∧ Refines rest behind := by
  cases hrefines with
  | cons hcuts hrest => exact ⟨_, _, rfl, hcuts, hrest⟩

theorem Refines.of_append {front back tokens : List Token} (hrefines : Refines (front ++ back) tokens) :
    ∃ front' back', tokens = front' ++ back' ∧ Refines front front' ∧ Refines back back' := by
  induction front generalizing tokens with
  | nil => exact ⟨[], tokens, rfl, .nil, hrefines⟩
  | cons t rest ih =>
      obtain ⟨pieces, behind, rfl, hcuts, hbehind⟩ := hrefines.of_cons
      obtain ⟨front', back', rfl, hfront, hback⟩ := ih hbehind
      exact ⟨pieces ++ front', back', by rw [List.append_assoc], .cons hcuts hfront, hback⟩

/-- Pieces that are cut further are pieces of the same token. -/
theorem Cuts.refine {t : Token} {pieces pieces' : List Token} (hcuts : Cuts t pieces)
    (hrefines : Refines pieces pieces') : Cuts t pieces' := by
  induction hcuts generalizing pieces' with
  | whole t =>
      obtain ⟨finer, behind, rfl, hfiner, hbehind⟩ := hrefines.of_cons
      rw [hbehind.of_nil, List.append_nil]
      exact hfiner
  | split hoperator hlong hangle _ ih =>
      obtain ⟨finer, behind, rfl, hfiner, hbehind⟩ := hrefines.of_cons
      rw [hfiner.eq_whole (Nat.le_of_eq (length_text_splitToken_fst hlong))]
      exact .split hoperator hlong hangle (ih hbehind)

theorem Refines.trans {tokens tokens' tokens'' : List Token} (hfirst : Refines tokens tokens')
    (hsecond : Refines tokens' tokens'') : Refines tokens tokens'' := by
  induction hfirst generalizing tokens'' with
  | nil => exact hsecond
  | cons hcuts _ ih =>
      obtain ⟨pieces', behind', rfl, hpieces, hbehind⟩ := hsecond.of_append
      exact .cons (hcuts.refine hpieces) (ih hbehind)

theorem Refines.textOf {tokens tokens' : List Token} (hrefines : Refines tokens tokens') :
    Token.textOf tokens' = Token.textOf tokens := by
  induction hrefines with
  | nil => rfl
  | cons hcuts _ ih => rw [Token.textOf_append, Token.textOf_cons, hcuts.textOf, ih]

/-- Every token of a refinement is a piece of one of the tokens. -/
theorem Refines.exists_cuts {tokens tokens' : List Token} (hrefines : Refines tokens tokens') {p : Token}
    (hp : p ∈ tokens') : ∃ t ∈ tokens, ∃ pieces, Cuts t pieces ∧ p ∈ pieces := by
  induction hrefines with
  | nil => simp at hp
  | @cons t rest pieces behind hcuts _ ih =>
      rcases List.mem_append.mp hp with hp | hp
      · exact ⟨t, by simp, pieces, hcuts, hp⟩
      · obtain ⟨u, hu, hpieces⟩ := ih hp
        exact ⟨u, by simp [hu], hpieces⟩

theorem Refines.kind_ne {tokens tokens' : List Token} (hrefines : Refines tokens tokens')
    (hkind : ∀ t ∈ tokens, t.kind ≠ .endOfFile) : ∀ t ∈ tokens', t.kind ≠ .endOfFile := by
  intro p hp
  obtain ⟨t, ht, pieces, hcuts, hmem⟩ := hrefines.exists_cuts hp
  exact hcuts.kind_ne (hkind t ht) p hmem

end SwiftObservation.Grammar
