import SwiftObservation.Proofs.Grammar.Positions

/-!
# Brackets that nothing closes

An unclosed bracket is blamed at the end of the file, and all that was read behind it are trees that close what they open.
Brackets are never cut, so what holds of the leaves of these trees holds of the tokens themselves: their closing brackets
can all be paired with opening ones behind the bracket, and none of them is left to close it.
-/

namespace SwiftObservation

namespace Grammar

/-- Only operators are cut, and no piece of an operator is a bracket. -/
theorem Cuts.eq_of_isBracket {t p : Token} {pieces : List Token} (hcuts : Cuts t pieces) (hp : p ∈ pieces)
    (hbracket : p.kind.isBracket = true) : pieces = [t] := by
  rcases hcuts.eq_or_operator with hwhole | ⟨hoperator, -⟩
  · exact hwhole
  · have hmem : p.kind ∈ Token.brackets pieces := List.mem_filter.mpr ⟨List.mem_map_of_mem hp, hbracket⟩
    rw [hcuts.brackets_eq, Token.brackets_singleton_of_not (by rw [hoperator]; rfl)] at hmem
    simp at hmem

/-- A bracket among the pieces of some tokens is one of the tokens. -/
theorem Refines.of_bracket {tokens front' back' : List Token} {t : Token} (hrefines : Refines tokens (front' ++ t :: back'))
    (hbracket : t.kind.isBracket = true) : ∃ front back, tokens = front ++ t :: back ∧ Refines back back' := by
  generalize hpieced : front' ++ t :: back' = pieced at hrefines
  induction hrefines generalizing front' with
  | nil => simp at hpieced
  | @cons u rest pieces behind hcuts hbehind ih =>
      rcases List.append_eq_append_iff.mp hpieced with ⟨_ | ⟨first, more⟩, hpieces, hmore⟩ | ⟨more, rfl, hmore⟩
      · have hnext : [] ++ t :: back' = behind := hmore
        obtain ⟨front, back, rfl, hback⟩ := ih hnext
        exact ⟨u :: front, back, rfl, hback⟩
      · obtain ⟨rfl, rfl⟩ := List.cons.inj hmore
        have hwhole := hcuts.eq_of_isBracket (p := t) (by simp [hpieces]) hbracket
        rw [hpieces, List.append_eq_singleton_iff] at hwhole
        obtain ⟨rfl, hsingle⟩ | ⟨-, hnone⟩ := hwhole
        · obtain ⟨rfl, rfl⟩ := List.cons.inj hsingle
          exact ⟨[], rest, rfl, hbehind⟩
        · simp at hnone
      · obtain ⟨front, back, rfl, hback⟩ := ih hmore.symm
        exact ⟨u :: front, back, rfl, hback⟩

end Grammar

namespace Tree

/-- A bracket that is blamed for not being closed is an opening bracket in front of the first end of the file, and between
the two every closing bracket can be paired with an opening one of its own kind in front of it, no two with the same. -/
theorem pairing_behind_unclosed {limit : Nat} {tokens : List Token} {opener : Token}
    (hparse : ofTokens limit tokens = .error (.unclosed opener)) :
    opener.kind.isOpener = true ∧
      ∃ front back, tokens.takeWhile (·.kind != .endOfFile) = front ++ opener :: back ∧
        ∃ mate, Pairing (back.map (·.kind)) mate := by
  cases Grammar.blames_of_ofTokens hparse with
  | unclosed hopen =>
      obtain ⟨front', back', hrefines, hopens, hbehind⟩ := hopen
      obtain ⟨front, back, hsplit, hback⟩ := hrefines.of_bracket (by simp [TokenKind.isBracket, hopens])
      rw [hback.brackets_eq] at hbehind
      exact ⟨hopens, front, back, hsplit, hbehind.of_brackets.exists_pairing⟩

/-- The first brace is blamed. Behind it stand a lone parenthesis, which nothing closes either, and brackets that are
closed. -/
theorem pairing_behind_unclosed_brace :
    ∃ tokens opener, Token.stream 1 "\x7b class A<(> \x7b f(x) \x7d [1]".toList = .ok tokens ∧
      ofTokens 9 tokens = .error (.unclosed opener) ∧ opener.position = ⟨1, 1⟩ ∧ opener.kind.isOpener = true ∧
      ∃ front back, tokens.takeWhile (·.kind != .endOfFile) = front ++ opener :: back ∧
        ∃ mate, Pairing (back.map (·.kind)) mate := by
  obtain ⟨e, hread, hfirst⟩ := exists_eq_error_of_match (r := ofSource ⟨1, 9, 0⟩ "\x7b class A<(> \x7b f(x) \x7d [1]".toList)
    (p := fun | .grammatical (.unclosed opener) => opener.position == ⟨1, 1⟩ | _ => false) (by decide +kernel)
  obtain ⟨fault, rfl, -⟩ | ⟨fault, tokens, rfl, hstream, hparse⟩ := ofSource_eq_error hread
  · cases hfirst
  · cases fault with
    | unclosed opener => exact ⟨tokens, opener, hstream, hparse, beq_iff_eq.mp hfirst, pairing_behind_unclosed hparse⟩
    | _ => cases hfirst

end Tree

end SwiftObservation
