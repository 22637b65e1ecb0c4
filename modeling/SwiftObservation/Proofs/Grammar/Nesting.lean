import SwiftObservation.Proofs.Grammar.Lossless
import SwiftObservation.Proofs.Grammar.Nesting.Declarations

/-!
# Which accepted sources are well nested

Since every rule closes what it opens, lone brackets among the generic parameters are all that can put the brackets of
an accepted source out of order, and every one of them does.
-/

namespace SwiftObservation

namespace Grammar

theorem nested_sourceFile {g : Nonterminals} (hg : g.Nesting) {c c' : Cursor} {inside : List Tree} {ending : Token}
    (hkind : ending.kind.isBracket = false)
    (hrun : Yields (sourceFile g) c (.node .sourceFile (inside ++ [.leaf ending])) c') :
    Tree.Nested (.node .sourceFile (inside ++ [.leaf ending])) := by
  simp only [sourceFile] at hrun
  obtain ⟨read, _, hread, hrun⟩ := yields_bind.mp hrun
  simp only [yields_advanceLeaf_bind, yields_pure, Tree.node.injEq, true_and] at hrun
  obtain rfl : read = inside := List.append_inj_left' hrun.1 rfl
  apply Tree.NestedAll.node
  exact Tree.nestedAll_append.mpr ⟨nested_items hg hread, by simpa using Tree.nested_leaf hkind⟩

end Grammar

namespace Tree

/-- The brackets in front of the first end of the file are well nested exactly if no generic parameter is a lone
opening bracket. -/
theorem wellNested_tokens_iff {limit : Nat} {tokens : List Token} {t : Tree} (hparse : ofTokens limit tokens = .ok t) :
    WellNested (Token.brackets (tokens.takeWhile (·.kind != .endOfFile))) ↔
      ∀ s, Within s t → s.isLoneBracket = false := by
  obtain ⟨inside, rfl, hrefines⟩ := Grammar.ofTokens_eq hparse
  obtain ⟨c', hrun⟩ := Grammar.yields_of_ofTokens hparse
  have hending : (Grammar.Cursor.ofTokens tokens).ending.kind.isBracket = false := by
    rw [(Grammar.Cursor.sound_ofTokens tokens).ending]
    rfl
  have hnested := Grammar.nested_sourceFile (Grammar.nesting_nonterminals _ _) hending hrun
  have hbrackets : Token.brackets (tokens.takeWhile (·.kind != .endOfFile)) =
      Token.brackets (leaves (.node .sourceFile (inside ++ [.leaf (Grammar.Cursor.ofTokens tokens).ending]))) := by
    rw [leaves, leavesOf_append, Token.brackets_append, hrefines.brackets_eq]
    simp only [leavesOf, leaves, List.append_nil, Token.brackets_singleton_of_not hending]
    rfl
  rw [hbrackets]
  exact wellNested_brackets_iff hnested

theorem wellNested_tokens_iff_subscript :
    ∃ tokens t, Token.stream 1 "class A<B> { var x = [f(y)] }".toList = .ok tokens ∧ ofTokens 9 tokens = .ok t ∧
      (WellNested (Token.brackets (tokens.takeWhile (·.kind != .endOfFile))) ↔
        ∀ s, Within s t → s.isLoneBracket = false) := by
  let limits : Limits := { literals := 1, items := 9, nodes := 0 }
  have hsome : (ofSource limits "class A<B> { var x = [f(y)] }".toList).toOption.isSome = true := by decide +kernel
  obtain ⟨t, hread⟩ := exists_eq_ok_of_isSome hsome
  obtain ⟨tokens, hstream, hparse⟩ := ofSource_eq_ok hread
  exact ⟨tokens, t, hstream, hparse, wellNested_tokens_iff hparse⟩

/-- A parenthesis that stands for a generic parameter is never closed, and still the source has a tree. -/
theorem exists_unclosed_parameter :
    ∃ tokens t, Token.stream 1 "class A<(> {}".toList = .ok tokens ∧ ofTokens 9 tokens = .ok t ∧
      ¬ WellNested (Token.brackets (tokens.takeWhile (·.kind != .endOfFile))) := by
  let limits : Limits := { literals := 1, items := 9, nodes := 0 }
  have hsome : (ofSource limits "class A<(> {}".toList).toOption.isSome = true := by decide +kernel
  have hkinds : (Token.stream 1 "class A<(> {}".toList).toOption.map
      (fun tokens => Token.brackets (tokens.takeWhile (·.kind != .endOfFile))) =
        some [.leftParen, .leftBrace, .rightBrace] := by decide +kernel
  obtain ⟨t, hread⟩ := exists_eq_ok_of_isSome hsome
  obtain ⟨tokens, hstream, hparse⟩ := ofSource_eq_ok hread
  refine ⟨tokens, t, hstream, hparse, fun hnested => ?_⟩
  rw [show Token.stream 1 "class A<(> {}".toList = .ok tokens from hstream] at hkinds
  simp only [Except.toOption, Option.map_some, Option.some.injEq] at hkinds
  have hcount := hnested.countP_eq
  rw [hkinds] at hcount
  exact absurd hcount (by decide)

end Tree

end SwiftObservation
