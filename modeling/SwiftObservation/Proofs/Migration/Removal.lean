import SwiftObservation.Proofs.Grammar.Lossless
import SwiftObservation.Proofs.Grammar.Shape.Declarations
import SwiftObservation.Proofs.Migration.Following.Variables
import SwiftObservation.Proofs.Token.Comments
import SwiftObservation.Proofs.Tree.Edge
import SwiftObservation.Proofs.Tree.Within

/-!
# What is lost with an attribute

Attributes that go leave their trivia to the next token that stays, and on the way the trivia is trimmed: a line break and
an indentation go wherever a line would be left empty. Nothing but blanks is trimmed. So texts are compared by what is
dense in them, their characters that are no blanks, and tokens without the trivia in front of them.
-/

namespace SwiftObservation

open SwiftObservation.Tree

namespace Text

/-- The characters of the text that are no blanks. -/
def dense (s : Text) : Text := s.filter (!isBlank ·)

@[simp] theorem dense_nil : dense [] = [] := rfl

@[simp] theorem dense_append (front back : Text) : dense (front ++ back) = dense front ++ dense back :=
  List.filter_append front back

theorem dense_of_all_isBlank {s : Text} (hs : s.all isBlank = true) : dense s = [] := by
  simpa [dense, List.filter_eq_nil_iff] using hs

/-- Blanks at the beginning do not show in what is dense. -/
@[simp] theorem dense_dropWhile_isBlank (s : Text) : dense (s.dropWhile isBlank) = dense s := by
  conv_rhs => rw [← List.takeWhile_append_dropWhile (p := isBlank) (l := s), dense_append]
  rw [dense_of_all_isBlank List.all_takeWhile, List.nil_append]

theorem exists_dropEndWhile (p : Char → Bool) (s : Text) : ∃ gone, s = s.dropEndWhile p ++ gone ∧ gone.all p = true := by
  refine ⟨(s.reverse.takeWhile p).reverse, ?_, ?_⟩
  · rw [dropEndWhile, ← List.reverse_append, List.takeWhile_append_dropWhile, List.reverse_reverse]
  · rw [List.all_reverse, List.all_takeWhile]

end Text

namespace Trivia

theorem isBlank_of_isIndent {c : Char} (hc : isIndent c = true) : Text.isBlank c = true := by
  simp only [isIndent, Bool.or_eq_true, beq_iff_eq] at hc
  rcases hc with rfl | rfl <;> decide

theorem isBlank_of_isLineBreak {c : Char} (hc : Text.isLineBreak c = true) : Text.isBlank c = true := by
  simp only [Text.isLineBreak, Bool.or_eq_true, beq_iff_eq] at hc
  rcases hc with rfl | rfl <;> decide

/-- Only line breaks go. -/
theorem exists_lineBreak (s : Text) : ∃ gone, s = dropLineBreak s ++ gone ∧ gone.all Text.isLineBreak = true := by
  unfold dropLineBreak
  split
  next rest hreverse => exact ⟨['\r', '\n'], by simpa using congrArg List.reverse hreverse, by decide⟩
  next rest _ hreverse => exact ⟨['\n'], by simpa using congrArg List.reverse hreverse, by decide⟩
  next rest hreverse => exact ⟨['\r'], by simpa using congrArg List.reverse hreverse, by decide⟩
  next => exact ⟨[], by simp, rfl⟩

theorem dense_dropLineBreak (s : Text) : (dropLineBreak s).dense = s.dense := by
  obtain ⟨gone, hparts, hbreaks⟩ := exists_lineBreak s
  have hblank : gone.all Text.isBlank = true := by
    rw [List.all_eq_true] at hbreaks ⊢
    exact fun c hc => isBlank_of_isLineBreak (hbreaks c hc)
  conv_rhs => rw [hparts, Text.dense_append, Text.dense_of_all_isBlank hblank, List.append_nil]

theorem dense_dropEndWhile_isIndent (s : Text) : (s.dropEndWhile isIndent).dense = s.dense := by
  obtain ⟨gone, hparts, hindent⟩ := Text.exists_dropEndWhile isIndent s
  have hblank : gone.all Text.isBlank = true := by
    rw [List.all_eq_true] at hindent ⊢
    exact fun c hc => isBlank_of_isIndent (hindent c hc)
  conv_rhs => rw [hparts, Text.dense_append, Text.dense_of_all_isBlank hblank, List.append_nil]

/-- Trivia that moves loses blanks only. -/
@[simp] theorem dense_mergeLeading (removed following : Text) :
    (mergeLeading removed following).dense = removed.dense ++ following.dense := by
  unfold mergeLeading
  split
  · rw [Text.dense_append, dense_dropLineBreak, dense_dropEndWhile_isIndent]
  · rw [Text.dense_append]

end Trivia

/-- The token without the trivia in front of it. -/
def Token.unled (t : Token) : Token := { t with leading := [] }

namespace Tree

/-- The trivia in front of the first token. -/
def leading (t : Tree) : Text := (t.first?.map (·.leading)).getD []

/-- The trivia behind the last token. -/
def trailing (t : Tree) : Text := (t.last?.map (·.trailing)).getD []

theorem leavesOf_singleton (t : Tree) : leavesOf [t] = t.leaves := by
  rw [leavesOf, leavesOf, List.append_nil]

end Tree

namespace Migration

variable {doomed : Tree → Bool} {t decl : Tree} {trees found rest : List Tree}

/-- What is dense in the carried trivia. -/
def carriedDense (carried : Option Text) : Text := (carried.getD []).dense

/-- What is dense in what stays of an attribute: all of it, or only the trivia around it. -/
def residue (doomed : Tree → Bool) (t : Tree) : Text :=
  if doomed t then t.leading.dense ++ t.trailing.dense else t.text.dense

theorem carriedDense_carry (carried : Option Text) (t : Tree) :
    carriedDense (some (carry carried t)) = carriedDense carried ++ t.leading.dense ++ t.trailing.dense := by
  cases carried <;> simp [carriedDense, carry, leading, trailing]

/-- Trivia that is delivered joins what is dense in the trees, and only the trivia in front of a token changes. -/
theorem dense_deliver (carried : Option Text) (htrees : leavesOf trees ≠ []) :
    (Token.textOf (leavesOf (deliver carried trees))).dense =
        carriedDense carried ++ (Token.textOf (leavesOf trees)).dense ∧
      (leavesOf (deliver carried trees)).map Token.unled = (leavesOf trees).map Token.unled := by
  cases carried with
  | none => exact ⟨rfl, rfl⟩
  | some text =>
      obtain ⟨token, rest, heq, hchanged⟩ := leavesOf_mapFirstOf? (f := takeUp text) htrees
      rw [deliver, hchanged, heq]
      constructor
      · simp [carriedDense, takeUp, Token.fullText]
      · rfl

/-- The attributes that stay and what follows them, where trivia is carried to the first of them. -/
theorem dense_dropFrom (carried : Option Text) (hfound : ∀ t ∈ found, t.leaves ≠ []) (hrest : leavesOf rest ≠ []) :
    (Token.textOf (leavesOf ((dropFrom doomed carried found).1 ++ deliver (dropFrom doomed carried found).2 rest))).dense =
        carriedDense carried ++ found.flatMap (residue doomed) ++ (Token.textOf (leavesOf rest)).dense ∧
      (leavesOf ((dropFrom doomed carried found).1 ++ deliver (dropFrom doomed carried found).2 rest)).map Token.unled =
        (leavesOf (found.filter (!doomed ·) ++ rest)).map Token.unled := by
  induction found generalizing carried with
  | nil => simpa [dropFrom] using dense_deliver carried hrest
  | cons t found ih =>
      have hmore := fun s hs => hfound s (List.mem_cons_of_mem t hs)
      rw [dropFrom, List.flatMap_cons, residue]
      split
      next hdoomed =>
        obtain ⟨htext, htokens⟩ := ih (some (carry carried t)) hmore
        rw [htext, htokens, carriedDense_carry, List.filter_cons_of_neg (by simp [hdoomed])]
        exact ⟨by simp, rfl⟩
      next hkept =>
        have hsome : leavesOf [t] ≠ [] := by rw [leavesOf_singleton]; exact hfound t (by simp)
        obtain ⟨hfirst, hfirst'⟩ := dense_deliver carried hsome
        obtain ⟨htext, htokens⟩ := ih none hmore
        rw [leavesOf_singleton] at hfirst hfirst'
        rw [List.filter_cons_of_pos (by simpa using hkept), List.append_assoc, leavesOf_append, Token.textOf_append,
          Text.dense_append, hfirst, htext, List.map_append, hfirst', htokens, List.cons_append, leavesOf, List.map_append]
        exact ⟨by simp [carriedDense, Tree.text], rfl⟩

theorem dropFrom_of_not_any (hnone : ¬ found.any doomed = true) : dropFrom doomed none found = (found, none) := by
  induction found with
  | nil => rfl
  | cons t found ih =>
      rw [List.any_cons, Bool.or_eq_true, not_or] at hnone
      rw [dropFrom, if_neg hnone.1, ih hnone.2]
      rfl

/-- A declaration without doomed attributes needs no case of its own: nothing is carried through it. -/
theorem dropAttributes_node (doomed : Tree → Bool) (label : Label) (found rest : List Tree) :
    dropAttributes doomed (.node label (.node .attributes found :: rest)) =
      .node label (.node .attributes (dropFrom doomed none found).1 :: deliver (dropFrom doomed none found).2 rest) := by
  simp only [dropAttributes]
  split
  next => rfl
  next hnone =>
    rw [dropFrom_of_not_any hnone]
    rfl

/-- The attributes of a declaration of variables and what stands behind them all have tokens. -/
theorem Shaped.variables_leaves (hdecl : Shaped (.node .variableDecl trees)) :
    ∃ found rest, trees = .node .attributes found :: rest ∧ (∀ t ∈ found, t.leaves ≠ []) ∧ leavesOf rest ≠ [] := by
  obtain ⟨found, modifiers, keyword, bindings, rfl, -, -⟩ := hdecl.admits
  refine ⟨found, _, rfl, fun t ht => ?_, ?_⟩
  · have hattributes : Shaped (.node .attributes found) := hdecl.of_mem (by simp)
    obtain ⟨parts, rfl⟩ := exists_of_is (hattributes.admits t ht)
    obtain ⟨sign, name, args, rfl, -, -⟩ := (hattributes.of_mem ht).admits
    simp [leaves, leavesOf]
  · simp [leaves, leavesOf]

/-- Removing attributes loses only them and blanks: of an attribute that stays everything that is dense is left, of one
that goes what is dense in the trivia around it, and of what stands behind the attributes everything again, in this order.
The tokens that stay are the ones of the attributes that stay and those behind them, and only trivia in front of them
changes. -/
theorem dense_text_dropAttributes (doomed : Tree → Bool) (hshaped : decl.Shaped) (hdecl : decl.is .variableDecl = true) :
    ∃ found rest, decl = .node .variableDecl (.node .attributes found :: rest) ∧
      (dropAttributes doomed decl).text.dense =
        found.flatMap (fun t => if doomed t then t.leading.dense ++ t.trailing.dense else t.text.dense) ++
          (Token.textOf (leavesOf rest)).dense ∧
      (dropAttributes doomed decl).leaves.map Token.unled =
        (leavesOf (found.filter (!doomed ·) ++ rest)).map Token.unled := by
  obtain ⟨children, rfl⟩ := exists_of_is hdecl
  obtain ⟨found, rest, rfl, hfound, hrest⟩ := Shaped.variables_leaves hshaped
  refine ⟨found, rest, rfl, ?_⟩
  rw [Tree.text, dropAttributes_node, leaves, leavesOf, leaves, ← leavesOf_append]
  exact dense_dropFrom none hfound hrest

/-- Three of four attributes go. The comments around them move to the attribute that stays and to the keyword. -/
theorem dense_text_dropAttributes_published :
    ∃ decl, decl.Shaped ∧ decl.is .variableDecl = true ∧
      decl.text = "\n  // a\n  @Published /* b */ @Published(2)/* c */\n  @A(1) // d\n  @Published // e\n  var x = 1".toList ∧
      (dropAttributes (isNamed publishedName) decl).text =
        "\n  // a\n  /* b */ /* c */\n  @A(1) // d\n  // e\n  var x = 1".toList ∧
      ∃ found rest, decl = .node .variableDecl (.node .attributes found :: rest) ∧
        (dropAttributes (isNamed publishedName) decl).text.dense =
          found.flatMap (fun t =>
            if isNamed publishedName t then t.leading.dense ++ t.trailing.dense else t.text.dense) ++
            (Token.textOf (leavesOf rest)).dense ∧
        (dropAttributes (isNamed publishedName) decl).leaves.map Token.unled =
          (leavesOf (found.filter (!isNamed publishedName ·) ++ rest)).map Token.unled := by
  have hany : (Tree.ofSource .standard
      "class C \x7b\n  // a\n  @Published /* b */ @Published(2)/* c */\n  @A(1) // d\n  @Published // e\n  var x = 1\x7d".toList
      ).toOption.any (fun t => t.subtrees.any fun decl => decl.is .variableDecl &&
        decl.text ==
          "\n  // a\n  @Published /* b */ @Published(2)/* c */\n  @A(1) // d\n  @Published // e\n  var x = 1".toList &&
        (dropAttributes (isNamed publishedName) decl).text ==
          "\n  // a\n  /* b */ /* c */\n  @A(1) // d\n  // e\n  var x = 1".toList) = true := by
    decide +kernel
  obtain ⟨t, hread, hdecls⟩ := exists_eq_ok_of_any hany
  obtain ⟨decl, hmem, hchecked⟩ := List.any_eq_true.mp hdecls
  rw [Bool.and_eq_true, Bool.and_eq_true, beq_iff_eq, beq_iff_eq] at hchecked
  obtain ⟨⟨hdecl, hbefore⟩, hafter⟩ := hchecked
  have hshaped : decl.Shaped := (Tree.shaped_of_ofSource hread).of_within (mem_subtrees_iff.mp hmem)
  exact ⟨decl, hshaped, hdecl, hbefore, hafter, dense_text_dropAttributes (isNamed publishedName) hshaped hdecl⟩

end Migration

end SwiftObservation
