import Mathlib.Data.List.Forall2
import Mathlib.Data.List.TakeWhile
import SwiftObservation.Migration.Conversion
import SwiftObservation.Proofs.Grammar.Reading.Declarations

/-!
# Reading a source loses nothing

The leaves of a tree are the tokens that it was read from, up to the first end of the file, with operators cut where the
grammar cut them. Since cutting an operator keeps its text and the trivia around it, printing the tree of a source gives
the source back.
-/

namespace SwiftObservation

namespace Token

/-- The tokens with an end of the file supplied if they do not end in one. -/
def terminated (tokens : List Token) : List Token :=
  if tokens.getLast?.any (·.kind == .endOfFile) then tokens else tokens ++ [endOfFile]

/-- The tokens up to and including the first end of the file. -/
def throughEnd (tokens : List Token) : List Token :=
  tokens.takeWhile (·.kind != .endOfFile) ++ (tokens.find? (·.kind == .endOfFile)).toList

end Token

namespace Grammar

/-- The parser leaves a token as it is, or cuts an operator into pieces that have a text each. -/
def IsCutInto (t : Token) (pieces : List Token) : Prop :=
  (pieces = [t] ∨ (t.kind = .operator ∧ ∀ p ∈ pieces, p.text ≠ [])) ∧ IsPieces t pieces

theorem Refines.exists_groups {tokens tokens' : List Token} (hrefines : Refines tokens tokens') :
    ∃ groups, tokens' = groups.flatten ∧ List.Forall₂ IsCutInto tokens groups := by
  induction hrefines with
  | nil => exact ⟨[], rfl, .nil⟩
  | @cons t rest pieces behind hcuts _ ih =>
      obtain ⟨groups, rfl, hgroups⟩ := ih
      exact ⟨pieces :: groups, rfl, .cons ⟨hcuts.eq_or_operator, hcuts.isPieces⟩ hgroups⟩

theorem Cursor.sound_ofTokens (tokens : List Token) : (Cursor.ofTokens tokens).Sound where
  ending := by
    simp only [Cursor.ofTokens]
    cases hfind : tokens.find? (·.kind == .endOfFile) with
    | none => rfl
    | some t => simpa using List.find?_some hfind
  upcoming := by
    intro t ht
    simpa using List.mem_takeWhile_imp ht

theorem throughEnd_terminated (tokens : List Token) :
    Token.throughEnd (Token.terminated tokens) =
      (Cursor.ofTokens tokens).upcoming ++ [(Cursor.ofTokens tokens).ending] := by
  have hsupplied : (tokens ++ [Token.endOfFile]).find? (·.kind == .endOfFile) =
      some ((tokens.find? (·.kind == .endOfFile)).getD Token.endOfFile) := by
    rw [List.find?_append]
    cases tokens.find? (·.kind == .endOfFile) <;> rfl
  unfold Token.terminated
  split
  next hended =>
    obtain ⟨last, hlast, hkind⟩ := (Option.any_eq_true _ _).mp hended
    have hfound : (tokens.find? (·.kind == .endOfFile)).isSome :=
      List.find?_isSome.mpr ⟨last, List.mem_of_getLast? hlast, hkind⟩
    obtain ⟨t, ht⟩ := Option.isSome_iff_exists.mp hfound
    simp only [Token.throughEnd, Cursor.ofTokens, ht, Option.toList_some, Option.getD_some]
  next =>
    have hbefore : (tokens ++ [Token.endOfFile]).takeWhile (·.kind != .endOfFile) =
        tokens.takeWhile (·.kind != .endOfFile) := by
      rw [List.takeWhile_append]
      split
      next hall =>
        have hwhole := (List.takeWhile_prefix _).eq_of_length hall
        rw [hwhole]
        simp [Token.endOfFile]
      next => rfl
    simp only [Token.throughEnd, Cursor.ofTokens, hbefore, hsupplied, Option.toList_some]

/-- A source file is made of the tokens that come first and the end of the file. -/
theorem Yields.sourceFile_eq {g : Nonterminals} (hg : g.Reading) {c c' : Cursor} (hc : c.Sound) {t : Tree}
    (hrun : Yields (sourceFile g) c t c') :
    ∃ items, t = .node .sourceFile (items ++ [.leaf c.ending]) ∧ Refines c.upcoming (Tree.leavesOf items) := by
  simp only [sourceFile] at hrun
  obtain ⟨inside, c₁, hinside, hrun⟩ := yields_bind.mp hrun
  simp only [yields_advanceLeaf_bind, yields_pure] at hrun
  obtain ⟨rfl, rfl⟩ := hrun
  obtain ⟨hreads, hend⟩ := reads_items hg hc hinside
  have hnothing : c₁.upcoming = [] := (hreads.sound hc).upcoming_eq_nil (hend.mpr rfl)
  have hending : c₁.advance.1 = c.ending := by rw [Cursor.advance, hnothing, hreads.ending]
  refine ⟨inside, by rw [hending], ?_⟩
  simpa [hnothing] using hreads.upcoming

theorem yields_of_ofTokens {limit : Nat} {tokens : List Token} {t : Tree} (hparse : Tree.ofTokens limit tokens = .ok t) :
    ∃ c', Yields (sourceFile (nonterminals ((Cursor.ofTokens tokens).weight + 1) limit)) (Cursor.ofTokens tokens) t c' := by
  simp only [Tree.ofTokens, StateT.run', Functor.map, Except.map] at hparse
  split at hparse
  next => simp at hparse
  next result hrun =>
    obtain ⟨t', c'⟩ := result
    cases hparse
    exact ⟨c', hrun⟩

/-- The tree of a list of tokens, in terms of the cursor in front of them. -/
theorem ofTokens_eq {limit : Nat} {tokens : List Token} {t : Tree} (hparse : Tree.ofTokens limit tokens = .ok t) :
    ∃ items, t = .node .sourceFile (items ++ [.leaf (Cursor.ofTokens tokens).ending]) ∧
      Refines (Cursor.ofTokens tokens).upcoming (Tree.leavesOf items) := by
  obtain ⟨c', hrun⟩ := yields_of_ofTokens hparse
  exact hrun.sourceFile_eq (reading_nonterminals _ _) (Cursor.sound_ofTokens tokens)

theorem refines_leaves_of_ofTokens {limit : Nat} {tokens : List Token} {t : Tree}
    (hparse : Tree.ofTokens limit tokens = .ok t) :
    Refines (Token.throughEnd (Token.terminated tokens)) t.leaves := by
  obtain ⟨items, rfl, hrefines⟩ := ofTokens_eq hparse
  rw [throughEnd_terminated]
  simpa [Tree.leaves, Tree.leavesOf] using hrefines.append (.refl [(Cursor.ofTokens tokens).ending])

end Grammar

theorem Token.throughEnd_terminated_of_stream {limit : Nat} {source : Text} {tokens : List Token}
    (hstream : Token.stream limit source = .ok tokens) : Token.throughEnd (Token.terminated tokens) = tokens := by
  obtain ⟨front, last, rfl, hlast, hfront, -⟩ := Token.stream_covers hstream
  have hbefore : (front ++ [last]).takeWhile (·.kind != .endOfFile) = front := by
    rw [List.takeWhile_append_of_pos fun t ht => by simpa using (hfront t ht).kind_ne]
    simp [hlast]
  have hfound : (front ++ [last]).find? (·.kind == .endOfFile) = some last := by
    rw [List.find?_append, List.find?_eq_none.mpr fun t ht => by simpa using (hfront t ht).kind_ne]
    simp [hlast]
  simp only [Token.terminated, List.getLast?_concat, Option.any_some, hlast, beq_self_eq_true, ite_true,
    Token.throughEnd, hbefore, hfound, Option.toList_some]

/-- The tokens of a source and its tree: an accepted source is lexed and then parsed. -/
theorem Tree.ofSource_eq_ok {limits : Limits} {source : Text} {t : Tree} (hread : Tree.ofSource limits source = .ok t) :
    ∃ tokens, Token.stream limits.literals source = .ok tokens ∧ Tree.ofTokens limits.items tokens = .ok t := by
  unfold Tree.ofSource at hread
  split at hread
  next => simp at hread
  next tokens hstream =>
    split at hread
    next => simp at hread
    next t' hparse =>
      cases hread
      exact ⟨tokens, hstream, hparse⟩

theorem Tree.text_of_ofSource {limits : Limits} {source : Text} {t : Tree}
    (hread : Tree.ofSource limits source = .ok t) : t.text = source := by
  obtain ⟨tokens, hstream, hparse⟩ := Tree.ofSource_eq_ok hread
  obtain ⟨-, -, -, -, -, htext⟩ := Token.stream_covers hstream
  have hrefines := Grammar.refines_leaves_of_ofTokens hparse
  rw [Token.throughEnd_terminated_of_stream hstream] at hrefines
  rw [Tree.text, hrefines.textOf, htext]

/-- Parsing loses nothing. The leaves of a tree are the tokens it was read from, through the first end of the file, each
left as it is or, an operator, cut into its pieces; the end of the file is the last child of the root and no other leaf.
Printing the tree of a source gives the source back. -/
theorem Tree.reading_lossless :
    (∀ (limit : Nat) (tokens : List Token) (t : Tree), Tree.ofTokens limit tokens = .ok t →
      (∃ groups, t.leaves = groups.flatten ∧
        List.Forall₂ Grammar.IsCutInto (Token.throughEnd (Token.terminated tokens)) groups) ∧
      ∃ items last, t = .node .sourceFile (items ++ [.leaf last]) ∧ last.kind = .endOfFile ∧
        ∀ p ∈ Tree.leavesOf items, p.kind ≠ .endOfFile) ∧
    (∀ (limits : Limits) (source : Text) (t : Tree), Tree.ofSource limits source = .ok t → t.text = source) := by
  refine ⟨fun limit tokens t hparse => ⟨?_, ?_⟩, fun limits source t hread => Tree.text_of_ofSource hread⟩
  · exact (Grammar.refines_leaves_of_ofTokens hparse).exists_groups
  · have hsound := Grammar.Cursor.sound_ofTokens tokens
    obtain ⟨items, heq, hrefines⟩ := Grammar.ofTokens_eq hparse
    exact ⟨items, _, heq, hsound.ending, hrefines.kind_ne hsound.upcoming⟩

theorem exists_eq_ok_of_isSome {ε α : Type} {result : Except ε α} (hsome : result.toOption.isSome = true) :
    ∃ a, result = .ok a := by
  cases result with
  | error e => simp [Except.toOption] at hsome
  | ok a => exact ⟨a, rfl⟩

theorem exists_eq_ok_of_any {ε α : Type} {result : Except ε α} {p : α → Bool} (hany : result.toOption.any p = true) :
    ∃ a, result = .ok a ∧ p a = true := by
  cases result with
  | error e => simp [Except.toOption] at hany
  | ok a => exact ⟨a, rfl, hany⟩

/-- The operator that closes two generic argument lists at once is cut in two. -/
theorem Tree.reading_lossless_nestedArguments :
    ∃ tokens t, Token.stream 1 "var x: A<B<C>> = y".toList = .ok tokens ∧ Tree.ofTokens 9 tokens = .ok t ∧
      (∃ groups, t.leaves = groups.flatten ∧
        List.Forall₂ Grammar.IsCutInto (Token.throughEnd (Token.terminated tokens)) groups) ∧
      t.text = "var x: A<B<C>> = y".toList := by
  let limits : Limits := { literals := 1, items := 9, nodes := 0 }
  have hsome : (Tree.ofSource limits "var x: A<B<C>> = y".toList).toOption.isSome = true := by decide +kernel
  obtain ⟨t, hread⟩ := exists_eq_ok_of_isSome hsome
  obtain ⟨tokens, hstream, hparse⟩ := Tree.ofSource_eq_ok hread
  exact ⟨tokens, t, hstream, hparse, (Tree.reading_lossless.1 9 tokens t hparse).1,
    Tree.reading_lossless.2 limits _ t hread⟩

end SwiftObservation
