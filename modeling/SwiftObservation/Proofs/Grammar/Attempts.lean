import SwiftObservation.Proofs.Grammar.Condition

/-!
# Attempts that are given up

Whether an angle bracket opens generic arguments is found out by trying. What the attempt takes in before it is given up may
be whole declarations in brackets, and only the place of the cursor is brought back explicitly. That nothing else is left
behind has two reasons: all that is read on the way is a refinement of the tokens to come, so that moving back leaves them
there, cut but otherwise as they were; and types switch no condition, since brackets around arguments bring back what was
remembered in front of them.
-/

namespace SwiftObservation.Grammar

variable {tokens : List Token} {c c' : Cursor}

/-! ### States of the parser -/

/-- A state that the parser may come to. This is all that rules do to a cursor: they take a token, split an operator, switch
the condition, or move back to a state that they were in. -/
inductive Cursor.Reached (tokens : List Token) : Cursor → Prop where
  | start : Reached tokens (.ofTokens tokens)
  | advance {c : Cursor} (hc : Reached tokens c) : Reached tokens c.advance.2
  | splitOff {c : Cursor} (hc : Reached tokens c) : Reached tokens c.splitOff.2
  | setCondition {c : Cursor} (hc : Reached tokens c) (inCondition : Bool) : Reached tokens { c with inCondition }
  | rewindTo {start c : Cursor} (hstart : Reached tokens start) (hc : Reached tokens c) : Reached tokens (start.rewindTo c)

/-- The end of the file is neither among the tokens taken nor among those to come. -/
def Cursor.EndsLast (c : Cursor) : Prop :=
  c.ending.kind = .endOfFile ∧ (∀ t ∈ c.taken, t.kind ≠ .endOfFile) ∧ ∀ t ∈ c.upcoming, t.kind ≠ .endOfFile

theorem Cursor.EndsLast.advance (hc : c.EndsLast) : c.advance.2.EndsLast := by
  unfold Cursor.advance
  split
  next => exact hc
  next t rest hupcoming =>
    obtain ⟨hending, htaken, hcoming⟩ := hc
    rw [hupcoming] at hcoming
    obtain ⟨ht, hrest⟩ := List.forall_mem_cons.mp hcoming
    exact ⟨hending, List.forall_mem_cons.mpr ⟨ht, htaken⟩, hrest⟩

theorem Cursor.EndsLast.splitOff (hc : c.EndsLast) : c.splitOff.2.EndsLast := by
  unfold Cursor.splitOff
  split
  next => exact hc
  next t rest hupcoming =>
    split
    next => exact hc.advance
    next =>
      obtain ⟨hending, htaken, hcoming⟩ := hc
      rw [hupcoming] at hcoming
      obtain ⟨ht, hrest⟩ := List.forall_mem_cons.mp hcoming
      exact ⟨hending, List.forall_mem_cons.mpr ⟨ht, htaken⟩,
        List.forall_mem_cons.mpr ⟨TokenKind.ofOperator_ne_endOfFile _, hrest⟩⟩

theorem Cursor.EndsLast.rewindTo (start : Cursor) (hc : c.EndsLast) : (start.rewindTo c).EndsLast := by
  obtain ⟨hending, htaken, hcoming⟩ := hc
  refine ⟨hending, fun t ht => htaken t (List.mem_of_mem_drop ht), List.forall_mem_append.mpr ⟨fun t ht => ?_, hcoming⟩⟩
  exact htaken t (List.mem_of_mem_take (List.mem_reverse.mp ht))

theorem Cursor.Reached.endsLast (hc : c.Reached tokens) : c.EndsLast := by
  induction hc with
  | start =>
      have hsound := Cursor.sound_ofTokens tokens
      exact ⟨hsound.ending, fun t ht => absurd ht List.not_mem_nil, hsound.upcoming⟩
  | advance _ ih => exact ih.advance
  | splitOff _ ih => exact ih.splitOff
  | setCondition _ _ ih => exact ih
  | rewindTo _ _ _ ih => exact ih.rewindTo _

theorem Cursor.Reached.sound (hc : c.Reached tokens) : c.Sound := ⟨hc.endsLast.1, hc.endsLast.2.2⟩

/-! ### Generic arguments -/

/-- An attempt at generic arguments that is given up leaves the place of the cursor, the tokens in front of it and the
condition as they were. Of the tokens behind it, it leaves each as it was, or an operator cut into pieces that follow one
another from where it stood and have its text and its outer trivia. -/
theorem unchanged_of_givenUp (fuel limit : Nat) (hc : c.Reached tokens)
    (hrun : Yields (genericArgs? (nonterminals fuel limit)) c none c') :
    c'.taken = c.taken ∧ c'.inCondition = c.inCondition ∧ c'.ending = c.ending ∧
      ∃ groups, c'.upcoming = groups.flatten ∧ List.Forall₂ IsCutInto c.upcoming groups := by
  have hreads := reads_genericArgs? (reading_nonterminals fuel limit) hc.sound hrun
  refine ⟨hreads.taken, ?_, hreads.ending, hreads.upcoming.exists_groups⟩
  exact keeps_genericArgs? (switching_nonterminals fuel limit).type_keeps _ _ _ hrun

/-- The attempt takes in a block with a condition that is left open and cuts an operator before it is given up. -/
theorem unchanged_of_givenUp_cut :
    ∃ tokens c c', Token.stream 1 "A<[\x7b if x \x7d], B<<C".toList = .ok tokens ∧ c.Reached tokens ∧
      Yields (genericArgs? (nonterminals 40 9)) c none c' ∧ c'.upcoming.length = c.upcoming.length + 1 ∧
      c'.taken = c.taken ∧ c'.inCondition = c.inCondition ∧ c'.ending = c.ending ∧
      ∃ groups, c'.upcoming = groups.flatten ∧ List.Forall₂ IsCutInto c.upcoming groups := by
  have hstart : (Token.stream 1 "A<[\x7b if x \x7d], B<<C".toList).toOption.any (fun tokens =>
      (genericArgs? (nonterminals 40 9) { (Cursor.ofTokens tokens).advance.2 with inCondition := true }).toOption.any
        fun (found, c') => found.isNone &&
          c'.upcoming.length == (Cursor.ofTokens tokens).advance.2.upcoming.length + 1) = true := by
    decide +kernel
  obtain ⟨tokens, hstream, hany⟩ := exists_eq_ok_of_any hstart
  obtain ⟨⟨found, c'⟩, hrun, hcut⟩ := exists_eq_ok_of_any hany
  simp only [Bool.and_eq_true, Option.isNone_iff_eq_none, beq_iff_eq] at hcut
  obtain ⟨rfl, hlength⟩ := hcut
  have hreached : Cursor.Reached tokens { (Cursor.ofTokens tokens).advance.2 with inCondition := true } :=
    .setCondition (.advance .start) true
  exact ⟨tokens, _, c', hstream, hreached, hrun, hlength, unchanged_of_givenUp 40 9 hreached hrun⟩

end SwiftObservation.Grammar
