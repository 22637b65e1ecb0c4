import SwiftObservation.Proofs.Grammar.Nesting.Basic

/-!
# Closing brackets paired with opening ones

What a well nested row closes it has opened itself, also if kinds that close nothing are put between its brackets. So the
closing brackets of such a row can be paired with opening ones: each one with a bracket of its own kind in front of it, and
no two with the same one. The leaves of trees that close what they open are such a row, lone brackets included.
-/

namespace SwiftObservation

variable {kinds front back inside : List TokenKind} {opener closer : TokenKind} {mate mate' : Nat → Nat}

/-- A closing bracket stands at the place. -/
def ClosesAt (kinds : List TokenKind) (i : Nat) : Prop := ∃ closer, kinds[i]? = some closer ∧ closer.isCloser = true

/-- At each place of a closing bracket `mate` names the place of an opening bracket of its kind in front of it, and no two
closing brackets have the same one. -/
structure Pairing (kinds : List TokenKind) (mate : Nat → Nat) : Prop where
  opens : ∀ {i closer}, kinds[i]? = some closer → closer.isCloser = true →
    mate i < i ∧ ∃ opener, kinds[mate i]? = some opener ∧ opener.closer? = some closer
  distinct : ∀ {i j}, ClosesAt kinds i → ClosesAt kinds j → mate i = mate j → i = j

namespace Pairing

theorem of_not_isCloser (hkinds : ∀ kind ∈ kinds, kind.isCloser = false) (mate : Nat → Nat) : Pairing kinds mate where
  opens := by
    intro i closer hat hcloser
    rw [hkinds closer (List.mem_of_getElem? hat)] at hcloser
    cases hcloser
  distinct := by
    rintro i j ⟨closer, hat, hcloser⟩
    rw [hkinds closer (List.mem_of_getElem? hat)] at hcloser
    cases hcloser

theorem lt (hpairing : Pairing kinds mate) {i : Nat} (hcloses : ClosesAt kinds i) : mate i < i := by
  obtain ⟨closer, hat, hcloser⟩ := hcloses
  exact (hpairing.opens hat hcloser).1

theorem append (hfront : Pairing front mate) (hback : Pairing back mate') :
    Pairing (front ++ back) fun i => if i < front.length then mate i else front.length + mate' (i - front.length) where
  opens := by
    intro i closer hat hcloser
    by_cases hi : i < front.length
    · rw [List.getElem?_append_left hi] at hat
      obtain ⟨hlt, opener, hopener, hcloses⟩ := hfront.opens hat hcloser
      simp only [hi, if_true]
      exact ⟨hlt, opener, by rw [List.getElem?_append_left (by omega), hopener], hcloses⟩
    · rw [List.getElem?_append_right (by omega)] at hat
      obtain ⟨hlt, opener, hopener, hcloses⟩ := hback.opens hat hcloser
      simp only [hi, if_false]
      refine ⟨by omega, opener, ?_, hcloses⟩
      rw [List.getElem?_append_right (by omega), Nat.add_sub_cancel_left, hopener]
  distinct := by
    -- Brackets of the front have their mates in the front, those of the back in the back.
    have hside {i : Nat} (hcloses : ClosesAt (front ++ back) i) : (i < front.length ∧ ClosesAt front i) ∨
        ¬ i < front.length ∧ ClosesAt back (i - front.length) := by
      obtain ⟨closer, hat, hcloser⟩ := hcloses
      by_cases hi : i < front.length
      · rw [List.getElem?_append_left hi] at hat
        exact .inl ⟨hi, closer, hat, hcloser⟩
      · rw [List.getElem?_append_right (by omega)] at hat
        exact .inr ⟨hi, closer, hat, hcloser⟩
    intro i j hi hj hsame
    rcases hside hi with ⟨hi, hci⟩ | ⟨hi, hci⟩ <;> rcases hside hj with ⟨hj, hcj⟩ | ⟨hj, hcj⟩ <;>
      simp only [hi, hj, if_true, if_false] at hsame
    · exact hfront.distinct hci hcj hsame
    · have hlt := hfront.lt hci
      omega
    · have hlt := hfront.lt hcj
      omega
    · have hplace := hback.distinct hci hcj (by omega)
      omega

/-- A row between a bracket and the one that closes it. -/
theorem enclosed (hinside : Pairing inside mate) (hcloses : opener.closer? = some closer) :
    Pairing (opener :: (inside ++ [closer])) fun i => if i = inside.length + 1 then 0 else mate (i - 1) + 1 where
  opens := by
    intro i kind hat hkind
    cases i with
    | zero =>
        obtain rfl : opener = kind := by simpa using hat
        rw [(TokenKind.isCloser_of_closer? hcloses).2.1] at hkind
        cases hkind
    | succ i =>
        rw [List.getElem?_cons_succ] at hat
        by_cases hi : i < inside.length
        · rw [List.getElem?_append_left hi] at hat
          obtain ⟨hlt, opener', hopener, hcloses'⟩ := hinside.opens hat hkind
          have hne : i + 1 ≠ inside.length + 1 := by omega
          simp only [hne, if_false, Nat.add_sub_cancel]
          refine ⟨by omega, opener', ?_, hcloses'⟩
          rw [List.getElem?_cons_succ, List.getElem?_append_left (by omega), hopener]
        · obtain rfl : i = inside.length := by
            have hlt := (List.getElem?_eq_some_iff.mp hat).1
            simp only [List.length_append, List.length_singleton] at hlt
            omega
          obtain rfl : closer = kind := by simpa using hat
          exact ⟨by simp, opener, by simp, hcloses⟩
  distinct := by
    have hplace {i : Nat} (hat : ClosesAt (opener :: (inside ++ [closer])) i) :
        i = inside.length + 1 ∨ i ≠ inside.length + 1 ∧ 0 < i ∧ ClosesAt inside (i - 1) := by
      obtain ⟨kind, hat, hkind⟩ := hat
      cases i with
      | zero =>
          obtain rfl : opener = kind := by simpa using hat
          rw [(TokenKind.isCloser_of_closer? hcloses).2.1] at hkind
          cases hkind
      | succ i =>
          rw [List.getElem?_cons_succ] at hat
          have hlt := (List.getElem?_eq_some_iff.mp hat).1
          simp only [List.length_append, List.length_singleton] at hlt
          by_cases hi : i < inside.length
          · rw [List.getElem?_append_left hi] at hat
            exact .inr ⟨by omega, by omega, kind, hat, hkind⟩
          · exact .inl (by omega)
    intro i j hi hj hsame
    rcases hplace hi with rfl | ⟨hi, hposi, hci⟩ <;> rcases hplace hj with rfl | ⟨hj, hposj, hcj⟩
    · rfl
    · simp [hj] at hsame
    · simp [hi] at hsame
    · simp only [hi, hj, if_false, Nat.add_right_cancel_iff] at hsame
      have hsame := hinside.distinct hci hcj hsame
      omega

end Pairing

/-- The second row is the first one with kinds that close nothing put anywhere into it. -/
inductive Padded : List TokenKind → List TokenKind → Prop where
  | nil : Padded [] []
  | same {kind : TokenKind} {row padded : List TokenKind} (rest : Padded row padded) : Padded (kind :: row) (kind :: padded)
  | pad {kind : TokenKind} {row padded : List TokenKind} (closes : kind.isCloser = false) (rest : Padded row padded) :
      Padded row (kind :: padded)

namespace Padded

variable {row row' padded padded' : List TokenKind} {kind : TokenKind}

theorem refl (row : List TokenKind) : Padded row row := by
  induction row with
  | nil => exact .nil
  | cons kind row ih => exact .same ih

theorem append (hrow : Padded row padded) (hrow' : Padded row' padded') : Padded (row ++ row') (padded ++ padded') := by
  induction hrow with
  | nil => exact hrow'
  | same _ ih => exact .same ih
  | pad hcloses _ ih => exact .pad hcloses ih

theorem trans (hfirst : Padded row padded) (hsecond : Padded padded padded') : Padded row padded' := by
  induction hsecond generalizing row with
  | nil => exact hfirst
  | same _ ih =>
      cases hfirst with
      | same hrest => exact .same (ih hrest)
      | pad hcloses hrest => exact .pad hcloses (ih hrest)
  | pad hcloses _ ih => exact .pad hcloses (ih hfirst)

theorem not_isCloser_of_nil (hrow : Padded [] padded) : ∀ kind ∈ padded, kind.isCloser = false := by
  generalize hnil : ([] : List TokenKind) = row at hrow
  induction hrow with
  | nil => simp
  | same => cases hnil
  | pad hcloses _ ih => exact List.forall_mem_cons.mpr ⟨hcloses, ih hnil⟩

/-- A kind of the row parts the padded one as it parts the row. -/
theorem of_append_cons (hrow : Padded (row ++ kind :: row') padded) :
    ∃ front back, padded = front ++ kind :: back ∧ Padded row front ∧ Padded row' back := by
  generalize hwhole : row ++ kind :: row' = whole at hrow
  induction hrow generalizing row with
  | nil => simp at hwhole
  | same hrest ih =>
      cases row with
      | nil =>
          obtain ⟨rfl, rfl⟩ := List.cons.inj hwhole
          exact ⟨[], _, rfl, .nil, hrest⟩
      | cons first row =>
          obtain ⟨rfl, hinner⟩ := List.cons.inj hwhole
          obtain ⟨front, back, rfl, hfront, hback⟩ := ih hinner
          exact ⟨first :: front, back, rfl, .same hfront, hback⟩
  | @pad extra _ _ hcloses _ ih =>
      obtain ⟨front, back, rfl, hfront, hback⟩ := ih hwhole
      exact ⟨extra :: front, back, rfl, .pad hcloses hfront, hback⟩

end Padded

/-- What a well nested row closes can be paired, whatever else stands between its brackets. -/
theorem WellNested.exists_pairing {row padded : List TokenKind} (hnested : WellNested row) (hpadded : Padded row padded) :
    ∃ mate, Pairing padded mate := by
  induction hnested generalizing padded with
  | nil => exact ⟨id, .of_not_isCloser hpadded.not_isCloser_of_nil id⟩
  | @pair opener closer inside behind hcloses _ _ ihinner ihouter =>
      have hfirst : Padded ([] ++ opener :: (inside ++ closer :: behind)) padded := hpadded
      obtain ⟨before, rest, rfl, hbefore, hrest⟩ := hfirst.of_append_cons
      obtain ⟨between, after, rfl, hbetween, hafter⟩ := hrest.of_append_cons
      obtain ⟨mate, hmate⟩ := ihinner hbetween
      obtain ⟨mate', hmate'⟩ := ihouter hafter
      have hall := (Pairing.of_not_isCloser hbefore.not_isCloser_of_nil id).append ((hmate.enclosed hcloses).append hmate')
      simp only [List.cons_append, List.append_assoc] at hall
      exact ⟨_, hall⟩

/-- The row closes nothing that it has not opened itself. -/
def ClosesOwn (kinds : List TokenKind) : Prop := ∃ row, WellNested row ∧ Padded row kinds

theorem ClosesOwn.exists_pairing (hcloses : ClosesOwn kinds) : ∃ mate, Pairing kinds mate := by
  obtain ⟨row, hnested, hpadded⟩ := hcloses
  exact hnested.exists_pairing hpadded

theorem padded_brackets (tokens : List Token) : Padded (Token.brackets tokens) (tokens.map (·.kind)) := by
  induction tokens with
  | nil => exact .nil
  | cons t rest ih =>
      cases hkind : t.kind.isBracket with
      | true =>
          have hbrackets : Token.brackets (t :: rest) = t.kind :: Token.brackets rest := by simp [Token.brackets, hkind]
          rw [hbrackets]
          exact .same ih
      | false =>
          have hbrackets : Token.brackets (t :: rest) = Token.brackets rest := by simp [Token.brackets, hkind]
          have hcloser : t.kind.isCloser = false := by
            rw [TokenKind.isBracket, Bool.or_eq_false_iff] at hkind
            exact hkind.2
          rw [hbrackets]
          exact .pad hcloser ih

theorem ClosesOwn.of_brackets {tokens : List Token} (hcloses : ClosesOwn (Token.brackets tokens)) :
    ClosesOwn (tokens.map (·.kind)) := by
  obtain ⟨row, hnested, hpadded⟩ := hcloses
  exact ⟨row, hnested, hpadded.trans (padded_brackets tokens)⟩

namespace Tree

mutual

/-- The brackets of a tree are its nesting and the lone brackets, which close nothing. -/
theorem padded_nesting (t : Tree) : Padded t.nesting (Token.brackets t.leaves) := by
  cases t with
  | leaf token => exact .refl _
  | absent => exact .nil
  | node label children =>
      rw [nesting]
      split
      next hlone =>
        obtain ⟨kind, hbrackets, -, hcloser⟩ := brackets_of_isLoneBracket hlone
        rw [hbrackets]
        exact .pad hcloser .nil
      next => exact padded_nestingOf children

theorem padded_nestingOf (trees : List Tree) : Padded (nestingOf trees) (Token.brackets (leavesOf trees)) := by
  cases trees with
  | nil => exact .nil
  | cons t rest =>
      rw [nestingOf, leavesOf, Token.brackets_append]
      exact (padded_nesting t).append (padded_nestingOf rest)

end

theorem NestedAll.closesOwn {trees : List Tree} (hall : NestedAll trees) :
    ClosesOwn (Token.brackets (leavesOf trees)) := ⟨nestingOf trees, hall.wellNested, padded_nestingOf trees⟩

end Tree

end SwiftObservation
