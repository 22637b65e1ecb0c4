import SwiftObservation.Proofs.Grammar.Positions

/-!
# Nothing but documented complaints

A source has no tree for one of five reasons: a closing bracket closes nothing, an opening bracket or the angle bracket in
front of generic parameters is not closed, or the keyword of a type declaration has no name or no body behind it. That an
operand is asked for where none can stand is a complaint too, but one that cannot come up: a primary makes it exactly at a
closing bracket or at the end of the file, no rule recovers from it, and no source is blamed for it.
-/

namespace SwiftObservation

/-- The complaints that a list of tokens can give rise to, about a token that deserves them. -/
def ParseError.IsDocumented : ParseError → Prop
  | unbalanced closer => closer.kind.isCloser = true
  | unclosed opener => opener.kind.isOpener = true
  | unclosedParameters opener => opener.isOperatorFrom '<' = true
  | missingName keyword found => Grammar.OpensType keyword ∧ found.kind ≠ .identifier
  | missingBody keyword found => Grammar.OpensType keyword ∧ found.kind ≠ .leftBrace
  | unexpected _ | tooDeep | endless => False

namespace Grammar

variable {limit : Nat} {c : Cursor} {e : ParseError} {g : Nonterminals}

theorem Cursor.LeavesOpen.isOpener {t : Token} (hopen : c.LeavesOpen t) : t.kind.isOpener = true := by
  obtain ⟨-, -, -, hopens, -⟩ := hopen
  exact hopens

/-- What a rule is blamed for is documented, and about a token that it meets, unless items and types stand too deep. -/
theorem Blames.documented (hblames : Blames limit c e) :
    (e.IsDocumented ∧ ∃ t, e.token? = some t ∧ c.Meets t) ∨ (e = .tooDeep ∧ limit ≤ c.weight) := by
  cases hblames with
  | unbalanced hmet hcloses => exact .inl ⟨hcloses, _, rfl, hmet⟩
  | unclosed hopen => exact .inl ⟨hopen.isOpener, _, rfl, hopen.meets⟩
  | unclosedParameters hmet hangle => exact .inl ⟨hangle, _, rfl, hmet⟩
  | missingName hmet hopens hunnamed => exact .inl ⟨⟨hopens, hunnamed⟩, _, rfl, hmet⟩
  | missingBody hmet hopens hunopened => exact .inl ⟨⟨hopens, hunopened⟩, _, rfl, hmet⟩
  | tooDeep hdeep => exact .inr ⟨rfl, hdeep⟩

/-! ### Operands where none can stand -/

theorem Cursor.kind_of_atBoundary (hboundary : c.atBoundary = true) :
    c.current.kind = .endOfFile ∨ c.current.kind = .rightParen ∨ c.current.kind = .rightBracket ∨
      c.current.kind = .rightBrace := by
  simp only [Cursor.atBoundary, Bool.or_eq_true, beq_iff_eq] at hboundary
  cases hkind : c.current.kind <;> simp_all [TokenKind.isCloser]

theorem fails_plainPrimary (hboundary : c.atBoundary = true) : Fails (plainPrimary g) c (.unexpected c.current) := by
  have himplicit : c.atImplicitMember = false := by
    rcases c.kind_of_atBoundary hboundary with hkind | hkind | hkind | hkind <;> simp [Cursor.atImplicitMember, hkind]
  simp only [plainPrimary, fails_get_bind]
  rcases c.kind_of_atBoundary hboundary with hkind | hkind | hkind | hkind <;> simp [hkind, himplicit, hboundary]

/-- An operand that is asked for at a boundary fails for this and nothing else. -/
theorem fails_primary (hboundary : c.atBoundary = true) : Fails (primary g) c (.unexpected c.current) := by
  have hplain := fails_plainPrimary (g := g) hboundary
  simp only [primary, fails_get_bind]
  rcases c.kind_of_atBoundary hboundary with hkind | hkind | hkind | hkind <;> simpa [hkind] using hplain

theorem modifierLengths_eq_nil {tokens : List Token} (hstarts : Cursor.startsModifier tokens = false) :
    Cursor.modifierLengths tokens = [] := by
  fun_cases Cursor.modifierLengths tokens <;> simp_all

theorem Cursor.modifierRun_of_atBoundary (hboundary : c.atBoundary = true) : c.modifierRun = [] := by
  have hstarts : Cursor.startsModifier c.upcoming = false := by
    cases hupcoming : c.upcoming with
    | nil => rfl
    | cons t rest =>
        have hcurrent : t = c.current := by simp [Cursor.current, Cursor.peek, hupcoming]
        rcases c.kind_of_atBoundary hboundary with hkind | hkind | hkind | hkind <;>
          simp [Cursor.startsModifier, Token.isName, hcurrent, hkind]
  simp [Cursor.modifierRun, modifierLengths_eq_nil hstarts]

/-- No declaration begins at a boundary, so an item that is asked for there fails as its operand does. -/
theorem fails_item (hboundary : c.atBoundary = true) : Fails (item g) c (.unexpected c.current) := by
  have hplace : c.atDeclaration = false ∧ c.current.isName conditionWords = false := by
    rw [Cursor.atDeclaration, c.modifierRun_of_atBoundary hboundary]
    rcases c.kind_of_atBoundary hboundary with hkind | hkind | hkind | hkind <;>
      simp [Cursor.atAttribute, Cursor.atTypeKeyword, TokenKind.declaresType, TokenKind.declaresVariable, Token.isOneOf,
        Token.isWord, TokenKind.isWord, Token.isName, hkind]
  simp only [item, fails_get_bind, hplace, Bool.false_eq_true, if_false]
  exact fails_bind.mpr (.inl (fails_primary hboundary))

end Grammar

namespace Tree

open Grammar

/-- Only documented complaints are made. When a list of tokens has no tree, a bracket is unbalanced or unclosed, generic
parameters are, or the declaration of a type lacks its name or its body, and the error carries a token at fault that comes
up on the way; or else items and types stand too deep inside one another, which they do only at a limit that is no larger
than the weight. A primary that begins at a closing bracket or at the end of the file makes another complaint, so none does. -/
theorem error_documented (limit : Nat) (tokens : List Token) :
    (∀ e, ofTokens limit tokens = .error e →
      (e.IsDocumented ∧ ∃ t, e.token? = some t ∧ (Cursor.ofTokens tokens).Meets t) ∨
        (e = .tooDeep ∧ limit ≤ (Cursor.ofTokens tokens).weight)) ∧
    ∀ g c, c.atBoundary = true →
      Fails (primary g) c (.unexpected c.current) ∧ Fails (plainPrimary g) c (.unexpected c.current) :=
  ⟨fun _ hparse => (blames_of_ofTokens hparse).documented,
    fun _ _ hboundary => ⟨fails_primary hboundary, fails_plainPrimary hboundary⟩⟩

/-- Behind an operator that has no second operand, the parenthesis is blamed for closing nothing. -/
theorem error_documented_behindOperator :
    (∃ tokens t, Token.stream 1 "let x = try a + )".toList = .ok tokens ∧ ofTokens 9 tokens = .error (.unbalanced t) ∧
      t.position = ⟨1, 17⟩ ∧ t.kind.isCloser = true ∧ (Cursor.ofTokens tokens).Meets t) ∧
    Fails (primary (nonterminals 1 1)) (Cursor.ofTokens []) (.unexpected Token.endOfFile) := by
  refine ⟨?_, ((error_documented 1 []).2 _ _ rfl).1⟩
  obtain ⟨e, hread, hplace⟩ := exists_eq_error_of_match (r := ofSource ⟨1, 9, 0⟩ "let x = try a + )".toList)
    (p := fun | .grammatical (.unbalanced t) => t.position == ⟨1, 17⟩ | _ => false) (by decide +kernel)
  obtain ⟨fault, rfl, -⟩ | ⟨fault, tokens, rfl, hstream, hparse⟩ := ofSource_eq_error hread
  · cases hplace
  · cases fault with
    | unbalanced t =>
        obtain ⟨hcloses, _, htoken, hmet⟩ := ((error_documented 9 tokens).1 _ hparse).resolve_right (by simp)
        obtain rfl := Option.some.inj htoken
        exact ⟨tokens, t, hstream, hparse, beq_iff_eq.mp hplace, hcloses, hmet⟩
    | _ => cases hplace

end Tree

end SwiftObservation
