import SwiftObservation.Proofs.Grammar.Faults.Expressions
import SwiftObservation.Proofs.Grammar.Lossless
import SwiftObservation.Proofs.Grammar.Nesting.Declarations

/-!
# Faults in declarations

With the rules for declarations every rule is known to blame tokens that it meets, and the knot can be tied. The fuel of
a source file is one more than its weight, so no repetition in it runs out, and what a source file is blamed for is a
token of it or a piece of one.
-/

namespace SwiftObservation.Grammar

variable {limit : Nat} {c c' : Cursor} {e : ParseError} {g : Nonterminals} {t : Tree} {trees : List Tree} {found : Option Tree}

/-! ### Attributes and modifiers -/

theorem Yields.of_attributeTurn (hrun : Yields (attributeTurn g) c (some trees) c') :
    c.atAttribute = true ∧ ∃ t, trees = [t] ∧ Yields (singleAttribute g) c t c' := by
  simp only [attributeTurn, yields_get_bind] at hrun
  split at hrun
  next hat => exact ⟨hat, hrun.some_singleton⟩
  next => exact absurd hrun not_yields_none

theorem collects_attributeTurn (hg : g.Blaming limit) : Collects (attributeTurn g) := by
  intro c trees c' hc hrun
  obtain ⟨hat, t, -, hattribute⟩ := hrun.of_attributeTurn
  exact advances_singleAttribute hg hc hat hattribute

theorem blames_attributes (hg : g.Blaming limit) (hc : c.Sound) (hfuel : c.weight < g.fuel)
    (hfails : Fails (attributes g) c e) : Blames (limit + 1) c e := by
  simp only [attributes_eq] at hfails
  obtain hfails | ⟨found, _, -, hfails⟩ := fails_bind.mp hfails
  · refine Fails.gather_blames hc (collects_attributeTurn hg) ?_ hfuel hfails
    intro c e hc hfuel hfails
    simp only [attributeTurn, fails_get_bind] at hfails
    split at hfails
    next hat => exact blames_some_singleAttribute hg hc hat hfuel hfails
    next => exact absurd hfails not_fails_pure
  · exact absurd hfails not_fails_pure

/-- Attributes without leaves are none: the cursor stays where no attribute comes next. -/
theorem Yields.attributes_stays (hrun : Yields (attributes g) c t c') (hempty : t.leaves = []) :
    c' = c ∧ c.atAttribute = false := by
  rw [attributes_eq] at hrun
  obtain ⟨found, _, hfound, hrun⟩ := yields_bind.mp hrun
  obtain ⟨rfl, rfl⟩ := yields_pure.mp hrun
  have hlast := Yields.gather_stays (fun {c more c'} hturn => by
    obtain ⟨-, t, rfl, hattribute⟩ := hturn.of_attributeTurn
    simpa [Tree.leavesOf] using leaves_singleAttribute hattribute) hfound hempty
  simp only [attributeTurn, yields_get_bind] at hlast
  split at hlast
  next =>
    obtain ⟨t, _, -, hresult⟩ := yields_bind.mp hlast
    simp at hresult
  next hat =>
    obtain ⟨-, rfl⟩ := yields_pure.mp hlast
    exact ⟨rfl, by simpa using hat⟩

theorem not_fails_modifierList {lengths : List Nat} :
    ¬ Fails (lengths.mapM fun length => return Tree.node .modifier (← takeMany length)) c e := by
  induction lengths generalizing c with
  | nil =>
      rw [List.mapM_nil]
      exact not_fails_pure
  | cons length lengths ih =>
      simp only [List.mapM_cons, bind_assoc, pure_bind]
      intro hfails
      obtain hfails | ⟨parts, c₁, -, hfails⟩ := fails_bind.mp hfails
      · exact not_fails_takeMany hfails
      obtain hfails | ⟨rest, _, -, hfails⟩ := fails_bind.mp hfails
      · exact ih hfails
      · exact not_fails_pure hfails

theorem not_fails_modifiers : ¬ Fails modifiers c e := by
  intro hfails
  simp only [modifiers, fails_get_bind] at hfails
  obtain hfails | ⟨found, _, -, hfails⟩ := fails_bind.mp hfails
  · exact not_fails_modifierList hfails
  · exact not_fails_pure hfails

/-- Modifiers without leaves are none. -/
theorem Yields.modifiers_stays (hrun : Yields modifiers c t c') (hempty : t.leaves = []) :
    c' = c ∧ c.modifierRun = [] := by
  simp only [modifiers, yields_get_bind] at hrun
  obtain ⟨found, _, hfound, hrun⟩ := yields_bind.mp hrun
  obtain ⟨rfl, rfl⟩ := yields_pure.mp hrun
  cases hlengths : c.modifierRun with
  | nil =>
      rw [hlengths, List.mapM_nil] at hfound
      obtain ⟨-, rfl⟩ := yields_pure.mp hfound
      exact ⟨rfl, rfl⟩
  | cons length lengths =>
      have hlength := modifierRun_eq c length (by simp [hlengths])
      rw [hlengths] at hfound
      simp only [List.mapM_cons, bind_assoc, pure_bind] at hfound
      obtain ⟨parts, c₁, hparts, hfound⟩ := yields_bind.mp hfound
      obtain ⟨rest, _, -, hfound⟩ := yields_bind.mp hfound
      obtain ⟨rfl, -⟩ := yields_pure.mp hfound
      obtain ⟨tokens, rfl, rfl⟩ := hparts.takeMany_eq
      cases tokens with
      | nil => simp at hlength
      | cons first tokens => simp [Tree.leaves, Tree.leavesOf] at hempty

/-! ### Generic parameters -/

theorem not_fails_paramName : ¬ Fails paramName c e := by
  intro hfails
  simp only [paramName, fails_get_bind] at hfails
  repeat' split at hfails
  all_goals simp at hfails

theorem leaves_paramName (hrun : Yields paramName c trees c') : ∀ t ∈ trees, t.leaves ≠ [] := by
  have hleaves : ∃ tokens : List Token, trees = tokens.map .leaf := by
    simp only [paramName, yields_get_bind] at hrun
    repeat' split at hrun
    · obtain ⟨tokens, htokens, -⟩ := hrun.takeMany_eq
      exact ⟨tokens, htokens⟩
    · obtain ⟨tokens, htokens, -⟩ := hrun.takeMany_eq
      exact ⟨tokens, htokens⟩
    · exact ⟨[], (yields_pure.mp hrun).1.symm⟩
  obtain ⟨tokens, rfl⟩ := hleaves
  intro t ht
  obtain ⟨token, -, rfl⟩ := List.mem_map.mp ht
  exact leaves_leaf token

theorem blames_constraint (hg : g.Blaming limit) (hc : c.Sound) (hfuel : c.weight < g.fuel)
    (hfails : Fails (constraint g) c e) : Blames (limit + 1) c e := by
  simp only [constraint, fails_get_bind] at hfails
  split at hfails
  next hcolon =>
    have hfirst := advances_advance hc (by simp [beq_iff_eq.mp hcolon])
    have hlt := hfirst.weight_lt
    simp only [fails_advanceLeaf_bind] at hfails
    obtain hfails | ⟨type, _, -, hfails⟩ := fails_bind.mp hfails
    · exact hfirst.blames (hg.type (hfirst.sound hc) (by omega) hfails)
    · exact absurd hfails not_fails_pure
  next => exact absurd hfails not_fails_pure

theorem leaves_constraint (hg : g.Blaming limit) (hrun : Yields (constraint g) c trees c') : ∀ t ∈ trees, t.leaves ≠ [] := by
  simp only [constraint, yields_get_bind] at hrun
  split at hrun
  next =>
    simp only [yields_advanceLeaf_bind] at hrun
    obtain ⟨type, _, htype, hrun⟩ := yields_bind.mp hrun
    obtain ⟨rfl, -⟩ := yields_pure.mp hrun
    refine List.forall_mem_cons.mpr ⟨leaves_leaf _, fun t ht => ?_⟩
    obtain rfl := Option.mem_toList.mp ht
    exact hg.typeLeaf htype
  next =>
    obtain ⟨rfl, -⟩ := yields_pure.mp hrun
    exact fun t ht => absurd ht List.not_mem_nil

theorem leaves_takeIf {kind : TokenKind} (hrun : Yields (takeIf kind) c trees c') : ∀ t ∈ trees, t.leaves ≠ [] := by
  obtain ⟨-, rfl, -⟩ | ⟨-, rfl, -⟩ := hrun.takeIf_cases
  · exact List.forall_mem_singleton.mpr (leaves_leaf _)
  · exact fun t ht => absurd ht List.not_mem_nil

theorem blames_genericParam (hg : g.Blaming limit) (hc : c.Sound) (hfuel : c.weight < g.fuel)
    (hfails : Fails (genericParam g) c e) : Blames (limit + 1) c e := by
  simp only [genericParam] at hfails
  obtain hfails | ⟨name, c₁, hname, hfails⟩ := fails_bind.mp hfails
  · exact absurd hfails not_fails_paramName
  have hfirst := (reads_paramName hc hname).1
  have hweight := hfirst.weight_le
  obtain hfails | ⟨type, c₂, -, hfails⟩ := fails_bind.mp hfails
  · exact hfirst.blames (blames_constraint hg (hfirst.sound hc) (by omega) hfails)
  obtain hfails | ⟨comma, c₃, -, hfails⟩ := fails_bind.mp hfails
  · exact absurd hfails not_fails_takeIf
  split at hfails <;> simp at hfails

theorem leaves_genericParam (hg : g.Blaming limit) (hrun : Yields (genericParam g) c t c') : t.leaves ≠ [] := by
  simp only [genericParam] at hrun
  obtain ⟨name, c₁, hname, hrun⟩ := yields_bind.mp hrun
  obtain ⟨type, c₂, htype, hrun⟩ := yields_bind.mp hrun
  obtain ⟨comma, c₃, hcomma, hrun⟩ := yields_bind.mp hrun
  split at hrun
  next =>
    simp only [yields_advanceLeaf_bind, yields_pure] at hrun
    obtain ⟨rfl, -⟩ := hrun
    exact leaves_node List.mem_cons_self (leaves_leaf _)
  next hsome =>
    obtain ⟨rfl, -⟩ := yields_pure.mp hrun
    have hall : ∀ t ∈ name ++ type ++ comma, t.leaves ≠ [] :=
      List.forall_mem_append.mpr
        ⟨List.forall_mem_append.mpr ⟨leaves_paramName hname, leaves_constraint hg htype⟩, leaves_takeIf hcomma⟩
    rw [List.isEmpty_iff] at hsome
    obtain ⟨part, hpart⟩ := List.exists_mem_of_ne_nil _ hsome
    exact leaves_node hpart (hall part hpart)

theorem collects_paramTurn (hg : g.Blaming limit) {opener : Token} : Collects (paramTurn g opener) := by
  intro c trees c' hc hrun
  simp only [paramTurn, yields_get_bind] at hrun
  split at hrun
  next => simp at hrun
  next =>
    split at hrun
    next => exact absurd hrun yields_throw
    next hinside =>
      obtain ⟨t, _, hparam, hresult⟩ := yields_bind.mp hrun
      obtain ⟨-, rfl⟩ := yields_pure.mp hresult
      have hread := reads_genericParam hg.reading hc (Cursor.kind_ne_of_not_atBoundary hinside) hparam
      exact hread.advances (leaves_genericParam hg hparam)

theorem blames_genericParams? (hg : g.Blaming limit) (hc : c.Sound) (hfuel : c.weight < g.fuel)
    (hfails : Fails (genericParams? g) c e) : Blames (limit + 1) c e := by
  simp only [genericParams?_eq, fails_get_bind] at hfails
  split at hfails
  next hopen =>
    have hopener := reads_splitOff hc (.inl rfl) hopen
    have hweight := hopener.weight_le
    simp only [fails_splitOff_bind] at hfails
    obtain hfails | ⟨inside, c₁, -, hfails⟩ := fails_bind.mp hfails
    · refine Fails.gather_induction (Blames (limit + 1) c) (hopener.sound hc) (collects_paramTurn hg) ?_ (by omega) hfails
      intro c₁ read e hread hfails
      have hweight' := hread.weight_le
      have hbefore := hopener.trans hread
      simp only [paramTurn, fails_get_bind] at hfails
      split at hfails
      next => exact absurd hfails not_fails_pure
      next =>
        split at hfails
        next =>
          obtain rfl := fails_throw.mp hfails
          exact .unclosedParameters (hopener.meets_read (by simp)) (Cursor.isOperatorFrom_splitOff hopen)
        next =>
          obtain hfails | ⟨t, c₂, -, hfails⟩ := fails_bind.mp hfails
          · exact hbefore.blames (blames_genericParam hg (hbefore.sound hc) (by omega) hfails)
          · exact absurd hfails not_fails_pure
    · exact absurd (fails_splitOff_bind.mp hfails) not_fails_pure
  next => exact absurd hfails not_fails_pure

/-! ### Types -/

theorem consumes_inheritanceTurn (hg : g.Blaming limit) : Consumes (inheritanceTurn g) := by
  intro reversed c reversed' c' hc hturn
  simp only [inheritanceTurn] at hturn
  obtain ⟨type, c₁, htype, hturn⟩ := yields_bind.mp hturn
  cases type with
  | none => simp at hturn
  | some type =>
      have hread := hg.reading.type hc htype
      obtain ⟨comma, c₂, hcomma, hturn⟩ := yields_bind.mp hturn
      have hadvances := (hg.advances_type hc htype).trans (reads_takeIf (hread.sound hc) (by simp) hcomma)
      split at hturn
      · simp at hturn
      · obtain ⟨-, rfl⟩ := yields_pure.mp hturn
        exact hadvances

theorem blames_inheritance (hg : g.Blaming limit) (hc : c.Sound) (hkind : c.current.kind ≠ .endOfFile)
    (hfuel : c.weight < g.fuel) (hfails : Fails (inheritance g) c e) : Blames (limit + 1) c e := by
  have hcolon := advances_advance hc hkind
  have hlt := hcolon.weight_lt
  simp only [inheritance, fails_advanceLeaf_bind] at hfails
  obtain hfails | ⟨entries, _, -, hfails⟩ := fails_bind.mp hfails
  · refine hcolon.blames
      (Fails.repeatFrom_blames (hcolon.sound hc) (consumes_inheritanceTurn hg) ?_ (by omega) hfails)
    intro reversed c₁ e hc₁ hfuel hfails
    simp only [inheritanceTurn] at hfails
    obtain hfails | ⟨type, c₃, -, hfails⟩ := fails_bind.mp hfails
    · exact hg.type hc₁ hfuel hfails
    cases type with
    | none => exact absurd hfails not_fails_pure
    | some type =>
        obtain hfails | ⟨comma, c₄, -, hfails⟩ := fails_bind.mp hfails
        · exact absurd hfails not_fails_takeIf
        · split at hfails <;> exact absurd hfails not_fails_pure
  · exact absurd hfails not_fails_pure

theorem collects_requirementTurn (hg : g.Blaming limit) : Collects (requirementTurn g) := by
  intro c trees c' hc hrun
  simp only [requirementTurn, yields_get_bind] at hrun
  split at hrun
  · simp at hrun
  · obtain ⟨t, -, hitem⟩ := hrun.some_singleton
    exact hg.advances_item hc hitem

theorem blames_whereClause (hg : g.Blaming limit) (hc : c.Sound) (hkind : c.current.kind ≠ .endOfFile)
    (hfuel : c.weight < g.fuel) (hfails : Fails (whereClause g) c e) : Blames (limit + 1) c e := by
  have hword := (advances_advance hc hkind).condition true
  have hlt := hword.weight_lt
  simp only [whereClause_eq, fails_advanceLeaf_bind, fails_setCondition_bind] at hfails
  obtain hfails | ⟨inside, _, -, hfails⟩ := fails_bind.mp hfails
  · refine hword.blames (Fails.gather_blames (hword.sound hc) (collects_requirementTurn hg) ?_ (by omega) hfails)
    intro c e hc hfuel hfails
    simp only [requirementTurn, fails_get_bind] at hfails
    split at hfails
    · exact absurd hfails not_fails_pure
    next hinside =>
      simp only [Bool.or_eq_true, not_or] at hinside
      exact hg.some_item hc hfuel hinside.2 hfails
  · exact absurd (fails_setCondition_bind.mp hfails) not_fails_pure

theorem blames_declaredName? (hg : g.Blaming limit) (hc : c.Sound) (hfuel : c.weight < g.fuel) {keyword : Token}
    (hfails : Fails (declaredName? g keyword) c e) : Blames limit c e := by
  simp only [declaredName?] at hfails
  split at hfails
  next => exact hg.type hc hfuel hfails
  next =>
    simp only [fails_get_bind] at hfails
    split at hfails <;> simp at hfails

/-- Where the name of a declared type is missing, no identifier comes next. -/
theorem Nonterminals.Blaming.not_identifier (hg : g.Blaming limit) {keyword : Token}
    (hrun : Yields (declaredName? g keyword) c none c') : c'.current.kind ≠ .identifier := by
  simp only [declaredName?] at hrun
  split at hrun
  next => exact hg.typeNone hrun
  next =>
    simp only [yields_get_bind] at hrun
    split at hrun
    next => exact absurd hrun not_yields_some
    next hword =>
      obtain ⟨-, rfl⟩ := yields_pure.mp hrun
      intro hkind
      simp [Token.isWord, hkind, TokenKind.isWord] at hword

theorem opensType_of_atTypeKeyword (hat : c.atTypeKeyword = true) : OpensType c.current := by
  unfold Cursor.atTypeKeyword at hat
  split at hat
  next hclass => exact .inl (by rw [beq_iff_eq.mp hclass]; rfl)
  next =>
    simp only [Bool.or_eq_true, Bool.and_eq_true] at hat
    exact hat.imp_right (·.1.1)

/-- A part of a declaration that is read under a condition fails as the part does. -/
theorem fails_guarded_some {α : Type} {p : Prop} [Decidable p] {r : Rule α} :
    Fails (if p then some <$> r else pure none) c e ↔ p ∧ Fails r c e := by
  split
  next hp => simp [hp]
  next hp => simp [hp]

theorem blames_typeDecl (hg : g.Blaming limit) (hc : c.Sound) (hat : c.atTypeKeyword = true) (hfuel : c.weight < g.fuel)
    {attributes modifiers : Tree} (hfails : Fails (typeDecl g attributes modifiers) c e) : Blames (limit + 1) c e := by
  have hopens := opensType_of_atTypeKeyword hat
  have hkeyword := advances_advance hc (Cursor.kind_ne_of_atTypeKeyword hat)
  have hlt := hkeyword.weight_lt
  simp only [typeDecl, fails_advance_bind, Cursor.advance_fst] at hfails
  obtain hfails | ⟨name, c₁, hname, hfails⟩ := fails_bind.mp hfails
  · exact hkeyword.blames (blames_declaredName? hg (hkeyword.sound hc) (by omega) hfails)
  obtain ⟨read₁, -, hnamed⟩ := hkeyword.trans (reads_declaredName? hg.reading (hkeyword.sound hc) hname)
  have hweight₁ := hnamed.weight_le
  cases name with
  | none =>
      simp only [fails_get_bind] at hfails
      obtain rfl := fails_throw.mp hfails
      exact .missingName (hnamed.meets c₁.meets_current) hopens (hg.not_identifier hname)
  | some name =>
      obtain hfails | ⟨params, c₂, hparams, hfails⟩ := fails_bind.mp hfails
      · exact hnamed.blames (blames_genericParams? hg (hnamed.sound hc) (by omega) hfails)
      have hfirst := hnamed.trans (reads_genericParams? hg.reading (hnamed.sound hc) hparams)
      have hweight₂ := hfirst.weight_le
      simp only [fails_get_bind] at hfails
      obtain hfails | ⟨clause, c₃, hclause, hfails⟩ := fails_ite_bind.mp hfails
      · obtain ⟨hcolon, hfails⟩ := fails_guarded_some.mp hfails
        have hkind : c₂.current.kind ≠ .endOfFile := by simp [beq_iff_eq.mp hcolon]
        exact hfirst.blames (blames_inheritance hg (hfirst.sound hc) hkind (by omega) hfails)
      have hsecond : ∃ read, Reads c read c₃ := by
        obtain ⟨hcolon, t, hinherits, -⟩ | ⟨-, -, rfl⟩ := yields_guarded_some.mp hclause
        · have hkind : c₂.current.kind ≠ .endOfFile := by simp [beq_iff_eq.mp hcolon]
          exact ⟨_, hfirst.trans (reads_inheritance hg.reading (hfirst.sound hc) hkind hinherits)⟩
        · exact ⟨_, hfirst⟩
      obtain ⟨read₃, hsecond⟩ := hsecond
      have hweight₃ := hsecond.weight_le
      simp only [fails_get_bind] at hfails
      obtain hfails | ⟨requirements, c₄, hrequirements, hfails⟩ := fails_ite_bind.mp hfails
      · obtain ⟨hword, hfails⟩ := fails_guarded_some.mp hfails
        exact hsecond.blames
          (blames_whereClause hg (hsecond.sound hc) (Token.kind_ne_of_isOneOf hword) (by omega) hfails)
      have hthird : ∃ read, Reads c read c₄ := by
        obtain ⟨hword, t, hwhere, -⟩ | ⟨-, -, rfl⟩ := yields_guarded_some.mp hrequirements
        · have hkind := Token.kind_ne_of_isOneOf hword
          exact ⟨_, hsecond.trans (reads_whereClause hg.reading (hsecond.sound hc) hkind hwhere)⟩
        · exact ⟨_, hsecond⟩
      obtain ⟨read₄, hthird⟩ := hthird
      have hweight₄ := hthird.weight_le
      simp only [fails_get_bind] at hfails
      split at hfails
      next hbrace =>
        obtain hfails | ⟨body, _, -, hfails⟩ := fails_bind.mp hfails
        · have hopens : c₄.current.kind.isOpener = true := by rw [beq_iff_eq.mp hbrace]; rfl
          exact hthird.blames (blames_block hg (hthird.sound hc) hopens (by omega) hfails)
        · exact absurd hfails not_fails_pure
      next hbrace =>
        obtain rfl := fails_throw.mp hfails
        exact .missingBody (hthird.meets c₄.meets_current) hopens (by simpa using hbrace)

/-! ### Variables -/

theorem blames_pattern? (hg : g.Blaming limit) (hc : c.Sound) (hfuel : c.weight < g.fuel) (hfails : Fails (pattern? g) c e) :
    Blames (limit + 1) c e := by
  simp only [pattern?, fails_get_bind] at hfails
  split at hfails
  next => simp at hfails
  next hkind =>
    obtain hfails | ⟨t, _, -, hfails⟩ := fails_bind.mp hfails
    · exact blames_arguments hg hc (by rw [hkind]; rfl) hfuel hfails
    · exact absurd hfails not_fails_pure
  next => exact absurd hfails not_fails_pure

theorem leaves_pattern? (hrun : Yields (pattern? g) c (some t) c') : t.leaves ≠ [] := by
  simp only [pattern?, yields_get_bind] at hrun
  split at hrun
  next =>
    obtain ⟨rfl, -⟩ := yields_advanceLeaf.mp hrun.of_some
    exact leaves_leaf _
  next => exact leaves_arguments hrun.of_some
  next => exact absurd hrun not_yields_none

theorem blames_typeClause (hg : g.Blaming limit) (hc : c.Sound) (hfuel : c.weight < g.fuel)
    (hfails : Fails (typeClause g) c e) : Blames (limit + 1) c e := by
  simp only [typeClause, fails_get_bind] at hfails
  split at hfails
  next hcolon =>
    have hfirst := advances_advance hc (by simp [beq_iff_eq.mp hcolon])
    have hlt := hfirst.weight_lt
    simp only [fails_advanceLeaf_bind] at hfails
    obtain hfails | ⟨type, _, -, hfails⟩ := fails_bind.mp hfails
    · exact hfirst.blames (hg.type (hfirst.sound hc) (by omega) hfails)
    · exact absurd hfails not_fails_pure
  next => exact absurd hfails not_fails_pure

theorem blames_initialValue (hg : g.Blaming limit) (hc : c.Sound) (hfuel : c.weight < g.fuel)
    (hfails : Fails (initialValue g) c e) : Blames (limit + 1) c e := by
  simp only [initialValue, fails_get_bind] at hfails
  split at hfails
  next hassign =>
    have hfirst := reads_advance hc (by simp [beq_iff_eq.mp hassign])
    have hweight := hfirst.weight_le
    simp only [fails_advanceLeaf_bind] at hfails
    obtain hfails | ⟨value, _, -, hfails⟩ := fails_bind.mp hfails
    · exact hfirst.blames (blames_expr hg (hfirst.sound hc) (by omega) hfails)
    · exact absurd hfails not_fails_pure
  next => exact absurd hfails not_fails_pure

theorem blames_accessors (hg : g.Blaming limit) (hc : c.Sound) (hfuel : c.weight < g.fuel) {typed valued : Bool}
    (hfails : Fails (accessors g typed valued) c e) : Blames (limit + 1) c e := by
  simp only [accessors, fails_get_bind] at hfails
  split at hfails
  next hbrace =>
    simp only [Bool.and_eq_true, beq_iff_eq] at hbrace
    obtain hfails | ⟨body, _, -, hfails⟩ := fails_bind.mp hfails
    · exact blames_block hg hc (by rw [hbrace.1.1]; rfl) hfuel hfails
    · exact absurd hfails not_fails_pure
  next => exact absurd hfails not_fails_pure

theorem blames_binding? (hg : g.Blaming limit) (hc : c.Sound) (hfuel : c.weight < g.fuel) (hfails : Fails (binding? g) c e) :
    Blames (limit + 1) c e := by
  simp only [binding?] at hfails
  obtain hfails | ⟨pattern, c₁, hpattern, hfails⟩ := fails_bind.mp hfails
  · exact blames_pattern? hg hc hfuel hfails
  have hfirst := reads_pattern? hg.reading hc hpattern
  have hweight₁ := hfirst.weight_le
  cases pattern with
  | none => exact absurd hfails not_fails_pure
  | some pattern =>
      obtain hfails | ⟨type, c₂, htype, hfails⟩ := fails_bind.mp hfails
      · exact hfirst.blames (blames_typeClause hg (hfirst.sound hc) (by omega) hfails)
      have hsecond := hfirst.trans (reads_typeClause hg.reading (hfirst.sound hc) htype)
      have hweight₂ := hsecond.weight_le
      obtain hfails | ⟨value, c₃, hvalue, hfails⟩ := fails_bind.mp hfails
      · exact hsecond.blames (blames_initialValue hg (hsecond.sound hc) (by omega) hfails)
      have hthird := hsecond.trans (reads_initialValue hg.reading (hsecond.sound hc) hvalue)
      have hweight₃ := hthird.weight_le
      obtain hfails | ⟨bodies, c₄, -, hfails⟩ := fails_bind.mp hfails
      · exact hthird.blames (blames_accessors hg (hthird.sound hc) (by omega) hfails)
      obtain hfails | ⟨comma, c₅, -, hfails⟩ := fails_bind.mp hfails
      · exact absurd hfails not_fails_takeIf
      · exact absurd hfails not_fails_pure

theorem leaves_binding? (hrun : Yields (binding? g) c (some t) c') : t.leaves ≠ [] := by
  simp only [binding?] at hrun
  obtain ⟨pattern, c₁, hpattern, hrun⟩ := yields_bind.mp hrun
  cases pattern with
  | none => exact absurd hrun not_yields_none
  | some pattern =>
      obtain ⟨type, _, -, hrun⟩ := yields_bind.mp hrun
      obtain ⟨value, _, -, hrun⟩ := yields_bind.mp hrun
      obtain ⟨bodies, _, -, hrun⟩ := yields_bind.mp hrun
      obtain ⟨comma, _, -, hrun⟩ := yields_bind.mp hrun
      obtain ⟨hbinding, -⟩ := yields_pure.mp hrun
      obtain rfl := Option.some.inj hbinding
      exact leaves_node (by simp) (leaves_pattern? hpattern)

theorem consumes_bindingTurn (hg : g.Blaming limit) : Consumes (bindingTurn g) := by
  intro reversed c reversed' c' hc hturn
  simp only [bindingTurn] at hturn
  obtain ⟨binding, c₁, hbinding, hturn⟩ := yields_bind.mp hturn
  cases binding with
  | none => simp at hturn
  | some binding =>
      have hleaf : Tree.leavesOf (some binding).toList ≠ [] := by
        simpa [Tree.leavesOf] using leaves_binding? hbinding
      have hadvances := (reads_binding? hg.reading hc hbinding).advances hleaf
      dsimp only at hturn
      split at hturn
      · obtain ⟨-, rfl⟩ := yields_pure.mp hturn
        exact hadvances
      · simp at hturn

theorem blames_variableDecl (hg : g.Blaming limit) (hc : c.Sound) (hkind : c.current.kind ≠ .endOfFile)
    (hfuel : c.weight < g.fuel) {attributes modifiers : Tree} (hfails : Fails (variableDecl g attributes modifiers) c e) :
    Blames (limit + 1) c e := by
  have hkeyword := reads_advance hc hkind
  have hweight := hkeyword.weight_le
  simp only [variableDecl, fails_advanceLeaf_bind] at hfails
  obtain hfails | ⟨bindings, _, -, hfails⟩ := fails_bind.mp hfails
  · refine hkeyword.blames (Fails.repeatFrom_blames (hkeyword.sound hc) (consumes_bindingTurn hg) ?_ (by omega) hfails)
    intro reversed c₁ e hc₁ hfuel hfails
    simp only [bindingTurn] at hfails
    obtain hfails | ⟨binding, c₃, -, hfails⟩ := fails_bind.mp hfails
    · exact blames_binding? hg hc₁ hfuel hfails
    cases binding with
    | none => exact absurd hfails not_fails_pure
    | some binding =>
        dsimp only at hfails
        split at hfails <;> exact absurd hfails not_fails_pure
  · exact absurd hfails not_fails_pure

/-! ### The whole grammar -/

theorem blames_declaration (hg : g.Blaming limit) (hc : c.Sound) (hfuel : c.weight < g.fuel)
    (hfails : Fails (declaration g) c e) : Blames (limit + 1) c e := by
  simp only [declaration] at hfails
  obtain hfails | ⟨attributes, c₁, hattributes, hfails⟩ := fails_bind.mp hfails
  · exact blames_attributes hg hc hfuel hfails
  have hfirst := reads_attributes hg.reading hc hattributes
  obtain hfails | ⟨modifiers, c₂, hmodifiers, hfails⟩ := fails_bind.mp hfails
  · exact absurd hfails not_fails_modifiers
  have hhead := hfirst.trans (reads_modifiers (hfirst.sound hc) hmodifiers)
  have hweight := hhead.weight_le
  simp only [fails_get_bind] at hfails
  split at hfails
  next hat => exact hhead.blames (blames_typeDecl hg (hhead.sound hc) hat (by omega) hfails)
  split at hfails
  next hvariable =>
    have hkind : c₂.current.kind ≠ .endOfFile := by
      intro hend
      simp [hend, TokenKind.declaresVariable] at hvariable
    exact hhead.blames (blames_variableDecl hg (hhead.sound hc) hkind (by omega) hfails)
  next => exact absurd hfails not_fails_pure

theorem leaves_typeDecl {attributes modifiers : Tree} (hrun : Yields (typeDecl g attributes modifiers) c t c') :
    t.leaves ≠ [] := by
  simp only [typeDecl, yields_advance_bind] at hrun
  obtain ⟨name, _, -, hrun⟩ := yields_bind.mp hrun
  cases name with
  | none =>
      simp only [yields_get_bind] at hrun
      exact absurd hrun yields_throw
  | some name =>
      obtain ⟨params, _, -, hrun⟩ := yields_bind.mp hrun
      simp only [yields_get_bind] at hrun
      obtain ⟨clause, _, -, hrun⟩ := yields_ite_bind.mp hrun
      simp only [yields_get_bind] at hrun
      obtain ⟨requirements, _, -, hrun⟩ := yields_ite_bind.mp hrun
      simp only [yields_get_bind] at hrun
      split at hrun
      next =>
        obtain ⟨body, _, hbody, hrun⟩ := yields_bind.mp hrun
        obtain ⟨rfl, -⟩ := yields_pure.mp hrun
        exact leaves_node (by simp) (leaves_block hbody)
      next => exact absurd hrun yields_throw

theorem leaves_variableDecl {attributes modifiers : Tree} (hrun : Yields (variableDecl g attributes modifiers) c t c') :
    t.leaves ≠ [] := by
  simp only [variableDecl, yields_advanceLeaf_bind] at hrun
  obtain ⟨bindings, _, -, hrun⟩ := yields_bind.mp hrun
  obtain ⟨rfl, -⟩ := yields_pure.mp hrun
  exact leaves_node (List.mem_cons_of_mem _ (List.mem_cons_of_mem _ List.mem_cons_self)) (leaves_leaf _)

/-- Where a declaration comes next, its head is not empty even if nothing else of it is read. -/
theorem leaves_declaration (hat : c.atDeclaration = true) (hrun : Yields (declaration g) c t c') : t.leaves ≠ [] := by
  simp only [declaration] at hrun
  obtain ⟨attributes, c₁, hattributes, hrun⟩ := yields_bind.mp hrun
  obtain ⟨modifiers, c₂, hmodifiers, hrun⟩ := yields_bind.mp hrun
  simp only [yields_get_bind] at hrun
  split at hrun
  next => exact leaves_typeDecl hrun
  split at hrun
  next => exact leaves_variableDecl hrun
  next hkeyword hvariable =>
    obtain ⟨rfl, -⟩ := yields_pure.mp hrun
    intro hempty
    simp only [Tree.leaves, Tree.leavesOf, List.append_nil, List.append_eq_nil_iff] at hempty
    obtain ⟨rfl, hattribute⟩ := hattributes.attributes_stays hempty.1
    obtain ⟨rfl, hrun⟩ := hmodifiers.modifiers_stays hempty.2
    simp [Cursor.atDeclaration, hattribute, hrun, hkeyword, hvariable] at hat

theorem blames_item (hg : g.Blaming limit) (hc : c.Sound) (hfuel : c.weight < g.fuel) (hinside : ¬ c.atBoundary = true)
    (hfails : Fails (item g) c e) : Blames (limit + 1) c e := by
  simp only [item, fails_get_bind] at hfails
  split at hfails
  next => exact blames_declaration hg hc hfuel hfails
  split at hfails
  next => exact absurd (fails_setCondition_bind.mp hfails) not_fails_advanceLeaf
  next => exact blames_chain hg hc hfuel hinside hfails

theorem leaves_item (hrun : Yields (item g) c t c') : t.leaves ≠ [] := by
  simp only [item, yields_get_bind] at hrun
  split at hrun
  next hat => exact leaves_declaration hat hrun
  split at hrun
  next =>
    simp only [yields_setCondition_bind] at hrun
    obtain ⟨rfl, -⟩ := yields_advanceLeaf.mp hrun
    exact leaves_leaf _
  next => exact leaves_chain hrun

theorem fuel_nonterminals (fuel limit : Nat) : (nonterminals fuel limit).fuel = fuel := by cases limit <;> rfl

/-- At every nesting limit items and types blame tokens that they meet, and no limit larger than the weight is hit. -/
theorem blaming_nonterminals (fuel limit : Nat) : (nonterminals fuel limit).Blaming limit := by
  induction limit with
  | zero =>
      refine ⟨reading_nonterminals fuel 0, nesting_nonterminals fuel 0, ?_, ?_, fun hrun => absurd hrun yields_throw,
        fun hrun => absurd hrun yields_throw, fun hrun => absurd hrun yields_throw⟩
      · intro c e _ _ _ hfails
        obtain rfl := fails_throw.mp hfails
        exact .tooDeep c.weight.zero_le
      · intro c e _ _ hfails
        obtain rfl := fails_throw.mp hfails
        exact .tooDeep c.weight.zero_le
  | succ limit ih =>
      refine ⟨reading_nonterminals fuel (limit + 1), nesting_nonterminals fuel (limit + 1), ?_, ?_, leaves_item, leaves_type?,
        Yields.not_identifier_of_type?⟩
      · intro c e hc hfuel hinside hfails
        rw [fuel_nonterminals, ← fuel_nonterminals fuel limit] at hfuel
        exact blames_item ih hc hfuel hinside hfails
      · intro c e hc hfuel hfails
        rw [fuel_nonterminals, ← fuel_nonterminals fuel limit] at hfuel
        exact blames_type? ih hc hfuel hfails

theorem blames_sourceFile (hg : g.Blaming limit) (hc : c.Sound) (hfuel : c.weight < g.fuel)
    (hfails : Fails (sourceFile g) c e) : Blames limit c e := by
  simp only [sourceFile] at hfails
  obtain hfails | ⟨inside, _, -, hfails⟩ := fails_bind.mp hfails
  · obtain hblames | ⟨t, ht, -⟩ := blames_items hg hc hfuel hfails
    · exact hblames
    · cases ht
  · exact absurd (fails_advanceLeaf_bind.mp hfails) not_fails_pure

end SwiftObservation.Grammar
