import SwiftObservation.Grammar.SourceFile
import SwiftObservation.Proofs.Grammar.Reading.Expressions

/-!
# Reading declarations

With the rules for declarations every rule is known to read the leaves of what it yields, and the knot can be tied:
`reading_nonterminals` holds for every nesting limit.
-/

namespace SwiftObservation.Grammar

variable {c c' : Cursor} {g : Nonterminals} {t : Tree} {trees : List Tree} {found : Option Tree}

theorem reads_attributes (hg : g.Reading) (hc : c.Sound) (hrun : Yields (attributes g) c t c') :
    Reads c t.leaves c' := by
  simp only [attributes] at hrun
  obtain ⟨found, _, hfound, hrun⟩ := yields_bind.mp hrun
  obtain ⟨rfl, rfl⟩ := yields_pure.mp hrun
  refine (reads_gather hc (fun {c out c'} hc hrun => ?_) hfound).1
  simp only [yields_get_bind] at hrun
  split at hrun
  next hat => exact reads_some_singleAttribute hg hc hat hrun
  next =>
    obtain ⟨rfl, rfl⟩ := yields_pure.mp hrun
    exact .refl c

/-! ### Modifiers

The run of modifiers is measured before it is taken, so it has to be known that the tokens it counts are there. -/

theorem Yields.length_upcoming_takeMany {n : Nat} (hrun : Yields (takeMany n) c trees c') :
    c'.upcoming.length = c.upcoming.length - n := by
  induction n generalizing c trees with
  | zero =>
      obtain ⟨-, rfl⟩ := yields_pure.mp hrun
      rfl
  | succ n ih =>
      simp only [takeMany, yields_advanceLeaf_bind] at hrun
      obtain ⟨rest, _, hrest, hresult⟩ := yields_bind.mp hrun
      obtain ⟨-, rfl⟩ := yields_pure.mp hresult
      rw [ih hrest, Cursor.length_upcoming_advance]
      omega

theorem reads_modifierList (hc : c.Sound) {lengths : List Nat} (hn : lengths.foldr (· + ·) 0 ≤ c.upcoming.length)
    (hrun : Yields (lengths.mapM fun length => return .node .modifier (← takeMany length)) c trees c') :
    Reads c (Tree.leavesOf trees) c' := by
  induction lengths generalizing c trees with
  | nil =>
      simp only [List.mapM_nil] at hrun
      obtain ⟨rfl, rfl⟩ := yields_pure.mp hrun
      exact .refl c
  | cons length lengths ih =>
      simp only [List.mapM_cons, bind_assoc, pure_bind] at hrun
      obtain ⟨parts, c₁, hparts, hrun⟩ := yields_bind.mp hrun
      obtain ⟨rest, _, hrest, hrun⟩ := yields_bind.mp hrun
      obtain ⟨rfl, rfl⟩ := yields_pure.mp hrun
      simp only [List.foldr_cons] at hn
      have hfirst := reads_takeMany hc (by omega) hparts
      have hlength := hparts.length_upcoming_takeMany
      have hsecond := ih (hfirst.sound hc) (by omega) hrest
      simpa [Tree.leaves, Tree.leavesOf] using hfirst.trans hsecond

theorem reads_modifiers (hc : c.Sound) (hrun : Yields modifiers c t c') : Reads c t.leaves c' := by
  simp only [modifiers, yields_get_bind] at hrun
  obtain ⟨found, _, hfound, hrun⟩ := yields_bind.mp hrun
  obtain ⟨rfl, rfl⟩ := yields_pure.mp hrun
  exact reads_modifierList hc (modifierRun_le c) hfound

/-! ### Generic parameters -/

theorem reads_paramName (hc : c.Sound) (hrun : Yields paramName c trees c') :
    Reads c (Tree.leavesOf trees) c' ∧ (trees = [] → c' = c) := by
  simp only [paramName, yields_get_bind] at hrun
  split at hrun
  next hword =>
    have hkind := Token.kind_ne_of_isWord hword
    split at hrun
    next heach =>
      simp only [Bool.and_eq_true] at heach
      refine ⟨reads_takeTwo hc (Token.kind_ne_of_isWord heach.2) hrun, fun hnone => ?_⟩
      obtain ⟨tokens, rfl, hlength⟩ := hrun.takeMany_eq
      simp [List.map_eq_nil_iff.mp hnone] at hlength
    next =>
      refine ⟨reads_takeMany hc (hc.lt_length hkind) hrun, fun hnone => ?_⟩
      obtain ⟨tokens, rfl, hlength⟩ := hrun.takeMany_eq
      simp [List.map_eq_nil_iff.mp hnone] at hlength
  next =>
    obtain ⟨rfl, rfl⟩ := yields_pure.mp hrun
    exact ⟨.refl c, fun _ => rfl⟩

theorem reads_constraint (hg : g.Reading) (hc : c.Sound) (hrun : Yields (constraint g) c trees c') :
    Reads c (Tree.leavesOf trees) c' ∧ (trees = [] → c' = c) := by
  simp only [constraint, yields_get_bind] at hrun
  split at hrun
  next hcolon =>
    simp only [yields_advanceLeaf_bind] at hrun
    obtain ⟨type, _, htype, hrun⟩ := yields_bind.mp hrun
    obtain ⟨rfl, rfl⟩ := yields_pure.mp hrun
    have hfirst := reads_advance hc (by simp [beq_iff_eq.mp hcolon])
    have hsecond := hg.type (hfirst.sound hc) htype
    exact ⟨by simpa [Tree.leaves, Tree.leavesOf] using hfirst.trans hsecond, fun hnone => by simp at hnone⟩
  next =>
    obtain ⟨rfl, rfl⟩ := yields_pure.mp hrun
    exact ⟨.refl c, fun _ => rfl⟩

/-- A parameter is read wherever the clause can go on: if none of its parts is there, the next token is one. -/
theorem reads_genericParam (hg : g.Reading) (hc : c.Sound) (hkind : c.current.kind ≠ .endOfFile)
    (hrun : Yields (genericParam g) c t c') : Reads c t.leaves c' := by
  simp only [genericParam] at hrun
  obtain ⟨name, c₁, hname, hrun⟩ := yields_bind.mp hrun
  obtain ⟨type, c₂, htype, hrun⟩ := yields_bind.mp hrun
  obtain ⟨comma, c₃, hcomma, hrun⟩ := yields_bind.mp hrun
  obtain ⟨hfirst, hstay⟩ := reads_paramName hc hname
  obtain ⟨hsecond, hstay'⟩ := reads_constraint hg (hfirst.sound hc) htype
  have hbefore := hfirst.trans hsecond
  have hthird := hbefore.trans (reads_takeIf (hbefore.sound hc) (by simp) hcomma)
  split at hrun
  next hnone =>
    simp only [yields_advanceLeaf_bind, yields_pure] at hrun
    obtain ⟨rfl, rfl⟩ := hrun
    simp only [List.isEmpty_iff, List.append_eq_nil_iff] at hnone
    obtain ⟨-, hsome, -⟩ | ⟨-, -, hunmoved⟩ := hcomma.takeIf_cases
    · exact absurd (hsome.symm.trans hnone.2) (List.cons_ne_nil _ _)
    · rw [hunmoved, hstay' hnone.1.2, hstay hnone.1.1]
      exact reads_advance hc hkind
  next =>
    obtain ⟨rfl, rfl⟩ := yields_pure.mp hrun
    simpa [Tree.leaves, Tree.leavesOf] using hthird

theorem reads_genericParams? (hg : g.Reading) (hc : c.Sound) (hrun : Yields (genericParams? g) c found c') :
    Reads c (Tree.leavesOf found.toList) c' := by
  simp only [genericParams?, yields_get_bind] at hrun
  split at hrun
  next hopen =>
    simp only [yields_splitOff_bind] at hrun
    obtain ⟨inside, c₂, hinside, hrun⟩ := yields_bind.mp hrun
    simp only [yields_splitOff_bind, yields_pure] at hrun
    obtain ⟨rfl, rfl⟩ := hrun
    have hopener := reads_splitOff hc (.inl rfl) hopen
    obtain ⟨hparams, c₃, -, hlast⟩ := reads_gather (hopener.sound hc) (fun {c out c'} hc hrun => by
      simp only [yields_get_bind] at hrun
      repeat' split at hrun
      · obtain ⟨rfl, rfl⟩ := yields_pure.mp hrun
        exact .refl c
      · exact absurd hrun yields_throw
      · rename_i hinside
        obtain ⟨t, _, hparam, hresult⟩ := yields_bind.mp hrun
        obtain ⟨rfl, rfl⟩ := yields_pure.mp hresult
        have hread := reads_genericParam hg hc (Cursor.kind_ne_of_not_atBoundary hinside) hparam
        simpa [Tree.leavesOf] using hread) hinside
    have hclose : c₂.current.isOperatorFrom '>' = true := by
      simp only [yields_get_bind] at hlast
      repeat' split at hlast
      · obtain ⟨-, rfl⟩ := yields_pure.mp hlast
        assumption
      · exact absurd hlast yields_throw
      · obtain ⟨t, _, _, hresult⟩ := yields_bind.mp hlast
        simp at hresult
    have hbefore := hopener.trans hparams
    have hcloser := reads_splitOff (hbefore.sound hc) (.inr rfl) hclose
    simpa [Tree.leaves, Tree.leavesOf] using hbefore.trans hcloser
  next =>
    obtain ⟨rfl, rfl⟩ := yields_pure.mp hrun
    exact .refl c

/-! ### Types -/

theorem reads_inheritance (hg : g.Reading) (hc : c.Sound) (hkind : c.current.kind ≠ .endOfFile)
    (hrun : Yields (inheritance g) c t c') : Reads c t.leaves c' := by
  simp only [inheritance, yields_advanceLeaf_bind] at hrun
  obtain ⟨entries, c₂, hentries, hrun⟩ := yields_bind.mp hrun
  obtain ⟨rfl, rfl⟩ := yields_pure.mp hrun
  have hcolon := reads_advance hc hkind
  have hrest : Reads c.advance.2 (Tree.leavesOf entries) c₂ := by
    refine Yields.repeatFrom_induction (fun reversed c₁ => Reads c.advance.2 (Tree.leavesOf reversed.reverse) c₁)
      (fun entries c' => Reads c.advance.2 (Tree.leavesOf entries) c') ?_ (by exact .refl _) hentries
    intro reversed c₁ outcome c₂ hreads hturn
    have hc₁ := hreads.sound (hcolon.sound hc)
    simp only [inheritanceTurn] at hturn
    obtain ⟨type, c₃, htype, hturn⟩ := yields_bind.mp hturn
    have hfirst := hreads.trans (hg.type hc₁ htype)
    cases type with
    | none =>
        obtain ⟨rfl, rfl⟩ := yields_pure.mp hturn
        simpa [Turn.Meets, Tree.leavesOf] using hfirst
    | some type =>
        obtain ⟨comma, c₄, hcomma, hturn⟩ := yields_bind.mp hturn
        have hsecond := hfirst.trans (reads_takeIf (hfirst.sound (hcolon.sound hc)) (by simp) hcomma)
        split at hturn
        all_goals
          obtain ⟨rfl, rfl⟩ := yields_pure.mp hturn
          simpa [Turn.Meets, Tree.leaves, Tree.leavesOf] using hsecond
  simpa [Tree.leaves, Tree.leavesOf] using hcolon.trans hrest

theorem reads_whereClause (hg : g.Reading) (hc : c.Sound) (hkind : c.current.kind ≠ .endOfFile)
    (hrun : Yields (whereClause g) c t c') : Reads c t.leaves c' := by
  simp only [whereClause, yields_advanceLeaf_bind, yields_setCondition_bind] at hrun
  obtain ⟨inside, c₂, hinside, hrun⟩ := yields_bind.mp hrun
  simp only [yields_setCondition_bind, yields_pure] at hrun
  obtain ⟨rfl, rfl⟩ := hrun
  have hword := reads_advance hc hkind
  obtain ⟨hitems, -⟩ := reads_gather ((hword.sound hc).withCondition true) (fun {c out c'} hc hrun => by
    simp only [yields_get_bind] at hrun
    split at hrun
    · obtain ⟨rfl, rfl⟩ := yields_pure.mp hrun
      exact .refl c
    · exact hg.some_item hc hrun) hinside
  simpa [Tree.leaves, Tree.leavesOf] using (hword.trans hitems.of_condition).condition false

theorem reads_declaredName? (hg : g.Reading) (hc : c.Sound) {keyword : Token}
    (hrun : Yields (declaredName? g keyword) c found c') : Reads c (Tree.leavesOf found.toList) c' := by
  simp only [declaredName?] at hrun
  split at hrun
  next => exact hg.type hc hrun
  next =>
    simp only [yields_get_bind] at hrun
    split at hrun
    next hword =>
      simp only [yields_advanceLeaf_bind, yields_pure] at hrun
      obtain ⟨rfl, rfl⟩ := hrun
      simpa [Tree.leaves, Tree.leavesOf] using reads_advance hc (Token.kind_ne_of_isWord hword)
    next =>
      obtain ⟨rfl, rfl⟩ := yields_pure.mp hrun
      exact .refl c

theorem reads_typeDecl (hg : g.Reading) (hc : c.Sound) (hkind : c.current.kind ≠ .endOfFile)
    {attributes modifiers : Tree} (hrun : Yields (typeDecl g attributes modifiers) c t c') :
    ∃ read, Reads c read c' ∧ t.leaves = attributes.leaves ++ modifiers.leaves ++ read := by
  simp only [typeDecl, yields_advance_bind] at hrun
  obtain ⟨name, c₁, hname, hrun⟩ := yields_bind.mp hrun
  have hkeyword := reads_advance hc hkind
  have hnamed := hkeyword.trans (reads_declaredName? hg (hkeyword.sound hc) hname)
  cases name with
  | none =>
      simp only [yields_get_bind] at hrun
      exact absurd hrun yields_throw
  | some name =>
      obtain ⟨params, c₂, hparams, hrun⟩ := yields_bind.mp hrun
      have hfirst := hnamed.trans (reads_genericParams? hg (hnamed.sound hc) hparams)
      simp only [yields_get_bind] at hrun
      obtain ⟨clause, c₃, hclause, hrun⟩ := yields_ite_bind.mp hrun
      have hsecond : Reads c₂ (Tree.leavesOf clause.toList) c₃ := by
        obtain ⟨hcolon, t, hinherits, rfl⟩ | ⟨-, rfl, rfl⟩ := yields_guarded_some.mp hclause
        · have hread := reads_inheritance hg (hfirst.sound hc) (by simp [beq_iff_eq.mp hcolon]) hinherits
          simpa [Tree.leavesOf] using hread
        · exact .refl c₂
      have hclaused := hfirst.trans hsecond
      simp only [yields_get_bind] at hrun
      obtain ⟨requirements, c₄, hrequirements, hrun⟩ := yields_ite_bind.mp hrun
      have hthird : Reads c₃ (Tree.leavesOf requirements.toList) c₄ := by
        obtain ⟨hword, t, hwhere, rfl⟩ | ⟨-, rfl, rfl⟩ := yields_guarded_some.mp hrequirements
        · have hread := reads_whereClause hg (hclaused.sound hc) (Token.kind_ne_of_isOneOf hword) hwhere
          simpa [Tree.leavesOf] using hread
        · exact .refl c₃
      have hheaded := hclaused.trans hthird
      simp only [yields_get_bind] at hrun
      split at hrun
      next hbrace =>
        obtain ⟨body, c₅, hbody, hrun⟩ := yields_bind.mp hrun
        obtain ⟨rfl, rfl⟩ := yields_pure.mp hrun
        have hblock := reads_block hg (hheaded.sound hc) (by simp [beq_iff_eq.mp hbrace]) hbody
        refine ⟨_, hheaded.trans hblock, ?_⟩
        simp [Tree.leaves, Tree.leavesOf]
      next => exact absurd hrun yields_throw

/-! ### Variables -/

theorem reads_pattern? (hg : g.Reading) (hc : c.Sound) (hrun : Yields (pattern? g) c found c') :
    Reads c (Tree.leavesOf found.toList) c' := by
  simp only [pattern?, yields_get_bind] at hrun
  split at hrun
  next hkind =>
    simp only [yields_advanceLeaf_bind, yields_pure] at hrun
    obtain ⟨rfl, rfl⟩ := hrun
    simpa [Tree.leaves, Tree.leavesOf] using reads_advance hc (by simp [hkind])
  next hkind =>
    obtain ⟨t, c₁, hgroup, hrun⟩ := yields_bind.mp hrun
    obtain ⟨rfl, rfl⟩ := yields_pure.mp hrun
    simpa [Tree.leavesOf] using reads_arguments hg hc (by simp [hkind]) hgroup
  next =>
    obtain ⟨rfl, rfl⟩ := yields_pure.mp hrun
    exact .refl c

theorem reads_typeClause (hg : g.Reading) (hc : c.Sound) (hrun : Yields (typeClause g) c trees c') :
    Reads c (Tree.leavesOf trees) c' := by
  simp only [typeClause, yields_get_bind] at hrun
  split at hrun
  next hcolon =>
    simp only [yields_advanceLeaf_bind] at hrun
    obtain ⟨type, c₁, htype, hrun⟩ := yields_bind.mp hrun
    obtain ⟨rfl, rfl⟩ := yields_pure.mp hrun
    have hfirst := reads_advance hc (by simp [beq_iff_eq.mp hcolon])
    have hsecond := hg.type (hfirst.sound hc) htype
    simpa [Tree.leaves, Tree.leavesOf] using hfirst.trans hsecond
  next =>
    obtain ⟨rfl, rfl⟩ := yields_pure.mp hrun
    exact .refl c

theorem reads_initialValue (hg : g.Reading) (hc : c.Sound) (hrun : Yields (initialValue g) c trees c') :
    Reads c (Tree.leavesOf trees) c' := by
  simp only [initialValue, yields_get_bind] at hrun
  split at hrun
  next hassign =>
    simp only [yields_advanceLeaf_bind] at hrun
    obtain ⟨value, c₁, hvalue, hrun⟩ := yields_bind.mp hrun
    obtain ⟨rfl, rfl⟩ := yields_pure.mp hrun
    have hfirst := reads_advance hc (by simp [beq_iff_eq.mp hassign])
    have hsecond := reads_expr hg (hfirst.sound hc) hvalue
    simpa [Tree.leaves, Tree.leavesOf] using hfirst.trans hsecond
  next =>
    obtain ⟨rfl, rfl⟩ := yields_pure.mp hrun
    exact .refl c

theorem reads_accessors (hg : g.Reading) (hc : c.Sound) {typed valued : Bool}
    (hrun : Yields (accessors g typed valued) c trees c') : Reads c (Tree.leavesOf trees) c' := by
  simp only [accessors, yields_get_bind] at hrun
  split at hrun
  next hbrace =>
    simp only [Bool.and_eq_true, beq_iff_eq] at hbrace
    obtain ⟨body, c₁, hbody, hrun⟩ := yields_bind.mp hrun
    obtain ⟨rfl, rfl⟩ := yields_pure.mp hrun
    simpa [Tree.leavesOf] using reads_block hg hc (by simp [hbrace.1.1]) hbody
  next =>
    obtain ⟨rfl, rfl⟩ := yields_pure.mp hrun
    exact .refl c

theorem reads_binding? (hg : g.Reading) (hc : c.Sound) (hrun : Yields (binding? g) c found c') :
    Reads c (Tree.leavesOf found.toList) c' := by
  simp only [binding?] at hrun
  obtain ⟨pattern, c₁, hpattern, hrun⟩ := yields_bind.mp hrun
  have hfirst := reads_pattern? hg hc hpattern
  cases pattern with
  | none =>
      obtain ⟨rfl, rfl⟩ := yields_pure.mp hrun
      exact hfirst
  | some pattern =>
      obtain ⟨type, c₂, htype, hrun⟩ := yields_bind.mp hrun
      obtain ⟨value, c₃, hvalue, hrun⟩ := yields_bind.mp hrun
      obtain ⟨bodies, c₄, hbodies, hrun⟩ := yields_bind.mp hrun
      obtain ⟨comma, c₅, hcomma, hrun⟩ := yields_bind.mp hrun
      obtain ⟨rfl, rfl⟩ := yields_pure.mp hrun
      have hsecond := hfirst.trans (reads_typeClause hg (hfirst.sound hc) htype)
      have hthird := hsecond.trans (reads_initialValue hg (hsecond.sound hc) hvalue)
      have hfourth := hthird.trans (reads_accessors hg (hthird.sound hc) hbodies)
      have hfifth := hfourth.trans (reads_takeIf (hfourth.sound hc) (by simp) hcomma)
      simpa [Tree.leaves, Tree.leavesOf] using hfifth

theorem reads_variableDecl (hg : g.Reading) (hc : c.Sound) (hkind : c.current.kind ≠ .endOfFile)
    {attributes modifiers : Tree} (hrun : Yields (variableDecl g attributes modifiers) c t c') :
    ∃ read, Reads c read c' ∧ t.leaves = attributes.leaves ++ modifiers.leaves ++ read := by
  simp only [variableDecl, yields_advanceLeaf_bind] at hrun
  obtain ⟨bindings, c₂, hbindings, hrun⟩ := yields_bind.mp hrun
  obtain ⟨rfl, rfl⟩ := yields_pure.mp hrun
  have hkeyword := reads_advance hc hkind
  have hrest : Reads c.advance.2 (Tree.leavesOf bindings) c₂ := by
    refine Yields.repeatFrom_induction (fun reversed c₁ => Reads c.advance.2 (Tree.leavesOf reversed.reverse) c₁)
      (fun bindings c' => Reads c.advance.2 (Tree.leavesOf bindings) c') ?_ (by exact .refl _) hbindings
    intro reversed c₁ outcome c₃ hreads hturn
    simp only [bindingTurn] at hturn
    obtain ⟨binding, c₄, hbinding, hturn⟩ := yields_bind.mp hturn
    have hnext := hreads.trans (reads_binding? hg (hreads.sound (hkeyword.sound hc)) hbinding)
    cases binding with
    | none =>
        obtain ⟨rfl, rfl⟩ := yields_pure.mp hturn
        simpa [Turn.Meets, Tree.leavesOf] using hnext
    | some binding =>
        dsimp only at hturn
        split at hturn
        all_goals
          obtain ⟨rfl, rfl⟩ := yields_pure.mp hturn
          simpa [Turn.Meets, Tree.leavesOf] using hnext
  exact ⟨_, hkeyword.trans hrest, by simp [Tree.leaves, Tree.leavesOf]⟩

/-! ### The whole grammar -/

theorem Cursor.kind_ne_of_atTypeKeyword (hat : c.atTypeKeyword = true) : c.current.kind ≠ .endOfFile := by
  intro hend
  simp [Cursor.atTypeKeyword, hend, TokenKind.declaresType, Token.isOneOf, Token.isWord, TokenKind.isWord] at hat

theorem reads_declaration (hg : g.Reading) (hc : c.Sound) (hrun : Yields (declaration g) c t c') :
    Reads c t.leaves c' := by
  simp only [declaration] at hrun
  obtain ⟨attributes, c₁, hattributes, hrun⟩ := yields_bind.mp hrun
  obtain ⟨modifiers, c₂, hmodifiers, hrun⟩ := yields_bind.mp hrun
  have hfirst := reads_attributes hg hc hattributes
  have hhead := hfirst.trans (reads_modifiers (hfirst.sound hc) hmodifiers)
  have hc₂ := hhead.sound hc
  simp only [yields_get_bind] at hrun
  split at hrun
  next hat =>
    obtain ⟨read, hread, hleaves⟩ := reads_typeDecl hg hc₂ (Cursor.kind_ne_of_atTypeKeyword hat) hrun
    exact hleaves ▸ hhead.trans hread
  split at hrun
  next hvariable =>
    have hkind : c₂.current.kind ≠ .endOfFile := by
      intro hend
      simp [hend, TokenKind.declaresVariable] at hvariable
    obtain ⟨read, hread, hleaves⟩ := reads_variableDecl hg hc₂ hkind hrun
    exact hleaves ▸ hhead.trans hread
  next =>
    obtain ⟨rfl, rfl⟩ := yields_pure.mp hrun
    simpa [Tree.leaves, Tree.leavesOf] using hhead

theorem reads_item (hg : g.Reading) (hc : c.Sound) (hrun : Yields (item g) c t c') : Reads c t.leaves c' := by
  simp only [item, yields_get_bind] at hrun
  split at hrun
  next => exact reads_declaration hg hc hrun
  split at hrun
  next hname =>
    simp only [yields_setCondition_bind] at hrun
    obtain ⟨rfl, rfl⟩ := yields_advanceLeaf.mp hrun
    exact (reads_advance (hc.withCondition true) (Token.kind_ne_of_isName hname)).of_condition
  next => exact reads_chain hg hc hrun

/-- At every nesting limit items and types read the leaves of what they yield. -/
theorem reading_nonterminals (fuel limit : Nat) : (nonterminals fuel limit).Reading := by
  induction limit with
  | zero => exact ⟨fun _ hrun => absurd hrun yields_throw, fun _ hrun => absurd hrun yields_throw⟩
  | succ limit ih => exact ⟨reads_item ih, reads_type? ih⟩

end SwiftObservation.Grammar
