import SwiftObservation.Grammar.SourceFile
import SwiftObservation.Proofs.Grammar.Nesting.Types

/-!
# Nesting in declarations

Two rules for declarations take brackets by themselves. The detail of a modifier comes with both of its parentheses. A
generic parameter takes whatever single token comes next if nothing else fits, and that may be a lone opening bracket.
-/

namespace SwiftObservation.Grammar

open SwiftObservation.Tree

variable {c c' : Cursor} {g : Nonterminals} {t : Tree} {trees : List Tree} {found : Option Tree}

/-! ### Attributes and modifiers -/

theorem nested_attributes (hg : g.Nesting) (hrun : Yields (attributes g) c t c') : t.Nested := by
  simp only [attributes] at hrun
  obtain ⟨found, _, hfound, hrun⟩ := yields_bind.mp hrun
  obtain ⟨rfl, -⟩ := yields_pure.mp hrun
  have hall : NestedAll found := Yields.forall_gather (fun {c more c'} hturn => by
    simp only [yields_get_bind] at hturn
    split at hturn
    next hat =>
      obtain ⟨t, rfl, hattribute⟩ := hturn.some_singleton
      simpa using nested_singleAttribute hg hat hattribute
    next => exact absurd hturn not_yields_none) hfound
  exact hall.node

/-- Taking as many tokens as there are in front takes those. -/
theorem Yields.takeMany_upcoming (front : List Token) {rest : List Token} (hupcoming : c.upcoming = front ++ rest)
    (hrun : Yields (takeMany front.length) c trees c') : trees = front.map .leaf ∧ c'.upcoming = rest := by
  induction front generalizing c trees with
  | nil =>
      obtain ⟨rfl, rfl⟩ := yields_pure.mp hrun
      exact ⟨rfl, hupcoming⟩
  | cons token front ih =>
      have hfirst : c.advance.1 = token := by simp [Cursor.advance, hupcoming]
      have hbehind : c.advance.2.upcoming = front ++ rest := by simp [Cursor.advance, hupcoming]
      simp only [List.length_cons, takeMany, yields_advanceLeaf_bind] at hrun
      obtain ⟨others, _, hothers, hresult⟩ := yields_bind.mp hrun
      obtain ⟨rfl, rfl⟩ := yields_pure.mp hresult
      obtain ⟨rfl, hrest⟩ := ih hbehind hothers
      exact ⟨by rw [hfirst, List.map_cons], hrest⟩

theorem isBracket_of_startsModifier {token : Token} {rest : List Token}
    (hstarts : Cursor.startsModifier (token :: rest) = true) : token.kind.isBracket = false := by
  simp only [Cursor.startsModifier, Token.isName, Bool.or_eq_true, Bool.and_eq_true, beq_iff_eq] at hstarts
  rcases hstarts with ⟨hkind, -⟩ | ⟨hkind, -⟩
  · rw [hkind]; rfl
  · rw [hkind]; rfl

theorem nested_modifier_detail {word opener detail closer : Token} (hword : word.kind.isBracket = false)
    {more : List Token} (hdetail : Cursor.startsDetail (opener :: detail :: closer :: more) = true) :
    Nested (.node .modifier ([word, opener, detail, closer].map .leaf)) := by
  simp only [Cursor.startsDetail, Bool.and_eq_true, beq_iff_eq] at hdetail
  obtain ⟨⟨hopener, hname⟩, hcloser⟩ := hdetail
  apply nested_node_of_wellNested
  have hopens : TokenKind.leftParen.isBracket = true := rfl
  have hother : TokenKind.identifier.isBracket = false := rfl
  have hcloses : TokenKind.rightParen.isBracket = true := rfl
  have hkinds : nestingOf ([word, opener, detail, closer].map .leaf) = [.leftParen, .rightParen] := by
    simp [nestingOf, nesting, Token.brackets, hword, hopener, hname, hcloser, hopens, hother, hcloses]
  rw [hkinds]
  exact .pair rfl .nil .nil

/-- Each modifier in the run is a word, alone or with its detail. -/
theorem nestedAll_modifierLengths {tokens : List Token} (hupcoming : c.upcoming = tokens)
    (hrun : Yields ((Cursor.modifierLengths tokens).mapM fun length => return .node .modifier (← takeMany length))
      c trees c') : NestedAll trees := by
  fun_induction Cursor.modifierLengths tokens generalizing c trees c' with
  | case1 =>
      obtain ⟨rfl, -⟩ := yields_pure.mp hrun
      exact nestedAll_nil
  | case2 word opener detail closer more hdetail hstarts ih =>
      simp only [List.mapM_cons, bind_assoc, pure_bind] at hrun
      obtain ⟨parts, c₁, hparts, hrun⟩ := yields_bind.mp hrun
      obtain ⟨rest, _, hrest, hrun⟩ := yields_bind.mp hrun
      obtain ⟨rfl, -⟩ := yields_pure.mp hrun
      obtain ⟨rfl, hbehind⟩ := Yields.takeMany_upcoming [word, opener, detail, closer] hupcoming hparts
      have hmodifier := nested_modifier_detail (isBracket_of_startsModifier hstarts) hdetail
      exact nestedAll_cons.mpr ⟨hmodifier, ih hbehind hrest⟩
  | case3 word opener detail closer more _ hstarts ih =>
      simp only [List.mapM_cons, bind_assoc, pure_bind] at hrun
      obtain ⟨parts, c₁, hparts, hrun⟩ := yields_bind.mp hrun
      obtain ⟨rest, _, hrest, hrun⟩ := yields_bind.mp hrun
      obtain ⟨rfl, -⟩ := yields_pure.mp hrun
      obtain ⟨rfl, hbehind⟩ := Yields.takeMany_upcoming [word] hupcoming hparts
      have hword : NestedAll [.leaf word] := by simpa using nested_leaf (isBracket_of_startsModifier hstarts)
      exact nestedAll_cons.mpr ⟨hword.node, ih hbehind hrest⟩
  | case4 word rest hstarts _ ih =>
      simp only [List.mapM_cons, bind_assoc, pure_bind] at hrun
      obtain ⟨parts, c₁, hparts, hrun⟩ := yields_bind.mp hrun
      obtain ⟨others, _, hothers, hrun⟩ := yields_bind.mp hrun
      obtain ⟨rfl, -⟩ := yields_pure.mp hrun
      obtain ⟨rfl, hbehind⟩ := Yields.takeMany_upcoming [word] hupcoming hparts
      have hword : NestedAll [.leaf word] := by simpa using nested_leaf (isBracket_of_startsModifier hstarts)
      exact nestedAll_cons.mpr ⟨hword.node, ih hbehind hothers⟩
  | case5 =>
      obtain ⟨rfl, -⟩ := yields_pure.mp hrun
      exact nestedAll_nil

theorem nested_modifiers (hrun : Yields modifiers c t c') : t.Nested := by
  simp only [modifiers, yields_get_bind] at hrun
  obtain ⟨found, _, hfound, hrun⟩ := yields_bind.mp hrun
  obtain ⟨rfl, -⟩ := yields_pure.mp hrun
  apply NestedAll.node
  unfold Cursor.modifierRun at hfound
  dsimp only at hfound
  split at hfound
  · exact nestedAll_modifierLengths rfl hfound
  · obtain ⟨rfl, -⟩ := yields_pure.mp hfound
    exact nestedAll_nil

/-! ### Generic parameters -/

theorem nested_paramName (hrun : Yields paramName c trees c') : NestedAll trees ∧ (trees = [] → c' = c) := by
  simp only [paramName, yields_get_bind] at hrun
  split at hrun
  next hword =>
    have hkind := TokenKind.isBracket_of_isWord hword
    split at hrun
    next heach =>
      simp only [Bool.and_eq_true] at heach
      refine ⟨nestedAll_takeTwo hkind (TokenKind.isBracket_of_isWord heach.2) hrun, fun hnone => ?_⟩
      obtain ⟨tokens, rfl, hlength⟩ := hrun.takeMany_eq
      simp [List.map_eq_nil_iff.mp hnone] at hlength
    next =>
      simp only [takeMany, pure_bind, yields_advanceLeaf_bind, yields_pure] at hrun
      obtain ⟨rfl, -⟩ := hrun
      exact ⟨by simpa using nested_leaf hkind, fun hnone => absurd hnone (List.cons_ne_nil _ _)⟩
  next =>
    obtain ⟨rfl, rfl⟩ := yields_pure.mp hrun
    exact ⟨nestedAll_nil, fun _ => rfl⟩

theorem nested_constraint (hg : g.Nesting) (hrun : Yields (constraint g) c trees c') :
    NestedAll trees ∧ (trees = [] → c' = c) := by
  simp only [constraint, yields_get_bind] at hrun
  split at hrun
  next hcolon =>
    simp only [yields_advanceLeaf_bind] at hrun
    obtain ⟨type, _, htype, hrun⟩ := yields_bind.mp hrun
    obtain ⟨rfl, -⟩ := yields_pure.mp hrun
    have hkind : c.current.kind.isBracket = false := by rw [beq_iff_eq.mp hcolon]; rfl
    exact ⟨nestedAll_cons.mpr ⟨nested_advance hkind, hg.type htype⟩, fun hnone => absurd hnone (List.cons_ne_nil _ _)⟩
  next =>
    obtain ⟨rfl, rfl⟩ := yields_pure.mp hrun
    exact ⟨nestedAll_nil, fun _ => rfl⟩

/-- A single token that closes nothing is a parameter: it is no bracket, or it is a lone one. -/
theorem nested_genericParam_leaf {token : Token} (hkind : token.kind.isCloser = false) :
    Nested (.node .genericParam [.leaf token]) := by
  cases hopens : token.kind.isOpener with
  | true =>
      rw [Nested, nesting, isLoneBracket, hopens]
      exact .nil
  | false =>
      have hother : token.kind.isBracket = false := by simp [TokenKind.isBracket, hopens, hkind]
      exact NestedAll.node (by simpa using nested_leaf hother)

theorem nested_genericParam (hg : g.Nesting) (hinside : c.atBoundary = false)
    (hrun : Yields (genericParam g) c t c') : t.Nested := by
  simp only [genericParam] at hrun
  obtain ⟨name, c₁, hname, hrun⟩ := yields_bind.mp hrun
  obtain ⟨type, c₂, htype, hrun⟩ := yields_bind.mp hrun
  obtain ⟨comma, c₃, hcomma, hrun⟩ := yields_bind.mp hrun
  obtain ⟨hfirst, hstay⟩ := nested_paramName hname
  obtain ⟨hsecond, hstay'⟩ := nested_constraint hg htype
  split at hrun
  next hnone =>
    -- No part was there, so the cursor has not moved and the token is the one that the clause went on at.
    simp only [yields_advanceLeaf_bind, yields_pure] at hrun
    obtain ⟨rfl, -⟩ := hrun
    simp only [List.isEmpty_iff, List.append_eq_nil_iff] at hnone
    obtain ⟨-, hsome, -⟩ | ⟨-, -, hunmoved⟩ := hcomma.takeIf_cases
    · exact absurd (hsome.symm.trans hnone.2) (List.cons_ne_nil _ _)
    · rw [hunmoved, hstay' hnone.1.2, hstay hnone.1.1, Cursor.advance_fst]
      simp only [Cursor.atBoundary, Bool.or_eq_false_iff] at hinside
      exact nested_genericParam_leaf hinside.2
  next =>
    obtain ⟨rfl, -⟩ := yields_pure.mp hrun
    apply NestedAll.node
    exact nestedAll_append.mpr ⟨nestedAll_append.mpr ⟨hfirst, hsecond⟩, nestedAll_takeIf rfl hcomma⟩

theorem nested_genericParams? (hg : g.Nesting) (hrun : Yields (genericParams? g) c found c') :
    NestedAll found.toList := by
  simp only [genericParams?, yields_get_bind] at hrun
  split at hrun
  next hopen =>
    simp only [yields_splitOff_bind] at hrun
    obtain ⟨inside, c₁, hinside, hrun⟩ := yields_bind.mp hrun
    simp only [yields_splitOff_bind, yields_pure] at hrun
    obtain ⟨rfl, -⟩ := hrun
    obtain ⟨c₂, hall, hlast⟩ := Yields.gather_induction (fun trees _ => NestedAll trees)
      (fun trees c more c' hall hturn => by
        simp only [yields_get_bind] at hturn
        repeat' split at hturn
        · exact absurd hturn not_yields_none
        · exact absurd hturn yields_throw
        · rename_i hboundary
          obtain ⟨t, rfl, hparam⟩ := hturn.some_singleton
          have hnested := nested_genericParam hg (by simpa using hboundary) hparam
          exact nestedAll_append.mpr ⟨hall, by simpa using hnested⟩) nestedAll_nil hinside
    have hclose : c₁.current.isOperatorFrom '>' = true := by
      simp only [yields_get_bind] at hlast
      repeat' split at hlast
      · obtain ⟨-, rfl⟩ := yields_pure.mp hlast
        assumption
      · exact absurd hlast yields_throw
      · obtain ⟨t, _, _, hresult⟩ := yields_bind.mp hlast
        simp at hresult
    have hparts : NestedAll (.leaf c.splitOff.1 :: inside ++ [.leaf c₁.splitOff.1]) := by
      simp [nested_splitOff hopen, hall, nested_splitOff hclose]
    exact nestedAll_cons.mpr ⟨hparts.node, nestedAll_nil⟩
  next =>
    obtain ⟨rfl, -⟩ := yields_pure.mp hrun
    exact nestedAll_nil

/-! ### Types -/

theorem nested_inheritance (hg : g.Nesting) (hkind : c.current.kind = .colon)
    (hrun : Yields (inheritance g) c t c') : t.Nested := by
  simp only [inheritance, yields_advanceLeaf_bind] at hrun
  obtain ⟨entries, _, hentries, hrun⟩ := yields_bind.mp hrun
  obtain ⟨rfl, -⟩ := yields_pure.mp hrun
  have hall : NestedAll entries := by
    refine Yields.repeatFrom_induction (fun reversed _ => NestedAll reversed) (fun entries _ => NestedAll entries)
      ?_ nestedAll_nil hentries
    intro reversed c₁ outcome c₂ hall hturn
    simp only [inheritanceTurn] at hturn
    obtain ⟨type, _, htype, hturn⟩ := yields_bind.mp hturn
    cases type with
    | none =>
        obtain ⟨rfl, -⟩ := yields_pure.mp hturn
        exact nestedAll_reverse.mpr hall
    | some type =>
        obtain ⟨comma, _, hcomma, hturn⟩ := yields_bind.mp hturn
        have htyped := hg.type htype
        rw [Option.toList_some, nestedAll_cons] at htyped
        have hentry : NestedAll (type :: comma) := nestedAll_cons.mpr ⟨htyped.1, nestedAll_takeIf rfl hcomma⟩
        have hmore : NestedAll (.node .inheritedType (type :: comma) :: reversed) :=
          nestedAll_cons.mpr ⟨hentry.node, hall⟩
        split at hturn
        · obtain ⟨rfl, -⟩ := yields_pure.mp hturn
          exact nestedAll_reverse.mpr hmore
        · obtain ⟨rfl, -⟩ := yields_pure.mp hturn
          exact hmore
  exact NestedAll.node (nestedAll_cons.mpr ⟨nested_advance (by rw [hkind]; rfl), hall⟩)

theorem nested_whereClause (hg : g.Nesting) (hword : c.current.isOneOf (words ["where"]) = true)
    (hrun : Yields (whereClause g) c t c') : t.Nested := by
  simp only [whereClause, yields_advanceLeaf_bind, yields_setCondition_bind] at hrun
  obtain ⟨inside, _, hinside, hrun⟩ := yields_bind.mp hrun
  simp only [yields_setCondition_bind, yields_pure] at hrun
  obtain ⟨rfl, -⟩ := hrun
  have hall : NestedAll inside := Yields.forall_gather (fun {c more c'} hturn => by
    simp only [yields_get_bind] at hturn
    split at hturn
    · exact absurd hturn not_yields_none
    · obtain ⟨t, rfl, hitem⟩ := hturn.some_singleton
      simpa using hg.item hitem) hinside
  exact NestedAll.node (nestedAll_cons.mpr ⟨nested_advance (isBracket_of_isOneOf hword), hall⟩)

theorem nested_declaredName? (hg : g.Nesting) {keyword : Token}
    (hrun : Yields (declaredName? g keyword) c (some t) c') : t.Nested := by
  simp only [declaredName?] at hrun
  split at hrun
  next => simpa using hg.type hrun
  next =>
    simp only [yields_get_bind] at hrun
    split at hrun
    next hword =>
      obtain ⟨rfl, -⟩ := yields_advanceLeaf.mp hrun.of_some
      exact nested_advance (TokenKind.isBracket_of_isWord hword)
    next => exact absurd hrun not_yields_none

/-- An optional part of a declaration, read under a condition. -/
theorem nested_optional {p : Prop} [Decidable p] {r : Rule Tree} (hr : ∀ {t}, p → Yields r c t c' → t.Nested)
    (hrun : Yields (if p then some <$> r else pure none) c found c') : NestedAll found.toList := by
  obtain ⟨hp, t, ht, rfl⟩ | ⟨-, rfl, -⟩ := yields_guarded_some.mp hrun
  · simpa using hr hp ht
  · exact nestedAll_nil

theorem Cursor.isBracket_of_atTypeKeyword (hat : c.atTypeKeyword = true) : c.current.kind.isBracket = false := by
  unfold Cursor.atTypeKeyword at hat
  split at hat
  next hclass => rw [beq_iff_eq.mp hclass]; rfl
  next =>
    simp only [Bool.or_eq_true, Bool.and_eq_true] at hat
    rcases hat with hdeclares | ⟨⟨hactor, -⟩, -⟩
    · cases hkind : c.current.kind <;> first | rfl | simp [hkind, TokenKind.declaresType] at hdeclares
    · exact isBracket_of_isOneOf hactor

theorem nested_typeDecl (hg : g.Nesting) (hat : c.atTypeKeyword = true) {attributes modifiers : Tree}
    (hattributes : attributes.Nested) (hmodifiers : modifiers.Nested)
    (hrun : Yields (typeDecl g attributes modifiers) c t c') : t.Nested := by
  simp only [typeDecl, yields_advance_bind] at hrun
  obtain ⟨name, c₁, hname, hrun⟩ := yields_bind.mp hrun
  cases name with
  | none =>
      simp only [yields_get_bind] at hrun
      exact absurd hrun yields_throw
  | some name =>
      obtain ⟨params, c₂, hparams, hrun⟩ := yields_bind.mp hrun
      simp only [yields_get_bind] at hrun
      obtain ⟨clause, c₃, hclause, hrun⟩ := yields_ite_bind.mp hrun
      simp only [yields_get_bind] at hrun
      obtain ⟨requirements, c₄, hrequirements, hrun⟩ := yields_ite_bind.mp hrun
      simp only [yields_get_bind] at hrun
      split at hrun
      next =>
        obtain ⟨body, c₅, hbody, hrun⟩ := yields_bind.mp hrun
        obtain ⟨rfl, -⟩ := yields_pure.mp hrun
        have hfirst := nested_genericParams? hg hparams
        have hsecond := nested_optional (fun hcolon => nested_inheritance hg (beq_iff_eq.mp hcolon)) hclause
        have hthird := nested_optional (fun hword => nested_whereClause hg hword) hrequirements
        have hrest : NestedAll (params.toList ++ clause.toList ++ requirements.toList ++ [body]) := by
          simp [hfirst, hsecond, hthird, nested_block hg hbody]
        have hkeyword := nested_advance (Cursor.isBracket_of_atTypeKeyword hat)
        exact NestedAll.node (nestedAll_cons.mpr ⟨hattributes, nestedAll_cons.mpr ⟨hmodifiers,
          nestedAll_cons.mpr ⟨hkeyword, nestedAll_cons.mpr ⟨nested_declaredName? hg hname, hrest⟩⟩⟩⟩)
      next => exact absurd hrun yields_throw

/-! ### Variables -/

theorem nested_pattern? (hg : g.Nesting) (hrun : Yields (pattern? g) c (some t) c') : t.Nested := by
  simp only [pattern?, yields_get_bind] at hrun
  split at hrun
  next hkind =>
    obtain ⟨rfl, -⟩ := yields_advanceLeaf.mp hrun.of_some
    exact nested_advance (by rw [hkind]; rfl)
  next hkind => exact nested_arguments hg (by rw [hkind]; rfl) hrun.of_some
  next => exact absurd hrun not_yields_none

theorem nested_typeClause (hg : g.Nesting) (hrun : Yields (typeClause g) c trees c') : NestedAll trees := by
  simp only [typeClause, yields_get_bind] at hrun
  split at hrun
  next hcolon =>
    simp only [yields_advanceLeaf_bind] at hrun
    obtain ⟨type, _, htype, hrun⟩ := yields_bind.mp hrun
    obtain ⟨rfl, -⟩ := yields_pure.mp hrun
    have hclause : NestedAll (.leaf c.advance.1 :: type.toList) :=
      nestedAll_cons.mpr ⟨nested_advance (by rw [beq_iff_eq.mp hcolon]; rfl), hg.type htype⟩
    exact nestedAll_cons.mpr ⟨hclause.node, nestedAll_nil⟩
  next =>
    obtain ⟨rfl, -⟩ := yields_pure.mp hrun
    exact nestedAll_nil

theorem nested_initialValue (hg : g.Nesting) (hrun : Yields (initialValue g) c trees c') : NestedAll trees := by
  simp only [initialValue, yields_get_bind] at hrun
  split at hrun
  next hassign =>
    simp only [yields_advanceLeaf_bind] at hrun
    obtain ⟨value, _, hvalue, hrun⟩ := yields_bind.mp hrun
    obtain ⟨rfl, -⟩ := yields_pure.mp hrun
    have hparts : NestedAll [.leaf c.advance.1, value] :=
      nestedAll_cons.mpr ⟨nested_advance (by rw [beq_iff_eq.mp hassign]; rfl), by simpa using nested_expr hg hvalue⟩
    exact nestedAll_cons.mpr ⟨hparts.node, nestedAll_nil⟩
  next =>
    obtain ⟨rfl, -⟩ := yields_pure.mp hrun
    exact nestedAll_nil

theorem nested_accessors (hg : g.Nesting) {typed valued : Bool} (hrun : Yields (accessors g typed valued) c trees c') :
    NestedAll trees := by
  simp only [accessors, yields_get_bind] at hrun
  split at hrun
  next =>
    obtain ⟨body, _, hbody, hrun⟩ := yields_bind.mp hrun
    obtain ⟨rfl, -⟩ := yields_pure.mp hrun
    simpa using nested_block hg hbody
  next =>
    obtain ⟨rfl, -⟩ := yields_pure.mp hrun
    exact nestedAll_nil

theorem nested_binding? (hg : g.Nesting) (hrun : Yields (binding? g) c (some t) c') : t.Nested := by
  simp only [binding?] at hrun
  obtain ⟨pattern, _, hpattern, hrun⟩ := yields_bind.mp hrun
  cases pattern with
  | none => exact absurd hrun not_yields_none
  | some pattern =>
      obtain ⟨type, _, htype, hrun⟩ := yields_bind.mp hrun
      obtain ⟨value, _, hvalue, hrun⟩ := yields_bind.mp hrun
      obtain ⟨body, _, hbody, hrun⟩ := yields_bind.mp hrun
      obtain ⟨comma, _, hcomma, hrun⟩ := yields_bind.mp hrun
      obtain ⟨heq, -⟩ := yields_pure.mp hrun
      cases heq
      have hall : NestedAll (pattern :: type ++ value ++ body ++ comma) := by
        simp [nested_pattern? hg hpattern, nested_typeClause hg htype, nested_initialValue hg hvalue,
          nested_accessors hg hbody, nestedAll_takeIf rfl hcomma]
      exact hall.node

theorem nested_variableDecl (hg : g.Nesting) (hkind : c.current.kind.declaresVariable = true)
    {attributes modifiers : Tree} (hattributes : attributes.Nested) (hmodifiers : modifiers.Nested)
    (hrun : Yields (variableDecl g attributes modifiers) c t c') : t.Nested := by
  simp only [variableDecl, yields_advanceLeaf_bind] at hrun
  obtain ⟨bindings, _, hbindings, hrun⟩ := yields_bind.mp hrun
  obtain ⟨rfl, -⟩ := yields_pure.mp hrun
  have hall : NestedAll bindings := by
    refine Yields.repeatFrom_induction (fun reversed _ => NestedAll reversed) (fun bindings _ => NestedAll bindings)
      ?_ nestedAll_nil hbindings
    intro reversed c₁ outcome c₂ hall hturn
    simp only [bindingTurn] at hturn
    obtain ⟨binding, _, hbinding, hturn⟩ := yields_bind.mp hturn
    cases binding with
    | none =>
        obtain ⟨rfl, -⟩ := yields_pure.mp hturn
        exact nestedAll_reverse.mpr hall
    | some binding =>
        have hmore : NestedAll (binding :: reversed) := nestedAll_cons.mpr ⟨nested_binding? hg hbinding, hall⟩
        dsimp only at hturn
        split at hturn
        · obtain ⟨rfl, -⟩ := yields_pure.mp hturn
          exact hmore
        · obtain ⟨rfl, -⟩ := yields_pure.mp hturn
          exact nestedAll_reverse.mpr hmore
  have hkeyword : c.current.kind.isBracket = false := by
    cases h : c.current.kind <;> first | rfl | simp [h, TokenKind.declaresVariable] at hkind
  exact NestedAll.node (nestedAll_cons.mpr ⟨hattributes, nestedAll_cons.mpr ⟨hmodifiers,
    nestedAll_cons.mpr ⟨nested_advance hkeyword, hall⟩⟩⟩)

/-! ### The whole grammar -/

theorem nested_declaration (hg : g.Nesting) (hrun : Yields (declaration g) c t c') : t.Nested := by
  simp only [declaration] at hrun
  obtain ⟨attributes, _, hattributes, hrun⟩ := yields_bind.mp hrun
  obtain ⟨modifiers, _, hmodifiers, hrun⟩ := yields_bind.mp hrun
  have hfirst := nested_attributes hg hattributes
  have hsecond := nested_modifiers hmodifiers
  simp only [yields_get_bind] at hrun
  split at hrun
  next hat => exact nested_typeDecl hg hat hfirst hsecond hrun
  split at hrun
  next hvariable => exact nested_variableDecl hg hvariable hfirst hsecond hrun
  next =>
    obtain ⟨rfl, -⟩ := yields_pure.mp hrun
    exact NestedAll.node (by simp [hfirst, hsecond])

theorem nested_item (hg : g.Nesting) (hrun : Yields (item g) c t c') : t.Nested := by
  simp only [item, yields_get_bind] at hrun
  split at hrun
  next => exact nested_declaration hg hrun
  split at hrun
  next hname =>
    simp only [Token.isName, Bool.and_eq_true, beq_iff_eq] at hname
    simp only [yields_setCondition_bind] at hrun
    obtain ⟨rfl, -⟩ := yields_advanceLeaf.mp hrun
    exact nested_advance (by rw [Cursor.current, Cursor.peek]; exact hname.1 ▸ rfl)
  next => exact nested_chain hg hrun

/-- At every nesting limit items and types close what they open. -/
theorem nesting_nonterminals (fuel limit : Nat) : (nonterminals fuel limit).Nesting := by
  induction limit with
  | zero => exact ⟨fun hrun => absurd hrun yields_throw, fun hrun => absurd hrun yields_throw⟩
  | succ limit ih => exact ⟨nested_item ih, nested_type? ih⟩

end SwiftObservation.Grammar
