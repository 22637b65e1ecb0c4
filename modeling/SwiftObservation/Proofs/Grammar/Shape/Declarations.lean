import SwiftObservation.Proofs.Grammar.Lossless
import SwiftObservation.Proofs.Grammar.Shape.Expressions

/-!
# The shape of declarations

Declarations are what the migration edits, and most labels that call for something belong to them. With their rules
every rule is known to yield shaped trees, so every tree of a source is shaped.
-/

namespace SwiftObservation.Grammar

open SwiftObservation.Tree

variable {c c' : Cursor} {g : Nonterminals} {t : Tree} {trees : List Tree} {found : Option Tree} {fuel : Nat}

theorem Yields.attributes_eq (hg : g.Shaping) (hrun : Yields (attributes g) c t c') :
    ∃ found, t = .node .attributes found ∧ t.Shaped := by
  simp only [attributes] at hrun
  obtain ⟨found, _, hfound, hrun⟩ := yields_bind.mp hrun
  obtain ⟨rfl, -⟩ := yields_pure.mp hrun
  have hall : ∀ t ∈ found, t.Shaped ∧ t.is .attr = true := by
    refine Yields.forall_gather (fun {c more c'} hturn => ?_) hfound
    simp only [yields_get_bind] at hturn
    split at hturn
    next hat =>
      obtain ⟨t, rfl, hattribute⟩ := hturn.some_singleton
      simpa using shaped_singleAttribute hg hat hattribute
    next => exact absurd hturn not_yields_none
  exact ⟨found, rfl, .node (fun t ht => (hall t ht).2) (fun t ht => (hall t ht).1)⟩

theorem shaped_modifierList {lengths : List Nat} (hlengths : ∀ n ∈ lengths, n = 1 ∨ n = 4)
    (hrun : Yields (lengths.mapM fun length => return .node .modifier (← takeMany length)) c trees c') :
    ∀ t ∈ trees, t.Shaped ∧ t.is .modifier = true := by
  induction lengths generalizing c trees with
  | nil =>
      simp only [List.mapM_nil] at hrun
      obtain ⟨rfl, -⟩ := yields_pure.mp hrun
      simp
  | cons length lengths ih =>
      simp only [List.mapM_cons, bind_assoc, pure_bind] at hrun
      obtain ⟨parts, c₁, hparts, hrun⟩ := yields_bind.mp hrun
      obtain ⟨rest, _, hrest, hrun⟩ := yields_bind.mp hrun
      obtain ⟨rfl, rfl⟩ := yields_pure.mp hrun
      obtain ⟨tokens, rfl, hlength⟩ := hparts.takeMany_eq
      have hfirst : Shaped (.node .modifier (tokens.map .leaf)) :=
        .node ⟨tokens, rfl, hlength ▸ hlengths length (by simp)⟩ (shapedAll_map_leaf tokens)
      have hothers := ih (fun n hn => hlengths n (by simp [hn])) hrest
      exact List.forall_mem_cons.mpr ⟨⟨hfirst, rfl⟩, hothers⟩

theorem Yields.modifiers_eq (hrun : Yields modifiers c t c') : ∃ found, t = .node .modifiers found ∧ t.Shaped := by
  simp only [modifiers, yields_get_bind] at hrun
  obtain ⟨found, _, hfound, hrun⟩ := yields_bind.mp hrun
  obtain ⟨rfl, -⟩ := yields_pure.mp hrun
  have hall := shaped_modifierList (modifierRun_eq c) hfound
  exact ⟨found, rfl, .node (fun t ht => (hall t ht).2) (fun t ht => (hall t ht).1)⟩

/-! ### Types -/

theorem shaped_paramName (hrun : Yields paramName c trees c') : ShapedAll trees := by
  simp only [paramName, yields_get_bind] at hrun
  split at hrun
  next => split at hrun <;> exact shapedAll_takeMany hrun
  next =>
    obtain ⟨rfl, -⟩ := yields_pure.mp hrun
    exact shapedAll_nil

theorem shaped_constraint (hg : g.Shaping) (hrun : Yields (constraint g) c trees c') : ShapedAll trees := by
  simp only [constraint, yields_get_bind] at hrun
  split at hrun
  next =>
    simp only [yields_advanceLeaf_bind] at hrun
    obtain ⟨type, _, htype, hrun⟩ := yields_bind.mp hrun
    obtain ⟨rfl, -⟩ := yields_pure.mp hrun
    exact shapedAll_cons.mpr ⟨.leaf _, hg.type htype⟩
  next =>
    obtain ⟨rfl, -⟩ := yields_pure.mp hrun
    exact shapedAll_nil

theorem shaped_genericParam (hg : g.Shaping) (hrun : Yields (genericParam g) c t c') : t.Shaped := by
  simp only [genericParam] at hrun
  obtain ⟨name, _, hname, hrun⟩ := yields_bind.mp hrun
  obtain ⟨type, _, htype, hrun⟩ := yields_bind.mp hrun
  obtain ⟨comma, _, hcomma, hrun⟩ := yields_bind.mp hrun
  split at hrun
  next =>
    simp only [yields_advanceLeaf_bind, yields_pure] at hrun
    obtain ⟨rfl, -⟩ := hrun
    exact .node trivial (by simp)
  next =>
    obtain ⟨rfl, -⟩ := yields_pure.mp hrun
    have hall : ShapedAll (name ++ type ++ comma) := by
      simp [shaped_paramName hname, shaped_constraint hg htype, shapedAll_takeIf hcomma]
    exact .node trivial hall

theorem Yields.genericParams?_eq (hg : g.Shaping) (hrun : Yields (genericParams? g) c found c') :
    ∃ params, found.toList = optional .genericParams params ∧ ShapedAll found.toList := by
  simp only [genericParams?, yields_get_bind] at hrun
  split at hrun
  next =>
    simp only [yields_splitOff_bind] at hrun
    obtain ⟨inside, c₁, hinside, hrun⟩ := yields_bind.mp hrun
    simp only [yields_splitOff_bind, yields_pure] at hrun
    obtain ⟨rfl, -⟩ := hrun
    have hall : ShapedAll inside := Yields.forall_gather (fun {c more c'} hturn => by
      simp only [yields_get_bind] at hturn
      repeat' split at hturn
      · exact absurd hturn not_yields_none
      · exact absurd hturn yields_throw
      · obtain ⟨t, rfl, hparam⟩ := hturn.some_singleton
        simpa using shaped_genericParam hg hparam) hinside
    have hparts : ShapedAll (.leaf c.splitOff.1 :: inside ++ [.leaf c₁.splitOff.1]) := by simpa using hall
    exact ⟨some _, rfl, shapedAll_cons.mpr ⟨.node trivial hparts, shapedAll_nil⟩⟩
  next =>
    obtain ⟨rfl, -⟩ := yields_pure.mp hrun
    exact ⟨none, rfl, by simp⟩

/-- The entries read so far all have a comma, or there is one more and no comma behind it. -/
theorem Yields.inheritance_eq (hg : g.Shaping) (hkind : c.current.kind = .colon)
    (hrun : Yields (inheritance g) c t c') : ∃ children, t = .node .inheritance children ∧ t.Shaped := by
  simp only [inheritance, yields_advanceLeaf_bind] at hrun
  obtain ⟨entries, _, hentries, hrun⟩ := yields_bind.mp hrun
  obtain ⟨rfl, -⟩ := yields_pure.mp hrun
  have hall : (∀ t ∈ entries, t.Shaped ∧ t.is .inheritedType = true) ∧
      ∀ t ∈ entries.dropLast, t.endsInComma = true := by
    refine Yields.repeatFrom_induction
      (fun reversed _ => (∀ t ∈ reversed, t.Shaped ∧ t.is .inheritedType = true) ∧
        ∀ t ∈ reversed, t.endsInComma = true)
      (fun entries _ => (∀ t ∈ entries, t.Shaped ∧ t.is .inheritedType = true) ∧
        ∀ t ∈ entries.dropLast, t.endsInComma = true) ?_ ⟨by simp, by simp⟩ hentries
    rintro reversed c₁ outcome c₂ ⟨hshaped, hcommaed⟩ hturn
    simp only [inheritanceTurn] at hturn
    obtain ⟨type, _, htype, hturn⟩ := yields_bind.mp hturn
    cases type with
    | none =>
        obtain ⟨rfl, -⟩ := yields_pure.mp hturn
        refine ⟨by simpa using hshaped, fun t ht => hcommaed t ?_⟩
        exact List.mem_reverse.mp (List.dropLast_subset _ ht)
    | some type =>
        obtain ⟨label, parts, rfl⟩ := hg.type_node htype
        obtain ⟨comma, _, hcomma, hturn⟩ := yields_bind.mp hturn
        obtain ⟨token, rfl, htoken⟩ := hcomma.takeIf_eq
        have hbound := hg.type htype
        rw [Option.toList_some, shapedAll_cons] at hbound
        have hentry : Shaped (.node .inheritedType (.node label parts :: optionalLeaf token)) :=
          .node ⟨label, parts, token, rfl, htoken⟩ (shapedAll_cons.mpr ⟨hbound.1, shapedAll_optionalLeaf⟩)
        have hentries : ∀ t ∈ Tree.node .inheritedType (.node label parts :: optionalLeaf token) :: reversed,
            t.Shaped ∧ t.is .inheritedType = true := List.forall_mem_cons.mpr ⟨⟨hentry, rfl⟩, hshaped⟩
        split at hturn
        next =>
          obtain ⟨rfl, -⟩ := yields_pure.mp hturn
          refine ⟨fun t ht => hentries t (List.mem_reverse.mp ht), ?_⟩
          rw [List.reverse_cons, List.dropLast_concat]
          exact fun t ht => hcommaed t (List.mem_reverse.mp ht)
        next hsome =>
          obtain ⟨rfl, -⟩ := yields_pure.mp hturn
          refine ⟨hentries, List.forall_mem_cons.mpr ⟨?_, hcommaed⟩⟩
          cases token with
          | none => simp [optionalLeaf] at hsome
          | some token => simpa [endsInComma, Tree.children, optionalLeaf, isLeaf, token?] using htoken
  refine ⟨_, rfl, .node ⟨c.advance.1, entries, rfl, by simpa using hkind, fun t ht => (hall.1 t ht).2, hall.2⟩ ?_⟩
  exact shapedAll_cons.mpr ⟨.leaf _, fun t ht => (hall.1 t ht).1⟩

theorem Yields.whereClause_eq (hg : g.Shaping) (hrun : Yields (whereClause g) c t c') :
    ∃ children, t = .node .whereClause children ∧ t.Shaped := by
  simp only [whereClause, yields_advanceLeaf_bind, yields_setCondition_bind] at hrun
  obtain ⟨inside, _, hinside, hrun⟩ := yields_bind.mp hrun
  simp only [yields_setCondition_bind, yields_pure] at hrun
  obtain ⟨rfl, -⟩ := hrun
  have hall : ShapedAll inside := Yields.forall_gather (fun {c more c'} hturn => by
    simp only [yields_get_bind] at hturn
    split at hturn
    · exact absurd hturn not_yields_none
    · obtain ⟨t, rfl, hitem⟩ := hturn.some_singleton
      simpa using hg.item hitem) hinside
  exact ⟨_, rfl, .node trivial (shapedAll_cons.mpr ⟨.leaf _, hall⟩)⟩

theorem Yields.declaredName?_eq (hg : g.Shaping) {keyword : Token}
    (hrun : Yields (declaredName? g keyword) c (some t) c') :
    t.Shaped ∧ (keyword.kind ≠ .extensionWord → ∃ token, t = .leaf token) := by
  simp only [declaredName?] at hrun
  split at hrun
  next hextension =>
    refine ⟨by simpa using hg.type hrun, fun hkind => absurd (beq_iff_eq.mp hextension) hkind⟩
  next =>
    simp only [yields_get_bind] at hrun
    split at hrun
    next =>
      obtain ⟨rfl, -⟩ := yields_advanceLeaf.mp hrun.of_some
      exact ⟨.leaf _, fun _ => ⟨_, rfl⟩⟩
    next => exact absurd hrun not_yields_none

/-- An optional part of a declaration, read under a condition, is shaped. -/
theorem Yields.optional_eq {p : Prop} [Decidable p] {r : Rule Tree} {label : Label}
    (hr : ∀ {t}, p → Yields r c t c' → ∃ children, t = .node label children ∧ t.Shaped)
    (hrun : Yields (if p then some <$> r else pure none) c found c') :
    ∃ children, found.toList = optional label children ∧ ShapedAll found.toList := by
  obtain ⟨hp, t, ht, rfl⟩ | ⟨-, rfl, -⟩ := yields_guarded_some.mp hrun
  · obtain ⟨children, rfl, hshaped⟩ := hr hp ht
    exact ⟨some children, rfl, by simpa using hshaped⟩
  · exact ⟨none, rfl, by simp⟩

theorem shaped_typeDecl (hg : g.Shaping) {attributes modifiers : List Tree}
    (hattributes : Shaped (.node .attributes attributes)) (hmodifiers : Shaped (.node .modifiers modifiers))
    (hrun : Yields (typeDecl g (.node .attributes attributes) (.node .modifiers modifiers)) c t c') : t.Shaped := by
  simp only [typeDecl, yields_advance_bind] at hrun
  obtain ⟨name, c₁, hname, hrun⟩ := yields_bind.mp hrun
  cases name with
  | none =>
      simp only [yields_get_bind] at hrun
      exact absurd hrun yields_throw
  | some name =>
      obtain ⟨params, c₂, hparams, hrun⟩ := yields_bind.mp hrun
      simp only [yields_get_bind] at hrun
      obtain ⟨clause, c₃, hclause, hrun⟩ := yields_ite_bind.mp hrun
      simp only [yields_get_bind] at hrun
      obtain ⟨requirements, c₄, hrequirements, hrun⟩ := yields_ite_bind.mp hrun
      simp only [yields_get_bind] at hrun
      split at hrun
      next =>
        obtain ⟨body, c₅, hbody, hrun⟩ := yields_bind.mp hrun
        obtain ⟨rfl, -⟩ := yields_pure.mp hrun
        obtain ⟨hnamed, htoken⟩ := hname.declaredName?_eq hg
        obtain ⟨params', hparamsEq, hfirst⟩ := hparams.genericParams?_eq hg
        obtain ⟨clause', hclauseEq, hsecond⟩ :=
          Yields.optional_eq (fun hcolon => Yields.inheritance_eq hg (beq_iff_eq.mp hcolon)) hclause
        obtain ⟨requirements', hrequirementsEq, hthird⟩ :=
          Yields.optional_eq (fun _ => Yields.whereClause_eq hg) hrequirements
        obtain ⟨members, rfl, hmembers⟩ := hbody.block_eq hg
        have hblock : Shaped (.node .memberBlock members) := .node trivial hmembers
        refine .node ⟨attributes, modifiers, _, name, params', clause', requirements', members, ?_, htoken⟩ ?_
        · rw [hparamsEq, hclauseEq, hrequirementsEq]
        · have hrest : ShapedAll (params.toList ++ clause.toList ++ requirements.toList ++ [.node .memberBlock members]) := by
            simp [hfirst, hsecond, hthird, hblock]
          exact shapedAll_cons.mpr ⟨hattributes, shapedAll_cons.mpr ⟨hmodifiers,
            shapedAll_cons.mpr ⟨.leaf _, shapedAll_cons.mpr ⟨hnamed, hrest⟩⟩⟩⟩
      next => exact absurd hrun yields_throw

/-! ### Variables -/

theorem Yields.pattern?_eq (hg : g.Shaping) (hrun : Yields (pattern? g) c (some t) c') :
    t.Shaped ∧ (t.isLeaf .identifier = true ∨ t.is .group = true) := by
  simp only [pattern?, yields_get_bind] at hrun
  split at hrun
  next hkind =>
    obtain ⟨rfl, -⟩ := yields_advanceLeaf.mp hrun.of_some
    exact ⟨.leaf _, .inl (by simp [isLeaf, token?, hkind])⟩
  next =>
    obtain ⟨children, rfl, hall⟩ := hrun.of_some.arguments_eq hg
    exact ⟨.node trivial hall, .inr rfl⟩
  next => exact absurd hrun not_yields_none

theorem Yields.typeClause_eq (hg : g.Shaping) (hrun : Yields (typeClause g) c trees c') :
    ∃ type, trees = optional .typeClause type ∧ ShapedAll trees := by
  simp only [typeClause, yields_get_bind] at hrun
  split at hrun
  next hcolon =>
    simp only [yields_advanceLeaf_bind] at hrun
    obtain ⟨type, _, htype, hrun⟩ := yields_bind.mp hrun
    obtain ⟨rfl, -⟩ := yields_pure.mp hrun
    have hclause : Shaped (.node .typeClause (.leaf c.advance.1 :: type.toList)) :=
      .node ⟨c.advance.1, type, rfl, by simpa using hcolon⟩ (shapedAll_cons.mpr ⟨.leaf _, hg.type htype⟩)
    exact ⟨some _, rfl, by simpa using hclause⟩
  next =>
    obtain ⟨rfl, -⟩ := yields_pure.mp hrun
    exact ⟨none, rfl, shapedAll_nil⟩

theorem Yields.initialValue_eq (hg : g.Shaping) (hrun : Yields (initialValue g) c trees c') :
    ∃ value, trees = optional .initialValue value ∧ ShapedAll trees := by
  simp only [initialValue, yields_get_bind] at hrun
  split at hrun
  next hassign =>
    simp only [yields_advanceLeaf_bind] at hrun
    obtain ⟨value, _, hvalue, hrun⟩ := yields_bind.mp hrun
    obtain ⟨rfl, -⟩ := yields_pure.mp hrun
    obtain ⟨parts, rfl, hparts⟩ := hvalue.expr_eq hg
    have hexpr : Shaped (.node .expr parts) := .node trivial hparts
    have hinitial : Shaped (.node .initialValue [.leaf c.advance.1, .node .expr parts]) :=
      .node ⟨c.advance.1, parts, rfl, by simpa using hassign⟩ (shapedAll_cons.mpr ⟨.leaf _, by simpa using hexpr⟩)
    exact ⟨some _, rfl, by simpa using hinitial⟩
  next =>
    obtain ⟨rfl, -⟩ := yields_pure.mp hrun
    exact ⟨none, rfl, shapedAll_nil⟩

theorem Yields.accessors_eq (hg : g.Shaping) {typed valued : Bool}
    (hrun : Yields (accessors g typed valued) c trees c') :
    ∃ body, trees = optional .accessorBlock body ∧ ShapedAll trees := by
  simp only [accessors, yields_get_bind] at hrun
  split at hrun
  next =>
    obtain ⟨body, _, hbody, hrun⟩ := yields_bind.mp hrun
    obtain ⟨rfl, -⟩ := yields_pure.mp hrun
    obtain ⟨children, rfl, hall⟩ := hbody.block_eq hg
    have hblock : Shaped (.node .accessorBlock children) := .node trivial hall
    exact ⟨some children, rfl, by simpa using hblock⟩
  next =>
    obtain ⟨rfl, -⟩ := yields_pure.mp hrun
    exact ⟨none, rfl, shapedAll_nil⟩

theorem shaped_binding? (hg : g.Shaping) (hrun : Yields (binding? g) c (some t) c') :
    t.Shaped ∧ t.is .binding = true := by
  simp only [binding?] at hrun
  obtain ⟨pattern, _, hpattern, hrun⟩ := yields_bind.mp hrun
  cases pattern with
  | none => exact absurd hrun not_yields_none
  | some pattern =>
      obtain ⟨type, _, htype, hrun⟩ := yields_bind.mp hrun
      obtain ⟨value, _, hvalue, hrun⟩ := yields_bind.mp hrun
      obtain ⟨body, _, hbody, hrun⟩ := yields_bind.mp hrun
      obtain ⟨comma, _, hcomma, hrun⟩ := yields_bind.mp hrun
      obtain ⟨heq, -⟩ := yields_pure.mp hrun
      cases heq
      obtain ⟨hshaped, hname⟩ := hpattern.pattern?_eq hg
      obtain ⟨type, rfl, hfirst⟩ := htype.typeClause_eq hg
      obtain ⟨value, rfl, hsecond⟩ := hvalue.initialValue_eq hg
      obtain ⟨body, rfl, hthird⟩ := hbody.accessors_eq hg
      obtain ⟨token, rfl, htoken⟩ := hcomma.takeIf_eq
      refine ⟨.node ⟨pattern, type, value, body, token, by simp, hname, htoken⟩ ?_, rfl⟩
      have hall : ShapedAll (pattern :: optional .typeClause type ++ optional .initialValue value ++
          optional .accessorBlock body ++ optionalLeaf token) := by simp [hshaped, hfirst, hsecond, hthird]
      exact hall

theorem shaped_variableDecl (hg : g.Shaping) {attributes modifiers : List Tree}
    (hattributes : Shaped (.node .attributes attributes)) (hmodifiers : Shaped (.node .modifiers modifiers))
    (hkind : c.current.kind.declaresVariable = true)
    (hrun : Yields (variableDecl g (.node .attributes attributes) (.node .modifiers modifiers)) c t c') :
    t.Shaped := by
  simp only [variableDecl, yields_advanceLeaf_bind] at hrun
  obtain ⟨bindings, _, hbindings, hrun⟩ := yields_bind.mp hrun
  obtain ⟨rfl, -⟩ := yields_pure.mp hrun
  have hall : ∀ t ∈ bindings, t.Shaped ∧ t.is .binding = true := by
    refine Yields.repeatFrom_induction (fun reversed _ => ∀ t ∈ reversed, t.Shaped ∧ t.is .binding = true)
      (fun bindings _ => ∀ t ∈ bindings, t.Shaped ∧ t.is .binding = true) ?_ (by simp) hbindings
    intro reversed c₁ outcome c₂ hall hturn
    simp only [bindingTurn] at hturn
    obtain ⟨binding, _, hbinding, hturn⟩ := yields_bind.mp hturn
    cases binding with
    | none =>
        obtain ⟨rfl, -⟩ := yields_pure.mp hturn
        exact fun t ht => hall t (List.mem_reverse.mp ht)
    | some binding =>
        have hmore : ∀ t ∈ binding :: reversed, t.Shaped ∧ t.is .binding = true :=
          List.forall_mem_cons.mpr ⟨shaped_binding? hg hbinding, hall⟩
        dsimp only at hturn
        split at hturn
        · obtain ⟨rfl, -⟩ := yields_pure.mp hturn
          exact hmore
        · obtain ⟨rfl, -⟩ := yields_pure.mp hturn
          exact fun t ht => hmore t (List.mem_reverse.mp ht)
  refine .node ⟨attributes, modifiers, c.advance.1, bindings, rfl, by simpa using hkind,
    fun t ht => (hall t ht).2⟩ ?_
  exact shapedAll_cons.mpr ⟨hattributes, shapedAll_cons.mpr ⟨hmodifiers,
    shapedAll_cons.mpr ⟨.leaf _, fun t ht => (hall t ht).1⟩⟩⟩

/-! ### The whole grammar -/

theorem shaped_declaration (hg : g.Shaping) (hrun : Yields (declaration g) c t c') : t.Shaped := by
  simp only [declaration] at hrun
  obtain ⟨_, _, hattributes, hrun⟩ := yields_bind.mp hrun
  obtain ⟨_, _, hmodifiers, hrun⟩ := yields_bind.mp hrun
  obtain ⟨attributes, rfl, hattributes⟩ := hattributes.attributes_eq hg
  obtain ⟨modifiers, rfl, hmodifiers⟩ := hmodifiers.modifiers_eq
  simp only [yields_get_bind] at hrun
  split at hrun
  next => exact shaped_typeDecl hg hattributes hmodifiers hrun
  split at hrun
  next hvariable => exact shaped_variableDecl hg hattributes hmodifiers hvariable hrun
  next =>
    obtain ⟨rfl, -⟩ := yields_pure.mp hrun
    exact .node trivial (shapedAll_cons.mpr ⟨hattributes, by simpa using hmodifiers⟩)

theorem shaped_item (hg : g.Shaping) (hrun : Yields (item g) c t c') : t.Shaped := by
  simp only [item, yields_get_bind] at hrun
  split at hrun
  next => exact shaped_declaration hg hrun
  split at hrun
  next =>
    simp only [yields_setCondition_bind] at hrun
    obtain ⟨rfl, -⟩ := yields_advanceLeaf.mp hrun
    exact .leaf _
  next => exact shaped_chain hg hrun

/-- At every nesting limit items and types are shaped. -/
theorem shaping_nonterminals (fuel limit : Nat) : (nonterminals fuel limit).Shaping := by
  induction limit with
  | zero =>
      exact ⟨fun hrun => absurd hrun yields_throw, fun hrun => absurd hrun yields_throw,
        fun hrun => absurd hrun yields_throw⟩
  | succ limit ih =>
      refine ⟨shaped_item ih, fun {c found c'} hrun => ?_, fun hrun => (shaped_type? ih hrun).2⟩
      cases found with
      | none => exact shapedAll_nil
      | some t => exact shapedAll_cons.mpr ⟨(shaped_type? ih hrun).1, shapedAll_nil⟩

theorem shaped_sourceFile (hg : g.Shaping) (hrun : Yields (sourceFile g) c t c') : t.Shaped := by
  simp only [sourceFile] at hrun
  obtain ⟨inside, _, hinside, hrun⟩ := yields_bind.mp hrun
  simp only [yields_advanceLeaf_bind, yields_pure] at hrun
  obtain ⟨rfl, -⟩ := hrun
  exact .node trivial (shapedAll_append.mpr ⟨shaped_items hg hinside, by simp⟩)

end SwiftObservation.Grammar

namespace SwiftObservation

theorem Tree.shaped_of_ofTokens {limit : Nat} {tokens : List Token} {t : Tree}
    (hparse : Tree.ofTokens limit tokens = .ok t) : t.Shaped := by
  obtain ⟨c', hrun⟩ := Grammar.yields_of_ofTokens hparse
  exact Grammar.shaped_sourceFile (Grammar.shaping_nonterminals _ _) hrun

theorem Tree.shaped_of_ofSource {limits : Limits} {source : Text} {t : Tree}
    (hread : Tree.ofSource limits source = .ok t) : t.Shaped := by
  obtain ⟨tokens, -, hparse⟩ := Tree.ofSource_eq_ok hread
  exact Tree.shaped_of_ofTokens hparse

end SwiftObservation
