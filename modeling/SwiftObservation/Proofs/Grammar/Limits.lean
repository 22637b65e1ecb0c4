import SwiftObservation.Proofs.Grammar.Faults.Declarations

/-!
# Nesting limits

No rule recovers from the failure of another. So if some items and types do what others do wherever they do not give up for
being nested too deep, then every rule over them does what it does over the others, or gives up as well. A larger nesting
limit hence changes nothing about a list of tokens that is not nested too deep at the smaller one.
-/

namespace SwiftObservation.Grammar

variable {α β σ : Type}

/-- The rule does as the other one does, or gives up for being nested too deep. -/
def Narrows (r r' : Rule α) : Prop := ∀ c, r c = r' c ∨ r c = .error .tooDeep

section

variable {r r' s s' : Rule α} {next next' : α → Rule β} {fuel fuel' : Nat}

theorem Narrows.refl (r : Rule α) : Narrows r r := fun _ => .inl rfl

theorem narrows_tooDeep (r : Rule α) : Narrows (throw .tooDeep) r := fun _ => .inr rfl

theorem Narrows.bind (hr : Narrows r r') (hnext : ∀ a, Narrows (next a) (next' a)) :
    Narrows (r >>= next) (r' >>= next') := by
  intro c
  simp only [Bind.bind, StateT.bind, Except.bind]
  obtain hsame | hdeep := hr c
  · rw [hsame]
    cases r' c with
    | error e => exact .inl rfl
    | ok result => exact hnext result.1 result.2
  · rw [hdeep]
    exact .inr rfl

theorem Narrows.ite {p : Prop} [Decidable p] (hr : Narrows r r') (hs : Narrows s s') :
    Narrows (if p then r else s) (if p then r' else s') := by
  split
  · exact hr
  · exact hs

/-- A choice that the rest of a rule follows in either case. -/
theorem Narrows.ite_bind {p : Prop} [Decidable p] (hr : Narrows r r') (hs : Narrows s s')
    (hnext : ∀ a, Narrows (next a) (next' a)) :
    Narrows (if p then r >>= next else s >>= next) (if p then r' >>= next' else s' >>= next') :=
  .ite (hr.bind hnext) (hs.bind hnext)

theorem Narrows.map (f : α → β) (hr : Narrows r r') : Narrows (f <$> r) (f <$> r') := by
  rw [map_eq_pure_bind, map_eq_pure_bind]
  exact hr.bind fun _ => .refl _

theorem Narrows.repeatFrom {turn turn' : σ → Rule (Turn σ β)} {state : σ} (hfuel : fuel = fuel')
    (hturn : ∀ state, Narrows (turn state) (turn' state)) :
    Narrows (repeatFrom turn fuel state) (repeatFrom turn' fuel' state) := by
  subst hfuel
  induction fuel generalizing state with
  | zero => exact .refl _
  | succ fuel ih =>
      refine (hturn state).bind fun outcome => ?_
      cases outcome with
      | again state' => exact ih
      | done result => exact .refl _

theorem Narrows.gather {turn turn' : Rule (Option (List Tree))} (hfuel : fuel = fuel') (hturn : Narrows turn turn') :
    Narrows (gather fuel turn) (gather fuel' turn') :=
  .repeatFrom hfuel fun _ => hturn.bind fun _ => .refl _

end

/-- Items and types do as the others do, or give up for being nested too deep. -/
structure Nonterminals.Narrows (g g' : Nonterminals) : Prop where
  fuel : g.fuel = g'.fuel
  item : Grammar.Narrows g.item g'.item
  type : Grammar.Narrows g.type g'.type

variable {g g' : Nonterminals} (h : g.Narrows g')

include h

/-! ### Brackets -/

theorem narrows_items (opener : Option Token) : Narrows (items g opener) (items g' opener) := by
  refine .gather h.fuel (.bind (.refl _) fun c => .ite (.refl _) (.ite (.refl _) (.ite (.refl _) ?_)))
  exact h.item.bind fun _ => .refl _

theorem narrows_block (label : Label) : Narrows (block g label) (block g' label) :=
  .bind (.refl _) fun opener => .bind (.refl _) fun _ => (narrows_items h (some opener)).bind fun _ => .refl _

theorem narrows_argument (closer : TokenKind) : Narrows (argument g closer) (argument g' closer) := by
  refine .bind (.refl _) fun c => .ite_bind (.refl _) (.refl _) fun label => .bind ?_ fun _ => .refl _
  exact .gather h.fuel (.bind (.refl _) fun c => .ite (.refl _) (h.item.bind fun _ => .refl _))

theorem narrows_arguments (label : Label) : Narrows (arguments g label) (arguments g' label) := by
  refine .bind (.refl _) fun c => .bind (.refl _) fun opener => .bind (.refl _) fun _ => .bind ?_ fun _ => .refl _
  refine .gather h.fuel (.bind (.refl _) fun c => .ite (.refl _) (.ite (.refl _) (.ite (.refl _) ?_)))
  exact (narrows_argument h _).bind fun _ => .refl _

/-! ### Types and attributes -/

theorem narrows_genericArgs? : Narrows (genericArgs? g) (genericArgs? g') := by
  refine .bind (.refl _) fun start => .ite (.bind (.refl _) fun opener => .repeatFrom h.fuel fun reversed => ?_) (.refl _)
  exact .bind (.refl _) fun c => .ite (.refl _) (h.type.bind fun _ => .refl _)

theorem narrows_typeIdentifier : Narrows (typeIdentifier g) (typeIdentifier g') := by
  refine .bind (.refl _) fun name => (narrows_genericArgs? h).bind fun args => .repeatFrom h.fuel fun base => ?_
  refine .bind (.refl _) fun c => .ite (.bind (.refl _) fun member => ?_) (.refl _)
  exact (narrows_genericArgs? h).bind fun _ => .refl _

theorem narrows_singleAttribute : Narrows (singleAttribute g) (singleAttribute g') := by
  refine .bind (.refl _) fun sign => (narrows_typeIdentifier h).bind fun name => .bind (.refl _) fun c => ?_
  exact .ite ((narrows_arguments h _).bind fun _ => .refl _) (.refl _)

theorem narrows_typeHead : Narrows (typeHead g) (typeHead g') := by
  refine .gather h.fuel (.bind (.refl _) fun c => .ite ?_ (.refl _))
  exact (narrows_singleAttribute h).bind fun _ => .refl _

theorem narrows_typeCore? : Narrows (typeCore? g) (typeCore? g') := by
  refine .bind (.refl _) fun c => ?_
  split
  · exact (narrows_typeIdentifier h).bind fun _ => .refl _
  · exact (narrows_arguments h _).bind fun _ => .refl _
  · exact (narrows_arguments h _).bind fun _ => .refl _
  · exact .refl _

theorem narrows_typeTailTurn (reversed : List Tree) : Narrows (typeTailTurn g reversed) (typeTailTurn g' reversed) := by
  refine .bind (.refl _) fun c => .ite (.refl _) (.ite (.refl _) (.ite ?_ (.ite ?_ (.refl _))))
  · refine .bind (.refl _) fun effect => .bind (.refl _) fun c => .ite ?_ (.refl _)
    exact (narrows_arguments h _).bind fun _ => .refl _
  · exact .bind (.refl _) fun joint => h.type.bind fun _ => .refl _

theorem narrows_type? : Narrows (type? g) (type? g') := by
  refine (narrows_typeHead h).bind fun head => (narrows_typeCore? h).bind fun core => ?_
  cases core with
  | none => exact .refl _
  | some core => exact (Narrows.repeatFrom h.fuel (narrows_typeTailTurn h)).bind fun _ => .refl _

/-! ### Expressions -/

theorem narrows_trailingClosures (callee : Tree) : Narrows (trailingClosures g callee) (trailingClosures g' callee) := by
  refine (narrows_block h _).bind fun first => .bind ?_ fun _ => .refl _
  refine .gather h.fuel (.bind (.refl _) fun c => .ite (.bind (.refl _) fun label => ?_) (.refl _))
  exact (narrows_block h _).bind fun _ => .refl _

theorem narrows_chainTurn (base : Tree) : Narrows (chainTurn g base) (chainTurn g' base) := by
  refine .bind (.refl _) fun c => .ite (.refl _) (.ite (.refl _) (.ite ?_ (.ite ?_ (.ite ?_ (.refl _)))))
  · exact (narrows_arguments h _).bind fun _ => .refl _
  · exact (narrows_arguments h _).bind fun _ => .refl _
  · exact (narrows_trailingClosures h base).bind fun _ => .refl _

theorem narrows_chainFrom {primary primary' : Rule Tree} (hprimary : Narrows primary primary') :
    Narrows (chainFrom g primary) (chainFrom g' primary') :=
  hprimary.bind fun _ => .ite (.repeatFrom h.fuel (narrows_chainTurn h)) (.refl _)

theorem narrows_plainPrimary : Narrows (plainPrimary g) (plainPrimary g') :=
  .bind (.refl _) fun _ => .ite (narrows_block h _) (.ite (narrows_arguments h _) (.refl _))

theorem narrows_primary : Narrows (primary g) (primary g') := by
  refine .bind (.refl _) fun c => .ite (.bind (.refl _) fun operator => ?_) (narrows_plainPrimary h)
  exact (narrows_chainFrom h (narrows_plainPrimary h)).bind fun _ => .refl _

theorem narrows_chain : Narrows (chain g) (chain g') := narrows_chainFrom h (narrows_primary h)

theorem narrows_markers : Narrows (markers g) (markers g') := .gather h.fuel (.refl markerTurn)

theorem narrows_cast : Narrows (cast g) (cast g') := by
  refine .bind (.refl _) fun c => .ite (.bind (.refl _) fun word => ?_) (.refl _)
  exact .ite_bind (.refl _) (.refl _) fun mark => h.type.bind fun _ => .refl _

theorem narrows_exprTurn (s : ExprState) : Narrows (exprTurn g s) (exprTurn g' s) := by
  refine .bind (.refl _) fun c => .ite (.refl _) ((narrows_markers h).bind fun marks => .bind (.refl _) fun c => ?_)
  exact .ite (.refl _) ((narrows_chain h).bind fun operand => (narrows_cast h).bind fun _ => .refl _)

theorem narrows_expr : Narrows (expr g) (expr g') :=
  (Narrows.repeatFrom h.fuel (narrows_exprTurn h)).bind fun _ => .refl _

/-! ### Declarations -/

theorem narrows_attributes : Narrows (attributes g) (attributes g') := by
  refine .bind (.gather h.fuel (.bind (.refl _) fun c => .ite ?_ (.refl _))) fun _ => .refl _
  exact (narrows_singleAttribute h).bind fun _ => .refl _

theorem narrows_constraint : Narrows (constraint g) (constraint g') :=
  .bind (.refl _) fun _ => .ite (.bind (.refl _) fun _ => h.type.bind fun _ => .refl _) (.refl _)

theorem narrows_genericParams? : Narrows (genericParams? g) (genericParams? g') := by
  refine .bind (.refl _) fun c => .ite (.bind (.refl _) fun opener => .bind ?_ fun _ => .refl _) (.refl _)
  refine .gather h.fuel (.bind (.refl _) fun c => .ite (.refl _) (.ite (.refl _) (.bind ?_ fun _ => .refl _)))
  exact .bind (.refl _) fun name => (narrows_constraint h).bind fun _ => .refl _

theorem narrows_inheritance : Narrows (inheritance g) (inheritance g') := by
  refine .bind (.refl _) fun colon => .bind (.repeatFrom h.fuel fun reversed => ?_) fun _ => .refl _
  exact h.type.bind fun _ => .refl _

theorem narrows_whereClause : Narrows (whereClause g) (whereClause g') := by
  refine .bind (.refl _) fun word => .bind (.refl _) fun _ => .bind ?_ fun _ => .refl _
  exact .gather h.fuel (.bind (.refl _) fun c => .ite (.refl _) (h.item.bind fun _ => .refl _))

theorem narrows_declaredName? (keyword : Token) : Narrows (declaredName? g keyword) (declaredName? g' keyword) :=
  .ite h.type (.refl _)

theorem narrows_typeDecl (attributes modifiers : Tree) :
    Narrows (typeDecl g attributes modifiers) (typeDecl g' attributes modifiers) := by
  refine .bind (.refl _) fun keyword => (narrows_declaredName? h keyword).bind fun name => ?_
  cases name with
  | none => exact .refl _
  | some name =>
      refine (narrows_genericParams? h).bind fun params => .bind (.refl _) fun c => ?_
      refine .ite_bind ((narrows_inheritance h).map some) (.refl _) fun clause => .bind (.refl _) fun c => ?_
      refine .ite_bind ((narrows_whereClause h).map some) (.refl _) fun requirements => .bind (.refl _) fun c => ?_
      exact .ite ((narrows_block h _).bind fun _ => .refl _) (.refl _)

theorem narrows_pattern? : Narrows (pattern? g) (pattern? g') := by
  refine .bind (.refl _) fun c => ?_
  split
  · exact .refl _
  · exact (narrows_arguments h _).bind fun _ => .refl _
  · exact .refl _

theorem narrows_typeClause : Narrows (typeClause g) (typeClause g') :=
  .bind (.refl _) fun _ => .ite (.bind (.refl _) fun _ => h.type.bind fun _ => .refl _) (.refl _)

theorem narrows_initialValue : Narrows (initialValue g) (initialValue g') :=
  .bind (.refl _) fun _ => .ite (.bind (.refl _) fun _ => (narrows_expr h).bind fun _ => .refl _) (.refl _)

theorem narrows_accessors (typed valued : Bool) : Narrows (accessors g typed valued) (accessors g' typed valued) :=
  .bind (.refl _) fun _ => .ite ((narrows_block h _).bind fun _ => .refl _) (.refl _)

theorem narrows_binding? : Narrows (binding? g) (binding? g') := by
  refine (narrows_pattern? h).bind fun pattern => ?_
  cases pattern with
  | none => exact .refl _
  | some pattern =>
      refine (narrows_typeClause h).bind fun type => (narrows_initialValue h).bind fun value => ?_
      exact (narrows_accessors h _ _).bind fun _ => .refl _

theorem narrows_variableDecl (attributes modifiers : Tree) :
    Narrows (variableDecl g attributes modifiers) (variableDecl g' attributes modifiers) := by
  refine .bind (.refl _) fun keyword => .bind (.repeatFrom h.fuel fun reversed => ?_) fun _ => .refl _
  exact (narrows_binding? h).bind fun _ => .refl _

theorem narrows_declaration : Narrows (declaration g) (declaration g') := by
  refine (narrows_attributes h).bind fun attributes => .bind (.refl _) fun modifiers => .bind (.refl _) fun c => ?_
  exact .ite (narrows_typeDecl h attributes modifiers) (.ite (narrows_variableDecl h attributes modifiers) (.refl _))

/-! ### The whole grammar -/

theorem narrows_item : Narrows (item g) (item g') :=
  .bind (.refl _) fun _ => .ite (narrows_declaration h) (.ite (.refl _) (narrows_chain h))

theorem narrows_sourceFile : Narrows (sourceFile g) (sourceFile g') := (narrows_items h none).bind fun _ => .refl _

omit h

/-- Items and types at a smaller nesting limit do as those at a larger one, or give up. -/
theorem narrows_nonterminals (fuel : Nat) {limit limit' : Nat} (hlimit : limit ≤ limit') :
    (nonterminals fuel limit).Narrows (nonterminals fuel limit') := by
  induction limit generalizing limit' with
  | zero => exact ⟨by simp only [fuel_nonterminals], narrows_tooDeep _, narrows_tooDeep _⟩
  | succ limit ih =>
      -- Both limits allow for one nesting, and inside it the limits compare as before.
      cases limit' with
      | zero => exact absurd hlimit (Nat.not_succ_le_zero limit)
      | succ limit' =>
          have hinner := ih (Nat.le_of_succ_le_succ hlimit)
          rw [nonterminals, nonterminals]
          exact ⟨rfl, narrows_item hinner, narrows_type? hinner⟩

end SwiftObservation.Grammar
