import SwiftObservation.Proofs.Grammar.Complaints
import SwiftObservation.Proofs.Grammar.Limits

/-!
# Reading comes to an end

The weight of a cursor bounds the tokens to come however operators are cut, and moving the cursor back to where an attempt
began brings back the weight that it had there. Every turn of a repetition that goes on reads a token and so lowers the
weight. Every way from a rule back to itself leads through an item or a type, or through the operand behind an operator; what
an item or a type is depends on no item and no type but those at lower weights. So with turns and nestings as many as the
weight allows, every list of tokens has a tree or an error that carries a token.
-/

namespace SwiftObservation

namespace Grammar

variable {α : Type} {fuel limit bound : Nat} {c c' : Cursor} {e : ParseError} {g : Nonterminals} {t : Tree}

/-! ### Repetitions -/

theorem modifierLengths_pos (tokens : List Token) : ∀ n ∈ Cursor.modifierLengths tokens, 0 < n := by
  intro n hn
  obtain rfl | rfl := modifierLengths_eq tokens n hn <;> decide

theorem leaves_modifierList {lengths : List Nat} (hlengths : ∀ n ∈ lengths, 0 < n) {trees : List Tree}
    (hrun : Yields (lengths.mapM fun length => return Tree.node .modifier (← takeMany length)) c trees c') :
    ∀ t ∈ trees, t.leaves ≠ [] := by
  induction lengths generalizing c trees with
  | nil =>
      rw [List.mapM_nil] at hrun
      obtain ⟨rfl, -⟩ := yields_pure.mp hrun
      exact fun t ht => absurd ht List.not_mem_nil
  | cons length lengths ih =>
      obtain ⟨hlength, hothers⟩ := List.forall_mem_cons.mp hlengths
      simp only [List.mapM_cons, bind_assoc, pure_bind] at hrun
      obtain ⟨parts, c₁, hparts, hrun⟩ := yields_bind.mp hrun
      obtain ⟨rest, _, hrest, hrun⟩ := yields_bind.mp hrun
      obtain ⟨rfl, rfl⟩ := yields_pure.mp hrun
      obtain ⟨tokens, rfl, rfl⟩ := hparts.takeMany_eq
      obtain ⟨first, tokens, rfl⟩ := List.exists_cons_of_length_pos hlength
      exact List.forall_mem_cons.mpr ⟨leaves_node List.mem_cons_self (leaves_leaf first), ih hothers hrest⟩

/-- Every modifier has a token. -/
theorem leaves_modifiers (hrun : Yields modifiers c t c') : ∀ modifier ∈ t.children, modifier.leaves ≠ [] := by
  simp only [modifiers, yields_get_bind] at hrun
  obtain ⟨found, _, hfound, hrun⟩ := yields_bind.mp hrun
  obtain ⟨rfl, -⟩ := yields_pure.mp hrun
  refine leaves_modifierList (fun n hn => ?_) hfound
  obtain rfl | rfl := modifierRun_eq c n hn <;> decide

/-- Every repetition reads a token in each turn that goes on, and the look-ahead over modifiers passes one. -/
structure Nonterminals.Progress (g : Nonterminals) : Prop where
  items : ∀ opener, Collects (itemTurn g opener)
  elements : ∀ closer, Collects (elementTurn g closer)
  arguments : ∀ opener closer, Collects (argumentTurn g opener closer)
  genericArgs : ∀ start, Consumes (genericArgsTurn g start)
  members : Consumes (memberTurn g)
  typeHead : Collects (headTurn g)
  typeTail : Consumes (typeTailTurn g)
  closures : Collects (closureTurn g)
  chain : Consumes (chainTurn g)
  markers : Collects markerTurn
  expr : Consumes (exprTurn g)
  attributes : Collects (attributeTurn g)
  genericParams : ∀ opener, Collects (paramTurn g opener)
  inheritance : Consumes (inheritanceTurn g)
  requirements : Collects (requirementTurn g)
  bindings : Consumes (bindingTurn g)
  modifiers : ∀ {c t c'}, c.Sound → Yields modifiers c t c' →
    Reads c t.leaves c' ∧ ∀ modifier ∈ t.children, modifier.leaves ≠ []
  lookAhead : ∀ tokens, (∀ n ∈ Cursor.modifierLengths tokens, 0 < n) ∧
    (Cursor.modifierLengths tokens).foldr (· + ·) 0 ≤ tokens.length

theorem Nonterminals.Blaming.progress (hg : g.Blaming limit) : g.Progress where
  items _ := collects_itemTurn hg
  elements _ := collects_elementTurn hg
  arguments _ _ := collects_argumentTurn hg
  genericArgs _ := consumes_genericArgsTurn hg
  members := consumes_memberTurn hg
  typeHead := collects_headTurn hg
  typeTail := consumes_typeTailTurn hg
  closures := collects_closureTurn hg
  chain := consumes_chainTurn hg
  markers := collects_markerTurn
  expr := consumes_exprTurn hg
  attributes := collects_attributeTurn hg
  genericParams _ := collects_paramTurn hg
  inheritance := consumes_inheritanceTurn hg
  requirements := collects_requirementTurn hg
  bindings := consumes_bindingTurn hg
  modifiers hc hrun := ⟨reads_modifiers hc hrun, leaves_modifiers hrun⟩
  lookAhead tokens := ⟨modifierLengths_pos tokens, modifierLengths_le tokens⟩

/-! ### Items and types at lower weights -/

/-- The rule, refused where the weight is not below the bound. -/
def onlyBelow (bound : Nat) (r : Rule α) : Rule α := fun c => if c.weight < bound then r c else .error .tooDeep

theorem narrows_onlyBelow (bound : Nat) (r : Rule α) : Narrows (onlyBelow bound r) r := by
  intro c
  unfold onlyBelow
  split
  · exact .inl rfl
  · exact .inr rfl

theorem Yields.of_onlyBelow {r : Rule α} {a : α} (hrun : Yields (onlyBelow bound r) c a c') : Yields r c a c' := by
  unfold Yields onlyBelow at hrun
  split at hrun
  · exact hrun
  · cases hrun

theorem Fails.of_onlyBelow {r : Rule α} (hfails : Fails (onlyBelow bound r) c e) :
    (c.weight < bound ∧ Fails r c e) ∨ (bound ≤ c.weight ∧ e = .tooDeep) := by
  unfold Fails onlyBelow at hfails
  split at hfails
  next hlt => exact .inl ⟨hlt, hfails⟩
  next hle => exact .inr ⟨Nat.le_of_not_lt hle, (Except.error.inj hfails).symm⟩

/-- The same items and types, refused where the weight is not below the bound. -/
def Nonterminals.below (g : Nonterminals) (bound : Nat) : Nonterminals where
  fuel := g.fuel
  item := onlyBelow bound g.item
  type := onlyBelow bound g.type

theorem Nonterminals.narrows_below (g : Nonterminals) (bound : Nat) : (g.below bound).Narrows g :=
  ⟨rfl, narrows_onlyBelow bound g.item, narrows_onlyBelow bound g.type⟩

/-- Where a limit is hit, a lower one would be. -/
theorem Blames.lower (hblames : Blames limit c e) (hbound : bound ≤ limit) : Blames bound c e :=
  (Reads.refl c).blames_of (fun hdeep => Nat.le_trans hbound hdeep) hblames

theorem Nonterminals.Blaming.below (hg : g.Blaming limit) (hbound : bound ≤ limit) : (g.below bound).Blaming bound where
  reading := ⟨fun hc hrun => hg.reading.item hc hrun.of_onlyBelow, fun hc hrun => hg.reading.type hc hrun.of_onlyBelow⟩
  nesting := ⟨fun hrun => hg.nesting.item hrun.of_onlyBelow, fun hrun => hg.nesting.type hrun.of_onlyBelow⟩
  item hc hfuel hinside hfails := by
    obtain ⟨-, hfails⟩ | ⟨hle, rfl⟩ := hfails.of_onlyBelow
    · exact (hg.item hc hfuel hinside hfails).lower hbound
    · exact .tooDeep hle
  type hc hfuel hfails := by
    obtain ⟨-, hfails⟩ | ⟨hle, rfl⟩ := hfails.of_onlyBelow
    · exact (hg.type hc hfuel hfails).lower hbound
    · exact .tooDeep hle
  itemLeaf hrun := hg.itemLeaf hrun.of_onlyBelow
  typeLeaf hrun := hg.typeLeaf hrun.of_onlyBelow
  typeNone hrun := hg.typeNone hrun.of_onlyBelow

/-- What an item is depends on items and types at lower weights only, and refusing all others is not noticed. -/
theorem item_below (hg : g.Blaming limit) (hc : c.Sound) (hfuel : c.weight < g.fuel) (hlimit : c.weight ≤ limit) :
    item (g.below c.weight) c = item g c ∧ ¬ Fails (item g) c .tooDeep := by
  have hserved : ¬ Fails (item (g.below c.weight)) c .tooDeep := by
    intro hdeep
    -- At a boundary an item fails anyway; anywhere else to be refused would take a token that is not there.
    by_cases hboundary : c.atBoundary = true
    · cases (fails_item hboundary).symm.trans hdeep
    · cases blames_item (hg.below hlimit) hc hfuel hboundary hdeep with
      | tooDeep hle => exact Nat.not_succ_le_self _ hle
  have hsame := (narrows_item (g.narrows_below c.weight) c).resolve_right hserved
  exact ⟨hsame, fun hdeep => hserved (hsame.trans hdeep)⟩

/-- What a type is depends on items and types at lower weights only, and refusing all others is not noticed. -/
theorem type?_below (hg : g.Blaming limit) (hc : c.Sound) (hfuel : c.weight < g.fuel) (hlimit : c.weight ≤ limit) :
    type? (g.below c.weight) c = type? g c ∧ ¬ Fails (type? g) c .tooDeep := by
  have hserved : ¬ Fails (type? (g.below c.weight)) c .tooDeep := by
    intro hdeep
    cases blames_type? (hg.below hlimit) hc hfuel hdeep with
    | tooDeep hle => exact Nat.not_succ_le_self _ hle
  have hsame := (narrows_type? (g.narrows_below c.weight) c).resolve_right hserved
  exact ⟨hsame, fun hdeep => hserved (hsame.trans hdeep)⟩

/-! ### Operands behind operators -/

/-- The next token is an operator that applies to the operand behind it. -/
def Cursor.appliesOperator (c : Cursor) : Bool :=
  (c.current.kind == .operator || c.current.kind == .backslash) && c.current.trailing.isEmpty && startsOperand (c.peek 1)

theorem primary_eq_plainPrimary (hstarts : startsOperand c.current = true) : primary g c = plainPrimary g c := by
  have hother : (c.current.kind == .operator || c.current.kind == .backslash) = false := by
    simp only [startsOperand, Bool.and_eq_true] at hstarts
    cases hkind : c.current.kind <;> simp_all [Token.isWord, TokenKind.isWord]
  show (if _ then _ else plainPrimary g : Rule Tree) c = _
  rw [hother]
  rfl

/-- The operand behind an operator is a chain like any other. -/
theorem primary_eq_chain (happlies : c.appliesOperator = true) :
    primary g c = (do return .node .prefixOp [← advanceLeaf, ← chain g] : Rule Tree) c := by
  have hstarts : startsOperand c.advance.2.current = true := by
    simp only [Cursor.appliesOperator, Bool.and_eq_true] at happlies
    rw [Cursor.current_advance]
    exact happlies.2
  have hoperand : chainFrom g (plainPrimary g) c.advance.2 = chain g c.advance.2 := by
    simp only [chain, chainFrom, Bind.bind, StateT.bind, primary_eq_plainPrimary hstarts]
  have happlied : primary g c =
      (do return .node .prefixOp [← advanceLeaf, ← chainFrom g (plainPrimary g)] : Rule Tree) c :=
    congrFun (if_pos happlies) c
  have hbehind (operand : Rule Tree) : (do return .node .prefixOp [← advanceLeaf, ← operand] : Rule Tree) c =
      (do return .node .prefixOp [.leaf c.advance.1, ← operand] : Rule Tree) c.advance.2 := rfl
  rw [happlied, hbehind, hbehind]
  simp only [Bind.bind, StateT.bind, hoperand]

theorem Cursor.kind_ne_of_appliesOperator (happlies : c.appliesOperator = true) : c.current.kind ≠ .endOfFile := by
  intro hend
  simp [Cursor.appliesOperator, hend] at happlies

/-! ### Whole sources -/

/-- Every way from a rule back to itself lowers the weight: through an item or a type, or through the operand behind an
operator. An attempt at generic arguments that is given up leaves the weight as it was. -/
structure Nonterminals.Descent (g : Nonterminals) (limit : Nat) : Prop where
  item : ∀ {c}, c.Sound → c.weight < g.fuel → c.weight ≤ limit →
    Grammar.item (g.below c.weight) c = Grammar.item g c ∧ ¬ Fails (Grammar.item g) c .tooDeep
  type : ∀ {c}, c.Sound → c.weight < g.fuel → c.weight ≤ limit →
    type? (g.below c.weight) c = type? g c ∧ ¬ Fails (type? g) c .tooDeep
  operand : ∀ {c}, c.Sound → c.appliesOperator = true → c.advance.2.weight < c.weight ∧
    primary g c = (do return .node .prefixOp [← advanceLeaf, ← chain g] : Rule Tree) c
  givenUp : ∀ {c c'}, c.Sound → Yields (genericArgs? g) c none c' → c'.weight = c.weight

theorem Nonterminals.Blaming.descent (hg : g.Blaming limit) : g.Descent limit where
  item hc hfuel hlimit := item_below hg hc hfuel hlimit
  type hc hfuel hlimit := type?_below hg hc hfuel hlimit
  operand hc happlies :=
    ⟨(advances_advance hc (Cursor.kind_ne_of_appliesOperator happlies)).weight_lt, primary_eq_chain happlies⟩
  givenUp hc hrun := by
    have hweight := (reads_genericArgs? hg.reading hc hrun).weight_eq
    simpa [Tree.leavesOf, weightOf] using hweight.symm

end Grammar

namespace Tree

open Grammar

variable {limit : Nat} {tokens : List Token}

/-- At every limit beyond the weight a list of tokens has the same tree or the same error. -/
theorem ofTokens_eq_of_weight_lt (hlimit : (Cursor.ofTokens tokens).weight < limit) :
    ofTokens limit tokens = ofTokens ((Cursor.ofTokens tokens).weight + 1) tokens := by
  have hnarrows := narrows_nonterminals ((Cursor.ofTokens tokens).weight + 1) (Nat.succ_le_of_lt hlimit)
  obtain hsame | hdeep := narrows_sourceFile hnarrows (Cursor.ofTokens tokens)
  · simp only [ofTokens, StateT.run', hsame]
  · -- One nesting more than the weight is never reached.
    have hparse : ofTokens ((Cursor.ofTokens tokens).weight + 1) tokens = .error .tooDeep := by
      simp only [ofTokens, StateT.run', hdeep]
      rfl
    cases blames_of_ofTokens hparse with
    | tooDeep hle => exact absurd hle (Nat.not_succ_le_self _)

/-- Every list of tokens, whatever their kinds, texts and trivia are, has a tree or an error that carries a token, and the
same one at every nesting limit beyond its weight. Every turn of a repetition that goes on reads a token, every nesting
begins at a lower weight, and to read a token lowers the weight. -/
theorem ofTokens_ends (tokens : List Token) :
    (∀ limit, (Cursor.ofTokens tokens).weight < limit →
      ((∃ t, ofTokens limit tokens = .ok t) ∨ ∃ e token, ofTokens limit tokens = .error e ∧ e.token? = some token) ∧
        ofTokens limit tokens = ofTokens ((Cursor.ofTokens tokens).weight + 1) tokens) ∧
    (∀ fuel limit, (nonterminals fuel limit).Progress ∧ (nonterminals fuel limit).Descent limit) ∧
    ∀ c c', Advances c c' → c'.weight < c.weight := by
  refine ⟨fun limit hlimit => ⟨?_, ofTokens_eq_of_weight_lt hlimit⟩, fun fuel limit => ?_, ?_⟩
  · cases hparse : ofTokens limit tokens with
    | ok t => exact .inl ⟨t, rfl⟩
    | error e =>
        obtain ⟨-, token, htoken, -⟩ | ⟨-, hdeep⟩ := (blames_of_ofTokens hparse).documented
        · exact .inr ⟨e, token, rfl, htoken⟩
        · exact absurd hdeep (Nat.not_le_of_lt hlimit)
  · exact ⟨(blaming_nonterminals fuel limit).progress, (blaming_nonterminals fuel limit).descent⟩
  · intro c c' hread
    exact hread.weight_lt

/-- A name without a text, an operator that an attempt at generic arguments cuts before it is given up, and a brace behind
the end of the file. -/
theorem ofTokens_ends_givenUp :
    let tokens : List Token := [{ kind := .letWord, text := "let".toList }, { kind := .identifier, text := [] },
      { kind := .colon, text := [':'] }, { kind := .identifier, text := ['A'] }, { kind := .operator, text := ['<', '<'] },
      { kind := .identifier, text := ['B'] }, .endOfFile, { kind := .rightBrace, text := ['\x7d'] }]
    (Cursor.ofTokens tokens).weight < 10 ∧ (∃ t, ofTokens 10 tokens = .ok t ∧ t.leaves.length = 8) ∧
      ofTokens 10 tokens = ofTokens ((Cursor.ofTokens tokens).weight + 1) tokens := by
  intro tokens
  have hlimit : (Cursor.ofTokens tokens).weight < 10 := by decide
  have hany : (ofTokens 10 tokens).toOption.any (·.leaves.length == 8) = true := by decide +kernel
  obtain ⟨t, hparse, hleaves⟩ := exists_eq_ok_of_any hany
  exact ⟨hlimit, ⟨t, hparse, beq_iff_eq.mp hleaves⟩, ((ofTokens_ends tokens).1 10 hlimit).2⟩

end Tree

end SwiftObservation
