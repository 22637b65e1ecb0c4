import SwiftObservation.Grammar.Expression
import SwiftObservation.Proofs.Grammar.Nesting.Basic
import SwiftObservation.Proofs.Grammar.Shape.Types

/-!
# Nesting in brackets, types and expressions

Every rule of the grammar yields trees that close what they open when items and types do. A bracket is taken only by the
rules for braces and for arguments, which see to it that it is closed; every other rule has looked at the tokens that it
takes, and they are no brackets.
-/

namespace SwiftObservation.Grammar

open SwiftObservation.Tree

/-- Items and types close what they open. -/
structure Nonterminals.Nesting (g : Nonterminals) : Prop where
  item : ∀ {c t c'}, Yields g.item c t c' → t.Nested
  type : ∀ {c found c'}, Yields g.type c found c' → NestedAll (Option.toList found)

variable {c c' : Cursor} {g : Nonterminals} {t : Tree} {trees : List Tree} {found : Option Tree} {fuel : Nat}

/-! ### Tokens -/

theorem isBracket_of_isOneOf {token : Token} {spellings : List Text} (hone : token.isOneOf spellings = true) :
    token.kind.isBracket = false := by
  simp only [Token.isOneOf, Bool.and_eq_true] at hone
  exact TokenKind.isBracket_of_isWord hone.1

theorem isBracket_of_isOperatorFrom {token : Token} {head : Char} (hoperator : token.isOperatorFrom head = true) :
    token.kind.isBracket = false := by
  simp only [Token.isOperatorFrom, Bool.and_eq_true, beq_iff_eq] at hoperator
  rw [hoperator.1]
  rfl

theorem nested_advance (hkind : c.current.kind.isBracket = false) : Nested (.leaf c.advance.1) :=
  nested_leaf (by rwa [Cursor.advance_fst])

theorem nested_splitOff {head : Char} (hoperator : c.current.isOperatorFrom head = true) :
    Nested (.leaf c.splitOff.1) :=
  nested_leaf (isBracket_of_isOperatorFrom (Cursor.isOperatorFrom_splitOff hoperator))

theorem nestedAll_takeTwo (hfirst : c.current.kind.isBracket = false) (hsecond : (c.peek 1).kind.isBracket = false)
    (hrun : Yields (takeMany 2) c trees c') : NestedAll trees := by
  simp only [takeMany, bind_assoc, pure_bind, yields_advanceLeaf_bind, yields_pure] at hrun
  obtain ⟨rfl, -⟩ := hrun
  simp [nested_leaf hfirst, nested_leaf hsecond]

theorem nestedAll_takeIf {kind : TokenKind} (hkind : kind.isBracket = false) (hrun : Yields (takeIf kind) c trees c') :
    NestedAll trees := by
  obtain ⟨hcurrent, rfl, -⟩ | ⟨-, rfl, -⟩ := hrun.takeIf_cases
  · simpa using nested_advance (hcurrent ▸ hkind)
  · exact nestedAll_nil

theorem Cursor.isBracket_of_atAttachedMark (hmark : c.atAttachedMark = true) : c.current.kind.isBracket = false := by
  simp only [Cursor.atAttachedMark, Bool.and_eq_true, beq_iff_eq] at hmark
  rw [hmark.1.1]
  rfl

theorem nestedAll_takeMark (hrun : Yields takeMark c trees c') : NestedAll trees := by
  obtain ⟨hmark, rfl, -⟩ | ⟨-, rfl, -⟩ := hrun.takeMark_cases
  · simpa using nested_advance (Cursor.isBracket_of_atAttachedMark hmark)
  · exact nestedAll_nil

/-! ### Brackets -/

/-- Items are read up to the bracket that closes the one they stand behind. -/
theorem Yields.items_closes {opener : Token} (hrun : Yields (items g (some opener)) c trees c') :
    opener.kind.closer? = some c'.current.kind := by
  unfold items at hrun
  obtain ⟨c₁, -, hlast⟩ := Yields.gather_induction (fun _ _ => True) (fun _ _ _ _ _ _ => trivial) trivial hrun
  simp only [yields_get_bind] at hlast
  repeat' split at hlast
  · exact absurd hlast yields_throw
  · rename_i hclose
    obtain ⟨-, rfl⟩ := yields_pure.mp hlast
    simpa using hclose
  · exact absurd hlast yields_throw
  · obtain ⟨t, _, _, hresult⟩ := yields_bind.mp hlast
    simp at hresult

theorem nested_items (hg : g.Nesting) {opener : Option Token} (hrun : Yields (items g opener) c trees c') :
    NestedAll trees := by
  unfold items at hrun
  refine Yields.forall_gather (fun {c more c'} hturn => ?_) hrun
  simp only [yields_get_bind] at hturn
  repeat' split at hturn
  all_goals first
    | exact absurd hturn yields_throw
    | exact absurd hturn not_yields_none
    | obtain ⟨t, rfl, hitem⟩ := hturn.some_singleton
      simpa using hg.item hitem

theorem nested_block (hg : g.Nesting) {label : Label} (hrun : Yields (block g label) c t c') : t.Nested := by
  simp only [block, yields_advance_bind, yields_setCondition_bind] at hrun
  obtain ⟨inside, c₁, hinside, hrun⟩ := yields_bind.mp hrun
  simp only [yields_advanceLeaf_bind, yields_pure] at hrun
  obtain ⟨rfl, -⟩ := hrun
  exact (nested_items hg hinside).enclosed (by simpa using hinside.items_closes)

theorem nested_argument (hg : g.Nesting) {closer : TokenKind} (hrun : Yields (argument g closer) c t c') :
    t.Nested := by
  simp only [argument, yields_get_bind] at hrun
  obtain ⟨label, _, hlabel, hrun⟩ := yields_ite_bind.mp hrun
  obtain ⟨elements, _, helements, hrun⟩ := yields_bind.mp hrun
  obtain ⟨comma, _, hcomma, hrun⟩ := yields_bind.mp hrun
  obtain ⟨rfl, -⟩ := yields_pure.mp hrun
  have hlabelled : NestedAll label := by
    split at hlabel
    next hnamed =>
      simp only [Bool.and_eq_true, beq_iff_eq] at hnamed
      exact nestedAll_takeTwo (TokenKind.isBracket_of_isWord hnamed.1) (by rw [hnamed.2]; rfl) hlabel
    next =>
      obtain ⟨rfl, -⟩ := yields_pure.mp hlabel
      exact nestedAll_nil
  have hinside : NestedAll elements := Yields.forall_gather (fun {c more c'} hturn => by
    simp only [yields_get_bind] at hturn
    split at hturn
    · exact absurd hturn not_yields_none
    · obtain ⟨t, rfl, hitem⟩ := hturn.some_singleton
      simpa using hg.item hitem) helements
  apply NestedAll.node
  exact nestedAll_append.mpr ⟨hlabelled, nestedAll_cons.mpr ⟨hinside.node, nestedAll_takeIf rfl hcomma⟩⟩

/-- Arguments are read up to the bracket that closes the one they begin with. -/
theorem nested_arguments (hg : g.Nesting) (hopens : c.current.kind.isOpener = true) {label : Label}
    (hrun : Yields (arguments g label) c t c') : t.Nested := by
  simp only [arguments, yields_get_bind, yields_advance_bind, yields_setCondition_bind] at hrun
  obtain ⟨inside, c₁, hinside, hrun⟩ := yields_bind.mp hrun
  simp only [yields_advanceLeaf_bind, yields_setCondition_bind, yields_pure] at hrun
  obtain ⟨rfl, -⟩ := hrun
  obtain ⟨closer, hcloser⟩ := Option.isSome_iff_exists.mp hopens
  obtain ⟨c₂, hall, hlast⟩ := Yields.gather_induction (fun trees _ => NestedAll trees)
    (fun trees c more c' hall hturn => by
      simp only [yields_get_bind] at hturn
      repeat' split at hturn
      · exact absurd hturn not_yields_none
      · exact absurd hturn yields_throw
      · exact absurd hturn yields_throw
      · obtain ⟨t, rfl, hargument⟩ := hturn.some_singleton
        exact nestedAll_append.mpr ⟨hall, by simpa using nested_argument hg hargument⟩) nestedAll_nil hinside
  have hclose : c₁.current.kind = closer := by
    simp only [yields_get_bind, Cursor.advance_fst, hcloser, Option.getD_some] at hlast
    repeat' split at hlast
    · rename_i hcurrent
      obtain ⟨-, rfl⟩ := yields_pure.mp hlast
      exact beq_iff_eq.mp hcurrent
    · exact absurd hlast yields_throw
    · exact absurd hlast yields_throw
    · obtain ⟨t, _, _, hresult⟩ := yields_bind.mp hlast
      simp at hresult
  exact hall.enclosed (by simpa [hclose] using hcloser)

/-! ### Types -/

theorem nested_genericArgs? (hg : g.Nesting) (hrun : Yields (genericArgs? g) c found c') : NestedAll found.toList := by
  simp only [genericArgs?, yields_get_bind] at hrun
  split at hrun
  next hopen =>
    simp only [Bool.and_eq_true] at hopen
    simp only [yields_splitOff_bind] at hrun
    refine Yields.repeatFrom_induction (fun reversed _ => NestedAll reversed)
      (fun found _ => NestedAll (Option.toList found)) ?_ (by simpa using nested_splitOff hopen.1) hrun
    intro reversed c₁ outcome c₂ hall hturn
    simp only [genericArgsTurn, yields_get_bind] at hturn
    split at hturn
    next hclose =>
      simp only [yields_splitOff_bind, yields_pure] at hturn
      obtain ⟨rfl, -⟩ := hturn
      have hparts : NestedAll ((.leaf c₁.splitOff.1 :: reversed).reverse) :=
        nestedAll_reverse.mpr (nestedAll_cons.mpr ⟨nested_splitOff hclose, hall⟩)
      exact nestedAll_cons.mpr ⟨hparts.node, nestedAll_nil⟩
    next =>
      obtain ⟨arg, _, harg, hturn⟩ := yields_bind.mp hturn
      cases arg with
      | none =>
          simp only [yields_modify_bind, yields_pure] at hturn
          obtain ⟨rfl, -⟩ := hturn
          exact nestedAll_nil
      | some arg =>
          obtain ⟨comma, _, hcomma, hresult⟩ := yields_bind.mp hturn
          obtain ⟨rfl, -⟩ := yields_pure.mp hresult
          have hnested := hg.type harg
          simp only [Option.toList_some, nestedAll_cons] at hnested
          exact nestedAll_append.mpr ⟨nestedAll_takeIf rfl hcomma, nestedAll_cons.mpr ⟨hnested.1, hall⟩⟩
  next =>
    obtain ⟨rfl, -⟩ := yields_pure.mp hrun
    exact nestedAll_nil

theorem nested_typeIdentifier (hg : g.Nesting) (hword : c.current.isWord = true)
    (hrun : Yields (typeIdentifier g) c t c') : t.Nested := by
  simp only [typeIdentifier, yields_advanceLeaf_bind] at hrun
  obtain ⟨found, _, hfound, hrun⟩ := yields_bind.mp hrun
  have hparts : NestedAll (.leaf c.advance.1 :: found.toList) :=
    nestedAll_cons.mpr ⟨nested_advance (TokenKind.isBracket_of_isWord hword), nested_genericArgs? hg hfound⟩
  refine Yields.repeatFrom_induction (fun base _ => base.Nested) (fun t _ => t.Nested) ?_ hparts.node hrun
  intro base c₁ outcome c₂ hbase hturn
  simp only [yields_get_bind] at hturn
  split at hturn
  next hat =>
    simp only [Cursor.atMemberType, Bool.and_eq_true, beq_iff_eq] at hat
    obtain ⟨member, _, hmember, hturn⟩ := yields_bind.mp hturn
    obtain ⟨found, _, hfound, hturn⟩ := yields_bind.mp hturn
    obtain ⟨rfl, -⟩ := yields_pure.mp hturn
    have hnamed : NestedAll member :=
      nestedAll_takeTwo (by rw [hat.1.1.1.1.1]; rfl) (by rw [hat.1.1.2]; rfl) hmember
    have hall : NestedAll (base :: member ++ found.toList) := by simp [hbase, hnamed, nested_genericArgs? hg hfound]
    exact hall.node
  next =>
    obtain ⟨rfl, -⟩ := yields_pure.mp hturn
    exact hbase

theorem nested_singleAttribute (hg : g.Nesting) (hat : c.atAttribute = true)
    (hrun : Yields (singleAttribute g) c t c') : t.Nested := by
  obtain ⟨hsign, hword⟩ := Cursor.atAttribute_iff.mp hat
  simp only [singleAttribute, yields_advanceLeaf_bind] at hrun
  obtain ⟨name, c₁, hname, hrun⟩ := yields_bind.mp hrun
  have hfirst : Nested (.leaf c.current) := nested_leaf (by rw [hsign]; rfl)
  have hsecond := nested_typeIdentifier hg hword hname
  simp only [yields_get_bind] at hrun
  split at hrun
  next hparen =>
    simp only [Bool.and_eq_true, beq_iff_eq] at hparen
    obtain ⟨args, _, hargs, hrun⟩ := yields_bind.mp hrun
    obtain ⟨rfl, -⟩ := yields_pure.mp hrun
    have hthird := nested_arguments hg (by rw [hparen.1]; rfl) hargs
    exact NestedAll.node (by simp [hfirst, hsecond, hthird])
  next =>
    obtain ⟨rfl, -⟩ := yields_pure.mp hrun
    exact NestedAll.node (by simp [hfirst, hsecond])

theorem nested_typeHead (hg : g.Nesting) (hrun : Yields (typeHead g) c trees c') : NestedAll trees := by
  unfold typeHead at hrun
  refine Yields.forall_gather (fun {c more c'} hturn => ?_) hrun
  simp only [yields_get_bind] at hturn
  split at hturn
  next hat =>
    obtain ⟨t, rfl, hattribute⟩ := hturn.some_singleton
    simpa using nested_singleAttribute hg hat hattribute
  next =>
    split at hturn
    next hword =>
      simp only [Bool.and_eq_true] at hword
      obtain ⟨t, rfl, htaken⟩ := hturn.some_singleton
      obtain ⟨rfl, -⟩ := yields_advanceLeaf.mp htaken
      simpa using nested_advance (isBracket_of_isOneOf hword.1)
    next => exact absurd hturn not_yields_none

theorem nested_typeCore? (hg : g.Nesting) (hrun : Yields (typeCore? g) c (some t) c') : t.Nested := by
  simp only [typeCore?, yields_get_bind] at hrun
  split at hrun
  next hkind =>
    have hword : c.current.isWord = true := by simp [Token.isWord, TokenKind.isWord, hkind]
    exact nested_typeIdentifier hg hword hrun.of_some
  next hkind => exact nested_arguments hg (by rw [hkind]; rfl) hrun.of_some
  next hkind => exact nested_arguments hg (by rw [hkind]; rfl) hrun.of_some
  next => exact absurd hrun not_yields_none

theorem nested_typeTail (hg : g.Nesting) (hrun : Yields (repeatFrom (typeTailTurn g) fuel []) c trees c') :
    NestedAll trees := by
  refine Yields.repeatFrom_induction (fun reversed _ => NestedAll reversed) (fun trees _ => NestedAll trees)
    ?_ nestedAll_nil hrun
  intro reversed c₁ outcome c₂ hall hturn
  simp only [typeTailTurn, yields_get_bind] at hturn
  split at hturn
  next hmark =>
    simp only [Bool.and_eq_true, beq_iff_eq] at hmark
    simp only [yields_advanceLeaf_bind, yields_pure] at hturn
    obtain ⟨rfl, -⟩ := hturn
    exact nestedAll_cons.mpr ⟨nested_advance (by rw [hmark.1.1]; rfl), hall⟩
  split at hturn
  next hmetatype =>
    simp only [Bool.and_eq_true, beq_iff_eq] at hmetatype
    obtain ⟨member, _, hmember, hturn⟩ := yields_bind.mp hturn
    obtain ⟨rfl, -⟩ := yields_pure.mp hturn
    have hnamed : NestedAll member :=
      nestedAll_takeTwo (by rw [hmetatype.1.1]; rfl) (isBracket_of_isOneOf hmetatype.2) hmember
    exact nestedAll_append.mpr ⟨nestedAll_reverse.mpr hnamed, hall⟩
  split at hturn
  next heffect =>
    simp only [Bool.and_eq_true] at heffect
    simp only [yields_advanceLeaf_bind, yields_get_bind] at hturn
    have hword : NestedAll (.leaf c₁.advance.1 :: reversed) :=
      nestedAll_cons.mpr ⟨nested_advance (isBracket_of_isOneOf heffect.1), hall⟩
    split at hturn
    next hparen =>
      simp only [Bool.and_eq_true, beq_iff_eq] at hparen
      obtain ⟨group, _, hgroup, hturn⟩ := yields_bind.mp hturn
      obtain ⟨rfl, -⟩ := yields_pure.mp hturn
      exact nestedAll_cons.mpr ⟨nested_arguments hg (by rw [hparen.1]; rfl) hgroup, hword⟩
    next =>
      obtain ⟨rfl, -⟩ := yields_pure.mp hturn
      exact hword
  split at hturn
  next hjoint =>
    have hkind : c₁.current.kind.isBracket = false := by
      simp only [Bool.or_eq_true, Bool.and_eq_true, beq_iff_eq] at hjoint
      rcases hjoint with harrow | ⟨hoperator, -⟩
      · rw [harrow]; rfl
      · rw [hoperator]; rfl
    simp only [yields_advanceLeaf_bind] at hturn
    obtain ⟨target, _, htarget, hturn⟩ := yields_bind.mp hturn
    obtain ⟨rfl, -⟩ := yields_pure.mp hturn
    exact nestedAll_reverse.mpr
      (nestedAll_append.mpr ⟨hg.type htarget, nestedAll_cons.mpr ⟨nested_advance hkind, hall⟩⟩)
  next =>
    obtain ⟨rfl, -⟩ := yields_pure.mp hturn
    exact nestedAll_reverse.mpr hall

theorem nested_type? (hg : g.Nesting) (hrun : Yields (type? g) c found c') : NestedAll found.toList := by
  simp only [type?] at hrun
  obtain ⟨head, _, hhead, hrun⟩ := yields_bind.mp hrun
  obtain ⟨core, _, hcore, hrun⟩ := yields_bind.mp hrun
  have hfirst := nested_typeHead hg hhead
  cases core with
  | none =>
      obtain ⟨rfl, -⟩ := yields_pure.mp hrun
      split
      · exact nestedAll_nil
      · exact nestedAll_cons.mpr ⟨hfirst.node, nestedAll_nil⟩
  | some core =>
      obtain ⟨tail, _, htail, hrun⟩ := yields_bind.mp hrun
      have hall : NestedAll (head ++ core :: tail) :=
        nestedAll_append.mpr ⟨hfirst, nestedAll_cons.mpr ⟨nested_typeCore? hg hcore, nested_typeTail hg htail⟩⟩
      split at hrun
      next single hsingle =>
        obtain ⟨rfl, -⟩ := yields_pure.mp hrun
        rw [hsingle] at hall
        exact hall
      next =>
        obtain ⟨rfl, -⟩ := yields_pure.mp hrun
        exact nestedAll_cons.mpr ⟨hall.node, nestedAll_nil⟩

/-! ### Expressions -/

theorem nested_trailingClosures (hg : g.Nesting) {callee : Tree} (hcallee : callee.Nested)
    (hrun : Yields (trailingClosures g callee) c t c') : t.Nested := by
  simp only [trailingClosures] at hrun
  obtain ⟨first, _, hfirst, hrun⟩ := yields_bind.mp hrun
  obtain ⟨further, _, hfurther, hrun⟩ := yields_bind.mp hrun
  obtain ⟨rfl, -⟩ := yields_pure.mp hrun
  -- The children of a call need not be nested one by one, but their brackets are those of the call.
  have hbefore : WellNested (nestingOf (if callee.is .call then callee.children else [callee])) := by
    split
    next hcall =>
      obtain ⟨children, rfl⟩ := exists_of_is hcall
      exact hcallee
    next => exact NestedAll.wellNested (by simpa using hcallee)
  have hclosures : NestedAll further := Yields.forall_gather (fun {c more c'} hturn => by
    simp only [yields_get_bind] at hturn
    split at hturn
    next hat =>
      simp only [Cursor.atClosureLabel, Bool.and_eq_true, beq_iff_eq] at hat
      obtain ⟨label, _, hlabel, hturn⟩ := yields_bind.mp hturn
      obtain ⟨closure, _, hclosure, hturn⟩ := yields_bind.mp hturn
      obtain ⟨heq, -⟩ := yields_pure.mp hturn
      cases heq
      have hnamed : NestedAll label :=
        nestedAll_takeTwo (TokenKind.isBracket_of_isWord hat.1.1.1) (by rw [hat.1.2]; rfl) hlabel
      exact nestedAll_append.mpr ⟨hnamed, by simpa using nested_block hg hclosure⟩
    next => exact absurd hturn not_yields_none) hfurther
  apply nested_node_of_wellNested
  rw [nestingOf_append]
  exact hbefore.append (NestedAll.wellNested (nestedAll_cons.mpr ⟨nested_block hg hfirst, hclosures⟩))

theorem Cursor.isBracket_of_atMember (hmember : c.atMember = true) :
    c.current.kind.isBracket = false ∧ (c.peek 1).kind.isBracket = false := by
  simp only [Cursor.atMember, Bool.and_eq_true, Bool.or_eq_true, beq_iff_eq] at hmember
  obtain ⟨⟨⟨hdot, hword | hnumber⟩, -⟩, -⟩ := hmember
  · exact ⟨by rw [hdot]; rfl, TokenKind.isBracket_of_isWord hword⟩
  · exact ⟨by rw [hdot]; rfl, by rw [hnumber]; rfl⟩

theorem nested_chainTurn (hg : g.Nesting) {base : Tree} (hbase : base.Nested) {outcome : Turn Tree Tree}
    (hrun : Yields (chainTurn g base) c outcome c') :
    Turn.Meets (fun t _ => Nested t) (fun t _ => Nested t) outcome c' := by
  simp only [chainTurn, yields_get_bind] at hrun
  split at hrun
  next hmember =>
    obtain ⟨hdot, hname⟩ := Cursor.isBracket_of_atMember hmember
    obtain ⟨member, _, hnamed, hrun⟩ := yields_bind.mp hrun
    obtain ⟨rfl, -⟩ := yields_pure.mp hrun
    exact NestedAll.node (nestedAll_cons.mpr ⟨hbase, nestedAll_takeTwo hdot hname hnamed⟩)
  split at hrun
  next hmark =>
    simp only [Bool.and_eq_true] at hmark
    simp only [yields_advanceLeaf_bind, yields_pure] at hrun
    obtain ⟨rfl, -⟩ := hrun
    exact NestedAll.node (by simp [hbase, nested_leaf (Cursor.isBracket_of_atAttachedMark hmark.1)])
  split at hrun
  next hparen =>
    simp only [Bool.and_eq_true, beq_iff_eq] at hparen
    obtain ⟨args, _, hargs, hrun⟩ := yields_bind.mp hrun
    obtain ⟨rfl, -⟩ := yields_pure.mp hrun
    exact NestedAll.node (by simp [hbase, nested_arguments hg (by rw [hparen.1.1]; rfl) hargs])
  split at hrun
  next hbracket =>
    simp only [Bool.and_eq_true, beq_iff_eq] at hbracket
    obtain ⟨args, _, hargs, hrun⟩ := yields_bind.mp hrun
    obtain ⟨rfl, -⟩ := yields_pure.mp hrun
    exact NestedAll.node (by simp [hbase, nested_arguments hg (by rw [hbracket.1.1]; rfl) hargs])
  split at hrun
  next =>
    obtain ⟨call, _, hcall, hrun⟩ := yields_bind.mp hrun
    obtain ⟨rfl, -⟩ := yields_pure.mp hrun
    exact nested_trailingClosures hg hbase hcall
  next =>
    obtain ⟨rfl, -⟩ := yields_pure.mp hrun
    exact hbase

theorem nested_chainFrom (hg : g.Nesting) {primary : Rule Tree}
    (hprimary : ∀ {c t c'}, Yields primary c t c' → t.Nested) (hrun : Yields (chainFrom g primary) c t c') :
    t.Nested := by
  simp only [chainFrom] at hrun
  obtain ⟨base, _, hbase, hrun⟩ := yields_bind.mp hrun
  split at hrun
  · exact Yields.repeatFrom_induction (fun t _ => Nested t) (fun t _ => Nested t)
      (fun _ _ _ _ hinv hturn => nested_chainTurn hg hinv hturn) (hprimary hbase) hrun
  · obtain ⟨rfl, -⟩ := yields_pure.mp hrun
    exact hprimary hbase

/-- A token that no other rule takes is no bracket: braces, parentheses and square brackets are read in full, and at a
closing one the rule fails. -/
theorem nested_plainPrimary (hg : g.Nesting) (hrun : Yields (plainPrimary g) c t c') : t.Nested := by
  simp only [plainPrimary, yields_get_bind] at hrun
  split at hrun
  next => exact nested_block hg hrun
  next hbrace =>
    split at hrun
    next hopen =>
      refine nested_arguments hg ?_ hrun
      simp only [Bool.or_eq_true, beq_iff_eq] at hopen
      rcases hopen with hparen | hbracket
      · rw [hparen]; rfl
      · rw [hbracket]; rfl
    next hopen =>
      split at hrun
      next hmember =>
        simp only [Cursor.atImplicitMember, Bool.and_eq_true, beq_iff_eq] at hmember
        obtain ⟨member, _, hnamed, hrun⟩ := yields_bind.mp hrun
        obtain ⟨rfl, -⟩ := yields_pure.mp hrun
        have hmembers := nestedAll_takeTwo (by rw [hmember.1.1.1]; rfl)
          (TokenKind.isBracket_of_isWord hmember.1.1.2) hnamed
        exact NestedAll.node (nestedAll_cons.mpr ⟨nested_absent, hmembers⟩)
      next =>
        split at hrun
        next => exact absurd hrun yields_throw
        next hinside =>
          obtain ⟨rfl, -⟩ := yields_advanceLeaf.mp hrun
          refine nested_advance ?_
          simp only [Cursor.atBoundary, Bool.or_eq_true, not_or, Bool.not_eq_true] at hinside hopen
          cases hkind : c.current.kind <;> simp_all [TokenKind.isBracket, TokenKind.isOpener, TokenKind.closer?]

theorem nested_primary (hg : g.Nesting) (hrun : Yields (primary g) c t c') : t.Nested := by
  simp only [primary, yields_get_bind] at hrun
  split at hrun
  next hoperator =>
    have hkind : c.current.kind.isBracket = false := by
      simp only [Bool.and_eq_true, Bool.or_eq_true, beq_iff_eq] at hoperator
      rcases hoperator.1.1 with hkind | hkind
      · rw [hkind]; rfl
      · rw [hkind]; rfl
    simp only [yields_advanceLeaf_bind] at hrun
    obtain ⟨operand, _, hoperand, hrun⟩ := yields_bind.mp hrun
    obtain ⟨rfl, -⟩ := yields_pure.mp hrun
    have hnested := nested_chainFrom hg (nested_plainPrimary hg) hoperand
    exact NestedAll.node (by simp [nested_leaf hkind, hnested])
  next => exact nested_plainPrimary hg hrun

theorem nested_chain (hg : g.Nesting) (hrun : Yields (chain g) c t c') : t.Nested :=
  nested_chainFrom hg (nested_primary hg) hrun

theorem nested_markers (hrun : Yields (markers g) c trees c') : NestedAll trees := by
  unfold markers at hrun
  refine Yields.forall_gather (fun {c more c'} hturn => ?_) hrun
  simp only [yields_get_bind] at hturn
  split at hturn
  next hword =>
    simp only [yields_advanceLeaf_bind] at hturn
    obtain ⟨mark, _, hmark, hturn⟩ := yields_bind.mp hturn
    obtain ⟨heq, -⟩ := yields_pure.mp hturn
    cases heq
    exact nestedAll_cons.mpr ⟨nested_advance (isBracket_of_isOneOf hword), nestedAll_takeMark hmark⟩
  next => exact absurd hturn not_yields_none

theorem nested_cast (hg : g.Nesting) (hrun : Yields (cast g) c trees c') : NestedAll trees := by
  simp only [cast, yields_get_bind] at hrun
  split at hrun
  next hword =>
    simp only [yields_advance_bind] at hrun
    obtain ⟨mark, _, hmark, hrun⟩ := yields_ite_bind.mp hrun
    obtain ⟨target, _, htarget, hrun⟩ := yields_bind.mp hrun
    obtain ⟨rfl, -⟩ := yields_pure.mp hrun
    have hmarked : NestedAll mark := by
      split at hmark
      · exact nestedAll_takeMark hmark
      · obtain ⟨rfl, -⟩ := yields_pure.mp hmark
        exact nestedAll_nil
    exact nestedAll_cons.mpr
      ⟨nested_advance (isBracket_of_isOneOf hword), nestedAll_append.mpr ⟨hmarked, hg.type htarget⟩⟩
  next =>
    obtain ⟨rfl, -⟩ := yields_pure.mp hrun
    exact nestedAll_nil

theorem nested_exprTurn (hg : g.Nesting) {s : ExprState} (hs : NestedAll s.reversed)
    {outcome : Turn ExprState (List Tree)} (hrun : Yields (exprTurn g s) c outcome c') :
    Turn.Meets (fun s _ => NestedAll s.reversed) (fun trees _ => NestedAll trees) outcome c' := by
  simp only [exprTurn, yields_get_bind] at hrun
  split at hrun
  next =>
    obtain ⟨rfl, -⟩ := yields_pure.mp hrun
    exact nestedAll_reverse.mpr hs
  obtain ⟨marks, _, hmarks, hrun⟩ := yields_bind.mp hrun
  have hmarked : NestedAll (marks.reverse ++ s.reversed) :=
    nestedAll_append.mpr ⟨nestedAll_reverse.mpr (nested_markers hmarks), hs⟩
  simp only [yields_get_bind] at hrun
  split at hrun
  next =>
    obtain ⟨rfl, -⟩ := yields_pure.mp hrun
    exact nestedAll_reverse.mpr hmarked
  obtain ⟨operand, _, hoperand, hrun⟩ := yields_bind.mp hrun
  obtain ⟨casts, c₁, hcasts, hrun⟩ := yields_bind.mp hrun
  have hparts : NestedAll (casts.reverse ++ operand :: (marks.reverse ++ s.reversed)) :=
    nestedAll_append.mpr ⟨nestedAll_reverse.mpr (nested_cast hg hcasts),
      nestedAll_cons.mpr ⟨nested_chain hg hoperand, hmarked⟩⟩
  simp only [yields_get_bind] at hrun
  split at hrun
  next hoperator =>
    simp only [Cursor.atBinaryOperator, Bool.and_eq_true, beq_iff_eq] at hoperator
    simp only [yields_advanceLeaf_bind, yields_pure] at hrun
    obtain ⟨rfl, -⟩ := hrun
    exact nestedAll_cons.mpr ⟨nested_advance (by rw [hoperator.1.1]; rfl), hparts⟩
  split at hrun
  next hcolon =>
    simp only [Bool.and_eq_true, beq_iff_eq] at hcolon
    simp only [yields_advanceLeaf_bind, yields_pure] at hrun
    obtain ⟨rfl, -⟩ := hrun
    exact nestedAll_cons.mpr ⟨nested_advance (by rw [hcolon.1]; rfl), hparts⟩
  next =>
    obtain ⟨rfl, -⟩ := yields_pure.mp hrun
    exact nestedAll_reverse.mpr hparts

theorem nested_expr (hg : g.Nesting) (hrun : Yields (expr g) c t c') : t.Nested := by
  simp only [expr] at hrun
  obtain ⟨parts, _, hparts, hrun⟩ := yields_bind.mp hrun
  obtain ⟨rfl, -⟩ := yields_pure.mp hrun
  have hall : NestedAll parts :=
    Yields.repeatFrom_induction (fun s _ => NestedAll s.reversed) (fun trees _ => NestedAll trees)
      (fun _ _ _ _ hinv hturn => nested_exprTurn hg hinv hturn) nestedAll_nil hparts
  exact hall.node

end SwiftObservation.Grammar
