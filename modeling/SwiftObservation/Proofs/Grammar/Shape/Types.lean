import SwiftObservation.Grammar.TypeRule
import SwiftObservation.Proofs.Grammar.Run
import SwiftObservation.Proofs.Grammar.Shape.Basic

/-!
# The shape of brackets and types

Every rule of the grammar yields shaped trees when items and types do. Nothing has to be known of the cursor: where a
label calls for a token of some kind, the rule has looked at that token before taking it. The rules are taken up in the
order of their definitions, here those for brackets, types and attributes.
-/

namespace SwiftObservation.Grammar

open SwiftObservation.Tree

/-- Items and types are shaped, and a type is a node. -/
structure Nonterminals.Shaping (g : Nonterminals) : Prop where
  item : ∀ {c t c'}, Yields g.item c t c' → t.Shaped
  type : ∀ {c found c'}, Yields g.type c found c' → ShapedAll (Option.toList found)
  type_node : ∀ {c t c'}, Yields g.type c (some t) c' → ∃ label parts, t = .node label parts

variable {c c' : Cursor} {g : Nonterminals} {t : Tree} {trees : List Tree} {found : Option Tree} {fuel n : Nat}

theorem not_yields_none {α : Type} {a : α} : ¬ Yields (pure none) c (some a) c' := by simp

theorem Yields.of_some {r : Rule Tree} (hrun : Yields (do return some (← r)) c (some t) c') : Yields r c t c' := by
  obtain ⟨_, _, hr, hresult⟩ := yields_bind.mp hrun
  obtain ⟨heq, rfl⟩ := yields_pure.mp hresult
  exact Option.some.inj heq ▸ hr

/-- A rule whose result is returned as the one tree of a turn. -/
theorem Yields.some_singleton {r : Rule Tree} (hrun : Yields (do return some [← r]) c (some trees) c') :
    ∃ t, trees = [t] ∧ Yields r c t c' := by
  obtain ⟨t, _, hr, hresult⟩ := yields_bind.mp hrun
  obtain ⟨heq, rfl⟩ := yields_pure.mp hresult
  exact ⟨t, (Option.some.inj heq).symm, hr⟩

/-- What holds of the trees of every turn holds of all trees gathered. -/
theorem Yields.forall_gather {turn : Rule (Option (List Tree))} {P : Tree → Prop}
    (hturn : ∀ {c more c'}, Yields turn c (some more) c' → ∀ t ∈ more, P t)
    (hrun : Yields (gather fuel turn) c trees c') : ∀ t ∈ trees, P t := by
  obtain ⟨-, hall, -⟩ := Yields.gather_induction (fun trees _ => ∀ t ∈ trees, P t)
    (fun trees _ more _ hall hmore => List.forall_mem_append.mpr ⟨hall, hturn hmore⟩) (by simp) hrun
  exact hall

theorem shapedAll_takeMany (hrun : Yields (takeMany n) c trees c') : ShapedAll trees := by
  obtain ⟨tokens, rfl, -⟩ := hrun.takeMany_eq
  exact shapedAll_map_leaf tokens

theorem Yields.takeIf_eq {kind : TokenKind} (hrun : Yields (takeIf kind) c trees c') :
    ∃ token, trees = optionalLeaf token ∧ ∀ t ∈ token, t.kind = kind := by
  obtain ⟨hkind, rfl, -⟩ | ⟨-, rfl, -⟩ := hrun.takeIf_cases
  · exact ⟨some c.current, by simp [optionalLeaf], by simpa using hkind⟩
  · exact ⟨none, rfl, by simp⟩

@[simp] theorem shapedAll_optionalLeaf {token : Option Token} : ShapedAll (optionalLeaf token) := by
  cases token <;> simp [optionalLeaf]

theorem shapedAll_takeIf {kind : TokenKind} (hrun : Yields (takeIf kind) c trees c') : ShapedAll trees := by
  obtain ⟨token, rfl, -⟩ := hrun.takeIf_eq
  exact shapedAll_optionalLeaf

theorem shapedAll_takeMark (hrun : Yields takeMark c trees c') : ShapedAll trees := by
  obtain ⟨-, rfl, -⟩ | ⟨-, rfl, -⟩ := hrun.takeMark_cases <;> simp

/-! ### Brackets -/

theorem shaped_items (hg : g.Shaping) {opener : Option Token} (hrun : Yields (items g opener) c trees c') :
    ShapedAll trees := by
  unfold items at hrun
  refine Yields.forall_gather (fun {c more c'} hturn => ?_) hrun
  simp only [yields_get_bind] at hturn
  repeat' split at hturn
  all_goals first
    | exact absurd hturn yields_throw
    | exact absurd hturn not_yields_none
    | obtain ⟨t, rfl, hitem⟩ := hturn.some_singleton
      simpa using hg.item hitem

theorem Yields.block_eq (hg : g.Shaping) {label : Label} (hrun : Yields (block g label) c t c') :
    ∃ children, t = .node label children ∧ ShapedAll children := by
  simp only [block, yields_advance_bind, yields_setCondition_bind] at hrun
  obtain ⟨inside, _, hinside, hrun⟩ := yields_bind.mp hrun
  simp only [yields_advanceLeaf_bind, yields_pure] at hrun
  obtain ⟨rfl, -⟩ := hrun
  exact ⟨_, rfl, by simpa using shaped_items hg hinside⟩

theorem shaped_argument (hg : g.Shaping) {closer : TokenKind} (hrun : Yields (argument g closer) c t c') :
    t.Shaped := by
  simp only [argument, yields_get_bind] at hrun
  obtain ⟨label, _, hlabel, hrun⟩ := yields_ite_bind.mp hrun
  obtain ⟨elements, _, helements, hrun⟩ := yields_bind.mp hrun
  obtain ⟨comma, _, hcomma, hrun⟩ := yields_bind.mp hrun
  obtain ⟨rfl, -⟩ := yields_pure.mp hrun
  have hlabelled : ShapedAll label := by
    split at hlabel
    · exact shapedAll_takeMany hlabel
    · obtain ⟨rfl, -⟩ := yields_pure.mp hlabel
      exact shapedAll_nil
  have hinside : ShapedAll elements := Yields.forall_gather (fun {c more c'} hturn => by
    simp only [yields_get_bind] at hturn
    split at hturn
    · exact absurd hturn not_yields_none
    · obtain ⟨t, rfl, hitem⟩ := hturn.some_singleton
      simpa using hg.item hitem) helements
  refine .node ⟨.node .expr elements, by simp, rfl⟩ ?_
  have hexpr : Shaped (.node .expr elements) := .node trivial hinside
  exact shapedAll_append.mpr ⟨hlabelled, shapedAll_cons.mpr ⟨hexpr, shapedAll_takeIf hcomma⟩⟩

theorem Yields.arguments_eq (hg : g.Shaping) {label : Label} (hrun : Yields (arguments g label) c t c') :
    ∃ children, t = .node label children ∧ ShapedAll children := by
  simp only [arguments, yields_get_bind, yields_advance_bind, yields_setCondition_bind] at hrun
  obtain ⟨inside, _, hinside, hrun⟩ := yields_bind.mp hrun
  simp only [yields_advanceLeaf_bind, yields_setCondition_bind, yields_pure] at hrun
  obtain ⟨rfl, -⟩ := hrun
  have hall : ShapedAll inside := Yields.forall_gather (fun {c more c'} hturn => by
    simp only [yields_get_bind] at hturn
    repeat' split at hturn
    · exact absurd hturn not_yields_none
    · exact absurd hturn yields_throw
    · exact absurd hturn yields_throw
    · obtain ⟨t, rfl, hargument⟩ := hturn.some_singleton
      simpa using shaped_argument hg hargument) hinside
  exact ⟨_, rfl, by simpa using hall⟩

theorem shaped_group (hg : g.Shaping) (hrun : Yields (arguments g .group) c t c') : t.Shaped := by
  obtain ⟨children, rfl, hall⟩ := hrun.arguments_eq hg
  exact .node trivial hall

theorem shaped_arguments (hg : g.Shaping) (hrun : Yields (arguments g .arguments) c t c') : t.Shaped := by
  obtain ⟨children, rfl, hall⟩ := hrun.arguments_eq hg
  exact .node trivial hall

theorem shaped_block (hg : g.Shaping) (hrun : Yields (block g .block) c t c') : t.Shaped := by
  obtain ⟨children, rfl, hall⟩ := hrun.block_eq hg
  exact .node trivial hall

/-! ### Types -/

/-- Splitting an operator off leaves one that begins alike. -/
theorem Cursor.isOperatorFrom_splitOff {head : Char} (hoperator : c.current.isOperatorFrom head = true) :
    c.splitOff.1.isOperatorFrom head = true := by
  unfold Cursor.splitOff
  split
  next hnone => simpa [Cursor.current, Cursor.peek, hnone] using hoperator
  next t rest hupcoming =>
    have hcurrent : c.current = t := by simp [Cursor.current, Cursor.peek, hupcoming]
    split
    · simpa using hoperator
    · rw [hcurrent] at hoperator
      simp only [Token.isOperatorFrom, Cursor.splitToken, Bool.and_eq_true, beq_iff_eq] at hoperator ⊢
      refine ⟨hoperator.1, ?_⟩
      cases htext : t.text with
      | nil => simp [htext, Text.startsWith] at hoperator
      | cons first more => simpa [htext, Text.startsWith] using hoperator.2

theorem Yields.genericArgs?_eq (hg : g.Shaping) (hrun : Yields (genericArgs? g) c found c') :
    ∃ args, found.toList = optional .genericArgs args ∧ ShapedAll found.toList := by
  simp only [genericArgs?, yields_get_bind] at hrun
  split at hrun
  next hopen =>
    simp only [Bool.and_eq_true] at hopen
    simp only [yields_splitOff_bind] at hrun
    -- The opening bracket stays at the end of the trees, which are held in reverse.
    refine Yields.repeatFrom_induction
      (fun reversed _ => ShapedAll reversed ∧
        ∃ opener inside, reversed = inside ++ [.leaf opener] ∧ opener.isOperatorFrom '<' = true)
      (fun found _ => ∃ args, Option.toList found = optional .genericArgs args ∧ ShapedAll (Option.toList found)) ?_
      ⟨by simp, c.splitOff.1, [], rfl, Cursor.isOperatorFrom_splitOff hopen.1⟩ hrun
    rintro reversed c₁ outcome c₂ ⟨hall, opener, inside, rfl, hopener⟩ hturn
    simp only [genericArgsTurn, yields_get_bind] at hturn
    split at hturn
    next =>
      simp only [yields_splitOff_bind, yields_pure] at hturn
      obtain ⟨rfl, -⟩ := hturn
      refine ⟨some _, rfl, ?_⟩
      have hargs : Shaped (.node .genericArgs ((.leaf c₁.splitOff.1 :: (inside ++ [.leaf opener])).reverse)) := by
        refine .node ⟨opener, inside.reverse ++ [.leaf c₁.splitOff.1], by simp, hopener⟩ ?_
        exact shapedAll_reverse.mpr (shapedAll_cons.mpr ⟨.leaf _, hall⟩)
      simpa using hargs
    next =>
      obtain ⟨arg, _, harg, hturn⟩ := yields_bind.mp hturn
      cases arg with
      | none =>
          simp only [yields_modify_bind, yields_pure] at hturn
          obtain ⟨rfl, -⟩ := hturn
          exact ⟨none, rfl, by simp⟩
      | some arg =>
          obtain ⟨comma, _, hcomma, hresult⟩ := yields_bind.mp hturn
          obtain ⟨rfl, -⟩ := yields_pure.mp hresult
          have harg := hg.type harg
          simp only [Option.toList_some, shapedAll_cons] at harg
          exact ⟨shapedAll_append.mpr ⟨shapedAll_takeIf hcomma, shapedAll_cons.mpr ⟨harg.1, hall⟩⟩,
            opener, comma ++ arg :: inside, by simp, hopener⟩
  next =>
    obtain ⟨rfl, -⟩ := yields_pure.mp hrun
    exact ⟨none, rfl, by simp⟩

/-- A name that begins with a word is a type identifier or a member of one. -/
theorem shaped_typeIdentifier (hg : g.Shaping) (hword : c.current.isWord = true)
    (hrun : Yields (typeIdentifier g) c t c') :
    t.Shaped ∧ t.isTypeName = true := by
  simp only [typeIdentifier, yields_advanceLeaf_bind] at hrun
  obtain ⟨found, c₁, hfound, hrun⟩ := yields_bind.mp hrun
  obtain ⟨args, hargs, hshaped⟩ := hfound.genericArgs?_eq hg
  have hfirst : Shaped (.node .typeIdentifier (.leaf c.advance.1 :: found.toList)) :=
    .node ⟨c.advance.1, args, by rw [hargs], by simpa using hword⟩ (shapedAll_cons.mpr ⟨.leaf _, hshaped⟩)
  refine Yields.repeatFrom_induction (fun base _ => base.Shaped ∧ base.isTypeName = true)
    (fun t _ => t.Shaped ∧ t.isTypeName = true) ?_ ⟨hfirst, rfl⟩ hrun
  rintro base c₁ outcome c₂ ⟨hbase, hname⟩ hturn
  simp only [yields_get_bind] at hturn
  split at hturn
  next =>
    obtain ⟨member, _, hmember, hturn⟩ := yields_bind.mp hturn
    obtain ⟨found, _, hfound, hturn⟩ := yields_bind.mp hturn
    obtain ⟨rfl, -⟩ := yields_pure.mp hturn
    obtain ⟨-, -, hargs⟩ := hfound.genericArgs?_eq hg
    have hall : ShapedAll (base :: member ++ found.toList) := by
      simp [hbase, shapedAll_takeMany hmember, hargs]
    exact ⟨.node trivial hall, rfl⟩
  next =>
    obtain ⟨rfl, -⟩ := yields_pure.mp hturn
    exact ⟨hbase, hname⟩

theorem Cursor.atAttribute_iff :
    c.atAttribute = true ↔ c.current.kind = .atSign ∧ c.advance.2.current.isWord = true := by
  simp [Cursor.atAttribute]

theorem shaped_singleAttribute (hg : g.Shaping) (hat : c.atAttribute = true)
    (hrun : Yields (singleAttribute g) c t c') : t.Shaped ∧ t.is .attr = true := by
  obtain ⟨hsign, hword⟩ := Cursor.atAttribute_iff.mp hat
  simp only [singleAttribute, yields_advanceLeaf_bind] at hrun
  obtain ⟨name, c₁, hname, hrun⟩ := yields_bind.mp hrun
  obtain ⟨hnamed, htype⟩ := shaped_typeIdentifier hg hword hname
  simp only [yields_get_bind] at hrun
  split at hrun
  next =>
    obtain ⟨args, _, hargs, hrun⟩ := yields_bind.mp hrun
    obtain ⟨rfl, -⟩ := yields_pure.mp hrun
    obtain ⟨inside, rfl, hall⟩ := hargs.arguments_eq hg
    have hargs : Shaped (.node .arguments inside) := .node trivial hall
    refine ⟨.node ⟨c.advance.1, name, some inside, rfl, by simpa using hsign, htype⟩ ?_, rfl⟩
    exact shapedAll_cons.mpr ⟨.leaf _, shapedAll_cons.mpr ⟨hnamed, by simpa using hargs⟩⟩
  next =>
    obtain ⟨rfl, -⟩ := yields_pure.mp hrun
    refine ⟨.node ⟨c.advance.1, name, none, rfl, by simpa using hsign, htype⟩ ?_, rfl⟩
    exact shapedAll_cons.mpr ⟨.leaf _, by simpa using hnamed⟩

theorem shaped_typeHead (hg : g.Shaping) (hrun : Yields (typeHead g) c trees c') : ShapedAll trees := by
  unfold typeHead at hrun
  refine Yields.forall_gather (fun {c more c'} hturn => ?_) hrun
  simp only [yields_get_bind] at hturn
  split at hturn
  next hat =>
    obtain ⟨t, rfl, hattribute⟩ := hturn.some_singleton
    simpa using (shaped_singleAttribute hg hat hattribute).1
  next =>
    split at hturn
    next =>
      obtain ⟨t, rfl, hword⟩ := hturn.some_singleton
      obtain ⟨rfl, -⟩ := yields_advanceLeaf.mp hword
      simp
    next => exact absurd hturn not_yields_none

theorem exists_of_isTypeName (hname : t.isTypeName = true) : ∃ label parts, t = .node label parts := by
  cases t with
  | node label parts => exact ⟨label, parts, rfl⟩
  | leaf token => simp [isTypeName] at hname
  | absent => simp [isTypeName, Tree.is, label?] at hname

theorem shaped_typeCore? (hg : g.Shaping) (hrun : Yields (typeCore? g) c (some t) c') :
    t.Shaped ∧ ∃ label parts, t = .node label parts := by
  simp only [typeCore?, yields_get_bind] at hrun
  split at hrun
  next hkind =>
    have hword : c.current.isWord = true := by simp [Token.isWord, TokenKind.isWord, hkind]
    obtain ⟨hshaped, hname⟩ := shaped_typeIdentifier hg hword hrun.of_some
    exact ⟨hshaped, exists_of_isTypeName hname⟩
  next =>
    obtain ⟨children, rfl, hall⟩ := hrun.of_some.arguments_eq hg
    exact ⟨.node trivial hall, .group, children, rfl⟩
  next =>
    obtain ⟨children, rfl, hall⟩ := hrun.of_some.arguments_eq hg
    exact ⟨.node trivial hall, .group, children, rfl⟩
  next => exact absurd hrun not_yields_none

theorem shaped_typeTail (hg : g.Shaping) (hrun : Yields (repeatFrom (typeTailTurn g) fuel []) c trees c') :
    ShapedAll trees := by
  refine Yields.repeatFrom_induction (fun reversed _ => ShapedAll reversed) (fun trees _ => ShapedAll trees)
    ?_ shapedAll_nil hrun
  intro reversed c₁ outcome c₂ hall hturn
  simp only [typeTailTurn, yields_get_bind] at hturn
  split at hturn
  next =>
    simp only [yields_advanceLeaf_bind, yields_pure] at hturn
    obtain ⟨rfl, -⟩ := hturn
    exact shapedAll_cons.mpr ⟨.leaf _, hall⟩
  split at hturn
  next =>
    obtain ⟨member, _, hmember, hturn⟩ := yields_bind.mp hturn
    obtain ⟨rfl, -⟩ := yields_pure.mp hturn
    exact shapedAll_append.mpr ⟨shapedAll_reverse.mpr (shapedAll_takeMany hmember), hall⟩
  split at hturn
  next =>
    simp only [yields_advanceLeaf_bind, yields_get_bind] at hturn
    split at hturn
    next =>
      obtain ⟨group, _, hgroup, hturn⟩ := yields_bind.mp hturn
      obtain ⟨rfl, -⟩ := yields_pure.mp hturn
      exact shapedAll_cons.mpr ⟨shaped_group hg hgroup, shapedAll_cons.mpr ⟨.leaf _, hall⟩⟩
    next =>
      obtain ⟨rfl, -⟩ := yields_pure.mp hturn
      exact shapedAll_cons.mpr ⟨.leaf _, hall⟩
  split at hturn
  next =>
    simp only [yields_advanceLeaf_bind] at hturn
    obtain ⟨target, _, htarget, hturn⟩ := yields_bind.mp hturn
    obtain ⟨rfl, -⟩ := yields_pure.mp hturn
    exact shapedAll_reverse.mpr (shapedAll_append.mpr ⟨hg.type htarget, shapedAll_cons.mpr ⟨.leaf _, hall⟩⟩)
  next =>
    obtain ⟨rfl, -⟩ := yields_pure.mp hturn
    exact shapedAll_reverse.mpr hall

theorem shaped_type? (hg : g.Shaping) (hrun : Yields (type? g) c (some t) c') :
    t.Shaped ∧ ∃ label parts, t = .node label parts := by
  simp only [type?] at hrun
  obtain ⟨head, _, hhead, hrun⟩ := yields_bind.mp hrun
  obtain ⟨core, _, hcore, hrun⟩ := yields_bind.mp hrun
  have hfirst := shaped_typeHead hg hhead
  cases core with
  | none =>
      obtain ⟨heq, -⟩ := yields_pure.mp hrun
      split at heq
      · simp at heq
      · cases heq
        exact ⟨.node trivial hfirst, .type, head, rfl⟩
  | some core =>
      obtain ⟨hshaped, hnode⟩ := shaped_typeCore? hg hcore
      obtain ⟨tail, _, htail, hrun⟩ := yields_bind.mp hrun
      have hall : ShapedAll (head ++ core :: tail) :=
        shapedAll_append.mpr ⟨hfirst, shapedAll_cons.mpr ⟨hshaped, shaped_typeTail hg htail⟩⟩
      split at hrun
      next single hsingle =>
        obtain ⟨heq, -⟩ := yields_pure.mp hrun
        cases heq
        cases head with
        | nil =>
            obtain ⟨rfl, -⟩ := List.cons.inj hsingle
            exact ⟨hshaped, hnode⟩
        | cons first rest => simp at hsingle
      next =>
        obtain ⟨heq, -⟩ := yields_pure.mp hrun
        cases heq
        exact ⟨.node trivial hall, .type, _, rfl⟩

end SwiftObservation.Grammar
