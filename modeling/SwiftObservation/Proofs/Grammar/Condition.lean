import SwiftObservation.Proofs.Grammar.Filled
import SwiftObservation.Proofs.Grammar.Nesting.Types

/-!
# Conditions that are left open

The parser remembers whether it stands between a word such as `if` and the body that belongs to it. The words switch the
memory on, bodies and requirements switch it off, and brackets around arguments bring back what was remembered in front of
them. `Tree.switches` lists what was switched while a tree was read, and the last switch counts: a block that ends in a
condition without a body leaves the condition open behind its closing brace. As with the other facts about rules this is
shown rule by rule; `Keeps` collects the rules that switch nothing, and `Switches` says of a rule that it switches what the
tree it yields says.
-/

namespace SwiftObservation

open Grammar (conditionWords)

/-- The bodies in braces, which no condition reaches into. -/
def Label.isBody (label : Label) : Bool := label == .block || label == .memberBlock || label == .accessorBlock

namespace Tree

mutual

/-- What is switched while the tree is read, in that order. A word opens a condition only where it is read as an item. -/
def switches (asItem : Bool) : Tree → List Bool
  | leaf token => if asItem && token.isName conditionWords then [true] else []
  | node label children =>
    match label with
    | .block | .memberBlock | .accessorBlock => false :: switchesOf true children
    | .sourceFile => switchesOf true children
    | .whereClause => [false]
    | .typeDecl | .variableDecl | .declHead | .binding | .initialValue | .expr | .call | .subscript | .postfixOp
    | .prefixOp | .memberAccess => switchesOf false children
    -- Behind arguments everything is as it was in front of them, and types and attributes hold nothing but arguments.
    | _ => []
  | absent => []

def switchesOf (asItems : Bool) : List Tree → List Bool
  | [] => []
  | t :: rest => t.switches asItems ++ switchesOf asItems rest

end

variable {asItem asItems : Bool} {t : Tree} {front back : List Tree}

@[simp] theorem switchesOf_nil : switchesOf asItems [] = [] := by rw [switchesOf]

@[simp] theorem switchesOf_cons : switchesOf asItems (t :: back) = t.switches asItems ++ switchesOf asItems back := by
  rw [switchesOf]

@[simp] theorem switchesOf_append :
    switchesOf asItems (front ++ back) = switchesOf asItems front ++ switchesOf asItems back := by
  induction front with
  | nil => simp
  | cons t rest ih => simp [ih]

@[simp] theorem switches_leaf {token : Token} : switches false (.leaf token) = [] := by simp [switches]

@[simp] theorem switches_absent : switches asItem .absent = [] := by rw [switches]

theorem switches_body {label : Label} {children : List Tree} (hlabel : label.isBody = true) :
    switches asItem (.node label children) = false :: switchesOf true children := by
  cases label <;> first | rfl | cases hlabel

end Tree

namespace Grammar

open SwiftObservation.Tree

variable {α β σ : Type} {c c' : Cursor} {g : Nonterminals} {t : Tree} {trees : List Tree} {label : Label}

/-! ### Rules that switch nothing -/

/-- Behind the rule the same is remembered as in front of it. -/
def Keeps (r : Rule α) : Prop := ∀ c a c', Yields r c a c' → c'.inCondition = c.inCondition

section

variable {r r' : Rule α} {next : α → Rule β}

theorem keeps_pure {a : α} : Keeps (pure a) := by
  intro c b c' hrun
  obtain ⟨-, rfl⟩ := yields_pure.mp hrun
  rfl

theorem keeps_throw {e : ParseError} : Keeps (throw e : Rule α) := fun _ _ _ hrun => absurd hrun yields_throw

theorem Keeps.bind (hr : Keeps r) (hnext : ∀ a, Keeps (next a)) : Keeps (r >>= next) := by
  intro c b c'' hrun
  obtain ⟨a, c', hfirst, hrest⟩ := yields_bind.mp hrun
  rw [hnext a _ _ _ hrest, hr _ _ _ hfirst]

theorem keeps_get {next : Cursor → Rule β} (hnext : ∀ c, Keeps (next c)) : Keeps (get >>= next) :=
  fun c b c' hrun => hnext c c b c' hrun

theorem keeps_ite {p : Prop} [Decidable p] (hr : Keeps r) (hr' : Keeps r') : Keeps (if p then r else r') := by
  split
  · exact hr
  · exact hr'

theorem keeps_repeatFrom {turn : σ → Rule (Turn σ β)} {fuel : Nat} {s : σ} (hturn : ∀ s, Keeps (turn s)) :
    Keeps (repeatFrom turn fuel s) := by
  intro c b c' hrun
  refine Yields.repeatFrom_induction (fun _ c₁ => c₁.inCondition = c.inCondition)
    (fun _ c₁ => c₁.inCondition = c.inCondition) ?_ rfl hrun
  intro s c₁ outcome c₂ hsame hrun
  have hkept := (hturn s _ _ _ hrun).trans hsame
  cases outcome <;> exact hkept

theorem keeps_gather {turn : Rule (Option (List Tree))} {fuel : Nat} (hturn : Keeps turn) : Keeps (gather fuel turn) := by
  refine keeps_repeatFrom fun reversed => hturn.bind fun found => ?_
  cases found <;> exact keeps_pure

end

theorem Cursor.inCondition_advance (c : Cursor) : c.advance.2.inCondition = c.inCondition := by
  unfold Cursor.advance
  split <;> rfl

theorem Cursor.inCondition_splitOff (c : Cursor) : c.splitOff.2.inCondition = c.inCondition := by
  unfold Cursor.splitOff
  split
  · rfl
  · split
    · exact c.inCondition_advance
    · rfl

theorem keeps_advance : Keeps advance := by
  intro c a c' hrun
  have hbehind : c.advance.2 = c' := congrArg Prod.snd (Except.ok.inj hrun)
  rw [← hbehind, Cursor.inCondition_advance]

theorem keeps_splitOff : Keeps splitOff := by
  intro c a c' hrun
  have hbehind : c.splitOff.2 = c' := congrArg Prod.snd (Except.ok.inj hrun)
  rw [← hbehind, Cursor.inCondition_splitOff]

theorem keeps_advanceLeaf : Keeps advanceLeaf := keeps_advance.bind fun _ => keeps_pure

theorem keeps_takeIf {kind : TokenKind} : Keeps (takeIf kind) :=
  keeps_get fun _ => keeps_ite (keeps_advanceLeaf.bind fun _ => keeps_pure) keeps_pure

theorem keeps_takeMany (n : Nat) : Keeps (takeMany n) := by
  induction n with
  | zero => exact keeps_pure
  | succ n ih => exact keeps_advanceLeaf.bind fun _ => ih.bind fun _ => keeps_pure

/-- What was remembered in front of the brackets is brought back behind them. -/
theorem keeps_arguments : Keeps (arguments g label) := by
  intro c t c' hrun
  simp only [arguments, yields_get_bind, yields_advance_bind, yields_setCondition_bind] at hrun
  obtain ⟨inside, c₁, -, hrun⟩ := yields_bind.mp hrun
  simp only [yields_advanceLeaf_bind, yields_setCondition_bind, yields_pure] at hrun
  obtain ⟨-, rfl⟩ := hrun
  rfl

/-! ### Types and attributes -/

theorem keeps_genericArgs? (htype : Keeps g.type) : Keeps (genericArgs? g) := by
  refine keeps_get fun start => keeps_ite (keeps_splitOff.bind fun opener => keeps_repeatFrom fun reversed => ?_) keeps_pure
  refine keeps_get fun c => keeps_ite (keeps_splitOff.bind fun _ => keeps_pure) (htype.bind fun found => ?_)
  cases found with
  | none =>
      intro c outcome c' hrun
      simp only [yields_modify_bind, yields_pure] at hrun
      obtain ⟨-, rfl⟩ := hrun
      rfl
  | some arg => exact keeps_takeIf.bind fun _ => keeps_pure

theorem keeps_typeIdentifier (htype : Keeps g.type) : Keeps (typeIdentifier g) := by
  refine keeps_advanceLeaf.bind fun name => (keeps_genericArgs? htype).bind fun args => keeps_repeatFrom fun base => ?_
  refine keeps_get fun c => keeps_ite ?_ keeps_pure
  exact (keeps_takeMany 2).bind fun member => (keeps_genericArgs? htype).bind fun args => keeps_pure

theorem keeps_singleAttribute (htype : Keeps g.type) : Keeps (singleAttribute g) := by
  refine keeps_advanceLeaf.bind fun sign => (keeps_typeIdentifier htype).bind fun name => ?_
  exact keeps_get fun c => keeps_ite (keeps_arguments.bind fun _ => keeps_pure) keeps_pure

theorem keeps_typeHead (htype : Keeps g.type) : Keeps (typeHead g) := by
  refine keeps_gather (keeps_get fun c => ?_)
  refine keeps_ite ((keeps_singleAttribute htype).bind fun _ => keeps_pure) (keeps_ite ?_ keeps_pure)
  exact keeps_advanceLeaf.bind fun _ => keeps_pure

theorem keeps_typeCore? (htype : Keeps g.type) : Keeps (typeCore? g) := by
  refine keeps_get fun c => ?_
  split
  · exact (keeps_typeIdentifier htype).bind fun _ => keeps_pure
  · exact keeps_arguments.bind fun _ => keeps_pure
  · exact keeps_arguments.bind fun _ => keeps_pure
  · exact keeps_pure

theorem keeps_typeTailTurn (htype : Keeps g.type) (reversed : List Tree) : Keeps (typeTailTurn g reversed) := by
  refine keeps_get fun c => keeps_ite ?_ (keeps_ite ?_ (keeps_ite ?_ (keeps_ite ?_ keeps_pure)))
  · exact keeps_advanceLeaf.bind fun _ => keeps_pure
  · exact (keeps_takeMany 2).bind fun _ => keeps_pure
  · refine keeps_advanceLeaf.bind fun effect => keeps_get fun c => ?_
    exact keeps_ite (keeps_arguments.bind fun _ => keeps_pure) keeps_pure
  · exact keeps_advanceLeaf.bind fun joint => htype.bind fun target => keeps_pure

theorem keeps_type? (htype : Keeps g.type) : Keeps (type? g) := by
  refine (keeps_typeHead htype).bind fun head => (keeps_typeCore? htype).bind fun core => ?_
  cases core with
  | none => exact keeps_pure
  | some core =>
      refine (keeps_repeatFrom (keeps_typeTailTurn htype)).bind fun tail => ?_
      split <;> exact keeps_pure

/-! ### Rules that switch what their trees say -/

theorem getLastD_append (front back : List Bool) (start : Bool) :
    (front ++ back).getLastD start = back.getLastD (front.getLastD start) := by
  induction front generalizing start with
  | nil => rfl
  | cons switch rest ih => rw [List.cons_append, List.getLastD_cons, ih, List.getLastD_cons]

/-- Behind what `before` has switched, the rule has switched what `after` says of its result, as far as can be told from
what is remembered in the end. -/
def Switches (before : List Bool) (r : Rule α) (after : α → List Bool) : Prop :=
  ∀ start c a c', c.inCondition = before.getLastD start → Yields r c a c' → c'.inCondition = (after a).getLastD start

section

variable {r r' : Rule α} {next : α → Rule β} {before : List Bool} {made : α → List Bool} {after : β → List Bool}

theorem switches_pure {b : β} (hafter : after b = before) : Switches before (pure b) after := by
  intro start c b' c' hstart hrun
  obtain ⟨rfl, rfl⟩ := yields_pure.mp hrun
  rw [hstart, hafter]

theorem switches_throw {e : ParseError} : Switches before (throw e) after :=
  fun _ _ _ _ _ hrun => absurd hrun yields_throw

theorem Switches.andThen (hr : Switches before r made) (hnext : ∀ a, Switches (made a) (next a) after) :
    Switches before (r >>= next) after := by
  intro start c b c'' hstart hrun
  obtain ⟨a, c', hfirst, hrest⟩ := yields_bind.mp hrun
  exact hnext a start c' b c'' (hr start c a c' hstart hfirst) hrest

/-- What was switched before does not matter to what a rule switches. -/
theorem Switches.behind (hr : Switches [] r made) (before : List Bool) : Switches before r fun a => before ++ made a := by
  intro start c a c' hstart hrun
  rw [getLastD_append, ← hstart]
  exact hr c.inCondition c a c' rfl hrun

theorem Switches.bind (hr : Switches [] r made) (hnext : ∀ a, Switches (before ++ made a) (next a) after) :
    Switches before (r >>= next) after := (hr.behind before).andThen hnext

theorem Keeps.switches (hr : Keeps r) (hmade : Gives r fun a => made a = []) : Switches [] r made := by
  intro start c a c' hstart hrun
  rw [hr c a c' hrun, hmade c a c' hrun]
  exact hstart

/-- What the rule yields on the way need not matter. -/
theorem Keeps.andThen (hr : Keeps r) (hnext : ∀ a, Switches before (next a) after) : Switches before (r >>= next) after := by
  intro start c b c'' hstart hrun
  obtain ⟨a, c', hfirst, hrest⟩ := yields_bind.mp hrun
  exact hnext a start c' b c'' ((hr c a c' hfirst).trans hstart) hrest

theorem switches_get {next : Cursor → Rule β} (hnext : ∀ c, Switches before (next c) after) :
    Switches before (get >>= next) after :=
  fun start c b c' hstart hrun => hnext c start c b c' hstart hrun

theorem switches_ite {p : Prop} [Decidable p] (hr : Switches before r made) (hr' : Switches before r' made) :
    Switches before (if p then r else r') made := by
  split
  · exact hr
  · exact hr'

/-- A choice that the rest of a rule follows in either case. -/
theorem switches_ite_bind {p : Prop} [Decidable p] (hr : Switches [] r made) (hr' : Switches [] r' made)
    (hnext : ∀ a, Switches (before ++ made a) (next a) after) :
    Switches before (if p then r >>= next else r' >>= next) after :=
  switches_ite (hr.bind hnext) (hr'.bind hnext)

/-- What a turn has switched, if the state or the result tells. -/
def Turn.switched (state : σ → List Bool) (result : β → List Bool) : Turn σ β → List Bool
  | again s => state s
  | done b => result b

theorem switches_repeatFrom {turn : σ → Rule (Turn σ β)} {fuel : Nat} {s : σ} (state : σ → List Bool)
    (hturn : ∀ s, Switches (state s) (turn s) (Turn.switched state after)) (hbefore : state s = before) :
    Switches before (repeatFrom turn fuel s) after := by
  intro start c b c' hstart hrun
  rw [← hbefore] at hstart
  refine Yields.repeatFrom_induction (fun s c => c.inCondition = (state s).getLastD start)
    (fun b c => c.inCondition = (after b).getLastD start) ?_ hstart hrun
  intro s c outcome c' hstart hrun
  have hswitched := hturn s start c outcome c' hstart hrun
  cases outcome <;> exact hswitched

end

theorem switches_gather (asItems : Bool) {turn : Rule (Option (List Tree))} {fuel : Nat}
    (hturn : Switches [] turn fun found => switchesOf asItems (found.getD [])) :
    Switches [] (gather fuel turn) (switchesOf asItems) := by
  refine switches_repeatFrom (fun reversed : List Tree => switchesOf asItems reversed.reverse) (fun reversed => ?_) (by simp)
  refine hturn.bind fun found => ?_
  cases found <;> exact switches_pure (by simp [Turn.switched])

/-- A turn that yields one tree. -/
theorem switches_some_singleton {asItem : Bool} {r : Rule Tree} (hr : Switches [] r (switches asItem)) :
    Switches [] (do return some [← r]) fun found => switchesOf asItem (found.getD []) :=
  hr.bind fun t => switches_pure (by simp)

/-- Items switch what they do as items, and types switch nothing. -/
structure Nonterminals.Switching (g : Nonterminals) : Prop where
  item : Switches [] g.item (switches true)
  type_keeps : Keeps g.type
  type_switches : Gives g.type fun found => switchesOf false found.toList = []

theorem Nonterminals.Switching.type (hg : g.Switching) : Switches [] g.type fun found => switchesOf false found.toList :=
  hg.type_keeps.switches hg.type_switches

/-! ### Tokens and brackets -/

theorem switches_advanceLeaf : Switches [] advanceLeaf (switches false) :=
  keeps_advance.andThen fun token => switches_pure (by simp)

theorem switches_takeIf (kind : TokenKind) : Switches [] (takeIf kind) (switchesOf false) :=
  switches_get fun c => switches_ite (switches_advanceLeaf.bind fun t => switches_pure (by simp)) (switches_pure (by simp))

theorem switches_takeMark : Switches [] takeMark (switchesOf false) :=
  switches_get fun c => switches_ite (switches_advanceLeaf.bind fun t => switches_pure (by simp)) (switches_pure (by simp))

theorem switches_takeMany (n : Nat) : Switches [] (takeMany n) (switchesOf false) := by
  induction n with
  | zero => exact switches_pure (by simp)
  | succ n ih => exact switches_advanceLeaf.bind fun t => ih.bind fun rest => switches_pure (by simp)

theorem gives_block {P : Tree → Prop} (hnode : ∀ children, P (.node label children)) : Gives (block g label) P := by
  refine gives_bind fun opener => gives_bind fun _ => gives_bind fun inside => ?_
  exact gives_bind fun closer => gives_pure (hnode _)

theorem gives_arguments {P : Tree → Prop} (hnode : ∀ children, P (.node label children)) : Gives (arguments g label) P := by
  refine gives_bind fun c => gives_bind fun opener => gives_bind fun _ => gives_bind fun inside => ?_
  exact gives_bind fun closing => gives_bind fun _ => gives_pure (hnode _)

theorem switches_arguments (hlabel : label = .arguments ∨ label = .group) :
    Switches [] (arguments g label) (switches false) := by
  refine keeps_arguments.switches (gives_arguments fun children => ?_)
  rcases hlabel with rfl | rfl <;> simp [switches]

theorem switches_items (hg : g.Switching) (opener : Option Token) : Switches [] (items g opener) (switchesOf true) := by
  refine switches_gather true (switches_get fun c => ?_)
  dsimp only
  repeat' split
  all_goals first
    | exact switches_throw
    | exact switches_pure (by simp)
    | exact switches_some_singleton hg.item

/-- A bracket is no word. -/
theorem isName_of_closer? {opener closer : Token} (hcloses : opener.kind.closer? = some closer.kind) (words : List Text) :
    opener.isName words = false ∧ closer.isName words = false := by
  have hkinds : opener.kind ≠ .identifier ∧ closer.kind ≠ .identifier := by
    constructor <;> intro hkind <;> rw [hkind] at hcloses
    · cases hcloses
    · revert hcloses
      cases opener.kind <;> simp [TokenKind.closer?]
  simp [Token.isName, hkinds]

/-- A body switches the memory off, and then what its items switch. -/
theorem switches_block (hg : g.Switching) (hlabel : label.isBody = true) :
    Switches [] (block g label) (switches false) := by
  intro start c b c' _ hrun
  simp only [block, yields_advance_bind, yields_setCondition_bind] at hrun
  obtain ⟨inside, c₁, hinside, hrun⟩ := yields_bind.mp hrun
  simp only [yields_advanceLeaf_bind, yields_pure] at hrun
  obtain ⟨rfl, rfl⟩ := hrun
  have hswitched : c₁.inCondition = (switchesOf true inside).getLastD false :=
    switches_items hg _ false _ _ _ rfl hinside
  have hcloses := hinside.items_closes
  rw [Cursor.advance_fst] at hcloses
  obtain ⟨hopener, hcloser⟩ := isName_of_closer? hcloses conditionWords
  have hopens : switches true (.leaf c.current) = [] := by simp [switches, hopener]
  have hends : switches true (.leaf c₁.current) = [] := by simp [switches, hcloser]
  rw [Cursor.inCondition_advance, hswitched, switches_body hlabel, List.getLastD_cons]
  simp only [List.cons_append, switchesOf_cons, switchesOf_append, switchesOf_nil, Cursor.advance_fst, hopens, hends,
    List.nil_append, List.append_nil]

/-! ### Types as parts of a tree -/

theorem gives_typeIdentifier : Gives (typeIdentifier g) fun t => switches false t = [] := by
  refine gives_bind fun name => gives_bind fun args => ?_
  refine gives_repeatFrom (fun base => switches false base = []) (fun base hbase => gives_bind fun c => ?_) (by simp [switches])
  refine gives_ite (gives_bind fun member => gives_bind fun args => gives_pure fun _ => ?_) (gives_pure fun _ => hbase)
  simp [Turn.Meets, switches]

theorem gives_typeCore? : Gives (typeCore? g) fun found => switchesOf false found.toList = [] := by
  have hgroup : Gives (arguments g .group) fun t => switches false t = [] :=
    gives_arguments fun children => by simp [switches]
  refine gives_bind fun c => ?_
  split
  · exact gives_typeIdentifier.bind fun t ht => gives_pure (by simpa using ht)
  · exact hgroup.bind fun t ht => gives_pure (by simpa using ht)
  · exact hgroup.bind fun t ht => gives_pure (by simpa using ht)
  · exact gives_pure (by simp)

theorem gives_type? : Gives (type? g) fun found => switchesOf false found.toList = [] := by
  refine gives_bind fun head => gives_typeCore?.bind fun found hfound => ?_
  cases found with
  | none =>
      refine gives_pure ?_
      split <;> simp [switches]
  | some core =>
      refine gives_bind fun tail => ?_
      split
      next single hsingle =>
        have hcore : core ∈ [single] := by simp [← hsingle]
        rw [← List.mem_singleton.mp hcore]
        exact gives_pure hfound
      next => exact gives_pure (by simp [switches])

/-! ### Expressions -/

theorem switches_trailingClosures (hg : g.Switching) (callee : Tree) :
    Switches (switches false callee) (trailingClosures g callee) (switches false) := by
  have hbefore : switchesOf false (if callee.is .call then callee.children else [callee]) = switches false callee := by
    split
    next hcall =>
      obtain ⟨children, rfl⟩ := exists_of_is hcall
      simp [Tree.children, switches]
    next => simp
  have hblock : Switches [] (block g .block) (switches false) := switches_block hg rfl
  refine hblock.bind fun first => Switches.bind (switches_gather false (switches_get fun c => ?_)) fun further => ?_
  · refine switches_ite ((switches_takeMany 2).bind fun label => hblock.bind fun closure => switches_pure (by simp)) ?_
    exact switches_pure (by simp)
  · exact switches_pure (by simp [switches, hbefore])

theorem switches_chainTurn (hg : g.Switching) (base : Tree) :
    Switches (switches false base) (chainTurn g base) (Turn.switched (switches false) (switches false)) := by
  have harguments : Switches [] (arguments g .arguments) (switches false) := switches_arguments (.inl rfl)
  refine switches_get fun c => ?_
  refine switches_ite ?_ (switches_ite ?_ (switches_ite ?_ (switches_ite ?_ (switches_ite ?_ (switches_pure rfl)))))
  · exact (switches_takeMany 2).bind fun member => switches_pure (by simp [Turn.switched, switches])
  · exact switches_advanceLeaf.bind fun mark => switches_pure (by simp [Turn.switched, switches])
  · exact harguments.bind fun args => switches_pure (by simp [Turn.switched, switches])
  · exact harguments.bind fun args => switches_pure (by simp [Turn.switched, switches])
  · exact (switches_trailingClosures hg base).andThen fun t => switches_pure rfl

theorem switches_chainFrom (hg : g.Switching) {primary : Rule Tree} (hprimary : Switches [] primary (switches false)) :
    Switches [] (chainFrom g primary) (switches false) := by
  refine hprimary.bind fun base => switches_ite ?_ (switches_pure rfl)
  exact switches_repeatFrom (switches false) (switches_chainTurn hg) rfl

theorem switches_plainPrimary (hg : g.Switching) : Switches [] (plainPrimary g) (switches false) := by
  refine switches_get fun c => switches_ite (switches_block hg rfl) (switches_ite (switches_arguments (.inr rfl)) ?_)
  refine switches_ite ?_ (switches_ite switches_throw switches_advanceLeaf)
  exact (switches_takeMany 2).bind fun member => switches_pure (by simp [switches])

theorem switches_primary (hg : g.Switching) : Switches [] (primary g) (switches false) := by
  refine switches_get fun c => switches_ite (switches_advanceLeaf.bind fun operator => ?_) (switches_plainPrimary hg)
  refine (switches_chainFrom hg (switches_plainPrimary hg)).bind fun operand => switches_pure (by simp [switches])

theorem switches_chain (hg : g.Switching) : Switches [] (chain g) (switches false) :=
  switches_chainFrom hg (switches_primary hg)

theorem switches_markers : Switches [] (markers g) (switchesOf false) := by
  refine switches_gather false (switches_get fun c => switches_ite ?_ (switches_pure (by simp)))
  exact switches_advanceLeaf.bind fun word => switches_takeMark.bind fun mark => switches_pure (by simp)

theorem switches_cast (hg : g.Switching) : Switches [] (cast g) (switchesOf false) := by
  refine switches_get fun c => switches_ite (keeps_advance.andThen fun word => ?_) (switches_pure (by simp))
  refine switches_ite_bind switches_takeMark (switches_pure (by simp)) fun mark => ?_
  exact hg.type.bind fun target => switches_pure (by simp)

theorem switches_exprTurn (hg : g.Switching) (s : ExprState) :
    Switches (switchesOf false s.reversed.reverse) (exprTurn g s)
      (Turn.switched (fun s => switchesOf false s.reversed.reverse) (switchesOf false)) := by
  refine switches_get fun c => switches_ite (switches_pure (by simp [Turn.switched])) ?_
  refine switches_markers.bind fun words => switches_get fun c => switches_ite ?_ ?_
  · exact switches_pure (by simp [Turn.switched])
  refine (switches_chain hg).bind fun operand => (switches_cast hg).bind fun casts => switches_get fun c => ?_
  refine switches_ite ?_ (switches_ite ?_ ?_)
  · exact switches_advanceLeaf.bind fun operator => switches_pure (by simp [Turn.switched])
  · exact switches_advanceLeaf.bind fun colon => switches_pure (by simp [Turn.switched])
  · exact switches_pure (by simp [Turn.switched])

theorem switches_expr (hg : g.Switching) : Switches [] (expr g) (switches false) := by
  have hparts : Switches [] (repeatFrom (exprTurn g) g.fuel {}) (switchesOf false) := by
    exact switches_repeatFrom (fun s => switchesOf false s.reversed.reverse) (switches_exprTurn hg) (by simp)
  exact hparts.bind fun parts => switches_pure (by simp [switches])

/-! ### Declarations -/

theorem switches_attributes (hg : g.Switching) : Switches [] (attributes g) (switches false) := by
  have hfound : Keeps (singleAttribute g) := keeps_singleAttribute hg.type_keeps
  refine (keeps_gather (keeps_get fun c => ?_)).andThen fun found => switches_pure (by simp [switches])
  exact keeps_ite (hfound.bind fun _ => keeps_pure) keeps_pure

theorem switches_modifiers : Switches [] modifiers (switches false) := by
  refine switches_get fun c => ?_
  have hfound (lengths : List Nat) :
      Keeps (lengths.mapM fun length => return (.node .modifier (← takeMany length) : Tree)) := by
    induction lengths with
    | nil => exact keeps_pure
    | cons length lengths ih =>
        rw [List.mapM_cons]
        refine Keeps.bind ((keeps_takeMany length).bind fun _ => keeps_pure) fun _ => ?_
        exact ih.bind fun _ => keeps_pure
  exact (hfound c.modifierRun).andThen fun found => switches_pure (by simp [switches])

theorem keeps_genericParam (htype : Keeps g.type) : Keeps (genericParam g) := by
  have hname : Keeps paramName :=
    keeps_get fun c => keeps_ite (keeps_ite (keeps_takeMany 2) (keeps_takeMany 1)) keeps_pure
  have hconstraint : Keeps (constraint g) :=
    keeps_get fun c => keeps_ite (keeps_advanceLeaf.bind fun _ => htype.bind fun _ => keeps_pure) keeps_pure
  refine hname.bind fun name => hconstraint.bind fun type => keeps_takeIf.bind fun comma => ?_
  exact keeps_ite (keeps_advanceLeaf.bind fun _ => keeps_pure) keeps_pure

theorem switches_genericParams? (hg : g.Switching) :
    Switches [] (genericParams? g) fun found => switchesOf false found.toList := by
  refine switches_get fun c => switches_ite (keeps_splitOff.andThen fun opener => ?_) (switches_pure (by simp))
  refine (keeps_gather (keeps_get fun c => ?_)).andThen fun inside => ?_
  · refine keeps_ite keeps_pure (keeps_ite keeps_throw ?_)
    exact (keeps_genericParam hg.type_keeps).bind fun _ => keeps_pure
  · exact keeps_splitOff.andThen fun closer => switches_pure (by simp [switches])

theorem switches_inheritance (hg : g.Switching) : Switches [] (inheritance g) (switches false) := by
  refine keeps_advanceLeaf.andThen fun colon => ?_
  refine (keeps_repeatFrom fun reversed => hg.type_keeps.bind fun found => ?_).andThen fun entries =>
    switches_pure (by simp [switches])
  cases found with
  | none => exact keeps_pure
  | some inherited => exact keeps_takeIf.bind fun comma => keeps_ite keeps_pure keeps_pure

/-- Requirements leave no condition open, whatever they hold. -/
theorem switches_whereClause : Switches [] (whereClause g) (switches false) := by
  intro start c t c' _ hrun
  simp only [whereClause, yields_advanceLeaf_bind, yields_setCondition_bind] at hrun
  obtain ⟨inside, c₁, -, hrun⟩ := yields_bind.mp hrun
  simp only [yields_setCondition_bind, yields_pure] at hrun
  obtain ⟨rfl, rfl⟩ := hrun
  simp [switches]

theorem switches_declaredName? (hg : g.Switching) (keyword : Token) :
    Switches [] (declaredName? g keyword) fun found => switchesOf false found.toList := by
  refine switches_ite hg.type (switches_get fun c => switches_ite ?_ (switches_pure (by simp)))
  exact switches_advanceLeaf.bind fun t => switches_pure (by simp)

theorem switches_map_some {r : Rule Tree} (hr : Switches [] r (switches false)) :
    Switches [] (some <$> r) fun found => switchesOf false found.toList := by
  rw [map_eq_pure_bind]
  exact hr.bind fun t => switches_pure (by simp)

theorem switches_typeDecl (hg : g.Switching) (attributes modifiers : Tree) :
    Switches (switches false attributes ++ switches false modifiers) (typeDecl g attributes modifiers) (switches true) := by
  have habsent : Switches [] (pure none) fun found => switchesOf false (Option.toList found) := switches_pure (by simp)
  refine keeps_advance.andThen fun keyword => (switches_declaredName? hg keyword).bind fun found => ?_
  cases found with
  | none => exact switches_get fun c => switches_throw
  | some name =>
      refine (switches_genericParams? hg).bind fun params => switches_get fun c => ?_
      refine switches_ite_bind (switches_map_some (switches_inheritance hg)) habsent fun clause => switches_get fun c => ?_
      refine switches_ite_bind (switches_map_some switches_whereClause) habsent fun requirements => switches_get fun c => ?_
      have hbody : Switches [] (block g .memberBlock) (switches false) := switches_block hg rfl
      refine switches_ite (hbody.bind fun body => switches_pure ?_) switches_throw
      simp [switches]

theorem switches_pattern? : Switches [] (pattern? g) fun found => switchesOf false found.toList := by
  have hgroup : Switches [] (arguments g .group) (switches false) := switches_arguments (.inr rfl)
  refine switches_get fun c => ?_
  split
  · exact switches_advanceLeaf.bind fun t => switches_pure (by simp)
  · exact hgroup.bind fun t => switches_pure (by simp)
  · exact switches_pure (by simp)

theorem switches_typeClause (hg : g.Switching) : Switches [] (typeClause g) (switchesOf false) := by
  refine switches_get fun c => switches_ite (keeps_advanceLeaf.andThen fun colon => ?_) (switches_pure (by simp))
  exact hg.type_keeps.andThen fun type => switches_pure (by simp [switches])

theorem switches_initialValue (hg : g.Switching) : Switches [] (initialValue g) (switchesOf false) := by
  refine switches_get fun c => switches_ite (switches_advanceLeaf.bind fun sign => ?_) (switches_pure (by simp))
  exact (switches_expr hg).bind fun value => switches_pure (by simp [switches])

theorem switches_accessors (hg : g.Switching) (typed valued : Bool) :
    Switches [] (accessors g typed valued) (switchesOf false) := by
  have hbody : Switches [] (block g .accessorBlock) (switches false) := switches_block hg rfl
  exact switches_get fun c => switches_ite (hbody.bind fun body => switches_pure (by simp)) (switches_pure (by simp))

theorem switches_binding? (hg : g.Switching) : Switches [] (binding? g) fun found => switchesOf false found.toList := by
  refine switches_pattern?.bind fun found => ?_
  cases found with
  | none => exact switches_pure (by simp)
  | some pattern =>
      refine (switches_typeClause hg).bind fun type => (switches_initialValue hg).bind fun value => ?_
      refine (switches_accessors hg _ _).bind fun body => (switches_takeIf .comma).bind fun comma => ?_
      exact switches_pure (by simp [switches])

theorem switches_bindings (hg : g.Switching) : Switches [] (repeatFrom (bindingTurn g) g.fuel []) (switchesOf false) := by
  refine switches_repeatFrom (fun reversed : List Tree => switchesOf false reversed.reverse) (fun reversed => ?_) (by simp)
  refine (switches_binding? hg).bind fun found => ?_
  cases found with
  | none => exact switches_pure (by simp [Turn.switched])
  | some binding =>
      exact switches_ite (switches_pure (by simp [Turn.switched])) (switches_pure (by simp [Turn.switched]))

theorem switches_variableDecl (hg : g.Switching) (attributes modifiers : Tree) :
    Switches (switches false attributes ++ switches false modifiers) (variableDecl g attributes modifiers) (switches true) := by
  refine switches_advanceLeaf.bind fun keyword => (switches_bindings hg).bind fun bindings => ?_
  exact switches_pure (by simp [switches])

theorem switches_declaration (hg : g.Switching) : Switches [] (declaration g) (switches true) := by
  refine (switches_attributes hg).bind fun attributes => switches_modifiers.bind fun modifiers => switches_get fun c => ?_
  refine switches_ite (switches_typeDecl hg attributes modifiers) ?_
  exact switches_ite (switches_variableDecl hg attributes modifiers) (switches_pure (by simp [switches]))

/-! ### Items -/

/-- What follows an operand makes it a node. -/
theorem gives_chainTurn {P : Tree → Prop} (hnode : ∀ label children, P (.node label children)) {base : Tree}
    (hbase : P base) :
    Gives (chainTurn g base) fun outcome => ∀ c, outcome.Meets (fun t _ => P t) (fun t _ => P t) c := by
  have hagain (label : Label) (children : List Tree) :
      Gives (pure (.again (.node label children) : Turn Tree Tree)) fun outcome =>
        ∀ c, outcome.Meets (fun t _ => P t) (fun t _ => P t) c := gives_pure fun _ => hnode label children
  refine gives_bind fun c => ?_
  refine gives_ite ?_ (gives_ite ?_ (gives_ite ?_ (gives_ite ?_ (gives_ite ?_ (gives_pure fun _ => hbase)))))
  · exact gives_bind fun member => hagain _ _
  · exact gives_bind fun mark => hagain _ _
  · exact gives_bind fun args => hagain _ _
  · exact gives_bind fun args => hagain _ _
  · have hclosures : Gives (trailingClosures g base) P :=
      gives_bind fun first => gives_bind fun further => gives_pure (hnode _ _)
    exact hclosures.bind fun t ht => gives_pure fun _ => ht

theorem Yields.primary_eq_leaf {token : Token} (hrun : Yields (primary g) c (.leaf token) c') : token = c.current := by
  have hblock : Gives (block g .block) fun t => t ≠ .leaf token := gives_block fun _ => by simp
  have hgroup : Gives (arguments g .group) fun t => t ≠ .leaf token := gives_arguments fun _ => by simp
  simp only [primary, yields_get_bind] at hrun
  split at hrun
  next =>
    simp only [yields_advanceLeaf_bind] at hrun
    obtain ⟨operand, _, _, hresult⟩ := yields_bind.mp hrun
    simp at hresult
  simp only [plainPrimary, yields_get_bind] at hrun
  split at hrun
  next => exact absurd rfl (hblock _ _ _ hrun)
  split at hrun
  next => exact absurd rfl (hgroup _ _ _ hrun)
  split at hrun
  next =>
    obtain ⟨member, _, _, hresult⟩ := yields_bind.mp hrun
    simp at hresult
  split at hrun
  next => exact absurd hrun yields_throw
  next =>
    obtain ⟨hleaf, -⟩ := yields_advanceLeaf.mp hrun
    rw [← Tree.leaf.inj hleaf, Cursor.advance_fst]

/-- An operand that is a single token is the one that came next. -/
theorem Yields.chain_eq_leaf {token : Token} (hrun : Yields (chain g) c (.leaf token) c') : token = c.current := by
  obtain ⟨base, c₁, hprimary, hrun⟩ := yields_bind.mp hrun
  have hbase : base = .leaf token → token = c.current := by
    rintro rfl
    exact hprimary.primary_eq_leaf
  split at hrun
  next =>
    have hchain : Gives (repeatFrom (chainTurn g) g.fuel base) fun t => t = .leaf token → token = c.current :=
      gives_repeatFrom _ (fun base hbase => gives_chainTurn (fun _ _ hleaf => by cases hleaf) hbase) hbase
    exact hchain _ _ _ hrun rfl
  next =>
    obtain ⟨rfl, -⟩ := yields_pure.mp hrun
    exact hbase rfl

theorem switches_item (hg : g.Switching) : Switches [] (item g) (switches true) := by
  intro start c t c' hstart hrun
  simp only [item, yields_get_bind] at hrun
  split at hrun
  next => exact switches_declaration hg start c t c' hstart hrun
  split at hrun
  next hword =>
    simp only [yields_setCondition_bind, yields_advanceLeaf] at hrun
    obtain ⟨rfl, rfl⟩ := hrun
    have hopens : switches true (.leaf c.current) = [true] := by simp [switches, hword]
    rw [Cursor.inCondition_advance, Cursor.advance_fst]
    change true = (switches true (.leaf c.current)).getLastD start
    rw [hopens]
    rfl
  next hword =>
    have hswitched := switches_chain hg start c t c' hstart hrun
    cases t with
    | leaf token =>
        obtain rfl := hrun.chain_eq_leaf
        have hplain : switches true (.leaf c.current) = [] := by simp [switches, hword]
        rw [hplain]
        simpa using hswitched
    | node label children => simpa only [switches] using hswitched
    | absent => simpa only [switches] using hswitched

/-- At every nesting limit items and types switch what their trees say. -/
theorem switching_nonterminals (fuel limit : Nat) : (nonterminals fuel limit).Switching := by
  induction limit with
  | zero => exact ⟨switches_throw, keeps_throw, gives_throw⟩
  | succ limit ih => exact ⟨switches_item ih, keeps_type? ih.type_keeps, gives_type?⟩

/-- Behind a body the parser remembers what was switched last in it. -/
theorem inCondition_block {fuel limit : Nat} {body : Tree} (hlabel : label.isBody = true)
    (hrun : Yields (block (nonterminals fuel limit) label) c body c') :
    (body.switches false).getLast? = some c'.inCondition := by
  have hnode : Gives (block (nonterminals fuel limit) label) fun t => ∃ children, t = .node label children :=
    gives_block fun children => ⟨children, rfl⟩
  obtain ⟨children, rfl⟩ := hnode c body c' hrun
  rw [switches_block (switching_nonterminals fuel limit) hlabel c.inCondition c _ c' rfl hrun, switches_body hlabel,
    List.getLastD_cons, List.getLast?_cons, List.getLastD_eq_getLast?]

/-- The body behind the condition closes it. -/
theorem inCondition_block_if :
    ∃ tokens body c', Token.stream 1 "{ if x { } }".toList = .ok tokens ∧
      Yields (block (nonterminals 9 3) .block) (.ofTokens tokens) body c' ∧
      body.switches false = [false, true, false] ∧ c'.inCondition = false := by
  have hany : ((Token.stream 1 "{ if x { } }".toList).toOption.any fun tokens =>
      (block (nonterminals 9 3) .block (.ofTokens tokens)).toOption.any fun result =>
        result.1.switches false == [false, true, false]) = true := by decide +kernel
  obtain ⟨tokens, hstream, hany⟩ := exists_eq_ok_of_any hany
  obtain ⟨⟨body, c'⟩, hrun, hswitches⟩ := exists_eq_ok_of_any hany
  have hlast := inCondition_block rfl hrun
  rw [beq_iff_eq.mp hswitches] at hlast
  exact ⟨tokens, body, c', hstream, hrun, beq_iff_eq.mp hswitches, (Option.some.inj hlast).symm⟩

/-- Behind `repeat` the condition has no body, and it is still open behind the block that it ends. -/
theorem exists_condition_left_open :
    ∃ tokens body c', Token.stream 1 "{ repeat { } while x }".toList = .ok tokens ∧
      Yields (block (nonterminals 9 3) .block) (.ofTokens tokens) body c' ∧ c'.inCondition = true := by
  have hany : ((Token.stream 1 "{ repeat { } while x }".toList).toOption.any fun tokens =>
      (block (nonterminals 9 3) .block (.ofTokens tokens)).toOption.any fun result => result.2.inCondition) = true := by
    decide +kernel
  obtain ⟨tokens, hstream, hany⟩ := exists_eq_ok_of_any hany
  obtain ⟨⟨body, c'⟩, hrun, hopen⟩ := exists_eq_ok_of_any hany
  exact ⟨tokens, body, c', hstream, hrun, hopen⟩

end Grammar

end SwiftObservation
