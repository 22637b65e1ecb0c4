import SwiftObservation.Proofs.Grammar.Faults.Types
import SwiftObservation.Proofs.Grammar.Shape.Declarations

/-!
# Nodes that hold a token

A rule that takes a token away from a node has to know that there is one. Groups and generic parameters begin with a
bracket, and an entry of an inheritance clause begins with a type, which has a leaf. As with the shape of a tree, this is
shown rule by rule; `Gives` says of a rule what holds of everything that it yields, wherever it is started.
-/

namespace SwiftObservation

namespace Tree

variable {t : Tree} {trees : List Tree} {label : Label} {children : List Tree}

/-- The labels of nodes whose first child holds a token. -/
def holding : List Label := [.group, .genericParams, .inheritedType]

@[simp] theorem mem_holding : label ∈ holding ↔ label = .group ∨ label = .genericParams ∨ label = .inheritedType := by
  simp [holding]

/-- The nodes of the tree hold tokens where their labels call for it. -/
inductive Filled : Tree → Prop where
  | leaf (token : Token) : Filled (.leaf token)
  | node {label : Label} {children : List Tree}
      (holds : label ∈ holding → ∃ t rest, children = t :: rest ∧ t.leaves ≠ []) (inner : ∀ t ∈ children, Filled t) :
      Filled (.node label children)
  | absent : Filled .absent

/-- All of the trees are filled. -/
def FilledAll (trees : List Tree) : Prop := ∀ t ∈ trees, t.Filled

@[simp] theorem filled_leaf {token : Token} : Filled (.leaf token) := .leaf token

@[simp] theorem filled_absent : Filled .absent := .absent

@[simp] theorem filledAll_nil : FilledAll [] := by simp [FilledAll]

@[simp] theorem filledAll_cons : FilledAll (t :: trees) ↔ t.Filled ∧ FilledAll trees := List.forall_mem_cons

@[simp] theorem filledAll_append {front back : List Tree} :
    FilledAll (front ++ back) ↔ FilledAll front ∧ FilledAll back := List.forall_mem_append

@[simp] theorem filledAll_reverse : FilledAll trees.reverse ↔ FilledAll trees := by simp [FilledAll]

theorem Filled.holds (ht : Filled (.node label children)) (hlabel : label ∈ holding) :
    ∃ t rest, children = t :: rest ∧ t.leaves ≠ [] := by
  cases ht with
  | node holds _ => exact holds hlabel

theorem Filled.inner (ht : Filled (.node label children)) : FilledAll children := by
  cases ht with
  | node _ inner => exact inner

/-- A node whose label calls for no token is filled if its children are. -/
@[simp] theorem filled_node (hlabel : label ∉ holding) : Filled (.node label children) ↔ FilledAll children :=
  ⟨Filled.inner, fun hchildren => .node (fun hmem => absurd hmem hlabel) hchildren⟩

/-- A node that begins with a token is filled if its other children are, whatever its label calls for. -/
theorem filled_node_leaf {token : Token} : Filled (.node label (.leaf token :: children)) ↔ FilledAll children :=
  ⟨fun ht => (filledAll_cons.mp ht.inner).2,
    fun hchildren => .node (fun _ => ⟨_, _, rfl, by simp [leaves]⟩) (filledAll_cons.mpr ⟨.leaf token, hchildren⟩)⟩

end Tree

namespace Grammar

open SwiftObservation.Tree

variable {α β σ : Type} {c c' : Cursor} {g : Nonterminals} {t : Tree} {trees : List Tree} {found : Option Tree}

/-- Whatever the rule yields has the property. -/
def Gives (r : Rule α) (P : α → Prop) : Prop := ∀ c a c', Yields r c a c' → P a

section

variable {r r' : Rule α} {next : α → Rule β} {P : β → Prop} {Q : α → Prop}

theorem gives_pure {b : β} (hb : P b) : Gives (pure b) P := by
  intro c a c' hrun
  obtain ⟨rfl, -⟩ := yields_pure.mp hrun
  exact hb

theorem gives_throw {e : ParseError} : Gives (throw e) P := fun _ _ _ hrun => absurd hrun yields_throw

theorem Gives.bind (hr : Gives r Q) (hnext : ∀ a, Q a → Gives (next a) P) : Gives (r >>= next) P := by
  intro c b c' hrun
  obtain ⟨a, _, hfirst, hrest⟩ := yields_bind.mp hrun
  exact hnext a (hr _ _ _ hfirst) _ _ _ hrest

/-- What is yielded on the way need not matter. -/
theorem gives_bind (hnext : ∀ a, Gives (next a) P) : Gives (r >>= next) P := by
  have hr : Gives r fun _ => True := fun _ _ _ _ => trivial
  exact hr.bind fun a _ => hnext a

theorem gives_ite {p : Prop} [Decidable p] (hr : Gives r Q) (hr' : Gives r' Q) : Gives (if p then r else r') Q := by
  split
  · exact hr
  · exact hr'

/-- A choice that the rest of a rule follows in either case. -/
theorem gives_ite_bind {p : Prop} [Decidable p] (hr : Gives r Q) (hr' : Gives r' Q) (hnext : ∀ a, Q a → Gives (next a) P) :
    Gives (if p then r >>= next else r' >>= next) P :=
  gives_ite (hr.bind hnext) (hr'.bind hnext)

theorem gives_repeatFrom {turn : σ → Rule (Turn σ β)} {fuel : Nat} {s : σ} (Inv : σ → Prop)
    (hturn : ∀ s, Inv s → Gives (turn s) fun outcome => ∀ c, outcome.Meets (fun s _ => Inv s) (fun b _ => P b) c)
    (hs : Inv s) : Gives (repeatFrom turn fuel s) P := by
  intro c b c' hrun
  exact Yields.repeatFrom_induction (fun s _ => Inv s) (fun b _ => P b)
    (fun s c outcome c' hinv hrun => hturn s hinv _ _ _ hrun c') hs hrun

end

theorem gives_gather {turn : Rule (Option (List Tree))} {fuel : Nat}
    (hturn : Gives turn fun found => ∀ more ∈ found, FilledAll more) : Gives (gather fuel turn) FilledAll :=
  fun _ _ _ hrun => hrun.forall_gather fun hmore => hturn _ _ _ hmore _ rfl

/-- The rules that all nesting passes through yield filled trees, and types hold a token. -/
structure Nonterminals.Filling (g : Nonterminals) : Prop where
  item : Gives g.item Filled
  type : Gives g.type fun found => ∀ t ∈ found, t.Filled ∧ t.leaves ≠ []

theorem Nonterminals.Filling.toList_type (hg : g.Filling) : Gives g.type fun found => FilledAll found.toList := by
  intro c found c' hrun t ht
  exact (hg.type _ _ _ hrun t (Option.mem_toList.mp ht)).1

/-! ### Tokens and brackets -/

theorem filledAll_map_leaf (tokens : List Token) : FilledAll (tokens.map .leaf) := by
  intro t ht
  obtain ⟨token, -, rfl⟩ := List.mem_map.mp ht
  exact .leaf token

theorem filled_advanceLeaf : Gives advanceLeaf Filled := gives_bind fun token => gives_pure (.leaf token)

theorem filled_takeMany (n : Nat) : Gives (takeMany n) FilledAll := by
  intro c trees c' hrun
  obtain ⟨tokens, rfl, -⟩ := hrun.takeMany_eq
  exact filledAll_map_leaf tokens

theorem filled_takeIf (kind : TokenKind) : Gives (takeIf kind) FilledAll := by
  refine gives_bind fun c => gives_ite ?_ (gives_pure filledAll_nil)
  exact filled_advanceLeaf.bind fun t ht => gives_pure (by simp [ht])

theorem filled_takeMark : Gives takeMark FilledAll := by
  refine gives_bind fun c => gives_ite ?_ (gives_pure filledAll_nil)
  exact filled_advanceLeaf.bind fun t ht => gives_pure (by simp [ht])

/-- A turn that yields one filled tree. -/
theorem filled_some_singleton {r : Rule Tree} (hr : Gives r Filled) :
    Gives (do return some [← r]) fun found => ∀ more ∈ found, FilledAll more :=
  hr.bind fun t ht => gives_pure (by simpa using ht)

theorem filled_items (hg : g.Filling) (opener : Option Token) : Gives (items g opener) FilledAll := by
  refine gives_gather (gives_bind fun c => ?_)
  dsimp only
  repeat' split
  all_goals first
    | exact gives_throw
    | exact gives_pure (by simp)
    | exact filled_some_singleton hg.item

theorem filled_block (hg : g.Filling) (label : Label) : Gives (block g label) Filled := by
  refine gives_bind fun opener => gives_bind fun _ => (filled_items hg _).bind fun inside hinside => ?_
  refine filled_advanceLeaf.bind fun closer hcloser => gives_pure ?_
  rw [List.cons_append, filled_node_leaf]
  simp [hinside, hcloser]

theorem filled_argument (hg : g.Filling) (closer : TokenKind) : Gives (argument g closer) Filled := by
  refine gives_bind fun c => gives_ite_bind (filled_takeMany 2) (gives_pure filledAll_nil) fun label hlabel => ?_
  refine Gives.bind (gives_gather (gives_bind fun c => ?_)) fun elements helements => ?_
  · exact gives_ite (gives_pure (by simp)) (filled_some_singleton hg.item)
  · refine (filled_takeIf .comma).bind fun comma hcomma => gives_pure ?_
    rw [filled_node (by decide)]
    simp [hlabel, hcomma, helements]

theorem filled_arguments (hg : g.Filling) (label : Label) : Gives (arguments g label) Filled := by
  refine gives_bind fun c => gives_bind fun opener => gives_bind fun _ => ?_
  refine Gives.bind (gives_gather (gives_bind fun c => ?_)) fun inside hinside => ?_
  · dsimp only
    repeat' split
    all_goals first
      | exact gives_throw
      | exact gives_pure (by simp)
      | exact filled_some_singleton (filled_argument hg _)
  · refine filled_advanceLeaf.bind fun closing hclosing => gives_bind fun _ => gives_pure ?_
    rw [List.cons_append, filled_node_leaf]
    simp [hinside, hclosing]

/-! ### Types and attributes -/

theorem filled_genericArgs? (hg : g.Filling) : Gives (genericArgs? g) fun found => FilledAll found.toList := by
  refine gives_bind fun start => gives_ite (gives_bind fun opener => ?_) (gives_pure filledAll_nil)
  refine gives_repeatFrom FilledAll (fun reversed hreversed => gives_bind fun c => gives_ite ?_ ?_) (by simp)
  · refine gives_bind fun closer => gives_pure fun _ => ?_
    simpa [Turn.Meets] using hreversed
  · refine hg.toList_type.bind fun found hfound => ?_
    cases found with
    | none => exact gives_bind fun _ => gives_pure fun _ => filledAll_nil
    | some arg =>
        refine (filled_takeIf .comma).bind fun comma hcomma => gives_pure fun _ => ?_
        simp only [Option.toList_some, filledAll_cons, filledAll_nil, and_true] at hfound
        simp [Turn.Meets, hcomma, hfound, hreversed]

theorem filled_typeIdentifier (hg : g.Filling) : Gives (typeIdentifier g) Filled := by
  refine filled_advanceLeaf.bind fun name hname => (filled_genericArgs? hg).bind fun args hargs => ?_
  refine gives_repeatFrom Filled (fun base hbase => gives_bind fun c => gives_ite ?_ ?_) ?_
  · refine (filled_takeMany 2).bind fun member hmember => (filled_genericArgs? hg).bind fun args hargs => ?_
    refine gives_pure fun _ => ?_
    simp [Turn.Meets, hbase, hmember, hargs]
  · exact gives_pure fun _ => hbase
  · simp [hname, hargs]

theorem filled_singleAttribute (hg : g.Filling) : Gives (singleAttribute g) Filled := by
  refine filled_advanceLeaf.bind fun sign hsign => (filled_typeIdentifier hg).bind fun name hname => ?_
  refine gives_bind fun c => gives_ite ?_ (gives_pure ?_)
  · refine (filled_arguments hg .arguments).bind fun args hargs => gives_pure ?_
    simp [hsign, hname, hargs]
  · simp [hsign, hname]

theorem filled_typeHead (hg : g.Filling) : Gives (typeHead g) FilledAll := by
  refine gives_gather (gives_bind fun c => ?_)
  dsimp only
  refine gives_ite (filled_some_singleton (filled_singleAttribute hg)) (gives_ite ?_ (gives_pure (by simp)))
  exact filled_some_singleton filled_advanceLeaf

theorem filled_typeCore? (hg : g.Filling) : Gives (typeCore? g) fun found => FilledAll found.toList := by
  refine gives_bind fun c => ?_
  split
  · exact (filled_typeIdentifier hg).bind fun t ht => gives_pure (by simpa using ht)
  · exact (filled_arguments hg .group).bind fun t ht => gives_pure (by simpa using ht)
  · exact (filled_arguments hg .group).bind fun t ht => gives_pure (by simpa using ht)
  · exact gives_pure filledAll_nil

theorem filled_typeTail (hg : g.Filling) {fuel : Nat} : Gives (repeatFrom (typeTailTurn g) fuel []) FilledAll := by
  refine gives_repeatFrom FilledAll (fun reversed hreversed => gives_bind fun c => ?_) filledAll_nil
  dsimp only
  refine gives_ite ?_ (gives_ite ?_ (gives_ite ?_ (gives_ite ?_ ?_)))
  · exact filled_advanceLeaf.bind fun t ht => gives_pure fun _ => by simp [Turn.Meets, ht, hreversed]
  · exact (filled_takeMany 2).bind fun trees htrees => gives_pure fun _ => by simp [Turn.Meets, htrees, hreversed]
  · refine filled_advanceLeaf.bind fun effect heffect => gives_bind fun c => gives_ite ?_ ?_
    · exact (filled_arguments hg .group).bind fun t ht => gives_pure fun _ => by
        simp [Turn.Meets, ht, heffect, hreversed]
    · exact gives_pure fun _ => by simp [Turn.Meets, heffect, hreversed]
  · refine filled_advanceLeaf.bind fun joint hjoint => hg.toList_type.bind fun target htarget => ?_
    exact gives_pure fun _ => by simp [Turn.Meets, htarget, hjoint, hreversed]
  · exact gives_pure fun _ => by simpa [Turn.Meets] using hreversed

theorem filled_type? (hg : g.Filling) : Gives (type? g) fun found => FilledAll found.toList := by
  refine (filled_typeHead hg).bind fun head hhead => (filled_typeCore? hg).bind fun core hcore => ?_
  cases core with
  | none =>
      refine gives_pure ?_
      split
      · exact filledAll_nil
      · simpa using hhead
  | some core =>
      refine (filled_typeTail hg).bind fun tail htail => ?_
      have hparts : FilledAll (head ++ core :: tail) := by simp_all
      split
      next single hsingle =>
        rw [hsingle] at hparts
        exact gives_pure (by simpa using hparts)
      next => exact gives_pure (by simpa using hparts)

/-! ### Expressions -/

theorem filledAll_children (ht : t.Filled) : FilledAll t.children := by
  cases ht with
  | node _ inner => exact inner
  | _ => exact filledAll_nil

theorem filled_trailingClosures (hg : g.Filling) {callee : Tree} (hcallee : callee.Filled) :
    Gives (trailingClosures g callee) Filled := by
  have hbefore : FilledAll (if callee.is .call then callee.children else [callee]) := by
    split
    · exact filledAll_children hcallee
    · simpa using hcallee
  refine (filled_block hg .block).bind fun first hfirst => ?_
  refine Gives.bind (gives_gather (gives_bind fun c => gives_ite ?_ (gives_pure (by simp)))) fun further hfurther => ?_
  · refine (filled_takeMany 2).bind fun label hlabel => (filled_block hg .block).bind fun closure hclosure => ?_
    exact gives_pure (by simp [hlabel, hclosure])
  · refine gives_pure ?_
    rw [filled_node (by decide), filledAll_append, filledAll_cons]
    exact ⟨hbefore, hfirst, hfurther⟩

theorem filled_chainTurn (hg : g.Filling) {base : Tree} (hbase : base.Filled) :
    Gives (chainTurn g base) fun outcome => ∀ c, outcome.Meets (fun t _ => t.Filled) (fun t _ => t.Filled) c := by
  refine gives_bind fun c => ?_
  dsimp only
  refine gives_ite ?_ (gives_ite ?_ (gives_ite ?_ (gives_ite ?_ (gives_ite ?_ (gives_pure fun _ => hbase)))))
  · refine (filled_takeMany 2).bind fun member hmember => gives_pure fun _ => ?_
    simp [Turn.Meets, hbase, hmember]
  · refine filled_advanceLeaf.bind fun mark hmark => gives_pure fun _ => ?_
    simp [Turn.Meets, hbase, hmark]
  · refine (filled_arguments hg .arguments).bind fun args hargs => gives_pure fun _ => ?_
    simp [Turn.Meets, hbase, hargs]
  · refine (filled_arguments hg .arguments).bind fun args hargs => gives_pure fun _ => ?_
    simp [Turn.Meets, hbase, hargs]
  · exact (filled_trailingClosures hg hbase).bind fun t ht => gives_pure fun _ => ht

theorem filled_chainFrom (hg : g.Filling) {primary : Rule Tree} (hprimary : Gives primary Filled) :
    Gives (chainFrom g primary) Filled := by
  refine hprimary.bind fun base hbase => gives_ite ?_ (gives_pure hbase)
  exact gives_repeatFrom Filled (fun base hbase => filled_chainTurn hg hbase) hbase

theorem filled_plainPrimary (hg : g.Filling) : Gives (plainPrimary g) Filled := by
  refine gives_bind fun c => gives_ite (filled_block hg .block) (gives_ite (filled_arguments hg .group) ?_)
  refine gives_ite ?_ (gives_ite gives_throw filled_advanceLeaf)
  refine (filled_takeMany 2).bind fun member hmember => gives_pure ?_
  simp [hmember]

theorem filled_primary (hg : g.Filling) : Gives (primary g) Filled := by
  refine gives_bind fun c => gives_ite ?_ (filled_plainPrimary hg)
  refine filled_advanceLeaf.bind fun operator hoperator => ?_
  refine (filled_chainFrom hg (filled_plainPrimary hg)).bind fun operand hoperand => gives_pure ?_
  simp [hoperator, hoperand]

theorem filled_chain (hg : g.Filling) : Gives (chain g) Filled := filled_chainFrom hg (filled_primary hg)

theorem filled_markers : Gives (markers g) FilledAll := by
  refine gives_gather (gives_bind fun c => gives_ite ?_ (gives_pure (by simp)))
  refine filled_advanceLeaf.bind fun word hword => filled_takeMark.bind fun mark hmark => gives_pure ?_
  simp [hword, hmark]

theorem filled_cast (hg : g.Filling) : Gives (cast g) FilledAll := by
  refine gives_bind fun c => gives_ite (gives_bind fun word => ?_) (gives_pure filledAll_nil)
  refine gives_ite_bind filled_takeMark (gives_pure filledAll_nil) fun mark hmark => ?_
  exact hg.toList_type.bind fun target htarget => gives_pure (by simp [hmark, htarget])

theorem filled_expr (hg : g.Filling) : Gives (expr g) Filled := by
  refine Gives.bind (gives_repeatFrom (fun s => FilledAll s.reversed) (fun s hs => ?_) filledAll_nil) fun parts hparts =>
    gives_pure ((filled_node (by decide)).mpr hparts)
  refine gives_bind fun c => gives_ite (gives_pure fun _ => by simpa [Turn.Meets] using hs) ?_
  refine filled_markers.bind fun words hwords => gives_bind fun c => gives_ite ?_ ?_
  · exact gives_pure fun _ => by simp [Turn.Meets, hwords, hs]
  refine (filled_chain hg).bind fun operand hoperand => (filled_cast hg).bind fun casts hcasts => gives_bind fun c => ?_
  refine gives_ite ?_ (gives_ite ?_ ?_)
  · exact filled_advanceLeaf.bind fun operator hoperator => gives_pure fun _ => by
      simp [Turn.Meets, hoperator, hcasts, hoperand, hwords, hs]
  · exact filled_advanceLeaf.bind fun colon hcolon => gives_pure fun _ => by
      simp [Turn.Meets, hcolon, hcasts, hoperand, hwords, hs]
  · exact gives_pure fun _ => by simp [Turn.Meets, hcasts, hoperand, hwords, hs]

/-! ### Declarations -/

theorem filled_attributes (hg : g.Filling) : Gives (attributes g) Filled := by
  refine Gives.bind (gives_gather (gives_bind fun c => gives_ite ?_ (gives_pure (by simp)))) fun found hfound =>
    gives_pure ((filled_node (by decide)).mpr hfound)
  exact filled_some_singleton (filled_singleAttribute hg)

/-- Modifiers are made of tokens. -/
theorem filled_modifiers : Gives modifiers Filled := by
  intro c t c' hrun
  obtain ⟨found, rfl, hshaped⟩ := hrun.modifiers_eq
  refine (filled_node (by decide)).mpr fun t ht => ?_
  obtain ⟨parts, rfl⟩ := exists_of_is (hshaped.admits t ht)
  obtain ⟨tokens, rfl, -⟩ := (hshaped.of_mem ht).admits
  exact (filled_node (by decide)).mpr (filledAll_map_leaf tokens)

theorem filled_paramName : Gives paramName FilledAll :=
  gives_bind fun _ => gives_ite (gives_ite (filled_takeMany 2) (filled_takeMany 1)) (gives_pure filledAll_nil)

theorem filled_constraint (hg : g.Filling) : Gives (constraint g) FilledAll := by
  refine gives_bind fun c => gives_ite ?_ (gives_pure filledAll_nil)
  refine filled_advanceLeaf.bind fun colon hcolon => hg.toList_type.bind fun type htype => gives_pure ?_
  simp [hcolon, htype]

theorem filled_genericParam (hg : g.Filling) : Gives (genericParam g) Filled := by
  refine filled_paramName.bind fun name hname => (filled_constraint hg).bind fun type htype => ?_
  refine (filled_takeIf .comma).bind fun comma hcomma => gives_ite ?_ (gives_pure (by simp [hname, htype, hcomma]))
  exact filled_advanceLeaf.bind fun token htoken => gives_pure (by simpa using htoken)

theorem filled_genericParams? (hg : g.Filling) : Gives (genericParams? g) fun found => FilledAll found.toList := by
  refine gives_bind fun c => gives_ite (gives_bind fun opener => ?_) (gives_pure filledAll_nil)
  refine Gives.bind (gives_gather (gives_bind fun c => gives_ite (gives_pure (by simp)) (gives_ite gives_throw ?_)))
    fun inside hinside => gives_bind fun closer => gives_pure ?_
  · exact filled_some_singleton (filled_genericParam hg)
  · simp [filled_node_leaf, hinside]

theorem filled_entries (hg : g.Filling) {fuel : Nat} : Gives (repeatFrom (inheritanceTurn g) fuel []) FilledAll := by
  refine gives_repeatFrom FilledAll (fun reversed hreversed => ?_) filledAll_nil
  refine hg.type.bind fun found hfound => ?_
  cases found with
  | none => exact gives_pure fun _ => by simpa [Turn.Meets] using hreversed
  | some inherited =>
      obtain ⟨hfilled, hleaf⟩ := hfound inherited rfl
      refine (filled_takeIf .comma).bind fun comma hcomma => ?_
      have hentry : Filled (.node .inheritedType (inherited :: comma)) :=
        .node (fun _ => ⟨_, _, rfl, hleaf⟩) (filledAll_cons.mpr ⟨hfilled, hcomma⟩)
      exact gives_ite (gives_pure fun _ => by simp [Turn.Meets, hentry, hreversed])
        (gives_pure fun _ => by simp [Turn.Meets, hentry, hreversed])

theorem filled_inheritance (hg : g.Filling) : Gives (inheritance g) Filled :=
  filled_advanceLeaf.bind fun colon hcolon => (filled_entries hg).bind fun entries hentries =>
    gives_pure (by simp [hcolon, hentries])

theorem filled_whereClause (hg : g.Filling) : Gives (whereClause g) Filled := by
  refine filled_advanceLeaf.bind fun word hword => gives_bind fun _ => ?_
  refine Gives.bind (gives_gather (gives_bind fun c => gives_ite (gives_pure (by simp)) (filled_some_singleton hg.item)))
    fun inside hinside => gives_bind fun _ => gives_pure ?_
  simp [hword, hinside]

theorem filled_declaredName? (hg : g.Filling) (keyword : Token) :
    Gives (declaredName? g keyword) fun found => FilledAll found.toList := by
  refine gives_ite hg.toList_type (gives_bind fun c => gives_ite ?_ (gives_pure filledAll_nil))
  exact filled_advanceLeaf.bind fun t ht => gives_pure (by simpa using ht)

theorem filled_map_some {r : Rule Tree} (hr : Gives r Filled) : Gives (some <$> r) fun found => FilledAll found.toList := by
  rw [map_eq_pure_bind]
  exact hr.bind fun t ht => gives_pure (by simpa using ht)

theorem filled_typeDecl (hg : g.Filling) {attributes modifiers : Tree} (hattributes : attributes.Filled)
    (hmodifiers : modifiers.Filled) : Gives (typeDecl g attributes modifiers) Filled := by
  refine gives_bind fun keyword => (filled_declaredName? hg keyword).bind fun found hname => ?_
  cases found with
  | none => exact gives_bind fun c => gives_throw
  | some name =>
      refine (filled_genericParams? hg).bind fun params hparams => gives_bind fun c => ?_
      refine gives_ite_bind (filled_map_some (filled_inheritance hg)) (gives_pure filledAll_nil) fun clause hclause => ?_
      refine gives_bind fun c => ?_
      refine gives_ite_bind (filled_map_some (filled_whereClause hg)) (gives_pure filledAll_nil)
        fun requirements hrequirements => ?_
      refine gives_bind fun c => gives_ite ?_ gives_throw
      refine (filled_block hg .memberBlock).bind fun body hbody => gives_pure ?_
      simp only [Option.toList_some, filledAll_cons, filledAll_nil, and_true] at hname
      simp [hattributes, hmodifiers, hname, hparams, hclause, hrequirements, hbody]

theorem filled_pattern? (hg : g.Filling) : Gives (pattern? g) fun found => FilledAll found.toList := by
  refine gives_bind fun c => ?_
  split
  · exact filled_advanceLeaf.bind fun t ht => gives_pure (by simpa using ht)
  · exact (filled_arguments hg .group).bind fun t ht => gives_pure (by simpa using ht)
  · exact gives_pure filledAll_nil

theorem filled_typeClause (hg : g.Filling) : Gives (typeClause g) FilledAll := by
  refine gives_bind fun c => gives_ite ?_ (gives_pure filledAll_nil)
  exact filled_advanceLeaf.bind fun colon hcolon => hg.toList_type.bind fun type htype => gives_pure (by simp [hcolon, htype])

theorem filled_initialValue (hg : g.Filling) : Gives (initialValue g) FilledAll := by
  refine gives_bind fun c => gives_ite ?_ (gives_pure filledAll_nil)
  exact filled_advanceLeaf.bind fun sign hsign => (filled_expr hg).bind fun value hvalue => gives_pure (by simp [hsign, hvalue])

theorem filled_accessors (hg : g.Filling) (typed valued : Bool) : Gives (accessors g typed valued) FilledAll := by
  refine gives_bind fun c => gives_ite ?_ (gives_pure filledAll_nil)
  exact (filled_block hg .accessorBlock).bind fun body hbody => gives_pure (by simpa using hbody)

theorem filled_binding? (hg : g.Filling) : Gives (binding? g) fun found => FilledAll found.toList := by
  refine (filled_pattern? hg).bind fun found hfound => ?_
  cases found with
  | none => exact gives_pure filledAll_nil
  | some pattern =>
      refine (filled_typeClause hg).bind fun type htype => (filled_initialValue hg).bind fun value hvalue => ?_
      refine (filled_accessors hg _ _).bind fun body hbody => (filled_takeIf .comma).bind fun comma hcomma => gives_pure ?_
      simp only [Option.toList_some, filledAll_cons, filledAll_nil, and_true] at hfound
      simp [hfound, htype, hvalue, hbody, hcomma]

theorem filled_bindings (hg : g.Filling) {fuel : Nat} : Gives (repeatFrom (bindingTurn g) fuel []) FilledAll := by
  refine gives_repeatFrom FilledAll (fun reversed hreversed => ?_) filledAll_nil
  refine (filled_binding? hg).bind fun found hfound => ?_
  cases found with
  | none => exact gives_pure fun _ => by simpa [Turn.Meets] using hreversed
  | some binding =>
      simp only [Option.toList_some, filledAll_cons, filledAll_nil, and_true] at hfound
      exact gives_ite (gives_pure fun _ => by simp [Turn.Meets, hfound, hreversed])
        (gives_pure fun _ => by simp [Turn.Meets, hfound, hreversed])

theorem filled_variableDecl (hg : g.Filling) {attributes modifiers : Tree} (hattributes : attributes.Filled)
    (hmodifiers : modifiers.Filled) : Gives (variableDecl g attributes modifiers) Filled :=
  filled_advanceLeaf.bind fun keyword hkeyword => (filled_bindings hg).bind fun bindings hbindings =>
    gives_pure (by simp [hattributes, hmodifiers, hkeyword, hbindings])

theorem filled_item (hg : g.Filling) : Gives (item g) Filled := by
  refine gives_bind fun c => gives_ite ?_ (gives_ite (gives_bind fun _ => filled_advanceLeaf) (filled_chain hg))
  refine (filled_attributes hg).bind fun attributes hattributes => filled_modifiers.bind fun modifiers hmodifiers => ?_
  refine gives_bind fun c => gives_ite (filled_typeDecl hg hattributes hmodifiers) ?_
  exact gives_ite (filled_variableDecl hg hattributes hmodifiers) (gives_pure (by simp [hattributes, hmodifiers]))

/-- At every nesting limit items and types are filled. -/
theorem filling_nonterminals (fuel limit : Nat) : (nonterminals fuel limit).Filling := by
  induction limit with
  | zero => exact ⟨gives_throw, gives_throw⟩
  | succ limit ih =>
      refine ⟨filled_item ih, fun c found c' hrun t ht => ⟨?_, ?_⟩⟩
      · exact filled_type? ih _ _ _ hrun t (Option.mem_toList.mpr ht)
      · obtain rfl := Option.mem_def.mp ht
        exact leaves_type? hrun

theorem filled_sourceFile (hg : g.Filling) : Gives (sourceFile g) Filled := by
  refine (filled_items hg none).bind fun inside hinside => filled_advanceLeaf.bind fun ending hending => gives_pure ?_
  simp [hinside, hending]

end Grammar

theorem Tree.filled_of_ofSource {limits : Limits} {source : Text} {t : Tree}
    (hread : Tree.ofSource limits source = .ok t) : t.Filled := by
  obtain ⟨tokens, -, hparse⟩ := Tree.ofSource_eq_ok hread
  obtain ⟨c', hrun⟩ := Grammar.yields_of_ofTokens hparse
  exact Grammar.filled_sourceFile (Grammar.filling_nonterminals _ _) _ _ _ hrun

end SwiftObservation
