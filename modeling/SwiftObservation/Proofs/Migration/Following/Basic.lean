import SwiftObservation.Proofs.Migration.Recognition
import SwiftObservation.Proofs.Migration.Remainder

/-!
# Migration makes no other edits

The migration of a tree follows its edits: the words of the migrated tree are the words that the edits leave. Edits are
said from the root downwards, while a migrated child is changed once more by each rule above it. `Role.left` closes the
gap: it is what the rules above a tree leave of it once it is migrated, so that a node follows its edits as soon as the
rule for it leaves what the roles of its children leave.
-/

namespace SwiftObservation.Migration

open SwiftObservation.Tree

variable {names : List Text} {label : Label} {children : List Tree} {t : Tree}

/-! ### Words before and after -/

@[simp] theorem before_append (front back : List Edit) : before (front ++ back) = before front ++ before back :=
  List.filterMap_append

@[simp] theorem after_append (front back : List Edit) : after (front ++ back) = after front ++ after back :=
  List.filterMap_append

@[simp] theorem before_insert (words : List Word) : before (words.map .insert) = [] := by
  simp [before, Edit.before?]

@[simp] theorem after_insert (words : List Word) : after (words.map .insert) = words := by
  simp [after, Function.comp_def, Edit.after?]

theorem before_ofToken (role : Role) (token : Token) : before (role.ofToken token) = (Tree.leaf token).words := by
  unfold Role.ofToken
  rw [words_leaf]
  split
  · rfl
  · cases role <;> rfl

mutual

/-- Whatever its role, the edits in a tree are about its words. -/
theorem before_edits (names : List Text) (role : Role) (t : Tree) : before (edits names role t) = t.words := by
  cases t with
  | leaf token => rw [edits, before_ofToken]
  | node label children => simp [edits, before_editsOf]
  | absent => rfl

theorem before_editsOf (names : List Text) (roles : List Role) (trees : List Tree) :
    before (editsOf names roles trees) = trees.flatMap words := by
  cases trees with
  | nil => rfl
  | cons t rest => rw [editsOf, before_append, before_edits, before_editsOf, List.flatMap_cons]

end

mutual

theorem after_edits_gone (names : List Text) (t : Tree) : after (edits names .gone t) = [] := by
  cases t with
  | leaf token =>
      rw [edits, Role.ofToken]
      split <;> rfl
  | node label children =>
      have hbefore : insertedBefore names .gone label children = [] := by cases label <;> rfl
      rw [edits, hbefore, Role.below, after_append, after_append, after_editsOf_gone]
      rfl
  | absent => rfl

theorem after_editsOf_gone (names : List Text) (trees : List Tree) :
    after (editsOf names (trees.map fun _ => .gone) trees) = [] := by
  cases trees with
  | nil => rfl
  | cons t rest =>
      simp only [List.map_cons, editsOf, List.headD_cons, List.tail_cons, after_append, after_edits_gone,
        after_editsOf_gone, List.append_nil]

end

/-! ### What the rules above a tree leave of it -/

/-- The words of the wrapper of an object from the environment with the type that moves into it, if one does. -/
def lookupWords : Option (List Word) → Tree → List Word
  | some type, .node _ [sign, name] =>
    sign.words ++ (rename environmentName name).words ++ insertedBehind (.lookup type)
  | _, t => t.words

/-- The words of the attributes of a declaration of variables that the rule for it leaves. -/
def wrapperWords (unpublished : Bool) : Option (List Word) → List Tree → List Word
  | _, [] => []
  | type, t :: rest =>
    if isNamed environmentObjectName t then lookupWords type t ++ wrapperWords unpublished none rest
    else (if isKept unpublished t then t.words else []) ++ wrapperWords unpublished type rest

/-- The words of a migrated inheritance clause without the protocol. -/
def clauseWords : List Tree → List Word
  | [] => []
  | colon :: entries =>
    match prune entries with
    | .dangling => colon.words ++ entries.flatMap words
    | .emptied _ => []
    | .kept left => colon.words ++ left.flatMap words

/-- The words of arguments with the labels of wrapped values renamed. -/
def argumentWords (args : List Tree) : List Word :=
  args.flatMap fun arg => (if isWrappedValue arg then rename initialValueLabel arg else arg).words

/-- The words that the rules above a tree leave of it once it is migrated. -/
def Role.left : Role → Tree → List Word
  | free, t => t.words
  | gone, _ => []
  | renamed text, .leaf token => [(token.kind, text)]
  | renamed text, t => (rename text t).words
  | converted, t => if t.is .memberBlock then t.children.flatMap fun t => (unpublish t).words else (unpublish t).words
  | pruned, t => clauseWords t.children
  | bare, t => (stripComma [] t).words
  | wrappers unpublished type, t => wrapperWords unpublished type t.children
  | lookup type, t => lookupWords (some type) t
  | untyped, t => (dropTypeClause t).words
  | relabelled, t => argumentWords t.children

@[simp] theorem Role.left_free : Role.free.left t = t.words := rfl

@[simp] theorem Role.left_gone : Role.gone.left t = [] := rfl

@[simp] theorem Role.left_renamed_node {text : Text} :
    (Role.renamed text).left (.node label children) = (rename text (.node label children)).words := rfl

/-- The token has a text. -/
def Named (t : Tree) : Prop := ∃ token, t = .leaf token ∧ token.text.isEmpty = false

/-- The tree is one that the rules give the role to. -/
def Role.Fits : Role → Tree → Prop
  | free, _ => True
  | gone, _ => True
  | renamed text, t =>
    text.isEmpty = false ∧ (Named t ∨ ∃ label name rest, t = .node label (name :: rest) ∧ label ∉ ruled ∧ Named name)
  | converted, t => t.is .memberBlock = true ∨ t.is .variableDecl = true
  | pruned, t =>
    t.is .inheritance = true ∧ (t.children.tail.any namesProtocol →
      (t.children.tail.all fun entry => namesProtocol entry && entry.endsInComma) = false)
  | bare, t => t.is .inheritedType = true ∧ t.endsInComma = true
  | wrappers _ type, t =>
    t.is .attributes = true ∧
      (type.isSome → ∀ found ∈ t.children.find? (isNamed environmentObjectName), found.children.length = 2)
  | lookup _, t => t.is .attr = true ∧ isNamed environmentObjectName t = true ∧ t.children.length = 2
  | untyped, t => isPlainlyTyped t = true
  | relabelled, t => t.is .arguments = true

/-- In each of its roles the tree, once migrated, has the words that its edits leave. -/
def Follows (names : List Text) (t : Tree) : Prop :=
  ∀ role : Role, role.Fits t → after (edits names role t) = role.left (migrate names t)

/-- The words that the rules above several trees leave of them. -/
def leftOf : List Role → List Tree → List Word
  | _, [] => []
  | roles, t :: rest => (roles.headD .free).left t ++ leftOf roles.tail rest

/-- The trees are ones that the rules give the roles to. -/
def FitAll : List Role → List Tree → Prop
  | _, [] => True
  | roles, t :: rest => (roles.headD .free).Fits t ∧ FitAll roles.tail rest

theorem after_editsOf {trees : List Tree} {roles : List Role} (htrees : ∀ t ∈ trees, Follows names t)
    (hfit : FitAll roles trees) : after (editsOf names roles trees) = leftOf roles (trees.map (migrate names)) := by
  induction trees generalizing roles with
  | nil => rfl
  | cons t rest ih =>
      have hfirst := htrees t (by simp) _ hfit.1
      have hrest := ih (fun s hs => htrees s (by simp [hs])) hfit.2
      rw [editsOf, after_append, hfirst, hrest]
      rfl

@[simp] theorem leftOf_nil (trees : List Tree) : leftOf [] trees = trees.flatMap words := by
  induction trees with
  | nil => rfl
  | cons t rest ih => rw [leftOf, List.tail_nil, ih, List.flatMap_cons, List.headD_nil, Role.left]

@[simp] theorem leftOf_cons (role : Role) (roles : List Role) (t : Tree) (rest : List Tree) :
    leftOf (role :: roles) (t :: rest) = role.left t ++ leftOf roles rest := rfl

@[simp] theorem fitAll_nil (trees : List Tree) : FitAll [] trees := by
  induction trees with
  | nil => trivial
  | cons t rest ih => exact ⟨trivial, ih⟩

@[simp] theorem fitAll_cons (role : Role) (roles : List Role) (t : Tree) (rest : List Tree) :
    FitAll (role :: roles) (t :: rest) ↔ role.Fits t ∧ FitAll roles rest := Iff.rfl

theorem fitAll_map {role : Tree → Role} (hfit : ∀ t ∈ children, (role t).Fits t) :
    FitAll (children.map role) children := by
  induction children with
  | nil => trivial
  | cons t rest ih => exact ⟨hfit t (by simp), ih fun s hs => hfit s (by simp [hs])⟩

theorem leftOf_map (role : Tree → Role) (change : Tree → Tree) (trees : List Tree) :
    leftOf (trees.map role) (trees.map change) = trees.flatMap fun t => (role t).left (change t) := by
  induction trees with
  | nil => rfl
  | cons t rest ih => rw [List.map_cons, List.map_cons, leftOf_cons, ih, List.flatMap_cons]

/-- A node has the words that the roles of its children leave, and those inserted around it. -/
theorem after_edits_node (label : Label) (role : Role) (hin : ∀ t ∈ children, Follows names t) {roles : List Role}
    (hfit : FitAll roles children) (hbelow : role.below names (typeWordsOf names children) label children = roles) :
    after (edits names role (.node label children)) =
      insertedBefore names role label children ++ leftOf roles (children.map (migrate names)) ++ insertedBehind role := by
  rw [edits, after_append, after_append, after_insert, after_insert, hbelow, after_editsOf hin hfit]

@[simp] theorem insertedBefore_of_ne_free (role : Role) (hrole : role ≠ .free) :
    insertedBefore names role label children = [] := by
  unfold insertedBefore
  split
  · exact absurd rfl hrole
  · rfl

@[simp] theorem insertedBefore_of_ne_typeDecl (role : Role) (hlabel : label ≠ .typeDecl) :
    insertedBefore names role label children = [] := by
  unfold insertedBefore
  split
  · exact absurd rfl hlabel
  · rfl

/-! ### Nodes that no rule is for -/

theorem ownRoles_of_not_mem (unpublished : Bool) (type : List Word) (hlabel : label ∉ ruled) :
    ownRoles names unpublished type label children = [] := by
  unfold ownRoles
  split <;> first | rfl | exact absurd hlabel (by decide)

theorem after_edits_free_of_not_mem (hlabel : label ∉ ruled) (hin : ∀ t ∈ children, Follows names t) :
    after (edits names .free (.node label children)) = (migrate names (.node label children)).words := by
  have hne : label ≠ .typeDecl := by
    rintro rfl
    exact hlabel (by decide)
  rw [after_edits_node label .free hin (fitAll_nil _) (ownRoles_of_not_mem _ _ hlabel), migrate_node_of_not_mem label hlabel]
  simp [insertedBehind, hne]

/-- A new text for the first token of a node goes to that token. -/
theorem after_edits_renamed {text : Text} (hin : ∀ t ∈ children, Follows names t)
    (hfits : (Role.renamed text).Fits (.node label children)) :
    after (edits names (.renamed text) (.node label children)) =
      (Role.renamed text).left (migrate names (.node label children)) := by
  obtain ⟨htext, ⟨token, hleaf, -⟩ | ⟨_, _, rest, hnode, hlabel, token, rfl, htoken⟩⟩ := hfits
  · exact absurd hleaf (by simp)
  · obtain ⟨rfl, rfl⟩ := node.inj hnode
    have hfit : FitAll [.renamed text] (.leaf token :: rest) := ⟨⟨htext, .inl ⟨token, rfl, htoken⟩⟩, fitAll_nil rest⟩
    rw [after_edits_node label (.renamed text) hin hfit rfl, migrate_node_of_not_mem label hlabel]
    simp [insertedBehind, Role.left, rename, -List.isEmpty_eq_false_iff, htext]

/-- The label of a wrapped value is its first token. -/
theorem fits_of_isWrappedValue (hwrapped : isWrappedValue t = true) : (Role.renamed initialValueLabel).Fits t := by
  simp only [isWrappedValue, Bool.and_eq_true] at hwrapped
  obtain ⟨parts, rfl⟩ := exists_of_is hwrapped.1
  simp only [Tree.children] at hwrapped
  split at hwrapped
  next token _ _ =>
    have htext : token.text = wrappedValueLabel := by simpa using hwrapped.2
    exact ⟨by decide, .inr ⟨.argument, _, _, rfl, by decide, token, rfl, by rw [htext]; decide⟩⟩
  next => simp at hwrapped

theorem after_edits_relabelled (hin : ∀ t ∈ children, Follows names t) :
    after (edits names .relabelled (.node .arguments children)) =
      Role.relabelled.left (migrate names (.node .arguments children)) := by
  have hfit : FitAll (argumentRoles children) children := by
    refine fitAll_map fun t _ => ?_
    split
    next hwrapped => exact fits_of_isWrappedValue hwrapped
    next => trivial
  rw [after_edits_node .arguments .relabelled hin hfit rfl, argumentRoles, leftOf_map,
    migrate_node_of_not_mem .arguments (by decide)]
  simp only [insertedBehind, List.append_nil, List.nil_append,
    insertedBefore_of_ne_typeDecl _ (show Label.arguments ≠ .typeDecl by decide)]
  change _ = argumentWords (children.map (migrate names))
  rw [argumentWords, List.flatMap_map]
  congr 1
  funext t
  rw [isWrappedValue_migrate]
  cases hwrapped : isWrappedValue t with
  | false => rfl
  | true =>
      obtain ⟨parts, rfl⟩ := exists_of_is (Bool.and_eq_true_iff.mp hwrapped).1
      rw [migrate_node_of_not_mem .argument (by decide)]
      rfl

end SwiftObservation.Migration
