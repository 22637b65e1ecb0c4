import SwiftObservation.Tree.Basic

/-!
# The shape of a tree

The migration reaches into a node by the places of its children: the keyword of a type declaration is its third child,
the type in a type clause its second. `Label.Admits` says which children the grammar gives to the nodes with each label,
as far as anything depends on it, and a tree is shaped if all of its nodes have such children.
-/

namespace SwiftObservation

namespace Tree

/-- A node with the given label, if there are children for it. -/
def optional (label : Label) (children : Option (List Tree)) : List Tree := (children.map (node label)).toList

/-- A token, if there is one. -/
def optionalLeaf (token : Option Token) : List Tree := (token.map leaf).toList

/-- The tree is a type identifier or a member type. -/
def isTypeName (t : Tree) : Bool := t.is .typeIdentifier || t.is .memberType

/-- The last child is a comma. -/
def endsInComma (t : Tree) : Bool := t.children.getLast?.any (·.isLeaf .comma)

end Tree

open SwiftObservation.Tree

/-- The children that the grammar gives to a node with the given label. -/
def Label.Admits : Label → List Tree → Prop
  | .typeDecl, children =>
    ∃ attributes modifiers keyword name params clause requirements body,
      children = .node .attributes attributes :: .node .modifiers modifiers :: .leaf keyword :: name ::
        (optional .genericParams params ++ optional .inheritance clause ++ optional .whereClause requirements ++
          [.node .memberBlock body]) ∧
      (keyword.kind ≠ .extensionWord → ∃ token, name = .leaf token)
  | .variableDecl, children =>
    ∃ attributes modifiers keyword bindings,
      children = .node .attributes attributes :: .node .modifiers modifiers :: .leaf keyword :: bindings ∧
      keyword.kind.declaresVariable = true ∧ ∀ t ∈ bindings, t.is .binding = true
  | .attributes, children => ∀ t ∈ children, t.is .attr = true
  | .attr, children =>
    ∃ sign name args, children = .leaf sign :: name :: optional .arguments args ∧ sign.kind = .atSign ∧
      name.isTypeName = true
  | .modifiers, children => ∀ t ∈ children, t.is .modifier = true
  | .modifier, children =>
    ∃ tokens : List Token, children = tokens.map .leaf ∧ (tokens.length = 1 ∨ tokens.length = 4)
  | .inheritance, children =>
    ∃ colon entries, children = .leaf colon :: entries ∧ colon.kind = .colon ∧
      (∀ t ∈ entries, t.is .inheritedType = true) ∧ ∀ t ∈ entries.dropLast, t.endsInComma = true
  | .inheritedType, children =>
    ∃ label parts comma, children = .node label parts :: optionalLeaf comma ∧ ∀ t ∈ comma, t.kind = .comma
  | .binding, children =>
    ∃ pattern type value accessors comma,
      children = pattern :: (optional .typeClause type ++ optional .initialValue value ++
        optional .accessorBlock accessors ++ optionalLeaf comma) ∧
      (pattern.isLeaf .identifier = true ∨ pattern.is .group = true) ∧ ∀ t ∈ comma, t.kind = .comma
  | .typeClause, children => ∃ colon bound, children = .leaf colon :: Option.toList bound ∧ colon.kind = .colon
  | .initialValue, children => ∃ sign value, children = [.leaf sign, .node .expr value] ∧ sign.kind = .assign
  | .typeIdentifier, children =>
    ∃ name args, children = .leaf name :: optional .genericArgs args ∧ name.isWord = true
  | .genericArgs, children => ∃ opener rest, children = .leaf opener :: rest ∧ opener.isOperatorFrom '<' = true
  | .memberAccess, children => ∃ receiver dot name, children = [receiver, .leaf dot, .leaf name] ∧ dot.kind = .dot
  | .argument, children => ∃ t ∈ children, t.is .expr = true
  | .call, children => children ≠ []
  | _, _ => True

namespace Tree

/-- Every node of the tree has the children that its label calls for. -/
inductive Shaped : Tree → Prop where
  | leaf (token : Token) : Shaped (.leaf token)
  | node {label : Label} {children : List Tree} (admits : label.Admits children)
      (inner : ∀ t ∈ children, Shaped t) : Shaped (.node label children)
  | absent : Shaped .absent

theorem Shaped.admits {label : Label} {children : List Tree} (ht : Shaped (.node label children)) :
    label.Admits children := by
  cases ht with
  | node hadmits => exact hadmits

theorem Shaped.of_mem {label : Label} {children : List Tree} (ht : Shaped (.node label children)) {t : Tree}
    (hmem : t ∈ children) : t.Shaped := by
  cases ht with
  | node _ hinner => exact hinner t hmem

theorem Shaped.of_mem_children {s t : Tree} (ht : t.Shaped) (hmem : s ∈ t.children) : s.Shaped := by
  cases ht with
  | leaf token => simp [Tree.children] at hmem
  | node _ hinner => exact hinner s hmem
  | absent => simp [Tree.children] at hmem

/-- All of the trees are shaped. -/
def ShapedAll (trees : List Tree) : Prop := ∀ t ∈ trees, t.Shaped

@[simp] theorem shapedAll_nil : ShapedAll [] := by simp [ShapedAll]

@[simp] theorem shapedAll_cons {t : Tree} {rest : List Tree} : ShapedAll (t :: rest) ↔ t.Shaped ∧ ShapedAll rest :=
  List.forall_mem_cons

@[simp] theorem shapedAll_append {front back : List Tree} :
    ShapedAll (front ++ back) ↔ ShapedAll front ∧ ShapedAll back := List.forall_mem_append

@[simp] theorem shapedAll_reverse {trees : List Tree} : ShapedAll trees.reverse ↔ ShapedAll trees := by
  simp [ShapedAll]

@[simp] theorem shaped_leaf {token : Token} : Shaped (.leaf token) := .leaf token

theorem shapedAll_map_leaf (tokens : List Token) : ShapedAll (tokens.map .leaf) := by
  intro t ht
  obtain ⟨token, -, rfl⟩ := List.mem_map.mp ht
  exact .leaf token

theorem exists_of_is {t : Tree} {label : Label} (his : t.is label = true) : ∃ children, t = .node label children := by
  cases t with
  | leaf token => simp [is, label?] at his
  | absent => simp [is, label?] at his
  | node label' children =>
      have hlabel : label' = label := by simpa [is, label?] using his
      exact ⟨children, by rw [hlabel]⟩

@[simp] theorem is_node {label label' : Label} {children : List Tree} :
    (node label' children).is label = (label' == label) := rfl

@[simp] theorem is_leaf {label : Label} {token : Token} : (leaf token).is label = false := rfl

end Tree

end SwiftObservation
