import SwiftObservation.Migration.Environment
import SwiftObservation.Migration.Inheritance

/-!
# The migration of a tree

Every node is migrated after its children, by the rule for its label; nodes that no rule knows stay as they are.
A class is converted when it conforms to the protocol by itself or when its name is among the given ones.
-/

namespace SwiftObservation.Migration

/-- The member without the wrapper of published properties. -/
def unpublish (member : Tree) : Tree :=
  if member.is .variableDecl then dropAttributes (isNamed publishedName) member else member

/-- The children of a class with its body's members unpublished. -/
def unpublishBody (children : List Tree) : List Tree :=
  match children.getLast? with
  | some (.node label members) => children.dropLast ++ [.node label (members.map unpublish)]
  | _ => children

/-- The attribute that makes a class observable, in front of a token that begins a line. -/
def observableAttribute (head : Token) (lineEnding : Text) : Tree :=
  .node .attr [
    .leaf { kind := .atSign, text := ['@'], leading := head.leading, position := head.position },
    .node .typeIdentifier [.leaf { kind := .identifier, text := observableName, trailing := lineEnding }]]

/-- The children of a class with the attribute that makes it observable on a line of its own in front. -/
def prependObservable (children : List Tree) : List Tree :=
  match Tree.firstOf? children with
  | none => children
  | some head =>
    let indented := (Tree.mapFirstOf? ({ · with leading := Trivia.indentation head.leading }) children).getD children
    match indented with
    | .node .attributes found :: rest =>
      .node .attributes (observableAttribute head (Trivia.lineEnding (Token.textOf (Tree.leavesOf indented))) :: found) ::
        rest
    | _ => children

/-- The children of a class that is converted. -/
def convertClass (attributes : Tree) (children : List Tree) : List Tree :=
  let unpublished := unpublishBody children
  if attributes.children.any (isNamed observableName) then unpublished else prependObservable unpublished

def migrateType (names : List Text) (decl : Tree) : Tree :=
  match decl with
  | .node label (attributes :: modifiers :: .leaf keyword :: name :: rest) =>
    if keyword.kind == .classWord then
      let children := attributes :: modifiers :: .leaf keyword :: name :: rest
      match leaveProtocol children with
      | .dangling => decl
      | .done left => .node label (convertClass attributes left)
      | .absent =>
        if name.token?.any (names.contains ·.text) then .node label (convertClass attributes children) else decl
    else decl
  | _ => decl

/-- The argument has the label of a wrapped value. -/
def isWrappedValue (t : Tree) : Bool :=
  t.is .argument &&
    match t.children with
    | .leaf label :: _ :: _ => label.text == wrappedValueLabel
    | _ => false

/-- A call after its own migration: the wrapper of an owned object, given a wrapped value, becomes its successor, given
an initial value. -/
def migrateCall (t : Tree) : Tree :=
  match t with
  | .node label (.leaf callee :: .node .arguments args :: rest) =>
    if callee.kind == .identifier && callee.text == stateObjectName && args.any isWrappedValue then
      .node label (.leaf { callee with text := stateName } ::
        .node .arguments (args.map fun arg => if isWrappedValue arg then rename initialValueLabel arg else arg) :: rest)
    else t
  | _ => t

def migrateMember (t : Tree) : Tree :=
  match t with
  | .node label [receiver, dot, .leaf name] =>
    if name.text == environmentObjectModifier then
      .node label [receiver, dot, .leaf { name with text := environmentModifier }]
    else t
  | _ => t

/-- A node after its own migration, its children having been migrated before. -/
def migrateNode (names : List Text) (label : Label) (children : List Tree) : Tree :=
  match label with
  | .typeDecl => migrateType names (.node label children)
  | .variableDecl => migrateVariables (.node label children)
  | .attr => migrateAttribute (.node label children)
  | .call => migrateCall (.node label children)
  | .memberAccess => migrateMember (.node label children)
  | _ => .node label children

mutual

def migrate (names : List Text) : Tree → Tree
  | .leaf token => .leaf token
  | .node label children => migrateNode names label (migrateAll names children)
  | .absent => .absent

def migrateAll (names : List Text) : List Tree → List Tree
  | [] => []
  | t :: rest => migrate names t :: migrateAll names rest

end

/-- A tree after migration, if it is at most `limit` nodes deep. -/
def migrate? (limit : Nat) (names : List Text) (t : Tree) : Option Tree :=
  if t.depth ≤ limit then some (migrate names t) else none

end SwiftObservation.Migration
