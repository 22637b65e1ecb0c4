import SwiftObservation.Migration.Rules
import SwiftObservation.Proofs.Grammar.Shape.Basic
import SwiftObservation.Proofs.Tree.Words

/-!
# The edits of a migration

What a migration does to the words of a source, said from the top of the tree downwards and of the tree as it was
read.

Each tree has a role, which is what the nodes above it decide about its words. `Role.below` hands roles down: its cases
are the rules of the migration, each with the condition under which it applies. `edits` is the list of all words in
source order, each kept, renamed or deleted, with the inserted words in their places.
-/

namespace SwiftObservation.Migration

/-- What happens to a word, or a new word. -/
inductive Edit where
  | keep (word : Word)
  | rename (word : Word) (text : Text)
  | delete (word : Word)
  | insert (word : Word)
deriving DecidableEq, Repr

namespace Edit

/-- The word that an edit is about, as it was. -/
def before? : Edit → Option Word
  | keep word | rename word _ | delete word => some word
  | insert _ => none

/-- The word that an edit leaves. -/
def after? : Edit → Option Word
  | keep word | insert word => some word
  | rename word text => some (word.1, text)
  | delete _ => none

end Edit

/-- The words before the edits. -/
def before (edits : List Edit) : List Word := edits.filterMap Edit.before?

/-- The words after the edits. -/
def after (edits : List Edit) : List Word := edits.filterMap Edit.after?

/-- What the nodes above a tree decide about its words. -/
inductive Role where
  /-- Nothing. -/
  | free
  /-- All words go. -/
  | gone
  /-- The first word gets the text. -/
  | renamed (text : Text)
  /-- The body of a class that is converted, or a declaration of variables in it. -/
  | converted
  /-- The inheritance clause of a class that is converted. -/
  | pruned
  /-- An entry of such a clause that loses its comma. -/
  | bare
  /-- The attributes of a declaration of variables: whether the published wrapper goes, and the words of the type that
  moves into the wrapper of an object from the environment, if one does. -/
  | wrappers (unpublished : Bool) (type : Option (List Word))
  /-- The wrapper that a type with the given words moves into. -/
  | lookup (type : List Word)
  /-- The binding that such a type moves out of. -/
  | untyped
  /-- The arguments of a wrapper given a wrapped value. -/
  | relabelled
deriving DecidableEq, Repr

/-- The role for the first tree of a class; the trees in front of it are free. -/
def markFirst (p : Tree → Bool) (role : Role) : List Tree → List Role
  | [] => []
  | t :: rest => if p t then [role] else .free :: markFirst p role rest

/-! ### Classes -/

/-- The entry of an inheritance clause is the protocol by its plain name. -/
def namesProtocol (entry : Tree) : Bool :=
  match entry.children with
  | .node .typeIdentifier [.leaf name] :: _ => name.text == observableProtocol
  | _ => false

/-- The entries of the inheritance clause among the children of a type declaration. -/
def inheritedEntries (children : List Tree) : List Tree :=
  ((children.find? (·.is .inheritance)).map (·.children.tail)).getD []

/-- The type declaration with the given children is a class that is converted: it names the protocol, and not only in
entries that end in a comma, or it does not and has one of the names. -/
def isConverted (names : List Text) (children : List Tree) : Bool :=
  match children with
  | _ :: _ :: .leaf keyword :: name :: _ =>
    let entries := inheritedEntries children
    keyword.kind == .classWord &&
      if entries.any namesProtocol then !entries.all fun entry => namesProtocol entry && entry.endsInComma
      else name.token?.any (names.contains ·.text)
  | _ => false

/-- A class that is converted leaves the protocol and unpublishes its variables. -/
def classRoles (names : List Text) (children : List Tree) : List Role :=
  if isConverted names children then
    children.map fun t => if t.is .inheritance then .pruned else if t.is .memberBlock then .converted else .free
  else []

/-- The body of a class that is converted unpublishes its own variables only. -/
def bodyRoles (members : List Tree) : List Role :=
  members.map fun t => if t.is .variableDecl then .converted else .free

/-- The last entry names the protocol and has no comma, so another token goes in its place. -/
def lacksComma (entries : List Tree) : Bool :=
  entries.getLast?.any fun entry => namesProtocol entry && !entry.endsInComma

/-- Entries that name the protocol go. If the last one of them lacks a comma, the last entry that stays loses its
own. -/
def entryRoles (uncommaed : Bool) : List Tree → List Role
  | [] => []
  | entry :: rest =>
    (if namesProtocol entry then .gone else if uncommaed && rest.all namesProtocol then .bare else .free) ::
      entryRoles uncommaed rest

/-- The colon of an inheritance clause goes with the last entry if no entry stays. -/
def clauseRoles : List Tree → List Role
  | [] => []
  | _ :: entries =>
    (if lacksComma entries && entries.all namesProtocol then .gone else .free) ::
      entryRoles (lacksComma entries) entries

/-! ### Variables and attributes -/

/-- A type moves out of one of the bindings into the first wrapper of an object from the environment, which has no
arguments. -/
def movesType (found bindings : List Tree) : Bool :=
  (found.find? (isNamed environmentObjectName)).any (·.children.length == 2) && bindings.any isPlainlyTyped

/-- The words of the type that would move are given. -/
def variableRoles (unpublished : Bool) (type : List Word) : List Tree → List Role
  | .node .attributes found :: bindings =>
    if movesType found bindings then .wrappers unpublished (some type) :: markFirst isPlainlyTyped .untyped bindings
    else [.wrappers unpublished none]
  | _ => []

/-- The first wrapper of an object from the environment takes the type that moves, if one does, and the published
wrapper goes from a class that is converted. -/
def wrapperRoles (unpublished : Bool) : Option (List Word) → List Tree → List Role
  | _, [] => []
  | type, t :: rest =>
    if isNamed environmentObjectName t then ((type.map Role.lookup).getD .free) :: wrapperRoles unpublished none rest
    else (if unpublished && isNamed publishedName t then .gone else .free) :: wrapperRoles unpublished type rest

/-- The wrapper of a given object goes, that of an owned object is renamed. -/
def attributeRoles (children : List Tree) : List Role :=
  if isNamed observedObjectName (.node .attr children) then children.map fun _ => .gone
  else if isNamed stateObjectName (.node .attr children) then [.free, .renamed stateName]
  else []

/-! ### Expressions -/

/-- The wrapper of an owned object, made from a wrapped value, is renamed together with the labels of such values. -/
def callRoles : List Tree → List Role
  | .leaf callee :: .node .arguments args :: _ =>
    if callee.kind == .identifier && callee.text == stateObjectName && args.any isWrappedValue then
      [.renamed stateName, .relabelled]
    else []
  | _ => []

/-- The label of a wrapped value is renamed. -/
def argumentRoles (args : List Tree) : List Role :=
  args.map fun t => if isWrappedValue t then .renamed initialValueLabel else .free

/-- The modifier that puts an object into the environment is renamed. -/
def memberRoles : List Tree → List Role
  | [_, _, .leaf name] =>
    if name.text == environmentObjectModifier then [.free, .free, .renamed environmentModifier] else []
  | _ => []

/-! ### Handing roles down -/

/-- The roles of the children of a node, of which only this much was decided: whether it is a declaration of variables
in the body of a class that is converted. -/
def ownRoles (names : List Text) (unpublished : Bool) (type : List Word) (label : Label) (children : List Tree) :
    List Role :=
  match label with
  | .typeDecl => classRoles names children
  | .variableDecl => variableRoles unpublished type children
  | .attr => attributeRoles children
  | .call => callRoles children
  | .memberAccess => memberRoles children
  | _ => []

/-- The roles of the children of a node. The words of the type that moves, if the node is a declaration of variables
and one does, are given. -/
def Role.below (names : List Text) (type : List Word) (role : Role) (label : Label) (children : List Tree) :
    List Role :=
  match role with
  | free => ownRoles names false type label children
  | gone => children.map fun _ => gone
  | renamed text => [renamed text]
  | converted => if label = .memberBlock then bodyRoles children else ownRoles names true type label children
  | pruned => clauseRoles children
  | bare => markFirst (·.isLeaf .comma) gone children
  | wrappers unpublished type => wrapperRoles unpublished type children
  | lookup _ => [free, renamed environmentName]
  | untyped => markFirst (·.is .typeClause) gone children
  | relabelled => argumentRoles children

/-- The edit of a token. -/
def Role.ofToken (role : Role) (t : Token) : List Edit :=
  if t.text.isEmpty then []
  else
    match role with
    | gone => [.delete (t.kind, t.text)]
    | renamed text => [.rename (t.kind, t.text) text]
    | _ => [.keep (t.kind, t.text)]

/-- The words in front of a node: a class that is converted becomes observable, if it is not. -/
def insertedBefore (names : List Text) : Role → Label → List Tree → List Word
  | .free, .typeDecl, attributes :: rest =>
    if isConverted names (attributes :: rest) && !attributes.children.any (isNamed observableName) then
      [(.atSign, ['@']), (.identifier, observableName)]
    else []
  | _, _, _ => []

/-- The words behind a node: the argument that looks a type up. -/
def insertedBehind : Role → List Word
  | .lookup type =>
    (.leftParen, ['(']) :: type ++ [(.dot, ['.']), (.identifier, "self".toList), (.rightParen, [')'])]
  | _ => []

/-- The way from a declaration of variables down to the first plain type leads through the tree. -/
def leadsToType (t : Tree) : Bool := isPlainlyTyped t || t.is .typeClause || t.is .typeIdentifier

mutual

/-- The edits in a tree with the given role. -/
def edits (names : List Text) (role : Role) : Tree → List Edit
  | .leaf token => role.ofToken token
  | .node label children =>
    (insertedBefore names role label children).map .insert ++
      editsOf names (role.below names (typeWordsOf names children) label children) children ++
      (insertedBehind role).map .insert
  | .absent => []

/-- The edits in several trees. A tree without a role of its own is free. -/
def editsOf (names : List Text) : List Role → List Tree → List Edit
  | _, [] => []
  | roles, t :: rest => edits names (roles.headD .free) t ++ editsOf names roles.tail rest

/-- The words left of a plain type, found in a binding or in its type clause. -/
def typeWords (names : List Text) : Tree → List Word
  | .node .typeIdentifier children => after (editsOf names [] children)
  | .node _ children => typeWordsOf names children
  | _ => []

/-- The words left of the plain type in the first of several trees that has one. -/
def typeWordsOf (names : List Text) : List Tree → List Word
  | [] => []
  | t :: rest =>
    if leadsToType t then typeWords names t else typeWordsOf names rest

end

end SwiftObservation.Migration
