import SwiftObservation.Migration.Attribute

/-!
# Objects from the environment

The wrapper of an object from the environment looks the object up by its type, so the type of the first binding that
has a plain one moves from the binding into the argument of the wrapper's successor.
-/

namespace SwiftObservation.Migration

/-- The plain type in the type clause of a binding. -/
def plainType? (binding : Tree) : Option Tree := do
  let clause ← binding.child? .typeClause
  match clause.children with
  | _ :: bound :: _ => if bound.is .typeIdentifier then some bound else none
  | _ => none

/-- The binding has a type clause with a plain type. -/
def isPlainlyTyped (t : Tree) : Bool := t.is .binding && (plainType? t).isSome

/-- The binding without its type clause. The trivia behind the type stays, behind the pattern. -/
def dropTypeClause (binding : Tree) : Tree :=
  match binding, binding.child? .typeClause with
  | .node label (pattern :: rest), some clause =>
    let trailing := (clause.last?.map (·.trailing)).getD []
    .node label (pattern.mapLast ({ · with trailing }) :: rest.eraseP (·.is .typeClause))
  | t, _ => t

/-- A punctuation mark that no source holds. -/
def mark (kind : TokenKind) (text trailing : Text) : Tree := .leaf { kind, text, trailing }

/-- The type as it is named in an argument, without the trivia around it. -/
def typeReference (bound : Tree) : Tree := (bound.mapFirst ({ · with leading := [] })).mapLast ({ · with trailing := [] })

/-- The argument list that looks a type up, followed by the given trivia. -/
def lookupArguments (bound : Tree) (trailing : Text) : Tree :=
  .node .arguments [
    mark .leftParen ['('] [],
    .node .argument [.node .expr [
      .node .memberAccess [typeReference bound, mark .dot ['.'] [], mark .identifier "self".toList []]]],
    mark .rightParen [')'] trailing]

/-- The wrapper's successor for an object of the given type. -/
def environmentAttribute (bound : Tree) (t : Tree) : Tree :=
  match t.children with
  | [sign, name] =>
    let trailing := (name.last?.map (·.trailing)).getD []
    .node .attr [sign, (rename environmentName name).mapLast ({ · with trailing := [] }),
      lookupArguments bound trailing]
  | _ => t

/-- The list with the first element of a class changed. -/
def updateFirst (p : Tree → Bool) (f : Tree → Tree) : List Tree → List Tree
  | [] => []
  | t :: rest => if p t then f t :: rest else t :: updateFirst p f rest

/-- A declaration of variables whose first wrapper of an object from the environment has no arguments, with its
successor in place. -/
def migrateEnvironment (decl : Tree) : Tree :=
  match decl with
  | .node label (.node .attributes found :: rest) =>
    match found.find? (isNamed environmentObjectName), (rest.find? isPlainlyTyped).bind plainType? with
    | some target, some bound =>
      if target.children.length == 2 then
        .node label (
          .node .attributes (updateFirst (isNamed environmentObjectName) (environmentAttribute bound) found) ::
            updateFirst isPlainlyTyped dropTypeClause rest)
      else decl
    | _, _ => decl
  | _ => decl

/-- A declaration of variables after its own migration. Its attributes have been migrated before. -/
def migrateVariables (decl : Tree) : Tree := dropAttributes isErased (migrateEnvironment decl)

end SwiftObservation.Migration
