import SwiftObservation.Diagnostic
import SwiftObservation.Migration.Attribute

/-!
# Evidence for observable classes

A class may become observable without naming the protocol: that a structure holds it in one of the wrappers is
evidence enough. Every member of a structure with such a wrapper gives evidence for the type of its first binding
that names one. A type that is a generic parameter of the structure is no class, and only a warning comes of it.
-/

namespace SwiftObservation.Migration

/-- What a member of a structure shows. -/
inductive Evidence where
  /-- The class with this name is observable. -/
  | observable (name : Text)
  /-- The candidate is a generic parameter of the structure with this name. -/
  | ambiguous (candidate : Token) (declaration : Text)

/-- The member has an attribute with the plain name of a wrapper. -/
def hasWrapper (member : Tree) : Bool :=
  ((member.child? .attributes).map (·.childrenWith .attr)).getD [] |>.any fun t =>
    (attributeName? t).any wrapperNames.contains

/-- The name of a generic parameter: the last of the words it begins with. -/
def parameterName? (param : Tree) : Option Text :=
  let leading := param.children.takeWhile (·.token?.any (·.isWord))
  (leading.getLast?.bind (·.token?)).map (·.text)

def parameterNames (decl : Tree) : List Text :=
  (((decl.child? .genericParams).map (·.childrenWith .genericParam)).getD []).filterMap parameterName?

/-- The type token in the type clause of a binding, if its type is a plain name. -/
def clauseCandidate? (binding : Tree) : Option Token := do
  let clause ← binding.child? .typeClause
  let bound ← clause.children[1]?
  if bound.is .typeIdentifier then bound.first? else none

/-- The callee of the initial value of a binding, if that is a single call of an identifier. -/
def valueCandidate? (binding : Tree) : Option Token := do
  let value ← binding.child? .initialValue
  let expr ← value.children[1]?
  match expr.children with
  | [.node .call (.leaf callee :: _)] => if callee.kind == .identifier then some callee else none
  | _ => none

/-- The type token of the first binding that names one. -/
def candidate? (member : Tree) : Option Token :=
  (member.childrenWith .binding).findSome? fun binding => (clauseCandidate? binding).or (valueCandidate? binding)

/-- What a member shows, in a structure with the given name and generic parameters. -/
def memberEvidence? (declaration : Text) (params : List Text) (member : Tree) : Option Evidence :=
  if hasWrapper member then
    (candidate? member).map fun candidate =>
      if params.contains candidate.text then .ambiguous candidate declaration else .observable candidate.text
  else none

/-- What the members of a structure show, in order. Other nodes show nothing. -/
def nodeEvidence (t : Tree) : List Evidence :=
  match t with
  | .node .typeDecl (_ :: _ :: .leaf keyword :: .leaf name :: _) =>
    if keyword.kind == .structWord then
      ((t.child? .memberBlock).map (·.childrenWith .variableDecl)).getD [] |>.filterMap
        (memberEvidence? name.text (parameterNames t))
    else []
  | _ => []

mutual

/-- All evidence in a tree, that of a node before that of its children. -/
def evidence : Tree → List Evidence
  | .leaf _ => []
  | .node label children => nodeEvidence (.node label children) ++ evidenceOf children
  | .absent => []

def evidenceOf : List Tree → List Evidence
  | [] => []
  | t :: rest => evidence t ++ evidenceOf rest

end

def Evidence.name? : Evidence → Option Text
  | observable name => some name
  | ambiguous .. => none

/-- The warning about a candidate that is a generic parameter. -/
def Evidence.warning? (path : Option Text) : Evidence → Option Diagnostic
  | observable _ => none
  | ambiguous candidate declaration =>
    some (Diagnostic.placed {
      severity := .warning
      code := .ambiguousGeneric
      message := "ambiguous generic parameter collision for candidate name '".toList ++ candidate.text ++
        "' in declaration '".toList ++ declaration ++ "'".toList
      path } (some candidate.position))

/-- The names that a tree shows to be observable, each once, in order. -/
def inferredNames (t : Tree) : List Text := ((evidence t).filterMap (·.name?)).eraseDups.mergeSort Text.le

/-- The warnings that the evidence in a tree gives rise to, in order. -/
def warnings (path : Option Text) (t : Tree) : List Diagnostic := (evidence t).filterMap (·.warning? path)

end SwiftObservation.Migration
