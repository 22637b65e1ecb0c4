import SwiftObservation.Grammar.Expression

/-!
# Declarations

A declaration begins with attributes and modifiers. Those of a type or of variables are read in full; of any other
declaration only this head is, and what follows is read as items.
-/

namespace SwiftObservation.Grammar

def attributes (g : Nonterminals) : Rule Tree := do
  let found ← gather g.fuel do
    if (← get).atAttribute then return some [← singleAttribute g] else return none
  return .node .attributes found

def modifiers : Rule Tree := do
  let found ← (← get).modifierRun.mapM fun length => return .node .modifier (← takeMany length)
  return .node .modifiers found

/-- The name of a generic parameter, with the word in front of a parameter pack. -/
def paramName : Rule (List Tree) := do
  let c ← get
  if c.current.isWord then
    if c.current.text == "each".toList && (c.peek 1).isWord then takeMany 2 else takeMany 1
  else return []

def constraint (g : Nonterminals) : Rule (List Tree) := do
  if (← get).current.kind == .colon then
    let colon ← advanceLeaf
    return colon :: (← g.type).toList
  else return []

/-- One generic parameter with its constraint and its comma. Any other token stands for a parameter by itself. -/
def genericParam (g : Nonterminals) : Rule Tree := do
  let name ← paramName
  let constraint ← constraint g
  let comma ← takeIf .comma
  let parts := name ++ constraint ++ comma
  if parts.isEmpty then return .node .genericParam [← advanceLeaf] else return .node .genericParam parts

/-- Generic parameters, if the next token opens them. -/
def genericParams? (g : Nonterminals) : Rule (Option Tree) := do
  if (← get).current.isOperatorFrom '<' then
    let opener ← splitOff
    let inside ← gather g.fuel do
      let c ← get
      if c.current.isOperatorFrom '>' then return none
      else if c.atBoundary then throw (.unclosedParameters opener)
      else return some [← genericParam g]
    let closer ← splitOff
    return some (.node .genericParams (.leaf opener :: inside ++ [.leaf closer]))
  else return none

/-- One turn through the inherited types. A type without a comma is the last one. -/
def inheritanceTurn (g : Nonterminals) (reversed : List Tree) : Rule (Turn (List Tree) (List Tree)) := do
  match ← g.type with
  | none => return .done reversed.reverse
  | some inherited =>
    let comma ← takeIf .comma
    let entry := .node .inheritedType (inherited :: comma)
    if comma.isEmpty then return .done (entry :: reversed).reverse else return .again (entry :: reversed)

def inheritance (g : Nonterminals) : Rule Tree := do
  let colon ← advanceLeaf
  return .node .inheritance (colon :: (← repeatFrom (inheritanceTurn g) g.fuel []))

/-- The word `where` and the requirements up to the body. -/
def whereClause (g : Nonterminals) : Rule Tree := do
  let word ← advanceLeaf
  setCondition true
  let inside ← gather g.fuel do
    let c ← get
    if c.current.kind == .leftBrace || c.atBoundary then return none else return some [← g.item]
  setCondition false
  return .node .whereClause (word :: inside)

/-- The name of a declared type: a type behind `extension`, a word behind any other keyword. -/
def declaredName? (g : Nonterminals) (keyword : Token) : Rule (Option Tree) := do
  if keyword.kind == .extensionWord then g.type
  else if (← get).current.isWord then return some (← advanceLeaf)
  else return none

/-- A type declaration behind its attributes and modifiers. -/
def typeDecl (g : Nonterminals) (attributes modifiers : Tree) : Rule Tree := do
  let keyword ← advance
  let some name ← declaredName? g keyword | throw (.missingName keyword (← get).current)
  let params ← genericParams? g
  let clause ← if (← get).current.kind == .colon then some <$> inheritance g else pure none
  let requirements ← if (← get).current.isOneOf (words ["where"]) then some <$> whereClause g else pure none
  let c ← get
  if c.current.kind == .leftBrace then
    let body ← block g .memberBlock
    return .node .typeDecl (attributes :: modifiers :: .leaf keyword :: name ::
      (params.toList ++ clause.toList ++ requirements.toList ++ [body]))
  else throw (.missingBody keyword c.current)

/-- The pattern of a binding: a name or a group. -/
def pattern? (g : Nonterminals) : Rule (Option Tree) := do
  match (← get).current.kind with
  | .identifier => return some (← advanceLeaf)
  | .leftParen => return some (← arguments g .group)
  | _ => return none

def typeClause (g : Nonterminals) : Rule (List Tree) := do
  if (← get).current.kind == .colon then
    let colon ← advanceLeaf
    return [.node .typeClause (colon :: (← g.type).toList)]
  else return []

def initialValue (g : Nonterminals) : Rule (List Tree) := do
  if (← get).current.kind == .assign then
    let sign ← advanceLeaf
    return [.node .initialValue [sign, ← expr g]]
  else return []

/-- The accessors of a binding. On a line of their own they belong to it only when it has a type and no value. -/
def accessors (g : Nonterminals) (typed valued : Bool) : Rule (List Tree) := do
  let c ← get
  if c.current.kind == .leftBrace && !c.inCondition && (!c.current.startsLine || (typed && !valued)) then
    return [← block g .accessorBlock]
  else return []

/-- One binding with its comma, if a pattern comes next. -/
def binding? (g : Nonterminals) : Rule (Option Tree) := do
  match ← pattern? g with
  | none => return none
  | some pattern =>
    let type ← typeClause g
    let value ← initialValue g
    let accessors ← accessors g (!type.isEmpty) (!value.isEmpty)
    let comma ← takeIf .comma
    return some (.node .binding (pattern :: type ++ value ++ accessors ++ comma))

/-- One turn through the bindings of a declaration. A binding without a comma is the last one. -/
def bindingTurn (g : Nonterminals) (reversed : List Tree) : Rule (Turn (List Tree) (List Tree)) := do
  match ← binding? g with
  | none => return .done reversed.reverse
  | some binding =>
    if binding.children.getLast?.any (·.isLeaf .comma) then return .again (binding :: reversed)
    else return .done (binding :: reversed).reverse

/-- A declaration of variables behind its attributes and modifiers. -/
def variableDecl (g : Nonterminals) (attributes modifiers : Tree) : Rule Tree := do
  let keyword ← advanceLeaf
  let bindings ← repeatFrom (bindingTurn g) g.fuel []
  return .node .variableDecl (attributes :: modifiers :: keyword :: bindings)

/-- A declaration, or the head of one that is not read any further. -/
def declaration (g : Nonterminals) : Rule Tree := do
  let attributes ← attributes g
  let modifiers ← modifiers
  let c ← get
  if c.atTypeKeyword then typeDecl g attributes modifiers
  else if c.current.kind.declaresVariable then variableDecl g attributes modifiers
  else return .node .declHead [attributes, modifiers]

end SwiftObservation.Grammar
