import SwiftObservation.Grammar.Declaration

/-!
# The turns of the repetitions

Some rules write the turn of their repetition out in place. Here these turns have names, and each rule is the same with the
name in it, so that what a turn does can be said of it alone: that it reads a token whenever it goes on, and how it fails.
-/

namespace SwiftObservation.Grammar

variable (g : Nonterminals)

/-! ### Brackets -/

/-- One item, unless the items end here. -/
def itemTurn (opener : Option Token) : Rule (Option (List Tree)) := do
  let next := (← get).current
  if next.kind == .endOfFile then
    match opener with
    | some opener => throw (.unclosed opener)
    | none => return none
  else if (opener.bind (·.kind.closer?)) == some next.kind then return none
  else if next.kind.isCloser then throw (.unbalanced next)
  else return some [← g.item]

theorem items_eq (opener : Option Token) : items g opener = gather g.fuel (itemTurn g opener) := rfl

/-- One item of an argument, unless the argument ends here. -/
def elementTurn (closer : TokenKind) : Rule (Option (List Tree)) := do
  let c ← get
  if c.current.kind == .comma || c.current.kind == closer || c.atBoundary then return none
  else return some [← g.item]

theorem argument_eq (closer : TokenKind) : argument g closer = (do
    let c ← get
    let label ← if c.current.isWord && (c.peek 1).kind == .colon then takeMany 2 else pure []
    let elements ← gather g.fuel (elementTurn g closer)
    let comma ← takeIf .comma
    return .node .argument (label ++ .node .expr elements :: comma)) := rfl

/-- One argument, unless the brackets end here. -/
def argumentTurn (opener : Token) (closer : TokenKind) : Rule (Option (List Tree)) := do
  let next := (← get).current
  if next.kind == closer then return none
  else if next.kind == .endOfFile then throw (.unclosed opener)
  else if next.kind.isCloser then throw (.unbalanced next)
  else return some [← argument g closer]

theorem arguments_eq (label : Label) : arguments g label = (do
    let outside := (← get).inCondition
    let opener ← advance
    let closer := opener.kind.closer?.getD .rightParen
    setCondition false
    let inside ← gather g.fuel (argumentTurn g opener closer)
    let closing ← advanceLeaf
    setCondition outside
    return .node label (.leaf opener :: inside ++ [closing])) := rfl

/-! ### Types and attributes -/

/-- One member of a type with its generic arguments, unless none comes next. -/
def memberTurn (base : Tree) : Rule (Turn Tree Tree) := do
  if (← get).atMemberType then
    let member ← takeMany 2
    let args ← genericArgs? g
    return .again (.node .memberType (base :: member ++ args.toList))
  else return .done base

theorem typeIdentifier_eq : typeIdentifier g = (do
    let name ← advanceLeaf
    let args ← genericArgs? g
    repeatFrom (memberTurn g) g.fuel (.node .typeIdentifier (name :: args.toList))) := rfl

/-- One attribute or word in front of a type, unless none comes next. -/
def headTurn : Rule (Option (List Tree)) := do
  let c ← get
  let next := (c.peek 1).kind
  if c.atAttribute then return some [← singleAttribute g]
  else if c.current.isOneOf typeHeadWords &&
      (next == .identifier || next == .leftParen || next == .leftBracket) then
    return some [← advanceLeaf]
  else return none

theorem typeHead_eq : typeHead g = gather g.fuel (headTurn g) := rfl

/-! ### Expressions -/

/-- One labelled closure, unless none comes next. -/
def closureTurn : Rule (Option (List Tree)) := do
  if (← get).atClosureLabel then
    let label ← takeMany 2
    return some (label ++ [← block g .block])
  else return none

theorem trailingClosures_eq (callee : Tree) : trailingClosures g callee = (do
    let before := if callee.is .call then callee.children else [callee]
    let first ← block g .block
    let further ← gather g.fuel (closureTurn g)
    return .node .call (before ++ first :: further)) := rfl

/-- One word in front of an operand with its mark, unless none comes next. -/
def markerTurn : Rule (Option (List Tree)) := do
  if (← get).current.isOneOf markerWords then
    let word ← advanceLeaf
    return some (word :: (← takeMark))
  else return none

theorem markers_eq : markers g = gather g.fuel markerTurn := rfl

/-! ### Declarations -/

/-- One attribute, unless none comes next. -/
def attributeTurn : Rule (Option (List Tree)) := do
  if (← get).atAttribute then return some [← singleAttribute g] else return none

theorem attributes_eq : attributes g = (do
    let found ← gather g.fuel (attributeTurn g)
    return .node .attributes found) := rfl

/-- One generic parameter, unless the parameters end here. -/
def paramTurn (opener : Token) : Rule (Option (List Tree)) := do
  let c ← get
  if c.current.isOperatorFrom '>' then return none
  else if c.atBoundary then throw (.unclosedParameters opener)
  else return some [← genericParam g]

theorem genericParams?_eq : genericParams? g = (do
    if (← get).current.isOperatorFrom '<' then
      let opener ← splitOff
      let inside ← gather g.fuel (paramTurn g opener)
      let closer ← splitOff
      return some (.node .genericParams (.leaf opener :: inside ++ [.leaf closer]))
    else return none) := rfl

/-- One item of a requirement, unless the requirements end here. -/
def requirementTurn : Rule (Option (List Tree)) := do
  let c ← get
  if c.current.kind == .leftBrace || c.atBoundary then return none else return some [← g.item]

theorem whereClause_eq : whereClause g = (do
    let word ← advanceLeaf
    setCondition true
    let inside ← gather g.fuel (requirementTurn g)
    setCondition false
    return .node .whereClause (word :: inside)) := rfl

end SwiftObservation.Grammar
