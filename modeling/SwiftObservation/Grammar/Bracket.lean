import SwiftObservation.Grammar.Rule

/-!
# Items between brackets

Braces hold items, parentheses and square brackets hold arguments separated by commas. Both demand that the
bracket be closed by one of its own kind.
-/

namespace SwiftObservation.Grammar

/-- Items up to the closing bracket of `opener`, or up to the end of the file when there is no bracket. -/
def items (g : Nonterminals) (opener : Option Token) : Rule (List Tree) :=
  gather g.fuel do
    let next := (← get).current
    if next.kind == .endOfFile then
      match opener with
      | some opener => throw (.unclosed opener)
      | none => return none
    else if (opener.bind (·.kind.closer?)) == some next.kind then return none
    else if next.kind.isCloser then throw (.unbalanced next)
    else return some [← g.item]

def block (g : Nonterminals) (label : Label) : Rule Tree := do
  let opener ← advance
  setCondition false
  let inside ← items g (some opener)
  let closer ← advanceLeaf
  return .node label (.leaf opener :: inside ++ [closer])

/-- One argument with its label and its comma. -/
def argument (g : Nonterminals) (closer : TokenKind) : Rule Tree := do
  let c ← get
  let label ← if c.current.isWord && (c.peek 1).kind == .colon then takeMany 2 else pure []
  let elements ← gather g.fuel do
    let c ← get
    if c.current.kind == .comma || c.current.kind == closer || c.atBoundary then return none
    else return some [← g.item]
  let comma ← takeIf .comma
  return .node .argument (label ++ .node .expr elements :: comma)

/-- Arguments in parentheses or square brackets. Whether a condition is open outside does not matter inside. -/
def arguments (g : Nonterminals) (label : Label) : Rule Tree := do
  let outside := (← get).inCondition
  let opener ← advance
  let closer := opener.kind.closer?.getD .rightParen
  setCondition false
  let inside ← gather g.fuel do
    let next := (← get).current
    if next.kind == closer then return none
    else if next.kind == .endOfFile then throw (.unclosed opener)
    else if next.kind.isCloser then throw (.unbalanced next)
    else return some [← argument g closer]
  let closing ← advanceLeaf
  setCondition outside
  return .node label (.leaf opener :: inside ++ [closing])

end SwiftObservation.Grammar
