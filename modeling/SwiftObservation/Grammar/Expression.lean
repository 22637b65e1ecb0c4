import SwiftObservation.Grammar.TypeRule

/-!
# Expressions

An operand is a primary followed by member accesses, calls, subscripts, closures and optional marks, read from left
to right. An expression is a row of operands joined by operators and casts; it ends where no operand can follow.
-/

namespace SwiftObservation.Grammar

/-- A tree that may be continued by a dot. -/
def isOperand : Tree → Bool
  | .leaf t => t.kind == .number || t.kind == .string || t.kind == .pound || t.isWord
  | _ => true

/-- A tree that brackets or marks right behind it continue. -/
def isCallable : Tree → Bool
  | .leaf t => if t.kind == .identifier then !nonCallableWords.contains t.text else t.kind == .pound
  | .node label _ => label == .call || label == .memberAccess || label == .subscript || label == .postfixOp
  | .absent => false

/-- The trivia behind the last child of a node, if that is a token. -/
def trailingOfLast (t : Tree) : Text :=
  match t.children.getLast? with
  | some (.leaf token) => token.trailing
  | _ => []

/-- A tree that the parenthesis right behind it calls. A block or a group is called only back to back. -/
def isCalledBy (t : Tree) (paren : Token) : Bool :=
  if t.is .block || t.is .group then paren.leading.isEmpty && (trailingOfLast t).isEmpty else isCallable t

/-- A token that an operator right before it applies to. -/
def startsOperand (t : Token) : Bool :=
  t.leading.isEmpty &&
    (t.kind == .number || t.kind == .string || t.kind == .pound || t.kind == .leftParen || t.kind == .leftBracket ||
      t.kind == .dot || t.isWord)

/-- The next tokens are a dot and a word, back to back. -/
def Cursor.atImplicitMember (c : Cursor) : Bool :=
  c.current.kind == .dot && (c.peek 1).isWord && c.current.trailing.isEmpty && (c.peek 1).leading.isEmpty

/-- The next tokens are a dot and a member, back to back. -/
def Cursor.atMember (c : Cursor) : Bool :=
  c.current.kind == .dot && ((c.peek 1).isWord || (c.peek 1).kind == .number) && c.current.trailing.isEmpty &&
    (c.peek 1).leading.isEmpty

/-- The next tokens are the label of a further trailing closure. -/
def Cursor.atClosureLabel (c : Cursor) : Bool :=
  c.current.isWord && !c.current.startsLine && (c.peek 1).kind == .colon && (c.peek 2).kind == .leftBrace

/-- The closures behind a callee. A call that has arguments takes them up. -/
def trailingClosures (g : Nonterminals) (callee : Tree) : Rule Tree := do
  let before := if callee.is .call then callee.children else [callee]
  let first ← block g .block
  let further ← gather g.fuel do
    if (← get).atClosureLabel then
      let label ← takeMany 2
      return some (label ++ [← block g .block])
    else return none
  return .node .call (before ++ first :: further)

/-- One turn through what follows an operand. -/
def chainTurn (g : Nonterminals) (base : Tree) : Rule (Turn Tree Tree) := do
  let c ← get
  let t := c.current
  if c.atMember then return .again (.node .memberAccess (base :: (← takeMany 2)))
  else if c.atAttachedMark && isCallable base then return .again (.node .postfixOp [base, ← advanceLeaf])
  else if t.kind == .leftParen && !t.startsLine && isCalledBy base t then
    return .again (.node .call [base, ← arguments g .arguments])
  else if t.kind == .leftBracket && c.attached && isCallable base then
    return .again (.node .subscript [base, ← arguments g .arguments])
  else if t.kind == .leftBrace && !t.startsLine && !c.inCondition && isCallable base then
    return .again (← trailingClosures g base)
  else return .done base

/-- A primary, read by the given rule, and what follows it. -/
def chainFrom (g : Nonterminals) (primary : Rule Tree) : Rule Tree := do
  let base ← primary
  if isOperand base then repeatFrom (chainTurn g) g.fuel base else return base

/-- A primary that is not preceded by an operator: a block, a group, an implicit member, or any single token. -/
def plainPrimary (g : Nonterminals) : Rule Tree := do
  let c ← get
  if c.current.kind == .leftBrace then block g .block
  else if c.current.kind == .leftParen || c.current.kind == .leftBracket then arguments g .group
  else if c.atImplicitMember then return .node .memberAccess (.absent :: (← takeMany 2))
  else if c.atBoundary then throw (.unexpected c.current)
  else advanceLeaf

/-- A primary. No operator applies to another one, so the operand behind an operator is a plain one. -/
def primary (g : Nonterminals) : Rule Tree := do
  let c ← get
  if (c.current.kind == .operator || c.current.kind == .backslash) && c.current.trailing.isEmpty &&
      startsOperand (c.peek 1) then
    let operator ← advanceLeaf
    return .node .prefixOp [operator, ← chainFrom g (plainPrimary g)]
  else plainPrimary g

/-- An operand with everything that follows it. -/
def chain (g : Nonterminals) : Rule Tree := chainFrom g (primary g)

/-- The words `try` and `await` in front of an operand, with their marks. -/
def markers (g : Nonterminals) : Rule (List Tree) :=
  gather g.fuel do
    if (← get).current.isOneOf markerWords then
      let word ← advanceLeaf
      return some (word :: (← takeMark))
    else return none

/-- The casts behind an operand: `as` with its mark or `is`, and the type. -/
def cast (g : Nonterminals) : Rule (List Tree) := do
  if (← get).current.isOneOf castWords then
    let word ← advance
    let mark ← if word.text == "as".toList then takeMark else pure []
    let target ← g.type
    return .leaf word :: mark ++ target.toList
  else return []

/-- An expression cannot go on here. -/
def Cursor.atExprEnd (c : Cursor) : Bool :=
  c.current.kind == .comma || c.current.kind == .semicolon || c.atBoundary

/-- What is known in the middle of an expression: its parts, the last one first, and how many conditional operators
still wait for their colon. -/
structure ExprState where
  reversed : List Tree := []
  ternaries : Nat := 0

/-- One turn through an expression: markers, an operand, a cast, and the operator that makes it go on. -/
def exprTurn (g : Nonterminals) (s : ExprState) : Rule (Turn ExprState (List Tree)) := do
  if (← get).atExprEnd then return .done s.reversed.reverse
  let marked := (← markers g).reverse ++ s.reversed
  if (← get).atExprEnd then return .done marked.reverse
  let operand ← chain g
  let reversed := (← cast g).reverse ++ operand :: marked
  let c ← get
  if c.atBinaryOperator then
    let ternaries := if c.current.text == ['?'] then s.ternaries + 1 else s.ternaries
    return .again { reversed := (← advanceLeaf) :: reversed, ternaries }
  else if c.current.kind == .colon && 0 < s.ternaries then
    return .again { reversed := (← advanceLeaf) :: reversed, ternaries := s.ternaries - 1 }
  else return .done reversed.reverse

def expr (g : Nonterminals) : Rule Tree := return .node .expr (← repeatFrom (exprTurn g) g.fuel {})

end SwiftObservation.Grammar
