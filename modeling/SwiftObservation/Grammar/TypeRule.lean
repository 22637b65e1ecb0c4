import SwiftObservation.Grammar.Bracket

/-!
# Types and attributes

A plain name with its generic arguments is a type identifier or a member type; anything richer is a type node
around its parts. Whether `<` opens generic arguments is found out by trying: an attempt that fails moves the cursor
back to where it began.
-/

namespace SwiftObservation.Grammar

/-- One turn through generic arguments: their end, one argument with its comma, or the end of the attempt. -/
def genericArgsTurn (g : Nonterminals) (start : Cursor) (reversed : List Tree) :
    Rule (Turn (List Tree) (Option Tree)) := do
  if (← get).current.isOperatorFrom '>' then
    let closer ← splitOff
    return .done (some (.node .genericArgs ((.leaf closer :: reversed).reverse)))
  else
    match ← g.type with
    | none =>
      modify (Cursor.rewindTo start)
      return .done none
    | some arg =>
      let comma ← takeIf .comma
      return .again (comma ++ arg :: reversed)

/-- Generic arguments, if the next token opens them. -/
def genericArgs? (g : Nonterminals) : Rule (Option Tree) := do
  let start ← get
  if start.current.isOperatorFrom '<' && start.attached then
    let opener ← splitOff
    repeatFrom (genericArgsTurn g start) g.fuel [.leaf opener]
  else return none

/-- The next tokens name a member of a type, back to back with it. -/
def Cursor.atMemberType (c : Cursor) : Bool :=
  c.current.kind == .dot && c.attached && c.current.trailing.isEmpty && (c.peek 1).kind == .identifier &&
    (c.peek 1).leading.isEmpty && !metatypeWords.contains (c.peek 1).text

/-- A name with generic arguments, and members of it with theirs. -/
def typeIdentifier (g : Nonterminals) : Rule Tree := do
  let name ← advanceLeaf
  let args ← genericArgs? g
  repeatFrom (fun base => do
    if (← get).atMemberType then
      let member ← takeMany 2
      let args ← genericArgs? g
      return .again (.node .memberType (base :: member ++ args.toList))
    else return .done base) g.fuel (.node .typeIdentifier (name :: args.toList))

/-- An attribute with its arguments. -/
def singleAttribute (g : Nonterminals) : Rule Tree := do
  let sign ← advanceLeaf
  let name ← typeIdentifier g
  let c ← get
  if c.current.kind == .leftParen && c.attached then
    return .node .attr [sign, name, ← arguments g .arguments]
  else return .node .attr [sign, name]

/-- The attributes and words in front of a type. -/
def typeHead (g : Nonterminals) : Rule (List Tree) :=
  gather g.fuel do
    let c ← get
    let next := (c.peek 1).kind
    if c.atAttribute then return some [← singleAttribute g]
    else if c.current.isOneOf typeHeadWords &&
        (next == .identifier || next == .leftParen || next == .leftBracket) then
      return some [← advanceLeaf]
    else return none

/-- The type that everything else in a type stands around. -/
def typeCore? (g : Nonterminals) : Rule (Option Tree) := do
  match (← get).current.kind with
  | .identifier => return some (← typeIdentifier g)
  | .leftParen | .leftBracket => return some (← arguments g .group)
  | _ => return none

/-- One turn through what may follow a type: optional marks, an ellipsis, a metatype, effects, and an arrow or an
ampersand with the type behind it, which ends the type. -/
def typeTailTurn (g : Nonterminals) (reversed : List Tree) : Rule (Turn (List Tree) (List Tree)) := do
  let c ← get
  let t := c.current
  let next := c.peek 1
  if t.kind == .operator && c.attached && (t.text.all (fun ch => ch == '?' || ch == '!') || t.text == ['.', '.', '.'])
  then return .again ((← advanceLeaf) :: reversed)
  else if t.kind == .dot && c.attached && next.isOneOf metatypeWords then
    return .again ((← takeMany 2).reverse ++ reversed)
  else if t.isOneOf effectWords &&
      (next.kind == .arrow || next.kind == .identifier || next.kind == .leftParen) then
    let effect ← advanceLeaf
    let c ← get
    if c.current.kind == .leftParen && c.attached then
      return .again ((← arguments g .group) :: effect :: reversed)
    else return .again (effect :: reversed)
  else if t.kind == .arrow || (t.kind == .operator && t.text == ['&']) then
    let joint ← advanceLeaf
    let target ← g.type
    return .done (target.toList ++ joint :: reversed).reverse
  else return .done reversed.reverse

/-- A type, if one comes next. -/
def type? (g : Nonterminals) : Rule (Option Tree) := do
  let head ← typeHead g
  match ← typeCore? g with
  | none => return if head.isEmpty then none else some (.node .type head)
  | some core =>
    let tail ← repeatFrom (typeTailTurn g) g.fuel []
    match head ++ core :: tail with
    | [single] => return some single
    | parts => return some (.node .type parts)

end SwiftObservation.Grammar
