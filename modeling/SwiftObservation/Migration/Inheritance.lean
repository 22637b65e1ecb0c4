import SwiftObservation.Migration.Attribute

/-!
# Leaving the protocol

A class that becomes observable no longer names the protocol among its inherited types. Removing an entry takes its
comma along, removing the last entry takes the comma in front of it instead, and a clause that loses all entries goes
as a whole. A clause made only of entries that end in a comma is left alone.
-/

namespace SwiftObservation.Migration

/-- The entry of an inheritance clause names the protocol and nothing else. -/
def isProtocolEntry (entry : Tree) : Bool :=
  match entry.children with
  | bound :: _ => bound.is .typeIdentifier && bound.innerText == observableProtocol
  | [] => false

/-- The entry without its comma, followed by the given trivia. -/
def stripComma (trailing : Text) (entry : Tree) : Tree :=
  match entry with
  | .node label children =>
    let bare := if children.getLast?.any (·.isLeaf .comma) then children.dropLast else children
    (Tree.node label bare).mapLast ({ · with trailing })
  | t => t

/-- What an inheritance clause becomes without the protocol. -/
inductive Pruned where
  /-- All entries name the protocol and end in a comma. -/
  | dangling
  /-- No entry is left; the trivia behind the last one stays. -/
  | emptied (trailing : Text)
  | kept (entries : List Tree)

/-- The clause made of the entries kept so far, the last one first, and the entries to come, with the trivia carried
from entries removed between them. -/
def pruneFrom (reversed : List Tree) (carried : Option Text) : List Tree → Pruned
  | [] => if reversed.isEmpty then .dangling else .kept reversed.reverse
  | entry :: rest =>
    if isProtocolEntry entry then
      if entry.last?.any (·.kind == .comma) then
        pruneFrom reversed (carried.or (some ((entry.first?.map (·.leading)).getD []))) rest
      else
        let trailing := (entry.last?.map (·.trailing)).getD []
        match reversed with
        | before :: earlier => pruneFrom (stripComma trailing before :: earlier) carried rest
        | [] => .emptied trailing
    else pruneFrom ((deliver carried [entry]).reverse ++ reversed) none rest

def prune (entries : List Tree) : Pruned := pruneFrom [] none entries

/-- The trees with the last token of the last one followed by the given trivia. -/
def endWith (trailing : Text) (trees : List Tree) : List Tree :=
  match trees.getLast? with
  | some last => trees.dropLast ++ [last.mapLast ({ · with trailing })]
  | none => []

/-- What becomes of the children of a class that are to lose the protocol. -/
inductive Leaving where
  /-- No entry of the clause names the protocol. -/
  | absent
  /-- The clause cannot lose its entries. -/
  | dangling
  | done (children : List Tree)

/-- The children of a class without the protocol in their inheritance clause. -/
def leaveProtocol (children : List Tree) : Leaving :=
  match children.span (!·.is .inheritance) with
  | (before, .node label (colon :: entries) :: behind) =>
    if entries.any isProtocolEntry then
      match prune entries with
      | .dangling => .dangling
      | .emptied trailing => .done (endWith trailing before ++ behind)
      | .kept entries => .done (before ++ .node label (colon :: entries) :: behind)
    else .absent
  | _ => .absent

end SwiftObservation.Migration
