import SwiftObservation.Migration.Vocabulary
import SwiftObservation.Text.Character
import SwiftObservation.Token.Layout
import SwiftObservation.Tree.Edge

/-!
# Attributes that change or go

A wrapper attribute is recognised by its plain name: one identifier, without a module in front and without generic
arguments. When an attribute goes, the trivia in front of it and the comments behind it move to the next token that
stays.
-/

namespace SwiftObservation.Migration

/-- The name of an attribute that has a plain one. -/
def attributeName? (t : Tree) : Option Text :=
  match t.children with
  | _ :: .node .typeIdentifier [.leaf name] :: _ => some name.text
  | _ => none

def isNamed (name : Text) (t : Tree) : Bool := attributeName? t == some name

/-- The tree with the text of its first child, a token, changed. -/
def rename (text : Text) : Tree → Tree
  | .node label (.leaf name :: rest) => .node label (.leaf { name with text } :: rest)
  | t => t

/-- A leading trivia that takes up the trivia of what was removed in front of the token. -/
def takeUp (carried : Text) (t : Token) : Token := { t with leading := Trivia.mergeLeading carried t.leading }

/-- An attribute that is to go, left as an empty token that keeps the trivia in front of it. -/
def erased (sign : Token) : Tree := .node .attr [.leaf { sign with text := [], trailing := [] }]

def isErased (t : Tree) : Bool :=
  match t.children with
  | [.leaf sign] => sign.text.isEmpty
  | _ => false

/-- An attribute after its own migration: the wrapper of an owned object gets its successor, the wrapper of a given
object is erased, all others stay. -/
def migrateAttribute (t : Tree) : Tree :=
  match t.children with
  | sign :: name :: rest =>
    if isNamed stateObjectName t then .node .attr (sign :: rename stateName name :: rest)
    else if isNamed observedObjectName t then
      match sign with
      | .leaf token => erased token
      | _ => t
    else t
  | _ => t

/-- What the trivia around a removed attribute leaves behind, added to what was carried before. -/
def carry (carried : Option Text) (t : Tree) : Text :=
  let leading := (t.first?.map (·.leading)).getD []
  let trailing := (t.last?.map (·.trailing)).getD []
  (match carried with
    | some earlier => Trivia.mergeLeading earlier leading
    | none => leading) ++ trailing.dropWhile Text.isBlank

/-- The trees with the carried trivia, if there is any, in front of their first token. -/
def deliver (carried : Option Text) (trees : List Tree) : List Tree :=
  match carried with
  | some text => (Tree.mapFirstOf? (takeUp text) trees).getD trees
  | none => trees

/-- The attributes that stay, and the trivia left to carry behind them. -/
def dropFrom (doomed : Tree → Bool) : Option Text → List Tree → List Tree × Option Text
  | carried, [] => ([], carried)
  | carried, t :: rest =>
    if doomed t then dropFrom doomed (some (carry carried t)) rest
    else
      let (kept, left) := dropFrom doomed none rest
      (deliver carried [t] ++ kept, left)

def dropAttributes (doomed : Tree → Bool) (decl : Tree) : Tree :=
  match decl with
  | .node label (.node .attributes found :: rest) =>
    if found.any doomed then
      let (kept, left) := dropFrom doomed none found
      .node label (.node .attributes kept :: deliver left rest)
    else decl
  | _ => decl

end SwiftObservation.Migration
