import SwiftObservation.Token.Basic

/-!
# Concrete trees

A source file is read into a tree whose leaves are the tokens in source order. Inner nodes carry a label, and a
child may be absent: a member access without a receiver keeps the receiver's place. Trees are values, so an edit
builds a new tree and leaves the old one as it was.

`Tree.leaves` is the view of a tree that everything printed depends on: `Tree.text` prints a tree by printing its
leaves with their trivia.
-/

namespace SwiftObservation

/-- What an inner node stands for. -/
inductive Label where
  | sourceFile
  | typeDecl
  | attributes
  | attr
  | modifiers
  | modifier
  | declHead
  | genericParams
  | genericParam
  | inheritance
  | inheritedType
  | whereClause
  | memberBlock
  | block
  | accessorBlock
  | variableDecl
  | binding
  | typeClause
  | initialValue
  | type
  | typeIdentifier
  | memberType
  | genericArgs
  | expr
  | call
  | subscript
  | postfixOp
  | prefixOp
  | memberAccess
  | arguments
  | argument
  | group
deriving DecidableEq, Inhabited, Repr

/-- A token, a labelled node with its children, or the place of an absent child. -/
inductive Tree where
  | leaf (token : Token)
  | node (label : Label) (children : List Tree)
  | absent
deriving Inhabited, Repr

namespace Tree

def label? : Tree → Option Label
  | node label _ => some label
  | _ => none

def is (t : Tree) (label : Label) : Bool := t.label? == some label

def token? : Tree → Option Token
  | leaf token => some token
  | _ => none

/-- The tree is a leaf whose token has the given kind. -/
def isLeaf (t : Tree) (kind : TokenKind) : Bool := t.token?.any (·.kind == kind)

def children : Tree → List Tree
  | node _ children => children
  | _ => []

def child? (t : Tree) (label : Label) : Option Tree := t.children.find? (·.is label)

def childrenWith (t : Tree) (label : Label) : List Tree := t.children.filter (·.is label)

mutual

/-- The tokens of a tree in source order. -/
def leaves : Tree → List Token
  | leaf token => [token]
  | node _ children => leavesOf children
  | absent => []

def leavesOf : List Tree → List Token
  | [] => []
  | t :: rest => t.leaves ++ leavesOf rest

end

@[simp] theorem leavesOf_append (front back : List Tree) :
    leavesOf (front ++ back) = leavesOf front ++ leavesOf back := by
  induction front with
  | nil => simp [leavesOf]
  | cons t rest ih => simp [leavesOf, ih]

theorem sizeOf_append_le (front back : List Tree) : sizeOf (front ++ back) ≤ sizeOf front + sizeOf back := by
  induction front with
  | nil => simp
  | cons t rest ih =>
      simp only [List.cons_append, List.cons.sizeOf_spec]
      omega

/-- The tokens of the trees on a stack, the top one first. A node that is taken off the stack puts its children on it. -/
def walk : List Tree → List Token
  | [] => []
  | leaf token :: rest => token :: walk rest
  | node _ children :: rest => walk (children ++ rest)
  | absent :: rest => walk rest
termination_by stack => sizeOf stack
decreasing_by
  all_goals simp only [List.cons.sizeOf_spec, node.sizeOf_spec]
  · omega
  · have hsize := sizeOf_append_le children rest
    omega
  · omega

/-- The text of a tree, all trivia included. -/
def text (t : Tree) : Text := Token.textOf t.leaves

/-- The text of a tree without the trivia in front of its first and behind its last token. -/
def innerText (t : Tree) : Text :=
  match t.leaves with
  | [] => []
  | first :: rest =>
    let last := rest.getLastD first
    (t.text.drop first.leading.length).take (t.text.length - last.trailing.length - first.leading.length)

mutual

/-- How many nodes lie on the longest way down from the root. -/
def depth : Tree → Nat
  | leaf _ => 0
  | node _ children => depthOf children + 1
  | absent => 0

def depthOf : List Tree → Nat
  | [] => 0
  | t :: rest => max t.depth (depthOf rest)

end

end Tree

end SwiftObservation
