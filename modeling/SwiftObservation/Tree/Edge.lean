import SwiftObservation.Tree.Basic

/-!
# The first and the last token of a tree

Trivia moves between neighbouring tokens when something between them is removed, and the neighbours are the first
or last tokens of subtrees. Children that hold no token at all are passed over.
-/

namespace SwiftObservation.Tree

mutual

def first? : Tree → Option Token
  | leaf token => some token
  | node _ children => firstOf? children
  | absent => none

def firstOf? : List Tree → Option Token
  | [] => none
  | t :: rest => t.first?.or (firstOf? rest)

end

mutual

def last? : Tree → Option Token
  | leaf token => some token
  | node _ children => lastOf? children
  | absent => none

def lastOf? : List Tree → Option Token
  | [] => none
  | t :: rest => (lastOf? rest).or t.last?

end

mutual

/-- The tree with its first token changed; nothing if it has no token. -/
def mapFirst? (f : Token → Token) : Tree → Option Tree
  | leaf token => some (leaf (f token))
  | node label children => (mapFirstOf? f children).map (node label)
  | absent => none

def mapFirstOf? (f : Token → Token) : List Tree → Option (List Tree)
  | [] => none
  | t :: rest =>
    match t.mapFirst? f with
    | some changed => some (changed :: rest)
    | none => (mapFirstOf? f rest).map (t :: ·)

end

mutual

/-- The tree with its last token changed; nothing if it has no token. -/
def mapLast? (f : Token → Token) : Tree → Option Tree
  | leaf token => some (leaf (f token))
  | node label children => (mapLastOf? f children).map (node label)
  | absent => none

def mapLastOf? (f : Token → Token) : List Tree → Option (List Tree)
  | [] => none
  | t :: rest =>
    match mapLastOf? f rest with
    | some changed => some (t :: changed)
    | none => (t.mapLast? f).map (· :: rest)

end

/-- The tree with its first token changed, or the tree itself if it has none. -/
def mapFirst (f : Token → Token) (t : Tree) : Tree := (t.mapFirst? f).getD t

/-- The tree with its last token changed, or the tree itself if it has none. -/
def mapLast (f : Token → Token) (t : Tree) : Tree := (t.mapLast? f).getD t

end SwiftObservation.Tree
