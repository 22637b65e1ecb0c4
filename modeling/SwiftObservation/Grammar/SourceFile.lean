import SwiftObservation.Grammar.Declaration

/-!
# Source files

The grammar is tied to itself a bounded number of times: `nonterminals fuel limit` reads items and types that stand
at most `limit` deep inside one another. A source file is a row of items and the end of the file.
-/

namespace SwiftObservation

namespace Grammar

def Cursor.atDeclaration (c : Cursor) : Bool :=
  c.atAttribute || !c.modifierRun.isEmpty || c.atTypeKeyword || c.current.kind.declaresVariable

/-- An item: a declaration, a word that opens a condition, or an operand. -/
def item (g : Nonterminals) : Rule Tree := do
  let c ← get
  if c.atDeclaration then declaration g
  else if c.current.isName conditionWords then
    setCondition true
    advanceLeaf
  else chain g

/-- The rules for items and types nested at most `limit` deep. -/
def nonterminals (fuel : Nat) : (limit : Nat) → Nonterminals
  | 0 => { fuel, item := throw .tooDeep, type := throw .tooDeep }
  | limit + 1 =>
    let inner := nonterminals fuel limit
    { fuel, item := item inner, type := type? inner }

def sourceFile (g : Nonterminals) : Rule Tree := do
  let inside ← items g none
  let ending ← advanceLeaf
  return .node .sourceFile (inside ++ [ending])

end Grammar

namespace Tree

/-- The tree of a list of tokens, up to the first end of file. Items and types may stand at most `limit` deep inside
one another. -/
def ofTokens (limit : Nat) (tokens : List Token) : Except ParseError Tree :=
  let start := Grammar.Cursor.ofTokens tokens
  (Grammar.sourceFile (Grammar.nonterminals (start.weight + 1) limit)).run' start

end Tree

end SwiftObservation
