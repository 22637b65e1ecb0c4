import SwiftObservation.Grammar.Cursor

/-!
# Rules

A grammar rule takes tokens at a cursor and yields trees, or fails for good: no rule recovers from the failure of
another. Rules refer to one another through `Nonterminals`, which holds the two rules that every nesting passes
through, an item and a type. Tying that knot a bounded number of times gives the grammar its nesting limit.
-/

namespace SwiftObservation

/-- Why a list of tokens has no tree, with the token the fault is about. -/
inductive ParseError where
  /-- A closing bracket that closes nothing. -/
  | unbalanced (closer : Token)
  /-- An opening bracket that nothing closes. -/
  | unclosed (opener : Token)
  | unclosedParameters (opener : Token)
  | missingName (keyword found : Token)
  | missingBody (keyword found : Token)
  /-- A place for an operand where none can stand. -/
  | unexpected (found : Token)
  /-- Items or types stand inside one another beyond the limit. -/
  | tooDeep
  /-- A repetition went on longer than there are tokens. -/
  | endless
deriving DecidableEq, Repr

namespace ParseError

def quoted (t : Token) : Text := '\'' :: t.text ++ ['\'']

def message : ParseError → Text
  | unbalanced closer => "Unbalanced ".toList ++ quoted closer
  | unclosed opener => "Unclosed ".toList ++ quoted opener
  | unclosedParameters _ => "Unclosed generic parameter clause".toList
  | missingName keyword _ => "Expected a name after ".toList ++ quoted keyword
  | missingBody keyword _ => "Expected '\x7b' to open the ".toList ++ keyword.text ++ " body".toList
  | unexpected found =>
    "Unexpected ".toList ++ (if found.text.isEmpty then "'end of file'".toList else quoted found)
  | tooDeep => "Nesting too deep to convert".toList
  | endless => "Endless repetition".toList

def token? : ParseError → Option Token
  | unbalanced t | unclosed t | unclosedParameters t | missingName _ t | missingBody _ t | unexpected t => some t
  | tooDeep | endless => none

def position? (e : ParseError) : Option Position := e.token?.map (·.position)

end ParseError

namespace Grammar

/-- A rule takes tokens at the cursor and yields a value, or fails. -/
abbrev Rule := StateT Cursor (Except ParseError)

/-- The rules that all nesting passes through, and a bound on the turns of a repetition. -/
structure Nonterminals where
  fuel : Nat
  item : Rule Tree
  type : Rule (Option Tree)

def advance : Rule Token := fun c => .ok c.advance

/-- Takes the first character of the next operator. -/
def splitOff : Rule Token := fun c => .ok c.splitOff

def advanceLeaf : Rule Tree := return .leaf (← advance)

def takeIf (kind : TokenKind) : Rule (List Tree) := do
  if (← get).current.kind == kind then return [← advanceLeaf] else return []

/-- Takes the next token if it is a question or exclamation mark back to back with the one before. -/
def takeMark : Rule (List Tree) := do
  if (← get).atAttachedMark then return [← advanceLeaf] else return []

def takeMany : Nat → Rule (List Tree)
  | 0 => return []
  | n + 1 => return (← advanceLeaf) :: (← takeMany n)

def setCondition (inCondition : Bool) : Rule Unit := modify ({ · with inCondition })

/-- The end of one turn of a repetition: go on from a state, or stop with a result. -/
inductive Turn (σ β : Type) where
  | again (state : σ)
  | done (result : β)

/-- Repeats a rule from a state until it stops. Every turn takes a token, so the fuel is never used up. -/
def repeatFrom {σ β : Type} (turn : σ → Rule (Turn σ β)) : (fuel : Nat) → σ → Rule β
  | 0, _ => throw .endless
  | fuel + 1, state => do
    match ← turn state with
    | .again state => repeatFrom turn fuel state
    | .done result => return result

/-- Repeats a rule until it yields nothing, and collects what it yields. -/
def gather (fuel : Nat) (turn : Rule (Option (List Tree))) : Rule (List Tree) :=
  repeatFrom (fun reversed => do
    match ← turn with
    | some trees => return .again (trees.reverse ++ reversed)
    | none => return .done reversed.reverse) fuel []

end Grammar

end SwiftObservation
