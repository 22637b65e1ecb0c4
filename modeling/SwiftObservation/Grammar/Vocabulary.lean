import SwiftObservation.Token.Basic

/-!
# The words that the grammar knows

Words other than the declaration keywords are identifiers to the lexer. The grammar tells these apart by their
spelling alone.
-/

namespace SwiftObservation.Grammar

/-- A list of words as texts. -/
def words (spellings : List String) : List Text := spellings.map String.toList

/-- The words that may stand in front of a declaration. -/
def modifierWords : List Text := words [
  "private", "fileprivate", "internal", "public", "open", "package", "final", "static", "override", "mutating",
  "nonmutating", "lazy", "weak", "unowned", "required", "convenience", "dynamic", "optional", "indirect",
  "nonisolated", "isolated", "distributed", "prefix", "postfix", "infix", "consuming", "borrowing"]

/-- The identifiers that may follow a run of modifiers. -/
def declarationWords : List Text := words [
  "func", "init", "deinit", "subscript", "typealias", "associatedtype", "case", "import", "operator",
  "precedencegroup", "macro", "actor"]

/-- The words before which `class` is a modifier. -/
def classMemberWords : List Text := words ["func", "var", "let", "subscript", "typealias"] ++ modifierWords

/-- The words after which an opening brace begins a body and never a trailing closure. -/
def conditionWords : List Text := words ["if", "guard", "while", "switch", "for", "catch"]

/-- The words that no argument list, subscript or closure continues. -/
def nonCallableWords : List Text := words [
  "if", "else", "guard", "while", "for", "in", "switch", "case", "default", "do", "defer", "repeat", "return",
  "throw", "throws", "rethrows", "try", "await", "async", "where", "catch", "is", "as", "some", "any", "import",
  "true", "false", "nil", "break", "continue", "fallthrough", "inout", "get", "set", "willSet", "didSet", "func",
  "init", "deinit", "subscript"]

/-- The words that may stand in front of a type. -/
def typeHeadWords : List Text := words [
  "some", "any", "inout", "borrowing", "consuming", "sending", "isolated", "each", "repeat", "__owned",
  "__shared"]

/-- The words between the parameters and the arrow of a function type. -/
def effectWords : List Text := words ["async", "throws", "rethrows"]

/-- The members of a type that denote its metatypes. -/
def metatypeWords : List Text := words ["Type", "Protocol"]

/-- The words that may stand in front of an operand. -/
def markerWords : List Text := words ["try", "await"]

/-- The words that are followed by a type in an expression. -/
def castWords : List Text := words ["as", "is"]

end SwiftObservation.Grammar
