import SwiftObservation.Proofs.Grammar.Pieces
import SwiftObservation.Proofs.Tree.Within

/-!
# Well nested brackets

A row of brackets is well nested if every opening bracket is closed by one of its own kind and nothing else is closed.
The brackets of a tree are those among its leaves. One kind of node falls out of line: a generic parameter may be any
single token, an opening bracket too, and then nothing closes it. `Tree.nesting` leaves these lone brackets out, so that
the brackets of a tree are its nesting exactly if there are none; with them a tree opens more than it closes.
-/

namespace SwiftObservation

namespace TokenKind

def isOpener (kind : TokenKind) : Bool := kind.closer?.isSome

/-- Brackets open or close something. -/
def isBracket (kind : TokenKind) : Bool := kind.isOpener || kind.isCloser

theorem isCloser_of_closer? {opener closer : TokenKind} (hcloses : opener.closer? = some closer) :
    opener.isOpener = true ∧ opener.isCloser = false ∧ closer.isOpener = false ∧ closer.isCloser = true := by
  cases opener <;> simp only [closer?, Option.some.injEq, reduceCtorEq] at hcloses <;> subst hcloses <;> decide

theorem isBracket_of_isWord {kind : TokenKind} (hword : kind.isWord = true) : kind.isBracket = false := by
  cases kind <;> first | rfl | simp [isWord] at hword

theorem isBracket_of_ofOperator (run : Text) : (ofOperator run).isBracket = false := by
  unfold ofOperator
  repeat' split
  all_goals rfl

end TokenKind

/-- Every opening bracket is closed by a bracket of its own kind, and no other bracket is closed. -/
inductive WellNested : List TokenKind → Prop where
  | nil : WellNested []
  | pair {opener closer : TokenKind} {inside behind : List TokenKind} (closes : opener.closer? = some closer)
      (inner : WellNested inside) (outer : WellNested behind) : WellNested (opener :: (inside ++ closer :: behind))

namespace WellNested

theorem append {front back : List TokenKind} (hfront : WellNested front) (hback : WellNested back) :
    WellNested (front ++ back) := by
  induction hfront with
  | nil => exact hback
  | @pair opener closer inside behind hcloses hinner _ _ ih =>
      rw [List.cons_append, List.append_assoc, List.cons_append]
      exact .pair hcloses hinner ih

/-- As many brackets are opened as are closed. -/
theorem countP_eq {kinds : List TokenKind} (hnested : WellNested kinds) :
    kinds.countP TokenKind.isOpener = kinds.countP TokenKind.isCloser := by
  induction hnested with
  | nil => rfl
  | pair hcloses _ _ ihinner ihouter =>
      obtain ⟨hopens, hother, hother', hcloser⟩ := TokenKind.isCloser_of_closer? hcloses
      simp only [List.countP_cons, List.countP_append, hopens, hother, hother', hcloser, ihinner, ihouter]
      omega

end WellNested

/-- The brackets among some tokens, in order. -/
def Token.brackets (tokens : List Token) : List TokenKind := (tokens.map (·.kind)).filter TokenKind.isBracket

theorem Token.brackets_append (front back : List Token) :
    Token.brackets (front ++ back) = Token.brackets front ++ Token.brackets back := by simp [Token.brackets]

theorem Token.brackets_singleton_of_not {token : Token} (hkind : token.kind.isBracket = false) :
    Token.brackets [token] = [] := by simp [Token.brackets, hkind]

namespace Grammar

/-- Cutting an operator neither makes nor breaks a bracket. -/
theorem Cuts.brackets_eq {token : Token} {pieces : List Token} (hcuts : Cuts token pieces) :
    Token.brackets pieces = Token.brackets [token] := by
  induction hcuts with
  | whole => rfl
  | @split token pieces hoperator _ _ _ ih =>
      have hkind : token.kind.isBracket = false := by rw [hoperator]; rfl
      have hfirst : (Cursor.splitToken token).1.kind.isBracket = false := hkind
      have hsecond : (Cursor.splitToken token).2.kind.isBracket = false := TokenKind.isBracket_of_ofOperator _
      rw [← List.singleton_append, Token.brackets_append, ih, Token.brackets_singleton_of_not hfirst,
        Token.brackets_singleton_of_not hsecond, Token.brackets_singleton_of_not hkind, List.append_nil]

theorem Refines.brackets_eq {tokens tokens' : List Token} (hrefines : Refines tokens tokens') :
    Token.brackets tokens' = Token.brackets tokens := by
  induction hrefines with
  | nil => rfl
  | cons hcuts _ ih =>
      rw [Token.brackets_append, ih, hcuts.brackets_eq, ← Token.brackets_append, List.singleton_append]

end Grammar

namespace Tree

/-- A generic parameter that is nothing but an opening bracket. -/
def isLoneBracket : Tree → Bool
  | .node .genericParam [.leaf token] => token.kind.isOpener
  | _ => false

mutual

/-- The brackets of a tree without the lone ones. -/
def nesting : Tree → List TokenKind
  | .leaf token => Token.brackets [token]
  | .node label children => if isLoneBracket (.node label children) then [] else nestingOf children
  | .absent => []

def nestingOf : List Tree → List TokenKind
  | [] => []
  | t :: rest => nesting t ++ nestingOf rest

end

theorem nestingOf_append (front back : List Tree) : nestingOf (front ++ back) = nestingOf front ++ nestingOf back := by
  induction front with
  | nil => rfl
  | cons t rest ih => rw [List.cons_append, nestingOf, ih, nestingOf, List.append_assoc]

/-- A lone bracket has nothing but itself below it. -/
theorem exists_of_isLoneBracket {t : Tree} (hlone : t.isLoneBracket = true) :
    ∃ token, t = .node .genericParam [.leaf token] ∧ token.kind.isOpener = true := by
  unfold isLoneBracket at hlone
  split at hlone
  next token => exact ⟨token, rfl, hlone⟩
  next => simp at hlone

theorem brackets_of_isLoneBracket {t : Tree} (hlone : t.isLoneBracket = true) :
    ∃ kind : TokenKind, Token.brackets t.leaves = [kind] ∧ kind.isOpener = true ∧ kind.isCloser = false := by
  obtain ⟨token, rfl, hopens⟩ := exists_of_isLoneBracket hlone
  obtain ⟨closer, hcloses⟩ := Option.isSome_iff_exists.mp hopens
  refine ⟨token.kind, ?_, hopens, (TokenKind.isCloser_of_closer? hcloses).2.1⟩
  simp [leaves, leavesOf, Token.brackets, TokenKind.isBracket, hopens]

mutual

/-- Without lone brackets the nesting of a tree is all of its brackets. -/
theorem nesting_eq_brackets (t : Tree) (hnone : ∀ s, Within s t → s.isLoneBracket = false) :
    t.nesting = Token.brackets t.leaves := by
  cases t with
  | leaf token => rfl
  | absent => rfl
  | node label children =>
      have hself := hnone _ .self
      rw [nesting, hself, leaves]
      exact nestingOf_eq_brackets children fun t hmem s hwithin => hnone s (.child hmem hwithin)

theorem nestingOf_eq_brackets (trees : List Tree)
    (hnone : ∀ t ∈ trees, ∀ s, Within s t → s.isLoneBracket = false) :
    nestingOf trees = Token.brackets (leavesOf trees) := by
  cases trees with
  | nil => rfl
  | cons t rest =>
      rw [nestingOf, leavesOf, Token.brackets_append, nesting_eq_brackets t (hnone t (by simp)),
        nestingOf_eq_brackets rest fun s hs => hnone s (by simp [hs])]

end

mutual

/-- Lone brackets close nothing. -/
theorem countP_isCloser_nesting (t : Tree) :
    t.nesting.countP TokenKind.isCloser = (Token.brackets t.leaves).countP TokenKind.isCloser := by
  cases t with
  | leaf token => rfl
  | absent => rfl
  | node label children =>
      rw [nesting]
      split
      next hlone =>
        obtain ⟨kind, hbrackets, -, hcloser⟩ := brackets_of_isLoneBracket hlone
        simp [hbrackets, hcloser]
      next => exact countP_isCloser_nestingOf children

theorem countP_isCloser_nestingOf (trees : List Tree) :
    (nestingOf trees).countP TokenKind.isCloser = (Token.brackets (leavesOf trees)).countP TokenKind.isCloser := by
  cases trees with
  | nil => rfl
  | cons t rest =>
      rw [nestingOf, leavesOf, Token.brackets_append, List.countP_append, List.countP_append, countP_isCloser_nesting t,
        countP_isCloser_nestingOf rest]

end

mutual

theorem countP_isOpener_nesting_le (t : Tree) :
    t.nesting.countP TokenKind.isOpener ≤ (Token.brackets t.leaves).countP TokenKind.isOpener := by
  cases t with
  | leaf token => exact Nat.le_refl _
  | absent => exact Nat.le_refl _
  | node label children =>
      rw [nesting]
      split
      next => exact Nat.zero_le _
      next => exact countP_isOpener_nestingOf_le children

theorem countP_isOpener_nestingOf_le (trees : List Tree) :
    (nestingOf trees).countP TokenKind.isOpener ≤ (Token.brackets (leavesOf trees)).countP TokenKind.isOpener := by
  cases trees with
  | nil => exact Nat.le_refl _
  | cons t rest =>
      rw [nestingOf, leavesOf, Token.brackets_append, List.countP_append, List.countP_append]
      exact Nat.add_le_add (countP_isOpener_nesting_le t) (countP_isOpener_nestingOf_le rest)

end

theorem countP_isOpener_nestingOf_lt {t : Tree} {trees : List Tree} (hmem : t ∈ trees)
    (hlt : t.nesting.countP TokenKind.isOpener < (Token.brackets t.leaves).countP TokenKind.isOpener) :
    (nestingOf trees).countP TokenKind.isOpener < (Token.brackets (leavesOf trees)).countP TokenKind.isOpener := by
  obtain ⟨front, back, rfl⟩ := List.append_of_mem hmem
  have hfront := countP_isOpener_nestingOf_le front
  have hback := countP_isOpener_nestingOf_le back
  simp only [nestingOf_append, nestingOf, leavesOf_append, leavesOf, Token.brackets_append, List.countP_append]
  omega

/-- A lone bracket anywhere in a tree is one opened too many. -/
theorem countP_isOpener_nesting_lt {s t : Tree} (hwithin : Within s t) (hlone : s.isLoneBracket = true) :
    t.nesting.countP TokenKind.isOpener < (Token.brackets t.leaves).countP TokenKind.isOpener := by
  induction hwithin with
  | self =>
      obtain ⟨token, rfl, -⟩ := exists_of_isLoneBracket hlone
      obtain ⟨kind, hbrackets, hopens, -⟩ := brackets_of_isLoneBracket hlone
      rw [nesting, hlone, hbrackets]
      simp [hopens]
  | @child label children t hmem _ ih =>
      rw [nesting, leaves]
      have hlt := countP_isOpener_nestingOf_lt hmem ih
      split
      next => exact Nat.lt_of_le_of_lt (Nat.zero_le _) hlt
      next => exact hlt

/-- The brackets of a tree with a well nested nesting are well nested themselves exactly if none is a lone one. -/
theorem wellNested_brackets_iff {t : Tree} (hnested : WellNested t.nesting) :
    WellNested (Token.brackets t.leaves) ↔ ∀ s, Within s t → s.isLoneBracket = false := by
  constructor
  · intro hbrackets s hwithin
    rw [Bool.eq_false_iff]
    intro hlone
    have hlt := countP_isOpener_nesting_lt hwithin hlone
    rw [hnested.countP_eq, countP_isCloser_nesting, ← hbrackets.countP_eq] at hlt
    exact Nat.lt_irrefl _ hlt
  · intro hnone
    rw [← nesting_eq_brackets t hnone]
    exact hnested

/-! ### Trees that close what they open -/

/-- The tree closes what it opens, lone brackets apart. -/
def Nested (t : Tree) : Prop := WellNested t.nesting

/-- Each of the trees closes what it opens. -/
def NestedAll (trees : List Tree) : Prop := ∀ t ∈ trees, t.Nested

@[simp] theorem nestedAll_nil : NestedAll [] := by simp [NestedAll]

@[simp] theorem nestedAll_cons {t : Tree} {rest : List Tree} : NestedAll (t :: rest) ↔ t.Nested ∧ NestedAll rest :=
  List.forall_mem_cons

@[simp] theorem nestedAll_append {front back : List Tree} :
    NestedAll (front ++ back) ↔ NestedAll front ∧ NestedAll back := List.forall_mem_append

@[simp] theorem nestedAll_reverse {trees : List Tree} : NestedAll trees.reverse ↔ NestedAll trees := by
  simp [NestedAll]

theorem NestedAll.wellNested {trees : List Tree} (hall : NestedAll trees) : WellNested (nestingOf trees) := by
  induction trees with
  | nil => exact .nil
  | cons t rest ih =>
      obtain ⟨hfirst, hrest⟩ := nestedAll_cons.mp hall
      exact hfirst.append (ih hrest)

@[simp] theorem nested_absent : Nested .absent := WellNested.nil

theorem nested_leaf {token : Token} (hkind : token.kind.isBracket = false) : Nested (.leaf token) := by
  rw [Nested, nesting, Token.brackets_singleton_of_not hkind]
  exact .nil

theorem nested_node_of_wellNested {label : Label} {children : List Tree} (hnested : WellNested (nestingOf children)) :
    Nested (.node label children) := by
  rw [Nested, nesting]
  split
  · exact .nil
  · exact hnested

theorem NestedAll.node {label : Label} {children : List Tree} (hall : NestedAll children) : Nested (.node label children) :=
  nested_node_of_wellNested hall.wellNested

/-- Trees between a bracket and the one that closes it. -/
theorem NestedAll.enclosed {label : Label} {trees : List Tree} {opener closer : Token} (hall : NestedAll trees)
    (hcloses : opener.kind.closer? = some closer.kind) : Nested (.node label (.leaf opener :: (trees ++ [.leaf closer]))) := by
  obtain ⟨hopens, -, -, hcloser⟩ := TokenKind.isCloser_of_closer? hcloses
  have hfirst : Token.brackets [opener] = [opener.kind] := by simp [Token.brackets, TokenKind.isBracket, hopens]
  have hlast : Token.brackets [closer] = [closer.kind] := by simp [Token.brackets, TokenKind.isBracket, hcloser]
  apply nested_node_of_wellNested
  simp only [nestingOf, nestingOf_append, nesting, hfirst, hlast, List.append_nil, List.singleton_append]
  exact .pair hcloses hall.wellNested .nil

end Tree

end SwiftObservation
