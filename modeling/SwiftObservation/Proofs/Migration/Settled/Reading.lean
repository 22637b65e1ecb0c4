import Mathlib.Data.List.Basic
import SwiftObservation.Migration.Evidence
import SwiftObservation.Proofs.Migration.Recognition

/-!
# How a tree reads

Neither pass over a tree looks at trivia, and neither looks at one more thing in which a migrated tree differs from what
is read back: the type that moves into the lookup of an object is a plain type there, while in front of a member the
grammar reads a name. `asRead` forgets both, and all that the two passes ask about a tree has the same answer for the tree
as it reads.
-/

namespace SwiftObservation.Migration

open SwiftObservation.Tree

variable {names : List Text} {label : Label} {children : List Tree} {t : Tree}

/-- The token without its trivia. -/
def bareToken (token : Token) : Token := { kind := token.kind, text := token.text }

/-- The children of a node with a plain type in front of a member taken for a name. -/
def named : Label → List Tree → List Tree
  | .memberAccess, [.node .typeIdentifier [.leaf name], dot, member] => [.leaf name, dot, member]
  | _, children => children

mutual

/-- The tree as it reads: without trivia, and with plain types in front of members taken for names. -/
def asRead : Tree → Tree
  | .leaf token => .leaf (bareToken token)
  | .node label children => .node label (named label (asReadAll children))
  | .absent => .absent

/-- Several trees as they read. -/
def asReadAll : List Tree → List Tree
  | [] => []
  | t :: rest => asRead t :: asReadAll rest

end

theorem asReadAll_eq_map (trees : List Tree) : asReadAll trees = trees.map asRead := by
  induction trees with
  | nil => rfl
  | cons t rest ih => rw [asReadAll, List.map_cons, ih]

theorem asRead_node : asRead (.node label children) = .node label (named label (children.map asRead)) := by
  rw [asRead, asReadAll_eq_map]

@[simp] theorem asRead_leaf {token : Token} : asRead (.leaf token) = .leaf (bareToken token) := rfl

@[simp] theorem asRead_absent : asRead .absent = .absent := rfl

theorem named_of_ne (hlabel : label ≠ .memberAccess) (children : List Tree) : named label children = children := by
  unfold named
  split
  next => exact absurd rfl hlabel
  next => rfl

theorem asRead_node_of_ne (hlabel : label ≠ .memberAccess) :
    asRead (.node label children) = .node label (children.map asRead) := by
  rw [asRead_node, named_of_ne hlabel]

/-- The children differ in the first one of three, if at all. -/
theorem named_cases (label : Label) (children : List Tree) :
    named label children = children ∨
      ∃ name dot member, children = [.node .typeIdentifier [.leaf name], dot, member] ∧
        named label children = [.leaf name, dot, member] := by
  unfold named
  split
  next name dot member => exact .inr ⟨name, dot, member, rfl, rfl⟩
  next => exact .inl rfl

mutual

/-- Trivia is no matter to how a tree reads. -/
theorem asRead_bare (t : Tree) : asRead t.bare = asRead t := by
  cases t with
  | leaf token => rfl
  | absent => rfl
  | node label children => rw [bare, asRead, asRead, asReadAll_bareAll]

theorem asReadAll_bareAll (trees : List Tree) : asReadAll (bareAll trees) = asReadAll trees := by
  cases trees with
  | nil => rfl
  | cons t rest => rw [bareAll, asReadAll, asReadAll, asRead_bare, asReadAll_bareAll]

end

/-- Whatever the tree as it reads decides is the same for trees that differ in trivia only. -/
theorem eq_of_bare {α : Type} {f : Tree → α} (hf : ∀ t, f (asRead t) = f t) {s : Tree} (hbare : s.bare = t.bare) :
    f s = f t := by
  rw [← hf s, ← asRead_bare, hbare, asRead_bare, hf]

@[simp] theorem is_asRead (t : Tree) (label : Label) : (asRead t).is label = t.is label := by
  cases t <;> rfl

theorem token?_asRead (t : Tree) : (asRead t).token? = t.token?.map bareToken := by
  cases t <;> rfl

theorem isLeaf_asRead (t : Tree) (kind : TokenKind) : (asRead t).isLeaf kind = t.isLeaf kind := by
  cases t <;> rfl

theorem any_map_asRead {p : Tree → Bool} (hp : ∀ t, p (asRead t) = p t) (trees : List Tree) :
    (trees.map asRead).any p = trees.any p := by
  rw [List.any_map]
  congr 1
  funext t
  exact hp t

theorem find?_map_asRead {p : Tree → Bool} (hp : ∀ t, p (asRead t) = p t) (trees : List Tree) :
    (trees.map asRead).find? p = (trees.find? p).map asRead := by
  rw [List.find?_map]
  congr 2
  funext t
  exact hp t

theorem child?_asRead (hlabel : label ≠ .memberAccess) (inner : Label) :
    (asRead (.node label children)).child? inner = ((Tree.node label children).child? inner).map asRead := by
  rw [asRead_node_of_ne hlabel, child?, Tree.children, find?_map_asRead fun t => is_asRead t inner]
  rfl

theorem childrenWith_asRead (hlabel : label ≠ .memberAccess) (inner : Label) :
    (asRead (.node label children)).childrenWith inner = ((Tree.node label children).childrenWith inner).map asRead := by
  rw [asRead_node_of_ne hlabel, childrenWith, Tree.children, List.filter_map, childrenWith]
  congr 2
  funext t
  exact is_asRead t inner

/-! ### Attributes and expressions -/

/-- The first child of an attribute is no part of its name. -/
theorem attributeName?_cons (sign sign' : Tree) (rest : List Tree) :
    attributeName? (.node label (sign :: rest)) = attributeName? (.node label (sign' :: rest)) := by
  simp only [attributeName?, Tree.children]
  split
  next heq =>
    obtain ⟨-, rfl⟩ := List.cons.inj heq
    rfl
  next hother =>
    split
    next heq =>
      obtain ⟨-, rfl⟩ := List.cons.inj heq
      exact absurd rfl (hother sign _ _)
    next => rfl

theorem attributeName?_asRead (t : Tree) : attributeName? (asRead t) = attributeName? t := by
  cases t with
  | leaf token => rfl
  | absent => rfl
  | node label children =>
      have hnamed : attributeName? (.node label (named label (children.map asRead))) =
          attributeName? (.node label (children.map asRead)) := by
        obtain heq | ⟨name, dot, member, hchildren, heq⟩ := named_cases label (children.map asRead)
        · rw [heq]
        · rw [heq, hchildren, attributeName?_cons]
      rw [asRead_node, hnamed]
      match children with
      | [] => rfl
      | [_] => rfl
      | _ :: .leaf _ :: _ => rfl
      | _ :: .absent :: _ => rfl
      | _ :: .node inner parts :: _ =>
          by_cases hinner : inner = .typeIdentifier
          · subst hinner
            rw [List.map_cons, List.map_cons, asRead_node_of_ne (by decide)]
            match parts with
            | [] => rfl
            | [.leaf _] => rfl
            | [.absent] => rfl
            | [.node _ _] => rfl
            | _ :: _ :: _ => simp [attributeName?, Tree.children]
          · rw [List.map_cons, List.map_cons, asRead_node]
            cases inner <;> first | rfl | exact absurd rfl hinner

@[simp] theorem isNamed_asRead (name : Text) (t : Tree) : isNamed name (asRead t) = isNamed name t := by
  rw [isNamed, attributeName?_asRead, isNamed]

theorem isErased_asRead (t : Tree) : isErased (asRead t) = isErased t := by
  cases t with
  | leaf token => rfl
  | absent => rfl
  | node label children =>
      have hnamed : isErased (.node label (named label (children.map asRead))) =
          isErased (.node label (children.map asRead)) := by
        obtain heq | ⟨name, dot, member, hchildren, heq⟩ := named_cases label (children.map asRead)
        · rw [heq]
        · rw [heq, hchildren]
          rfl
      rw [asRead_node, hnamed]
      match children with
      | [] => rfl
      | [.leaf _] => rfl
      | [.absent] => rfl
      | [.node _ _] => rfl
      | _ :: _ :: _ => simp [isErased, Tree.children]

theorem length_children_asRead (t : Tree) : (asRead t).children.length = t.children.length := by
  cases t with
  | leaf token => rfl
  | absent => rfl
  | node label children =>
      have hlength : (children.map asRead).length = children.length := List.length_map asRead
      rw [asRead_node, Tree.children, Tree.children, ← hlength]
      obtain heq | ⟨name, dot, member, hchildren, heq⟩ := named_cases label (children.map asRead)
      · rw [heq]
      · rw [heq, hchildren]
        rfl

theorem isPlainlyTyped_asRead (t : Tree) : isPlainlyTyped (asRead t) = isPlainlyTyped t := by
  rw [isPlainlyTyped, isPlainlyTyped, is_asRead]
  cases hbinding : t.is .binding with
  | false => rfl
  | true =>
      obtain ⟨children, rfl⟩ := exists_of_is hbinding
      rw [plainType?, plainType?, child?_asRead (by decide)]
      cases hclause : (Tree.node .binding children).child? .typeClause with
      | none => rfl
      | some clause =>
          have hlabel : clause.is .typeClause = true := by simpa using List.find?_some hclause
          obtain ⟨parts, rfl⟩ := exists_of_is hlabel
          rw [Option.map_some, asRead_node_of_ne (by decide)]
          rcases parts with _ | ⟨_, _ | ⟨bound, _⟩⟩
          · rfl
          · rfl
          · simp only [Option.bind_eq_bind, Option.bind_some, Tree.children, List.map_cons, is_asRead]
            split <;> rfl

theorem isWrappedValue_asRead (t : Tree) : isWrappedValue (asRead t) = isWrappedValue t := by
  rw [isWrappedValue, isWrappedValue, is_asRead]
  cases hargument : t.is .argument with
  | false => rfl
  | true =>
      obtain ⟨children, rfl⟩ := exists_of_is hargument
      rw [asRead_node_of_ne (by decide)]
      rcases children with _ | ⟨_ | _ | _, _ | _⟩ <;> rfl

theorem callRoles_map_asRead (children : List Tree) : callRoles (children.map asRead) = callRoles children := by
  match children with
  | [] => rfl
  | [.leaf _] => rfl
  | [.absent] => rfl
  | [.node _ _] => rfl
  | .absent :: _ :: _ => rfl
  | .node _ _ :: _ :: _ => rfl
  | .leaf _ :: .leaf _ :: _ => rfl
  | .leaf _ :: .absent :: _ => rfl
  | .leaf callee :: .node inner args :: _ =>
      rw [List.map_cons, List.map_cons]
      by_cases hinner : inner = .arguments
      · subst hinner
        rw [asRead_node_of_ne (by decide), asRead_leaf, callRoles, callRoles, any_map_asRead isWrappedValue_asRead]
        rfl
      · rw [asRead_node]
        cases inner <;> first | rfl | exact absurd rfl hinner

theorem memberRoles_named (children : List Tree) : memberRoles (named .memberAccess children) = memberRoles children := by
  obtain heq | ⟨name, dot, member, hchildren, heq⟩ := named_cases .memberAccess children
  · rw [heq]
  · rw [heq, hchildren]
    cases member <;> rfl

theorem memberRoles_map_asRead (children : List Tree) : memberRoles (children.map asRead) = memberRoles children := by
  match children with
  | [] => rfl
  | [_] => rfl
  | [_, _] => rfl
  | [_, _, .leaf _] => rfl
  | [_, _, .absent] => rfl
  | [_, _, .node _ _] => rfl
  | _ :: _ :: _ :: _ :: _ => simp [memberRoles]

/-! ### Inheritance clauses -/

theorem namesProtocol_asRead (hlabel : t.is .inheritedType = true) : namesProtocol (asRead t) = namesProtocol t := by
  obtain ⟨children, rfl⟩ := exists_of_is hlabel
  rw [asRead_node_of_ne (by decide)]
  match children with
  | [] => rfl
  | .leaf _ :: _ => rfl
  | .absent :: _ => rfl
  | .node inner parts :: _ =>
      rw [List.map_cons]
      by_cases hinner : inner = .typeIdentifier
      · subst hinner
        rw [asRead_node_of_ne (by decide)]
        match parts with
        | [] => rfl
        | [.leaf _] => rfl
        | [.absent] => rfl
        | [.node _ _] => rfl
        | _ :: _ :: _ => simp [namesProtocol, Tree.children]
      · rw [asRead_node]
        cases inner <;> first | rfl | exact absurd rfl hinner

theorem endsInComma_asRead (hlabel : t.is .inheritedType = true) : (asRead t).endsInComma = t.endsInComma := by
  obtain ⟨children, rfl⟩ := exists_of_is hlabel
  rw [asRead_node_of_ne (by decide), endsInComma, endsInComma, Tree.children, Tree.children, List.getLast?_map]
  cases children.getLast? with
  | none => rfl
  | some last => exact isLeaf_asRead last .comma

theorem inheritedEntries_map_asRead (children : List Tree) :
    inheritedEntries (children.map asRead) = (inheritedEntries children).map asRead := by
  rw [inheritedEntries, find?_map_asRead fun t => is_asRead t .inheritance, inheritedEntries]
  cases hclause : children.find? (·.is .inheritance) with
  | none => rfl
  | some clause =>
      have hlabel : clause.is .inheritance = true := by simpa using List.find?_some hclause
      obtain ⟨parts, rfl⟩ := exists_of_is hlabel
      rw [Option.map_some, asRead_node_of_ne (by decide)]
      simp [Tree.children, List.map_tail]

/-- What is asked about all entries of a clause, or about some, reads the same. -/
theorem any_entries_asRead {entries : List Tree} (hentries : ∀ entry ∈ entries, entry.is .inheritedType = true) :
    (entries.map asRead).any namesProtocol = entries.any namesProtocol ∧
      ((entries.map asRead).all fun entry => namesProtocol entry && entry.endsInComma) =
        entries.all fun entry => namesProtocol entry && entry.endsInComma := by
  induction entries with
  | nil => exact ⟨rfl, rfl⟩
  | cons entry rest ih =>
      obtain ⟨hany, hall⟩ := ih fun e he => hentries e (by simp [he])
      have hlabel := hentries entry (by simp)
      rw [List.map_cons, List.any_cons, List.all_cons, hany, hall, namesProtocol_asRead hlabel, endsInComma_asRead hlabel]
      exact ⟨rfl, rfl⟩

theorem isConverted_map_asRead (names : List Text)
    (hentries : ∀ entry ∈ inheritedEntries children, entry.is .inheritedType = true) :
    isConverted names (children.map asRead) = isConverted names children := by
  match children with
  | [] => rfl
  | [_] => rfl
  | [_, _] => rfl
  | [_, _, .leaf _] => rfl
  | [_, _, .absent] => rfl
  | [_, _, .node _ _] => rfl
  | _ :: _ :: .absent :: _ :: _ => rfl
  | _ :: _ :: .node _ _ :: _ :: _ => rfl
  | attributes :: modifiers :: .leaf keyword :: name :: rest =>
      have hmap := inheritedEntries_map_asRead (attributes :: modifiers :: .leaf keyword :: name :: rest)
      obtain ⟨hany, hall⟩ := any_entries_asRead hentries
      rw [← hmap] at hany hall
      have hname : (asRead name).token?.any (names.contains ·.text) = name.token?.any (names.contains ·.text) := by
        cases name <;> rfl
      rw [List.map_cons, List.map_cons, List.map_cons, List.map_cons, asRead_leaf] at hany hall ⊢
      simp only [isConverted, hany, hall, hname]
      rfl

/-! ### What a node shows -/

/-- The names that a node shows to be observable. -/
def shownNames (t : Tree) : List Text := (nodeEvidence t).filterMap (·.name?)

/-- The name that a member shows to be observable, in a structure with the given generic parameters. -/
def shownBy (params : List Text) (member : Tree) : Option Text :=
  if hasWrapper member then ((candidate? member).map (·.text)).filter (!params.contains ·) else none

theorem memberEvidence?_name? (declaration : Text) (params : List Text) (member : Tree) :
    (memberEvidence? declaration params member).bind (·.name?) = shownBy params member := by
  rw [memberEvidence?, shownBy]
  cases hasWrapper member with
  | false => rfl
  | true =>
      cases candidate? member with
      | none => rfl
      | some candidate => by_cases hparam : candidate.text ∈ params <;> simp [Evidence.name?, Option.filter, hparam]

/-- Only structures show anything, each by its members. -/
theorem shownNames_eq (attributes modifiers : Tree) (keyword name : Token) (rest : List Tree) :
    shownNames (.node .typeDecl (attributes :: modifiers :: .leaf keyword :: .leaf name :: rest)) =
      let t := Tree.node .typeDecl (attributes :: modifiers :: .leaf keyword :: .leaf name :: rest)
      if keyword.kind == .structWord then
        (((t.child? .memberBlock).map (·.childrenWith .variableDecl)).getD []).filterMap (shownBy (parameterNames t))
      else [] := by
  rw [shownNames, nodeEvidence]
  split
  · rw [List.filterMap_filterMap]
    congr 1
    funext member
    exact memberEvidence?_name? name.text _ member
  · rfl

mutual

theorem first?_asRead (t : Tree) : (asRead t).first? = t.first?.map bareToken := by
  cases t with
  | leaf token => rfl
  | absent => rfl
  | node label children =>
      have hnamed : firstOf? (named label (asReadAll children)) = firstOf? (asReadAll children) := by
        obtain heq | ⟨name, dot, member, hchildren, heq⟩ := named_cases label (asReadAll children)
        · rw [heq]
        · rw [heq, hchildren]
          rfl
      rw [asRead, first?, first?, hnamed, firstOf?_asReadAll]

theorem firstOf?_asReadAll (trees : List Tree) : firstOf? (asReadAll trees) = (firstOf? trees).map bareToken := by
  cases trees with
  | nil => rfl
  | cons t rest =>
      rw [asReadAll, firstOf?, firstOf?, first?_asRead, firstOf?_asReadAll]
      cases t.first? <;> rfl

end

theorem hasWrapper_asRead (hlabel : t.is .variableDecl = true) : hasWrapper (asRead t) = hasWrapper t := by
  obtain ⟨children, rfl⟩ := exists_of_is hlabel
  rw [hasWrapper, hasWrapper, child?_asRead (by decide)]
  cases hattributes : (Tree.node .variableDecl children).child? .attributes with
  | none => rfl
  | some attributes =>
      have hinner : attributes.is .attributes = true := by simpa using List.find?_some hattributes
      obtain ⟨found, rfl⟩ := exists_of_is hinner
      simp only [Option.map_some, Option.getD_some, childrenWith_asRead (show Label.attributes ≠ .memberAccess by decide)]
      exact any_map_asRead (fun t => by rw [attributeName?_asRead]) _

theorem parameterName?_asRead (hlabel : t.is .genericParam = true) : parameterName? (asRead t) = parameterName? t := by
  obtain ⟨children, rfl⟩ := exists_of_is hlabel
  rw [asRead_node_of_ne (by decide), parameterName?, parameterName?, Tree.children, Tree.children, List.takeWhile_map]
  have hword : (fun t : Tree => t.token?.any (·.isWord)) ∘ asRead = fun t => t.token?.any (·.isWord) := by
    funext t
    rw [Function.comp_apply, token?_asRead, Option.any_map]
    rfl
  rw [hword, List.getLast?_map]
  cases (children.takeWhile fun t => t.token?.any (·.isWord)).getLast? with
  | none => rfl
  | some last =>
      simp only [Option.map_some, Option.bind_some, token?_asRead, Option.map_map]
      rfl

theorem parameterNames_asRead (hlabel : t.is .typeDecl = true) : parameterNames (asRead t) = parameterNames t := by
  obtain ⟨children, rfl⟩ := exists_of_is hlabel
  rw [parameterNames, parameterNames, child?_asRead (by decide)]
  cases hparams : (Tree.node .typeDecl children).child? .genericParams with
  | none => rfl
  | some params =>
      have hinner : params.is .genericParams = true := by simpa using List.find?_some hparams
      obtain ⟨parts, rfl⟩ := exists_of_is hinner
      simp only [Option.map_some, Option.getD_some, childrenWith_asRead (show Label.genericParams ≠ .memberAccess by decide),
        List.filterMap_map]
      exact List.filterMap_congr fun param hmem => parameterName?_asRead (List.mem_filter.mp hmem).2

theorem clauseCandidate?_asRead (hlabel : t.is .binding = true) :
    clauseCandidate? (asRead t) = (clauseCandidate? t).map bareToken := by
  obtain ⟨children, rfl⟩ := exists_of_is hlabel
  rw [clauseCandidate?, clauseCandidate?, child?_asRead (by decide)]
  cases hclause : (Tree.node .binding children).child? .typeClause with
  | none => rfl
  | some clause =>
      have hinner : clause.is .typeClause = true := by simpa using List.find?_some hclause
      obtain ⟨parts, rfl⟩ := exists_of_is hinner
      rw [Option.map_some, asRead_node_of_ne (by decide)]
      simp only [Option.bind_eq_bind, Option.bind_some, Tree.children, List.getElem?_map]
      cases parts[1]? with
      | none => rfl
      | some bound =>
          simp only [Option.map_some, Option.bind_some, is_asRead, first?_asRead]
          split <;> rfl

/-- The callee of a single call of an identifier. -/
def singleCallee? : List Tree → Option Token
  | [.node .call (.leaf callee :: _)] => if callee.kind == .identifier then some callee else none
  | _ => none

theorem valueCandidate?_eq (t : Tree) : valueCandidate? t =
    ((t.child? .initialValue).bind (·.children[1]?)).bind fun expr => singleCallee? expr.children := by
  rw [valueCandidate?]
  cases t.child? .initialValue <;> rfl

theorem singleCallee?_asRead (t : Tree) : singleCallee? (asRead t).children = (singleCallee? t.children).map bareToken := by
  cases t with
  | leaf token => rfl
  | absent => rfl
  | node label children =>
      have hnamed : singleCallee? (named label (children.map asRead)) = singleCallee? (children.map asRead) := by
        obtain heq | ⟨name, dot, member, hchildren, heq⟩ := named_cases label (children.map asRead)
        · rw [heq]
        · rw [heq, hchildren]
          rfl
      rw [asRead_node, Tree.children, Tree.children, hnamed]
      rcases children with _ | ⟨element, _ | ⟨_, _⟩⟩
      · rfl
      · cases element with
        | leaf | absent => rfl
        | node inner parts =>
            rw [List.map_singleton]
            by_cases hinner : inner = .call
            · subst hinner
              rw [asRead_node_of_ne (by decide)]
              rcases parts with _ | ⟨callee | _ | _, _⟩
              · rfl
              · rw [List.map_cons, asRead_leaf, singleCallee?, singleCallee?]
                split <;> simp_all [bareToken]
              · rfl
              · rfl
            · rw [asRead_node]
              cases inner <;> first | rfl | exact absurd rfl hinner
      · simp [singleCallee?]

theorem valueCandidate?_asRead (hlabel : t.is .binding = true) :
    valueCandidate? (asRead t) = (valueCandidate? t).map bareToken := by
  obtain ⟨children, rfl⟩ := exists_of_is hlabel
  rw [valueCandidate?_eq, valueCandidate?_eq, child?_asRead (by decide)]
  cases hvalue : (Tree.node .binding children).child? .initialValue with
  | none => rfl
  | some value =>
      have hinner : value.is .initialValue = true := by simpa using List.find?_some hvalue
      obtain ⟨parts, rfl⟩ := exists_of_is hinner
      rw [Option.map_some, asRead_node_of_ne (by decide)]
      simp only [Option.bind_some, Tree.children, List.getElem?_map]
      cases parts[1]? with
      | none => rfl
      | some expr => exact singleCallee?_asRead expr

theorem candidate?_asRead (hlabel : t.is .variableDecl = true) : candidate? (asRead t) = (candidate? t).map bareToken := by
  obtain ⟨children, rfl⟩ := exists_of_is hlabel
  rw [candidate?, candidate?, childrenWith_asRead (by decide), childrenWith]
  induction (Tree.node .variableDecl children).children with
  | nil => rfl
  | cons t rest ih =>
      by_cases hbinding : t.is .binding = true
      · rw [List.filter_cons, if_pos hbinding, List.map_cons, List.findSome?_cons, List.findSome?_cons,
          clauseCandidate?_asRead hbinding, valueCandidate?_asRead hbinding, ih]
        cases clauseCandidate? t with
        | some token => rfl
        | none => cases valueCandidate? t <;> rfl
      · rw [List.filter_cons, if_neg hbinding, ih]

theorem shownBy_asRead (params : List Text) (hlabel : t.is .variableDecl = true) :
    shownBy params (asRead t) = shownBy params t := by
  rw [shownBy, hasWrapper_asRead hlabel, candidate?_asRead hlabel, Option.map_map, shownBy]
  rfl

theorem shownNames_asRead (children : List Tree) :
    shownNames (.node .typeDecl (children.map asRead)) = shownNames (.node .typeDecl children) := by
  match children with
  | [] => rfl
  | [_] => rfl
  | [_, _] => rfl
  | [_, _, .leaf _] => rfl
  | [_, _, .absent] => rfl
  | [_, _, .node _ _] => rfl
  | _ :: _ :: .absent :: _ :: _ => rfl
  | _ :: _ :: .node _ _ :: _ :: _ => rfl
  | _ :: _ :: .leaf _ :: .absent :: _ => rfl
  | _ :: _ :: .leaf _ :: .node _ _ :: _ => rfl
  | attributes :: modifiers :: .leaf keyword :: .leaf name :: rest =>
      have hmap : (attributes :: modifiers :: .leaf keyword :: .leaf name :: rest).map asRead = asRead attributes ::
          asRead modifiers :: .leaf (bareToken keyword) :: .leaf (bareToken name) :: rest.map asRead := rfl
      rw [hmap, shownNames_eq, shownNames_eq, ← hmap]
      dsimp only
      rw [← asRead_node_of_ne (by decide), parameterNames_asRead rfl, child?_asRead (by decide)]
      cases hstruct : keyword.kind == .structWord with
      | false => simp only [bareToken, hstruct]; rfl
      | true =>
          simp only [bareToken, hstruct, if_true]
          cases hbody : (Tree.node .typeDecl (attributes :: modifiers :: .leaf keyword :: .leaf name :: rest)).child?
              .memberBlock with
          | none => rfl
          | some body =>
              have hlabel : body.is .memberBlock = true := by simpa using List.find?_some hbody
              obtain ⟨members, rfl⟩ := exists_of_is hlabel
              simp only [Option.map_some, Option.getD_some,
                childrenWith_asRead (show Label.memberBlock ≠ .memberAccess by decide), List.filterMap_map]
              exact List.filterMap_congr fun member hmem => shownBy_asRead _ (List.mem_filter.mp hmem).2

end SwiftObservation.Migration
