import SwiftObservation.Proofs.Migration.Edits

/-!
# What the rules recognise

Every rule is tried on a node whose children have been migrated, while the rules are about the source as it was read.
This is the same: migration keeps the labels of all nodes and all plain names, apart from those that it is there to
change, so a rule recognises in the migrated children what stood in the original ones.
-/

namespace SwiftObservation.Migration

open SwiftObservation.Tree

variable {names : List Text} {label : Label} {children : List Tree} {t : Tree}

theorem migrateAll_eq_map (names : List Text) (trees : List Tree) : migrateAll names trees = trees.map (migrate names) := by
  induction trees with
  | nil => rfl
  | cons t rest ih => rw [migrateAll, List.map_cons, ih]

theorem migrate_node : migrate names (.node label children) = migrateNode names label (children.map (migrate names)) := by
  rw [migrate, migrateAll_eq_map]

@[simp] theorem migrate_leaf {token : Token} : migrate names (.leaf token) = .leaf token := rfl

/-- The labels that a rule is for. -/
def ruled : List Label := [.typeDecl, .variableDecl, .attr, .call, .memberAccess]

/-- A node that no rule is for only has its children migrated. -/
theorem migrate_node_of_not_mem (label : Label) (hlabel : label ∉ ruled) :
    migrate names (.node label children) = .node label (children.map (migrate names)) := by
  rw [migrate_node]
  cases label <;> first | rfl | exact absurd hlabel (by decide)

/-! ### Labels and tokens -/

theorem label?_dropAttributes {doomed : Tree → Bool} : (dropAttributes doomed t).label? = t.label? := by
  unfold dropAttributes
  repeat' split
  all_goals rfl

theorem label?_migrateEnvironment : (migrateEnvironment t).label? = t.label? := by
  unfold migrateEnvironment
  repeat' split
  all_goals rfl

theorem label?_migrateType : (migrateType names t).label? = t.label? := by
  unfold migrateType
  split
  · split
    · dsimp only
      split
      · rfl
      · rfl
      · split <;> rfl
    · rfl
  · rfl

theorem label?_migrateAttribute (children : List Tree) : (migrateAttribute (.node .attr children)).label? = some .attr := by
  unfold migrateAttribute
  repeat' split
  all_goals rfl

theorem label?_migrateCall : (migrateCall t).label? = t.label? := by
  unfold migrateCall
  repeat' split
  all_goals rfl

theorem label?_migrateMember : (migrateMember t).label? = t.label? := by
  unfold migrateMember
  repeat' split
  all_goals rfl

theorem label?_migrateNode (names : List Text) (label : Label) (children : List Tree) :
    (migrateNode names label children).label? = some label := by
  unfold migrateNode
  split
  · exact label?_migrateType
  · rw [migrateVariables, label?_dropAttributes, label?_migrateEnvironment, label?]
  · exact label?_migrateAttribute children
  · exact label?_migrateCall
  · exact label?_migrateMember
  · rfl

theorem exists_migrateNode (names : List Text) (label : Label) (children : List Tree) :
    ∃ children', migrateNode names label children = .node label children' := by
  have hlabel := label?_migrateNode names label children
  cases hnode : migrateNode names label children with
  | leaf token => simp [hnode, label?] at hlabel
  | absent => simp [hnode, label?] at hlabel
  | node label' children' =>
      rw [hnode, label?, Option.some.injEq] at hlabel
      exact ⟨children', by rw [hlabel]⟩

@[simp] theorem is_migrate (t : Tree) (label : Label) : (migrate names t).is label = t.is label := by
  cases t with
  | leaf token => rfl
  | absent => rfl
  | node label' children => rw [migrate_node, Tree.is, label?_migrateNode, Tree.is, label?]

@[simp] theorem token?_migrate (t : Tree) : (migrate names t).token? = t.token? := by
  cases t with
  | leaf token => rfl
  | absent => rfl
  | node label children =>
      obtain ⟨children', hnode⟩ := exists_migrateNode names label (children.map (migrate names))
      rw [migrate_node, hnode]
      rfl

theorem isLeaf_migrate (t : Tree) (kind : TokenKind) : (migrate names t).isLeaf kind = t.isLeaf kind := by
  rw [isLeaf, token?_migrate, isLeaf]

/-! ### Attributes -/

/-- The plain name of an attribute is in a child that migration leaves alone. -/
theorem attributeName?_map_migrate :
    attributeName? (.node label (children.map (migrate names))) = attributeName? (.node label children) := by
  rcases children with _ | ⟨_, _ | ⟨_ | ⟨inner, parts⟩ | _, _⟩⟩
  case cons.cons.node =>
    by_cases hinner : inner = .typeIdentifier
    · subst hinner
      simp only [attributeName?, Tree.children, List.map_cons,
        migrate_node_of_not_mem .typeIdentifier (by decide)]
      rcases parts with _ | ⟨_ | ⟨deep, deeper⟩ | _, _ | ⟨_, _⟩⟩
      case cons.node.nil =>
        obtain ⟨deeper', hnode⟩ := exists_migrateNode names deep (deeper.map (migrate names))
        simp [migrate_node, hnode]
      all_goals simp [migrate]
    · obtain ⟨parts', hnode⟩ := exists_migrateNode names inner (parts.map (migrate names))
      simp only [attributeName?, Tree.children, List.map_cons, migrate_node, hnode]
      cases inner <;> first | rfl | exact absurd rfl hinner
  all_goals rfl

theorem isNamed_map_migrate {name : Text} :
    isNamed name (.node label (children.map (migrate names))) = isNamed name (.node label children) := by
  rw [isNamed, attributeName?_map_migrate, isNamed]

theorem exists_of_isNamed {name : Text} (hnamed : isNamed name (.node label children) = true) :
    ∃ sign token rest, children = sign :: .node .typeIdentifier [.leaf token] :: rest ∧ token.text = name := by
  rw [isNamed, beq_iff_eq] at hnamed
  unfold attributeName? at hnamed
  split at hnamed
  next sign token rest hchildren => exact ⟨sign, token, rest, hchildren, Option.some.inj hnamed⟩
  next => simp at hnamed

/-- An attribute that keeps its name is an attribute with migrated children. -/
theorem migrate_attr_of_not_isNamed (hstate : isNamed stateObjectName (.node .attr children) = false)
    (hobserved : isNamed observedObjectName (.node .attr children) = false) :
    migrate names (.node .attr children) = .node .attr (children.map (migrate names)) := by
  rw [migrate_node, migrateNode, migrateAttribute]
  split
  · simp [isNamed_map_migrate, hstate, hobserved]
  · rfl

@[simp] theorem migrate_plainName {token : Token} :
    migrate names (.node .typeIdentifier [.leaf token]) = .node .typeIdentifier [.leaf token] := rfl

theorem isNamed_plainName {name : Text} {sign : Tree} {token : Token} {rest : List Tree} :
    isNamed name (.node label (sign :: .node .typeIdentifier [.leaf token] :: rest)) = (token.text == name) := rfl

/-- The wrapper of an owned object only gets its successor's name. -/
theorem migrate_attr_stateObject {sign : Tree} {token : Token} {rest : List Tree}
    (hname : token.text = stateObjectName) :
    migrate names (.node .attr (sign :: .node .typeIdentifier [.leaf token] :: rest)) =
      .node .attr (migrate names sign :: .node .typeIdentifier [.leaf { token with text := stateName }] ::
        rest.map (migrate names)) := by
  rw [migrate_node, migrateNode, migrateAttribute]
  simp [Tree.children, isNamed_plainName, hname, rename]

/-- The wrapper of a given object is erased. -/
theorem migrate_attr_observedObject {sign token : Token} {rest : List Tree}
    (hname : token.text = observedObjectName) :
    migrate names (.node .attr (.leaf sign :: .node .typeIdentifier [.leaf token] :: rest)) = erased sign := by
  have hother : observedObjectName ≠ stateObjectName := by decide
  rw [migrate_node, migrateNode, migrateAttribute]
  simp [Tree.children, isNamed_plainName, hname, hother]

/-- Migration changes no plain name but those of the wrappers it is there for. -/
theorem isNamed_migrate {name : Text} (hname : name ∉ [stateObjectName, observedObjectName, stateName])
    (ht : Shaped (.node .attr children)) :
    isNamed name (migrate names (.node .attr children)) = isNamed name (.node .attr children) := by
  simp only [List.mem_cons, List.not_mem_nil, or_false, not_or] at hname
  cases hstate : isNamed stateObjectName (.node .attr children) with
  | true =>
      obtain ⟨sign, token, rest, rfl, htoken⟩ := exists_of_isNamed hstate
      rw [migrate_attr_stateObject htoken, isNamed_plainName, isNamed_plainName, htoken]
      rw [beq_eq_false_iff_ne.mpr (Ne.symm hname.2.2), beq_eq_false_iff_ne.mpr (Ne.symm hname.1)]
  | false =>
      cases hobserved : isNamed observedObjectName (.node .attr children) with
      | true =>
          obtain ⟨sign, token, rest, rfl, htoken⟩ := exists_of_isNamed hobserved
          obtain ⟨at', _, _, hchildren, -⟩ := ht.admits
          obtain ⟨rfl, -⟩ := List.cons.inj hchildren
          rw [migrate_attr_observedObject htoken, isNamed_plainName, htoken]
          rw [beq_eq_false_iff_ne.mpr (Ne.symm hname.2.1)]
          rfl
      | false => rw [migrate_attr_of_not_isNamed hstate hobserved, isNamed_map_migrate]

/-! ### Types and labels of arguments -/

theorem find?_is_map_migrate (trees : List Tree) (label : Label) :
    (trees.map (migrate names)).find? (·.is label) = (trees.find? (·.is label)).map (migrate names) := by
  rw [List.find?_map]
  congr 2
  funext t
  exact is_migrate t label

theorem plainType?_migrate (children : List Tree) :
    plainType? (migrate names (.node .binding children)) =
      (plainType? (.node .binding children)).map (migrate names) := by
  rw [migrate_node_of_not_mem .binding (by decide)]
  unfold plainType?
  rw [child?, Tree.children, find?_is_map_migrate, child?, Tree.children]
  cases hclause : children.find? (·.is .typeClause) with
  | none => rfl
  | some clause =>
      obtain ⟨parts, rfl⟩ := exists_of_is (show clause.is .typeClause = true by simpa using List.find?_some hclause)
      rw [Option.map_some, migrate_node_of_not_mem .typeClause (by decide)]
      rcases parts with _ | ⟨_, _ | ⟨bound, _⟩⟩
      · rfl
      · rfl
      · simp only [bind, Option.bind, Tree.children, List.map_cons, is_migrate]
        split <;> rfl

@[simp] theorem isPlainlyTyped_migrate (t : Tree) : isPlainlyTyped (migrate names t) = isPlainlyTyped t := by
  rw [isPlainlyTyped, isPlainlyTyped, is_migrate]
  cases hbinding : t.is .binding with
  | false => rfl
  | true =>
      obtain ⟨children, rfl⟩ := exists_of_is hbinding
      rw [plainType?_migrate, Option.isSome_map]

@[simp] theorem isWrappedValue_migrate (t : Tree) : isWrappedValue (migrate names t) = isWrappedValue t := by
  rw [isWrappedValue, isWrappedValue, is_migrate]
  cases hargument : t.is .argument with
  | false => rfl
  | true =>
      obtain ⟨children, rfl⟩ := exists_of_is hargument
      rw [migrate_node_of_not_mem .argument (by decide)]
      match children with
      | [] => rfl
      | [.leaf _] => rfl
      | [.absent] => rfl
      | [.node _ _] => simp [Tree.children]
      | .leaf _ :: _ :: _ => rfl
      | .absent :: _ :: _ => rfl
      | .node inner parts :: _ :: _ =>
          obtain ⟨parts', hnode⟩ := exists_migrateNode names inner (parts.map (migrate names))
          simp [Tree.children, migrate_node, hnode]

/-! ### Entries of an inheritance clause -/

/-- What stands between the trivia in front of the first and behind the last of some tokens holds all their texts. -/
theorem exists_textOf_eq (first : Token) (rest : List Token) :
    ∃ core, Token.textOf (first :: rest) = first.leading ++ core ++ (rest.getLastD first).trailing ∧
      ∀ token ∈ first :: rest, ∀ ch ∈ token.text, ch ∈ core := by
  induction rest generalizing first with
  | nil => exact ⟨first.text, by simp [Token.fullText], by simp⟩
  | cons second rest ih =>
      obtain ⟨core, hcore, hall⟩ := ih second
      refine ⟨first.text ++ first.trailing ++ second.leading ++ core, ?_, ?_⟩
      · rw [Token.textOf_cons, hcore, List.getLastD_cons]
        simp [Token.fullText]
      · intro token htoken ch hch
        rcases List.mem_cons.mp htoken with rfl | htoken
        · simp [hch]
        · simp [hall token htoken ch hch]

theorem innerText_eq {first : Token} {rest : List Token} (hleaves : t.leaves = first :: rest) {core : Text}
    (hcore : Token.textOf (first :: rest) = first.leading ++ core ++ (rest.getLastD first).trailing) :
    t.innerText = core := by
  rw [innerText, hleaves, text, hleaves, hcore]
  dsimp only
  have hlength : (first.leading ++ core ++ (rest.getLastD first).trailing).length -
      (rest.getLastD first).trailing.length - first.leading.length = core.length := by
    simp only [List.length_append]
    omega
  rw [hlength, List.append_assoc, List.drop_left, List.take_left]

theorem mem_innerText {first : Token} {rest : List Token} (hleaves : t.leaves = first :: rest) (token : Token)
    (htoken : token ∈ first :: rest) {ch : Char} (hch : ch ∈ token.text) : ch ∈ t.innerText := by
  obtain ⟨core, hcore, hall⟩ := exists_textOf_eq first rest
  rw [innerText_eq hleaves hcore]
  exact hall token htoken ch hch

theorem isProtocolEntry_plainName {token : Token} {rest : List Tree} :
    isProtocolEntry (.node label (.node .typeIdentifier [.leaf token] :: rest)) = (token.text == observableProtocol) := by
  have hinner : innerText (.node .typeIdentifier [.leaf token]) = token.text :=
    @innerText_eq _ token [] rfl token.text (by simp [Token.fullText])
  simp [isProtocolEntry, Tree.children, hinner]

/-- A type with generic arguments is not the protocol: its text holds the bracket that opens them. -/
theorem isProtocolEntry_genericArgs {token opener : Token} (hopener : opener.isOperatorFrom '<' = true)
    {args parts rest : List Tree} :
    isProtocolEntry (.node label (.node .typeIdentifier (.leaf token :: .node .genericArgs (.leaf opener :: args) :: parts) ::
      rest)) = false := by
  have hmem : '<' ∈ innerText (.node .typeIdentifier (.leaf token :: .node .genericArgs (.leaf opener :: args) :: parts)) := by
    refine mem_innerText rfl opener (by simp [leaves, leavesOf]) ?_
    simp only [Token.isOperatorFrom, Bool.and_eq_true] at hopener
    cases htext : opener.text with
    | nil => simp [htext, Text.startsWith] at hopener
    | cons head more =>
        have hhead : head = '<' := by simpa [htext, Text.startsWith] using hopener.2
        simp [hhead]
  simp only [isProtocolEntry, Tree.children, is_node, beq_self_eq_true, Bool.true_and, beq_eq_false_iff_ne]
  intro heq
  rw [heq] at hmem
  exact absurd hmem (by decide)

/-- The first type of an entry, in full. -/
theorem Shaped.entry_cases {children : List Tree} (ht : Shaped (.node .inheritedType children)) :
    (∃ token rest, children = .node .typeIdentifier [.leaf token] :: rest) ∨
      (∃ token opener args rest, children = .node .typeIdentifier [.leaf token, .node .genericArgs (.leaf opener :: args)] ::
        rest ∧ opener.isOperatorFrom '<' = true) ∨
      ∃ label parts rest, children = .node label parts :: rest ∧ label ≠ .typeIdentifier := by
  obtain ⟨label, parts, comma, rfl, -⟩ := ht.admits
  by_cases hlabel : label = .typeIdentifier
  · subst hlabel
    obtain ⟨token, args, rfl, -⟩ := (ht.of_mem (by simp) : Shaped (.node .typeIdentifier parts)).admits
    cases args with
    | none => exact .inl ⟨token, _, rfl⟩
    | some args =>
        have hinner : Shaped (.node .typeIdentifier (.leaf token :: optional .genericArgs (some args))) :=
          ht.of_mem (by simp)
        obtain ⟨opener, more, rfl, hopener⟩ :=
          (hinner.of_mem (by simp [Tree.optional]) : Shaped (.node .genericArgs args)).admits
        exact .inr (.inl ⟨token, opener, more, _, rfl, hopener⟩)
  · exact .inr (.inr ⟨label, parts, _, rfl, hlabel⟩)

theorem isProtocolEntry_migrate (ht : Shaped (.node .inheritedType children)) :
    isProtocolEntry (migrate names (.node .inheritedType children)) = namesProtocol (.node .inheritedType children) := by
  rw [migrate_node_of_not_mem .inheritedType (by decide)]
  obtain ⟨token, rest, rfl⟩ | ⟨token, opener, args, rest, rfl, hopener⟩ | ⟨label, parts, rest, rfl, hlabel⟩ :=
    Shaped.entry_cases ht
  · rw [List.map_cons, migrate_plainName, isProtocolEntry_plainName]
    rfl
  · simp only [List.map_cons, migrate_node_of_not_mem .typeIdentifier (by decide),
      migrate_node_of_not_mem .genericArgs (by decide), migrate_leaf]
    rw [isProtocolEntry_genericArgs hopener]
    rfl
  · simp [isProtocolEntry, namesProtocol, Tree.children, hlabel]

end SwiftObservation.Migration
