import Mathlib.Data.List.Basic
import SwiftObservation.Proofs.Migration.Following.Parts

/-!
# Classes follow their edits

A class that is converted loses its protocol and gains an attribute. Whether it is converted is decided by the class as
it was read, and the rule for it decides the same of its migrated parts. `ClassParts.leaveProtocol_cases` says once
what can become of the inheritance clause.
-/

namespace SwiftObservation.Migration

open SwiftObservation.Tree

variable {names : List Text} {label : Label} {t : Tree}

/-- The parts of a class. -/
structure ClassParts where
  attributes : List Tree
  modifiers : List Tree
  keyword : Token
  name : Token
  params : Option (List Tree)
  clause : Option (List Tree)
  requirements : Option (List Tree)
  members : List Tree
  isClass : keyword.kind = .classWord

namespace ClassParts

variable {p : ClassParts}

/-- The children of a class in front of its inheritance clause. -/
def head (p : ClassParts) : List Tree :=
  .node .attributes p.attributes :: .node .modifiers p.modifiers :: .leaf p.keyword :: .leaf p.name ::
    Tree.optional .genericParams p.params

/-- The children of a class behind its inheritance clause. -/
def tail (p : ClassParts) : List Tree := Tree.optional .whereClause p.requirements ++ [.node .memberBlock p.members]

/-- All children of a class. -/
def trees (p : ClassParts) : List Tree := p.head ++ (Tree.optional .inheritance p.clause ++ p.tail)

/-- The entries of the inheritance clause. -/
def entries (p : ClassParts) : List Tree := (p.clause.map List.tail).getD []

/-- The class with all of its parts migrated. -/
def migrated (names : List Text) (p : ClassParts) : ClassParts :=
  { p with
    attributes := p.attributes.map (migrate names)
    modifiers := p.modifiers.map (migrate names)
    params := p.params.map (·.map (migrate names))
    clause := p.clause.map (·.map (migrate names))
    requirements := p.requirements.map (·.map (migrate names))
    members := p.members.map (migrate names) }

@[simp] theorem migrated_name : (p.migrated names).name = p.name := rfl

theorem is_head (label : Label) (hlabel : label ∉ [.attributes, .modifiers, .genericParams]) :
    ∀ t ∈ p.head, t.is label = false := by
  simp only [List.mem_cons, List.not_mem_nil, or_false, not_or] at hlabel
  intro t hmem
  have hother : ∀ parts label', label ≠ label' → (Tree.node label' parts).is label = false := by
    intro parts label' hne
    simpa using fun heq => hne heq.symm
  cases hparams : p.params <;> simp [head, Tree.optional, hparams] at hmem <;>
    rcases hmem with rfl | rfl | rfl | rfl | rfl <;> first | rfl | exact hother _ _ (by tauto)

theorem is_inheritance_tail : ∀ t ∈ p.tail, t.is .inheritance = false := by
  cases hrequirements : p.requirements <;> simp [tail, Tree.optional, hrequirements]

theorem map_migrate_optional (hlabel : label ∉ ruled) (parts : Option (List Tree)) :
    (Tree.optional label parts).map (migrate names) = Tree.optional label (parts.map (·.map (migrate names))) := by
  cases parts with
  | none => rfl
  | some parts => simp [Tree.optional, migrate_node_of_not_mem label hlabel]

theorem map_migrate_head : p.head.map (migrate names) = (p.migrated names).head := by
  simp only [head, migrated, List.map_cons, map_migrate_optional (show Label.genericParams ∉ ruled by decide),
    migrate_leaf, migrate_node_of_not_mem .attributes (by decide), migrate_node_of_not_mem .modifiers (by decide)]

theorem map_migrate_tail : p.tail.map (migrate names) = (p.migrated names).tail := by
  simp only [tail, migrated, List.map_append, List.map_cons, List.map_nil,
    map_migrate_optional (show Label.whereClause ∉ ruled by decide), migrate_node_of_not_mem .memberBlock (by decide)]

theorem map_migrate_trees : p.trees.map (migrate names) = (p.migrated names).trees := by
  rw [trees, List.map_append, List.map_append, map_migrate_head, map_migrate_tail, map_migrate_optional (by decide)]
  rfl

/-- A type declaration is a class or another kind of type. -/
theorem cases_of_shaped {children : List Tree} (ht : Shaped (.node .typeDecl children)) :
    (∃ attributes modifiers keyword name rest, children = attributes :: modifiers :: .leaf keyword :: name :: rest ∧
      (keyword.kind == .classWord) = false) ∨
    ∃ p : ClassParts, children = p.trees := by
  obtain ⟨attributes, modifiers, keyword, name, params, clause, requirements, members, rfl, hname⟩ := ht.admits
  by_cases hkind : keyword.kind = .classWord
  · obtain ⟨name, rfl⟩ := hname (by simp [hkind])
    refine .inr ⟨⟨attributes, modifiers, keyword, name, params, clause, requirements, members, hkind⟩, ?_⟩
    simp [trees, head, tail]
  · exact .inl ⟨_, _, keyword, name, _, rfl, by simpa using hkind⟩

theorem inheritedEntries_eq : inheritedEntries p.trees = p.entries := by
  have hhead : ∀ t ∈ p.head, ¬ t.is .inheritance = true :=
    fun t hmem => by simp [is_head .inheritance (by decide) t hmem]
  have htail : ∀ t ∈ p.tail, ¬ t.is .inheritance = true := fun t hmem => by simp [is_inheritance_tail t hmem]
  rw [inheritedEntries, trees, entries, List.find?_append, List.find?_append, List.find?_eq_none.mpr hhead,
    List.find?_eq_none.mpr htail]
  cases p.clause <;> simp [Tree.optional, Tree.children]

theorem isConverted_eq : isConverted names p.trees =
    if p.entries.any namesProtocol then !p.entries.all fun entry => namesProtocol entry && entry.endsInComma
    else names.contains p.name.text := by
  rw [← inheritedEntries_eq]
  simp only [trees, head, List.cons_append, isConverted, p.isClass, token?, Option.any_some, beq_self_eq_true,
    Bool.true_and]

theorem migrateType_eq : migrateType names (.node .typeDecl p.trees) =
    match leaveProtocol p.trees with
    | .dangling => .node .typeDecl p.trees
    | .done left => .node .typeDecl (convertClass (.node .attributes p.attributes) left)
    | .absent =>
      if names.contains p.name.text then .node .typeDecl (convertClass (.node .attributes p.attributes) p.trees)
      else .node .typeDecl p.trees := by
  simp only [trees, head, List.cons_append, migrateType, p.isClass, beq_self_eq_true, if_true, token?, Option.any_some]
  rfl

/-! ### Leaving the protocol -/

/-- The trees begin with the attributes of the class and go on to its keyword. -/
def Begins (p : ClassParts) (trees : List Tree) : Prop :=
  ∃ rest, trees = .node .attributes p.attributes :: rest ∧ .leaf p.keyword ∈ rest

theorem begins_head_append (more : List Tree) : p.Begins (p.head ++ more) := ⟨_, rfl, by simp⟩

theorem begins_endWith_head (trailing : Text) : p.Begins (endWith trailing p.head) := by
  refine ⟨.node .modifiers p.modifiers :: .leaf p.keyword ::
    endWith trailing (.leaf p.name :: Tree.optional .genericParams p.params), ?_, by simp⟩
  rw [head, endWith_cons _ _ (by simp), endWith_cons _ _ (by simp), endWith_cons _ _ (by simp)]

theorem leaveProtocol_of_none (hclause : p.clause = none) : leaveProtocol p.trees = .absent := by
  refine leaveProtocol_of_not_inherits fun t hmem => ?_
  rw [trees, hclause] at hmem
  rcases List.mem_append.mp hmem with hhead | htail
  · exact is_head .inheritance (by decide) t hhead
  · exact is_inheritance_tail t htail

theorem leaveProtocol_of_some {colon : Tree} {entries : List Tree} (hclause : p.clause = some (colon :: entries)) :
    leaveProtocol p.trees =
      if entries.any isProtocolEntry then
        match prune entries with
        | .dangling => .dangling
        | .emptied trailing => .done (endWith trailing p.head ++ p.tail)
        | .kept left => .done (p.head ++ [.node .inheritance (colon :: left)] ++ p.tail)
      else .absent := by
  rw [trees, hclause, Tree.optional, Option.map_some, Option.toList_some, List.singleton_append,
    leaveProtocol_append (is_head .inheritance (by decide))]
  cases prune entries with
  | dangling => rfl
  | emptied trailing => rfl
  | kept left => simp only [List.append_assoc, List.singleton_append]

/-- What can become of the inheritance clause of a migrated class: it does not name the protocol, it cannot lose it, or
it loses it and leaves the rest of its words. -/
theorem leaveProtocol_cases (names : List Text) (hclause : ∀ parts ∈ p.clause, Shaped (.node .inheritance parts)) :
    (p.entries.any namesProtocol = false ∧ leaveProtocol (p.migrated names).trees = .absent ∧
      (Tree.optional .inheritance (p.migrated names).clause).flatMap words =
        clauseWords ((p.migrated names).clause.getD [])) ∨
    (p.entries.any namesProtocol = true ∧ leaveProtocol (p.migrated names).trees = .dangling ∧
      (p.entries.all fun entry => namesProtocol entry && entry.endsInComma) = true) ∨
    (p.entries.any namesProtocol = true ∧
      (p.entries.all fun entry => namesProtocol entry && entry.endsInComma) = false ∧
      ∃ front, leaveProtocol (p.migrated names).trees = .done (front ++ (p.migrated names).tail) ∧
        (p.migrated names).Begins front ∧
        front.flatMap words = (p.migrated names).head.flatMap words ++ clauseWords ((p.migrated names).clause.getD [])) := by
  cases hparts : p.clause with
  | none =>
      have hmigrated : (p.migrated names).clause = none := by simp [migrated, hparts]
      refine .inl ⟨by simp [entries, hparts], leaveProtocol_of_none hmigrated, ?_⟩
      rw [hmigrated]
      rfl
  | some parts =>
      obtain ⟨colon, entries, rfl, hentries⟩ := Shaped.areEntries (hclause parts hparts)
      have heq : p.entries = entries := by simp [ClassParts.entries, hparts]
      have hmigrated : (p.migrated names).clause = some (.leaf colon :: entries.map (migrate names)) := by
        simp [migrated, hparts]
      rw [heq, leaveProtocol_of_some hmigrated, hmigrated, hentries.any_isProtocolEntry_migrate, hentries.all_commaed,
        Option.getD_some]
      cases hany : entries.any namesProtocol with
      | false =>
          refine .inl ⟨rfl, rfl, ?_⟩
          rw [hentries.clauseWords_of_not_any hany]
          simp [Tree.optional]
      | true =>
          have hleaves : (prune (entries.map (migrate names))).Leaves [] (entries.map (migrate names)) := hentries.prune_leaves
          rw [clauseWords]
          cases hpruned : prune (entries.map (migrate names)) with
          | dangling =>
              -- Every entry names the protocol and the last one does not lack its comma, so all of them end in one.
              rw [hpruned, Pruned.Leaves, hentries.all_isProtocolEntry_migrate, hentries.endsUncommaed_migrate] at hleaves
              exact .inr (.inl ⟨rfl, rfl, by rw [hleaves.2.1, hleaves.2.2]; rfl⟩)
          | emptied trailing =>
              rw [hpruned, Pruned.Leaves, hentries.endsUncommaed_migrate] at hleaves
              refine .inr (.inr ⟨rfl, by simp [hleaves.2.2], _, rfl, begins_endWith_head trailing, ?_⟩)
              rw [flatMap_words_eq_of_bare (map_bare_endWith _ _), List.append_nil]
          | kept left =>
              rw [hpruned, Pruned.Leaves, hentries.all_isProtocolEntry_migrate] at hleaves
              have hother : entries.all namesProtocol = false := by simpa using hleaves.1
              refine .inr (.inr ⟨rfl, by rw [hother]; rfl, _, rfl, begins_head_append _, ?_⟩)
              simp

/-! ### The class after migration -/

/-- The attribute that makes a class observable, unless it is there. -/
def observableWords (attributes : List Tree) : List Word :=
  if attributes.any (isNamed observableName) then [] else [(.atSign, ['@']), (.identifier, observableName)]

/-- The words of a class that is converted, from what is left in front of its requirements and its body. -/
theorem words_convertClass {front : List Tree} (hfront : p.Begins front) :
    (Tree.node .typeDecl (convertClass (.node .attributes p.attributes) (front ++ p.tail))).words =
      observableWords p.attributes ++ front.flatMap words ++
        ((Tree.optional .whereClause p.requirements).flatMap words ++
          p.members.flatMap fun t => (unpublish t).words) := by
  obtain ⟨rest, rfl, hkeyword⟩ := hfront
  have hparts : .node .attributes p.attributes :: rest ++ p.tail = .node .attributes p.attributes ::
      (rest ++ Tree.optional .whereClause p.requirements) ++ [.node .memberBlock p.members] := by
    simp [tail]
  rw [words_node, hparts, flatMap_words_convertClass (List.mem_append_left _ hkeyword), observableWords, Tree.children]
  simp

/-- The words of a class that is converted: the words of its migrated parts, the protocol apart. -/
theorem words_migrate (hclause : ∀ parts ∈ p.clause, Shaped (.node .inheritance parts))
    (hconverted : isConverted names p.trees = true) :
    (migrate names (.node .typeDecl p.trees)).words =
      observableWords (p.migrated names).attributes ++
        ((p.migrated names).head.flatMap words ++ clauseWords ((p.migrated names).clause.getD [])) ++
        ((Tree.optional .whereClause (p.migrated names).requirements).flatMap words ++
          (p.migrated names).members.flatMap fun t => (unpublish t).words) := by
  rw [isConverted_eq] at hconverted
  rw [migrate_node, map_migrate_trees, migrateNode, migrateType_eq]
  obtain ⟨hnone, hleft, hwords⟩ | ⟨hsome, -, hcommaed⟩ | ⟨-, -, front, hleft, hfront, hwords⟩ :=
    leaveProtocol_cases names hclause
  · have hname : names.contains (p.migrated names).name.text = true := by simpa [hnone] using hconverted
    simp only [hleft, hname, if_true]
    rw [trees, ← List.append_assoc, words_convertClass (begins_head_append _), List.flatMap_append, hwords]
  · simp [hsome, hcommaed, -List.all_eq_true, -List.any_eq_true] at hconverted
  · simp only [hleft]
    rw [words_convertClass hfront, hwords]

/-- A class that is not converted only has its parts migrated. -/
theorem migrate_of_not_isConverted (hclause : ∀ parts ∈ p.clause, Shaped (.node .inheritance parts))
    (hstays : isConverted names p.trees = false) :
    migrate names (.node .typeDecl p.trees) = .node .typeDecl (p.trees.map (migrate names)) := by
  rw [isConverted_eq] at hstays
  rw [migrate_node, map_migrate_trees, migrateNode, migrateType_eq]
  obtain ⟨hnone, hleft, -⟩ | ⟨-, hleft, -⟩ | ⟨hsome, hcommaed, -⟩ := leaveProtocol_cases names hclause
  · have hname : names.contains (p.migrated names).name.text = false := by simpa [hnone] using hstays
    simp only [hleft, hname, Bool.false_eq_true, if_false]
  · simp only [hleft]
  · simp [hsome, hcommaed, -List.all_eq_true, -List.any_eq_true, -List.all_eq_false] at hstays

/-! ### The edits of a class -/

/-- A class has the attribute that makes it observable after migration if it had it before. -/
theorem any_observable_migrate {attributes : List Tree} (hattrs : ∀ t ∈ attributes, t.Shaped ∧ t.is .attr = true) :
    (attributes.map (migrate names)).any (isNamed observableName) = attributes.any (isNamed observableName) := by
  induction attributes with
  | nil => rfl
  | cons t rest ih =>
      obtain ⟨hshaped, hattr⟩ := hattrs t (by simp)
      obtain ⟨children, rfl⟩ := exists_of_is hattr
      rw [List.map_cons, List.any_cons, List.any_cons, ih fun s hs => hattrs s (by simp [hs]),
        isNamed_migrate (by decide) hshaped]

theorem observableWords_migrate {attributes : List Tree} (hattrs : ∀ t ∈ attributes, t.Shaped ∧ t.is .attr = true) :
    observableWords (attributes.map (migrate names)) = observableWords attributes := by
  rw [observableWords, any_observable_migrate hattrs, observableWords]

theorem insertedBefore_eq : insertedBefore names .free .typeDecl p.trees =
    if isConverted names p.trees then observableWords p.attributes else [] := by
  change (if isConverted names p.trees && !p.attributes.any (isNamed observableName) then _ else _) = _
  rw [observableWords]
  cases isConverted names p.trees <;> cases p.attributes.any (isNamed observableName) <;> rfl

/-- What a part of a class that is converted is to the class. -/
def roleOf (t : Tree) : Role :=
  if t.is .inheritance then .pruned else if t.is .memberBlock then .converted else .free

theorem roleOf_eq_free (hclause : t.is .inheritance = false) (hbody : t.is .memberBlock = false) : roleOf t = .free := by
  rw [roleOf, hclause, hbody]
  rfl

theorem leftOf_roles : leftOf (p.trees.map roleOf) (p.trees.map (migrate names)) =
    (p.migrated names).head.flatMap words ++ (clauseWords ((p.migrated names).clause.getD []) ++
      ((Tree.optional .whereClause (p.migrated names).requirements).flatMap words ++
        (p.migrated names).members.flatMap fun t => (unpublish t).words)) := by
  have hfree : ∀ trees : List Tree, (∀ t ∈ trees, roleOf t = .free) →
      (trees.flatMap fun t => (roleOf t).left (migrate names t)) = (trees.map (migrate names)).flatMap words := by
    intro trees htrees
    rw [List.flatMap_map]
    exact List.flatMap_congr fun t hmem => by rw [htrees t hmem, Role.left_free]
  have hhead : ∀ t ∈ p.head, roleOf t = .free := fun t hmem =>
    roleOf_eq_free (is_head .inheritance (by decide) t hmem) (is_head .memberBlock (by decide) t hmem)
  have hrequirements : ∀ t ∈ Tree.optional .whereClause p.requirements, roleOf t = .free := by
    intro t hmem
    cases hparts : p.requirements with
    | none => simp [Tree.optional, hparts] at hmem
    | some parts =>
        obtain rfl : t = .node .whereClause parts := by simpa [Tree.optional, hparts] using hmem
        rfl
  rw [leftOf_map, trees, tail, List.flatMap_append, List.flatMap_append, List.flatMap_append, hfree _ hhead,
    hfree _ hrequirements, map_migrate_head, map_migrate_optional (by decide), List.flatMap_singleton,
    migrate_node_of_not_mem .memberBlock (by decide)]
  congr 2
  cases hparts : p.clause with
  | none => simp [migrated, hparts, Tree.optional, clauseWords]
  | some parts =>
      rw [Tree.optional, Option.map_some, Option.toList_some, List.flatMap_singleton,
        migrate_node_of_not_mem .inheritance (by decide)]
      simp only [migrated, hparts]
      rfl

/-- The inheritance clause of a class that is converted can lose the protocol. -/
theorem fits_pruned_of_isConverted (hconverted : isConverted names p.trees = true) (hmem : t ∈ p.trees)
    (hinherits : t.is .inheritance = true) : Role.pruned.Fits t := by
  rw [isConverted_eq] at hconverted
  rcases List.mem_append.mp hmem with hhead | hmem
  · exact absurd hinherits (by simp [is_head .inheritance (by decide) t hhead])
  rcases List.mem_append.mp hmem with hmem | htail
  · cases hparts : p.clause with
    | none => simp [Tree.optional, hparts] at hmem
    | some parts =>
        obtain rfl : t = .node .inheritance parts := by simpa [Tree.optional, hparts] using hmem
        have heq : p.entries = parts.tail := by simp [entries, hparts]
        refine ⟨hinherits, fun hany => ?_⟩
        rw [Tree.children, ← heq] at hany
        rw [if_pos hany] at hconverted
        simpa only [Tree.children, heq, Bool.not_eq_true'] using hconverted
  · exact absurd hinherits (by simp [is_inheritance_tail t htail])

theorem shaped_clause (ht : Shaped (.node .typeDecl p.trees)) :
    ∀ parts ∈ p.clause, Shaped (.node .inheritance parts) := by
  intro parts hparts
  refine ht.of_mem ?_
  simp [trees, Tree.optional, Option.mem_def.mp hparts]

theorem shaped_attributes (ht : Shaped (.node .typeDecl p.trees)) : ∀ t ∈ p.attributes, t.Shaped ∧ t.is .attr = true := by
  have hattributes : Shaped (.node .attributes p.attributes) := ht.of_mem (by simp [trees, head])
  exact fun t hmem => ⟨hattributes.of_mem hmem, hattributes.admits t hmem⟩

theorem after_edits (hin : ∀ t ∈ p.trees, Follows names t) (ht : Shaped (.node .typeDecl p.trees)) :
    after (edits names .free (.node .typeDecl p.trees)) = (migrate names (.node .typeDecl p.trees)).words := by
  cases hconverted : isConverted names p.trees with
  | false =>
      rw [migrate_of_not_isConverted (shaped_clause ht) hconverted, after_edits_node .typeDecl .free hin (fitAll_nil _)
        (by rw [Role.below, ownRoles, classRoles, hconverted]; rfl), insertedBefore_eq, hconverted]
      simp [insertedBehind]
  | true =>
      have hfit : FitAll (p.trees.map roleOf) p.trees := by
        refine fitAll_map fun t hmem => ?_
        rw [roleOf]
        split
        next hinherits => exact fits_pruned_of_isConverted hconverted hmem hinherits
        next =>
          split
          next hbody => exact .inl hbody
          next => trivial
      rw [words_migrate (shaped_clause ht) hconverted,
        after_edits_node .typeDecl .free hin hfit (by rw [Role.below, ownRoles, classRoles, hconverted]; rfl),
        insertedBefore_eq, hconverted, leftOf_roles]
      simp [insertedBehind, migrated, observableWords_migrate (shaped_attributes ht)]

end ClassParts

end SwiftObservation.Migration
