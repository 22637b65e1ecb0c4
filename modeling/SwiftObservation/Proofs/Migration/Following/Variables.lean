import SwiftObservation.Proofs.Migration.Following.Parts

/-!
# Variables follow their edits

A declaration of variables may lose attributes to two rules, that for itself and that for the class around it, and the
first of them may move a type from a binding into an attribute. The type that moves has been migrated before.
-/

namespace SwiftObservation.Migration

open SwiftObservation.Tree

variable {names : List Text} {label : Label} {children : List Tree} {t : Tree}

/-! ### The type that moves -/

theorem typeWordsOf_eq {trees : List Tree} {p : Tree → Bool} (hp : ∀ s ∈ trees, leadsToType s = p s)
    (hfound : trees.find? p = some t) : typeWordsOf names trees = typeWords names t := by
  induction trees with
  | nil => simp at hfound
  | cons first rest ih =>
      rw [typeWordsOf, hp first (by simp)]
      cases hfirst : p first with
      | true =>
          rw [List.find?_cons_of_pos hfirst] at hfound
          simp [Option.some.inj hfound]
      | false =>
          rw [List.find?_cons_of_neg (by simp [hfirst])] at hfound
          simpa using ih (fun s hs => hp s (by simp [hs])) hfound

theorem typeWords_typeIdentifier (parts : List Tree) :
    typeWords names (.node .typeIdentifier parts) = after (edits names .free (.node .typeIdentifier parts)) := by
  simp [typeWords, edits, insertedBehind, Role.below, ownRoles]

theorem typeWords_typeClause (colon : Token) {parts : List Tree} :
    typeWords names (.node .typeClause [.leaf colon, .node .typeIdentifier parts]) =
      after (edits names .free (.node .typeIdentifier parts)) := by
  rw [← typeWords_typeIdentifier]
  exact typeWordsOf_eq (fun _ _ => rfl) rfl

theorem leadsToType_pattern {pattern : Tree} (hpattern : pattern.isLeaf .identifier = true ∨ pattern.is .group = true) :
    leadsToType pattern = false := by
  obtain hleaf | hgroup := hpattern
  · cases pattern with
    | leaf token => rfl
    | node label children => simp [isLeaf, token?] at hleaf
    | absent => rfl
  · obtain ⟨parts, rfl⟩ := exists_of_is hgroup
    rfl

/-- The type in the type clause of a plainly typed binding is the one that the way down from the binding leads to. -/
theorem exists_type_of_isPlainlyTyped (names : List Text) (ht : t.Shaped) (htyped : isPlainlyTyped t = true) :
    ∃ colon parts children, t = .node .binding children ∧
      .node .typeClause [.leaf colon, .node .typeIdentifier parts] ∈ children ∧
      plainType? t = some (.node .typeIdentifier parts) ∧
      typeWords names t = after (edits names .free (.node .typeIdentifier parts)) := by
  obtain ⟨children, rfl⟩ := exists_of_is (Bool.and_eq_true_iff.mp htyped).1
  obtain ⟨pattern, type, value, accessors, comma, rfl, hpattern, -⟩ := ht.admits
  have hother : pattern.is .typeClause = false := is_typeClause_pattern hpattern
  have hplain := (Bool.and_eq_true_iff.mp htyped).2
  cases type with
  | none =>
      have hnone : ∀ s ∈ pattern :: (Tree.optional .typeClause none ++ Tree.optional .initialValue value ++
          Tree.optional .accessorBlock accessors ++ optionalLeaf comma), ¬ s.is .typeClause = true := by
        cases value <;> cases accessors <;> cases comma <;> simp [Tree.optional, optionalLeaf, hother]
      rw [plainType?, child?, Tree.children, List.find?_eq_none.mpr hnone] at hplain
      simp at hplain
  | some parts =>
      have hclause : Shaped (.node .typeClause parts) := ht.of_mem (by simp [Tree.optional])
      obtain ⟨colon, bound, rfl, -⟩ := hclause.admits
      have hfirst : (Tree.node .binding (pattern :: (Tree.optional .typeClause (some (.leaf colon :: bound.toList)) ++
          Tree.optional .initialValue value ++ Tree.optional .accessorBlock accessors ++ optionalLeaf comma))).child?
            .typeClause = some (.node .typeClause (.leaf colon :: bound.toList)) := by
        simp [child?, Tree.children, Tree.optional, hother]
      rw [plainType?, hfirst] at hplain ⊢
      cases bound with
      | none => simp [Tree.children] at hplain
      | some bound =>
          cases hbound : bound.is .typeIdentifier with
          | false => simp [Tree.children, hbound] at hplain
          | true =>
              obtain ⟨parts, rfl⟩ := exists_of_is hbound
              refine ⟨colon, parts, _, rfl, by simp [Tree.optional], by simp [Tree.children], ?_⟩
              rw [← typeWords_typeClause colon]
              refine typeWordsOf_eq (fun _ _ => rfl) ?_
              rw [List.find?_cons_of_neg (by simp [leadsToType_pattern hpattern])]
              rfl

/-! ### Variables -/

theorem not_isNamed_of_isNamed {name other : Text} (hne : name ≠ other) (hnamed : isNamed name t = true) :
    isNamed other t = false := by
  rw [isNamed, beq_iff_eq] at hnamed
  rw [isNamed, hnamed]
  simpa using hne

theorem wrapperWords_none (unpublished : Bool) (found : List Tree) :
    wrapperWords unpublished none found = (found.filter (isKept unpublished)).flatMap words := by
  induction found with
  | nil => rfl
  | cons t rest ih =>
      rw [wrapperWords, ih]
      cases hnamed : isNamed environmentObjectName t with
      | true =>
          have hother : isNamed publishedName t = false := not_isNamed_of_isNamed (by decide) hnamed
          simp [isKept, hother, lookupWords]
      | false => cases hkept : isKept unpublished t <;> simp [hkept]

/-- The successor of the wrapper of an object from the environment. -/
theorem environmentAttribute_eq (bound : Tree) (hnamed : isNamed environmentObjectName (.node label children) = true)
    (hlength : children.length = 2) :
    (environmentAttribute bound (.node label children)).words = lookupWords (some bound.words) (.node label children) ∧
      isNamed publishedName (environmentAttribute bound (.node label children)) = false := by
  obtain ⟨sign, token, rest, rfl, -⟩ := exists_of_isNamed hnamed
  obtain rfl : rest = [] := by simpa using hlength
  refine ⟨?_, by rfl⟩
  rw [words_environmentAttribute, words_lookupArguments, lookupWords, insertedBehind]

theorem wrapperWords_some (unpublished : Bool) (bound : Tree) {found : List Tree}
    (htarget : ∀ target ∈ found.find? (isNamed environmentObjectName), target.children.length = 2) :
    wrapperWords unpublished (some bound.words) found =
      ((updateFirst (isNamed environmentObjectName) (environmentAttribute bound) found).filter
        (isKept unpublished)).flatMap words := by
  induction found with
  | nil => rfl
  | cons t rest ih =>
      rw [wrapperWords, updateFirst]
      cases hnamed : isNamed environmentObjectName t with
      | true =>
          have hlength : t.children.length = 2 := htarget t (by simp [hnamed])
          cases t with
          | leaf token => simp [Tree.children] at hlength
          | absent => simp [Tree.children] at hlength
          | node label children =>
              obtain ⟨hwords, hother⟩ := environmentAttribute_eq bound hnamed hlength
              have hkept : isKept unpublished (environmentAttribute bound (.node label children)) = true := by
                simp [isKept, hother]
              simp [wrapperWords_none, hwords, hkept]
      | false =>
          rw [ih (by simpa [hnamed] using htarget)]
          cases hkept : isKept unpublished t <;> simp [hkept]

theorem leftOf_markFirst_untyped (trees : List Tree) :
    leftOf (markFirst isPlainlyTyped .untyped trees) (trees.map (migrate names)) =
      (updateFirst isPlainlyTyped dropTypeClause (trees.map (migrate names))).flatMap words := by
  induction trees with
  | nil => rfl
  | cons t rest ih =>
      rw [markFirst, List.map_cons, updateFirst, isPlainlyTyped_migrate]
      cases isPlainlyTyped t with
      | true => simp [Role.left]
      | false => simp [ih]

theorem find?_environmentObject_migrate {found : List Tree} (hattrs : ∀ t ∈ found, t.Shaped ∧ t.is .attr = true) :
    (found.map (migrate names)).find? (isNamed environmentObjectName) =
      (found.find? (isNamed environmentObjectName)).map (migrate names) := by
  induction found with
  | nil => rfl
  | cons t rest ih =>
      obtain ⟨hshaped, hattr⟩ := hattrs t (by simp)
      rw [List.map_cons, List.find?_cons, List.find?_cons, isNamed_environmentObject_migrate hshaped hattr,
        ih fun s hs => hattrs s (by simp [hs])]
      split <;> rfl

theorem length_children_migrate (hattr : t.is .attr = true) (hnamed : isNamed environmentObjectName t = true) :
    (migrate names t).children.length = t.children.length := by
  obtain ⟨children, rfl⟩ := exists_of_is hattr
  rw [migrate_attr_of_not_isNamed (not_isNamed_of_isNamed (by decide) hnamed)
    (not_isNamed_of_isNamed (by decide) hnamed)]
  simp [Tree.children]

theorem find?_isPlainlyTyped_migrate (trees : List Tree) :
    (trees.map (migrate names)).find? isPlainlyTyped = (trees.find? isPlainlyTyped).map (migrate names) := by
  rw [List.find?_map]
  congr 2
  funext t
  exact isPlainlyTyped_migrate t

theorem find?_plainType?_migrate (rest : List Tree) :
    ((rest.map (migrate names)).find? isPlainlyTyped).bind plainType? =
      ((rest.find? isPlainlyTyped).bind plainType?).map (migrate names) := by
  rw [find?_isPlainlyTyped_migrate]
  cases hfound : rest.find? isPlainlyTyped with
  | none => rfl
  | some binding =>
      have htyped : isPlainlyTyped binding = true := List.find?_some hfound
      obtain ⟨children, rfl⟩ := exists_of_is (Bool.and_eq_true_iff.mp htyped).1
      exact plainType?_migrate children

/-- The wrapper that a type moves into has no arguments once it is migrated, just if it had none before. -/
theorem length_target_migrate (names : List Text) {found : List Tree} (hattrs : ∀ t ∈ found, t.Shaped ∧ t.is .attr = true) :
    ((found.map (migrate names)).find? (isNamed environmentObjectName)).any (·.children.length == 2) =
      (found.find? (isNamed environmentObjectName)).any (·.children.length == 2) := by
  rw [find?_environmentObject_migrate hattrs]
  cases htarget : found.find? (isNamed environmentObjectName) with
  | none => rfl
  | some target =>
      have hattr := (hattrs target (List.mem_of_find?_eq_some htarget)).2
      rw [Option.map_some, Option.any_some, Option.any_some, length_children_migrate hattr (List.find?_some htarget)]

/-- Whether a type moves, and which, is decided by the migrated parts as by the original ones. -/
theorem migrateEnvironment_of_moves {found rest : List Tree} (hattrs : ∀ t ∈ found, t.Shaped ∧ t.is .attr = true)
    (hmoves : movesType found rest = true) {bound : Tree}
    (hbound : (rest.find? isPlainlyTyped).bind plainType? = some bound) :
    migrateEnvironment (.node .variableDecl (.node .attributes (found.map (migrate names)) :: rest.map (migrate names))) =
      .node .variableDecl (.node .attributes (updateFirst (isNamed environmentObjectName)
        (environmentAttribute (migrate names bound)) (found.map (migrate names))) ::
          updateFirst isPlainlyTyped dropTypeClause (rest.map (migrate names))) := by
  have htarget := (Bool.and_eq_true_iff.mp hmoves).1
  rw [← length_target_migrate names hattrs] at htarget
  rw [migrateEnvironment, find?_plainType?_migrate, hbound]
  cases hfound : (found.map (migrate names)).find? (isNamed environmentObjectName) with
  | none => simp [hfound] at htarget
  | some target =>
      rw [hfound, Option.any_some] at htarget
      simp [htarget]

theorem migrateEnvironment_of_stays {found rest : List Tree} (hattrs : ∀ t ∈ found, t.Shaped ∧ t.is .attr = true)
    (hstays : movesType found rest = false) :
    migrateEnvironment (.node .variableDecl (.node .attributes (found.map (migrate names)) :: rest.map (migrate names))) =
      .node .variableDecl (.node .attributes (found.map (migrate names)) :: rest.map (migrate names)) := by
  rw [migrateEnvironment, find?_plainType?_migrate]
  split
  next target bound hfound hbound =>
    obtain ⟨original, hbound, -⟩ := Option.map_eq_some_iff.mp hbound
    obtain ⟨binding, hbinding, -⟩ := Option.bind_eq_some_iff.mp hbound
    have htyped : rest.any isPlainlyTyped = true :=
      List.any_eq_true.mpr ⟨binding, List.mem_of_find?_eq_some hbinding, List.find?_some hbinding⟩
    rw [movesType, htyped, Bool.and_true, ← length_target_migrate names hattrs, hfound, Option.any_some] at hstays
    rw [hstays]
    rfl
  next => rfl

/-- A declaration of variables begins with attributes, and only bindings behind them have a type that can move. -/
theorem Shaped.variables_eq (ht : Shaped (.node .variableDecl children)) :
    ∃ found rest, children = .node .attributes found :: rest ∧ (∀ t ∈ found, t.Shaped ∧ t.is .attr = true) ∧
      ∀ t ∈ rest, leadsToType t = isPlainlyTyped t := by
  obtain ⟨found, modifiers, keyword, bindings, rfl, -, hbindings⟩ := ht.admits
  have hattributes : Shaped (.node .attributes found) := ht.of_mem (by simp)
  refine ⟨found, _, rfl, fun t hmem => ⟨hattributes.of_mem hmem, hattributes.admits t hmem⟩, ?_⟩
  intro t hmem
  rcases List.mem_cons.mp hmem with rfl | hmem
  · rfl
  rcases List.mem_cons.mp hmem with rfl | hmem
  · rfl
  · obtain ⟨inside, rfl⟩ := exists_of_is (hbindings t hmem)
    change (isPlainlyTyped _ || false || false) = _
    simp

/-- The first binding that a type can move out of, and the words that are left of its type. -/
theorem exists_moved {found rest : List Tree} (ht : ShapedAll rest) (hrest : ∀ t ∈ rest, leadsToType t = isPlainlyTyped t)
    (hdeep : ∀ t ∈ rest, ∀ clause ∈ t.children, ∀ bound ∈ clause.children, Follows names bound)
    (htyped : rest.any isPlainlyTyped = true) :
    ∃ bound, (rest.find? isPlainlyTyped).bind plainType? = some bound ∧
      typeWordsOf names (.node .attributes found :: rest) = (migrate names bound).words := by
  obtain ⟨binding, hfound⟩ := Option.isSome_iff_exists.mp (List.find?_isSome.mpr (List.any_eq_true.mp htyped))
  have hmem := List.mem_of_find?_eq_some hfound
  obtain ⟨colon, parts, inside, rfl, hclause, hplain, hwords⟩ :=
    exists_type_of_isPlainlyTyped names (ht binding hmem) (List.find?_some hfound)
  refine ⟨.node .typeIdentifier parts, by rw [hfound, Option.bind_some, hplain], ?_⟩
  have hfollows := hdeep _ hmem _ hclause (.node .typeIdentifier parts) (by simp [Tree.children]) .free trivial
  have hattributes : leadsToType (.node .attributes found) = false := rfl
  rw [← Role.left_free, ← hfollows, ← hwords, typeWordsOf, hattributes]
  exact typeWordsOf_eq hrest hfound

/-- A declaration of variables follows its edits, in the body of a class that is converted and elsewhere. -/
theorem after_edits_variables (unpublished : Bool) (hin : ∀ t ∈ children, Follows names t)
    (ht : Shaped (.node .variableDecl children))
    (hdeep : ∀ t ∈ children, ∀ clause ∈ t.children, ∀ bound ∈ clause.children, Follows names bound) :
    after (edits names (if unpublished then .converted else .free) (.node .variableDecl children)) =
      (if unpublished then unpublish (migrate names (.node .variableDecl children))
        else migrate names (.node .variableDecl children)).words := by
  obtain ⟨found, rest, rfl, hattrs, hrest⟩ := Shaped.variables_eq ht
  have hbelow : Role.below names (typeWordsOf names (.node .attributes found :: rest))
      (if unpublished then .converted else .free) .variableDecl (.node .attributes found :: rest) =
      variableRoles unpublished (typeWordsOf names (.node .attributes found :: rest)) (.node .attributes found :: rest) := by
    cases unpublished <;> rfl
  have hbehind : insertedBehind (if unpublished then .converted else .free) = [] := by cases unpublished <;> rfl
  rw [migrate_node, migrateNode, migrateVariables, List.map_cons, migrate_node_of_not_mem .attributes (by decide)]
  cases hmoves : movesType found rest with
  | true =>
      -- The words inserted are those of the migrated type, and so are those that the edits of the type leave.
      obtain ⟨htarget, htyped⟩ := Bool.and_eq_true_iff.mp hmoves
      obtain ⟨bound, hbound, hwords⟩ := exists_moved (fun t hmem => ht.of_mem (by simp [hmem])) hrest
        (fun t hmem => hdeep t (by simp [hmem])) htyped
      have hlength : ∀ target ∈ found.find? (isNamed environmentObjectName), target.children.length = 2 := by
        intro target hfound
        simpa [Option.mem_def.mp hfound] using htarget
      have hlength' : ∀ target ∈ (found.map (migrate names)).find? (isNamed environmentObjectName),
          target.children.length = 2 := by
        intro target hfound
        rw [← length_target_migrate names hattrs] at htarget
        simpa [Option.mem_def.mp hfound] using htarget
      have hfit : FitAll (.wrappers unpublished (some (migrate names bound).words) ::
          markFirst isPlainlyTyped .untyped rest) (.node .attributes found :: rest) :=
        ⟨⟨rfl, fun _ => hlength⟩, fitAll_markFirst fun t _ htyped => htyped⟩
      rw [migrateEnvironment_of_moves hattrs hmoves hbound, words_dropAttributes_isErased,
        after_edits_node .variableDecl _ hin hfit (by rw [hbelow, hwords, variableRoles, if_pos hmoves]), hbehind,
        List.map_cons, leftOf_cons, leftOf_markFirst_untyped, migrate_node_of_not_mem .attributes (by decide)]
      simp [Role.left, Tree.children, wrapperWords_some unpublished (migrate names bound) hlength']
  | false =>
      have hfit : FitAll [.wrappers unpublished none] (.node .attributes found :: rest) :=
        ⟨⟨rfl, by simp⟩, fitAll_nil rest⟩
      rw [migrateEnvironment_of_stays hattrs hmoves, words_dropAttributes_isErased,
        after_edits_node .variableDecl _ hin hfit (by rw [hbelow, variableRoles, hmoves]; rfl), hbehind,
        List.map_cons, leftOf_cons, migrate_node_of_not_mem .attributes (by decide)]
      simp [Role.left, Tree.children, wrapperWords_none]

end SwiftObservation.Migration
