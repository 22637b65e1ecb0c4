import SwiftObservation.Proofs.Grammar.Shape.Declarations
import SwiftObservation.Proofs.Migration.Following.Classes
import SwiftObservation.Proofs.Migration.Following.Variables
import SwiftObservation.Proofs.Tree.Within

/-!
# Every tree follows its edits

The parts of a source follow their edits from the leaves upwards, each node by the lemma for its label and its role, and
so does the tree of every source that is read.
-/

namespace SwiftObservation.Migration

open SwiftObservation.Tree

variable {names : List Text} {label : Label} {children : List Tree} {t : Tree}

theorem after_edits_typeDecl (hin : ∀ t ∈ children, Follows names t) (ht : Shaped (.node .typeDecl children)) :
    after (edits names .free (.node .typeDecl children)) = (migrate names (.node .typeDecl children)).words := by
  obtain ⟨attributes, modifiers, keyword, name, rest, rfl, hkind⟩ | ⟨p, rfl⟩ := ClassParts.cases_of_shaped ht
  · have hstays : isConverted names (attributes :: modifiers :: .leaf keyword :: name :: rest) = false := by
      simp only [isConverted, hkind, Bool.false_and]
    rw [migrate_node, migrateNode, after_edits_node .typeDecl .free hin (fitAll_nil _)
      (by rw [Role.below, ownRoles, classRoles, hstays]; rfl)]
    simp [insertedBehind, insertedBefore, hstays, migrateType, hkind]
  · exact ClassParts.after_edits hin ht

theorem after_edits_free (hin : ∀ t ∈ children, Follows names t) (ht : Shaped (.node label children))
    (hdeep : ∀ t ∈ children, ∀ clause ∈ t.children, ∀ bound ∈ clause.children, Follows names bound) :
    after (edits names .free (.node label children)) = (migrate names (.node label children)).words := by
  by_cases hlabel : label ∈ ruled
  · simp only [ruled, List.mem_cons, List.not_mem_nil, or_false] at hlabel
    rcases hlabel with rfl | rfl | rfl | rfl | rfl
    · exact after_edits_typeDecl hin ht
    · exact after_edits_variables false hin ht hdeep
    · exact after_edits_attr hin ht
    · exact after_edits_call hin
    · exact after_edits_memberAccess hin ht
  · exact after_edits_free_of_not_mem hlabel hin

/-- A node follows its edits if the trees below it do. -/
theorem follows_node (hin : ∀ t ∈ children, Follows names t) (ht : Shaped (.node label children))
    (hdeep : ∀ t ∈ children, ∀ clause ∈ t.children, ∀ bound ∈ clause.children, Follows names bound) :
    Follows names (.node label children) := by
  have hlabel : ∀ {label'}, (Tree.node label children).is label' = true → label = label' := fun his => eq_of_beq his
  intro role hfits
  cases role with
  | free => exact after_edits_free hin ht hdeep
  | gone => rw [after_edits_gone, Role.left_gone]
  | renamed text => exact after_edits_renamed hin hfits
  | converted =>
      obtain hbody | hvariables := hfits
      · obtain rfl := hlabel hbody
        exact after_edits_body hin
      · obtain rfl := hlabel hvariables
        -- `Role.left` tells the two apart by the label, which migration keeps.
        have hmigrated : (migrate names (.node .variableDecl children)).is .memberBlock = false := by
          rw [is_migrate]
          rfl
        rw [Role.left, hmigrated]
        exact after_edits_variables true hin ht hdeep
  | pruned =>
      obtain rfl := hlabel hfits.1
      exact after_edits_pruned hin ht hfits.2
  | bare =>
      obtain rfl := hlabel hfits.1
      exact after_edits_bare hin ht hfits.2
  | wrappers unpublished type =>
      obtain rfl := hlabel hfits.1
      exact after_edits_wrappers hin ht hfits.2
  | lookup type =>
      obtain rfl := hlabel hfits.1
      exact after_edits_lookup hin hfits.2.1 hfits.2.2
  | untyped =>
      obtain rfl := hlabel (Bool.and_eq_true_iff.mp hfits).1
      exact after_edits_untyped hin ht hfits
  | relabelled =>
      obtain rfl := hlabel hfits
      exact after_edits_relabelled hin

theorem follows_leaf (token : Token) : Follows names (.leaf token) := by
  intro role hfits
  rw [migrate_leaf]
  cases role with
  | free =>
      rw [edits, Role.left_free, words_leaf]
      unfold Role.ofToken
      split <;> rfl
  | gone => exact after_edits_gone names (.leaf token)
  | renamed text =>
      obtain ⟨-, ⟨token', hleaf, htoken⟩ | ⟨_, _, _, hnode, -⟩⟩ := hfits
      · cases hleaf
        rw [edits, Role.ofToken, htoken]
        rfl
      · exact absurd hnode (by simp)
  | converted => simp [Role.Fits] at hfits
  | untyped => simp [Role.Fits, isPlainlyTyped] at hfits
  | pruned | bare | wrappers | lookup | relabelled => simp [Role.Fits] at hfits

theorem follows_absent : Follows names .absent := by
  intro role hfits
  cases role with
  | free | gone => rfl
  | renamed text =>
      obtain ⟨-, ⟨token, hleaf, -⟩ | ⟨_, _, _, hnode, -⟩⟩ := hfits
      · exact absurd hleaf (by simp)
      · exact absurd hnode (by simp)
  | converted => simp [Role.Fits, is, label?] at hfits
  | untyped => simp [Role.Fits, isPlainlyTyped, is, label?] at hfits
  | pruned | bare | wrappers | lookup | relabelled => simp [Role.Fits, is, label?] at hfits

/-- Every tree that the grammar can yield follows its edits. The recursion is on the size of the tree: the type that
moves out of a declaration of variables is three levels below it. -/
theorem follows (names : List Text) : (t : Tree) → t.Shaped → Follows names t
  | .leaf token, _ => follows_leaf token
  | .absent, _ => follows_absent
  | .node label children, ht => by
      refine follows_node (fun s hs => ?_) ht fun s hs clause hclause bound hbound => ?_
      · have hsize : sizeOf s < sizeOf (node label children) := sizeOf_lt_of_mem_children hs
        exact follows names s (ht.of_mem hs)
      · have hsize : sizeOf bound < sizeOf (node label children) :=
          calc sizeOf bound < sizeOf clause := sizeOf_lt_of_mem_children hbound
            _ < sizeOf s := sizeOf_lt_of_mem_children hclause
            _ < sizeOf (node label children) := sizeOf_lt_of_mem_children hs
        exact follows names bound (((ht.of_mem hs).of_mem_children hclause).of_mem_children hbound)
termination_by t => sizeOf t
decreasing_by all_goals exact hsize

/-- Migration makes no other edits than those of `edits`, which hands them down from the rules: for every source that is
read and all names, the edits are about the words of the tree that was read, and what they leave is the words of the
migrated tree. -/
theorem migrate_follows_edits {limits : Limits} {source : Text} {t : Tree} (names : List Text)
    (hread : Tree.ofSource limits source = .ok t) :
    before (edits names .free t) = t.words ∧ after (edits names .free t) = (migrate names t).words :=
  ⟨before_edits names .free t, follows names t (Tree.shaped_of_ofSource hread) .free trivial⟩

/-- The edits of a class that leaves the protocol, and of the view that holds it. -/
theorem migrate_follows_edits_model :
    ∃ t, Tree.ofSource .standard ("class Model: ObservableObject { @Published var name = 0 }\n" ++
        "struct Page: View { @EnvironmentObject var model: Model }\n").toList = .ok t ∧
      before (edits [] .free t) = t.words ∧ after (edits [] .free t) = (migrate [] t).words := by
  have hsome : (Tree.ofSource .standard ("class Model: ObservableObject { @Published var name = 0 }\n" ++
      "struct Page: View { @EnvironmentObject var model: Model }\n").toList).toOption.isSome = true := by decide +kernel
  obtain ⟨t, hread⟩ := exists_eq_ok_of_isSome hsome
  exact ⟨t, hread, migrate_follows_edits [] hread⟩

end SwiftObservation.Migration
