import SwiftObservation.Proofs.Grammar.Shape.Declarations
import SwiftObservation.Proofs.Migration.Safety.Classes
import SwiftObservation.Proofs.Tree.Within

/-!
# The passes reach for nothing that is not there

Trees of the grammar are usable, on usable trees both passes find all they reach for, and the migration of a usable tree
is usable again. So no pass over an accepted source, and none over what any number of migrations has made of it, goes
wrong.
-/

namespace SwiftObservation.Migration

open SwiftObservation.Tree

variable {label : Label} {children : List Tree} {t : Tree}

/-! ### Migration -/

theorem migrateNode_checked (names : List Text) (ht : Usable (.node label children)) :
    Checked.migrateNode names label children = some (migrateNode names label children) ∧
      (migrateNode names label children).Usable := by
  cases label
  case typeDecl => exact migrateType_checked names ht
  case variableDecl => exact migrateVariables_checked ht
  case attr => exact migrateAttribute_checked ht
  case call => exact migrateCall_checked ht
  case memberAccess => exact migrateMember_checked ht
  all_goals exact ⟨rfl, ht⟩

theorem head_migrate (names : List Text) (t : Tree) : (migrate names t).head = t.head := by
  cases t with
  | leaf token => rfl
  | absent => rfl
  | node label children =>
      obtain ⟨children', hnode⟩ := exists_migrateNode names label (children.map (migrate names))
      rw [migrate_node, hnode]
      rfl

theorem migrateAll_checked {names : List Text} {trees : List Tree}
    (htrees : ∀ t ∈ trees, Checked.migrate names t = some (migrate names t)) :
    Checked.migrateAll names trees = some (trees.map (migrate names)) := by
  induction trees with
  | nil => rfl
  | cons t rest ih =>
      rw [Checked.migrateAll, htrees t (by simp), ih fun s hs => htrees s (by simp [hs])]
      rfl

theorem migrate_checked (names : List Text) (ht : t.Usable) :
    Checked.migrate names t = some (migrate names t) ∧ (migrate names t).Usable := by
  induction ht with
  | leaf token => exact ⟨rfl, .leaf token⟩
  | absent => exact ⟨rfl, .absent⟩
  | @node label children hserves _ ih =>
      have hmigrated : Usable (.node label (children.map (migrate names))) := by
        refine .node ?_ fun t ht => ?_
        · rwa [List.map_map, show head ∘ migrate names = head from funext (head_migrate names)]
        · obtain ⟨s, hs, rfl⟩ := List.mem_map.mp ht
          exact (ih s hs).2
      rw [Checked.migrate, migrateAll_checked fun t ht => (ih t ht).1, migrate_node]
      exact migrateNode_checked names hmigrated

/-! ### Evidence -/

theorem Usable.of_within {s : Tree} (ht : t.Usable) (hwithin : Within s t) : s.Usable := by
  induction hwithin with
  | self => exact ht
  | child hmem _ ih => exact ih (ht.of_mem hmem)

theorem hasWrapper_checked (ht : t.Usable) : Checked.hasWrapper t = some (hasWrapper t) := by
  rw [Checked.hasWrapper, mapM_eq_some_map (g := attributeName?) fun s hs => ?_, hasWrapper]
  · simp only [Option.bind_eq_bind, Option.bind_some, List.any_map]
    rfl
  · have husable := Usable.of_within ht (Within.of_mem_childrenWith hs)
    obtain ⟨attributes, -, hmem⟩ : ∃ attributes, t.child? .attributes = some attributes ∧
        s ∈ attributes.childrenWith .attr := by
      cases hattributes : t.child? .attributes with
      | none => simp [hattributes] at hs
      | some attributes => exact ⟨attributes, rfl, by simpa [hattributes] using hs⟩
    obtain ⟨parts, rfl⟩ := exists_of_is (List.mem_filter.mp hmem).2
    exact attributeName?_checked husable

theorem clauseCandidate?_checked (ht : t.Usable) : Checked.clauseCandidate? t = some (clauseCandidate? t) := by
  unfold Checked.clauseCandidate? clauseCandidate?
  cases hclause : t.child? .typeClause with
  | none => rfl
  | some clause =>
      simp only [Option.bind_some, Option.bind_eq_bind]
      cases hbound : clause.children[1]? with
      | none => rfl
      | some bound =>
          simp only [Option.bind_some]
          by_cases hplain : bound.is .typeIdentifier = true
          · have hmem : bound ∈ clause.children := List.mem_of_getElem? hbound
            have husable := Usable.of_within ht
              (.trans (.of_mem_children hmem) (.of_mem_children (exists_of_child? hclause).1))
            obtain ⟨parts, rfl⟩ := exists_of_is hplain
            obtain ⟨name, rest, rfl⟩ := Usable.typeIdentifier_eq husable
            simp only [if_pos hplain]
            rfl
          · simp only [if_neg hplain]

theorem valueCandidate?_checked (ht : t.Usable) : Checked.valueCandidate? t = some (valueCandidate? t) := by
  unfold Checked.valueCandidate? valueCandidate?
  cases hvalue : t.child? .initialValue with
  | none => rfl
  | some value =>
      obtain ⟨hmem, parts, rfl⟩ := exists_of_child? hvalue
      have husable : Usable (.node .initialValue parts) := Usable.of_within ht (.of_mem_children hmem)
      obtain ⟨signHead, heads, hheads⟩ := husable.serves
      obtain ⟨sign, tail, rfl, -, htail⟩ := List.map_eq_cons_iff.mp hheads
      obtain ⟨expr, rest, rfl, hexpr, -⟩ := List.map_eq_cons_iff.mp htail
      obtain ⟨elements, rfl⟩ := head_eq_node hexpr
      have hinner : Usable (.node .expr elements) := husable.of_mem (by simp)
      simp only [Checked.parts?, Tree.children, List.getElem?_cons_succ, List.getElem?_cons_zero, Option.bind_some,
        Option.bind_eq_bind]
      split
      next callee =>
        have hcall : Usable (.node .call callee) := hinner.of_mem (by simp)
        have hserves : callee.map head ≠ [] := hcall.serves
        rcases callee with _ | ⟨_ | _ | _, rest⟩
        · exact absurd rfl hserves
        all_goals rfl
      next hother =>
        split
        next callee rest => exact absurd rfl (hother _)
        next => rfl

theorem candidateIn?_checked {bindings : List Tree} (hbindings : UsableAll bindings) :
    Checked.candidateIn? bindings =
      some (bindings.findSome? fun binding => (clauseCandidate? binding).or (valueCandidate? binding)) := by
  induction bindings with
  | nil => rfl
  | cons binding rest ih =>
      obtain ⟨hfirst, hrest⟩ := usableAll_cons.mp hbindings
      rw [Checked.candidateIn?, Checked.bindingCandidate?, clauseCandidate?_checked hfirst, List.findSome?_cons, ih hrest]
      cases clauseCandidate? binding with
      | some token => rfl
      | none =>
          simp only [Option.bind_eq_bind, Option.bind_some, valueCandidate?_checked hfirst, Option.none_or]
          cases valueCandidate? binding <;> rfl

theorem memberEvidence?_checked (ht : t.Usable) (name : Token) (params : List Text) :
    Checked.memberEvidence? (some (.leaf name)) params t = some (memberEvidence? name.text params t) := by
  have hbindings : UsableAll (t.childrenWith .binding) := fun s hs =>
    Usable.of_within ht (.of_mem_children (List.mem_filter.mp hs).1)
  rw [Checked.memberEvidence?, hasWrapper_checked ht, candidateIn?_checked hbindings, memberEvidence?, candidate?]
  simp only [Option.bind_eq_bind, Option.bind_some]
  by_cases hwrapper : hasWrapper t = true
  · simp only [if_pos hwrapper]
    cases (t.childrenWith .binding).findSome? fun binding => (clauseCandidate? binding).or (valueCandidate? binding) with
    | none => rfl
    | some candidate =>
        by_cases hparam : params.contains candidate.text = true
        · simp only [if_pos hparam, Option.map_some]
          rfl
        · simp only [if_neg hparam, Option.map_some]
          rfl
  · simp only [if_neg hwrapper]
    rfl

theorem evidenceIn_checked {members : List Tree} (hmembers : UsableAll members) (name : Token) (params : List Text) :
    Checked.evidenceIn (some (.leaf name)) params members = some (members.filterMap (memberEvidence? name.text params)) := by
  induction members with
  | nil => rfl
  | cons member rest ih =>
      obtain ⟨hfirst, hrest⟩ := usableAll_cons.mp hmembers
      rw [Checked.evidenceIn, memberEvidence?_checked hfirst, ih hrest, List.filterMap_cons]
      cases memberEvidence? name.text params member <;> rfl

theorem nodeEvidence_checked (ht : Usable (.node label children)) :
    Checked.nodeEvidence (.node label children) = some (nodeEvidence (.node label children)) := by
  by_cases hlabel : label = .typeDecl
  · subst hlabel
    have hmembers : UsableAll (((Tree.node .typeDecl children).child? .memberBlock).map
        (·.childrenWith .variableDecl) |>.getD []) := fun s hs => Usable.of_within ht (Within.of_mem_childrenWith hs)
    obtain ⟨found, modifiers, keyword, name, front, members, heq, hname, -⟩ := Usable.typeDecl_eq ht
    by_cases hstruct : keyword.kind = .structWord
    · obtain ⟨token, rfl⟩ := hname (.inr hstruct)
      have hevidence := evidenceIn_checked hmembers token (parameterNames (.node .typeDecl children))
      subst heq
      simp only [Checked.nodeEvidence, nodeEvidence, List.getElem?_cons_succ, List.getElem?_cons_zero, token?, hstruct,
        beq_self_eq_true, if_true, Option.bind_eq_bind, Option.bind_some]
      exact hevidence
    · subst heq
      cases name <;> simp [Checked.nodeEvidence, nodeEvidence, token?, hstruct]
  · cases label <;> first | rfl | exact absurd rfl hlabel

theorem evidenceOf_checked {trees : List Tree} (htrees : ∀ t ∈ trees, Checked.evidence t = some (evidence t)) :
    Checked.evidenceOf trees = some (evidenceOf trees) := by
  induction trees with
  | nil => rfl
  | cons t rest ih =>
      rw [Checked.evidenceOf, htrees t (by simp), ih fun s hs => htrees s (by simp [hs])]
      rfl

theorem evidence_checked (ht : t.Usable) : Checked.evidence t = some (evidence t) := by
  induction ht with
  | leaf token => rfl
  | absent => rfl
  | node hserves hinner ih =>
      rw [Checked.evidence, nodeEvidence_checked (.node hserves hinner), evidenceOf_checked ih]
      rfl

/-! ### Accepted sources -/

/-- The tree after a migration for each of the lists of names, one after the other. -/
def migrateAgain (runs : List (List Text)) (t : Tree) : Tree := runs.foldl (fun t names => migrate names t) t

theorem Usable.migrateAgain (ht : t.Usable) (runs : List (List Text)) : (migrateAgain runs t).Usable := by
  induction runs generalizing t with
  | nil => exact ht
  | cons names runs ih => exact ih (migrate_checked names ht).2

/-- Every node of a tree that the grammar yields has the children that its label calls for. Both passes find all they
reach for, in the tree itself and in whatever any migrations have made of it. -/
theorem passes_in_reach {limit : Nat} {tokens : List Token} (hparse : Tree.ofTokens limit tokens = .ok t) :
    (∀ label children, Within (.node label children) t → label.Admits children) ∧
    ∀ (runs : List (List Text)) (names : List Text),
      Checked.evidence (migrateAgain runs t) = some (evidence (migrateAgain runs t)) ∧
      Checked.migrate names (migrateAgain runs t) = some (migrate names (migrateAgain runs t)) := by
  have hshaped := Tree.shaped_of_ofTokens hparse
  refine ⟨fun label children hwithin => (hshaped.of_within hwithin).admits, fun runs names => ?_⟩
  have husable := Usable.migrateAgain hshaped.usable runs
  exact ⟨evidence_checked husable, (migrate_checked names husable).1⟩

/-- A class and a view, migrated twice with different names. -/
theorem passes_in_reach_model :
    ∃ tokens t, Token.stream 1 ("class Model: ObservableObject, { @Published var name = 0 }\n" ++
        "struct Page { @EnvironmentObject @ObservedObject var model: Model }\n").toList = .ok tokens ∧
      Tree.ofTokens 9 tokens = .ok t ∧
      Checked.evidence (migrateAgain [[], ["Model".toList]] t) = some (evidence (migrateAgain [[], ["Model".toList]] t)) := by
  let limits : Limits := { literals := 1, items := 9, nodes := 0 }
  have hsome : (Tree.ofSource limits ("class Model: ObservableObject, { @Published var name = 0 }\n" ++
      "struct Page { @EnvironmentObject @ObservedObject var model: Model }\n").toList).toOption.isSome = true := by
    decide +kernel
  obtain ⟨t, hread⟩ := exists_eq_ok_of_isSome hsome
  obtain ⟨tokens, hstream, hparse⟩ := Tree.ofSource_eq_ok hread
  exact ⟨tokens, t, hstream, hparse, ((passes_in_reach hparse).2 _ []).1⟩

end SwiftObservation.Migration
