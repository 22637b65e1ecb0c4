import Mathlib.Data.List.Basic
import SwiftObservation.Proofs.Migration.Settled.Parts
import SwiftObservation.Proofs.Tree.Within

/-!
# Migration shows no new names

A member of a structure shows a class to be observable by one of three wrappers, and migration leaves only one of them,
where no type moved. The type of such a member is the one it had, unless it is told by a call of the wrapper of an owned
object, which migration renames.
-/

namespace SwiftObservation.Migration

open SwiftObservation.Tree

variable {names : List Text} {shown : Text → Prop} {label : Label} {children : List Tree} {t : Tree}

/-- The name that a piece of evidence is about. -/
def Evidence.subject : Evidence → Text
  | observable name => name
  | ambiguous candidate _ => candidate.text

/-- The number of wrappers of objects from the environment that a declaration of variables has. -/
def lookups : Tree → Nat
  | .node .variableDecl (.node .attributes found :: _) => found.countP (isNamed environmentObjectName)
  | _ => 0

/-! ### Types of members -/

theorem child?_map_migrate (children : List Tree) (inner : Label) :
    (Tree.node label (children.map (migrate names))).child? inner =
      ((Tree.node label children).child? inner).map (migrate names) := by
  rw [child?, Tree.children, find?_is_map_migrate, child?, Tree.children]

theorem childrenWith_map_migrate (children : List Tree) (inner : Label) :
    (Tree.node label (children.map (migrate names))).childrenWith inner =
      ((Tree.node label children).childrenWith inner).map (migrate names) := by
  rw [childrenWith, Tree.children, List.filter_map, childrenWith, Tree.children]
  congr 2
  funext t
  exact is_migrate t inner

theorem clauseCandidate?_migrate (ht : Shaped (.node .binding children)) :
    clauseCandidate? (migrate names (.node .binding children)) = clauseCandidate? (.node .binding children) := by
  rw [migrate_node_of_not_mem .binding (by decide), clauseCandidate?, clauseCandidate?, child?_map_migrate]
  cases hclause : (Tree.node .binding children).child? .typeClause with
  | none => rfl
  | some clause =>
      have hmem : clause ∈ children := List.mem_of_find?_eq_some hclause
      have hlabel : clause.is .typeClause = true := by simpa using List.find?_some hclause
      obtain ⟨parts, rfl⟩ := exists_of_is hlabel
      rw [Option.map_some, migrate_node_of_not_mem .typeClause (by decide)]
      simp only [Option.bind_eq_bind, Option.bind_some, Tree.children, List.getElem?_map]
      cases hbound : parts[1]? with
      | none => rfl
      | some bound =>
          simp only [Option.map_some, Option.bind_some, is_migrate]
          split
          next hplain =>
            obtain ⟨inner, rfl⟩ := exists_of_is hplain
            have hshaped : Shaped (.node .typeIdentifier inner) := (ht.of_mem hmem).of_mem (List.mem_of_getElem? hbound)
            obtain ⟨name, args, rfl, -⟩ := hshaped.admits
            rfl
          next => rfl

theorem callee_migrate {callee : Token} {args : List Tree}
    (hother : callee.kind = .identifier → callee.text ≠ stateObjectName) :
    migrate names (.node .call (.leaf callee :: args)) = .node .call (.leaf callee :: args.map (migrate names)) := by
  rw [migrate_node, List.map_cons, migrate_leaf, migrateNode]
  unfold migrateCall
  split
  next heq =>
    obtain ⟨rfl, hchildren⟩ := node.inj heq
    obtain ⟨hcallee, -⟩ := List.cons.inj hchildren
    cases hcallee
    have hcalled : (callee.kind == .identifier && callee.text == stateObjectName) = false := by simpa using hother
    simp [hcalled]
  next => rfl

theorem singleCallee?_map_migrate {elements : List Tree}
    (hother : ∀ callee ∈ singleCallee? elements, callee.text ≠ stateObjectName) :
    singleCallee? (elements.map (migrate names)) = singleCallee? elements := by
  rcases elements with _ | ⟨element, _ | ⟨_, _⟩⟩
  · rfl
  · cases element with
    | leaf | absent => rfl
    | node inner parts =>
        by_cases hinner : inner = .call
        · subst hinner
          rcases parts with _ | ⟨callee | ⟨deep, deeper⟩ | _, rest⟩
          · rfl
          · have hname : callee.kind = .identifier → callee.text ≠ stateObjectName :=
              fun hkind => hother callee (by simp [singleCallee?, hkind])
            rw [List.map_singleton, callee_migrate hname, singleCallee?, singleCallee?]
          · obtain ⟨deeper', hnode⟩ := exists_migrateNode names deep (deeper.map (migrate names))
            rw [List.map_singleton, migrate_node, migrateNode, migrateCall_eq_self (by simp), List.map_cons, migrate_node,
              hnode]
            rfl
          · rw [List.map_singleton, migrate_node, migrateNode, migrateCall_eq_self (by simp)]
            rfl
        · obtain ⟨parts', hnode⟩ := exists_migrateNode names inner (parts.map (migrate names))
          rw [List.map_singleton, migrate_node, hnode]
          cases inner <;> first | rfl | exact absurd rfl hinner
  · simp [singleCallee?]

theorem valueCandidate?_migrate (ht : Shaped (.node .binding children))
    (hother : ∀ callee ∈ valueCandidate? (.node .binding children), callee.text ≠ stateObjectName) :
    valueCandidate? (migrate names (.node .binding children)) = valueCandidate? (.node .binding children) := by
  rw [migrate_node_of_not_mem .binding (by decide), valueCandidate?_eq, child?_map_migrate]
  rw [valueCandidate?_eq] at hother ⊢
  cases hvalue : (Tree.node .binding children).child? .initialValue with
  | none => rfl
  | some value =>
      have hlabel : value.is .initialValue = true := by simpa using List.find?_some hvalue
      obtain ⟨parts, rfl⟩ := exists_of_is hlabel
      have hshaped : Shaped (.node .initialValue parts) := ht.of_mem (List.mem_of_find?_eq_some hvalue)
      obtain ⟨sign, elements, rfl, -⟩ := hshaped.admits
      rw [hvalue] at hother
      rw [Option.map_some, migrate_node_of_not_mem .initialValue (by decide)]
      simp only [List.map_cons, List.map_nil, migrate_node_of_not_mem .expr (by decide)]
      exact singleCallee?_map_migrate hother

/-- Migration leaves the type that a declaration of variables names first, if that is not told by the wrapper of an owned
object. -/
theorem candidateOf_migrate (names : List Text) {bindings : List Tree} (ht : ShapedAll bindings)
    (hlabel : ∀ t ∈ bindings, t.is .binding = true)
    (hother : ∀ candidate ∈ bindings.findSome? (fun t => (clauseCandidate? t).or (valueCandidate? t)),
      candidate.text ≠ stateObjectName) :
    (bindings.map (migrate names)).findSome? (fun t => (clauseCandidate? t).or (valueCandidate? t)) =
      bindings.findSome? fun t => (clauseCandidate? t).or (valueCandidate? t) := by
  induction bindings with
  | nil => rfl
  | cons binding rest ih =>
      obtain ⟨hshaped, hrest⟩ := shapedAll_cons.mp ht
      obtain ⟨children, rfl⟩ := exists_of_is (hlabel binding (by simp))
      rw [List.map_cons, List.findSome?_cons, List.findSome?_cons, clauseCandidate?_migrate hshaped]
      rw [List.findSome?_cons] at hother
      cases hclause : clauseCandidate? (.node .binding children) with
      | some candidate => rfl
      | none =>
          rw [hclause, Option.none_or] at hother
          rw [Option.none_or, Option.none_or, valueCandidate?_migrate hshaped ?_]
          · cases hvalue : valueCandidate? (.node .binding children) with
            | some candidate => rfl
            | none =>
                rw [hvalue] at hother
                exact ih hrest (fun t ht => hlabel t (by simp [ht])) hother
          · intro callee hcallee
            exact hother callee (by rw [Option.mem_def.mp hcallee]; rfl)

/-! ### Wrappers of members -/

theorem hasWrapper_eq {found rest : List Tree} :
    hasWrapper (.node label (.node .attributes found :: rest)) =
      (found.filter (·.is .attr)).any fun t => (attributeName? t).any wrapperNames.contains := rfl

/-- A settled wrapper that shows a class to be observable is one of an object from the environment. -/
theorem isNamed_of_wrapper (ht : Settled names shown t) (hattr : t.is .attr = true)
    (hwrapper : (attributeName? t).any wrapperNames.contains = true) : isNamed environmentObjectName t = true := by
  obtain ⟨children, rfl⟩ := exists_of_is hattr
  obtain ⟨hstate, hobserved⟩ := ht.rests
  rw [Option.any_eq_true] at hwrapper
  obtain ⟨name, hname, hmem⟩ := hwrapper
  rw [isNamed, hname] at hstate hobserved
  simp only [wrapperNames, List.contains_eq_mem, decide_eq_true_eq, List.mem_cons, List.not_mem_nil, or_false] at hmem
  rcases hmem with rfl | rfl | rfl
  · simp at hstate
  · simp [isNamed, hname]
  · simp at hobserved

theorem hasWrapper_of_isNamed {found rest : List Tree} (hattrs : ∀ t ∈ found, t.is .attr = true) (hmem : t ∈ found)
    (hnamed : isNamed environmentObjectName t = true) :
    hasWrapper (.node label (.node .attributes found :: rest)) = true := by
  rw [hasWrapper_eq, List.any_eq_true]
  refine ⟨t, List.mem_filter.mpr ⟨hmem, hattrs t hmem⟩, ?_⟩
  rw [isNamed, beq_iff_eq] at hnamed
  rw [hnamed, Option.any_some]
  decide

theorem countP_environmentObject_migrate {found : List Tree} (hattrs : ∀ t ∈ found, t.Shaped ∧ t.is .attr = true) :
    (found.map (migrate names)).countP (isNamed environmentObjectName) =
      found.countP (isNamed environmentObjectName) := by
  rw [List.countP_map]
  refine List.countP_congr fun t ht => ?_
  rw [Function.comp_apply, isNamed_environmentObject_migrate (hattrs t ht).1 (hattrs t ht).2]

theorem candidate?_variableDecl {found modifiers bindings : List Tree} {keyword : Token}
    (hlabel : ∀ t ∈ bindings, t.is .binding = true) :
    candidate? (.node .variableDecl (.node .attributes found :: .node .modifiers modifiers :: .leaf keyword :: bindings)) =
      bindings.findSome? fun t => (clauseCandidate? t).or (valueCandidate? t) := by
  have hbindings : bindings.filter (·.is .binding) = bindings := List.filter_eq_self.mpr hlabel
  rw [candidate?, childrenWith, Tree.children]
  simp [hbindings]

/-- A migrated member shows nothing that it did not show before. -/
theorem shownBy_migrate (params : List Text) (hin : SettledAll names shown (children.map (migrate names)))
    (ht : Shaped (.node .variableDecl children)) (hsingle : lookups (.node .variableDecl children) ≤ 1)
    (hother : hasWrapper (.node .variableDecl children) = true →
      ∀ candidate ∈ candidate? (.node .variableDecl children), candidate.text ≠ stateObjectName) :
    ∀ name ∈ shownBy params (migrate names (.node .variableDecl children)),
      name ∈ shownBy params (.node .variableDecl children) := by
  obtain ⟨found, modifiers, keyword, bindings, rfl, -, hbindings⟩ := ht.admits
  have hattributes : Shaped (.node .attributes found) := ht.of_mem (by simp)
  have hattrs : ∀ t ∈ found, t.Shaped ∧ t.is .attr = true :=
    fun t hmem => ⟨hattributes.of_mem hmem, hattributes.admits t hmem⟩
  have hlabels : ∀ t ∈ found.map (migrate names), t.is .attr = true := by
    intro t hmem
    obtain ⟨original, horiginal, rfl⟩ := List.mem_map.mp hmem
    rw [is_migrate]
    exact (hattrs original horiginal).2
  rw [List.map_cons, settledAll_cons, migrate_node_of_not_mem .attributes (by decide)] at hin
  rw [migrate_node, migrateNode, List.map_cons, migrate_node_of_not_mem .attributes (by decide)]
  obtain ⟨found', rest', heq, hsettled, hlabels', -, hcases⟩ := migrateVariables_cases
    (by rw [countP_environmentObject_migrate hattrs]; exact hsingle) (fun t hmem => hin.1.of_mem hmem) hlabels hin.2
  obtain ⟨kept, behind, hdropped, hkept, hbehind⟩ := dropAttributes_eq isErased .variableDecl found' rest'
  have hshown : shownBy params (dropAttributes isErased (.node .variableDecl (.node .attributes found' :: rest'))) =
      shownBy params (.node .variableDecl (.node .attributes (found'.filter (!isErased ·)) :: rest')) := by
    rw [hdropped, ← shownBy_asRead params rfl, ← asRead_bare, ← shownBy_asRead params (t := .node .variableDecl (_ :: rest')) rfl,
      ← asRead_bare (.node .variableDecl (_ :: rest'))]
    simp [hkept, hbehind]
  intro name hname
  rw [heq, hshown, shownBy] at hname
  split at hname
  next hwrapper =>
    rw [hasWrapper_eq, List.any_eq_true] at hwrapper
    obtain ⟨t, hmem, hwrapper⟩ := hwrapper
    have hfound : t ∈ found' := (List.mem_filter.mp (List.mem_filter.mp hmem).1).1
    have hnamed : isNamed environmentObjectName t = true :=
      isNamed_of_wrapper (hsettled t hfound) (hlabels' t hfound) hwrapper
    obtain ⟨-, rfl, rfl⟩ | hnone := hcases
    · -- No type moved, so the wrapper was there before and the type is the same.
      obtain ⟨original, horiginal, rfl⟩ := List.mem_map.mp hfound
      rw [isNamed_environmentObject_migrate (hattrs original horiginal).1 (hattrs original horiginal).2] at hnamed
      have hbefore : hasWrapper (.node .variableDecl
          (.node .attributes found :: .node .modifiers modifiers :: .leaf keyword :: bindings)) = true :=
        hasWrapper_of_isNamed (fun t hmem => (hattrs t hmem).2) horiginal hnamed
      have hcandidate := hother hbefore
      rw [candidate?_variableDecl hbindings] at hcandidate
      rw [shownBy, hbefore, if_pos rfl, candidate?_variableDecl hbindings,
        ← candidateOf_migrate names (fun t hmem => ht.of_mem (by simp [hmem])) hbindings hcandidate]
      rwa [List.map_cons, migrate_node_of_not_mem .modifiers (by decide), List.map_cons, migrate_leaf,
        candidate?_variableDecl fun t hmem => ?_] at hname
      obtain ⟨binding, hbinding, rfl⟩ := List.mem_map.mp hmem
      rw [is_migrate]
      exact hbindings binding hbinding
    · rw [List.any_eq_false] at hnone
      exact absurd hnamed (hnone t hfound)
  next => simp at hname

/-! ### Structures -/

theorem parameterName?_migrate (hlabel : label ∉ ruled) :
    parameterName? (migrate names (.node label children)) = parameterName? (.node label children) := by
  rw [migrate_node_of_not_mem label hlabel, parameterName?, parameterName?, Tree.children, Tree.children, List.takeWhile_map]
  have hword : (fun t : Tree => t.token?.any (·.isWord)) ∘ migrate names = fun t => t.token?.any (·.isWord) := by
    funext t
    rw [Function.comp_apply, token?_migrate]
  rw [hword, List.getLast?_map]
  cases (children.takeWhile fun t => t.token?.any (·.isWord)).getLast? with
  | none => rfl
  | some last => rw [Option.map_some, Option.bind_some, token?_migrate, Option.bind_some]

theorem parameterNames_map_migrate (children : List Tree) :
    parameterNames (.node label (children.map (migrate names))) = parameterNames (.node label children) := by
  rw [parameterNames, child?_map_migrate, parameterNames]
  cases hparams : (Tree.node label children).child? .genericParams with
  | none => rfl
  | some params =>
      have hlabel : params.is .genericParams = true := by simpa using List.find?_some hparams
      obtain ⟨parts, rfl⟩ := exists_of_is hlabel
      rw [Option.map_some, migrate_node_of_not_mem .genericParams (by decide)]
      simp only [Option.map_some, Option.getD_some, childrenWith_map_migrate, List.filterMap_map]
      refine List.filterMap_congr fun param hmem => ?_
      obtain ⟨inner, rfl⟩ := exists_of_is (List.mem_filter.mp hmem).2
      exact parameterName?_migrate (by decide)

theorem exists_memberEvidence? (declaration : Text) (params : List Text) {member : Tree} {candidate : Token}
    (hwrapper : hasWrapper member = true) (hcandidate : candidate? member = some candidate) :
    ∃ e, memberEvidence? declaration params member = some e ∧ e.subject = candidate.text := by
  rw [memberEvidence?, hwrapper, hcandidate]
  by_cases hparam : candidate.text ∈ params
  · exact ⟨.ambiguous candidate declaration, by simp [hparam], rfl⟩
  · exact ⟨.observable candidate.text, by simp [hparam], rfl⟩

/-- A structure with migrated parts shows nothing that it did not show before. -/
theorem shownNames_map_migrate (ht : Shaped (.node .typeDecl children))
    (hdeep : ∀ s ∈ children, ∀ member ∈ s.children, SettledAll names shown (member.children.map (migrate names)))
    (hsingle : ∀ s, Within s (.node .typeDecl children) → lookups s ≤ 1)
    (hevidence : ∀ e ∈ nodeEvidence (.node .typeDecl children), e.subject ≠ stateObjectName) :
    shownNames (.node .typeDecl (children.map (migrate names))) ⊆ shownNames (.node .typeDecl children) := by
  obtain ⟨attributes, modifiers, keyword, declared, rest, rfl⟩ : ∃ attributes modifiers keyword declared rest,
      children = attributes :: modifiers :: .leaf keyword :: declared :: rest := by
    obtain ⟨attributes, modifiers, keyword, declared, _, _, _, _, hchildren, -⟩ := ht.admits
    exact ⟨_, _, keyword, declared, _, hchildren⟩
  match declared with
  | .absent => exact List.nil_subset _
  | .node inner parts =>
      obtain ⟨parts', hnode⟩ := exists_migrateNode names inner (parts.map (migrate names))
      have hname : migrate names (.node inner parts) = .node inner parts' := by rw [migrate_node, hnode]
      rw [List.map_cons, List.map_cons, List.map_cons, List.map_cons, hname]
      exact List.nil_subset _
  | .leaf name =>
      have hmap : (attributes :: modifiers :: .leaf keyword :: .leaf name :: rest).map (migrate names) =
          migrate names attributes :: migrate names modifiers :: .leaf keyword :: .leaf name :: rest.map (migrate names) := rfl
      rw [hmap, shownNames_eq, shownNames_eq, ← hmap]
      dsimp only
      rw [parameterNames_map_migrate, child?_map_migrate]
      cases hstruct : keyword.kind == .structWord with
      | false => exact List.nil_subset _
      | true =>
          cases hbody : (Tree.node .typeDecl (attributes :: modifiers :: .leaf keyword :: .leaf name :: rest)).child?
              .memberBlock with
          | none => exact List.nil_subset _
          | some body =>
              have hmem := List.mem_of_find?_eq_some hbody
              have hlabel : body.is .memberBlock = true := by simpa using List.find?_some hbody
              obtain ⟨members, rfl⟩ := exists_of_is hlabel
              rw [Option.map_some, migrate_node_of_not_mem .memberBlock (by decide)]
              simp only [if_true, Option.map_some, Option.getD_some, childrenWith_map_migrate]
              intro shown hshown
              obtain ⟨migrated, hmigrated, hshown⟩ := List.mem_filterMap.mp hshown
              obtain ⟨member, hmember, rfl⟩ := List.mem_map.mp hmigrated
              obtain ⟨parts, rfl⟩ := exists_of_is (List.mem_filter.mp hmember).2
              have hinside := (List.mem_filter.mp hmember).1
              refine List.mem_filterMap.mpr ⟨_, hmember, ?_⟩
              refine shownBy_migrate _ (hdeep _ hmem _ hinside) ((ht.of_mem hmem).of_mem hinside)
                (hsingle _ (.child hmem (.child hinside .self))) ?_ shown hshown
              · intro hwrapper candidate hcandidate
                obtain ⟨e, he, hsubject⟩ := exists_memberEvidence? name.text (parameterNames (.node .typeDecl
                  (attributes :: modifiers :: .leaf keyword :: .leaf name :: rest))) hwrapper hcandidate
                rw [← hsubject]
                refine hevidence e ?_
                rw [nodeEvidence, hstruct, if_pos rfl, hbody]
                exact List.mem_filterMap.mpr ⟨_, hmember, he⟩

end SwiftObservation.Migration
