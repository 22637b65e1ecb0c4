import SwiftObservation.Proofs.Migration.Remainder
import SwiftObservation.Proofs.Migration.Settled.Basic

/-!
# Settled trees stay as they are

The migration of a settled tree, for the names it is settled for or for fewer, is the tree itself with all its trivia,
and the tree shows no class to be observable but those that its nodes may show.
-/

namespace SwiftObservation.Migration

open SwiftObservation.Tree

variable {names fewer : List Text} {shown : Text → Prop} {label : Label} {children : List Tree} {t : Tree}

theorem migrateMember_eq_self (hroles : memberRoles children = []) :
    migrateMember (.node label children) = .node label children := by
  unfold migrateMember
  split
  next receiver dot name heq =>
    obtain ⟨rfl, rfl⟩ := node.inj heq
    rw [memberRoles] at hroles
    split at hroles
    next => simp at hroles
    next hname => rw [if_neg hname]
  next => rfl

theorem migrateCall_eq_self_of_callRoles (hroles : callRoles children = []) :
    migrateCall (.node label children) = .node label children := by
  unfold migrateCall
  split
  next callee args rest heq =>
    obtain ⟨rfl, rfl⟩ := node.inj heq
    rw [callRoles] at hroles
    split at hroles
    next => simp at hroles
    next hcalled => rw [if_neg hcalled]
  next => rfl

theorem migrateAttribute_eq_self (hstate : isNamed stateObjectName t = false)
    (hobserved : isNamed observedObjectName t = false) : migrateAttribute t = t := by
  unfold migrateAttribute
  split
  · rw [hstate, hobserved]
    rfl
  · rfl

theorem dropAttributes_eq_self {doomed : Tree → Bool} {found rest : List Tree} (hnone : found.any doomed = false) :
    dropAttributes doomed (.node label (.node .attributes found :: rest)) = .node label (.node .attributes found :: rest) := by
  rw [dropAttributes, hnone]
  rfl

theorem migrateVariables_eq_self (hrest : variablesRest children = true) :
    migrateVariables (.node label children) = .node label children := by
  have hother (hchildren : ∀ found rest, children ≠ .node .attributes found :: rest) :
      migrateVariables (.node label children) = .node label children := by
    have henvironment : migrateEnvironment (.node label children) = .node label children := by
      unfold migrateEnvironment
      split
      next found rest heq => exact absurd (node.inj heq).2 (hchildren _ _)
      next => rfl
    rw [migrateVariables, henvironment]
    unfold dropAttributes
    split
    next found rest heq => exact absurd (node.inj heq).2 (hchildren _ _)
    next => rfl
  unfold variablesRest at hrest
  split at hrest
  next found rest =>
    obtain ⟨herased, hmoves⟩ := Bool.and_eq_true_iff.mp hrest
    rw [migrateVariables, migrateEnvironment_eq_self (by simpa using hmoves)]
    exact dropAttributes_eq_self (by simpa using herased)
  next hchildren => exact hother hchildren

/-! ### Classes -/

theorem unpublish_eq_self (hnone : isPublished t = false) : unpublish t = t := by
  rw [unpublish]
  split
  next hvariables =>
    obtain ⟨children, rfl⟩ := exists_of_is hvariables
    rw [isPublished, hvariables, Bool.true_and, Tree.children] at hnone
    split at hnone
    next found rest => exact dropAttributes_eq_self hnone
    next hother =>
      unfold dropAttributes
      split
      next found rest heq => exact absurd (node.inj heq).2 (hother _ _)
      next => rfl
  next => rfl

theorem unpublishBody_eq_self (hnone : (membersOf children).any isPublished = false) : unpublishBody children = children := by
  unfold unpublishBody
  split
  next label members hlast =>
    have hmembers : membersOf children = members := by simp [membersOf, hlast, Tree.children]
    have hall : members.map unpublish = members := by
      refine (List.map_congr_left fun t ht => unpublish_eq_self ?_).trans (List.map_id' members)
      rw [hmembers, List.any_eq_false] at hnone
      simpa using hnone t ht
    obtain ⟨front, rfl⟩ := List.getLast?_eq_some_iff.mp hlast
    rw [hall, List.dropLast_concat]
  next => rfl

/-- The children of a type declaration have no inheritance clause with entries, or are parted by their first one. -/
theorem inheritedEntries_cases (children : List Tree) :
    (inheritedEntries children = [] ∧ leaveProtocol children = .absent) ∨
    ∃ before colon entries behind, children = before ++ .node .inheritance (colon :: entries) :: behind ∧
      (∀ t ∈ before, t.is .inheritance = false) ∧ inheritedEntries children = entries := by
  cases hclause : children.find? (·.is .inheritance) with
  | none =>
      refine .inl ⟨by simp [inheritedEntries, hclause], leaveProtocol_of_not_inherits fun t ht => ?_⟩
      simpa using List.find?_eq_none.mp hclause t ht
  | some clause =>
      obtain ⟨hinherits, before, behind, rfl, hbefore⟩ := List.find?_eq_some_iff_append.mp hclause
      obtain ⟨parts, rfl⟩ := exists_of_is hinherits
      have hnone : ∀ t ∈ before, t.is .inheritance = false := fun t ht => by simpa using hbefore t ht
      cases parts with
      | nil =>
          refine .inl ⟨by simp [inheritedEntries, hclause, Tree.children], ?_⟩
          rw [leaveProtocol, span_inheritance hnone]
      | cons colon entries =>
          exact .inr ⟨before, colon, entries, behind, rfl, hnone, by simp [inheritedEntries, hclause, Tree.children]⟩

theorem leaveProtocol_eq_absent (hnone : (inheritedEntries children).any isProtocolEntry = false) :
    leaveProtocol children = .absent := by
  obtain ⟨-, habsent⟩ | ⟨before, colon, entries, behind, rfl, hbefore, hentries⟩ := inheritedEntries_cases children
  · exact habsent
  · rw [hentries] at hnone
    rw [leaveProtocol_append hbefore, hnone]
    rfl

theorem isProtocolEntry_of_namesProtocol (hnames : namesProtocol t = true) : isProtocolEntry t = true := by
  unfold namesProtocol at hnames
  split at hnames
  next token rest hchildren =>
    cases t with
    | leaf token' => simp [Tree.children] at hchildren
    | absent => simp [Tree.children] at hchildren
    | node label children =>
        rw [Tree.children] at hchildren
        rw [hchildren, isProtocolEntry_plainName, hnames]
  next => simp at hnames

theorem lastOf?_of_getLast? {token : Token} (hlast : children.getLast? = some (.leaf token)) :
    lastOf? children = some token := by
  induction children with
  | nil => simp at hlast
  | cons t rest ih =>
      rw [lastOf?]
      cases rest with
      | nil =>
          obtain rfl : t = .leaf token := by simpa using hlast
          rfl
      | cons next rest =>
          rw [List.getLast?_cons_cons] at hlast
          rw [ih hlast, Option.some_or]

theorem last?_of_endsInComma (hcomma : t.endsInComma = true) : t.last?.any (·.kind == .comma) = true := by
  rw [endsInComma, Option.any_eq_true] at hcomma
  obtain ⟨last, hlast, hkind⟩ := hcomma
  cases t with
  | leaf token => simp [Tree.children] at hlast
  | absent => simp [Tree.children] at hlast
  | node label children =>
      rw [Tree.children] at hlast
      cases last with
      | leaf token =>
          rw [last?, lastOf?_of_getLast? hlast]
          simpa [isLeaf, token?] using hkind
      | node _ _ => simp [isLeaf, token?] at hkind
      | absent => simp [isLeaf, token?] at hkind

/-- A clause in which every entry names the protocol and ends in a comma cannot lose its entries. -/
theorem pruneFrom_eq_dangling {entries : List Tree} (carried : Option Text)
    (hall : (entries.all fun entry => namesProtocol entry && entry.endsInComma) = true) :
    pruneFrom [] carried entries = .dangling := by
  induction entries generalizing carried with
  | nil => rfl
  | cons entry rest ih =>
      rw [List.all_cons, Bool.and_eq_true, Bool.and_eq_true] at hall
      rw [pruneFrom, isProtocolEntry_of_namesProtocol hall.1.1, last?_of_endsInComma hall.1.2]
      exact ih _ hall.2

theorem leaveProtocol_eq_dangling (hany : (inheritedEntries children).any namesProtocol = true)
    (hall : ((inheritedEntries children).all fun entry => namesProtocol entry && entry.endsInComma) = true) :
    leaveProtocol children = .dangling := by
  obtain ⟨hnone, -⟩ | ⟨before, colon, entries, behind, rfl, hbefore, hentries⟩ := inheritedEntries_cases children
  · rw [hnone] at hany
    simp at hany
  · rw [hentries] at hany hall
    have hprotocol : entries.any isProtocolEntry = true := by
      obtain ⟨entry, hentry, hnames⟩ := List.any_eq_true.mp hany
      exact List.any_eq_true.mpr ⟨entry, hentry, isProtocolEntry_of_namesProtocol hnames⟩
    rw [leaveProtocol_append hbefore, hprotocol, prune, pruneFrom_eq_dangling none hall]
    rfl

/-- An entry that can be told by its words is the protocol just if its words say so. -/
theorem isProtocolEntry_eq (htellable : isTellable t = true) : isProtocolEntry t = namesProtocol t := by
  rw [isTellable, Bool.and_eq_true] at htellable
  obtain ⟨hlabel, htellable⟩ := htellable
  obtain ⟨children, rfl⟩ := exists_of_is hlabel
  rw [Tree.children] at htellable
  split at htellable
  next token rest =>
    rw [isProtocolEntry_plainName]
    rfl
  next token opener args parts rest =>
    rw [isProtocolEntry_genericArgs htellable]
    rfl
  next => simp at htellable
  next _ _ hother =>
    have hnames : namesProtocol (.node .inheritedType children) = false := by
      unfold namesProtocol
      split
      next token rest heq => exact absurd heq (hother _ _)
      next => rfl
    rw [hnames]
    unfold isProtocolEntry
    split
    next bound rest heq =>
      rw [Bool.and_eq_false_iff, Bool.eq_false_iff]
      refine .inl fun his => ?_
      obtain ⟨parts, rfl⟩ := exists_of_is his
      exact hother parts rest heq
    next => rfl

theorem isConverted_mono (hfewer : fewer ⊆ names) (hconverted : isConverted fewer children = true) :
    isConverted names children = true := by
  unfold isConverted at hconverted ⊢
  split at hconverted
  next attributes modifiers keyword name rest =>
    rw [Bool.and_eq_true] at hconverted ⊢
    refine ⟨hconverted.1, ?_⟩
    have hname := hconverted.2
    split at hname
    next hany => rwa [if_pos hany]
    next hany =>
      rw [if_neg hany]
      rw [Option.any_eq_true] at hname ⊢
      obtain ⟨token, htoken, hmem⟩ := hname
      exact ⟨token, htoken, by simpa using hfewer (by simpa using hmem)⟩
  next => simp at hconverted

theorem migrateType_eq_self (hfewer : fewer ⊆ names) (hrests : Rests names shown .typeDecl children) :
    migrateType fewer (.node .typeDecl children) = .node .typeDecl children := by
  have hentries : (inheritedEntries children).any isProtocolEntry = (inheritedEntries children).any namesProtocol := by
    rw [Bool.eq_iff_iff, List.any_eq_true, List.any_eq_true]
    exact exists_congr fun entry => and_congr_right fun hentry => by
      rw [isProtocolEntry_eq (List.all_eq_true.mp hrests.1 entry hentry)]
  unfold migrateType
  split
  next attributes modifiers keyword name rest heq =>
    obtain ⟨rfl, rfl⟩ := node.inj heq
    split
    next hclass =>
      cases hconverted : isConverted fewer (attributes :: modifiers :: .leaf keyword :: name :: rest) with
      | true =>
          obtain ⟨hnone, hobservable⟩ := hrests.2.1 (isConverted_mono hfewer hconverted)
          rw [isObservable, Bool.and_eq_true] at hobservable
          have hunpublished := unpublishBody_eq_self (by simpa using hobservable.2)
          have hattribute : attributes.children.any (isNamed observableName) = true := hobservable.1
          dsimp only
          rw [leaveProtocol_eq_absent (hentries.trans hnone), convertClass, hunpublished, hattribute]
          simp
      | false =>
          simp only [isConverted, hclass, Bool.true_and] at hconverted
          split at hconverted
          next hany =>
            dsimp only
            rw [leaveProtocol_eq_dangling hany (by simpa using hconverted)]
          next hnone =>
            dsimp only
            rw [leaveProtocol_eq_absent (hentries.trans (by simpa using hnone)), hconverted]
            rfl
    next => rfl
  next => rfl

/-! ### Whole trees -/

/-- A settled tree is migrated to itself, trivia included, for all or some of the names. -/
theorem Settled.migrate_eq (hfewer : fewer ⊆ names) (ht : Settled names shown t) : migrate fewer t = t := by
  induction ht with
  | leaf token => rfl
  | absent => rfl
  | @node label children hrests _ ih =>
      have hchildren : children.map (migrate fewer) = children :=
        (List.map_congr_left ih).trans (List.map_id' children)
      rw [migrate_node, hchildren]
      cases label
      case typeDecl => exact migrateType_eq_self hfewer hrests
      case variableDecl => exact migrateVariables_eq_self hrests
      case attr => exact migrateAttribute_eq_self hrests.1 hrests.2
      case call => exact migrateCall_eq_self_of_callRoles hrests
      case memberAccess => exact migrateMember_eq_self hrests
      all_goals rfl

theorem shownNames_of_ne_typeDecl (hlabel : label ≠ .typeDecl) : shownNames (.node label children) = [] := by
  rw [shownNames]
  cases label <;> first | rfl | exact absurd rfl hlabel

theorem filterMap_name?_evidenceOf (trees : List Tree) :
    (evidenceOf trees).filterMap (·.name?) = trees.flatMap fun t => (evidence t).filterMap (·.name?) := by
  induction trees with
  | nil => rfl
  | cons t rest ih => rw [evidenceOf, List.filterMap_append, ih, List.flatMap_cons]

/-- All that a settled tree shows to be observable is as its nodes say. -/
theorem Settled.shown_of_evidence (ht : Settled names shown t) : ∀ name ∈ (evidence t).filterMap (·.name?), shown name := by
  induction ht with
  | leaf token => simp [evidence]
  | absent => simp [evidence]
  | @node label children hrests _ ih =>
      rw [evidence, List.filterMap_append, filterMap_name?_evidenceOf]
      refine List.forall_mem_append.mpr ⟨?_, ?_⟩
      · by_cases hlabel : label = .typeDecl
        · subst hlabel
          exact hrests.2.2
        · rw [← shownNames, shownNames_of_ne_typeDecl hlabel]
          exact List.forall_mem_nil _
      · intro name hname
        obtain ⟨t, ht, hname⟩ := List.mem_flatMap.mp hname
        exact ih t ht name hname

theorem mem_inferredNames {name : Text} : name ∈ inferredNames t ↔ name ∈ (evidence t).filterMap (·.name?) := by
  rw [inferredNames, List.mem_mergeSort, List.mem_eraseDups]

theorem Settled.inferredNames_subset (ht : Settled names (· ∈ names) t) : inferredNames t ⊆ names :=
  fun name hname => ht.shown_of_evidence name (mem_inferredNames.mp hname)

end SwiftObservation.Migration
