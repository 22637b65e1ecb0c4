import SwiftObservation.Proofs.Migration.Following.Basic

/-!
# Expressions, attributes and clauses follow their edits

The nodes below a declaration: what is left of each in the roles that the rules give to it.
-/

namespace SwiftObservation.Migration

open SwiftObservation.Tree

variable {names : List Text} {label : Label} {children : List Tree} {t : Tree}

/-! ### Expressions -/

theorem migrate_eq_leaf_iff {token : Token} : migrate names t = .leaf token ↔ t = .leaf token := by
  constructor
  · intro hleaf
    have htoken := congrArg token? hleaf
    rw [token?_migrate] at htoken
    cases t with
    | leaf token' => exact hleaf
    | node label children => simp [token?] at htoken
    | absent => simp [token?] at htoken
  · rintro rfl
    rfl

theorem after_edits_memberAccess (hin : ∀ t ∈ children, Follows names t) (ht : Shaped (.node .memberAccess children)) :
    after (edits names .free (.node .memberAccess children)) =
      (migrate names (.node .memberAccess children)).words := by
  obtain ⟨receiver, dot, name, rfl, -⟩ := ht.admits
  rw [migrate_node, migrateNode, List.map_cons, List.map_cons, List.map_singleton, migrate_leaf, migrate_leaf,
    migrateMember]
  cases hname : name.text == environmentObjectModifier with
  | false =>
      rw [after_edits_node .memberAccess .free hin (fitAll_nil _) (by simp [Role.below, ownRoles, memberRoles, hname])]
      simp [insertedBehind]
  | true =>
      have hnamed : name.text.isEmpty = false := by
        rw [beq_iff_eq.mp hname]
        decide
      have hsuccessor : environmentModifier.isEmpty = false := by decide
      have hfit : FitAll [.free, .free, .renamed environmentModifier] [receiver, .leaf dot, .leaf name] :=
        ⟨trivial, trivial, ⟨hsuccessor, .inl ⟨name, rfl, hnamed⟩⟩, trivial⟩
      rw [after_edits_node .memberAccess .free hin hfit (by simp [Role.below, ownRoles, memberRoles, hname])]
      simp [insertedBehind, Role.left, -List.isEmpty_eq_false_iff, hsuccessor, leftOf]

/-- A call that the rule for calls is not about. -/
theorem migrateCall_eq_self (hother : ∀ callee args rest, children ≠ .leaf callee :: .node .arguments args :: rest) :
    migrateCall (.node label (children.map (migrate names))) = .node label (children.map (migrate names)) := by
  unfold migrateCall
  split
  next label' callee args rest heq =>
    obtain ⟨-, hchildren⟩ := node.inj heq
    obtain ⟨first, _, rfl, hfirst, hrest⟩ := List.map_eq_cons_iff.mp hchildren
    obtain ⟨second, rest', rfl, hsecond, -⟩ := List.map_eq_cons_iff.mp hrest
    obtain rfl := migrate_eq_leaf_iff.mp hfirst
    have hlabel : second.is .arguments = true := by
      rw [← is_migrate second .arguments, hsecond]
      rfl
    obtain ⟨args', rfl⟩ := exists_of_is hlabel
    exact absurd rfl (hother callee args' rest')
  next => rfl

theorem after_edits_call (hin : ∀ t ∈ children, Follows names t) :
    after (edits names .free (.node .call children)) = (migrate names (.node .call children)).words := by
  have hplain : callRoles children = [] →
      after (edits names .free (.node .call children)) = (children.map (migrate names)).flatMap words := by
    intro hroles
    rw [after_edits_node .call .free hin (fitAll_nil _) (by simp [Role.below, ownRoles, hroles])]
    simp [insertedBehind]
  by_cases hcall : ∃ callee args rest, children = .leaf callee :: .node .arguments args :: rest
  · obtain ⟨callee, args, rest, rfl⟩ := hcall
    have hany : (args.map (migrate names)).any isWrappedValue = args.any isWrappedValue := by
      rw [List.any_map]
      congr 1
      funext t
      exact isWrappedValue_migrate t
    rw [migrate_node, migrateNode, List.map_cons, List.map_cons, migrate_leaf,
      migrate_node_of_not_mem .arguments (by decide), migrateCall, hany]
    cases hcalled : callee.kind == .identifier && callee.text == stateObjectName && args.any isWrappedValue with
    | false =>
        rw [hplain (by simp [callRoles, hcalled])]
        simp [migrate_node_of_not_mem .arguments (by decide)]
    | true =>
        simp only [Bool.and_eq_true, beq_iff_eq] at hcalled
        have hnamed : callee.text.isEmpty = false := by
          rw [hcalled.1.2]
          decide
        have hsuccessor : stateName.isEmpty = false := by decide
        have hfit : FitAll [.renamed stateName, .relabelled] (.leaf callee :: .node .arguments args :: rest) :=
          ⟨⟨hsuccessor, .inl ⟨callee, rfl, hnamed⟩⟩, rfl, fitAll_nil rest⟩
        rw [after_edits_node .call .free hin hfit (by simp [Role.below, ownRoles, callRoles, hcalled])]
        simp only [List.map_cons, leftOf_cons, leftOf_nil, migrate_node_of_not_mem .arguments (by decide)]
        simp [insertedBehind, Role.left, argumentWords, Tree.children, -List.isEmpty_eq_false_iff, hsuccessor,
          List.flatMap_map]
  · have hother : ∀ callee args rest, children ≠ .leaf callee :: .node .arguments args :: rest :=
      fun callee args rest heq => hcall ⟨callee, args, rest, heq⟩
    have hroles : callRoles children = [] := by
      unfold callRoles
      split
      next callee args rest => exact absurd rfl (hother callee args rest)
      next => rfl
    rw [hplain hroles, migrate_node, migrateNode, migrateCall_eq_self hother, words_node]

/-! ### Attributes -/

theorem after_edits_attr (hin : ∀ t ∈ children, Follows names t) (ht : Shaped (.node .attr children)) :
    after (edits names .free (.node .attr children)) = (migrate names (.node .attr children)).words := by
  cases hobserved : isNamed observedObjectName (.node .attr children) with
  | true =>
      obtain ⟨sign, _, _, hchildren, -⟩ := ht.admits
      obtain ⟨_, token, rest, rfl, htoken⟩ := exists_of_isNamed hobserved
      obtain ⟨rfl, -⟩ := List.cons.inj hchildren
      have hfit : FitAll (List.map (fun _ => .gone) (.leaf sign :: .node .typeIdentifier [.leaf token] :: rest))
          (.leaf sign :: .node .typeIdentifier [.leaf token] :: rest) := fitAll_map fun _ _ => trivial
      rw [migrate_attr_observedObject htoken, after_edits_node .attr .free hin hfit
        (by rw [Role.below, ownRoles, attributeRoles, if_pos hobserved]), leftOf_map]
      simp [insertedBehind, erased]
  | false =>
      cases hstate : isNamed stateObjectName (.node .attr children) with
      | true =>
          obtain ⟨sign, token, rest, rfl, htoken⟩ := exists_of_isNamed hstate
          have hnamed : token.text.isEmpty = false := by
            rw [htoken]
            decide
          have hsuccessor : stateName.isEmpty = false := by decide
          have hfit : FitAll [.free, .renamed stateName] (sign :: .node .typeIdentifier [.leaf token] :: rest) :=
            ⟨trivial, ⟨hsuccessor, .inr ⟨.typeIdentifier, _, [], rfl, by decide, token, rfl, hnamed⟩⟩, fitAll_nil rest⟩
          rw [migrate_attr_stateObject htoken, after_edits_node .attr .free hin hfit
            (by simp [Role.below, ownRoles, attributeRoles, hobserved, hstate])]
          simp [insertedBehind, rename, -List.isEmpty_eq_false_iff, hsuccessor]
      | false =>
          rw [migrate_attr_of_not_isNamed hstate hobserved, after_edits_node .attr .free hin (fitAll_nil _)
            (by simp [Role.below, ownRoles, attributeRoles, hobserved, hstate])]
          simp [insertedBehind]

/-- The wrapper of an object from the environment is not one of those that migration changes by themselves. -/
theorem isNamed_environmentObject_migrate (ht : t.Shaped) (hattr : t.is .attr = true) :
    isNamed environmentObjectName (migrate names t) = isNamed environmentObjectName t := by
  obtain ⟨children, rfl⟩ := exists_of_is hattr
  exact isNamed_migrate (by decide) ht

theorem isNamed_published_migrate (ht : t.Shaped) (hattr : t.is .attr = true) :
    isNamed publishedName (migrate names t) = isNamed publishedName t := by
  obtain ⟨children, rfl⟩ := exists_of_is hattr
  exact isNamed_migrate (by decide) ht

theorem after_edits_lookup {type : List Word} (hin : ∀ t ∈ children, Follows names t)
    (hnamed : isNamed environmentObjectName (.node .attr children) = true) (hlength : children.length = 2) :
    after (edits names (.lookup type) (.node .attr children)) =
      (Role.lookup type).left (migrate names (.node .attr children)) := by
  obtain ⟨sign, token, rest, rfl, htoken⟩ := exists_of_isNamed hnamed
  obtain rfl : rest = [] := by simpa using hlength
  have hkept : token.text.isEmpty = false := by
    rw [htoken]
    decide
  have hother : token.text ≠ stateObjectName ∧ token.text ≠ observedObjectName := by
    rw [htoken]
    decide
  have hfit : FitAll [.free, .renamed environmentName] [sign, .node .typeIdentifier [.leaf token]] :=
    ⟨trivial, ⟨by decide, .inr ⟨.typeIdentifier, _, [], rfl, by decide, token, rfl, hkept⟩⟩, trivial⟩
  have hmigrated : migrate names (.node .attr [sign, .node .typeIdentifier [.leaf token]]) =
      .node .attr [migrate names sign, .node .typeIdentifier [.leaf token]] :=
    migrate_attr_of_not_isNamed (by simpa [isNamed_plainName] using hother.1) (by simpa [isNamed_plainName] using hother.2)
  rw [after_edits_node .attr (.lookup type) hin hfit rfl, hmigrated]
  simp [Role.left, lookupWords, leftOf]

theorem fitAll_wrapperRoles (unpublished : Bool) {type : Option (List Word)} {found : List Tree}
    (hattrs : ∀ t ∈ found, t.is .attr = true)
    (htype : type.isSome → ∀ t ∈ found.find? (isNamed environmentObjectName), t.children.length = 2) :
    FitAll (wrapperRoles unpublished type found) found := by
  induction found generalizing type with
  | nil => trivial
  | cons t rest ih =>
      have hrest := fun s hs => hattrs s (List.mem_cons_of_mem t hs)
      cases hnamed : isNamed environmentObjectName t with
      | true =>
          simp only [wrapperRoles, hnamed, if_true, fitAll_cons]
          refine ⟨?_, ih hrest (by simp)⟩
          cases type with
          | none => trivial
          | some type => exact ⟨hattrs t (by simp), hnamed, htype rfl t (by simp [hnamed])⟩
      | false =>
          simp only [wrapperRoles, hnamed, Bool.false_eq_true, if_false, fitAll_cons]
          refine ⟨?_, ih hrest fun hsome s hs => htype hsome s (by simpa [hnamed] using hs)⟩
          split <;> trivial

theorem leftOf_wrapperRoles (unpublished : Bool) (type : Option (List Word)) {found : List Tree}
    (hattrs : ∀ t ∈ found, t.Shaped ∧ t.is .attr = true) :
    leftOf (wrapperRoles unpublished type found) (found.map (migrate names)) =
      wrapperWords unpublished type (found.map (migrate names)) := by
  induction found generalizing type with
  | nil => rfl
  | cons t rest ih =>
      have hrest := fun s hs => hattrs s (List.mem_cons_of_mem t hs)
      obtain ⟨hshaped, hattr⟩ := hattrs t (by simp)
      have henvironment : isNamed environmentObjectName (migrate names t) = isNamed environmentObjectName t :=
        isNamed_environmentObject_migrate hshaped hattr
      have hpublished : isNamed publishedName (migrate names t) = isNamed publishedName t :=
        isNamed_published_migrate hshaped hattr
      rw [List.map_cons, wrapperRoles, wrapperWords, henvironment, isKept, hpublished]
      cases hnamed : isNamed environmentObjectName t with
      | true =>
          simp only [if_true, leftOf_cons, ih none hrest]
          congr 1
          cases type <;> rfl
      | false =>
          simp only [Bool.false_eq_true, if_false, leftOf_cons, ih type hrest]
          congr 1
          cases unpublished && isNamed publishedName t <;> rfl

theorem after_edits_wrappers {unpublished : Bool} {type : Option (List Word)} (hin : ∀ t ∈ children, Follows names t)
    (ht : Shaped (.node .attributes children))
    (htype : type.isSome → ∀ t ∈ children.find? (isNamed environmentObjectName), t.children.length = 2) :
    after (edits names (.wrappers unpublished type) (.node .attributes children)) =
      (Role.wrappers unpublished type).left (migrate names (.node .attributes children)) := by
  rw [after_edits_node .attributes (.wrappers unpublished type) hin (fitAll_wrapperRoles unpublished ht.admits htype) rfl,
    leftOf_wrapperRoles unpublished type fun t hmem => ⟨ht.of_mem hmem, ht.admits t hmem⟩,
    migrate_node_of_not_mem .attributes (by decide)]
  simp [insertedBehind, Role.left, Tree.children]

/-! ### Bindings -/

theorem fitAll_markFirst {p : Tree → Bool} {role : Role} {trees : List Tree} (hfit : ∀ t ∈ trees, p t = true → role.Fits t) :
    FitAll (markFirst p role trees) trees := by
  induction trees with
  | nil => trivial
  | cons t rest ih =>
      rw [markFirst]
      split
      next hp => exact ⟨hfit t (by simp) hp, fitAll_nil rest⟩
      next => exact ⟨trivial, ih fun s hs => hfit s (by simp [hs])⟩

/-- Where only the first tree of a class goes, the words of all others are left. -/
theorem leftOf_markFirst_gone {p : Tree → Bool} (hp : ∀ t, p (migrate names t) = p t) (trees : List Tree) :
    leftOf (markFirst p .gone trees) (trees.map (migrate names)) = ((trees.map (migrate names)).eraseP p).flatMap words := by
  induction trees with
  | nil => rfl
  | cons t rest ih =>
      rw [markFirst, List.map_cons, List.eraseP_cons, hp]
      cases p t with
      | true => simp
      | false => simp [ih]

theorem exists_child?_of_isPlainlyTyped (htyped : isPlainlyTyped t = true) :
    ∃ clause, t.child? .typeClause = some clause := by
  simp only [isPlainlyTyped, Bool.and_eq_true, plainType?] at htyped
  cases hclause : t.child? .typeClause with
  | none => simp [hclause] at htyped
  | some clause => exact ⟨clause, rfl⟩

/-- The pattern of a binding is no type clause. -/
theorem is_typeClause_pattern {pattern : Tree} (hpattern : pattern.isLeaf .identifier = true ∨ pattern.is .group = true) :
    pattern.is .typeClause = false := by
  obtain hleaf | hgroup := hpattern
  · cases pattern with
    | leaf token => rfl
    | node label children => simp [isLeaf, token?] at hleaf
    | absent => rfl
  · obtain ⟨parts, rfl⟩ := exists_of_is hgroup
    rfl

theorem after_edits_untyped (hin : ∀ t ∈ children, Follows names t) (ht : Shaped (.node .binding children))
    (htyped : isPlainlyTyped (.node .binding children) = true) :
    after (edits names .untyped (.node .binding children)) =
      Role.untyped.left (migrate names (.node .binding children)) := by
  have hfit : FitAll (markFirst (·.is .typeClause) .gone children) children := fitAll_markFirst fun _ _ _ => trivial
  rw [after_edits_node .binding .untyped hin hfit rfl, leftOf_markFirst_gone (fun t => is_migrate t .typeClause),
    migrate_node_of_not_mem .binding (by decide)]
  change [] ++ _ ++ [] = (dropTypeClause _).words
  have hmigrated : isPlainlyTyped (migrate names (.node .binding children)) = true := by
    rw [isPlainlyTyped_migrate]
    exact htyped
  rw [migrate_node_of_not_mem .binding (by decide)] at hmigrated
  obtain ⟨clause, hclause⟩ := exists_child?_of_isPlainlyTyped hmigrated
  obtain ⟨pattern, type, value, accessors, comma, rfl, hpattern, -⟩ := ht.admits
  have hother : (migrate names pattern).is .typeClause = false := by
    rw [is_migrate]
    exact is_typeClause_pattern hpattern
  rw [List.map_cons] at hclause ⊢
  rw [words_dropTypeClause hclause, List.eraseP_cons, hother]
  simp

/-! ### Inheritance clauses -/

theorem endsInComma_migrate (hlabel : label ∉ ruled) :
    (migrate names (.node label children)).endsInComma = (Tree.node label children).endsInComma := by
  rw [migrate_node_of_not_mem label hlabel, endsInComma, endsInComma, Tree.children, Tree.children, List.getLast?_map]
  cases children.getLast? with
  | none => rfl
  | some t => exact isLeaf_migrate t .comma

theorem after_edits_bare (hin : ∀ t ∈ children, Follows names t) (ht : Shaped (.node .inheritedType children))
    (hcomma : (Tree.node .inheritedType children).endsInComma = true) :
    after (edits names .bare (.node .inheritedType children)) =
      Role.bare.left (migrate names (.node .inheritedType children)) := by
  have hfit : FitAll (markFirst (·.isLeaf .comma) .gone children) children := fitAll_markFirst fun _ _ _ => trivial
  rw [after_edits_node .inheritedType .bare hin hfit rfl, leftOf_markFirst_gone (fun t => isLeaf_migrate t .comma),
    migrate_node_of_not_mem .inheritedType (by decide)]
  change [] ++ _ ++ [] = (stripComma [] _).words
  obtain ⟨label, parts, comma, rfl, hkind⟩ := ht.admits
  cases comma with
  | none => simp [endsInComma, Tree.children, optionalLeaf, isLeaf, token?] at hcomma
  | some comma =>
      have hcomma : comma.kind = .comma := hkind comma rfl
      have hbound : (migrate names (.node label parts)).isLeaf .comma = false := by
        rw [isLeaf_migrate]
        rfl
      change [] ++ (([migrate names (.node label parts), .leaf comma] : List Tree).eraseP _).flatMap words ++ [] =
        (stripComma [] (.node .inheritedType [migrate names (.node label parts), .leaf comma])).words
      rw [words_stripComma_comma [] _ hcomma, List.eraseP_cons, hbound]
      simp [isLeaf, token?, hcomma]

/-- The last token of an entry that names the protocol is a comma just if the last child is. -/
theorem last?_migrate_of_namesProtocol (ht : Shaped (.node .inheritedType children))
    (hnames : namesProtocol (.node .inheritedType children) = true) :
    (migrate names (.node .inheritedType children)).last?.any (·.kind == .comma) =
      (Tree.node .inheritedType children).endsInComma := by
  obtain ⟨label, parts, comma, rfl, hkind⟩ := ht.admits
  have hbound : Shaped (.node label parts) := ht.of_mem (by simp)
  unfold namesProtocol at hnames
  split at hnames
  next token rest hchildren =>
    obtain ⟨hnode, -⟩ := List.cons.inj hchildren
    obtain ⟨rfl, rfl⟩ := node.inj hnode
    obtain ⟨name, args, hname, hword⟩ := hbound.admits
    obtain ⟨hleaf, -⟩ := List.cons.inj hname
    cases hleaf
    rw [migrate_node_of_not_mem .inheritedType (by decide), List.map_cons, migrate_plainName]
    cases comma with
    | none =>
        have hother : (token.kind == .comma) = false := by
          cases hcomma : token.kind with
          | comma => simp [Token.isWord, TokenKind.isWord, hcomma] at hword
          | _ => rfl
        simpa [optionalLeaf, last?, lastOf?, endsInComma, Tree.children, isLeaf, token?] using hother
    | some comma => simp [optionalLeaf, last?, lastOf?, endsInComma, Tree.children, isLeaf, token?]
  next => simp at hnames

section Clause

variable {entries : List Tree}

/-- The entries of an inheritance clause, as the grammar yields them. -/
structure AreEntries (entries : List Tree) : Prop where
  shaped : ∀ entry ∈ entries, entry.Shaped
  label : ∀ entry ∈ entries, entry.is .inheritedType = true
  commaed : ∀ entry ∈ entries.dropLast, entry.endsInComma = true

theorem AreEntries.tail {entry : Tree} (hentries : AreEntries (entry :: entries)) : AreEntries entries where
  shaped := fun e he => hentries.shaped e (by simp [he])
  label := fun e he => hentries.label e (by simp [he])
  commaed := by
    cases entries with
    | nil => simp
    | cons next rest => exact fun e he => hentries.commaed e (by simp [he])

theorem AreEntries.isProtocolEntry_migrate (hentries : AreEntries entries) {entry : Tree} (hentry : entry ∈ entries) :
    isProtocolEntry (migrate names entry) = namesProtocol entry := by
  obtain ⟨children, rfl⟩ := exists_of_is (hentries.label entry hentry)
  exact Migration.isProtocolEntry_migrate (hentries.shaped _ hentry)

theorem AreEntries.endsInComma_migrate (hentries : AreEntries entries) {entry : Tree} (hentry : entry ∈ entries) :
    (migrate names entry).endsInComma = entry.endsInComma := by
  obtain ⟨children, rfl⟩ := exists_of_is (hentries.label entry hentry)
  exact Migration.endsInComma_migrate (by decide)

theorem AreEntries.any_isProtocolEntry_migrate (hentries : AreEntries entries) :
    (entries.map (migrate names)).any isProtocolEntry = entries.any namesProtocol := by
  induction entries with
  | nil => rfl
  | cons entry rest ih =>
      rw [List.map_cons, List.any_cons, List.any_cons, ih hentries.tail, hentries.isProtocolEntry_migrate (by simp)]

theorem AreEntries.all_isProtocolEntry_migrate (hentries : AreEntries entries) :
    (entries.map (migrate names)).all isProtocolEntry = entries.all namesProtocol := by
  induction entries with
  | nil => rfl
  | cons entry rest ih =>
      rw [List.map_cons, List.all_cons, List.all_cons, ih hentries.tail, hentries.isProtocolEntry_migrate (by simp)]

theorem AreEntries.endsUncommaed_migrate (hentries : AreEntries entries) :
    endsUncommaed (entries.map (migrate names)) = lacksComma entries := by
  rw [endsUncommaed, lacksComma, List.getLast?_map]
  cases hlast : entries.getLast? with
  | none => rfl
  | some entry =>
      have hentry := List.mem_of_getLast? hlast
      simp [hentries.isProtocolEntry_migrate hentry, hentries.endsInComma_migrate hentry]

/-- The clause is left alone just if all entries name the protocol and the last one has a comma. -/
theorem AreEntries.all_commaed (hentries : AreEntries entries) :
    (entries.all fun entry => namesProtocol entry && entry.endsInComma) =
      (entries.all namesProtocol && !lacksComma entries) := by
  induction entries with
  | nil => rfl
  | cons entry rest ih =>
      cases rest with
      | nil => cases hnames : namesProtocol entry <;> simp [lacksComma, hnames]
      | cons next rest =>
          have hcommaed : entry.endsInComma = true := hentries.commaed entry (by simp)
          have hlast : lacksComma (entry :: next :: rest) = lacksComma (next :: rest) := by
            rw [lacksComma, lacksComma, List.getLast?_cons_cons]
          rw [List.all_cons, ih hentries.tail, hlast, hcommaed, List.all_cons (a := entry), Bool.and_true, Bool.and_assoc]

/-- A migrated entry that is the protocol has a comma at its end just if that is its last token. -/
theorem AreEntries.last?_migrate (hentries : AreEntries entries) : ∀ entry ∈ entries.map (migrate names),
    isProtocolEntry entry = true → entry.last?.any (·.kind == .comma) = entry.endsInComma := by
  intro entry' hentry' hprotocol
  obtain ⟨entry, hentry, rfl⟩ := List.mem_map.mp hentry'
  rw [hentries.isProtocolEntry_migrate hentry] at hprotocol
  rw [hentries.endsInComma_migrate hentry]
  obtain ⟨children, rfl⟩ := exists_of_is (hentries.label entry hentry)
  exact last?_migrate_of_namesProtocol (hentries.shaped _ hentry) hprotocol

theorem AreEntries.commaed_migrate (hentries : AreEntries entries) :
    ∀ entry ∈ (entries.map (migrate names)).dropLast, entry.endsInComma = true := by
  intro entry' hentry'
  rw [← List.map_dropLast] at hentry'
  obtain ⟨entry, hentry, rfl⟩ := List.mem_map.mp hentry'
  rw [hentries.endsInComma_migrate (List.dropLast_subset _ hentry)]
  exact hentries.commaed entry hentry

theorem AreEntries.prune_leaves (hentries : AreEntries entries) :
    (prune (entries.map (migrate names))).Leaves [] (entries.map (migrate names)) :=
  pruneFrom_leaves [] none hentries.last?_migrate hentries.commaed_migrate

theorem AreEntries.leftOf_entryRoles (hentries : AreEntries entries) (uncommaed : Bool) :
    leftOf (entryRoles uncommaed entries) (entries.map (migrate names)) =
      entryWords uncommaed (entries.map (migrate names)) := by
  induction entries with
  | nil => rfl
  | cons entry rest ih =>
      rw [entryRoles, List.map_cons, leftOf_cons, ih hentries.tail, entryWords,
        hentries.isProtocolEntry_migrate (by simp), hentries.tail.all_isProtocolEntry_migrate]
      congr 1
      split
      · rfl
      · split <;> rfl

/-- An entry that loses its comma has one: the entry that lacks one stands behind it. -/
theorem AreEntries.fitAll_entryRoles (hentries : AreEntries entries) :
    FitAll (entryRoles (lacksComma entries) entries) entries := by
  suffices hall : ∀ uncommaed, (uncommaed = true → lacksComma entries = true) →
      FitAll (entryRoles uncommaed entries) entries from hall _ id
  intro uncommaed huncommaed
  induction entries with
  | nil => trivial
  | cons entry rest ih =>
      cases rest with
      | nil =>
          refine ⟨?_, trivial⟩
          rw [entryRoles, List.headD_cons]
          split
          · trivial
          next hnames =>
            split
            next hstripped =>
              simp only [List.all_nil, Bool.and_true] at hstripped
              simp [lacksComma, hnames] at huncommaed
              exact absurd hstripped (by simp [huncommaed])
            · trivial
      | cons next rest =>
          have hlast : lacksComma (entry :: next :: rest) = lacksComma (next :: rest) := by
            rw [lacksComma, lacksComma, List.getLast?_cons_cons]
          refine ⟨?_, ih hentries.tail (hlast ▸ huncommaed)⟩
          rw [entryRoles, List.headD_cons]
          split
          · trivial
          · split
            · exact ⟨hentries.label entry (by simp), hentries.commaed entry (by simp)⟩
            · trivial

theorem Shaped.areEntries (ht : Shaped (.node .inheritance children)) :
    ∃ colon entries, children = .leaf colon :: entries ∧ AreEntries entries := by
  obtain ⟨colon, entries, rfl, -, hlabel, hcommaed⟩ := ht.admits
  exact ⟨colon, entries, rfl, fun entry hentry => ht.of_mem (by simp [hentry]), hlabel, hcommaed⟩

theorem after_edits_pruned (hin : ∀ t ∈ children, Follows names t) (ht : Shaped (.node .inheritance children))
    (hleft : children.tail.any namesProtocol →
      (children.tail.all fun entry => namesProtocol entry && entry.endsInComma) = false) :
    after (edits names .pruned (.node .inheritance children)) =
      Role.pruned.left (migrate names (.node .inheritance children)) := by
  obtain ⟨colon, entries, rfl, hentries⟩ := Shaped.areEntries ht
  rw [List.tail_cons, hentries.all_commaed] at hleft
  have hfit : FitAll (clauseRoles (.leaf colon :: entries)) (.leaf colon :: entries) := by
    refine ⟨?_, hentries.fitAll_entryRoles⟩
    rw [clauseRoles, List.headD_cons]
    split <;> trivial
  rw [after_edits_node .inheritance .pruned hin hfit rfl, migrate_node_of_not_mem .inheritance (by decide), clauseRoles,
    List.map_cons, leftOf_cons, hentries.leftOf_entryRoles]
  change [] ++ _ ++ [] = clauseWords (migrate names (.leaf colon) :: entries.map (migrate names))
  have hleaves : (prune (entries.map (migrate names))).Leaves [] (entries.map (migrate names)) := hentries.prune_leaves
  rw [List.nil_append, List.append_nil, clauseWords]
  cases hpruned : prune (entries.map (migrate names)) with
  | dangling =>
      -- A class with such a clause is not converted, unless the clause has no entries at all.
      rw [hpruned, Pruned.Leaves, hentries.all_isProtocolEntry_migrate, hentries.endsUncommaed_migrate] at hleaves
      have hnone : entries = [] := by
        cases entries with
        | nil => rfl
        | cons entry rest => simp_all
      subst hnone
      rfl
  | emptied trailing =>
      rw [hpruned, Pruned.Leaves] at hleaves
      rw [entryWords_of_all hleaves.2.1]
      rw [hentries.all_isProtocolEntry_migrate, hentries.endsUncommaed_migrate] at hleaves
      simp [hleaves]
  | kept left =>
      rw [hpruned, Pruned.Leaves, hentries.all_isProtocolEntry_migrate, hentries.endsUncommaed_migrate] at hleaves
      have hsome : entries.all namesProtocol = false := by simpa using hleaves.1
      dsimp only
      rw [hleaves.2, hsome]
      simp [keptWords]

/-- A clause that does not name the protocol stays. -/
theorem AreEntries.clauseWords_of_not_any (hentries : AreEntries entries) (hnone : entries.any namesProtocol = false)
    (colon : Tree) :
    clauseWords (colon :: entries.map (migrate names)) = colon.words ++ (entries.map (migrate names)).flatMap words := by
  have hleaves : (prune (entries.map (migrate names))).Leaves [] (entries.map (migrate names)) := hentries.prune_leaves
  have hother : ∀ entry ∈ entries.map (migrate names), isProtocolEntry entry = false := by
    have hmigrated : (entries.map (migrate names)).any isProtocolEntry = false := by
      rw [hentries.any_isProtocolEntry_migrate, hnone]
    simpa using hmigrated
  have huncommaed : endsUncommaed (entries.map (migrate names)) = false := by
    unfold endsUncommaed
    cases hlast : (entries.map (migrate names)).getLast? with
    | none => rfl
    | some entry => simp [hother entry (List.mem_of_getLast? hlast)]
  rw [clauseWords]
  cases hpruned : prune (entries.map (migrate names)) with
  | dangling => rfl
  | emptied trailing =>
      rw [hpruned, Pruned.Leaves, huncommaed] at hleaves
      simp at hleaves
  | kept left =>
      rw [hpruned, Pruned.Leaves, huncommaed] at hleaves
      dsimp only
      rw [hleaves.2, Bool.false_and, keptWords, List.nil_append, entryWords_of_none hother]

end Clause

/-! ### Bodies of classes -/

theorem unpublish_of_not_variableDecl (hlabel : t.is .variableDecl = false) : unpublish t = t := by
  rw [unpublish, hlabel]
  rfl

theorem after_edits_body (hin : ∀ t ∈ children, Follows names t) :
    after (edits names .converted (.node .memberBlock children)) =
      Role.converted.left (migrate names (.node .memberBlock children)) := by
  have hfit : FitAll (bodyRoles children) children := by
    refine fitAll_map fun t _ => ?_
    split
    next hvariable => exact .inr hvariable
    next => trivial
  rw [after_edits_node .memberBlock .converted hin hfit rfl, bodyRoles, leftOf_map,
    migrate_node_of_not_mem .memberBlock (by decide)]
  change [] ++ _ ++ [] = (children.map (migrate names)).flatMap fun t => (unpublish t).words
  rw [List.nil_append, List.append_nil, List.flatMap_map]
  congr 1
  funext t
  cases hvariable : t.is .variableDecl with
  | true =>
      obtain ⟨parts, rfl⟩ := exists_of_is hvariable
      have hbody : (migrate names (.node .variableDecl parts)).is .memberBlock = false := by
        rw [is_migrate]
        rfl
      simp [Role.left, hbody]
  | false =>
      rw [unpublish_of_not_variableDecl (by rw [is_migrate]; exact hvariable)]
      rfl

end SwiftObservation.Migration
