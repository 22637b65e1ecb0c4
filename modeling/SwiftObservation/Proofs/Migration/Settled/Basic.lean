import SwiftObservation.Proofs.Migration.Settled.Reading

/-!
# Trees that have nothing left to migrate

`Rests` says of a node, label by label, that the rule for it has nothing left to do for a class of the given names, and
that the classes which it shows to be observable are all of a kind: for a second conversion they have to be among the names
already, for a second migration any will do. A tree is settled if all of its nodes rest.

All of this is about how the tree reads: a tree that reads like a settled one is settled.
-/

namespace SwiftObservation.Migration

open SwiftObservation.Tree

variable {names : List Text} {shown : Text → Prop} {label : Label} {children : List Tree} {t : Tree}

/-- The tree is a declaration of variables with the wrapper of a published property. -/
def isPublished (t : Tree) : Bool :=
  t.is .variableDecl &&
    match t.children with
    | .node .attributes found :: _ => found.any (isNamed publishedName)
    | _ => false

/-- The members of a type declaration with the given children. -/
def membersOf (children : List Tree) : List Tree := (children.getLast?.map Tree.children).getD []

/-- The class with the given children has become observable: it has the attribute and publishes nothing. -/
def isObservable (children : List Tree) : Bool :=
  ((children.head?.map Tree.children).getD []).any (isNamed observableName) && !(membersOf children).any isPublished

/-- The declaration of variables with the given children has no attribute to lose and no type to move. -/
def variablesRest : List Tree → Bool
  | .node .attributes found :: rest => !found.any isErased && !movesType found rest
  | _ => true

/-- The entry of an inheritance clause can be told from the protocol by its words: it is a plain name, it has generic
arguments, or it is no type identifier. -/
def isTellable (entry : Tree) : Bool :=
  entry.is .inheritedType &&
    match entry.children with
    | .node .typeIdentifier [.leaf _] :: _ => true
    | .node .typeIdentifier (.leaf _ :: .node .genericArgs (.leaf opener :: _) :: _) :: _ =>
      opener.isOperatorFrom '<'
    | .node .typeIdentifier _ :: _ => false
    | _ => true

/-- The rule for the label has nothing left to do for the node with the given children, and what the node shows to be
observable is as `shown` says. -/
def Rests (names : List Text) (shown : Text → Prop) : Label → List Tree → Prop
  | .typeDecl, children =>
    (inheritedEntries children).all isTellable = true ∧
    (isConverted names children = true →
      (inheritedEntries children).any namesProtocol = false ∧ isObservable children = true) ∧
    ∀ name ∈ shownNames (.node .typeDecl children), shown name
  | .variableDecl, children => variablesRest children = true
  | .attr, children =>
    isNamed stateObjectName (.node .attr children) = false ∧ isNamed observedObjectName (.node .attr children) = false
  | .call, children => callRoles children = []
  | .memberAccess, children => memberRoles children = []
  | _, _ => True

/-- Every node of the tree rests. -/
inductive Settled (names : List Text) (shown : Text → Prop) : Tree → Prop where
  | leaf (token : Token) : Settled names shown (.leaf token)
  | node {label : Label} {children : List Tree} (rests : Rests names shown label children)
      (inner : ∀ t ∈ children, Settled names shown t) : Settled names shown (.node label children)
  | absent : Settled names shown .absent

theorem Settled.rests (ht : Settled names shown (.node label children)) : Rests names shown label children := by
  cases ht with
  | node hrests => exact hrests

theorem Settled.of_mem (ht : Settled names shown (.node label children)) (hmem : t ∈ children) : Settled names shown t := by
  cases ht with
  | node _ hinner => exact hinner t hmem

/-- Without a type to move the wrappers stay as they are. -/
theorem migrateEnvironment_eq_self {found rest : List Tree} (hmoves : movesType found rest = false) :
    migrateEnvironment (.node label (.node .attributes found :: rest)) = .node label (.node .attributes found :: rest) := by
  rw [migrateEnvironment]
  split
  next target bound htarget hbound =>
    obtain ⟨binding, hbinding, -⟩ := Option.bind_eq_some_iff.mp hbound
    have htyped : rest.any isPlainlyTyped = true :=
      List.any_eq_true.mpr ⟨binding, List.mem_of_find?_eq_some hbinding, List.find?_some hbinding⟩
    rw [movesType, htarget, htyped, Option.any_some, Bool.and_true] at hmoves
    rw [hmoves]
    rfl
  next => rfl

/-! ### Resting as it reads -/

theorem variablesRest_map_asRead (children : List Tree) : variablesRest (children.map asRead) = variablesRest children := by
  match children with
  | [] => rfl
  | .leaf _ :: _ => rfl
  | .absent :: _ => rfl
  | .node inner found :: rest =>
      rw [List.map_cons]
      by_cases hinner : inner = .attributes
      · subst hinner
        rw [asRead_node_of_ne (by decide), variablesRest, variablesRest, movesType, movesType, any_map_asRead isErased_asRead,
          any_map_asRead isPlainlyTyped_asRead, find?_map_asRead (isNamed_asRead environmentObjectName)]
        cases found.find? (isNamed environmentObjectName) with
        | none => rfl
        | some target => simp [length_children_asRead]
      · rw [asRead_node]
        cases inner <;> first | rfl | exact absurd rfl hinner

theorem isTellable_asRead (t : Tree) : isTellable (asRead t) = isTellable t := by
  rw [isTellable, isTellable, is_asRead]
  cases hlabel : t.is .inheritedType with
  | false => rfl
  | true =>
      obtain ⟨children, rfl⟩ := exists_of_is hlabel
      rw [asRead_node_of_ne (by decide)]
      rcases children with _ | ⟨_ | ⟨inner, parts⟩ | _, _⟩
      · rfl
      · rfl
      · rw [Tree.children, Tree.children, List.map_cons]
        by_cases hinner : inner = .typeIdentifier
        · subst hinner
          rw [asRead_node_of_ne (by decide)]
          -- Only generic arguments behind a name are looked into.
          rcases parts with _ | ⟨_ | _ | _, _ | ⟨_ | ⟨deep, args⟩ | _, _⟩⟩
          case cons.leaf.cons.node =>
            rw [List.map_cons, List.map_cons]
            by_cases hdeep : deep = .genericArgs
            · subst hdeep
              rw [asRead_node_of_ne (by decide)]
              rcases args with _ | ⟨_ | _ | _, _⟩ <;> rfl
            · rw [asRead_node]
              cases deep <;> first | rfl | exact absurd rfl hdeep
          all_goals rfl
        · rw [asRead_node]
          cases inner <;> first | rfl | exact absurd rfl hinner
      · rfl

theorem isPublished_asRead (t : Tree) : isPublished (asRead t) = isPublished t := by
  rw [isPublished, isPublished, is_asRead]
  cases hlabel : t.is .variableDecl with
  | false => rfl
  | true =>
      obtain ⟨children, rfl⟩ := exists_of_is hlabel
      rw [asRead_node_of_ne (by decide)]
      match children with
      | [] => rfl
      | .leaf _ :: _ => rfl
      | .absent :: _ => rfl
      | .node inner found :: _ =>
          rw [Tree.children, Tree.children, List.map_cons]
          by_cases hinner : inner = .attributes
          · subst hinner
            rw [asRead_node_of_ne (by decide)]
            exact any_map_asRead (isNamed_asRead publishedName) found
          · rw [asRead_node]
            cases inner <;> first | rfl | exact absurd rfl hinner

theorem isObservable_map_asRead (children : List Tree) : isObservable (children.map asRead) = isObservable children := by
  -- The first child of a node that is read otherwise has no name and publishes nothing.
  have hnames (t : Tree) : (asRead t).children.any (isNamed observableName) = t.children.any (isNamed observableName) := by
    cases t with
    | leaf token => rfl
    | absent => rfl
    | node label parts =>
        rw [asRead_node, Tree.children, Tree.children, ← any_map_asRead (isNamed_asRead observableName) parts]
        obtain heq | ⟨name, dot, member, hchildren, heq⟩ := named_cases label (parts.map asRead)
        · rw [heq]
        · rw [heq, hchildren]
          rfl
  have hpublished (t : Tree) : (asRead t).children.any isPublished = t.children.any isPublished := by
    cases t with
    | leaf token => rfl
    | absent => rfl
    | node label parts =>
        rw [asRead_node, Tree.children, Tree.children, ← any_map_asRead isPublished_asRead parts]
        obtain heq | ⟨name, dot, member, hchildren, heq⟩ := named_cases label (parts.map asRead)
        · rw [heq]
        · rw [heq, hchildren]
          rfl
  have hhead : (((children.map asRead).head?.map Tree.children).getD []).any (isNamed observableName) =
      ((children.head?.map Tree.children).getD []).any (isNamed observableName) := by
    cases children with
    | nil => rfl
    | cons first rest => exact hnames first
  have hmembers : (membersOf (children.map asRead)).any isPublished = (membersOf children).any isPublished := by
    rw [membersOf, List.getLast?_map, membersOf]
    cases children.getLast? with
    | none => rfl
    | some last => exact hpublished last
  rw [isObservable, hhead, hmembers, isObservable]

/-- All entries of an inheritance clause that can be told from the protocol are labelled as such. -/
theorem is_inheritedType_of_isTellable {entries : List Tree} (hall : entries.all isTellable = true) :
    ∀ entry ∈ entries, entry.is .inheritedType = true :=
  fun entry hentry => (Bool.and_eq_true_iff.mp (List.all_eq_true.mp hall entry hentry)).1

theorem all_isTellable_asRead (entries : List Tree) : (entries.map asRead).all isTellable = entries.all isTellable := by
  rw [List.all_map]
  congr 1
  funext entry
  exact isTellable_asRead entry

theorem rests_asRead : Rests names shown label (named label (children.map asRead)) ↔ Rests names shown label children := by
  by_cases hmember : label = .memberAccess
  · subst hmember
    rw [Rests, Rests, memberRoles_named, memberRoles_map_asRead]
  rw [named_of_ne hmember]
  cases label
  case typeDecl =>
    rw [Rests, Rests, inheritedEntries_map_asRead, all_isTellable_asRead, shownNames_asRead, isObservable_map_asRead]
    refine and_congr_right fun htellable => ?_
    have hentries := is_inheritedType_of_isTellable htellable
    rw [isConverted_map_asRead names hentries, (any_entries_asRead hentries).1]
  case variableDecl => rw [Rests, Rests, variablesRest_map_asRead]
  case attr => rw [Rests, Rests, ← asRead_node_of_ne (by decide), isNamed_asRead, isNamed_asRead]
  case call => rw [Rests, Rests, callRoles_map_asRead]
  case memberAccess => exact absurd rfl hmember
  all_goals exact Iff.rfl

theorem Settled.asRead (ht : Settled names shown t) : Settled names shown (asRead t) := by
  induction ht with
  | leaf token => exact .leaf _
  | absent => exact .absent
  | @node label children hrests _ ih =>
      rw [asRead_node]
      have hall : ∀ t ∈ children.map Migration.asRead, Settled names shown t := by
        intro t ht
        obtain ⟨s, hs, rfl⟩ := List.mem_map.mp ht
        exact ih s hs
      refine .node (rests_asRead.mpr hrests) ?_
      obtain heq | ⟨name, dot, member, hchildren, heq⟩ := named_cases label (children.map Migration.asRead)
      · rw [heq]
        exact hall
      · rw [heq]
        rw [hchildren] at hall
        exact List.forall_mem_cons.mpr ⟨.leaf name, (List.forall_mem_cons.mp hall).2⟩

theorem Settled.of_asRead : {t : Tree} → Settled names shown (Migration.asRead t) → Settled names shown t
  | .leaf token, _ => .leaf token
  | .absent, _ => .absent
  | .node label children, ht => by
      rw [asRead_node] at ht
      refine .node (rests_asRead.mp ht.rests) fun t hmem => Settled.of_asRead ?_
      have hread : Migration.asRead t ∈ children.map Migration.asRead := List.mem_map_of_mem hmem
      obtain heq | ⟨name, dot, member, hchildren, heq⟩ := named_cases label (children.map Migration.asRead)
      · rw [heq] at ht
        exact ht.of_mem hread
      · rw [heq] at ht
        rw [hchildren] at hread
        rcases List.mem_cons.mp hread with hfirst | hrest
        · -- A plain type in the place of a name has no rule of its own.
          rw [hfirst]
          exact .node trivial (by simp [Settled.leaf])
        · exact ht.of_mem (List.mem_cons_of_mem _ hrest)

/-- A tree that reads like a settled one is settled. -/
theorem Settled.congr_asRead {s : Tree} (hread : Migration.asRead s = Migration.asRead t) (hs : Settled names shown s) :
    Settled names shown t :=
  .of_asRead (hread ▸ hs.asRead)

theorem Settled.congr {s : Tree} (hbare : s.bare = t.bare) (hs : Settled names shown s) : Settled names shown t := by
  refine hs.congr_asRead ?_
  rw [← asRead_bare s, hbare, asRead_bare]

end SwiftObservation.Migration
