import SwiftObservation.Proofs.Migration.Following.Variables
import SwiftObservation.Proofs.Migration.Settled.Basic
import SwiftObservation.Proofs.Tree.Within

/-!
# The parts of a declaration are settled by migration

Once its children are settled, the rule for a node leaves a settled node: what it renames has a name that no rule is
about. Declarations of variables need care, because the rule for them serves one wrapper and moves one type: with a
second wrapper of an object from the environment and a second type there would be something left to do.
-/

namespace SwiftObservation.Migration

open SwiftObservation.Tree

variable {names : List Text} {shown : Text → Prop} {label : Label} {children : List Tree} {t : Tree}

/-- All of the trees are settled. -/
def SettledAll (names : List Text) (shown : Text → Prop) (trees : List Tree) : Prop := ∀ t ∈ trees, Settled names shown t

@[simp] theorem settledAll_nil : SettledAll names shown [] := by simp [SettledAll]

@[simp] theorem settledAll_cons {rest : List Tree} :
    SettledAll names shown (t :: rest) ↔ Settled names shown t ∧ SettledAll names shown rest := List.forall_mem_cons

@[simp] theorem settledAll_append {front back : List Tree} :
    SettledAll names shown (front ++ back) ↔ SettledAll names shown front ∧ SettledAll names shown back := List.forall_mem_append

theorem Settled.of_within {s : Tree} (ht : Settled names shown t) (hwithin : Within s t) : Settled names shown s := by
  induction hwithin with
  | self => exact ht
  | child hmem _ ih => exact ih (ht.of_mem hmem)

/-! ### Attributes and expressions -/

theorem settled_plainName (token : Token) : Settled names shown (.node .typeIdentifier [.leaf token]) :=
  .node trivial (by simp [Settled.leaf])

theorem settled_migrate_attr (hin : SettledAll names shown (children.map (migrate names))) (ht : Shaped (.node .attr children)) :
    Settled names shown (migrate names (.node .attr children)) := by
  cases hstate : isNamed stateObjectName (.node .attr children) with
  | true =>
      obtain ⟨sign, token, rest, rfl, htoken⟩ := exists_of_isNamed hstate
      rw [migrate_attr_stateObject htoken]
      refine .node ⟨rfl, rfl⟩ ?_
      simp only [List.map_cons, settledAll_cons] at hin
      exact settledAll_cons.mpr ⟨hin.1, settledAll_cons.mpr ⟨settled_plainName _, hin.2.2⟩⟩
  | false =>
      cases hobserved : isNamed observedObjectName (.node .attr children) with
      | true =>
          obtain ⟨sign, token, rest, rfl, htoken⟩ := exists_of_isNamed hobserved
          obtain ⟨sign, _, _, hchildren, -⟩ := ht.admits
          obtain ⟨rfl, -⟩ := List.cons.inj hchildren
          rw [migrate_attr_observedObject htoken]
          exact .node ⟨rfl, rfl⟩ (by simp [Settled.leaf])
      | false =>
          rw [migrate_attr_of_not_isNamed hstate hobserved]
          exact .node ⟨isNamed_map_migrate.trans hstate, isNamed_map_migrate.trans hobserved⟩ hin

theorem settled_migrate_memberAccess (hin : SettledAll names shown (children.map (migrate names)))
    (ht : Shaped (.node .memberAccess children)) : Settled names shown (migrate names (.node .memberAccess children)) := by
  obtain ⟨receiver, dot, name, rfl, -⟩ := ht.admits
  simp only [List.map_cons, List.map_nil, migrate_leaf, settledAll_cons] at hin
  rw [migrate_node, migrateNode]
  simp only [List.map_cons, List.map_nil, migrate_leaf, migrateMember]
  split
  next =>
    refine .node ?_ (settledAll_cons.mpr ⟨hin.1, by simp [Settled.leaf]⟩)
    have hsuccessor : (environmentModifier == environmentObjectModifier) = false := by decide
    simp only [Rests, memberRoles, hsuccessor]
    rfl
  next hname =>
    refine .node ?_ (settledAll_cons.mpr ⟨hin.1, by simp [Settled.leaf]⟩)
    rw [Rests, memberRoles, if_neg hname]

theorem settled_rename_wrappedValue (text : Text) (hwrapped : isWrappedValue t = true) (ht : Settled names shown t) :
    Settled names shown (rename text t) := by
  obtain ⟨parts, rfl⟩ := exists_of_is (Bool.and_eq_true_iff.mp hwrapped).1
  match parts with
  | [] => exact ht
  | .absent :: _ => exact ht
  | .node _ _ :: _ => exact ht
  | .leaf token :: rest => exact .node trivial (settledAll_cons.mpr ⟨.leaf _, fun s hs => ht.of_mem (by simp [hs])⟩)

theorem settled_migrateCall (hin : SettledAll names shown children) : Settled names shown (migrateCall (.node .call children)) := by
  unfold migrateCall
  split
  next label callee args rest heq =>
    obtain ⟨rfl, rfl⟩ := node.inj heq
    split
    next =>
      simp only [settledAll_cons] at hin
      refine .node ?_ (settledAll_cons.mpr ⟨.leaf _, settledAll_cons.mpr ⟨.node trivial fun arg harg => ?_, hin.2.2⟩⟩)
      · have hsuccessor : (stateName == stateObjectName) = false := by decide
        simp only [Rests, callRoles, hsuccessor, Bool.and_false, Bool.false_and]
        rfl
      · obtain ⟨original, hmem, rfl⟩ := List.mem_map.mp harg
        have hsettled : Settled names shown original := hin.2.1.of_mem hmem
        split
        next hwrapped => exact settled_rename_wrappedValue initialValueLabel hwrapped hsettled
        next => exact hsettled
    next hcalled => exact .node (by rw [Rests, callRoles, if_neg hcalled]) hin
  next hother =>
    refine .node ?_ hin
    rw [Rests]
    unfold callRoles
    split
    next callee args rest => exact absurd rfl (hother _ callee args rest)
    next => rfl

/-! ### Variables -/

theorem not_isErased_of_isNamed {name : Text} (hnamed : isNamed name t = true) : isErased t = false := by
  cases t with
  | leaf token => rfl
  | absent => rfl
  | node label children =>
      obtain ⟨sign, token, rest, rfl, -⟩ := exists_of_isNamed hnamed
      cases sign <;> rfl

/-- Attributes that ask for no object from the environment do not matter to whether a type moves. -/
theorem movesType_filter {keep : Tree → Bool} (hkeep : ∀ t, isNamed environmentObjectName t = true → keep t = true)
    (found rest : List Tree) : movesType (found.filter keep) rest = movesType found rest := by
  have hfind : (found.filter keep).find? (isNamed environmentObjectName) = found.find? (isNamed environmentObjectName) := by
    rw [List.find?_filter]
    congr 1
    funext t
    cases hnamed : isNamed environmentObjectName t with
    | false => simp
    | true => simp [hkeep t hnamed]
  rw [movesType, hfind, movesType]

/-- A declaration with no type to move is settled by the loss of attributes, its erased ones among them. -/
theorem settled_dropAttributes {doomed : Tree → Bool} {found rest : List Tree}
    (hdoomed : ∀ t, isNamed environmentObjectName t = true → doomed t = false)
    (hkept : ∀ t ∈ found, doomed t = false → isErased t = false) (hmoves : movesType found rest = false)
    (hfound : SettledAll names shown found) (hrest : SettledAll names shown rest) :
    Settled names shown (dropAttributes doomed (.node .variableDecl (.node .attributes found :: rest))) := by
  obtain ⟨kept, behind, hdropped, hbare, hbehind⟩ := dropAttributes_eq doomed .variableDecl found rest
  refine Settled.congr (s := .node .variableDecl (.node .attributes (found.filter (!doomed ·)) :: rest)) ?_ ?_
  · rw [hdropped]
    simp [hbare, hbehind]
  · refine .node ?_ (settledAll_cons.mpr ⟨.node trivial fun t ht => hfound t (List.mem_filter.mp ht).1, hrest⟩)
    rw [Rests, variablesRest, movesType_filter (fun t hnamed => by simp [hdoomed t hnamed]), hmoves]
    have herased : (found.filter (!doomed ·)).any isErased = false := by
      rw [List.any_eq_false]
      intro t ht
      obtain ⟨hmem, hstays⟩ := List.mem_filter.mp ht
      simp [hkept t hmem (by simpa using hstays)]
    rw [herased]
    rfl

theorem settled_unpublish (ht : Settled names shown t) : Settled names shown (unpublish t) := by
  rw [unpublish]
  split
  next hvariables =>
    obtain ⟨children, rfl⟩ := exists_of_is hvariables
    have hrests : variablesRest children = true := ht.rests
    unfold variablesRest at hrests
    split at hrests
    next found rest =>
      obtain ⟨herased, hmoves⟩ := Bool.and_eq_true_iff.mp hrests
      rw [Bool.not_eq_true', List.any_eq_false] at herased
      refine settled_dropAttributes (fun t hnamed => ?_) (fun t hmem _ => by simpa using herased t hmem)
        (by simpa using hmoves) (fun t hmem => ?_) fun t hmem => ht.of_mem (by simp [hmem])
      · exact not_isNamed_of_isNamed (by decide) hnamed
      · exact (ht.of_mem (t := .node .attributes found) (by simp)).of_mem hmem
    next hother =>
      unfold dropAttributes
      split
      next found rest heq => exact absurd (node.inj heq).2 (hother _ _)
      next => exact ht
  next => exact ht

/-! ### Types that move -/

theorem within_of_plainType? {binding bound : Tree} (hbound : plainType? binding = some bound) : Within bound binding := by
  rw [plainType?, Option.bind_eq_bind, Option.bind_eq_some_iff] at hbound
  obtain ⟨clause, hclause, hbound⟩ := hbound
  refine .trans ?_ (.of_mem_children (List.mem_of_find?_eq_some hclause))
  split at hbound
  next colon type rest hchildren =>
    split at hbound
    next =>
      obtain rfl := Option.some.inj hbound
      exact .of_mem_children (by rw [hchildren]; simp)
    next => simp at hbound
  next => simp at hbound

theorem settled_lookupArguments {bound : Tree} (hbound : Settled names shown bound) (trailing : Text) :
    Settled names shown (lookupArguments bound trailing) := by
  have hreference : Settled names shown (typeReference bound) := by
    refine hbound.congr ?_
    rw [typeReference, bare_mapLast (keepsWord_trailing _), bare_mapFirst (keepsWord_leading _)]
  have haccess : Settled names shown (.node .memberAccess [typeReference bound, mark .dot ['.'] [],
      mark .identifier "self".toList []]) := by
    refine .node ?_ (settledAll_cons.mpr ⟨hreference, by simp [mark, Settled.leaf]⟩)
    have hother : ("self".toList == environmentObjectModifier) = false := by decide
    simp only [Rests, mark, memberRoles, hother]
    rfl
  have hargument : Settled names shown (.node .argument [.node .expr [.node .memberAccess [typeReference bound,
      mark .dot ['.'] [], mark .identifier "self".toList []]]]) :=
    .node trivial (by simpa using .node trivial (by simpa using haccess))
  exact .node trivial (settledAll_cons.mpr ⟨.leaf _, settledAll_cons.mpr ⟨hargument, by simp [mark, Settled.leaf]⟩⟩)

/-- The successor of the wrapper of an object from the environment is settled and no such wrapper. -/
theorem settled_environmentAttribute {bound : Tree} (hbound : Settled names shown bound) (ht : Settled names shown t)
    (hattr : t.is .attr = true) (hnamed : isNamed environmentObjectName t = true) (hlength : t.children.length = 2) :
    Settled names shown (environmentAttribute bound t) ∧ (environmentAttribute bound t).is .attr = true ∧
      isNamed environmentObjectName (environmentAttribute bound t) = false := by
  obtain ⟨children, rfl⟩ := exists_of_is hattr
  obtain ⟨sign, token, rest, rfl, -⟩ := exists_of_isNamed hnamed
  obtain rfl : rest = [] := by simpa [Tree.children] using hlength
  refine ⟨.node ⟨rfl, rfl⟩ ?_, rfl, rfl⟩
  exact settledAll_cons.mpr ⟨ht.of_mem (by simp), settledAll_cons.mpr ⟨settled_plainName _,
    by simpa using settled_lookupArguments hbound _⟩⟩

theorem settled_dropTypeClause (ht : Settled names shown t) (htyped : isPlainlyTyped t = true) :
    Settled names shown (dropTypeClause t) := by
  obtain ⟨children, rfl⟩ := exists_of_is (Bool.and_eq_true_iff.mp htyped).1
  unfold dropTypeClause
  split
  next label pattern rest clause heq hclause =>
    obtain ⟨rfl, rfl⟩ := node.inj heq
    refine Settled.congr (s := .node .binding (pattern :: rest.eraseP (·.is .typeClause))) ?_ ?_
    · simp [bare_mapLast (keepsWord_trailing _)]
    · refine .node trivial (settledAll_cons.mpr ⟨ht.of_mem (by simp), fun s hs => ht.of_mem ?_⟩)
      exact List.mem_cons_of_mem _ (List.mem_of_mem_eraseP hs)
  next => exact ht

/-- What holds of all elements holds after a change of the first one of a class, if the change makes it so. -/
theorem forall_mem_updateFirst {p : Tree → Bool} {f : Tree → Tree} {P : Tree → Prop} {trees : List Tree}
    (htrees : ∀ t ∈ trees, P t) (hfirst : ∀ t ∈ trees.find? p, P (f t)) : ∀ t ∈ updateFirst p f trees, P t := by
  induction trees with
  | nil => simp [updateFirst]
  | cons t rest ih =>
      rw [updateFirst]
      split
      next hp => exact List.forall_mem_cons.mpr ⟨hfirst t (by simp [hp]), fun s hs => htrees s (by simp [hs])⟩
      next hp =>
        refine List.forall_mem_cons.mpr ⟨htrees t (by simp), ih (fun s hs => htrees s (by simp [hs])) fun s hs => ?_⟩
        exact hfirst s (by simpa [hp] using hs)

/-- A change of the only element of a class that takes it out of the class leaves none. -/
theorem any_updateFirst_eq_false {p : Tree → Bool} {f : Tree → Tree} {trees : List Tree} (hsingle : trees.countP p ≤ 1)
    (hfirst : ∀ t ∈ trees.find? p, p (f t) = false) : (updateFirst p f trees).any p = false := by
  induction trees with
  | nil => rfl
  | cons t rest ih =>
      rw [updateFirst]
      cases hp : p t with
      | true =>
          rw [List.countP_cons_of_pos hp] at hsingle
          have hnone : rest.countP p = 0 := by omega
          rw [List.countP_eq_zero] at hnone
          have hrest : rest.any p = false := by simpa using hnone
          simp [hfirst t (by simp [hp]), hrest]
      | false =>
          rw [List.countP_cons_of_neg (by simp [hp])] at hsingle
          simpa [hp] using ih hsingle (fun s hs => hfirst s (by simpa [hp] using hs))

/-- What the rule for objects from the environment makes of a declaration: nothing new if no type is there to move, or one
with the wrapper's successor and without the type. -/
theorem migrateEnvironment_cases (label : Label) (found rest : List Tree) :
    (movesType found rest = false ∧
      migrateEnvironment (.node label (.node .attributes found :: rest)) = .node label (.node .attributes found :: rest)) ∨
    ∃ target binding bound, found.find? (isNamed environmentObjectName) = some target ∧ target.children.length = 2 ∧
      rest.find? isPlainlyTyped = some binding ∧ plainType? binding = some bound ∧
      migrateEnvironment (.node label (.node .attributes found :: rest)) = .node label (
        .node .attributes (updateFirst (isNamed environmentObjectName) (environmentAttribute bound) found) ::
          updateFirst isPlainlyTyped dropTypeClause rest) := by
  cases hmoves : movesType found rest with
  | false => exact .inl ⟨rfl, migrateEnvironment_eq_self hmoves⟩
  | true =>
      obtain ⟨htarget, htyped⟩ := Bool.and_eq_true_iff.mp hmoves
      rw [Option.any_eq_true] at htarget
      obtain ⟨target, htarget, hlength⟩ := htarget
      obtain ⟨binding, hbinding⟩ := Option.isSome_iff_exists.mp (List.find?_isSome.mpr (List.any_eq_true.mp htyped))
      have hplain : isPlainlyTyped binding = true := List.find?_some hbinding
      obtain ⟨bound, hbound⟩ := Option.isSome_iff_exists.mp (Bool.and_eq_true_iff.mp hplain).2
      refine .inr ⟨target, binding, bound, htarget, by simpa using hlength, hbinding, hbound, ?_⟩
      rw [migrateEnvironment, htarget, hbinding, Option.bind_some, hbound]
      simp [hlength]

/-- What the rule for declarations of variables makes of settled parts. Either no type is there to move, or one moves and
no wrapper is left that one could move into. -/
theorem migrateVariables_cases {found rest : List Tree} (hsingle : found.countP (isNamed environmentObjectName) ≤ 1)
    (hfound : SettledAll names shown found) (hattrs : ∀ t ∈ found, t.is .attr = true) (hrest : SettledAll names shown rest) :
    ∃ found' rest', migrateVariables (.node .variableDecl (.node .attributes found :: rest)) =
        dropAttributes isErased (.node .variableDecl (.node .attributes found' :: rest')) ∧
      SettledAll names shown found' ∧ (∀ t ∈ found', t.is .attr = true) ∧ SettledAll names shown rest' ∧
      (movesType found rest = false ∧ found' = found ∧ rest' = rest ∨ found'.any (isNamed environmentObjectName) = false) := by
  obtain ⟨hmoves, hmigrated⟩ | ⟨target, binding, bound, htarget, hlength, hbinding, hbound, hmigrated⟩ :=
    migrateEnvironment_cases .variableDecl found rest
  · exact ⟨found, rest, by rw [migrateVariables, hmigrated], hfound, hattrs, hrest, .inl ⟨hmoves, rfl, rfl⟩⟩
  · have htype : Settled names shown bound := (hrest binding (List.mem_of_find?_eq_some hbinding)).of_within (within_of_plainType? hbound)
    have hsuccessor : ∀ t ∈ found.find? (isNamed environmentObjectName), Settled names shown (environmentAttribute bound t) ∧
        (environmentAttribute bound t).is .attr = true ∧
        isNamed environmentObjectName (environmentAttribute bound t) = false := by
      intro t ht
      obtain rfl : target = t := Option.some.inj (htarget.symm.trans ht)
      have hmem := List.mem_of_find?_eq_some htarget
      exact settled_environmentAttribute htype (hfound target hmem) (hattrs target hmem) (List.find?_some htarget) hlength
    refine ⟨_, _, by rw [migrateVariables, hmigrated], ?_, ?_, ?_, .inr ?_⟩
    · exact forall_mem_updateFirst hfound fun t ht => (hsuccessor t ht).1
    · exact forall_mem_updateFirst hattrs fun t ht => (hsuccessor t ht).2.1
    · refine forall_mem_updateFirst hrest fun t ht => ?_
      exact settled_dropTypeClause (hrest t (List.mem_of_find?_eq_some ht)) (List.find?_some ht)
    · exact any_updateFirst_eq_false hsingle fun t ht => (hsuccessor t ht).2.2

theorem settled_migrateVariables {found rest : List Tree} (hsingle : found.countP (isNamed environmentObjectName) ≤ 1)
    (hfound : SettledAll names shown found) (hattrs : ∀ t ∈ found, t.is .attr = true) (hrest : SettledAll names shown rest) :
    Settled names shown (migrateVariables (.node .variableDecl (.node .attributes found :: rest))) := by
  obtain ⟨found', rest', heq, hfound', -, hrest', hcases⟩ := migrateVariables_cases hsingle hfound hattrs hrest
  rw [heq]
  refine settled_dropAttributes (fun t hnamed => not_isErased_of_isNamed hnamed) (fun t _ hkept => hkept) ?_ hfound' hrest'
  obtain ⟨hmoves, rfl, rfl⟩ | hnone := hcases
  · exact hmoves
  · have htarget : found'.find? (isNamed environmentObjectName) = none := by simpa using hnone
    rw [movesType, htarget]
    rfl

end SwiftObservation.Migration
