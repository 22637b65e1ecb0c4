import SwiftObservation.Proofs.Grammar.Shape.Basic

/-!
# Trees within trees

`Within s t` says that `s` is a subtree of `t`, at any depth. Whatever a tree and its children hand down to each child
holds of all trees within it.
-/

namespace SwiftObservation.Tree

/-- The first tree is the second one, or stands below one of its children. -/
inductive Within (s : Tree) : Tree → Prop where
  | self : Within s s
  | child {label : Label} {children : List Tree} {t : Tree} (mem : t ∈ children) (within : Within s t) :
      Within s (.node label children)

variable {r s t : Tree} {label : Label} {children : List Tree}

theorem Within.of_mem_children (hmem : s ∈ t.children) : Within s t := by
  cases t with
  | leaf token => simp [Tree.children] at hmem
  | absent => simp [Tree.children] at hmem
  | node label children => exact .child hmem .self

theorem Within.trans (hinner : Within r s) (houter : Within s t) : Within r t := by
  induction houter with
  | self => exact hinner
  | child hmem _ ih => exact .child hmem ih

theorem sizeOf_lt_of_mem_children (hmem : s ∈ t.children) : sizeOf s < sizeOf t := by
  cases t with
  | leaf token => simp [Tree.children] at hmem
  | absent => simp [Tree.children] at hmem
  | node label children =>
      have hsize : sizeOf s < sizeOf children := List.sizeOf_lt_of_mem hmem
      rw [node.sizeOf_spec]
      omega

mutual

/-- All trees within a tree, each in front of those below it. -/
def subtrees : Tree → List Tree
  | leaf token => [leaf token]
  | node label children => node label children :: subtreesOf children
  | absent => [absent]

/-- All trees within several trees. -/
def subtreesOf : List Tree → List Tree
  | [] => []
  | t :: rest => t.subtrees ++ subtreesOf rest

end

theorem mem_subtreesOf {trees : List Tree} : s ∈ subtreesOf trees ↔ ∃ t ∈ trees, s ∈ t.subtrees := by
  induction trees with
  | nil => simp [subtreesOf]
  | cons t rest ih => simp [subtreesOf, ih]

theorem Within.mem_subtrees (hwithin : Within s t) : s ∈ t.subtrees := by
  induction hwithin with
  | self => cases s <;> simp [subtrees]
  | child hmem _ ih => exact List.mem_cons_of_mem _ (mem_subtreesOf.mpr ⟨_, hmem, ih⟩)

theorem within_of_mem_subtrees (t : Tree) (hmem : s ∈ t.subtrees) : Within s t := by
  match t, hmem with
  | leaf token, hmem =>
      obtain rfl := List.mem_singleton.mp hmem
      exact .self
  | absent, hmem =>
      obtain rfl := List.mem_singleton.mp hmem
      exact .self
  | node label children, hmem =>
      obtain rfl | hmem := List.mem_cons.mp hmem
      · exact .self
      · obtain ⟨t, ht, hs⟩ := mem_subtreesOf.mp hmem
        have hsize := sizeOf_lt_of_mem_children (t := node label children) ht
        exact .child ht (within_of_mem_subtrees t hs)
termination_by sizeOf t

theorem mem_subtrees_iff : s ∈ t.subtrees ↔ Within s t := ⟨within_of_mem_subtrees t, Within.mem_subtrees⟩

/-- The children with one label of the child with another. -/
theorem Within.of_mem_childrenWith {outer inner : Label}
    (hmem : s ∈ ((t.child? outer).map (·.childrenWith inner)).getD []) : Within s t := by
  cases houter : t.child? outer with
  | none => simp [houter] at hmem
  | some parent =>
      rw [houter, Option.map_some, Option.getD_some] at hmem
      exact .trans (.of_mem_children (List.mem_filter.mp hmem).1) (.of_mem_children (List.mem_of_find?_eq_some houter))

theorem mem_leavesOf {token : Token} {trees : List Tree} : token ∈ leavesOf trees ↔ ∃ t ∈ trees, token ∈ t.leaves := by
  induction trees with
  | nil => simp [leavesOf]
  | cons t rest ih => simp [leavesOf, ih]

theorem textOf_leavesOf (trees : List Tree) : Token.textOf (leavesOf trees) = trees.flatMap text := by
  induction trees with
  | nil => rfl
  | cons t rest ih => rw [leavesOf, Token.textOf_append, ih, List.flatMap_cons, text]

theorem Within.leaves_subset (hwithin : Within s t) : s.leaves ⊆ t.leaves := by
  induction hwithin with
  | self => exact List.Subset.refl _
  | child hmem _ ih =>
      intro token htoken
      exact mem_leavesOf.mpr ⟨_, hmem, ih htoken⟩

theorem Shaped.of_within (ht : t.Shaped) (hwithin : Within s t) : s.Shaped := by
  induction hwithin with
  | self => exact ht
  | child hmem _ ih => exact ih (ht.of_mem hmem)

end SwiftObservation.Tree
