import Mathlib.Data.List.ModifyLast
import SwiftObservation.Tree.Edge

/-!
# The edges of a tree, told by its leaves

The first and the last token of a tree are those of its leaves, and a change to one of them changes nothing else. So what a
rule does to the trivia at the edges of its parts can be said of lists of tokens.
-/

namespace SwiftObservation.Tree

variable {f : Token → Token} {t : Tree} {trees : List Tree}

mutual

theorem first?_eq (t : Tree) : t.first? = t.leaves.head? := by
  cases t with
  | leaf token => rfl
  | node label children => exact firstOf?_eq children
  | absent => rfl

theorem firstOf?_eq (trees : List Tree) : firstOf? trees = (leavesOf trees).head? := by
  cases trees with
  | nil => rfl
  | cons t rest => rw [firstOf?, leavesOf, List.head?_append, first?_eq t, firstOf?_eq rest]

end

mutual

theorem last?_eq (t : Tree) : t.last? = t.leaves.getLast? := by
  cases t with
  | leaf token => rfl
  | node label children => exact lastOf?_eq children
  | absent => rfl

theorem lastOf?_eq (trees : List Tree) : lastOf? trees = (leavesOf trees).getLast? := by
  cases trees with
  | nil => rfl
  | cons t rest => rw [lastOf?, leavesOf, List.getLast?_append, last?_eq t, lastOf?_eq rest]

end

theorem lastOf?_concat (trees : List Tree) (t : Tree) : lastOf? (trees ++ [t]) = t.last?.or (lastOf? trees) := by
  rw [lastOf?_eq, leavesOf_append, List.getLast?_append, leavesOf, leavesOf, List.append_nil, last?_eq, lastOf?_eq]

mutual

/-- A tree without tokens has no first one to change; any other changes it and nothing else. -/
theorem mapFirst?_cases (f : Token → Token) (t : Tree) : (t.mapFirst? f = none ∧ t.leaves = []) ∨
    ∃ t' token rest, t.mapFirst? f = some t' ∧ t.leaves = token :: rest ∧ t'.leaves = f token :: rest := by
  cases t with
  | leaf token => exact .inr ⟨_, token, [], rfl, rfl, rfl⟩
  | absent => exact .inl ⟨rfl, rfl⟩
  | node label children =>
      obtain ⟨hnone, hempty⟩ | ⟨changed, token, rest, hsome, hleaves, hchanged⟩ := mapFirstOf?_cases f children
      · exact .inl ⟨by rw [mapFirst?, hnone]; rfl, hempty⟩
      · exact .inr ⟨.node label changed, token, rest, by rw [mapFirst?, hsome]; rfl, hleaves, hchanged⟩

theorem mapFirstOf?_cases (f : Token → Token) (trees : List Tree) : (mapFirstOf? f trees = none ∧ leavesOf trees = []) ∨
    ∃ trees' token rest, mapFirstOf? f trees = some trees' ∧ leavesOf trees = token :: rest ∧
      leavesOf trees' = f token :: rest := by
  cases trees with
  | nil => exact .inl ⟨rfl, rfl⟩
  | cons t more =>
      obtain ⟨hnone, hempty⟩ | ⟨t', token, rest, hsome, hleaves, hchanged⟩ := mapFirst?_cases f t
      · obtain ⟨hnone', hempty'⟩ | ⟨more', token, rest, hsome, hleaves, hchanged⟩ := mapFirstOf?_cases f more
        · exact .inl ⟨by rw [mapFirstOf?, hnone, hnone']; rfl, by rw [leavesOf, hempty, hempty']; rfl⟩
        · refine .inr ⟨t :: more', token, rest, by rw [mapFirstOf?, hnone, hsome]; rfl, ?_, ?_⟩
          · rw [leavesOf, hempty, hleaves]
            rfl
          · rw [leavesOf, hempty, hchanged]
            rfl
      · refine .inr ⟨t' :: more, token, rest ++ leavesOf more, by rw [mapFirstOf?, hsome], ?_, ?_⟩
        · rw [leavesOf, hleaves]
          rfl
        · rw [leavesOf, hchanged]
          rfl

end

mutual

/-- A tree without tokens has no last one to change; any other changes it and nothing else. -/
theorem mapLast?_cases (f : Token → Token) (t : Tree) : (t.mapLast? f = none ∧ t.leaves = []) ∨
    ∃ t' token front, t.mapLast? f = some t' ∧ t.leaves = front ++ [token] ∧ t'.leaves = front ++ [f token] := by
  cases t with
  | leaf token => exact .inr ⟨_, token, [], rfl, rfl, rfl⟩
  | absent => exact .inl ⟨rfl, rfl⟩
  | node label children =>
      obtain ⟨hnone, hempty⟩ | ⟨changed, token, front, hsome, hleaves, hchanged⟩ := mapLastOf?_cases f children
      · exact .inl ⟨by rw [mapLast?, hnone]; rfl, hempty⟩
      · exact .inr ⟨.node label changed, token, front, by rw [mapLast?, hsome]; rfl, hleaves, hchanged⟩

theorem mapLastOf?_cases (f : Token → Token) (trees : List Tree) : (mapLastOf? f trees = none ∧ leavesOf trees = []) ∨
    ∃ trees' token front, mapLastOf? f trees = some trees' ∧ leavesOf trees = front ++ [token] ∧
      leavesOf trees' = front ++ [f token] := by
  cases trees with
  | nil => exact .inl ⟨rfl, rfl⟩
  | cons t more =>
      obtain ⟨hnone, hempty⟩ | ⟨more', token, front, hsome, hleaves, hchanged⟩ := mapLastOf?_cases f more
      · obtain ⟨hnone', hempty'⟩ | ⟨t', token, front, hsome, hleaves, hchanged⟩ := mapLast?_cases f t
        · exact .inl ⟨by rw [mapLastOf?, hnone, hnone']; rfl, by rw [leavesOf, hempty, hempty']; rfl⟩
        · refine .inr ⟨t' :: more, token, front, by rw [mapLastOf?, hnone, hsome]; rfl, ?_, ?_⟩
          · rw [leavesOf, hempty, hleaves, List.append_nil]
          · rw [leavesOf, hempty, hchanged, List.append_nil]
      · refine .inr ⟨t :: more', token, t.leaves ++ front, by rw [mapLastOf?, hsome], ?_, ?_⟩
        · rw [leavesOf, hleaves, List.append_assoc]
        · rw [leavesOf, hchanged, List.append_assoc]

end

theorem leavesOf_mapFirstOf? (htrees : leavesOf trees ≠ []) : ∃ token rest, leavesOf trees = token :: rest ∧
    leavesOf ((mapFirstOf? f trees).getD trees) = f token :: rest := by
  obtain ⟨-, hempty⟩ | ⟨trees', token, rest, hsome, hleaves, hchanged⟩ := mapFirstOf?_cases f trees
  · exact absurd hempty htrees
  · exact ⟨token, rest, hleaves, by rw [hsome]; exact hchanged⟩

theorem leaves_mapFirst (ht : t.leaves ≠ []) : ∃ token rest, t.leaves = token :: rest ∧
    (t.mapFirst f).leaves = f token :: rest := by
  obtain ⟨-, hempty⟩ | ⟨t', token, rest, hsome, hleaves, hchanged⟩ := mapFirst?_cases f t
  · exact absurd hempty ht
  · exact ⟨token, rest, hleaves, by rw [mapFirst, hsome]; exact hchanged⟩

theorem leaves_mapLast (ht : t.leaves ≠ []) : ∃ token front, t.leaves = front ++ [token] ∧
    (t.mapLast f).leaves = front ++ [f token] := by
  obtain ⟨-, hempty⟩ | ⟨t', token, front, hsome, hleaves, hchanged⟩ := mapLast?_cases f t
  · exact absurd hempty ht
  · exact ⟨token, front, hleaves, by rw [mapLast, hsome]; exact hchanged⟩

/-! ### Changes at the edges -/

theorem leaves_mapFirst_eq_modifyHead (f : Token → Token) (t : Tree) : (t.mapFirst f).leaves = t.leaves.modifyHead f := by
  obtain ⟨hnone, hempty⟩ | ⟨t', token, rest, hsome, hleaves, hchanged⟩ := mapFirst?_cases f t
  · rw [mapFirst, hnone, Option.getD_none, hempty, List.modifyHead_nil]
  · rw [mapFirst, hsome, Option.getD_some, hchanged, hleaves, List.modifyHead_cons]

theorem leaves_mapLast_eq_modifyLast (f : Token → Token) (t : Tree) : (t.mapLast f).leaves = t.leaves.modifyLast f := by
  obtain ⟨hnone, hempty⟩ | ⟨t', token, front, hsome, hleaves, hchanged⟩ := mapLast?_cases f t
  · rw [mapLast, hnone, Option.getD_none, hempty]
    rfl
  · rw [mapLast, hsome, Option.getD_some, hchanged, hleaves, List.modifyLast_concat]

theorem mapFirst_eq_self (hempty : t.leaves = []) : t.mapFirst f = t := by
  obtain ⟨hnone, -⟩ | ⟨_, token, rest, -, hleaves, -⟩ := mapFirst?_cases f t
  · rw [mapFirst, hnone, Option.getD_none]
  · simp [hempty] at hleaves

theorem mapLast_eq_self (hempty : t.leaves = []) : t.mapLast f = t := by
  obtain ⟨hnone, -⟩ | ⟨_, token, front, -, hleaves, -⟩ := mapLast?_cases f t
  · rw [mapLast, hnone, Option.getD_none]
  · simp [hempty] at hleaves

mutual

/-- The tree without its tokens: its labels, and where its leaves and its absent children are. -/
def outline : Tree → Tree
  | leaf _ => leaf default
  | node label children => node label (outlineOf children)
  | absent => absent

def outlineOf : List Tree → List Tree
  | [] => []
  | t :: rest => t.outline :: outlineOf rest

end
mutual

theorem outline_mapFirst? {t t' : Tree} (hsome : t.mapFirst? f = some t') : t'.outline = t.outline := by
  cases t with
  | leaf token =>
      obtain rfl := Option.some.inj hsome
      rfl
  | node label children =>
      obtain ⟨children', hchildren, rfl⟩ := Option.map_eq_some_iff.mp hsome
      rw [outline, outline, outline_mapFirstOf? hchildren]
  | absent => cases hsome

theorem outline_mapFirstOf? {trees trees' : List Tree} (hsome : mapFirstOf? f trees = some trees') :
    outlineOf trees' = outlineOf trees := by
  cases trees with
  | nil => cases hsome
  | cons t rest =>
      rw [mapFirstOf?] at hsome
      split at hsome
      next t' ht =>
        obtain rfl := Option.some.inj hsome
        rw [outlineOf, outlineOf, outline_mapFirst? ht]
      next =>
        obtain ⟨rest', hrest, rfl⟩ := Option.map_eq_some_iff.mp hsome
        rw [outlineOf, outlineOf, outline_mapFirstOf? hrest]

end

mutual

theorem outline_mapLast? {t t' : Tree} (hsome : t.mapLast? f = some t') : t'.outline = t.outline := by
  cases t with
  | leaf token =>
      obtain rfl := Option.some.inj hsome
      rfl
  | node label children =>
      obtain ⟨children', hchildren, rfl⟩ := Option.map_eq_some_iff.mp hsome
      rw [outline, outline, outline_mapLastOf? hchildren]
  | absent => cases hsome

theorem outline_mapLastOf? {trees trees' : List Tree} (hsome : mapLastOf? f trees = some trees') :
    outlineOf trees' = outlineOf trees := by
  cases trees with
  | nil => cases hsome
  | cons t rest =>
      rw [mapLastOf?] at hsome
      split at hsome
      next rest' hrest =>
        obtain rfl := Option.some.inj hsome
        rw [outlineOf, outlineOf, outline_mapLastOf? hrest]
      next =>
        obtain ⟨t', ht, rfl⟩ := Option.map_eq_some_iff.mp hsome
        rw [outlineOf, outlineOf, outline_mapLast? ht]

end

theorem outline_mapFirst (f : Token → Token) (t : Tree) : (t.mapFirst f).outline = t.outline := by
  unfold mapFirst
  cases hchanged : t.mapFirst? f with
  | none => rfl
  | some t' => exact outline_mapFirst? hchanged

theorem outline_mapLast (f : Token → Token) (t : Tree) : (t.mapLast f).outline = t.outline := by
  unfold mapLast
  cases hchanged : t.mapLast? f with
  | none => rfl
  | some t' => exact outline_mapLast? hchanged

/-! ### Walking over a tree -/

/-- The tokens come off the stack as the leaves of its trees, from left to right. -/
theorem walk_eq (stack : List Tree) : walk stack = leavesOf stack := by
  fun_induction walk stack with
  | case1 => rfl
  | case2 token rest ih =>
      rw [ih, leavesOf]
      rfl
  | case3 label children rest ih =>
      rw [ih, leavesOf_append, leavesOf]
      rfl
  | case4 rest ih =>
      rw [ih, leavesOf]
      rfl

/-- Walking over a tree yields its leaves from left to right. The first and the last token found on the way are those that a
change at the edges changes, and nothing else changes: not the other tokens, nor the labels, nor where leaves and absent
children are; and a tree without tokens stays as it is. -/
theorem walk_mapEdges (f : Token → Token) (t : Tree) :
    walk [t] = t.leaves ∧ t.first? = (walk [t]).head? ∧ t.last? = (walk [t]).getLast? ∧
      walk [t.mapFirst f] = (walk [t]).modifyHead f ∧ walk [t.mapLast f] = (walk [t]).modifyLast f ∧
      (t.mapFirst f).outline = t.outline ∧ (t.mapLast f).outline = t.outline ∧
      (walk [t] = [] → t.mapFirst f = t ∧ t.mapLast f = t) := by
  have hwalk (t : Tree) : walk [t] = t.leaves := by rw [walk_eq, leavesOf, leavesOf, List.append_nil]
  simp only [hwalk]
  exact ⟨trivial, first?_eq t, last?_eq t, leaves_mapFirst_eq_modifyHead f t, leaves_mapLast_eq_modifyLast f t,
    outline_mapFirst f t, outline_mapLast f t, fun hempty => ⟨mapFirst_eq_self hempty, mapLast_eq_self hempty⟩⟩

/-- A node with an absent child and an empty node in it has no token to change. -/
theorem walk_mapEdges_empty (f : Token → Token) :
    let t : Tree := .node .memberAccess [.absent, .node .attributes []]
    walk [t] = [] ∧ t.mapFirst f = t ∧ t.mapLast f = t := by
  intro t
  have hempty : walk [t] = [] := by rw [walk_eq]; rfl
  exact ⟨hempty, (walk_mapEdges f t).2.2.2.2.2.2.2 hempty⟩

end SwiftObservation.Tree
