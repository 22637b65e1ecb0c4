import SwiftObservation.Proofs.Grammar.Filled
import SwiftObservation.Proofs.Migration.Comments.Basic
import SwiftObservation.Proofs.Migration.Origin

/-!
# Declarations of variables stand clear of comments

The attributes of a declaration and what follows them are separate if each begins with fresh trivia, the first one apart.
This survives the migration of the declaration: an attribute that was erased has no trivia behind it, so what it leaves to
the next token is fresh if its own leading trivia was. A published property loses its wrapper later and for good, and then
the comments behind the wrapper may come first on their line.
-/

namespace SwiftObservation

open SwiftObservation.Tree

namespace Tree

variable {s t : Tree} {trees : List Tree} {lead behind : Lead}

mutual

theorem leaves_bare (t : Tree) : t.bare.leaves = t.leaves.map fun token => { kind := token.kind, text := token.text } := by
  cases t with
  | leaf token => rfl
  | node label children => exact leavesOf_bareAll children
  | absent => rfl

theorem leavesOf_bareAll (trees : List Tree) :
    leavesOf (bareAll trees) = (leavesOf trees).map fun token => { kind := token.kind, text := token.text } := by
  cases trees with
  | nil => rfl
  | cons t rest => rw [bareAll, leavesOf, leavesOf, leaves_bare t, leavesOf_bareAll rest, List.map_append]

end

/-- Whether a tree has a token is no matter of trivia. -/
theorem leaves_ne_nil_of_bare (hbare : s.bare = t.bare) (hs : s.leaves ≠ []) : t.leaves ≠ [] := by
  intro hnone
  apply hs
  have hleaves := congrArg leaves hbare
  rw [leaves_bare, leaves_bare, hnone] at hleaves
  exact List.map_eq_nil_iff.mp hleaves

theorem leavesOf_ne_nil : leavesOf trees ≠ [] ↔ ∃ t ∈ trees, t.leaves ≠ [] := by
  induction trees with
  | nil => simp [leavesOf]
  | cons t rest ih =>
      rw [leavesOf, ne_eq, List.append_eq_nil_iff, not_and_or, List.exists_mem_cons_iff]
      exact or_congr Iff.rfl ih

theorem leavesOf_ne_nil_of_leaf {token : Token} (hmem : .leaf token ∈ trees) : leavesOf trees ≠ [] :=
  leavesOf_ne_nil.mpr ⟨_, hmem, by simp [leaves]⟩

theorem leavesOf_ne_nil_of_bare {trees' : List Tree} (hbare : trees.map bare = trees'.map bare) (htrees : leavesOf trees ≠ []) :
    leavesOf trees' ≠ [] := by
  have hnode : (node .block trees).bare = (node .block trees').bare := by rw [bare_node, bare_node, hbare]
  exact leaves_ne_nil_of_bare hnode htrees

theorem ClearAll.of_mem (htrees : ClearAll .any lead trees behind) (hmem : t ∈ trees) :
    ∃ lead' behind', t.Clear lead' behind' := by
  obtain ⟨front, back, rfl⟩ := List.append_of_mem hmem
  obtain ⟨_, -, _, -, ht, -⟩ := clearAll_append.mp htrees
  exact ⟨_, _, ht⟩

/-- A tree within a tree that stands clear stands clear somewhere. -/
theorem Clear.of_within (ht : t.Clear lead behind) (hwithin : Within s t) : ∃ lead' behind', s.Clear lead' behind' := by
  induction hwithin generalizing lead behind with
  | self => exact ⟨_, _, ht⟩
  | child hmem _ ih =>
      obtain ⟨_, _, hchild⟩ := (clear_node.mp ht).of_mem hmem
      exact ih hchild

end Tree

namespace Migration

variable {names : List Text} {t decl : Tree} {label : Label} {children found rest : List Tree} {strict lead behind : Lead}

/-! ### Trees that keep a token -/

theorem leaves_ne_nil_of_trivia {s : Tree} (htrivia : s.leaves.map Token.trivia = t.leaves.map Token.trivia)
    (ht : t.leaves ≠ []) : s.leaves ≠ [] := by
  intro hnone
  rw [hnone, List.map_nil, eq_comm, List.map_eq_nil_iff] at htrivia
  exact ht htrivia

theorem leaves_migrateAttribute (ht : t.leaves ≠ []) : (migrateAttribute t).leaves ≠ [] := by
  unfold migrateAttribute
  split
  next sign name rest hchildren =>
    split
    next =>
      refine leaves_ne_nil_of_trivia (t := t) ?_ ht
      cases t with
      | node label children =>
          obtain rfl : children = sign :: name :: rest := hchildren
          simp only [leaves, leavesOf, List.map_append, trivia_rename]
      | _ => cases hchildren
    next =>
      split
      next =>
        split
        next token => simp [erased, leaves, leavesOf]
        next => exact ht
      next => exact ht
  next => exact ht

theorem mem_updateFirst {p : Tree → Bool} {f : Tree → Tree} {trees : List Tree} (hmem : t ∈ trees) (hother : p t = false) :
    t ∈ updateFirst p f trees := by
  induction trees with
  | nil => exact hmem
  | cons s rest ih =>
      rw [updateFirst]
      rcases List.mem_cons.mp hmem with rfl | hmem
      · simp [hother]
      · split
        · exact List.mem_cons_of_mem _ hmem
        · exact List.mem_cons_of_mem _ (ih hmem)

/-- The keyword of a declaration of variables stays. -/
theorem leaves_migrateVariables {keyword : Token} (hkeyword : .leaf keyword ∈ rest) :
    (migrateVariables (.node label (.node .attributes found :: rest))).leaves ≠ [] := by
  have hdrop (found rest : List Tree) (hmem : .leaf keyword ∈ rest) :
      (dropAttributes isErased (.node label (.node .attributes found :: rest))).leaves ≠ [] := by
    obtain ⟨kept, behind, heq, -, hbare⟩ := dropAttributes_eq isErased label found rest
    rw [heq, leaves, leavesOf]
    exact List.append_ne_nil_of_right_ne_nil _ (leavesOf_ne_nil_of_bare hbare.symm (leavesOf_ne_nil_of_leaf hmem))
  rw [migrateVariables]
  obtain ⟨-, heq⟩ | ⟨_, _, _, -, -, -, -, heq⟩ := migrateEnvironment_cases label found rest
  · rw [heq]
    exact hdrop _ _ hkeyword
  · rw [heq]
    exact hdrop _ _ (mem_updateFirst hkeyword rfl)

theorem ClassParts.keyword_mem (p : ClassParts) : .leaf p.keyword ∈ p.trees := by simp [trees, head]

/-- No tree of the grammar loses all of its tokens. -/
theorem leaves_migrate (names : List Text) (hs : t.Shaped) (ht : t.leaves ≠ []) : (migrate names t).leaves ≠ [] := by
  induction hs with
  | leaf token => exact ht
  | absent => exact ht
  | @node label children hadmits hinner ih =>
      have hchildren : (Tree.node label (children.map (migrate names))).leaves ≠ [] := by
        obtain ⟨child, hmem, hchild⟩ := leavesOf_ne_nil.mp ht
        exact leavesOf_ne_nil.mpr ⟨_, List.mem_map_of_mem hmem, ih child hmem hchild⟩
      have hshaped : Shaped (.node label children) := .node hadmits hinner
      by_cases hlabel : label ∈ ruled
      · simp only [ruled, List.mem_cons, List.not_mem_nil, or_false] at hlabel
        rcases hlabel with rfl | rfl | rfl | rfl | rfl
        · obtain ⟨attributes, modifiers, keyword, name, rest, rfl, hkind⟩ | ⟨p, rfl⟩ := ClassParts.cases_of_shaped hshaped
          · rwa [migrate_of_not_isClass hkind]
          · cases hconverted : isConverted names p.trees with
            | false => rwa [ClassParts.migrate_of_not_isConverted (ClassParts.shaped_clause hshaped) hconverted]
            | true =>
                obtain ⟨_, _, hbare, -⟩ := ClassParts.exists_migrate_of_isConverted hshaped hconverted
                exact leaves_ne_nil_of_bare hbare.symm (leavesOf_ne_nil_of_leaf (ClassParts.keyword_mem _))
        · obtain ⟨found, modifiers, keyword, bindings, rfl, -⟩ := hadmits
          rw [migrate_node, migrateNode, List.map_cons, migrate_node_of_not_mem .attributes (by decide)]
          have hkeyword : .leaf keyword ∈ (.node .modifiers modifiers :: .leaf keyword :: bindings).map (migrate names) := by
            simp
          exact leaves_migrateVariables hkeyword
        · rw [migrate_node, migrateNode]
          exact leaves_migrateAttribute hchildren
        · rw [migrate_node, migrateNode]
          exact leaves_ne_nil_of_trivia (trivia_migrateCall _) hchildren
        · rw [migrate_node, migrateNode]
          exact leaves_ne_nil_of_trivia (trivia_migrateMember _) hchildren
      · rwa [migrate_node_of_not_mem label hlabel]

/-! ### Bindings -/

/-- The pattern of a binding holds a token. -/
theorem leaves_pattern {pattern : Tree} (hf : pattern.Filled)
    (hpattern : pattern.isLeaf .identifier = true ∨ pattern.is .group = true) : pattern.leaves ≠ [] := by
  obtain hleaf | hgroup := hpattern
  · cases pattern with
    | leaf token => simp [leaves]
    | _ => cases hleaf
  · obtain ⟨parts, rfl⟩ := exists_of_is hgroup
    obtain ⟨first, rest, rfl, hfirst⟩ := hf.holds (by simp)
    rw [leaves, leavesOf]
    exact List.append_ne_nil_of_left_ne_nil hfirst _

/-- A binding with a plain type begins with its pattern and its type clause. -/
theorem exists_clause_of_isPlainlyTyped (hs : t.Shaped) (htyped : isPlainlyTyped t = true) :
    ∃ pattern clause trees, t = .node .binding (pattern :: .node .typeClause clause :: trees) ∧
      (pattern.isLeaf .identifier = true ∨ pattern.is .group = true) := by
  obtain ⟨children, rfl⟩ := exists_of_is (Bool.and_eq_true_iff.mp htyped).1
  obtain ⟨pattern, type, value, accessors, comma, rfl, hpattern, -⟩ := hs.admits
  cases type with
  | some clause => exact ⟨pattern, clause, _, rfl, hpattern⟩
  | none =>
      obtain ⟨clause, hclause⟩ := exists_child?_of_isPlainlyTyped htyped
      rw [child?, Tree.children, List.find?_cons_of_neg (by simp [is_typeClause_pattern hpattern])] at hclause
      have hlabel := List.find?_some hclause
      have hmem := List.mem_of_find?_eq_some hclause
      cases value <;> cases accessors <;> cases comma <;> simp [Tree.optional, optionalLeaf] at hmem <;>
        rcases hmem with rfl | rfl | rfl <;> simp at hlabel

theorem clear_dropTypeClause_migrate (hs : t.Shaped) (hf : t.Filled) (htyped : isPlainlyTyped t = true)
    (ht : (migrate names t).Clear lead behind) : (dropTypeClause (migrate names t)).Clear lead behind := by
  obtain ⟨pattern, clause, trees, rfl, hpattern⟩ := exists_clause_of_isPlainlyTyped hs htyped
  have hleaves : (migrate names pattern).leaves ≠ [] :=
    leaves_migrate names (hs.of_mem (by simp)) (leaves_pattern (hf.inner _ (by simp)) hpattern)
  have hclause : (migrate names (.node .typeClause clause)).leaves ≠ [] := by
    have hshaped : Shaped (.node .typeClause clause) := hs.of_mem (by simp)
    obtain ⟨colon, bound, rfl, -⟩ := hshaped.admits
    exact leaves_migrate names hshaped (by simp [leaves, leavesOf])
  rw [migrate_node_of_not_mem .binding (by decide), List.map_cons, List.map_cons] at ht ⊢
  exact clear_dropTypeClause hleaves hclause (by rw [is_migrate, is_typeClause_pattern hpattern]) (by simp) ht

/-! ### Attributes and what follows them -/

/-- The attributes of a declaration and what follows them stand clear of comments, and nothing is left of the line of an
attribute but the attribute's own trivia. -/
structure Separated (lead : Lead) (found rest : List Tree) (behind : Lead) : Prop where
  holds : ∀ t ∈ found, t.leaves ≠ []
  goesOn : leavesOf rest ≠ []
  clear : ∃ last, ClearAll .fresh lead found last ∧ ClearAll .any last rest behind

theorem Separated.clear_node (hparts : Separated lead found rest behind) :
    (Tree.node label (.node .attributes found :: rest)).Clear lead behind := by
  obtain ⟨last, hfound, hrest⟩ := hparts.clear
  exact Tree.clear_node.mpr ⟨last, Lead.any_le _, Tree.clear_node.mpr hfound.weaken, hrest⟩

/-- An attribute that was erased has no trivia behind it. -/
def Quiet (t : Tree) : Prop := isErased t = true → (t.last?.map (·.trailing)).getD [] = []

theorem quiet_of_cons_cons {first second : Tree} {more : List Tree} : Quiet (.node label (first :: second :: more)) := by
  intro herased
  cases first <;> cases herased

theorem quiet_migrate (hs : t.Shaped) (hattr : t.is .attr = true) : Quiet (migrate names t) := by
  obtain ⟨children, rfl⟩ := exists_of_is hattr
  obtain ⟨sign, name, args, rfl, -⟩ := hs.admits
  rw [migrate_node, migrateNode, List.map_cons, List.map_cons, migrate_leaf, migrateAttribute]
  dsimp only [Tree.children]
  split
  · exact quiet_of_cons_cons
  · split
    · exact fun _ => rfl
    · exact quiet_of_cons_cons

theorem quiet_environmentAttribute {bound : Tree} (ht : Quiet t) : Quiet (environmentAttribute bound t) := by
  unfold environmentAttribute
  split
  · exact quiet_of_cons_cons
  · exact ht

theorem leaves_environmentAttribute {bound : Tree} (ht : t.leaves ≠ []) : (environmentAttribute bound t).leaves ≠ [] := by
  unfold environmentAttribute
  split
  · simp [lookupArguments, mark, leaves, leavesOf]
  · exact ht

theorem Separated.migrateEnvironment {keyword : Token} (hparts : Separated lead found rest behind)
    (hkeyword : .leaf keyword ∈ rest) (hquiet : ∀ t ∈ found, Quiet t)
    (hbinding : ∀ t ∈ rest.find? isPlainlyTyped, ∀ lead behind, t.Clear lead behind → (dropTypeClause t).Clear lead behind) :
    ∃ found' rest', migrateEnvironment (.node label (.node .attributes found :: rest)) =
        .node label (.node .attributes found' :: rest') ∧
      Separated lead found' rest' behind ∧ ∀ t ∈ found', Quiet t := by
  obtain ⟨-, heq⟩ | ⟨target, binding, bound, htarget, -, hfirst, hbound, heq⟩ := migrateEnvironment_cases label found rest
  · exact ⟨found, rest, heq, hparts, hquiet⟩
  · obtain ⟨last, hfound, hrest⟩ := hparts.clear
    obtain ⟨_, _, hclear⟩ := hrest.of_mem (List.mem_of_find?_eq_some hfirst)
    obtain ⟨_, _, hclear⟩ := hclear.of_within (within_of_plainType? hbound)
    have hmem (t : Tree) (ht : t ∈ found.find? (isNamed environmentObjectName)) : t ∈ found := List.mem_of_find?_eq_some ht
    refine ⟨_, _, heq, ⟨?_, ?_, last, ?_, ?_⟩, ?_⟩
    · exact forall_mem_updateFirst hparts.holds fun t ht => leaves_environmentAttribute (hparts.holds t (hmem t ht))
    · exact leavesOf_ne_nil_of_leaf (mem_updateFirst hkeyword rfl)
    · exact clearAll_updateFirst (fun t ht _ _ => clear_environmentAttribute hclear (List.find?_some ht)) hfound
    · exact clearAll_updateFirst hbinding hrest
    · exact forall_mem_updateFirst hquiet fun t ht => quiet_environmentAttribute (hquiet t (hmem t ht))

/-- The attributes that stay keep their tokens. -/
theorem leaves_of_mem_dropFrom {doomed : Tree → Bool} (hfound : ∀ t ∈ found, t.leaves ≠ []) :
    ∀ t ∈ (dropFrom doomed none found).1, t.leaves ≠ [] := by
  intro t ht
  have hmem : t.bare ∈ (found.filter (!doomed ·)).map bare := by
    rw [← map_bare_dropFrom none found]
    exact List.mem_map_of_mem ht
  obtain ⟨s, hs, hbare⟩ := List.mem_map.mp hmem
  exact leaves_ne_nil_of_bare hbare (hfound s (List.mem_filter.mp hs).1)

/-- Attributes that were erased leave everything separate. -/
theorem Separated.dropErased (hparts : Separated lead found rest behind) (hquiet : ∀ t ∈ found, Quiet t) :
    ∃ found' rest', dropAttributes isErased (.node label (.node .attributes found :: rest)) =
        .node label (.node .attributes found' :: rest') ∧ Separated lead found' rest' behind := by
  rw [dropAttributes]
  split
  · obtain ⟨last, hfound, hrest⟩ := hparts.clear
    have hnone : Carries lead none lead := le_rfl
    have hclear := clear_dropFrom isErased hparts.holds hparts.goesOn hnone hfound hrest (.inl ⟨rfl, hquiet⟩)
    exact ⟨_, _, rfl, leaves_of_mem_dropFrom hparts.holds, leavesOf_deliver _ hparts.goesOn, hclear⟩
  · exact ⟨found, rest, rfl, hparts⟩

/-- Attributes that go with comments behind them leave everything clear, but a comment may come first on a line. -/
theorem Separated.clear_dropAttributes (doomed : Tree → Bool) (hparts : Separated lead found rest behind) :
    (dropAttributes doomed (.node label (.node .attributes found :: rest))).Clear lead.loosen behind.loosen := by
  rw [dropAttributes]
  split
  · obtain ⟨last, hfound, hrest⟩ := hparts.clear
    have hnone : Carries lead.loosen none lead := lead.loosen_le
    have hloose : ClearAll .any last rest behind.loosen := by
      rw [clearAll_iff] at hrest ⊢
      exact hrest.loosen_behind hparts.goesOn
    obtain ⟨after, hkept, hdelivered⟩ :=
      clear_dropFrom doomed hparts.holds hparts.goesOn hnone hfound hloose (.inr ⟨rfl, lead.loosen_ne_fresh⟩)
    exact Tree.clear_node.mpr ⟨after, Lead.any_le _, Tree.clear_node.mpr hkept, hdelivered⟩
  · exact Token.Clear.loosen hparts.clear_node

/-- A declaration of variables is separate after its migration if its migrated parts are. -/
theorem separated_migrate (hs : Shaped (.node .variableDecl (.node .attributes found :: rest)))
    (hf : Filled (.node .variableDecl (.node .attributes found :: rest))) {last : Lead}
    (hfound : ClearAll .fresh lead (found.map (migrate names)) last)
    (hrest : ClearAll .any last (rest.map (migrate names)) behind) :
    ∃ found' rest', migrate names (.node .variableDecl (.node .attributes found :: rest)) =
        .node .variableDecl (.node .attributes found' :: rest') ∧ Separated lead found' rest' behind := by
  have hattributes : Shaped (.node .attributes found) := hs.of_mem (by simp)
  obtain ⟨_, modifiers, keyword, bindings, hchildren, -⟩ := hs.admits
  obtain ⟨-, rfl⟩ := List.cons.inj hchildren
  have hkeyword : .leaf keyword ∈ (.node .modifiers modifiers :: .leaf keyword :: bindings).map (migrate names) := by simp
  have hleaves : ∀ t ∈ found.map (migrate names), t.leaves ≠ [] := by
    intro t ht
    obtain ⟨s, hmem, rfl⟩ := List.mem_map.mp ht
    obtain ⟨parts, rfl⟩ := exists_of_is (hattributes.admits s hmem)
    have hshaped := hattributes.of_mem hmem
    obtain ⟨sign, name, args, rfl, -⟩ := hshaped.admits
    exact leaves_migrate names hshaped (by simp [leaves, leavesOf])
  have hquiet : ∀ t ∈ found.map (migrate names), Quiet t := by
    intro t ht
    obtain ⟨s, hmem, rfl⟩ := List.mem_map.mp ht
    exact quiet_migrate (hattributes.of_mem hmem) (hattributes.admits s hmem)
  have hparts : Separated lead (found.map (migrate names))
      ((.node .modifiers modifiers :: .leaf keyword :: bindings).map (migrate names)) behind :=
    ⟨hleaves, leavesOf_ne_nil_of_leaf hkeyword, last, hfound, hrest⟩
  have htyped : ∀ t ∈ ((.node .modifiers modifiers :: .leaf keyword :: bindings).map (migrate names)).find? isPlainlyTyped,
      ∀ lead behind, t.Clear lead behind → (dropTypeClause t).Clear lead behind := by
    intro t ht lead behind
    rw [find?_isPlainlyTyped_migrate] at ht
    obtain ⟨binding, hbinding, rfl⟩ := Option.map_eq_some_iff.mp ht
    have hmem := List.mem_of_find?_eq_some hbinding
    exact clear_dropTypeClause_migrate (hs.of_mem (List.mem_cons_of_mem _ hmem)) (hf.inner _ (List.mem_cons_of_mem _ hmem))
      (List.find?_some hbinding)
  obtain ⟨found', rest', henvironment, hparts', hquiet'⟩ := hparts.migrateEnvironment hkeyword hquiet htyped
  rw [migrate_node, migrateNode, List.map_cons, migrate_node_of_not_mem .attributes (by decide), migrateVariables,
    henvironment]
  exact hparts'.dropErased hquiet'

end Migration

end SwiftObservation
