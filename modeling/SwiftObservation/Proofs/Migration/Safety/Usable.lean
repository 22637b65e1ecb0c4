import SwiftObservation.Proofs.Migration.Recognition
import SwiftObservation.Proofs.Tree.Words

/-!
# What the passes over a tree count on

The two passes reach for children by their places and take them for tokens or for nodes. `Label.Serves` says what they
count on to find, label by label, in terms of what a parent sees of its children. It is less than what the grammar
gives to a node, because the migration itself undoes some of that: an attribute that is to go is left with one child,
and a clause may end in an entry with a comma. A tree is usable if all of its nodes serve, and trivia is no matter to
that.
-/

namespace SwiftObservation

/-- What a parent sees of a child. -/
inductive Head where
  | token (kind : TokenKind)
  | node (label : Label)
  | absent
deriving DecidableEq

def Tree.head : Tree → Head
  | .leaf token => .token token.kind
  | .node label _ => .node label
  | .absent => .absent

/-- The children that the passes count on below a node with the given label. -/
def Label.Serves : Label → List Head → Prop
  | .typeDecl, heads =>
    ∃ keyword name rest, heads = .node .attributes :: .node .modifiers :: .token keyword :: name :: rest ∧
      (keyword = .classWord ∨ keyword = .structWord → ∃ kind, name = .token kind) ∧
      (∀ h ∈ rest, ∃ label, h = .node label) ∧ rest.getLast? = some (.node .memberBlock)
  | .variableDecl, heads => ∃ rest, heads = .node .attributes :: rest
  | .attributes, heads => ∀ h ∈ heads, h = .node .attr
  | .attr, heads => ∃ kind rest, heads = .token kind :: rest
  | .inheritance, heads => ∃ colon rest, heads = colon :: rest ∧ ∀ h ∈ rest, h = .node .inheritedType
  | .inheritedType, heads => ∃ label rest, heads = .node label :: rest
  | .binding, heads => ∃ pattern rest, heads = pattern :: rest ∧ pattern ≠ .absent ∧ pattern ≠ .node .typeClause
  | .typeClause, heads => ∃ kind rest, heads = .token kind :: rest
  | .initialValue, heads => ∃ sign rest, heads = sign :: .node .expr :: rest
  | .typeIdentifier, heads => ∃ kind rest, heads = .token kind :: rest
  | .memberAccess, heads => ∃ receiver dot kind, heads = [receiver, dot, .token kind]
  | .argument, heads => heads ≠ []
  | .call, heads => heads ≠ []
  | _, _ => True

namespace Tree

/-- Every node of the tree has the children that the passes count on. -/
inductive Usable : Tree → Prop where
  | leaf (token : Token) : Usable (.leaf token)
  | node {label : Label} {children : List Tree} (serves : label.Serves (children.map head))
      (inner : ∀ t ∈ children, Usable t) : Usable (.node label children)
  | absent : Usable .absent

theorem Usable.serves {label : Label} {children : List Tree} (ht : Usable (.node label children)) :
    label.Serves (children.map head) := by
  cases ht with
  | node hserves => exact hserves

theorem Usable.of_mem {label : Label} {children : List Tree} (ht : Usable (.node label children)) {t : Tree}
    (hmem : t ∈ children) : t.Usable := by
  cases ht with
  | node _ hinner => exact hinner t hmem

/-! ### What a head tells -/

theorem head_eq_token {t : Tree} {kind : TokenKind} (hhead : t.head = .token kind) :
    ∃ token, t = .leaf token ∧ token.kind = kind := by
  cases t with
  | leaf token => exact ⟨token, rfl, Head.token.inj hhead⟩
  | node label children => cases hhead
  | absent => cases hhead

theorem head_eq_node {t : Tree} {label : Label} (hhead : t.head = .node label) : ∃ parts, t = .node label parts := by
  cases t with
  | leaf token => cases hhead
  | node label' parts => exact ⟨parts, by rw [Head.node.inj hhead]⟩
  | absent => cases hhead

@[simp] theorem head_bare (t : Tree) : t.bare.head = t.head := by
  cases t <;> simp [head]

theorem head_eq_of_bare {s t : Tree} (hbare : s.bare = t.bare) : s.head = t.head := by
  rw [← head_bare, hbare, head_bare]

theorem map_head_eq_of_bare {trees trees' : List Tree} (hbare : trees.map bare = trees'.map bare) :
    trees.map head = trees'.map head := by
  have hheads (trees : List Tree) : (trees.map bare).map head = trees.map head := by simp
  rw [← hheads, hbare, hheads]

/-! ### Trivia is no matter -/

theorem Usable.bare {t : Tree} (ht : t.Usable) : t.bare.Usable := by
  induction ht with
  | leaf token => exact .leaf _
  | absent => exact .absent
  | node hserves _ ih =>
      rw [bare_node]
      refine .node ?_ fun t ht => ?_
      · rwa [List.map_map, show head ∘ Tree.bare = head from funext head_bare]
      · obtain ⟨s, hs, rfl⟩ := List.mem_map.mp ht
        exact ih s hs

theorem Usable.of_bare : {t : Tree} → t.bare.Usable → t.Usable
  | .leaf token, _ => .leaf token
  | .absent, _ => .absent
  | .node label children, ht => by
      rw [bare_node] at ht
      refine .node ?_ fun t hmem => ?_
      · have hserves := ht.serves
        rwa [List.map_map, show head ∘ Tree.bare = head from funext head_bare] at hserves
      · exact Usable.of_bare (ht.of_mem (List.mem_map_of_mem hmem))

theorem Usable.congr {s t : Tree} (hbare : s.bare = t.bare) (hs : s.Usable) : t.Usable :=
  .of_bare (hbare ▸ hs.bare)

/-- All of the trees are usable. -/
def UsableAll (trees : List Tree) : Prop := ∀ t ∈ trees, t.Usable

@[simp] theorem usableAll_nil : UsableAll [] := by simp [UsableAll]

@[simp] theorem usableAll_cons {t : Tree} {rest : List Tree} : UsableAll (t :: rest) ↔ t.Usable ∧ UsableAll rest :=
  List.forall_mem_cons

@[simp] theorem usableAll_append {front back : List Tree} :
    UsableAll (front ++ back) ↔ UsableAll front ∧ UsableAll back := List.forall_mem_append

theorem UsableAll.congr {trees trees' : List Tree} (hbare : trees.map bare = trees'.map bare) (htrees : UsableAll trees) :
    UsableAll trees' := by
  intro t ht
  have hmem : t.bare ∈ trees.map Tree.bare := hbare ▸ List.mem_map_of_mem ht
  obtain ⟨s, hs, hsame⟩ := List.mem_map.mp hmem
  exact (htrees s hs).congr hsame

/-! ### Trees of the grammar -/

theorem map_head_optional (label : Label) (children : Option (List Tree)) :
    ∀ h ∈ (optional label children).map head, h = .node label := by
  cases children <;> simp [optional, head]

/-- Nodes as the grammar makes them serve. -/
theorem Label.Admits.serves {label : Label} {children : List Tree} (hadmits : label.Admits children) :
    label.Serves (children.map head) := by
  cases label
  case typeDecl =>
    obtain ⟨attributes, modifiers, keyword, name, params, clause, requirements, body, rfl, hname⟩ := hadmits
    refine ⟨keyword.kind, name.head, _, rfl, fun hkind => ?_, fun h hh => ?_, ?_⟩
    · obtain ⟨token, rfl⟩ := hname (by rcases hkind with hkind | hkind <;> simp [hkind])
      exact ⟨_, rfl⟩
    · simp only [List.map_append, List.mem_append] at hh
      rcases hh with ((hh | hh) | hh) | hh
      · exact ⟨_, map_head_optional _ _ h hh⟩
      · exact ⟨_, map_head_optional _ _ h hh⟩
      · exact ⟨_, map_head_optional _ _ h hh⟩
      · exact ⟨.memberBlock, by simpa [head] using hh⟩
    · simp [head]
  case variableDecl =>
    obtain ⟨attributes, modifiers, keyword, bindings, rfl, -, -⟩ := hadmits
    exact ⟨_, rfl⟩
  case attributes =>
    intro h hh
    obtain ⟨t, ht, rfl⟩ := List.mem_map.mp hh
    obtain ⟨parts, rfl⟩ := exists_of_is (hadmits t ht)
    rfl
  case attr =>
    obtain ⟨sign, name, args, rfl, -, -⟩ := hadmits
    exact ⟨_, _, rfl⟩
  case inheritance =>
    obtain ⟨colon, entries, rfl, -, hentries, -⟩ := hadmits
    refine ⟨_, _, rfl, fun h hh => ?_⟩
    obtain ⟨t, ht, rfl⟩ := List.mem_map.mp hh
    obtain ⟨parts, rfl⟩ := exists_of_is (hentries t ht)
    rfl
  case inheritedType =>
    obtain ⟨label, parts, comma, rfl, -⟩ := hadmits
    exact ⟨_, _, rfl⟩
  case binding =>
    obtain ⟨pattern, type, value, accessors, comma, rfl, hpattern, -⟩ := hadmits
    refine ⟨_, _, rfl, ?_⟩
    rcases hpattern with hleaf | hgroup
    · cases pattern with
      | leaf token => exact ⟨by simp [head], by simp [head]⟩
      | node label parts => simp [isLeaf, token?] at hleaf
      | absent => simp [isLeaf, token?] at hleaf
    · obtain ⟨parts, rfl⟩ := exists_of_is hgroup
      exact ⟨by simp [head], by simp [head]⟩
  case typeClause =>
    obtain ⟨colon, bound, rfl, -⟩ := hadmits
    exact ⟨_, _, rfl⟩
  case initialValue =>
    obtain ⟨sign, value, rfl, -⟩ := hadmits
    exact ⟨_, _, rfl⟩
  case typeIdentifier =>
    obtain ⟨name, args, rfl, -⟩ := hadmits
    exact ⟨_, _, rfl⟩
  case memberAccess =>
    obtain ⟨receiver, dot, name, rfl, -⟩ := hadmits
    exact ⟨_, _, _, rfl⟩
  case argument =>
    obtain ⟨t, ht, -⟩ := hadmits
    exact fun hnone => List.ne_nil_of_mem ht (List.map_eq_nil_iff.mp hnone)
  case call => exact fun hnone => hadmits (List.map_eq_nil_iff.mp hnone)
  all_goals trivial

theorem Shaped.usable {t : Tree} (ht : t.Shaped) : t.Usable := by
  induction ht with
  | leaf token => exact .leaf token
  | absent => exact .absent
  | node hadmits _ ih => exact .node (Label.Admits.serves hadmits) ih

end Tree

end SwiftObservation
