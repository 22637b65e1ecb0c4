import SwiftObservation.Tree.Edge

/-!
# The words of a tree

A word is the kind and the text of a token; trivia is no matter to it, and an empty token is no word. The words of a tree
are its leaves as a reader of the language sees them. `Tree.bare` is a tree without trivia, and two trees with one bare
tree have the same words: so whatever moves trivia between the tokens of a tree leaves its words as they are.
-/

namespace SwiftObservation

/-- The kind and the text of a token. -/
abbrev Word := TokenKind × Text

/-- The words of a list of tokens, in order. -/
def Token.wordsOf (tokens : List Token) : List Word :=
  (tokens.filter (!·.text.isEmpty)).map fun t => (t.kind, t.text)

namespace Tree

/-- The words of a tree, in source order. -/
def words (t : Tree) : List Word := Token.wordsOf t.leaves

mutual

/-- The tree without its trivia. -/
def bare : Tree → Tree
  | leaf token => leaf { kind := token.kind, text := token.text }
  | node label children => node label (bareAll children)
  | absent => absent

/-- Several trees without their trivia. -/
def bareAll : List Tree → List Tree
  | [] => []
  | t :: rest => t.bare :: bareAll rest

end

theorem bareAll_eq_map (trees : List Tree) : bareAll trees = trees.map bare := by
  induction trees with
  | nil => rfl
  | cons t rest ih => rw [bareAll, List.map_cons, ih]

@[simp] theorem bare_node {label : Label} {children : List Tree} :
    (node label children).bare = node label (children.map bare) := by rw [bare, bareAll_eq_map]

@[simp] theorem bare_leaf {token : Token} : (leaf token).bare = leaf { kind := token.kind, text := token.text } := rfl

@[simp] theorem bare_absent : absent.bare = absent := rfl

@[simp] theorem is_bare {t : Tree} {label : Label} : t.bare.is label = t.is label := by
  cases t <;> rfl

/-- A tree that is a node without its trivia is one with it. -/
theorem exists_of_bare_eq {t : Tree} {label : Label} {parts : List Tree} (hbare : t.bare = node label parts) :
    ∃ children, t = node label children ∧ children.map bare = parts := by
  cases t with
  | leaf token => simp at hbare
  | absent => simp at hbare
  | node label' children =>
      obtain ⟨rfl, rfl⟩ := node.inj (bare_node.symm.trans hbare)
      exact ⟨children, rfl, rfl⟩

mutual

theorem bare_bare (t : Tree) : t.bare.bare = t.bare := by
  cases t with
  | leaf token => rfl
  | node label children => rw [bare, bare, bareAll_bareAll]
  | absent => rfl

theorem bareAll_bareAll (trees : List Tree) : bareAll (bareAll trees) = bareAll trees := by
  cases trees with
  | nil => rfl
  | cons t rest => rw [bareAll, bareAll, bare_bare, bareAll_bareAll]

end

/-! ### Equality of trees -/

mutual

/-- The trees are the same. -/
def same : Tree → Tree → Bool
  | leaf token, leaf token' => token == token'
  | node label children, node label' children' => label == label' && sameAll children children'
  | absent, absent => true
  | _, _ => false

/-- The trees of two lists are the same, one by one. -/
def sameAll : List Tree → List Tree → Bool
  | [], [] => true
  | t :: rest, t' :: rest' => t.same t' && sameAll rest rest'
  | _, _ => false

end

mutual

theorem same_iff (s t : Tree) : s.same t = true ↔ s = t := by
  cases s <;> cases t <;> simp [same, sameAll_iff]

theorem sameAll_iff (trees trees' : List Tree) : sameAll trees trees' = true ↔ trees = trees' := by
  cases trees with
  | nil => cases trees' <;> simp [sameAll]
  | cons t rest =>
      cases trees' with
      | nil => simp [sameAll]
      | cons t' rest' => rw [sameAll, Bool.and_eq_true, same_iff, sameAll_iff, List.cons.injEq]

end

instance : DecidableEq Tree := fun s t => decidable_of_iff (s.same t = true) (same_iff s t)

/-! ### Words -/

theorem wordsOf_append (front back : List Token) :
    Token.wordsOf (front ++ back) = Token.wordsOf front ++ Token.wordsOf back := by simp [Token.wordsOf]

@[simp] theorem words_leaf {token : Token} :
    (leaf token).words = if token.text.isEmpty then [] else [(token.kind, token.text)] := by
  cases htext : token.text.isEmpty <;> simp [words, leaves, Token.wordsOf, htext]

@[simp] theorem words_absent : absent.words = [] := rfl

@[simp] theorem words_node {label : Label} {children : List Tree} :
    (node label children).words = children.flatMap words := by
  rw [words, leaves]
  induction children with
  | nil => rfl
  | cons t rest ih => rw [leavesOf, wordsOf_append, ih, List.flatMap_cons, words]

mutual

theorem words_bare (t : Tree) : t.bare.words = t.words := by
  cases t with
  | leaf token => simp
  | node label children => rw [bare, words_node, words_node, flatMap_words_bareAll]
  | absent => rfl

theorem flatMap_words_bareAll (trees : List Tree) : (bareAll trees).flatMap words = trees.flatMap words := by
  cases trees with
  | nil => rfl
  | cons t rest => rw [bareAll, List.flatMap_cons, List.flatMap_cons, words_bare t, flatMap_words_bareAll rest]

end

theorem words_eq_of_bare {t t' : Tree} (hbare : t.bare = t'.bare) : t.words = t'.words := by
  rw [← words_bare t, hbare, words_bare]

theorem flatMap_words_eq_of_bare {trees trees' : List Tree} (hbare : trees.map bare = trees'.map bare) :
    trees.flatMap words = trees'.flatMap words := by
  rw [← flatMap_words_bareAll trees, bareAll_eq_map, hbare, ← bareAll_eq_map, flatMap_words_bareAll]

/-! ### Changes to the first and the last token -/

/-- The change keeps the word of every token. -/
def KeepsWord (f : Token → Token) : Prop := ∀ t, (f t).kind = t.kind ∧ (f t).text = t.text

variable {f : Token → Token}

mutual

theorem bare_mapFirst? (hf : KeepsWord f) (t : Tree) : ∀ t' ∈ t.mapFirst? f, t'.bare = t.bare := by
  intro t' ht'
  cases t with
  | leaf token =>
      obtain rfl := Option.some.inj ht'
      simp [hf token]
  | node label children =>
      obtain ⟨changed, hchanged, rfl⟩ := Option.map_eq_some_iff.mp ht'
      rw [bare_node, bare_node, map_bare_mapFirstOf? hf children changed hchanged]
  | absent => simp [mapFirst?] at ht'

theorem map_bare_mapFirstOf? (hf : KeepsWord f) (trees : List Tree) :
    ∀ trees' ∈ mapFirstOf? f trees, trees'.map bare = trees.map bare := by
  intro trees' htrees'
  cases trees with
  | nil => simp [mapFirstOf?] at htrees'
  | cons t rest =>
      simp only [mapFirstOf?, Option.mem_def] at htrees'
      split at htrees'
      next changed hchanged =>
        obtain rfl := Option.some.inj htrees'
        rw [List.map_cons, List.map_cons, bare_mapFirst? hf t changed hchanged]
      next =>
        obtain ⟨changed, hchanged, rfl⟩ := Option.map_eq_some_iff.mp htrees'
        rw [List.map_cons, List.map_cons, map_bare_mapFirstOf? hf rest changed hchanged]

end

mutual

theorem bare_mapLast? (hf : KeepsWord f) (t : Tree) : ∀ t' ∈ t.mapLast? f, t'.bare = t.bare := by
  intro t' ht'
  cases t with
  | leaf token =>
      obtain rfl := Option.some.inj ht'
      simp [hf token]
  | node label children =>
      obtain ⟨changed, hchanged, rfl⟩ := Option.map_eq_some_iff.mp ht'
      rw [bare_node, bare_node, map_bare_mapLastOf? hf children changed hchanged]
  | absent => simp [mapLast?] at ht'

theorem map_bare_mapLastOf? (hf : KeepsWord f) (trees : List Tree) :
    ∀ trees' ∈ mapLastOf? f trees, trees'.map bare = trees.map bare := by
  intro trees' htrees'
  cases trees with
  | nil => simp [mapLastOf?] at htrees'
  | cons t rest =>
      simp only [mapLastOf?, Option.mem_def] at htrees'
      split at htrees'
      next changed hchanged =>
        obtain rfl := Option.some.inj htrees'
        rw [List.map_cons, List.map_cons, map_bare_mapLastOf? hf rest changed hchanged]
      next =>
        obtain ⟨changed, hchanged, rfl⟩ := Option.map_eq_some_iff.mp htrees'
        rw [List.map_cons, List.map_cons, bare_mapLast? hf t changed hchanged]

end

theorem bare_mapFirst (hf : KeepsWord f) (t : Tree) : (t.mapFirst f).bare = t.bare := by
  unfold mapFirst
  cases hchanged : t.mapFirst? f with
  | none => rfl
  | some t' => exact bare_mapFirst? hf t t' hchanged

theorem bare_mapLast (hf : KeepsWord f) (t : Tree) : (t.mapLast f).bare = t.bare := by
  unfold mapLast
  cases hchanged : t.mapLast? f with
  | none => rfl
  | some t' => exact bare_mapLast? hf t t' hchanged

theorem map_bare_mapFirstOf?_getD (hf : KeepsWord f) (trees : List Tree) :
    ((mapFirstOf? f trees).getD trees).map bare = trees.map bare := by
  cases hchanged : mapFirstOf? f trees with
  | none => rfl
  | some trees' => exact map_bare_mapFirstOf? hf trees trees' hchanged

theorem keepsWord_leading (g : Token → Text) : KeepsWord fun t => { t with leading := g t } := fun _ => ⟨rfl, rfl⟩

theorem keepsWord_trailing (g : Token → Text) : KeepsWord fun t => { t with trailing := g t } := fun _ => ⟨rfl, rfl⟩

end Tree

end SwiftObservation
