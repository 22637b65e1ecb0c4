import SwiftObservation.Migration.Rules
import SwiftObservation.Proofs.Token.LineBreaks
import SwiftObservation.Proofs.Tree.Within

/-!
# Line breaks of trees

A tree is uniform in a kind of line break if each of its tokens is, in its text and in its trivia. Then the text of the
tree is uniform, however the tokens came together. What the migration does to trivia respects this: it joins pieces of
trivia, cuts white space off, and takes line breaks away whole.
-/

namespace SwiftObservation

variable {k : LineBreak}

/-! ### Trivia that changes hands -/

theorem Text.Uniform.dropWhile_isBlank {s : Text} (hs : s.Uniform k) : Text.Uniform k (s.dropWhile Text.isBlank) := by
  induction hs with
  | nil => exact .nil
  | plain hinner hrest ih =>
      rw [List.dropWhile_cons]
      split
      · exact ih
      · exact .plain hinner hrest
  | broken _ ih =>
      have hblank : k.text.all Text.isBlank = true := by cases k <;> rfl
      rwa [List.dropWhile_append_of_pos (List.all_eq_true.mp hblank)]

/-- Cutting off characters that end no line leaves a uniform text. -/
theorem Text.Uniform.dropEndWhile {s : Text} (hs : s.Uniform k) {p : Char → Bool} (hp : p '\n' = false) :
    (s.dropEndWhile p).Uniform k := by
  have hparts : s.dropEndWhile p ++ (s.reverse.takeWhile p).reverse = s := by
    rw [Text.dropEndWhile, ← List.reverse_append, List.takeWhile_append_dropWhile, List.reverse_reverse]
  rw [← hparts] at hs
  refine (hs.split fun _ hfeed => ?_).1
  have hmem := List.mem_reverse.mp (List.mem_of_head? hfeed)
  rw [List.all_eq_true.mp (List.all_takeWhile) _ hmem] at hp
  cases hp

namespace Trivia

variable {s : Text}

theorem uniform_dropLineBreak (hs : s.Uniform k) : (dropLineBreak s).Uniform k := by
  have hwhole (rest behind : Text) (hreverse : s.reverse = behind.reverse ++ rest) : s = rest.reverse ++ behind := by
    rw [← List.reverse_reverse s, hreverse, List.reverse_append, List.reverse_reverse]
  unfold dropLineBreak
  split
  next rest hreverse =>
    rw [hwhole rest ['\r', '\n'] hreverse] at hs
    exact (hs.split fun _ => by decide).1
  next rest hsingle hreverse =>
    rw [hwhole rest ['\n'] hreverse] at hs
    refine (hs.split fun hreturn => ?_).1
    rw [List.getLast?_reverse] at hreturn
    obtain ⟨more, rfl⟩ := List.head?_eq_some_iff.mp hreturn
    exact absurd rfl (hsingle more)
  next rest hreverse =>
    rw [hwhole rest ['\r'] hreverse] at hs
    exact (hs.split fun _ => by decide).1
  next => exact hs

theorem uniform_mergeLeading {removed following : Text} (hremoved : removed.Uniform k) (hfollowing : following.Uniform k) :
    (mergeLeading removed following).Uniform k := by
  unfold mergeLeading
  split
  · exact (uniform_dropLineBreak (hremoved.dropEndWhile (by decide))).append hfollowing
  · exact hremoved.append hfollowing

theorem uniform_indentation (s : Text) : (indentation s).Uniform k := by
  unfold indentation
  split
  · refine Text.uniform_of_plain (List.any_eq_false.mpr fun c hc => ?_)
    have hinner := List.all_eq_true.mp List.all_takeWhile c (List.mem_reverse.mp hc)
    simpa using hinner
  · exact .nil

theorem hasPairedBreak_iff : hasPairedBreak s = true ↔ ['\r', '\n'] <:+: s := by
  fun_induction hasPairedBreak s with
  | case1 rest => exact iff_of_true rfl ⟨[], rest, rfl⟩
  | case2 c rest hother ih =>
      rw [ih, List.infix_cons_iff]
      refine ⟨.inr, fun hinfix => hinfix.resolve_left ?_⟩
      rintro ⟨more, hmore⟩
      exact hother more (List.cons.inj hmore).1.symm (List.cons.inj hmore).2.symm
  | case3 => simp

/-- In a text without carriage returns lines end in line feeds. -/
theorem lineEnding_of_feed (hs : s.Uniform .feed) : lineEnding s = LineBreak.text .feed := by
  apply if_neg
  intro hpaired
  have hreturn : '\r' ∈ s := (hasPairedBreak_iff.mp hpaired).subset (by simp)
  exact hs.not_mem (by decide) (by decide) hreturn

theorem lineEnding_of_pair (hs : ['\r', '\n'] <:+: s) : lineEnding s = LineBreak.text .pair :=
  if_pos (hasPairedBreak_iff.mpr hs)

/-- Where the line breaks are pairs, a text with a line break has a pair. -/
theorem pair_infix_of_hasLineBreak (hs : s.Uniform .pair) (hbreak : s.hasLineBreak = true) : ['\r', '\n'] <:+: s := by
  induction hs with
  | nil => cases hbreak
  | plain hinner _ ih =>
      rw [Text.hasLineBreak, List.any_cons, hinner, Bool.false_or] at hbreak
      exact (ih hbreak).trans (List.suffix_cons _ _).isInfix
  | @broken rest => exact ⟨[], rest, rfl⟩

end Trivia

/-! ### Trees -/

namespace Token

variable {t : Token} {text : Text}

theorem Uniform.withLeading (ht : t.Uniform k) (htext : text.Uniform k) : Token.Uniform k { t with leading := text } :=
  ⟨htext, ht.text, ht.trailing⟩

theorem Uniform.withTrailing (ht : t.Uniform k) (htext : text.Uniform k) : Token.Uniform k { t with trailing := text } :=
  ⟨ht.leading, ht.text, htext⟩

theorem Uniform.withText (ht : t.Uniform k) (htext : text.Uniform k) : Token.Uniform k { t with text } :=
  ⟨ht.leading, htext, ht.trailing⟩

theorem leading_infix_textOf {tokens : List Token} (ht : t ∈ tokens) : t.leading <:+: textOf tokens := by
  obtain ⟨front, behind, rfl⟩ := List.append_of_mem ht
  rw [textOf_append, textOf_cons]
  refine ⟨textOf front, t.text ++ t.trailing ++ textOf behind, ?_⟩
  simp only [Token.fullText, List.append_assoc]

theorem uniform_textOf {tokens : List Token} (htokens : ∀ t ∈ tokens, t.Uniform k) : (textOf tokens).Uniform k := by
  induction tokens with
  | nil => exact .nil
  | cons t rest ih =>
      obtain ⟨ht, hrest⟩ := List.forall_mem_cons.mp htokens
      rw [textOf_cons]
      exact ((ht.leading.append ht.text).append ht.trailing).append (ih hrest)

end Token

namespace Tree

variable {s t : Tree} {label : Label} {children trees : List Tree} {f : Token → Token}

/-- Every token of the tree is uniform. -/
def Uniform (k : LineBreak) (t : Tree) : Prop := ∀ token ∈ t.leaves, token.Uniform k

/-- Each of the trees is uniform. -/
def UniformAll (k : LineBreak) (trees : List Tree) : Prop := ∀ t ∈ trees, t.Uniform k

@[simp] theorem uniformAll_nil : UniformAll k [] := by simp [UniformAll]

@[simp] theorem uniformAll_cons : UniformAll k (t :: trees) ↔ t.Uniform k ∧ UniformAll k trees := List.forall_mem_cons

@[simp] theorem uniformAll_append {front back : List Tree} :
    UniformAll k (front ++ back) ↔ UniformAll k front ∧ UniformAll k back := List.forall_mem_append

@[simp] theorem uniformAll_reverse : UniformAll k trees.reverse ↔ UniformAll k trees := by simp [UniformAll]

@[simp] theorem uniform_leaf {token : Token} : (leaf token).Uniform k ↔ token.Uniform k := by simp [Uniform, leaves]

@[simp] theorem uniform_absent : absent.Uniform k := by simp [Uniform, leaves]

theorem uniformAll_iff : UniformAll k trees ↔ ∀ token ∈ leavesOf trees, token.Uniform k := by
  constructor
  · intro hall token htoken
    obtain ⟨t, ht, htoken⟩ := mem_leavesOf.mp htoken
    exact hall t ht token htoken
  · intro hall t ht token htoken
    exact hall token (mem_leavesOf.mpr ⟨t, ht, htoken⟩)

@[simp] theorem uniform_node : (node label children).Uniform k ↔ UniformAll k children := uniformAll_iff.symm

theorem Uniform.of_within (ht : t.Uniform k) (hwithin : Within s t) : s.Uniform k :=
  fun token htoken => ht token (hwithin.leaves_subset htoken)

theorem uniform_text (ht : t.Uniform k) : t.text.Uniform k := Token.uniform_textOf ht

/-! ### First and last tokens -/

mutual

theorem mem_leaves_of_first? (t : Tree) {token : Token} (hfirst : t.first? = some token) : token ∈ t.leaves := by
  cases t with
  | leaf other =>
      obtain rfl := Option.some.inj hfirst
      exact List.mem_singleton_self _
  | node label children => exact mem_leavesOf_of_firstOf? children hfirst
  | absent => cases hfirst

theorem mem_leavesOf_of_firstOf? (trees : List Tree) {token : Token} (hfirst : firstOf? trees = some token) :
    token ∈ leavesOf trees := by
  cases trees with
  | nil => cases hfirst
  | cons t rest =>
      rw [leavesOf, List.mem_append]
      rw [firstOf?, Option.or_eq_some_iff] at hfirst
      rcases hfirst with hfirst | ⟨-, hfirst⟩
      · exact .inl (mem_leaves_of_first? t hfirst)
      · exact .inr (mem_leavesOf_of_firstOf? rest hfirst)

end

mutual

theorem mem_leaves_of_last? (t : Tree) {token : Token} (hlast : t.last? = some token) : token ∈ t.leaves := by
  cases t with
  | leaf other =>
      obtain rfl := Option.some.inj hlast
      exact List.mem_singleton_self _
  | node label children => exact mem_leavesOf_of_lastOf? children hlast
  | absent => cases hlast

theorem mem_leavesOf_of_lastOf? (trees : List Tree) {token : Token} (hlast : lastOf? trees = some token) :
    token ∈ leavesOf trees := by
  cases trees with
  | nil => cases hlast
  | cons t rest =>
      rw [leavesOf, List.mem_append]
      rw [lastOf?, Option.or_eq_some_iff] at hlast
      rcases hlast with hlast | ⟨-, hlast⟩
      · exact .inr (mem_leavesOf_of_lastOf? rest hlast)
      · exact .inl (mem_leaves_of_last? t hlast)

end

/-- A change to the first token of a list of trees with a token in the front only changes the front. -/
theorem exists_mapFirstOf?_append {token : Token} {front : List Tree} (htoken : .leaf token ∈ front) (back : List Tree) :
    ∃ front', mapFirstOf? f (front ++ back) = some (front' ++ back) := by
  induction front with
  | nil => cases htoken
  | cons t rest ih =>
      rw [List.cons_append, mapFirstOf?]
      cases hchanged : t.mapFirst? f with
      | some t' => exact ⟨t' :: rest, rfl⟩
      | none =>
          -- A tree that has nothing to change is not the token.
          have hrest : .leaf token ∈ rest := by
            apply (List.mem_cons.mp htoken).resolve_left
            rintro rfl
            cases hchanged
          obtain ⟨rest', hrest'⟩ := ih hrest
          exact ⟨t :: rest', by rw [hrest']; rfl⟩

theorem Uniform.leading_first? (ht : t.Uniform k) : Text.Uniform k ((t.first?.map (·.leading)).getD []) := by
  cases hfirst : t.first? with
  | none => exact .nil
  | some token => exact (ht token (mem_leaves_of_first? t hfirst)).leading

theorem Uniform.trailing_last? (ht : t.Uniform k) : Text.Uniform k ((t.last?.map (·.trailing)).getD []) := by
  cases hlast : t.last? with
  | none => exact .nil
  | some token => exact (ht token (mem_leaves_of_last? t hlast)).trailing

mutual

theorem uniform_mapFirst? (hf : ∀ token, token.Uniform k → (f token).Uniform k) (t : Tree) (ht : t.Uniform k) :
    ∀ t' ∈ t.mapFirst? f, t'.Uniform k := by
  cases t with
  | leaf token =>
      rintro _ ⟨⟩
      rw [uniform_leaf] at ht ⊢
      exact hf token ht
  | node label children =>
      intro t' ht'
      obtain ⟨changed, hchanged, rfl⟩ := Option.map_eq_some_iff.mp ht'
      rw [uniform_node] at ht ⊢
      exact uniformAll_mapFirstOf? hf children ht changed hchanged
  | absent => rintro _ ⟨⟩

theorem uniformAll_mapFirstOf? (hf : ∀ token, token.Uniform k → (f token).Uniform k) (trees : List Tree)
    (htrees : UniformAll k trees) : ∀ changed ∈ mapFirstOf? f trees, UniformAll k changed := by
  cases trees with
  | nil => rintro _ ⟨⟩
  | cons t rest =>
      obtain ⟨ht, hrest⟩ := uniformAll_cons.mp htrees
      intro changed hchanged
      rw [mapFirstOf?] at hchanged
      split at hchanged
      next t' ht' =>
        obtain rfl := Option.some.inj hchanged
        exact uniformAll_cons.mpr ⟨uniform_mapFirst? hf t ht t' ht', hrest⟩
      next =>
        obtain ⟨rest', hrest', rfl⟩ := Option.map_eq_some_iff.mp hchanged
        exact uniformAll_cons.mpr ⟨ht, uniformAll_mapFirstOf? hf rest hrest rest' hrest'⟩

end

mutual

theorem uniform_mapLast? (hf : ∀ token, token.Uniform k → (f token).Uniform k) (t : Tree) (ht : t.Uniform k) :
    ∀ t' ∈ t.mapLast? f, t'.Uniform k := by
  cases t with
  | leaf token =>
      rintro _ ⟨⟩
      rw [uniform_leaf] at ht ⊢
      exact hf token ht
  | node label children =>
      intro t' ht'
      obtain ⟨changed, hchanged, rfl⟩ := Option.map_eq_some_iff.mp ht'
      rw [uniform_node] at ht ⊢
      exact uniformAll_mapLastOf? hf children ht changed hchanged
  | absent => rintro _ ⟨⟩

theorem uniformAll_mapLastOf? (hf : ∀ token, token.Uniform k → (f token).Uniform k) (trees : List Tree)
    (htrees : UniformAll k trees) : ∀ changed ∈ mapLastOf? f trees, UniformAll k changed := by
  cases trees with
  | nil => rintro _ ⟨⟩
  | cons t rest =>
      obtain ⟨ht, hrest⟩ := uniformAll_cons.mp htrees
      intro changed hchanged
      rw [mapLastOf?] at hchanged
      split at hchanged
      next rest' hrest' =>
        obtain rfl := Option.some.inj hchanged
        exact uniformAll_cons.mpr ⟨ht, uniformAll_mapLastOf? hf rest hrest rest' hrest'⟩
      next =>
        obtain ⟨t', ht', rfl⟩ := Option.map_eq_some_iff.mp hchanged
        exact uniformAll_cons.mpr ⟨uniform_mapLast? hf t ht t' ht', hrest⟩

end

theorem Uniform.mapFirst (ht : t.Uniform k) (hf : ∀ token, token.Uniform k → (f token).Uniform k) :
    (t.mapFirst f).Uniform k := by
  rw [Tree.mapFirst]
  cases hchanged : t.mapFirst? f with
  | none => exact ht
  | some t' => exact uniform_mapFirst? hf t ht t' hchanged

theorem Uniform.mapLast (ht : t.Uniform k) (hf : ∀ token, token.Uniform k → (f token).Uniform k) :
    (t.mapLast f).Uniform k := by
  rw [Tree.mapLast]
  cases hchanged : t.mapLast? f with
  | none => exact ht
  | some t' => exact uniform_mapLast? hf t ht t' hchanged

theorem UniformAll.mapFirstOf? (htrees : UniformAll k trees) (hf : ∀ token, token.Uniform k → (f token).Uniform k) :
    UniformAll k ((mapFirstOf? f trees).getD trees) := by
  cases hchanged : Tree.mapFirstOf? f trees with
  | none => exact htrees
  | some changed => exact uniformAll_mapFirstOf? hf trees htrees changed hchanged

end Tree

end SwiftObservation
