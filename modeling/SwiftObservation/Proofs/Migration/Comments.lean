import SwiftObservation.Proofs.Migration.Comments.Classes

/-!
# No code behind a line comment

In the tokens of a source each one but the first begins with fresh trivia, and a comment that takes the rest of its line is
followed by a line break. The rules keep the second of this in every tree, given both in the tree as it was read: nodes are
migrated after their children, and what the rule for a node asks of the edges of its children is what the source has there.
-/

namespace SwiftObservation

open SwiftObservation.Tree

namespace Migration

variable {names : List Text} {strict lead behind : Lead} {s t : Tree} {label : Label} {children found rest trees : List Tree}

/-- Wherever the tree stands in a source, its migration stands clear of comments. -/
def Stays (names : List Text) (t : Tree) : Prop :=
  ∀ lead behind, Token.Clear .fresh lead t.leaves behind → (migrate names t).Clear lead behind

/-- The migrated parts of a source stand clear of comments. Behind parts with tokens fresh trivia can be asked for. -/
theorem clearAll_migrate (hin : ∀ t ∈ trees, Stays names t) (hstrict : strict ≤ .fresh)
    (hempty : ∀ t ∈ trees, t.leaves = [] → strict ≤ .any) (htokens : Token.Clear .fresh lead (leavesOf trees) behind) :
    ClearAll strict lead (trees.map (migrate names)) behind := by
  induction trees generalizing lead with
  | nil =>
      cases htokens with
      | nil hle => exact hle
  | cons t rest ih =>
      obtain ⟨middle, ht, hrest⟩ := Token.clear_append.mp htokens
      have hmore := ih (fun s hs => hin s (by simp [hs])) (fun s hs => hempty s (by simp [hs])) hrest
      refine ⟨middle, ?_, hin t (by simp) _ _ ht, hmore⟩
      by_cases hleaves : t.leaves = []
      · exact (hempty t (by simp) hleaves).trans (Lead.any_le _)
      · exact hstrict.trans (ht.le_of_ne_nil hleaves)

/-- The migrated parts of a source stand clear of comments. -/
theorem clearAll_any_migrate (hin : ∀ t ∈ trees, Stays names t) (htokens : Token.Clear .fresh lead (leavesOf trees) behind) :
    ClearAll .any lead (trees.map (migrate names)) behind :=
  clearAll_migrate hin (Lead.any_le _) (fun _ _ _ => le_rfl) htokens

/-! ### Variables -/

theorem exists_separated (hs : Shaped (.node .variableDecl children)) (hf : Filled (.node .variableDecl children))
    (hin : ∀ t ∈ children, ∀ s, Within s t → Stays names s)
    (htokens : Token.Clear .fresh lead (leavesOf children) behind) :
    ∃ found rest, migrate names (.node .variableDecl children) = .node .variableDecl (.node .attributes found :: rest) ∧
      Separated lead found rest behind := by
  obtain ⟨found, rest, rfl, hattrs, -⟩ := Shaped.variables_eq hs
  obtain ⟨last, hfound, hrest⟩ := Token.clear_append.mp htokens
  refine separated_migrate hs hf (clearAll_migrate ?_ le_rfl ?_ hfound) (clearAll_any_migrate ?_ hrest)
  · exact fun t ht => hin _ (List.mem_cons_self) t (.child ht .self)
  · intro t ht hnone
    obtain ⟨parts, rfl⟩ := exists_of_is (hattrs t ht).2
    obtain ⟨sign, name, args, rfl, -⟩ := (hattrs _ ht).1.admits
    simp [leaves, leavesOf] at hnone
  · exact fun t ht => hin t (List.mem_cons_of_mem _ ht) t .self

/-- A member of a class that is converted stands clear of comments, but a comment may come first on a line. -/
theorem clear_unpublish_migrate (hs : t.Shaped) (hf : t.Filled) (hin : ∀ s, Within s t → Stays names s)
    (htokens : Token.Clear .fresh lead t.leaves behind) : (unpublish (migrate names t)).Clear lead.loosen behind.loosen := by
  rw [unpublish]
  split
  next hvariables =>
    rw [is_migrate] at hvariables
    obtain ⟨children, rfl⟩ := exists_of_is hvariables
    obtain ⟨found, rest, heq, hparts⟩ := exists_separated hs hf (fun t ht s hs => hin s (.child ht hs)) htokens
    rw [heq]
    exact hparts.clear_dropAttributes _
  next => exact (hin t .self _ _ htokens).loosen

theorem clearAll_unpublish_migrate (hs : ShapedAll trees) (hf : FilledAll trees)
    (hin : ∀ t ∈ trees, ∀ s, Within s t → Stays names s) (htokens : Token.Clear .fresh lead (leavesOf trees) behind) :
    ClearAll .any lead.loosen ((trees.map (migrate names)).map unpublish) behind.loosen := by
  induction trees generalizing lead with
  | nil =>
      cases htokens with
      | nil hle => exact Lead.loosen_mono hle
  | cons t rest ih =>
      obtain ⟨middle, ht, hrest⟩ := Token.clear_append.mp htokens
      obtain ⟨hshaped, hs⟩ := shapedAll_cons.mp hs
      obtain ⟨hfilled, hf⟩ := filledAll_cons.mp hf
      exact ⟨middle.loosen, Lead.any_le _, clear_unpublish_migrate hshaped hfilled (hin t (by simp)) ht,
        ih hs hf (fun s hs => hin s (by simp [hs])) hrest⟩

/-! ### Classes -/

/-- The clause of the class, if it has one, does not end in a comma. -/
theorem ClassParts.getLast?_entries {p : ClassParts} (hs : Shaped (.node .typeDecl p.trees))
    (hcommas : ∀ t ∈ p.trees, t.is .inheritance = true → t.last?.any (·.kind == .comma) = false) :
    p.entries.getLast?.any (·.endsInComma) = false := by
  cases hparts : p.clause with
  | none => simp [entries, hparts]
  | some parts =>
      obtain ⟨colon, entries, rfl, -⟩ := Shaped.areEntries (shaped_clause hs parts hparts)
      have hself : p.entries = entries := by simp [ClassParts.entries, hparts]
      have hclause := hcommas (.node .inheritance (.leaf colon :: entries)) (by simp [trees, Tree.optional, hparts]) rfl
      rw [hself]
      obtain rfl | ⟨front, last, rfl⟩ := entries.eq_nil_or_concat
      · rfl
      · rw [List.concat_eq_append, List.getLast?_concat, Option.any_some, Bool.eq_false_iff]
        intro hcomma
        have hlast : last.last?.any (·.kind == .comma) = true := last?_of_endsInComma hcomma
        rw [Option.any_eq_true] at hlast
        obtain ⟨token, htoken, hkind⟩ := hlast
        rw [List.concat_eq_append, last?, ← List.cons_append, lastOf?_concat, htoken] at hclause
        exact absurd hkind (ne_true_of_eq_false hclause)

/-- The migrated parts of a class in a source stand clear of comments. -/
theorem ClassParts.exists_standsClear {p : ClassParts} (hs : Shaped (.node .typeDecl p.trees))
    (hf : Filled (.node .typeDecl p.trees)) (hin : ∀ t ∈ p.trees, ∀ s, Within s t → Stays names s)
    (htokens : Token.Clear .fresh lead (leavesOf p.trees) behind) :
    ∃ first second third, StandsClear names p lead first second third behind := by
  have hself : ∀ t ∈ p.trees, Stays names t := fun t ht => hin t ht t .self
  rw [trees, tail, leavesOf_append, leavesOf_append, leavesOf_append] at htokens
  obtain ⟨first, hhead, htokens⟩ := Token.clear_append.mp htokens
  obtain ⟨second, hclause, htokens⟩ := Token.clear_append.mp htokens
  obtain ⟨third, hrequirements, hbody⟩ := Token.clear_append.mp htokens
  refine ⟨first, second, third, ?_, ?_, ?_, ?_, ?_⟩
  · rw [← map_migrate_head]
    exact clearAll_any_migrate (fun t ht => hself t (by simp [trees, ht])) hhead
  · rw [migrated, ← map_migrate_optional (by decide)]
    exact clearAll_any_migrate (fun t ht => hself t (by simp [trees, ht])) hclause
  · intro colon entries hparts
    have hmem : .node .inheritance (colon :: entries) ∈ p.trees := by simp [trees, Tree.optional, hparts]
    have hbelow (t : Tree) (ht : t ∈ colon :: entries) : Stays names t := hin _ hmem t (.child ht .self)
    have hshaped : Shaped (.node .inheritance (colon :: entries)) := hs.of_mem hmem
    obtain ⟨_, _, heq, -, hlabel, -⟩ := hshaped.admits
    obtain ⟨-, rfl⟩ := List.cons.inj heq
    rw [hparts, Tree.optional, Option.map_some, Option.toList_some, leavesOf, leavesOf, List.append_nil, leaves, leavesOf]
      at hclause
    obtain ⟨next, hcolon, hentries⟩ := Token.clear_append.mp hclause
    refine ⟨next, hbelow colon (by simp) _ _ hcolon, clearAll_migrate (fun t ht => hbelow t (by simp [ht])) le_rfl ?_ hentries⟩
    intro entry hentry hnone
    obtain ⟨parts, rfl⟩ := exists_of_is (hlabel entry hentry)
    obtain ⟨first, rest, rfl, hfirst⟩ := ((hf.inner _ hmem).inner _ (List.mem_cons_of_mem _ hentry)).holds (by simp)
    exact absurd hnone (leavesOf_ne_nil.mpr ⟨first, by simp, hfirst⟩)
  · rw [migrated, ← map_migrate_optional (by decide)]
    exact clearAll_any_migrate (fun t ht => hself t (by simp [trees, tail, ht])) hrequirements
  · have hmem : .node .memberBlock p.members ∈ p.trees := by simp [trees, tail]
    have hshaped : ShapedAll p.members := fun t ht => (hs.of_mem hmem).of_mem ht
    rw [leavesOf, leavesOf, List.append_nil, leaves] at hbody
    exact clearAll_unpublish_migrate hshaped (hf.inner _ hmem).inner (fun t ht s hs => hin _ hmem s (.child ht hs)) hbody

/-! ### Whole trees -/

/-- No inheritance clause in the tree ends in a comma. -/
def Uncommaed (t : Tree) : Prop :=
  ∀ s, Within s t → s.is .inheritance = true → s.last?.any (·.kind == .comma) = false

/-- A node stays clear of comments if all trees within it do. -/
theorem stays_node (hs : Shaped (.node label children)) (hf : Filled (.node label children))
    (hcommas : Uncommaed (.node label children)) (hin : ∀ t ∈ children, ∀ s, Within s t → Stays names s) :
    Stays names (.node label children) := by
  intro lead behind htokens
  have hparts : (Tree.node label (children.map (migrate names))).Clear lead behind :=
    clear_node.mpr (clearAll_any_migrate (fun t ht => hin t ht t .self) htokens)
  by_cases hlabel : label ∈ ruled
  · simp only [ruled, List.mem_cons, List.not_mem_nil, or_false] at hlabel
    rcases hlabel with rfl | rfl | rfl | rfl | rfl
    · obtain ⟨attributes, modifiers, keyword, name, rest, rfl, hkind⟩ | ⟨p, rfl⟩ := ClassParts.cases_of_shaped hs
      · rwa [migrate_of_not_isClass hkind]
      · cases hconverted : isConverted names p.trees with
        | false => rwa [ClassParts.migrate_of_not_isConverted (ClassParts.shaped_clause hs) hconverted]
        | true =>
            obtain ⟨first, second, third, hp⟩ := ClassParts.exists_standsClear hs hf hin htokens
            have hending := ClassParts.getLast?_entries hs fun t ht => hcommas t (.child ht .self)
            exact hp.migrate hs hf hending hconverted
    · obtain ⟨found, rest, heq, hseparated⟩ := exists_separated hs hf hin htokens
      rw [heq]
      exact hseparated.clear_node
    · rw [migrate_node, migrateNode]
      exact clear_migrateAttribute hparts
    · rw [migrate_node, migrateNode]
      exact hparts.congr (trivia_migrateCall _)
    · rw [migrate_node, migrateNode]
      exact hparts.congr (trivia_migrateMember _)
  · rwa [migrate_node_of_not_mem label hlabel]

theorem stays_of_within (names : List Text) (hs : t.Shaped) (hf : t.Filled) (hcommas : Uncommaed t) (hwithin : Within s t) :
    Stays names s := by
  induction hs generalizing s with
  | leaf token =>
      cases hwithin with
      | self => exact fun _ _ htokens => htokens.weaken
  | absent =>
      cases hwithin with
      | self => exact fun _ _ htokens => htokens.weaken
  | @node label children hadmits hinner ih =>
      have hbelow : ∀ t ∈ children, ∀ s, Within s t → Stays names s := fun t ht s hwithin =>
        ih t ht (hf.inner t ht) (fun r hr => hcommas r (.child ht hr)) hwithin
      cases hwithin with
      | self => exact stays_node (.node hadmits hinner) hf hcommas hbelow
      | child hmem hwithin => exact hbelow _ hmem _ hwithin

/-! ### Sources -/

theorem clear_migrate_of_ofSource {limits : Limits} {source : Text} (hread : Tree.ofSource limits source = .ok t)
    (hcommas : Uncommaed t) (names : List Text) :
    ∃ tokens ending, (migrate names t).leaves = tokens ++ [ending] ∧ ending.kind = .endOfFile ∧ ending.text = [] ∧
      Token.Clear .any .any tokens .broken := by
  have hs : t.Shaped := Tree.shaped_of_ofSource hread
  have hf : t.Filled := Tree.filled_of_ofSource hread
  obtain ⟨items, ending, rfl, hkind, htext, htokens⟩ := Tree.clear_of_ofSource hread
  refine ⟨leavesOf (items.map (migrate names)), ending, ?_, hkind, htext, ?_⟩
  · rw [migrate_node_of_not_mem .sourceFile (by decide), leaves, List.map_append, leavesOf_append]
    rfl
  · refine clearAll_iff.mp (clearAll_any_migrate (fun item hitem => ?_) htokens)
    exact stays_of_within names hs hf hcommas (.child (List.mem_append_left _ hitem) .self)

end Migration

namespace Token

variable {lead behind : Lead} {token ending : Token} {tokens : List Token}

/-- The text in front of the next token that has a text of its own, if there is one. -/
def textBeforeWord? : List Token → Option Text
  | [] => none
  | t :: rest => if t.text.isEmpty then (textBeforeWord? rest).map (t.fullText ++ ·) else some t.leading

theorem Clear.closed_leading (htokens : Clear .any lead tokens behind) (hmem : token ∈ tokens) :
    Trivia.Closed token.leading := by
  obtain ⟨front, back, rfl⟩ := List.append_of_mem hmem
  obtain ⟨_, -, hrest⟩ := clear_append.mp htokens
  cases hrest with
  | cons here _ _ => exact here.leading

/-- Where a line break is asked for, the text in front of the next word begins with one. -/
theorem Clear.startsWith_textBeforeWord? (htokens : Clear .any .broken tokens behind) (hending : ending.text = []) :
    ∀ gap ∈ textBeforeWord? (tokens ++ [ending]), gap.startsWith Text.isLineBreak = true := by
  cases htokens with
  | nil => simp [textBeforeWord?, hending]
  | @cons _ _ _ t rest here _ _ =>
      intro gap hgap
      rw [List.cons_append, textBeforeWord?] at hgap
      split at hgap
      next =>
        obtain ⟨more, -, rfl⟩ := Option.map_eq_some_iff.mp hgap
        rw [fullText, List.append_assoc, List.append_assoc]
        exact Trivia.broken_append here.admits
      next =>
        obtain rfl := Option.some.inj hgap
        exact here.admits

end Token

namespace Migration

/-- No code disappears behind a line comment: after the migration of a source in which no inheritance clause ends in a
comma, no token has leading trivia that ends in one, the end of the file apart, and if trailing trivia ends in one, a line
break comes first in front of the next word. -/
theorem no_code_behind_line_comment {limits : Limits} {source : Text} {t : Tree} (hread : Tree.ofSource limits source = .ok t)
    (hcommas : Uncommaed t) (names : List Text) :
    (∀ token ∈ (migrate names t).leaves, token.kind ≠ .endOfFile → token.leading.endsInLineComment = false) ∧
      ∀ front token back, (migrate names t).leaves = front ++ token :: back → token.trailing.endsInLineComment = true →
        ∀ gap ∈ Token.textBeforeWord? back, gap.startsWith Text.isLineBreak = true := by
  obtain ⟨tokens, ending, hleaves, hkind, htext, htokens⟩ := clear_migrate_of_ofSource hread hcommas names
  rw [hleaves]
  refine ⟨fun token htoken hother => ?_, fun front token back hparts hcomment => ?_⟩
  · rcases List.mem_append.mp htoken with hmem | hmem
    · exact (htokens.closed_leading hmem).endsInLineComment
    · obtain rfl := List.mem_singleton.mp hmem
      exact absurd hkind hother
  · obtain rfl | ⟨back, last, rfl⟩ := back.eq_nil_or_concat
    · simp [Token.textBeforeWord?]
    · rw [List.concat_eq_append, ← List.cons_append, ← List.append_assoc, List.append_singleton_inj] at hparts
      obtain ⟨rfl, rfl⟩ := hparts
      obtain ⟨middle, -, hrest⟩ := Token.clear_append.mp htokens
      cases hrest with
      | cons here _ hback =>
          have hle := here.behind_le
          rw [Lead.behind, if_pos hcomment] at hle
          rw [List.concat_eq_append]
          exact (hback.mono hle le_rfl).startsWith_textBeforeWord? htext

/-- The comment behind a wrapper that goes stays on a line of its own, in front of the variable. -/
theorem no_code_behind_line_comment_wrapper :
    ∃ t, Tree.ofSource .standard
        "// a\nclass C: ObservableObject \x7b // b\n  @Published // c\n  var x = 1 // d\n\x7d".toList = .ok t ∧
      (migrate [] t).text =
        "// a\n@Observable\nclass C \x7b // b\n  // c\n  var x = 1 // d\n\x7d".toList ∧
      ((migrate [] t).leaves.any (·.trailing.endsInLineComment)) = true ∧
      (∀ token ∈ (migrate [] t).leaves, token.kind ≠ .endOfFile → token.leading.endsInLineComment = false) ∧
      ∀ front token back, (migrate [] t).leaves = front ++ token :: back → token.trailing.endsInLineComment = true →
        ∀ gap ∈ Token.textBeforeWord? back, gap.startsWith Text.isLineBreak = true := by
  have hany : (Tree.ofSource .standard
      "// a\nclass C: ObservableObject \x7b // b\n  @Published // c\n  var x = 1 // d\n\x7d".toList).toOption.any (fun t =>
        (migrate [] t).text == "// a\n@Observable\nclass C \x7b // b\n  // c\n  var x = 1 // d\n\x7d".toList &&
          (migrate [] t).leaves.any (·.trailing.endsInLineComment) &&
          t.subtrees.all fun s => !s.is .inheritance || !s.last?.any (·.kind == .comma)) = true := by
    decide +kernel
  obtain ⟨t, hread, hchecked⟩ := exists_eq_ok_of_any hany
  rw [Bool.and_eq_true, Bool.and_eq_true, beq_iff_eq, List.all_eq_true] at hchecked
  obtain ⟨⟨htext, htrailing⟩, hall⟩ := hchecked
  have hcommas : Uncommaed t := by
    intro s hwithin hclause
    simpa [hclause] using hall s hwithin.mem_subtrees
  exact ⟨t, hread, htext, htrailing, no_code_behind_line_comment hread hcommas []⟩

/-- A clause that ends in a comma can lose the line break behind a comment. -/
example : (Tree.ofSource .standard "class C: A, // b\n ObservableObject, \x7b \x7d".toList).toOption.any (fun t =>
    (migrate [] t).text == "@Observable\nclass C: A, // b\x7b \x7d".toList) = true := by decide +kernel

end Migration

end SwiftObservation
