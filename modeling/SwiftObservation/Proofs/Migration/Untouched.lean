import SwiftObservation.Proofs.Grammar.Shape.Declarations
import SwiftObservation.Proofs.Migration.Following.Classes
import SwiftObservation.Proofs.Migration.Following.Variables
import SwiftObservation.Proofs.Tree.Within

/-!
# Untouched code stays as it is

Every rule but one looks for one of five words, and the one that does not converts classes by name. A tree without the
words and without such a class is left as it is, trivia included, and so is the text of every item of a source around
which others change. The names come from the wrappers among the words, so a source without the words is converted to
itself.
-/

namespace SwiftObservation.Migration

open SwiftObservation.Tree

variable {names : List Text} {label : Label} {children : List Tree} {t : Tree}

/-- The words that the rules look for. -/
def legacyWords : List Text :=
  [observableProtocol, stateObjectName, observedObjectName, environmentObjectName, environmentObjectModifier]

/-- The tree is a class with one of the names. -/
def isClassAmong (names : List Text) : Tree → Bool
  | .node .typeDecl (_ :: _ :: .leaf keyword :: .leaf name :: _) => keyword.kind == .classWord && names.contains name.text
  | _ => false

/-- The tree holds none of the words. -/
def Wordless (t : Tree) : Prop := ∀ token ∈ t.leaves, token.text ∉ legacyWords

/-- The tree holds none of the words and no class with one of the names. -/
structure Untouched (names : List Text) (t : Tree) : Prop where
  wordless : Wordless t
  nameless : ∀ s, Within s t → isClassAmong names s = false

theorem Wordless.of_within {s : Tree} (ht : Wordless t) (hwithin : Within s t) : Wordless s :=
  fun token htoken => ht token (hwithin.leaves_subset htoken)

theorem Untouched.of_mem (ht : Untouched names (.node label children)) (hmem : t ∈ children) : Untouched names t where
  wordless := ht.wordless.of_within (.child hmem .self)
  nameless := fun s hwithin => ht.nameless s (.child hmem hwithin)

/-! ### No rule applies -/

theorem Wordless.text_ne {token : Token} (ht : Wordless (.node label children)) (hmem : .leaf token ∈ children)
    {word : Text} (hword : word ∈ legacyWords) : (token.text == word) = false := by
  have htoken : token.text ∉ legacyWords := ht token (mem_leavesOf.mpr ⟨_, hmem, by simp [leaves]⟩)
  rw [beq_eq_false_iff_ne]
  rintro rfl
  exact htoken hword

theorem Wordless.not_isNamed (ht : Wordless t) (word : Text) (hword : word ∈ legacyWords) : isNamed word t = false := by
  cases t with
  | leaf token => rfl
  | absent => rfl
  | node label children =>
      rw [Bool.eq_false_iff]
      intro hnamed
      obtain ⟨sign, token, rest, rfl, htoken⟩ := exists_of_isNamed hnamed
      have hname : Wordless (.node .typeIdentifier [.leaf token]) := ht.of_within (.child (by simp) .self)
      have hother := hname.text_ne (List.mem_singleton_self _) hword
      simp [htoken] at hother

theorem Wordless.not_namesProtocol (ht : Wordless t) : namesProtocol t = false := by
  unfold namesProtocol
  split
  next token rest hchildren =>
    have hname : Wordless (.node .typeIdentifier [.leaf token]) :=
      ht.of_within (.of_mem_children (by rw [hchildren]; exact List.mem_cons_self))
    exact hname.text_ne (List.mem_singleton_self _) (by decide)
  next => rfl

theorem ClassParts.within_of_mem_entries {p : ClassParts} {entry : Tree} (hentry : entry ∈ p.entries) :
    Within entry (.node .typeDecl p.trees) := by
  cases hparts : p.clause with
  | none => simp [ClassParts.entries, hparts] at hentry
  | some parts =>
      have hmem : entry ∈ parts := List.mem_of_mem_tail (by simpa [ClassParts.entries, hparts] using hentry)
      have hclause : .node .inheritance parts ∈ p.trees := by simp [ClassParts.trees, Tree.optional, hparts]
      exact .child hclause (.child hmem .self)

/-- A class without the protocol and without a name among the given ones is not converted. -/
theorem Untouched.migrate_typeDecl (hchildren : children.map (migrate names) = children)
    (ht : Shaped (.node .typeDecl children)) (huntouched : Untouched names (.node .typeDecl children)) :
    migrate names (.node .typeDecl children) = .node .typeDecl children := by
  obtain ⟨attributes, modifiers, keyword, name, rest, rfl, hkind⟩ | ⟨p, rfl⟩ := ClassParts.cases_of_shaped ht
  · rw [migrate_node, hchildren, migrateNode, migrateType]
    simp [hkind]
  · have hentries : p.entries.any namesProtocol = false := by
      rw [List.any_eq_false]
      intro entry hentry
      have hwithin : Within entry (.node .typeDecl p.trees) := ClassParts.within_of_mem_entries hentry
      simp [(huntouched.wordless.of_within hwithin).not_namesProtocol]
    have hname : names.contains p.name.text = false := by
      have hclass := huntouched.nameless _ .self
      simpa [isClassAmong, ClassParts.trees, ClassParts.head, p.isClass] using hclass
    have hstays : isConverted names p.trees = false := by
      rw [ClassParts.isConverted_eq, hentries, hname]
      rfl
    rw [ClassParts.migrate_of_not_isConverted (ClassParts.shaped_clause ht) hstays, hchildren]

theorem not_isErased_of_shaped (ht : Shaped (.node .attr children)) : isErased (.node .attr children) = false := by
  obtain ⟨sign, name, args, rfl, -⟩ := ht.admits
  rfl

theorem Wordless.migrate_variableDecl (hchildren : children.map (migrate names) = children)
    (ht : Shaped (.node .variableDecl children)) (hwordless : Wordless (.node .variableDecl children)) :
    migrate names (.node .variableDecl children) = .node .variableDecl children := by
  obtain ⟨found, rest, rfl, hattrs, -⟩ := Shaped.variables_eq ht
  have hattributes : Wordless (.node .attributes found) := hwordless.of_within (.child (by simp) .self)
  have htarget : found.find? (isNamed environmentObjectName) = none := by
    rw [List.find?_eq_none]
    intro t hmem
    simp [(hattributes.of_within (.child hmem .self)).not_isNamed environmentObjectName (by decide)]
  have herased : found.any isErased = false := by
    rw [List.any_eq_false]
    intro t hmem
    obtain ⟨hshaped, hattr⟩ := hattrs t hmem
    obtain ⟨parts, rfl⟩ := exists_of_is hattr
    simp [not_isErased_of_shaped hshaped]
  have henvironment : migrateEnvironment (.node .variableDecl (.node .attributes found :: rest)) =
      .node .variableDecl (.node .attributes found :: rest) := by
    simp only [migrateEnvironment, htarget]
  rw [migrate_node, hchildren, migrateNode, migrateVariables, henvironment, dropAttributes, herased]
  rfl

theorem Wordless.migrate_attr (hchildren : children.map (migrate names) = children)
    (hwordless : Wordless (.node .attr children)) : migrate names (.node .attr children) = .node .attr children := by
  rw [migrate_attr_of_not_isNamed (hwordless.not_isNamed stateObjectName (by decide))
    (hwordless.not_isNamed observedObjectName (by decide)), hchildren]

theorem Wordless.migrate_call (hchildren : children.map (migrate names) = children)
    (hwordless : Wordless (.node .call children)) : migrate names (.node .call children) = .node .call children := by
  rw [migrate_node, hchildren, migrateNode]
  unfold migrateCall
  split
  next callee args rest heq =>
    obtain ⟨rfl, rfl⟩ := node.inj heq
    simp only [hwordless.text_ne List.mem_cons_self (show stateObjectName ∈ legacyWords by decide), Bool.and_false,
      Bool.false_and, Bool.false_eq_true, if_false]
  next => rfl

theorem Wordless.migrate_memberAccess (hchildren : children.map (migrate names) = children)
    (ht : Shaped (.node .memberAccess children)) (hwordless : Wordless (.node .memberAccess children)) :
    migrate names (.node .memberAccess children) = .node .memberAccess children := by
  obtain ⟨receiver, dot, name, rfl, -⟩ := ht.admits
  rw [migrate_node, hchildren, migrateNode, migrateMember,
    hwordless.text_ne (by simp) (show environmentObjectModifier ∈ legacyWords by decide)]
  rfl

/-- A tree without the words and without a class of the names is left as it is. -/
theorem Untouched.migrate_eq (ht : t.Shaped) (huntouched : Untouched names t) : migrate names t = t := by
  induction ht with
  | leaf token => rfl
  | absent => rfl
  | @node label children hadmits hinner ih =>
      have hshaped : Shaped (.node label children) := .node hadmits hinner
      have hchildren : children.map (migrate names) = children :=
        (List.map_congr_left fun t hmem => ih t hmem (huntouched.of_mem hmem)).trans (List.map_id' children)
      by_cases hlabel : label ∈ ruled
      · simp only [ruled, List.mem_cons, List.not_mem_nil, or_false] at hlabel
        rcases hlabel with rfl | rfl | rfl | rfl | rfl
        · exact Untouched.migrate_typeDecl hchildren hshaped huntouched
        · exact Wordless.migrate_variableDecl hchildren hshaped huntouched.wordless
        · exact Wordless.migrate_attr hchildren huntouched.wordless
        · exact Wordless.migrate_call hchildren huntouched.wordless
        · exact Wordless.migrate_memberAccess hchildren hshaped huntouched.wordless
      · rw [migrate_node_of_not_mem label hlabel, hchildren]

/-! ### No evidence is found -/

theorem Wordless.not_hasWrapper (ht : Wordless t) : hasWrapper t = false := by
  rw [hasWrapper, List.any_eq_false]
  intro attr hmem
  have hwordless : Wordless attr := ht.of_within (.of_mem_childrenWith hmem)
  cases hname : attributeName? attr with
  | none => simp
  | some name =>
      have hnamed : isNamed name attr = true := by simp [isNamed, hname]
      simp only [Option.any_some, wrapperNames, List.contains_eq_mem, decide_eq_true_eq]
      intro hwrapper
      have hword : name ∈ legacyWords := by
        simp only [List.mem_cons, List.not_mem_nil, or_false] at hwrapper
        rcases hwrapper with rfl | rfl | rfl <;> decide
      simp [hwordless.not_isNamed name hword] at hnamed

theorem Wordless.nodeEvidence_eq_nil (ht : Wordless t) : nodeEvidence t = [] := by
  unfold nodeEvidence
  split
  next attributes modifiers keyword name rest =>
    split
    next =>
      rw [List.filterMap_eq_nil_iff]
      intro member hmem
      rw [memberEvidence?, (ht.of_within (.of_mem_childrenWith hmem)).not_hasWrapper]
      rfl
    next => rfl
  next => rfl

mutual

theorem evidence_eq_nil (t : Tree) (ht : Wordless t) : evidence t = [] := by
  cases t with
  | leaf token => rfl
  | absent => rfl
  | node label children =>
      rw [evidence, ht.nodeEvidence_eq_nil,
        evidenceOf_eq_nil children fun t hmem => ht.of_within (.child hmem .self), List.append_nil]

theorem evidenceOf_eq_nil (trees : List Tree) (htrees : ∀ t ∈ trees, Wordless t) : evidenceOf trees = [] := by
  cases trees with
  | nil => rfl
  | cons t rest =>
      rw [evidenceOf, evidence_eq_nil t (htrees t (by simp)), evidenceOf_eq_nil rest fun s hs => htrees s (by simp [hs]),
        List.append_nil]

end

/-! ### From tokens to leaves -/

theorem any_not_isOperatorChar : ∀ word ∈ legacyWords, (word.any fun c => !Lexeme.isOperatorChar c) = true := by decide

/-- Cutting an operator makes no word. -/
theorem text_mem_of_cuts {token piece : Token} {pieces : List Token} (hcuts : Grammar.Cuts token pieces)
    (hoperator : token.kind = .operator →
      token.text.length ≤ 1 ∨ ∀ c ∈ token.text, Lexeme.isOperatorChar c = true)
    (hpiece : piece ∈ pieces) (hword : piece.text ∈ legacyWords) : token.text ∈ legacyWords := by
  have hwhole : pieces = [token] → token.text ∈ legacyWords := by
    rintro rfl
    exact List.mem_singleton.mp hpiece ▸ hword
  rcases hcuts.eq_or_operator with heq | ⟨hkind, -⟩
  · exact hwhole heq
  -- A single character that fits nothing else is an operator too, a letter-like one for instance, but is never cut.
  rcases hoperator hkind with hshort | hchars
  · exact hwhole (hcuts.eq_whole hshort)
  · obtain ⟨c, hc, hother⟩ := List.any_eq_true.mp (any_not_isOperatorChar piece.text hword)
    have hmem : c ∈ token.text := by
      rw [← hcuts.isPieces.text]
      exact List.mem_flatMap.mpr ⟨piece, hpiece, hc⟩
    simp [hchars c hmem] at hother

/-- A source with none of the words among its tokens has a tree without them. -/
theorem wordless_of_tokens {limits : Limits} {source : Text} {tokens : List Token}
    (hread : Tree.ofSource limits source = .ok t) (hstream : Token.stream limits.literals source = .ok tokens)
    (htokens : ∀ token ∈ tokens, token.text ∉ legacyWords) : Wordless t := by
  obtain ⟨tokens', hstream', hparse⟩ := Tree.ofSource_eq_ok hread
  obtain rfl : tokens = tokens' := Except.ok.inj (hstream.symm.trans hstream')
  have hrefines := Grammar.refines_leaves_of_ofTokens hparse
  rw [Token.throughEnd_terminated_of_stream hstream] at hrefines
  obtain ⟨front, last, rfl, hlast, hfront, -⟩ := Token.stream_covers hstream
  intro piece hpiece hword
  obtain ⟨token, htoken, pieces, hcuts, hmem⟩ := hrefines.exists_cuts hpiece
  refine htokens token htoken (text_mem_of_cuts hcuts (fun hkind => ?_) hmem hword)
  rcases List.mem_append.mp htoken with hproper | hended
  · exact (hfront token hproper).operator hkind
  · obtain rfl := List.mem_singleton.mp hended
    simp [hlast] at hkind

/-! ### Sources -/

theorem untouched_nil (ht : Wordless t) : Untouched [] t where
  wordless := ht
  nameless := by
    intro s _
    unfold isClassAmong
    split
    · simp
    · rfl

/-- A source with none of the words is converted to itself, if its tree can be migrated at all. -/
theorem conversion_of_wordless {limits : Limits} {source : Text} (path : Option Text)
    (hread : Tree.ofSource limits source = .ok t) (ht : Wordless t) :
    Conversion.ofSource limits path source =
      if t.depth ≤ limits.nodes then .ok { source, output := source } else .error (Conversion.depthDiagnostic path) := by
  have hevidence : evidence t = [] := evidence_eq_nil t ht
  have hnames : inferredNames t = [] := by simp [inferredNames, hevidence]
  have hwarnings : warnings path t = [] := by simp [warnings, hevidence]
  have hmigrated : migrate [] t = t := (untouched_nil ht).migrate_eq (Tree.shaped_of_ofSource hread)
  unfold Conversion.ofSource
  rw [hread]
  simp only [hnames, hwarnings, migrate?, hmigrated]
  by_cases hdepth : t.depth ≤ limits.nodes
  · simp only [if_pos hdepth, Tree.text_of_ofSource hread]
  · simp only [if_neg hdepth]

/-- Untouched code stays as it is. The migrated source is made of one text for each child of the root, as the source is,
and a child without the words and without a class of the names is migrated to itself. A source without the words among
its tokens is converted to itself, unless its tree is too deep to be migrated. -/
theorem migrate_untouched {limits : Limits} {source : Text} (names : List Text)
    (hread : Tree.ofSource limits source = .ok t) :
    source = t.children.flatMap text ∧
    (migrate names t).text = t.children.flatMap (fun child => (migrate names child).text) ∧
    (∀ child ∈ t.children, Untouched names child → migrate names child = child) ∧
    ∀ tokens path, Token.stream limits.literals source = .ok tokens →
      (∀ token ∈ tokens, token.text ∉ legacyWords) →
      Conversion.ofSource limits path source =
        if t.depth ≤ limits.nodes then .ok { source, output := source }
        else .error (Conversion.depthDiagnostic path) := by
  have hshaped : t.Shaped := Tree.shaped_of_ofSource hread
  obtain ⟨tokens, -, hparse⟩ := Tree.ofSource_eq_ok hread
  obtain ⟨items, heq, -⟩ := Grammar.ofTokens_eq hparse
  refine ⟨?_, ?_, fun child hchild huntouched => huntouched.migrate_eq (hshaped.of_mem_children hchild),
    fun tokens path hstream htokens => conversion_of_wordless path hread (wordless_of_tokens hread hstream htokens)⟩
  · rw [← Tree.text_of_ofSource hread, heq]
    exact textOf_leavesOf _
  · rw [heq, migrate_node_of_not_mem .sourceFile (by decide), text, leaves, textOf_leavesOf, List.flatMap_map]
    rfl

/-- A structure without wrappers stays as it is, part by part and as a whole. -/
theorem migrate_untouched_structure :
    ∃ t, Tree.ofSource .standard "struct Page { let size = 2 }  // two".toList = .ok t ∧
      (∀ child ∈ t.children, migrate [] child = child) ∧
      Conversion.ofSource .standard none "struct Page { let size = 2 }  // two".toList =
        .ok { source := "struct Page { let size = 2 }  // two".toList
              output := "struct Page { let size = 2 }  // two".toList } := by
  have hsome : (Tree.ofSource .standard "struct Page { let size = 2 }  // two".toList).toOption.isSome = true := by
    decide +kernel
  have hdepth : (Tree.ofSource .standard "struct Page { let size = 2 }  // two".toList).toOption.all
      (fun t => t.depth ≤ Limits.standard.nodes) = true := by decide +kernel
  have hwords : (Token.stream Limits.standard.literals "struct Page { let size = 2 }  // two".toList).toOption.all
      (fun tokens => ∀ token ∈ tokens, token.text ∉ legacyWords) = true := by decide +kernel
  obtain ⟨t, hread⟩ := exists_eq_ok_of_isSome hsome
  obtain ⟨tokens, hstream, -⟩ := Tree.ofSource_eq_ok hread
  rw [hread] at hdepth
  rw [hstream] at hwords
  have htokens : ∀ token ∈ tokens, token.text ∉ legacyWords := of_decide_eq_true hwords
  obtain ⟨-, -, hchildren, hconverted⟩ := migrate_untouched [] hread
  refine ⟨t, hread, fun child hchild => hchildren child hchild (untouched_nil ?_), ?_⟩
  · exact (wordless_of_tokens hread hstream htokens).of_within (.of_mem_children hchild)
  · rw [hconverted tokens none hstream htokens, if_pos (of_decide_eq_true hdepth)]

end SwiftObservation.Migration
