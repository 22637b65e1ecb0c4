import SwiftObservation.Proofs.Grammar.Lossless
import SwiftObservation.Proofs.Grammar.Shape.Declarations
import SwiftObservation.Proofs.Migration.LineBreaks.Basic
import SwiftObservation.Proofs.Migration.Settled.Classes

/-!
# The line breaks of a conversion

Whatever the rules do to the tokens of a uniform tree, the tokens stay uniform: names have no line breaks, and trivia is
joined and cut in ways that respect them. Only one rule writes a line break of its own, the one that puts an attribute in
front of a class. It takes a pair if the class has one in its own text, and a line feed otherwise. So a source whose lines
all end in line feeds keeps them, and one whose lines end in pairs keeps these if every class that gains an attribute has
a brace that begins a line. Carriage returns are not kept where a class gains an attribute.
-/

namespace SwiftObservation

open SwiftObservation.Tree

variable {k : LineBreak}

/-! ### Trees of uniform sources -/

theorem Grammar.Cuts.uniform {t : Token} {pieces : List Token} (hcuts : Grammar.Cuts t pieces) (ht : t.Uniform k) :
    ∀ piece ∈ pieces, piece.Uniform k := by
  induction hcuts with
  | whole t => exact List.forall_mem_singleton.mpr ht
  | @split t pieces _ _ hangle _ ih =>
      -- The cut is behind an angle bracket, which is no part of a line break.
      obtain ⟨c, rest, htext, hplain⟩ : ∃ c rest, t.text = c :: rest ∧ Text.isLineBreak c = false := by
        cases htext : t.text with
        | nil => simp [htext] at hangle
        | cons c rest =>
            refine ⟨c, rest, rfl, ?_⟩
            have hc : c = '<' ∨ c = '>' := by simpa [htext] using hangle
            rcases hc with rfl | rfl <;> rfl
      have hrest : Text.Uniform k rest := (htext ▸ ht.text).of_cons_plain hplain
      refine List.forall_mem_cons.mpr ⟨⟨ht.leading, ?_, .nil⟩, ih ⟨.nil, ?_, ht.trailing⟩⟩
      · simpa [Grammar.Cursor.splitToken, htext] using Text.Uniform.plain hplain .nil
      · simpa [Grammar.Cursor.splitToken, htext] using hrest

theorem Tree.uniform_of_ofSource {limits : Limits} {source : Text} {t : Tree} (hread : Tree.ofSource limits source = .ok t)
    (hsource : source.Uniform k) : t.Uniform k := by
  obtain ⟨tokens, hstream, hparse⟩ := Tree.ofSource_eq_ok hread
  have hrefines := Grammar.refines_leaves_of_ofTokens hparse
  rw [Token.throughEnd_terminated_of_stream hstream] at hrefines
  intro leaf hleaf
  obtain ⟨token, htoken, pieces, hcuts, hpiece⟩ := hrefines.exists_cuts hleaf
  exact hcuts.uniform (Token.uniform_of_stream hstream hsource token htoken) leaf hpiece

namespace Migration

variable {names : List Text} {label : Label} {children found rest trees : List Tree} {t decl : Tree}

/-! ### Attributes -/

theorem uniform_rename {text : Text} (htext : text.Uniform k) (ht : t.Uniform k) : (rename text t).Uniform k := by
  unfold rename
  split
  next label name rest =>
    simp only [uniform_node, uniformAll_cons, uniform_leaf] at ht ⊢
    exact ⟨ht.1.withText htext, ht.2⟩
  next => exact ht

theorem uniform_takeUp {carried : Text} (hcarried : carried.Uniform k) (token : Token) (htoken : token.Uniform k) :
    (takeUp carried token).Uniform k :=
  htoken.withLeading (Trivia.uniform_mergeLeading hcarried htoken.leading)

theorem uniform_migrateAttribute (ht : t.Uniform k) : (migrateAttribute t).Uniform k := by
  unfold migrateAttribute
  split
  next sign name rest hchildren =>
    have hparts : UniformAll k (sign :: name :: rest) := hchildren ▸ fun s hs => ht.of_within (.of_mem_children hs)
    simp only [uniformAll_cons] at hparts
    split
    next =>
      simp only [uniform_node, uniformAll_cons]
      exact ⟨hparts.1, uniform_rename (Text.uniform_of_plain rfl) hparts.2.1, hparts.2.2⟩
    next =>
      split
      next =>
        cases sign with
        | leaf token =>
            have hsign := uniform_leaf.mp hparts.1
            simpa [erased] using (hsign.withText .nil).withTrailing .nil
        | node _ _ => exact ht
        | absent => exact ht
      next => exact ht
  next => exact ht

theorem uniform_carry {carried : Option Text} (hcarried : ∀ text ∈ carried, Text.Uniform k text) (ht : t.Uniform k) :
    (carry carried t).Uniform k := by
  unfold carry
  refine Text.Uniform.append ?_ ht.trailing_last?.dropWhile_isBlank
  cases carried with
  | none => exact ht.leading_first?
  | some earlier => exact Trivia.uniform_mergeLeading (hcarried earlier rfl) ht.leading_first?

theorem uniformAll_deliver {carried : Option Text} (hcarried : ∀ text ∈ carried, Text.Uniform k text)
    (htrees : UniformAll k trees) : UniformAll k (deliver carried trees) := by
  cases carried with
  | none => exact htrees
  | some text => exact htrees.mapFirstOf? (uniform_takeUp (hcarried text rfl))

theorem uniformAll_dropFrom (doomed : Tree → Bool) (carried : Option Text)
    (hcarried : ∀ text ∈ carried, Text.Uniform k text) (htrees : UniformAll k trees) :
    UniformAll k (dropFrom doomed carried trees).1 ∧ ∀ text ∈ (dropFrom doomed carried trees).2, Text.Uniform k text := by
  induction trees generalizing carried with
  | nil => exact ⟨uniformAll_nil, hcarried⟩
  | cons t rest ih =>
      obtain ⟨ht, hrest⟩ := uniformAll_cons.mp htrees
      rw [dropFrom]
      split
      next =>
        refine ih _ (fun text htext => ?_) hrest
        obtain rfl := Option.some.inj htext
        exact uniform_carry hcarried ht
      next =>
        obtain ⟨hkept, hleft⟩ := ih none (by simp) hrest
        exact ⟨uniformAll_append.mpr ⟨uniformAll_deliver hcarried (by simpa using ht), hkept⟩, hleft⟩

theorem uniform_dropAttributes (doomed : Tree → Bool) (ht : decl.Uniform k) : (dropAttributes doomed decl).Uniform k := by
  unfold dropAttributes
  split
  next label found rest =>
    simp only [uniform_node, uniformAll_cons] at ht
    split
    next =>
      obtain ⟨hkept, hleft⟩ := uniformAll_dropFrom doomed none (by simp) ht.1
      simp only [uniform_node, uniformAll_cons]
      exact ⟨hkept, uniformAll_deliver hleft ht.2⟩
    next => simpa only [uniform_node, uniformAll_cons] using ht
  next => exact ht

/-! ### Expressions and variables -/

theorem uniform_migrateCall (ht : t.Uniform k) : (migrateCall t).Uniform k := by
  unfold migrateCall
  split
  next label callee args rest =>
    simp only [uniform_node, uniformAll_cons, uniform_leaf] at ht
    split
    next =>
      simp only [uniform_node, uniformAll_cons, uniform_leaf]
      refine ⟨ht.1.withText (Text.uniform_of_plain rfl), fun arg harg => ?_, ht.2.2⟩
      obtain ⟨original, hmem, rfl⟩ := List.mem_map.mp harg
      split
      · exact uniform_rename (Text.uniform_of_plain rfl) (ht.2.1 original hmem)
      · exact ht.2.1 original hmem
    next => simpa only [uniform_node, uniformAll_cons, uniform_leaf] using ht
  next => exact ht

theorem uniform_migrateMember (ht : t.Uniform k) : (migrateMember t).Uniform k := by
  unfold migrateMember
  split
  next label receiver dot name =>
    simp only [uniform_node, uniformAll_cons, uniform_leaf] at ht
    split
    next =>
      simp only [uniform_node, uniformAll_cons, uniform_leaf]
      exact ⟨ht.1, ht.2.1, ht.2.2.1.withText (Text.uniform_of_plain rfl), uniformAll_nil⟩
    next => simpa only [uniform_node, uniformAll_cons, uniform_leaf] using ht
  next => exact ht

theorem uniform_mark {kind : TokenKind} {text trailing : Text} (htext : text.Uniform k) (htrailing : trailing.Uniform k) :
    (mark kind text trailing).Uniform k :=
  uniform_leaf.mpr ⟨.nil, htext, htrailing⟩

theorem uniform_lookupArguments {bound : Tree} (hbound : bound.Uniform k) {trailing : Text}
    (htrailing : trailing.Uniform k) : (lookupArguments bound trailing).Uniform k := by
  have hreference : (typeReference bound).Uniform k :=
    (hbound.mapFirst fun _ htoken => htoken.withLeading .nil).mapLast fun _ htoken => htoken.withTrailing .nil
  simp only [lookupArguments, uniform_node, uniformAll_cons, uniformAll_nil, and_true]
  refine ⟨uniform_mark (Text.uniform_of_plain rfl) .nil, ⟨hreference, ?_, ?_⟩, ?_⟩
  · exact uniform_mark (Text.uniform_of_plain rfl) .nil
  · exact uniform_mark (Text.uniform_of_plain rfl) .nil
  · exact uniform_mark (Text.uniform_of_plain rfl) htrailing

theorem uniform_environmentAttribute {bound : Tree} (hbound : bound.Uniform k) (ht : t.Uniform k) :
    (environmentAttribute bound t).Uniform k := by
  unfold environmentAttribute
  split
  next sign name hchildren =>
    have hparts : UniformAll k [sign, name] := hchildren ▸ fun s hs => ht.of_within (.of_mem_children hs)
    simp only [uniformAll_cons, uniformAll_nil, and_true] at hparts
    simp only [uniform_node, uniformAll_cons, uniformAll_nil, and_true]
    have hrenamed : (rename environmentName name).Uniform k :=
      uniform_rename (Text.uniform_of_plain rfl) hparts.2
    exact ⟨hparts.1, hrenamed.mapLast fun _ htoken => htoken.withTrailing .nil,
      uniform_lookupArguments hbound hparts.2.trailing_last?⟩
  next => exact ht

theorem uniform_dropTypeClause (ht : t.Uniform k) : (dropTypeClause t).Uniform k := by
  unfold dropTypeClause
  split
  next label pattern rest clause hclause =>
    have htrailing := (ht.of_within (.of_mem_children (List.mem_of_find?_eq_some hclause))).trailing_last?
    simp only [uniform_node, uniformAll_cons] at ht ⊢
    exact ⟨ht.1.mapLast fun _ htoken => htoken.withTrailing htrailing,
      fun u hu => ht.2 u (List.mem_of_mem_eraseP hu)⟩
  next => exact ht

theorem uniform_migrateEnvironment (ht : decl.Uniform k) : (migrateEnvironment decl).Uniform k := by
  unfold migrateEnvironment
  split
  next label found rest =>
    have hdecl := ht
    simp only [uniform_node, uniformAll_cons] at ht
    split
    next target bound htarget hbound =>
      obtain ⟨binding, hbinding, hbound⟩ := Option.bind_eq_some_iff.mp hbound
      have htype : bound.Uniform k :=
        (ht.2 binding (List.mem_of_find?_eq_some hbinding)).of_within (within_of_plainType? hbound)
      split
      next =>
        simp only [uniform_node, uniformAll_cons]
        refine ⟨forall_mem_updateFirst ht.1 fun u hu => ?_, forall_mem_updateFirst ht.2 fun u hu => ?_⟩
        · exact uniform_environmentAttribute htype (ht.1 u (List.mem_of_find?_eq_some hu))
        · exact uniform_dropTypeClause (ht.2 u (List.mem_of_find?_eq_some hu))
      next => exact hdecl
    next => exact hdecl
  next => exact ht

theorem uniform_migrateVariables (ht : decl.Uniform k) : (migrateVariables decl).Uniform k :=
  uniform_dropAttributes _ (uniform_migrateEnvironment ht)

/-! ### Classes -/

theorem uniform_stripComma {trailing : Text} (htrailing : trailing.Uniform k) (ht : t.Uniform k) :
    (stripComma trailing t).Uniform k := by
  unfold stripComma
  split
  next label children =>
    refine Tree.Uniform.mapLast ?_ fun _ htoken => htoken.withTrailing htrailing
    rw [uniform_node] at ht ⊢
    split
    · exact fun u hu => ht u (List.dropLast_subset children hu)
    · exact ht
  next => exact ht

/-- What is left of an inheritance clause is uniform. -/
def Pruned.Uniform (k : LineBreak) : Pruned → Prop
  | dangling => True
  | emptied trailing => trailing.Uniform k
  | kept entries => UniformAll k entries

theorem uniform_pruneFrom {entries reversed : List Tree} (hreversed : UniformAll k reversed) (carried : Option Text)
    (hcarried : ∀ text ∈ carried, Text.Uniform k text) (hentries : UniformAll k entries) :
    (pruneFrom reversed carried entries).Uniform k := by
  induction entries generalizing reversed carried with
  | nil =>
      rw [pruneFrom]
      split
      · trivial
      · exact uniformAll_reverse.mpr hreversed
  | cons entry rest ih =>
      obtain ⟨hentry, hrest⟩ := uniformAll_cons.mp hentries
      rw [pruneFrom]
      split
      next =>
        split
        next =>
          refine ih hreversed _ (fun text htext => ?_) hrest
          cases carried with
          | some earlier => exact hcarried text htext
          | none =>
              obtain rfl := Option.some.inj htext
              exact hentry.leading_first?
        next =>
          cases reversed with
          | nil => exact hentry.trailing_last?
          | cons before earlier =>
              obtain ⟨hbefore, hearlier⟩ := uniformAll_cons.mp hreversed
              exact ih (uniformAll_cons.mpr ⟨uniform_stripComma hentry.trailing_last? hbefore, hearlier⟩) _ hcarried hrest
      next =>
        have hdelivered : UniformAll k (deliver carried [entry]) := uniformAll_deliver hcarried (by simpa using hentry)
        exact ih (uniformAll_append.mpr ⟨uniformAll_reverse.mpr hdelivered, hreversed⟩) none (by simp) hrest

theorem uniformAll_endWith {trailing : Text} (htrailing : trailing.Uniform k) (htrees : UniformAll k trees) :
    UniformAll k (endWith trailing trees) := by
  unfold endWith
  split
  next last hlast =>
    refine uniformAll_append.mpr ⟨fun t ht => htrees t (List.dropLast_subset trees ht), ?_⟩
    have hchanged := (htrees last (List.mem_of_getLast? hlast)).mapLast fun _ htoken => htoken.withTrailing htrailing
    simpa using hchanged
  next => exact uniformAll_nil

theorem uniformAll_leaveProtocol (hchildren : UniformAll k children) {left : List Tree}
    (hleft : leaveProtocol children = .done left) : UniformAll k left := by
  unfold leaveProtocol at hleft
  split at hleft
  next before label colon entries behind hspan =>
    have hparts : children = before ++ .node label (colon :: entries) :: behind := by
      rw [List.span_eq_takeWhile_dropWhile] at hspan
      obtain ⟨hbefore, hbehind⟩ := Prod.mk.inj hspan
      rw [← hbefore, ← hbehind, List.takeWhile_append_dropWhile]
    simp only [hparts, uniformAll_append, uniformAll_cons, uniform_node] at hchildren
    obtain ⟨hbefore, ⟨hcolon, hentries⟩, hbehind⟩ := hchildren
    have hpruned : (prune entries).Uniform k := uniform_pruneFrom uniformAll_nil none (by simp) hentries
    split at hleft
    next =>
      split at hleft
      next => cases hleft
      next trailing hemptied =>
        obtain rfl := Leaving.done.inj hleft
        rw [hemptied] at hpruned
        exact uniformAll_append.mpr ⟨uniformAll_endWith hpruned hbefore, hbehind⟩
      next kept hkept =>
        obtain rfl := Leaving.done.inj hleft
        rw [hkept] at hpruned
        simp only [uniformAll_append, uniformAll_cons, uniform_node]
        exact ⟨hbefore, ⟨hcolon, hpruned⟩, hbehind⟩
    next => cases hleft
  next => cases hleft

theorem uniform_unpublish (ht : t.Uniform k) : (unpublish t).Uniform k := by
  unfold unpublish
  split
  · exact uniform_dropAttributes _ ht
  · exact ht

theorem uniformAll_unpublishBody (hchildren : UniformAll k children) : UniformAll k (unpublishBody children) := by
  unfold unpublishBody
  split
  next label members hlast =>
    have hmembers := uniform_node.mp (hchildren _ (List.mem_of_getLast? hlast))
    refine uniformAll_append.mpr ⟨fun t ht => hchildren t (List.dropLast_subset children ht), ?_⟩
    rw [uniformAll_cons, uniform_node]
    refine ⟨fun member hmember => ?_, uniformAll_nil⟩
    obtain ⟨original, hmem, rfl⟩ := List.mem_map.mp hmember
    exact uniform_unpublish (hmembers original hmem)
  next => exact hchildren

/-- The attribute in front of a class is uniform if the line break behind it is of the right kind. -/
theorem uniformAll_prependObservable (hchildren : UniformAll k children)
    (hending : ∀ indent, Text.Uniform k indent → Trivia.lineEnding (Token.textOf (leavesOf
      ((mapFirstOf? ({ · with leading := indent }) children).getD children))) = k.text) :
    UniformAll k (prependObservable children) := by
  unfold prependObservable
  split
  next => exact hchildren
  next head hhead =>
    dsimp only
    have hindent : (Trivia.indentation head.leading).Uniform k := Trivia.uniform_indentation _
    have hindented := hchildren.mapFirstOf? fun _ htoken => htoken.withLeading hindent
    rw [hending _ hindent]
    split
    next found rest heq =>
      rw [heq, uniformAll_cons, uniform_node] at hindented
      rw [uniformAll_cons, uniform_node, uniformAll_cons]
      refine ⟨⟨?_, hindented.1⟩, hindented.2⟩
      have hleading := (uniformAll_iff.mp hchildren head (mem_leavesOf_of_firstOf? children hhead)).leading
      simp only [observableAttribute, uniform_node, uniformAll_cons, uniform_leaf, uniformAll_nil, and_true]
      exact ⟨⟨hleading, Text.uniform_of_plain rfl, .nil⟩, .nil, Text.uniform_of_plain rfl, Text.uniform_text k⟩
    next => exact hchildren

/-- The tree is a class that is converted and does not have the attribute that makes it observable. -/
def gainsAttribute (names : List Text) (t : Tree) : Bool :=
  t.is .typeDecl && isConverted names t.children && !t.children.head?.any (·.children.any (isNamed observableName))

/-- A brace around the members of the type begins a line. -/
def hasBraceOnNewLine (t : Tree) : Bool := t.children.getLast?.any (·.children.any (·.token?.any (·.startsLine)))

/-- The line breaks that the rules write into the migration of the tree are of the given kind. -/
def Allows (k : LineBreak) (names : List Text) (t : Tree) : Prop :=
  ∀ s, Within s t → gainsAttribute names s = true → k = .feed ∨ k = .pair ∧ hasBraceOnNewLine s = true

namespace ClassParts

variable {p : ClassParts}

theorem gainsAttribute_trees : gainsAttribute names (.node .typeDecl p.trees) =
    (isConverted names p.trees && !p.attributes.any (isNamed observableName)) := rfl

theorem exists_brace (hbrace : hasBraceOnNewLine (.node .typeDecl p.trees) = true) :
    ∃ brace, .leaf brace ∈ p.members ∧ brace.startsLine = true := by
  have hlast : p.trees.getLast? = some (.node .memberBlock p.members) := by simp [trees, tail]
  rw [hasBraceOnNewLine, Tree.children, hlast, Option.any_some, Tree.children, List.any_eq_true] at hbrace
  obtain ⟨t, ht, hstarts⟩ := hbrace
  cases t with
  | leaf brace => exact ⟨brace, ht, hstarts⟩
  | node _ _ => cases hstarts
  | absent => cases hstarts

/-- In a class without the attribute that makes it observable, the braces and the line breaks in front of them are still
there when the rule looks for a pair. -/
theorem lineEnding_eq_pair {front : List Tree} (hfront : p.Begins front) {brace : Token} (hbrace : .leaf brace ∈ p.members)
    (hleading : ['\r', '\n'] <:+: brace.leading) (f : Token → Token) :
    Trivia.lineEnding (Token.textOf (leavesOf
      ((mapFirstOf? f (unpublishBody (front ++ p.tail))).getD (unpublishBody (front ++ p.tail))))) = LineBreak.text .pair := by
  obtain ⟨rest, rfl, hkeyword⟩ := hfront
  have hbody : unpublishBody (.node .attributes p.attributes :: rest ++ p.tail) =
      (.node .attributes p.attributes :: rest ++ Tree.optional .whereClause p.requirements) ++
        [.node .memberBlock (p.members.map unpublish)] := by
    rw [tail, ← List.append_assoc, unpublishBody_concat]
  have hmem : .leaf p.keyword ∈ Tree.node .attributes p.attributes :: rest ++ Tree.optional .whereClause p.requirements := by
    simp [hkeyword]
  obtain ⟨front', hchanged⟩ := exists_mapFirstOf?_append hmem [.node .memberBlock (p.members.map unpublish)]
  rw [hbody, hchanged, Option.getD_some]
  have hleaf : brace ∈ leavesOf (front' ++ [.node .memberBlock (p.members.map unpublish)]) := by
    refine mem_leavesOf.mpr ⟨.node .memberBlock (p.members.map unpublish), by simp, ?_⟩
    exact mem_leavesOf.mpr ⟨.leaf brace, List.mem_map.mpr ⟨.leaf brace, hbrace, rfl⟩, List.mem_singleton_self brace⟩
  exact Trivia.lineEnding_of_pair (hleading.trans (Token.leading_infix_textOf hleaf))

theorem uniformAll_convertClass {front : List Tree} (hfront : p.Begins front) (hall : UniformAll k (front ++ p.tail))
    (hallowed : p.attributes.any (isNamed observableName) = false →
      k = .feed ∨ k = .pair ∧ ∃ brace, .leaf brace ∈ p.members ∧ brace.startsLine = true) :
    UniformAll k (convertClass (.node .attributes p.attributes) (front ++ p.tail)) := by
  have hunpublished := uniformAll_unpublishBody hall
  rw [convertClass, Tree.children]
  cases hobservable : p.attributes.any (isNamed observableName) with
  | true => exact hunpublished
  | false =>
      apply uniformAll_prependObservable hunpublished
      intro indent hindent
      obtain rfl | ⟨rfl, brace, hbrace, hstarts⟩ := hallowed hobservable
      · have hindented := hunpublished.mapFirstOf? fun _ htoken => htoken.withLeading hindent
        exact Trivia.lineEnding_of_feed (Token.uniform_textOf (uniformAll_iff.mp hindented))
      · have hbody : UniformAll .pair p.members :=
          uniform_node.mp (hall (.node .memberBlock p.members) (by simp [tail]))
        have hleading := (uniform_leaf.mp (hbody _ hbrace)).leading
        exact lineEnding_eq_pair hfront hbrace (Trivia.pair_infix_of_hasLineBreak hleading hstarts) _

theorem uniform_migrate (hin : UniformAll k (p.trees.map (migrate names))) (ht : Shaped (.node .typeDecl p.trees))
    (hallows : Allows k names (.node .typeDecl p.trees)) : (migrate names (.node .typeDecl p.trees)).Uniform k := by
  cases hconverted : isConverted names p.trees with
  | false =>
      rw [migrate_of_not_isConverted (shaped_clause ht) hconverted, uniform_node]
      exact hin
  | true =>
      have hallowed (hother : (p.migrated names).attributes.any (isNamed observableName) = false) :
          k = .feed ∨ k = .pair ∧ ∃ brace, .leaf brace ∈ (p.migrated names).members ∧ brace.startsLine = true := by
        have hgains : gainsAttribute names (.node .typeDecl p.trees) = true := by
          have hbefore := (any_observable_migrate (shaped_attributes ht)).symm.trans hother
          rw [gainsAttribute_trees, hconverted, hbefore]
          rfl
        refine (hallows _ .self hgains).imp_right fun ⟨hpair, hbrace⟩ => ⟨hpair, ?_⟩
        obtain ⟨brace, hmember, hstarts⟩ := exists_brace hbrace
        exact ⟨brace, List.mem_map.mpr ⟨.leaf brace, hmember, migrate_leaf⟩, hstarts⟩
      rw [map_migrate_trees] at hin
      rw [isConverted_eq] at hconverted
      rw [migrate_node, map_migrate_trees, migrateNode, migrateType_eq]
      obtain ⟨hnone, hleft, -⟩ | ⟨hsome, -, hcommaed⟩ | ⟨-, -, front, hleft, hbegins, -⟩ :=
        leaveProtocol_cases names (shaped_clause ht)
      · have hname : names.contains (p.migrated names).name.text = true := by simpa [hnone] using hconverted
        simp only [hleft, hname, if_true, uniform_node]
        rw [trees, ← List.append_assoc] at hin ⊢
        exact uniformAll_convertClass (begins_head_append _) hin hallowed
      · simp [hsome, hcommaed, -List.all_eq_true, -List.any_eq_true] at hconverted
      · simp only [hleft, uniform_node]
        exact uniformAll_convertClass hbegins (uniformAll_leaveProtocol hin hleft) hallowed

end ClassParts

/-! ### Whole trees -/

theorem Allows.of_within {s : Tree} (ht : Allows k names t) (hwithin : Within s t) : Allows k names s :=
  fun r hr => ht r (hr.trans hwithin)

/-- A node is uniform after migration if the trees below it are. -/
theorem uniform_migrate_node (hin : UniformAll k (children.map (migrate names))) (ht : Shaped (.node label children))
    (hallows : Allows k names (.node label children)) : (migrate names (.node label children)).Uniform k := by
  have hwhole : (Tree.node label (children.map (migrate names))).Uniform k := uniform_node.mpr hin
  by_cases hlabel : label ∈ ruled
  · simp only [ruled, List.mem_cons, List.not_mem_nil, or_false] at hlabel
    rcases hlabel with rfl | rfl | rfl | rfl | rfl
    · obtain ⟨attributes, modifiers, keyword, name, rest, rfl, hkind⟩ | ⟨p, rfl⟩ := ClassParts.cases_of_shaped ht
      · rwa [migrate_of_not_isClass hkind]
      · exact ClassParts.uniform_migrate hin ht hallows
    · rw [migrate_node, migrateNode]
      exact uniform_migrateVariables hwhole
    · rw [migrate_node, migrateNode]
      exact uniform_migrateAttribute hwhole
    · rw [migrate_node, migrateNode]
      exact uniform_migrateCall hwhole
    · rw [migrate_node, migrateNode]
      exact uniform_migrateMember hwhole
  · rwa [migrate_node_of_not_mem label hlabel]

theorem uniform_migrate (hs : t.Shaped) (ht : t.Uniform k) (hallows : Allows k names t) : (migrate names t).Uniform k := by
  induction hs with
  | leaf token => exact ht
  | absent => exact uniform_absent
  | @node label children hadmits hinner ih =>
      apply uniform_migrate_node _ (.node hadmits hinner) hallows
      intro migrated hmem
      obtain ⟨s, hs, rfl⟩ := List.mem_map.mp hmem
      exact ih s hs (ht.of_within (.child hs .self)) (hallows.of_within (.child hs .self))

/-! ### Sources -/

theorem output_eq {limits : Limits} {path : Option Text} {source : Text} {c : Conversion}
    (hread : Tree.ofSource limits source = .ok t) (hconverted : Conversion.ofSource limits path source = .ok c) :
    c.output = (migrate c.names t).text := by
  unfold Conversion.ofSource at hconverted
  rw [hread] at hconverted
  simp only [migrate?] at hconverted
  split at hconverted
  next => cases hconverted
  next migrated hmigrated =>
    split at hmigrated
    next =>
      obtain rfl := Option.some.inj hmigrated
      obtain rfl := Except.ok.inj hconverted
      rfl
    next => cases hmigrated

/-- If all line breaks of a source are of one kind, so are those of its conversion, provided that the rule that puts an
attribute in front of a class writes this kind, too. It does if lines end in line feeds, and if they end in pairs and a
brace of the class begins a line. -/
theorem lineBreaks_output {limits : Limits} {path : Option Text} {source : Text} {c : Conversion}
    (hread : Tree.ofSource limits source = .ok t) (hconverted : Conversion.ofSource limits path source = .ok c)
    (hsource : ∀ b ∈ source.lineBreaks, b = k)
    (hgains : ∀ s ∈ t.subtrees, gainsAttribute c.names s = true → k = .feed ∨ k = .pair ∧ hasBraceOnNewLine s = true) :
    ∀ b ∈ c.output.lineBreaks, b = k := by
  have htree : t.Uniform k := Tree.uniform_of_ofSource hread (Text.uniform_iff.mpr hsource)
  have hallows : Allows k c.names t := fun s hwithin => hgains s hwithin.mem_subtrees
  have hmigrated := uniform_migrate (Tree.shaped_of_ofSource hread) htree hallows
  rw [output_eq hread hconverted]
  exact Text.uniform_iff.mp (uniform_text hmigrated)

/-- A class between pairs gains its attribute in front of another pair. -/
theorem lineBreaks_output_pairs :
    ∃ c, Conversion.ofSource .standard none
        "class Model: ObservableObject \x7b\r\n    @Published var x = 0\r\n\x7d\r\n".toList = .ok c ∧
      c.output.lineBreaks.length = 4 ∧ ∀ b ∈ c.output.lineBreaks, b = .pair := by
  have hany : (Tree.ofSource .standard "class Model: ObservableObject \x7b\r\n    @Published var x = 0\r\n\x7d\r\n".toList).toOption.any
      (fun t => (Conversion.ofSource .standard none
        "class Model: ObservableObject \x7b\r\n    @Published var x = 0\r\n\x7d\r\n".toList).toOption.any fun c =>
          (t.subtrees.all fun s => !gainsAttribute c.names s || hasBraceOnNewLine s) &&
            c.output.lineBreaks.length == 4) = true := by
    decide +kernel
  obtain ⟨t, hread, hany⟩ := exists_eq_ok_of_any hany
  obtain ⟨c, hconverted, hany⟩ := exists_eq_ok_of_any hany
  rw [Bool.and_eq_true, List.all_eq_true, beq_iff_eq] at hany
  obtain ⟨hbraces, hlength⟩ := hany
  refine ⟨c, hconverted, hlength, lineBreaks_output hread hconverted (by decide) fun s hs hgains => .inr ⟨rfl, ?_⟩⟩
  simpa [hgains] using hbraces s hs

/-- The attribute of a class between carriage returns is put in front of a line feed. -/
theorem exists_foreign_lineBreak :
    (∀ b ∈ Text.lineBreaks "class A: ObservableObject \x7b\r\x7d\r".toList, b = .carriage) ∧
      ∃ c, Conversion.ofSource .standard none "class A: ObservableObject \x7b\r\x7d\r".toList = .ok c ∧
        c.output.lineBreaks = [.feed, .carriage, .carriage] := by
  have hany : (Conversion.ofSource .standard none "class A: ObservableObject \x7b\r\x7d\r".toList).toOption.any
      (fun c => c.output.lineBreaks == [.feed, .carriage, .carriage]) = true := by
    decide +kernel
  obtain ⟨c, hconverted, hbreaks⟩ := exists_eq_ok_of_any hany
  exact ⟨by decide, c, hconverted, beq_iff_eq.mp hbreaks⟩

/-- So is that of a class on one line, whatever the line ends in. -/
example : (Conversion.ofSource .standard none "class A: ObservableObject {}\r\n".toList).toOption.any
    (fun c => c.output.lineBreaks == [.feed, .pair]) = true := by decide +kernel

end Migration

end SwiftObservation
