import Mathlib.Data.List.TakeDrop
import Mathlib.Data.List.TakeWhile
import SwiftObservation.Migration.Rules
import SwiftObservation.Proofs.Grammar.Shape.Basic
import SwiftObservation.Proofs.Tree.Words

/-!
# What the rules leave

The words that each rule of the migration leaves of the node it is applied to. Most of what the rules do is to move
trivia from what goes to what stays, and none of that shows here: trees are compared without their trivia.
-/

namespace SwiftObservation.Migration

open SwiftObservation.Tree

variable {label : Label} {doomed : Tree → Bool} {t : Tree}

/-! ### Attributes -/

theorem keepsWord_takeUp (carried : Text) : KeepsWord (takeUp carried) := fun _ => ⟨rfl, rfl⟩

theorem map_bare_deliver (carried : Option Text) (trees : List Tree) :
    (deliver carried trees).map bare = trees.map bare := by
  cases carried with
  | none => rfl
  | some text => exact map_bare_mapFirstOf?_getD (keepsWord_takeUp text) trees

theorem map_bare_dropFrom (carried : Option Text) (trees : List Tree) :
    (dropFrom doomed carried trees).1.map bare = (trees.filter (!doomed ·)).map bare := by
  induction trees generalizing carried with
  | nil => rfl
  | cons t rest ih =>
      rw [dropFrom]
      cases hdoomed : doomed t with
      | true => simpa [hdoomed] using ih _
      | false =>
          simp only [Bool.false_eq_true, if_false, List.map_append, map_bare_deliver, ih]
          simp [hdoomed]

/-- The attributes that are not doomed stay, and so does everything behind them. -/
theorem dropAttributes_eq (doomed : Tree → Bool) (label : Label) (found rest : List Tree) :
    ∃ kept behind, dropAttributes doomed (.node label (.node .attributes found :: rest)) =
        .node label (.node .attributes kept :: behind) ∧
      kept.map bare = (found.filter (!doomed ·)).map bare ∧ behind.map bare = rest.map bare := by
  unfold dropAttributes
  dsimp only
  split
  · exact ⟨_, _, rfl, map_bare_dropFrom none found, map_bare_deliver _ rest⟩
  next hnone =>
    have hall : found.filter (!doomed ·) = found := by
      rw [List.filter_eq_self]
      intro t ht
      cases hdoomed : doomed t with
      | false => rfl
      | true => exact absurd (List.any_eq_true.mpr ⟨t, ht, hdoomed⟩) hnone
    exact ⟨found, rest, rfl, by rw [hall], rfl⟩

theorem attributeName?_bare (t : Tree) : attributeName? t.bare = attributeName? t := by
  cases t with
  | leaf | absent => rfl
  | node label children =>
      rcases children with _ | ⟨_, _ | ⟨_ | ⟨inner, parts⟩ | _, _⟩⟩
      case cons.cons.node =>
        rcases parts with _ | ⟨_ | _ | _, _ | _⟩
        case cons.leaf.nil => cases inner <;> simp [attributeName?, Tree.children]
        all_goals simp [attributeName?, Tree.children]
      all_goals simp [attributeName?, Tree.children]

@[simp] theorem isNamed_bare (name : Text) (t : Tree) : isNamed name t.bare = isNamed name t := by
  rw [isNamed, attributeName?_bare, isNamed]

/-- An erased attribute has no words. -/
theorem words_of_isErased (herased : isErased t = true) : t.words = [] := by
  cases t with
  | leaf token => simp [isErased, Tree.children] at herased
  | absent => rfl
  | node label children =>
      unfold isErased at herased
      split at herased
      next sign hchildren =>
        rw [Tree.children] at hchildren
        subst hchildren
        simpa using herased
      next => simp at herased

/-- The attribute stays in a declaration that is unpublished or not. -/
def isKept (unpublished : Bool) (t : Tree) : Bool := !(unpublished && isNamed publishedName t)

/-- The words of a declaration without its erased attributes and, if it is unpublished, without the published wrapper. -/
theorem words_dropAttributes_isErased (unpublished : Bool) (found rest : List Tree) :
    (if unpublished then unpublish (dropAttributes isErased (.node .variableDecl (.node .attributes found :: rest)))
      else dropAttributes isErased (.node .variableDecl (.node .attributes found :: rest))).words =
      (found.filter (isKept unpublished)).flatMap words ++ rest.flatMap words := by
  have hnothing : ∀ trees : List Tree, (trees.filter (!isErased ·)).flatMap words = trees.flatMap words := by
    intro trees
    induction trees with
    | nil => rfl
    | cons t trees ih =>
        cases herased : isErased t with
        | true => simp [herased, words_of_isErased herased, ih]
        | false => simp [herased, ih]
  obtain ⟨kept, behind, hfirst, hkept, hbehind⟩ := dropAttributes_eq isErased .variableDecl found rest
  rw [hfirst]
  cases unpublished with
  | false =>
      have hall : found.filter (isKept false) = found := List.filter_eq_self.mpr fun _ _ => rfl
      rw [hall, if_neg (by simp), words_node, List.flatMap_cons, words_node, flatMap_words_eq_of_bare hkept,
        flatMap_words_eq_of_bare hbehind, hnothing]
  | true =>
      obtain ⟨kept', behind', hsecond, hkept', hbehind'⟩ :=
        dropAttributes_eq (isNamed publishedName) .variableDecl kept behind
      have hcommutes : ∀ trees : List Tree, (trees.filter (!isNamed publishedName ·)).map bare =
          (trees.map bare).filter (!isNamed publishedName ·) := by
        intro trees
        simp [List.filter_map, Function.comp_def]
      have hfilter : kept'.map bare = ((found.filter (isKept true)).filter (!isErased ·)).map bare := by
        rw [hkept', hcommutes, hkept, ← hcommutes, List.filter_filter, List.filter_filter]
        simp only [isKept, Bool.true_and, Bool.and_comm]
      rw [if_pos rfl, unpublish, is_node, beq_self_eq_true, if_pos rfl, hsecond, words_node, List.flatMap_cons, words_node,
        flatMap_words_eq_of_bare hfilter, flatMap_words_eq_of_bare hbehind', flatMap_words_eq_of_bare hbehind, hnothing]

/-! ### Inheritance clauses -/

/-- The children of an entry without its comma. -/
def withoutComma (children : List Tree) : List Tree :=
  if children.getLast?.any (·.isLeaf .comma) then children.dropLast else children

theorem withoutComma_cons_node (label : Label) (parts rest : List Tree) :
    ∃ more, withoutComma (.node label parts :: rest) = .node label parts :: more ∧ more ⊆ rest := by
  cases rest with
  | nil => exact ⟨[], rfl, List.Subset.refl _⟩
  | cons next rest =>
      unfold withoutComma
      split
      · exact ⟨(next :: rest).dropLast, rfl, List.dropLast_subset _⟩
      · exact ⟨next :: rest, rfl, List.Subset.refl _⟩

theorem isLeaf_bare (t : Tree) (kind : TokenKind) : t.bare.isLeaf kind = t.isLeaf kind := by
  cases t <;> rfl

theorem map_bare_withoutComma (children : List Tree) :
    (withoutComma children).map bare = withoutComma (children.map bare) := by
  have hlast : (children.map bare).getLast?.any (·.isLeaf .comma) = children.getLast?.any (·.isLeaf .comma) := by
    rw [List.getLast?_map]
    cases children.getLast? with
    | none => rfl
    | some t => exact isLeaf_bare t .comma
  unfold withoutComma
  rw [hlast]
  split
  · rw [List.map_dropLast]
  · rfl

theorem bare_stripComma (trailing : Text) (label : Label) (children : List Tree) :
    (stripComma trailing (.node label children)).bare = .node label (withoutComma (children.map bare)) := by
  rw [stripComma, bare_mapLast (keepsWord_trailing _), bare_node, ← map_bare_withoutComma, withoutComma]

/-- Which trivia is left behind an entry that loses its comma is no matter, nor is its own trivia. -/
theorem bare_stripComma_eq {entry entry' : Tree} (hbare : entry.bare = entry'.bare) (trailing trailing' : Text) :
    (stripComma trailing entry).bare = (stripComma trailing' entry').bare := by
  have hself (t : Tree) (trailing : Text) : (stripComma trailing t).bare = (stripComma [] t.bare).bare := by
    cases t with
    | leaf token => rfl
    | absent => rfl
    | node label children => rw [bare_node, bare_stripComma, bare_stripComma, ← bareAll_eq_map, ← bareAll_eq_map, bareAll_bareAll]
  rw [hself entry, hbare, ← hself entry']

theorem words_stripComma_eq {entry entry' : Tree} (hbare : entry.bare = entry'.bare) (trailing trailing' : Text) :
    (stripComma trailing entry).words = (stripComma trailing' entry').words :=
  words_eq_of_bare (bare_stripComma_eq hbare trailing trailing')

theorem words_stripComma_comma (trailing : Text) (bound : Tree) {comma : Token} (hcomma : comma.kind = .comma) :
    (stripComma trailing (.node label [bound, .leaf comma])).words = bound.words := by
  have hbare : (stripComma trailing (.node label [bound, .leaf comma])).bare = (Tree.node label [bound]).bare := by
    rw [bare_stripComma]
    simp [withoutComma, isLeaf, token?, hcomma]
  rw [words_eq_of_bare hbare]
  simp

/-- The last entry names the protocol and has no comma of its own. -/
def endsUncommaed (entries : List Tree) : Bool :=
  entries.getLast?.any fun entry => isProtocolEntry entry && !entry.endsInComma

/-- The words of the entries left: those that do not name the protocol, the last of them without its comma when the one
behind it has none to take along. -/
def entryWords (uncommaed : Bool) : List Tree → List Word
  | [] => []
  | entry :: rest =>
    (if isProtocolEntry entry then []
      else if uncommaed && rest.all isProtocolEntry then (stripComma [] entry).words else entry.words) ++
      entryWords uncommaed rest

theorem entryWords_of_all {entries : List Tree} (hall : entries.all isProtocolEntry = true) (uncommaed : Bool) :
    entryWords uncommaed entries = [] := by
  induction entries with
  | nil => rfl
  | cons entry rest ih =>
      rw [List.all_cons, Bool.and_eq_true] at hall
      rw [entryWords, ih hall.2, hall.1]
      rfl

theorem entryWords_of_none {entries : List Tree} (hnone : ∀ entry ∈ entries, isProtocolEntry entry = false) :
    entryWords false entries = entries.flatMap words := by
  induction entries with
  | nil => rfl
  | cons entry rest ih =>
      rw [entryWords, ih fun e he => hnone e (by simp [he]), hnone entry (by simp)]
      rfl

/-- The words of the entries kept so far, the last of them without its comma if told so. -/
def keptWords (stripped : Bool) : List Tree → List Word
  | [] => []
  | before :: earlier =>
    earlier.reverse.flatMap words ++ if stripped then (stripComma [] before).words else before.words

theorem keptWords_false (reversed : List Tree) : keptWords false reversed = reversed.reverse.flatMap words := by
  cases reversed <;> simp [keptWords]

theorem endsUncommaed_cons {entry : Tree} {rest : List Tree}
    (hcommaed : isProtocolEntry entry = true → entry.endsInComma = true) :
    endsUncommaed (entry :: rest) = endsUncommaed rest := by
  cases rest with
  | nil =>
      cases hentry : isProtocolEntry entry with
      | false => simp [endsUncommaed, hentry]
      | true => simp [endsUncommaed, hcommaed hentry]
  | cons next rest => rw [endsUncommaed, endsUncommaed, List.getLast?_cons_cons]

/-- What an inheritance clause becomes. -/
def Pruned.Leaves (reversed entries : List Tree) : Pruned → Prop
  | .dangling => reversed = [] ∧ entries.all isProtocolEntry = true ∧ endsUncommaed entries = false
  | .emptied _ => reversed = [] ∧ entries.all isProtocolEntry = true ∧ endsUncommaed entries = true
  | .kept left =>
    ¬ (reversed = [] ∧ entries.all isProtocolEntry = true) ∧
      left.flatMap words = keptWords (endsUncommaed entries && entries.all isProtocolEntry) reversed ++
        entryWords (endsUncommaed entries) entries

/-- All entries that are left of a clause have the property. -/
def Pruned.Holds (P : Tree → Prop) : Pruned → Prop
  | .kept entries => ∀ t ∈ entries, P t
  | _ => True

theorem deliver_singleton (carried : Option Text) (t : Tree) : ∃ t', deliver carried [t] = [t'] ∧ t'.bare = t.bare := by
  have hbare := map_bare_deliver carried [t]
  match hdelivered : deliver carried [t] with
  | [] => simp [hdelivered] at hbare
  | [t'] => exact ⟨t', rfl, by simpa [hdelivered] using hbare⟩
  | _ :: _ :: _ => simp [hdelivered] at hbare

theorem pruneFrom_leaves {entries : List Tree} (reversed : List Tree) (carried : Option Text)
    (hlast : ∀ entry ∈ entries, isProtocolEntry entry = true → entry.last?.any (·.kind == .comma) = entry.endsInComma)
    (hcommaed : ∀ entry ∈ entries.dropLast, entry.endsInComma = true) :
    (pruneFrom reversed carried entries).Leaves reversed entries := by
  induction entries generalizing reversed carried with
  | nil =>
      rw [pruneFrom]
      cases reversed with
      | nil => exact ⟨rfl, rfl, rfl⟩
      | cons before earlier => exact ⟨by simp, by simp [keptWords, entryWords, endsUncommaed]⟩
  | cons entry rest ih =>
      have hrest := fun e he => hlast e (List.mem_cons_of_mem entry he)
      have hrest' : ∀ e ∈ rest.dropLast, e.endsInComma = true := by
        cases rest with
        | nil => simp
        | cons next rest => exact fun e he => hcommaed e (by simp [he])
      rw [pruneFrom]
      cases hentry : isProtocolEntry entry with
      | false =>
          obtain ⟨entry', hdelivered, hbare⟩ := deliver_singleton carried entry
          simp only [Bool.false_eq_true, if_false, hdelivered, List.reverse_singleton, List.singleton_append]
          have hnext := ih (entry' :: reversed) none hrest hrest'
          have huncommaed : endsUncommaed (entry :: rest) = endsUncommaed rest := endsUncommaed_cons (by simp [hentry])
          -- The entry is the last one kept just if all others name the protocol.
          have hwords : keptWords (endsUncommaed rest && rest.all isProtocolEntry) (entry' :: reversed) ++
              entryWords (endsUncommaed rest) rest =
              keptWords false reversed ++ entryWords (endsUncommaed rest) (entry :: rest) := by
            rw [keptWords_false, keptWords, entryWords, hentry, words_stripComma_eq hbare [] [], words_eq_of_bare hbare]
            simp
          cases hpruned : pruneFrom (entry' :: reversed) none rest with
          | dangling => simp [hpruned, Pruned.Leaves] at hnext
          | emptied trailing => simp [hpruned, Pruned.Leaves] at hnext
          | kept left =>
              rw [hpruned] at hnext
              refine ⟨by simp [hentry], ?_⟩
              rw [hnext.2, huncommaed, List.all_cons, hentry, Bool.false_and, Bool.and_false, hwords]
      | true =>
          simp only [if_true, hlast entry (by simp) hentry]
          cases hcomma : entry.endsInComma with
          | true =>
              -- The entry goes with its own comma, and those kept before it stay as they are.
              have hnext := ih reversed (carried.or (some ((entry.first?.map (·.leading)).getD []))) hrest hrest'
              have huncommaed : endsUncommaed (entry :: rest) = endsUncommaed rest := endsUncommaed_cons (by simp [hcomma])
              simpa [Pruned.Leaves, huncommaed, hentry, entryWords] using hnext
          | false =>
              have hnone : rest = [] := by
                cases rest with
                | nil => rfl
                | cons next rest => exact absurd (hcommaed entry (by simp)) (by simp [hcomma])
              subst hnone
              have huncommaed : endsUncommaed [entry] = true := by simp [endsUncommaed, hentry, hcomma]
              -- Only the last entry can lack a comma: the comma of the last one kept goes in its place.
              cases reversed with
              | nil => exact ⟨rfl, by simp [hentry], huncommaed⟩
              | cons before earlier =>
                  refine ⟨by simp, ?_⟩
                  simp only [List.all_cons, hentry, huncommaed, List.all_nil, Bool.and_self, keptWords, if_true, entryWords,
                    List.append_nil, List.reverse_cons, List.flatMap_append, List.flatMap_singleton]
                  rw [words_stripComma_eq rfl _ []]

theorem map_bare_endWith (trailing : Text) (trees : List Tree) : (endWith trailing trees).map bare = trees.map bare := by
  unfold endWith
  split
  next last hlast =>
    rw [List.map_append, List.map_singleton, bare_mapLast (keepsWord_trailing _)]
    obtain ⟨front, rfl⟩ := List.getLast?_eq_some_iff.mp hlast
    simp
  next hnone => rw [List.getLast?_eq_none_iff.mp hnone]

theorem endWith_cons (trailing : Text) (t : Tree) {rest : List Tree} (hrest : rest ≠ []) :
    endWith trailing (t :: rest) = t :: endWith trailing rest := by
  cases rest with
  | nil => exact absurd rfl hrest
  | cons next rest =>
      rw [endWith, endWith, List.getLast?_cons_cons]
      cases hlast : (next :: rest).getLast? with
      | none => simp at hlast
      | some last =>
          rw [List.dropLast_cons_of_ne_nil hrest]
          rfl

/-! ### Classes -/

theorem leaveProtocol_of_not_inherits {children : List Tree} (hnone : ∀ t ∈ children, t.is .inheritance = false) :
    leaveProtocol children = .absent := by
  have hall : ∀ t ∈ children, (!t.is .inheritance) = true := fun t ht => by simp [hnone t ht]
  have hspan : children.span (!·.is .inheritance) = (children, []) := by
    rw [List.span_eq_takeWhile_dropWhile, List.takeWhile_eq_self_iff.mpr hall, List.dropWhile_eq_nil_iff.mpr hall]
  rw [leaveProtocol, hspan]

theorem span_inheritance {before behind parts : List Tree} (hnone : ∀ t ∈ before, t.is .inheritance = false) :
    (before ++ .node .inheritance parts :: behind).span (!·.is .inheritance) =
      (before, .node .inheritance parts :: behind) := by
  have hbefore : ∀ t ∈ before, (!t.is .inheritance) = true := fun t ht => by simp [hnone t ht]
  rw [List.span_eq_takeWhile_dropWhile, List.takeWhile_append_of_pos hbefore, List.dropWhile_append_of_pos hbefore]
  simp

theorem leaveProtocol_append {before behind entries : List Tree} {colon : Tree}
    (hnone : ∀ t ∈ before, t.is .inheritance = false) :
    leaveProtocol (before ++ .node .inheritance (colon :: entries) :: behind) =
      if entries.any isProtocolEntry then
        match prune entries with
        | .dangling => .dangling
        | .emptied trailing => .done (endWith trailing before ++ behind)
        | .kept left => .done (before ++ .node .inheritance (colon :: left) :: behind)
      else .absent := by
  rewrite [leaveProtocol, span_inheritance hnone]
  rfl

theorem unpublishBody_concat (front members : List Tree) :
    unpublishBody (front ++ [.node label members]) = front ++ [.node label (members.map unpublish)] := by
  simp [unpublishBody]

/-- A change to the first token of a node and what follows it leaves the node in place. -/
theorem exists_mapFirstOf?_getD {f : Token → Token} (hf : KeepsWord f) (label : Label) (found rest : List Tree) :
    ∃ found' rest', (mapFirstOf? f (.node label found :: rest)).getD (.node label found :: rest) =
        .node label found' :: rest' ∧
      (Tree.node label found' :: rest').map bare = (Tree.node label found :: rest).map bare := by
  have hbare := map_bare_mapFirstOf?_getD hf (.node label found :: rest)
  cases hchanged : mapFirstOf? f (.node label found :: rest) with
  | none => exact ⟨found, rest, rfl, rfl⟩
  | some changed =>
      rw [hchanged, Option.getD_some] at hbare
      match changed with
      | [] => simp at hbare
      | .leaf _ :: _ => simp at hbare
      | .absent :: _ => simp at hbare
      | .node label' found' :: rest' =>
          have hlabel : label' = label := by simpa [label?] using congrArg (·.head?.bind label?) hbare
          subst hlabel
          exact ⟨found', rest', rfl, hbare⟩

/-- The attribute that makes a class observable is put in front of its attributes. -/
theorem prependObservable_eq {found rest : List Tree} (hfirst : (firstOf? (.node .attributes found :: rest)).isSome = true) :
    ∃ head ending found' rest', prependObservable (.node .attributes found :: rest) =
        .node .attributes (observableAttribute head ending :: found') :: rest' ∧
      (Tree.node .attributes found' :: rest').map bare = (Tree.node .attributes found :: rest).map bare := by
  obtain ⟨head, hhead⟩ := Option.isSome_iff_exists.mp hfirst
  obtain ⟨found', rest', hindented, hbare⟩ := exists_mapFirstOf?_getD
    (keepsWord_leading fun _ => Trivia.indentation head.leading) .attributes found rest
  refine ⟨head, Trivia.lineEnding (Token.textOf (leavesOf (.node .attributes found' :: rest'))), found', rest', ?_, hbare⟩
  simp only [prependObservable, hhead, hindented]

/-- The attribute that makes a class observable is put in front of its words. -/
theorem flatMap_words_prependObservable {found rest : List Tree}
    (hfirst : (firstOf? (.node .attributes found :: rest)).isSome = true) :
    (prependObservable (.node .attributes found :: rest)).flatMap words =
      (.atSign, ['@']) :: (.identifier, observableName) :: (Tree.node .attributes found :: rest).flatMap words := by
  obtain ⟨head, ending, found', rest', hprepended, hbare⟩ := prependObservable_eq hfirst
  have hattribute : (observableAttribute head ending).words = [(.atSign, ['@']), (.identifier, observableName)] := by
    have hname : observableName.isEmpty = false := by decide
    simp [observableAttribute, -List.isEmpty_eq_false_iff, hname]
  rw [hprepended, ← flatMap_words_eq_of_bare hbare]
  simp [hattribute]

theorem firstOf?_isSome_of_mem {token : Token} {trees : List Tree} (hmem : .leaf token ∈ trees) :
    (firstOf? trees).isSome = true := by
  induction trees with
  | nil => simp at hmem
  | cons t rest ih =>
      rw [firstOf?]
      rcases List.mem_cons.mp hmem with rfl | hmem
      · rfl
      · cases t.first? with
        | some first => rfl
        | none => exact ih hmem

/-- A class that is converted has its words, those of its body unpublished, and the attribute that makes it observable
in front if it had none. -/
theorem flatMap_words_convertClass {attributes : Tree} {found rest members : List Tree} {keyword : Token}
    (hkeyword : .leaf keyword ∈ rest) :
    (convertClass attributes (.node .attributes found :: rest ++ [.node label members])).flatMap words =
      (if attributes.children.any (isNamed observableName) then []
        else [(.atSign, ['@']), (.identifier, observableName)]) ++
      (Tree.node .attributes found :: rest).flatMap words ++ members.flatMap fun t => (unpublish t).words := by
  have hbody : (Tree.node label (members.map unpublish)).words = members.flatMap fun t => (unpublish t).words := by
    rw [words_node, List.flatMap_map]
  rw [convertClass, unpublishBody_concat]
  split
  · rw [List.flatMap_append, List.flatMap_singleton, hbody, List.nil_append]
  · have hmem : .leaf keyword ∈ Tree.node .attributes found :: (rest ++ [.node label (members.map unpublish)]) := by
      simp [hkeyword]
    rw [List.cons_append, flatMap_words_prependObservable (firstOf?_isSome_of_mem hmem)]
    simp [hbody]

/-! ### Objects from the environment -/

theorem words_lookupArguments (bound : Tree) (trailing : Text) :
    (lookupArguments bound trailing).words = (.leftParen, ['(']) :: bound.words ++
      [(.dot, ['.']), (.identifier, "self".toList), (.rightParen, [')'])] := by
  have hbound : (typeReference bound).words = bound.words := by
    apply words_eq_of_bare
    rw [typeReference, bare_mapLast (keepsWord_trailing _), bare_mapFirst (keepsWord_leading _)]
  simp [lookupArguments, mark, hbound]

theorem words_environmentAttribute (bound sign name : Tree) :
    (environmentAttribute bound (.node label [sign, name])).words =
      sign.words ++ (rename environmentName name).words ++ (lookupArguments bound []).words := by
  have hname : ((rename environmentName name).mapLast ({ · with trailing := [] })).words =
      (rename environmentName name).words := words_eq_of_bare (bare_mapLast (keepsWord_trailing _) _)
  simp [environmentAttribute, Tree.children, hname, words_lookupArguments]

/-- A binding without its type clause has the words of its other parts. -/
theorem words_dropTypeClause {pattern : Tree} {rest : List Tree} {clause : Tree}
    (hclause : (Tree.node label (pattern :: rest)).child? .typeClause = some clause) :
    (dropTypeClause (.node label (pattern :: rest))).words =
      pattern.words ++ (rest.eraseP (·.is .typeClause)).flatMap words := by
  have hdrop : dropTypeClause (.node label (pattern :: rest)) = .node label
      (pattern.mapLast ({ · with trailing := (clause.last?.map (·.trailing)).getD [] }) ::
        rest.eraseP (·.is .typeClause)) := by
    unfold dropTypeClause
    rw [hclause]
  rw [hdrop, words_node, List.flatMap_cons, words_eq_of_bare (bare_mapLast (keepsWord_trailing _) pattern)]

end SwiftObservation.Migration
