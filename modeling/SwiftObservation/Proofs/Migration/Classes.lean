import SwiftObservation.Proofs.Migration.Evidence
import SwiftObservation.Proofs.Migration.Origin

/-!
# Which classes are converted, and to what

A class is called for by its inheritance clause or by its name, and it is converted unless the protocol is all that its
clause names, each time with a comma behind it. `ClassParts.IsConversion` says what a class that is converted becomes, part
by part and trivia apart; all other types only have their parts migrated.
-/

namespace SwiftObservation.Migration

open SwiftObservation.Tree

variable {names : List Text} {entries reversed left : List Tree} {s t entry : Tree}

/-! ### Entries of an inheritance clause -/

/-- An entry of an inheritance clause, its comma and all trivia apart. -/
def commaless (entry : Tree) : Tree := .node .inheritedType (withoutComma entry.bare.children)

/-- The tree is a type, with a comma behind it or without one. -/
def IsListed (entry : Tree) : Prop :=
  ∃ label parts comma, entry.bare = .node .inheritedType (.node label parts :: optionalLeaf comma) ∧
    ∀ token ∈ comma, token.kind = .comma

theorem commaless_congr (hbare : s.bare = t.bare) : commaless s = commaless t := by rw [commaless, hbare, commaless]

theorem endsInComma_congr (hbare : s.bare = t.bare) : s.endsInComma = t.endsInComma := by
  rw [← endsInComma_bare, hbare, endsInComma_bare]

/-- An entry that loses its comma loses nothing else. -/
theorem IsListed.stripComma (hentry : IsListed entry) (trailing : Text) :
    commaless (stripComma trailing entry) = commaless entry ∧ (stripComma trailing entry).endsInComma = false := by
  obtain ⟨label, parts, comma, hbare, hcomma⟩ := hentry
  obtain ⟨children, rfl, hchildren⟩ := exists_of_bare_eq hbare
  have htype : withoutComma (.node label parts :: optionalLeaf comma) = [.node label parts] := by
    cases comma with
    | none => rfl
    | some token => simp [withoutComma, optionalLeaf, isLeaf, token?, hcomma token rfl]
  have hstripped : (Migration.stripComma trailing (.node .inheritedType children)).bare =
      .node .inheritedType [.node label parts] := by rw [bare_stripComma, hchildren, htype]
  refine ⟨?_, ?_⟩
  · rw [commaless, hstripped, commaless, hbare, Tree.children, Tree.children, htype]
    rfl
  · rw [← endsInComma_bare, hstripped]
    rfl

theorem AreEntries.isListed_migrate (hentries : AreEntries entries) (hentry : entry ∈ entries) :
    IsListed (migrate names entry) := by
  obtain ⟨children, rfl⟩ := exists_of_is (hentries.label entry hentry)
  obtain ⟨label, parts, comma, rfl, hcomma⟩ := (hentries.shaped _ hentry).admits
  obtain ⟨parts', hnode⟩ := exists_migrateNode names label (parts.map (migrate names))
  refine ⟨label, parts'.map bare, comma.map fun token => { kind := token.kind, text := token.text }, ?_, ?_⟩
  · rw [migrate_node_of_not_mem .inheritedType (by decide), List.map_cons, migrate_node, hnode, bare_node, List.map_cons,
      bare_node]
    cases comma <;> rfl
  · intro token htoken
    obtain ⟨original, horiginal, rfl⟩ := Option.map_eq_some_iff.mp htoken
    exact hcomma original horiginal

/-! ### What is left of a clause -/

/-- The entries with the last one's comma gone. -/
def stripLast (entries : List Tree) : List Tree :=
  match entries.getLast? with
  | some last => entries.dropLast ++ [stripComma [] last]
  | none => []

@[simp] theorem stripLast_concat (front : List Tree) (last : Tree) :
    stripLast (front ++ [last]) = front ++ [stripComma [] last] := by simp [stripLast]

theorem map_bare_stripLast {entries' : List Tree} (hbare : entries.map bare = entries'.map bare) :
    (stripLast entries).map bare = (stripLast entries').map bare := by
  obtain rfl | ⟨front, last, rfl⟩ := entries.eq_nil_or_concat
  · obtain rfl : entries' = [] := by simpa using hbare.symm
    rfl
  · obtain rfl | ⟨front', last', rfl⟩ := entries'.eq_nil_or_concat
    · simp at hbare
    · simp only [List.concat_eq_append, List.map_append, List.map_singleton, List.append_singleton_inj] at hbare
      simp only [List.concat_eq_append, stripLast_concat, List.map_append, List.map_singleton, hbare.1,
        bare_stripComma_eq hbare.2 [] []]

theorem commaless_stripLast (hentries : ∀ entry ∈ entries, entry.endsInComma = true ∧ IsListed entry) :
    (stripLast entries).map commaless = entries.map commaless ∧
      (∀ entry ∈ (stripLast entries).dropLast, entry.endsInComma = true) ∧
      (stripLast entries).getLast?.any (·.endsInComma) = false := by
  obtain rfl | ⟨front, last, rfl⟩ := entries.eq_nil_or_concat
  · simp [stripLast]
  · rw [List.concat_eq_append] at hentries ⊢
    obtain ⟨hlast, hcomma⟩ := (hentries last (by simp)).2.stripComma []
    rw [stripLast_concat, List.dropLast_concat, List.getLast?_concat]
    refine ⟨by simp [hlast], fun entry hentry => (hentries entry (by simp [hentry])).1, hcomma⟩

/-- The entries that do not name the protocol are left in order, the last one without its comma if the protocol has none
to take along. -/
theorem map_bare_pruneFrom (carried : Option Text)
    (hlast : ∀ entry ∈ entries, isProtocolEntry entry = true → entry.last?.any (·.kind == .comma) = entry.endsInComma)
    (hcommaed : ∀ entry ∈ entries.dropLast, entry.endsInComma = true)
    (hkept : pruneFrom reversed carried entries = .kept left) :
    left.map bare =
      (if endsUncommaed entries then stripLast (reversed.reverse ++ entries.filter (!isProtocolEntry ·))
        else reversed.reverse ++ entries.filter (!isProtocolEntry ·)).map bare := by
  induction entries generalizing reversed carried with
  | nil =>
      rw [pruneFrom] at hkept
      split at hkept
      next => cases hkept
      next =>
        obtain rfl := Pruned.kept.inj hkept
        simp [endsUncommaed]
  | cons entry rest ih =>
      have hrest := fun e he => hlast e (List.mem_cons_of_mem entry he)
      have hrest' : ∀ e ∈ rest.dropLast, e.endsInComma = true := by
        cases rest with
        | nil => simp
        | cons next rest => exact fun e he => hcommaed e (by simp [he])
      rw [pruneFrom] at hkept
      cases hentry : isProtocolEntry entry with
      | false =>
          obtain ⟨entry', hdelivered, hbare⟩ := deliver_singleton carried entry
          simp only [hentry, Bool.false_eq_true, if_false, hdelivered, List.reverse_singleton, List.singleton_append] at hkept
          have hothers : ((entry' :: reversed).reverse ++ rest.filter (!isProtocolEntry ·)).map bare =
              (reversed.reverse ++ (entry :: rest).filter (!isProtocolEntry ·)).map bare := by simp [hentry, hbare]
          rw [ih none hrest hrest' hkept, endsUncommaed_cons (by simp [hentry])]
          split
          next => exact map_bare_stripLast hothers
          next => exact hothers
      | true =>
          have hothers : (entry :: rest).filter (!isProtocolEntry ·) = rest.filter (!isProtocolEntry ·) := by simp [hentry]
          simp only [hentry, if_true, hlast entry (by simp) hentry] at hkept
          cases hcomma : entry.endsInComma with
          | true =>
              simp only [hcomma, if_true] at hkept
              rw [ih _ hrest hrest' hkept, endsUncommaed_cons (by simp [hcomma]), hothers]
          | false =>
              -- Only the last entry can lack a comma, so nothing comes behind it.
              obtain rfl : rest = [] := by
                cases rest with
                | nil => rfl
                | cons next rest => exact absurd (hcommaed entry (by simp)) (by simp [hcomma])
              simp only [hcomma, Bool.false_eq_true, if_false] at hkept
              cases reversed with
              | nil => cases hkept
              | cons before earlier =>
                  simp only [pruneFrom, List.isEmpty_cons, Bool.false_eq_true, if_false] at hkept
                  obtain rfl := Pruned.kept.inj hkept
                  simp [endsUncommaed, hentry, hcomma, bare_stripComma_eq rfl _ []]

/-- What is left of the entries of a clause without the protocol: the others in order, divided by commas, with a comma at
the end if there was one. -/
structure KeepsOthers (names : List Text) (entries kept : List Tree) : Prop where
  others : kept.map commaless = (entries.filter (!namesProtocol ·)).map fun entry => commaless (migrate names entry)
  separated : ∀ entry ∈ kept.dropLast, entry.endsInComma = true
  ending : kept ≠ [] → kept.getLast?.any (·.endsInComma) = entries.getLast?.any (·.endsInComma)

theorem KeepsOthers.congr {kept : List Tree} (hbare : left.map bare = kept.map bare) (hkept : KeepsOthers names entries kept) :
    KeepsOthers names entries left where
  others := by
    have hself (trees : List Tree) : (trees.map bare).map commaless = trees.map commaless := by
      rw [List.map_map]
      exact List.map_congr_left fun entry _ => commaless_congr (bare_bare entry)
    rw [← hself, hbare, hself, hkept.others]
  separated := by
    intro entry hentry
    have hmem : entry.bare ∈ kept.dropLast.map bare := by
      rw [List.map_dropLast, ← hbare, ← List.map_dropLast]
      exact List.mem_map_of_mem hentry
    obtain ⟨entry', hentry', hsame⟩ := List.mem_map.mp hmem
    rw [← endsInComma_congr hsame, hkept.separated entry' hentry']
  ending := by
    intro hsome
    have hself (trees : List Tree) : (trees.map bare).getLast?.any (·.endsInComma) = trees.getLast?.any (·.endsInComma) := by
      rw [List.getLast?_map, Option.any_map]
      congr 1
      funext entry
      exact endsInComma_bare entry
    rw [← hself, hbare, hself, hkept.ending]
    rintro rfl
    exact hsome (by simpa using hbare)

theorem AreEntries.filter_migrate (hentries : AreEntries entries) :
    (entries.map (migrate names)).filter (!isProtocolEntry ·) = (entries.filter (!namesProtocol ·)).map (migrate names) := by
  rw [List.filter_map]
  congr 1
  refine List.filter_congr fun entry hentry => ?_
  rw [Function.comp_apply, hentries.isProtocolEntry_migrate hentry]

/-- Only the last entry that is left can end otherwise than the entry it was. -/
theorem AreEntries.keepsOthers (hentries : AreEntries entries) :
    KeepsOthers names entries
      (if lacksComma entries then stripLast ((entries.filter (!namesProtocol ·)).map (migrate names))
        else (entries.filter (!namesProtocol ·)).map (migrate names)) := by
  obtain rfl | ⟨front, last, rfl⟩ := entries.eq_nil_or_concat
  · exact ⟨rfl, by simp [lacksComma], by simp [lacksComma]⟩
  rw [List.concat_eq_append] at hentries ⊢
  have hfront : ∀ entry ∈ (front.filter (!namesProtocol ·)).map (migrate names),
      entry.endsInComma = true ∧ IsListed entry := by
    intro entry' hentry'
    obtain ⟨entry, hentry, rfl⟩ := List.mem_map.mp hentry'
    have hmem : entry ∈ front := (List.mem_filter.mp hentry).1
    have hwhole : entry ∈ front ++ [last] := List.mem_append_left _ hmem
    rw [hentries.endsInComma_migrate hwhole]
    exact ⟨hentries.commaed entry (by rwa [List.dropLast_concat]), hentries.isListed_migrate hwhole⟩
  have hlacks : lacksComma (front ++ [last]) = (namesProtocol last && !last.endsInComma) := by simp [lacksComma]
  rw [List.filter_append, List.map_append, hlacks]
  cases hlast : namesProtocol last with
  | false =>
      have hself : [last].filter (!namesProtocol ·) = [last] := by simp [hlast]
      rw [hself]
      refine ⟨by simp [Function.comp_def, hself], ?_, ?_⟩
      · intro entry hentry
        exact (hfront entry (by simpa using hentry)).1
      · intro _
        simpa using hentries.endsInComma_migrate (by simp)
  | true =>
      have hgone : [last].filter (!namesProtocol ·) = [] := by simp [hlast]
      rw [hgone, List.map_nil, List.append_nil]
      cases hcomma : last.endsInComma with
      | true =>
          refine ⟨by simp [Function.comp_def, hgone], ?_, ?_⟩
          · intro entry hentry
            exact (hfront entry (List.dropLast_subset _ hentry)).1
          · intro hsome
            have hmem := hfront _ (List.getLast_mem hsome)
            rw [List.getLast?_eq_getLast_of_ne_nil hsome]
            simpa [hcomma] using hmem.1
      | false =>
          obtain ⟨hothers, hseparated, hending⟩ := commaless_stripLast hfront
          refine ⟨?_, hseparated, fun _ => ?_⟩
          · simpa [Function.comp_def, hgone] using hothers
          · simpa [hcomma] using hending

theorem AreEntries.keepsOthers_prune (hentries : AreEntries entries)
    (hkept : prune (entries.map (migrate names)) = .kept left) : KeepsOthers names entries left := by
  have hbare := map_bare_pruneFrom none hentries.last?_migrate hentries.commaed_migrate hkept
  rw [hentries.endsUncommaed_migrate, hentries.filter_migrate, List.reverse_nil, List.nil_append] at hbare
  exact hentries.keepsOthers.congr hbare

theorem AreEntries.keepsOthers_of_none (hentries : AreEntries entries) (hnone : entries.any namesProtocol = false) :
    KeepsOthers names entries (entries.map (migrate names)) := by
  rw [List.any_eq_false] at hnone
  have hall : entries.filter (!namesProtocol ·) = entries :=
    List.filter_eq_self.mpr fun entry hentry => by simpa using hnone entry hentry
  have hlacks : lacksComma entries = false := by
    cases hlast : entries.getLast? with
    | none => simp [lacksComma, hlast]
    | some last => simp [lacksComma, hlast, hnone last (List.mem_of_getLast? hlast)]
  have hkeeps : KeepsOthers names entries _ := hentries.keepsOthers
  rwa [hlacks, hall] at hkeeps

/-! ### What a class becomes -/

/-- A member of a class without the wrapper of published properties. -/
def withoutPublished : Tree → Tree
  | .node .variableDecl (.node .attributes found :: rest) =>
    .node .variableDecl (.node .attributes (found.filter (!isNamed publishedName ·)) :: rest)
  | t => t

theorem bare_unpublish_eq (t : Tree) : (unpublish t).bare = (withoutPublished t).bare := by
  rw [unpublish]
  split
  next hvariables =>
    obtain ⟨children, rfl⟩ := exists_of_is hvariables
    unfold withoutPublished
    split
    next found rest heq =>
      obtain ⟨-, rfl⟩ := node.inj heq
      obtain ⟨kept, behind, hdropped, hkept, hbehind⟩ := dropAttributes_eq (isNamed publishedName) .variableDecl found rest
      rw [hdropped]
      simp [hkept, hbehind]
    next hother =>
      unfold dropAttributes
      split
      next found rest heq =>
        obtain ⟨rfl, rfl⟩ := node.inj heq
        exact absurd rfl (hother found rest)
      next => rfl
  next hother =>
    unfold withoutPublished
    split
    next => simp at hother
    next => rfl

theorem isPlain_congr {name : Text} (hbare : s.bare = t.bare) : IsPlain name s ↔ IsPlain name t := by
  rw [← attributeName?_eq_some_iff, ← attributeName?_bare, hbare, attributeName?_bare, attributeName?_eq_some_iff]

/-- A child of a tree has its like among the children of a tree that is the same trivia apart. -/
theorem exists_childWith_of_bare {label : Label} {child : Tree} (hbare : s.bare = t.bare) (hchild : child ∈ s.childrenWith label) :
    ∃ child' ∈ t.childrenWith label, child.bare = child'.bare := by
  obtain ⟨hmem, hlabel⟩ := List.mem_filter.mp hchild
  have hmem' : child.bare ∈ t.children.map bare := by
    rw [← children_bare, ← hbare, children_bare]
    exact List.mem_map_of_mem hmem
  obtain ⟨child', hchild', hsame⟩ := List.mem_map.mp hmem'
  exact ⟨child', List.mem_filter.mpr ⟨hchild', by rw [← is_bare, hsame, is_bare, hlabel]⟩, hsame.symm⟩

theorem HasPlain.congr {name : Text} (hbare : s.bare = t.bare) (hplain : HasPlain name s) : HasPlain name t := by
  obtain ⟨attributes, hattributes, attr, hattr, hname⟩ := hplain
  obtain ⟨attributes', hattributes', hsame⟩ := exists_childWith_of_bare hbare hattributes
  obtain ⟨attr', hattr', hsame'⟩ := exists_childWith_of_bare hsame hattr
  exact ⟨attributes', hattributes', attr', hattr', (isPlain_congr hsame').mp hname⟩

/-- The attributes of a migrated declaration of variables are all in front. -/
theorem exists_migrate_variableDecl (names : List Text) {children : List Tree} (ht : Shaped (.node .variableDecl children)) :
    ∃ found rest, migrate names (.node .variableDecl children) = .node .variableDecl (.node .attributes found :: rest) ∧
      ∀ t ∈ rest, t.is .attributes = false := by
  obtain ⟨found, modifiers, keyword, bindings, rfl, -, hbindings⟩ := ht.admits
  have hrest : ∀ t ∈ (Tree.node .modifiers modifiers :: .leaf keyword :: bindings).map (migrate names),
      t.is .attributes = false := by
    intro t' ht'
    obtain ⟨t, hmem, rfl⟩ := List.mem_map.mp ht'
    rw [is_migrate]
    rcases List.mem_cons.mp hmem with rfl | hmem
    · rfl
    rcases List.mem_cons.mp hmem with rfl | hmem
    · rfl
    · obtain ⟨parts, rfl⟩ := exists_of_is (hbindings t hmem)
      rfl
  have hdrop (found rest : List Tree) (hrest : ∀ t ∈ rest, t.is .attributes = false) :
      ∃ found' rest', dropAttributes isErased (.node .variableDecl (.node .attributes found :: rest)) =
        .node .variableDecl (.node .attributes found' :: rest') ∧ ∀ t ∈ rest', t.is .attributes = false := by
    obtain ⟨kept, behind, hdropped, -, hbehind⟩ := dropAttributes_eq isErased .variableDecl found rest
    refine ⟨kept, behind, hdropped, fun t ht => ?_⟩
    obtain ⟨t', ht', hsame⟩ := List.mem_map.mp (hbehind ▸ List.mem_map_of_mem ht)
    rw [← is_bare, ← hsame, is_bare, hrest t' ht']
  rw [migrate_node, migrateNode, migrateVariables, List.map_cons, migrate_node_of_not_mem .attributes (by decide)]
  obtain ⟨-, heq⟩ | ⟨target, binding, bound, -, -, -, -, heq⟩ := migrateEnvironment_cases .variableDecl
    (found.map (migrate names)) ((Tree.node .modifiers modifiers :: .leaf keyword :: bindings).map (migrate names))
  · rw [heq]
    exact hdrop _ _ hrest
  · rw [heq]
    refine hdrop _ _ (forall_mem_updateFirst hrest fun t ht => ?_)
    have htyped : isPlainlyTyped t = true := List.find?_some ht
    obtain ⟨parts, rfl⟩ := exists_of_is (Bool.and_eq_true_iff.mp htyped).1
    unfold dropTypeClause
    split
    next heq _ =>
      obtain ⟨rfl, -⟩ := node.inj heq
      rfl
    next => rfl

theorem is_withoutPublished {label : Label} (t : Tree) : (withoutPublished t).is label = t.is label := by
  unfold withoutPublished
  split <;> rfl

/-- A migrated member of a class that is converted is not published. -/
theorem not_hasPlain_withoutPublished {member : Tree} (ht : member.Shaped)
    (hvariables : (withoutPublished (migrate names member)).is .variableDecl = true) :
    ¬ HasPlain publishedName (withoutPublished (migrate names member)) := by
  rw [is_withoutPublished, is_migrate] at hvariables
  obtain ⟨children, rfl⟩ := exists_of_is hvariables
  obtain ⟨found, rest, hmigrated, hrest⟩ := exists_migrate_variableDecl names ht
  rw [hmigrated, withoutPublished]
  rintro ⟨attributes, hattributes, attr, hattr, hname⟩
  obtain ⟨hmem, hlabel⟩ := List.mem_filter.mp hattributes
  rcases List.mem_cons.mp hmem with rfl | hmem
  · have hkept := (List.mem_filter.mp (List.mem_filter.mp hattr).1).2
    rw [← attributeName?_eq_some_iff] at hname
    simp [isNamed, hname] at hkept
  · simp [hrest attributes hmem] at hlabel

namespace ClassParts

variable {p q r : ClassParts}

/-- The class names the protocol, or it has one of the names. -/
def IsCalled (names : List Text) (p : ClassParts) : Prop :=
  (∃ entry ∈ p.entries, namesProtocol entry = true) ∨ p.name.text ∈ names

/-- The inheritance clause names nothing but the protocol, always with a comma. -/
def IsDangling (p : ClassParts) : Prop :=
  p.entries ≠ [] ∧ ∀ entry ∈ p.entries, namesProtocol entry = true ∧ entry.endsInComma = true

theorem isConverted_iff : isConverted names p.trees = true ↔ p.IsCalled names ∧ ¬ p.IsDangling := by
  rw [isConverted_eq, IsCalled, IsDangling]
  cases hany : p.entries.any namesProtocol with
  | true =>
      obtain ⟨entry, hentry, hnames⟩ := List.any_eq_true.mp hany
      have hsome : p.entries ≠ [] := List.ne_nil_of_mem hentry
      have hcalled : ∃ entry ∈ p.entries, namesProtocol entry = true := ⟨entry, hentry, hnames⟩
      simp [hsome, hcalled]
  | false =>
      rw [List.any_eq_false] at hany
      have huncalled : ¬ ∃ entry ∈ p.entries, namesProtocol entry = true := fun ⟨entry, hentry, hnames⟩ =>
        hany entry hentry hnames
      have hdangling : ¬ (p.entries ≠ [] ∧ ∀ entry ∈ p.entries, namesProtocol entry = true ∧ entry.endsInComma = true) := by
        rintro ⟨hsome, hall⟩
        obtain ⟨entry, hentry⟩ := List.exists_mem_of_ne_nil _ hsome
        exact hany entry hentry (hall entry hentry).1
      simp [huncalled, hdangling]

/-- The class `r` is what the class `p` becomes when it is converted, trivia apart. -/
structure IsConversion (names : List Text) (p r : ClassParts) : Prop where
  /-- A class that is observable keeps its attributes. -/
  marked : (∃ attr ∈ p.attributes, IsPlain "Observable".toList attr) →
    r.attributes.map bare = (p.attributes.map (migrate names)).map bare
  /-- Any other class gets the attribute that makes it observable in front of them. -/
  unmarked : (¬ ∃ attr ∈ p.attributes, IsPlain "Observable".toList attr) →
    r.attributes.map bare =
      .node .attr [.leaf { kind := .atSign, text := ['@'] },
        .node .typeIdentifier [.leaf { kind := .identifier, text := "Observable".toList }]] ::
      (p.attributes.map (migrate names)).map bare
  /-- Modifiers, keyword, name and generic parameters stay. -/
  head : r.head.tail.map bare = (p.head.tail.map (migrate names)).map bare
  /-- The protocol goes from the inheritance clause. -/
  entries : KeepsOthers names p.entries r.entries
  colon : ∀ parts ∈ r.clause, parts.head?.map bare = (p.clause.bind List.head?).map bare
  /-- The clause goes if there was one, and the protocol was all that it named. -/
  clauseless : r.clause = none ↔ p.clause = none ∨ p.entries ≠ [] ∧ ∀ entry ∈ p.entries, namesProtocol entry = true
  requirements : (Tree.optional .whereClause r.requirements).map bare =
    ((Tree.optional .whereClause p.requirements).map (migrate names)).map bare
  members : r.members.map bare = (p.members.map fun member => withoutPublished (migrate names member)).map bare
  unpublished : ∀ member ∈ r.members, member.is .variableDecl = true → ¬ HasPlain "Published".toList member

/-- The parts of two classes are the same trivia apart. -/
structure Alike (p q : ClassParts) : Prop where
  attributes : p.attributes.map bare = q.attributes.map bare
  head : p.head.tail.map bare = q.head.tail.map bare
  clause : p.clause.map (·.map bare) = q.clause.map (·.map bare)
  requirements : (Tree.optional .whereClause p.requirements).map bare = (Tree.optional .whereClause q.requirements).map bare
  members : p.members.map bare = q.members.map bare

theorem exists_optional_of_bare {label : Label} {parts : Option (List Tree)} {trees : List Tree}
    (hbare : trees.map bare = (Tree.optional label parts).map bare) :
    ∃ parts', trees = Tree.optional label parts' ∧ parts'.map (·.map bare) = parts.map (·.map bare) := by
  cases parts with
  | none => exact ⟨none, by simpa [Tree.optional] using hbare, rfl⟩
  | some children =>
      have hsingle : trees.map bare = [.node label (children.map bare)] := by simpa [Tree.optional] using hbare
      obtain ⟨t, rfl, ht⟩ := List.map_eq_singleton_iff.mp hsingle
      obtain ⟨children', rfl, hchildren⟩ := exists_of_bare_eq ht
      exact ⟨some children', rfl, by simp [hchildren]⟩

theorem exists_leaf_of_bare {token : Token} (hbare : t.bare = (Tree.leaf token).bare) :
    ∃ token', t = .leaf token' ∧ token'.kind = token.kind := by
  cases t with
  | leaf token' => exact ⟨token', rfl, (Token.mk.inj (leaf.inj hbare)).1⟩
  | node label children => simp at hbare
  | absent => simp at hbare

/-- A tree that is a class trivia apart is a class, with parts that are the same trivia apart. -/
theorem exists_of_bare (hbare : t.bare = (Tree.node .typeDecl q.trees).bare) :
    ∃ r : ClassParts, t = .node .typeDecl r.trees ∧ r.Alike q := by
  obtain ⟨children, rfl, hchildren⟩ := exists_of_bare_eq (hbare.trans bare_node)
  rw [trees, ClassParts.head, tail] at hchildren
  simp only [List.cons_append, List.map_cons, List.map_append] at hchildren
  obtain ⟨first, rest, rfl, hfirst, hrest⟩ := List.map_eq_cons_iff.mp hchildren
  obtain ⟨attributes, rfl, hattributes⟩ := exists_of_bare_eq (hfirst.trans bare_node)
  obtain ⟨second, rest₂, rfl, hsecond, hrest₂⟩ := List.map_eq_cons_iff.mp hrest
  obtain ⟨modifiers, rfl, hmodifiers⟩ := exists_of_bare_eq (hsecond.trans bare_node)
  obtain ⟨third, rest₃, rfl, hthird, hrest₃⟩ := List.map_eq_cons_iff.mp hrest₂
  obtain ⟨keyword, rfl, hkind⟩ := exists_leaf_of_bare hthird
  obtain ⟨fourth, rest₄, rfl, hfourth, hrest₄⟩ := List.map_eq_cons_iff.mp hrest₃
  obtain ⟨name, rfl, -⟩ := exists_leaf_of_bare hfourth
  obtain ⟨fifth, rest₅, rfl, hfifth, hrest₅⟩ := List.map_eq_append_iff.mp hrest₄
  obtain ⟨params, rfl, -⟩ := exists_optional_of_bare hfifth
  obtain ⟨sixth, rest₆, rfl, hsixth, hrest₆⟩ := List.map_eq_append_iff.mp hrest₅
  obtain ⟨clause, rfl, hclause⟩ := exists_optional_of_bare hsixth
  obtain ⟨seventh, rest₇, rfl, hseventh, hrest₇⟩ := List.map_eq_append_iff.mp hrest₆
  obtain ⟨requirements, rfl, -⟩ := exists_optional_of_bare hseventh
  obtain ⟨body, rfl, hbody⟩ := List.map_eq_singleton_iff.mp hrest₇
  obtain ⟨members, rfl, hmembers⟩ := exists_of_bare_eq (hbody.trans bare_node)
  refine ⟨⟨attributes, modifiers, keyword, name, params, clause, requirements, members, hkind.trans q.isClass⟩, ?_,
    hattributes, ?_, hclause, hseventh, hmembers⟩
  · simp [trees, ClassParts.head, tail]
  · simp only [ClassParts.head, List.tail_cons, List.map_cons, hsecond, hthird, hfourth, hfifth]

theorem Alike.map_bare_entries (halike : r.Alike q) : r.entries.map bare = q.entries.map bare := by
  have hentries (p : ClassParts) : p.entries.map bare = ((p.clause.map (·.map bare)).map List.tail).getD [] := by
    cases hclause : p.clause <;> simp [ClassParts.entries, hclause]
  rw [hentries, halike.clause, hentries]

theorem IsConversion.congr (halike : r.Alike q) (hq : p.IsConversion names q) : p.IsConversion names r where
  marked := fun hmarked => halike.attributes.trans (hq.marked hmarked)
  unmarked := fun hunmarked => halike.attributes.trans (hq.unmarked hunmarked)
  head := halike.head.trans hq.head
  entries := hq.entries.congr halike.map_bare_entries
  colon := by
    intro parts hparts
    have hsame : q.clause.map (·.map bare) = some (parts.map bare) := by rw [← halike.clause, hparts]; rfl
    obtain ⟨parts', hparts', hbare⟩ := Option.map_eq_some_iff.mp hsame
    rw [← hq.colon parts' hparts', ← List.head?_map, ← hbare, List.head?_map]
  clauseless := by
    rw [← hq.clauseless, ← Option.map_eq_none_iff (f := (·.map bare)), halike.clause, Option.map_eq_none_iff]
  requirements := halike.requirements.trans hq.requirements
  members := halike.members.trans hq.members
  unpublished := by
    intro member hmember hvariables hplain
    obtain ⟨member', hmember', hsame⟩ := List.mem_map.mp (halike.members ▸ List.mem_map_of_mem hmember)
    refine hq.unpublished member' hmember' ?_ (hplain.congr hsame.symm)
    rw [← is_bare, hsame, is_bare, hvariables]

/-- What becomes of the inheritance clause of a class that is converted. -/
theorem clause_of_isConverted (ht : Shaped (.node .typeDecl p.trees)) {clause : Option (List Tree)}
    (hclause : p.entries.any namesProtocol = false ∧ clause = (p.migrated names).clause ∨
      ∃ colon entries, (p.migrated names).clause = some (colon :: entries) ∧
        ((∃ trailing, prune entries = .emptied trailing) ∧ clause = none ∨
          ∃ kept, prune entries = .kept kept ∧ clause = some (colon :: kept))) :
    KeepsOthers names p.entries ((clause.map List.tail).getD []) ∧
      (∀ parts ∈ clause, parts.head?.map bare = (p.clause.bind List.head?).map bare) ∧
      (clause = none ↔ p.clause = none ∨ p.entries ≠ [] ∧ ∀ entry ∈ p.entries, namesProtocol entry = true) := by
  cases hparts : p.clause with
  | none =>
      have hentries : p.entries = [] := by simp [ClassParts.entries, hparts]
      have hmigrated : (p.migrated names).clause = none := by simp [migrated, hparts]
      obtain ⟨-, rfl⟩ | ⟨colon, entries, hsome, -⟩ := hclause
      · rw [hmigrated, hentries]
        exact ⟨⟨rfl, by simp, by simp⟩, by simp, by simp⟩
      · cases hmigrated.symm.trans hsome
  | some parts =>
      obtain ⟨colon, entries, rfl, hentries⟩ := Shaped.areEntries (shaped_clause ht parts hparts)
      have heq : p.entries = entries := by simp [ClassParts.entries, hparts]
      have hmigrated : (p.migrated names).clause = some (.leaf colon :: entries.map (migrate names)) := by
        simp [migrated, hparts]
      rw [heq] at hclause ⊢
      rw [hmigrated] at hclause
      obtain ⟨hnone, rfl⟩ | ⟨colon', entries', hsome, hpruned⟩ := hclause
      · refine ⟨hentries.keepsOthers_of_none hnone, by simp, ?_⟩
        rw [List.any_eq_false] at hnone
        simp only [reduceCtorEq, false_or, false_iff, not_and]
        intro hsome hall
        obtain ⟨entry, hentry⟩ := List.exists_mem_of_ne_nil _ hsome
        exact hnone entry hentry (hall entry hentry)
      · obtain ⟨rfl, rfl⟩ := List.cons.inj (Option.some.inj hsome)
        have hleaves : (prune (entries.map (migrate names))).Leaves [] (entries.map (migrate names)) := hentries.prune_leaves
        obtain ⟨⟨trailing, hemptied⟩, rfl⟩ | ⟨kept, hkept, rfl⟩ := hpruned
        · rw [hemptied, Pruned.Leaves, hentries.all_isProtocolEntry_migrate, hentries.endsUncommaed_migrate] at hleaves
          obtain ⟨-, hall, hlacks⟩ := hleaves
          rw [List.all_eq_true] at hall
          have hsome : entries ≠ [] := by
            rintro rfl
            cases hlacks
          have hothers : entries.filter (!namesProtocol ·) = [] := by simpa using hall
          exact ⟨⟨by simp [hothers], by simp, by simp⟩, by simp, ⟨fun _ => .inr ⟨hsome, hall⟩, fun _ => rfl⟩⟩
        · rw [hkept, Pruned.Leaves, hentries.all_isProtocolEntry_migrate] at hleaves
          have hother : ¬ ∀ entry ∈ entries, namesProtocol entry = true := by simpa using hleaves.1
          exact ⟨hentries.keepsOthers_prune hkept, by simp, by simp [hother]⟩

theorem any_isNamed_iff {name : Text} {attributes : List Tree} :
    attributes.any (isNamed name) = true ↔ ∃ attr ∈ attributes, IsPlain name attr := by
  simp only [List.any_eq_true, isNamed, beq_iff_eq, attributeName?_eq_some_iff]

/-- A class that is converted becomes what it should. -/
theorem exists_conversion (ht : Shaped (.node .typeDecl p.trees)) (hconverted : isConverted names p.trees = true) :
    ∃ r : ClassParts, migrate names (.node .typeDecl p.trees) = .node .typeDecl r.trees ∧ p.IsConversion names r := by
  obtain ⟨attributes, clause, hbare, hmarks, hclause⟩ := exists_migrate_of_isConverted ht hconverted
  obtain ⟨r, hr, halike⟩ := exists_of_bare hbare
  obtain ⟨hentries, hcolon, hclauseless⟩ := clause_of_isConverted ht hclause
  have hobservable : (p.migrated names).attributes.any (isNamed observableName) = true ↔
      ∃ attr ∈ p.attributes, IsPlain "Observable".toList attr := by
    rw [migrated, any_observable_migrate (shaped_attributes ht), any_isNamed_iff]
    rfl
  have hmembers : ((p.migrated names).members.map unpublish).map bare =
      (p.members.map fun member => withoutPublished (migrate names member)).map bare := by
    simp [migrated, bare_unpublish_eq]
  refine ⟨r, hr, IsConversion.congr halike {
    marked := fun hmarked => ?_
    unmarked := fun hunmarked => ?_
    head := ?_
    entries := hentries
    colon := hcolon
    clauseless := hclauseless
    requirements := ?_
    members := hmembers
    unpublished := ?_ }⟩
  · obtain ⟨-, rfl⟩ | ⟨hother, -⟩ := hmarks
    · rfl
    · rw [← hobservable, hother] at hmarked
      cases hmarked
  · obtain ⟨hmarked, -⟩ | ⟨-, head, ending, rfl⟩ := hmarks
    · exact absurd (hobservable.mp hmarked) hunmarked
    · rfl
  · rw [List.map_tail, List.map_tail, List.map_tail, map_migrate_head]
    rfl
  · rw [map_migrate_optional (by decide)]
    rfl
  · intro member hmember hvariables hplain
    obtain ⟨member', hmember', hsame⟩ := List.mem_map.mp (hmembers ▸ List.mem_map_of_mem hmember)
    obtain ⟨original, horiginal, rfl⟩ := List.mem_map.mp hmember'
    have hbody : Shaped (.node .memberBlock p.members) := ht.of_mem (by simp [trees, tail])
    refine not_hasPlain_withoutPublished (hbody.of_mem horiginal) ?_ (hplain.congr hsame.symm)
    rw [← is_bare, hsame, is_bare, hvariables]

end ClassParts

/-- A class is converted just when it should be, and completely; other types only have their parts migrated. And the
types in a migrated tree are the migrations of the types in the original one. -/
theorem classes_converted {limits : Limits} {source : Text} (hread : Tree.ofSource limits source = .ok t) (names : List Text) :
    (∀ decl, Within decl t → decl.is .typeDecl = true →
      (∃ p : ClassParts, decl = .node .typeDecl p.trees ∧
        (p.IsCalled names ∧ ¬ p.IsDangling →
          ∃ r : ClassParts, migrate names decl = .node .typeDecl r.trees ∧ p.IsConversion names r) ∧
        (¬ (p.IsCalled names ∧ ¬ p.IsDangling) → migrate names decl = .node .typeDecl (decl.children.map (migrate names)))) ∨
      ∃ keyword, decl.children[2]? = some (.leaf keyword) ∧ keyword.kind ≠ .classWord ∧
        migrate names decl = .node .typeDecl (decl.children.map (migrate names))) ∧
    ∀ r, Within r (migrate names t) → r.is .typeDecl = true →
      ∃ decl, Within decl t ∧ decl.is .typeDecl = true ∧ r.bare = (migrate names decl).bare := by
  have ht : t.Shaped := Tree.shaped_of_ofSource hread
  refine ⟨fun decl hwithin hlabel => ?_, fun r hwithin hlabel => ?_⟩
  · obtain ⟨children, rfl⟩ := exists_of_is hlabel
    have hdecl := ht.of_within hwithin
    obtain ⟨attributes, modifiers, keyword, name, rest, rfl, hkind⟩ | ⟨p, rfl⟩ := ClassParts.cases_of_shaped hdecl
    · exact .inr ⟨keyword, rfl, by simpa using hkind, migrate_of_not_isClass hkind⟩
    · refine .inl ⟨p, rfl, fun hconverted => ?_, fun hstays => ?_⟩
      · exact ClassParts.exists_conversion hdecl (ClassParts.isConverted_iff.mpr hconverted)
      · rw [← ClassParts.isConverted_iff, Bool.not_eq_true] at hstays
        exact ClassParts.migrate_of_not_isConverted (ClassParts.shaped_clause hdecl) hstays
  · have hother {other : Label} (hne : other ≠ .typeDecl) : r.is other = false := by
      obtain ⟨children, rfl⟩ := exists_of_is hlabel
      simpa using hne.symm
    cases sourced_migrate names ht .self r hwithin with
    | migrated s hs hsame => exact ⟨s, hs, by rw [← is_migrate s, ← is_bare, ← hsame, is_bare, hlabel], hsame⟩
    | unpublished s hs hdeclares hsame =>
        have hvariables : r.is .variableDecl = true := by
          rw [← is_bare, hsame, bare_unpublish_eq, is_bare, is_withoutPublished, is_migrate, hdeclares]
        exact absurd hvariables (by simp [hother])
    | successor hattr => exact absurd hattr (by simp [hother])
    | lookup bound hsame =>
        have hmember : r.is .memberAccess = true := by rw [← is_bare, hsame]; rfl
        exact absurd hmember (by simp [hother])
    | plain hunruled => exact absurd hlabel (by simp [hunruled .typeDecl (by decide)])

/-- A class loses the protocol behind another type, and its published variable; the structure in it and the class with the
dangling clause stay. -/
theorem classes_converted_nested :
    ∃ t, Tree.ofSource .standard ("@A class C<T>: P, ObservableObject where T: Q \x7b\n@Published var x = 1\n" ++
        "struct S: ObservableObject \x7b\x7d\n\x7d\nclass D: ObservableObject, \x7b\x7d\n").toList = .ok t ∧
      (migrate [] t).text = ("@Observable\n@A class C<T>: P where T: Q \x7b\nvar x = 1\n" ++
        "struct S: ObservableObject \x7b\x7d\n\x7d\nclass D: ObservableObject, \x7b\x7d\n").toList ∧
      (∀ decl, Within decl t → decl.is .typeDecl = true →
        (∃ p : ClassParts, decl = .node .typeDecl p.trees ∧
          (p.IsCalled [] ∧ ¬ p.IsDangling →
            ∃ r : ClassParts, migrate [] decl = .node .typeDecl r.trees ∧ p.IsConversion [] r) ∧
          (¬ (p.IsCalled [] ∧ ¬ p.IsDangling) → migrate [] decl = .node .typeDecl (decl.children.map (migrate [])))) ∨
        ∃ keyword, decl.children[2]? = some (.leaf keyword) ∧ keyword.kind ≠ .classWord ∧
          migrate [] decl = .node .typeDecl (decl.children.map (migrate []))) ∧
      ∀ r, Within r (migrate [] t) → r.is .typeDecl = true →
        ∃ decl, Within decl t ∧ decl.is .typeDecl = true ∧ r.bare = (migrate [] decl).bare := by
  have hany : (Tree.ofSource .standard ("@A class C<T>: P, ObservableObject where T: Q \x7b\n@Published var x = 1\n" ++
      "struct S: ObservableObject \x7b\x7d\n\x7d\nclass D: ObservableObject, \x7b\x7d\n").toList).toOption.any
        (fun t => (migrate [] t).text == ("@Observable\n@A class C<T>: P where T: Q \x7b\nvar x = 1\n" ++
          "struct S: ObservableObject \x7b\x7d\n\x7d\nclass D: ObservableObject, \x7b\x7d\n").toList) = true := by
    decide +kernel
  obtain ⟨t, hread, htext⟩ := exists_eq_ok_of_any hany
  exact ⟨t, hread, beq_iff_eq.mp htext, classes_converted hread []⟩

end SwiftObservation.Migration
