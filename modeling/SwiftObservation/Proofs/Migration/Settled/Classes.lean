import SwiftObservation.Proofs.Migration.Following.Classes
import SwiftObservation.Proofs.Migration.Settled.Parts
import SwiftObservation.Proofs.Migration.Settled.Stays

/-!
# Type declarations are settled by migration

A class that is converted has lost the protocol and become observable, and one that is not stays out of the rule's
reach. What is left of an inheritance clause is made of entries that do not name the protocol, some without their comma.
-/

namespace SwiftObservation.Migration

open SwiftObservation.Tree

variable {names : List Text} {shown : Text → Prop} {label : Label} {children : List Tree} {t : Tree}

/-! ### Entries of an inheritance clause -/

theorem isTellable_migrate (ht : Shaped (.node .inheritedType children)) :
    isTellable (migrate names (.node .inheritedType children)) = true := by
  rw [migrate_node_of_not_mem .inheritedType (by decide)]
  obtain ⟨token, rest, rfl⟩ | ⟨token, opener, args, rest, rfl, hopener⟩ | ⟨label, parts, rest, rfl, hlabel⟩ :=
    Shaped.entry_cases ht
  · rfl
  · simp only [List.map_cons, migrate_node_of_not_mem .typeIdentifier (by decide),
      migrate_node_of_not_mem .genericArgs (by decide), migrate_leaf]
    exact hopener
  · obtain ⟨parts', hnode⟩ := exists_migrateNode names label (parts.map (migrate names))
    rw [List.map_cons, migrate_node, hnode]
    cases label <;> first | rfl | exact absurd rfl hlabel

theorem namesProtocol_migrate (ht : Shaped (.node .inheritedType children)) :
    namesProtocol (migrate names (.node .inheritedType children)) = namesProtocol (.node .inheritedType children) := by
  rw [← isProtocolEntry_migrate ht, isProtocolEntry_eq (isTellable_migrate ht)]

/-- A migrated entry begins with a node. -/
theorem exists_bare_migrate (ht : Shaped (.node .inheritedType children)) :
    ∃ label parts rest, (migrate names (.node .inheritedType children)).bare =
      .node .inheritedType (.node label parts :: rest) := by
  obtain ⟨label, inner, comma, rfl, -⟩ := ht.admits
  obtain ⟨inner', hnode⟩ := exists_migrateNode names label (inner.map (migrate names))
  rw [migrate_node_of_not_mem .inheritedType (by decide), List.map_cons, migrate_node, hnode, bare_node, List.map_cons,
    bare_node]
  exact ⟨_, _, _, rfl⟩

theorem inheritedEntries_map_migrate (children : List Tree) :
    inheritedEntries (children.map (migrate names)) = (inheritedEntries children).map (migrate names) := by
  rw [inheritedEntries, find?_is_map_migrate, inheritedEntries]
  cases hclause : children.find? (·.is .inheritance) with
  | none => rfl
  | some clause =>
      have hlabel : clause.is .inheritance = true := by simpa using List.find?_some hclause
      obtain ⟨parts, rfl⟩ := exists_of_is hlabel
      rw [Option.map_some, migrate_node_of_not_mem .inheritance (by decide)]
      simp [Tree.children, List.map_tail]

/-- All entries of a migrated clause can be told from the protocol by their words. -/
theorem all_isTellable_migrate (ht : Shaped (.node .typeDecl children)) :
    (inheritedEntries (children.map (migrate names))).all isTellable = true := by
  rw [inheritedEntries_map_migrate, List.all_map, List.all_eq_true]
  intro entry hentry
  cases hclause : children.find? (·.is .inheritance) with
  | none => simp [inheritedEntries, hclause] at hentry
  | some clause =>
      have hlabel : clause.is .inheritance = true := by simpa using List.find?_some hclause
      obtain ⟨parts, rfl⟩ := exists_of_is hlabel
      obtain ⟨colon, entries, rfl, hentries⟩ := Shaped.areEntries (ht.of_mem (List.mem_of_find?_eq_some hclause))
      rw [inheritedEntries, hclause] at hentry
      obtain ⟨parts, rfl⟩ := exists_of_is (hentries.label entry hentry)
      exact isTellable_migrate (hentries.shaped _ hentry)

/-- A settled entry of an inheritance clause that does not name the protocol. -/
structure Unprotocolled (names : List Text) (shown : Text → Prop) (entry : Tree) : Prop where
  settled : Settled names shown entry
  tellable : isTellable entry = true
  bound : ∃ label parts rest, entry.bare = .node .inheritedType (.node label parts :: rest)
  other : namesProtocol entry = false

theorem Unprotocolled.congr {s : Tree} (hbare : s.bare = t.bare) (hs : Unprotocolled names shown s) : Unprotocolled names shown t := by
  have htellable : isTellable t = true := (eq_of_bare isTellable_asRead hbare).symm.trans hs.tellable
  have hlabel {entry : Tree} (hentry : isTellable entry = true) : entry.is .inheritedType = true :=
    (Bool.and_eq_true_iff.mp hentry).1
  refine ⟨hs.settled.congr hbare, htellable, hbare ▸ hs.bound, ?_⟩
  rw [← namesProtocol_asRead (hlabel htellable), ← asRead_bare, ← hbare, asRead_bare,
    namesProtocol_asRead (hlabel hs.tellable), hs.other]

/-- An entry that begins with a node begins with it without its comma, too. -/
theorem exists_bare_stripComma {inner : Label} {parts rest : List Tree} (hbare : t.bare = .node label (.node inner parts :: rest))
    (trailing : Text) : ∃ more, more ⊆ rest ∧ (stripComma trailing t).bare = .node label (.node inner parts :: more) := by
  obtain ⟨children, rfl, hchildren⟩ := exists_of_bare_eq hbare
  obtain ⟨more, hmore, hsubset⟩ := withoutComma_cons_node inner parts rest
  exact ⟨more, hsubset, by rw [bare_stripComma, hchildren, hmore]⟩

theorem Unprotocolled.stripComma (ht : Unprotocolled names shown t) (trailing : Text) :
    Unprotocolled names shown (stripComma trailing t) := by
  obtain ⟨label, parts, rest, hbare⟩ := ht.bound
  obtain ⟨more, hsubset, hstripped⟩ := exists_bare_stripComma hbare trailing
  have hwhole : Unprotocolled names shown (.node .inheritedType (.node label parts :: rest)) := by
    rw [← hbare]
    exact ht.congr (bare_bare t).symm
  -- Only the first child of an entry tells whether it is the protocol.
  have hpart : Unprotocolled names shown (.node .inheritedType (.node label parts :: more)) := by
    refine ⟨.node trivial ?_, ?_, ⟨_, _, _, rfl⟩, ?_⟩
    · exact settledAll_cons.mpr ⟨hwhole.settled.of_mem (by simp), fun s hs =>
        hwhole.settled.of_mem (List.mem_cons_of_mem _ (hsubset hs))⟩
    · have htellable := hwhole.tellable
      rw [isTellable, Tree.children] at htellable ⊢
      split <;> simp_all
    · have hother := hwhole.other
      rw [namesProtocol, Tree.children] at hother ⊢
      split <;> simp_all
  refine hpart.congr ?_
  rw [← hstripped, bare_bare]

/-- What holds of the entries that do not name the protocol, whatever their trivia and with or without their comma, holds
of all entries that are left of a clause. -/
theorem pruneFrom_holds {P : Tree → Prop} (hbare : ∀ s t : Tree, s.bare = t.bare → P s → P t)
    (hstrip : ∀ (t : Tree) (trailing : Text), P t → P (stripComma trailing t)) {entries : List Tree}
    (hentries : ∀ t ∈ entries, isProtocolEntry t = false → P t) (reversed : List Tree) (hreversed : ∀ t ∈ reversed, P t)
    (carried : Option Text) : (pruneFrom reversed carried entries).Holds P := by
  induction entries generalizing reversed carried with
  | nil =>
      rw [pruneFrom]
      split
      next => trivial
      next => exact fun t ht => hreversed t (List.mem_reverse.mp ht)
  | cons entry rest ih =>
      have hrest := fun t ht => hentries t (List.mem_cons_of_mem entry ht)
      rw [pruneFrom]
      cases hentry : isProtocolEntry entry with
      | true =>
          simp only [if_true]
          split
          next => exact ih hrest reversed hreversed _
          next =>
            cases reversed with
            | nil => trivial
            | cons before earlier =>
                obtain ⟨hbefore, hearlier⟩ := List.forall_mem_cons.mp hreversed
                exact ih hrest _ (List.forall_mem_cons.mpr ⟨hstrip before _ hbefore, hearlier⟩) carried
      | false =>
          obtain ⟨entry', hdelivered, hsame⟩ := deliver_singleton carried entry
          simp only [Bool.false_eq_true, if_false, hdelivered, List.reverse_singleton, List.singleton_append]
          have hkept : P entry' := hbare entry entry' hsame.symm (hentries entry (by simp) hentry)
          exact ih hrest _ (List.forall_mem_cons.mpr ⟨hkept, hreversed⟩) none

/-! ### Classes that are converted -/

theorem not_isPublished_unpublish (t : Tree) : isPublished (unpublish t) = false := by
  rw [unpublish]
  split
  next hvariables =>
    obtain ⟨children, rfl⟩ := exists_of_is hvariables
    by_cases hattributes : ∃ found rest, children = .node .attributes found :: rest
    · obtain ⟨found, rest, rfl⟩ := hattributes
      obtain ⟨kept, behind, hdropped, hbare, -⟩ := dropAttributes_eq (isNamed publishedName) .variableDecl found rest
      have hnone : kept.any (isNamed publishedName) = false := by
        rw [List.any_eq_false]
        intro attr hattr
        obtain ⟨original, horiginal, hsame⟩ := List.mem_map.mp (hbare ▸ List.mem_map_of_mem hattr)
        rw [← isNamed_bare, ← hsame, isNamed_bare]
        simpa using (List.mem_filter.mp horiginal).2
      rw [hdropped]
      exact Bool.and_eq_false_iff.mpr (.inr hnone)
    · have hsame : dropAttributes (isNamed publishedName) (.node .variableDecl children) = .node .variableDecl children := by
        unfold dropAttributes
        split
        next found rest heq => exact absurd ⟨_, _, (node.inj heq).2⟩ hattributes
        next => rfl
      rw [hsame, isPublished, Tree.children, Bool.and_eq_false_iff]
      refine .inr ?_
      split
      next found rest => exact absurd ⟨_, _, rfl⟩ hattributes
      next => rfl
  next hother => simp [isPublished, hother]

theorem settled_observableAttribute (head : Token) (ending : Text) : Settled names shown (observableAttribute head ending) :=
  .node ⟨rfl, rfl⟩ (settledAll_cons.mpr ⟨.leaf _, by simpa using settled_plainName _⟩)

/-- The attributes of a class with the one that makes it observable in front, unless it is among them. -/
def Marks (found attributes : List Tree) : Prop :=
  found.any (isNamed observableName) = true ∧ attributes = found ∨
    found.any (isNamed observableName) = false ∧ ∃ head ending, attributes = observableAttribute head ending :: found

theorem Marks.any_observable {found attributes : List Tree} (hmarks : Marks found attributes) :
    attributes.any (isNamed observableName) = true := by
  obtain ⟨hobservable, rfl⟩ | ⟨-, head, ending, rfl⟩ := hmarks
  · exact hobservable
  · rfl

/-- A class that is converted, its trivia apart: it has the attribute that makes it observable among its own, and its
members are unpublished. -/
theorem map_bare_convertClass (label : Label) (members : List Tree) {found rest : List Tree} {keyword : Token}
    (hkeyword : .leaf keyword ∈ rest) :
    ∃ attributes, Marks found attributes ∧
      (convertClass (.node .attributes found) (.node .attributes found :: rest ++ [.node label members])).map bare =
        (Tree.node .attributes attributes :: rest ++ [Tree.node label (members.map unpublish)]).map bare := by
  rw [convertClass, unpublishBody_concat]
  split
  next hobservable => exact ⟨found, .inl ⟨hobservable, rfl⟩, rfl⟩
  next hother =>
    have hmem : .leaf keyword ∈ Tree.node .attributes found :: (rest ++ [.node label (members.map unpublish)]) := by
      simp [hkeyword]
    obtain ⟨head, ending, found', rest', hprepended, hbare⟩ := prependObservable_eq (firstOf?_isSome_of_mem hmem)
    rw [List.map_cons, List.map_cons, List.cons.injEq, bare_node, bare_node, node.injEq] at hbare
    refine ⟨observableAttribute head ending :: found, .inr ⟨Bool.eq_false_iff.mpr hother, head, ending, rfl⟩, ?_⟩
    rw [List.cons_append, hprepended]
    simp [hbare.1.2, hbare.2]

/-- A type declaration other than a class only has its parts migrated. -/
theorem migrate_of_not_isClass {attributes modifiers name : Tree} {keyword : Token} {rest : List Tree}
    (hkind : (keyword.kind == .classWord) = false) :
    migrate names (.node .typeDecl (attributes :: modifiers :: .leaf keyword :: name :: rest)) =
      .node .typeDecl ((attributes :: modifiers :: .leaf keyword :: name :: rest).map (migrate names)) := by
  rw [migrate_node, migrateNode]
  simp [migrateType, hkind]

namespace ClassParts

variable {p : ClassParts}

theorem shownNames_trees : shownNames (.node .typeDecl p.trees) = [] := by
  simp only [trees, head, List.cons_append, shownNames_eq, p.isClass]
  rfl

theorem forall_mem_optional {P : Tree → Prop} {parts : Option (List Tree)} (hparts : ∀ children ∈ parts, P (.node label children)) :
    ∀ t ∈ Tree.optional label parts, P t := by
  cases parts with
  | none => simp [Tree.optional]
  | some children => simpa [Tree.optional] using hparts children rfl

/-- The class with its members unpublished, the given attributes and the given inheritance clause. -/
def converted (p : ClassParts) (attributes : List Tree) (clause : Option (List Tree)) : ClassParts :=
  { p with attributes, clause, members := p.members.map unpublish }

/-- A class that is converted is a class again, trivia apart, with whatever inheritance clause is left to it. -/
theorem exists_converted {front : List Tree} (hfront : p.Begins front) {clause : Option (List Tree)}
    (hbare : front.map bare = (p.head ++ Tree.optional .inheritance clause).map bare) :
    ∃ attributes, Marks p.attributes attributes ∧
      (convertClass (.node .attributes p.attributes) (front ++ p.tail)).map bare =
        (p.converted attributes clause).trees.map bare := by
  obtain ⟨rest, rfl, hkeyword⟩ := hfront
  have hmem : .leaf p.keyword ∈ rest ++ Tree.optional .whereClause p.requirements := List.mem_append_left _ hkeyword
  obtain ⟨attributes, hmarks, hconverted⟩ := map_bare_convertClass .memberBlock p.members hmem
  refine ⟨attributes, hmarks, ?_⟩
  have hparts : .node .attributes p.attributes :: rest ++ p.tail = .node .attributes p.attributes ::
      (rest ++ Tree.optional .whereClause p.requirements) ++ [.node .memberBlock p.members] := by simp [tail]
  simp only [head, List.map_cons, List.cons_append, List.cons.injEq, true_and] at hbare
  rw [hparts, hconverted]
  simp [converted, trees, head, tail, hbare]

/-- A class that is converted is settled, whatever inheritance clause without the protocol is left to it. -/
theorem settled_convertClass (hsettled : SettledAll names shown p.trees) {front : List Tree} (hfront : p.Begins front)
    {clause : Option (List Tree)} (hbare : front.map bare = (p.head ++ Tree.optional .inheritance clause).map bare)
    (hclause : ∀ parts ∈ clause, Settled names shown (.node .inheritance parts) ∧
      parts.tail.all isTellable = true ∧ parts.tail.any namesProtocol = false) :
    Settled names shown (.node .typeDecl (convertClass (.node .attributes p.attributes) (front ++ p.tail))) := by
  simp only [trees, head, tail, settledAll_cons, settledAll_append, List.cons_append] at hsettled
  obtain ⟨hattributes, hmodifiers, -, -, hparams, -, hrequirements, hbody, -⟩ := hsettled
  obtain ⟨attributes, hmarks, hconverted⟩ := exists_converted hfront hbare
  have hsettled : SettledAll names shown attributes := by
    obtain ⟨-, rfl⟩ | ⟨-, head, ending, rfl⟩ := hmarks
    · exact fun t ht => hattributes.of_mem ht
    · exact settledAll_cons.mpr ⟨settled_observableAttribute head ending, fun t ht => hattributes.of_mem ht⟩
  refine Settled.congr (s := .node .typeDecl (p.converted attributes clause).trees) (by simp [hconverted])
    (.node ⟨?_, fun _ => ⟨?_, ?_⟩, ?_⟩ ?_)
  · rw [inheritedEntries_eq]
    cases clause with
    | none => rfl
    | some parts => exact (hclause parts rfl).2.1
  · rw [inheritedEntries_eq]
    cases clause with
    | none => rfl
    | some parts => exact (hclause parts rfl).2.2
  · have hmembers : membersOf (p.converted attributes clause).trees = p.members.map unpublish := by
      simp [membersOf, converted, trees, tail, Tree.children]
    rw [isObservable, hmembers]
    simp [converted, trees, head, Tree.children, hmarks.any_observable, not_isPublished_unpublish]
  · rw [shownNames_trees]
    exact List.forall_mem_nil _
  · show SettledAll names shown (p.converted attributes clause).trees
    simp only [converted, trees, head, tail, List.cons_append, settledAll_cons, settledAll_append]
    refine ⟨.node trivial hsettled, hmodifiers, .leaf _, .leaf _, hparams, ?_, hrequirements, .node trivial ?_, settledAll_nil⟩
    · exact forall_mem_optional fun parts hparts => (hclause parts hparts).1
    · intro t ht
      obtain ⟨member, hmember, rfl⟩ := List.mem_map.mp ht
      exact settled_unpublish (hbody.of_mem hmember)

/-- What is left of a class that loses the protocol. -/
theorem leaveProtocol_eq_done {left : List Tree} (hleft : leaveProtocol p.trees = .done left) :
    ∃ front clause, left = front ++ p.tail ∧ p.Begins front ∧
      front.map bare = (p.head ++ Tree.optional .inheritance clause).map bare ∧
      ∃ colon entries, p.clause = some (colon :: entries) ∧
        ((∃ trailing, prune entries = .emptied trailing) ∧ clause = none ∨
          ∃ kept, prune entries = .kept kept ∧ clause = some (colon :: kept)) := by
  cases hclause : p.clause with
  | none => simp [leaveProtocol_of_none hclause] at hleft
  | some parts =>
      cases parts with
      | nil =>
          have hnone : (inheritedEntries p.trees).any isProtocolEntry = false := by
            rw [inheritedEntries_eq, entries, hclause]
            rfl
          simp [leaveProtocol_eq_absent hnone] at hleft
      | cons colon entries =>
          rw [leaveProtocol_of_some hclause] at hleft
          split at hleft
          next =>
            cases hpruned : prune entries with
            | dangling => simp [hpruned] at hleft
            | emptied trailing =>
                rw [hpruned] at hleft
                refine ⟨endWith trailing p.head, none, (Leaving.done.inj hleft).symm, begins_endWith_head trailing, ?_,
                  colon, entries, rfl, .inl ⟨⟨trailing, hpruned⟩, rfl⟩⟩
                simp [map_bare_endWith, Tree.optional]
            | kept kept =>
                rw [hpruned] at hleft
                exact ⟨_, some (colon :: kept), (Leaving.done.inj hleft).symm, begins_head_append _, rfl, colon, entries, rfl,
                  .inr ⟨kept, hpruned, rfl⟩⟩
          next => simp at hleft

theorem any_namesProtocol_migrated (names : List Text) (ht : Shaped (.node .typeDecl p.trees)) :
    (p.migrated names).entries.any namesProtocol = p.entries.any namesProtocol ∧
      ((p.migrated names).entries.all fun entry => namesProtocol entry && entry.endsInComma) =
        p.entries.all fun entry => namesProtocol entry && entry.endsInComma := by
  have hentries : (p.migrated names).entries = p.entries.map (migrate names) := by
    cases hclause : p.clause <;> simp [entries, migrated, hclause, List.map_tail]
  have hsame : ∀ entry ∈ p.entries, namesProtocol (migrate names entry) = namesProtocol entry ∧
      (migrate names entry).endsInComma = entry.endsInComma := by
    intro entry hentry
    cases hclause : p.clause with
    | none => simp [entries, hclause] at hentry
    | some parts =>
        obtain ⟨colon, rest, rfl, hrest⟩ := Shaped.areEntries (shaped_clause ht parts hclause)
        have hmem : entry ∈ rest := by simpa [entries, hclause] using hentry
        obtain ⟨children, rfl⟩ := exists_of_is (hrest.label entry hmem)
        exact ⟨namesProtocol_migrate (hrest.shaped _ hmem), endsInComma_migrate (by decide)⟩
  rw [hentries, List.any_map, List.all_map]
  refine ⟨?_, ?_⟩
  · rw [Bool.eq_iff_iff, List.any_eq_true, List.any_eq_true]
    exact exists_congr fun entry => and_congr_right fun hentry => by rw [Function.comp_apply, (hsame entry hentry).1]
  · rw [Bool.eq_iff_iff, List.all_eq_true, List.all_eq_true]
    exact forall₂_congr fun entry hentry => by rw [Function.comp_apply, (hsame entry hentry).1, (hsame entry hentry).2]

/-- Whether a class is converted is decided by its migrated parts as by the original ones. -/
theorem isConverted_migrated (ht : Shaped (.node .typeDecl p.trees)) :
    isConverted names (p.migrated names).trees = isConverted names p.trees := by
  obtain ⟨hany, hall⟩ := any_namesProtocol_migrated names ht
  rw [isConverted_eq, isConverted_eq, hany, hall, migrated_name]

/-- What is left of a migrated clause is settled and does not name the protocol. -/
theorem settled_kept (ht : Shaped (.node .typeDecl p.trees)) (hsettled : SettledAll names shown (p.migrated names).trees)
    {colon : Tree} {entries kept : List Tree} (hclause : (p.migrated names).clause = some (colon :: entries))
    (hkept : prune entries = .kept kept) :
    Settled names shown (.node .inheritance (colon :: kept)) ∧ kept.all isTellable = true ∧ kept.any namesProtocol = false := by
  have hwhole : Settled names shown (.node .inheritance (colon :: entries)) :=
    hsettled _ (by simp [trees, Tree.optional, hclause])
  have hentries : ∀ entry ∈ entries, isProtocolEntry entry = false → Unprotocolled names shown entry := by
    intro entry hentry hother
    obtain ⟨parts, hparts, hmigrated⟩ := Option.map_eq_some_iff.mp hclause
    obtain ⟨colon', originals, rfl, horiginals⟩ := Shaped.areEntries (shaped_clause ht parts hparts)
    obtain ⟨-, rfl⟩ := List.cons.inj hmigrated
    obtain ⟨original, horiginal, rfl⟩ := List.mem_map.mp hentry
    obtain ⟨children, rfl⟩ := exists_of_is (horiginals.label original horiginal)
    have htellable : isTellable (migrate names (.node .inheritedType children)) = true :=
      isTellable_migrate (horiginals.shaped _ horiginal)
    exact ⟨hwhole.of_mem (by simp [hentry]), htellable, exists_bare_migrate (horiginals.shaped _ horiginal),
      by rw [← isProtocolEntry_eq htellable, hother]⟩
  have hholds := pruneFrom_holds (fun _ _ hbare hs => Unprotocolled.congr hbare hs)
    (fun _ trailing hs => Unprotocolled.stripComma hs trailing) hentries [] (by simp) none
  rw [← prune, hkept] at hholds
  refine ⟨.node trivial ?_, List.all_eq_true.mpr fun entry hentry => (hholds entry hentry).tellable, ?_⟩
  · exact settledAll_cons.mpr ⟨hwhole.of_mem (by simp), fun entry hentry => (hholds entry hentry).settled⟩
  · rw [List.any_eq_false]
    exact fun entry hentry => by simp [(hholds entry hentry).other]

theorem settled_migrate (hin : SettledAll names shown (p.trees.map (migrate names))) (ht : Shaped (.node .typeDecl p.trees)) :
    Settled names shown (migrate names (.node .typeDecl p.trees)) := by
  have hnames : ∀ name ∈ shownNames (.node .typeDecl (p.migrated names).trees), shown name := by
    rw [shownNames_trees]
    exact List.forall_mem_nil _
  have htellable : (inheritedEntries (p.migrated names).trees).all isTellable = true := by
    rw [← map_migrate_trees]
    exact all_isTellable_migrate ht
  cases hconverted : isConverted names p.trees with
  | false =>
      rw [migrate_of_not_isConverted (shaped_clause ht) hconverted]
      rw [map_migrate_trees] at hin ⊢
      refine .node ⟨htellable, fun hother => ?_, hnames⟩ hin
      rw [isConverted_migrated ht, hconverted] at hother
      simp at hother
  | true =>
      rw [map_migrate_trees] at hin
      rw [isConverted_eq] at hconverted
      rw [migrate_node, map_migrate_trees, migrateNode, migrateType_eq]
      obtain ⟨hnone, hleft, -⟩ | ⟨hsome, -, hcommaed⟩ | ⟨-, -, front, hleft, -⟩ := leaveProtocol_cases names (shaped_clause ht)
      · have hname : names.contains (p.migrated names).name.text = true := by simpa [hnone] using hconverted
        simp only [hleft, hname, if_true]
        rw [trees, ← List.append_assoc]
        refine settled_convertClass hin (begins_head_append _) rfl fun parts hparts => ⟨?_, ?_, ?_⟩
        · exact hin _ (by simp [trees, Tree.optional, Option.mem_def.mp hparts])
        · rwa [inheritedEntries_eq, entries, Option.mem_def.mp hparts] at htellable
        · have hentries := (any_namesProtocol_migrated names ht).1.trans hnone
          rwa [entries, Option.mem_def.mp hparts] at hentries
      · simp [hsome, hcommaed, -List.all_eq_true, -List.any_eq_true] at hconverted
      · obtain ⟨front, clause, hfront, hbegins, hbare, colon, entries, hentries, hclause⟩ := leaveProtocol_eq_done hleft
        simp only [hleft, hfront]
        refine settled_convertClass hin hbegins hbare fun parts hparts => ?_
        obtain ⟨-, rfl⟩ | ⟨kept, hkept, rfl⟩ := hclause
        · cases hparts
        · obtain rfl := Option.some.inj hparts
          exact settled_kept ht hin hentries hkept

end ClassParts

end SwiftObservation.Migration
