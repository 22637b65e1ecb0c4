import SwiftObservation.Proofs.Migration.Safety.Attributes

/-!
# Classes and expressions are in reach

The rules for classes reach furthest: into the entries of the inheritance clause, to the part in front of it, into the
members of the body, and to the first token of the whole declaration. Every class that the grammar yields or that a
migration leaves behind has what they reach for.
-/

namespace SwiftObservation.Migration

open SwiftObservation.Tree

variable {label : Label} {children : List Tree} {t : Tree}

/-! ### Inheritance clauses -/

/-- A usable entry of an inheritance clause. -/
def IsEntry (t : Tree) : Prop := t.Usable ∧ t.head = .node .inheritedType

theorem IsEntry.congr {s : Tree} (hbare : s.bare = t.bare) (hs : IsEntry s) : IsEntry t :=
  ⟨hs.1.congr hbare, head_eq_of_bare hbare ▸ hs.2⟩

theorem IsEntry.eq (ht : IsEntry t) :
    ∃ label parts rest, t = .node .inheritedType (.node label parts :: rest) := by
  obtain ⟨husable, hhead⟩ := ht
  obtain ⟨children, rfl⟩ := head_eq_node hhead
  obtain ⟨label, heads, hheads⟩ := husable.serves
  obtain ⟨first, rest, rfl, hfirst, -⟩ := List.map_eq_cons_iff.mp hheads
  obtain ⟨parts, rfl⟩ := head_eq_node hfirst
  exact ⟨label, parts, rest, rfl⟩

theorem IsEntry.isProtocolEntry_checked (ht : IsEntry t) : Checked.isProtocolEntry t = some (isProtocolEntry t) := by
  obtain ⟨label, parts, rest, rfl⟩ := ht.eq
  rfl

/-- An entry that names the protocol begins with that name. -/
theorem IsEntry.exists_first? (ht : IsEntry t) (hprotocol : isProtocolEntry t = true) :
    ∃ first, t.first? = some first := by
  obtain ⟨label, parts, rest, rfl⟩ := ht.eq
  simp only [isProtocolEntry, Tree.children, Bool.and_eq_true, is_node, beq_iff_eq] at hprotocol
  obtain ⟨rfl, -⟩ := hprotocol
  have hbound : Usable (.node .typeIdentifier parts) := ht.1.of_mem (by simp)
  obtain ⟨name, more, rfl⟩ := Usable.typeIdentifier_eq hbound
  exact ⟨name, rfl⟩

theorem IsEntry.stripComma (ht : IsEntry t) (trailing : Text) : IsEntry (stripComma trailing t) := by
  obtain ⟨label, parts, rest, rfl⟩ := ht.eq
  obtain ⟨more, hmore, hsubset⟩ := withoutComma_cons_node label parts rest
  refine IsEntry.congr (s := .node .inheritedType (withoutComma (.node label parts :: rest))) ?_ ⟨?_, rfl⟩
  · rw [bare_stripComma, bare_node, map_bare_withoutComma]
  · rw [hmore]
    refine .node ⟨_, _, rfl⟩ fun s hs => ?_
    rcases List.mem_cons.mp hs with rfl | hs
    · exact ht.1.of_mem (by simp)
    · exact ht.1.of_mem (List.mem_cons_of_mem _ (hsubset hs))

theorem IsEntry.stripComma_checked (ht : IsEntry t) (trailing : Text) :
    Checked.stripComma trailing t = some (Migration.stripComma trailing t) := by
  obtain ⟨label, parts, rest, rfl⟩ := ht.eq
  obtain ⟨last, hlast⟩ : ∃ last, (Tree.node label parts :: rest).getLast? = some last :=
    Option.isSome_iff_exists.mp (by simp)
  simp only [Checked.stripComma, Migration.stripComma, hlast, Option.bind_eq_bind, Option.bind_some, Option.any_some]
  rfl

theorem pruneFrom_checked {entries : List Tree} (hentries : ∀ t ∈ entries, IsEntry t) (reversed : List Tree)
    (hreversed : ∀ t ∈ reversed, IsEntry t) (carried : Option Text) :
    Checked.pruneFrom reversed carried entries = some (pruneFrom reversed carried entries) ∧
      (pruneFrom reversed carried entries).Holds IsEntry := by
  induction entries generalizing reversed carried with
  | nil =>
      rw [Checked.pruneFrom, pruneFrom]
      cases reversed with
      | nil => exact ⟨rfl, trivial⟩
      | cons before earlier => exact ⟨rfl, fun t ht => hreversed t (List.mem_reverse.mp ht)⟩
  | cons entry rest ih =>
      have hentry := hentries entry (by simp)
      have hrest : ∀ t ∈ rest, IsEntry t := fun t ht => hentries t (by simp [ht])
      rw [Checked.pruneFrom, pruneFrom, hentry.isProtocolEntry_checked]
      by_cases hprotocol : isProtocolEntry entry = true
      · obtain ⟨first, hfirst⟩ := hentry.exists_first? hprotocol
        obtain ⟨last, hlast⟩ := exists_last?_of_first? hfirst
        simp only [hprotocol, if_true, hfirst, hlast, Option.bind_eq_bind, Option.bind_some, Option.any_some,
          Option.map_some, Option.getD_some]
        by_cases hcomma : (last.kind == .comma) = true
        · simp only [if_pos hcomma]
          exact ih hrest reversed hreversed _
        · simp only [if_neg hcomma]
          cases reversed with
          | nil => exact ⟨rfl, trivial⟩
          | cons before earlier =>
              obtain ⟨hbefore, hearlier⟩ := List.forall_mem_cons.mp hreversed
              simp only [hbefore.stripComma_checked, Option.bind_some]
              exact ih hrest _ (List.forall_mem_cons.mpr ⟨hbefore.stripComma _, hearlier⟩) carried
      · obtain ⟨label, parts, more, rfl⟩ := hentry.eq
        obtain ⟨delivered, hchecked, hdelivered⟩ :=
          deliver_checked carried .inheritedType (.node label parts :: more)
        have hbare : (Tree.node .inheritedType (.node label parts :: more)).bare = delivered.bare := by
          have hmap := map_bare_deliver carried [.node .inheritedType (.node label parts :: more)]
          rw [hdelivered] at hmap
          simpa using hmap.symm
        simp only [hprotocol, hchecked, hdelivered, Option.bind_eq_bind, Option.bind_some, List.reverse_singleton,
          List.singleton_append]
        exact ih hrest _ (List.forall_mem_cons.mpr ⟨hentry.congr hbare, hreversed⟩) none

/-! ### Bodies and attributes -/

theorem unpublish_checked (ht : t.Usable) :
    Checked.unpublish t = some (unpublish t) ∧ (unpublish t).Usable ∧ (unpublish t).head = t.head := by
  unfold Checked.unpublish unpublish
  by_cases hvariables : t.is .variableDecl = true
  · obtain ⟨children, rfl⟩ := exists_of_is hvariables
    simp only [if_pos hvariables]
    obtain ⟨hchecked, husable⟩ := dropAttributes_checked (fun t ht hattr => by
      obtain ⟨parts, rfl⟩ := exists_of_is hattr
      exact isNamed_checked publishedName ht) ht
    have hlabel : (dropAttributes (isNamed publishedName) (.node .variableDecl children)).is .variableDecl = true := by
      rw [Tree.is, label?_dropAttributes]
      rfl
    obtain ⟨parts, hparts⟩ := exists_of_is hlabel
    exact ⟨hchecked, husable, by rw [hparts]; rfl⟩
  · rw [if_neg hvariables, if_neg hvariables]
    exact ⟨rfl, ht, rfl⟩

theorem usable_observableAttribute (head : Token) (lineEnding : Text) : (observableAttribute head lineEnding).Usable := by
  have hname : Usable (.node .typeIdentifier
      [.leaf { kind := .identifier, text := observableName, trailing := lineEnding }]) := by
    refine .node ⟨_, _, rfl⟩ fun t ht => ?_
    rw [List.mem_singleton.mp ht]
    exact .leaf _
  refine .node ⟨_, _, rfl⟩ (usableAll_cons.mpr ⟨.leaf _, usableAll_cons.mpr ⟨hname, usableAll_nil⟩⟩)

theorem prependObservable_checked {found rest : List Tree} {token : Token} (hmem : .leaf token ∈ rest)
    (hall : UsableAll (.node .attributes found :: rest)) :
    Checked.prependObservable (.node .attributes found :: rest) = some (prependObservable (.node .attributes found :: rest)) ∧
      UsableAll (prependObservable (.node .attributes found :: rest)) ∧
      (prependObservable (.node .attributes found :: rest)).map head = (Tree.node .attributes found :: rest).map head := by
  obtain ⟨head, hhead⟩ := Option.isSome_iff_exists.mp
    (firstOf?_isSome_of_mem (List.mem_cons_of_mem (.node .attributes found) hmem))
  obtain ⟨found', rest', hindented, hbare⟩ := exists_mapFirstOf?_getD
    (keepsWord_leading fun _ => Trivia.indentation head.leading) .attributes found rest
  obtain ⟨hfirst, hrest⟩ := usableAll_cons.mp (hall.congr hbare.symm)
  have hattrs := usableAll_of_attributes hfirst
  simp only [Checked.prependObservable, prependObservable, hhead, hindented, Option.bind_eq_bind, Option.bind_some]
  refine ⟨rfl, usableAll_cons.mpr ⟨usable_attributes ?_, hrest⟩, ?_⟩
  · exact List.forall_mem_cons.mpr ⟨⟨usable_observableAttribute _ _, rfl⟩, hattrs⟩
  · have hheads := map_head_eq_of_bare hbare
    rw [List.map_cons, List.map_cons] at hheads ⊢
    exact hheads

/-- A class that can be converted: its attributes come first, its body last, and there is a token in between. -/
structure Convertible (children : List Tree) : Prop where
  usable : UsableAll children
  parts : ∃ found middle members token, children = .node .attributes found :: (middle ++ [.node .memberBlock members]) ∧
    .leaf token ∈ middle

theorem unpublishBody_checked (hconvertible : Convertible children) :
    Checked.unpublishBody children = some (unpublishBody children) ∧ Convertible (unpublishBody children) ∧
      (unpublishBody children).map head = children.map head := by
  obtain ⟨hall, found, middle, members, token, rfl, htoken⟩ := hconvertible
  rw [← List.cons_append] at hall ⊢
  obtain ⟨hfront, hblock⟩ := usableAll_append.mp hall
  have hmembers : UsableAll members := fun t ht => (hblock _ List.mem_cons_self).of_mem ht
  have hmapped : UsableAll (members.map unpublish) := by
    intro t ht
    obtain ⟨s, hs, rfl⟩ := List.mem_map.mp ht
    exact (unpublish_checked (hmembers s hs)).2.1
  have hbody : Usable (.node .memberBlock (members.map unpublish)) := .node trivial hmapped
  rw [unpublishBody_concat]
  refine ⟨?_, ⟨usableAll_append.mpr ⟨hfront, usableAll_cons.mpr ⟨hbody, usableAll_nil⟩⟩, _, _, _, token, rfl, htoken⟩, ?_⟩
  · simp only [Checked.unpublishBody, List.getLast?_concat, List.dropLast_concat, Option.bind_eq_bind, Option.bind_some,
      mapM_eq_some_map fun t ht => (unpublish_checked (hmembers t ht)).1]
    rfl
  · rw [List.map_append, List.map_append]
    rfl

theorem convertClass_checked {attributes : List Tree} (hattributes : Usable (.node .attributes attributes))
    (hconvertible : Convertible children) :
    Checked.convertClass (.node .attributes attributes) children =
        some (convertClass (.node .attributes attributes) children) ∧
      UsableAll (convertClass (.node .attributes attributes) children) ∧
      (convertClass (.node .attributes attributes) children).map head = children.map head := by
  have hattrs := usableAll_of_attributes hattributes
  have hnames : attributes.mapM (Checked.isNamed observableName) = some (attributes.map (isNamed observableName)) :=
    mapM_eq_some_map fun t ht => by
      obtain ⟨husable, hattr⟩ := hattrs t ht
      obtain ⟨parts, rfl⟩ := exists_of_is hattr
      exact isNamed_checked observableName husable
  obtain ⟨hbody, ⟨hall, found, middle, members, token, heq, htoken⟩, hheads⟩ := unpublishBody_checked hconvertible
  simp only [Checked.convertClass, convertClass, hbody, Checked.parts?, hnames, Tree.children, Option.bind_eq_bind,
    Option.bind_some, List.any_map, Function.id_comp]
  by_cases hnamed : attributes.any (isNamed observableName) = true
  · simp only [hnamed, if_true]
    exact ⟨rfl, hall, hheads⟩
  · rw [heq] at hall hheads ⊢
    obtain ⟨hchecked, husable, hheads'⟩ := prependObservable_checked (List.mem_append_left _ htoken) hall
    simp only [hnamed]
    exact ⟨hchecked, husable, hheads'.trans hheads⟩

/-! ### Classes -/

theorem Usable.typeDecl_eq (ht : Usable (.node .typeDecl children)) :
    ∃ found modifiers keyword name front members,
      children = .node .attributes found :: .node .modifiers modifiers :: .leaf keyword :: name ::
        (front ++ [.node .memberBlock members]) ∧
      (keyword.kind = .classWord ∨ keyword.kind = .structWord → ∃ token, name = .leaf token) ∧
      ∀ t ∈ front, ∃ label, t.head = .node label := by
  obtain ⟨kind, nameHead, heads, hheads, hname, hnodes, hlast⟩ := ht.serves
  obtain ⟨attributes, tail, rfl, hattributes, htail⟩ := List.map_eq_cons_iff.mp hheads
  obtain ⟨modifiers, tail, rfl, hmodifiers, htail⟩ := List.map_eq_cons_iff.mp htail
  obtain ⟨keyword, tail, rfl, hkeyword, htail⟩ := List.map_eq_cons_iff.mp htail
  obtain ⟨name, rest, rfl, hnamed, hrest⟩ := List.map_eq_cons_iff.mp htail
  obtain ⟨found, rfl⟩ := head_eq_node hattributes
  obtain ⟨modifierList, rfl⟩ := head_eq_node hmodifiers
  obtain ⟨word, rfl, rfl⟩ := head_eq_token hkeyword
  subst hrest
  obtain ⟨body, hbody, hbodyHead⟩ : ∃ body, rest.getLast? = some body ∧ body.head = .node .memberBlock := by
    rw [List.getLast?_map] at hlast
    exact Option.map_eq_some_iff.mp hlast
  obtain ⟨members, rfl⟩ := head_eq_node hbodyHead
  obtain ⟨front, rfl⟩ := List.getLast?_eq_some_iff.mp hbody
  refine ⟨found, modifierList, word, name, front, members, rfl, fun hkind => ?_, fun t ht => ?_⟩
  · obtain ⟨kind, hkind⟩ := hname hkind
    obtain ⟨token, rfl, -⟩ := head_eq_token (hnamed.trans hkind)
    exact ⟨token, rfl⟩
  · exact hnodes t.head (List.mem_map_of_mem (List.mem_append_left _ ht))

theorem Convertible.of_usable (ht : Usable (.node .typeDecl children)) : Convertible children := by
  obtain ⟨found, modifiers, keyword, name, front, members, rfl, -, -⟩ := Usable.typeDecl_eq ht
  refine ⟨fun t hmem => ht.of_mem hmem, found, .node .modifiers modifiers :: .leaf keyword :: name :: front, members,
    keyword, rfl, by simp⟩

theorem leaveProtocol_checked_of_not_inherits (hnone : ∀ t ∈ children, t.is .inheritance = false) :
    Checked.leaveProtocol children = some (leaveProtocol children) := by
  have hall : ∀ t ∈ children, (!t.is .inheritance) = true := fun t ht => by simp [hnone t ht]
  have hspan : children.span (!·.is .inheritance) = (children, []) := by
    rw [List.span_eq_takeWhile_dropWhile, List.takeWhile_eq_self_iff.mpr hall, List.dropWhile_eq_nil_iff.mpr hall]
  rw [Checked.leaveProtocol, leaveProtocol_of_not_inherits hnone, hspan]
  rfl

/-- The clause stays with some of its entries, or it goes and the trivia in front of it changes. -/
theorem leaveProtocol_checked_append {before behind entries : List Tree} {previous colon : Tree}
    (hnone : ∀ t ∈ before, t.is .inheritance = false) (hprevious : before.getLast? = some previous)
    (hthere : previous.head ≠ .absent) (hentries : ∀ t ∈ entries, IsEntry t) :
    Checked.leaveProtocol (before ++ .node .inheritance (colon :: entries) :: behind) =
        some (leaveProtocol (before ++ .node .inheritance (colon :: entries) :: behind)) ∧
      ∀ left, leaveProtocol (before ++ .node .inheritance (colon :: entries) :: behind) = .done left →
        (∃ before', before'.map bare = before.map bare ∧ left = before' ++ behind) ∨
        ∃ kept, (∀ t ∈ kept, IsEntry t) ∧ left = before ++ .node .inheritance (colon :: kept) :: behind := by
  have hnames := mapM_eq_some_map fun t ht => (hentries t ht).isProtocolEntry_checked
  obtain ⟨hpruned, hkept⟩ := pruneFrom_checked hentries [] (by simp) none
  rw [leaveProtocol_append hnone, Checked.leaveProtocol, span_inheritance hnone]
  simp only [List.drop_succ_cons, List.drop_zero, hnames, hprevious, hpruned, List.getElem?_cons_zero,
    Option.bind_eq_bind, Option.bind_some, List.any_map, Function.id_comp]
  rw [← prune] at hkept ⊢
  by_cases hany : entries.any isProtocolEntry = true
  · simp only [if_pos hany]
    cases hresult : prune entries with
    | dangling => exact ⟨rfl, fun left hleft => by cases hleft⟩
    | emptied trailing =>
        have hend : endWith trailing before = before.dropLast ++ [previous.mapLast ({ · with trailing })] := by
          rw [endWith, hprevious]
        constructor
        · simp only [mapLast_checked _ hthere, Option.bind_some, hend]
          simp
        · rintro left hleft
          cases hleft
          exact .inl ⟨endWith trailing before, map_bare_endWith trailing before, rfl⟩
    | kept left =>
        rw [hresult] at hkept
        refine ⟨rfl, ?_⟩
        rintro _ hleft
        cases hleft
        exact .inr ⟨left, hkept, rfl⟩
  · simp only [if_neg hany]
    exact ⟨rfl, fun left hleft => by cases hleft⟩

/-- What stands in front of the optional parts of a class. -/
def opening (found modifiers : List Tree) (keyword token : Token) : List Tree :=
  [.node .attributes found, .node .modifiers modifiers, .leaf keyword, .leaf token]

theorem is_inheritance_opening {found modifiers : List Tree} {keyword token : Token} :
    ∀ t ∈ opening found modifiers keyword token, t.is .inheritance = false := by
  intro t ht
  simp only [opening, List.mem_cons, List.not_mem_nil, or_false] at ht
  rcases ht with rfl | rfl | rfl | rfl <;> rfl

/-- A class with other parts between its name and its body. -/
theorem serves_class {found modifiers front members : List Tree} {keyword token : Token}
    (hfront : ∀ t ∈ front, ∃ label, t.head = .node label) :
    Label.typeDecl.Serves
      ((opening found modifiers keyword token ++ (front ++ [Tree.node .memberBlock members])).map head) := by
  refine ⟨keyword.kind, .token token.kind, (front ++ [Tree.node .memberBlock members]).map head, rfl, fun _ => ⟨_, rfl⟩,
    fun h hh => ?_, by simp [head]⟩
  obtain ⟨t, ht, rfl⟩ := List.mem_map.mp hh
  rcases List.mem_append.mp ht with ht | ht
  · exact hfront t ht
  · rw [List.mem_singleton.mp ht]
    exact ⟨_, rfl⟩

theorem leaveProtocol_checked {found modifiers front members : List Tree} {keyword token : Token}
    (hfront : ∀ t ∈ front, ∃ label, t.head = .node label)
    (hall : UsableAll (opening found modifiers keyword token ++ (front ++ [.node .memberBlock members])))
    (hchildren : children = opening found modifiers keyword token ++ (front ++ [.node .memberBlock members])) :
    Checked.leaveProtocol children = some (leaveProtocol children) ∧
      ∀ left, leaveProtocol children = .done left → Usable (.node .typeDecl left) := by
  cases hclause : front.find? (fun t => t.is .inheritance) with
  | none =>
      have hnone : ∀ t ∈ children, t.is .inheritance = false := by
        intro t ht
        simp only [hchildren, List.mem_append, List.mem_singleton] at ht
        rcases ht with ht | ht | rfl
        · exact is_inheritance_opening t ht
        · simpa using List.find?_eq_none.mp hclause t ht
        · rfl
      refine ⟨leaveProtocol_checked_of_not_inherits hnone, fun left hleft => ?_⟩
      rw [leaveProtocol_of_not_inherits hnone] at hleft
      cases hleft
  | some clause =>
      obtain ⟨his, first, second, rfl, hfirst⟩ := List.find?_eq_some_iff_append.mp hclause
      obtain ⟨parts, rfl⟩ := exists_of_is his
      have hbefore : ∀ t ∈ opening found modifiers keyword token ++ first, t.is .inheritance = false := by
        intro t ht
        rcases List.mem_append.mp ht with ht | ht
        · exact is_inheritance_opening t ht
        · simpa using hfirst t ht
      have hinherited : Usable (.node .inheritance parts) := hall _ (by simp)
      obtain ⟨colonHead, heads, hheads, hentryHeads⟩ := hinherited.serves
      obtain ⟨colon, entries, rfl, -, rfl⟩ := List.map_eq_cons_iff.mp hheads
      have hentries : ∀ t ∈ entries, IsEntry t := fun t ht =>
        ⟨hinherited.of_mem (by simp [ht]), hentryHeads _ (List.mem_map_of_mem ht)⟩
      obtain ⟨previous, hprevious, hthere⟩ : ∃ previous,
          (opening found modifiers keyword token ++ first).getLast? = some previous ∧ previous.head ≠ .absent := by
        rcases List.eq_nil_or_concat first with rfl | ⟨more, last, rfl⟩
        · exact ⟨.leaf token, rfl, by simp [head]⟩
        · obtain ⟨label, hlabel⟩ := hfront last (by simp)
          exact ⟨last, by simp, by simp [hlabel]⟩
      have hsplit : children = (opening found modifiers keyword token ++ first) ++
          .node .inheritance (colon :: entries) :: (second ++ [.node .memberBlock members]) := by
        simp [hchildren]
      have hparts : UsableAll (opening found modifiers keyword token ++ first) ∧
          UsableAll (second ++ [.node .memberBlock members]) := by
        refine ⟨fun t ht => hall t ?_, fun t ht => hall t ?_⟩
        · simp only [List.mem_append] at ht ⊢
          tauto
        · simp only [List.mem_append, List.mem_cons] at ht ⊢
          tauto
      rw [hsplit]
      obtain ⟨hchecked, hleft⟩ := leaveProtocol_checked_append hbefore hprevious hthere hentries
      refine ⟨hchecked, fun left hdone => ?_⟩
      obtain ⟨before', hbare, rfl⟩ | ⟨kept, hkept, rfl⟩ := hleft left hdone
      · refine .node ?_ (usableAll_append.mpr ⟨hparts.1.congr hbare.symm, hparts.2⟩)
        rw [List.map_append, map_head_eq_of_bare hbare, ← List.map_append, List.append_assoc, ← List.append_assoc first]
        refine serves_class fun t ht => hfront t ?_
        rcases List.mem_append.mp ht with ht | ht <;> simp [ht]
      · have hclauseUsable : Usable (.node .inheritance (colon :: kept)) := by
          refine .node ⟨_, _, rfl, fun h hh => ?_⟩ fun t ht => ?_
          · obtain ⟨t, ht, rfl⟩ := List.mem_map.mp hh
            exact (hkept t ht).2
          · rcases List.mem_cons.mp ht with rfl | ht
            · exact hinherited.of_mem (by simp)
            · exact (hkept t ht).1
        refine .node ?_ (usableAll_append.mpr ⟨hparts.1, usableAll_cons.mpr ⟨hclauseUsable, hparts.2⟩⟩)
        rw [List.append_assoc, ← List.cons_append, ← List.append_assoc first]
        refine serves_class fun t ht => ?_
        simp only [List.mem_append, List.mem_cons] at ht
        rcases ht with ht | rfl | ht
        · exact hfront t (by simp [ht])
        · exact ⟨_, rfl⟩
        · exact hfront t (by simp [ht])

theorem migrateType_checked (names : List Text) (ht : Usable (.node .typeDecl children)) :
    Checked.migrateType names (.node .typeDecl children) = some (migrateType names (.node .typeDecl children)) ∧
      (migrateType names (.node .typeDecl children)).Usable := by
  have hconvertible := Convertible.of_usable ht
  obtain ⟨found, modifiers, keyword, name, front, members, heq, hname, hfront⟩ := Usable.typeDecl_eq ht
  by_cases hclass : keyword.kind = .classWord
  · obtain ⟨token, rfl⟩ := hname (.inl hclass)
    have hattributes : Usable (.node .attributes found) := ht.of_mem (by simp [heq])
    obtain ⟨hchecked, hleft⟩ := leaveProtocol_checked hfront (fun t hmem => ht.of_mem (heq ▸ hmem)) heq
    obtain ⟨hconverted, husable, hheads⟩ := convertClass_checked hattributes hconvertible
    rw [heq] at hchecked hconverted husable hheads hleft ht ⊢
    simp only [Checked.migrateType, migrateType, token?, hclass, beq_self_eq_true, if_true, hchecked,
      Option.bind_eq_bind, Option.bind_some]
    cases hresult : leaveProtocol (.node .attributes found :: .node .modifiers modifiers :: .leaf keyword ::
        .leaf token :: (front ++ [.node .memberBlock members])) with
    | dangling => exact ⟨rfl, ht⟩
    | done left =>
        have hleft := hleft left hresult
        obtain ⟨hdone, hall, hsame⟩ := convertClass_checked hattributes (Convertible.of_usable hleft)
        simp only [hdone, Option.bind_some]
        exact ⟨rfl, .node (hsame ▸ hleft.serves) hall⟩
    | absent =>
        dsimp only
        by_cases hknown : names.contains token.text = true
        · simp only [Option.any_some, hknown, if_true, hconverted, Option.bind_some]
          exact ⟨rfl, .node (hheads ▸ ht.serves) husable⟩
        · simp only [Option.any_some, hknown]
          exact ⟨rfl, ht⟩
  · have hother : (keyword.kind == .classWord) = false := by simpa using hclass
    rw [heq] at ht ⊢
    simp only [Checked.migrateType, migrateType, token?, hother, Option.bind_eq_bind, Option.bind_some]
    exact ⟨rfl, ht⟩

/-! ### Expressions -/

theorem isWrappedValue_checked (ht : t.Usable) : Checked.isWrappedValue t = some (isWrappedValue t) := by
  unfold Checked.isWrappedValue isWrappedValue
  by_cases hargument : t.is .argument = true
  · obtain ⟨children, rfl⟩ := exists_of_is hargument
    have hserves : children.map head ≠ [] := ht.serves
    simp only [Checked.parts?, Tree.children, Option.bind_eq_bind, Option.bind_some, hargument, Bool.true_and]
    rcases children with _ | ⟨_ | _ | _, _ | _⟩
    · exact absurd rfl hserves
    all_goals rfl
  · simp only [Bool.eq_false_iff.mpr hargument, Bool.false_and]
    rfl

theorem migrateCall_checked (ht : Usable (.node .call children)) :
    Checked.migrateCall (.node .call children) = some (migrateCall (.node .call children)) ∧
      (migrateCall (.node .call children)).Usable := by
  have hserves : children.map head ≠ [] := ht.serves
  unfold Checked.migrateCall migrateCall
  split
  next label callee args rest heq =>
    cases heq
    have harguments : Usable (.node .arguments args) := ht.of_mem (by simp)
    have hargs : UsableAll args := fun t hmem => harguments.of_mem hmem
    have hrelabelled : args.mapM (fun arg =>
        if isWrappedValue arg then Checked.rename initialValueLabel arg else some arg) =
        some (args.map fun arg => if isWrappedValue arg then rename initialValueLabel arg else arg) :=
      mapM_eq_some_map fun arg _ => by
        by_cases hwrapped : isWrappedValue arg = true
        · simp only [if_pos hwrapped]
          simp only [isWrappedValue, Bool.and_eq_true] at hwrapped
          obtain ⟨parts, rfl⟩ := exists_of_is hwrapped.1
          have hlabelled := hwrapped.2
          simp only [Tree.children] at hlabelled
          split at hlabelled
          next => rfl
          next => simp at hlabelled
        · simp only [if_neg hwrapped]
    simp only [mapM_eq_some_map fun t hmem => isWrappedValue_checked (hargs t hmem), hrelabelled, Option.bind_eq_bind,
      Option.bind_some, List.any_map, Function.id_comp]
    by_cases hcallee : (callee.kind == .identifier && callee.text == stateObjectName) = true
    · by_cases hany : args.any isWrappedValue = true
      · simp only [hcallee, hany, Bool.and_self, if_true]
        have hmapped : UsableAll (args.map fun arg =>
            if isWrappedValue arg then rename initialValueLabel arg else arg) := by
          intro t hmem
          obtain ⟨arg, harg, rfl⟩ := List.mem_map.mp hmem
          split
          · exact (usable_rename initialValueLabel (hargs arg harg)).1
          · exact hargs arg harg
        refine ⟨rfl, .node (List.cons_ne_nil _ _) fun t hmem => ?_⟩
        simp only [List.mem_cons] at hmem
        rcases hmem with rfl | rfl | hmem
        · exact .leaf _
        · exact .node trivial hmapped
        · exact ht.of_mem (by simp [hmem])
      · simp only [hcallee, hany, if_true, Bool.and_false]
        exact ⟨rfl, ht⟩
    · simp only [hcallee, Bool.false_and]
      exact ⟨rfl, ht⟩
  next label callee rest hother heq =>
    cases heq
    split
    next label callee args rest heq =>
      cases heq
      exact absurd rfl (hother callee args rest rfl)
    next => exact ⟨rfl, ht⟩
  next hother =>
    cases children with
    | nil => exact absurd rfl hserves
    | cons callee rest => exact absurd rfl (hother _ _ _)

theorem migrateMember_checked (ht : Usable (.node .memberAccess children)) :
    Checked.migrateMember (.node .memberAccess children) = some (migrateMember (.node .memberAccess children)) ∧
      (migrateMember (.node .memberAccess children)).Usable := by
  obtain ⟨receiverHead, dotHead, kind, hheads⟩ := ht.serves
  obtain ⟨receiver, tail, rfl, -, htail⟩ := List.map_eq_cons_iff.mp hheads
  obtain ⟨dot, tail, rfl, -, htail⟩ := List.map_eq_cons_iff.mp htail
  obtain ⟨name, tail, rfl, hname, htail⟩ := List.map_eq_cons_iff.mp htail
  obtain rfl := List.map_eq_nil_iff.mp htail
  obtain ⟨token, rfl, -⟩ := head_eq_token hname
  simp only [Checked.migrateMember, migrateMember, token?, Option.bind_eq_bind, Option.bind_some]
  by_cases hmodifier : (token.text == environmentObjectModifier) = true
  · simp only [if_pos hmodifier]
    refine ⟨rfl, .node ⟨_, _, _, rfl⟩ fun t hmem => ?_⟩
    simp only [List.mem_cons, List.not_mem_nil, or_false] at hmem
    rcases hmem with rfl | rfl | rfl
    · exact ht.of_mem (by simp)
    · exact ht.of_mem (by simp)
    · exact .leaf _
  · simp only [if_neg hmodifier]
    exact ⟨rfl, ht⟩

end SwiftObservation.Migration
