import SwiftObservation.Proofs.Migration.Handover.Declarations

/-!
# Comments in front of an erased wrapper are kept

The wrapper of a given object is erased with the trivia behind it, and what stands in front of it is handed over to the next
token of the declaration that stays. Nothing that is done to the trees around the declaration takes it away from there,
unless the declaration goes as a whole, in the arguments of an attribute.
-/

namespace SwiftObservation.Migration

open SwiftObservation.Tree SwiftObservation.Trivia

variable {names : List Text} {u : Token} {s t core attr : Tree} {label : Label} {children front back found rest : List Tree}

/-- The tree is a member of a class that is converted. -/
def IsConvertedMember (names : List Text) (t member : Tree) : Prop :=
  ∃ p : ClassParts, Within (.node .typeDecl p.trees) t ∧ isConverted names p.trees = true ∧ member ∈ p.members

theorem ClassParts.within_member {p : ClassParts} (ht : t ∈ p.members) : Within t (.node .typeDecl p.trees) :=
  .child (by simp [ClassParts.trees, ClassParts.tail]) (.child ht .self : Within t (.node .memberBlock p.members))

theorem IsConvertedMember.within (hmember : IsConvertedMember names t core) : Within core t := by
  obtain ⟨p, hclass, -, hmem⟩ := hmember
  exact (ClassParts.within_member hmem).trans hclass

/-- The attribute goes, with everything in it: it is the wrapper of a given object, or the published wrapper of a variable of
a class that is converted. -/
def Goes (names : List Text) (t attr : Tree) : Prop :=
  attr.is .attr = true ∧ (isNamed observedObjectName attr = true ∨ isNamed publishedName attr = true ∧
    ∃ found rest, attr ∈ found ∧ IsConvertedMember names t (.node .variableDecl (.node .attributes found :: rest)))

/-- The declaration stands in no attribute that goes, and no rule for a class removes attributes from it. -/
structure Rooted (names : List Text) (t core : Tree) : Prop where
  declares : isDeclaration core = true
  stays : ∀ a, Within a t → Within core a → ¬ Goes names t a
  kept : core.is .variableDecl = true → ¬ IsConvertedMember names t core

theorem Rooted.not_isNamed (hcore : Rooted names t core) (hattr : attr.is .attr = true) (hwithin : Within attr t)
    (hinner : Within core attr) : isNamed observedObjectName attr = false := by
  rw [← Bool.not_eq_true]
  exact fun hobserved => hcore.stays attr hwithin hinner ⟨hattr, .inl hobserved⟩

/-- The attributes of a declaration of variables that hold the declaration stay. -/
theorem Rooted.stays_attribute (hcore : Rooted names t core) (unpublished : Bool)
    (hs : Shaped (.node .variableDecl (.node .attributes found :: rest)))
    (hwithin : Within (.node .variableDecl (.node .attributes found :: rest)) t)
    (hmember : unpublished = true → IsConvertedMember names t (.node .variableDecl (.node .attributes found :: rest))) :
    ∀ a ∈ found, Within core a → Migration.stays unpublished a = true := by
  intro a ha hinner
  have hattributes : Shaped (.node .attributes found) := hs.of_mem (by simp)
  have hattr : a.is .attr = true := hattributes.admits a ha
  have haround : Within a t := .trans (.child List.mem_cons_self (.child ha .self)) hwithin
  rw [Migration.stays, hcore.not_isNamed hattr haround hinner]
  cases unpublished with
  | false => rfl
  | true =>
      cases hpublished : isNamed publishedName a with
      | false => simp [isKept, hpublished]
      | true => exact absurd ⟨hattr, .inr ⟨hpublished, found, rest, ha, hmember rfl⟩⟩ (hcore.stays a haround hinner)

/-- A declaration of variables around another declaration. -/
theorem Rooted.variables (hcore : Rooted names t core) (unpublished : Bool) (hs : Shaped (.node .variableDecl children))
    (hwithin : Within (.node .variableDecl children) t)
    (hmember : unpublished = true → IsConvertedMember names t (.node .variableDecl children))
    (hin : ∀ s ∈ children, Lasting names core u s) (hinner : ∃ s ∈ children, Within core s) :
    Continued u (if unpublished then unpublish (migrate names (.node .variableDecl children))
      else migrate names (.node .variableDecl children)).leaves := by
  obtain ⟨found, rest, rfl, -⟩ := Shaped.variables_eq hs
  refine Lasting.variables hcore.declares unpublished hs (fun a ha => (hin _ List.mem_cons_self).of_mem ha)
    (fun s hmem => hin s (List.mem_cons_of_mem _ hmem)) (hcore.stays_attribute unpublished hs hwithin hmember) ?_
  obtain ⟨s, hmem, hinner⟩ := hinner
  rcases List.mem_cons.mp hmem with rfl | hmem
  · exact .inl (exists_within_child hcore.declares hinner rfl)
  · exact .inr ⟨s, hmem, hinner⟩

/-- A type declaration around another declaration. -/
theorem Rooted.typeDecl (hcore : Rooted names t core) (hs : Shaped (.node .typeDecl children))
    (hwithin : Within (.node .typeDecl children) t) (hin : ∀ s ∈ children, Lasting names core u s)
    (hinner : ∃ s ∈ children, Within core s) : Continued u (migrate names (.node .typeDecl children)).leaves := by
  have hparts : Continued u (Tree.node .typeDecl (children.map (migrate names))).leaves := by
    obtain ⟨s, hmem, hinner⟩ := hinner
    exact continued_node (List.mem_map_of_mem hmem) ((hin s hmem).self hinner)
  obtain ⟨attributes, modifiers, keyword, name, rest, rfl, hkind⟩ | ⟨p, rfl⟩ := ClassParts.cases_of_shaped hs
  · rwa [migrate_of_not_isClass hkind]
  cases hconverted : isConverted names p.trees with
  | false => rwa [ClassParts.migrate_of_not_isConverted (ClassParts.shaped_clause hs) hconverted]
  | true =>
      have hbody : .node .memberBlock p.members ∈ p.trees := by simp [ClassParts.trees, ClassParts.tail]
      have hattributes : .node .attributes p.attributes ∈ p.trees := by simp [ClassParts.trees, ClassParts.head]
      refine ClassParts.Retains.continued hs hconverted (ClassParts.retains_of_within hcore.declares hs hin ?_ ?_ hinner)
      · intro a ha hinner
        have haround : Within a t := .trans (.child hattributes (.child ha .self)) hwithin
        exact hcore.not_isNamed (ClassParts.shaped_attributes hs a ha).2 haround hinner
      · intro member hmem hinner
        have hmember : IsConvertedMember names t member := ⟨p, hwithin, hconverted, hmem⟩
        have hlasting : Lasting names core u member := (hin _ hbody).of_mem hmem
        cases hvariables : member.is .variableDecl with
        | false =>
            rw [unpublish_of_not_variableDecl (by rw [is_migrate, hvariables])]
            exact hlasting.self hinner
        | true =>
            obtain ⟨parts, rfl⟩ := exists_of_is hvariables
            cases hinner with
            | self => exact absurd hmember (hcore.kept hvariables)
            | child hpart hinner =>
                exact hcore.variables true ((hs.of_mem hbody).of_mem hmem) hmember.within (fun _ => hmember)
                  (fun s hs => hlasting.of_mem hs) ⟨_, hpart, hinner⟩

/-- The tokens of a migrated declaration go on in everything around it. -/
theorem Rooted.lasting (hcore : Rooted names t core) (hu : u ∈ (migrate names core).leaves) (hs : s.Shaped)
    (hwithin : Within s t) : Lasting names core u s := by
  induction hs with
  | leaf token =>
      rintro r hr hinner
      exact absurd (hinner.trans hr) (not_within_leaf hcore.declares)
  | absent =>
      rintro r hr hinner
      cases hinner.trans hr with
      | self => exact absurd hcore.declares (by decide)
  | @node label children hadmits hshaped ih =>
      have hin : ∀ c ∈ children, Lasting names core u c := fun c hc => ih c hc (.trans (.child hc .self) hwithin)
      have hs : Shaped (.node label children) := .node hadmits hshaped
      rintro r hr hinner
      cases hr with
      | child hmem hr => exact hin _ hmem r hr hinner
      | self =>
          cases hinner with
          | self => exact ⟨u, hu, .refl u⟩
          | child hmem hinner =>
              have hwhole : Within core (.node label children) := .child hmem hinner
              by_cases hlabel : label ∈ ruled
              · simp only [ruled, List.mem_cons, List.not_mem_nil, or_false] at hlabel
                rcases hlabel with rfl | rfl | rfl | rfl | rfl
                · exact hcore.typeDecl hs hwithin hin ⟨_, hmem, hinner⟩
                · exact hcore.variables false hs hwithin (by simp) hin ⟨_, hmem, hinner⟩
                · have hobserved := hcore.not_isNamed rfl hwithin hwhole
                  obtain ⟨sign, trees, heq, hu⟩ := Lasting.attr hcore.declares hs hin hobserved hwhole
                  rw [heq]
                  exact hu.mono (List.subset_cons_self _ _)
                · exact Lasting.call hcore.declares hin hwhole
                · exact Lasting.memberAccess hcore.declares hs hin hwhole
              · exact Lasting.node_of_not_mem hcore.declares hlabel hin hwhole

/-- Every token of a declaration, once the rules for it are done with it, goes on in the whole tree. -/
theorem continued_migrate (unpublished : Bool) (ht : t.Shaped) (hcore : core.is .variableDecl = true) (hwithin : Within core t)
    (hstays : ∀ a, Within a t → Within core a → ¬ Goes names t a)
    (hmember : unpublished = true ↔ IsConvertedMember names t core)
    (hu : u ∈ (if unpublished then unpublish (migrate names core) else migrate names core).leaves) :
    Continued u (migrate names t).leaves := by
  cases unpublished with
  | false =>
      have hrooted : Rooted names t core :=
        ⟨by simp [isDeclaration, hcore], hstays, fun _ hmember' => by simpa using hmember.mpr hmember'⟩
      exact (hrooted.lasting hu ht .self).self hwithin
  | true =>
      -- The class goes on in the whole tree, and the unpublished declaration in the class.
      obtain ⟨p, hclass, hconverted, hmem⟩ := hmember.mp rfl
      have hinner : Within core (.node .typeDecl p.trees) := ClassParts.within_member hmem
      have hrooted : Rooted names t (.node .typeDecl p.trees) :=
        ⟨rfl, fun a ha hp => hstays a ha (hinner.trans hp), by simp⟩
      obtain ⟨w, hw, hcontinues⟩ := ClassParts.Retains.continued (ht.of_within hclass) hconverted
        (.member hmem ⟨u, hu, .refl u⟩)
      obtain ⟨w', hw', hcontinues'⟩ := (hrooted.lasting hw ht .self).self hclass
      exact ⟨w', hw', hcontinues'.trans hcontinues⟩

/-- What stands in front of an erased wrapper is kept. -/
theorem leading_handed_over {limits : Limits} {source : Text} (names : List Text) (unpublished : Bool)
    (hread : Tree.ofSource limits source = .ok t)
    (hdecl : Within (.node .variableDecl (.node .attributes (front ++ attr :: back) :: rest)) t)
    (hobserved : isNamed observedObjectName attr = true)
    (hstays : ∀ a, Within a t → Within (.node .variableDecl (.node .attributes (front ++ attr :: back) :: rest)) a →
      ¬ Goes names t a)
    (hmember : unpublished = true ↔
      IsConvertedMember names t (.node .variableDecl (.node .attributes (front ++ attr :: back) :: rest))) :
    ∃ kept breaks indent v u, attr.leading = kept ++ breaks ++ indent ∧ breaks.all Text.isLineBreak = true ∧
      indent.all isIndent = true ∧ firstOf? (back.filter (stays unpublished) ++ rest) = some v ∧
      u ∈ (migrate names t).leaves ∧ u.kind = v.kind ∧ u.text = v.text ∧ u.position = v.position ∧ kept <:+: u.leading := by
  have ht : t.Shaped := Tree.shaped_of_ofSource hread
  obtain ⟨kept, breaks, indent, hleading, hbreaks, hindent, hbears, hunbroken⟩ := exists_bears attr.leading
  obtain ⟨v, w, hv, hw, hsame, hbears⟩ :=
    exists_next names unpublished (ht.of_within hdecl) hobserved hunbroken hbears
  obtain ⟨u, hu, hcontinues⟩ := continued_migrate unpublished ht rfl hdecl hstays hmember hw
  simp only [Token.unled, Token.mk.injEq] at hsame
  obtain ⟨hkind, htext, -, -, hposition⟩ := hsame
  exact ⟨kept, breaks, indent, v, u, hleading, hbreaks, hindent, hv, hu, hcontinues.kind.trans hkind,
    hcontinues.text.trans htext, hcontinues.position.trans hposition, (hcontinues.bears kept hunbroken hbears).occurs⟩

/-- The members of a class are the children of its last part. -/
theorem isConvertedMember_of_mem {member : Tree} (hs : Shaped (.node .typeDecl children))
    (hwithin : Within (.node .typeDecl children) t) (hconverted : isConverted names children = true)
    (hmem : member ∈ (children.getLast?.map Tree.children).getD []) : IsConvertedMember names t member := by
  obtain ⟨attributes, modifiers, keyword, name, rest, rfl, hkind⟩ | ⟨p, rfl⟩ := ClassParts.cases_of_shaped hs
  · simp [isConverted, hkind] at hconverted
  · exact ⟨p, hwithin, hconverted, by simpa [ClassParts.trees, ClassParts.tail, Tree.children] using hmem⟩

/-- A wrapper is erased in front of a published one, which goes with it, since the variable is in a class that is converted. The
comments in front of both are handed over to the modifier. -/
theorem leading_handed_over_published :
    ∃ t attr published rest, Tree.ofSource .standard ("class C: ObservableObject \x7b\n  // a\n  /* b */\n  @ObservedObject\n" ++
        "  // c\n  @Published private var n: N\n\x7d\n").toList = .ok t ∧
      (migrate [] t).text = ("@Observable\nclass C \x7b\n  // a\n  /* b */\n  // c\n  private var n: N\n\x7d\n").toList ∧
      Within (.node .variableDecl (.node .attributes ([] ++ attr :: [published]) :: rest)) t ∧
      isNamed observedObjectName attr = true ∧
      attr.leading = "\n  // a\n  /* b */\n  ".toList ∧
      (∀ a, Within a t → Within (.node .variableDecl (.node .attributes ([] ++ attr :: [published]) :: rest)) a →
        ¬ Goes [] t a) ∧
      (true = true ↔ IsConvertedMember [] t (.node .variableDecl (.node .attributes ([] ++ attr :: [published]) :: rest))) ∧
      ∃ kept breaks indent v u, attr.leading = kept ++ breaks ++ indent ∧ breaks.all Text.isLineBreak = true ∧
        indent.all isIndent = true ∧ firstOf? ([published].filter (stays true) ++ rest) = some v ∧
        u ∈ (migrate [] t).leaves ∧ u.kind = v.kind ∧ u.text = v.text ∧ u.position = v.position ∧ kept <:+: u.leading := by
  have hany : (Tree.ofSource .standard ("class C: ObservableObject \x7b\n  // a\n  /* b */\n  @ObservedObject\n" ++
      "  // c\n  @Published private var n: N\n\x7d\n").toList).toOption.any (fun t =>
        (migrate [] t).text == "@Observable\nclass C \x7b\n  // a\n  /* b */\n  // c\n  private var n: N\n\x7d\n".toList &&
        t.subtrees.all (fun a => !(a.is .attr && a.subtrees.any (·.is .variableDecl))) &&
        t.subtrees.any fun c => c.is .typeDecl && isConverted [] c.children &&
          ((c.children.getLast?.map Tree.children).getD []).any fun member => member.is .variableDecl &&
            member.children.head?.any fun attributes => attributes.children.length == 2 &&
              attributes.children.head?.any fun attr =>
                isNamed observedObjectName attr && attr.leading == "\n  // a\n  /* b */\n  ".toList) = true := by
    decide +kernel
  obtain ⟨t, hread, hchecked⟩ := exists_eq_ok_of_any hany
  simp only [Bool.and_eq_true, beq_iff_eq] at hchecked
  obtain ⟨⟨htext, hbare⟩, hclasses⟩ := hchecked
  obtain ⟨c, hc, hclass⟩ := List.any_eq_true.mp hclasses
  simp only [Bool.and_eq_true] at hclass
  obtain ⟨⟨hlabel, hconverted⟩, hmembers⟩ := hclass
  obtain ⟨member, hmem, hmember⟩ := List.any_eq_true.mp hmembers
  have hwithin : Within c t := mem_subtrees_iff.mp hc
  have ht : t.Shaped := Tree.shaped_of_ofSource hread
  obtain ⟨children, rfl⟩ := exists_of_is hlabel
  have hconverted' := isConvertedMember_of_mem (ht.of_within hwithin) hwithin hconverted hmem
  rw [Bool.and_eq_true] at hmember
  obtain ⟨hvariables, hattributes⟩ := hmember
  obtain ⟨parts, rfl⟩ := exists_of_is hvariables
  obtain ⟨found, rest, rfl, -⟩ := Shaped.variables_eq (ht.of_within hconverted'.within)
  simp only [Tree.children, List.head?_cons, Option.any_some, Bool.and_eq_true, beq_iff_eq] at hattributes
  obtain ⟨hlength, hfirst⟩ := hattributes
  obtain ⟨attr, published, rfl⟩ := List.length_eq_two.mp hlength
  simp only [List.head?_cons, Option.any_some, Bool.and_eq_true, beq_iff_eq] at hfirst
  have hstays : ∀ a, Within a t → Within (.node .variableDecl (.node .attributes [attr, published] :: rest)) a →
      ¬ Goes [] t a := by
    intro a ha hinner hgoes
    have hnone := List.all_eq_true.mp hbare a (mem_subtrees_iff.mpr ha)
    rw [hgoes.1, Bool.true_and, Bool.not_eq_true', List.any_eq_false] at hnone
    exact hnone _ (mem_subtrees_iff.mpr hinner) rfl
  have hdecl : Within (.node .variableDecl (.node .attributes ([] ++ attr :: [published]) :: rest)) t := hconverted'.within
  have hmember' := iff_of_true (rfl : true = true) hconverted'
  exact ⟨t, attr, published, rest, hread, htext, hdecl, hfirst.1, hfirst.2, hstays, hmember',
    leading_handed_over [] true hread hdecl hfirst.1 hstays hmember'⟩

theorem exists_wrapper_of_any (source : Text) (p : Tree → Tree → Bool)
    (hany : (Tree.ofSource .standard source).toOption.any (fun t => t.subtrees.any fun
      | .node .variableDecl (.node .attributes [attr] :: _) => isNamed observedObjectName attr && p t attr
      | _ => false) = true) :
    ∃ t attr rest, Tree.ofSource .standard source = .ok t ∧
      Within (.node .variableDecl (.node .attributes [attr] :: rest)) t ∧ isNamed observedObjectName attr = true ∧
      p t attr = true := by
  obtain ⟨t, hread, hdecls⟩ := exists_eq_ok_of_any hany
  obtain ⟨decl, hmem, hdecl⟩ := List.any_eq_true.mp hdecls
  split at hdecl
  next attr rest =>
    rw [Bool.and_eq_true] at hdecl
    exact ⟨t, attr, rest, hread, mem_subtrees_iff.mp hmem, hdecl.1, hdecl.2⟩
  next => cases hdecl

/-- A comment behind an erased wrapper is lost, and so is one in front of a wrapper in the arguments of an erased one. -/
theorem exists_comment_lost :
    (∃ t attr rest, Tree.ofSource .standard "struct S \x7b\n    @ObservedObject /* c */ var m: M\n\x7d\n".toList = .ok t ∧
      Within (.node .variableDecl (.node .attributes [attr] :: rest)) t ∧ isNamed observedObjectName attr = true ∧
      "/* c */".toList <:+: attr.trailing ∧ ¬ "/* c */".toList <:+: (migrate [] t).text) ∧
    ∃ t attr rest, Tree.ofSource .standard ("struct S \x7b\n    @ObservedObject(\x7b\n        // c\n" ++
        "        @ObservedObject var n: N\n    \x7d) var m: M\n\x7d\n").toList = .ok t ∧
      Within (.node .variableDecl (.node .attributes [attr] :: rest)) t ∧ isNamed observedObjectName attr = true ∧
      "// c".toList <:+: attr.leading ∧ ¬ "// c".toList <:+: (migrate [] t).text := by
  have hbehind := exists_wrapper_of_any
    "struct S \x7b\n    @ObservedObject /* c */ var m: M\n\x7d\n".toList
    (fun t attr => decide ("/* c */".toList <:+: attr.trailing ∧ ¬ "/* c */".toList <:+: (migrate [] t).text))
    (by decide +kernel)
  have hinside := exists_wrapper_of_any
    ("struct S \x7b\n    @ObservedObject(\x7b\n        // c\n" ++
      "        @ObservedObject var n: N\n    \x7d) var m: M\n\x7d\n").toList
    (fun t attr => decide ("// c".toList <:+: attr.leading ∧ ¬ "// c".toList <:+: (migrate [] t).text))
    (by decide +kernel)
  simp only [decide_eq_true_eq] at hbehind hinside
  exact ⟨hbehind, hinside⟩

end SwiftObservation.Migration
