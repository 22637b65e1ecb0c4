import SwiftObservation.Proofs.Migration.Handover.Lasting

/-!
# Declarations around a declaration

What the rules for declarations of variables and for classes leave of a declaration that stands somewhere in them.
-/

namespace SwiftObservation.Migration

open SwiftObservation.Tree

variable {names : List Text} {u : Token} {t core bound : Tree} {label : Label} {children trees found rest : List Tree}

/-! ### Types that move -/

theorem mem_updateFirst_or {p : Tree → Bool} (f : Tree → Tree) (ht : t ∈ trees) :
    t ∈ updateFirst p f trees ∨ trees.find? p = some t := by
  induction trees with
  | nil => cases ht
  | cons s rest ih =>
      rw [updateFirst]
      split
      next hp =>
        rcases List.mem_cons.mp ht with rfl | ht
        · exact .inr (List.find?_cons_of_pos hp)
        · exact .inl (List.mem_cons_of_mem _ ht)
      next hp =>
        rcases List.mem_cons.mp ht with rfl | ht
        · exact .inl List.mem_cons_self
        · rw [List.find?_cons_of_neg hp]
          exact (ih ht).imp_left (List.mem_cons_of_mem _)

theorem mem_updateFirst_of_find? {p : Tree → Bool} {f : Tree → Tree} (ht : trees.find? p = some t) :
    f t ∈ updateFirst p f trees := by
  induction trees with
  | nil => cases ht
  | cons s rest ih =>
      rw [updateFirst]
      split
      next hp =>
        rw [List.find?_cons_of_pos hp] at ht
        obtain rfl := Option.some.inj ht
        exact List.mem_cons_self
      next hp =>
        rw [List.find?_cons_of_neg hp] at ht
        exact List.mem_cons_of_mem _ (ih ht)

/-- A type that moves keeps the trivia in front of all of its tokens but the first. -/
theorem continued_typeReference (hu : Continued u bound.leaves.tail) : Continued u (typeReference bound).leaves := by
  have hleaves : bound.leaves ≠ [] := by
    intro hnone
    obtain ⟨_, hw, -⟩ := hu
    simp [hnone] at hw
  obtain ⟨token, rest, heq, hchanged⟩ := leaves_mapFirst (f := ({ · with leading := [] })) hleaves
  rw [heq, List.tail_cons] at hu
  refine Continued.of_forall₂ ?_ (continues_mapLast [] _)
  rw [hchanged]
  exact hu.mono (List.subset_cons_self _ _)

theorem continued_environmentAttribute (hlength : t.children.length = 2) (hu : Continued u bound.leaves.tail) :
    Continued u (environmentAttribute bound t).leaves := by
  obtain ⟨sign, name, hchildren⟩ := List.length_eq_two.mp hlength
  refine (continued_typeReference hu).mono fun w hw => ?_
  rw [environmentAttribute, hchildren]
  simp [lookupArguments, leaves, leavesOf, hw]

/-- A binding without its type clause, which stands behind the pattern. -/
theorem exists_dropTypeClause (label : Label) (trees : List Tree) {pattern clause : Tree}
    (hother : pattern.is .typeClause = false) (hclause : clause.is .typeClause = true) :
    ∃ trailing, dropTypeClause (.node label (pattern :: clause :: trees)) =
      .node label (pattern.mapLast ({ · with trailing }) :: trees) := by
  have hchild : (Tree.node label (pattern :: clause :: trees)).child? .typeClause = some clause := by
    simp [child?, Tree.children, hother, hclause]
  have herased : (clause :: trees).eraseP (·.is .typeClause) = trees := List.eraseP_cons_of_pos hclause
  refine ⟨(clause.last?.map (·.trailing)).getD [], ?_⟩
  simp only [dropTypeClause, hchild, herased]

/-- The attribute stays, whatever rule may remove it. -/
def isSafe (unpublished : Bool) (t : Tree) : Bool := !isErased t && isKept unpublished t

theorem isSafe_bare (unpublished : Bool) (t : Tree) : isSafe unpublished t.bare = isSafe unpublished t := by
  rw [isSafe, isErased_bare, isKept, isNamed_bare, isSafe, isKept]

theorem Answers.isSafe_eq {s : Tree} (hst : Answers s t) (unpublished : Bool) :
    isSafe unpublished s = stays unpublished t := by
  rw [isSafe, hst.erased, isKept, hst.published, stays, isKept]

section Rules

variable (hcore : isDeclaration core = true)

include hcore

/-- The plain type of a binding begins with its name, which holds no declaration. -/
theorem Lasting.boundType {parts : List Tree} (hs : Shaped (.node .typeIdentifier parts))
    (hin : Lasting names core u (.node .typeIdentifier parts)) (hwithin : Within core (.node .typeIdentifier parts)) :
    Continued u (migrate names (.node .typeIdentifier parts)).leaves.tail := by
  obtain ⟨name, args, rfl, -⟩ := hs.admits
  obtain ⟨t, ht, hinner⟩ := exists_within_child hcore hwithin rfl
  rcases List.mem_cons.mp ht with rfl | hmem
  · exact absurd hinner (not_within_leaf hcore)
  · rw [migrate_node_of_not_mem .typeIdentifier (by decide), List.map_cons, migrate_leaf]
    exact continued_leavesOf.mpr ⟨_, List.mem_map_of_mem hmem, (hin.of_mem ht).self hinner⟩

/-- A declaration in a binding that loses its type is in what is left of the binding, or in the type. -/
theorem Lasting.binding (hs : t.Shaped) (htyped : isPlainlyTyped t = true) (hin : Lasting names core u t)
    (hwithin : Within core t) (hbound : plainType? (migrate names t) = some bound) :
    Continued u (dropTypeClause (migrate names t)).leaves ∨ Continued u bound.leaves.tail := by
  obtain ⟨pattern, clause, trees, rfl, hpattern⟩ := exists_clause_of_isPlainlyTyped hs htyped
  have hother : (migrate names pattern).is .typeClause = false := by rw [is_migrate, is_typeClause_pattern hpattern]
  rw [migrate_node_of_not_mem .binding (by decide), List.map_cons, List.map_cons] at hbound ⊢
  obtain ⟨trailing, hleft⟩ := exists_dropTypeClause .binding (trees.map (migrate names)) hother
    (show (migrate names (.node .typeClause clause)).is .typeClause = true by simp)
  rw [hleft]
  obtain ⟨s, hmem, hinner⟩ := exists_within_child hcore hwithin rfl
  have hu := (hin.of_mem hmem).self hinner
  simp only [List.mem_cons] at hmem
  rcases hmem with rfl | rfl | hmem
  · exact .inl (continued_node List.mem_cons_self (hu.of_forall₂ (continues_mapLast trailing _)))
  · right
    have hclause : Shaped (.node .typeClause clause) := hs.of_mem (by simp)
    obtain ⟨colon, type, rfl, -⟩ := hclause.admits
    obtain ⟨s, hmem, hdeep⟩ := exists_within_child hcore hinner rfl
    rcases List.mem_cons.mp hmem with rfl | htype
    · exact absurd hdeep (not_within_leaf hcore)
    obtain rfl : type = some s := by simpa using htype
    rw [migrate_node_of_not_mem .typeClause (by decide)] at hbound
    have hplain : s.is .typeIdentifier = true ∧ migrate names s = bound := by
      simpa [plainType?, child?, Tree.children, hother] using hbound
    obtain ⟨parts, rfl⟩ := exists_of_is hplain.1
    rw [← hplain.2]
    have hclauseIn : Lasting names core u (.node .typeClause (.leaf colon :: Option.toList (some (.node .typeIdentifier parts)))) :=
      hin.of_mem (by simp)
    exact Lasting.boundType hcore (hclause.of_mem hmem) (hclauseIn.of_mem hmem) hdeep
  · exact .inl (continued_node (List.mem_cons_of_mem _ (List.mem_map_of_mem hmem)) hu)

/-- A wrapper without arguments holds no declaration. -/
theorem not_within_wrapper {name : Text} (hs : t.Shaped) (hattr : t.is .attr = true) (hnamed : isNamed name t = true)
    (hlength : t.children.length = 2) : ¬ Within core t := by
  intro hwithin
  obtain ⟨children, rfl⟩ := exists_of_is hattr
  obtain ⟨sign, _, _, hsign, -⟩ := hs.admits
  obtain ⟨_, token, rest, rfl, -⟩ := exists_of_isNamed hnamed
  obtain ⟨rfl, -⟩ := List.cons.inj hsign
  obtain rfl : rest = [] := by simpa [Tree.children] using hlength
  obtain ⟨s, hmem, hinner⟩ := exists_within_child hcore hwithin rfl
  simp only [List.mem_cons, List.not_mem_nil, or_false] at hmem
  rcases hmem with rfl | rfl
  · exact not_within_leaf hcore hinner
  · exact not_within_plainName hcore hinner

/-- The token goes on in an attribute that stays, or behind the attributes. -/
theorem Lasting.exists_continuedIn (unpublished : Bool) (hs : Shaped (.node .variableDecl (.node .attributes found :: rest)))
    (hfound : ∀ t ∈ found, Lasting names core u t) (hrest : ∀ t ∈ rest, Lasting names core u t)
    (hkept : ∀ t ∈ found, Within core t → stays unpublished t = true)
    (hwithin : (∃ t ∈ found, Within core t) ∨ ∃ t ∈ rest, Within core t) :
    ∃ found' rest', migrate names (.node .variableDecl (.node .attributes found :: rest)) =
        dropAttributes isErased (.node .variableDecl (.node .attributes found' :: rest')) ∧
      ContinuedIn u (isSafe unpublished) found' rest' := by
  have hattributes : Shaped (.node .attributes found) := hs.of_mem (by simp)
  have hsafe : ∀ t ∈ found, Within core t → isSafe unpublished (migrate names t).bare = true := by
    intro t ht hinner
    have hanswers : Answers (migrate names t) t := answers_migrate (hattributes.of_mem ht) (hattributes.admits t ht)
    rw [isSafe_bare, hanswers.isSafe_eq]
    exact hkept t ht hinner
  rw [migrate_node, migrateNode, migrateVariables, List.map_cons, migrate_node_of_not_mem .attributes (by decide)]
  obtain ⟨-, heq⟩ | ⟨target, binding, bound, htarget, hlength, hbinding, hbound, heq⟩ :=
    migrateEnvironment_cases .variableDecl (found.map (migrate names)) (rest.map (migrate names))
  · refine ⟨_, _, by rw [heq], ?_⟩
    obtain ⟨t, ht, hinner⟩ | ⟨t, ht, hinner⟩ := hwithin
    · exact .inl ⟨_, List.mem_map_of_mem ht, hsafe t ht hinner, (hfound t ht).self hinner⟩
    · exact .inr (continued_leavesOf.mpr ⟨_, List.mem_map_of_mem ht, (hrest t ht).self hinner⟩)
  · refine ⟨_, _, by rw [heq], ?_⟩
    obtain ⟨t, ht, hinner⟩ | ⟨t, ht, hinner⟩ := hwithin
    · obtain hmem | hfirst := mem_updateFirst_or (p := isNamed environmentObjectName) (environmentAttribute bound)
        (List.mem_map_of_mem (f := migrate names) ht)
      · exact .inl ⟨_, hmem, hsafe t ht hinner, (hfound t ht).self hinner⟩
      · -- The wrapper that the type moves into has no arguments, so the declaration is not in it.
        have hattr := hattributes.admits t ht
        have hnamed : isNamed environmentObjectName t = true := by
          have hmigrated : isNamed environmentObjectName (migrate names t) = true := List.find?_some hfirst
          rwa [isNamed_environmentObject_migrate (hattributes.of_mem ht) hattr] at hmigrated
        obtain rfl := Option.some.inj (htarget.symm.trans hfirst)
        rw [length_children_migrate hattr hnamed] at hlength
        exact absurd hinner (not_within_wrapper hcore (hattributes.of_mem ht) hattr hnamed hlength)
    · obtain hmem | hfirst := mem_updateFirst_or (p := isPlainlyTyped) dropTypeClause
        (List.mem_map_of_mem (f := migrate names) ht)
      · exact .inr (continued_leavesOf.mpr ⟨_, hmem, (hrest t ht).self hinner⟩)
      · obtain rfl := Option.some.inj (hbinding.symm.trans hfirst)
        have htyped : isPlainlyTyped t = true := by
          have hmigrated : isPlainlyTyped (migrate names t) = true := List.find?_some hfirst
          rwa [isPlainlyTyped_migrate] at hmigrated
        obtain hu | hu := Lasting.binding hcore (hs.of_mem (by simp [ht])) htyped (hrest t ht) hinner hbound
        · exact .inr (continued_leavesOf.mpr ⟨_, mem_updateFirst_of_find? hfirst, hu⟩)
        · refine .inl ⟨_, mem_updateFirst_of_find? htarget, ?_, continued_environmentAttribute hlength hu⟩
          rw [find?_environmentObject_migrate fun t ht => ⟨hattributes.of_mem ht, hattributes.admits t ht⟩] at htarget
          obtain ⟨wrapper, hwrapper, rfl⟩ := Option.map_eq_some_iff.mp htarget
          have hmem := List.mem_of_find?_eq_some hwrapper
          have hnamed : isNamed environmentObjectName wrapper = true := List.find?_some hwrapper
          rw [isSafe_bare, (answers_environmentAttribute bound (hattributes.of_mem hmem) (hattributes.admits _ hmem)
            hnamed).isSafe_eq, stays, isKept, not_isNamed_of_isNamed (by decide) hnamed,
            not_isNamed_of_isNamed (by decide) hnamed, Bool.and_false]
          rfl

/-- A declaration of variables around another declaration, in the body of a class that is converted or elsewhere. -/
theorem Lasting.variables (unpublished : Bool) (hs : Shaped (.node .variableDecl (.node .attributes found :: rest)))
    (hfound : ∀ t ∈ found, Lasting names core u t) (hrest : ∀ t ∈ rest, Lasting names core u t)
    (hkept : ∀ t ∈ found, Within core t → stays unpublished t = true)
    (hwithin : (∃ t ∈ found, Within core t) ∨ ∃ t ∈ rest, Within core t) :
    Continued u (if unpublished then unpublish (migrate names (.node .variableDecl (.node .attributes found :: rest)))
      else migrate names (.node .variableDecl (.node .attributes found :: rest))).leaves := by
  obtain ⟨found₁, rest₁, heq, hu₁⟩ := Lasting.exists_continuedIn hcore unpublished hs hfound hrest hkept hwithin
  obtain ⟨found₂, rest₂, hdropped, hu₂⟩ := exists_continuedIn_dropAttributes isErased .variableDecl hu₁ fun t _ hsafe => by
    rw [isSafe_bare, isSafe, Bool.and_eq_true, Bool.not_eq_true'] at hsafe
    exact hsafe.1
  obtain ⟨found₃, rest₃, hunpublished, hu₃⟩ := exists_continuedIn_dropAttributes (!isKept unpublished ·) .variableDecl hu₂
    fun t _ hsafe => by
      rw [isSafe_bare, isSafe, Bool.and_eq_true] at hsafe
      rw [hsafe.2]
      rfl
  rw [heq, hdropped, unpublish_eq, hunpublished]
  obtain ⟨t, ht, -, hu⟩ | hu := hu₃
  · exact continued_node List.mem_cons_self (continued_node ht hu)
  · exact hu.mono (List.subset_append_right _ _)

end Rules

/-! ### Classes -/

theorem continued_tail_leavesOf (ht : t ∈ trees) (hu : Continued u t.leaves.tail) : Continued u (leavesOf trees).tail := by
  obtain ⟨front, back, rfl⟩ := List.append_of_mem ht
  rw [leavesOf_append, leavesOf]
  cases leavesOf front with
  | nil => exact hu.tail_append _
  | cons first more =>
      exact hu.mono fun w hw => List.mem_append_right _ (List.mem_append_left _ (List.mem_of_mem_tail hw))

theorem continues_endWith (trailing : Text) (trees : List Tree) :
    List.Forall₂ Token.Continues (leavesOf (endWith trailing trees)) (leavesOf trees) := by
  unfold endWith
  split
  next last hlast =>
    obtain ⟨front, rfl⟩ := List.getLast?_eq_some_iff.mp hlast
    rw [List.dropLast_concat, leavesOf_append, leavesOf_append]
    refine List.rel_append (Token.Continues.all_refl _) ?_
    simpa [leavesOf] using continues_mapLast trailing last
  next hnone =>
    rw [List.getLast?_eq_none_iff.mp hnone]
    exact .nil

/-- A class that becomes observable gets other trivia in front of its first token only. -/
theorem continued_prependObservable (hu : Continued u (leavesOf trees).tail) :
    Continued u (leavesOf (prependObservable trees)) := by
  have hself : Continued u (leavesOf trees) := hu.mono (List.tail_subset _)
  unfold prependObservable
  split
  next => exact hself
  next head hhead =>
    dsimp only
    split
    next found rest hindented =>
      have hsome : leavesOf trees ≠ [] := by
        rw [firstOf?_eq] at hhead
        exact List.ne_nil_of_mem (List.mem_of_head? hhead)
      obtain ⟨token, more, heq, hchanged⟩ :=
        leavesOf_mapFirstOf? (f := ({ · with leading := Trivia.indentation head.leading })) hsome
      rw [hindented, leavesOf, leaves] at hchanged
      rw [heq, List.tail_cons] at hu
      refine hu.mono fun w hw => ?_
      have hmem : w ∈ leavesOf found ++ leavesOf rest := by rw [hchanged]; exact List.mem_cons_of_mem _ hw
      simp only [leavesOf, leaves]
      rw [List.append_assoc]
      exact List.mem_append_right _ hmem
    next => exact hself

namespace ClassParts

variable {p : ClassParts}

theorem continued_convertClass (attributes : Tree) {front : List Tree}
    (hu : Continued u (leavesOf (front ++ Tree.optional .whereClause p.requirements ++ p.members.map unpublish)).tail) :
    Continued u (Tree.node .typeDecl (convertClass attributes (front ++ p.tail))).leaves := by
  have hbody : leavesOf (unpublishBody (front ++ p.tail)) =
      leavesOf (front ++ Tree.optional .whereClause p.requirements ++ p.members.map unpublish) := by
    rw [tail, ← List.append_assoc, unpublishBody_concat]
    simp [leavesOf, leaves]
  rw [← hbody] at hu
  rw [convertClass]
  split
  · exact hu.mono (List.tail_subset _)
  · exact continued_prependObservable hu

theorem leavesOf_head (p : ClassParts) : leavesOf p.head ≠ [] :=
  leavesOf_ne_nil_of_leaf (show .leaf p.keyword ∈ p.head by simp [head])

theorem continued_clause (ht : t ∈ p.entries) (hu : Continued u t.leaves) :
    Continued u (leavesOf (Tree.optional .inheritance p.clause)) := by
  cases hclause : p.clause with
  | none => simp [entries, hclause] at ht
  | some parts =>
      have hmem : t ∈ parts := List.mem_of_mem_tail (by simpa [entries, hclause] using ht)
      exact continued_leavesOf.mpr ⟨_, List.mem_cons_self, continued_node hmem hu⟩

theorem entries_migrated : (p.migrated names).entries = p.entries.map (migrate names) := by
  cases hclause : p.clause <;> simp [entries, migrated, hclause]

/-- What stands in front of the requirements and the body of a class that is converted. -/
theorem exists_front (hs : Shaped (.node .typeDecl p.trees)) (hconverted : isConverted names p.trees = true) :
    ∃ front, migrate names (.node .typeDecl p.trees) = .node .typeDecl
        (convertClass (.node .attributes (p.migrated names).attributes) (front ++ (p.migrated names).tail)) ∧
      leavesOf front ≠ [] ∧
      (∀ u, Continued u (leavesOf (p.migrated names).head).tail → Continued u (leavesOf front).tail) ∧
      ∀ u, (∃ entry ∈ p.entries, namesProtocol entry = false ∧ Continued u (stem (migrate names entry))) →
        Continued u (leavesOf front).tail := by
  rw [isConverted_eq] at hconverted
  have hhead : leavesOf (p.migrated names).head ≠ [] := leavesOf_head _
  have hbehind (parts : List Tree) : leavesOf ((p.migrated names).head ++ parts) ≠ [] ∧
      (∀ u, Continued u (leavesOf (p.migrated names).head).tail →
        Continued u (leavesOf ((p.migrated names).head ++ parts)).tail) ∧
      ∀ u, Continued u (leavesOf parts) → Continued u (leavesOf ((p.migrated names).head ++ parts)).tail := by
    rw [leavesOf_append]
    exact ⟨List.append_ne_nil_of_left_ne_nil hhead _, fun u hu => hu.tail_append _, fun u hu => continued_tail_append hhead hu⟩
  rw [migrate_node, map_migrate_trees, migrateNode, migrateType_eq]
  obtain ⟨hnone, hleft, -⟩ | ⟨hsome, -, hcommaed⟩ | ⟨-, -, front, hleft, -⟩ := leaveProtocol_cases names (shaped_clause hs)
  · have hname : names.contains (p.migrated names).name.text = true := by simpa [hnone] using hconverted
    obtain ⟨hne, hfirst, hrest⟩ := hbehind (Tree.optional .inheritance (p.migrated names).clause)
    refine ⟨_, ?_, hne, hfirst, ?_⟩
    · simp only [hleft, hname, if_true]
      rw [trees, ← List.append_assoc]
    · rintro u ⟨entry, hentry, -, hu⟩
      exact hrest u (continued_clause (by rw [entries_migrated]; exact List.mem_map_of_mem hentry)
        (hu.mono (stem_subset _)))
  · simp [hsome, hcommaed, -List.all_eq_true, -List.any_eq_true] at hconverted
  · refine ⟨front, by simp only [hleft], ?_⟩
    cases hparts : p.clause with
    | none => simp [leaveProtocol_of_none (p := p.migrated names) (by simp [migrated, hparts])] at hleft
    | some parts =>
        obtain ⟨colon, entries, rfl, hentries⟩ := Shaped.areEntries (shaped_clause hs parts hparts)
        have heq : p.entries = entries := by simp [ClassParts.entries, hparts]
        have hmigrated : (p.migrated names).clause = some (.leaf colon :: entries.map (migrate names)) := by
          simp [migrated, hparts]
        have hpruned (u : Token)
            (hu : ∃ entry ∈ p.entries, namesProtocol entry = false ∧ Continued u (stem (migrate names entry))) :
            (prune (entries.map (migrate names))).Continues u := by
          obtain ⟨entry, hentry, hother, hu⟩ := hu
          rw [heq] at hentry
          refine continued_pruneFrom none hentries.last?_migrate hentries.commaed_migrate
            (.inr ⟨_, List.mem_map_of_mem hentry, ?_, hu⟩)
          rw [hentries.isProtocolEntry_migrate hentry, hother]
        rw [leaveProtocol_of_some hmigrated] at hleft
        split at hleft
        next =>
          cases hprune : prune (entries.map (migrate names)) with
          | dangling => simp [hprune] at hleft
          | emptied trailing =>
              obtain rfl : front = endWith trailing (p.migrated names).head := by
                rw [hprune] at hleft
                exact (List.append_cancel_right (Leaving.done.inj hleft)).symm
              have htokens := continues_endWith trailing (p.migrated names).head
              refine ⟨fun hnone => ?_, fun u hu => hu.tail_of_forall₂ htokens, fun u hu => ?_⟩
              · rw [hnone, List.forall₂_nil_left_iff] at htokens
                exact hhead htokens
              · simpa [hprune, Pruned.Continues] using hpruned u hu
          | kept left =>
              obtain rfl : front = (p.migrated names).head ++ [.node .inheritance (.leaf colon :: left)] := by
                rw [hprune] at hleft
                exact (List.append_cancel_right (Leaving.done.inj hleft)).symm
              obtain ⟨hne, hfirst, hrest⟩ := hbehind [.node .inheritance (.leaf colon :: left)]
              refine ⟨hne, hfirst, fun u hu => hrest u ?_⟩
              obtain ⟨entry, hentry, hu⟩ : ∃ entry ∈ left, Continued u entry.leaves := by
                simpa [hprune, Pruned.Continues] using hpruned u hu
              exact continued_leavesOf.mpr ⟨_, List.mem_cons_self, continued_node (by simp [hentry]) hu⟩
        next => simp at hleft

/-- Where a token of the migrated parts goes on in a class that is converted: behind the first token of its head, in an entry
that does not name the protocol, the comma apart, in its requirements, and in its members once they are unpublished. -/
inductive Retains (names : List Text) (p : ClassParts) (u : Token) : Prop where
  | head (hu : Continued u (leavesOf (p.migrated names).head).tail)
  | entry {t : Tree} (ht : t ∈ p.entries) (hother : namesProtocol t = false) (hu : Continued u (stem (migrate names t)))
  | requirements (hu : Continued u (leavesOf (Tree.optional .whereClause (p.migrated names).requirements)))
  | member {t : Tree} (ht : t ∈ p.members) (hu : Continued u (unpublish (migrate names t)).leaves)

theorem Retains.continued (hs : Shaped (.node .typeDecl p.trees)) (hconverted : isConverted names p.trees = true)
    (hu : p.Retains names u) : Continued u (migrate names (.node .typeDecl p.trees)).leaves := by
  obtain ⟨front, heq, hfront, hhead, hclause⟩ := exists_front hs hconverted
  rw [heq]
  apply continued_convertClass
  rw [leavesOf_append, leavesOf_append, List.append_assoc]
  cases hu with
  | head hu => exact (hhead u hu).tail_append _
  | entry ht hother hu => exact (hclause u ⟨_, ht, hother, hu⟩).tail_append _
  | requirements hu => exact continued_tail_append hfront (hu.mono (List.subset_append_left _ _))
  | member ht hu =>
      refine continued_tail_append hfront (Continued.mono ?_ (List.subset_append_right _ _))
      exact continued_leavesOf.mpr ⟨_, List.mem_map_of_mem (List.mem_map_of_mem ht), hu⟩

variable (hcore : isDeclaration core = true)

include hcore

/-- A declaration in an entry is in its type. -/
theorem exists_within_entry (hs : t.Shaped) (hlabel : t.is .inheritedType = true) (hwithin : Within core t) :
    ∃ label parts comma, t = .node .inheritedType (.node label parts :: optionalLeaf comma) ∧
      Within core (.node label parts) := by
  obtain ⟨children, rfl⟩ := exists_of_is hlabel
  obtain ⟨label, parts, comma, rfl, -⟩ := hs.admits
  obtain ⟨s, hmem, hinner⟩ := exists_within_child hcore hwithin rfl
  rcases List.mem_cons.mp hmem with rfl | hmem
  · exact ⟨label, parts, comma, rfl, hinner⟩
  · obtain ⟨token, -, rfl⟩ : ∃ token ∈ comma, .leaf token = s := by simpa [optionalLeaf] using hmem
    exact absurd hinner (not_within_leaf hcore)

/-- An entry that names the protocol holds no declaration. -/
theorem namesProtocol_of_within (hs : t.Shaped) (hlabel : t.is .inheritedType = true) (hwithin : Within core t) :
    namesProtocol t = false := by
  obtain ⟨label, parts, comma, rfl, hinner⟩ := exists_within_entry hcore hs hlabel hwithin
  cases hnames : namesProtocol (.node .inheritedType (.node label parts :: optionalLeaf comma)) with
  | false => rfl
  | true =>
      unfold namesProtocol at hnames
      split at hnames
      next token rest hchildren =>
        rw [(List.cons.inj hchildren).1] at hinner
        exact absurd hinner (not_within_plainName hcore)
      next => cases hnames

theorem continued_stem (hs : t.Shaped) (hlabel : t.is .inheritedType = true) (hin : Lasting names core u t)
    (hwithin : Within core t) : Continued u (stem (migrate names t)) := by
  obtain ⟨label, parts, comma, rfl, hinner⟩ := exists_within_entry hcore hs hlabel hwithin
  have hu := (hin.of_mem List.mem_cons_self).self hinner
  obtain ⟨parts', hnode⟩ := exists_migrateNode names label (parts.map (migrate names))
  rw [migrate_node, hnode] at hu
  rw [migrate_node_of_not_mem .inheritedType (by decide), List.map_cons, ← leavesOf_withoutComma, migrate_node, hnode]
  obtain ⟨more, heq, -⟩ := withoutComma_cons_node label parts' ((optionalLeaf comma).map (migrate names))
  rw [heq]
  exact continued_leavesOf.mpr ⟨_, List.mem_cons_self, hu⟩

/-- What stands in front of the inheritance clause holds a declaration only behind its first token. -/
theorem continued_head (hs : Shaped (.node .typeDecl p.trees)) (hin : ∀ t ∈ p.head, Lasting names core u t)
    (hattrs : ∀ t ∈ p.attributes, Within core t → isNamed observedObjectName t = false) (ht : t ∈ p.head)
    (hwithin : Within core t) : Continued u (leavesOf (p.migrated names).head).tail := by
  have hu := (hin t ht).self hwithin
  simp only [head, List.mem_cons] at ht
  rcases ht with rfl | rfl | rfl | rfl | ht
  · obtain ⟨a, ha, hinner⟩ := exists_within_child hcore hwithin rfl
    obtain ⟨hshaped, hattr⟩ := shaped_attributes hs a ha
    have hain : Lasting names core u a := (hin (.node .attributes p.attributes) (by simp [head])).of_mem ha
    have hobserved := hattrs a ha hinner
    obtain ⟨parts, rfl⟩ := exists_of_is hattr
    obtain ⟨sign, trees, heq, hu⟩ := Lasting.attr hcore hshaped (fun s hs => hain.of_mem hs) hobserved hinner
    have hfirst : Continued u (leavesOf (p.migrated names).attributes).tail :=
      continued_tail_leavesOf (List.mem_map_of_mem ha) (by rw [heq]; exact hu)
    exact hfirst.tail_append _
  · exact absurd hwithin (not_within_modifiers hcore (hs.of_mem (by simp [trees, head])))
  · exact absurd hwithin (not_within_leaf hcore)
  · exact absurd hwithin (not_within_leaf hcore)
  · have hparams : migrate names t ∈ Tree.optional .genericParams (p.migrated names).params := by
      rw [migrated, ← map_migrate_optional (by decide)]
      exact List.mem_map_of_mem ht
    have hsplit : (p.migrated names).head = [.node .attributes (p.migrated names).attributes,
        .node .modifiers (p.migrated names).modifiers, .leaf p.keyword, .leaf p.name] ++
          Tree.optional .genericParams (p.migrated names).params := rfl
    rw [hsplit, leavesOf_append]
    refine continued_tail_append ?_ (continued_leavesOf.mpr ⟨_, hparams, hu⟩)
    exact leavesOf_ne_nil_of_leaf (List.mem_cons_of_mem _ (List.mem_cons_of_mem _ List.mem_cons_self))

/-- A class that is converted around another declaration. -/
theorem retains_of_within (hs : Shaped (.node .typeDecl p.trees)) (hin : ∀ t ∈ p.trees, Lasting names core u t)
    (hattrs : ∀ t ∈ p.attributes, Within core t → isNamed observedObjectName t = false)
    (hmembers : ∀ t ∈ p.members, Within core t → Continued u (unpublish (migrate names t)).leaves)
    (hwithin : ∃ t ∈ p.trees, Within core t) : p.Retains names u := by
  obtain ⟨t, ht, hinner⟩ := hwithin
  have hlasting := hin t ht
  rcases List.mem_append.mp ht with ht | ht
  · exact .head (continued_head hcore hs (fun s hs => hin s (List.mem_append_left _ hs)) hattrs ht hinner)
  rcases List.mem_append.mp ht with ht | ht
  · obtain ⟨parts, hparts, rfl⟩ : ∃ parts, p.clause = some parts ∧ .node .inheritance parts = t := by
      simpa [Tree.optional] using ht
    obtain ⟨colon, entries, rfl, hentries⟩ := Shaped.areEntries (shaped_clause hs parts hparts)
    obtain ⟨entry, hmem, hdeep⟩ := exists_within_child hcore hinner rfl
    rcases List.mem_cons.mp hmem with rfl | hentry
    · exact absurd hdeep (not_within_leaf hcore)
    · have hshaped := hentries.shaped entry hentry
      have hlabel := hentries.label entry hentry
      exact .entry (by simpa [ClassParts.entries, hparts] using hentry) (namesProtocol_of_within hcore hshaped hlabel hdeep)
        (continued_stem hcore hshaped hlabel (hlasting.of_mem hmem) hdeep)
  rcases List.mem_append.mp ht with ht | ht
  · have hmem : migrate names t ∈ Tree.optional .whereClause (p.migrated names).requirements := by
      rw [migrated, ← map_migrate_optional (by decide)]
      exact List.mem_map_of_mem ht
    exact .requirements (continued_leavesOf.mpr ⟨_, hmem, hlasting.self hinner⟩)
  · obtain rfl := List.mem_singleton.mp ht
    obtain ⟨member, hmember, hdeep⟩ := exists_within_child hcore hinner rfl
    exact .member hmember (hmembers member hmember hdeep)

end ClassParts

end SwiftObservation.Migration
