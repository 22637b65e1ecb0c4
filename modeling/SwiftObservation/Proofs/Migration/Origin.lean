import SwiftObservation.Proofs.Migration.Layout

/-!
# Where the nodes of a migrated tree come from

A rule makes one node, and besides it renames tokens, drops nodes and moves them. So every node in a migrated tree that a
rule is for is, trivia apart, the migration of a node in the original tree, at whatever depth: declarations of variables
may have lost a wrapper to the class around them since. The only other ones are those that the rules insert, the attribute
that makes a class observable, the successor of the wrapper of an object from the environment, and the type that it names.

`Origin` lists these cases, and `sourced_migrate` says that they are all. What holds of all migrated nodes is thereby a
matter of single rules.
-/

namespace SwiftObservation

namespace Tree

/-- A tree within another one has its like in all trees that are the same trivia apart. -/
theorem Within.exists_of_bare {r t t' : Tree} (hwithin : Within r t) (hbare : t.bare = t'.bare) :
    ∃ r', Within r' t' ∧ r'.bare = r.bare := by
  induction hwithin generalizing t' with
  | self => exact ⟨t', .self, hbare.symm⟩
  | child hmem _ ih =>
      obtain ⟨children', rfl, hchildren⟩ := exists_of_bare_eq (hbare.symm.trans bare_node)
      obtain ⟨s', hs', hsame⟩ := List.mem_map.mp (hchildren ▸ List.mem_map_of_mem hmem)
      obtain ⟨r', hr', hr⟩ := ih hsame.symm
      exact ⟨r', .child hs' hr', hr⟩

end Tree

namespace Migration

open SwiftObservation.Tree

variable {names : List Text} {label : Label} {children : List Tree} {r s t : Tree}

/-- What a node in the migration of a tree can be. -/
inductive Origin (names : List Text) (t r : Tree) : Prop where
  /-- The migration of a tree within the original one. -/
  | migrated (s : Tree) (within : Within s t) (same : r.bare = (migrate names s).bare)
  /-- The migration of a declaration of variables, without the wrapper of published properties. -/
  | unpublished (s : Tree) (within : Within s t) (declares : s.is .variableDecl = true)
      (same : r.bare = (unpublish (migrate names s)).bare)
  /-- An attribute that was inserted or that took the place of another one. -/
  | successor (attr : r.is .attr = true) (name : attributeName? r ∈ [some observableName, some environmentName])
  /-- The type that an object from the environment is looked up by. -/
  | lookup (bound : Tree)
      (same : r.bare = (Tree.node .memberAccess [bound, mark .dot ['.'] [], mark .identifier "self".toList []]).bare)
  /-- No rule is for the node. -/
  | plain (unruled : ∀ label ∈ ruled, r.is label = false)

theorem Origin.congr {r' : Tree} (hbare : r.bare = r'.bare) (hr : Origin names t r) : Origin names t r' := by
  cases hr with
  | migrated s hwithin hsame => exact .migrated s hwithin (hbare.symm.trans hsame)
  | unpublished s hwithin hdeclares hsame => exact .unpublished s hwithin hdeclares (hbare.symm.trans hsame)
  | successor hattr hname =>
      rw [← is_bare, hbare, is_bare] at hattr
      rw [← attributeName?_bare, hbare, attributeName?_bare] at hname
      exact .successor hattr hname
  | lookup bound hsame => exact .lookup bound (hbare.symm.trans hsame)
  | plain hunruled => exact .plain fun label hlabel => by rw [← is_bare, ← hbare, is_bare, hunruled label hlabel]

/-- All nodes of the tree have an origin in the migration of the given one. -/
def Sourced (names : List Text) (t u : Tree) : Prop := ∀ r, Within r u → Origin names t r

/-- All nodes of the trees have an origin. -/
def SourcedAll (names : List Text) (t : Tree) (trees : List Tree) : Prop := ∀ u ∈ trees, Sourced names t u

@[simp] theorem sourcedAll_nil : SourcedAll names t [] := by simp [SourcedAll]

@[simp] theorem sourcedAll_cons {u : Tree} {rest : List Tree} :
    SourcedAll names t (u :: rest) ↔ Sourced names t u ∧ SourcedAll names t rest := List.forall_mem_cons

@[simp] theorem sourcedAll_append {front back : List Tree} :
    SourcedAll names t (front ++ back) ↔ SourcedAll names t front ∧ SourcedAll names t back := List.forall_mem_append

/-- A tree has an origin throughout if it has one itself and its children have it throughout. -/
theorem sourced_of_children {u : Tree} (hself : Origin names t u) (hchildren : SourcedAll names t u.children) :
    Sourced names t u := by
  intro r hr
  cases hr with
  | self => exact hself
  | child hmem hr => exact hchildren _ hmem r hr

theorem Sourced.inner {u : Tree} (hu : Sourced names t u) : SourcedAll names t u.children :=
  fun _ hmem r hr => hu r (hr.trans (.of_mem_children hmem))

theorem Sourced.of_mem {u : Tree} (hu : Sourced names t (.node label children)) (hmem : u ∈ children) :
    Sourced names t u := hu.inner u hmem

theorem Sourced.congr {u u' : Tree} (hbare : u.bare = u'.bare) (hu : Sourced names t u) : Sourced names t u' := by
  intro r' hr'
  obtain ⟨r, hr, hsame⟩ := hr'.exists_of_bare hbare.symm
  exact (hu r hr).congr hsame

theorem SourcedAll.congr {trees trees' : List Tree} (hbare : trees.map bare = trees'.map bare)
    (htrees : SourcedAll names t trees) : SourcedAll names t trees' := by
  intro u' hu'
  obtain ⟨u, hu, hsame⟩ := List.mem_map.mp (hbare ▸ List.mem_map_of_mem hu')
  exact (htrees u hu).congr hsame

/-- A node that no rule is for has an origin if its children have one. -/
theorem sourced_plain (hlabel : label ∉ ruled) (hchildren : SourcedAll names t children) :
    Sourced names t (.node label children) := by
  refine sourced_of_children (.plain fun other hother => ?_) hchildren
  rw [is_node, beq_eq_false_iff_ne]
  rintro rfl
  exact hlabel hother

@[simp] theorem sourced_leaf (token : Token) : Sourced names t (.leaf token) := by
  intro r hr
  cases hr with
  | self => exact .plain fun _ _ => rfl

/-! ### Attributes and expressions -/

theorem sourcedAll_migrateAttribute (hin : SourcedAll names t children) :
    SourcedAll names t (migrateAttribute (.node .attr children)).children := by
  unfold migrateAttribute
  split
  next sign name rest hchildren =>
    obtain rfl : children = sign :: name :: rest := hchildren
    simp only [sourcedAll_cons] at hin
    split
    next hstate =>
      obtain ⟨sign, token, rest, heq, -⟩ := exists_of_isNamed hstate
      obtain ⟨rfl, rfl, rfl⟩ : _ ∧ _ ∧ _ := by simpa using heq
      simp only [Tree.children, rename, sourcedAll_cons]
      exact ⟨hin.1, sourced_plain (by decide) (by simp), hin.2.2⟩
    next =>
      split
      next =>
        cases sign with
        | leaf token => simp [erased, Tree.children]
        | node _ _ => simpa [Tree.children] using hin
        | absent => simpa [Tree.children] using hin
      next => simpa [Tree.children] using hin
  next => exact hin

theorem sourced_rename (text : Text) (hlabel : label ∉ ruled) (hu : Sourced names t (.node label children)) :
    Sourced names t (rename text (.node label children)) := by
  have hchildren : SourcedAll names t children := hu.inner
  rcases children with _ | ⟨_ | _ | _, rest⟩
  case cons.leaf =>
    rw [rename]
    exact sourced_plain hlabel (by simpa using hchildren)
  all_goals exact hu

theorem sourcedAll_migrateCall (hin : SourcedAll names t children) :
    SourcedAll names t (migrateCall (.node .call children)).children := by
  unfold migrateCall
  split
  next label callee args rest heq =>
    obtain ⟨rfl, rfl⟩ := node.inj heq
    simp only [sourcedAll_cons] at hin
    split
    next =>
      simp only [Tree.children, sourcedAll_cons, sourced_leaf, true_and]
      refine ⟨sourced_plain (by decide) fun arg harg => ?_, hin.2.2⟩
      obtain ⟨original, hmem, rfl⟩ := List.mem_map.mp harg
      split
      next hwrapped =>
        obtain ⟨parts, rfl⟩ := exists_of_is (Bool.and_eq_true_iff.mp hwrapped).1
        exact sourced_rename _ (by decide) (hin.2.1.of_mem hmem)
      next => exact hin.2.1.of_mem hmem
    next => simpa [Tree.children] using hin
  next => exact hin

theorem sourcedAll_migrateMember (hin : SourcedAll names t children) :
    SourcedAll names t (migrateMember (.node .memberAccess children)).children := by
  unfold migrateMember
  split
  next label receiver dot name heq =>
    obtain ⟨rfl, rfl⟩ := node.inj heq
    simp only [sourcedAll_cons] at hin
    split
    · simpa [Tree.children] using ⟨hin.1, hin.2.1⟩
    · simpa [Tree.children] using ⟨hin.1, hin.2.1⟩
  next => exact hin

/-! ### Variables -/

/-- What the loss of attributes makes of a declaration: nothing new, or one with fewer attributes. -/
theorem dropAttributes_cases (doomed : Tree → Bool) (decl : Tree) :
    dropAttributes doomed decl = decl ∨
    ∃ label found rest kept behind, decl = .node label (.node .attributes found :: rest) ∧
      dropAttributes doomed decl = .node label (.node .attributes kept :: behind) ∧
      kept.map bare = (found.filter (!doomed ·)).map bare ∧ behind.map bare = rest.map bare := by
  by_cases hattributes : ∃ label found rest, decl = .node label (.node .attributes found :: rest)
  · obtain ⟨label, found, rest, rfl⟩ := hattributes
    obtain ⟨kept, behind, hdropped⟩ := dropAttributes_eq doomed label found rest
    exact .inr ⟨label, found, rest, kept, behind, rfl, hdropped⟩
  · refine .inl ?_
    unfold dropAttributes
    split
    next label found rest => exact absurd ⟨label, found, rest, rfl⟩ hattributes
    next => rfl

theorem sourcedAll_dropAttributes (doomed : Tree → Bool) {decl : Tree} (hin : SourcedAll names t decl.children) :
    SourcedAll names t (dropAttributes doomed decl).children := by
  obtain heq | ⟨label, found, rest, kept, behind, rfl, heq, hkept, hbehind⟩ := dropAttributes_cases doomed decl
  · rwa [heq]
  · rw [heq, Tree.children, sourcedAll_cons]
    rw [Tree.children, sourcedAll_cons] at hin
    refine ⟨sourced_plain (by decide) (.congr hkept.symm fun attr hattr => ?_), .congr hbehind.symm hin.2⟩
    exact hin.1.of_mem (List.mem_filter.mp hattr).1

theorem sourced_lookupArguments {bound : Tree} (hbound : Sourced names t bound) (trailing : Text) :
    Sourced names t (lookupArguments bound trailing) := by
  have haccess : Sourced names t (.node .memberAccess [typeReference bound, mark .dot ['.'] [],
      mark .identifier "self".toList []]) := by
    refine sourced_of_children (.lookup _ rfl) ?_
    simpa [Tree.children, mark] using hbound.congr (bare_typeReference bound).symm
  refine sourced_plain (by decide) ?_
  simp only [sourcedAll_cons, sourcedAll_nil, mark, sourced_leaf, true_and, and_true]
  exact sourced_plain (by decide) (by simpa using sourced_plain (by decide) (by simpa [mark] using haccess))

theorem sourced_environmentAttribute {bound target : Tree} (hbound : Sourced names t bound) (htarget : Sourced names t target)
    (hnamed : isNamed environmentObjectName target = true) (hlength : target.children.length = 2) :
    Sourced names t (environmentAttribute bound target) := by
  cases target with
  | leaf token => simp [Tree.children] at hlength
  | absent => simp [Tree.children] at hlength
  | node label children =>
      obtain ⟨sign, token, rest, rfl, -⟩ := exists_of_isNamed hnamed
      obtain rfl : rest = [] := by simpa [Tree.children] using hlength
      refine sourced_of_children (.successor rfl (List.mem_cons_of_mem _ (List.mem_singleton.mpr rfl))) ?_
      simp only [environmentAttribute, Tree.children, sourcedAll_cons, sourcedAll_nil, and_true]
      exact ⟨htarget.of_mem (by simp), sourced_plain (by decide) (by simp), sourced_lookupArguments hbound _⟩

theorem sourced_dropTypeClause (hlabel : label ∉ ruled) (hu : Sourced names t (.node label children)) :
    Sourced names t (dropTypeClause (.node label children)) := by
  unfold dropTypeClause
  split
  next pattern rest clause heq hclause =>
    obtain ⟨rfl, rfl⟩ := node.inj heq
    obtain ⟨hpattern, hrest⟩ := sourcedAll_cons.mp hu.inner
    refine sourced_plain hlabel (sourcedAll_cons.mpr ⟨?_, fun u hmem => hrest u (List.mem_of_mem_eraseP hmem)⟩)
    exact hpattern.congr (bare_mapLast (keepsWord_trailing _) pattern).symm
  next => exact hu

theorem sourcedAll_migrateVariables {found rest : List Tree}
    (hin : SourcedAll names t (.node .attributes found :: rest)) :
    SourcedAll names t (migrateVariables (.node label (.node .attributes found :: rest))).children := by
  refine sourcedAll_dropAttributes isErased ?_
  obtain ⟨-, heq⟩ | ⟨target, binding, bound, htarget, hlength, hbinding, hbound, heq⟩ :=
    migrateEnvironment_cases label found rest
  · rwa [heq, Tree.children]
  · rw [sourcedAll_cons] at hin
    have htype : Sourced names t bound := fun r hr =>
      hin.2 binding (List.mem_of_find?_eq_some hbinding) r (hr.trans (within_of_plainType? hbound))
    rw [heq, Tree.children, sourcedAll_cons]
    refine ⟨sourced_plain (by decide) (forall_mem_updateFirst (fun u hmem => hin.1.of_mem hmem) fun u hu => ?_),
      forall_mem_updateFirst hin.2 fun u hu => ?_⟩
    · obtain rfl : target = u := Option.some.inj (htarget.symm.trans hu)
      have hmem : target ∈ found := List.mem_of_find?_eq_some htarget
      exact sourced_environmentAttribute htype (hin.1.of_mem hmem) (List.find?_some htarget) hlength
    · have htyped : isPlainlyTyped u = true := List.find?_some hu
      obtain ⟨parts, rfl⟩ := exists_of_is (Bool.and_eq_true_iff.mp htyped).1
      exact sourced_dropTypeClause (by decide) (hin.2 _ (List.mem_of_find?_eq_some hu))

/-- What becomes of a declaration, trivia apart: its migration, and in a class that is converted it loses the wrapper of
published properties. -/
def Becomes (names : List Text) (s r : Tree) : Prop :=
  r.bare = (migrate names s).bare ∨ r.bare = (unpublish (migrate names s)).bare

/-- A declaration of variables in a migrated tree comes from one in the original tree. -/
theorem Origin.exists_becomes (hr : Origin names t r) (hdeclares : r.is .variableDecl = true) :
    ∃ s, Within s t ∧ s.is .variableDecl = true ∧ Becomes names s r := by
  cases hr with
  | migrated s hwithin hsame =>
      refine ⟨s, hwithin, ?_, .inl hsame⟩
      rwa [← @is_migrate names, ← is_bare, ← hsame, is_bare]
  | unpublished s hwithin hlabel hsame => exact ⟨s, hwithin, hlabel, .inr hsame⟩
  | successor hattr =>
      obtain ⟨children, rfl⟩ := exists_of_is hdeclares
      simp at hattr
  | lookup bound hsame =>
      rw [← is_bare, hsame] at hdeclares
      simp at hdeclares
  | plain hunruled => simp [hunruled .variableDecl (by decide)] at hdeclares

/-- A declaration of variables that loses the wrapper of published properties keeps its origin. -/
theorem Origin.unpublish {u : Tree} (hu : Origin names t u) (hdeclares : u.is .variableDecl = true) :
    Origin names t (unpublish u) := by
  obtain ⟨s, hwithin, hlabel, hsame | hsame⟩ := hu.exists_becomes hdeclares
  · refine .unpublished s hwithin hlabel ?_
    rw [bare_unpublish, hsame, ← bare_unpublish]
  · refine .unpublished s hwithin hlabel ?_
    rw [bare_unpublish, hsame, ← bare_unpublish, unpublish_eq_self (not_isPublished_unpublish _)]

theorem Sourced.unpublish {u : Tree} (hu : Sourced names t u) : Sourced names t (unpublish u) := by
  cases hdeclares : u.is .variableDecl with
  | true =>
      refine sourced_of_children ((hu u .self).unpublish hdeclares) ?_
      rw [Migration.unpublish, if_pos hdeclares]
      exact sourcedAll_dropAttributes _ hu.inner
  | false => rwa [Migration.unpublish, hdeclares]

/-! ### Classes -/

/-- The tree is one of the entries that do not name the protocol, whatever its trivia, with or without its comma. -/
inductive Remains (entries : List Tree) : Tree → Prop where
  | entry {t : Tree} (mem : t ∈ entries) (other : isProtocolEntry t = false) : Remains entries t
  | congr {s t : Tree} (same : s.bare = t.bare) (remains : Remains entries s) : Remains entries t
  | strip {t : Tree} (trailing : Text) (remains : Remains entries t) : Remains entries (stripComma trailing t)

theorem sourced_observableAttribute (head : Token) (ending : Text) : Sourced names t (observableAttribute head ending) := by
  refine sourced_of_children (.successor rfl (List.mem_cons.mpr (.inl rfl))) ?_
  simp only [observableAttribute, Tree.children, sourcedAll_cons, sourced_leaf, sourcedAll_nil, true_and, and_true]
  exact sourced_plain (by decide) (by simp)

theorem Remains.sourced {entries : List Tree} (hentries : SourcedAll names t entries)
    (hlabel : ∀ entry ∈ entries, entry.is .inheritedType = true) {entry : Tree} (hentry : Remains entries entry) :
    Sourced names t entry ∧ entry.is .inheritedType = true := by
  induction hentry with
  | entry hmem => exact ⟨hentries _ hmem, hlabel _ hmem⟩
  | congr hsame _ ih => exact ⟨ih.1.congr hsame, by rw [← is_bare, ← hsame, is_bare, ih.2]⟩
  | strip trailing _ ih =>
      obtain ⟨parts, rfl⟩ := exists_of_is ih.2
      have hstripped : (stripComma trailing (.node .inheritedType parts)).bare =
          (Tree.node .inheritedType (withoutComma parts)).bare := by
        rw [bare_stripComma, bare_node, map_bare_withoutComma]
      refine ⟨.congr hstripped.symm (sourced_plain (by decide) fun u hu => ih.1.of_mem ?_), ?_⟩
      · unfold withoutComma at hu
        split at hu
        · exact List.dropLast_subset parts hu
        · exact hu
      · rw [← is_bare, hstripped]
        rfl

namespace ClassParts

variable {p : ClassParts}

/-- What a class that is converted becomes, trivia apart. The protocol is pruned from its inheritance clause, if it is
there. -/
theorem exists_migrate_of_isConverted (ht : Shaped (.node .typeDecl p.trees)) (hconverted : isConverted names p.trees = true) :
    ∃ attributes clause,
      (migrate names (.node .typeDecl p.trees)).bare =
        (Tree.node .typeDecl ((p.migrated names).converted attributes clause).trees).bare ∧
      Marks (p.migrated names).attributes attributes ∧
      (p.entries.any namesProtocol = false ∧ clause = (p.migrated names).clause ∨
        ∃ colon entries, (p.migrated names).clause = some (colon :: entries) ∧
          ((∃ trailing, prune entries = .emptied trailing) ∧ clause = none ∨
            ∃ kept, prune entries = .kept kept ∧ clause = some (colon :: kept))) := by
  rw [isConverted_eq] at hconverted
  rw [migrate_node, map_migrate_trees, migrateNode, migrateType_eq]
  obtain ⟨hnone, hleft, -⟩ | ⟨hsome, -, hcommaed⟩ | ⟨-, -, front, hleft, -⟩ := leaveProtocol_cases names (shaped_clause ht)
  · have hname : names.contains (p.migrated names).name.text = true := by simpa [hnone] using hconverted
    simp only [hleft, hname, if_true]
    rw [trees, ← List.append_assoc]
    obtain ⟨attributes, hmarks, hbare⟩ := exists_converted (p := p.migrated names) (begins_head_append _) rfl
    exact ⟨attributes, (p.migrated names).clause, by rw [bare_node, hbare, bare_node], hmarks, .inl ⟨hnone, rfl⟩⟩
  · simp [hsome, hcommaed, -List.all_eq_true, -List.any_eq_true] at hconverted
  · obtain ⟨front, clause, hfront, hbegins, hbare, hclause⟩ := leaveProtocol_eq_done hleft
    simp only [hleft, hfront]
    obtain ⟨attributes, hmarks, hbare⟩ := exists_converted hbegins hbare
    exact ⟨attributes, clause, by rw [bare_node, hbare, bare_node], hmarks, .inr hclause⟩

/-- Of the entries of an inheritance clause, those are left that do not name the protocol. -/
theorem exists_remains_of_isConverted (ht : Shaped (.node .typeDecl p.trees)) (hconverted : isConverted names p.trees = true) :
    ∃ attributes clause,
      (migrate names (.node .typeDecl p.trees)).bare =
        (Tree.node .typeDecl ((p.migrated names).converted attributes clause).trees).bare ∧
      Marks (p.migrated names).attributes attributes ∧
      ∀ parts ∈ clause, ∃ colon entries kept, (p.migrated names).clause = some (colon :: entries) ∧
        parts = colon :: kept ∧ ∀ entry ∈ kept, Remains entries entry := by
  obtain ⟨attributes, clause, hbare, hmarks, hclause⟩ := exists_migrate_of_isConverted ht hconverted
  refine ⟨attributes, clause, hbare, hmarks, fun parts hparts => ?_⟩
  obtain ⟨hnone, rfl⟩ | ⟨colon, entries, hentries, ⟨-, rfl⟩ | ⟨kept, hkept, rfl⟩⟩ := hclause
  · obtain ⟨originals, horiginals, rfl⟩ := Option.map_eq_some_iff.mp hparts
    obtain ⟨colon, entries, rfl, -⟩ := Shaped.areEntries (shaped_clause ht originals horiginals)
    refine ⟨_, _, _, hparts, rfl, fun entry hentry => .entry hentry ?_⟩
    have hmem : entry ∈ (p.migrated names).entries := by simpa [ClassParts.entries, Option.mem_def.mp hparts] using hentry
    have htellable : (inheritedEntries (p.trees.map (migrate names))).all isTellable = true := all_isTellable_migrate ht
    rw [map_migrate_trees, inheritedEntries_eq, List.all_eq_true] at htellable
    have hothers := (any_namesProtocol_migrated names ht).1.trans hnone
    rw [List.any_eq_false] at hothers
    rw [isProtocolEntry_eq (htellable entry hmem)]
    simpa using hothers entry hmem
  · cases hparts
  · obtain rfl := Option.some.inj hparts
    have hholds := pruneFrom_holds (P := Remains entries) (fun _ _ hsame hs => .congr hsame hs)
      (fun _ trailing hs => .strip trailing hs) (fun _ hmem hother => .entry hmem hother) [] (by simp) none
    rw [← prune, hkept] at hholds
    exact ⟨colon, entries, kept, hentries, rfl, hholds⟩

theorem sourcedAll_migrate (hin : SourcedAll names t (p.trees.map (migrate names))) (hp : Shaped (.node .typeDecl p.trees)) :
    SourcedAll names t (migrate names (.node .typeDecl p.trees)).children := by
  cases hconverted : isConverted names p.trees with
  | false => rwa [migrate_of_not_isConverted (shaped_clause hp) hconverted, Tree.children]
  | true =>
      obtain ⟨attributes, clause, hbare, hmarks, hclause⟩ := exists_remains_of_isConverted hp hconverted
      rw [map_migrate_trees] at hin
      have hentries : ∀ entry ∈ (p.migrated names).entries, entry.is .inheritedType = true := by
        have htellable : (inheritedEntries (p.trees.map (migrate names))).all isTellable = true := all_isTellable_migrate hp
        rw [map_migrate_trees, inheritedEntries_eq] at htellable
        exact is_inheritedType_of_isTellable htellable
      have hwhole (parts : List Tree) (hparts : (p.migrated names).clause = some parts) :
          Sourced names t (.node .inheritance parts) := hin _ (by simp [trees, Tree.optional, hparts])
      simp only [trees, head, tail, sourcedAll_cons, sourcedAll_append, List.cons_append] at hin
      obtain ⟨hfound, hmodifiers, -, -, hparams, -, hrequirements, hbody, -⟩ := hin
      have hchildren : SourcedAll names t ((p.migrated names).converted attributes clause).trees := by
        simp only [converted, trees, head, tail, List.cons_append, sourcedAll_cons, sourcedAll_append]
        refine ⟨sourced_plain (by decide) ?_, hmodifiers, sourced_leaf _, sourced_leaf _, hparams,
          forall_mem_optional fun parts hparts => ?_, hrequirements, sourced_plain (by decide) fun u hu => ?_, sourcedAll_nil⟩
        · obtain ⟨-, rfl⟩ | ⟨-, head, ending, rfl⟩ := hmarks
          · exact hfound.inner
          · exact sourcedAll_cons.mpr ⟨sourced_observableAttribute head ending, hfound.inner⟩
        · obtain ⟨colon, entries, kept, hentries', rfl, hkept⟩ := hclause parts hparts
          have hclause := hwhole _ hentries'
          refine sourced_plain (by decide) (sourcedAll_cons.mpr ⟨hclause.of_mem (by simp), fun u hu => ?_⟩)
          refine (Remains.sourced (fun entry hentry => hclause.of_mem (by simp [hentry])) (fun entry hentry => ?_)
            (hkept u hu)).1
          exact hentries entry (by simp [ClassParts.entries, hentries', hentry])
        · obtain ⟨member, hmember, rfl⟩ := List.mem_map.mp hu
          exact (hbody.of_mem hmember).unpublish
      refine SourcedAll.congr ?_ hchildren
      rw [← children_bare, hbare, bare_node, Tree.children]

end ClassParts

/-! ### Whole trees -/

theorem sourcedAll_children_migrate (hin : SourcedAll names t (children.map (migrate names)))
    (hs : Shaped (.node label children)) : SourcedAll names t (migrate names (.node label children)).children := by
  by_cases hlabel : label ∈ ruled
  · simp only [ruled, List.mem_cons, List.not_mem_nil, or_false] at hlabel
    rcases hlabel with rfl | rfl | rfl | rfl | rfl
    · obtain ⟨attributes, modifiers, keyword, name, rest, rfl, hkind⟩ | ⟨p, rfl⟩ := ClassParts.cases_of_shaped hs
      · rwa [migrate_of_not_isClass hkind, Tree.children]
      · exact ClassParts.sourcedAll_migrate hin hs
    · obtain ⟨found, rest, rfl, -⟩ := Shaped.variables_eq hs
      rw [List.map_cons, migrate_node_of_not_mem .attributes (by decide)] at hin
      rw [migrate_node, migrateNode, List.map_cons, migrate_node_of_not_mem .attributes (by decide)]
      exact sourcedAll_migrateVariables hin
    · rw [migrate_node, migrateNode]
      exact sourcedAll_migrateAttribute hin
    · rw [migrate_node, migrateNode]
      exact sourcedAll_migrateCall hin
    · rw [migrate_node, migrateNode]
      exact sourcedAll_migrateMember hin
  · rwa [migrate_node_of_not_mem label hlabel, Tree.children]

/-- All nodes in the migration of a tree of the grammar have an origin in the tree. -/
theorem sourced_migrate (names : List Text) (hs : s.Shaped) (hwithin : Within s t) : Sourced names t (migrate names s) := by
  induction hs with
  | leaf token => exact sourced_leaf token
  | absent => exact sourced_of_children (.plain fun _ _ => rfl) sourcedAll_nil
  | @node label children hadmits hinner ih =>
      refine sourced_of_children (.migrated _ hwithin rfl) (sourcedAll_children_migrate ?_ (.node hadmits hinner))
      intro u hu
      obtain ⟨child, hchild, rfl⟩ := List.mem_map.mp hu
      exact ih child hchild (.trans (.child hchild .self) hwithin)

end Migration

end SwiftObservation
