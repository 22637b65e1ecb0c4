import SwiftObservation.Proofs.Grammar.Shape.Declarations
import SwiftObservation.Proofs.Migration.Settled.Classes
import SwiftObservation.Proofs.Migration.Settled.Names

/-!
# A second conversion changes nothing

The migration of a tree is settled for the names it was migrated with, so a second migration leaves it as it is, and so
does a second conversion if the output reads back as the tree it was printed from. Two kinds of sources are apart. A
declaration of variables with two wrappers of objects from the environment has one of them migrated at a time; and a call
of the wrapper of an owned object that tells the type of a member tells another one once it is renamed.
-/

namespace SwiftObservation.Migration

open SwiftObservation.Tree

variable {names : List Text} {shown : Text → Prop} {label : Label} {children : List Tree} {t : Tree}

/-- A tree that one migration with the given names settles. -/
structure Settling (names : List Text) (shown : Text → Prop) (t : Tree) : Prop where
  shaped : t.Shaped
  once : ∀ s, Within s t → lookups s ≤ 1
  /-- A type declaration with migrated parts shows what it may. -/
  shows : ∀ children, Within (.node .typeDecl children) t →
    ∀ name ∈ shownNames (.node .typeDecl (children.map (migrate names))), shown name

theorem Settling.of_within {s : Tree} (ht : Settling names shown t) (hwithin : Within s t) : Settling names shown s where
  shaped := ht.shaped.of_within hwithin
  once := fun r hr => ht.once r (hr.trans hwithin)
  shows := fun children hr => ht.shows children (hr.trans hwithin)

theorem settled_migrate_typeDecl (hin : SettledAll names shown (children.map (migrate names)))
    (ht : Settling names shown (.node .typeDecl children)) :
    Settled names shown (migrate names (.node .typeDecl children)) := by
  obtain ⟨attributes, modifiers, keyword, name, rest, rfl, hkind⟩ | ⟨p, rfl⟩ := ClassParts.cases_of_shaped ht.shaped
  · rw [migrate_of_not_isClass hkind]
    refine .node ⟨all_isTellable_migrate ht.shaped, fun hconverted => ?_, ht.shows _ .self⟩ hin
    simp [isConverted, hkind] at hconverted
  · exact ClassParts.settled_migrate hin ht.shaped

theorem settled_migrate_variableDecl (hin : SettledAll names shown (children.map (migrate names)))
    (ht : Settling names shown (.node .variableDecl children)) :
    Settled names shown (migrate names (.node .variableDecl children)) := by
  obtain ⟨found, rest, rfl, hattrs, -⟩ := Shaped.variables_eq ht.shaped
  rw [List.map_cons, settledAll_cons, migrate_node_of_not_mem .attributes (by decide)] at hin
  rw [migrate_node, migrateNode, List.map_cons, migrate_node_of_not_mem .attributes (by decide)]
  refine settled_migrateVariables ?_ (fun t hmem => hin.1.of_mem hmem) (fun t hmem => ?_) hin.2
  · rw [countP_environmentObject_migrate hattrs]
    exact ht.once _ .self
  · obtain ⟨original, horiginal, rfl⟩ := List.mem_map.mp hmem
    rw [is_migrate]
    exact (hattrs original horiginal).2

/-- A node is settled by migration if the trees below it are. -/
theorem settled_migrate_node (hin : SettledAll names shown (children.map (migrate names)))
    (ht : Settling names shown (.node label children)) : Settled names shown (migrate names (.node label children)) := by
  by_cases hlabel : label ∈ ruled
  · simp only [ruled, List.mem_cons, List.not_mem_nil, or_false] at hlabel
    rcases hlabel with rfl | rfl | rfl | rfl | rfl
    · exact settled_migrate_typeDecl hin ht
    · exact settled_migrate_variableDecl hin ht
    · exact settled_migrate_attr hin ht.shaped
    · rw [migrate_node, migrateNode]
      exact settled_migrateCall hin
    · exact settled_migrate_memberAccess hin ht.shaped
  · rw [migrate_node_of_not_mem label hlabel]
    refine .node ?_ hin
    cases label <;> trivial

theorem settled_migrate (names : List Text) : (t : Tree) → Settling names shown t → Settled names shown (migrate names t)
  | .leaf token, _ => .leaf token
  | .absent, _ => .absent
  | .node label children, ht => by
      refine settled_migrate_node (fun migrated hmem => ?_) ht
      obtain ⟨s, hs, rfl⟩ := List.mem_map.mp hmem
      exact settled_migrate names s (ht.of_within (.child hs .self))

/-- A tree is settled by a migration with any names, whatever it shows. -/
theorem settling_of_shaped (names : List Text) (ht : t.Shaped) (honce : ∀ s, Within s t → lookups s ≤ 1) :
    Settling names (fun _ => True) t where
  shaped := ht
  once := honce
  shows := fun _ _ _ _ => trivial

/-! ### Trees migrated twice -/

/-- The tree of a source that has been migrated is migrated to itself for the same names, trivia and positions included. Only
a declaration of variables with two wrappers of objects from the environment is apart. -/
theorem migrate_migrate {limits : Limits} {source : Text} (hread : Tree.ofSource limits source = .ok t)
    (honce : ∀ s ∈ t.subtrees, lookups s ≤ 1) (names : List Text) :
    migrate names (migrate names t) = migrate names t := by
  have hsettling : Settling names (fun _ => True) t :=
    settling_of_shaped names (Tree.shaped_of_ofSource hread) fun s hwithin => honce s hwithin.mem_subtrees
  exact (settled_migrate names t hsettling).migrate_eq (List.Subset.refl names)

/-- A class that is known, one that conforms to the protocol among others, and a view with two wrappers and a modifier all
change once and then no more. -/
theorem migrate_migrate_view :
    ∃ t, Tree.ofSource .standard ("class Known { @Published var a = 0 }\n" ++
        "class Model: ObservableObject, P {}\nstruct Page \x7b @EnvironmentObject var b: Box<Model>\n" ++
        "@ObservedObject var c = d.environmentObject(b) \x7d\n").toList = .ok t ∧
      (∀ s ∈ t.subtrees, lookups s ≤ 1) ∧ migrate ["Known".toList] t ≠ t ∧
      migrate ["Known".toList] (migrate ["Known".toList] t) = migrate ["Known".toList] t := by
  have hany : (Tree.ofSource .standard ("class Known { @Published var a = 0 }\n" ++
        "class Model: ObservableObject, P {}\nstruct Page \x7b @EnvironmentObject var b: Box<Model>\n" ++
        "@ObservedObject var c = d.environmentObject(b) \x7d\n").toList).toOption.any
          (fun t => (t.subtrees.all fun s => lookups s ≤ 1) && decide (migrate ["Known".toList] t ≠ t)) = true := by
    decide +kernel
  obtain ⟨t, hread, hany⟩ := exists_eq_ok_of_any hany
  rw [Bool.and_eq_true, decide_eq_true_eq] at hany
  have honce : ∀ s ∈ t.subtrees, lookups s ≤ 1 := by simpa using hany.1
  exact ⟨t, hread, honce, hany.2, migrate_migrate hread honce _⟩

/-! ### Sources -/

theorem mem_evidenceOf {e : Evidence} {trees : List Tree} : e ∈ evidenceOf trees ↔ ∃ t ∈ trees, e ∈ evidence t := by
  induction trees with
  | nil => simp [evidenceOf]
  | cons t rest ih => simp [evidenceOf, ih]

/-- The evidence in a tree is that of the nodes within it. -/
theorem mem_evidence_of_within {e : Evidence} {s : Tree} (hwithin : Within s t) (he : e ∈ nodeEvidence s) : e ∈ evidence t := by
  induction hwithin with
  | self =>
      cases s with
      | leaf token => simp [nodeEvidence] at he
      | absent => simp [nodeEvidence] at he
      | node label children => exact List.mem_append_left _ he
  | child hmem _ ih => exact List.mem_append_right _ (mem_evidenceOf.mpr ⟨_, hmem, ih⟩)

/-- The tree of a source is settled by a migration with the names that it shows. What a structure shows depends on the
attributes and bindings of its members, three levels below it, and those are settled whatever they show. -/
theorem settling_of_ofSource {limits : Limits} {source : Text} (hread : Tree.ofSource limits source = .ok t)
    (honce : ∀ s ∈ t.subtrees, lookups s ≤ 1) (hother : ∀ e ∈ evidence t, e.subject ≠ stateObjectName) :
    Settling (inferredNames t) (· ∈ inferredNames t) t where
  shaped := Tree.shaped_of_ofSource hread
  once := fun s hwithin => honce s hwithin.mem_subtrees
  shows := by
    intro children hwithin name hname
    have hlookups : ∀ s, Within s t → lookups s ≤ 1 := fun s hs => honce s hs.mem_subtrees
    have hany := settling_of_shaped (inferredNames t) (Tree.shaped_of_ofSource hread) hlookups
    have hdeep : ∀ s ∈ children, ∀ member ∈ s.children,
        SettledAll (inferredNames t) (fun _ => True) (member.children.map (migrate (inferredNames t))) := by
      intro s hs member hmember migrated hmem
      obtain ⟨part, hpart, rfl⟩ := List.mem_map.mp hmem
      have hinside : Within part (.node .typeDecl children) :=
        .child hs (.trans (.of_mem_children hpart) (.of_mem_children hmember))
      exact settled_migrate _ part (hany.of_within (hinside.trans hwithin))
    have hbefore : name ∈ shownNames (.node .typeDecl children) :=
      shownNames_map_migrate (hany.shaped.of_within hwithin) hdeep (fun s hs => hlookups s (hs.trans hwithin))
        (fun e he => hother e (mem_evidence_of_within hwithin he)) hname
    obtain ⟨e, he, hname⟩ := List.mem_filterMap.mp hbefore
    exact mem_inferredNames.mpr (List.mem_filterMap.mpr ⟨e, mem_evidence_of_within hwithin he, hname⟩)

/-- A source with a settled tree is converted to itself, if the tree can be migrated at all. -/
theorem Settled.conversion_eq {limits : Limits} {source : Text} (path : Option Text) (ht : Settled names (· ∈ names) t)
    (hread : Tree.ofSource limits source = .ok t) :
    Conversion.ofSource limits path source =
      if t.depth ≤ limits.nodes then
        .ok { source, output := source, names := inferredNames t, diagnostics := warnings path t }
      else .error (Conversion.depthDiagnostic path) := by
  unfold Conversion.ofSource
  rw [hread]
  simp only [migrate?, ht.migrate_eq ht.inferredNames_subset]
  by_cases hdepth : t.depth ≤ limits.nodes
  · simp only [if_pos hdepth, Tree.text_of_ofSource hread]
  · simp only [if_neg hdepth]

/-- What a conversion makes of a source is settled, with two kinds of sources apart: no declaration of variables may have
two wrappers of objects from the environment, and no type may be told by the wrapper of an owned object. A second
migration, for the names that the migrated tree shows, leaves the tree as it is, and these are no new names. If the output
reads back as the migrated tree, whatever the trivia, then a second conversion leaves the output as it is. -/
theorem conversion_settles {limits : Limits} {path : Option Text} {source : Text} {c : Conversion}
    (hread : Tree.ofSource limits source = .ok t) (hconverted : Conversion.ofSource limits path source = .ok c)
    (honce : ∀ s ∈ t.subtrees, lookups s ≤ 1) (hother : ∀ e ∈ evidence t, e.subject ≠ stateObjectName) :
    inferredNames (migrate c.names t) ⊆ c.names ∧
    migrate (inferredNames (migrate c.names t)) (migrate c.names t) = migrate c.names t ∧
    c.output = (migrate c.names t).text ∧
    ∀ t', Tree.ofSource limits c.output = .ok t' → asRead t' = asRead (migrate c.names t) → t'.depth ≤ limits.nodes →
      Conversion.ofSource limits path c.output =
        .ok { source := c.output, output := c.output, names := inferredNames t', diagnostics := warnings path t' } := by
  obtain ⟨hnames, houtput⟩ : c.names = inferredNames t ∧ c.output = (migrate (inferredNames t) t).text := by
    unfold Conversion.ofSource at hconverted
    rw [hread] at hconverted
    simp only [migrate?] at hconverted
    split at hconverted
    next => simp at hconverted
    next migrated hmigrated =>
      split at hmigrated
      next =>
        obtain rfl := Option.some.inj hmigrated
        obtain rfl := Except.ok.inj hconverted
        exact ⟨rfl, rfl⟩
      next => simp at hmigrated
  rw [hnames]
  have hsettled := settled_migrate (inferredNames t) t (settling_of_ofSource hread honce hother)
  refine ⟨hsettled.inferredNames_subset, hsettled.migrate_eq hsettled.inferredNames_subset, houtput, ?_⟩
  intro t' hagain hsame hdepth
  rw [(hsettled.congr_asRead hsame.symm).conversion_eq path hagain, if_pos hdepth]

/-- A class and the view that looks it up are converted, and converted to the same once more. -/
theorem conversion_settles_model :
    ∃ c, Conversion.ofSource .standard none ("class Model: ObservableObject { @Published var name = 0 }\n" ++
        "struct Page { @EnvironmentObject var model: Model; @ObservedObject var other: Model }\n").toList = .ok c ∧ c.isChanged = true ∧
      ∃ c', Conversion.ofSource .standard none c.output = .ok c' ∧ c'.isChanged = false := by
  have hany : (Tree.ofSource .standard ("class Model: ObservableObject { @Published var name = 0 }\n" ++
      "struct Page { @EnvironmentObject var model: Model; @ObservedObject var other: Model }\n").toList).toOption.any (fun t =>
        (t.subtrees.all fun s => lookups s ≤ 1) && (evidence t).all (·.subject != stateObjectName) &&
          (Conversion.ofSource .standard none ("class Model: ObservableObject { @Published var name = 0 }\n" ++
            "struct Page { @EnvironmentObject var model: Model; @ObservedObject var other: Model }\n").toList).toOption.any fun c =>
              c.isChanged && (Tree.ofSource .standard c.output).toOption.any fun t' =>
                decide (asRead t' = asRead (migrate c.names t)) && decide (t'.depth ≤ Limits.standard.nodes)) = true := by
    decide +kernel
  obtain ⟨t, hread, hany⟩ := exists_eq_ok_of_any hany
  simp only [Bool.and_eq_true] at hany
  obtain ⟨⟨honce, hother⟩, hany⟩ := hany
  obtain ⟨c, hconverted, hany⟩ := exists_eq_ok_of_any hany
  rw [Bool.and_eq_true] at hany
  obtain ⟨hchanged, hany⟩ := hany
  obtain ⟨t', hagain, hany⟩ := exists_eq_ok_of_any hany
  rw [Bool.and_eq_true, decide_eq_true_eq, decide_eq_true_eq] at hany
  obtain ⟨-, -, -, hsame⟩ := conversion_settles hread hconverted (by simpa using honce) (by simpa using hother)
  exact ⟨c, hconverted, hchanged, _, hsame t' hagain hany.1 hany.2, by simp [Conversion.isChanged]⟩

/-- Of two wrappers on one declaration a conversion serves the first, and only the next one serves the second. -/
theorem exists_second_change :
    ∃ c c', Conversion.ofSource .standard none "@EnvironmentObject @EnvironmentObject var x: A, y: B\n".toList = .ok c ∧
      Conversion.ofSource .standard none c.output = .ok c' ∧ c'.output ≠ c.output := by
  have hany : (Conversion.ofSource .standard none
      "@EnvironmentObject @EnvironmentObject var x: A, y: B\n".toList).toOption.any (fun c =>
        (Conversion.ofSource .standard none c.output).toOption.any fun c' => c'.output != c.output) = true := by
    decide +kernel
  obtain ⟨c, hfirst, hany⟩ := exists_eq_ok_of_any hany
  obtain ⟨c', hsecond, hchanged⟩ := exists_eq_ok_of_any hany
  exact ⟨c, c', hfirst, hsecond, by simpa using hchanged⟩

end SwiftObservation.Migration
