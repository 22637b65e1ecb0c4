import SwiftObservation.Proofs.Migration.Settled

/-!
# White space and comments decide nothing

Each rule of the migration makes of a tree, trivia apart, what it makes of the tree without its trivia. The lemmas say so
rule by rule, as `(rule t).bare = (rule t.bare).bare`: what a rule asks about a tree has the same answer for the bare tree,
and all else it does to tokens is to move trivia between them. The one question that is about text, whether an entry of
an inheritance clause is the protocol, is asked of entries that the grammar made, where it comes down to a single token.
-/

namespace SwiftObservation.Migration

open SwiftObservation.Tree

variable {names : List Text} {label : Label} {children : List Tree} {s t : Tree}

/-! ### Questions about a tree -/

theorem isErased_bare (t : Tree) : isErased t.bare = isErased t := eq_of_bare isErased_asRead (bare_bare t)

theorem isPlainlyTyped_bare (t : Tree) : isPlainlyTyped t.bare = isPlainlyTyped t :=
  eq_of_bare isPlainlyTyped_asRead (bare_bare t)

theorem isWrappedValue_bare (t : Tree) : isWrappedValue t.bare = isWrappedValue t :=
  eq_of_bare isWrappedValue_asRead (bare_bare t)

theorem any_map_bare {p : Tree → Bool} (hp : ∀ t, p t.bare = p t) (trees : List Tree) :
    (trees.map bare).any p = trees.any p := by
  rw [List.any_map]
  congr 1
  funext t
  exact hp t

theorem find?_map_bare {p : Tree → Bool} (hp : ∀ t, p t.bare = p t) (trees : List Tree) :
    (trees.map bare).find? p = (trees.find? p).map bare := by
  rw [List.find?_map]
  congr 2
  funext t
  exact hp t

theorem filter_map_bare {p : Tree → Bool} (hp : ∀ t, p t.bare = p t) (trees : List Tree) :
    (trees.map bare).filter p = (trees.filter p).map bare := by
  rw [List.filter_map]
  congr 2
  funext t
  exact hp t

theorem countP_map_bare {p : Tree → Bool} (hp : ∀ t, p t.bare = p t) (trees : List Tree) :
    (trees.map bare).countP p = trees.countP p := by
  rw [List.countP_map]
  congr 1
  funext t
  exact hp t

theorem children_bare (t : Tree) : t.bare.children = t.children.map bare := by
  cases t <;> simp [Tree.children]

theorem child?_bare (t : Tree) (inner : Label) : t.bare.child? inner = (t.child? inner).map bare := by
  rw [child?, children_bare, find?_map_bare fun _ => is_bare, child?]

theorem plainType?_bare (t : Tree) : plainType? t.bare = (plainType? t).map bare := by
  rw [plainType?, child?_bare, plainType?]
  cases t.child? .typeClause with
  | none => rfl
  | some clause =>
      simp only [Option.map_some, Option.bind_eq_bind, Option.bind_some]
      rcases clause with _ | ⟨_, _ | ⟨_, _ | ⟨bound, _⟩⟩⟩ | _
      case node.cons.cons =>
        simp only [bare_node, Tree.children, List.map_cons, is_bare]
        split <;> rfl
      all_goals rfl

/-! ### Attributes and expressions -/

theorem bare_rename (text : Text) (t : Tree) : (rename text t).bare = (rename text t.bare).bare := by
  rcases t with _ | ⟨label, _ | ⟨_ | _ | _, _⟩⟩ | _ <;> simp [rename, bare_bare]

theorem bare_migrateAttribute (t : Tree) : (migrateAttribute t).bare = (migrateAttribute t.bare).bare := by
  rcases t with _ | ⟨label, _ | ⟨sign, _ | ⟨name, rest⟩⟩⟩ | _
  case node.cons.cons =>
    unfold migrateAttribute
    rw [isNamed_bare, isNamed_bare]
    simp only [bare_node, Tree.children, List.map_cons]
    split
    next => simp [bare_rename stateName name, bare_bare]
    next =>
      split
      next => cases sign <;> simp [erased, bare_bare]
      next => simp [bare_bare]
  all_goals simp [migrateAttribute, Tree.children, bare_bare]

theorem bare_migrateMember (t : Tree) : (migrateMember t).bare = (migrateMember t.bare).bare := by
  rcases t with _ | ⟨label, _ | ⟨receiver, _ | ⟨dot, _ | ⟨_ | _ | _, _ | _⟩⟩⟩⟩ | _
  case node.cons.cons.cons.leaf.nil name =>
    simp only [migrateMember, bare_node, List.map_cons, List.map_nil, bare_leaf]
    split <;> simp [bare_bare]
  all_goals simp [migrateMember, bare_bare]

theorem bare_migrateCall (t : Tree) : (migrateCall t).bare = (migrateCall t.bare).bare := by
  rcases t with _ | ⟨label, _ | ⟨_ | _ | _, _ | ⟨_ | ⟨inner, args⟩ | _, rest⟩⟩⟩ | _
  case node.cons.leaf.cons.node callee =>
    by_cases hinner : inner = .arguments
    · subst hinner
      simp only [migrateCall, bare_node, List.map_cons, bare_leaf, any_map_bare isWrappedValue_bare]
      split
      next =>
        have hargs : ∀ arg, (if isWrappedValue arg then rename initialValueLabel arg else arg).bare =
            (if isWrappedValue arg.bare then rename initialValueLabel arg.bare else arg.bare).bare := by
          intro arg
          rw [isWrappedValue_bare]
          split
          · exact bare_rename _ arg
          · exact (bare_bare arg).symm
        simpa [bare_bare] using fun arg _ => hargs arg
      next => simp [bare_bare]
    · have hother (found more : List Tree) (token : Token) :
          migrateCall (.node label (.leaf token :: .node inner found :: more)) =
            .node label (.leaf token :: .node inner found :: more) := by
        unfold migrateCall
        split
        next heq =>
          obtain ⟨-, hchildren⟩ := node.inj heq
          exact absurd (node.inj (List.cons.inj (List.cons.inj hchildren).2).1).1 hinner
        next => rfl
      simp [hother, bare_bare]
  all_goals simp [migrateCall, bare_bare]

/-! ### Attributes that go and types that move -/

/-- Trees that begin with a node without their trivia begin with one with it. -/
theorem exists_of_map_bare_eq {trees found rest : List Tree} (hbare : trees.map bare = .node label found :: rest) :
    ∃ found' rest', trees = .node label found' :: rest' := by
  obtain ⟨first, rest', rfl, hfirst, -⟩ := List.map_eq_cons_iff.mp hbare
  obtain ⟨found', rfl, -⟩ := exists_of_bare_eq hfirst
  exact ⟨found', rest', rfl⟩

/-- A rule that is about nodes with attributes needs to be looked at on these only. -/
theorem bare_of_attributes {rule : Tree → Tree}
    (hself : ∀ t, (∀ label found rest, t ≠ .node label (.node .attributes found :: rest)) → rule t = t)
    (hrule : ∀ label found rest, (rule (.node label (.node .attributes found :: rest))).bare =
      (rule (.node label (.node .attributes (found.map bare) :: rest.map bare))).bare) (t : Tree) :
    (rule t).bare = (rule t.bare).bare := by
  by_cases hattributes : ∃ label found rest, t = .node label (.node .attributes found :: rest)
  · obtain ⟨label, found, rest, rfl⟩ := hattributes
    simpa using hrule label found rest
  · have hother : ∀ label found rest, t.bare ≠ .node label (.node .attributes found :: rest) := by
      intro label found rest hbare
      obtain ⟨children, rfl, hchildren⟩ := exists_of_bare_eq hbare
      obtain ⟨found', rest', rfl⟩ := exists_of_map_bare_eq hchildren
      exact hattributes ⟨label, found', rest', rfl⟩
    rw [hself t fun label found rest heq => hattributes ⟨label, found, rest, heq⟩, hself t.bare hother, bare_bare]

theorem bare_dropAttributes {doomed : Tree → Bool} (hdoomed : ∀ t, doomed t.bare = doomed t) (t : Tree) :
    (dropAttributes doomed t).bare = (dropAttributes doomed t.bare).bare := by
  refine bare_of_attributes (fun t hother => ?_) (fun label found rest => ?_) t
  · unfold dropAttributes
    split
    next label found rest => exact absurd rfl (hother label found rest)
    next => rfl
  · obtain ⟨kept, behind, hdropped, hkept, hbehind⟩ := dropAttributes_eq doomed label found rest
    obtain ⟨kept', behind', hdropped', hkept', hbehind'⟩ := dropAttributes_eq doomed label (found.map bare) (rest.map bare)
    rw [filter_map_bare (p := (!doomed ·)) (fun t => by rw [hdoomed])] at hkept'
    rw [hdropped, hdropped']
    simp [hkept, hkept', hbehind, hbehind', bare_bare]

theorem map_bare_updateFirst {p : Tree → Bool} {f g : Tree → Tree} (hp : ∀ t, p t.bare = p t)
    (hfg : ∀ t, (f t).bare = (g t.bare).bare) (trees : List Tree) :
    (updateFirst p f trees).map bare = (updateFirst p g (trees.map bare)).map bare := by
  induction trees with
  | nil => rfl
  | cons t rest ih =>
      simp only [updateFirst, List.map_cons, hp]
      split <;> simp [hfg, ih, bare_bare]

theorem bare_typeReference (bound : Tree) : (typeReference bound).bare = bound.bare := by
  rw [typeReference, bare_mapLast (keepsWord_trailing _), bare_mapFirst (keepsWord_leading _)]

theorem bare_environmentAttribute (bound t : Tree) :
    (environmentAttribute bound t).bare = (environmentAttribute bound.bare t.bare).bare := by
  rcases t with _ | ⟨label, _ | ⟨sign, _ | ⟨name, _ | _⟩⟩⟩ | _
  case node.cons.cons.nil =>
    simp only [environmentAttribute, bare_node, Tree.children, List.map_cons, List.map_nil, lookupArguments, mark,
      bare_typeReference, bare_mapLast (keepsWord_trailing _), bare_rename environmentName name, bare_bare, bare_leaf]
  all_goals simp [environmentAttribute, Tree.children, bare_bare]

theorem bare_dropTypeClause (t : Tree) : (dropTypeClause t).bare = (dropTypeClause t.bare).bare := by
  have hself (label : Label) (children : List Tree) :
      (Tree.node label children).child? .typeClause = none → dropTypeClause (.node label children) = .node label children := by
    intro hclause
    unfold dropTypeClause
    rw [hclause]
    cases children <;> rfl
  rcases t with _ | ⟨label, _ | ⟨pattern, rest⟩⟩ | _
  case node.cons =>
    have hbare := child?_bare (.node label (pattern :: rest)) .typeClause
    cases hclause : (Tree.node label (pattern :: rest)).child? .typeClause with
    | none =>
        rw [hclause, bare_node] at hbare
        rw [hself _ _ hclause, bare_node, hself _ _ hbare]
        simp [bare_bare]
    | some clause =>
        rw [hclause, bare_node, List.map_cons] at hbare
        have herased : (rest.map bare).eraseP (·.is .typeClause) = (rest.eraseP (·.is .typeClause)).map bare := by
          rw [List.eraseP_map]
          congr 2
          funext s
          exact is_bare
        simp only [dropTypeClause, bare_node, List.map_cons, hclause, hbare, Option.map_some,
          bare_mapLast (keepsWord_trailing _), herased, bare_bare]
        simp [bare_bare]
  all_goals rfl

theorem bare_migrateEnvironment (t : Tree) : (migrateEnvironment t).bare = (migrateEnvironment t.bare).bare := by
  refine bare_of_attributes (fun t hother => ?_) (fun label found rest => ?_) t
  · unfold migrateEnvironment
    split
    next label found rest => exact absurd rfl (hother label found rest)
    next => rfl
  · rw [migrateEnvironment, migrateEnvironment, find?_map_bare (isNamed_bare environmentObjectName),
      find?_map_bare isPlainlyTyped_bare]
    cases found.find? (isNamed environmentObjectName) with
    | none => simp [bare_bare]
    | some target =>
        cases rest.find? isPlainlyTyped with
        | none => simp [bare_bare]
        | some binding =>
            simp only [Option.map_some, Option.bind_some, plainType?_bare]
            cases plainType? binding with
            | none => simp [bare_bare]
            | some bound =>
                simp only [Option.map_some, children_bare, List.length_map]
                split
                next =>
                  rw [bare_node, List.map_cons, bare_node, map_bare_updateFirst isPlainlyTyped_bare bare_dropTypeClause,
                    map_bare_updateFirst (isNamed_bare environmentObjectName) (bare_environmentAttribute bound),
                    bare_node, List.map_cons, bare_node]
                next => simp [bare_bare]

theorem bare_migrateVariables (t : Tree) : (migrateVariables t).bare = (migrateVariables t.bare).bare := by
  rw [migrateVariables, bare_dropAttributes isErased_bare, bare_migrateEnvironment,
    ← bare_dropAttributes isErased_bare, migrateVariables]

theorem bare_unpublish (t : Tree) : (unpublish t).bare = (unpublish t.bare).bare := by
  rw [unpublish, unpublish, is_bare]
  split
  · exact bare_dropAttributes (isNamed_bare publishedName) t
  · exact (bare_bare t).symm

/-! ### Inheritance clauses -/

mutual

theorem last?_bare (t : Tree) : t.bare.last? = t.last?.map bareToken := by
  cases t with
  | leaf token => rfl
  | absent => rfl
  | node label children => rw [bare, last?, last?, lastOf?_bareAll]

theorem lastOf?_bareAll (trees : List Tree) : lastOf? (bareAll trees) = (lastOf? trees).map bareToken := by
  cases trees with
  | nil => rfl
  | cons t rest => rw [bareAll, lastOf?, lastOf?, lastOf?_bareAll, last?_bare, Option.map_or]

end

theorem namesProtocol_bare (t : Tree) : namesProtocol t.bare = namesProtocol t := by
  cases t with
  | leaf | absent => rfl
  | node label children =>
      rcases children with _ | ⟨_ | ⟨inner, parts⟩ | _, _⟩
      case cons.node =>
        rcases parts with _ | ⟨_ | _ | _, _ | _⟩
        case cons.leaf.nil => cases inner <;> simp [namesProtocol, Tree.children]
        all_goals simp [namesProtocol, Tree.children]
      all_goals simp [namesProtocol, Tree.children]

theorem endsInComma_bare (t : Tree) : t.bare.endsInComma = t.endsInComma := by
  rw [endsInComma, children_bare, List.getLast?_map, endsInComma]
  cases t.children.getLast? with
  | none => rfl
  | some last => exact isLeaf_bare last .comma

/-- An entry that can be told by its words is told without its trivia. -/
theorem isProtocolEntry_bare (htellable : isTellable t = true) : isProtocolEntry t.bare = isProtocolEntry t := by
  have hbare : isTellable t.bare = true := (eq_of_bare isTellable_asRead (bare_bare t)).trans htellable
  rw [isProtocolEntry_eq hbare, isProtocolEntry_eq htellable, namesProtocol_bare]

/-- Two clauses become the same without the protocol, trivia apart. -/
inductive Pruned.Alike : Pruned → Pruned → Prop where
  | dangling : Alike .dangling .dangling
  | emptied (trailing trailing' : Text) : Alike (.emptied trailing) (.emptied trailing')
  | kept {entries entries' : List Tree} (same : entries.map bare = entries'.map bare) : Alike (.kept entries) (.kept entries')

/-- The trivia that is carried from entry to entry decides nothing. -/
theorem pruneFrom_alike {entries : List Tree} (htellable : entries.all isTellable = true) {reversed reversed' : List Tree}
    (hreversed : reversed.map bare = reversed'.map bare) (carried carried' : Option Text) :
    Pruned.Alike (pruneFrom reversed carried entries) (pruneFrom reversed' carried' (entries.map bare)) := by
  induction entries generalizing reversed reversed' carried carried' with
  | nil =>
      have hempty : reversed.isEmpty = reversed'.isEmpty := by simpa using congrArg List.isEmpty hreversed
      rw [List.map_nil, pruneFrom, pruneFrom, hempty]
      split
      next => exact .dangling
      next => exact .kept (by rw [List.map_reverse, hreversed, List.map_reverse])
  | cons entry rest ih =>
      rw [List.all_cons, Bool.and_eq_true] at htellable
      have hcomma : entry.bare.last?.any (·.kind == .comma) = entry.last?.any (·.kind == .comma) := by
        rw [last?_bare, Option.any_map]
        rfl
      rw [List.map_cons, pruneFrom, pruneFrom, isProtocolEntry_bare htellable.1, hcomma]
      split
      next =>
        split
        next => exact ih htellable.2 hreversed _ _
        next =>
          rcases reversed with _ | ⟨before, earlier⟩ <;> rcases reversed' with _ | ⟨before', earlier'⟩
          case nil.nil => exact .emptied _ _
          case cons.cons =>
            obtain ⟨hbefore, hearlier⟩ := List.cons.inj hreversed
            refine ih htellable.2 ?_ _ _
            rw [List.map_cons, List.map_cons, bare_stripComma_eq hbefore, hearlier]
          all_goals simp at hreversed
      next =>
        refine ih htellable.2 ?_ _ _
        simp only [List.map_append, List.map_reverse, map_bare_deliver, hreversed]
        simp [bare_bare]

/-- The same becomes of the children of two classes, trivia apart. -/
inductive Leaving.Alike : Leaving → Leaving → Prop where
  | absent : Alike .absent .absent
  | dangling : Alike .dangling .dangling
  | done {children children' : List Tree} (same : children.map bare = children'.map bare) :
      Alike (.done children) (.done children')

theorem inheritedEntries_map_bare (children : List Tree) :
    inheritedEntries (children.map bare) = (inheritedEntries children).map bare := by
  rw [inheritedEntries, find?_map_bare fun _ => is_bare, inheritedEntries]
  cases children.find? (·.is .inheritance) with
  | none => rfl
  | some clause => simp [children_bare, List.map_tail]

theorem leaveProtocol_alike (htellable : (inheritedEntries children).all isTellable = true) :
    Leaving.Alike (leaveProtocol children) (leaveProtocol (children.map bare)) := by
  obtain ⟨hnone, habsent⟩ | ⟨before, colon, entries, behind, rfl, hbefore, hentries⟩ := inheritedEntries_cases children
  · have hnone' : (inheritedEntries (children.map bare)).any isProtocolEntry = false := by
      rw [inheritedEntries_map_bare, hnone]
      rfl
    rw [habsent, leaveProtocol_eq_absent hnone']
    exact .absent
  · rw [hentries] at htellable
    have hbefore' : ∀ t ∈ before.map bare, t.is .inheritance = false := by simpa using hbefore
    have hany : (entries.map bare).any isProtocolEntry = entries.any isProtocolEntry := by
      rw [Bool.eq_iff_iff, List.any_map, List.any_eq_true, List.any_eq_true]
      exact exists_congr fun entry => and_congr_right fun hentry => by
        rw [Function.comp_apply, isProtocolEntry_bare (List.all_eq_true.mp htellable entry hentry)]
    rw [List.map_append, List.map_cons, bare_node, List.map_cons, leaveProtocol_append hbefore, leaveProtocol_append hbefore',
      hany]
    split
    next =>
      have hpruned := pruneFrom_alike htellable (rfl : ([] : List Tree).map bare = _) none none
      rw [← prune, ← prune] at hpruned
      generalize prune entries = left at hpruned
      generalize prune (entries.map bare) = left' at hpruned
      cases hpruned with
      | dangling => exact .dangling
      | emptied => exact .done (by simp [map_bare_endWith, bare_bare, Function.comp_def])
      | kept hsame => exact .done (by simp [hsame, bare_bare, Function.comp_def])
    next => exact .absent

/-! ### Classes -/

theorem map_bare_unpublishBody (children : List Tree) :
    (unpublishBody children).map bare = (unpublishBody (children.map bare)).map bare := by
  unfold unpublishBody
  rw [List.getLast?_map]
  cases children.getLast? with
  | none => simp [bare_bare]
  | some last =>
      cases last with
      | leaf token => simp [bare_bare]
      | absent => simp [bare_bare]
      | node label members =>
          simpa [bare_bare, Function.comp_def, ← List.map_dropLast] using fun member _ => bare_unpublish member

theorem prependObservable_eq_self (hother : ∀ found rest, children ≠ .node .attributes found :: rest) :
    prependObservable children = children := by
  unfold prependObservable
  split
  next => rfl
  next head hhead =>
    dsimp only
    split
    next found rest hindented =>
      have hbare := map_bare_mapFirstOf?_getD (keepsWord_leading fun _ => Trivia.indentation head.leading) children
      rw [hindented, List.map_cons, bare_node] at hbare
      obtain ⟨found', rest', rfl⟩ := exists_of_map_bare_eq hbare.symm
      exact absurd rfl (hother found' rest')
    next => rfl

theorem map_bare_prependObservable (children : List Tree) :
    (prependObservable children).map bare = (prependObservable (children.map bare)).map bare := by
  have hfirst : (firstOf? (children.map bare)).isSome = (firstOf? children).isSome := by
    have hsame := congrArg firstOf? (asReadAll_bareAll children)
    rw [firstOf?_asReadAll, firstOf?_asReadAll, bareAll_eq_map] at hsame
    simpa using congrArg Option.isSome hsame
  by_cases hattributes : ∃ found rest, children = .node .attributes found :: rest
  · obtain ⟨found, rest, rfl⟩ := hattributes
    rw [List.map_cons, bare_node] at hfirst ⊢
    cases hsome : (firstOf? (.node .attributes found :: rest)).isSome with
    | false =>
        rw [hsome, Option.isSome_eq_false_iff, Option.isNone_iff_eq_none] at hfirst
        rw [Option.isSome_eq_false_iff, Option.isNone_iff_eq_none] at hsome
        rw [prependObservable, hsome, prependObservable, hfirst]
        simp [bare_bare]
    | true =>
        obtain ⟨_, _, found', rest', heq, hbare⟩ := prependObservable_eq hsome
        obtain ⟨_, _, found'', rest'', heq', hbare'⟩ := prependObservable_eq (hfirst.trans hsome)
        rw [List.map_cons, List.map_cons, List.cons.injEq, bare_node, bare_node, node.injEq] at hbare hbare'
        rw [heq, heq']
        simp [hbare.1.2, hbare.2, hbare'.1.2, hbare'.2, bare_bare, observableAttribute]
  · have hother : ∀ found rest, children.map bare ≠ .node .attributes found :: rest := by
      intro found rest hbare
      obtain ⟨found', rest', rfl⟩ := exists_of_map_bare_eq hbare
      exact hattributes ⟨found', rest', rfl⟩
    rw [prependObservable_eq_self fun found rest heq => hattributes ⟨found, rest, heq⟩, prependObservable_eq_self hother]
    simp [bare_bare]

theorem map_bare_convertClass_eq {attributes attributes' : Tree} {children' : List Tree}
    (hattributes : attributes.bare = attributes'.bare) (hchildren : children.map bare = children'.map bare) :
    (convertClass attributes children).map bare = (convertClass attributes' children').map bare := by
  have hself (attributes : Tree) (children : List Tree) : (convertClass attributes children).map bare =
      (convertClass attributes.bare (children.map bare)).map bare := by
    rw [convertClass, convertClass, children_bare, any_map_bare (isNamed_bare observableName)]
    split
    · exact map_bare_unpublishBody children
    · rw [map_bare_prependObservable, map_bare_unpublishBody, ← map_bare_prependObservable]
  rw [hself attributes, hattributes, hchildren, ← hself]

theorem bare_migrateType (htellable : (inheritedEntries children).all isTellable = true) :
    (migrateType names (.node label children)).bare = (migrateType names (Tree.node label children).bare).bare := by
  rcases children with _ | ⟨attributes, _ | ⟨modifiers, _ | ⟨_ | _ | _, _ | ⟨name, rest⟩⟩⟩⟩
  case cons.cons.cons.leaf.cons keyword =>
    have hleft := leaveProtocol_alike htellable
    have hname : name.bare.token?.any (names.contains ·.text) = name.token?.any (names.contains ·.text) := by
      cases name <;> rfl
    simp only [List.map_cons, bare_leaf] at hleft
    simp only [migrateType, bare_node, List.map_cons, bare_leaf, hname]
    split
    next =>
      generalize leaveProtocol (attributes :: modifiers :: .leaf keyword :: name :: rest) = left at hleft
      generalize leaveProtocol (attributes.bare :: modifiers.bare :: .leaf { kind := keyword.kind, text := keyword.text } ::
        name.bare :: rest.map bare) = left' at hleft
      cases hleft with
      | absent =>
          dsimp only
          split
          · rw [bare_node, bare_node, node.injEq]
            exact ⟨rfl, map_bare_convertClass_eq (bare_bare attributes).symm (by simp [bare_bare])⟩
          · simp [bare_bare]
      | dangling => simp [bare_bare]
      | done hsame => rw [bare_node, bare_node, map_bare_convertClass_eq (bare_bare attributes).symm hsame]
    next => simp [bare_bare]
  all_goals simp [migrateType, bare_bare]

/-! ### Whole trees -/

/-- The rule for a label makes of a node, trivia apart, what it makes of the bare one. -/
theorem bare_migrateNode (htellable : label = .typeDecl → (inheritedEntries children).all isTellable = true) :
    (migrateNode names label children).bare = (migrateNode names label (children.map bare)).bare := by
  cases label
  case typeDecl => simpa [migrateNode] using bare_migrateType (htellable rfl)
  case variableDecl => simpa [migrateNode] using bare_migrateVariables (.node .variableDecl children)
  case attr => simpa [migrateNode] using bare_migrateAttribute (.node .attr children)
  case call => simpa [migrateNode] using bare_migrateCall (.node .call children)
  case memberAccess => simpa [migrateNode] using bare_migrateMember (.node .memberAccess children)
  all_goals simp [migrateNode, bare_bare]

/-- Trees that are the same trivia apart are mapped to such trees, if the map makes one of any two. -/
theorem map_bare_map_eq {f : Tree → Tree} {trees trees' : List Tree} (hsame : trees.map bare = trees'.map bare)
    (hf : ∀ s ∈ trees, ∀ t ∈ trees', s.bare = t.bare → (f s).bare = (f t).bare) :
    (trees.map f).map bare = (trees'.map f).map bare := by
  induction trees generalizing trees' with
  | nil =>
      obtain rfl : trees' = [] := by simpa using hsame.symm
      rfl
  | cons s rest ih =>
      obtain ⟨t, rest', rfl, hfirst, hrest⟩ := List.map_eq_cons_iff.mp hsame.symm
      simp only [List.map_cons, hf s (by simp) t (by simp) hfirst.symm]
      rw [ih hrest.symm fun s hs t ht => hf s (by simp [hs]) t (by simp [ht])]

/-- White space, comments and positions decide nothing: two trees of the grammar that differ in these only are migrated to
two trees that differ in these only. -/
theorem bare_migrate_eq (names : List Text) (hs : s.Shaped) (ht : t.Shaped) (hsame : s.bare = t.bare) :
    (migrate names s).bare = (migrate names t).bare := by
  induction hs generalizing t with
  | leaf token =>
      cases t with
      | leaf token' => exact hsame
      | node _ _ => simp at hsame
      | absent => simp at hsame
  | absent =>
      cases t with
      | leaf token' => simp at hsame
      | node _ _ => simp at hsame
      | absent => rfl
  | @node label children hadmits hinner ih =>
      have hs : Shaped (.node label children) := .node hadmits hinner
      obtain ⟨children', rfl, hinside⟩ := exists_of_bare_eq (hsame.symm.trans bare_node)
      have hchildren : (children.map (migrate names)).map bare = (children'.map (migrate names)).map bare :=
        map_bare_map_eq hinside.symm fun s hs t hmem => ih s hs (ht.of_mem hmem)
      have htellable {children : List Tree} (hshaped : Shaped (.node label children)) :
          label = .typeDecl → (inheritedEntries (children.map (migrate names))).all isTellable = true := by
        rintro rfl
        exact all_isTellable_migrate hshaped
      rw [migrate_node, migrate_node, bare_migrateNode (htellable hs), hchildren, ← bare_migrateNode (htellable ht)]

/-- A class on one line and the same class with comments and line breaks between its tokens are migrated alike. -/
theorem bare_migrate_eq_commented :
    ∃ s t, Tree.ofSource .standard
        "class A: ObservableObject, B { @Published var x = 0; @EnvironmentObject var y: C }\n".toList = .ok s ∧
      Tree.ofSource .standard ("// first\nclass A :ObservableObject /* second */,\n  B \x7b\n  @Published // third\n" ++
        "  var x = 0;\n  @EnvironmentObject\n  var y : C // fourth\n\x7d").toList = .ok t ∧
      s.Shaped ∧ t.Shaped ∧ s ≠ t ∧ s.bare = t.bare ∧ (migrate [] s).bare ≠ s.bare ∧
      (migrate [] s).bare = (migrate [] t).bare := by
  have hany : (Tree.ofSource .standard
      "class A: ObservableObject, B { @Published var x = 0; @EnvironmentObject var y: C }\n".toList).toOption.any (fun s =>
        (Tree.ofSource .standard ("// first\nclass A :ObservableObject /* second */,\n  B \x7b\n  @Published // third\n" ++
          "  var x = 0;\n  @EnvironmentObject\n  var y : C // fourth\n\x7d").toList).toOption.any fun t =>
            decide (s ≠ t ∧ s.bare = t.bare ∧ (migrate [] s).bare ≠ s.bare)) = true := by
    decide +kernel
  obtain ⟨s, hread, hany⟩ := exists_eq_ok_of_any hany
  obtain ⟨t, hread', hall⟩ := exists_eq_ok_of_any hany
  obtain ⟨hdiffer, hsame, hchanged⟩ := of_decide_eq_true hall
  have hs : s.Shaped := Tree.shaped_of_ofSource hread
  have ht : t.Shaped := Tree.shaped_of_ofSource hread'
  exact ⟨s, t, hread, hread', hs, ht, hdiffer, hsame, hchanged, bare_migrate_eq [] hs ht hsame⟩

end SwiftObservation.Migration
