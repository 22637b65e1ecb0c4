import SwiftObservation.Proofs.Grammar.Spelling
import SwiftObservation.Proofs.Migration.Origin

/-!
# No legacy construct is left behind

`isLegacy` says of a node that it is one of the constructs that the migration is there to replace: a wrapper with an old
name, an access to an old modifier, a call of an old wrapper with an old label, a class that conforms to the protocol. The
migration of a source's tree has no such node at any depth, whatever the names. Every rule is complete on its own pattern,
and `sourced_migrate` says that nothing but the results of rules has to be looked at.

Whether a declaration of variables keeps the wrapper of an object from the environment depends on the declaration that it
comes from: with a single wrapper, without arguments, the wrapper stays only where no binding has a plain type to give.
-/

namespace SwiftObservation.Migration

open SwiftObservation.Tree

variable {names : List Text} {label : Label} {children : List Tree} {r s t : Tree}

/-- The call with the given children is one of the wrapper of an owned object, and it is given a wrapped value. -/
def isLegacyCall : List Tree → Bool
  | .leaf callee :: .node .arguments args :: _ => callee.text == stateObjectName && args.any isWrappedValue
  | _ => false

/-- The type declaration with the given children is a class that names the protocol. A clause of which all entries name it
and end in a comma is left alone. -/
def isLegacyClass (children : List Tree) : Bool :=
  children[2]?.any (·.isLeaf .classWord) && (inheritedEntries children).any namesProtocol &&
    !(inheritedEntries children).all fun entry => namesProtocol entry && entry.endsInComma

/-- The node is a construct that the migration replaces. -/
def isLegacy : Tree → Bool
  | .node .attr children =>
    isNamed stateObjectName (.node .attr children) || isNamed observedObjectName (.node .attr children)
  | .node .memberAccess children =>
    children.getLast?.any fun name => name.token?.any (·.text == environmentObjectModifier)
  | .node .call children => isLegacyCall children
  | .node .typeDecl children => isLegacyClass children
  | _ => false

/-- The declaration of variables has one wrapper of an object from the environment, and it has no arguments. -/
def hasPlainLookup : Tree → Bool
  | .node .variableDecl (.node .attributes found :: _) =>
    found.countP (isNamed environmentObjectName) == 1 &&
      (found.find? (isNamed environmentObjectName)).any fun attr => (attr.child? .arguments).isNone
  | _ => false

/-- The declaration of variables has a wrapper of an object from the environment and a type to look it up by. -/
def awaitsLookup (t : Tree) : Bool := lookups t != 0 && t.children.any isPlainlyTyped

/-! ### Without trivia -/

theorem lookups_bare (t : Tree) : lookups t.bare = lookups t := by
  rcases t with _ | ⟨label, _ | ⟨_ | ⟨inner, found⟩ | _, _⟩⟩ | _
  case node.cons.node =>
    have hfound := countP_map_bare (isNamed_bare environmentObjectName) found
    cases label <;> cases inner <;> first | rfl | simp [lookups, hfound]
  case leaf | absent => rfl
  all_goals cases label <;> rfl

theorem awaitsLookup_bare (t : Tree) : awaitsLookup t.bare = awaitsLookup t := by
  rw [awaitsLookup, lookups_bare, children_bare, any_map_bare isPlainlyTyped_bare, awaitsLookup]

theorem isLegacyCall_map_bare (children : List Tree) : isLegacyCall (children.map bare) = isLegacyCall children := by
  rcases children with _ | ⟨_ | _ | _, _ | ⟨_ | ⟨inner, args⟩ | _, _⟩⟩
  case cons.leaf.cons.node =>
    have hargs := any_map_bare isWrappedValue_bare args
    cases inner <;> simp [isLegacyCall, hargs]
  all_goals simp [isLegacyCall]

theorem isLegacyClass_map_bare (children : List Tree) : isLegacyClass (children.map bare) = isLegacyClass children := by
  have hkeyword : (children.map bare)[2]?.any (·.isLeaf .classWord) = children[2]?.any (·.isLeaf .classWord) := by
    rw [List.getElem?_map]
    rcases children[2]? with _ | ⟨_ | _ | _⟩ <;> rfl
  rw [isLegacyClass, hkeyword, inheritedEntries_map_bare, any_map_bare namesProtocol_bare, List.all_map, isLegacyClass]
  simp only [Function.comp_def, namesProtocol_bare, endsInComma_bare]

theorem isLegacy_bare (t : Tree) : isLegacy t.bare = isLegacy t := by
  cases t with
  | leaf token => rfl
  | absent => rfl
  | node label children =>
      cases label
      case attr => rw [bare_node, isLegacy, ← bare_node, isNamed_bare, isNamed_bare, isLegacy]
      case memberAccess =>
        rw [bare_node, isLegacy, List.getLast?_map, isLegacy]
        rcases children.getLast? with _ | ⟨_ | _ | _⟩ <;> rfl
      case call => rw [bare_node, isLegacy, isLegacyCall_map_bare, isLegacy]
      case typeDecl => rw [bare_node, isLegacy, isLegacyClass_map_bare, isLegacy]
      all_goals rw [bare_node]; rfl

/-! ### What the rules leave -/

theorem not_isLegacy_migrate_attr (ht : Shaped (.node .attr children)) :
    isLegacy (migrate names (.node .attr children)) = false := by
  cases hstate : isNamed stateObjectName (.node .attr children) with
  | true =>
      obtain ⟨sign, token, rest, rfl, htoken⟩ := exists_of_isNamed hstate
      rw [migrate_attr_stateObject htoken]
      rfl
  | false =>
      cases hobserved : isNamed observedObjectName (.node .attr children) with
      | true =>
          obtain ⟨sign, token, rest, rfl, htoken⟩ := exists_of_isNamed hobserved
          obtain ⟨sign, _, _, hchildren, -⟩ := ht.admits
          obtain ⟨rfl, -⟩ := List.cons.inj hchildren
          rw [migrate_attr_observedObject htoken]
          rfl
      | false =>
          rw [migrate_attr_of_not_isNamed hstate hobserved, isLegacy, isNamed_map_migrate, hstate, isNamed_map_migrate, hobserved]
          rfl

theorem not_isLegacy_migrate_memberAccess (ht : Shaped (.node .memberAccess children)) :
    isLegacy (migrate names (.node .memberAccess children)) = false := by
  obtain ⟨receiver, dot, name, rfl, -⟩ := ht.admits
  rw [migrate_node, migrateNode]
  simp only [List.map_cons, List.map_nil, migrate_leaf, migrateMember]
  split
  next => rfl
  next hname => simpa [isLegacy, token?] using hname

/-- A call is a legacy construct just if the rule for calls is for it, where words that are spelled like the wrapper of an
owned object are identifiers. -/
theorem not_isLegacy_migrateCall
    (hkind : ∀ token, .leaf token ∈ children → token.text = stateObjectName → token.kind = .identifier) :
    isLegacy (migrateCall (.node .call children)) = false := by
  unfold migrateCall
  split
  next label callee args rest heq =>
    obtain ⟨rfl, rfl⟩ := node.inj heq
    split
    next => rfl
    next hother =>
      rw [isLegacy, isLegacyCall, Bool.eq_false_iff]
      intro hlegacy
      obtain ⟨htext, hargs⟩ := Bool.and_eq_true_iff.mp hlegacy
      rw [beq_iff_eq] at htext
      exact hother (by simp [hkind callee (by simp) htext, htext, hargs, -List.any_eq_true])
  next hother =>
    rw [isLegacy]
    unfold isLegacyCall
    split
    next callee args rest => exact absurd rfl (hother _ callee args rest)
    next => rfl

theorem namesProtocol_cons (label label' : Label) (first : Tree) (rest rest' : List Tree) :
    namesProtocol (.node label (first :: rest)) = namesProtocol (.node label' (first :: rest')) := by
  rcases first with _ | ⟨inner, _ | ⟨_ | _ | _, _ | _⟩⟩ | _
  case node.cons.leaf.nil => cases inner <;> rfl
  all_goals simp [namesProtocol, Tree.children]

/-- What remains of the entries of an inheritance clause does not name the protocol. -/
theorem Remains.not_namesProtocol {entries : List Tree} (hentries : ∀ entry ∈ entries, ∃ inner parts rest,
      entry.bare = .node .inheritedType (.node inner parts :: rest)) {entry : Tree} (hentry : Remains entries entry) :
    namesProtocol entry = false ∧ ∃ inner parts rest, entry.bare = .node .inheritedType (.node inner parts :: rest) := by
  induction hentry with
  | @entry t hmem hother =>
      refine ⟨?_, hentries t hmem⟩
      rw [Bool.eq_false_iff]
      intro hnames
      rw [isProtocolEntry_of_namesProtocol hnames] at hother
      simp at hother
  | congr hsame _ ih => exact ⟨by rw [← namesProtocol_bare, ← hsame, namesProtocol_bare, ih.1], hsame ▸ ih.2⟩
  | strip trailing _ ih =>
      obtain ⟨hother, inner, parts, rest, hbare⟩ := ih
      obtain ⟨more, -, hstripped⟩ := exists_bare_stripComma hbare trailing
      refine ⟨?_, inner, parts, more, hstripped⟩
      rw [← namesProtocol_bare, hstripped, namesProtocol_cons _ .inheritedType _ _ rest, ← hbare, namesProtocol_bare, hother]

theorem ClassParts.exists_bare_of_mem_clause {p : ClassParts} (ht : Shaped (.node .typeDecl p.trees)) {colon : Tree}
    {entries : List Tree} (hclause : (p.migrated names).clause = some (colon :: entries)) :
    ∀ entry ∈ entries, ∃ inner parts rest, entry.bare = .node .inheritedType (.node inner parts :: rest) := by
  intro entry hentry
  obtain ⟨parts, hparts, hmigrated⟩ := Option.map_eq_some_iff.mp hclause
  obtain ⟨colon', originals, rfl, horiginals⟩ := Shaped.areEntries (shaped_clause ht parts hparts)
  obtain ⟨-, rfl⟩ := List.cons.inj hmigrated
  obtain ⟨original, horiginal, rfl⟩ := List.mem_map.mp hentry
  obtain ⟨children, rfl⟩ := exists_of_is (horiginals.label original horiginal)
  exact exists_bare_migrate (horiginals.shaped _ horiginal)

theorem ClassParts.not_isLegacy_migrate {p : ClassParts} (ht : Shaped (.node .typeDecl p.trees)) :
    isLegacy (migrate names (.node .typeDecl p.trees)) = false := by
  cases hconverted : isConverted names p.trees with
  | false =>
      obtain ⟨hany, hall⟩ := any_namesProtocol_migrated names ht
      rw [migrate_of_not_isConverted (shaped_clause ht) hconverted, map_migrate_trees, isLegacy, isLegacyClass,
        inheritedEntries_eq, hany, hall]
      rw [isConverted_eq] at hconverted
      cases hsome : p.entries.any namesProtocol with
      | false => simp
      | true =>
          rw [hsome, if_pos rfl] at hconverted
          rw [hconverted]
          simp
  | true =>
      obtain ⟨attributes, clause, hbare, -, hclause⟩ := exists_remains_of_isConverted ht hconverted
      rw [← isLegacy_bare, hbare, isLegacy_bare, isLegacy, isLegacyClass, inheritedEntries_eq]
      have hnone : ((p.migrated names).converted attributes clause).entries.any namesProtocol = false := by
        cases clause with
        | none => rfl
        | some parts =>
            obtain ⟨colon, entries, kept, hentries, rfl, hkept⟩ := hclause parts rfl
            rw [List.any_eq_false]
            intro entry hentry
            rw [(Remains.not_namesProtocol (exists_bare_of_mem_clause ht hentries) (hkept entry hentry)).1]
            simp
      rw [hnone]
      simp

theorem not_isLegacy_migrate_typeDecl (ht : Shaped (.node .typeDecl children)) :
    isLegacy (migrate names (.node .typeDecl children)) = false := by
  obtain ⟨attributes, modifiers, keyword, name, rest, rfl, hkind⟩ | ⟨p, rfl⟩ := ClassParts.cases_of_shaped ht
  · rw [migrate_of_not_isClass hkind, isLegacy, isLegacyClass]
    simp [isLeaf, token?, hkind]
  · exact ClassParts.not_isLegacy_migrate ht

/-- The migration of a node is no legacy construct. -/
theorem not_isLegacy_migrate (hs : s.Shaped)
    (hkind : ∀ token ∈ s.leaves, token.text = stateObjectName → token.kind = .identifier) :
    isLegacy (migrate names s) = false := by
  cases s with
  | leaf token => rfl
  | absent => rfl
  | node label children =>
      cases label
      case attr => exact not_isLegacy_migrate_attr hs
      case memberAccess => exact not_isLegacy_migrate_memberAccess hs
      case typeDecl => exact not_isLegacy_migrate_typeDecl hs
      case call =>
        rw [migrate_node, migrateNode]
        refine not_isLegacy_migrateCall fun token hmem => hkind token ?_
        obtain ⟨child, hchild, heq⟩ := List.mem_map.mp hmem
        have htoken : child.token? = some token := by rw [← @token?_migrate names, heq]; rfl
        refine mem_leavesOf.mpr ⟨child, hchild, ?_⟩
        cases child with
        | leaf token' => simpa [leaves, token?, eq_comm] using htoken
        | node _ _ => simp [token?] at htoken
        | absent => simp [token?] at htoken
      all_goals
        obtain ⟨children', hnode⟩ := exists_migrateNode names _ (children.map (migrate names))
        rw [migrate_node, hnode]
        rfl

/-! ### Variables -/

theorem awaitsLookup_variableDecl {found rest : List Tree} :
    awaitsLookup (.node .variableDecl (.node .attributes found :: rest)) =
      (found.any (isNamed environmentObjectName) && rest.any isPlainlyTyped) := by
  have hcount : (found.countP (isNamed environmentObjectName) != 0) = found.any (isNamed environmentObjectName) := by
    rw [Bool.eq_iff_iff, bne_iff_ne, ← Nat.pos_iff_ne_zero, List.countP_pos_iff, List.any_eq_true]
  rw [awaitsLookup, lookups, hcount]
  rfl

/-- The loss of attributes gives a declaration of variables nothing to look up. -/
theorem awaitsLookup_of_dropAttributes {doomed : Tree → Bool} {decl : Tree} (hdeclares : decl.is .variableDecl = true)
    (hawaits : awaitsLookup (dropAttributes doomed decl) = true) : awaitsLookup decl = true := by
  obtain heq | ⟨label, found, rest, kept, behind, rfl, heq, hkept, hbehind⟩ := dropAttributes_cases doomed decl
  · rwa [heq] at hawaits
  · obtain rfl : label = .variableDecl := by simpa using hdeclares
    rw [heq, awaitsLookup_variableDecl, Bool.and_eq_true] at hawaits
    rw [awaitsLookup_variableDecl, Bool.and_eq_true]
    refine ⟨?_, ?_⟩
    · have hany := hawaits.1
      rw [← any_map_bare (isNamed_bare environmentObjectName), hkept, any_map_bare (isNamed_bare environmentObjectName),
        List.any_eq_true] at hany
      obtain ⟨attr, hattr, hnamed⟩ := hany
      exact List.any_eq_true.mpr ⟨attr, (List.mem_filter.mp hattr).1, hnamed⟩
    · rw [← any_map_bare isPlainlyTyped_bare, ← hbehind, any_map_bare isPlainlyTyped_bare]
      exact hawaits.2

theorem not_isNamed_environmentAttribute (bound : Tree) (hnamed : isNamed environmentObjectName t = true)
    (hlength : t.children.length = 2) : isNamed environmentObjectName (environmentAttribute bound t) = false := by
  cases t with
  | leaf token => simp [Tree.children] at hlength
  | absent => simp [Tree.children] at hlength
  | node label children =>
      obtain ⟨sign, token, rest, rfl, -⟩ := exists_of_isNamed hnamed
      obtain rfl : rest = [] := by simpa [Tree.children] using hlength
      rfl

theorem length_children_of_not_arguments (ht : Shaped (.node .attr children))
    (hplain : ((Tree.node .attr children).child? .arguments).isNone = true) : children.length = 2 := by
  obtain ⟨sign, name, args, rfl, -⟩ := ht.admits
  cases args with
  | none => rfl
  | some args => simp [child?, Tree.children, Tree.optional] at hplain

/-- A single wrapper without arguments does not stay beside a type to look the object up by. -/
theorem not_awaitsLookup_migrate (hs : s.Shaped) (hplain : hasPlainLookup s = true) : awaitsLookup (migrate names s) = false := by
  obtain ⟨children, rfl⟩ : ∃ children, s = .node .variableDecl children := by
    unfold hasPlainLookup at hplain
    split at hplain
    next found rest => exact ⟨_, rfl⟩
    next => simp at hplain
  obtain ⟨found, rest, rfl, hattrs, -⟩ := Shaped.variables_eq hs
  rw [hasPlainLookup, Bool.and_eq_true, beq_iff_eq, Option.any_eq_true] at hplain
  obtain ⟨honce, target, htarget, harguments⟩ := hplain
  have hlength : (found.find? (isNamed environmentObjectName)).any (·.children.length == 2) = true := by
    obtain ⟨hshaped, hattr⟩ := hattrs target (List.mem_of_find?_eq_some htarget)
    obtain ⟨parts, rfl⟩ := exists_of_is hattr
    rw [htarget, Option.any_some, beq_iff_eq]
    exact length_children_of_not_arguments hshaped harguments
  rw [migrate_node, migrateNode, List.map_cons, migrate_node_of_not_mem .attributes (by decide), migrateVariables,
    Bool.eq_false_iff]
  intro hawaits
  have hbefore := awaitsLookup_of_dropAttributes (by rw [Tree.is, label?_migrateEnvironment]; rfl) hawaits
  obtain ⟨hmoves, heq⟩ | ⟨target, _, bound, htarget, hlength, -, -, heq⟩ :=
    migrateEnvironment_cases .variableDecl (found.map (migrate names)) (rest.map (migrate names))
  · rw [heq, awaitsLookup_variableDecl, Bool.and_eq_true] at hbefore
    rw [movesType, length_target_migrate names hattrs, hlength, hbefore.2] at hmoves
    simp at hmoves
  · rw [heq, awaitsLookup_variableDecl, any_updateFirst_eq_false] at hbefore
    · simp at hbefore
    · rw [countP_environmentObject_migrate hattrs, honce]
    · intro attr hattr
      obtain rfl : target = attr := Option.some.inj (htarget.symm.trans hattr)
      exact not_isNamed_environmentAttribute bound (List.find?_some htarget) hlength

/-! ### Whole sources -/

/-- Only nodes that a rule is for are legacy constructs. -/
theorem not_isLegacy_of_unruled (hunruled : ∀ label ∈ ruled, r.is label = false) : isLegacy r = false := by
  cases r with
  | leaf token => rfl
  | absent => rfl
  | node label children =>
      cases label
      case attr => exact absurd (hunruled .attr (by decide)) (by simp)
      case memberAccess => exact absurd (hunruled .memberAccess (by decide)) (by simp)
      case call => exact absurd (hunruled .call (by decide)) (by simp)
      case typeDecl => exact absurd (hunruled .typeDecl (by decide)) (by simp)
      all_goals rfl

theorem Origin.not_isLegacy (hr : Origin names t r) (ht : t.Shaped)
    (hkind : ∀ token ∈ t.leaves, token.text = stateObjectName → token.kind = .identifier) : isLegacy r = false := by
  cases hr with
  | migrated s hwithin hsame =>
      rw [← isLegacy_bare, hsame, isLegacy_bare]
      exact not_isLegacy_migrate (ht.of_within hwithin) fun token hmem => hkind token (hwithin.leaves_subset hmem)
  | unpublished s hwithin hdeclares hsame =>
      have hlabel : r.is .variableDecl = true := by
        rw [← is_bare, hsame, is_bare, Migration.unpublish, is_migrate, if_pos hdeclares, Tree.is, label?_dropAttributes]
        exact (is_migrate s .variableDecl).trans hdeclares
      obtain ⟨children, rfl⟩ := exists_of_is hlabel
      rfl
  | successor hattr hname =>
      obtain ⟨children, rfl⟩ := exists_of_is hattr
      rw [isLegacy, isNamed, isNamed]
      rcases List.mem_cons.mp hname with hname | hname
      · rw [hname]
        rfl
      · rw [List.mem_singleton.mp hname]
        rfl
  | lookup bound hsame =>
      rw [← isLegacy_bare, hsame, isLegacy_bare]
      rfl
  | plain hunruled => exact not_isLegacy_of_unruled hunruled

theorem Becomes.not_awaitsLookup (hbecomes : Becomes names s r) (hs : s.Shaped) (hplain : hasPlainLookup s = true) :
    awaitsLookup r = false := by
  have hmigrated : awaitsLookup (migrate names s) = false := not_awaitsLookup_migrate hs hplain
  rw [← awaitsLookup_bare]
  obtain hsame | hsame := hbecomes
  · rw [hsame, awaitsLookup_bare, hmigrated]
  · rw [hsame, awaitsLookup_bare, unpublish]
    split
    next hdeclares =>
      rw [Bool.eq_false_iff]
      intro hawaits
      rw [awaitsLookup_of_dropAttributes hdeclares hawaits] at hmigrated
      simp at hmigrated
    next => exact hmigrated

/-- No legacy construct is left behind. The migration of a source's tree holds, at any depth and whatever the names, no
attribute, modifier, call or class of the old kinds, and every declaration of variables in it comes from one in the source:
if this had one wrapper of an object from the environment, without arguments, then it has lost the wrapper or has no
binding with a plain type. -/
theorem no_legacy_left {limits : Limits} {source : Text} (hread : Tree.ofSource limits source = .ok t) (names : List Text) :
    (∀ r, Within r (migrate names t) → isLegacy r = false) ∧
    ∀ r, Within r (migrate names t) → r.is .variableDecl = true →
      (∃ s, Within s t ∧ s.is .variableDecl = true ∧ Becomes names s r) ∧
      ∀ s, Within s t → Becomes names s r → hasPlainLookup s = true → awaitsLookup r = false := by
  have ht : t.Shaped := Tree.shaped_of_ofSource hread
  have hkind : ∀ token ∈ t.leaves, token.text = stateObjectName → token.kind = .identifier := by
    intro token hmem htext
    rw [Tree.kind_eq_of_ofSource hread hmem ⟨by rw [htext]; decide, by rw [htext]; decide⟩, htext]
    decide
  have horigin : Sourced names t (migrate names t) := sourced_migrate names ht .self
  refine ⟨fun r hr => (horigin r hr).not_isLegacy ht hkind, fun r hr hdeclares => ?_⟩
  exact ⟨(horigin r hr).exists_becomes hdeclares, fun s hwithin hbecomes hplain =>
    hbecomes.not_awaitsLookup (ht.of_within hwithin) hplain⟩

/-- A class and a view with one construct of each old kind, one of them inside another, lose all of them. -/
theorem no_legacy_left_view :
    ∃ t, Tree.ofSource .standard ("class M: ObservableObject {}\nstruct V \x7b @StateObject var a = StateObject(wrappedValue: M())\n" ++
        "@ObservedObject var b: M\n@EnvironmentObject var c: M\nlet d = W().environmentObject(M()) \x7d\n").toList = .ok t ∧
      (t.subtrees.filter isLegacy).length = 5 ∧ (t.subtrees.filter fun s => hasPlainLookup s && awaitsLookup s).length = 1 ∧
      (∀ r, Within r (migrate [] t) → isLegacy r = false) ∧
      ∀ r, Within r (migrate [] t) → r.is .variableDecl = true →
        (∃ s, Within s t ∧ s.is .variableDecl = true ∧ Becomes [] s r) ∧
        ∀ s, Within s t → Becomes [] s r → hasPlainLookup s = true → awaitsLookup r = false := by
  have hany : (Tree.ofSource .standard
      ("class M: ObservableObject {}\nstruct V \x7b @StateObject var a = StateObject(wrappedValue: M())\n" ++
        "@ObservedObject var b: M\n@EnvironmentObject var c: M\nlet d = W().environmentObject(M()) \x7d\n").toList).toOption.any
          (fun t => decide ((t.subtrees.filter isLegacy).length = 5) &&
            decide ((t.subtrees.filter fun s => hasPlainLookup s && awaitsLookup s).length = 1)) = true := by
    decide +kernel
  obtain ⟨t, hread, hany⟩ := exists_eq_ok_of_any hany
  rw [Bool.and_eq_true, decide_eq_true_eq, decide_eq_true_eq] at hany
  exact ⟨t, hread, hany.1, hany.2, no_legacy_left hread []⟩

end SwiftObservation.Migration
