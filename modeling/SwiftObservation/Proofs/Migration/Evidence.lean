import Mathlib.Data.List.Forall2
import SwiftObservation.Proofs.Grammar.Lossless
import SwiftObservation.Proofs.Grammar.Shape.Declarations
import SwiftObservation.Proofs.Migration.Settled.Stays
import SwiftObservation.Proofs.Tree.Within

/-!
# What the evidence shows

Which classes a source shows to be observable is said here without a search: a structure holds a variable in one of the
wrappers, the first of its bindings that names a type names the class, and no generic parameter of the structure has that
name. The names that are inferred are those of such classes, and each variable whose type is a generic parameter is warned
about once, in the order of the source.
-/

namespace SwiftObservation.Migration

open SwiftObservation.Tree

variable {t decl member binding : Tree} {token : Token} {name : Text} {path : Option Text}

/-! ### Structures and the variables they hold -/

/-- The tree declares a structure. -/
def isStructure (t : Tree) : Bool := t.is .typeDecl && t.children[2]?.any (·.isLeaf .structWord)

/-- The declarations of variables among the members of a type, in order. -/
def memberVariables (decl : Tree) : List Tree := (decl.childrenWith .memberBlock).flatMap (·.childrenWith .variableDecl)

/-- The structures within a tree, outer ones first, each with its declarations of variables in order. -/
def structureVariables (t : Tree) : List (Tree × Tree) :=
  (t.subtrees.filter isStructure).flatMap fun decl => (memberVariables decl).map (Prod.mk decl)

/-- An attribute has the given name, without a module and without generic arguments. -/
def IsPlain (name : Text) (attr : Tree) : Prop :=
  ∃ sign token rest, attr.children = sign :: .node .typeIdentifier [.leaf token] :: rest ∧ token.text = name

/-- A declaration has an attribute with the given plain name. -/
def HasPlain (name : Text) (decl : Tree) : Prop :=
  ∃ attributes ∈ decl.childrenWith .attributes, ∃ attr ∈ attributes.childrenWith .attr, IsPlain name attr

/-- A variable is held in one of the wrappers of observable objects. -/
def IsHeld (member : Tree) : Prop :=
  HasPlain "StateObject".toList member ∨ HasPlain "EnvironmentObject".toList member ∨
    HasPlain "ObservedObject".toList member

/-- The type clause of a binding is a type identifier that begins with the token. -/
def NamesInClause (binding : Tree) (token : Token) : Prop :=
  ∃ colon parts, .node .typeClause [colon, .node .typeIdentifier parts] ∈ binding.children ∧
    (leavesOf parts).head? = some token

/-- The initial value of a binding is one call of an identifier, the token, and nothing else. -/
def NamesInValue (binding : Tree) (token : Token) : Prop :=
  ∃ sign rest, .node .initialValue [sign, .node .expr [.node .call (.leaf token :: rest)]] ∈ binding.children ∧
    token.kind = .identifier

/-- A binding names a type in its type clause, or else in its initial value. -/
def NamesType (binding : Tree) (token : Token) : Prop :=
  NamesInClause binding token ∨ (∀ other, ¬ NamesInClause binding other) ∧ NamesInValue binding token

/-- The token is the type that the first binding to name one names. -/
def IsCandidate (member : Tree) (token : Token) : Prop :=
  ∃ before binding after, member.childrenWith .binding = before ++ binding :: after ∧
    (∀ earlier ∈ before, ∀ other, ¬ NamesType earlier other) ∧ NamesType binding token

/-- A generic parameter of a declaration begins with words, as many as there are, of which the last is the name. -/
def HasParameter (name : Text) (decl : Tree) : Prop :=
  ∃ params ∈ decl.childrenWith .genericParams, ∃ words last rest,
    .node .genericParam ((words ++ [last]).map .leaf ++ rest) ∈ params.children ∧
    (∀ word ∈ words ++ [last], word.isWord = true) ∧
    (∀ word ∈ rest.head?.bind Tree.token?, word.isWord = false) ∧ last.text = name

/-- The type of a held variable is a generic parameter. -/
def Collides (decl member : Tree) (candidate : Token) : Prop :=
  IsHeld member ∧ IsCandidate member candidate ∧ HasParameter candidate.text decl

/-- The warning about a candidate that is a generic parameter of the declaration with the given name. -/
def collision (path : Option Text) (candidate : Token) (declaration : Text) : Diagnostic where
  severity := .warning
  code := .ambiguousGeneric
  message := "ambiguous generic parameter collision for candidate name '".toList ++ candidate.text ++
    "' in declaration '".toList ++ declaration ++ "'".toList
  path := path
  line := some candidate.position.line
  column := some candidate.position.column

/-- The warnings about one variable of a structure: one if its type is a generic parameter, else none. -/
def Warns (path : Option Text) (held : Tree × Tree) (found : List Diagnostic) : Prop :=
  (∃ candidate name, Collides held.1 held.2 candidate ∧ held.1.children[3]? = some (.leaf name) ∧
      found = [collision path candidate name.text]) ∨
    (∀ candidate, ¬ Collides held.1 held.2 candidate) ∧ found = []

/-! ### The evidence of one variable -/

/-- A node has one child with the given label, or none. -/
def HasOne (t : Tree) (label : Label) : Prop := (t.childrenWith label).length ≤ 1

theorem HasOne.childrenWith_eq {label : Label} (hone : HasOne t label) : t.childrenWith label = (t.child? label).toList := by
  rw [child?, ← List.head?_filter]
  change _ = (t.childrenWith label).head?.toList
  rw [HasOne] at hone
  rcases hfound : t.childrenWith label with _ | ⟨only, _ | ⟨next, others⟩⟩
  · rfl
  · rfl
  · simp [hfound] at hone

theorem HasOne.mem_children_iff {label : Label} {parts : List Tree} (hone : HasOne t label) :
    .node label parts ∈ t.children ↔ t.child? label = some (.node label parts) := by
  have hmem : Tree.node label parts ∈ t.childrenWith label ↔ .node label parts ∈ t.children := by
    simp [childrenWith]
  rw [← hmem, hone.childrenWith_eq, Option.mem_toList]

/-- The children of the one child with a label, found by it. -/
theorem HasOne.flatMap_childrenWith {label inner : Label} (hone : HasOne t label) :
    (t.childrenWith label).flatMap (·.childrenWith inner) = ((t.child? label).map (·.childrenWith inner)).getD [] := by
  rw [hone.childrenWith_eq]
  cases t.child? label <;> simp

theorem filter_is_optional (label inner : Label) (parts : Option (List Tree)) :
    (Tree.optional label parts).filter (·.is inner) = if label = inner then Tree.optional label parts else [] := by
  cases parts with
  | none => simp [Tree.optional]
  | some children => by_cases hlabel : label = inner <;> simp [Tree.optional, hlabel]

@[simp] theorem filter_is_optionalLeaf (label : Label) (token : Option Token) :
    (optionalLeaf token).filter (·.is label) = [] := by
  cases token <;> rfl

theorem length_optional_le (label : Label) (parts : Option (List Tree)) : (Tree.optional label parts).length ≤ 1 := by
  cases parts <;> simp [Tree.optional]

theorem hasOne_attributes (ht : Shaped member) (hlabel : member.is .variableDecl = true) : HasOne member .attributes := by
  obtain ⟨children, rfl⟩ := exists_of_is hlabel
  obtain ⟨found, modifiers, keyword, bindings, rfl, -, hbindings⟩ := ht.admits
  have hother : bindings.filter (·.is .attributes) = [] := by
    rw [List.filter_eq_nil_iff]
    intro t ht
    obtain ⟨parts, rfl⟩ := exists_of_is (hbindings t ht)
    simp
  simp [HasOne, childrenWith, Tree.children, hother]

theorem hasOne_of_binding (ht : Shaped binding) (hlabel : binding.is .binding = true) :
    HasOne binding .typeClause ∧ HasOne binding .initialValue := by
  obtain ⟨children, rfl⟩ := exists_of_is hlabel
  obtain ⟨pattern, type, value, accessors, comma, rfl, hpattern, -⟩ := ht.admits
  have hother : pattern.is .typeClause = false ∧ pattern.is .initialValue = false := by
    obtain hname | hgroup := hpattern
    · cases pattern <;> first | exact ⟨rfl, rfl⟩ | simp [isLeaf, token?] at hname
    · obtain ⟨parts, rfl⟩ := exists_of_is hgroup
      exact ⟨rfl, rfl⟩
  simp [HasOne, childrenWith, Tree.children, hother, filter_is_optional, length_optional_le]

theorem attributeName?_eq_some_iff : attributeName? t = some name ↔ IsPlain name t := by
  constructor
  · intro hname
    unfold attributeName? at hname
    split at hname
    next sign token rest hchildren => exact ⟨sign, token, rest, hchildren, Option.some.inj hname⟩
    next => cases hname
  · rintro ⟨sign, token, rest, hchildren, rfl⟩
    simp [attributeName?, hchildren]

theorem hasPlain_iff (ht : Shaped member) (hlabel : member.is .variableDecl = true) :
    HasPlain name member ↔
      ∃ t ∈ ((member.child? .attributes).map (·.childrenWith .attr)).getD [], attributeName? t = some name := by
  rw [← (hasOne_attributes ht hlabel).flatMap_childrenWith, HasPlain]
  simp only [List.mem_flatMap, attributeName?_eq_some_iff]
  constructor
  · rintro ⟨attributes, hattributes, attr, hattr, hname⟩
    exact ⟨attr, ⟨attributes, hattributes, hattr⟩, hname⟩
  · rintro ⟨attr, ⟨attributes, hattributes, hattr⟩, hname⟩
    exact ⟨attributes, hattributes, attr, hattr, hname⟩

theorem hasWrapper_iff (ht : Shaped member) (hlabel : member.is .variableDecl = true) :
    hasWrapper member = true ↔ IsHeld member := by
  rw [IsHeld, hasPlain_iff ht hlabel, hasPlain_iff ht hlabel, hasPlain_iff ht hlabel]
  simp only [hasWrapper, List.any_eq_true, Option.any_eq_true, List.contains_eq_mem, decide_eq_true_eq, wrapperNames,
    List.mem_cons, List.not_mem_nil, or_false]
  constructor
  · rintro ⟨t, hmem, name, hname, rfl | rfl | rfl⟩
    · exact .inl ⟨t, hmem, hname⟩
    · exact .inr (.inl ⟨t, hmem, hname⟩)
    · exact .inr (.inr ⟨t, hmem, hname⟩)
  · rintro (⟨t, hmem, hname⟩ | ⟨t, hmem, hname⟩ | ⟨t, hmem, hname⟩)
    · exact ⟨t, hmem, _, hname, .inl rfl⟩
    · exact ⟨t, hmem, _, hname, .inr (.inl rfl)⟩
    · exact ⟨t, hmem, _, hname, .inr (.inr rfl)⟩

theorem clauseCandidate?_eq_some_iff (ht : Shaped binding) (hlabel : binding.is .binding = true) :
    clauseCandidate? binding = some token ↔ NamesInClause binding token := by
  have hone := (hasOne_of_binding ht hlabel).1
  -- A type identifier begins with its name, whichever way it is looked for.
  have hfirst {parts : List Tree} (hparts : Shaped (.node .typeIdentifier parts)) :
      (Tree.node .typeIdentifier parts).first? = (leavesOf parts).head? := by
    obtain ⟨name, args, rfl, -⟩ := hparts.admits
    rfl
  simp only [NamesInClause, hone.mem_children_iff]
  constructor
  · intro hcandidate
    obtain ⟨clause, hclause, hbinds⟩ := Option.bind_eq_some_iff.mp hcandidate
    obtain ⟨bound, hbound, hnames⟩ := Option.bind_eq_some_iff.mp hbinds
    have hshaped : clause.Shaped := ht.of_mem_children (List.mem_of_find?_eq_some hclause)
    obtain ⟨children, rfl⟩ := exists_of_is (by simpa using List.find?_some hclause)
    obtain ⟨colon, only, rfl, -⟩ := hshaped.admits
    obtain rfl : only = some bound := by cases only <;> simp_all [Tree.children]
    obtain ⟨hname, htoken⟩ := Option.ite_none_right_eq_some.mp hnames
    obtain ⟨parts, rfl⟩ := exists_of_is hname
    refine ⟨.leaf colon, parts, hclause, ?_⟩
    rw [← hfirst (hshaped.of_mem (by simp)), htoken]
  · rintro ⟨colon, parts, hclause, hhead⟩
    have hshaped : Shaped (.node .typeClause [colon, .node .typeIdentifier parts]) :=
      ht.of_mem_children (List.mem_of_find?_eq_some hclause)
    rw [← hfirst (hshaped.of_mem (by simp))] at hhead
    simp [clauseCandidate?, hclause, Tree.children, hhead]

theorem singleCallee?_eq_some_iff {elements : List Tree} : singleCallee? elements = some token ↔
    token.kind = .identifier ∧ ∃ rest, elements = [.node .call (.leaf token :: rest)] := by
  constructor
  · intro hcallee
    unfold singleCallee? at hcallee
    split at hcallee
    next callee rest =>
      rw [Option.ite_none_right_eq_some, beq_iff_eq] at hcallee
      obtain ⟨hkind, rfl⟩ : _ ∧ callee = token := by simpa using hcallee
      exact ⟨hkind, rest, rfl⟩
    next => cases hcallee
  · rintro ⟨hkind, rest, rfl⟩
    simp [singleCallee?, hkind]

theorem valueCandidate?_eq_some_iff (ht : Shaped binding) (hlabel : binding.is .binding = true) :
    valueCandidate? binding = some token ↔ NamesInValue binding token := by
  have hone := (hasOne_of_binding ht hlabel).2
  simp only [NamesInValue, hone.mem_children_iff, valueCandidate?_eq]
  constructor
  · intro hcandidate
    obtain ⟨expr, hexpr, hcallee⟩ := Option.bind_eq_some_iff.mp hcandidate
    obtain ⟨value, hvalue, hexpr⟩ := Option.bind_eq_some_iff.mp hexpr
    obtain ⟨hkind, rest, helements⟩ := singleCallee?_eq_some_iff.mp hcallee
    have hshaped : value.Shaped := ht.of_mem_children (List.mem_of_find?_eq_some hvalue)
    obtain ⟨children, rfl⟩ := exists_of_is (by simpa using List.find?_some hvalue)
    obtain ⟨sign, elements, rfl, -⟩ := hshaped.admits
    obtain rfl : Tree.node .expr elements = expr := by simpa [Tree.children] using hexpr
    obtain rfl : elements = _ := helements
    exact ⟨.leaf sign, rest, hvalue, hkind⟩
  · rintro ⟨sign, rest, hvalue, hkind⟩
    simp [hvalue, Tree.children, singleCallee?, hkind]

theorem namesType_iff (ht : Shaped binding) (hlabel : binding.is .binding = true) :
    (clauseCandidate? binding).or (valueCandidate? binding) = some token ↔ NamesType binding token := by
  rw [NamesType, ← clauseCandidate?_eq_some_iff ht hlabel, ← valueCandidate?_eq_some_iff ht hlabel]
  simp only [← clauseCandidate?_eq_some_iff ht hlabel]
  cases clauseCandidate? binding <;> simp

theorem candidate?_eq_some_iff (ht : Shaped member) : candidate? member = some token ↔ IsCandidate member token := by
  have hbindings (b : Tree) (hb : b ∈ member.childrenWith .binding) (token : Token) :
      (clauseCandidate? b).or (valueCandidate? b) = some token ↔ NamesType b token :=
    namesType_iff (ht.of_mem_children (List.mem_filter.mp hb).1) (List.mem_filter.mp hb).2
  rw [candidate?, List.findSome?_eq_some_iff]
  constructor
  · rintro ⟨before, binding, after, hsplit, hnames, hbefore⟩
    rw [hsplit] at hbindings
    refine ⟨before, binding, after, hsplit, ?_, (hbindings binding (by simp) token).mp hnames⟩
    intro earlier hearlier other hother
    rw [← hbindings earlier (by simp [hearlier]), hbefore earlier hearlier] at hother
    cases hother
  · rintro ⟨before, binding, after, hsplit, hbefore, hnames⟩
    rw [hsplit] at hbindings
    refine ⟨before, binding, after, hsplit, (hbindings binding (by simp) token).mpr hnames, ?_⟩
    intro earlier hearlier
    rw [Option.eq_none_iff_forall_ne_some]
    intro other hother
    exact hbefore earlier hearlier other ((hbindings earlier (by simp [hearlier]) other).mp hother)

/-- Leaves of words, all of them, are the words themselves. -/
theorem exists_map_leaf {trees : List Tree} (hwords : ∀ t ∈ trees, t.token?.any (·.isWord) = true) :
    ∃ words : List Token, trees = words.map .leaf ∧ ∀ word ∈ words, word.isWord = true := by
  induction trees with
  | nil => exact ⟨[], rfl, by simp⟩
  | cons t rest ih =>
      obtain ⟨words, rfl, hrest⟩ := ih fun s hs => hwords s (List.mem_cons_of_mem t hs)
      have hfirst := hwords t List.mem_cons_self
      cases t with
      | leaf word =>
          refine ⟨word :: words, rfl, List.forall_mem_cons.mpr ⟨?_, hrest⟩⟩
          simpa [token?] using hfirst
      | node label children => simp [token?] at hfirst
      | absent => simp [token?] at hfirst

theorem parameterName?_eq_some_iff {param : Tree} : parameterName? param = some name ↔
    ∃ words last rest, param.children = (words ++ [last]).map .leaf ++ rest ∧ (∀ word ∈ words ++ [last], word.isWord = true) ∧
      (∀ word ∈ rest.head?.bind Tree.token?, word.isWord = false) ∧ last.text = name := by
  constructor
  · intro hname
    have hall : ∀ t ∈ param.children.takeWhile (·.token?.any (·.isWord)), t.token?.any (·.isWord) = true :=
      fun t ht => List.mem_takeWhile_imp (p := fun t : Tree => t.token?.any (·.isWord)) ht
    obtain ⟨words, hleading, hwords⟩ := exists_map_leaf hall
    rw [parameterName?, hleading] at hname
    obtain rfl | ⟨words, last, rfl⟩ := words.eq_nil_or_concat
    · cases hname
    · rw [List.concat_eq_append] at hleading hwords hname
      refine ⟨words, last, param.children.dropWhile (·.token?.any (·.isWord)), ?_, hwords, ?_, ?_⟩
      · rw [← hleading, List.takeWhile_append_dropWhile]
      · intro word hword
        obtain ⟨t, ht, htoken⟩ := Option.bind_eq_some_iff.mp hword
        have hstop := List.head?_dropWhile_not (fun t : Tree => t.token?.any (·.isWord)) param.children
        rw [ht] at hstop
        simpa [htoken] using hstop
      · simpa [token?] using hname
  · rintro ⟨words, last, rest, hchildren, hwords, hstop, rfl⟩
    have hleading : param.children.takeWhile (·.token?.any (·.isWord)) = (words ++ [last]).map .leaf := by
      have hall : ∀ t ∈ (words ++ [last]).map Tree.leaf, t.token?.any (·.isWord) = true := by
        intro t ht
        obtain ⟨word, hword, rfl⟩ := List.mem_map.mp ht
        exact hwords word hword
      rw [hchildren, List.takeWhile_append_of_pos hall, List.append_right_eq_self]
      cases rest with
      | nil => rfl
      | cons t rest =>
          rw [List.takeWhile_cons_of_neg]
          cases t <;> simp_all [token?]
    rw [parameterName?, hleading]
    simp [token?]

/-- The evidence that one variable gives. -/
theorem memberEvidence?_eq_some_iff {declaration : Text} {params : List Text} {e : Evidence} (ht : Shaped member)
    (hlabel : member.is .variableDecl = true) :
    memberEvidence? declaration params member = some e ↔ IsHeld member ∧ ∃ candidate, IsCandidate member candidate ∧
      (if candidate.text ∈ params then .ambiguous candidate declaration else .observable candidate.text) = e := by
  simp only [memberEvidence?, Option.ite_none_right_eq_some, Option.map_eq_some_iff, hasWrapper_iff ht hlabel,
    candidate?_eq_some_iff ht, List.contains_eq_mem, decide_eq_true_eq]

/-! ### The evidence of a source -/

/-- A shaped declaration of a structure. -/
theorem exists_of_isStructure (ht : Shaped decl) (hstructure : isStructure decl = true) :
    ∃ attributes modifiers keyword name params clause requirements body,
      decl = .node .typeDecl (.node .attributes attributes :: .node .modifiers modifiers :: .leaf keyword :: .leaf name ::
        (Tree.optional .genericParams params ++ Tree.optional .inheritance clause ++
          Tree.optional .whereClause requirements ++ [.node .memberBlock body])) ∧ keyword.kind = .structWord := by
  rw [isStructure, Bool.and_eq_true] at hstructure
  obtain ⟨children, rfl⟩ := exists_of_is hstructure.1
  obtain ⟨attributes, modifiers, keyword, name, params, clause, requirements, body, rfl, hname⟩ := ht.admits
  have hkeyword : keyword.kind = .structWord := by simpa [Tree.children, isLeaf, token?] using hstructure.2
  obtain ⟨name, rfl⟩ := hname (by simp [hkeyword])
  exact ⟨attributes, modifiers, keyword, name, params, clause, requirements, body, rfl, hkeyword⟩

theorem hasOne_of_isStructure (ht : Shaped decl) (hstructure : isStructure decl = true) :
    HasOne decl .genericParams ∧ HasOne decl .memberBlock := by
  obtain ⟨attributes, modifiers, keyword, name, params, clause, requirements, body, rfl, -⟩ :=
    exists_of_isStructure ht hstructure
  simp [HasOne, childrenWith, Tree.children, filter_is_optional, length_optional_le]

theorem mem_parameterNames_iff (ht : Shaped decl) (hstructure : isStructure decl = true) :
    name ∈ parameterNames decl ↔ HasParameter name decl := by
  rw [parameterNames, ← (hasOne_of_isStructure ht hstructure).1.flatMap_childrenWith, HasParameter]
  simp only [List.mem_filterMap, List.mem_flatMap, parameterName?_eq_some_iff]
  constructor
  · rintro ⟨param, ⟨params, hparams, hmem⟩, words, last, rest, hchildren, hwords, hstop, hname⟩
    obtain ⟨hmem, hparam⟩ := List.mem_filter.mp hmem
    obtain ⟨children, rfl⟩ := exists_of_is hparam
    exact ⟨params, hparams, words, last, rest, hchildren ▸ hmem, hwords, hstop, hname⟩
  · rintro ⟨params, hparams, words, last, rest, hmem, hwords, hstop, hname⟩
    exact ⟨_, ⟨params, hparams, List.mem_filter.mpr ⟨hmem, rfl⟩⟩, words, last, rest, rfl, hwords, hstop, hname⟩

/-- What a variable of a structure shows. -/
def shown (held : Tree × Tree) : Option Evidence :=
  memberEvidence? (((held.1.children[3]?.bind token?).map (·.text)).getD []) (parameterNames held.1) held.2

theorem nodeEvidence_of_isStructure (ht : Shaped decl) (hstructure : isStructure decl = true) :
    nodeEvidence decl = ((memberVariables decl).map (Prod.mk decl)).filterMap shown := by
  rw [memberVariables, (hasOne_of_isStructure ht hstructure).2.flatMap_childrenWith, List.filterMap_map]
  obtain ⟨attributes, modifiers, keyword, name, params, clause, requirements, body, rfl, hkeyword⟩ :=
    exists_of_isStructure ht hstructure
  rw [nodeEvidence, hkeyword]
  rfl

theorem nodeEvidence_of_not_isStructure (ht : Shaped t) (hother : isStructure t = false) : nodeEvidence t = [] := by
  unfold nodeEvidence
  split
  next keyword name rest =>
    have hkeyword : (keyword.kind == .structWord) = false := by simpa [isStructure, Tree.children, isLeaf, token?] using hother
    rw [hkeyword]
    rfl
  next => rfl

mutual

/-- The evidence in a tree is that of its subtrees, from the root on. -/
theorem evidence_eq_flatMap (t : Tree) : evidence t = t.subtrees.flatMap nodeEvidence := by
  cases t with
  | leaf token => rfl
  | absent => rfl
  | node label children => rw [evidence, subtrees, List.flatMap_cons, evidenceOf_eq_flatMap children]

theorem evidenceOf_eq_flatMap (trees : List Tree) : evidenceOf trees = (subtreesOf trees).flatMap nodeEvidence := by
  cases trees with
  | nil => rfl
  | cons t rest => rw [evidenceOf, subtreesOf, List.flatMap_append, evidence_eq_flatMap t, evidenceOf_eq_flatMap rest]

end

theorem mem_structureVariables {held : Tree × Tree} :
    held ∈ structureVariables t ↔ Within held.1 t ∧ isStructure held.1 = true ∧ held.2 ∈ memberVariables held.1 := by
  simp only [structureVariables, List.mem_flatMap, List.mem_filter, List.mem_map, mem_subtrees_iff]
  constructor
  · rintro ⟨decl, ⟨hwithin, hstructure⟩, member, hmember, rfl⟩
    exact ⟨hwithin, hstructure, hmember⟩
  · rintro ⟨hwithin, hstructure, hmember⟩
    exact ⟨held.1, ⟨hwithin, hstructure⟩, held.2, hmember, rfl⟩

/-- The evidence in a source is that of the variables of its structures, in order. -/
theorem evidence_eq_filterMap (ht : Shaped t) : evidence t = (structureVariables t).filterMap shown := by
  have hshaped : ∀ s ∈ t.subtrees, s.Shaped := fun s hs => ht.of_within (mem_subtrees_iff.mp hs)
  rw [evidence_eq_flatMap, structureVariables]
  generalize t.subtrees = trees at hshaped
  induction trees with
  | nil => rfl
  | cons s rest ih =>
      have hs := hshaped s List.mem_cons_self
      rw [List.flatMap_cons, ih fun s' hs' => hshaped s' (List.mem_cons_of_mem s hs')]
      cases hstructure : isStructure s with
      | true =>
          rw [List.filter_cons_of_pos hstructure, List.flatMap_cons, List.filterMap_append,
            nodeEvidence_of_isStructure hs hstructure]
      | false =>
          rw [List.filter_cons_of_neg (by simp [hstructure]), nodeEvidence_of_not_isStructure hs hstructure,
            List.nil_append]

theorem exists_declared {held : Tree × Tree} (ht : Shaped t) (hheld : held ∈ structureVariables t) :
    ∃ declared, held.1.children[3]? = some (.leaf declared) := by
  obtain ⟨hwithin, hstructure, -⟩ := mem_structureVariables.mp hheld
  obtain ⟨attributes, modifiers, keyword, name, params, clause, requirements, body, heq, -⟩ :=
    exists_of_isStructure (ht.of_within hwithin) hstructure
  rw [heq]
  exact ⟨name, rfl⟩

/-- What a variable of a structure shows is said of its wrappers, its bindings and the parameters of the structure. -/
theorem shown_eq_some_iff {held : Tree × Tree} {declared : Token} {e : Evidence} (ht : Shaped t)
    (hheld : held ∈ structureVariables t) (hdeclared : held.1.children[3]? = some (.leaf declared)) :
    shown held = some e ↔ IsHeld held.2 ∧ ∃ candidate, IsCandidate held.2 candidate ∧
      (HasParameter candidate.text held.1 ∧ .ambiguous candidate declared.text = e ∨
        ¬ HasParameter candidate.text held.1 ∧ .observable candidate.text = e) := by
  obtain ⟨hwithin, hstructure, hmember⟩ := mem_structureVariables.mp hheld
  have hdecl : held.1.Shaped := ht.of_within hwithin
  obtain ⟨block, hblock, hmember⟩ := List.mem_flatMap.mp hmember
  obtain ⟨hmember, hlabel⟩ := List.mem_filter.mp hmember
  have hvariable : held.2.Shaped := (hdecl.of_mem_children (List.mem_filter.mp hblock).1).of_mem_children hmember
  rw [shown, memberEvidence?_eq_some_iff hvariable hlabel, hdeclared]
  simp only [mem_parameterNames_iff hdecl hstructure, Option.bind_some, token?, Option.map_some, Option.getD_some,
    ite_eq_iff]

/-- The warnings about the variables of structures, variable by variable. -/
theorem warnings_eq_flatten (path : Option Text) (ht : Shaped t) :
    warnings path t = ((structureVariables t).map fun held => ((shown held).bind (·.warning? path)).toList).flatten := by
  rw [warnings, evidence_eq_filterMap ht, List.filterMap_filterMap, List.filterMap_eq_flatMap_toList, List.flatMap_def]

theorem warns_shown {held : Tree × Tree} (ht : Shaped t) (hheld : held ∈ structureVariables t) :
    Warns path held ((shown held).bind (·.warning? path)).toList := by
  obtain ⟨declared, hdeclared⟩ := exists_declared ht hheld
  have hiff {e : Evidence} := shown_eq_some_iff (e := e) ht hheld hdeclared
  by_cases hcollides : ∃ candidate, Collides held.1 held.2 candidate
  · obtain ⟨candidate, hcandidate⟩ := hcollides
    refine .inl ⟨candidate, declared, hcandidate, hdeclared, ?_⟩
    obtain ⟨hwrapped, hnames, hparameter⟩ := hcandidate
    rw [hiff.mpr ⟨hwrapped, candidate, hnames, .inl ⟨hparameter, rfl⟩⟩]
    rfl
  · rw [not_exists] at hcollides
    refine .inr ⟨hcollides, ?_⟩
    cases hshown : shown held with
    | none => rfl
    | some e =>
        obtain ⟨hwrapped, candidate, hnames, ⟨hparameter, -⟩ | ⟨-, rfl⟩⟩ := hiff.mp hshown
        · exact absurd ⟨hwrapped, hnames, hparameter⟩ (hcollides candidate)
        · rfl

theorem mem_inferredNames_iff (ht : Shaped t) : name ∈ inferredNames t ↔
    ∃ held ∈ structureVariables t, IsHeld held.2 ∧ ∃ candidate, IsCandidate held.2 candidate ∧ candidate.text = name ∧
      ¬ HasParameter name held.1 := by
  rw [mem_inferredNames, evidence_eq_filterMap ht, List.filterMap_filterMap, List.mem_filterMap]
  refine exists_congr fun held => and_congr_right fun hheld => ?_
  obtain ⟨declared, hdeclared⟩ := exists_declared ht hheld
  rw [Option.bind_eq_some_iff]
  constructor
  · rintro ⟨e, hshown, hname⟩
    obtain ⟨hwrapped, candidate, hnames, ⟨-, rfl⟩ | ⟨hparameter, rfl⟩⟩ := (shown_eq_some_iff ht hheld hdeclared).mp hshown
    · cases hname
    · obtain rfl : candidate.text = name := Option.some.inj hname
      exact ⟨hwrapped, candidate, hnames, rfl, hparameter⟩
  · rintro ⟨hwrapped, candidate, hnames, rfl, hparameter⟩
    refine ⟨.observable candidate.text, ?_, rfl⟩
    exact (shown_eq_some_iff ht hheld hdeclared).mpr ⟨hwrapped, candidate, hnames, .inr ⟨hparameter, rfl⟩⟩

/-- The names inferred from a source are those of the specified classes, and the warnings are the specified ones. -/
theorem inference_exact {limits : Limits} {source : Text} (hread : Tree.ofSource limits source = .ok t) :
    (∀ name, name ∈ inferredNames t ↔ ∃ decl member candidate, Within decl t ∧ isStructure decl = true ∧
      member ∈ memberVariables decl ∧ IsHeld member ∧ IsCandidate member candidate ∧ candidate.text = name ∧
      ¬ HasParameter name decl) ∧
    ∀ path, ∃ groups, List.Forall₂ (Warns path) (structureVariables t) groups ∧ warnings path t = groups.flatten := by
  have ht : t.Shaped := Tree.shaped_of_ofSource hread
  refine ⟨fun name => ?_, fun path => ⟨_, ?_, warnings_eq_flatten path ht⟩⟩
  · rw [mem_inferredNames_iff ht]
    constructor
    · rintro ⟨⟨decl, member⟩, hheld, hwrapped, candidate, hnames, rfl, hparameter⟩
      obtain ⟨hwithin, hstructure, hmember⟩ := mem_structureVariables.mp hheld
      exact ⟨decl, member, candidate, hwithin, hstructure, hmember, hwrapped, hnames, rfl, hparameter⟩
    · rintro ⟨decl, member, candidate, hwithin, hstructure, hmember, hwrapped, hnames, rfl, hparameter⟩
      have hheld : (decl, member) ∈ structureVariables t := mem_structureVariables.mpr ⟨hwithin, hstructure, hmember⟩
      exact ⟨(decl, member), hheld, hwrapped, candidate, hnames, rfl, hparameter⟩
  · rw [List.forall₂_map_right_iff, List.forall₂_same]
    exact fun held hheld => warns_shown ht hheld

/-- A parameter pack of the outer structure is warned about there, and its name is inferred from the inner structure. -/
theorem inference_exact_nested :
    ∃ t, Tree.ofSource .standard ("struct V<each T> \x7b\n@StateObject var a: [T], b: T\n@ObservedObject var c = M()\n" ++
        "struct W \x7b @EnvironmentObject var d: T \x7d\n\x7d\n").toList = .ok t ∧
      "M".toList ∈ inferredNames t ∧ "T".toList ∈ inferredNames t ∧
      (warnings none t).map (fun d => (d.line, d.column)) = [(some 2, some 29)] ∧
      (∀ name, name ∈ inferredNames t ↔ ∃ decl member candidate, Within decl t ∧ isStructure decl = true ∧
        member ∈ memberVariables decl ∧ IsHeld member ∧ IsCandidate member candidate ∧ candidate.text = name ∧
        ¬ HasParameter name decl) ∧
      ∀ path, ∃ groups, List.Forall₂ (Warns path) (structureVariables t) groups ∧ warnings path t = groups.flatten := by
  have hany : (Tree.ofSource .standard ("struct V<each T> \x7b\n@StateObject var a: [T], b: T\n@ObservedObject var c = M()\n" ++
      "struct W \x7b @EnvironmentObject var d: T \x7d\n\x7d\n").toList).toOption.any
        (fun t => (evidence t).filterMap (·.name?) == ["M".toList, "T".toList] &&
          (warnings none t).map (fun d => (d.line, d.column)) == [(some 2, some 29)]) = true := by
    decide +kernel
  obtain ⟨t, hread, hany⟩ := exists_eq_ok_of_any hany
  rw [Bool.and_eq_true, beq_iff_eq, beq_iff_eq] at hany
  have hinferred (name : Text) : name ∈ inferredNames t ↔ name ∈ ["M".toList, "T".toList] := by
    rw [mem_inferredNames, hany.1]
  exact ⟨t, hread, (hinferred _).mpr (by simp), (hinferred _).mpr (by simp), hany.2, inference_exact hread⟩

end SwiftObservation.Migration
