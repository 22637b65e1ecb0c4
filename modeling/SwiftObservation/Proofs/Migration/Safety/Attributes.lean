import SwiftObservation.Proofs.Migration.Remainder
import SwiftObservation.Proofs.Migration.Safety.Checked
import SwiftObservation.Proofs.Migration.Safety.Usable

/-!
# Attributes and variables are in reach

On usable trees the checked rules for attributes and for declarations of variables do what the rules do, and they leave
usable trees behind, seen by a parent as before.
-/

namespace SwiftObservation.Migration

open SwiftObservation.Tree

variable {label : Label} {children : List Tree} {t : Tree}

theorem mapM_eq_some_map {α β : Type} {f : α → Option β} {g : α → β} {l : List α} (hfg : ∀ a ∈ l, f a = some (g a)) :
    l.mapM f = some (l.map g) := by
  induction l with
  | nil => rfl
  | cons a l ih =>
      rw [List.mapM_cons, hfg a (by simp), ih fun b hb => hfg b (by simp [hb])]
      rfl

/-! ### First and last tokens -/

mutual

theorem isSome_last?_eq (t : Tree) : t.last?.isSome = t.first?.isSome := by
  cases t with
  | leaf token => rfl
  | absent => rfl
  | node label children => exact isSome_lastOf?_eq children

theorem isSome_lastOf?_eq (trees : List Tree) : (lastOf? trees).isSome = (firstOf? trees).isSome := by
  cases trees with
  | nil => rfl
  | cons t rest =>
      rw [lastOf?, firstOf?, Option.isSome_or, Option.isSome_or, isSome_last?_eq t, isSome_lastOf?_eq rest, Bool.or_comm]

end

/-- The tree has a first and a last token. -/
theorem exists_last?_of_first? {first : Token} (hfirst : t.first? = some first) : ∃ last, t.last? = some last := by
  have hsome : t.last?.isSome = true := by rw [isSome_last?_eq, hfirst]; rfl
  exact Option.isSome_iff_exists.mp hsome

theorem exists_of_child? {s : Tree} (hchild : t.child? label = some s) : s ∈ t.children ∧ ∃ parts, s = .node label parts := by
  have his := List.find?_some (show t.children.find? (fun s : Tree => s.is label) = some s from hchild)
  exact ⟨List.mem_of_find?_eq_some hchild, exists_of_is his⟩

theorem Usable.attr_eq (ht : Usable (.node .attr children)) : ∃ sign rest, children = .leaf sign :: rest := by
  obtain ⟨kind, heads, hheads⟩ := ht.serves
  obtain ⟨first, rest, rfl, hfirst, -⟩ := List.map_eq_cons_iff.mp hheads
  obtain ⟨sign, rfl, -⟩ := head_eq_token hfirst
  exact ⟨sign, rest, rfl⟩

theorem Usable.typeIdentifier_eq (ht : Usable (.node .typeIdentifier children)) :
    ∃ name rest, children = .leaf name :: rest := by
  obtain ⟨kind, heads, hheads⟩ := ht.serves
  obtain ⟨first, rest, rfl, hfirst, -⟩ := List.map_eq_cons_iff.mp hheads
  obtain ⟨name, rfl, -⟩ := head_eq_token hfirst
  exact ⟨name, rest, rfl⟩

/-! ### Names -/

theorem attributeName?_checked (ht : Usable (.node label children)) :
    Checked.attributeName? (.node label children) = some (attributeName? (.node label children)) := by
  simp only [Checked.attributeName?, Checked.parts?, attributeName?, Tree.children, Option.bind_eq_bind, Option.bind_some]
  split
  next first name rest =>
    have hnamed : Usable (.node .typeIdentifier [name]) := ht.of_mem (by simp)
    obtain ⟨token, more, heq⟩ := Usable.typeIdentifier_eq hnamed
    obtain ⟨rfl, rfl⟩ := List.cons.inj heq
    rfl
  next hother =>
    split
    next first name rest => exact absurd rfl (hother first (.leaf name) rest)
    next => rfl

theorem isNamed_checked (name : Text) (ht : Usable (.node label children)) :
    Checked.isNamed name (.node label children) = some (isNamed name (.node label children)) := by
  rw [Checked.isNamed, attributeName?_checked ht]
  rfl

theorem isErased_checked (ht : Usable (.node .attr children)) :
    Checked.isErased (.node .attr children) = some (isErased (.node .attr children)) := by
  obtain ⟨sign, rest, rfl⟩ := Usable.attr_eq ht
  cases rest <;> rfl

/-- A new text for a token leaves a tree usable. -/
theorem usable_rename (text : Text) (ht : t.Usable) : (rename text t).Usable ∧ (rename text t).head = t.head := by
  unfold rename
  split
  next label name rest =>
    refine ⟨.node ht.serves fun s hs => ?_, rfl⟩
    rcases List.mem_cons.mp hs with rfl | hs
    · exact .leaf _
    · exact ht.of_mem (List.mem_cons_of_mem _ hs)
  next => exact ⟨ht, rfl⟩

theorem usable_erased (sign : Token) : (erased sign).Usable := by
  refine .node ⟨_, _, rfl⟩ fun t ht => ?_
  rw [List.mem_singleton.mp ht]
  exact .leaf _

theorem migrateAttribute_checked (ht : Usable (.node .attr children)) :
    Checked.migrateAttribute (.node .attr children) = some (migrateAttribute (.node .attr children)) ∧
      (migrateAttribute (.node .attr children)).Usable := by
  have hname := attributeName?_checked ht
  obtain ⟨sign, rest, rfl⟩ := Usable.attr_eq ht
  cases rest with
  | nil => exact ⟨rfl, ht⟩
  | cons name rest =>
      have hnamed (word : Text) : (attributeName? (.node .attr (.leaf sign :: name :: rest)) == some word) =
          isNamed word (.node .attr (.leaf sign :: name :: rest)) := rfl
      simp only [Checked.migrateAttribute, hname, Checked.parts?, migrateAttribute, Tree.children, Option.bind_eq_bind,
        Option.bind_some, hnamed]
      by_cases hstate : isNamed stateObjectName (.node .attr (.leaf sign :: name :: rest)) = true
      · obtain ⟨first, token, others, heq, -⟩ := exists_of_isNamed hstate
        simp only [List.cons.injEq] at heq
        obtain ⟨-, rfl, -⟩ := heq
        simp only [if_pos hstate]
        refine ⟨rfl, .node ht.serves fun s hs => ?_⟩
        simp only [List.mem_cons] at hs
        rcases hs with rfl | rfl | hs
        · exact .leaf _
        · exact (usable_rename stateName (ht.of_mem (by simp))).1
        · exact ht.of_mem (by simp [hs])
      · by_cases hobserved : isNamed observedObjectName (.node .attr (.leaf sign :: name :: rest)) = true
        · simp only [if_neg hstate, if_pos hobserved]
          exact ⟨rfl, usable_erased sign⟩
        · simp only [if_neg hstate, if_neg hobserved]
          exact ⟨rfl, ht⟩

/-! ### Attributes that go -/

theorem carry_checked (carried : Option Text) {first : Token} (hfirst : t.first? = some first) :
    Checked.carry carried t = some (carry carried t) := by
  obtain ⟨last, hlast⟩ := exists_last?_of_first? hfirst
  simp only [Checked.carry, carry, hfirst, hlast, Option.bind_eq_bind, Option.bind_some, Option.map_some, Option.getD_some]
  cases carried <;> rfl

theorem deliver_checked (carried : Option Text) (label : Label) (children : List Tree) :
    ∃ t, Checked.deliver carried (.node label children) = some t ∧ deliver carried [.node label children] = [t] := by
  cases carried with
  | none => exact ⟨_, rfl, rfl⟩
  | some text =>
      refine ⟨_, rfl, ?_⟩
      rw [deliver, mapFirstOf?, mapFirst]
      cases (Tree.node label children).mapFirst? (takeUp text) <;> rfl

theorem dropFrom_checked {doomed : Tree → Bool} {doomed' : Tree → Option Bool} {found : List Tree}
    (hattrs : ∀ t ∈ found, t.Usable ∧ t.is .attr = true) (hdoomed : ∀ t ∈ found, doomed' t = some (doomed t))
    (carried : Option Text) : Checked.dropFrom doomed' carried found = some (dropFrom doomed carried found) := by
  induction found generalizing carried with
  | nil => rfl
  | cons t rest ih =>
      obtain ⟨husable, hattr⟩ := hattrs t (by simp)
      obtain ⟨children, rfl⟩ := exists_of_is hattr
      have hrest := ih (fun s hs => hattrs s (by simp [hs])) (fun s hs => hdoomed s (by simp [hs]))
      rw [Checked.dropFrom, dropFrom, hdoomed _ (by simp)]
      cases doomed (.node .attr children) with
      | true =>
          obtain ⟨sign, parts, rfl⟩ := Usable.attr_eq husable
          have hcarry : Checked.carry carried (.node .attr (.leaf sign :: parts)) = some _ := carry_checked carried rfl
          simp [hcarry, hrest]
      | false =>
          obtain ⟨first, hchecked, hdelivered⟩ := deliver_checked carried .attr children
          simp [hchecked, hdelivered, hrest]

theorem usableAll_of_attributes {found : List Tree} (ht : Usable (.node .attributes found)) :
    ∀ t ∈ found, t.Usable ∧ t.is .attr = true := by
  intro t hmem
  have hhead : t.head = .node .attr := ht.serves _ (List.mem_map_of_mem hmem)
  obtain ⟨parts, rfl⟩ := head_eq_node hhead
  exact ⟨ht.of_mem hmem, rfl⟩

theorem usable_attributes {found : List Tree} (hattrs : ∀ t ∈ found, t.Usable ∧ t.is .attr = true) :
    Usable (.node .attributes found) := by
  refine .node (fun h hh => ?_) fun t ht => (hattrs t ht).1
  obtain ⟨t, ht, rfl⟩ := List.mem_map.mp hh
  obtain ⟨parts, rfl⟩ := exists_of_is (hattrs t ht).2
  rfl

theorem Usable.variables_eq (ht : Usable (.node .variableDecl children)) :
    ∃ found rest, children = .node .attributes found :: rest := by
  obtain ⟨heads, hheads⟩ := ht.serves
  obtain ⟨first, rest, rfl, hfirst, -⟩ := List.map_eq_cons_iff.mp hheads
  obtain ⟨found, rfl⟩ := head_eq_node hfirst
  exact ⟨found, rest, rfl⟩

theorem dropAttributes_checked {doomed : Tree → Bool} {doomed' : Tree → Option Bool}
    (hdoomed : ∀ t, t.Usable → t.is .attr = true → doomed' t = some (doomed t))
    (ht : Usable (.node .variableDecl children)) :
    Checked.dropAttributes doomed' (.node .variableDecl children) =
        some (dropAttributes doomed (.node .variableDecl children)) ∧
      (dropAttributes doomed (.node .variableDecl children)).Usable := by
  obtain ⟨found, rest, rfl⟩ := Usable.variables_eq ht
  have hattrs := usableAll_of_attributes (ht.of_mem (by simp) : Usable (.node .attributes found))
  have hall : ∀ t ∈ found, doomed' t = some (doomed t) := fun t hmem => hdoomed t (hattrs t hmem).1 (hattrs t hmem).2
  constructor
  · rw [Checked.dropAttributes, mapM_eq_some_map hall, dropAttributes]
    simp only [Option.bind_eq_bind, Option.bind_some, List.any_map, Function.id_comp, dropFrom_checked hattrs hall]
    split <;> rfl
  · obtain ⟨kept, behind, heq, hkept, hbehind⟩ := dropAttributes_eq doomed .variableDecl found rest
    have hrest : UsableAll rest := fun t hmem => ht.of_mem (by simp [hmem])
    have hfound : UsableAll (found.filter (!doomed ·)) := fun t hmem => (hattrs t (List.mem_filter.mp hmem).1).1
    have hfirst : Usable (.node .attributes kept) := by
      refine .node ?_ (hfound.congr hkept.symm)
      rw [map_head_eq_of_bare hkept]
      intro h hh
      obtain ⟨t, hmem, rfl⟩ := List.mem_map.mp hh
      obtain ⟨parts, rfl⟩ := exists_of_is (hattrs t (List.mem_filter.mp hmem).1).2
      rfl
    rw [heq]
    exact .node ⟨_, rfl⟩ (usableAll_cons.mpr ⟨hfirst, hrest.congr hbehind.symm⟩)

/-! ### Objects from the environment -/

theorem firstNamed?_checked (name : Text) {found : List Tree} (hattrs : ∀ t ∈ found, t.Usable ∧ t.is .attr = true) :
    Checked.firstNamed? name found = some (found.find? (isNamed name)) := by
  induction found with
  | nil => rfl
  | cons t rest ih =>
      obtain ⟨husable, hattr⟩ := hattrs t (by simp)
      obtain ⟨parts, rfl⟩ := exists_of_is hattr
      rw [Checked.firstNamed?, isNamed_checked name husable, List.find?_cons, ih fun s hs => hattrs s (by simp [hs])]
      cases isNamed name (.node .attr parts) <;> rfl

/-- A change to the first tree of a class that is in reach and leaves the tree usable. -/
theorem updateFirst_checked {p : Tree → Bool} {f : Tree → Tree} {f' : Tree → Option Tree} {trees : List Tree}
    (hf : ∀ t ∈ trees.find? p, f' t = some (f t) ∧ (f t).Usable ∧ (f t).head = t.head) (htrees : UsableAll trees) :
    Checked.updateFirst p f' trees = some (updateFirst p f trees) ∧ UsableAll (updateFirst p f trees) ∧
      (updateFirst p f trees).map head = trees.map head := by
  induction trees with
  | nil => exact ⟨rfl, usableAll_nil, rfl⟩
  | cons t rest ih =>
      obtain ⟨hfirst, hrest⟩ := usableAll_cons.mp htrees
      rw [Checked.updateFirst, updateFirst]
      by_cases hp : p t = true
      · obtain ⟨hchecked, husable, hhead⟩ := hf t (by simp [hp])
        simp only [if_pos hp, hchecked]
        exact ⟨rfl, usableAll_cons.mpr ⟨husable, hrest⟩, by rw [List.map_cons, hhead, List.map_cons]⟩
      · obtain ⟨hchecked, husable, hheads⟩ := ih (fun s hs => hf s (by simpa [hp] using hs)) hrest
        simp only [if_neg hp, hchecked]
        exact ⟨rfl, usableAll_cons.mpr ⟨hfirst, husable⟩, by rw [List.map_cons, hheads, List.map_cons]⟩

theorem usable_mark (kind : TokenKind) (text trailing : Text) : (mark kind text trailing).Usable := .leaf _

theorem usable_lookupArguments {bound : Tree} (hbound : bound.Usable) (trailing : Text) :
    (lookupArguments bound trailing).Usable := by
  have hreference : (typeReference bound).Usable := by
    refine hbound.congr ?_
    rw [typeReference, bare_mapLast (keepsWord_trailing _), bare_mapFirst (keepsWord_leading _)]
  have haccess : Usable (.node .memberAccess
      [typeReference bound, mark .dot ['.'] [], mark .identifier "self".toList []]) := by
    refine .node ⟨_, _, _, rfl⟩ ?_
    simp [hreference, usable_mark]
  have hexpr : Usable (.node .expr [.node .memberAccess
      [typeReference bound, mark .dot ['.'] [], mark .identifier "self".toList []]]) :=
    .node trivial (by simpa using haccess)
  have hargument : Usable (.node .argument [.node .expr [.node .memberAccess
      [typeReference bound, mark .dot ['.'] [], mark .identifier "self".toList []]]]) :=
    .node (List.cons_ne_nil _ _) (by simpa using hexpr)
  refine .node trivial ?_
  simpa [usable_mark] using hargument

theorem environmentAttribute_checked {bound : Tree} (hbound : bound.Usable) (hnode : bound.is .typeIdentifier = true)
    (ht : Usable (.node .attr children)) (hnamed : isNamed environmentObjectName (.node .attr children) = true)
    (hlength : children.length = 2) :
    Checked.environmentAttribute bound (.node .attr children) =
        some (environmentAttribute bound (.node .attr children)) ∧
      (environmentAttribute bound (.node .attr children)).Usable ∧
      (environmentAttribute bound (.node .attr children)).head = .node .attr := by
  obtain ⟨first, token, rest, rfl, -⟩ := exists_of_isNamed hnamed
  obtain ⟨sign, others, heq⟩ := Usable.attr_eq ht
  obtain ⟨rfl, -⟩ := List.cons.inj heq
  obtain rfl : rest = [] := List.length_eq_zero_iff.mp (by simpa using hlength)
  obtain ⟨parts, rfl⟩ := exists_of_is hnode
  refine ⟨rfl, .node ⟨_, _, rfl⟩ fun t hmem => ?_, rfl⟩
  simp only [List.mem_cons, List.not_mem_nil, or_false] at hmem
  rcases hmem with rfl | rfl | rfl
  · exact .leaf _
  · refine Usable.congr (bare_mapLast (keepsWord_trailing _) _).symm ?_
    exact (usable_rename environmentName (ht.of_mem (by simp))).1
  · exact usable_lookupArguments hbound _

theorem Usable.binding_eq (ht : Usable (.node .binding children)) :
    ∃ pattern rest, children = pattern :: rest ∧ pattern.head ≠ .absent ∧ pattern.is .typeClause = false := by
  obtain ⟨head, heads, hheads, hthere, hother⟩ := ht.serves
  obtain ⟨pattern, rest, rfl, rfl, -⟩ := List.map_eq_cons_iff.mp hheads
  refine ⟨pattern, rest, rfl, hthere, ?_⟩
  rw [Bool.eq_false_iff]
  intro his
  obtain ⟨parts, rfl⟩ := exists_of_is his
  exact hother rfl

/-- The type of a plainly typed binding is in reach, and so is the clause around it. -/
theorem Usable.plainType_eq (ht : t.Usable) (htyped : isPlainlyTyped t = true) :
    ∃ children colon parts bound, t = .node .binding children ∧
      t.child? .typeClause = some (.node .typeClause (.leaf colon :: parts)) ∧ plainType? t = some bound ∧
      bound.Usable ∧ bound.is .typeIdentifier = true := by
  simp only [isPlainlyTyped, Bool.and_eq_true] at htyped
  obtain ⟨children, rfl⟩ := exists_of_is htyped.1
  obtain ⟨bound, hbound⟩ := Option.isSome_iff_exists.mp htyped.2
  cases hclause : (Tree.node .binding children).child? .typeClause with
  | none => simp [plainType?, hclause] at hbound
  | some clause =>
      obtain ⟨hmem, clauseParts, rfl⟩ := exists_of_child? hclause
      have husable : Usable (.node .typeClause clauseParts) := ht.of_mem hmem
      obtain ⟨kind, heads, hheads⟩ := husable.serves
      obtain ⟨first, parts, rfl, hfirst, -⟩ := List.map_eq_cons_iff.mp hheads
      obtain ⟨colon, rfl, -⟩ := head_eq_token hfirst
      refine ⟨children, colon, parts, bound, rfl, rfl, hbound, ?_⟩
      simp only [plainType?, hclause, Option.bind_eq_bind, Option.bind_some, Tree.children] at hbound
      split at hbound
      next first second others heq =>
        simp only [List.cons.injEq] at heq
        obtain ⟨-, rfl⟩ := heq
        split at hbound
        next hplain =>
          obtain rfl := Option.some.inj hbound
          exact ⟨husable.of_mem (by simp), hplain⟩
        next => simp at hbound
      next => simp at hbound

theorem mapLast_checked (f : Token → Token) (hthere : t.head ≠ .absent) :
    Checked.mapLast f t = some (t.mapLast f) := by
  cases t with
  | leaf token => rfl
  | node label children => rfl
  | absent => exact absurd rfl hthere

theorem dropTypeClause_checked (ht : t.Usable) (htyped : isPlainlyTyped t = true) :
    Checked.dropTypeClause t = some (dropTypeClause t) ∧ (dropTypeClause t).Usable ∧ (dropTypeClause t).head = t.head := by
  obtain ⟨children, colon, parts, -, rfl, hclause, -⟩ := Usable.plainType_eq ht htyped
  obtain ⟨pattern, rest, rfl, hthere, hother⟩ := Usable.binding_eq ht
  obtain ⟨last, hlast⟩ : ∃ last, (Tree.node .typeClause (.leaf colon :: parts)).last? = some last :=
    exists_last?_of_first? rfl
  have hdropped : dropTypeClause (.node .binding (pattern :: rest)) = .node .binding
      (pattern.mapLast ({ · with trailing := last.trailing }) :: rest.eraseP (·.is .typeClause)) := by
    simp only [dropTypeClause, hclause, hlast, Option.map_some, Option.getD_some]
  have hpattern : (pattern.mapLast ({ · with trailing := last.trailing })).bare = pattern.bare :=
    bare_mapLast (keepsWord_trailing _) _
  refine ⟨?_, ?_, ?_⟩
  · simp only [Checked.dropTypeClause, hclause, hlast, Checked.parts?, List.eraseP_cons, hother, Option.bind_eq_bind,
      Option.bind_some, cond_false, mapLast_checked _ hthere, hdropped]
    rfl
  · rw [hdropped]
    refine .node ⟨_, _, rfl, ?_⟩ fun s hs => ?_
    · rw [head_eq_of_bare hpattern]
      refine ⟨hthere, fun hhead => ?_⟩
      obtain ⟨found, rfl⟩ := head_eq_node hhead
      simp at hother
    · rcases List.mem_cons.mp hs with rfl | hs
      · exact Usable.congr hpattern.symm (ht.of_mem (by simp))
      · exact ht.of_mem (List.mem_cons_of_mem _ (List.eraseP_subset hs))
  · rw [hdropped]
    rfl

theorem migrateEnvironment_checked (ht : Usable (.node .variableDecl children)) :
    Checked.migrateEnvironment (.node .variableDecl children) = some (migrateEnvironment (.node .variableDecl children)) ∧
      (migrateEnvironment (.node .variableDecl children)).Usable := by
  obtain ⟨found, rest, rfl⟩ := Usable.variables_eq ht
  have hattributes : Usable (.node .attributes found) := ht.of_mem (by simp)
  have hattrs := usableAll_of_attributes hattributes
  have hrest : UsableAll rest := fun t hmem => ht.of_mem (by simp [hmem])
  simp only [Checked.migrateEnvironment, Checked.parts?, migrateEnvironment, firstNamed?_checked _ hattrs,
    Option.bind_eq_bind, Option.bind_some]
  cases htarget : found.find? (isNamed environmentObjectName) with
  | none => exact ⟨rfl, ht⟩
  | some target =>
      obtain ⟨husable, hattr⟩ := hattrs target (List.mem_of_find?_eq_some htarget)
      obtain ⟨parts, rfl⟩ := exists_of_is hattr
      cases htyped : rest.find? isPlainlyTyped with
      | none =>
          simp only [Option.bind_none, Option.bind_some, ite_self]
          exact ⟨rfl, ht⟩
      | some binding =>
          have hmem : binding ∈ rest := List.mem_of_find?_eq_some htyped
          obtain ⟨-, -, -, bound, -, -, hbound, hboundUsable, hplain⟩ :=
            Usable.plainType_eq (hrest _ hmem) (List.find?_some htyped)
          simp only [Option.bind_some, hbound, Tree.children]
          by_cases hlength : parts.length = 2
          · obtain ⟨hrenamed, hfirst, hheads⟩ := updateFirst_checked (fun t htarget' => by
              obtain rfl : t = .node .attr parts := Option.some.inj (htarget'.symm.trans htarget)
              exact environmentAttribute_checked hboundUsable hplain husable (List.find?_some htarget) hlength)
                fun t hmem => (hattrs t hmem).1
            obtain ⟨huntyped, hsecond, -⟩ := updateFirst_checked (fun t htyped' =>
              dropTypeClause_checked (hrest t (List.mem_of_find?_eq_some htyped')) (List.find?_some htyped')) hrest
            simp only [hlength, beq_self_eq_true, if_true, hrenamed, huntyped, Option.bind_some]
            refine ⟨rfl, .node ⟨_, rfl⟩ (usableAll_cons.mpr ⟨.node ?_ hfirst, hsecond⟩)⟩
            rw [hheads]
            exact hattributes.serves
          · simp only [beq_iff_eq, hlength, if_false]
            exact ⟨rfl, ht⟩

theorem migrateVariables_checked (ht : Usable (.node .variableDecl children)) :
    Checked.migrateVariables (.node .variableDecl children) = some (migrateVariables (.node .variableDecl children)) ∧
      (migrateVariables (.node .variableDecl children)).Usable := by
  obtain ⟨hchecked, husable⟩ := migrateEnvironment_checked ht
  have hlabel : (migrateEnvironment (.node .variableDecl children)).is .variableDecl = true := by
    rw [Tree.is, label?_migrateEnvironment]
    rfl
  obtain ⟨parts, hparts⟩ := exists_of_is hlabel
  rw [hparts] at husable hchecked
  obtain ⟨hdropped, hresult⟩ := dropAttributes_checked (fun t ht hattr => by
    obtain ⟨parts, rfl⟩ := exists_of_is hattr
    exact isErased_checked ht) husable
  rw [Checked.migrateVariables, hchecked, migrateVariables, hparts]
  exact ⟨hdropped, hresult⟩

end SwiftObservation.Migration
