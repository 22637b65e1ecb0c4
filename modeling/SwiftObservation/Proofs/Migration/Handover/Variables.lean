import SwiftObservation.Proofs.Migration.Handover.Basic

/-!
# What stands in front of an erased wrapper

A declaration of variables loses attributes at most twice: its erased wrappers to the rule for itself and its published
wrappers to the rule for the class around it. Each time, what stands in front of the first attribute behind a place in the
declaration is handed over to the first token behind that place that is left. So what stood in front of an erased wrapper
comes to stand in front of the next token of the declaration that stays.
-/

namespace SwiftObservation.Migration

open SwiftObservation.Tree SwiftObservation.Trivia

variable {names : List Text} {doomed : Tree → Bool} {x : Text} {attr t : Tree} {label : Label}
  {front back found rest : List Tree}

/-! ### Attributes are removed -/

/-- The tree is the other one, with other trivia in front of its tokens. -/
structure Echoes (s t : Tree) : Prop where
  bare : s.bare = t.bare
  leaves : s.leaves.map Token.unled = t.leaves.map Token.unled

theorem echoes_deliver (carried : Option Text) (ht : t.leaves ≠ []) : ∃ t', deliver carried [t] = [t'] ∧ Echoes t' t := by
  obtain ⟨t', hdelivered, hbare⟩ := deliver_singleton carried t
  have hsome : leavesOf [t] ≠ [] := by rwa [leavesOf_singleton]
  have htokens := (dense_deliver carried hsome).2
  rw [hdelivered, leavesOf_singleton, leavesOf_singleton] at htokens
  exact ⟨t', hdelivered, hbare, htokens⟩

theorem echoes_dropFrom (carried : Option Text) (hfound : ∀ t ∈ found, t.leaves ≠ []) :
    List.Forall₂ Echoes (dropFrom doomed carried found).1 (found.filter (!doomed ·)) := by
  induction found generalizing carried with
  | nil => exact .nil
  | cons t found ih =>
      have hmore := fun s hs => hfound s (List.mem_cons_of_mem t hs)
      rw [dropFrom]
      split
      next hdoomed =>
        rw [List.filter_cons_of_neg (by simp [hdoomed])]
        exact ih _ hmore
      next hkept =>
        obtain ⟨t', hdelivered, hechoes⟩ := echoes_deliver carried (hfound t (by simp))
        rw [List.filter_cons_of_pos (by simpa using hkept), hdelivered]
        exact .cons hechoes (ih none hmore)

theorem unled_leavesOf {trees trees' : List Tree} (hechoes : List.Forall₂ Echoes trees trees') :
    (leavesOf trees).map Token.unled = (leavesOf trees').map Token.unled := by
  induction hechoes with
  | nil => rfl
  | cons hfirst _ ih => rw [leavesOf, leavesOf, List.map_append, List.map_append, hfirst.leaves, ih]

theorem echoes_filter {trees trees' : List Tree} (unpublished : Bool) (hechoes : List.Forall₂ Echoes trees trees') :
    List.Forall₂ Echoes (trees.filter (isKept unpublished)) (trees'.filter (isKept unpublished)) := by
  refine List.rel_filter (fun s t hst => ?_) hechoes
  have hkept : isKept unpublished s = isKept unpublished t := by
    rw [isKept, ← isNamed_bare publishedName s, hst.bare, isNamed_bare, isKept]
  simp only [hkept]

/-- The attributes that stay behind a place in the declaration, and the text that is handed over to the first token there. -/
theorem Led.dropAttributes (doomed : Tree → Bool) (label : Label) (hx : x.Unbroken)
    (hfound : ∀ t ∈ front ++ back, t.leaves ≠ []) (hrest : leavesOf rest ≠ [])
    (hled : Led x (leavesOf (back ++ rest))) :
    ∃ front' back' rest', Migration.dropAttributes doomed (.node label (.node .attributes (front ++ back) :: rest)) =
        .node label (.node .attributes (front' ++ back') :: rest') ∧
      (∀ t ∈ front' ++ back', t.leaves ≠ []) ∧ List.Forall₂ Echoes back' (back.filter (!doomed ·)) ∧
      (leavesOf rest').map Token.unled = (leavesOf rest).map Token.unled ∧ Led x (leavesOf (back' ++ rest')) := by
  have hback := fun t ht => hfound t (List.mem_append_right front ht)
  refine ⟨(Migration.dropFrom doomed none front).1,
    (Migration.dropFrom doomed (Migration.dropFrom doomed none front).2 back).1, _,
    by rw [dropAttributes_node, dropFrom_append], ?_, echoes_dropFrom _ hback, (dense_deliver _ hrest).2,
    Offers.dropFrom doomed hx hback hrest (.inr hled)⟩
  have hkept : ∀ t ∈ (Migration.dropFrom doomed none (front ++ back)).1, t.leaves ≠ [] := leaves_of_mem_dropFrom hfound
  rwa [dropFrom_append] at hkept

/-! ### Attributes are migrated -/

/-- The attribute is what its own rule and the rule for objects from the environment make of the other one. -/
structure Answers (s t : Tree) : Prop where
  erased : isErased s = isNamed observedObjectName t
  published : isNamed publishedName s = isNamed publishedName t
  leading : s.leading = t.leading
  first : isNamed observedObjectName t = false → s.leaves.head? = t.leaves.head?
  holds : s.leaves ≠ []

theorem isErased_cons_cons {first second : Tree} {more : List Tree} :
    isErased (.node label (first :: second :: more)) = false := by
  cases first <;> rfl

theorem answers_migrate (ht : t.Shaped) (hattr : t.is .attr = true) : Answers (migrate names t) t := by
  have hpublished : isNamed publishedName (migrate names t) = isNamed publishedName t := isNamed_published_migrate ht hattr
  obtain ⟨children, rfl⟩ := exists_of_is hattr
  obtain ⟨sign, name, args, rfl, -⟩ := ht.admits
  cases hobserved : isNamed observedObjectName (.node .attr (.leaf sign :: name :: Tree.optional .arguments args)) with
  | true =>
      obtain ⟨_, token, _, hchildren, htoken⟩ := exists_of_isNamed hobserved
      obtain ⟨rfl, -⟩ := List.cons.inj (List.cons.inj hchildren).2
      rw [migrate_attr_observedObject htoken] at hpublished ⊢
      exact ⟨by rw [hobserved]; rfl, hpublished, rfl, by simp [hobserved], by simp [Migration.erased, leaves, leavesOf]⟩
  | false =>
      obtain ⟨second, more, heq⟩ : ∃ second more,
          migrate names (.node .attr (.leaf sign :: name :: Tree.optional .arguments args)) =
            .node .attr (.leaf sign :: second :: more) := by
        cases hstate : isNamed stateObjectName (.node .attr (.leaf sign :: name :: Tree.optional .arguments args)) with
        | true =>
            obtain ⟨_, token, _, hchildren, htoken⟩ := exists_of_isNamed hstate
            obtain ⟨rfl, -⟩ := List.cons.inj (List.cons.inj hchildren).2
            exact ⟨_, _, migrate_attr_stateObject htoken⟩
        | false => exact ⟨_, _, migrate_attr_of_not_isNamed hstate hobserved⟩
      rw [heq] at hpublished ⊢
      exact ⟨by rw [isErased_cons_cons, hobserved], hpublished, rfl, fun _ => rfl, by simp [leaves, leavesOf]⟩

/-- The successor of a wrapper begins with the wrapper's sign. -/
theorem answers_environmentAttribute (bound : Tree) (ht : t.Shaped) (hattr : t.is .attr = true)
    (hnamed : isNamed environmentObjectName t = true) : Answers (environmentAttribute bound (migrate names t)) t := by
  have hanswers : Answers (migrate names t) t := answers_migrate ht hattr
  have hobserved : isNamed observedObjectName t = false := not_isNamed_of_isNamed (by decide) hnamed
  have hstate : isNamed stateObjectName t = false := not_isNamed_of_isNamed (by decide) hnamed
  have hpublished : isNamed publishedName t = false := not_isNamed_of_isNamed (by decide) hnamed
  obtain ⟨children, rfl⟩ := exists_of_is hattr
  obtain ⟨sign, name, args, rfl, -⟩ := ht.admits
  obtain ⟨_, token, _, hchildren, -⟩ := exists_of_isNamed hnamed
  obtain ⟨rfl, -⟩ := List.cons.inj (List.cons.inj hchildren).2
  rw [migrate_attr_of_not_isNamed hstate hobserved, List.map_cons, List.map_cons, migrate_leaf, migrate_plainName] at hanswers ⊢
  cases args with
  | some args => exact hanswers
  | none =>
      exact ⟨by rw [hobserved]; rfl, by rw [hpublished]; rfl, rfl, fun _ => rfl, leaves_environmentAttribute hanswers.holds⟩

theorem answers_updateFirst (bound : Tree) (hfound : ∀ t ∈ found, t.Shaped ∧ t.is .attr = true) :
    List.Forall₂ Answers (updateFirst (isNamed environmentObjectName) (environmentAttribute bound) (found.map (migrate names)))
      found := by
  induction found with
  | nil => exact .nil
  | cons t found ih =>
      obtain ⟨hshaped, hattr⟩ := hfound t (by simp)
      have hmore := fun s hs => hfound s (List.mem_cons_of_mem t hs)
      rw [List.map_cons, updateFirst, isNamed_environmentObject_migrate hshaped hattr]
      split
      next hnamed =>
        refine .cons (answers_environmentAttribute bound hshaped hattr hnamed) ?_
        rw [List.forall₂_map_left_iff]
        exact List.forall₂_same.mpr fun s hs => answers_migrate (hmore s hs).1 (hmore s hs).2
      next => exact .cons (answers_migrate hshaped hattr) (ih hmore)

/-- Modifiers hold nothing that migration changes. -/
theorem migrate_modifiers {modifiers : List Tree} (ht : Shaped (.node .modifiers modifiers)) :
    migrate names (.node .modifiers modifiers) = .node .modifiers modifiers := by
  rw [migrate_node_of_not_mem .modifiers (by decide)]
  congr 1
  conv_rhs => rw [← List.map_id modifiers]
  refine List.map_congr_left fun t hmem => ?_
  obtain ⟨parts, rfl⟩ := exists_of_is (ht.admits t hmem)
  obtain ⟨tokens, rfl, -⟩ := (ht.of_mem hmem).admits
  rw [migrate_node_of_not_mem .modifier (by decide), List.map_map]
  rfl

/-- What the rule for declarations of variables removes attributes from. Behind the attributes the first token is as it was. -/
theorem exists_answers (names : List Text) (ht : Shaped (.node .variableDecl (.node .attributes found :: rest))) :
    ∃ found' rest', migrate names (.node .variableDecl (.node .attributes found :: rest)) =
        dropAttributes isErased (.node .variableDecl (.node .attributes found' :: rest')) ∧
      List.Forall₂ Answers found' found ∧ leavesOf rest' ≠ [] ∧ (leavesOf rest').head? = (leavesOf rest).head? := by
  have hattributes : Shaped (.node .attributes found) := ht.of_mem (by simp)
  have hattrs : ∀ t ∈ found, t.Shaped ∧ t.is .attr = true := fun t hmem => ⟨hattributes.of_mem hmem, hattributes.admits t hmem⟩
  obtain ⟨_, modifiers, keyword, bindings, hchildren, -⟩ := ht.admits
  obtain ⟨-, rfl⟩ := List.cons.inj hchildren
  have hmodifiers : Shaped (.node .modifiers modifiers) := ht.of_mem (by simp)
  have hfirst (trees : List Tree) : leavesOf (.node .modifiers modifiers :: .leaf keyword :: trees) ≠ [] ∧
      (leavesOf (.node .modifiers modifiers :: .leaf keyword :: trees)).head? =
        (leavesOf (.node .modifiers modifiers :: .leaf keyword :: bindings)).head? := by
    simp [leavesOf, leaves, List.head?_append]
  rw [migrate_node, migrateNode, migrateVariables, List.map_cons, migrate_node_of_not_mem .attributes (by decide),
    List.map_cons, List.map_cons, migrate_modifiers hmodifiers, migrate_leaf]
  obtain ⟨-, heq⟩ | ⟨_, _, bound, -, -, -, -, heq⟩ := migrateEnvironment_cases .variableDecl (found.map (migrate names))
    (.node .modifiers modifiers :: .leaf keyword :: bindings.map (migrate names))
  · refine ⟨_, _, by rw [heq], ?_, hfirst _⟩
    rw [List.forall₂_map_left_iff]
    exact List.forall₂_same.mpr fun t hmem => answers_migrate (hattrs t hmem).1 (hattrs t hmem).2
  · have hupdate : updateFirst isPlainlyTyped dropTypeClause
        (.node .modifiers modifiers :: .leaf keyword :: bindings.map (migrate names)) =
        .node .modifiers modifiers :: .leaf keyword ::
          updateFirst isPlainlyTyped dropTypeClause (bindings.map (migrate names)) := rfl
    exact ⟨_, _, by rw [heq, hupdate], answers_updateFirst bound hattrs, hfirst _⟩

/-! ### The next token that stays -/

/-- The attribute stays in a declaration that is unpublished or not. -/
def stays (unpublished : Bool) (t : Tree) : Bool := !isNamed observedObjectName t && isKept unpublished t

/-- The first token of the attributes that stay and what follows them. -/
theorem head?_stays {found' rest' : List Tree} (unpublished : Bool) (hfound : List.Forall₂ Answers found' found)
    (hrest : (leavesOf rest').head? = (leavesOf rest).head?) :
    (leavesOf ((found'.filter (!isErased ·)).filter (isKept unpublished) ++ rest')).head? =
      (leavesOf (found.filter (stays unpublished) ++ rest)).head? := by
  induction hfound with
  | nil => exact hrest
  | @cons s t found' found hst _ ih =>
      have hkept : isKept unpublished s = isKept unpublished t := by rw [isKept, hst.published, isKept]
      cases hobserved : isNamed observedObjectName t with
      | true => simpa [hst.erased, hobserved, stays] using ih
      | false =>
          cases hpublished : isKept unpublished t with
          | false => simpa [hst.erased, hobserved, hkept, hpublished, stays] using ih
          | true =>
              obtain ⟨token, more, hleaves⟩ := List.exists_cons_of_ne_nil hst.holds
              have hsome : t.leaves.head? = some token := by rw [← hst.first hobserved, hleaves]; rfl
              simp [hst.erased, hobserved, hkept, hpublished, stays, leavesOf, List.head?_append, hsome, hleaves]

theorem leaves_of_answers {found' : List Tree} (hfound : List.Forall₂ Answers found' found) :
    ∀ t ∈ found', t.leaves ≠ [] := by
  induction hfound with
  | nil => simp
  | cons hst _ ih => exact List.forall_mem_cons.mpr ⟨hst.holds, ih⟩

/-- A declaration that is not unpublished loses no further attribute. -/
theorem unpublish_eq (unpublished : Bool) (found rest : List Tree) :
    (if unpublished then unpublish (.node .variableDecl (.node .attributes found :: rest))
      else .node .variableDecl (.node .attributes found :: rest)) =
      dropAttributes (!isKept unpublished ·) (.node .variableDecl (.node .attributes found :: rest)) := by
  cases unpublished with
  | false => simp [dropAttributes, isKept]
  | true => simp [unpublish, isKept]

/-- What stands in front of an erased wrapper comes to stand in front of the next token of the declaration that stays. -/
theorem exists_next (names : List Text) (unpublished : Bool)
    (ht : Shaped (.node .variableDecl (.node .attributes (front ++ attr :: back) :: rest)))
    (hobserved : isNamed observedObjectName attr = true) (hx : x.Unbroken) (hbears : Bears attr.leading x) :
    ∃ v u, firstOf? (back.filter (stays unpublished) ++ rest) = some v ∧
      u ∈ (if unpublished then unpublish (migrate names (.node .variableDecl (.node .attributes (front ++ attr :: back) :: rest)))
        else migrate names (.node .variableDecl (.node .attributes (front ++ attr :: back) :: rest))).leaves ∧
      u.unled = v.unled ∧ Bears u.leading x := by
  obtain ⟨found', rest', heq, hanswers, hrest, hfirst⟩ := exists_answers names ht
  obtain ⟨front', attr', back', rfl, hattr, hback⟩ : ∃ front' attr' back', found' = front' ++ attr' :: back' ∧
      Answers attr' attr ∧ List.Forall₂ Answers back' back := by
    have hbehind := List.forall₂_drop_append _ _ _ hanswers
    obtain ⟨attr', back', hattr, hback, hdrop⟩ := List.forall₂_cons_right_iff.mp hbehind
    exact ⟨_, attr', back', by rw [← hdrop, List.take_append_drop], hattr, hback⟩
  have hled : Led x (leavesOf (attr' :: back' ++ rest')) := by
    obtain ⟨token, more, htokens⟩ := List.exists_cons_of_ne_nil hattr.holds
    have hleading : token.leading = attr.leading := by rw [← hattr.leading, leading, first?_eq, htokens]; rfl
    exact ⟨token, by rw [List.cons_append, leavesOf, htokens]; rfl, by rwa [hleading]⟩
  -- The erased wrappers go, and then the published ones, if the declaration is unpublished.
  obtain ⟨front₁, back₁, rest₁, hdropped, hleaves₁, hechoes₁, hunled₁, hled₁⟩ :=
    hled.dropAttributes isErased .variableDecl hx (leaves_of_answers hanswers) hrest
  have hrest₁ : leavesOf rest₁ ≠ [] := by
    intro hnone
    rw [hnone, List.map_nil, eq_comm, List.map_eq_nil_iff] at hunled₁
    exact hrest hunled₁
  obtain ⟨front₂, back₂, rest₂, hunpublished, -, hechoes₂, hunled₂, u, hhead, hbears⟩ :=
    hled₁.dropAttributes (!isKept unpublished ·) .variableDecl hx hleaves₁ hrest₁
  rw [List.filter_cons_of_neg (by simp [hattr.erased, hobserved])] at hechoes₁
  simp only [Bool.not_not] at hechoes₂
  have hunled : (leavesOf (back₂ ++ rest₂)).map Token.unled =
      (leavesOf ((back'.filter (!isErased ·)).filter (isKept unpublished) ++ rest')).map Token.unled := by
    rw [leavesOf_append, leavesOf_append, List.map_append, List.map_append, unled_leavesOf hechoes₂,
      unled_leavesOf (echoes_filter unpublished hechoes₁), hunled₂, hunled₁]
  have hsame := congrArg List.head? hunled
  rw [List.head?_map, List.head?_map, hhead, Option.map_some, eq_comm, Option.map_eq_some_iff] at hsame
  obtain ⟨v, hv, hsame⟩ := hsame
  refine ⟨v, u, by rw [firstOf?_eq, ← head?_stays unpublished hback hfirst, hv], ?_, hsame.symm, hbears⟩
  rw [heq, hdropped, unpublish_eq, hunpublished, leaves, leavesOf, leaves, leavesOf_append, List.append_assoc, ← leavesOf_append]
  exact List.mem_append_right _ (List.mem_of_head? hhead)

end SwiftObservation.Migration
