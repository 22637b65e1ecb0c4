import SwiftObservation.Proofs.Grammar.Faults.Basic
import SwiftObservation.Proofs.Grammar.Shape.Types
import SwiftObservation.Proofs.Tree.Within

/-!
# Faults in types and attributes

An attempt at generic arguments may be given up, but a type inside it that fails is a failure of the whole rule, and the
token that it blames has been met on the way. A type that is there has a leaf, so that a repetition over types goes on no
longer than there are tokens.
-/

namespace SwiftObservation.Grammar

variable {limit : Nat} {c c' : Cursor} {e : ParseError} {g : Nonterminals} {t : Tree} {trees : List Tree} {found : Option Tree}

theorem leaves_node {label : Label} (hmem : t ∈ trees) (hleaf : t.leaves ≠ []) : (Tree.node label trees).leaves ≠ [] := by
  obtain ⟨token, htoken⟩ := List.exists_mem_of_ne_nil _ hleaf
  rw [Tree.leaves]
  exact List.ne_nil_of_mem (Tree.mem_leavesOf.mpr ⟨t, hmem, htoken⟩)

theorem leaves_leaf (token : Token) : (Tree.leaf token).leaves ≠ [] := by simp [Tree.leaves]

theorem advances_takeTwo (hc : c.Sound) (hkind : (c.peek 1).kind ≠ .endOfFile) (hrun : Yields (takeMany 2) c trees c') :
    Advances c c' := by
  apply (reads_takeTwo hc hkind hrun).advances
  obtain ⟨tokens, rfl, hlength⟩ := hrun.takeMany_eq
  obtain ⟨first, rest, rfl⟩ := List.exists_cons_of_length_eq_add_one hlength
  simp [Tree.leaves, Tree.leavesOf]

/-- A type that is there reads a token. -/
theorem Nonterminals.Blaming.advances_type (hg : g.Blaming limit) (hc : c.Sound) (hrun : Yields g.type c (some t) c') :
    Advances c c' :=
  (hg.reading.type hc hrun).advances (by simpa [Tree.leavesOf] using hg.typeLeaf hrun)

/-- A rule whose result is put into an option does not yield nothing. -/
theorem not_yields_some {r : Rule Tree} : ¬ Yields (do return some (← r)) c none c' := by
  intro hrun
  obtain ⟨t, _, -, hresult⟩ := yields_bind.mp hrun
  simp at hresult

/-! ### Names with generic arguments -/

theorem consumes_genericArgsTurn (hg : g.Blaming limit) {start : Cursor} : Consumes (genericArgsTurn g start) := by
  intro reversed c reversed' c' hc hturn
  simp only [genericArgsTurn, yields_get_bind] at hturn
  split at hturn
  next => simp only [yields_splitOff_bind, yields_pure, reduceCtorEq, false_and] at hturn
  next =>
    obtain ⟨arg, c₁, harg, hturn⟩ := yields_bind.mp hturn
    cases arg with
    | none => simp only [yields_modify_bind, yields_pure, reduceCtorEq, false_and] at hturn
    | some arg =>
        have htype := hg.advances_type hc harg
        obtain ⟨comma, _, hcomma, hresult⟩ := yields_bind.mp hturn
        obtain ⟨-, rfl⟩ := yields_pure.mp hresult
        exact htype.trans (reads_takeIf (htype.sound hc) (by simp) hcomma)

theorem blames_genericArgs? (hg : g.Blaming limit) (hc : c.Sound) (hfuel : c.weight < g.fuel)
    (hfails : Fails (genericArgs? g) c e) : Blames (limit + 1) c e := by
  simp only [genericArgs?, fails_get_bind] at hfails
  split at hfails
  next hopen =>
    simp only [Bool.and_eq_true] at hopen
    have hopener := (reads_splitOff hc (.inl rfl) hopen.1).advances (List.cons_ne_nil _ _)
    have hlt := hopener.weight_lt
    have hfails := fails_splitOff_bind.mp hfails
    refine hopener.blames (Fails.repeatFrom_blames (hopener.sound hc) (consumes_genericArgsTurn hg) ?_ (by omega) hfails)
    intro reversed c₁ e hc₁ hfuel hfails
    simp only [genericArgsTurn, fails_get_bind] at hfails
    split at hfails
    next => exact absurd (fails_splitOff_bind.mp hfails) not_fails_pure
    next =>
      obtain hfails | ⟨arg, c₂, -, hfails⟩ := fails_bind.mp hfails
      · exact hg.type hc₁ hfuel hfails
      · cases arg with
        | none => exact absurd (fails_modify_bind.mp hfails) not_fails_pure
        | some arg =>
            obtain hfails | ⟨comma, _, -, hfails⟩ := fails_bind.mp hfails
            · exact absurd hfails not_fails_takeIf
            · exact absurd hfails not_fails_pure
  next => exact absurd hfails not_fails_pure

theorem consumes_memberTurn (hg : g.Blaming limit) : Consumes (memberTurn g) := by
  intro base c base' c' hc hturn
  simp only [memberTurn, yields_get_bind] at hturn
  split at hturn
  next hmember =>
    obtain ⟨member, c₁, hmembers, hturn⟩ := yields_bind.mp hturn
    obtain ⟨args, c₂, hargs, hturn⟩ := yields_bind.mp hturn
    obtain ⟨-, rfl⟩ := yields_pure.mp hturn
    have hnamed := advances_takeTwo hc (Cursor.kind_ne_of_atMemberType hmember) hmembers
    exact hnamed.trans (reads_genericArgs? hg.reading (hnamed.sound hc) hargs)
  next => simp at hturn

theorem blames_typeIdentifier (hg : g.Blaming limit) (hc : c.Sound) (hkind : c.current.kind ≠ .endOfFile)
    (hfuel : c.weight < g.fuel) (hfails : Fails (typeIdentifier g) c e) : Blames (limit + 1) c e := by
  have hname := reads_advance hc hkind
  have hweight := hname.weight_le
  simp only [typeIdentifier_eq, fails_advanceLeaf_bind] at hfails
  obtain hfails | ⟨args, c₁, hargs, hfails⟩ := fails_bind.mp hfails
  · exact hname.blames (blames_genericArgs? hg (hname.sound hc) (by omega) hfails)
  have hnamed := hname.trans (reads_genericArgs? hg.reading (hname.sound hc) hargs)
  have hweight' := hnamed.weight_le
  refine hnamed.blames (Fails.repeatFrom_blames (hnamed.sound hc) (consumes_memberTurn hg) ?_ (by omega) hfails)
  intro base c₁ e hc₁ hfuel hfails
  simp only [memberTurn, fails_get_bind] at hfails
  split at hfails
  next hmember =>
    obtain hfails | ⟨member, c₃, hmembers, hfails⟩ := fails_bind.mp hfails
    · exact absurd hfails not_fails_takeMany
    have hread := reads_takeTwo hc₁ (Cursor.kind_ne_of_atMemberType hmember) hmembers
    have hweight := hread.weight_le
    obtain hfails | ⟨args, c₄, -, hfails⟩ := fails_bind.mp hfails
    · exact hread.blames (blames_genericArgs? hg (hread.sound hc₁) (by omega) hfails)
    · exact absurd hfails not_fails_pure
  next => exact absurd hfails not_fails_pure

theorem leaves_typeIdentifier (hrun : Yields (typeIdentifier g) c t c') : t.leaves ≠ [] := by
  simp only [typeIdentifier, yields_advanceLeaf_bind] at hrun
  obtain ⟨args, c₁, -, hrun⟩ := yields_bind.mp hrun
  refine Yields.repeatFrom_induction (fun base _ => Tree.leaves base ≠ []) (fun t _ => Tree.leaves t ≠ []) ?_
    (leaves_node (List.mem_cons_self) (leaves_leaf _)) hrun
  intro base c₂ outcome c₃ hbase hturn
  simp only [yields_get_bind] at hturn
  split at hturn
  next =>
    obtain ⟨member, _, -, hturn⟩ := yields_bind.mp hturn
    obtain ⟨args, _, -, hturn⟩ := yields_bind.mp hturn
    obtain ⟨rfl, -⟩ := yields_pure.mp hturn
    exact leaves_node (by simp) hbase
  next =>
    obtain ⟨rfl, -⟩ := yields_pure.mp hturn
    exact hbase

/-! ### Attributes -/

theorem blames_singleAttribute (hg : g.Blaming limit) (hc : c.Sound) (hat : c.atAttribute = true) (hfuel : c.weight < g.fuel)
    (hfails : Fails (singleAttribute g) c e) : Blames (limit + 1) c e := by
  obtain ⟨hkind, hword⟩ := Cursor.kind_ne_of_atAttribute hat
  have hsign := reads_advance hc hkind
  have hweight := hsign.weight_le
  have hnext : c.advance.2.current.kind ≠ .endOfFile := by rwa [Cursor.current_advance]
  simp only [singleAttribute, fails_advanceLeaf_bind] at hfails
  obtain hfails | ⟨name, c₁, hname, hfails⟩ := fails_bind.mp hfails
  · exact hsign.blames (blames_typeIdentifier hg (hsign.sound hc) hnext (by omega) hfails)
  have hnamed := hsign.trans (reads_typeIdentifier hg.reading (hsign.sound hc) hnext hname)
  have hweight' := hnamed.weight_le
  simp only [fails_get_bind] at hfails
  split at hfails
  next hparen =>
    simp only [Bool.and_eq_true, beq_iff_eq] at hparen
    obtain hfails | ⟨args, c₂, -, hfails⟩ := fails_bind.mp hfails
    · exact hnamed.blames (blames_arguments hg (hnamed.sound hc) (by rw [hparen.1]; rfl) (by omega) hfails)
    · exact absurd hfails not_fails_pure
  next => exact absurd hfails not_fails_pure

theorem leaves_singleAttribute (hrun : Yields (singleAttribute g) c t c') : t.leaves ≠ [] := by
  simp only [singleAttribute, yields_advanceLeaf_bind] at hrun
  obtain ⟨name, c₁, -, hrun⟩ := yields_bind.mp hrun
  simp only [yields_get_bind] at hrun
  split at hrun
  · obtain ⟨args, _, -, hrun⟩ := yields_bind.mp hrun
    obtain ⟨rfl, -⟩ := yields_pure.mp hrun
    exact leaves_node List.mem_cons_self (leaves_leaf _)
  · obtain ⟨rfl, -⟩ := yields_pure.mp hrun
    exact leaves_node List.mem_cons_self (leaves_leaf _)

theorem advances_singleAttribute (hg : g.Blaming limit) (hc : c.Sound) (hat : c.atAttribute = true)
    (hrun : Yields (singleAttribute g) c t c') : Advances c c' :=
  (reads_singleAttribute hg.reading hc hat hrun).advances (leaves_singleAttribute hrun)

theorem blames_some_singleAttribute (hg : g.Blaming limit) (hc : c.Sound) (hat : c.atAttribute = true)
    (hfuel : c.weight < g.fuel) (hfails : Fails (do return some [← singleAttribute g]) c e) : Blames (limit + 1) c e := by
  obtain hfails | ⟨t, _, -, hfails⟩ := fails_bind.mp hfails
  · exact blames_singleAttribute hg hc hat hfuel hfails
  · exact absurd hfails not_fails_pure

/-! ### Types -/

theorem collects_headTurn (hg : g.Blaming limit) : Collects (headTurn g) := by
  intro c trees c' hc hrun
  simp only [headTurn, yields_get_bind] at hrun
  split at hrun
  next hat =>
    obtain ⟨t, -, hattribute⟩ := hrun.some_singleton
    exact advances_singleAttribute hg hc hat hattribute
  next =>
    split at hrun
    next hword =>
      simp only [Bool.and_eq_true] at hword
      simp only [yields_advanceLeaf_bind, yields_pure] at hrun
      rw [← hrun.2]
      exact advances_advance hc (Token.kind_ne_of_isOneOf hword.1)
    next => simp at hrun

theorem blames_typeHead (hg : g.Blaming limit) (hc : c.Sound) (hfuel : c.weight < g.fuel)
    (hfails : Fails (typeHead g) c e) : Blames (limit + 1) c e := by
  rw [typeHead_eq] at hfails
  refine Fails.gather_blames hc (collects_headTurn hg) ?_ hfuel hfails
  intro c e hc hfuel hfails
  simp only [headTurn, fails_get_bind] at hfails
  split at hfails
  next hat => exact blames_some_singleAttribute hg hc hat hfuel hfails
  next => split at hfails <;> simp at hfails

theorem blames_typeCore? (hg : g.Blaming limit) (hc : c.Sound) (hfuel : c.weight < g.fuel)
    (hfails : Fails (typeCore? g) c e) : Blames (limit + 1) c e := by
  simp only [typeCore?, fails_get_bind] at hfails
  split at hfails
  next hkind =>
    obtain hfails | ⟨t, c₁, -, hfails⟩ := fails_bind.mp hfails
    · exact blames_typeIdentifier hg hc (by simp [hkind]) hfuel hfails
    · exact absurd hfails not_fails_pure
  next hkind =>
    obtain hfails | ⟨t, c₁, -, hfails⟩ := fails_bind.mp hfails
    · exact blames_arguments hg hc (by rw [hkind]; rfl) hfuel hfails
    · exact absurd hfails not_fails_pure
  next hkind =>
    obtain hfails | ⟨t, c₁, -, hfails⟩ := fails_bind.mp hfails
    · exact blames_arguments hg hc (by rw [hkind]; rfl) hfuel hfails
    · exact absurd hfails not_fails_pure
  next => exact absurd hfails not_fails_pure

/-- A turn behind a type that goes on has read a mark, a metatype or an effect. -/
theorem consumes_typeTailTurn (hg : g.Blaming limit) : Consumes (typeTailTurn g) := by
  intro reversed c reversed' c' hc hturn
  simp only [typeTailTurn, yields_get_bind] at hturn
  split at hturn
  next hmark =>
    simp only [Bool.and_eq_true, beq_iff_eq] at hmark
    simp only [yields_advanceLeaf_bind, yields_pure] at hturn
    rw [← hturn.2]
    exact advances_advance hc (by simp [hmark.1.1])
  split at hturn
  next hmetatype =>
    simp only [Bool.and_eq_true] at hmetatype
    obtain ⟨member, _, hmember, hturn⟩ := yields_bind.mp hturn
    obtain ⟨-, rfl⟩ := yields_pure.mp hturn
    exact advances_takeTwo hc (Token.kind_ne_of_isOneOf hmetatype.2) hmember
  split at hturn
  next heffect =>
    simp only [Bool.and_eq_true] at heffect
    simp only [yields_advanceLeaf_bind, yields_get_bind] at hturn
    have hkind := Token.kind_ne_of_isOneOf heffect.1
    have hword := advances_advance hc hkind
    split at hturn
    next hparen =>
      simp only [Bool.and_eq_true, beq_iff_eq] at hparen
      obtain ⟨group, _, hgroup, hturn⟩ := yields_bind.mp hturn
      obtain ⟨-, rfl⟩ := yields_pure.mp hturn
      have hc₁ := (reads_advance hc hkind).sound hc
      exact hword.trans (reads_arguments hg.reading hc₁ (by rw [hparen.1]; simp) hgroup)
    next =>
      obtain ⟨-, rfl⟩ := yields_pure.mp hturn
      exact hword
  split at hturn
  next =>
    simp only [yields_advanceLeaf_bind] at hturn
    obtain ⟨target, _, -, hturn⟩ := yields_bind.mp hturn
    simp at hturn
  next => simp at hturn

theorem blames_typeTailTurn (hg : g.Blaming limit) (hc : c.Sound) (hfuel : c.weight < g.fuel) {reversed : List Tree}
    (hfails : Fails (typeTailTurn g reversed) c e) : Blames (limit + 1) c e := by
  simp only [typeTailTurn, fails_get_bind] at hfails
  split at hfails
  next => simp at hfails
  split at hfails
  next =>
    obtain hfails | ⟨member, _, -, hfails⟩ := fails_bind.mp hfails
    · exact absurd hfails not_fails_takeMany
    · exact absurd hfails not_fails_pure
  split at hfails
  next heffect =>
    simp only [Bool.and_eq_true] at heffect
    simp only [fails_advanceLeaf_bind, fails_get_bind] at hfails
    have hword := reads_advance hc (Token.kind_ne_of_isOneOf heffect.1)
    have hweight := hword.weight_le
    split at hfails
    next hparen =>
      simp only [Bool.and_eq_true, beq_iff_eq] at hparen
      obtain hfails | ⟨group, _, -, hfails⟩ := fails_bind.mp hfails
      · exact hword.blames (blames_arguments hg (hword.sound hc) (by rw [hparen.1]; rfl) (by omega) hfails)
      · exact absurd hfails not_fails_pure
    next => exact absurd hfails not_fails_pure
  split at hfails
  next hjoint =>
    have hkind : c.current.kind ≠ .endOfFile := by
      intro hend
      simp [hend] at hjoint
    have hword := advances_advance hc hkind
    have hlt := hword.weight_lt
    simp only [fails_advanceLeaf_bind] at hfails
    obtain hfails | ⟨target, _, -, hfails⟩ := fails_bind.mp hfails
    · exact hword.blames (hg.type (hword.sound hc) (by omega) hfails)
    · exact absurd hfails not_fails_pure
  next => exact absurd hfails not_fails_pure

theorem blames_type? (hg : g.Blaming limit) (hc : c.Sound) (hfuel : c.weight < g.fuel) (hfails : Fails (type? g) c e) :
    Blames (limit + 1) c e := by
  simp only [type?] at hfails
  obtain hfails | ⟨head, c₁, hhead, hfails⟩ := fails_bind.mp hfails
  · exact blames_typeHead hg hc hfuel hfails
  have hfirst := reads_typeHead hg.reading hc hhead
  have hweight := hfirst.weight_le
  obtain hfails | ⟨core, c₂, hcore, hfails⟩ := fails_bind.mp hfails
  · exact hfirst.blames (blames_typeCore? hg (hfirst.sound hc) (by omega) hfails)
  have hsecond := hfirst.trans (reads_typeCore? hg.reading (hfirst.sound hc) hcore)
  have hweight' := hsecond.weight_le
  cases core with
  | none => exact absurd hfails not_fails_pure
  | some core =>
      obtain hfails | ⟨tail, c₃, -, hfails⟩ := fails_bind.mp hfails
      · exact hsecond.blames (Fails.repeatFrom_blames (hsecond.sound hc)
          (consumes_typeTailTurn hg) (fun hc hfuel hfails => blames_typeTailTurn hg hc hfuel hfails) (by omega) hfails)
      · split at hfails <;> exact absurd hfails not_fails_pure

theorem leaves_headTurn (hrun : Yields (headTurn g) c (some trees) c') : ∀ t ∈ trees, t.leaves ≠ [] := by
  simp only [headTurn, yields_get_bind] at hrun
  split at hrun
  next =>
    obtain ⟨t, rfl, hattribute⟩ := hrun.some_singleton
    exact List.forall_mem_singleton.mpr (leaves_singleAttribute hattribute)
  next =>
    split at hrun
    next =>
      obtain ⟨t, rfl, hword⟩ := hrun.some_singleton
      obtain ⟨rfl, -⟩ := yields_advanceLeaf.mp hword
      exact List.forall_mem_singleton.mpr (leaves_leaf _)
    next => exact absurd hrun not_yields_none

theorem leaves_typeHead (hrun : Yields (typeHead g) c trees c') : ∀ t ∈ trees, t.leaves ≠ [] := by
  rw [typeHead_eq] at hrun
  exact Yields.forall_gather leaves_headTurn hrun

theorem leaves_typeCore? (hrun : Yields (typeCore? g) c (some t) c') : t.leaves ≠ [] := by
  simp only [typeCore?, yields_get_bind] at hrun
  split at hrun
  next => exact leaves_typeIdentifier hrun.of_some
  next => exact leaves_arguments hrun.of_some
  next => exact leaves_arguments hrun.of_some
  next => exact absurd hrun not_yields_none

/-- A type has a leaf: in its core, or in its head when there is no core. -/
theorem leaves_type? (hrun : Yields (type? g) c (some t) c') : t.leaves ≠ [] := by
  simp only [type?] at hrun
  obtain ⟨head, c₁, hhead, hrun⟩ := yields_bind.mp hrun
  obtain ⟨core, c₂, hcore, hrun⟩ := yields_bind.mp hrun
  cases core with
  | none =>
      obtain ⟨hfound, -⟩ := yields_pure.mp hrun
      cases head with
      | nil => simp at hfound
      | cons first rest =>
          obtain rfl := Option.some.inj hfound
          exact leaves_node List.mem_cons_self (leaves_typeHead hhead first List.mem_cons_self)
  | some core =>
      have hleaf := leaves_typeCore? hcore
      obtain ⟨tail, c₃, -, hrun⟩ := yields_bind.mp hrun
      split at hrun
      next single hsingle =>
        obtain ⟨hfound, -⟩ := yields_pure.mp hrun
        obtain rfl := Option.some.inj hfound
        have hmem : core ∈ [single] := hsingle ▸ by simp
        rwa [← List.mem_singleton.mp hmem]
      next =>
        obtain ⟨hfound, -⟩ := yields_pure.mp hrun
        obtain rfl := Option.some.inj hfound
        exact leaves_node (by simp) hleaf

/-- Where no type comes next, no name does. -/
theorem Yields.not_identifier_of_type? (hrun : Yields (type? g) c none c') : c'.current.kind ≠ .identifier := by
  simp only [type?] at hrun
  obtain ⟨head, c₁, -, hrun⟩ := yields_bind.mp hrun
  obtain ⟨core, c₂, hcore, hrun⟩ := yields_bind.mp hrun
  cases core with
  | none =>
      obtain ⟨-, rfl⟩ := yields_pure.mp hrun
      simp only [typeCore?, yields_get_bind] at hcore
      split at hcore
      next => exact absurd hcore not_yields_some
      next => exact absurd hcore not_yields_some
      next => exact absurd hcore not_yields_some
      next hother _ _ =>
        obtain ⟨-, rfl⟩ := yields_pure.mp hcore
        exact hother
  | some core =>
      obtain ⟨tail, c₃, -, hrun⟩ := yields_bind.mp hrun
      split at hrun <;> simp at hrun

end SwiftObservation.Grammar
