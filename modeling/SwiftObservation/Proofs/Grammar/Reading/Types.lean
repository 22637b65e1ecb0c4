import SwiftObservation.Grammar.TypeRule
import SwiftObservation.Proofs.Grammar.Reading.Basic

/-!
# Reading types and attributes

Whether `<` opens generic arguments is found out by trying, and an attempt may read far ahead before it is given up.
What has been read since the attempt began is known at every turn of it, so the cursor that moves back finds the same
tokens to come as before, cut at most.
-/

namespace SwiftObservation.Grammar

variable {c c' : Cursor} {read : List Token} {g : Nonterminals} {t : Tree} {trees : List Tree} {found : Option Tree}

/-- Moving the cursor back to where it was when nothing had been read undoes the reading, except for the cuts. -/
theorem Reads.rewindTo (hreads : Reads c read c') : Reads c [] (Cursor.rewindTo c c') := by
  have hlength : c'.taken.length - c.taken.length = read.reverse.length := by simp [hreads.taken]
  simp only [Cursor.rewindTo, hlength]
  refine ⟨?_, ?_, hreads.ending⟩
  · rw [hreads.taken, List.drop_left]
    rfl
  · rw [hreads.taken, List.take_left, List.reverse_reverse]
    exact hreads.upcoming

theorem reads_genericArgs? (hg : g.Reading) (hc : c.Sound) (hrun : Yields (genericArgs? g) c found c') :
    Reads c (Tree.leavesOf found.toList) c' := by
  simp only [genericArgs?, yields_get_bind] at hrun
  split at hrun
  next hopen =>
    simp only [Bool.and_eq_true] at hopen
    simp only [yields_splitOff_bind] at hrun
    -- The state holds what was read since the cursor stood at `c`, the last tree first.
    refine Yields.repeatFrom_induction (fun reversed c₁ => Reads c (Tree.leavesOf reversed.reverse) c₁)
      (fun found c' => Reads c (Tree.leavesOf (Option.toList found)) c') ?_ ?_ hrun
    · intro reversed c₁ outcome c₂ hreads hturn
      have hc₁ := hreads.sound hc
      simp only [genericArgsTurn, yields_get_bind] at hturn
      split at hturn
      next hclose =>
        simp only [yields_splitOff_bind, yields_pure] at hturn
        obtain ⟨rfl, rfl⟩ := hturn
        simpa [Turn.Meets, Tree.leaves, Tree.leavesOf] using hreads.trans (reads_splitOff hc₁ (.inr rfl) hclose)
      next =>
        obtain ⟨arg, c₃, harg, hturn⟩ := yields_bind.mp hturn
        have htype := hreads.trans (hg.type hc₁ harg)
        cases arg with
        | none =>
            simp only [yields_modify_bind, yields_pure] at hturn
            obtain ⟨rfl, rfl⟩ := hturn
            exact htype.rewindTo
        | some arg =>
            obtain ⟨comma, _, hcomma, hresult⟩ := yields_bind.mp hturn
            obtain ⟨rfl, rfl⟩ := yields_pure.mp hresult
            have hend := reads_takeIf (htype.sound hc) (by simp) hcomma
            have hshort : comma.reverse = comma := by
              obtain ⟨-, rfl, -⟩ | ⟨-, rfl, -⟩ := hcomma.takeIf_cases <;> rfl
            simpa [Turn.Meets, Tree.leavesOf, hshort] using htype.trans hend
    · simpa [Tree.leaves, Tree.leavesOf] using reads_splitOff hc (.inl rfl) hopen.1
  next =>
    obtain ⟨rfl, rfl⟩ := yields_pure.mp hrun
    exact .refl c

theorem Cursor.kind_ne_of_atMemberType (hmember : c.atMemberType = true) : (c.peek 1).kind ≠ .endOfFile := by
  simp only [Cursor.atMemberType, Bool.and_eq_true, beq_iff_eq] at hmember
  simp [hmember.1.1.2]

theorem reads_typeIdentifier (hg : g.Reading) (hc : c.Sound) (hkind : c.current.kind ≠ .endOfFile)
    (hrun : Yields (typeIdentifier g) c t c') : Reads c t.leaves c' := by
  simp only [typeIdentifier, yields_advanceLeaf_bind] at hrun
  obtain ⟨args, c₁, hargs, hrun⟩ := yields_bind.mp hrun
  have hname := reads_advance hc hkind
  have hfirst := hname.trans (reads_genericArgs? hg (hname.sound hc) hargs)
  refine Yields.repeatFrom_induction (fun base c₁ => Reads c base.leaves c₁) (fun t c' => Reads c t.leaves c')
    ?_ (by simpa [Tree.leaves, Tree.leavesOf] using hfirst) hrun
  intro base c₁ outcome c₂ hreads hturn
  have hc₁ := hreads.sound hc
  simp only [yields_get_bind] at hturn
  split at hturn
  next hmember =>
    obtain ⟨member, c₃, hmembers, hturn⟩ := yields_bind.mp hturn
    obtain ⟨args, c₄, hargs, hturn⟩ := yields_bind.mp hturn
    obtain ⟨rfl, rfl⟩ := yields_pure.mp hturn
    have hnamed := reads_takeTwo hc₁ (Cursor.kind_ne_of_atMemberType hmember) hmembers
    have hend := reads_genericArgs? hg (hnamed.sound hc₁) hargs
    simpa [Turn.Meets, Tree.leaves, Tree.leavesOf] using (hreads.trans hnamed).trans hend
  next =>
    obtain ⟨rfl, rfl⟩ := yields_pure.mp hturn
    exact hreads

theorem Cursor.kind_ne_of_atAttribute (hat : c.atAttribute = true) :
    c.current.kind ≠ .endOfFile ∧ (c.peek 1).kind ≠ .endOfFile := by
  simp only [Cursor.atAttribute, Bool.and_eq_true, beq_iff_eq] at hat
  exact ⟨by simp [hat.1], Token.kind_ne_of_isWord hat.2⟩

theorem reads_singleAttribute (hg : g.Reading) (hc : c.Sound) (hat : c.atAttribute = true)
    (hrun : Yields (singleAttribute g) c t c') : Reads c t.leaves c' := by
  obtain ⟨hsign, hword⟩ := Cursor.kind_ne_of_atAttribute hat
  simp only [singleAttribute, yields_advanceLeaf_bind] at hrun
  obtain ⟨name, c₁, hname, hrun⟩ := yields_bind.mp hrun
  have hfirst := reads_advance hc hsign
  have hsecond := reads_typeIdentifier hg (hfirst.sound hc) (by simpa using hword) hname
  have hnamed := hfirst.trans hsecond
  simp only [yields_get_bind] at hrun
  split at hrun
  next hparen =>
    simp only [Bool.and_eq_true, beq_iff_eq] at hparen
    obtain ⟨args, c₂, hargs, hrun⟩ := yields_bind.mp hrun
    obtain ⟨rfl, rfl⟩ := yields_pure.mp hrun
    have hthird := reads_arguments hg (hnamed.sound hc) (by simp [hparen.1]) hargs
    simpa [Tree.leaves, Tree.leavesOf] using hnamed.trans hthird
  next =>
    obtain ⟨rfl, rfl⟩ := yields_pure.mp hrun
    simpa [Tree.leaves, Tree.leavesOf] using hnamed

/-- An attribute that is gathered by itself. -/
theorem reads_some_singleAttribute (hg : g.Reading) (hc : c.Sound) (hat : c.atAttribute = true)
    {out : Option (List Tree)} (hrun : Yields (do return some [← singleAttribute g]) c out c') :
    Reads c (Tree.leavesOf (out.getD [])) c' := by
  obtain ⟨t, _, hattribute, hresult⟩ := yields_bind.mp hrun
  obtain ⟨rfl, rfl⟩ := yields_pure.mp hresult
  simpa [Tree.leavesOf] using reads_singleAttribute hg hc hat hattribute

theorem reads_typeHead (hg : g.Reading) (hc : c.Sound) (hrun : Yields (typeHead g) c trees c') :
    Reads c (Tree.leavesOf trees) c' := by
  unfold typeHead at hrun
  refine (reads_gather hc (fun {c out c'} hc hrun => ?_) hrun).1
  simp only [yields_get_bind] at hrun
  split at hrun
  next hat => exact reads_some_singleAttribute hg hc hat hrun
  next =>
    split at hrun
    next hword =>
      simp only [Bool.and_eq_true] at hword
      simp only [yields_advanceLeaf_bind, yields_pure] at hrun
      obtain ⟨rfl, rfl⟩ := hrun
      simpa [Tree.leaves, Tree.leavesOf] using reads_advance hc (Token.kind_ne_of_isOneOf hword.1)
    next =>
      obtain ⟨rfl, rfl⟩ := yields_pure.mp hrun
      exact .refl c

theorem reads_typeCore? (hg : g.Reading) (hc : c.Sound) (hrun : Yields (typeCore? g) c found c') :
    Reads c (Tree.leavesOf found.toList) c' := by
  simp only [typeCore?, yields_get_bind] at hrun
  split at hrun
  next hkind =>
    obtain ⟨t, c₁, htype, hrun⟩ := yields_bind.mp hrun
    obtain ⟨rfl, rfl⟩ := yields_pure.mp hrun
    simpa [Tree.leavesOf] using reads_typeIdentifier hg hc (by simp [hkind]) htype
  next hkind =>
    obtain ⟨t, c₁, hgroup, hrun⟩ := yields_bind.mp hrun
    obtain ⟨rfl, rfl⟩ := yields_pure.mp hrun
    simpa [Tree.leavesOf] using reads_arguments hg hc (by simp [hkind]) hgroup
  next hkind =>
    obtain ⟨t, c₁, hgroup, hrun⟩ := yields_bind.mp hrun
    obtain ⟨rfl, rfl⟩ := yields_pure.mp hrun
    simpa [Tree.leavesOf] using reads_arguments hg hc (by simp [hkind]) hgroup
  next =>
    obtain ⟨rfl, rfl⟩ := yields_pure.mp hrun
    exact .refl c

theorem reads_typeTail (hg : g.Reading) (hc : c.Sound) {fuel : Nat}
    (hrun : Yields (repeatFrom (typeTailTurn g) fuel []) c trees c') : Reads c (Tree.leavesOf trees) c' := by
  refine Yields.repeatFrom_induction (fun reversed c₁ => Reads c (Tree.leavesOf reversed.reverse) c₁)
    (fun trees c' => Reads c (Tree.leavesOf trees) c') ?_ (by exact .refl c) hrun
  intro reversed c₁ outcome c₂ hreads hturn
  have hc₁ := hreads.sound hc
  simp only [typeTailTurn, yields_get_bind] at hturn
  split at hturn
  next hmark =>
    simp only [Bool.and_eq_true, beq_iff_eq] at hmark
    simp only [yields_advanceLeaf_bind, yields_pure] at hturn
    obtain ⟨rfl, rfl⟩ := hturn
    have hnext := reads_advance hc₁ (by simp [hmark.1.1])
    simpa [Turn.Meets, Tree.leaves, Tree.leavesOf] using hreads.trans hnext
  split at hturn
  next hmetatype =>
    simp only [Bool.and_eq_true] at hmetatype
    obtain ⟨member, _, hmember, hturn⟩ := yields_bind.mp hturn
    obtain ⟨rfl, rfl⟩ := yields_pure.mp hturn
    have hnext := reads_takeTwo hc₁ (Token.kind_ne_of_isOneOf hmetatype.2) hmember
    simpa [Turn.Meets, Tree.leaves, Tree.leavesOf] using hreads.trans hnext
  split at hturn
  next heffect =>
    simp only [Bool.and_eq_true] at heffect
    simp only [yields_advanceLeaf_bind, yields_get_bind] at hturn
    have hword := hreads.trans (reads_advance hc₁ (Token.kind_ne_of_isOneOf heffect.1))
    split at hturn
    next hparen =>
      simp only [Bool.and_eq_true, beq_iff_eq] at hparen
      obtain ⟨group, _, hgroup, hturn⟩ := yields_bind.mp hturn
      obtain ⟨rfl, rfl⟩ := yields_pure.mp hturn
      have hnext := reads_arguments hg (hword.sound hc) (by rw [hparen.1]; simp) hgroup
      simpa [Turn.Meets, Tree.leaves, Tree.leavesOf] using hword.trans hnext
    next =>
      obtain ⟨rfl, rfl⟩ := yields_pure.mp hturn
      simpa [Turn.Meets, Tree.leaves, Tree.leavesOf] using hword
  split at hturn
  next hjoint =>
    have hkind : c₁.current.kind ≠ .endOfFile := by
      intro hend
      simp [hend] at hjoint
    simp only [yields_advanceLeaf_bind] at hturn
    obtain ⟨target, _, htarget, hturn⟩ := yields_bind.mp hturn
    obtain ⟨rfl, rfl⟩ := yields_pure.mp hturn
    have hword := hreads.trans (reads_advance hc₁ hkind)
    have hnext := hg.type (hword.sound hc) htarget
    cases target
    all_goals simpa [Turn.Meets, Tree.leaves, Tree.leavesOf] using hword.trans hnext
  next =>
    obtain ⟨rfl, rfl⟩ := yields_pure.mp hturn
    exact hreads

theorem reads_type? (hg : g.Reading) (hc : c.Sound) (hrun : Yields (type? g) c found c') :
    Reads c (Tree.leavesOf found.toList) c' := by
  simp only [type?] at hrun
  obtain ⟨head, c₁, hhead, hrun⟩ := yields_bind.mp hrun
  obtain ⟨core, c₂, hcore, hrun⟩ := yields_bind.mp hrun
  have hfirst := reads_typeHead hg hc hhead
  have hsecond := hfirst.trans (reads_typeCore? hg (hfirst.sound hc) hcore)
  cases core with
  | none =>
      obtain ⟨rfl, rfl⟩ := yields_pure.mp hrun
      cases head with
      | nil => simpa [Tree.leavesOf] using hsecond
      | cons first rest => simpa [Tree.leaves, Tree.leavesOf] using hsecond
  | some core =>
      obtain ⟨tail, c₃, htail, hrun⟩ := yields_bind.mp hrun
      have hall := hsecond.trans (reads_typeTail hg (hsecond.sound hc) htail)
      split at hrun
      next single hsingle =>
        obtain ⟨rfl, rfl⟩ := yields_pure.mp hrun
        have hleaves := congrArg Tree.leavesOf hsingle
        simp only [Tree.leavesOf_append, Tree.leavesOf] at hleaves
        simpa [Tree.leavesOf, ← hleaves] using hall
      next =>
        obtain ⟨rfl, rfl⟩ := yields_pure.mp hrun
        simpa [Tree.leaves, Tree.leavesOf] using hall

end SwiftObservation.Grammar
