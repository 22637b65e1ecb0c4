import SwiftObservation.Grammar.Expression
import SwiftObservation.Proofs.Grammar.Reading.Types

/-!
# Reading expressions

An operand grows from left to right: every turn of a chain puts the tree read so far at the front of a new node, so the
leaves of the new tree are those of the old one and the tokens of the turn.
-/

namespace SwiftObservation.Grammar

variable {c c' : Cursor} {g : Nonterminals} {t : Tree} {trees : List Tree}

theorem Cursor.kind_ne_of_atClosureLabel (hlabel : c.atClosureLabel = true) :
    (c.peek 1).kind ≠ .endOfFile ∧ (c.peek 2).kind ≠ .endOfFile := by
  simp only [Cursor.atClosureLabel, Bool.and_eq_true, beq_iff_eq] at hlabel
  exact ⟨by simp [hlabel.1.2], by simp [hlabel.2]⟩

theorem Cursor.kind_ne_of_atMember (hmember : c.atMember = true) : (c.peek 1).kind ≠ .endOfFile := by
  intro hend
  simp [Cursor.atMember, Token.isWord, TokenKind.isWord, hend] at hmember

theorem Cursor.kind_ne_of_atImplicitMember (hmember : c.atImplicitMember = true) :
    (c.peek 1).kind ≠ .endOfFile := by
  simp only [Cursor.atImplicitMember, Bool.and_eq_true] at hmember
  exact Token.kind_ne_of_isWord hmember.1.1.2

theorem Cursor.kind_ne_of_not_atBoundary (hinside : ¬ c.atBoundary = true) : c.current.kind ≠ .endOfFile := by
  intro hend
  simp [Cursor.atBoundary, hend] at hinside

/-- Taking `n` tokens leaves the cursor where the token `n` places ahead comes next. -/
theorem Yields.peek_takeMany {n : Nat} (hrun : Yields (takeMany n) c trees c') (m : Nat) :
    c'.peek m = c.peek (m + n) := by
  induction n generalizing c trees with
  | zero =>
      obtain ⟨-, rfl⟩ := yields_pure.mp hrun
      rfl
  | succ n ih =>
      simp only [takeMany, yields_advanceLeaf_bind] at hrun
      obtain ⟨rest, _, hrest, hresult⟩ := yields_bind.mp hrun
      obtain ⟨-, rfl⟩ := yields_pure.mp hresult
      rw [ih hrest, Cursor.peek_advance, Nat.add_assoc]

theorem reads_trailingClosures (hg : g.Reading) (hc : c.Sound) (hkind : c.current.kind ≠ .endOfFile) {callee : Tree}
    (hrun : Yields (trailingClosures g callee) c t c') :
    ∃ read, read ≠ [] ∧ Reads c read c' ∧ t.leaves = callee.leaves ++ read := by
  simp only [trailingClosures] at hrun
  obtain ⟨first, c₁, hblock, hrun⟩ := yields_bind.mp hrun
  obtain ⟨further, c₂, hfurther, hrun⟩ := yields_bind.mp hrun
  obtain ⟨rfl, rfl⟩ := yields_pure.mp hrun
  have hfirst := reads_block hg hc hkind hblock
  obtain ⟨hsecond, -⟩ := reads_gather (hfirst.sound hc) (fun {c out c'} hc hrun => by
    simp only [yields_get_bind] at hrun
    split at hrun
    next hat =>
      obtain ⟨hcolon, hbrace⟩ := Cursor.kind_ne_of_atClosureLabel hat
      obtain ⟨label, c₁, hlabel, hrun⟩ := yields_bind.mp hrun
      obtain ⟨closure, c₂, hclosure, hrun⟩ := yields_bind.mp hrun
      obtain ⟨rfl, rfl⟩ := yields_pure.mp hrun
      have hnamed := reads_takeTwo hc hcolon hlabel
      have hbraced : c₁.current.kind ≠ .endOfFile := by
        rw [Cursor.current, hlabel.peek_takeMany 0]
        exact hbrace
      simpa [Tree.leavesOf] using hnamed.trans (reads_block hg (hnamed.sound hc) hbraced hclosure)
    next =>
      obtain ⟨rfl, rfl⟩ := yields_pure.mp hrun
      exact .refl c) hfurther
  refine ⟨_, List.append_ne_nil_of_left_ne_nil (leaves_block hblock) _, hfirst.trans hsecond, ?_⟩
  have hbefore : Tree.leavesOf (if callee.is .call then callee.children else [callee]) = callee.leaves := by
    cases callee with
    | leaf token => simp [Tree.is, Tree.label?, Tree.leaves, Tree.leavesOf]
    | absent => simp [Tree.is, Tree.label?, Tree.leaves, Tree.leavesOf]
    | node label children => split <;> simp [Tree.children, Tree.leaves, Tree.leavesOf]
  simp only [Tree.leaves, Tree.leavesOf_append, Tree.leavesOf, hbefore]

theorem reads_chainFrom (hg : g.Reading) {primary : Rule Tree}
    (hprimary : ∀ {c t c'}, c.Sound → Yields primary c t c' → Reads c t.leaves c')
    (hc : c.Sound) (hrun : Yields (chainFrom g primary) c t c') : Reads c t.leaves c' := by
  simp only [chainFrom] at hrun
  obtain ⟨base, c₁, hbase, hrun⟩ := yields_bind.mp hrun
  have hfirst := hprimary hc hbase
  split at hrun
  next =>
    refine Yields.repeatFrom_induction (fun base c₁ => Reads c base.leaves c₁) (fun t c' => Reads c t.leaves c')
      ?_ hfirst hrun
    intro base c₁ outcome c₂ hreads hturn
    have hc₁ := hreads.sound hc
    simp only [chainTurn, yields_get_bind] at hturn
    split at hturn
    next hmember =>
      obtain ⟨member, _, hmembers, hturn⟩ := yields_bind.mp hturn
      obtain ⟨rfl, rfl⟩ := yields_pure.mp hturn
      have hnext := reads_takeTwo hc₁ (Cursor.kind_ne_of_atMember hmember) hmembers
      simpa [Turn.Meets, Tree.leaves, Tree.leavesOf] using hreads.trans hnext
    split at hturn
    next hmark =>
      simp only [Bool.and_eq_true] at hmark
      simp only [yields_advanceLeaf_bind, yields_pure] at hturn
      obtain ⟨rfl, rfl⟩ := hturn
      have hnext := reads_advance hc₁ (Cursor.kind_ne_of_atAttachedMark hmark.1)
      simpa [Turn.Meets, Tree.leaves, Tree.leavesOf] using hreads.trans hnext
    split at hturn
    next hparen =>
      simp only [Bool.and_eq_true, beq_iff_eq] at hparen
      obtain ⟨args, _, hargs, hturn⟩ := yields_bind.mp hturn
      obtain ⟨rfl, rfl⟩ := yields_pure.mp hturn
      have hnext := reads_arguments hg hc₁ (by simp [hparen.1.1]) hargs
      simpa [Turn.Meets, Tree.leaves, Tree.leavesOf] using hreads.trans hnext
    split at hturn
    next hbracket =>
      simp only [Bool.and_eq_true, beq_iff_eq] at hbracket
      obtain ⟨args, _, hargs, hturn⟩ := yields_bind.mp hturn
      obtain ⟨rfl, rfl⟩ := yields_pure.mp hturn
      have hnext := reads_arguments hg hc₁ (by simp [hbracket.1.1]) hargs
      simpa [Turn.Meets, Tree.leaves, Tree.leavesOf] using hreads.trans hnext
    split at hturn
    next hbrace =>
      simp only [Bool.and_eq_true, beq_iff_eq] at hbrace
      obtain ⟨call, _, hcall, hturn⟩ := yields_bind.mp hturn
      obtain ⟨rfl, rfl⟩ := yields_pure.mp hturn
      obtain ⟨read, -, hnext, hleaves⟩ := reads_trailingClosures hg hc₁ (by simp [hbrace.1.1.1]) hcall
      simpa [Turn.Meets, hleaves] using hreads.trans hnext
    next =>
      obtain ⟨rfl, rfl⟩ := yields_pure.mp hturn
      exact hreads
  next =>
    obtain ⟨rfl, rfl⟩ := yields_pure.mp hrun
    exact hfirst

theorem reads_plainPrimary (hg : g.Reading) (hc : c.Sound) (hrun : Yields (plainPrimary g) c t c') :
    Reads c t.leaves c' := by
  simp only [plainPrimary, yields_get_bind] at hrun
  split at hrun
  next hbrace => exact reads_block hg hc (by simp [beq_iff_eq.mp hbrace]) hrun
  split at hrun
  next hopen =>
    have hkind : c.current.kind ≠ .endOfFile := by
      intro hend
      simp [hend] at hopen
    exact reads_arguments hg hc hkind hrun
  split at hrun
  next hmember =>
    obtain ⟨member, _, hmembers, hrun⟩ := yields_bind.mp hrun
    obtain ⟨rfl, rfl⟩ := yields_pure.mp hrun
    have hread := reads_takeTwo hc (Cursor.kind_ne_of_atImplicitMember hmember) hmembers
    simpa [Tree.leaves, Tree.leavesOf] using hread
  split at hrun
  next => exact absurd hrun yields_throw
  next hinside =>
    obtain ⟨rfl, rfl⟩ := yields_advanceLeaf.mp hrun
    exact reads_advance hc (Cursor.kind_ne_of_not_atBoundary hinside)

theorem reads_primary (hg : g.Reading) (hc : c.Sound) (hrun : Yields (primary g) c t c') : Reads c t.leaves c' := by
  simp only [primary, yields_get_bind] at hrun
  split at hrun
  next hoperator =>
    have hkind : c.current.kind ≠ .endOfFile := by
      intro hend
      simp [hend] at hoperator
    simp only [yields_advanceLeaf_bind] at hrun
    obtain ⟨operand, _, hoperand, hrun⟩ := yields_bind.mp hrun
    obtain ⟨rfl, rfl⟩ := yields_pure.mp hrun
    have hfirst := reads_advance hc hkind
    have hsecond := reads_chainFrom hg (reads_plainPrimary hg) (hfirst.sound hc) hoperand
    simpa [Tree.leaves, Tree.leavesOf] using hfirst.trans hsecond
  next => exact reads_plainPrimary hg hc hrun

theorem reads_chain (hg : g.Reading) (hc : c.Sound) (hrun : Yields (chain g) c t c') : Reads c t.leaves c' :=
  reads_chainFrom hg (reads_primary hg) hc hrun

theorem reads_markers (hc : c.Sound) (hrun : Yields (markers g) c trees c') : Reads c (Tree.leavesOf trees) c' := by
  unfold markers at hrun
  refine (reads_gather hc (fun {c out c'} hc hrun => ?_) hrun).1
  simp only [yields_get_bind] at hrun
  split at hrun
  next hword =>
    simp only [yields_advanceLeaf_bind] at hrun
    obtain ⟨mark, _, hmark, hrun⟩ := yields_bind.mp hrun
    obtain ⟨rfl, rfl⟩ := yields_pure.mp hrun
    have hfirst := reads_advance hc (Token.kind_ne_of_isOneOf hword)
    exact hfirst.trans (reads_takeMark (hfirst.sound hc) hmark)
  next =>
    obtain ⟨rfl, rfl⟩ := yields_pure.mp hrun
    exact .refl c

theorem reads_cast (hg : g.Reading) (hc : c.Sound) (hrun : Yields (cast g) c trees c') :
    Reads c (Tree.leavesOf trees) c' := by
  simp only [cast, yields_get_bind] at hrun
  split at hrun
  next hword =>
    simp only [yields_advance_bind] at hrun
    obtain ⟨mark, c₁, hmark, hrun⟩ := yields_ite_bind.mp hrun
    obtain ⟨target, _, htarget, hrun⟩ := yields_bind.mp hrun
    obtain ⟨rfl, rfl⟩ := yields_pure.mp hrun
    have hfirst := reads_advance hc (Token.kind_ne_of_isOneOf hword)
    have hc₁ := hfirst.sound hc
    have hsecond : Reads c.advance.2 (Tree.leavesOf mark) c₁ := by
      split at hmark
      next => exact reads_takeMark hc₁ hmark
      next =>
        obtain ⟨rfl, rfl⟩ := yields_pure.mp hmark
        exact .refl _
    have hthird := hg.type (hsecond.sound hc₁) htarget
    simpa [Tree.leaves, Tree.leavesOf] using (hfirst.trans hsecond).trans hthird
  next =>
    obtain ⟨rfl, rfl⟩ := yields_pure.mp hrun
    exact .refl c

theorem reads_exprTurn (hg : g.Reading) (hc : c.Sound) {c₁ c₂ : Cursor} {s : ExprState}
    {outcome : Turn ExprState (List Tree)} (hreads : Reads c (Tree.leavesOf s.reversed.reverse) c₁)
    (hturn : Yields (exprTurn g s) c₁ outcome c₂) :
    Turn.Meets (fun s c' => Reads c (Tree.leavesOf (ExprState.reversed s).reverse) c')
      (fun trees c' => Reads c (Tree.leavesOf trees) c') outcome c₂ := by
  simp only [exprTurn, yields_get_bind] at hturn
  split at hturn
  next =>
    obtain ⟨rfl, rfl⟩ := yields_pure.mp hturn
    exact hreads
  obtain ⟨marks, c₃, hmarks, hturn⟩ := yields_bind.mp hturn
  have hmarked := hreads.trans (reads_markers (hreads.sound hc) hmarks)
  simp only [yields_get_bind] at hturn
  split at hturn
  next =>
    obtain ⟨rfl, rfl⟩ := yields_pure.mp hturn
    simpa [Turn.Meets] using hmarked
  obtain ⟨operand, c₄, hoperand, hturn⟩ := yields_bind.mp hturn
  obtain ⟨target, c₅, htarget, hturn⟩ := yields_bind.mp hturn
  have hsecond := hmarked.trans (reads_chain hg (hmarked.sound hc) hoperand)
  have hthird := hsecond.trans (reads_cast hg (hsecond.sound hc) htarget)
  simp only [yields_get_bind] at hturn
  split at hturn
  next hoperator =>
    have hkind : c₅.current.kind ≠ .endOfFile := by
      intro hend
      simp [Cursor.atBinaryOperator, hend] at hoperator
    simp only [yields_advanceLeaf_bind, yields_pure] at hturn
    obtain ⟨rfl, rfl⟩ := hturn
    simpa [Turn.Meets, Tree.leaves, Tree.leavesOf] using hthird.trans (reads_advance (hthird.sound hc) hkind)
  split at hturn
  next hcolon =>
    have hkind : c₅.current.kind ≠ .endOfFile := by
      intro hend
      simp [hend] at hcolon
    simp only [yields_advanceLeaf_bind, yields_pure] at hturn
    obtain ⟨rfl, rfl⟩ := hturn
    simpa [Turn.Meets, Tree.leaves, Tree.leavesOf] using hthird.trans (reads_advance (hthird.sound hc) hkind)
  next =>
    obtain ⟨rfl, rfl⟩ := yields_pure.mp hturn
    simpa [Turn.Meets, Tree.leaves, Tree.leavesOf] using hthird

theorem reads_expr (hg : g.Reading) (hc : c.Sound) (hrun : Yields (expr g) c t c') : Reads c t.leaves c' := by
  simp only [expr] at hrun
  obtain ⟨parts, _, hparts, hrun⟩ := yields_bind.mp hrun
  obtain ⟨rfl, rfl⟩ := yields_pure.mp hrun
  exact Yields.repeatFrom_induction _ _ (fun _ _ _ _ hreads hturn => reads_exprTurn hg hc hreads hturn)
    (by exact .refl c) hparts

end SwiftObservation.Grammar
