import SwiftObservation.Proofs.Grammar.Faults.Types

/-!
# Faults in expressions

An operand is asked for only where one can stand: items begin inside their brackets, and behind an operator only the
tokens that begin an operand are tried. So a rule that reads operands fails as the brackets and types in them do.
-/

namespace SwiftObservation.Grammar

variable {limit : Nat} {c c' : Cursor} {e : ParseError} {g : Nonterminals} {t : Tree} {trees : List Tree}

/-! ### What follows an operand -/

theorem collects_closureTurn (hg : g.Blaming limit) : Collects (closureTurn g) := by
  intro c trees c' hc hrun
  simp only [closureTurn, yields_get_bind] at hrun
  split at hrun
  next hat =>
    obtain ⟨hcolon, hbrace⟩ := Cursor.kind_ne_of_atClosureLabel hat
    obtain ⟨label, c₁, hlabel, hrun⟩ := yields_bind.mp hrun
    obtain ⟨closure, c₂, hclosure, hrun⟩ := yields_bind.mp hrun
    obtain ⟨-, rfl⟩ := yields_pure.mp hrun
    have hnamed := advances_takeTwo hc hcolon hlabel
    have hbraced : c₁.current.kind ≠ .endOfFile := by
      rw [Cursor.current, hlabel.peek_takeMany 0]
      exact hbrace
    exact hnamed.trans (reads_block hg.reading (hnamed.sound hc) hbraced hclosure)
  next => simp at hrun

theorem blames_trailingClosures (hg : g.Blaming limit) (hc : c.Sound) (hopens : c.current.kind.isOpener = true)
    (hfuel : c.weight < g.fuel) {callee : Tree} (hfails : Fails (trailingClosures g callee) c e) :
    Blames (limit + 1) c e := by
  simp only [trailingClosures_eq] at hfails
  obtain hfails | ⟨first, c₁, hfirst, hfails⟩ := fails_bind.mp hfails
  · exact blames_block hg hc hopens hfuel hfails
  have hread := reads_block hg.reading hc (TokenKind.ne_endOfFile_of_isOpener hopens) hfirst
  have hweight := hread.weight_le
  obtain hfails | ⟨further, c₂, -, hfails⟩ := fails_bind.mp hfails
  · refine hread.blames (Fails.gather_blames (hread.sound hc) (collects_closureTurn hg) ?_ (by omega) hfails)
    intro c e hc hfuel hfails
    simp only [closureTurn, fails_get_bind] at hfails
    split at hfails
    next hat =>
      simp only [Cursor.atClosureLabel, Bool.and_eq_true, beq_iff_eq] at hat
      obtain hfails | ⟨label, c₁, hlabel, hfails⟩ := fails_bind.mp hfails
      · exact absurd hfails not_fails_takeMany
      have hnamed := reads_takeTwo hc (by simp [hat.1.2]) hlabel
      have hweight := hnamed.weight_le
      have hbraced : c₁.current.kind.isOpener = true := by
        rw [Cursor.current, hlabel.peek_takeMany 0, hat.2]
        rfl
      obtain hfails | ⟨closure, c₂, -, hfails⟩ := fails_bind.mp hfails
      · exact hnamed.blames (blames_block hg (hnamed.sound hc) hbraced (by omega) hfails)
      · exact absurd hfails not_fails_pure
    next => exact absurd hfails not_fails_pure
  · exact absurd hfails not_fails_pure

/-- A turn behind an operand that goes on has read a member, a mark, brackets or closures. -/
theorem consumes_chainTurn (hg : g.Blaming limit) : Consumes (chainTurn g) := by
  intro base c base' c' hc hturn
  simp only [chainTurn, yields_get_bind] at hturn
  split at hturn
  next hmember =>
    obtain ⟨member, _, hmembers, hturn⟩ := yields_bind.mp hturn
    obtain ⟨-, rfl⟩ := yields_pure.mp hturn
    exact advances_takeTwo hc (Cursor.kind_ne_of_atMember hmember) hmembers
  split at hturn
  next hmark =>
    simp only [Bool.and_eq_true] at hmark
    simp only [yields_advanceLeaf_bind, yields_pure] at hturn
    rw [← hturn.2]
    exact advances_advance hc (Cursor.kind_ne_of_atAttachedMark hmark.1)
  split at hturn
  next hparen =>
    simp only [Bool.and_eq_true, beq_iff_eq] at hparen
    obtain ⟨args, _, hargs, hturn⟩ := yields_bind.mp hturn
    obtain ⟨-, rfl⟩ := yields_pure.mp hturn
    exact (reads_arguments hg.reading hc (by simp [hparen.1.1]) hargs).advances (leaves_arguments hargs)
  split at hturn
  next hbracket =>
    simp only [Bool.and_eq_true, beq_iff_eq] at hbracket
    obtain ⟨args, _, hargs, hturn⟩ := yields_bind.mp hturn
    obtain ⟨-, rfl⟩ := yields_pure.mp hturn
    exact (reads_arguments hg.reading hc (by simp [hbracket.1.1]) hargs).advances (leaves_arguments hargs)
  split at hturn
  next hbrace =>
    simp only [Bool.and_eq_true, beq_iff_eq] at hbrace
    obtain ⟨call, _, hcall, hturn⟩ := yields_bind.mp hturn
    obtain ⟨-, rfl⟩ := yields_pure.mp hturn
    obtain ⟨read, hne, hread, -⟩ := reads_trailingClosures hg.reading hc (by simp [hbrace.1.1.1]) hcall
    exact hread.advances hne
  next => simp at hturn

theorem blames_chainTurn (hg : g.Blaming limit) (hc : c.Sound) (hfuel : c.weight < g.fuel) {base : Tree}
    (hfails : Fails (chainTurn g base) c e) : Blames (limit + 1) c e := by
  simp only [chainTurn, fails_get_bind] at hfails
  split at hfails
  next => simp at hfails
  split at hfails
  next => simp at hfails
  split at hfails
  next hparen =>
    simp only [Bool.and_eq_true, beq_iff_eq] at hparen
    obtain hfails | ⟨args, _, -, hfails⟩ := fails_bind.mp hfails
    · exact blames_arguments hg hc (by rw [hparen.1.1]; rfl) hfuel hfails
    · exact absurd hfails not_fails_pure
  split at hfails
  next hbracket =>
    simp only [Bool.and_eq_true, beq_iff_eq] at hbracket
    obtain hfails | ⟨args, _, -, hfails⟩ := fails_bind.mp hfails
    · exact blames_arguments hg hc (by rw [hbracket.1.1]; rfl) hfuel hfails
    · exact absurd hfails not_fails_pure
  split at hfails
  next hbrace =>
    simp only [Bool.and_eq_true, beq_iff_eq] at hbrace
    obtain hfails | ⟨call, _, -, hfails⟩ := fails_bind.mp hfails
    · exact blames_trailingClosures hg hc (by rw [hbrace.1.1.1]; rfl) hfuel hfails
    · exact absurd hfails not_fails_pure
  next => exact absurd hfails not_fails_pure

/-- A chain fails as its primary does or as one of its turns does. -/
theorem blames_chainFrom (hg : g.Blaming limit) (hc : c.Sound) (hfuel : c.weight < g.fuel) {primary : Rule Tree}
    (hreads : ∀ {t c'}, Yields primary c t c' → Reads c t.leaves c')
    (hprimary : Fails primary c e → Blames (limit + 1) c e) (hfails : Fails (chainFrom g primary) c e) :
    Blames (limit + 1) c e := by
  simp only [chainFrom] at hfails
  obtain hfails | ⟨base, c₁, hbase, hfails⟩ := fails_bind.mp hfails
  · exact hprimary hfails
  have hread := hreads hbase
  have hweight := hread.weight_le
  split at hfails
  next =>
    exact hread.blames (Fails.repeatFrom_blames (hread.sound hc) (consumes_chainTurn hg)
      (fun hc hfuel hfails => blames_chainTurn hg hc hfuel hfails) (by omega) hfails)
  next => exact absurd hfails not_fails_pure

theorem leaves_chainTurn {base : Tree} (hbase : base.leaves ≠ []) {outcome : Turn Tree Tree}
    (hturn : Yields (chainTurn g base) c outcome c') :
    Turn.Meets (fun t _ => Tree.leaves t ≠ []) (fun t _ => Tree.leaves t ≠ []) outcome c' := by
  simp only [chainTurn, yields_get_bind] at hturn
  split at hturn
  next =>
    obtain ⟨member, _, -, hturn⟩ := yields_bind.mp hturn
    obtain ⟨rfl, -⟩ := yields_pure.mp hturn
    exact leaves_node List.mem_cons_self hbase
  split at hturn
  next =>
    simp only [yields_advanceLeaf_bind, yields_pure] at hturn
    obtain ⟨rfl, -⟩ := hturn
    exact leaves_node List.mem_cons_self hbase
  split at hturn
  next =>
    obtain ⟨args, _, -, hturn⟩ := yields_bind.mp hturn
    obtain ⟨rfl, -⟩ := yields_pure.mp hturn
    exact leaves_node List.mem_cons_self hbase
  split at hturn
  next =>
    obtain ⟨args, _, -, hturn⟩ := yields_bind.mp hturn
    obtain ⟨rfl, -⟩ := yields_pure.mp hturn
    exact leaves_node List.mem_cons_self hbase
  split at hturn
  next =>
    obtain ⟨call, _, hcall, hturn⟩ := yields_bind.mp hturn
    obtain ⟨rfl, -⟩ := yields_pure.mp hturn
    simp only [trailingClosures] at hcall
    obtain ⟨first, _, hfirst, hcall⟩ := yields_bind.mp hcall
    obtain ⟨further, _, -, hcall⟩ := yields_bind.mp hcall
    obtain ⟨rfl, -⟩ := yields_pure.mp hcall
    exact leaves_node (List.mem_append_right _ List.mem_cons_self) (leaves_block hfirst)
  next =>
    obtain ⟨rfl, -⟩ := yields_pure.mp hturn
    exact hbase

theorem leaves_chainFrom {primary : Rule Tree} (hprimary : ∀ {c t c'}, Yields primary c t c' → t.leaves ≠ [])
    (hrun : Yields (chainFrom g primary) c t c') : t.leaves ≠ [] := by
  simp only [chainFrom] at hrun
  obtain ⟨base, c₁, hbase, hrun⟩ := yields_bind.mp hrun
  split at hrun
  next =>
    exact Yields.repeatFrom_induction (fun base _ => Tree.leaves base ≠ []) (fun t _ => Tree.leaves t ≠ [])
      (fun _ _ _ _ hbase hturn => leaves_chainTurn hbase hturn) (hprimary hbase) hrun
  next =>
    obtain ⟨rfl, -⟩ := yields_pure.mp hrun
    exact hprimary hbase

/-! ### Operands -/

theorem blames_plainPrimary (hg : g.Blaming limit) (hc : c.Sound) (hfuel : c.weight < g.fuel)
    (hinside : ¬ c.atBoundary = true) (hfails : Fails (plainPrimary g) c e) : Blames (limit + 1) c e := by
  simp only [plainPrimary, fails_get_bind] at hfails
  split at hfails
  next hbrace => exact blames_block hg hc (by rw [beq_iff_eq.mp hbrace]; rfl) hfuel hfails
  split at hfails
  next hopen =>
    have hopens : c.current.kind.isOpener = true := by
      simp only [Bool.or_eq_true, beq_iff_eq] at hopen
      rcases hopen with hparen | hbracket
      · rw [hparen]; rfl
      · rw [hbracket]; rfl
    exact blames_arguments hg hc hopens hfuel hfails
  split at hfails
  next => simp at hfails
  next => exact absurd hfails not_fails_advanceLeaf

theorem leaves_plainPrimary (hrun : Yields (plainPrimary g) c t c') : t.leaves ≠ [] := by
  simp only [plainPrimary, yields_get_bind] at hrun
  split at hrun
  next => exact leaves_block hrun
  split at hrun
  next => exact leaves_arguments hrun
  split at hrun
  next =>
    obtain ⟨member, _, hmember, hrun⟩ := yields_bind.mp hrun
    obtain ⟨rfl, -⟩ := yields_pure.mp hrun
    obtain ⟨tokens, rfl, hlength⟩ := hmember.takeMany_eq
    obtain ⟨first, rest, rfl⟩ := List.exists_cons_of_length_eq_add_one hlength
    exact leaves_node (by simp) (leaves_leaf first)
  split at hrun
  next => exact absurd hrun yields_throw
  next =>
    obtain ⟨rfl, -⟩ := yields_advanceLeaf.mp hrun
    exact leaves_leaf _

/-- A token that an operator applies to is neither the end of the file nor a closing bracket. -/
theorem not_atBoundary_of_startsOperand (hstarts : startsOperand c.current = true) : ¬ c.atBoundary = true := by
  intro hboundary
  simp only [startsOperand, Bool.and_eq_true, Bool.or_eq_true, beq_iff_eq] at hstarts
  simp only [Cursor.atBoundary, Bool.or_eq_true, beq_iff_eq] at hboundary
  cases hkind : c.current.kind <;> simp_all [TokenKind.isCloser, Token.isWord, TokenKind.isWord]

theorem blames_primary (hg : g.Blaming limit) (hc : c.Sound) (hfuel : c.weight < g.fuel)
    (hinside : ¬ c.atBoundary = true) (hfails : Fails (primary g) c e) : Blames (limit + 1) c e := by
  simp only [primary, fails_get_bind] at hfails
  split at hfails
  next hoperator =>
    simp only [Bool.and_eq_true] at hoperator
    have hfirst := reads_advance hc (Cursor.kind_ne_of_not_atBoundary hinside)
    have hweight := hfirst.weight_le
    have hnext : ¬ c.advance.2.atBoundary = true :=
      not_atBoundary_of_startsOperand (by rw [Cursor.current_advance]; exact hoperator.2)
    simp only [fails_advanceLeaf_bind] at hfails
    obtain hfails | ⟨operand, _, -, hfails⟩ := fails_bind.mp hfails
    · refine hfirst.blames (blames_chainFrom hg (hfirst.sound hc) (by omega) ?_ ?_ hfails)
      · intro t c' hrun
        exact reads_plainPrimary hg.reading (hfirst.sound hc) hrun
      · intro hfails
        exact blames_plainPrimary hg (hfirst.sound hc) (by omega) hnext hfails
    · exact absurd hfails not_fails_pure
  next => exact blames_plainPrimary hg hc hfuel hinside hfails

theorem leaves_primary (hrun : Yields (primary g) c t c') : t.leaves ≠ [] := by
  simp only [primary, yields_get_bind] at hrun
  split at hrun
  next =>
    simp only [yields_advanceLeaf_bind] at hrun
    obtain ⟨operand, _, -, hrun⟩ := yields_bind.mp hrun
    obtain ⟨rfl, -⟩ := yields_pure.mp hrun
    exact leaves_node List.mem_cons_self (leaves_leaf _)
  next => exact leaves_plainPrimary hrun

theorem blames_chain (hg : g.Blaming limit) (hc : c.Sound) (hfuel : c.weight < g.fuel) (hinside : ¬ c.atBoundary = true)
    (hfails : Fails (chain g) c e) : Blames (limit + 1) c e :=
  blames_chainFrom hg hc hfuel (reads_primary hg.reading hc) (blames_primary hg hc hfuel hinside) hfails

theorem leaves_chain (hrun : Yields (chain g) c t c') : t.leaves ≠ [] := leaves_chainFrom leaves_primary hrun

/-! ### Whole expressions -/

theorem collects_markerTurn : Collects markerTurn := by
  intro c trees c' hc hrun
  simp only [markerTurn, yields_get_bind] at hrun
  split at hrun
  next hword =>
    simp only [yields_advanceLeaf_bind] at hrun
    obtain ⟨mark, _, hmark, hrun⟩ := yields_bind.mp hrun
    obtain ⟨-, rfl⟩ := yields_pure.mp hrun
    have hfirst := advances_advance hc (Token.kind_ne_of_isOneOf hword)
    exact hfirst.trans (reads_takeMark (hfirst.sound hc) hmark)
  next => simp at hrun

theorem blames_markers (hc : c.Sound) (hfuel : c.weight < g.fuel) (hfails : Fails (markers g) c e) : Blames limit c e := by
  rw [markers_eq] at hfails
  refine Fails.gather_blames hc collects_markerTurn ?_ hfuel hfails
  intro c e hc _ hfails
  simp only [markerTurn, fails_get_bind] at hfails
  split at hfails
  next =>
    simp only [fails_advanceLeaf_bind] at hfails
    obtain hfails | ⟨mark, _, -, hfails⟩ := fails_bind.mp hfails
    · exact absurd hfails not_fails_takeMark
    · exact absurd hfails not_fails_pure
  next => exact absurd hfails not_fails_pure

theorem blames_cast (hg : g.Blaming limit) (hc : c.Sound) (hfuel : c.weight < g.fuel) (hfails : Fails (cast g) c e) :
    Blames (limit + 1) c e := by
  simp only [cast, fails_get_bind] at hfails
  split at hfails
  next hword =>
    have hfirst := advances_advance hc (Token.kind_ne_of_isOneOf hword)
    have hc₁ := hfirst.sound hc
    simp only [fails_advance_bind] at hfails
    obtain hfails | ⟨mark, c₁, hmark, hfails⟩ := fails_ite_bind.mp hfails
    · split at hfails <;> simp at hfails
    have hsecond : Reads c.advance.2 (Tree.leavesOf mark) c₁ := by
      split at hmark
      next => exact reads_takeMark hc₁ hmark
      next =>
        obtain ⟨rfl, rfl⟩ := yields_pure.mp hmark
        exact .refl _
    have hbefore := hfirst.trans hsecond
    have hlt := hbefore.weight_lt
    obtain hfails | ⟨target, _, -, hfails⟩ := fails_bind.mp hfails
    · exact hbefore.blames (hg.type (hbefore.sound hc) (by omega) hfails)
    · exact absurd hfails not_fails_pure
  next => exact absurd hfails not_fails_pure

theorem Cursor.not_atBoundary_of_not_atExprEnd (hgoes : ¬ c.atExprEnd = true) : ¬ c.atBoundary = true := by
  simp only [Cursor.atExprEnd, Bool.or_eq_true, not_or] at hgoes
  exact hgoes.2

/-- A turn of an expression that goes on has read an operand. -/
theorem consumes_exprTurn (hg : g.Blaming limit) : Consumes (exprTurn g) := by
  intro s c s' c' hc hturn
  simp only [exprTurn, yields_get_bind] at hturn
  split at hturn
  next => simp at hturn
  obtain ⟨marks, c₁, hmarks, hturn⟩ := yields_bind.mp hturn
  have hmarked := reads_markers hc hmarks
  simp only [yields_get_bind] at hturn
  split at hturn
  next => simp at hturn
  obtain ⟨operand, c₂, hoperand, hturn⟩ := yields_bind.mp hturn
  obtain ⟨target, c₃, htarget, hturn⟩ := yields_bind.mp hturn
  have hsecond := hmarked.trans (reads_chain hg.reading (hmarked.sound hc) hoperand)
  have hthird := hsecond.trans (reads_cast hg.reading (hsecond.sound hc) htarget)
  have hadvances : Advances c c₃ := hthird.advances (by simp [leaves_chain hoperand])
  simp only [yields_get_bind] at hturn
  split at hturn
  next hoperator =>
    have hkind : c₃.current.kind ≠ .endOfFile := by
      intro hend
      simp [Cursor.atBinaryOperator, hend] at hoperator
    simp only [yields_advanceLeaf_bind, yields_pure] at hturn
    rw [← hturn.2]
    exact hadvances.trans (reads_advance (hthird.sound hc) hkind)
  split at hturn
  next hcolon =>
    have hkind : c₃.current.kind ≠ .endOfFile := by
      intro hend
      simp [hend] at hcolon
    simp only [yields_advanceLeaf_bind, yields_pure] at hturn
    rw [← hturn.2]
    exact hadvances.trans (reads_advance (hthird.sound hc) hkind)
  next => simp at hturn

theorem blames_exprTurn (hg : g.Blaming limit) (hc : c.Sound) (hfuel : c.weight < g.fuel) {s : ExprState}
    (hfails : Fails (exprTurn g s) c e) : Blames (limit + 1) c e := by
  simp only [exprTurn, fails_get_bind] at hfails
  split at hfails
  next => exact absurd hfails not_fails_pure
  obtain hfails | ⟨marks, c₁, hmarks, hfails⟩ := fails_bind.mp hfails
  · exact blames_markers hc hfuel hfails
  have hmarked := reads_markers hc hmarks
  have hweight := hmarked.weight_le
  simp only [fails_get_bind] at hfails
  split at hfails
  next => exact absurd hfails not_fails_pure
  next hgoes =>
    obtain hfails | ⟨operand, c₂, hoperand, hfails⟩ := fails_bind.mp hfails
    · exact hmarked.blames (blames_chain hg (hmarked.sound hc) (by omega)
        (Cursor.not_atBoundary_of_not_atExprEnd hgoes) hfails)
    have hsecond := hmarked.trans (reads_chain hg.reading (hmarked.sound hc) hoperand)
    have hweight' := hsecond.weight_le
    obtain hfails | ⟨target, c₃, -, hfails⟩ := fails_bind.mp hfails
    · exact hsecond.blames (blames_cast hg (hsecond.sound hc) (by omega) hfails)
    simp only [fails_get_bind] at hfails
    split at hfails
    next => simp at hfails
    next => split at hfails <;> simp at hfails

theorem blames_expr (hg : g.Blaming limit) (hc : c.Sound) (hfuel : c.weight < g.fuel) (hfails : Fails (expr g) c e) :
    Blames (limit + 1) c e := by
  simp only [expr] at hfails
  obtain hfails | ⟨parts, _, -, hfails⟩ := fails_bind.mp hfails
  · exact Fails.repeatFrom_blames hc (consumes_exprTurn hg)
      (fun hc hfuel hfails => blames_exprTurn hg hc hfuel hfails) hfuel hfails
  · exact absurd hfails not_fails_pure

end SwiftObservation.Grammar
