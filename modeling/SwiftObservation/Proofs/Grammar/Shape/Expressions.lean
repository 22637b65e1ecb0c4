import SwiftObservation.Grammar.Expression
import SwiftObservation.Proofs.Grammar.Shape.Types

/-!
# The shape of expressions

The one label in an expression that anything depends on is that of a member access, which is read behind an operand or
by itself, with an absent receiver.
-/

namespace SwiftObservation.Grammar

open SwiftObservation.Tree

variable {c c' : Cursor} {g : Nonterminals} {t : Tree} {trees : List Tree} {found : Option Tree} {fuel n : Nat}

theorem shapedAll_children (ht : t.Shaped) : ShapedAll t.children := by
  cases ht with
  | leaf => simp [Tree.children]
  | node _ hinner => exact hinner
  | absent => simp [Tree.children]

theorem shaped_trailingClosures (hg : g.Shaping) {callee : Tree} (hcallee : callee.Shaped)
    (hrun : Yields (trailingClosures g callee) c t c') : t.Shaped := by
  simp only [trailingClosures] at hrun
  obtain ⟨first, _, hfirst, hrun⟩ := yields_bind.mp hrun
  obtain ⟨further, _, hfurther, hrun⟩ := yields_bind.mp hrun
  obtain ⟨rfl, -⟩ := yields_pure.mp hrun
  have hbefore : ShapedAll (if callee.is .call then callee.children else [callee]) := by
    split
    · exact shapedAll_children hcallee
    · simpa using hcallee
  have hclosures : ShapedAll further := Yields.forall_gather (fun {c more c'} hturn => by
    simp only [yields_get_bind] at hturn
    split at hturn
    · obtain ⟨label, _, hlabel, hturn⟩ := yields_bind.mp hturn
      obtain ⟨closure, _, hclosure, hturn⟩ := yields_bind.mp hturn
      obtain ⟨heq, -⟩ := yields_pure.mp hturn
      cases heq
      exact shapedAll_append.mpr ⟨shapedAll_takeMany hlabel, by simpa using shaped_block hg hclosure⟩
    · exact absurd hturn not_yields_none) hfurther
  exact .node (by simp [Label.Admits])
    (shapedAll_append.mpr ⟨hbefore, shapedAll_cons.mpr ⟨shaped_block hg hfirst, hclosures⟩⟩)

/-- A dot and the name behind it make a member access of what stands in front. -/
theorem shaped_memberAccess {receiver : Tree} (hreceiver : receiver.Shaped) (hdot : c.current.kind = .dot)
    (hrun : Yields (takeMany 2) c trees c') : Shaped (.node .memberAccess (receiver :: trees)) := by
  simp only [takeMany, bind_assoc, pure_bind, yields_advanceLeaf_bind, yields_pure] at hrun
  obtain ⟨rfl, -⟩ := hrun
  refine .node ⟨receiver, c.advance.1, c.advance.2.advance.1, rfl, by simpa using hdot⟩ ?_
  exact shapedAll_cons.mpr ⟨hreceiver, by simp⟩

theorem shaped_chainTurn (hg : g.Shaping) {base : Tree} (hbase : base.Shaped) {outcome : Turn Tree Tree}
    (hrun : Yields (chainTurn g base) c outcome c') :
    Turn.Meets (fun t _ => Shaped t) (fun t _ => Shaped t) outcome c' := by
  simp only [chainTurn, yields_get_bind] at hrun
  split at hrun
  next hmember =>
    simp only [Cursor.atMember, Bool.and_eq_true, beq_iff_eq] at hmember
    obtain ⟨member, _, hnamed, hrun⟩ := yields_bind.mp hrun
    obtain ⟨rfl, -⟩ := yields_pure.mp hrun
    exact shaped_memberAccess hbase hmember.1.1.1 hnamed
  split at hrun
  next =>
    simp only [yields_advanceLeaf_bind, yields_pure] at hrun
    obtain ⟨rfl, -⟩ := hrun
    exact .node trivial (shapedAll_cons.mpr ⟨hbase, by simp⟩)
  split at hrun
  next =>
    obtain ⟨args, _, hargs, hrun⟩ := yields_bind.mp hrun
    obtain ⟨rfl, -⟩ := yields_pure.mp hrun
    exact .node (List.cons_ne_nil _ _) (shapedAll_cons.mpr ⟨hbase, by simpa using shaped_arguments hg hargs⟩)
  split at hrun
  next =>
    obtain ⟨args, _, hargs, hrun⟩ := yields_bind.mp hrun
    obtain ⟨rfl, -⟩ := yields_pure.mp hrun
    exact .node trivial (shapedAll_cons.mpr ⟨hbase, by simpa using shaped_arguments hg hargs⟩)
  split at hrun
  next =>
    obtain ⟨call, _, hcall, hrun⟩ := yields_bind.mp hrun
    obtain ⟨rfl, -⟩ := yields_pure.mp hrun
    exact shaped_trailingClosures hg hbase hcall
  next =>
    obtain ⟨rfl, -⟩ := yields_pure.mp hrun
    exact hbase

theorem shaped_chainFrom (hg : g.Shaping) {primary : Rule Tree}
    (hprimary : ∀ {c t c'}, Yields primary c t c' → t.Shaped) (hrun : Yields (chainFrom g primary) c t c') :
    t.Shaped := by
  simp only [chainFrom] at hrun
  obtain ⟨base, _, hbase, hrun⟩ := yields_bind.mp hrun
  split at hrun
  · exact Yields.repeatFrom_induction (fun t _ => Shaped t) (fun t _ => Shaped t)
      (fun _ _ _ _ hinv hturn => shaped_chainTurn hg hinv hturn) (hprimary hbase) hrun
  · obtain ⟨rfl, -⟩ := yields_pure.mp hrun
    exact hprimary hbase

theorem shaped_plainPrimary (hg : g.Shaping) (hrun : Yields (plainPrimary g) c t c') : t.Shaped := by
  simp only [plainPrimary, yields_get_bind] at hrun
  split at hrun
  next => exact shaped_block hg hrun
  split at hrun
  next => exact shaped_group hg hrun
  split at hrun
  next hmember =>
    simp only [Cursor.atImplicitMember, Bool.and_eq_true, beq_iff_eq] at hmember
    obtain ⟨member, _, hnamed, hrun⟩ := yields_bind.mp hrun
    obtain ⟨rfl, -⟩ := yields_pure.mp hrun
    exact shaped_memberAccess .absent hmember.1.1.1 hnamed
  split at hrun
  next => exact absurd hrun yields_throw
  next =>
    obtain ⟨rfl, -⟩ := yields_advanceLeaf.mp hrun
    exact .leaf _

theorem shaped_primary (hg : g.Shaping) (hrun : Yields (primary g) c t c') : t.Shaped := by
  simp only [primary, yields_get_bind] at hrun
  split at hrun
  next =>
    simp only [yields_advanceLeaf_bind] at hrun
    obtain ⟨operand, _, hoperand, hrun⟩ := yields_bind.mp hrun
    obtain ⟨rfl, -⟩ := yields_pure.mp hrun
    have hshaped := shaped_chainFrom hg (shaped_plainPrimary hg) hoperand
    exact .node trivial (shapedAll_cons.mpr ⟨.leaf _, by simpa using hshaped⟩)
  next => exact shaped_plainPrimary hg hrun

theorem shaped_chain (hg : g.Shaping) (hrun : Yields (chain g) c t c') : t.Shaped :=
  shaped_chainFrom hg (shaped_primary hg) hrun

theorem shaped_markers (hrun : Yields (markers g) c trees c') : ShapedAll trees := by
  unfold markers at hrun
  refine Yields.forall_gather (fun {c more c'} hturn => ?_) hrun
  simp only [yields_get_bind] at hturn
  split at hturn
  next =>
    simp only [yields_advanceLeaf_bind] at hturn
    obtain ⟨mark, _, hmark, hturn⟩ := yields_bind.mp hturn
    obtain ⟨heq, -⟩ := yields_pure.mp hturn
    cases heq
    exact shapedAll_cons.mpr ⟨.leaf _, shapedAll_takeMark hmark⟩
  next => exact absurd hturn not_yields_none

theorem shaped_cast (hg : g.Shaping) (hrun : Yields (cast g) c trees c') : ShapedAll trees := by
  simp only [cast, yields_get_bind] at hrun
  split at hrun
  next =>
    simp only [yields_advance_bind] at hrun
    obtain ⟨mark, _, hmark, hrun⟩ := yields_ite_bind.mp hrun
    obtain ⟨target, _, htarget, hrun⟩ := yields_bind.mp hrun
    obtain ⟨rfl, -⟩ := yields_pure.mp hrun
    have hmarked : ShapedAll mark := by
      split at hmark
      · exact shapedAll_takeMark hmark
      · obtain ⟨rfl, -⟩ := yields_pure.mp hmark
        exact shapedAll_nil
    exact shapedAll_cons.mpr ⟨.leaf _, shapedAll_append.mpr ⟨hmarked, hg.type htarget⟩⟩
  next =>
    obtain ⟨rfl, -⟩ := yields_pure.mp hrun
    exact shapedAll_nil

theorem shaped_exprTurn (hg : g.Shaping) {s : ExprState} (hs : ShapedAll s.reversed)
    {outcome : Turn ExprState (List Tree)} (hrun : Yields (exprTurn g s) c outcome c') :
    Turn.Meets (fun s _ => ShapedAll s.reversed) (fun trees _ => ShapedAll trees) outcome c' := by
  simp only [exprTurn, yields_get_bind] at hrun
  split at hrun
  next =>
    obtain ⟨rfl, -⟩ := yields_pure.mp hrun
    exact shapedAll_reverse.mpr hs
  obtain ⟨marks, _, hmarks, hrun⟩ := yields_bind.mp hrun
  have hmarked : ShapedAll (marks.reverse ++ s.reversed) :=
    shapedAll_append.mpr ⟨shapedAll_reverse.mpr (shaped_markers hmarks), hs⟩
  simp only [yields_get_bind] at hrun
  split at hrun
  next =>
    obtain ⟨rfl, -⟩ := yields_pure.mp hrun
    exact shapedAll_reverse.mpr hmarked
  obtain ⟨operand, _, hoperand, hrun⟩ := yields_bind.mp hrun
  obtain ⟨casts, _, hcasts, hrun⟩ := yields_bind.mp hrun
  have hparts : ShapedAll (casts.reverse ++ operand :: (marks.reverse ++ s.reversed)) :=
    shapedAll_append.mpr ⟨shapedAll_reverse.mpr (shaped_cast hg hcasts),
      shapedAll_cons.mpr ⟨shaped_chain hg hoperand, hmarked⟩⟩
  simp only [yields_get_bind] at hrun
  split at hrun
  next =>
    simp only [yields_advanceLeaf_bind, yields_pure] at hrun
    obtain ⟨rfl, -⟩ := hrun
    exact shapedAll_cons.mpr ⟨.leaf _, hparts⟩
  split at hrun
  next =>
    simp only [yields_advanceLeaf_bind, yields_pure] at hrun
    obtain ⟨rfl, -⟩ := hrun
    exact shapedAll_cons.mpr ⟨.leaf _, hparts⟩
  next =>
    obtain ⟨rfl, -⟩ := yields_pure.mp hrun
    exact shapedAll_reverse.mpr hparts

theorem Yields.expr_eq (hg : g.Shaping) (hrun : Yields (expr g) c t c') :
    ∃ parts, t = .node .expr parts ∧ ShapedAll parts := by
  simp only [expr] at hrun
  obtain ⟨parts, _, hparts, hrun⟩ := yields_bind.mp hrun
  obtain ⟨rfl, -⟩ := yields_pure.mp hrun
  refine ⟨parts, rfl, ?_⟩
  exact Yields.repeatFrom_induction (fun s _ => ShapedAll s.reversed) (fun trees _ => ShapedAll trees)
    (fun _ _ _ _ hinv hturn => shaped_exprTurn hg hinv hturn) shapedAll_nil hparts

end SwiftObservation.Grammar
