import Mathlib.Data.List.Infix
import SwiftObservation.Proofs.Migration.Comments.Variables
import SwiftObservation.Proofs.Migration.Removal

/-!
# Trivia that is handed over

What goes leaves the trivia in front of it to the next token that stays. On the way only the end of the trivia is cut, a line
break and the indentation behind it, and a comment ends before that. So a text that does not end in a line break is handed
on from token to token as long as it stands in front of the indentation.
-/

namespace SwiftObservation

open SwiftObservation.Tree

namespace Text

variable {a b x : Text}

/-- The text does not end in a line break. -/
def Unbroken (s : Text) : Prop := ∀ c ∈ s.getLast?, isLineBreak c = false

theorem dropEndWhile_append (p : Char → Bool) (a b : Text) :
    (a ++ b).dropEndWhile p = if b.all p then a.dropEndWhile p else a ++ b.dropEndWhile p := by
  have hempty : (b.reverse.dropWhile p).isEmpty = b.all p := by
    rw [Bool.eq_iff_iff, List.isEmpty_iff, List.dropWhile_eq_nil_iff]
    simp
  rw [dropEndWhile, List.reverse_append, List.dropWhile_append, hempty]
  split
  · rfl
  · rw [List.reverse_append, List.reverse_reverse, dropEndWhile]

theorem unbroken_dropEndWhile (s : Text) : Unbroken (s.dropEndWhile isLineBreak) := by
  intro c hc
  rw [dropEndWhile, List.getLast?_reverse] at hc
  have hhead := List.head?_dropWhile_not isLineBreak s.reverse
  rw [Option.mem_def.mp hc] at hhead
  simpa using hhead

/-- Line breaks at the end of a text do not matter to one that does not end in any. -/
theorem Unbroken.infix_of_append (hx : Unbroken x) (hb : b.all isLineBreak = true) (hoccurs : x <:+: a ++ b) : x <:+: a := by
  induction b using List.reverseRecOn with
  | nil => simpa using hoccurs
  | append_singleton front c ih =>
      rw [List.all_append, Bool.and_eq_true] at hb
      rw [← List.append_assoc, List.infix_concat_iff, List.suffix_concat_iff] at hoccurs
      obtain (rfl | ⟨inner, rfl, -⟩) | hoccurs := hoccurs
      · exact List.nil_infix
      · have hbreak : isLineBreak c = false := hx c (by simp)
        simp [hbreak] at hb
      · exact ih hb.1 hoccurs

end Text

namespace Trivia

variable {s x removed following : Text}

/-- The text stands in the trivia, in front of the indentation at its end. -/
def Bears (s x : Text) : Prop := x <:+: s.dropEndWhile isIndent

theorem Bears.occurs (hs : Bears s x) : x <:+: s := hs.trans (isPrefix_dropEndWhile isIndent s).isInfix

theorem Bears.append (hs : Bears s x) (more : Text) : Bears (s ++ more) x := by
  rw [Bears, Text.dropEndWhile_append]
  split
  · exact hs
  · exact hs.occurs.trans (List.prefix_append _ _).isInfix

theorem Bears.prepend (hs : Bears s x) (front : Text) : Bears (front ++ s) x := by
  rw [Bears, Text.dropEndWhile_append]
  split
  next hall =>
    have hnone : s.dropEndWhile isIndent = [] := by
      rw [Text.dropEndWhile, List.reverse_eq_nil_iff, List.dropWhile_eq_nil_iff]
      simpa using hall
    rw [Bears, hnone, List.infix_nil] at hs
    exact hs ▸ List.nil_infix
  next => exact hs.trans (List.suffix_append _ _).isInfix

/-- What stands in the trivia of a removed token is handed over. -/
theorem Bears.mergeLeading (hremoved : Bears removed x) (hx : x.Unbroken) (following : Text) :
    Bears (mergeLeading removed following) x := by
  unfold Trivia.mergeLeading
  split
  next hbreak =>
    obtain ⟨gone, hparts, hbreaks⟩ := exists_lineBreak (removed.dropEndWhile isIndent)
    have hoccurs : x <:+: dropLineBreak (removed.dropEndWhile isIndent) := by
      rw [Bears, hparts] at hremoved
      exact hx.infix_of_append hbreaks hremoved
    have hall : following.all isIndent = false := by
      obtain ⟨c, hc, hline⟩ := List.any_eq_true.mp hbreak
      rw [List.all_eq_false]
      refine ⟨c, hc, ?_⟩
      simp only [Text.isLineBreak, Bool.or_eq_true, beq_iff_eq] at hline
      rcases hline with rfl | rfl <;> decide
    rw [Bears, Text.dropEndWhile_append, hall]
    exact hoccurs.trans (List.prefix_append _ _).isInfix
  next => exact hremoved.append following

/-- What stands in the trivia of the next token stays there. -/
theorem Bears.mergeLeading_following (hfollowing : Bears following x) (removed : Text) :
    Bears (Trivia.mergeLeading removed following) x := by
  unfold Trivia.mergeLeading
  split <;> exact hfollowing.prepend _

/-- All of the trivia but the line breaks and the indentation at its end can be handed over. -/
theorem exists_bears (s : Text) : ∃ kept breaks indent, s = kept ++ breaks ++ indent ∧
    breaks.all Text.isLineBreak = true ∧ indent.all isIndent = true ∧ Bears s kept ∧ kept.Unbroken := by
  obtain ⟨indent, hs, hindent⟩ := Text.exists_dropEndWhile isIndent s
  obtain ⟨breaks, hfront, hbreaks⟩ := Text.exists_dropEndWhile Text.isLineBreak (s.dropEndWhile isIndent)
  refine ⟨_, breaks, indent, by rw [← hfront, ← hs], hbreaks, hindent, ?_, Text.unbroken_dropEndWhile _⟩
  exact (isPrefix_dropEndWhile _ _).isInfix

end Trivia

/-- The token is the other one, and what can be handed over of the trivia in front of that one stands in front of it. -/
structure Token.Continues (u v : Token) : Prop where
  kind : u.kind = v.kind
  text : u.text = v.text
  position : u.position = v.position
  bears : ∀ x : Text, x.Unbroken → Trivia.Bears v.leading x → Trivia.Bears u.leading x

namespace Token.Continues

variable {u v w : Token}

theorem refl (u : Token) : u.Continues u := ⟨rfl, rfl, rfl, fun _ _ => id⟩

theorem trans (huv : u.Continues v) (hvw : v.Continues w) : u.Continues w where
  kind := huv.kind.trans hvw.kind
  text := huv.text.trans hvw.text
  position := huv.position.trans hvw.position
  bears := fun x hx hw => huv.bears x hx (hvw.bears x hx hw)

theorem takeUp (carried : Text) (u : Token) : (Migration.takeUp carried u).Continues u :=
  ⟨rfl, rfl, rfl, fun _ _ hu => hu.mergeLeading_following carried⟩

theorem withTrailing (trailing : Text) (u : Token) : { u with trailing }.Continues u := ⟨rfl, rfl, rfl, fun _ _ => id⟩

theorem all_refl (tokens : List Token) : List.Forall₂ Continues tokens tokens :=
  List.forall₂_same.mpr fun u _ => refl u

end Token.Continues

namespace Migration

open SwiftObservation.Trivia

variable {doomed : Tree → Bool} {carried : Option Text} {x : Text} {t : Tree} {trees found rest : List Tree}

/-! ### Tokens that stay -/

theorem continues_deliver (carried : Option Text) (trees : List Tree) :
    List.Forall₂ Token.Continues (leavesOf (deliver carried trees)) (leavesOf trees) := by
  cases carried with
  | none => exact Token.Continues.all_refl _
  | some text =>
      obtain ⟨hnone, -⟩ | ⟨trees', token, rest, hsome, hleaves, hchanged⟩ := mapFirstOf?_cases (takeUp text) trees
      · rw [deliver, hnone]
        exact Token.Continues.all_refl _
      · rw [deliver, hsome, Option.getD_some, hleaves, hchanged]
        exact .cons (.takeUp text token) (Token.Continues.all_refl rest)

theorem continues_mapLast (trailing : Text) (t : Tree) :
    List.Forall₂ Token.Continues (t.mapLast ({ · with trailing })).leaves t.leaves := by
  obtain ⟨hnone, -⟩ | ⟨t', token, front, hsome, hleaves, hchanged⟩ := mapLast?_cases ({ · with trailing }) t
  · rw [mapLast, hnone]
    exact Token.Continues.all_refl _
  · rw [mapLast, hsome, Option.getD_some, hleaves, hchanged]
    exact List.rel_append (Token.Continues.all_refl front) (.cons (.withTrailing trailing token) .nil)

/-! ### Trivia in front of what goes -/

/-- The text stands in front of the first of the tokens. -/
def Led (x : Text) (tokens : List Token) : Prop := ∃ token, tokens.head? = some token ∧ Bears token.leading x

/-- The text is carried, or it stands in front of the first of the tokens. -/
def Offers (carried : Option Text) (tokens : List Token) (x : Text) : Prop :=
  (∃ text, carried = some text ∧ Bears text x) ∨ Led x tokens

theorem Offers.deliver (hx : x.Unbroken) (htrees : leavesOf trees ≠ []) (hoffers : Offers carried (leavesOf trees) x) :
    Led x (leavesOf (deliver carried trees)) := by
  cases carried with
  | none => exact hoffers.resolve_left (by simp)
  | some text =>
      obtain ⟨token, rest, heq, hchanged⟩ := leavesOf_mapFirstOf? (f := takeUp text) htrees
      refine ⟨takeUp text token, by rw [Migration.deliver, hchanged]; rfl, ?_⟩
      obtain ⟨_, hcarried, hbears⟩ | ⟨token', hhead, hbears⟩ := hoffers
      · obtain rfl := Option.some.inj hcarried
        exact hbears.mergeLeading hx _
      · rw [heq] at hhead
        obtain rfl := Option.some.inj hhead
        exact hbears.mergeLeading_following _

theorem Offers.carry {more : List Token} (hx : x.Unbroken) (ht : t.leaves ≠ [])
    (hoffers : Offers carried (t.leaves ++ more) x) : Bears (carry carried t) x := by
  refine Bears.append ?_ _
  obtain ⟨token, rest, hleaves⟩ := List.exists_cons_of_ne_nil ht
  rw [hleaves] at hoffers
  rw [first?_eq, hleaves]
  obtain ⟨_, rfl, hbears⟩ | ⟨token', hhead, hbears⟩ := hoffers
  · exact hbears.mergeLeading hx _
  · obtain rfl := Option.some.inj hhead
    cases carried with
    | none => exact hbears
    | some earlier => exact hbears.mergeLeading_following earlier

/-- What is carried, or stands in front of the first token, stands in front of the first token that is left. -/
theorem Offers.dropFrom (doomed : Tree → Bool) (hx : x.Unbroken) (hfound : ∀ t ∈ found, t.leaves ≠ [])
    (hrest : leavesOf rest ≠ []) (hoffers : Offers carried (leavesOf (found ++ rest)) x) :
    Led x (leavesOf ((dropFrom doomed carried found).1 ++ Migration.deliver (dropFrom doomed carried found).2 rest)) := by
  induction found generalizing carried with
  | nil => exact hoffers.deliver hx hrest
  | cons t found ih =>
      have ht : t.leaves ≠ [] := hfound t (by simp)
      rw [List.cons_append, leavesOf] at hoffers
      rw [Migration.dropFrom]
      split
      next => exact ih (fun s hs => hfound s (by simp [hs])) (.inl ⟨_, rfl, hoffers.carry hx ht⟩)
      next =>
        have hfirst : Offers carried (leavesOf [t]) x := by
          obtain ⟨token, more, heq⟩ := List.exists_cons_of_ne_nil ht
          rw [leavesOf_singleton, heq]
          rwa [heq] at hoffers
        obtain ⟨token, hhead, hbears⟩ := hfirst.deliver hx (by rwa [leavesOf_singleton])
        refine ⟨token, ?_, hbears⟩
        rw [List.append_assoc, leavesOf_append, List.head?_append, hhead]
        rfl

theorem dropFrom_append (carried : Option Text) (front back : List Tree) : dropFrom doomed carried (front ++ back) =
    ((dropFrom doomed carried front).1 ++ (dropFrom doomed (dropFrom doomed carried front).2 back).1,
      (dropFrom doomed (dropFrom doomed carried front).2 back).2) := by
  induction front generalizing carried with
  | nil => rfl
  | cons t front ih =>
      rw [List.cons_append, dropFrom, dropFrom]
      split
      · exact ih _
      · simp only [ih, List.append_assoc]

end Migration

end SwiftObservation
