import SwiftObservation.Patch.Script
import SwiftObservation.Proofs.Patch.Longest

/-!
# Scripts along shared blocks

The blocks of two texts are found from the longest one outwards. Each search stays inside the window that the blocks
found before leave free, so all blocks together stand in the same order in both texts, and each consists of lines that
both texts share. A script along such blocks turns the one text into the other.

A text has one block in common with itself, the whole of it: of the longest blocks the search takes the first, which
stands at the same lines on both sides, and from there it runs on to the ends.

Main statements: `newLines_script`, `oldLines_script` and `script_self`.
-/

namespace SwiftObservation.Patch

/-- Shared blocks that stand in the same order in both texts, from the lines `i` and `j` on up to the lines `i'` and
`j'`. -/
def Aligned (c : Comparison) (i' j' : Nat) : (i j : Nat) → List Block → Prop
  | i, j, [] => i ≤ i' ∧ j ≤ j'
  | i, j, b :: rest => i ≤ b.old ∧ j ≤ b.new ∧ b.Shared c ∧ Aligned c i' j' (b.old + b.size) (b.new + b.size) rest

variable {c : Comparison}

theorem Aligned.append {i j m n i' j' : Nat} {front back : List Block} (hfront : Aligned c m n i j front)
    (hback : Aligned c i' j' m n back) : Aligned c i' j' i j (front ++ back) := by
  induction front generalizing i j with
  | nil =>
      obtain ⟨hi, hj⟩ := hfront
      cases back with
      | nil => exact ⟨Nat.le_trans hi hback.1, Nat.le_trans hj hback.2⟩
      | cons b rest => exact ⟨Nat.le_trans hi hback.1, Nat.le_trans hj hback.2.1, hback.2.2⟩
  | cons b rest ih =>
      obtain ⟨hi, hj, hshared, hrest⟩ := hfront
      exact ⟨hi, hj, hshared, ih hrest⟩

/-- The blocks found in a window stand in it in order. -/
theorem Comparison.blocksIn_aligned (hc : c.Indexes) (fuel : Nat) (w : Window) (hold : w.oldLow ≤ w.oldHigh)
    (hnew : w.newLow ≤ w.newHigh) : Aligned c w.oldHigh w.newHigh w.oldLow w.newLow (c.blocksIn fuel w) := by
  induction fuel generalizing w with
  | zero => exact ⟨hold, hnew⟩
  | succ fuel ih =>
      have hfits := longest_fits hc hold hnew
      rw [blocksIn]
      dsimp only
      generalize c.longest w = b at hfits ⊢
      have hinside := hfits.inside
      split
      next => exact ⟨hold, hnew⟩
      next =>
        refine Aligned.append (m := b.old) (n := b.new) ?_ ⟨Nat.le_refl _, Nat.le_refl _, hfits.shared, ?_⟩
        · split
          · exact ih { w with oldHigh := b.old, newHigh := b.new } hinside.oldLow hinside.newLow
          · exact ⟨hinside.oldLow, hinside.newLow⟩
        · split
          · exact ih { w with oldLow := b.old + b.size, newLow := b.new + b.size } hinside.oldHigh hinside.newHigh
          · exact ⟨hinside.oldHigh, hinside.newHigh⟩

/-- Two blocks that touch in both texts make up one. -/
theorem Block.Shared.join {b next : Block} (hb : b.Shared c) (hnext : next.Shared c) (hold : b.old + b.size = next.old)
    (hnew : b.new + b.size = next.new) : Block.Shared { b with size := b.size + next.size } c := by
  intro k hk
  dsimp only at hk ⊢
  rcases Nat.lt_or_ge k b.size with hlt | hge
  · exact hb k hlt
  · have hshared := hnext (k - b.size) (by omega)
    rw [← hold, ← hnew] at hshared
    rwa [show b.old + b.size + (k - b.size) = b.old + k by omega,
      show b.new + b.size + (k - b.size) = b.new + k by omega] at hshared

theorem joinBlocks_aligned {i j i' j' : Nat} {found : List Block} (hfound : Aligned c i' j' i j found) :
    Aligned c i' j' i j (joinBlocks found) := by
  induction found generalizing i j with
  | nil => exact hfound
  | cons b rest ih =>
      obtain ⟨hi, hj, hshared, hrest⟩ := hfound
      have hjoined := ih hrest
      rw [joinBlocks]
      cases hmore : joinBlocks rest with
      | nil =>
          rw [hmore] at hjoined
          exact ⟨hi, hj, hshared, hjoined⟩
      | cons next more =>
          rw [hmore] at hjoined
          dsimp only
          split
          next htouch =>
            simp only [Bool.and_eq_true, beq_iff_eq] at htouch
            obtain ⟨hold, hnew⟩ := htouch
            obtain ⟨-, -, hnext, hbehind⟩ := hjoined
            refine ⟨hi, hj, hshared.join hnext hold hnew, ?_⟩
            rwa [← hold, ← hnew, Nat.add_assoc, Nat.add_assoc] at hbehind
          next => exact ⟨hi, hj, hshared, hjoined⟩

theorem blocks_aligned (old new : List Text) :
    Aligned (.ofLines old new) old.length new.length 0 0 (blocks old new) :=
  joinBlocks_aligned (Comparison.blocksIn_aligned (Comparison.indexes_ofLines old new) (old.length + 1)
    ⟨0, old.length, 0, new.length⟩ (Nat.zero_le _) (Nat.zero_le _))

/-! ### The new text of a script -/

theorem Comparison.getElem?_of_agree {old new : List Text} {i j : Nat}
    (hagree : (Comparison.ofLines old new).agree i j = true) : old[i]? = new[j]? := by
  simp only [agree, ofLines, List.getElem?_toArray] at hagree
  split at hagree
  next x y hx hy => rw [hx, hy, beq_iff_eq.mp hagree]
  next => contradiction

theorem Block.Shared.take_eq {old new : List Text} {b : Block} (hb : b.Shared (.ofLines old new)) :
    (old.drop b.old).take b.size = (new.drop b.new).take b.size := by
  refine List.ext_getElem? fun k => ?_
  rw [List.getElem?_take, List.getElem?_take, List.getElem?_drop, List.getElem?_drop]
  split
  next hk => exact Comparison.getElem?_of_agree (hb k hk)
  next => rfl

theorem newLines_scriptFrom {old new : List Text} {i j : Nat} {found : List Block}
    (hfound : Aligned (.ofLines old new) old.length new.length i j found) :
    newLines (scriptFrom i j (old.drop i) (new.drop j) found) = new.drop j := by
  induction found generalizing i j with
  | nil => simp [scriptFrom]
  | cons b rest ih =>
      obtain ⟨hi, hj, hshared, hrest⟩ := hfound
      have hold : (old.drop i).drop (b.old - i) = old.drop b.old := by
        rw [List.drop_drop, Nat.add_sub_cancel' hi]
      have hnew : (new.drop j).drop (b.new - j) = new.drop b.new := by
        rw [List.drop_drop, Nat.add_sub_cancel' hj]
      calc newLines (scriptFrom i j (old.drop i) (new.drop j) (b :: rest))
          = (new.drop j).take (b.new - j) ++ ((old.drop b.old).take b.size ++ new.drop (b.new + b.size)) := by
            rw [scriptFrom]
            simp only [newLines_append, newLines_changeOf, newLines_keepOf, List.append_assoc, hold, hnew,
              List.drop_drop, ih hrest]
        _ = (new.drop j).take (b.new - j) ++ ((new.drop b.new).take b.size ++ (new.drop b.new).drop b.size) := by
            rw [hshared.take_eq, List.drop_drop]
        _ = new.drop j := by rw [List.take_append_drop, ← hnew, List.take_append_drop]

theorem oldLines_script (old new : List Text) : oldLines (script old new) = old := oldLines_scriptFrom _ _ _ _ _

theorem newLines_script (old new : List Text) : newLines (script old new) = new :=
  newLines_scriptFrom (i := 0) (j := 0) (blocks_aligned old new)

/-! ### A text and itself -/

/-- An indexed block between a text and itself may be moved so that it stands at the same lines on both sides. -/
theorem Block.Indexed.diagonal {lines : List Text} {b : Block} (hb : b.Indexed (.ofLines lines lines)) :
    Block.Indexed ⟨b.old, b.old, b.size⟩ (.ofLines lines lines) ∧
      Block.Indexed ⟨b.new, b.new, b.size⟩ (.ofLines lines lines) :=
  ⟨fun k hk => (Comparison.mem_places_self (hb k hk)).1, fun k hk => (Comparison.mem_places_self (hb k hk)).2⟩

namespace Comparison

theorem agree_self {lines : List Text} {i : Nat} (hi : i < lines.length) : (ofLines lines lines).agree i i = true := by
  simp [agree, ofLines, List.getElem?_eq_getElem hi]

/-- Of the longest blocks that a text shares with itself, the first one stands at the same lines on both sides. -/
theorem First.old_eq_new {lines : List Text} {i j n : Nat} {best : Block}
    (hfirst : First (ofLines lines lines) ⟨0, n, 0, n⟩ i j best)
    (hseen : ∀ b : Block, b.Inside ⟨0, n, 0, n⟩ → Seen i j (b.old + b.size) (b.new + b.size)) : best.old = best.new := by
  rcases hfirst.seen with rfl | ⟨hpos, -⟩
  · rfl
  · obtain ⟨hrow, hcolumn⟩ := hfirst.indexed.diagonal
    have hrowInside : Block.Inside ⟨best.old, best.old, best.size⟩ ⟨0, n, 0, n⟩ :=
      ⟨Nat.zero_le _, Nat.zero_le _, hfirst.inside.oldHigh, hfirst.inside.oldHigh⟩
    have hcolumnInside : Block.Inside ⟨best.new, best.new, best.size⟩ ⟨0, n, 0, n⟩ :=
      ⟨Nat.zero_le _, Nat.zero_le _, hfirst.inside.newHigh, hfirst.inside.newHigh⟩
    have hbefore := hfirst.first _ hrowInside hrow (hseen _ hrowInside) rfl hpos
    have hbefore' := hfirst.first _ hcolumnInside hcolumn (hseen _ hcolumnInside) rfl hpos
    unfold Block.Precedes at hbefore hbefore'
    dsimp only at hbefore hbefore'
    omega

theorem extendLeft_self {lines : List Text} {w : Window} (hold : w.oldLow = 0) (hnew : w.newLow = 0) {i size : Nat}
    (hi : i ≤ lines.length) : (ofLines lines lines).extendLeft w i i size = ⟨0, 0, size + i⟩ := by
  induction i generalizing size with
  | zero => rfl
  | succ i ih =>
      rw [extendLeft, if_pos (by simp [hold, hnew, agree_self (Nat.lt_of_succ_le hi)]), ih (Nat.le_of_succ_le hi),
        Nat.add_right_comm, Nat.add_assoc]

theorem extendRight_self {lines : List Text} {w : Window} (hold : w.oldHigh = lines.length)
    (hnew : w.newHigh = lines.length) {count size : Nat} (hsize : size ≤ lines.length)
    (hcount : lines.length ≤ size + count) :
    (ofLines lines lines).extendRight w ⟨0, 0, size⟩ count = ⟨0, 0, lines.length⟩ := by
  induction count generalizing size with
  | zero =>
      rw [extendRight, Nat.le_antisymm hsize hcount]
  | succ count ih =>
      rw [extendRight]
      dsimp only
      rw [Nat.zero_add]
      rcases Nat.lt_or_ge size lines.length with hlt | hge
      · rw [if_pos (by simp [hold, hnew, hlt, agree_self hlt]), ih (by omega) (by omega)]
      · rw [if_neg (by simp [hold]; omega), Nat.le_antisymm hsize hge]

theorem longest_self (lines : List Text) : (ofLines lines lines).longest ⟨0, lines.length, 0, lines.length⟩ =
    ⟨0, 0, lines.length⟩ := by
  have hfirst := searchFrom_first (w := ⟨0, lines.length, 0, lines.length⟩) (indexes_ofLines lines lines)
    (Nat.zero_le _) (Nat.zero_le _)
  rw [longest]
  dsimp only at hfirst ⊢
  generalize (ofLines lines lines).searchFrom _ _ _ _ _ = best at hfirst ⊢
  have hhigh := hfirst.inside.oldHigh
  dsimp only at hhigh
  have hdiagonal : best.old = best.new := by
    refine hfirst.old_eq_new fun b hb => Or.inl ?_
    exact Nat.lt_succ_of_le hb.oldHigh
  rw [← hdiagonal, extendLeft_self rfl rfl (by omega), extendRight_self rfl rfl (by omega) (by omega)]

end Comparison

theorem blocks_self (lines : List Text) :
    blocks lines lines = if lines.isEmpty then [] else [⟨0, 0, lines.length⟩] := by
  rw [blocks, Comparison.blocksIn]
  dsimp only
  rw [Comparison.longest_self]
  cases lines with
  | nil => rfl
  | cons line rest => simp [joinBlocks]

/-- The script from a text to itself changes nothing. -/
theorem script_self (lines : List Text) : script lines lines = keepOf lines := by
  rw [script, blocks_self]
  cases lines with
  | nil => rfl
  | cons line rest => simp [scriptFrom, changeOf, keepOf]

end SwiftObservation.Patch
