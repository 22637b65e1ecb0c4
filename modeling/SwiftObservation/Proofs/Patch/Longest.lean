import Mathlib.Data.List.Pairwise
import SwiftObservation.Patch.Matching

/-!
# The longest block that two texts share

The search for the longest block runs over the lines of the old text and keeps, for every place where the line stands in
the new text, the length of the block that ends there. `reach` is that length said by itself: one more than the reach a
line earlier in both texts, wherever the index leads from the line to the place.

Main statements: `Comparison.searchFrom_first` says that the search finds a block that is longest among those the index
leads through, and of the longest ones the first, by its line in the old text and then by its line in the new one.
`Comparison.longest_fits` says that the block stays a shared one when it is prolonged over lines that are not indexed.
-/

namespace SwiftObservation.Patch

/-! ### Where a line occurs -/

/-- The numbers of the lines that are spelled like the given one, in order. -/
def positions (lines : Array Text) (line : Text) : List Nat :=
  (List.range lines.size).filter fun i => lines.getD i [] == line

/-- The positions of a line that the index holds: all of them, or none if the line is frequent in a long text. -/
def indexed (lines : Array Text) (line : Text) : List Nat :=
  if lines.size < frequentFrom ∨ (positions lines line).length ≤ frequency lines.size then positions lines line else []

theorem getD_foldr_alter (lines : Array Text) (line : Text) (numbers : List Nat) :
    (numbers.foldr (fun i (found : Std.HashMap String (List Nat)) =>
      found.alter (String.ofList (lines.getD i [])) fun places => some (i :: places.getD [])) {}).getD
        (String.ofList line) [] = numbers.filter fun i => lines.getD i [] == line := by
  induction numbers with
  | nil => simp
  | cons i rest ih =>
      rw [List.foldr_cons, Std.HashMap.getD_alter, List.filter_cons]
      by_cases hline : lines.getD i [] = line
      · rw [if_pos (by rw [hline, beq_self_eq_true]), if_pos (by rw [hline, beq_self_eq_true]), Option.getD_some,
          hline, ← Std.HashMap.getD_eq_getD_getElem?, ih]
      · have hkey : String.ofList (lines.getD i []) ≠ String.ofList line := fun heq => hline (String.ofList_inj.mp heq)
        rw [if_neg (by simpa using hkey), if_neg (by simpa using hline), ih]

theorem getD_occurrences (lines : Array Text) (line : Text) :
    (occurrences lines).getD (String.ofList line) [] = indexed lines line := by
  have hall := getD_foldr_alter lines line (List.range lines.size)
  unfold occurrences indexed
  by_cases hshort : lines.size < frequentFrom
  · rw [if_pos hshort, if_pos (Or.inl hshort)]
    exact hall
  · rw [if_neg hshort, Std.HashMap.getD_filter']
    rw [Std.HashMap.getD_eq_getD_getElem?] at hall
    change _ = positions lines line at hall
    generalize (List.foldr _ _ _ : Std.HashMap String (List Nat))[String.ofList line]? = found at hall ⊢
    rw [← hall]
    cases found with
    | none => simp
    | some places =>
        by_cases hrare : places.length ≤ frequency lines.size
        · simp [Option.filter, hrare]
        · simp [Option.filter, hrare, hshort]

theorem indexed_sublist (lines : Array Text) (line : Text) : (indexed lines line).Sublist (positions lines line) := by
  unfold indexed
  split
  · exact List.Sublist.refl _
  · exact List.nil_sublist _

theorem pairwise_indexed (lines : Array Text) (line : Text) : (indexed lines line).Pairwise (· < ·) :=
  (List.pairwise_lt_range.sublist List.filter_sublist).sublist (indexed_sublist lines line)

theorem getElem?_of_mem_indexed {lines : Array Text} {line : Text} {j : Nat} (hj : j ∈ indexed lines line) :
    lines[j]? = some line := by
  have hfound := (indexed_sublist lines line).mem hj
  simp only [positions, List.mem_filter, List.mem_range, beq_iff_eq] at hfound
  obtain ⟨hlt, hline⟩ := hfound
  rw [Array.getElem?_eq_getElem hlt, ← hline, Array.getD_eq_getD_getElem?, Array.getElem?_eq_getElem hlt,
    Option.getD_some]

/-- A line that the index holds somewhere is held wherever it occurs. -/
theorem mem_indexed_of_mem {lines : Array Text} {line : Text} {i j : Nat} (hj : j ∈ indexed lines line)
    (hi : lines[i]? = some line) : i ∈ indexed lines line := by
  unfold indexed at hj ⊢
  split at hj
  next hheld =>
    rw [if_pos hheld]
    obtain ⟨hlt, -⟩ := Array.getElem?_eq_some_iff.mp hi
    simp only [positions, List.mem_filter, List.mem_range, beq_iff_eq]
    exact ⟨hlt, by rw [Array.getD_eq_getD_getElem?, hi, Option.getD_some]⟩
  next => simp at hj

namespace Comparison

theorem getD_places_ofLines (old new : List Text) (i : Nat) :
    (ofLines old new).places.getD i [] = (old[i]?.map (indexed new.toArray)).getD [] := by
  simp only [ofLines, Array.getD_eq_getD_getElem?, Array.getElem?_map, List.getElem?_toArray]
  congr 2
  funext line
  exact getD_occurrences new.toArray line

/-- The index of a comparison leads from a line to places where the same line stands, in increasing order. -/
structure Indexes (c : Comparison) : Prop where
  agree : ∀ i, ∀ j ∈ c.places.getD i [], c.agree i j = true
  increasing : ∀ i, (c.places.getD i []).Pairwise (· < ·)

theorem indexes_ofLines (old new : List Text) : (ofLines old new).Indexes where
  agree := by
    intro i j hj
    rw [getD_places_ofLines] at hj
    cases hline : old[i]? with
    | none => simp [hline] at hj
    | some line =>
        rw [hline, Option.map_some, Option.getD_some] at hj
        have hplace := getElem?_of_mem_indexed hj
        simp only [List.getElem?_toArray] at hplace
        simp [agree, ofLines, hline, hplace]
  increasing := by
    intro i
    rw [getD_places_ofLines]
    cases old[i]? with
    | none => exact List.Pairwise.nil
    | some line => exact pairwise_indexed _ _

/-- Between a text and itself, a line that leads anywhere leads to itself, and so does every place it leads to. -/
theorem mem_places_self {lines : List Text} {i j : Nat} (hj : j ∈ (ofLines lines lines).places.getD i []) :
    i ∈ (ofLines lines lines).places.getD i [] ∧ j ∈ (ofLines lines lines).places.getD j [] := by
  rw [getD_places_ofLines] at hj
  cases hline : lines[i]? with
  | none => simp [hline] at hj
  | some line =>
      rw [hline, Option.map_some, Option.getD_some] at hj
      have hplace : lines[j]? = some line := by
        have hfound := getElem?_of_mem_indexed hj
        rwa [List.getElem?_toArray] at hfound
      have hself := mem_indexed_of_mem hj (by rw [List.getElem?_toArray, hline])
      rw [getD_places_ofLines, getD_places_ofLines, hline, hplace]
      exact ⟨hself, hj⟩

end Comparison

/-! ### Blocks of a window -/

/-- The block lies inside the window. -/
structure Block.Inside (b : Block) (w : Window) : Prop where
  oldLow : w.oldLow ≤ b.old
  newLow : w.newLow ≤ b.new
  oldHigh : b.old + b.size ≤ w.oldHigh
  newHigh : b.new + b.size ≤ w.newHigh

/-- The index leads from every line of the block in the old text to its line in the new one. -/
def Block.Indexed (b : Block) (c : Comparison) : Prop := ∀ k < b.size, b.new + k ∈ c.places.getD (b.old + k) []

/-- The lines of the block are the same in both texts. -/
def Block.Shared (b : Block) (c : Comparison) : Prop := ∀ k < b.size, c.agree (b.old + k) (b.new + k) = true

/-- The block begins earlier than the other in the old text, or at the same line there and no later in the new one. -/
def Block.Precedes (b other : Block) : Prop := b.old < other.old ∨ (b.old = other.old ∧ b.new ≤ other.new)

theorem Block.Indexed.shared {b : Block} {c : Comparison} (hc : c.Indexes) (hb : b.Indexed c) : b.Shared c :=
  fun k hk => hc.agree _ _ (hb k hk)

namespace Comparison

variable {c : Comparison} {w : Window}

/-- The size of the longest block of the window that the index leads through and that ends in front of line `i` of the old
and line `j` of the new text. -/
def reach (c : Comparison) (w : Window) : (i j : Nat) → Nat
  | i + 1, j + 1 =>
    if w.oldLow ≤ i ∧ w.newLow ≤ j ∧ j < w.newHigh ∧ j ∈ c.places.getD i [] then reach c w i j + 1 else 0
  | _, _ => 0

theorem reach_succ (c : Comparison) (w : Window) (i j : Nat) : reach c w (i + 1) (j + 1) =
    if w.oldLow ≤ i ∧ w.newLow ≤ j ∧ j < w.newHigh ∧ j ∈ c.places.getD i [] then reach c w i j + 1 else 0 := rfl

theorem reach_zero_right (c : Comparison) (w : Window) (i : Nat) : reach c w i 0 = 0 := by
  cases i <;> rfl

/-- No block of the window ends before the window begins. -/
theorem reach_oldLow (c : Comparison) (w : Window) (j : Nat) : reach c w w.oldLow j = 0 := by
  cases hlow : w.oldLow with
  | zero => rfl
  | succ low =>
      cases j with
      | zero => rfl
      | succ j =>
          rw [reach_succ, if_neg]
          intro hreached
          have hwithin := hreached.1
          omega

/-- The reach is the size of a block. -/
theorem exists_block_of_reach {i j : Nat} (hi : i ≤ w.oldHigh) (hreach : 0 < reach c w i j) :
    ∃ b : Block, b.Inside w ∧ b.Indexed c ∧ b.size = reach c w i j ∧ b.old + b.size = i ∧ b.new + b.size = j := by
  fun_induction reach c w i j with
  | case1 i j hreached ih =>
      obtain ⟨hold, hnew, hhigh, hplace⟩ := hreached
      by_cases hshort : reach c w i j = 0
      · refine ⟨⟨i, j, 1⟩, ⟨hold, hnew, hi, hhigh⟩, ?_, by rw [hshort], rfl, rfl⟩
        intro k hk
        obtain rfl : k = 0 := Nat.lt_one_iff.mp hk
        exact hplace
      · obtain ⟨b, hinside, hindexed, hsize, hbold, hbnew⟩ := ih (by omega) (by omega)
        refine ⟨{ b with size := b.size + 1 }, ⟨hinside.oldLow, hinside.newLow, ?_, ?_⟩, ?_, ?_, ?_, ?_⟩
        · show b.old + (b.size + 1) ≤ w.oldHigh
          omega
        · show b.new + (b.size + 1) ≤ w.newHigh
          omega
        · intro k hk
          by_cases hlast : k = b.size
          · subst hlast
            show b.new + b.size ∈ c.places.getD (b.old + b.size) []
            rw [hbold, hbnew]
            exact hplace
          · exact hindexed k (by change k < b.size + 1 at hk; omega)
        · show b.size + 1 = reach c w i j + 1
          omega
        · show b.old + (b.size + 1) = i + 1
          omega
        · show b.new + (b.size + 1) = j + 1
          omega
  | case2 => omega
  | case3 => omega

/-- No block that ends at the same lines is larger than the reach. -/
theorem size_le_reach {b : Block} (hinside : b.Inside w) (hindexed : b.Indexed c) :
    b.size ≤ reach c w (b.old + b.size) (b.new + b.size) := by
  obtain ⟨i, j, size⟩ := b
  dsimp only
  induction size with
  | zero => exact Nat.zero_le _
  | succ size ih =>
      have hlow := hinside.oldLow
      have hlow' := hinside.newLow
      have hhigh := hinside.oldHigh
      have hhigh' := hinside.newHigh
      dsimp only at hlow hlow' hhigh hhigh'
      have hplace : j + size ∈ c.places.getD (i + size) [] := hindexed size (Nat.lt_succ_self size)
      have hshorter := ih ⟨hlow, hlow', by show i + size ≤ w.oldHigh; omega, by show j + size ≤ w.newHigh; omega⟩
        fun k hk => hindexed k (Nat.lt_succ_of_lt hk)
      rw [← Nat.add_assoc, ← Nat.add_assoc, reach_succ, if_pos ⟨by omega, by omega, by omega, hplace⟩]
      omega

/-! ### What the search knows -/

/-- The lines `i` and `j` come before the lines `i'` and `j'` in the order of the search. -/
def Seen (i' j' i j : Nat) : Prop := i < i' ∨ (i = i' ∧ j < j')

/-- The block is the first of the longest indexed ones of the window that end in front of lines already seen. -/
structure First (c : Comparison) (w : Window) (i j : Nat) (best : Block) : Prop where
  inside : best.Inside w
  indexed : best.Indexed c
  seen : best = ⟨w.oldLow, w.newLow, 0⟩ ∨ (0 < best.size ∧ Seen i j (best.old + best.size) (best.new + best.size))
  longest : ∀ b : Block, b.Inside w → b.Indexed c → Seen i j (b.old + b.size) (b.new + b.size) → b.size ≤ best.size
  first : ∀ b : Block, b.Inside w → b.Indexed c → Seen i j (b.old + b.size) (b.new + b.size) → b.size = best.size →
    0 < best.size → best.Precedes b

/-- Lines in front of which no indexed block ends change nothing. -/
theorem First.skip {i j i' j' : Nat} {best : Block} (hfirst : First c w i j best)
    (hmore : ∀ a b, Seen i j a b → Seen i' j' a b)
    (hnone : ∀ a b, Seen i' j' a b → Seen i j a b ∨ reach c w a b = 0) : First c w i' j' best where
  inside := hfirst.inside
  indexed := hfirst.indexed
  seen := hfirst.seen.imp_right (And.imp_right (hmore _ _))
  longest := by
    intro b hinside hindexed hseen
    rcases hnone _ _ hseen with hbefore | hzero
    · exact hfirst.longest b hinside hindexed hbefore
    · have hsize := size_le_reach hinside hindexed
      omega
  first := by
    intro b hinside hindexed hseen hsize hpos
    rcases hnone _ _ hseen with hbefore | hzero
    · exact hfirst.first b hinside hindexed hbefore hsize hpos
    · have hbound := size_le_reach hinside hindexed
      omega

/-- The longest block that ends behind two lines is compared with the best one so far. -/
theorem First.step {i j : Nat} {best : Block} (hfirst : First c w (i + 1) (j + 1) best) (hi : i < w.oldHigh)
    (hreach : 0 < reach c w (i + 1) (j + 1)) :
    First c w (i + 1) (j + 2) (if best.size < reach c w (i + 1) (j + 1) then
      ⟨i + 1 - reach c w (i + 1) (j + 1), j + 1 - reach c w (i + 1) (j + 1), reach c w (i + 1) (j + 1)⟩ else best) := by
  have hsplit : ∀ a b, Seen (i + 1) (j + 2) a b → Seen (i + 1) (j + 1) a b ∨ (a = i + 1 ∧ b = j + 1) := by
    unfold Seen
    omega
  have hmore : ∀ a b, Seen (i + 1) (j + 1) a b → Seen (i + 1) (j + 2) a b := by
    unfold Seen
    omega
  obtain ⟨found, hinside, hindexed, hsize, hold, hnew⟩ := exists_block_of_reach (i := i + 1) hi hreach
  -- Blocks that end at the same two lines and have the same size are the same block.
  have hlargest : ∀ b : Block, b.Inside w → b.Indexed c → b.old + b.size = i + 1 → b.new + b.size = j + 1 →
      b.size ≤ found.size := by
    intro b hb hb' hbold hbnew
    have hbound := size_le_reach hb hb'
    rw [hbold, hbnew] at hbound
    omega
  split
  next hlarger =>
    have hfound : (⟨i + 1 - reach c w (i + 1) (j + 1), j + 1 - reach c w (i + 1) (j + 1),
        reach c w (i + 1) (j + 1)⟩ : Block) = found := by
      rw [← hsize, ← hold, ← hnew, Nat.add_sub_cancel, Nat.add_sub_cancel]
    rw [hfound]
    refine ⟨hinside, hindexed, Or.inr ⟨by omega, ?_⟩, ?_, ?_⟩
    · unfold Seen
      omega
    · intro b hb hb' hseen
      rcases hsplit _ _ hseen with hbefore | ⟨hbold, hbnew⟩
      · have hbound := hfirst.longest b hb hb' hbefore
        omega
      · exact hlargest b hb hb' hbold hbnew
    · intro b hb hb' hseen hequal _
      rcases hsplit _ _ hseen with hbefore | ⟨hbold, hbnew⟩
      · have hbound := hfirst.longest b hb hb' hbefore
        omega
      · exact Or.inr ⟨by omega, by omega⟩
  next hsmaller =>
    refine ⟨hfirst.inside, hfirst.indexed, hfirst.seen.imp_right (And.imp_right (hmore _ _)), ?_, ?_⟩
    · intro b hb hb' hseen
      rcases hsplit _ _ hseen with hbefore | ⟨hbold, hbnew⟩
      · exact hfirst.longest b hb hb' hbefore
      · have hbound := hlargest b hb hb' hbold hbnew
        omega
    · intro b hb hb' hseen hequal hpos
      rcases hsplit _ _ hseen with hbefore | ⟨hbold, hbnew⟩
      · exact hfirst.first b hb hb' hbefore hequal hpos
      · have hbest := (hfirst.seen.resolve_left fun hempty => by simp [hempty] at hpos).2
        unfold Seen at hbest
        unfold Block.Precedes
        omega

/-- The entries tell the reach in front of line `i` of the old text, for all places of a class where there is any. -/
structure Tracks (c : Comparison) (w : Window) (i : Nat) (covered : Nat → Prop) (entries : List (Nat × Nat)) : Prop where
  increasing : entries.Pairwise (·.1 < ·.1)
  size : ∀ e ∈ entries, e.2 = reach c w i (e.1 + 1)
  complete : ∀ j, covered j → 0 < reach c w i (j + 1) → (j, reach c w i (j + 1)) ∈ entries

theorem mem_dropWhile_of_not {α : Type} {p : α → Bool} {l : List α} {a : α} (ha : a ∈ l) (hp : p a = false) :
    a ∈ l.dropWhile p := by
  rw [← List.takeWhile_append_dropWhile (p := p) (l := l), List.mem_append] at ha
  refine ha.resolve_left fun hfront => ?_
  have htrue := List.all_takeWhile (p := p) (l := l)
  rw [List.all_eq_true] at htrue
  rw [htrue a hfront] at hp
  contradiction

/-- Entries for places too far to the left are not needed any more. -/
theorem Tracks.dropWhile {i j j' : Nat} {entries : List (Nat × Nat)}
    (htracks : Tracks c w i (j ≤ · + 1) entries) (hj : j ≤ j') :
    Tracks c w i (j' ≤ · + 1) (entries.dropWhile (·.1 + 1 < j')) where
  increasing := htracks.increasing.sublist (List.dropWhile_sublist _)
  size := fun e he => htracks.size e ((List.dropWhile_sublist _).mem he)
  complete := by
    intro k hk hreach
    exact mem_dropWhile_of_not (htracks.complete k (by omega) hreach) (by simpa using hk)

/-- The size of the block that ends with line `j` of the new text, read off the first of the entries for the line
before. -/
def grown (j : Nat) : List (Nat × Nat) → Nat
  | (end_, size) :: _ => if end_ + 1 == j then size + 1 else 1
  | [] => 1

theorem prolong_cons {i j : Nat} {places : List Nat} {earlier row : List (Nat × Nat)} {best : Block}
    (hlow : ¬ j < w.newLow) (hhigh : ¬ w.newHigh ≤ j) {size : Nat}
    (hsize : grown j (earlier.dropWhile (·.1 + 1 < j)) = size) :
    prolong i w (j :: places) earlier row best =
      prolong i w places (earlier.dropWhile (·.1 + 1 < j)) ((j, size) :: row)
        (if best.size < size then ⟨i + 1 - size, j + 1 - size, size⟩ else best) := by
  subst hsize
  rw [prolong, if_neg hlow, if_neg hhigh]
  rfl

/-- Once the entries too far to the left are gone, the first one tells how far a block reaches. -/
theorem Tracks.grown_eq {i j : Nat} {entries : List (Nat × Nat)} (htracks : Tracks c w i (j ≤ · + 1) entries)
    (hnear : ∀ e ∈ entries.head?, j ≤ e.1 + 1) : grown j entries = reach c w i j + 1 := by
  -- A reach in front of `j` has an entry, and this entry can only be the head.
  have hhead : 0 < reach c w i j → ∃ rest, entries = (j - 1, reach c w i j) :: rest := by
    intro hreach
    obtain ⟨k, rfl⟩ : ∃ k, j = k + 1 := by
      refine Nat.exists_eq_succ_of_ne_zero fun hzero => ?_
      rw [hzero, reach_zero_right] at hreach
      omega
    have hmem := htracks.complete k (Nat.le_refl _) hreach
    cases entries with
    | nil => simp at hmem
    | cons head rest =>
        rcases List.mem_cons.mp hmem with hhead | hrest
        · exact ⟨rest, by rw [← hhead]; rfl⟩
        · have hbelow := (List.pairwise_cons.mp htracks.increasing).1 _ hrest
          have hbound := hnear head rfl
          dsimp only at hbelow
          omega
  rcases Nat.eq_zero_or_pos (reach c w i j) with hzero | hpos
  · rw [hzero]
    cases entries with
    | nil => rfl
    | cons head rest =>
        by_cases hend : head.1 + 1 = j
        · have hsize := htracks.size head List.mem_cons_self
          rw [hend, hzero] at hsize
          simp [grown, hsize]
        · simp [grown, hend]
  · obtain ⟨rest, rfl⟩ := hhead hpos
    have hj : j - 1 + 1 = j := by
      refine Nat.sub_add_cancel (Nat.pos_of_ne_zero fun hzero => ?_)
      rw [hzero, reach_zero_right] at hpos
      omega
    simp [grown, hj]

theorem reach_of_not_mem {i j : Nat} (hout : j ∉ c.places.getD i []) : reach c w (i + 1) (j + 1) = 0 := by
  rw [reach_succ, if_neg]
  rintro ⟨-, -, -, hplace⟩
  exact hout hplace

theorem reach_of_outside {i j : Nat} (hout : j < w.newLow ∨ w.newHigh ≤ j) : reach c w (i + 1) (j + 1) = 0 := by
  rw [reach_succ, if_neg]
  omega

/-- Places without reach can be passed. -/
theorem Tracks.widen {i j j' : Nat} {entries : List (Nat × Nat)} (htracks : Tracks c w i (· < j) entries)
    (hnone : ∀ k, j ≤ k → k < j' → reach c w i (k + 1) = 0) : Tracks c w i (· < j') entries where
  increasing := htracks.increasing
  size := htracks.size
  complete := by
    intro k hk hreach
    refine htracks.complete k (Nat.lt_of_not_le fun hj => ?_) hreach
    rw [hnone k hj hk] at hreach
    omega

theorem First.widen {i j j' : Nat} {best : Block} (hfirst : First c w i (j + 1) best) (hj : j ≤ j')
    (hnone : ∀ k, j ≤ k → k < j' → reach c w i (k + 1) = 0) : First c w i (j' + 1) best := by
  refine hfirst.skip ?_ ?_
  · unfold Seen
    omega
  · intro a b hseen
    by_cases hbefore : Seen i (j + 1) a b
    · exact Or.inl hbefore
    · right
      unfold Seen at hseen hbefore
      obtain ⟨k, rfl⟩ : ∃ k, b = k + 1 := ⟨b - 1, by omega⟩
      obtain rfl : a = i := by omega
      exact hnone k (by omega) (by omega)

/-- The search along a line is over when no place that is left has any reach. -/
theorem First.nextLine {i j : Nat} {best : Block} (hfirst : First c w i (j + 1) best)
    (hnone : ∀ k, j ≤ k → reach c w i (k + 1) = 0) : First c w (i + 1) 0 best := by
  refine hfirst.skip ?_ ?_
  · unfold Seen
    omega
  · intro a b hseen
    by_cases hbefore : Seen i (j + 1) a b
    · exact Or.inl hbefore
    · right
      unfold Seen at hseen hbefore
      obtain ⟨k, rfl⟩ : ∃ k, b = k + 1 := ⟨b - 1, by omega⟩
      obtain rfl : a = i := by omega
      exact hnone k (by omega)

theorem Tracks.all {i j : Nat} {entries : List (Nat × Nat)} (htracks : Tracks c w i (· < j) entries)
    (hnone : ∀ k, j ≤ k → reach c w i (k + 1) = 0) : Tracks c w i (fun _ => True) entries where
  increasing := htracks.increasing
  size := htracks.size
  complete := by
    intro k _ hreach
    have hwide : Tracks c w i (· < k + 1) entries := htracks.widen fun k hk _ => hnone k hk
    exact hwide.complete k (Nat.lt_succ_self k) hreach

/-- The places left of a line: all that the index leads to from line `j` of the new text on. -/
structure Remaining (c : Comparison) (i j : Nat) (places : List Nat) : Prop where
  increasing : places.Pairwise (· < ·)
  mem_iff : ∀ k, k ∈ places ↔ j ≤ k ∧ k ∈ c.places.getD i []

theorem Remaining.tail {i j next : Nat} {places : List Nat} (hplaces : Remaining c i j (next :: places)) :
    Remaining c i (next + 1) places := by
  obtain ⟨hlater, hincreasing⟩ := List.pairwise_cons.mp hplaces.increasing
  refine ⟨hincreasing, fun k => ⟨fun hk => ?_, fun ⟨hk, hplace⟩ => ?_⟩⟩
  · exact ⟨hlater k hk, ((hplaces.mem_iff k).mp (List.mem_cons_of_mem _ hk)).2⟩
  · have hnext := (hplaces.mem_iff next).mp List.mem_cons_self
    have hmem := (hplaces.mem_iff k).mpr ⟨by omega, hplace⟩
    exact (List.mem_cons.mp hmem).resolve_left (by omega)

theorem Remaining.reach_eq_zero {i j next : Nat} {places : List Nat} (hplaces : Remaining c i j (next :: places)) :
    ∀ k, j ≤ k → k < next → reach c w (i + 1) (k + 1) = 0 := by
  intro k hk hlt
  refine reach_of_not_mem fun hplace => ?_
  rcases List.mem_cons.mp ((hplaces.mem_iff k).mpr ⟨hk, hplace⟩) with rfl | hmem
  · omega
  · have hlater := (List.pairwise_cons.mp hplaces.increasing).1 k hmem
    omega

/-- The search along one line of the old text: from the reaches in front of the line it computes those behind it, and
compares each with the best block so far. -/
theorem prolong_spec {i : Nat} (hlow : w.oldLow ≤ i) (hhigh : i < w.oldHigh) {places : List Nat}
    {earlier row : List (Nat × Nat)} {best : Block} {j : Nat} (hplaces : Remaining c i j places)
    (hearlier : Tracks c w i (j ≤ · + 1) earlier) (hrow : Tracks c w (i + 1) (· < j) row.reverse)
    (hbelow : ∀ e ∈ row, e.1 < j) (hfirst : First c w (i + 1) (j + 1) best) :
    Tracks c w (i + 1) (fun _ => True) (prolong i w places earlier row best).1 ∧
      First c w (i + 2) 0 (prolong i w places earlier row best).2 := by
  induction places generalizing earlier row best j with
  | nil =>
      have hnone : ∀ k, j ≤ k → reach c w (i + 1) (k + 1) = 0 := by
        intro k hk
        refine reach_of_not_mem fun hplace => ?_
        exact List.not_mem_nil ((hplaces.mem_iff k).mpr ⟨hk, hplace⟩)
      exact ⟨hrow.all hnone, hfirst.nextLine hnone⟩
  | cons next places ih =>
      obtain ⟨hnext, hplace⟩ := (hplaces.mem_iff next).mp List.mem_cons_self
      have hbetween := hplaces.reach_eq_zero (w := w)
      by_cases hright : next < w.newLow
      · rw [prolong, if_pos hright]
        have hnone : ∀ k, j ≤ k → k < next + 1 → reach c w (i + 1) (k + 1) = 0 := by
          intro k hk hlt
          rcases Nat.lt_succ_iff_lt_or_eq.mp hlt with hlt | rfl
          · exact hbetween k hk hlt
          · exact reach_of_outside (Or.inl hright)
        refine ih hplaces.tail ⟨hearlier.increasing, hearlier.size, fun k hk => hearlier.complete k (by omega)⟩
          (hrow.widen hnone) (fun e he => Nat.lt_of_lt_of_le (hbelow e he) (by omega)) ?_
        exact hfirst.widen (by omega) hnone
      · by_cases hwithin : w.newHigh ≤ next
        · rw [prolong, if_neg hright, if_pos hwithin]
          have hnone : ∀ k, j ≤ k → reach c w (i + 1) (k + 1) = 0 := by
            intro k hk
            rcases Nat.lt_or_ge k next with hlt | hge
            · exact hbetween k hk hlt
            · exact reach_of_outside (Or.inr (by omega))
          exact ⟨hrow.all hnone, hfirst.nextLine hnone⟩
        · have hnear := hearlier.dropWhile hnext
          have hgrown := hnear.grown_eq (by
            intro e he
            have hhead := List.head?_dropWhile_not (fun e : Nat × Nat => decide (e.1 + 1 < next)) earlier
            rw [Option.mem_def.mp he] at hhead
            simpa using hhead)
          have hreach : reach c w (i + 1) (next + 1) = reach c w i next + 1 := by
            rw [reach_succ, if_pos ⟨hlow, by omega, by omega, hplace⟩]
          rw [prolong_cons hright hwithin (hgrown.trans hreach.symm)]
          have hstep := (hfirst.widen hnext hbetween).step hhigh (by omega)
          refine ih hplaces.tail ⟨hnear.increasing, hnear.size, fun k hk => hnear.complete k (by omega)⟩ ?_ ?_ hstep
          · rw [List.reverse_cons]
            refine ⟨List.pairwise_append.mpr ⟨hrow.increasing, List.pairwise_singleton _ _, ?_⟩, ?_, ?_⟩
            · intro e he last hlast
              rw [List.mem_singleton.mp hlast]
              exact Nat.lt_of_lt_of_le (hbelow e (List.mem_reverse.mp he)) hnext
            · intro e he
              rcases List.mem_append.mp he with he | he
              · exact hrow.size e he
              · rw [List.mem_singleton.mp he]
            · intro k hk hpos
              rcases Nat.lt_succ_iff_lt_or_eq.mp hk with hlt | rfl
              · exact List.mem_append_left _ ((hrow.widen hbetween).complete k hlt hpos)
              · exact List.mem_append_right _ List.mem_cons_self
          · intro e he
            rcases List.mem_cons.mp he with rfl | he
            · exact Nat.lt_succ_self next
            · have hbefore := hbelow e he
              omega

theorem searchFrom_spec (hc : c.Indexes) {count i : Nat} {row : List (Nat × Nat)} {best : Block}
    (hlow : w.oldLow ≤ i) (hhigh : i + count = w.oldHigh) (hrow : Tracks c w i (fun _ => True) row)
    (hfirst : First c w (i + 1) 0 best) : First c w (w.oldHigh + 1) 0 (c.searchFrom w count i row best) := by
  induction count generalizing i row best with
  | zero =>
      obtain rfl : i = w.oldHigh := hhigh
      exact hfirst
  | succ count ih =>
      have hplaces : Remaining c i 0 (c.places.getD i []) := ⟨hc.increasing i, fun k => by simp⟩
      have hstart : First c w (i + 1) 1 best := by
        refine hfirst.skip (by unfold Seen; omega) ?_
        intro a b hseen
        unfold Seen at hseen ⊢
        rcases Nat.eq_zero_or_pos b with rfl | hpos
        · exact Or.inr (reach_zero_right c w a)
        · exact Or.inl (by omega)
      have hempty : Tracks c w (i + 1) (· < 0) ([] : List (Nat × Nat)).reverse :=
        ⟨List.Pairwise.nil, by simp, fun k hk => absurd hk (Nat.not_lt_zero k)⟩
      obtain ⟨hrow', hfirst'⟩ := prolong_spec hlow (by omega) hplaces
        ⟨hrow.increasing, hrow.size, fun k _ => hrow.complete k trivial⟩ hempty (by simp) hstart
      exact ih (by omega) (by omega) hrow' hfirst'

/-- The search finds a longest block of the window that the index leads through, and the first of them. -/
theorem searchFrom_first (hc : c.Indexes) (hold : w.oldLow ≤ w.oldHigh) (hnew : w.newLow ≤ w.newHigh) :
    First c w (w.oldHigh + 1) 0
      (c.searchFrom w (w.oldHigh - w.oldLow) w.oldLow [] ⟨w.oldLow, w.newLow, 0⟩) := by
  refine searchFrom_spec hc (Nat.le_refl _) (by omega) ⟨List.Pairwise.nil, by simp, ?_⟩ ?_
  · intro j _ hreach
    rw [reach_oldLow] at hreach
    omega
  · -- A block that ends in front of the first line of the window is empty.
    have hempty : ∀ b : Block, b.Inside w → Seen (w.oldLow + 1) 0 (b.old + b.size) (b.new + b.size) → b.size = 0 := by
      intro b hinside hseen
      have hlow := hinside.oldLow
      unfold Seen at hseen
      omega
    refine ⟨⟨Nat.le_refl _, Nat.le_refl _, hold, hnew⟩, fun k hk => absurd hk (Nat.not_lt_zero k), Or.inl rfl, ?_, ?_⟩
    · intro b hinside _ hseen
      exact Nat.le_of_eq (hempty b hinside hseen)
    · intro b _ _ _ _ hpos
      exact absurd hpos (Nat.lt_irrefl 0)

/-! ### Prolonging over lines that are not indexed -/

/-- A shared block of a window. -/
structure Fits (c : Comparison) (w : Window) (b : Block) : Prop where
  inside : b.Inside w
  shared : b.Shared c

theorem extendLeft_fits {i j size : Nat} (hfits : Fits c w ⟨i, j, size⟩) : Fits c w (c.extendLeft w i j size) := by
  fun_induction extendLeft c w i j size with
  | case1 i j size hmore ih =>
      simp only [Bool.and_eq_true, decide_eq_true_eq] at hmore
      obtain ⟨⟨hold, hnew⟩, hagree⟩ := hmore
      have hhigh := hfits.inside.oldHigh
      have hhigh' := hfits.inside.newHigh
      dsimp only at hhigh hhigh'
      refine ih ⟨⟨hold, hnew, ?_, ?_⟩, ?_⟩
      · show i + (size + 1) ≤ w.oldHigh
        omega
      · show j + (size + 1) ≤ w.newHigh
        omega
      · intro k hk
        cases k with
        | zero => exact hagree
        | succ k =>
            have hshared := hfits.shared k (Nat.lt_of_succ_lt_succ hk)
            dsimp only at hshared ⊢
            rwa [Nat.add_right_comm i 1 k, Nat.add_right_comm j 1 k] at hshared
  | case2 => exact hfits
  | case3 => exact hfits

theorem extendRight_fits {b : Block} {count : Nat} (hfits : Fits c w b) : Fits c w (c.extendRight w b count) := by
  induction count generalizing b with
  | zero => exact hfits
  | succ count ih =>
      rw [extendRight]
      split
      next hmore =>
        simp only [Bool.and_eq_true, decide_eq_true_eq] at hmore
        obtain ⟨⟨hold, hnew⟩, hagree⟩ := hmore
        refine ih ⟨⟨hfits.inside.oldLow, hfits.inside.newLow, hold, hnew⟩, ?_⟩
        intro k hk
        rcases Nat.lt_succ_iff_lt_or_eq.mp hk with hlt | rfl
        · exact hfits.shared k hlt
        · exact hagree
      next => exact hfits

theorem longest_fits (hc : c.Indexes) (hold : w.oldLow ≤ w.oldHigh) (hnew : w.newLow ≤ w.newHigh) :
    Fits c w (c.longest w) := by
  have hfirst := searchFrom_first hc hold hnew
  exact extendRight_fits (extendLeft_fits ⟨hfirst.inside, hfirst.indexed.shared hc⟩)

end Comparison

end SwiftObservation.Patch
