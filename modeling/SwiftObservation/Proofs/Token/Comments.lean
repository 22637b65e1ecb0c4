import SwiftObservation.Proofs.Token.Course
import SwiftObservation.Token.Layout

/-!
# Line comments in trivia

Whatever stands behind a line comment on its line belongs to the comment. `Place` follows a reader of comments through a
text, character by character, so that a text can be asked whether it ends inside of a line comment. The lexer never lets
code stand there: leading trivia ends outside of comments, and if trailing trivia ends in a line comment, the next token
begins a new line. What stands behind a token is the rest of its line, so the leading trivia of the next one is empty or
begins with a line break; this is what makes it safe to join two pieces of leading trivia.
-/

namespace SwiftObservation

/-- Where a reader of comments stands in a text. Block comments nest, and `outer` counts those around the innermost. -/
inductive Place where
  | code
  /-- Behind a slash that may open a comment. -/
  | slash
  | line
  | block (outer : Nat)
  /-- In a block comment, behind a slash that may open another one. -/
  | blockSlash (outer : Nat)
  /-- In a block comment, behind a star that may end it. -/
  | blockStar (outer : Nat)
deriving DecidableEq, Repr

namespace Place

/-- The place behind a character of a block comment that neither opens nor ends one. -/
def inBlock (outer : Nat) (c : Char) : Place :=
  if c == '/' then blockSlash outer else if c == '*' then blockStar outer else block outer

/-- The place behind the next character. -/
def next : Place → Char → Place
  | code, c => if c == '/' then slash else code
  | slash, c => if c == '/' then line else if c == '*' then block 0 else code
  | line, c => if Text.isLineBreak c then code else line
  | block outer, c => inBlock outer c
  | blockSlash outer, c => if c == '*' then block (outer + 1) else inBlock outer c
  | blockStar 0, c => if c == '/' then code else inBlock 0 c
  | blockStar (outer + 1), c => if c == '/' then block outer else inBlock (outer + 1) c

/-- The character may come next in trivia: outside of comments there are only blanks. -/
def admits : Place → Char → Bool
  | code, c => Trivia.isInlineSpace c || Text.isLineBreak c || c == '/' || c == Token.byteOrderMark
  | slash, c => c == '/' || c == '*'
  | _, _ => true

/-- The place behind a text of trivia; nothing if the text is none. -/
def walk : Place → Text → Option Place
  | p, [] => some p
  | p, c :: rest => if p.admits c then walk (p.next c) rest else none

variable {p q : Place} {s front back : Text} {outer : Nat}

theorem walk_append : walk p (front ++ back) = (walk p front).bind (walk · back) := by
  induction front generalizing p with
  | nil => rfl
  | cons c rest ih =>
      rw [List.cons_append, walk, walk]
      split
      · exact ih
      · rfl

theorem walk_concat {c : Char} : walk p (s ++ [c]) = (walk p s).bind fun q => if q.admits c then some (q.next c) else none := by
  rw [walk_append]
  rfl

theorem foldl_of_walk (hwalk : walk p s = some q) : s.foldl next p = q := by
  induction s generalizing p with
  | nil => exact Option.some.inj hwalk
  | cons c rest ih =>
      rw [walk] at hwalk
      split at hwalk
      · exact ih hwalk
      · cases hwalk

theorem admits_inBlock (outer : Nat) (c d : Char) : (inBlock outer c).admits d = true := by
  unfold inBlock
  repeat' split
  all_goals rfl

/-- A slash or a star in a block comment counts only with what follows it. -/
theorem next_inBlock {c d : Char} (hopens : c = '/' → d ≠ '*') (hends : c = '*' → d ≠ '/') :
    (inBlock outer c).next d = (block outer).next d := by
  unfold inBlock
  split
  next hslash =>
    have hd : (d == '*') = false := by simpa using hopens (beq_iff_eq.mp hslash)
    simp [next, hd]
  next =>
    split
    next hstar =>
      have hd : (d == '/') = false := by simpa using hends (beq_iff_eq.mp hstar)
      cases outer <;> simp [next, inBlock, hd]
    next => rfl

/-- A line break ends a line comment and changes nothing outside of comments. -/
theorem walk_line (hs : Text.startsWith Text.isLineBreak s = true) : walk line s = walk code s := by
  cases s with
  | nil => cases hs
  | cons c rest =>
      have hbreak : Text.isLineBreak c = true := hs
      have hslash : (c == '/') = false := by
        rw [Text.isLineBreak, Bool.or_eq_true, beq_iff_eq, beq_iff_eq] at hbreak
        rcases hbreak with rfl | rfl <;> rfl
      simp [walk, admits, next, hbreak, hslash]

/-- White space that indents a line leads from one place to another one only inside of block comments. -/
theorem next_of_isIndent {c : Char} (hc : Trivia.isIndent c = true) (hadmits : p.admits c = true) :
    (p.next c = code ↔ p = code) ∧ (p.next c = line ↔ p = line) := by
  have hblank : c = ' ' ∨ c = '\t' := by simpa [Trivia.isIndent] using hc
  rcases hblank with rfl | rfl
  all_goals
    cases p with
    | slash => cases hadmits
    | blockStar outer => cases outer <;> simp [next, inBlock]
    | _ => simp [next, inBlock, Text.isLineBreak]

theorem walk_of_isIndent (hs : ∀ c ∈ s, Trivia.isIndent c = true) :
    (walk p s = some code ↔ p = code) ∧ (walk p s = some line ↔ p = line) := by
  induction s generalizing p with
  | nil => simp [walk]
  | cons c rest ih =>
      obtain ⟨hc, hrest⟩ := List.forall_mem_cons.mp hs
      rw [walk]
      split
      next hadmits =>
        obtain ⟨hcode, hline⟩ := next_of_isIndent hc hadmits
        rw [(ih hrest).1, (ih hrest).2]
        exact ⟨hcode, hline⟩
      next hrefused =>
        have hblank : c = ' ' ∨ c = '\t' := by simpa [Trivia.isIndent] using hc
        refine ⟨iff_of_false (by simp) ?_, iff_of_false (by simp) ?_⟩
        · rintro rfl
          rcases hblank with rfl | rfl <;> exact hrefused rfl
        · rintro rfl
          exact hrefused rfl

/-- A line break leads out of a line comment, and never into one. -/
theorem next_of_isLineBreak {c : Char} (hc : Text.isLineBreak c = true) (hadmits : p.admits c = true) :
    (p.next c = code → p = code ∨ p = line) ∧ p.next c ≠ line := by
  have hbreak : c = '\n' ∨ c = '\r' := by simpa [Text.isLineBreak] using hc
  rcases hbreak with rfl | rfl
  all_goals
    cases p with
    | slash => cases hadmits
    | blockStar outer => cases outer <;> simp [next, inBlock]
    | _ => simp [next, inBlock, Text.isLineBreak]

end Place

/-- The text ends inside of a line comment. -/
def Text.endsInLineComment (s : Text) : Bool := s.foldl Place.next .code == .line

/-! ### Leading trivia -/

/-- What is asked of the trivia in front of a token. -/
inductive Lead where
  | any
  /-- Nothing is left of the line before: the trivia is empty or begins with a line break. -/
  | fresh
  /-- The trivia begins with a line break. -/
  | broken

namespace Lead

def Admits : Lead → Text → Prop
  | any, _ => True
  | fresh, s => s = [] ∨ s.startsWith Text.isLineBreak = true
  | broken, s => s.startsWith Text.isLineBreak = true

/-- One demand is at most another one if whatever meets the other one meets it. -/
instance : Preorder Lead where
  le lead lead' := ∀ s, lead'.Admits s → lead.Admits s
  le_refl _ _ hs := hs
  le_trans _ _ _ hfirst hsecond s hs := hfirst s (hsecond s hs)

theorem any_le (lead : Lead) : any ≤ lead := fun _ _ => trivial

theorem le_broken (lead : Lead) : lead ≤ broken := by
  intro s hs
  cases lead with
  | any => trivial
  | fresh => exact .inr hs
  | broken => exact hs

/-- What is asked behind the trivia of another token. -/
def behind (s : Text) : Lead := if s.endsInLineComment then broken else any

/-- The demand of a comment alone, without that of a fresh line. -/
def loosen : Lead → Lead
  | fresh => any
  | lead => lead

theorem loosen_le (lead : Lead) : lead.loosen ≤ lead := by
  cases lead with
  | fresh => exact any_le _
  | _ => exact le_rfl

theorem loosen_ne_fresh (lead : Lead) : lead.loosen ≠ fresh := by cases lead <;> simp [loosen]

theorem not_broken_le {lead : Lead} (hlead : lead ≠ broken) : ¬ broken ≤ lead := by
  intro hle
  -- Empty trivia begins with no line break, and only the strictest demand rules it out.
  have hempty : broken.Admits [] := by
    apply hle
    cases lead with
    | any => trivial
    | fresh => exact .inl rfl
    | broken => exact absurd rfl hlead
  cases hempty

theorem loosen_mono {lead lead' : Lead} (hle : lead ≤ lead') : lead.loosen ≤ lead'.loosen := by
  cases lead with
  | broken =>
      by_cases hlead : lead' = broken
      · rw [hlead]
      · exact absurd hle (not_broken_le hlead)
  | _ => exact any_le _

theorem behind_le_loosen {s : Text} {lead : Lead} (hle : behind s ≤ lead) : behind s ≤ lead.loosen := by
  unfold behind at hle ⊢
  split at hle
  next hcomment =>
    rw [if_pos hcomment]
    by_cases hlead : lead = broken
    · rw [hlead]
      exact le_rfl
    · exact absurd hle (not_broken_le hlead)
  next hcode =>
    rw [if_neg hcode]
    exact any_le _

end Lead

namespace Trivia

variable {s a b removed following : Text} {lead : Lead}

/-- Trivia that ends outside of comments. -/
def Closed (s : Text) : Prop := Place.walk .code s = some .code

/-- Trivia that ends outside of comments or in a line comment. -/
def Whole (s : Text) : Prop := Closed s ∨ Place.walk .code s = some .line

theorem closed_nil : Closed [] := rfl

theorem Closed.whole (hs : Closed s) : Whole s := .inl hs

theorem Closed.endsInLineComment (hs : Closed s) : s.endsInLineComment = false := by
  rw [Text.endsInLineComment, Place.foldl_of_walk hs]
  rfl

theorem Closed.behind_le (hs : Closed s) (lead : Lead) : Lead.behind s ≤ lead := by
  rw [Lead.behind, hs.endsInLineComment]
  exact Lead.any_le lead

theorem behind_of_walk (hs : Place.walk .code s = some .line) : Lead.behind s = .broken := by
  rw [Lead.behind, Text.endsInLineComment, Place.foldl_of_walk hs]
  rfl

theorem Closed.walk_append (ha : Closed a) : Place.walk .code (a ++ b) = Place.walk .code b := by
  rw [Place.walk_append, ha]
  rfl

/-- Behind trivia that ends in a line comment a line break comes first. -/
theorem Whole.walk_append (ha : Whole a) (hb : (Lead.behind a).Admits b) :
    Place.walk .code (a ++ b) = Place.walk .code b := by
  rcases ha with hclosed | hopen
  · exact hclosed.walk_append
  · rw [behind_of_walk hopen] at hb
    rw [Place.walk_append, hopen]
    exact Place.walk_line hb

theorem Whole.append_closed (ha : Whole a) (hb : Closed b) (hbehind : (Lead.behind a).Admits b) : Closed (a ++ b) :=
  (ha.walk_append hbehind).trans hb

theorem Closed.append_whole (ha : Closed a) (hb : Whole b) : Whole (a ++ b) := by
  rw [Whole, Closed, ha.walk_append]
  exact hb

theorem Closed.behind_append (ha : Closed a) (hb : Whole b) : Lead.behind (a ++ b) = Lead.behind b := by
  rcases hb with hclosed | hopen
  · have hwhole : Closed (a ++ b) := ha.walk_append.trans hclosed
    rw [Lead.behind, Lead.behind, hwhole.endsInLineComment, hclosed.endsInLineComment]
  · rw [behind_of_walk hopen, behind_of_walk (ha.walk_append.trans hopen)]

theorem closed_of_isIndent (hs : ∀ c ∈ s, isIndent c = true) : Closed s := (Place.walk_of_isIndent hs).1.mpr rfl

theorem closed_indentation (s : Text) : Closed (indentation s) := by
  unfold indentation
  split
  next hall => exact closed_of_isIndent (List.all_eq_true.mp hall)
  next => exact closed_nil

theorem closed_lineEnding (s : Text) : Closed (lineEnding s) := by
  unfold lineEnding
  split <;> rfl

/-! ### Trivia that changes hands -/

theorem Whole.dropEndWhile (hs : Whole s) : Whole (s.dropEndWhile isIndent) := by
  have hparts : s.dropEndWhile isIndent ++ (s.reverse.takeWhile isIndent).reverse = s := by
    rw [Text.dropEndWhile, ← List.reverse_append, List.takeWhile_append_dropWhile, List.reverse_reverse]
  have hindents : ∀ c ∈ (s.reverse.takeWhile isIndent).reverse, isIndent c = true :=
    fun c hc => List.all_eq_true.mp List.all_takeWhile c (List.mem_reverse.mp hc)
  rw [Whole, Closed, ← hparts, Place.walk_append, Option.bind_eq_some_iff, Option.bind_eq_some_iff] at hs
  rcases hs with ⟨p, hp, hwalk⟩ | ⟨p, hp, hwalk⟩
  · obtain rfl := (Place.walk_of_isIndent hindents).1.mp hwalk
    exact .inl hp
  · obtain rfl := (Place.walk_of_isIndent hindents).2.mp hwalk
    exact .inr hp

/-- A line break at the end of trivia may be the one that ends a line comment. -/
theorem Whole.of_concat {c : Char} (hs : Whole (s ++ [c])) (hc : Text.isLineBreak c = true) : Whole s := by
  rw [Whole, Closed, Place.walk_concat, Option.bind_eq_some_iff, Option.bind_eq_some_iff] at hs
  rcases hs with ⟨p, hp, hnext⟩ | ⟨p, hp, hnext⟩
  · split at hnext
    next hadmits =>
      rcases (Place.next_of_isLineBreak hc hadmits).1 (Option.some.inj hnext) with rfl | rfl
      · exact .inl hp
      · exact .inr hp
    next => cases hnext
  · split at hnext
    next hadmits => exact absurd (Option.some.inj hnext) (Place.next_of_isLineBreak hc hadmits).2
    next => cases hnext

theorem Whole.dropLineBreak (hs : Whole s) : Whole (dropLineBreak s) := by
  have hwhole (rest behind : Text) (hreverse : s.reverse = behind.reverse ++ rest) : s = rest.reverse ++ behind := by
    rw [← List.reverse_reverse s, hreverse, List.reverse_append, List.reverse_reverse]
  unfold Trivia.dropLineBreak
  split
  next rest hreverse =>
    have hpair : s = rest.reverse ++ ['\r'] ++ ['\n'] := by simpa using hwhole rest ['\r', '\n'] hreverse
    rw [hpair] at hs
    exact (hs.of_concat rfl).of_concat rfl
  next rest _ hreverse =>
    rw [hwhole rest ['\n'] hreverse] at hs
    exact hs.of_concat rfl
  next rest hreverse =>
    rw [hwhole rest ['\r'] hreverse] at hs
    exact hs.of_concat rfl
  next => exact hs

theorem isPrefix_dropEndWhile (p : Char → Bool) (s : Text) : s.dropEndWhile p <+: s := by
  rw [Text.dropEndWhile, ← List.reverse_suffix, List.reverse_reverse]
  exact List.dropWhile_suffix p

theorem isPrefix_dropLineBreak (s : Text) : dropLineBreak s <+: s := by
  have hprefix {rest : Text} (hrest : rest <:+ s.reverse) : rest.reverse <+: s := by
    rwa [← List.reverse_suffix, List.reverse_reverse]
  unfold dropLineBreak
  split
  next rest hreverse => exact hprefix ⟨['\n', '\r'], hreverse.symm⟩
  next rest _ hreverse => exact hprefix ⟨['\n'], hreverse.symm⟩
  next rest hreverse => exact hprefix ⟨['\r'], hreverse.symm⟩
  next => exact List.prefix_refl s

/-- Trivia with a line break that leaves nothing of the line before begins with one. -/
theorem broken_of_hasLineBreak (hfresh : Lead.fresh.Admits s) (hbreak : s.hasLineBreak = true) : Lead.broken.Admits s := by
  rcases hfresh with rfl | hstarts
  · cases hbreak
  · exact hstarts

theorem broken_append (ha : Lead.broken.Admits a) : Lead.broken.Admits (a ++ b) := by
  cases a with
  | nil => cases ha
  | cons c rest => exact ha

/-- Joined trivia begins with a line break if the trivia in front does, whatever is cut off its end. -/
theorem broken_mergeLeading (hremoved : Lead.broken.Admits removed) (hfollowing : Lead.fresh.Admits following) :
    Lead.broken.Admits (mergeLeading removed following) := by
  unfold mergeLeading
  split
  next hbreak =>
    have hprefix : dropLineBreak (removed.dropEndWhile isIndent) <+: removed :=
      (isPrefix_dropLineBreak _).trans (isPrefix_dropEndWhile _ _)
    cases hcut : dropLineBreak (removed.dropEndWhile isIndent) with
    | nil => exact broken_of_hasLineBreak hfollowing hbreak
    | cons c rest =>
        obtain ⟨more, hmore⟩ := hcut ▸ hprefix
        rw [← hmore] at hremoved
        exact hremoved
  next => exact broken_append hremoved

theorem admits_mergeLeading (hremoved : lead.Admits removed) (hfollowing : Lead.fresh.Admits following) :
    lead.Admits (mergeLeading removed following) := by
  cases lead with
  | any => trivial
  | broken => exact broken_mergeLeading hremoved hfollowing
  | fresh =>
      rcases hremoved with rfl | hstarts
      · have hself : mergeLeading [] following = following := by
          unfold mergeLeading
          split <;> rfl
        rwa [hself]
      · exact .inr (broken_mergeLeading hstarts hfollowing)

/-- Joined trivia ends outside of comments if the second piece does: where the line break that ends a comment in the first
piece is cut off, the second one begins with another. -/
theorem closed_mergeLeading (hremoved : Whole removed) (hfollowing : Closed following)
    (hfresh : Lead.fresh.Admits following) (hbehind : (Lead.behind removed).Admits following) :
    Closed (mergeLeading removed following) := by
  unfold mergeLeading
  split
  next hbreak =>
    have hbroken := broken_of_hasLineBreak hfresh hbreak
    exact hremoved.dropEndWhile.dropLineBreak.append_closed hfollowing (Lead.le_broken _ _ hbroken)
  next => exact hremoved.append_closed hfollowing hbehind

theorem walk_dropWhile_isBlank (s : Text) : ∀ p ∈ Place.walk .code s, Place.walk .code (s.dropWhile Text.isBlank) = some p := by
  induction s with
  | nil => exact fun p hp => hp
  | cons c rest ih =>
      intro p hp
      rw [List.dropWhile_cons]
      split
      next hblank =>
        have hslash : (c == '/') = false := by
          apply Bool.eq_false_iff.mpr
          intro hslash
          rw [beq_iff_eq.mp hslash] at hblank
          exact absurd hblank (by decide)
        apply ih p
        rw [Place.walk] at hp
        split at hp
        · simpa [Place.next, hslash] using hp
        · cases hp
      next => exact hp

theorem Whole.dropWhile_isBlank (hs : Whole s) :
    Whole (s.dropWhile Text.isBlank) ∧ Lead.behind (s.dropWhile Text.isBlank) = Lead.behind s := by
  rcases hs with hclosed | hopen
  · have hcut : Closed (s.dropWhile Text.isBlank) := walk_dropWhile_isBlank s _ hclosed
    rw [Lead.behind, Lead.behind, hcut.endsInLineComment, hclosed.endsInLineComment]
    exact ⟨hcut.whole, rfl⟩
  · have hcut := walk_dropWhile_isBlank s _ hopen
    rw [behind_of_walk hopen, behind_of_walk hcut]
    exact ⟨.inr hcut, rfl⟩

/-! ### Scanned trivia -/

/-- A block comment ends outside of comments. -/
theorem CommentBody.walk {outer : Nat} (hs : CommentBody outer s) : Place.walk (.block outer) s = some .code := by
  induction hs with
  | ends => rfl
  | leaves _ ih | enters _ ih => exact ih
  | @plain outer c d rest hopens hends _ ih =>
      change Place.walk (.inBlock outer c) (d :: rest) = some .code
      rw [Place.walk, if_pos (Place.admits_inBlock outer c d), Place.next_inBlock hopens hends]
      exact ih

/-- The line ends here: the text ends, or a line break comes next. -/
def StopsAtBreak (s : Text) : Prop := ∀ c ∈ s.head?, Text.isLineBreak c = true

/-- Trivia that ends outside of comments, or in a line comment that takes all of its line. -/
def EndsAt (trivia rest : Text) : Prop :=
  Closed trivia ∨ Place.walk .code trivia = some .line ∧ StopsAtBreak rest

theorem EndsAt.whole {rest : Text} (hs : EndsAt s rest) : Whole s := hs.imp_right And.left

/-- Trivia that is followed by more of it. -/
theorem EndsAt.append_take {n : Nat} (ha : EndsAt a s) (hb : EndsAt (s.take n) (s.drop n)) :
    EndsAt (a ++ s.take n) (s.drop n) := by
  rcases ha with hclosed | ⟨hopen, hstops⟩
  · rwa [EndsAt, Closed, hclosed.walk_append]
  cases hmore : s.take n with
  | nil =>
      rw [List.append_nil]
      refine .inr ⟨hopen, ?_⟩
      rcases List.take_eq_nil_iff.mp hmore with rfl | rfl
      · exact hstops
      · simp [StopsAtBreak]
  | cons c rest =>
      have hstarts : Text.startsWith Text.isLineBreak (c :: rest) = true := by
        rw [← List.take_append_drop n s, hmore] at hstops
        exact hstops c rfl
      rw [EndsAt, Closed, Place.walk_append, hopen, Option.bind_some, Place.walk_line hstarts, ← hmore]
      exact hb

theorem stopsAtBreak_drop (s : Text) : StopsAtBreak (s.drop (Text.runLength (!Text.isLineBreak ·) s)) := by
  induction s with
  | nil => simp [StopsAtBreak]
  | cons c rest ih =>
      cases hbreak : Text.isLineBreak c with
      | true => simp [StopsAtBreak, Text.runLength, hbreak]
      | false => simpa [Text.runLength, hbreak] using ih

theorem walk_line_of_plain (hs : ∀ c ∈ s, Text.isLineBreak c = false) : Place.walk .line s = some .line := by
  induction s with
  | nil => rfl
  | cons c rest ih =>
      obtain ⟨hc, hrest⟩ := List.forall_mem_cons.mp hs
      simpa [Place.walk, Place.admits, Place.next, hc] using ih hrest

/-- A piece of trivia ends outside of comments, or it is a line comment that takes all of its line. -/
theorem endsAt_of_piece? {acrossLines : Bool} {c : Char} {rest : Text} {k : Nat}
    (hpiece : piece? acrossLines c rest = .ok (some k)) :
    EndsAt ((c :: rest).take (k + 1)) (rest.drop k) := by
  cases piece?_eq_some_iff.mp hpiece with
  | blank hspace =>
      left
      have hblank : (isInlineSpace c || Text.isLineBreak c) = true := by
        cases acrossLines <;> simp_all
      have hslash : (c == '/') = false := beq_eq_false_iff_ne.mpr (Piece.space_ne_slash hspace)
      simp only [Closed, List.take_succ_cons, List.take_zero, Place.walk, Place.admits, Place.next, hblank, hslash,
        Bool.true_or, if_true, Bool.false_eq_true, if_false]
  | line =>
      right
      refine ⟨?_, stopsAtBreak_drop _⟩
      rw [List.take_succ_cons, Text.take_runLength]
      exact walk_line_of_plain fun d hd => by simpa using List.mem_takeWhile_imp hd
  | block hclosed =>
      left
      exact (commentBody_of_blockCommentFrom hclosed 0 rfl).walk

theorem endsAt_of_lengthFrom {acrossLines : Bool} {n m : Nat} (hlength : lengthFrom acrossLines n s = .ok (n + m)) :
    EndsAt (s.take m) (s.drop m) := by
  fun_induction lengthFrom acrossLines n s generalizing m with
  | case1 n =>
      rw [List.take_nil]
      exact .inl closed_nil
  | case2 => simp at hlength
  | case3 n c rest hpiece =>
      obtain rfl : m = 0 := by simpa using hlength
      exact .inl closed_nil
  | case4 n c rest k hpiece ih =>
      have hle := le_of_lengthFrom hlength
      obtain ⟨m, rfl⟩ : ∃ j, m = k + 1 + j := ⟨m - (k + 1), by omega⟩
      have hmore : EndsAt ((rest.drop k).take m) ((rest.drop k).drop m) :=
        ih (by rw [hlength, Except.ok.injEq]; omega)
      have htake : (c :: rest).take (k + 1 + m) = (c :: rest).take (k + 1) ++ (rest.drop k).take m := List.take_add
      have hdrop : (c :: rest).drop (k + 1 + m) = (rest.drop k).drop m := by
        rw [← List.drop_drop, List.drop_succ_cons]
      rw [htake, hdrop]
      exact (endsAt_of_piece? hpiece).append_take hmore

/-- Leading trivia in front of a lexeme ends outside of comments, a byte order mark apart or not. -/
theorem closed_of_leadingLength {skip n : Nat} {c : Char} {rest : Text} (hskip : Closed (s.take skip))
    (hleading : leadingLength (s.drop skip) = .ok n) (hbegins : s.drop (skip + n) = c :: rest) :
    Closed (s.take (skip + n)) := by
  have hlength : lengthFrom true 0 (s.drop skip) = .ok (0 + n) := by
    rw [Nat.zero_add]
    exact hleading
  rw [List.take_add]
  rcases endsAt_of_lengthFrom hlength with hclosed | ⟨-, hstops⟩
  · exact hskip.walk_append.trans hclosed
  · -- A line comment would end in front of a line break, which is trivia as well.
    rw [List.drop_drop, hbegins] at hstops
    have hpiece := piece?_of_leadingLength hleading hbegins
    rw [piece?, hstops c rfl] at hpiece
    simp at hpiece

theorem endsAt_of_trailingLength {n : Nat} (htrailing : trailingLength s = .ok n) : EndsAt (s.take n) (s.drop n) :=
  endsAt_of_lengthFrom (by rw [Nat.zero_add]; exact htrailing)

/-- Behind trailing trivia nothing is left of the line but the next token. -/
theorem fresh_of_trailingLength {m n : Nat} (htrailing : trailingLength s = .ok m)
    (hleading : leadingLength (s.drop m) = .ok n) : Lead.fresh.Admits ((s.drop m).take n) := by
  cases hrest : s.drop m with
  | nil =>
      rw [List.take_nil]
      exact .inl rfl
  | cons c rest =>
      have hlength : lengthFrom false 0 s = .ok (0 + m) := by
        rw [Nat.zero_add]
        exact htrailing
      have hnone := piece?_of_lengthFrom hlength hrest
      cases hbreak : Text.isLineBreak c with
      | true =>
          cases n with
          | zero => exact .inl rfl
          | succ n => exact .inr hbreak
      | false =>
          have hnothing : piece? true c rest = .ok none := by
            rw [piece?, hbreak] at hnone ⊢
            exact hnone
          rw [hrest, leadingLength, lengthFrom, hnothing] at hleading
          obtain rfl : 0 = n := by simpa using hleading
          exact .inl rfl

/-- Where a line ends, the leading trivia of what follows begins with a line break. -/
theorem broken_of_leadingLength {n : Nat} (hstops : StopsAtBreak s) (hleading : leadingLength s = .ok n) (hs : s ≠ []) :
    Lead.broken.Admits (s.take n) := by
  obtain ⟨c, rest, rfl⟩ := List.exists_cons_of_ne_nil hs
  have hpiece : piece? true c rest = .ok (some 0) :=
    piece?_eq_some_iff.mpr (.blank (by rw [hstops c rfl]; simp))
  rw [leadingLength, lengthFrom, hpiece] at hleading
  obtain ⟨n, rfl⟩ : ∃ j, n = j + 1 := ⟨n - 1, by have := le_of_lengthFrom hleading; omega⟩
  exact hstops c rfl

end Trivia

end SwiftObservation
