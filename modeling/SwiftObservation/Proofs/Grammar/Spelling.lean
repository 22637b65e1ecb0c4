import SwiftObservation.Proofs.Grammar.Lossless

/-!
# The spelling of a word tells its kind

The rules of the migration ask for the text of a token more often than for its kind. The leaves of a source's tree are its
tokens, operators cut into pieces, and every token has the kind that `Lexeme.scan` reads off its first character. So a
leaf that is spelled like a word, with a letter first, is a word and has the kind of words with this spelling.
-/

namespace SwiftObservation

/-- The token is spelled like a word of two characters or more. -/
def Token.IsWordlike (t : Token) : Prop := t.text.startsWith Char.isAlpha = true ∧ 2 ≤ t.text.length

theorem Text.isDigit_of_isAlpha {c : Char} (hletter : c.isAlpha = true) : Text.isDigit c = false := by
  delta Char.isAlpha Char.isUpper Char.isLower at hletter
  simp only [Bool.or_eq_true, Bool.and_eq_true, decide_eq_true_eq, UInt32.le_iff_toNat_le, ge_iff_le] at hletter
  change 65 ≤ c.toNat ∧ c.toNat ≤ 90 ∨ 97 ≤ c.toNat ∧ c.toNat ≤ 122 at hletter
  rw [Text.isDigit, if_pos (by omega), Bool.eq_false_iff]
  intro hdigit
  delta Char.isDigit at hdigit
  simp only [Bool.and_eq_true, decide_eq_true_eq, UInt32.le_iff_toNat_le, ge_iff_le] at hdigit
  change 48 ≤ c.toNat ∧ c.toNat ≤ 57 at hdigit
  omega

theorem Lexeme.isOperatorChar_of_isAlpha {c : Char} (hletter : c.isAlpha = true) : Lexeme.isOperatorChar c = false := by
  rw [Bool.eq_false_iff]
  intro hoperator
  simp only [Lexeme.isOperatorChar, Bool.or_eq_true, beq_iff_eq] at hoperator
  rcases hoperator with ((((((((((((((rfl | rfl) | rfl) | rfl) | rfl) | rfl) | rfl) | rfl) | rfl) | rfl) | rfl) | rfl) |
    rfl) | rfl) | rfl) <;> exact absurd hletter (by decide)

theorem TokenKind.ofPunctuation?_of_isAlpha {c : Char} (hletter : c.isAlpha = true) : TokenKind.ofPunctuation? c = none := by
  unfold TokenKind.ofPunctuation?
  split
  all_goals first | exact absurd hletter (by decide) | rfl

/-- A lexeme that is spelled like a word has the kind of words with this spelling. -/
theorem Lexeme.Scanned.kind_eq {limit : Nat} {c : Char} {rest : Text} {kind : TokenKind} {n : Nat}
    (hscanned : Lexeme.Scanned limit c rest kind n) (hletter : c.isAlpha = true) (hlong : 2 ≤ (c :: rest.take n).length) :
    kind = .ofWord (c :: rest.take n) := by
  cases hscanned with
  | word => rfl
  | literal pounds length hopens =>
      -- Neither a number sign nor a quote opens the text.
      have hnone : Literal.opening? (c :: rest) = none := by
        have hpound : (c == '#') = false := by
          rw [beq_eq_false_iff_ne]
          rintro rfl
          exact absurd hletter (by decide)
        have hquote : c ≠ '"' := by
          rintro rfl
          exact absurd hletter (by decide)
        simp [Literal.opening?, Text.runLength, hpound, hquote]
      simp [hnone] at hopens
  | pound hsign => rcases hsign with rfl | rfl <;> exact absurd hletter (by decide)
  | number hdigit => rw [Text.isDigit_of_isAlpha hletter] at hdigit; simp at hdigit
  | quoted n hquote => subst hquote; exact absurd hletter (by decide)
  | backquote hquote => subst hquote; exact absurd hletter (by decide)
  | punctuation kind hmark => simp [TokenKind.ofPunctuation?_of_isAlpha hletter] at hmark
  | operators hrun => rw [Lexeme.isOperatorChar_of_isAlpha hletter] at hrun; simp at hrun
  | single => simp at hlong

namespace Token

theorem withTrailing_kind_eq {limit : Nat} {leading : Text} {p : Position} {c : Char} {rest : Text} {t : Token} {n : Nat}
    (hcut : withTrailing limit leading p c rest = .ok (t, n)) (hword : t.IsWordlike) : t.kind = .ofWord t.text := by
  unfold withTrailing at hcut
  split at hcut
  next => simp at hcut
  next kind m hscan =>
    split at hcut
    next => simp at hcut
    next =>
      obtain ⟨rfl, -⟩ := Prod.mk.inj (Except.ok.inj hcut)
      exact (Lexeme.scanned_of_scan hscan).kind_eq hword.1 hword.2

theorem cut_kind_eq {limit skip : Nat} {p : Position} {s : Text} {taken : Cut s} (hcut : cut limit skip p s = .ok taken) :
    match taken with
    | .last t | .more t .. => t.IsWordlike → t.kind = .ofWord t.text := by
  unfold cut at hcut
  split at hcut
  next => simp at hcut
  next =>
    dsimp only at hcut
    split at hcut
    next =>
      cases Except.ok.inj hcut
      exact fun hword => absurd hword.2 (by simp)
    next =>
      split at hcut
      next => simp at hcut
      next t m htoken =>
        cases Except.ok.inj hcut
        exact withTrailing_kind_eq htoken

/-- All tokens of a source that are spelled like words have the kind of these words. -/
theorem streamFrom_kind_eq {limit skip : Nat} {done : List Token} {p : Position} {s : Text} {tokens : List Token}
    (hstream : streamFrom limit skip done p s = .ok tokens) (hdone : ∀ t ∈ done, t.IsWordlike → t.kind = .ofWord t.text) :
    ∀ t ∈ tokens, t.IsWordlike → t.kind = .ofWord t.text := by
  fun_induction streamFrom limit skip done p s with
  | case1 skip done p s e hcut => simp at hstream
  | case2 skip done p s t hcut =>
      have hfirst : t.IsWordlike → t.kind = .ofWord t.text := cut_kind_eq hcut
      obtain rfl := Except.ok.inj hstream
      intro u hu
      exact List.forall_mem_cons.mpr ⟨hfirst, hdone⟩ u (List.mem_reverse.mp hu)
  | case3 skip done p s t rest q hshorter hcut ih =>
      have hfirst : t.IsWordlike → t.kind = .ofWord t.text := cut_kind_eq hcut
      exact ih hstream (List.forall_mem_cons.mpr ⟨hfirst, hdone⟩)

end Token

/-- No piece of an operator is spelled like a word. -/
theorem Grammar.Cuts.eq_of_isWordlike {t : Token} {pieces : List Token} (hcuts : Grammar.Cuts t pieces)
    (hoperator : t.kind = .operator → t.text.length ≤ 1 ∨ ∀ c ∈ t.text, Lexeme.isOperatorChar c = true) {piece : Token}
    (hmem : piece ∈ pieces) (hword : piece.IsWordlike) : piece = t := by
  obtain rfl | ⟨hkind, -⟩ := hcuts.eq_or_operator
  · exact List.mem_singleton.mp hmem
  · obtain hshort | hchars := hoperator hkind
    · rw [hcuts.eq_whole hshort] at hmem
      exact List.mem_singleton.mp hmem
    · obtain ⟨c, rest, htext⟩ := List.exists_cons_of_length_pos (Nat.lt_of_lt_of_le Nat.two_pos hword.2)
      have hletter : c.isAlpha = true := by simpa [htext, Text.startsWith] using hword.1
      have hc : c ∈ t.text := by
        rw [← hcuts.isPieces.text]
        exact List.mem_flatMap.mpr ⟨piece, hmem, by simp [htext]⟩
      have hother := hchars c hc
      rw [Lexeme.isOperatorChar_of_isAlpha hletter] at hother
      simp at hother

/-- A leaf of a source's tree that is spelled like a word has the kind of words with this spelling. -/
theorem Tree.kind_eq_of_ofSource {limits : Limits} {source : Text} {t : Tree} (hread : Tree.ofSource limits source = .ok t)
    {token : Token} (hmem : token ∈ t.leaves) (hword : token.IsWordlike) : token.kind = .ofWord token.text := by
  obtain ⟨tokens, hstream, hparse⟩ := Tree.ofSource_eq_ok hread
  have hrefines := Grammar.refines_leaves_of_ofTokens hparse
  rw [Token.throughEnd_terminated_of_stream hstream] at hrefines
  obtain ⟨whole, hwhole, pieces, hcuts, hpiece⟩ := hrefines.exists_cuts hmem
  have hoperator : whole.kind = .operator → whole.text.length ≤ 1 ∨ ∀ c ∈ whole.text, Lexeme.isOperatorChar c = true := by
    obtain ⟨front, last, rfl, hlast, hfront, -⟩ := Token.stream_covers hstream
    intro hkind
    rcases List.mem_append.mp hwhole with hwhole | hwhole
    · exact (hfront whole hwhole).operator hkind
    · rw [List.mem_singleton.mp hwhole, hlast] at hkind
      simp at hkind
  obtain rfl := hcuts.eq_of_isWordlike hoperator hpiece hword
  exact Token.streamFrom_kind_eq hstream (by simp) token hwhole hword

end SwiftObservation
