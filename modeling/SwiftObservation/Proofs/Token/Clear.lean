import SwiftObservation.Proofs.Grammar.Lossless
import SwiftObservation.Proofs.Token.Comments

/-!
# Tokens that stand clear of comments

`Clear` threads what is asked of leading trivia through a list of tokens: behind a token whose trailing trivia ends in a
line comment a line break has to come first. Lists of tokens that stand clear can be joined, and a change to the trivia at
one end of a list is no matter to the rest. In a source the tokens stand clear, and each one but the first has fresh
leading trivia.
-/

namespace SwiftObservation

namespace Token

variable {strict lead lead' middle : Lead} {t : Token} {tokens front back : List Token} {text : Text}

/-- The trivia of the token keeps comments away from code, where `lead` is asked in front of it and at most `behind` behind
it. -/
structure IsClear (lead : Lead) (t : Token) (behind : Lead) : Prop where
  admits : lead.Admits t.leading
  leading : Trivia.Closed t.leading
  trailing : Trivia.Whole t.trailing
  behind_le : Lead.behind t.trailing ≤ behind

/-- The tokens keep comments away from code, where `lead` is asked in front of the first one and at most `behind` behind the
last one. Between them at least `strict` is asked. -/
inductive Clear (strict : Lead) : (lead : Lead) → List Token → (behind : Lead) → Prop where
  | nil {lead behind : Lead} (le : lead ≤ behind) : Clear strict lead [] behind
  | cons {lead middle behind : Lead} {t : Token} {rest : List Token} (here : t.IsClear lead middle)
      (strict_le : strict ≤ middle) (there : Clear strict middle rest behind) : Clear strict lead (t :: rest) behind

theorem IsClear.mono (ht : t.IsClear lead middle) {lead₁ middle₁ : Lead} (hlead : lead₁ ≤ lead) (hmiddle : middle ≤ middle₁) :
    t.IsClear lead₁ middle₁ where
  admits := hlead _ ht.admits
  leading := ht.leading
  trailing := ht.trailing
  behind_le := ht.behind_le.trans hmiddle

theorem Clear.mono (htokens : Clear strict lead tokens lead') {lead₁ lead₁' : Lead} (hlead : lead₁ ≤ lead)
    (hbehind : lead' ≤ lead₁') : Clear strict lead₁ tokens lead₁' := by
  induction htokens generalizing lead₁ with
  | nil hle => exact .nil (hlead.trans (hle.trans hbehind))
  | cons here hstrict _ ih => exact .cons (here.mono hlead le_rfl) hstrict (ih le_rfl hbehind)

theorem Clear.weaken (htokens : Clear strict lead tokens lead') : Clear .any lead tokens lead' := by
  induction htokens with
  | nil hle => exact .nil hle
  | cons here _ _ ih => exact .cons here (Lead.any_le _) ih

theorem clear_append : Clear strict lead (front ++ back) lead' ↔
    ∃ middle, Clear strict lead front middle ∧ Clear strict middle back lead' := by
  constructor
  · intro hall
    induction front generalizing lead with
    | nil => exact ⟨lead, .nil le_rfl, hall⟩
    | cons t rest ih =>
        cases hall with
        | cons here hstrict there =>
            obtain ⟨middle, hrest, hback⟩ := ih there
            exact ⟨middle, .cons here hstrict hrest, hback⟩
  · rintro ⟨middle, hfront, hback⟩
    induction hfront with
    | nil hle => exact hback.mono hle le_rfl
    | cons here hstrict _ ih => exact .cons here hstrict (ih hback)

theorem Clear.le_of_ne_nil (htokens : Clear strict lead tokens lead') (hne : tokens ≠ []) : strict ≤ lead' := by
  induction htokens with
  | nil => exact absurd rfl hne
  | @cons _ _ _ _ rest _ hstrict there ih =>
      cases rest with
      | nil =>
          cases there with
          | nil hle => exact hstrict.trans hle
      | cons _ _ => exact ih (by simp)

/-! ### Changes to trivia -/

/-- The trivia around a token. -/
def trivia (t : Token) : Text × Text := (t.leading, t.trailing)

/-- Only trivia matters. -/
theorem Clear.congr {tokens' : List Token} (htokens : Clear strict lead tokens lead')
    (hsame : tokens'.map trivia = tokens.map trivia) : Clear strict lead tokens' lead' := by
  induction htokens generalizing tokens' with
  | nil hle =>
      obtain rfl := List.map_eq_nil_iff.mp hsame
      exact .nil hle
  | cons here hstrict _ ih =>
      obtain ⟨t', rest', rfl, hfirst, hrest⟩ := List.map_eq_cons_iff.mp hsame
      obtain ⟨hleading, htrailing⟩ := Prod.mk.inj hfirst
      refine .cons ⟨?_, ?_, ?_, ?_⟩ hstrict (ih hrest)
      · rw [hleading]
        exact here.admits
      · rw [hleading]
        exact here.leading
      · rw [htrailing]
        exact here.trailing
      · rw [htrailing]
        exact here.behind_le

theorem Clear.withLeading (htokens : Clear strict lead (t :: tokens) lead') (hadmits : middle.Admits text)
    (hclosed : Trivia.Closed text) : Clear strict middle ({ t with leading := text } :: tokens) lead' := by
  cases htokens with
  | cons here hstrict there => exact .cons ⟨hadmits, hclosed, here.trailing, here.behind_le⟩ hstrict there

theorem clear_concat : Clear .any lead (front ++ [t]) lead' ↔ ∃ middle, Clear .any lead front middle ∧ t.IsClear middle lead' := by
  rw [clear_append]
  constructor
  · rintro ⟨middle, hfront, hlast⟩
    cases hlast with
    | cons here _ there =>
        cases there with
        | nil hle => exact ⟨middle, hfront, here.mono le_rfl hle⟩
  · rintro ⟨middle, hfront, hlast⟩
    exact ⟨middle, hfront, .cons hlast (Lead.any_le _) (.nil le_rfl)⟩

theorem Clear.withTrailing (htokens : Clear .any lead (front ++ [t]) lead') (hwhole : Trivia.Whole text)
    (hbehind : Lead.behind text ≤ middle) : Clear .any lead (front ++ [{ t with trailing := text }]) middle := by
  obtain ⟨before, hfront, hlast⟩ := clear_concat.mp htokens
  exact clear_concat.mpr ⟨before, hfront, hlast.admits, hlast.leading, hwhole, hbehind⟩

/-- Behind a token only comments matter. -/
theorem Clear.loosen_behind (htokens : Clear .any lead tokens lead') (hne : tokens ≠ []) :
    Clear .any lead tokens lead'.loosen := by
  obtain ⟨front, t, rfl⟩ := List.eq_nil_or_concat tokens |>.resolve_left hne
  rw [List.concat_eq_append, clear_concat] at *
  obtain ⟨middle, hfront, hlast⟩ := htokens
  exact ⟨middle, hfront, hlast.admits, hlast.leading, hlast.trailing, Lead.behind_le_loosen hlast.behind_le⟩

/-- A demand that is only a comment's is only that behind the tokens, too. -/
theorem Clear.loosen (htokens : Clear .any lead tokens lead') : Clear .any lead.loosen tokens lead'.loosen := by
  cases tokens with
  | nil =>
      cases htokens with
      | nil hle => exact .nil (Lead.loosen_mono hle)
  | cons t rest => exact (htokens.loosen_behind (by simp)).mono lead.loosen_le le_rfl

/-! ### Tokens of a source -/

/-- Between two tokens of a source the line of the first one is over, or nothing but its own trivia is left of it. -/
theorem Streams.clear {limit skip : Nat} {p : Position} {s : Text} (hstreams : Streams limit skip p s tokens)
    (hskip : Trivia.Closed (s.take skip))
    (hlead : ∀ n c rest, Trivia.leadingLength (s.drop skip) = .ok n → s.drop (skip + n) = c :: rest →
      lead.Admits (s.take (skip + n))) :
    Clear .fresh lead tokens.dropLast .broken := by
  induction hstreams generalizing lead with
  | last => exact .nil (Lead.le_broken _)
  | @more skip n k m p s rest c kind tokens hleading hbegins hscan htrailing hbehind ih =>
      have hsome : tokens ≠ [] := by cases hbehind <;> simp
      have hends := Trivia.endsAt_of_trailingLength htrailing
      have hclear {middle : Lead} (hmiddle : Lead.behind ((rest.drop k).take m) ≤ middle) :
          IsClear lead { kind, text := c :: rest.take k, leading := s.take (skip + n), trailing := (rest.drop k).take m,
                         position := p.advance (skip + n) s } middle :=
        ⟨hlead n c rest hleading hbegins, Trivia.closed_of_leadingLength hskip hleading hbegins, hends.whole, hmiddle⟩
      rw [List.dropLast_cons_of_ne_nil hsome]
      rw [← List.drop_drop] at ih
      rcases hends with hclosed | ⟨-, hstops⟩
      · refine .cons (hclear (hclosed.behind_le .fresh)) le_rfl (ih Trivia.closed_nil fun n' _ _ hleading' _ => ?_)
        rw [Nat.zero_add]
        exact Trivia.fresh_of_trailingLength htrailing hleading'
      · refine .cons (hclear (Lead.le_broken _)) (Lead.le_broken _) (ih Trivia.closed_nil fun n' c' rest' hleading' hbegins' => ?_)
        rw [Nat.zero_add] at hbegins' ⊢
        refine Trivia.broken_of_leadingLength hstops hleading' fun hnil => ?_
        rw [hnil, List.drop_nil] at hbegins'
        cases hbegins'

/-- The tokens of a source, the end of the file apart, keep comments away from code. -/
theorem clear_of_stream {limit : Nat} {source : Text} (hstream : stream limit source = .ok tokens) :
    Clear .fresh .any tokens.dropLast .broken := by
  apply (stream_eq_ok_iff.mp hstream).clear
  · unfold markLength
    split
    next hmark =>
      obtain ⟨rest, rfl⟩ := List.head?_eq_some_iff.mp (beq_iff_eq.mp hmark)
      rfl
    next => exact Trivia.closed_nil
  · exact fun _ _ _ _ _ => trivial

/-- The last token of a source has no text. -/
theorem Streams.text_last {limit skip : Nat} {p : Position} {s : Text} (hstreams : Streams limit skip p s (tokens ++ [t])) :
    t.text = [] := by
  generalize hall : tokens ++ [t] = all at hstreams
  induction hstreams generalizing tokens with
  | last =>
      obtain rfl : tokens = [] := by simpa using congrArg List.length hall
      obtain rfl := List.singleton_inj.mp hall
      rfl
  | @more _ _ _ _ _ _ _ _ _ rest _ _ _ _ hbehind ih =>
      cases tokens with
      | nil =>
          obtain rfl : [] = rest := (List.cons.inj hall).2
          cases hbehind
      | cons first tokens => exact ih (List.cons.inj hall).2

/-- The pieces of an operator stand clear as the operator does: none has trivia where it was cut. -/
theorem IsClear.cuts {pieces : List Token} (hcuts : Grammar.Cuts t pieces) (ht : t.IsClear lead middle)
    (hfresh : .fresh ≤ middle) : Clear .fresh lead pieces middle := by
  induction hcuts generalizing lead with
  | whole t => exact .cons ht hfresh (.nil le_rfl)
  | split _ _ _ _ ih =>
      refine .cons ⟨ht.admits, ht.leading, Trivia.closed_nil.whole, Trivia.closed_nil.behind_le .fresh⟩ le_rfl (ih ?_)
      exact ⟨.inl rfl, Trivia.closed_nil, ht.trailing, ht.behind_le⟩

theorem Clear.refines {tokens' : List Token} (htokens : Clear .fresh lead tokens lead')
    (hrefines : Grammar.Refines tokens tokens') : Clear .fresh lead tokens' lead' := by
  induction hrefines generalizing lead with
  | nil => exact htokens
  | cons hcuts _ ih =>
      cases htokens with
      | cons here hstrict there => exact clear_append.mpr ⟨_, here.cuts hcuts hstrict, ih there⟩

end Token

/-- The leaves of a source's tree stand clear of comments, the end of the file apart. -/
theorem Tree.clear_of_ofSource {limits : Limits} {source : Text} {t : Tree} (hread : Tree.ofSource limits source = .ok t) :
    ∃ items ending, t = .node .sourceFile (items ++ [.leaf ending]) ∧ ending.kind = .endOfFile ∧ ending.text = [] ∧
      Token.Clear .fresh .any (Tree.leavesOf items) .broken := by
  obtain ⟨tokens, hstream, hparse⟩ := Tree.ofSource_eq_ok hread
  obtain ⟨items, rfl, hrefines⟩ := Grammar.ofTokens_eq hparse
  have htokens : tokens = (Grammar.Cursor.ofTokens tokens).upcoming ++ [(Grammar.Cursor.ofTokens tokens).ending] := by
    rw [← Grammar.throughEnd_terminated, Token.throughEnd_terminated_of_stream hstream]
  have hstreams := Token.stream_eq_ok_iff.mp hstream
  have hclear := Token.clear_of_stream hstream
  rw [htokens] at hstreams
  rw [htokens, List.dropLast_concat] at hclear
  exact ⟨items, _, rfl, (Grammar.Cursor.sound_ofTokens tokens).ending, hstreams.text_last, hclear.refines hrefines⟩

end SwiftObservation
