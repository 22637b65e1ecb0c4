import SwiftObservation.Proofs.Migration.Recognition
import SwiftObservation.Proofs.Migration.Remainder
import SwiftObservation.Proofs.Token.Clear
import SwiftObservation.Proofs.Tree.Edge

/-!
# Trees that stand clear of comments

A tree stands clear of comments if its leaves do, and so do trees in a row. Between the trees of a row more may be asked
than inside of them: `ClearAll .fresh` says that each tree but the first begins with fresh trivia, which is what allows
the trivia of a removed tree to move to the next one. The rules that change a text, that replace an attribute and that
remove attributes keep trees clear.
-/

namespace SwiftObservation

open SwiftObservation.Tree

namespace Tree

variable {strict lead behind middle : Lead} {t : Tree} {label : Label} {trees front back : List Tree} {text : Text}

/-- The leaves of the tree stand clear of comments. -/
def Clear (lead : Lead) (t : Tree) (behind : Lead) : Prop := Token.Clear .any lead t.leaves behind

/-- The trees stand clear of comments one behind the other, with at least `strict` asked behind each of them. -/
def ClearAll (strict : Lead) : Lead → List Tree → Lead → Prop
  | lead, [], behind => lead ≤ behind
  | lead, t :: rest, behind => ∃ middle, strict ≤ middle ∧ t.Clear lead middle ∧ ClearAll strict middle rest behind

theorem Clear.mono (ht : t.Clear lead behind) {lead₁ behind₁ : Lead} (hlead : lead₁ ≤ lead) (hbehind : behind ≤ behind₁) :
    t.Clear lead₁ behind₁ := Token.Clear.mono ht hlead hbehind

theorem ClearAll.mono (htrees : ClearAll strict lead trees behind) {lead₁ behind₁ : Lead} (hlead : lead₁ ≤ lead)
    (hbehind : behind ≤ behind₁) : ClearAll strict lead₁ trees behind₁ := by
  induction trees generalizing lead lead₁ with
  | nil => exact hlead.trans (le_trans htrees hbehind)
  | cons t rest ih =>
      obtain ⟨middle, hstrict, ht, hrest⟩ := htrees
      exact ⟨middle, hstrict, ht.mono hlead le_rfl, ih hrest le_rfl⟩

theorem ClearAll.weaken (htrees : ClearAll strict lead trees behind) : ClearAll .any lead trees behind := by
  induction trees generalizing lead with
  | nil => exact htrees
  | cons t rest ih =>
      obtain ⟨middle, -, ht, hrest⟩ := htrees
      exact ⟨middle, Lead.any_le _, ht, ih hrest⟩

theorem clearAll_append : ClearAll strict lead (front ++ back) behind ↔
    ∃ middle, ClearAll strict lead front middle ∧ ClearAll strict middle back behind := by
  induction front generalizing lead with
  | nil => exact ⟨fun hback => ⟨lead, le_rfl, hback⟩, fun ⟨_, hle, hback⟩ => hback.mono hle le_rfl⟩
  | cons t rest ih =>
      constructor
      · rintro ⟨m, hstrict, ht, hrest⟩
        obtain ⟨middle, hrest, hback⟩ := ih.mp hrest
        exact ⟨middle, ⟨m, hstrict, ht, hrest⟩, hback⟩
      · rintro ⟨middle, ⟨m, hstrict, ht, hrest⟩, hback⟩
        exact ⟨m, hstrict, ht, ih.mpr ⟨middle, hrest, hback⟩⟩

/-- Nothing more is asked between trees than between tokens. -/
theorem clearAll_iff : ClearAll .any lead trees behind ↔ Token.Clear .any lead (leavesOf trees) behind := by
  induction trees generalizing lead with
  | nil =>
      refine ⟨.nil, fun htokens => ?_⟩
      cases htokens with
      | nil hle => exact hle
  | cons t rest ih =>
      rw [leavesOf, Token.clear_append]
      constructor
      · rintro ⟨middle, -, ht, hrest⟩
        exact ⟨middle, ht, ih.mp hrest⟩
      · rintro ⟨middle, ht, hrest⟩
        exact ⟨middle, Lead.any_le _, ht, ih.mpr hrest⟩

theorem clear_node : (node label trees).Clear lead behind ↔ ClearAll .any lead trees behind := clearAll_iff.symm

theorem clearAll_singleton : ClearAll .any lead [t] behind ↔ t.Clear lead behind := by
  rw [clearAll_iff, leavesOf, leavesOf, List.append_nil]
  rfl

/-- Only trivia matters. -/
theorem Clear.congr {t' : Tree} (ht : t.Clear lead behind)
    (hsame : t'.leaves.map Token.trivia = t.leaves.map Token.trivia) : t'.Clear lead behind := Token.Clear.congr ht hsame

/-! ### Trivia at the edges -/

/-- The trivia behind a tree that has a token. -/
theorem Clear.trailing_last (ht : t.Clear lead behind) (hleaves : t.leaves ≠ []) :
    Trivia.Whole ((t.last?.map (·.trailing)).getD []) ∧ Lead.behind ((t.last?.map (·.trailing)).getD []) ≤ behind := by
  obtain ⟨front, token, heq⟩ := t.leaves.eq_nil_or_concat.resolve_left hleaves
  rw [Clear, heq, List.concat_eq_append, Token.clear_concat] at ht
  obtain ⟨middle, -, hlast⟩ := ht
  rw [last?_eq, heq, List.concat_eq_append, List.getLast?_concat]
  exact ⟨hlast.trailing, hlast.behind_le⟩

/-- The trivia in front of a tree that has a token. -/
theorem Clear.leading_first (ht : t.Clear lead behind) (hleaves : t.leaves ≠ []) :
    lead.Admits ((t.first?.map (·.leading)).getD []) ∧ Trivia.Closed ((t.first?.map (·.leading)).getD []) := by
  obtain ⟨token, rest, heq⟩ := List.exists_cons_of_ne_nil hleaves
  rw [Clear, heq] at ht
  rw [first?_eq, heq]
  cases ht with
  | cons here _ _ => exact ⟨here.admits, here.leading⟩

/-- Behind a tree that has a token only comments matter. -/
theorem Clear.loosen_behind (ht : t.Clear lead behind) (hleaves : t.leaves ≠ []) : t.Clear lead behind.loosen :=
  Token.Clear.loosen_behind ht hleaves

theorem Clear.mapLast_trailing (ht : t.Clear lead behind) (hleaves : t.leaves ≠ []) (hwhole : Trivia.Whole text)
    (hbehind : Lead.behind text ≤ middle) : (t.mapLast ({ · with trailing := text })).Clear lead middle := by
  obtain ⟨token, front, heq, hchanged⟩ := leaves_mapLast (f := ({ · with trailing := text })) hleaves
  rw [Clear, heq] at ht
  rw [Clear, hchanged]
  exact ht.withTrailing hwhole hbehind

end Tree

namespace Migration

variable {strict lead behind middle : Lead} {t bound : Tree} {label : Label} {trees : List Tree} {text : Text}

/-! ### Rules that change a text -/

theorem trivia_rename (text : Text) (t : Tree) :
    (rename text t).leaves.map Token.trivia = t.leaves.map Token.trivia := by
  unfold rename
  split <;> rfl

theorem clear_rename (ht : t.Clear lead behind) (text : Text) : (rename text t).Clear lead behind :=
  ht.congr (trivia_rename text t)

/-- An attribute that is erased keeps the trivia in front of it. -/
theorem clear_migrateAttribute (ht : t.Clear lead behind) : (migrateAttribute t).Clear lead behind := by
  unfold migrateAttribute
  split
  next sign name rest hchildren =>
    obtain ⟨label, rfl⟩ : ∃ label, t = .node label (sign :: name :: rest) := by
      cases t with
      | node label children => exact ⟨label, by rw [← hchildren]; rfl⟩
      | _ => cases hchildren
    rw [clear_node] at ht
    obtain ⟨middle, -, hsign, middle', -, hname, hrest⟩ := ht
    split
    next =>
      rw [clear_node]
      exact ⟨middle, Lead.any_le _, hsign, middle', Lead.any_le _, clear_rename hname _, hrest⟩
    next =>
      split
      next =>
        split
        next token =>
          cases hsign with
          | cons here _ _ =>
              exact .cons ⟨here.admits, here.leading, Trivia.closed_nil.whole, Trivia.closed_nil.behind_le .any⟩ le_rfl
                (.nil (Lead.any_le _))
        next => exact clear_node.mpr ⟨middle, Lead.any_le _, hsign, middle', Lead.any_le _, hname, hrest⟩
      next => exact clear_node.mpr ⟨middle, Lead.any_le _, hsign, middle', Lead.any_le _, hname, hrest⟩
  next => exact ht

theorem trivia_leavesOf_map {f : Tree → Tree} (hf : ∀ t, (f t).leaves.map Token.trivia = t.leaves.map Token.trivia)
    (trees : List Tree) : (leavesOf (trees.map f)).map Token.trivia = (leavesOf trees).map Token.trivia := by
  induction trees with
  | nil => rfl
  | cons t rest ih => rw [List.map_cons, leavesOf, leavesOf, List.map_append, List.map_append, hf, ih]

theorem trivia_migrateCall (t : Tree) : (migrateCall t).leaves.map Token.trivia = t.leaves.map Token.trivia := by
  unfold migrateCall
  split
  next label callee args rest =>
    split
    next =>
      have hargs : ∀ arg, (if isWrappedValue arg then rename initialValueLabel arg else arg).leaves.map Token.trivia =
          arg.leaves.map Token.trivia := by
        intro arg
        split
        · exact trivia_rename _ _
        · rfl
      simp only [leaves, leavesOf, List.map_append, trivia_leavesOf_map hargs]
      rfl
    next => rfl
  next => rfl

theorem trivia_migrateMember (t : Tree) : (migrateMember t).leaves.map Token.trivia = t.leaves.map Token.trivia := by
  unfold migrateMember
  split
  next label receiver dot name =>
    split
    · simp only [leaves, leavesOf, List.map_append]
      rfl
    · rfl
  next => rfl

/-! ### Objects from the environment -/

theorem clear_leaf {token : Token} : (Tree.leaf token).Clear lead behind ↔ token.IsClear lead behind := by
  have hconcat : Token.Clear .any lead ([] ++ [token]) behind ↔ _ := Token.clear_concat
  constructor
  · intro htoken
    obtain ⟨middle, hnil, hclear⟩ := hconcat.mp htoken
    cases hnil with
    | nil hle => exact hclear.mono hle le_rfl
  · exact fun htoken => hconcat.mpr ⟨lead, .nil le_rfl, htoken⟩

theorem clear_mark (kind : TokenKind) (text : Text) {trailing : Text} (hwhole : Trivia.Whole trailing)
    (hbehind : Lead.behind trailing ≤ behind) : (mark kind text trailing).Clear .any behind :=
  clear_leaf.mpr ⟨trivial, Trivia.closed_nil, hwhole, hbehind⟩

/-- A type without the trivia around it stands clear wherever no line break has to come first. -/
theorem clear_typeReference (hbound : bound.Clear lead behind) : (typeReference bound).Clear .any .any := by
  by_cases hleaves : bound.leaves = []
  · obtain ⟨hfirst, -⟩ | ⟨_, _, _, -, hsome, -⟩ := mapFirst?_cases ({ · with leading := [] }) bound
    · obtain ⟨hlast, -⟩ | ⟨_, _, _, -, hsome, -⟩ := mapLast?_cases ({ · with trailing := [] }) bound
      · rw [typeReference, mapFirst, hfirst, Option.getD_none, mapLast, hlast, Option.getD_none, Clear, hleaves]
        exact .nil le_rfl
      · rw [hleaves] at hsome
        simp at hsome
    · rw [hleaves] at hsome
      cases hsome
  · obtain ⟨token, rest, heq, hchanged⟩ := leaves_mapFirst (f := ({ · with leading := [] })) hleaves
    rw [Clear, heq] at hbound
    have hbare : (bound.mapFirst ({ · with leading := [] })).Clear .any behind := by
      rw [Clear, hchanged]
      exact hbound.withLeading trivial Trivia.closed_nil
    exact hbare.mapLast_trailing (by rw [hchanged]; simp) Trivia.closed_nil.whole (Trivia.closed_nil.behind_le .any)

theorem clear_lookupArguments {lead' behind' : Lead} (hbound : bound.Clear lead' behind') {trailing : Text}
    (hwhole : Trivia.Whole trailing) (hbehind : Lead.behind trailing ≤ behind) :
    (lookupArguments bound trailing).Clear .any behind := by
  have hnothing (kind : TokenKind) (text : Text) : (mark kind text []).Clear .any .any :=
    clear_mark kind text Trivia.closed_nil.whole (Trivia.closed_nil.behind_le .any)
  simp only [lookupArguments, clear_node]
  refine ⟨.any, le_rfl, hnothing _ _, .any, le_rfl, ?_, behind, Lead.any_le _, clear_mark _ _ hwhole hbehind, le_rfl⟩
  simp only [clear_node, clearAll_singleton]
  exact ⟨.any, le_rfl, clear_typeReference hbound, .any, le_rfl, hnothing _ _, .any, le_rfl, hnothing _ _, le_rfl⟩

/-- The successor of a wrapper has the wrapper's trivia around it, and the type that it looks up has none. -/
theorem clear_environmentAttribute {lead' behind' : Lead} (hbound : bound.Clear lead' behind') {name : Text}
    (hnamed : isNamed name t = true) (ht : t.Clear lead behind) : (environmentAttribute bound t).Clear lead behind := by
  unfold environmentAttribute
  split
  next sign wrapper hchildren =>
    obtain ⟨label, rfl⟩ : ∃ label, t = .node label [sign, wrapper] := by
      cases t with
      | node label children => exact ⟨label, by rw [← hchildren]; rfl⟩
      | _ => cases hchildren
    obtain ⟨_, token, _, hparts, -⟩ := exists_of_isNamed hnamed
    obtain rfl : wrapper = .node .typeIdentifier [.leaf token] := (List.cons.inj (List.cons.inj hparts).2).1
    rw [clear_node] at ht
    obtain ⟨middle, -, hsign, middle', -, hname, hle⟩ := ht
    rw [clear_node, clearAll_singleton, clear_leaf] at hname
    refine clear_node.mpr ⟨middle, Lead.any_le _, hsign, .any, le_rfl, ?_, behind, Lead.any_le _, ?_, le_rfl⟩
    · exact clear_node.mpr (clearAll_singleton.mpr (clear_leaf.mpr
        ⟨hname.admits, hname.leading, Trivia.closed_nil.whole, Trivia.closed_nil.behind_le .any⟩))
    · exact clear_lookupArguments hbound hname.trailing (hname.behind_le.trans hle)
  next => exact ht

/-- A binding that loses its type clause has the trivia behind the clause behind its pattern. -/
theorem clear_dropTypeClause {pattern clause : Tree} (hpattern : pattern.leaves ≠ []) (hclause : clause.leaves ≠ [])
    (hother : pattern.is .typeClause = false) (hlabel : clause.is .typeClause = true)
    (ht : (Tree.node label (pattern :: clause :: trees)).Clear lead behind) :
    (dropTypeClause (.node label (pattern :: clause :: trees))).Clear lead behind := by
  have hfound : (Tree.node label (pattern :: clause :: trees)).child? .typeClause = some clause := by
    simp [child?, Tree.children, hother, hlabel]
  rw [clear_node] at ht
  obtain ⟨middle, -, hfirst, middle', -, hsecond, hrest⟩ := ht
  obtain ⟨hwhole, hbehind⟩ := hsecond.trailing_last hclause
  have herased : (clause :: trees).eraseP (·.is .typeClause) = trees := List.eraseP_cons_of_pos hlabel
  simp only [dropTypeClause, hfound, herased]
  exact clear_node.mpr ⟨_, Lead.any_le _, hfirst.mapLast_trailing hpattern hwhole hbehind, hrest⟩

/-- A change to the first tree of a class that keeps it clear keeps the row clear. -/
theorem clearAll_updateFirst {p : Tree → Bool} {f : Tree → Tree}
    (hf : ∀ t ∈ trees.find? p, ∀ lead behind, t.Clear lead behind → (f t).Clear lead behind)
    (htrees : ClearAll strict lead trees behind) : ClearAll strict lead (updateFirst p f trees) behind := by
  induction trees generalizing lead with
  | nil => exact htrees
  | cons t rest ih =>
      obtain ⟨middle, hstrict, ht, hrest⟩ := htrees
      rw [updateFirst]
      split
      next hp => exact ⟨middle, hstrict, hf t (by simp [hp]) _ _ ht, hrest⟩
      next hp =>
        refine ⟨middle, hstrict, ht, ih (fun s hs => hf s ?_) hrest⟩
        rwa [List.find?_cons_of_neg hp]

/-! ### Attributes that go -/

/-- What is carried to the next token, where `lead` is asked in front of it and the next token meets `middle`. -/
def Carries (lead : Lead) : Option Text → (middle : Lead) → Prop
  | none, middle => lead ≤ middle
  | some text, middle => Trivia.Whole text ∧ lead.Admits text ∧ Lead.behind text ≤ middle ∧ .fresh ≤ middle

theorem Carries.mono {carried : Option Text} (hcarried : Carries lead carried middle) {middle₁ : Lead}
    (hmiddle : middle ≤ middle₁) : Carries lead carried middle₁ := by
  cases carried with
  | none => exact le_trans hcarried hmiddle
  | some text =>
      obtain ⟨hwhole, hadmits, hbehind, hfresh⟩ := hcarried
      exact ⟨hwhole, hadmits, hbehind.trans hmiddle, hfresh.trans hmiddle⟩

theorem clear_deliver {carried : Option Text} (hcarried : Carries lead carried middle) (hleaves : leavesOf trees ≠ [])
    (htrees : ClearAll .any middle trees behind) : ClearAll .any lead (deliver carried trees) behind := by
  cases carried with
  | none => exact htrees.mono hcarried le_rfl
  | some text =>
      obtain ⟨hwhole, hadmits, hbehind, hfresh⟩ := hcarried
      obtain ⟨token, rest, heq, hchanged⟩ := leavesOf_mapFirstOf? (f := takeUp text) hleaves
      rw [clearAll_iff, heq] at htrees
      rw [clearAll_iff, deliver, hchanged]
      obtain ⟨here, hstarts⟩ : (∃ last, token.IsClear middle last) ∧ Lead.fresh.Admits token.leading := by
        cases htrees with
        | cons here _ _ => exact ⟨⟨_, here⟩, hfresh _ here.admits⟩
      obtain ⟨_, here⟩ := here
      refine htrees.withLeading (Trivia.admits_mergeLeading hadmits hstarts) ?_
      exact Trivia.closed_mergeLeading hwhole here.leading hstarts (hbehind _ here.admits)

theorem leavesOf_deliver (carried : Option Text) (hleaves : leavesOf trees ≠ []) : leavesOf (deliver carried trees) ≠ [] := by
  cases carried with
  | none => exact hleaves
  | some text =>
      obtain ⟨token, rest, -, hchanged⟩ := leavesOf_mapFirstOf? (f := takeUp text) hleaves
      rw [deliver, hchanged]
      simp

/-- The comments behind a removed tree join what stands in front of it. They come first on a line only if no fresh line is
asked for. -/
theorem carries_append (hclosed : Trivia.Closed text) (hlead : lead.Admits text) (hleaves : t.leaves ≠ [])
    (ht : t.Clear middle behind) (hfresh : .fresh ≤ behind)
    (hquiet : lead = .fresh → (t.last?.map (·.trailing)).getD [] = []) :
    Carries lead (some (text ++ ((t.last?.map (·.trailing)).getD []).dropWhile Text.isBlank)) behind := by
  obtain ⟨hwhole, hbehind⟩ := ht.trailing_last hleaves
  obtain ⟨hcut, hsame⟩ := hwhole.dropWhile_isBlank
  refine ⟨hclosed.append_whole hcut, ?_, ?_, hfresh⟩
  · cases lead with
    | any => trivial
    | broken => exact Trivia.broken_append hlead
    | fresh =>
        rw [hquiet rfl, List.dropWhile_nil, List.append_nil]
        exact hlead
  · rw [hclosed.behind_append hcut, hsame]
    exact hbehind

theorem Carries.carry {carried : Option Text} (hcarried : Carries lead carried middle) (hleaves : t.leaves ≠ [])
    (ht : t.Clear middle behind) (hfresh : .fresh ≤ behind)
    (hquiet : lead = .fresh → (t.last?.map (·.trailing)).getD [] = []) : Carries lead (some (carry carried t)) behind := by
  obtain ⟨hadmits, hclosed⟩ := ht.leading_first hleaves
  cases carried with
  | none => exact carries_append hclosed (hcarried _ hadmits) hleaves ht hfresh hquiet
  | some earlier =>
      obtain ⟨hearlier, hlead, hle, hstarts⟩ := hcarried
      have hstarts := hstarts _ hadmits
      exact carries_append (Trivia.closed_mergeLeading hearlier hclosed hstarts (hle _ hadmits))
        (Trivia.admits_mergeLeading hlead hstarts) hleaves ht hfresh hquiet

/-- The attributes that stay and what follows them, where the removed ones have left their trivia to carry. If fresh lines
are asked for behind the attributes that stay, the removed ones must have no trivia behind them. -/
theorem clear_dropFrom (doomed : Tree → Bool) {attrs rest : List Tree} {carried : Option Text} {last : Lead}
    (hleaves : ∀ t ∈ attrs, t.leaves ≠ []) (hrest : leavesOf rest ≠ []) (hcarried : Carries lead carried middle)
    (hattrs : ClearAll .fresh middle attrs last) (hbehind : ClearAll .any last rest behind)
    (hstrict : strict = .fresh ∧ (∀ t ∈ attrs, doomed t = true → (t.last?.map (·.trailing)).getD [] = []) ∨
      strict = .any ∧ lead ≠ .fresh) :
    ∃ after, ClearAll strict lead (dropFrom doomed carried attrs).1 after ∧
      ClearAll .any after (deliver (dropFrom doomed carried attrs).2 rest) behind := by
  induction attrs generalizing lead middle carried with
  | nil => exact ⟨lead, le_rfl, clear_deliver (hcarried.mono hattrs) hrest hbehind⟩
  | cons t attrs ih =>
      obtain ⟨next, hfresh, ht, hattrs⟩ := hattrs
      have hmore := fun s hs => hleaves s (List.mem_cons_of_mem t hs)
      rw [dropFrom]
      split
      next hdoomed =>
        refine ih hmore (hcarried.carry (hleaves t (by simp)) ht hfresh fun hlead => ?_) hattrs ?_
        · rcases hstrict with ⟨-, hquiet⟩ | ⟨-, hother⟩
          · exact hquiet t (by simp) hdoomed
          · exact absurd hlead hother
        · exact hstrict.imp_left (And.imp_right fun hquiet s hs => hquiet s (by simp [hs]))
      next =>
        have hleaf : leavesOf [t] ≠ [] := by
          rw [leavesOf, leavesOf, List.append_nil]
          exact hleaves t (by simp)
        obtain ⟨t', hdelivered, -⟩ := deliver_singleton carried t
        have ht' := clear_deliver hcarried hleaf (clearAll_singleton.mpr ht)
        have hleaf' := leavesOf_deliver carried hleaf
        rw [hdelivered] at ht' hleaf'
        rw [clearAll_singleton] at ht'
        rw [leavesOf, leavesOf, List.append_nil] at hleaf'
        -- Where no fresh line is asked for behind the attribute, only its own comment is.
        obtain ⟨mid, hmid, hclear, hle, hstrict'⟩ : ∃ mid, strict ≤ mid ∧ t'.Clear lead mid ∧ mid ≤ next ∧
            (strict = .fresh ∧ (∀ t ∈ attrs, doomed t = true → (t.last?.map (·.trailing)).getD [] = []) ∨
              strict = .any ∧ mid ≠ .fresh) := by
          rcases hstrict with ⟨rfl, hquiet⟩ | ⟨rfl, -⟩
          · exact ⟨next, hfresh, ht', le_rfl, .inl ⟨rfl, fun s hs => hquiet s (by simp [hs])⟩⟩
          · exact ⟨next.loosen, Lead.any_le _, ht'.loosen_behind hleaf', next.loosen_le, .inr ⟨rfl, next.loosen_ne_fresh⟩⟩
        have hnone : Carries mid none next := hle
        obtain ⟨after, hkept, hlast⟩ := ih hmore hnone hattrs hstrict'
        rw [hdelivered]
        exact ⟨after, ⟨mid, hmid, hclear, hkept⟩, hlast⟩

end Migration

end SwiftObservation
