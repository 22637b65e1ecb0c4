import SwiftObservation.Grammar.Bracket
import SwiftObservation.Proofs.Grammar.Pieces
import SwiftObservation.Proofs.Grammar.Run

/-!
# What the grammar reads

A rule reads tokens: it moves them from those to come to those taken, and yields a tree whose leaves are the tokens
that it moved. `Reads c read c'` says just this of a cursor before and behind the rule, with the one freedom that
operators may be cut on the way. An attempt that is given up moves the tokens back and so reads nothing.

Every rule of the grammar reads the leaves of what it yields. The rules are taken up in the order of their definitions,
here those for single tokens and for brackets; each needs only that items and types read theirs, which follows by
induction on the nesting limit once all rules are known.
-/

namespace SwiftObservation.Grammar

/-- Only the last token is the end of the file. -/
structure Cursor.Sound (c : Cursor) : Prop where
  ending : c.ending.kind = .endOfFile
  upcoming : ∀ t ∈ c.upcoming, t.kind ≠ .endOfFile

/-- The way from `c` to `c'` reads the given tokens. -/
structure Reads (c : Cursor) (read : List Token) (c' : Cursor) : Prop where
  taken : c'.taken = read.reverse ++ c.taken
  upcoming : Refines c.upcoming (read ++ c'.upcoming)
  ending : c'.ending = c.ending

variable {c c' c'' : Cursor} {read read' : List Token}

theorem Reads.refl (c : Cursor) : Reads c [] c := ⟨rfl, .refl _, rfl⟩

theorem Reads.trans (hfirst : Reads c read c') (hsecond : Reads c' read' c'') : Reads c (read ++ read') c'' where
  taken := by rw [hsecond.taken, hfirst.taken, List.reverse_append, List.append_assoc]
  upcoming := by
    rw [List.append_assoc]
    exact hfirst.upcoming.trans ((Refines.refl read).append hsecond.upcoming)
  ending := hsecond.ending.trans hfirst.ending

theorem Reads.sound (hreads : Reads c read c') (hc : c.Sound) : c'.Sound where
  ending := hreads.ending ▸ hc.ending
  upcoming := fun t ht => hreads.upcoming.kind_ne hc.upcoming t (List.mem_append_right _ ht)

/-- The condition that a cursor remembers does not matter to what is read behind it. -/
theorem Reads.of_condition {inCondition : Bool} (hreads : Reads { c with inCondition } read c') : Reads c read c' :=
  ⟨hreads.taken, hreads.upcoming, hreads.ending⟩

theorem Cursor.Sound.withCondition (hc : c.Sound) (inCondition : Bool) : Cursor.Sound { c with inCondition } :=
  ⟨hc.ending, hc.upcoming⟩

theorem Reads.condition (hreads : Reads c read c') (inCondition : Bool) : Reads c read { c' with inCondition } :=
  ⟨hreads.taken, hreads.upcoming, hreads.ending⟩

/-! ### Tokens -/

theorem Cursor.Sound.lt_length (hc : c.Sound) {n : Nat} (hkind : (c.peek n).kind ≠ .endOfFile) :
    n < c.upcoming.length := by
  refine Nat.lt_of_not_le fun hbeyond => hkind ?_
  have hending : c.peek n = c.ending := by
    simp [Cursor.peek, List.getD_eq_getElem?_getD, List.getElem?_eq_none hbeyond]
  exact hending ▸ hc.ending

/-- A token other than the end of the file comes next, so it is the first of those to come. -/
theorem Cursor.Sound.exists_upcoming (hc : c.Sound) (hkind : c.current.kind ≠ .endOfFile) :
    ∃ rest, c.upcoming = c.current :: rest := by
  have hlength := hc.lt_length hkind
  cases hupcoming : c.upcoming with
  | nil => simp [hupcoming] at hlength
  | cons t rest => exact ⟨rest, by simp [Cursor.current, Cursor.peek, hupcoming]⟩

theorem Cursor.Sound.upcoming_eq_nil (hc : c.Sound) (hkind : c.current.kind = .endOfFile) : c.upcoming = [] := by
  cases hupcoming : c.upcoming with
  | nil => rfl
  | cons t rest =>
      have hcurrent : c.current = t := by simp [Cursor.current, Cursor.peek, hupcoming]
      exact absurd (hcurrent ▸ hkind) (hc.upcoming t (by simp [hupcoming]))

theorem Token.kind_ne_of_isWord {t : Token} (hword : t.isWord = true) : t.kind ≠ .endOfFile := by
  intro hkind
  simp [Token.isWord, TokenKind.isWord, hkind] at hword

theorem Token.kind_ne_of_isOneOf {t : Token} {spellings : List Text} (hone : t.isOneOf spellings = true) :
    t.kind ≠ .endOfFile := by
  simp only [Token.isOneOf, Bool.and_eq_true] at hone
  exact Token.kind_ne_of_isWord hone.1

theorem Token.kind_ne_of_isName {t : Token} {spellings : List Text} (hname : t.isName spellings = true) :
    t.kind ≠ .endOfFile := by
  simp only [Token.isName, Bool.and_eq_true, beq_iff_eq] at hname
  simp [hname.1]

theorem Token.kind_ne_of_isOperatorFrom {t : Token} {head : Char} (hoperator : t.isOperatorFrom head = true) :
    t.kind ≠ .endOfFile := by
  simp only [Token.isOperatorFrom, Bool.and_eq_true, beq_iff_eq] at hoperator
  simp [hoperator.1]

theorem Cursor.Sound.current_kind_ne (hc : c.Sound) (hupcoming : c.upcoming ≠ []) :
    c.current.kind ≠ .endOfFile :=
  fun hkind => hupcoming (hc.upcoming_eq_nil hkind)

/-- Advancing over a token other than the end of the file reads it. -/
theorem reads_advance (hc : c.Sound) (hkind : c.current.kind ≠ .endOfFile) : Reads c [c.advance.1] c.advance.2 := by
  obtain ⟨rest, hupcoming⟩ := hc.exists_upcoming hkind
  have hadvance : c.advance = (c.current, { c with taken := c.current :: c.taken, upcoming := rest }) := by
    rw [Cursor.advance, hupcoming]
  rw [hadvance]
  exact ⟨rfl, hupcoming ▸ .refl (c.current :: rest), rfl⟩

/-- Taking the angle bracket that opens an operator reads it. -/
theorem reads_splitOff (hc : c.Sound) {head : Char} (hangle : head = '<' ∨ head = '>')
    (hoperator : c.current.isOperatorFrom head = true) : Reads c [c.splitOff.1] c.splitOff.2 := by
  have hkind := Token.kind_ne_of_isOperatorFrom hoperator
  obtain ⟨rest, hupcoming⟩ := hc.exists_upcoming hkind
  simp only [Token.isOperatorFrom, Bool.and_eq_true, beq_iff_eq] at hoperator
  rw [Cursor.splitOff, hupcoming]
  dsimp only
  split
  · exact reads_advance hc hkind
  · have hhead : c.current.text.head? = some head := by
      cases htext : c.current.text with
      | nil => simp [htext, Text.startsWith] at hoperator
      | cons first rest => simpa [htext, Text.startsWith] using hoperator.2
    have hcuts : Cuts c.current [(Cursor.splitToken c.current).1, (Cursor.splitToken c.current).2] :=
      .split hoperator.1 (by omega) (by rw [hhead]; simpa using hangle) (.whole _)
    have hrefines := Refines.cons hcuts (.refl rest)
    exact ⟨rfl, hupcoming ▸ hrefines, rfl⟩

theorem reads_takeIf (hc : c.Sound) {kind : TokenKind} (hkind : kind ≠ .endOfFile) {trees : List Tree}
    (hrun : Yields (takeIf kind) c trees c') : Reads c (Tree.leavesOf trees) c' := by
  obtain ⟨hcurrent, rfl, rfl⟩ | ⟨-, rfl, rfl⟩ := hrun.takeIf_cases
  · exact reads_advance hc (hcurrent ▸ hkind)
  · exact .refl c'

theorem Cursor.kind_ne_of_atAttachedMark (hmark : c.atAttachedMark = true) : c.current.kind ≠ .endOfFile := by
  simp only [Cursor.atAttachedMark, Bool.and_eq_true, beq_iff_eq] at hmark
  simp [hmark.1.1]

theorem reads_takeMark (hc : c.Sound) {trees : List Tree} (hrun : Yields takeMark c trees c') :
    Reads c (Tree.leavesOf trees) c' := by
  obtain ⟨hmark, rfl, rfl⟩ | ⟨-, rfl, rfl⟩ := hrun.takeMark_cases
  · exact reads_advance hc (Cursor.kind_ne_of_atAttachedMark hmark)
  · exact .refl c'

theorem reads_takeMany (hc : c.Sound) {n : Nat} (hn : n ≤ c.upcoming.length) {trees : List Tree}
    (hrun : Yields (takeMany n) c trees c') : Reads c (Tree.leavesOf trees) c' := by
  induction n generalizing c trees with
  | zero =>
      obtain ⟨rfl, rfl⟩ := yields_pure.mp hrun
      exact .refl c
  | succ n ih =>
      simp only [takeMany, yields_advanceLeaf_bind] at hrun
      obtain ⟨rest, _, hrest, hresult⟩ := yields_bind.mp hrun
      obtain ⟨rfl, rfl⟩ := yields_pure.mp hresult
      have hupcoming : c.upcoming ≠ [] := List.ne_nil_of_length_pos (by omega)
      have hfirst := reads_advance hc (hc.current_kind_ne hupcoming)
      exact hfirst.trans (ih (hfirst.sound hc) (by rw [Cursor.length_upcoming_advance]; omega) hrest)

theorem reads_takeTwo (hc : c.Sound) (hkind : (c.peek 1).kind ≠ .endOfFile) {trees : List Tree}
    (hrun : Yields (takeMany 2) c trees c') : Reads c (Tree.leavesOf trees) c' :=
  reads_takeMany hc (hc.lt_length hkind) hrun

/-- A repetition reads the leaves of what it gathers if every turn does, and its last turn yields nothing. -/
theorem reads_gather {fuel : Nat} {turn : Rule (Option (List Tree))} {trees : List Tree} (hc : c.Sound)
    (hturn : ∀ {c out c'}, c.Sound → Yields turn c out c' → Reads c (Tree.leavesOf (out.getD [])) c')
    (hrun : Yields (gather fuel turn) c trees c') :
    Reads c (Tree.leavesOf trees) c' ∧ ∃ c₁, c₁.Sound ∧ Yields turn c₁ none c' := by
  obtain ⟨c₁, hreads, hlast⟩ := Yields.gather_induction
    (fun trees c₁ => Reads c (Tree.leavesOf trees) c₁)
    (fun trees c₁ more c₂ hreads hrun => by
      rw [Tree.leavesOf_append]
      exact hreads.trans (hturn (hreads.sound hc) hrun))
    (.refl c) hrun
  refine ⟨?_, c₁, hreads.sound hc, hlast⟩
  simpa [Tree.leavesOf] using hreads.trans (hturn (hreads.sound hc) hlast)

/-! ### Items and arguments in brackets -/

/-- Items and types read the leaves of what they yield. -/
structure Nonterminals.Reading (g : Nonterminals) : Prop where
  item : ∀ {c t c'}, c.Sound → Yields g.item c t c' → Reads c t.leaves c'
  type : ∀ {c t c'}, c.Sound → Yields g.type c t c' → Reads c (Tree.leavesOf t.toList) c'

variable {g : Nonterminals} {t : Tree} {trees : List Tree} {found : Option Tree}

/-- An item that is gathered by itself. -/
theorem Nonterminals.Reading.some_item (hg : g.Reading) (hc : c.Sound) {out : Option (List Tree)}
    (hrun : Yields (do return some [← g.item]) c out c') : Reads c (Tree.leavesOf (out.getD [])) c' := by
  obtain ⟨t, _, hitem, hresult⟩ := yields_bind.mp hrun
  obtain ⟨rfl, rfl⟩ := yields_pure.mp hresult
  simpa [Tree.leavesOf] using hg.item hc hitem

/-- Items are read up to the end of the file, or up to another token when a bracket is open. -/
theorem reads_items (hg : g.Reading) (hc : c.Sound) {opener : Option Token}
    (hrun : Yields (items g opener) c trees c') :
    Reads c (Tree.leavesOf trees) c' ∧ (c'.current.kind = .endOfFile ↔ opener = none) := by
  unfold items at hrun
  obtain ⟨hreads, c₁, hc₁, hlast⟩ := reads_gather hc (fun {c out c'} hc hrun => by
    simp only [yields_get_bind] at hrun
    repeat' split at hrun
    all_goals first
      | exact absurd hrun yields_throw
      | exact hg.some_item hc hrun
      | obtain ⟨rfl, rfl⟩ := yields_pure.mp hrun
        exact .refl c) hrun
  refine ⟨hreads, ?_⟩
  simp only [yields_get_bind] at hlast
  split at hlast
  next hkind =>
    cases opener with
    | some opener => exact absurd hlast yields_throw
    | none =>
        obtain ⟨-, rfl⟩ := yields_pure.mp hlast
        simpa using hkind
  next hkind =>
    split at hlast
    next hclose =>
      obtain ⟨-, rfl⟩ := yields_pure.mp hlast
      cases opener with
      | some opener => simpa using hkind
      | none => simp at hclose
    next =>
      split at hlast
      · exact absurd hlast yields_throw
      · obtain ⟨t, _, _, hresult⟩ := yields_bind.mp hlast
        simp at hresult

theorem reads_block (hg : g.Reading) (hc : c.Sound) (hkind : c.current.kind ≠ .endOfFile) {label : Label}
    (hrun : Yields (block g label) c t c') : Reads c t.leaves c' := by
  simp only [block, yields_advance_bind, yields_setCondition_bind] at hrun
  obtain ⟨inside, c₂, hinside, hrun⟩ := yields_bind.mp hrun
  simp only [yields_advanceLeaf_bind, yields_pure] at hrun
  obtain ⟨rfl, rfl⟩ := hrun
  have hopener := reads_advance hc hkind
  obtain ⟨hitems, hend⟩ := reads_items hg ((hopener.sound hc).withCondition false) hinside
  have hbefore := hopener.trans hitems.of_condition
  have hcloser := reads_advance (hbefore.sound hc) (by simp [hend])
  simpa [Tree.leaves, Tree.leavesOf] using hbefore.trans hcloser

/-- Brackets are leaves themselves. -/
theorem leaves_block {label : Label} (hrun : Yields (block g label) c t c') : t.leaves ≠ [] := by
  simp only [block, yields_advance_bind, yields_setCondition_bind] at hrun
  obtain ⟨inside, c₁, -, hrun⟩ := yields_bind.mp hrun
  simp only [yields_advanceLeaf_bind, yields_pure] at hrun
  rw [← hrun.1]
  simp [Tree.leaves, Tree.leavesOf]

theorem reads_argument (hg : g.Reading) (hc : c.Sound) {closer : TokenKind}
    (hrun : Yields (argument g closer) c t c') : Reads c t.leaves c' := by
  simp only [argument, yields_get_bind] at hrun
  obtain ⟨label, c₁, hlabel, hrun⟩ := yields_ite_bind.mp hrun
  obtain ⟨elements, c₂, helements, hrun⟩ := yields_bind.mp hrun
  obtain ⟨comma, c₃, hcomma, hrun⟩ := yields_bind.mp hrun
  obtain ⟨rfl, rfl⟩ := yields_pure.mp hrun
  have hfirst : Reads c (Tree.leavesOf label) c₁ := by
    split at hlabel
    next hnamed =>
      simp only [Bool.and_eq_true, beq_iff_eq] at hnamed
      exact reads_takeTwo hc (by simp [hnamed.2]) hlabel
    next =>
      obtain ⟨rfl, rfl⟩ := yields_pure.mp hlabel
      exact .refl c
  have hc₁ := hfirst.sound hc
  obtain ⟨hsecond, -⟩ := reads_gather hc₁ (fun {c out c'} hc hrun => by
    simp only [yields_get_bind] at hrun
    split at hrun
    · obtain ⟨rfl, rfl⟩ := yields_pure.mp hrun
      exact .refl c
    · exact hg.some_item hc hrun) helements
  have hthird := reads_takeIf (hsecond.sound hc₁) (by simp) hcomma
  simpa [Tree.leaves, Tree.leavesOf] using (hfirst.trans hsecond).trans hthird

theorem closer?_getD_ne (kind : TokenKind) : kind.closer?.getD .rightParen ≠ .endOfFile := by
  cases kind <;> simp [TokenKind.closer?]

theorem reads_arguments (hg : g.Reading) (hc : c.Sound) (hkind : c.current.kind ≠ .endOfFile) {label : Label}
    (hrun : Yields (arguments g label) c t c') : Reads c t.leaves c' := by
  simp only [arguments, yields_get_bind, yields_advance_bind, yields_setCondition_bind] at hrun
  obtain ⟨inside, c₂, hinside, hrun⟩ := yields_bind.mp hrun
  simp only [yields_advanceLeaf_bind, yields_setCondition_bind, yields_pure] at hrun
  obtain ⟨rfl, rfl⟩ := hrun
  have hopener := reads_advance hc hkind
  have hc₁ := (hopener.sound hc).withCondition false
  obtain ⟨harguments, c₃, -, hlast⟩ := reads_gather hc₁ (fun {c out c'} hc hrun => by
    simp only [yields_get_bind] at hrun
    repeat' split at hrun
    · obtain ⟨rfl, rfl⟩ := yields_pure.mp hrun
      exact .refl c
    · exact absurd hrun yields_throw
    · exact absurd hrun yields_throw
    · obtain ⟨t, _, hargument, hresult⟩ := yields_bind.mp hrun
      obtain ⟨rfl, rfl⟩ := yields_pure.mp hresult
      simpa [Tree.leavesOf] using reads_argument hg hc hargument) hinside
  have hbefore := hopener.trans harguments.of_condition
  have hclose : c₂.current.kind ≠ .endOfFile := by
    simp only [yields_get_bind] at hlast
    repeat' split at hlast
    · rename_i hcurrent
      obtain ⟨-, rfl⟩ := yields_pure.mp hlast
      exact beq_iff_eq.mp hcurrent ▸ closer?_getD_ne _
    · exact absurd hlast yields_throw
    · exact absurd hlast yields_throw
    · obtain ⟨t, _, _, hresult⟩ := yields_bind.mp hlast
      simp at hresult
  have hcloser := reads_advance (hbefore.sound hc) hclose
  simpa [Tree.leaves, Tree.leavesOf] using (hbefore.trans hcloser).condition c.inCondition

theorem leaves_arguments {label : Label} (hrun : Yields (arguments g label) c t c') : t.leaves ≠ [] := by
  simp only [arguments, yields_get_bind, yields_advance_bind, yields_setCondition_bind] at hrun
  obtain ⟨inside, c₂, -, hrun⟩ := yields_bind.mp hrun
  simp only [yields_advanceLeaf_bind, yields_setCondition_bind, yields_pure] at hrun
  rw [← hrun.1]
  simp [Tree.leaves, Tree.leavesOf]

end SwiftObservation.Grammar
