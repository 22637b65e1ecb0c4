import SwiftObservation.Proofs.Grammar.Nesting.Pairing
import SwiftObservation.Proofs.Grammar.Nesting.Types
import SwiftObservation.Proofs.Grammar.Reading.Declarations
import SwiftObservation.Proofs.Grammar.Turns

/-!
# What the grammar complains about

A rule that fails names a token, and this token is one that the rule could meet: it comes next at some point of the run, or
an operator that comes next has been cut and it is a piece of that. No rule fails because a repetition ran out of fuel,
since every turn of a repetition reads a token and `Cursor.weight` is a bound on the tokens to come; and no rule asks for
an operand where none can stand. A bracket is called unclosed only at the end of the file, where all that was read behind it
are trees that close what they open. Items and types nest no deeper than there are tokens, for a rule reads a token before
it comes to an item or a type inside it: so the nesting limit is hit only where it is no larger than the weight.

As with what the rules read, this is shown rule by rule in the order of their definitions, here for single tokens and for
brackets, and each proof needs it of items and types only.
-/

namespace SwiftObservation.Grammar

variable {α β σ : Type} {limit : Nat} {c c' c'' : Cursor} {e : ParseError} {read : List Token}

/-- The rule, started at `c`, fails with `e`. -/
def Fails (r : Rule α) (c : Cursor) (e : ParseError) : Prop := r c = .error e

@[simp] theorem not_fails_pure {a : α} : ¬ Fails (pure a) c e := by
  intro hfails
  cases hfails

@[simp] theorem fails_throw {e' : ParseError} : Fails (throw e' : Rule α) c e ↔ e' = e := by
  show (Except.error e' : Except ParseError (α × Cursor)) = .error e ↔ _
  rw [Except.error.injEq]

/-- A sequence fails in its first part, or in its second part where the first one has stopped. -/
theorem fails_bind {r : Rule α} {next : α → Rule β} :
    Fails (r >>= next) c e ↔ Fails r c e ∨ ∃ a c', Yields r c a c' ∧ Fails (next a) c' e := by
  simp only [Fails, Yields, bind, StateT.bind, Except.bind]
  cases hr : r c with
  | error e' => simp
  | ok result =>
      obtain ⟨a, c'⟩ := result
      constructor
      · intro hnext
        exact .inr ⟨a, c', rfl, hnext⟩
      · rintro (hfails | ⟨_, _, hfirst, hnext⟩)
        · cases hfails
        · cases hfirst
          exact hnext

/-- What is done with the result of a rule does not matter to its failure. -/
@[simp] theorem fails_map {f : α → β} {r : Rule α} : Fails (f <$> r) c e ↔ Fails r c e := by
  rw [map_eq_pure_bind, fails_bind]
  simp

@[simp] theorem fails_get_bind {next : Cursor → Rule β} : Fails (get >>= next) c e ↔ Fails (next c) c e := Iff.rfl

@[simp] theorem fails_modify_bind {f : Cursor → Cursor} {next : Unit → Rule β} :
    Fails (modify f >>= next) c e ↔ Fails (next ()) (f c) e := Iff.rfl

@[simp] theorem fails_setCondition_bind {inCondition : Bool} {next : Unit → Rule β} :
    Fails (setCondition inCondition >>= next) c e ↔ Fails (next ()) { c with inCondition } e := Iff.rfl

@[simp] theorem fails_advance_bind {next : Token → Rule β} :
    Fails (advance >>= next) c e ↔ Fails (next c.advance.1) c.advance.2 e := Iff.rfl

@[simp] theorem fails_splitOff_bind {next : Token → Rule β} :
    Fails (splitOff >>= next) c e ↔ Fails (next c.splitOff.1) c.splitOff.2 e := Iff.rfl

@[simp] theorem fails_advanceLeaf_bind {next : Tree → Rule β} :
    Fails (advanceLeaf >>= next) c e ↔ Fails (next (.leaf c.advance.1)) c.advance.2 e := Iff.rfl

@[simp] theorem not_fails_advanceLeaf : ¬ Fails advanceLeaf c e := by
  intro hfails
  cases hfails

@[simp] theorem not_fails_takeMany {n : Nat} : ¬ Fails (takeMany n) c e := by
  induction n generalizing c with
  | zero => exact not_fails_pure
  | succ n ih =>
      rw [takeMany, fails_advanceLeaf_bind, fails_bind]
      simpa using ih

@[simp] theorem not_fails_takeIf {kind : TokenKind} : ¬ Fails (takeIf kind) c e := by
  rw [takeIf, fails_get_bind]
  split
  · rw [fails_advanceLeaf_bind]
    exact not_fails_pure
  · exact not_fails_pure

@[simp] theorem not_fails_takeMark : ¬ Fails takeMark c e := by
  rw [takeMark, fails_get_bind]
  split
  · rw [fails_advanceLeaf_bind]
    exact not_fails_pure
  · exact not_fails_pure

/-- A choice that the rest of a rule follows in either case. -/
theorem fails_ite_bind {p : Prop} [Decidable p] {r s : Rule α} {next : α → Rule β} :
    Fails (if p then r >>= next else s >>= next) c e ↔
      Fails (if p then r else s) c e ∨ ∃ a c', Yields (if p then r else s) c a c' ∧ Fails (next a) c' e := by
  split <;> exact fails_bind

/-! ### Tokens that can be met -/

/-- The token comes next at some point behind the cursor, cut or not. -/
def Cursor.Meets (c : Cursor) (t : Token) : Prop := ∃ tokens, Refines (c.upcoming ++ [c.ending]) tokens ∧ t ∈ tokens

/-- The token is an opening bracket behind the cursor, and what comes behind it closes nothing that it has not opened
itself. -/
def Cursor.LeavesOpen (c : Cursor) (t : Token) : Prop :=
  ∃ front back, Refines c.upcoming (front ++ t :: back) ∧ t.kind.isOpener = true ∧ ClosesOwn (Token.brackets back)

/-- The token is a word that opens the declaration of a type. -/
def OpensType (keyword : Token) : Prop :=
  keyword.kind.declaresType = true ∨ keyword.isOneOf (words ["actor"]) = true

/-- The errors that a rule may fail with at a cursor where items and types may nest as deep as the limit says. -/
inductive Blames (limit : Nat) (c : Cursor) : ParseError → Prop where
  | unbalanced {t : Token} (met : c.Meets t) (closes : t.kind.isCloser = true) : Blames limit c (.unbalanced t)
  | unclosed {t : Token} (leftOpen : c.LeavesOpen t) : Blames limit c (.unclosed t)
  | unclosedParameters {t : Token} (met : c.Meets t) (angle : t.isOperatorFrom '<' = true) :
      Blames limit c (.unclosedParameters t)
  | missingName {keyword t : Token} (met : c.Meets t) (opensType : OpensType keyword) (unnamed : t.kind ≠ .identifier) :
      Blames limit c (.missingName keyword t)
  | missingBody {keyword t : Token} (met : c.Meets t) (opensType : OpensType keyword) (unopened : t.kind ≠ .leftBrace) :
      Blames limit c (.missingBody keyword t)
  | tooDeep (deep : limit ≤ c.weight) : Blames limit c .tooDeep

theorem Cursor.meets_current (c : Cursor) : c.Meets c.current := by
  refine ⟨_, .refl _, ?_⟩
  cases hupcoming : c.upcoming with
  | nil => simp [Cursor.current, Cursor.peek, hupcoming]
  | cons t rest => simp [Cursor.current, Cursor.peek, hupcoming]

theorem Reads.refines (hreads : Reads c read c') : Refines (c.upcoming ++ [c.ending]) (read ++ (c'.upcoming ++ [c'.ending])) := by
  rw [← List.append_assoc, hreads.ending]
  exact hreads.upcoming.append (.refl [c.ending])

theorem Reads.meets (hreads : Reads c read c') {t : Token} (hmeets : c'.Meets t) : c.Meets t := by
  obtain ⟨tokens, hrefines, ht⟩ := hmeets
  exact ⟨read ++ tokens, hreads.refines.trans ((Refines.refl read).append hrefines), List.mem_append_right read ht⟩

theorem Reads.meets_read (hreads : Reads c read c') {t : Token} (ht : t ∈ read) : c.Meets t :=
  ⟨_, hreads.refines, List.mem_append_left _ ht⟩

theorem Cursor.LeavesOpen.meets {t : Token} (hopen : c.LeavesOpen t) : c.Meets t := by
  obtain ⟨front, back, hrefines, -, -⟩ := hopen
  exact ⟨_, hrefines.append (.refl [c.ending]), by simp⟩

theorem Reads.leavesOpen (hreads : Reads c read c') {t : Token} (hopen : c'.LeavesOpen t) : c.LeavesOpen t := by
  obtain ⟨front, back, hrefines, hopens, hbehind⟩ := hopen
  refine ⟨read ++ front, back, ?_, hopens, hbehind⟩
  rw [List.append_assoc]
  exact hreads.upcoming.trans ((Refines.refl read).append hrefines)

/-- Trees that close what they open, up to the end of the file. -/
theorem Reads.closesOwn {trees : List Tree} (hreads : Reads c (Tree.leavesOf trees) c') (htrees : Tree.NestedAll trees)
    (hc : c.Sound) (hend : c'.current.kind = .endOfFile) : ClosesOwn (Token.brackets c.upcoming) := by
  have hbrackets := hreads.upcoming.brackets_eq
  rw [(hreads.sound hc).upcoming_eq_nil hend, List.append_nil] at hbrackets
  rw [← hbrackets]
  exact htrees.closesOwn

/-! ### Reading lowers the weight -/

/-- A bound on the tokens that a list can be cut into. -/
def weightOf (tokens : List Token) : Nat := tokens.foldr (fun t n => max 1 t.text.length + n) 0

theorem weightOf_append (front back : List Token) : weightOf (front ++ back) = weightOf front + weightOf back := by
  induction front with
  | nil => simp [weightOf]
  | cons t rest ih =>
      simp only [weightOf, List.cons_append, List.foldr_cons] at ih ⊢
      omega

theorem Cuts.weightOf_eq {t : Token} {pieces : List Token} (hcuts : Cuts t pieces) : weightOf pieces = weightOf [t] := by
  induction hcuts with
  | whole t => rfl
  | @split t pieces _ hlong _ _ ih =>
      have hfirst := length_text_splitToken_fst hlong
      have hsecond := length_text_splitToken_snd (t := t)
      simp only [weightOf, List.foldr_cons, List.foldr_nil] at ih ⊢
      omega

theorem Refines.weightOf_eq {tokens tokens' : List Token} (hrefines : Refines tokens tokens') :
    weightOf tokens' = weightOf tokens := by
  induction hrefines with
  | nil => rfl
  | @cons t rest pieces behind hcuts _ ih =>
      rw [weightOf_append, hcuts.weightOf_eq, ih, ← weightOf_append]
      rfl

theorem Reads.weight_eq (hreads : Reads c read c') : c.weight = weightOf read + c'.weight := by
  have hweight := hreads.upcoming.weightOf_eq
  rw [weightOf_append] at hweight
  exact hweight.symm

theorem Reads.weight_le (hreads : Reads c read c') : c'.weight ≤ c.weight := by
  have hweight := hreads.weight_eq
  omega

theorem Reads.weight_lt (hreads : Reads c read c') (hread : read ≠ []) : c'.weight < c.weight := by
  obtain ⟨t, rest, rfl⟩ := List.exists_cons_of_ne_nil hread
  have hweight := hreads.weight_eq
  simp only [weightOf, List.foldr_cons] at hweight
  omega

/-- What is met behind tokens that have been read is met in front of them, if no lower weight excuses the depth there. -/
theorem Reads.blames_of {limit' : Nat} (hreads : Reads c read c') (hdeep : limit' ≤ c'.weight → limit ≤ c.weight)
    (hblames : Blames limit' c' e) : Blames limit c e := by
  cases hblames with
  | unbalanced hmet hcloses => exact .unbalanced (hreads.meets hmet) hcloses
  | unclosed hopen => exact .unclosed (hreads.leavesOpen hopen)
  | unclosedParameters hmet hangle => exact .unclosedParameters (hreads.meets hmet) hangle
  | missingName hmet hopens hunnamed => exact .missingName (hreads.meets hmet) hopens hunnamed
  | missingBody hmet hopens hunopened => exact .missingBody (hreads.meets hmet) hopens hunopened
  | tooDeep hlimit => exact .tooDeep (hdeep hlimit)

theorem Reads.blames (hreads : Reads c read c') (hblames : Blames limit c' e) : Blames limit c e :=
  hreads.blames_of (fun hlimit => Nat.le_trans hlimit hreads.weight_le) hblames

/-- At least one token is read on the way. -/
def Advances (c c' : Cursor) : Prop := ∃ read, read ≠ [] ∧ Reads c read c'

theorem Advances.weight_lt (hadvances : Advances c c') : c'.weight < c.weight := by
  obtain ⟨read, hread, hreads⟩ := hadvances
  exact hreads.weight_lt hread

theorem Reads.advances (hreads : Reads c read c') (hread : read ≠ []) : Advances c c' := ⟨read, hread, hreads⟩

theorem advances_advance (hc : c.Sound) (hkind : c.current.kind ≠ .endOfFile) : Advances c c.advance.2 :=
  (reads_advance hc hkind).advances (List.cons_ne_nil _ _)

/-- Behind a token that has been read, items and types may nest one less deep. -/
theorem Advances.blames (hadvances : Advances c c') (hblames : Blames limit c' e) : Blames (limit + 1) c e := by
  have hlt := hadvances.weight_lt
  obtain ⟨read, -, hreads⟩ := hadvances
  exact hreads.blames_of (fun hlimit => Nat.lt_of_le_of_lt hlimit hlt) hblames

theorem Advances.sound (hadvances : Advances c c') (hc : c.Sound) : c'.Sound := by
  obtain ⟨read, -, hreads⟩ := hadvances
  exact hreads.sound hc

theorem Advances.condition (hadvances : Advances c c') (inCondition : Bool) : Advances c { c' with inCondition } := by
  obtain ⟨read, hread, hreads⟩ := hadvances
  exact (hreads.condition inCondition).advances hread

theorem Advances.trans (hfirst : Advances c c') (hsecond : Reads c' read c'') : Advances c c'' := by
  obtain ⟨front, hfront, hreads⟩ := hfirst
  exact (hreads.trans hsecond).advances (by simp [hfront])

/-! ### Repetitions -/

/-- A turn of a repetition reads a token whenever it goes on. -/
def Consumes (turn : σ → Rule (Turn σ β)) : Prop :=
  ∀ {s c s' c'}, c.Sound → Yields (turn s) c (.again s') c' → Advances c c'

/-- A turn of a gathering reads a token whenever it yields something. -/
def Collects (turn : Rule (Option (List Tree))) : Prop :=
  ∀ {c trees c'}, c.Sound → Yields turn c (some trees) c' → Advances c c'

/-- A repetition whose turns lower the weight fails only as one of its turns does. -/
theorem Fails.repeatFrom_induction {turn : σ → Rule (Turn σ β)} (Inv : σ → Cursor → Prop) (R : ParseError → Prop)
    (hagain : ∀ s c s' c', Inv s c → Yields (turn s) c (.again s') c' → Inv s' c' ∧ c'.weight < c.weight)
    (hturn : ∀ s c e, Inv s c → Fails (turn s) c e → R e) {fuel : Nat} {s : σ} (hinv : Inv s c)
    (hfuel : c.weight < fuel) (hfails : Fails (repeatFrom turn fuel s) c e) : R e := by
  induction fuel generalizing s c with
  | zero => omega
  | succ fuel ih =>
      rw [repeatFrom, fails_bind] at hfails
      obtain hfails | ⟨outcome, c₁, hyields, hrest⟩ := hfails
      · exact hturn s c e hinv hfails
      · cases outcome with
        | again s' =>
            obtain ⟨hinv', hlt⟩ := hagain s c s' c₁ hinv hyields
            exact ih hinv' (by omega) hrest
        | done result => exact absurd hrest not_fails_pure

/-- Gathering fails only as one of its turns does, where an invariant of what has been gathered so far holds. -/
theorem Fails.gather_invariant {turn : Rule (Option (List Tree))} (Inv : List Tree → Cursor → Prop) (R : ParseError → Prop)
    (hsome : ∀ {trees c more c'}, Inv trees c → Yields turn c (some more) c' → Inv (trees ++ more) c' ∧ c'.weight < c.weight)
    (hturn : ∀ {trees c e}, Inv trees c → Fails turn c e → R e) {fuel : Nat} (hinv : Inv [] c) (hfuel : c.weight < fuel)
    (hfails : Fails (gather fuel turn) c e) : R e := by
  refine Fails.repeatFrom_induction (fun reversed c => Inv reversed.reverse c) R ?_ ?_ (by simpa using hinv) hfuel hfails
  · intro reversed c₁ reversed' c₂ hinv hyields
    obtain ⟨out, c₃, hout, hresult⟩ := yields_bind.mp hyields
    cases out with
    | none =>
        obtain ⟨hdone, -⟩ := yields_pure.mp hresult
        cases hdone
    | some more =>
        obtain ⟨hagain, rfl⟩ := yields_pure.mp hresult
        obtain rfl := Turn.again.inj hagain
        simpa using hsome hinv hout
  · intro reversed c₁ e' hinv hfails
    obtain hfails | ⟨out, c₂, -, hrest⟩ := fails_bind.mp hfails
    · exact hturn hinv hfails
    · cases out <;> exact absurd hrest not_fails_pure

/-- Gathering fails only as one of its turns does, at a cursor behind what has been gathered so far. -/
theorem Fails.gather_induction {turn : Rule (Option (List Tree))} (R : ParseError → Prop) {fuel : Nat} (hc : c.Sound)
    (hsome : Collects turn) (hturn : ∀ {c₁ read e}, Reads c read c₁ → Fails turn c₁ e → R e) (hfuel : c.weight < fuel)
    (hfails : Fails (gather fuel turn) c e) : R e := by
  refine Fails.gather_invariant (fun _ c₁ => ∃ read, Reads c read c₁) R ?_ ?_ ⟨[], .refl c⟩ hfuel hfails
  · rintro trees c₁ more c₂ ⟨read, hread⟩ hyields
    obtain ⟨more, hne, hmore⟩ := hsome (hread.sound hc) hyields
    exact ⟨⟨_, hread.trans hmore⟩, hmore.weight_lt hne⟩
  · rintro trees c₁ e ⟨read, hread⟩ hfails
    exact hturn hread hfails

/-- A repetition blames tokens that it meets if every turn does that, and those that go on read a token. -/
theorem Fails.repeatFrom_blames {turn : σ → Rule (Turn σ β)} (hc : c.Sound) (hagain : Consumes turn) {fuel : Nat}
    (hturn : ∀ {s c e}, c.Sound → c.weight < fuel → Fails (turn s) c e → Blames limit c e) (hfuel : c.weight < fuel) {s : σ}
    (hfails : Fails (repeatFrom turn fuel s) c e) : Blames limit c e := by
  refine Fails.repeatFrom_induction (fun _ c₁ => ∃ read, Reads c read c₁) (Blames limit c) ?_ ?_ ⟨[], .refl c⟩ hfuel hfails
  · rintro s c₁ s' c₂ ⟨read, hread⟩ hyields
    obtain ⟨more, hne, hmore⟩ := hagain (hread.sound hc) hyields
    exact ⟨⟨_, hread.trans hmore⟩, hmore.weight_lt hne⟩
  · rintro s c₁ e' ⟨read, hread⟩ hfails
    have hweight := hread.weight_le
    exact hread.blames (hturn (hread.sound hc) (by omega) hfails)

theorem Fails.gather_blames {turn : Rule (Option (List Tree))} (hc : c.Sound) (hsome : Collects turn) {fuel : Nat}
    (hturn : ∀ {c e}, c.Sound → c.weight < fuel → Fails turn c e → Blames limit c e) (hfuel : c.weight < fuel)
    (hfails : Fails (gather fuel turn) c e) : Blames limit c e := by
  refine Fails.gather_induction (Blames limit c) hc hsome ?_ hfuel hfails
  intro c₁ read e hread hfails
  have hweight := hread.weight_le
  exact hread.blames (hturn (hread.sound hc) (by omega) hfails)

/-- If every turn that yields something yields a leaf, then without leaves not even the first turn yielded anything. -/
theorem Yields.gather_stays {turn : Rule (Option (List Tree))} {fuel : Nat} {trees : List Tree}
    (hsome : ∀ {c more c'}, Yields turn c (some more) c' → Tree.leavesOf more ≠ [])
    (hrun : Yields (gather fuel turn) c trees c') (hempty : Tree.leavesOf trees = []) : Yields turn c none c' := by
  obtain ⟨c₁, hstart, hlast⟩ := Yields.gather_induction (fun trees c₁ => Tree.leavesOf trees = [] → c₁ = c)
    (fun trees c₁ more c₂ _ hturn hnil => by
      rw [Tree.leavesOf_append, List.append_eq_nil_iff] at hnil
      exact absurd hnil.2 (hsome hturn)) (fun _ => rfl) hrun
  rwa [← hstart hempty]

/-! ### Items and arguments in brackets -/

/-- Items and types blame tokens that they meet, and what they yield has a leaf and closes what it opens. A name is a
type. -/
structure Nonterminals.Blaming (g : Nonterminals) (limit : Nat) : Prop where
  reading : g.Reading
  nesting : g.Nesting
  item : ∀ {c e}, c.Sound → c.weight < g.fuel → ¬ c.atBoundary = true → Fails g.item c e → Blames limit c e
  type : ∀ {c e}, c.Sound → c.weight < g.fuel → Fails g.type c e → Blames limit c e
  itemLeaf : ∀ {c t c'}, Yields g.item c t c' → t.leaves ≠ []
  typeLeaf : ∀ {c t c'}, Yields g.type c (some t) c' → t.leaves ≠ []
  typeNone : ∀ {c c'}, Yields g.type c none c' → c'.current.kind ≠ .identifier

variable {g : Nonterminals} {t : Tree} {trees : List Tree} {label : Label}

/-- An item reads a token. -/
theorem Nonterminals.Blaming.advances_item (hg : g.Blaming limit) (hc : c.Sound) (hrun : Yields g.item c t c') :
    Advances c c' :=
  (hg.reading.item hc hrun).advances (hg.itemLeaf hrun)

/-- An item that is gathered by itself fails as the item does. -/
theorem Nonterminals.Blaming.some_item (hg : g.Blaming limit) (hc : c.Sound) (hfuel : c.weight < g.fuel)
    (hinside : ¬ c.atBoundary = true) (hfails : Fails (do return some [← g.item]) c e) : Blames limit c e := by
  obtain hfails | ⟨t, c₁, -, hrest⟩ := fails_bind.mp hfails
  · exact hg.item hc hfuel hinside hfails
  · exact absurd hrest not_fails_pure

theorem Cursor.not_atBoundary (hend : ¬ (c.current.kind == .endOfFile) = true) (hcloser : ¬ c.current.kind.isCloser = true) :
    ¬ c.atBoundary = true := by
  simp only [Cursor.atBoundary, Bool.or_eq_true, not_or]
  exact ⟨hend, hcloser⟩

/-- The trees have been read on the way, and each of them closes what it opens. -/
def Gathered (c : Cursor) (trees : List Tree) (c' : Cursor) : Prop :=
  Reads c (Tree.leavesOf trees) c' ∧ Tree.NestedAll trees

theorem Gathered.nil (c : Cursor) : Gathered c [] c := ⟨.refl c, Tree.nestedAll_nil⟩

/-- One more tree is gathered. -/
theorem Gathered.step (hgathered : Gathered c trees c') (hreads : Reads c' t.leaves c'') (hnested : t.Nested)
    (hleaf : t.leaves ≠ []) : Gathered c (trees ++ [t]) c'' ∧ c''.weight < c'.weight := by
  obtain ⟨hread, hall⟩ := hgathered
  refine ⟨⟨?_, Tree.nestedAll_append.mpr ⟨hall, by simpa using hnested⟩⟩, hreads.weight_lt hleaf⟩
  simpa [Tree.leavesOf] using hread.trans hreads

theorem Yields.of_itemTurn {opener : Option Token} (hrun : Yields (itemTurn g opener) c (some trees) c') :
    ∃ t, trees = [t] ∧ Yields g.item c t c' := by
  simp only [itemTurn, yields_get_bind] at hrun
  repeat' split at hrun
  all_goals first
    | exact absurd hrun yields_throw
    | exact absurd hrun not_yields_none
    | exact hrun.some_singleton

theorem collects_itemTurn (hg : g.Blaming limit) {opener : Option Token} : Collects (itemTurn g opener) := by
  intro c trees c' hc hrun
  obtain ⟨t, -, hitem⟩ := hrun.of_itemTurn
  exact hg.advances_item hc hitem

/-- Items blame tokens that they meet, or the bracket in front of them if nothing to come closes it. -/
theorem blames_items (hg : g.Blaming limit) (hc : c.Sound) (hfuel : c.weight < g.fuel) {opener : Option Token}
    (hfails : Fails (items g opener) c e) :
    Blames limit c e ∨ ∃ t ∈ opener, e = .unclosed t ∧ ClosesOwn (Token.brackets c.upcoming) := by
  rw [items_eq] at hfails
  refine Fails.gather_invariant (Gathered c)
    (fun e => Blames limit c e ∨ ∃ t ∈ opener, e = .unclosed t ∧ ClosesOwn (Token.brackets c.upcoming)) ?_ ?_
    (.nil c) hfuel hfails
  · intro trees c₁ more c₂ hgathered hrun
    obtain ⟨t, rfl, hitem⟩ := hrun.of_itemTurn
    exact hgathered.step (hg.reading.item (hgathered.1.sound hc) hitem) (hg.nesting.item hitem) (hg.itemLeaf hitem)
  · intro trees c₁ e hgathered hfails
    have hweight := hgathered.1.weight_le
    simp only [itemTurn, fails_get_bind] at hfails
    split at hfails
    next hend =>
      cases opener with
      | none => exact absurd hfails not_fails_pure
      | some opener =>
          exact .inr ⟨opener, rfl, (fails_throw.mp hfails).symm, hgathered.1.closesOwn hgathered.2 hc (beq_iff_eq.mp hend)⟩
    next hend =>
      split at hfails
      next => exact absurd hfails not_fails_pure
      next =>
        split at hfails
        next hcloses =>
          obtain rfl := fails_throw.mp hfails
          exact .inl (.unbalanced (hgathered.1.meets c₁.meets_current) hcloses)
        next hcloser =>
          exact .inl (hgathered.1.blames
            (hg.some_item (hgathered.1.sound hc) (by omega) (Cursor.not_atBoundary hend hcloser) hfails))

theorem TokenKind.ne_endOfFile_of_isOpener {kind : TokenKind} (hopens : kind.isOpener = true) : kind ≠ .endOfFile := by
  rintro rfl
  cases hopens

/-- A bracket that comes next is left open if all that comes behind it closes nothing else. -/
theorem leavesOpen_advance (hc : c.Sound) (hopens : c.current.kind.isOpener = true)
    (hbehind : ClosesOwn (Token.brackets c.advance.2.upcoming)) : c.LeavesOpen c.advance.1 := by
  have hopener := reads_advance hc (TokenKind.ne_endOfFile_of_isOpener hopens)
  exact ⟨[], _, hopener.upcoming, by rwa [Cursor.advance_fst], hbehind⟩

theorem blames_block (hg : g.Blaming limit) (hc : c.Sound) (hopens : c.current.kind.isOpener = true)
    (hfuel : c.weight < g.fuel) (hfails : Fails (block g label) c e) : Blames (limit + 1) c e := by
  have hopener := (advances_advance hc (TokenKind.ne_endOfFile_of_isOpener hopens)).condition false
  have hlt := hopener.weight_lt
  simp only [block, fails_advance_bind, fails_setCondition_bind] at hfails
  obtain hfails | ⟨inside, c₁, -, hrest⟩ := fails_bind.mp hfails
  · obtain hblames | ⟨t, ht, rfl, hbehind⟩ := blames_items hg (hopener.sound hc) (by omega) hfails
    · exact hopener.blames hblames
    · obtain rfl := Option.some.inj ht
      exact .unclosed (leavesOpen_advance hc hopens hbehind)
  · exact absurd (fails_advanceLeaf_bind.mp hrest) not_fails_pure

theorem Yields.of_elementTurn {closer : TokenKind} (hrun : Yields (elementTurn g closer) c (some trees) c') :
    ∃ t, trees = [t] ∧ Yields g.item c t c' := by
  simp only [elementTurn, yields_get_bind] at hrun
  split at hrun
  · exact absurd hrun not_yields_none
  · exact hrun.some_singleton

theorem collects_elementTurn (hg : g.Blaming limit) {closer : TokenKind} : Collects (elementTurn g closer) := by
  intro c trees c' hc hrun
  obtain ⟨t, -, hitem⟩ := hrun.of_elementTurn
  exact hg.advances_item hc hitem

theorem blames_argument (hg : g.Blaming limit) (hc : c.Sound) (hfuel : c.weight < g.fuel) {closer : TokenKind}
    (hfails : Fails (argument g closer) c e) : Blames limit c e := by
  simp only [argument_eq, fails_get_bind] at hfails
  obtain hfails | ⟨label, c₁, hlabel, hfails⟩ := fails_ite_bind.mp hfails
  · split at hfails <;> simp at hfails
  have hfirst : ∃ read, Reads c read c₁ := by
    split at hlabel
    next hnamed =>
      simp only [Bool.and_eq_true, beq_iff_eq] at hnamed
      exact ⟨_, reads_takeTwo hc (by simp [hnamed.2]) hlabel⟩
    next =>
      obtain ⟨-, rfl⟩ := yields_pure.mp hlabel
      exact ⟨_, .refl c⟩
  obtain ⟨read, hread⟩ := hfirst
  have hweight := hread.weight_le
  obtain hfails | ⟨elements, c₂, -, hfails⟩ := fails_bind.mp hfails
  · refine hread.blames (Fails.gather_blames (hread.sound hc) (collects_elementTurn hg) ?_ (by omega) hfails)
    intro c e hc hfuel hfails
    simp only [elementTurn, fails_get_bind] at hfails
    split at hfails
    · exact absurd hfails not_fails_pure
    next hinside =>
      simp only [Bool.or_eq_true, not_or] at hinside
      exact hg.some_item hc hfuel hinside.2 hfails
  · obtain hfails | ⟨comma, c₃, -, hfails⟩ := fails_bind.mp hfails
    · exact absurd hfails not_fails_takeIf
    · exact absurd hfails not_fails_pure

/-- An argument has a token: its label, its first item or its comma. -/
theorem leaves_argument (hg : g.Blaming limit) {closer : TokenKind} (hcloser : c.current.kind ≠ closer)
    (hinside : ¬ c.atBoundary = true) (hrun : Yields (argument g closer) c t c') : t.leaves ≠ [] := by
  simp only [argument_eq, yields_get_bind] at hrun
  obtain ⟨label, c₁, hlabel, hrun⟩ := yields_ite_bind.mp hrun
  obtain ⟨elements, c₂, helements, hrun⟩ := yields_bind.mp hrun
  obtain ⟨comma, c₃, hcomma, hrun⟩ := yields_bind.mp hrun
  obtain ⟨rfl, rfl⟩ := yields_pure.mp hrun
  simp only [Tree.leaves, Tree.leavesOf_append, Tree.leavesOf, ne_eq, List.append_eq_nil_iff, not_and]
  intro hunlabelled hempty
  have hstart : c₁ = c := by
    split at hlabel
    next =>
      obtain ⟨tokens, rfl, hlength⟩ := hlabel.takeMany_eq
      obtain ⟨first, rest, rfl⟩ := List.exists_cons_of_length_eq_add_one hlength
      simp [Tree.leaves, Tree.leavesOf] at hunlabelled
    next => exact (yields_pure.mp hlabel).2.symm
  subst hstart
  -- No item was read, so the first turn stopped, and the argument ends neither its brackets nor any others.
  have hlast := Yields.gather_stays (fun {c more c'} hturn => by
    obtain ⟨t, rfl, hitem⟩ := hturn.of_elementTurn
    simpa [Tree.leavesOf] using hg.itemLeaf hitem) helements hempty
  simp only [elementTurn, yields_get_bind] at hlast
  split at hlast
  next hstop =>
    obtain ⟨-, rfl⟩ := yields_pure.mp hlast
    obtain ⟨-, rfl, -⟩ | ⟨hother, -, -⟩ := hcomma.takeIf_cases
    · simp [Tree.leaves, Tree.leavesOf]
    · simp [hother, hcloser, hinside] at hstop
  next =>
    obtain ⟨t, _, -, hresult⟩ := yields_bind.mp hlast
    simp at hresult

theorem Yields.of_argumentTurn {opener : Token} {closer : TokenKind}
    (hrun : Yields (argumentTurn g opener closer) c (some trees) c') :
    c.current.kind ≠ closer ∧ ¬ c.atBoundary = true ∧ ∃ t, trees = [t] ∧ Yields (argument g closer) c t c' := by
  simp only [argumentTurn, yields_get_bind] at hrun
  split at hrun
  next => exact absurd hrun not_yields_none
  next hclose =>
    split at hrun
    next => exact absurd hrun yields_throw
    next hend =>
      split at hrun
      next => exact absurd hrun yields_throw
      next hcloser => exact ⟨by simpa using hclose, Cursor.not_atBoundary hend hcloser, hrun.some_singleton⟩

theorem collects_argumentTurn (hg : g.Blaming limit) {opener : Token} {closer : TokenKind} :
    Collects (argumentTurn g opener closer) := by
  intro c trees c' hc hrun
  obtain ⟨hclose, hinside, t, -, hargument⟩ := hrun.of_argumentTurn
  exact (reads_argument hg.reading hc hargument).advances (leaves_argument hg hclose hinside hargument)

theorem blames_arguments (hg : g.Blaming limit) (hc : c.Sound) (hopens : c.current.kind.isOpener = true)
    (hfuel : c.weight < g.fuel) (hfails : Fails (arguments g label) c e) : Blames (limit + 1) c e := by
  have hopener := (advances_advance hc (TokenKind.ne_endOfFile_of_isOpener hopens)).condition false
  have hlt := hopener.weight_lt
  have hc₁ := hopener.sound hc
  simp only [arguments_eq, fails_get_bind, fails_advance_bind, fails_setCondition_bind] at hfails
  obtain hfails | ⟨inside, c₁, -, hrest⟩ := fails_bind.mp hfails
  · refine Fails.gather_invariant (Gathered _) (Blames (limit + 1) c) ?_ ?_ (.nil _) (Nat.lt_trans hlt hfuel) hfails
    · intro trees c₁ more c₂ hgathered hrun
      obtain ⟨hclose, hinside, t, rfl, hargument⟩ := hrun.of_argumentTurn
      exact hgathered.step (reads_argument hg.reading (hgathered.1.sound hc₁) hargument)
        (nested_argument hg.nesting hargument) (leaves_argument hg hclose hinside hargument)
    · intro trees c₁ e hgathered hfails
      have hweight := hgathered.1.weight_le
      have hbefore := hopener.trans hgathered.1
      simp only [argumentTurn, fails_get_bind] at hfails
      split at hfails
      next => exact absurd hfails not_fails_pure
      next =>
        split at hfails
        next hend =>
          obtain rfl := fails_throw.mp hfails
          exact .unclosed (leavesOpen_advance hc hopens (hgathered.1.closesOwn hgathered.2 hc₁ (beq_iff_eq.mp hend)))
        next =>
          split at hfails
          next hcloses =>
            obtain rfl := fails_throw.mp hfails
            exact hbefore.blames (Blames.unbalanced c₁.meets_current hcloses : Blames limit c₁ _)
          next =>
            obtain hfails | ⟨t, c₂, -, hrest⟩ := fails_bind.mp hfails
            · exact hbefore.blames (blames_argument hg (hbefore.sound hc) (by omega) hfails)
            · exact absurd hrest not_fails_pure
  · exact absurd (fails_advanceLeaf_bind.mp hrest) not_fails_pure

end SwiftObservation.Grammar
