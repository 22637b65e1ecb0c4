import SwiftObservation.Grammar.Rule

/-!
# Runs of a rule

`Yields r c a c'` says that the rule `r`, started at the cursor `c`, succeeds with `a` and leaves the cursor at `c'`.
The lemmas take a run of a rule apart into the runs of its parts, so that no proof about the grammar unfolds the monad,
and `Yields.repeatFrom_induction` reduces what a repetition does to what one turn of it does.
-/

namespace SwiftObservation.Grammar

variable {α β σ : Type} {c c' c'' : Cursor}

/-- The rule, started at `c`, succeeds with `a` at `c'`. -/
def Yields (r : Rule α) (c : Cursor) (a : α) (c' : Cursor) : Prop := r c = .ok (a, c')

@[simp] theorem yields_pure {a b : α} : Yields (pure a) c b c' ↔ a = b ∧ c = c' := by
  show (Except.ok (a, c) : Except ParseError (α × Cursor)) = .ok (b, c') ↔ _
  rw [Except.ok.injEq, Prod.mk.injEq]

theorem yields_bind {r : Rule α} {next : α → Rule β} {b : β} :
    Yields (r >>= next) c b c'' ↔ ∃ a c', Yields r c a c' ∧ Yields (next a) c' b c'' := by
  simp only [Yields, bind, StateT.bind, Except.bind]
  cases hr : r c with
  | error e => simp
  | ok result =>
      obtain ⟨a, c'⟩ := result
      constructor
      · intro hnext
        exact ⟨a, c', rfl, hnext⟩
      · rintro ⟨_, _, hfirst, hnext⟩
        cases hfirst
        exact hnext

@[simp] theorem yields_throw {e : ParseError} {a : α} : ¬ Yields (throw e) c a c' := by
  simp [Yields, throw, throwThe, MonadExceptOf.throw, StateT.lift, bind, Except.bind]

/-! ### Advancing -/

@[simp] theorem Cursor.advance_fst (c : Cursor) : c.advance.1 = c.current := by
  unfold Cursor.advance Cursor.current Cursor.peek
  split <;> simp [*]

@[simp] theorem Cursor.peek_advance (c : Cursor) (n : Nat) : c.advance.2.peek n = c.peek (n + 1) := by
  unfold Cursor.advance Cursor.peek
  split <;> simp [*]

@[simp] theorem Cursor.current_advance (c : Cursor) : c.advance.2.current = c.peek 1 := c.peek_advance 0

theorem Cursor.length_upcoming_advance (c : Cursor) : c.advance.2.upcoming.length = c.upcoming.length - 1 := by
  unfold Cursor.advance
  split <;> simp [*]

/-! ### Modifiers

The run of modifiers is measured before it is taken. -/

theorem modifierLengths_le (tokens : List Token) :
    (Cursor.modifierLengths tokens).foldr (· + ·) 0 ≤ tokens.length := by
  fun_induction Cursor.modifierLengths tokens with
  | case1 => simp
  | case2 t l w r more _ _ ih =>
      simp only [List.foldr_cons, List.length_cons]
      omega
  | case3 t l w r more _ _ ih =>
      simp only [List.foldr_cons, List.length_cons] at ih ⊢
      omega
  | case4 t rest _ _ ih =>
      simp only [List.foldr_cons, List.length_cons]
      omega
  | case5 => simp

theorem modifierRun_le (c : Cursor) : c.modifierRun.foldr (· + ·) 0 ≤ c.upcoming.length := by
  unfold Cursor.modifierRun
  dsimp only
  split
  · exact modifierLengths_le c.upcoming
  · exact Nat.zero_le _

theorem modifierLengths_eq (tokens : List Token) : ∀ n ∈ Cursor.modifierLengths tokens, n = 1 ∨ n = 4 := by
  fun_induction Cursor.modifierLengths tokens with
  | case1 => simp
  | case2 t l w r more _ _ ih => simpa using ih
  | case3 t l w r more _ _ ih => simpa using ih
  | case4 t rest _ _ ih => simpa using ih
  | case5 => simp

theorem modifierRun_eq (c : Cursor) : ∀ n ∈ c.modifierRun, n = 1 ∨ n = 4 := by
  unfold Cursor.modifierRun
  dsimp only
  split
  · exact modifierLengths_eq c.upcoming
  · simp

/-! ### Rules that cannot fail

What follows such a rule runs from a cursor that is known. -/

@[simp] theorem yields_get_bind {next : Cursor → Rule β} {b : β} :
    Yields (get >>= next) c b c' ↔ Yields (next c) c b c' := Iff.rfl

@[simp] theorem yields_modify_bind {f : Cursor → Cursor} {next : Unit → Rule β} {b : β} :
    Yields (modify f >>= next) c b c' ↔ Yields (next ()) (f c) b c' := Iff.rfl

@[simp] theorem yields_setCondition_bind {inCondition : Bool} {next : Unit → Rule β} {b : β} :
    Yields (setCondition inCondition >>= next) c b c' ↔ Yields (next ()) { c with inCondition } b c' := Iff.rfl

@[simp] theorem yields_advance_bind {next : Token → Rule β} {b : β} :
    Yields (advance >>= next) c b c' ↔ Yields (next c.advance.1) c.advance.2 b c' := Iff.rfl

@[simp] theorem yields_splitOff_bind {next : Token → Rule β} {b : β} :
    Yields (splitOff >>= next) c b c' ↔ Yields (next c.splitOff.1) c.splitOff.2 b c' := Iff.rfl

@[simp] theorem yields_advanceLeaf {t : Tree} :
    Yields advanceLeaf c t c' ↔ .leaf c.advance.1 = t ∧ c.advance.2 = c' := by
  rw [advanceLeaf, yields_advance_bind, yields_pure]

@[simp] theorem yields_advanceLeaf_bind {next : Tree → Rule β} {b : β} :
    Yields (advanceLeaf >>= next) c b c' ↔ Yields (next (.leaf c.advance.1)) c.advance.2 b c' := Iff.rfl

theorem Yields.takeMany_eq {n : Nat} {trees : List Tree} (hrun : Yields (takeMany n) c trees c') :
    ∃ tokens : List Token, trees = tokens.map .leaf ∧ tokens.length = n := by
  induction n generalizing c trees with
  | zero =>
      obtain ⟨rfl, -⟩ := yields_pure.mp hrun
      exact ⟨[], rfl, rfl⟩
  | succ n ih =>
      simp only [takeMany, yields_advanceLeaf_bind] at hrun
      obtain ⟨rest, _, hrest, hresult⟩ := yields_bind.mp hrun
      obtain ⟨rfl, rfl⟩ := yields_pure.mp hresult
      obtain ⟨tokens, rfl, rfl⟩ := ih hrest
      exact ⟨c.advance.1 :: tokens, rfl, rfl⟩

/-! ### Choices and repetitions -/

/-- A choice that the rest of a rule follows in either case. -/
theorem yields_ite_bind {p : Prop} [Decidable p] {r s : Rule α} {next : α → Rule β} {b : β} :
    Yields (if p then r >>= next else s >>= next) c b c'' ↔
      ∃ a c', Yields (if p then r else s) c a c' ∧ Yields (next a) c' b c'' := by
  split <;> exact yields_bind

/-- A rule whose result is put into an option, under a condition. -/
theorem yields_guarded_some {p : Prop} [Decidable p] {r : Rule α} {found : Option α} :
    Yields (if p then some <$> r else pure none) c found c' ↔
      (p ∧ ∃ a, Yields r c a c' ∧ some a = found) ∨ (¬ p ∧ none = found ∧ c = c') := by
  split
  next hp =>
    rw [map_eq_pure_bind, yields_bind]
    simp only [yields_pure, hp, true_and, not_true_eq_false, false_and, or_false]
    constructor
    · rintro ⟨a, _, hrun, hresult, rfl⟩
      exact ⟨a, hrun, hresult⟩
    · rintro ⟨a, hrun, hresult⟩
      exact ⟨a, c', hrun, hresult, rfl⟩
  next hp => simp [hp]

/-- The next token is taken for its kind, or nothing is. -/
theorem Yields.takeIf_cases {kind : TokenKind} {trees : List Tree} (hrun : Yields (takeIf kind) c trees c') :
    (c.current.kind = kind ∧ trees = [.leaf c.advance.1] ∧ c' = c.advance.2) ∨
      (c.current.kind ≠ kind ∧ trees = [] ∧ c' = c) := by
  simp only [takeIf, yields_get_bind] at hrun
  split at hrun
  next hkind =>
    simp only [yields_advanceLeaf_bind, yields_pure] at hrun
    exact .inl ⟨beq_iff_eq.mp hkind, hrun.1.symm, hrun.2.symm⟩
  next hkind =>
    obtain ⟨rfl, rfl⟩ := yields_pure.mp hrun
    exact .inr ⟨by simpa using hkind, rfl, rfl⟩

/-- A mark is taken, or nothing is. -/
theorem Yields.takeMark_cases {trees : List Tree} (hrun : Yields takeMark c trees c') :
    (c.atAttachedMark = true ∧ trees = [.leaf c.advance.1] ∧ c' = c.advance.2) ∨
      (c.atAttachedMark = false ∧ trees = [] ∧ c' = c) := by
  simp only [takeMark, yields_get_bind] at hrun
  split at hrun
  next hmark =>
    simp only [yields_advanceLeaf_bind, yields_pure] at hrun
    exact .inl ⟨hmark, hrun.1.symm, hrun.2.symm⟩
  next hmark =>
    obtain ⟨rfl, rfl⟩ := yields_pure.mp hrun
    exact .inr ⟨by simpa using hmark, rfl, rfl⟩

/-- A turn that goes on keeps the invariant, and one that stops establishes what is to be shown of the result. -/
def Turn.Meets (Inv : σ → Cursor → Prop) (Post : β → Cursor → Prop) : Turn σ β → Cursor → Prop
  | again s => Inv s
  | done b => Post b

/-- What one turn does from every state, a repetition does from its first to its last turn. -/
theorem Yields.repeatFrom_induction {turn : σ → Rule (Turn σ β)} (Inv : σ → Cursor → Prop) (Post : β → Cursor → Prop)
    (hturn : ∀ s c outcome c', Inv s c → Yields (turn s) c outcome c' → Turn.Meets Inv Post outcome c')
    {fuel : Nat} {s : σ} {b : β} (hinv : Inv s c) (hrun : Yields (repeatFrom turn fuel s) c b c') : Post b c' := by
  induction fuel generalizing s c with
  | zero => exact absurd hrun yields_throw
  | succ fuel ih =>
      simp only [repeatFrom, yields_bind] at hrun
      obtain ⟨outcome, c₁, hfirst, hrest⟩ := hrun
      have hmeets := hturn s c outcome c₁ hinv hfirst
      cases outcome with
      | again s' => exact ih hmeets hrest
      | done result =>
          obtain ⟨rfl, rfl⟩ := yields_pure.mp hrest
          exact hmeets

/-- Gathering keeps an invariant of the trees gathered so far, and ends with a turn that yields nothing. -/
theorem Yields.gather_induction {turn : Rule (Option (List Tree))} (Inv : List Tree → Cursor → Prop)
    (hstep : ∀ trees c more c', Inv trees c → Yields turn c (some more) c' → Inv (trees ++ more) c')
    {fuel : Nat} {trees : List Tree} (hinv : Inv [] c) (hrun : Yields (gather fuel turn) c trees c') :
    ∃ c₁, Inv trees c₁ ∧ Yields turn c₁ none c' := by
  refine Yields.repeatFrom_induction (fun reversed c => Inv reversed.reverse c)
    (fun trees c' => ∃ c₁, Inv trees c₁ ∧ Yields turn c₁ none c') ?_ (by simpa using hinv) hrun
  intro reversed c outcome c' hinv hrun
  obtain ⟨yielded, c₁, hturn, hrest⟩ := yields_bind.mp hrun
  cases yielded with
  | none =>
      obtain ⟨rfl, rfl⟩ := yields_pure.mp hrest
      exact ⟨c, hinv, hturn⟩
  | some more =>
      obtain ⟨rfl, rfl⟩ := yields_pure.mp hrest
      simpa [Turn.Meets] using hstep _ _ more _ hinv hturn

end SwiftObservation.Grammar
