import SwiftObservation.Proofs.Migration.Following.Classes
import SwiftObservation.Proofs.Migration.Handover.Variables

/-!
# Tokens that last

A declaration is migrated before everything around it, and the rules for what is around it move trivia to its edges and may
remove attributes from it once more. A token goes on in others if it is among them with at least its own trivia in front.
The tokens of a migrated declaration go on in the migrated tree, if the declaration stands in no attribute that goes.

Two rules put other trivia in front of a token: that for classes that become observable and that for objects from the
environment. They do so only to the first token of a class and of a type, and no declaration begins with these.
-/

namespace SwiftObservation.Migration

open SwiftObservation.Tree

variable {names : List Text} {u : Token} {t core : Tree} {label : Label} {children trees found rest : List Tree}

/-! ### Tokens that go on -/

/-- The token goes on in one of the tokens. -/
def Continued (u : Token) (tokens : List Token) : Prop := ∃ w ∈ tokens, w.Continues u

theorem Continued.mono {tokens tokens' : List Token} (hu : Continued u tokens) (hsubset : tokens ⊆ tokens') :
    Continued u tokens' := by
  obtain ⟨w, hw, hcontinues⟩ := hu
  exact ⟨w, hsubset hw, hcontinues⟩

theorem Continued.of_forall₂ {tokens tokens' : List Token} (hu : Continued u tokens)
    (htokens : List.Forall₂ Token.Continues tokens' tokens) : Continued u tokens' := by
  obtain ⟨w, hw, hcontinues⟩ := hu
  induction htokens with
  | nil => cases hw
  | cons hfirst _ ih =>
      rcases List.mem_cons.mp hw with rfl | hw
      · exact ⟨_, by simp, hfirst.trans hcontinues⟩
      · exact Continued.mono (ih hw) (List.subset_cons_self _ _)

theorem Continued.tail_of_forall₂ {tokens tokens' : List Token} (hu : Continued u tokens.tail)
    (htokens : List.Forall₂ Token.Continues tokens' tokens) : Continued u tokens'.tail := by
  cases htokens with
  | nil => exact hu
  | cons _ hrest => exact hu.of_forall₂ hrest

theorem continued_leavesOf : Continued u (leavesOf trees) ↔ ∃ t ∈ trees, Continued u t.leaves := by
  constructor
  · rintro ⟨w, hw, hcontinues⟩
    obtain ⟨t, ht, hw⟩ := mem_leavesOf.mp hw
    exact ⟨t, ht, w, hw, hcontinues⟩
  · rintro ⟨t, ht, w, hw, hcontinues⟩
    exact ⟨w, mem_leavesOf.mpr ⟨t, ht, hw⟩, hcontinues⟩

theorem continued_node (ht : t ∈ children) (hu : Continued u t.leaves) : Continued u (Tree.node label children).leaves :=
  continued_leavesOf.mpr ⟨t, ht, hu⟩

/-- A token behind the first one. -/
theorem continued_tail_append {front back : List Token} (hfront : front ≠ []) (hu : Continued u back) :
    Continued u (front ++ back).tail := by
  rw [List.tail_append_of_ne_nil hfront]
  exact hu.mono (List.subset_append_right _ _)

theorem Continued.tail_append {front : List Token} (hu : Continued u front.tail) (back : List Token) :
    Continued u (front ++ back).tail := by
  cases front with
  | nil => obtain ⟨_, hw, -⟩ := hu; cases hw
  | cons first more => exact hu.mono (List.subset_append_left _ _)

/-! ### Single rules -/

theorem continued_rename (text : Text) (ht : t ∈ children) (hnode : t.token? = none) (hu : Continued u t.leaves) :
    Continued u (rename text (.node label children)).leaves := by
  unfold rename
  split
  next name rest heq =>
    obtain ⟨-, rfl⟩ := node.inj heq
    rcases List.mem_cons.mp ht with rfl | ht
    · cases hnode
    · exact continued_node (List.mem_cons_of_mem _ ht) hu
  next => exact continued_node ht hu

/-- An attribute that stays keeps its tokens. -/
theorem exists_continued_dropFrom {doomed : Tree → Bool} (carried : Option Text) (ht : t ∈ found) (hkept : doomed t = false)
    (hu : Continued u t.leaves) : ∃ t' ∈ (dropFrom doomed carried found).1, t'.bare = t.bare ∧ Continued u t'.leaves := by
  induction found generalizing carried with
  | nil => cases ht
  | cons s found ih =>
      rw [dropFrom]
      split
      next hdoomed =>
        rcases List.mem_cons.mp ht with rfl | ht
        · simp [hkept] at hdoomed
        · exact ih _ ht
      next =>
        rcases List.mem_cons.mp ht with rfl | ht
        · obtain ⟨t', hdelivered, hbare⟩ := deliver_singleton carried t
          have htokens := continues_deliver carried [t]
          rw [hdelivered, leavesOf_singleton, leavesOf_singleton] at htokens
          rw [hdelivered]
          exact ⟨t', by simp, hbare, hu.of_forall₂ htokens⟩
        · obtain ⟨s', hs', hfound⟩ := ih none ht
          exact ⟨s', List.mem_append_right _ hs', hfound⟩

/-- The token goes on in one of the attributes, which meets the condition, or behind them. -/
def ContinuedIn (u : Token) (condition : Tree → Bool) (found rest : List Tree) : Prop :=
  (∃ t ∈ found, condition t.bare = true ∧ Continued u t.leaves) ∨ Continued u (leavesOf rest)

theorem exists_continuedIn_dropAttributes (doomed : Tree → Bool) {condition : Tree → Bool} (label : Label)
    (hu : ContinuedIn u condition found rest)
    (hdoomed : ∀ t ∈ found, condition t.bare = true → doomed t = false) :
    ∃ found' rest', dropAttributes doomed (.node label (.node .attributes found :: rest)) =
        .node label (.node .attributes found' :: rest') ∧ ContinuedIn u condition found' rest' := by
  refine ⟨_, _, dropAttributes_node doomed label found rest, hu.imp ?_ fun hu => hu.of_forall₂ (continues_deliver _ rest)⟩
  rintro ⟨t, ht, hcondition, hu⟩
  obtain ⟨t', ht', hbare, hu⟩ := exists_continued_dropFrom none ht (hdoomed t ht hcondition) hu
  exact ⟨t', ht', by rwa [hbare], hu⟩

/-- The tokens of an entry without its comma. -/
def stem (entry : Tree) : List Token := if entry.endsInComma then entry.leaves.dropLast else entry.leaves

theorem stem_subset (entry : Tree) : stem entry ⊆ entry.leaves := by
  unfold stem
  split
  · exact List.dropLast_subset _
  · exact List.Subset.refl _

theorem leavesOf_withoutComma (label : Label) (children : List Tree) :
    leavesOf (withoutComma children) = stem (.node label children) := by
  unfold withoutComma stem endsInComma
  split
  next hcomma =>
    rw [Option.any_eq_true] at hcomma
    obtain ⟨comma, hlast, hcomma⟩ := hcomma
    obtain ⟨front, rfl⟩ := List.getLast?_eq_some_iff.mp hlast
    cases comma with
    | leaf token =>
        rw [List.dropLast_concat, if_pos (by simpa [Tree.children] using hcomma), leaves, leavesOf_append]
        simp [leavesOf, leaves]
    | _ => cases hcomma
  next hother =>
    rw [if_neg (by simpa [Tree.children] using hother)]
    rfl

theorem continued_stripComma (trailing : Text) (hu : Continued u (stem t)) : Continued u (stripComma trailing t).leaves := by
  cases t with
  | leaf token => exact hu
  | absent => exact hu
  | node label children =>
      rw [← leavesOf_withoutComma] at hu
      have hbare : Continued u (Tree.node label (withoutComma children)).leaves := hu
      exact hbare.of_forall₂ (continues_mapLast trailing _)

theorem continued_stem_deliver (carried : Option Text) (hu : Continued u (stem t)) :
    ∃ t', deliver carried [t] = [t'] ∧ Continued u (stem t') := by
  obtain ⟨t', hdelivered, hbare⟩ := deliver_singleton carried t
  have htokens := continues_deliver carried [t]
  rw [hdelivered, leavesOf_singleton, leavesOf_singleton] at htokens
  have hcomma : t'.endsInComma = t.endsInComma := by rw [← endsInComma_bare, hbare, endsInComma_bare]
  refine ⟨t', hdelivered, ?_⟩
  rw [stem, hcomma]
  unfold stem at hu
  split
  next hends =>
    rw [if_pos hends, List.dropLast_eq_take] at hu
    rw [List.dropLast_eq_take, htokens.length_eq]
    exact hu.of_forall₂ (List.forall₂_take _ htokens)
  next hends =>
    rw [if_neg hends] at hu
    exact hu.of_forall₂ htokens

/-- The token goes on in the entries that are left. -/
def Pruned.Continues (u : Token) : Pruned → Prop
  | .kept entries => ∃ entry ∈ entries, Continued u entry.leaves
  | _ => False

theorem continued_pruneFrom {reversed entries : List Tree} (carried : Option Text)
    (hlast : ∀ entry ∈ entries, isProtocolEntry entry = true → entry.last?.any (·.kind == .comma) = entry.endsInComma)
    (hcommaed : ∀ entry ∈ entries.dropLast, entry.endsInComma = true)
    (hu : (∃ entry ∈ reversed, Continued u (stem entry)) ∨
      ∃ entry ∈ entries, isProtocolEntry entry = false ∧ Continued u (stem entry)) :
    (pruneFrom reversed carried entries).Continues u := by
  induction entries generalizing reversed carried with
  | nil =>
      obtain ⟨entry, hentry, hu⟩ := hu.resolve_right (by simp)
      rw [pruneFrom, if_neg (by simp [List.ne_nil_of_mem hentry])]
      exact ⟨entry, List.mem_reverse.mpr hentry, hu.mono (stem_subset entry)⟩
  | cons entry rest ih =>
      have hrest := fun e he => hlast e (List.mem_cons_of_mem entry he)
      have hrest' : ∀ e ∈ rest.dropLast, e.endsInComma = true := by
        cases rest with
        | nil => simp
        | cons next rest => exact fun e he => hcommaed e (by simp [he])
      rw [pruneFrom]
      cases hprotocol : isProtocolEntry entry with
      | true =>
          have hu : (∃ entry ∈ reversed, Continued u (stem entry)) ∨
              ∃ entry ∈ rest, isProtocolEntry entry = false ∧ Continued u (stem entry) := by
            refine hu.imp_right ?_
            rintro ⟨e, he, hother, hu⟩
            rcases List.mem_cons.mp he with rfl | he
            · simp [hprotocol] at hother
            · exact ⟨e, he, hother, hu⟩
          simp only [if_true, hlast entry (by simp) hprotocol]
          cases hcomma : entry.endsInComma with
          | true => exact ih _ hrest hrest' hu
          | false =>
              -- Only the last entry lacks a comma, and the one kept before it loses its own.
              have hnone : rest = [] := by
                cases rest with
                | nil => rfl
                | cons next rest => exact absurd (hcommaed entry (by simp)) (by simp [hcomma])
              subst hnone
              obtain ⟨e, he, hkept⟩ := hu.resolve_right (by simp)
              cases reversed with
              | nil => cases he
              | cons before earlier =>
                  rw [if_neg (by simp)]
                  dsimp only
                  rw [pruneFrom, if_neg (by simp)]
                  rcases List.mem_cons.mp he with rfl | he
                  · exact ⟨_, List.mem_reverse.mpr List.mem_cons_self, continued_stripComma _ hkept⟩
                  · exact ⟨e, List.mem_reverse.mpr (List.mem_cons_of_mem _ he), hkept.mono (stem_subset e)⟩
      | false =>
          refine ih none hrest hrest' ?_
          obtain ⟨e, he, hu⟩ | ⟨e, he, hother, hu⟩ := hu
          · exact .inl ⟨e, List.mem_append_right _ he, hu⟩
          · rcases List.mem_cons.mp he with rfl | he
            · obtain ⟨entry', hdelivered, hu⟩ := continued_stem_deliver carried hu
              exact .inl ⟨entry', by simp [hdelivered], hu⟩
            · exact .inr ⟨e, he, hother, hu⟩

/-! ### The way down to a declaration -/

/-- The tree declares variables or a type. -/
def isDeclaration (t : Tree) : Bool := t.is .variableDecl || t.is .typeDecl

theorem exists_within_child (hcore : isDeclaration core = true) (hwithin : Within core (.node label children))
    (hlabel : isDeclaration (.node label children) = false) : ∃ t ∈ children, Within core t := by
  cases hwithin with
  | self => simp [hcore] at hlabel
  | child hmem hwithin => exact ⟨_, hmem, hwithin⟩

theorem not_within_leaf {token : Token} (hcore : isDeclaration core = true) : ¬ Within core (.leaf token) := by
  intro hwithin
  cases hwithin with
  | self => cases hcore

theorem token?_of_within (hcore : isDeclaration core = true) (hwithin : Within core t) : t.token? = none := by
  cases t with
  | leaf token => exact absurd hwithin (not_within_leaf hcore)
  | _ => rfl

theorem not_within_plainName {token : Token} (hcore : isDeclaration core = true) :
    ¬ Within core (.node .typeIdentifier [.leaf token]) := by
  intro hwithin
  obtain ⟨t, ht, hwithin⟩ := exists_within_child hcore hwithin rfl
  obtain rfl := List.mem_singleton.mp ht
  exact not_within_leaf hcore hwithin

theorem not_within_modifiers {modifiers : List Tree} (hcore : isDeclaration core = true)
    (hs : Shaped (.node .modifiers modifiers)) : ¬ Within core (.node .modifiers modifiers) := by
  intro hwithin
  obtain ⟨t, ht, hwithin⟩ := exists_within_child hcore hwithin rfl
  obtain ⟨parts, rfl⟩ := exists_of_is (hs.admits t ht)
  obtain ⟨tokens, rfl, -⟩ := (hs.of_mem ht).admits
  obtain ⟨s, hmem, hwithin⟩ := exists_within_child hcore hwithin rfl
  obtain ⟨token, -, rfl⟩ := List.mem_map.mp hmem
  exact not_within_leaf hcore hwithin

/-- The token of the migrated declaration goes on in all migrated trees around the declaration, up to the given one. -/
def Lasting (names : List Text) (core : Tree) (u : Token) (t : Tree) : Prop :=
  ∀ s, Within s t → Within core s → Continued u (migrate names s).leaves

theorem Lasting.of_mem (ht : Lasting names core u (.node label children)) {s : Tree} (hs : s ∈ children) :
    Lasting names core u s :=
  fun r hr => ht r (.child hs hr)

theorem Lasting.self (ht : Lasting names core u t) (hwithin : Within core t) : Continued u (migrate names t).leaves :=
  ht t .self hwithin

section Rules

variable (hcore : isDeclaration core = true)

include hcore

theorem Lasting.node_of_not_mem (hlabel : label ∉ ruled) (hin : ∀ t ∈ children, Lasting names core u t)
    (hwithin : Within core (.node label children)) : Continued u (migrate names (.node label children)).leaves := by
  have hother : isDeclaration (.node label children) = false := by
    cases label <;> first | rfl | exact absurd hlabel (by decide)
  obtain ⟨t, ht, hwithin⟩ := exists_within_child hcore hwithin hother
  rw [migrate_node_of_not_mem label hlabel]
  exact continued_node (List.mem_map_of_mem ht) ((hin t ht).self hwithin)

theorem Lasting.memberAccess (hs : Shaped (.node .memberAccess children)) (hin : ∀ t ∈ children, Lasting names core u t)
    (hwithin : Within core (.node .memberAccess children)) :
    Continued u (migrate names (.node .memberAccess children)).leaves := by
  obtain ⟨receiver, dot, name, rfl, -⟩ := hs.admits
  obtain ⟨t, ht, hinner⟩ := exists_within_child hcore hwithin rfl
  simp only [List.mem_cons, List.not_mem_nil, or_false] at ht
  have hreceiver : Within core receiver := by
    rcases ht with rfl | rfl | rfl
    · exact hinner
    · exact absurd hinner (not_within_leaf hcore)
    · exact absurd hinner (not_within_leaf hcore)
  have hu := (hin receiver (by simp)).self hreceiver
  rw [migrate_node, migrateNode, List.map_cons, List.map_cons, List.map_singleton, migrate_leaf, migrate_leaf, migrateMember]
  split <;> exact continued_node (by simp) hu

/-- The label of an argument may be renamed. -/
theorem Lasting.argument (hin : Lasting names core u t) (hwithin : Within core t) :
    Continued u (if isWrappedValue (migrate names t) then rename initialValueLabel (migrate names t)
      else migrate names t).leaves := by
  rw [isWrappedValue_migrate]
  split
  next hwrapped =>
    obtain ⟨parts, rfl⟩ := exists_of_is (Bool.and_eq_true_iff.mp hwrapped).1
    obtain ⟨s, hs, hwithin⟩ := exists_within_child hcore hwithin rfl
    rw [migrate_node_of_not_mem .argument (by decide)]
    exact continued_rename _ (List.mem_map_of_mem hs) (by rw [token?_migrate, token?_of_within hcore hwithin])
      ((hin.of_mem hs).self hwithin)
  next => exact hin.self hwithin

theorem Lasting.call (hin : ∀ t ∈ children, Lasting names core u t) (hwithin : Within core (.node .call children)) :
    Continued u (migrate names (.node .call children)).leaves := by
  obtain ⟨t, ht, hwithin⟩ := exists_within_child hcore hwithin rfl
  have hu := (hin t ht).self hwithin
  rw [migrate_node, migrateNode]
  by_cases hcall : ∃ callee args rest, children = .leaf callee :: .node .arguments args :: rest
  · obtain ⟨callee, args, rest, rfl⟩ := hcall
    rw [List.map_cons, List.map_cons, migrate_leaf, migrate_node_of_not_mem .arguments (by decide), migrateCall]
    simp only [List.mem_cons] at ht
    split
    next =>
      rcases ht with rfl | rfl | ht
      · exact absurd hwithin (not_within_leaf hcore)
      · obtain ⟨arg, harg, hwithin⟩ := exists_within_child hcore hwithin rfl
        have harg' := Lasting.argument hcore ((hin (.node .arguments args) (by simp)).of_mem harg) hwithin
        refine continued_node (List.mem_cons_of_mem _ List.mem_cons_self) (continued_node ?_ harg')
        exact List.mem_map.mpr ⟨migrate names arg, List.mem_map_of_mem harg, rfl⟩
      · exact continued_node (by simp [List.mem_map_of_mem ht]) hu
    next =>
      rcases ht with rfl | rfl | ht
      · exact absurd hwithin (not_within_leaf hcore)
      · rw [migrate_node_of_not_mem .arguments (by decide)] at hu
        exact continued_node (by simp) hu
      · exact continued_node (by simp [List.mem_map_of_mem ht]) hu
  · rw [migrateCall_eq_self fun callee args rest heq => hcall ⟨callee, args, rest, heq⟩]
    exact continued_node (List.mem_map_of_mem ht) hu

/-- An attribute that stays has its sign in front of everything else. -/
theorem Lasting.attr (hs : Shaped (.node .attr children)) (hin : ∀ t ∈ children, Lasting names core u t)
    (hobserved : isNamed observedObjectName (.node .attr children) = false) (hwithin : Within core (.node .attr children)) :
    ∃ sign trees, migrate names (.node .attr children) = .node .attr (.leaf sign :: trees) ∧ Continued u (leavesOf trees) := by
  obtain ⟨sign, name, args, rfl, -⟩ := hs.admits
  obtain ⟨t, ht, hwithin⟩ := exists_within_child hcore hwithin rfl
  have hu := (hin t ht).self hwithin
  rcases List.mem_cons.mp ht with rfl | ht
  · exact absurd hwithin (not_within_leaf hcore)
  cases hstate : isNamed stateObjectName (.node .attr (.leaf sign :: name :: Tree.optional .arguments args)) with
  | true =>
      obtain ⟨_, token, _, hchildren, htoken⟩ := exists_of_isNamed hstate
      obtain ⟨rfl, -⟩ := List.cons.inj (List.cons.inj hchildren).2
      rcases List.mem_cons.mp ht with rfl | ht
      · exact absurd hwithin (not_within_plainName hcore)
      · exact ⟨sign, _, migrate_attr_stateObject htoken, continued_leavesOf.mpr ⟨_, by simp [List.mem_map_of_mem ht], hu⟩⟩
  | false =>
      exact ⟨sign, _, migrate_attr_of_not_isNamed hstate hobserved, continued_leavesOf.mpr ⟨_, List.mem_map_of_mem ht, hu⟩⟩

end Rules

end SwiftObservation.Migration
