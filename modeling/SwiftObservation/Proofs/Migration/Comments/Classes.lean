import SwiftObservation.Proofs.Migration.Classes
import SwiftObservation.Proofs.Migration.Comments.Variables

/-!
# Classes stand clear of comments

A class that is converted loses entries of its inheritance clause, gains an attribute and has its members unpublished. An
entry that goes leaves the trivia in front of it to the next one, and if there is no next one, the trivia behind it to the
one before. An entry at the end that has a comma leaves neither, so the clause must not end in a comma.
-/

namespace SwiftObservation.Migration

open SwiftObservation.Tree

variable {names : List Text} {lead middle behind : Lead} {entry : Tree} {entries reversed trees : List Tree} {text : Text}

/-! ### Entries of an inheritance clause -/

theorem leaves_of_commaless (hentry : (commaless entry).leaves ≠ []) : entry.leaves ≠ [] := by
  obtain ⟨part, hpart, hleaves⟩ := leavesOf_ne_nil.mp hentry
  have hmem : part ∈ entry.children.map bare := by
    rw [← children_bare]
    unfold withoutComma at hpart
    split at hpart
    · exact List.dropLast_subset _ hpart
    · exact hpart
  obtain ⟨child, hchild, rfl⟩ := List.mem_map.mp hmem
  cases entry with
  | node label children => exact leavesOf_ne_nil.mpr ⟨child, hchild, leaves_ne_nil_of_bare (bare_bare child) hleaves⟩
  | _ => cases hchild

/-- A migrated entry holds a token besides its comma. -/
theorem leaves_commaless_migrate (hs : entry.Shaped) (hf : entry.Filled) (hlabel : entry.is .inheritedType = true) :
    (commaless (migrate names entry)).leaves ≠ [] := by
  obtain ⟨children, rfl⟩ := exists_of_is hlabel
  obtain ⟨label, parts, comma, rfl, -⟩ := hs.admits
  obtain ⟨_, _, hchildren, hleaves⟩ := hf.holds (by simp)
  obtain ⟨rfl, -⟩ := List.cons.inj hchildren
  have hleaves := leaves_migrate names (hs.of_mem (by simp)) hleaves
  obtain ⟨parts', hnode⟩ := exists_migrateNode names label (parts.map (migrate names))
  rw [migrate_node, hnode] at hleaves
  rw [migrate_node_of_not_mem .inheritedType (by decide), List.map_cons, migrate_node, hnode, commaless, bare_node,
    Tree.children, List.map_cons, bare_node]
  obtain ⟨more, heq, -⟩ := withoutComma_cons_node label (parts'.map bare) (((optionalLeaf comma).map (migrate names)).map bare)
  rw [heq, leaves, leavesOf, ← bare_node]
  exact List.append_ne_nil_of_left_ne_nil (leaves_ne_nil_of_bare (bare_bare _).symm hleaves) _

theorem clear_stripComma (hentry : (commaless entry).leaves ≠ []) (hclear : entry.Clear lead middle)
    (hwhole : Trivia.Whole text) (hbehind : Lead.behind text ≤ behind) : (stripComma text entry).Clear lead behind := by
  cases entry with
  | node label children =>
      have hleaves : leavesOf (withoutComma children) ≠ [] := by
        refine leavesOf_ne_nil_of_bare ?_ hentry
        rw [bare_node, Tree.children, ← map_bare_withoutComma, List.map_map]
        exact List.map_congr_left fun part _ => bare_bare part
      obtain ⟨last, hparts⟩ : ∃ last, ClearAll .any lead (withoutComma children) last := by
        rw [clear_node] at hclear
        unfold withoutComma
        split
        next hcomma =>
          rw [Option.any_eq_true] at hcomma
          obtain ⟨comma, hlast, -⟩ := hcomma
          obtain ⟨front, rfl⟩ := List.getLast?_eq_some_iff.mp hlast
          obtain ⟨last, hfront, -⟩ := clearAll_append.mp hclear
          exact ⟨last, by rwa [List.dropLast_concat]⟩
        next => exact ⟨_, hclear⟩
      exact (clear_node.mpr hparts).mapLast_trailing hleaves hwhole hbehind
  | _ => exact absurd rfl hentry

/-- What is left of an inheritance clause stands clear of comments, the trivia behind it included. -/
def Pruned.Clear (lead : Lead) (pruned : Pruned) (behind : Lead) : Prop :=
  match pruned with
  | dangling => True
  | emptied trailing => Trivia.Whole trailing ∧ Lead.behind trailing ≤ behind
  | kept entries => ClearAll .any lead entries behind

/-- Entries that the protocol can be taken from: each holds a token besides its comma, and only the last one lacks a comma. -/
structure Prunable (entries : List Tree) : Prop where
  holds : ∀ entry ∈ entries, (commaless entry).leaves ≠ []
  last? : ∀ entry ∈ entries, isProtocolEntry entry = true → entry.last?.any (·.kind == .comma) = entry.endsInComma
  commaed : ∀ entry ∈ entries.dropLast, entry.endsInComma = true
  ending : entries.getLast?.any (·.endsInComma) = false

theorem Prunable.tail (hentries : Prunable (entry :: entries)) : Prunable entries where
  holds := fun e he => hentries.holds e (List.mem_cons_of_mem entry he)
  last? := fun e he => hentries.last? e (List.mem_cons_of_mem entry he)
  commaed := by
    cases entries with
    | nil => simp
    | cons second rest => exact fun e he => hentries.commaed e (by simp [he])
  ending := by
    cases entries with
    | nil => rfl
    | cons second rest =>
        rw [← List.getLast?_cons_cons]
        exact hentries.ending

theorem Prunable.eq_nil_iff (hentries : Prunable (entry :: entries)) : entries = [] ↔ entry.endsInComma = false := by
  cases entries with
  | nil => exact iff_of_true rfl (by simpa using hentries.ending)
  | cons second rest => exact iff_of_false (by simp) (by simp [hentries.commaed entry (by simp)])

/-- When another entry goes, only the trivia in front of the first one is carried on. -/
theorem Carries.skip {carried : Option Text} (hcarried : Carries lead carried middle)
    (hclosed : ∀ text ∈ carried, Trivia.Closed text) (hleaves : entry.leaves ≠ []) (hentry : entry.Clear middle behind)
    (hfresh : .fresh ≤ behind) :
    Carries lead (carried.or (some ((entry.first?.map (·.leading)).getD []))) behind ∧
      ∀ text ∈ carried.or (some ((entry.first?.map (·.leading)).getD [])), Trivia.Closed text := by
  cases carried with
  | some earlier =>
      obtain ⟨hwhole, hadmits, -, -⟩ := hcarried
      exact ⟨⟨hwhole, hadmits, (hclosed earlier rfl).behind_le behind, hfresh⟩, hclosed⟩
  | none =>
      obtain ⟨hadmits, hleading⟩ := hentry.leading_first hleaves
      refine ⟨⟨hleading.whole, hcarried _ hadmits, hleading.behind_le behind, hfresh⟩, fun text htext => ?_⟩
      obtain rfl := Option.some.inj htext
      exact hleading

/-- The entries kept so far end in `after`, and what is carried joins them to the entries to come. -/
theorem clear_pruneFrom {after next : Lead} {carried : Option Text} (hprunable : Prunable entries)
    (hkept : ∀ entry ∈ reversed, (commaless entry).leaves ≠ []) (hnone : entries = [] → carried = none)
    (hclosed : ∀ text ∈ carried, Trivia.Closed text) (hreversed : ClearAll .any lead reversed.reverse after)
    (hcarried : Carries after carried next) (hentries : ClearAll .fresh next entries behind) :
    (pruneFrom reversed carried entries).Clear lead behind := by
  induction entries generalizing reversed carried after next with
  | nil =>
      obtain rfl := hnone rfl
      rw [pruneFrom]
      split
      · trivial
      · exact hreversed.mono le_rfl (le_trans hcarried hentries)
  | cons entry rest ih =>
      obtain ⟨next', hfresh, hentry, hrest⟩ := hentries
      have hholds : (commaless entry).leaves ≠ [] := hprunable.holds entry (by simp)
      have hleaves : entry.leaves ≠ [] := leaves_of_commaless hholds
      rw [pruneFrom]
      split
      next hprotocol =>
        rw [hprunable.last? entry (by simp) hprotocol]
        split
        next hcomma =>
          obtain ⟨hcarried', hclosed'⟩ := hcarried.skip hclosed hleaves hentry hfresh
          refine ih hprunable.tail hkept (fun hlast => ?_) hclosed' hreversed hcarried' hrest
          exact absurd (hprunable.eq_nil_iff.mp hlast) (by simp [hcomma])
        next hcomma =>
          -- Only the last entry can lack a comma, and the one kept before it loses its own.
          obtain rfl : rest = [] := hprunable.eq_nil_iff.mpr (by simpa using hcomma)
          obtain ⟨hwhole, hbehind⟩ := hentry.trailing_last hleaves
          cases reversed with
          | nil => exact ⟨hwhole, hbehind.trans hrest⟩
          | cons before earlier =>
              rw [List.reverse_cons, clearAll_append] at hreversed
              obtain ⟨last, hearlier, hbefore⟩ := hreversed
              have hstripped : (stripComma ((entry.last?.map (·.trailing)).getD []) before).Clear last behind :=
                clear_stripComma (hkept before (by simp)) (clearAll_singleton.mp hbefore) hwhole (hbehind.trans hrest)
              dsimp only
              rw [pruneFrom, if_neg (by simp), Pruned.Clear, List.reverse_cons]
              exact clearAll_append.mpr ⟨last, hearlier, clearAll_singleton.mpr hstripped⟩
      next =>
        obtain ⟨entry', hdelivered, hbare⟩ := deliver_singleton carried entry
        have hclear : ClearAll .any after (deliver carried [entry]) next' :=
          clear_deliver hcarried (by simpa [leavesOf] using hleaves) (clearAll_singleton.mpr hentry)
        rw [hdelivered] at hclear ⊢
        refine ih hprunable.tail ?_ (fun _ => rfl) (by simp) ?_ (le_refl next') hrest
        · simp only [List.reverse_singleton, List.singleton_append, List.forall_mem_cons]
          exact ⟨by rwa [commaless_congr hbare], hkept⟩
        · rw [List.reverse_append, List.reverse_reverse]
          exact clearAll_append.mpr ⟨after, hreversed, hclear⟩

theorem AreEntries.prunable_migrate (hentries : AreEntries entries) (hf : FilledAll entries)
    (hending : entries.getLast?.any (·.endsInComma) = false) : Prunable (entries.map (migrate names)) where
  holds := by
    intro entry' hentry'
    obtain ⟨entry, hentry, rfl⟩ := List.mem_map.mp hentry'
    exact leaves_commaless_migrate (hentries.shaped entry hentry) (hf entry hentry) (hentries.label entry hentry)
  last? := hentries.last?_migrate
  commaed := hentries.commaed_migrate
  ending := by
    rw [List.getLast?_map]
    cases hlast : entries.getLast? with
    | none => rfl
    | some last =>
        rw [hlast] at hending
        rw [Option.map_some, Option.any_some, hentries.endsInComma_migrate (List.mem_of_getLast? hlast)]
        exact hending

theorem clear_prune (hprunable : Prunable entries) (hentries : ClearAll .fresh lead entries behind) :
    (prune entries).Clear lead behind := by
  have hnothing : ClearAll .any lead ([] : List Tree).reverse lead := le_refl lead
  exact clear_pruneFrom hprunable (by simp) (fun _ => rfl) (by simp) hnothing (le_refl lead) hentries

/-! ### Attributes in front of a class -/

/-- The attribute that makes a class observable takes the trivia in front of the class and ends its own line. -/
theorem clear_prependObservable (htrees : ClearAll .any lead trees behind) :
    ClearAll .any lead (prependObservable trees) behind := by
  unfold prependObservable
  split
  next => exact htrees
  next head hhead =>
    dsimp only
    split
    next found rest hindented =>
      rw [firstOf?_eq] at hhead
      obtain ⟨more, hleaves⟩ := List.head?_eq_some_iff.mp hhead
      have hsome : leavesOf trees ≠ [] := by simp [hleaves]
      obtain ⟨token, more', heq, hchanged⟩ :=
        leavesOf_mapFirstOf? (f := ({ · with leading := Trivia.indentation head.leading })) hsome
      obtain ⟨rfl, rfl⟩ := List.cons.inj (heq.symm.trans hleaves)
      rw [clearAll_iff, heq] at htrees
      have hlead : lead.Admits token.leading ∧ Trivia.Closed token.leading := by
        cases htrees with
        | cons here _ _ => exact ⟨here.admits, here.leading⟩
      have hbehind : Token.Clear .any .any (leavesOf (.node .attributes found :: rest)) behind := by
        rw [← hindented, hchanged]
        exact htrees.withLeading trivial (Trivia.closed_indentation _)
      rw [clearAll_iff]
      refine .cons ⟨hlead.1, hlead.2, Trivia.closed_nil.whole, Trivia.closed_nil.behind_le .any⟩ le_rfl ?_
      have hending (text : Text) : Trivia.Closed (Trivia.lineEnding text) := Trivia.closed_lineEnding text
      exact .cons ⟨trivial, Trivia.closed_nil, (hending _).whole, (hending _).behind_le .any⟩ le_rfl hbehind
    next => exact htrees

/-! ### Classes -/

/-- A row of trees that gets the trivia behind it from a tree that goes. -/
theorem clear_endWith {front : List Tree} {last : Tree} (hlast : last.leaves ≠ [])
    (htrees : ClearAll .any lead (front ++ [last]) middle) (hwhole : Trivia.Whole text) (hbehind : Lead.behind text ≤ behind) :
    ClearAll .any lead (endWith text (front ++ [last])) behind := by
  obtain ⟨next, hfront, hclear⟩ := clearAll_append.mp htrees
  have hended := (clearAll_singleton.mp hclear).mapLast_trailing hlast hwhole hbehind
  simp only [endWith, List.getLast?_concat, List.dropLast_concat]
  exact clearAll_append.mpr ⟨next, hfront, clearAll_singleton.mpr hended⟩

namespace ClassParts

variable {p : ClassParts} {front left : List Tree}

/-- What stands in front of an inheritance clause ends in a token. -/
theorem exists_head_concat (names : List Text) (hs : Shaped (.node .typeDecl p.trees)) (hf : Filled (.node .typeDecl p.trees)) :
    ∃ front last, (p.migrated names).head = front ++ [last] ∧ last.leaves ≠ [] := by
  cases hparams : p.params with
  | none =>
      refine ⟨[.node .attributes (p.migrated names).attributes, .node .modifiers (p.migrated names).modifiers,
        .leaf p.keyword], .leaf p.name, ?_, by simp [leaves]⟩
      simp [head, migrated, hparams, Tree.optional]
  | some params =>
      have hmem : .node .genericParams params ∈ p.trees := by simp [trees, head, Tree.optional, hparams]
      obtain ⟨first, rest, rfl, hfirst⟩ := (hf.inner _ hmem).holds (by simp)
      have hleaves : (Tree.node .genericParams (first :: rest)).leaves ≠ [] :=
        leavesOf_ne_nil.mpr ⟨first, by simp, hfirst⟩
      refine ⟨[.node .attributes (p.migrated names).attributes, .node .modifiers (p.migrated names).modifiers,
        .leaf p.keyword, .leaf p.name], migrate names (.node .genericParams (first :: rest)), ?_,
        leaves_migrate names (hs.of_mem hmem) hleaves⟩
      simp [head, migrated, hparams, Tree.optional, migrate_node_of_not_mem .genericParams (by decide)]

/-- The migrated parts of a class stand clear of comments, and the entries of its inheritance clause begin with fresh trivia.
Less is asked around its members, which may have comments first on a line once they are unpublished. -/
structure StandsClear (names : List Text) (p : ClassParts) (lead first second third behind : Lead) : Prop where
  head : ClearAll .any lead (p.migrated names).head first
  clause : ClearAll .any first (Tree.optional .inheritance (p.migrated names).clause) second
  entries : ∀ colon entries, p.clause = some (colon :: entries) →
    ∃ next, (migrate names colon).Clear first next ∧ ClearAll .fresh next (entries.map (migrate names)) second
  requirements : ClearAll .any second (Tree.optional .whereClause (p.migrated names).requirements) third
  members : ClearAll .any third.loosen ((p.migrated names).members.map unpublish) behind.loosen

/-- What is left in front of the requirements and the body of a class that leaves the protocol. -/
theorem StandsClear.leaveProtocol {first second third : Lead} (hp : StandsClear names p lead first second third behind)
    (hs : Shaped (.node .typeDecl p.trees)) (hf : Filled (.node .typeDecl p.trees))
    (hending : p.entries.getLast?.any (·.endsInComma) = false)
    (hleft : leaveProtocol (p.migrated names).trees = .done left) :
    ∃ front, left = front ++ (p.migrated names).tail ∧ (p.migrated names).Begins front ∧ ClearAll .any lead front second := by
  cases hparts : p.clause with
  | none =>
      have hnone : (p.migrated names).clause = none := by simp [migrated, hparts]
      rw [leaveProtocol_of_none hnone] at hleft
      cases hleft
  | some parts =>
      have hmem : .node .inheritance parts ∈ p.trees := by simp [trees, Tree.optional, hparts]
      obtain ⟨colon, entries, rfl, hentries⟩ := Shaped.areEntries (shaped_clause hs parts hparts)
      obtain ⟨next, hcolon, hclear⟩ := hp.entries _ entries hparts
      have hfilled : FilledAll entries := (filledAll_cons.mp (hf.inner _ hmem).inner).2
      have hself : p.entries = entries := by simp [ClassParts.entries, hparts]
      have hpruned := clear_prune (hentries.prunable_migrate hfilled (hself ▸ hending)) hclear
      have hmigrated : (p.migrated names).clause = some (.leaf colon :: entries.map (migrate names)) := by
        simp [migrated, hparts]
      rw [leaveProtocol_of_some hmigrated] at hleft
      split at hleft
      next =>
        cases hprune : prune (entries.map (migrate names)) with
        | dangling => simp [hprune] at hleft
        | emptied trailing =>
            rw [hprune] at hleft hpruned
            refine ⟨_, (Leaving.done.inj hleft).symm, begins_endWith_head trailing, ?_⟩
            obtain ⟨before, last, heq, hlast⟩ := exists_head_concat names hs hf
            have hhead := hp.head
            rw [heq] at hhead ⊢
            exact clear_endWith hlast hhead hpruned.1 hpruned.2
        | kept kept =>
            rw [hprune] at hleft hpruned
            refine ⟨_, (Leaving.done.inj hleft).symm, begins_head_append _, ?_⟩
            refine clearAll_append.mpr ⟨first, hp.head, clearAll_singleton.mpr (clear_node.mpr ?_)⟩
            exact ⟨next, Lead.any_le _, hcolon, hpruned⟩
      next => cases hleft

/-- The children of a class that is converted. Its members may have lost comments' lines, so less is asked around them. -/
theorem clear_convertClass (hfront : p.Begins front) (hclear : ClearAll .any lead front middle) {next : Lead}
    (hrequirements : ClearAll .any middle (Tree.optional .whereClause p.requirements) next)
    (hmembers : ClearAll .any next.loosen (p.members.map unpublish) behind.loosen) :
    ClearAll .any lead (convertClass (.node .attributes p.attributes) (front ++ p.tail)) behind := by
  obtain ⟨rest, rfl, hkeyword⟩ := hfront
  have hbody : ClearAll .any lead (unpublishBody (.node .attributes p.attributes :: rest ++ p.tail)) behind := by
    rw [tail, ← List.append_assoc, unpublishBody_concat]
    refine clearAll_append.mpr ⟨next.loosen, ?_, clearAll_singleton.mpr (clear_node.mpr ?_)⟩
    · have hall := clearAll_iff.mp (clearAll_append.mpr ⟨middle, hclear, hrequirements⟩)
      exact clearAll_iff.mpr (hall.loosen_behind (leavesOf_ne_nil_of_leaf (List.mem_append_left _ (List.mem_cons_of_mem _ hkeyword))))
    · exact hmembers.mono le_rfl behind.loosen_le
  rw [convertClass]
  split
  · exact hbody
  · exact clear_prependObservable hbody

theorem StandsClear.migrate {first second third : Lead} (hp : StandsClear names p lead first second third behind)
    (hs : Shaped (.node .typeDecl p.trees)) (hf : Filled (.node .typeDecl p.trees))
    (hending : p.entries.getLast?.any (·.endsInComma) = false) (hconverted : isConverted names p.trees = true) :
    (migrate names (.node .typeDecl p.trees)).Clear lead behind := by
  rw [isConverted_eq] at hconverted
  rw [migrate_node, map_migrate_trees, migrateNode, migrateType_eq]
  obtain ⟨hnone, hleft, -⟩ | ⟨hsome, -, hcommaed⟩ | ⟨-, -, left, hleft, -⟩ := leaveProtocol_cases names (shaped_clause hs)
  · have hname : names.contains (p.migrated names).name.text = true := by simpa [hnone] using hconverted
    simp only [hleft, hname, if_true]
    rw [trees, ← List.append_assoc, clear_node]
    exact clear_convertClass (begins_head_append _) (clearAll_append.mpr ⟨first, hp.head, hp.clause⟩) hp.requirements hp.members
  · simp [hsome, hcommaed, -List.all_eq_true, -List.any_eq_true] at hconverted
  · obtain ⟨front, heq, hbegins, hfront⟩ := hp.leaveProtocol hs hf hending hleft
    simp only [hleft, heq, clear_node]
    exact clear_convertClass hbegins hfront hp.requirements hp.members

end ClassParts

end SwiftObservation.Migration
