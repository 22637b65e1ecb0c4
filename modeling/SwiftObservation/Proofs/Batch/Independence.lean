import SwiftObservation.Command.Run
import SwiftObservation.Proofs.Batch.File

/-!
# The files of a batch do not influence one another

What the conversion of a file does depends on where its path leads and on what it reads there. Other conversions change
neither, as long as they are of other files: they write contents only, and paths lead through directories. So after any
part of a batch every file tried so far is as its own conversion would have left it, every other file is as it was, and the
results are those of the conversions by themselves. An interruption in the middle of a conversion leaves one of two states:
before the file is replaced, that of the files in front of it, and behind that the state in which its conversion is done
with, though the batch has no result of it.
-/

namespace SwiftObservation

namespace Store

variable {s s' : Store}

/-- The stores differ in nothing but the contents of files. -/
structure Alike (s s' : Store) : Prop where
  workingDirectory : s'.workingDirectory = s.workingDirectory
  entry : ∀ l, s'.get? l = s.get? l ∨ ∃ old new, s.get? l = some (.file old) ∧ s'.get? l = some (.file new)

theorem Alike.walk_eq (halike : Alike s s') (l : Location) (names : List Text) : s'.walk l names = s.walk l names := by
  induction names generalizing l with
  | nil => rfl
  | cons name rest ih =>
      rw [walk, walk]
      obtain hsame | ⟨old, new, hold, hnew⟩ := halike.entry l
      · rw [hsame]
        simp only [ih]
      · rw [hold, hnew]

theorem Alike.locate_eq (halike : Alike s s') (p : Path) : s'.locate p = s.locate p := by
  rw [locate, locate, origin, origin, halike.workingDirectory, halike.walk_eq]

theorem Alike.read_eq (halike : Alike s s') {p : Path} (hsame : ∀ l, s.locate p = .ok l → s'.get? l = s.get? l) :
    s'.read p = s.read p := by
  rw [read, read, find, find, halike.locate_eq]
  cases hlocated : s.locate p with
  | error fault => rfl
  | ok l => simp only [hsame l hlocated]

/-- The paths lead to one file. -/
def SameFile (s : Store) (p q : Path) : Prop :=
  ∃ l contents, s.locate p = .ok l ∧ s.locate q = .ok l ∧ s.get? l = some (.file contents)

theorem SameFile.symm {p q : Path} (hsame : SameFile s p q) : SameFile s q p := by
  obtain ⟨l, contents, hp, hq, hfile⟩ := hsame
  exact ⟨l, contents, hq, hp, hfile⟩

end Store

namespace Batch

open Store

variable {mode : ConversionMode} {store s after : Store} {path : Path} {paths : List Path} {result : FileResult}

/-- In a store in which the path leads to the same place and reads the same, the conversion of the file takes the same
course, and writes the same contents if it writes any. -/
theorem Course.transfer (hcourse : Course mode store path after result) (hlocate : s.locate path = store.locate path)
    (hread : s.read path = store.read path) :
    ∃ after', Course mode s path after' result ∧
      (after = store ∧ after' = s ∨
        ∃ l old new, store.locate path = .ok l ∧ l ≠ [] ∧ store.get? l = some (.file old) ∧
          after = store.put l (.file new) ∧ after' = s.put l (.file new)) := by
  have htext : readText s path = readText store path := by rw [readText, readText, hread]
  rw [← hlocate]
  cases hcourse with
  | unreadable h => exact ⟨s, .unreadable (htext.trans h), .inl ⟨rfl, rfl⟩⟩
  | unconvertible h hrefused => exact ⟨s, .unconvertible (htext.trans h) hrefused, .inl ⟨rfl, rfl⟩⟩
  | unchanged h hconverted hsame => exact ⟨s, .unchanged (htext.trans h) hconverted hsame, .inl ⟨rfl, rfl⟩⟩
  | shown h hconverted hchanged hdry => exact ⟨s, .shown (htext.trans h) hconverted hchanged hdry, .inl ⟨rfl, rfl⟩⟩
  | unwritable h hconverted hchanged hwet hlocated hfault =>
      exact ⟨s, .unwritable (htext.trans h) hconverted hchanged hwet (hlocate.trans hlocated) hfault, .inl ⟨rfl, rfl⟩⟩
  | written h hconverted hchanged hwet hlocated hfaultless =>
      obtain ⟨hbelow, old, hold, -⟩ := exists_file_of_readText h hlocated
      exact ⟨_, .written (htext.trans h) hconverted hchanged hwet (hlocate.trans hlocated) hfaultless,
        .inr ⟨_, old, _, hlocate.trans hlocated, hbelow, hold, rfl, rfl⟩⟩

/-! ### Part of a batch -/

/-- The store is what the conversions of the files at the paths, each by itself, make of the first store together. -/
structure Converted (mode : ConversionMode) (store : Store) (paths : List Path) (s : Store) : Prop where
  workingDirectory : s.workingDirectory = store.workingDirectory
  tried : ∀ p ∈ paths, ∀ l, store.locate p = .ok l → s.get? l = (convertReachable mode store p).1.get? l
  other : ∀ l, (∀ p ∈ paths, store.locate p ≠ .ok l) → s.get? l = store.get? l

/-- Whatever of a batch was converted, a location is as it was, or a file that one of the paths leads to. -/
theorem Converted.get?_cases (hconverted : Converted mode store paths s) (l : Location) :
    s.get? l = store.get? l ∨
      (∃ p ∈ paths, store.locate p = .ok l) ∧ ∃ old new, store.get? l = some (.file old) ∧ s.get? l = some (.file new) := by
  by_cases htried : ∃ p ∈ paths, store.locate p = .ok l
  · obtain ⟨p, hp, hlocated⟩ := htried
    rw [hconverted.tried p hp l hlocated]
    obtain hsame | ⟨-, hfiles⟩ := (course_convertReachable mode store p).get?_cases l
    · exact .inl hsame
    · exact .inr ⟨⟨p, hp, hlocated⟩, hfiles⟩
  · exact .inl (hconverted.other l fun p hp hlocated => htried ⟨p, hp, hlocated⟩)

theorem Converted.alike (hconverted : Converted mode store paths s) : Alike store s where
  workingDirectory := hconverted.workingDirectory
  entry l := (hconverted.get?_cases l).imp_right And.right

/-- A file that is not among those converted is as it was. -/
theorem Converted.get?_of_not_sameFile (hconverted : Converted mode store paths s)
    (hother : ∀ p ∈ paths, ¬SameFile store p path) {l : Location} (hlocated : store.locate path = .ok l) :
    s.get? l = store.get? l := by
  obtain hsame | ⟨⟨p, hp, hshared⟩, old, -, hold, -⟩ := hconverted.get?_cases l
  · exact hsame
  · exact absurd ⟨l, old, hshared, hlocated, hold⟩ (hother p hp)

/-- The conversion of one more file gives the result that it gives by itself. -/
theorem Converted.step (hconverted : Converted mode store paths s) (hother : ∀ p ∈ paths, ¬SameFile store p path) :
    (convertReachable mode s path).2 = (convertReachable mode store path).2 ∧
      Converted mode store (paths ++ [path]) (convertReachable mode s path).1 := by
  have hself {l : Location} (hlocated : store.locate path = .ok l) : s.get? l = store.get? l :=
    hconverted.get?_of_not_sameFile hother hlocated
  obtain ⟨after, hcourse, hstores⟩ := (course_convertReachable mode store path).transfer
    (hconverted.alike.locate_eq path) (hconverted.alike.read_eq fun _ => hself)
  rw [convertReachable_eq hcourse]
  refine ⟨rfl, ?_⟩
  obtain ⟨hbefore, rfl⟩ | ⟨l, old, new, hlocated, hbelow, hold, hbefore, rfl⟩ := hstores
  · refine ⟨hconverted.workingDirectory, fun p hp m hm => ?_, fun m hm => ?_⟩
    · rcases List.mem_append.mp hp with hp | hp
      · exact hconverted.tried p hp m hm
      · obtain rfl := List.mem_singleton.mp hp
        rw [hbefore, hself hm]
    · exact hconverted.other m fun p hp => hm p (List.mem_append_left _ hp)
  · refine ⟨hconverted.workingDirectory, fun p hp m hm => ?_, fun m hm => ?_⟩
    · rcases List.mem_append.mp hp with hp | hp
      · have hapart : m ≠ l := by
          rintro rfl
          exact hother p hp ⟨m, old, hm, hlocated, hold⟩
        rw [s.get?_put_of_ne hapart, hconverted.tried p hp m hm]
      · obtain rfl := List.mem_singleton.mp hp
        obtain rfl := Except.ok.inj (hlocated.symm.trans hm)
        rw [hbefore, s.get?_put_self hbelow, store.get?_put_self hbelow]
    · have hapart : m ≠ l := by
        rintro rfl
        exact hm path (by simp) hlocated
      rw [s.get?_put_of_ne hapart]
      exact hconverted.other m fun p hp => hm p (List.mem_append_left _ hp)

/-! ### Interruptions -/

/-- Before a file is replaced, an interruption of its conversion leaves everything as it was: the temporary file, however
full, is gone again. -/
theorem interruptReachable_of_ne {moment : Moment} (hbefore : moment ≠ .finished) :
    interruptReachable mode store path moment = store := by
  cases moment with
  | outset => rfl
  | filling count =>
      rw [interruptReachable]
      split
      next => exact Store.cutOff_eq ..
      next => rfl
  | finished => exact absurd rfl hbefore

theorem interruptFile_eq (mode : ConversionMode) (store : Store) (hnull : path.hasNull = false) (moment : Moment) :
    interruptFile mode store path moment = (interruptReachable mode store path moment, .ok ()) := by
  rw [interruptFile, hnull, Bool.false_and]
  rfl

/-- The paths that a batch has results of: those in front of the one whose conversion is interrupted. -/
def triedBefore (interruption : Option Interruption) (paths : List Path) : List Path :=
  match interruption with
  | some i => paths.take i.place
  | none => paths

/-- The paths whose conversions are done with. The interrupted one is among them if only its result was not noted. -/
def doneBefore (interruption : Option Interruption) (paths : List Path) : List Path :=
  match interruption with
  | some i => paths.take (if i.moment = .finished then i.place + 1 else i.place)
  | none => paths

/-- An interruption behind the last file is none. -/
theorem triedBefore_eq_self {interruption : Option Interruption} (hbehind : ∀ i ∈ interruption, paths.length ≤ i.place) :
    triedBefore interruption paths = paths ∧ doneBefore interruption paths = paths := by
  cases interruption with
  | none => exact ⟨rfl, rfl⟩
  | some i =>
      have hplace : paths.length ≤ i.place := hbehind i rfl
      refine ⟨List.take_of_length_le hplace, List.take_of_length_le ?_⟩
      split <;> omega

/-- An interrupted conversion counts among those that are done with if it came to its end. -/
theorem Converted.interrupt (hconverted : Converted mode store paths s) (hother : ∀ p ∈ paths, ¬SameFile store p path)
    (moment : Moment) :
    Converted mode store (paths ++ if moment = .finished then [path] else []) (interruptReachable mode s path moment) := by
  split
  next hfinished =>
    subst hfinished
    exact (hconverted.step hother).2
  next hbefore =>
    rw [List.append_nil, interruptReachable_of_ne hbefore]
    exact hconverted

/-! ### Whole batches -/

/-- The step of a batch that is interrupted. -/
theorem convertFrom_interrupted {i : Interruption} {reversed : List FileResult} (hplace : i.place = reversed.length)
    (hnull : path.hasNull = false) (rest : List Path) :
    convertFrom mode (some i) s reversed (path :: rest) =
      (interruptReachable mode s path i.moment, .ok { files := reversed.reverse, interrupted := true }) := by
  have hhere : (some i).filter (·.place == reversed.length) = some i := by simp [Option.filter, hplace]
  rw [convertFrom, hhere]
  simp only [interruptFile_eq mode s hnull]

/-- The step of a batch that is not. -/
theorem convertFrom_continued {interruption : Option Interruption} {reversed : List FileResult}
    (hplace : ∀ i ∈ interruption, i.place ≠ reversed.length) (hnull : path.hasNull = false) (rest : List Path) :
    convertFrom mode interruption s reversed (path :: rest) =
      convertFrom mode interruption (convertReachable mode s path).1 ((convertReachable mode s path).2 :: reversed) rest := by
  have hnothere : interruption.filter (·.place == reversed.length) = none := by
    rw [Option.filter_eq_none_iff]
    exact fun i hi => by simpa using hplace i hi
  rw [convertFrom, hnothere]
  simp only [convertFile_eq mode s hnull]

/-- The rest of a batch of which some files are done, with any interruption ahead: the results are those of the conversions
by themselves. -/
theorem Converted.convertFrom {done rest : List Path} {interruption : Option Interruption}
    (hconverted : Converted mode store done s) (hnull : ∀ p ∈ rest, p.hasNull = false)
    (hdistinct : (done ++ rest).Pairwise fun p q => ¬SameFile store p q)
    (hahead : ∀ i ∈ interruption, done.length ≤ i.place) :
    ∃ after, Batch.convertFrom mode interruption s (done.map fun p => (convertReachable mode store p).2).reverse rest =
        (after, .ok { files := (triedBefore interruption (done ++ rest)).map fun p => (convertReachable mode store p).2,
                      interrupted := interruption.any (·.place < (done ++ rest).length) }) ∧
      Converted mode store (doneBefore interruption (done ++ rest)) after := by
  have hlength (done : List Path) :
      (done.map fun p => (convertReachable mode store p).2).reverse.length = done.length := by simp
  induction rest generalizing done s with
  | nil =>
      rw [List.append_nil]
      obtain ⟨htried, hdone⟩ := triedBefore_eq_self hahead
      have hnever : interruption.any (·.place < done.length) = false := by
        cases interruption with
        | none => rfl
        | some i => simpa using hahead
      rw [htried, hdone, hnever]
      exact ⟨s, by simp [Batch.convertFrom], hconverted⟩
  | cons path rest ih =>
      obtain ⟨hfirst, hrest⟩ := List.forall_mem_cons.mp hnull
      have hother : ∀ p ∈ done, ¬SameFile store p path :=
        fun p hp => (List.pairwise_append.mp hdistinct).2.2 p hp path (by simp)
      by_cases hhere : ∃ i ∈ interruption, i.place = done.length
      · obtain ⟨i, rfl, hplace⟩ := hhere
        have htried : triedBefore (some i) (done ++ path :: rest) = done := by
          rw [triedBefore, hplace, List.take_left]
        have hdone : doneBefore (some i) (done ++ path :: rest) = done ++ if i.moment = .finished then [path] else [] := by
          rw [doneBefore, hplace]
          split
          next => rw [List.take_length_add_append, List.take_succ_cons, List.take_zero]
          next => rw [List.take_left, List.append_nil]
        refine ⟨_, ?_, hdone ▸ hconverted.interrupt hother i.moment⟩
        rw [convertFrom_interrupted (hplace.trans (hlength done).symm) hfirst, htried]
        simp [hplace]
      · have hnothere : ∀ i ∈ interruption, i.place ≠ done.length := fun i hi hplace => hhere ⟨i, hi, hplace⟩
        have hlater : ∀ i ∈ interruption, (done ++ [path]).length ≤ i.place := by
          intro i hi
          rw [List.length_append, List.length_singleton]
          exact Nat.lt_of_le_of_ne (hahead i hi) (hnothere i hi).symm
        obtain ⟨hresult, hnext⟩ := hconverted.step hother
        rw [← List.singleton_append, ← List.append_assoc] at hdistinct ⊢
        obtain ⟨after, hrun, hall⟩ := ih hnext hrest hdistinct hlater
        refine ⟨after, ?_, hall⟩
        rw [← hrun, List.singleton_append, convertFrom_continued (by rwa [hlength]) hfirst, hresult]
        simp

end Batch

namespace Command

end Command

namespace Batch

open Store Command

end Batch

end SwiftObservation
