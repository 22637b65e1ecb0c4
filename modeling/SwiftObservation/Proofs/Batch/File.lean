import SwiftObservation.Batch.File
import SwiftObservation.Proofs.Store.Replace

/-!
# A file is converted as a whole or not at all

`Course` lists the ways in which the conversion of a file may go, each with the store it leaves and the result it gives. In
one of them only is anything written, and then nothing but the file itself is changed: no other way leaves any trace, not
even of a temporary file. A result tells of a failure just if one of the stages failed, and then its last diagnostic is the
only error.
-/

namespace SwiftObservation

namespace Store

variable {s : Store} {l : Location} {p : Path}

theorem read_eq_ok {contents : Bytes} : s.read p = .ok contents ↔ ∃ l, s.locate p = .ok l ∧ s.get? l = some (.file contents) := by
  simp only [read, find]
  cases s.locate p with
  | error fault => simp
  | ok l =>
      cases hentry : s.get? l with
      | none => simp [hentry]
      | some entry => cases entry <;> simp [hentry]

end Store

namespace Conversion

variable {limits : Limits} {path : Option Text} {source : Text} {c : Conversion} {d : Diagnostic}

theorem isError_of_ofSource (hfailed : ofSource limits path source = .error d) : d.isError = true := by
  unfold ofSource at hfailed
  split at hfailed
  next e => exact Except.error.inj hfailed ▸ rfl
  next t =>
    dsimp only at hfailed
    split at hfailed
    next => exact Except.error.inj hfailed ▸ rfl
    next => simp at hfailed

theorem not_isError_warning? {e : Migration.Evidence} (hwarned : e.warning? path = some d) : d.isError = false := by
  cases e with
  | observable name => simp [Migration.Evidence.warning?] at hwarned
  | ambiguous candidate declaration =>
      obtain rfl := Option.some.inj hwarned
      show (Severity.warning == Severity.error) = false
      decide

/-- A conversion keeps its source and has no errors to tell of. -/
theorem of_ofSource (hconverted : ofSource limits path source = .ok c) :
    c.source = source ∧ ∀ d ∈ c.diagnostics, d.isError = false := by
  unfold ofSource at hconverted
  split at hconverted
  next => simp at hconverted
  next t =>
    dsimp only at hconverted
    split at hconverted
    next => simp at hconverted
    next =>
      obtain rfl := Except.ok.inj hconverted
      refine ⟨rfl, fun d hd => ?_⟩
      obtain ⟨e, -, hwarned⟩ := List.mem_filterMap.mp hd
      exact not_isError_warning? hwarned

end Conversion

namespace Batch

variable {mode : ConversionMode} {store : Store} {path : Path}

theorem readText_eq_ok {source : Text} :
    readText store path = .ok source ↔ ∃ bytes, store.read path = .ok bytes ∧ Text.decode bytes = .ok source := by
  rw [readText]
  cases store.read path with
  | error fault => simp
  | ok bytes => cases hdecoded : Text.decode bytes <;> simp [hdecoded]

/-- The error that a stage of the conversion ends in. -/
def failure (path : Path) (code : ProblemCode) (message : Text) : Diagnostic :=
  { severity := .error, code, message, path := some path.text }

/-- The ways in which the conversion of a file may go, with the store behind it and the result. -/
inductive Course (mode : ConversionMode) (store : Store) (path : Path) : Store → FileResult → Prop where
  | unreadable {message : Text} (read : readText store path = .error message) :
      Course mode store path store
        { path := path.text, status := .failed, diagnostics := [failure path .readFailure message] }
  | unconvertible {source : Text} {d : Diagnostic} (read : readText store path = .ok source)
      (refused : Conversion.ofSource mode.limits (some path.text) source = .error d) :
      Course mode store path store { path := path.text, status := .failed, diagnostics := [d] }
  | unchanged {source : Text} {c : Conversion} (read : readText store path = .ok source)
      (converted : Conversion.ofSource mode.limits (some path.text) source = .ok c) (same : c.output = source) :
      Course mode store path store { path := path.text, status := .unchanged, diagnostics := c.diagnostics }
  | shown {source : Text} {c : Conversion} (read : readText store path = .ok source)
      (converted : Conversion.ofSource mode.limits (some path.text) source = .ok c) (changed : c.output ≠ source)
      (dry : mode.dryRun = true) :
      Course mode store path store
        { path := path.text, status := .converted, diagnostics := c.diagnostics, diff := c.diff (some path.text) }
  | unwritable {source : Text} {c : Conversion} {l : Location} {fault : FileFault}
      (read : readText store path = .ok source)
      (converted : Conversion.ofSource mode.limits (some path.text) source = .ok c) (changed : c.output ≠ source)
      (wet : mode.dryRun = false) (located : store.locate path = .ok l) (failed : mode.faults.first? l = some fault) :
      Course mode store path store
        { path := path.text, status := .failed,
          diagnostics := c.diagnostics ++ [failure path .writeFailure fault.message] }
  | written {source : Text} {c : Conversion} {l : Location} (read : readText store path = .ok source)
      (converted : Conversion.ofSource mode.limits (some path.text) source = .ok c) (changed : c.output ≠ source)
      (wet : mode.dryRun = false) (located : store.locate path = .ok l) (faultless : mode.faults.first? l = none) :
      Course mode store path (store.put l (.file c.output.encode))
        { path := path.text, status := .converted, diagnostics := c.diagnostics }

theorem convertReachable_eq {after : Store} {result : FileResult} (hcourse : Course mode store path after result) :
    convertReachable mode store path = (after, result) := by
  have hchanged {source : Text} {c : Conversion}
      (hconverted : Conversion.ofSource mode.limits (some path.text) source = .ok c) :
      c.isChanged = (c.output != source) := by rw [Conversion.isChanged, (Conversion.of_ofSource hconverted).1]
  cases hcourse with
  | unreadable hread =>
      simp only [convertReachable, hread]
      rfl
  | unconvertible hread hrefused => simp only [convertReachable, hread, hrefused]
  | unchanged hread hconverted hsame =>
      simp only [convertReachable, hread, hconverted, hchanged hconverted, hsame, bne_self_eq_false]
      rfl
  | shown hread hconverted hother hdry =>
      simp only [convertReachable, hread, hconverted, hchanged hconverted, bne_iff_ne.mpr hother, if_true, writeConversion,
        hdry]
  | unwritable hread hconverted hother hwet hlocated hfault =>
      simp only [convertReachable, hread, hconverted, hchanged hconverted, bne_iff_ne.mpr hother, if_true, writeConversion,
        hwet, Store.replace_eq store mode.faults hlocated, hfault]
      rfl
  | written hread hconverted hother hwet hlocated hfaultless =>
      simp only [convertReachable, hread, hconverted, hchanged hconverted, bne_iff_ne.mpr hother, if_true, writeConversion,
        hwet, Store.replace_eq store mode.faults hlocated, hfaultless]
      rfl

/-- One of the ways is taken, whatever the store, the path and the faults. -/
theorem exists_course (mode : ConversionMode) (store : Store) (path : Path) :
    ∃ after result, Course mode store path after result := by
  cases hread : readText store path with
  | error message => exact ⟨_, _, .unreadable hread⟩
  | ok source =>
      cases hconverted : Conversion.ofSource mode.limits (some path.text) source with
      | error d => exact ⟨_, _, .unconvertible hread hconverted⟩
      | ok c =>
          by_cases hsame : c.output = source
          · exact ⟨_, _, .unchanged hread hconverted hsame⟩
          cases hdry : mode.dryRun with
          | true => exact ⟨_, _, .shown hread hconverted hsame hdry⟩
          | false =>
              obtain ⟨bytes, hbytes, -⟩ := readText_eq_ok.mp hread
              obtain ⟨l, hlocated, -⟩ := Store.read_eq_ok.mp hbytes
              cases hfault : mode.faults.first? l with
              | some fault => exact ⟨_, _, .unwritable hread hconverted hsame hdry hlocated hfault⟩
              | none => exact ⟨_, _, .written hread hconverted hsame hdry hlocated hfault⟩

theorem course_convertReachable (mode : ConversionMode) (store : Store) (path : Path) :
    Course mode store path (convertReachable mode store path).1 (convertReachable mode store path).2 := by
  obtain ⟨after, result, hcourse⟩ := exists_course mode store path
  rw [convertReachable_eq hcourse]
  exact hcourse

theorem convertFile_eq (mode : ConversionMode) (store : Store) (hnull : path.hasNull = false) :
    convertFile mode store path =
      ((convertReachable mode store path).1, .ok (convertReachable mode store path).2) := by
  rw [convertFile, hnull]
  rfl

/-! ### What is left behind -/

variable {after : Store} {result : FileResult}

/-- What a conversion writes is the file that was read, and a file below the root. -/
theorem exists_file_of_readText {source : Text} {l : Location} (hread : readText store path = .ok source)
    (hlocated : store.locate path = .ok l) :
    l ≠ [] ∧ ∃ bytes, store.get? l = some (.file bytes) ∧ Text.decode bytes = .ok source := by
  obtain ⟨bytes, hbytes, hdecoded⟩ := readText_eq_ok.mp hread
  obtain ⟨m, hm, hfile⟩ := Store.read_eq_ok.mp hbytes
  obtain rfl : l = m := Except.ok.inj (hlocated.symm.trans hm)
  refine ⟨?_, bytes, hfile, hdecoded⟩
  rintro rfl
  simp [Store.get?] at hfile

/-- Only the contents of the file itself may change. -/
theorem Course.get?_cases (hcourse : Course mode store path after result) (l : Location) :
    after.get? l = store.get? l ∨
      store.locate path = .ok l ∧ ∃ old new, store.get? l = some (.file old) ∧ after.get? l = some (.file new) := by
  cases hcourse with
  | unreadable | unconvertible | unchanged | shown | unwritable => exact .inl rfl
  | @written source c m hread _ _ _ hlocated =>
      by_cases hsame : l = m
      · subst hsame
        obtain ⟨hbelow, bytes, hfile, -⟩ := exists_file_of_readText hread hlocated
        exact .inr ⟨hlocated, bytes, _, hfile, store.get?_put_self hbelow _⟩
      · exact .inl (store.get?_put_of_ne hsame _)

/-- Whatever was not written is the store as it was. -/
theorem Course.store_eq (hcourse : Course mode store path after result)
    (hunwritten : ¬(result.status = .converted ∧ mode.dryRun = false)) : after = store := by
  cases hcourse with
  | unreadable | unconvertible | unchanged | shown | unwritable => rfl
  | written _ _ _ hwet => exact absurd ⟨rfl, hwet⟩ hunwritten

/-- What was written is the conversion of what was there. -/
theorem Course.exists_written (hcourse : Course mode store path after result) (hconverted : result.status = .converted)
    (hwet : mode.dryRun = false) :
    ∃ l bytes source c, store.locate path = .ok l ∧ store.get? l = some (.file bytes) ∧ Text.decode bytes = .ok source ∧
      Conversion.ofSource mode.limits (some path.text) source = .ok c ∧ after.get? l = some (.file c.output.encode) := by
  cases hcourse with
  | unreadable | unconvertible | unchanged | unwritable => simp at hconverted
  | shown _ _ _ hdry => simp [hwet] at hdry
  | written hread hresult _ _ hlocated =>
      obtain ⟨hbelow, bytes, hfile, hdecoded⟩ := exists_file_of_readText hread hlocated
      exact ⟨_, bytes, _, _, hlocated, hfile, hdecoded, hresult, store.get?_put_self hbelow _⟩

/-! ### Failures -/

/-- A stage of the conversion of a file fails. -/
inductive Fails (mode : ConversionMode) (store : Store) (path : Path) : Prop where
  | read {fault : FileFault} (refused : store.read path = .error fault)
  | decode {bytes : Bytes} {e : Text.DecodeError} (read : store.read path = .ok bytes)
      (refused : Text.decode bytes = .error e)
  | convert {bytes : Bytes} {source : Text} {d : Diagnostic} (read : store.read path = .ok bytes)
      (decoded : Text.decode bytes = .ok source)
      (refused : Conversion.ofSource mode.limits (some path.text) source = .error d)
  /-- A write is needed, and a step of it fails. -/
  | write {bytes : Bytes} {source : Text} {c : Conversion} {l : Location} {fault : FileFault}
      (read : store.read path = .ok bytes) (decoded : Text.decode bytes = .ok source)
      (converted : Conversion.ofSource mode.limits (some path.text) source = .ok c) (changed : c.output ≠ source)
      (wet : mode.dryRun = false) (located : store.locate path = .ok l) (refused : mode.faults.first? l = some fault)

theorem fails_of_readText {message : Text} (hread : readText store path = .error message) : Fails mode store path := by
  rw [readText] at hread
  split at hread
  next fault hrefused => exact .read hrefused
  next bytes hbytes =>
    split at hread
    next e hrefused => exact .decode hbytes hrefused
    next => simp at hread

theorem Course.failed_iff (hcourse : Course mode store path after result) :
    result.status = .failed ↔ Fails mode store path := by
  -- No stage fails in a course that ends otherwise: the stages are functions of what was read.
  have hstages {bytes : Bytes} {source : Text} {c : Conversion} (hbytes : store.read path = .ok bytes)
      (hdecoded : Text.decode bytes = .ok source)
      (hconverted : Conversion.ofSource mode.limits (some path.text) source = .ok c)
      (hwrite : c.output ≠ source → mode.dryRun = false → ∀ l, store.locate path = .ok l → mode.faults.first? l = none) :
      ¬Fails mode store path := by
    intro hfails
    cases hfails with
    | read hrefused => simp [hbytes] at hrefused
    | decode hread hrefused =>
        obtain rfl := Except.ok.inj (hbytes.symm.trans hread)
        simp [hdecoded] at hrefused
    | convert hread hsource hrefused =>
        obtain rfl := Except.ok.inj (hbytes.symm.trans hread)
        obtain rfl := Except.ok.inj (hdecoded.symm.trans hsource)
        simp [hconverted] at hrefused
    | write hread hsource hresult hchanged hwet hlocated hrefused =>
        obtain rfl := Except.ok.inj (hbytes.symm.trans hread)
        obtain rfl := Except.ok.inj (hdecoded.symm.trans hsource)
        obtain rfl := Except.ok.inj (hconverted.symm.trans hresult)
        simp [hwrite hchanged hwet _ hlocated] at hrefused
  cases hcourse with
  | unreadable hread => exact iff_of_true rfl (fails_of_readText hread)
  | unconvertible hread hrefused =>
      obtain ⟨bytes, hbytes, hdecoded⟩ := readText_eq_ok.mp hread
      exact iff_of_true rfl (.convert hbytes hdecoded hrefused)
  | unchanged hread hconverted hsame =>
      obtain ⟨bytes, hbytes, hdecoded⟩ := readText_eq_ok.mp hread
      exact iff_of_false (by simp) (hstages hbytes hdecoded hconverted fun hchanged => absurd hsame hchanged)
  | shown hread hconverted _ hdry =>
      obtain ⟨bytes, hbytes, hdecoded⟩ := readText_eq_ok.mp hread
      exact iff_of_false (by simp) (hstages hbytes hdecoded hconverted fun _ hwet => by simp [hdry] at hwet)
  | unwritable hread hconverted hchanged hwet hlocated hrefused =>
      obtain ⟨bytes, hbytes, hdecoded⟩ := readText_eq_ok.mp hread
      exact iff_of_true rfl (.write hbytes hdecoded hconverted hchanged hwet hlocated hrefused)
  | written hread hconverted _ _ hlocated hfaultless =>
      obtain ⟨bytes, hbytes, hdecoded⟩ := readText_eq_ok.mp hread
      refine iff_of_false (by simp) (hstages hbytes hdecoded hconverted fun _ _ l hl => ?_)
      obtain rfl := Except.ok.inj (hlocated.symm.trans hl)
      exact hfaultless

/-- The diagnostics are warnings, and one error behind them if the conversion failed. -/
theorem Course.diagnostics_eq (hcourse : Course mode store path after result) :
    ∃ warnings errors, result.diagnostics = warnings ++ errors ∧ (∀ d ∈ warnings, d.isError = false) ∧
      (∀ d ∈ errors, d.isError = true) ∧ errors.length = if result.status = .failed then 1 else 0 := by
  cases hcourse with
  | @unreadable message =>
      exact ⟨[], [failure path .readFailure message], rfl, by simp, by simp [failure, Diagnostic.isError], rfl⟩
  | @unconvertible _ d _ hrefused =>
      exact ⟨[], [d], rfl, by simp, by simpa using Conversion.isError_of_ofSource hrefused, rfl⟩
  | @unwritable _ c _ fault _ hconverted =>
      exact ⟨c.diagnostics, [failure path .writeFailure fault.message], rfl, (Conversion.of_ofSource hconverted).2,
        by simp [failure, Diagnostic.isError], rfl⟩
  | unchanged _ hconverted | shown _ hconverted | written _ hconverted =>
      exact ⟨_, [], (List.append_nil _).symm, (Conversion.of_ofSource hconverted).2, by simp, rfl⟩

/-! ### The conversion of a file -/

/-- The conversion of a file gives a result whatever may fail. All other files are as before, and nothing has appeared or
is missing. If the result is that the file was converted and this is no dry run, the file holds the conversion of its old
contents; otherwise the store is the one from before. The result is a failure just if a stage failed, and only then has it
an error, one, behind all warnings. -/
theorem convertFile_all_or_nothing (mode : ConversionMode) (store : Store) {path : Path} (hnull : path.hasNull = false) :
    ∃ after result, convertFile mode store path = (after, .ok result) ∧
      (∀ l, store.locate path ≠ .ok l → after.get? l = store.get? l) ∧
      (∀ l, after.get? l = none ↔ store.get? l = none) ∧
      (result.status = .converted ∧ mode.dryRun = false →
        ∃ l bytes source c, store.locate path = .ok l ∧ store.get? l = some (.file bytes) ∧
          Text.decode bytes = .ok source ∧ Conversion.ofSource mode.limits (some path.text) source = .ok c ∧
          after.get? l = some (.file c.output.encode)) ∧
      (¬(result.status = .converted ∧ mode.dryRun = false) → after = store) ∧
      (result.status = .failed ↔ Fails mode store path) ∧
      ∃ warnings errors, result.diagnostics = warnings ++ errors ∧ (∀ d ∈ warnings, d.isError = false) ∧
        (∀ d ∈ errors, d.isError = true) ∧ errors.length = if result.status = .failed then 1 else 0 := by
  have hcourse := course_convertReachable mode store path
  refine ⟨_, _, convertFile_eq mode store hnull, fun l hother => ?_, fun l => ?_,
    fun hwritten => hcourse.exists_written hwritten.1 hwritten.2, hcourse.store_eq, hcourse.failed_iff,
    hcourse.diagnostics_eq⟩
  · obtain hsame | ⟨hlocated, -⟩ := hcourse.get?_cases l
    · exact hsame
    · exact absurd hlocated hother
  · obtain hsame | ⟨-, old, new, hold, hnew⟩ := hcourse.get?_cases l
    · rw [hsame]
    · simp [hold, hnew]

/-- A class beside another file, with and without a fault of the last step: the file is written, or all is as before. -/
theorem convertFile_all_or_nothing_class :
    let path := Path.ofText "A.swift".toList
    let store : Store :=
      { entries := [(["A.swift".toList], .file (Text.encode "class A: ObservableObject {}\n".toList)),
          (["B.swift".toList], .file (Text.encode "class B: ObservableObject {}\n".toList))] }
    path.hasNull = false ∧
    (∃ after result, convertFile {} store path = (after, .ok result) ∧ result.status = .converted ∧
      after.get? ["A.swift".toList] = some (.file (Text.encode "@Observable\nclass A {}\n".toList)) ∧
      after.get? ["B.swift".toList] = store.get? ["B.swift".toList]) ∧
    ∃ result, convertFile { faults := { replace := some .denied } } store path = (store, .ok result) ∧
      result.status = .failed := by
  intro path store
  have hnull : path.hasNull = false := by decide +kernel
  refine ⟨hnull, ?_, ?_⟩
  · obtain ⟨after, result, heq, hothers, -⟩ := convertFile_all_or_nothing {} store hnull
    have hstatus : (convertFile {} store path).2.toOption.any (·.status == .converted) = true := by decide +kernel
    have hwritten : (convertFile {} store path).1.get? ["A.swift".toList] =
        some (.file (Text.encode "@Observable\nclass A {}\n".toList)) := by decide +kernel
    rw [heq] at hstatus hwritten
    exact ⟨after, result, heq, by simpa [Except.toOption] using hstatus, hwritten, hothers _ (by decide +kernel)⟩
  · obtain ⟨after, result, heq, -, -, -, hunwritten, -⟩ :=
      convertFile_all_or_nothing { faults := { replace := some .denied } } store hnull
    have hstatus : (convertFile { faults := { replace := some .denied } } store path).2.toOption.any
        (·.status == .failed) = true := by decide +kernel
    have hfailed : result.status = .failed := by
      rw [heq] at hstatus
      simpa [Except.toOption] using hstatus
    obtain rfl := hunwritten (by simp [hfailed])
    exact ⟨result, heq, hfailed⟩

end Batch

end SwiftObservation
