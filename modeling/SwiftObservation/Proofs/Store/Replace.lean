import Mathlib.Data.List.Nodup
import SwiftObservation.Store.Replace

/-!
# A replacement happens as a whole or not at all

A write makes a temporary file, fills it and moves it. The temporary file stands where nothing was before, so a write that
fails leaves the very store it began with, and one that does not fail differs from a plain `put` in nothing: `replace_eq`
says so, and names the step that fails. `cutOff_eq` says the same of a write that is interrupted with any part of the
contents in the temporary file. That a mark is always free is by counting: marks are told apart by their digits, and
more of them are tried than there are entries.
-/

namespace SwiftObservation

/-- The fault of the first step that fails in a write to a location: making the temporary file, be it for the length of
its name or path, filling it, or moving it. -/
def WriteFaults.first? (faults : WriteFaults) (l : Location) : Option FileFault :=
  if Store.isBeyondReach (Store.temporaryLocation l 0) then some .nameTooLong
  else faults.create.or (faults.write.or faults.replace)

namespace Store

variable {s : Store} {l t : Location}

/-! ### Free locations -/

theorem stamp_injective : Function.Injective stamp := by
  intro m n hstamp
  have hvalue (k : Nat) : Nat.ofDigitChars 10 (stamp k) 0 = k := by
    rw [stamp, Nat.ofDigitChars_append, Nat.ofDigitChars_replicate_zero, Nat.mul_zero,
      Nat.ofDigitChars_toDigits (by decide) (by decide)]
  rw [← hvalue m, hstamp, hvalue]

theorem temporaryLocation_injective (l : Location) : Function.Injective (temporaryLocation l) := by
  intro m n hlocation
  have hname : temporaryName (l.getLastD []) m = temporaryName (l.getLastD []) n := by
    simpa [temporaryLocation] using hlocation
  have hstamp : stamp m = stamp n := by simpa [temporaryName] using hname
  exact stamp_injective hstamp

theorem mem_keys_of_get? (hfound : (s.get? t).isSome = true) (hbelow : t ≠ []) : t ∈ s.entries.map Prod.fst := by
  by_contra hnone
  have hlookup : s.entries.lookup t = none := by
    rw [List.lookup_eq_none_iff]
    intro entry hentry
    rw [bne_iff_ne]
    rintro rfl
    exact hnone (List.mem_map_of_mem hentry)
  simp [get?, hbelow, hlookup] at hfound

/-- A search that finds no free location has found something at every mark it tried. -/
theorem isSome_get?_of_freeLocation?_eq_none {n attempts : Nat} (hnone : s.freeLocation? l n attempts = none) :
    ∀ mark ∈ List.range' n attempts, (s.get? (temporaryLocation l mark)).isSome = true := by
  induction attempts generalizing n with
  | zero => simp
  | succ attempts ih =>
      rw [freeLocation?] at hnone
      split at hnone
      next => simp at hnone
      next htaken =>
        rw [List.range'_succ]
        refine List.forall_mem_cons.mpr ⟨?_, ih hnone⟩
        rwa [← Option.not_isNone, Bool.not_eq_true', Bool.eq_false_iff]

theorem get?_of_freeLocation? {n attempts : Nat} (hfree : s.freeLocation? l n attempts = some t) : s.get? t = none := by
  induction attempts generalizing n with
  | zero => simp [freeLocation?] at hfree
  | succ attempts ih =>
      rw [freeLocation?] at hfree
      split at hfree
      next hnone =>
        obtain rfl := Option.some.inj hfree
        exact Option.isNone_iff_eq_none.mp hnone
      next => exact ih hfree

/-- Of more marks than there are entries one is free. -/
theorem exists_freeLocation? (s : Store) (l : Location) (n : Nat) {attempts : Nat} (hmore : s.entries.length < attempts) :
    ∃ t, s.freeLocation? l n attempts = some t := by
  cases hfree : s.freeLocation? l n attempts with
  | some t => exact ⟨t, rfl⟩
  | none =>
      exfalso
      have hsubset : (List.range' n attempts).map (temporaryLocation l) ⊆ s.entries.map Prod.fst := by
        intro t ht
        obtain ⟨mark, hmark, rfl⟩ := List.mem_map.mp ht
        exact mem_keys_of_get? (isSome_get?_of_freeLocation?_eq_none hfree mark hmark) (by simp [temporaryLocation])
      have hnodup : ((List.range' n attempts).map (temporaryLocation l)).Nodup :=
        List.Nodup.map (temporaryLocation_injective l) List.nodup_range'
      have hlength := hnodup.length_le_of_subset hsubset
      simp only [List.length_map, List.length_range'] at hlength
      omega

/-! ### Replacement -/

theorem erase_eq_self (hfree : s.get? t = none) : s.erase t = s := by
  have hkeys : ∀ entry ∈ s.entries, (entry.1 != t) = true := by
    intro entry hentry
    rw [bne_iff_ne]
    rintro rfl
    have hlookup : s.entries.lookup entry.1 = none := by
      rw [get?] at hfree
      split at hfree
      next => simp at hfree
      next => exact hfree
    simpa using List.lookup_eq_none_iff.mp hlookup entry hentry
  rw [erase, List.filter_eq_self.mpr hkeys]

/-- A file that is put where nothing was is gone without a trace when it is erased. -/
theorem erase_put (hfree : s.get? t = none) (e : Entry) : (s.put t e).erase t = s := by
  have hsame : (s.put t e).erase t = (s.erase t).erase t := by simp [put, erase]
  rw [hsame, erase_eq_self hfree, erase_eq_self hfree]

theorem put_put (s : Store) (l : Location) (first second : Entry) : (s.put l first).put l second = s.put l second := by
  simp [put]

/-- Either the first fault is that no temporary file can be made, or one is made where nothing was and later steps may
fail. -/
theorem createTemporary_cases (s : Store) (faults : WriteFaults) (l : Location) :
    (∃ fault, s.createTemporary faults l = .error fault ∧ faults.first? l = some fault) ∨
      ∃ t, s.get? t = none ∧ s.createTemporary faults l = .ok (s.put t (.file []), t) ∧
        faults.first? l = faults.write.or faults.replace := by
  obtain ⟨t, hfree⟩ := exists_freeLocation? s l 0 (Nat.lt_add_one s.entries.length)
  rw [createTemporary, WriteFaults.first?, hfree]
  split
  next => exact .inl ⟨_, rfl, rfl⟩
  next =>
    cases faults.create with
    | some fault => exact .inl ⟨fault, rfl, rfl⟩
    | none => exact .inr ⟨t, get?_of_freeLocation? hfree, rfl, rfl⟩

theorem fillAndReplace_eq (faults : WriteFaults) (hfree : s.get? t = none) (l : Location) (contents : Bytes) :
    (s.put t (.file [])).fillAndReplace faults t l contents =
      match faults.write.or faults.replace with
      | some fault => (s, some fault)
      | none => (s.put l (.file contents), none) := by
  rw [fillAndReplace]
  cases faults.write with
  | some fault => simp [erase_put hfree]
  | none => cases faults.replace <;> simp [put_put, erase_put hfree]

/-- A write that fails leaves the store as it was, any other puts the contents in place, and which it is depends on the
location and the faults alone. -/
theorem replaceAt_eq (s : Store) (faults : WriteFaults) (l : Location) (contents : Bytes) :
    s.replaceAt faults l contents =
      match faults.first? l with
      | some fault => (s, some fault)
      | none => (s.put l (.file contents), none) := by
  obtain ⟨fault, hrefused, hfirst⟩ | ⟨t, hfree, hcreated, hfirst⟩ := createTemporary_cases s faults l
  · rw [replaceAt, hrefused, hfirst]
  · rw [replaceAt, hcreated, hfirst, ← fillAndReplace_eq faults hfree]

/-- A write that is interrupted before the temporary file is moved leaves the store as it was. -/
theorem cutOffAt_eq (s : Store) (faults : WriteFaults) (l : Location) (contents : Bytes) (count : Nat) :
    s.cutOffAt faults l contents count = s := by
  rw [cutOffAt]
  obtain ⟨fault, hrefused, -⟩ | ⟨t, hfree, hcreated, -⟩ := createTemporary_cases s faults l
  · rw [hrefused]
  · simp only [hcreated, put_put, erase_put hfree]

theorem cutOff_eq (s : Store) (faults : WriteFaults) (p : Path) (contents : Bytes) (count : Nat) :
    s.cutOff faults p contents count = s := by
  rw [cutOff]
  cases s.locate p with
  | error fault => rfl
  | ok l => exact cutOffAt_eq s faults l contents count

theorem replace_eq (s : Store) (faults : WriteFaults) {p : Path} (hlocated : s.locate p = .ok l) (contents : Bytes) :
    s.replace faults p contents =
      match faults.first? l with
      | some fault => (s, some fault)
      | none => (s.put l (.file contents), none) := by
  rw [replace, hlocated, ← replaceAt_eq]

end Store

end SwiftObservation
