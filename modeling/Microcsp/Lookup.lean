import Mathlib.Data.List.GetD
import Microcsp.Control

/-!
# The choice of a memory class

`start` adds the size of the local variables to that of a process record and looks the sum up in
the table of lengths. The sum is one of 32-bit numbers, and the table does not end with a zero, so
the search runs past its last entry when no class is large enough.
-/

namespace Microcsp

/-- `total_size`, the number that `start` looks up. -/
def totalSize (args : StartArgs) : Nat := (procOffset + args.localSize) % 2 ^ 32

/-- The largest length in the table. -/
def largestClass : Nat := 192

/-- The index is that of the smallest memory class of at least this size. -/
structure Smallest (size index : Nat) : Prop where
  /-- It is an index of the table. -/
  inside : index < nalloc
  /-- The class is large enough. -/
  fits : size ≤ procmemlen.getD index 0
  /-- No smaller class is. -/
  least : ∀ other < nalloc, size ≤ procmemlen.getD other 0 →
    procmemlen.getD index 0 ≤ procmemlen.getD other 0

/-- What `find_mem_index` is for: it finds the smallest sufficient class, or says that there is
none, and reads nothing outside the table. -/
def LookupRight (size : Nat) : Prop :=
  match findMemIndex size with
  | .found index => Smallest size index
  | .tooLarge => ∀ other < nalloc, procmemlen.getD other 0 < size
  | .outside => False

/-- The size that `start` looks up is the sum, or it stops with an error. -/
def SizeExact (args : StartArgs) (g : Globals) : Prop :=
  totalSize args = procOffset + args.localSize ∨
    ∃ why, execStart args .check g = .stop (.error why)

/-- `start` stops with an error, or goes on with the smallest class in which the record and the
local variables fit. -/
def StartFits (args : StartArgs) (g : Globals) : Prop :=
  (∃ why, execStart args .check g = .stop (.error why)) ∨
    ∃ index, execStart args .check g = .next (.start args (.alloc index)) g ∧
      Smallest (procOffset + args.localSize) index

/-! ## The table -/

/-- No length is zero, so none ends the search. -/
theorem procmemlen_ne_zero : ∀ len ∈ procmemlen, len ≠ 0 := by decide

/-- The lengths increase. -/
theorem procmemlen_increasing : procmemlen.Pairwise (· < ·) := by decide

/-- The largest length is one of them, and is that of the last class. -/
theorem procmemlen_last : procmemlen.getD (nalloc - 1) 0 = largestClass := by decide

/-- No length exceeds the largest one. -/
theorem procmemlen_le {index : Nat} (inside : index < nalloc) :
    procmemlen.getD index 0 ≤ largestClass := by
  revert inside
  revert index
  decide

/-- The lengths do not decrease with the index. -/
theorem procmemlen_mono {index other : Nat} (inside : other < nalloc) (order : index ≤ other) :
    procmemlen.getD index 0 ≤ procmemlen.getD other 0 := by
  have bound : other < procmemlen.length := inside
  have first : index < procmemlen.length := Nat.lt_of_le_of_lt order bound
  rw [List.getD_eq_getElem _ _ first, List.getD_eq_getElem _ _ bound]
  rcases Nat.eq_or_lt_of_le order with rfl | before
  · exact Nat.le_refl _
  · exact Nat.le_of_lt (List.pairwise_iff_getElem.mp procmemlen_increasing _ _ first bound before)

/-! ## The search -/

/-- Where no length is zero the search finds the first sufficient one or runs past the end. -/
theorem findMemIndexFrom_eq {size first : Nat} {lengths : List Nat}
    (nonzero : ∀ len ∈ lengths, len ≠ 0) :
    findMemIndexFrom size first lengths =
      match lengths.findIdx? fun len => decide (size ≤ len) with
      | some i => .found (first + i)
      | none => .outside := by
  induction lengths generalizing first with
  | nil => rfl
  | cons len rest ih =>
    have positive : len ≠ 0 := nonzero len List.mem_cons_self
    have later := @ih (first + 1) fun other mem => nonzero other (List.mem_cons_of_mem _ mem)
    simp only [findMemIndexFrom, if_neg positive, List.findIdx?_cons]
    by_cases fits : size ≤ len
    · simp [fits]
    · rw [if_neg fits, later]
      cases found : rest.findIdx? fun len => decide (size ≤ len) with
      | none => simp [fits]
      | some i =>
        simp only [decide_eq_true_eq, fits, if_false, Option.map_some]
        congr 1
        omega

/-- The index found is that of the smallest sufficient class. -/
theorem findMemIndex_smallest {size index : Nat} (found : findMemIndex size = .found index) :
    Smallest size index := by
  unfold findMemIndex at found
  rw [findMemIndexFrom_eq procmemlen_ne_zero] at found
  cases search : procmemlen.findIdx? fun len => decide (size ≤ len) with
  | none =>
    rw [search] at found
    cases found
  | some i =>
    rw [search] at found
    obtain rfl : i = index := by simpa using found
    obtain ⟨bound, fits, earlier⟩ := List.findIdx?_eq_some_iff_getElem.mp search
    refine ⟨bound, ?_, fun other inside sufficient => ?_⟩
    · rw [List.getD_eq_getElem _ _ bound]
      exact of_decide_eq_true fits
    · apply procmemlen_mono inside
      apply Nat.le_of_not_lt
      intro before
      have short := earlier other before
      rw [← List.getD_eq_getElem _ 0] at short
      exact short (decide_eq_true sufficient)

/-- The search runs past the end of the table exactly where no class is large enough. -/
theorem findMemIndex_outside {size : Nat} : findMemIndex size = .outside ↔ largestClass < size := by
  unfold findMemIndex
  rw [findMemIndexFrom_eq procmemlen_ne_zero]
  cases search : procmemlen.findIdx? fun len => decide (size ≤ len) with
  | none =>
    have short := List.findIdx?_eq_none_iff.mp search largestClass (by decide)
    simpa using short
  | some i =>
    obtain ⟨bound, fits, -⟩ := List.findIdx?_eq_some_iff_getElem.mp search
    have room : size ≤ largestClass := by
      calc size ≤ procmemlen[i] := of_decide_eq_true fits
        _ = procmemlen.getD i 0 := (List.getD_eq_getElem _ _ bound).symm
        _ ≤ largestClass := procmemlen_le bound
    simpa using room

/-- The error of `find_mem_index` is never reached. -/
theorem findMemIndex_ne_tooLarge (size : Nat) : findMemIndex size ≠ .tooLarge := by
  unfold findMemIndex
  rw [findMemIndexFrom_eq procmemlen_ne_zero]
  split <;> simp

/-- The search comes to an index exactly where some class is large enough. -/
theorem findMemIndex_found {size : Nat} :
    (∃ index, findMemIndex size = .found index) ↔ size ≤ largestClass := by
  constructor
  · rintro ⟨index, found⟩
    have right := findMemIndex_smallest found
    exact Nat.le_trans right.fits (procmemlen_le right.inside)
  · intro room
    cases search : findMemIndex size with
    | found index => exact ⟨index, rfl⟩
    | tooLarge => exact absurd search (findMemIndex_ne_tooLarge size)
    | outside => exact absurd (findMemIndex_outside.mp search) (Nat.not_lt_of_le room)

/-- `find_mem_index` does what it is for exactly up to the largest class. -/
theorem lookupRight_iff (size : Nat) : LookupRight size ↔ size ≤ largestClass := by
  unfold LookupRight
  cases search : findMemIndex size with
  | found index => exact iff_of_true (findMemIndex_smallest search) (findMemIndex_found.mp ⟨_, search⟩)
  | tooLarge => exact absurd search (findMemIndex_ne_tooLarge size)
  | outside => exact iff_of_false id (Nat.not_le_of_lt (findMemIndex_outside.mp search))

/-! ## The call of `start` -/

/-- The priority is one that `start` accepts. -/
def ValidPriority (args : StartArgs) : Prop := 1 ≤ args.pri ∧ args.pri ≤ priMax

/-- The first step of `start` looks up the computed size when the priority is valid. -/
theorem execStart_check {args : StartArgs} (g : Globals) (valid : ValidPriority args) :
    execStart args .check g = match findMemIndex (totalSize args) with
      | .found index => .next (.start args (.alloc index)) g
      | .tooLarge => .stop (.error "No memory block large enough")
      | .outside => .stop (.fault "procmemlen is read outside its bounds") := by
  unfold ValidPriority at valid
  have accepted : ¬(args.pri < 1 ∨ priMax < args.pri) := by omega
  simp only [execStart, if_neg accepted]
  rfl

/-- Only the priority makes `start` stop with an error before it allocates. -/
theorem execStart_check_error (args : StartArgs) (g : Globals) :
    (∃ why, execStart args .check g = .stop (.error why)) ↔ ¬ValidPriority args := by
  by_cases valid : ValidPriority args
  · refine iff_of_false ?_ (not_not_intro valid)
    rw [execStart_check g valid]
    rintro ⟨why, stopped⟩
    cases search : findMemIndex (totalSize args) with
    | tooLarge => exact findMemIndex_ne_tooLarge _ search
    | found index =>
      rw [search] at stopped
      cases stopped
    | outside =>
      rw [search] at stopped
      cases stopped
  · refine iff_of_true ⟨"Invalid priority", ?_⟩ valid
    unfold ValidPriority at valid
    have refused : args.pri < 1 ∨ priMax < args.pri := by omega
    simp only [execStart, if_pos refused]

/-- The sum is looked up, or an error stops `start`, exactly where the priority is invalid or the
sum needs no more than 32 bits. -/
theorem sizeExact_iff (args : StartArgs) (g : Globals) :
    SizeExact args g ↔ ¬ValidPriority args ∨ procOffset + args.localSize < 2 ^ 32 := by
  have exact_iff : totalSize args = procOffset + args.localSize ↔
      procOffset + args.localSize < 2 ^ 32 := Nat.mod_eq_iff_lt (by decide)
  unfold SizeExact
  rw [execStart_check_error, exact_iff]
  exact or_comm

/-- `start` gives a process a block in which it fits exactly where the sum is at most the largest
length. -/
theorem startFits_iff (args : StartArgs) (g : Globals) :
    StartFits args g ↔ ¬ValidPriority args ∨ procOffset + args.localSize ≤ largestClass := by
  unfold StartFits
  rw [execStart_check_error]
  apply or_congr_right'
  intro valid
  rw [execStart_check g (not_not.mp valid)]
  constructor
  · rintro ⟨index, -, right⟩
    exact Nat.le_trans right.fits (procmemlen_le right.inside)
  · intro room
    have small : totalSize args = procOffset + args.localSize := by
      apply Nat.mod_eq_of_lt
      have bound : largestClass < 2 ^ 32 := by decide
      omega
    rw [small]
    obtain ⟨index, found⟩ := findMemIndex_found.mpr room
    rw [found]
    exact ⟨index, rfl, findMemIndex_smallest found⟩

/-- The three exact conditions: that of the sum, that of the search, and that of the call. -/
theorem block_lookup (args : StartArgs) (g : Globals) (size : Nat) :
    (SizeExact args g ↔ ¬ValidPriority args ∨ procOffset + args.localSize < 2 ^ 32) ∧
      (LookupRight size ↔ size ≤ largestClass) ∧
      (StartFits args g ↔ ¬ValidPriority args ∨ procOffset + args.localSize ≤ largestClass) :=
  ⟨sizeExact_iff args g, lookupRight_iff size, startFits_iff args g⟩

/-- A valid priority with a size of local variables whose sum with that of the record wraps. -/
def wrappingArgs : StartArgs := ⟨fun _ => [], fun _ => ⟨.skip, false⟩, 4294967288, 1⟩

/-- A process with local variables of 4294967288 bytes gets the class of 12 bytes, and a size of
193 bytes is looked up outside the table. -/
theorem block_lookup_fails :
    ¬((∀ args g, args.localSize < 2 ^ 32 → SizeExact args g) ∧ ∀ size < 2 ^ 32, LookupRight size) ∧
      findMemIndex (totalSize wrappingArgs) = .found 1 ∧ procmemlen.getD 1 0 = 12 ∧
      findMemIndex 193 = .outside := by
  have outside : findMemIndex 193 = .outside := by decide
  refine ⟨fun claimed => ?_, by decide, by decide, outside⟩
  have right := claimed.2 193 (by decide)
  unfold LookupRight at right
  rw [outside] at right
  exact right

end Microcsp
