import Mathlib.Data.List.TakeWhile

/-! # The Arduino `String`

`WString.h` keeps the bytes in a `std::string`, which counts them, but `c_str()`
hands them out as a C string, which ends at the first NUL. `substring` takes its
result through a C string; `length()` is 32 bits wide.
-/

namespace ZiModem.Hal.Arduino

/-- What `strlen` counts of a C string: the bytes before its terminator. -/
def cString (memory : List UInt8) : List UInt8 := memory.takeWhile (· != 0)

/-- `String`; a `char` is its byte. -/
structure WString where
  value : List UInt8
  deriving DecidableEq, Repr

namespace WString

/-- `String(const char*)`, where the pointer may be null. -/
def ofCString (cstr : Option (List UInt8)) : WString := ⟨cString (cstr.getD [0])⟩

/-- `operator+=`, `concat` and `operator+`. -/
def append (s other : WString) : WString := ⟨s.value ++ other.value⟩

/-- `operator+=(char)`. -/
def appendChar (s : WString) (c : UInt8) : WString := ⟨s.value ++ [c]⟩

def appendCString (s : WString) (cstr : Option (List UInt8)) : WString :=
  match cstr with
  | none => s
  | some memory => ⟨s.value ++ cString memory⟩

/-- `c_str`, with the terminator. -/
def cStr (s : WString) : List UInt8 := s.value ++ [0]

def length (s : WString) : UInt32 := .ofNat s.value.length

/-- `operator[]` of a constant string. -/
def get (s : WString) (index : UInt32) : UInt8 := s.value.getD index.toNat 0

def substring (s : WString) (left right : UInt32) : WString :=
  if s.value.length ≤ left.toNat ∨ right ≤ left then ⟨[]⟩
  else
    let right := if s.value.length < right.toNat then .ofNat s.value.length else right
    ofCString (some ((s.value.drop left.toNat).take (right - left).toNat ++ [0]))

def substringFrom (s : WString) (left : UInt32) : WString :=
  s.substring left (.ofNat s.value.length)

/-! ## C strings -/

theorem cString_terminated (bytes : List UInt8) :
    cString (bytes ++ [0]) = bytes.takeWhile (· != 0) := by
  induction bytes with
  | nil => rfl
  | cons b bytes ih =>
      by_cases hb : b = 0
      · simp [cString, hb]
      · simpa [cString, hb] using ih

theorem cString_eq_self_iff {bytes : List UInt8} : cString (bytes ++ [0]) = bytes ↔ 0 ∉ bytes := by
  rw [cString_terminated, List.takeWhile_eq_self_iff]
  constructor
  · intro hall hmem
    simpa using hall 0 hmem
  · intro hnone b hb
    simp only [bne_iff_ne, ne_eq]
    rintro rfl
    exact hnone hb

theorem cString_nul {bytes : List UInt8} (h : 0 ∈ bytes) :
    ∃ rest, bytes = cString (bytes ++ [0]) ++ 0 :: rest := by
  rw [cString_terminated]
  induction bytes with
  | nil => cases h
  | cons b bytes ih =>
      by_cases hb : b = 0
      · apply Exists.intro bytes
        simp [hb]
      · obtain ⟨rest, hrest⟩ := ih ((List.mem_cons.mp h).resolve_left (Ne.symm hb))
        apply Exists.intro rest
        rw [List.takeWhile_cons_of_pos (by simpa using hb), List.cons_append, ← hrest]

theorem zero_not_mem_cString (memory : List UInt8) : 0 ∉ cString memory := by
  intro hmem
  simpa using List.mem_takeWhile_imp hmem

theorem cString_length_le (bytes : List UInt8) : (cString (bytes ++ [0])).length ≤ bytes.length := by
  rw [cString_terminated]
  exact (List.takeWhile_prefix _).length_le

/-! ## Slices -/

def slice (s : WString) (i j : Nat) : List UInt8 := (s.value.take j).drop i

/-- `substring(i, j)` is the slice, and character by character where both indices are inside. -/
structure ExactSlice (s : WString) (i j : UInt32) : Prop where
  clamped : (s.substring i j).value = s.slice i.toNat j.toNat
  length_eq : i ≤ j → j ≤ s.length → (s.substring i j).length = j - i
  chars : i ≤ j → j ≤ s.length → ∀ k < j - i, (s.substring i j).get k = s.get (i + k)

def Reassembles (s : WString) (i : UInt32) : Prop :=
  (s.substring 0 i).append (s.substringFrom i) = s

theorem substring_value (s : WString) (i j : UInt32) :
    (s.substring i j).value = cString (s.slice i.toNat j.toNat ++ [0]) := by
  unfold substring
  split
  next hout =>
    have hempty : s.slice i.toNat j.toNat = [] := by
      rw [slice, List.drop_eq_nil_iff, List.length_take]
      rcases hout with hout | hout
      · omega
      · have hle := UInt32.le_iff_toNat_le.mp hout
        omega
    rw [hempty]
    rfl
  next hin =>
    obtain ⟨hinside, hlt⟩ := not_or.mp hin
    rw [UInt32.le_iff_toNat_le] at hlt
    have hslice : (s.value.drop i.toNat).take
        ((if s.value.length < j.toNat then .ofNat s.value.length else j) - i).toNat =
          s.slice i.toNat j.toNat := by
      rw [slice, List.drop_take]
      split
      next hshort =>
        have hlength : (UInt32.ofNat s.value.length).toNat = s.value.length :=
          UInt32.toNat_ofNat_of_lt' (hshort.trans j.toNat_lt)
        rw [UInt32.toNat_sub_of_le _ _ (by rw [UInt32.le_iff_toNat_le]; omega), hlength,
          List.take_of_length_le (by rw [List.length_drop]),
          List.take_of_length_le (by rw [List.length_drop]; omega)]
      next => rw [UInt32.toNat_sub_of_le _ _ (by rw [UInt32.le_iff_toNat_le]; omega)]
    simp only [ofCString, Option.getD_some, hslice]

theorem slice_length (s : WString) {i j : Nat} (hj : j ≤ s.value.length) :
    (s.slice i j).length = j - i := by
  rw [slice, List.length_drop, List.length_take, Nat.min_eq_left hj]

theorem length_toNat_le (s : WString) : s.length.toNat ≤ s.value.length := by
  rw [length, UInt32.toNat_ofNat']
  exact Nat.mod_le _ _

theorem exactSlice_iff (s : WString) (i j : UInt32) :
    s.ExactSlice i j ↔ 0 ∉ s.slice i.toNat j.toNat := by
  constructor
  · intro h
    rw [← cString_eq_self_iff, ← substring_value]
    exact h.clamped
  · intro hnone
    have hvalue : (s.substring i j).value = s.slice i.toNat j.toNat := by
      rw [substring_value]
      exact cString_eq_self_iff.mpr hnone
    refine ⟨hvalue, ?_, ?_⟩
    · intro hle hj
      have hj' := (UInt32.le_iff_toNat_le.mp hj).trans s.length_toNat_le
      apply UInt32.toNat_inj.mp
      rw [length, hvalue, slice_length s hj', UInt32.toNat_sub_of_le _ _ hle,
        UInt32.toNat_ofNat_of_lt']
      exact (Nat.sub_le _ _).trans_lt j.toNat_lt
    · intro hle hj k hk
      have hj' := (UInt32.le_iff_toNat_le.mp hj).trans s.length_toNat_le
      rw [UInt32.lt_iff_toNat_lt, UInt32.toNat_sub_of_le _ _ hle] at hk
      have hsum : (i + k).toNat = i.toNat + k.toNat := by
        rw [UInt32.toNat_add]
        apply Nat.mod_eq_of_lt
        have hbound := j.toNat_lt
        omega
      rw [get, get, hvalue, hsum, List.getD_eq_getElem?_getD, List.getD_eq_getElem?_getD, slice,
        List.getElem?_drop, List.getElem?_take_of_lt (by omega)]

/-- The slices at an index make up the string unless it has a NUL or outgrows its length. -/
theorem reassembles_iff (s : WString) (i : UInt32) :
    s.Reassembles i ↔ 0 ∉ s.value ∧ s.value.length < 4294967296 := by
  have hi := i.toNat_lt
  have hcat : ((s.substring 0 i).append (s.substringFrom i)).value =
      cString (s.value.take i.toNat ++ [0]) ++
        cString (s.slice i.toNat (UInt32.ofNat s.value.length).toNat ++ [0]) := by
    rw [append, substringFrom, substring_value, substring_value]
    rfl
  have heq : s.Reassembles i ↔ ((s.substring 0 i).append (s.substringFrom i)).value = s.value := by
    rw [Reassembles]
    constructor
    · exact fun h => congrArg value h
    · intro h
      cases s
      exact congrArg WString.mk h
  rw [heq, hcat]
  by_cases hfits : s.value.length < 4294967296
  · have hslice : s.slice i.toNat (UInt32.ofNat s.value.length).toNat = s.value.drop i.toNat := by
      rw [slice, UInt32.toNat_ofNat_of_lt' hfits, List.take_length]
    rw [hslice, and_iff_left hfits]
    constructor
    · intro hwhole hmem
      rw [← hwhole, List.mem_append] at hmem
      exact hmem.elim (zero_not_mem_cString _) (zero_not_mem_cString _)
    · intro hnone
      rw [cString_eq_self_iff.mpr fun hmem => hnone (List.mem_of_mem_take hmem),
        cString_eq_self_iff.mpr fun hmem => hnone (List.mem_of_mem_drop hmem),
        List.take_append_drop]
  · apply iff_of_false _ fun h => hfits h.2
    intro hwhole
    have hlength := congrArg List.length hwhole
    rw [List.length_append] at hlength
    have hfirst := cString_length_le (s.value.take i.toNat)
    have hsecond := cString_length_le (s.slice i.toNat (UInt32.ofNat s.value.length).toNat)
    have hslice : (s.slice i.toNat (UInt32.ofNat s.value.length).toNat).length ≤
        4294967296 - 1 - i.toNat := by
      have hwrapped := (UInt32.ofNat s.value.length).toNat_lt
      rw [slice, List.length_drop, List.length_take]
      omega
    rw [List.length_take] at hfirst
    omega

/-- `substring` is exact slicing, at any two indices, exactly where the slice has no NUL; and the
slices at an index make up the string exactly if it has none and its length fits `length()`. -/
theorem substring_exact_iff (s : WString) (i j : UInt32) :
    (s.ExactSlice i j ↔ 0 ∉ s.slice i.toNat j.toNat) ∧
      (s.Reassembles i ↔ 0 ∉ s.value ∧ s.value.length < 4294967296) :=
  ⟨s.exactSlice_iff i j, s.reassembles_iff i⟩

/-- A NUL in the middle cuts the slice short. -/
theorem not_substring_exact :
    ¬ ∀ (s : WString) (i j : UInt32), s.ExactSlice i j ∧ s.Reassembles i := by
  intro hall
  have hcut := (hall ⟨[97, 0, 98]⟩ 0 3).1.length_eq (by decide) (by decide)
  revert hcut
  decide

end WString

end ZiModem.Hal.Arduino
