import ZiModem.Hal.Serial
import ZiModem.Hal.Arduino.FS

/-! # Counts that do not fit in an `int`

The sketch polls: it reads while `available()` is positive. The input queue of the
UART is unbounded and a file may be longer than an `int` can count, but both
`available()`s cast their count. A count whose low half is zero or has its top bit
set is then reported as nothing to read. A stream that stands behind the end of its
file, which another one has cut off, reports less than nothing.
-/

namespace ZiModem.Hal

/-- What `available()` should tell of `unread` bytes to someone who reads if it is positive. -/
structure Tells (available read : Int) (unread : Nat) : Prop where
  ready : 0 < available ↔ 0 ≤ read
  counts : (unread : Int) ≤ intMax → available = unread

/-- As an `int`, the distance to the end is positive if there are bytes to read, else zero. -/
def ShowsInInt (unread : Nat) (ahead : Int) : Prop :=
  if unread = 0 then ahead % 4294967296 = 0
  else 0 < ahead % 4294967296 ∧ ahead % 4294967296 < 2147483648

/-- A `read` that returns a byte exactly where there is one agrees with the cast of the distance, if
that shows. -/
theorem tells_toInt_iff {unread : Nat} {ahead read : Int} (hread : 0 ≤ read ↔ 0 < unread)
    (hahead : 0 < unread → ahead = unread) :
    Tells (toInt ahead) read unread ↔ ShowsInInt unread ahead := by
  unfold ShowsInInt
  split
  next hzero =>
    subst hzero
    rw [← toInt_eq_zero_iff]
    constructor
    · intro h
      exact h.counts (by decide)
    · intro hnone
      rw [hnone]
      exact ⟨iff_of_false (by decide) fun hbyte => absurd (hread.mp hbyte) (by decide),
        fun _ => rfl⟩
  next hsome =>
    have hpos : 0 < unread := Nat.pos_of_ne_zero hsome
    rw [← toInt_pos_iff]
    constructor
    · intro h
      exact h.ready.mpr (hread.mpr hpos)
    · intro hshows
      refine ⟨iff_of_true hshows (hread.mpr hpos), ?_⟩
      rw [hahead hpos]
      exact toInt_natCast

/-! ## The UART -/

theorem byteOrNone_nonneg_iff (bytes : List UInt8) : 0 ≤ byteOrNone bytes ↔ 0 < bytes.length := by
  cases bytes <;> simp [byteOrNone]

theorem Serial.tells_iff {γ : Type*} (s : Serial γ) :
    Tells s.available s.read.2 s.input.length ↔ ShowsInInt s.input.length s.input.length :=
  tells_toInt_iff (byteOrNone_nonneg_iff s.input) fun _ => rfl

/-! ## Files -/

namespace Stdio

variable (fp : Stdio)

def ahead : Int := fp.content.length - fp.pos

def toRead : Nat := if fp.access.reads then fp.content.length - fp.pos else 0

variable {fp}

theorem ahead_of_toRead (h : 0 < fp.toRead) : fp.ahead = fp.toRead := by
  unfold toRead at h ⊢
  unfold ahead
  split at h
  next hreads =>
    rw [if_pos hreads]
    omega
  next => cases h

theorem fgetc_isSome_iff (heof : fp.eof = false) :
    fp.fgetc.2.isSome = true ↔ 0 < fp.toRead := by
  unfold fgetc toRead
  rw [heof]
  cases hreads : fp.access.reads with
  | false => simp
  | true =>
      simp only [Bool.false_eq_true, Bool.true_eq_false, or_self, if_false, if_true]
      cases hbyte : fp.content[fp.pos]? with
      | none =>
          have hend := List.getElem?_eq_none_iff.mp hbyte
          exact iff_of_false (by simp) (by omega)
      | some b =>
          obtain ⟨hpos, -⟩ := List.getElem?_eq_some_iff.mp hbyte
          exact iff_of_true rfl (by omega)

end Stdio

namespace Arduino

theorem charInt_nonneg_iff (c : Option UInt8) : 0 ≤ charInt c ↔ c.isSome = true := by
  cases c <;> simp [charInt]

namespace File

def ahead (f : File) : Int := f.handle.elim 0 Stdio.ahead

def toRead (f : File) : Nat := f.handle.elim 0 Stdio.toRead

theorem tells_iff (f : File) :
    Tells f.available.2 f.available.1.read.2 f.toRead ↔ ShowsInInt f.toRead f.ahead := by
  cases hhandle : f.handle with
  | none =>
      simp only [available, read, toRead, ahead, hhandle]
      exact iff_of_true ⟨by decide, fun _ => rfl⟩ rfl
  | some fp =>
      -- the observer comes back to where it was, and clears the end-of-file indicator
      have hback : (totalSize fp).1 = { fp with eof := false } := rfl
      simp only [available, read, toRead, ahead, hhandle, Option.elim_some]
      apply tells_toInt_iff ?_ Stdio.ahead_of_toRead
      rw [charInt_nonneg_iff, hback, Stdio.fgetc_isSome_iff rfl]
      rfl

end File

end Arduino

end ZiModem.Hal
