import Mathlib.Data.Int.Order.Basic

/-! # The `int` of the source

`static_cast<int>` of a wider integer keeps the value modulo `2^32` in the
signed range. The HAL casts the results of `recv`, of container sizes and of
byte counts this way before it returns them.
-/

namespace ZiModem.Hal

def intMax : Int := 2147483647

/-- `static_cast<int>`. -/
def toInt (n : Int) : Int := Int.bmod n 4294967296

/-- `static_cast<unsigned int>`. -/
def toUnsigned (n : Int) : Nat := (n % 4294967296).toNat

def checkedInt (n : Int) : Option Int := if -intMax - 1 ≤ n ∧ n ≤ intMax then some n else none

theorem toInt_le (n : Int) : toInt n ≤ intMax := by
  have h := Int.bmod_lt (x := n) (m := 4294967296) (by decide)
  simp only [toInt, intMax]
  omega

theorem toInt_of_range {n : Int} (hlow : -intMax ≤ n) (hhigh : n ≤ intMax) : toInt n = n := by
  simp only [intMax] at hlow hhigh
  exact Int.bmod_eq_of_le (by omega) (by omega)

@[simp] theorem toInt_neg_one : toInt (-1) = -1 := by decide

@[simp] theorem toInt_zero : toInt 0 = 0 := by decide

theorem toInt_natCast {n : Nat} (h : (n : Int) ≤ intMax) : toInt n = n :=
  toInt_of_range (by simp only [intMax]; omega) h

theorem toUnsigned_of_nonneg {n : Int} (hlow : 0 ≤ n) (hhigh : n ≤ intMax) :
    toUnsigned n = n.toNat := by
  simp only [intMax] at hhigh
  unfold toUnsigned
  omega

theorem checkedInt_of_range {n : Int} (hlow : -intMax - 1 ≤ n) (hhigh : n ≤ intMax) :
    checkedInt n = some n := if_pos ⟨hlow, hhigh⟩

/-- The cast of a count is positive exactly if its low half says so. -/
theorem toInt_pos_iff (n : Int) :
    0 < toInt n ↔ 0 < n % 4294967296 ∧ n % 4294967296 < 2147483648 := by
  rw [toInt, Int.bmod_def]
  split <;> omega

theorem toInt_eq_zero_iff (n : Int) : toInt n = 0 ↔ n % 4294967296 = 0 := by
  rw [toInt, Int.bmod_def]
  split <;> omega

end ZiModem.Hal
