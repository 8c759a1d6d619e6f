import Mathlib.Data.Nat.Basic

/-! # Deadlines kept modulo the width of a counter

A reading and a deadline of a wide clock are both reduced modulo `m` before they
are compared. In the same block of `m` the remainders compare as the full values
do; across blocks they may say the opposite.
-/

namespace Reactive

/-- Where the reading `t` and the deadline `d` are in different blocks of `m`, the remainders are
ordered as the blocks are. -/
def ComparesAlike (m d t : Nat) : Prop :=
  (t / m < d / m → t % m < d % m) ∧ (d / m < t / m → d % m ≤ t % m)

instance (m d t : Nat) : Decidable (ComparesAlike m d t) :=
  inferInstanceAs (Decidable (_ ∧ _))

theorem mod_le_mod_iff_of_div_eq {m d t : Nat} (h : d / m = t / m) : d % m ≤ t % m ↔ d ≤ t := by
  have hd := Nat.div_add_mod d m
  have ht := Nat.div_add_mod t m
  rw [h] at hd
  omega

/-- The wrapped comparison answers as the full one exactly when the remainders are ordered alike. -/
theorem mod_le_mod_iff_le_iff {m d t : Nat} :
    (d % m ≤ t % m ↔ d ≤ t) ↔ ComparesAlike m d t := by
  rcases Nat.lt_trichotomy (t / m) (d / m) with hbefore | hsame | hafter
  · have hlt : t < d := Nat.lt_of_div_lt_div hbefore
    have hnot : ¬ d / m < t / m := Nat.not_lt.mpr (Nat.le_of_lt hbefore)
    simp only [ComparesAlike, hbefore, hnot, Nat.not_le.mpr hlt, iff_false, not_le, forall_const,
      false_implies, and_true]
  · simp only [ComparesAlike, hsame, Nat.lt_irrefl, false_implies, and_self, iff_true]
    exact mod_le_mod_iff_of_div_eq hsame.symm
  · have hlt : d < t := Nat.lt_of_div_lt_div hafter
    have hnot : ¬ t / m < d / m := Nat.not_lt.mpr (Nat.le_of_lt hafter)
    simp only [ComparesAlike, hafter, hnot, Nat.le_of_lt hlt, iff_true, forall_const, false_implies,
      true_and]

end Reactive
