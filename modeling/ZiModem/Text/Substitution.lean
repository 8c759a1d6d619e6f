import Mathlib.Data.List.Infix

/-! # Leftmost substitution

A text is read from left to right. Where the pattern starts it is replaced, and
reading resumes behind it; elsewhere one symbol is kept. The relation says this
of the text as it was, so that a program that rewrites in place can be compared
with it.
-/

namespace Substitution

variable {α : Type*}

/-- Reading `xs`, with `k` occurrences of the pattern replaced, gives `out`. -/
inductive Substituted (pat rep : List α) : List α → List α → Nat → Prop
  | nil : Substituted pat rep [] [] 0
  | hit {xs out : List α} {k : Nat} (rest : Substituted pat rep xs out k) :
      Substituted pat rep (pat ++ xs) (rep ++ out) (k + 1)
  | miss {x : α} {xs out : List α} {k : Nat} (hmiss : ¬ pat <+: x :: xs)
      (rest : Substituted pat rep xs out k) :
      Substituted pat rep (x :: xs) (x :: out) k

variable {pat rep xs out out' : List α} {k k' : Nat}

/-- Each occurrence trades the length of the pattern for that of its replacement. -/
theorem Substituted.length_eq (h : Substituted pat rep xs out k) :
    out.length + k * pat.length = xs.length + k * rep.length := by
  induction h with
  | nil => simp only [List.length_nil, Nat.zero_mul]
  | hit rest ih =>
      simp only [List.length_append, Nat.succ_mul]
      omega
  | miss hmiss rest ih =>
      simp only [List.length_cons]
      omega

theorem Substituted.unique (hpat : pat ≠ []) (h : Substituted pat rep xs out k)
    (h' : Substituted pat rep xs out' k') : out = out' ∧ k = k' := by
  induction h generalizing out' k' with
  | nil =>
      generalize hxs : ([] : List α) = xs at h'
      cases h' with
      | nil => exact ⟨rfl, rfl⟩
      | hit rest => exact absurd (List.append_eq_nil_iff.mp hxs.symm).1 hpat
      | miss hmiss rest => cases hxs
  | @hit xs out k rest ih =>
      generalize hxs : pat ++ xs = ys at h'
      cases h' with
      | nil => exact absurd (List.append_eq_nil_iff.mp hxs).1 hpat
      | hit rest' =>
          obtain rfl := List.append_cancel_left hxs
          obtain ⟨rfl, rfl⟩ := ih rest'
          exact ⟨rfl, rfl⟩
      | miss hmiss rest' => exact absurd ⟨xs, hxs⟩ hmiss
  | @miss x xs out k hmiss rest ih =>
      generalize hxs : x :: xs = ys at h'
      cases h' with
      | nil => cases hxs
      | hit rest' => exact absurd ⟨_, hxs.symm⟩ hmiss
      | miss hmiss' rest' =>
          cases hxs
          obtain ⟨rfl, rfl⟩ := ih rest'
          exact ⟨rfl, rfl⟩

theorem substituted_of_absent (h : ∀ n, n < xs.length → ¬ pat <+: xs.drop n) :
    Substituted pat rep xs xs 0 := by
  induction xs with
  | nil => exact .nil
  | cons x xs ih =>
      apply Substituted.miss (h 0 (by simp))
      apply ih
      intro n hn
      exact h (n + 1) (by simpa using hn)

theorem Substituted.hit_after {n : Nat} (hn : n ≤ xs.length) (hhere : pat <+: xs.drop n)
    (hbefore : ∀ m < n, ¬ pat <+: xs.drop m)
    (rest : Substituted pat rep (xs.drop (n + pat.length)) out k) :
    Substituted pat rep xs (xs.take n ++ rep ++ out) (k + 1) := by
  induction n generalizing xs with
  | zero =>
      obtain ⟨ys, rfl⟩ := hhere
      rw [Nat.zero_add, List.drop_left] at rest
      exact rest.hit
  | succ n ih =>
      cases xs with
      | nil => simp at hn
      | cons x xs =>
          apply Substituted.miss (hbefore 0 (Nat.zero_lt_succ n))
          apply ih (by simpa using hn) hhere
          · intro m hm
            exact hbefore (m + 1) (Nat.succ_lt_succ hm)
          · rwa [Nat.add_right_comm] at rest

/-! ## Searching -/

section Search

variable [DecidableEq α]

def firstMatch (pat xs : List α) : Option Nat := xs.tails.findIdx? fun t => decide (pat <+: t)

theorem firstMatch_eq_some {n : Nat} (h : firstMatch pat xs = some n) :
    n ≤ xs.length ∧ pat <+: xs.drop n ∧ ∀ m < n, ¬ pat <+: xs.drop m := by
  obtain ⟨hn, hhere, hbefore⟩ := List.findIdx?_eq_some_iff_getElem.mp h
  simp only [List.getElem_tails, decide_eq_true_eq] at hhere hbefore
  rw [List.length_tails] at hn
  exact ⟨Nat.le_of_lt_succ hn, hhere, hbefore⟩

theorem firstMatch_eq_none (h : firstMatch pat xs = none) (n : Nat) :
    ¬ pat <+: xs.drop n := by
  have habsent := List.findIdx?_eq_none_iff.mp h (xs.drop n)
    ((List.mem_tails _ _).mpr (List.drop_suffix n xs))
  simpa using habsent

end Search

end Substitution
