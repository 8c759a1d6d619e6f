import Mathlib.Data.Nat.Count

/-! # Polling against a deadline

A loop polls, looks at a clock where the answer asks it to wait, gives up if the
clock is past a deadline, and otherwise sleeps and polls again. If the clock
moves on while the loop sleeps, only so many polls can ask it to wait in time.
-/

namespace Reactive

/-- What the polls of a loop answer one after another, and the clock right after each. -/
structure Polls (α : Type*) where
  answer : Nat → α
  now : Nat → Nat

namespace Polls

variable {α : Type*} (p : Polls α)

/-- The answers of `n` polls from the `i`th on, each with "the deadline has passed". -/
def answers (deadline : Nat) : (i n : Nat) → List (α × Bool)
  | _, 0 => []
  | i, n + 1 => (p.answer i, decide (deadline < p.now i)) :: answers deadline (i + 1) n

/-- The clock starts at `start`, never goes back, and moves on by at least `pause` over the sleep
after a poll that asks to wait. -/
structure Paced (waits : α → Prop) (start pause : Nat) : Prop where
  start_le : start ≤ p.now 0
  mono : ∀ i, p.now i ≤ p.now (i + 1)
  sleeps : ∀ i, waits (p.answer i) → p.now i + pause ≤ p.now (i + 1)

variable {p}

theorem answers_length (deadline i n : Nat) : (p.answers deadline i n).length = n := by
  induction n generalizing i with
  | zero => rfl
  | succ n ih => rw [answers, List.length_cons, ih]

theorem answers_getElem? (deadline i n j : Nat) (h : j < n) :
    (p.answers deadline i n)[j]? =
      some (p.answer (i + j), decide (deadline < p.now (i + j))) := by
  induction n generalizing i j with
  | zero => exact absurd h (Nat.not_lt_zero j)
  | succ n ih =>
      cases j with
      | zero => rfl
      | succ j =>
          rw [answers, List.getElem?_cons_succ, ih (i + 1) j (Nat.lt_of_succ_lt_succ h),
            Nat.add_right_comm, Nat.add_assoc]

theorem answers_eq_of_getElem? {deadline i n j : Nat} {a : α} {late : Bool}
    (h : (p.answers deadline i n)[j]? = some (a, late)) :
    a = p.answer (i + j) ∧ late = decide (deadline < p.now (i + j)) := by
  obtain ⟨hlt, -⟩ := List.getElem?_eq_some_iff.mp h
  rw [answers_length] at hlt
  rw [answers_getElem? deadline i n j hlt] at h
  cases h
  exact ⟨rfl, rfl⟩

variable {waits : α → Prop} [DecidablePred waits] {start pause budget : Nat}

def waited (p : Polls α) (waits : α → Prop) [DecidablePred waits] (i : Nat) : Nat :=
  Nat.count (fun j => waits (p.answer j)) i

theorem waited_succ (p : Polls α) (waits : α → Prop) [DecidablePred waits] (i : Nat) :
    p.waited waits (i + 1) = p.waited waits i + if waits (p.answer i) then 1 else 0 :=
  Nat.count_succ _ i

theorem Paced.le_now (h : p.Paced waits start pause) (i : Nat) :
    start + pause * p.waited waits i ≤ p.now i := by
  induction i with
  | zero => exact h.start_le
  | succ i ih =>
      rw [waited_succ]
      by_cases hwait : waits (p.answer i)
      · have hslept := h.sleeps i hwait
        rw [if_pos hwait, Nat.mul_add, Nat.mul_one]
        omega
      · have hmono := h.mono i
        rw [if_neg hwait, Nat.add_zero]
        omega

/-- A poll that is not late has few waits before it. -/
theorem Paced.waited_le (h : p.Paced waits start pause) (hpause : 0 < pause) {i : Nat}
    (hintime : p.now i ≤ start + budget) : p.waited waits i ≤ budget / pause := by
  have hcost := h.le_now i
  rw [Nat.le_div_iff_mul_le hpause, Nat.mul_comm]
  omega

end Polls

end Reactive
