import Mathlib.Data.List.Basic
import Mathlib.Logic.Equiv.Basic

/-! # Resources with one owner each

Resources are granted, used and given back by name, and a name that was given
back may be granted again. A log is lawful if it never touches a resource that
is not out. Owners hold one resource each, or none; the ownership is exact when
the resources that are out are those held, each by a single owner.
-/

namespace Reactive

variable {ν κ : Type*} [DecidableEq ν]

/-! ## Logs -/

inductive Use (ν : Type*)
  | acquire (n : ν)
  | use (n : ν)
  | release (n : ν)
  deriving DecidableEq, Repr

namespace Use

/-- What is out afterwards; giving back what is not out has no effect. -/
def effect (live : ν → Bool) : Use ν → ν → Bool
  | acquire n => Function.update live n true
  | use _ => live
  | release n => Function.update live n false

def settle (live : ν → Bool) (us : List (Use ν)) : ν → Bool := us.foldl effect live

def Granted : (ν → Bool) → List (Use ν) → Prop
  | _, [] => True
  | live, u :: us => (∀ n, u = acquire n → live n = false) ∧ Granted (effect live u) us

def Lawful : (ν → Bool) → List (Use ν) → Prop
  | _, [] => True
  | live, u :: us =>
      (match u with
        | acquire n => live n = false
        | use n | release n => live n = true) ∧ Lawful (effect live u) us

instance decidableGranted : (live : ν → Bool) → (us : List (Use ν)) → Decidable (Granted live us)
  | _, [] => .isTrue trivial
  | live, u :: us =>
      haveI : Decidable (∀ n, u = acquire n → live n = false) :=
        match u with
        | acquire n => decidable_of_iff (live n = false) (by simp)
        | use _ | release _ => .isTrue nofun
      haveI := decidableGranted (effect live u) us
      inferInstanceAs (Decidable ((∀ n, u = acquire n → live n = false) ∧ _))

variable {live : ν → Bool} {us vs : List (Use ν)}

@[simp] theorem settle_nil (live : ν → Bool) : settle live [] = live := rfl

theorem settle_append : settle live (us ++ vs) = settle (settle live us) vs := List.foldl_append

theorem granted_append : Granted live (us ++ vs) ↔ Granted live us ∧ Granted (settle live us) vs := by
  induction us generalizing live with
  | nil => simp [Granted]
  | cons u us ih =>
      show _ ∧ Granted _ (us ++ vs) ↔ (_ ∧ Granted _ us) ∧ Granted (settle (effect live u) us) vs
      rw [ih, and_assoc]

theorem lawful_append : Lawful live (us ++ vs) ↔ Lawful live us ∧ Lawful (settle live us) vs := by
  induction us generalizing live with
  | nil => simp [Lawful]
  | cons u us ih =>
      show _ ∧ Lawful _ (us ++ vs) ↔ (_ ∧ Lawful _ us) ∧ Lawful (settle (effect live u) us) vs
      rw [ih, and_assoc]

theorem lawful_uses (h : ∀ u ∈ us, ∃ n, u = use n ∧ live n = true) :
    Lawful live us ∧ settle live us = live := by
  induction us with
  | nil => exact ⟨trivial, rfl⟩
  | cons u us ih =>
      obtain ⟨n, rfl, hn⟩ := h u List.mem_cons_self
      have htail := ih fun v hv => h v (List.mem_cons_of_mem _ hv)
      exact ⟨⟨hn, htail.1⟩, htail.2⟩

theorem lawful_replicate {n : ν} (h : live n = true) (k : Nat) :
    Lawful live (List.replicate k (use n)) ∧ settle live (List.replicate k (use n)) = live := by
  apply lawful_uses
  intro u hu
  exact ⟨n, List.eq_of_mem_replicate hu, h⟩

/-- In a lawful log, whatever was granted was given back once, unless it is still out. -/
theorem Lawful.count (h : Lawful live us) (n : ν) :
    us.count (acquire n) + (live n).toNat = us.count (release n) + (settle live us n).toNat := by
  induction us generalizing live with
  | nil => simp
  | cons u us ih =>
      have htail := ih h.2
      have hhead := h.1
      show _ = _ + (settle (effect live u) us n).toNat
      cases u with
      | use m => simpa [effect] using htail
      | acquire m =>
          by_cases hm : m = n
          · subst hm
            have hout : effect live (acquire m) m = true := Function.update_self ..
            rw [hout, Bool.toNat_true] at htail
            rw [List.count_cons_self, List.count_cons_of_ne (by simp), hhead, Bool.toNat_false]
            omega
          · simpa [effect, Ne.symm hm, hm] using htail
      | release m =>
          by_cases hm : m = n
          · subst hm
            have hback : effect live (release m) m = false := Function.update_self ..
            rw [hback, Bool.toNat_false] at htail
            rw [List.count_cons_self, List.count_cons_of_ne (by simp), hhead, Bool.toNat_true]
            omega
          · simpa [effect, Ne.symm hm, hm] using htail

end Use

/-! ## Owners -/

structure Owns (live : ν → Bool) (holds : κ → Option ν) : Prop where
  live_iff : ∀ n, live n = true ↔ ∃ k, holds k = some n
  sole : ∀ k k' n, holds k = some n → holds k' = some n → k = k'

namespace Owns

variable {live : ν → Bool} {holds : κ → Option ν}

omit [DecidableEq ν] in
theorem empty : Owns (fun _ : ν => false) (fun _ : κ => none) where
  live_iff := by simp
  sole := fun k k' n h => by cases h

omit [DecidableEq ν] in
theorem live_of_holds (h : Owns live holds) {k : κ} {n : ν} (hk : holds k = some n) :
    live n = true :=
  (h.live_iff n).mpr ⟨k, hk⟩

variable [DecidableEq κ]

theorem acquire (h : Owns live holds) {k : κ} {n : ν} (hfree : live n = false) (hk : holds k = none) :
    Owns (Function.update live n true) (Function.update holds k (some n)) where
  live_iff := by
    intro m
    by_cases hm : m = n
    · subst hm
      simp only [Function.update_self, true_iff]
      exact ⟨k, Function.update_self ..⟩
    · rw [Function.update_of_ne hm, h.live_iff]
      constructor
      · rintro ⟨j, hj⟩
        have hjk : j ≠ k := by
          rintro rfl
          rw [hk] at hj
          cases hj
        exact ⟨j, by rw [Function.update_of_ne hjk, hj]⟩
      · rintro ⟨j, hj⟩
        by_cases hjk : j = k
        · subst hjk
          rw [Function.update_self] at hj
          exact absurd (Option.some.inj hj).symm hm
        · exact ⟨j, by rwa [Function.update_of_ne hjk] at hj⟩
  sole := by
    have hnew : ∀ j m, Function.update holds k (some n) j = some m →
        j = k ∧ m = n ∨ j ≠ k ∧ m ≠ n ∧ holds j = some m := by
      intro j m hj
      by_cases hjk : j = k
      · subst hjk
        rw [Function.update_self] at hj
        exact .inl ⟨rfl, (Option.some.inj hj).symm⟩
      · rw [Function.update_of_ne hjk] at hj
        refine .inr ⟨hjk, ?_, hj⟩
        rintro rfl
        rw [h.live_of_holds hj] at hfree
        cases hfree
    intro j j' m hj hj'
    rcases hnew j m hj with ⟨rfl, rfl⟩ | ⟨-, hne, hold⟩
    · rcases hnew j' m hj' with ⟨rfl, -⟩ | ⟨-, hne, -⟩
      · rfl
      · exact absurd rfl hne
    · rcases hnew j' m hj' with ⟨-, rfl⟩ | ⟨-, -, hold'⟩
      · exact absurd rfl hne
      · exact h.sole j j' m hold hold'

theorem release (h : Owns live holds) {k : κ} {n : ν} (hk : holds k = some n) :
    Owns (Function.update live n false) (Function.update holds k none) where
  live_iff := by
    intro m
    by_cases hm : m = n
    · subst hm
      simp only [Function.update_self, Bool.false_eq_true, false_iff, not_exists]
      intro j hj
      by_cases hjk : j = k
      · subst hjk
        rw [Function.update_self] at hj
        cases hj
      · rw [Function.update_of_ne hjk] at hj
        exact hjk (h.sole j k m hj hk)
    · rw [Function.update_of_ne hm, h.live_iff]
      apply exists_congr
      intro j
      by_cases hjk : j = k
      · subst hjk
        rw [Function.update_self, hk, Option.some.injEq]
        simp [Ne.symm hm]
      · rw [Function.update_of_ne hjk]
  sole := by
    intro j j' m hj hj'
    have hold : ∀ i, Function.update holds k none i = some m → holds i = some m := by
      intro i hi
      by_cases hik : i = k
      · subst hik
        rw [Function.update_self] at hi
        cases hi
      · rwa [Function.update_of_ne hik] at hi
    exact h.sole j j' m (hold j hj) (hold j' hj')

omit [DecidableEq ν] in
theorem transfer (h : Owns live holds) {k k' : κ} (hk' : holds k' = none) :
    Owns live (Function.update (Function.update holds k' (holds k)) k none) := by
  have hswap : ∀ j, Function.update (Function.update holds k' (holds k)) k none j =
      holds (Equiv.swap k k' j) := by
    intro j
    by_cases hjk : j = k
    · rw [hjk, Function.update_self, Equiv.swap_apply_left, hk']
    · rw [Function.update_of_ne hjk]
      by_cases hjk' : j = k'
      · rw [hjk', Function.update_self, Equiv.swap_apply_right]
      · rw [Function.update_of_ne hjk', Equiv.swap_apply_of_ne_of_ne hjk hjk']
  constructor
  · intro n
    rw [h.live_iff]
    constructor
    · rintro ⟨j, hj⟩
      exact ⟨Equiv.swap k k' j, by rw [hswap, Equiv.swap_apply_self, hj]⟩
    · rintro ⟨j, hj⟩
      exact ⟨Equiv.swap k k' j, by rw [← hj, hswap]⟩
  · intro j j' n hj hj'
    rw [hswap] at hj hj'
    exact (Equiv.swap k k').injective (h.sole _ _ n hj hj')

end Owns

end Reactive
