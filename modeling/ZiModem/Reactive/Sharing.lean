import Mathlib.Data.Finset.Card
import Mathlib.Logic.Function.Basic

/-! # Shared resources

Holders refer to resources, any number of them to the same one, and every resource
has a count of its holders. A resource is given up when its count falls to nought;
while the counts are right, that is when its last holder lets go of it.
-/

namespace Reactive

/-- Who refers to what, and how many there are for each resource. -/
structure Shared (κ ρ : Type*) where
  target : κ → Option ρ
  useCount : ρ → Nat

namespace Shared

variable {κ ρ : Type*}

def empty : Shared κ ρ := ⟨fun _ => none, fun _ => 0⟩

structure Counted (s : Shared κ ρ) : Prop where
  holders : ∀ r, ∃ owners : Finset κ,
    (∀ k, k ∈ owners ↔ s.target k = some r) ∧ s.useCount r = owners.card

theorem Counted.empty : (empty : Shared κ ρ).Counted :=
  ⟨fun _ => ⟨∅, by simp [Shared.empty], rfl⟩⟩

variable {s : Shared κ ρ}

theorem Counted.pos_iff (h : s.Counted) (r : ρ) : 0 < s.useCount r ↔ ∃ k, s.target k = some r := by
  obtain ⟨owners, howners, hcount⟩ := h.holders r
  rw [hcount, Finset.card_pos]
  exact exists_congr howners

theorem Counted.sole (h : s.Counted) {r : ρ} {k k' : κ} (hone : s.useCount r = 1)
    (hk : s.target k = some r) (hk' : s.target k' = some r) : k' = k := by
  obtain ⟨owners, howners, hcount⟩ := h.holders r
  have hcard : owners.card = 1 := hcount.symm.trans hone
  obtain ⟨k₀, rfl⟩ := Finset.card_eq_one.mp hcard
  rw [Finset.mem_singleton.mp ((howners k).mpr hk), Finset.mem_singleton.mp ((howners k').mpr hk')]

def last (s : Shared κ ρ) (k : κ) : Option ρ :=
  (s.target k).filter fun r => s.useCount r = 1

theorem last_eq_some_iff {k : κ} {r : ρ} :
    s.last k = some r ↔ s.target k = some r ∧ s.useCount r = 1 := by
  simp [last, Option.filter_eq_some_iff]

variable [DecidableEq κ] [DecidableEq ρ]

def attach (s : Shared κ ρ) (k : κ) (r : ρ) : Shared κ ρ :=
  ⟨Function.update s.target k (some r), Function.update s.useCount r (s.useCount r + 1)⟩

def detach (s : Shared κ ρ) (k : κ) : Shared κ ρ :=
  match s.target k with
  | none => s
  | some r =>
      ⟨Function.update s.target k none, Function.update s.useCount r (s.useCount r - 1)⟩

theorem attach_useCount_pos (k : κ) (r r' : ρ) :
    0 < (s.attach k r).useCount r' ↔ r' = r ∨ 0 < s.useCount r' := by
  by_cases hr : r' = r
  · simp [attach, hr]
  · simp [attach, hr]

theorem detach_target (k : κ) : (s.detach k).target = Function.update s.target k none := by
  unfold detach
  cases hk : s.target k with
  | none => exact (Function.update_eq_self_iff.mpr hk.symm).symm
  | some r => rfl

theorem Counted.detach_useCount_pos (h : s.Counted) (k : κ) (r : ρ) :
    0 < (s.detach k).useCount r ↔ 0 < s.useCount r ∧ s.last k ≠ some r := by
  rw [Ne, last_eq_some_iff]
  unfold detach
  cases hk : s.target k with
  | none => simp
  | some r' =>
      have hpos : 0 < s.useCount r' := (h.pos_iff r').mpr ⟨k, hk⟩
      by_cases hr : r = r'
      · subst hr
        simp only [Function.update_self, true_and]
        omega
      · have hne : some r' ≠ some r := fun heq => hr (Option.some.inj heq).symm
        simp [hr, hne]

theorem Counted.attach (h : s.Counted) {k : κ} (hk : s.target k = none) (r : ρ) :
    (s.attach k r).Counted := by
  refine ⟨fun r' => ?_⟩
  obtain ⟨owners, howners, hcount⟩ := h.holders r'
  have hout : k ∉ owners := by
    rw [howners, hk]
    exact fun heq => by cases heq
  by_cases hr : r' = r
  · subst hr
    refine ⟨insert k owners, fun j => ?_, ?_⟩
    · by_cases hj : j = k
      · simp [Shared.attach, hj]
      · simp [Shared.attach, hj, howners]
    · rw [Finset.card_insert_of_notMem hout, ← hcount]
      simp [Shared.attach]
  · refine ⟨owners, fun j => ?_, ?_⟩
    · by_cases hj : j = k
      · subst hj
        simp [Shared.attach, hout, Ne.symm hr]
      · simp [Shared.attach, hj, howners]
    · simp [Shared.attach, hr, hcount]

theorem Counted.detach (h : s.Counted) (k : κ) : (s.detach k).Counted := by
  unfold Shared.detach
  cases hk : s.target k with
  | none => exact h
  | some r =>
      refine ⟨fun r' => ?_⟩
      obtain ⟨owners, howners, hcount⟩ := h.holders r'
      refine ⟨owners.erase k, fun j => ?_, ?_⟩
      · by_cases hj : j = k
        · simp [hj]
        · simp [hj, howners]
      · by_cases hr : r' = r
        · subst hr
          rw [Finset.card_erase_of_mem ((howners k).mpr hk), ← hcount]
          simp
        · have hout : k ∉ owners := by
            rw [howners, hk]
            exact fun heq => hr (Option.some.inj heq).symm
          rw [Finset.erase_eq_of_notMem hout, ← hcount]
          simp [hr]

end Shared

end Reactive
