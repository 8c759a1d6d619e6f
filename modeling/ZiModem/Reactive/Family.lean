import ZiModem.Reactive.Machine

/-! # Families of machines

Copies of one machine, each with a state of its own, that run side by side. A run of
the family is a run of every member, with the actions and the observations of
that member alone; so what holds of every run of the machine holds of each member
in every interleaving.
-/

namespace Reactive.Machine

variable {σ α ω : Type*} {ι : Type*} [DecidableEq ι]

/-- Every action belongs to one member, and every observation says whose it is. -/
def family (M : Machine σ α ω) (ι : Type*) [DecidableEq ι] : Machine (ι → σ) (ι × α) (ι × ω) :=
  ⟨fun s a => (M.step (s a.1) a.2).map fun r => (Function.update s a.1 r.1, (a.1, r.2))⟩

def part {β : Type*} (i : ι) (xs : List (ι × β)) : List β :=
  xs.filterMap fun x => if x.1 = i then some x.2 else none

section Part

variable {β : Type*}

@[simp] theorem part_nil (i : ι) : part i ([] : List (ι × β)) = [] := rfl

@[simp] theorem part_cons_self (i : ι) (x : β) (xs : List (ι × β)) :
    part i ((i, x) :: xs) = x :: part i xs := by
  simp [part]

theorem part_cons_other {i j : ι} (h : j ≠ i) (x : β) (xs : List (ι × β)) :
    part i ((j, x) :: xs) = part i xs := by
  simp [part, h]

end Part

variable {M : Machine σ α ω}

theorem family_step_iff {s s' : ι → σ} {a : ι × α} {o : ι × ω} :
    (M.family ι).step s a = some (s', o) ↔
      ∃ r, M.step (s a.1) a.2 = some (r, o.2) ∧ o.1 = a.1 ∧ s' = Function.update s a.1 r := by
  obtain ⟨j, x⟩ := o
  simp only [family, Option.map_eq_some_iff, Prod.mk.injEq]
  constructor
  · rintro ⟨⟨r, y⟩, hstep, rfl, rfl, rfl⟩
    exact ⟨r, hstep, rfl, rfl⟩
  · rintro ⟨r, hstep, rfl, rfl⟩
    exact ⟨(r, x), hstep, rfl, rfl, rfl⟩

theorem family_run {s s' : ι → σ} {as : List (ι × α)} {os : List (ι × ω)}
    (hrun : (M.family ι).run s as = some (s', os)) (i : ι) :
    M.run (s i) (part i as) = some (s' i, part i os) := by
  induction as generalizing s os with
  | nil =>
      cases hrun
      rfl
  | cons a as ih =>
      obtain ⟨s₁, o, os₁, hstep, hrest, rfl⟩ := run_cons_iff.mp hrun
      obtain ⟨r, hmember, howner, rfl⟩ := family_step_iff.mp hstep
      obtain ⟨j, b⟩ := a
      obtain ⟨j', x⟩ := o
      cases howner
      have hrest' := ih hrest
      by_cases hj : j = i
      · subst hj
        rw [Function.update_self] at hrest'
        rw [part_cons_self, part_cons_self]
        exact run_cons_iff.mpr ⟨r, x, _, hmember, hrest', rfl⟩
      · rw [Function.update_of_ne (Ne.symm hj)] at hrest'
        rw [part_cons_other hj, part_cons_other hj]
        exact hrest'

end Reactive.Machine
