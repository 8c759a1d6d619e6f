import ZiModem.Reactive.Machine

/-! # What some of the actions can bring about

A party of a machine has the actions that satisfy `P`. Where it can go by these
alone, while all others wait, is a matter of composition and of one induction, on
a number that every round brings down. The same kind of number bounds how often
an action is taken, if other actions pay for it.
-/

namespace Reactive.Machine

variable {σ α ω : Type*} {M : Machine σ α ω} {P : α → Prop} {s s₁ s' : σ}

def Reaches (M : Machine σ α ω) (P : α → Prop) (s s' : σ) : Prop :=
  ∃ as os, M.run s as = some (s', os) ∧ ∀ a ∈ as, P a

theorem Reaches.refl (M : Machine σ α ω) (P : α → Prop) (s : σ) : M.Reaches P s s :=
  ⟨[], [], rfl, List.forall_mem_nil _⟩

theorem Reaches.head {a : α} {o : ω} (hstep : M.step s a = some (s₁, o)) (ha : P a)
    (h : M.Reaches P s₁ s') : M.Reaches P s s' := by
  obtain ⟨as, os, hrun, has⟩ := h
  exact ⟨a :: as, o :: os, run_cons_iff.mpr ⟨s₁, o, os, hstep, hrun, rfl⟩,
    List.forall_mem_cons.mpr ⟨ha, has⟩⟩

theorem Reaches.single {a : α} {o : ω} (hstep : M.step s a = some (s', o)) (ha : P a) :
    M.Reaches P s s' :=
  .head hstep ha (.refl M P s')

theorem Reaches.trans (h : M.Reaches P s s₁) (h' : M.Reaches P s₁ s') : M.Reaches P s s' := by
  obtain ⟨as, os, hrun, has⟩ := h
  obtain ⟨bs, os', hrun', hbs⟩ := h'
  refine ⟨as ++ bs, os ++ os', run_append_iff.mpr ⟨s₁, os, os', hrun, hrun', rfl⟩, ?_⟩
  exact List.forall_mem_append.mpr ⟨has, hbs⟩

theorem Reaches.inside {τ β ω' : Type*} {N : Machine τ β ω'} {Q : β → Prop} (f : σ → τ)
    (h : M.Reaches P s s')
    (hstep : ∀ s a s' o, P a → M.step s a = some (s', o) →
      ∃ b o', N.step (f s) b = some (f s', o') ∧ Q b) : N.Reaches Q (f s) (f s') := by
  obtain ⟨as, os, hrun, has⟩ := h
  induction as generalizing s os with
  | nil =>
      cases hrun
      exact .refl N Q _
  | cons a as ih =>
      obtain ⟨s₁, o, os₁, hfirst, hrest, rfl⟩ := run_cons_iff.mp hrun
      obtain ⟨ha, has⟩ := List.forall_mem_cons.mp has
      obtain ⟨b, o', hb, hQ⟩ := hstep s a s₁ o ha hfirst
      exact .head hb hQ (ih os₁ hrest has)

/-- The variant rule: if from every state that satisfies `J`, but not yet `D`, there is a way to one
that satisfies `J` and has a smaller `n`, then there is a way to one that satisfies both. -/
theorem reaches_of_variant {J D : σ → Prop} (n : σ → Nat)
    (hround : ∀ s, J s → ¬ D s → ∃ s₁, M.Reaches P s s₁ ∧ J s₁ ∧ n s₁ < n s) (hs : J s) :
    ∃ s', M.Reaches P s s' ∧ J s' ∧ D s' := by
  induction hn : n s using Nat.strong_induction_on generalizing s with
  | h k ih =>
      by_cases hdone : D s
      · exact ⟨s, .refl M P s, hs, hdone⟩
      · obtain ⟨s₁, hreach, hs₁, hless⟩ := hround s hs hdone
        obtain ⟨s', hreach', hs', hdone'⟩ := ih (n s₁) (hn ▸ hless) hs₁ rfl
        exact ⟨s', hreach.trans hreach', hs', hdone'⟩

/-- The budget rule: if every action that satisfies `p` gives up one of `n`, and only those that
satisfy `q` add to it, `k` at most, then `p` is satisfied as often as `q` has paid for. -/
theorem countP_le {p q : α → Bool} {k : Nat} {n : σ → Nat}
    (hstep : ∀ s a s' o, M.step s a = some (s', o) →
      (if p a then 1 else 0) + n s' ≤ n s + if q a then k else 0)
    {as : List α} {os : List ω} (hrun : M.run s as = some (s', os)) :
    as.countP p + n s' ≤ n s + k * as.countP q := by
  induction as generalizing s os with
  | nil =>
      cases hrun
      simp
  | cons a as ih =>
      obtain ⟨s₁, o, os₁, hfirst, hrest, rfl⟩ := run_cons_iff.mp hrun
      have hnow := hstep s a s₁ o hfirst
      have hlater := ih hrest
      have hpaid : k * (as.countP q + if q a then 1 else 0) =
          k * as.countP q + if q a then k else 0 := by
        split <;> simp [Nat.mul_add]
      rw [List.countP_cons, List.countP_cons, hpaid]
      omega

end Reactive.Machine
