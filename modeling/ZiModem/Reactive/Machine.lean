import Mathlib.Data.List.Infix
import Mathlib.Logic.Function.Basic

/-! # Partial step machines and their runs

A step consumes one action, which also carries every choice of the environment,
and either is not enabled or yields the next state and what an observer sees.
Runs are finite action lists. The rules below are the only inductions over runs:
an invariant, an invariant over the observed history, the same two along runs
whose steps all meet a side condition, and the exact form, where breaking the
side condition breaks the invariant at that very point.
-/

namespace Reactive

structure Machine (σ α ω : Type*) where
  step : σ → α → Option (σ × ω)

namespace Machine

variable {σ α ω : Type*} (M : Machine σ α ω)

/-- Run a list of actions; `none` as soon as one of them is not enabled. -/
def run : σ → List α → Option (σ × List ω)
  | s, [] => some (s, [])
  | s, a :: as =>
      match M.step s a with
      | none => none
      | some (s₁, o) =>
          match run s₁ as with
          | none => none
          | some (s₂, os) => some (s₂, o :: os)

/-! ## Composition of runs -/

@[simp] theorem run_nil (s : σ) : M.run s [] = some (s, []) := rfl

variable {M}

theorem run_cons_iff {s s' : σ} {a : α} {as : List α} {os : List ω} :
    M.run s (a :: as) = some (s', os) ↔
      ∃ s₁ o os₁, M.step s a = some (s₁, o) ∧ M.run s₁ as = some (s', os₁) ∧ os = o :: os₁ := by
  cases hstep : M.step s a with
  | none => simp [run, hstep]
  | some r =>
      obtain ⟨s₁, o⟩ := r
      cases hrest : M.run s₁ as with
      | none =>
          simp only [run, hstep, hrest, reduceCtorEq, false_iff]
          rintro ⟨_, _, _, hr, hrun, _⟩
          cases hr
          simp [hrest] at hrun
      | some r₂ =>
          obtain ⟨s₂, os₁⟩ := r₂
          simp only [run, hstep, hrest]
          constructor
          · intro h
            cases h
            exact ⟨s₁, o, os₁, rfl, hrest, rfl⟩
          · rintro ⟨_, _, _, hr, hrun, rfl⟩
            cases hr
            cases hrest.symm.trans hrun
            rfl

theorem run_append_iff {s s' : σ} {as bs : List α} {os : List ω} :
    M.run s (as ++ bs) = some (s', os) ↔
      ∃ s₁ os₁ os₂, M.run s as = some (s₁, os₁) ∧ M.run s₁ bs = some (s', os₂) ∧
        os = os₁ ++ os₂ := by
  induction as generalizing s os with
  | nil => simp
  | cons a as ih =>
      simp only [List.cons_append, run_cons_iff, ih]
      constructor
      · rintro ⟨s₁, o, _, hstep, ⟨s₂, os₁, os₂, h₁, h₂, rfl⟩, rfl⟩
        exact ⟨s₂, o :: os₁, os₂, ⟨s₁, o, os₁, hstep, h₁, rfl⟩, h₂, rfl⟩
      · rintro ⟨s₂, _, os₂, ⟨s₁, o, os₁, hstep, h₁, rfl⟩, h₂, rfl⟩
        exact ⟨s₁, o, os₁ ++ os₂, hstep, ⟨s₂, os₁, os₂, h₁, h₂, rfl⟩, rfl⟩

theorem run_singleton_iff {s s' : σ} {a : α} {os : List ω} :
    M.run s [a] = some (s', os) ↔ ∃ o, M.step s a = some (s', o) ∧ os = [o] := by
  simp only [run_cons_iff, run_nil, Option.some.injEq, Prod.mk.injEq]
  constructor
  · rintro ⟨_, o, _, hstep, ⟨rfl, rfl⟩, rfl⟩
    exact ⟨o, hstep, rfl⟩
  · rintro ⟨o, hstep, rfl⟩
    exact ⟨s', o, [], hstep, ⟨rfl, rfl⟩, rfl⟩

theorem run_snoc_iff {s s' : σ} {as : List α} {a : α} {os : List ω} :
    M.run s (as ++ [a]) = some (s', os) ↔
      ∃ s₁ os₁ o, M.run s as = some (s₁, os₁) ∧ M.step s₁ a = some (s', o) ∧
        os = os₁ ++ [o] := by
  simp only [run_append_iff, run_singleton_iff]
  constructor
  · rintro ⟨s₁, os₁, _, h₁, ⟨o, hstep, rfl⟩, rfl⟩
    exact ⟨s₁, os₁, o, h₁, hstep, rfl⟩
  · rintro ⟨s₁, os₁, o, h₁, hstep, rfl⟩
    exact ⟨s₁, os₁, [o], h₁, ⟨o, hstep, rfl⟩, rfl⟩

theorem run_last {s s' : σ} {as : List α} {xs : List ω} {o : ω}
    (hrun : M.run s as = some (s', xs ++ [o])) :
    ∃ as₁ a s₁, as = as₁ ++ [a] ∧ M.run s as₁ = some (s₁, xs) ∧ M.step s₁ a = some (s', o) := by
  rcases List.eq_nil_or_concat as with rfl | ⟨as₁, a, rfl⟩
  · simp at hrun
  · rw [List.concat_eq_append] at hrun ⊢
    obtain ⟨s₁, os₁, o₁, hbefore, hstep, hos⟩ := run_snoc_iff.mp hrun
    obtain ⟨rfl, hlast⟩ := List.append_inj' hos rfl
    cases hlast
    exact ⟨as₁, a, s₁, rfl, hbefore, hstep⟩

theorem run_split {s s' : σ} {as : List α} {xs ys : List ω} {o : ω}
    (hrun : M.run s as = some (s', xs ++ o :: ys)) :
    ∃ as₁ a as₂ s₁ s₂, as = as₁ ++ a :: as₂ ∧ M.run s as₁ = some (s₁, xs) ∧
      M.step s₁ a = some (s₂, o) ∧ M.run s₂ as₂ = some (s', ys) := by
  induction xs generalizing s as with
  | nil =>
      cases as with
      | nil => cases hrun
      | cons a as =>
          obtain ⟨s₁, o₁, os₁, hstep, hrest, heq⟩ := run_cons_iff.mp hrun
          cases heq
          exact ⟨[], a, as, s, s₁, rfl, rfl, hstep, hrest⟩
  | cons x xs ih =>
      cases as with
      | nil => cases hrun
      | cons a as =>
          obtain ⟨s₁, o₁, os₁, hstep, hrest, heq⟩ := run_cons_iff.mp hrun
          cases heq
          obtain ⟨as₁, b, as₂, s₂, s₃, rfl, h₁, h₂, h₃⟩ := ih hrest
          exact ⟨a :: as₁, b, as₂, s₂, s₃, rfl,
            run_cons_iff.mpr ⟨s₁, x, xs, hstep, h₁, rfl⟩, h₂, h₃⟩

/-! ## Other observers -/

/-- The machine as seen by an observer who reads `g` off a step: the state before it, its action and
what it shows. -/
def observe {ω' : Type*} (M : Machine σ α ω) (g : σ → α → ω → ω') : Machine σ α ω' :=
  ⟨fun s a => (M.step s a).map fun r => (r.1, g s a r.2)⟩

theorem observe_step_iff {ω' : Type*} {g : σ → α → ω → ω'} {s s' : σ} {a : α} {o' : ω'} :
    (M.observe g).step s a = some (s', o') ↔ ∃ o, M.step s a = some (s', o) ∧ g s a o = o' := by
  simp only [observe, Option.map_eq_some_iff, Prod.mk.injEq]
  constructor
  · rintro ⟨⟨s₁, o⟩, hstep, rfl, rfl⟩
    exact ⟨o, hstep, rfl⟩
  · rintro ⟨o, hstep, rfl⟩
    exact ⟨(s', o), hstep, rfl, rfl⟩

/-! ## Runs whose steps all meet a side condition -/

variable (M)

/-- Every step of the run starts in a state, and takes an action, that `G` allows. -/
def Along (G : σ → α → Prop) : σ → List α → Prop
  | _, [] => True
  | s, a :: as => G s a ∧
      match M.step s a with
      | none => True
      | some (s₁, _) => Along G s₁ as

instance decidableAlong (G : σ → α → Prop) [∀ s a, Decidable (G s a)] :
    (s : σ) → (as : List α) → Decidable (M.Along G s as)
  | _, [] => .isTrue trivial
  | s, a :: as =>
      haveI : Decidable (match M.step s a with
          | none => True
          | some (s₁, _) => M.Along G s₁ as) :=
        match M.step s a with
        | none => .isTrue trivial
        | some (s₁, _) => decidableAlong G s₁ as
      inferInstanceAs (Decidable (G s a ∧ _))

/-- A property of the observed history and the state holds after every prefix of the run. -/
def Throughout (I : List ω → σ → Prop) (s : σ) (as : List α) : Prop :=
  ∀ bs, bs <+: as → ∀ s' os, M.run s bs = some (s', os) → I os s'

variable {M} {G : σ → α → Prop} {I : List ω → σ → Prop}

@[simp] theorem along_nil (s : σ) : M.Along G s [] := trivial

theorem along_cons {s s₁ : σ} {a : α} {as : List α} {o : ω} (h : M.step s a = some (s₁, o)) :
    M.Along G s (a :: as) ↔ G s a ∧ M.Along G s₁ as := by
  simp [Along, h]

theorem along_append {s s₁ : σ} {as bs : List α} {os : List ω}
    (h : M.run s as = some (s₁, os)) :
    M.Along G s (as ++ bs) ↔ M.Along G s as ∧ M.Along G s₁ bs := by
  induction as generalizing s os with
  | nil => cases h; simp
  | cons a as ih =>
      obtain ⟨s₂, o, os₁, hstep, hrun, rfl⟩ := run_cons_iff.mp h
      rw [List.cons_append, along_cons hstep, along_cons hstep, ih hrun, and_assoc]

theorem along_and {H : σ → α → Prop} {s : σ} {as : List α} (hG : M.Along G s as)
    (hH : M.Along H s as) : M.Along (fun s a => G s a ∧ H s a) s as := by
  induction as generalizing s with
  | nil => trivial
  | cons a as ih =>
      refine ⟨⟨hG.1, hH.1⟩, ?_⟩
      have hG' := hG.2
      have hH' := hH.2
      cases hstep : M.step s a with
      | none => trivial
      | some r =>
          rw [hstep] at hG' hH'
          exact ih hG' hH'

theorem along_of_mem {P : α → Prop} {as : List α} (h : ∀ a ∈ as, P a) (s : σ) :
    M.Along (fun _ a => P a) s as := by
  induction as generalizing s with
  | nil => trivial
  | cons a as ih =>
      refine ⟨h a List.mem_cons_self, ?_⟩
      cases M.step s a with
      | none => trivial
      | some r => exact ih (fun b hb => h b (List.mem_cons_of_mem a hb)) r.1

/-! ## The induction rules -/

/-- The history rule along allowed steps: what holds of the empty history and is kept by every
allowed step holds of the history and the state of every run of allowed steps. -/
theorem history_along
    (hstep : ∀ os s a s' o, I os s → G s a → M.step s a = some (s', o) → I (os ++ [o]) s')
    {s s' : σ} {as : List α} {os : List ω} (h₀ : I [] s) (hG : M.Along G s as)
    (hrun : M.run s as = some (s', os)) : I os s' := by
  induction as using List.reverseRecOn generalizing s' os with
  | nil => cases hrun; exact h₀
  | append_singleton as a ih =>
      obtain ⟨s₁, os₁, o, h₁, h₂, rfl⟩ := run_snoc_iff.mp hrun
      have hG' := (along_append h₁).mp hG
      exact hstep os₁ s₁ a s' o (ih hG'.1 h₁) hG'.2.1 h₂

theorem history
    (hstep : ∀ os s a s' o, I os s → M.step s a = some (s', o) → I (os ++ [o]) s')
    {s s' : σ} {as : List α} {os : List ω} (h₀ : I [] s)
    (hrun : M.run s as = some (s', os)) : I os s' :=
  history_along (G := fun _ _ => True) (fun os s a s' o hI _ => hstep os s a s' o hI) h₀
    (along_of_mem (fun _ _ => trivial) s) hrun

theorem invariant_along {J : σ → Prop}
    (hstep : ∀ s a s' o, J s → G s a → M.step s a = some (s', o) → J s')
    {s s' : σ} {as : List α} {os : List ω} (h₀ : J s) (hG : M.Along G s as)
    (hrun : M.run s as = some (s', os)) : J s' :=
  history_along (I := fun _ s => J s) (fun _ s a s' o hJ hg => hstep s a s' o hJ hg) h₀ hG hrun

theorem invariant {J : σ → Prop} (hstep : ∀ s a s' o, J s → M.step s a = some (s', o) → J s')
    {s s' : σ} {as : List α} {os : List ω} (h₀ : J s)
    (hrun : M.run s as = some (s', os)) : J s' :=
  history (I := fun _ s => J s) (fun _ s a s' o hJ => hstep s a s' o hJ) h₀ hrun

/-- The lockstep rule: where related states always match each other's next step, a run of the one
machine is a run of the other, and an observer cannot tell them apart. -/
theorem run_lockstep {τ : Type*} {N : Machine τ α ω} {R : σ → τ → Prop}
    (hstep : ∀ s t a, R s t → ∃ s' t' o, M.step s a = some (s', o) ∧ N.step t a = some (t', o) ∧
      R s' t')
    (as : List α) {s : σ} {t : τ} (h₀ : R s t) :
    ∃ s' t' os, M.run s as = some (s', os) ∧ N.run t as = some (t', os) ∧ R s' t' := by
  induction as generalizing s t with
  | nil => exact ⟨s, t, [], rfl, rfl, h₀⟩
  | cons a as ih =>
      obtain ⟨s₁, t₁, o, hs, ht, h₁⟩ := hstep s t a h₀
      obtain ⟨s', t', os, hruns, hrunt, h'⟩ := ih h₁
      exact ⟨s', t', o :: os, run_cons_iff.mpr ⟨s₁, o, os, hs, hruns, rfl⟩,
        run_cons_iff.mpr ⟨t₁, o, os, ht, hrunt, rfl⟩, h'⟩

theorem throughout_of_along
    (hstep : ∀ os s a s' o, I os s → G s a → M.step s a = some (s', o) → I (os ++ [o]) s')
    {s : σ} {as : List α} (h₀ : I [] s) (hG : M.Along G s as) : M.Throughout I s as := by
  rintro bs ⟨cs, rfl⟩ s' os hrun
  exact history_along hstep h₀ ((along_append hrun).mp hG).1 hrun

theorem along_of_throughout {J : σ → Prop} (hG : ∀ s a, J s → G s a) {s : σ} {as : List α}
    (h : M.Throughout (fun _ s => J s) s as) : M.Along G s as := by
  induction as generalizing s with
  | nil => trivial
  | cons a as ih =>
      refine ⟨hG s a (h [] List.nil_prefix s [] rfl), ?_⟩
      cases hstep : M.step s a with
      | none => trivial
      | some r =>
          obtain ⟨s₁, o⟩ := r
          apply ih
          intro bs hbs s' os hrun
          exact h (a :: bs) (List.cons_prefix_cons.mpr ⟨rfl, hbs⟩) s' (o :: os)
            (run_cons_iff.mpr ⟨s₁, o, os, hstep, hrun, rfl⟩)

/-! ## The exact rule -/

def recorded (M : Machine σ α ω) : Machine (σ × List ω) α ω :=
  ⟨fun s a => (M.step s.1 a).map fun r => ((r.1, s.2 ++ [r.2]), r.2)⟩

theorem recorded_step {s s' : σ} {a : α} {o : ω} (h : M.step s a = some (s', o)) (hs : List ω) :
    M.recorded.step (s, hs) a = some ((s', hs ++ [o]), o) := by
  simp [recorded, h]

theorem recorded_run {s s' : σ} {as : List α} {os : List ω} (hrun : M.run s as = some (s', os))
    (hs : List ω) : M.recorded.run (s, hs) as = some ((s', hs ++ os), os) := by
  induction as generalizing s os hs with
  | nil =>
      cases hrun
      simp
  | cons a as ih =>
      obtain ⟨s₁, o, os₁, hstep, hrest, rfl⟩ := run_cons_iff.mp hrun
      have hafter := ih hrest (hs ++ [o])
      rw [List.append_assoc, List.singleton_append] at hafter
      exact run_cons_iff.mpr ⟨_, o, os₁, recorded_step hstep hs, hafter, rfl⟩

theorem along_recorded {s s' : σ} {as : List α} {os : List ω}
    (hrun : M.run s as = some (s', os)) (hs : List ω) :
    M.recorded.Along (fun r a => G r.1 a) (s, hs) as ↔ M.Along G s as := by
  induction as generalizing s os hs with
  | nil => simp
  | cons a as ih =>
      obtain ⟨s₁, o, os₁, hstep, hrest, -⟩ := run_cons_iff.mp hrun
      rw [along_cons hstep, along_cons (recorded_step hstep hs), ih hrest]

theorem throughout_nil {s : σ} : M.Throughout I s [] ↔ I [] s := by
  constructor
  · intro h
    exact h [] List.prefix_rfl s [] rfl
  · intro h bs hbs s₁ os₁ hrun₁
    rw [List.prefix_nil.mp hbs] at hrun₁
    cases hrun₁
    exact h

theorem throughout_snoc {s s' : σ} {as : List α} {a : α} {os : List ω}
    (hrun : M.run s (as ++ [a]) = some (s', os)) :
    M.Throughout I s (as ++ [a]) ↔ M.Throughout I s as ∧ I os s' := by
  constructor
  · intro h
    exact ⟨fun bs hbs => h bs (hbs.trans (List.prefix_append _ _)),
      h (as ++ [a]) List.prefix_rfl s' os hrun⟩
  · rintro ⟨hall, hlast⟩ bs hbs s₂ os₂ hrun₂
    rcases List.prefix_concat_iff.mp hbs with rfl | hbs
    · cases hrun.symm.trans hrun₂
      exact hlast
    · exact hall bs hbs s₂ os₂ hrun₂

/-- The exact rule: where a step that `G` does not allow breaks the property on the spot, the
property holds throughout a run exactly when every step of the run is allowed. What `G` allows may
depend on what the run has shown; `A` holds of all steps of the run, and `J` all along it. -/
theorem throughout_iff_recorded_along {A : σ → α → Prop} {J : List ω → σ → Prop}
    {G : σ × List ω → α → Prop}
    (hJ : ∀ os s a s' o, J os s → A s a → M.step s a = some (s', o) → J (os ++ [o]) s')
    (hstep : ∀ os s a s' o, J os s → I os s → A s a → M.step s a = some (s', o) →
      (I (os ++ [o]) s' ↔ G (s, os) a))
    {s s' : σ} {as : List α} {os : List ω} (hj : J [] s) (h₀ : I [] s) (hA : M.Along A s as)
    (hrun : M.run s as = some (s', os)) :
    M.Throughout I s as ↔ M.recorded.Along G (s, []) as := by
  induction as using List.reverseRecOn generalizing s' os with
  | nil => exact iff_of_true (throughout_nil.mpr h₀) trivial
  | append_singleton as a ih =>
      obtain ⟨s₁, os₁, o, h₁, h₂, rfl⟩ := run_snoc_iff.mp hrun
      obtain ⟨hbefore, hlast⟩ := (along_append h₁).mp hA
      have hJ₁ : J os₁ s₁ := history_along hJ hj hbefore h₁
      have hrecorded := recorded_run h₁ []
      rw [List.nil_append] at hrecorded
      rw [along_append hrecorded, ← ih hbefore h₁, along_cons (recorded_step h₂ os₁),
        throughout_snoc hrun]
      simp only [along_nil, and_true]
      apply and_congr_right
      intro hall
      exact hstep os₁ s₁ a s' o hJ₁ (hall as List.prefix_rfl s₁ os₁ h₁) hlast.1 h₂

theorem throughout_iff_recorded {J : List ω → σ → Prop} {G : σ × List ω → α → Prop}
    (hJ : ∀ os s a s' o, J os s → M.step s a = some (s', o) → J (os ++ [o]) s')
    (hstep : ∀ os s a s' o, J os s → I os s → M.step s a = some (s', o) →
      (I (os ++ [o]) s' ↔ G (s, os) a))
    {s s' : σ} {as : List α} {os : List ω} (hj : J [] s) (h₀ : I [] s)
    (hrun : M.run s as = some (s', os)) :
    M.Throughout I s as ↔ M.recorded.Along G (s, []) as :=
  throughout_iff_recorded_along (A := fun _ _ => True) (fun os s a s' o hj _ => hJ os s a s' o hj)
    (fun os s a s' o hj hi _ => hstep os s a s' o hj hi) hj h₀
    (along_of_mem (fun _ _ => trivial) s) hrun

theorem throughout_iff_along
    (hstep : ∀ os s a s' o, I os s → M.step s a = some (s', o) → (I (os ++ [o]) s' ↔ G s a))
    {s s' : σ} {as : List α} {os : List ω} (h₀ : I [] s) (hrun : M.run s as = some (s', os)) :
    M.Throughout I s as ↔ M.Along G s as := by
  rw [← along_recorded hrun []]
  exact throughout_iff_recorded (J := fun _ _ => True) (fun _ _ _ _ _ _ _ => trivial)
    (fun os s a s' o _ => hstep os s a s' o) trivial h₀ hrun

end Machine

end Reactive
