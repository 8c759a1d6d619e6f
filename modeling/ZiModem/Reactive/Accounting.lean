import ZiModem.Reactive.Machine

/-! # Accounting along runs

Two ledgers over the observed history of a run. A flow follows the items that
pass through a buffer: if every step conserves them, then over any run what was
put in is what was taken out followed by what is still held, in order. A credit
bounds how often something can be observed: every observation is paid for out
of a natural number attached to the state.
-/

namespace Reactive

variable {σ α ω β : Type*}

/-! ## Flows -/

/-- A buffer read off a state, and the items each observation puts in and takes out. -/
structure Flow (σ ω β : Type*) where
  held : σ → List β
  put : ω → List β
  taken : ω → List β

namespace Flow

variable (F : Flow σ ω β)

/-- One step neither loses, nor duplicates, nor reorders an item. -/
def Conserves (s : σ) (o : ω) (s' : σ) : Prop :=
  F.held s ++ F.put o = F.taken o ++ F.held s'

/-- Over a history from `s₀` to `s`, the items that went in are the items that came out,
followed by the items still held. -/
def Balanced (s₀ : σ) (os : List ω) (s : σ) : Prop :=
  F.held s₀ ++ os.flatMap F.put = os.flatMap F.taken ++ F.held s

theorem balanced_nil (s : σ) : F.Balanced s [] s := by simp [Balanced]

variable {F}

/-- One more step keeps the balance exactly when that step conserves. -/
theorem Balanced.snoc_iff {s₀ s s' : σ} {os : List ω} {o : ω} (h : F.Balanced s₀ os s) :
    F.Balanced s₀ (os ++ [o]) s' ↔ F.Conserves s o s' := by
  have hleft : F.held s₀ ++ (os ++ [o]).flatMap F.put =
      os.flatMap F.taken ++ (F.held s ++ F.put o) := by
    rw [List.flatMap_append, ← List.append_assoc, h, List.append_assoc]
    simp
  have hright : (os ++ [o]).flatMap F.taken ++ F.held s' =
      os.flatMap F.taken ++ (F.taken o ++ F.held s') := by
    simp [List.flatMap_append, List.append_assoc]
  rw [Balanced, hleft, hright]
  exact List.append_right_inj _

theorem balanced_along {M : Machine σ α ω} {G : σ → α → Prop} {J : σ → Prop}
    (hJ : ∀ s a s' o, J s → G s a → M.step s a = some (s', o) → J s')
    (hF : ∀ s a s' o, J s → G s a → M.step s a = some (s', o) → F.Conserves s o s')
    {s s' : σ} {as : List α} {os : List ω} (h₀ : J s) (hG : M.Along G s as)
    (hrun : M.run s as = some (s', os)) : F.Balanced s os s' := by
  have hboth : J s' ∧ F.Balanced s os s' :=
    Machine.history_along (I := fun os s' => J s' ∧ F.Balanced s os s')
      (fun os s₁ a s₂ o h hg hstep =>
        ⟨hJ s₁ a s₂ o h.1 hg hstep, h.2.snoc_iff.mpr (hF s₁ a s₂ o h.1 hg hstep)⟩)
      ⟨h₀, F.balanced_nil s⟩ hG hrun
  exact hboth.2

theorem balanced_run {M : Machine σ α ω} {J : σ → Prop}
    (hJ : ∀ s a s' o, J s → M.step s a = some (s', o) → J s')
    (hF : ∀ s a s' o, J s → M.step s a = some (s', o) → F.Conserves s o s')
    {s s' : σ} {as : List α} {os : List ω} (h₀ : J s)
    (hrun : M.run s as = some (s', os)) : F.Balanced s os s' :=
  balanced_along (G := fun _ _ => True) (fun s a s' o h _ => hJ s a s' o h)
    (fun s a s' o h _ => hF s a s' o h) h₀
    (Machine.along_of_mem (fun _ _ => trivial) s) hrun

variable (F) in
/-- What went in and has not come out, as the history alone tells it. -/
def pending (s₀ : σ) (os : List ω) : List β :=
  (F.held s₀ ++ os.flatMap F.put).drop (os.flatMap F.taken).length

theorem Balanced.pending_eq {s₀ s : σ} {os : List ω} (h : F.Balanced s₀ os s) :
    F.pending s₀ os = F.held s := by
  rw [pending, h, List.drop_left]

end Flow

/-! ## Credits -/

namespace Machine

variable {M : Machine σ α ω} {G : σ → α → Prop} {J : σ → Prop}

/-- The credit rule: if every step that observes `p` gives up one of the credit `n`, then a run
observes `p` no more often than the credit of its first state. -/
theorem countP_along {n : σ → Nat} {p : ω → Bool}
    (hJ : ∀ s a s' o, J s → G s a → M.step s a = some (s', o) → J s')
    (hn : ∀ s a s' o, J s → G s a → M.step s a = some (s', o) →
      (if p o then 1 else 0) + n s' ≤ n s)
    {s s' : σ} {as : List α} {os : List ω} (h₀ : J s) (hG : M.Along G s as)
    (hrun : M.run s as = some (s', os)) : os.countP p + n s' ≤ n s := by
  have hboth : J s' ∧ os.countP p + n s' ≤ n s :=
    history_along (I := fun os s' => J s' ∧ os.countP p + n s' ≤ n s)
      (fun os s₁ a s₂ o h hg hstep => by
        have hpay := hn s₁ a s₂ o h.1 hg hstep
        refine ⟨hJ s₁ a s₂ o h.1 hg hstep, ?_⟩
        have hsum : (os ++ [o]).countP p = os.countP p + if p o then 1 else 0 := by
          rw [List.countP_append, List.countP_singleton]
        have hbefore := h.2
        omega)
      ⟨h₀, by simp⟩ hG hrun
  exact hboth.2

theorem never_along {P : ω → Prop}
    (hJ : ∀ s a s' o, J s → G s a → M.step s a = some (s', o) → J s')
    (hP : ∀ s a s' o, J s → G s a → M.step s a = some (s', o) → ¬ P o)
    {s s' : σ} {as : List α} {os : List ω} (h₀ : J s) (hG : M.Along G s as)
    (hrun : M.run s as = some (s', os)) : ∀ o ∈ os, ¬ P o := by
  have hboth : J s' ∧ ∀ o ∈ os, ¬ P o :=
    history_along (I := fun os s' => J s' ∧ ∀ o ∈ os, ¬ P o)
      (fun os s₁ a s₂ o h hg hstep => by
        refine ⟨hJ s₁ a s₂ o h.1 hg hstep, fun x hx => ?_⟩
        rcases List.mem_append.mp hx with hx | hx
        · exact h.2 x hx
        · rw [List.mem_singleton.mp hx]
          exact hP s₁ a s₂ o h.1 hg hstep)
      ⟨h₀, by simp⟩ hG hrun
  exact hboth.2

/-- The rule for what never follows: if observing `Q` establishes `J`, and `J` is kept and rules
`P` out, then no `P` follows a `Q`. -/
theorem pairwise_along {Q P : ω → Prop} {K : σ → Prop}
    (hJ : ∀ s a s' o, J s → G s a → M.step s a = some (s', o) → J s')
    (hQ : ∀ s a s' o, J s → G s a → M.step s a = some (s', o) → Q o → K s')
    (hK : ∀ s a s' o, J s → K s → G s a → M.step s a = some (s', o) → K s')
    (hP : ∀ s a s' o, J s → K s → G s a → M.step s a = some (s', o) → ¬ P o)
    {s s' : σ} {as : List α} {os : List ω} (h₀ : J s) (hG : M.Along G s as)
    (hrun : M.run s as = some (s', os)) : os.Pairwise fun o o' => Q o → ¬ P o' := by
  have hall : J s' ∧ (os.Pairwise fun o o' => Q o → ¬ P o') ∧ ((∃ o ∈ os, Q o) → K s') :=
    history_along (I := fun os s' =>
        J s' ∧ (os.Pairwise fun o o' => Q o → ¬ P o') ∧ ((∃ o ∈ os, Q o) → K s'))
      (fun os s₁ a s₂ o h hg hstep => by
        obtain ⟨hj, hpairs, hk⟩ := h
        refine ⟨hJ s₁ a s₂ o hj hg hstep, ?_, ?_⟩
        · refine List.pairwise_append.mpr ⟨hpairs, List.pairwise_singleton _ _, ?_⟩
          intro x hx y hy hq
          rw [List.mem_singleton.mp hy]
          exact hP s₁ a s₂ o hj (hk ⟨x, hx, hq⟩) hg hstep
        · rintro ⟨x, hx, hq⟩
          rcases List.mem_append.mp hx with hx | hx
          · exact hK s₁ a s₂ o hj (hk ⟨x, hx, hq⟩) hg hstep
          · rw [List.mem_singleton.mp hx] at hq
            exact hQ s₁ a s₂ o hj hg hstep hq)
      ⟨h₀, List.Pairwise.nil, by simp⟩ hG hrun
  exact hall.2.1

/-- The rule for what holds since: `P` establishes `K` for an empty stretch, and every step that
does not show `Q` extends the stretch. -/
theorem since_along {P Q : ω → Prop} {K : ω → List ω → σ → Prop}
    (hJ : ∀ s a s' o, J s → G s a → M.step s a = some (s', o) → J s')
    (hstart : ∀ s a s' o, J s → G s a → M.step s a = some (s', o) → P o → K o [] s')
    (hkeep : ∀ m os s a s' o, J s → K m os s → G s a → M.step s a = some (s', o) → ¬ Q o →
      K m (os ++ [o]) s')
    {s s' : σ} {as : List α} {os : List ω} (h₀ : J s) (hG : M.Along G s as)
    (hrun : M.run s as = some (s', os)) :
    ∀ xs m ys, os = xs ++ m :: ys → P m → (∀ o ∈ ys, ¬ Q o) → K m ys s' := by
  have hall : J s' ∧ ∀ xs m ys, os = xs ++ m :: ys → P m → (∀ o ∈ ys, ¬ Q o) → K m ys s' := by
    apply history_along (G := G) (I := fun os s' => J s' ∧
      ∀ xs m ys, os = xs ++ m :: ys → P m → (∀ o ∈ ys, ¬ Q o) → K m ys s') ?_ ?_ hG hrun
    · intro os s₁ a s₂ o h hg hstep
      apply And.intro (hJ s₁ a s₂ o h.1 hg hstep)
      intro xs m ys hos hm hys
      rcases List.eq_nil_or_concat ys with rfl | ⟨zs, o', rfl⟩
      · have hlast := (List.append_inj' hos rfl).2
        cases hlast
        exact hstart s₁ a s₂ o h.1 hg hstep hm
      · rw [List.concat_eq_append] at hos hys ⊢
        rw [← List.cons_append, ← List.append_assoc] at hos
        obtain ⟨hinit, hlast⟩ := List.append_inj' hos rfl
        cases hlast
        have hbefore := h.2 xs m zs hinit hm fun x hx => hys x (List.mem_append_left _ hx)
        exact hkeep m zs s₁ a s₂ o h.1 hbefore hg hstep (hys o (by simp))
    · apply And.intro h₀
      intro xs m ys hos
      simp at hos
  exact hall.2

theorem since {P Q : ω → Prop} {K : ω → List ω → σ → Prop}
    (hJ : ∀ s a s' o, J s → M.step s a = some (s', o) → J s')
    (hstart : ∀ s a s' o, J s → M.step s a = some (s', o) → P o → K o [] s')
    (hkeep : ∀ m os s a s' o, J s → K m os s → M.step s a = some (s', o) → ¬ Q o →
      K m (os ++ [o]) s')
    {s s' : σ} {as : List α} {os : List ω} (h₀ : J s) (hrun : M.run s as = some (s', os))
    {xs ys : List ω} {m : ω} (hos : os = xs ++ m :: ys) (hm : P m) (hys : ∀ o ∈ ys, ¬ Q o) :
    K m ys s' :=
  since_along (G := fun _ _ => True) (fun s a s' o h _ => hJ s a s' o h)
    (fun s a s' o h _ => hstart s a s' o h) (fun m os s a s' o h hk _ => hkeep m os s a s' o h hk)
    h₀ (along_of_mem (fun _ _ => trivial) s) hrun xs m ys hos hm hys

end Machine

theorem not_follows {Q P : ω → Prop} {xs ys : List ω} {o : ω}
    (h : (xs ++ o :: ys).Pairwise fun o o' => Q o → ¬ P o') (hq : Q o) : ∀ o' ∈ ys, ¬ P o' := by
  intro o' hmem
  have hhead := (List.pairwise_cons.mp (List.pairwise_append.mp h).2.1).1
  exact hhead o' hmem hq

theorem countP_le_one {p : ω → Bool} {os : List ω}
    (h : os.Pairwise fun o o' => p o = true → ¬ p o' = true) : os.countP p ≤ 1 := by
  induction os with
  | nil => simp
  | cons o os ih =>
      obtain ⟨hhead, htail⟩ := List.pairwise_cons.mp h
      by_cases ho : p o = true
      · have hnone : os.countP p = 0 := List.countP_eq_zero.mpr fun o' hmem => hhead o' hmem ho
        rw [List.countP_cons_of_pos ho, hnone]
      · rw [List.countP_cons_of_neg ho]
        exact ih htail

end Reactive
