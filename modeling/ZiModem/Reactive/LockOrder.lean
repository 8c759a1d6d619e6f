import Mathlib.Algebra.Ring.Nat
import Mathlib.Logic.Relation
import ZiModem.Reactive.Locking

/-! # Mutexes in an order

If every thread locks only mutexes that rank below those it holds, then a chain
of threads each waiting for the next descends in rank: it is no cycle, and it
ends in a thread that can go on. If moreover every step of a block is paid for
by the call it belongs to, a call takes a bounded number of steps, whatever the
other threads do in between. The two together leave no room for a deadlock or
for a livelock.
-/

namespace Reactive.Program

variable {σ μ β χ ω τ : Type*} (P : Program σ μ β χ ω)

/-! ## Waiting -/

def awaited : List (Frame μ β) → Option μ
  | .enter b :: _ => P.guard b
  | _ => none

def WaitsFor (s : Config σ μ β τ) (t t' : τ) : Prop :=
  ∃ m, P.awaited (s.stack t) = some m ∧ s.owner m = some t'

def NeverStuck : Prop := ∀ s b, ∃ c e, P.exec s b c = some e

/-- A block is reached only by threads whose mutexes all rank above its own. -/
def Descends (fits : List μ → β → Prop) (rank : μ → Nat) : Prop :=
  ∀ H b m m', fits H b → P.guard b = some m → m' ∈ H → rank m < rank m'

section Steps

variable [DecidableEq μ] [DecidableEq τ]

def CanAdvance (s : Config σ μ β τ) (t : τ) : Prop :=
  ∃ c s' o, P.step s (.advance t c) = some (s', o)

/-- Every call in progress can go on, or waits, directly or through others, for one that can. -/
def Moves (s : Config σ μ β τ) : Prop :=
  ∀ t, s.stack t ≠ [] → ∃ t', Relation.ReflTransGen (P.WaitsFor s) t t' ∧ P.CanAdvance s t'

variable {P}

theorem NeverStuck.canAdvance_or_waits [Nonempty χ] (hP : P.NeverStuck) {s : Config σ μ β τ}
    {t : τ} (hbusy : s.stack t ≠ []) : P.CanAdvance s t ∨ ∃ t', P.WaitsFor s t t' := by
  cases hstack : s.stack t with
  | nil => exact absurd hstack hbusy
  | cons f rest =>
      cases f with
      | enter b =>
          by_cases hfree : s.Free (P.guard b)
          · obtain ⟨c, _⟩ := hP s.shared b
            exact .inl ⟨c, _, _, by simp only [step, hstack, advance, if_pos hfree]; rfl⟩
          · cases hguard : P.guard b with
            | none => exact absurd (by rw [hguard]; trivial) hfree
            | some m =>
                rw [hguard] at hfree
                obtain ⟨t', hown⟩ := Option.ne_none_iff_exists'.mp hfree
                exact .inr ⟨t', m, by rw [hstack]; exact hguard, hown⟩
      | inside b =>
          obtain ⟨c, e, hexec⟩ := hP s.shared b
          exact .inl ⟨c, _, _, by simp only [step, hstack, advance, hexec]; rfl⟩
      | exit m after =>
          obtain ⟨c⟩ := ‹Nonempty χ›
          exact .inl ⟨c, _, _, by simp only [step, hstack, advance]; rfl⟩

end Steps

/-! ## Chains of waiting threads -/

section Chains

variable {P} {fits : List μ → β → Prop} {rank : μ → Nat} {s : Config σ μ β τ}

theorem Descends.awaited_lt (hrank : P.Descends fits rank) {fs : List (Frame μ β)} {m m' : μ}
    (hfits : P.FitsStack fits fs) (hwait : P.awaited fs = some m) (hheld : m' ∈ P.held fs) :
    rank m < rank m' := by
  cases fs with
  | nil => cases hwait
  | cons f rest =>
      cases f with
      | enter b => exact hrank _ b m m' (hfits.1 b rfl) hwait hheld
      | inside b => cases hwait
      | exit m₁ after => cases hwait

variable (hrank : P.Descends fits rank) (hcons : P.Consistent s)
  (hfits : ∀ t, P.FitsStack fits (s.stack t))

include hrank hcons hfits

theorem Descends.waits_lt {t t' : τ} {m m' : μ} (hwaits : P.WaitsFor s t t')
    (hm : P.awaited (s.stack t) = some m) (hm' : P.awaited (s.stack t') = some m') :
    rank m' < rank m := by
  obtain ⟨m₁, hawaited, hown⟩ := hwaits
  obtain rfl : m₁ = m := Option.some.inj (hawaited.symm.trans hm)
  exact hrank.awaited_lt (hfits t') hm' ((hcons.owner_iff m₁ t').mp hown)

/-- A chain of waiting threads ends in one that can go on, by induction on the rank of the mutex
awaited at its front. -/
theorem Descends.moves [DecidableEq μ] [DecidableEq τ] [Nonempty χ] (hP : P.NeverStuck) :
    P.Moves s := by
  have hchain : ∀ n t m, P.awaited (s.stack t) = some m → rank m = n →
      ∃ t', Relation.ReflTransGen (P.WaitsFor s) t t' ∧ P.CanAdvance s t' := by
    intro n
    induction n using Nat.strongRecOn with
    | ind n ih =>
        rintro t m hm rfl
        have hbusy : s.stack t ≠ [] := by
          intro hidle
          rw [hidle] at hm
          cases hm
        rcases hP.canAdvance_or_waits hbusy with hgo | ⟨t', hwaits⟩
        · exact ⟨t, .refl, hgo⟩
        · have hbusy' : s.stack t' ≠ [] := by
            intro hidle
            obtain ⟨m₁, _, hown⟩ := hwaits
            have hheld := (hcons.owner_iff m₁ t').mp hown
            rw [hidle] at hheld
            cases hheld
          rcases hP.canAdvance_or_waits hbusy' with hgo | ⟨t'', m', hm', hown'⟩
          · exact ⟨t', .single hwaits, hgo⟩
          · obtain ⟨t₁, hchain, hgo⟩ :=
              ih (rank m') (hrank.waits_lt hcons hfits hwaits hm hm') t' m' hm' rfl
            exact ⟨t₁, .head hwaits hchain, hgo⟩
  intro t hbusy
  rcases hP.canAdvance_or_waits hbusy with hgo | ⟨t', m, hm, hown⟩
  · exact ⟨t, .refl, hgo⟩
  · exact hchain (rank m) t m hm rfl

end Chains

section Runs

variable [DecidableEq μ] [DecidableEq τ] {P : Program σ μ β χ ω} {fits : List μ → β → Prop}
  {G : σ → List μ → β → χ → Prop} {shared : σ} {as : List (ThreadAction τ β χ)}

/-- What the discipline keeps along a run: the owners are right and every frame fits. -/
theorem Discipline.fitting_along (D : P.Discipline fits G) {s : Config σ μ β τ}
    {os : List (ThreadEvent τ ω)}
    (hG : (P.threads τ).Along (P.Respects G) (Config.idle shared) as)
    (hrun : (P.threads τ).run (Config.idle shared) as = some (s, os)) :
    P.Consistent s ∧ ∀ t, P.FitsStack fits (s.stack t) :=
  Machine.invariant_along (J := fun s => P.Consistent s ∧ ∀ t, P.FitsStack fits (s.stack t))
    (fun _ _ _ _ hI hg hstep => ⟨hI.1.step hstep, D.fitsStack_step hI.2 hg hstep⟩)
    ⟨consistent_idle shared, fun _ => trivial⟩ hG hrun

theorem along_respects_true (s : Config σ μ β τ) (as : List (ThreadAction τ β χ)) :
    (P.threads τ).Along (P.Respects fun _ _ _ _ => True) s as := by
  refine Machine.along_of_throughout (J := fun _ => True) (fun s a _ => ?_) fun _ _ _ _ _ => trivial
  cases a with
  | call t b => trivial
  | advance t c =>
      simp only [Respects]
      split <;> trivial

/-- The rule of the lock order: along runs that respect the discipline's side condition, every call
in progress can go on or waits for one that can. -/
theorem Descends.always_moves [Nonempty χ] {rank : μ → Nat} (hrank : P.Descends fits rank)
    (hP : P.NeverStuck) (D : P.Discipline fits G)
    (hG : (P.threads τ).Along (P.Respects G) (Config.idle shared) as) :
    (P.threads τ).Throughout (fun _ s => P.Moves s) (Config.idle shared) as := by
  rintro bs ⟨cs, rfl⟩ s os hrun
  have hall := D.fitting_along ((Machine.along_append hrun).mp hG).1 hrun
  exact hrank.moves hall.1 hall.2 hP

end Runs

/-! ## The work of a call -/

/-- The steps still to come from a frame, if a block of weight `n` has `n` to come. -/
def frameWork (weight : β → Nat) : Frame μ β → Nat
  | .enter b => weight b + 2
  | .inside b => weight b + 1
  | .exit _ none => 1
  | .exit _ (some b) => weight b + 3

def work (weight : β → Nat) (fs : List (Frame μ β)) : Nat := (fs.map (frameWork weight)).sum

/-- Every step inside a block is paid for: by the block's own weight, and by `gain` where the
surroundings decide on more work. -/
def Pays (weight : β → Nat) (gain : χ → Nat) : Prop :=
  ∀ s b c e, P.exec s b c = some e → work weight (P.resume b e.cont) ≤ weight b + gain c

def added [DecidableEq τ] (weight : β → Nat) (gain : χ → Nat) (t : τ) : ThreadAction τ β χ → Nat
  | .call t' b => if t' = t then weight b + 3 else 0
  | .advance t' c => if t' = t then gain c else 0

def isOf [DecidableEq τ] (t : τ) : ThreadAction τ β χ → Bool
  | .call t' _ | .advance t' _ => t' = t

section Work

variable {weight : β → Nat} {gain : χ → Nat}

@[simp] theorem work_nil : work weight ([] : List (Frame μ β)) = 0 := rfl

@[simp] theorem work_cons (f : Frame μ β) (fs : List (Frame μ β)) :
    work weight (f :: fs) = frameWork weight f + work weight fs := by
  simp [work]

@[simp] theorem work_append (fs gs : List (Frame μ β)) :
    work weight (fs ++ gs) = work weight fs + work weight gs := by
  simp [work]

variable [DecidableEq μ] [DecidableEq τ] {P}

omit weight gain in
theorem stack_of_other {s s' : Config σ μ β τ} {a : ThreadAction τ β χ} {o : ThreadEvent τ ω}
    {t : τ} (hstep : P.step s a = some (s', o)) (hother : isOf t a = false) :
    s'.stack t = s.stack t := by
  have hne : ∀ t₁, decide (t₁ = t) = false → t ≠ t₁ := fun t₁ h heq => by simp [heq] at h
  cases P.step_cases hstep with
  | call t₁ b => exact Config.setStack_other _ _ (hne t₁ hother)
  | lock t₁ c b rest =>
      rw [Config.setStack_other _ _ (hne t₁ hother), Config.setOwner_stack]
  | exec t₁ c b rest e => exact Config.setStack_other _ _ (hne t₁ hother)
  | unlock t₁ c m after rest =>
      rw [Config.setStack_other _ _ (hne t₁ hother), Config.setOwner_stack]

/-- One step of a thread takes one unit of its work. -/
theorem Pays.own_step (hpays : P.Pays weight gain) {s s' : Config σ μ β τ} {a : ThreadAction τ β χ}
    {o : ThreadEvent τ ω} {t : τ} (hstep : P.step s a = some (s', o)) (hown : isOf t a = true) :
    work weight (s'.stack t) + 1 ≤ work weight (s.stack t) + added weight gain t a := by
  cases P.step_cases hstep with
  | call t₁ b _ hidle =>
      obtain rfl : t₁ = t := of_decide_eq_true hown
      rw [hidle, Config.setStack_self]
      simp [frameWork, added]
  | lock t₁ c b rest hstack _ =>
      obtain rfl : t₁ = t := of_decide_eq_true hown
      rw [hstack, Config.setStack_self, work_cons, work_cons]
      simp only [frameWork]
      omega
  | exec t₁ c b rest e hstack hexec =>
      obtain rfl : t₁ = t := of_decide_eq_true hown
      have hpaid := hpays _ _ _ _ hexec
      rw [hstack, Config.setStack_self, work_append, work_cons]
      simp only [frameWork, added, if_true]
      omega
  | unlock t₁ c m after rest hstack =>
      obtain rfl : t₁ = t := of_decide_eq_true hown
      rw [hstack, Config.setStack_self, work_append, work_cons]
      cases after with
      | none =>
          simp only [Option.map_none, Option.toList_none, work_nil, frameWork]
          omega
      | some b =>
          simp only [Option.map_some, Option.toList_some, work_cons, work_nil, frameWork]
          omega

theorem Pays.step (hpays : P.Pays weight gain) (t : τ) {s s' : Config σ μ β τ}
    {a : ThreadAction τ β χ} {o : ThreadEvent τ ω} (hstep : P.step s a = some (s', o)) :
    (if isOf t a then 1 else 0) + work weight (s'.stack t) ≤
      work weight (s.stack t) + added weight gain t a := by
  cases hown : isOf t a with
  | true =>
      have hnow := hpays.own_step hstep hown
      simp only [if_true]
      omega
  | false =>
      rw [stack_of_other hstep hown]
      simp

end Work

end Reactive.Program
