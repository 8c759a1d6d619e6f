import ZiModem.Reactive.Reaching
import ZiModem.Wrapper.Worker

/-! # Life-cycle calls return

A call of `create`, `start` or `destroy` takes a bounded number of steps, and
waits in two places only: for `g_singleton_mutex`, whose owner never waits for
anything, and in `destroy` for the worker, which has been told to stop by then.
-/

namespace ZiModem.Wrapper

open Reactive

variable {τ ι : Type*}

def Pc.left : Pc ι → Nat
  | createLock => 11
  | createCheck => 10
  | createRoot => 9
  | createInit => 8
  | createNew => 7
  | install _ todo => todo.length + 2
  | createUnlock _ | createThrow => 1
  | exchange _ => 4
  | setRunning _ => 3
  | spawn _ => 2
  | startReturn _ => 1
  | clearRunning _ => 11
  | join _ => 10
  | uninstall _ todo => todo.length + 5
  | resetActive _ => 4
  | destroyUnlock _ => 3
  | shutdown _ => 2
  | delete _ => 1

/-- The steps to the end of a worker whose `running` is false, if its firmware returns. -/
def WorkerPc.left : WorkerPc → Nat
  | enter => 5
  | entry | inLoop => 4
  | inSetup | sleep => 3
  | check | caught => 2
  | finish => 1
  | exited | escaped => 0

namespace LifecycleAction

variable [DecidableEq τ]

def calls (t : τ) : LifecycleAction τ ι → Bool
  | create t' _ | start t' _ | destroy t' _ => t' = t
  | advance _ _ | work _ _ => false

def advances (t : τ) : LifecycleAction τ ι → Bool
  | advance t' _ => t' = t
  | create _ _ | start _ _ | destroy _ _ | work _ _ => false

def Goes : LifecycleAction τ ι → Prop
  | advance _ _ | work _ .proceed => True
  | _ => False

end LifecycleAction

namespace Process

def left (s : Process τ ι) (t : τ) : Nat := ((s.pc t).map Pc.left).getD 0

variable [DecidableEq τ] [DecidableEq ι] {s s' : Process τ ι} {t t' : τ} {pc : Pc ι} {h : ι}
  {o : LifecycleEvent τ ι}

/-! ## One step -/

omit [DecidableEq ι] in
@[simp] theorem left_goto (new : Option (Pc ι)) :
    (s.goto t new).left t = (new.map Pc.left).getD 0 := by
  simp [left]

omit [DecidableEq τ] [DecidableEq ι] in
theorem left_of_pc (hpc : s.pc t = some pc) : s.left t = pc.left := by
  simp [left, hpc]

theorem StepCase.advance_left {c : Choice ι} (hcase : s.StepCase (.advance t c) s' o) :
    s'.left t < s.left t ∧ ∀ t', t' ≠ t → s'.pc t' = s.pc t' := by
  cases hcase with
  | creates _ _ hcase =>
      cases hcase <;>
        exact ⟨by rw [left_goto, left_of_pc ‹_›]; simp [Pc.left, installOrder],
          fun t' ht => goto_other _ ht⟩
  | starts _ _ h i hi hcase =>
      cases hcase <;>
        exact ⟨by rw [left_goto, left_of_pc ‹_›]; simp [Pc.left],
          fun t' ht => goto_other _ ht⟩
  | destroys _ _ h i hi hcase =>
      cases hcase <;>
        exact ⟨by rw [left_goto, left_of_pc ‹_›]; simp [Pc.left, uninstallOrder],
          fun t' ht => goto_other _ ht⟩

/-- Over any step: what a thread does is paid for by the calls it makes. -/
theorem StepCase.left_le {a : LifecycleAction τ ι} (hcase : s.StepCase a s' o) (t : τ) :
    (if a.advances t then 1 else 0) + s'.left t ≤ s.left t + if a.calls t then 11 else 0 := by
  have hbegin : ∀ (t₁ : τ) (new : Pc ι), new.left ≤ 11 →
      (s.goto t₁ (some new)).left t ≤ s.left t + if decide (t₁ = t) then 11 else 0 := by
    intro t₁ new hnew
    by_cases ht : t₁ = t
    · subst ht
      rw [left_goto]
      simp only [Option.map_some, Option.getD_some, decide_true, if_true]
      omega
    · simp [left, goto_other _ (Ne.symm ht), ht]
  cases a with
  | advance t₁ c =>
      obtain ⟨hless, hothers⟩ := hcase.advance_left
      by_cases ht : t₁ = t
      · subst ht
        simp only [LifecycleAction.advances, LifecycleAction.calls, decide_true, if_true,
          Bool.false_eq_true, if_false]
        omega
      · have hsame : s'.left t = s.left t := by
          rw [left, left, hothers t (Ne.symm ht)]
        simp [LifecycleAction.advances, LifecycleAction.calls, ht, hsame]
  | work h c =>
      cases hcase
      exact Nat.le_of_eq (Nat.zero_add _)
  | create t₁ cfg =>
      rw [LifecycleAction.advances, if_neg Bool.false_ne_true, Nat.zero_add]
      cases hcase with
      | createRefused => exact Nat.le_add_right _ _
      | createBegins _ cfg => exact hbegin t₁ .createLock (Nat.le_refl _)
  | start t₁ h =>
      rw [LifecycleAction.advances, if_neg Bool.false_ne_true, Nat.zero_add]
      cases hcase with
      | startRefused => exact Nat.le_add_right _ _
      | startBegins _ h => exact hbegin t₁ (.exchange h) (by simp [Pc.left])
  | destroy t₁ h =>
      rw [LifecycleAction.advances, if_neg Bool.false_ne_true, Nat.zero_add]
      cases hcase with
      | destroyRefused => exact Nat.le_add_right _ _
      | destroyBegins _ h => exact hbegin t₁ (.clearRunning h) (Nat.le_refl _)

/-! ## Who waits -/

/-- The call cannot go on as things are: the mutex is taken, or the worker has not returned. -/
def Waits (s : Process τ ι) : Pc ι → Prop
  | .createLock | .uninstall _ [] => s.singleton ≠ none
  | .join h => ∀ i, s.instance? h = some i → i.worker ≠ none ∧ i.worker ≠ some .exited
  | _ => False

/-- A process in order whose workers were not ended by an exception. -/
structure Running (s : Process τ ι) : Prop where
  sound : s.Sound
  unescaped : ∀ h i, s.instance? h = some i → i.worker ≠ some .escaped

theorem Running.step {a : LifecycleAction τ ι} (hs : s.Running) (hcontract : s.Contract a)
    (hlogs : s.LogsReturn a) (hcase : s.StepCase a s' o) : s'.Running := by
  refine ⟨hs.sound.step hcontract hcase, fun h i' hi' => ?_⟩
  rcases evolves_of_step hcase hi' with ⟨-, rfl⟩ | ⟨i, hi, hev⟩
  · exact nofun
  · have hbefore := hs.unescaped h i hi
    cases hev with
    | spawn t hpc => exact nofun
    | work i' e hw =>
        cases hw with
        | raises started running pc hpc => exact hbefore
        | escapes => exact absurd rfl ((not_escaped_iff hcase).mpr hlogs h)
        | _ => exact nofun
    | _ => exact hbefore

theorem Running.exists_step (hs : s.Running) (hpc : s.pc t = some pc) (hfree : ¬ s.Waits pc) :
    ∃ s' o, s.step (.advance t .ok) = some (s', o) := by
  have hstep : s.step (.advance t .ok) = s.advance t .ok pc := by
    simp only [Process.step, hpc]
  rw [hstep]
  have hlocal := hs.sound.orderly.owned.place t pc hpc
  have hlive : ∀ h, s.instance? h ≠ none → ∃ i, s.instance? h = some i :=
    fun h hne => Option.ne_none_iff_exists'.mp hne
  cases pc with
  | createLock =>
      have hmutex : s.singleton = none := not_not.mp hfree
      exact ⟨_, _, by simp only [advance, createStep, if_pos hmutex]; rfl⟩
  | createCheck | createRoot | createInit | createNew | createUnlock | createThrow =>
      exact ⟨_, _, rfl⟩
  | install h todo => cases todo <;> exact ⟨_, _, rfl⟩
  | exchange h =>
      obtain ⟨i, hi⟩ := hlive h hlocal.2
      simp only [advance, hi, startStep]
      split <;> exact ⟨_, _, rfl⟩
  | setRunning h | spawn h | startReturn h =>
      obtain ⟨i, hi⟩ := hlive h hlocal.2
      exact ⟨_, _, by simp only [advance, hi, startStep]; rfl⟩
  | clearRunning h =>
      obtain ⟨i, hi⟩ := hlive h hlocal.2.1
      exact ⟨_, _, by simp only [advance, hi, destroyStep]; rfl⟩
  | join h =>
      obtain ⟨i, hi⟩ := hlive h hlocal.2.1
      have hdone : i.worker = none ∨ i.worker = some .exited := by
        by_contra hbusy
        rw [not_or] at hbusy
        refine hfree fun i' hi' => ?_
        cases hi.symm.trans hi'
        exact hbusy
      exact ⟨_, _, by simp only [advance, hi, destroyStep, if_pos hdone]; rfl⟩
  | uninstall h todo =>
      obtain ⟨i, hi⟩ := hlive h hlocal.2.1
      cases todo with
      | cons k todo => exact ⟨_, _, by simp only [advance, hi, destroyStep]; rfl⟩
      | nil =>
          have hmutex : s.singleton = none := not_not.mp hfree
          exact ⟨_, _, by simp only [advance, hi, destroyStep, if_pos hmutex]; rfl⟩
  | resetActive h =>
      obtain ⟨i, hi⟩ := hlive h hlocal.2.1
      exact ⟨_, _, by simp only [advance, hi, destroyStep]; rfl⟩
  | destroyUnlock h | shutdown h | delete h =>
      obtain ⟨i, hi⟩ := hlive h hlocal.2
      exact ⟨_, _, by simp only [advance, hi, destroyStep]; rfl⟩

theorem Running.goes (hs : s.Running) (hpc : s.pc t = some pc) (hfree : ¬ s.Waits pc) :
    ∃ s', (lifecycle τ ι).Reaches LifecycleAction.Goes s s' ∧ s'.Running ∧
      s'.left t < s.left t ∧ ∀ t', t' ≠ t → s'.pc t' = s.pc t' := by
  obtain ⟨s', o, hstep⟩ := hs.exists_step hpc hfree
  have hcase := step_cases hstep
  have hreach : (lifecycle τ ι).Reaches LifecycleAction.Goes s s' :=
    .single (a := .advance t .ok) hstep trivial
  exact ⟨s', hreach, hs.step (a := .advance t .ok) trivial trivial hcase, hcase.advance_left⟩

/-! ## Nobody waits for ever -/

omit [DecidableEq τ] [DecidableEq ι] in
theorem not_waits_of_locked (hlocked : pc.Locked) : ¬ s.Waits pc := by
  cases pc <;> first | exact hlocked.elim | exact id

/-- The mutex gets free: its owner goes on to the end of its critical section. -/
theorem Running.frees_mutex (hs : s.Running) (hpc : s.pc t = some pc) (hout : ¬ pc.Locked) :
    ∃ s', (lifecycle τ ι).Reaches LifecycleAction.Goes s s' ∧
      (s'.Running ∧ s'.pc t = some pc) ∧ s'.singleton = none := by
  by_cases hfree : s.singleton = none
  · exact ⟨s, .refl _ _ s, ⟨hs, hpc⟩, hfree⟩
  obtain ⟨t', howner⟩ := Option.ne_none_iff_exists'.mp hfree
  have hround : ∀ s : Process τ ι,
      ((s.Running ∧ s.pc t = some pc) ∧ (s.singleton = none ∨ s.singleton = some t')) →
      ¬ s.singleton = none → ∃ s₁, (lifecycle τ ι).Reaches LifecycleAction.Goes s s₁ ∧
        ((s₁.Running ∧ s₁.pc t = some pc) ∧ (s₁.singleton = none ∨ s₁.singleton = some t')) ∧
        s₁.left t' < s.left t' := by
    rintro s ⟨⟨hs, hpc⟩, howner⟩ htaken
    have howner := howner.resolve_left htaken
    obtain ⟨pc', hpc', hlocked⟩ := (hs.sound.orderly.guarded t').mp howner
    have hne : t ≠ t' := by
      rintro rfl
      cases hpc.symm.trans hpc'
      exact hout hlocked
    obtain ⟨s₁, hreach, hs₁, hless, hothers⟩ := hs.goes hpc' (not_waits_of_locked hlocked)
    refine ⟨s₁, hreach, ⟨⟨hs₁, (hothers t hne).trans hpc⟩, ?_⟩, hless⟩
    cases hmutex : s₁.singleton with
    | none => exact .inl rfl
    | some t₁ =>
        right
        by_cases ht : t₁ = t'
        · rw [ht]
        · obtain ⟨pc₁, hpc₁, hlocked₁⟩ := (hs₁.sound.orderly.guarded t₁).mp hmutex
          rw [hothers t₁ ht] at hpc₁
          exact ((hs.sound.orderly.guarded t₁).mpr ⟨pc₁, hpc₁, hlocked₁⟩).symm.trans howner
  obtain ⟨s', hreach, ⟨hkept, -⟩, hnone⟩ :=
    Machine.reaches_of_variant (fun s : Process τ ι => s.left t') hround
      ⟨⟨hs, hpc⟩, .inr howner⟩
  exact ⟨s', hreach, hkept, hnone⟩

def workLeft (s : Process τ ι) (h : ι) : Nat :=
  (((s.instance? h).bind Instance.worker).map WorkerPc.left).getD 0

theorem exists_work {i : Instance} (hrunning : i.running = false)
    (hescaped : i.worker ≠ some .escaped) (hnone : i.worker ≠ none)
    (hexited : i.worker ≠ some .exited) :
    ∃ i' e, i.work .proceed = some (i', e) ∧
      (i'.worker.map WorkerPc.left).getD 0 < (i.worker.map WorkerPc.left).getD 0 := by
  obtain ⟨started, running, worker⟩ := i
  cases hrunning
  cases worker with
  | none => exact absurd rfl hnone
  | some pc =>
      cases pc with
      | exited => exact absurd rfl hexited
      | escaped => exact absurd rfl hescaped
      | _ => exact ⟨_, _, rfl, by simp [WorkerPc.left]⟩

/-- The worker that a `destroy` waits for returns. -/
theorem Running.joins (hs : s.Running) (hpc : s.pc t = some (.join h)) :
    ∃ s', (lifecycle τ ι).Reaches LifecycleAction.Goes s s' ∧
      (s'.Running ∧ s'.pc t = some (.join h)) ∧ ¬ s'.Waits (.join h) := by
  refine Machine.reaches_of_variant (fun s : Process τ ι => s.workLeft h) ?_ ⟨hs, hpc⟩
  rintro s ⟨hs, hpc⟩ hwaits
  have hwaits : s.Waits (.join h) := not_not.mp hwaits
  obtain ⟨i, hi⟩ := Option.ne_none_iff_exists'.mp (hs.sound.orderly.owned.place t _ hpc).2.1
  have hrunning : i.running = false := hs.sound.staged.stage t _ hpc i hi
  obtain ⟨i', e, hwork, hless⟩ :=
    exists_work hrunning (hs.unescaped h i hi) (hwaits i hi).1 (hwaits i hi).2
  have hstep : s.step (.work h .proceed) = some (s.setCell h (.live i'), .worker h e) := by
    simp only [Process.step, hi, hwork]
  refine ⟨_, .single (a := .work h .proceed) hstep trivial,
    ⟨hs.step (a := .work h .proceed) trivial trivial (step_cases hstep), hpc⟩, ?_⟩
  simpa [workLeft, hi] using hless

/-- Whatever a call waits for comes. -/
theorem Running.unblocks (hs : s.Running) (hpc : s.pc t = some pc) :
    ∃ s', (lifecycle τ ι).Reaches LifecycleAction.Goes s s' ∧
      (s'.Running ∧ s'.pc t = some pc) ∧ ¬ s'.Waits pc := by
  by_cases hwaits : s.Waits pc
  · cases pc with
    | createLock =>
        obtain ⟨s', hreach, hkept, hfree⟩ := hs.frees_mutex hpc id
        exact ⟨s', hreach, hkept, not_not.mpr hfree⟩
    | uninstall h todo =>
        cases todo with
        | nil =>
            obtain ⟨s', hreach, hkept, hfree⟩ := hs.frees_mutex hpc id
            exact ⟨s', hreach, hkept, not_not.mpr hfree⟩
        | cons k todo => exact hwaits.elim
    | join h => exact hs.joins hpc
    | _ => exact hwaits.elim
  · exact ⟨s, .refl _ _ s, ⟨hs, hpc⟩, hwaits⟩

theorem Running.returns (hs : s.Running) (t : τ) :
    ∃ s', (lifecycle τ ι).Reaches LifecycleAction.Goes s s' ∧ s'.Running ∧ s'.pc t = none := by
  refine Machine.reaches_of_variant (fun s : Process τ ι => s.left t) (fun s hs hcalls => ?_) hs
  obtain ⟨pc, hpc⟩ := Option.ne_none_iff_exists'.mp hcalls
  obtain ⟨s₁, hreach₁, ⟨hs₁, hpc₁⟩, hfree⟩ := hs.unblocks hpc
  obtain ⟨s₂, hreach₂, hs₂, hless, -⟩ := hs₁.goes hpc₁ hfree
  rw [left_of_pc hpc₁, ← left_of_pc hpc] at hless
  exact ⟨s₂, hreach₁.trans hreach₂, hs₂, hless⟩

end Process

/-! ## Whole runs -/

section Runs

variable [DecidableEq τ] [DecidableEq ι]

theorem running_of_run {s : Process τ ι} {as : List (LifecycleAction τ ι)}
    {os : List (LifecycleEvent τ ι)}
    (hcontract : (lifecycle τ ι).Along Process.Contract Process.initial as)
    (hlogs : (lifecycle τ ι).Along Process.LogsReturn Process.initial as)
    (hrun : (lifecycle τ ι).run Process.initial as = some (s, os)) : s.Running :=
  Machine.invariant_along
    (fun _ _ _ _ h hg hstep => h.step hg.1 hg.2 (Process.step_cases hstep))
    ⟨Process.sound_initial, nofun⟩ (Machine.along_and hcontract hlogs) hrun

/-- A thread that made `k` calls took at most `11 * k` steps in them, however the others and the
workers interleaved. And whatever it waits for, its call can come to its end, by the steps of the
calls in progress and of workers whose firmware returns, unless an exception has left `run`. -/
theorem calls_return {s : Process τ ι} {as : List (LifecycleAction τ ι)}
    {os : List (LifecycleEvent τ ι)}
    (hcontract : (lifecycle τ ι).Along Process.Contract Process.initial as)
    (hrun : (lifecycle τ ι).run Process.initial as = some (s, os)) (t : τ) :
    as.countP (LifecycleAction.advances t) ≤ 11 * as.countP (LifecycleAction.calls t) ∧
      ((lifecycle τ ι).Along Process.LogsReturn Process.initial as →
        ∃ s', (lifecycle τ ι).Reaches LifecycleAction.Goes s s' ∧ s'.pc t = none) := by
  constructor
  · have hpaid := Machine.countP_le (p := LifecycleAction.advances t) (q := LifecycleAction.calls t)
      (fun _ _ _ _ hstep => (Process.step_cases hstep).left_le t) hrun
    have hidle : (Process.initial : Process τ ι).left t = 0 := rfl
    omega
  · intro hlogs
    obtain ⟨s', hreach, -, hreturned⟩ := (running_of_run hcontract hlogs hrun).returns t
    exact ⟨s', hreach, hreturned⟩

/-- One thread has made and started an instance and is about to join its worker, which is inside
`loop()`, while another thread is inside `create` with the mutex. -/
def joining : List (LifecycleAction Bool Nat) :=
  List.flatten [[.create true (some ⟨some [100]⟩)], List.replicate 4 (.advance true .ok),
    [.advance true (.allocated 0)], List.replicate 6 (.advance true .ok), [.start true (some 0)],
    List.replicate 4 (.advance true .ok), List.replicate 4 (.work 0 .proceed),
    [.destroy true (some 0), .advance true .ok, .create false (some ⟨some [100]⟩),
      .advance false .ok]]

theorem joining_returns :
    ∃ s os, (lifecycle Bool Nat).run Process.initial joining = some (s, os) ∧
      s.pc true = some (.join 0) ∧ s.singleton = some false ∧
      joining.countP (LifecycleAction.advances true) ≤
        11 * joining.countP (LifecycleAction.calls true) ∧
      ∃ s', (lifecycle Bool Nat).Reaches LifecycleAction.Goes s s' ∧ s'.pc true = none := by
  have hrun : (lifecycle Bool Nat).run Process.initial joining = some (_, _) := rfl
  have hreturn := calls_return (by decide) hrun true
  exact ⟨_, _, hrun, rfl, rfl, hreturn.1, hreturn.2 (by decide)⟩

end Runs

end ZiModem.Wrapper
