import ZiModem.Wrapper.Launch

/-! # The worker over whole runs

What follows what in the life of one worker. Each statement names the event or
the state after which something is over for good, and the fact about the
instance that every later step keeps.
-/

namespace ZiModem.Wrapper

open Reactive

variable {τ ι : Type*} [DecidableEq τ] [DecidableEq ι]

namespace Process

variable {s s' : Process τ ι} {a : LifecycleAction τ ι} {o : LifecycleEvent τ ι} {h : ι}

/-- The process is in order, and so are the members of every instance. -/
structure Sound (s : Process τ ι) : Prop where
  orderly : s.Orderly
  staged : s.Staged

omit [DecidableEq τ] [DecidableEq ι] in
theorem sound_initial : (initial : Process τ ι).Sound :=
  ⟨⟨guarded_initial, owned_initial⟩, staged_initial⟩

theorem Sound.step (hs : s.Sound) (hcontract : s.Contract a) (hcase : s.StepCase a s' o) :
    s'.Sound :=
  ⟨hs.orderly.step hcontract hcase, hs.staged.step hs.orderly hcase⟩

/-! ## Facts that stay -/

/-- The handle was given out, and its instance has the property as long as it exists. -/
def Keeps (h : ι) (Q : Instance → Prop) (s : Process τ ι) : Prop :=
  s.cell h ≠ .unborn ∧ ∀ i, s.instance? h = some i → Q i

theorem Sound.keeps (hs : s.Sound) (hcase : s.StepCase a s' o) {Q : Instance → Prop}
    (hworker : ∀ i, Q i → i.worker ≠ none) (hstarted : ∀ i, Q i → Q { i with started := true })
    (hcleared : ∀ i, Q i → Q { i with running := false })
    (hwork : ∀ i i' e, WorkCase i i' e → Q i → Q i') (hk : s.Keeps h Q) : s'.Keeps h Q := by
  refine ⟨cell_ne_unborn_of_step hcase hk.1, fun i' hi' => ?_⟩
  rcases evolves_of_step hcase hi' with ⟨hfresh, _⟩ | ⟨i, hi, hev⟩
  · exact absurd hfresh hk.1
  · have hq := hk.2 i hi
    cases hev with
    | same => exact hq
    | first t hpc => exact hstarted i hq
    | setRunning t hpc => exact absurd (hs.staged.stage t _ hpc i hi).2 (hworker i hq)
    | spawn t hpc => exact absurd (hs.staged.stage t _ hpc i hi).2 (hworker i hq)
    | clearRunning t hpc => exact hcleared i hq
    | work i' e hw => exact hwork i i' e hw hq

theorem Sound.keeps_pastEntry (hs : s.Sound) (hcase : s.StepCase a s' o)
    (hk : s.Keeps h Instance.PastEntry) : s'.Keeps h Instance.PastEntry :=
  hs.keeps hcase (fun _ hq => hq.1) (fun _ hq => hq) (fun _ hq => hq)
    (fun _ _ _ hw _ => hw.pastEntry) hk

theorem Sound.keeps_hasLeft (hs : s.Sound) (hcase : s.StepCase a s' o)
    (hk : s.Keeps h Instance.HasLeft) : s'.Keeps h Instance.HasLeft :=
  hs.keeps hcase (fun _ hq => hq.worker_ne_none) (fun _ hq => hq)
    (fun _ hq => hq) (fun _ _ _ hw hq => (hw.hasLeft hq).1) hk

def Quit (i : Instance) : Prop := i.HasLeft ∧ i.running = false

theorem Sound.keeps_quit (hs : s.Sound) (hcase : s.StepCase a s' o)
    (hk : s.Keeps h Quit) : s'.Keeps h Quit :=
  hs.keeps hcase (fun _ hq => hq.1.worker_ne_none) (fun _ hq => hq)
    (fun _ hq => ⟨hq.1, rfl⟩) (fun _ _ _ hw hq => ⟨(hw.hasLeft hq.1).1, hw.running hq.2⟩) hk

theorem keeps_of_event {e : WorkerEvent} {Q : Instance → Prop}
    (hcase : s.StepCase a s' (.worker h e)) (hq : ∀ i i', WorkCase i i' e → Q i') :
    s'.Keeps h Q := by
  obtain ⟨i, i', hi, hi', hw⟩ := work_of_event hcase
  refine ⟨fun hfresh => ?_, fun j hj => ?_⟩
  · rw [instance_of_unborn hfresh] at hi'
    cases hi'
  · cases hi'.symm.trans hj
    exact hq i i' hw

theorem Keeps.not_event {e : WorkerEvent} {Q : Instance → Prop} (hk : s.Keeps h Q)
    (hcase : s.StepCase a s' o) (hq : ∀ i i', Q i → ¬ WorkCase i i' e) : o ≠ .worker h e := by
  rintro rfl
  obtain ⟨i, i', hi, _, hw⟩ := work_of_event hcase
  exact hq i i' (hk.2 i hi) hw

/-! ## The start that goes through -/

/-- The exchange of `started` is behind the instance, and so is the call that made it. -/
def Launched (h : ι) (s : Process τ ι) : Prop :=
  s.Keeps h (fun i => i.started = true) ∧ ∀ t pc, s.pc t = some pc → ¬ pc.Launches h

theorem Launched.step (hl : s.Launched h) (hcase : s.StepCase a s' o) : s'.Launched h := by
  obtain ⟨hk, hidle⟩ := hl
  refine ⟨⟨cell_ne_unborn_of_step hcase hk.1, fun i' hi' => ?_⟩, fun t pc hpc hlaunch => ?_⟩
  · rcases evolves_of_step hcase hi' with ⟨hfresh, _⟩ | ⟨i, hi, hev⟩
    · exact absurd hfresh hk.1
    · exact hev.started (hk.2 i hi)
  · rcases launches_of_step hcase hpc hlaunch with ⟨pc₀, h₀, hl₀⟩ | ⟨_, i, hi, hstarted⟩
    · exact hidle t pc₀ h₀ hl₀
    · rw [hk.2 i hi] at hstarted
      cases hstarted

def startOk (h : ι) : LifecycleEvent τ ι → Bool
  | .startReturned _ (some h') ret => h' == h && ret == 0
  | _ => false

theorem startOk_step (hcase : s.StepCase a s' o) (hok : startOk h o = true) :
    ∃ t, s.pc t = some (.startReturn h) ∧ s'.pc = Function.update s.pc t none ∧
      s'.cell = s.cell ∧ s.instance? h ≠ none := by
  cases hcase with
  | starts t c h₁ i hi hcase =>
      cases hcase with
      | again => simp [startOk] at hok
      | done hpc =>
          simp only [startOk, beq_self_eq_true, Bool.and_true, beq_iff_eq] at hok
          rw [hok] at hpc hi
          refine ⟨t, hpc, rfl, rfl, ?_⟩
          rw [hi]
          exact Option.some_ne_none i
      | _ => cases hok
  | creates t c hcase => cases hcase <;> cases hok
  | destroys t c h₁ i hi hcase => cases hcase <;> cases hok
  | _ => cases hok

theorem runningSet_step {t : τ} (hcase : s.StepCase a s' (.runningSet t h)) :
    ∃ i, s.instance? h = some i ∧ s.pc t = some (.setRunning h) := by
  cases hcase with
  | creates t₁ c hcase => cases hcase
  | starts t₁ c h₁ i hi hcase =>
      cases hcase with
      | setRunning hpc => exact ⟨i, hi, hpc⟩
  | destroys t₁ c h₁ i hi hcase => cases hcase

theorem Sound.launched_of_startOk (hs : s.Sound) (hcase : s.StepCase a s' o)
    (hok : startOk h o = true) : s'.Launched h := by
  obtain ⟨t, hpc, hpc', hcell, hlive⟩ := startOk_step hcase hok
  have hinst : s'.instance? h = s.instance? h := by
    unfold instance?
    rw [hcell]
  refine ⟨⟨?_, fun i hi => ?_⟩, fun t' pc' hafter hl => ?_⟩
  · rw [hcell]
    intro hfresh
    exact hlive (instance_of_unborn hfresh)
  · rw [hinst] at hi
    exact hs.staged.stage t _ hpc i hi
  · rw [hpc'] at hafter
    by_cases ht : t' = t
    · rw [ht, Function.update_self] at hafter
      cases hafter
    · rw [Function.update_of_ne ht] at hafter
      exact ht (hs.staged.sole h t' t pc' _ hafter hl hpc rfl)

theorem Launched.not_startOk (hl : s.Launched h) (hcase : s.StepCase a s' o) :
    ¬ startOk h o = true := by
  intro hok
  obtain ⟨t, hpc, _⟩ := startOk_step hcase hok
  exact hl.2 t _ hpc rfl

/-! ## The destroy that stops the worker -/

theorem deleted_step (hcase : s.StepCase a s' o) (hdeleted : s.cell h = .deleted) :
    s'.cell h = .deleted := by
  have hgone : s.instance? h = none := by
    unfold instance?
    rw [hdeleted]
  have hstep := cell_cases hcase h
  generalize s'.cell h = c at hstep
  cases hstep with
  | same => exact hdeleted
  | new i hfresh => exact absurd (hdeleted.symm.trans hfresh) nofun
  | live i i' hi | delete t c i _ _ hi => exact absurd (hgone.symm.trans hi) nofun

theorem deleted_no_event {e : WorkerEvent} (hcase : s.StepCase a s' o)
    (hdeleted : s.cell h = .deleted) : o ≠ .worker h e := by
  rintro rfl
  obtain ⟨i, i', hi, _⟩ := work_of_event hcase
  simp [instance?, hdeleted] at hi

theorem destroyReturned_step {t : τ} (hcase : s.StepCase a s' (.destroyReturned t (some h))) :
    s'.cell h = .deleted := by
  cases hcase with
  | creates t₁ c hcase => cases hcase
  | starts t₁ c h₁ i hi hcase => cases hcase
  | destroys t₁ c h₁ i hi hcase =>
      cases hcase with
      | delete hpc => simp [goto, setCell]

theorem Sound.joined {t : τ} (hs : s.Sound)
    (hcase : s.StepCase a s' (.destroyReturned t (some h))) :
    ∃ i, s.instance? h = some i ∧ (i.worker = none ∨ i.worker = some .exited) := by
  cases hcase with
  | creates t₁ c hcase => cases hcase
  | starts t₁ c h₁ i hi hcase => cases hcase
  | destroys t₁ c h₁ i hi hcase =>
      cases hcase with
      | delete hpc => exact ⟨i, hi, (hs.staged.stage t _ hpc i hi).2⟩

/-- The instance is being destroyed with `running` cleared, or is gone. -/
def Stopping (h : ι) (s : Process τ ι) : Prop :=
  s.cell h = .deleted ∨ ∃ t pc, s.pc t = some pc ∧ pc.Stops h

theorem runningCleared_step {t : τ} (hcase : s.StepCase a s' (.runningCleared t h)) :
    s'.Stopping h := by
  cases hcase with
  | creates t₁ c hcase => cases hcase
  | starts t₁ c h₁ i hi hcase => cases hcase
  | destroys t₁ c h₁ i hi hcase =>
      cases hcase with
      | clearRunning hpc => exact .inr ⟨t, _, goto_self _, rfl⟩

theorem Stopping.step (hs : s.Stopping h) (hcase : s.StepCase a s' o) : s'.Stopping h := by
  rcases hs with hdeleted | ⟨t, pc, hpc, hstops⟩
  · exact .inl (deleted_step hcase hdeleted)
  · have hstay : ∀ {s₁ : Process τ ι} {t₁ : τ} {old : Pc ι} {new : Option (Pc ι)},
        s₁.pc = s.pc → s.pc t₁ = some old → ¬ old.Stops h → (s₁.goto t₁ new).Stopping h := by
      intro s₁ t₁ old new heq hold hnot
      have ht : t ≠ t₁ := by
        intro ht
        rw [← ht, hpc] at hold
        cases hold
        exact hnot hstops
      exact .inr ⟨t, pc, by rwa [goto_other _ ht, heq], hstops⟩
    have hbegin : ∀ {t₁ : τ} {new : Option (Pc ι)}, s.pc t₁ = none →
        (s.goto t₁ new).Stopping h := by
      intro t₁ new hnone
      have ht : t ≠ t₁ := by
        intro ht
        rw [ht, hnone] at hpc
        cases hpc
      exact .inr ⟨t, pc, by rwa [goto_other _ ht], hstops⟩
    have hnext : ∀ {s₁ : Process τ ι} {t₁ : τ} {old new : Pc ι}, s₁.pc = s.pc →
        s.pc t₁ = some old → (old.Stops h → new.Stops h) →
        (s₁.goto t₁ (some new)).Stopping h := by
      intro s₁ t₁ old new heq hold hnew
      by_cases hold' : old.Stops h
      · exact .inr ⟨t₁, new, goto_self _, hnew hold'⟩
      · exact hstay heq hold hold'
    cases hcase with
    | createRefused | startRefused | destroyRefused | works => exact .inr ⟨t, pc, hpc, hstops⟩
    | createBegins t₁ cfg hnone => exact hbegin hnone
    | startBegins t₁ h₁ hnone => exact hbegin hnone
    | destroyBegins t₁ h₁ hnone => exact hbegin hnone
    | creates t₁ c hcase => cases hcase <;> exact hstay rfl (by assumption) id
    | starts t₁ c h₁ i hi hcase => cases hcase <;> exact hstay rfl (by assumption) id
    | destroys t₁ c h₁ i hi hcase =>
        cases hcase with
        | clearRunning hpc₁ => exact hstay rfl hpc₁ id
        | join hpc₁ | uninstall k todo hpc₁ | lock hpc₁ | reset hpc₁ | unlock hpc₁
        | shutdown hpc₁ => exact hnext rfl hpc₁ id
        | delete hpc₁ =>
            by_cases hh : h₁ = h
            · exact .inl (by simp [goto, setCell, hh])
            · exact hstay rfl hpc₁ hh

omit [DecidableEq τ] [DecidableEq ι] in
theorem Sound.cell_of_stopping (hs : s.Sound) (hstopping : s.Stopping h) :
    s.cell h ≠ .unborn := by
  intro hfresh
  rcases hstopping with hdeleted | ⟨t, pc, hpc, hstops⟩
  · rw [hdeleted] at hfresh
    cases hfresh
  · have hlocal := hs.orderly.owned.place t pc hpc
    have hdead := instance_of_unborn hfresh
    cases pc with
    | join | uninstall | resetActive =>
        cases hstops
        exact hlocal.2.1 hdead
    | destroyUnlock | shutdown | delete =>
        cases hstops
        exact hlocal.2 hdead
    | _ => exact hstops

omit [DecidableEq τ] [DecidableEq ι] in
theorem Sound.instance_of_stopping (hs : s.Sound) (hstopping : s.Stopping h) {i : Instance}
    (hi : s.instance? h = some i) :
    i.running = false ∧ ∀ t pc, s.pc t = some pc → ¬ pc.Launches h := by
  rcases hstopping with hdeleted | ⟨t, pc, hpc, hstops⟩
  · simp [instance?, hdeleted] at hi
  · exact ⟨hs.staged.of_stops hpc hstops hi, fun t' pc' hpc' =>
      hs.orderly.not_launches_of_stops hpc hstops hpc'⟩

/-- The calls of `loop()` that a worker has left once `running` is cleared. -/
def loopsDue (s : Process τ ι) (h : ι) : Nat := ((s.instance? h).map Instance.loopsDue).getD 0

omit [DecidableEq τ] [DecidableEq ι] in
theorem loopsDue_of_instance {i : Instance} (hi : s.instance? h = some i) :
    s.loopsDue h = i.loopsDue := by
  rw [loopsDue, hi]
  rfl

omit [DecidableEq τ] [DecidableEq ι] in
theorem loopsDue_le_one : s.loopsDue h ≤ 1 := by
  unfold loopsDue
  cases s.instance? h with
  | none => exact Nat.zero_le 1
  | some i =>
      simp only [Option.map_some, Option.getD_some, Instance.loopsDue]
      split <;> omega

/-- While its instance is being destroyed, a worker enters only the `loop()` that is due. -/
theorem Sound.loopsDue_step (hs : s.Sound) (hstopping : s.Stopping h)
    (hcase : s.StepCase a s' o) :
    (if o == .worker h .loop then 1 else 0) + s'.loopsDue h ≤ s.loopsDue h := by
  cases hi' : s'.instance? h with
  | none =>
      have hquiet : (o == .worker h .loop) = false := by
        refine beq_eq_false_iff_ne.mpr ?_
        rintro rfl
        obtain ⟨_, _, _, hsome, _⟩ := work_of_event hcase
        rw [hi'] at hsome
        cases hsome
      simp [hquiet, loopsDue, hi']
  | some i' =>
      rcases evolves_of_step hcase hi' with ⟨hfresh, _⟩ | ⟨i, hi, hev⟩
      · exact absurd hfresh (hs.cell_of_stopping hstopping)
      · obtain ⟨hstopped, hidle⟩ := hs.instance_of_stopping hstopping hi
        rw [loopsDue_of_instance hi, loopsDue_of_instance hi']
        cases hev with
        | same _ hquiet =>
            rw [beq_eq_false_iff_ne.mpr (hquiet .loop)]
            simp
        | first | clearRunning => simp [Instance.loopsDue]
        | setRunning t hpc | spawn t hpc => exact absurd rfl (hidle t _ hpc)
        | work i' e hw =>
            have hpay := hw.loopsDue hstopped
            simpa using hpay

/-! ## `setup()` first -/

theorem setup_recorded {os : List (LifecycleEvent τ ι)} (hcase : s.StepCase a s' o)
    (hbefore : ∀ i, s.instance? h = some i → i.PastEntry → .worker h .setup ∈ os) :
    ∀ i, s'.instance? h = some i → i.PastEntry → .worker h .setup ∈ os ++ [o] := by
  intro i' hi' hpast
  rcases evolves_of_step hcase hi' with ⟨_, rfl⟩ | ⟨i, hi, hev⟩
  · exact absurd rfl hpast.1
  · have hkeep : i.PastEntry → .worker h .setup ∈ os ++ [o] := fun hp =>
      List.mem_append_left _ (hbefore i hi hp)
    cases hev with
    | same => exact hkeep hpast
    | first | setRunning | clearRunning => exact hkeep hpast
    | spawn => exact absurd rfl hpast.2
    | work i' e hw =>
        by_cases he : e = .setup
        · simp [he]
        · exact hkeep (not_not.mp fun hp => he (hw.setup_iff.mpr hp))

/-! ## The end of `run` -/

/-- No handler of `run` throws: neither the string that it builds nor `on_log`. -/
def LogsReturn (s : Process τ ι) : LifecycleAction τ ι → Prop
  | .work h (.throws _) => s.workerAt h ≠ some .caught
  | _ => True

instance (s : Process τ ι) : DecidablePred s.LogsReturn
  | .work _ (.throws _) => inferInstanceAs (Decidable (_ ≠ _))
  | .work _ .proceed | .work _ .raises | .create _ _ | .start _ _ | .destroy _ _
  | .advance _ _ => .isTrue trivial

theorem not_escaped_iff (hcase : s.StepCase a s' o) :
    (∀ h, o ≠ .worker h .escaped) ↔ s.LogsReturn a := by
  cases hcase with
  | works h c i i' e hi hw =>
      have hevent : (∀ h', LifecycleEvent.worker (τ := τ) h e ≠ .worker h' .escaped) ↔
          e ≠ .escaped := by
        simp
      rw [hevent, Ne, Instance.work_escaped_iff hw]
      cases c <;> simp [LogsReturn, workerAt, hi]
  | creates t c hcase => cases hcase <;> exact iff_of_true (fun _ => nofun) trivial
  | starts t c h i hi hcase => cases hcase <;> exact iff_of_true (fun _ => nofun) trivial
  | destroys t c h i hi hcase => cases hcase <;> exact iff_of_true (fun _ => nofun) trivial
  | _ => exact iff_of_true (fun _ => nofun) trivial

theorem entry_of_spawned {t : τ} (hcase : s.StepCase a s' (.spawned t h)) :
    ∃ i, s'.instance? h = some i ∧ i.worker = some .entry := by
  cases hcase with
  | creates t₁ c hcase => cases hcase
  | starts t₁ c h₁ i hi hcase =>
      cases hcase with
      | spawn hpc => exact ⟨_, setCell_instance_self _, rfl⟩
  | destroys t₁ c h₁ i hi hcase => cases hcase

/-- What the history says of a worker: one that was never started was not spawned, and one that has
exited was seen to return. -/
structure Traced (h : ι) (os : List (LifecycleEvent τ ι)) (s : Process τ ι) : Prop where
  unborn : s.cell h = .unborn → ∀ t, .spawned t h ∉ os
  idle : ∀ i, s.instance? h = some i → i.worker = none → ∀ t, .spawned t h ∉ os
  exited : ∀ i, s.instance? h = some i → i.worker = some .exited → .worker h .returned ∈ os

omit [DecidableEq τ] [DecidableEq ι] in
theorem traced_initial : Traced h [] (initial : Process τ ι) where
  unborn := fun _ _ => List.not_mem_nil
  idle := fun _ _ _ _ => List.not_mem_nil
  exited := fun _ hi => by cases hi

theorem Traced.step {os : List (LifecycleEvent τ ι)} (hr : Traced h os s)
    (hcase : s.StepCase a s' o) : Traced h (os ++ [o]) s' := by
  have hspawn : ∀ i, s'.instance? h = some i → i.worker = none → ∀ t, o ≠ .spawned t h := by
    rintro i hi hnone t rfl
    obtain ⟨i', hi', hentry⟩ := entry_of_spawned hcase
    cases hi.symm.trans hi'
    rw [hnone] at hentry
    cases hentry
  constructor
  · intro hfresh t hmem
    rcases List.mem_append.mp hmem with hbefore | hnow
    · refine hr.unborn ?_ t hbefore
      by_contra hborn
      exact cell_ne_unborn_of_step hcase hborn hfresh
    · obtain rfl := List.mem_singleton.mp hnow
      obtain ⟨i, hi, -⟩ := entry_of_spawned hcase
      rw [instance_of_unborn hfresh] at hi
      cases hi
  · intro i' hi' hnone t hmem
    rcases List.mem_append.mp hmem with hbefore | hnow
    · rcases evolves_of_step hcase hi' with ⟨hfresh, -⟩ | ⟨i, hi, hev⟩
      · exact hr.unborn hfresh t hbefore
      · have hidle : i.worker = none → False := fun hw => hr.idle i hi hw t hbefore
        cases hev with
        | work i' e hw => exact absurd hnone hw.left_worker_ne_none
        | spawn => cases hnone
        | _ => exact hidle hnone
    · exact hspawn i' hi' hnone t (List.mem_singleton.mp hnow).symm
  · intro i' hi' hexited
    rcases evolves_of_step hcase hi' with ⟨-, rfl⟩ | ⟨i, hi, hev⟩
    · cases hexited
    · have hkeep : i.worker = some .exited → .worker h .returned ∈ os ++ [o] := fun hw =>
        List.mem_append_left _ (hr.exited i hi hw)
      cases hev with
      | work i' e hw =>
          obtain rfl := hw.returned_iff.mpr hexited
          simp
      | spawn => cases hexited
      | _ => exact hkeep hexited

theorem Sound.keeps_exited (hs : s.Sound) (hcase : s.StepCase a s' o)
    (hk : s.Keeps h fun i => i.worker = some .exited) :
    s'.Keeps h fun i => i.worker = some .exited :=
  hs.keeps hcase (fun i hq => by simp [hq]) (fun _ hq => hq) (fun _ hq => hq)
    (fun _ _ _ hw hq => absurd hq hw.worker_ne_exited) hk

end Process

/-! ## The life of a worker -/

/-- The life of the worker of `h` up to here. `stopped` looks further: once the worker has left its
loop, no continuation sets `running`. -/
structure WorkerSafe (h : ι) (os : List (LifecycleEvent τ ι)) (s : Process τ ι) : Prop where
  startsOnce : os.countP (Process.startOk h) ≤ 1
  setupOnce : os.count (.worker h .setup) ≤ 1
  setupFirst : ∀ xs ys, os = xs ++ .worker h .loop :: ys → .worker h .setup ∈ xs
  throwsOut : ∀ xs ys, os = xs ++ .worker h .threw :: ys → .worker h .loop ∉ ys
  lastLoop : ∀ xs t ys, os = xs ++ .runningCleared t h :: ys → ys.count (.worker h .loop) ≤ 1
  contained : .worker h .escaped ∉ os
  exited : ∀ i, s.instance? h = some i → i.worker = some .exited → i.running = false
  stopped : ∀ i, s.instance? h = some i → i.HasLeft → ∀ bs s' os',
    (lifecycle τ ι).Along Process.Contract s bs → (lifecycle τ ι).run s bs = some (s', os') →
      (∀ t, .runningSet t h ∉ os') ∧
        (i.running = false → ∀ i', s'.instance? h = some i' → i'.running = false)
  joined : ∀ xs t ys, os = xs ++ .destroyReturned t (some h) :: ys →
    ∀ t', .spawned t' h ∈ xs → .worker h .returned ∈ xs
  ended : ∀ xs ys, os = xs ++ .worker h .returned :: ys → ∀ e, .worker h e ∉ ys
  silent : ∀ xs t ys, os = xs ++ .destroyReturned t (some h) :: ys → ∀ e, .worker h e ∉ ys

section Runs

variable {s : Process τ ι} {as : List (LifecycleAction τ ι)} {os : List (LifecycleEvent τ ι)}
  {h : ι}

theorem sound_along {s₀ : Process τ ι} (h₀ : s₀.Sound)
    (hcontract : (lifecycle τ ι).Along Process.Contract s₀ as)
    (hrun : (lifecycle τ ι).run s₀ as = some (s, os)) : s.Sound :=
  Machine.invariant_along (fun _ _ _ _ hs hallowed hstep =>
    hs.step hallowed (Process.step_cases hstep)) h₀ hcontract hrun

/-- The rule for what never follows, with the soundness of the process. -/
theorem pairwise_of_run {Q P : LifecycleEvent τ ι → Prop} {K : Process τ ι → Prop}
    (hQ : ∀ {s s' : Process τ ι} {a o}, s.Sound → s.StepCase a s' o → Q o → K s')
    (hK : ∀ {s s' : Process τ ι} {a o}, s.Sound → s.StepCase a s' o → K s → K s')
    (hP : ∀ {s s' : Process τ ι} {a o}, s.StepCase a s' o → K s → ¬ P o)
    (hcontract : (lifecycle τ ι).Along Process.Contract Process.initial as)
    (hrun : (lifecycle τ ι).run Process.initial as = some (s, os)) :
    os.Pairwise fun o o' => Q o → ¬ P o' :=
  Machine.pairwise_along (J := Process.Sound) (K := K)
    (fun _ _ _ _ hs hallowed hstep => hs.step hallowed (Process.step_cases hstep))
    (fun _ _ _ _ hs _ hstep hq => hQ hs (Process.step_cases hstep) hq)
    (fun _ _ _ _ hs hk _ hstep => hK hs (Process.step_cases hstep) hk)
    (fun _ _ _ _ _ hk _ hstep => hP (Process.step_cases hstep) hk)
    Process.sound_initial hcontract hrun

variable (hcontract : (lifecycle τ ι).Along Process.Contract Process.initial as)
  (hrun : (lifecycle τ ι).run Process.initial as = some (s, os))

include hcontract hrun

theorem startsOnce_of_run : os.countP (Process.startOk h) ≤ 1 :=
  countP_le_one (pairwise_of_run (K := Process.Launched h)
    (fun hs hcase hok => hs.launched_of_startOk hcase hok) (fun _ hcase hl => hl.step hcase)
    (fun hcase hl => hl.not_startOk hcase) hcontract hrun)

theorem setupOnce_of_run : os.count (.worker h .setup) ≤ 1 := by
  refine countP_le_one (pairwise_of_run (K := Process.Keeps h Instance.PastEntry) ?_
    (fun hs hcase hk => hs.keeps_pastEntry hcase hk) ?_ hcontract hrun)
  · intro s s' a o hs hcase ho
    rw [beq_iff_eq.mp ho] at hcase
    exact Process.keeps_of_event hcase fun _ _ hw => hw.pastEntry
  · intro s s' a o hcase hk ho
    refine hk.not_event hcase ?_ (beq_iff_eq.mp ho)
    exact fun i i' hp hw => hw.setup_iff.mp rfl hp

omit hcontract in
theorem setupFirst_of_run {xs ys : List (LifecycleEvent τ ι)}
    (heq : os = xs ++ .worker h .loop :: ys) : .worker h .setup ∈ xs := by
  rw [heq] at hrun
  obtain ⟨as₁, a, as₂, s₁, s₂, _, hbefore, hstep, _⟩ := Machine.run_split hrun
  have htraced : ∀ i, s₁.instance? h = some i → i.PastEntry → .worker h .setup ∈ xs :=
    Machine.history
      (I := fun os s => ∀ i, s.instance? h = some i → i.PastEntry → .worker h .setup ∈ os)
      (fun _ _ _ _ _ hpast hstep => Process.setup_recorded (Process.step_cases hstep) hpast)
      nofun hbefore
  obtain ⟨i, i', hi, _, hw⟩ := Process.work_of_event (Process.step_cases hstep)
  refine htraced i hi (not_not.mp fun hp => ?_)
  cases hw.setup_iff.mpr hp

theorem throwsOut_of_run {xs ys : List (LifecycleEvent τ ι)}
    (heq : os = xs ++ .worker h .threw :: ys) : .worker h .loop ∉ ys := by
  have hpairs : os.Pairwise fun o o' => o = .worker h .threw → ¬ o' = .worker h .loop := by
    refine pairwise_of_run (K := Process.Keeps h Instance.HasLeft) ?_
      (fun hs hcase hk => hs.keeps_hasLeft hcase hk) ?_ hcontract hrun
    · rintro s s' a o _ hcase rfl
      exact Process.keeps_of_event hcase fun _ _ hw => hw.hasLeft_of_threw
    · intro s s' a o hcase hk
      exact hk.not_event hcase fun i i' hl hw => (hw.hasLeft hl).2.2 rfl
  intro hmem
  rw [heq] at hpairs
  exact not_follows hpairs rfl _ hmem rfl

theorem silent_of_run {xs ys : List (LifecycleEvent τ ι)} {t : τ} {e : WorkerEvent}
    (heq : os = xs ++ .destroyReturned t (some h) :: ys) : .worker h e ∉ ys := by
  have hpairs : os.Pairwise fun o o' =>
      o = .destroyReturned t (some h) → ¬ o' = .worker h e := by
    refine pairwise_of_run (K := fun s => s.cell h = .deleted) ?_
      (fun _ hcase hd => Process.deleted_step hcase hd)
      (fun hcase hd => Process.deleted_no_event hcase hd) hcontract hrun
    rintro s s' a o _ hcase rfl
    exact Process.destroyReturned_step hcase
  intro hmem
  rw [heq] at hpairs
  exact not_follows hpairs rfl _ hmem rfl

theorem lastLoop_of_run {xs ys : List (LifecycleEvent τ ι)} {t : τ}
    (heq : os = xs ++ .runningCleared t h :: ys) : ys.count (.worker h .loop) ≤ 1 := by
  rw [heq] at hrun
  obtain ⟨as₁, a, as₂, s₁, s₂, rfl, hbefore, hstep, hafter⟩ := Machine.run_split hrun
  have hcontract₁ := (Machine.along_append hbefore).mp hcontract
  have hcontract₂ := (Machine.along_cons hstep).mp hcontract₁.2
  have hs₁ := sound_along Process.sound_initial hcontract₁.1 hbefore
  have hcase := Process.step_cases hstep
  have hpaid : ys.countP (· == .worker h .loop) + s.loopsDue h ≤ s₂.loopsDue h :=
    Machine.countP_along (J := fun s => s.Sound ∧ s.Stopping h)
      (fun _ _ _ _ hj hallowed hstep => ⟨hj.1.step hallowed (Process.step_cases hstep),
        hj.2.step (Process.step_cases hstep)⟩)
      (fun _ _ _ _ hj _ hstep => hj.1.loopsDue_step hj.2 (Process.step_cases hstep))
      ⟨hs₁.step hcontract₂.1 hcase, Process.runningCleared_step hcase⟩ hcontract₂.2 hafter
  have hone : s₂.loopsDue h ≤ 1 := Process.loopsDue_le_one
  show ys.countP (· == .worker h .loop) ≤ 1
  omega

theorem ended_of_run {xs ys : List (LifecycleEvent τ ι)} {e : WorkerEvent}
    (heq : os = xs ++ .worker h .returned :: ys) : .worker h e ∉ ys := by
  have hpairs : os.Pairwise fun o o' => o = .worker h .returned → ¬ o' = .worker h e := by
    refine pairwise_of_run (K := Process.Keeps h fun i => i.worker = some .exited) ?_
      (fun hs hcase hk => hs.keeps_exited hcase hk) ?_ hcontract hrun
    · rintro s s' a o _ hcase rfl
      exact Process.keeps_of_event hcase fun _ _ hw => hw.returned_iff.mp rfl
    · intro s s' a o hcase hk
      exact hk.not_event hcase fun i i' hexited hw => hw.worker_ne_exited hexited
  intro hmem
  rw [heq] at hpairs
  exact not_follows hpairs rfl _ hmem rfl

/-- `destroy` returns after the worker has. -/
theorem joined_of_run {xs ys : List (LifecycleEvent τ ι)} {t t' : τ}
    (heq : os = xs ++ .destroyReturned t (some h) :: ys) (hspawned : .spawned t' h ∈ xs) :
    .worker h .returned ∈ xs := by
  rw [heq] at hrun
  obtain ⟨as₁, a, as₂, s₁, s₂, rfl, hbefore, hstep, _⟩ := Machine.run_split hrun
  have hs₁ := sound_along Process.sound_initial ((Machine.along_append hbefore).mp hcontract).1
    hbefore
  have htraced : Process.Traced h xs s₁ :=
    Machine.history (I := fun os s => Process.Traced h os s)
      (fun _ _ _ _ _ hr hstep => hr.step (Process.step_cases hstep))
      Process.traced_initial hbefore
  obtain ⟨i, hi, hdone⟩ := hs₁.joined (Process.step_cases hstep)
  rcases hdone with hnone | hexited
  · exact absurd hspawned (htraced.idle i hi hnone t')
  · exact htraced.exited i hi hexited

omit hcontract in
/-- An exception leaves `run` exactly where a handler throws. -/
theorem contained_iff : (∀ h, .worker h .escaped ∉ os) ↔
    (lifecycle τ ι).Along Process.LogsReturn Process.initial as := by
  have hexact : (lifecycle τ ι).Throughout (fun os _ => ∀ h, .worker h .escaped ∉ os)
      Process.initial as ↔ (lifecycle τ ι).Along Process.LogsReturn Process.initial as := by
    refine Machine.throughout_iff_along (fun os s a s' o hnone hstep => ?_)
      (fun _ => List.not_mem_nil) hrun
    rw [← Process.not_escaped_iff (Process.step_cases hstep)]
    refine forall_congr' fun h => ?_
    simp [hnone h, eq_comm]
  rw [← hexact]
  constructor
  · rintro hnone bs ⟨cs, rfl⟩ s' os' hbefore h hmem
    obtain ⟨_, _, os₂, hbefore', _, rfl⟩ := Machine.run_append_iff.mp hrun
    cases hbefore.symm.trans hbefore'
    exact hnone h (List.mem_append_left _ hmem)
  · exact fun hall => hall as List.prefix_rfl s os hrun

end Runs

theorem stopped_of_hasLeft {s s' : Process τ ι} {h : ι} {i : Instance}
    {bs : List (LifecycleAction τ ι)} {os : List (LifecycleEvent τ ι)} (hs : s.Sound)
    (hi : s.instance? h = some i) (hleft : i.HasLeft)
    (hcontract : (lifecycle τ ι).Along Process.Contract s bs)
    (hrun : (lifecycle τ ι).run s bs = some (s', os)) :
    (∀ t, .runningSet t h ∉ os) ∧
      (i.running = false → ∀ i', s'.instance? h = some i' → i'.running = false) := by
  have hborn : s.cell h ≠ .unborn := by
    intro hfresh
    rw [Process.instance_of_unborn hfresh] at hi
    cases hi
  have hkeeps : ∀ {Q : Instance → Prop}, Q i → s.Keeps h Q := by
    intro Q hq
    refine ⟨hborn, fun j hj => ?_⟩
    cases hi.symm.trans hj
    exact hq
  constructor
  · intro t hmem
    refine Machine.never_along (J := fun s => s.Sound ∧ s.Keeps h Instance.HasLeft)
      (P := fun o => o = .runningSet t h)
      (fun _ _ _ _ hj hallowed hstep => ⟨hj.1.step hallowed (Process.step_cases hstep),
        hj.1.keeps_hasLeft (Process.step_cases hstep) hj.2⟩)
      ?_ ⟨hs, hkeeps hleft⟩ hcontract hrun _ hmem rfl
    rintro s₁ a s₂ o ⟨hs₁, hk⟩ _ hstep rfl
    obtain ⟨i₁, hi₁, hpc⟩ := Process.runningSet_step (Process.step_cases hstep)
    have hnone := (hs₁.staged.stage t _ hpc i₁ hi₁).2
    exact (hk.2 i₁ hi₁).worker_ne_none hnone
  · intro hstopped i' hi'
    have hend : s'.Sound ∧ s'.Keeps h Process.Quit :=
      Machine.invariant_along (J := fun s => s.Sound ∧ s.Keeps h Process.Quit)
        (fun _ _ _ _ hj hallowed hstep => ⟨hj.1.step hallowed (Process.step_cases hstep),
          hj.1.keeps_quit (Process.step_cases hstep) hj.2⟩)
        ⟨hs, hkeeps ⟨hleft, hstopped⟩⟩ hcontract hrun
    exact (hend.2.2 i' hi').2

/-- The life cycle of every worker, over every interleaving: all of it holds exactly as long as no
handler of `run` throws. What a throwing handler breaks is that no exception leaves `run`. -/
theorem worker_safe {s : Process τ ι} {as : List (LifecycleAction τ ι)}
    {os : List (LifecycleEvent τ ι)}
    (hcontract : (lifecycle τ ι).Along Process.Contract Process.initial as)
    (hrun : (lifecycle τ ι).run Process.initial as = some (s, os)) :
    (∀ h, WorkerSafe h os s) ↔
      (lifecycle τ ι).Along Process.LogsReturn Process.initial as := by
  have hs := sound_along Process.sound_initial hcontract hrun
  rw [← contained_iff hrun]
  constructor
  · exact fun hsafe h => (hsafe h).contained
  · intro hcontained h
    exact {
      startsOnce := startsOnce_of_run hcontract hrun
      setupOnce := setupOnce_of_run hcontract hrun
      setupFirst := fun _ _ heq => setupFirst_of_run hrun heq
      throwsOut := fun _ _ heq => throwsOut_of_run hcontract hrun heq
      lastLoop := fun _ _ _ heq => lastLoop_of_run hcontract hrun heq
      contained := hcontained h
      exited := fun i hi => (hs.staged.fit h i hi).exited
      stopped := fun _ hi hleft _ _ _ => stopped_of_hasLeft hs hi hleft
      joined := fun _ _ _ heq _ => joined_of_run hcontract hrun heq
      ended := fun _ _ heq _ => ended_of_run hcontract hrun heq
      silent := fun _ _ _ heq _ => silent_of_run hcontract hrun heq }

/-- Two threads start the instance while its worker runs; the destroy clears `running` after the
worker has read it, one more `loop()` is entered and throws, and then comes `handler`. -/
def lateDestroy (handler : WorkerChoice) : List (LifecycleAction Bool Nat) :=
  List.flatten [[.create false (some ⟨some [46]⟩)], List.replicate 4 (.advance false .ok),
    [.advance false (.allocated 1)], List.replicate 6 (.advance false .ok),
    [.start false (some 1), .start true (some 1)], List.replicate 4 (.advance true .ok),
    [.advance false .ok], List.replicate 3 (.work 1 .proceed),
    [.destroy true (some 1), .advance true .ok],
    [.work 1 .proceed, .work 1 (.throws .stdException), .work 1 handler]]

def joinsAndReturns : List (LifecycleAction Bool Nat) :=
  .work 1 .proceed :: List.replicate 10 (.advance true .ok)

theorem worker_safe_lateDestroy : ∃ s os,
    (lifecycle Bool Nat).run Process.initial (lateDestroy .proceed ++ joinsAndReturns) =
        some (s, os) ∧
      .startReturned false (some 1) (-1) ∈ os ∧ .worker 1 .threw ∈ os ∧
      .destroyReturned true (some 1) ∈ os ∧ ∀ h, WorkerSafe h os s := by
  have hevents : ((lifecycle Bool Nat).run Process.initial
      (lateDestroy .proceed ++ joinsAndReturns)).map
      (fun r => decide (.startReturned false (some 1) (-1) ∈ r.2 ∧ .worker 1 .threw ∈ r.2 ∧
        .destroyReturned true (some 1) ∈ r.2)) = some true := by decide +kernel
  obtain ⟨⟨s, os⟩, hrun, hseen⟩ := Option.map_eq_some_iff.mp hevents
  obtain ⟨hstart, hthrew, hdestroy⟩ := of_decide_eq_true hseen
  exact ⟨s, os, hrun, hstart, hthrew, hdestroy,
    (worker_safe (by decide +kernel) hrun).mpr (by decide +kernel)⟩

/-- The string of the message cannot be allocated: the handler throws out of `run`. -/
theorem not_worker_safe :
    ¬ ∀ (as : List (LifecycleAction Bool Nat)) s os,
      (lifecycle Bool Nat).Along Process.Contract Process.initial as →
      (lifecycle Bool Nat).run Process.initial as = some (s, os) → ∀ h, WorkerSafe h os s := by
  intro hall
  have hevents : ((lifecycle Bool Nat).run Process.initial
      (lateDestroy (.throws .stdException))).map
      (fun r => decide (.worker 1 .escaped ∈ r.2)) = some true := by decide +kernel
  obtain ⟨⟨s, os⟩, hrun, hseen⟩ := Option.map_eq_some_iff.mp hevents
  exact (hall _ s os (by decide +kernel) hrun 1).contained (of_decide_eq_true hseen)

end ZiModem.Wrapper
