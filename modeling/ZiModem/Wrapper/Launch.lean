import ZiModem.Wrapper.Singleton

/-! # One instance and its worker

What any step can do to the members `started`, `running` and `worker` of one
instance. The exchange of `started` lets one call of `start` through, so the
store to `running` and the new thread have a single author; `destroy`, which no
start overlaps, then has `running` to itself and the worker.
-/

namespace ZiModem.Wrapper

open Reactive

variable {τ ι : Type*}

/-! ## The worker -/

inductive WorkCase : Instance → Instance → WorkerEvent → Prop
  | setup (started running : Bool) :
      WorkCase ⟨started, running, some .entry⟩ ⟨started, running, some .inSetup⟩ .setup
  | setupReturns (started running : Bool) :
      WorkCase ⟨started, running, some .inSetup⟩ ⟨started, running, some .check⟩ .quiet
  | again (started : Bool) :
      WorkCase ⟨started, true, some .check⟩ ⟨started, true, some .enter⟩ .quiet
  | leave (started : Bool) :
      WorkCase ⟨started, false, some .check⟩ ⟨started, false, some .finish⟩ .quiet
  | loop (started running : Bool) :
      WorkCase ⟨started, running, some .enter⟩ ⟨started, running, some .inLoop⟩ .loop
  | loopReturns (started running : Bool) :
      WorkCase ⟨started, running, some .inLoop⟩ ⟨started, running, some .sleep⟩ .quiet
  | wakes (started running : Bool) :
      WorkCase ⟨started, running, some .sleep⟩ ⟨started, running, some .check⟩ .quiet
  | throws (started running : Bool) (pc : WorkerPc) : pc = .inSetup ∨ pc = .inLoop →
      WorkCase ⟨started, running, some pc⟩ ⟨started, running, some .caught⟩ .threw
  | logs (started running : Bool) :
      WorkCase ⟨started, running, some .caught⟩ ⟨started, running, some .finish⟩ .callback
  | escapes (started running : Bool) :
      WorkCase ⟨started, running, some .caught⟩ ⟨started, running, some .escaped⟩ .escaped
  | returns (started running : Bool) :
      WorkCase ⟨started, running, some .finish⟩ ⟨started, false, some .exited⟩ .returned
  | raises (started running : Bool) (pc : WorkerPc) : pc = .inSetup ∨ pc = .inLoop →
      WorkCase ⟨started, running, some pc⟩ ⟨started, running, some pc⟩ .callback

theorem Instance.throws_caught (i : Instance) (x : Thrown) :
    i.throws x = ({ i with worker := some .caught }, .threw) := by
  cases x <;> rfl

theorem Instance.work_cases {i i' : Instance} {c : WorkerChoice} {e : WorkerEvent}
    (h : i.work c = some (i', e)) : WorkCase i i' e := by
  obtain ⟨started, running, worker⟩ := i
  cases worker with
  | none => cases c <;> cases h
  | some pc =>
      cases c with
      | proceed =>
          cases pc with
          | entry => cases h; exact .setup started running
          | inSetup => cases h; exact .setupReturns started running
          | check =>
              cases running with
              | true => cases h; exact .again started
              | false => cases h; exact .leave started
          | enter => cases h; exact .loop started running
          | inLoop => cases h; exact .loopReturns started running
          | sleep => cases h; exact .wakes started running
          | caught => cases h; exact .logs started running
          | finish => cases h; exact .returns started running
          | exited | escaped => cases h
      | throws x =>
          cases pc with
          | inSetup =>
              simp only [work, throws_caught] at h
              cases h
              exact .throws started running .inSetup (.inl rfl)
          | inLoop =>
              simp only [work, throws_caught] at h
              cases h
              exact .throws started running .inLoop (.inr rfl)
          | caught => cases h; exact .escapes started running
          | _ => cases h
      | raises =>
          cases pc with
          | inSetup => cases h; exact .raises started running .inSetup (.inl rfl)
          | inLoop => cases h; exact .raises started running .inLoop (.inr rfl)
          | _ => cases h

/-- An exception leaves `run` from within a handler, and from nowhere else. -/
theorem Instance.work_escaped_iff {i i' : Instance} {c : WorkerChoice} {e : WorkerEvent}
    (h : i.work c = some (i', e)) :
    e = .escaped ↔ i.worker = some .caught ∧ ∃ x, c = .throws x := by
  obtain ⟨started, running, worker⟩ := i
  cases c with
  | proceed | raises =>
      have hquiet : e ≠ .escaped := by
        rintro rfl
        cases Instance.work_cases h
        cases h
      simp [hquiet]
  | throws x =>
      cases worker with
      | none => cases h
      | some pc =>
          cases pc with
          | inSetup | inLoop =>
              simp only [work, throws_caught] at h
              cases h
              simp
          | caught =>
              cases h
              simp
          | _ => cases h

/-- No worker without a start, and a worker that has returned has stored `running = false`. -/
structure Instance.Fit (i : Instance) : Prop where
  worker : i.started = false → i.worker = none
  exited : i.worker = some .exited → i.running = false

def Instance.PastEntry (i : Instance) : Prop := i.worker ≠ none ∧ i.worker ≠ some .entry

def Instance.HasLeft (i : Instance) : Prop :=
  i.worker = some .caught ∨ i.worker = some .finish ∨ i.worker = some .exited ∨
    i.worker = some .escaped

/-- The worker has read `running` as true and not yet called `loop()`. -/
def Instance.loopsDue (i : Instance) : Nat := if i.worker = some .enter then 1 else 0

section Work

variable {i i' : Instance} {e : WorkerEvent}

theorem Instance.HasLeft.worker_ne_none (hl : i.HasLeft) : i.worker ≠ none := by
  rcases hl with hw | hw | hw | hw <;> rw [hw] <;> exact Option.some_ne_none _

theorem WorkCase.started (h : WorkCase i i' e) : i'.started = i.started := by
  cases h <;> rfl

theorem WorkCase.worker_ne_none (h : WorkCase i i' e) : i.worker ≠ none := by
  cases h <;> exact Option.some_ne_none _

theorem WorkCase.left_worker_ne_none (h : WorkCase i i' e) : i'.worker ≠ none := by
  cases h <;> exact Option.some_ne_none _

theorem WorkCase.worker_ne_exited (h : WorkCase i i' e) : i.worker ≠ some .exited := by
  cases h with
  | throws started running pc hpc | raises started running pc hpc =>
      rcases hpc with rfl | rfl <;> nofun
  | _ => nofun

theorem WorkCase.running (h : WorkCase i i' e) (hstopped : i.running = false) :
    i'.running = false := by
  cases h <;> first | exact hstopped | rfl

theorem WorkCase.fit (h : WorkCase i i' e) (hf : i.Fit) : i'.Fit where
  worker := by
    intro hs
    rw [h.started] at hs
    exact absurd (hf.worker hs) h.worker_ne_none
  exited := by
    intro hw
    cases h with
    | returns => rfl
    | raises started running pc hpc => exact hf.exited hw
    | _ => cases hw

theorem WorkCase.pastEntry (h : WorkCase i i' e) : i'.PastEntry := by
  cases h with
  | raises started running pc hpc => rcases hpc with rfl | rfl <;> exact ⟨nofun, nofun⟩
  | _ => exact ⟨nofun, nofun⟩

theorem WorkCase.setup_iff (h : WorkCase i i' e) : e = .setup ↔ ¬ i.PastEntry := by
  cases h with
  | throws started running pc hpc | raises started running pc hpc =>
      rcases hpc with rfl | rfl <;> simp [Instance.PastEntry]
  | _ => simp [Instance.PastEntry]

theorem WorkCase.hasLeft (h : WorkCase i i' e) (hl : i.HasLeft) :
    i'.HasLeft ∧ e ≠ .setup ∧ e ≠ .loop := by
  cases h with
  | throws started running pc hpc | raises started running pc hpc =>
      rcases hpc with rfl | rfl <;> simp [Instance.HasLeft] at hl
  | _ => simp_all [Instance.HasLeft]

theorem WorkCase.hasLeft_of_threw (h : WorkCase i i' .threw) : i'.HasLeft := by
  cases h
  exact .inl rfl

/-- With `running` false, only the `loop()` that is already due is entered. -/
theorem WorkCase.loopsDue (h : WorkCase i i' e) (hstopped : i.running = false) :
    (if e = .loop then 1 else 0) + i'.loopsDue ≤ i.loopsDue := by
  cases h with
  | again => cases hstopped
  | _ => simp [Instance.loopsDue]

theorem WorkCase.returned_iff (h : WorkCase i i' e) :
    e = .returned ↔ i'.worker = some .exited := by
  cases h with
  | throws started running pc hpc | raises started running pc hpc =>
      rcases hpc with rfl | rfl <;> simp
  | _ => simp

end Work

/-! ## The instance under every step of the process -/

namespace Pc

variable (h : ι)

/-- The call of `start` that went through the exchange, up to its return. -/
def Launches : Pc ι → Prop
  | setRunning h' | spawn h' | startReturn h' => h' = h
  | _ => False

def Stops : Pc ι → Prop
  | join h' | uninstall h' _ | resetActive h' | destroyUnlock h' | shutdown h' | delete h' => h' = h
  | _ => False

end Pc

namespace Process

variable [DecidableEq τ] [DecidableEq ι]

inductive Evolves (s : Process τ ι) (h : ι) (i : Instance) : Instance → LifecycleEvent τ ι → Prop
  | same (o : LifecycleEvent τ ι) : (∀ e, o ≠ .worker h e) → (∀ t, o ≠ .runningSet t h) →
      Evolves s h i i o
  | first (t : τ) : s.pc t = some (.exchange h) → i.started = false →
      Evolves s h i { i with started := true } (.quiet t)
  | setRunning (t : τ) : s.pc t = some (.setRunning h) →
      Evolves s h i { i with running := true } (.runningSet t h)
  | spawn (t : τ) : s.pc t = some (.spawn h) →
      Evolves s h i { i with worker := some .entry } (.spawned t h)
  | clearRunning (t : τ) : s.pc t = some (.clearRunning h) →
      Evolves s h i { i with running := false } (.runningCleared t h)
  | work (i' : Instance) (e : WorkerEvent) : WorkCase i i' e → Evolves s h i i' (.worker h e)

variable {s s' : Process τ ι} {a : LifecycleAction τ ι} {o : LifecycleEvent τ ι} {h : ι}

omit [DecidableEq τ] in
theorem instance_of_setCell {h' : ι} {c : Cell} {i' : Instance}
    (hi : (s.setCell h' c).instance? h = some i') :
    h ≠ h' ∧ s.instance? h = some i' ∨ h = h' ∧ c = .live i' := by
  by_cases hh : h = h'
  · subst hh
    refine .inr ⟨rfl, ?_⟩
    cases c with
    | live i =>
        rw [setCell_instance_self] at hi
        cases hi
        rfl
    | unborn | deleted => simp [setCell, instance?] at hi
  · rw [setCell_instance_other _ hh] at hi
    exact .inl ⟨hh, hi⟩

omit [DecidableEq τ] [DecidableEq ι] in
theorem instance_of_unborn (hfresh : s.cell h = .unborn) : s.instance? h = none := by
  unfold instance?
  rw [hfresh]

omit [DecidableEq τ] in
@[simp] theorem setCell_cell_self (c : Cell) : (s.setCell h c).cell h = c := Function.update_self ..

omit [DecidableEq τ] in
theorem setCell_cell_other {h' : ι} (c : Cell) (hne : h' ≠ h) :
    (s.setCell h c).cell h' = s.cell h' := Function.update_of_ne hne ..

inductive CellCase (s : Process τ ι) (a : LifecycleAction τ ι) (h : ι) : Cell → Prop
  | same : CellCase s a h (s.cell h)
  | new (i : Instance) : s.cell h = .unborn → CellCase s a h (.live i)
  | live (i i' : Instance) : s.instance? h = some i → CellCase s a h (.live i')
  | delete (t : τ) (c : Choice ι) (i : Instance) : a = .advance t c → s.pc t = some (.delete h) →
      s.instance? h = some i → CellCase s a h .deleted

theorem cell_cases (hcase : s.StepCase a s' o) (h : ι) : s.CellCase a h (s'.cell h) := by
  have hset : ∀ (h' : ι) (i i' : Instance), s.instance? h' = some i →
      s.CellCase a h ((s.setCell h' (.live i')).cell h) := by
    intro h' i i' hi
    by_cases hh : h = h'
    · subst hh
      rw [setCell_cell_self]
      exact .live i i' hi
    · rw [setCell_cell_other _ hh]
      exact .same
  cases hcase with
  | creates t c hcase =>
      cases hcase with
      | new h' hpc hfresh =>
          show s.CellCase _ h ((s.setCell h' _).cell h)
          by_cases hh : h = h'
          · subst hh
            rw [setCell_cell_self]
            exact .new _ hfresh
          · rw [setCell_cell_other _ hh]
            exact .same
      | _ => exact .same
  | starts t c h' i hi hcase =>
      cases hcase with
      | first | setRunning | spawn => exact hset h' i _ hi
      | _ => exact .same
  | destroys t c h' i hi hcase =>
      cases hcase with
      | clearRunning => exact hset h' i _ hi
      | delete hpc =>
          show s.CellCase _ h ((s.setCell h' _).cell h)
          by_cases hh : h = h'
          · subst hh
            rw [setCell_cell_self]
            exact .delete t c i rfl hpc hi
          · rw [setCell_cell_other _ hh]
            exact .same
      | _ => exact .same
  | works h' c i i' e hi => exact hset h' i i' hi
  | _ => exact .same

theorem cell_ne_unborn_of_step (hcase : s.StepCase a s' o) (hborn : s.cell h ≠ .unborn) :
    s'.cell h ≠ .unborn := by
  cases hcell : s'.cell h with
  | unborn =>
      have hstep := cell_cases hcase h
      rw [hcell] at hstep
      generalize hbefore : Cell.unborn = c at hstep
      cases hstep with
      | same => exact absurd hbefore.symm hborn
      | _ => cases hbefore
  | _ => nofun

theorem evolves_of_step {i' : Instance} (hcase : s.StepCase a s' o)
    (hi' : s'.instance? h = some i') :
    s.cell h = .unborn ∧ i' = .initial ∨
      ∃ i, s.instance? h = some i ∧ s.Evolves h i i' o := by
  have hsame : s.instance? h = some i' → (∀ e, o ≠ .worker h e) → (∀ t, o ≠ .runningSet t h) →
      ∃ i, s.instance? h = some i ∧ s.Evolves h i i' o := fun hi hw hr => ⟨i', hi, .same o hw hr⟩
  cases hcase with
  | createRefused | startRefused | destroyRefused => exact .inr (hsame hi' nofun nofun)
  | createBegins | startBegins | destroyBegins => exact .inr (hsame hi' nofun nofun)
  | creates t c hcase =>
      cases hcase with
      | new h₁ hpc hfresh =>
          rcases instance_of_setCell hi' with ⟨_, hi⟩ | ⟨rfl, hc⟩
          · exact .inr (hsame hi nofun nofun)
          · cases hc
            exact .inl ⟨hfresh, rfl⟩
      | _ => exact .inr (hsame hi' nofun nofun)
  | starts t c h₁ i hi hcase =>
      refine .inr ?_
      cases hcase with
      | again | spawnFails | done => exact hsame hi' nofun nofun
      | first hpc hstarted =>
          rcases instance_of_setCell hi' with ⟨_, hi₁⟩ | ⟨rfl, hc⟩
          · exact hsame hi₁ nofun nofun
          · cases hc
            exact ⟨i, hi, .first t hpc hstarted⟩
      | setRunning hpc =>
          rcases instance_of_setCell hi' with ⟨hne, hi₁⟩ | ⟨rfl, hc⟩
          · exact hsame hi₁ nofun fun t' heq => hne (by cases heq; rfl)
          · cases hc
            exact ⟨i, hi, .setRunning t hpc⟩
      | spawn hpc =>
          rcases instance_of_setCell hi' with ⟨_, hi₁⟩ | ⟨rfl, hc⟩
          · exact hsame hi₁ nofun nofun
          · cases hc
            exact ⟨i, hi, .spawn t hpc⟩
  | destroys t c h₁ i hi hcase =>
      refine .inr ?_
      cases hcase with
      | clearRunning hpc =>
          rcases instance_of_setCell hi' with ⟨_, hi₁⟩ | ⟨rfl, hc⟩
          · exact hsame hi₁ nofun nofun
          · cases hc
            exact ⟨i, hi, .clearRunning t hpc⟩
      | delete =>
          rcases instance_of_setCell hi' with ⟨_, hi₁⟩ | ⟨rfl, hc⟩
          · exact hsame hi₁ nofun nofun
          · cases hc
      | _ => exact hsame hi' nofun nofun
  | works h₁ c i i₁ e hi hw =>
      refine .inr ?_
      rcases instance_of_setCell hi' with ⟨hne, hi₁⟩ | ⟨rfl, hc⟩
      · exact hsame hi₁ (fun e' heq => hne (by cases heq; rfl)) nofun
      · cases hc
        exact ⟨i, hi, .work i' e (Instance.work_cases hw)⟩

theorem work_of_event {e : WorkerEvent} (hcase : s.StepCase a s' (.worker h e)) :
    ∃ i i', s.instance? h = some i ∧ s'.instance? h = some i' ∧ WorkCase i i' e := by
  cases hcase with
  | creates t c hcase => cases hcase
  | starts t c h₁ i hi hcase => cases hcase
  | destroys t c h₁ i hi hcase => cases hcase
  | works h₁ c i i' e hi hw =>
      exact ⟨i, i', hi, setCell_instance_self i', Instance.work_cases hw⟩

/-! ## Who may write `started`, `running` and `worker` -/

/-- What the place of a call says about the members of its instance. -/
def Stage (s : Process τ ι) : Pc ι → Prop
  | .setRunning h | .spawn h =>
      ∀ i, s.instance? h = some i → i.started = true ∧ i.worker = none
  | .startReturn h => ∀ i, s.instance? h = some i → i.started = true
  | .join h => ∀ i, s.instance? h = some i → i.running = false
  | .uninstall h _ | .resetActive h | .destroyUnlock h | .shutdown h | .delete h =>
      ∀ i, s.instance? h = some i →
        i.running = false ∧ (i.worker = none ∨ i.worker = some .exited)
  | _ => True

structure Staged (s : Process τ ι) : Prop where
  fit : ∀ h i, s.instance? h = some i → i.Fit
  stage : ∀ t pc, s.pc t = some pc → s.Stage pc
  sole : ∀ h t t' pc pc', s.pc t = some pc → pc.Launches h → s.pc t' = some pc' →
    pc'.Launches h → t = t'

omit [DecidableEq τ] [DecidableEq ι] in
theorem staged_initial : (initial : Process τ ι).Staged where
  fit := nofun
  stage := nofun
  sole := fun h t t' pc pc' hpc => by cases hpc

section Exclusion

omit [DecidableEq τ] [DecidableEq ι]

variable {t t' : τ} {pc pc' : Pc ι}

/-- While `destroy` is past its store to `running`, no call of `start` is on its way. -/
theorem Orderly.not_launches_of_stops (ho : s.Orderly) (hpc : s.pc t = some pc)
    (hstops : pc.Stops h) (hpc' : s.pc t' = some pc') : ¬ pc'.Launches h := by
  intro hl
  have hne : t' ≠ t := by
    intro heq
    rw [heq, hpc] at hpc'
    cases hpc'
    cases pc <;> first | exact hl | exact hstops
  have hactive' : s.active = some h := by
    have hl' := ho.owned.place t' pc' hpc'
    cases pc' with
    | setRunning | spawn | startReturn =>
        cases hl
        exact hl'.1
    | _ => exact hl.elim
  have huse : pc'.UsesActive := by
    cases pc' with
    | setRunning | spawn | startReturn => exact .inl trivial
    | _ => exact hl.elim
  have hlocal := ho.owned.place t pc hpc
  cases pc with
  | join | uninstall | resetActive =>
      exact (ho.owned.compatible_both hpc hne hpc').1.left trivial huse
  | destroyUnlock | shutdown | delete =>
      cases hstops
      exact hlocal.1 hactive'
  | _ => exact hstops.elim

theorem Staged.of_stops (hs : s.Staged) (hpc : s.pc t = some pc) (hstops : pc.Stops h)
    {i : Instance} (hi : s.instance? h = some i) : i.running = false := by
  have hstage := hs.stage t pc hpc
  cases pc with
  | join =>
      cases hstops
      exact hstage i hi
  | uninstall | resetActive | destroyUnlock | shutdown | delete =>
      cases hstops
      exact (hstage i hi).1
  | _ => exact hstops.elim

theorem Staged.started_of_launches (hs : s.Staged) (hpc : s.pc t = some pc)
    (hl : pc.Launches h) {i : Instance} (hi : s.instance? h = some i) : i.started = true := by
  have hstage := hs.stage t pc hpc
  cases pc with
  | setRunning | spawn =>
      cases hl
      exact (hstage i hi).1
  | startReturn =>
      cases hl
      exact hstage i hi
  | _ => exact hl.elim

end Exclusion

theorem launches_of_step {t : τ} {pc : Pc ι} (hcase : s.StepCase a s' o)
    (hpc : s'.pc t = some pc) (hl : pc.Launches h) :
    (∃ pc₀, s.pc t = some pc₀ ∧ pc₀.Launches h) ∨
      o = .quiet t ∧ ∃ i, s.instance? h = some i ∧ i.started = false := by
  cases hcase with
  | createRefused | startRefused | destroyRefused | works => exact .inl ⟨pc, hpc, hl⟩
  | createBegins | startBegins | destroyBegins =>
      rcases goto_cases hpc with ⟨_, hold⟩ | ⟨_, hnew⟩
      · exact .inl ⟨pc, hold, hl⟩
      · cases hnew
        exact hl.elim
  | creates t₁ c hcase =>
      cases hcase <;>
        (rcases goto_cases hpc with ⟨_, hold⟩ | ⟨_, hnew⟩
         · exact .inl ⟨pc, hold, hl⟩
         · cases hnew <;> exact hl.elim)
  | starts t₁ c h₁ i hi hcase =>
      cases hcase with
      | first hpc₁ hstarted =>
          rcases goto_cases hpc with ⟨_, hold⟩ | ⟨rfl, hnew⟩
          · exact .inl ⟨pc, hold, hl⟩
          · cases hnew
            cases hl
            exact .inr ⟨rfl, i, hi, hstarted⟩
      | setRunning hpc₁ | spawn hpc₁ =>
          rcases goto_cases hpc with ⟨_, hold⟩ | ⟨rfl, hnew⟩
          · exact .inl ⟨pc, hold, hl⟩
          · cases hnew
            exact .inl ⟨_, hpc₁, hl⟩
      | again | spawnFails | done =>
          rcases goto_cases hpc with ⟨_, hold⟩ | ⟨_, hnew⟩
          · exact .inl ⟨pc, hold, hl⟩
          · cases hnew
  | destroys t₁ c h₁ i hi hcase =>
      cases hcase <;>
        (rcases goto_cases hpc with ⟨_, hold⟩ | ⟨_, hnew⟩
         · exact .inl ⟨pc, hold, hl⟩
         · cases hnew <;> exact hl.elim)

theorem spawned_step {t : τ} (hcase : s.StepCase a s' (.spawned t h)) :
    s.pc t = some (.spawn h) ∧ s'.pc t = some (.startReturn h) := by
  cases hcase with
  | creates t₁ c hcase => cases hcase
  | starts t₁ c h₁ i hi hcase =>
      cases hcase with
      | spawn hpc => exact ⟨hpc, goto_self _⟩
  | destroys t₁ c h₁ i hi hcase => cases hcase

theorem Staged.sole_step (hs : s.Staged) (hcase : s.StepCase a s' o) {t t' : τ} {pc pc' : Pc ι}
    (hpc : s'.pc t = some pc) (hl : pc.Launches h) (hpc' : s'.pc t' = some pc')
    (hl' : pc'.Launches h) : t = t' := by
  rcases launches_of_step hcase hpc hl with ⟨pc₀, h₀, hl₀⟩ | ⟨ht, i, hi, hstarted⟩
  · rcases launches_of_step hcase hpc' hl' with ⟨pc₁, h₁, hl₁⟩ | ⟨_, i, hi, hstarted⟩
    · exact hs.sole h t t' pc₀ pc₁ h₀ hl₀ h₁ hl₁
    · rw [hs.started_of_launches h₀ hl₀ hi] at hstarted
      cases hstarted
  · rcases launches_of_step hcase hpc' hl' with ⟨pc₁, h₁, hl₁⟩ | ⟨ht', _⟩
    · rw [hs.started_of_launches h₁ hl₁ hi] at hstarted
      cases hstarted
    · cases ht.symm.trans ht'
      rfl

theorem Staged.fit_step (hs : s.Staged) (hcase : s.StepCase a s' o) {i' : Instance}
    (hi' : s'.instance? h = some i') : i'.Fit := by
  rcases evolves_of_step hcase hi' with ⟨_, rfl⟩ | ⟨i, hi, hev⟩
  · exact ⟨fun _ => rfl, nofun⟩
  · have hf := hs.fit h i hi
    cases hev with
    | same => exact hf
    | first t hpc hstarted => exact ⟨nofun, hf.exited⟩
    | setRunning t hpc =>
        have hstage := hs.stage t _ hpc i hi
        exact ⟨hf.worker, fun hw => absurd (hstage.2.symm.trans hw) nofun⟩
    | spawn t hpc =>
        have hstage := hs.stage t _ hpc i hi
        exact ⟨fun hs' => absurd (hstage.1.symm.trans hs') nofun, nofun⟩
    | clearRunning t hpc => exact ⟨hf.worker, fun _ => rfl⟩
    | work i' e hw => exact hw.fit hf

section Evolves

omit [DecidableEq τ] [DecidableEq ι]

variable {i i' : Instance}

theorem Evolves.started (hev : s.Evolves h i i' o) (hstarted : i.started = true) :
    i'.started = true := by
  cases hev with
  | first t hpc => rfl
  | work i' e hw => exact hw.started.trans hstarted
  | _ => exact hstarted

theorem Evolves.unspawned (hev : s.Evolves h i i' o) (hspawned : ∀ t, o ≠ .spawned t h)
    (hworker : i.worker = none) : i'.worker = none := by
  cases hev with
  | spawn t hpc => exact absurd rfl (hspawned t)
  | work i' e hw => exact absurd hworker hw.worker_ne_none
  | _ => exact hworker

theorem Evolves.stopped (hev : s.Evolves h i i' o)
    (hidle : ∀ t pc, s.pc t = some pc → ¬ pc.Launches h) (hstopped : i.running = false) :
    i'.running = false := by
  cases hev with
  | setRunning t hpc => exact absurd rfl (hidle t _ hpc)
  | clearRunning t hpc => rfl
  | work i' e hw => exact hw.running hstopped
  | _ => exact hstopped

theorem Evolves.joined (hev : s.Evolves h i i' o)
    (hidle : ∀ t pc, s.pc t = some pc → ¬ pc.Launches h)
    (hjoined : i.worker = none ∨ i.worker = some .exited) :
    i'.worker = none ∨ i'.worker = some .exited := by
  cases hev with
  | spawn t hpc => exact absurd rfl (hidle t _ hpc)
  | work i' e hw =>
      rcases hjoined with hnone | hexited
      · exact absurd hnone hw.worker_ne_none
      · exact absurd hexited hw.worker_ne_exited
  | _ => exact hjoined

end Evolves

theorem Staged.stage_stays (hs : s.Staged) (ho : s.Orderly) (hcase : s.StepCase a s' o) {t : τ}
    {pc : Pc ι} (hbefore : s.pc t = some pc) (hafter : s'.pc t = some pc) : s'.Stage pc := by
  have hstage := hs.stage t pc hbefore
  have hlocal := ho.owned.place t pc hbefore
  have hev : ∀ {h i'}, s.instance? h ≠ none → s'.instance? h = some i' →
      ∃ i, s.instance? h = some i ∧ s.Evolves h i i' o := by
    intro h i' hlive hi'
    rcases evolves_of_step hcase hi' with ⟨hfresh, _⟩ | hev
    · exact absurd (instance_of_unborn hfresh) hlive
    · exact hev
  have hidle : ∀ {h}, pc.Stops h → ∀ t' pc', s.pc t' = some pc' → ¬ pc'.Launches h :=
    fun hstops t' pc' hpc' => ho.not_launches_of_stops hbefore hstops hpc'
  -- the thread that spawns is the only one past the exchange, and it moves on
  have hspawned : ∀ {h}, pc = .setRunning h ∨ pc = .spawn h → ∀ t', o ≠ .spawned t' h := by
    rintro h hpc t' rfl
    obtain ⟨hpc₁, hpc₂⟩ := spawned_step hcase
    have hl : pc.Launches h := by rcases hpc with rfl | rfl <;> rfl
    have ht : t' = t := hs.sole h t' t _ pc hpc₁ rfl hbefore hl
    rw [ht, hafter] at hpc₂
    rcases hpc with rfl | rfl <;> cases hpc₂
  cases pc with
  | setRunning h =>
      intro i' hi'
      obtain ⟨i, hi, hev⟩ := hev hlocal.2 hi'
      obtain ⟨hstarted, hworker⟩ := hstage i hi
      exact ⟨hev.started hstarted, hev.unspawned (hspawned (.inl rfl)) hworker⟩
  | spawn h =>
      intro i' hi'
      obtain ⟨i, hi, hev⟩ := hev hlocal.2 hi'
      obtain ⟨hstarted, hworker⟩ := hstage i hi
      exact ⟨hev.started hstarted, hev.unspawned (hspawned (.inr rfl)) hworker⟩
  | startReturn h =>
      intro i' hi'
      obtain ⟨i, hi, hev⟩ := hev hlocal.2 hi'
      exact hev.started (hstage i hi)
  | join h =>
      intro i' hi'
      obtain ⟨i, hi, hev⟩ := hev hlocal.2.1 hi'
      exact hev.stopped (hidle rfl) (hstage i hi)
  | uninstall h todo | resetActive h =>
      intro i' hi'
      obtain ⟨i, hi, hev⟩ := hev hlocal.2.1 hi'
      obtain ⟨hstopped, hjoined⟩ := hstage i hi
      exact ⟨hev.stopped (hidle rfl) hstopped, hev.joined (hidle rfl) hjoined⟩
  | destroyUnlock h | shutdown h | delete h =>
      intro i' hi'
      obtain ⟨i, hi, hev⟩ := hev hlocal.2 hi'
      obtain ⟨hstopped, hjoined⟩ := hstage i hi
      exact ⟨hev.stopped (hidle rfl) hstopped, hev.joined (hidle rfl) hjoined⟩
  | _ => trivial

omit [DecidableEq ι] in
theorem stage_goto {new : Option (Pc ι)} {t t₁ : τ} {pc : Pc ι}
    (hafter : (s.goto t₁ new).pc t = some pc)
    (hnew : ∀ pc', new = some pc' → (s.goto t₁ new).Stage pc') :
    s.pc t = some pc ∨ (s.goto t₁ new).Stage pc := by
  rcases goto_cases hafter with ⟨_, hold⟩ | ⟨_, heq⟩
  · exact .inl hold
  · exact .inr (hnew pc heq)

theorem Staged.stage_moves (hs : s.Staged) (hcase : s.StepCase a s' o) {t : τ} {pc : Pc ι}
    (hafter : s'.pc t = some pc) : s.pc t = some pc ∨ s'.Stage pc := by
  cases hcase with
  | createRefused | startRefused | destroyRefused | works => exact .inl hafter
  | createBegins | startBegins | destroyBegins =>
      apply stage_goto hafter
      intro pc' heq
      cases heq
      trivial
  | creates t₁ c hcase =>
      cases hcase <;>
        (apply stage_goto hafter
         intro pc' heq
         cases heq <;> trivial)
  | starts t₁ c h i hi hcase =>
      have hf := hs.fit h i hi
      cases hcase with
      | first hpc hstarted =>
          apply stage_goto hafter
          rintro _ ⟨⟩ i' hi'
          cases (setCell_instance_self _).symm.trans hi'
          exact ⟨rfl, hf.worker hstarted⟩
      | setRunning hpc =>
          apply stage_goto hafter
          rintro _ ⟨⟩ i' hi'
          cases (setCell_instance_self _).symm.trans hi'
          exact hs.stage t₁ _ hpc i hi
      | spawn hpc =>
          apply stage_goto hafter
          rintro _ ⟨⟩ i' hi'
          cases (setCell_instance_self _).symm.trans hi'
          exact (hs.stage t₁ _ hpc i hi).1
      | again | spawnFails | done => exact stage_goto hafter nofun
  | destroys t₁ c h i hi hcase =>
      cases hcase with
      | clearRunning hpc =>
          apply stage_goto hafter
          rintro _ ⟨⟩ i' hi'
          cases (setCell_instance_self _).symm.trans hi'
          rfl
      | join hpc hdone =>
          apply stage_goto hafter
          rintro _ ⟨⟩ i' hi'
          cases hi.symm.trans hi'
          exact ⟨hs.stage t₁ _ hpc i hi, hdone⟩
      | uninstall k todo hpc | lock hpc | reset hpc | unlock hpc | shutdown hpc =>
          apply stage_goto hafter
          rintro _ ⟨⟩
          exact hs.stage t₁ _ hpc
      | delete => exact stage_goto hafter nofun

theorem Staged.step (hs : s.Staged) (ho : s.Orderly) (hcase : s.StepCase a s' o) : s'.Staged where
  fit := fun _ _ hi' => hs.fit_step hcase hi'
  stage := by
    intro t pc hafter
    rcases hs.stage_moves hcase hafter with hbefore | hstage
    · exact hs.stage_stays ho hcase hbefore hafter
    · exact hstage
  sole := fun _ _ _ _ _ hpc hl hpc' hl' => hs.sole_step hcase hpc hl hpc' hl'

end Process

end ZiModem.Wrapper
