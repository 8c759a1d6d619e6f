import Mathlib.Data.Fintype.Basic
import Mathlib.Data.List.Infix
import Mathlib.Logic.Function.Basic
import ZiModem.Reactive.Machine

/-! # The life of an instance

`zimodem_host_create`, `zimodem_host_start`, `zimodem_host_destroy` and the body
of the worker thread, step by step: every step is one access to state that other
threads can see. An instance is named by a handle that no other instance ever
has. What the surroundings decide (a directory that cannot be created, a failed
allocation, a thread that cannot be started, firmware that throws) is a choice
that the step reads.
-/

namespace ZiModem.Wrapper

open Reactive

/-! ## Instances and their worker -/

/-- What code may throw: something derived from `std::exception`, or anything else. -/
inductive Thrown
  | stdException
  | other
  deriving DecidableEq, Repr

inductive Handler
  | stdException
  | all
  deriving DecidableEq, Repr

def Handler.Catches : Handler → Thrown → Bool
  | stdException, .stdException => true
  | stdException, .other => false
  | all, _ => true

def runHandlers : List Handler := [.stdException, .all]

/-- Where the worker stands in `run`: at `enter` it has read `running` as true and not yet called
`loop()`, `caught` is inside a handler, about to log, `finish` about to store `running = false` and
return. After an exception that no handler took, the worker is at `escaped`, where `std::terminate`
ends the process. -/
inductive WorkerPc
  | entry
  | inSetup
  | check
  | enter
  | inLoop
  | sleep
  | caught
  | finish
  | exited
  | escaped
  deriving DecidableEq, Repr

/-- What the code that `run` calls does next: go on or return, throw, or raise a callback. -/
inductive WorkerChoice
  | proceed
  | throws (x : Thrown)
  | raises
  deriving DecidableEq, Repr

/-- `returned` is the end of `run`. -/
inductive WorkerEvent
  | setup
  | loop
  | threw
  | callback
  | returned
  | escaped
  | quiet
  deriving DecidableEq, Repr

/-- The members `started`, `running` and `worker` of an instance; a worker that was never started is
not joinable. -/
structure Instance where
  started : Bool
  running : Bool
  worker : Option WorkerPc
  deriving DecidableEq, Repr

namespace Instance

def initial : Instance := ⟨false, false, none⟩

/-- Where an exception of `setup()` or `loop()` takes the worker. -/
def throws (i : Instance) (x : Thrown) : Instance × WorkerEvent :=
  match runHandlers.find? fun handler => handler.Catches x with
  | some _ => ({ i with worker := some .caught }, .threw)
  | none => ({ i with worker := some .escaped }, .escaped)

/-- One step of `run`. -/
def work (i : Instance) : WorkerChoice → Option (Instance × WorkerEvent)
  | .proceed =>
      match i.worker with
      | some .entry => some ({ i with worker := some .inSetup }, .setup)
      | some .inSetup => some ({ i with worker := some .check }, .quiet)
      | some .check =>
          if i.running then some ({ i with worker := some .enter }, .quiet)
          else some ({ i with worker := some .finish }, .quiet)
      | some .enter => some ({ i with worker := some .inLoop }, .loop)
      | some .inLoop => some ({ i with worker := some .sleep }, .quiet)
      | some .sleep => some ({ i with worker := some .check }, .quiet)
      | some .caught => some ({ i with worker := some .finish }, .callback)  -- `inst->log`
      | some .finish => some ({ i with running := false, worker := some .exited }, .returned)
      | _ => none
  | .throws x =>
      match i.worker with
      | some .inSetup | some .inLoop => some (i.throws x)
      -- a handler builds its message and calls `on_log` outside of any `try`
      | some .caught => some ({ i with worker := some .escaped }, .escaped)
      | _ => none
  | .raises =>
      match i.worker with
      | some .inSetup | some .inLoop => some (i, .callback)
      | _ => none

end Instance

/-! ## The process -/

inductive Slot
  | dataReady
  | signal
  | lineConfig
  | sink
  deriving DecidableEq, Repr

def installOrder : List Slot := [.dataReady, .signal, .lineConfig, .sink]

def uninstallOrder : List Slot := [.dataReady, .lineConfig, .signal, .sink]

inductive Cell
  | unborn
  | live (i : Instance)
  | deleted
  deriving DecidableEq, Repr

/-- Where a call stands. `install` and `uninstall` carry the slots still to be written; with none
left they publish the instance and lock the singleton mutex. -/
inductive Pc (ι : Type*)
  | createLock
  | createCheck
  | createRoot
  | createInit
  | createNew
  | install (h : ι) (todo : List Slot)
  | createUnlock (ret : Option ι)
  | createThrow
  | exchange (h : ι)
  | setRunning (h : ι)
  | spawn (h : ι)
  | startReturn (h : ι)
  | clearRunning (h : ι)
  | join (h : ι)
  | uninstall (h : ι) (todo : List Slot)
  | resetActive (h : ι)
  | destroyUnlock (h : ι)
  | shutdown (h : ι)
  | delete (h : ι)
  deriving DecidableEq, Repr

/-- The cells, the HAL's slots, `g_active_instance`, the owner of `g_singleton_mutex`, how often
`global_init` and `global_shutdown` were called, and the calls in progress. -/
structure Process (τ ι : Type*) where
  cell : ι → Cell
  slot : Slot → Option ι
  active : Option ι
  singleton : Option τ
  netInits : Nat
  netShutdowns : Nat
  pc : τ → Option (Pc ι)

inductive Choice (ι : Type*)
  | ok
  | fails
  | allocated (h : ι)
  deriving DecidableEq, Repr

/-- A configuration: `data_dir`, if it is not null. -/
structure HostConfig where
  dataDir : Option (List UInt8)
  deriving DecidableEq, Repr

def HostConfig.Usable (cfg : HostConfig) : Prop := cfg.dataDir ≠ none ∧ cfg.dataDir ≠ some []

instance (cfg : HostConfig) : Decidable cfg.Usable :=
  inferInstanceAs (Decidable (_ ∧ _))

inductive LifecycleAction (τ ι : Type*)
  | create (t : τ) (cfg : Option HostConfig)
  | start (t : τ) (h : Option ι)
  | destroy (t : τ) (h : Option ι)
  | advance (t : τ) (c : Choice ι)
  | work (h : ι) (c : WorkerChoice)
  deriving DecidableEq, Repr

inductive LifecycleEvent (τ ι : Type*)
  | quiet (t : τ)
  | globalInit (t : τ)
  | installed (t : τ) (h : ι) (k : Slot)
  | published (t : τ) (h : ι)
  | createReturned (t : τ) (h : Option ι)
  | createThrew (t : τ)
  | runningSet (t : τ) (h : ι)
  | spawned (t : τ) (h : ι)
  | startReturned (t : τ) (h : Option ι) (ret : Int)
  | startThrew (t : τ) (h : ι)
  | runningCleared (t : τ) (h : ι)
  | cleared (t : τ) (h : ι) (k : Slot)
  | reset (t : τ) (h : ι)
  | globalShutdown (t : τ) (h : ι)
  | destroyReturned (t : τ) (h : Option ι)
  | worker (h : ι) (e : WorkerEvent)
  deriving DecidableEq, Repr

namespace Process

variable {τ ι : Type*}

def initial : Process τ ι := ⟨fun _ => .unborn, fun _ => none, none, none, 0, 0, fun _ => none⟩

def instance? (s : Process τ ι) (h : ι) : Option Instance :=
  match s.cell h with
  | .live i => some i
  | _ => none

def workerAt (s : Process τ ι) (h : ι) : Option WorkerPc := (s.instance? h).bind Instance.worker

variable [DecidableEq τ] [DecidableEq ι]

def goto (s : Process τ ι) (t : τ) (pc : Option (Pc ι)) : Process τ ι :=
  { s with pc := Function.update s.pc t pc }

def setCell (s : Process τ ι) (h : ι) (c : Cell) : Process τ ι :=
  { s with cell := Function.update s.cell h c }

def setSlot (s : Process τ ι) (k : Slot) (h : Option ι) : Process τ ι :=
  { s with slot := Function.update s.slot k h }

/-- The steps of `zimodem_host_create` after the check of its argument. -/
def createStep (s : Process τ ι) (t : τ) (c : Choice ι) :
    Pc ι → Option (Process τ ι × LifecycleEvent τ ι)
  | .createLock =>
      if s.singleton = none then
        some ({ s with singleton := some t }.goto t (some .createCheck), .quiet t)
      else none
  | .createCheck =>
      let pc := if s.active = none then .createRoot else .createUnlock none
      some (s.goto t (some pc), .quiet t)
  | .createRoot =>
      let pc := if c = .fails then .createThrow else .createInit  -- `set_root` may throw
      some (s.goto t (some pc), .quiet t)
  | .createInit =>
      some ({ s with netInits := s.netInits + 1 }.goto t (some .createNew), .globalInit t)
  | .createNew =>
      match c with
      | .allocated h =>
          if s.cell h = .unborn then
            some ((s.setCell h (.live .initial)).goto t (some (.install h installOrder)), .quiet t)
          else none
      | _ => some (s.goto t (some (.createUnlock none)), .quiet t)
  | .install h (k :: todo) =>
      some ((s.setSlot k (some h)).goto t (some (.install h todo)), .installed t h k)
  | .install h [] =>
      some ({ s with active := some h }.goto t (some (.createUnlock (some h))), .published t h)
  | .createUnlock ret =>
      some ({ s with singleton := none }.goto t none, .createReturned t ret)
  | .createThrow => some ({ s with singleton := none }.goto t none, .createThrew t)
  | _ => none

/-- The steps of `zimodem_host_start` on a handle that is not null. -/
def startStep (s : Process τ ι) (t : τ) (c : Choice ι) (i : Instance) :
    Pc ι → Option (Process τ ι × LifecycleEvent τ ι)
  | .exchange h =>
      if i.started then some (s.goto t none, .startReturned t (some h) (-1))
      else
        some ((s.setCell h (.live { i with started := true })).goto t (some (.setRunning h)),
          .quiet t)
  | .setRunning h =>
      some ((s.setCell h (.live { i with running := true })).goto t (some (.spawn h)),
        .runningSet t h)
  | .spawn h =>
      if c = .fails then some (s.goto t none, .startThrew t h)  -- the `std::thread` constructor
      else
        some ((s.setCell h (.live { i with worker := some .entry })).goto t
          (some (.startReturn h)), .spawned t h)
  | .startReturn h => some (s.goto t none, .startReturned t (some h) 0)
  | _ => none

/-- The steps of `zimodem_host_destroy` on a handle that is not null. -/
def destroyStep (s : Process τ ι) (t : τ) (i : Instance) :
    Pc ι → Option (Process τ ι × LifecycleEvent τ ι)
  | .clearRunning h =>
      some ((s.setCell h (.live { i with running := false })).goto t (some (.join h)),
        .runningCleared t h)
  | .join h =>
      if i.worker = none ∨ i.worker = some .exited then
        some (s.goto t (some (.uninstall h uninstallOrder)), .quiet t)
      else none
  | .uninstall h (k :: todo) =>
      some ((s.setSlot k none).goto t (some (.uninstall h todo)), .cleared t h k)
  | .uninstall h [] =>
      if s.singleton = none then
        some ({ s with singleton := some t }.goto t (some (.resetActive h)), .quiet t)
      else none
  | .resetActive h =>
      let active := if s.active = some h then none else s.active
      some ({ s with active := active }.goto t (some (.destroyUnlock h)), .reset t h)
  | .destroyUnlock h =>
      some ({ s with singleton := none }.goto t (some (.shutdown h)), .quiet t)
  | .shutdown h =>
      some ({ s with netShutdowns := s.netShutdowns + 1 }.goto t (some (.delete h)),
        .globalShutdown t h)
  | .delete h => some ((s.setCell h .deleted).goto t none, .destroyReturned t (some h))
  | _ => none

/-- One step of a call in progress; a call on a handle dereferences it. -/
def advance (s : Process τ ι) (t : τ) (c : Choice ι) (pc : Pc ι) :
    Option (Process τ ι × LifecycleEvent τ ι) :=
  match pc with
  | .createLock | .createCheck | .createRoot | .createInit | .createNew | .install _ _
  | .createUnlock _ | .createThrow => s.createStep t c pc
  | .exchange h | .setRunning h | .spawn h | .startReturn h =>
      match s.instance? h with
      | some i => s.startStep t c i pc
      | none => none
  | .clearRunning h | .join h | .uninstall h _ | .resetActive h | .destroyUnlock h | .shutdown h
  | .delete h =>
      match s.instance? h with
      | some i => s.destroyStep t i pc
      | none => none

def call (s : Process τ ι) : LifecycleAction τ ι → Option (Process τ ι × LifecycleEvent τ ι)
  | .create t (some cfg) =>
      if cfg.Usable then some (s.goto t (some .createLock), .quiet t)
      else some (s, .createReturned t none)
  | .create t none => some (s, .createReturned t none)
  | .start t (some h) => some (s.goto t (some (.exchange h)), .quiet t)
  | .start t none => some (s, .startReturned t none (-1))
  | .destroy t (some h) => some (s.goto t (some (.clearRunning h)), .quiet t)
  | .destroy t none => some (s, .destroyReturned t none)
  | _ => none

def step (s : Process τ ι) (a : LifecycleAction τ ι) :
    Option (Process τ ι × LifecycleEvent τ ι) :=
  match a with
  | .create t _ | .start t _ | .destroy t _ => if s.pc t = none then s.call a else none
  | .advance t c =>
      match s.pc t with
      | some pc => s.advance t c pc
      | none => none
  | .work h c =>
      match s.instance? h with
      | some i =>
          match i.work c with
          | some (i', e) => some (s.setCell h (.live i'), .worker h e)
          | none => none
      | none => none

end Process

/-- The process under any number of calling threads and the workers they start. -/
def lifecycle (τ ι : Type*) [DecidableEq τ] [DecidableEq ι] :
    Machine (Process τ ι) (LifecycleAction τ ι) (LifecycleEvent τ ι) := ⟨Process.step⟩

/-! ## What the header asks of the callers -/

namespace Pc

variable {ι : Type*}

def handle : Pc ι → Option ι
  | install h _ | exchange h | setRunning h | spawn h | startReturn h | clearRunning h | join h
  | uninstall h _ | resetActive h | destroyUnlock h | shutdown h | delete h => some h
  | createUnlock ret => ret
  | createLock | createCheck | createRoot | createInit | createNew | createThrow => none

def Starts : Pc ι → Prop
  | exchange _ | setRunning _ | spawn _ | startReturn _ => True
  | _ => False

instance : (pc : Pc ι) → Decidable pc.Starts
  | exchange _ | setRunning _ | spawn _ | startReturn _ => .isTrue trivial
  | install _ _ | clearRunning _ | join _ | uninstall _ _ | resetActive _ | destroyUnlock _
  | shutdown _ | delete _ | createUnlock _ | createLock | createCheck | createRoot | createInit
  | createNew | createThrow => .isFalse id

end Pc

namespace Process

variable {τ ι : Type*}

/-- Handles are used from the return of `create` on and destroyed once, `destroy` overlaps no other
call on its handle. -/
def Contract (s : Process τ ι) : LifecycleAction τ ι → Prop
  | .start _ (some h) =>
      s.instance? h ≠ none ∧ ∀ t pc, s.pc t = some pc → pc.handle = some h → pc.Starts
  | .destroy _ (some h) =>
      s.instance? h ≠ none ∧ ∀ t pc, s.pc t = some pc → pc.handle ≠ some h
  | _ => True

instance [Fintype τ] [DecidableEq ι] (s : Process τ ι) : (a : LifecycleAction τ ι) →
    Decidable (s.Contract a)
  | .start _ (some h) => inferInstanceAs (Decidable (s.instance? h ≠ none ∧
      ∀ t, ∀ pc ∈ s.pc t, pc.handle = some h → pc.Starts))
  | .destroy _ (some h) => inferInstanceAs (Decidable (s.instance? h ≠ none ∧
      ∀ t, ∀ pc ∈ s.pc t, pc.handle ≠ some h))
  | .start _ none | .destroy _ none | .create _ _ | .advance _ _ | .work _ _ => .isTrue trivial

section Frames

variable {s : Process τ ι}

section Threads

variable [DecidableEq τ] {t : τ}

@[simp] theorem goto_self (pc : Option (Pc ι)) : (s.goto t pc).pc t = pc := by
  simp [goto]

theorem goto_other {t' : τ} (pc : Option (Pc ι)) (h : t' ≠ t) :
    (s.goto t pc).pc t' = s.pc t' := by
  simp [goto, h]

theorem goto_cases {new : Option (Pc ι)} {t' : τ} {pc : Pc ι}
    (hpc : (s.goto t new).pc t' = some pc) :
    t' ≠ t ∧ s.pc t' = some pc ∨ t' = t ∧ new = some pc := by
  by_cases ht : t' = t
  · rw [ht, goto_self] at hpc
    exact .inr ⟨ht, hpc⟩
  · rw [goto_other _ ht] at hpc
    exact .inl ⟨ht, hpc⟩

@[simp] theorem goto_instance (pc : Option (Pc ι)) (h : ι) :
    (s.goto t pc).instance? h = s.instance? h := rfl

end Threads

variable [DecidableEq ι] {h : ι}

@[simp] theorem setCell_instance_self (i : Instance) :
    (s.setCell h (.live i)).instance? h = some i := by
  simp [setCell, instance?]

theorem setCell_instance_other {h' : ι} (c : Cell) (hne : h' ≠ h) :
    (s.setCell h c).instance? h' = s.instance? h' := by
  simp [setCell, instance?, hne]

end Frames

/-! ## What one step can do -/

variable [DecidableEq τ] [DecidableEq ι]

inductive CreateCase (s : Process τ ι) (t : τ) : Process τ ι → LifecycleEvent τ ι → Prop
  | lock : s.pc t = some .createLock → s.singleton = none →
      CreateCase s t ({ s with singleton := some t }.goto t (some .createCheck)) (.quiet t)
  | occupied : s.pc t = some .createCheck → s.active ≠ none →
      CreateCase s t (s.goto t (some (.createUnlock none))) (.quiet t)
  | vacant : s.pc t = some .createCheck → s.active = none →
      CreateCase s t (s.goto t (some .createRoot)) (.quiet t)
  | rootFails : s.pc t = some .createRoot →
      CreateCase s t (s.goto t (some .createThrow)) (.quiet t)
  | root : s.pc t = some .createRoot → CreateCase s t (s.goto t (some .createInit)) (.quiet t)
  | init : s.pc t = some .createInit →
      CreateCase s t ({ s with netInits := s.netInits + 1 }.goto t (some .createNew)) (.globalInit t)
  | new (h : ι) : s.pc t = some .createNew → s.cell h = .unborn →
      CreateCase s t ((s.setCell h (.live .initial)).goto t (some (.install h installOrder)))
        (.quiet t)
  | newFails : s.pc t = some .createNew →
      CreateCase s t (s.goto t (some (.createUnlock none))) (.quiet t)
  | install (h : ι) (k : Slot) (todo : List Slot) : s.pc t = some (.install h (k :: todo)) →
      CreateCase s t ((s.setSlot k (some h)).goto t (some (.install h todo))) (.installed t h k)
  | publish (h : ι) : s.pc t = some (.install h []) →
      CreateCase s t ({ s with active := some h }.goto t (some (.createUnlock (some h))))
        (.published t h)
  | unlock (ret : Option ι) : s.pc t = some (.createUnlock ret) →
      CreateCase s t ({ s with singleton := none }.goto t none) (.createReturned t ret)
  | throw : s.pc t = some .createThrow →
      CreateCase s t ({ s with singleton := none }.goto t none) (.createThrew t)

inductive StartCase (s : Process τ ι) (t : τ) (h : ι) (i : Instance) :
    Process τ ι → LifecycleEvent τ ι → Prop
  | again : s.pc t = some (.exchange h) → i.started = true →
      StartCase s t h i (s.goto t none) (.startReturned t (some h) (-1))
  | first : s.pc t = some (.exchange h) → i.started = false →
      StartCase s t h i
        ((s.setCell h (.live { i with started := true })).goto t (some (.setRunning h))) (.quiet t)
  | setRunning : s.pc t = some (.setRunning h) →
      StartCase s t h i ((s.setCell h (.live { i with running := true })).goto t (some (.spawn h)))
        (.runningSet t h)
  | spawnFails : s.pc t = some (.spawn h) → StartCase s t h i (s.goto t none) (.startThrew t h)
  | spawn : s.pc t = some (.spawn h) →
      StartCase s t h i
        ((s.setCell h (.live { i with worker := some .entry })).goto t (some (.startReturn h)))
        (.spawned t h)
  | done : s.pc t = some (.startReturn h) →
      StartCase s t h i (s.goto t none) (.startReturned t (some h) 0)

inductive DestroyCase (s : Process τ ι) (t : τ) (h : ι) (i : Instance) :
    Process τ ι → LifecycleEvent τ ι → Prop
  | clearRunning : s.pc t = some (.clearRunning h) →
      DestroyCase s t h i
        ((s.setCell h (.live { i with running := false })).goto t (some (.join h)))
        (.runningCleared t h)
  | join : s.pc t = some (.join h) → i.worker = none ∨ i.worker = some .exited →
      DestroyCase s t h i (s.goto t (some (.uninstall h uninstallOrder))) (.quiet t)
  | uninstall (k : Slot) (todo : List Slot) : s.pc t = some (.uninstall h (k :: todo)) →
      DestroyCase s t h i ((s.setSlot k none).goto t (some (.uninstall h todo))) (.cleared t h k)
  | lock : s.pc t = some (.uninstall h []) → s.singleton = none →
      DestroyCase s t h i ({ s with singleton := some t }.goto t (some (.resetActive h))) (.quiet t)
  | reset : s.pc t = some (.resetActive h) →
      DestroyCase s t h i
        ({ s with active := if s.active = some h then none else s.active }.goto t
          (some (.destroyUnlock h))) (.reset t h)
  | unlock : s.pc t = some (.destroyUnlock h) →
      DestroyCase s t h i ({ s with singleton := none }.goto t (some (.shutdown h))) (.quiet t)
  | shutdown : s.pc t = some (.shutdown h) →
      DestroyCase s t h i
        ({ s with netShutdowns := s.netShutdowns + 1 }.goto t (some (.delete h)))
        (.globalShutdown t h)
  | delete : s.pc t = some (.delete h) →
      DestroyCase s t h i ((s.setCell h .deleted).goto t none) (.destroyReturned t (some h))

/-- Every step of the process: a call that fails its argument check, the begin of a call, a step of
a call in progress, a step of a worker. -/
inductive StepCase (s : Process τ ι) :
    LifecycleAction τ ι → Process τ ι → LifecycleEvent τ ι → Prop
  | createRefused (t : τ) (cfg : Option HostConfig) :
      StepCase s (.create t cfg) s (.createReturned t none)
  | startRefused (t : τ) : StepCase s (.start t none) s (.startReturned t none (-1))
  | destroyRefused (t : τ) : StepCase s (.destroy t none) s (.destroyReturned t none)
  | createBegins (t : τ) (cfg : HostConfig) : s.pc t = none → cfg.Usable →
      StepCase s (.create t (some cfg)) (s.goto t (some .createLock)) (.quiet t)
  | startBegins (t : τ) (h : ι) : s.pc t = none →
      StepCase s (.start t (some h)) (s.goto t (some (.exchange h))) (.quiet t)
  | destroyBegins (t : τ) (h : ι) : s.pc t = none →
      StepCase s (.destroy t (some h)) (s.goto t (some (.clearRunning h))) (.quiet t)
  | creates (t : τ) (c : Choice ι) {s' : Process τ ι} {o : LifecycleEvent τ ι} :
      s.CreateCase t s' o → StepCase s (.advance t c) s' o
  | starts (t : τ) (c : Choice ι) (h : ι) (i : Instance) {s' : Process τ ι}
      {o : LifecycleEvent τ ι} : s.instance? h = some i → s.StartCase t h i s' o →
      StepCase s (.advance t c) s' o
  | destroys (t : τ) (c : Choice ι) (h : ι) (i : Instance) {s' : Process τ ι}
      {o : LifecycleEvent τ ι} : s.instance? h = some i → s.DestroyCase t h i s' o →
      StepCase s (.advance t c) s' o
  | works (h : ι) (c : WorkerChoice) (i i' : Instance) (e : WorkerEvent) :
      s.instance? h = some i → i.work c = some (i', e) →
      StepCase s (.work h c) (s.setCell h (.live i')) (.worker h e)

variable {s s' : Process τ ι} {t : τ} {pc : Pc ι} {o : LifecycleEvent τ ι}

theorem createStep_cases {c : Choice ι} (hpc : s.pc t = some pc)
    (hstep : s.createStep t c pc = some (s', o)) : s.CreateCase t s' o := by
  cases pc with
  | createLock =>
      by_cases hfree : s.singleton = none
      · simp only [createStep, if_pos hfree] at hstep
        cases hstep
        exact .lock hpc hfree
      · simp only [createStep, if_neg hfree] at hstep
        cases hstep
  | createCheck =>
      cases hstep
      by_cases hnone : s.active = none
      · rw [if_pos hnone]
        exact .vacant hpc hnone
      · rw [if_neg hnone]
        exact .occupied hpc hnone
  | createRoot =>
      cases hstep
      by_cases hfails : c = .fails
      · rw [if_pos hfails]
        exact .rootFails hpc
      · rw [if_neg hfails]
        exact .root hpc
  | createInit =>
      cases hstep
      exact .init hpc
  | createNew =>
      cases c with
      | allocated h =>
          by_cases hfresh : s.cell h = .unborn
          · simp only [createStep, if_pos hfresh] at hstep
            cases hstep
            exact .new h hpc hfresh
          · simp only [createStep, if_neg hfresh] at hstep
            cases hstep
      | ok | fails =>
          cases hstep
          exact .newFails hpc
  | install h todo =>
      cases todo with
      | nil =>
          cases hstep
          exact .publish h hpc
      | cons k todo =>
          cases hstep
          exact .install h k todo hpc
  | createUnlock ret =>
      cases hstep
      exact .unlock ret hpc
  | createThrow =>
      cases hstep
      exact .throw hpc
  | _ => cases hstep

theorem startStep_cases {c : Choice ι} {h : ι} {i : Instance} (hpc : s.pc t = some pc)
    (hh : pc.handle = some h) (hstep : s.startStep t c i pc = some (s', o)) :
    s.StartCase t h i s' o := by
  cases pc with
  | exchange h' =>
      cases hh
      by_cases hstarted : i.started = true
      · simp only [startStep, if_pos hstarted] at hstep
        cases hstep
        exact .again hpc hstarted
      · simp only [startStep, if_neg hstarted] at hstep
        cases hstep
        exact .first hpc (by simpa using hstarted)
  | setRunning h' =>
      cases hh
      cases hstep
      exact .setRunning hpc
  | spawn h' =>
      cases hh
      by_cases hfails : c = .fails
      · simp only [startStep, if_pos hfails] at hstep
        cases hstep
        exact .spawnFails hpc
      · simp only [startStep, if_neg hfails] at hstep
        cases hstep
        exact .spawn hpc
  | startReturn h' =>
      cases hh
      cases hstep
      exact .done hpc
  | _ => cases hstep

theorem destroyStep_cases {h : ι} {i : Instance} (hpc : s.pc t = some pc)
    (hh : pc.handle = some h) (hstep : s.destroyStep t i pc = some (s', o)) :
    s.DestroyCase t h i s' o := by
  cases pc with
  | join h' =>
      cases hh
      by_cases hdone : i.worker = none ∨ i.worker = some .exited
      · simp only [destroyStep, if_pos hdone] at hstep
        cases hstep
        exact .join hpc hdone
      · simp only [destroyStep, if_neg hdone] at hstep
        cases hstep
  | uninstall h' todo =>
      cases hh
      cases todo with
      | cons k todo =>
          cases hstep
          exact .uninstall k todo hpc
      | nil =>
          by_cases hfree : s.singleton = none
          · simp only [destroyStep, if_pos hfree] at hstep
            cases hstep
            exact .lock hpc hfree
          · simp only [destroyStep, if_neg hfree] at hstep
            cases hstep
  | clearRunning h' =>
      cases hh
      cases hstep
      exact .clearRunning hpc
  | resetActive h' =>
      cases hh
      cases hstep
      exact .reset hpc
  | destroyUnlock h' =>
      cases hh
      cases hstep
      exact .unlock hpc
  | shutdown h' =>
      cases hh
      cases hstep
      exact .shutdown hpc
  | delete h' =>
      cases hh
      cases hstep
      exact .delete hpc
  | _ => cases hstep

theorem advance_cases {c : Choice ι} (hpc : s.pc t = some pc)
    (hstep : s.advance t c pc = some (s', o)) : s.StepCase (.advance t c) s' o := by
  cases pc with
  | createLock | createCheck | createRoot | createInit | createNew | install | createUnlock
  | createThrow =>
      simp only [advance] at hstep
      exact .creates t c (createStep_cases hpc hstep)
  | exchange h | setRunning h | spawn h | startReturn h =>
      cases hi : s.instance? h with
      | none => simp [advance, hi] at hstep
      | some i =>
          simp only [advance, hi] at hstep
          exact .starts t c h i hi (startStep_cases hpc rfl hstep)
  | clearRunning h | join h | uninstall h | resetActive h | destroyUnlock h | shutdown h
  | delete h =>
      cases hi : s.instance? h with
      | none => simp [advance, hi] at hstep
      | some i =>
          simp only [advance, hi] at hstep
          exact .destroys t c h i hi (destroyStep_cases hpc rfl hstep)

theorem call_cases {a : LifecycleAction τ ι} {t : τ} (hpc : s.pc t = none)
    (ha : (∃ cfg, a = .create t cfg) ∨ (∃ h, a = .start t h) ∨ ∃ h, a = .destroy t h)
    (hstep : s.call a = some (s', o)) : s.StepCase a s' o := by
  rcases ha with ⟨cfg, rfl⟩ | ⟨h, rfl⟩ | ⟨h, rfl⟩
  · cases cfg with
    | none =>
        cases hstep
        exact .createRefused t none
    | some cfg =>
        by_cases husable : cfg.Usable
        · simp only [call, if_pos husable] at hstep
          cases hstep
          exact .createBegins t cfg hpc husable
        · simp only [call, if_neg husable] at hstep
          cases hstep
          exact .createRefused t (some cfg)
  · cases h with
    | none =>
        cases hstep
        exact .startRefused t
    | some h =>
        cases hstep
        exact .startBegins t h hpc
  · cases h with
    | none =>
        cases hstep
        exact .destroyRefused t
    | some h =>
        cases hstep
        exact .destroyBegins t h hpc

theorem step_cases {a : LifecycleAction τ ι} (hstep : s.step a = some (s', o)) :
    s.StepCase a s' o := by
  cases a with
  | create t x | start t x | destroy t x =>
      simp only [step] at hstep
      by_cases hpc : s.pc t = none
      · rw [if_pos hpc] at hstep
        exact call_cases hpc (by simp) hstep
      · rw [if_neg hpc] at hstep
        cases hstep
  | advance t c =>
      simp only [step] at hstep
      cases hpc : s.pc t with
      | none => simp [hpc] at hstep
      | some pc =>
          rw [hpc] at hstep
          exact advance_cases hpc hstep
  | work h c =>
      simp only [step] at hstep
      cases hi : s.instance? h with
      | none => simp [hi] at hstep
      | some i =>
          rw [hi] at hstep
          cases hw : i.work c with
          | none => simp [hw] at hstep
          | some r =>
              simp only [hw] at hstep
              cases hstep
              exact .works h c i r.1 r.2 hi hw

end Process

end ZiModem.Wrapper
