import ZiModem.Wrapper.Dispatch
import ZiModem.Wrapper.Lifecycle

/-! # The process, thread by thread

The life of the instances and the dispatch of their events in one machine. A
thread of the host makes calls of the C ABI, the worker of an instance makes the
firmware's HAL calls; a slot of the HAL holds the instance that its closure
captures, and a call into the HAL goes on with a copy of that closure whatever
becomes of the slot and of the instance.
-/

namespace ZiModem.Wrapper

open Reactive ZiModem.Hal

/-! ## Threads, mutexes and blocks -/

inductive Runner (τ ι : Type*)
  | host (t : τ)
  | worker (h : ι)
  deriving DecidableEq, Repr

/-- The mutex of a HAL module, or the `callback_mutex` of an instance. -/
inductive Lock (ι : Type*)
  | module (m : Mutex)
  | callback (h : ι)
  deriving DecidableEq, Repr

inductive Task (ι φ ν : Type*)
  | hal (c : HalCall)
  | own (h : ι) (b : Block φ (Option ν))
  deriving DecidableEq, Repr

/-- The state behind the mutexes, with the callbacks of every instance. -/
structure Shared (ι φ ν : Type*) where
  serial : Serial ι
  pins : Pins ι
  sink : Option ι
  callbacks : ι → Callbacks φ (Option ν)

namespace Shared

variable {ι φ ν : Type*}

def initial : Shared ι φ ν := ⟨.initial, .initial, none, fun _ => ⟨none, none, none, none, none⟩⟩

def slot (s : Shared ι φ ν) : Slot → Option ι
  | .dataReady => s.serial.dataReady
  | .signal => s.pins.callback
  | .lineConfig => s.serial.lineConfigCallback
  | .sink => s.sink

def withSlots (s : Shared ι φ ν) (slot : Slot → Option ι) : Shared ι φ ν :=
  { s with
    serial :=
      (s.serial.setDataReadyCallback (slot .dataReady)).setLineConfigCallback (slot .lineConfig)
    pins := s.pins.setSignalCallback (slot .signal)
    sink := slot .sink }

/-- A HAL call up to the end of its critical section, with the closure it goes on to call and the
instance which that has captured. -/
def hal (s : Shared ι φ ν) : HalCall → Shared ι φ ν × Option (ι × Lambda)
  | .feedInput data => ({ s with serial := s.serial.feedInput data }, none)
  | .available | .peek | .rxAvailable | .getLineConfig | .digitalRead _ => (s, none)
  | .read => ({ s with serial := s.serial.read.1 }, none)
  | .rxRead => ({ s with serial := s.serial.rxRead.1 }, none)
  | .write data =>
      let (serial, cb) := s.serial.write data
      ({ s with serial := serial }, cb.map fun h => (h, .dataReady))
  | .setLineConfig baud config =>
      let (serial, cb) := s.serial.setLineConfig baud config
      ({ s with serial := serial }, cb.map fun (h, baud, config) => (h, .lineConfig baud config))
  | .setLineBaud baud =>
      let (serial, cb) := s.serial.setLineBaud baud
      ({ s with serial := serial }, cb.map fun (h, baud, config) => (h, .lineConfig baud config))
  | .digitalWrite pin value =>
      let (pins, cb) := s.pins.digitalWrite pin value
      ({ s with pins := pins }, cb.map fun (h, pin, value) => (h, .signal pin value))
  | .logWrite message => (s, s.sink.map fun h => (h, .log message))

/-- What the code of an instance sees of the state: its own callbacks. -/
def device (s : Shared ι φ ν) (h : ι) : Device φ (Option ν) :=
  ⟨.initial, .initial, none, s.callbacks h⟩

end Shared

namespace Task

variable {ι φ ν : Type*}

/-- A block that the code of instance `h` goes on with: its own, or a HAL call. -/
def of (h : ι) : Block φ (Option ν) → Task ι φ ν
  | .hal c => .hal c
  | b => .own h b

def guard : Task ι φ ν → Option (Lock ι)
  | hal c => some (.module c.mutex)
  | own h b => b.guard.map fun _ => .callback h

/-- The firmware and the host call the HAL, the host replaces the callbacks, and the worker logs an
exception. -/
def entry : Task ι φ ν → Bool
  | hal _ => true
  | own _ b => b.entry

variable [DecidableEq ι]

def exec (s : Shared ι φ ν) (b : Task ι φ ν) (choice : Option UserCall) :
    Option (Effect (Shared ι φ ν) (Task ι φ ν) (ι × DispatchEvent φ (Option ν))) :=
  match b with
  | hal c =>
      some ⟨(s.hal c).1, none, .leave ((s.hal c).2.map fun (h, l) => own h (.lambda l))⟩
  | own h b =>
      (b.exec (s.device h) choice).map fun e =>
        ⟨{ s with callbacks := Function.update s.callbacks h e.shared.callbacks },
          e.seen.map fun o => (h, o), e.cont.map (of h)⟩

theorem guard_stay (s : Shared ι φ ν) (b : Task ι φ ν) (choice : Option UserCall)
    (e : Effect (Shared ι φ ν) (Task ι φ ν) (ι × DispatchEvent φ (Option ν))) (next : Task ι φ ν)
    (call : Option (Task ι φ ν)) (hexec : exec s b choice = some e)
    (hcont : e.cont = .stay next call) : guard next = guard b := by
  cases b with
  | hal c =>
      cases hexec
      cases hcont
  | own h b =>
      obtain ⟨e', hblock, rfl⟩ := Option.map_eq_some_iff.mp hexec
      cases Block.exec_cases hblock <;> cases hcont <;> rfl

end Task

def tasks (ι φ ν : Type*) [DecidableEq ι] : Program (Shared ι φ ν) (Lock ι) (Task ι φ ν)
    (Option UserCall) (ι × DispatchEvent φ (Option ν)) :=
  ⟨Task.guard, Task.entry, Task.exec, Task.guard_stay⟩

/-! ## The machine -/

structure Session (τ ι φ ν : Type*) where
  process : Process τ ι
  config : Config (Shared ι φ ν) (Lock ι) (Task ι φ ν) (Runner τ ι)

/-- What a host thread calls on a handle, besides `start` and `destroy`. -/
inductive HostCall (φ ν : Type*)
  | hal (c : UserCall)
  | setCallbacks (cbs : Callbacks φ (Option ν))
  deriving DecidableEq, Repr

def HostCall.task {ι φ ν : Type*} (h : ι) : HostCall φ ν → Task ι φ ν
  | hal c => .hal c.hal
  | setCallbacks cbs => .own h (.setCallbacks cbs)

/-- A step in the life of an instance, the log of a caught exception, the begin of a call by a host
thread or by the firmware, or a step of a call. -/
inductive SessionAction (τ ι φ ν : Type*)
  | life (a : LifecycleAction τ ι)
  | log (h : ι) (message : List UInt8)
  | call (t : τ) (h : ι) (c : HostCall φ ν)
  | firmware (h : ι) (c : HalCall)
  | run (r : Runner τ ι) (c : Option UserCall)
  deriving DecidableEq, Repr

inductive SessionEvent (τ ι φ ν : Type*)
  | life (e : LifecycleEvent τ ι)
  | thread (e : ThreadEvent (Runner τ ι) (ι × DispatchEvent φ (Option ν)))
  deriving DecidableEq, Repr

namespace Session

variable {τ ι φ ν : Type*}

def initial : Session τ ι φ ν := ⟨.initial, Config.idle .initial⟩

/-- The thread that makes the step is in no other call. A worker that has caught an exception logs
it before it goes on. -/
def Ready (s : Session τ ι φ ν) : LifecycleAction τ ι → Prop
  | .create t _ | .start t _ | .destroy t _ | .advance t _ => s.config.stack (.host t) = []
  | .work h c =>
      s.config.stack (.worker h) = [] ∧ (s.process.workerAt h = some .caught → c ≠ .proceed) ∧
        c ≠ .raises

def InFirmware (s : Session τ ι φ ν) (h : ι) : Prop :=
  s.process.workerAt h = some .inSetup ∨ s.process.workerAt h = some .inLoop

instance (s : Session τ ι φ ν) : DecidablePred s.Ready
  | .create _ _ | .start _ _ | .destroy _ _ | .advance _ _ => inferInstanceAs (Decidable (_ = []))
  | .work _ _ => inferInstanceAs (Decidable (_ = [] ∧ (_ → _ ≠ _) ∧ _ ≠ _))

instance (s : Session τ ι φ ν) (h : ι) : Decidable (s.InFirmware h) :=
  inferInstanceAs (Decidable (_ ∨ _))

variable [DecidableEq τ] [DecidableEq ι]

def thread (s : Session τ ι φ ν)
    (a : ThreadAction (Runner τ ι) (Task ι φ ν) (Option UserCall)) :
    Option (Session τ ι φ ν × SessionEvent τ ι φ ν) :=
  ((tasks ι φ ν).step s.config a).map fun r => (⟨s.process, r.1⟩, .thread r.2)

def step (s : Session τ ι φ ν) :
    SessionAction τ ι φ ν → Option (Session τ ι φ ν × SessionEvent τ ι φ ν)
  | .life a =>
      if s.Ready a then
        -- a slot is written under its module's mutex, and a critical section is one step
        (s.process.step a).map fun r =>
          (⟨r.1, { s.config with shared := s.config.shared.withSlots r.1.slot }⟩, .life r.2)
      else none
  | .log h message =>
      if s.config.stack (.worker h) = [] ∧ s.process.workerAt h = some .caught then
        (s.process.step (.work h .proceed)).map fun r =>
          (⟨r.1, s.config.setStack (.worker h) [.enter (.own h (.lambda (.log message)))]⟩,
            .life r.2)
      else none
  | .call t h c => if s.process.pc t = none then s.thread (.call (.host t) (c.task h)) else none
  | .firmware h c => if s.InFirmware h then s.thread (.call (.worker h) (.hal c)) else none
  | .run r c => s.thread (.advance r c)

/-- Handles are used from the return of `create` on, and `destroy` overlaps no life-cycle call on
its handle. The header asks for more, but this is all that keeps the process in order. -/
def Contract (s : Session τ ι φ ν) : SessionAction τ ι φ ν → Prop
  | .life a => s.process.Contract a
  | .call _ h _ => s.process.instance? h ≠ none
  | _ => True

instance [Fintype τ] (s : Session τ ι φ ν) (a : SessionAction τ ι φ ν) :
    Decidable (s.Contract a) :=
  match a with
  | .life a => inferInstanceAs (Decidable (s.process.Contract a))
  | .call _ h _ => inferInstanceAs (Decidable (s.process.instance? h ≠ none))
  | .log _ _ | .firmware _ _ | .run _ _ => .isTrue trivial

/-- What the header asks: nothing else is called with a handle while `destroy` runs, so none of the
other calls is in progress when it begins, and none begins before it has returned. A call does not
show its handle, so this one has no other beside it at all. -/
def HeaderContract (s : Session τ ι φ ν) : SessionAction τ ι φ ν → Prop
  | .life (.destroy t (some h)) =>
      s.process.Contract (.destroy t (some h)) ∧ ∀ t', s.config.stack (.host t') = []
  | .call _ h _ =>
      s.process.instance? h ≠ none ∧
        ∀ t pc, s.process.pc t = some pc → pc.handle = some h → pc.Starts
  | a => s.Contract a

end Session

/-- The process under any number of host threads, with the workers they start. -/
def session (τ ι φ ν : Type*) [DecidableEq τ] [DecidableEq ι] :
    Machine (Session τ ι φ ν) (SessionAction τ ι φ ν) (SessionEvent τ ι φ ν) := ⟨Session.step⟩

/-! ## What one step can be -/

namespace Session

variable {τ ι φ ν : Type*} [DecidableEq τ] [DecidableEq ι]

inductive Makes (s : Session τ ι φ ν) :
    SessionAction τ ι φ ν → ThreadAction (Runner τ ι) (Task ι φ ν) (Option UserCall) → Prop
  | call (t : τ) (h : ι) (c : HostCall φ ν) : Makes s (.call t h c) (.call (.host t) (c.task h))
  | firmware (h : ι) (c : HalCall) : s.InFirmware h →
      Makes s (.firmware h c) (.call (.worker h) (.hal c))
  | run (r : Runner τ ι) (c : Option UserCall) : Makes s (.run r c) (.advance r c)

inductive StepCase (s : Session τ ι φ ν) :
    SessionAction τ ι φ ν → Session τ ι φ ν → SessionEvent τ ι φ ν → Prop
  | life (a : LifecycleAction τ ι) (p : Process τ ι) (e : LifecycleEvent τ ι) : s.Ready a →
      s.process.StepCase a p e →
      StepCase s (.life a) ⟨p, { s.config with shared := s.config.shared.withSlots p.slot }⟩
        (.life e)
  | log (h : ι) (message : List UInt8) (p : Process τ ι) (e : LifecycleEvent τ ι) :
      s.process.workerAt h = some .caught → s.process.StepCase (.work h .proceed) p e →
      StepCase s (.log h message)
        ⟨p, s.config.setStack (.worker h) [.enter (.own h (.lambda (.log message)))]⟩ (.life e)
  | thread (a : SessionAction τ ι φ ν)
      (b : ThreadAction (Runner τ ι) (Task ι φ ν) (Option UserCall))
      (c : Config (Shared ι φ ν) (Lock ι) (Task ι φ ν) (Runner τ ι))
      (e : ThreadEvent (Runner τ ι) (ι × DispatchEvent φ (Option ν))) : s.Makes a b →
      (tasks ι φ ν).step s.config b = some (c, e) → StepCase s a ⟨s.process, c⟩ (.thread e)

variable {s s' : Session τ ι φ ν} {a : SessionAction τ ι φ ν} {o : SessionEvent τ ι φ ν}

theorem thread_cases {b : ThreadAction (Runner τ ι) (Task ι φ ν) (Option UserCall)}
    (hmakes : s.Makes a b) (hstep : s.thread b = some (s', o)) : s.StepCase a s' o := by
  obtain ⟨⟨c, e⟩, htask, heq⟩ := Option.map_eq_some_iff.mp hstep
  cases heq
  exact .thread a b c e hmakes htask

theorem step_cases (hstep : (session τ ι φ ν).step s a = some (s', o)) : s.StepCase a s' o := by
  cases a with
  | life a =>
      simp only [session, step] at hstep
      split at hstep
      next hready =>
        obtain ⟨⟨p, e⟩, hlife, heq⟩ := Option.map_eq_some_iff.mp hstep
        cases heq
        exact .life a p e hready (Process.step_cases hlife)
      next => cases hstep
  | log h message =>
      simp only [session, step] at hstep
      split at hstep
      next hcaught =>
        obtain ⟨⟨p, e⟩, hlife, heq⟩ := Option.map_eq_some_iff.mp hstep
        cases heq
        exact .log h message p e hcaught.2 (Process.step_cases hlife)
      next => cases hstep
  | call t h c =>
      simp only [session, step] at hstep
      split at hstep
      next => exact thread_cases (.call t h c) hstep
      next => cases hstep
  | firmware h c =>
      simp only [session, step] at hstep
      split at hstep
      next hfirmware => exact thread_cases (.firmware h c hfirmware) hstep
      next => cases hstep
  | run r c => exact thread_cases (.run r c) hstep

end Session

end ZiModem.Wrapper
