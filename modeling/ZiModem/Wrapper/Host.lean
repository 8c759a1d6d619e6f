import ZiModem.Hal.Pins
import ZiModem.Hal.Serial
import ZiModem.Reactive.Machine
import ZiModem.Wrapper.Callbacks
import ZiModem.Wrapper.Lifecycle

/-! # The C ABI over the HAL's process-wide state

The functions of `zimodem_host.h`, each as one call on the state they share: the
queues and line settings of `serial_port.cpp`, the table of `pins.cpp`, and the
instances. A handle is null or names an instance; what a HAL callback slot holds
is the instance its closure captures. The firmware reaches the same state
through its own calls, from the worker of a started instance.
-/

namespace ZiModem.Wrapper

open Reactive ZiModem.Hal

/-- `zimodem_instance`, without the worker. A null context is `none`. -/
structure HostInstance (φ ν : Type*) where
  started : Bool
  callbacks : Callbacks φ (Option ν)
  deriving DecidableEq, Repr

def HostInstance.initial {φ ν : Type*} : HostInstance φ ν :=
  ⟨false, ⟨none, none, none, none, none⟩⟩

structure Host (ι φ ν : Type*) where
  serial : Serial ι
  pins : Pins ι
  sink : Option ι
  active : Option ι
  instance? : ι → Option (HostInstance φ ν)

/-- What the surroundings decide in `create`: `set_root` throws, the allocation fails, or it
succeeds. -/
inductive CreateOutcome (ι : Type*)
  | rootFails
  | newFails
  | allocated (h : ι)
  deriving DecidableEq, Repr

/-- `create` returns a handle or null, or an exception leaves it. -/
inductive CreateResult (ι : Type*)
  | returned (h : Option ι)
  | threw
  deriving DecidableEq, Repr

inductive FirmwareCall
  | available
  | read
  | peek
  | write (data : List UInt8)
  | setLineConfig (baud : Nat) (config : UInt32)
  | setLineBaud (baud : Nat)
  | digitalWrite (pin value : Int)
  | digitalRead (pin : Int)
  deriving DecidableEq, Repr

namespace Host

variable {ι φ ν : Type*}

def initial : Host ι φ ν := ⟨.initial, .initial, none, none, fun _ => none⟩

section Abi

variable (s : Host ι φ ν)

/-- `zimodem_host_create` after the allocation: the four slots, then `g_active_instance`. -/
def install [DecidableEq ι] (h : ι) : Host ι φ ν :=
  { serial := (s.serial.setDataReadyCallback (some h)).setLineConfigCallback (some h)
    pins := s.pins.setSignalCallback (some h)
    sink := some h
    active := some h
    instance? := Function.update s.instance? h (some .initial) }

def create [DecidableEq ι] (cfg : Option HostConfig) (c : CreateOutcome ι) :
    Host ι φ ν × CreateResult ι :=
  match cfg with
  | none => (s, .returned none)
  | some cfg =>
      if cfg.Usable ∧ s.active = none then
        match c with
        | .rootFails => (s, .threw)
        | .newFails => (s, .returned none)
        | .allocated h => (s.install h, .returned (some h))
      else (s, .returned none)

/-- `zimodem_host_destroy`, with the worker joined. -/
def destroy [DecidableEq ι] (h : Option ι) : Host ι φ ν :=
  match h with
  | none => s
  | some h =>
      { serial := (s.serial.setDataReadyCallback none).setLineConfigCallback none
        pins := s.pins.setSignalCallback none
        sink := none
        active := if s.active = some h then none else s.active
        instance? := Function.update s.instance? h none }

def modify [DecidableEq ι] (h : ι) (f : HostInstance φ ν → HostInstance φ ν) : Host ι φ ν :=
  { s with instance? := Function.update s.instance? h ((s.instance? h).map f) }

def setCallbacks [DecidableEq ι] (h : Option ι) (cbs : Callbacks φ (Option ν)) : Host ι φ ν :=
  match h with
  | none => s
  | some h => s.modify h fun i => { i with callbacks := cbs }

def start [DecidableEq ι] (h : Option ι) : Host ι φ ν × Int :=
  match h with
  | none => (s, -1)
  | some h =>
      if (s.instance? h).any (·.started) then (s, -1)
      else (s.modify h fun i => { i with started := true }, 0)

def writeSerial (h : Option ι) (data : List UInt8) : Host ι φ ν × Int :=
  match h with
  | none => (s, -1)
  | some _ => ({ s with serial := s.serial.feedInput data }, 0)

def rxAvailable (h : Option ι) : Int :=
  match h with
  | none => 0
  | some _ => if s.serial.rxAvailable then 1 else 0

def rxRead (h : Option ι) : Host ι φ ν × Int :=
  match h with
  | none => (s, -1)
  | some _ => ({ s with serial := s.serial.rxRead.1 }, s.serial.rxRead.2)

def setPin (h : Option ι) (pin value : Int) : Host ι φ ν :=
  match h with
  | none => s
  | some _ => { s with pins := (s.pins.digitalWrite pin value).1 }

def getLineConfig (h : Option ι) : LineSettings :=
  match h with
  | none => ⟨0, 0, .none, 0⟩
  | some _ => LineSettings.of s.serial.getLineConfig.1 s.serial.getLineConfig.2

def Runs : Prop := ∃ h i, s.active = some h ∧ s.instance? h = some i ∧ i.started = true

instance : Decidable s.Runs :=
  decidable_of_iff (∃ h ∈ s.active, ∃ i ∈ s.instance? h, i.started = true) (by simp [Runs])

end Abi

/-! ## Runs -/

/-- A call of the ABI, with its handle, or of the HAL by the firmware. -/
inductive Call (ι φ ν : Type*)
  | create (cfg : Option HostConfig) (c : CreateOutcome ι)
  | setCallbacks (h : Option ι) (cbs : Callbacks φ (Option ν))
  | start (h : Option ι)
  | writeSerial (h : Option ι) (data : List UInt8)
  | rxAvailable (h : Option ι)
  | rxRead (h : Option ι)
  | setPin (h : Option ι) (pin value : Int)
  | getLineConfig (h : Option ι)
  | destroy (h : Option ι)
  | firmware (c : FirmwareCall)
  deriving DecidableEq, Repr

def Call.handle : Call ι φ ν → Option ι
  | create _ _ | firmware _ => none
  | setCallbacks h _ | start h | writeSerial h _ | rxAvailable h | rxRead h | setPin h _ _
  | getLineConfig h | destroy h => h

/-- What a call did to the queues, the line settings and the pins. -/
inductive Seen (ι : Type*)
  | created (result : CreateResult ι)
  | fed (data : List UInt8)
  | read (ret : Int)
  | wrote (data : List UInt8)
  | polled (ret : Int)
  | line (baud : Nat) (config : UInt32)
  | baud (baud : Nat)
  | pin (pin value : Int)
  | quiet
  deriving DecidableEq, Repr

def firmware (s : Host ι φ ν) : FirmwareCall → Host ι φ ν × Seen ι
  | .available | .peek | .digitalRead _ => (s, .quiet)
  | .read => ({ s with serial := s.serial.read.1 }, .read s.serial.read.2)
  | .write data => ({ s with serial := (s.serial.write data).1 }, .wrote data)
  | .setLineConfig baud config =>
      ({ s with serial := (s.serial.setLineConfig baud config).1 }, .line baud config)
  | .setLineBaud baud => ({ s with serial := (s.serial.setLineBaud baud).1 }, .baud baud)
  | .digitalWrite pin value =>
      ({ s with pins := (s.pins.digitalWrite pin value).1 }, .pin pin value)

variable [DecidableEq ι]

/-- A call on a handle that is not null dereferences it; the firmware calls while a worker runs. -/
def step (s : Host ι φ ν) (a : Call ι φ ν) : Option (Host ι φ ν × Seen ι) :=
  if ∃ h, a.handle = some h ∧ s.instance? h = none then none
  else
    match a with
    | .create cfg c => some ((s.create cfg c).1, .created (s.create cfg c).2)
    | .setCallbacks h cbs => some (s.setCallbacks h cbs, .quiet)
    | .start h => some ((s.start h).1, .quiet)
    | .writeSerial h data => some ((s.writeSerial h data).1, .fed (if h = none then [] else data))
    | .rxAvailable _ | .getLineConfig _ => some (s, .quiet)
    | .rxRead h => some ((s.rxRead h).1, .polled (s.rxRead h).2)
    | .setPin h pin value =>
        some (s.setPin h pin value, if h = none then .quiet else .pin pin value)
    | .destroy h => some (s.destroy h, .quiet)
    | .firmware c => if s.Runs then some (s.firmware c) else none

end Host

def host (ι φ ν : Type*) [DecidableEq ι] : Machine (Host ι φ ν) (Host.Call ι φ ν) (Host.Seen ι) :=
  ⟨Host.step⟩

/-! ## A call as a run of its steps -/

namespace Host

variable {τ ι φ ν : Type*}

def slot (s : Host ι φ ν) : Slot → Option ι
  | .dataReady => s.serial.dataReady
  | .signal => s.pins.callback
  | .lineConfig => s.serial.lineConfigCallback
  | .sink => s.sink

/-- The process that steps and the one that makes whole calls have the same active instance and the
same callbacks. -/
structure Shows (p : Process τ ι) (s : Host ι φ ν) : Prop where
  active : p.active = s.active
  slot : p.slot = s.slot

theorem shows_of_run {M : Machine (Process τ ι) (LifecycleAction τ ι) (LifecycleEvent τ ι)}
    {p : Process τ ι} {as : List (LifecycleAction τ ι)} {s : Host ι φ ν}
    (hrun : (M.run p as).map (fun r => (r.1.active, r.1.slot)) = some (s.active, s.slot)) :
    ∃ p' os, M.run p as = some (p', os) ∧ Shows p' s := by
  obtain ⟨⟨p', os⟩, hrun, heq⟩ := Option.map_eq_some_iff.mp hrun
  obtain ⟨hactive, hslot⟩ := Prod.mk.inj heq
  exact ⟨p', os, hrun, hactive, hslot⟩

variable [DecidableEq τ] [DecidableEq ι] {p : Process τ ι} {s : Host ι φ ν} {t : τ} {h : ι}

/-- `create` is the run of its twelve steps that nothing interrupts. -/
theorem create_shows {cfg : HostConfig} (hshows : Shows p s) (hcfg : cfg.Usable)
    (hvacant : s.active = none) (hidle : p.pc t = none) (hfree : p.singleton = none)
    (hfresh : p.cell h = .unborn) :
    ∃ p' os, (lifecycle τ ι).run p
        (.create t (some cfg) :: List.replicate 4 (.advance t .ok) ++
          .advance t (.allocated h) :: List.replicate 6 (.advance t .ok)) = some (p', os) ∧
      Shows p' (s.create (some cfg) (.allocated h)).1 := by
  have hactive : p.active = none := hshows.active.trans hvacant
  have hcreate : (s.create (some cfg) (.allocated h)).1 = s.install h := by
    simp only [create, if_pos (And.intro hcfg hvacant)]
  have hslot : (s.install h).slot = fun _ => some h := by
    funext k
    cases k <;> rfl
  rw [hcreate]
  apply shows_of_run
  rw [hslot]
  simp [Machine.run, lifecycle, Process.step, Process.call, Process.advance, Process.createStep,
    Process.goto, Process.setCell, Process.setSlot, installOrder, List.replicate, hcfg, hidle,
    hfree, hactive, hfresh, install]
  funext k
  cases k <;> simp

/-- `destroy` is the run of its steps, once the worker has returned. -/
theorem destroy_shows {i : Instance} (hshows : Shows p s) (hactive : s.active = some h)
    (hidle : p.pc t = none) (hfree : p.singleton = none) (hlive : p.cell h = .live i)
    (hjoined : i.worker = none ∨ i.worker = some .exited) :
    ∃ p' os, (lifecycle τ ι).run p
        (.destroy t (some h) :: List.replicate 11 (.advance t .ok)) = some (p', os) ∧
      Shows p' (s.destroy (some h)) := by
  have hactive' : p.active = some h := hshows.active.trans hactive
  have hslot : (s.destroy (some h)).slot = fun _ => none := by
    funext k
    cases k <;> rfl
  apply shows_of_run
  rw [hslot]
  simp [Machine.run, lifecycle, Process.step, Process.call, Process.advance, Process.destroyStep,
    Process.goto, Process.setCell, Process.setSlot, Process.instance?, uninstallOrder,
    List.replicate, hidle, hfree, hactive', hlive, hjoined, destroy, hactive]
  funext k
  cases k <;> simp

end Host

end ZiModem.Wrapper
