import ZiModem.Hal.Pins
import ZiModem.Hal.Serial
import ZiModem.Reactive.Locking
import ZiModem.Wrapper.Callbacks

/-! # From the HAL to the user's callbacks

The blocks of code between a call into the HAL and the user's callback, each
with the mutex it runs under, for one live instance. A HAL function changes its
own module's state under that module's lock and calls a copied closure after it;
the closures of `zimodem_host_create` run under `callback_mutex`, and all but
one of them call the user from there. A user callback is any sequence of the
calls that the header allows it, so what such a call returns is not recorded.
-/

namespace ZiModem.Wrapper

open Reactive ZiModem.Hal

/-- `serial::g_mutex`, `pins::g_mutex`, `log::g_mutex` and the instance's `callback_mutex`. -/
inductive Mutex
  | serial
  | pins
  | log
  | callback
  deriving DecidableEq, Repr

/-- The state behind the four mutexes. The closures in the slots are those of the one live
instance, so a slot is empty or holds the only closure of its kind. -/
structure Device (φ ν : Type*) where
  serial : Serial Unit
  pins : Pins Unit
  sink : Option Unit
  callbacks : Callbacks φ ν

inductive HalCall
  | feedInput (data : List UInt8)
  | available
  | read
  | peek
  | write (data : List UInt8)
  | rxAvailable
  | rxRead
  | setLineConfig (baud : Nat) (config : UInt32)
  | setLineBaud (baud : Nat)
  | getLineConfig
  | digitalWrite (pin value : Int)
  | digitalRead (pin : Int)
  | logWrite (message : List UInt8)
  deriving DecidableEq, Repr

/-- The closures that `zimodem_host_create` installs, with their arguments. -/
inductive Lambda
  | dataReady
  | signal (pin value : Int)
  | log (message : List UInt8)
  | lineConfig (baud : Nat) (config : UInt32)
  deriving DecidableEq, Repr

inductive UserCall
  | writeSerial (data : List UInt8)
  | rxAvailable
  | rxRead
  | setPin (pin value : Int)
  | getLineConfig
  deriving DecidableEq, Repr

namespace HalCall

def mutex : HalCall → Mutex
  | digitalWrite _ _ | digitalRead _ => .pins
  | logWrite _ => .log
  | _ => .serial

end HalCall

def UserCall.hal : UserCall → HalCall
  | writeSerial data => .feedInput data
  | rxAvailable => .rxAvailable
  | rxRead => .rxRead
  | setPin pin value => .digitalWrite pin value
  | getLineConfig => .getLineConfig

namespace Device

variable {φ ν : Type*}

/-- A HAL call up to the end of its critical section, with the closure it goes on to call. -/
def hal (d : Device φ ν) : HalCall → Device φ ν × Option Lambda
  | .feedInput data => ({ d with serial := d.serial.feedInput data }, none)
  | .available | .peek | .rxAvailable | .getLineConfig | .digitalRead _ => (d, none)
  | .read => ({ d with serial := d.serial.read.1 }, none)
  | .rxRead => ({ d with serial := d.serial.rxRead.1 }, none)
  | .write data =>
      let (serial, cb) := d.serial.write data
      ({ d with serial := serial }, cb.map fun _ => .dataReady)
  | .setLineConfig baud config =>
      let (serial, cb) := d.serial.setLineConfig baud config
      ({ d with serial := serial }, cb.map fun (_, baud, config) => .lineConfig baud config)
  | .setLineBaud baud =>
      let (serial, cb) := d.serial.setLineBaud baud
      ({ d with serial := serial }, cb.map fun (_, baud, config) => .lineConfig baud config)
  | .digitalWrite pin value =>
      let (pins, cb) := d.pins.digitalWrite pin value
      ({ d with pins := pins }, cb.map fun (_, pin, value) => .signal pin value)
  | .logWrite message => (d, d.sink.map fun _ => .log message)

end Device

/-- The blocks. `called` is a closure whose user callback has returned, `lineConfigCall` the end of
the line-config closure, which runs without the lock, and `user` the body of a user callback, with
the pointer and the context it was called with. -/
inductive Block (φ ν : Type*)
  | hal (c : HalCall)
  | lambda (l : Lambda)
  | called
  | lineConfigCall (cb : φ) (ctx : ν) (settings : LineSettings)
  | user (e : UserEvent) (cb : φ) (ctx : ν)
  | setCallbacks (cbs : Callbacks φ ν)
  | setCallbacksReturn (cbs : Callbacks φ ν)
  deriving DecidableEq, Repr

/-- What the run shows: a user callback begins, and `set_callbacks` has stored its arguments or
returns. -/
inductive DispatchEvent (φ ν : Type*)
  | invoked (e : UserEvent) (cb : φ) (ctx : ν)
  | registered (cbs : Callbacks φ ν)
  | returned (cbs : Callbacks φ ν)
  deriving DecidableEq, Repr

namespace Block

variable {φ ν : Type*}

def guard : Block φ ν → Option Mutex
  | hal c => some c.mutex
  | lambda _ | called | setCallbacks _ => some .callback
  | lineConfigCall _ _ _ | user _ _ _ | setCallbacksReturn _ => none

/-- The firmware and the host call the HAL, the host replaces the callbacks, and the worker logs
an exception through its instance. -/
def entry : Block φ ν → Bool
  | hal _ | setCallbacks _ | lambda (.log _) => true
  | _ => false

def invoke (d : Device φ ν) (e : UserEvent) :
    Effect (Device φ ν) (Block φ ν) (DispatchEvent φ ν) :=
  match d.callbacks.pointer e with
  | none => ⟨d, none, .leave none⟩
  | some cb =>
      ⟨d, some (.invoked e cb d.callbacks.userContext),
        .stay called (some (user e cb d.callbacks.userContext))⟩

def exec (d : Device φ ν) (b : Block φ ν) (choice : Option UserCall) :
    Option (Effect (Device φ ν) (Block φ ν) (DispatchEvent φ ν)) :=
  match b with
  | hal c => some ⟨(d.hal c).1, none, .leave ((d.hal c).2.map lambda)⟩
  | lambda .dataReady => some (invoke d .serialOut)
  | lambda (.signal pin value) => some (invoke d (.signal pin value))
  | lambda (.log message) => some (invoke d (.log message))
  | lambda (.lineConfig baud config) =>
      -- both members are copied under the lock; the call comes after it
      let after := d.callbacks.onLineConfig.map fun cb =>
        lineConfigCall cb d.callbacks.userContext (.of baud config)
      some ⟨d, none, .leave after⟩
  | lineConfigCall cb ctx settings =>
      some ⟨d, some (.invoked (.lineConfig settings) cb ctx),
        .stay (user (.lineConfig settings) cb ctx) none⟩
  | called => some ⟨d, none, .leave none⟩
  | user e cb ctx =>
      match choice with
      | some call => some ⟨d, none, .stay (user e cb ctx) (some (hal call.hal))⟩
      | none => some ⟨d, none, .leave none⟩
  | setCallbacks cbs =>
      some ⟨{ d with callbacks := cbs }, some (.registered cbs),
        .leave (some (setCallbacksReturn cbs))⟩
  | setCallbacksReturn cbs => some ⟨d, some (.returned cbs), .leave none⟩

inductive ExecCase (d : Device φ ν) :
    Block φ ν → Effect (Device φ ν) (Block φ ν) (DispatchEvent φ ν) → Prop
  | hal (c : HalCall) : ExecCase d (hal c) ⟨(d.hal c).1, none, .leave ((d.hal c).2.map lambda)⟩
  | nobody (l : Lambda) : ExecCase d (lambda l) ⟨d, none, .leave none⟩
  | invoke (l : Lambda) (e : UserEvent) (cb : φ) : d.callbacks.pointer e = some cb →
      ExecCase d (lambda l)
        ⟨d, some (.invoked e cb d.callbacks.userContext),
          .stay called (some (user e cb d.callbacks.userContext))⟩
  | copy (baud : Nat) (config : UInt32) (cb : φ) : d.callbacks.onLineConfig = some cb →
      ExecCase d (lambda (.lineConfig baud config))
        ⟨d, none, .leave (some (lineConfigCall cb d.callbacks.userContext (.of baud config)))⟩
  | called : ExecCase d called ⟨d, none, .leave none⟩
  | lineConfigCall (cb : φ) (ctx : ν) (settings : LineSettings) :
      ExecCase d (lineConfigCall cb ctx settings)
        ⟨d, some (.invoked (.lineConfig settings) cb ctx),
          .stay (user (.lineConfig settings) cb ctx) none⟩
  | userCall (e : UserEvent) (cb : φ) (ctx : ν) (call : UserCall) :
      ExecCase d (user e cb ctx) ⟨d, none, .stay (user e cb ctx) (some (.hal call.hal))⟩
  | userReturn (e : UserEvent) (cb : φ) (ctx : ν) :
      ExecCase d (user e cb ctx) ⟨d, none, .leave none⟩
  | setCallbacks (cbs : Callbacks φ ν) :
      ExecCase d (setCallbacks cbs) ⟨{ d with callbacks := cbs }, some (.registered cbs),
        .leave (some (setCallbacksReturn cbs))⟩
  | setCallbacksReturn (cbs : Callbacks φ ν) :
      ExecCase d (setCallbacksReturn cbs) ⟨d, some (.returned cbs), .leave none⟩

theorem invoke_cases (d : Device φ ν) (l : Lambda) (e : UserEvent) :
    ExecCase d (lambda l) (invoke d e) := by
  unfold invoke
  cases hptr : d.callbacks.pointer e with
  | none => exact .nobody l
  | some cb => exact .invoke l e cb hptr

theorem exec_cases {d : Device φ ν} {b : Block φ ν} {choice : Option UserCall}
    {e : Effect (Device φ ν) (Block φ ν) (DispatchEvent φ ν)} (h : exec d b choice = some e) :
    ExecCase d b e := by
  cases b with
  | lambda l =>
      cases l with
      | lineConfig baud config =>
          cases h
          cases hptr : d.callbacks.onLineConfig with
          | none => exact .nobody _
          | some cb => exact .copy baud config cb hptr
      | dataReady | signal pin value | log message =>
          cases h
          exact invoke_cases d _ _
  | user e cb ctx =>
      cases choice with
      | none =>
          cases h
          exact .userReturn e cb ctx
      | some call =>
          cases h
          exact .userCall e cb ctx call
  | hal c =>
      cases h
      exact .hal c
  | called =>
      cases h
      exact .called
  | lineConfigCall cb ctx settings =>
      cases h
      exact .lineConfigCall cb ctx settings
  | setCallbacks cbs =>
      cases h
      exact .setCallbacks cbs
  | setCallbacksReturn cbs =>
      cases h
      exact .setCallbacksReturn cbs

theorem hal_callbacks (d : Device φ ν) (call : HalCall) :
    (d.hal call).1.callbacks = d.callbacks := by
  cases call <;> rfl

theorem exec_callbacks {d : Device φ ν} {b : Block φ ν} {choice : Option UserCall}
    {e : Effect (Device φ ν) (Block φ ν) (DispatchEvent φ ν)} (h : exec d b choice = some e) :
    e.shared.callbacks = d.callbacks ∨
      ∃ cbs, b = setCallbacks cbs ∧ e.shared.callbacks = cbs := by
  cases exec_cases h with
  | hal call => exact .inl (hal_callbacks d call)
  | setCallbacks cbs => exact .inr ⟨cbs, rfl, rfl⟩
  | _ => exact .inl rfl

theorem guard_stay (d : Device φ ν) (b : Block φ ν) (choice : Option UserCall)
    (e : Effect (Device φ ν) (Block φ ν) (DispatchEvent φ ν)) (next : Block φ ν)
    (call : Option (Block φ ν)) (hexec : exec d b choice = some e)
    (hcont : e.cont = .stay next call) : guard next = guard b := by
  cases exec_cases hexec <;> cases hcont <;> rfl

end Block

def dispatch (φ ν : Type*) :
    Program (Device φ ν) Mutex (Block φ ν) (Option UserCall) (DispatchEvent φ ν) :=
  ⟨Block.guard, Block.entry, Block.exec, Block.guard_stay⟩

end ZiModem.Wrapper
