import Mathlib.Algebra.Group.Nat.Defs
import Mathlib.Logic.Function.Basic
import ZiModem.Hal.Serial
import ZiModem.Reactive.Accounting

/-! # The virtual UART under concurrent callers

Any number of threads call into the HAL; every call of `serial_port.cpp` is one
step under its lock. `HardwareSerialCompat::readBytes` is the exception: it is a
loop of single reads, with readings of the clock between them, and the calls of
other threads may come anywhere in between.
-/

namespace ZiModem.Hal

open Reactive

/-- Where a call of `readBytes` stands: about to set its deadline, at the head of its loop, or
about to compare the clock with the deadline after a read that found nothing. -/
inductive ReadBytesPc
  | setDeadline
  | loop
  | checkDeadline
  deriving DecidableEq, Repr

/-- The locals of a call of `readBytes` in progress; `buffer` is what it has stored so far. -/
structure ReadBytes where
  length : Nat
  buffer : List UInt8
  deadline : Nat
  pc : ReadBytesPc
  deriving DecidableEq, Repr

/-- The queues, the member `timeoutMs_`, and the calls of `readBytes` in progress. -/
structure Uart (τ γ : Type*) where
  serial : Serial γ
  timeoutMs : Nat
  readBytes : τ → Option ReadBytes

/-- A step of thread `t`. `clock` and `iterate` are the steps inside `readBytes`; `now` is what
`now_ms` returns there. -/
inductive UartAction (τ : Type*)
  | feedInput (t : τ) (data : List UInt8)
  | available (t : τ)
  | read (t : τ)
  | peek (t : τ)
  | setTimeout (t : τ) (ms : Nat)
  | readBytes (t : τ) (length : Nat)
  | clock (t : τ) (now : Nat)
  | iterate (t : τ)
  | write (t : τ) (data : List UInt8)
  | rxAvailable (t : τ)
  | rxRead (t : τ)
  deriving DecidableEq, Repr

/-- What a step shows. `poll` is one `read` made by the loop of `readBytes`. -/
inductive UartEvent (τ : Type*)
  | feedInput (t : τ) (data : List UInt8)
  | available (t : τ) (ret : Int)
  | read (t : τ) (ret : Int)
  | peek (t : τ) (ret : Int)
  | setTimeout (t : τ)
  | readBytesCall (t : τ) (length : Nat)
  | clock (t : τ)
  | poll (t : τ) (ret : Int)
  | readBytesReturn (t : τ) (count : Nat) (buffer : List UInt8)
  | write (t : τ) (data : List UInt8) (ret : Nat)
  | rxAvailable (t : τ) (ret : Bool)
  | rxRead (t : τ) (ret : Int)
  deriving DecidableEq, Repr

namespace UartAction

variable {τ : Type*}

def thread : UartAction τ → τ
  | feedInput t _ | available t | read t | peek t | setTimeout t _ | readBytes t _ | clock t _
  | iterate t | write t _ | rxAvailable t | rxRead t => t

end UartAction

namespace Uart

variable {τ γ : Type*} [DecidableEq τ]

def initial : Uart τ γ := ⟨.initial, 1000, fun _ => none⟩

def setReadBytes (s : Uart τ γ) (t : τ) (rb : Option ReadBytes) : Uart τ γ :=
  { s with readBytes := Function.update s.readBytes t rb }

/-- The clock readings of `readBytes`, in an `unsigned long` of `w` bits. -/
def clock (w : Nat) (s : Uart τ γ) (t : τ) (now : Nat) (rb : ReadBytes) :
    Option (Uart τ γ × UartEvent τ) :=
  match rb.pc with
  | .setDeadline =>
      let deadline := (now + s.timeoutMs) % 2 ^ w
      some (s.setReadBytes t (some { rb with deadline := deadline, pc := .loop }), .clock t)
  | .checkDeadline =>
      if rb.deadline ≤ now % 2 ^ w then
        some (s.setReadBytes t none, .readBytesReturn t rb.buffer.length rb.buffer)
      else
        some (s.setReadBytes t (some { rb with pc := .loop }), .clock t)  -- after `sleep_ms(1)`
  | .loop => none

/-- One round of the loop of `readBytes`, up to its next reading of the clock. -/
def iterate (s : Uart τ γ) (t : τ) (rb : ReadBytes) : Option (Uart τ γ × UartEvent τ) :=
  match rb.pc with
  | .loop =>
      if rb.buffer.length < rb.length then
        let c := s.serial.read.2
        let rb' :=
          if 0 ≤ c then
            { rb with buffer := rb.buffer ++ [UInt8.ofNat c.toNat], pc := .setDeadline }
          else { rb with pc := .checkDeadline }
        some ({ s with serial := s.serial.read.1 }.setReadBytes t (some rb'), .poll t c)
      else some (s.setReadBytes t none, .readBytesReturn t rb.buffer.length rb.buffer)
  | _ => none

def call (s : Uart τ γ) : UartAction τ → Option (Uart τ γ × UartEvent τ)
  | .feedInput t data => some ({ s with serial := s.serial.feedInput data }, .feedInput t data)
  | .available t => some (s, .available t s.serial.available)
  | .read t => some ({ s with serial := s.serial.read.1 }, .read t s.serial.read.2)
  | .peek t => some (s, .peek t s.serial.peek)
  | .setTimeout t ms => some ({ s with timeoutMs := ms }, .setTimeout t)
  | .readBytes t length =>
      some (s.setReadBytes t (some ⟨length, [], 0, .setDeadline⟩), .readBytesCall t length)
  | .write t data =>
      some ({ s with serial := (s.serial.write data).1 }, .write t data data.length)
  | .rxAvailable t => some (s, .rxAvailable t s.serial.rxAvailable)
  | .rxRead t => some ({ s with serial := s.serial.rxRead.1 }, .rxRead t s.serial.rxRead.2)
  | .clock _ _ | .iterate _ => none

def step (w : Nat) (s : Uart τ γ) (a : UartAction τ) : Option (Uart τ γ × UartEvent τ) :=
  match s.readBytes a.thread, a with
  | some rb, .clock t now => s.clock w t now rb
  | some rb, .iterate t => s.iterate t rb
  | some _, _ => none
  | none, a => s.call a

end Uart

def uart (τ γ : Type*) [DecidableEq τ] (w : Nat) : Machine (Uart τ γ) (UartAction τ) (UartEvent τ) :=
  ⟨Uart.step w⟩

end ZiModem.Hal
