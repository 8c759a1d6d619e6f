import Mathlib.Data.List.Basic
import ZiModem.Hal.CInt

/-! # The virtual UART

The process-wide state of `serial_port.cpp`: a queue of bytes in each direction,
the line settings, and two callback slots. What a slot holds is a closure of
some type `γ`; a function that copies a slot under the lock, to call it after
the lock is released, returns that copy together with the call's arguments.
-/

namespace ZiModem.Hal

/-- A popped or peeked byte as the `int` that `read`, `peek` and `rx_read` return. -/
def byteOrNone : List UInt8 → Int
  | [] => -1
  | b :: _ => b.toNat

/-- The byte a caller gets back out of such an `int`, by `static_cast<uint8_t>`. -/
def byteOf (ret : Int) : List UInt8 :=
  if 0 ≤ ret then [UInt8.ofNat ret.toNat] else []

@[simp] theorem byteOrNone_nil : byteOrNone [] = -1 := rfl

@[simp] theorem byteOrNone_cons (b : UInt8) (rest : List UInt8) :
    byteOrNone (b :: rest) = b.toNat := rfl

@[simp] theorem byteOf_neg_one : byteOf (-1) = [] := rfl

@[simp] theorem byteOf_natCast (b : UInt8) : byteOf b.toNat = [b] := by
  simp [byteOf]

@[simp] theorem byteOf_byteOrNone (bytes : List UInt8) :
    byteOf (byteOrNone bytes) = bytes.take 1 := by
  cases bytes with
  | nil => rfl
  | cons b rest => simp

theorem byteOf_append_tail (bytes : List UInt8) :
    byteOf (byteOrNone bytes) ++ bytes.tail = bytes := by
  rw [byteOf_byteOrNone, ← List.drop_one, List.take_append_drop]

/-- `g_input`, `g_rx_queue`, `g_data_ready_callback`, `g_line_baud`, `g_line_config` and
`g_line_config_callback`. -/
structure Serial (γ : Type*) where
  input : List UInt8
  rxQueue : List UInt8
  dataReady : Option γ
  lineBaud : Nat
  lineConfig : UInt32
  lineConfigCallback : Option γ
  deriving DecidableEq, Repr

namespace Serial

variable {γ : Type*}

def initial : Serial γ := ⟨[], [], none, 0, 0, none⟩

def setDataReadyCallback (s : Serial γ) (cb : Option γ) : Serial γ := { s with dataReady := cb }

def feedInput (s : Serial γ) (data : List UInt8) : Serial γ := { s with input := s.input ++ data }

def available (s : Serial γ) : Int := toInt s.input.length

def read (s : Serial γ) : Serial γ × Int := ({ s with input := s.input.tail }, byteOrNone s.input)

def peek (s : Serial γ) : Int := byteOrNone s.input

/-- `write` up to the end of its critical section, with the callback it goes on to call. -/
def write (s : Serial γ) (data : List UInt8) : Serial γ × Option γ :=
  ({ s with rxQueue := s.rxQueue ++ data }, if 0 < data.length then s.dataReady else none)

def rxAvailable (s : Serial γ) : Bool := !s.rxQueue.isEmpty

def rxRead (s : Serial γ) : Serial γ × Int :=
  ({ s with rxQueue := s.rxQueue.tail }, byteOrNone s.rxQueue)

def availableForWrite : Int := 4096

/-- `set_line_config` up to the end of its critical section, with the callback it goes on to
call and the settings it passes to it. -/
def setLineConfig (s : Serial γ) (baud : Nat) (config : UInt32) :
    Serial γ × Option (γ × Nat × UInt32) :=
  if s.lineBaud = baud ∧ s.lineConfig = config then (s, none)
  else
    ({ s with lineBaud := baud, lineConfig := config },
      s.lineConfigCallback.map fun cb => (cb, baud, config))

/-- `set_line_baud`, which keeps the framing. -/
def setLineBaud (s : Serial γ) (baud : Nat) : Serial γ × Option (γ × Nat × UInt32) :=
  if s.lineBaud = baud then (s, none)
  else ({ s with lineBaud := baud }, s.lineConfigCallback.map fun cb => (cb, baud, s.lineConfig))

def getLineConfig (s : Serial γ) : Nat × UInt32 := (s.lineBaud, s.lineConfig)

def setLineConfigCallback (s : Serial γ) (cb : Option γ) : Serial γ :=
  { s with lineConfigCallback := cb }

/-! ## What an operation goes on to call -/

section Raised

variable {s : Serial γ}

theorem write_raised {data : List UInt8} {cb : γ} (h : (s.write data).2 = some cb) :
    s.dataReady = some cb := by
  simp only [write] at h
  split at h
  · exact h
  · cases h

theorem setLineConfig_raised {baud : Nat} {config : UInt32} {call : γ × Nat × UInt32}
    (h : (s.setLineConfig baud config).2 = some call) : s.lineConfigCallback = some call.1 := by
  simp only [setLineConfig] at h
  split at h
  · cases h
  · obtain ⟨cb, hcb, rfl⟩ := Option.map_eq_some_iff.mp h
    exact hcb

theorem setLineBaud_raised {baud : Nat} {call : γ × Nat × UInt32}
    (h : (s.setLineBaud baud).2 = some call) : s.lineConfigCallback = some call.1 := by
  simp only [setLineBaud] at h
  split at h
  · cases h
  · obtain ⟨cb, hcb, rfl⟩ := Option.map_eq_some_iff.mp h
    exact hcb

end Raised

/-! ## What each operation does to the two queues -/

section Queues

variable (s : Serial γ)

@[simp] theorem feedInput_input (data : List UInt8) :
    (s.feedInput data).input = s.input ++ data := rfl

@[simp] theorem feedInput_rxQueue (data : List UInt8) :
    (s.feedInput data).rxQueue = s.rxQueue := rfl

@[simp] theorem read_input : s.read.1.input = s.input.tail := rfl

@[simp] theorem read_rxQueue : s.read.1.rxQueue = s.rxQueue := rfl

@[simp] theorem write_input (data : List UInt8) : (s.write data).1.input = s.input := rfl

@[simp] theorem write_rxQueue (data : List UInt8) :
    (s.write data).1.rxQueue = s.rxQueue ++ data := rfl

@[simp] theorem rxRead_input : s.rxRead.1.input = s.input := rfl

@[simp] theorem rxRead_rxQueue : s.rxRead.1.rxQueue = s.rxQueue.tail := rfl

/-- A pop takes the byte it returns off the front of its queue, and nothing else. -/
theorem read_conserves : s.input = byteOf s.read.2 ++ s.read.1.input :=
  (byteOf_append_tail s.input).symm

theorem rxRead_conserves : s.rxQueue = byteOf s.rxRead.2 ++ s.rxRead.1.rxQueue :=
  (byteOf_append_tail s.rxQueue).symm

end Queues

end Serial

end ZiModem.Hal
