import ZiModem.Hal.Arduino.WString

/-! # `Print`

The base class of everything the sketch writes to. A class implements
`write(uint8_t)`, and may replace the block write, whose default hands over one
byte after another until one is not taken. The texts of `print` and `println`
come as C strings.
-/

namespace ZiModem.Hal.Arduino

/-- The virtual functions of `Print`, over the state of the class that implements them. Each returns
how many bytes it took. -/
structure Print (σ : Type*) where
  writeByte : σ → UInt8 → σ × Nat
  writeBuffer : σ → List UInt8 → σ × Nat

namespace Print

variable {σ : Type*}

/-- The loop of the default `write(buffer, size)`, at `n` bytes taken. -/
def writeLoop (writeByte : σ → UInt8 → σ × Nat) (s : σ) : List UInt8 → Nat → σ × Nat
  | [], n => (s, n)
  | b :: buffer, n =>
      let (s', taken) := writeByte s b
      if taken = 0 then (s', n) else writeLoop writeByte s' buffer (n + 1)

/-- A class with its own `write(uint8_t)` and the default block write. -/
def ofByte (writeByte : σ → UInt8 → σ × Nat) : Print σ :=
  ⟨writeByte, fun s buffer => writeLoop writeByte s buffer 0⟩

section Calls

variable (p : Print σ) (s : σ)

/-- `write(const char*)`, where the pointer may be null. -/
def write : Option (List UInt8) → σ × Nat
  | none => (s, 0)
  | some memory => p.writeBuffer s (cString memory)

def print (str : Option (List UInt8)) : σ × Nat := p.write s str

/-- `print(const String&)`. -/
def printString (text : WString) : σ × Nat := p.write s (some text.cStr)

def crlf : List UInt8 := [13, 10]

def println : σ × Nat := p.write s (some (crlf ++ [0]))

/-- `println(const char*)`. -/
def printlnCString (str : Option (List UInt8)) : σ × Nat :=
  let (s₁, n) := p.print s str
  let (s₂, m) := p.println s₁
  (s₂, n + m)

/-- `println(const String&)`. -/
def printlnString (text : WString) : σ × Nat :=
  let (s₁, n) := p.printString s text
  let (s₂, m) := p.println s₁
  (s₂, n + m)

theorem println_eq : p.println s = p.writeBuffer s crlf := rfl

end Calls

/-! ## Classes that take everything -/

/-- In the states `ready` a block is taken whole, behind what was `emitted` before. -/
structure Accepting (p : Print σ) (ready : σ → Prop) (emitted : σ → List UInt8) : Prop where
  keeps : ∀ s buffer, ready s → ready (p.writeBuffer s buffer).1
  appends : ∀ s buffer, ready s → emitted (p.writeBuffer s buffer).1 = emitted s ++ buffer
  counts : ∀ s buffer, ready s → (p.writeBuffer s buffer).2 = buffer.length

section TakesAll

variable {writeByte : σ → UInt8 → σ × Nat} {ready : σ → Prop} {emitted : σ → List UInt8}

theorem writeLoop_accepting
    (hbyte : ∀ s b, ready s → ready (writeByte s b).1 ∧
      emitted (writeByte s b).1 = emitted s ++ [b] ∧ (writeByte s b).2 ≠ 0)
    (buffer : List UInt8) {s : σ} (hs : ready s) (n : Nat) :
    ready (writeLoop writeByte s buffer n).1 ∧
      emitted (writeLoop writeByte s buffer n).1 = emitted s ++ buffer ∧
      (writeLoop writeByte s buffer n).2 = n + buffer.length := by
  induction buffer generalizing s n with
  | nil => exact ⟨hs, (List.append_nil _).symm, rfl⟩
  | cons b buffer ih =>
      obtain ⟨hready, hemitted, htaken⟩ := hbyte s b hs
      obtain ⟨hafter, hall, hcount⟩ := ih hready (n + 1)
      simp only [writeLoop, if_neg htaken]
      refine ⟨hafter, ?_, ?_⟩
      · rw [hall, hemitted, List.append_assoc, List.singleton_append]
      · rw [hcount, List.length_cons]
        omega

/-- A class that takes every byte takes every block. -/
theorem accepting_ofByte
    (hbyte : ∀ s b, ready s → ready (writeByte s b).1 ∧
      emitted (writeByte s b).1 = emitted s ++ [b] ∧ (writeByte s b).2 ≠ 0) :
    (ofByte writeByte).Accepting ready emitted where
  keeps := fun _ buffer hs => (writeLoop_accepting hbyte buffer hs 0).1
  appends := fun _ buffer hs => (writeLoop_accepting hbyte buffer hs 0).2.1
  counts := fun _ buffer hs => by
    have hcount := (writeLoop_accepting hbyte buffer hs 0).2.2
    rwa [Nat.zero_add] at hcount

end TakesAll

end Print

end ZiModem.Hal.Arduino
