import ZiModem.Hal.CInt

/-! # The user's callbacks

The five members of an instance that `zimodem_host_set_callbacks` replaces
together, and what each kind of event passes to its callback. A function pointer
is a `φ` or null, a context is a `ν`.
-/

namespace ZiModem.Wrapper

open ZiModem.Hal

/-- `ZIMODEM_PARITY_NONE`, `ZIMODEM_PARITY_ODD` and `ZIMODEM_PARITY_EVEN`. -/
inductive Parity
  | none
  | odd
  | even
  deriving DecidableEq, Repr

/-- The out parameters of `zimodem_host_get_line_config`, which are also the arguments of
`on_line_config`. -/
structure LineSettings where
  baud : Int
  dataBits : Int
  parity : Parity
  stopBitsX10 : Int
  deriving DecidableEq, Repr

/-- `decode_serial_config`: the data bits, the parity and ten times the stop bits. -/
def decodeSerialConfig (config : UInt32) : Int × Parity × Int :=
  (5 + ((config &&& 0x0C) >>> 2).toNat,
    if config &&& 0x03 = 0x03 then .odd else if config &&& 0x03 = 0x02 then .even else .none,
    if config &&& 0x30 = 0x30 then 20 else if config &&& 0x30 = 0x20 then 15 else 10)

/-- The settings as the host sees them, with the baud rate cast to `int`. -/
def LineSettings.of (baud : Nat) (config : UInt32) : LineSettings :=
  ⟨toInt baud, (decodeSerialConfig config).1, (decodeSerialConfig config).2.1,
    (decodeSerialConfig config).2.2⟩

/-- An event on its way to the user, with the arguments that follow the context. -/
inductive UserEvent
  | serialOut
  | signal (pin active : Int)
  | log (message : List UInt8)
  | lineConfig (settings : LineSettings)
  deriving DecidableEq, Repr

structure Callbacks (φ ν : Type*) where
  onSerialOut : Option φ
  onSignal : Option φ
  onLog : Option φ
  onLineConfig : Option φ
  userContext : ν
  deriving DecidableEq, Repr

def Callbacks.pointer {φ ν : Type*} (cbs : Callbacks φ ν) : UserEvent → Option φ
  | .serialOut => cbs.onSerialOut
  | .signal _ _ => cbs.onSignal
  | .log _ => cbs.onLog
  | .lineConfig _ => cbs.onLineConfig

theorem decodeSerialConfig_range (config : UInt32) :
    5 ≤ (decodeSerialConfig config).1 ∧ (decodeSerialConfig config).1 ≤ 8 ∧
      (decodeSerialConfig config).2.2 ∈ [10, 15, 20] := by
  have hbits : ((config &&& 0x0C) >>> 2).toNat ≤ 3 := by
    have hmask : (config &&& 0x0C).toNat ≤ 0x0C := by
      rw [UInt32.toNat_and]
      exact Nat.and_le_right
    have hshift : ((config &&& 0x0C) >>> 2).toNat = (config &&& 0x0C).toNat / 4 := by
      rw [UInt32.toNat_shiftRight]
      exact Nat.shiftRight_eq_div_pow _ 2
    omega
  refine ⟨?_, ?_, ?_⟩
  · simp only [decodeSerialConfig]
    omega
  · simp only [decodeSerialConfig]
    omega
  · simp only [decodeSerialConfig]
    split
    · simp
    · split <;> simp

theorem decodeSerialConfig_low (config : UInt32) :
    decodeSerialConfig config = decodeSerialConfig (config &&& 0x3F) := by
  have h₁ : config &&& 0x3F &&& 0x0C = config &&& 0x0C := by rw [UInt32.and_assoc]; rfl
  have h₂ : config &&& 0x3F &&& 0x03 = config &&& 0x03 := by rw [UInt32.and_assoc]; rfl
  have h₃ : config &&& 0x3F &&& 0x30 = config &&& 0x30 := by rw [UInt32.and_assoc]; rfl
  simp only [decodeSerialConfig, h₁, h₂, h₃]

/-- Bits 2 and 3 count the data bits beyond five, bit 1 is for a parity, which bit 0 makes odd, and
bit 5 for more than one stop bit, which bit 4 makes two. -/
theorem decodeSerialConfig_bits (config : UInt32) :
    decodeSerialConfig config =
      (((5 + 2 * (config.toNat.testBit 3).toNat + (config.toNat.testBit 2).toNat : Nat) : Int),
        if config.toNat.testBit 1 then if config.toNat.testBit 0 then .odd else .even else .none,
        if config.toNat.testBit 5 then if config.toNat.testBit 4 then 20 else 15 else 10) := by
  have hlow : ∀ i < 6, config.toNat.testBit i = (config.toNat % 64).testBit i := by
    intro i hi
    rw [show 64 = 2 ^ 6 from rfl, Nat.testBit_mod_two_pow]
    simp [hi]
  have hmask : config &&& 0x3F = .ofNat (config.toNat % 64) := by
    apply UInt32.toNat_inj.mp
    rw [UInt32.toNat_and]
    have := Nat.and_two_pow_sub_one_eq_mod config.toNat 6
    simp at this ⊢
    omega
  rw [decodeSerialConfig_low, hmask, hlow 3 (by decide), hlow 2 (by decide), hlow 1 (by decide),
    hlow 0 (by decide), hlow 5 (by decide), hlow 4 (by decide)]
  have hlt : config.toNat % 64 < 64 := Nat.mod_lt _ (by decide)
  generalize config.toNat % 64 = low at hlt
  revert low
  decide +kernel

end ZiModem.Wrapper
