import Mathlib.Algebra.Group.Nat.Defs
import ZiModem.Hal.CInt
import ZiModem.Hal.Arduino.WString
import ZiModem.Text.Radix

/-! # `itoa`

The digits are taken off the number from the lowest on, into an array of 32, and
copied out in reverse. Signed arithmetic that would overflow, a division by zero
and a store behind the array have no result here; the room that is left in the array
bounds the loop.
-/

namespace ZiModem.Hal.Arduino

def digitsSize : Nat := 32

def digitChar (digit : Int) : Option UInt8 :=
  let c :=
    if digit < 10 then checkedInt (48 + digit)
    else (checkedInt (digit - 10)).bind fun d => checkedInt (97 + d)
  c.map fun c => .ofNat (toUnsigned c)

def digitLoop (base : Nat) : Nat → List UInt8 → Nat → Option (List UInt8)
  | 0, _, _ => none
  | room + 1, digits, uvalue =>
      if base = 0 then none
      else
        (digitChar (toInt (uvalue % base : Nat))).bind fun c =>
          if uvalue / base ≠ 0 then digitLoop base room (digits ++ [c]) (uvalue / base)
          else some (digits ++ [c])

/-- The loop that copies `digits` behind `out`, from the last one on. -/
def copyLoop (digits : List UInt8) : Nat → List UInt8 → List UInt8
  | 0, out => out
  | count + 1, out => copyLoop digits count (out ++ digits[count]?.toList)

/-- `uvalue` before the loop. -/
def unsignedValue (negative : Bool) (value : Int) : Option Nat :=
  if negative then
    (checkedInt (value + 1)).bind fun next =>
      (checkedInt (-next)).map fun m => (toUnsigned m + 1) % 4294967296
  else some (toUnsigned value)

/-- `itoa`, with what it stores at `str`. -/
def itoa (value base : Int) : Option (List UInt8) :=
  let negative := decide (base = 10 ∧ value < 0)
  (unsignedValue negative value).bind fun uvalue =>
    (digitLoop (toUnsigned base) digitsSize [] uvalue).map fun digits =>
      copyLoop digits digits.length (if negative then [45] else []) ++ [0]

/-! ## What it should store -/

def sign (value base : Int) : List UInt8 := if base = 10 ∧ value < 0 then [45] else []

/-- The number that the text spells: the value in base 10, else the value modulo `2^32`. -/
def spelled (value base : Int) : Int := if base = 10 then value else value % 4294967296

def parseSigned (base : Nat) : List UInt8 → Option Int
  | [] => none
  | c :: text =>
      if c = 45 then (Radix.parse base text).map fun n : Nat => -(n : Int)
      else (Radix.parse base (c :: text)).map fun n : Nat => (n : Int)

/-- `text` is the numeral, without leading zeros and in at most 32 digits, that belongs behind the
sign; memory holds both as a C string, and they spell the number. -/
structure Prints (value base : Int) (memory text : List UInt8) : Prop where
  stored : memory = sign value base ++ text ++ [0]
  terminated : cString memory = sign value base ++ text
  fits : text.length ≤ digitsSize
  numeral : Radix.Numeral base.toNat text (spelled value base).natAbs
  parses : parseSigned base.toNat (sign value base ++ text) = some (spelled value base)

/-! ## The loops -/

theorem copyLoop_eq (digits out : List UInt8) (count : Nat) :
    copyLoop digits count out = out ++ (digits.take count).reverse := by
  induction count generalizing out with
  | zero => rw [copyLoop, List.take_zero, List.reverse_nil, List.append_nil]
  | succ count ih =>
      have hone : digits[count]?.toList.reverse = digits[count]?.toList := by
        cases digits[count]? <;> rfl
      rw [copyLoop, ih, List.take_add_one, List.reverse_append, hone, List.append_assoc]

theorem digitChar_eq : ∀ d < 36, digitChar (toInt (d : Nat)) = some (Radix.digit d) := by decide

/-- The loop stores the digits of the numeral in reverse. -/
theorem digitLoop_numeral {base : Nat} (hlow : 2 ≤ base) (hhigh : base ≤ 36) {room u : Nat}
    (hroom : 0 < room) (hu : u < base ^ room) (digits : List UInt8) :
    ∃ ds, digitLoop base room digits u = some (digits ++ ds) ∧ ds.length ≤ room ∧
      Radix.Numeral base ds.reverse u := by
  induction room generalizing u digits with
  | zero => cases hroom
  | succ room ih =>
      have hdigit : u % base < base := Nat.mod_lt u (by omega)
      rw [digitLoop, if_neg (by omega), digitChar_eq _ (by omega), Option.bind_some]
      by_cases hlast : u / base = 0
      · simp only [hlast, ne_eq, not_true_eq_false, if_false]
        refine ⟨_, rfl, Nat.succ_le_succ (Nat.zero_le room), ?_⟩
        have hmod : u % base = u := by
          rcases (Nat.div_eq_zero_iff (b := base)).mp hlast with hzero | hlt
          · omega
          · exact Nat.mod_eq_of_lt hlt
        rw [hmod] at hdigit ⊢
        exact Radix.numeral_digit hhigh hdigit
      · simp only [if_pos hlast]
        have hquot : u / base < base ^ room := by
          rw [Nat.div_lt_iff_lt_mul (by omega), ← Nat.pow_succ]
          exact hu
        have hmore : 0 < room := by
          rcases Nat.eq_zero_or_pos room with hzero | hpos
          · rw [hzero, Nat.pow_zero] at hquot
            exact absurd (Nat.lt_one_iff.mp hquot) hlast
          · exact hpos
        obtain ⟨ds, hloop, hlength, hnumeral⟩ :=
          ih hmore hquot (digits ++ [Radix.digit (u % base)])
        refine ⟨Radix.digit (u % base) :: ds, ?_, Nat.succ_le_succ hlength, ?_⟩
        · rw [hloop, List.append_assoc, List.singleton_append]
        · have hsnoc := hnumeral.snoc hlast hhigh hdigit
          rw [Nat.div_add_mod'] at hsnoc
          rwa [List.reverse_cons]

theorem lt_pow_digitsSize {base u : Nat} (hlow : 2 ≤ base) (hu : u < 4294967296) :
    u < base ^ digitsSize := calc
  u < 2 ^ digitsSize := hu
  _ ≤ base ^ digitsSize := Nat.pow_le_pow_left hlow digitsSize

/-! ## The number -/

/-- The magnitude goes into the loop; at `INT_MIN` the detour over its successor keeps it an
`int`. -/
theorem unsignedValue_eq {value base : Int} (hlow : -intMax - 1 ≤ value) (hhigh : value ≤ intMax) :
    unsignedValue (decide (base = 10 ∧ value < 0)) value =
      some (spelled value base).natAbs := by
  unfold unsignedValue spelled
  have hmax : intMax = 2147483647 := rfl
  by_cases hneg : base = 10 ∧ value < 0
  · obtain ⟨hten, hlt⟩ := hneg
    have hnext : checkedInt (value + 1) = some (value + 1) :=
      checkedInt_of_range (by omega) (by omega)
    have hmagnitude : checkedInt (-(value + 1)) = some (-(value + 1)) :=
      checkedInt_of_range (by omega) (by omega)
    rw [if_pos (by simpa using ⟨hten, hlt⟩), if_pos hten, hnext, Option.bind_some, hmagnitude,
      Option.map_some]
    congr 1
    unfold toUnsigned
    omega
  · rw [if_neg (by simpa using hneg)]
    congr 1
    unfold toUnsigned
    split
    next hten =>
      have hpos : 0 ≤ value := Int.not_lt.mp fun hlt => hneg ⟨hten, hlt⟩
      omega
    next => omega

theorem spelled_lt {value base : Int} (hlow : -intMax - 1 ≤ value) (hhigh : value ≤ intMax) :
    (spelled value base).natAbs < 4294967296 := by
  unfold spelled
  simp only [intMax] at hlow hhigh
  split <;> omega

theorem spelled_nonneg {value base : Int} (h : ¬ (base = 10 ∧ value < 0)) :
    0 ≤ spelled value base := by
  unfold spelled
  split
  next hten => exact Int.not_lt.mp fun hlt => h ⟨hten, hlt⟩
  next => omega

theorem parseSigned_sign {value base : Int} {text : List UInt8}
    (h : Radix.Numeral base.toNat text (spelled value base).natAbs) :
    parseSigned base.toNat (sign value base ++ text) = some (spelled value base) := by
  by_cases hneg : base = 10 ∧ value < 0
  · rw [sign, if_pos hneg, List.singleton_append, parseSigned, if_pos rfl, h.value, Option.map_some,
      spelled, if_pos hneg.1]
    congr 1
    omega
  · obtain ⟨c, text, rfl⟩ := List.exists_cons_of_ne_nil h.ne_nil
    have hminus : c ≠ 45 := by
      intro hc
      obtain ⟨d, -, hd⟩ := h.digits c List.mem_cons_self
      rw [hc, Radix.digitValue_minus] at hd
      cases hd
    rw [sign, if_neg hneg, List.nil_append, parseSigned, if_neg hminus, h.value, Option.map_some]
    exact congrArg some (Int.natAbs_of_nonneg (spelled_nonneg hneg))

/-- In base 2 to 36 `itoa` stores the numeral of every `int`, without overflowing on the way. -/
theorem itoa_prints {value base : Int} (hlow : -2147483648 ≤ value) (hhigh : value ≤ 2147483647)
    (hbase : 2 ≤ base) (hbase' : base ≤ 36) :
    ∃ memory text, itoa value base = some memory ∧ Prints value base memory text := by
  have hmax : intMax = 2147483647 := rfl
  have hunsigned : toUnsigned base = base.toNat :=
    toUnsigned_of_nonneg (by omega) (by omega)
  have hlow' : 2 ≤ base.toNat := by omega
  have hhigh' : base.toNat ≤ 36 := by omega
  have hsize : (spelled value base).natAbs < base.toNat ^ digitsSize :=
    lt_pow_digitsSize hlow' (spelled_lt hlow hhigh)
  obtain ⟨ds, hloop, hlength, hnumeral⟩ :=
    digitLoop_numeral hlow' hhigh' (by decide) hsize []
  rw [List.nil_append] at hloop
  have hsign : 0 ∉ sign value base := by
    unfold sign
    split
    next => decide
    next => exact List.not_mem_nil
  refine ⟨sign value base ++ ds.reverse ++ [0], ds.reverse, ?_, rfl, ?_, ?_, hnumeral,
    parseSigned_sign hnumeral⟩
  · rw [itoa, unsignedValue_eq hlow hhigh, hunsigned, Option.bind_some, hloop, Option.map_some,
      copyLoop_eq, List.take_length, sign]
    simp only [decide_eq_true_eq]
  · apply WString.cString_eq_self_iff.mpr
    rw [List.mem_append, not_or]
    exact ⟨hsign, hnumeral.nul_not_mem⟩
  · rwa [List.length_reverse]

/-- `INT_MIN` in base 10. -/
theorem itoa_prints_min :
    ∃ memory text, itoa (-2147483648) 10 = some memory ∧ Prints (-2147483648) 10 memory text :=
  itoa_prints (by decide) (by decide) (by decide) (by decide)

end ZiModem.Hal.Arduino
