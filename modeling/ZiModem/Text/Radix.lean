import Mathlib.Data.List.Basic

/-! # Numerals in a base

Numerals in the bytes of ASCII, in any base up to 36: the letters from `a` on
follow the nine. A numeral has no leading zero. It is built from the front, by
adding digits behind.
-/

namespace Radix

def zero : UInt8 := 48

def digit (d : Nat) : UInt8 := if d < 10 then .ofNat (48 + d) else .ofNat (87 + d)

def digitValue (c : UInt8) : Option Nat :=
  if 48 ≤ c.toNat ∧ c.toNat ≤ 57 then some (c.toNat - 48)
  else if 97 ≤ c.toNat ∧ c.toNat ≤ 122 then some (c.toNat - 87)
  else none

/-- Read `text` behind a numeral of `n`; `none` where a character is no digit of the base. -/
def read (base : Nat) : Nat → List UInt8 → Option Nat
  | n, [] => some n
  | n, c :: text =>
      match digitValue c with
      | none => none
      | some d => if d < base then read base (n * base + d) text else none

def parse (base : Nat) (text : List UInt8) : Option Nat :=
  if text = [] then none else read base 0 text

structure Numeral (base : Nat) (text : List UInt8) (n : Nat) : Prop where
  digits : ∀ c ∈ text, ∃ d < base, digitValue c = some d
  leading : text.head? = some zero → text = [zero]
  value : parse base text = some n

variable {base n d : Nat} {text rest : List UInt8}

/-! ## Digits -/

theorem digitValue_digit (h : d < 36) : digitValue (digit d) = some d := by
  unfold digit digitValue
  split
  next hd =>
    rw [UInt8.toNat_ofNat_of_lt' (by rw [UInt8.size]; omega), if_pos (by omega)]
    simp
  next hd =>
    rw [UInt8.toNat_ofNat_of_lt' (by rw [UInt8.size]; omega), if_neg (by omega), if_pos (by omega)]
    simp

theorem digitValue_zero : digitValue zero = some 0 := by decide

theorem digitValue_nul : digitValue 0 = none := by decide

theorem digitValue_minus : digitValue 45 = none := by decide

theorem read_append (n : Nat) : read base n (text ++ rest) =
    (read base n text).bind fun m => read base m rest := by
  induction text generalizing n with
  | nil => rfl
  | cons c text ih =>
      simp only [List.cons_append, read]
      cases digitValue c with
      | none => rfl
      | some d =>
          by_cases hd : d < base
          · simp only [if_pos hd]
            exact ih (n * base + d)
          · simp only [if_neg hd, Option.bind_none]

theorem read_digit (hbase : base ≤ 36) (hd : d < base) (n : Nat) :
    read base n [digit d] = some (n * base + d) := by
  simp only [read, digitValue_digit (Nat.lt_of_lt_of_le hd hbase), if_pos hd]

/-! ## Numerals -/

theorem Numeral.ne_nil (h : Numeral base text n) : text ≠ [] := by
  intro hnil
  have hvalue := h.value
  rw [parse, if_pos hnil] at hvalue
  cases hvalue

theorem Numeral.read_eq (h : Numeral base text n) : read base 0 text = some n := by
  have hvalue := h.value
  rwa [parse, if_neg h.ne_nil] at hvalue

theorem Numeral.nul_not_mem (h : Numeral base text n) : 0 ∉ text := by
  intro hmem
  obtain ⟨d, -, hd⟩ := h.digits 0 hmem
  rw [digitValue_nul] at hd
  cases hd

theorem numeral_digit (hbase : base ≤ 36) (hd : d < base) : Numeral base [digit d] d where
  digits := by
    intro c hc
    rw [List.mem_singleton.mp hc]
    exact ⟨d, hd, digitValue_digit (Nat.lt_of_lt_of_le hd hbase)⟩
  leading := by
    intro hhead
    rw [List.head?_cons] at hhead
    rw [Option.some.inj hhead]
  value := by
    rw [parse, if_neg (List.cons_ne_nil _ _), read_digit hbase hd, Nat.zero_mul, Nat.zero_add]

theorem Numeral.snoc (h : Numeral base text n) (hn : n ≠ 0) (hbase : base ≤ 36) (hd : d < base) :
    Numeral base (text ++ [digit d]) (n * base + d) where
  digits := by
    intro c hc
    rcases List.mem_append.mp hc with hc | hc
    · exact h.digits c hc
    · exact (numeral_digit hbase hd).digits c hc
  leading := by
    intro hhead
    rw [List.head?_append_of_ne_nil _ h.ne_nil] at hhead
    -- only the numeral of zero starts with a zero
    have hread := h.read_eq
    rw [h.leading hhead] at hread
    have hbase' : 0 < base := Nat.lt_of_le_of_lt (Nat.zero_le d) hd
    rw [read, digitValue_zero] at hread
    simp only [if_pos hbase', Nat.zero_mul, Nat.zero_add, read, Option.some.injEq] at hread
    exact absurd hread.symm hn
  value := by
    rw [parse, if_neg (by simp), read_append, h.read_eq, Option.bind_some, read_digit hbase hd]

end Radix
