import ZiModem.Hal.Arduino.Print
import ZiModem.Hal.CInt

/-! # Formatted output

`log.cpp` asks `vsnprintf` for the length of the text first and then formats into
a buffer of that size. `Print::printf` formats into an array and hands on what
fits. The model of a call takes the text that its format and arguments make.
-/

namespace ZiModem.Hal

/-- `vsnprintf` into `size` bytes: the length of the text, or a negative value where an `int` cannot
hold it, and what it stores. -/
def vsnprintf (text : List UInt8) (size : Nat) : Int × List UInt8 :=
  (if text.length ≤ intMax then text.length else -1,
    if size = 0 then [] else text.take (size - 1) ++ [0])

/-- `g_sink`: whether there is one, and the messages it has been handed. -/
structure Log where
  sink : Bool
  handed : List (List UInt8)
  deriving DecidableEq, Repr

namespace Log

def write (log : Log) (message : List UInt8) : Log :=
  if log.sink then { log with handed := log.handed ++ [message] } else log

/-- `vwritef`, and `writef`. -/
def vwritef (log : Log) (text : List UInt8) : Log :=
  let needed := (vsnprintf text 0).1
  if needed < 0 then log
  else
    let buf := (vsnprintf text (needed.toNat + 1)).2
    log.write (buf.take needed.toNat)

end Log

namespace Arduino

def printfSize : Nat := 256

def Print.printf {σ : Type*} (p : Print σ) (s : σ) (text : List UInt8) : σ × Nat :=
  let (n, buf) := vsnprintf text printfSize
  if n ≤ 0 then (s, 0)
  else
    let len := if n.toNat < printfSize then n.toNat else printfSize - 1
    p.writeBuffer s (buf.take len)

end Arduino

theorem Log.vwritef_handed {log : Log} (hsink : log.sink = true) {text : List UInt8}
    (hfits : text.length ≤ intMax) : (log.vwritef text).handed = log.handed ++ [text] := by
  have hbuf : (text ++ [0]).take text.length = text := List.take_left
  have hnonneg : ¬ (text.length : Int) < 0 := by omega
  simp [Log.vwritef, vsnprintf, if_pos hfits, if_neg hnonneg, hbuf, Log.write, hsink]

namespace Arduino

variable {σ : Type*} {p : Print σ} {ready : σ → Prop} {emitted : σ → List UInt8} {st : σ}

theorem printf_accepting (haccept : p.Accepting ready emitted) (hst : ready st)
    {text : List UInt8} (hfits : text.length ≤ intMax) :
    emitted (p.printf st text).1 = emitted st ++ text.take 255 ∧
      (p.printf st text).2 = (text.take 255).length := by
  by_cases hempty : text = []
  · simp [Print.printf, vsnprintf, hempty, intMax]
  · have hpos : ¬ (text.length : Int) ≤ 0 := by
      have hlength := List.length_pos_iff.mpr hempty
      omega
    have htext : ((text.take 255 ++ [0]).take (if text.length < 256 then text.length else 255)) =
        text.take 255 := by
      split
      next hshort =>
        rw [List.take_of_length_le (by omega : text.length ≤ 255), List.take_left]
      next hlong =>
        rw [List.take_append_of_le_length (by rw [List.length_take]; omega), List.take_take,
          Nat.min_self]
    have hprintf : p.printf st text = p.writeBuffer st (text.take 255) := by
      simp only [Print.printf, vsnprintf, if_pos hfits, if_neg hpos, printfSize,
        Int.toNat_natCast]
      exact congrArg (p.writeBuffer st) htext
    rw [hprintf]
    exact ⟨haccept.appends st _ hst, haccept.counts st _ hst⟩

/-- The two formatters agree exactly on the texts of at most 255 bytes. -/
theorem formatters_agree_iff {log : Log} (hsink : log.sink = true)
    (haccept : p.Accepting ready emitted) (hst : ready st) (text : List UInt8) :
    ((log.vwritef text).handed = log.handed ++ [text] ∧
        emitted (p.printf st text).1 = emitted st ++ text ∧
        (p.printf st text).2 = text.length) ↔
      text.length ≤ 255 := by
  constructor
  · rintro ⟨-, -, hcount⟩
    by_cases hfits : text.length ≤ intMax
    · rw [(printf_accepting haccept hst hfits).2, List.length_take] at hcount
      omega
    · have hnone : (p.printf st text).2 = 0 := by
        simp [Print.printf, vsnprintf, hfits]
      rw [hnone] at hcount
      omega
  · intro hshort
    have hfits : text.length ≤ intMax := by
      simp only [intMax]
      omega
    obtain ⟨hemitted, hcount⟩ := printf_accepting haccept hst hfits
    rw [List.take_of_length_le hshort] at hemitted hcount
    exact ⟨Log.vwritef_handed hsink hfits, hemitted, hcount⟩

def collect : Print (List UInt8) := .ofByte fun s b => (s ++ [b], 1)

theorem collect_accepting : collect.Accepting (fun _ => True) id :=
  Print.accepting_ofByte fun _ _ _ => ⟨trivial, rfl, Nat.one_ne_zero⟩

/-- The record `1,a`. -/
theorem formatters_agree_record :
    ((Log.vwritef ⟨true, []⟩ [49, 44, 97]).handed = [] ++ [[49, 44, 97]] ∧
        id (collect.printf [] [49, 44, 97]).1 = id [] ++ [49, 44, 97] ∧
        (collect.printf [] [49, 44, 97]).2 = 3) ↔
      [49, 44, 97].length ≤ 255 :=
  have hsink : (Log.mk true []).sink = true := rfl
  formatters_agree_iff hsink collect_accepting trivial [49, 44, 97]

/-- Of 256 bytes `printf` writes 255. -/
theorem not_formatters_agree :
    ¬ ∀ text : List UInt8, id (collect.printf [] text).1 = id [] ++ text ∧
      (collect.printf [] text).2 = text.length := by
  intro hall
  have hcount := (hall (List.replicate 256 65)).2
  rw [(printf_accepting collect_accepting trivial (by rw [List.length_replicate]; decide)).2,
    List.length_take, List.length_replicate] at hcount
  revert hcount
  decide

end Arduino

end ZiModem.Hal
