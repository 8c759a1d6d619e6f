import Mathlib.Data.List.TakeWhile
import ZiModem.Console.InputLoop

/-! # The console's keys

`RunInputLoop` on a terminal: a key that stands for a byte goes the same way as a
byte of a redirected input, and the others are ignored. The terminal's loop leaves
line feeds alone, so that the two ways part at the first one that is typed.
-/

namespace ZiModem.Console

open LineEnds

/-- `ConsoleKey`, as far as `MapKeyToByte` tells keys apart. -/
inductive ConsoleKey
  | backspace
  | tab
  | enter
  | escape
  | letter (n : Fin 26)
  | other
  deriving DecidableEq, Repr

/-- The key, the UTF-16 unit it stands for, and whether Control was held. -/
structure ConsoleKeyInfo where
  key : ConsoleKey
  keyChar : UInt16
  control : Bool
  deriving DecidableEq, Repr

def asciiByte (keyChar : UInt16) : Option UInt8 :=
  if keyChar ≠ 0 ∧ keyChar < 128 then some keyChar.toUInt8 else none

def mapKeyToByte (key : ConsoleKeyInfo) : Option UInt8 :=
  match key.key with
  | .enter => some cr
  | .backspace => some 0x08
  | .tab => some 0x09
  | .escape => some 0x1B
  | .letter n => if key.control then some (UInt8.ofNat (n + 1)) else asciiByte key.keyChar
  | .other => asciiByte key.keyChar

/-- The loop of `RunInputLoop` that reads keys, up to where it waits for the next one. -/
def keyLoop (dataDir : List Char) : Session → List ConsoleKeyInfo → Session
  | s, [] => s
  | s, key :: keys =>
      match mapKeyToByte key with
      | none => keyLoop dataDir s keys
      | some b =>
          let (s, more) := handleByte dataDir s b
          if more then keyLoop dataDir s keys else s

def typed (keys : List ConsoleKeyInfo) : List UInt8 := keys.filterMap mapKeyToByte

/-! ## Keys -/

theorem asciiByte_lt {keyChar : UInt16} {b : UInt8} (h : asciiByte keyChar = some b) : b < 128 := by
  unfold asciiByte at h
  split at h
  next hascii =>
    cases h
    have hlt : keyChar.toNat < 128 := UInt16.lt_iff_toNat_lt.mp hascii.2
    rw [UInt8.lt_iff_toNat_lt, UInt16.toNat_toUInt8]
    exact lt_of_le_of_lt (Nat.mod_le _ _) hlt
  next => cases h

theorem mapKeyToByte_lt {key : ConsoleKeyInfo} {b : UInt8} (h : mapKeyToByte key = some b) :
    b < 128 := by
  unfold mapKeyToByte at h
  split at h
  case h_5 n _ =>
    split at h
    · cases h
      have hlt : n.val + 1 < 27 := Nat.succ_lt_succ n.isLt
      rw [UInt8.lt_iff_toNat_lt, UInt8.toNat_ofNat']
      exact lt_of_le_of_lt (Nat.mod_le _ _) (hlt.trans (by decide))
    · exact asciiByte_lt h
  case h_6 => exact asciiByte_lt h
  all_goals
    cases h
    decide

/-! ## The loop -/

/-- What becomes of a session when it is sent a text without a Ctrl+Q. -/
def Session.hear (dataDir : List Char) (s : Session) (text : List UInt8) : Session :=
  ⟨s.written ++ sent text, s.printed ++ List.replicate (text.count ctrlD) dataDir⟩

section Hear

variable (dataDir : List Char) (s : Session)

theorem hear_nil : s.hear dataDir [] = s := by
  simp [Session.hear, sent]

theorem hear_cons {b : UInt8} (hb : b ≠ ctrlQ) (text : List UInt8) :
    s.hear dataDir (b :: text) = (handleByte dataDir s b).1.hear dataDir text := by
  rw [handleByte, if_neg hb]
  by_cases hd : b = ctrlD
  · rw [if_pos hd, hd]
    simp [Session.hear, sent, List.replicate_succ]
  · rw [if_neg hd]
    have hcount : (b :: text).count ctrlD = text.count ctrlD := List.count_cons_of_ne hd
    have hsent : sent (b :: text) = b :: sent text := List.filter_cons_of_pos (bne_iff_ne.mpr hd)
    simp [Session.hear, hcount, hsent]

theorem handleByte_more {b : UInt8} : (handleByte dataDir s b).2 = true ↔ b ≠ ctrlQ := by
  unfold handleByte
  split_ifs with hq hd <;> simp [hq]

end Hear

/-- The keys up to the first Ctrl+Q are sent as they are, but for the Ctrl+Ds. -/
theorem keyLoop_eq (dataDir : List Char) (s : Session) (keys : List ConsoleKeyInfo) :
    keyLoop dataDir s keys = s.hear dataDir (heard (typed keys)) := by
  induction keys generalizing s with
  | nil => exact (hear_nil dataDir s).symm
  | cons key keys ih =>
      cases hkey : mapKeyToByte key with
      | none =>
          have htyped : typed (key :: keys) = typed keys := List.filterMap_cons_none hkey
          rw [htyped, ← ih]
          simp only [keyLoop, hkey]
      | some b =>
          have htyped : typed (key :: keys) = b :: typed keys := List.filterMap_cons_some hkey
          by_cases hq : b = ctrlQ
          · have hstop : heard (b :: typed keys) = [] := by
              rw [hq, heard, List.takeWhile_cons_of_neg (by decide)]
            rw [htyped, hstop, hear_nil]
            simp only [keyLoop, hkey, hq]
            rfl
          · rw [htyped, heard_cons hq, hear_cons dataDir s hq, ← ih]
            simp only [keyLoop, hkey, (handleByte_more dataDir s).mpr hq, if_true]

/-- A redirected input without a line feed goes the same way. -/
theorem readLoop_eq (dataDir : List Char) (s : Session) (lastWasCr : Bool) (stdin : List UInt8)
    (hlf : lf ∉ heard stdin) :
    readLoop dataDir s lastWasCr stdin = s.hear dataDir (heard stdin) := by
  induction stdin generalizing s lastWasCr with
  | nil => exact (hear_nil dataDir s).symm
  | cons b stdin ih =>
      by_cases hq : b = ctrlQ
      · rw [hq, readLoop_quit, heard, List.takeWhile_cons_of_neg (by decide), hear_nil]
      · rw [heard_cons hq, List.mem_cons, not_or] at hlf
        have hb : b ≠ lf := Ne.symm hlf.1
        rw [heard_cons hq, hear_cons dataDir s hq, ← ih _ (decide (b = cr)) hlf.2, readLoop,
          if_neg fun h => hb h.2]
        simp only [if_neg hb, (handleByte_more dataDir s).mpr hq, if_true]

theorem lf_notMem_readLoop (dataDir : List Char) (stdin : List UInt8) :
    lf ∉ (readLoop dataDir ⟨[], []⟩ false stdin).written := by
  obtain ⟨text, htext, hsent⟩ := forwarded_sent dataDir stdin
  rw [forwarded] at hsent
  rw [hsent]
  intro hmem
  exact htext.lf_notMem (List.mem_of_mem_filter hmem)

/-- What is typed at the terminal goes to the modem as ASCII, without the two keys that the console
handles itself. The same bytes on a redirected input do the same, exactly if there is no line feed
among them before the first Ctrl+Q. -/
theorem typed_as_redirected (dataDir : List Char) (keys : List ConsoleKeyInfo) :
    (∀ b ∈ (keyLoop dataDir ⟨[], []⟩ keys).written, b < 128 ∧ b ≠ ctrlQ ∧ b ≠ ctrlD) ∧
      (keyLoop dataDir ⟨[], []⟩ keys = readLoop dataDir ⟨[], []⟩ false (typed keys) ↔
        lf ∉ (typed keys).takeWhile (· != ctrlQ)) := by
  rw [keyLoop_eq]
  constructor
  · intro b hb
    have hsent : b ∈ sent (heard (typed keys)) := hb
    have hheard : b ∈ heard (typed keys) := List.mem_of_mem_filter hsent
    obtain ⟨key, -, hkey⟩ := List.mem_filterMap.mp ((List.takeWhile_sublist _).subset hheard)
    have hquit : (b != ctrlQ) = true := List.mem_takeWhile_imp (p := (· != ctrlQ)) hheard
    exact ⟨mapKeyToByte_lt hkey, bne_iff_ne.mp hquit, bne_iff_ne.mp (List.mem_filter.mp hsent).2⟩
  · constructor
    · intro hsame hlf
      apply lf_notMem_readLoop dataDir (typed keys)
      rw [← hsame]
      exact List.mem_filter.mpr ⟨hlf, by decide⟩
    · intro hlf
      exact (readLoop_eq dataDir _ false _ hlf).symm

/-- Enter, a line feed by Ctrl+J, the data directory, an arrow key, and the end. -/
example : keyLoop ['d'] ⟨[], []⟩ [⟨.enter, 13, false⟩, ⟨.letter 9, 10, true⟩, ⟨.letter 3, 4, true⟩,
    ⟨.other, 0, false⟩, ⟨.letter 16, 17, true⟩, ⟨.tab, 9, false⟩] = ⟨[13, 10], [['d']]⟩ := by
  decide

end ZiModem.Console
