import ZiModem.Hal.Arduino.WString
import ZiModem.Text.Substitution

/-! # `String::replace`

The string is rewritten in place: behind each occurrence that is found, the
search goes on at the end of the inserted text. The part behind that position is
still the end of the original string, which is what the loop invariant says.
-/

namespace ZiModem.Hal.Arduino

open Substitution

/-- `std::string::find`. -/
def stdFind (value find : List UInt8) (pos : Nat) : Option Nat :=
  if pos ≤ value.length then (firstMatch find (value.drop pos)).map (pos + ·) else none

/-- `std::string::replace`. -/
def stdReplace (value : List UInt8) (pos count : Nat) (rep : List UInt8) : List UInt8 :=
  value.take pos ++ rep ++ value.drop (pos + count)

theorem stdFind_eq_some {value find : List UInt8} {pos hit : Nat}
    (h : stdFind value find pos = some hit) : pos ≤ hit ∧ hit + find.length ≤ value.length := by
  unfold stdFind at h
  split at h
  next hpos =>
    obtain ⟨n, hn, rfl⟩ := Option.map_eq_some_iff.mp h
    have hlength := (firstMatch_eq_some hn).2.1.length_le
    have hinside := (firstMatch_eq_some hn).1
    rw [List.drop_drop, List.length_drop] at hlength
    rw [List.length_drop] at hinside
    omega
  next => cases h

theorem stdReplace_length {value : List UInt8} {pos count : Nat} (rep : List UInt8)
    (h : pos + count ≤ value.length) :
    (stdReplace value pos count rep).length + count = value.length + rep.length := by
  simp only [stdReplace, List.length_append, List.length_take, List.length_drop]
  omega

def replaceLoop (find rep : List UInt8) (hfind : find ≠ []) (value : List UInt8) (pos : Nat) :
    List UInt8 :=
  match _ : stdFind value find pos with
  | none => value
  | some hit =>
      replaceLoop find rep hfind (stdReplace value hit find.length rep) (hit + rep.length)
termination_by value.length - pos
decreasing_by
  have hinside := stdFind_eq_some ‹stdFind value find pos = some hit›
  have hlength := stdReplace_length rep hinside.2
  have hpos := List.length_pos_iff.mpr hfind
  omega

def WString.replace (s find rep : WString) : WString :=
  if hfind : find.value = [] then s else ⟨replaceLoop find.value rep.value hfind s.value 0⟩

theorem stdFind_append (done rest find : List UInt8) :
    stdFind (done ++ rest) find done.length = (firstMatch find rest).map (done.length + ·) := by
  rw [stdFind, if_pos (by simp), List.drop_left]

/-- The loop leaves what is done alone and substitutes in the rest. -/
theorem replaceLoop_substituted {find : List UInt8} (rep : List UInt8) (hfind : find ≠ [])
    (done rest : List UInt8) :
    ∃ out k, replaceLoop find rep hfind (done ++ rest) done.length = done ++ out ∧
      Substituted find rep rest out k := by
  induction hn : rest.length using Nat.strong_induction_on generalizing done rest with
  | _ n ih =>
      subst hn
      unfold replaceLoop
      rw [stdFind_append]
      cases hmatch : firstMatch find rest with
      | none =>
          apply Exists.intro rest
          apply Exists.intro 0
          constructor
          · rfl
          · apply substituted_of_absent
            intro n _
            exact firstMatch_eq_none hmatch n
      | some n =>
          obtain ⟨hn, hhere, hbefore⟩ := firstMatch_eq_some hmatch
          have hlength := hhere.length_le
          rw [List.length_drop] at hlength
          have hpos := List.length_pos_iff.mpr hfind
          -- what stands before the occurrence is done now, and so is the inserted text
          have hvalue : stdReplace (done ++ rest) (done.length + n) find.length rep =
              (done ++ rest.take n ++ rep) ++ rest.drop (n + find.length) := by
            rw [stdReplace, List.take_length_add_append, Nat.add_assoc,
              List.drop_length_add_append]
          have hplace : done.length + n + rep.length = (done ++ rest.take n ++ rep).length := by
            rw [List.length_append, List.length_append, List.length_take, Nat.min_eq_left hn]
          obtain ⟨out, k, hrun, hsub⟩ := ih (rest.drop (n + find.length)).length
            (by rw [List.length_drop]; omega) (done ++ rest.take n ++ rep)
            (rest.drop (n + find.length)) rfl
          apply Exists.intro (rest.take n ++ rep ++ out)
          apply Exists.intro (k + 1)
          constructor
          · simp only [Option.map_some]
            rw [hvalue, hplace, hrun]
            simp only [List.append_assoc]
          · exact hsub.hit_after hn hhere hbefore

theorem replace_value {find : WString} (s rep : WString) (hfind : find.value ≠ []) :
    ∃ k, Substituted find.value rep.value s.value (s.replace find rep).value k := by
  obtain ⟨out, k, hrun, hsub⟩ := replaceLoop_substituted rep.value hfind [] s.value
  rw [List.nil_append, List.length_nil] at hrun
  rw [WString.replace, dif_neg hfind, hrun]
  exact ⟨k, hsub⟩

/-- `replace` gives what reading the original string from left to right gives, which changes the
length by the difference of the two texts at each occurrence; and it leaves a string alone in
which there is nothing to find. -/
theorem replace_leftmost (s find rep : WString) :
    (find.value ≠ [] → ∃ k : Nat,
      (∀ out n, Substituted find.value rep.value s.value out n ↔
        out = (s.replace find rep).value ∧ n = k) ∧
      ((s.replace find rep).value.length : Int) =
        s.value.length + k * ((rep.value.length : Int) - find.value.length)) ∧
    (find.value = [] ∨ ¬ find.value <:+: s.value → s.replace find rep = s) := by
  constructor
  · intro hfind
    obtain ⟨k, hsub⟩ := replace_value s rep hfind
    apply Exists.intro k
    constructor
    · intro out n
      constructor
      · exact fun h => h.unique hfind hsub
      · rintro ⟨rfl, rfl⟩
        exact hsub
    · have hlength := hsub.length_eq
      have hcast := congrArg (Nat.cast : Nat → Int) hlength
      push_cast at hcast
      rw [Int.mul_sub]
      omega
  · intro hnone
    by_cases hfind : find.value = []
    · rw [WString.replace, dif_pos hfind]
    · obtain ⟨k, hsub⟩ := replace_value s rep hfind
      have habsent : Substituted find.value rep.value s.value s.value 0 := by
        apply substituted_of_absent
        intro n _ hhere
        apply hnone.resolve_left hfind
        exact hhere.isInfix.trans (List.drop_suffix n s.value).isInfix
      have hvalue := (hsub.unique hfind habsent).1
      cases hs : s.replace find rep with
      | mk value =>
          rw [hs] at hvalue
          cases s
          exact congrArg WString.mk hvalue

end ZiModem.Hal.Arduino
