import Mathlib.Data.List.Infix

/-! # The ends of lines

A line of bytes ends in a carriage return, in a line feed, or in the pair of the
two. `OneCr` reads a text from left to right and turns every end into a single
carriage return; `toCrlf` puts a carriage return before every line feed. A line
here has neither byte, so what ends it is never in doubt.
-/

namespace LineEnds

def cr : UInt8 := 13

def lf : UInt8 := 10

@[simp] theorem cr_ne_lf : cr ≠ lf := by decide

@[simp] theorem lf_ne_cr : lf ≠ cr := by decide

variable {xs ys out out' : List UInt8} {b : UInt8}

/-! ## Pairs -/

def Paired (xs : List UInt8) : Prop := [cr, lf] <:+: xs

instance : Decidable (Paired xs) := inferInstanceAs (Decidable ([cr, lf] <:+: xs))

theorem not_paired_nil : ¬ Paired [] := by simp [Paired]

theorem paired_cons_iff : Paired (b :: xs) ↔ (b = cr ∧ xs.head? = some lf) ∨ Paired xs := by
  rw [Paired, List.infix_cons_iff, List.cons_prefix_cons, List.singleton_prefix_iff_head?_eq_some,
    eq_comm, Paired]

def toCrlf : List UInt8 → List UInt8
  | [] => []
  | b :: xs => if b = lf then cr :: lf :: toCrlf xs else b :: toCrlf xs

theorem head_toCrlf_ne (xs : List UInt8) : (toCrlf xs).head? ≠ some lf := by
  cases xs with
  | nil => simp [toCrlf]
  | cons b xs =>
      rw [toCrlf]
      split
      next => simp
      next hlf => simpa using hlf

inductive CrsRemoved : List UInt8 → List UInt8 → Prop
  | nil : CrsRemoved [] []
  | keep (b : UInt8) {xs ys : List UInt8} (rest : CrsRemoved xs ys) : CrsRemoved (b :: xs) (b :: ys)
  | remove {xs ys : List UInt8} (rest : CrsRemoved xs ys) : CrsRemoved (cr :: xs) ys

theorem CrsRemoved.length_le (h : CrsRemoved xs ys) : ys.length ≤ xs.length := by
  induction h with
  | nil => exact Nat.le_refl _
  | keep b rest ih => exact Nat.succ_le_succ ih
  | remove rest ih => exact Nat.le_succ_of_le ih

/-! ## One carriage return for every end -/

/-- Read from left to right, every end of a line gives one carriage return; other bytes stay. -/
inductive OneCr : List UInt8 → List UInt8 → Prop
  | nil : OneCr [] []
  | pair {xs out : List UInt8} (rest : OneCr xs out) : OneCr (cr :: lf :: xs) (cr :: out)
  | lf {xs out : List UInt8} (rest : OneCr xs out) : OneCr (lf :: xs) (cr :: out)
  | cr {xs out : List UInt8} (hlone : xs.head? ≠ some lf) (rest : OneCr xs out) :
      OneCr (cr :: xs) (cr :: out)
  | other {b : UInt8} {xs out : List UInt8} (hcr : b ≠ cr) (hlf : b ≠ lf) (rest : OneCr xs out) :
      OneCr (b :: xs) (b :: out)

theorem OneCr.unique (h : OneCr xs out) (h' : OneCr xs out') : out = out' := by
  induction h generalizing out' with
  | nil =>
      cases h'
      rfl
  | pair rest ih =>
      cases h' with
      | pair rest' => rw [ih rest']
      | cr hlone rest' => exact absurd rfl hlone
      | other hcr hlf rest' => exact absurd rfl hcr
  | lf rest ih =>
      generalize hxs : LineEnds.lf :: _ = ys at h'
      cases h' with
      | nil => cases hxs
      | pair rest' => exact absurd (List.cons.inj hxs).1 lf_ne_cr
      | lf rest' =>
          obtain ⟨-, rfl⟩ := List.cons.inj hxs
          rw [ih rest']
      | cr hlone rest' => exact absurd (List.cons.inj hxs).1 lf_ne_cr
      | other hcr hlf rest' => exact absurd (List.cons.inj hxs).1.symm hlf
  | cr hlone rest ih =>
      generalize hxs : LineEnds.cr :: _ = ys at h'
      cases h' with
      | nil => cases hxs
      | pair rest' =>
          obtain ⟨-, rfl⟩ := List.cons.inj hxs
          exact absurd rfl hlone
      | lf rest' => exact absurd (List.cons.inj hxs).1 cr_ne_lf
      | cr hlone' rest' =>
          obtain ⟨-, rfl⟩ := List.cons.inj hxs
          rw [ih rest']
      | other hcr hlf rest' => exact absurd (List.cons.inj hxs).1.symm hcr
  | other hcr hlf rest ih =>
      cases h' with
      | pair rest' => exact absurd rfl hcr
      | lf rest' => exact absurd rfl hlf
      | cr hlone rest' => exact absurd rfl hcr
      | other hcr' hlf' rest' => rw [ih rest']

theorem OneCr.lf_notMem (h : OneCr xs out) : LineEnds.lf ∉ out := by
  induction h with
  | nil => exact List.not_mem_nil
  | pair _ ih | lf _ ih | cr _ _ ih => simp [ih, lf_ne_cr]
  | other _ hlf _ ih => simp [ih, Ne.symm hlf]

theorem head_takeWhile_ne {p : UInt8 → Bool} (h : xs.head? ≠ some lf) :
    (xs.takeWhile p).head? ≠ some lf := by
  rw [List.head?_takeWhile]
  intro hfilter
  exact h (Option.filter_eq_some_iff.mp hfilter).1

/-- Cutting the text at a byte that ends no line cuts the result there. -/
theorem OneCr.takeWhile {p : UInt8 → Bool} (hcr : p LineEnds.cr = true)
    (hlf : p LineEnds.lf = true) (h : OneCr xs out) :
    OneCr (xs.takeWhile p) (out.takeWhile p) := by
  induction h with
  | nil => exact .nil
  | pair rest ih =>
      rw [List.takeWhile_cons_of_pos hcr, List.takeWhile_cons_of_pos hlf,
        List.takeWhile_cons_of_pos hcr]
      exact .pair ih
  | lf rest ih =>
      rw [List.takeWhile_cons_of_pos hlf, List.takeWhile_cons_of_pos hcr]
      exact .lf ih
  | cr hlone rest ih =>
      rw [List.takeWhile_cons_of_pos hcr, List.takeWhile_cons_of_pos hcr]
      exact .cr (head_takeWhile_ne hlone) ih
  | @other b xs out hbcr hblf rest ih =>
      by_cases hb : p b = true
      · rw [List.takeWhile_cons_of_pos hb, List.takeWhile_cons_of_pos hb]
        exact .other hbcr hblf ih
      · rw [List.takeWhile_cons_of_neg hb, List.takeWhile_cons_of_neg hb]
        exact .nil

/-! ## Lines and their ends -/

structure Line where
  bytes : List UInt8
  cr_not_mem : cr ∉ bytes
  lf_not_mem : lf ∉ bytes

inductive Ending
  | cr
  | lf
  | crlf
  deriving DecidableEq, Repr

def Ending.bytes : Ending → List UInt8
  | cr => [LineEnds.cr]
  | lf => [LineEnds.lf]
  | crlf => [LineEnds.cr, LineEnds.lf]

def join (e : Ending) (lines : List Line) (last : Line) : List UInt8 :=
  match lines with
  | [] => last.bytes
  | line :: lines => line.bytes ++ (e.bytes ++ join e lines last)

theorem Line.head_ne_lf (line : Line) (h : xs.head? ≠ some lf) :
    (line.bytes ++ xs).head? ≠ some lf := by
  obtain ⟨bytes, hcr, hlf⟩ := line
  cases bytes with
  | nil => exact h
  | cons b bytes =>
      intro hb
      exact hlf (Option.some.inj hb ▸ List.mem_cons_self)

theorem head_join_cr (lines : List Line) (last : Line) :
    (join .cr lines last).head? ≠ some lf := by
  cases lines with
  | nil =>
      have h : (last.bytes ++ []).head? ≠ some lf := last.head_ne_lf nofun
      rwa [List.append_nil] at h
  | cons line lines => exact line.head_ne_lf fun h => absurd (Option.some.inj h) cr_ne_lf

theorem OneCr.line (line : Line) (h : OneCr xs out) :
    OneCr (line.bytes ++ xs) (line.bytes ++ out) := by
  obtain ⟨bytes, hcr, hlf⟩ := line
  induction bytes with
  | nil => exact h
  | cons b bytes ih =>
      rw [List.mem_cons, not_or] at hcr hlf
      exact .other (Ne.symm hcr.1) (Ne.symm hlf.1) (ih hcr.2 hlf.2)

/-- However the lines end, they come out ended by carriage returns. -/
theorem oneCr_join (e : Ending) (lines : List Line) (last : Line) :
    OneCr (join e lines last) (join .cr lines last) := by
  induction lines with
  | nil =>
      have h := OneCr.line last .nil
      rwa [List.append_nil] at h
  | cons line lines ih =>
      apply OneCr.line
      cases e with
      | cr => exact .cr (head_join_cr lines last) ih
      | lf => exact .lf ih
      | crlf => exact .pair ih

end LineEnds
