import Mathlib.Algebra.Group.Nat.Defs
import Mathlib.Data.List.Basic

/-! # Dotted decimal text

Decimal numerals without leading zeros, and numerals with a dot between each
other, in the bytes of ASCII. `print` is what `%u` makes of a number, `scan` the
usual loop that reads dotted numbers of one byte each and refuses everything else.
-/

namespace Dotted

/-! ## Numerals -/

def zero : UInt8 := 48

def dot : UInt8 := 46

def isDigit (c : UInt8) : Bool := 48 ≤ c.toNat && c.toNat ≤ 57

def value (n : Nat) (text : List UInt8) : Nat :=
  text.foldl (fun n c => n * 10 + (c.toNat - 48)) n

structure Numeral (text : List UInt8) (n : Nat) : Prop where
  ne_nil : text ≠ []
  digits : ∀ c ∈ text, isDigit c = true
  leading : text.head? = some zero → text = [zero]
  value : value 0 text = n

/-- What `%u` prints. -/
def print (n : Nat) : List UInt8 := (Nat.toDigits 10 n).map fun c => .ofNat c.toNat

variable {text rest pre : List UInt8} {n m : Nat} {c : UInt8}

theorem dot_not_digit : isDigit dot = false := by decide

theorem value_append (n : Nat) (text rest : List UInt8) :
    value n (text ++ rest) = value (value n text) rest := List.foldl_append

theorem le_value (n : Nat) (text : List UInt8) : n ≤ value n text := by
  induction text generalizing n with
  | nil => exact Nat.le_refl n
  | cons c text ih =>
      have hrest := ih (n * 10 + (c.toNat - 48))
      show n ≤ value (n * 10 + (c.toNat - 48)) text
      omega

theorem Numeral.dot_not_mem (h : Numeral text n) : dot ∉ text := by
  intro hmem
  have hdigit := h.digits dot hmem
  rw [dot_not_digit] at hdigit
  cases hdigit

theorem Numeral.head_zero (h : Numeral text 0) : text.head? = some zero := by
  obtain ⟨c, text, rfl⟩ := List.exists_cons_of_ne_nil h.ne_nil
  have hdigit := h.digits c List.mem_cons_self
  have hvalue : Dotted.value (0 * 10 + (c.toNat - 48)) text = 0 := h.value
  have hle := le_value (0 * 10 + (c.toNat - 48)) text
  simp only [isDigit, Bool.and_eq_true, decide_eq_true_eq] at hdigit
  have hzero : c = zero := by
    apply UInt8.toNat_inj.mp
    show c.toNat = 48
    omega
  rw [List.head?_cons, hzero]

theorem digit_byte {d : Nat} (hd : d < 10) :
    (UInt8.ofNat d.digitChar.toNat).toNat = 48 + d := by
  rw [Nat.toNat_digitChar_of_lt_ten hd, UInt8.toNat_ofNat_of_lt' (by rw [UInt8.size]; omega)]

theorem print_of_lt (h : n < 10) : print n = [.ofNat n.digitChar.toNat] := by
  rw [print, Nat.toDigits_of_lt_base h]
  rfl

theorem print_of_le (h : 10 ≤ n) :
    print n = print (n / 10) ++ [.ofNat (n % 10).digitChar.toNat] := by
  rw [print, Nat.toDigits_of_base_le (by decide) h, List.map_append]
  rfl

theorem numeral_print (n : Nat) : Numeral (print n) n := by
  induction n using Nat.strongRecOn with
  | ind n ih =>
      by_cases hn : n < 10
      · have hbyte := digit_byte hn
        rw [print_of_lt hn]
        refine ⟨List.cons_ne_nil _ _, ?_, ?_, ?_⟩
        · intro c hc
          rw [List.mem_singleton.mp hc, isDigit, hbyte]
          simp
          omega
        · intro hhead
          rw [List.head?_cons] at hhead
          rw [Option.some.inj hhead]
        · simp [Dotted.value, hbyte]
      · have hlast : n % 10 < 10 := Nat.mod_lt n (by decide)
        have hbyte := digit_byte hlast
        have hbefore := ih (n / 10) (by omega)
        rw [print_of_le (by omega)]
        refine ⟨by simp, ?_, ?_, ?_⟩
        · intro c hc
          rcases List.mem_append.mp hc with hc | hc
          · exact hbefore.digits c hc
          · rw [List.mem_singleton.mp hc, isDigit, hbyte]
            simp
            omega
        · intro hhead
          rw [List.head?_append_of_ne_nil _ hbefore.ne_nil] at hhead
          have hvalue := hbefore.value
          rw [hbefore.leading hhead] at hvalue
          have hzero : n / 10 = 0 := hvalue.symm
          omega
        · rw [value_append, hbefore.value]
          simp only [Dotted.value, List.foldl_cons, List.foldl_nil, hbyte]
          omega

theorem print_length_le {k : Nat} (hk : 0 < k) (h : n < 10 ^ k) : (print n).length ≤ k := by
  rw [print, List.length_map]
  exact (Nat.length_toDigits_le_iff (by decide) hk).mpr h

/-! ## Dotted numerals -/

/-- `text` is the numerals of `ns`, with a dot between each other. -/
inductive Spells : List UInt8 → List Nat → Prop
  | last {text : List UInt8} {n : Nat} (h : Numeral text n) : Spells text [n]
  | more {text rest : List UInt8} {n : Nat} {ns : List Nat} (h : Numeral text n)
      (tail : Spells rest ns) : Spells (text ++ dot :: rest) (n :: ns)

variable {ns : List Nat}

theorem Spells.ne_nil (h : Spells text ns) : ns ≠ [] := by
  cases h with
  | last h => exact List.cons_ne_nil _ _
  | more h tail => exact List.cons_ne_nil _ _

theorem Spells.chars (h : Spells text ns) (hc : c ∈ text) : isDigit c = true ∨ c = dot := by
  induction h with
  | last h => exact .inl (h.digits c hc)
  | more h tail ih =>
      rcases List.mem_append.mp hc with hc | hc
      · exact .inl (h.digits c hc)
      · rcases List.mem_cons.mp hc with rfl | hc
        · exact .inr rfl
        · exact ih hc

theorem Spells.first (h : Spells text ns) (hpre : pre <+: text)
    (hdigits : ∀ c ∈ pre, isDigit c = true) :
    ∃ first n, Numeral first n ∧ n ∈ ns ∧ pre <+: first := by
  cases h with
  | last h => exact ⟨text, _, h, List.mem_cons_self, hpre⟩
  | @more first rest n ns h tail =>
      refine ⟨first, n, h, List.mem_cons_self, ?_⟩
      rcases List.prefix_or_prefix_of_prefix hpre (List.prefix_append first (dot :: rest)) with
        hshort | ⟨ys, rfl⟩
      · exact hshort
      · -- what goes on behind the numeral goes on with the dot
        cases ys with
        | nil =>
            exact ⟨[], by simp only [List.append_nil]⟩
        | cons y ys =>
            have hy := (List.prefix_append_right_inj first).mp hpre
            rw [List.cons_prefix_cons] at hy
            have hdigit := hdigits y (List.mem_append_right _ List.mem_cons_self)
            rw [hy.1, dot_not_digit] at hdigit
            cases hdigit

theorem append_dot_inj {xs ys r s : List UInt8} (hx : dot ∉ xs) (hy : dot ∉ ys)
    (h : xs ++ dot :: r = ys ++ dot :: s) : xs = ys ∧ r = s := by
  induction xs generalizing ys with
  | nil =>
      cases ys with
      | nil =>
          cases h
          exact ⟨rfl, rfl⟩
      | cons y ys =>
          cases h
          exact absurd List.mem_cons_self hy
  | cons x xs ih =>
      cases ys with
      | nil =>
          cases h
          exact absurd List.mem_cons_self hx
      | cons y ys =>
          rw [List.mem_cons, not_or] at hx hy
          rw [List.cons_append, List.cons_append, List.cons.injEq] at h
          obtain ⟨rfl, hrest⟩ := ih hx.2 hy.2 h.2
          exact ⟨by rw [h.1], hrest⟩

theorem spells_dot_iff (hpre : Numeral pre n) :
    Spells (pre ++ dot :: text) ns ↔ ∃ ns', ns = n :: ns' ∧ Spells text ns' := by
  constructor
  · intro h
    generalize hwhole : pre ++ dot :: text = whole at h
    cases h with
    | last h =>
        subst hwhole
        exact absurd (List.mem_append_right _ List.mem_cons_self) h.dot_not_mem
    | @more first rest m ns h tail =>
        obtain ⟨rfl, rfl⟩ := append_dot_inj hpre.dot_not_mem h.dot_not_mem hwhole
        exact ⟨ns, by rw [← hpre.value, ← h.value], tail⟩
  · rintro ⟨ns', rfl, h⟩
    exact .more hpre h

theorem spells_last_iff (hpre : Numeral pre n) : Spells pre ns ↔ ns = [n] := by
  constructor
  · intro h
    cases h with
    | last h => rw [← hpre.value, ← h.value]
    | more h tail => exact absurd (List.mem_append_right _ List.mem_cons_self) hpre.dot_not_mem
  · rintro rfl
    exact .last hpre

/-! ## Reading -/

/-- The loop that reads `count` numbers of at most `most` each: the numbers that are done, and the
one whose digits it is at. -/
def scan (most count : Nat) : List UInt8 → List Nat → Option Nat → Option (List Nat)
  | [], done, cur =>
      let numbers := done ++ cur.toList
      if numbers.length < count then none else some numbers
  | c :: text, done, cur =>
      if isDigit c then
        let new := cur.getD 0 * 10 + (c.toNat - 48)
        if cur = some 0 ∨ most < new ∨ (cur = none ∧ done.length = count) then none
        else scan most count text done (some new)
      else if c = dot ∧ cur ≠ none then
        if done.length + 1 = count then none
        else scan most count text (done ++ cur.toList) none
      else none

def Reading (most : Nat) (pre : List UInt8) : Option Nat → Prop
  | none => pre = []
  | some n => Numeral pre n ∧ n ≤ most

def Wanted (most count : Nat) (text : List UInt8) (done os : List Nat) : Prop :=
  ∃ ns, Spells text ns ∧ (∀ n ∈ ns, n ≤ most) ∧ os = done ++ ns ∧ os.length = count

variable {most count : Nat} {done os : List Nat} {cur : Option Nat}

theorem Reading.digits (h : Reading most pre cur) : ∀ c ∈ pre, isDigit c = true := by
  cases cur with
  | none =>
      cases h
      exact List.forall_mem_nil _
  | some n => exact h.1.digits

theorem Reading.value (h : Reading most pre cur) : Dotted.value 0 pre = cur.getD 0 := by
  cases cur with
  | none =>
      cases h
      rfl
  | some n => exact h.1.value

theorem Reading.value_append (h : Reading most pre cur) (c : UInt8) :
    Dotted.value 0 (pre ++ [c]) = cur.getD 0 * 10 + (c.toNat - 48) := by
  rw [Dotted.value_append, h.value]
  rfl

theorem Reading.next (h : Reading most pre cur) (hc : isDigit c = true) (hzero : cur ≠ some 0)
    (hmost : cur.getD 0 * 10 + (c.toNat - 48) ≤ most) :
    Reading most (pre ++ [c]) (some (cur.getD 0 * 10 + (c.toNat - 48))) := by
  refine ⟨⟨by simp, ?_, ?_, h.value_append c⟩, hmost⟩
  · rw [List.forall_mem_append, List.forall_mem_singleton]
    exact ⟨h.digits, hc⟩
  · intro hhead
    cases cur with
    | none =>
        cases h
        rw [List.nil_append, List.head?_cons] at hhead
        rw [Option.some.inj hhead, List.nil_append]
    | some n =>
        rw [List.head?_append_of_ne_nil _ h.1.ne_nil] at hhead
        have hvalue := h.1.value
        rw [h.1.leading hhead] at hvalue
        exact absurd (congrArg some hvalue.symm) hzero

/-- A digit that the loop refuses: behind a leading zero, or one that makes the number too large. -/
theorem Reading.refused (h : Reading most pre cur) (hc : isDigit c = true)
    (hrefused : cur = some 0 ∨ most < cur.getD 0 * 10 + (c.toNat - 48)) :
    ¬ Wanted most count (pre ++ c :: text) done os := by
  rintro ⟨ns, hspells, hmost, -, -⟩
  have hpre : pre ++ [c] <+: pre ++ c :: text :=
    (List.prefix_append_right_inj pre).mpr ⟨text, rfl⟩
  obtain ⟨first, n, hfirst, hmem, ys, rfl⟩ := hspells.first hpre (by
    rw [List.forall_mem_append, List.forall_mem_singleton]
    exact ⟨h.digits, hc⟩)
  rcases hrefused with rfl | hlarge
  · have hhead : (pre ++ [c] ++ ys).head? = some zero := by
      rw [List.append_assoc, List.head?_append_of_ne_nil _ h.1.ne_nil]
      exact h.1.head_zero
    have hlength := congrArg List.length (hfirst.leading hhead)
    have hpos := List.length_pos_iff.mpr h.1.ne_nil
    simp only [List.length_append, List.length_singleton] at hlength
    omega
  · have hle := le_value (Dotted.value 0 (pre ++ [c])) ys
    rw [← Dotted.value_append, hfirst.value, h.value_append] at hle
    have hn := hmost n hmem
    omega

theorem wanted_dot_iff (hpre : Numeral pre n) (hn : n ≤ most) :
    Wanted most count (pre ++ dot :: text) done os ↔
      Wanted most count text (done ++ [n]) os := by
  constructor
  · rintro ⟨ns, hspells, hmost, hos, hlength⟩
    obtain ⟨ns', rfl, hrest⟩ := (spells_dot_iff hpre).mp hspells
    rw [List.forall_mem_cons] at hmost
    exact ⟨ns', hrest, hmost.2, by rw [hos, List.append_assoc, List.singleton_append], hlength⟩
  · rintro ⟨ns', hrest, hmost, hos, hlength⟩
    exact ⟨n :: ns', (spells_dot_iff hpre).mpr ⟨ns', rfl, hrest⟩,
      List.forall_mem_cons.mpr ⟨hn, hmost⟩,
      by rw [hos, List.append_assoc, List.singleton_append], hlength⟩

theorem not_spells_dot : ¬ Spells (dot :: text) ns := by
  intro h
  generalize hwhole : dot :: text = whole at h
  cases h with
  | last h =>
      subst hwhole
      exact h.dot_not_mem List.mem_cons_self
  | more h tail =>
      have hnil := (append_dot_inj (List.not_mem_nil) h.dot_not_mem hwhole).1
      exact h.ne_nil hnil.symm

theorem not_spells_nil : ¬ Spells [] ns := by
  intro h
  generalize hwhole : ([] : List UInt8) = whole at h
  cases h with
  | last h => exact h.ne_nil hwhole.symm
  | more h tail => simp at hwhole

theorem scan_end_iff (hcur : Reading most pre cur) (hdone : done.length < count) :
    scan most count [] done cur = some os ↔ Wanted most count pre done os := by
  cases cur with
  | none =>
      cases hcur
      apply iff_of_false
      · simp [scan, hdone]
      · rintro ⟨ns, hspells, -⟩
        exact not_spells_nil hspells
  | some n =>
      have hwanted : Wanted most count pre done os ↔ os = done ++ [n] ∧ os.length = count := by
        simp only [Wanted, spells_last_iff hcur.1, exists_eq_left, List.forall_mem_singleton,
          hcur.2, true_and]
      rw [hwanted]
      by_cases hfew : done.length + 1 < count
      · apply iff_of_false
        · simp [scan, hfew]
        · rintro ⟨rfl, hlength⟩
          rw [List.length_append, List.length_singleton] at hlength
          omega
      · have hscan : scan most count [] done (some n) = some (done ++ [n]) := by
          simp [scan, hfew]
        rw [hscan, Option.some.injEq, eq_comm, iff_self_and]
        rintro rfl
        rw [List.length_append, List.length_singleton]
        omega

/-- While there is a number to read, a digit is refused only for what it would make of it. -/
theorem scan_digit (hc : isDigit c = true) (hdone : done.length < count) :
    scan most count (c :: text) done cur =
      if cur = some 0 ∨ most < cur.getD 0 * 10 + (c.toNat - 48) then none
      else scan most count text done (some (cur.getD 0 * 10 + (c.toNat - 48))) := by
  have hroom : ¬ (cur = none ∧ done.length = count) := by
    rintro ⟨-, hfull⟩
    omega
  have hthree : (cur = some 0 ∨ most < cur.getD 0 * 10 + (c.toNat - 48) ∨
      cur = none ∧ done.length = count) ↔
        (cur = some 0 ∨ most < cur.getD 0 * 10 + (c.toNat - 48)) := by
    rw [← or_assoc, or_iff_left hroom]
  rw [scan, if_pos hc]
  dsimp only
  by_cases hrefused : cur = some 0 ∨ most < cur.getD 0 * 10 + (c.toNat - 48)
  · rw [if_pos hrefused, if_pos (hthree.mpr hrefused)]
  · rw [if_neg hrefused, if_neg (hthree.not.mpr hrefused)]

theorem scan_dot (n : Nat) :
    scan most count (dot :: text) done (some n) =
      if done.length + 1 = count then none else scan most count text (done ++ [n]) none := by
  rw [scan, if_neg (by decide), if_pos ⟨rfl, by simp⟩, Option.toList_some]

theorem not_wanted_full (hfull : done.length + 1 = count) :
    ¬ Wanted most count text (done ++ [n]) os := by
  rintro ⟨ns, hspells, -, rfl, hlength⟩
  have hpos := List.length_pos_iff.mpr hspells.ne_nil
  simp only [List.length_append, List.length_singleton] at hlength
  omega

/-- The loop returns the numbers of the text, if there are as many as it should read, and each is
small enough. -/
theorem scan_eq_some_iff (hcur : Reading most pre cur) (hdone : done.length < count) :
    scan most count text done cur = some os ↔ Wanted most count (pre ++ text) done os := by
  induction text generalizing pre done cur with
  | nil =>
      rw [List.append_nil]
      exact scan_end_iff hcur hdone
  | cons c text ih =>
      by_cases hdigit : isDigit c = true
      · rw [scan_digit hdigit hdone]
        by_cases hrefused : cur = some 0 ∨ most < cur.getD 0 * 10 + (c.toNat - 48)
        · rw [if_pos hrefused]
          exact iff_of_false (by simp) (hcur.refused hdigit hrefused)
        · obtain ⟨hzero, hmost⟩ := not_or.mp hrefused
          have hnext := hcur.next hdigit hzero (Nat.le_of_not_lt hmost)
          rw [if_neg hrefused, ih hnext hdone, List.append_assoc, List.singleton_append]
      · by_cases hdot : c = dot ∧ cur ≠ none
        · obtain ⟨rfl, hsome⟩ := hdot
          obtain ⟨n, rfl⟩ := Option.ne_none_iff_exists'.mp hsome
          rw [scan_dot, wanted_dot_iff hcur.1 hcur.2]
          by_cases hfull : done.length + 1 = count
          · rw [if_pos hfull]
            exact iff_of_false (by simp) (not_wanted_full hfull)
          · have hstart : Reading most [] none := rfl
            rw [if_neg hfull]
            apply ih hstart
            rw [List.length_append, List.length_singleton]
            omega
        · -- no other character can go on, and a dot only behind a digit
          rw [scan, if_neg hdigit, if_neg hdot]
          apply iff_of_false (by simp)
          rintro ⟨ns, hspells, -⟩
          rcases hspells.chars (List.mem_append_right _ List.mem_cons_self) with hc | rfl
          · exact hdigit hc
          · obtain rfl : cur = none := not_not.mp fun hsome => hdot ⟨rfl, hsome⟩
            cases hcur
            exact not_spells_dot hspells

/-- From the start, the loop reads exactly the texts that spell `count` small enough numbers. -/
theorem scan_start_iff (hcount : 0 < count) :
    scan most count text [] none = some os ↔
      Spells text os ∧ (∀ n ∈ os, n ≤ most) ∧ os.length = count := by
  have hstart : Reading most [] none := rfl
  rw [scan_eq_some_iff hstart hcount, List.nil_append]
  constructor
  · rintro ⟨ns, hspells, hmost, rfl, hlength⟩
    exact ⟨hspells, hmost, hlength⟩
  · rintro ⟨hspells, hmost, hlength⟩
    exact ⟨os, hspells, hmost, rfl, hlength⟩

end Dotted
