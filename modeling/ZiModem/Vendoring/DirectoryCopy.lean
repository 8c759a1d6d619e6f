import ZiModem.Text.LineEnds
import ZiModem.Vendoring.Commands

/-! # The copy, byte by byte

`DirectoryCopy.cs` scans a source file once, with one byte of look-ahead, and drops
the carriage returns that a line feed follows in the input. What it has put out does
not count: of two carriage returns before a line feed the first one stays, and the
output has a pair again.
-/

namespace ZiModem.Vendoring.DirectoryCopy

open LineEnds

abbrev Bytes := List UInt8

def normalizeToLf : Bytes → Bytes
  | [] => []
  | b :: input =>
      if b = cr ∧ input.head? = some lf then normalizeToLf input else b :: normalizeToLf input

/-- `CopyExcludingGit`, with the contents of the files as they are on the disk. -/
def copyExcludingGit (source : FilePath → Option Bytes) : FilePath → Option Bytes := fun path =>
  if path.contains ['.', 'g', 'i', 't'] then none
  else if isTextSource path then (source path).map normalizeToLf
  else source path

variable {x : Bytes} {b : UInt8}

/-! ## What the scan removes -/

theorem normalizeToLf_drop (h : b = cr ∧ x.head? = some lf) :
    normalizeToLf (b :: x) = normalizeToLf x := by
  rw [normalizeToLf, if_pos h]

theorem normalizeToLf_keep (h : ¬ (b = cr ∧ x.head? = some lf)) :
    normalizeToLf (b :: x) = b :: normalizeToLf x := by
  rw [normalizeToLf, if_neg h]

theorem crsRemoved_normalizeToLf (x : Bytes) : CrsRemoved x (normalizeToLf x) := by
  induction x with
  | nil => exact .nil
  | cons b x ih =>
      by_cases hpair : b = cr ∧ x.head? = some lf
      · rw [normalizeToLf_drop hpair, hpair.1]
        exact .remove ih
      · rw [normalizeToLf_keep hpair]
        exact .keep b ih

theorem normalizeToLf_eq_self_iff : normalizeToLf x = x ↔ ¬ Paired x := by
  induction x with
  | nil => exact iff_of_true rfl not_paired_nil
  | cons b x ih =>
      rw [paired_cons_iff, not_or]
      by_cases hpair : b = cr ∧ x.head? = some lf
      · have hlength := (crsRemoved_normalizeToLf x).length_le
        refine iff_of_false ?_ fun h => h.1 hpair
        intro heq
        rw [normalizeToLf_drop hpair] at heq
        rw [heq, List.length_cons] at hlength
        omega
      · rw [normalizeToLf_keep hpair, List.cons_inj_right, ih]
        exact (and_iff_right hpair).symm

/-! ## What is left of the pairs -/

theorem head_normalizeToLf : (normalizeToLf x).head? = some lf ↔
    x.head? = some lf ∨ (x.head? = some cr ∧ x.tail.head? = some lf) := by
  induction x with
  | nil => simp [normalizeToLf]
  | cons b x ih =>
      by_cases hpair : b = cr ∧ x.head? = some lf
      · rw [normalizeToLf_drop hpair, ih]
        exact iff_of_true (.inl hpair.2) (.inr ⟨congrArg some hpair.1, hpair.2⟩)
      · rw [normalizeToLf_keep hpair]
        simp only [List.head?_cons, List.tail_cons, Option.some.injEq]
        exact (or_iff_left hpair).symm

def Doubled (x : Bytes) : Prop := [cr, cr, lf] <:+: x

theorem doubled_cons_iff : Doubled (b :: x) ↔
    (b = cr ∧ x.head? = some cr ∧ x.tail.head? = some lf) ∨ Doubled x := by
  cases x with
  | nil => simp [Doubled, List.infix_cons_iff]
  | cons c x =>
      rw [Doubled, List.infix_cons_iff, List.cons_prefix_cons, List.cons_prefix_cons,
        List.singleton_prefix_iff_head?_eq_some, List.head?_cons, Option.some.injEq, List.tail_cons,
        eq_comm, eq_comm (a := cr) (b := c), Doubled]

/-- The output has a pair exactly if the input has two carriage returns before a line feed. -/
theorem paired_normalizeToLf_iff : Paired (normalizeToLf x) ↔ Doubled x := by
  induction x with
  | nil => simp [normalizeToLf, Paired, Doubled]
  | cons b x ih =>
      rw [doubled_cons_iff]
      by_cases hpair : b = cr ∧ x.head? = some lf
      · rw [normalizeToLf_drop hpair, ih, hpair.2]
        simp
      · rw [normalizeToLf_keep hpair, paired_cons_iff, ih, head_normalizeToLf, and_or_left,
          or_iff_right hpair]

/-- The scan takes out carriage returns and nothing else. It leaves no pair, and a second scan has
nothing to do, exactly if no two carriage returns stand before a line feed. -/
theorem normalForm_iff (x : Bytes) :
    CrsRemoved x (normalizeToLf x) ∧ (¬ Paired (normalizeToLf x) ↔ ¬ Doubled x) ∧
      (normalizeToLf (normalizeToLf x) = normalizeToLf x ↔ ¬ Doubled x) := by
  refine ⟨crsRemoved_normalizeToLf x, not_congr paired_normalizeToLf_iff, ?_⟩
  rw [normalizeToLf_eq_self_iff, paired_normalizeToLf_iff]

/-- Of CR CR LF the scan leaves CR LF. -/
theorem not_normalForm :
    ¬ ∀ x : Bytes, CrsRemoved x (normalizeToLf x) ∧ ¬ Paired (normalizeToLf x) ∧
      normalizeToLf (normalizeToLf x) = normalizeToLf x := by
  intro hall
  exact absurd (hall [cr, cr, lf]).2.2 (by decide)

/-! ## Checkouts -/

/-- What `core.autocrlf` puts in, the scan takes out again. -/
theorem normalizeToLf_toCrlf (x : Bytes) : normalizeToLf (toCrlf x) = x := by
  induction x with
  | nil => rfl
  | cons b x ih =>
      rw [toCrlf]
      by_cases hlf : b = lf
      · rw [if_pos hlf, normalizeToLf_drop ⟨rfl, rfl⟩, normalizeToLf_keep fun h => lf_ne_cr h.1, ih,
          hlf]
      · -- behind a lone carriage return no line feed can turn up: it would bring its own
        rw [if_neg hlf, normalizeToLf_keep fun h => head_toCrlf_ne x h.2, ih]

structure LfText where
  bytes : Bytes
  unpaired : ¬ Paired bytes

structure Committed where
  file : FilePath → Option Bytes
  lf : ∀ path x, isTextSource path = true → file path = some x → ¬ Paired x

/-- The files as they are checked out, where `autocrlf` says which ones git converts. -/
def Committed.checkout (c : Committed) (autocrlf : FilePath → Bool) : FilePath → Option Bytes :=
  fun path => if autocrlf path then (c.file path).map toCrlf else c.file path

/-- A source file is copied as it is committed, whatever the checkout made of its line ends. -/
theorem checkout_independent :
    (∀ x : LfText, normalizeToLf (toCrlf x.bytes) = x.bytes ∧ normalizeToLf x.bytes = x.bytes) ∧
      ∀ (c : Committed) (autocrlf : FilePath → Bool) (path : FilePath),
        isTextSource path = true → ['.', 'g', 'i', 't'] ∉ path →
          copyExcludingGit (c.checkout autocrlf) path = c.file path := by
  constructor
  · intro x
    exact ⟨normalizeToLf_toCrlf x.bytes, normalizeToLf_eq_self_iff.mpr x.unpaired⟩
  · intro c autocrlf path hsource hgit
    have hcopied : ¬ path.contains ['.', 'g', 'i', 't'] = true := by
      rwa [List.contains_iff_mem]
    rw [copyExcludingGit, if_neg hcopied, if_pos hsource, Committed.checkout]
    cases hfile : c.file path with
    | none => cases autocrlf path <;> rfl
    | some x =>
        cases autocrlf path with
        | true => exact congrArg some (normalizeToLf_toCrlf x)
        | false => exact congrArg some (normalizeToLf_eq_self_iff.mpr (c.lf path x hsource hfile))

def loneCrs : LfText := ⟨[65, lf, cr, 66, lf, cr], by decide⟩

def loneCrsCommitted : Committed where
  file path := if path = [['a', '.', 'h']] then some loneCrs.bytes else none
  lf := by
    intro path x _ hfile
    split at hfile
    next =>
      obtain rfl := Option.some.inj hfile
      exact loneCrs.unpaired
    next => cases hfile

theorem checkout_independent_loneCrs :
    copyExcludingGit (loneCrsCommitted.checkout fun _ => true) [['a', '.', 'h']] =
      some loneCrs.bytes :=
  checkout_independent.2 loneCrsCommitted (fun _ => true) [['a', '.', 'h']] (by decide) (by decide)

/-! ## The copy, line by line -/

def splitLines : Bytes → List Line
  | [] => []
  | b :: x =>
      if b = lf then [lf] :: splitLines x
      else
        match splitLines x with
        | [] => [[b]]
        | line :: lines => (b :: line) :: lines

theorem flatten_splitLines (x : Bytes) : (splitLines x).flatten = x := by
  induction x with
  | nil => rfl
  | cons b x ih =>
      rw [splitLines]
      split
      next hlf => rw [List.flatten_cons, ih, hlf, List.singleton_append]
      next =>
        cases hlines : splitLines x with
        | nil =>
            rw [hlines] at ih
            rw [← ih]
            rfl
        | cons line lines =>
            rw [hlines] at ih
            rw [← ih]
            rfl

theorem splitLines_head {line : Line} {lines : List Line} (h : splitLines x = line :: lines) :
    line = [lf] ↔ x.head? = some lf := by
  cases x with
  | nil => cases h
  | cons b x =>
      rw [splitLines] at h
      split at h
      next hlf =>
        obtain ⟨rfl, -⟩ := List.cons.inj h
        exact iff_of_true rfl (congrArg some hlf)
      next hlf =>
        obtain ⟨rest, rfl⟩ : ∃ rest, line = b :: rest := by
          split at h
          next => exact ⟨[], (List.cons.inj h).1.symm⟩
          next rest _ _ => exact ⟨rest, (List.cons.inj h).1.symm⟩
        refine iff_of_false ?_ ?_
        · intro heq
          exact hlf (List.cons.inj heq).1
        · intro heq
          exact hlf (Option.some.inj heq)

theorem normalizeLine_pair (text : Line) :
    Vendoring.normalizeToLf (text ++ [cr, lf]) = text ++ [lf] := by
  simp [Vendoring.normalizeToLf, cr, lf]

theorem normalizeLine_of_not {line : Line} (h : ∀ text, line ≠ text ++ [cr, lf]) :
    Vendoring.normalizeToLf line = line := by
  unfold Vendoring.normalizeToLf
  split
  next rest hrev =>
    have hline : line = rest.reverse ++ [cr, lf] := by
      rw [← List.reverse_reverse line, hrev]
      simp [cr, lf]
    exact absurd hline (h _)
  next => rfl

theorem normalizeLine_cons (b : UInt8) {line : Line} (hpair : ¬ (b = cr ∧ line = [lf])) :
    Vendoring.normalizeToLf (b :: line) = b :: Vendoring.normalizeToLf line := by
  by_cases hline : ∃ text, line = text ++ [cr, lf]
  · obtain ⟨text, rfl⟩ := hline
    rw [normalizeLine_pair, ← List.cons_append, normalizeLine_pair, List.cons_append]
  · rw [normalizeLine_of_not fun text h => hline ⟨text, h⟩]
    apply normalizeLine_of_not
    intro text htext
    -- the pair would start before the line, at the byte itself
    cases text with
    | nil => exact hpair (List.cons.inj htext)
    | cons c text => exact hline ⟨text, (List.cons.inj htext).2⟩

/-- Line by line the copy does what it does byte by byte. -/
theorem normalizeToLf_lines (x : Bytes) :
    ((splitLines x).map Vendoring.normalizeToLf).flatten = normalizeToLf x := by
  induction x with
  | nil => rfl
  | cons b x ih =>
      rw [splitLines]
      split
      next hlf =>
        have hkeep : ¬ (b = cr ∧ x.head? = some lf) := fun h => lf_ne_cr (hlf.symm.trans h.1)
        rw [List.map_cons, List.flatten_cons, ih, normalizeToLf_keep hkeep, hlf]
        rfl
      next hlf =>
        cases hlines : splitLines x with
        | nil =>
            have hnil : x = [] := by rw [← flatten_splitLines x, hlines, List.flatten_nil]
            subst hnil
            have hline : Vendoring.normalizeToLf [b] = [b] :=
              normalizeLine_cons b fun h => absurd h.2 (List.cons_ne_nil lf []).symm
            have hkeep : ¬ (b = cr ∧ ([] : Bytes).head? = some lf) := fun h => by cases h.2
            rw [normalizeToLf_keep hkeep]
            exact (List.append_nil _).trans hline
        | cons line lines =>
            have hstart := splitLines_head hlines
            rw [hlines, List.map_cons, List.flatten_cons] at ih
            by_cases hpair : b = cr ∧ x.head? = some lf
            · rw [normalizeToLf_drop hpair, ← ih, hpair.1, hstart.mpr hpair.2]
              rfl
            · rw [normalizeToLf_keep hpair, ← ih, List.map_cons, List.flatten_cons,
                normalizeLine_cons b fun h => hpair ⟨h.1, hstart.mp h.2⟩, List.cons_append]

def diskBytes (files : Files) (path : FilePath) : Option Bytes := (files path).map List.flatten

/-- The copy that the commands work with is the copy of the bytes. -/
theorem copyExcludingGit_lines (source : FilePath → Option Bytes) :
    diskBytes (Vendoring.copyExcludingGit fun path => (source path).map splitLines) =
      copyExcludingGit source := by
  funext path
  simp only [diskBytes, Vendoring.copyExcludingGit, copyExcludingGit, List.contains_iff_mem]
  split
  · rfl
  · split
    · cases source path with
      | none => rfl
      | some x => exact congrArg some (normalizeToLf_lines x)
    · cases source path with
      | none => rfl
      | some x => exact congrArg some (flatten_splitLines x)

end ZiModem.Vendoring.DirectoryCopy
