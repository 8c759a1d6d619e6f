import Mathlib.Data.List.DropRight

/-! # The `SERIES` file

`ReadSeries`: the lines of the file, trimmed, without the blank ones and the
comments. `NewPatch` adds a name by appending a line, and does not look at how the
file ended before: what follows the last line break, if anything does, becomes the
start of the new line.
-/

namespace ZiModem.Vendoring

/-! ## Lines and white space -/

def isBreak (c : Char) : Bool := c == '\n' || c == '\r'

def isWhiteSpace (c : Char) : Bool :=
  (9 ≤ c.toNat && c.toNat ≤ 13) || c.toNat == 0x20 || c.toNat == 0x85 || c.toNat == 0xA0 ||
    c.toNat == 0x1680 || (0x2000 ≤ c.toNat && c.toNat ≤ 0x200A) || c.toNat == 0x2028 ||
    c.toNat == 0x2029 || c.toNat == 0x202F || c.toNat == 0x205F || c.toNat == 0x3000

/-- `File.ReadAllLines`: a line ends at a line feed, a carriage return, or both in this order. -/
def readAllLines : List Char → List (List Char)
  | [] => []
  | '\r' :: '\n' :: rest => [] :: readAllLines rest
  | c :: rest =>
      if isBreak c then [] :: readAllLines rest
      else
        match readAllLines rest with
        | [] => [[c]]
        | line :: lines => (c :: line) :: lines

def trimStart (line : List Char) : List Char := line.dropWhile isWhiteSpace

def trim (line : List Char) : List Char := (trimStart line).rdropWhile isWhiteSpace

/-- The names that one line adds to the list: none if it is blank or a comment. -/
def entry (rawLine : List Char) : List (List Char) :=
  let line := trim rawLine
  if line = [] ∨ line.head? = some '#' then [] else [line]

/-- `ReadSeries`, where the file may be missing. -/
def readSeries : Option (List Char) → List (List Char)
  | none => []
  | some text => (readAllLines text).flatMap entry

def unterminated (text : List Char) : List Char := text.rtakeWhile fun c => !isBreak c

def terminated (text : List Char) : List Char := text.rdropWhile fun c => !isBreak c

structure WellFormed (name : List Char) : Prop where
  line : ∀ c ∈ name, isBreak c = false
  head : ∃ c, name.head? = some c ∧ isWhiteSpace c = false ∧ c ≠ '#'
  last : ∃ c, name.getLast? = some c ∧ isWhiteSpace c = false

/-! ## Reading a text line by line -/

@[simp] theorem entry_nil : entry [] = [] := by decide

theorem flatMap_entry (lines : List (List Char)) :
    lines.flatMap entry = entry (lines.headD []) ++ lines.tail.flatMap entry := by
  cases lines <;> simp

/-- A carriage return with a line feed ends one line; split as two line breaks it makes a blank one
more. -/
theorem readAllLines_splitOnP (text : List Char) :
    (readAllLines text).headD [] = (text.splitOnP isBreak).headD [] ∧
      (readAllLines text).tail.flatMap entry = (text.splitOnP isBreak).tail.flatMap entry := by
  have hall : ∀ rest : List Char,
      (readAllLines rest).headD [] = (rest.splitOnP isBreak).headD [] ∧
        (readAllLines rest).tail.flatMap entry = (rest.splitOnP isBreak).tail.flatMap entry →
      (readAllLines rest).flatMap entry = (rest.splitOnP isBreak).flatMap entry := by
    rintro rest ⟨hhead, htail⟩
    rw [flatMap_entry, hhead, htail, ← flatMap_entry]
  fun_induction readAllLines text with
  | case1 => simp
  | case2 rest ih => simp [List.splitOnP_cons_eq_if_modifyHead, isBreak, hall rest ih]
  | case3 c rest hne hbreak ih =>
      simp [List.splitOnP_cons_eq_if_modifyHead, hbreak, hall rest ih]
  | case4 c rest hne hbreak hnil ih =>
      obtain ⟨l, ls, hsplit⟩ := List.exists_cons_of_ne_nil (List.splitOnP_ne_nil isBreak rest)
      rw [hnil, hsplit] at ih
      simpa [List.splitOnP_cons_eq_if_modifyHead, hbreak, hsplit] using ih
  | case5 c rest hne hbreak line lines hlines ih =>
      obtain ⟨l, ls, hsplit⟩ := List.exists_cons_of_ne_nil (List.splitOnP_ne_nil isBreak rest)
      rw [hlines, hsplit] at ih
      simpa [List.splitOnP_cons_eq_if_modifyHead, hbreak, hsplit] using ih

theorem readSeries_eq (text : List Char) :
    readSeries (some text) = (text.splitOnP isBreak).flatMap entry := by
  rw [readSeries, flatMap_entry, (readAllLines_splitOnP text).1, (readAllLines_splitOnP text).2,
    ← flatMap_entry]

theorem readSeries_append {c : Char} (hc : isBreak c = true) (before rest : List Char) :
    readSeries (some (before ++ c :: rest)) =
      readSeries (some before) ++ readSeries (some rest) := by
  rw [readSeries_eq, readSeries_eq, readSeries_eq, List.splitOnP_append_cons _ _ hc,
    List.flatMap_append]

theorem readSeries_line {line : List Char} (h : ∀ c ∈ line, isBreak c = false) :
    readSeries (some line) = entry line := by
  rw [readSeries_eq, List.splitOnP_eq_singleton h]
  simp

theorem unterminated_line (text : List Char) : ∀ c ∈ unterminated text, isBreak c = false := by
  intro c hc
  simpa using List.mem_rtakeWhile_imp hc

theorem readSeries_terminated (text rest : List Char) :
    readSeries (some (terminated text ++ rest)) =
      readSeries (some (terminated text)) ++ readSeries (some rest) := by
  rcases List.eq_nil_or_concat (terminated text) with hnil | ⟨before, c, hconcat⟩
  · rw [hnil]
    rfl
  · rw [List.concat_eq_append] at hconcat
    have hbreak : isBreak c = true := by
      have hlast : (terminated text).rdropWhile (fun c => !isBreak c) = terminated text :=
        List.rdropWhile_idempotent _ text
      rw [hconcat, List.rdropWhile_eq_self_iff] at hlast
      simpa using hlast (by simp)
    rw [hconcat, List.append_assoc, List.singleton_append, readSeries_append hbreak,
      readSeries_append hbreak]
    simp [readSeries, readAllLines]

/-! ## A name more -/

section Append

variable {name : List Char} (hname : WellFormed name)

include hname

theorem trim_append (line : List Char) : trim (line ++ name) = trimStart line ++ name := by
  obtain ⟨c, hhead, hwhite, -⟩ := hname.head
  obtain ⟨d, hlast, hwhite'⟩ := hname.last
  have hstart : trimStart (line ++ name) = trimStart line ++ name := by
    rw [trimStart, trimStart, List.dropWhile_append]
    split
    next hempty =>
      obtain ⟨rest, rfl⟩ := List.head?_eq_some_iff.mp hhead
      rw [List.isEmpty_iff.mp hempty, List.nil_append,
        List.dropWhile_cons_of_neg (by simp [hwhite])]
    next => rfl
  rw [trim, hstart, List.rdropWhile_eq_self_iff]
  intro hne
  obtain ⟨rest, rfl⟩ := List.getLast?_eq_some_iff.mp hlast
  simp [← List.append_assoc, hwhite']

/-- The names after one is appended: those up to the last line break, and the line that the rest of
the text and the name make together. -/
theorem readSeries_appended (text : List Char) :
    readSeries (some (text ++ name ++ ['\n'])) =
      readSeries (some (terminated text)) ++
        if (trimStart (unterminated text) ++ name).head? = some '#' then []
        else [trimStart (unterminated text) ++ name] := by
  have hcut : text = terminated text ++ unterminated text :=
    List.rdropWhile_append_rtakeWhile.symm
  have hline : ∀ c ∈ unterminated text ++ name, isBreak c = false := by
    intro c hc
    rcases List.mem_append.mp hc with hc | hc
    · exact unterminated_line text c hc
    · exact hname.line c hc
  have hne : trimStart (unterminated text) ++ name ≠ [] := by
    obtain ⟨c, hhead, -⟩ := hname.head
    rintro h
    rw [(List.append_eq_nil_iff.mp h).2] at hhead
    cases hhead
  have hentry : entry (unterminated text ++ name) =
      if (trimStart (unterminated text) ++ name).head? = some '#' then []
      else [trimStart (unterminated text) ++ name] := by
    simp only [entry, trim_append hname, hne, false_or]
  conv_lhs => rw [hcut, List.append_assoc, List.append_assoc, readSeries_terminated,
    ← List.append_assoc, readSeries_append (by decide), readSeries_line hline, hentry]
  simp [readSeries, readAllLines]

end Append

theorem readSeries_cut (text : List Char) :
    readSeries (some text) =
      readSeries (some (terminated text)) ++ entry (unterminated text) := by
  rw [← readSeries_line (unterminated_line text), ← readSeries_terminated]
  simp only [terminated, unterminated, List.rdropWhile_append_rtakeWhile]

end ZiModem.Vendoring
