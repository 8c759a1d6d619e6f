import ZiModem.Vendoring.Commands

/-! # Adding a name to `SERIES`

The last part of `NewPatch` reads the list and appends the new name, with a line
feed, to the text of the file. That adds one entry and keeps the others where the
text is at the start of a line, and not where a last line without a line break
waits for its end.
-/

namespace ZiModem.Vendoring

/-- A command that succeeds has registered its name. -/
theorem newPatch_series {φ : Type*} [DecidableEq φ] {env : Env φ} {r r' : Repo φ}
    {patchName : List Char} (h : env.newPatch r patchName = (r', some 0)) :
    r'.series = register r.series patchName := by
  unfold Env.newPatch at h
  split at h
  · cases h
  · split at h
    · cases h
    · split at h
      · cases h
      · split at h
        · cases h
        · dsimp only at h
          unfold register
          split at h
          next hlisted =>
            cases h
            rw [if_pos hlisted]
          next hnew =>
            cases h
            rw [if_neg hnew]

theorem trimStart_eq_nil_iff {line : List Char} :
    trimStart line = [] ↔ ∀ c ∈ line, isWhiteSpace c = true := List.dropWhile_eq_nil_iff

theorem entry_blank {line : List Char} (h : trimStart line = []) : entry line = [] := by
  simp [entry, trim, h]

/-- Behind a text that ends with a line break, or with white space after it, a name is a new entry;
behind anything else it is not. -/
theorem readSeries_appended_iff {name : List Char} (hname : WellFormed name) (text : List Char) :
    readSeries (some (text ++ name ++ ['\n'])) = readSeries (some text) ++ [name] ↔
      trimStart (unterminated text) = [] := by
  obtain ⟨c, hhead, -, hcomment⟩ := hname.head
  rw [readSeries_appended hname, readSeries_cut text, List.append_assoc, List.append_cancel_left_eq]
  constructor
  · intro h
    split at h
    · simp at h
    · -- one entry against two: the rest of the text adds none, and nothing to the name
      have hlength := congrArg List.length h
      rw [List.length_append, List.length_singleton, List.length_singleton] at hlength
      have hnone : entry (unterminated text) = [] := by
        apply List.eq_nil_of_length_eq_zero
        omega
      rw [hnone, List.nil_append, List.cons.injEq] at h
      exact List.append_left_eq_self.mp h.1
  · intro hblank
    rw [hblank, entry_blank hblank, List.nil_append, List.nil_append, hhead,
      if_neg (by simpa using hcomment)]

/-- After a well-formed name is registered, `ReadSeries` returns the old list, with the name behind
it if it was not listed, exactly if it was listed, or nothing but white space follows the last line
break of the old text. -/
theorem registers_iff (series : Option (List Char)) {name : List Char} (hname : WellFormed name) :
    readSeries (register series name) =
        (if name ∈ readSeries series then readSeries series else readSeries series ++ [name]) ↔
      name ∈ readSeries series ∨ ∀ c ∈ unterminated (series.getD []), isWhiteSpace c = true := by
  have hread : readSeries series = readSeries (some (series.getD [])) := by
    cases series <;> rfl
  unfold register
  by_cases hlisted : name ∈ readSeries series
  · rw [if_pos hlisted, if_pos hlisted]
    exact iff_of_true rfl (.inl hlisted)
  · rw [if_neg hlisted, if_neg hlisted, or_iff_right hlisted, ← trimStart_eq_nil_iff, hread]
    exact readSeries_appended_iff hname (series.getD [])

theorem wellFormed_n : WellFormed ['n'] where
  line := by
    intro c hc
    rw [List.mem_singleton.mp hc]
    decide
  head := ⟨'n', by decide⟩
  last := ⟨'n', by decide⟩

/-- `n` behind the one line `p`, with a carriage return and a line feed at its end. -/
theorem registers_n :
    readSeries (register (some ['p', '\r', '\n']) ['n']) =
        (if ['n'] ∈ readSeries (some ['p', '\r', '\n']) then readSeries (some ['p', '\r', '\n'])
          else readSeries (some ['p', '\r', '\n']) ++ [['n']]) ↔
      ['n'] ∈ readSeries (some ['p', '\r', '\n']) ∨
        ∀ c ∈ unterminated ((some ['p', '\r', '\n']).getD []), isWhiteSpace c = true :=
  registers_iff (some ['p', '\r', '\n']) wellFormed_n

/-- `n` behind `p` without a line break: the list is `pn`. -/
theorem not_registers :
    ¬ ∀ (series : Option (List Char)) (name : List Char), WellFormed name →
      readSeries (register series name) =
        if name ∈ readSeries series then readSeries series else readSeries series ++ [name] := by
  intro hall
  have hlist := hall (some ['p']) ['n'] wellFormed_n
  revert hlist
  decide

end ZiModem.Vendoring
