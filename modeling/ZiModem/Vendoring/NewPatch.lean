import ZiModem.Vendoring.RepoPaths

/-! # `new-patch` on the disk

`NewPatch` copies the submodule into a fresh temporary directory, has git compare
it with the vendored tree, writes the patch and registers it. It can throw almost
anywhere, and the `finally` block runs in any case.
-/

namespace ZiModem.Vendoring

open DirTree DirectoryCopy RepoPaths

def RepoPaths.seriesFile (root : FilePath) : FilePath :=
  patchDir root ++ [['S', 'E', 'R', 'I', 'E', 'S']]

namespace Commands

/-- `Path.Combine` with the patch directory; `git diff --no-index` on the two trees, with its exit
code and output, unless it cannot be started; and the encoding of text files. -/
structure Tools where
  combine : List Char → FilePath
  diff : HostDisk → Option (Int × List Char)
  encode : List Char → Bytes
  decode : Bytes → List Char

/-- `Replace("\\r\\n", "\\n")`. -/
def replaceCrLf : List Char → List Char
  | [] => []
  | '\r' :: '\n' :: text => '\n' :: replaceCrLf text
  | c :: text => c :: replaceCrLf text

/-- `File.WriteAllBytes` and what the text functions write with, and whether it returns. -/
def writeFile (path : FilePath) (bytes : Bytes) (d : HostDisk) : HostDisk × Bool :=
  match path.getLast? with
  | none => (d, false)
  | some n => d.write path.dropLast n bytes

def pristineDir (tempDir : FilePath) : FilePath :=
  tempDir ++ [['p', 'r', 'i', 's', 't', 'i', 'n', 'e']]

namespace Tools

variable (t : Tools)

def appendAllText (path : FilePath) (text : List Char) (d : HostDisk) : HostDisk × Bool :=
  writeFile path ((d.read path).getD [] ++ t.encode text) d

def readSeries (root : FilePath) (d : HostDisk) : List (List Char) :=
  Vendoring.readSeries ((d.read (seriesFile root)).map t.decode)

/-- The end of the `try` block: the patch is written and, unless it is listed, registered. With the
exit code; `none` is an exception. -/
def record (root : FilePath) (patchName out : List Char) (d : HostDisk) : HostDisk × Option Nat :=
  let (d₁, written) := writeFile (t.combine patchName) (t.encode (replaceCrLf out)) d
  if !written then (d₁, none)
  else if (t.readSeries root d₁).contains patchName then (d₁, some 0)
  else
    let (d₂, appended) := t.appendAllText (seriesFile root) (patchName ++ ['\n']) d₁
    (d₂, if appended then some 0 else none)

/-- The `try` block, with the directories that the submodule is listed as; without it the copy
throws once it has made its destination. -/
def attempt (root : FilePath) (submodule : Option Dir) (tempDir : FilePath)
    (patchName : List Char) (d : HostDisk) : HostDisk × Option Nat :=
  match submodule with
  | none => ((d.makeDir (pristineDir tempDir)).1, none)
  | some source =>
      let (d₁, copied) := source.copyExcludingGit (pristineDir tempDir) d
      if !copied then (d₁, none)
      else
        match t.diff d₁ with
        | none => (d₁, none)
        | some (exitCode, out) =>
            if exitCode ≠ 0 ∧ exitCode ≠ 1 then (d₁, some 1)
            else if out.all isWhiteSpace then (d₁, some 1)
            else t.record root patchName out d₁

def newPatch (root : FilePath) (submodule : Option Dir) (tempDir : FilePath)
    (patchName : List Char) (d : HostDisk) : HostDisk × Option Nat :=
  if vendorDir root ∉ d.tree.dirs then (d, some 1)
  else
    let (d', exitCode) := t.attempt root submodule tempDir patchName d
    (d'.deleteDir tempDir, exitCode)

end Tools

/-! ## What a write changes -/

section Write

variable {d : HostDisk} {path q : FilePath} {bytes : Bytes}

theorem read_writeFile_of_ne (bytes : Bytes) (d : HostDisk) (hne : q ≠ path) :
    (writeFile path bytes d).1.read q = d.read q := by
  unfold writeFile
  cases hlast : path.getLast? with
  | none => rfl
  | some n =>
      apply Disk.read_write_of_ne
      rwa [List.dropLast_append_getLast? n hlast]

theorem read_writeFile (hok : (writeFile path bytes d).2 = true) :
    (writeFile path bytes d).1.read path = some bytes := by
  unfold writeFile at hok ⊢
  cases hlast : path.getLast? with
  | none => simp [hlast] at hok
  | some n =>
      simp only [hlast] at hok ⊢
      have hread := Disk.read_write hok
      rwa [List.dropLast_append_getLast? n hlast] at hread

theorem dirs_writeFile (path : FilePath) (bytes : Bytes) (d : HostDisk) :
    (writeFile path bytes d).1.tree.dirs = d.tree.dirs := by
  unfold writeFile
  split
  · rfl
  · exact Disk.dirs_write ..

theorem writeFile_failed (hfail : (writeFile path bytes d).2 = false) :
    (writeFile path bytes d).1 = d := by
  unfold writeFile Disk.write at hfail ⊢
  cases hlast : path.getLast? with
  | none => rfl
  | some n =>
      simp only [hlast] at hfail ⊢
      split at hfail
      next => cases hfail
      next hno => rw [if_neg hno]

end Write

section Run

variable {t : Tools} {root : FilePath} {submodule : Option Dir} {tempDir : FilePath}
  {patchName : List Char} {d d' : HostDisk}

theorem readSeries_congr (h : d'.read (seriesFile root) = d.read (seriesFile root)) :
    t.readSeries root d' = t.readSeries root d := by
  simp only [Tools.readSeries, h]

/-- Outside `scratch` no directory is gone, and none has come but above `scratch`. -/
structure Grown (scratch : FilePath) (d d' : HostDisk) : Prop where
  kept : ∀ q, ¬ scratch <+: q → q ∈ d.tree.dirs → q ∈ d'.tree.dirs
  made : ∀ q, ¬ scratch <+: q → q ∈ d'.tree.dirs → q ∈ d.tree.dirs ∨ q <+: scratch

theorem Grown.of_eq {scratch : FilePath} (h : d'.tree.dirs = d.tree.dirs) : Grown scratch d d' where
  kept := fun _ _ hq => h ▸ hq
  made := fun _ _ hq => .inl (h ▸ hq)

/-- What `NewPatch` may have done to what is not below `scratch`. -/
structure Tidy (t : Tools) (root scratch : FilePath) (patchName : List Char) (d : HostDisk)
    (r : HostDisk × Option Nat) : Prop where
  elsewhere : ∀ q, ¬ scratch <+: q → q ≠ t.combine patchName → q ≠ seriesFile root →
    r.1.read q = d.read q
  refused : r.2 = some 1 → ∀ q, ¬ scratch <+: q → r.1.read q = d.read q
  threw : r.2 = none → r.1.read (seriesFile root) = d.read (seriesFile root)
  returns : r.2 = none ∨ r.2 = some 0 ∨ r.2 = some 1
  dirs : Grown scratch d r.1

/-- The patch is written, and its name put behind the series unless it is listed there. -/
structure Recorded (t : Tools) (root : FilePath) (patchName out : List Char) (d d' : HostDisk) :
    Prop where
  patch : d'.read (t.combine patchName) = some (t.encode (replaceCrLf out))
  series : d'.read (seriesFile root) =
    if patchName ∈ t.readSeries root d then d.read (seriesFile root)
    else some ((d.read (seriesFile root)).getD [] ++ t.encode (patchName ++ ['\n']))

/-- Git was shown a copy of the submodule, with the rest of the disk as it was, and gave `out`. -/
structure Compared (t : Tools) (submodule : Option Dir) (tempDir : FilePath) (d d' : HostDisk)
    (out : List Char) : Prop where
  pristine : ∃ source, submodule = some source ∧
    ∀ path, d'.read (pristineDir tempDir ++ path) =
      DirectoryCopy.copyExcludingGit source.file? path
  elsewhere : ∀ q, ¬ pristineDir tempDir <+: q → d'.read q = d.read q
  answer : ∃ exitCode, t.diff d' = some (exitCode, out) ∧ (exitCode = 0 ∨ exitCode = 1)

/-- What the end of the `try` block comes to: the patch is not written, it is written and listed
already, or the name is appended or not. -/
theorem record_cases (t : Tools) (root : FilePath) (patchName out : List Char) (d : HostDisk) :
    t.record root patchName out d = (d, none) ∨
      ∃ d₁, writeFile (t.combine patchName) (t.encode (replaceCrLf out)) d = (d₁, true) ∧
        ((patchName ∈ t.readSeries root d₁ ∧ t.record root patchName out d = (d₁, some 0)) ∨
          (patchName ∉ t.readSeries root d₁ ∧
            (t.record root patchName out d = (d₁, none) ∨
              ∃ d₂, t.appendAllText (seriesFile root) (patchName ++ ['\n']) d₁ = (d₂, true) ∧
                t.record root patchName out d = (d₂, some 0)))) := by
  cases hwrite : writeFile (t.combine patchName) (t.encode (replaceCrLf out)) d with
  | mk d₁ written =>
      cases written with
      | false =>
          have hkept := writeFile_failed (congrArg Prod.snd hwrite)
          rw [hwrite] at hkept
          left
          simp only [Tools.record, hwrite, hkept]
          rfl
      | true =>
          refine .inr ⟨d₁, rfl, ?_⟩
          simp only [Tools.record, hwrite, Bool.not_true, Bool.false_eq_true, if_false]
          by_cases hmem : patchName ∈ t.readSeries root d₁
          · exact .inl ⟨hmem, by rw [if_pos (List.contains_iff_mem.mpr hmem)]⟩
          · refine .inr ⟨hmem, ?_⟩
            rw [if_neg fun h => hmem (List.contains_iff_mem.mp h)]
            cases happend : t.appendAllText (seriesFile root) (patchName ++ ['\n']) d₁ with
            | mk d₂ appended =>
                cases appended with
                | false =>
                    have hkept := writeFile_failed (congrArg Prod.snd happend)
                    rw [← Tools.appendAllText, happend] at hkept
                    exact .inl (by rw [hkept]; rfl)
                | true => exact .inr ⟨d₂, rfl, rfl⟩

theorem dirs_record (t : Tools) (root : FilePath) (patchName out : List Char) (d : HostDisk) :
    (t.record root patchName out d).1.tree.dirs = d.tree.dirs := by
  rcases record_cases t root patchName out d with hrecord | ⟨d₁, hwrite, hrest⟩
  · rw [hrecord]
  have hdirs : d₁.tree.dirs = d.tree.dirs := by
    have h := dirs_writeFile (t.combine patchName) (t.encode (replaceCrLf out)) d
    rwa [hwrite] at h
  rcases hrest with ⟨-, hrecord⟩ | ⟨-, hrecord | ⟨d₂, happend, hrecord⟩⟩
  · rw [hrecord, hdirs]
  · rw [hrecord, hdirs]
  · have h := dirs_writeFile (seriesFile root)
      ((d₁.read (seriesFile root)).getD [] ++ t.encode (patchName ++ ['\n'])) d₁
    rw [← Tools.appendAllText, happend] at h
    rw [hrecord, ← hdirs]
    exact h

theorem record_spec (scratch : FilePath) (hapart : t.combine patchName ≠ seriesFile root)
    (out : List Char) :
    Tidy t root scratch patchName d (t.record root patchName out d) ∧
      ((t.record root patchName out d).2 = some 0 →
        Recorded t root patchName out d (t.record root patchName out d).1) := by
  have hdirs : Grown scratch d (t.record root patchName out d).1 := .of_eq (dirs_record ..)
  rcases record_cases t root patchName out d with hrecord | ⟨d₁, hwrite, hrest⟩
  · rw [hrecord] at hdirs ⊢
    exact ⟨⟨fun _ _ _ _ => rfl, by simp, fun _ => rfl, .inl rfl, hdirs⟩, by simp⟩
  have hwritten : ∀ q, q ≠ t.combine patchName → d₁.read q = d.read q := by
    intro q hq
    have hread := read_writeFile_of_ne (t.encode (replaceCrLf out)) d hq
    rwa [hwrite] at hread
  have hpatch : d₁.read (t.combine patchName) = some (t.encode (replaceCrLf out)) := by
    have hread := read_writeFile (congrArg Prod.snd hwrite)
    rwa [hwrite] at hread
  have hlisted : t.readSeries root d₁ = t.readSeries root d :=
    readSeries_congr (hwritten _ hapart.symm)
  rcases hrest with ⟨hmem, hrecord⟩ | ⟨hmem, hrecord | ⟨d₂, happend, hrecord⟩⟩
  · rw [hrecord] at hdirs ⊢
    refine ⟨⟨fun q _ hq _ => hwritten q hq, by simp, by simp,
      .inr (.inl rfl), hdirs⟩, fun _ => ⟨hpatch, ?_⟩⟩
    rw [if_pos (hlisted ▸ hmem)]
    exact hwritten _ hapart.symm
  · rw [hrecord] at hdirs ⊢
    exact ⟨⟨fun q _ hq _ => hwritten q hq, by simp, fun _ => hwritten _ hapart.symm,
      .inl rfl, hdirs⟩, by simp⟩
  · have happended : ∀ q, q ≠ seriesFile root → d₂.read q = d₁.read q := by
      intro q hq
      have hread := read_writeFile_of_ne
        ((d₁.read (seriesFile root)).getD [] ++ t.encode (patchName ++ ['\n'])) d₁ hq
      rwa [← Tools.appendAllText, happend] at hread
    have hseries := read_writeFile (congrArg Prod.snd happend)
    rw [← Tools.appendAllText, happend] at hseries
    rw [hrecord] at hdirs ⊢
    refine ⟨⟨fun q _ hq hq' => (happended q hq').trans (hwritten q hq), by simp,
      by simp, .inr (.inl rfl), hdirs⟩, fun _ => ⟨?_, ?_⟩⟩
    · exact (happended _ hapart).trans hpatch
    · rw [if_neg (hlisted ▸ hmem), ← hwritten _ hapart.symm]
      exact hseries

section Scratch

variable {scratch : FilePath} {r : HostDisk × Option Nat}

theorem Tidy.of_same (hsame : ∀ q, ¬ scratch <+: q → r.1.read q = d.read q)
    (hdirs : Grown scratch d r.1) (hseries : ¬ scratch <+: seriesFile root)
    (hexit : r.2 = none ∨ r.2 = some 1) : Tidy t root scratch patchName d r where
  elsewhere := fun q hq _ _ => hsame q hq
  refused := fun _ => hsame
  threw := fun _ => hsame _ hseries
  returns := hexit.imp_right .inr
  dirs := hdirs

theorem Grown.trans {d₁ : HostDisk} (h : Grown scratch d d₁) (h' : Grown scratch d₁ d') :
    Grown scratch d d' where
  kept := fun q hq hdir => h'.kept q hq (h.kept q hq hdir)
  made := fun q hq hdir => (h'.made q hq hdir).elim (h.made q hq) .inr

theorem Tidy.of_outside {d₁ : HostDisk} (h : Tidy t root scratch patchName d₁ r)
    (hsame : ∀ q, ¬ scratch <+: q → d₁.read q = d.read q) (hdirs : Grown scratch d d₁)
    (hseries : ¬ scratch <+: seriesFile root) : Tidy t root scratch patchName d r where
  elsewhere := fun q hq hpatch hq' => (h.elsewhere q hq hpatch hq').trans (hsame q hq)
  refused := fun hone q hq => (h.refused hone q hq).trans (hsame q hq)
  threw := fun hnone => (h.threw hnone).trans (hsame _ hseries)
  returns := h.returns
  dirs := hdirs.trans h.dirs

end Scratch

theorem Recorded.of_same {d₁ : HostDisk} {out : List Char}
    (h : Recorded t root patchName out d₁ d')
    (hseries : d₁.read (seriesFile root) = d.read (seriesFile root)) :
    Recorded t root patchName out d d' where
  patch := h.patch
  series := by rw [h.series, hseries, readSeries_congr hseries]

theorem grown_makeDir (p : FilePath) (d : HostDisk) : Grown p d (d.makeDir p).1 := by
  by_cases hok : (d.makeDir p).2 = true
  · constructor
    · exact fun q _ hq => (Disk.mem_dirs_makeDir hok).mpr (.inl hq)
    · exact fun q _ hq => (Disk.mem_dirs_makeDir hok).mp hq
  · rw [Disk.makeDir_failed (Bool.eq_false_of_not_eq_true hok)]
    exact .of_eq rfl

theorem grown_copy (source : Dir) (dest : FilePath) (d : HostDisk) :
    Grown dest d (source.copyExcludingGit dest d).1 where
  kept := fun _ hq hdir => (Dir.dirs_copy_outside hq).mpr (.inl hdir)
  made := fun _ hq hdir => ((Dir.dirs_copy_outside hq).mp hdir).imp_right And.right

theorem attempt_spec (hsource : ∀ source ∈ submodule, source.Distinct)
    (hfresh : ∀ q, pristineDir tempDir <+: q → d.read q = none)
    (hseries : ¬ pristineDir tempDir <+: seriesFile root)
    (hapart : t.combine patchName ≠ seriesFile root) :
    Tidy t root (pristineDir tempDir) patchName d
        (t.attempt root submodule tempDir patchName d) ∧
      ((t.attempt root submodule tempDir patchName d).2 = some 0 →
        ∃ d₁ out, Compared t submodule tempDir d d₁ out ∧
          Recorded t root patchName out d (t.attempt root submodule tempDir patchName d).1) := by
  cases submodule with
  | none =>
      have hmade : ∀ q, ¬ pristineDir tempDir <+: q →
          (d.makeDir (pristineDir tempDir)).1.read q = d.read q :=
        fun q _ => Disk.read_makeDir _ q
      exact ⟨.of_same hmade (grown_makeDir _ d) hseries (.inl rfl), by simp [Tools.attempt]⟩
  | some source =>
      cases hcopy : source.copyExcludingGit (pristineDir tempDir) d with
      | mk d₁ copied =>
          have hsame : ∀ q, ¬ pristineDir tempDir <+: q → d₁.read q = d.read q := by
            intro q hq
            have hread := source.read_copy_outside (d := d) hq
            rwa [hcopy] at hread
          have hdirs : Grown (pristineDir tempDir) d d₁ := by
            have hgrown := grown_copy source (pristineDir tempDir) d
            rwa [hcopy] at hgrown
          cases copied with
          | false =>
              simp only [Tools.attempt, hcopy]
              exact ⟨.of_same hsame hdirs hseries (.inl rfl), by simp⟩
          | true =>
              have hpristine : ∀ path, d₁.read (pristineDir tempDir ++ path) =
                  DirectoryCopy.copyExcludingGit source.file? path := by
                intro path
                have hread := Dir.read_copy (hsource source rfl) (congrArg Prod.snd hcopy) path
                rw [hcopy] at hread
                rw [hread, hfresh _ (List.prefix_append _ path), Option.or_none]
              simp only [Tools.attempt, hcopy, Bool.not_true, Bool.false_eq_true, if_false]
              cases hdiff : t.diff d₁ with
              | none => exact ⟨.of_same hsame hdirs hseries (.inl rfl), by simp⟩
              | some answer =>
                  obtain ⟨exitCode, out⟩ := answer
                  by_cases hcode : exitCode ≠ 0 ∧ exitCode ≠ 1
                  · simp only [if_pos hcode]
                    exact ⟨.of_same hsame hdirs hseries (.inr rfl), by simp⟩
                  by_cases hblank : out.all isWhiteSpace = true
                  · simp only [if_neg hcode, if_pos hblank]
                    exact ⟨.of_same hsame hdirs hseries (.inr rfl), by simp⟩
                  simp only [if_neg hcode, if_neg hblank]
                  obtain ⟨htidy, hrecorded⟩ :=
                    record_spec (d := d₁) (pristineDir tempDir) hapart out
                  refine ⟨htidy.of_outside hsame hdirs hseries, fun hdone => ⟨d₁, out,
                    ⟨⟨source, rfl, hpristine⟩, hsame, exitCode, hdiff, ?_⟩,
                    (hrecorded hdone).of_same (hsame _ hseries)⟩⟩
                  rwa [not_and_or, not_not, not_not] at hcode

end Run

theorem prefix_of_pristine {tempDir q : FilePath} (hq : pristineDir tempDir <+: q) :
    tempDir <+: q :=
  (List.prefix_append _ _).trans hq

/-- The `finally` block: what was below the fresh copy goes with the temporary directory. -/
theorem Tidy.deleteDir {t : Tools} {root tempDir : FilePath} {patchName : List Char}
    {d d' : HostDisk} {exitCode : Option Nat} (htemp : tempDir ≠ [])
    (h : Tidy t root (pristineDir tempDir) patchName d (d', exitCode))
    (hseries : ¬ tempDir <+: seriesFile root) :
    Tidy t root tempDir patchName d (d'.deleteDir tempDir, exitCode) := by
  have hkept : ∀ q, ¬ tempDir <+: q → (d'.deleteDir tempDir).read q = d'.read q :=
    fun q hq => (Disk.mem_deleteDir htemp hq).2.2
  have hbelow : ∀ q, ¬ tempDir <+: q → ¬ pristineDir tempDir <+: q :=
    fun q hq hq' => hq (prefix_of_pristine hq')
  refine ⟨fun q hq hq₁ hq₂ => ?_, fun hone q hq => ?_, fun hnone => ?_, h.returns, ?_⟩
  · rw [hkept q hq]
    exact h.elsewhere q (hbelow q hq) hq₁ hq₂
  · rw [hkept q hq]
    exact h.refused hone q (hbelow q hq)
  · rw [hkept _ hseries]
    exact h.threw hnone
  · constructor
    · intro q hq hdir
      rw [(Disk.mem_deleteDir htemp hq).1]
      exact h.dirs.kept q (hbelow q hq) hdir
    · intro q hq hdir
      rw [(Disk.mem_deleteDir htemp hq).1] at hdir
      refine (h.dirs.made q (hbelow q hq) hdir).imp_right fun hpre => ?_
      exact (List.prefix_or_prefix_of_prefix hpre (List.prefix_append _ _)).resolve_right hq

theorem Recorded.of_kept {t : Tools} {root : FilePath} {patchName out : List Char}
    {d d₁ d' : HostDisk} (h : Recorded t root patchName out d d₁)
    (hpatch : d'.read (t.combine patchName) = d₁.read (t.combine patchName))
    (hseries : d'.read (seriesFile root) = d₁.read (seriesFile root)) :
    Recorded t root patchName out d d' where
  patch := hpatch.trans h.patch
  series := hseries.trans h.series

/-- Whatever git answers, and wherever `NewPatch` throws: it leaves nothing of its temporary
directory, has changed no file but the patch and `SERIES`, and made no directory but above the
temporary one; a run that is refused has changed no file, and one that throws has not registered
anything. A run that succeeds was shown the fresh copy and the vendored tree as it stands, has
written the patch that git gave, and has put its name behind the text of `SERIES` unless it is
listed there: where that text does not end in a line break, to the end of its last line. -/
theorem newPatch_tidy (t : Tools) (root : FilePath) (submodule : Option Dir) (tempDir : FilePath)
    (patchName : List Char) (d : HostDisk)
    (hsource : ∀ source ∈ submodule, source.Distinct)
    (hfresh : ∀ q ∈ d.tree.dirs ∪ d.tree.files, ¬ tempDir <+: q)
    (hseries : ¬ tempDir <+: seriesFile root) (hpatch : ¬ tempDir <+: t.combine patchName)
    (hapart : t.combine patchName ≠ seriesFile root) :
    (∀ q ∈ (t.newPatch root submodule tempDir patchName d).1.tree.dirs ∪
        (t.newPatch root submodule tempDir patchName d).1.tree.files, ¬ tempDir <+: q) ∧
      Tidy t root tempDir patchName d (t.newPatch root submodule tempDir patchName d) ∧
      ((t.newPatch root submodule tempDir patchName d).2 = some 0 →
        ∃ d₁ out, Compared t submodule tempDir d d₁ out ∧
          Recorded t root patchName out d
            (t.newPatch root submodule tempDir patchName d).1) := by
  have htemp : tempDir ≠ [] := by
    rintro rfl
    exact hfresh [] (Finset.mem_union_left _ d.tree.top) List.prefix_rfl
  have hunread : ∀ q, tempDir <+: q → d.read q = none := fun q hq =>
    Disk.read_eq_none_iff.mpr fun hfile => hfresh q (Finset.mem_union_right _ hfile) hq
  unfold Tools.newPatch
  by_cases hvendor : vendorDir root ∉ d.tree.dirs
  · rw [if_pos hvendor]
    exact ⟨hfresh, .of_same (fun _ _ => rfl) (.of_eq rfl) hseries (.inr rfl), by simp⟩
  rw [if_neg hvendor]
  obtain ⟨htidy, hdone⟩ := attempt_spec hsource
    (fun q hq => hunread q (prefix_of_pristine hq)) (fun h => hseries (prefix_of_pristine h)) hapart
  cases hattempt : t.attempt root submodule tempDir patchName d with
  | mk d' exitCode =>
      rw [hattempt] at htidy hdone
      have hkept : ∀ q, ¬ tempDir <+: q → (d'.deleteDir tempDir).read q = d'.read q :=
        fun q hq => (Disk.mem_deleteDir htemp hq).2.2
      refine ⟨fun q hmem hq => ?_, htidy.deleteDir htemp hseries, fun hzero => ?_⟩
      · -- a file in the place of the directory would be one that the run has written
        obtain ⟨rfl, hfile⟩ := Disk.eq_of_mem_deleteDir htemp hq hmem
        have hname : ¬ pristineDir q <+: q := by
          intro h
          have hlength := h.length_le
          rw [pristineDir, List.length_append, List.length_singleton] at hlength
          omega
        have hread := htidy.elsewhere q hname (fun h => hpatch (h ▸ List.prefix_rfl))
          fun h => hseries (h ▸ List.prefix_rfl)
        rw [hunread q List.prefix_rfl, Disk.read_eq_none_iff] at hread
        exact hread hfile
      · obtain ⟨d₁, out, hcompared, hrecorded⟩ := hdone hzero
        exact ⟨d₁, out, hcompared, hrecorded.of_kept (hkept _ hpatch) (hkept _ hseries)⟩

/-- A git that shows an `x`, with one byte for each character of a text. -/
def smallTools : Tools where
  combine name := patchDir [['r']] ++ [name]
  diff _ := some (1, ['x'])
  encode text := text.map fun c => .ofNat c.toNat
  decode bytes := bytes.map fun b => .ofNat b.toNat

def smallVendored : HostDisk := (refreshVendor [['r']] smallSource smallRepo).1

theorem newPatch_tidy_small :
    (smallTools.newPatch [['r']] (some smallSource) [['t']] ['p'] smallVendored).2 = some 0 ∧
      Tidy smallTools [['r']] [['t']] ['p'] smallVendored
        (smallTools.newPatch [['r']] (some smallSource) [['t']] ['p'] smallVendored) := by
  refine ⟨by decide, (newPatch_tidy smallTools [['r']] (some smallSource) [['t']] ['p']
    smallVendored ?_ ?_ ?_ ?_ ?_).2.1⟩
  · intro source hsource
    rw [← Option.mem_some.mp hsource]
    decide
  · decide
  · decide
  · decide
  · decide

end Commands

end ZiModem.Vendoring
