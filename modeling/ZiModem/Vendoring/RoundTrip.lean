import ZiModem.Vendoring.Commands

/-! # From a hand edit to a patch and back

`new-patch` records the difference between the pristine copy and the edited tree,
and `vendor` applies it behind the patches that are there already. The difference
repeats what these do, so that it fits only where they amount to nothing.
-/

namespace ZiModem.Vendoring

open LinePatch

namespace Env

variable {φ : Type*} {env : Env φ}

/-! ## Replaying a series -/

section Series

variable {patchFile patchFile' : φ → Option (Patch FilePath Line)} {names names' : List (List Char)}
  {A B : Files}

theorem applySeries_cons_iff {name : List Char} :
    env.applySeries patchFile (name :: names) A = (B, true) ↔
      ∃ patch A', patchFile (env.combine name) = some patch ∧ env.apply patch A = some A' ∧
        env.applySeries patchFile names A' = (B, true) := by
  cases hfile : patchFile (env.combine name) with
  | none => simp [applySeries, hfile]
  | some patch =>
      cases happly : env.apply patch A with
      | none => simp [applySeries, hfile, happly]
      | some A' => simp [applySeries, hfile, happly]

theorem applySeries_append (h : env.applySeries patchFile names A = (B, true)) :
    env.applySeries patchFile (names ++ names') A = env.applySeries patchFile names' B := by
  induction names generalizing A with
  | nil =>
      cases h
      rfl
  | cons name names ih =>
      obtain ⟨patch, A', hfile, happly, hrest⟩ := applySeries_cons_iff.mp h
      rw [List.cons_append]
      simp only [applySeries, hfile, happly]
      exact ih hrest

theorem applySeries_of_append (h : env.applySeries patchFile (names ++ names') A = (B, true)) :
    ∃ earlier, env.applySeries patchFile names A = (earlier, true) := by
  induction names generalizing A with
  | nil => exact ⟨A, rfl⟩
  | cons name names ih =>
      obtain ⟨patch, A', hfile, happly, hrest⟩ := applySeries_cons_iff.mp h
      obtain ⟨earlier, hearlier⟩ := ih hrest
      exact ⟨earlier, applySeries_cons_iff.mpr ⟨patch, A', hfile, happly, hearlier⟩⟩

theorem applySeries_congr
    (h : ∀ name ∈ names, patchFile (env.combine name) = patchFile' (env.combine name)) :
    env.applySeries patchFile names A = env.applySeries patchFile' names A := by
  induction names generalizing A with
  | nil => rfl
  | cons name names ih =>
      rw [List.forall_mem_cons] at h
      simp only [applySeries, h.1, ih h.2]

theorem applySeries_singleton_iff {name : List Char} :
    env.applySeries patchFile [name] A = (B, true) ↔
      ∃ patch ∈ patchFile (env.combine name), env.apply patch A = some B := by
  rw [applySeries_cons_iff]
  constructor
  · rintro ⟨patch, A', hfile, happly, hend⟩
    cases hend
    exact ⟨patch, hfile, happly⟩
  · rintro ⟨patch, hfile, happly⟩
    exact ⟨patch, B, hfile, happly, rfl⟩

end Series

/-! ## What the two commands leave -/

theorem vendor_spec {r r' : Repo φ} (h : env.vendor r = (r', some 0)) :
    ∃ source files, r.submodule = some source ∧
      env.applySeries r.patchFile (readSeries r.series) (copyExcludingGit source) = (files, true) ∧
      r' = { r with vendorDir := some files } := by
  unfold vendor at h
  cases hsource : r.submodule with
  | none => simp [hsource] at h
  | some source =>
      simp only [hsource] at h
      cases hseries : env.applySeries r.patchFile (readSeries r.series)
          (copyExcludingGit source) with
      | mk files ok =>
          simp only [hseries, Prod.mk.injEq, Option.some.injEq] at h
          cases ok with
          | false => simp at h
          | true => exact ⟨source, files, rfl, hseries, h.1.symm⟩

theorem rebuilds_iff_applySeries {r : Repo φ} {source edited : Files}
    (hsource : r.submodule = some source) :
    env.Rebuilds r edited ↔
      env.applySeries r.patchFile (readSeries r.series) (copyExcludingGit source) =
        (edited, true) := by
  unfold Rebuilds vendor
  rw [hsource]
  simp only
  cases env.applySeries r.patchFile (readSeries r.series) (copyExcludingGit source) with
  | mk files ok =>
      cases ok with
      | false => simp
      | true => simp

variable [DecidableEq φ]

/-- The repository with a hand edit and the patch that records it. -/
def recorded (env : Env φ) (r : Repo φ) (edited : Files) (name : List Char)
    (written : Patch FilePath Line) : Repo φ :=
  { r with
    vendorDir := some edited
    series := some (r.series.getD [] ++ name ++ ['\n'])
    patchFile := Function.update r.patchFile (env.combine name) (some written) }

theorem newPatch_spec {r r' : Repo φ} {source edited : Files} {name : List Char}
    (hsource : r.submodule = some source) (hname : env.NewName r name)
    (h : env.newPatch { r with vendorDir := some edited } name = (r', some 0)) :
    ∃ patch, env.diff (copyExcludingGit source) edited = some patch ∧
      r' = env.recorded r edited name (patch.map env.record) := by
  have hlisted : name ∉ readSeries r.series := fun hmem => hname.unlisted name hmem rfl
  obtain ⟨submodule, vendorDir, series, patchFile⟩ := r
  cases hsource
  unfold newPatch at h
  dsimp only at h hlisted
  cases hdiff : env.diff (copyExcludingGit source) edited with
  | none => simp [hdiff] at h
  | some patch =>
      simp only [hdiff, hlisted, if_false] at h
      split at h
      · cases h
      · cases h
        exact ⟨patch, rfl, rfl⟩

/-! ## When the edit comes back -/

/-- The text that the new name is appended to: what follows the last line break of `SERIES`, without
leading white space. -/
def stem (series : Option (List Char)) : List Char := trimStart (unterminated (series.getD []))

/-- The new patch, recorded at the end of the series, takes what is vendored to the edited tree.

Where `SERIES` ends with a line break, this is so if the series before amounts to nothing: what is
vendored is the pristine copy, up to the lines that the new patch removes and that `NewPatch` does
not write down as they are. Where it ends in a comment, the name becomes part of that; where it ends
in another name, a file is looked up under both names in one. -/
def RecordsEdit (env : Env φ) (r : Repo φ) (edited : Files) (name : List Char) : Prop :=
  ∃ source ∈ r.submodule, ∃ vendored ∈ r.vendorDir,
    ∃ patch ∈ env.diff (copyExcludingGit source) edited,
      if stem r.series = [] then
        patch.Spares env.record ∧ vendored = patch.lower env.record (copyExcludingGit source)
      else if (stem r.series).head? = some '#' then edited = vendored
      else
        ∃ earlier other,
          env.applySeries r.patchFile (readSeries (some (terminated (r.series.getD []))))
              (copyExcludingGit source) = (earlier, true) ∧
            Function.update r.patchFile (env.combine name) (some (patch.map env.record))
              (env.combine (stem r.series ++ name)) = some other ∧
            env.apply other earlier = some edited

omit [DecidableEq φ] in
theorem entry_unterminated {r : Repo φ}
    (h : stem r.series = [] ∨ (stem r.series).head? = some '#') :
    entry (unterminated (r.series.getD [])) = [] := by
  rw [entry, trim, ← stem]
  rcases h with hblank | hcomment
  · simp [hblank]
  · obtain ⟨rest, hrest⟩ := List.head?_eq_some_iff.mp hcomment
    have hkept : (stem r.series).rdropWhile isWhiteSpace ≠ [] := by
      rw [Ne, List.rdropWhile_eq_nil_iff, hrest]
      intro hwhite
      exact absurd (hwhite '#' List.mem_cons_self) (by decide)
    obtain ⟨blank, hblank⟩ := List.rdropWhile_prefix isWhiteSpace (l := stem r.series)
    have hhead := congrArg List.head? hblank
    rw [List.head?_append_of_ne_nil _ hkept, hcomment] at hhead
    simp [hhead]

/-- The next `vendor` does as the last one did up to the last line break of `SERIES`, and goes on
with what the appended name has become. -/
theorem rebuilds_iff_rest {r : Repo φ} {source edited earlier : Files} {name : List Char}
    {written : Patch FilePath Line} (hsource : r.submodule = some source)
    (hname : env.NewName r name)
    (hearlier : env.applySeries r.patchFile (readSeries (some (terminated (r.series.getD []))))
      (copyExcludingGit source) = (earlier, true)) :
    env.Rebuilds (env.recorded r edited name written) edited ↔
      env.applySeries (Function.update r.patchFile (env.combine name) (some written))
        (if (stem r.series ++ name).head? = some '#' then [] else [stem r.series ++ name]) earlier =
          (edited, true) := by
  have hread : readSeries r.series = readSeries (some (r.series.getD [])) := by
    cases r.series <;> rfl
  have hsame : ∀ n ∈ readSeries (some (terminated (r.series.getD []))),
      r.patchFile (env.combine n) =
        Function.update r.patchFile (env.combine name) (some written) (env.combine n) := by
    intro n hn
    have hlisted : n ∈ readSeries r.series := by
      rw [hread, readSeries_cut]
      exact List.mem_append_left _ hn
    rw [Function.update_of_ne (hname.unlisted n hlisted)]
  rw [applySeries_congr hsame] at hearlier
  rw [rebuilds_iff_applySeries (r := env.recorded r edited name written) hsource, recorded,
    readSeries_appended hname.wellFormed, applySeries_append hearlier]
  rfl

/-- Where `SERIES` ends with a line break and `NewPatch` writes the lines of both trees down as they
are, the new patch fits only if the series before amounts to nothing. -/
theorem recordsEdit_iff_of_plain (hgit : env.Git) {r : Repo φ} {source vendored edited : Files}
    {patch : Patch FilePath Line} {name : List Char} (hsource : r.submodule = some source)
    (hvendored : r.vendorDir = some vendored)
    (hdiff : env.diff (copyExcludingGit source) edited = some patch) (hstem : stem r.series = [])
    (hpristine : ∀ path lines, copyExcludingGit source path = some lines →
      ∀ line ∈ lines, env.record line = line)
    (hedited : ∀ path lines, edited path = some lines → ∀ line ∈ lines, env.record line = line) :
    env.RecordsEdit r edited name ↔ vendored = copyExcludingGit source := by
  simp only [RecordsEdit, hsource, hvendored, hdiff, hstem, Option.mem_def, Option.some.injEq,
    exists_eq_left', if_true]
  exact Patch.spares_lower_iff (hgit.diff_apply _ _ _ hdiff) hpristine hedited

/-- A hand edit that `new-patch` records is what `vendor` builds again exactly where the new patch
fits behind the series. -/
theorem rebuilds_iff (hgit : env.Git) {r r₁ r₂ : Repo φ} {edited : Files} {name : List Char}
    (hvendor : env.vendor r = (r₁, some 0)) (hname : env.NewName r₁ name)
    (hpatch : env.newPatch { r₁ with vendorDir := some edited } name = (r₂, some 0)) :
    env.Rebuilds r₂ edited ↔ env.RecordsEdit r₁ edited name := by
  obtain ⟨source, vendored, hsource, hseries, rfl⟩ := vendor_spec hvendor
  obtain ⟨patch, hdiff, rfl⟩ := newPatch_spec (r := { r with vendorDir := some vendored })
    hsource hname hpatch
  have hread : readSeries r.series = readSeries (some (r.series.getD [])) := by
    cases r.series <;> rfl
  rw [hread, readSeries_cut] at hseries
  obtain ⟨earlier, hearlier⟩ := applySeries_of_append hseries
  rw [applySeries_append hearlier] at hseries
  rw [rebuilds_iff_rest (r := { r with vendorDir := some vendored }) hsource hname hearlier]
  simp only [RecordsEdit, hsource, hdiff, Option.mem_def, Option.some.injEq,
    exists_eq_left']
  by_cases hblank : stem r.series = []
  · have hhead : ([] ++ name).head? ≠ some '#' := by
      obtain ⟨c, hc, -, hne⟩ := hname.wellFormed.head
      simp [hc, hne]
    rw [entry_unterminated (.inl hblank)] at hseries
    cases hseries
    rw [hblank, if_neg hhead, if_pos rfl, List.nil_append, applySeries_singleton_iff]
    simp only [Function.update_self, Option.mem_def, Option.some.injEq, exists_eq_left',
      hgit.apply_lines]
    exact Patch.apply_map_iff (hgit.diff_apply _ _ _ hdiff)
  · have hhead : (stem r.series ++ name).head? = (stem r.series).head? := by
      obtain ⟨c, rest, hrest⟩ := List.exists_cons_of_ne_nil hblank
      simp [hrest]
    rw [hhead, if_neg hblank]
    by_cases hcomment : (stem r.series).head? = some '#'
    · rw [entry_unterminated (.inr hcomment)] at hseries
      cases hseries
      rw [if_pos hcomment, if_pos hcomment]
      simp [applySeries, eq_comm]
    · rw [if_neg hcomment, if_neg hcomment, applySeries_singleton_iff]
      simp only [hearlier, Prod.mk.injEq, and_true]
      constructor
      · rintro ⟨other, hother, happly⟩
        exact ⟨earlier, other, rfl, hother, happly⟩
      · rintro ⟨_, other, rfl, hother, happly⟩
        exact ⟨other, hother, happly⟩

/-! ## One file of one line -/

def oneLine (line : Line) : Files := fun path => if path = [['f']] then some [line] else none

def replaceLine (old new : Line) : Patch FilePath Line :=
  ⟨[([['f']], .edit [.drop old, .add new])]⟩

theorem replaceLine_apply (old new : Line) :
    (replaceLine old new).apply (oneLine old) = some (oneLine new) := by
  rw [Patch.apply_eq_some_iff]
  intro path
  by_cases hpath : path = [['f']]
  · subst hpath
    simp [replaceLine, Patch.file, oneLine, FilePatch.apply, run]
  · rw [Patch.file_of_not_mem (by simpa [replaceLine] using Ne.symm hpath)]
    simp [oneLine, hpath, FilePatch.apply]

theorem copy_oneLine (line : Line) : copyExcludingGit (oneLine line) = oneLine line := by
  funext path
  by_cases hpath : path = [['f']]
  · subst hpath
    simp only [copyExcludingGit, oneLine]
    rw [if_neg (by decide), if_neg (by decide)]
  · simp [copyExcludingGit, oneLine, hpath]

open Classical in
noncomputable def acGit : Env (List Char) where
  diff A B :=
    if A = oneLine [97, 10] ∧ B = oneLine [99, 10] then some (replaceLine [97, 10] [99, 10])
    else none
  apply := Patch.apply
  recode := id
  combine := id

theorem acGit_git : acGit.Git := by
  constructor
  · intro A B patch h
    obtain ⟨⟨rfl, rfl⟩, hpatch⟩ := Option.ite_none_right_eq_some.mp h
    cases hpatch
    exact replaceLine_apply _ _
  · intro patch A
    rfl

def oneFile (series : Option (List Char))
    (patchFile : List Char → Option (Patch FilePath Line)) : Repo (List Char) :=
  ⟨some (oneLine [97, 10]), none, series, patchFile⟩

theorem newName_n (r : Repo (List Char)) (h : ['n'] ∉ readSeries r.series) :
    acGit.NewName r ['n'] where
  wellFormed := ⟨by simp [isBreak], ⟨'n', rfl, by decide, by decide⟩, ⟨'n', rfl, by decide⟩⟩
  unlisted := by
    rintro m hm rfl
    exact h hm

theorem acGit_newPatch (r : Repo (List Char)) (hsource : r.submodule = some (oneLine [97, 10]))
    (h : ['n'] ∉ readSeries r.series) :
    acGit.newPatch { r with vendorDir := some (oneLine [99, 10]) } ['n'] =
      (acGit.recorded r (oneLine [99, 10]) ['n'] (replaceLine [97, 10] [99, 10]), some 0) := by
  have hdiff : acGit.diff (oneLine [97, 10]) (oneLine [99, 10]) =
      some (replaceLine [97, 10] [99, 10]) := if_pos ⟨rfl, rfl⟩
  have hrecord : (replaceLine [97, 10] [99, 10]).map acGit.record =
      replaceLine [97, 10] [99, 10] := by rfl
  have hsome : (replaceLine [97, 10] [99, 10]).entries ≠ [] := by simp [replaceLine]
  simp only [newPatch, hsource, copy_oneLine, hdiff, hsome, h, hrecord, if_false]
  rw [recorded, hsource]

/-- Without an earlier patch the edit comes back. -/
theorem rebuilds_first :
    acGit.Rebuilds
      (acGit.recorded { oneFile none (fun _ => none) with vendorDir := some (oneLine [97, 10]) }
        (oneLine [99, 10]) ['n'] (replaceLine [97, 10] [99, 10])) (oneLine [99, 10]) := by
  have hvendor : acGit.vendor (oneFile none (fun _ => none)) =
      ({ oneFile none (fun _ => none) with vendorDir := some (oneLine [97, 10]) }, some 0) := by
    simp [vendor, oneFile, readSeries, applySeries, copy_oneLine]
  have hnew : ['n'] ∉ readSeries (none : Option (List Char)) := by simp [readSeries]
  apply (rebuilds_iff acGit_git hvendor (newName_n _ hnew) (acGit_newPatch _ rfl hnew)).mpr
  have hplain : ∀ b : UInt8, b = 97 ∨ b = 99 → ∀ path lines, oneLine [b, 10] path = some lines →
      ∀ line ∈ lines, acGit.record line = line := by
    intro b hb path lines hlines line hline
    obtain ⟨-, heq⟩ := Option.ite_none_right_eq_some.mp hlines
    cases heq
    rw [List.mem_singleton.mp hline]
    rcases hb with rfl | rfl <;> rfl
  have hdiff : acGit.diff (copyExcludingGit (oneLine [97, 10])) (oneLine [99, 10]) =
      some (replaceLine [97, 10] [99, 10]) := by
    rw [copy_oneLine]
    exact if_pos ⟨rfl, rfl⟩
  apply (recordsEdit_iff_of_plain acGit_git rfl rfl hdiff rfl _ (hplain 99 (.inr rfl))).mpr
  · exact (copy_oneLine _).symm
  · rw [copy_oneLine]
    exact hplain 97 (.inl rfl)

def patchedFile : Repo (List Char) :=
  oneFile (some ['p', '\n'])
    (fun file => if file = ['p'] then some (replaceLine [97, 10] [98, 10]) else none)

theorem patchedFile_series :
    acGit.applySeries patchedFile.patchFile [['p']] (copyExcludingGit (oneLine [97, 10])) =
      (oneLine [98, 10], true) := by
  rw [applySeries_singleton_iff, copy_oneLine]
  have hfile : patchedFile.patchFile (acGit.combine ['p']) =
      some (replaceLine [97, 10] [98, 10]) := by simp [patchedFile, oneFile, acGit]
  exact ⟨_, hfile, (acGit_git.apply_lines _ _).trans (replaceLine_apply _ _)⟩

/-- With that patch in the series, an edit that makes `f` say `c` does not come back: the new patch
looks for the line of the pristine copy. -/
theorem not_rebuilds :
    ¬ ∀ (env : Env (List Char)) (r r₁ r₂ : Repo (List Char)) (edited : Files) (name : List Char),
      env.Git → env.vendor r = (r₁, some 0) → env.NewName r₁ name →
      env.newPatch { r₁ with vendorDir := some edited } name = (r₂, some 0) →
      env.Rebuilds r₂ edited := by
  intro hall
  have hvendor : acGit.vendor patchedFile =
      ({ patchedFile with vendorDir := some (oneLine [98, 10]) }, some 0) := by
    have hread : readSeries (some ['p', '\n']) = [['p']] := by decide
    have hseries := patchedFile_series
    simp only [patchedFile, oneFile] at hseries
    simp only [vendor, patchedFile, oneFile, hread, hseries, if_true]
  have hunlisted : ['n'] ∉ readSeries (some ['p', '\n']) := by decide
  have hnew := newName_n { patchedFile with vendorDir := some (oneLine [98, 10]) } hunlisted
  have hback := hall acGit _ _ _ _ _ acGit_git hvendor hnew (acGit_newPatch _ rfl hunlisted)
  have hread : readSeries (some (terminated ['p', '\n'])) = [['p']] := by decide
  rw [rebuilds_iff_rest rfl hnew (by rw [← patchedFile_series, ← hread]; rfl),
    if_neg (by decide), applySeries_singleton_iff] at hback
  obtain ⟨patch, hpatch, happly⟩ := hback
  rw [show stem _ ++ ['n'] = ['n'] by decide, Function.update_self] at hpatch
  cases hpatch
  rw [acGit_git.apply_lines, Patch.apply_eq_some_iff] at happly
  have hline := happly [['f']]
  revert hline
  decide

end Env

end ZiModem.Vendoring
