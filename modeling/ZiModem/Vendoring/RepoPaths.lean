import ZiModem.Vendoring.TreeCopy

/-! # The repository on the disk

`RepoPaths.cs` goes up from the working directory, and then from the directory of
the tool, to the first directory that looks like the repository. In it `Vendor`
replaces the vendored tree by a fresh copy of the submodule, before any patch is
applied.
-/

namespace ZiModem.Vendoring

open DirTree DirectoryCopy

namespace RepoPaths

variable (root : FilePath)

def submoduleDir : FilePath :=
  root ++ [['e', 'x', 't', 'e', 'r', 'n', 'a', 'l'], ['z', 'i', 'm', 'o', 'd', 'e', 'm']]

def patchDir : FilePath :=
  root ++ [['p', 'a', 't', 'c', 'h', 'e', 's'], ['z', 'i', 'm', 'o', 'd', 'e', 'm']]

/-- Where `build/vendor` is. -/
def vendorParent : FilePath :=
  root ++ [['b', 'u', 'i', 'l', 'd'], ['v', 'e', 'n', 'd', 'o', 'r']]

def vendorDir : FilePath :=
  vendorParent root ++ [['z', 'i', 'm', 'o', 'd', 'e', 'm', '-', 's', 'r', 'c']]

def Marked (d : HostDisk) (dir : FilePath) : Prop :=
  submoduleDir dir ∈ d.tree.dirs ∧ dir ++ [['p', 'a', 't', 'c', 'h', 'e', 's']] ∈ d.tree.dirs

instance (d : HostDisk) (dir : FilePath) : Decidable (Marked d dir) :=
  inferInstanceAs (Decidable (_ ∧ _))

/-- The loop of `FindRepoRoot` over the parents of a directory, whose names are given from the last
one on. -/
def searchParents (d : HostDisk) : FilePath → Option FilePath
  | [] => if Marked d [] then some [] else none
  | n :: up =>
      if Marked d (n :: up).reverse then some (n :: up).reverse else searchParents d up

/-- `FindRepoRoot`, from the working directory and the directory of the tool; `none` is the
exception. -/
def findRepoRoot (d : HostDisk) (currentDirectory baseDirectory : FilePath) : Option FilePath :=
  (searchParents d currentDirectory.reverse).or (searchParents d baseDirectory.reverse)

/-- The last directory on the way to `start` that looks like the repository. -/
structure Nearest (d : HostDisk) (start root : FilePath) : Prop where
  above : root <+: start
  marked : Marked d root
  last : ∀ q, q <+: start → Marked d q → q <+: root

variable {d d' : HostDisk} {root}

theorem searchParents_eq_none_iff {up : FilePath} :
    searchParents d up = none ↔ ∀ q, q <+: up.reverse → ¬ Marked d q := by
  induction up with
  | nil => simp [searchParents, List.prefix_nil]
  | cons n up ih =>
      rw [searchParents, List.reverse_cons]
      simp only [List.prefix_concat_iff]
      split
      next hmarked =>
        refine iff_of_false (Option.some_ne_none _) fun hall => ?_
        exact hall _ (.inl rfl) hmarked
      next hmarked =>
        rw [ih]
        constructor
        · rintro hall q (rfl | hq)
          · exact hmarked
          · exact hall q hq
        · exact fun hall q hq => hall q (.inr hq)

theorem searchParents_eq_some_iff {up : FilePath} :
    searchParents d up = some root ↔ Nearest d up.reverse root := by
  induction up with
  | nil =>
      rw [searchParents, List.reverse_nil]
      constructor
      · intro h
        split at h
        next hmarked =>
          obtain rfl := Option.some.inj h
          exact ⟨List.prefix_rfl, hmarked, fun q hq _ => hq⟩
        next => cases h
      · rintro ⟨habove, hmarked, -⟩
        obtain rfl := List.prefix_nil.mp habove
        rw [if_pos hmarked]
  | cons n up ih =>
      rw [searchParents, List.reverse_cons]
      split
      next hmarked =>
        constructor
        · intro h
          obtain rfl := Option.some.inj h
          exact ⟨List.prefix_rfl, hmarked, fun q hq _ => hq⟩
        · intro h
          exact congrArg some (h.last _ List.prefix_rfl hmarked |>.eq_of_length_le
            h.above.length_le)
      next hmarked =>
        rw [ih]
        constructor
        · rintro ⟨habove, hroot, hlast⟩
          refine ⟨habove.trans (List.prefix_append _ _), hroot, fun q hq hq' => ?_⟩
          rcases List.prefix_concat_iff.mp hq with rfl | hq
          · exact absurd hq' hmarked
          · exact hlast q hq hq'
        · rintro ⟨habove, hroot, hlast⟩
          rcases List.prefix_concat_iff.mp habove with rfl | habove
          · exact absurd hroot hmarked
          · exact ⟨habove, hroot, fun q hq => hlast q (hq.trans (List.prefix_append _ _))⟩

theorem findRepoRoot_eq_some_iff {currentDirectory baseDirectory : FilePath} :
    findRepoRoot d currentDirectory baseDirectory = some root ↔
      Nearest d currentDirectory root ∨
        ((∀ q, q <+: currentDirectory → ¬ Marked d q) ∧ Nearest d baseDirectory root) := by
  rw [findRepoRoot, Option.or_eq_some_iff, searchParents_eq_some_iff, searchParents_eq_none_iff,
    searchParents_eq_some_iff, List.reverse_reverse, List.reverse_reverse]

end RepoPaths

open RepoPaths

/-! ## Replacing the vendored tree -/

/-- `Vendor` up to the loop over the series, and whether it gets there: what is left of an earlier
run is deleted, and the submodule copied. -/
def refreshVendor (root : FilePath) (source : Dir) (d : HostDisk) : HostDisk × Bool :=
  andThen (·.makeDir (vendorParent root)) (source.copyExcludingGit (vendorDir root))
    (d.deleteDir (vendorDir root))

section Refresh

variable {root : FilePath} {source : Dir} {d : HostDisk}

theorem refreshVendor_eq : refreshVendor root source d =
    if ((d.deleteDir (vendorDir root)).makeDir (vendorParent root)).2 then
      source.copyExcludingGit (vendorDir root)
        ((d.deleteDir (vendorDir root)).makeDir (vendorParent root)).1
    else (d.deleteDir (vendorDir root)).makeDir (vendorParent root) := rfl

theorem vendorDir_ne_nil (root : FilePath) : vendorDir root ≠ [] := by simp [vendorDir]

theorem parent_above (root : FilePath) : vendorParent root <+: vendorDir root :=
  List.prefix_append _ _

theorem not_prefix_parent {q : FilePath} (hq : vendorDir root <+: q) :
    ¬ q <+: vendorParent root := by
  intro hparent
  have hlength := (hq.trans hparent).length_le
  rw [vendorDir, List.length_append, List.length_singleton] at hlength
  omega

def prepared (root : FilePath) (d : HostDisk) : HostDisk :=
  ((d.deleteDir (vendorDir root)).makeDir (vendorParent root)).1

theorem read_prepared {q : FilePath} (hq : ¬ vendorDir root <+: q) :
    (prepared root d).read q = d.read q := by
  rw [prepared, Disk.read_makeDir, (Disk.mem_deleteDir (vendorDir_ne_nil root) hq).2.2]

theorem files_prepared {q : FilePath} (hq : q ∈ (prepared root d).tree.files) :
    q ∈ d.tree.files := by
  rw [prepared, Disk.files_makeDir] at hq
  exact Disk.files_deleteDir (vendorDir_ne_nil root) hq

section Free

variable (hfree : ∀ q ∈ d.tree.files, ¬ q <+: vendorDir root)

include hfree

theorem parent_made :
    ((d.deleteDir (vendorDir root)).makeDir (vendorParent root)).2 = true :=
  Disk.makeDir_ok_iff.mpr fun q hq hpre =>
    hfree q (Disk.files_deleteDir (vendorDir_ne_nil root) hq) (hpre.trans (parent_above root))

theorem refreshVendor_of_free :
    refreshVendor root source d = source.copyExcludingGit (vendorDir root) (prepared root d) := by
  rw [refreshVendor_eq, if_pos (parent_made hfree), prepared]

theorem cleared (path : FilePath) :
    vendorDir root ++ path ∉ (prepared root d).tree.dirs ∧
      vendorDir root ++ path ∉ (prepared root d).tree.files := by
  have hbelow : vendorDir root <+: vendorDir root ++ path := List.prefix_append _ _
  have hgone : vendorDir root ++ path ∉
      (d.deleteDir (vendorDir root)).tree.dirs ∪ (d.deleteDir (vendorDir root)).tree.files := by
    intro hmem
    obtain ⟨hname, hfile⟩ := Disk.eq_of_mem_deleteDir (vendorDir_ne_nil root) hbelow hmem
    rw [hname] at hfile
    exact hfree _ hfile List.prefix_rfl
  rw [Finset.mem_union, not_or] at hgone
  constructor
  · rw [prepared, Disk.mem_dirs_makeDir (parent_made hfree), not_or]
    exact ⟨hgone.1, not_prefix_parent hbelow⟩
  · rw [prepared, Disk.files_makeDir]
    exact hgone.2

end Free

/-- Nothing but a file in the place of the vendored tree, or of a directory above it, keeps `Vendor`
from copying. -/
theorem refreshVendor_ok_iff (hsource : source.Distinct) :
    (refreshVendor root source d).2 = true ↔ ∀ q ∈ d.tree.files, ¬ q <+: vendorDir root := by
  constructor
  · intro hok q hfile hpre
    have hkept : q ∈ (d.deleteDir (vendorDir root)).tree.files := by
      by_cases hq : vendorDir root <+: q
      · have hname : q = vendorDir root := hpre.eq_of_length_le hq.length_le
        have hdir : vendorDir root ∉ d.tree.dirs := fun hdir =>
          Finset.disjoint_left.mp d.tree.apart hdir (hname ▸ hfile)
        rwa [Disk.deleteDir, if_neg hdir]
      · exact (Disk.mem_deleteDir (vendorDir_ne_nil root) hq).2.1.mpr hfile
    rw [refreshVendor_eq] at hok
    split at hok
    next =>
      have hfits := (Dir.copy_ok_iff hsource).mp hok
      refine hfits.top q ?_ hpre
      rwa [Disk.files_makeDir]
    next hmade => exact hmade hok
  · intro hfree
    rw [refreshVendor_of_free hfree, Dir.copy_ok_iff hsource]
    refine ⟨fun q hq => hfree q (files_prepared hq), fun r hr q hq hpre => ?_,
      fun path bytes _ => (cleared hfree path).1⟩
    rcases List.prefix_or_prefix_of_prefix hpre (List.prefix_append _ r) with hq' | hq'
    · exact hfree q (files_prepared hq) hq'
    · obtain ⟨path, rfl⟩ := hq'
      exact (cleared hfree path).2 hq

theorem not_dir_of_file_above {p q : FilePath} (hfile : p ∈ d.tree.files) (hpre : p <+: q) :
    q ∉ d.tree.dirs := by
  obtain ⟨xs, rfl⟩ := hpre
  exact fun hdir => Finset.disjoint_left.mp d.tree.apart (Tree.dirs_of_append xs hdir) hfile

/-- Where a file stands in the way, `Vendor` has not even made a directory. -/
theorem refreshVendor_failed (hsource : source.Distinct)
    (hfail : (refreshVendor root source d).2 = false) (q : FilePath) :
    (refreshVendor root source d).1.SameAt d q := by
  have hblocked : ¬ ∀ q ∈ d.tree.files, ¬ q <+: vendorDir root := by
    rw [← refreshVendor_ok_iff hsource, hfail]
    exact Bool.false_ne_true
  obtain ⟨p, hfile, hpre⟩ : ∃ p ∈ d.tree.files, p <+: vendorDir root := by
    simpa using hblocked
  have hkept : d.deleteDir (vendorDir root) = d := if_neg (not_dir_of_file_above hfile hpre)
  rw [refreshVendor_eq, hkept]
  split
  next hmade =>
    -- the file is in the place of the vendored tree itself, and what is above it is there
    have hname : p = vendorDir root := by
      rcases List.prefix_concat_iff.mp hpre with heq | habove
      · exact heq
      · exact absurd habove (Disk.makeDir_ok_iff.mp hmade p hfile)
    have hparent : vendorParent root ∈ d.tree.dirs := d.tree.file_parent _ _ (hname ▸ hfile)
    rw [Dir.copy_blocked]
    · refine ⟨Disk.read_makeDir _ q, ?_⟩
      rw [Disk.mem_dirs_makeDir hmade, or_iff_left_iff_imp]
      rintro ⟨xs, heq⟩
      rw [← heq] at hparent
      exact Tree.dirs_of_append xs hparent
    · rw [Disk.files_makeDir]
      exact hblocked
  next hmade =>
    rw [Disk.makeDir_failed (Bool.eq_false_of_not_eq_true hmade)]
    exact ⟨rfl, Iff.rfl⟩

theorem read_refreshVendor_outside {q : FilePath} (hq : ¬ vendorDir root <+: q) :
    (refreshVendor root source d).1.read q = d.read q := by
  rw [refreshVendor_eq]
  split
  · rw [Dir.read_copy_outside hq]
    exact read_prepared hq
  · exact read_prepared hq

theorem read_refreshVendor (hsource : source.Distinct)
    (hok : (refreshVendor root source d).2 = true) (path : FilePath) :
    (refreshVendor root source d).1.read (vendorDir root ++ path) =
      DirectoryCopy.copyExcludingGit source.file? path := by
  have hfree := (refreshVendor_ok_iff hsource).mp hok
  have hcleared := Disk.read_eq_none_iff.mpr (cleared hfree path).2
  rw [refreshVendor_of_free hfree] at hok ⊢
  rw [Dir.read_copy hsource hok, hcleared, Option.or_none]

theorem dirs_refreshVendor_below (hsource : source.Distinct)
    (hok : (refreshVendor root source d).2 = true) (path : FilePath) :
    vendorDir root ++ path ∈ (refreshVendor root source d).1.tree.dirs ↔
      path = [] ∨ ∃ r ∈ source.directories, path <+: r := by
  have hfree := (refreshVendor_ok_iff hsource).mp hok
  rw [refreshVendor_of_free hfree] at hok ⊢
  rw [Dir.dirs_copy hok, or_iff_right (cleared hfree path).1]
  refine or_congr ?_ ?_
  · nth_rewrite 2 [← List.append_nil (vendorDir root)]
    rw [List.prefix_append_right_inj, List.prefix_nil]
  · simp only [List.prefix_append_right_inj]

theorem dirs_refreshVendor (hok : (refreshVendor root source d).2 = true) {q : FilePath}
    (hq : ¬ vendorDir root <+: q) :
    q ∈ (refreshVendor root source d).1.tree.dirs ↔ q ∈ d.tree.dirs ∨ q <+: vendorDir root := by
  rw [refreshVendor_eq] at hok ⊢
  split at hok
  next hmade =>
    rw [if_pos hmade, Dir.dirs_copy hok, Disk.mem_dirs_makeDir hmade,
      (Disk.mem_deleteDir (vendorDir_ne_nil root) hq).1]
    constructor
    · rintro ((hdir | hpre) | hpre | ⟨r, -, hpre⟩)
      · exact .inl hdir
      · exact .inr (hpre.trans (parent_above root))
      · exact .inr hpre
      · right
        exact (List.prefix_or_prefix_of_prefix hpre (List.prefix_append _ r)).resolve_right hq
    · rintro (hdir | hpre)
      · exact .inl (.inl hdir)
      · exact .inr (.inl hpre)
  next hmade => exact absurd hok hmade

/-- A second run gets to the patches as well, if what is outside the vendored tree is as the first
one left it and no file has come in its place. -/
theorem refreshVendor_again {d' : HostDisk} (hsource : source.Distinct)
    (hok : (refreshVendor root source d).2 = true) (hplace : d'.read (vendorDir root) = none)
    (hsame : ∀ q, ¬ vendorDir root <+: q → d'.SameAt (refreshVendor root source d).1 q) :
    (refreshVendor root source d').2 = true := by
  rw [refreshVendor_ok_iff hsource] at hok ⊢
  intro q hfile hpre
  by_cases hq : vendorDir root <+: q
  · obtain rfl : vendorDir root = q := hq.eq_of_length_le hpre.length_le
    exact absurd (Disk.read_eq_none_iff.mp hplace) (not_not.mpr hfile)
  · refine hok q ?_ hpre
    have hread := (hsame q hq).1.trans (read_refreshVendor_outside hq)
    by_contra hnot
    rw [Disk.read_eq_none_iff.mpr hnot, Disk.read_eq_none_iff] at hread
    exact hread hfile

/-- A name that none of the directories of the vendored tree has. -/
def Foreign (n : List Char) : Prop :=
  n ≠ ['b', 'u', 'i', 'l', 'd'] ∧ n ≠ ['v', 'e', 'n', 'd', 'o', 'r'] ∧
    n ≠ ['z', 'i', 'm', 'o', 'd', 'e', 'm', '-', 's', 'r', 'c']

instance (n : List Char) : Decidable (Foreign n) := inferInstanceAs (Decidable (_ ∧ _))

theorem prefix_root_of_foreign {q : FilePath} {n : List Char} (hn : Foreign n)
    (h : q ++ [n] <+: vendorDir root) : q ++ [n] <+: root := by
  have hparts : vendorDir root = ((root ++ [['b', 'u', 'i', 'l', 'd']]) ++
      [['v', 'e', 'n', 'd', 'o', 'r']]) ++
      [['z', 'i', 'm', 'o', 'd', 'e', 'm', '-', 's', 'r', 'c']] := by
    simp [vendorDir, vendorParent]
  rw [hparts] at h
  rcases List.prefix_concat_iff.mp h with heq | h
  · exact absurd (List.append_inj_right' heq rfl) (by simp [hn.2.2])
  rcases List.prefix_concat_iff.mp h with heq | h
  · exact absurd (List.append_inj_right' heq rfl) (by simp [hn.2.1])
  rcases List.prefix_concat_iff.mp h with heq | h
  · exact absurd (List.append_inj_right' heq rfl) (by simp [hn.1])
  · exact h

theorem not_below_of_foreign {q : FilePath} {n : List Char} (hn : Foreign n)
    (hq : ¬ vendorDir root <+: q) : ¬ vendorDir root <+: q ++ [n] := by
  intro h
  rcases List.prefix_concat_iff.mp h with heq | h
  · exact hn.2.2 (List.cons.inj (List.append_inj_right' heq rfl)).1.symm
  · exact hq h

theorem foreign_mem_dirs (hok : (refreshVendor root source d).2 = true)
    (hroot : root ∈ d.tree.dirs) {q : FilePath} {n : List Char} (hn : Foreign n)
    (hq : ¬ vendorDir root <+: q) :
    q ++ [n] ∈ (refreshVendor root source d).1.tree.dirs ↔ q ++ [n] ∈ d.tree.dirs := by
  rw [dirs_refreshVendor hok (not_below_of_foreign hn hq), or_iff_left_iff_imp]
  intro hpre
  obtain ⟨xs, rfl⟩ := prefix_root_of_foreign hn hpre
  exact Tree.dirs_of_append xs hroot

/-- Outside the vendored tree the same directories look like the repository. -/
theorem marked_refreshVendor (hok : (refreshVendor root source d).2 = true)
    (hroot : root ∈ d.tree.dirs) {q : FilePath} (hq : ¬ vendorDir root <+: q) :
    Marked (refreshVendor root source d).1 q ↔ Marked d q := by
  have hexternal : ¬ vendorDir root <+: q ++ [['e', 'x', 't', 'e', 'r', 'n', 'a', 'l']] :=
    not_below_of_foreign (by decide) hq
  have hsubmodule := foreign_mem_dirs hok hroot (n := ['z', 'i', 'm', 'o', 'd', 'e', 'm'])
    (by decide) hexternal
  rw [List.append_assoc] at hsubmodule
  exact and_congr hsubmodule (foreign_mem_dirs hok hroot (by decide) hq)

end Refresh

/-- `Vendor` finds the nearest repository above the working directory, and only where there is none
the nearest one above the tool. Once it has replaced the vendored tree it still finds the same one,
from anywhere outside that tree. -/
theorem finds_nearest_root (d : HostDisk) (currentDirectory baseDirectory root : FilePath) :
    (findRepoRoot d currentDirectory baseDirectory = some root ↔
      Nearest d currentDirectory root ∨
        ((∀ q, q <+: currentDirectory → ¬ Marked d q) ∧ Nearest d baseDirectory root)) ∧
    ∀ source : Dir, (refreshVendor root source d).2 = true →
      ¬ vendorDir root <+: currentDirectory → ¬ vendorDir root <+: baseDirectory →
      findRepoRoot d currentDirectory baseDirectory = some root →
      findRepoRoot (refreshVendor root source d).1 currentDirectory baseDirectory = some root := by
  refine ⟨findRepoRoot_eq_some_iff, fun source hok hcurrent hbase hfound => ?_⟩
  rw [findRepoRoot_eq_some_iff] at hfound ⊢
  have hmarked : Marked d root := by
    rcases hfound with hnear | ⟨-, hnear⟩
    · exact hnear.marked
    · exact hnear.marked
  have hsame : ∀ start, ¬ vendorDir root <+: start → ∀ q, q <+: start →
      (Marked (refreshVendor root source d).1 q ↔ Marked d q) := fun start hstart q hq =>
    marked_refreshVendor hok (Tree.dirs_of_append _ hmarked.1) fun hbelow =>
      hstart (hbelow.trans hq)
  have hnear : ∀ start, ¬ vendorDir root <+: start → Nearest d start root →
      Nearest (refreshVendor root source d).1 start root := fun start hstart hnear =>
    { above := hnear.above
      marked := (hsame start hstart root hnear.above).mpr hnear.marked
      last := fun q hq hq' => hnear.last q hq ((hsame start hstart q hq).mp hq') }
  rcases hfound with hfound | ⟨hnone, hfound⟩
  · exact .inl (hnear _ hcurrent hfound)
  · refine .inr ⟨fun q hq hq' => ?_, hnear _ hbase hfound⟩
    exact hnone q hq ((hsame _ hcurrent q hq).mp hq')

/-- A repository at `/r`: `external/zimodem` and `patches`, and nothing vendored yet. -/
def smallRepo : HostDisk :=
  ((emptyDisk.makeDir (submoduleDir [['r']])).1.makeDir (patchDir [['r']])).1

theorem finds_nearest_root_small :
    findRepoRoot (refreshVendor [['r']] smallSource smallRepo).1 (patchDir [['r']]) [['b']] =
      some [['r']] :=
  (finds_nearest_root smallRepo (patchDir [['r']]) [['b']] [['r']]).2 smallSource (by decide)
    (by decide) (by decide) (by decide)

/-- `Vendor` gets to the patches exactly if no file stands in the place of the vendored tree or of a
directory above it, and otherwise has changed nothing. Once there, it has made the vendored tree the
copy that the patches are replayed on, whatever was there before, and a later run makes the same of
it, whatever becomes of it until then. Outside it only the directories above it are made. -/
theorem vendor_starts_afresh (root : FilePath) (source : Dir) (hsource : source.Distinct)
    (d : HostDisk) :
    ((refreshVendor root source d).2 = true ↔ ∀ q ∈ d.tree.files, ¬ q <+: vendorDir root) ∧
      ((refreshVendor root source d).2 = true →
        (fun path => (refreshVendor root source d).1.read (vendorDir root ++ path)) =
          diskBytes (copyExcludingGit fun path => (source.file? path).map splitLines) ∧
        (∀ path, vendorDir root ++ path ∈ (refreshVendor root source d).1.tree.dirs ↔
          path = [] ∨ ∃ r ∈ source.directories, path <+: r) ∧
        (∀ q, ¬ vendorDir root <+: q →
          (refreshVendor root source d).1.read q = d.read q ∧
          (q ∈ (refreshVendor root source d).1.tree.dirs ↔
            q ∈ d.tree.dirs ∨ q <+: vendorDir root)) ∧
        ∀ d' : HostDisk, d'.read (vendorDir root) = none →
          (∀ q, ¬ vendorDir root <+: q → d'.SameAt (refreshVendor root source d).1 q) →
          (refreshVendor root source d').2 = true ∧
            ∀ q, (refreshVendor root source d').1.SameAt (refreshVendor root source d).1 q) ∧
      ((refreshVendor root source d).2 = false →
        ∀ q, (refreshVendor root source d).1.SameAt d q) := by
  refine ⟨refreshVendor_ok_iff hsource, fun hok => ⟨?_, dirs_refreshVendor_below hsource hok,
    fun q hq => ⟨read_refreshVendor_outside hq, dirs_refreshVendor hok hq⟩,
    fun d' hplace hsame => ?_⟩, refreshVendor_failed hsource⟩
  · rw [copyExcludingGit_lines]
    exact funext fun path => read_refreshVendor hsource hok path
  · have hagain := refreshVendor_again hsource hok hplace hsame
    refine ⟨hagain, fun q => ?_⟩
    by_cases hq : vendorDir root <+: q
    · obtain ⟨path, rfl⟩ := hq
      refine ⟨?_, ?_⟩
      · rw [read_refreshVendor hsource hagain, read_refreshVendor hsource hok]
      · rw [dirs_refreshVendor_below hsource hagain, dirs_refreshVendor_below hsource hok]
    · refine ⟨(read_refreshVendor_outside hq).trans (hsame q hq).1, ?_⟩
      -- the directories above the vendored tree were made by the first run
      rw [dirs_refreshVendor hagain hq, (hsame q hq).2, dirs_refreshVendor hok hq]
      tauto

theorem vendor_starts_afresh_small :
    smallSource.Distinct ∧
    (∀ q, (refreshVendor [['r']] smallSource
        (refreshVendor [['r']] smallSource smallRepo).1).1.SameAt
      (refreshVendor [['r']] smallSource smallRepo).1 q) := by
  have hsource : smallSource.Distinct := by decide
  obtain ⟨hiff, hdone, -⟩ := vendor_starts_afresh [['r']] smallSource hsource smallRepo
  have hok : (refreshVendor [['r']] smallSource smallRepo).2 = true := hiff.mpr (by decide)
  obtain ⟨-, -, -, hagain⟩ := hdone hok
  refine ⟨hsource, (hagain _ ?_ fun q _ => ⟨rfl, Iff.rfl⟩).2⟩
  rw [Disk.read_eq_none_iff]
  decide

end ZiModem.Vendoring
