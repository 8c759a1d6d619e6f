import ZiModem.Paths.Disk
import ZiModem.Vendoring.DirectoryCopy

/-! # The copy, directory by directory

`CopyExcludingGit` goes down the source, makes a directory of the destination,
copies the directories in it and then the files. Where the destination has nothing
in the place of something else the copy goes through, and has made of every path
what the copy of the paths says, in whatever order the directories are listed.
Another process does not touch either side, and neither contains the other.
-/

namespace ZiModem.Vendoring.DirectoryCopy

open DirTree

inductive Dir
  | nil
  | file (name : List Char) (bytes : Bytes) (rest : Dir)
  | dir (name : List Char) (sub rest : Dir)
  deriving DecidableEq, Repr

abbrev HostDisk := Disk (List Char) Bytes

def gitName : List Char := ['.', 'g', 'i', 't']

def copiedBytes (name : List Char) (bytes : Bytes) : Bytes :=
  if isTextSource [name] then normalizeToLf bytes else bytes

def andThen (f g : HostDisk → HostDisk × Bool) (d : HostDisk) : HostDisk × Bool :=
  if (f d).2 then g (f d).1 else f d

namespace Dir

def copyFiles : Dir → FilePath → HostDisk → HostDisk × Bool
  | .nil, _ => fun d => (d, true)
  | .file name bytes rest, dest =>
      if name = gitName then copyFiles rest dest
      else andThen (·.write dest name (copiedBytes name bytes)) (copyFiles rest dest)
  | .dir _ _ rest, dest => copyFiles rest dest

/-- The loop over the directories; its body is `CopyExcludingGit` itself. -/
def copyDirs : Dir → FilePath → HostDisk → HostDisk × Bool
  | .nil, _ => fun d => (d, true)
  | .file _ _ rest, dest => copyDirs rest dest
  | .dir name sub rest, dest =>
      if name = gitName then copyDirs rest dest
      else andThen
        (andThen (·.makeDir (dest ++ [name]))
          (andThen (copyDirs sub (dest ++ [name])) (copyFiles sub (dest ++ [name]))))
        (copyDirs rest dest)

/-- `CopyExcludingGit`, and whether it returns. -/
def copyExcludingGit (source : Dir) (dest : FilePath) : HostDisk → HostDisk × Bool :=
  andThen (·.makeDir dest) (andThen (source.copyDirs dest) (source.copyFiles dest))

example (name : List Char) (sub rest : Dir) (dest : FilePath) :
    (Dir.dir name sub rest).copyDirs dest =
      if name = gitName then rest.copyDirs dest
      else andThen (sub.copyExcludingGit (dest ++ [name])) (rest.copyDirs dest) := rfl

/-! ## The source -/

def names : Dir → List (List Char)
  | .nil => []
  | .file name _ rest | .dir name _ rest => name :: rest.names

def Distinct : Dir → Prop
  | .nil => True
  | .file name _ rest => name ∉ rest.names ∧ rest.Distinct
  | .dir name sub rest => name ∉ rest.names ∧ sub.Distinct ∧ rest.Distinct

instance decidableDistinct : (source : Dir) → Decidable source.Distinct
  | .nil => .isTrue trivial
  | .file name _ rest =>
      have := decidableDistinct rest
      inferInstanceAs (Decidable (name ∉ rest.names ∧ rest.Distinct))
  | .dir name sub rest =>
      have := decidableDistinct sub
      have := decidableDistinct rest
      inferInstanceAs (Decidable (name ∉ rest.names ∧ sub.Distinct ∧ rest.Distinct))

def file? : Dir → FilePath → Option Bytes
  | .nil, _ => none
  | .file name bytes rest, path => if path = [name] then some bytes else rest.file? path
  | .dir name sub rest, path =>
      if path.head? = some name then sub.file? path.tail else rest.file? path

def directories : Dir → List FilePath
  | .nil => []
  | .file _ _ rest => rest.directories
  | .dir name sub rest =>
      (if name = gitName then [] else [name] :: sub.directories.map (name :: ·)) ++
        rest.directories

def copied : Dir → List (FilePath × Bytes)
  | .nil => []
  | .file name bytes rest =>
      (if name = gitName then [] else [([name], copiedBytes name bytes)]) ++ rest.copied
  | .dir name sub rest =>
      (if name = gitName then [] else sub.copied.map fun w => (name :: w.1, w.2)) ++ rest.copied

/-! ## The copy as a sequence of steps -/

def planFiles : Dir → FilePath → List (DiskOp (List Char) Bytes)
  | .nil, _ => []
  | .file name bytes rest, dest =>
      if name = gitName then planFiles rest dest
      else .write dest name (copiedBytes name bytes) :: planFiles rest dest
  | .dir _ _ rest, dest => planFiles rest dest

def planDirs : Dir → FilePath → List (DiskOp (List Char) Bytes)
  | .nil, _ => []
  | .file _ _ rest, dest => planDirs rest dest
  | .dir name sub rest, dest =>
      if name = gitName then planDirs rest dest
      else .makeDir (dest ++ [name]) ::
        (planDirs sub (dest ++ [name]) ++ planFiles sub (dest ++ [name])) ++ planDirs rest dest

def plan (source : Dir) (dest : FilePath) : List (DiskOp (List Char) Bytes) :=
  source.planDirs dest ++ source.planFiles dest

end Dir

theorem andThen_exec (os os' : List (DiskOp (List Char) Bytes)) :
    andThen (·.exec os) (·.exec os') = (·.exec (os ++ os')) := by
  funext d
  rw [Disk.exec_append]
  rfl

namespace Dir

theorem copyFiles_eq (source : Dir) (dest : FilePath) :
    source.copyFiles dest = (·.exec (source.planFiles dest)) := by
  induction source with
  | nil => rfl
  | file name bytes rest ih =>
      rw [copyFiles, planFiles]
      split
      · exact ih
      · rw [ih]
        rfl
  | dir name sub rest _ ih => exact ih

theorem copyDirs_eq (source : Dir) (dest : FilePath) :
    source.copyDirs dest = (·.exec (source.planDirs dest)) := by
  induction source generalizing dest with
  | nil => rfl
  | file name bytes rest ih => exact ih dest
  | dir name sub rest ihsub ih =>
      rw [copyDirs, planDirs]
      split
      · exact ih dest
      · rw [ihsub, copyFiles_eq, andThen_exec, ih]
        exact andThen_exec (.makeDir (dest ++ [name]) ::
          (sub.planDirs (dest ++ [name]) ++ sub.planFiles (dest ++ [name]))) _

theorem copyExcludingGit_eq (source : Dir) (dest : FilePath) :
    source.copyExcludingGit dest = (·.exec (.makeDir dest :: source.plan dest)) := by
  rw [copyExcludingGit, copyDirs_eq, copyFiles_eq, andThen_exec]
  rfl

/-! ## What the steps do -/

theorem plan_dir {name : List Char} (sub rest : Dir) (dest : FilePath) (hname : name ≠ gitName) :
    (Dir.dir name sub rest).plan dest =
      .makeDir (dest ++ [name]) :: sub.plan (dest ++ [name]) ++ rest.plan dest := by
  simp only [plan, planDirs, planFiles, if_neg hname, List.append_assoc, List.cons_append]

theorem made_planFiles (source : Dir) (dest : FilePath) : made (source.planFiles dest) = [] := by
  induction source with
  | nil => rfl
  | file name bytes rest ih =>
      rw [planFiles]
      split
      · exact ih
      · exact ih
  | dir name sub rest _ ih => exact ih

theorem made_planDirs (source : Dir) (dest : FilePath) :
    made (source.planDirs dest) = source.directories.map (dest ++ ·) := by
  induction source generalizing dest with
  | nil => rfl
  | file name bytes rest ih => exact ih dest
  | dir name sub rest ihsub ih =>
      rw [planDirs, directories]
      by_cases hname : name = gitName
      · rw [if_pos hname, if_pos hname, ih, List.nil_append]
      · simp only [if_neg hname, made_append, made_planFiles, made, ih, ihsub, List.map_append,
          List.map_cons, List.map_map, List.append_nil, List.cons_append, List.cons.injEq,
          List.append_cancel_right_eq, true_and]
        simp

theorem made_plan (source : Dir) (dest : FilePath) :
    made (source.plan dest) = source.directories.map (dest ++ ·) := by
  rw [plan, made_append, made_planFiles, made_planDirs, List.append_nil]

/-- The files are written in another order than they are listed. -/
theorem wrote_plan (source : Dir) (dest : FilePath) :
    (wrote (source.plan dest)).Perm (source.copied.map fun w => (dest ++ w.1, w.2)) := by
  induction source generalizing dest with
  | nil => exact .refl _
  | file name bytes rest ih =>
      have hih := ih dest
      rw [plan, wrote_append] at hih
      rw [plan, planDirs, planFiles, copied]
      by_cases hname : name = gitName
      · rw [if_pos hname, if_pos hname, wrote_append]
        exact hih
      · rw [if_neg hname, if_neg hname, wrote_append, wrote]
        exact List.perm_middle.trans (hih.cons _)
  | dir name sub rest ihsub ih =>
      by_cases hname : name = gitName
      · have hplan : (Dir.dir name sub rest).plan dest = rest.plan dest := by
          simp only [plan, planDirs, planFiles, if_pos hname]
        rw [hplan, copied, if_pos hname]
        exact ih dest
      · rw [plan_dir sub rest dest hname, wrote_append, wrote, copied, if_neg hname,
          List.map_append, List.map_map]
        refine List.Perm.append ((ihsub (dest ++ [name])).trans (.of_eq ?_)) (ih dest)
        refine List.map_congr_left fun w _ => ?_
        simp

theorem orderly_planFiles (source : Dir) {dest : FilePath} {there : FilePath → Prop}
    (hdest : there dest) : Orderly there (source.planFiles dest) := by
  induction source with
  | nil => trivial
  | file name bytes rest ih =>
      rw [planFiles]
      split
      · exact ih
      · exact ⟨hdest, ih⟩
  | dir name sub rest _ ih => exact ih

theorem orderly_planDirs (source : Dir) (dest : FilePath) {there : FilePath → Prop} :
    Orderly there (source.planDirs dest) := by
  induction source generalizing dest there with
  | nil => trivial
  | file name bytes rest ih => exact ih dest
  | dir name sub rest ihsub ih =>
      rw [planDirs]
      split
      · exact ih dest
      · refine Orderly.append (Orderly.append (ihsub _) ?_) (ih dest)
        exact sub.orderly_planFiles (.inr List.prefix_rfl)

/-! ## What is copied -/

theorem head_copied {source : Dir} {w : FilePath × Bytes} (h : w ∈ source.copied) :
    ∃ n ∈ source.names, w.1.head? = some n := by
  induction source generalizing w with
  | nil => cases h
  | file name bytes rest ih =>
      rcases List.mem_append.mp h with h | h
      · split at h
        next => cases h
        next =>
          rw [List.mem_singleton.mp h]
          exact ⟨name, List.mem_cons_self, rfl⟩
      · obtain ⟨n, hn, hhead⟩ := ih h
        exact ⟨n, List.mem_cons_of_mem _ hn, hhead⟩
  | dir name sub rest _ ih =>
      rcases List.mem_append.mp h with h | h
      · split at h
        next => cases h
        next =>
          obtain ⟨w', -, rfl⟩ := List.mem_map.mp h
          exact ⟨name, List.mem_cons_self, rfl⟩
      · obtain ⟨n, hn, hhead⟩ := ih h
        exact ⟨n, List.mem_cons_of_mem _ hn, hhead⟩

theorem head_directories {source : Dir} {r : FilePath} (h : r ∈ source.directories) :
    ∃ n ∈ source.names, r.head? = some n := by
  induction source generalizing r with
  | nil => cases h
  | file name bytes rest ih =>
      obtain ⟨n, hn, hhead⟩ := ih h
      exact ⟨n, List.mem_cons_of_mem _ hn, hhead⟩
  | dir name sub rest _ ih =>
      rcases List.mem_append.mp h with h | h
      · split at h
        next => cases h
        next =>
          rcases List.mem_cons.mp h with rfl | h
          · exact ⟨name, List.mem_cons_self, rfl⟩
          · obtain ⟨r', -, rfl⟩ := List.mem_map.mp h
            exact ⟨name, List.mem_cons_self, rfl⟩
      · obtain ⟨n, hn, hhead⟩ := ih h
        exact ⟨n, List.mem_cons_of_mem _ hn, hhead⟩

theorem file?_nil (source : Dir) : source.file? [] = none := by
  induction source with
  | nil => rfl
  | file name bytes rest ih => simpa [file?] using ih
  | dir name sub rest _ ih => simpa [file?] using ih

theorem file?_of_notMem {source : Dir} {n : List Char} (h : n ∉ source.names) (path : FilePath) :
    source.file? (n :: path) = none := by
  induction source with
  | nil => rfl
  | file name bytes rest ih =>
      rw [names, List.mem_cons, not_or] at h
      rw [file?, if_neg (by simp [h.1]), ih h.2]
  | dir name sub rest _ ih =>
      rw [names, List.mem_cons, not_or] at h
      rw [file?, if_neg (by simp [h.1]), ih h.2]

end Dir

theorem copyExcludingGit_apply (f : FilePath → Option Bytes) (path : FilePath) :
    copyExcludingGit f path =
      if path.contains gitName then none
      else if isTextSource path then (f path).map normalizeToLf
      else f path := rfl

theorem copyExcludingGit_congr {f g : FilePath → Option Bytes} {path : FilePath}
    (h : f path = g path) : copyExcludingGit f path = copyExcludingGit g path := by
  simp only [copyExcludingGit, h]

theorem copyExcludingGit_none {f : FilePath → Option Bytes} {path : FilePath}
    (h : f path = none) : copyExcludingGit f path = none := by
  simp [copyExcludingGit, h]

theorem copyExcludingGit_cons {f g : FilePath → Option Bytes} {name : List Char} {path : FilePath}
    (hname : name ≠ gitName) (hpath : path ≠ []) (h : f (name :: path) = g path) :
    copyExcludingGit f (name :: path) = copyExcludingGit g path := by
  have hcontains : (name :: path).contains gitName = path.contains gitName := by
    simp [hname.symm]
  have hsource : isTextSource (name :: path) = isTextSource path := by
    rw [isTextSource, isTextSource, List.getLast?_cons_of_ne_nil hpath]
  rw [copyExcludingGit_apply, copyExcludingGit_apply, hcontains, hsource, h]

theorem copyExcludingGit_git {f : FilePath → Option Bytes} (path : FilePath) :
    copyExcludingGit f (gitName :: path) = none := by
  simp [copyExcludingGit, gitName]

namespace Dir

/-- The files that are copied are those of the copy of the paths. -/
theorem mem_copied_iff {source : Dir} (hsource : source.Distinct) {path : FilePath}
    {bytes : Bytes} :
    (path, bytes) ∈ source.copied ↔
      DirectoryCopy.copyExcludingGit source.file? path = some bytes := by
  induction source generalizing path with
  | nil => simp [copied, copyExcludingGit_none (show Dir.nil.file? path = none from rfl)]
  | file name bytes' rest ih =>
      have hrest : (path, bytes) ∈ rest.copied ↔
          DirectoryCopy.copyExcludingGit rest.file? path = some bytes := ih hsource.2
      rw [copied, List.mem_append, hrest]
      by_cases hpath : path = [name]
      · subst hpath
        have hnone := copyExcludingGit_none (file?_of_notMem hsource.1 [])
        have hfile : (Dir.file name bytes' rest).file? [name] = some bytes' := if_pos rfl
        rw [hnone]
        by_cases hname : name = gitName
        · rw [if_pos hname, hname, copyExcludingGit_git]
          simp
        · have hcontains : ¬ ([name] : FilePath).contains gitName = true := by simp [Ne.symm hname]
          rw [copyExcludingGit_apply, if_neg hcontains, hfile, if_neg hname, copiedBytes]
          split <;> simp [eq_comm]
      · have hfile : (Dir.file name bytes' rest).file? path = rest.file? path := if_neg hpath
        rw [copyExcludingGit_congr hfile, or_iff_right]
        split
        · exact List.not_mem_nil
        · simp [hpath]
  | dir name sub rest ihsub ih =>
      have hrest : (path, bytes) ∈ rest.copied ↔
          DirectoryCopy.copyExcludingGit rest.file? path = some bytes := ih hsource.2.2
      rw [copied, List.mem_append, hrest]
      by_cases hpath : path.head? = some name
      · obtain ⟨path, rfl⟩ := List.head?_eq_some_iff.mp hpath
        have hnone := copyExcludingGit_none (file?_of_notMem hsource.1 path)
        have hfile : (Dir.dir name sub rest).file? (name :: path) = sub.file? path := if_pos rfl
        rw [hnone]
        by_cases hname : name = gitName
        · rw [if_pos hname, hname, copyExcludingGit_git]
          simp
        · rw [if_neg hname, or_iff_left (Option.some_ne_none bytes).symm]
          have hmem : (name :: path, bytes) ∈ (sub.copied.map fun w => (name :: w.1, w.2)) ↔
              (path, bytes) ∈ sub.copied := by simp
          rw [hmem, ihsub hsource.2.1]
          by_cases hempty : path = []
          · subst hempty
            rw [copyExcludingGit_none sub.file?_nil,
              copyExcludingGit_none (hfile.trans sub.file?_nil)]
          · rw [copyExcludingGit_cons hname hempty hfile]
      · have hfile : (Dir.dir name sub rest).file? path = rest.file? path := if_neg hpath
        rw [copyExcludingGit_congr hfile, or_iff_right]
        split
        · exact List.not_mem_nil
        · intro hmem
          obtain ⟨w, -, heq⟩ := List.mem_map.mp hmem
          rw [← (Prod.mk.inj heq).1] at hpath
          exact hpath rfl

theorem head_ne {name : List Char} {rest : Dir} {path : FilePath} (hname : name ∉ rest.names)
    (h : ∃ n ∈ rest.names, path.head? = some n) : path.head? ≠ some name := by
  obtain ⟨n, hn, hhead⟩ := h
  rw [hhead]
  rintro ⟨rfl⟩
  exact hname hn

theorem nodup_copied {source : Dir} (hsource : source.Distinct) :
    (source.copied.map Prod.fst).Nodup := by
  induction source with
  | nil => exact .nil
  | file name bytes rest ih =>
      rw [copied, List.map_append, List.nodup_append']
      refine ⟨?_, ih hsource.2, fun path hpath hrest => ?_⟩
      · split
        · exact .nil
        · exact List.nodup_singleton _
      · obtain ⟨w, hw, rfl⟩ := List.mem_map.mp hrest
        apply head_ne hsource.1 (head_copied hw)
        split at hpath
        next => cases hpath
        next => rw [List.mem_singleton.mp hpath, List.head?_cons]
  | dir name sub rest ihsub ih =>
      rw [copied, List.map_append, List.nodup_append']
      refine ⟨?_, ih hsource.2.2, fun path hpath hrest => ?_⟩
      · split
        · exact .nil
        · rw [List.map_map]
          have hcons : (Prod.fst ∘ fun w : FilePath × Bytes => (name :: w.1, w.2)) =
              (name :: ·) ∘ Prod.fst := rfl
          rw [hcons, ← List.map_map]
          exact (ihsub hsource.2.1).map (List.cons_injective)
      · obtain ⟨w, hw, rfl⟩ := List.mem_map.mp hrest
        apply head_ne hsource.1 (head_copied hw)
        split at hpath
        next => cases hpath
        next =>
          obtain ⟨w', hw', hpath⟩ := List.mem_map.mp hpath
          obtain ⟨w'', -, rfl⟩ := List.mem_map.mp hw'
          rw [← hpath, List.head?_cons]

/-- No file is copied to where a directory is made, or something above it. -/
theorem copied_apart {source : Dir} (hsource : source.Distinct) {w : FilePath × Bytes}
    (hw : w ∈ source.copied) {r : FilePath} (hr : r ∈ source.directories) : ¬ w.1 <+: r := by
  have hhead : ∀ {path path' : FilePath} {n : List Char}, path.head? = some n →
      path <+: path' → path'.head? = some n := by
    intro path path' n hpath hprefix
    obtain ⟨path, rfl⟩ := List.head?_eq_some_iff.mp hpath
    obtain ⟨rest, rfl⟩ := hprefix
    rfl
  induction source generalizing w r with
  | nil => cases hw
  | file name bytes rest ih =>
      rcases List.mem_append.mp hw with hw | hw
      · split at hw
        next => cases hw
        next =>
          rw [List.mem_singleton.mp hw]
          exact fun hprefix => head_ne hsource.1 (head_directories hr) (hhead rfl hprefix)
      · exact ih hsource.2 hw hr
  | dir name sub rest ihsub ih =>
      rcases List.mem_append.mp hw with hw | hw
      · split at hw
        next => cases hw
        next hname =>
          obtain ⟨w', hw', rfl⟩ := List.mem_map.mp hw
          rcases List.mem_append.mp hr with hr | hr
          · rw [if_neg hname] at hr
            rcases List.mem_cons.mp hr with rfl | hr
            · intro hprefix
              obtain ⟨n, -, hn⟩ := head_copied hw'
              rw [List.cons_prefix_cons] at hprefix
              rw [List.prefix_nil.mp hprefix.2] at hn
              cases hn
            · obtain ⟨r', hr', rfl⟩ := List.mem_map.mp hr
              rw [List.cons_prefix_cons, not_and]
              exact fun _ => ihsub hsource.2.1 hw' hr'
          · exact fun hprefix => head_ne hsource.1 (head_directories hr) (hhead rfl hprefix)
      · rcases List.mem_append.mp hr with hr | hr
        · split at hr
          next => cases hr
          next =>
            obtain ⟨n, hn, hw⟩ := head_copied hw
            intro hprefix
            apply head_ne hsource.1 ⟨n, hn, hhead hw hprefix⟩
            rcases List.mem_cons.mp hr with rfl | hr
            · rfl
            · obtain ⟨r, -, rfl⟩ := List.mem_map.mp hr
              rfl
        · exact ih hsource.2.2 hw hr

end Dir

/-! ## The copy on the disk -/

structure Fits (source : Dir) (dest : FilePath) (d : HostDisk) : Prop where
  top : ∀ q ∈ d.tree.files, ¬ q <+: dest
  dirs : ∀ r ∈ source.directories, ∀ q ∈ d.tree.files, ¬ q <+: dest ++ r
  files : ∀ path bytes, copyExcludingGit source.file? path = some bytes →
    dest ++ path ∉ d.tree.dirs

namespace Dir

variable {source : Dir} {dest : FilePath} {d : HostDisk}

theorem mem_wrote_plan {w : FilePath × Bytes} :
    w ∈ wrote (source.plan dest) ↔ ∃ w' ∈ source.copied, (dest ++ w'.1, w'.2) = w := by
  rw [(source.wrote_plan dest).mem_iff, List.mem_map]

theorem copy_ok_iff (hsource : source.Distinct) :
    (source.copyExcludingGit dest d).2 = true ↔ Fits source dest d := by
  rw [copyExcludingGit_eq, Disk.exec_ok_iff]
  · constructor
    · rintro ⟨hdirs, hfiles⟩
      rw [made, made_plan, List.forall_mem_cons, List.forall_mem_map] at hdirs
      refine ⟨hdirs.1, hdirs.2, fun path bytes hcopied => ?_⟩
      rw [← mem_copied_iff hsource] at hcopied
      exact hfiles _ (mem_wrote_plan.mpr ⟨_, hcopied, rfl⟩)
    · rintro ⟨htop, hdirs, hfiles⟩
      constructor
      · rw [made, made_plan, List.forall_mem_cons, List.forall_mem_map]
        exact ⟨htop, hdirs⟩
      · intro w hw
        obtain ⟨⟨path, bytes⟩, hw', rfl⟩ := mem_wrote_plan.mp hw
        exact hfiles path bytes ((mem_copied_iff hsource).mp hw')
  · exact (source.orderly_planDirs dest).append (source.orderly_planFiles (.inr List.prefix_rfl))
  · intro w hw p hp
    obtain ⟨w', hw', rfl⟩ := mem_wrote_plan.mp hw
    rw [made, made_plan, List.mem_cons, List.mem_map] at hp
    rcases hp with rfl | ⟨r, hr, rfl⟩
    · intro hprefix
      obtain ⟨n, -, hn⟩ := head_copied hw'
      have hlength := hprefix.length_le
      rw [List.length_append] at hlength
      rw [List.eq_nil_of_length_eq_zero (by omega : w'.1.length = 0)] at hn
      cases hn
    · rw [List.prefix_append_right_inj]
      exact copied_apart hsource hw' hr

theorem read_copy (hsource : source.Distinct)
    (hok : (source.copyExcludingGit dest d).2 = true) (path : FilePath) :
    (source.copyExcludingGit dest d).1.read (dest ++ path) =
      (DirectoryCopy.copyExcludingGit source.file? path).or (d.read (dest ++ path)) := by
  rw [copyExcludingGit_eq] at hok ⊢
  cases hcopied : DirectoryCopy.copyExcludingGit source.file? path with
  | none =>
      apply Disk.read_exec_of_notMem
      intro hmem
      obtain ⟨w, hw, hpath⟩ := List.mem_map.mp hmem
      obtain ⟨⟨path', bytes⟩, hw', rfl⟩ := mem_wrote_plan.mp hw
      obtain rfl : path' = path := List.append_cancel_left hpath
      rw [mem_copied_iff hsource, hcopied] at hw'
      cases hw'
  | some bytes =>
      apply Disk.read_exec_of_mem (b := bytes) _ _ hok
      · have hperm := (source.wrote_plan dest).map Prod.fst
        rw [List.map_map] at hperm
        refine (List.Perm.nodup_iff hperm).mpr ?_
        have happend : (Prod.fst ∘ fun w : FilePath × Bytes => (dest ++ w.1, w.2)) =
            (dest ++ ·) ∘ Prod.fst := rfl
        rw [happend, ← List.map_map]
        exact (nodup_copied hsource).map (List.append_right_injective dest)
      · exact mem_wrote_plan.mpr ⟨_, (mem_copied_iff hsource).mpr hcopied, rfl⟩

theorem read_copy_outside {q : FilePath} (hq : ¬ dest <+: q) :
    (source.copyExcludingGit dest d).1.read q = d.read q := by
  rw [copyExcludingGit_eq]
  apply Disk.read_exec_of_notMem
  intro hmem
  obtain ⟨w, hw, rfl⟩ := List.mem_map.mp hmem
  obtain ⟨w', -, rfl⟩ := mem_wrote_plan.mp hw
  exact hq (List.prefix_append _ _)

theorem dirs_copy (hok : (source.copyExcludingGit dest d).2 = true) (q : FilePath) :
    q ∈ (source.copyExcludingGit dest d).1.tree.dirs ↔
      q ∈ d.tree.dirs ∨ q <+: dest ∨ ∃ r ∈ source.directories, q <+: dest ++ r := by
  rw [copyExcludingGit_eq] at hok ⊢
  rw [Disk.dirs_exec hok, made, made_plan, List.exists_mem_cons_iff]
  simp

theorem copy_blocked (hfile : ¬ ∀ p ∈ d.tree.files, ¬ p <+: dest) :
    (source.copyExcludingGit dest d).1 = d := by
  have hmade : ¬ (d.makeDir dest).2 = true := mt Disk.makeDir_ok_iff.mp hfile
  have hexec : source.copyExcludingGit dest d = d.makeDir dest := by
    rw [copyExcludingGit_eq]
    exact if_neg hmade
  rw [hexec, Disk.makeDir_failed (Bool.eq_false_of_not_eq_true hmade)]

theorem dirs_copy_outside {q : FilePath} (hq : ¬ dest <+: q) :
    q ∈ (source.copyExcludingGit dest d).1.tree.dirs ↔
      q ∈ d.tree.dirs ∨ (∀ p ∈ d.tree.files, ¬ p <+: dest) ∧ q <+: dest := by
  by_cases hfree : ∀ p ∈ d.tree.files, ¬ p <+: dest
  · have hmade : (d.makeDir dest).2 = true := Disk.makeDir_ok_iff.mpr hfree
    have hdirs := fun q => Disk.mem_dirs_makeDir (q := q) hmade
    have hexec : source.copyExcludingGit dest d =
        (d.makeDir dest).1.exec (source.plan dest) := by
      rw [copyExcludingGit_eq]
      exact if_pos hmade
    rw [and_iff_right hfree, ← hdirs q, hexec]
    refine ⟨fun hdir => ?_, fun hdir => Disk.dirs_subset_exec _ _ hdir⟩
    rcases Disk.dirs_of_exec hdir with hdir | ⟨p, hp, hpre⟩
    · exact hdir
    · rw [made_plan, List.mem_map] at hp
      obtain ⟨r, -, rfl⟩ := hp
      refine (hdirs q).mpr (.inr ?_)
      exact (List.prefix_or_prefix_of_prefix hpre (List.prefix_append _ r)).resolve_right hq
  · rw [copy_blocked hfree, or_iff_left]
    exact fun h => hfree h.1

end Dir

/-- The recursion does to the disk what the copy of the paths says, exactly if nothing stands in its
way; what else is in the destination stays. Outside it, come what may, no file changes, and at most
the directories above it are made: all of them, or none where a file is in the way. -/
theorem copies_tree (source : Dir) (hsource : source.Distinct) (dest : FilePath) (d : HostDisk) :
    ((source.copyExcludingGit dest d).2 = true ↔ Fits source dest d) ∧
      ((source.copyExcludingGit dest d).2 = true →
        (∀ path, (source.copyExcludingGit dest d).1.read (dest ++ path) =
          (copyExcludingGit source.file? path).or (d.read (dest ++ path))) ∧
        ∀ q, q ∈ (source.copyExcludingGit dest d).1.tree.dirs ↔
          q ∈ d.tree.dirs ∨ q <+: dest ∨ ∃ r ∈ source.directories, q <+: dest ++ r) ∧
      ∀ q, ¬ dest <+: q → (source.copyExcludingGit dest d).1.read q = d.read q ∧
        (q ∈ (source.copyExcludingGit dest d).1.tree.dirs ↔
          q ∈ d.tree.dirs ∨ (∀ p ∈ d.tree.files, ¬ p <+: dest) ∧ q <+: dest) :=
  ⟨Dir.copy_ok_iff hsource, fun hok => ⟨Dir.read_copy hsource hok, Dir.dirs_copy hok⟩,
    fun _ hq => ⟨Dir.read_copy_outside hq, Dir.dirs_copy_outside hq⟩⟩

def smallSource : Dir :=
  .file ['a', '.', 'h'] [65, 13, 10]
    (.dir ['d'] (.file gitName [] (.file ['x'] [13, 10] .nil)) .nil)

def emptyDisk : HostDisk :=
  ⟨{ dirs := {[]}
     files := ∅
     top := by simp
     apart := by simp
     dir_parent := by simp
     file_parent := by simp }, fun _ => []⟩

theorem copies_tree_small :
    smallSource.Distinct ∧
    ((smallSource.copyExcludingGit [['v']] emptyDisk).2 = true ↔
      Fits smallSource [['v']] emptyDisk) ∧
      ((smallSource.copyExcludingGit [['v']] emptyDisk).2 = true →
        (∀ path, (smallSource.copyExcludingGit [['v']] emptyDisk).1.read ([['v']] ++ path) =
          (copyExcludingGit smallSource.file? path).or (emptyDisk.read ([['v']] ++ path))) ∧
        ∀ q, q ∈ (smallSource.copyExcludingGit [['v']] emptyDisk).1.tree.dirs ↔
          q ∈ emptyDisk.tree.dirs ∨ q <+: [['v']] ∨
            ∃ r ∈ smallSource.directories, q <+: [['v']] ++ r) ∧
      ∀ q, ¬ [['v']] <+: q →
        (smallSource.copyExcludingGit [['v']] emptyDisk).1.read q = emptyDisk.read q ∧
        (q ∈ (smallSource.copyExcludingGit [['v']] emptyDisk).1.tree.dirs ↔
          q ∈ emptyDisk.tree.dirs ∨
            (∀ p ∈ emptyDisk.tree.files, ¬ p <+: [['v']]) ∧ q <+: [['v']]) :=
  have hsource : smallSource.Distinct := by decide
  ⟨hsource, copies_tree smallSource hsource [['v']] emptyDisk⟩

end ZiModem.Vendoring.DirectoryCopy
