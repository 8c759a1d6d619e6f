import ZiModem.Hal.FsRoot
import ZiModem.Paths.Tree
import ZiModem.Reactive.Machine

/-! # `SPIFFS` on the host's file system

The calls of `arduino_fs.cpp` over a tree of directories and files, as POSIX
resolves and changes it: no links, no limits on lengths or space, every file
accessible, and no other process at work. `remove` is the C function: it deletes
a file or an empty directory whose path ends in a name, not in `.` or `..`.

None of the calls makes a directory. The data root is made once, by `set_root`,
and goes when a path of `remove` happens to lead back to it.
-/

namespace ZiModem.Hal

open Reactive DirTree

/-! ## Modes of `fopen` -/

/-- What `fopen` does with a path: make a missing file, write to it, insist that it is new. -/
structure OpenMode where
  create : Bool
  update : Bool
  exclusive : Bool
  deriving DecidableEq, Repr

/-- `r`, `w` or `a`, and `+` or `x` among the bytes after it. -/
def fopenMode : List UInt8 → Option OpenMode
  | [] => none
  | c :: rest =>
      if c = 114 then some ⟨false, decide (43 ∈ rest), false⟩
      else if c = 119 ∨ c = 97 then some ⟨true, true, decide (120 ∈ rest)⟩
      else none

def toBinaryFopenMode (mode : Option (List UInt8)) : List UInt8 :=
  let m := mode.getD [114]
  if 98 ∈ m then m else m ++ [98]

/-! ## The calls -/

/-- The host's directories and files, the working directory, and `g_root` once `set_root` has
returned. -/
structure Spiffs where
  disk : DirTree.Tree (List UInt8)
  cwd : List (List UInt8)
  root : FsRoot
  named : root.dir ≠ []

namespace Spiffs

section Calls

variable (s : Spiffs)

def start (text : List UInt8) : List (List UInt8) := if text.head? = some slash then [] else s.cwd

def target (text : List UInt8) : Option (List (List UInt8) × List UInt8) :=
  s.disk.target (s.start text) (components slash dot text)

/-- The path ends in a separator, so that it can only be a directory's. -/
def Trailing (text : List UInt8) : Prop := text.getLast? = some slash

instance (text : List UInt8) : Decidable (Trailing text) := inferInstanceAs (Decidable (_ = _))

def IsDirectory (text : List UInt8) : Prop :=
  s.disk.Leads (s.start text) (components slash dot text)

instance (text : List UInt8) : Decidable (s.IsDirectory text) :=
  inferInstanceAs (Decidable (s.disk.Leads _ _))

def IsFile (text : List UInt8) : Prop :=
  ¬ Trailing text ∧ ∃ q ∈ s.target text, q.1 ++ [q.2] ∈ s.disk.files

instance (text : List UInt8) : Decidable (s.IsFile text) := inferInstanceAs (Decidable (_ ∧ _))

/-- `resolve`, for a path that may be null; a root that is set is not replaced. -/
def hostPath (path : Option (List UInt8)) : List UInt8 := (s.root.resolve [] (path.getD [])).2

/-- `std::fopen`, and whether it returns a handle. -/
def fopen (text : List UInt8) (m : OpenMode) : Spiffs × Bool :=
  if m.create then
    match s.target text with
    | none => (s, false)
    | some (p, n) =>
        if Trailing text ∨ p ++ [n] ∈ s.disk.dirs then (s, false)
        else if p ++ [n] ∈ s.disk.files then (s, !m.exclusive)
        else if p ∈ s.disk.dirs then ({ s with disk := s.disk.addFile p n }, true)
        else (s, false)
  else (s, decide (s.IsFile text ∨ (s.IsDirectory text ∧ m.update = false)))

/-- `std::filesystem::remove`, and whether it removed something. -/
def unlink (text : List UInt8) : Spiffs × Bool :=
  match s.target text with
  | none => (s, false)
  | some (p, n) =>
      if p ++ [n] ∈ s.disk.files then
        if Trailing text then (s, false)
        else ({ s with disk := s.disk.remove (p ++ [n]) }, true)
      else if p ++ [n] ∈ s.disk.dirs ∧ s.disk.Empty (p ++ [n]) then
        ({ s with disk := s.disk.remove (p ++ [n]) }, true)
      else (s, false)

/-- `SPIFFSClass::begin`: the root is set, so nothing is made. -/
def begin : Spiffs × Bool := (s, true)

/-- `SPIFFSClass::format`: `remove_all` of every entry of the root, if it can be listed. -/
def format : Spiffs × Bool :=
  match s.disk.walk (s.start s.root.dir) (components slash dot s.root.dir) with
  | none => (s, false)
  | some p =>
      if p ∈ s.disk.dirs then ({ s with disk := s.disk.clear p }, true)
      else (s, false)

/-- `SPIFFSClass::open`, and whether the `File` is valid. -/
def open' (path mode : Option (List UInt8)) : Spiffs × Bool :=
  match fopenMode (toBinaryFopenMode mode) with
  | none => (s, false)
  | some m => s.fopen (s.hostPath path) m

def exists' (path : Option (List UInt8)) : Bool :=
  decide (s.IsFile (s.hostPath path) ∨ s.IsDirectory (s.hostPath path))

def remove (path : Option (List UInt8)) : Spiffs × Bool := s.unlink (s.hostPath path)

end Calls

inductive Op
  | begin
  | open (path mode : Option (List UInt8))
  | exists (path : Option (List UInt8))
  | remove (path : Option (List UInt8))
  | format
  deriving DecidableEq, Repr

/-- A call, with what it returns: for `open`, whether the `File` is valid. -/
def call (s : Spiffs) : Op → Spiffs × Bool
  | .begin => s.begin
  | .open path mode => s.open' path mode
  | .exists path => (s, s.exists' path)
  | .remove path => s.remove path
  | .format => s.format

end Spiffs

def spiffs : Machine Spiffs Spiffs.Op Bool := ⟨fun s a => some (s.call a)⟩

namespace Spiffs

/-! ## The data root -/

def RootExists (s : Spiffs) : Prop := s.IsDirectory s.root.dir

instance (s : Spiffs) : Decidable s.RootExists := inferInstanceAs (Decidable (s.IsDirectory _))

/-- The directory of the data root and those that its own path goes through. -/
def rootTrail (s : Spiffs) : List (List (List UInt8)) :=
  trail (s.start s.root.dir) (components slash dot s.root.dir)

def rootDir (s : Spiffs) : List (List UInt8) :=
  goto (s.start s.root.dir) (components slash dot s.root.dir)

/-- The call takes the data root away: `remove` of a path that names the root, or a directory which
the root's own path goes through, while that is empty; or `format`, if the root's path goes through
something inside the root. -/
def Strikes (s : Spiffs) : Op → Prop
  | .remove path => ∃ q ∈ s.target (s.hostPath path),
      q.1 ++ [q.2] ∈ s.rootTrail ∧ s.disk.Empty (q.1 ++ [q.2])
  | .format => ∃ q ∈ s.rootTrail, s.rootDir <+: q ∧ q ≠ s.rootDir
  | _ => False

instance (s : Spiffs) : (a : Op) → Decidable (s.Strikes a)
  | .remove _ | .format => inferInstanceAs (Decidable (∃ _ ∈ _, _))
  | .begin | .open _ _ | .exists _ => .isFalse id

/-! ## What a call does to the directories -/

variable {s s₀ : Spiffs}

theorem IsFile.goto_mem {text : List UInt8} (h : s.IsFile text) :
    goto (s.start text) (components slash dot text) ∈ s.disk.files := by
  obtain ⟨-, ⟨p, n⟩, htarget, hfile⟩ := h
  rwa [DirTree.Tree.goto_of_target htarget]

theorem fopen_disk (text : List UInt8) (m : OpenMode) :
    (s.fopen text m).1.root = s.root ∧ (s.fopen text m).1.cwd = s.cwd ∧
      (s.fopen text m).1.disk.dirs = s.disk.dirs := by
  unfold fopen
  split
  · split
    · exact ⟨rfl, rfl, rfl⟩
    · split_ifs
      · exact ⟨rfl, rfl, rfl⟩
      · exact ⟨rfl, rfl, rfl⟩
      · exact ⟨rfl, rfl, DirTree.Tree.dirs_addFile _ _⟩
      · exact ⟨rfl, rfl, rfl⟩
  · exact ⟨rfl, rfl, rfl⟩

theorem open_disk (path mode : Option (List UInt8)) :
    (s.open' path mode).1.root = s.root ∧ (s.open' path mode).1.cwd = s.cwd ∧
      (s.open' path mode).1.disk.dirs = s.disk.dirs := by
  unfold open'
  split
  · exact ⟨rfl, rfl, rfl⟩
  · exact fopen_disk _ _

theorem call_frame (s : Spiffs) (a : Op) :
    (s.call a).1.root = s.root ∧ (s.call a).1.cwd = s.cwd ∧
      (s.call a).1.disk.dirs ⊆ s.disk.dirs := by
  cases a with
  | begin | «exists» path => exact ⟨rfl, rfl, Finset.Subset.refl _⟩
  | «open» path mode =>
      obtain ⟨hroot, hcwd, hdirs⟩ := open_disk (s := s) path mode
      exact ⟨hroot, hcwd, Finset.subset_of_eq hdirs⟩
  | remove path =>
      have hremove : ∀ q, (s.disk.remove q).dirs ⊆ s.disk.dirs :=
        fun q r hr => (DirTree.Tree.mem_dirs_remove.mp hr).1
      simp only [call, remove, unlink]
      split
      · exact ⟨rfl, rfl, Finset.Subset.refl _⟩
      · split_ifs <;> simp [hremove]
  | format =>
      simp only [call, format]
      split
      · exact ⟨rfl, rfl, Finset.Subset.refl _⟩
      · split
        · exact ⟨rfl, rfl, Finset.filter_subset _ _⟩
        · exact ⟨rfl, rfl, Finset.Subset.refl _⟩

theorem rootExists_of_call {a : Op} (h : (s.call a).1.RootExists) : s.RootExists := by
  obtain ⟨hroot, hcwd, hdirs⟩ := call_frame s a
  rw [RootExists, IsDirectory, start, hroot, hcwd] at h
  exact DirTree.Tree.leads_of_subset hdirs h

/-! ## Which calls take the root away -/

theorem remove_root_iff (h : s.RootExists) (path : Option (List UInt8)) :
    (s.remove path).1.RootExists ↔ ¬ s.Strikes (.remove path) := by
  have htrail : ∀ q ∈ s.rootTrail, q ∈ s.disk.dirs := DirTree.Tree.leads_iff.mp h
  have hstrikes : s.Strikes (.remove path) ↔ ∃ q ∈ s.target (s.hostPath path),
      q.1 ++ [q.2] ∈ s.rootTrail ∧ s.disk.Empty (q.1 ++ [q.2]) := Iff.rfl
  unfold remove unlink
  rw [hstrikes]
  cases htarget : s.target (s.hostPath path) with
  | none => simp [h]
  | some r =>
      obtain ⟨p, n⟩ := r
      have hgone : ({ s with disk := s.disk.remove (p ++ [n]) } : Spiffs).RootExists ↔
          ¬ (p ++ [n] ∈ s.rootTrail ∧ s.disk.Empty (p ++ [n])) :=
        DirTree.Tree.leads_remove_iff h (by simp)
      simp only [Option.mem_def, Option.some.injEq, exists_eq_left']
      by_cases hfile : p ++ [n] ∈ s.disk.files
      · have hout : p ++ [n] ∉ s.rootTrail := fun hmem =>
          Finset.disjoint_left.mp s.disk.apart (htrail _ hmem) hfile
        simp only [if_pos hfile]
        split
        · simp [h, hout]
        · exact hgone
      · simp only [if_neg hfile]
        split
        next => exact hgone
        next hkept =>
          apply iff_of_true h
          rintro ⟨hmem, hempty⟩
          exact hkept ⟨htrail _ hmem, hempty⟩

theorem format_root_iff (h : s.RootExists) : s.format.1.RootExists ↔ ¬ s.Strikes .format := by
  obtain ⟨p, hwalk, hdir⟩ := h
  have hp : p = s.rootDir := (DirTree.Tree.walk_eq_some_iff.mp hwalk).2
  have hgone : ({ s with disk := s.disk.clear p } : Spiffs).RootExists ↔
      ∀ q ∈ s.rootTrail, ¬ (p <+: q ∧ q ≠ p) := DirTree.Tree.leads_clear_iff ⟨p, hwalk, hdir⟩
  have hformat : s.format = ({ s with disk := s.disk.clear p }, true) := by
    simp only [format, hwalk, if_pos hdir]
  rw [hformat, hgone, hp]
  simp [Strikes]

/-- A call leaves an existing root in place exactly when it does not strike. -/
theorem call_root_iff (h : s.RootExists) (a : Op) : (s.call a).1.RootExists ↔ ¬ s.Strikes a := by
  cases a with
  | begin | «exists» path => simp [call, begin, h, Strikes]
  | «open» path mode =>
      obtain ⟨hroot, hcwd, hdirs⟩ := open_disk (s := s) path mode
      apply iff_of_true _ id
      rw [RootExists, IsDirectory, start, call, hroot, hcwd]
      exact DirTree.Tree.leads_of_subset (Finset.subset_of_eq hdirs.symm) h
  | remove path => exact remove_root_iff h path
  | format => exact format_root_iff h

/-! ## Flat names -/

/-- A name that a SPIFFS path may consist of, behind its separator. -/
structure Flat (n : List UInt8) : Prop where
  ne_nil : n ≠ []
  ne_dot : n ≠ [dot]
  ne_dots : n ≠ [dot, dot]
  slash : slash ∉ n
  head : n.head? ≠ some backslash

instance (n : List UInt8) : Decidable (Flat n) :=
  decidable_of_iff (n ≠ [] ∧ n ≠ [dot] ∧ n ≠ [dot, dot] ∧ Hal.slash ∉ n ∧
      n.head? ≠ some backslash)
    ⟨fun ⟨h₁, h₂, h₃, h₄, h₅⟩ => ⟨h₁, h₂, h₃, h₄, h₅⟩,
      fun ⟨h₁, h₂, h₃, h₄, h₅⟩ => ⟨h₁, h₂, h₃, h₄, h₅⟩⟩

theorem Flat.relative {n : List UInt8} (hn : Flat n) : FsRoot.relative (Hal.slash :: n) = n := by
  obtain ⟨c, rest, rfl⟩ := List.exists_cons_of_ne_nil hn.ne_nil
  have hslash : c ≠ Hal.slash := by
    rintro rfl
    exact hn.slash List.mem_cons_self
  have hbackslash : c ≠ backslash := by
    rintro rfl
    exact hn.head rfl
  simp [FsRoot.relative, hslash, hbackslash]

theorem hostPath_eq (path : Option (List UInt8)) :
    s.hostPath path = pathAppend s.root.dir (FsRoot.relative (path.getD [])) := by
  simp only [hostPath, FsRoot.resolve, FsRoot.root, if_neg s.named]

theorem hostPath_components (path : Option (List UInt8)) :
    components slash dot (s.hostPath path) =
      components slash dot s.root.dir ++
        components slash dot (FsRoot.relative (path.getD [])) := by
  rw [hostPath_eq, components_pathAppend (relative_head _)]

theorem hostPath_start (path : Option (List UInt8)) :
    s.start (s.hostPath path) = s.start s.root.dir := by
  rw [hostPath_eq]
  simp only [start, absolute_pathAppend (relative_head _)]

section FlatNames

variable {n : List UInt8} (hn : Flat n)

include hn

theorem flat_target (p : List (List UInt8)) (m : List UInt8) :
    s.target (s.hostPath (some (slash :: n))) = some (p, m) ↔
      m = n ∧ s.disk.walk (s.start s.root.dir) (components slash dot s.root.dir) = some p := by
  have hname : components slash dot n = [.name n] := by
    rw [components_single slash dot hn.slash]
    simp [componentOf, hn.ne_nil, hn.ne_dot, hn.ne_dots]
  rw [target, hostPath_start, hostPath_components, Option.getD_some, hn.relative, hname,
    DirTree.Tree.target_eq_some_iff]
  constructor
  · rintro ⟨ds, heq, hwalk⟩
    obtain ⟨rfl, hlast⟩ := List.append_inj' heq rfl
    cases hlast
    exact ⟨rfl, hwalk⟩
  · rintro ⟨rfl, hwalk⟩
    exact ⟨_, rfl, hwalk⟩

theorem flat_not_trailing : ¬ Trailing (s.hostPath (some (slash :: n))) := by
  have hlast : n.getLast? ≠ some Hal.slash := by
    intro h
    exact hn.slash (List.mem_of_getLast? h)
  rw [Trailing, hostPath_eq, Option.getD_some, hn.relative, pathAppend,
    if_neg (fun h => hn.slash (List.mem_of_head? h))]
  split
  · rwa [List.getLast?_append_of_ne_nil _ hn.ne_nil]
  · obtain ⟨c, rest, rfl⟩ := List.exists_cons_of_ne_nil hn.ne_nil
    rwa [List.getLast?_append_of_ne_nil _ (by simp), List.getLast?_cons_cons]

theorem flat_opens_iff (hdir : s.rootDir ++ [n] ∉ s.disk.dirs) :
    (s.open' (some (slash :: n)) (some [119])).2 = true ↔ s.RootExists := by
  have hmode : fopenMode (toBinaryFopenMode (some [119])) = some ⟨true, true, false⟩ := by decide
  simp only [open', hmode, fopen, if_true]
  cases htarget : s.target (s.hostPath (some (slash :: n))) with
  | none =>
      apply iff_of_false (by simp)
      rintro ⟨p, hwalk, -⟩
      rw [(flat_target hn p n).mpr ⟨rfl, hwalk⟩] at htarget
      cases htarget
  | some r =>
      obtain ⟨p, m⟩ := r
      obtain ⟨rfl, hwalk⟩ := (flat_target hn p m).mp htarget
      obtain rfl : p = s.rootDir := (DirTree.Tree.walk_eq_some_iff.mp hwalk).2
      have hexists : s.RootExists ↔ s.rootDir ∈ s.disk.dirs := by
        rw [RootExists, IsDirectory, DirTree.Tree.Leads, hwalk]
        simp
      have hopen : ¬ (Trailing (s.hostPath (some (slash :: m))) ∨ s.rootDir ++ [m] ∈ s.disk.dirs) :=
        not_or.mpr ⟨flat_not_trailing hn, hdir⟩
      rw [hexists]
      simp only [if_neg hopen]
      by_cases hfile : s.rootDir ++ [m] ∈ s.disk.files
      · simp [hfile, s.disk.file_parent _ _ hfile]
      · simp only [if_neg hfile]
        by_cases hparent : s.rootDir ∈ s.disk.dirs
        · simp [hparent]
        · simp [hparent]

end FlatNames

/-! ## Which paths are safe -/

section Plain

structure Plain (s : Spiffs) : Prop where
  absolute : s.root.dir.head? = some slash
  down : .up ∉ components slash dot s.root.dir

/-- An absolute path leads where its lexical reading says. -/
theorem goto_lexical {text : List UInt8} (habs : text.head? = some slash) :
    goto (s.start text) (components slash dot text) = (hostParse text).normal.names := by
  rw [start, if_pos habs, goto_eq_normal, ← parts_eq]
  simp [hostParse, Lexical.parse, Lexical.Path.normal, habs]

variable (hplain : s.Plain)

include hplain

/-- From a plain root, `remove` does not strike on a path that stays inside the root and does not
lead back to it. -/
theorem not_strikes_remove {path : Option (List UInt8)}
    (hconfined : (SpiffsCall.remove path).Confined s.root [])
    (hne : (hostParse (s.hostPath path)).normal.names ≠ (hostParse s.root.dir).normal.names) :
    ¬ s.Strikes (.remove path) := by
  have habs : (s.hostPath path).head? = some slash := by
    rw [hostPath_eq, absolute_pathAppend (relative_head _)]
    exact hplain.absolute
  rintro ⟨⟨p, n⟩, htarget, htrail, -⟩
  obtain ⟨ds, hcs, hwalk⟩ := DirTree.Tree.target_eq_some_iff.mp htarget
  have hq : p ++ [n] = (hostParse (s.hostPath path)).normal.names := by
    rw [← goto_lexical (s := s) habs, hcs, (DirTree.Tree.walk_eq_some_iff.mp hwalk).2]
    simp [goto, move]
  have hdown : p ++ [n] <+: (hostParse s.root.dir).normal.names := by
    rw [← goto_lexical (s := s) hplain.absolute]
    exact (prefix_goto hplain.down _).2 _ htrail
  have hinside : (hostParse s.root.dir).normal.names <+:
      (hostParse (s.hostPath path)).normal.names := by
    have hbelow := hconfined.2.2
    rwa [FsRoot.root, if_neg s.named] at hbelow
  rw [hq] at hdown
  exact hne (hdown.eq_of_length_le hinside.length_le)

theorem not_strikes_format : ¬ s.Strikes .format := by
  rintro ⟨q, htrail, hbelow, hne⟩
  have habove : q <+: s.rootDir := (prefix_goto hplain.down _).2 q htrail
  exact hne (habove.eq_of_length_le hbelow.length_le)

end Plain

/-! ## Runs -/

/-- The root exists, and every flat name that was no directory at the start can be opened for
writing. -/
structure Usable (s₀ s : Spiffs) : Prop where
  root : s.RootExists
  flat : ∀ n, Flat n → s₀.rootDir ++ [n] ∉ s₀.disk.dirs →
    (s.open' (some (slash :: n)) (some [119])).2 = true

structure Since (s₀ s : Spiffs) : Prop where
  root : s.root = s₀.root
  cwd : s.cwd = s₀.cwd
  dirs : s.disk.dirs ⊆ s₀.disk.dirs

theorem step_spec {s s' : Spiffs} {a : Op} {o : Bool} (hstep : spiffs.step s a = some (s', o)) :
    s' = (s.call a).1 := (congrArg Prod.fst (Option.some.inj hstep)).symm

theorem since_call (h : Since s₀ s) (a : Op) : Since s₀ (s.call a).1 := by
  obtain ⟨hroot, hcwd, hdirs⟩ := call_frame s a
  exact ⟨hroot.trans h.root, hcwd.trans h.cwd, hdirs.trans h.dirs⟩

theorem usable_iff (h : Since s₀ s) : Usable s₀ s ↔ s.RootExists := by
  have hrootDir : s.rootDir = s₀.rootDir := by
    simp only [rootDir, start, h.root, h.cwd]
  constructor
  · exact Usable.root
  · intro hroot
    refine ⟨hroot, fun n hn hdir => (flat_opens_iff hn ?_).mpr hroot⟩
    rw [hrootDir]
    exact fun hmem => hdir (h.dirs hmem)

theorem root_stays_gone {as : List Op} {os : List Bool} (hrun : spiffs.run s₀ as = some (s, os))
    (hgone : ¬ s₀.RootExists) : ¬ s.RootExists := by
  apply Machine.invariant (J := fun s => ¬ s.RootExists) _ hgone hrun
  intro s a s' o hgone hstep
  rw [step_spec hstep]
  exact fun hroot => hgone (rootExists_of_call hroot)

/-- After `set_root`, the root and the flat names stay usable throughout a run exactly when no call
of it strikes. -/
theorem usable_throughout_iff {as : List Op} {os : List Bool} (hroot : s₀.RootExists)
    (hrun : spiffs.run s₀ as = some (s, os)) :
    spiffs.Throughout (fun _ s => Usable s₀ s) s₀ as ↔
      spiffs.Along (fun s a => ¬ s.Strikes a) s₀ as := by
  rw [← Machine.along_recorded hrun []]
  apply Machine.throughout_iff_recorded (J := fun _ s => Since s₀ s) _ _ ⟨rfl, rfl, by simp⟩
    ((usable_iff ⟨rfl, rfl, by simp⟩).mpr hroot) hrun
  · intro os s a s' o hsince hstep
    rw [step_spec hstep]
    exact since_call hsince a
  · intro os s a s' o hsince hbefore hstep
    rw [step_spec hstep, usable_iff (since_call hsince a)]
    exact call_root_iff hbefore.root a

def emptyRoot : Spiffs :=
  { disk :=
      { dirs := {[], [[100]]}
        files := ∅
        top := by simp
        apart := by simp
        dir_parent := by
          intro p n h
          simp only [Finset.mem_insert, Finset.mem_singleton] at h
          rcases h with h | h
          · simp at h
          · rw [(List.append_inj' (h.trans (List.nil_append _).symm) rfl).1]
            simp
        file_parent := by simp }
    cwd := []
    root := ⟨[47, 100]⟩
    named := by simp }

/-- Writing `/x` and formatting does not strike. -/
theorem usable_throughout_format :
    spiffs.Throughout (fun _ s => Usable emptyRoot s) emptyRoot
      [.begin, .open (some [47, 120]) (some [119]), .format, .remove (some [47, 120])] := by
  apply (usable_throughout_iff (by decide) rfl).mpr
  decide

/-- `remove("/")` on an empty data root. -/
theorem not_usable_throughout :
    ¬ ∀ (s₀ s : Spiffs) (as : List Op) (os : List Bool), s₀.RootExists →
      spiffs.run s₀ as = some (s, os) → spiffs.Throughout (fun _ s => Usable s₀ s) s₀ as := by
  intro hall
  have hroot := (hall emptyRoot _ [.remove (some [47])] _ (by decide) rfl _ List.prefix_rfl _ _
    rfl).root
  revert hroot
  decide

end Spiffs

end ZiModem.Hal
