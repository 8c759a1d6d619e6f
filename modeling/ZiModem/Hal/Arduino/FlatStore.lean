import Mathlib.Algebra.BigOperators.Group.Finset.Basic
import Mathlib.Algebra.Ring.Nat
import Mathlib.Data.Finmap
import ZiModem.Hal.Arduino.FileText

/-! # `SPIFFS` as a store of texts

The files of the sketch have flat names, and none of the calls makes a directory.
So a data root that holds files only stays one, and over any sequence of calls it
answers as a finite map from names to texts does, while everything outside the
root stays as it is.
-/

namespace ZiModem.Hal

open Reactive DirTree

structure FlatName where
  name : List UInt8
  flat : Spiffs.Flat name
  deriving DecidableEq

def FlatName.path (n : FlatName) : Option (List UInt8) := some (slash :: n.name)

namespace Arduino

/-! ## The calls -/

structure FSInfo where
  totalBytes : Nat
  usedBytes : Nat
  deriving DecidableEq, Repr

def totalBytes : Nat := 4 * 1024 * 1024

namespace Volume

variable (v : Volume)

def remove (path : Option (List UInt8)) : Volume × Bool :=
  ({ v with host := (v.host.remove path).1 }, (v.host.remove path).2)

def format : Volume × Bool := ({ v with host := v.host.format.1 }, v.host.format.2)

/-- `SPIFFSClass::info`, with a `size_t` of 64 bits; `none` where the iterator throws. -/
def info : Option FSInfo :=
  match v.host.disk.walk (v.host.start v.host.root.dir)
      (components slash dot v.host.root.dir) with
  | none => none
  | some p =>
      if p ∈ v.host.disk.dirs then
        some ⟨totalBytes,
          (∑ q ∈ v.host.disk.files with p <+: q, (v.contents q).length) % 18446744073709551616⟩
      else none

end Volume

def File.writeBlocks (f : File) : List (List UInt8) → File × List Nat
  | [] => (f, [])
  | block :: blocks =>
      let (f₁, n) := filePrint.writeBuffer f block
      let (f₂, ns) := f₁.writeBlocks blocks
      (f₂, n :: ns)

/-- What a sketch does with a file: it writes blocks to a file that it opens with `w` or `a` and
closes, or reads one that it opens with `r`. -/
inductive StoreCall
  | save (n : FlatName) (blocks : List (List UInt8))
  | append (n : FlatName) (blocks : List (List UInt8))
  | load (n : FlatName)
  | exists (n : FlatName)
  | remove (n : FlatName)
  | format
  | info
  deriving DecidableEq

/-- What the sketch gets: what each `write` took, whether the `File` was valid and what was read, or
what the call returned. -/
inductive StoreReply
  | taken (ns : List Nat)
  | text (valid : Bool) (s : WString)
  | bool (b : Bool)
  | info (i : Option FSInfo)
  deriving DecidableEq

namespace Volume

variable (v : Volume)

def put (path mode : Option (List UInt8)) (blocks : List (List UInt8)) : Volume × List Nat :=
  let (v₁, f) := v.open' path mode
  let (f', ns) := f.writeBlocks blocks
  ((v₁.close f').1, ns)

def get (path : Option (List UInt8)) : Volume × Bool × WString :=
  let (v₁, f) := v.open' path (some [114])
  let (f', s) := f.readString
  ((v₁.close f').1, f.handle.isSome, s)

def call : StoreCall → Volume × StoreReply
  | .save n blocks =>
      let (v', ns) := v.put n.path (some [119]) blocks
      (v', .taken ns)
  | .append n blocks =>
      let (v', ns) := v.put n.path (some [97]) blocks
      (v', .taken ns)
  | .load n =>
      let (v', valid, s) := v.get n.path
      (v', .text valid s)
  | .exists n => (v, .bool (v.host.exists' n.path))
  | .remove n =>
      let (v', removed) := v.remove n.path
      (v', .bool removed)
  | .format =>
      let (v', cleared) := v.format
      (v', .bool cleared)
  | .info => (v, .info v.info)

end Volume

def store : Machine Volume StoreCall StoreReply := ⟨fun v c => some (v.call c)⟩

/-! ## A map from names to texts -/

abbrev Texts := Finmap fun _ : List UInt8 => List UInt8

namespace Texts

variable (m : Texts)

def textOf (n : List UInt8) : List UInt8 := (m.lookup n).getD []

def size : Nat := ∑ n ∈ m.keys, (m.textOf n).length

def call : StoreCall → Texts × StoreReply
  | .save n blocks => (m.insert n.name blocks.flatten, .taken (blocks.map List.length))
  | .append n blocks =>
      (m.insert n.name (m.textOf n.name ++ blocks.flatten), .taken (blocks.map List.length))
  | .load n => (m, .text (decide (n.name ∈ m)) ⟨m.textOf n.name⟩)
  | .exists n => (m, .bool (decide (n.name ∈ m)))
  | .remove n => (m.erase n.name, .bool (decide (n.name ∈ m)))
  | .format => (∅, .bool true)
  | .info => (m, .info (some ⟨totalBytes, m.size % 18446744073709551616⟩))

end Texts

def texts : Machine Texts StoreCall StoreReply := ⟨fun m c => some (m.call c)⟩

end Arduino

/-! ## Flat names in a root of files -/

namespace Spiffs

variable {s : Spiffs} {n : List UInt8}

structure OnlyFiles (s : Spiffs) : Prop where
  root : s.RootExists
  flat : ∀ q ∈ s.disk.dirs, s.rootDir <+: q → q = s.rootDir

instance (s : Spiffs) : Decidable s.OnlyFiles :=
  decidable_of_iff (s.RootExists ∧ ∀ q ∈ s.disk.dirs, s.rootDir <+: q → q = s.rootDir)
    ⟨fun ⟨h₁, h₂⟩ => ⟨h₁, h₂⟩, fun ⟨h₁, h₂⟩ => ⟨h₁, h₂⟩⟩

namespace OnlyFiles

theorem walk (h : s.OnlyFiles) :
    s.disk.walk (s.start s.root.dir) (components slash dot s.root.dir) = some s.rootDir := by
  obtain ⟨p, hwalk, -⟩ := h.root
  rwa [(DirTree.Tree.walk_eq_some_iff.mp hwalk).2] at hwalk

theorem rootDir_mem (h : s.OnlyFiles) : s.rootDir ∈ s.disk.dirs :=
  DirTree.Tree.leads_iff.mp h.root _ List.mem_cons_self

theorem not_dir (h : s.OnlyFiles) (n : List UInt8) : s.rootDir ++ [n] ∉ s.disk.dirs := by
  intro hmem
  have hroot := h.flat _ hmem (List.prefix_append _ _)
  simp at hroot

theorem target (h : s.OnlyFiles) (hn : Flat n) :
    s.target (s.hostPath (some (slash :: n))) = some (s.rootDir, n) :=
  (flat_target hn _ _).mpr ⟨rfl, h.walk⟩

theorem isFile_iff (h : s.OnlyFiles) (hn : Flat n) :
    s.IsFile (s.hostPath (some (slash :: n))) ↔ s.rootDir ++ [n] ∈ s.disk.files := by
  simp [IsFile, h.target hn, flat_not_trailing hn]

theorem not_isDirectory (h : s.OnlyFiles) (hn : Flat n) :
    ¬ s.IsDirectory (s.hostPath (some (slash :: n))) := by
  rintro ⟨p, hwalk, hdir⟩
  have hp := (DirTree.Tree.walk_eq_some_iff.mp hwalk).2
  rw [DirTree.Tree.goto_of_target (h.target hn)] at hp
  exact h.not_dir n (hp ▸ hdir)

theorem of_frame {s' : Spiffs} (h : s.OnlyFiles) (hroot : s'.root = s.root) (hcwd : s'.cwd = s.cwd)
    (hdirs : s'.disk.dirs = s.disk.dirs) : s'.OnlyFiles := by
  have hrootDir : s'.rootDir = s.rootDir := by simp only [rootDir, start, hroot, hcwd]
  constructor
  · rw [RootExists, IsDirectory, start, hroot, hcwd]
    exact DirTree.Tree.leads_of_subset (Finset.subset_of_eq hdirs.symm) h.root
  · rw [hdirs, hrootDir]
    exact h.flat

theorem fopen (h : s.OnlyFiles) (hn : Flat n) :
    ∃ s', s.fopen (s.hostPath (some (slash :: n))) ⟨true, true, false⟩ = (s', true) ∧
      s'.root = s.root ∧ s'.cwd = s.cwd ∧ s'.disk.dirs = s.disk.dirs ∧
      s'.disk.files = insert (s.rootDir ++ [n]) s.disk.files := by
  have hfree : ¬ (Trailing (s.hostPath (some (slash :: n))) ∨
      s.rootDir ++ [n] ∈ s.disk.dirs) := not_or.mpr ⟨flat_not_trailing hn, h.not_dir n⟩
  simp only [Spiffs.fopen, if_true, h.target hn, if_neg hfree]
  by_cases hfile : s.rootDir ++ [n] ∈ s.disk.files
  · simp [hfile]
  · simp only [if_neg hfile, if_pos h.rootDir_mem]
    exact ⟨_, rfl, rfl, rfl, DirTree.Tree.dirs_addFile _ _,
      DirTree.Tree.files_addFile h.rootDir_mem (h.not_dir n)⟩

theorem open_read (h : s.OnlyFiles) (hn : Flat n) :
    s.open' (some (slash :: n)) (some [114]) =
      (s, decide (s.rootDir ++ [n] ∈ s.disk.files)) := by
  have hmode : fopenMode (toBinaryFopenMode (some [114])) = some ⟨false, false, false⟩ := by decide
  simp [open', hmode, Spiffs.fopen, h.isFile_iff hn, h.not_isDirectory hn]

theorem remove (h : s.OnlyFiles) (hn : Flat n) :
    (s.remove (some (slash :: n))).2 = decide (s.rootDir ++ [n] ∈ s.disk.files) ∧
      (s.remove (some (slash :: n))).1.root = s.root ∧
      (s.remove (some (slash :: n))).1.cwd = s.cwd ∧
      (s.remove (some (slash :: n))).1.disk.dirs = s.disk.dirs ∧
      (s.remove (some (slash :: n))).1.disk.files = s.disk.files.erase (s.rootDir ++ [n]) := by
  simp only [Spiffs.remove, unlink, h.target hn, if_neg (flat_not_trailing hn)]
  by_cases hfile : s.rootDir ++ [n] ∈ s.disk.files
  · simp [hfile, DirTree.Tree.remove_file hfile]
  · simp [hfile, h.not_dir n]

theorem format (h : s.OnlyFiles) :
    s.format.2 = true ∧ s.format.1.root = s.root ∧ s.format.1.cwd = s.cwd ∧
      s.format.1.disk.dirs = s.disk.dirs ∧
      ∀ q, q ∈ s.format.1.disk.files ↔ q ∈ s.disk.files ∧ ¬ s.rootDir <+: q := by
  have hformat : s.format = ({ s with disk := s.disk.clear s.rootDir }, true) := by
    simp only [Spiffs.format, h.walk, if_pos h.rootDir_mem]
  rw [hformat]
  refine ⟨rfl, rfl, rfl, ?_, fun q => ?_⟩
  · ext q
    rw [DirTree.Tree.mem_dirs_clear, and_iff_left_iff_imp]
    exact fun hq hbelow => hbelow.2 (h.flat q hq hbelow.1)
  · refine Finset.mem_filter.trans (and_congr_right fun hq => not_congr (and_iff_left ?_))
    rintro rfl
    exact Finset.disjoint_left.mp s.disk.apart h.rootDir_mem hq

end OnlyFiles

end Spiffs

namespace Arduino

/-! ## Writing and reading a file -/

def AtEnd (name : List (List UInt8)) (access : Access) (f : File) : Prop :=
  access.writes = true ∧
    ∃ fp, f.handle = some fp ∧ fp.name = name ∧ fp.access = access ∧ fp.pos = fp.content.length

theorem filePrint_accepting_end (name : List (List UInt8)) (access : Access) :
    filePrint.Accepting (AtEnd name access) written := by
  apply Print.accepting_ofByte
  rintro f b ⟨hwrites, fp, hhandle, hname, haccess, hpos⟩
  have hput := Stdio.fputc_end b (by rw [haccess, hwrites]) hpos
  simp only [File.writeByte, hhandle, hput, written, Option.elim_some]
  refine ⟨⟨hwrites, _, rfl, hname, haccess, ?_⟩, trivial, Nat.one_ne_zero⟩
  simp

theorem writeBlocks_atEnd {name : List (List UInt8)} {access : Access} {f : File}
    (h : AtEnd name access f) (blocks : List (List UInt8)) :
    AtEnd name access (f.writeBlocks blocks).1 ∧
      written (f.writeBlocks blocks).1 = written f ++ blocks.flatten ∧
      (f.writeBlocks blocks).2 = blocks.map List.length := by
  have haccept := filePrint_accepting_end name access
  induction blocks generalizing f with
  | nil => exact ⟨h, (List.append_nil _).symm, rfl⟩
  | cons block blocks ih =>
      obtain ⟨hend, hwritten, hcounts⟩ := ih (haccept.keeps f block h)
      simp only [File.writeBlocks]
      refine ⟨hend, ?_, ?_⟩
      · rw [hwritten, haccept.appends f block h, List.append_assoc, List.flatten_cons]
      · rw [hcounts, haccept.counts f block h, List.map_cons]

namespace Volume

variable {v : Volume}

theorem fileName_flat (h : v.host.OnlyFiles) (n : FlatName) :
    v.fileName n.path = v.host.rootDir ++ [n.name] :=
  DirTree.Tree.goto_of_target (h.target n.flat)

theorem fileContent_flat (h : v.host.OnlyFiles) (n : FlatName) :
    v.fileContent n.path = if v.host.rootDir ++ [n.name] ∈ v.host.disk.files then
      v.contents (v.host.rootDir ++ [n.name]) else [] := by
  rw [fileContent, fileName_flat h]

def opened (v : Volume) (n : FlatName) (truncate : Bool) : List UInt8 :=
  if truncate then [] else v.fileContent n.path

def writeMode (truncate : Bool) : Option (List UInt8) := some (if truncate then [119] else [97])

/-- Opening, writing and closing: the file holds what it held when it was opened, and the blocks. -/
theorem put_flat (h : v.host.OnlyFiles) (n : FlatName) (truncate : Bool)
    (blocks : List (List UInt8)) :
    ∃ s', v.put n.path (writeMode truncate) blocks =
        (⟨s', Function.update v.contents (v.host.rootDir ++ [n.name])
          (v.opened n truncate ++ blocks.flatten), v.dirEnd⟩, blocks.map List.length) ∧
      s'.root = v.host.root ∧ s'.cwd = v.host.cwd ∧ s'.disk.dirs = v.host.disk.dirs ∧
      s'.disk.files = insert (v.host.rootDir ++ [n.name]) v.host.disk.files := by
  obtain ⟨s', hfopen, hframe⟩ := h.fopen n.flat
  have hmode : fopenMode (toBinaryFopenMode (writeMode truncate)) = some ⟨true, true, false⟩ := by
    cases truncate <;> decide
  have haccess : fopenAccess (toBinaryFopenMode (writeMode truncate)) =
      ⟨false, true, !truncate⟩ := by
    cases truncate <;> decide
  have htruncates : (toBinaryFopenMode (writeMode truncate)).head? = some 119 ↔
      truncate = true := by
    cases truncate <;> decide
  have hopened : v.host.open' n.path (writeMode truncate) = (s', true) := by
    simp only [Spiffs.open', hmode]
    exact hfopen
  have hstart : Stdio.startPos ⟨false, true, !truncate⟩ (v.opened n truncate) =
      (v.opened n truncate).length := by
    cases truncate <;> simp [Stdio.startPos, opened]
  have hfile : v.open' n.path (writeMode truncate) =
      (⟨s', Function.update v.contents (v.host.rootDir ++ [n.name]) (v.opened n truncate),
          v.dirEnd⟩,
        ⟨some ⟨v.host.rootDir ++ [n.name], ⟨false, true, !truncate⟩, v.opened n truncate,
          (v.opened n truncate).length, false⟩, n.path.getD []⟩) := by
    have hmem : v.host.rootDir ++ [n.name] ∈ s'.disk.files := by
      rw [hframe.2.2.2]
      exact Finset.mem_insert_self _ _
    simp only [open', hopened, if_true, haccess, htruncates, fileName_flat h, if_pos hmem]
    rw [← hstart]
    rfl
  have hend : AtEnd (v.host.rootDir ++ [n.name]) ⟨false, true, !truncate⟩
      (v.open' n.path (writeMode truncate)).2 := by
    rw [hfile]
    exact ⟨rfl, _, rfl, rfl, rfl, rfl⟩
  obtain ⟨⟨-, fp, hhandle, hname, hfp, -⟩, hwritten, hcounts⟩ := writeBlocks_atEnd hend blocks
  rw [written, hhandle, Option.elim_some] at hwritten
  refine ⟨s', ?_, hframe⟩
  simp only [put, close, hhandle, hfp, if_true, hname, hwritten, hcounts]
  rw [hfile]
  simp [written, Function.update_idem]

theorem readString_access (f : File) :
    f.readString.1.handle.map Stdio.access = f.handle.map Stdio.access := by
  have hread : ∀ f : File, f.read.1.handle.map Stdio.access = f.handle.map Stdio.access := by
    intro f
    unfold File.read
    cases hhandle : f.handle with
    | none => simp [hhandle]
    | some fp => exact congrArg some (fgetc_kept fp).1
  suffices hloop : ∀ f result, (File.readStringLoop f result).1.handle.map Stdio.access =
      f.handle.map Stdio.access from hloop f ⟨[]⟩
  intro f result
  induction f, result using File.readStringLoop.induct with
  | case1 f result hmore ih =>
      rw [File.readStringLoop, dif_pos hmore, ih, hread]
  | case2 f result hend =>
      rw [File.readStringLoop, dif_neg hend, hread]

/-- Opening, reading and closing changes nothing, and gives what is in the file. -/
theorem get_flat (h : v.host.OnlyFiles) (n : FlatName) :
    v.get n.path = (v, decide (v.host.rootDir ++ [n.name] ∈ v.host.disk.files),
      ⟨v.fileContent n.path⟩) := by
  have hopened : v.host.open' n.path (some [114]) =
      (v.host, decide (v.host.rootDir ++ [n.name] ∈ v.host.disk.files)) := h.open_read n.flat
  by_cases hmem : v.host.rootDir ++ [n.name] ∈ v.host.disk.files
  · have hfile : v.host.IsFile (v.host.hostPath n.path) := (h.isFile_iff n.flat).mpr hmem
    have hopen := open_read hfile
    have hkept : ¬ (toBinaryFopenMode (some [114])).head? = some 119 := by decide
    have hsame : (v.open' n.path (some [114])).1 = v := by
      simp only [open', hopened, hmem, decide_true, if_true, fileName_flat h, if_neg hkept]
      rw [fileContent_eq hfile, fileName_flat h, Function.update_eq_self]
    obtain ⟨htext, fp, hhandle, -⟩ := (inStep_open hfile).readString
    have hvalid : (v.open' n.path (some [114])).2.handle.isSome = true := by
      rw [hopen]
      rfl
    have hwrites : fp.access.writes = false := by
      have haccess := readString_access (v.open' n.path (some [114])).2
      rw [hhandle, hopen] at haccess
      rw [Option.some.inj haccess]
    simp only [get, close, hhandle, hwrites, hsame, htext, hvalid, hmem, decide_true]
    rfl
  · have hopen : v.open' n.path (some [114]) = (v, ⟨none, n.path.getD []⟩) := by
      simp only [open', hopened, hmem, decide_false]
      rfl
    have hread : (File.mk none (n.path.getD [])).readString = (⟨none, n.path.getD []⟩, ⟨[]⟩) := by
      rw [File.readString, File.readStringLoop]
      simp [File.read]
    simp only [get, hopen, hread, close, fileContent_flat h, hmem]
    rfl

/-! ## What a volume holds -/

def Holds (v : Volume) (m : Texts) : Prop :=
  ∀ n, m.lookup n = if v.host.rootDir ++ [n] ∈ v.host.disk.files then
    some (v.contents (v.host.rootDir ++ [n])) else none

structure SameOutside (v₀ v : Volume) : Prop where
  root : v.host.root = v₀.host.root
  cwd : v.host.cwd = v₀.host.cwd
  dirs : v.host.disk.dirs = v₀.host.disk.dirs
  files : ∀ q, ¬ v₀.host.rootDir <+: q → (q ∈ v.host.disk.files ↔ q ∈ v₀.host.disk.files)
  contents : ∀ q, ¬ v₀.host.rootDir <+: q → v.contents q = v₀.contents q

theorem SameOutside.refl (v : Volume) : SameOutside v v :=
  ⟨rfl, rfl, rfl, fun _ _ => Iff.rfl, fun _ _ => rfl⟩

theorem SameOutside.rootDir {v₀ v : Volume} (h : SameOutside v₀ v) :
    v.host.rootDir = v₀.host.rootDir := by
  simp only [Spiffs.rootDir, Spiffs.start, h.root, h.cwd]

theorem SameOutside.trans {v₀ v₁ v₂ : Volume} (h₁ : SameOutside v₀ v₁) (h₂ : SameOutside v₁ v₂) :
    SameOutside v₀ v₂ where
  root := h₂.root.trans h₁.root
  cwd := h₂.cwd.trans h₁.cwd
  dirs := h₂.dirs.trans h₁.dirs
  files := fun q hq => (h₂.files q (h₁.rootDir ▸ hq)).trans (h₁.files q hq)
  contents := fun q hq => (h₂.contents q (h₁.rootDir ▸ hq)).trans (h₁.contents q hq)

/-- A volume that holds the map `m`, in a host that is `v₀` outside the data root. -/
structure Keeps (v₀ v : Volume) (m : Texts) : Prop where
  only : v.host.OnlyFiles
  holds : v.Holds m
  outside : SameOutside v₀ v

theorem exists_holds (v : Volume) : ∃ m, v.Holds m := by
  let names := (v.host.disk.files.image fun q => q.getLastD []).filter
    fun n => v.host.rootDir ++ [n] ∈ v.host.disk.files
  have hnames : ∀ n, n ∈ names ↔ v.host.rootDir ++ [n] ∈ v.host.disk.files := by
    intro n
    rw [Finset.mem_filter, and_iff_right_iff_imp]
    exact fun hmem => Finset.mem_image.mpr ⟨_, hmem, by simp⟩
  refine ⟨Finmap.keysLookupEquiv.symm ⟨(names, fun n =>
    if v.host.rootDir ++ [n] ∈ v.host.disk.files then
      some (v.contents (v.host.rootDir ++ [n])) else none), fun n => ?_⟩, fun n => ?_⟩
  · rw [hnames]
    by_cases hmem : v.host.rootDir ++ [n] ∈ v.host.disk.files
    · simp [hmem]
    · simp [hmem]
  · rw [Finmap.keysLookupEquiv_symm_apply_lookup]

section Held

variable {m : Texts} (h : v.Holds m)

include h

theorem Holds.mem_iff {n : List UInt8} :
    n ∈ m ↔ v.host.rootDir ++ [n] ∈ v.host.disk.files := by
  rw [← Finmap.lookup_isSome, h n]
  split <;> simp [*]

theorem Holds.textOf (hroot : v.host.OnlyFiles) (n : FlatName) :
    m.textOf n.name = v.fileContent n.path := by
  rw [fileContent_flat hroot, Texts.textOf, h n.name]
  split <;> rfl

theorem Holds.insert {v' : Volume} {name text : List UInt8}
    (hroot : v'.host.rootDir = v.host.rootDir)
    (hfiles : v'.host.disk.files = Insert.insert (v.host.rootDir ++ [name]) v.host.disk.files)
    (hcontents : v'.contents = Function.update v.contents (v.host.rootDir ++ [name]) text) :
    v'.Holds (m.insert name text) := by
  intro n
  rw [hroot, hfiles, hcontents]
  by_cases hname : n = name
  · subst hname
    simp
  · rw [Finmap.lookup_insert_of_ne _ hname, h n, Function.update_of_ne (by simpa using hname)]
    simp [hname]

theorem Holds.erase {v' : Volume} {name : List UInt8}
    (hroot : v'.host.rootDir = v.host.rootDir)
    (hfiles : v'.host.disk.files = v.host.disk.files.erase (v.host.rootDir ++ [name]))
    (hcontents : v'.contents = v.contents) : v'.Holds (m.erase name) := by
  intro n
  rw [hroot, hfiles, hcontents]
  by_cases hname : n = name
  · subst hname
    simp
  · rw [Finmap.lookup_erase_ne hname, h n]
    simp [hname]

theorem Holds.size (hroot : v.host.OnlyFiles) :
    ∑ q ∈ v.host.disk.files with v.host.rootDir <+: q, (v.contents q).length = m.size := by
  have hbelow : (v.host.disk.files.filter fun q => v.host.rootDir <+: q) =
      m.keys.image fun n => v.host.rootDir ++ [n] := by
    ext q
    rw [Finset.mem_filter, Finset.mem_image]
    constructor
    · rintro ⟨hfile, xs, rfl⟩
      rcases List.eq_nil_or_concat xs with rfl | ⟨ys, n, rfl⟩
      · rw [List.append_nil] at hfile
        exact absurd hfile (Finset.disjoint_left.mp v.host.disk.apart hroot.rootDir_mem)
      · rw [List.concat_eq_append, ← List.append_assoc] at hfile ⊢
        have hdir := v.host.disk.file_parent _ _ hfile
        rw [hroot.flat _ hdir (List.prefix_append _ ys)] at hfile ⊢
        exact ⟨n, Finmap.mem_keys.mpr (h.mem_iff.mpr hfile), rfl⟩
    · rintro ⟨n, hn, rfl⟩
      exact ⟨h.mem_iff.mp (Finmap.mem_keys.mp hn), List.prefix_append _ _⟩
  rw [hbelow, Finset.sum_image (by simp), Texts.size]
  refine Finset.sum_congr rfl fun n hn => ?_
  rw [Texts.textOf, h n, if_pos (h.mem_iff.mp (Finmap.mem_keys.mp hn))]
  rfl

end Held

section Kept

variable {v₀ : Volume} {m : Texts} (h : Keeps v₀ v m)

include h

theorem Keeps.put (n : FlatName) (truncate : Bool) (blocks : List (List UInt8)) :
    (v.put n.path (writeMode truncate) blocks).2 = blocks.map List.length ∧
      Keeps v₀ (v.put n.path (writeMode truncate) blocks).1
        (m.insert n.name ((if truncate then [] else m.textOf n.name) ++ blocks.flatten)) := by
  obtain ⟨s', hput, hroot, hcwd, hdirs, hfiles⟩ := put_flat h.only n truncate blocks
  have hrootDir : s'.rootDir = v.host.rootDir := by
    simp only [Spiffs.rootDir, Spiffs.start, hroot, hcwd]
  have htext : v.opened n truncate = if truncate then [] else m.textOf n.name := by
    rw [opened, h.holds.textOf h.only]
  rw [hput, htext]
  refine ⟨rfl, h.only.of_frame hroot hcwd hdirs, h.holds.insert hrootDir hfiles rfl,
    h.outside.trans ⟨hroot, hcwd, hdirs, fun q hq => ?_, fun q hq => ?_⟩⟩
  · rw [hfiles, Finset.mem_insert, or_iff_right]
    rintro rfl
    exact hq (List.prefix_append _ _)
  · refine Function.update_of_ne ?_ _ _
    rintro rfl
    exact hq (List.prefix_append _ _)

theorem Keeps.remove (n : FlatName) :
    (v.remove n.path).2 = decide (n.name ∈ m) ∧
      Keeps v₀ (v.remove n.path).1 (m.erase n.name) := by
  obtain ⟨hremoved, hroot, hcwd, hdirs, hfiles⟩ := h.only.remove n.flat
  have hrootDir : (v.host.remove n.path).1.rootDir = v.host.rootDir := by
    simp only [FlatName.path, Spiffs.rootDir, Spiffs.start, hroot, hcwd]
  refine ⟨?_, h.only.of_frame hroot hcwd hdirs, h.holds.erase hrootDir hfiles rfl,
    h.outside.trans ⟨hroot, hcwd, hdirs, fun q hq => ?_, fun q hq => rfl⟩⟩
  · rw [decide_eq_decide.mpr h.holds.mem_iff]
    exact hremoved
  · rw [Volume.remove, FlatName.path, hfiles, Finset.mem_erase, and_iff_right]
    rintro rfl
    exact hq (List.prefix_append _ _)

theorem Keeps.format : v.format.2 = true ∧ Keeps v₀ v.format.1 ∅ := by
  obtain ⟨hcleared, hroot, hcwd, hdirs, hfiles⟩ := h.only.format
  have hrootDir : v.host.format.1.rootDir = v.host.rootDir := by
    simp only [Spiffs.rootDir, Spiffs.start, hroot, hcwd]
  refine ⟨hcleared, h.only.of_frame hroot hcwd hdirs, fun n => ?_,
    h.outside.trans ⟨hroot, hcwd, hdirs, fun q hq => ?_, fun q hq => rfl⟩⟩
  · simp [Volume.format, hrootDir, hfiles]
  · rw [Volume.format, hfiles, and_iff_left hq]

theorem Keeps.info :
    v.info = some ⟨totalBytes, m.size % 18446744073709551616⟩ := by
  simp only [Volume.info, h.only.walk, if_pos h.only.rootDir_mem, h.holds.size h.only]

theorem Keeps.call (c : StoreCall) :
    (v.call c).2 = (m.call c).2 ∧ Keeps v₀ (v.call c).1 (m.call c).1 := by
  cases c with
  | save n blocks =>
      obtain ⟨htaken, hkeeps⟩ := h.put n true blocks
      exact ⟨congrArg StoreReply.taken htaken, hkeeps⟩
  | append n blocks =>
      obtain ⟨htaken, hkeeps⟩ := h.put n false blocks
      exact ⟨congrArg StoreReply.taken htaken, hkeeps⟩
  | load n =>
      have hmem : decide (n.name ∈ m) =
          decide (v.host.rootDir ++ [n.name] ∈ v.host.disk.files) :=
        decide_eq_decide.mpr h.holds.mem_iff
      simp only [Volume.call, get_flat h.only, Texts.call, h.holds.textOf h.only, hmem]
      exact ⟨trivial, h⟩
  | «exists» n =>
      have hmem : v.host.exists' n.path = decide (n.name ∈ m) := by
        rw [Spiffs.exists', decide_eq_decide, h.holds.mem_iff, FlatName.path,
          or_iff_left (h.only.not_isDirectory n.flat)]
        exact h.only.isFile_iff n.flat
      exact ⟨congrArg StoreReply.bool hmem, h⟩
  | remove n =>
      obtain ⟨hremoved, hkeeps⟩ := h.remove n
      exact ⟨congrArg StoreReply.bool hremoved, hkeeps⟩
  | format =>
      obtain ⟨hcleared, hkeeps⟩ := h.format
      exact ⟨congrArg StoreReply.bool hcleared, hkeeps⟩
  | info => exact ⟨congrArg StoreReply.info h.info, h⟩

end Kept

/-- From a data root that holds files only, `SPIFFS` answers every sequence of calls as a map from
names to texts does, keeps the texts of that map in the root, and leaves all else alone. -/
theorem store_keeps_texts (v : Volume) (h : v.host.OnlyFiles) :
    ∃ m, v.Holds m ∧ ∀ cs, ∃ v' m' os, store.run v cs = some (v', os) ∧
      texts.run m cs = some (m', os) ∧ v'.host.OnlyFiles ∧ v'.Holds m' ∧ SameOutside v v' := by
  have hstep : ∀ (v₁ : Volume) (m₁ : Texts) (c : StoreCall), Keeps v v₁ m₁ →
      ∃ v₂ m₂ o, store.step v₁ c = some (v₂, o) ∧ texts.step m₁ c = some (m₂, o) ∧
        Keeps v v₂ m₂ := by
    intro v₁ m₁ c hkeeps
    obtain ⟨hreply, hafter⟩ := hkeeps.call c
    exact ⟨_, _, (v₁.call c).2, rfl, by rw [hreply]; rfl, hafter⟩
  obtain ⟨m, hm⟩ := exists_holds v
  refine ⟨m, hm, fun cs => ?_⟩
  obtain ⟨v', m', os, hv, hm', hkeeps⟩ := Machine.run_lockstep hstep cs ⟨h, hm, .refl v⟩
  exact ⟨v', m', os, hv, hm', hkeeps.only, hkeeps.holds, hkeeps.outside⟩

def nameX : FlatName := ⟨[120], by decide⟩

/-- In the data root `/d` a `C` is put behind the file `x`, which is read and removed. -/
theorem store_keeps_texts_small :
    smallVolume.host.OnlyFiles ∧ ∃ m, smallVolume.Holds m ∧ ∃ v' m' os,
      store.run smallVolume [.append nameX [[67]], .load nameX, .remove nameX] = some (v', os) ∧
        texts.run m [.append nameX [[67]], .load nameX, .remove nameX] = some (m', os) ∧
        v'.host.OnlyFiles ∧ v'.Holds m' ∧ SameOutside smallVolume v' := by
  have h : smallVolume.host.OnlyFiles := by decide
  obtain ⟨m, hm, hruns⟩ := store_keeps_texts smallVolume h
  exact ⟨h, m, hm, hruns _⟩

end Volume

end Arduino

end ZiModem.Hal
