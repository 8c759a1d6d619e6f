import ZiModem.Paths.Lexical
import ZiModem.Paths.Tree

/-! # The data directory

`fs_root.cpp` and the three `SPIFFS` operations that take a path. A path is the
bytes of a C string; appending is that of `std::filesystem::path` on POSIX,
where only `/` separates names.
-/

namespace ZiModem.Hal

open Lexical DirTree

/-- `/`, `\` and `.`. -/
def slash : UInt8 := 47

def backslash : UInt8 := 92

def dot : UInt8 := 46

/-- `p / q` for POSIX paths: an absolute `q` replaces `p`, and a separator comes in between where
`p` ends in a name. -/
def pathAppend (p q : List UInt8) : List UInt8 :=
  if q.head? = some slash then q
  else if p = [] ∨ p.getLast? = some slash then p ++ q
  else p ++ slash :: q

/-- `g_root`. -/
structure FsRoot where
  dir : List UInt8
  deriving DecidableEq, Repr

/-- What the surroundings decide in `set_root`: no memory for the copies of the path, a directory
that cannot be created, or neither. -/
inductive SetRootOutcome
  | copyFails
  | createFails
  | created
  deriving DecidableEq, Repr

namespace FsRoot

/-- `set_root`, and whether it throws. -/
def setRoot (s : FsRoot) (path : List UInt8) : SetRootOutcome → FsRoot × Bool
  | .copyFails => (s, true)
  | .createFails => (⟨path⟩, true)  -- `g_root` is assigned before the directory exists
  | .created => (⟨path⟩, false)

/-- `root`, where `fresh` is what `make_fresh_temp_dir` would return. -/
def root (s : FsRoot) (fresh : List UInt8) : FsRoot × List UInt8 :=
  if s.dir = [] then (⟨fresh⟩, fresh) else (s, s.dir)

def relative (spiffsPath : List UInt8) : List UInt8 :=
  spiffsPath.dropWhile fun c => c == slash || c == backslash

def resolve (s : FsRoot) (fresh spiffsPath : List UInt8) : FsRoot × List UInt8 :=
  let (s', dir) := s.root fresh
  (s', pathAppend dir (relative spiffsPath))

end FsRoot

inductive SpiffsCall
  | open (path : Option (List UInt8)) (mode : List UInt8)
  | exists (path : Option (List UInt8))
  | remove (path : Option (List UInt8))
  deriving DecidableEq, Repr

namespace SpiffsCall

def path : SpiffsCall → List UInt8
  | .open path _ | .exists path | .remove path => path.getD []

def hostPath (s : FsRoot) (fresh : List UInt8) (c : SpiffsCall) : List UInt8 :=
  (s.resolve fresh c.path).2

end SpiffsCall

def hostParse (text : List UInt8) : Path (List UInt8) := parse slash dot text

def SpiffsCall.Confined (s : FsRoot) (fresh : List UInt8) (c : SpiffsCall) : Prop :=
  (hostParse (s.root fresh).2).Below (hostParse (c.hostPath s fresh))

instance (s : FsRoot) (fresh : List UInt8) (c : SpiffsCall) : Decidable (c.Confined s fresh) :=
  inferInstanceAs (Decidable ((hostParse (s.root fresh).2).Below (hostParse (c.hostPath s fresh))))

/-- The climb that is left of a SPIFFS path once its leading separators are erased. -/
def SpiffsCall.climb (c : SpiffsCall) : Climb (List UInt8) :=
  Lexical.climb (parts slash dot (FsRoot.relative c.path))

/-! ## Reading a resolved path -/

theorem relative_head (path : List UInt8) : (FsRoot.relative path).head? ≠ some slash := by
  intro hhead
  have hstop := List.head?_dropWhile_not (fun c => c == slash || c == backslash) path
  rw [FsRoot.relative] at hhead
  rw [hhead] at hstop
  simp at hstop

theorem components_pathAppend {p q : List UInt8} (hq : q.head? ≠ some slash) :
    components slash dot (pathAppend p q) = components slash dot p ++ components slash dot q := by
  unfold pathAppend
  rw [if_neg hq]
  by_cases hempty : p = []
  · simp [hempty]
  · by_cases hlast : p.getLast? = some slash
    · rw [if_pos (.inr hlast)]
      obtain ⟨dir, rfl⟩ := List.getLast?_eq_some_iff.mp hlast
      rw [List.append_assoc, List.singleton_append, components_append_sep, components_append_sep]
      simp
    · rw [if_neg (by simp [hempty, hlast]), components_append_sep]

theorem parts_pathAppend {p q : List UInt8} (hq : q.head? ≠ some slash) :
    parts slash dot (pathAppend p q) = parts slash dot p ++ parts slash dot q := by
  rw [parts_eq, components_pathAppend hq, List.filterMap_append, ← parts_eq, ← parts_eq]

theorem absolute_pathAppend {p q : List UInt8} (hq : q.head? ≠ some slash) :
    (pathAppend p q).head? = some slash ↔ p.head? = some slash := by
  unfold pathAppend
  rw [if_neg hq]
  cases p with
  | nil => simp [hq]
  | cons c rest =>
      split <;> simp

theorem hostParse_pathAppend {p q : List UInt8} (hq : q.head? ≠ some slash) :
    hostParse (pathAppend p q) = (hostParse p).append (parts slash dot q) := by
  simp only [hostParse, parse, Path.append, parts_pathAppend hq, absolute_pathAppend hq]

theorem SpiffsCall.hostPath_eq (s : FsRoot) (fresh : List UInt8) (c : SpiffsCall) :
    c.hostPath s fresh = pathAppend (s.root fresh).2 (FsRoot.relative c.path) := rfl

/-! ## Confinement -/

/-- The path goes up past none of the names of `r`, or comes down through the same names again; and
if `r` is read from an unknown place, the path does not go up past all of its names. -/
def ReturnsTo (r : Path (List UInt8)) (c : Climb (List UInt8)) : Prop :=
  (r.absolute ∨ c.ups ≤ r.normal.names.length) ∧
    r.normal.names.drop (r.normal.names.length - c.ups) <+: c.names

instance (r : Path (List UInt8)) (c : Climb (List UInt8)) : Decidable (ReturnsTo r c) :=
  inferInstanceAs (Decidable (_ ∧ _))

/-- An operation stays inside the data directory exactly when its path, read for itself, comes back
to the names of that directory which it goes up past. -/
theorem spiffs_confined_iff (s : FsRoot) (fresh : List UInt8) (c : SpiffsCall) :
    c.Confined s fresh ↔ ReturnsTo (hostParse (s.root fresh).2) c.climb := by
  rw [SpiffsCall.Confined, c.hostPath_eq, hostParse_pathAppend (relative_head c.path)]
  exact Path.below_append_iff _ _

/-- Removing `/../x` with the data directory `/d` removes `/x`. -/
theorem spiffs_not_confined :
    ¬ ∀ (s : FsRoot) (fresh : List UInt8) (c : SpiffsCall), c.Confined s fresh := by
  intro hall
  exact absurd (hall ⟨[47, 100]⟩ [] (.remove (some [47, 46, 46, 47, 120]))) (by decide)

/-- A path without `..` stays inside whatever the data directory is. -/
theorem confined_of_flat {s : FsRoot} {fresh : List UInt8} {c : SpiffsCall}
    (h : Part.up ∉ parts slash dot (FsRoot.relative c.path)) : c.Confined s fresh := by
  rw [SpiffsCall.Confined, c.hostPath_eq, hostParse_pathAppend (relative_head c.path)]
  apply Path.below_append_of_ups
  exact climb_ups_of_not_mem h

end ZiModem.Hal
