import Mathlib.Logic.Function.Basic
import ZiModem.Patching.LinePatch
import ZiModem.Vendoring.Series

/-! # The vendoring tool

`vendor` replays the patches of `SERIES` on a fresh copy of the submodule;
`new-patch` writes down the difference between a fresh copy and the vendored tree
as it stands, and adds it to the end of the series. A tree has the contents of its
files, line by line; a patch is what its text says of them. What git does is a
parameter, and so is what becomes of a line of its output on the way through
a string into a file. A name of the series stands for a file of the patch
directory other than `SERIES` itself.
-/

namespace ZiModem.Vendoring

open LinePatch

/-! ## Trees and their copies -/

/-- The bytes of a line, with the line feed that ends it if there is one. -/
abbrev Line := List UInt8

abbrev FilePath := List (List Char)

abbrev Files := LinePatch.Tree FilePath Line

def textSourceExtensions : List (List Char) :=
  [['.', 'i', 'n', 'o'], ['.', 'h'], ['.', 'h', 'p', 'p'], ['.', 'c'], ['.', 'c', 'p', 'p'],
    ['.', 'c', 'c'], ['.', 'c', 'x', 'x']]

/-- `Path.GetExtension`: from the last dot on, unless nothing follows it. -/
def getExtension (name : List Char) : List Char :=
  let ext := name.rtakeWhile (· != '.')
  if ext = [] ∨ ext = name then [] else '.' :: ext

def isTextSource (path : FilePath) : Bool :=
  path.getLast?.any fun name => textSourceExtensions.contains ((getExtension name).map Char.toLower)

/-- `NormalizeToLf`, on one line: a carriage return goes that stands right before the line feed. -/
def normalizeToLf (line : Line) : Line :=
  match line.reverse with
  | 10 :: 13 :: rest => rest.reverse ++ [10]
  | _ => line

def copyExcludingGit (source : Files) : Files := fun path =>
  if ['.', 'g', 'i', 't'] ∈ path then none
  else if isTextSource path then (source path).map (List.map normalizeToLf)
  else source path

/-! ## The commands -/

/-- `git diff --no-index` (which shows a patch, or fails) and `git apply`; what reading git's output
as text and writing it to a file again makes of a line; and `Path.Combine` with the patch
directory. -/
structure Env (φ : Type*) where
  diff : Files → Files → Option (Patch FilePath Line)
  apply : Patch FilePath Line → Files → Option Files
  recode : Line → Line
  combine : List Char → φ

/-- The submodule, the vendored tree, the text of `SERIES` and the patch files. -/
structure Repo (φ : Type*) where
  submodule : Option Files
  vendorDir : Option Files
  series : Option (List Char)
  patchFile : φ → Option (Patch FilePath Line)

def register (series : Option (List Char)) (patchName : List Char) : Option (List Char) :=
  if patchName ∈ readSeries series then series
  else some (series.getD [] ++ patchName ++ ['\n'])

namespace Env

variable {φ : Type*} (env : Env φ)

/-- `Replace("\\r\\n", "\\n")`, on one line that a patch shows: every such line ends in a line feed
there, also the last one of a file without. -/
def replaceCrLf (line : Line) : Line :=
  match line.reverse with
  | 10 :: 13 :: rest => rest.reverse ++ [10]
  | 13 :: rest => rest.reverse
  | _ => line

def record (line : Line) : Line := replaceCrLf (env.recode line)

/-- The loop of `Vendor`, with the tree it leaves and whether it went through. -/
def applySeries (patchFile : φ → Option (Patch FilePath Line)) :
    List (List Char) → Files → Files × Bool
  | [], files => (files, true)
  | patchName :: rest, files =>
      match patchFile (env.combine patchName) with
      | none => (files, false)
      | some patch =>
          match env.apply patch files with
          | none => (files, false)
          | some files => applySeries patchFile rest files

/-- `Vendor`, and its exit code. -/
def vendor (r : Repo φ) : Repo φ × Option Nat :=
  match r.submodule with
  | none => (r, some 1)
  | some source =>
      let (files, ok) :=
        env.applySeries r.patchFile (readSeries r.series) (copyExcludingGit source)
      ({ r with vendorDir := some files }, some (if ok then 0 else 1))

variable [DecidableEq φ]

/-- `NewPatch`, and its exit code; `none` when an exception leaves it. -/
def newPatch (r : Repo φ) (patchName : List Char) : Repo φ × Option Nat :=
  match r.vendorDir with
  | none => (r, some 1)
  | some edited =>
      match r.submodule with
      | none => (r, none)
      | some source =>
          match env.diff (copyExcludingGit source) edited with
          | none => (r, some 1)
          | some patch =>
              if patch.entries = [] then (r, some 1)
              else
                let r := { r with
                  patchFile := Function.update r.patchFile (env.combine patchName)
                    (some (patch.map env.record)) }
                if patchName ∈ readSeries r.series then (r, some 0)
                else ({ r with series := some (r.series.getD [] ++ patchName ++ ['\n']) }, some 0)

/-- What is relied on of git: a difference shows lines that take one tree to the other, and a patch
applies to the trees that have the lines which it shows, where it shows them. -/
structure Git (env : Env φ) : Prop where
  diff_apply : ∀ A B patch, env.diff A B = some patch → patch.apply A = some B
  apply_lines : ∀ patch A, env.apply patch A = patch.apply A

structure NewName (r : Repo φ) (name : List Char) : Prop where
  wellFormed : WellFormed name
  unlisted : ∀ n ∈ readSeries r.series, env.combine n ≠ env.combine name

def Rebuilds (r : Repo φ) (edited : Files) : Prop :=
  (env.vendor r).2 = some 0 ∧ (env.vendor r).1.vendorDir = some edited

end Env

end ZiModem.Vendoring
