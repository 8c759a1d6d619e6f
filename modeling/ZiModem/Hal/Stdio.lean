import Mathlib.Data.List.Basic

/-! # Streams of the C library

A `FILE` over a file that nothing else touches while it is open: what is in the
file, a position, and the end-of-file indicator, which a read past the end sets,
only positioning clears, and which makes every read fail while it is set.
Buffering does not show. There are no errors of the device.
-/

namespace ZiModem.Hal

structure Access where
  reads : Bool
  writes : Bool
  appends : Bool
  deriving DecidableEq, Repr

/-- `FILE`, with the name that the host has for the file. -/
structure Stdio where
  name : List (List UInt8)
  access : Access
  content : List UInt8
  pos : Nat
  eof : Bool
  deriving DecidableEq, Repr

namespace Stdio

/-- A directory that was opened: every read and write fails, and `fseek` finds its end at `size`. -/
def ofDirectory (name : List (List UInt8)) (size : Nat) : Stdio :=
  ⟨name, ⟨false, false, false⟩, List.replicate size 0, 0, false⟩

/-- Where `fopen` puts a stream: one that can only append is at the end. -/
def startPos (access : Access) (content : List UInt8) : Nat :=
  if access.appends = true ∧ access.reads = false then content.length else 0

variable (fp : Stdio)

/-- `fgetc`; `none` is `EOF`. -/
def fgetc : Stdio × Option UInt8 :=
  if fp.eof = true ∨ fp.access.reads = false then (fp, none)
  else
    match fp.content[fp.pos]? with
    | none => ({ fp with eof := true }, none)
    | some b => ({ fp with pos := fp.pos + 1 }, some b)

/-- `fread` of single bytes: `fgetc` until there are `n`, or no more. -/
def fread : Stdio → Nat → Stdio × List UInt8
  | fp, 0 => (fp, [])
  | fp, n + 1 =>
      match fp.fgetc with
      | (fp', none) => (fp', [])
      | (fp', some b) =>
          let (fp'', bytes) := fread fp' n
          (fp'', b :: bytes)

/-- `content` with `b` at `pos`; a gap before it is filled with zeros. -/
def overwrite (content : List UInt8) (pos : Nat) (b : UInt8) : List UInt8 :=
  content.take pos ++ List.replicate (pos - content.length) 0 ++ b :: content.drop (pos + 1)

/-- `fputc`, and whether it did not return `EOF`. -/
def fputc (b : UInt8) : Stdio × Bool :=
  if fp.access.writes = false then (fp, false)
  else
    let pos := if fp.access.appends then fp.content.length else fp.pos
    ({ fp with content := overwrite fp.content pos b, pos := pos + 1 }, true)

def ftell : Nat := fp.pos

def seekSet (pos : Nat) : Stdio := { fp with pos := pos, eof := false }

def seekEnd : Stdio := { fp with pos := fp.content.length, eof := false }

variable {fp}

theorem fputc_end (b : UInt8) (hwrites : fp.access.writes = true)
    (hpos : fp.pos = fp.content.length) :
    fp.fputc b =
      ({ fp with content := fp.content ++ [b], pos := fp.content.length + 1 }, true) := by
  simp [fputc, hwrites, hpos, overwrite]

/-- The same file, opened in the same way; only a stream that can write changes what is in it. -/
structure SameFile (fp fp' : Stdio) : Prop where
  name : fp'.name = fp.name
  access : fp'.access = fp.access
  content : fp.access.writes = false → fp'.content = fp.content

namespace SameFile

variable {fp fp' fp'' : Stdio}

theorem refl (fp : Stdio) : fp.SameFile fp := ⟨rfl, rfl, fun _ => rfl⟩

theorem trans (h : fp.SameFile fp') (h' : fp'.SameFile fp'') : fp.SameFile fp'' where
  name := h'.name.trans h.name
  access := h'.access.trans h.access
  content hreads := (h'.content (by rwa [h.access])).trans (h.content hreads)

theorem fgetc (fp : Stdio) : fp.SameFile fp.fgetc.1 := by
  unfold Stdio.fgetc
  split
  · exact refl fp
  · split <;> exact ⟨rfl, rfl, fun _ => rfl⟩

theorem fread (fp : Stdio) (n : Nat) : fp.SameFile (fp.fread n).1 := by
  induction n generalizing fp with
  | zero => exact refl fp
  | succ n ih =>
      have hnext := fgetc fp
      rw [Stdio.fread]
      split
      next hget => rwa [hget] at hnext
      next hget =>
        rw [hget] at hnext
        exact hnext.trans (ih _)

theorem fputc (fp : Stdio) (b : UInt8) : fp.SameFile (fp.fputc b).1 := by
  unfold Stdio.fputc
  split
  next => exact refl fp
  next hwrites => exact ⟨rfl, rfl, fun hreads => absurd hreads hwrites⟩

end SameFile

end Stdio

end ZiModem.Hal
