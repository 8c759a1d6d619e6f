import ZiModem.Hal.CInt
import ZiModem.Hal.Spiffs
import ZiModem.Hal.Stdio
import ZiModem.Hal.Arduino.Print

/-! # `File`

`FS.h` over the streams of the C library. The observers move the position of the
stream and put it back: `peek` reads a byte, `available` and `size` go to the end.
A reader cannot tell: calls of a `File` that is open for reading answer as a
cursor over the content does.
-/

namespace ZiModem.Hal.Arduino

open Reactive DirTree

structure File where
  handle : Option Stdio
  path : List UInt8
  deriving DecidableEq, Repr

def charInt : Option UInt8 → Int
  | none => -1
  | some b => b.toNat

namespace File

def totalSize (fp : Stdio) : Stdio × Nat :=
  let cur := fp.ftell
  let fp := fp.seekEnd
  let size := fp.ftell
  (fp.seekSet cur, size)

variable (f : File)

def available : File × Int :=
  match f.handle with
  | none => (f, 0)
  | some fp =>
      let (fp, size) := totalSize fp
      ({ f with handle := some fp }, toInt (size - fp.ftell))

def read : File × Int :=
  match f.handle with
  | none => (f, -1)
  | some fp =>
      let (fp, c) := fp.fgetc
      ({ f with handle := some fp }, charInt c)

def peek : File × Int :=
  match f.handle with
  | none => (f, -1)
  | some fp =>
      let cur := fp.ftell
      let (fp, c) := fp.fgetc
      ({ f with handle := some (fp.seekSet cur) }, charInt c)

/-- `read(buf, size)`, with the bytes it stored. -/
def readBuf (size : Nat) : File × Int × List UInt8 :=
  match f.handle with
  | none => (f, 0, [])
  | some fp =>
      let (fp, bytes) := fp.fread size
      ({ f with handle := some fp }, toInt bytes.length, bytes)

def size : File × Nat :=
  match f.handle with
  | none => (f, 0)
  | some fp =>
      let (fp, size) := totalSize fp
      ({ f with handle := some fp }, size)

/-- `write(uint8_t)`. -/
def writeByte (b : UInt8) : File × Nat :=
  match f.handle with
  | none => (f, 0)
  | some fp =>
      let (fp, taken) := fp.fputc b
      ({ f with handle := some fp }, if taken then 1 else 0)

def unread : Nat :=
  match f.handle with
  | none => 0
  | some fp => fp.content.length - fp.pos

theorem read_unread (h : 0 ≤ f.read.2) : f.read.1.unread < f.unread := by
  unfold read at h ⊢
  cases hhandle : f.handle with
  | none => simp [hhandle] at h
  | some fp =>
      simp only [hhandle, Stdio.fgetc] at h ⊢
      split at h
      next => simp [charInt] at h
      next hopen =>
        rw [if_neg hopen]
        cases hbyte : fp.content[fp.pos]? with
        | none => simp [hbyte, charInt] at h
        | some b =>
            obtain ⟨hpos, -⟩ := List.getElem?_eq_some_iff.mp hbyte
            simp only [unread, hhandle]
            omega

def readStringLoop (f : File) (result : WString) : File × WString :=
  if _ : 0 ≤ f.read.2 then
    readStringLoop f.read.1 (result.appendChar (.ofNat f.read.2.toNat))
  else (f.read.1, result)
termination_by f.unread
decreasing_by exact f.read_unread ‹_›

def readString : File × WString := readStringLoop f ⟨[]⟩

end File

def filePrint : Print File := .ofByte File.writeByte

/-! ## Opening and closing -/

/-- How `fopen` opens a stream, by the first byte of the mode and a `+`. -/
def fopenAccess : List UInt8 → Access
  | [] => ⟨false, false, false⟩
  | c :: rest =>
      ⟨decide (c = 114 ∨ 43 ∈ rest), decide (c ≠ 114 ∨ 43 ∈ rest), decide (c = 97)⟩

/-- The host with what is in its files, and where the end of a directory is that is opened as a
file, which its file system decides. -/
structure Volume where
  host : Spiffs
  contents : List (List UInt8) → List UInt8
  dirEnd : List (List UInt8) → Nat

namespace Volume

variable (v : Volume) (path : Option (List UInt8))

def fileName : List (List UInt8) :=
  goto (v.host.start (v.host.hostPath path)) (components slash dot (v.host.hostPath path))

/-- What is in the file that the path leads to, if it leads to one. -/
def fileContent : List UInt8 :=
  if v.fileName path ∈ v.host.disk.files then v.contents (v.fileName path) else []

def open' (mode : Option (List UInt8)) : Volume × File :=
  let (host, opened) := v.host.open' path mode
  if opened then
    let m := toBinaryFopenMode mode
    let name := v.fileName path
    if name ∈ host.disk.files then
      let content := if m.head? = some 119 then [] else v.fileContent path
      let access := fopenAccess m
      ({ v with host := host, contents := Function.update v.contents name content },
        ⟨some ⟨name, access, content, Stdio.startPos access content, false⟩, path.getD []⟩)
    else ({ v with host := host }, ⟨some (.ofDirectory name (v.dirEnd name)), path.getD []⟩)
  else ({ v with host := host }, ⟨none, path.getD []⟩)

/-- `File::close`: what was written is in the file. -/
def close (f : File) : Volume × File :=
  match f.handle with
  | none => (v, f)
  | some fp =>
      (if fp.access.writes then { v with contents := Function.update v.contents fp.name fp.content }
        else v,
        { f with handle := none })

end Volume

/-! ## A cursor -/

structure Cursor where
  past : List UInt8
  left : List UInt8
  deriving DecidableEq, Repr

namespace Cursor

variable (c : Cursor)

def text : List UInt8 := c.past ++ c.left

def advance (n : Nat) : Cursor := ⟨c.past ++ c.left.take n, c.left.drop n⟩

theorem text_advance (n : Nat) : (c.advance n).text = c.text := by
  simp [text, advance]

end Cursor

inductive FileCall
  | read
  | readBuf (size : Nat)
  | peek
  | available
  | size
  | readString
  deriving DecidableEq, Repr

inductive FileReply
  | int (n : Int)
  | bytes (ret : Int) (buf : List UInt8)
  | size (n : Nat)
  | text (s : WString)
  deriving DecidableEq, Repr

def File.call (f : File) : FileCall → File × FileReply
  | .read => (f.read.1, .int f.read.2)
  | .readBuf size => ((f.readBuf size).1, .bytes (f.readBuf size).2.1 (f.readBuf size).2.2)
  | .peek => (f.peek.1, .int f.peek.2)
  | .available => (f.available.1, .int f.available.2)
  | .size => (f.size.1, .size f.size.2)
  | .readString => (f.readString.1, .text f.readString.2)

def Cursor.call (c : Cursor) : FileCall → Cursor × FileReply
  | .read => (c.advance 1, .int (charInt c.left.head?))
  | .readBuf size => (c.advance size, .bytes (c.left.take size).length (c.left.take size))
  | .peek => (c, .int (charInt c.left.head?))
  | .available => (c, .int c.left.length)
  | .size => (c, .size c.text.length)
  | .readString => (c.advance c.left.length, .text ⟨c.left⟩)

theorem Cursor.text_call (c : Cursor) (a : FileCall) : (c.call a).1.text = c.text := by
  cases a with
  | read | readBuf | readString => exact c.text_advance _
  | peek | available | size => rfl

def file : Machine File FileCall FileReply := ⟨fun f a => some (f.call a)⟩

def cursor : Machine Cursor FileCall FileReply := ⟨fun c a => some (c.call a)⟩

/-! ## The stream stands where the cursor does -/

structure StreamAt (fp : Stdio) (c : Cursor) : Prop where
  reads : fp.access.reads = true
  content : fp.content = c.past ++ c.left
  pos : fp.pos = c.past.length
  eof : fp.eof = true → c.left = []

def InStep (f : File) (c : Cursor) : Prop := ∃ fp, f.handle = some fp ∧ StreamAt fp c

variable {fp : Stdio} {f : File} {c : Cursor}

theorem StreamAt.fgetc (h : StreamAt fp c) :
    fp.fgetc.2 = c.left.head? ∧ StreamAt fp.fgetc.1 (c.advance 1) := by
  obtain ⟨past, left⟩ := c
  have hbyte : fp.content[fp.pos]? = left.head? := by
    rw [h.content, h.pos, List.getElem?_append_right (Nat.le_refl _), Nat.sub_self,
      List.head?_eq_getElem?]
  unfold Stdio.fgetc
  cases left with
  | nil =>
      have hend : (Cursor.mk past []).advance 1 = ⟨past, []⟩ := by simp [Cursor.advance]
      rw [hbyte, hend]
      split
      · exact ⟨rfl, h⟩
      · exact ⟨rfl, h.reads, h.content, h.pos, fun _ => rfl⟩
  | cons b left =>
      have hopen : ¬ (fp.eof = true ∨ fp.access.reads = false) := by
        rw [h.reads]
        rintro (heof | hreads)
        · cases h.eof heof
        · cases hreads
      rw [if_neg hopen, hbyte]
      refine ⟨rfl, h.reads, ?_, ?_, ?_⟩
      · simpa [Cursor.advance] using h.content
      · simpa [Cursor.advance] using h.pos
      · exact fun heof => absurd (.inl heof) hopen

theorem StreamAt.fread (h : StreamAt fp c) (n : Nat) :
    (fp.fread n).2 = c.left.take n ∧ StreamAt (fp.fread n).1 (c.advance n) := by
  induction n generalizing fp c with
  | zero => exact ⟨rfl, by simpa [Stdio.fread, Cursor.advance] using h⟩
  | succ n ih =>
      obtain ⟨past, left⟩ := c
      obtain ⟨hbyte, hnext⟩ := h.fgetc
      cases hget : fp.fgetc with
      | mk fp' byte =>
          rw [hget] at hbyte hnext
          simp only [Stdio.fread, hget]
          cases left with
          | nil =>
              obtain rfl : byte = none := hbyte
              exact ⟨rfl, by simpa [Cursor.advance] using hnext⟩
          | cons b left =>
              obtain rfl : byte = some b := hbyte
              obtain ⟨hbytes, hafter⟩ := ih hnext
              refine ⟨?_, ?_⟩
              · simpa [Cursor.advance] using hbytes
              · simpa [Cursor.advance] using hafter

theorem StreamAt.seekSet (h : StreamAt fp c) {fp' : Stdio} (haccess : fp'.access = fp.access)
    (hcontent : fp'.content = fp.content) : StreamAt (fp'.seekSet fp.ftell) c where
  reads := by rw [← h.reads, ← haccess]; rfl
  content := hcontent.trans h.content
  pos := h.pos
  eof := fun heof => absurd heof Bool.false_ne_true

theorem fgetc_kept (fp : Stdio) :
    fp.fgetc.1.access = fp.access ∧ fp.fgetc.1.content = fp.content := by
  unfold Stdio.fgetc
  split
  · exact ⟨rfl, rfl⟩
  · split
    · exact ⟨rfl, rfl⟩
    · exact ⟨rfl, rfl⟩

theorem StreamAt.totalSize (h : StreamAt fp c) :
    StreamAt (File.totalSize fp).1 c ∧ (File.totalSize fp).2 = c.text.length :=
  ⟨h.seekSet rfl rfl, congrArg List.length h.content⟩

/-! ## Calls in step -/

theorem InStep.read (h : InStep f c) :
    f.read.2 = charInt c.left.head? ∧ InStep f.read.1 (c.advance 1) := by
  obtain ⟨fp, hhandle, hat⟩ := h
  obtain ⟨hbyte, hnext⟩ := hat.fgetc
  simp only [File.read, hhandle]
  exact ⟨congrArg charInt hbyte, _, rfl, hnext⟩

theorem InStep.readString (h : InStep f c) :
    f.readString.2 = ⟨c.left⟩ ∧ InStep f.readString.1 (c.advance c.left.length) := by
  suffices hloop : ∀ left past f result, InStep f ⟨past, left⟩ →
      (f.readStringLoop result).2 = ⟨result.value ++ left⟩ ∧
        InStep (f.readStringLoop result).1 ⟨past ++ left, []⟩ by
    obtain ⟨htext, hend⟩ := hloop c.left c.past f ⟨[]⟩ h
    exact ⟨htext, by simpa [Cursor.advance, File.readString] using hend⟩
  intro left
  induction left with
  | nil =>
      intro past f result h
      obtain ⟨hread, hnext⟩ := h.read
      rw [File.readStringLoop, hread, dif_neg (by simp [charInt])]
      exact ⟨by simp, by simpa [Cursor.advance] using hnext⟩
  | cons b left ih =>
      intro past f result h
      obtain ⟨hread, hnext⟩ := h.read
      obtain ⟨htext, hend⟩ := ih (past ++ [b]) f.read.1 (result.appendChar b) hnext
      rw [File.readStringLoop, hread, dif_pos (by simp [charInt])]
      simp only [List.head?_cons, charInt, Int.toNat_natCast, UInt8.ofNat_toNat]
      rw [htext]
      refine ⟨?_, ?_⟩
      · simp [WString.appendChar]
      · simpa using hend

/-- Every call answers as the cursor does, in a file whose length an `int` can hold. -/
theorem InStep.call (h : InStep f c) (hfits : (c.text.length : Int) ≤ intMax) (a : FileCall) :
    (f.call a).2 = (c.call a).2 ∧ InStep (f.call a).1 (c.call a).1 := by
  obtain ⟨fp, hhandle, hat⟩ := id h
  rw [Cursor.text, List.length_append] at hfits
  push_cast at hfits
  cases a with
  | read => exact ⟨congrArg FileReply.int h.read.1, h.read.2⟩
  | readBuf size =>
      obtain ⟨hbytes, hnext⟩ := hat.fread size
      have hcount : toInt ((c.left.take size).length : Int) = (c.left.take size).length := by
        apply toInt_natCast
        rw [List.length_take]
        omega
      simp only [File.call, File.readBuf, hhandle, Cursor.call, hbytes, hcount]
      exact ⟨trivial, _, rfl, hnext⟩
  | peek =>
      obtain ⟨hbyte, -⟩ := hat.fgetc
      simp only [File.call, File.peek, hhandle, Cursor.call, hbyte]
      exact ⟨trivial, _, rfl, hat.seekSet (fgetc_kept fp).1 (fgetc_kept fp).2⟩
  | available =>
      obtain ⟨hsame, hsize⟩ := hat.totalSize
      have hleft : (c.text.length : Int) - (File.totalSize fp).1.ftell = c.left.length := by
        rw [Stdio.ftell, hsame.pos, Cursor.text, List.length_append]
        omega
      have hint : toInt (c.left.length : Int) = c.left.length := toInt_natCast (by omega)
      simp only [File.call, File.available, hhandle, Cursor.call, hsize, hleft, hint]
      exact ⟨trivial, _, rfl, hsame⟩
  | size =>
      obtain ⟨hsame, hsize⟩ := hat.totalSize
      simp only [File.call, File.size, hhandle, Cursor.call, hsize]
      exact ⟨trivial, _, rfl, hsame⟩
  | readString =>
      obtain ⟨htext, hend⟩ := h.readString
      exact ⟨congrArg FileReply.text htext, hend⟩

theorem inStep_step (h : InStep f c) (hfits : (c.text.length : Int) ≤ intMax) (a : FileCall) :
    ∃ f' c' o, file.step f a = some (f', o) ∧ cursor.step c a = some (c', o) ∧
      InStep f' c' ∧ (c'.text.length : Int) ≤ intMax := by
  obtain ⟨hreply, hnext⟩ := h.call hfits a
  refine ⟨(f.call a).1, (c.call a).1, (f.call a).2, rfl, ?_, hnext, ?_⟩
  · rw [hreply]
    rfl
  · rwa [c.text_call]

/-! ## Reading a file -/

theorem open_read {v : Volume} {path : Option (List UInt8)}
    (hfile : v.host.IsFile (v.host.hostPath path)) :
    (v.open' path (some [114])).2 =
      ⟨some ⟨v.fileName path, ⟨true, false, false⟩, v.fileContent path, 0, false⟩,
        path.getD []⟩ := by
  have hmode : fopenMode (toBinaryFopenMode (some [114])) = some ⟨false, false, false⟩ := by decide
  have haccess : fopenAccess (toBinaryFopenMode (some [114])) = ⟨true, false, false⟩ := by decide
  have hopened : v.host.open' path (some [114]) = (v.host, true) := by
    simp [Spiffs.open', hmode, Spiffs.fopen, hfile]
  have hkept : ¬ (toBinaryFopenMode (some [114])).head? = some 119 := by decide
  have hstart : ∀ content, Stdio.startPos ⟨true, false, false⟩ content = 0 := fun _ => rfl
  have hmem : v.fileName path ∈ v.host.disk.files := hfile.goto_mem
  simp only [Volume.open', hopened, if_true, if_pos hmem, haccess, if_neg hkept, hstart]

theorem inStep_open {v : Volume} {path : Option (List UInt8)}
    (hfile : v.host.IsFile (v.host.hostPath path)) :
    InStep (v.open' path (some [114])).2 ⟨[], v.fileContent path⟩ := by
  rw [open_read hfile]
  exact ⟨_, rfl, rfl, rfl, rfl, fun heof => absurd heof Bool.false_ne_true⟩

/-- A file of less than 2 GiB that is opened for reading answers every sequence of calls as a cursor
at the start of its content does. -/
theorem file_reads_as_cursor (v : Volume) (path : Option (List UInt8))
    (hfile : v.host.IsFile (v.host.hostPath path))
    (hsize : (v.fileContent path).length < 2147483648) (as : List FileCall) :
    ∃ f c os, file.run (v.open' path (some [114])).2 as = some (f, os) ∧
      cursor.run ⟨[], v.fileContent path⟩ as = some (c, os) := by
  have hfits : ((v.fileContent path).length : Int) ≤ intMax := by
    simp only [intMax]
    omega
  obtain ⟨f, c, os, hf, hc, -⟩ := Machine.run_lockstep (M := file) (N := cursor)
    (fun f c a h => inStep_step h.1 h.2 a) as ⟨inStep_open hfile, hfits⟩
  exact ⟨f, c, os, hf, hc⟩

def smallVolume : Volume :=
  ⟨(Spiffs.emptyRoot.open' (some [47, 120]) (some [119])).1, fun _ => [65, 66], fun _ => 0⟩

theorem file_reads_as_cursor_small :
    ∃ f c os, file.run (smallVolume.open' (some [47, 120]) (some [114])).2
        [.available, .read, .peek, .size, .read, .read, .available, .readString] =
          some (f, os) ∧
      cursor.run ⟨[], smallVolume.fileContent (some [47, 120])⟩
        [.available, .read, .peek, .size, .read, .read, .available, .readString] = some (c, os) :=
  file_reads_as_cursor smallVolume (some [47, 120]) (by decide) (by decide) _

end ZiModem.Hal.Arduino
