import ZiModem.Hal.Arduino.FS

/-! # Text through a file

A `String` is printed to a file that is open for writing, and read back with
`readString` once it is closed. Everything on the way keeps every byte, but
`print` takes the text as a C string.
-/

namespace ZiModem.Hal

namespace Spiffs

open DirTree

variable {s : Spiffs}

theorem fopen_isFile {text : List UInt8} {m : OpenMode} (hcreate : m.create = true)
    (h : (s.fopen text m).2 = true) : (s.fopen text m).1.IsFile text := by
  unfold fopen at h ⊢
  rw [if_pos hcreate] at h ⊢
  cases htarget : s.target text with
  | none => simp [htarget] at h
  | some q =>
      obtain ⟨p, n⟩ := q
      simp only [htarget] at h ⊢
      split at h
      next => cases h
      next hfree =>
        rw [if_neg hfree]
        obtain ⟨htrailing, hdir⟩ := not_or.mp hfree
        split at h
        next hfile =>
          rw [if_pos hfile]
          exact ⟨htrailing, (p, n), htarget, hfile⟩
        next hfile =>
          rw [if_neg hfile]
          split at h
          next hparent =>
            rw [if_pos hparent]
            refine ⟨htrailing, (p, n), ?_, DirTree.Tree.mem_files_addFile hparent hdir⟩
            exact (DirTree.Tree.target_congr (DirTree.Tree.dirs_addFile p n) _ _).trans htarget
          next => cases h

end Spiffs

namespace Arduino

theorem fileContent_eq {v : Volume} {path : Option (List UInt8)}
    (h : v.host.IsFile (v.host.hostPath path)) :
    v.fileContent path = v.contents (v.fileName path) := if_pos h.goto_mem

/-- Printing `s` to the file `path`, opened with `w` and closed afterwards; with what `print`
returns. -/
def writeText (v : Volume) (path : Option (List UInt8)) (s : WString) : Volume × Nat :=
  let (v₁, f) := v.open' path (some [119])
  let (f', n) := filePrint.printString f s
  ((v₁.close f').1, n)

def readText (v : Volume) (path : Option (List UInt8)) : WString :=
  (v.open' path (some [114])).2.readString.2

def Writing (name : List (List UInt8)) (f : File) : Prop :=
  ∃ fp, f.handle = some fp ∧ fp.name = name ∧ fp.access = ⟨false, true, false⟩ ∧
    fp.pos = fp.content.length

def written (f : File) : List UInt8 := f.handle.elim [] Stdio.content

theorem filePrint_accepting (name : List (List UInt8)) :
    filePrint.Accepting (Writing name) written := by
  apply Print.accepting_ofByte
  rintro f b ⟨fp, hhandle, hname, haccess, hpos⟩
  have hput := Stdio.fputc_end b (by rw [haccess]) hpos
  simp only [File.writeByte, hhandle, hput, written, Option.elim_some]
  refine ⟨⟨_, rfl, hname, haccess, ?_⟩, trivial, Nat.one_ne_zero⟩
  simp

theorem open_write {v : Volume} {path : Option (List UInt8)}
    (hopen : (v.open' path (some [119])).2.handle ≠ none) :
    (v.open' path (some [119])).1.host.IsFile (v.host.hostPath path) ∧
      (v.open' path (some [119])).1.host.root = v.host.root ∧
      (v.open' path (some [119])).1.host.cwd = v.host.cwd ∧
      Writing (v.fileName path) (v.open' path (some [119])).2 ∧
      written (v.open' path (some [119])).2 = [] := by
  have hmode : fopenMode (toBinaryFopenMode (some [119])) = some ⟨true, true, false⟩ := by decide
  have haccess : fopenAccess (toBinaryFopenMode (some [119])) = ⟨false, true, false⟩ := by decide
  have htruncates : (toBinaryFopenMode (some [119])).head? = some 119 := by decide
  obtain ⟨hroot, hcwd, -⟩ := Spiffs.open_disk (s := v.host) path (some [119])
  cases hhost : v.host.open' path (some [119]) with
  | mk host opened =>
      rw [hhost] at hroot hcwd
      cases opened with
      | false => simp [Volume.open', hhost] at hopen
      | true =>
          have hfopen : v.host.fopen (v.host.hostPath path) ⟨true, true, false⟩ =
              (host, true) := by
            rw [← hhost, Spiffs.open', hmode]
          have hfile : (v.host.fopen (v.host.hostPath path) ⟨true, true, false⟩).1.IsFile
              (v.host.hostPath path) := Spiffs.fopen_isFile rfl (by rw [hfopen])
          rw [hfopen] at hfile
          have hmem : v.fileName path ∈ host.disk.files := by
            have hgoto := hfile.goto_mem
            rwa [Spiffs.start, hcwd] at hgoto
          simp only [Volume.open', hhost, if_true, if_pos hmem, haccess, if_pos htruncates]
          exact ⟨hfile, hroot, hcwd, ⟨_, rfl, rfl, rfl, rfl⟩, rfl⟩

theorem printString_accepting {σ : Type*} {p : Print σ} {ready : σ → Prop}
    {emitted : σ → List UInt8} (haccept : p.Accepting ready emitted) {st : σ} (hst : ready st)
    (s : WString) :
    ready (p.printString st s).1 ∧
      emitted (p.printString st s).1 = emitted st ++ cString s.cStr ∧
      (p.printString st s).2 = (cString s.cStr).length :=
  ⟨haccept.keeps st _ hst, haccept.appends st _ hst, haccept.counts st _ hst⟩

/-- The file holds the C string of the text, and that is what is read back. -/
theorem readText_writeText {v : Volume} {path : Option (List UInt8)} (s : WString)
    (hopen : (v.open' path (some [119])).2.handle ≠ none) :
    readText (writeText v path s).1 path = ⟨cString s.cStr⟩ ∧
      (writeText v path s).2 = (cString s.cStr).length := by
  obtain ⟨hfile, hroot, hcwd, hwriting, hempty⟩ := open_write hopen
  obtain ⟨⟨fp, hhandle, hname, haccess, -⟩, hwritten, hcount⟩ :=
    printString_accepting (filePrint_accepting (v.fileName path)) hwriting s
  rw [hempty, List.nil_append, written, hhandle, Option.elim_some] at hwritten
  have hvolume : (writeText v path s).1 =
      { (v.open' path (some [119])).1 with
        contents := Function.update (v.open' path (some [119])).1.contents (v.fileName path)
          (cString s.cStr) } := by
    simp only [writeText, Volume.close, hhandle, haccess, if_true, hname, hwritten]
  have hpath : (writeText v path s).1.host.hostPath path = v.host.hostPath path := by
    rw [hvolume, Spiffs.hostPath_eq, Spiffs.hostPath_eq, hroot]
  have hfileName : (writeText v path s).1.fileName path = v.fileName path := by
    rw [Volume.fileName, hpath, Spiffs.start, hvolume, hcwd]
    rfl
  have hfile' : (writeText v path s).1.host.IsFile
      ((writeText v path s).1.host.hostPath path) := by
    rw [hpath, hvolume]
    exact hfile
  have hcontent : (writeText v path s).1.fileContent path = cString s.cStr := by
    rw [fileContent_eq hfile', hfileName, hvolume]
    exact Function.update_self _ _ _
  refine ⟨?_, hcount⟩
  rw [readText, (inStep_open hfile').readString.1, hcontent]

/-- A `String` comes back from a file unchanged, with its length returned by `print`, and is emitted
whole by whatever takes every byte, exactly if it has no NUL and its length fits `length()`. -/
theorem text_survives_iff {v : Volume} {path : Option (List UInt8)} (s : WString)
    (hopen : (v.open' path (some [119])).2.handle ≠ none) {σ : Type*} {p : Print σ}
    {ready : σ → Prop} {emitted : σ → List UInt8} (haccept : p.Accepting ready emitted) {st : σ}
    (hst : ready st) :
    (readText (writeText v path s).1 path = s ∧ (writeText v path s).2 = s.length.toNat ∧
        ∃ out, emitted (p.printString st s).1 = emitted st ++ out ∧
          out.length = s.length.toNat) ↔
      0 ∉ s.value ∧ s.value.length < 4294967296 := by
  obtain ⟨hread, hcount⟩ := readText_writeText s hopen
  have hemitted := (printString_accepting haccept hst s).2.1
  rw [hread, hcount]
  constructor
  · rintro ⟨htext, hlength, -⟩
    have hwhole : cString s.cStr = s.value := congrArg WString.value htext
    refine ⟨WString.cString_eq_self_iff.mp hwhole, ?_⟩
    rw [← hwhole, hlength]
    exact s.length.toNat_lt
  · rintro ⟨hnul, hfits⟩
    have hwhole : cString s.cStr = s.value := WString.cString_eq_self_iff.mpr hnul
    have hlength : s.length.toNat = s.value.length := UInt32.toNat_ofNat_of_lt' hfits
    rw [hwhole, hlength]
    exact ⟨rfl, rfl, s.value, by rw [hemitted, hwhole], rfl⟩

/-- `Hi` through a file of `smallVolume`, and to a file. -/
theorem text_survives_hi :
    (readText (writeText smallVolume (some [47, 120]) ⟨[72, 105]⟩).1 (some [47, 120]) =
          ⟨[72, 105]⟩ ∧
        (writeText smallVolume (some [47, 120]) ⟨[72, 105]⟩).2 =
          (WString.mk [72, 105]).length.toNat ∧
        ∃ out, written (filePrint.printString ⟨some ⟨[], ⟨false, true, false⟩, [], 0, false⟩, []⟩
            ⟨[72, 105]⟩).1 =
          written ⟨some ⟨[], ⟨false, true, false⟩, [], 0, false⟩, []⟩ ++ out ∧
          out.length = (WString.mk [72, 105]).length.toNat) ↔
      (0 : UInt8) ∉ [72, 105] ∧ [72, 105].length < 4294967296 :=
  have hopen : (smallVolume.open' (some [47, 120]) (some [119])).2.handle ≠ none := by decide
  text_survives_iff ⟨[72, 105]⟩ hopen (filePrint_accepting []) ⟨_, rfl, rfl, rfl, rfl⟩

/-- A text with a NUL in it loses what is behind the NUL. -/
theorem not_text_survives :
    ¬ ∀ (v : Volume) (path : Option (List UInt8)) (s : WString),
      (v.open' path (some [119])).2.handle ≠ none →
      readText (writeText v path s).1 path = s := by
  intro hall
  have hopen : (smallVolume.open' (some [47, 120]) (some [119])).2.handle ≠ none := by decide
  have hread := hall smallVolume (some [47, 120])
    (((WString.mk []).appendChar 97).appendChar 0) hopen
  rw [(readText_writeText _ hopen).1] at hread
  revert hread
  decide

end Arduino

end ZiModem.Hal
