import Mathlib.Data.Fintype.Basic
import ZiModem.Hal.Arduino.FS
import ZiModem.Reactive.Resources

/-! # Who closes a file

A `File` has its `FILE *` to itself: it cannot be copied, a move leaves nothing
behind, and what is held is given back by `close`, by an assignment and by the
destructor. The streams are in a table of the C library that every pointer leads
into, and what one of them writes is found by all that are open on the same file.
Where no file is open for writing and a second time, the streams may be thought of
as inside the files, each with a content of its own.
-/

namespace ZiModem.Hal.Arduino

open Reactive

structure FileObject (ν : Type*) where
  handle : Option ν
  path : List UInt8
  deriving DecidableEq, Repr

/-- The files `κ`, and the open streams by their pointers, each with what is in its file. -/
structure Files (κ ν : Type*) where
  object : κ → Option (FileObject ν)
  stream : ν → Option Stdio

inductive FileMember
  | isOpen
  | call (c : FileCall)
  | writeByte (b : UInt8)
  | writeBuffer (buffer : List UInt8)
  | flush
  | name
  deriving DecidableEq, Repr

inductive FileAnswer
  | done
  | bool (b : Bool)
  | reply (r : FileReply)
  | closed (fp : Option Stdio)
  deriving DecidableEq, Repr

namespace FileMember

def apply : FileMember → File → File × FileAnswer
  | isOpen, f => (f, .bool f.handle.isSome)
  | call c, f => ((f.call c).1, .reply (f.call c).2)
  | writeByte b, f => ((f.writeByte b).1, .reply (.size (f.writeByte b).2))
  | writeBuffer buffer, f =>
      ((filePrint.writeBuffer f buffer).1, .reply (.size (filePrint.writeBuffer f buffer).2))
  | flush, f => (f, .done)
  | name, f => (f, .reply (.text (.ofCString (some (f.path ++ [0])))))

def usesStream : FileMember → Bool
  | isOpen | name => false
  | writeBuffer buffer => !buffer.isEmpty
  | call _ | writeByte _ | flush => true

end FileMember

/-- `fp` is what `fopen` returned. `left` is what the path of a file that was moved from has become,
which the standard leaves open. -/
inductive FileAction (κ ν : Type*)
  | construct (k : κ)
  | opened (k : κ) (path : List UInt8) (fp : Option (ν × Stdio))
  | moveConstruct (k other : κ) (left : List UInt8)
  | moveAssign (k other : κ) (left : List UInt8)
  | close (k : κ)
  | destroy (k : κ)
  | call (k : κ) (m : FileMember)
  deriving DecidableEq, Repr

/-- What a step answers, and the pointers that went to and from the C library. -/
structure FileEvent (ν : Type*) where
  answer : FileAnswer
  calls : List (Use ν)
  deriving DecidableEq, Repr

namespace Files

variable {κ ν : Type*}

def initial : Files κ ν := ⟨fun _ => none, fun _ => none⟩

/-- What a member function finds behind `handle_`. A stream that is closed already is no stream. -/
def load (s : Files κ ν) (o : FileObject ν) : File := ⟨o.handle.bind s.stream, o.path⟩

def holds (s : Files κ ν) (k : κ) : Option ν := (s.object k).bind FileObject.handle

def live (s : Files κ ν) (n : ν) : Bool := (s.stream n).isSome

variable [DecidableEq κ] [DecidableEq ν]

def set (s : Files κ ν) (k : κ) (o : Option (FileObject ν)) : Files κ ν :=
  { s with object := Function.update s.object k o }

/-- What a stream has left in its file is in it for the others as well. -/
def share (s : Files κ ν) (fp : Stdio) : Files κ ν :=
  { s with stream := fun n => (s.stream n).map fun fp' =>
      if fp'.name = fp.name then { fp' with content := fp.content } else fp' }

def setStream (s : Files κ ν) (n : ν) (fp : Option Stdio) : Files κ ν :=
  { s with stream := Function.update s.stream n fp }

def store (s : Files κ ν) (o : FileObject ν) (f : File) : Files κ ν :=
  match o.handle, f.handle with
  | some n, some fp => (s.setStream n (some fp)).share fp
  | _, _ => s

def close (s : Files κ ν) (k : κ) (o : FileObject ν) : Files κ ν × FileEvent ν :=
  match o.handle with
  | none => (s, ⟨.closed none, []⟩)
  | some n =>
      (⟨Function.update s.object k (some ⟨none, o.path⟩), Function.update s.stream n none⟩,
        ⟨.closed (s.stream n), [.release n]⟩)

/-- `operator=(File&&)` of the file `o` at `k` from the file `o'` at `other`. -/
def assign (s : Files κ ν) (k : κ) (o : FileObject ν) (other : κ) (o' : FileObject ν)
    (left : List UInt8) : Files κ ν × FileEvent ν :=
  if k = other then (s, ⟨.closed none, []⟩)
  else
    let (s₁, e) := s.close k o
    ((s₁.set k (some o')).set other (some ⟨none, left⟩), e)

def step (s : Files κ ν) : FileAction κ ν → Option (Files κ ν × FileEvent ν)
  | .construct k =>
      match s.object k with
      | none => some (s.set k (some ⟨none, []⟩), ⟨.done, []⟩)
      | some _ => none
  | .opened k path fp =>
      match s.object k, fp with
      | none, none => some (s.set k (some ⟨none, path⟩), ⟨.done, []⟩)
      | none, some (n, fp) =>
          match s.stream n with
          | none =>
              some (((s.setStream n (some fp)).share fp).set k (some ⟨some n, path⟩),
                ⟨.done, [.acquire n]⟩)
          | some _ => none  -- the pointer of another open stream
      | some _, _ => none
  | .moveConstruct k other left =>
      match s.object k, s.object other with
      | none, some o' =>
          -- `*this = std::move(other)` on a file with the initializers of its members
          some ((s.set k (some ⟨none, []⟩)).assign k ⟨none, []⟩ other o' left)
      | _, _ => none
  | .moveAssign k other left =>
      match s.object k, s.object other with
      | some o, some o' => some (s.assign k o other o' left)
      | _, _ => none
  | .close k =>
      match s.object k with
      | some o => some (s.close k o)
      | none => none
  | .destroy k =>
      match s.object k with
      | some o => some ((s.close k o).1.set k none, (s.close k o).2)
      | none => none
  | .call k m =>
      match s.object k with
      | some o =>
          let (f, answer) := m.apply (s.load o)
          some (s.store o f, ⟨answer, if m.usesStream then o.handle.toList.map .use else []⟩)
      | none => none

/-- No file is opened a second time if either stream can write to it; and nobody else writes to a
file that is open. -/
def Unshared (s : Files κ ν) : FileAction κ ν → Prop
  | .opened _ _ (some (_, fp)) => ∀ n, ∀ fp' ∈ s.stream n, fp'.name = fp.name →
      fp'.access.writes = false ∧ fp.access.writes = false ∧ fp'.content = fp.content
  | _ => True

instance [Fintype ν] (s : Files κ ν) : DecidablePred s.Unshared
  | .opened _ _ (some (_, fp)) => inferInstanceAs (Decidable (∀ n, ∀ fp' ∈ s.stream n,
      fp'.name = fp.name →
        fp'.access.writes = false ∧ fp.access.writes = false ∧ fp'.content = fp.content))
  | .opened _ _ none | .construct _ | .moveConstruct _ _ _ | .moveAssign _ _ _ | .close _
  | .destroy _ | .call _ _ => .isTrue trivial

end Files

def files (κ ν : Type*) [DecidableEq κ] [DecidableEq ν] :
    Machine (Files κ ν) (FileAction κ ν) (FileEvent ν) := ⟨Files.step⟩

/-! ## Files as values -/

/-- Files that have their streams inside, so that no two can have the same one. -/
abbrev FileValues (κ : Type*) := κ → Option File

namespace FileValues

variable {κ ν : Type*} [DecidableEq κ]

def close (vs : FileValues κ) (k : κ) (f : File) : FileValues κ × FileAnswer :=
  (Function.update vs k (some { f with handle := none }), .closed f.handle)

def assign (vs : FileValues κ) (k : κ) (f : File) (other : κ) (f' : File) (left : List UInt8) :
    FileValues κ × FileAnswer :=
  if k = other then (vs, .closed none)
  else (Function.update (Function.update vs k (some f')) other (some ⟨none, left⟩),
    .closed f.handle)

def step (vs : FileValues κ) : FileAction κ ν → Option (FileValues κ × FileAnswer)
  | .construct k =>
      match vs k with
      | none => some (Function.update vs k (some ⟨none, []⟩), .done)
      | some _ => none
  | .opened k path fp =>
      match vs k with
      | none => some (Function.update vs k (some ⟨fp.map Prod.snd, path⟩), .done)
      | some _ => none
  | .moveConstruct k other left =>
      match vs k, vs other with
      | none, some f' => some (vs.assign k ⟨none, []⟩ other f' left)
      | _, _ => none
  | .moveAssign k other left =>
      match vs k, vs other with
      | some f, some f' => some (vs.assign k f other f' left)
      | _, _ => none
  | .close k =>
      match vs k with
      | some f => some (vs.close k f)
      | none => none
  | .destroy k =>
      match vs k with
      | some f => some (Function.update vs k none, .closed f.handle)
      | none => none
  | .call k m =>
      match vs k with
      | some f => some (Function.update vs k (some (m.apply f).1), (m.apply f).2)
      | none => none

end FileValues

def fileValues (κ ν : Type*) [DecidableEq κ] :
    Machine (FileValues κ) (FileAction κ ν) FileAnswer := ⟨FileValues.step⟩

/-! ## Member functions keep the handle -/

/-- The same path, and the same file behind the handle if there was one. -/
def File.SameHandle (f f' : File) : Prop :=
  f'.path = f.path ∧ Option.Rel Stdio.SameFile f.handle f'.handle

namespace File.SameHandle

variable {f f' f'' : File}

theorem refl (f : File) : f.SameHandle f := by
  refine ⟨rfl, ?_⟩
  cases f.handle with
  | none => exact .none
  | some fp => exact .some (.refl fp)

theorem trans (h : f.SameHandle f') (h' : f'.SameHandle f'') : f.SameHandle f'' := by
  refine ⟨h'.1.trans h.1, ?_⟩
  have hfirst := h.2
  have hsecond := h'.2
  revert hfirst hsecond
  generalize f.handle = o, f'.handle = o', f''.handle = o''
  rintro (h₁ | _) h₂
  · cases h₂ with
    | some h₂ => exact .some (h₁.trans h₂)
  · cases h₂
    exact .none

theorem of_stream {fp fp' : Stdio} {path : List UInt8} (h : fp.SameFile fp') :
    File.SameHandle ⟨some fp, path⟩ ⟨some fp', path⟩ := ⟨rfl, .some h⟩

theorem read (f : File) : f.SameHandle f.read.1 := by
  obtain ⟨handle, path⟩ := f
  cases handle with
  | none => exact refl _
  | some fp => exact of_stream (.fgetc fp)

theorem readStringLoop (f : File) (result : WString) :
    f.SameHandle (f.readStringLoop result).1 := by
  induction f, result using File.readStringLoop.induct with
  | case1 f result hmore ih =>
      rw [File.readStringLoop, dif_pos hmore]
      exact (read f).trans ih
  | case2 f result hend =>
      rw [File.readStringLoop, dif_neg hend]
      exact read f

theorem call (f : File) (c : FileCall) : f.SameHandle (f.call c).1 := by
  cases c with
  | read => exact read f
  | readString => exact readStringLoop f _
  | readBuf size =>
      obtain ⟨handle, path⟩ := f
      cases handle with
      | none => exact refl _
      | some fp => exact of_stream (.fread fp size)
  | peek =>
      obtain ⟨handle, path⟩ := f
      cases handle with
      | none => exact refl _
      | some fp =>
          have hread := Stdio.SameFile.fgetc fp
          exact of_stream ⟨hread.name, hread.access, hread.content⟩
  | available | size =>
      obtain ⟨handle, path⟩ := f
      cases handle with
      | none => exact refl _
      | some fp => exact of_stream ⟨rfl, rfl, fun _ => rfl⟩

theorem writeByte (f : File) (b : UInt8) : f.SameHandle (f.writeByte b).1 := by
  obtain ⟨handle, path⟩ := f
  cases handle with
  | none => exact refl _
  | some fp => exact of_stream (.fputc fp b)

theorem writeLoop (buffer : List UInt8) (f : File) (n : Nat) :
    f.SameHandle (Print.writeLoop File.writeByte f buffer n).1 := by
  induction buffer generalizing f n with
  | nil => exact refl f
  | cons b buffer ih =>
      simp only [Print.writeLoop]
      split
      · exact writeByte f b
      · exact (writeByte f b).trans (ih (f.writeByte b).1 (n + 1))

theorem apply (m : FileMember) (f : File) : f.SameHandle (m.apply f).1 := by
  cases m with
  | isOpen | flush | name => exact refl f
  | call c => exact call f c
  | writeByte b => exact writeByte f b
  | writeBuffer buffer => exact writeLoop buffer f 0

end File.SameHandle

/-! ## Each stream has one file -/

namespace Files

variable {κ ν : Type*}

def view (s : Files κ ν) (k : κ) : Option File := (s.object k).map s.load

def Owned (s : Files κ ν) : Prop := Owns s.live s.holds

theorem owned_initial : (initial : Files κ ν).Owned := .empty

variable {s s' : Files κ ν} {k other : κ} {o o' : FileObject ν}

theorem holds_of_object (hk : s.object k = some o) : s.holds k = o.handle := by
  rw [holds, hk, Option.bind_some]

theorem view_of_object (hk : s.object k = some o) : s.view k = some (s.load o) := by
  rw [view, hk, Option.map_some]

theorem view_of_none (hk : s.object k = none) : s.view k = none := by
  rw [view, hk, Option.map_none]

variable [DecidableEq κ] [DecidableEq ν]

omit [DecidableEq ν] in
theorem view_set (o : Option (FileObject ν)) :
    (s.set k o).view = Function.update s.view k (o.map s.load) := by
  have hload : (s.set k o).load = s.load := rfl
  funext j
  rw [view, hload]
  by_cases hj : j = k
  · subst hj
    simp [set]
  · simp [view, set, hj]

omit [DecidableEq ν] in
theorem holds_set (o : Option (FileObject ν)) :
    (s.set k o).holds = Function.update s.holds k (o.bind FileObject.handle) := by
  funext j
  by_cases hj : j = k
  · subst hj
    simp [holds, set]
  · simp [holds, set, hj]

omit [DecidableEq κ] in
theorem live_setStream (n : ν) (fp : Option Stdio) :
    (s.setStream n fp).live = Function.update s.live n fp.isSome := by
  funext m
  by_cases hm : m = n
  · subst hm
    simp [live, setStream]
  · simp [live, setStream, hm]

omit [DecidableEq κ] in
theorem view_setStream {n : ν} (hn : s.holds k ≠ some n) (fp : Option Stdio) :
    (s.setStream n fp).view k = s.view k := by
  cases hk : s.object k with
  | none => simp [view, setStream, hk]
  | some o =>
      rw [holds_of_object hk] at hn
      cases hhandle : o.handle with
      | none => simp [view, setStream, hk, load, hhandle]
      | some m =>
          have hm : m ≠ n := fun heq => hn (by rw [hhandle, heq])
          simp [view, setStream, hk, load, hhandle, hm]

omit [DecidableEq κ] [DecidableEq ν] in
@[simp] theorem live_share (fp : Stdio) : (s.share fp).live = s.live := by
  funext n
  simp [live, share]

omit [DecidableEq κ] [DecidableEq ν] in
theorem share_eq {fp : Stdio}
    (hsame : ∀ n fp', s.stream n = some fp' → fp'.name = fp.name → fp'.content = fp.content) :
    s.share fp = s := by
  have hstream : (s.share fp).stream = s.stream := by
    funext n
    simp only [share]
    cases hn : s.stream n with
    | none => rfl
    | some fp' =>
        rw [Option.map_some]
        split
        next hname => rw [← hsame n fp' hn hname]
        next => rfl
  exact congrArg (Files.mk s.object) hstream

/-! ## Streams on one file -/

/-- A file that is open twice is open for reading, and both streams find the same in it. -/
def Apart (s : Files κ ν) : Prop :=
  ∀ m n fp fp', m ≠ n → s.stream m = some fp → s.stream n = some fp' → fp'.name = fp.name →
    fp.access.writes = false ∧ fp'.content = fp.content

/-- The other streams on the file of `fp` fit with it behind `n`. -/
def Fits (s : Files κ ν) (n : ν) (fp : Stdio) : Prop :=
  ∀ m fp', m ≠ n → s.stream m = some fp' → fp'.name = fp.name →
    fp'.access.writes = false ∧ fp.access.writes = false ∧ fp'.content = fp.content

omit [DecidableEq κ] in
theorem stream_setStream {m n : ν} {fp : Option Stdio} {fp' : Stdio}
    (hm : (s.setStream n fp).stream m = some fp') :
    m = n ∧ fp = some fp' ∨ m ≠ n ∧ s.stream m = some fp' := by
  by_cases hmn : m = n
  · subst hmn
    exact .inl ⟨rfl, by simpa [setStream] using hm⟩
  · exact .inr ⟨hmn, by simpa [setStream, hmn] using hm⟩

omit [DecidableEq κ] in
theorem Apart.setStream (h : s.Apart) {n : ν} {fp : Stdio} (hfits : s.Fits n fp) :
    (s.setStream n (some fp)).Apart := by
  intro m₁ m₂ fp₁ fp₂ hne hm₁ hm₂ hname
  rcases stream_setStream hm₁ with ⟨rfl, heq₁⟩ | ⟨hne₁, hold₁⟩ <;>
    rcases stream_setStream hm₂ with ⟨rfl, heq₂⟩ | ⟨hne₂, hold₂⟩
  · exact absurd rfl hne
  · cases heq₁
    obtain ⟨-, hreads, hcontent⟩ := hfits m₂ fp₂ hne₂ hold₂ hname
    exact ⟨hreads, hcontent⟩
  · cases heq₂
    obtain ⟨hreads, -, hcontent⟩ := hfits m₁ fp₁ hne₁ hold₁ hname.symm
    exact ⟨hreads, hcontent.symm⟩
  · exact h m₁ m₂ fp₁ fp₂ hne hold₁ hold₂ hname

omit [DecidableEq κ] in
theorem share_setStream {n : ν} {fp : Stdio} (hfits : s.Fits n fp) :
    (s.setStream n (some fp)).share fp = s.setStream n (some fp) := by
  apply share_eq
  intro m fp' hm hname
  rcases stream_setStream hm with ⟨-, heq⟩ | ⟨hmn, hm⟩
  · cases heq
    rfl
  · exact (hfits m fp' hmn hm hname).2.2

omit [DecidableEq κ] in
theorem Apart.clearStream (h : s.Apart) (n : ν) : (s.setStream n none).Apart := by
  intro m m' fp₁ fp₂ hne hm hm' hname
  rcases stream_setStream hm with ⟨-, heq⟩ | ⟨-, hm⟩
  · cases heq
  rcases stream_setStream hm' with ⟨-, heq⟩ | ⟨-, hm'⟩
  · cases heq
  exact h m m' fp₁ fp₂ hne hm hm' hname

omit [DecidableEq κ] [DecidableEq ν] in
theorem Apart.fits (h : s.Apart) {n : ν} {fp fp' : Stdio} (hn : s.stream n = some fp)
    (hsame : fp.SameFile fp') : s.Fits n fp' := by
  intro m fp₁ hmn hm hname
  have hfile : fp₁.name = fp.name := hname.trans hsame.name
  obtain ⟨hreads, hcontent⟩ := h n m fp fp₁ (Ne.symm hmn) hn hm hfile
  exact ⟨(h m n fp₁ fp hmn hm hn hfile.symm).1, by rwa [hsame.access],
    hcontent.trans (hsame.content hreads).symm⟩

/-! ## One step -/

/-- From `s` the objects answer as the values do, with lawful calls. -/
structure Keeps (s : Files κ ν) (r : Files κ ν × FileEvent ν) (v : FileValues κ × FileAnswer) :
    Prop where
  answer : r.2.answer = v.2
  owned : r.1.Owned
  lawful : Use.Lawful s.live r.2.calls
  settled : Use.settle s.live r.2.calls = r.1.live

structure Follows (s : Files κ ν) (r : Files κ ν × FileEvent ν) (v : FileValues κ × FileAnswer) :
    Prop where
  view : r.1.view = v.1
  answer : r.2.answer = v.2
  owned : r.1.Owned
  lawful : Use.Lawful s.live r.2.calls
  settled : Use.settle s.live r.2.calls = r.1.live
  apart : s.Apart → r.1.Apart

omit [DecidableEq κ] in
theorem Follows.keeps {r : Files κ ν × FileEvent ν} {v : FileValues κ × FileAnswer}
    (h : Follows s r v) : Keeps s r v := ⟨h.answer, h.owned, h.lawful, h.settled⟩

theorem close_object (hk : s.object k = some o) :
    (s.close k o).1.object = Function.update s.object k (some ⟨none, o.path⟩) := by
  obtain ⟨handle, path⟩ := o
  cases handle with
  | none => exact (Function.update_eq_self_iff.mpr hk.symm).symm
  | some n => rfl

theorem Owned.close (h : s.Owned) (hk : s.object k = some o) :
    Follows s (s.close k o) (FileValues.close s.view k (s.load o)) := by
  have hview := view_of_object hk
  have hholds := holds_of_object hk
  obtain ⟨handle, path⟩ := o
  cases handle with
  | none => exact ⟨(Function.update_eq_self_iff.mpr hview.symm).symm, rfl, h, trivial, rfl, id⟩
  | some n =>
      have hclosed : (s.close k ⟨some n, path⟩).1 =
          (s.setStream n none).set k (some ⟨none, path⟩) := rfl
      have hlive : (s.close k ⟨some n, path⟩).1.live = Function.update s.live n false :=
        live_setStream n none
      refine ⟨?_, rfl, ?_, ⟨Owns.live_of_holds h hholds, trivial⟩, hlive.symm,
        fun hapart => hapart.clearStream n⟩
      · rw [hclosed, view_set]
        funext j
        by_cases hj : j = k
        · subst hj
          simp [FileValues.close, load]
        · have hother : s.holds j ≠ some n := fun heq => hj (Owns.sole h j k n heq hholds)
          simp [FileValues.close, hj, view_setStream hother]
      · rw [Owned, hlive, hclosed, holds_set]
        exact Owns.release h hholds

theorem Owned.assign (h : s.Owned) (hk : s.object k = some o) (hother : s.object other = some o')
    (left : List UInt8) :
    Follows s (s.assign k o other o' left)
      (FileValues.assign s.view k (s.load o) other (s.load o') left) := by
  have hclose := h.close hk
  have hobject := close_object hk
  unfold Files.assign FileValues.assign
  by_cases hself : k = other
  · simp only [if_pos hself]
    exact ⟨rfl, rfl, h, trivial, rfl, id⟩
  · simp only [if_neg hself]
    have hother₁ : (s.close k o).1.object other = some o' := by
      rw [hobject, Function.update_of_ne (Ne.symm hself), hother]
    have hload : (s.close k o).1.load o' = s.load o' := by
      have hview : (s.close k o).1.view = Function.update s.view k _ := hclose.view
      have hsame := congrFun hview other
      rw [Function.update_of_ne (Ne.symm hself), view_of_object hother₁,
        view_of_object hother] at hsame
      exact Option.some.inj hsame
    refine ⟨?_, hclose.answer, ?_, hclose.lawful, hclose.settled, hclose.apart⟩
    · rw [view_set, view_set, hclose.view, Option.map_some, Option.map_some, hload,
        FileValues.close, Function.update_idem]
      rfl
    · have hnone : (s.close k o).1.holds k = none := by
        rw [holds, hobject, Function.update_self]
        rfl
      have hmoved : Owns (s.close k o).1.live (Function.update (Function.update
          (s.close k o).1.holds k ((s.close k o).1.holds other)) other none) :=
        Owns.transfer hclose.owned hnone
      rw [holds_of_object hother₁] at hmoved
      rw [Owned, holds_set, holds_set]
      exact hmoved

omit [DecidableEq ν] in
theorem Owned.set (h : s.Owned) (hk : s.holds k = none) {new : Option (FileObject ν)}
    (hnew : new.bind FileObject.handle = none) : (s.set k new).Owned := by
  have hholds : (s.set k new).holds = s.holds := by
    rw [holds_set, hnew, Function.update_eq_self_iff, hk]
  rw [Owned, hholds]
  exact h

theorem Owned.construct (h : s.Owned) (hk : s.object k = none) (path : List UInt8) :
    Follows s (s.set k (some ⟨none, path⟩), ⟨.done, []⟩)
      (Function.update s.view k (some ⟨none, path⟩), .done) :=
  ⟨view_set _, rfl, h.set (by simp [holds, hk]) rfl, trivial, rfl, id⟩

theorem Owned.opened (h : s.Owned) (hk : s.object k = none) {n : ν} (hn : s.stream n = none)
    (path : List UInt8) (fp : Stdio) :
    let r := (((s.setStream n (some fp)).share fp).set k (some ⟨some n, path⟩),
      (⟨.done, [.acquire n]⟩ : FileEvent ν))
    Keeps s r (Function.update s.view k (some ⟨some fp, path⟩), .done) ∧
      (s.Fits n fp → r.1.view = Function.update s.view k (some ⟨some fp, path⟩)) := by
  have hfree : s.live n = false := by simp [live, hn]
  have hlive : (((s.setStream n (some fp)).share fp).set k (some ⟨some n, path⟩)).live =
      Function.update s.live n true := (live_share fp).trans (live_setStream n (some fp))
  refine ⟨⟨rfl, ?_, ⟨hfree, trivial⟩, hlive.symm⟩, fun hfits => ?_⟩
  · rw [Owned, hlive, holds_set]
    exact Owns.acquire h hfree (by simp [holds, hk])
  · rw [share_setStream hfits, view_set]
    funext j
    by_cases hj : j = k
    · subst hj
      simp [load, setStream]
    · have hother : s.holds j ≠ some n := by
        intro heq
        rw [Owns.live_of_holds h heq] at hfree
        cases hfree
      simp [hj, view_setStream hother]

theorem Owned.moveConstruct (h : s.Owned) (hk : s.object k = none)
    (hother : s.object other = some o') (left : List UInt8) :
    Follows s ((s.set k (some ⟨none, []⟩)).assign k ⟨none, []⟩ other o' left)
      (FileValues.assign s.view k ⟨none, []⟩ other (s.load o') left) := by
  have hne : other ≠ k := by
    rintro rfl
    cases hk.symm.trans hother
  have hmade := h.construct hk []
  have hk' : (s.set k (some ⟨none, []⟩)).object k = some ⟨none, []⟩ := Function.update_self ..
  have hother' : (s.set k (some ⟨none, []⟩)).object other = some o' := by
    simp [Files.set, hne, hother]
  have hassign := hmade.owned.assign hk' hother' left
  refine ⟨?_, ?_, hassign.owned, hassign.lawful, hassign.settled, hassign.apart⟩
  · rw [hassign.view, hmade.view]
    simp only [FileValues.assign, if_neg (Ne.symm hne), Function.update_idem]
    rfl
  · rw [hassign.answer, hmade.view]
    simp only [FileValues.assign, if_neg (Ne.symm hne)]
    rfl

theorem Owned.destroy (h : s.Owned) (hk : s.object k = some o) :
    Follows s ((s.close k o).1.set k none, (s.close k o).2)
      (Function.update s.view k none, .closed (s.load o).handle) := by
  have hclose := h.close hk
  have hnone : (s.close k o).1.holds k = none := by
    rw [holds, close_object hk, Function.update_self]
    rfl
  refine ⟨?_, hclose.answer, hclose.owned.set hnone rfl, hclose.lawful, hclose.settled,
    hclose.apart⟩
  rw [view_set, hclose.view, FileValues.close, Function.update_idem]
  rfl

omit [DecidableEq κ] in
/-- What a member function has changed is in no other stream's file. -/
theorem Apart.store (h : s.Apart) (o : FileObject ν) (m : FileMember) :
    (s.store o (m.apply (s.load o)).1).Apart := by
  have hsame := (File.SameHandle.apply m (s.load o)).2
  unfold Files.store
  split
  next n fp' hhandle hhandle' =>
    rw [hhandle', load, hhandle, Option.bind_some] at hsame
    generalize hn : s.stream n = stream at hsame
    cases hsame with
    | some hsame =>
        have hfits := h.fits hn hsame
        rw [share_setStream hfits]
        exact h.setStream hfits
  next => exact h

theorem Owned.call (h : s.Owned) (hk : s.object k = some o) (m : FileMember) :
    let r := (s.store o (m.apply (s.load o)).1, (⟨(m.apply (s.load o)).2,
      if m.usesStream then o.handle.toList.map .use else []⟩ : FileEvent ν))
    Keeps s r (Function.update s.view k (some (m.apply (s.load o)).1), (m.apply (s.load o)).2) ∧
      (s.Apart → r.1.view = Function.update s.view k (some (m.apply (s.load o)).1)) := by
  have hsame := File.SameHandle.apply m (s.load o)
  generalize m.apply (s.load o) = r at hsame ⊢
  obtain ⟨⟨handle', path'⟩, answer⟩ := r
  obtain ⟨rfl : path' = o.path, hhandle : Option.Rel Stdio.SameFile (s.load o).handle handle'⟩ :=
    hsame
  have hview := view_of_object hk
  have hholds := holds_of_object hk
  obtain ⟨handle, path⟩ := o
  cases handle with
  | none =>
      obtain rfl : handle' = none := by cases hhandle; rfl
      refine ⟨⟨rfl, h, ?_, ?_⟩, fun _ => (Function.update_eq_self_iff.mpr hview.symm).symm⟩
      · split <;> trivial
      · split <;> rfl
  | some n =>
      have hlive : s.live n = true := Owns.live_of_holds h hholds
      obtain ⟨fp, hn⟩ := Option.isSome_iff_exists.mp hlive
      rw [load, Option.bind_some, hn] at hhandle
      obtain ⟨fp', rfl, hsame⟩ : ∃ fp', handle' = some fp' ∧ fp.SameFile fp' := by
        cases hhandle with
        | some hsame => exact ⟨_, rfl, hsame⟩
      have hstored : ((s.setStream n (some fp')).share fp').live = s.live := by
        rw [live_share, live_setStream, Function.update_eq_self_iff, hlive]
        rfl
      refine ⟨⟨rfl, ?_, ?_, ?_⟩, fun hapart => ?_⟩
      · show Owns ((s.setStream n (some fp')).share fp').live s.holds
        rw [hstored]
        exact h
      · split
        · exact ⟨hlive, trivial⟩
        · trivial
      · show _ = ((s.setStream n (some fp')).share fp').live
        rw [hstored]
        split <;> rfl
      · show ((s.setStream n (some fp')).share fp').view =
          Function.update s.view k (some ⟨some fp', path⟩)
        rw [share_setStream (hapart.fits hn hsame)]
        funext j
        by_cases hj : j = k
        · subst hj
          simp [Files.view, setStream, hk, load]
        · have hother : s.holds j ≠ some n := fun heq => hj (Owns.sole h j k n heq hholds)
          rw [view_setStream hother, Function.update_of_ne hj]

/-- Every step of the objects is one of the values, as far as they do not share files. -/
theorem Owned.step (h : s.Owned) {a : FileAction κ ν} {e : FileEvent ν}
    (hstep : s.step a = some (s', e)) :
    ∃ v, FileValues.step s.view a = some v ∧ Keeps s (s', e) v ∧
      (s.Apart → s.Unshared a → s'.view = v.1 ∧ s'.Apart) := by
  have hfollows : ∀ {v : FileValues κ × FileAnswer}, Follows s (s', e) v →
      Keeps s (s', e) v ∧ (s.Apart → s.Unshared a → s'.view = v.1 ∧ s'.Apart) :=
    fun hv => ⟨hv.keeps, fun hapart _ => ⟨hv.view, hv.apart hapart⟩⟩
  cases a with
  | construct k =>
      simp only [Files.step] at hstep
      cases hk : s.object k with
      | some o => simp [hk] at hstep
      | none =>
          simp only [hk, Option.some.injEq] at hstep
          exact ⟨_, by simp only [FileValues.step, view_of_none hk],
            hfollows (hstep ▸ h.construct hk [])⟩
  | opened k path fp =>
      simp only [Files.step] at hstep
      cases hk : s.object k with
      | some o => simp [hk] at hstep
      | none =>
          cases fp with
          | none =>
              simp only [hk, Option.some.injEq] at hstep
              exact ⟨_, by simp only [FileValues.step, view_of_none hk, Option.map_none],
                hfollows (hstep ▸ h.construct hk path)⟩
          | some r =>
              obtain ⟨n, fp⟩ := r
              cases hn : s.stream n with
              | some _ => simp [hk, hn] at hstep
              | none =>
                  simp only [hk, hn, Option.some.injEq] at hstep
                  cases hstep
                  obtain ⟨hkeeps, hview⟩ := h.opened hk hn path fp
                  refine ⟨_, by simp only [FileValues.step, view_of_none hk, Option.map_some],
                    hkeeps, fun hapart hunshared => ?_⟩
                  have hfits : s.Fits n fp := fun m fp' _ hm => hunshared m fp' hm
                  refine ⟨hview hfits, ?_⟩
                  rw [share_setStream hfits]
                  exact hapart.setStream hfits
  | moveConstruct k other left =>
      simp only [Files.step] at hstep
      cases hk : s.object k with
      | some o => simp [hk] at hstep
      | none =>
          cases hother : s.object other with
          | none => simp [hk, hother] at hstep
          | some o' =>
              simp only [hk, hother, Option.some.injEq] at hstep
              exact ⟨_, by simp only [FileValues.step, view_of_none hk, view_of_object hother],
                hfollows (hstep ▸ h.moveConstruct hk hother left)⟩
  | moveAssign k other left =>
      simp only [Files.step] at hstep
      cases hk : s.object k with
      | none => simp [hk] at hstep
      | some o =>
          cases hother : s.object other with
          | none => simp [hk, hother] at hstep
          | some o' =>
              simp only [hk, hother, Option.some.injEq] at hstep
              exact ⟨_, by simp only [FileValues.step, view_of_object hk, view_of_object hother],
                hfollows (hstep ▸ h.assign hk hother left)⟩
  | close k =>
      simp only [Files.step] at hstep
      cases hk : s.object k with
      | none => simp [hk] at hstep
      | some o =>
          simp only [hk, Option.some.injEq] at hstep
          exact ⟨_, by simp only [FileValues.step, view_of_object hk],
            hfollows (hstep ▸ h.close hk)⟩
  | destroy k =>
      simp only [Files.step] at hstep
      cases hk : s.object k with
      | none => simp [hk] at hstep
      | some o =>
          simp only [hk, Option.some.injEq] at hstep
          exact ⟨_, by simp only [FileValues.step, view_of_object hk],
            hfollows (hstep ▸ h.destroy hk)⟩
  | call k m =>
      simp only [Files.step] at hstep
      cases hk : s.object k with
      | none => simp [hk] at hstep
      | some o =>
          simp only [hk, Option.some.injEq] at hstep
          cases hstep
          obtain ⟨hkeeps, hview⟩ := h.call hk m
          exact ⟨_, by simp only [FileValues.step, view_of_object hk], hkeeps,
            fun hapart _ => ⟨hview hapart, hapart.store o m⟩⟩

end Files

/-! ## Whole runs -/

namespace Files

section Runs

variable {κ ν : Type*} [DecidableEq κ] [DecidableEq ν] {s s' : Files κ ν}
  {as : List (FileAction κ ν)} {es : List (FileEvent ν)}

theorem Owned.run (h : s.Owned) (hrun : (files κ ν).run s as = some (s', es)) :
    s'.Owned ∧ Use.Lawful s.live (es.flatMap FileEvent.calls) ∧
      Use.settle s.live (es.flatMap FileEvent.calls) = s'.live := by
  induction as generalizing s es with
  | nil =>
      cases hrun
      exact ⟨h, trivial, rfl⟩
  | cons a as ih =>
      obtain ⟨s₁, e, es₁, hstep, hrest, rfl⟩ := Machine.run_cons_iff.mp hrun
      obtain ⟨v, -, hkeeps, -⟩ := h.step hstep
      have hsettled : Use.settle s.live e.calls = s₁.live := hkeeps.settled
      obtain ⟨howned, hlawful, hlive⟩ := ih hkeeps.owned hrest
      refine ⟨howned, ?_, ?_⟩
      · rw [List.flatMap_cons, Use.lawful_append, hsettled]
        exact ⟨hkeeps.lawful, hlawful⟩
      · rw [List.flatMap_cons, Use.settle_append, hsettled, hlive]

/-- Unless they come to share a file, the objects answer as the values. -/
theorem Owned.run_values (h : s.Owned) (hapart : s.Apart)
    (hunshared : (files κ ν).Along Unshared s as)
    (hrun : (files κ ν).run s as = some (s', es)) :
    (fileValues κ ν).run s.view as = some (s'.view, es.map FileEvent.answer) := by
  induction as generalizing s es with
  | nil =>
      cases hrun
      rfl
  | cons a as ih =>
      obtain ⟨s₁, e, es₁, hstep, hrest, rfl⟩ := Machine.run_cons_iff.mp hrun
      obtain ⟨⟨vs, answer⟩, hvalue, hkeeps, hfollows⟩ := h.step hstep
      obtain ⟨hfirst, hlater⟩ := (Machine.along_cons hstep).mp hunshared
      obtain ⟨rfl : s₁.view = vs, hapart₁⟩ := hfollows hapart hfirst
      obtain rfl : e.answer = answer := hkeeps.answer
      exact Machine.run_cons_iff.mpr
        ⟨_, _, _, hvalue, ih hkeeps.owned hapart₁ hlater hrest, rfl⟩

/-- The C library was never given a pointer that is not open, and each stream it opened has been
closed once, unless a single file has it still. -/
structure OwnsStreams (es : List (FileEvent ν)) (s : Files κ ν) : Prop where
  lawful : Use.Lawful (fun _ => false) (es.flatMap FileEvent.calls)
  once : ∀ n, (es.flatMap FileEvent.calls).count (.acquire n) =
    (es.flatMap FileEvent.calls).count (.release n) + (s.live n).toNat
  live_iff : ∀ n, s.live n = true ↔ ∃ k, s.holds k = some n
  sole : ∀ k k' n, s.holds k = some n → s.holds k' = some n → k = k'

/-- However files are opened, moved, assigned, used, closed and destroyed, also onto themselves and
after they were moved from, no stream is lost or closed twice. And where none is opened on the file
of another with one of them for writing, they answer as values do that have their streams inside,
each with a content of its own. -/
theorem files_are_values (hrun : (files κ ν).run initial as = some (s, es)) :
    OwnsStreams es s ∧ ((files κ ν).Along Unshared initial as →
      (fileValues κ ν).run (fun _ => none) as = some (s.view, es.map FileEvent.answer)) := by
  obtain ⟨howned, hlawful, hlive⟩ := owned_initial.run hrun
  refine ⟨⟨hlawful, fun n => ?_, Owns.live_iff howned, Owns.sole howned⟩, fun hunshared => ?_⟩
  · have hcount := hlawful.count n
    rw [hlive] at hcount
    exact hcount
  · apply owned_initial.run_values ?_ hunshared hrun
    intro m n fp fp' _ hm
    cases hm

end Runs

def twoBytes : Stdio := ⟨[[120]], ⟨true, false, false⟩, [65, 66], 0, false⟩

/-- A file is moved out of a temporary and onto itself and read from, both by its new name and by
its old one; then another one is assigned to it, which reads the same file, and the pointer of the
first stream comes back. -/
def shuffled : List (FileAction (Fin 4) (Fin 2)) :=
  [.opened 0 [120] (some (0, twoBytes)), .moveConstruct 1 0 [], .destroy 0,
    .moveAssign 1 1 [], .call 1 (.call .read), .opened 2 [120] (some (1, twoBytes)),
    .moveAssign 1 2 [63], .call 2 (.call .read), .call 2 .name, .call 1 (.call .available),
    .opened 3 [120] (some (0, twoBytes)), .close 3, .close 3, .destroy 1]

theorem shuffled_values :
    ∃ s es, (files (Fin 4) (Fin 2)).run initial shuffled = some (s, es) ∧ s.live 0 = false ∧
      s.live 1 = false ∧ OwnsStreams es s ∧
      (fileValues (Fin 4) (Fin 2)).run (fun _ => none) shuffled =
        some (s.view, es.map FileEvent.answer) := by
  have hrun : (files (Fin 4) (Fin 2)).run initial shuffled = some (_, _) := rfl
  obtain ⟨howns, hvalues⟩ := files_are_values hrun
  exact ⟨_, _, hrun, rfl, rfl, howns, hvalues (by decide)⟩

end Files

end ZiModem.Hal.Arduino
