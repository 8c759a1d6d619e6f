import Mathlib.Data.List.Infix
import ZiModem.Paths.Tree

/-! # Disks

A tree with what is in its files. A disk is changed by making a directory with all
above it, by writing a file, and by deleting a directory with all below it. Each
fails where a file stands in the place of a directory, or a directory in the place
of a file.

A sequence of such steps stops at the first failure. Where directories are made
before something is written in them, whether it goes through can be told from the
disk at its start.
-/

namespace DirTree

variable {α β : Type*} [DecidableEq α]

namespace Tree

variable {t : Tree α}

/-- `p` and all above it as directories, unless one of them is a file. -/
def addDirs (t : Tree α) (p : List α) : Tree α :=
  if h : ∀ q ∈ t.files, ¬ q <+: p then
    { t with
      dirs := t.dirs ∪ p.inits.toFinset
      top := Finset.mem_union_left _ t.top
      apart := by
        rw [Finset.disjoint_union_left]
        refine ⟨t.apart, Finset.disjoint_left.mpr fun q hq hfile => h q hfile ?_⟩
        rwa [List.mem_toFinset, List.mem_inits] at hq
      dir_parent := by
        intro q n hmem
        rw [Finset.mem_union, List.mem_toFinset, List.mem_inits] at hmem ⊢
        exact hmem.imp (t.dir_parent q n) (List.prefix_append q [n]).trans
      file_parent := fun q n hmem => Finset.mem_union_left _ (t.file_parent q n hmem) }
  else t

theorem mem_dirs_addDirs {p q : List α} (h : ∀ q ∈ t.files, ¬ q <+: p) :
    q ∈ (t.addDirs p).dirs ↔ q ∈ t.dirs ∨ q <+: p := by
  rw [addDirs, dif_pos h, Finset.mem_union, List.mem_toFinset, List.mem_inits]

@[simp] theorem files_addDirs (p : List α) : (t.addDirs p).files = t.files := by
  unfold addDirs
  split <;> rfl

end Tree

structure Disk (α β : Type*) where
  tree : Tree α
  contents : List α → β

namespace Disk

variable (d : Disk α β)

def read (p : List α) : Option β := if p ∈ d.tree.files then some (d.contents p) else none

/-- Making `p` and what is missing above it, and whether it goes through. -/
def makeDir (p : List α) : Disk α β × Bool :=
  if ∀ q ∈ d.tree.files, ¬ q <+: p then ({ d with tree := d.tree.addDirs p }, true) else (d, false)

/-- Writing the file `n` in `p`, and whether it goes through. -/
def write (p : List α) (n : α) (b : β) : Disk α β × Bool :=
  if p ∈ d.tree.dirs ∧ p ++ [n] ∉ d.tree.dirs then
    (⟨d.tree.addFile p n, Function.update d.contents (p ++ [n]) b⟩, true)
  else (d, false)

def delete (p : List α) : Disk α β := { d with tree := d.tree.prune [p] }

end Disk

namespace Disk

/-- At `q` both disks have a file with the same in it, or a directory, or nothing. -/
def SameAt (d d' : Disk α β) (q : List α) : Prop :=
  d.read q = d'.read q ∧ (q ∈ d.tree.dirs ↔ q ∈ d'.tree.dirs)

end Disk

/-! ## Sequences -/

inductive DiskOp (α β : Type*)
  | makeDir (p : List α)
  | write (p : List α) (n : α) (b : β)

namespace Disk

def apply (d : Disk α β) : DiskOp α β → Disk α β × Bool
  | .makeDir p => d.makeDir p
  | .write p n b => d.write p n b

def exec (d : Disk α β) : List (DiskOp α β) → Disk α β × Bool
  | [] => (d, true)
  | o :: os => if (d.apply o).2 then (d.apply o).1.exec os else d.apply o

theorem exec_append (d : Disk α β) (os os' : List (DiskOp α β)) :
    d.exec (os ++ os') = if (d.exec os).2 then (d.exec os).1.exec os' else d.exec os := by
  induction os generalizing d with
  | nil => rfl
  | cons o os ih =>
      rw [List.cons_append, exec, exec]
      by_cases hok : (d.apply o).2 = true
      · rw [if_pos hok, if_pos hok, ih]
      · rw [if_neg hok, if_neg hok, if_neg hok]

end Disk

def made : List (DiskOp α β) → List (List α)
  | [] => []
  | .makeDir p :: os => p :: made os
  | .write _ _ _ :: os => made os

def wrote : List (DiskOp α β) → List (List α × β)
  | [] => []
  | .makeDir _ :: os => wrote os
  | .write p n b :: os => (p ++ [n], b) :: wrote os

omit [DecidableEq α] in
@[simp] theorem made_append (os os' : List (DiskOp α β)) :
    made (os ++ os') = made os ++ made os' := by
  induction os with
  | nil => rfl
  | cons o os ih =>
      cases o with
      | makeDir p => exact congrArg (p :: ·) ih
      | write => exact ih

omit [DecidableEq α] in
@[simp] theorem wrote_append (os os' : List (DiskOp α β)) :
    wrote (os ++ os') = wrote os ++ wrote os' := by
  induction os with
  | nil => rfl
  | cons o os ih =>
      cases o with
      | makeDir => exact ih
      | write p n b => exact congrArg ((p ++ [n], b) :: ·) ih

/-- With the directories `there`, every file is written in a directory that is there or has been
made. -/
def Orderly : (List α → Prop) → List (DiskOp α β) → Prop
  | _, [] => True
  | there, .makeDir p :: os => Orderly (fun q => there q ∨ q <+: p) os
  | there, .write p _ _ :: os => there p ∧ Orderly there os

omit [DecidableEq α] in
theorem Orderly.mono {there there' : List α → Prop} {os : List (DiskOp α β)}
    (h : Orderly there os) (hsub : ∀ q, there q → there' q) : Orderly there' os := by
  induction os generalizing there there' with
  | nil => trivial
  | cons o os ih =>
      cases o with
      | makeDir p => exact ih h fun q hq => hq.imp_left (hsub q)
      | write p n b => exact ⟨hsub p h.1, ih h.2 hsub⟩

omit [DecidableEq α] in
theorem Orderly.append {there : List α → Prop} {os os' : List (DiskOp α β)}
    (h : Orderly there os) (h' : Orderly there os') : Orderly there (os ++ os') := by
  induction os generalizing there with
  | nil => exact h'
  | cons o os ih =>
      cases o with
      | makeDir p => exact ih h (h'.mono fun q hq => .inl hq)
      | write p n b => exact ⟨h.1, ih h.2 h'⟩

namespace Disk

variable {d : Disk α β}

theorem read_eq_none_iff {q : List α} : d.read q = none ↔ q ∉ d.tree.files := by
  unfold read
  split <;> simp [*]

/-! ## Single steps -/

theorem files_makeDir (p : List α) : (d.makeDir p).1.tree.files = d.tree.files := by
  unfold makeDir
  split
  · exact Tree.files_addDirs p
  · rfl

theorem makeDir_ok_iff {p : List α} :
    (d.makeDir p).2 = true ↔ ∀ q ∈ d.tree.files, ¬ q <+: p := by
  unfold makeDir
  split <;> simp_all

theorem mem_dirs_makeDir {p q : List α} (hok : (d.makeDir p).2 = true) :
    q ∈ (d.makeDir p).1.tree.dirs ↔ q ∈ d.tree.dirs ∨ q <+: p := by
  have hfree := makeDir_ok_iff.mp hok
  rw [makeDir, if_pos hfree]
  exact Tree.mem_dirs_addDirs hfree

theorem makeDir_failed {p : List α} (hfail : (d.makeDir p).2 = false) : (d.makeDir p).1 = d := by
  unfold makeDir at hfail ⊢
  split at hfail
  next => cases hfail
  next hno => rw [if_neg hno]

theorem dirs_write (p : List α) (n : α) (b : β) :
    (d.write p n b).1.tree.dirs = d.tree.dirs := by
  unfold write
  split
  · exact Tree.dirs_addFile ..
  · rfl

theorem read_makeDir (p q : List α) : (d.makeDir p).1.read q = d.read q := by
  unfold makeDir
  split
  · simp [read]
  · rfl

theorem read_write_of_ne {p q : List α} {n : α} (b : β) (hne : q ≠ p ++ [n]) :
    (d.write p n b).1.read q = d.read q := by
  unfold write
  split
  next h => simp [read, Tree.files_addFile h.1 h.2, hne]
  next => rfl

theorem read_write {p : List α} {n : α} {b : β} (hok : (d.write p n b).2 = true) :
    (d.write p n b).1.read (p ++ [n]) = some b := by
  unfold write at hok ⊢
  split at hok
  next h =>
    rw [if_pos h]
    simp [read, Tree.files_addFile h.1 h.2]
  next => cases hok

/-! ## What a sequence leaves -/

theorem read_exec_of_notMem {q : List α} {os : List (DiskOp α β)}
    (hq : q ∉ (wrote os).map Prod.fst) : (d.exec os).1.read q = d.read q := by
  induction os generalizing d with
  | nil => rfl
  | cons o os ih =>
      have hfirst : (d.apply o).1.read q = d.read q := by
        cases o with
        | makeDir p => exact read_makeDir p q
        | write p n b =>
            rw [wrote, List.map_cons, List.mem_cons, not_or] at hq
            exact read_write_of_ne b hq.1
      have hrest : q ∉ (wrote os).map Prod.fst := by
        cases o with
        | makeDir p => exact hq
        | write p n b => exact fun hmem => hq (List.mem_cons_of_mem _ hmem)
      rw [exec]
      split
      · rw [ih hrest, hfirst]
      · exact hfirst

theorem read_exec_of_mem {q : List α} {b : β} {os : List (DiskOp α β)}
    (honce : ((wrote os).map Prod.fst).Nodup) (hmem : (q, b) ∈ wrote os)
    (hok : (d.exec os).2 = true) : (d.exec os).1.read q = some b := by
  induction os generalizing d with
  | nil => cases hmem
  | cons o os ih =>
      rw [exec] at hok ⊢
      by_cases hfirst : (d.apply o).2 = true
      · rw [if_pos hfirst] at hok ⊢
        cases o with
        | makeDir p => exact ih honce hmem hok
        | write p n b' =>
            rw [wrote, List.map_cons, List.nodup_cons] at honce
            rcases List.mem_cons.mp hmem with heq | hmem
            · cases heq
              rw [read_exec_of_notMem honce.1]
              exact read_write hfirst
            · exact ih honce.2 hmem hok
      · rw [if_neg hfirst] at hok
        exact absurd hok hfirst

structure Free (d : Disk α β) (os : List (DiskOp α β)) : Prop where
  dirs : ∀ p ∈ made os, ∀ q ∈ d.tree.files, ¬ q <+: p
  files : ∀ w ∈ wrote os, w.1 ∉ d.tree.dirs

/-- A sequence goes through exactly if nothing stands in its way at the start. -/
theorem exec_ok_iff {os : List (DiskOp α β)} (horderly : Orderly (· ∈ d.tree.dirs) os)
    (hapart : ∀ w ∈ wrote os, ∀ p ∈ made os, ¬ w.1 <+: p) :
    (d.exec os).2 = true ↔ d.Free os := by
  induction os generalizing d with
  | nil => exact iff_of_true rfl ⟨by simp [made], by simp [wrote]⟩
  | cons o os ih =>
      rw [exec]
      cases o with
      | makeDir p =>
          by_cases hfree : ∀ q ∈ d.tree.files, ¬ q <+: p
          · have hdirs := fun q => Tree.mem_dirs_addDirs (q := q) hfree
            have hfirst : d.apply (.makeDir p) = ({ d with tree := d.tree.addDirs p }, true) :=
              if_pos hfree
            rw [hfirst, if_pos rfl, ih]
            · constructor
              · rintro ⟨hmade, hwrote⟩
                rw [Tree.files_addDirs] at hmade
                refine ⟨List.forall_mem_cons.mpr ⟨hfree, hmade⟩, fun w hw hdir => ?_⟩
                exact hwrote w hw ((hdirs _).mpr (.inl hdir))
              · rintro ⟨hmade, hwrote⟩
                refine ⟨?_, fun w hw hdir => ?_⟩
                · rw [Tree.files_addDirs]
                  exact (List.forall_mem_cons.mp hmade).2
                · rcases (hdirs _).mp hdir with hdir | hprefix
                  · exact hwrote w hw hdir
                  · exact hapart w hw p List.mem_cons_self hprefix
            · exact Orderly.mono horderly fun q hq => (hdirs q).mpr hq
            · exact fun w hw p' hp' => hapart w hw p' (List.mem_cons_of_mem _ hp')
          · have hfirst : (d.apply (.makeDir p)).2 = false := by
              simp only [apply, makeDir, if_neg hfree]
            rw [if_neg (by simp [hfirst]), hfirst]
            refine iff_of_false Bool.false_ne_true fun h => hfree ?_
            exact (List.forall_mem_cons.mp h.dirs).1
      | write p n b =>
          by_cases hdir : p ++ [n] ∈ d.tree.dirs
          · have hfirst : (d.apply (.write p n b)).2 = false := by
              simp [apply, write, hdir]
            rw [if_neg (by simp [hfirst]), hfirst]
            refine iff_of_false Bool.false_ne_true fun h => ?_
            exact h.files _ List.mem_cons_self hdir
          · have hfirst : d.apply (.write p n b) =
                (⟨d.tree.addFile p n, Function.update d.contents (p ++ [n]) b⟩, true) :=
              if_pos ⟨horderly.1, hdir⟩
            have hfiles := Tree.files_addFile horderly.1 hdir
            rw [hfirst, if_pos rfl, ih]
            · constructor
              · rintro ⟨hmade, hwrote⟩
                rw [Tree.dirs_addFile] at hwrote
                refine ⟨fun p' hp' q hq => hmade p' hp' q ?_, ?_⟩
                · rw [hfiles]
                  exact Finset.mem_insert_of_mem hq
                · exact List.forall_mem_cons.mpr ⟨hdir, hwrote⟩
              · rintro ⟨hmade, hwrote⟩
                refine ⟨fun p' hp' q hq => ?_, ?_⟩
                · rw [hfiles, Finset.mem_insert] at hq
                  rcases hq with rfl | hq
                  · exact hapart (_, b) List.mem_cons_self p' hp'
                  · exact hmade p' hp' q hq
                · rw [Tree.dirs_addFile]
                  exact (List.forall_mem_cons.mp hwrote).2
            · rw [Tree.dirs_addFile]
              exact horderly.2
            · exact fun w hw p' hp' => hapart w (List.mem_cons_of_mem _ hw) p' hp'

theorem dirs_subset_apply (d : Disk α β) (o : DiskOp α β) :
    d.tree.dirs ⊆ (d.apply o).1.tree.dirs := by
  cases o with
  | makeDir p =>
      by_cases hok : (d.makeDir p).2 = true
      · exact fun q hq => (mem_dirs_makeDir hok).mpr (.inl hq)
      · rw [apply, makeDir_failed (Bool.eq_false_of_not_eq_true hok)]
  | write p n b => rw [apply, dirs_write]

theorem dirs_subset_exec (d : Disk α β) (os : List (DiskOp α β)) :
    d.tree.dirs ⊆ (d.exec os).1.tree.dirs := by
  induction os generalizing d with
  | nil => exact Finset.Subset.refl _
  | cons o os ih =>
      rw [exec]
      split
      · exact (d.dirs_subset_apply o).trans (ih _)
      · exact d.dirs_subset_apply o

theorem dirs_of_exec {os : List (DiskOp α β)} {q : List α}
    (hq : q ∈ (d.exec os).1.tree.dirs) : q ∈ d.tree.dirs ∨ ∃ p ∈ made os, q <+: p := by
  induction os generalizing d with
  | nil => exact .inl hq
  | cons o os ih =>
      have hfirst : q ∈ (d.apply o).1.tree.dirs →
          q ∈ d.tree.dirs ∨ ∃ p ∈ made (o :: os), q <+: p := by
        intro hdir
        cases o with
        | makeDir p =>
            by_cases hok : (d.makeDir p).2 = true
            · refine ((mem_dirs_makeDir hok).mp hdir).imp_right fun hpre => ?_
              exact ⟨p, List.mem_cons_self, hpre⟩
            · rw [apply, makeDir_failed (Bool.eq_false_of_not_eq_true hok)] at hdir
              exact .inl hdir
        | write p n b =>
            rw [apply, dirs_write] at hdir
            exact .inl hdir
      rw [exec] at hq
      split at hq
      next =>
        rcases ih hq with hdir | ⟨p, hp, hpre⟩
        · exact hfirst hdir
        · right
          refine ⟨p, ?_, hpre⟩
          cases o with
          | makeDir => exact List.mem_cons_of_mem _ hp
          | write => exact hp
      next => exact hfirst hq

theorem dirs_exec {os : List (DiskOp α β)} (hok : (d.exec os).2 = true) {q : List α} :
    q ∈ (d.exec os).1.tree.dirs ↔ q ∈ d.tree.dirs ∨ ∃ p ∈ made os, q <+: p := by
  induction os generalizing d with
  | nil => simp [exec, made]
  | cons o os ih =>
      rw [exec] at hok ⊢
      by_cases hfirst : (d.apply o).2 = true
      · rw [if_pos hfirst] at hok ⊢
        rw [ih hok]
        cases o with
        | makeDir p =>
            rw [apply, mem_dirs_makeDir hfirst, made, List.exists_mem_cons_iff, or_assoc]
        | write p n b =>
            rw [apply, dirs_write, made]
      · rw [if_neg hfirst] at hok
        exact absurd hok hfirst

/-! ## Deleting -/

theorem read_delete {p : List α} (hp : p ≠ []) (q : List α) :
    (d.delete p).read q = if p <+: q then none else d.read q := by
  simp only [read, delete, Tree.mem_files_prune, List.forall_mem_singleton, hp, false_or]
  by_cases hbelow : p <+: q
  · simp [hbelow]
  · simp [hbelow]

theorem dirs_delete {p : List α} (hp : p ≠ []) (q : List α) :
    q ∈ (d.delete p).tree.dirs ↔ q ∈ d.tree.dirs ∧ ¬ p <+: q := by
  simp only [delete, Tree.mem_dirs_prune, List.forall_mem_singleton, hp, false_or]

def deleteDir (d : Disk α β) (p : List α) : Disk α β := if p ∈ d.tree.dirs then d.delete p else d

theorem mem_deleteDir {p q : List α} (hp : p ≠ []) (hq : ¬ p <+: q) :
    (q ∈ (d.deleteDir p).tree.dirs ↔ q ∈ d.tree.dirs) ∧
      (q ∈ (d.deleteDir p).tree.files ↔ q ∈ d.tree.files) ∧
      (d.deleteDir p).read q = d.read q := by
  unfold deleteDir
  split
  · have hread := read_delete (d := d) hp q
    rw [if_neg hq] at hread
    refine ⟨?_, ?_, hread⟩
    · rw [dirs_delete hp, and_iff_left hq]
    · simp [delete, Tree.mem_files_prune, hq]
  · exact ⟨Iff.rfl, Iff.rfl, rfl⟩

/-- What is left in the place of `p` is a file of that name, if anything. -/
theorem eq_of_mem_deleteDir {p q : List α} (hp : p ≠ []) (hq : p <+: q)
    (hmem : q ∈ (d.deleteDir p).tree.dirs ∪ (d.deleteDir p).tree.files) :
    q = p ∧ q ∈ d.tree.files := by
  unfold deleteDir at hmem
  split at hmem
  next =>
    have hnot : q ∉ (d.delete p).tree.files := by simp [delete, Tree.mem_files_prune, hq, hp]
    rw [Finset.mem_union, dirs_delete hp] at hmem
    rcases hmem with hmem | hmem
    · exact absurd hq hmem.2
    · exact absurd hmem hnot
  next hdir =>
    obtain ⟨xs, rfl⟩ := hq
    rcases List.eq_nil_or_concat xs with rfl | ⟨xs, n, rfl⟩
    · rw [List.append_nil] at hmem ⊢
      exact ⟨rfl, (Finset.mem_union.mp hmem).resolve_left hdir⟩
    · rw [List.concat_eq_append, ← List.append_assoc, Finset.mem_union] at hmem
      exfalso
      rcases hmem with hmem | hmem
      · exact hdir (Tree.dirs_of_append xs (d.tree.dir_parent _ _ hmem))
      · exact hdir (Tree.dirs_of_append xs (d.tree.file_parent _ _ hmem))

theorem files_deleteDir {p q : List α} (hp : p ≠ []) (hmem : q ∈ (d.deleteDir p).tree.files) :
    q ∈ d.tree.files := by
  by_cases hq : p <+: q
  · exact (eq_of_mem_deleteDir hp hq (Finset.mem_union_right _ hmem)).2
  · exact (mem_deleteDir hp hq).2.1.mp hmem

end Disk

end DirTree
