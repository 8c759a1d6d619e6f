import Mathlib.Data.List.Basic

/-! # Patches of lines

A patch says for each file which lines stay, which go and which are new, in the
order of the file. It applies where the lines that it shows are there, and leaves
the others as they are.

What a patch turns into a given tree is determined by that tree: a patch that
shows other lines than it was made of, each changed by `f`, turns a tree into the
old result only if `f` leaves alone what stays or is new, and then only the tree
whose removed lines are changed by `f` as well.
-/

namespace LinePatch

variable {ρ α : Type*}

/-! ## One file -/

/-- One line: passed over unseen, shown and kept, shown and removed, or new. -/
inductive Edit (α : Type*)
  | skip
  | keep (a : α)
  | drop (a : α)
  | add (a : α)
  deriving DecidableEq, Repr

namespace Edit

def map (f : α → α) : Edit α → Edit α
  | skip => skip
  | keep a => keep (f a)
  | drop a => drop (f a)
  | add a => add (f a)

end Edit

section Script

variable [DecidableEq α]

/-- Apply the edits in order; what is behind the last of them stays. -/
def run : List (Edit α) → List α → Option (List α)
  | [], xs => some xs
  | .skip :: es, x :: xs => (run es xs).map (x :: ·)
  | .keep a :: es, x :: xs => if x = a then (run es xs).map (x :: ·) else none
  | .drop a :: es, x :: xs => if x = a then run es xs else none
  | .add a :: es, xs => (run es xs).map (a :: ·)
  | _ :: _, [] => none

def after : List (Edit α) → List α
  | [] => []
  | .keep a :: es | .add a :: es => a :: after es
  | .skip :: es | .drop _ :: es => after es

def lower (f : α → α) : List (Edit α) → List α → List α
  | .skip :: es, x :: xs | .keep _ :: es, x :: xs => x :: lower f es xs
  | .drop _ :: es, x :: xs => f x :: lower f es xs
  | .add _ :: es, xs => lower f es xs
  | _, xs => xs

variable {es : List (Edit α)} {xs xs' ys : List α} {a : α} {f : α → α}

theorem run_skip_iff : run (.skip :: es) xs = some ys ↔
    ∃ x xs₁ ys₁, xs = x :: xs₁ ∧ ys = x :: ys₁ ∧ run es xs₁ = some ys₁ := by
  cases xs with
  | nil => simp [run]
  | cons x xs =>
      simp only [run, Option.map_eq_some_iff]
      constructor
      · rintro ⟨ys₁, hrun, rfl⟩
        exact ⟨x, xs, ys₁, rfl, rfl, hrun⟩
      · rintro ⟨_, _, ys₁, heq, rfl, hrun⟩
        cases heq
        exact ⟨ys₁, hrun, rfl⟩

theorem run_keep_iff : run (.keep a :: es) xs = some ys ↔
    ∃ xs₁ ys₁, xs = a :: xs₁ ∧ ys = a :: ys₁ ∧ run es xs₁ = some ys₁ := by
  cases xs with
  | nil => simp [run]
  | cons x xs =>
      by_cases hx : x = a
      · subst hx
        simp only [run, if_true, Option.map_eq_some_iff]
        constructor
        · rintro ⟨ys₁, hrun, rfl⟩
          exact ⟨xs, ys₁, rfl, rfl, hrun⟩
        · rintro ⟨_, ys₁, heq, rfl, hrun⟩
          cases heq
          exact ⟨ys₁, hrun, rfl⟩
      · simp [run, hx]

theorem run_drop_iff : run (.drop a :: es) xs = some ys ↔
    ∃ xs₁, xs = a :: xs₁ ∧ run es xs₁ = some ys := by
  cases xs with
  | nil => simp [run]
  | cons x xs =>
      by_cases hx : x = a
      · simp [run, hx]
      · simp [run, hx]

theorem run_add_iff : run (.add a :: es) xs = some ys ↔
    ∃ ys₁, ys = a :: ys₁ ∧ run es xs = some ys₁ := by
  simp only [run, Option.map_eq_some_iff]
  exact exists_congr fun ys₁ => by rw [and_comm, eq_comm]

theorem run_map_iff (h : run es xs = some ys) :
    run (es.map (Edit.map f)) xs' = some ys ↔ (∀ a ∈ after es, f a = a) ∧ xs' = lower f es xs := by
  induction es generalizing xs xs' ys with
  | nil =>
      cases h
      simp [run, after, lower]
  | cons e es ih =>
      cases e with
      | skip =>
          obtain ⟨x, xs₁, ys₁, rfl, rfl, h₁⟩ := run_skip_iff.mp h
          simp only [List.map_cons, Edit.map, run_skip_iff, after, lower]
          constructor
          · rintro ⟨_, xs₁', _, rfl, heq, hrun⟩
            cases heq
            obtain ⟨hafter, rfl⟩ := (ih h₁).mp hrun
            exact ⟨hafter, rfl⟩
          · rintro ⟨hafter, rfl⟩
            exact ⟨x, _, ys₁, rfl, rfl, (ih h₁).mpr ⟨hafter, rfl⟩⟩
      | keep a =>
          obtain ⟨xs₁, ys₁, rfl, rfl, h₁⟩ := run_keep_iff.mp h
          simp only [List.map_cons, Edit.map, run_keep_iff, after, lower, List.forall_mem_cons]
          constructor
          · rintro ⟨xs₁', _, rfl, heq, hrun⟩
            obtain ⟨hfa, rfl⟩ := List.cons.inj heq
            obtain ⟨hafter, rfl⟩ := (ih h₁).mp hrun
            exact ⟨⟨hfa.symm, hafter⟩, by rw [← hfa]⟩
          · rintro ⟨⟨hfa, hafter⟩, rfl⟩
            exact ⟨_, ys₁, by rw [hfa], by rw [hfa], (ih h₁).mpr ⟨hafter, rfl⟩⟩
      | drop a =>
          obtain ⟨xs₁, rfl, h₁⟩ := run_drop_iff.mp h
          simp only [List.map_cons, Edit.map, run_drop_iff, after, lower]
          constructor
          · rintro ⟨xs₁', rfl, hrun⟩
            obtain ⟨hafter, rfl⟩ := (ih h₁).mp hrun
            exact ⟨hafter, rfl⟩
          · rintro ⟨hafter, rfl⟩
            exact ⟨_, rfl, (ih h₁).mpr ⟨hafter, rfl⟩⟩
      | add a =>
          obtain ⟨ys₁, rfl, h₁⟩ := run_add_iff.mp h
          simp only [List.map_cons, Edit.map, run_add_iff, after, lower, List.forall_mem_cons]
          constructor
          · rintro ⟨_, heq, hrun⟩
            obtain ⟨hfa, rfl⟩ := List.cons.inj heq
            obtain ⟨hafter, rfl⟩ := (ih h₁).mp hrun
            exact ⟨⟨hfa.symm, hafter⟩, rfl⟩
          · rintro ⟨⟨hfa, hafter⟩, rfl⟩
            exact ⟨ys₁, by rw [hfa], (ih h₁).mpr ⟨hafter, rfl⟩⟩

theorem after_subset (h : run es xs = some ys) : after es ⊆ ys := by
  induction es generalizing xs ys with
  | nil => simp [after]
  | cons e es ih =>
      cases e with
      | skip =>
          obtain ⟨x, xs₁, ys₁, rfl, rfl, h₁⟩ := run_skip_iff.mp h
          exact List.subset_cons_of_subset x (ih h₁)
      | keep a =>
          obtain ⟨xs₁, ys₁, rfl, rfl, h₁⟩ := run_keep_iff.mp h
          exact List.cons_subset_cons a (ih h₁)
      | drop a =>
          obtain ⟨xs₁, rfl, h₁⟩ := run_drop_iff.mp h
          exact ih h₁
      | add a =>
          obtain ⟨ys₁, rfl, h₁⟩ := run_add_iff.mp h
          exact List.cons_subset_cons a (ih h₁)

omit [DecidableEq α] in
theorem lower_eq_self (h : ∀ x ∈ xs, f x = x) : lower f es xs = xs := by
  fun_induction lower f es xs with
  | case1 es x xs ih | case2 a es x xs ih => rw [ih (List.forall_mem_cons.mp h).2]
  | case3 a es x xs ih =>
      obtain ⟨hx, hxs⟩ := List.forall_mem_cons.mp h
      rw [hx, ih hxs]
  | case4 a es xs ih => exact ih h
  | case5 => rfl

end Script

inductive FilePatch (α : Type*)
  | leave
  | edit (es : List (Edit α))
  | create (lines : List α)
  | delete (lines : List α)
  deriving DecidableEq, Repr

namespace FilePatch

def map (f : α → α) : FilePatch α → FilePatch α
  | leave => leave
  | edit es => edit (es.map (Edit.map f))
  | create lines => create (lines.map f)
  | delete lines => delete (lines.map f)

variable [DecidableEq α]

/-- Apply the patch to a file, which may be missing. A new file must not be there before, and one
that goes must be the one that the patch shows. -/
def apply : FilePatch α → Option (List α) → Option (Option (List α))
  | leave, file => some file
  | edit es, some lines => (run es lines).map some
  | create lines, none => some (some lines)
  | delete lines, some lines' => if lines' = lines then some none else none
  | _, _ => none

def after : FilePatch α → List α
  | edit es => LinePatch.after es
  | create lines => lines
  | leave | delete _ => []

/-- The file, with the lines changed by `f` that the patch removes. -/
def lower (f : α → α) : FilePatch α → Option (List α) → Option (List α)
  | edit es, file => file.map (LinePatch.lower f es)
  | delete _, file => file.map (List.map f)
  | leave, file | create _, file => file

variable {fp : FilePatch α} {file file' result : Option (List α)} {f : α → α}

theorem apply_map_iff (h : fp.apply file = some result) :
    (fp.map f).apply file' = some result ↔ (∀ a ∈ fp.after, f a = a) ∧ file' = fp.lower f file := by
  cases fp with
  | leave =>
      cases h
      simp [map, apply, after, lower]
  | edit es =>
      cases file with
      | none => cases h
      | some lines =>
          obtain ⟨ys, hrun, rfl⟩ := Option.map_eq_some_iff.mp h
          cases file' with
          | none => simp [map, apply, after, lower]
          | some lines' => simp [map, apply, after, lower, run_map_iff hrun]
  | create lines =>
      cases file with
      | some lines' => cases h
      | none =>
          cases h
          cases file' with
          | none =>
              have hmap : lines.map f = lines ↔ ∀ a ∈ lines, f a = a := by
                simpa using List.map_inj_left (f := f) (g := id) (l := lines)
              simp [map, apply, after, lower, hmap]
          | some lines' => simp [map, apply, lower]
  | delete lines =>
      cases file with
      | none => cases h
      | some lines' =>
          obtain ⟨rfl, hresult⟩ := Option.ite_none_right_eq_some.mp h
          cases hresult
          cases file' with
          | none => simp [map, apply, after, lower]
          | some lines'' => simp [map, apply, after, lower]

theorem after_mem (h : fp.apply file = some result) {a : α} (ha : a ∈ fp.after) :
    ∃ lines, result = some lines ∧ a ∈ lines := by
  cases fp with
  | leave | delete lines => cases ha
  | edit es =>
      cases file with
      | none => cases h
      | some lines =>
          obtain ⟨ys, hrun, rfl⟩ := Option.map_eq_some_iff.mp h
          exact ⟨ys, rfl, after_subset hrun ha⟩
  | create lines =>
      cases file with
      | some lines' => cases h
      | none =>
          cases h
          exact ⟨lines, rfl, ha⟩

omit [DecidableEq α] in
theorem lower_eq_self (h : ∀ lines, file = some lines → ∀ x ∈ lines, f x = x) :
    fp.lower f file = file := by
  cases file with
  | none => cases fp <;> rfl
  | some lines =>
      have hlines := h lines rfl
      cases fp with
      | leave | create _ => rfl
      | edit es => exact congrArg some (LinePatch.lower_eq_self hlines)
      | delete _ =>
          have hmap : lines.map f = lines := by
            simpa using (List.map_inj_left (f := f) (g := id)).mpr hlines
          exact congrArg some hmap

end FilePatch

/-! ## A tree of files -/

/-- The files by name; `none` where there is no file. -/
abbrev Tree (ρ α : Type*) := ρ → Option (List α)

structure Patch (ρ α : Type*) where
  entries : List (ρ × FilePatch α)
  deriving DecidableEq, Repr

namespace Patch

def map (f : α → α) (p : Patch ρ α) : Patch ρ α := ⟨p.entries.map fun e => (e.1, e.2.map f)⟩

section Names

variable [DecidableEq ρ]

def file (p : Patch ρ α) (name : ρ) : FilePatch α := (p.entries.lookup name).getD .leave

theorem file_map (p : Patch ρ α) (f : α → α) (name : ρ) :
    (p.map f).file name = (p.file name).map f := by
  obtain ⟨entries⟩ := p
  induction entries with
  | nil => rfl
  | cons e entries ih =>
      obtain ⟨other, edit⟩ := e
      by_cases he : name = other
      · simp [file, map, he]
      · have hbeq : (name == other) = false := by simpa using he
        simpa [file, map, List.lookup_cons, hbeq] using ih

theorem file_of_not_mem {p : Patch ρ α} {name : ρ} (h : ∀ e ∈ p.entries, e.1 ≠ name) :
    p.file name = .leave := by
  have hlookup : p.entries.lookup name = none := by
    rw [List.lookup_eq_none_iff]
    intro e he
    simpa using (h e he).symm
  rw [file, hlookup]
  rfl

end Names

variable [DecidableEq ρ] [DecidableEq α]

def apply (p : Patch ρ α) (A : Tree ρ α) : Option (Tree ρ α) :=
  if ∀ e ∈ p.entries, ((p.file e.1).apply (A e.1)).isSome then
    some fun name => ((p.file name).apply (A name)).getD none
  else none

def Spares (p : Patch ρ α) (f : α → α) : Prop := ∀ name, ∀ a ∈ (p.file name).after, f a = a

/-- The tree, with the lines changed by `f` that the patch removes. -/
def lower (p : Patch ρ α) (f : α → α) (A : Tree ρ α) : Tree ρ α :=
  fun name => (p.file name).lower f (A name)

variable {p : Patch ρ α} {A A' B : Tree ρ α} {f : α → α}

theorem apply_eq_some_iff :
    p.apply A = some B ↔ ∀ name, (p.file name).apply (A name) = some (B name) := by
  simp only [apply, Option.ite_none_right_eq_some, Option.some.injEq]
  constructor
  · rintro ⟨hall, rfl⟩ name
    by_cases hname : ∃ e ∈ p.entries, e.1 = name
    · obtain ⟨e, he, rfl⟩ := hname
      obtain ⟨result, hresult⟩ := Option.isSome_iff_exists.mp (hall e he)
      simp [hresult]
    · push Not at hname
      simp [file_of_not_mem hname, FilePatch.apply]
  · intro hall
    constructor
    · intro e _
      rw [hall e.1]
      rfl
    · funext name
      rw [hall name]
      rfl

/-- Which trees the changed patch turns into the same result. -/
theorem apply_map_iff (h : p.apply A = some B) :
    (p.map f).apply A' = some B ↔ p.Spares f ∧ A' = p.lower f A := by
  rw [apply_eq_some_iff] at h ⊢
  simp only [file_map, FilePatch.apply_map_iff (h _), forall_and, Spares, funext_iff, lower]

/-- Where `f` changes no line of the two trees, the changed patch takes only the first of them to
the second. -/
theorem spares_lower_iff (h : p.apply A = some B)
    (hA : ∀ name lines, A name = some lines → ∀ a ∈ lines, f a = a)
    (hB : ∀ name lines, B name = some lines → ∀ a ∈ lines, f a = a) :
    p.Spares f ∧ A' = p.lower f A ↔ A' = A := by
  have hlower : p.lower f A = A := by
    funext name
    exact FilePatch.lower_eq_self (hA name)
  have hspares : p.Spares f := by
    intro name a ha
    obtain ⟨lines, hlines, hmem⟩ := FilePatch.after_mem (apply_eq_some_iff.mp h name) ha
    exact hB name lines hlines a hmem
  rw [hlower, and_iff_right hspares]

end Patch

end LinePatch
