import Mathlib.Data.Finset.Basic
import ZiModem.Paths.Lexical

/-! # Trees of directories and files

A directory or file is named by the way down to it from the top. A tree is closed
under parents by construction: a file can only be added in a directory, and only
what is empty can be removed.

A path is walked from a directory one component at a time. Every name on the way
must be a directory of the tree; where the path leads, and which directories it
enters, can be told from the path alone.
-/

namespace DirTree

variable {α : Type*}

structure Tree (α : Type*) where
  dirs : Finset (List α)
  files : Finset (List α)
  top : [] ∈ dirs
  apart : Disjoint dirs files
  dir_parent : ∀ p n, p ++ [n] ∈ dirs → p ∈ dirs
  file_parent : ∀ p n, p ++ [n] ∈ files → p ∈ dirs

namespace Tree

variable (t : Tree α)

def Empty (p : List α) : Prop := ∀ n, p ++ [n] ∉ t.dirs ∧ p ++ [n] ∉ t.files

variable [DecidableEq α]

theorem empty_iff (p : List α) :
    t.Empty p ↔ ∀ q ∈ t.dirs ∪ t.files, q = [] ∨ q.dropLast ≠ p := by
  constructor
  · intro hempty q hq
    rcases List.eq_nil_or_concat q with rfl | ⟨p', n, rfl⟩
    · exact .inl rfl
    · right
      rw [List.concat_eq_append] at hq ⊢
      rw [List.dropLast_concat]
      rintro rfl
      rw [Finset.mem_union] at hq
      exact hq.elim (hempty n).1 (hempty n).2
  · intro hall n
    have hno : p ++ [n] ∉ t.dirs ∪ t.files := by
      intro hmem
      have hparent := hall _ hmem
      simp at hparent
    rw [Finset.mem_union, not_or] at hno
    exact hno

instance (p : List α) : Decidable (t.Empty p) := decidable_of_iff _ (t.empty_iff p).symm

/-! ## Changing a tree -/

/-- The file `n` in `p`, unless `p` is no directory or has a directory of that name. -/
def addFile (p : List α) (n : α) : Tree α :=
  if h : p ∈ t.dirs ∧ p ++ [n] ∉ t.dirs then
    { t with
      files := insert (p ++ [n]) t.files
      apart := by
        rw [Finset.disjoint_insert_right]
        exact ⟨h.2, t.apart⟩
      file_parent := by
        intro p' n' hmem
        rcases Finset.mem_insert.mp hmem with heq | hmem
        · rw [(List.append_inj' heq rfl).1]
          exact h.1
        · exact t.file_parent p' n' hmem }
  else t

def remove (q : List α) : Tree α :=
  if h : q ≠ [] ∧ t.Empty q then
    { dirs := t.dirs.erase q
      files := t.files.erase q
      top := Finset.mem_erase.mpr ⟨h.1.symm, t.top⟩
      apart := t.apart.mono (Finset.erase_subset _ _) (Finset.erase_subset _ _)
      dir_parent := by
        intro p n hmem
        have hbefore := Finset.mem_of_mem_erase hmem
        apply Finset.mem_erase.mpr ⟨_, t.dir_parent p n hbefore⟩
        rintro rfl
        exact (h.2 n).1 hbefore
      file_parent := by
        intro p n hmem
        have hbefore := Finset.mem_of_mem_erase hmem
        apply Finset.mem_erase.mpr ⟨_, t.file_parent p n hbefore⟩
        rintro rfl
        exact (h.2 n).2 hbefore }
  else t

def clear (p : List α) : Tree α :=
  have hparent : ∀ (q : List α) (n : α), ¬ (p <+: q ++ [n] ∧ q ++ [n] ≠ p) →
      ¬ (p <+: q ∧ q ≠ p) := by
    intro q n hkept hbelow
    apply hkept
    refine ⟨hbelow.1.trans (List.prefix_append q [n]), ?_⟩
    rintro rfl
    have hlen := hbelow.1.length_le
    rw [List.length_append, List.length_singleton] at hlen
    omega
  { dirs := t.dirs.filter fun q => ¬ (p <+: q ∧ q ≠ p)
    files := t.files.filter fun q => ¬ (p <+: q ∧ q ≠ p)
    top := by
      rw [Finset.mem_filter]
      refine ⟨t.top, ?_⟩
      rintro ⟨hpre, hne⟩
      exact hne (List.prefix_nil.mp hpre).symm
    apart := t.apart.mono (Finset.filter_subset _ _) (Finset.filter_subset _ _)
    dir_parent := by
      intro q n hmem
      rw [Finset.mem_filter] at hmem ⊢
      exact ⟨t.dir_parent q n hmem.1, hparent q n hmem.2⟩
    file_parent := by
      intro q n hmem
      rw [Finset.mem_filter] at hmem ⊢
      exact ⟨t.file_parent q n hmem.1, hparent q n hmem.2⟩ }

def prune (qs : List (List α)) : Tree α :=
  have hparent : ∀ (r : List α) (n : α), (∀ q ∈ qs, q = [] ∨ ¬ q <+: r ++ [n]) →
      ∀ q ∈ qs, q = [] ∨ ¬ q <+: r := by
    intro r n hkept q hq
    exact (hkept q hq).imp_right fun hnot hpre => hnot (hpre.trans (List.prefix_append r [n]))
  { dirs := t.dirs.filter fun r => ∀ q ∈ qs, q = [] ∨ ¬ q <+: r
    files := t.files.filter fun r => ∀ q ∈ qs, q = [] ∨ ¬ q <+: r
    top := by
      rw [Finset.mem_filter]
      refine ⟨t.top, fun q _ => ?_⟩
      rw [List.prefix_nil]
      exact em (q = [])
    apart := t.apart.mono (Finset.filter_subset _ _) (Finset.filter_subset _ _)
    dir_parent := by
      intro r n hmem
      rw [Finset.mem_filter] at hmem ⊢
      exact ⟨t.dir_parent r n hmem.1, hparent r n hmem.2⟩
    file_parent := by
      intro r n hmem
      rw [Finset.mem_filter] at hmem ⊢
      exact ⟨t.file_parent r n hmem.1, hparent r n hmem.2⟩ }

variable {t}

@[simp] theorem dirs_addFile (p : List α) (n : α) : (t.addFile p n).dirs = t.dirs := by
  unfold addFile
  split <;> rfl

theorem mem_files_addFile {p : List α} {n : α} (hp : p ∈ t.dirs) (hn : p ++ [n] ∉ t.dirs) :
    p ++ [n] ∈ (t.addFile p n).files := by
  unfold addFile
  rw [dif_pos ⟨hp, hn⟩]
  exact Finset.mem_insert_self _ _

theorem files_addFile {p : List α} {n : α} (hp : p ∈ t.dirs) (hn : p ++ [n] ∉ t.dirs) :
    (t.addFile p n).files = insert (p ++ [n]) t.files := by
  rw [addFile, dif_pos ⟨hp, hn⟩]

theorem remove_file {q : List α} (hq : q ∈ t.files) :
    (t.remove q).dirs = t.dirs ∧ (t.remove q).files = t.files.erase q := by
  have hnot : q ∉ t.dirs := fun hmem => Finset.disjoint_left.mp t.apart hmem hq
  have hempty : q ≠ [] ∧ t.Empty q := by
    refine ⟨fun hnil => hnot (hnil ▸ t.top), fun n => ⟨fun hmem => ?_, fun hmem => ?_⟩⟩
    · exact hnot (t.dir_parent q n hmem)
    · exact hnot (t.file_parent q n hmem)
  rw [remove, dif_pos hempty]
  exact ⟨Finset.erase_eq_of_notMem hnot, rfl⟩

theorem mem_dirs_remove {q r : List α} :
    r ∈ (t.remove q).dirs ↔ r ∈ t.dirs ∧ ¬ (r = q ∧ q ≠ [] ∧ t.Empty q) := by
  unfold remove
  split
  next h => simp [h, and_comm]
  next h => simp [h]

theorem mem_dirs_clear {p q : List α} :
    q ∈ (t.clear p).dirs ↔ q ∈ t.dirs ∧ ¬ (p <+: q ∧ q ≠ p) := Finset.mem_filter

theorem mem_dirs_prune {qs : List (List α)} {r : List α} :
    r ∈ (t.prune qs).dirs ↔ r ∈ t.dirs ∧ ∀ q ∈ qs, q = [] ∨ ¬ q <+: r := Finset.mem_filter

theorem mem_files_prune {qs : List (List α)} {r : List α} :
    r ∈ (t.prune qs).files ↔ r ∈ t.files ∧ ∀ q ∈ qs, q = [] ∨ ¬ q <+: r := Finset.mem_filter

omit [DecidableEq α] in
theorem ext_dirs_files {t' : Tree α} (hdirs : t.dirs = t'.dirs) (hfiles : t.files = t'.files) :
    t = t' := by
  cases t
  cases t'
  cases hdirs
  cases hfiles
  rfl

omit [DecidableEq α] in
theorem dirs_of_append {r : List α} (xs : List α) (h : r ++ xs ∈ t.dirs) : r ∈ t.dirs := by
  induction xs using List.reverseRecOn with
  | nil => rwa [List.append_nil] at h
  | append_singleton xs n ih =>
      rw [← List.append_assoc] at h
      exact ih (t.dir_parent _ n h)

theorem mem_of_append {r : List α} (xs : List α) (h : r ++ xs ∈ t.dirs ∪ t.files) :
    r ∈ t.dirs ∪ t.files := by
  rcases List.eq_nil_or_concat xs with rfl | ⟨xs, n, rfl⟩
  · rwa [List.append_nil] at h
  · rw [List.concat_eq_append, ← List.append_assoc] at h
    apply Finset.mem_union_left
    rcases Finset.mem_union.mp h with h | h
    · exact dirs_of_append xs (t.dir_parent _ n h)
    · exact dirs_of_append xs (t.file_parent _ n h)

theorem clear_eq_prune {p : List α} {ns : List α}
    (hall : ∀ n, p ++ [n] ∈ t.dirs ∪ t.files → n ∈ ns) :
    t.clear p = t.prune (ns.map fun n => p ++ [n]) := by
  have hkept : ∀ r ∈ t.dirs ∪ t.files, ¬ (p <+: r ∧ r ≠ p) ↔
      ∀ q ∈ ns.map fun n => p ++ [n], q = [] ∨ ¬ q <+: r := by
    intro r hr
    simp only [List.forall_mem_map, List.append_eq_nil_iff, List.cons_ne_self, and_false,
      false_or]
    constructor
    · rintro hout n - hpre
      apply hout
      refine ⟨(List.prefix_append p [n]).trans hpre, ?_⟩
      rintro rfl
      have hlength := hpre.length_le
      rw [List.length_append, List.length_singleton] at hlength
      omega
    · rintro hspared ⟨⟨xs, rfl⟩, hne⟩
      cases xs with
      | nil => simp at hne
      | cons n xs =>
          rw [List.append_cons] at hr
          exact hspared n (hall n (mem_of_append xs hr)) ⟨xs, by simp⟩
  apply ext_dirs_files
  · ext r
    rw [mem_dirs_clear, mem_dirs_prune]
    exact and_congr_right fun hr => hkept r (Finset.mem_union_left _ hr)
  · ext r
    rw [mem_files_prune]
    refine Finset.mem_filter.trans (and_congr_right fun hr => ?_)
    exact hkept r (Finset.mem_union_right _ hr)

theorem prune_append (qs qs' : List (List α)) : t.prune (qs ++ qs') = (t.prune qs).prune qs' := by
  apply ext_dirs_files
  · ext r
    simp only [mem_dirs_prune, List.forall_mem_append, and_assoc]
  · ext r
    simp only [mem_files_prune, List.forall_mem_append, and_assoc]

theorem prune_nil : t.prune [] = t := by
  apply ext_dirs_files
  · ext r
    simp [mem_dirs_prune]
  · ext r
    simp [mem_files_prune]

end Tree

/-! ## Walking a path -/

inductive Component (α : Type*)
  | here
  | up
  | name (n : α)
  deriving DecidableEq, Repr

def move (cur : List α) : Component α → List α
  | .here => cur
  | .up => cur.dropLast
  | .name n => cur ++ [n]

def goto (cur : List α) (cs : List (Component α)) : List α := cs.foldl move cur

def entered : List α → List (Component α) → List (List α)
  | _, [] => []
  | cur, .name n :: cs => (cur ++ [n]) :: entered (cur ++ [n]) cs
  | cur, c :: cs => entered (move cur c) cs

def trail (cur : List α) (cs : List (Component α)) : List (List α) := goto cur cs :: entered cur cs

/-- Without `..` a path only ever goes further down. -/
theorem prefix_goto {cs : List (Component α)} (hup : .up ∉ cs) (cur : List α) :
    cur <+: goto cur cs ∧ ∀ q ∈ trail cur cs, q <+: goto cur cs := by
  induction cs generalizing cur with
  | nil => simp [trail, goto, entered]
  | cons c cs ih =>
      rw [List.mem_cons, not_or] at hup
      obtain ⟨hcur, htrail⟩ := ih hup.2 (move cur c)
      rw [trail, List.forall_mem_cons] at htrail
      cases c with
      | up => exact absurd rfl hup.1
      | here => exact ⟨hcur, List.forall_mem_cons.mpr ⟨List.prefix_rfl, htrail.2⟩⟩
      | name n =>
          refine ⟨(List.prefix_append cur [n]).trans hcur, ?_⟩
          exact List.forall_mem_cons.mpr
            ⟨List.prefix_rfl, List.forall_mem_cons.mpr ⟨hcur, htrail.2⟩⟩

namespace Tree

variable [DecidableEq α] (t : Tree α)

/-- One component, where a name must be a directory. The start of a walk is not asked to be one: it
may be removed under the walker's feet. -/
def enter (cur : List α) : Component α → Option (List α)
  | .name n => if cur ++ [n] ∈ t.dirs then some (cur ++ [n]) else none
  | c => some (move cur c)

def walk (cur : List α) : List (Component α) → Option (List α)
  | [] => some cur
  | c :: cs => (t.enter cur c).bind fun cur => walk cur cs

def Leads (cur : List α) (cs : List (Component α)) : Prop :=
  ∃ p, t.walk cur cs = some p ∧ p ∈ t.dirs

/-- The parent and the name of what a path names whose last component is a name. -/
def target (cur : List α) (cs : List (Component α)) : Option (List α × α) :=
  match cs.getLast? with
  | some (.name n) => (t.walk cur cs.dropLast).map (·, n)
  | _ => none

variable {t} {cur p q : List α} {cs : List (Component α)}

theorem walk_eq_some_iff :
    t.walk cur cs = some p ↔ (∀ q ∈ entered cur cs, q ∈ t.dirs) ∧ p = goto cur cs := by
  induction cs generalizing cur with
  | nil => simp [walk, entered, goto, eq_comm]
  | cons c cs ih =>
      cases c with
      | here | up => exact ih
      | name n =>
          by_cases hdir : cur ++ [n] ∈ t.dirs
          · simp [walk, enter, entered, goto, move, hdir, ih]
          · simp [walk, enter, entered, hdir]

theorem leads_iff : t.Leads cur cs ↔ ∀ q ∈ trail cur cs, q ∈ t.dirs := by
  simp only [Leads, walk_eq_some_iff, trail, List.forall_mem_cons]
  constructor
  · rintro ⟨p, ⟨hall, rfl⟩, hdir⟩
    exact ⟨hdir, hall⟩
  · rintro ⟨hdir, hall⟩
    exact ⟨goto cur cs, ⟨hall, rfl⟩, hdir⟩

instance : Decidable (t.Leads cur cs) := decidable_of_iff _ leads_iff.symm

theorem target_eq_some_iff {n : α} :
    t.target cur cs = some (p, n) ↔ ∃ ds, cs = ds ++ [.name n] ∧ t.walk cur ds = some p := by
  rcases List.eq_nil_or_concat cs with rfl | ⟨ds, c, rfl⟩
  · simp [target]
  · simp only [List.concat_eq_append, target, List.getLast?_concat, List.dropLast_concat]
    constructor
    · intro h
      cases c with
      | here | up => cases h
      | name m =>
          obtain ⟨p', hwalk, heq⟩ := Option.map_eq_some_iff.mp h
          cases heq
          exact ⟨ds, rfl, hwalk⟩
    · rintro ⟨ds', heq, hwalk⟩
      obtain ⟨rfl, hlast⟩ := List.append_inj' heq rfl
      cases hlast
      simp [hwalk]

/-! ## What a path still leads to -/

theorem goto_of_target {n : α} (h : t.target cur cs = some (p, n)) : goto cur cs = p ++ [n] := by
  obtain ⟨ds, rfl, hwalk⟩ := target_eq_some_iff.mp h
  rw [(walk_eq_some_iff.mp hwalk).2, goto, List.foldl_append]
  rfl

/-- Only the directories matter to a walk. -/
theorem target_congr {t' : Tree α} (hdirs : t'.dirs = t.dirs) (cur : List α)
    (cs : List (Component α)) : t'.target cur cs = t.target cur cs := by
  apply Option.ext
  rintro ⟨p, n⟩
  rw [target_eq_some_iff, target_eq_some_iff]
  simp only [walk_eq_some_iff, hdirs]

theorem leads_of_subset {t' : Tree α} (hsub : t'.dirs ⊆ t.dirs) (h : t'.Leads cur cs) :
    t.Leads cur cs := by
  rw [leads_iff] at h ⊢
  exact fun q hq => hsub (h q hq)

/-- A path leads to a directory after a removal, unless it went into what was removed. -/
theorem leads_remove_iff (h : t.Leads cur cs) (hq : q ≠ []) :
    (t.remove q).Leads cur cs ↔ ¬ (q ∈ trail cur cs ∧ t.Empty q) := by
  rw [leads_iff] at h ⊢
  simp only [mem_dirs_remove]
  constructor
  · rintro hall ⟨hmem, hempty⟩
    exact (hall q hmem).2 ⟨rfl, hq, hempty⟩
  · intro hkept r hr
    refine ⟨h r hr, ?_⟩
    rintro ⟨rfl, -, hempty⟩
    exact hkept ⟨hr, hempty⟩

theorem leads_prune_iff (h : t.Leads cur cs) {qs : List (List α)} (hqs : ∀ q ∈ qs, q ≠ []) :
    (t.prune qs).Leads cur cs ↔ ∀ q ∈ qs, ∀ r ∈ trail cur cs, ¬ q <+: r := by
  rw [leads_iff] at h ⊢
  simp only [mem_dirs_prune]
  constructor
  · intro hall q hq r hr
    exact ((hall r hr).2 q hq).resolve_left (hqs q hq)
  · intro hspared r hr
    exact ⟨h r hr, fun q hq => .inr (hspared q hq r hr)⟩

theorem leads_clear_iff (h : t.Leads cur cs) :
    (t.clear p).Leads cur cs ↔ ∀ q ∈ trail cur cs, ¬ (p <+: q ∧ q ≠ p) := by
  rw [leads_iff] at h ⊢
  simp only [mem_dirs_clear]
  exact forall₂_congr fun q hq => and_iff_right (h q hq)

end Tree

/-! ## Paths in text -/

section Text

variable [DecidableEq α] (sep dot : α)

/-- The component between two separators; there is none where two of them follow each other. -/
def componentOf (text : List α) : Option (Component (List α)) :=
  if text = [] then none
  else if text = [dot] then some .here
  else if text = [dot, dot] then some .up
  else some (.name text)

def components (text : List α) : List (Component (List α)) :=
  (text.splitOn sep).filterMap (componentOf dot)

@[simp] theorem components_nil : components sep dot [] = [] := by
  simp [components, componentOf]

theorem components_append_sep (xs ys : List α) :
    components sep dot (xs ++ sep :: ys) = components sep dot xs ++ components sep dot ys := by
  rw [components, List.splitOn_append_cons_self, List.filterMap_append]
  rfl

theorem components_single {text : List α} (hsep : sep ∉ text) :
    components sep dot text = (componentOf dot text).toList := by
  rw [components, List.splitOn_eq_singleton hsep]
  cases h : componentOf dot text <;> simp [h]

end Text

/-! ## The lexical reading -/

def Component.part : Component α → Option (Lexical.Part α)
  | here => none
  | up => some .up
  | name n => some (.down n)

theorem parts_eq [DecidableEq α] (sep dot : α) (text : List α) :
    Lexical.parts sep dot text = (components sep dot text).filterMap Component.part := by
  have hpart : ∀ word : List α,
      Lexical.partOf dot word = (componentOf dot word).bind Component.part := by
    intro word
    by_cases hempty : word = []
    · simp [Lexical.partOf, componentOf, hempty]
    · by_cases hdot : word = [dot]
      · simp [Lexical.partOf, componentOf, hdot, Component.part]
      · by_cases hdots : word = [dot, dot]
        · simp [Lexical.partOf, componentOf, hdots, Component.part]
        · simp [Lexical.partOf, componentOf, hempty, hdot, hdots, Component.part]
  rw [Lexical.parts, components, List.filterMap_filterMap]
  exact List.filterMap_congr fun word _ => hpart word

theorem goto_eq_normal (cs : List (Component α)) :
    goto [] cs = (Lexical.climb (cs.filterMap Component.part)).names := by
  induction cs using List.reverseRecOn with
  | nil => rfl
  | append_singleton cs c ih =>
      have hgoto : goto [] (cs ++ [c]) = move (goto [] cs) c := by simp [goto]
      rw [hgoto, ih, List.filterMap_append, Lexical.climb_append]
      cases c with
      | here => exact congrArg Lexical.Climb.names (Lexical.Climb.comp_here _).symm
      | up => simp [move, Component.part, Lexical.climb, Lexical.Climb.push, Lexical.Climb.comp,
          List.dropLast_eq_take]
      | name n =>
          simp [move, Component.part, Lexical.climb, Lexical.Climb.push, Lexical.Climb.comp]

end DirTree
