import ZiModem.Hal.Spiffs

/-! # What `format` reports

`SPIFFSClass::format` lists the data root and calls `remove_all` on every entry,
all with one `std::error_code`. Each call sets it or clears it, so that the value
at the end is that of the last one. Which entries the listing gives, in which
order, where it breaks off and which removals fail is decided by the file system.

The path of an entry goes through the path of the root, and `remove_all` of a path
that leads nowhere is no error.
-/

namespace ZiModem.Hal

open DirTree

/-- What comes of `remove_all` on an existing path; a removal that fails may have taken away some of
what lies below, named by the ways down. -/
inductive Removal
  | removed
  | failed (below : List (List UInt8 × List (List UInt8)))
  deriving DecidableEq, Repr

namespace Removal

/-- What the removal of `q` takes away, each with all that is below. -/
def gone (q : List (List UInt8)) : Removal → List (List (List UInt8))
  | removed => [q]
  | failed below => below.map fun r => q ++ r.1 :: r.2

def fails : Removal → Bool
  | removed => false
  | failed _ => true

end Removal

def IsName (n : List UInt8) : Prop := slash ∉ n ∧ componentOf dot n = some (.name n)

instance (n : List UInt8) : Decidable (IsName n) := inferInstanceAs (Decidable (_ ∧ _))

namespace Spiffs

/-- What iterating over the data root gives: the names of entries with what comes of their removal,
and whether the end is reached. If it is not, the iterator throws. -/
structure Listing (s : Spiffs) where
  entries : List (List UInt8 × Removal)
  ends : Bool
  readable : s.RootExists
  names : ∀ e ∈ entries, IsName e.1
  nodup : (entries.map Prod.fst).Nodup
  present : ∀ e ∈ entries, s.rootDir ++ [e.1] ∈ s.disk.dirs ∪ s.disk.files
  complete : ends = true → ∀ n, s.rootDir ++ [n] ∈ s.disk.dirs ∪ s.disk.files →
    n ∈ entries.map Prod.fst

/-- `std::filesystem::remove_all` of the path of an entry, and the error code it leaves. -/
def removeAll (s : Spiffs) (text : List UInt8) (r : Removal) : Spiffs × Bool :=
  match s.target text with
  | none => (s, false)
  | some (p, n) =>
      if p ++ [n] ∈ s.disk.dirs ∪ s.disk.files then
        ({ s with disk := s.disk.prune (r.gone (p ++ [n])) }, r.fails)
      else (s, false)

def formatEntry (s : Spiffs × Bool) (e : List UInt8 × Removal) : Spiffs × Bool :=
  s.1.removeAll (pathAppend s.1.root.dir e.1) e.2

/-- `SPIFFSClass::format`, and what it returns: nothing when the iterator throws. Without a listing
the root could not be read, which sets the error code. -/
def formatListed (s : Spiffs) : Option s.Listing → Spiffs × Option Bool
  | none => (s, some false)
  | some l =>
      let (s', ec) := l.entries.foldl formatEntry (s, false)
      (s', if l.ends then some (!ec) else none)

def ReportsTruly (s : Spiffs) (l : Option s.Listing) : Prop :=
  (s.formatListed l).2 = some true →
    (s.formatListed l).1.RootExists ∧ (s.formatListed l).1.disk.Empty s.rootDir

/-- The removal leaves in place what the configured path of the root goes through. -/
def Spares (s : Spiffs) (e : List UInt8 × Removal) : Prop :=
  ∀ g ∈ e.2.gone (s.rootDir ++ [e.1]), ∀ q ∈ s.rootTrail, ¬ g <+: q

/-- No failure is forgotten: either there is none, and the root stays in place; or the last removal
fails, and until then the root stays in place. -/
def FailuresSurface (s : Spiffs) (entries : List (List UInt8 × Removal)) : Prop :=
  (∀ e ∈ entries, s.Spares e ∧ e.2.fails = false) ∨
    ∃ before e, entries = before ++ [e] ∧ e.2.fails = true ∧ ∀ e' ∈ before, s.Spares e'

/-! ## One entry -/

section Entry

variable {s : Spiffs} {e : List UInt8 × Removal} {entries : List (List UInt8 × Removal)}

def goneBy (s : Spiffs) (entries : List (List UInt8 × Removal)) : List (List (List UInt8)) :=
  entries.flatMap fun e => e.2.gone (s.rootDir ++ [e.1])

def without (s : Spiffs) (entries : List (List UInt8 × Removal)) : Spiffs :=
  { s with disk := s.disk.prune (s.goneBy entries) }

theorem entry_prefix_of_gone {q g : List (List UInt8)} {r : Removal} (hg : g ∈ r.gone q) :
    q <+: g ∧ (r.fails = true → g ≠ q) := by
  cases r with
  | removed =>
      rw [List.mem_singleton.mp hg]
      exact ⟨List.prefix_rfl, nofun⟩
  | failed below =>
      obtain ⟨r, -, rfl⟩ := List.mem_map.mp hg
      exact ⟨List.prefix_append _ _, fun _ => by simp⟩

theorem gone_ne_nil {g : List (List UInt8)} (hg : g ∈ s.goneBy entries) : g ≠ [] := by
  obtain ⟨e, -, hg⟩ := List.mem_flatMap.mp hg
  rintro rfl
  have hpre := List.prefix_nil.mp (entry_prefix_of_gone hg).1
  simp at hpre

theorem target_entry {n : List UInt8} (hn : IsName n) :
    s.target (pathAppend s.root.dir n) =
      (s.disk.walk (s.start s.root.dir) (components slash dot s.root.dir)).map (·, n) := by
  have hhead : n.head? ≠ some slash := fun h => hn.1 (List.mem_of_head? h)
  have hstart : s.start (pathAppend s.root.dir n) = s.start s.root.dir := by
    simp only [start, absolute_pathAppend hhead]
  rw [target, hstart, components_pathAppend hhead, components_single slash dot hn.1, hn.2]
  simp [DirTree.Tree.target]

theorem rootExists_without_iff (h : s.RootExists) :
    (s.without entries).RootExists ↔ ∀ e ∈ entries, s.Spares e := by
  have hleads : (s.without entries).RootExists ↔
      ∀ g ∈ s.goneBy entries, ∀ q ∈ s.rootTrail, ¬ g <+: q :=
    DirTree.Tree.leads_prune_iff h fun g hg => gone_ne_nil hg
  rw [hleads]
  simp only [goneBy, List.forall_mem_flatMap, Spares]

theorem mem_without_iff {n : List UInt8} :
    s.rootDir ++ [n] ∈ (s.without entries).disk.dirs ∪ (s.without entries).disk.files ↔
      s.rootDir ++ [n] ∈ s.disk.dirs ∪ s.disk.files ∧ ∀ e ∈ entries, e.1 = n → e.2.fails = true := by
  have hkept : (∀ g ∈ s.goneBy entries, g = [] ∨ ¬ g <+: s.rootDir ++ [n]) ↔
      ∀ e ∈ entries, e.1 = n → e.2.fails = true := by
    simp only [goneBy, List.forall_mem_flatMap]
    apply forall₂_congr
    rintro ⟨m, r⟩ he
    constructor
    · rintro hkept rfl
      cases r with
      | removed => simp [Removal.gone] at hkept
      | failed below => rfl
    · intro hfails g hg
      right
      intro hpre
      obtain ⟨hentry, hne⟩ := entry_prefix_of_gone hg
      have hm : s.rootDir ++ [m] = s.rootDir ++ [n] :=
        (hentry.trans hpre).eq_of_length (by simp)
      have hname : m = n := by simpa using hm
      apply hne (hfails hname)
      rw [hm]
      exact hpre.eq_of_length_le (hm ▸ hentry.length_le)
  simp only [without, Finset.mem_union, DirTree.Tree.mem_dirs_prune, DirTree.Tree.mem_files_prune,
    hkept, ← or_and_right]

theorem formatEntry_present (ec : Bool) (h : s.RootExists) (hn : IsName e.1)
    (hpresent : s.rootDir ++ [e.1] ∈ s.disk.dirs ∪ s.disk.files) :
    formatEntry (s, ec) e = (s.without [e], e.2.fails) := by
  obtain ⟨p, hwalk, -⟩ := h
  obtain rfl : p = s.rootDir := (DirTree.Tree.walk_eq_some_iff.mp hwalk).2
  simp only [formatEntry, removeAll, target_entry hn, hwalk, Option.map_some, if_pos hpresent]
  simp [without, goneBy]

/-- Once the root is out of place, nothing more is removed, and that is no error. -/
theorem formatEntry_gone (ec : Bool) (hroot : s.rootDir ∈ s.disk.dirs) (h : ¬ s.RootExists)
    (hn : IsName e.1) : formatEntry (s, ec) e = (s, false) := by
  have hwalk : s.disk.walk (s.start s.root.dir) (components slash dot s.root.dir) = none := by
    rw [Option.eq_none_iff_forall_ne_some]
    intro p hwalk
    have hp : p = s.rootDir := (DirTree.Tree.walk_eq_some_iff.mp hwalk).2
    exact h ⟨p, hwalk, hp ▸ hroot⟩
  simp [formatEntry, removeAll, target_entry hn, hwalk]

end Entry

/-! ## The loop -/

section Loop

variable {s : Spiffs} {entries : List (List UInt8 × Removal)}

theorem rootDir_mem (h : s.RootExists) : s.rootDir ∈ s.disk.dirs :=
  DirTree.Tree.leads_iff.mp h _ List.mem_cons_self

theorem without_nil : s.without [] = s := by
  simp only [without, goneBy, List.flatMap_nil, DirTree.Tree.prune_nil]

theorem without_append (xs ys : List (List UInt8 × Removal)) :
    s.without (xs ++ ys) = (s.without xs).without ys := by
  simp only [without, goneBy, List.flatMap_append, DirTree.Tree.prune_append]
  rfl

theorem rootDir_mem_without (h : s.rootDir ∈ s.disk.dirs) :
    (s.without entries).rootDir ∈ (s.without entries).disk.dirs := by
  apply DirTree.Tree.mem_dirs_prune.mpr
  refine ⟨h, fun g hg => .inr fun hpre => ?_⟩
  obtain ⟨e, -, hg⟩ := List.mem_flatMap.mp hg
  have hlength : (s.rootDir ++ [e.1]).length ≤ s.rootDir.length :=
    ((entry_prefix_of_gone hg).1.trans hpre).length_le
  rw [List.length_append, List.length_singleton] at hlength
  omega

/-- The loop over entries all of which spare the root: each removal takes place, and the error code
is that of the last. -/
theorem loop_spared (hroot : s.RootExists) (hnames : ∀ e ∈ entries, IsName e.1)
    (hnodup : (entries.map Prod.fst).Nodup)
    (hpresent : ∀ e ∈ entries, s.rootDir ++ [e.1] ∈ s.disk.dirs ∪ s.disk.files)
    (hspares : ∀ e ∈ entries, s.Spares e) (ec : Bool) :
    entries.foldl formatEntry (s, ec) =
      (s.without entries, (entries.getLast?.map (·.2.fails)).getD ec) := by
  induction entries using List.reverseRecOn with
  | nil => simp [without_nil]
  | append_singleton before e ih =>
      simp only [List.forall_mem_append, List.forall_mem_singleton] at hnames hpresent hspares
      rw [List.map_append, List.nodup_append] at hnodup
      rw [List.foldl_append, ih hnames.1 hnodup.1 hpresent.1 hspares.1, List.foldl_cons,
        List.foldl_nil, formatEntry_present _ ((rootExists_without_iff hroot).mpr hspares.1)
        hnames.2, without_append]
      · simp
      · apply mem_without_iff.mpr
        refine ⟨hpresent.2, fun e' he' heq => ?_⟩
        have hapart := hnodup.2.2 e'.1 (List.mem_map_of_mem he') e.1 (by simp)
        exact absurd heq hapart

theorem loop_gone (hdir : s.rootDir ∈ s.disk.dirs) (hgone : ¬ s.RootExists)
    (hnames : ∀ e ∈ entries, IsName e.1) (ec : Bool) :
    entries.foldl formatEntry (s, ec) = (s, if entries = [] then ec else false) := by
  induction entries generalizing ec with
  | nil => rfl
  | cons e rest ih =>
      rw [List.forall_mem_cons] at hnames
      rw [List.foldl_cons, formatEntry_gone ec hdir hgone hnames.1, ih hnames.2]
      simp

end Loop

section Report

variable {s : Spiffs}

theorem spares_or_split (entries : List (List UInt8 × Removal)) :
    (∀ e ∈ entries, s.Spares e) ∨
      ∃ before e after, entries = before ++ e :: after ∧ (∀ e' ∈ before, s.Spares e') ∧
        ¬ s.Spares e := by
  induction entries with
  | nil => simp
  | cons e rest ih =>
      by_cases he : s.Spares e
      · rcases ih with hall | ⟨before, e', after, rfl, hbefore, he'⟩
        · exact .inl (List.forall_mem_cons.mpr ⟨he, hall⟩)
        · exact .inr ⟨e :: before, e', after, rfl, List.forall_mem_cons.mpr ⟨he, hbefore⟩, he'⟩
      · exact .inr ⟨[], e, rest, rfl, by simp, he⟩

theorem empty_without_iff (l : s.Listing) (hends : l.ends = true) :
    (s.without l.entries).disk.Empty s.rootDir ↔ ∀ e ∈ l.entries, e.2.fails = false := by
  have hempty : (s.without l.entries).disk.Empty s.rootDir ↔ ∀ n, s.rootDir ++ [n] ∉
      (s.without l.entries).disk.dirs ∪ (s.without l.entries).disk.files := by
    simp only [DirTree.Tree.Empty, Finset.mem_union, not_or]
  rw [hempty]
  simp only [mem_without_iff, not_and]
  constructor
  · intro hnone e he
    by_contra hfails
    apply hnone e.1 (l.present e he)
    intro e' he' heq
    have hsame : e' = e := List.inj_on_of_nodup_map l.nodup he' he heq
    rw [hsame]
    simpa using hfails
  · intro hnone n hpresent hall
    obtain ⟨e, he, rfl⟩ := List.mem_map.mp (l.complete hends n hpresent)
    have hfails := hall e he rfl
    rw [hnone e he] at hfails
    cases hfails

/-- Where every removal spares the root, the last one must fail if any does. -/
theorem reports_spared (l : s.Listing) (hends : l.ends = true)
    (hspares : ∀ e ∈ l.entries, s.Spares e) :
    s.ReportsTruly (some l) ↔ s.FailuresSurface l.entries := by
  have hroot : (s.without l.entries).RootExists := (rootExists_without_iff l.readable).mpr hspares
  have hloop := loop_spared l.readable l.names l.nodup l.present hspares false
  have hempty := empty_without_iff l hends
  simp only [ReportsTruly, formatListed, hloop, hends, if_true, Option.some.injEq,
    Bool.not_eq_true', hroot, true_and, hempty]
  constructor
  · intro htrue
    by_cases hlast : (l.entries.getLast?.map (·.2.fails)).getD false = false
    · exact .inl fun e he => ⟨hspares e he, htrue hlast e he⟩
    · rcases List.eq_nil_or_concat l.entries with hnil | ⟨before, e, hconcat⟩
      · simp [hnil] at hlast
      · rw [List.concat_eq_append] at hconcat
        refine .inr ⟨before, e, hconcat, by simpa [hconcat] using hlast, fun e' he' => ?_⟩
        exact hspares e' (by simp [hconcat, he'])
  · rintro (hnone | ⟨before, e, hconcat, hfails, -⟩) hlast
    · exact fun e he => (hnone e he).2
    · simp [hconcat, hfails] at hlast

/-- Where a removal takes the root out of place, it must be the last and fail. -/
theorem reports_unspared (l : s.Listing) (hends : l.ends = true)
    {before after : List (List UInt8 × Removal)} {e : List UInt8 × Removal}
    (hsplit : l.entries = before ++ e :: after) (hbefore : ∀ e' ∈ before, s.Spares e')
    (he : ¬ s.Spares e) : s.ReportsTruly (some l) ↔ s.FailuresSurface l.entries := by
  have hnames := l.names
  have hnodup := l.nodup
  have hpresent := l.present
  rw [hsplit] at hnames hnodup hpresent
  rw [List.map_append, List.map_cons, List.nodup_append] at hnodup
  simp only [List.forall_mem_append, List.forall_mem_cons] at hnames hpresent
  have hintact : (s.without before).RootExists := (rootExists_without_iff l.readable).mpr hbefore
  have hthere : s.rootDir ++ [e.1] ∈
      (s.without before).disk.dirs ∪ (s.without before).disk.files := by
    apply mem_without_iff.mpr
    refine ⟨hpresent.2.1, fun e' he' heq => ?_⟩
    exact absurd heq (hnodup.2.2 e'.1 (List.mem_map_of_mem he') e.1 List.mem_cons_self)
  have hgone : ¬ (s.without (before ++ [e])).RootExists := by
    rw [rootExists_without_iff l.readable]
    exact fun hall => he (hall e (by simp))
  have hloop : l.entries.foldl formatEntry (s, false) =
      (s.without (before ++ [e]), if after = [] then e.2.fails else false) := by
    rw [hsplit, List.foldl_append, loop_spared l.readable hnames.1 hnodup.1 hpresent.1 hbefore,
      List.foldl_cons, formatEntry_present _ hintact hnames.2.1 hthere, ← without_append,
      loop_gone (rootDir_mem_without (rootDir_mem l.readable)) hgone hnames.2.2]
  simp only [ReportsTruly, formatListed, hloop, hends, if_true, Option.some.injEq,
    Bool.not_eq_true', hgone, false_and, imp_false, Bool.not_eq_false]
  constructor
  · intro hfails
    by_cases hlast : after = []
    · rw [if_pos hlast] at hfails
      exact .inr ⟨before, e, by rw [hsplit, hlast], hfails, hbefore⟩
    · rw [if_neg hlast] at hfails
      cases hfails
  · rintro (hnone | ⟨before', last, hconcat, hfails, hspared⟩)
    · exact absurd (hnone e (by simp [hsplit])).1 he
    · rcases List.eq_nil_or_concat after with rfl | ⟨after, last', rfl⟩
      · obtain ⟨-, heq⟩ := List.append_inj' (hsplit.symm.trans hconcat) rfl
        cases heq
        simp [hfails]
      · have hmem : e ∈ before' := by
          rw [List.concat_eq_append, ← List.cons_append, ← List.append_assoc] at hsplit
          obtain ⟨heq, -⟩ := List.append_inj' (hsplit.symm.trans hconcat) rfl
          simp [← heq]
        exact absurd (hspared e hmem) he

/-- A report of success is true exactly where the listing breaks off or no failure is forgotten. -/
theorem reportsTruly_iff (l : Option s.Listing) :
    s.ReportsTruly l ↔ ∀ listing ∈ l, listing.ends = true → s.FailuresSurface listing.entries := by
  cases l with
  | none => simp [ReportsTruly, formatListed]
  | some l =>
      simp only [Option.mem_def, Option.some.injEq, forall_eq']
      by_cases hends : l.ends = true
      · rw [imp_iff_right hends]
        rcases spares_or_split (s := s) l.entries with hspares |
          ⟨before, e, after, hsplit, hbefore, he⟩
        · exact reports_spared l hends hspares
        · exact reports_unspared l hends hsplit hbefore he
      · simp [ReportsTruly, formatListed, hends]

/-- With no failure, and a root whose path goes through nothing inside it, any listing clears the
root. -/
theorem formatListed_of_removed (l : s.Listing) (hends : l.ends = true)
    (hstrikes : ¬ s.Strikes .format) (hremoved : ∀ e ∈ l.entries, e.2 = .removed) :
    s.formatListed (some l) = (s.format.1, some s.format.2) := by
  have hspares : ∀ e ∈ l.entries, s.Spares e := by
    intro e he g hg q hq hpre
    rw [hremoved e he] at hg
    rw [List.mem_singleton.mp hg] at hpre
    apply hstrikes
    refine ⟨q, hq, (List.prefix_append _ _).trans hpre, ?_⟩
    rintro rfl
    have hlength := hpre.length_le
    rw [List.length_append, List.length_singleton] at hlength
    omega
  have hgone : s.goneBy l.entries = (l.entries.map Prod.fst).map fun n => s.rootDir ++ [n] := by
    rw [goneBy, List.map_map, List.map_eq_flatMap]
    apply List.flatMap_congr
    intro e he
    rw [hremoved e he]
    rfl
  have hlast : (l.entries.getLast?.map (·.2.fails)).getD false = false := by
    cases h : l.entries.getLast? with
    | none => rfl
    | some e => simp [hremoved e (List.mem_of_getLast? h), Removal.fails]
  have hloop := loop_spared l.readable l.names l.nodup l.present hspares false
  obtain ⟨p, hwalk, hdir⟩ := l.readable
  obtain rfl : p = s.rootDir := (DirTree.Tree.walk_eq_some_iff.mp hwalk).2
  simp only [formatListed, hloop, hlast, hends, if_true, Bool.not_false, format, hwalk,
    if_pos hdir, without, hgone, DirTree.Tree.clear_eq_prune (l.complete hends)]

end Report

def twoFiles : Spiffs :=
  { emptyRoot with
    disk := (emptyRoot.disk.addFile [[100]] [97]).addFile [[100]] [98] }

theorem twoFiles_content (n : List UInt8) :
    twoFiles.rootDir ++ [n] ∈ twoFiles.disk.dirs ∪ twoFiles.disk.files ↔ n = [97] ∨ n = [98] := by
  have hall : twoFiles.disk.dirs ∪ twoFiles.disk.files =
      {[], [[100]], [[100], [97]], [[100], [98]]} := by decide
  have hroot : twoFiles.rootDir = [[100]] := by decide
  simp [hall, hroot]

/-- The first file cannot be removed, the second one can: `format` reports success, and the first
file is still there. -/
theorem not_reportsTruly : ¬ ∀ (s : Spiffs) (l : Option s.Listing), s.ReportsTruly l := by
  intro hall
  have htrue := hall twoFiles (some
    { entries := [([97], .failed []), ([98], .removed)]
      ends := true
      readable := by decide
      names := by decide
      nodup := by decide
      present := by decide
      complete := fun _ n hn => by simpa using (twoFiles_content n).mp hn })
  have hempty := (htrue (by decide)).2
  revert hempty
  decide

end Spiffs

end ZiModem.Hal
