import Mathlib.Data.List.Induction

/-! # What happened since

A trace in which something that matters happened, and nothing since that undoes
it; traces in which a certain use is never made while it matters; and traces in
which it is made only after something that it needs.
-/

namespace Reactive

variable {α : Type*} {P Q U : α → Prop}

def Since (P Q : α → Prop) (l : List α) : Prop :=
  ∃ xs m ys, l = xs ++ m :: ys ∧ P m ∧ ∀ o ∈ ys, ¬ Q o

def NeverSince (P Q U : α → Prop) (l : List α) : Prop :=
  ∀ xs u zs, l = xs ++ u :: zs → U u → ¬ Since P Q xs

theorem not_since_nil : ¬ Since P Q [] := by
  rintro ⟨xs, m, ys, hl, -⟩
  simp at hl

theorem since_snoc_iff {l : List α} {x : α} :
    Since P Q (l ++ [x]) ↔ P x ∨ (Since P Q l ∧ ¬ Q x) := by
  constructor
  · rintro ⟨xs, m, ys, hl, hm, hys⟩
    rcases List.eq_nil_or_concat ys with rfl | ⟨zs, y, rfl⟩
    · obtain ⟨-, hlast⟩ := List.append_inj' hl rfl
      cases hlast
      exact .inl hm
    · rw [List.concat_eq_append] at hl hys
      rw [← List.cons_append, ← List.append_assoc] at hl
      obtain ⟨rfl, hlast⟩ := List.append_inj' hl rfl
      cases hlast
      exact .inr ⟨⟨xs, m, zs, rfl, hm, fun o ho => hys o (List.mem_append_left _ ho)⟩,
        hys x (by simp)⟩
  · rintro (hx | ⟨⟨xs, m, ys, rfl, hm, hys⟩, hx⟩)
    · exact ⟨l, x, [], rfl, hx, by simp⟩
    · refine ⟨xs, m, ys ++ [x], by simp, hm, ?_⟩
      intro o ho
      rcases List.mem_append.mp ho with ho | ho
      · exact hys o ho
      · rw [List.mem_singleton.mp ho]
        exact hx

theorem Since.mono {P' : α → Prop} {l : List α} (hp : ∀ x ∈ l, P x → P' x) (h : Since P Q l) :
    Since P' Q l := by
  obtain ⟨xs, m, ys, rfl, hm, hys⟩ := h
  exact ⟨xs, m, ys, rfl, hp m (by simp) hm, hys⟩

def sinceRev (P Q : α → Prop) [DecidablePred P] [DecidablePred Q] : List α → Bool
  | [] => false
  | x :: xs => P x || (sinceRev P Q xs && !Q x)

instance decidableSince [DecidablePred P] [DecidablePred Q] (l : List α) :
    Decidable (Since P Q l) :=
  decidable_of_iff (sinceRev P Q l.reverse = true) (by
    induction l using List.reverseRecOn with
    | nil => simp [sinceRev, not_since_nil]
    | append_singleton l x ih =>
        rw [since_snoc_iff, ← ih, List.reverse_concat]
        simp [sinceRev])

theorem neverSince_nil : NeverSince P Q U [] := by
  intro xs u zs hl
  simp at hl

theorem neverSince_snoc_iff {l : List α} {x : α} :
    NeverSince P Q U (l ++ [x]) ↔ NeverSince P Q U l ∧ (U x → ¬ Since P Q l) := by
  constructor
  · intro h
    constructor
    · rintro xs u zs rfl hu
      exact h xs u (zs ++ [x]) (by simp) hu
    · intro hx
      exact h l x [] rfl hx
  · rintro ⟨hbefore, hlast⟩ xs u zs hl hu
    rcases List.eq_nil_or_concat zs with rfl | ⟨ys, y, rfl⟩
    · obtain ⟨rfl, hx⟩ := List.append_inj' hl rfl
      cases hx
      exact hlast hu
    · rw [List.concat_eq_append, ← List.cons_append, ← List.append_assoc] at hl
      obtain ⟨rfl, -⟩ := List.append_inj' hl rfl
      exact hbefore xs u ys rfl hu

/-! ## Longer stretches -/

theorem since_restart_iff {l ys : List α} {q : α} (hq : Q q) (hp : ¬ P q) :
    Since P Q (l ++ q :: ys) ↔ Since P Q ys := by
  induction ys using List.reverseRecOn with
  | nil =>
      rw [since_snoc_iff]
      simp [hq, hp, not_since_nil]
  | append_singleton ys y ih =>
      rw [← List.cons_append, ← List.append_assoc, since_snoc_iff, since_snoc_iff, ih]

theorem neverSince_append_of_unused {l ys : List α} (hys : ∀ y ∈ ys, ¬ U y) :
    NeverSince P Q U (l ++ ys) ↔ NeverSince P Q U l := by
  induction ys using List.reverseRecOn with
  | nil => simp
  | append_singleton ys y ih =>
      rw [← List.append_assoc, neverSince_snoc_iff, ih fun z hz => hys z (List.mem_append_left _ hz)]
      exact and_iff_left fun hy => absurd hy (hys y (by simp))

theorem Since.append {l ys : List α} (h : Since P Q l) (hq : ∀ y ∈ ys, ¬ Q y) :
    Since P Q (l ++ ys) := by
  induction ys using List.reverseRecOn with
  | nil => simpa using h
  | append_singleton ys y ih =>
      rw [← List.append_assoc, since_snoc_iff]
      exact .inr ⟨ih fun z hz => hq z (List.mem_append_left _ hz), hq y (by simp)⟩

theorem since_of_append {l ys : List α} (hp : ∀ y ∈ ys, ¬ P y) (h : Since P Q (l ++ ys)) :
    Since P Q l := by
  induction ys using List.reverseRecOn with
  | nil => simpa using h
  | append_singleton ys y ih =>
      rw [← List.append_assoc, since_snoc_iff] at h
      rcases h with hy | ⟨h, -⟩
      · exact absurd hy (hp y (by simp))
      · exact ih (fun z hz => hp z (List.mem_append_left _ hz)) h

/-- In a stretch that uses at once and meets no `P` before its end, all that matters is what
happened before it. -/
theorem neverSince_append_iff {l ys : List α} {u : α} (hu : U u)
    (hp : ∀ y ∈ (u :: ys).dropLast, ¬ P y) :
    NeverSince P Q U (l ++ u :: ys) ↔ NeverSince P Q U l ∧ ¬ Since P Q l := by
  induction ys using List.reverseRecOn with
  | nil =>
      rw [neverSince_snoc_iff]
      exact and_congr_right fun _ => ⟨fun h => h hu, fun h _ => h⟩
  | append_singleton ys y ih =>
      rw [← List.cons_append, List.dropLast_concat] at hp
      rw [← List.cons_append, ← List.append_assoc, neverSince_snoc_iff,
        ih fun z hz => hp z (List.dropLast_subset _ hz)]
      refine and_iff_left_of_imp ?_
      rintro ⟨-, hnone⟩ - hsince
      exact hnone (since_of_append hp hsince)

/-! ## What comes first -/

def Preceded (P U : α → Prop) (l : List α) : Prop :=
  ∀ xs u zs, l = xs ++ u :: zs → U u → ∃ p ∈ xs, P p

theorem preceded_nil : Preceded P U [] := by
  intro xs u zs hl
  simp at hl

theorem preceded_snoc_iff {l : List α} {x : α} :
    Preceded P U (l ++ [x]) ↔ Preceded P U l ∧ (U x → ∃ p ∈ l, P p) := by
  constructor
  · intro h
    refine ⟨fun xs u zs hl hu => ?_, fun hx => h l x [] rfl hx⟩
    exact h xs u (zs ++ [x]) (by simp [hl]) hu
  · rintro ⟨hbefore, hlast⟩ xs u zs hl hu
    rcases List.eq_nil_or_concat zs with rfl | ⟨ys, y, rfl⟩
    · obtain ⟨rfl, hx⟩ := List.append_inj' hl rfl
      cases hx
      exact hlast hu
    · rw [List.concat_eq_append, ← List.cons_append, ← List.append_assoc] at hl
      obtain ⟨rfl, -⟩ := List.append_inj' hl rfl
      exact hbefore xs u ys rfl hu

end Reactive
