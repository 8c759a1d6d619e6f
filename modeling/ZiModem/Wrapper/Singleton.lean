import ZiModem.Reactive.Accounting
import ZiModem.Wrapper.Lifecycle

/-! # One instance at a time

The four callback slots and `g_active_instance` have one owner at any time. It
is handed from the call of `create` that fills the slots, under the singleton
mutex, to the published instance, and from there to the call of `destroy` that
clears them. What a call has still to do with its instance after that, it does
to an instance that no other call can reach any more.
-/

namespace ZiModem.Wrapper

open Reactive

variable {τ ι : Type*}

namespace Pc

def Locked : Pc ι → Prop
  | createCheck | createRoot | createInit | createNew | install _ _ | createUnlock _ | createThrow
  | resetActive _ | destroyUnlock _ => True
  | _ => False

def Destroys : Pc ι → Prop
  | clearRunning _ | join _ | uninstall _ _ | resetActive _ => True
  | _ => False

/-- The steps during which the active instance is one that the call works on. -/
def UsesActive : Pc ι → Prop
  | createUnlock (some _) => True
  | pc => pc.Starts ∨ pc.Destroys

/-- The steps of `create` that rely on there being no active instance. -/
def NeedsVacant : Pc ι → Prop
  | createRoot | createInit | createNew | install _ _ => True
  | _ => False

/-- The instance that only this call can reach: not yet published, or no longer active. -/
def own : Pc ι → Option ι
  | install h _ | destroyUnlock h | shutdown h | delete h => some h
  | _ => none

structure Compatible (pc pc' : Pc ι) : Prop where
  left : pc.Destroys → ¬ pc'.UsesActive
  right : pc'.Destroys → ¬ pc.UsesActive
  own : ∀ h, pc.own = some h → pc'.own ≠ some h

theorem handle_of_own {pc : Pc ι} {h : ι} (hown : pc.own = some h) : pc.handle = some h := by
  cases pc <;> first | exact hown | cases hown

theorem NeedsVacant.locked {pc : Pc ι} (h : pc.NeedsVacant) : pc.Locked := by
  cases pc <;> first | exact h.elim | trivial

theorem Destroys.usesActive {pc : Pc ι} (h : pc.Destroys) : pc.UsesActive := by
  cases pc <;> first | exact h.elim | exact .inr h

theorem own_of_handle {pc : Pc ι} (hh : pc.handle = none) : pc.own = none := by
  cases pc <;> first | rfl | cases hh

theorem own_of_starts {pc : Pc ι} (h : pc.Starts) : pc.own = none := by
  cases pc <;> first | exact h.elim | rfl

theorem not_destroys_of_starts {pc : Pc ι} (h : pc.Starts) : ¬ pc.Destroys := by
  cases pc <;> first | exact h.elim | exact id

end Pc

namespace Process

/-- What the place of a call says about the active instance and the slots. -/
def Local (s : Process τ ι) : Pc ι → Prop
  | .createLock | .createCheck | .createThrow | .createUnlock none => True
  | .createRoot | .createInit | .createNew => s.active = none
  | .install h todo =>
      s.active = none ∧ s.instance? h ≠ none ∧ todo <:+ installOrder ∧
        ∀ k, s.slot k = if k ∈ todo then none else some h
  | .createUnlock (some h) | .exchange h | .setRunning h | .spawn h | .startReturn h =>
      s.active = some h ∧ s.instance? h ≠ none
  | .clearRunning h | .join h =>
      s.active = some h ∧ s.instance? h ≠ none ∧ ∀ k, s.slot k = some h
  | .uninstall h todo =>
      s.active = some h ∧ s.instance? h ≠ none ∧ todo <:+ uninstallOrder ∧
        ∀ k, s.slot k = if k ∈ todo then some h else none
  | .resetActive h => s.active = some h ∧ s.instance? h ≠ none ∧ ∀ k, s.slot k = none
  | .destroyUnlock h | .shutdown h | .delete h => s.active ≠ some h ∧ s.instance? h ≠ none

/-- The mutex is owned by the call that is inside its critical section. -/
def Guarded (s : Process τ ι) : Prop :=
  ∀ t, s.singleton = some t ↔ ∃ pc, s.pc t = some pc ∧ pc.Locked

/-- Who owns the slots, and that every instance is active or in the hands of one call. -/
structure Owned (s : Process τ ι) : Prop where
  place : ∀ t pc, s.pc t = some pc → s.Local pc
  compatible : ∀ t t' pc pc', t ≠ t' → s.pc t = some pc → s.pc t' = some pc' → pc.Compatible pc'
  vacant : s.active = none →
    (∀ k, s.slot k = none) ∨ ∃ t h todo, s.pc t = some (.install h todo)
  occupied : ∀ h, s.active = some h → s.instance? h ≠ none ∧
    ((∀ k, s.slot k = some h) ∨ ∃ t pc, s.pc t = some pc ∧ pc.Destroys ∧ pc.handle = some h)
  reachable : ∀ h, s.instance? h ≠ none →
    s.active = some h ∨ ∃ t pc, s.pc t = some pc ∧ pc.own = some h

theorem guarded_initial : (initial : Process τ ι).Guarded := by
  intro t
  simp [initial]

theorem owned_initial : (initial : Process τ ι).Owned where
  place := fun t pc hpc => by cases hpc
  compatible := fun t t' pc pc' _ hpc => by cases hpc
  vacant := fun _ => .inl fun _ => rfl
  occupied := fun h hactive => by cases hactive
  reachable := fun h hlive => absurd rfl hlive

variable [DecidableEq τ] {s s' : Process τ ι} {t : τ}

/-! ## The singleton mutex -/

theorem Guarded.keep (h : s.Guarded) {old new : Option (Pc ι)} (hold : s.pc t = old)
    (hsame : (∃ pc, old = some pc ∧ pc.Locked) ↔ ∃ pc, new = some pc ∧ pc.Locked)
    (hpc : s'.pc = Function.update s.pc t new) (hmutex : s'.singleton = s.singleton) :
    s'.Guarded := by
  intro t'
  rw [hmutex, hpc, h t']
  by_cases ht : t' = t
  · rw [ht, hold, Function.update_self]
    exact hsame
  · rw [Function.update_of_ne ht]

theorem Guarded.lock (h : s.Guarded) {pc : Pc ι} (hfree : s.singleton = none)
    (hlocked : pc.Locked) (hpc : s'.pc = Function.update s.pc t (some pc))
    (hmutex : s'.singleton = some t) : s'.Guarded := by
  intro t'
  have hbefore := h t'
  rw [hfree] at hbefore
  rw [hmutex, hpc]
  by_cases ht : t' = t
  · rw [ht, Function.update_self]
    exact ⟨fun _ => ⟨pc, rfl, hlocked⟩, fun _ => rfl⟩
  · rw [Function.update_of_ne ht]
    refine ⟨fun heq => absurd (Option.some.inj heq).symm ht, fun hex => ?_⟩
    cases hbefore.mpr hex

theorem Guarded.unlock (h : s.Guarded) {old : Pc ι} {new : Option (Pc ι)}
    (hold : s.pc t = some old) (hlocked : old.Locked) (hnew : ∀ pc, new = some pc → ¬ pc.Locked)
    (hpc : s'.pc = Function.update s.pc t new) (hmutex : s'.singleton = none) : s'.Guarded := by
  have hown : s.singleton = some t := (h t).mpr ⟨old, hold, hlocked⟩
  intro t'
  rw [hmutex, hpc]
  refine ⟨nofun, ?_⟩
  rintro ⟨pc, hpc', hlock⟩
  by_cases ht : t' = t
  · rw [ht, Function.update_self] at hpc'
    exact absurd hlock (hnew pc hpc')
  · rw [Function.update_of_ne ht] at hpc'
    have hother := (h t').mpr ⟨pc, hpc', hlock⟩
    rw [hown] at hother
    exact absurd (Option.some.inj hother).symm ht

omit [DecidableEq τ] in
theorem Guarded.sole (h : s.Guarded) {pc pc' : Pc ι} {t' : τ} (hpc : s.pc t = some pc)
    (hlocked : pc.Locked) (ht : t' ≠ t) (hpc' : s.pc t' = some pc') : ¬ pc'.Locked := by
  intro hlocked'
  have hown := (h t).mpr ⟨pc, hpc, hlocked⟩
  have hown' := (h t').mpr ⟨pc', hpc', hlocked'⟩
  rw [hown] at hown'
  exact ht (Option.some.inj hown').symm

/-! ## What a step leaves to the other calls -/

section Others

omit [DecidableEq τ]

variable {pc : Pc ι}

theorem Local.active_of_usesActive (h : s.Local pc) (huse : pc.UsesActive) :
    ∃ h, s.active = some h ∧ pc.handle = some h := by
  cases pc with
  | createUnlock ret =>
      cases ret with
      | none => simp [Pc.UsesActive, Pc.Starts, Pc.Destroys] at huse
      | some h' => exact ⟨h', h.1, rfl⟩
  | exchange h' | setRunning h' | spawn h' | startReturn h' | clearRunning h' | join h'
  | uninstall h' _ | resetActive h' => exact ⟨h', h.1, rfl⟩
  | _ => simp [Pc.UsesActive, Pc.Starts, Pc.Destroys] at huse

theorem Local.vacant (h : s.Local pc) (hneeds : pc.NeedsVacant) : s.active = none := by
  cases pc with
  | createRoot | createInit | createNew => exact h
  | install h' todo => exact h.1
  | _ => exact hneeds.elim

theorem Local.active_or_own (h : s.Local pc) {h' : ι} (hh : pc.handle = some h') :
    s.active = some h' ∨ pc.own = some h' := by
  cases pc with
  | install | destroyUnlock | shutdown | delete => exact .inr hh
  | createUnlock ret =>
      cases hh
      exact .inl h.1
  | exchange | setRunning | spawn | startReturn | clearRunning | join | uninstall | resetActive =>
      cases hh
      exact .inl h.1
  | _ => cases hh

theorem Local.keep (h : s.Local pc) (hactive : s'.active = s.active) (hslot : s'.slot = s.slot)
    (hlive : ∀ h, pc.handle = some h → s.instance? h ≠ none → s'.instance? h ≠ none) :
    s'.Local pc := by
  cases pc with
  | createUnlock ret =>
      cases ret with
      | none => trivial
      | some h' => exact ⟨hactive.trans h.1, hlive h' rfl h.2⟩
  | createRoot | createInit | createNew => exact hactive.trans h
  | install h' todo | uninstall h' todo =>
      exact ⟨hactive.trans h.1, hlive h' rfl h.2.1, h.2.2.1, hslot ▸ h.2.2.2⟩
  | exchange h' | setRunning h' | spawn h' | startReturn h' =>
      exact ⟨hactive.trans h.1, hlive h' rfl h.2⟩
  | clearRunning h' | join h' | resetActive h' =>
      exact ⟨hactive.trans h.1, hlive h' rfl h.2.1, hslot ▸ h.2.2⟩
  | destroyUnlock h' | shutdown h' | delete h' =>
      exact ⟨hactive ▸ h.1, hlive h' rfl h.2⟩
  | createLock | createCheck | createThrow => trivial

/-- A call that relies neither on the active instance nor on its absence keeps its place whatever
happens to the slots, as long as its own instance does not become active. -/
theorem Local.bystander (h : s.Local pc) (huse : ¬ pc.UsesActive) (hneeds : ¬ pc.NeedsVacant)
    (hactive : ∀ h, pc.own = some h → s'.active ≠ some h)
    (hlive : ∀ h, s.instance? h ≠ none → s'.instance? h ≠ none) : s'.Local pc := by
  cases pc with
  | createUnlock ret =>
      cases ret with
      | none => trivial
      | some h' => exact absurd trivial huse
  | createRoot | createInit | createNew | install => exact absurd trivial hneeds
  | exchange | setRunning | spawn | startReturn => exact absurd (.inl trivial) huse
  | clearRunning | join | uninstall | resetActive => exact absurd (.inr trivial) huse
  | destroyUnlock h' | shutdown h' | delete h' => exact ⟨hactive h' rfl, hlive h' h.2⟩
  | createLock | createCheck | createThrow => trivial

end Others

/-! ## Moves that leave the slots and the active instance alone -/

/-- From the place of a call to its next one: it works on as much as before. -/
structure Continues (old new : Pc ι) : Prop where
  destroys : new.Destroys ↔ old.Destroys
  usesActive : new.UsesActive → old.UsesActive
  own : new.own = old.own
  handle : new.Destroys → new.handle = old.handle

def StandsAt (s : Process τ ι) (t : τ) (new : Option (Pc ι)) (pc : Pc ι) : Prop :=
  new = some pc ∨ ∃ t', t' ≠ t ∧ s.pc t' = some pc

/-- What a step has to show: where its own call goes, and that the others may stay. -/
theorem Owned.changed (h : s.Owned) {new : Option (Pc ι)}
    (hpc : s'.pc = Function.update s.pc t new)
    (hothers : ∀ t' pc, t' ≠ t → s.pc t' = some pc → s.Local pc → s'.Local pc)
    (hlocal : ∀ pc, new = some pc → s'.Local pc)
    (hcompat : ∀ pc t' pc', new = some pc → t' ≠ t → s.pc t' = some pc' →
      pc.Compatible pc' ∧ pc'.Compatible pc)
    (hvacant : s'.active = none → (∀ k, s'.slot k = none) ∨
      ∃ pc, s.StandsAt t new pc ∧ ∃ h todo, pc = .install h todo)
    (hoccupied : ∀ h, s'.active = some h → s'.instance? h ≠ none ∧
      ((∀ k, s'.slot k = some h) ∨
        ∃ pc, s.StandsAt t new pc ∧ pc.Destroys ∧ pc.handle = some h))
    (hreachable : ∀ h, s'.instance? h ≠ none →
      s'.active = some h ∨ ∃ pc, s.StandsAt t new pc ∧ pc.own = some h) : s'.Owned := by
  have hself : s'.pc t = new := by rw [hpc, Function.update_self]
  have hother : ∀ t', t' ≠ t → s'.pc t' = s.pc t' := by
    intro t' ht
    rw [hpc, Function.update_of_ne ht]
  have hstands : ∀ pc, s.StandsAt t new pc → ∃ t', s'.pc t' = some pc := by
    intro pc hpc'
    rcases hpc' with hnew | ⟨t', ht, hpc'⟩
    · exact ⟨t, hself.trans hnew⟩
    · exact ⟨t', (hother t' ht).trans hpc'⟩
  refine ⟨?_, ?_, ?_, ?_, ?_⟩
  · intro t' pc hpc'
    by_cases ht : t' = t
    · rw [ht, hself] at hpc'
      exact hlocal pc hpc'
    · rw [hother t' ht] at hpc'
      exact hothers t' pc ht hpc' (h.place t' pc hpc')
  · intro t₁ t₂ pc₁ pc₂ hne h₁ h₂
    by_cases ht₁ : t₁ = t
    · have ht₂ : t₂ ≠ t := fun heq => hne (ht₁.trans heq.symm)
      rw [ht₁, hself] at h₁
      rw [hother t₂ ht₂] at h₂
      exact (hcompat pc₁ t₂ pc₂ h₁ ht₂ h₂).1
    · rw [hother t₁ ht₁] at h₁
      by_cases ht₂ : t₂ = t
      · rw [ht₂, hself] at h₂
        exact (hcompat pc₂ t₁ pc₁ h₂ ht₁ h₁).2
      · rw [hother t₂ ht₂] at h₂
        exact h.compatible t₁ t₂ pc₁ pc₂ hne h₁ h₂
  · intro hnone
    rcases hvacant hnone with hall | ⟨pc, hstand, h', todo, rfl⟩
    · exact .inl hall
    · obtain ⟨t', ht'⟩ := hstands _ hstand
      exact .inr ⟨t', h', todo, ht'⟩
  · intro h' hactive
    obtain ⟨hinst, hslots⟩ := hoccupied h' hactive
    refine ⟨hinst, ?_⟩
    rcases hslots with hall | ⟨pc, hstand, hd, hh⟩
    · exact .inl hall
    · obtain ⟨t', ht'⟩ := hstands pc hstand
      exact .inr ⟨t', pc, ht', hd, hh⟩
  · intro h' hinst
    rcases hreachable h' hinst with hact | ⟨pc, hstand, ho⟩
    · exact .inl hact
    · obtain ⟨t', ht'⟩ := hstands pc hstand
      exact .inr ⟨t', pc, ht', ho⟩

theorem Owned.moved (h : s.Owned) {new : Option (Pc ι)}
    (hpc : s'.pc = Function.update s.pc t new) (hactive : s'.active = s.active)
    (hslot : s'.slot = s.slot) (hlive : ∀ h, s'.instance? h ≠ none ↔ s.instance? h ≠ none)
    (hlocal : ∀ pc, new = some pc → s.Local pc)
    (hcompat : ∀ pc t' pc', new = some pc → t' ≠ t → s.pc t' = some pc' →
      pc.Compatible pc' ∧ pc'.Compatible pc)
    (hinstalls : ∀ h todo, s.pc t ≠ some (.install h todo))
    (hdestroys : ∀ pc h, s.pc t = some pc → pc.Destroys → pc.handle = some h →
      ∃ pc', new = some pc' ∧ pc'.Destroys ∧ pc'.handle = some h)
    (hown : ∀ pc h, s.pc t = some pc → pc.own = some h →
      ∃ pc', new = some pc' ∧ pc'.own = some h) : s'.Owned := by
  have hkeep : ∀ pc, s.Local pc → s'.Local pc := fun pc hpc =>
    hpc.keep hactive hslot fun h' _ hl => (hlive h').mpr hl
  refine h.changed hpc (fun t' pc' _ _ => hkeep pc') (fun pc heq => hkeep pc (hlocal pc heq))
    hcompat ?_ ?_ ?_
  · intro hnone
    rw [hslot]
    rcases h.vacant (hactive ▸ hnone) with hall | ⟨t', h', todo, ht'⟩
    · exact .inl hall
    · have ht : t' ≠ t := by
        intro heq
        exact hinstalls h' todo (heq ▸ ht')
      exact .inr ⟨_, .inr ⟨t', ht, ht'⟩, h', todo, rfl⟩
  · intro h' hactive'
    obtain ⟨hinst, hslots⟩ := h.occupied h' (hactive ▸ hactive')
    refine ⟨(hlive h').mpr hinst, ?_⟩
    rw [hslot]
    rcases hslots with hall | ⟨t', pc, ht', hd, hh⟩
    · exact .inl hall
    · by_cases ht : t' = t
      · obtain ⟨pc', hpc', hd', hh'⟩ := hdestroys pc h' (ht ▸ ht') hd hh
        exact .inr ⟨pc', .inl hpc', hd', hh'⟩
      · exact .inr ⟨pc, .inr ⟨t', ht, ht'⟩, hd, hh⟩
  · intro h' hinst
    rcases h.reachable h' ((hlive h').mp hinst) with hact | ⟨t', pc, ht', ho⟩
    · exact .inl (hactive.trans hact)
    · by_cases ht : t' = t
      · obtain ⟨pc', hpc', ho'⟩ := hown pc h' (ht ▸ ht') ho
        exact .inr ⟨pc', .inl hpc', ho'⟩
      · exact .inr ⟨pc, .inr ⟨t', ht, ht'⟩, ho⟩

omit [DecidableEq τ] in
theorem Continues.compatible {old new pc' : Pc ι} (h : Continues old new)
    (hold : old.Compatible pc' ∧ pc'.Compatible old) :
    new.Compatible pc' ∧ pc'.Compatible new := by
  refine ⟨⟨fun hd => hold.1.left (h.destroys.mp hd), fun hd hu => ?_, ?_⟩,
    ⟨fun hd hu => ?_, fun hd => hold.2.right (h.destroys.mp hd), ?_⟩⟩
  · exact hold.1.right hd (h.usesActive hu)
  · rw [h.own]
    exact hold.1.own
  · exact hold.2.left hd (h.usesActive hu)
  · rw [h.own]
    exact hold.2.own

omit [DecidableEq τ] in
theorem Owned.compatible_both (h : s.Owned) {pc pc' : Pc ι} {t' : τ} (hpc : s.pc t = some pc)
    (ht : t' ≠ t) (hpc' : s.pc t' = some pc') : pc.Compatible pc' ∧ pc'.Compatible pc :=
  ⟨h.compatible t t' pc pc' ht.symm hpc hpc', h.compatible t' t pc' pc ht hpc' hpc⟩

theorem Owned.continue (h : s.Owned) {old new : Pc ι} (hold : s.pc t = some old)
    (hpc : s'.pc = Function.update s.pc t (some new)) (hactive : s'.active = s.active)
    (hslot : s'.slot = s.slot) (hlive : ∀ h, s'.instance? h ≠ none ↔ s.instance? h ≠ none)
    (hlocal : s.Local new) (hcont : Continues old new)
    (hinstalls : ¬ old.NeedsVacant ∨ old.own = none) : s'.Owned := by
  refine h.moved hpc hactive hslot hlive ?_ ?_ ?_ ?_ ?_
  · intro pc heq
    cases heq
    exact hlocal
  · intro pc t' pc' heq ht hpc'
    cases heq
    exact hcont.compatible (h.compatible_both hold ht hpc')
  · intro h' todo heq
    rw [hold] at heq
    cases heq
    rcases hinstalls with hneeds | hown
    · exact hneeds trivial
    · cases hown
  · intro pc h' heq hd hh
    rw [hold] at heq
    cases heq
    exact ⟨new, rfl, hcont.destroys.mpr hd, (hcont.handle (hcont.destroys.mpr hd)).trans hh⟩
  · intro pc h' heq ho
    rw [hold] at heq
    cases heq
    exact ⟨new, rfl, hcont.own.trans ho⟩

theorem Owned.return (h : s.Owned) {old : Pc ι} (hold : s.pc t = some old)
    (hpc : s'.pc = Function.update s.pc t none) (hactive : s'.active = s.active)
    (hslot : s'.slot = s.slot) (hlive : ∀ h, s'.instance? h ≠ none ↔ s.instance? h ≠ none)
    (hdestroys : ¬ old.Destroys) (hown : old.own = none) : s'.Owned := by
  refine h.moved hpc hactive hslot hlive nofun nofun ?_ ?_ ?_
  · intro h' todo heq
    rw [hold] at heq
    cases heq
    cases hown
  · intro pc h' heq hd
    rw [hold] at heq
    cases heq
    exact absurd hd hdestroys
  · intro pc h' heq ho
    rw [hold] at heq
    cases heq
    rw [hown] at ho
    cases ho

theorem Owned.begin (h : s.Owned) {new : Pc ι} (hold : s.pc t = none)
    (hpc : s'.pc = Function.update s.pc t (some new)) (hactive : s'.active = s.active)
    (hslot : s'.slot = s.slot) (hlive : ∀ h, s'.instance? h ≠ none ↔ s.instance? h ≠ none)
    (hlocal : s.Local new) (hcompat : ∀ t' pc', t' ≠ t → s.pc t' = some pc' →
      new.Compatible pc' ∧ pc'.Compatible new) : s'.Owned := by
  refine h.moved hpc hactive hslot hlive ?_ ?_ ?_ ?_ ?_
  · intro pc heq
    cases heq
    exact hlocal
  · intro pc t' pc' heq ht hpc'
    cases heq
    exact hcompat t' pc' ht hpc'
  · intro h' todo heq
    rw [hold] at heq
    cases heq
  · intro pc h' heq
    rw [hold] at heq
    cases heq
  · intro pc h' heq
    rw [hold] at heq
    cases heq

/-! ## The six steps that hand the slots and the active instance on -/

section Others

omit [DecidableEq τ]

variable {pc pc' : Pc ι} {t' : τ}

/-- Next to a locked call that found no active instance, nobody relies on one. -/
theorem Owned.bystander_of_vacant (h : s.Owned) (hg : s.Guarded) (hpc : s.pc t = some pc)
    (hlocked : pc.Locked) (hnone : s.active = none) (ht : t' ≠ t) (hpc' : s.pc t' = some pc') :
    ¬ pc'.UsesActive ∧ ¬ pc'.NeedsVacant := by
  refine ⟨fun huse => ?_, fun hneeds => ?_⟩
  · obtain ⟨h', hactive, _⟩ := (h.place t' pc' hpc').active_of_usesActive huse
    rw [hnone] at hactive
    cases hactive
  · exact hg.sole hpc hlocked ht hpc' hneeds.locked

theorem Owned.bystander_of_destroys (h : s.Owned) (hpc : s.pc t = some pc) (hd : pc.Destroys)
    (ht : t' ≠ t) (hpc' : s.pc t' = some pc') : ¬ pc'.UsesActive ∧ ¬ pc'.NeedsVacant := by
  refine ⟨(h.compatible_both hpc ht hpc').1.left hd, fun hneeds => ?_⟩
  obtain ⟨h', hactive, _⟩ :=
    (h.place t pc hpc).active_of_usesActive hd.usesActive
  rw [(h.place t' pc' hpc').vacant hneeds] at hactive
  cases hactive

theorem Local.not_active_of_own (h : s.Local pc) (hneeds : ¬ pc.NeedsVacant) {h' : ι}
    (hown : pc.own = some h') : s.active ≠ some h' := by
  cases pc with
  | install => exact absurd trivial hneeds
  | destroyUnlock | shutdown | delete =>
      cases hown
      exact h.1
  | _ => cases hown

theorem Local.live_of_own (h : s.Local pc) {h' : ι} (hown : pc.own = some h') :
    s.instance? h' ≠ none := by
  cases pc with
  | install =>
      cases hown
      exact h.2.1
  | destroyUnlock | shutdown | delete =>
      cases hown
      exact h.2
  | _ => cases hown

end Others

structure Orderly (s : Process τ ι) : Prop where
  guarded : s.Guarded
  owned : s.Owned

/-- A step that changes neither a slot, nor the active instance, nor which instances exist. -/
structure Agrees (s s' : Process τ ι) : Prop where
  active : s'.active = s.active
  slot : s'.slot = s.slot
  live : ∀ h, s'.instance? h ≠ none ↔ s.instance? h ≠ none

theorem Orderly.continue (h : s.Orderly) {old new : Pc ι} (hold : s.pc t = some old)
    (hpc : s'.pc = Function.update s.pc t (some new)) (hagrees : s.Agrees s')
    (hmutex : s'.singleton = s.singleton) (hlocal : s.Local new) (hcont : Continues old new)
    (hlocked : new.Locked ↔ old.Locked) (hinstalls : ¬ old.NeedsVacant ∨ old.own = none) :
    s'.Orderly where
  guarded := h.guarded.keep hold (by simp [hlocked]) hpc hmutex
  owned := h.owned.continue hold hpc hagrees.active hagrees.slot hagrees.live hlocal hcont
    hinstalls

theorem not_usesActive_of_handle {pc : Pc ι} (hh : pc.handle = none) : ¬ pc.UsesActive := by
  cases pc with
  | createUnlock ret =>
      cases hh
      simp [Pc.UsesActive, Pc.Starts, Pc.Destroys]
  | createLock | createCheck | createRoot | createInit | createNew | createThrow =>
      simp [Pc.UsesActive, Pc.Starts, Pc.Destroys]
  | _ => cases hh

theorem Continues.of_handle {old new : Pc ι} (hold : old.handle = none) (hnew : new.handle = none) :
    Continues old new where
  destroys := ⟨fun h => absurd h.usesActive (not_usesActive_of_handle hnew),
    fun h => absurd h.usesActive (not_usesActive_of_handle hold)⟩
  usesActive := fun h => absurd h (not_usesActive_of_handle hnew)
  own := (Pc.own_of_handle hnew).trans (Pc.own_of_handle hold).symm
  handle := fun _ => hnew.trans hold.symm

variable {h : ι}

theorem Owned.install (ho : s.Owned) (hg : s.Guarded) {k : Slot} {todo : List Slot}
    (hpc : s.pc t = some (.install h (k :: todo))) :
    ((s.setSlot k (some h)).goto t (some (.install h todo))).Owned := by
  obtain ⟨hnone, hlive, hsuffix, hslots⟩ := ho.place t _ hpc
  have hcont : Continues (.install h (k :: todo)) (.install h todo) :=
    ⟨Iff.rfl, id, rfl, nofun⟩
  refine ho.changed rfl ?_ ?_ ?_ ?_ ?_ ?_
  · intro t' pc ht hpc' hl
    obtain ⟨huse, hneeds⟩ := ho.bystander_of_vacant hg hpc trivial hnone ht hpc'
    refine hl.bystander huse hneeds ?_ fun _ hlive' => hlive'
    intro h' _ hactive
    exact absurd (hnone.symm.trans hactive) nofun
  · intro pc heq
    cases heq
    refine ⟨hnone, hlive, (List.suffix_cons k todo).trans hsuffix, fun k' => ?_⟩
    have hnodup : (k :: todo).Nodup := List.Nodup.sublist hsuffix.sublist (by decide)
    by_cases hk : k' = k
    · rw [hk, if_neg (List.nodup_cons.mp hnodup).1]
      simp [goto, setSlot]
    · have hslot := hslots k'
      simp only [List.mem_cons, hk, false_or] at hslot
      simpa [goto, setSlot, hk] using hslot
  · intro pc t' pc' heq ht hpc'
    cases heq
    exact hcont.compatible (ho.compatible_both hpc ht hpc')
  · intro _
    exact .inr ⟨_, .inl rfl, h, todo, rfl⟩
  · intro h' hactive
    exact absurd (hnone.symm.trans hactive) nofun
  · intro h' hlive'
    rcases ho.reachable h' hlive' with hactive | ⟨t', pc, hpc', hown⟩
    · exact .inl hactive
    · by_cases ht : t' = t
      · rw [ht, hpc] at hpc'
        cases hpc'
        exact .inr ⟨_, .inl rfl, hown⟩
      · exact .inr ⟨pc, .inr ⟨t', ht, hpc'⟩, hown⟩

theorem Owned.publish (ho : s.Owned) (hg : s.Guarded) (hpc : s.pc t = some (.install h [])) :
    ({ s with active := some h }.goto t (some (.createUnlock (some h)))).Owned := by
  obtain ⟨hnone, hlive, _, hslots⟩ := ho.place t _ hpc
  refine ho.changed rfl ?_ ?_ ?_ ?_ ?_ ?_
  · intro t' pc ht hpc' hl
    obtain ⟨huse, hneeds⟩ := ho.bystander_of_vacant hg hpc trivial hnone ht hpc'
    refine hl.bystander huse hneeds ?_ fun _ hlive' => hlive'
    intro h' hown hactive
    cases hactive
    exact (ho.compatible_both hpc ht hpc').1.own h rfl hown
  · intro pc heq
    cases heq
    exact ⟨rfl, hlive⟩
  · intro pc t' pc' heq ht hpc'
    cases heq
    obtain ⟨huse, _⟩ := ho.bystander_of_vacant hg hpc trivial hnone ht hpc'
    have hd : ¬ pc'.Destroys := fun hd => huse hd.usesActive
    exact ⟨⟨fun _ => huse, fun hd' => absurd hd' hd, nofun⟩,
      ⟨fun hd' => absurd hd' hd, fun _ => huse, fun _ _ => nofun⟩⟩
  · intro hactive
    cases hactive
  · intro h' hactive
    cases hactive
    exact ⟨hlive, .inl fun k => (hslots k).trans (if_neg List.not_mem_nil)⟩
  · intro h' hlive'
    rcases ho.reachable h' hlive' with hactive | ⟨t', pc, hpc', hown⟩
    · exact absurd (hnone.symm.trans hactive) nofun
    · by_cases ht : t' = t
      · rw [ht, hpc] at hpc'
        cases hpc'
        exact .inl hown
      · exact .inr ⟨pc, .inr ⟨t', ht, hpc'⟩, hown⟩

theorem Owned.uninstall (ho : s.Owned) {k : Slot} {todo : List Slot}
    (hpc : s.pc t = some (.uninstall h (k :: todo))) :
    ((s.setSlot k none).goto t (some (.uninstall h todo))).Owned := by
  obtain ⟨hactive, hlive, hsuffix, hslots⟩ := ho.place t _ hpc
  have hcont : Continues (.uninstall h (k :: todo)) (.uninstall h todo) :=
    ⟨Iff.rfl, id, rfl, fun _ => rfl⟩
  refine ho.changed rfl ?_ ?_ ?_ ?_ ?_ ?_
  · intro t' pc ht hpc' hl
    obtain ⟨huse, hneeds⟩ := ho.bystander_of_destroys hpc trivial ht hpc'
    exact hl.bystander huse hneeds (fun h' hown => hl.not_active_of_own hneeds hown)
      fun _ hlive' => hlive'
  · intro pc heq
    cases heq
    refine ⟨hactive, hlive, (List.suffix_cons k todo).trans hsuffix, fun k' => ?_⟩
    have hnodup : (k :: todo).Nodup := List.Nodup.sublist hsuffix.sublist (by decide)
    by_cases hk : k' = k
    · rw [hk, if_neg (List.nodup_cons.mp hnodup).1]
      simp [goto, setSlot]
    · have hslot := hslots k'
      simp only [List.mem_cons, hk, false_or] at hslot
      simpa [goto, setSlot, hk] using hslot
  · intro pc t' pc' heq ht hpc'
    cases heq
    exact hcont.compatible (ho.compatible_both hpc ht hpc')
  · intro hnone
    exact absurd (hactive.symm.trans hnone) (Option.some_ne_none h)
  · intro h' hactive'
    have hh : h' = h := Option.some.inj (hactive'.symm.trans hactive)
    rw [hh]
    exact ⟨hlive, .inr ⟨_, .inl rfl, trivial, rfl⟩⟩
  · intro h' hlive'
    rcases ho.reachable h' hlive' with hactive' | ⟨t', pc, hpc', hown⟩
    · exact .inl hactive'
    · refine .inr ⟨pc, .inr ⟨t', ?_, hpc'⟩, hown⟩
      intro ht
      rw [ht, hpc] at hpc'
      cases hpc'
      cases hown

variable [DecidableEq ι]

omit [DecidableEq τ] in
theorem setCell_live (i : Instance) (h' : ι) (hlive : s.instance? h' ≠ none) :
    (s.setCell h (.live i)).instance? h' ≠ none := by
  by_cases hh : h' = h
  · rw [hh, setCell_instance_self]
    exact Option.some_ne_none i
  · rwa [setCell_instance_other _ hh]

theorem Owned.allocate (ho : s.Owned) (hg : s.Guarded) (hpc : s.pc t = some .createNew)
    (hfresh : s.cell h = .unborn) :
    ((s.setCell h (.live .initial)).goto t (some (.install h installOrder))).Owned := by
  have hnone : s.active = none := ho.place t _ hpc
  have hdead : s.instance? h = none := by
    unfold instance?
    rw [hfresh]
  refine ho.changed rfl ?_ ?_ ?_ ?_ ?_ ?_
  · intro t' pc ht hpc' hl
    obtain ⟨huse, hneeds⟩ := ho.bystander_of_vacant hg hpc trivial hnone ht hpc'
    refine hl.bystander huse hneeds ?_ fun h' hlive => setCell_live _ h' hlive
    intro h' _ hactive
    exact absurd (hnone.symm.trans hactive) nofun
  · intro pc heq
    cases heq
    have hslots : ∀ k, s.slot k = none := by
      rcases ho.vacant hnone with hall | ⟨t', h', todo, hpc'⟩
      · exact hall
      · by_cases ht : t' = t
        · rw [ht, hpc] at hpc'
          cases hpc'
        · exact absurd trivial (hg.sole hpc trivial ht hpc')
    refine ⟨hnone, ?_, List.suffix_refl _, fun k => ?_⟩
    · rw [goto_instance, setCell_instance_self]
      exact Option.some_ne_none _
    · have hk : k ∈ installOrder := by cases k <;> decide
      rw [if_pos hk]
      exact hslots k
  · intro pc t' pc' heq ht hpc'
    cases heq
    obtain ⟨huse, _⟩ := ho.bystander_of_vacant hg hpc trivial hnone ht hpc'
    have hne : ∀ h', pc'.own = some h' → h' ≠ h := by
      intro h' hown heq
      exact (ho.place t' pc' hpc').live_of_own hown (heq ▸ hdead)
    refine ⟨⟨False.elim, fun hd => absurd hd.usesActive huse, ?_⟩,
      ⟨fun hd => absurd hd.usesActive huse, False.elim, ?_⟩⟩
    · intro h' hown hown'
      cases hown
      exact hne h hown' rfl
    · intro h' hown hown'
      cases hown'
      exact hne h hown rfl
  · intro _
    exact .inr ⟨_, .inl rfl, h, _, rfl⟩
  · intro h' hactive
    exact absurd (hnone.symm.trans hactive) nofun
  · intro h' hlive
    by_cases hh : h' = h
    · exact .inr ⟨_, .inl rfl, hh ▸ rfl⟩
    · rw [goto_instance, setCell_instance_other _ hh] at hlive
      rcases ho.reachable h' hlive with hactive | ⟨t', pc, hpc', hown⟩
      · exact .inl hactive
      · refine .inr ⟨pc, .inr ⟨t', ?_, hpc'⟩, hown⟩
        intro ht
        rw [ht, hpc] at hpc'
        cases hpc'
        cases hown

theorem Owned.reset (ho : s.Owned) (hpc : s.pc t = some (.resetActive h)) :
    ({ s with active := if s.active = some h then none else s.active }.goto t
      (some (.destroyUnlock h))).Owned := by
  obtain ⟨hactive, hlive, hslots⟩ := ho.place t _ hpc
  rw [if_pos hactive]
  refine ho.changed rfl ?_ ?_ ?_ ?_ ?_ ?_
  · intro t' pc ht hpc' hl
    obtain ⟨huse, hneeds⟩ := ho.bystander_of_destroys hpc trivial ht hpc'
    exact hl.bystander huse hneeds (fun _ _ => nofun) fun _ hlive' => hlive'
  · intro pc heq
    cases heq
    exact ⟨nofun, hlive⟩
  · intro pc t' pc' heq ht hpc'
    cases heq
    obtain ⟨huse, hneeds⟩ := ho.bystander_of_destroys hpc trivial ht hpc'
    have hd : ¬ pc'.Destroys := fun hd => huse hd.usesActive
    have hne : ∀ h', pc'.own = some h' → h' ≠ h := by
      intro h' hown heq
      exact (ho.place t' pc' hpc').not_active_of_own hneeds hown (heq ▸ hactive)
    refine ⟨⟨False.elim, fun hd' => absurd hd' hd, ?_⟩, ⟨fun hd' => absurd hd' hd, False.elim, ?_⟩⟩
    · intro h' hown hown'
      cases hown
      exact hne h hown' rfl
    · intro h' hown hown'
      cases hown'
      exact hne h hown rfl
  · intro _
    exact .inl hslots
  · intro h' hactive'
    cases hactive'
  · intro h' hlive'
    rcases ho.reachable h' hlive' with hactive' | ⟨t', pc, hpc', hown⟩
    · exact .inr ⟨_, .inl rfl, hactive.symm.trans hactive'⟩
    · refine .inr ⟨pc, .inr ⟨t', ?_, hpc'⟩, hown⟩
      intro ht
      rw [ht, hpc] at hpc'
      cases hpc'
      cases hown

theorem Owned.delete (ho : s.Owned) (hpc : s.pc t = some (.delete h)) :
    ((s.setCell h .deleted).goto t none).Owned := by
  obtain ⟨hinactive, _⟩ := ho.place t _ hpc
  have hdead : (s.setCell h .deleted).instance? h = none := by
    simp [setCell, instance?]
  have hne : ∀ h', (s.setCell h .deleted).instance? h' ≠ none → h' ≠ h := by
    intro h' hlive' heq
    exact hlive' (heq ▸ hdead)
  refine ho.changed rfl ?_ ?_ ?_ ?_ ?_ ?_
  · intro t' pc ht hpc' hl
    refine hl.keep rfl rfl fun h' hh hlive' => ?_
    have hother : h' ≠ h := by
      rcases hl.active_or_own hh with hactive | hown
      · intro heq
        exact hinactive (heq ▸ hactive)
      · intro heq
        exact (ho.compatible_both hpc ht hpc').1.own h rfl (heq ▸ hown)
    rwa [goto_instance, setCell_instance_other _ hother]
  · intro pc heq
    cases heq
  · intro pc t' pc' heq
    cases heq
  · intro hnone
    rcases ho.vacant hnone with hall | ⟨t', h', todo, hpc'⟩
    · exact .inl hall
    · refine .inr ⟨_, .inr ⟨t', ?_, hpc'⟩, h', todo, rfl⟩
      intro ht
      rw [ht, hpc] at hpc'
      cases hpc'
  · intro h' hactive
    have hother : h' ≠ h := by
      intro heq
      exact hinactive (heq ▸ hactive)
    obtain ⟨hlive', hslots⟩ := ho.occupied h' hactive
    refine ⟨by rwa [goto_instance, setCell_instance_other _ hother], ?_⟩
    rcases hslots with hall | ⟨t', pc, hpc', hd, hh⟩
    · exact .inl hall
    · refine .inr ⟨pc, .inr ⟨t', ?_, hpc'⟩, hd, hh⟩
      intro ht
      rw [ht, hpc] at hpc'
      cases hpc'
      exact hd
  · intro h' hlive'
    have hother := hne h' hlive'
    rw [goto_instance, setCell_instance_other _ hother] at hlive'
    rcases ho.reachable h' hlive' with hactive | ⟨t', pc, hpc', hown⟩
    · exact .inl hactive
    · refine .inr ⟨pc, .inr ⟨t', ?_, hpc'⟩, hown⟩
      intro ht
      rw [ht, hpc] at hpc'
      cases hpc'
      exact hother (Option.some.inj hown).symm

/-! ## Every step -/

omit [DecidableEq τ] in
theorem setCell_live_iff {i : Instance} (hi : s.instance? h = some i) (i' : Instance) (h' : ι) :
    (s.setCell h (.live i')).instance? h' ≠ none ↔ s.instance? h' ≠ none := by
  by_cases hh : h' = h
  · rw [hh, setCell_instance_self, hi]
    simp
  · rw [setCell_instance_other _ hh]

theorem Orderly.create (ho : s.Orderly) {o : LifecycleEvent τ ι} (hcase : s.CreateCase t s' o) :
    s'.Orderly := by
  have hsame : ∀ pc, s.Agrees (s.goto t pc) := fun _ => ⟨rfl, rfl, fun _ => Iff.rfl⟩
  cases hcase with
  | lock hpc hfree =>
      have hlocked : (Pc.createCheck : Pc ι).Locked := trivial
      refine ⟨ho.guarded.lock hfree hlocked rfl rfl, ?_⟩
      exact ho.owned.continue hpc rfl rfl rfl (fun _ => Iff.rfl) trivial (.of_handle rfl rfl)
        (.inr rfl)
  | occupied hpc =>
      exact ho.continue hpc rfl (hsame _) rfl trivial (.of_handle rfl rfl) Iff.rfl (.inr rfl)
  | vacant hpc hnone =>
      exact ho.continue hpc rfl (hsame _) rfl hnone (.of_handle rfl rfl) Iff.rfl (.inr rfl)
  | rootFails hpc =>
      exact ho.continue hpc rfl (hsame _) rfl trivial (.of_handle rfl rfl) Iff.rfl (.inr rfl)
  | root hpc =>
      have hnone : s.active = none := ho.owned.place t _ hpc
      exact ho.continue hpc rfl (hsame _) rfl hnone (.of_handle rfl rfl) Iff.rfl (.inr rfl)
  | init hpc =>
      have hnone : s.active = none := ho.owned.place t _ hpc
      exact ho.continue hpc rfl ⟨rfl, rfl, fun _ => Iff.rfl⟩ rfl hnone (.of_handle rfl rfl) Iff.rfl
        (.inr rfl)
  | new h hpc hfresh =>
      exact ⟨ho.guarded.keep hpc (by simp [Pc.Locked]) rfl rfl,
        ho.owned.allocate ho.guarded hpc hfresh⟩
  | newFails hpc =>
      exact ho.continue hpc rfl (hsame _) rfl trivial (.of_handle rfl rfl) Iff.rfl (.inr rfl)
  | install h k todo hpc =>
      exact ⟨ho.guarded.keep hpc (by simp [Pc.Locked]) rfl rfl, ho.owned.install ho.guarded hpc⟩
  | publish h hpc =>
      exact ⟨ho.guarded.keep hpc (by simp [Pc.Locked]) rfl rfl, ho.owned.publish ho.guarded hpc⟩
  | unlock ret hpc | throw hpc =>
      exact ⟨ho.guarded.unlock hpc trivial (by simp) rfl rfl,
        ho.owned.return hpc rfl rfl rfl (fun _ => Iff.rfl) nofun rfl⟩

theorem Orderly.start (ho : s.Orderly) {i : Instance} {o : LifecycleEvent τ ι}
    (hi : s.instance? h = some i) (hcase : s.StartCase t h i s' o) : s'.Orderly := by
  have hset : ∀ i' pc, s.Agrees ((s.setCell h (.live i')).goto t pc) := fun i' _ =>
    ⟨rfl, rfl, setCell_live_iff hi i'⟩
  have hactive : ∀ pc, s.pc t = some pc → pc.Starts → pc.handle = some h → s.active = some h := by
    intro pc hpc hs hh
    rcases (ho.owned.place t pc hpc).active_or_own hh with hactive | hown
    · exact hactive
    · rw [Pc.own_of_starts hs] at hown
      cases hown
  have hlive : s.instance? h ≠ none := by
    rw [hi]
    exact Option.some_ne_none i
  cases hcase with
  | again hpc | spawnFails hpc | done hpc =>
      exact ⟨ho.guarded.keep hpc (by simp [Pc.Locked]) rfl rfl,
        ho.owned.return hpc rfl rfl rfl (fun _ => Iff.rfl) nofun rfl⟩
  | first hpc | setRunning hpc | spawn hpc =>
      exact ho.continue hpc rfl (hset _ _) rfl ⟨hactive _ hpc trivial rfl, hlive⟩
        ⟨Iff.rfl, fun _ => .inl trivial, rfl, False.elim⟩ Iff.rfl (.inr rfl)

theorem Orderly.destroy (ho : s.Orderly) {i : Instance} {o : LifecycleEvent τ ι}
    (hi : s.instance? h = some i) (hcase : s.DestroyCase t h i s' o) : s'.Orderly := by
  have hnext : ∀ {old new : Pc ι}, old.Destroys → new.Destroys → new.own = old.own →
      new.handle = old.handle → Continues old new := fun hold hnew hown hh =>
    ⟨⟨fun _ => hold, fun _ => hnew⟩, fun _ => hold.usesActive, hown, fun _ => hh⟩
  cases hcase with
  | clearRunning hpc =>
      have hl := ho.owned.place t _ hpc
      exact ho.continue hpc rfl ⟨rfl, rfl, setCell_live_iff hi _⟩ rfl hl
        (hnext trivial trivial rfl rfl) Iff.rfl (.inr rfl)
  | join hpc hdone =>
      obtain ⟨hactive, hlive, hslots⟩ := ho.owned.place t _ hpc
      refine ho.continue hpc rfl ⟨rfl, rfl, fun _ => Iff.rfl⟩ rfl
        ⟨hactive, hlive, List.suffix_refl _, fun k => ?_⟩ (hnext trivial trivial rfl rfl) Iff.rfl
        (.inr rfl)
      have hk : k ∈ uninstallOrder := by cases k <;> decide
      rw [if_pos hk]
      exact hslots k
  | uninstall k todo hpc =>
      exact ⟨ho.guarded.keep hpc (by simp [Pc.Locked]) rfl rfl, ho.owned.uninstall hpc⟩
  | lock hpc hfree =>
      obtain ⟨hactive, hlive, _, hslots⟩ := ho.owned.place t _ hpc
      have hlocked : (Pc.resetActive h).Locked := trivial
      refine ⟨ho.guarded.lock hfree hlocked rfl rfl, ?_⟩
      exact ho.owned.continue hpc rfl rfl rfl (fun _ => Iff.rfl)
        ⟨hactive, hlive, fun k => (hslots k).trans (if_neg List.not_mem_nil)⟩
        (hnext trivial trivial rfl rfl) (.inr rfl)
  | reset hpc =>
      exact ⟨ho.guarded.keep hpc (by simp [Pc.Locked]) rfl rfl, ho.owned.reset hpc⟩
  | unlock hpc =>
      have hl := ho.owned.place t _ hpc
      refine ⟨ho.guarded.unlock hpc trivial (by simp [Pc.Locked]) rfl rfl, ?_⟩
      exact ho.owned.continue hpc rfl rfl rfl (fun _ => Iff.rfl) hl
        ⟨Iff.rfl, fun hu => hu, rfl, False.elim⟩ (.inl nofun)
  | shutdown hpc =>
      have hl := ho.owned.place t _ hpc
      exact ho.continue hpc rfl ⟨rfl, rfl, fun _ => Iff.rfl⟩ rfl hl
        ⟨Iff.rfl, fun hu => hu, rfl, False.elim⟩ Iff.rfl (.inl nofun)
  | delete hpc =>
      exact ⟨ho.guarded.keep hpc (by simp [Pc.Locked]) rfl rfl, ho.owned.delete hpc⟩

omit [DecidableEq ι] in
theorem Orderly.begin (ho : s.Orderly) {new : Pc ι} (hnone : s.pc t = none) (hlocal : s.Local new)
    (hlocked : ¬ new.Locked) (hcompat : ∀ t' pc', t' ≠ t → s.pc t' = some pc' →
      new.Compatible pc' ∧ pc'.Compatible new) : (s.goto t (some new)).Orderly :=
  ⟨ho.guarded.keep hnone (by simp [hlocked]) rfl rfl,
    ho.owned.begin hnone rfl rfl rfl (fun _ => Iff.rfl) hlocal hcompat⟩

omit [DecidableEq ι] in
theorem Orderly.createBegins (ho : s.Orderly) (hnone : s.pc t = none) :
    (s.goto t (some .createLock)).Orderly := by
  have hcreate : ¬ (Pc.createLock : Pc ι).UsesActive := not_usesActive_of_handle rfl
  refine ho.begin hnone trivial id fun t' pc' _ _ => ?_
  exact ⟨⟨False.elim, fun _ => hcreate, nofun⟩, ⟨fun _ => hcreate, False.elim, fun _ _ => nofun⟩⟩

omit [DecidableEq τ] [DecidableEq ι] in
/-- An instance that exists, and that no call works on other than to start it, is active. -/
theorem Orderly.active_of_contract (ho : s.Orderly) (hlive : s.instance? h ≠ none)
    (hothers : ∀ t pc, s.pc t = some pc → pc.handle = some h → pc.Starts) :
    s.active = some h := by
  rcases ho.owned.reachable h hlive with hactive | ⟨t', pc', hpc', hown⟩
  · exact hactive
  · have hstarts := hothers t' pc' hpc' (Pc.handle_of_own hown)
    rw [Pc.own_of_starts hstarts] at hown
    cases hown

omit [DecidableEq ι] in
theorem Orderly.startBegins (ho : s.Orderly) (hnone : s.pc t = none)
    (hcontract : s.Contract (.start t (some h))) : (s.goto t (some (.exchange h))).Orderly := by
  obtain ⟨hlive, hothers⟩ := hcontract
  have hactive := ho.active_of_contract hlive hothers
  refine ho.begin hnone ⟨hactive, hlive⟩ id fun t' pc' _ hpc' => ?_
  have hd : ¬ pc'.Destroys := by
    intro hd
    obtain ⟨h₁, hactive₁, hh₁⟩ :=
      (ho.owned.place t' pc' hpc').active_of_usesActive hd.usesActive
    rw [hactive] at hactive₁
    cases hactive₁
    exact Pc.not_destroys_of_starts (hothers t' pc' hpc' hh₁) hd
  exact ⟨⟨False.elim, fun hd' => absurd hd' hd, nofun⟩,
    ⟨fun hd' => absurd hd' hd, False.elim, fun _ _ => nofun⟩⟩

omit [DecidableEq ι] in
theorem Orderly.destroyBegins (ho : s.Orderly) (hnone : s.pc t = none)
    (hcontract : s.Contract (.destroy t (some h))) :
    (s.goto t (some (.clearRunning h))).Orderly := by
  obtain ⟨hlive, hothers⟩ := hcontract
  have hactive := ho.active_of_contract hlive fun t' pc' hpc' hh => absurd hh (hothers t' pc' hpc')
  have hslots : ∀ k, s.slot k = some h := by
    rcases (ho.owned.occupied h hactive).2 with hall | ⟨t', pc', hpc', _, hh⟩
    · exact hall
    · exact absurd hh (hothers t' pc' hpc')
  refine ho.begin hnone ⟨hactive, hlive, hslots⟩ id fun t' pc' _ hpc' => ?_
  have huse : ¬ pc'.UsesActive := by
    intro huse
    obtain ⟨h₁, hactive₁, hh₁⟩ := (ho.owned.place t' pc' hpc').active_of_usesActive huse
    rw [hactive] at hactive₁
    cases hactive₁
    exact hothers t' pc' hpc' hh₁
  have hd : ¬ pc'.Destroys := fun hd => huse hd.usesActive
  exact ⟨⟨fun _ => huse, fun hd' => absurd hd' hd, nofun⟩,
    ⟨fun hd' => absurd hd' hd, fun _ => huse, fun _ _ => nofun⟩⟩

omit [DecidableEq τ] in
theorem Orderly.work (ho : s.Orderly) {i : Instance} (hi : s.instance? h = some i)
    (i' : Instance) : (s.setCell h (.live i')).Orderly where
  guarded := ho.guarded
  owned := by
    have hlive := setCell_live_iff hi i'
    have hkeep : ∀ pc, s.Local pc → (s.setCell h (.live i')).Local pc := fun pc hl =>
      hl.keep rfl rfl fun h' _ hlive' => (hlive h').mpr hlive'
    exact ⟨fun t pc hpc => hkeep pc (ho.owned.place t pc hpc), ho.owned.compatible,
      ho.owned.vacant, fun h' hactive => ⟨(hlive h').mpr (ho.owned.occupied h' hactive).1,
        (ho.owned.occupied h' hactive).2⟩,
      fun h' hlive' => ho.owned.reachable h' ((hlive h').mp hlive')⟩

theorem Orderly.step (ho : s.Orderly) {a : LifecycleAction τ ι} {o : LifecycleEvent τ ι}
    (hcontract : s.Contract a) (hcase : s.StepCase a s' o) : s'.Orderly := by
  cases hcase with
  | createRefused | startRefused | destroyRefused => exact ho
  | createBegins t cfg hnone => exact ho.createBegins hnone
  | startBegins t h hnone => exact ho.startBegins hnone hcontract
  | destroyBegins t h hnone => exact ho.destroyBegins hnone hcontract
  | creates t c hcase => exact ho.create hcase
  | starts t c h i hi hcase => exact ho.start hi hcase
  | destroys t c h i hi hcase => exact ho.destroy hi hcase
  | works h c i i' e hi => exact ho.work hi i'

end Process

end ZiModem.Wrapper
