import ZiModem.Managed.Device

/-! # The managed class keeps the native contract

Whatever its callers do with it, a `ZiModemDevice` turns misuse into exceptions:
a native call is made only with the handle of an instance that exists, `start`
and `destroy` only when they may be. The one thing the class leaves to its
callers is that `Dispose` overlaps no other method of the same object. The
invariant says which object, or which method still on its way, has a claim to
the active instance; there is never more than one claim.
-/

namespace ZiModem.Managed

open Reactive ZiModem.Hal ZiModem.Wrapper

/-! ## Where objects and threads stand -/

inductive Stage
  | absent
  | constructing
  | ready
  | disposed
  deriving DecidableEq, Repr

def Object.stage {ι : Type*} : Object ι → Stage
  | absent => .absent
  | constructing => .constructing
  | ready o => if o.disposed then .disposed else .ready

def Object.handle? {ι : Type*} : Object ι → Option ι
  | ready o => some o.handle
  | absent | constructing => none

namespace MethodPc

variable {δ ι : Type*}

def stage : MethodPc δ ι → Stage
  | create _ _ | creating _ | created _ _ | settingCallbacks _ _ => .constructing
  | checkStarted _ | start _ | starting _ | storeStarted _ | call _ _ | calling _ | mark _ => .ready
  | destroy _ | destroying _ => .disposed

/-- Inside `zimodem_host_create`, `zimodem_host_start` or `zimodem_host_destroy`. -/
def InLifecycle : MethodPc δ ι → Prop
  | creating _ | starting _ | destroying _ => True
  | _ => False

end MethodPc

def OfCreate {ι : Type*} : Pc ι → Prop
  | .createLock | .createCheck | .createRoot | .createInit | .createNew | .install _ _
  | .createUnlock _ | .createThrow => True
  | _ => False

def OfDestroy {ι : Type*} (pc : Pc ι) : Prop := ¬ OfCreate pc ∧ ¬ pc.Starts

namespace Devices

variable {τ δ ι φ ν : Type*}

/-- The native call that a thread at this place of a method is in. -/
def Placed (s : Devices τ δ ι φ ν) (t : τ) : Option (MethodPc δ ι) → Prop
  | some (.creating _) => ∃ pc, s.native.process.pc t = some pc ∧ OfCreate pc
  | some (.starting d) => ∃ pc, s.native.process.pc t = some pc ∧ pc.Starts ∧
      pc.handle = (s.object d).handle?
  | some (.destroying d) => ∃ pc, s.native.process.pc t = some pc ∧ OfDestroy pc ∧
      pc.handle = (s.object d).handle?
  | _ => s.native.process.pc t = none

/-- A constructor past the publication of its instance, or a `Dispose` before the reset, with the
handle in hand. -/
def Carries (s : Devices τ δ ι φ ν) (t : τ) (h : ι) : MethodPc δ ι → Prop
  | .created _ h' | .settingCallbacks _ h' => h' = h
  | .creating _ => s.native.process.pc t = some (.createUnlock (some h))
  | .destroy d => (s.object d).handle? = some h
  | .destroying _ => ∃ pc, s.native.process.pc t = some pc ∧ pc.Destroys ∧ pc.handle = some h
  | _ => False

def Claims (s : Devices τ δ ι φ ν) (d : δ) (h : ι) : Prop :=
  ((s.object d).stage = .ready ∧ (s.object d).handle? = some h) ∨
    ∃ t pc, s.pc t = some pc ∧ pc.about = d ∧ s.Carries t h pc

/-- No other thread is in a method of the object when `Dispose` begins, and none begins another one
before `Dispose` has set the flag. -/
def DisposeAlone (s : Devices τ δ ι φ ν) : DeviceAction τ δ ι φ ν → Prop
  | .dispose _ d => ∀ t pc, s.pc t = some pc → pc.about ≠ d
  | .start _ d | .call _ d _ => ∀ t, s.pc t ≠ some (.mark d)
  | _ => True

instance [Fintype τ] [DecidableEq δ] [DecidableEq ι] (s : Devices τ δ ι φ ν) :
    (a : DeviceAction τ δ ι φ ν) → Decidable (s.DisposeAlone a)
  | .dispose _ d => inferInstanceAs (Decidable (∀ t, ∀ pc ∈ s.pc t, pc.about ≠ d))
  | .start _ d | .call _ d _ => inferInstanceAs (Decidable (∀ t, s.pc t ≠ some (.mark d)))
  | .construct _ _ _ _ | .advance _ | .native _ => .isTrue trivial

/-- Which object, or method on its way, has a claim to the active instance; and where that leaves
every thread and every object. -/
structure Kept [DecidableEq τ] [DecidableEq ι] (s : Devices τ δ ι φ ν) : Prop where
  sound : s.native.Sound
  placed : ∀ t, s.Placed t (s.pc t)
  staged : ∀ t pc, s.pc t = some pc → (s.object pc.about).stage = pc.stage
  alone : ∀ t t' pc pc', s.pc t = some pc → s.pc t' = some pc' → pc.about = pc'.about →
    pc.Sole → t = t'
  active : ∀ d h, s.Claims d h → s.native.process.active = some h
  sole : ∀ d d' h h', s.Claims d h → s.Claims d' h' → d = d'

def InCalls (s : Devices τ δ ι φ ν) : Prop :=
  ∀ t, s.native.config.stack (.host t) ≠ [] →
    (∃ d, s.pc t = some (.calling d)) ∨ ∃ d h, s.pc t = some (.settingCallbacks d h)

/-! ## From claims to the contract -/

section Contract

variable {s : Devices τ δ ι φ ν} {t : τ}

theorem Placed.cases {pc : Option (MethodPc δ ι)} (hplaced : s.Placed t pc) {npc : Pc ι}
    (hnpc : s.native.process.pc t = some npc) :
    (∃ d, pc = some (.creating d) ∧ OfCreate npc) ∨
    (∃ d, pc = some (.starting d) ∧ npc.Starts ∧ npc.handle = (s.object d).handle?) ∨
    ∃ d, pc = some (.destroying d) ∧ OfDestroy npc ∧ npc.handle = (s.object d).handle? := by
  cases pc with
  | none =>
      rw [show s.native.process.pc t = none from hplaced] at hnpc
      cases hnpc
  | some pc =>
      cases pc with
      | creating d =>
          obtain ⟨npc', hpc, hcreate⟩ := hplaced
          cases hnpc.symm.trans hpc
          exact .inl ⟨d, rfl, hcreate⟩
      | starting d =>
          obtain ⟨npc', hpc, hstarts⟩ := hplaced
          cases hnpc.symm.trans hpc
          exact .inr (.inl ⟨d, rfl, hstarts⟩)
      | destroying d =>
          obtain ⟨npc', hpc, hdestroy⟩ := hplaced
          cases hnpc.symm.trans hpc
          exact .inr (.inr ⟨d, rfl, hdestroy⟩)
      | _ =>
          rw [show s.native.process.pc t = none from hplaced] at hnpc
          cases hnpc

theorem claims_of_carries {d : δ} {h : ι} {pc : MethodPc δ ι} (hpc : s.pc t = some pc)
    (habout : pc.about = d) (hcarries : s.Carries t h pc) : s.Claims d h :=
  .inr ⟨t, pc, hpc, habout, hcarries⟩

variable [DecidableEq τ] [DecidableEq ι]

theorem Kept.live (hk : s.Kept) {d : δ} {h : ι} (hclaim : s.Claims d h) :
    s.native.process.instance? h ≠ none :=
  (hk.sound.process.orderly.owned.occupied h (hk.active d h hclaim)).1

/-- A thread that works on a claimed instance does so for the object that has the claim. -/
theorem Kept.about_of_claim (hk : s.Kept) {d : δ} {h : ι} (hclaim : s.Claims d h) {npc : Pc ι}
    (hnpc : s.native.process.pc t = some npc) (hh : npc.handle = some h) :
    ∃ pc, s.pc t = some pc ∧ pc.about = d ∧ pc.InLifecycle ∧ (pc.stage = .ready → npc.Starts) := by
  have hactive := hk.active d h hclaim
  have hlocal := hk.sound.process.orderly.owned.place t npc hnpc
  rcases (hk.placed t).cases hnpc with ⟨d', hpc, hcreate⟩ | ⟨d', hpc, hstarts, hhandle⟩ |
    ⟨d', hpc, hdestroy, hhandle⟩
  · have hcarries : s.Carries t h (.creating d') := by
      cases npc with
      | createUnlock ret =>
          obtain rfl : ret = some h := hh
          exact hnpc
      | install h' todo =>
          rw [hlocal.1] at hactive
          cases hactive
      | createLock | createCheck | createRoot | createInit | createNew | createThrow => cases hh
      | _ => exact hcreate.elim
    exact ⟨_, hpc, hk.sole d' d h h (claims_of_carries hpc rfl hcarries) hclaim, trivial, nofun⟩
  · have hready : (s.object d').stage = .ready := hk.staged t _ hpc
    have hclaim' : s.Claims d' h := .inl ⟨hready, hhandle.symm.trans hh⟩
    exact ⟨_, hpc, hk.sole d' d h h hclaim' hclaim, trivial, fun _ => hstarts⟩
  · have hcarries : s.Carries t h (.destroying d') := by
      refine ⟨npc, hnpc, ?_, hh⟩
      cases npc with
      | clearRunning | join | uninstall | resetActive => trivial
      | destroyUnlock h' | shutdown h' | delete h' =>
          cases hh
          exact absurd hactive hlocal.1
      | exchange | setRunning | spawn | startReturn => exact (hdestroy.2 trivial).elim
      | _ => exact (hdestroy.1 trivial).elim
    exact ⟨_, hpc, hk.sole d' d h h (claims_of_carries hpc rfl hcarries) hclaim, trivial, nofun⟩

theorem Kept.contract [DecidableEq δ] (hk : s.Kept) {f : δ → Delegates φ}
    {b : SessionAction τ ι φ ν} {pc : MethodPc δ ι} (henter : s.EnterCase f t b pc) :
    s.native.Contract b := by
  have hready : ∀ d o, (s.object d).stage = .ready → s.object d = .ready o → s.Claims d o.handle :=
    fun d o hstage hobject => .inl ⟨hstage, by rw [hobject]; rfl⟩
  cases henter with
  | create d dataDir hpc => trivial
  | setCallbacks d h hpc => exact hk.live (claims_of_carries hpc rfl rfl)
  | call d c o hpc hobject => exact hk.live (hready d o (hk.staged t _ hpc) hobject)
  | start d o hpc hobject =>
      have hstage : (s.object d).stage = .ready := hk.staged t _ hpc
      have hclaim := hready d o hstage hobject
      refine ⟨hk.live hclaim, fun t' npc hnpc hh => ?_⟩
      obtain ⟨pc', hpc', rfl, _, hstarts⟩ := hk.about_of_claim hclaim hnpc hh
      exact hstarts ((hk.staged t' pc' hpc').symm.trans hstage)
  | destroy d o hpc hobject =>
      have hclaim : s.Claims d o.handle :=
        claims_of_carries hpc rfl (show (s.object d).handle? = _ by rw [hobject]; rfl)
      refine ⟨hk.live hclaim, fun t' npc hnpc hh => ?_⟩
      obtain ⟨pc', hpc', habout, _, _⟩ := hk.about_of_claim hclaim hnpc hh
      obtain rfl : t = t' := hk.alone t t' _ pc' hpc hpc' habout.symm trivial
      have hplaced := hk.placed t
      rw [hpc] at hplaced
      rw [show s.native.process.pc t = none from hplaced] at hnpc
      cases hnpc

theorem Kept.headerContract [DecidableEq δ] (hk : s.Kept) (hc : s.InCalls) {f : δ → Delegates φ}
    {b : SessionAction τ ι φ ν} {pc : MethodPc δ ι} (henter : s.EnterCase f t b pc) :
    s.native.HeaderContract b := by
  have hcontract := hk.contract henter
  have hready : ∀ d, (s.object d).stage = .ready → ∃ h, s.Claims d h := by
    intro d hstage
    cases hobject : s.object d with
    | ready o => exact ⟨o.handle, .inl ⟨hstage, by rw [hobject]; rfl⟩⟩
    | absent | constructing =>
        rw [hobject] at hstage
        cases hstage
  cases henter with
  | create d dataDir hpc => exact hcontract
  | start d o hpc hobject => exact hcontract
  | setCallbacks d h hpc =>
      refine ⟨hcontract, fun t' npc hnpc hh => ?_⟩
      obtain ⟨pc', hpc', habout, _, _⟩ := hk.about_of_claim (claims_of_carries hpc rfl rfl) hnpc hh
      obtain rfl : t = t' := hk.alone t t' _ pc' hpc hpc' habout.symm trivial
      have hplaced := hk.placed t
      rw [hpc] at hplaced
      rw [show s.native.process.pc t = none from hplaced] at hnpc
      cases hnpc
  | call d c o hpc hobject =>
      have hstage : (s.object d).stage = .ready := hk.staged t _ hpc
      have hclaim : s.Claims d o.handle := .inl ⟨hstage, by rw [hobject]; rfl⟩
      refine ⟨hcontract, fun t' npc hnpc hh => ?_⟩
      obtain ⟨pc', hpc', rfl, _, hstarts⟩ := hk.about_of_claim hclaim hnpc hh
      exact hstarts ((hk.staged t' pc' hpc').symm.trans hstage)
  | destroy d o hpc hobject =>
      have hclaim : s.Claims d o.handle :=
        claims_of_carries hpc rfl (show (s.object d).handle? = _ by rw [hobject]; rfl)
      refine ⟨hcontract, fun t' => ?_⟩
      by_contra hstack
      -- whoever is in a call has a claim for its object, and there is one claim only
      obtain ⟨pc', hpc', hne, h', hclaim'⟩ : ∃ pc', s.pc t' = some pc' ∧ pc' ≠ .destroy d ∧
          ∃ h', s.Claims pc'.about h' := by
        rcases hc t' hstack with ⟨d', hpc'⟩ | ⟨d', h', hpc'⟩
        · exact ⟨_, hpc', by simp, hready d' (hk.staged t' _ hpc')⟩
        · exact ⟨_, hpc', by simp, h', claims_of_carries hpc' rfl rfl⟩
      have habout : pc'.about = d := hk.sole pc'.about d h' o.handle hclaim' hclaim
      obtain rfl : t = t' := hk.alone t t' _ pc' hpc hpc' habout.symm trivial
      exact hne (Option.some.inj (hpc'.symm.trans hpc))

end Contract

/-! ## One thread moves -/

section Move

variable [DecidableEq τ] {s s' : Devices τ δ ι φ ν} {t : τ}

/-- Thread `t` alone moves in its method and in native code, and an object changes its stage or
gets its handle only where no other thread is about it. -/
structure Moves (s s' : Devices τ δ ι φ ν) (t : τ) (new : Option (MethodPc δ ι)) : Prop where
  pc : s'.pc = Function.update s.pc t new
  others : ∀ t', t' ≠ t → s'.native.process.pc t' = s.native.process.pc t'
  object : ∀ d, (s'.object d).stage = (s.object d).stage ∧
    (s'.object d).handle? = (s.object d).handle? ∨
      ∀ t' pc, t' ≠ t → s.pc t' = some pc → pc.about ≠ d

variable {new : Option (MethodPc δ ι)}

theorem Moves.pc_other (hm : s.Moves s' t new) {t' : τ} (h : t' ≠ t) : s'.pc t' = s.pc t' := by
  rw [hm.pc, Function.update_of_ne h]

theorem Moves.pc_self (hm : s.Moves s' t new) : s'.pc t = new := by
  rw [hm.pc, Function.update_self]

theorem Moves.object_of (hm : s.Moves s' t new) {t' : τ} {pc : MethodPc δ ι} (ht : t' ≠ t)
    (hpc : s.pc t' = some pc) : (s'.object pc.about).stage = (s.object pc.about).stage ∧
      (s'.object pc.about).handle? = (s.object pc.about).handle? := by
  rcases hm.object pc.about with hsame | hnobody
  · exact hsame
  · exact absurd rfl (hnobody t' pc ht hpc)

theorem Moves.placed (hm : s.Moves s' t new) {t' : τ} (ht : t' ≠ t)
    (hplaced : s.Placed t' (s.pc t')) : s'.Placed t' (s'.pc t') := by
  have hnative := hm.others t' ht
  rw [hm.pc_other ht]
  cases hpc : s.pc t' with
  | none =>
      rw [hpc] at hplaced
      exact hnative.trans hplaced
  | some pc =>
      have hhandle := (hm.object_of ht hpc).2
      rw [hpc] at hplaced
      cases pc with
      | creating d | starting d | destroying d =>
          obtain ⟨npc, hnpc, hrest⟩ := hplaced
          simp only [MethodPc.about] at hhandle
          exact ⟨npc, hnative.trans hnpc, by simpa only [hhandle] using hrest⟩
      | _ => exact hnative.trans hplaced

theorem Moves.carries (hm : s.Moves s' t new) {t' : τ} {pc : MethodPc δ ι} {h : ι} (ht : t' ≠ t)
    (hpc : s.pc t' = some pc) (hcarries : s'.Carries t' h pc) : s.Carries t' h pc := by
  have hnative := hm.others t' ht
  have hhandle := (hm.object_of ht hpc).2
  cases pc with
  | creating d =>
      rw [Carries, hnative] at hcarries
      exact hcarries
  | destroy d =>
      simp only [MethodPc.about] at hhandle
      rw [Carries, hhandle] at hcarries
      exact hcarries
  | destroying d =>
      obtain ⟨npc, hnpc, hrest⟩ := hcarries
      exact ⟨npc, hnative.symm.trans hnpc, hrest⟩
  | _ => exact hcarries

theorem Moves.claims (hm : s.Moves s' t new)
    (hready : ∀ d h, (s'.object d).stage = .ready → (s'.object d).handle? = some h → s.Claims d h)
    {d : δ} {h : ι} (hclaim : s'.Claims d h) :
    s.Claims d h ∨ ∃ pc, new = some pc ∧ pc.about = d ∧ s'.Carries t h pc := by
  rcases hclaim with ⟨hstage, hhandle⟩ | ⟨t', pc, hpc, habout, hcarries⟩
  · exact .inl (hready d h hstage hhandle)
  · by_cases ht : t' = t
    · subst ht
      exact .inr ⟨pc, hm.pc_self.symm.trans hpc, habout, hcarries⟩
    · rw [hm.pc_other ht] at hpc
      exact .inl (claims_of_carries hpc habout (hm.carries ht hpc hcarries))

variable [DecidableEq ι]

/-- The thread stays in the method it was in, or enters one that it may be in beside the others. -/
def Admits (s : Devices τ δ ι φ ν) (t : τ) (pc : MethodPc δ ι) : Prop :=
  (∃ old, s.pc t = some old ∧ old.about = pc.about ∧ (pc.Sole → old.Sole)) ∨
    ∀ t' pc', t' ≠ t → s.pc t' = some pc' → pc'.about = pc.about → ¬ pc'.Sole ∧ ¬ pc.Sole

theorem Kept.moved (hk : s.Kept) (hm : s.Moves s' t new) (hsound : s'.native.Sound)
    (hplaced : s'.Placed t new)
    (hnew : ∀ pc, new = some pc → (s'.object pc.about).stage = pc.stage ∧ s.Admits t pc)
    (hactive : ∀ d h, s'.Claims d h → s'.native.process.active = some h)
    (hsole : ∀ d d' h h', s'.Claims d h → s'.Claims d' h' → d = d') : s'.Kept where
  sound := hsound
  placed := by
    intro t'
    by_cases ht : t' = t
    · rw [ht, hm.pc_self]
      exact hplaced
    · exact hm.placed ht (hk.placed t')
  staged := by
    intro t' pc hpc
    by_cases ht : t' = t
    · rw [ht, hm.pc_self] at hpc
      exact (hnew pc hpc).1
    · rw [hm.pc_other ht] at hpc
      exact (hm.object_of ht hpc).1.trans (hk.staged t' pc hpc)
  alone := by
    have hmixed : ∀ t' pc pc', t' ≠ t → new = some pc → s.pc t' = some pc' →
        pc'.about = pc.about → ¬ pc'.Sole ∧ ¬ pc.Sole := by
      intro t' pc pc' ht hpc hpc' habout
      rcases (hnew pc hpc).2 with ⟨old, hold, habout', hsole'⟩ | hfree
      · refine ⟨fun hs => ht ?_, fun hs => ht ?_⟩
        · exact hk.alone t' t pc' old hpc' hold (habout.trans habout'.symm) hs
        · exact (hk.alone t t' old pc' hold hpc' (habout'.trans habout.symm) (hsole' hs)).symm
      · exact hfree t' pc' ht hpc' habout
    intro t₁ t₂ pc₁ pc₂ hpc₁ hpc₂ habout hs
    by_cases ht₁ : t₁ = t
    · by_cases ht₂ : t₂ = t
      · rw [ht₁, ht₂]
      · rw [ht₁, hm.pc_self] at hpc₁
        rw [hm.pc_other ht₂] at hpc₂
        exact absurd hs (hmixed t₂ pc₁ pc₂ ht₂ hpc₁ hpc₂ habout.symm).2
    · rw [hm.pc_other ht₁] at hpc₁
      by_cases ht₂ : t₂ = t
      · rw [ht₂, hm.pc_self] at hpc₂
        exact absurd hs (hmixed t₁ pc₂ pc₁ ht₁ hpc₂ hpc₁ habout).1
      · rw [hm.pc_other ht₂] at hpc₂
        exact hk.alone t₁ t₂ pc₁ pc₂ hpc₁ hpc₂ habout hs
  active := hactive
  sole := hsole

theorem Kept.moved_quietly (hk : s.Kept) (hm : s.Moves s' t new) (hsound : s'.native.Sound)
    (hactive : s'.native.process.active = s.native.process.active) (hplaced : s'.Placed t new)
    (hnew : ∀ pc, new = some pc → (s'.object pc.about).stage = pc.stage ∧ s.Admits t pc ∧
      ∀ h, s'.Carries t h pc → s.Claims pc.about h)
    (hready : ∀ d h, (s'.object d).stage = .ready → (s'.object d).handle? = some h →
      s.Claims d h) : s'.Kept := by
  have hold : ∀ d h, s'.Claims d h → s.Claims d h := by
    intro d h hclaim
    rcases hm.claims hready hclaim with hbefore | ⟨pc, hpc, rfl, hcarries⟩
    · exact hbefore
    · exact (hnew pc hpc).2.2 h hcarries
  refine hk.moved hm hsound hplaced (fun pc hpc => ⟨(hnew pc hpc).1, (hnew pc hpc).2.1⟩) ?_ ?_
  · exact fun d h hclaim => hactive.trans (hk.active d h (hold d h hclaim))
  · exact fun d d' h h' hclaim hclaim' => hk.sole d d' h h' (hold d h hclaim) (hold d' h' hclaim')

end Move

/-! ## The steps of the methods -/

section Methods

variable [DecidableEq τ] [DecidableEq δ] {s s' : Devices τ δ ι φ ν} {t : τ}

omit [DecidableEq τ] [DecidableEq δ] in
theorem placed_of_outside {pc : Option (MethodPc δ ι)} (hnone : s.native.process.pc t = none)
    (hout : ∀ p, pc = some p → ¬ p.InLifecycle) : s.Placed t pc := by
  cases pc with
  | none => exact hnone
  | some pc =>
      cases pc with
      | creating d | starting d | destroying d => exact absurd trivial (hout _ rfl)
      | _ => exact hnone

omit [DecidableEq τ] [DecidableEq δ] in
theorem Placed.outside {pc : Option (MethodPc δ ι)} (hplaced : s.Placed t pc)
    (hout : ∀ p, pc = some p → ¬ p.InLifecycle) : s.native.process.pc t = none := by
  cases pc with
  | none => exact hplaced
  | some pc =>
      cases pc with
      | creating d | starting d | destroying d => exact absurd trivial (hout _ rfl)
      | _ => exact hplaced

omit [DecidableEq δ] in
theorem moves_goto (new : Option (MethodPc δ ι)) : s.Moves (s.goto t new) t new :=
  ⟨rfl, fun _ _ => rfl, fun _ => .inl ⟨rfl, rfl⟩⟩

theorem moves_setObject (d : δ) (o : Object ι) (new : Option (MethodPc δ ι))
    (hnobody : ∀ t' pc, t' ≠ t → s.pc t' = some pc → pc.about ≠ d) :
    s.Moves ((s.setObject d o).goto t new) t new := by
  refine ⟨rfl, fun _ _ => rfl, fun d' => ?_⟩
  by_cases hd : d' = d
  · exact .inr (hd ▸ hnobody)
  · exact .inl (by simp [setObject, goto, hd])

variable [DecidableEq ι]

omit [DecidableEq δ] in
theorem Kept.goto (hk : s.Kept) (new : Option (MethodPc δ ι))
    (hold : ∀ p, s.pc t = some p → ¬ p.InLifecycle) (hout : ∀ p, new = some p → ¬ p.InLifecycle)
    (hnew : ∀ pc, new = some pc → (s.object pc.about).stage = pc.stage ∧ s.Admits t pc ∧
      ∀ h, s.Carries t h pc → s.Claims pc.about h) : (s.goto t new).Kept :=
  hk.moved_quietly (moves_goto new) hk.sound rfl
    (placed_of_outside ((hk.placed t).outside hold) hout) hnew
    fun _ _ hstage hh => .inl ⟨hstage, hh⟩

theorem Kept.setObject (hk : s.Kept) (d : δ) (o : Object ι) (new : Option (MethodPc δ ι))
    (hnobody : ∀ t' pc, t' ≠ t → s.pc t' = some pc → pc.about ≠ d)
    (hold : ∀ p, s.pc t = some p → ¬ p.InLifecycle) (hout : ∀ p, new = some p → ¬ p.InLifecycle)
    (hnew : ∀ pc, new = some pc → pc.about = d ∧ o.stage = pc.stage ∧ s.Admits t pc ∧
      ∀ h, ((s.setObject d o).goto t new).Carries t h pc → s.Claims d h)
    (hclaim : ∀ h, o.stage = .ready → o.handle? = some h → s.Claims d h) :
    ((s.setObject d o).goto t new).Kept := by
  have hself : ((s.setObject d o).goto t new).object d = o := by
    simp [Devices.setObject, Devices.goto]
  refine hk.moved_quietly (moves_setObject d o new hnobody) hk.sound rfl
    (placed_of_outside ((hk.placed t).outside hold) hout) (fun pc hpc => ?_)
    fun d' h hstage hh => ?_
  · obtain ⟨habout, hstage, hadmits, hcarries⟩ := hnew pc hpc
    rw [habout, hself]
    exact ⟨hstage, hadmits, hcarries⟩
  · by_cases hd : d' = d
    · rw [hd, hself] at hstage hh
      exact hd ▸ hclaim h hstage hh
    · have hsame : ((s.setObject d o).goto t new).object d' = s.object d' := by
        simp [Devices.setObject, Devices.goto, hd]
      rw [hsame] at hstage hh
      exact .inl ⟨hstage, hh⟩

omit [DecidableEq τ] [DecidableEq δ] [DecidableEq ι] in
/-- Beside `Dispose`, only the methods of the constructor and of a `Dispose` under way are alone. -/
theorem not_sole_of_ready {pc : MethodPc δ ι} (hstage : pc.stage = .ready)
    (hmark : ∀ d, pc ≠ .mark d) : ¬ pc.Sole := by
  cases pc with
  | checkStarted | start | starting | storeStarted | call | calling => exact id
  | mark d => exact absurd rfl (hmark d)
  | _ => cases hstage

omit [DecidableEq τ] [DecidableEq δ] [DecidableEq ι] in
theorem stage_ne_absent (pc : MethodPc δ ι) : pc.stage ≠ .absent := by
  cases pc <;> nofun

theorem Kept.begins (hk : s.Kept) {a : DeviceAction τ δ ι φ ν} (hcase : s.BeginCase a s')
    (halone : s.DisposeAlone a) : s'.Kept := by
  have hstage : ∀ d o, s.object d = .ready o → o.disposed = false →
      (s.object d).stage = .ready := by
    intro d o hobject hlive
    simp [hobject, Object.stage, hlive]
  cases hcase with
  | refused => exact hk
  | construct t d dataDir created hidle habsent hdir =>
      have hnobody : ∀ t' pc, s.pc t' = some pc → pc.about ≠ d := by
        rintro t' pc hpc rfl
        have hstaged := hk.staged t' pc hpc
        rw [habsent] at hstaged
        exact stage_ne_absent pc hstaged.symm
      refine hk.setObject d .constructing _ (fun t' pc _ => hnobody t' pc) (by simp [hidle])
        (by rintro p ⟨⟩; exact id) (fun pc hpc => ?_) nofun
      cases hpc
      exact ⟨rfl, rfl, .inr fun t' pc' _ hpc' habout => absurd habout (hnobody t' pc' hpc'), nofun⟩
  | start t d o hidle hobject hlive | call t d c o hidle hobject hlive =>
      refine hk.goto _ (by simp [hidle]) (by rintro p ⟨⟩; exact id) fun pc hpc => ?_
      cases hpc
      refine ⟨hstage d o hobject hlive, .inr fun t' pc' _ hpc' habout => ⟨?_, id⟩, nofun⟩
      have hstaged := hk.staged t' pc' hpc'
      rw [habout] at hstaged
      refine not_sole_of_ready (hstaged.symm.trans (hstage d o hobject hlive)) ?_
      rintro d' rfl
      obtain rfl : d' = d := habout
      exact halone t' hpc'
  | dispose t d o hidle hobject hlive =>
      refine hk.goto _ (by simp [hidle]) (by rintro p ⟨⟩; exact id) fun pc hpc => ?_
      cases hpc
      exact ⟨hstage d o hobject hlive,
        .inr fun t' pc' _ hpc' habout => absurd habout (halone t' pc' hpc'), nofun⟩

theorem Kept.own (hk : s.Kept) (hcase : s.OwnCase t s') : s'.Kept := by
  have hstay : ∀ old pc, s.pc t = some old → old.about = pc.about → (pc.Sole → old.Sole) →
      s.Admits t pc := fun old pc hold habout hs => .inl ⟨old, hold, habout, hs⟩
  cases hcase with
  | again d hpc =>
      exact hk.goto none (by rintro p hp; cases hpc.symm.trans hp; exact id) nofun nofun
  | first d hpc =>
      refine hk.goto _ (by rintro p hp; cases hpc.symm.trans hp; exact id)
        (by rintro p ⟨⟩; exact id) fun pc hnew => ?_
      cases hnew
      have hstage : (s.object d).stage = .ready := hk.staged t _ hpc
      exact ⟨hstage, hstay _ _ hpc rfl nofun, nofun⟩
  | storeStarted d o hpc hobject =>
      -- another `Start` may be under way, but nothing it looks at changes
      have hlook : ∀ d', ((s.setObject d (.ready { o with started := true })).object d').stage =
          (s.object d').stage ∧
          ((s.setObject d (.ready { o with started := true })).object d').handle? =
            (s.object d').handle? := by
        intro d'
        by_cases hd : d' = d
        · simp [Devices.setObject, hd, hobject, Object.stage, Object.handle?]
        · simp [Devices.setObject, hd]
      refine hk.moved_quietly ⟨rfl, fun _ _ => rfl, fun d' => .inl (hlook d')⟩ hk.sound rfl ?_ nofun
        fun d' h hstage hh => .inl ⟨(hlook d').1.symm.trans hstage, (hlook d').2.symm.trans hh⟩
      exact placed_of_outside
        ((hk.placed t).outside (by rintro p hp; cases hpc.symm.trans hp; exact id)) nofun
  | mark d o hpc hobject =>
      have hstage : (s.object d).stage = .ready := hk.staged t _ hpc
      have hnobody : ∀ t' pc, t' ≠ t → s.pc t' = some pc → pc.about ≠ d := by
        intro t' pc ht hpc' habout
        exact ht (hk.alone t t' _ pc hpc hpc' habout.symm trivial).symm
      refine hk.setObject d _ _ hnobody (by rintro p hp; cases hpc.symm.trans hp; exact id)
        (by rintro p ⟨⟩; exact id) (fun pc hnew => ?_) nofun
      cases hnew
      refine ⟨rfl, rfl, hstay _ _ hpc rfl fun _ => trivial, fun h hcarries => ?_⟩
      refine .inl ⟨hstage, ?_⟩
      simpa [Carries, Devices.setObject, Devices.goto, hobject, Object.handle?] using hcarries

end Methods

/-! ## The steps of native code -/

section Native

variable [DecidableEq τ] [DecidableEq ι] {s s' : Devices τ δ ι φ ν} {t : τ} {n : Session τ ι φ ν}

theorem Kept.native_same (hk : s.Kept) (hsound : n.Sound)
    (hpc : n.process.pc = s.native.process.pc)
    (hactive : n.process.active = s.native.process.active) : { s with native := n }.Kept := by
  have hcarries : ∀ t' h pc, ({ s with native := n } : Devices τ δ ι φ ν).Carries t' h pc →
      s.Carries t' h pc := by
    intro t' h pc hc
    cases pc with
    | creating d | destroying d =>
        simp only [Carries, hpc] at hc
        exact hc
    | _ => exact hc
  have hclaims : ∀ d h, ({ s with native := n } : Devices τ δ ι φ ν).Claims d h → s.Claims d h := by
    rintro d h (hready | ⟨t', pc, hpc', habout, hc⟩)
    · exact .inl hready
    · exact claims_of_carries hpc' habout (hcarries t' h pc hc)
  refine ⟨hsound, fun t' => ?_, hk.staged, hk.alone, ?_, ?_⟩
  · have hplaced := hk.placed t'
    show Devices.Placed _ t' (s.pc t')
    cases hs : s.pc t' with
    | none =>
        rw [hs] at hplaced
        exact (congrFun hpc t').trans hplaced
    | some pc =>
        rw [hs] at hplaced
        cases pc <;> simpa only [Placed, hpc] using hplaced
  · exact fun d h hclaim => hactive.trans (hk.active d h (hclaims d h hclaim))
  · exact fun d d' h h' hclaim hclaim' =>
      hk.sole d d' h h' (hclaims d h hclaim) (hclaims d' h' hclaim')

omit [DecidableEq ι] in
theorem moves_native {pc : MethodPc δ ι} {npc : Option (Pc ι)} (hpc : s.pc t = some pc)
    (hn : n.process.pc = Function.update s.native.process.pc t npc) :
    s.Moves { s with native := n } t (some pc) where
  pc := by rw [← hpc, Function.update_eq_self]
  others := fun t' ht => by
    show n.process.pc t' = _
    rw [hn, Function.update_of_ne ht]
  object := fun _ => .inl ⟨rfl, rfl⟩

theorem Kept.native_moves (hk : s.Kept) (hsound : n.Sound) {pc : MethodPc δ ι}
    {npc : Option (Pc ι)} (hpc : s.pc t = some pc)
    (hn : n.process.pc = Function.update s.native.process.pc t npc)
    (hactive : n.process.active = s.native.process.active)
    (hplaced : ({ s with native := n } : Devices τ δ ι φ ν).Placed t (some pc))
    (hcarries : ∀ h, ({ s with native := n } : Devices τ δ ι φ ν).Carries t h pc →
      s.Claims pc.about h) : { s with native := n }.Kept := by
  refine hk.moved_quietly (moves_native hpc hn) hsound hactive hplaced (fun pc' hpc' => ?_)
    fun _ _ hstage hh => .inl ⟨hstage, hh⟩
  cases hpc'
  exact ⟨hk.staged t pc hpc, .inl ⟨pc, hpc, rfl, id⟩, hcarries⟩

theorem Kept.native_goes (hk : s.Kept) (hsound : n.Sound) {pc : MethodPc δ ι}
    (new : Option (MethodPc δ ι)) (hpc : s.pc t = some pc)
    (hothers : ∀ t', t' ≠ t → n.process.pc t' = s.native.process.pc t')
    (hactive : n.process.active = s.native.process.active)
    (hplaced : ({ s with native := n }.goto t new).Placed t new)
    (hnew : ∀ pc', new = some pc' → pc'.about = pc.about ∧ pc'.stage = pc.stage ∧
      (pc'.Sole → pc.Sole) ∧
      ∀ h, ({ s with native := n }.goto t new).Carries t h pc' → s.Claims pc.about h) :
    ({ s with native := n }.goto t new).Kept := by
  have hmoves : s.Moves ({ s with native := n }.goto t new) t new :=
    ⟨rfl, hothers, fun _ => .inl ⟨rfl, rfl⟩⟩
  refine hk.moved_quietly hmoves hsound hactive hplaced (fun pc' hpc' => ?_)
    fun _ _ hstage hh => .inl ⟨hstage, hh⟩
  obtain ⟨habout, hstage, hsole, hcarries⟩ := hnew pc' hpc'
  have hstaged := hk.staged t pc hpc
  refine ⟨?_, .inl ⟨pc, hpc, habout.symm, hsole⟩, ?_⟩
  · show (s.object pc'.about).stage = _
    rw [habout, hstaged, hstage]
  · rw [habout]
    exact hcarries

theorem Kept.native_returns (hk : s.Kept) (hsound : n.Sound) {pc : MethodPc δ ι}
    {new : Option (MethodPc δ ι)} (hpc : s.pc t = some pc)
    (hn : n.process.pc = Function.update s.native.process.pc t none)
    (hactive : n.process.active = s.native.process.active)
    (hnew : ∀ pc', new = some pc' → ¬ pc'.InLifecycle ∧ pc'.about = pc.about ∧
      pc'.stage = pc.stage ∧ (pc'.Sole → pc.Sole) ∧
      ∀ h, ({ s with native := n }.goto t new).Carries t h pc' → s.Claims pc.about h) :
    ({ s with native := n }.goto t new).Kept := by
  refine hk.native_goes hsound new hpc (fun t' ht => ?_) hactive
    (placed_of_outside ?_ fun p hp => (hnew p hp).1) fun pc' hpc' => (hnew pc' hpc').2
  · rw [hn, Function.update_of_ne ht]
  · show n.process.pc t = none
    rw [hn, Function.update_self]

/-- An instance is published: there was no claim, and the constructor has the only one now. -/
theorem Kept.publishes (hk : s.Kept) (hsound : n.Sound) {d : δ} {h : ι}
    (hpc : s.pc t = some (.creating d)) (hvacant : s.native.process.active = none)
    (hn : n.process.pc = Function.update s.native.process.pc t (some (.createUnlock (some h))))
    (hactive : n.process.active = some h) : { s with native := n }.Kept := by
  have hm := moves_native hpc hn
  have hnone : ∀ d' h', ¬ s.Claims d' h' := by
    intro d' h' hclaim
    have hset := hk.active d' h' hclaim
    rw [hvacant] at hset
    cases hset
  have honly : ∀ d' h', ({ s with native := n } : Devices τ δ ι φ ν).Claims d' h' →
      d' = d ∧ h' = h := by
    intro d' h' hclaim
    rcases hm.claims (fun _ _ hstage hh => .inl ⟨hstage, hh⟩) hclaim with
      hbefore | ⟨pc, hnew, rfl, hc⟩
    · exact absurd hbefore (hnone d' h')
    · cases hnew
      simp only [Carries, hn, Function.update_self, Option.some.injEq, Pc.createUnlock.injEq] at hc
      exact ⟨rfl, hc.symm⟩
  refine hk.moved hm hsound ⟨.createUnlock (some h), by rw [hn, Function.update_self], trivial⟩
    (fun pc hnew => ?_) ?_ ?_
  · cases hnew
    exact ⟨hk.staged t _ hpc, .inl ⟨_, hpc, rfl, id⟩⟩
  · intro d' h' hclaim
    rw [(honly d' h' hclaim).2]
    exact hactive
  · intro d₁ d₂ h₁ h₂ hclaim₁ hclaim₂
    rw [(honly d₁ h₁ hclaim₁).1, (honly d₂ h₂ hclaim₂).1]

/-- The active instance is reset: the claim of its `Dispose` was the only one. -/
theorem Kept.resets (hk : s.Kept) (hsound : n.Sound) {d : δ} {h : ι}
    (hpc : s.pc t = some (.destroying d))
    (hnpc : s.native.process.pc t = some (.resetActive h))
    (hn : n.process.pc = Function.update s.native.process.pc t (some (.destroyUnlock h))) :
    { s with native := n }.Kept := by
  have hm := moves_native hpc hn
  have hclaim₀ : s.Claims d h := claims_of_carries hpc rfl ⟨_, hnpc, trivial, rfl⟩
  have hplaced := hk.placed t
  rw [hpc] at hplaced
  have hnocarry : ∀ h',
      ¬ ({ s with native := n } : Devices τ δ ι φ ν).Carries t h' (.destroying d) := by
    rintro h' ⟨pc, hpc', hdestroys, _⟩
    rw [hn, Function.update_self] at hpc'
    cases hpc'
    exact hdestroys
  have hnone : ∀ d' h', ¬ ({ s with native := n } : Devices τ δ ι φ ν).Claims d' h' := by
    intro d' h' hclaim
    obtain rfl : d' = d := by
      rcases hm.claims (fun _ _ hstage hh => .inl ⟨hstage, hh⟩) hclaim with hbefore |
        ⟨pc, hnew, rfl, hc⟩
      · exact hk.sole d' d h' h hbefore hclaim₀
      · cases hnew
        rfl
    rcases hclaim with ⟨hstage, _⟩ | ⟨t', pc, hpc', habout, hc⟩
    · have hstaged := hk.staged t _ hpc
      simp only [MethodPc.about, MethodPc.stage] at hstaged
      rw [hstaged] at hstage
      cases hstage
    · obtain rfl : t = t' := hk.alone t t' _ pc hpc hpc' habout.symm trivial
      cases hpc.symm.trans hpc'
      exact hnocarry h' hc
  refine hk.moved hm hsound ?_ (fun pc hnew => ?_) (fun d' h' hclaim => absurd hclaim (hnone d' h'))
    fun d₁ _ h₁ _ hclaim => absurd hclaim (hnone d₁ h₁)
  · obtain ⟨npc, hnpc', _, hhandle⟩ := hplaced
    cases hnpc.symm.trans hnpc'
    exact ⟨.destroyUnlock h, by rw [hn, Function.update_self], ⟨id, id⟩, hhandle⟩
  · cases hnew
    exact ⟨hk.staged t _ hpc, .inl ⟨_, hpc, rfl, id⟩⟩

variable [DecidableEq δ] {a : SessionAction τ ι φ ν} {e : SessionEvent τ ι φ ν}

omit [DecidableEq ι] in
theorem resume_quiet (hret : returned n a e = none) (h : s.ResumeCase n a e s') :
    s' = { s with native := n } := by
  cases h with
  | none => rfl
  | some t' r pc hsome => simp [hret] at hsome

omit [DecidableEq ι] in
theorem resume_return {r : NativeReturn ι} {pc : MethodPc δ ι} (hret : returned n a e = some (t, r))
    (hpc : s.pc t = some pc) (h : s.ResumeCase n a e s') :
    s' = ({ s with native := n }.resume t r pc).1 := by
  cases h with
  | none hnever => exact (hnever t r pc hret hpc).elim
  | some t' r' pc' hret' hpc' =>
      cases hret.symm.trans hret'
      cases hpc.symm.trans hpc'
      rfl

theorem Kept.creates (hk : s.Kept) (hsound : n.Sound) {c : Choice ι} {o : LifecycleEvent τ ι}
    (hcase : s.native.process.CreateCase t n.process o)
    (hresume : s.ResumeCase n (.life (.advance t c)) (.life o) s') : s'.Kept := by
  have hcreating : ∀ npc, s.native.process.pc t = some npc → OfCreate npc →
      ∃ d, s.pc t = some (.creating d) := by
    intro npc hnpc hcreate
    rcases (hk.placed t).cases hnpc with ⟨d, hpc, _⟩ | ⟨d, _, hstarts, _⟩ | ⟨d, _, hdestroy, _⟩
    · exact ⟨d, hpc⟩
    · cases npc with
      | exchange | setRunning | spawn | startReturn => exact hcreate.elim
      | _ => exact hstarts.elim
    · exact absurd hcreate hdestroy.1
  have hgoes : ∀ npc new, n.process.pc = Function.update s.native.process.pc t (some new) →
      n.process.active = s.native.process.active → s.native.process.pc t = some npc →
      OfCreate npc → OfCreate new → (∀ h, new ≠ .createUnlock (some h)) →
      { s with native := n }.Kept := by
    intro npc new hn hactive hnpc hcreate hnew hno
    obtain ⟨d, hpc⟩ := hcreating npc hnpc hcreate
    refine hk.native_moves hsound hpc hn hactive ⟨new, by rw [hn, Function.update_self], hnew⟩ ?_
    intro h hc
    simp only [Carries, hn, Function.update_self, Option.some.injEq] at hc
    exact absurd hc (hno h)
  generalize hp : n.process = p at hcase
  have hquiet : returned n (.life (.advance t c)) (.life o) = none → s' = { s with native := n } :=
    fun hret => resume_quiet hret hresume
  cases hcase with
  | publish h hnpc =>
      obtain ⟨d, hpc⟩ := hcreating _ hnpc trivial
      have hvacant := (hk.sound.process.orderly.owned.place t _ hnpc).1
      rw [hquiet rfl]
      exact hk.publishes hsound hpc hvacant (congrArg Process.pc hp) (by rw [hp]; rfl)
  | unlock ret hnpc =>
      obtain ⟨d, hpc⟩ := hcreating _ hnpc trivial
      rw [resume_return rfl hpc hresume]
      cases ret with
      | none => exact hk.native_returns hsound hpc (congrArg Process.pc hp) (by rw [hp]; rfl) nofun
      | some h =>
          refine hk.native_returns hsound hpc (congrArg Process.pc hp) (by rw [hp]; rfl)
            fun pc hnew => ?_
          cases hnew
          refine ⟨id, rfl, rfl, id, fun h' hc => claims_of_carries hpc rfl ?_⟩
          obtain rfl : h = h' := hc
          exact hnpc
  | throw hnpc =>
      obtain ⟨d, hpc⟩ := hcreating _ hnpc trivial
      rw [resume_return rfl hpc hresume]
      exact hk.native_returns hsound hpc (congrArg Process.pc hp) (by rw [hp]; rfl) nofun
  | lock hnpc | occupied hnpc | vacant hnpc | rootFails hnpc | root hnpc | init hnpc | new h hnpc
  | newFails hnpc | install h k todo hnpc =>
      rw [hquiet rfl]
      exact hgoes _ _ (congrArg Process.pc hp) (by rw [hp]; rfl) hnpc trivial trivial
        nofun

theorem Kept.starts (hk : s.Kept) (hsound : n.Sound) {c : Choice ι} {h : ι} {i : Instance}
    {o : LifecycleEvent τ ι} (hcase : s.native.process.StartCase t h i n.process o)
    (hresume : s.ResumeCase n (.life (.advance t c)) (.life o) s') : s'.Kept := by
  have hstarting : ∀ npc, s.native.process.pc t = some npc → npc.Starts →
      ∃ d, s.pc t = some (.starting d) ∧ npc.handle = (s.object d).handle? := by
    intro npc hnpc hstarts
    rcases (hk.placed t).cases hnpc with ⟨d, _, hcreate⟩ | ⟨d, hpc, _, hhandle⟩ |
      ⟨d, _, hdestroy, _⟩
    · cases npc with
      | exchange | setRunning | spawn | startReturn => exact hcreate.elim
      | _ => exact hstarts.elim
    · exact ⟨d, hpc, hhandle⟩
    · exact absurd hstarts hdestroy.2
  have hgoes : ∀ npc new, n.process.pc = Function.update s.native.process.pc t (some new) →
      n.process.active = s.native.process.active → s.native.process.pc t = some npc →
      npc.Starts → new.Starts → new.handle = npc.handle → { s with native := n }.Kept := by
    intro npc new hn hactive hnpc hstarts hnew hsame
    obtain ⟨d, hpc, hhandle⟩ := hstarting npc hnpc hstarts
    exact hk.native_moves hsound hpc hn hactive
      ⟨new, by rw [hn, Function.update_self], hnew, hsame.trans hhandle⟩ nofun
  generalize hp : n.process = p at hcase
  have hquiet : returned n (.life (.advance t c)) (.life o) = none → s' = { s with native := n } :=
    fun hret => resume_quiet hret hresume
  cases hcase with
  | again hnpc =>
      obtain ⟨d, hpc, _⟩ := hstarting _ hnpc trivial
      rw [resume_return rfl hpc hresume]
      exact hk.native_returns hsound hpc (congrArg Process.pc hp) (by rw [hp]; rfl) nofun
  | spawnFails hnpc =>
      obtain ⟨d, hpc, _⟩ := hstarting _ hnpc trivial
      rw [resume_return rfl hpc hresume]
      exact hk.native_returns hsound hpc (congrArg Process.pc hp) (by rw [hp]; rfl) nofun
  | done hnpc =>
      obtain ⟨d, hpc, _⟩ := hstarting _ hnpc trivial
      rw [resume_return rfl hpc hresume]
      refine hk.native_returns hsound hpc (congrArg Process.pc hp) (by rw [hp]; rfl)
        fun pc hnew => ?_
      cases hnew
      exact ⟨id, rfl, rfl, id, nofun⟩
  | first hnpc | setRunning hnpc | spawn hnpc =>
      rw [hquiet rfl]
      exact hgoes _ _ (congrArg Process.pc hp) (by rw [hp]; rfl) hnpc trivial trivial rfl

theorem Kept.destroys (hk : s.Kept) (hsound : n.Sound) {c : Choice ι} {h : ι} {i : Instance}
    {o : LifecycleEvent τ ι} (hcase : s.native.process.DestroyCase t h i n.process o)
    (hresume : s.ResumeCase n (.life (.advance t c)) (.life o) s') : s'.Kept := by
  have hdestroying : ∀ npc, s.native.process.pc t = some npc → OfDestroy npc →
      ∃ d, s.pc t = some (.destroying d) ∧ npc.handle = (s.object d).handle? := by
    intro npc hnpc hdestroy
    rcases (hk.placed t).cases hnpc with ⟨d, _, hcreate⟩ | ⟨d, _, hstarts, _⟩ | ⟨d, hpc, _, hhandle⟩
    · exact absurd hcreate hdestroy.1
    · exact absurd hstarts hdestroy.2
    · exact ⟨d, hpc, hhandle⟩
  have hgoes : ∀ npc new, n.process.pc = Function.update s.native.process.pc t (some new) →
      n.process.active = s.native.process.active → s.native.process.pc t = some npc →
      OfDestroy npc → OfDestroy new → new.handle = npc.handle → (new.Destroys → npc.Destroys) →
      { s with native := n }.Kept := by
    intro npc new hn hactive hnpc hdestroy hnew hsame hdestroys
    obtain ⟨d, hpc, hhandle⟩ := hdestroying npc hnpc hdestroy
    refine hk.native_moves hsound hpc hn hactive
      ⟨new, by rw [hn, Function.update_self], hnew, hsame.trans hhandle⟩ ?_
    rintro h' ⟨npc', hnpc', hd, hh⟩
    rw [hn, Function.update_self] at hnpc'
    cases hnpc'
    exact claims_of_carries hpc rfl ⟨npc, hnpc, hdestroys hd, hsame.symm.trans hh⟩
  generalize hp : n.process = p at hcase
  have hquiet : returned n (.life (.advance t c)) (.life o) = none → s' = { s with native := n } :=
    fun hret => resume_quiet hret hresume
  cases hcase with
  | delete hnpc =>
      obtain ⟨d, hpc, _⟩ := hdestroying _ hnpc ⟨id, id⟩
      rw [resume_return rfl hpc hresume]
      exact hk.native_returns hsound hpc (congrArg Process.pc hp) (by rw [hp]; rfl) nofun
  | reset hnpc =>
      obtain ⟨d, hpc, _⟩ := hdestroying _ hnpc ⟨id, id⟩
      rw [hquiet rfl]
      exact hk.resets hsound hpc hnpc (congrArg Process.pc hp)
  | clearRunning hnpc | join hnpc | uninstall k todo hnpc | lock hnpc =>
      rw [hquiet rfl]
      exact hgoes _ _ (congrArg Process.pc hp) (by rw [hp]; rfl) hnpc ⟨id, id⟩ ⟨id, id⟩ rfl
        fun _ => trivial
  | unlock hnpc | shutdown hnpc =>
      rw [hquiet rfl]
      exact hgoes _ _ (congrArg Process.pc hp) (by rw [hp]; rfl) hnpc ⟨id, id⟩ ⟨id, id⟩ rfl
        False.elim

theorem Kept.enters (hk : s.Kept) {f : δ → Delegates φ} {pc : MethodPc δ ι}
    (henter : s.EnterCase f t a pc) (hstep : s.native.step a = some (n, e))
    (hresume : (s.goto t (some pc)).ResumeCase n a e s') : s'.Kept := by
  have hsound : n.Sound := hk.sound.step (hk.contract henter) hstep
  have hquiet : returned n a e = none → s' = { s.goto t (some pc) with native := n } :=
    fun hret => resume_quiet hret hresume
  have hrefused : ∀ d, pc = .creating d → returned n a e = some (t, .created none) →
      s' = { s with native := n }.goto t none := by
    rintro d rfl hret
    rw [resume_return hret (goto_self ..) hresume]
    simp only [resume, Devices.goto, Function.update_idem]
  have hcase := Session.step_cases hstep
  cases henter with
  | create d dataDir hpc =>
      cases hcase with
      | life _ p o hready hlife =>
          cases hlife with
          | createRefused =>
              have hnone : s.native.process.pc t = none :=
                (hk.placed t).outside (by rintro p hp; cases hpc.symm.trans hp; exact id)
              rw [hrefused d rfl rfl]
              exact hk.native_goes hsound none hpc (fun _ _ => rfl) rfl hnone nofun
          | createBegins _ _ hidle husable =>
              rw [hquiet rfl]
              refine hk.native_goes hsound (some (.creating d)) hpc
                (fun t' ht => Process.goto_other _ ht) rfl
                ⟨.createLock, Process.goto_self _, trivial⟩ fun pc' hnew => ?_
              cases hnew
              refine ⟨rfl, rfl, id, fun h hc => ?_⟩
              simp [Carries, Devices.goto] at hc
      | thread _ b c e hmakes => cases hmakes
  | setCallbacks d h hpc =>
      cases hcase with
      | thread _ b c e hmakes htask =>
          have hnone : s.native.process.pc t = none :=
            (hk.placed t).outside (by rintro p hp; cases hpc.symm.trans hp; exact id)
          rw [hquiet rfl]
          refine hk.native_goes hsound (some (.settingCallbacks d h)) hpc (fun _ _ => rfl) rfl
            hnone fun pc' hnew => ?_
          cases hnew
          exact ⟨rfl, rfl, id, fun h' hc => claims_of_carries hpc rfl hc⟩
  | call d c o hpc hobject =>
      cases hcase with
      | thread _ b c e hmakes htask =>
          have hnone : s.native.process.pc t = none :=
            (hk.placed t).outside (by rintro p hp; cases hpc.symm.trans hp; exact id)
          rw [hquiet rfl]
          refine hk.native_goes hsound (some (.calling d)) hpc (fun _ _ => rfl) rfl hnone
            fun pc' hnew => ?_
          cases hnew
          exact ⟨rfl, rfl, id, nofun⟩
  | start d o hpc hobject =>
      cases hcase with
      | life _ p o' hready hlife =>
          cases hlife with
          | startBegins _ _ hidle =>
              rw [hquiet rfl]
              refine hk.native_goes hsound (some (.starting d)) hpc
                (fun t' ht => Process.goto_other _ ht) rfl
                ⟨.exchange o.handle, Process.goto_self _, trivial, ?_⟩ fun pc' hnew => ?_
              · simp [Devices.goto, hobject, Object.handle?, Pc.handle]
              · cases hnew
                exact ⟨rfl, rfl, id, nofun⟩
      | thread _ b c e hmakes => cases hmakes
  | destroy d o hpc hobject =>
      cases hcase with
      | life _ p o' hready hlife =>
          cases hlife with
          | destroyBegins _ _ hidle =>
              rw [hquiet rfl]
              refine hk.native_goes hsound (some (.destroying d)) hpc
                (fun t' ht => Process.goto_other _ ht) rfl
                ⟨.clearRunning o.handle, Process.goto_self _, ⟨id, id⟩, ?_⟩ fun pc' hnew => ?_
              · simp [Devices.goto, hobject, Object.handle?, Pc.handle]
              · cases hnew
                refine ⟨rfl, rfl, id, fun h hc => ?_⟩
                obtain ⟨npc, hnpc, _, hh⟩ := hc
                simp only [Devices.goto, Process.goto_self, Option.some.injEq] at hnpc
                subst hnpc
                refine claims_of_carries hpc rfl ?_
                show (s.object d).handle? = some h
                rw [hobject]
                exact hh
      | thread _ b c e hmakes => cases hmakes

end Native

/-! ## Calls of the HAL -/

section Calls

variable [DecidableEq τ] [DecidableEq δ] [DecidableEq ι] {s s' : Devices τ δ ι φ ν} {t : τ}
  {n : Session τ ι φ ν} {a : SessionAction τ ι φ ν} {e : SessionEvent τ ι φ ν}

omit [DecidableEq δ] in
theorem stack_of_returned {r : NativeReturn ι} (hstep : s.native.step a = some (n, e))
    (hret : returned n a e = some (t, r)) : n.config.stack (.host t) = [] := by
  cases Session.step_cases hstep with
  | life b p o hready hlife =>
      cases hlife with
      | creates t₁ c hcase | starts t₁ c h i hi hcase | destroys t₁ c h i hi hcase =>
          cases hcase <;> cases hret <;> exact hready
      | works => cases hret
      | _ => cases hret <;> exact hready
  | log h message p o hcaught hlife =>
      cases hlife with
      | works => cases hret
  | thread b c₁ c e₁ hmakes htask =>
      cases hmakes with
      | run r' c' =>
          cases r' with
          | host t' =>
              simp only [returned] at hret
              split at hret
              · next hnil =>
                  cases hret
                  exact hnil
              · cases hret
          | worker h => cases hret
      | _ => cases hret

omit [DecidableEq δ] in
theorem stack_of_step (hstep : s.native.step a = some (n, e))
    (hstack : n.config.stack (.host t) ≠ []) :
    s.native.config.stack (.host t) ≠ [] ∨ ∃ h c, a = .call t h c := by
  cases Session.step_cases hstep with
  | life b p o hready hlife => exact .inl hstack
  | log h message p o hcaught hlife =>
      rw [Config.setStack_other _ _ (by nofun)] at hstack
      exact .inl hstack
  | thread b c₁ c e₁ hmakes htask =>
      rcases Session.stack_step htask hstack with hbefore | ⟨b, hcall⟩
      · exact .inl hbefore
      · subst hcall
        cases hmakes with
        | call t' h c' => exact .inr ⟨h, c', rfl⟩

omit [DecidableEq ι] in
theorem pc_of_resume (hresume : s.ResumeCase n a e s')
    (hstill : ∀ r, returned n a e ≠ some (t, r)) : s'.pc t = s.pc t := by
  cases hresume with
  | none => rfl
  | some t' r pc hret hpc =>
      have hne : t ≠ t' := by
        rintro rfl
        exact hstill r hret
      cases pc with
      | creating d =>
          rcases r with (_ | h) | ret | _ | _ <;> simp [resume, Devices.goto, hne]
      | starting d =>
          rcases r with h | ret | _ | _
          · simp [resume, Devices.goto, hne]
          · simp only [resume]
            split <;> simp [Devices.goto, hne]
          · simp [resume, Devices.goto, hne]
          · simp [resume, Devices.goto, hne]
      | settingCallbacks d h => simp [resume, Devices.goto, Devices.setObject, hne]
      | calling d | destroying d => simp [resume, Devices.goto, hne]
      | _ => rfl

omit [DecidableEq ι] in
theorem native_of_resume (hresume : s.ResumeCase n a e s') : s'.native = n := by
  cases hresume with
  | none => rfl
  | some t r pc hret hpc =>
      cases pc with
      | creating d => rcases r with (_ | h) | ret | _ | _ <;> rfl
      | starting d =>
          rcases r with h | ret | _ | _
          · rfl
          · simp only [resume]
            split <;> rfl
          · rfl
          · rfl
      | _ => rfl

theorem InCalls.step (hc : s.InCalls) {f : δ → Delegates φ} {b : DeviceAction τ δ ι φ ν}
    {o : DeviceEvent τ ι φ ν} (hcase : s.StepCase f b s' o) : s'.InCalls := by
  -- a thread that is not in a call and stays out of native code may go anywhere
  have hgoto : ∀ t pc, s.pc t = pc → (∀ d, pc ≠ some (.calling d)) →
      (∀ d h, pc ≠ some (.settingCallbacks d h)) → ∀ s' : Devices τ δ ι φ ν,
      s'.native = s.native → (∀ t', t' ≠ t → s'.pc t' = s.pc t') → s'.InCalls := by
    intro t pc hpc hcalling hsetting s' hnative hother t' hstack
    rw [hnative] at hstack
    by_cases ht : t' = t
    · subst ht
      rcases hc t' hstack with ⟨d, hd⟩ | ⟨d, h, hd⟩
      · exact absurd (hpc.symm.trans hd) (hcalling d)
      · exact absurd (hpc.symm.trans hd) (hsetting d h)
    · rw [hother t' ht]
      exact hc t' hstack
  have hupdate : ∀ t new t', t' ≠ t → Function.update s.pc t new t' = s.pc t' :=
    fun t new t' ht => Function.update_of_ne ht _ _
  cases hcase with
  | begins _ _ x hbegin =>
      cases hbegin with
      | refused => exact hc
      | construct t d dataDir created hidle | start t d o hidle | call t d c o hidle
      | dispose t d o hidle => exact hgoto t none hidle nofun nofun _ rfl (hupdate t _)
  | own t _ x hown =>
      cases hown with
      | again d hpc | first d hpc | storeStarted d o hpc | mark d o hpc =>
          exact hgoto t _ hpc nofun nofun _ rfl (hupdate t _)
  | enters t b pc n e _ x henter hstep hresume =>
      intro t' hstack
      rw [native_of_resume hresume] at hstack
      have hpc' := pc_of_resume hresume fun r hret => hstack (stack_of_returned hstep hret)
      rcases stack_of_step hstep hstack with hbefore | ⟨h, c, rfl⟩
      · have hne : t' ≠ t := by
          rintro rfl
          cases henter with
          | create d dataDir hpc | setCallbacks d h hpc | start d o hpc | call d c o hpc
          | destroy d o hpc =>
              rcases hc t' hbefore with ⟨d', hd⟩ | ⟨d', h', hd⟩ <;> cases hpc.symm.trans hd
        rw [hpc', goto_other _ _ hne]
        exact hc t' hbefore
      · cases henter with
        | setCallbacks d h hpc =>
            rw [hpc', goto_self]
            exact .inr ⟨d, h, rfl⟩
        | call d c o hpc hobject =>
            rw [hpc', goto_self]
            exact .inl ⟨d, rfl⟩
  | continues b n e _ x hcont hstep hresume =>
      intro t' hstack
      rw [native_of_resume hresume] at hstack
      have hpc' := pc_of_resume hresume fun r hret => hstack (stack_of_returned hstep hret)
      rcases stack_of_step hstep hstack with hbefore | ⟨h, c, rfl⟩
      · rw [hpc']
        exact hc t' hbefore
      · cases hcont

/-! ## Whole runs -/

theorem Kept.continues (hk : s.Kept) (hc : s.InCalls) (hcont : Continues a = true)
    (hstep : s.native.step a = some (n, e)) (hresume : s.ResumeCase n a e s') : s'.Kept := by
  have hcontract : s.native.Contract a := by
    cases a with
    | life b => cases b <;> trivial
    | call t h c => cases hcont
    | _ => trivial
  have hsound : n.Sound := hk.sound.step hcontract hstep
  cases Session.step_cases hstep with
  | life b p o hready hlife =>
      cases hlife with
      | creates t c hcase => exact hk.creates hsound hcase hresume
      | starts t c h i hi hcase => exact hk.starts hsound hcase hresume
      | destroys t c h i hi hcase => exact hk.destroys hsound hcase hresume
      | works h c i i' o hi hwork =>
          rw [resume_quiet rfl hresume]
          exact hk.native_same hsound rfl rfl
      | _ => cases hcont
  | log h message p o hcaught hlife =>
      cases hlife with
      | works h c i i' o hi hwork =>
          rw [resume_quiet rfl hresume]
          exact hk.native_same hsound rfl rfl
  | thread b c₁ c e₁ hmakes htask =>
      have hk' := hk.native_same (n := ⟨s.native.process, c⟩) hsound rfl rfl
      cases hresume with
      | none => exact hk'
      | some t r pc hret hpc =>
          -- only a thread that was in the call can have left it
          have hbusy : s.native.config.stack (.host t) ≠ [] := by
            intro hnil
            cases hmakes with
            | run r' c' =>
                cases r' with
                | host t' =>
                    simp only [returned] at hret
                    split at hret
                    · cases hret
                      simp [Program.step, hnil, Program.advance] at htask
                    · cases hret
                | worker h => cases hret
            | _ => cases hret
          rcases hc t hbusy with ⟨d, hd⟩ | ⟨d, h, hd⟩
          · cases hpc.symm.trans hd
            exact hk'.goto none (by rintro p hp; cases hpc.symm.trans hp; exact id)
              (by simp) (by simp)
          · cases hpc.symm.trans hd
            refine hk'.setObject d _ none (fun t' pc ht hpc' habout => ?_)
              (by rintro p hp; cases hpc.symm.trans hp; exact id) (by simp) (by simp)
              fun h' _ hh => ?_
            · exact ht (hk.alone t t' _ pc hpc hpc' habout.symm trivial).symm
            · exact claims_of_carries hpc rfl (Option.some.inj hh)

theorem Kept.step (hk : s.Kept) (hc : s.InCalls) {f : δ → Delegates φ}
    {b : DeviceAction τ δ ι φ ν} {o : DeviceEvent τ ι φ ν} (hcase : s.StepCase f b s' o)
    (halone : s.DisposeAlone b) : s'.Kept := by
  cases hcase with
  | begins _ _ x hbegin => exact hk.begins hbegin halone
  | own t _ x hown => exact hk.own hown
  | enters t b pc n e _ x henter hstep hresume => exact hk.enters henter hstep hresume
  | continues b n e _ x hcont hstep hresume => exact hk.continues hc hcont hstep hresume

/-- A step either stays in managed code, or is a native step that the native side allows. -/
theorem Kept.native_step (hk : s.Kept) (hc : s.InCalls) {f : δ → Delegates φ}
    {b : DeviceAction τ δ ι φ ν} {o : DeviceEvent τ ι φ ν} (hcase : s.StepCase f b s' o) :
    o.native = none ∧ s'.native = s.native ∨ ∃ a e, o.native = some (a, e) ∧
      (session τ ι φ ν).step s.native a = some (s'.native, e) ∧ s.native.HeaderContract a := by
  cases hcase with
  | begins _ _ x hbegin => exact .inl ⟨rfl, by cases hbegin <;> rfl⟩
  | own t _ x hown => exact .inl ⟨rfl, by cases hown <;> rfl⟩
  | enters t a pc n e _ x henter hstep hresume =>
      rw [native_of_resume hresume]
      exact .inr ⟨a, e, rfl, hstep, hk.headerContract hc henter⟩
  | continues a n e _ x hcont hstep hresume =>
      rw [native_of_resume hresume]
      refine .inr ⟨a, e, rfl, hstep, ?_⟩
      cases a with
      | life b => cases b <;> trivial
      | call t h c => cases hcont
      | _ => trivial

omit [DecidableEq δ] in
theorem kept_initial : (initial : Devices τ δ ι φ ν).Kept where
  sound := Session.sound_initial
  placed := fun _ => rfl
  staged := nofun
  alone := nofun
  active := by
    rintro d h (⟨hstage, _⟩ | ⟨t, pc, hpc, _⟩)
    · cases hstage
    · cases hpc
  sole := by
    rintro d d' h h' (⟨hstage, _⟩ | ⟨t, pc, hpc, _⟩) _
    · cases hstage
    · cases hpc

theorem kept_along {f : δ → Delegates φ} {as : List (DeviceAction τ δ ι φ ν)}
    {os : List (DeviceEvent τ ι φ ν)}
    (halone : (devices τ δ ι φ ν f).Along DisposeAlone initial as)
    (hrun : (devices τ δ ι φ ν f).run initial as = some (s, os)) : s.Kept ∧ s.InCalls := by
  refine Machine.invariant_along (J := fun s => s.Kept ∧ s.InCalls) ?_
    ⟨kept_initial, fun t ht => absurd rfl ht⟩ halone hrun
  intro s b s' o hkept hok hstep
  exact ⟨hkept.1.step hkept.2 (step_cases hstep) hok, hkept.2.step (step_cases hstep)⟩

end Calls

end Devices

def nativeActions {τ ι φ ν : Type*} (os : List (DeviceEvent τ ι φ ν)) :
    List (SessionAction τ ι φ ν) :=
  os.filterMap fun o => o.native.map Prod.fst

def nativeEvents {τ ι φ ν : Type*} (os : List (DeviceEvent τ ι φ ν)) :
    List (SessionEvent τ ι φ ν) :=
  os.filterMap fun o => o.native.map Prod.snd

section Runs

variable {τ δ ι φ ν : Type*} [DecidableEq τ] [DecidableEq δ] [DecidableEq ι]
  {f : δ → Delegates φ} {s : Devices τ δ ι φ ν} {as : List (DeviceAction τ δ ι φ ν)}
  {os : List (DeviceEvent τ ι φ ν)}

/-- There is one object at most that is constructed and not disposed of, and its instance exists
and is the active one. So as long as there is one, no other constructor comes to its end. -/
theorem devices_exclusive
    (halone : (devices τ δ ι φ ν f).Along Devices.DisposeAlone Devices.initial as)
    (hrun : (devices τ δ ι φ ν f).run Devices.initial as = some (s, os)) :
    (∀ d d', (s.object d).stage = .ready → (s.object d').stage = .ready → d = d') ∧
      ∀ d h, (s.object d).stage = .ready → (s.object d).handle? = some h →
        s.native.process.active = some h ∧ s.native.process.instance? h ≠ none := by
  obtain ⟨hk, _⟩ := Devices.kept_along halone hrun
  have hclaim : ∀ d, (s.object d).stage = .ready → ∃ h, s.Claims d h := by
    intro d hd
    cases hobject : s.object d with
    | ready o => exact ⟨o.handle, .inl ⟨hd, by rw [hobject]; rfl⟩⟩
    | _ =>
        rw [hobject] at hd
        cases hd
  constructor
  · intro d d' hd hd'
    obtain ⟨h, hclaim₁⟩ := hclaim d hd
    obtain ⟨h', hclaim₂⟩ := hclaim d' hd'
    exact hk.sole d d' h h' hclaim₁ hclaim₂
  · intro d h hd hh
    exact ⟨hk.active d h (.inl ⟨hd, hh⟩), hk.live (.inl ⟨hd, hh⟩)⟩

end Runs

/-! ## Two threads -/

section Threads

abbrev Script := List (DeviceAction Bool Nat Nat Unit Unit)

def delegates : Nat → Delegates Unit := fun _ => ⟨(), (), (), ()⟩

/-- `n` steps of thread `t`: in its method, in a native life-cycle call, or in a HAL call. -/
def methodSteps (t : Bool) (n : Nat) : Script := List.replicate n (.advance t)

def lifeSteps (t : Bool) (n : Nat) : Script := List.replicate n (.native (.life (.advance t .ok)))

def callSteps (t : Bool) (n : Nat) : Script := List.replicate n (.native (.run (.host t) none))

def constructAndStart : Script :=
  List.flatten [[.construct false 0 [46] true], methodSteps false 1, lifeSteps false 4,
    [.native (.life (.advance false (.allocated 1)))], lifeSteps false 6, methodSteps false 1,
    callSteps false 6, [.start false 0], methodSteps false 2, lifeSteps false 4,
    methodSteps false 1]

def disposeAll : Script :=
  List.flatten [[.dispose false 0], methodSteps false 2, lifeSteps false 1,
    List.replicate 4 (.native (.life (.work 1 .proceed))), lifeSteps false 10]

/-- A second thread writes, tries to construct another object, and comes back too late. -/
def shared : Script :=
  List.flatten [constructAndStart, [.call true 0 (.writeSerial [65])], methodSteps true 1,
    callSteps true 3, [.construct true 1 [46] true], methodSteps true 1, lifeSteps true 3,
    disposeAll, [.call true 0 .getLineConfig]]

theorem started_exclusive :
    ∃ s os, (devices Bool Nat Nat Unit Unit delegates).run Devices.initial constructAndStart =
        some (s, os) ∧ (s.object 0).stage = .ready ∧ s.native.process.active = some 1 := by
  have hready : ((devices Bool Nat Nat Unit Unit delegates).run Devices.initial
      constructAndStart).map (fun r => r.1.object 0) = some (.ready ⟨1, true, false⟩) := by
    decide +kernel
  obtain ⟨⟨s, os⟩, hrun, hobject⟩ := Option.map_eq_some_iff.mp hready
  have hstage : (s.object 0).stage = .ready := by
    rw [hobject]
    rfl
  refine ⟨s, os, hrun, hstage, ?_⟩
  refine ((devices_exclusive (by decide +kernel) hrun).2 0 1 hstage ?_).1
  rw [hobject]
  rfl

/-- A write that has passed its check is overtaken by `Dispose`, and calls with a dead handle. -/
def overtaken : Script :=
  List.flatten [constructAndStart, [.call true 0 (.writeSerial [65])], disposeAll,
    methodSteps true 1]

/-- The native side is not kept in order then: `Dispose` has to be alone. -/
theorem contract_broken_when_overtaken :
    ∃ s os, (devices Bool Nat Nat Unit Unit delegates).run Devices.initial overtaken =
        some (s, os) ∧
      ¬ (session Bool Nat Unit Unit).Along Session.Contract Session.initial (nativeActions os) := by
  have hbroken : ((devices Bool Nat Nat Unit Unit delegates).run Devices.initial overtaken).map
      (fun r => decide ((session Bool Nat Unit Unit).Along Session.Contract Session.initial
        (nativeActions r.2))) = some false := by
    decide +kernel
  obtain ⟨⟨s, os⟩, hrun, hos⟩ := Option.map_eq_some_iff.mp hbroken
  exact ⟨s, os, hrun, of_decide_eq_false hos⟩

end Threads

end ZiModem.Managed
