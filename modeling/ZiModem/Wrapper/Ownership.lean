import ZiModem.Wrapper.Singleton

/-! # Who owns the callbacks, over whole runs

The order of the mutex and the slots, carried along every interleaving, and next
to it what the history records: which handles callers hold, which slots their own
`destroy` has cleared, and which instances are still to be paid for with a
`global_shutdown`.
-/

namespace ZiModem.Wrapper

open Reactive

variable {τ ι : Type*}

/-- Returned by `create`, and `destroy` not yet past the reset of `g_active_instance`. -/
def LiveFor (os : List (LifecycleEvent τ ι)) (h : ι) : Prop :=
  (∃ t, .createReturned t (some h) ∈ os) ∧ ∀ t, .reset t h ∉ os

/-- The published instances whose `global_shutdown` is still to come. -/
def unshut [DecidableEq ι] (os : List (LifecycleEvent τ ι)) : List ι :=
  os.foldl (fun held o =>
    match o with
    | .published _ h => h :: held
    | .globalShutdown _ h => held.erase h
    | _ => held) []

namespace Pc

/-- The steps of `create` that have called `global_init` for an instance not yet published. -/
def HoldsInit : Pc ι → Prop
  | createNew | install _ _ => True
  | _ => False

/-- The steps of `destroy` on an instance that is not active any more, before `global_shutdown`. -/
def Leaves (pc : Pc ι) (h : ι) : Prop := pc = .destroyUnlock h ∨ pc = .shutdown h

theorem HoldsInit.locked {pc : Pc ι} (hholds : pc.HoldsInit) : pc.Locked := by
  cases pc <;> first | exact hholds.elim | trivial

theorem Leaves.own {pc : Pc ι} {h : ι} (hleaves : pc.Leaves h) : pc.own = some h := by
  rcases hleaves with rfl | rfl <;> rfl

end Pc

namespace Process

/-! ## The slots of an orderly process -/

theorem Orderly.slot_live {s : Process τ ι} (ho : s.Orderly) {k : Slot} {h : ι}
    (hslot : s.slot k = some h) : s.instance? h ≠ none := by
  cases hactive : s.active with
  | none =>
      rcases ho.owned.vacant hactive with hall | ⟨t, h', todo, hpc⟩
      · rw [hall k] at hslot
        cases hslot
      · obtain ⟨_, hlive, _, hslots⟩ := ho.owned.place t _ hpc
        rw [hslots k] at hslot
        by_cases hk : k ∈ todo
        · rw [if_pos hk] at hslot
          cases hslot
        · rw [if_neg hk] at hslot
          cases hslot
          exact hlive
  | some h' =>
      obtain ⟨hlive, hslots⟩ := ho.owned.occupied h' hactive
      rcases hslots with hall | ⟨t, pc, hpc, hd, hh⟩
      · rw [hall k] at hslot
        cases hslot
        exact hlive
      · have hl := ho.owned.place t pc hpc
        cases pc with
        | clearRunning h₁ | join h₁ =>
            obtain ⟨_, hlive₁, hall⟩ := hl
            rw [hall k] at hslot
            cases hslot
            exact hlive₁
        | uninstall h₁ todo =>
            obtain ⟨_, hlive₁, _, hall⟩ := hl
            rw [hall k] at hslot
            by_cases hk : k ∈ todo
            · rw [if_pos hk] at hslot
              cases hslot
              exact hlive₁
            · rw [if_neg hk] at hslot
              cases hslot
        | resetActive h₁ =>
            obtain ⟨_, _, hall⟩ := hl
            rw [hall k] at hslot
            cases hslot
        | _ => exact hd.elim

variable [DecidableEq τ] [DecidableEq ι] {s s' : Process τ ι} {a : LifecycleAction τ ι}
  {o : LifecycleEvent τ ι} {h : ι}

theorem Orderly.active_keep (ho : s.Orderly) (hcase : s.StepCase a s' o)
    (hactive : s.active = some h) (hreset : ∀ t, o ≠ .reset t h) : s'.active = some h := by
  cases hcase with
  | creates t c hcase =>
      cases hcase with
      | publish h' hpc =>
          obtain ⟨hnone, _⟩ := ho.owned.place t _ hpc
          rw [hnone] at hactive
          cases hactive
      | _ => exact hactive
  | starts t c h' i hi hcase => cases hcase <;> exact hactive
  | destroys t c h' i hi hcase =>
      cases hcase with
      | reset hpc =>
          have hne : ¬ some h = some h' := fun heq => hreset t (Option.some.inj heq ▸ rfl)
          show (if s.active = some h' then none else s.active) = some h
          rw [hactive, if_neg hne]
      | _ => exact hactive
  | _ => exact hactive

/-- An instance becomes active with all four slots its own, and keeps a slot until its own
`destroy` clears it. -/
theorem Orderly.slot_keep (ho : s.Orderly) (hcase : s.StepCase a s' o)
    (hactive : s'.active = some h) (k : Slot) :
    s'.slot k = some h ∨ s.active = some h ∧ (s'.slot k = s.slot k ∨ ∃ t, o = .cleared t h k) := by
  cases hcase with
  | creates t c hcase =>
      cases hcase with
      | publish h' hpc =>
          obtain ⟨_, _, _, hslots⟩ := ho.owned.place t _ hpc
          cases hactive
          exact .inl ((hslots k).trans (if_neg List.not_mem_nil))
      | install h' k' todo hpc =>
          obtain ⟨hnone, _⟩ := ho.owned.place t _ hpc
          exact absurd (hnone.symm.trans hactive) nofun
      | _ => exact .inr ⟨hactive, .inl rfl⟩
  | starts t c h' i hi hcase => cases hcase <;> exact .inr ⟨hactive, .inl rfl⟩
  | destroys t c h' i hi hcase =>
      cases hcase with
      | reset hpc =>
          obtain ⟨hactive', _⟩ := ho.owned.place t _ hpc
          simp [goto, hactive'] at hactive
      | uninstall k' todo hpc =>
          obtain ⟨hactive', _⟩ := ho.owned.place t _ hpc
          have hh : h' = h := Option.some.inj (hactive'.symm.trans hactive)
          refine .inr ⟨hactive, ?_⟩
          by_cases hk : k = k'
          · exact .inr ⟨t, by rw [hk, hh]⟩
          · exact .inl (by simp [goto, setSlot, hk])
      | _ => exact .inr ⟨hactive, .inl rfl⟩
  | _ => exact .inr ⟨hactive, .inl rfl⟩

/-! ## What the history records -/

/-- What the history says about the active instance and its slots. -/
structure Recorded (os : List (LifecycleEvent τ ι)) (s : Process τ ι) : Prop where
  live : ∀ h, LiveFor os h → s.active = some h
  captured : ∀ h, s.active = some h → ∀ k, s.slot k = some h ∨ ∃ t, .cleared t h k ∈ os
  returning : ∀ t h, s.pc t = some (.createUnlock (some h)) → .published t h ∈ os
  published : ∀ t h, .createReturned t (some h) ∈ os → .published t h ∈ os

omit [DecidableEq τ] [DecidableEq ι] in
theorem recorded_initial : Recorded [] (initial : Process τ ι) where
  live := fun h hlive => by simp [LiveFor] at hlive
  captured := nofun
  returning := nofun
  published := by simp

theorem returning_step (hcase : s.StepCase a s' o) {t : τ}
    (hpc : s'.pc t = some (.createUnlock (some h))) :
    o = .published t h ∨ s.pc t = some (.createUnlock (some h)) := by
  have hother : ∀ {s₁ : Process τ ι} {t₁ : τ} {pc : Option (Pc ι)}, s₁.pc = s.pc →
      (s₁.goto t₁ pc).pc t = some (.createUnlock (some h)) → pc ≠ some (.createUnlock (some h)) →
      s.pc t = some (.createUnlock (some h)) := by
    intro s₁ t₁ pc heq hgoto hne
    rcases goto_cases hgoto with ⟨-, hold⟩ | ⟨-, hnew⟩
    · rwa [heq] at hold
    · exact absurd hnew hne
  cases hcase with
  | createRefused | startRefused | destroyRefused | works => exact .inr hpc
  | createBegins | startBegins | destroyBegins => exact .inr (hother rfl hpc nofun)
  | creates t₁ c hcase =>
      cases hcase with
      | publish h' =>
          rcases goto_cases hpc with ⟨-, hold⟩ | ⟨rfl, hnew⟩
          · exact .inr hold
          · cases hnew
            exact .inl rfl
      | _ => exact .inr (hother rfl hpc nofun)
  | starts t₁ c h' i hi hcase => cases hcase <;> exact .inr (hother rfl hpc nofun)
  | destroys t₁ c h' i hi hcase => cases hcase <;> exact .inr (hother rfl hpc nofun)

theorem createReturned_step {t : τ} (hcase : s.StepCase a s' (.createReturned t (some h))) :
    s.pc t = some (.createUnlock (some h)) := by
  cases hcase with
  | creates t₁ c hcase =>
      cases hcase with
      | unlock ret hpc => exact hpc
  | starts t₁ c h' i hi hcase => cases hcase
  | destroys t₁ c h' i hi hcase => cases hcase

theorem Recorded.step {os : List (LifecycleEvent τ ι)} (hr : Recorded os s) (ho : s.Orderly)
    (hcase : s.StepCase a s' o) : Recorded (os ++ [o]) s' where
  live := by
    rintro h ⟨⟨t, hmem⟩, hreset⟩
    have hreset' : ∀ t, o ≠ .reset t h := fun t heq => hreset t (by simp [heq])
    refine ho.active_keep hcase ?_ hreset'
    rcases List.mem_append.mp hmem with hmem | hmem
    · exact hr.live h ⟨⟨t, hmem⟩, fun t' hmem' => hreset t' (List.mem_append_left _ hmem')⟩
    · rw [← List.mem_singleton.mp hmem] at hcase
      exact (ho.owned.place t _ (createReturned_step hcase)).1
  captured := by
    intro h hactive k
    rcases ho.slot_keep hcase hactive k with hslot | ⟨hbefore, hslot | ⟨t, rfl⟩⟩
    · exact .inl hslot
    · rcases hr.captured h hbefore k with hcaptured | ⟨t, hmem⟩
      · exact .inl (hslot.trans hcaptured)
      · exact .inr ⟨t, List.mem_append_left _ hmem⟩
    · exact .inr ⟨t, by simp⟩
  returning := by
    intro t h hpc
    rcases returning_step hcase hpc with rfl | hbefore
    · simp
    · exact List.mem_append_left _ (hr.returning t h hbefore)
  published := by
    intro t h hmem
    refine List.mem_append_left _ ?_
    rcases List.mem_append.mp hmem with hmem | hmem
    · exact hr.published t h hmem
    · rw [← List.mem_singleton.mp hmem] at hcase
      exact hr.returning t h (createReturned_step hcase)

/-! ## `global_init` and `global_shutdown` -/

/-- Every published instance that is not shut down, and every one about to be published, is covered
by a `global_init`. -/
structure Counted (os : List (LifecycleEvent τ ι)) (s : Process τ ι) : Prop where
  covered : (unshut os).length + s.netShutdowns ≤ s.netInits
  reserved : ∀ t pc, s.pc t = some pc → pc.HoldsInit →
    (unshut os).length + s.netShutdowns + 1 ≤ s.netInits
  active : ∀ h, s.active = some h → h ∈ unshut os
  leaving : ∀ t pc h, s.pc t = some pc → pc.Leaves h → h ∈ unshut os

omit [DecidableEq τ] in
theorem counted_initial : Counted [] (initial : Process τ ι) where
  covered := Nat.le_refl 0
  reserved := nofun
  active := nofun
  leaving := nofun

section Step

variable {os : List (LifecycleEvent τ ι)} {t : τ}

omit [DecidableEq τ] in
theorem unshut_snoc (o : LifecycleEvent τ ι) : unshut (os ++ [o]) =
    match o with
    | .published _ h => h :: unshut os
    | .globalShutdown _ h => (unshut os).erase h
    | _ => unshut os := by
  unfold unshut
  rw [List.foldl_append]
  rfl

theorem Counted.keep (hc : Counted os s) {new : Option (Pc ι)}
    (hseen : unshut (os ++ [o]) = unshut os) (hpc : s'.pc = Function.update s.pc t new)
    (hinits : s'.netInits = s.netInits) (hshutdowns : s'.netShutdowns = s.netShutdowns)
    (hactive : ∀ h, s'.active = some h → s.active = some h)
    (hholds : ∀ pc, new = some pc → pc.HoldsInit → ∃ old, s.pc t = some old ∧ old.HoldsInit)
    (hleaves : ∀ pc, new = some pc → ∀ h, pc.Leaves h → h ∈ unshut os) :
    Counted (os ++ [o]) s' := by
  have hcases : ∀ t' pc, s'.pc t' = some pc → s.pc t' = some pc ∨ new = some pc := by
    intro t' pc hpc'
    rw [hpc] at hpc'
    by_cases ht : t' = t
    · rw [ht, Function.update_self] at hpc'
      exact .inr hpc'
    · rw [Function.update_of_ne ht] at hpc'
      exact .inl hpc'
  refine ⟨?_, ?_, ?_, ?_⟩
  · rw [hseen, hinits, hshutdowns]
    exact hc.covered
  · intro t' pc hpc' hh
    rw [hseen, hinits, hshutdowns]
    rcases hcases t' pc hpc' with hold | hnew
    · exact hc.reserved t' pc hold hh
    · obtain ⟨old, hold, hh'⟩ := hholds pc hnew hh
      exact hc.reserved t old hold hh'
  · intro h hactive'
    rw [hseen]
    exact hc.active h (hactive h hactive')
  · intro t' pc h hpc' hl
    rw [hseen]
    rcases hcases t' pc hpc' with hold | hnew
    · exact hc.leaving t' pc h hold hl
    · exact hleaves pc hnew h hl

theorem Counted.move (hc : Counted os s) {new : Option (Pc ι)}
    (hseen : unshut (os ++ [o]) = unshut os) (hpc : s'.pc = Function.update s.pc t new)
    (hinits : s'.netInits = s.netInits) (hshutdowns : s'.netShutdowns = s.netShutdowns)
    (hactive : s'.active = s.active) (hholds : ∀ pc, new = some pc → ¬ pc.HoldsInit)
    (hleaves : ∀ pc, new = some pc → ∀ h, ¬ pc.Leaves h) : Counted (os ++ [o]) s' :=
  hc.keep hseen hpc hinits hshutdowns (fun _ h => hactive ▸ h)
    (fun pc hnew hh => absurd hh (hholds pc hnew)) fun pc hnew h hl => absurd hl (hleaves pc hnew h)

theorem Counted.create (hc : Counted os s) (ho : s.Orderly) (hcase : s.CreateCase t s' o) :
    Counted (os ++ [o]) s' := by
  cases hcase with
  | lock hpc | occupied hpc | vacant hpc | rootFails hpc | root hpc | newFails hpc
  | unlock ret hpc | throw hpc =>
      exact hc.move (unshut_snoc _) rfl rfl rfl rfl (by simp [Pc.HoldsInit])
        (by simp [Pc.Leaves])
  | init hpc =>
      have hseen : unshut (os ++ [.globalInit t]) = unshut os :=
        unshut_snoc _
      have hcovered := hc.covered
      refine ⟨?_, ?_, ?_, ?_⟩
      · rw [hseen]
        show _ ≤ s.netInits + 1
        exact Nat.le_succ_of_le hcovered
      · intro t' pc _ _
        rw [hseen]
        exact Nat.succ_le_succ hcovered
      · rw [hseen]
        exact hc.active
      · intro t' pc h hpc' hl
        rw [hseen]
        rcases goto_cases hpc' with ⟨_, hold⟩ | ⟨_, hnew⟩
        · exact hc.leaving t' pc h hold hl
        · cases hnew
          simp [Pc.Leaves] at hl
  | new h hpc | install h k todo hpc =>
      exact hc.keep (unshut_snoc _) rfl rfl rfl (fun _ hactive => hactive)
        (fun pc _ _ => ⟨_, hpc, trivial⟩) (by simp [Pc.Leaves])
  | publish h hpc =>
      have hseen : unshut (os ++ [.published t h]) = h :: unshut os :=
        unshut_snoc _
      have hreserved := hc.reserved t _ hpc trivial
      refine ⟨?_, ?_, ?_, ?_⟩
      · rw [hseen, List.length_cons]
        show _ + s.netShutdowns ≤ s.netInits
        omega
      · intro t' pc hpc' hh
        rcases goto_cases hpc' with ⟨ht, hold⟩ | ⟨_, hnew⟩
        · exact absurd hh.locked (ho.guarded.sole hpc trivial ht hold)
        · cases hnew
          exact hh.elim
      · intro h' hactive
        cases hactive
        rw [hseen]
        exact List.mem_cons_self
      · intro t' pc h' hpc' hl
        rw [hseen]
        rcases goto_cases hpc' with ⟨_, hold⟩ | ⟨_, hnew⟩
        · exact List.mem_cons_of_mem h (hc.leaving t' pc h' hold hl)
        · cases hnew
          simp [Pc.Leaves] at hl

theorem Counted.destroy (hc : Counted os s) (ho : s.Orderly) {i : Instance}
    (hcase : s.DestroyCase t h i s' o) : Counted (os ++ [o]) s' := by
  cases hcase with
  | clearRunning hpc | join hpc | uninstall k todo hpc | lock hpc | delete hpc =>
      exact hc.move (unshut_snoc _) rfl rfl rfl rfl (by simp [Pc.HoldsInit])
        (by simp [Pc.Leaves])
  | reset hpc =>
      obtain ⟨hactive, _⟩ := ho.owned.place t _ hpc
      refine hc.keep (unshut_snoc _) rfl rfl rfl ?_ (by simp [Pc.HoldsInit]) ?_
      · intro h' hactive'
        simp [goto, hactive] at hactive'
      · intro pc hnew h' hl
        cases hnew
        simp only [Pc.Leaves, Pc.destroyUnlock.injEq, reduceCtorEq, or_false] at hl
        exact hl ▸ hc.active h hactive
  | unlock hpc =>
      refine hc.keep (unshut_snoc _) rfl rfl rfl (fun _ hactive => hactive)
        (by simp [Pc.HoldsInit]) ?_
      intro pc hnew h' hl
      cases hnew
      simp only [Pc.Leaves, reduceCtorEq, Pc.shutdown.injEq, false_or] at hl
      exact hl ▸ hc.leaving t _ h hpc (.inl rfl)
  | shutdown hpc =>
      have hseen : unshut (os ++ [.globalShutdown t h]) = (unshut os).erase h :=
        unshut_snoc _
      have hmem := hc.leaving t _ h hpc (.inr rfl)
      have hlength : ((unshut os).erase h).length + 1 = (unshut os).length :=
        List.length_erase_add_one hmem
      have hcovered := hc.covered
      refine ⟨?_, ?_, ?_, ?_⟩
      · rw [hseen]
        show _ + (s.netShutdowns + 1) ≤ s.netInits
        omega
      · intro t' pc hpc' hh
        rw [hseen]
        show _ + (s.netShutdowns + 1) + 1 ≤ s.netInits
        rcases goto_cases hpc' with ⟨_, hold⟩ | ⟨_, hnew⟩
        · have hreserved := hc.reserved t' pc hold hh
          omega
        · cases hnew
          exact hh.elim
      · intro h' hactive
        rw [hseen]
        have hne : h' ≠ h := fun heq => (ho.owned.place t _ hpc).1 (heq ▸ hactive)
        exact (List.mem_erase_of_ne hne).mpr (hc.active h' hactive)
      · intro t' pc h' hpc' hl
        rw [hseen]
        rcases goto_cases hpc' with ⟨ht, hold⟩ | ⟨_, hnew⟩
        · have hne : h' ≠ h := fun heq =>
            (ho.owned.compatible_both hpc ht hold).1.own h rfl (heq ▸ hl.own)
          exact (List.mem_erase_of_ne hne).mpr (hc.leaving t' pc h' hold hl)
        · cases hnew
          simp [Pc.Leaves] at hl

theorem Counted.step (hc : Counted os s) (ho : s.Orderly) (hcase : s.StepCase a s' o) :
    Counted (os ++ [o]) s' := by
  cases hcase with
  | createRefused t | startRefused t | destroyRefused t =>
      exact hc.keep (unshut_snoc _) (Function.update_eq_self t s.pc).symm rfl rfl
        (fun _ hactive => hactive) (fun pc hpc hh => ⟨pc, hpc, hh⟩)
        fun pc hpc h hl => hc.leaving t pc h hpc hl
  | createBegins | startBegins | destroyBegins =>
      exact hc.move (unshut_snoc _) rfl rfl rfl rfl (by simp [Pc.HoldsInit])
        (by simp [Pc.Leaves])
  | creates t c hcase => exact hc.create ho hcase
  | starts t c h i hi hcase =>
      cases hcase <;>
        exact hc.move (unshut_snoc _) rfl rfl rfl rfl (by simp [Pc.HoldsInit])
          (by simp [Pc.Leaves])
  | destroys t c h i hi hcase => exact hc.destroy ho hcase
  | works h c i i' e =>
      have hseen : unshut (os ++ [.worker h e]) = unshut os :=
        unshut_snoc _
      exact ⟨hseen ▸ hc.covered, hseen ▸ hc.reserved, hseen ▸ hc.active, hseen ▸ hc.leaving⟩

end Step

/-! ## Every interleaving -/

structure Tracked (os : List (LifecycleEvent τ ι)) (s : Process τ ι) : Prop where
  orderly : s.Orderly
  recorded : Recorded os s
  counted : Counted os s

theorem tracked_along {as : List (LifecycleAction τ ι)} {os : List (LifecycleEvent τ ι)}
    (hcontract : (lifecycle τ ι).Along Process.Contract Process.initial as)
    (hrun : (lifecycle τ ι).run Process.initial as = some (s, os)) : Tracked os s := by
  refine Machine.history_along (I := Tracked) ?_
    ⟨⟨guarded_initial, owned_initial⟩, recorded_initial, counted_initial⟩ hcontract hrun
  intro os s a s' o ht hallowed hstep
  have hcase := step_cases hstep
  exact ⟨ht.orderly.step hallowed hcase, ht.recorded.step ht.orderly hcase,
    ht.counted.step ht.orderly hcase⟩

theorem Orderly.active_of_publish (ho : s.Orderly) {t : τ}
    (hcase : s.StepCase a s' (.published t h)) : s.active = none := by
  cases hcase with
  | creates t₁ c hcase =>
      cases hcase with
      | publish h' hpc => exact (ho.owned.place t _ hpc).1
  | starts t₁ c h' i hi hcase => cases hcase
  | destroys t₁ c h' i hi hcase => cases hcase

end Process

/-- What holds after every history: one instance at most is live for callers; from the check of
`g_active_instance` to the publication there is no active instance, and what `create` returns was
published; the active instance owns every slot that its own `destroy` has not cleared; slots capture
existing instances only; `global_init` was called once more than `global_shutdown` for every live
instance. -/
structure SingletonSafe [DecidableEq τ] [DecidableEq ι] (os : List (LifecycleEvent τ ι))
    (s : Process τ ι) : Prop where
  unique : ∀ h h', LiveFor os h → LiveFor os h' → h = h'
  vacant : ∀ t pc, s.pc t = some pc → pc.NeedsVacant → s.active = none
  publishes : ∀ a s' t h, s.step a = some (s', .published t h) → s.active = none
  returns : ∀ t h, .createReturned t (some h) ∈ os → .published t h ∈ os
  captured : ∀ h, s.active = some h → ∀ k, s.slot k = some h ∨ ∃ t, .cleared t h k ∈ os
  dangling : ∀ k h, s.slot k = some h → s.instance? h ≠ none
  initialised : ∀ hs : List ι, hs.Nodup → (∀ h ∈ hs, LiveFor os h) →
    hs.length + s.netShutdowns ≤ s.netInits

theorem singleton_safe [DecidableEq τ] [DecidableEq ι] {s : Process τ ι}
    {as : List (LifecycleAction τ ι)} {os : List (LifecycleEvent τ ι)}
    (hcontract : (lifecycle τ ι).Along Process.Contract Process.initial as)
    (hrun : (lifecycle τ ι).run Process.initial as = some (s, os)) : SingletonSafe os s := by
  obtain ⟨ho, hr, hc⟩ := Process.tracked_along hcontract hrun
  refine ⟨?_, ?_, ?_, hr.published, hr.captured, fun k h => ho.slot_live, ?_⟩
  · intro h h' hlive hlive'
    have hactive := hr.live h hlive
    rw [hr.live h' hlive'] at hactive
    exact (Option.some.inj hactive).symm
  · intro t pc hpc hneeds
    exact (ho.owned.place t pc hpc).vacant hneeds
  · intro a s' t h hstep
    exact ho.active_of_publish (Process.step_cases hstep)
  · intro hs hnodup hlive
    have hsub : hs ⊆ unshut os := fun h hmem => hc.active h (hr.live h (hlive h hmem))
    have hlength : hs.length ≤ (unshut os).length := (hnodup.subperm hsub).length_le
    have hcovered := hc.covered
    omega

/-- A second thread destroys the first instance; between its `unlock` and its `delete` the first
thread creates another. -/
def handover : List (LifecycleAction Bool Nat) :=
  List.flatten [[.create false (some ⟨some [46]⟩)], List.replicate 4 (.advance false .ok),
    [.advance false (.allocated 1)], List.replicate 6 (.advance false .ok),
    [.destroy true (some 1)], List.replicate 9 (.advance true .ok),
    [.create false (some ⟨some [46]⟩)], List.replicate 4 (.advance false .ok),
    [.advance false (.allocated 2)], List.replicate 6 (.advance false .ok),
    List.replicate 2 (.advance true .ok)]

theorem singleton_safe_handover : ∃ s os,
    (lifecycle Bool Nat).run Process.initial handover = some (s, os) ∧ s.active = some 2 ∧
      SingletonSafe os s := by
  have hactive : ((lifecycle Bool Nat).run Process.initial handover).map (fun r => r.1.active) =
      some (some 2) := by decide +kernel
  obtain ⟨⟨s, os⟩, hrun, hs⟩ := Option.map_eq_some_iff.mp hactive
  exact ⟨s, os, hrun, hs, singleton_safe (by decide +kernel) hrun⟩

end ZiModem.Wrapper
