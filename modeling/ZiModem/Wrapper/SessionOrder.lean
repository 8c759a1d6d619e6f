import ZiModem.Wrapper.Ownership
import ZiModem.Wrapper.Session
import ZiModem.Wrapper.Worker

/-! # Sessions in order

What every session keeps as long as its callers keep their promises: the slots
of the HAL are those that the calls of `create` and `destroy` have set, a worker
is inside HAL calls and closures only between its start and its return, and all
of this code is of its own instance.
-/

namespace ZiModem.Wrapper

open Reactive ZiModem.Hal

/-! ## Instances and slots over one step -/

namespace Process

variable {τ ι : Type*} [DecidableEq τ] [DecidableEq ι] {s s' : Process τ ι}
  {a : LifecycleAction τ ι} {o : LifecycleEvent τ ι} {h : ι}

theorem delete_of_step (hcase : s.StepCase a s' o) (hdeleted : s'.cell h = .deleted) :
    s.cell h = .deleted ∨ ∃ t c, a = .advance t c ∧ s.pc t = some (.delete h) := by
  have hstep := cell_cases hcase h
  rw [hdeleted] at hstep
  generalize hafter : Cell.deleted = c at hstep
  cases hstep with
  | same => exact .inl rfl
  | delete t c i ha hpc _ => exact .inr ⟨t, c, ha, hpc⟩
  | _ => cases hafter

theorem deleted_of_delete {t : τ} {c : Choice ι} (hcase : s.StepCase (.advance t c) s' o)
    (hpc : s.pc t = some (.delete h)) : s'.cell h = .deleted := by
  cases hcase with
  | creates _ _ hcase => cases hcase <;> simp_all
  | starts _ _ h₁ i hi hcase => cases hcase <;> simp_all
  | destroys _ _ h₁ i hi hcase =>
      cases hcase with
      | delete hpc₁ =>
          cases hpc.symm.trans hpc₁
          exact setCell_cell_self _
      | _ => simp_all

omit [DecidableEq τ] [DecidableEq ι] in
theorem instance_eq_none_iff : s.instance? h = none ↔ s.cell h = .unborn ∨ s.cell h = .deleted := by
  unfold instance?
  cases s.cell h <;> simp

theorem Sound.workerAt_step (hs : s.Sound) (hcase : s.StepCase a s' o) {pc : WorkerPc}
    (hpc : s.workerAt h = some pc) (hne : pc ≠ .exited) (ha : ∀ c, a ≠ .work h c) :
    s'.workerAt h = some pc := by
  obtain ⟨i, hi, hworker⟩ := Option.bind_eq_some_iff.mp hpc
  have hborn : s.cell h ≠ .unborn := by
    intro hfresh
    rw [instance_of_unborn hfresh] at hi
    cases hi
  have hlive : s'.instance? h ≠ none := by
    rw [Ne, instance_eq_none_iff, not_or]
    refine ⟨cell_ne_unborn_of_step hcase hborn, fun hdeleted => ?_⟩
    rcases delete_of_step hcase hdeleted with hbefore | ⟨t, c, -, hdelete⟩
    · rw [instance_eq_none_iff.mpr (.inr hbefore)] at hi
      cases hi
    · rcases (hs.staged.stage t _ hdelete i hi).2 with hnone | hexited
      · rw [hworker] at hnone
        cases hnone
      · rw [hworker] at hexited
        exact hne (Option.some.inj hexited)
  obtain ⟨i', hi'⟩ := Option.ne_none_iff_exists'.mp hlive
  suffices i'.worker = some pc by simp [workerAt, hi', this]
  rcases evolves_of_step hcase hi' with ⟨hfresh, -⟩ | ⟨j, hj, hev⟩
  · exact absurd hfresh hborn
  · cases hi.symm.trans hj
    cases hev with
    | setRunning t hstart | spawn t hstart =>
        rw [(hs.staged.stage t _ hstart i hi).2] at hworker
        cases hworker
    | work i' e hwork =>
        obtain ⟨c, rfl⟩ : ∃ c, a = .work h c := by
          cases hcase with
          | creates t c hcase => cases hcase
          | starts t c h₁ j hj hcase => cases hcase
          | destroys t c h₁ j hj hcase => cases hcase
          | works h₁ c j j' e hj hw => exact ⟨c, rfl⟩
        exact absurd rfl (ha c)
    | _ => exact hworker

omit [DecidableEq τ] [DecidableEq ι] in
/-- While its worker has not returned, the slots capture no other instance. -/
theorem Sound.slot_of_worker (hs : s.Sound) {pc : WorkerPc} (hpc : s.workerAt h = some pc)
    (hne : pc ≠ .exited) {k : Slot} {h' : ι} (hslot : s.slot k = some h') : h' = h := by
  obtain ⟨i, hi, hworker⟩ := Option.bind_eq_some_iff.mp hpc
  have hlive : s.instance? h ≠ none := by simp [hi]
  have hmem : ∀ (todo : List Slot) (x y : Option ι), (x = none ∨ x = some h) →
      (y = none ∨ y = some h) → s.slot k = (if k ∈ todo then x else y) → h' = h := by
    intro todo x y hx hy hall
    rw [hslot] at hall
    split at hall
    · rcases hx with rfl | rfl <;> cases hall
      rfl
    · rcases hy with rfl | rfl <;> cases hall
      rfl
  rcases hs.orderly.owned.reachable h hlive with hactive | ⟨t, pc₁, hpc₁, hown⟩
  · rcases (hs.orderly.owned.occupied h hactive).2 with hall | ⟨t, pc₁, hpc₁, hd, hh⟩
    · rw [hall k] at hslot
      exact (Option.some.inj hslot).symm
    · have hlocal := hs.orderly.owned.place t pc₁ hpc₁
      cases pc₁ with
      | clearRunning h₁ | join h₁ =>
          cases hh
          rw [hlocal.2.2 k] at hslot
          exact (Option.some.inj hslot).symm
      | uninstall h₁ todo =>
          cases hh
          exact hmem todo _ _ (.inr rfl) (.inl rfl) (hlocal.2.2.2 k)
      | resetActive h₁ =>
          rw [hlocal.2.2 k] at hslot
          cases hslot
      | _ => exact hd.elim
  · have hlocal := hs.orderly.owned.place t pc₁ hpc₁
    cases pc₁ with
    | install h₁ todo =>
        cases hown
        exact hmem todo _ _ (.inl rfl) (.inr rfl) (hlocal.2.2.2 k)
    | destroyUnlock h₁ | shutdown h₁ | delete h₁ =>
        cases hown
        rcases (hs.staged.stage t _ hpc₁ i hi).2 with hnone | hexited
        · rw [hworker] at hnone
          cases hnone
        · rw [hworker] at hexited
          exact absurd (Option.some.inj hexited) hne
    | _ => cases hown

end Process

/-! ## Whose code is on which stack -/

section Frames

variable {τ ι φ ν : Type*}

def Task.owner : Task ι φ ν → Option ι
  | hal _ => none
  | own h _ => some h

/-- The frame runs code of instance `h`, holds its mutex, or will go on with its code. -/
def Touches (h : ι) : Frame (Lock ι) (Task ι φ ν) → Prop
  | .enter b | .inside b => b.owner = some h
  | .exit m after => m = some (.callback h) ∨ after.bind Task.owner = some h

theorem owner_of {h h' : ι} {b : Block φ (Option ν)}
    (hb : (Task.of h b : Task ι φ ν).owner = some h') : h = h' := by
  cases b <;> cases hb <;> rfl

theorem Shared.slot_of_raised {s : Shared ι φ ν} {c : HalCall} {h : ι} {l : Lambda}
    (hraised : (s.hal c).2 = some (h, l)) : ∃ k, s.slot k = some h := by
  cases c with
  | write data =>
      have hmap : ((s.serial.write data).2.map fun h => (h, Lambda.dataReady)) = some (h, l) :=
        hraised
      obtain ⟨cb, hcb, heq⟩ := Option.map_eq_some_iff.mp hmap
      cases heq
      exact ⟨.dataReady, Serial.write_raised hcb⟩
  | setLineConfig baud config =>
      have hmap : ((s.serial.setLineConfig baud config).2.map fun call =>
          (call.1, Lambda.lineConfig call.2.1 call.2.2)) = some (h, l) := hraised
      obtain ⟨call, hcb, heq⟩ := Option.map_eq_some_iff.mp hmap
      cases heq
      exact ⟨.lineConfig, Serial.setLineConfig_raised hcb⟩
  | setLineBaud baud =>
      have hmap : ((s.serial.setLineBaud baud).2.map fun call =>
          (call.1, Lambda.lineConfig call.2.1 call.2.2)) = some (h, l) := hraised
      obtain ⟨call, hcb, heq⟩ := Option.map_eq_some_iff.mp hmap
      cases heq
      exact ⟨.lineConfig, Serial.setLineBaud_raised hcb⟩
  | digitalWrite pin value =>
      have hmap : ((s.pins.digitalWrite pin value).2.map fun call =>
          (call.1, Lambda.signal call.2.1 call.2.2)) = some (h, l) := hraised
      obtain ⟨call, hcb, heq⟩ := Option.map_eq_some_iff.mp hmap
      cases heq
      exact ⟨.signal, (Pins.digitalWrite_raised hcb).2.1⟩
  | logWrite message =>
      obtain ⟨cb, hslot, heq⟩ := Option.map_eq_some_iff.mp hraised
      cases heq
      exact ⟨.sink, hslot⟩
  | _ => cases hraised

theorem Shared.hal_slot (s : Shared ι φ ν) (c : HalCall) : (s.hal c).1.slot = s.slot := by
  funext k
  cases c with
  | setLineConfig baud config =>
      cases k <;> simp only [Shared.hal, Shared.slot, Serial.setLineConfig] <;> split <;> rfl
  | setLineBaud baud =>
      cases k <;> simp only [Shared.hal, Shared.slot, Serial.setLineBaud] <;> split <;> rfl
  | _ => cases k <;> rfl

@[simp] theorem Shared.withSlots_slot (s : Shared ι φ ν) (slot : Slot → Option ι) :
    (s.withSlots slot).slot = slot := by
  funext k
  cases k <;> rfl

variable [DecidableEq ι]

theorem tasks_shared [DecidableEq τ]
    {s s' : Config (Shared ι φ ν) (Lock ι) (Task ι φ ν) (Runner τ ι)}
    {a : ThreadAction (Runner τ ι) (Task ι φ ν) (Option UserCall)}
    {o : ThreadEvent (Runner τ ι) (ι × DispatchEvent φ (Option ν))}
    (hstep : (tasks ι φ ν).step s a = some (s', o)) : s'.shared.slot = s.shared.slot := by
  cases (tasks ι φ ν).step_cases hstep with
  | exec r c b rest e hstack hexec =>
      show e.shared.slot = s.shared.slot
      cases b with
      | hal call =>
          cases hexec
          exact s.shared.hal_slot call
      | own h b =>
          obtain ⟨e', -, rfl⟩ := Option.map_eq_some_iff.mp hexec
          rfl
  | lock r c b rest _ _ => simp
  | unlock r c m after rest _ => simp
  | _ => rfl

theorem touches_resume {s : Shared ι φ ν} {b : Task ι φ ν} {c : Option UserCall}
    {e : Effect (Shared ι φ ν) (Task ι φ ν) (ι × DispatchEvent φ (Option ν))}
    (hexec : b.exec s c = some e) {f : Frame (Lock ι) (Task ι φ ν)}
    (hf : f ∈ (tasks ι φ ν).resume b e.cont) {h : ι} (htouches : Touches h f) :
    b.owner = some h ∨ ∃ call l, b = .hal call ∧ (s.hal call).2 = some (h, l) := by
  cases b with
  | hal call =>
      cases hexec
      rw [List.mem_singleton.mp hf] at htouches
      rcases htouches with hlock | hafter
      · cases hlock
      · obtain ⟨b, hb, howner⟩ := Option.bind_eq_some_iff.mp hafter
        obtain ⟨⟨h', l⟩, hraised, rfl⟩ := Option.map_eq_some_iff.mp hb
        cases howner
        exact .inr ⟨call, l, rfl, hraised⟩
  | own h' b =>
      obtain ⟨e', -, rfl⟩ := Option.map_eq_some_iff.mp hexec
      refine .inl (congrArg some ?_)
      cases hcont : e'.cont with
      | stay next call =>
          simp only [hcont, Cont.map, Program.resume] at hf
          rcases List.mem_append.mp hf with hcall | hnext
          · cases call with
            | none => cases hcall
            | some b₁ =>
                rw [List.mem_singleton.mp hcall] at htouches
                exact owner_of htouches
          · rw [List.mem_singleton.mp hnext] at htouches
            exact owner_of htouches
      | leave after =>
          simp only [hcont, Cont.map, Program.resume] at hf
          rw [List.mem_singleton.mp hf] at htouches
          rcases htouches with hlock | hafter
          · obtain ⟨m, -, hm⟩ := Option.map_eq_some_iff.mp hlock
            cases hm
            rfl
          · obtain ⟨b₁, hb₁, howner⟩ := Option.bind_eq_some_iff.mp hafter
            obtain ⟨b₂, -, rfl⟩ := Option.map_eq_some_iff.mp hb₁
            exact owner_of howner

end Frames

/-! ## Sessions in order -/

namespace Session

variable {τ ι φ ν : Type*} [DecidableEq τ] [DecidableEq ι]

/-- The worker of the instance is in the firmware or logs, and has not returned. -/
def Busy (p : Process τ ι) (h : ι) : Prop :=
  ∃ pc, p.workerAt h = some pc ∧ (pc = .inSetup ∨ pc = .inLoop ∨ pc = .finish)

/-- The process is in order, the HAL holds the slots it has set, and a worker is on the stack of
its own instance only, while it has not returned. -/
structure Sound (s : Session τ ι φ ν) : Prop where
  process : s.process.Sound
  slots : s.config.shared.slot = s.process.slot
  busy : ∀ h, s.config.stack (.worker h) ≠ [] → Busy s.process h
  frames : ∀ h f h', f ∈ s.config.stack (.worker h) → Touches h' f → h' = h

omit [DecidableEq τ] [DecidableEq ι] in
theorem sound_initial : (initial : Session τ ι φ ν).Sound where
  process := Process.sound_initial
  slots := by
    funext k
    cases k <;> rfl
  busy := fun h hstack => absurd rfl hstack
  frames := fun h f h' hf => by cases hf

variable {s s' : Session τ ι φ ν}

omit [DecidableEq τ] [DecidableEq ι] in
/-- A closure that a HAL call goes on with belongs to an instance that exists, and on the stack of
a worker to its own. -/
theorem Sound.raised (hs : s.Sound) {c : HalCall} {h : ι} {l : Lambda}
    (hraised : (s.config.shared.hal c).2 = some (h, l)) :
    s.process.instance? h ≠ none ∧ ∀ h', s.config.stack (.worker h') ≠ [] → h = h' := by
  obtain ⟨k, hslot⟩ := Shared.slot_of_raised hraised
  rw [hs.slots] at hslot
  refine ⟨hs.process.orderly.slot_live hslot, fun h' hstack => ?_⟩
  obtain ⟨pc, hpc, hbusy⟩ := hs.busy h' hstack
  apply hs.process.slot_of_worker hpc ?_ hslot
  rcases hbusy with rfl | rfl | rfl <;> nofun

theorem Busy.step {p p' : Process τ ι} {a : LifecycleAction τ ι} {e : LifecycleEvent τ ι} {h : ι}
    (hb : Busy p h) (hs : p.Sound) (hcase : p.StepCase a p' e) (ha : ∀ c, a ≠ .work h c) :
    Busy p' h := by
  obtain ⟨pc, hpc, hbusy⟩ := hb
  refine ⟨pc, hs.workerAt_step hcase hpc ?_ ha, hbusy⟩
  rcases hbusy with rfl | rfl | rfl <;> nofun

theorem busy_of_log {p p' : Process τ ι} {e : LifecycleEvent τ ι} {h : ι}
    (hcaught : p.workerAt h = some .caught) (hcase : p.StepCase (.work h .proceed) p' e) :
    Busy p' h := by
  obtain ⟨i, hi, hworker⟩ := Option.bind_eq_some_iff.mp hcaught
  cases hcase with
  | works h₁ c j j' e hj hwork =>
      cases hi.symm.trans hj
      obtain ⟨started, running, worker⟩ := i
      dsimp only at hworker
      subst hworker
      cases hwork
      exact ⟨.finish, by simp [Process.workerAt], .inr (.inr rfl)⟩

theorem Sound.life (hs : s.Sound) {a : LifecycleAction τ ι} {p : Process τ ι}
    {e : LifecycleEvent τ ι} (hready : s.Ready a) (hcontract : s.process.Contract a)
    (hcase : s.process.StepCase a p e) :
    Sound (⟨p, { s.config with shared := s.config.shared.withSlots p.slot }⟩ :
      Session τ ι φ ν) where
  process := hs.process.step hcontract hcase
  slots := Shared.withSlots_slot _ _
  busy := by
    intro h hstack
    apply (hs.busy h hstack).step hs.process hcase
    rintro c rfl
    exact hstack hready.1
  frames := hs.frames

theorem Sound.log (hs : s.Sound) {h : ι} {message : List UInt8} {p : Process τ ι}
    {e : LifecycleEvent τ ι} (hcaught : s.process.workerAt h = some .caught)
    (hcase : s.process.StepCase (.work h .proceed) p e) :
    Sound (⟨p, s.config.setStack (.worker h) [.enter (.own h (.lambda (.log message)))]⟩ :
      Session τ ι φ ν) where
  process := hs.process.step (a := .work h .proceed) trivial hcase
  slots := by
    have hslot : p.slot = s.process.slot := by
      cases hcase
      rfl
    rw [hslot]
    exact hs.slots
  busy := by
    intro h' hstack
    by_cases hh : h' = h
    · subst hh
      exact busy_of_log hcaught hcase
    · rw [Config.setStack_other _ _ (by simpa using hh)] at hstack
      apply (hs.busy h' hstack).step hs.process hcase
      rintro c heq
      cases heq
      exact hh rfl
  frames := by
    intro h' f h'' hf htouches
    rcases Config.mem_setStack hf with ⟨hh, hmem⟩ | ⟨_, hmem⟩
    · obtain rfl : f = .enter (.own h (.lambda (.log message))) := List.mem_singleton.mp hmem
      rw [Runner.worker.inj hh]
      exact (Option.some.inj htouches).symm
    · exact hs.frames h' f h'' hmem htouches

theorem touches_step {c : Config (Shared ι φ ν) (Lock ι) (Task ι φ ν) (Runner τ ι)}
    {a : ThreadAction (Runner τ ι) (Task ι φ ν) (Option UserCall)}
    {e : ThreadEvent (Runner τ ι) (ι × DispatchEvent φ (Option ν))} {r : Runner τ ι}
    {f : Frame (Lock ι) (Task ι φ ν)} {h : ι}
    (hstep : (tasks ι φ ν).step s.config a = some (c, e)) (hf : f ∈ c.stack r)
    (htouches : Touches h f) :
    (∃ g ∈ s.config.stack r, Touches h g) ∨ (∃ b, a = .call r b ∧ b.owner = some h) ∨
      ∃ call l, s.config.stack r ≠ [] ∧ (s.config.shared.hal call).2 = some (h, l) := by
  have hblock : Program.OfBlock (Touches h : Frame (Lock ι) (Task ι φ ν) → Prop) :=
    ⟨fun _ => id, fun _ _ => .inr⟩
  rcases hblock.step hstep hf htouches with hbefore | hcall | ⟨c, b, rest, e, hstack, hexec, hmem⟩
  · exact .inl hbefore
  · exact .inr (.inl hcall)
  · rcases touches_resume hexec hmem htouches with howner | ⟨call, l, rfl, hraised⟩
    · exact .inl ⟨.inside b, hstack ▸ List.mem_cons_self, howner⟩
    · exact .inr (.inr ⟨call, l, by simp [hstack], hraised⟩)

theorem stack_step {c : Config (Shared ι φ ν) (Lock ι) (Task ι φ ν) (Runner τ ι)}
    {a : ThreadAction (Runner τ ι) (Task ι φ ν) (Option UserCall)}
    {e : ThreadEvent (Runner τ ι) (ι × DispatchEvent φ (Option ν))} {r : Runner τ ι}
    (hstep : (tasks ι φ ν).step s.config a = some (c, e)) (hstack : c.stack r ≠ []) :
    s.config.stack r ≠ [] ∨ ∃ b, a = .call r b := by
  obtain ⟨f, hf⟩ := List.exists_mem_of_ne_nil _ hstack
  rcases Program.frame_step hstep hf with hbefore | hnew
  · exact .inl (List.ne_nil_of_mem hbefore)
  · cases hnew with
    | call b ha _ => exact .inr ⟨b, ha⟩
    | lock b rest hstack | unlock m b rest hstack => exact .inl (by simp [hstack])
    | exec choice b rest e _ ha hstack _ _ => exact .inl (by simp [hstack])

theorem Sound.thread (hs : s.Sound) {a : SessionAction τ ι φ ν}
    {b : ThreadAction (Runner τ ι) (Task ι φ ν) (Option UserCall)}
    {c : Config (Shared ι φ ν) (Lock ι) (Task ι φ ν) (Runner τ ι)}
    {e : ThreadEvent (Runner τ ι) (ι × DispatchEvent φ (Option ν))} (hmakes : s.Makes a b)
    (hstep : (tasks ι φ ν).step s.config b = some (c, e)) :
    Sound (⟨s.process, c⟩ : Session τ ι φ ν) where
  process := hs.process
  slots := (tasks_shared hstep).trans hs.slots
  busy := by
    intro h hstack
    rcases stack_step hstep hstack with hbefore | ⟨b₁, hcall⟩
    · exact hs.busy h hbefore
    · subst hcall
      cases hmakes with
      | firmware h c hfirmware =>
          rcases hfirmware with hpc | hpc
          · exact ⟨.inSetup, hpc, .inl rfl⟩
          · exact ⟨.inLoop, hpc, .inr (.inl rfl)⟩
  frames := by
    intro h f h' hf htouches
    rcases touches_step hstep hf htouches with ⟨g, hg, hbefore⟩ | ⟨b₁, hcall, howner⟩ |
      ⟨call, l, hstack, hraised⟩
    · exact hs.frames h g h' hg hbefore
    · subst hcall
      cases hmakes with
      | firmware h c hfirmware => cases howner
    · exact (hs.raised hraised).2 h hstack

/-- What the callers promise keeps a session in order. -/
theorem Sound.step (hs : s.Sound) {a : SessionAction τ ι φ ν} {o : SessionEvent τ ι φ ν}
    (hcontract : s.Contract a) (hstep : (session τ ι φ ν).step s a = some (s', o)) : s'.Sound := by
  cases step_cases hstep with
  | life a p e hready hcase => exact hs.life hready hcontract hcase
  | log h message p e hcaught hcase => exact hs.log hcaught hcase
  | thread a b c e hmakes htask => exact hs.thread hmakes htask

/-! ## Steps of two host threads -/

def lives (n : Nat) : List (SessionAction Bool Unit Unit Unit) :=
  List.replicate n (.life (.advance false .ok))

def runs (n : Nat) : List (SessionAction Bool Unit Unit Unit) :=
  List.replicate n (.run (.host true) none)

end Session

end ZiModem.Wrapper
