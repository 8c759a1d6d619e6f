import ZiModem.Wrapper.SessionOrder

/-! # Closures that outlive their instance

`digital_write` copies the closure in its slot under the lock of the pins and
calls the copy after that. `destroy` waits for the worker, which covers the
copies that the worker holds, and deletes the instance; a host thread in
`zimodem_host_set_pin` may still hold another. No thread runs a closure of a
deleted instance if every deletion finds the host threads outside of its
closures.
-/

namespace ZiModem.Wrapper

open Reactive ZiModem.Hal

variable {τ ι φ ν : Type*}

/-! ## Closures on a stack -/

def Block.Registers : Block φ ν → Prop
  | setCallbacks _ | setCallbacksReturn _ => True
  | _ => False

instance : DecidablePred (Block.Registers : Block φ ν → Prop)
  | .setCallbacks _ | .setCallbacksReturn _ => .isTrue trivial
  | .hal _ | .lambda _ | .called | .lineConfigCall _ _ _ | .user _ _ _ => .isFalse id

def Task.Captures (h : ι) : Task ι φ ν → Prop
  | hal _ => False
  | own h' b => h' = h ∧ ¬ b.Registers

/-- The frame runs a closure of instance `h`, is about to unlock its mutex, or has a copy of such a
closure to call. -/
def InClosure (h : ι) : Frame (Lock ι) (Task ι φ ν) → Prop
  | .enter b | .inside b => b.Captures h
  | .exit m none => m = some (.callback h)
  | .exit _ (some b) => b.Captures h

instance [DecidableEq ι] (h : ι) : DecidablePred (Task.Captures h : Task ι φ ν → Prop)
  | .hal _ => .isFalse id
  | .own _ _ => inferInstanceAs (Decidable (_ = h ∧ ¬ _))

instance [DecidableEq ι] (h : ι) (f : Frame (Lock ι) (Task ι φ ν)) : Decidable (InClosure h f) :=
  match f with
  | .enter b | .inside b | .exit _ (some b) => inferInstanceAs (Decidable (b.Captures h))
  | .exit m none => inferInstanceAs (Decidable (m = some (.callback h)))

theorem Task.Captures.owner {h : ι} {b : Task ι φ ν} (hb : b.Captures h) : b.owner = some h := by
  cases b with
  | hal c => exact hb.elim
  | own h' b => exact congrArg some hb.1

theorem InClosure.touches {h : ι} {f : Frame (Lock ι) (Task ι φ ν)} (hf : InClosure h f) :
    Touches h f := by
  cases f with
  | enter b | inside b => exact Task.Captures.owner hf
  | exit m after =>
      cases after with
      | none => exact .inl hf
      | some b => exact .inr (Task.Captures.owner hf)

section Deletion

variable [DecidableEq τ] [DecidableEq ι]

omit [DecidableEq τ] in
theorem inClosure_resume {s : Shared ι φ ν} {b : Task ι φ ν} {c : Option UserCall}
    {e : Effect (Shared ι φ ν) (Task ι φ ν) (ι × DispatchEvent φ (Option ν))}
    (hexec : b.exec s c = some e) {f : Frame (Lock ι) (Task ι φ ν)}
    (hf : f ∈ (tasks ι φ ν).resume b e.cont) {h : ι} (hin : InClosure h f) :
    b.Captures h ∨ ∃ call l, b = .hal call ∧ (s.hal call).2 = some (h, l) := by
  rcases touches_resume hexec hf hin.touches with howner | hraised
  · refine .inl ?_
    cases b with
    | hal call => cases howner
    | own h' b =>
        refine ⟨Option.some.inj howner, fun hregisters => ?_⟩
        cases b with
        | setCallbacks cbs =>
            cases hexec
            rw [List.mem_singleton.mp hf] at hin
            exact hin.2 trivial
        | setCallbacksReturn cbs =>
            cases hexec
            rw [List.mem_singleton.mp hf] at hin
            cases hin
        | _ => exact hregisters
  · exact .inr hraised

namespace Session

variable {s s' : Session τ ι φ ν}

theorem inClosure_step {c : Config (Shared ι φ ν) (Lock ι) (Task ι φ ν) (Runner τ ι)}
    {a : ThreadAction (Runner τ ι) (Task ι φ ν) (Option UserCall)}
    {e : ThreadEvent (Runner τ ι) (ι × DispatchEvent φ (Option ν))} {r : Runner τ ι}
    {f : Frame (Lock ι) (Task ι φ ν)} {h : ι}
    (hstep : (tasks ι φ ν).step s.config a = some (c, e)) (hf : f ∈ c.stack r)
    (hin : InClosure h f) :
    (∃ g ∈ s.config.stack r, InClosure h g) ∨ (∃ b, a = .call r b ∧ b.Captures h) ∨
      ∃ call l, (s.config.shared.hal call).2 = some (h, l) := by
  have hblock : Program.OfBlock (InClosure h : Frame (Lock ι) (Task ι φ ν) → Prop) :=
    ⟨fun _ => id, fun _ _ => id⟩
  rcases hblock.step hstep hf hin with hbefore | hcall | ⟨c, b, rest, e, hstack, hexec, hmem⟩
  · exact .inl hbefore
  · exact .inr (.inl hcall)
  · rcases inClosure_resume hexec hmem hin with hb | ⟨call, l, rfl, hraised⟩
    · exact .inl ⟨.inside b, hstack ▸ List.mem_cons_self, hb⟩
    · exact .inr (.inr ⟨call, l, hraised⟩)

/-! ## Deletions that find nobody -/

/-- No thread is in a closure of a deleted instance, or has one to call. -/
def NoneOutlives (s : Session τ ι φ ν) : Prop :=
  ∀ r f h, f ∈ s.config.stack r → InClosure h f → s.process.cell h ≠ .deleted

/-- An instance is deleted only while no host thread is in one of its closures, or has one to
call. -/
def DeletesUnused (s : Session τ ι φ ν) : SessionAction τ ι φ ν → Prop
  | .life (.advance t _) =>
      match s.process.pc t with
      | some (.delete h) => ∀ t', ∀ f ∈ s.config.stack (.host t'), ¬ InClosure h f
      | _ => True
  | _ => True

instance [Fintype τ] (s : Session τ ι φ ν) (a : SessionAction τ ι φ ν) :
    Decidable (s.DeletesUnused a) := by
  unfold DeletesUnused
  split
  · split
    · infer_instance
    · exact .isTrue trivial
  · exact .isTrue trivial

/-- A thread that takes a step in a closure finds the instance that it captured. -/
def RunsLive (s : Session τ ι φ ν) (a : SessionAction τ ι φ ν) : Prop :=
  ∀ r c f rest h, a = .run r c → s.config.stack r = f :: rest → InClosure h f →
    s.process.cell h ≠ .deleted

omit [DecidableEq τ] [DecidableEq ι] in
theorem NoneOutlives.runsLive (hs : s.NoneOutlives) (a : SessionAction τ ι φ ν) : s.RunsLive a :=
  fun r _ f _ h _ hstack hin => hs r f h (hstack ▸ List.mem_cons_self) hin

omit [DecidableEq τ] [DecidableEq ι] in
theorem deletesUnused_iff {a : SessionAction τ ι φ ν} : s.DeletesUnused a ↔
    ∀ t c h, a = .life (.advance t c) → s.process.pc t = some (.delete h) →
      ∀ t', ∀ f ∈ s.config.stack (.host t'), ¬ InClosure h f := by
  constructor
  · rintro hrule t c h rfl hpc
    simpa [DeletesUnused, hpc] using hrule
  · intro hrule
    unfold DeletesUnused
    split
    next t c =>
      split
      next h hpc => exact hrule t c h rfl hpc
      next => trivial
    next => trivial

omit [DecidableEq τ] [DecidableEq ι] in
/-- At the deletion of its instance a worker has returned. -/
theorem Sound.worker_gone (hs : s.Sound) {t : τ} {h : ι} (hpc : s.process.pc t = some (.delete h))
    (h' : ι) : ∀ f ∈ s.config.stack (.worker h'), ¬ InClosure h f := by
  intro f hf hin
  obtain rfl : h = h' := hs.frames h' f h hf hin.touches
  obtain ⟨pc, hworker, hbusy⟩ := hs.busy h (List.ne_nil_of_mem hf)
  obtain ⟨i, hi, hat⟩ := Option.bind_eq_some_iff.mp hworker
  rcases (hs.process.staged.stage t _ hpc i hi).2 with hnone | hexited
  · rw [hat] at hnone
    cases hnone
  · rw [hat] at hexited
    cases hexited
    simp at hbusy

omit [DecidableEq τ] [DecidableEq ι] in
theorem cell_ne_deleted {p : Process τ ι} {h : ι} (hlive : p.instance? h ≠ none) :
    p.cell h ≠ .deleted :=
  fun hdeleted => hlive (Process.instance_eq_none_iff.mpr (.inr hdeleted))

/-- A deletion that finds a host thread in a closure is what goes wrong, and all that does. -/
theorem noneOutlives_step (hs : s.Sound) (hnone : s.NoneOutlives) {a : SessionAction τ ι φ ν}
    {o : SessionEvent τ ι φ ν} (hstep : (session τ ι φ ν).step s a = some (s', o)) :
    s'.NoneOutlives ↔ s.DeletesUnused a := by
  rw [deletesUnused_iff]
  cases step_cases hstep with
  | life a p e hready hcase =>
      constructor
      · rintro hafter t c h ha hpc t' f hf hin
        cases ha
        exact hafter (.host t') f h hf hin (Process.deleted_of_delete hcase hpc)
      · intro hrule r f h hf hin hdeleted
        rcases Process.delete_of_step hcase hdeleted with hbefore | ⟨t, c, rfl, hpc⟩
        · exact hnone r f h hf hin hbefore
        · cases r with
          | host t' => exact hrule t c h rfl hpc t' f hf hin
          | worker h' => exact hs.worker_gone hpc h' f hf hin
  | log h message p e hcaught hcase =>
      apply iff_of_true
      · intro r f h' hf hin hdeleted
        have hbefore : s.process.cell h' = .deleted := by
          rcases Process.delete_of_step hcase hdeleted with hbefore | ⟨t, c, ha, -⟩
          · exact hbefore
          · cases ha
        rcases Config.mem_setStack hf with ⟨rfl, hmem⟩ | ⟨_, hmem⟩
        · obtain rfl : f = .enter (.own h (.lambda (.log message))) := List.mem_singleton.mp hmem
          obtain rfl : h = h' := hin.1
          apply cell_ne_deleted ?_ hbefore
          obtain ⟨i, hi, -⟩ := Option.bind_eq_some_iff.mp hcaught
          simp [hi]
        · exact hnone r f h' hmem hin hbefore
      · rintro t c h₁ ha
        cases ha
  | thread a b c e hmakes htask =>
      apply iff_of_true
      · intro r f h hf hin
        rcases inClosure_step htask hf hin with ⟨g, hg, hbefore⟩ | ⟨b₁, hcall, hb₁⟩ |
          ⟨call, l, hraised⟩
        · exact hnone r g h hg hbefore
        · subst hcall
          cases hmakes with
          | call t h₁ c =>
              cases c with
              | hal c => exact hb₁.elim
              | setCallbacks cbs => exact absurd trivial hb₁.2
          | firmware h₁ c _ => exact hb₁.elim
        · exact cell_ne_deleted (hs.raised hraised).1
      · rintro t c h ha
        subst ha
        cases hmakes

/-- From a process in which nothing was created yet, in every interleaving of calls on live handles:
no thread is ever in a closure of a deleted instance exactly if every deletion finds the host
threads outside of its closures, and then no closure runs after its instance was deleted. -/
theorem closures_find_their_instance {as : List (SessionAction τ ι φ ν)}
    (hcontract : (session τ ι φ ν).Along Contract initial as)
    {os : List (SessionEvent τ ι φ ν)}
    (hrun : (session τ ι φ ν).run initial as = some (s, os)) :
    ((session τ ι φ ν).Throughout (fun _ s => s.NoneOutlives) initial as ↔
        (session τ ι φ ν).Along DeletesUnused initial as) ∧
      ((session τ ι φ ν).Along DeletesUnused initial as →
        (session τ ι φ ν).Along RunsLive initial as) := by
  have hexact : (session τ ι φ ν).Throughout (fun _ s => s.NoneOutlives) initial as ↔
      (session τ ι φ ν).Along DeletesUnused initial as := by
    rw [← Machine.along_recorded hrun []]
    apply Machine.throughout_iff_recorded_along (A := Contract) (J := fun _ s => s.Sound)
    · intro _ s a s' o hs ha hstep
      exact hs.step ha hstep
    · intro _ s a s' o hs hnone _ hstep
      exact noneOutlives_step hs hnone hstep
    · exact sound_initial
    · intro r f h hf
      cases hf
    · exact hcontract
    · exact hrun
  refine ⟨hexact, fun hrule => ?_⟩
  exact Machine.along_of_throughout (fun s a hnone => hnone.runsLive a) (hexact.mpr hrule)

/-! ## A copy held over a `destroy` -/

/-- One thread creates an instance, a second one changes a pin and is stopped before it calls its
copy of the closure, and the first one destroys the instance up to its deletion. -/
def heldOver : List (SessionAction Bool Unit Unit Unit) :=
  List.flatten [[.life (.create false (some ⟨some [46]⟩))], lives 4,
    [.life (.advance false (.allocated ()))], lives 6, [.call true () (.hal (.setPin 2 1))], runs 2,
    [.life (.destroy false (some ()))], lives 10]

/-- The copy is called while the deletion is still to come. -/
theorem closures_find_their_instance_heldOver :
    (session Bool Unit Unit Unit).Along RunsLive initial (heldOver ++ runs 4 ++ lives 1) :=
  have hrun : (session Bool Unit Unit Unit).run initial (heldOver ++ runs 4 ++ lives 1) =
      some (_, _) := rfl
  (closures_find_their_instance (by decide +kernel) hrun).2 (by decide +kernel)

/-- The copy is called after the deletion: the closure locks the mutex of an instance that is no
more. -/
theorem not_closures_find_their_instance :
    ¬ ∀ as : List (SessionAction Bool Unit Unit Unit),
      (session Bool Unit Unit Unit).Along Contract initial as →
        (session Bool Unit Unit Unit).Along RunsLive initial as := by
  intro hall
  have hlive := hall (heldOver ++ lives 1 ++ runs 1 ++ runs 1) (by decide +kernel)
  have hrun : (session Bool Unit Unit Unit).run initial (heldOver ++ lives 1 ++ runs 1) =
      some (_, _) := rfl
  have hlast := ((Machine.along_append hrun).mp hlive).2.1
  exact hlast (.host true) none (.enter (.own () (.lambda (.signal 2 1)))) [] () rfl rfl
    ⟨rfl, id⟩ rfl

end Session

end Deletion

end ZiModem.Wrapper
