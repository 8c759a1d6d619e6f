import Mathlib.Data.List.Basic
import Mathlib.Logic.Function.Basic
import ZiModem.Reactive.Machine

/-! # Threads, mutexes and nested calls

A program is a set of blocks of code, each run as a whole under one mutex or
under none. A block may call another block and wait for it with its own mutex
still held, or give its mutex up and go on with another block. Threads run
stacks of such blocks over a shared state. The discipline rule says which blocks
may be reached under which mutexes, and concludes that no thread ever tries to
lock a mutex that it holds already.
-/

namespace Reactive

variable {σ μ β χ ω τ : Type*}

/-! ## Programs -/

/-- How a block goes on after one step: it keeps its mutex and goes on as `next` once the block it
calls has returned, or it gives the mutex up. -/
inductive Cont (β : Type*)
  | stay (next : β) (call : Option β)
  | leave (after : Option β)
  deriving DecidableEq, Repr

def Cont.Names (b : β) : Cont β → Prop
  | stay next call => next = b ∨ call = some b
  | leave after => after = some b

def Cont.map {γ : Type*} (f : β → γ) : Cont β → Cont γ
  | stay next call => .stay (f next) (call.map f)
  | leave after => .leave (after.map f)

structure Effect (σ β ω : Type*) where
  shared : σ
  seen : Option ω
  cont : Cont β

/-- Blocks `β` that read choices `χ`, with the mutex that guards each, and the blocks an idle thread
may call. A block that keeps its mutex goes on under that same mutex. -/
structure Program (σ μ β χ ω : Type*) where
  guard : β → Option μ
  entry : β → Bool
  exec : σ → β → χ → Option (Effect σ β ω)
  guard_stay : ∀ s b c e next call, exec s b c = some e → e.cont = .stay next call →
    guard next = guard b

/-- A block on a stack: about to lock its mutex, inside its critical section, or about to unlock. -/
inductive Frame (μ β : Type*)
  | enter (b : β)
  | inside (b : β)
  | exit (m : Option μ) (after : Option β)
  deriving DecidableEq, Repr

def Frame.block : Frame μ β → Option β
  | enter b | inside b => some b
  | exit _ after => after

/-- The shared state, the owner of each mutex, and the stack of each thread, innermost first. -/
structure Config (σ μ β τ : Type*) where
  shared : σ
  owner : μ → Option τ
  stack : τ → List (Frame μ β)

inductive ThreadAction (τ β χ : Type*)
  | call (t : τ) (b : β)
  | advance (t : τ) (c : χ)
  deriving DecidableEq, Repr

inductive ThreadEvent (τ ω : Type*)
  | quiet (t : τ)
  | saw (t : τ) (o : ω)
  deriving DecidableEq, Repr

namespace Config

def idle (shared : σ) : Config σ μ β τ := ⟨shared, fun _ => none, fun _ => []⟩

/-- Some frame of thread `t` is at block `b`, or will go on with it. -/
def Running (s : Config σ μ β τ) (t : τ) (b : β) : Prop :=
  ∃ f ∈ s.stack t, Frame.block f = some b

theorem running_congr {s₁ s₂ : Config σ μ β τ} (h : s₁.stack = s₂.stack) {t : τ} {b : β} :
    s₁.Running t b ↔ s₂.Running t b := by
  rw [Running, h, Running]

def Free (s : Config σ μ β τ) : Option μ → Prop
  | none => True
  | some m => s.owner m = none

instance (s : Config σ μ β τ) (m : Option μ) : Decidable (s.Free m) :=
  match m with
  | none => .isTrue trivial
  | some m =>
      match h : s.owner m with
      | none => .isTrue h
      | some _ => .isFalse fun hfree => by
          rw [Free, h] at hfree
          cases hfree

section Owner

variable [DecidableEq μ]

/-- Record `t`, or nobody, as the owner of the mutex, if there is one. -/
def setOwner (s : Config σ μ β τ) (m : Option μ) (t : Option τ) : Config σ μ β τ :=
  match m with
  | none => s
  | some m => { s with owner := Function.update s.owner m t }

@[simp] theorem setOwner_shared (s : Config σ μ β τ) (m : Option μ) (t : Option τ) :
    (s.setOwner m t).shared = s.shared := by
  cases m <;> rfl

@[simp] theorem setOwner_stack (s : Config σ μ β τ) (m : Option μ) (t : Option τ) :
    (s.setOwner m t).stack = s.stack := by
  cases m <;> rfl

end Owner

variable [DecidableEq τ]

def setStack (s : Config σ μ β τ) (t : τ) (fs : List (Frame μ β)) : Config σ μ β τ :=
  { s with stack := Function.update s.stack t fs }

@[simp] theorem setStack_shared (s : Config σ μ β τ) (t : τ) (fs : List (Frame μ β)) :
    (s.setStack t fs).shared = s.shared := rfl

@[simp] theorem setStack_owner (s : Config σ μ β τ) (t : τ) (fs : List (Frame μ β)) :
    (s.setStack t fs).owner = s.owner := rfl

@[simp] theorem setStack_self (s : Config σ μ β τ) (t : τ) (fs : List (Frame μ β)) :
    (s.setStack t fs).stack t = fs := by
  simp [setStack]

theorem setStack_other (s : Config σ μ β τ) {t t' : τ} (fs : List (Frame μ β)) (h : t' ≠ t) :
    (s.setStack t fs).stack t' = s.stack t' := by
  simp [setStack, h]

theorem mem_setStack {s : Config σ μ β τ} {t t' : τ} {fs : List (Frame μ β)} {f : Frame μ β}
    (hf : f ∈ (s.setStack t fs).stack t') : (t' = t ∧ f ∈ fs) ∨ (t' ≠ t ∧ f ∈ s.stack t') := by
  by_cases ht : t' = t
  · subst ht
    rw [setStack_self] at hf
    exact .inl ⟨rfl, hf⟩
  · rw [setStack_other _ _ ht] at hf
    exact .inr ⟨ht, hf⟩

/-- What runs on the stacks, seen from one thread: its upper frames, or what is below and beside
them. -/
theorem running_setStack_append {s : Config σ μ β τ} {t t' : τ} {fs rest : List (Frame μ β)}
    {b : β} : (s.setStack t (fs ++ rest)).Running t' b ↔
      (t' = t ∧ ∃ f ∈ fs, f.block = some b) ∨ (s.setStack t rest).Running t' b := by
  by_cases ht : t' = t
  · subst ht
    simp only [Running, setStack_self, List.mem_append, true_and, or_and_right, exists_or]
  · simp only [Running, setStack_other _ _ ht, ht, false_and, false_or]

theorem running_cons {s : Config σ μ β τ} {t t' : τ} {f : Frame μ β} {rest : List (Frame μ β)}
    {b : β} (hstack : s.stack t = f :: rest) :
    s.Running t' b ↔ (t' = t ∧ f.block = some b) ∨ (s.setStack t rest).Running t' b := by
  have hsame : s.setStack t ([f] ++ rest) = s := by
    rw [List.singleton_append, ← hstack, setStack, Function.update_eq_self]
  rw [← hsame, running_setStack_append, List.singleton_append]
  simp [setStack]

end Config

namespace Program

variable (P : Program σ μ β χ ω)

def held (fs : List (Frame μ β)) : List μ :=
  fs.filterMap fun
    | .enter _ => none
    | .inside b => P.guard b
    | .exit m _ => m

def resume (b : β) : Cont β → List (Frame μ β)
  | .stay next call => (call.map Frame.enter).toList ++ [.inside next]
  | .leave after => [.exit (P.guard b) after]

variable [DecidableEq μ] [DecidableEq τ]

def advance (s : Config σ μ β τ) (t : τ) (c : χ) :
    List (Frame μ β) → Option (Config σ μ β τ × ThreadEvent τ ω)
  | [] => none
  | .enter b :: rest =>
      if s.Free (P.guard b) then
        some ((s.setOwner (P.guard b) (some t)).setStack t (.inside b :: rest), .quiet t)
      else none  -- the thread waits for the mutex
  | .inside b :: rest =>
      match P.exec s.shared b c with
      | none => none
      | some e =>
          some ({ s with shared := e.shared }.setStack t (P.resume b e.cont ++ rest),
            (e.seen.map (ThreadEvent.saw t)).getD (.quiet t))
  | .exit m after :: rest =>
      some ((s.setOwner m none).setStack t ((after.map Frame.enter).toList ++ rest), .quiet t)

def step (s : Config σ μ β τ) : ThreadAction τ β χ → Option (Config σ μ β τ × ThreadEvent τ ω)
  | .call t b =>
      if P.entry b = true ∧ s.stack t = [] then some (s.setStack t [.enter b], .quiet t) else none
  | .advance t c => P.advance s t c (s.stack t)

def threads (τ : Type*) [DecidableEq τ] :
    Machine (Config σ μ β τ) (ThreadAction τ β χ) (ThreadEvent τ ω) := ⟨P.step⟩

inductive StepCase (s : Config σ μ β τ) :
    ThreadAction τ β χ → Config σ μ β τ → ThreadEvent τ ω → Prop
  | call (t : τ) (b : β) : P.entry b = true → s.stack t = [] →
      StepCase s (.call t b) (s.setStack t [.enter b]) (.quiet t)
  | lock (t : τ) (c : χ) (b : β) (rest : List (Frame μ β)) :
      s.stack t = .enter b :: rest → s.Free (P.guard b) →
      StepCase s (.advance t c)
        ((s.setOwner (P.guard b) (some t)).setStack t (.inside b :: rest)) (.quiet t)
  | exec (t : τ) (c : χ) (b : β) (rest : List (Frame μ β)) (e : Effect σ β ω) :
      s.stack t = .inside b :: rest → P.exec s.shared b c = some e →
      StepCase s (.advance t c)
        ({ s with shared := e.shared }.setStack t (P.resume b e.cont ++ rest))
        ((e.seen.map (ThreadEvent.saw t)).getD (.quiet t))
  | unlock (t : τ) (c : χ) (m : Option μ) (after : Option β) (rest : List (Frame μ β)) :
      s.stack t = .exit m after :: rest →
      StepCase s (.advance t c)
        ((s.setOwner m none).setStack t ((after.map Frame.enter).toList ++ rest)) (.quiet t)

theorem step_cases {s s' : Config σ μ β τ} {a : ThreadAction τ β χ} {o : ThreadEvent τ ω}
    (h : P.step s a = some (s', o)) : P.StepCase s a s' o := by
  cases a with
  | call t b =>
      by_cases hcall : P.entry b = true ∧ s.stack t = []
      · simp only [step, if_pos hcall] at h
        cases h
        exact .call t b hcall.1 hcall.2
      · simp only [step, if_neg hcall] at h
        cases h
  | advance t c =>
      simp only [step] at h
      cases hstack : s.stack t with
      | nil => simp [hstack, advance] at h
      | cons f rest =>
          rw [hstack] at h
          cases f with
          | enter b =>
              by_cases hfree : s.Free (P.guard b)
              · simp only [advance, if_pos hfree] at h
                cases h
                exact .lock t c b rest hstack hfree
              · simp only [advance, if_neg hfree] at h
                cases h
          | inside b =>
              cases hexec : P.exec s.shared b c with
              | none => simp [advance, hexec] at h
              | some e =>
                  simp only [advance, hexec] at h
                  cases h
                  exact .exec t c b rest e hstack hexec
          | exit m after =>
              cases h
              exact .unlock t c m after rest hstack

theorem step_saw {s s' : Config σ μ β τ} {a : ThreadAction τ β χ} {t : τ} {x : ω}
    (h : P.step s a = some (s', .saw t x)) :
    ∃ c b rest e, a = .advance t c ∧ s.stack t = .inside b :: rest ∧
      P.exec s.shared b c = some e ∧ e.seen = some x ∧
      s' = { s with shared := e.shared }.setStack t (P.resume b e.cont ++ rest) := by
  generalize ho : ThreadEvent.saw t x = o at h
  cases P.step_cases h with
  | exec t₀ c b rest e hstack hexec =>
      cases hseen : e.seen with
      | none =>
          rw [hseen] at ho
          cases ho
      | some y =>
          rw [hseen] at ho
          cases ho
          exact ⟨c, b, rest, e, rfl, hstack, hexec, hseen, rfl⟩
  | _ => cases ho

theorem shared_of_exec {s s' : Config σ μ β τ} {t : τ} {c : χ} {b : β}
    {rest : List (Frame μ β)} {e : Effect σ β ω} {o : ThreadEvent τ ω}
    (hstack : s.stack t = .inside b :: rest) (hexec : P.exec s.shared b c = some e)
    (h : P.step s (.advance t c) = some (s', o)) : s'.shared = e.shared := by
  simp only [step, hstack, advance, hexec, Option.some.injEq, Prod.mk.injEq] at h
  rw [← h.1]
  rfl

/-! ## Ownership -/

/-- The owner of a mutex is the thread whose stack holds it, and no stack holds one twice. -/
structure Consistent (s : Config σ μ β τ) : Prop where
  owner_iff : ∀ m t, s.owner m = some t ↔ m ∈ P.held (s.stack t)
  nodup : ∀ t, (P.held (s.stack t)).Nodup

def SelfLock (s : Config σ μ β τ) : Prop :=
  ∃ t b m rest, s.stack t = .enter b :: rest ∧ P.guard b = some m ∧ s.owner m = some t

section Held

variable (b : β) (rest : List (Frame μ β))

omit [DecidableEq μ]

@[simp] theorem held_nil : P.held [] = [] := rfl

@[simp] theorem held_enter : P.held (.enter b :: rest) = P.held rest := rfl

@[simp] theorem held_inside : P.held (.inside b :: rest) = (P.guard b).toList ++ P.held rest := by
  cases hb : P.guard b with
  | none => simp [held, hb]
  | some m => simp [held, hb]

@[simp] theorem held_exit (m : Option μ) (after : Option β) :
    P.held (.exit m after :: rest) = m.toList ++ P.held rest := by
  cases m with
  | none => rfl
  | some m => rfl

theorem held_enter_after (after : Option β) :
    P.held ((after.map Frame.enter).toList ++ rest) = P.held rest := by
  cases after <;> rfl

theorem held_resume {σ₀ : σ} {c : χ} {e : Effect σ β ω} (h : P.exec σ₀ b c = some e) :
    P.held (P.resume b e.cont ++ rest) = P.held (.inside b :: rest) := by
  cases hcont : e.cont with
  | stay next call =>
      have hguard : P.guard next = P.guard b := P.guard_stay _ _ _ _ _ _ h hcont
      rw [resume, List.append_assoc, held_enter_after]
      simp [hguard]
  | leave after => simp [resume]

end Held

variable {P}

omit [DecidableEq μ] [DecidableEq τ] in
theorem consistent_idle (shared : σ) : P.Consistent (Config.idle shared : Config σ μ β τ) :=
  ⟨fun m t => by simp [Config.idle], fun t => by simp [Config.idle]⟩

section Steps

variable {s : Config σ μ β τ} {t : τ} {fs : List (Frame μ β)}

omit [DecidableEq μ]

theorem Consistent.setStack (h : P.Consistent s) (hheld : P.held fs = P.held (s.stack t)) :
    P.Consistent (s.setStack t fs) := by
  have hall : ∀ t', P.held ((s.setStack t fs).stack t') = P.held (s.stack t') := by
    intro t'
    by_cases ht : t' = t
    · rw [ht, Config.setStack_self, hheld]
    · rw [Config.setStack_other _ _ ht]
  refine ⟨fun m t' => ?_, fun t' => ?_⟩
  · rw [hall]
    exact h.owner_iff m t'
  · rw [hall]
    exact h.nodup t'

variable [DecidableEq μ] {m : μ}

theorem Consistent.lock (h : P.Consistent s) (hfree : s.owner m = none)
    (hheld : P.held fs = m :: P.held (s.stack t)) :
    P.Consistent ((s.setOwner (some m) (some t)).setStack t fs) := by
  have hnowhere : ∀ t', m ∉ P.held (s.stack t') := by
    intro t' hmem
    rw [(h.owner_iff m t').mpr hmem] at hfree
    cases hfree
  refine ⟨fun m' t' => ?_, fun t' => ?_⟩
  · have hbefore := h.owner_iff m' t'
    have hnone := hnowhere t'
    by_cases ht : t' = t
    · by_cases hm : m' = m
      · simp [Config.setOwner, ht, hm, hheld]
      · rw [ht, Config.setStack_self, hheld, List.mem_cons, or_iff_right hm, ← ht, ← hbefore]
        simp [Config.setOwner, hm]
    · rw [Config.setStack_other _ _ ht, Config.setOwner_stack]
      by_cases hm : m' = m
      · have hne : t ≠ t' := fun heq => ht heq.symm
        simp [Config.setOwner, hm, hne, hnone]
      · rw [← hbefore]
        simp [Config.setOwner, hm]
  · by_cases ht : t' = t
    · rw [ht, Config.setStack_self, hheld, List.nodup_cons]
      exact ⟨hnowhere t, h.nodup t⟩
    · rw [Config.setStack_other _ _ ht, Config.setOwner_stack]
      exact h.nodup t'

theorem Consistent.unlock (h : P.Consistent s) (hheld : P.held (s.stack t) = m :: P.held fs) :
    P.Consistent ((s.setOwner (some m) none).setStack t fs) := by
  have hown : s.owner m = some t := (h.owner_iff m t).mpr (by simp [hheld])
  have hnodup : (m :: P.held fs).Nodup := hheld ▸ h.nodup t
  refine ⟨fun m' t' => ?_, fun t' => ?_⟩
  · have hbefore := h.owner_iff m' t'
    by_cases ht : t' = t
    · subst ht
      rw [hheld, List.mem_cons] at hbefore
      by_cases hm : m' = m
      · have hgone : m ∉ P.held fs := (List.nodup_cons.mp hnodup).1
        simp [Config.setOwner, hm, hgone]
      · rw [or_iff_right hm] at hbefore
        simp [Config.setOwner, hm, hbefore]
    · rw [Config.setStack_other _ _ ht, Config.setOwner_stack]
      by_cases hm : m' = m
      · have hother : m ∉ P.held (s.stack t') := by
          intro hmem
          rw [(h.owner_iff m t').mpr hmem] at hown
          exact ht (Option.some.inj hown)
        simp [Config.setOwner, hm, hother]
      · rw [← hbefore]
        simp [Config.setOwner, hm]
  · by_cases ht : t' = t
    · rw [ht, Config.setStack_self]
      exact (List.nodup_cons.mp hnodup).2
    · rw [Config.setStack_other _ _ ht, Config.setOwner_stack]
      exact h.nodup t'

end Steps

theorem Consistent.step {s s' : Config σ μ β τ} {a : ThreadAction τ β χ} {o : ThreadEvent τ ω}
    (h : P.Consistent s) (hstep : P.step s a = some (s', o)) : P.Consistent s' := by
  cases P.step_cases hstep with
  | call t b _ hidle => exact h.setStack (by simp [hidle])
  | lock t c b rest hstack hfree =>
      cases hguard : P.guard b with
      | none => exact h.setStack (by simp [hstack, hguard])
      | some m =>
          rw [hguard] at hfree
          exact h.lock hfree (by simp [hstack, hguard])
  | exec t c b rest e hstack hexec =>
      have hsame : P.Consistent { s with shared := e.shared } := ⟨h.owner_iff, h.nodup⟩
      exact hsame.setStack (by rw [P.held_resume b rest hexec, ← hstack])
  | unlock t c m after rest hstack =>
      cases m with
      | none => exact h.setStack (by rw [P.held_enter_after, hstack]; rfl)
      | some m => exact h.unlock (by rw [P.held_enter_after, hstack]; rfl)

/-! ## Where blocks come from -/

omit [DecidableEq μ] in
theorem names_of_mem_resume {b₀ b : β} {k : Cont β} {f : Frame μ β} (hf : f ∈ P.resume b₀ k)
    (hb : f.block = some b) : k.Names b := by
  cases k with
  | stay next call =>
      rcases List.mem_append.mp hf with hcall | hnext
      · cases call with
        | none => cases hcall
        | some b₁ =>
            rw [List.mem_singleton.mp hcall] at hb
            exact .inr hb
      · rw [List.mem_singleton.mp hnext] at hb
        exact .inl (Option.some.inj hb)
  | leave after =>
      rw [List.mem_singleton.mp hf] at hb
      exact hb

/-- How a frame that was not on the stack of thread `t` gets there in one step. -/
inductive NewFrame (P : Program σ μ β χ ω) (s : Config σ μ β τ) (a : ThreadAction τ β χ) (t : τ) :
    Frame μ β → Prop
  | call (b : β) : a = .call t b → P.entry b = true → NewFrame P s a t (.enter b)
  | lock (b : β) (rest : List (Frame μ β)) : s.stack t = .enter b :: rest →
      NewFrame P s a t (.inside b)
  | exec (c : χ) (b : β) (rest : List (Frame μ β)) (e : Effect σ β ω) (f : Frame μ β) :
      a = .advance t c → s.stack t = .inside b :: rest → P.exec s.shared b c = some e →
      f ∈ P.resume b e.cont → NewFrame P s a t f
  | unlock (m : Option μ) (b : β) (rest : List (Frame μ β)) :
      s.stack t = .exit m (some b) :: rest → NewFrame P s a t (.enter b)

theorem frame_step {s s' : Config σ μ β τ} {a : ThreadAction τ β χ} {o : ThreadEvent τ ω} {t : τ}
    {f : Frame μ β} (hstep : P.step s a = some (s', o)) (hf : f ∈ s'.stack t) :
    f ∈ s.stack t ∨ P.NewFrame s a t f := by
  cases P.step_cases hstep with
  | call t₀ b hentry _ =>
      rcases Config.mem_setStack hf with ⟨rfl, hmem⟩ | ⟨_, hmem⟩
      · exact List.mem_singleton.mp hmem ▸ .inr (.call b rfl hentry)
      · exact .inl hmem
  | lock t₀ c b rest hstack _ =>
      rcases Config.mem_setStack hf with ⟨rfl, hmem⟩ | ⟨_, hmem⟩
      · rcases List.mem_cons.mp hmem with rfl | hbelow
        · exact .inr (.lock b rest hstack)
        · exact .inl (hstack ▸ List.mem_cons_of_mem _ hbelow)
      · rw [Config.setOwner_stack] at hmem
        exact .inl hmem
  | exec t₀ c b rest e hstack hexec =>
      rcases Config.mem_setStack hf with ⟨rfl, hmem⟩ | ⟨_, hmem⟩
      · rcases List.mem_append.mp hmem with hnew | hbelow
        · exact .inr (.exec c b rest e f rfl hstack hexec hnew)
        · exact .inl (hstack ▸ List.mem_cons_of_mem _ hbelow)
      · exact .inl hmem
  | unlock t₀ c m after rest hstack =>
      rcases Config.mem_setStack hf with ⟨rfl, hmem⟩ | ⟨_, hmem⟩
      · rcases List.mem_append.mp hmem with hnew | hbelow
        · cases after with
          | none => cases hnew
          | some b => exact List.mem_singleton.mp hnew ▸ .inr (.unlock m b rest hstack)
        · exact .inl (hstack ▸ List.mem_cons_of_mem _ hbelow)
      · rw [Config.setOwner_stack] at hmem
        exact .inl hmem

/-- A property of frames that speaks of the block a frame leads to. -/
structure OfBlock (Q : Frame μ β → Prop) : Prop where
  inside : ∀ b, Q (.inside b) → Q (.enter b)
  enter : ∀ m b, Q (.enter b) → Q (.exit m (some b))

theorem OfBlock.step {Q : Frame μ β → Prop} (hQ : OfBlock Q) {s s' : Config σ μ β τ}
    {a : ThreadAction τ β χ} {o : ThreadEvent τ ω} {t : τ} {f : Frame μ β}
    (hstep : P.step s a = some (s', o)) (hf : f ∈ s'.stack t) (hf₀ : Q f) :
    (∃ g ∈ s.stack t, Q g) ∨ (∃ b, a = .call t b ∧ Q (.enter b)) ∨
      ∃ c b rest e, s.stack t = .inside b :: rest ∧ P.exec s.shared b c = some e ∧
        f ∈ P.resume b e.cont := by
  rcases frame_step hstep hf with hbefore | hnew
  · exact .inl ⟨f, hbefore, hf₀⟩
  · cases hnew with
    | call b ha _ => exact .inr (.inl ⟨b, ha, hf₀⟩)
    | lock b rest hstack => exact .inl ⟨.enter b, hstack ▸ List.mem_cons_self, hQ.inside b hf₀⟩
    | exec c b rest e _ ha hstack hexec hmem =>
        exact .inr (.inr ⟨c, b, rest, e, hstack, hexec, hmem⟩)
    | unlock m b rest hstack =>
        exact .inl ⟨.exit m (some b), hstack ▸ List.mem_cons_self, hQ.enter m b hf₀⟩

theorem running_step {s s' : Config σ μ β τ} {a : ThreadAction τ β χ} {o : ThreadEvent τ ω}
    {t : τ} {b : β} (hstep : P.step s a = some (s', o)) (hb : s'.Running t b) :
    s.Running t b ∨ a = .call t b ∧ P.entry b = true ∨
      ∃ c b₀ rest e, a = .advance t c ∧ s.stack t = .inside b₀ :: rest ∧
        P.exec s.shared b₀ c = some e ∧ e.cont.Names b := by
  obtain ⟨f, hf, hfb⟩ := hb
  rcases frame_step hstep hf with hbefore | hnew
  · exact .inl ⟨f, hbefore, hfb⟩
  · cases hnew with
    | call b₁ ha hentry =>
        cases hfb
        exact .inr (.inl ⟨ha, hentry⟩)
    | lock b₁ rest hstack => exact .inl ⟨.enter b₁, hstack ▸ List.mem_cons_self, hfb⟩
    | exec c b₀ rest e _ ha hstack hexec hmem =>
        exact .inr (.inr ⟨c, b₀, rest, e, ha, hstack, hexec, names_of_mem_resume hmem hfb⟩)
    | unlock m b₁ rest hstack => exact .inl ⟨.exit m (some b₁), hstack ▸ List.mem_cons_self, hfb⟩

/-- Below the top of a stack there are only blocks of the class `W`, which wait there. -/
def Below (W : β → Prop) (s : Config σ μ β τ) : Prop :=
  ∀ t, ∀ f ∈ (s.stack t).tail, ∃ b, f = .inside b ∧ W b

theorem Below.step {W : β → Prop}
    (hW : ∀ s b c e next call, P.exec s b c = some e → e.cont = .stay next (some call) → W next)
    {s s' : Config σ μ β τ} {a : ThreadAction τ β χ} {o : ThreadEvent τ ω} (h : Below W s)
    (hstep : P.step s a = some (s', o)) : Below W s' := by
  have hset : ∀ (s₁ : Config σ μ β τ) t fs, s₁.stack = s.stack →
      (∀ f ∈ fs.tail, ∃ b, f = .inside b ∧ W b) → Below W (s₁.setStack t fs) := by
    intro s₁ t fs hsame hfs t' f hf
    by_cases ht : t' = t
    · rw [ht, Config.setStack_self] at hf
      exact hfs f hf
    · rw [Config.setStack_other _ _ ht, hsame] at hf
      exact h t' f hf
  have hrest : ∀ {t top rest}, s.stack t = top :: rest →
      ∀ f ∈ rest, ∃ b, f = .inside b ∧ W b := by
    intro t top rest hstack f hf
    exact h t f (by rwa [hstack])
  cases P.step_cases hstep with
  | call t b _ _ => exact hset s t _ rfl (by simp)
  | lock t c b rest hstack _ => exact hset _ t _ (Config.setOwner_stack ..) (hrest hstack)
  | exec t c b rest e hstack hexec =>
      apply hset _ t _ rfl
      cases hcont : e.cont with
      | leave after => exact hrest hstack
      | stay next call =>
          cases call with
          | none => exact hrest hstack
          | some call =>
              intro f hf
              rcases List.mem_cons.mp hf with rfl | hbelow
              · exact ⟨next, rfl, hW _ _ _ _ _ _ hexec hcont⟩
              · exact hrest hstack f hbelow
  | unlock t c m after rest hstack =>
      apply hset _ t _ (Config.setOwner_stack ..)
      cases after with
      | none => exact fun f hf => hrest hstack f (List.mem_of_mem_tail hf)
      | some b => exact hrest hstack

/-- A class of blocks that only its own members go on with, by leaving. -/
def Lone (P : Program σ μ β χ ω) (L : β → Prop) : Prop :=
  ∀ s b c e b', P.exec s b c = some e → e.cont.Names b' → L b' →
    L b ∧ e.cont = .leave (some b')

/-- A frame of class `L` belongs to thread `t₀` and is alone on its stack. -/
def Alone (L : β → Prop) (t₀ : τ) (s : Config σ μ β τ) : Prop :=
  ∀ t f b, f ∈ s.stack t → Frame.block f = some b → L b → t = t₀ ∧ s.stack t = [f]

omit [DecidableEq μ] [DecidableEq τ] in
theorem Alone.top {L : β → Prop} {t₀ t : τ} {s : Config σ μ β τ} (h : Alone L t₀ s)
    {g : Frame μ β} {rest : List (Frame μ β)} {b : β} (hstack : s.stack t = g :: rest)
    (hg : Frame.block g = some b) (hb : L b) : t = t₀ ∧ rest = [] := by
  obtain ⟨ht, hsolo⟩ := h t g b (hstack ▸ List.mem_cons_self) hg hb
  rw [hstack] at hsolo
  exact ⟨ht, (List.cons.inj hsolo).2⟩

/-- If only `t₀` calls blocks of such a class, they stay alone. -/
theorem Lone.step {L : β → Prop} {t₀ : τ} (hL : P.Lone L) {s s' : Config σ μ β τ}
    {a : ThreadAction τ β χ} {o : ThreadEvent τ ω} (h : Alone L t₀ s)
    (hcall : ∀ t b, a = .call t b → L b → t = t₀) (hstep : P.step s a = some (s', o)) :
    Alone L t₀ s' := by
  intro t f b hf hfb hb
  have hkeep : ∀ (s₁ : Config σ μ β τ) t₁ fs, s₁.stack = s.stack → t ≠ t₁ ∧ f ∈ s₁.stack t →
      t = t₀ ∧ (s₁.setStack t₁ fs).stack t = [f] := by
    intro s₁ t₁ fs hsame hother
    rw [Config.setStack_other _ _ hother.1, hsame]
    exact h t f b (hsame ▸ hother.2) hfb hb
  have hnotBelow : ∀ g rest, s.stack t = g :: rest → f ∉ rest := by
    intro g rest hstack hmem
    have hsolo := (h t f b (by simp [hstack, hmem]) hfb hb).2
    rw [hstack] at hsolo
    cases hsolo
    cases hmem
  cases P.step_cases hstep with
  | call t₁ b₁ _ _ =>
      rcases Config.mem_setStack hf with ⟨rfl, hmem⟩ | hother
      · obtain rfl : f = .enter b₁ := List.mem_singleton.mp hmem
        cases hfb
        exact ⟨hcall t b rfl hb, by simp⟩
      · exact hkeep s t₁ _ rfl hother
  | lock t₁ c b₁ rest hstack _ =>
      rcases Config.mem_setStack hf with ⟨rfl, hmem⟩ | hother
      · rcases List.mem_cons.mp hmem with rfl | hbelow
        · obtain ⟨hhost, rfl⟩ := h.top hstack hfb hb
          exact ⟨hhost, by simp⟩
        · exact absurd hbelow (hnotBelow _ _ hstack)
      · exact hkeep _ t₁ _ (Config.setOwner_stack _ _ _) hother
  | exec t₁ c b₁ rest e hstack hexec =>
      rcases Config.mem_setStack hf with ⟨rfl, hmem⟩ | hother
      · rcases List.mem_append.mp hmem with hnew | hbelow
        · obtain ⟨hb₁, hcont⟩ := hL _ _ _ _ b hexec (names_of_mem_resume hnew hfb) hb
          obtain ⟨hhost, rfl⟩ := h.top hstack rfl hb₁
          rw [hcont] at hnew
          refine ⟨hhost, ?_⟩
          rw [Config.setStack_self, hcont, List.mem_singleton.mp hnew]
          rfl
        · exact absurd hbelow (hnotBelow _ _ hstack)
      · exact hkeep { s with shared := e.shared } t₁ _ rfl hother
  | unlock t₁ c m after rest hstack =>
      rcases Config.mem_setStack hf with ⟨rfl, hmem⟩ | hother
      · rcases List.mem_append.mp hmem with hnew | hbelow
        · cases after with
          | none => cases hnew
          | some b₁ =>
              rw [List.mem_singleton.mp hnew] at hfb
              obtain ⟨hhost, rfl⟩ := h.top hstack hfb hb
              refine ⟨hhost, ?_⟩
              rw [Config.setStack_self, List.mem_singleton.mp hnew]
              rfl
        · exact absurd hbelow (hnotBelow _ _ hstack)
      · exact hkeep _ t₁ _ (Config.setOwner_stack _ _ _) hother

/-! ## The discipline -/

/-- `fits H b`: block `b` may be reached by a thread that holds `H`. Under the side condition `G` on
the steps inside blocks, what a block goes on with fits as well, and no block that fits is guarded
by a mutex that its thread holds. -/
structure Discipline (P : Program σ μ β χ ω) (fits : List μ → β → Prop)
    (G : σ → List μ → β → χ → Prop) : Prop where
  entry : ∀ b, P.entry b = true → fits [] b
  unheld : ∀ H b m, fits H b → P.guard b = some m → m ∉ H
  stay : ∀ s H b c e next call, fits H b → G s H b c → P.exec s b c = some e →
    e.cont = .stay next call →
    fits H next ∧ ∀ b', call = some b' → fits ((P.guard b).toList ++ H) b'
  leave : ∀ s H b c e b', fits H b → G s H b c → P.exec s b c = some e →
    e.cont = .leave (some b') → fits H b'

def Respects (P : Program σ μ β χ ω) (G : σ → List μ → β → χ → Prop) (s : Config σ μ β τ) :
    ThreadAction τ β χ → Prop
  | .call _ _ => True
  | .advance t c =>
      match s.stack t with
      | .inside b :: rest => G s.shared (P.held rest) b c
      | _ => True

omit [DecidableEq μ] [DecidableEq τ] in
theorem Respects.inside {G : σ → List μ → β → χ → Prop} {s : Config σ μ β τ} {t : τ} {c : χ}
    {b : β} {rest : List (Frame μ β)} (h : P.Respects G s (.advance t c))
    (hstack : s.stack t = .inside b :: rest) : G s.shared (P.held rest) b c := by
  simpa [Respects, hstack] using h

instance (G : σ → List μ → β → χ → Prop) [∀ s H b c, Decidable (G s H b c)]
    (s : Config σ μ β τ) (a : ThreadAction τ β χ) : Decidable (P.Respects G s a) :=
  match a with
  | .call _ _ => .isTrue trivial
  | .advance t c =>
      match h : s.stack t with
      | .inside b :: rest =>
          decidable_of_iff (G s.shared (P.held rest) b c) (by simp [Respects, h])
      | [] | .enter _ :: _ | .exit _ _ :: _ => .isTrue (by simp [Respects, h])

/-- Every frame's block fits the mutexes held by the frames below it. -/
def FitsStack (P : Program σ μ β χ ω) (fits : List μ → β → Prop) : List (Frame μ β) → Prop
  | [] => True
  | f :: rest => (∀ b, f.block = some b → fits (P.held rest) b) ∧ P.FitsStack fits rest

namespace Discipline

variable {fits : List μ → β → Prop} {G : σ → List μ → β → χ → Prop}

omit [DecidableEq μ] in
theorem fitsStack_enter_after {after : Option β} {rest : List (Frame μ β)}
    (hafter : ∀ b, after = some b → fits (P.held rest) b) (hrest : P.FitsStack fits rest) :
    P.FitsStack fits ((after.map Frame.enter).toList ++ rest) := by
  cases after with
  | none => exact hrest
  | some b =>
      refine ⟨fun b' hb' => ?_, hrest⟩
      cases hb'
      exact hafter b rfl

omit [DecidableEq μ] in
theorem fitsStack_resume (D : P.Discipline fits G) {s : σ} {b : β} {c : χ} {e : Effect σ β ω}
    {rest : List (Frame μ β)} (hexec : P.exec s b c = some e) (hG : G s (P.held rest) b c)
    (h : P.FitsStack fits (.inside b :: rest)) :
    P.FitsStack fits (P.resume b e.cont ++ rest) := by
  have hb : fits (P.held rest) b := h.1 b rfl
  cases hcont : e.cont with
  | stay next call =>
      obtain ⟨hnext, hcall⟩ := D.stay s _ b c e next call hb hG hexec hcont
      have hguard : P.guard next = P.guard b := P.guard_stay _ _ _ _ _ _ hexec hcont
      rw [resume, List.append_assoc]
      refine fitsStack_enter_after ?_ ⟨fun b' hb' => ?_, h.2⟩
      · intro b' hb'
        simpa [hguard] using hcall b' hb'
      · cases hb'
        exact hnext
  | leave after =>
      refine ⟨fun b' hb' => ?_, h.2⟩
      have hafter : after = some b' := hb'
      rw [hafter] at hcont
      exact D.leave s _ b c e b' hb hG hexec hcont

theorem fitsStack_step (D : P.Discipline fits G) {s s' : Config σ μ β τ}
    {a : ThreadAction τ β χ} {o : ThreadEvent τ ω} (h : ∀ t, P.FitsStack fits (s.stack t))
    (hG : P.Respects G s a) (hstep : P.step s a = some (s', o)) (t' : τ) :
    P.FitsStack fits (s'.stack t') := by
  have hset : ∀ (s₁ : Config σ μ β τ) t fs, s₁.stack = s.stack → P.FitsStack fits fs →
      P.FitsStack fits ((s₁.setStack t fs).stack t') := by
    intro s₁ t fs hsame hfs
    by_cases ht : t' = t
    · rw [ht, Config.setStack_self]
      exact hfs
    · rw [Config.setStack_other _ _ ht, hsame]
      exact h t'
  cases P.step_cases hstep with
  | call t b hentry _ =>
      refine hset s t _ rfl ⟨fun b' hb' => ?_, trivial⟩
      cases hb'
      exact D.entry b hentry
  | lock t c b rest hstack _ =>
      have hold := h t
      rw [hstack] at hold
      exact hset _ t _ (Config.setOwner_stack _ _ _) hold
  | exec t c b rest e hstack hexec =>
      have hold := h t
      rw [hstack] at hold
      exact hset { s with shared := e.shared } t _ rfl
        (D.fitsStack_resume hexec (hG.inside hstack) hold)
  | unlock t c m after rest hstack =>
      have hold := h t
      rw [hstack] at hold
      exact hset _ t _ (Config.setOwner_stack _ _ _) (fitsStack_enter_after hold.1 hold.2)

omit [DecidableEq μ] [DecidableEq τ] in
theorem not_selfLock (D : P.Discipline fits G) {s : Config σ μ β τ} (hcons : P.Consistent s)
    (hfits : ∀ t, P.FitsStack fits (s.stack t)) : ¬ P.SelfLock s := by
  rintro ⟨t, b, m, rest, hstack, hguard, hown⟩
  have hstackFits := hfits t
  rw [hstack] at hstackFits
  have hmem : m ∈ P.held (s.stack t) := (hcons.owner_iff m t).mp hown
  rw [hstack, held_enter] at hmem
  exact D.unheld _ b m (hstackFits.1 b rfl) hguard hmem

/-- The discipline rule: along runs that respect the side condition no thread is ever about to lock
a mutex that it owns. -/
theorem never_selfLock (D : P.Discipline fits G) {shared : σ} {as : List (ThreadAction τ β χ)}
    (hG : (P.threads τ).Along (P.Respects G) (Config.idle shared) as) :
    (P.threads τ).Throughout (fun _ s => ¬ P.SelfLock s) (Config.idle shared) as := by
  rintro bs ⟨cs, rfl⟩ s os hrun
  have hall : P.Consistent s ∧ ∀ t, P.FitsStack fits (s.stack t) :=
    Machine.invariant_along (J := fun s => P.Consistent s ∧ ∀ t, P.FitsStack fits (s.stack t))
      (fun _ _ _ _ hI hg hstep => ⟨hI.1.step hstep, D.fitsStack_step hI.2 hg hstep⟩)
      ⟨consistent_idle shared, fun _ => trivial⟩ ((Machine.along_append hrun).mp hG).1 hrun
  exact D.not_selfLock hall.1 hall.2

end Discipline

/-- The other way round: where a block leaves for one that is guarded by a mutex held further
down, its thread is about to lock that mutex again as soon as it has left. -/
theorem selfLock_of_leave {s : Config σ μ β τ} (hcons : P.Consistent s) {t : τ} {b b' : β} {c : χ}
    {rest : List (Frame μ β)} {m : μ} {e : Effect σ β ω} (hstack : s.stack t = .inside b :: rest)
    (hexec : P.exec s.shared b c = some e) (hcont : e.cont = .leave (some b'))
    (hguard : P.guard b' = some m) (hheld : m ∈ P.held rest) :
    ∃ s' os, (P.threads τ).run s [.advance t c, .advance t c] = some (s', os) ∧
      P.SelfLock s' := by
  have hleave : ∃ s₁ o, P.step s (.advance t c) = some (s₁, o) ∧
      s₁.stack t = .exit (P.guard b) (some b') :: rest := by
    simp [step, advance, hstack, hexec, hcont, resume]
  obtain ⟨s₁, o₁, hstep₁, hstack₁⟩ := hleave
  have hexit : ∃ s₂ o, P.step s₁ (.advance t c) = some (s₂, o) ∧
      s₂.stack t = .enter b' :: rest := by
    simp [step, advance, hstack₁]
  obtain ⟨s₂, o₂, hstep₂, hstack₂⟩ := hexit
  have hcons₂ : P.Consistent s₂ := (hcons.step hstep₁).step hstep₂
  have hown : s₂.owner m = some t := by
    rw [hcons₂.owner_iff, hstack₂]
    exact hheld
  have hrun : (P.threads τ).run s [.advance t c, .advance t c] = some (s₂, [o₁, o₂]) :=
    Machine.run_cons_iff.mpr ⟨s₁, o₁, [o₂], hstep₁,
      Machine.run_singleton_iff.mpr ⟨o₂, hstep₂, rfl⟩, rfl⟩
  exact ⟨s₂, [o₁, o₂], hrun, t, b', m, rest, hstack₂, hguard, hown⟩

end Program

end Reactive
