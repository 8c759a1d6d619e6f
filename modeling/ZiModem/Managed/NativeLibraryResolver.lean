import ZiModem.Reactive.LockOrder
import ZiModem.Reactive.Traces

/-! # `NativeLibraryResolver.EnsureRegistered`

The resolver of the native library may be set once per assembly: a second call
of `NativeLibrary.SetDllImportResolver` throws. `EnsureRegistered` looks at its
flag without the lock first, and again with it. Reads and writes of the flag are
taken to be sequentially consistent. In every interleaving the resolver is set
once, nothing is thrown, and nobody returns before it is set.
-/

namespace ZiModem.Managed

open Reactive

/-- `_registered`, and whether the assembly has a resolver. -/
structure Resolver where
  registered : Bool
  resolverSet : Bool
  deriving DecidableEq, Repr

/-- The steps of `EnsureRegistered`; all but the first hold `RegisterLock`. -/
inductive RegisterBlock
  | look
  | lookAgain
  | setResolver
  | setFlag
  deriving DecidableEq, Repr

inductive RegisterEvent
  | resolverSet
  | invalidOperation
  | returned
  deriving DecidableEq, Repr

namespace RegisterBlock

def guard : RegisterBlock → Option Unit
  | look => none
  | lookAgain | setResolver | setFlag => some ()

def entry : RegisterBlock → Bool
  | look => true
  | lookAgain | setResolver | setFlag => false

def exec (s : Resolver) (b : RegisterBlock) (_ : Unit) :
    Option (Effect Resolver RegisterBlock RegisterEvent) :=
  match b with
  | look =>
      if s.registered then some ⟨s, some .returned, .leave none⟩
      else some ⟨s, none, .leave (some lookAgain)⟩
  | lookAgain =>
      if s.registered then some ⟨s, some .returned, .leave none⟩
      else some ⟨s, none, .stay setResolver none⟩
  | setResolver =>
      if s.resolverSet then some ⟨s, some .invalidOperation, .leave none⟩
      else some ⟨{ s with resolverSet := true }, some .resolverSet, .stay setFlag none⟩
  | setFlag => some ⟨{ s with registered := true }, some .returned, .leave none⟩

inductive ExecCase (s : Resolver) :
    RegisterBlock → Effect Resolver RegisterBlock RegisterEvent → Prop
  | found (b : RegisterBlock) : b = look ∨ b = lookAgain → s.registered = true →
      ExecCase s b ⟨s, some .returned, .leave none⟩
  | missed : s.registered = false → ExecCase s look ⟨s, none, .leave (some lookAgain)⟩
  | first : s.registered = false → ExecCase s lookAgain ⟨s, none, .stay setResolver none⟩
  | twice : s.resolverSet = true →
      ExecCase s setResolver ⟨s, some .invalidOperation, .leave none⟩
  | sets : s.resolverSet = false → ExecCase s setResolver
      ⟨{ s with resolverSet := true }, some .resolverSet, .stay setFlag none⟩
  | flags : ExecCase s setFlag ⟨{ s with registered := true }, some .returned, .leave none⟩

theorem exec_cases {s : Resolver} {b : RegisterBlock} (c : Unit)
    {e : Effect Resolver RegisterBlock RegisterEvent} (h : exec s b c = some e) :
    ExecCase s b e := by
  cases b with
  | look | lookAgain =>
      cases hset : s.registered with
      | true =>
          simp only [exec, hset, if_true] at h
          cases h
          exact .found _ (by simp) hset
      | false =>
          simp only [exec, hset] at h
          cases h
          first
            | exact .missed hset
            | exact .first hset
  | setResolver =>
      cases hset : s.resolverSet with
      | true =>
          simp only [exec, hset, if_true] at h
          cases h
          exact .twice hset
      | false =>
          simp only [exec, hset] at h
          cases h
          exact .sets hset
  | setFlag =>
      cases h
      exact .flags

theorem guard_stay (s : Resolver) (b : RegisterBlock) (c : Unit)
    (e : Effect Resolver RegisterBlock RegisterEvent) (next : RegisterBlock)
    (call : Option RegisterBlock) (hexec : exec s b c = some e)
    (hcont : e.cont = .stay next call) : guard next = guard b := by
  cases exec_cases c hexec <;> cases hcont <;> rfl

end RegisterBlock

def ensureRegistered : Program Resolver Unit RegisterBlock Unit RegisterEvent :=
  ⟨RegisterBlock.guard, RegisterBlock.entry, RegisterBlock.exec, RegisterBlock.guard_stay⟩

/-! ## The lock -/

theorem ensureRegistered_discipline :
    ensureRegistered.Discipline (fun H _ => H = []) (fun _ _ _ _ => True) where
  entry := fun _ _ => rfl
  unheld := fun H _ m hH _ => hH ▸ List.not_mem_nil
  stay := by
    intro s H b c e next call hH _ hexec hcont
    refine ⟨hH, fun b' hcall => ?_⟩
    cases RegisterBlock.exec_cases c hexec <;> cases hcont <;> cases hcall
  leave := fun _ _ _ _ _ _ hH _ _ _ => hH

theorem ensureRegistered_descends :
    ensureRegistered.Descends (fun H _ => H = []) (fun _ => 0) := by
  intro H b m m' hH _ hheld
  rw [hH] at hheld
  cases hheld

theorem ensureRegistered_neverStuck : ensureRegistered.NeverStuck := by
  intro s b
  have htotal : (RegisterBlock.exec s b ()).isSome := by
    cases b with
    | look | lookAgain => cases h : s.registered <;> simp [RegisterBlock.exec, h]
    | setResolver => cases h : s.resolverSet <;> simp [RegisterBlock.exec, h]
    | setFlag => rfl
  obtain ⟨e, he⟩ := Option.isSome_iff_exists.mp htotal
  exact ⟨(), e, he⟩

/-! ## Where the threads are -/

/-- A call begins with the first look, and goes on to the second. -/
def Reached : Frame Unit RegisterBlock → Prop
  | .enter b => b = .look ∨ b = .lookAgain
  | .inside _ => True
  | .exit _ after => after = none ∨ after = some .lookAgain

/-- The flag and the resolver, with at most one thread between the two writes. -/
structure Registering {τ : Type*} (s : Config Resolver Unit RegisterBlock τ) : Prop where
  consistent : ensureRegistered.Consistent s
  shape : ∀ t, s.stack t = [] ∨ ∃ f, s.stack t = [f] ∧ Reached f
  setting : ∀ t, s.stack t = [.inside .setResolver] → s.shared = ⟨false, false⟩
  flagging : ∀ t, s.stack t = [.inside .setFlag] → s.shared = ⟨false, true⟩
  otherwise : (∀ t, s.stack t ≠ [.inside .setFlag]) →
    s.shared = ⟨false, false⟩ ∨ s.shared = ⟨true, true⟩

namespace Registering

variable {τ : Type*} {s s' : Config Resolver Unit RegisterBlock τ} {t : τ}

theorem initial :
    Registering (Config.idle ⟨false, false⟩ : Config Resolver Unit RegisterBlock τ) where
  consistent := Program.consistent_idle _
  shape := fun _ => .inl rfl
  setting := fun _ hs => by cases hs
  flagging := fun _ hs => by cases hs
  otherwise := fun _ => .inl rfl

/-- Two threads are not both inside blocks under the lock. -/
theorem sole (h : Registering s) {t' : τ} {b b' : RegisterBlock} (hb : b ≠ .look)
    (hb' : b' ≠ .look) (hstack : s.stack t = [.inside b]) (hstack' : s.stack t' = [.inside b']) :
    t = t' := by
  have hown : ∀ t b, b ≠ .look → s.stack t = [.inside b] → s.owner () = some t := by
    intro t b hb hstack
    rw [h.consistent.owner_iff, hstack]
    cases b with
    | look => exact absurd rfl hb
    | _ => exact List.mem_singleton.mpr rfl
  exact Option.some.inj ((hown t b hb hstack).symm.trans (hown t' b' hb' hstack'))

theorem top (h : Registering s) {f : Frame Unit RegisterBlock}
    {rest : List (Frame Unit RegisterBlock)} (hstack : s.stack t = f :: rest) :
    rest = [] ∧ Reached f := by
  rcases h.shape t with hnil | ⟨f', hf, hreached⟩
  · rw [hnil] at hstack
    cases hstack
  · rw [hf] at hstack
    cases hstack
    exact ⟨rfl, hreached⟩

variable [DecidableEq τ]

theorem quiet (h : Registering s) {fs : List (Frame Unit RegisterBlock)} {s₁ : Config _ _ _ τ}
    (hcons : ensureRegistered.Consistent (s₁.setStack t fs)) (hsame : s₁.stack = s.stack)
    (hshared : s₁.shared = s.shared) (hshape : fs = [] ∨ ∃ f, fs = [f] ∧ Reached f)
    (hold : ∀ b, s.stack t = [.inside b] → b = .look ∨ b = .lookAgain)
    (hnew : ∀ b, fs = [.inside b] → b = .look ∨ b = .lookAgain) :
    Registering (s₁.setStack t fs) := by
  have hwrites : ∀ t' b, b ≠ .look → b ≠ .lookAgain →
      ((s₁.setStack t fs).stack t' = [.inside b] ↔ s.stack t' = [.inside b]) := by
    intro t' b hlook hagain
    by_cases ht : t' = t
    · rw [ht, Config.setStack_self]
      constructor
      · intro hfs
        exact absurd (hnew b hfs) (by simp [hlook, hagain])
      · intro hs
        exact absurd (hold b hs) (by simp [hlook, hagain])
    · rw [Config.setStack_other _ _ ht, hsame]
  have hset : ∀ t', _ := fun t' => hwrites t' .setResolver (by decide) (by decide)
  have hflag : ∀ t', _ := fun t' => hwrites t' .setFlag (by decide) (by decide)
  refine ⟨hcons, fun t' => ?_, fun t' hs => ?_, fun t' hs => ?_, fun hnone => ?_⟩
  · by_cases ht : t' = t
    · rw [ht, Config.setStack_self]
      exact hshape
    · rw [Config.setStack_other _ _ ht, hsame]
      exact h.shape t'
  · rw [Config.setStack_shared, hshared]
    exact h.setting t' ((hset t').mp hs)
  · rw [Config.setStack_shared, hshared]
    exact h.flagging t' ((hflag t').mp hs)
  · rw [Config.setStack_shared, hshared]
    exact h.otherwise fun t' hs => hnone t' ((hflag t').mpr hs)

theorem locked (h : Registering s) {b : RegisterBlock} (hb : b ≠ .look)
    (hstack : s.stack t = [.inside b]) {fs : List (Frame Unit RegisterBlock)} {r : Resolver}
    (hcons : ensureRegistered.Consistent ({ s with shared := r }.setStack t fs))
    (hshape : ∃ f, fs = [f] ∧ Reached f)
    (hset : fs = [.inside .setResolver] → r = ⟨false, false⟩)
    (hflag : fs = [.inside .setFlag] → r = ⟨false, true⟩)
    (hother : fs ≠ [.inside .setFlag] → r = ⟨false, false⟩ ∨ r = ⟨true, true⟩) :
    Registering ({ s with shared := r }.setStack t fs) := by
  have hself : ∀ t' b', b' ≠ .look →
      ({ s with shared := r }.setStack t fs).stack t' = [.inside b'] → fs = [.inside b'] := by
    intro t' b' hb' hs
    by_cases ht : t' = t
    · rw [ht, Config.setStack_self] at hs
      exact hs
    · rw [Config.setStack_other _ _ ht] at hs
      exact absurd (h.sole hb' hb hs hstack) ht
  refine ⟨hcons, fun t' => ?_, fun t' hs => hset (hself t' _ (by decide) hs),
    fun t' hs => hflag (hself t' _ (by decide) hs), fun hnone => hother fun hfs => ?_⟩
  · by_cases ht : t' = t
    · rw [ht, Config.setStack_self]
      exact .inr hshape
    · rw [Config.setStack_other _ _ ht]
      exact h.shape t'
  · exact hnone t (by rw [Config.setStack_self, hfs])

omit [DecidableEq τ] in
/-- With the lock and not at the second write, the flag tells whether there is a resolver. -/
theorem shared_of_locked (h : Registering s) {b : RegisterBlock} (hb : b ≠ .look)
    (hb' : b ≠ .setFlag) (hstack : s.stack t = [.inside b]) :
    s.shared = ⟨false, false⟩ ∨ s.shared = ⟨true, true⟩ := by
  refine h.otherwise fun t' hs => ?_
  obtain rfl := h.sole hb (by decide) hstack hs
  rw [hstack] at hs
  cases hs
  exact hb' rfl

theorem step (h : Registering s) {a : ThreadAction τ RegisterBlock Unit}
    {o : ThreadEvent τ RegisterEvent} (hstep : ensureRegistered.step s a = some (s', o)) :
    Registering s' := by
  have hcons := h.consistent.step hstep
  cases ensureRegistered.step_cases hstep with
  | call t b hentry hidle =>
      refine h.quiet hcons rfl rfl (.inr ⟨_, rfl, ?_⟩) (by simp [hidle]) (by simp)
      cases b with
      | look => exact .inl rfl
      | _ => cases hentry
  | lock t c b rest hstack _ =>
      obtain ⟨rfl, hreached⟩ := h.top hstack
      refine h.quiet hcons (Config.setOwner_stack ..) (Config.setOwner_shared ..)
        (.inr ⟨_, rfl, trivial⟩) (by simp [hstack]) fun b' hb' => ?_
      cases hb'
      exact hreached
  | unlock t c m after rest hstack =>
      obtain ⟨rfl, hreached⟩ := h.top hstack
      refine h.quiet hcons (Config.setOwner_stack ..) (Config.setOwner_shared ..) ?_
        (by simp [hstack]) (by rcases hreached with rfl | rfl <;> simp)
      rcases hreached with rfl | rfl
      · exact .inl rfl
      · exact .inr ⟨_, rfl, .inr rfl⟩
  | exec t c b rest e hstack hexec =>
      obtain ⟨rfl, _⟩ := h.top hstack
      cases RegisterBlock.exec_cases c hexec with
      | found _ hb hset =>
          refine h.quiet hcons rfl rfl (.inr ⟨_, rfl, .inl rfl⟩) (fun b' hb' => ?_)
            fun b' hb' => by cases hb'
          cases hstack.symm.trans hb'
          exact hb
      | missed hclear =>
          refine h.quiet hcons rfl rfl (.inr ⟨_, rfl, .inr rfl⟩) (fun b' hb' => ?_)
            fun b' hb' => by cases hb'
          cases hstack.symm.trans hb'
          exact .inl rfl
      | first hclear =>
          have hbefore : s.shared = ⟨false, false⟩ := by
            rcases h.shared_of_locked (by decide) (by decide) hstack with hs | hs
            · exact hs
            · rw [hs] at hclear
              cases hclear
          exact h.locked (by decide) hstack hcons ⟨_, rfl, trivial⟩ (fun _ => hbefore)
            (fun hfs => by cases hfs) fun _ => .inl hbefore
      | twice hset =>
          rw [h.setting t hstack] at hset
          cases hset
      | sets hfree =>
          have hbefore := h.setting t hstack
          exact h.locked (by decide) hstack hcons ⟨_, rfl, trivial⟩ (fun hfs => by cases hfs)
            (fun _ => by rw [hbefore]) fun hfs => absurd rfl hfs
      | flags =>
          have hbefore := h.flagging t hstack
          exact h.locked (by decide) hstack hcons ⟨_, rfl, .inl rfl⟩ (fun hfs => by cases hfs)
            (fun hfs => by cases hfs) fun _ => .inr (by rw [hbefore])

omit [DecidableEq τ] in
/-- A call that returns from its last block has the resolver set. -/
theorem returns (h : Registering s) {b : RegisterBlock} {rest : List (Frame Unit RegisterBlock)}
    (hstack : s.stack t = .inside b :: rest)
    (hset : s.shared.registered = true ∨ b = .setFlag) : s.shared.resolverSet = true := by
  obtain ⟨rfl, _⟩ := h.top hstack
  by_cases hflag : ∃ t', s.stack t' = [.inside .setFlag]
  · obtain ⟨t', ht'⟩ := hflag
    rw [h.flagging t' ht']
  · rcases hset with hset | rfl
    · rcases h.otherwise fun t' hs => hflag ⟨t', hs⟩ with hs | hs
      · rw [hs] at hset
        cases hset
      · rw [hs]
    · exact absurd ⟨t, hstack⟩ hflag

end Registering

/-! ## What the callers see -/

section History

variable {τ : Type*} [DecidableEq τ]

def SetsResolver (o : ThreadEvent τ RegisterEvent) : Prop := ∃ t, o = .saw t .resolverSet

def Returns (o : ThreadEvent τ RegisterEvent) : Prop := ∃ t, o = .saw t .returned

/-- The resolver of a history of events: set once or not at all, never tried twice, and set before
any call returns. -/
structure SetOnce (os : List (ThreadEvent τ RegisterEvent)) (resolverSet : Bool) : Prop where
  once : os.Pairwise fun o₁ o₂ => ¬ (SetsResolver o₁ ∧ SetsResolver o₂)
  recorded : (∃ o ∈ os, SetsResolver o) ↔ resolverSet = true
  untried : ∀ t, .saw t .invalidOperation ∉ os
  first : Preceded SetsResolver Returns os

omit [DecidableEq τ] in
theorem SetOnce.snoc {os : List (ThreadEvent τ RegisterEvent)} {set set' : Bool}
    {o : ThreadEvent τ RegisterEvent} (h : SetOnce os set)
    (hset : SetsResolver o → set = false) (hset' : set' = true ↔ set = true ∨ SetsResolver o)
    (huntried : ∀ t, o ≠ .saw t .invalidOperation) (hreturns : Returns o → set = true) :
    SetOnce (os ++ [o]) set' where
  once := by
    refine List.pairwise_append.mpr ⟨h.once, List.pairwise_singleton _ _, fun o₁ ho₁ o₂ ho₂ => ?_⟩
    obtain rfl := List.mem_singleton.mp ho₂
    intro hboth
    have hfalse := hset hboth.2
    rw [h.recorded.mp ⟨o₁, ho₁, hboth.1⟩] at hfalse
    cases hfalse
  recorded := by
    rw [hset', ← h.recorded]
    simp only [List.mem_append, List.mem_singleton, or_and_right, exists_or, exists_eq_left]
  untried := by
    intro t hmem
    rcases List.mem_append.mp hmem with hbefore | hlast
    · exact h.untried t hbefore
    · exact huntried t (List.mem_singleton.mp hlast).symm
  first := preceded_snoc_iff.mpr ⟨h.first, fun ho => h.recorded.mpr (hreturns ho)⟩

theorem SetOnce.step {os : List (ThreadEvent τ RegisterEvent)}
    {s s' : Config Resolver Unit RegisterBlock τ} {a : ThreadAction τ RegisterBlock Unit}
    {o : ThreadEvent τ RegisterEvent} (h : SetOnce os s.shared.resolverSet) (hs : Registering s)
    (hstep : ensureRegistered.step s a = some (s', o)) :
    SetOnce (os ++ [o]) s'.shared.resolverSet := by
  have hquiet : ∀ t, s'.shared.resolverSet = s.shared.resolverSet → o = .quiet t →
      SetOnce (os ++ [o]) s'.shared.resolverSet := by
    rintro t hsame rfl
    exact h.snoc (by rintro ⟨_, ⟨⟩⟩) (by simp [hsame, SetsResolver]) (by simp)
      (by rintro ⟨_, ⟨⟩⟩)
  cases ensureRegistered.step_cases hstep with
  | call t b _ _ => exact hquiet t rfl rfl
  | lock t c b rest _ _ => exact hquiet t (by simp) rfl
  | unlock t c m after rest _ => exact hquiet t (by simp) rfl
  | exec t c b rest e hstack hexec =>
      cases RegisterBlock.exec_cases c hexec with
      | found _ _ hset =>
          exact h.snoc (by rintro ⟨_, ⟨⟩⟩) (by simp [SetsResolver]) (by simp)
            fun _ => hs.returns hstack (.inl hset)
      | missed _ => exact hquiet t rfl rfl
      | first _ => exact hquiet t rfl rfl
      | twice hset =>
          obtain ⟨rfl, _⟩ := hs.top hstack
          rw [hs.setting t hstack] at hset
          cases hset
      | sets hfree =>
          exact h.snoc (fun _ => hfree) (by simp [SetsResolver]) (by simp) (by rintro ⟨_, ⟨⟩⟩)
      | flags =>
          exact h.snoc (by rintro ⟨_, ⟨⟩⟩) (by simp [SetsResolver]) (by simp)
            fun _ => hs.returns hstack (.inr rfl)

/-- However many threads call `EnsureRegistered`, and in whatever order they go: the resolver is set
at most once and never tried again, every call that returns does so after it was set, and every call
in progress can go on or waits for one that can. -/
theorem ensureRegistered_once {s : Config Resolver Unit RegisterBlock τ}
    {as : List (ThreadAction τ RegisterBlock Unit)} {os : List (ThreadEvent τ RegisterEvent)}
    (hrun : (ensureRegistered.threads τ).run (Config.idle ⟨false, false⟩) as = some (s, os)) :
    SetOnce os s.shared.resolverSet ∧ ensureRegistered.Moves s := by
  have hall : Registering s ∧ SetOnce os s.shared.resolverSet :=
    Machine.history (I := fun os s => Registering s ∧ SetOnce os s.shared.resolverSet)
      (fun _ _ _ _ _ h hstep => ⟨h.1.step hstep, h.2.step h.1 hstep⟩)
      ⟨Registering.initial, ⟨.nil, by simp [Config.idle], by simp, preceded_nil⟩⟩ hrun
  refine ⟨hall.2, ?_⟩
  exact ensureRegistered_descends.always_moves ensureRegistered_neverStuck
    ensureRegistered_discipline (Program.along_respects_true _ as) as List.prefix_rfl s os hrun

/-- Two threads that both find the flag clear at their first look. -/
def raced : List (ThreadAction Bool RegisterBlock Unit) :=
  [.call false .look, .call true .look] ++
    [false, true, false, true, false, true].map (.advance · ()) ++
    [false, false, false, false, false, true, true, true].map (.advance · ())

theorem raced_once :
    ∃ s os, (ensureRegistered.threads Bool).run (Config.idle ⟨false, false⟩) raced =
        some (s, os) ∧ s.shared = ⟨true, true⟩ ∧ SetOnce os true ∧ ensureRegistered.Moves s := by
  have hrun : (ensureRegistered.threads Bool).run (Config.idle ⟨false, false⟩) raced =
      some (_, _) := rfl
  exact ⟨_, _, hrun, rfl, ensureRegistered_once hrun⟩

end History

end ZiModem.Managed
