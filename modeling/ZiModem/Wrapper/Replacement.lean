import Mathlib.Data.Fintype.Basic
import ZiModem.Wrapper.Dispatch

/-! # Replacing the callbacks

`zimodem_host_set_callbacks` stores five members under `callback_mutex`. Three
kinds of event read a pointer and the context and call it under that mutex; the
line-config closure copies both and calls after unlocking, so a replacement may
return before that call, or while it lasts.
-/

namespace ZiModem.Wrapper

open Reactive ZiModem.Hal

variable {φ ν τ : Type*}

/-- The callbacks hold this pointer for this kind of event, and this context. -/
def Callbacks.Serves (cbs : Callbacks φ ν) (e : UserEvent) (cb : φ) (ctx : ν) : Prop :=
  cbs.pointer e = some cb ∧ cbs.userContext = ctx

def registration : ThreadEvent τ (DispatchEvent φ ν) → List (Callbacks φ ν)
  | .saw _ (.registered cbs) => [cbs]
  | _ => []

/-- `Q` holds of callbacks that were registered at some time, and for each `set_callbacks` that has
returned, of those it registered or of later ones. -/
structure Recent (c₀ : Callbacks φ ν) (os : List (ThreadEvent τ (DispatchEvent φ ν)))
    (Q : Callbacks φ ν → Prop) : Prop where
  registered : ∃ cbs ∈ c₀ :: os.flatMap registration, Q cbs
  since : ∀ xs t cbs ys, os = xs ++ .saw t (.returned cbs) :: ys →
    ∃ cbs' ∈ cbs :: ys.flatMap registration, Q cbs'

/-- Every user callback begins with a pointer and a context that were registered together, by the
latest `set_callbacks` to have returned or by a later one. -/
def InvocationsCurrent (c₀ : Callbacks φ ν) (os : List (ThreadEvent τ (DispatchEvent φ ν))) :
    Prop :=
  ∀ xs t e cb ctx ys, os = xs ++ .saw t (.invoked e cb ctx) :: ys →
    Recent c₀ xs fun cbs => cbs.Serves e cb ctx

/-- The callbacks that have begun, and those that still run, use what the latest `set_callbacks` to
have returned has registered, or a later one. So a context may be freed that none of these has
registered: nothing runs with it, and nothing has begun with it since the return. -/
structure CallbacksCurrent (c₀ : Callbacks φ ν) (os : List (ThreadEvent τ (DispatchEvent φ ν)))
    (s : Config (Device φ ν) Mutex (Block φ ν) τ) : Prop where
  begun : InvocationsCurrent c₀ os
  running : ∀ t e cb ctx, s.Running t (.user e cb ctx) →
    Recent c₀ os fun cbs => cbs.Serves e cb ctx
  freeable : ∀ xs t cbs ys, os = xs ++ .saw t (.returned cbs) :: ys → ∀ ctx,
    (∀ cbs' ∈ cbs :: ys.flatMap registration, cbs'.userContext ≠ ctx) →
      ∀ t' e cb, ¬ s.Running t' (.user e cb ctx) ∧ .saw t' (.invoked e cb ctx) ∉ ys

namespace Recent

variable {c₀ : Callbacks φ ν} {os : List (ThreadEvent τ (DispatchEvent φ ν))}
  {Q R : Callbacks φ ν → Prop}

theorem nil (h : Q c₀) : Recent c₀ ([] : List (ThreadEvent τ (DispatchEvent φ ν))) Q where
  registered := ⟨c₀, List.mem_cons_self, h⟩
  since := by
    intro xs t cbs ys hos
    cases xs <;> cases hos

theorem mono (h : Recent c₀ os Q) (hQR : ∀ cbs, Q cbs → R cbs) : Recent c₀ os R where
  registered := by
    obtain ⟨cbs, hmem, hq⟩ := h.registered
    exact ⟨cbs, hmem, hQR cbs hq⟩
  since := by
    intro xs t cbs ys hos
    obtain ⟨cbs', hmem, hq⟩ := h.since xs t cbs ys hos
    exact ⟨cbs', hmem, hQR cbs' hq⟩

/-- A return keeps what holds of the callbacks it registered; any other event keeps everything. -/
theorem snoc (h : Recent c₀ os Q) {o : ThreadEvent τ (DispatchEvent φ ν)}
    (hreturn : ∀ t cbs, o = .saw t (.returned cbs) → Q cbs) : Recent c₀ (os ++ [o]) Q where
  registered := by
    obtain ⟨cbs, hmem, hq⟩ := h.registered
    refine ⟨cbs, ?_, hq⟩
    rw [List.flatMap_append, ← List.cons_append]
    exact List.mem_append_left _ hmem
  since := by
    intro xs t cbs ys hos
    rcases List.eq_nil_or_concat ys with rfl | ⟨zs, o', rfl⟩
    · have hlast := List.append_inj_right' hos rfl
      exact ⟨cbs, List.mem_cons_self, hreturn t cbs (List.cons.inj hlast).1⟩
    · rw [List.concat_eq_append, ← List.cons_append, ← List.append_assoc] at hos
      obtain ⟨cbs', hmem, hq⟩ := h.since xs t cbs zs (List.append_inj_left' hos rfl)
      refine ⟨cbs', ?_, hq⟩
      rw [List.concat_eq_append, List.flatMap_append, ← List.cons_append]
      exact List.mem_append_left _ hmem

theorem register (t : τ) {cbs : Callbacks φ ν} (h : Q cbs) :
    Recent c₀ (os ++ [.saw t (.registered cbs)]) Q where
  registered := ⟨cbs, by simp [registration], h⟩
  since := by
    intro xs t' cbs' ys hos
    rcases List.eq_nil_or_concat ys with rfl | ⟨zs, o', rfl⟩
    · have hlast := List.append_inj_right' hos rfl
      cases hlast
    · rw [List.concat_eq_append, ← List.cons_append, ← List.append_assoc] at hos
      have hlast := List.append_inj_right' hos rfl
      cases hlast
      exact ⟨cbs, by simp [registration], h⟩

end Recent

/-! ## What the blocks read and store -/

namespace Block

def SetsCallbacks : Block φ ν → Prop
  | setCallbacks _ | setCallbacksReturn _ => True
  | _ => False

/-- The callback that a block runs, or has to call whatever is registered by then. -/
def callback : Block φ ν → Option (UserEvent × φ × ν)
  | lineConfigCall cb ctx settings => some (.lineConfig settings, cb, ctx)
  | user e cb ctx => some (e, cb, ctx)
  | _ => none

def Obeys (cbs : Callbacks φ ν) (b : Block φ ν) : Prop :=
  ∀ call ∈ b.callback, cbs.Serves call.1 call.2.1 call.2.2

instance [DecidableEq φ] [DecidableEq ν] (cbs : Callbacks φ ν) (b : Block φ ν) :
    Decidable (b.Obeys cbs) :=
  match h : b.callback with
  | none => .isTrue (by simp [Obeys, h])
  | some call => decidable_of_iff (cbs.pointer call.1 = some call.2.1 ∧ cbs.userContext = call.2.2)
      (by simp [Obeys, h, Callbacks.Serves])

variable {d : Device φ ν} {b : Block φ ν} {c : Option UserCall}
  {e : Effect (Device φ ν) (Block φ ν) (DispatchEvent φ ν)}

def Shows (d : Device φ ν) (b : Block φ ν) : DispatchEvent φ ν → Prop
  | .invoked ev cb ctx =>
      d.callbacks.Serves ev cb ctx ∨ ∃ settings, ev = .lineConfig settings ∧
        b = lineConfigCall cb ctx settings
  | .registered cbs => b = setCallbacks cbs
  | .returned cbs => b = setCallbacksReturn cbs

theorem exec_shows {o : DispatchEvent φ ν} (h : exec d b c = some e) (ho : e.seen = some o) :
    Shows d b o := by
  cases exec_cases h with
  | invoke l ev cb hptr =>
      cases ho
      exact .inl ⟨hptr, rfl⟩
  | lineConfigCall cb ctx settings =>
      cases ho
      exact .inr ⟨settings, rfl, rfl⟩
  | setCallbacks cbs =>
      cases ho
      rfl
  | setCallbacksReturn cbs =>
      cases ho
      rfl
  | _ => cases ho

theorem exec_names_callback {b' : Block φ ν} {call : UserEvent × φ × ν} (h : exec d b c = some e)
    (hnames : e.cont.Names b') (hcall : b'.callback = some call) :
    (d.callbacks.Serves call.1 call.2.1 call.2.2 ∨ b.callback = some call) ∧
      ∀ cbs, e.seen ≠ some (.returned cbs) := by
  cases exec_cases h with
  | hal call' =>
      obtain ⟨l, _, rfl⟩ := Option.map_eq_some_iff.mp hnames
      cases hcall
  | invoke l ev cb hptr =>
      rcases hnames with rfl | hnames
      · cases hcall
      · cases hnames
        cases hcall
        exact ⟨.inl ⟨hptr, rfl⟩, nofun⟩
  | copy baud config cb hptr =>
      cases hnames
      cases hcall
      exact ⟨.inl ⟨hptr, rfl⟩, nofun⟩
  | lineConfigCall cb ctx settings =>
      rcases hnames with rfl | hnames
      · cases hcall
        exact ⟨.inr rfl, nofun⟩
      · cases hnames
  | userCall ev cb ctx call' =>
      rcases hnames with rfl | hnames
      · cases hcall
        exact ⟨.inr rfl, nofun⟩
      · cases hnames
        cases hcall
  | setCallbacks cbs =>
      cases hnames
      cases hcall
  | _ => cases hnames

theorem exec_names_setsCallbacks {b' : Block φ ν} (h : exec d b c = some e)
    (hnames : e.cont.Names b') (hb' : b'.SetsCallbacks) :
    ∃ cbs, b = setCallbacks cbs ∧ b' = setCallbacksReturn cbs ∧ e.cont = .leave (some b') := by
  cases exec_cases h with
  | setCallbacks cbs =>
      cases hnames
      exact ⟨cbs, rfl, rfl, rfl⟩
  | hal call =>
      obtain ⟨l, _, rfl⟩ := Option.map_eq_some_iff.mp hnames
      exact hb'.elim
  | invoke l ev cb hptr | lineConfigCall cb ctx settings | userCall ev cb ctx call =>
      rcases hnames with rfl | hcall
      · exact hb'.elim
      · cases hcall
        try exact hb'.elim
  | copy baud config cb _ =>
      cases hnames
      exact hb'.elim
  | _ => cases hnames

end Block

theorem setsCallbacks_lone : (dispatch φ ν).Lone Block.SetsCallbacks := by
  intro d b c e b' hexec hnames hb'
  obtain ⟨cbs, rfl, _, hcont⟩ := Block.exec_names_setsCallbacks hexec hnames hb'
  exact ⟨trivial, hcont⟩

/-! ## The invariant -/

section Invariant

variable [DecidableEq τ]

def OneHost (host : τ) : ThreadAction τ (Block φ ν) (Option UserCall) → Prop
  | .call t (.setCallbacks _) => t = host
  | _ => True

instance (host : τ) :
    DecidablePred (OneHost host : ThreadAction τ (Block φ ν) (Option UserCall) → Prop)
  | .call t (.setCallbacks _) => inferInstanceAs (Decidable (t = host))
  | .call _ (.hal _) | .call _ (.lambda _) | .call _ .called => .isTrue trivial
  | .call _ (.lineConfigCall _ _ _) | .call _ (.user _ _ _) => .isTrue trivial
  | .call _ (.setCallbacksReturn _) | .advance _ _ => .isTrue trivial

/-- A `set_callbacks` returns only when every line-config call that was prepared and has yet to be
made, and every callback that runs, goes to the pointer and the context just registered. -/
def CleanReturn (s : Config (Device φ ν) Mutex (Block φ ν) τ) :
    ThreadAction τ (Block φ ν) (Option UserCall) → Prop
  | .call _ _ => True
  | .advance t _ =>
      match s.stack t with
      | .inside (.setCallbacksReturn cbs) :: _ =>
          ∀ t', ∀ f ∈ s.stack t', ∀ b ∈ Frame.block f, b.Obeys cbs
      | _ => True

instance [DecidableEq φ] [DecidableEq ν] [Fintype τ]
    (s : Config (Device φ ν) Mutex (Block φ ν) τ)
    (a : ThreadAction τ (Block φ ν) (Option UserCall)) : Decidable (CleanReturn s a) := by
  rcases a with _ | ⟨t, _⟩
  case advance =>
    dsimp only [CleanReturn]
    rcases s.stack t with _ | ⟨_ | (_ | _ | _ | _ | _ | _ | _) | _, _⟩
    case cons.inside.setCallbacksReturn => infer_instance
    all_goals exact .isTrue trivial
  all_goals exact .isTrue trivial

/-- What is registered now is recent, and a `set_callbacks` about to return is the one whose
callbacks are registered now. -/
structure Settled (c₀ : Callbacks φ ν) (host : τ)
    (os : List (ThreadEvent τ (DispatchEvent φ ν)))
    (s : Config (Device φ ν) Mutex (Block φ ν) τ) : Prop where
  current : Recent c₀ os fun cbs => cbs = s.shared.callbacks
  alone : Program.Alone Block.SetsCallbacks host s
  returning : ∀ t cbs, s.Running t (.setCallbacksReturn cbs) → cbs = s.shared.callbacks

def UsesRecent (c₀ : Callbacks φ ν) (os : List (ThreadEvent τ (DispatchEvent φ ν)))
    (s : Config (Device φ ν) Mutex (Block φ ν) τ) : Prop :=
  ∀ t b call, s.Running t b → b.callback = some call →
    Recent c₀ os fun cbs => cbs.Serves call.1 call.2.1 call.2.2

variable {c₀ : Callbacks φ ν} {host : τ} {os : List (ThreadEvent τ (DispatchEvent φ ν))}
  {s s' : Config (Device φ ν) Mutex (Block φ ν) τ}
  {a : ThreadAction τ (Block φ ν) (Option UserCall)} {o : ThreadEvent τ (DispatchEvent φ ν)}

omit [DecidableEq τ] in
theorem settled_idle (d : Device φ ν) (host : τ) :
    Settled d.callbacks host [] (Config.idle d) where
  current := Recent.nil rfl
  alone := fun t f b hf => by cases hf
  returning := fun t cbs ⟨f, hf, _⟩ => by cases hf

omit [DecidableEq τ] in
theorem usesRecent_idle (d : Device φ ν) :
    UsesRecent d.callbacks [] (Config.idle d : Config (Device φ ν) Mutex (Block φ ν) τ) := by
  rintro t b call ⟨f, hf, _⟩
  cases hf

theorem step_shows {x : DispatchEvent φ ν} {t : τ}
    (hstep : (dispatch φ ν).step s a = some (s', .saw t x)) :
    ∃ c b rest, a = .advance t c ∧ s.stack t = .inside b :: rest ∧ Block.Shows s.shared b x := by
  obtain ⟨c, b, rest, e, rfl, hstack, hexec, hseen, -⟩ := Program.step_saw _ hstep
  exact ⟨c, b, rest, rfl, hstack, Block.exec_shows hexec hseen⟩

theorem step_callbacks (hstep : (dispatch φ ν).step s a = some (s', o)) :
    s'.shared.callbacks = s.shared.callbacks ∨
      ∃ t c cbs rest, a = .advance t c ∧ s.stack t = .inside (.setCallbacks cbs) :: rest ∧
        o = .saw t (.registered cbs) ∧ s'.shared.callbacks = cbs := by
  cases Program.step_cases _ hstep with
  | exec t c b rest e hstack hexec =>
      rcases Block.exec_callbacks hexec with hsame | ⟨cbs, rfl, hnew⟩
      · exact .inl hsame
      · cases hexec
        exact .inr ⟨t, c, cbs, rest, rfl, hstack, rfl, rfl⟩
  | call t b _ _ => exact .inl rfl
  | lock t c b rest _ _ =>
      exact .inl (congrArg Device.callbacks (Config.setOwner_shared s _ _))
  | unlock t c m after rest _ =>
      exact .inl (congrArg Device.callbacks (Config.setOwner_shared s _ _))

theorem Settled.step (h : Settled c₀ host os s) (hone : OneHost host a)
    (hstep : (dispatch φ ν).step s a = some (s', o)) : Settled c₀ host (os ++ [o]) s' where
  current := by
    rcases step_callbacks hstep with hsame | ⟨t, c, cbs, rest, _, _, rfl, hnew⟩
    · rw [hsame]
      refine h.current.snoc ?_
      rintro t cbs rfl
      obtain ⟨c, b, rest, _, hstack, rfl⟩ := step_shows hstep
      exact h.returning t cbs ⟨.inside (.setCallbacksReturn cbs), by simp [hstack], rfl⟩
    · exact Recent.register t hnew.symm
  alone := by
    refine setsCallbacks_lone.step h.alone ?_ hstep
    rintro t b rfl hb
    cases b with
    | setCallbacks cbs => exact hone
    | setCallbacksReturn cbs =>
        cases Program.step_cases _ hstep with
        | call _ _ hentry _ => cases hentry
    | _ => exact hb.elim
  returning := by
    intro t cbs hrun
    rcases Program.running_step hstep hrun with hold | ⟨_, hentry⟩ | hexec
    · rcases step_callbacks hstep with hsame | ⟨t', c, cbs', rest, _, hstack, _, _⟩
      · rw [hsame]
        exact h.returning t cbs hold
      · -- another call of `set_callbacks` would not be alone on the host's stack
        obtain ⟨f, hf, hfb⟩ := hold
        obtain ⟨rfl, hsolo⟩ := h.alone t f _ hf hfb trivial
        obtain ⟨rfl, _⟩ := h.alone t' (.inside (.setCallbacks cbs')) (.setCallbacks cbs')
          (by simp [hstack]) rfl trivial
        rw [hstack] at hsolo
        cases hsolo
        cases hfb
    · cases hentry
    · obtain ⟨c, b, rest, e, rfl, hstack, hexec, hnames⟩ := hexec
      obtain ⟨cbs', rfl, heq, _⟩ := Block.exec_names_setsCallbacks hexec hnames trivial
      cases heq
      cases hexec
      rw [Program.shared_of_exec _ hstack rfl hstep]

/-- A return over the head of a callback is seen at once: nothing is registered behind it. -/
theorem UsesRecent.cleanReturn (h : UsesRecent c₀ (os ++ [o]) s')
    (hstep : (dispatch φ ν).step s a = some (s', o)) : CleanReturn s a := by
  cases a with
  | call t b => trivial
  | advance t c =>
      simp only [CleanReturn]
      split
      next cbs rest hstack =>
        intro t' f hf b hb call hcall
        have hdone : (dispatch φ ν).step s (.advance t c) =
            some (s.setStack t ([.exit none none] ++ rest), .saw t (.returned cbs)) := by
          simp only [Program.step, hstack]
          rfl
        cases hstep.symm.trans hdone
        have hstays : (s.setStack t rest).Running t' b := by
          rcases (Config.running_cons hstack).mp ⟨f, hf, hb⟩ with ⟨-, htop⟩ | hbelow
          · cases htop
            cases hcall
          · exact hbelow
        have hrecent := h t' b call (Config.running_setStack_append.mpr (.inr hstays)) hcall
        obtain ⟨cbs', hmem, hserves⟩ := hrecent.since os t cbs [] rfl
        rwa [List.mem_singleton.mp hmem] at hserves
      next => trivial

theorem UsesRecent.step (h : UsesRecent c₀ os s) (hs : Settled c₀ host os s)
    (hclean : CleanReturn s a) (hstep : (dispatch φ ν).step s a = some (s', o)) :
    UsesRecent c₀ (os ++ [o]) s' := by
  have hkeep : ∀ {t b call}, s.Running t b → b.callback = some call →
      Recent c₀ (os ++ [o]) fun cbs => cbs.Serves call.1 call.2.1 call.2.2 := by
    intro t b call hrun hcall
    refine (h t b call hrun hcall).snoc ?_
    rintro t' cbs rfl
    obtain ⟨c, b', rest, rfl, hstack, rfl⟩ := step_shows hstep
    obtain ⟨f, hf, hfb⟩ := hrun
    simp only [CleanReturn] at hclean
    rw [hstack] at hclean
    exact hclean t f hf b hfb call hcall
  intro t b call hrun hcall
  rcases Program.running_step hstep hrun with hold | ⟨_, hentry⟩ | hexec
  · exact hkeep hold hcall
  · cases b with
    | lineConfigCall | user => cases hentry
    | _ => cases hcall
  · obtain ⟨c, b₀, rest, e, rfl, hstack, hexec, hnames⟩ := hexec
    obtain ⟨hserves | hsame, hseen⟩ := Block.exec_names_callback hexec hnames hcall
    · refine (hs.current.mono fun cbs hcbs => hcbs ▸ hserves).snoc ?_
      rintro t' cbs rfl
      obtain ⟨c', b', rest', e', ha, hstack', hexec', hreturned, -⟩ := Program.step_saw _ hstep
      cases ha
      cases hstack.symm.trans hstack'
      cases hexec.symm.trans hexec'
      exact absurd hreturned (hseen cbs)
    · have hbefore : s.Running t b₀ := ⟨.inside b₀, by simp [hstack], rfl⟩
      exact hkeep hbefore hsame

section Runs

variable {d : Device φ ν} {as : List (ThreadAction τ (Block φ ν) (Option UserCall))}

theorem settled_of_run (hone : ((dispatch φ ν).threads τ).Along (fun _ => OneHost host)
      (Config.idle d) as)
    (hrun : ((dispatch φ ν).threads τ).run (Config.idle d) as = some (s, os)) :
    Settled d.callbacks host os s :=
  Machine.history_along (I := Settled d.callbacks host)
    (fun _ _ _ _ _ h hg hstep => h.step hg hstep) (settled_idle d host) hone hrun

theorem begun_of_recent {xs : List (ThreadEvent τ (DispatchEvent φ ν))} {t : τ} {e : UserEvent}
    {cb : φ} {ctx : ν} (hs : Settled c₀ host xs s) (huses : UsesRecent c₀ xs s)
    (hstep : (dispatch φ ν).step s a = some (s', .saw t (.invoked e cb ctx))) :
    Recent c₀ xs fun cbs => cbs.Serves e cb ctx := by
  obtain ⟨c, b, rest, _, hstack, hshows⟩ := step_shows hstep
  rcases hshows with hserves | ⟨settings, rfl, rfl⟩
  · exact hs.current.mono fun cbs hcbs => hcbs ▸ hserves
  · exact huses t _ _ ⟨.inside (.lineConfigCall cb ctx settings), by simp [hstack], rfl⟩ rfl

omit [DecidableEq τ] in
theorem callbacksCurrent_of_uses (hbegun : InvocationsCurrent c₀ os) (huses : UsesRecent c₀ os s) :
    CallbacksCurrent c₀ os s where
  begun := hbegun
  running := fun t e cb ctx hrun => huses t _ _ hrun rfl
  freeable := by
    intro xs t cbs ys hos ctx hother t' e cb
    constructor
    · intro hrun
      obtain ⟨cbs', hmem, hserves⟩ := (huses t' _ _ hrun rfl).since xs t cbs ys hos
      exact hother cbs' hmem hserves.2
    · intro hmem
      obtain ⟨ys₁, ys₂, rfl⟩ := List.append_of_mem hmem
      have hrecent := hbegun (xs ++ .saw t (.returned cbs) :: ys₁) t' e cb ctx ys₂ (by simp [hos])
      obtain ⟨cbs', hmem', hserves⟩ := hrecent.since xs t cbs ys₁ rfl
      refine hother cbs' ?_ hserves.2
      rw [List.flatMap_append, ← List.cons_append]
      exact List.mem_append_left _ hmem'

/-- Over every interleaving with one thread that calls `set_callbacks`: what runs and what is
prepared uses the latest registration to have returned, or a later one, exactly if no
`set_callbacks` returns over the head of a callback with something else; and then every callback
begins so too, and the old context may be freed. -/
theorem invocations_current
    (hone : ((dispatch φ ν).threads τ).Along (fun _ => OneHost host) (Config.idle d) as)
    (hrun : ((dispatch φ ν).threads τ).run (Config.idle d) as = some (s, os)) :
    (((dispatch φ ν).threads τ).Throughout (UsesRecent d.callbacks) (Config.idle d) as ↔
        ((dispatch φ ν).threads τ).Along CleanReturn (Config.idle d) as) ∧
      (((dispatch φ ν).threads τ).Along CleanReturn (Config.idle d) as →
        CallbacksCurrent d.callbacks os s) := by
  have hexact : ((dispatch φ ν).threads τ).Throughout (UsesRecent d.callbacks) (Config.idle d) as ↔
      ((dispatch φ ν).threads τ).Along CleanReturn (Config.idle d) as := by
    rw [← Machine.along_recorded hrun []]
    refine Machine.throughout_iff_recorded_along (J := Settled d.callbacks host)
      (fun _ _ _ _ _ h hg hstep => h.step hg hstep) (fun os s a s' o hs huses _ hstep => ?_)
      (settled_idle d host) (usesRecent_idle d) hone hrun
    exact ⟨fun hafter => hafter.cleanReturn hstep, fun hclean => huses.step hs hclean hstep⟩
  refine ⟨hexact, fun hclean => ?_⟩
  have huses := hexact.mpr hclean
  refine callbacksCurrent_of_uses ?_ (huses as List.prefix_rfl s os hrun)
  intro xs t e cb ctx ys hos
  rw [hos] at hrun
  obtain ⟨as₁, a, as₂, s₁, s₂, rfl, hbefore, hstep, _⟩ := Machine.run_split hrun
  exact begun_of_recent (settled_of_run ((Machine.along_append hbefore).mp hone).1 hbefore)
    (huses as₁ (List.prefix_append _ _) s₁ xs hbefore) hstep

end Runs

end Invariant

def Device.configured : Device Unit Nat :=
  ⟨Serial.initial.setLineConfigCallback (some ()), .initial, none, ⟨none, none, none, some (), 0⟩⟩

def newContext : Callbacks Unit Nat := ⟨none, none, none, some (), 1⟩

/-- The worker (`false`) prepares a line-config call and the host (`true`) registers another context;
the worker takes `before` steps of its call before the registration returns, and `after` behind. -/
def replaceContext (before after : Nat) :
    List (ThreadAction Bool (Block Unit Nat) (Option UserCall)) :=
  List.flatten [[.call false (.hal (.setLineConfig 1200 0x1C))],
    List.replicate 6 (.advance false none),
    [.call true (.setCallbacks newContext)],
    List.replicate 4 (.advance true none), List.replicate before (.advance false none),
    [.advance true none], List.replicate after (.advance false none)]

/-- A callback that has come to its end before the replacement returns may have the old context. -/
theorem invocations_current_before_return :
    ∃ s os, ((dispatch Unit Nat).threads Bool).run (Config.idle .configured)
        (replaceContext 4 0) = some (s, os) ∧
      .saw false (.invoked (.lineConfig ⟨1200, 8, .none, 10⟩) () 0) ∈ os ∧
      CallbacksCurrent Device.configured.callbacks os s := by
  have hrun : ((dispatch Unit Nat).threads Bool).run (Config.idle .configured)
      (replaceContext 4 0) = some (_, _) := rfl
  have hone : ((dispatch Unit Nat).threads Bool).Along (fun _ => OneHost true)
      (Config.idle .configured) (replaceContext 4 0) := by decide
  exact ⟨_, _, hrun, by decide, (invocations_current hone hrun).2 (by decide)⟩

/-- The events up to the return of `set_callbacks`, with the old context already read. -/
def beforeReturn : List (ThreadEvent Bool (DispatchEvent Unit Nat)) :=
  List.flatten [List.replicate 7 (.quiet false), List.replicate 2 (.quiet true),
    [.saw true (.registered newContext)], List.replicate 2 (.quiet true)]

/-- The line-config call made after the replacement has returned goes to the old context. -/
theorem replaced_context_used :
    ¬ ∀ (d : Device Unit Nat) (as : List (ThreadAction Bool (Block Unit Nat) (Option UserCall))) s
      os, ((dispatch Unit Nat).threads Bool).Along (fun _ => OneHost true) (Config.idle d) as →
      ((dispatch Unit Nat).threads Bool).run (Config.idle d) as = some (s, os) →
      CallbacksCurrent d.callbacks os s := by
  intro hall
  have hrun : ∃ s, ((dispatch Unit Nat).threads Bool).run (Config.idle .configured)
      (replaceContext 0 2) = some (s, beforeReturn ++ .saw true (.returned newContext) ::
        [.quiet false] ++ [.saw false (.invoked (.lineConfig ⟨1200, 8, .none, 10⟩) () 0)]) :=
    ⟨_, rfl⟩
  obtain ⟨s, hrun⟩ := hrun
  have hcurrent := (hall _ _ _ _ (by decide) hrun).begun _ false _ () 0 [] rfl
  -- nothing was registered since the replacement returned, and that has context 1
  obtain ⟨cbs, hmem, hserves⟩ := hcurrent.since beforeReturn true newContext [.quiet false] rfl
  have hcbs : cbs = newContext := by simpa [registration] using hmem
  rw [hcbs] at hserves
  exact absurd hserves.2 (by decide)

end ZiModem.Wrapper
