import ZiModem.Wrapper.SessionOrder

/-! # The thread that callbacks run on

The user's callbacks are for the worker of their instance. Of the calls that a
host thread or a user callback may make, only `zimodem_host_set_pin` goes on with
a closure, and `digital_write` calls that closure on the thread that called it.
The host raises no signal, on its own threads or from within a callback, if none
of these calls changes a pin while an `on_signal` is registered, or has such a
closure to call when one is being registered.
-/

namespace ZiModem.Wrapper

open Reactive ZiModem.Hal

variable {τ ι φ ν : Type*}

/-! ## Code that the host has called -/

/-- A block that a host thread may reach without calling the user. -/
def Task.HostCode : Task ι φ ν → Prop
  | hal c => ∃ call : UserCall, c = call.hal
  | own _ (.lambda (.signal _ _)) | own _ (.setCallbacks _) | own _ (.setCallbacksReturn _) => True
  | own _ _ => False

/-- A block that waits for the one it has called: a user callback, or the closure that called it. -/
def Task.Waiting : Task ι φ ν → Prop
  | own _ (.user _ _ _) | own _ .called => True
  | _ => False

/-- The frame is in the signal closure of instance `h`, or about to call it. -/
def SignalDue (h : ι) (f : Frame (Lock ι) (Task ι φ ν)) : Prop :=
  match f.block with
  | some (.own h' (.lambda (.signal _ _))) => h' = h
  | _ => False

def InCallback (f : Frame (Lock ι) (Task ι φ ν)) : Prop :=
  match f.block with
  | some (.own _ (.user _ _ _)) => True
  | _ => False

def Runner.IsHost : Runner τ ι → Prop
  | host _ => True
  | worker _ => False

namespace Session

/-- What the thread runs was called by the host: from a thread of its own, or from a callback. -/
def CalledByHost (s : Session τ ι φ ν) (r : Runner τ ι) : Prop :=
  r.IsHost ∨ ∃ f ∈ s.config.stack r, InCallback f

/-- No host thread is in a user callback, and where the host has led to a signal closure, that finds
no `on_signal`. -/
structure HostsQuiet (s : Session τ ι φ ν) : Prop where
  code : ∀ t b, s.config.Running (.host t) b → b.HostCode
  signals : ∀ r, s.CalledByHost r → ∀ f ∈ s.config.stack r, ∀ h, SignalDue h f →
    (s.config.shared.callbacks h).onSignal = none

/-- The host changes no pin whose closure would find an `on_signal`, and an `on_signal` is
registered while the host has led no thread to the signal closure of its instance. -/
def KeepsQuiet (s : Session τ ι φ ν) : SessionAction τ ι φ ν → Prop
  | .run r _ =>
      match s.config.stack r with
      | .inside (.hal (.digitalWrite pin value)) :: _ =>
          s.CalledByHost r → s.config.shared.pins.Changes pin value →
            ∀ h ∈ s.config.shared.pins.callback, (s.config.shared.callbacks h).onSignal = none
      | .inside (.own h (.setCallbacks cbs)) :: _ =>
          cbs.onSignal.isSome = true →
            ∀ r, s.CalledByHost r → ∀ f ∈ s.config.stack r, ¬ SignalDue h f
      | _ => True
  | _ => True

/-- An invocation of a user callback is made by the worker of its instance, which exists and was
started; and one of `on_signal` comes from the firmware, not from a pin that the host has set. -/
def OnWorker [DecidableEq τ] [DecidableEq ι] (s : Session τ ι φ ν) (a : SessionAction τ ι φ ν) :
    Prop :=
  ∀ s' r h event cb ctx, (session τ ι φ ν).step s a =
      some (s', .thread (.saw r (h, .invoked event cb ctx))) →
    (r = .worker h ∧ ∃ i, s.process.instance? h = some i ∧ i.worker ≠ none) ∧
      ∀ pin value, event = .signal pin value → ¬ s.CalledByHost r

end Session

section Decidable

instance : DecidablePred (Runner.IsHost : Runner τ ι → Prop)
  | .host _ => .isTrue trivial
  | .worker _ => .isFalse id

instance [DecidableEq ι] (h : ι) (f : Frame (Lock ι) (Task ι φ ν)) : Decidable (SignalDue h f) := by
  dsimp only [SignalDue]
  rcases f.block with _ | (_ | ⟨_, _ | (_ | _ | _ | _) | _ | _ | _ | _ | _⟩)
  case some.own.lambda.signal => infer_instance
  all_goals exact .isFalse id

instance : DecidablePred (InCallback : Frame (Lock ι) (Task ι φ ν) → Prop) := fun f => by
  dsimp only [InCallback]
  rcases f.block with _ | (_ | ⟨_, _ | (_ | _ | _ | _) | _ | _ | _ | _ | _⟩)
  case some.own.user => exact .isTrue trivial
  all_goals exact .isFalse id

instance (s : Session τ ι φ ν) : DecidablePred s.CalledByHost := fun r =>
  inferInstanceAs (Decidable (r.IsHost ∨ ∃ f ∈ s.config.stack r, InCallback f))

instance [Fintype τ] [Fintype ι] (P : Runner τ ι → Prop) [DecidablePred P] :
    Decidable (∀ r, P r) :=
  decidable_of_iff ((∀ t, P (.host t)) ∧ ∀ h, P (.worker h))
    ⟨fun h r => match r with
      | .host t => h.1 t
      | .worker h' => h.2 h', fun h => ⟨fun t => h (.host t), fun h' => h (.worker h')⟩⟩

instance [Fintype τ] [Fintype ι] [DecidableEq ι] [DecidableEq φ] (s : Session τ ι φ ν)
    (a : SessionAction τ ι φ ν) : Decidable (s.KeepsQuiet a) := by
  rcases a with _ | _ | _ | _ | ⟨r, _⟩
  case run =>
    dsimp only [Session.KeepsQuiet]
    rcases s.config.stack r with _ | ⟨_ | (c | ⟨_, _ | _ | _ | _ | _ | _ | _⟩) | _, _⟩
    case cons.inside.hal =>
      rcases c with _ | _ | _ | _ | _ | _ | _ | _ | _ | _ | _ | _
      case digitalWrite => infer_instance
      all_goals exact .isTrue trivial
    case cons.inside.own.setCallbacks => infer_instance
    all_goals exact .isTrue trivial
  all_goals exact .isTrue trivial

end Decidable

theorem signalDue_iff {h : ι} {f : Frame (Lock ι) (Task ι φ ν)} : SignalDue h f ↔
    ∃ pin value, f.block = some (.own h (.lambda (.signal pin value))) := by
  constructor
  · intro hdue
    unfold SignalDue at hdue
    split at hdue
    next h' pin value hblock => exact ⟨pin, value, hdue ▸ hblock⟩
    next => exact hdue.elim
  · rintro ⟨pin, value, hblock⟩
    simp [SignalDue, hblock]

theorem inCallback_iff {f : Frame (Lock ι) (Task ι φ ν)} : InCallback f ↔
    ∃ h event cb ctx, f.block = some (.own h (.user event cb ctx)) := by
  constructor
  · intro hin
    unfold InCallback at hin
    split at hin
    next h event cb ctx hblock => exact ⟨h, event, cb, ctx, hblock⟩
    next => exact hin.elim
  · rintro ⟨h, event, cb, ctx, hblock⟩
    simp [InCallback, hblock]

section Confinement

variable [DecidableEq ι] {s : Shared ι φ ν} {b b' : Task ι φ ν} {c : Option UserCall}
  {e : Effect (Shared ι φ ν) (Task ι φ ν) (ι × DispatchEvent φ (Option ν))}

/-! ## What one step inside a block leads to -/

theorem exec_signal_quiet {h : ι} {pin value : Int} (hnone : (s.callbacks h).onSignal = none) :
    (Task.own h (.lambda (.signal pin value))).exec s c =
      some ⟨{ s with callbacks := Function.update s.callbacks h (s.callbacks h) }, none,
        .leave none⟩ := by
  simp only [Task.exec, Block.exec, Block.invoke, Shared.device, Callbacks.pointer, hnone]
  rfl

theorem Block.exec_names_lambda {d : Device φ (Option ν)} {b : Block φ (Option ν)} {l : Lambda}
    {e : Effect (Device φ (Option ν)) (Block φ (Option ν)) (DispatchEvent φ (Option ν))}
    (h : exec d b c = some e) (hnames : e.cont.Names (lambda l)) :
    ∃ call, b = hal call ∧ (d.hal call).2 = some l := by
  cases exec_cases h with
  | hal call =>
      obtain ⟨l', hl, heq⟩ := Option.map_eq_some_iff.mp hnames
      cases heq
      exact ⟨call, rfl, hl⟩
  | invoke l' ev cb hptr => rcases hnames with heq | heq <;> cases heq
  | lineConfigCall cb ctx settings => rcases hnames with heq | heq <;> cases heq
  | userCall ev cb ctx call => rcases hnames with heq | heq <;> cases heq
  | copy | setCallbacks => cases hnames
  | _ => cases hnames

omit [DecidableEq ι] in
theorem Shared.device_hal (s : Shared ι φ ν) (h : ι) (call : HalCall) :
    ((s.device h).hal call).2 = none := by
  by_contra hraised
  obtain ⟨l, hl⟩ := Option.ne_none_iff_exists'.mp hraised
  cases call with
  | write data =>
      obtain ⟨cb, hcb, -⟩ := Option.map_eq_some_iff.mp hl
      cases Serial.write_raised hcb
  | setLineConfig baud config =>
      obtain ⟨cb, hcb, -⟩ := Option.map_eq_some_iff.mp hl
      cases Serial.setLineConfig_raised hcb
  | setLineBaud baud =>
      obtain ⟨cb, hcb, -⟩ := Option.map_eq_some_iff.mp hl
      cases Serial.setLineBaud_raised hcb
  | digitalWrite pin value =>
      have hmap : ((Pins.initial (γ := Unit)).digitalWrite pin value).2.map
          (fun call => Lambda.signal call.2.1 call.2.2) = some l := hl
      obtain ⟨cb, hcb, -⟩ := Option.map_eq_some_iff.mp hmap
      cases (Pins.digitalWrite_raised hcb).2.1
  | _ => cases hl

/-- A block of an instance leads to no signal closure; a HAL call does if it changes a pin. -/
theorem signalDue_resume {f : Frame (Lock ι) (Task ι φ ν)} {h : ι} (hexec : b.exec s c = some e)
    (hf : f ∈ (tasks ι φ ν).resume b e.cont) (hdue : SignalDue h f) :
    ∃ pin value, b = .hal (.digitalWrite pin value) ∧ s.pins.Changes pin value ∧
      s.pins.callback = some h := by
  obtain ⟨pin, value, hblock⟩ := signalDue_iff.mp hdue
  have hnames := Program.names_of_mem_resume hf hblock
  cases b with
  | hal call =>
      cases hexec
      obtain ⟨⟨h', l⟩, hx, heq⟩ := Option.map_eq_some_iff.mp hnames
      cases heq
      cases call with
      | digitalWrite pin' value' =>
          obtain ⟨raised, hcb, heq⟩ := Option.map_eq_some_iff.mp hx
          obtain ⟨hchange, hslot, -⟩ := Pins.digitalWrite_raised hcb
          cases heq
          exact ⟨pin', value', rfl, hchange, hslot⟩
      | write data | setLineConfig baud config | setLineBaud baud | logWrite message =>
          obtain ⟨raised, -, heq⟩ := Option.map_eq_some_iff.mp hx
          cases heq
      | _ => cases hx
  | own h' blk =>
      obtain ⟨e', hblk, rfl⟩ := Option.map_eq_some_iff.mp hexec
      obtain ⟨b', hb', heq⟩ : ∃ b', e'.cont.Names b' ∧
          (Task.of h' b' : Task ι φ ν) = .own h (.lambda (.signal pin value)) := by
        cases hcont : e'.cont with
        | stay next call =>
            simp only [hcont, Cont.map] at hnames
            rcases hnames with hnext | hcall
            · exact ⟨next, .inl rfl, hnext⟩
            · obtain ⟨b', rfl, heq⟩ := Option.map_eq_some_iff.mp hcall
              exact ⟨b', .inr rfl, heq⟩
        | leave after =>
            simp only [hcont, Cont.map] at hnames
            obtain ⟨b', rfl, heq⟩ := Option.map_eq_some_iff.mp hnames
            exact ⟨b', rfl, heq⟩
      cases b' with
      | lambda l =>
          obtain ⟨call, -, hraised⟩ := Block.exec_names_lambda hblk hb'
          rw [Shared.device_hal] at hraised
          cases hraised
      | _ => cases heq

/-- Code that the host calls goes on with such code if no signal closure finds an `on_signal`. -/
theorem hostCode_resume (hb : b.HostCode)
    (hquiet : ∀ h pin value, b = .own h (.lambda (.signal pin value)) →
      (s.callbacks h).onSignal = none)
    (hexec : b.exec s c = some e) (hnames : e.cont.Names b') : b'.HostCode := by
  cases b with
  | hal call =>
      obtain ⟨ucall, rfl⟩ := hb
      cases hexec
      obtain ⟨⟨h', l⟩, hx, rfl⟩ := Option.map_eq_some_iff.mp hnames
      cases ucall with
      | setPin pin value =>
          obtain ⟨raised, -, heq⟩ := Option.map_eq_some_iff.mp hx
          cases heq
          trivial
      | _ => cases hx
  | own h blk =>
      cases blk with
      | setCallbacks cbs =>
          cases hexec
          cases hnames
          trivial
      | setCallbacksReturn cbs =>
          cases hexec
          cases hnames
      | lambda l =>
          cases l with
          | signal pin value =>
              rw [exec_signal_quiet (hquiet h pin value rfl)] at hexec
              cases hexec
              cases hnames
          | _ => exact hb.elim
      | _ => exact hb.elim

theorem hostCode_seen (hb : b.HostCode)
    (hquiet : ∀ h pin value, b = .own h (.lambda (.signal pin value)) →
      (s.callbacks h).onSignal = none)
    (hexec : b.exec s c = some e) (h : ι) (event : UserEvent) (cb : φ) (ctx : Option ν) :
    e.seen ≠ some (h, .invoked event cb ctx) := by
  intro hseen
  cases b with
  | hal call =>
      cases hexec
      cases hseen
  | own h' blk =>
      cases blk with
      | setCallbacks cbs | setCallbacksReturn cbs =>
          cases hexec
          cases hseen
      | lambda l =>
          cases l with
          | signal pin value =>
              rw [exec_signal_quiet (hquiet h' pin value rfl)] at hexec
              cases hexec
              cases hseen
          | _ => exact hb.elim
      | _ => exact hb.elim

theorem owner_of_seen {h : ι} {o : DispatchEvent φ (Option ν)} (hexec : b.exec s c = some e)
    (hseen : e.seen = some (h, o)) : b.owner = some h := by
  cases b with
  | hal call =>
      cases hexec
      cases hseen
  | own h' blk =>
      obtain ⟨e', -, rfl⟩ := Option.map_eq_some_iff.mp hexec
      obtain ⟨o', -, heq⟩ := Option.map_eq_some_iff.mp hseen
      cases heq
      rfl

omit [DecidableEq ι] in
theorem Block.invoke_seen {d : Device φ (Option ν)} {event event' : UserEvent} {cb : φ}
    {ctx : Option ν} (hseen : (invoke d event).seen = some (.invoked event' cb ctx)) :
    event' = event ∧ d.callbacks.pointer event = some cb := by
  unfold invoke at hseen
  split at hseen
  next => cases hseen
  next cb' hptr =>
    cases hseen
    exact ⟨rfl, hptr⟩

theorem signal_of_seen {h : ι} {pin value : Int} {cb : φ} {ctx : Option ν}
    (hexec : b.exec s c = some e)
    (hseen : e.seen = some (h, .invoked (.signal pin value) cb ctx)) :
    b = .own h (.lambda (.signal pin value)) ∧ (s.callbacks h).onSignal = some cb := by
  cases b with
  | hal call =>
      cases hexec
      cases hseen
  | own h' blk =>
      obtain ⟨e', hblock, rfl⟩ := Option.map_eq_some_iff.mp hexec
      obtain ⟨o, ho, heq⟩ := Option.map_eq_some_iff.mp hseen
      cases heq
      cases blk with
      | lambda l =>
          cases l with
          | signal pin' value' =>
              cases hblock
              obtain ⟨heq, hptr⟩ := Block.invoke_seen ho
              cases heq
              exact ⟨rfl, hptr⟩
          | dataReady | log message =>
              cases hblock
              cases (Block.invoke_seen ho).1
          | lineConfig baud config =>
              cases hblock
              cases ho
      | user event cb ctx => cases Block.exec_cases hblock <;> cases ho
      | _ =>
          cases hblock
          cases ho

theorem Task.exec_callbacks (hexec : b.exec s c = some e) : e.shared.callbacks = s.callbacks ∨
    ∃ h cbs, b = .own h (.setCallbacks cbs) ∧
      e.shared.callbacks = Function.update s.callbacks h cbs := by
  cases b with
  | hal call =>
      cases hexec
      cases call <;> exact .inl rfl
  | own h blk =>
      obtain ⟨e', hblock, rfl⟩ := Option.map_eq_some_iff.mp hexec
      rcases Block.exec_callbacks hblock with hsame | ⟨cbs, rfl, hnew⟩
      · left
        show Function.update s.callbacks h e'.shared.callbacks = s.callbacks
        rw [hsame]
        exact Function.update_eq_self h s.callbacks
      · exact .inr ⟨h, cbs, rfl, congrArg (Function.update s.callbacks h) hnew⟩

theorem waiting_of_stay (s : Shared ι φ ν) (b : Task ι φ ν) (c : Option UserCall)
    (e : Effect (Shared ι φ ν) (Task ι φ ν) (ι × DispatchEvent φ (Option ν)))
    (next call : Task ι φ ν)
    (hexec : b.exec s c = some e) (hcont : e.cont = .stay next (some call)) : next.Waiting := by
  cases b with
  | hal call =>
      cases hexec
      cases hcont
  | own h blk =>
      obtain ⟨e', hblock, rfl⟩ := Option.map_eq_some_iff.mp hexec
      cases Block.exec_cases hblock <;> cases hcont <;> trivial

namespace Session

variable [DecidableEq τ] {s s' : Session τ ι φ ν}

/-- Below the top of a stack there are only closures and user callbacks that wait. -/
def Nested (s : Session τ ι φ ν) : Prop := Program.Below Task.Waiting s.config

/-! ## The host stays quiet -/

section Exec

variable {r : Runner τ ι} {b : Task ι φ ν} {rest : List (Frame (Lock ι) (Task ι φ ν))}
  {e : Effect (Shared ι φ ν) (Task ι φ ν) (ι × DispatchEvent φ (Option ν))}

omit [DecidableEq ι] [DecidableEq τ] in
theorem not_signalDue_waiting {h : ι} (hb : b.Waiting) : ¬ SignalDue h (.inside b) := by
  intro hdue
  obtain ⟨pin, value, hblock⟩ := signalDue_iff.mp hdue
  cases hblock
  exact hb

def afterExec (s : Session τ ι φ ν) (r : Runner τ ι) (b : Task ι φ ν)
    (rest : List (Frame (Lock ι) (Task ι φ ν)))
    (e : Effect (Shared ι φ ν) (Task ι φ ν) (ι × DispatchEvent φ (Option ν))) :
    Session τ ι φ ν :=
  ⟨s.process, { s.config with shared := e.shared }.setStack r
    ((tasks ι φ ν).resume b e.cont ++ rest)⟩

theorem afterExec_stack {r' : Runner τ ι} (hr : r' ≠ r) :
    (s.afterExec r b rest e).config.stack r' = s.config.stack r' :=
  Config.setStack_other _ _ hr

theorem afterExec_stack_self :
    (s.afterExec r b rest e).config.stack r = (tasks ι φ ν).resume b e.cont ++ rest :=
  Config.setStack_self ..

theorem calledByHost_other {r' : Runner τ ι} (hr : r' ≠ r) :
    (s.afterExec r b rest e).CalledByHost r' ↔ s.CalledByHost r' := by
  rw [CalledByHost, afterExec_stack hr, CalledByHost]

theorem signalDue_afterExec (hnested : s.Nested) {choice : Option UserCall}
    (hstack : s.config.stack r = .inside b :: rest)
    (hexec : b.exec s.config.shared choice = some e) {r' : Runner τ ι}
    {f : Frame (Lock ι) (Task ι φ ν)} {h : ι}
    (hf : f ∈ (s.afterExec r b rest e).config.stack r') (hdue : SignalDue h f) :
    (r' ≠ r ∧ f ∈ s.config.stack r') ∨ r' = r ∧ ∃ pin value,
      b = .hal (.digitalWrite pin value) ∧ s.config.shared.pins.Changes pin value ∧
        s.config.shared.pins.callback = some h := by
  by_cases hr : r' = r
  · subst hr
    have hmem : f ∈ (tasks ι φ ν).resume b e.cont ++ rest := by
      simpa [afterExec] using hf
    rcases List.mem_append.mp hmem with hnew | hbelow
    · exact .inr ⟨rfl, signalDue_resume hexec hnew hdue⟩
    · obtain ⟨b', rfl, hwaiting⟩ := hnested r' f (by rwa [hstack])
      exact absurd hdue (not_signalDue_waiting hwaiting)
  · rw [afterExec_stack hr] at hf
    exact .inl ⟨hr, hf⟩

omit [DecidableEq ι] [DecidableEq τ] in
theorem HostsQuiet.top (hquiet : s.HostsQuiet) (hstack : s.config.stack r = .inside b :: rest)
    {t : τ} (hr : r = .host t) : b.HostCode ∧ ∀ h pin value,
      b = .own h (.lambda (.signal pin value)) →
        (s.config.shared.callbacks h).onSignal = none := by
  have hmem : Frame.inside b ∈ s.config.stack r := by simp [hstack]
  refine ⟨hquiet.code t b ⟨.inside b, hr ▸ hmem, rfl⟩, ?_⟩
  rintro h pin value rfl
  exact hquiet.signals r (.inl (hr ▸ trivial)) _ hmem h (signalDue_iff.mpr ⟨pin, value, rfl⟩)

theorem HostsQuiet.code_afterExec (hquiet : s.HostsQuiet) {choice : Option UserCall}
    (hstack : s.config.stack r = .inside b :: rest)
    (hexec : b.exec s.config.shared choice = some e) (t : τ) (b' : Task ι φ ν)
    (hrun : (s.afterExec r b rest e).config.Running (.host t) b') : b'.HostCode := by
  obtain ⟨f, hf, hblock⟩ := hrun
  by_cases hr : Runner.host t = r
  · have hmem : f ∈ (tasks ι φ ν).resume b e.cont ++ rest := by
      simpa [afterExec, hr] using hf
    rcases List.mem_append.mp hmem with hnew | hbelow
    · obtain ⟨hb, hsignal⟩ := hquiet.top hstack hr.symm
      exact hostCode_resume hb hsignal hexec (Program.names_of_mem_resume hnew hblock)
    · exact hquiet.code t b' ⟨f, by simp [hr, hstack, hbelow], hblock⟩
  · rw [afterExec_stack hr] at hf
    exact hquiet.code t b' ⟨f, hf, hblock⟩

/-- Registration: the new `on_signal` must find no signal closure that the host has led to. -/
theorem hostsQuiet_register (hquiet : s.HostsQuiet) (hnested : s.Nested)
    {choice : Option UserCall} {h : ι} {cbs : Callbacks φ (Option ν)}
    (hstack : s.config.stack r = .inside (.own h (.setCallbacks cbs)) :: rest)
    (hexec : (Task.own h (.setCallbacks cbs)).exec s.config.shared choice = some e) :
    (s.afterExec r (.own h (.setCallbacks cbs)) rest e).HostsQuiet ↔
      (cbs.onSignal.isSome = true →
        ∀ r, s.CalledByHost r → ∀ f ∈ s.config.stack r, ¬ SignalDue h f) := by
  have hnew : e.shared.callbacks = Function.update s.config.shared.callbacks h cbs := by
    cases hexec
    rfl
  have hnone : ∀ f ∈ s.config.stack r, ∀ h', ¬ SignalDue h' f := by
    intro f hf h' hdue
    rw [hstack] at hf
    rcases List.mem_cons.mp hf with rfl | hbelow
    · obtain ⟨pin, value, hblock⟩ := signalDue_iff.mp hdue
      cases hblock
    · obtain ⟨b', rfl, hwaiting⟩ := hnested r f (by rwa [hstack])
      exact not_signalDue_waiting hwaiting hdue
  constructor
  · intro hafter hsome r' hcalled f hf hdue
    have hr : r' ≠ r := by
      rintro rfl
      exact hnone f hf h hdue
    have hsignal := hafter.signals r' ((calledByHost_other hr).mpr hcalled) f
      (by rwa [afterExec_stack hr]) h hdue
    change (e.shared.callbacks h).onSignal = none at hsignal
    rw [hnew, Function.update_self] at hsignal
    rw [hsignal] at hsome
    cases hsome
  · intro hfree
    refine ⟨hquiet.code_afterExec hstack hexec, fun r' hcalled f hf h' hdue => ?_⟩
    rcases signalDue_afterExec hnested hstack hexec hf hdue with ⟨hr, hold⟩ |
      ⟨-, pin, value, hb, -⟩
    · have hcalled' := (calledByHost_other hr).mp hcalled
      show (e.shared.callbacks h').onSignal = none
      rw [hnew]
      by_cases hh : h' = h
      · subst hh
        rw [Function.update_self]
        cases hcb : cbs.onSignal with
        | none => rfl
        | some cb => exact absurd hdue (hfree (by simp [hcb]) r' hcalled' f hold)
      · rw [Function.update_of_ne hh]
        exact hquiet.signals r' hcalled' f hold h' hdue
    · cases hb

omit [DecidableEq ι] in
theorem not_inCallback_exit (m : Option (Lock ι)) (raised : Option (ι × Lambda)) :
    ¬ InCallback (.exit m (raised.map fun x => .own x.1 (.lambda x.2)) :
      Frame (Lock ι) (Task ι φ ν)) := by
  cases raised <;> exact id

/-- A HAL call leaves the callbacks below it where they are. -/
theorem calledByHost_hal {call : HalCall} {choice : Option UserCall}
    (hstack : s.config.stack r = .inside (.hal call) :: rest)
    (hexec : (Task.hal call).exec s.config.shared choice = some e) :
    (s.afterExec r (.hal call) rest e).CalledByHost r ↔ s.CalledByHost r := by
  have hnot : ¬ InCallback (.inside (.hal call) : Frame (Lock ι) (Task ι φ ν)) := id
  cases hexec
  rw [CalledByHost, afterExec_stack_self, CalledByHost, hstack]
  simp only [Program.resume, List.cons_append, List.nil_append, List.mem_cons, exists_eq_or_imp,
    not_inCallback_exit, hnot, false_or]

/-- A write to a pin: if the host has made it, its closure must find no `on_signal`. -/
theorem hostsQuiet_write (hquiet : s.HostsQuiet) (hnested : s.Nested) {choice : Option UserCall}
    {pin value : Int} (hstack : s.config.stack r = .inside (.hal (.digitalWrite pin value)) :: rest)
    (hexec : (Task.hal (.digitalWrite pin value)).exec s.config.shared choice = some e) :
    (s.afterExec r (.hal (.digitalWrite pin value)) rest e).HostsQuiet ↔
      (s.CalledByHost r → s.config.shared.pins.Changes pin value →
        ∀ h ∈ s.config.shared.pins.callback,
          (s.config.shared.callbacks h).onSignal = none) := by
  have hsame : e.shared.callbacks = s.config.shared.callbacks := by
    cases hexec
    rfl
  have hcalled_iff := calledByHost_hal hstack hexec
  constructor
  · intro hafter hcalled hchange h hslot
    have hraised := Pins.digitalWrite_loud hchange hslot
    have hsignal := hafter.signals r (hcalled_iff.mpr hcalled)
      (.exit (some (.module .pins)) (some (.own h (.lambda (.signal pin value)))))
      (by
        cases hexec
        simp [afterExec, Program.resume, Shared.hal, hraised, tasks, Task.guard, HalCall.mutex])
      h (signalDue_iff.mpr ⟨pin, value, rfl⟩)
    rw [← hsame]
    exact hsignal
  · intro hfree
    refine ⟨hquiet.code_afterExec hstack hexec, fun r' hcalled f hf h hdue => ?_⟩
    show (e.shared.callbacks h).onSignal = none
    rw [hsame]
    rcases signalDue_afterExec hnested hstack hexec hf hdue with ⟨hr, hold⟩ |
      ⟨rfl, pin₁, value₁, hb, hchange, hslot⟩
    · exact hquiet.signals r' ((calledByHost_other hr).mp hcalled) f hold h hdue
    · cases hb
      exact hfree (hcalled_iff.mp hcalled) hchange h hslot

theorem hostsQuiet_other (hquiet : s.HostsQuiet) (hnested : s.Nested) {choice : Option UserCall}
    (hstack : s.config.stack r = .inside b :: rest)
    (hexec : b.exec s.config.shared choice = some e)
    (hwrite : ∀ pin value, b ≠ .hal (.digitalWrite pin value))
    (hregister : ∀ h cbs, b ≠ .own h (.setCallbacks cbs)) :
    (s.afterExec r b rest e).HostsQuiet := by
  have hsame : e.shared.callbacks = s.config.shared.callbacks := by
    rcases Task.exec_callbacks hexec with hsame | ⟨h, cbs, hb, -⟩
    · exact hsame
    · exact absurd hb (hregister h cbs)
  refine ⟨hquiet.code_afterExec hstack hexec, fun r' hcalled f hf h hdue => ?_⟩
  show (e.shared.callbacks h).onSignal = none
  rw [hsame]
  rcases signalDue_afterExec hnested hstack hexec hf hdue with ⟨hr, hold⟩ |
    ⟨-, pin, value, hb, -⟩
  · exact hquiet.signals r' ((calledByHost_other hr).mp hcalled) f hold h hdue
  · exact absurd hb (hwrite pin value)

theorem hostsQuiet_exec (hquiet : s.HostsQuiet) (hnested : s.Nested) {choice : Option UserCall}
    (hstack : s.config.stack r = .inside b :: rest)
    (hexec : b.exec s.config.shared choice = some e) :
    (s.afterExec r b rest e).HostsQuiet ↔ s.KeepsQuiet (.run r choice) := by
  simp only [KeepsQuiet, hstack]
  split
  next heq =>
    cases heq
    exact hostsQuiet_write hquiet hnested hstack hexec
  next heq =>
    cases heq
    exact hostsQuiet_register hquiet hnested hstack hexec
  next hwrite hregister =>
    apply iff_of_true ?_ trivial
    apply hostsQuiet_other hquiet hnested hstack hexec
    · rintro pin value rfl
      exact hwrite pin value rest rfl
    · rintro h cbs rfl
      exact hregister h cbs rest rfl

end Exec

/-! ## What one step of the process keeps -/

section Steps

variable {a : SessionAction τ ι φ ν} {o : SessionEvent τ ι φ ν}

omit [DecidableEq ι] [DecidableEq τ] in
theorem Makes.entry {r : Runner τ ι} {b : Task ι φ ν} (hmakes : s.Makes a (.call r b)) :
    ((∃ call, b = .hal call) ∨ ∃ h cbs, b = .own h (.setCallbacks cbs)) ∧
      (r.IsHost → b.HostCode) := by
  cases hmakes with
  | call t h c =>
      cases c with
      | hal call => exact ⟨.inl ⟨_, rfl⟩, fun _ => ⟨call, rfl⟩⟩
      | setCallbacks cbs => exact ⟨.inr ⟨_, _, rfl⟩, fun _ => trivial⟩
  | firmware h c _ => exact ⟨.inl ⟨_, rfl⟩, fun hhost => hhost.elim⟩

theorem Nested.step (hnested : s.Nested) (hstep : (session τ ι φ ν).step s a = some (s', o)) :
    s'.Nested := by
  cases step_cases hstep with
  | life a p e _ _ => exact hnested
  | log h message p e _ _ =>
      intro r f hf
      by_cases hr : r = .worker h
      · subst hr
        rw [Config.setStack_self] at hf
        cases hf
      · rw [Config.setStack_other _ _ hr] at hf
        exact hnested r f hf
  | thread a b c e _ htask =>
      exact Program.Below.step (P := tasks ι φ ν) waiting_of_stay hnested htask

theorem hostsQuiet_outside (hquiet : s.HostsQuiet)
    {b : ThreadAction (Runner τ ι) (Task ι φ ν) (Option UserCall)}
    {c : Config (Shared ι φ ν) (Lock ι) (Task ι φ ν) (Runner τ ι)}
    {o : ThreadEvent (Runner τ ι) (ι × DispatchEvent φ (Option ν))} (hmakes : s.Makes a b)
    (hstep : (tasks ι φ ν).step s.config b = some (c, o)) (hshared : c.shared = s.config.shared)
    (hoff : ∀ r choice b₀ rest, b = .advance r choice → s.config.stack r ≠ .inside b₀ :: rest) :
    HostsQuiet (⟨s.process, c⟩ : Session τ ι φ ν) ↔ s.KeepsQuiet a := by
  have hbefore : ∀ r b', c.Running r b' → s.config.Running r b' ∨ b = .call r b' := by
    intro r b' hrun
    rcases Program.running_step hstep hrun with hold | ⟨hcall, -⟩ |
      ⟨choice, b₀, rest, e, ha, hstack, -⟩
    · exact .inl hold
    · exact .inr hcall
    · exact absurd hstack (hoff _ choice b₀ rest ha)
  apply iff_of_true
  · refine ⟨fun t b' hrun => ?_, fun r hcalled f hf h hdue => ?_⟩
    · rcases hbefore _ b' hrun with hold | rfl
      · exact hquiet.code t b' hold
      · exact (Makes.entry hmakes).2 trivial
    · show (c.shared.callbacks h).onSignal = none
      rw [hshared]
      obtain ⟨pin, value, hblock⟩ := signalDue_iff.mp hdue
      rcases hbefore r _ ⟨f, hf, hblock⟩ with ⟨g, hg, hgb⟩ | rfl
      · refine hquiet.signals r (hcalled.imp_right ?_) g hg h (signalDue_iff.mpr ⟨pin, value, hgb⟩)
        rintro ⟨f', hf', hin⟩
        obtain ⟨h', ev, cb, ctx, huser⟩ := inCallback_iff.mp hin
        rcases hbefore r _ ⟨f', hf', huser⟩ with ⟨g', hg', hgb'⟩ | rfl
        · exact ⟨g', hg', inCallback_iff.mpr ⟨h', ev, cb, ctx, hgb'⟩⟩
        · rcases (Makes.entry hmakes).1 with ⟨_, heq⟩ | ⟨_, _, heq⟩ <;> cases heq
      · rcases (Makes.entry hmakes).1 with ⟨_, heq⟩ | ⟨_, _, heq⟩ <;> cases heq
  · unfold KeepsQuiet
    split
    next r choice =>
      cases hmakes
      split
      next hstack => exact absurd hstack (hoff r choice _ _ rfl)
      next hstack => exact absurd hstack (hoff r choice _ _ rfl)
      next => trivial
    next => trivial

theorem hostsQuiet_log (hquiet : s.HostsQuiet) (h : ι) (message : List UInt8) (p : Process τ ι) :
    HostsQuiet (⟨p, s.config.setStack (.worker h)
      [.enter (.own h (.lambda (.log message)))]⟩ : Session τ ι φ ν) := by
  refine ⟨fun t b hrun => ?_, fun r hcalled f hf h' hdue => ?_⟩
  · obtain ⟨f, hf, hblock⟩ := hrun
    rw [Config.setStack_other _ _ (by simp)] at hf
    exact hquiet.code t b ⟨f, hf, hblock⟩
  · by_cases hr : r = .worker h
    · subst hr
      rw [Config.setStack_self, List.mem_singleton] at hf
      rw [hf] at hdue
      exact hdue.elim
    · rw [Config.setStack_other _ _ hr] at hf
      rw [CalledByHost, Config.setStack_other _ _ hr] at hcalled
      exact hquiet.signals r hcalled f hf h' hdue

/-- A step keeps the host quiet exactly if it is one of the allowed ones. -/
theorem hostsQuiet_step (hquiet : s.HostsQuiet) (hnested : s.Nested)
    (hstep : (session τ ι φ ν).step s a = some (s', o)) : s'.HostsQuiet ↔ s.KeepsQuiet a := by
  cases step_cases hstep with
  | life a p e _ _ => exact iff_of_true ⟨hquiet.code, hquiet.signals⟩ trivial
  | log h message p e _ _ => exact iff_of_true (hostsQuiet_log hquiet h message p) trivial
  | thread a b c e hmakes htask =>
      cases (tasks ι φ ν).step_cases htask with
      | call r b₀ _ _ =>
          apply hostsQuiet_outside hquiet hmakes htask rfl
          intro _ _ _ _ ha
          cases ha
      | lock r choice b₀ rest hstack hfree =>
          apply hostsQuiet_outside hquiet hmakes htask (by simp)
          intro _ _ _ _ ha hinside
          cases ha
          cases hstack.symm.trans hinside
      | exec r choice b₀ rest e hstack hexec =>
          cases hmakes with
          | run r choice => exact hostsQuiet_exec hquiet hnested hstack hexec
      | unlock r choice m after rest hstack =>
          apply hostsQuiet_outside hquiet hmakes htask (by simp)
          intro _ _ _ _ ha hinside
          cases ha
          cases hstack.symm.trans hinside

end Steps

/-! ## Who invokes the user -/

/-- Where the host is quiet, a user callback is invoked by the worker of its instance, and
`on_signal` for the firmware only. -/
theorem HostsQuiet.onWorker (hquiet : s.HostsQuiet) (hs : s.Sound) (a : SessionAction τ ι φ ν) :
    s.OnWorker a := by
  intro s' r h event cb ctx hstep
  generalize ho : SessionEvent.thread (.saw r (h, DispatchEvent.invoked event cb ctx)) = o at hstep
  cases step_cases hstep with
  | life a p e _ _ => cases ho
  | log h₁ message p e _ _ => cases ho
  | thread a b c e hmakes htask =>
      cases ho
      obtain ⟨choice, b₀, rest, e, -, hstack, hexec, hseen, -⟩ := (tasks ι φ ν).step_saw htask
      have hmem : Frame.inside b₀ ∈ s.config.stack r := by simp [hstack]
      constructor
      · cases r with
        | host t =>
            obtain ⟨hcode, hsignal⟩ := hquiet.top hstack rfl
            exact absurd hseen (hostCode_seen hcode hsignal hexec h event cb ctx)
        | worker h' =>
            obtain rfl : h = h' := hs.frames h' _ h hmem (owner_of_seen hexec hseen)
            obtain ⟨pc, hworker, -⟩ := hs.busy h (by simp [hstack])
            obtain ⟨i, hi, hat⟩ := Option.bind_eq_some_iff.mp hworker
            exact ⟨rfl, i, hi, by simp [hat]⟩
      · rintro pin value rfl hcalled
        obtain ⟨rfl, hregistered⟩ := signal_of_seen hexec hseen
        have hnone := hquiet.signals r hcalled _ hmem h (signalDue_iff.mpr ⟨pin, value, rfl⟩)
        rw [hregistered] at hnone
        cases hnone

/-- From a process in which nothing was created yet, in every interleaving of calls on live handles
with any firmware: the host stays away from the user's callbacks exactly if it changes no pin that
would raise an `on_signal`, on its own threads or from within a callback, and registers none while
it has led a thread to the signal closure; and then every callback is invoked by the worker of its
instance, after its start and before its deletion, and `on_signal` for changes of the firmware. -/
theorem callbacks_on_worker {as : List (SessionAction τ ι φ ν)}
    (hcontract : (session τ ι φ ν).Along Contract initial as)
    {os : List (SessionEvent τ ι φ ν)}
    (hrun : (session τ ι φ ν).run initial as = some (s, os)) :
    ((session τ ι φ ν).Throughout (fun _ s => s.HostsQuiet) initial as ↔
        (session τ ι φ ν).Along KeepsQuiet initial as) ∧
      ((session τ ι φ ν).Along KeepsQuiet initial as →
        (session τ ι φ ν).Along OnWorker initial as) := by
  have hexact : (session τ ι φ ν).Throughout (fun _ s => s.HostsQuiet) initial as ↔
      (session τ ι φ ν).Along KeepsQuiet initial as := by
    rw [← Machine.along_recorded hrun []]
    refine Machine.throughout_iff_recorded (J := fun _ s => s.Nested)
      (fun _ s a s' o hnested hstep => hnested.step hstep)
      (fun _ s a s' o hnested hquiet hstep => hostsQuiet_step hquiet hnested hstep) ?_ ?_ hrun
    · intro r f hf
      cases hf
    · refine ⟨?_, ?_⟩
      · rintro t b ⟨f, hf, -⟩
        cases hf
      · intro r _ f hf
        cases hf
  refine ⟨hexact, fun hrule => ?_⟩
  have hsound : (session τ ι φ ν).Throughout (fun _ s => s.Sound) initial as := by
    apply Machine.throughout_of_along (I := fun _ s => s.Sound) (G := Contract) ?_ sound_initial
      hcontract
    intro _ s a s' o hs ha hstep
    exact hs.step ha hstep
  have hquiet := hexact.mpr hrule
  have hboth : (session τ ι φ ν).Throughout (fun _ s => s.HostsQuiet ∧ s.Sound) initial as := by
    intro bs hbs s' os hrun'
    exact ⟨hquiet bs hbs s' os hrun', hsound bs hbs s' os hrun'⟩
  exact Machine.along_of_throughout (fun s a h => h.1.onWorker h.2 a) hboth

/-! ## A pin that the host changes -/

def listening : List (SessionAction Bool Unit Unit Unit) :=
  List.flatten [[.life (.create false (some ⟨some [46]⟩))], lives 4,
    [.life (.advance false (.allocated ()))], lives 6,
    [.call false () (.setCallbacks ⟨none, some (), none, none, none⟩)],
    List.replicate 6 (.run (.host false) none)]

/-- The thread starts the worker, whose firmware changes a pin; the other thread writes the value
that the pin has then. -/
def firmwareChanges : List (SessionAction Bool Unit Unit Unit) :=
  List.flatten [[.life (.start false (some ()))], lives 4,
    [.life (.work () .proceed), .firmware () (.digitalWrite 10 1)],
    List.replicate 9 (.run (.worker ()) none), [.call true () (.hal (.setPin 10 1))], runs 3]

theorem callbacks_on_worker_listening :
    (session Bool Unit Unit Unit).Along OnWorker initial (listening ++ firmwareChanges) :=
  have hrun : (session Bool Unit Unit Unit).run initial (listening ++ firmwareChanges) =
      some (_, _) := rfl
  (callbacks_on_worker (by decide +kernel) hrun).2 (by decide +kernel)

/-- A host thread changes a pin before there is a worker: it calls `on_signal` itself. -/
theorem not_callbacks_on_worker :
    ¬ ∀ as : List (SessionAction Bool Unit Unit Unit),
      (session Bool Unit Unit Unit).Along Contract initial as →
        (session Bool Unit Unit Unit).Along OnWorker initial as := by
  intro hall
  have hworker := hall (listening ++ [.call true () (.hal (.setPin 2 1))] ++ runs 4 ++ runs 1)
    (by decide +kernel)
  have hrun : (session Bool Unit Unit Unit).run initial
      (listening ++ [.call true () (.hal (.setPin 2 1))] ++ runs 4) = some (_, _) := rfl
  have hlast := ((Machine.along_append hrun).mp hworker).2.1
  obtain ⟨⟨hr, -⟩, -⟩ := hlast _ (.host true) () (.signal 2 1) () none rfl
  cases hr

end Session

end Confinement

end ZiModem.Wrapper
