import ZiModem.Reactive.Edges
import ZiModem.Wrapper.Dispatch

/-! # One thread and its notifications

A run of one thread, watched at three points of a HAL call: where the call
passes its critical section, where the closure it raises begins, and where the
user's callback begins. Pins and line settings are edge-triggered cells: between
calls, what was raised is what was written without immediate repeats, and what
the user was told last is what the process holds.
-/

namespace ZiModem.Wrapper

open Reactive ZiModem.Hal

/-- `HardwareSerialCompat::begin`, with or without the framing. The form that also takes two pins
ignores them. -/
def HalCall.begin (baud : Nat) : Option UInt32 → HalCall
  | none => .setLineBaud baud
  | some config => .setLineConfig baud config

/-! ## What is watched -/

def HalCall.writes (pin : Int) : HalCall → List Int
  | .digitalWrite p value => if p = pin then [value] else []
  | _ => []

def HalCall.lineAfter (line : Nat × UInt32) : HalCall → Nat × UInt32
  | .setLineConfig baud config => (baud, config)
  | .setLineBaud baud => (baud, line.2)
  | _ => line

def lineStates (line : Nat × UInt32) : List HalCall → List (Nat × UInt32)
  | [] => []
  | c :: calls => c.lineAfter line :: lineStates (c.lineAfter line) calls

def Lambda.signals (pin : Int) : Lambda → List Int
  | .signal p value => if p = pin then [value] else []
  | _ => []

def Lambda.lines : Lambda → List (Nat × UInt32)
  | .lineConfig baud config => [(baud, config)]
  | _ => []

/-- What a closure for a pin or for the line settings tells the user. -/
def Lambda.tells : Lambda → List UserEvent
  | .signal pin value => [.signal pin value]
  | .lineConfig baud config => [.lineConfig (.of baud config)]
  | _ => []

def UserEvent.told : UserEvent → List UserEvent
  | .signal pin value => [.signal pin value]
  | .lineConfig settings => [.lineConfig settings]
  | _ => []

/-- A HAL call leaves its critical section, the closure it raised begins, or the user's callback
does. -/
inductive Notice (φ ν : Type*)
  | called (c : HalCall)
  | raised (l : Lambda)
  | event (e : DispatchEvent φ ν)
  | quiet
  deriving DecidableEq, Repr

namespace Notice

variable {φ ν : Type*}

def calls : Notice φ ν → List HalCall
  | called c => [c]
  | _ => []

def closures : Notice φ ν → List Lambda
  | raised l => [l]
  | _ => []

def told : Notice φ ν → List UserEvent
  | event (.invoked e _ _) => e.told
  | _ => []

end Notice

section Watched

variable {φ ν : Type*}

def notice (s : Config (Device φ ν) Mutex (Block φ ν) Unit) :
    ThreadAction Unit (Block φ ν) (Option UserCall) → ThreadEvent Unit (DispatchEvent φ ν) →
      Notice φ ν
  | _, .saw _ e => .event e
  | .call _ _, .quiet _ => .quiet
  | .advance t _, .quiet _ =>
      match s.stack t with
      | .inside (.hal c) :: _ => .called c
      | .enter (.lambda l) :: _ => .raised l
      | _ => .quiet

theorem saw_of_notice {s : Config (Device φ ν) Mutex (Block φ ν) Unit}
    {a : ThreadAction Unit (Block φ ν) (Option UserCall)}
    {o : ThreadEvent Unit (DispatchEvent φ ν)} {e : DispatchEvent φ ν}
    (h : notice s a o = .event e) : ∃ t, o = .saw t e := by
  cases o with
  | saw t e' =>
      cases h
      exact ⟨t, rfl⟩
  | quiet t =>
      cases a with
      | call t b => cases h
      | advance t c =>
          simp only [notice] at h
          split at h <;> cases h

def soleThread (φ ν : Type*) : Machine (Config (Device φ ν) Mutex (Block φ ν) Unit)
    (ThreadAction Unit (Block φ ν) (Option UserCall)) (Notice φ ν) :=
  ((dispatch φ ν).threads Unit).observe notice

end Watched

/-! ## One call -/

theorem lineStates_snoc (line : Nat × UInt32) (calls : List HalCall) (c : HalCall) :
    lineStates line (calls ++ [c]) =
      lineStates line calls ++ [c.lineAfter ((lineStates line calls).getLastD line)] := by
  induction calls generalizing line with
  | nil => rfl
  | cons c' calls ih =>
      rw [List.cons_append, lineStates, ih, lineStates, List.getLastD_cons, List.cons_append]

structure Device.Armed {φ ν : Type*} (d : Device φ ν) : Prop where
  signal : d.pins.callback = some ()
  lineConfig : d.serial.lineConfigCallback = some ()

section Hal

variable {φ ν : Type*} {d : Device φ ν}

theorem Device.Armed.hal (h : d.Armed) (c : HalCall) : (d.hal c).1.Armed := by
  cases c with
  | setLineConfig baud config =>
      refine ⟨h.signal, ?_⟩
      show (d.serial.setLineConfig baud config).1.lineConfigCallback = some ()
      unfold Serial.setLineConfig
      split <;> exact h.lineConfig
  | setLineBaud baud =>
      refine ⟨h.signal, ?_⟩
      show (d.serial.setLineBaud baud).1.lineConfigCallback = some ()
      unfold Serial.setLineBaud
      split <;> exact h.lineConfig
  | _ => exact ⟨h.signal, h.lineConfig⟩

theorem hal_signals_of_quiet {c : HalCall} {pin : Int} (hc : c.writes pin = []) :
    (d.hal c).2.toList.flatMap (Lambda.signals pin) = [] ∧
      (d.hal c).1.pins.value pin = d.pins.value pin := by
  cases c with
  | digitalWrite p value =>
      have hp : p ≠ pin := by
        rintro rfl
        simp [HalCall.writes] at hc
      constructor
      · cases hcb : (d.pins.digitalWrite p value).2 with
        | none => simp [Device.hal, hcb]
        | some call =>
            have hargs : call.2.1 = p := by rw [(Pins.digitalWrite_raised hcb).2.2]
            simp [Device.hal, hcb, Lambda.signals, hargs, hp]
      · exact Function.update_of_ne hp.symm _ _
  | write data =>
      refine ⟨?_, rfl⟩
      cases hcb : (d.serial.write data).2 <;> simp [Device.hal, hcb, Lambda.signals]
  | setLineConfig baud config =>
      refine ⟨?_, rfl⟩
      cases hcb : (d.serial.setLineConfig baud config).2 <;> simp [Device.hal, hcb, Lambda.signals]
  | setLineBaud baud =>
      refine ⟨?_, rfl⟩
      cases hcb : (d.serial.setLineBaud baud).2 <;> simp [Device.hal, hcb, Lambda.signals]
  | logWrite message =>
      refine ⟨?_, rfl⟩
      cases hsink : d.sink <;> simp [Device.hal, hsink, Lambda.signals]
  | _ => exact ⟨rfl, rfl⟩

/-- A call sets the cell of a pin to what it writes there, and raises its changes. -/
theorem hal_signals (h : d.Armed) (c : HalCall) (pin : Int) {sets raised : List Int}
    (htracks : Tracks none (sets.map some) (raised.map some) (d.pins.value pin)) :
    Tracks none ((sets ++ c.writes pin).map some)
      ((raised ++ (d.hal c).2.toList.flatMap (Lambda.signals pin)).map some)
      ((d.hal c).1.pins.value pin) := by
  by_cases hc : c.writes pin = []
  · obtain ⟨hnone, hvalue⟩ := hal_signals_of_quiet (d := d) hc
    rw [hc, hnone, hvalue, List.append_nil, List.append_nil]
    exact htracks
  · cases c with
    | digitalWrite p value =>
        have hp : p = pin := by
          by_contra hp
          exact hc (if_neg hp)
        subst hp
        have hvalue : (d.hal (.digitalWrite p value)).1.pins.value p = some value :=
          Function.update_self ..
        have hset := htracks.set (some value)
        rw [hvalue]
        by_cases hsame : d.pins.value p = some value
        · have hnone : (d.hal (.digitalWrite p value)).2 = none := by
            simp [Device.hal, Pins.digitalWrite, Pins.Changes, hsame]
          simpa [HalCall.writes, hnone, hsame] using hset
        · have hraise : (d.hal (.digitalWrite p value)).2 = some (.signal p value) := by
            simp [Device.hal, Pins.digitalWrite_loud hsame h.signal]
          simpa [HalCall.writes, Lambda.signals, hraise, hsame] using hset
    | _ => exact absurd rfl hc

theorem hal_lines (h : d.Armed) (c : HalCall) {calls : List HalCall}
    {raised : List (Nat × UInt32)}
    (htracks : Tracks (0, 0) (lineStates (0, 0) calls) raised d.serial.getLineConfig) :
    Tracks (0, 0) (lineStates (0, 0) (calls ++ [c]))
      (raised ++ (d.hal c).2.toList.flatMap Lambda.lines) (d.hal c).1.serial.getLineConfig := by
  have hset := htracks.set (c.lineAfter d.serial.getLineConfig)
  have hboth : (d.hal c).1.serial.getLineConfig = c.lineAfter d.serial.getLineConfig ∧
      (d.hal c).2.toList.flatMap Lambda.lines =
        if d.serial.getLineConfig = c.lineAfter d.serial.getLineConfig then []
        else [c.lineAfter d.serial.getLineConfig] := by
    cases c with
    | setLineConfig baud config =>
        by_cases hsame : d.serial.lineBaud = baud ∧ d.serial.lineConfig = config
        · simp [Device.hal, Serial.setLineConfig, Serial.getLineConfig, HalCall.lineAfter, hsame]
        · simp [Device.hal, Serial.setLineConfig, Serial.getLineConfig, HalCall.lineAfter, hsame,
            h.lineConfig, Lambda.lines]
    | setLineBaud baud =>
        by_cases hsame : d.serial.lineBaud = baud
        · simp [Device.hal, Serial.setLineBaud, Serial.getLineConfig, HalCall.lineAfter, hsame]
        · simp [Device.hal, Serial.setLineBaud, Serial.getLineConfig, HalCall.lineAfter, hsame,
            h.lineConfig, Lambda.lines]
    | write data =>
        refine ⟨rfl, ?_⟩
        cases hcb : (d.serial.write data).2 <;>
          simp [Device.hal, hcb, Lambda.lines, HalCall.lineAfter]
    | digitalWrite pin value =>
        refine ⟨rfl, ?_⟩
        cases hcb : (d.pins.digitalWrite pin value).2 <;>
          simp [Device.hal, hcb, Lambda.lines, HalCall.lineAfter]
    | logWrite message =>
        refine ⟨rfl, ?_⟩
        cases hsink : d.sink <;> simp [Device.hal, hsink, Lambda.lines, HalCall.lineAfter]
    | _ => exact ⟨rfl, (if_pos rfl).symm⟩
  rw [lineStates_snoc, ← htracks.now_eq, hboth.1, hboth.2]
  exact hset

end Hal

/-! ## Runs -/

section Runs

variable {φ ν : Type*}

structure Callbacks.Hears (cbs : Callbacks φ ν) : Prop where
  onSignal : cbs.onSignal ≠ none
  onLineConfig : cbs.onLineConfig ≠ none

instance (cbs : Callbacks φ ν) : Decidable cbs.Hears :=
  decidable_of_iff (cbs.onSignal.isSome ∧ cbs.onLineConfig.isSome)
    ⟨fun h => ⟨Option.isSome_iff_ne_none.mp h.1, Option.isSome_iff_ne_none.mp h.2⟩,
      fun h => ⟨Option.isSome_iff_ne_none.mpr h.1, Option.isSome_iff_ne_none.mpr h.2⟩⟩

def KeepsHearing : ThreadAction Unit (Block φ ν) (Option UserCall) → Prop
  | .call _ (.setCallbacks cbs) => cbs.Hears
  | _ => True

instance : DecidablePred (KeepsHearing : ThreadAction Unit (Block φ ν) (Option UserCall) → Prop)
  | .call _ (.setCallbacks cbs) => inferInstanceAs (Decidable cbs.Hears)
  | .call _ (.hal _) | .call _ (.lambda _) | .call _ .called => .isTrue trivial
  | .call _ (.lineConfigCall _ _ _) | .call _ (.user _ _ _) => .isTrue trivial
  | .call _ (.setCallbacksReturn _) | .advance _ _ => .isTrue trivial

def willRaise : Frame Mutex (Block φ ν) → List Lambda
  | .enter (.lambda l) | .exit _ (some (.lambda l)) => [l]
  | _ => []

def willTell : Frame Mutex (Block φ ν) → List UserEvent
  | .inside (.lambda l) => l.tells
  | .enter (.lineConfigCall _ _ settings) | .inside (.lineConfigCall _ _ settings)
  | .exit _ (some (.lineConfigCall _ _ settings)) => [.lineConfig settings]
  | _ => []

/-- A frame that waits for the one above it: a user callback, or the closure that called it. -/
def Waits (f : Frame Mutex (Block φ ν)) : Prop :=
  (∃ e cb ctx, f = .inside (.user e cb ctx)) ∨ f = .inside .called

/-- In a step that makes no HAL call, the frames that replace the innermost one take over what that
was to raise and to tell. -/
structure HandsOn (f : Frame Mutex (Block φ ν)) (fs : List (Frame Mutex (Block φ ν)))
    (n : Notice φ ν) : Prop where
  waits : ∀ g ∈ fs.tail, Waits g
  replaced : ∀ g ∈ fs, ∀ cbs, g.block = some (.setCallbacks cbs) →
    f.block = some (.setCallbacks cbs)
  calls : n.calls = []
  raises : n.closures ++ fs.flatMap willRaise = willRaise f
  tells : n.told ++ fs.flatMap willTell = willTell f ++ n.closures.flatMap Lambda.tells

theorem handsOn_lock (s : Config (Device φ ν) Mutex (Block φ ν) Unit) {b : Block φ ν}
    {rest : List (Frame Mutex (Block φ ν))} {c : Option UserCall}
    (hstack : s.stack () = .enter b :: rest) :
    HandsOn (.enter b) [.inside b] (notice s (.advance () c) (.quiet ())) where
  waits := by simp
  replaced := by
    intro g hg cbs hblock
    rw [List.mem_singleton.mp hg] at hblock
    exact hblock
  calls := by cases b <;> simp [notice, hstack, Notice.calls]
  raises := by cases b <;> simp [notice, hstack, Notice.closures, willRaise]
  tells := by cases b <;> simp [notice, hstack, Notice.closures, Notice.told, willTell]

theorem handsOn_unlock (m : Option Mutex) (after : Option (Block φ ν)) :
    HandsOn (.exit m after) (after.map Frame.enter).toList .quiet where
  waits := by cases after <;> simp
  replaced := by
    intro g hg cbs hblock
    obtain ⟨b, rfl, rfl⟩ : ∃ b, after = some b ∧ g = .enter b := by
      cases after with
      | none => cases hg
      | some b => exact ⟨b, rfl, List.mem_singleton.mp hg⟩
    exact hblock
  calls := rfl
  raises := by
    cases after with
    | none => rfl
    | some b => cases b <;> rfl
  tells := by
    cases after with
    | none => rfl
    | some b => cases b <;> rfl

theorem handsOn_exec {d : Device φ ν} (hhears : d.callbacks.Hears) {b : Block φ ν}
    {c : Option UserCall} {e : Effect (Device φ ν) (Block φ ν) (DispatchEvent φ ν)}
    (hb : ∀ c, b ≠ .hal c) (hexec : b.exec d c = some e) :
    HandsOn (.inside b) ((dispatch φ ν).resume b e.cont) ((e.seen.map Notice.event).getD .quiet) ∧
      e.shared.pins = d.pins ∧ e.shared.serial = d.serial := by
  obtain ⟨onSignal, hsignal⟩ := Option.ne_none_iff_exists'.mp hhears.onSignal
  obtain ⟨onLine, hline⟩ := Option.ne_none_iff_exists'.mp hhears.onLineConfig
  cases b with
  | hal c => exact absurd rfl (hb c)
  | lambda l =>
      cases l with
      | signal pin value =>
          have he : e = ⟨d, some (.invoked (.signal pin value) onSignal d.callbacks.userContext),
              .stay .called (some (.user (.signal pin value) onSignal d.callbacks.userContext))⟩ := by
            simpa [Block.exec, Block.invoke, Callbacks.pointer, hsignal] using hexec.symm
          subst he
          refine ⟨⟨?_, ?_, rfl, rfl, rfl⟩, rfl, rfl⟩
          · simp [Program.resume, Waits]
          · simp [Program.resume, Frame.block]
      | lineConfig baud config =>
          have he : e = ⟨d, none, .leave (some (.lineConfigCall onLine d.callbacks.userContext
              (.of baud config)))⟩ := by
            simpa [Block.exec, hline] using hexec.symm
          subst he
          refine ⟨⟨?_, ?_, rfl, rfl, rfl⟩, rfl, rfl⟩
          · simp [Program.resume]
          · simp [Program.resume, Frame.block]
      | dataReady | log message =>
          cases hexec
          unfold Block.invoke
          split
          · refine ⟨⟨?_, ?_, rfl, rfl, rfl⟩, rfl, rfl⟩
            · simp [Program.resume]
            · simp [Program.resume, Frame.block]
          · refine ⟨⟨?_, ?_, rfl, rfl, rfl⟩, rfl, rfl⟩
            · simp [Program.resume, Waits]
            · simp [Program.resume, Frame.block]
  | called | lineConfigCall cb ctx settings | setCallbacksReturn cbs | setCallbacks cbs =>
      cases hexec
      refine ⟨⟨?_, ?_, rfl, rfl, rfl⟩, rfl, rfl⟩
      · simp [Program.resume]
      · simp [Program.resume, Frame.block]
  | user ev cb ctx =>
      cases c with
      | none | some call =>
          cases hexec
          refine ⟨⟨?_, ?_, rfl, rfl, rfl⟩, rfl, rfl⟩
          · simp [Program.resume, Waits]
          · simp [Program.resume, Frame.block]

/-- The cells follow the calls, and the user the closures; what is not raised or told yet is in the
hands of the innermost frame. -/
structure Follows (os : List (Notice φ ν)) (s : Config (Device φ ν) Mutex (Block φ ν) Unit) :
    Prop where
  armed : s.shared.Armed
  hears : s.shared.callbacks.Hears
  replaced : ∀ f ∈ s.stack (), ∀ cbs, f.block = some (.setCallbacks cbs) → cbs.Hears
  waits : ∀ f ∈ (s.stack ()).tail, Waits f
  pins : ∀ pin, Tracks none (((os.flatMap Notice.calls).flatMap (HalCall.writes pin)).map some)
    (((os.flatMap Notice.closures ++ (s.stack ()).flatMap willRaise).flatMap
      (Lambda.signals pin)).map some) (s.shared.pins.value pin)
  lines : Tracks (0, 0) (lineStates (0, 0) (os.flatMap Notice.calls))
    ((os.flatMap Notice.closures ++ (s.stack ()).flatMap willRaise).flatMap Lambda.lines)
    s.shared.serial.getLineConfig
  told : os.flatMap Notice.told ++ (s.stack ()).flatMap willTell =
    (os.flatMap Notice.closures).flatMap Lambda.tells

namespace Follows

variable {os : List (Notice φ ν)} {s s' : Config (Device φ ν) Mutex (Block φ ν) Unit}
  {n : Notice φ ν} {f : Frame Mutex (Block φ ν)} {fs rest : List (Frame Mutex (Block φ ν))}

theorem waits_of_stack (h : Follows os s) (hstack : s.stack () = f :: rest) :
    ∀ g ∈ rest, Waits g := by
  intro g hg
  apply h.waits
  rw [hstack]
  exact hg

theorem quiet_of_stack (h : Follows os s) (hstack : s.stack () = f :: rest) :
    rest.flatMap willRaise = [] ∧ rest.flatMap willTell = [] := by
  constructor
  · apply List.flatMap_eq_nil_iff.mpr
    intro g hg
    rcases h.waits_of_stack hstack g hg with ⟨_, _, _, rfl⟩ | rfl <;> rfl
  · apply List.flatMap_eq_nil_iff.mpr
    intro g hg
    rcases h.waits_of_stack hstack g hg with ⟨_, _, _, rfl⟩ | rfl <;> rfl

theorem frames (h : Follows os s) (hstack : s.stack () = f :: rest)
    (hstack' : s'.stack () = fs ++ rest) (hwaits : ∀ g ∈ fs.tail, Waits g)
    (hreplaced : ∀ g ∈ fs, ∀ cbs, g.block = some (.setCallbacks cbs) →
      f.block = some (.setCallbacks cbs)) :
    (∀ g ∈ s'.stack (), ∀ cbs, g.block = some (.setCallbacks cbs) → cbs.Hears) ∧
      ∀ g ∈ (s'.stack ()).tail, Waits g := by
  have hrest := h.waits_of_stack hstack
  have hbefore := h.replaced
  rw [hstack] at hbefore
  rw [hstack']
  constructor
  · intro g hg cbs hblock
    rcases List.mem_append.mp hg with hg | hg
    · exact hbefore f List.mem_cons_self cbs (hreplaced g hg cbs hblock)
    · exact hbefore g (List.mem_cons_of_mem _ hg) cbs hblock
  · intro g hg
    cases fs with
    | nil => exact hrest g (List.mem_of_mem_tail hg)
    | cons f' fs =>
        rcases List.mem_append.mp hg with hg | hg
        · exact hwaits g hg
        · exact hrest g hg

theorem move (h : Follows os s) (hstack : s.stack () = f :: rest)
    (hstack' : s'.stack () = fs ++ rest) (hands : HandsOn f fs n)
    (hpins : s'.shared.pins = s.shared.pins) (hserial : s'.shared.serial = s.shared.serial)
    (hhears : s'.shared.callbacks.Hears) : Follows (os ++ [n]) s' := by
  have hframes := h.frames hstack hstack' hands.waits hands.replaced
  obtain ⟨hnoraise, hnotell⟩ := h.quiet_of_stack hstack
  have hraised : (os ++ [n]).flatMap Notice.closures ++ (s'.stack ()).flatMap willRaise =
      os.flatMap Notice.closures ++ (s.stack ()).flatMap willRaise := by
    simp only [hstack, hstack', List.flatMap_append, List.flatMap_cons, List.flatMap_nil,
      List.append_nil, hnoraise]
    rw [List.append_assoc, hands.raises]
  have hcalled : (os ++ [n]).flatMap Notice.calls = os.flatMap Notice.calls := by
    simp [hands.calls]
  constructor
  · exact ⟨hpins ▸ h.armed.signal, hserial ▸ h.armed.lineConfig⟩
  · exact hhears
  · exact hframes.1
  · exact hframes.2
  · intro pin
    rw [hraised, hcalled, hpins]
    exact h.pins pin
  · rw [hraised, hcalled, hserial]
    exact h.lines
  · have hbefore := h.told
    simp only [hstack, hstack', List.flatMap_append, List.flatMap_cons, List.flatMap_nil,
      List.append_nil, hnotell] at hbefore ⊢
    rw [List.append_assoc, hands.tells, ← List.append_assoc, hbefore]

theorem called (h : Follows os s) {c : HalCall} (hstack : s.stack () = .inside (.hal c) :: rest)
    {m : Option Mutex} (hstack' : s'.stack () = .exit m ((s.shared.hal c).2.map .lambda) :: rest)
    (hshared : s'.shared = (s.shared.hal c).1) (hhears : s'.shared.callbacks.Hears) :
    Follows (os ++ [.called c]) s' := by
  have happend : s'.stack () = [.exit m ((s.shared.hal c).2.map .lambda)] ++ rest := hstack'
  have hframes := h.frames hstack happend (by simp) (by
      intro f hf cbs hblock
      rw [List.mem_singleton.mp hf] at hblock
      cases hlambda : (s.shared.hal c).2 <;> simp [Frame.block, hlambda] at hblock)
  obtain ⟨hnoraise, hnotell⟩ := h.quiet_of_stack hstack
  have hbefore : os.flatMap Notice.closures ++ (s.stack ()).flatMap willRaise =
      os.flatMap Notice.closures := by
    simp [hstack, hnoraise, willRaise]
  have hraised : (os ++ [Notice.called c]).flatMap Notice.closures ++
      (s'.stack ()).flatMap willRaise =
        os.flatMap Notice.closures ++ (s.shared.hal c).2.toList := by
    cases hlambda : (s.shared.hal c).2 <;>
      simp [hstack', hlambda, hnoraise, willRaise, Notice.closures]
  have hcalled : (os ++ [Notice.called c]).flatMap Notice.calls = os.flatMap Notice.calls ++ [c] := by
    simp [Notice.calls]
  constructor
  · rw [hshared]
    exact h.armed.hal c
  · exact hhears
  · exact hframes.1
  · exact hframes.2
  · intro pin
    have hpins := h.pins pin
    rw [hbefore] at hpins
    have hstep := hal_signals h.armed c pin hpins
    rw [hraised, hcalled, hshared, List.flatMap_append, List.flatMap_append, List.flatMap_singleton]
    exact hstep
  · have hlines := h.lines
    rw [hbefore] at hlines
    have hstep := hal_lines h.armed c hlines
    rw [hraised, hcalled, hshared, List.flatMap_append]
    exact hstep
  · have htold := h.told
    cases hlambda : (s.shared.hal c).2 <;>
      simpa [hstack, hstack', hlambda, hnotell, willTell, Notice.closures, Notice.told] using htold

theorem begins (h : Follows os s) {b : Block φ ν} (hentry : b.entry = true)
    (hb : ∀ cbs, b = .setCallbacks cbs → cbs.Hears) (hstack : s.stack () = [])
    (hstack' : s'.stack () = [.enter b]) (hshared : s'.shared = s.shared) :
    Follows (os ++ [.quiet]) s' := by
  have hquiet : (∀ pin, (willRaise (.enter b)).flatMap (Lambda.signals pin) = []) ∧
      (willRaise (.enter b)).flatMap Lambda.lines = [] ∧ willTell (.enter b) = [] := by
    cases b with
    | hal c | setCallbacks cbs => exact ⟨fun _ => rfl, rfl, rfl⟩
    | lambda l =>
        cases l with
        | log message => exact ⟨fun _ => rfl, rfl, rfl⟩
        | _ => cases hentry
    | _ => cases hentry
  have hsame : ∀ {β : Type} (g : Notice φ ν → List β), g .quiet = [] →
      (os ++ [Notice.quiet]).flatMap g = os.flatMap g := by
    intro β g hg
    simp [hg]
  constructor
  · exact hshared ▸ h.armed
  · exact hshared ▸ h.hears
  · intro f hf cbs hblock
    rw [hstack', List.mem_singleton] at hf
    subst hf
    exact hb cbs (Option.some.inj hblock)
  · simp [hstack']
  · intro pin
    have hpins := h.pins pin
    rw [hsame Notice.calls rfl, hsame Notice.closures rfl, hstack', hshared]
    simpa [hstack, hquiet.1] using hpins
  · have hlines := h.lines
    rw [hsame Notice.calls rfl, hsame Notice.closures rfl, hstack', hshared]
    simpa [hstack, hquiet.2.1] using hlines
  · have htold := h.told
    rw [hsame Notice.told rfl, hsame Notice.closures rfl, hstack']
    simpa [hstack, hquiet.2.2] using htold

theorem step (h : Follows os s) {a : ThreadAction Unit (Block φ ν) (Option UserCall)}
    (ha : KeepsHearing a) (hstep : (soleThread φ ν).step s a = some (s', n)) :
    Follows (os ++ [n]) s' := by
  obtain ⟨o, hthread, rfl⟩ := Machine.observe_step_iff.mp hstep
  cases (dispatch φ ν).step_cases hthread with
  | call t b hentry hstack =>
      apply h.begins hentry ?_ hstack (Config.setStack_self ..) rfl
      rintro cbs rfl
      exact ha
  | lock t c b rest hstack hfree =>
      apply h.move hstack (Config.setStack_self ..) (handsOn_lock s hstack)
      · simp
      · simp
      · simpa using h.hears
  | exec t c b rest e hstack hexec =>
      by_cases hb : ∃ call, b = .hal call
      · obtain ⟨call, rfl⟩ := hb
        cases hexec
        have hnotice : notice s (.advance () c) (.quiet ()) = .called call := by
          simp [notice, hstack]
        show Follows (os ++ [notice s (.advance () c) (.quiet ())]) _
        rw [hnotice]
        apply h.called hstack (Config.setStack_self ..) rfl
        show (s.shared.hal call).1.callbacks.Hears
        rw [Block.hal_callbacks]
        exact h.hears
      · rw [not_exists] at hb
        have hnotice : notice s (.advance () c) ((e.seen.map (ThreadEvent.saw ())).getD (.quiet ())) =
            (e.seen.map Notice.event).getD .quiet := by
          cases e.seen with
          | some o => rfl
          | none => cases b <;> simp_all [notice]
        obtain ⟨hands, hpins, hserial⟩ := handsOn_exec h.hears hb hexec
        show Follows (os ++ [notice s (.advance () c) _]) _
        rw [hnotice]
        apply h.move hstack (Config.setStack_self ..) hands
        · exact hpins
        · exact hserial
        rcases Block.exec_callbacks hexec with hsame | ⟨cbs, rfl, hcbs⟩
        · exact hsame ▸ h.hears
        · show e.shared.callbacks.Hears
          rw [hcbs]
          exact h.replaced _ (hstack ▸ List.mem_cons_self) cbs rfl
  | unlock t c m after rest hstack =>
      have hnotice : notice s (.advance () c) (.quiet ()) = .quiet := by
        simp [notice, hstack]
      show Follows (os ++ [notice s (.advance () c) (.quiet ())]) _
      rw [hnotice]
      apply h.move hstack (Config.setStack_self ..) (handsOn_unlock m after)
      · simp
      · simp
      · simpa using h.hears

end Follows

/-- No pin was written yet, the line is not configured, and both closures are installed: the state
that `create` leaves in a fresh process. -/
structure Device.Reset (d : Device φ ν) : Prop where
  armed : d.Armed
  value : ∀ pin, d.pins.value pin = none
  line : d.serial.getLineConfig = (0, 0)

theorem follows_idle {d : Device φ ν} (hd : d.Reset) (hhears : d.callbacks.Hears) :
    Follows [] (Config.idle d) where
  armed := hd.armed
  hears := hhears
  replaced := by simp [Config.idle]
  waits := by simp [Config.idle]
  pins := by
    intro pin
    rw [show (Config.idle d : Config _ Mutex (Block φ ν) Unit).shared = d from rfl, hd.value pin]
    exact Tracks.start none
  lines := by
    rw [show (Config.idle d : Config _ Mutex (Block φ ν) Unit).shared = d from rfl, hd.line]
    exact Tracks.start (0, 0)
  told := rfl

/-- What `zimodem_host_get_line_config` returns on a live handle. -/
def Device.getLineConfig (d : Device φ ν) : LineSettings :=
  LineSettings.of d.serial.getLineConfig.1 d.serial.getLineConfig.2

/-- The writes to a pin and the values that closures report of it. -/
def writesTo (pin : Int) (os : List (Notice φ ν)) : List Int :=
  (os.flatMap Notice.calls).flatMap (HalCall.writes pin)

def signalsOf (pin : Int) (os : List (Notice φ ν)) : List Int :=
  (os.flatMap Notice.closures).flatMap (Lambda.signals pin)

def linesOf (os : List (Notice φ ν)) : List (Nat × UInt32) :=
  (os.flatMap Notice.closures).flatMap Lambda.lines

/-- Notification is exact. Between calls, the events of a pin are its writes without immediate
repeats, those of the line are its states from `(0, 0)` on without immediate repeats, the user was
told of just these, and the last ones give the current state. A pin always reads as what was last
written to it, and `on_line_config` begins with what the host would read at that moment. -/
structure ExactEdges (os : List (Notice φ ν)) (s : Config (Device φ ν) Mutex (Block φ ν) Unit) :
    Prop where
  signals : s.stack () = [] → ∀ pin, signalsOf pin os = (writesTo pin os).destutter (· ≠ ·)
  reads : ∀ pin, s.shared.pins.digitalRead pin = (writesTo pin os).getLastD 0
  lines : s.stack () = [] → (0, 0) :: linesOf os =
    ((0, 0) :: lineStates (0, 0) (os.flatMap Notice.calls)).destutter (· ≠ ·)
  told : s.stack () = [] → os.flatMap Notice.told =
    (os.flatMap Notice.closures).flatMap Lambda.tells
  folded : s.stack () = [] → (∀ pin, (signalsOf pin os).getLastD 0 = s.shared.pins.digitalRead pin) ∧
    (linesOf os).getLastD (0, 0) = s.shared.serial.getLineConfig
  current : ∀ xs settings cb ctx, os = xs ++ [.event (.invoked (.lineConfig settings) cb ctx)] →
    settings = s.shared.getLineConfig

theorem follows_of_run {d : Device φ ν} (hd : d.Reset) (hhears : d.callbacks.Hears)
    {as : List (ThreadAction Unit (Block φ ν) (Option UserCall))} (has : ∀ a ∈ as, KeepsHearing a)
    {s : Config (Device φ ν) Mutex (Block φ ν) Unit} {os : List (Notice φ ν)}
    (hrun : (soleThread φ ν).run (Config.idle d) as = some (s, os)) : Follows os s :=
  Machine.history_along (G := fun _ a => KeepsHearing a) (fun _ _ _ _ _ h ha hstep => h.step ha hstep)
    (follows_idle hd hhears) (Machine.along_of_mem has _) hrun

theorem last_told {closures : List Lambda} {told : List UserEvent} {settings : LineSettings}
    (h : closures.flatMap Lambda.tells = told ++ [.lineConfig settings]) :
    settings = LineSettings.of ((closures.flatMap Lambda.lines).getLastD (0, 0)).1
      ((closures.flatMap Lambda.lines).getLastD (0, 0)).2 := by
  induction closures using List.reverseRecOn with
  | nil => simp at h
  | append_singleton closures l ih =>
      rw [List.flatMap_append, List.flatMap_singleton] at h ⊢
      cases l with
      | lineConfig baud config =>
          simp only [Lambda.tells, List.append_singleton_inj] at h
          simp only [Lambda.lines, List.getLastD_concat]
          exact (UserEvent.lineConfig.inj h.2).symm
      | signal pin value =>
          simp only [Lambda.tells, List.append_singleton_inj] at h
          exact absurd h.2 (by simp)
      | dataReady | log message =>
          simp only [Lambda.tells, Lambda.lines, List.append_nil] at h ⊢
          exact ih h

theorem exec_begins_lineConfig {d : Device φ ν} {b : Block φ ν} {c : Option UserCall}
    {e : Effect (Device φ ν) (Block φ ν) (DispatchEvent φ ν)} {settings : LineSettings} {cb : φ}
    {ctx : ν} (hexec : b.exec d c = some e)
    (hseen : e.seen = some (.invoked (.lineConfig settings) cb ctx)) :
    b = .lineConfigCall cb ctx settings ∧ e.shared = d := by
  cases b with
  | lambda l =>
      cases l with
      | lineConfig baud config =>
          cases hexec
          cases hseen
      | dataReady | signal pin value | log message =>
          cases hexec
          unfold Block.invoke at hseen
          split at hseen <;> cases hseen
  | lineConfigCall cb' ctx' settings' =>
      cases hexec
      cases hseen
      exact ⟨rfl, rfl⟩
  | user ev cb ctx => cases c <;> cases hexec <;> cases hseen
  | _ =>
      cases hexec
      cases hseen

/-- `on_line_config` begins with the settings that the process holds. -/
theorem Follows.current {os : List (Notice φ ν)} {s s' : Config (Device φ ν) Mutex (Block φ ν) Unit}
    (h : Follows os s) {a : ThreadAction Unit (Block φ ν) (Option UserCall)}
    {settings : LineSettings} {cb : φ} {ctx : ν}
    (hstep : (soleThread φ ν).step s a =
      some (s', .event (.invoked (.lineConfig settings) cb ctx))) :
    settings = s'.shared.getLineConfig := by
  obtain ⟨o, hthread, hnotice⟩ := Machine.observe_step_iff.mp hstep
  obtain ⟨t, rfl⟩ := saw_of_notice hnotice
  cases hnotice
  obtain ⟨c, b, rest, e, rfl, hstack, hexec, hseen, rfl⟩ := (dispatch φ ν).step_saw hthread
  obtain ⟨rfl, hshared⟩ := exec_begins_lineConfig hexec hseen
  have htold := h.told
  rw [hstack, List.flatMap_cons, (h.quiet_of_stack hstack).2, List.append_nil] at htold
  have hlines := h.lines.getLastD_raised
  simp only [hstack, List.flatMap_cons, (h.quiet_of_stack hstack).1, willRaise,
    List.append_nil] at hlines
  have hlast := last_told htold.symm
  rw [hlines] at hlast
  rw [Config.setStack_shared, hshared]
  exact hlast

theorem getD_getLastD_some (xs : List Int) :
    ((xs.map some).getLastD none).getD 0 = xs.getLastD 0 := by
  rcases List.eq_nil_or_concat xs with rfl | ⟨xs, x, rfl⟩
  · rfl
  · simp

/-- In every run of one thread from the reset state, with callbacks registered throughout,
notification is exact. -/
theorem exactEdges_of_run {d : Device φ ν} (hd : d.Reset) (hhears : d.callbacks.Hears)
    {as : List (ThreadAction Unit (Block φ ν) (Option UserCall))} (has : ∀ a ∈ as, KeepsHearing a) :
    (soleThread φ ν).Throughout ExactEdges (Config.idle d) as := by
  intro bs hbs s os hrun
  have hheard : ∀ a ∈ bs, KeepsHearing a := fun a ha => has a (hbs.subset ha)
  have h := follows_of_run hd hhears hheard hrun
  have hpins : s.stack () = [] → ∀ pin, Tracks none ((writesTo pin os).map some)
      ((signalsOf pin os).map some) (s.shared.pins.value pin) := by
    intro hidle pin
    have hpin := h.pins pin
    rw [hidle, List.flatMap_nil, List.append_nil] at hpin
    exact hpin
  have hlines : s.stack () = [] → Tracks (0, 0) (lineStates (0, 0) (os.flatMap Notice.calls))
      (linesOf os) s.shared.serial.getLineConfig := by
    intro hidle
    have hline := h.lines
    rw [hidle, List.flatMap_nil, List.append_nil] at hline
    exact hline
  constructor
  · intro hidle pin
    have hraised := (hpins hidle pin).raised_eq
    rw [edges_none] at hraised
    exact List.map_injective_iff.mpr (Option.some_injective _) hraised
  · intro pin
    rw [Pins.digitalRead, (h.pins pin).now_eq, getD_getLastD_some]
    rfl
  · intro hidle
    rw [← cons_edges, (hlines hidle).raised_eq]
  · intro hidle
    have htold := h.told
    rw [hidle, List.flatMap_nil, List.append_nil] at htold
    exact htold
  · intro hidle
    constructor
    · intro pin
      rw [Pins.digitalRead, ← (hpins hidle pin).getLastD_raised, getD_getLastD_some]
    · exact (hlines hidle).getLastD_raised
  · rintro xs settings cb ctx rfl
    obtain ⟨as₁, a, s₁, rfl, hbefore, hstep⟩ := Machine.run_last hrun
    exact (follows_of_run hd hhears (fun a ha => hheard a (List.mem_append_left _ ha))
      hbefore).current hstep

/-- A process that just made an instance and has a consumer for everything. -/
def Device.fresh : Device Unit Unit :=
  ⟨(Serial.initial.setDataReadyCallback (some ())).setLineConfigCallback (some ()),
    Pins.initial.setSignalCallback (some ()), some (), ⟨some (), some (), some (), some (), ()⟩⟩

def soloCall (c : HalCall) (steps : Nat) :
    List (ThreadAction Unit (Block Unit Unit) (Option UserCall)) :=
  .call () (.hal c) :: List.replicate steps (.advance () none)

/-- The firmware configures the line, drops DCD, repeats both, and changes the baud rate only. -/
def lineAndPin : List (ThreadAction Unit (Block Unit Unit) (Option UserCall)) :=
  List.flatten [soloCall (.begin 1200 (some 0x1c)) 10, soloCall (.digitalWrite 10 1) 10,
    soloCall (.begin 1200 none) 3, soloCall (.digitalWrite 10 1) 3, soloCall (.begin 9600 none) 10]

theorem exactEdges_lineAndPin :
    ∃ s os, (soleThread Unit Unit).run (Config.idle .fresh) lineAndPin = some (s, os) ∧
      s.stack () = [] ∧ signalsOf 10 os = [1] ∧ linesOf os = [(1200, 0x1c), (9600, 0x1c)] ∧
      ExactEdges os s := by
  have hrun : (soleThread Unit Unit).run (Config.idle .fresh) lineAndPin = some (_, _) := rfl
  have hexact := exactEdges_of_run (d := .fresh) ⟨⟨rfl, rfl⟩, fun _ => rfl, rfl⟩
    (by decide) (show ∀ a ∈ lineAndPin, KeepsHearing a by decide)
  exact ⟨_, _, hrun, rfl, by decide, by decide, hexact _ List.prefix_rfl _ _ hrun⟩

end Runs

end ZiModem.Wrapper
