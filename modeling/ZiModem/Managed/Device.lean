import ZiModem.Managed.SignalView
import ZiModem.Wrapper.SessionOrder

/-! # `ZiModemDevice`

The managed class over the C ABI. Its methods test and set their two flags
without a lock, each access being a step of its own, and call the native library
in between; while such a call lasts, the thread is inside the native process. A
constructor that throws leaves an object that nobody has a reference to. Events
are raised on the native side and are not among the steps here: what a handler
calls is a call made by a user callback.
-/

namespace ZiModem.Managed

open Reactive ZiModem.Hal ZiModem.Wrapper

/-- What the methods throw; `external` stands for a C++ exception that leaves a native function. -/
inductive DeviceException
  | argument
  | directory
  | invalidOperation
  | objectDisposed
  | external
  deriving DecidableEq, Repr

/-- The fields `_handle`, `_started` and `_disposed`. -/
structure ZiModemDevice (ι : Type*) where
  handle : ι
  started : Bool
  disposed : Bool
  deriving DecidableEq, Repr

inductive Object (ι : Type*)
  | absent
  | constructing
  | ready (o : ZiModemDevice ι)
  deriving DecidableEq, Repr

structure Delegates (φ : Type*) where
  onSerialOutNative : φ
  onSignalNative : φ
  onLogNative : φ
  onLineConfigNative : φ
  deriving DecidableEq, Repr

/-- What the constructor passes to `zimodem_host_set_callbacks`, with a null context. -/
def Delegates.callbacks {φ ν : Type*} (f : Delegates φ) : Callbacks φ (Option ν) :=
  ⟨some f.onSerialOutNative, some f.onSignalNative, some f.onLogNative, some f.onLineConfigNative,
    none⟩

inductive DeviceCall
  | writeSerial (data : List UInt8)
  | setPin (pin : ZimodemPin) (state : ZimodemPinState)
  | getLineConfig
  deriving DecidableEq, Repr

def DeviceCall.native : DeviceCall → UserCall
  | writeSerial data => .writeSerial data
  | setPin pin state => Managed.setPin pin state
  | getLineConfig => .getLineConfig

/-- Where a thread stands in a method: about to make a native call, inside one, or about to look at
or to set a flag. -/
inductive MethodPc (δ ι : Type*)
  | create (d : δ) (dataDir : List UInt8)
  | creating (d : δ)
  | created (d : δ) (h : ι)
  | settingCallbacks (d : δ) (h : ι)
  | checkStarted (d : δ)
  | start (d : δ)
  | starting (d : δ)
  | storeStarted (d : δ)
  | call (d : δ) (c : DeviceCall)
  | calling (d : δ)
  | mark (d : δ)
  | destroy (d : δ)
  | destroying (d : δ)
  deriving DecidableEq, Repr

inductive NativeReturn (ι : Type*)
  | created (h : Option ι)
  | started (ret : Int)
  | done
  | threw
  deriving DecidableEq, Repr

/-- The begin of a method, with what `Directory.CreateDirectory` does, the next step of a method, or
a step of native code. -/
inductive DeviceAction (τ δ ι φ ν : Type*)
  | construct (t : τ) (d : δ) (dataDir : List UInt8) (createsDirectory : Bool)
  | start (t : τ) (d : δ)
  | call (t : τ) (d : δ) (c : DeviceCall)
  | dispose (t : τ) (d : δ)
  | advance (t : τ)
  | native (a : SessionAction τ ι φ ν)
  deriving DecidableEq, Repr

structure DeviceEvent (τ ι φ ν : Type*) where
  native : Option (SessionAction τ ι φ ν × SessionEvent τ ι φ ν)
  thrown : Option DeviceException
  deriving DecidableEq, Repr

/-- Native code that is running already goes on; calls from the host begin in the methods. -/
def Continues {τ ι φ ν : Type*} : SessionAction τ ι φ ν → Bool
  | .life (.advance _ _) | .life (.work _ _) | .log _ _ | .firmware _ _ | .run _ _ => true
  | .life (.create _ _) | .life (.start _ _) | .life (.destroy _ _) | .call _ _ _ => false

structure Devices (τ δ ι φ ν : Type*) where
  native : Session τ ι φ ν
  object : δ → Object ι
  pc : τ → Option (MethodPc δ ι)

namespace Devices

variable {τ δ ι φ ν : Type*}

def initial : Devices τ δ ι φ ν := ⟨.initial, fun _ => .absent, fun _ => none⟩

/-- The native call that has ended with this step, by the thread that made it. -/
def returned (n : Session τ ι φ ν) (a : SessionAction τ ι φ ν) :
    SessionEvent τ ι φ ν → Option (τ × NativeReturn ι)
  | .life (.createReturned t h) => some (t, .created h)
  | .life (.startReturned t _ ret) => some (t, .started ret)
  | .life (.destroyReturned t _) => some (t, .done)
  | .life (.createThrew t) | .life (.startThrew t _) => some (t, .threw)
  | .thread _ =>
      match a with
      | .run (.host t) _ => if n.config.stack (.host t) = [] then some (t, .done) else none
      | _ => none
  | _ => none

variable [DecidableEq τ] [DecidableEq δ]

def goto (s : Devices τ δ ι φ ν) (t : τ) (pc : Option (MethodPc δ ι)) : Devices τ δ ι φ ν :=
  { s with pc := Function.update s.pc t pc }

omit [DecidableEq δ] in
@[simp] theorem goto_self (s : Devices τ δ ι φ ν) (t : τ) (pc : Option (MethodPc δ ι)) :
    (s.goto t pc).pc t = pc :=
  Function.update_self ..

omit [DecidableEq δ] in
theorem goto_other (s : Devices τ δ ι φ ν) {t t' : τ} (pc : Option (MethodPc δ ι)) (h : t' ≠ t) :
    (s.goto t pc).pc t' = s.pc t' :=
  Function.update_of_ne h ..

def setObject (s : Devices τ δ ι φ ν) (d : δ) (o : Object ι) : Devices τ δ ι φ ν :=
  { s with object := Function.update s.object d o }

def resume (s : Devices τ δ ι φ ν) (t : τ) (r : NativeReturn ι) :
    MethodPc δ ι → Devices τ δ ι φ ν × Option DeviceException
  | .creating d =>
      match r with
      | .created (some h) => (s.goto t (some (.created d h)), none)
      | .created none => (s.goto t none, some .invalidOperation)
      | _ => (s.goto t none, some .external)
  | .settingCallbacks d h => ((s.setObject d (.ready ⟨h, false, false⟩)).goto t none, none)
  | .starting d =>
      match r with
      | .started ret =>
          if ret = 0 then (s.goto t (some (.storeStarted d)), none)
          else (s.goto t none, some .invalidOperation)
      | _ => (s.goto t none, some .external)
  | .calling _ | .destroying _ => (s.goto t none, none)
  | _ => (s, none)

/-- The first step of a method, up to the flag it looks at first. -/
def begins (s : Devices τ δ ι φ ν) :
    DeviceAction τ δ ι φ ν → Option (Devices τ δ ι φ ν × Option DeviceException)
  | .construct t d dataDir createsDirectory =>
      match s.object d with
      | .absent =>
          if dataDir = [] then some (s, some .argument)
          else if createsDirectory = false then some (s, some .directory)
          else some ((s.setObject d .constructing).goto t (some (.create d dataDir)), none)
      | _ => none
  | .start t d =>
      match s.object d with
      | .ready o =>
          if o.disposed then some (s, some .objectDisposed)
          else some (s.goto t (some (.checkStarted d)), none)
      | _ => none
  | .call t d c =>
      match s.object d with
      | .ready o =>
          if o.disposed then some (s, some .objectDisposed)
          else some (s.goto t (some (.call d c)), none)
      | _ => none
  | .dispose t d =>
      match s.object d with
      | .ready o => if o.disposed then some (s, none) else some (s.goto t (some (.mark d)), none)
      | _ => none
  | .advance _ | .native _ => none

def own (s : Devices τ δ ι φ ν) (t : τ) (o : ZiModemDevice ι) :
    MethodPc δ ι → Option (Devices τ δ ι φ ν × Option DeviceException)
  | .checkStarted d =>
      if o.started then some (s.goto t none, some .invalidOperation)
      else some (s.goto t (some (.start d)), none)
  | .storeStarted d => some ((s.setObject d (.ready { o with started := true })).goto t none, none)
  | .mark d =>
      some ((s.setObject d (.ready { o with disposed := true })).goto t (some (.destroy d)), none)
  | _ => none

/-- The native call that a method is about to make, and where it then stands. -/
def enters (f : δ → Delegates φ) (t : τ) (o : Object ι) :
    MethodPc δ ι → Option (SessionAction τ ι φ ν × MethodPc δ ι)
  | .create d dataDir => some (.life (.create t (some ⟨some dataDir⟩)), .creating d)
  | .created d h => some (.call t h (.setCallbacks (f d).callbacks), .settingCallbacks d h)
  | .start d =>
      match o with
      | .ready o => some (.life (.start t (some o.handle)), .starting d)
      | _ => none
  | .call d c =>
      match o with
      | .ready o => some (.call t o.handle (.hal c.native), .calling d)
      | _ => none
  | .destroy d =>
      match o with
      | .ready o => some (.life (.destroy t (some o.handle)), .destroying d)
      | _ => none
  | _ => none

end Devices

namespace MethodPc

variable {δ ι : Type*}

def about : MethodPc δ ι → δ
  | create d _ | creating d | created d _ | settingCallbacks d _ | checkStarted d | start d
  | starting d | storeStarted d | call d _ | calling d | mark d | destroy d | destroying d => d

def Sole : MethodPc δ ι → Prop
  | create _ _ | creating _ | created _ _ | settingCallbacks _ _ | mark _ | destroy _
  | destroying _ => True
  | _ => False

end MethodPc

namespace Devices

variable {τ δ ι φ ν : Type*} [DecidableEq τ] [DecidableEq δ] [DecidableEq ι]

/-- A native step, and how the method goes on whose native call ends with it. -/
def nativeStep (s : Devices τ δ ι φ ν) (a : SessionAction τ ι φ ν) :
    Option (Devices τ δ ι φ ν × DeviceEvent τ ι φ ν) :=
  match s.native.step a with
  | none => none
  | some (n, e) =>
      let s := { s with native := n }
      match returned n a e with
      | none => some (s, ⟨some (a, e), none⟩)
      | some (t, r) =>
          match s.pc t with
          | none => some (s, ⟨some (a, e), none⟩)
          | some pc => some ((s.resume t r pc).1, ⟨some (a, e), (s.resume t r pc).2⟩)

def step (f : δ → Delegates φ) (s : Devices τ δ ι φ ν) (a : DeviceAction τ δ ι φ ν) :
    Option (Devices τ δ ι φ ν × DeviceEvent τ ι φ ν) :=
  match a with
  | .construct t _ _ _ | .start t _ | .call t _ _ | .dispose t _ =>
      if s.pc t = none then (s.begins a).map fun r => (r.1, ⟨none, r.2⟩) else none
  | .advance t =>
      match s.pc t with
      | none => none
      | some pc =>
          match enters f t (s.object pc.about) pc with
          | some (b, pc') => (s.goto t (some pc')).nativeStep b
          | none =>
              match s.object pc.about with
              | .ready o => (s.own t o pc).map fun r => (r.1, ⟨none, r.2⟩)
              | _ => none
  | .native b => if Continues b then s.nativeStep b else none

end Devices

/-- Any number of threads using any number of objects, over the native process. -/
def devices (τ δ ι φ ν : Type*) [DecidableEq τ] [DecidableEq δ] [DecidableEq ι]
    (f : δ → Delegates φ) :
    Machine (Devices τ δ ι φ ν) (DeviceAction τ δ ι φ ν) (DeviceEvent τ ι φ ν) :=
  ⟨Devices.step f⟩

/-! ## What one step can be -/

namespace Devices

variable {τ δ ι φ ν : Type*} [DecidableEq τ] [DecidableEq δ] [DecidableEq ι]

inductive BeginCase (s : Devices τ δ ι φ ν) :
    DeviceAction τ δ ι φ ν → Devices τ δ ι φ ν → Prop
  | refused (a : DeviceAction τ δ ι φ ν) : BeginCase s a s
  | construct (t : τ) (d : δ) (dataDir : List UInt8) (created : Bool) : s.pc t = none →
      s.object d = .absent → dataDir ≠ [] → BeginCase s (.construct t d dataDir created)
        ((s.setObject d .constructing).goto t (some (.create d dataDir)))
  | start (t : τ) (d : δ) (o : ZiModemDevice ι) : s.pc t = none → s.object d = .ready o →
      o.disposed = false → BeginCase s (.start t d) (s.goto t (some (.checkStarted d)))
  | call (t : τ) (d : δ) (c : DeviceCall) (o : ZiModemDevice ι) : s.pc t = none →
      s.object d = .ready o → o.disposed = false →
      BeginCase s (.call t d c) (s.goto t (some (.call d c)))
  | dispose (t : τ) (d : δ) (o : ZiModemDevice ι) : s.pc t = none → s.object d = .ready o →
      o.disposed = false → BeginCase s (.dispose t d) (s.goto t (some (.mark d)))

inductive OwnCase (s : Devices τ δ ι φ ν) (t : τ) : Devices τ δ ι φ ν → Prop
  | again (d : δ) : s.pc t = some (.checkStarted d) → OwnCase s t (s.goto t none)
  | first (d : δ) : s.pc t = some (.checkStarted d) → OwnCase s t (s.goto t (some (.start d)))
  | storeStarted (d : δ) (o : ZiModemDevice ι) : s.pc t = some (.storeStarted d) →
      s.object d = .ready o →
      OwnCase s t ((s.setObject d (.ready { o with started := true })).goto t none)
  | mark (d : δ) (o : ZiModemDevice ι) : s.pc t = some (.mark d) → s.object d = .ready o →
      OwnCase s t
        ((s.setObject d (.ready { o with disposed := true })).goto t (some (.destroy d)))

inductive EnterCase (f : δ → Delegates φ) (s : Devices τ δ ι φ ν) (t : τ) :
    SessionAction τ ι φ ν → MethodPc δ ι → Prop
  | create (d : δ) (dataDir : List UInt8) : s.pc t = some (.create d dataDir) →
      EnterCase f s t (.life (.create t (some ⟨some dataDir⟩))) (.creating d)
  | setCallbacks (d : δ) (h : ι) : s.pc t = some (.created d h) →
      EnterCase f s t (.call t h (.setCallbacks (f d).callbacks)) (.settingCallbacks d h)
  | start (d : δ) (o : ZiModemDevice ι) : s.pc t = some (.start d) → s.object d = .ready o →
      EnterCase f s t (.life (.start t (some o.handle))) (.starting d)
  | call (d : δ) (c : DeviceCall) (o : ZiModemDevice ι) : s.pc t = some (.call d c) →
      s.object d = .ready o → EnterCase f s t (.call t o.handle (.hal c.native)) (.calling d)
  | destroy (d : δ) (o : ZiModemDevice ι) : s.pc t = some (.destroy d) → s.object d = .ready o →
      EnterCase f s t (.life (.destroy t (some o.handle))) (.destroying d)

inductive ResumeCase (s : Devices τ δ ι φ ν) (n : Session τ ι φ ν) (a : SessionAction τ ι φ ν)
    (e : SessionEvent τ ι φ ν) : Devices τ δ ι φ ν → Prop
  | none : (∀ t r pc, returned n a e = some (t, r) → s.pc t = some pc → False) →
      ResumeCase s n a e { s with native := n }
  | some (t : τ) (r : NativeReturn ι) (pc : MethodPc δ ι) : returned n a e = some (t, r) →
      s.pc t = some pc → ResumeCase s n a e ({ s with native := n }.resume t r pc).1

inductive StepCase (f : δ → Delegates φ) (s : Devices τ δ ι φ ν) :
    DeviceAction τ δ ι φ ν → Devices τ δ ι φ ν → DeviceEvent τ ι φ ν → Prop
  | begins (a : DeviceAction τ δ ι φ ν) (s' : Devices τ δ ι φ ν) (x : Option DeviceException) :
      s.BeginCase a s' → StepCase f s a s' ⟨none, x⟩
  | own (t : τ) (s' : Devices τ δ ι φ ν) (x : Option DeviceException) : s.OwnCase t s' →
      StepCase f s (.advance t) s' ⟨none, x⟩
  | enters (t : τ) (b : SessionAction τ ι φ ν) (pc : MethodPc δ ι) (n : Session τ ι φ ν)
      (e : SessionEvent τ ι φ ν) (s' : Devices τ δ ι φ ν) (x : Option DeviceException) :
      s.EnterCase f t b pc → s.native.step b = some (n, e) →
      (s.goto t (some pc)).ResumeCase n b e s' → StepCase f s (.advance t) s' ⟨some (b, e), x⟩
  | continues (b : SessionAction τ ι φ ν) (n : Session τ ι φ ν) (e : SessionEvent τ ι φ ν)
      (s' : Devices τ δ ι φ ν) (x : Option DeviceException) : Continues b = true →
      s.native.step b = some (n, e) → s.ResumeCase n b e s' →
      StepCase f s (.native b) s' ⟨some (b, e), x⟩

variable {f : δ → Delegates φ} {s s' : Devices τ δ ι φ ν} {t : τ}

omit [DecidableEq ι] in
theorem begin_cases {a : DeviceAction τ δ ι φ ν} {x : Option DeviceException}
    (hidle : ∀ t', (∃ d dir b, a = .construct t' d dir b) ∨ (∃ d, a = .start t' d) ∨
      (∃ d c, a = .call t' d c) ∨ (∃ d, a = .dispose t' d) → s.pc t' = none)
    (h : s.begins a = some (s', x)) : s.BeginCase a s' := by
  cases a with
  | construct t d dataDir created =>
      have hpc : s.pc t = none := hidle t (.inl ⟨d, dataDir, created, rfl⟩)
      cases hobject : s.object d with
      | absent =>
          simp only [begins, hobject] at h
          by_cases hempty : dataDir = []
          · rw [if_pos hempty] at h
            cases h
            exact .refused _
          · rw [if_neg hempty] at h
            cases created with
            | false =>
                cases h
                exact .refused _
            | true =>
                cases h
                exact .construct t d dataDir true hpc hobject hempty
      | _ => simp [begins, hobject] at h
  | start t d | call t d c | dispose t d =>
      have hpc : s.pc t = none := hidle t (by simp)
      cases hobject : s.object d with
      | ready o =>
          simp only [begins, hobject] at h
          cases hdisposed : o.disposed with
          | true =>
              rw [if_pos hdisposed] at h
              cases h
              exact .refused _
          | false =>
              rw [hdisposed] at h
              cases h
              first
                | exact .start t d o hpc hobject hdisposed
                | exact .call t d c o hpc hobject hdisposed
                | exact .dispose t d o hpc hobject hdisposed
      | _ => simp [begins, hobject] at h
  | _ => cases h

omit [DecidableEq ι] in
theorem own_cases {o : ZiModemDevice ι} {pc : MethodPc δ ι} {x : Option DeviceException}
    (hpc : s.pc t = some pc) (hobject : s.object pc.about = .ready o)
    (h : s.own t o pc = some (s', x)) : s.OwnCase t s' := by
  cases pc with
  | checkStarted d =>
      simp only [own] at h
      split at h
      · cases h
        exact .again d hpc
      · cases h
        exact .first d hpc
  | storeStarted d =>
      cases h
      exact .storeStarted d o hpc hobject
  | mark d =>
      cases h
      exact .mark d o hpc hobject
  | _ => cases h

omit [DecidableEq τ] [DecidableEq δ] [DecidableEq ι] in
theorem enter_cases {pc pc' : MethodPc δ ι} {b : SessionAction τ ι φ ν} (hpc : s.pc t = some pc)
    (h : enters f t (s.object pc.about) pc = some (b, pc')) : s.EnterCase f t b pc' := by
  cases pc with
  | create d dataDir =>
      cases h
      exact .create d dataDir hpc
  | created d h₀ =>
      cases h
      exact .setCallbacks d h₀ hpc
  | start d | call d c | destroy d =>
      cases hobject : s.object d with
      | ready o =>
          simp only [MethodPc.about, hobject, enters] at h
          cases h
          first
            | exact .start d o hpc hobject
            | exact .call d c o hpc hobject
            | exact .destroy d o hpc hobject
      | _ => simp [MethodPc.about, hobject, enters] at h
  | _ => cases h

theorem nativeStep_cases {a : SessionAction τ ι φ ν} {o : DeviceEvent τ ι φ ν}
    (h : s.nativeStep a = some (s', o)) :
    ∃ n e x, s.native.step a = some (n, e) ∧ o = ⟨some (a, e), x⟩ ∧ s.ResumeCase n a e s' := by
  simp only [nativeStep] at h
  split at h
  · cases h
  · next n e hstep =>
      refine ⟨n, e, o.thrown, hstep, ?_⟩
      split at h
      · next hnone =>
          cases h
          exact ⟨rfl, .none fun t r pc hret => by simp [hnone] at hret⟩
      · next t r hret =>
          split at h
          · next hpc =>
              cases h
              refine ⟨rfl, .none fun t' r' pc hret' hpc' => ?_⟩
              rw [hret] at hret'
              cases hret'
              rw [hpc] at hpc'
              cases hpc'
          · next pc hpc =>
              cases h
              exact ⟨rfl, .some t r pc hret hpc⟩

theorem step_cases {a : DeviceAction τ δ ι φ ν} {o : DeviceEvent τ ι φ ν}
    (h : (devices τ δ ι φ ν f).step s a = some (s', o)) : s.StepCase f a s' o := by
  cases a with
  | construct t d dataDir created | start t d | call t d c | dispose t d =>
      simp only [devices, step] at h
      split at h
      · next hpc =>
          obtain ⟨⟨s₁, x⟩, hbegin, heq⟩ := Option.map_eq_some_iff.mp h
          cases heq
          refine .begins _ s₁ x (begin_cases (fun t' hcall => ?_) hbegin)
          have ht : t = t' := by simpa using hcall
          rw [← ht]
          exact hpc
      · cases h
  | advance t =>
      simp only [devices, step] at h
      split at h
      · cases h
      · next pc hpc =>
          split at h
          · next b pc' henters =>
              obtain ⟨n, e, x, hstep, rfl, hresume⟩ := nativeStep_cases h
              exact .enters t b pc' n e s' x (enter_cases hpc henters) hstep hresume
          · split at h
            · next o' hobject =>
                obtain ⟨⟨s₁, x⟩, hown, heq⟩ := Option.map_eq_some_iff.mp h
                cases heq
                exact .own t s₁ x (own_cases hpc hobject hown)
            · cases h
  | native b =>
      simp only [devices, step] at h
      split at h
      · next hcont =>
          obtain ⟨n, e, x, hstep, rfl, hresume⟩ := nativeStep_cases h
          exact .continues b n e s' x hcont hstep hresume
      · cases h

end Devices

end ZiModem.Managed
