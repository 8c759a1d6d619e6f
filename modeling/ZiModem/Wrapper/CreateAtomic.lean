import ZiModem.Hal.FsRoot
import ZiModem.Wrapper.Host

/-! # What a failed `create` leaves behind

`zimodem_host_create` over all the state it changes: besides what the process
of `Host` has, the data root, and how often `net::global_init` and
`net::global_shutdown` were called. Its two failure points lie behind the first
changes, and neither exit takes them back.
-/

namespace ZiModem.Wrapper

open Reactive ZiModem.Hal

structure Globals (ι φ ν : Type*) where
  root : FsRoot
  netInits : Nat
  netShutdowns : Nat
  host : Host ι φ ν

/-- What the surroundings decide in `create`: how `set_root` ends, and what `new (std::nothrow)`
returns. -/
structure CreateEnv (ι : Type*) where
  setRoot : SetRootOutcome
  new : Option ι
  deriving DecidableEq, Repr

namespace Globals

variable {ι φ ν : Type*}

def initial : Globals ι φ ν := ⟨⟨[]⟩, 0, 0, .initial⟩

/-- The calls of `global_init` that no `global_shutdown` has answered. -/
def balance (g : Globals ι φ ν) : Int := (g.netInits : Int) - g.netShutdowns

def globalInit (g : Globals ι φ ν) : Globals ι φ ν := { g with netInits := g.netInits + 1 }

def globalShutdown (g : Globals ι φ ν) : Globals ι φ ν :=
  { g with netShutdowns := g.netShutdowns + 1 }

/-- `create` lets no exception out, and where it returns null it has changed nothing. -/
structure Atomic (g : Globals ι φ ν) (r : Globals ι φ ν × CreateResult ι) : Prop where
  inside : r.2 ≠ .threw
  root : r.2 = .returned none → r.1.root = g.root
  slot : r.2 = .returned none → r.1.host.slot = g.host.slot
  active : r.2 = .returned none → r.1.host.active = g.host.active
  balance : r.2 = .returned none → r.1.balance = g.balance

def Enters (g : Globals ι φ ν) (cfg : Option HostConfig) : Prop :=
  (∃ c ∈ cfg, c.Usable) ∧ g.host.active = none

variable [DecidableEq ι]

/-- `zimodem_host_create`. What `set_root` returns is the root and whether it threw. -/
def create (g : Globals ι φ ν) (cfg : Option HostConfig) (env : CreateEnv ι) :
    Globals ι φ ν × CreateResult ι :=
  match cfg.bind HostConfig.dataDir with
  | none | some [] => (g, .returned none)
  | some dataDir =>
      if g.host.active ≠ none then (g, .returned none)
      else
        match g.root.setRoot dataDir env.setRoot with
        | (root, true) => ({ g with root := root }, .threw)
        | (root, false) =>
            let g := { g with root := root }.globalInit
            match env.new with
            | none => (g, .returned none)
            | some h => ({ g with host := g.host.install h }, .returned (some h))

/-- `zimodem_host_destroy`, with the worker joined. -/
def destroy (g : Globals ι φ ν) : Option ι → Globals ι φ ν
  | none => g
  | some h => { g with host := g.host.destroy (some h) }.globalShutdown

/-! ## The exits of `create` -/

section Exits

variable {g : Globals ι φ ν} {cfg : Option HostConfig} {env : CreateEnv ι}

theorem create_of_not_enters (h : ¬ g.Enters cfg) : g.create cfg env = (g, .returned none) := by
  unfold create
  cases cfg with
  | none => rfl
  | some c =>
      obtain ⟨dataDir⟩ := c
      cases dataDir with
      | none => rfl
      | some dir =>
          cases dir with
          | nil => rfl
          | cons b dir =>
              have hactive : g.host.active ≠ none := by
                intro hnone
                exact h ⟨⟨_, rfl, by simp [HostConfig.Usable]⟩, hnone⟩
              simp [hactive]

theorem create_of_enters (env : CreateEnv ι) (h : g.Enters cfg) : ∃ root,
    (env.setRoot ≠ .created ∧ g.create cfg env = ({ g with root := root }, .threw)) ∨
    (env.setRoot = .created ∧ env.new = none ∧
      g.create cfg env = ({ g with root := root }.globalInit, .returned none)) ∨
    ∃ h, env.setRoot = .created ∧ env.new = some h ∧
      g.create cfg env =
        ({ g with root := root, host := g.host.install h }.globalInit, .returned (some h)) := by
  obtain ⟨⟨⟨dataDir⟩, hcfg, hdir, hempty⟩, hactive⟩ := h
  obtain ⟨_ | ⟨b, dir⟩, rfl⟩ := Option.ne_none_iff_exists'.mp hdir
  · exact absurd rfl hempty
  · rw [Option.mem_def] at hcfg
    obtain ⟨setRoot, new⟩ := env
    exists (g.root.setRoot (b :: dir) setRoot).1
    cases setRoot with
    | copyFails | createFails =>
        left
        simp [create, hcfg, hactive, FsRoot.setRoot]
    | created =>
        right
        cases new with
        | none =>
            left
            simp [create, hcfg, hactive, FsRoot.setRoot]
        | some h =>
            right
            exists h
            simp [create, hcfg, hactive, FsRoot.setRoot, globalInit]

end Exits

/-! ## Atomicity -/

omit [DecidableEq ι] in
/-- A null that comes after `global_init` leaves the network initialised once more. -/
theorem not_atomic_globalInit {g : Globals ι φ ν} (root : FsRoot) :
    ¬ Atomic g ({ g with root := root }.globalInit, .returned none) := by
  intro h
  have hbalance := h.balance rfl
  simp only [Globals.balance, globalInit] at hbalance
  omega

/-- A call of `create` is atomic exactly when it stops at one of its two checks or runs through: the
data directory is made and the allocation succeeds. -/
theorem create_atomic_iff (g : Globals ι φ ν) (cfg : Option HostConfig) (env : CreateEnv ι) :
    Atomic g (g.create cfg env) ↔
      (∀ c ∈ cfg, ¬ c.Usable) ∨ g.host.active ≠ none ∨
        (env.setRoot = .created ∧ env.new ≠ none) := by
  have hchecks : (∀ c ∈ cfg, ¬ c.Usable) ∨ g.host.active ≠ none ↔ ¬ g.Enters cfg := by
    rw [Enters, not_and_or, not_exists]
    simp only [not_and]
  rw [← or_assoc, hchecks]
  by_cases henters : g.Enters cfg
  · rw [or_iff_right (not_not_intro henters)]
    obtain ⟨root, ⟨hroot, hcreate⟩ | ⟨hroot, hnew, hcreate⟩ | ⟨h, hroot, hnew, hcreate⟩⟩ :=
      create_of_enters env henters
    · rw [hcreate]
      exact iff_of_false (fun hatomic => hatomic.inside rfl) (fun hboth => hroot hboth.1)
    · rw [hcreate]
      exact iff_of_false (not_atomic_globalInit root) (fun hboth => hboth.2 hnew)
    · rw [hcreate]
      apply iff_of_true
      · constructor <;> simp
      · exact ⟨hroot, by simp [hnew]⟩
  · rw [create_of_not_enters henters]
    exact iff_of_true ⟨by simp, fun _ => rfl, fun _ => rfl, fun _ => rfl, fun _ => rfl⟩
      (.inl henters)

/-- With a data directory under a file, `create` throws. -/
theorem not_create_atomic :
    ¬ ∀ (g : Globals Nat Unit Unit) (cfg : Option HostConfig) (env : CreateEnv Nat),
      Atomic g (g.create cfg env) := by
  intro hall
  exact (hall .initial (some ⟨some [47, 120]⟩) ⟨.createFails, some 0⟩).inside rfl

end Globals

/-- What the process of `Host` sees of the surroundings of `create`. -/
def CreateEnv.outcome {ι : Type*} (env : CreateEnv ι) : CreateOutcome ι :=
  if env.setRoot = .created then env.new.elim .newFails .allocated else .rootFails

namespace Globals

variable {ι φ ν : Type*} [DecidableEq ι]

/-- `create` with all that its surroundings decide, or another call. -/
inductive Call (ι φ ν : Type*)
  | create (cfg : Option HostConfig) (env : CreateEnv ι)
  | other (c : Host.Call ι φ ν)
  deriving DecidableEq, Repr

def Call.toHost : Call ι φ ν → Host.Call ι φ ν
  | create cfg env => .create cfg env.outcome
  | other c => c

def step (g : Globals ι φ ν) : Call ι φ ν → Option (Globals ι φ ν × Host.Seen ι)
  | .create cfg env => some ((g.create cfg env).1, .created (g.create cfg env).2)
  | .other (.create _ _) => none
  | .other (.destroy h) => (g.host.step (.destroy h)).map fun r => (g.destroy h, r.2)
  | .other c => (g.host.step c).map fun r => ({ g with host := r.1 }, r.2)

def Loses (g : Globals ι φ ν) (a : Call ι φ ν) : Prop :=
  ∃ cfg env, a = .create cfg env ∧ g.Enters cfg ∧ env.setRoot = .created ∧ env.new = none

/-- The active instance is the only one, and it alone keeps the network initialised. -/
structure Settled (g : Globals ι φ ν) : Prop where
  alone : ∀ h, g.host.instance? h ≠ none ↔ g.host.active = some h
  balance : g.balance = if g.host.active = none then 0 else 1

variable {g g' : Globals ι φ ν} {o : Host.Seen ι}

theorem create_host (cfg : Option HostConfig) (env : CreateEnv ι) :
    g.host.create cfg env.outcome = ((g.create cfg env).1.host, (g.create cfg env).2) := by
  by_cases henters : g.Enters cfg
  · obtain ⟨c, rfl, husable⟩ := henters.1
    have hchecks : c.Usable ∧ g.host.active = none := ⟨husable, henters.2⟩
    obtain ⟨root, ⟨hroot, hcreate⟩ | ⟨hroot, hnew, hcreate⟩ | ⟨h, hroot, hnew, hcreate⟩⟩ :=
      create_of_enters env henters
    · simp [hcreate, CreateEnv.outcome, hroot, Host.create, hchecks]
    · simp [hcreate, CreateEnv.outcome, hroot, hnew, Host.create, hchecks, globalInit]
    · simp [hcreate, CreateEnv.outcome, hroot, hnew, Host.create, hchecks, globalInit]
  · rw [create_of_not_enters henters]
    cases cfg with
    | none => rfl
    | some c =>
        have hchecks : ¬ (c.Usable ∧ g.host.active = none) := by
          intro hboth
          exact henters ⟨⟨c, rfl, hboth.1⟩, hboth.2⟩
        simp only [Host.create, if_neg hchecks]

theorem step_toHost {a : Call ι φ ν} (hstep : g.step a = some (g', o)) :
    g.host.step a.toHost = some (g'.host, o) := by
  cases a with
  | create cfg env =>
      cases hstep
      simp [Call.toHost, Host.step, Host.Call.handle, create_host]
  | other c =>
      cases c with
      | create cfg c => cases hstep
      | destroy h =>
          obtain ⟨⟨s, o⟩, hhost, heq⟩ := Option.map_eq_some_iff.mp hstep
          cases heq
          rw [Call.toHost, hhost]
          unfold Host.step at hhost
          split at hhost
          · cases hhost
          · cases hhost
            cases h <;> rfl
      | _ =>
          obtain ⟨⟨s, o⟩, hhost, heq⟩ := Option.map_eq_some_iff.mp hstep
          cases heq
          exact hhost

theorem host_frame {s s' : Host ι φ ν} {c : Host.Call ι φ ν} (hstep : s.step c = some (s', o))
    (hcreate : ∀ cfg e, c ≠ .create cfg e) (hdestroy : ∀ h, c ≠ .destroy h) :
    s'.active = s.active ∧ ∀ h, s'.instance? h ≠ none ↔ s.instance? h ≠ none := by
  have hmodify : ∀ (h : ι) (f : HostInstance φ ν → HostInstance φ ν) (h' : ι),
      (s.modify h f).instance? h' ≠ none ↔ s.instance? h' ≠ none := by
    intro h f h'
    by_cases heq : h' = h
    · simp [Host.modify, heq]
    · simp [Host.modify, heq]
  unfold Host.step at hstep
  split at hstep
  · cases hstep
  · cases c with
    | create cfg e => exact absurd rfl (hcreate cfg e)
    | destroy h => exact absurd rfl (hdestroy h)
    | setCallbacks h cbs =>
        cases hstep
        cases h with
        | none => exact ⟨rfl, fun _ => Iff.rfl⟩
        | some h => exact ⟨rfl, hmodify h _⟩
    | start h =>
        cases hstep
        cases h with
        | none => exact ⟨rfl, fun _ => Iff.rfl⟩
        | some h =>
            simp only [Host.start]
            split
            · exact ⟨rfl, fun _ => Iff.rfl⟩
            · exact ⟨rfl, hmodify h _⟩
    | writeSerial h data | rxRead h | setPin h pin value =>
        cases hstep
        cases h <;> exact ⟨rfl, fun _ => Iff.rfl⟩
    | rxAvailable h | getLineConfig h =>
        cases hstep
        exact ⟨rfl, fun _ => Iff.rfl⟩
    | firmware c =>
        obtain ⟨-, heq⟩ := Option.ite_none_right_eq_some.mp hstep
        cases c <;>
          · cases heq
            exact ⟨rfl, fun _ => Iff.rfl⟩

theorem settled_destroy {h : Option ι} (hs : g.Settled)
    (hlive : ∀ h', h = some h' → g.host.instance? h' ≠ none) : (g.destroy h).Settled := by
  cases h with
  | none => exact hs
  | some h =>
      have hactive : g.host.active = some h := (hs.alone h).mp (hlive h rfl)
      have hbalance := hs.balance
      simp only [hactive, reduceCtorEq, if_false] at hbalance
      constructor
      · intro h'
        have halone := hs.alone h'
        by_cases heq : h' = h
        · simp [destroy, globalShutdown, Host.destroy, hactive, heq]
        · have hnone : g.host.instance? h' = none := by
            rw [hactive, Option.some.injEq, eq_comm] at halone
            exact not_not.mp (mt halone.mp heq)
          simp [destroy, globalShutdown, Host.destroy, hactive, heq, hnone]
      · simp only [Globals.balance] at hbalance
        simp only [Globals.balance, destroy, globalShutdown, Host.destroy, hactive, if_true]
        omega

/-- `create` keeps the account exactly when it does not lose an allocation. -/
theorem settled_create_iff {cfg : Option HostConfig} {env : CreateEnv ι} (hs : g.Settled) :
    (g.create cfg env).1.Settled ↔ ¬ g.Loses (.create cfg env) := by
  by_cases henters : g.Enters cfg
  · have hbalance := hs.balance
    rw [if_pos henters.2] at hbalance
    have habsent : ∀ h, g.host.instance? h = none := by
      intro h
      have halone := hs.alone h
      rw [henters.2] at halone
      exact not_not.mp (mt halone.mp (by simp))
    obtain ⟨root, ⟨hroot, hcreate⟩ | ⟨hroot, hnew, hcreate⟩ | ⟨h, hroot, hnew, hcreate⟩⟩ :=
      create_of_enters env henters
    · rw [hcreate]
      apply iff_of_true ⟨hs.alone, hs.balance⟩
      rintro ⟨_, _, heq, _, hcreated, _⟩
      cases heq
      exact hroot hcreated
    · rw [hcreate]
      apply iff_of_false
      · intro hafter
        have hbalance' := hafter.balance
        simp only [Globals.balance, globalInit, henters.2, if_true] at hbalance hbalance'
        omega
      · exact fun hkeeps => hkeeps ⟨cfg, env, rfl, henters, hroot, hnew⟩
    · rw [hcreate]
      apply iff_of_true
      · constructor
        · intro h'
          by_cases heq : h' = h
          · simp [globalInit, Host.install, heq]
          · simp [globalInit, Host.install, heq, habsent, Ne.symm heq]
        · simp only [Globals.balance] at hbalance
          simp only [Globals.balance, globalInit, Host.install, reduceCtorEq, if_false]
          omega
      · rintro ⟨_, _, heq, _, _, hnone⟩
        cases heq
        rw [hnew] at hnone
        cases hnone
  · rw [create_of_not_enters henters]
    apply iff_of_true hs
    rintro ⟨_, _, heq, henters', _⟩
    cases heq
    exact henters henters'

theorem settled_step_iff {a : Call ι φ ν} (hs : g.Settled) (hstep : g.step a = some (g', o)) :
    g'.Settled ↔ ¬ g.Loses a := by
  cases a with
  | create cfg env =>
      cases hstep
      exact settled_create_iff hs
  | other c =>
      have hkeeps : ¬ g.Loses (.other c) := by
        rintro ⟨_, _, heq, _⟩
        cases heq
      apply iff_of_true _ hkeeps
      cases c with
      | create cfg c => cases hstep
      | destroy h =>
          obtain ⟨⟨s, o⟩, hdestroy, heq⟩ := Option.map_eq_some_iff.mp hstep
          cases heq
          apply settled_destroy hs
          intro h' heq hdead
          rw [Host.step, if_pos ⟨h', heq, hdead⟩] at hdestroy
          cases hdestroy
      | _ =>
          obtain ⟨⟨s, o⟩, hother, heq⟩ := Option.map_eq_some_iff.mp hstep
          cases heq
          obtain ⟨hactive, hpresent⟩ := host_frame hother (by simp) (by simp)
          constructor
          · intro h
            rw [hpresent, hactive]
            exact hs.alone h
          · have hbalance := hs.balance
            rw [← hactive] at hbalance
            exact hbalance

end Globals

/-- The process with its data root and the account of `global_init`. -/
def globals (ι φ ν : Type*) [DecidableEq ι] :
    Machine (Globals ι φ ν) (Globals.Call ι φ ν) (Host.Seen ι) := ⟨Globals.step⟩

/-- Along a run the network stays initialised for the active instance alone exactly as long as
`create` loses no allocation: no later call takes the loss back. -/
theorem Globals.settled_iff {ι φ ν : Type*} [DecidableEq ι] {g : Globals ι φ ν}
    {as : List (Globals.Call ι φ ν)} {os : List (Host.Seen ι)}
    (hrun : (globals ι φ ν).run .initial as = some (g, os)) :
    (globals ι φ ν).Throughout (fun _ g => g.Settled) .initial as ↔
      (globals ι φ ν).Along (fun g a => ¬ g.Loses a) .initial as :=
  Machine.throughout_iff_along (fun _ _ _ _ _ hs hstep => Globals.settled_step_iff hs hstep)
    ⟨by simp [Globals.initial, Host.initial], rfl⟩ hrun

end ZiModem.Wrapper
