import ZiModem.Hal.Net.Handles
import ZiModem.Reactive.Sharing

/-! # `WiFiClient` and `WiFiServer`

A `WiFiClient` refers to its socket through a `shared_ptr`, so that copies of a client
are the same connection. A `WiFiServer` has its listener to itself; what it accepts
is moved out of a temporary behind a new `shared_ptr`. Every member function comes
down to operations on sockets and listeners, and it is the count of the clients that
decides when a socket goes.
-/

namespace ZiModem.Hal.Arduino

open Reactive Hal.Net

/-- Where a socket is: behind a `shared_ptr`, in a server, or in what `accept` returns. -/
inductive Cell (η : Type*)
  | shared (r : Nat)
  | server (h : η)
  | accepted
  deriving DecidableEq, Repr

/-- The clients `κ` with what their pointers refer to, and the sockets, also those of the servers
`η`. A client that does not exist or was moved from refers to nothing. -/
structure Wifi (κ η : Type*) where
  clients : Shared κ Nat
  sockets : Sockets (Cell η)

/-- `other` is any of `connected`, `available`, `write`, `setNoDelay`, `localPort`, `remoteIP`. -/
inductive ClientCall
  | connect (c : ConnectOutcome)
  | read (c : Conn) (size : Nat) (r : Recv)
  | peek (c : Conn) (r : Recv)
  | stop
  | other
  deriving DecidableEq, Repr

def ClientCall.action {ι : Type*} (i : ι) : ClientCall → SocketAction ι
  | connect c => .connect i c
  | read c size r => .read i c size r
  | peek c r => .peekByte i c r
  | stop => .close i
  | other => .observe i

inductive ServerCall
  | begin (c : ListenOutcome)
  | stop
  | hasClient
  deriving DecidableEq, Repr

def ServerCall.action {ι : Type*} (i : ι) : ServerCall → SocketAction ι
  | begin c => .listen i c
  | stop => .close i
  | hasClient => .observe i

/-- `r` is where `make_shared` puts a new socket. `copy` and `move` construct a client or assign to
one. -/
inductive WifiAction (κ η : Type*)
  | construct (k : κ) (r : Nat)
  | copy (k other : κ)
  | move (k other : κ)
  | destroy (k : κ)
  | call (k : κ) (m : ClientCall)
  | newServer (h : η)
  | serve (h : η) (m : ServerCall)
  | available (h : η) (k : κ) (r : Nat) (c : AcceptOutcome)
  | deleteServer (h : η)
  deriving DecidableEq, Repr

namespace Wifi

variable {κ η : Type*}

def initial : Wifi κ η := ⟨Shared.empty, Sockets.initial⟩

def release (s : Wifi κ η) (k : κ) : List (SocketAction (Cell η)) :=
  (s.clients.last k).toList.map fun r => .destroy (.shared r)

variable [DecidableEq κ] [DecidableEq η]

def plan (s : Wifi κ η) : WifiAction κ η → Option (Shared κ Nat × List (SocketAction (Cell η)))
  | .construct k r =>
      if s.clients.target k = none then
        some (s.clients.attach k r, [.construct (.shared r) (.tcp .closed)])
      else none
  | .copy k other =>
      if s.clients.target k = s.clients.target other then some (s.clients, [])
      else
        match s.clients.target other with
        | none => some (s.clients.detach k, s.release k)
        | some r => some ((s.clients.detach k).attach k r, s.release k)
  | .move k other =>
      if k = other then some (s.clients, [])
      else
        match s.clients.target other with
        | none => some (s.clients.detach k, s.release k)
        | some r => some (((s.clients.detach k).detach other).attach k r, s.release k)
  | .destroy k => some (s.clients.detach k, s.release k)
  | .call k m =>
      match s.clients.target k with
      | none => none  -- a null pointer
      | some r => some (s.clients, [m.action (.shared r)])
  | .newServer h => some (s.clients, [.construct (.server h) (.listener .fresh)])
  | .serve h m => some (s.clients, [m.action (.server h)])
  | .available h k r c =>
      if s.clients.target k = none then
        some (s.clients.attach k r, [.accept (.server h) .accepted c,
          .moveConstruct (.shared r) .accepted, .destroy .accepted])
      else none
  | .deleteServer h => some (s.clients, [.destroy (.server h)])

def step (s : Wifi κ η) (a : WifiAction κ η) :
    Option (Wifi κ η × List (SocketEvent (Cell η))) :=
  match s.plan a with
  | none => none
  | some (clients, calls) =>
      match (Net.sockets (Cell η)).run s.sockets calls with
      | none => none
      | some (sockets, os) => some (⟨clients, sockets⟩, os)

end Wifi

def wifi (κ η : Type*) [DecidableEq κ] [DecidableEq η] :
    Machine (Wifi κ η) (WifiAction κ η) (List (SocketEvent (Cell η))) := ⟨Wifi.step⟩

/-! ## Which sockets there are -/

/-- The sockets there are after an operation, if there were those of `p` before it. -/
def leaves {ι : Type*} [DecidableEq ι] (p : ι → Bool) : SocketAction ι → ι → Bool
  | .construct k _ | .accept _ k _ | .moveConstruct k _ => Function.update p k true
  | .destroy k => Function.update p k false
  | _ => p

def present {ι : Type*} (s : Sockets ι) (k : ι) : Bool := (s.object k).isSome

section Present

variable {ι : Type*} [DecidableEq ι] {s s' : Sockets ι} {k : ι}

theorem present_set (o : Option NetObject) :
    present (s.set k o) = Function.update (present s) k o.isSome := by
  funext j
  by_cases hj : j = k
  · rw [hj, Function.update_self, present, Sockets.set_object_self]
  · rw [Function.update_of_ne hj, present, Sockets.set_object_other o hj, present]

theorem present_set_old {old new : NetObject} (h : s.object k = some old) :
    present (s.set k (some new)) = present s := by
  rw [present_set, Function.update_eq_self_iff, present, h]
  rfl

omit [DecidableEq ι] in
theorem present_commit {e o : SocketEvent ι} (h : s.commit e = some (s', o)) :
    present s' = present s := by
  obtain ⟨-, rfl, -⟩ := Sockets.commit_cases h
  rfl

theorem present_step {a : SocketAction ι} {o : SocketEvent ι} (h : s.step a = some (s', o)) :
    present s' = leaves (present s) a := by
  cases a with
  | construct k d =>
      simp only [Sockets.step] at h
      split at h
      next => rw [present_commit h, present_set]; rfl
      next => cases h
  | connect k c | listen k c | begin k c =>
      simp only [Sockets.step] at h
      split at h
      next sock hk => rw [present_commit h, present_set_old hk]; rfl
      next => cases h
  | accept l k c =>
      simp only [Sockets.step] at h
      split at h
      next =>
        split at h
        next => rw [present_commit h, present_set]; rfl
        next => cases h
      next => cases h
  | moveConstruct k other =>
      simp only [Sockets.step] at h
      split at h
      next sock hother =>
        split at h
        next hk =>
          have hother' : (s.set k (some (.tcp sock.moveConstruct.1))).object other =
              some (.tcp sock) := by
            rw [Sockets.set_object_other _ (by rintro rfl; rw [hk] at hother; cases hother), hother]
          rw [present_commit h, present_set_old hother', present_set]
          rfl
        next => cases h
      next => cases h
  | moveAssign k other =>
      simp only [Sockets.step] at h
      split at h
      next sock sock' hk hother =>
        split at h
        next => rw [present_commit h]; rfl
        next hne =>
          have hother' : (s.set k (some (.tcp (sock.moveAssign sock').1))).object other =
              some (.tcp sock') := by
            rw [Sockets.set_object_other _ (Ne.symm hne), hother]
          rw [present_commit h, present_set_old hother', present_set_old hk]
          rfl
      next => cases h
  | close k =>
      simp only [Sockets.step] at h
      split at h
      next old hk => rw [present_commit h, present_set_old hk]; rfl
      next => cases h
  | destroy k =>
      simp only [Sockets.step] at h
      split at h
      next => rw [present_commit h, present_set]; rfl
      next => cases h
  | read k c len r | peekByte k c r =>
      simp only [Sockets.step] at h
      split at h
      next sock hk =>
        split at h
        next => rw [present_commit h, present_set_old hk]; rfl
        next => cases h
      next => cases h
  | packet k a =>
      simp only [Sockets.step] at h
      split at h
      next sock hk =>
        split at h
        next =>
          split at h
          next => rw [present_commit h, present_set_old hk]; rfl
          next => cases h
        next => cases h
      next => cases h
  | observe k =>
      simp only [Sockets.step] at h
      split at h
      next => rw [present_commit h]; rfl
      next => cases h

theorem present_run {as : List (SocketAction ι)} {os : List (SocketEvent ι)}
    (hrun : (Net.sockets ι).run s as = some (s', os)) :
    present s' = as.foldl leaves (present s) := by
  induction as generalizing s os with
  | nil =>
      cases hrun
      rfl
  | cons a as ih =>
      obtain ⟨s₁, o, os₁, hstep, hrest, -⟩ := Machine.run_cons_iff.mp hrun
      rw [ih hrest, present_step hstep, List.foldl_cons]

end Present

/-! ## The counts are right -/

namespace Wifi

variable {κ η : Type*} [DecidableEq κ] [DecidableEq η] {s s' : Wifi κ η}

theorem step_cases {a : WifiAction κ η} {os : List (SocketEvent (Cell η))}
    (h : s.step a = some (s', os)) :
    ∃ clients calls, s.plan a = some (clients, calls) ∧ s'.clients = clients ∧
      (Net.sockets (Cell η)).run s.sockets calls = some (s'.sockets, os) := by
  unfold step at h
  cases hplan : s.plan a with
  | none => simp [hplan] at h
  | some p =>
      obtain ⟨clients, calls⟩ := p
      simp only [hplan] at h
      cases hrun : (Net.sockets (Cell η)).run s.sockets calls with
      | none => simp [hrun] at h
      | some r =>
          obtain ⟨sockets, os₁⟩ := r
          simp only [hrun, Option.some.injEq, Prod.mk.injEq] at h
          obtain ⟨rfl, rfl⟩ := h
          exact ⟨clients, calls, rfl, rfl, hrun⟩

/-- A socket is there while clients share it, and there is no temporary between two calls. -/
structure Sound (s : Wifi κ η) : Prop where
  counted : s.clients.Counted
  shared : ∀ r, present s.sockets (.shared r) = true ↔ 0 < s.clients.useCount r
  accepted : present s.sockets .accepted = false

omit [DecidableEq κ] [DecidableEq η] in
theorem sound_initial : (initial : Wifi κ η).Sound where
  counted := .empty
  shared := by simp [initial, present, Sockets.initial, Shared.empty]
  accepted := rfl

omit [DecidableEq κ] in
theorem release_leaves (p : Cell η → Bool) (k : κ) :
    (∀ r, (s.release k).foldl leaves p (.shared r) = true ↔
      p (.shared r) = true ∧ s.clients.last k ≠ some r) ∧
      (s.release k).foldl leaves p .accepted = p .accepted := by
  unfold release
  cases s.clients.last k with
  | none => simp
  | some r' =>
      refine ⟨fun r => ?_, rfl⟩
      show Function.update p (.shared r') false (.shared r) = true ↔ _
      by_cases hr : r = r'
      · simp [hr]
      · simp [hr, Ne.symm hr]

theorem Sound.redirect (h : s.Sound) {k other : κ} {r : Nat} {clients : Shared κ Nat}
    (hother : s.clients.target other = some r) (hlast : s.clients.last k ≠ some r)
    (hcounted : clients.Counted)
    (huses : ∀ r', 0 < clients.useCount r' ↔
      r' = r ∨ 0 < (s.clients.detach k).useCount r')
    (hclients : s'.clients = clients)
    (hpresent : present s'.sockets = (s.release k).foldl leaves (present s.sockets)) :
    s'.Sound := by
  obtain ⟨hshared, haccepted⟩ := release_leaves (s := s) (present s.sockets) k
  refine ⟨hclients ▸ hcounted, fun r' => ?_, ?_⟩
  · rw [hpresent, hshared, h.shared, hclients, huses, h.counted.detach_useCount_pos]
    refine ⟨.inr, ?_⟩
    rintro (rfl | hkept)
    · exact ⟨(h.counted.pos_iff r').mpr ⟨other, hother⟩, hlast⟩
    · exact hkept
  · rw [hpresent, haccepted, h.accepted]

theorem Sound.letGo (h : s.Sound) {k : κ} (hclients : s'.clients = s.clients.detach k)
    (hpresent : present s'.sockets = (s.release k).foldl leaves (present s.sockets)) :
    s'.Sound := by
  obtain ⟨hshared, haccepted⟩ := release_leaves (s := s) (present s.sockets) k
  refine ⟨hclients ▸ h.counted.detach k, fun r => ?_, ?_⟩
  · rw [hpresent, hshared, h.shared, hclients, h.counted.detach_useCount_pos]
  · rw [hpresent, haccepted, h.accepted]

omit [DecidableEq η] in
theorem Sound.adopt (h : s.Sound) {k : κ} {r : Nat} (hk : s.clients.target k = none)
    (hclients : s'.clients = s.clients.attach k r)
    (hshared : ∀ r', present s'.sockets (.shared r') = true ↔
      r' = r ∨ present s.sockets (.shared r') = true)
    (haccepted : present s'.sockets .accepted = false) : s'.Sound := by
  refine ⟨hclients ▸ h.counted.attach hk r, fun r' => ?_, haccepted⟩
  rw [hshared, h.shared, hclients, Shared.attach_useCount_pos]

omit [DecidableEq κ] [DecidableEq η] in
theorem Sound.keep (h : s.Sound) (hclients : s'.clients = s.clients)
    (hshared : ∀ r, present s'.sockets (.shared r) = present s.sockets (.shared r))
    (haccepted : present s'.sockets .accepted = present s.sockets .accepted) : s'.Sound :=
  ⟨hclients ▸ h.counted, fun r => by rw [hshared, h.shared, hclients], haccepted.trans h.accepted⟩

theorem leaves_client (p : Cell η → Bool) (i : Cell η) (m : ClientCall) :
    leaves p (m.action i) = p := by
  cases m <;> rfl

theorem leaves_server (p : Cell η → Bool) (i : Cell η) (m : ServerCall) :
    leaves p (m.action i) = p := by
  cases m <;> rfl

theorem Sound.step (h : s.Sound) {a : WifiAction κ η} {os : List (SocketEvent (Cell η))}
    (hstep : s.step a = some (s', os)) : s'.Sound := by
  obtain ⟨clients, calls, hplan, hclients, hrun⟩ := step_cases hstep
  have hpresent := present_run hrun
  cases a with
  | construct k r =>
      simp only [plan] at hplan
      split at hplan
      next hk =>
        cases hplan
        apply h.adopt hk hclients
        · intro r'
          rw [hpresent]
          by_cases hr : r' = r <;> simp [leaves, hr]
        · rw [hpresent]
          simpa [leaves] using h.accepted
      next => cases hplan
  | copy k other =>
      simp only [plan] at hplan
      split at hplan
      next =>
        cases hplan
        exact h.keep hclients (fun r => by rw [hpresent]; rfl) (by rw [hpresent]; rfl)
      next hne =>
        split at hplan
        next =>
          cases hplan
          exact h.letGo hclients hpresent
        next r hother =>
          cases hplan
          refine h.redirect hother ?_ ?_ (fun r' => Shared.attach_useCount_pos ..) hclients hpresent
          · intro hlast
            exact hne ((Shared.last_eq_some_iff.mp hlast).1.trans hother.symm)
          · refine (h.counted.detach k).attach ?_ r
            rw [Shared.detach_target, Function.update_self]
  | move k other =>
      simp only [plan] at hplan
      split at hplan
      next =>
        cases hplan
        exact h.keep hclients (fun r => by rw [hpresent]; rfl) (by rw [hpresent]; rfl)
      next hne =>
        split at hplan
        next =>
          cases hplan
          exact h.letGo hclients hpresent
        next r hother =>
          cases hplan
          have hdetached := h.counted.detach k
          have hother' : (s.clients.detach k).target other = some r := by
            rw [Shared.detach_target, Function.update_of_ne (Ne.symm hne), hother]
          refine h.redirect hother ?_ ?_ (fun r' => ?_) hclients hpresent
          · intro hlast
            obtain ⟨hk, hone⟩ := Shared.last_eq_some_iff.mp hlast
            exact hne (h.counted.sole hone hk hother).symm
          · refine (hdetached.detach other).attach ?_ r
            rw [Shared.detach_target, Function.update_of_ne hne, Shared.detach_target,
              Function.update_self]
          · rw [Shared.attach_useCount_pos, hdetached.detach_useCount_pos]
            constructor
            · rintro (hr | ⟨hpos, -⟩)
              · exact .inl hr
              · exact .inr hpos
            · rintro (hr | hpos)
              · exact .inl hr
              · by_cases hr : r' = r
                · exact .inl hr
                · refine .inr ⟨hpos, fun hlast => hr ?_⟩
                  have htarget := (Shared.last_eq_some_iff.mp hlast).1
                  exact (Option.some.inj (hother'.symm.trans htarget)).symm
  | destroy k =>
      cases hplan
      exact h.letGo hclients hpresent
  | call k m =>
      simp only [plan] at hplan
      split at hplan
      next => cases hplan
      next r _ =>
        cases hplan
        have hsame : present s'.sockets = present s.sockets :=
          hpresent.trans (leaves_client ..)
        exact h.keep hclients (fun r => by rw [hsame]) (by rw [hsame])
  | newServer e =>
      cases hplan
      exact h.keep hclients (fun r => by rw [hpresent]; simp [leaves])
        (by rw [hpresent]; simp [leaves])
  | serve e m =>
      cases hplan
      have hsame : present s'.sockets = present s.sockets := hpresent.trans (leaves_server ..)
      exact h.keep hclients (fun r => by rw [hsame]) (by rw [hsame])
  | available e k r c =>
      simp only [plan] at hplan
      split at hplan
      next hk =>
        cases hplan
        apply h.adopt hk hclients
        · intro r'
          rw [hpresent]
          by_cases hr : r' = r <;> simp [leaves, hr]
        · rw [hpresent]
          simp [leaves]
      next => cases hplan
  | deleteServer e =>
      cases hplan
      exact h.keep hclients (fun r => by rw [hpresent]; simp [leaves])
        (by rw [hpresent]; simp [leaves])

end Wifi

/-! ## Whole runs -/

namespace Wifi

section Runs

variable {κ η : Type*} [DecidableEq κ] [DecidableEq η] {s s' : Wifi κ η}
  {as : List (WifiAction κ η)} {os : List (List (SocketEvent (Cell η)))}

/-- What clients and servers do is something that sockets do. -/
theorem sockets_run (hrun : (wifi κ η).run s as = some (s', os)) :
    ∃ calls, (Net.sockets (Cell η)).run s.sockets calls = some (s'.sockets, os.flatten) := by
  induction as generalizing s os with
  | nil =>
      cases hrun
      exact ⟨[], rfl⟩
  | cons a as ih =>
      obtain ⟨s₁, o, os₁, hstep, hrest, rfl⟩ := Machine.run_cons_iff.mp hrun
      obtain ⟨_, calls, -, -, hcalls⟩ := step_cases hstep
      obtain ⟨calls', hcalls'⟩ := ih hrest
      exact ⟨calls ++ calls',
        Machine.run_append_iff.mpr ⟨s₁.sockets, o, os₁.flatten, hcalls, hcalls', rfl⟩⟩

def native (s : Wifi κ η) (k : κ) : Option Nat :=
  (s.clients.target k).bind fun r => s.sockets.holds (.shared r)

omit [DecidableEq κ] [DecidableEq η] in
theorem native_eq_some_iff {k : κ} {n : Nat} :
    s.native k = some n ↔ ∃ r, s.clients.target k = some r ∧ s.sockets.holds (.shared r) = some n :=
  Option.bind_eq_some_iff

omit [DecidableEq κ] [DecidableEq η] in
theorem Sound.client_of_holds (h : s.Sound) {r n : Nat}
    (hholds : s.sockets.holds (.shared r) = some n) : ∃ k, s.clients.target k = some r := by
  rw [← h.counted.pos_iff, ← h.shared, present]
  unfold Sockets.holds at hholds
  cases hobject : s.sockets.object (.shared r) with
  | none =>
      rw [hobject] at hholds
      cases hholds
  | some o => rfl

/-- The system calls so far never touch a handle that is not open, and close each once unless it is
open still. A handle is open exactly while a client or a server has it; clients that have it are
copies of each other, and a server has its own. -/
structure OwnsHandles (os : List (List (SocketEvent (Cell η)))) (s : Wifi κ η) : Prop where
  lawful : Use.Lawful (fun _ => false) (os.flatten.flatMap SocketEvent.calls)
  once : ∀ n, (os.flatten.flatMap SocketEvent.calls).count (.acquire n) =
    (os.flatten.flatMap SocketEvent.calls).count (.release n) + (s.sockets.live n).toNat
  open_iff : ∀ n, s.sockets.live n = true ↔
    (∃ k, s.native k = some n) ∨ ∃ h, s.sockets.holds (.server h) = some n
  copies : ∀ k k' n, s.native k = some n → s.native k' = some n →
    s.clients.target k = s.clients.target k'
  apart : ∀ k h n, s.native k = some n → s.sockets.holds (.server h) ≠ some n

/-- However clients and servers are made, copied, moved, assigned, used and destroyed, and whatever
the kernel answers: no connection is lost while a copy is left, none is kept open after the last,
and none is closed twice. -/
theorem ownsHandles_of_run (hrun : (wifi κ η).run .initial as = some (s, os)) :
    OwnsHandles os s := by
  obtain ⟨calls, hcalls⟩ := sockets_run hrun
  obtain ⟨hlawful, hlive⟩ := lawful_of_run hcalls
  have hgood := good_of_run hcalls
  have hsound : s.Sound :=
    Machine.invariant (M := wifi κ η) (fun _ _ _ _ h hstep => h.step hstep) sound_initial hrun
  refine ⟨hlawful, fun n => ?_, fun n => ?_, ?_, ?_⟩
  · have hcount := hlawful.count n
    rw [← hlive] at hcount
    exact hcount
  · rw [hgood.owns.live_iff]
    constructor
    · rintro ⟨i, hi⟩
      cases i with
      | shared r =>
          obtain ⟨k, hk⟩ := hsound.client_of_holds hi
          exact .inl ⟨k, native_eq_some_iff.mpr ⟨r, hk, hi⟩⟩
      | server h => exact .inr ⟨h, hi⟩
      | accepted =>
          have habsent : s.sockets.object .accepted = none := by
            simpa [present] using hsound.accepted
          rw [Sockets.holds_of_none habsent] at hi
          cases hi
    · rintro (⟨k, hk⟩ | ⟨h, hh⟩)
      · obtain ⟨r, -, hr⟩ := native_eq_some_iff.mp hk
        exact ⟨_, hr⟩
      · exact ⟨_, hh⟩
  · intro k k' n hk hk'
    obtain ⟨r, htarget, hr⟩ := native_eq_some_iff.mp hk
    obtain ⟨r', htarget', hr'⟩ := native_eq_some_iff.mp hk'
    cases hgood.owns.sole _ _ n hr hr'
    rw [htarget, htarget']
  · intro k h n hk hh
    obtain ⟨r, -, hr⟩ := native_eq_some_iff.mp hk
    cases hgood.owns.sole _ _ n hr hh

/-- A client copied before it connects, a second connection that the server accepts over the first
copy, and the end of both copies. -/
def dialled : List (WifiAction Nat Unit) :=
  [.construct 0 7, .copy 1 0, .call 0 (.connect (.connected 3)), .newServer (),
    .serve () (.begin (.listening 4)), .available () 2 8 (.accepted 5), .move 0 2, .destroy 2,
    .call 1 .stop, .call 0 (.read ⟨[65], .up, false⟩ 1 (.data 1)), .destroy 1]

theorem dialled_ownsHandles :
    ∃ s os, (wifi Nat Unit).run .initial dialled = some (s, os) ∧ s.native 0 = some 5 ∧
      s.sockets.live 3 = false ∧ OwnsHandles os s := by
  have hrun : (wifi Nat Unit).run .initial dialled = some (_, _) := rfl
  exact ⟨_, _, hrun, rfl, rfl, ownsHandles_of_run hrun⟩

end Runs

end Wifi

end ZiModem.Hal.Arduino
