import ZiModem.Hal.CInt
import ZiModem.Reactive.Accounting

/-! # The UDP socket of the HAL

`UdpSocket` on the POSIX branch of the source. Name resolution, `sendto` and
`recvfrom` take their outcomes as arguments, so a run may meet any sequence of
datagrams and failures. Two buffers are followed over whole runs: the packet
under construction from `begin_packet` to `end_packet`, and the datagram that
`parse_packet` accepted until the next one replaces it.
-/

namespace ZiModem.Hal.Net

open Reactive

def sizeT : Nat := 18446744073709551616

/-- The size of the buffer that `parse_packet` hands to `recvfrom`. -/
def datagramMax : Nat := 2048

structure UdpSocket where
  handle : Option Nat
  pendingHost : List UInt8
  pendingPort : UInt16
  sendBuffer : List UInt8
  recvBuffer : List UInt8
  recvPos : Nat
  deriving DecidableEq, Repr

/-- A datagram handed to `sendto`, with the host that was resolved to the address. -/
structure SendTo where
  host : List UInt8
  addr : UInt32
  port : UInt16
  payload : List UInt8
  deriving DecidableEq, Repr

namespace UdpSocket

def fresh : UdpSocket := ⟨none, [], 0, [], [], 0⟩

/-- `UdpSocket::close`, without the effect on the native handle. -/
def close (s : UdpSocket) : UdpSocket := { s with handle := none, recvBuffer := [], recvPos := 0 }

/-- `UdpSocket::begin`; `native` is the handle of a socket that could be opened and bound. -/
def begin (s : UdpSocket) : (native : Option Nat) → UdpSocket × Bool
  | none => (s.close, false)
  | some h => ({ s.close with handle := some h }, true)

def beginPacket (s : UdpSocket) (host : List UInt8) (port : UInt16) : UdpSocket × Bool :=
  ({ s with pendingHost := host, pendingPort := port, sendBuffer := [] }, true)

def write (s : UdpSocket) (buf : List UInt8) : UdpSocket × Nat :=
  ({ s with sendBuffer := s.sendBuffer ++ buf }, buf.length)

/-- `UdpSocket::end_packet`, with the `sendto` it made: `addr` is what the pending host resolves
to, `ssize` what `sendto` returns. -/
def endPacket (s : UdpSocket) (addr : Option UInt32) (ssize : Int) :
    UdpSocket × Bool × Option SendTo :=
  if s.handle = none then (s, false, none)
  else
    match addr with
    | none => (s, false, none)
    | some addr =>
        ({ s with sendBuffer := [] }, decide (0 ≤ toInt ssize),
          some ⟨s.pendingHost, addr, s.pendingPort, s.sendBuffer⟩)

/-- What `recvfrom` copies into the buffer of `parse_packet`; the rest of the datagram is lost. -/
def received (datagram : List UInt8) : List UInt8 := datagram.take datagramMax

/-- The `ssize_t` that `recvfrom` returns, with a datagram or without. -/
def recvSize : Option (List UInt8) → Int
  | some datagram => (received datagram).length
  | none => -1

def parsePacket (s : UdpSocket) (datagram : Option (List UInt8)) : UdpSocket × Int :=
  if s.handle = none then (s, 0)
  else
    let n := toInt (recvSize datagram)
    if n ≤ 0 then ({ s with recvBuffer := [], recvPos := 0 }, 0)
    else ({ s with recvBuffer := (received (datagram.getD [])).take n.toNat, recvPos := 0 }, n)

/-- `recv_buffer_.size() - recv_pos_`, which is a `size_t` and wraps around below 0. -/
def remaining (s : UdpSocket) : Nat :=
  if s.recvPos ≤ s.recvBuffer.length then s.recvBuffer.length - s.recvPos
  else s.recvBuffer.length + sizeT - s.recvPos

/-- `UdpSocket::read`: the value returned and the bytes copied to the caller. -/
def read (s : UdpSocket) (len : Nat) : UdpSocket × Int × List UInt8 :=
  let n := min len s.remaining
  if n = 0 then (s, 0, [])
  else ({ s with recvPos := s.recvPos + n }, toInt n, (s.recvBuffer.drop s.recvPos).take n)

def unread (s : UdpSocket) : List UInt8 := s.recvBuffer.drop s.recvPos

end UdpSocket

/-! ## Runs -/

inductive UdpAction
  | begin (native : Option Nat)
  | beginPacket (host : List UInt8) (port : UInt16)
  | write (buf : List UInt8)
  | endPacket (addr : Option UInt32) (ssize : Int)
  | parsePacket (datagram : Option (List UInt8))
  | read (len : Nat)
  | close
  deriving DecidableEq, Repr

/-- What a call shows: its arguments where they are kept, its result, and what it handed to or took
from the kernel. -/
inductive UdpEvent
  | begin (ok : Bool)
  | beginPacket (host : List UInt8) (port : UInt16)
  | write (buf : List UInt8)
  | endPacket (ok : Bool) (call : Option SendTo)
  | parsePacket (datagram : Option (List UInt8)) (ret : Int)
  | read (ret : Int) (bytes : List UInt8)
  | close
  deriving DecidableEq, Repr

def UdpSocket.step (s : UdpSocket) : UdpAction → Option (UdpSocket × UdpEvent)
  | .begin native => some ((s.begin native).1, .begin (s.begin native).2)
  | .beginPacket host port => some ((s.beginPacket host port).1, .beginPacket host port)
  | .write buf => some ((s.write buf).1, .write buf)
  | .endPacket addr ssize =>
      some ((s.endPacket addr ssize).1,
        .endPacket (s.endPacket addr ssize).2.1 (s.endPacket addr ssize).2.2)
  | .parsePacket datagram =>
      some ((s.parsePacket datagram).1, .parsePacket datagram (s.parsePacket datagram).2)
  | .read len => some ((s.read len).1, .read (s.read len).2.1 (s.read len).2.2)
  | .close => some (s.close, .close)

def udp : Machine UdpSocket UdpAction UdpEvent := ⟨UdpSocket.step⟩

namespace UdpEvent

def written : UdpEvent → List UInt8
  | write buf => buf
  | _ => []

/-- The bytes returned to the caller: as many as the result counts. -/
def returned : UdpEvent → List UInt8
  | read ret bytes => bytes.take ret.toNat
  | _ => []

def Begins : UdpEvent → Prop
  | beginPacket _ _ => True
  | _ => False

def Ends : UdpEvent → Prop
  | endPacket _ _ => True
  | _ => False

def Parses : UdpEvent → Prop
  | parsePacket _ _ => True
  | _ => False

def Closes : UdpEvent → Prop
  | begin _ | close => True
  | _ => False

def accepted : UdpEvent → List UInt8
  | parsePacket datagram ret => if 0 < ret then datagram.getD [] else []
  | _ => []

end UdpEvent

/-- What a history shows of the packets. `sends` is about the first `end_packet` after a
`begin_packet`, `reads` about the calls between two `parse_packet`s. -/
structure PacketBoundaries (os : List UdpEvent) (s : UdpSocket) : Prop where
  sends : ∀ xs host port ys ok call zs,
    os = xs ++ .beginPacket host port :: (ys ++ .endPacket ok (some call) :: zs) →
    (∀ o ∈ ys, ¬ o.Begins ∧ ¬ o.Ends) →
    call.payload = ys.flatMap UdpEvent.written ∧ call.host = host ∧ call.port = port
  cursor : s.recvPos ≤ s.recvBuffer.length ∧ s.remaining = s.recvBuffer.length - s.recvPos
  reads : ∀ xs m ys, os = xs ++ m :: ys → m.Parses → (∀ o ∈ ys, ¬ o.Parses) →
    ys.flatMap UdpEvent.returned <+: m.accepted
  gone : ∀ xs m ys, os = xs ++ m :: ys → m.Closes → (∀ o ∈ ys, ¬ o.Parses) →
    ys.flatMap UdpEvent.returned = []
  nothing : (∀ o ∈ os, ¬ o.Parses) → os.flatMap UdpEvent.returned = []

/-! ## The calls -/

namespace UdpSocket

/-- The cursor stands inside of a buffer that fits, and a closed socket holds no datagram. -/
structure Valid (s : UdpSocket) : Prop where
  cursor : s.recvPos ≤ s.recvBuffer.length
  fits : s.recvBuffer.length ≤ datagramMax
  closed : s.handle = none → s.recvBuffer = []

theorem valid_fresh : fresh.Valid := ⟨Nat.le_refl 0, Nat.zero_le _, fun _ => rfl⟩

variable {s s' : UdpSocket}

theorem Valid.remaining_eq (hv : s.Valid) : s.remaining = s.unread.length := by
  unfold remaining unread
  rw [if_pos hv.cursor, List.length_drop]

theorem Valid.unread_length (hv : s.Valid) : s.unread.length ≤ datagramMax := by
  have hfits := hv.fits
  unfold unread
  rw [List.length_drop]
  omega

theorem valid_close (s : UdpSocket) : s.close.Valid :=
  ⟨Nat.le_refl 0, Nat.zero_le _, fun _ => rfl⟩

theorem begin_fst (s : UdpSocket) (native : Option Nat) :
    (s.begin native).1 = { s.close with handle := native } := by
  cases native <;> rfl

theorem read_fst (s : UdpSocket) (len : Nat) :
    (s.read len).1 = { s with recvPos := s.recvPos + min len s.remaining } := by
  unfold read
  by_cases hn : min len s.remaining = 0
  · simp [hn]
  · simp [hn]

theorem Valid.read_spec (hv : s.Valid) (len : Nat) :
    (s.read len).1.Valid ∧ (s.read len).2.1 = (s.read len).2.2.length ∧
      s.unread = (s.read len).2.2 ++ (s.read len).1.unread := by
  have hle : min len s.remaining ≤ s.unread.length := by
    rw [hv.remaining_eq]
    omega
  have hlen : s.unread.length = s.recvBuffer.length - s.recvPos := List.length_drop
  have hmax := hv.unread_length
  have hcursor := hv.cursor
  refine ⟨?_, ?_⟩
  · rw [read_fst]
    apply Valid.mk
    · show s.recvPos + min len s.remaining ≤ s.recvBuffer.length
      omega
    · exact hv.fits
    · exact hv.closed
  · rw [read_fst]
    unfold read
    generalize min len s.remaining = n at hle ⊢
    by_cases hn : n = 0
    · simp [hn, unread]
    · have hret : toInt n = n := by
        apply toInt_natCast
        unfold datagramMax at hmax
        unfold intMax
        omega
      simp only [hn, if_false, hret, Int.natCast_inj, unread]
      constructor
      · rw [List.length_take, List.length_drop]
        omega
      · rw [← List.drop_drop, List.take_append_drop]

/-- `parse_packet` leaves nothing of an earlier datagram, and accepts the one it reports. -/
theorem Valid.parsePacket_spec (hv : s.Valid) (datagram : Option (List UInt8)) :
    (s.parsePacket datagram).1.Valid ∧
      (s.parsePacket datagram).1.sendBuffer = s.sendBuffer ∧
      (s.parsePacket datagram).1.unread <+:
        (UdpEvent.parsePacket datagram (s.parsePacket datagram).2).accepted := by
  unfold parsePacket
  by_cases hclosed : s.handle = none
  · rw [if_pos hclosed]
    refine ⟨hv, rfl, ?_⟩
    rw [unread, hv.closed hclosed]
    simp
  · rw [if_neg hclosed]
    cases datagram with
    | none => exact ⟨⟨Nat.le_refl 0, Nat.zero_le _, fun _ => rfl⟩, rfl, List.nil_prefix⟩
    | some bytes =>
        have hfits : (received bytes).length ≤ datagramMax := List.length_take_le _ _
        have hret : toInt (recvSize (some bytes)) = (received bytes).length := by
          apply toInt_natCast
          unfold datagramMax at hfits
          unfold intMax
          omega
        simp only [hret, Option.getD_some, Int.toNat_natCast, List.take_length]
        split
        next => exact ⟨⟨Nat.le_refl 0, Nat.zero_le _, fun _ => rfl⟩, rfl, List.nil_prefix⟩
        next hpos =>
            refine ⟨⟨Nat.zero_le _, hfits, fun hnone => absurd hnone hclosed⟩, rfl, ?_⟩
            simp only [UdpEvent.accepted, Int.not_le.mp hpos, if_true, Option.getD_some, unread,
              List.drop_zero]
            exact List.take_prefix _ _

theorem Valid.step (hv : s.Valid) {a : UdpAction} {o : UdpEvent}
    (hstep : udp.step s a = some (s', o)) : s'.Valid := by
  cases a with
  | begin native =>
      cases hstep
      rw [begin_fst]
      exact ⟨Nat.le_refl 0, Nat.zero_le _, fun _ => rfl⟩
  | endPacket addr ssize =>
      cases hstep
      unfold endPacket
      split
      · exact hv
      · split
        · exact hv
        · exact ⟨hv.cursor, hv.fits, hv.closed⟩
  | parsePacket datagram =>
      cases hstep
      exact (hv.parsePacket_spec datagram).1
  | read len =>
      cases hstep
      exact (hv.read_spec len).1
  | close =>
      cases hstep
      exact valid_close s
  | beginPacket host port =>
      cases hstep
      exact ⟨hv.cursor, hv.fits, hv.closed⟩
  | write buf =>
      cases hstep
      exact ⟨hv.cursor, hv.fits, hv.closed⟩

/-! ## The packet under construction -/

theorem Valid.step_send (hv : s.Valid) {a : UdpAction} {o : UdpEvent}
    (hstep : udp.step s a = some (s', o)) (hbegins : ¬ o.Begins) (hends : ¬ o.Ends) :
    s'.pendingHost = s.pendingHost ∧ s'.pendingPort = s.pendingPort ∧
      s'.sendBuffer = s.sendBuffer ++ o.written := by
  cases a with
  | begin native =>
      cases hstep
      rw [begin_fst]
      simp [close, UdpEvent.written]
  | beginPacket host port =>
      cases hstep
      exact absurd trivial hbegins
  | write buf =>
      cases hstep
      exact ⟨rfl, rfl, rfl⟩
  | endPacket addr ssize =>
      cases hstep
      exact absurd trivial hends
  | parsePacket datagram =>
      cases hstep
      have hsame : (s.parsePacket datagram).1.pendingHost = s.pendingHost ∧
          (s.parsePacket datagram).1.pendingPort = s.pendingPort := by
        unfold parsePacket
        split
        · exact ⟨rfl, rfl⟩
        · dsimp only
          split
          · exact ⟨rfl, rfl⟩
          · exact ⟨rfl, rfl⟩
      refine ⟨hsame.1, hsame.2, ?_⟩
      simp [UdpEvent.written, (hv.parsePacket_spec datagram).2.1]
  | read len =>
      cases hstep
      rw [read_fst]
      simp [UdpEvent.written]
  | close =>
      cases hstep
      simp [close, UdpEvent.written]

theorem step_sendTo {a : UdpAction} {ok : Bool} {call : SendTo}
    (hstep : udp.step s a = some (s', .endPacket ok (some call))) :
    call.payload = s.sendBuffer ∧ call.host = s.pendingHost ∧ call.port = s.pendingPort := by
  cases a with
  | endPacket addr ssize =>
      simp only [udp, UdpSocket.step, endPacket, Option.some.injEq, Prod.mk.injEq,
        UdpEvent.endPacket.injEq] at hstep
      obtain ⟨-, -, hcall⟩ := hstep
      by_cases hclosed : s.handle = none
      · simp [hclosed] at hcall
      · cases addr with
        | none => simp [hclosed] at hcall
        | some addr =>
            simp only [hclosed, if_false, Option.some.injEq] at hcall
            rw [← hcall]
            exact ⟨rfl, rfl, rfl⟩
  | _ => cases hstep

/-! ## The accepted datagram -/

theorem Valid.step_keeps (hv : s.Valid) {a : UdpAction} {o : UdpEvent}
    (hstep : udp.step s a = some (s', o)) (hparses : ¬ o.Parses) (hcloses : ¬ o.Closes) :
    o.returned ++ s'.unread = s.unread := by
  cases a with
  | begin native =>
      cases hstep
      exact absurd trivial hcloses
  | endPacket addr ssize =>
      cases hstep
      show (s.endPacket addr ssize).1.unread = s.unread
      unfold endPacket
      split
      · rfl
      · split <;> rfl
  | parsePacket datagram =>
      cases hstep
      exact absurd trivial hparses
  | read len =>
      cases hstep
      obtain ⟨-, hret, hsplit⟩ := hv.read_spec len
      show List.take (s.read len).2.1.toNat (s.read len).2.2 ++ _ = _
      rw [hret, Int.toNat_natCast, List.take_length, ← hsplit]
  | close =>
      cases hstep
      exact absurd trivial hcloses
  | beginPacket host port =>
      cases hstep
      rfl
  | write buf =>
      cases hstep
      rfl

theorem Valid.step_unread (hv : s.Valid) {a : UdpAction} {o : UdpEvent}
    (hstep : udp.step s a = some (s', o)) (hparses : ¬ o.Parses) :
    o.returned ++ s'.unread <+: s.unread := by
  by_cases hcloses : o.Closes
  · cases a with
    | begin native =>
        cases hstep
        rw [begin_fst]
        exact List.nil_prefix
    | close =>
        cases hstep
        exact List.nil_prefix
    | _ =>
        cases hstep
        exact hcloses.elim
  · rw [hv.step_keeps hstep hparses hcloses]

end UdpSocket

/-! ## Packet boundaries over whole runs -/

section Boundaries

variable {s : UdpSocket} {as : List UdpAction} {os : List UdpEvent}

theorem sends_of_run (hrun : udp.run .fresh as = some (s, os)) {xs ys zs : List UdpEvent}
    {host : List UInt8} {port : UInt16} {ok : Bool} {call : SendTo}
    (hos : os = xs ++ .beginPacket host port :: (ys ++ .endPacket ok (some call) :: zs))
    (hys : ∀ o ∈ ys, ¬ o.Begins ∧ ¬ o.Ends) :
    call.payload = ys.flatMap UdpEvent.written ∧ call.host = host ∧ call.port = port := by
  have hcut : os = (xs ++ .beginPacket host port :: ys) ++ .endPacket ok (some call) :: zs := by
    rw [hos, List.append_assoc, List.cons_append]
  rw [hcut] at hrun
  obtain ⟨as₁, a, as₂, s₁, s₂, -, hbefore, hstep, -⟩ := Machine.run_split hrun
  have hbuilt : s₁.pendingHost = host ∧ s₁.pendingPort = port ∧
      s₁.sendBuffer = ys.flatMap UdpEvent.written := by
    apply Machine.since (J := UdpSocket.Valid) (P := fun o => o = .beginPacket host port)
      (Q := fun o => o.Begins ∨ o.Ends)
      (K := fun _ ys s => s.pendingHost = host ∧ s.pendingPort = port ∧
        s.sendBuffer = ys.flatMap UdpEvent.written)
      (fun _ _ _ _ hv hstep => hv.step hstep) ?_ ?_ UdpSocket.valid_fresh hbefore rfl rfl
      (fun o ho => not_or.mpr (hys o ho))
    · rintro s a s' o - hstep rfl
      cases a with
      | beginPacket host port =>
          cases hstep
          exact ⟨rfl, rfl, rfl⟩
      | _ => cases hstep
    · intro m os s a s' o hv hk hstep hstop
      obtain ⟨hhost, hport, hbuffer⟩ := hv.step_send hstep (not_or.mp hstop).1 (not_or.mp hstop).2
      rw [hhost, hport, hbuffer, hk.2.2, List.flatMap_append, List.flatMap_singleton]
      exact ⟨hk.1, hk.2.1, rfl⟩
  obtain ⟨hpayload, hhost, hport⟩ := UdpSocket.step_sendTo hstep
  exact ⟨hpayload.trans hbuilt.2.2, hhost.trans hbuilt.1, hport.trans hbuilt.2.1⟩

/-- What the calls since `m` returned, followed by what is still unread, starts `f m`. -/
theorem returned_since {P : UdpEvent → Prop} {f : UdpEvent → List UInt8}
    (hstart : ∀ s a s' o, s.Valid → udp.step s a = some (s', o) → P o →
      s'.unread <+: f o)
    (hrun : udp.run .fresh as = some (s, os)) {xs ys : List UdpEvent} {m : UdpEvent}
    (hos : os = xs ++ m :: ys) (hm : P m) (hys : ∀ o ∈ ys, ¬ o.Parses) :
    ys.flatMap UdpEvent.returned <+: f m := by
  have hall : ys.flatMap UdpEvent.returned ++ s.unread <+: f m := by
    apply Machine.since (J := UdpSocket.Valid)
      (K := fun m ys s => ys.flatMap UdpEvent.returned ++ s.unread <+: f m)
      (fun _ _ _ _ hv hstep => hv.step hstep) hstart ?_ UdpSocket.valid_fresh hrun hos hm hys
    intro m os s a s' o hv hk hstep hparses
    rw [List.flatMap_append, List.flatMap_singleton, List.append_assoc]
    exact ((List.prefix_append_right_inj _).mpr (hv.step_unread hstep hparses)).trans hk
  exact (List.prefix_append _ _).trans hall

theorem reads_of_run (hrun : udp.run .fresh as = some (s, os)) {xs ys : List UdpEvent}
    {m : UdpEvent} (hos : os = xs ++ m :: ys) (hm : m.Parses) (hys : ∀ o ∈ ys, ¬ o.Parses) :
    ys.flatMap UdpEvent.returned <+: m.accepted := by
  apply returned_since ?_ hrun hos hm hys
  intro s a s' o hv hstep ho
  cases a with
  | parsePacket datagram =>
      cases hstep
      exact (hv.parsePacket_spec datagram).2.2
  | _ =>
      cases hstep
      exact ho.elim

theorem gone_of_run (hrun : udp.run .fresh as = some (s, os)) {xs ys : List UdpEvent}
    {m : UdpEvent} (hos : os = xs ++ m :: ys) (hm : m.Closes) (hys : ∀ o ∈ ys, ¬ o.Parses) :
    ys.flatMap UdpEvent.returned = [] := by
  apply List.prefix_nil.mp
  apply returned_since (f := fun _ => []) ?_ hrun hos hm hys
  intro s a s' o _ hstep ho
  cases a with
  | begin native =>
      cases hstep
      rw [UdpSocket.begin_fst]
      exact List.prefix_rfl
  | close =>
      cases hstep
      exact List.prefix_rfl
  | _ =>
      cases hstep
      exact ho.elim

theorem nothing_of_run (hrun : udp.run .fresh as = some (s, os)) (hos : ∀ o ∈ os, ¬ o.Parses) :
    os.flatMap UdpEvent.returned = [] := by
  have hall : s.Valid ∧ ((∀ o ∈ os, ¬ o.Parses) →
      os.flatMap UdpEvent.returned ++ s.unread = []) := by
    apply Machine.history (I := fun os s => s.Valid ∧ ((∀ o ∈ os, ¬ o.Parses) →
      os.flatMap UdpEvent.returned ++ s.unread = [])) ?_ ⟨UdpSocket.valid_fresh, fun _ => rfl⟩ hrun
    intro os s a s' o h hstep
    apply And.intro (h.1.step hstep)
    intro hparses
    have hnil := h.2 fun x hx => hparses x (List.mem_append_left _ hx)
    have hlast := h.1.step_unread hstep (hparses o (by simp))
    rw [(List.append_eq_nil_iff.mp hnil).2] at hlast
    rw [List.flatMap_append, List.flatMap_singleton, List.append_assoc,
      List.prefix_nil.mp hlast, (List.append_eq_nil_iff.mp hnil).1]
    rfl
  exact (List.append_eq_nil_iff.mp (hall.2 hos)).1

/-- Packets keep their boundaries, in both directions, over every sequence of calls. -/
theorem packetBoundaries_of_run (hrun : udp.run .fresh as = some (s, os)) :
    PacketBoundaries os s where
  sends := fun _ _ _ _ _ _ _ hos hys => sends_of_run hrun hos hys
  cursor := by
    have hv : s.Valid := Machine.invariant (fun _ _ _ _ hv hstep => hv.step hstep)
      UdpSocket.valid_fresh hrun
    refine ⟨hv.cursor, ?_⟩
    rw [hv.remaining_eq, UdpSocket.unread, List.length_drop]
  reads := fun _ _ _ hos hm hys => reads_of_run hrun hos hm hys
  gone := fun _ _ _ hos hm hys => gone_of_run hrun hos hm hys
  nothing := fun hos => nothing_of_run hrun hos

end Boundaries

/-- A packet that cannot be sent, another one that is, a datagram read in part, and the next. -/
def packets : List UdpAction :=
  [.begin (some 3), .beginPacket [97] 7, .write [1], .endPacket none 0, .beginPacket [98] 9,
    .write [2], .write [3], .endPacket (some 5) 2, .parsePacket (some [4, 5, 6]), .read 2,
    .parsePacket (some [7]), .read 9]

theorem packetBoundaries_packets : ∃ s os, udp.run .fresh packets = some (s, os) ∧
    .endPacket true (some ⟨[98], 5, 9, [2, 3]⟩) ∈ os ∧ .read 1 [7] ∈ os ∧
      PacketBoundaries os s := by
  have hrun : udp.run .fresh packets = some (_, _) := rfl
  exact ⟨_, _, hrun, by decide, by decide, packetBoundaries_of_run hrun⟩

end ZiModem.Hal.Net
