import ZiModem.Hal.Net.UdpSocket

/-! # Whole datagrams

`parse_packet` hands `recvfrom` a buffer of 2048 bytes and reports what came back.
A UDP packet can carry up to 65507 bytes; on POSIX the rest of a longer one is
lost, and the size reported is that of the part. The calls are followed with the
state they meet, because only an open socket finds a datagram.
-/

namespace ZiModem.Hal.Net

open Reactive

def udpPayloadMax : Nat := 65507

structure UdpEntry where
  before : UdpSocket
  action : UdpAction
  event : UdpEvent
  deriving DecidableEq, Repr

def udpJournal : Machine UdpSocket UdpAction UdpEntry := udp.observe fun s a o => ⟨s, a, o⟩

namespace UdpEntry

def Finds (e : UdpEntry) (datagram : List UInt8) : Prop :=
  e.before.handle ≠ none ∧ e.action = .parsePacket (some datagram)

def Drops (e : UdpEntry) : Prop := e.event.Parses ∨ e.event.Closes

def ReadsNothing (e : UdpEntry) : Prop :=
  ∃ len bytes, 0 < len ∧ e.action = .read len ∧ e.event = .read 0 bytes

end UdpEntry

/-- Every datagram found is reported with its size, and if it was read until nothing came, with
buffers of any sizes, then what came is its payload. -/
structure WholeDatagrams (es : List UdpEntry) : Prop where
  size : ∀ e ∈ es, ∀ datagram, e.Finds datagram →
    e.event = .parsePacket (some datagram) datagram.length
  payload : ∀ xs e ys r datagram, es = xs ++ e :: (ys ++ [r]) → e.Finds datagram →
    (∀ y ∈ ys, ¬ y.Drops) → r.ReadsNothing → ys.flatMap (·.event.returned) = datagram

/-- The side condition on a step: a datagram that is found fits the buffer of `parse_packet`. -/
def FindsShort (s : UdpSocket) : UdpAction → Prop
  | .parsePacket (some datagram) => s.handle ≠ none → datagram.length ≤ datagramMax
  | _ => True

/-! ## One step -/

section Step

variable {s s' : UdpSocket} {a : UdpAction} {e : UdpEntry} {es : List UdpEntry}

theorem udpJournal_step_iff :
    udpJournal.step s a = some (s', e) ↔
      e.before = s ∧ e.action = a ∧ udp.step s a = some (s', e.event) := by
  obtain ⟨before, action, event⟩ := e
  rw [udpJournal, Machine.observe_step_iff]
  constructor
  · rintro ⟨o, hstep, heq⟩
    cases heq
    exact ⟨rfl, rfl, hstep⟩
  · rintro ⟨rfl, rfl, hstep⟩
    exact ⟨event, hstep, rfl⟩

theorem UdpSocket.parsePacket_found (hopen : s.handle ≠ none) (datagram : List UInt8) :
    (s.parsePacket (some datagram)).2 = (received datagram).length ∧
      (s.parsePacket (some datagram)).1.unread = received datagram := by
  have hfits : (received datagram).length ≤ datagramMax := List.length_take_le _ _
  have hret : toInt (recvSize (some datagram)) = (received datagram).length := by
    apply toInt_natCast
    unfold datagramMax at hfits
    unfold intMax
    omega
  simp only [parsePacket, if_neg hopen, hret, Option.getD_some, Int.toNat_natCast,
    List.take_length]
  split
  next hnone =>
    have hempty : received datagram = [] := List.eq_nil_of_length_eq_zero (by omega)
    simp [hempty, unread]
  next => simp [unread]

/-- A datagram that was found is there up to the size of the buffer, minus what was read. -/
structure HoldsDatagram (es : List UdpEntry) (s : UdpSocket) : Prop where
  valid : s.Valid
  reported : ∀ e ∈ es, ∀ datagram, e.Finds datagram →
    e.event = .parsePacket (some datagram) (UdpSocket.received datagram).length
  left : ∀ xs e ys datagram, es = xs ++ e :: ys → e.Finds datagram → (∀ y ∈ ys, ¬ y.Drops) →
    ys.flatMap (·.event.returned) ++ s.unread = UdpSocket.received datagram

theorem found_event {datagram : List UInt8} (hfinds : e.Finds datagram)
    (h : udpJournal.step s a = some (s', e)) :
    e.event = .parsePacket (some datagram) (UdpSocket.received datagram).length ∧
      s'.unread = UdpSocket.received datagram := by
  obtain ⟨rfl, rfl, hstep⟩ := udpJournal_step_iff.mp h
  obtain ⟨hopen, haction⟩ := hfinds
  obtain ⟨hret, hunread⟩ := UdpSocket.parsePacket_found hopen datagram
  rw [haction] at hstep
  simp only [udp, UdpSocket.step, Option.some.injEq, Prod.mk.injEq] at hstep
  obtain ⟨rfl, hevent⟩ := hstep
  rw [← hevent, hret]
  exact ⟨rfl, hunread⟩

theorem holdsDatagram_step (hJ : HoldsDatagram es s) (h : udpJournal.step s a = some (s', e)) :
    HoldsDatagram (es ++ [e]) s' := by
  have hstep := (udpJournal_step_iff.mp h).2.2
  refine ⟨hJ.valid.step hstep, ?_, ?_⟩
  · intro e' hmem datagram hfinds
    rcases List.mem_append.mp hmem with hmem | hmem
    · exact hJ.reported e' hmem datagram hfinds
    · rw [List.mem_singleton.mp hmem] at hfinds ⊢
      exact (found_event hfinds h).1
  · intro xs e' ys datagram hes hfinds hdrops
    rcases List.eq_nil_or_concat ys with rfl | ⟨ys, y, rfl⟩
    · obtain ⟨-, hlast⟩ := List.append_inj' hes rfl
      cases hlast
      exact (found_event hfinds h).2
    · rw [List.concat_eq_append] at hes hdrops ⊢
      rw [← List.cons_append, ← List.append_assoc] at hes
      obtain ⟨rfl, hlast⟩ := List.append_inj' hes rfl
      cases hlast
      obtain ⟨hparses, hcloses⟩ := not_or.mp (hdrops e (by simp))
      have hbefore := hJ.left xs e' ys datagram rfl hfinds fun y hy =>
        hdrops y (List.mem_append_left _ hy)
      rw [← hJ.valid.step_keeps hstep hparses hcloses, ← List.append_assoc] at hbefore
      rw [List.flatMap_append, List.flatMap_singleton]
      exact hbefore

theorem readsNothing_unread (hv : s.Valid) (h : udpJournal.step s a = some (s', e))
    (hnothing : e.ReadsNothing) : s.unread = [] := by
  obtain ⟨len, bytes, hpos, haction, hevent⟩ := hnothing
  obtain ⟨rfl, rfl, hstep⟩ := udpJournal_step_iff.mp h
  rw [haction, hevent] at hstep
  simp only [udp, UdpSocket.step, Option.some.injEq, Prod.mk.injEq, UdpEvent.read.injEq] at hstep
  obtain ⟨-, hret, -⟩ := hstep
  have hfits := hv.unread_length
  unfold UdpSocket.read at hret
  rw [hv.remaining_eq] at hret
  by_cases hnone : min len e.before.unread.length = 0
  · apply List.eq_nil_of_length_eq_zero
    omega
  · rw [if_neg hnone] at hret
    have hcast : toInt (min len e.before.unread.length : Nat) =
        (min len e.before.unread.length : Nat) := by
      apply toInt_natCast
      unfold datagramMax at hfits
      unfold intMax
      omega
    simp only [hcast, Int.natCast_eq_zero] at hret
    exact absurd hret hnone

theorem wholeDatagrams_snoc_iff (hJ : HoldsDatagram es s) (hI : WholeDatagrams es)
    (h : udpJournal.step s a = some (s', e)) :
    WholeDatagrams (es ++ [e]) ↔ FindsShort s a := by
  obtain ⟨hbefore, haction, -⟩ := udpJournal_step_iff.mp h
  constructor
  · intro hafter
    unfold FindsShort
    split
    next datagram =>
      intro hopen
      have hfinds : e.Finds datagram := ⟨by rwa [hbefore], haction⟩
      have hsize := hafter.size e (by simp) datagram hfinds
      rw [(found_event hfinds h).1] at hsize
      simp only [UdpEvent.parsePacket.injEq, true_and, Int.natCast_inj, UdpSocket.received,
        List.length_take] at hsize
      omega
    next => trivial
  · intro hshort
    have hreceived : ∀ e' ∈ es ++ [e], ∀ datagram, e'.Finds datagram →
        UdpSocket.received datagram = datagram := by
      intro e' hmem datagram hfinds
      apply List.take_of_length_le
      rcases List.mem_append.mp hmem with hmem | hmem
      · have hsize := hI.size e' hmem datagram hfinds
        rw [hJ.reported e' hmem datagram hfinds] at hsize
        simp only [UdpEvent.parsePacket.injEq, true_and, Int.natCast_inj, UdpSocket.received,
          List.length_take] at hsize
        omega
      · rw [List.mem_singleton.mp hmem] at hfinds
        rw [← haction, hfinds.2, ← hbefore] at hshort
        exact hshort hfinds.1
    have hafter := holdsDatagram_step hJ h
    refine ⟨?_, ?_⟩
    · intro e' hmem datagram hfinds
      rw [hafter.reported e' hmem datagram hfinds, hreceived e' hmem datagram hfinds]
    · intro xs e' ys r datagram hes hfinds hdrops hnothing
      rw [← List.cons_append, ← List.append_assoc] at hes
      obtain ⟨rfl, hlast⟩ := List.append_inj' hes rfl
      cases hlast
      have hleft := hJ.left xs e' ys datagram rfl hfinds hdrops
      rw [readsNothing_unread hJ.valid h hnothing, List.append_nil] at hleft
      rw [hleft]
      exact hreceived e' (by simp) datagram hfinds

end Step

/-! ## Whole runs -/

theorem holdsDatagram_fresh : HoldsDatagram [] .fresh :=
  ⟨UdpSocket.valid_fresh, by simp, fun xs e ys datagram hes => by simp at hes⟩

/-- Over every sequence of calls and of datagrams, each datagram found is reported and read whole
exactly as long as none that is found exceeds the buffer. -/
theorem wholeDatagrams_iff {as : List UdpAction} {s : UdpSocket} {es : List UdpEntry}
    (hrun : udpJournal.run .fresh as = some (s, es)) :
    udpJournal.Throughout (fun es _ => WholeDatagrams es) .fresh as ↔
      udpJournal.Along FindsShort .fresh as := by
  rw [← Machine.along_recorded hrun []]
  apply Machine.throughout_iff_recorded (J := HoldsDatagram) _ _ holdsDatagram_fresh _ hrun
  · intro es s a s' e hJ hstep
    exact holdsDatagram_step hJ hstep
  · intro es s a s' e hJ hI hstep
    exact wholeDatagrams_snoc_iff hJ hI hstep
  · exact ⟨by simp, fun xs e ys r datagram hes => by simp at hes⟩

/-- A short datagram that is read byte by byte. -/
theorem wholeDatagrams_short :
    udpJournal.Throughout (fun es _ => WholeDatagrams es) .fresh
      [.begin (some 3), .parsePacket none, .parsePacket (some [4, 5]), .read 1, .read 1, .read 1] :=
  (wholeDatagrams_iff rfl).mpr
    ⟨trivial, trivial, fun _ => by decide, trivial, trivial, trivial, trivial⟩

/-- Of a datagram of 2049 bytes one is lost, and the size reported is 2048. -/
theorem not_wholeDatagrams : ¬ ∀ (as : List UdpAction) (s : UdpSocket) (es : List UdpEntry),
    (∀ datagram, .parsePacket (some datagram) ∈ as →
      1 ≤ datagram.length ∧ datagram.length ≤ udpPayloadMax) →
    udpJournal.run .fresh as = some (s, es) → WholeDatagrams es := by
  intro hall
  have hlong : ∀ datagram : List UInt8, datagram.length ≠ 2049 := by
    intro datagram hlength
    have hwhole := hall [.begin (some 3), .parsePacket (some datagram)] _ _
      (by simp [hlength, udpPayloadMax]) rfl
    have hsize := hwhole.size _ (List.mem_cons_of_mem _ List.mem_cons_self) datagram
      ⟨by simp [UdpSocket.begin], rfl⟩
    simp only [UdpEvent.parsePacket.injEq, true_and] at hsize
    rw [(UdpSocket.parsePacket_found (by simp [UdpSocket.begin]) datagram).1,
      Int.natCast_inj, UdpSocket.received, List.length_take, hlength] at hsize
    exact absurd hsize (by decide)
  exact hlong (List.replicate 2049 0) List.length_replicate

end ZiModem.Hal.Net
