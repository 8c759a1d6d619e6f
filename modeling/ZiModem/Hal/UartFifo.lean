import ZiModem.Hal.Uart

/-! # The virtual UART's queues are exact

Both queues are flows of the concurrent UART: over any run, whatever threads
call and however their calls interleave, the bytes that went in are the bytes
popped followed by the bytes still queued. A call of `readBytes` is a segment of
such a run, and the bytes it reports are the pops its thread made in between.
-/

namespace ZiModem.Hal

open Reactive

variable {τ γ : Type*}

namespace UartEvent

def thread : UartEvent τ → τ
  | feedInput t _ | available t _ | read t _ | peek t _ | setTimeout t | readBytesCall t _ | clock t
  | poll t _ | readBytesReturn t _ _ | write t _ _ | rxAvailable t _ | rxRead t _ => t

def fed : UartEvent τ → List UInt8
  | feedInput _ data => data
  | _ => []

/-- Host to modem: the byte that a `read`, alone or within `readBytes`, took out. -/
def popped : UartEvent τ → List UInt8
  | read _ ret | poll _ ret => byteOf ret
  | _ => []

def written : UartEvent τ → List UInt8
  | write _ data _ => data
  | _ => []

def rxPopped : UartEvent τ → List UInt8
  | rxRead _ ret => byteOf ret
  | _ => []

/-- The value returned where the event looks at the front of the host-to-modem queue. -/
def inputRet : UartEvent τ → Option Int
  | read _ ret | peek _ ret | poll _ ret => some ret
  | _ => none

/-- The value returned where the event pops the modem-to-host queue. -/
def rxRet : UartEvent τ → Option Int
  | rxRead _ ret => some ret
  | _ => none

def TowardsHost : UartEvent τ → Prop
  | write _ _ _ | rxAvailable _ _ | rxRead _ _ => True
  | _ => False

variable [DecidableEq τ]

def poppedBy (t : τ) : UartEvent τ → List UInt8
  | read t' ret | poll t' ret => if t' = t then byteOf ret else []
  | _ => []

end UartEvent

def inputFlow : Flow (Uart τ γ) (UartEvent τ) UInt8 :=
  ⟨fun s => s.serial.input, UartEvent.fed, UartEvent.popped⟩

def rxFlow : Flow (Uart τ γ) (UartEvent τ) UInt8 :=
  ⟨fun s => s.serial.rxQueue, UartEvent.written, UartEvent.rxPopped⟩

/-! ## One step -/

def SerialStep (s : Serial γ) : UartEvent τ → Serial γ → Prop
  | .feedInput _ data, s' => s' = s.feedInput data
  | .available _ ret, s' => s' = s ∧ ret = s.available
  | .read _ ret, s' | .poll _ ret, s' => s' = s.read.1 ∧ ret = s.read.2
  | .peek _ ret, s' => s' = s ∧ ret = s.peek
  | .write _ data ret, s' => s' = (s.write data).1 ∧ ret = data.length
  | .rxAvailable _ ret, s' => s' = s ∧ ret = s.rxAvailable
  | .rxRead _ ret, s' => s' = s.rxRead.1 ∧ ret = s.rxRead.2
  | _, s' => s' = s

/-- What an event of its own thread says about the call of `readBytes` in progress there. -/
def ReadBytesStep : Option ReadBytes → UartEvent τ → Option ReadBytes → Prop
  | none, .readBytesCall _ length, r => ∃ rb, r = some rb ∧ rb.length = length ∧ rb.buffer = []
  | some rb, .poll _ ret, r =>
      ∃ rb', r = some rb' ∧ rb'.length = rb.length ∧ rb'.buffer = rb.buffer ++ byteOf ret ∧
        rb.buffer.length < rb.length
  | some rb, .clock _, r => ∃ rb', r = some rb' ∧ rb'.length = rb.length ∧ rb'.buffer = rb.buffer
  | some rb, .readBytesReturn _ count buffer, r =>
      r = none ∧ count = rb.buffer.length ∧ buffer = rb.buffer
  | some _, _, _ => False
  | none, .poll _ _, _ | none, .clock _, _ | none, .readBytesReturn _ _ _, _ => False
  | none, _, r => r = none

/-- Everything one step can do: its effect on the queues and on its own thread's `readBytes`, and
that no other thread's `readBytes` is touched. -/
def UartStep (s : Uart τ γ) (o : UartEvent τ) (s' : Uart τ γ) : Prop :=
  SerialStep s.serial o s'.serial ∧
    ReadBytesStep (s.readBytes o.thread) o (s'.readBytes o.thread) ∧
    ∀ t, t ≠ o.thread → s'.readBytes t = s.readBytes t

section Consequences

variable {s s' : Uart τ γ} {o : UartEvent τ}

theorem UartStep.input_conserves (h : UartStep s o s') : inputFlow.Conserves s o s' := by
  have hq := h.1
  cases o with
  | read t ret | poll t ret =>
      rcases hq with ⟨hs, rfl⟩
      simp only [Flow.Conserves, inputFlow, UartEvent.fed, UartEvent.popped, hs, List.append_nil]
      exact s.serial.read_conserves
  | feedInput t data =>
      have hs : s'.serial = s.serial.feedInput data := hq
      simp [Flow.Conserves, inputFlow, UartEvent.fed, UartEvent.popped, hs]
  | write t data ret | rxRead t ret =>
      rcases hq with ⟨hs, rfl⟩
      simp [Flow.Conserves, inputFlow, UartEvent.fed, UartEvent.popped, hs]
  | _ => simp_all [Flow.Conserves, inputFlow, UartEvent.fed, UartEvent.popped, SerialStep]

theorem UartStep.rx_conserves (h : UartStep s o s') : rxFlow.Conserves s o s' := by
  have hq := h.1
  cases o with
  | rxRead t ret =>
      rcases hq with ⟨hs, rfl⟩
      simp only [Flow.Conserves, rxFlow, UartEvent.written, UartEvent.rxPopped, hs, List.append_nil]
      exact s.serial.rxRead_conserves
  | feedInput t data =>
      have hs : s'.serial = s.serial.feedInput data := hq
      simp [Flow.Conserves, rxFlow, UartEvent.written, UartEvent.rxPopped, hs]
  | write t data ret | read t ret | poll t ret =>
      rcases hq with ⟨hs, rfl⟩
      simp [Flow.Conserves, rxFlow, UartEvent.written, UartEvent.rxPopped, hs]
  | _ => simp_all [Flow.Conserves, rxFlow, UartEvent.written, UartEvent.rxPopped, SerialStep]

theorem UartStep.inputRet_eq {ret : Int} (h : UartStep s o s') (hret : o.inputRet = some ret) :
    ret = byteOrNone s.serial.input := by
  have hq := h.1
  cases o with
  | read t r | poll t r | peek t r =>
      cases hret
      exact hq.2
  | _ => cases hret

theorem UartStep.rxRet_eq {ret : Int} (h : UartStep s o s') (hret : o.rxRet = some ret) :
    ret = byteOrNone s.serial.rxQueue := by
  have hq := h.1
  cases o with
  | rxRead t r =>
      cases hret
      exact hq.2
  | _ => cases hret

theorem UartStep.keeps_other_queue (h : UartStep s o s') :
    (o.TowardsHost → s'.serial.input = s.serial.input) ∧
      (¬ o.TowardsHost → s'.serial.rxQueue = s.serial.rxQueue) := by
  have hq := h.1
  cases o <;> simp_all [SerialStep, UartEvent.TowardsHost]

end Consequences

/-! ## The machine's steps -/

section Step

variable [DecidableEq τ] {w : Nat} {s s' : Uart τ γ} {a : UartAction τ} {o : UartEvent τ}

@[simp] theorem Uart.setReadBytes_self (t : τ) (rb : Option ReadBytes) :
    (s.setReadBytes t rb).readBytes t = rb := by
  simp [setReadBytes]

theorem Uart.setReadBytes_other {t t' : τ} (rb : Option ReadBytes) (h : t' ≠ t) :
    (s.setReadBytes t rb).readBytes t' = s.readBytes t' := by
  simp [setReadBytes, h]

theorem Uart.clock_spec {t : τ} {now : Nat} {rb : ReadBytes} (hrb : s.readBytes t = some rb)
    (h : s.clock w t now rb = some (s', o)) : UartStep s o s' := by
  unfold Uart.clock at h
  cases hpc : rb.pc with
  | setDeadline =>
      simp only [hpc, Option.some.injEq, Prod.mk.injEq] at h
      rcases h with ⟨rfl, rfl⟩
      refine ⟨rfl, ?_, fun t' ht => Uart.setReadBytes_other _ ht⟩
      simp [UartEvent.thread, ReadBytesStep, hrb]
  | checkDeadline =>
      simp only [hpc] at h
      by_cases hdead : rb.deadline ≤ now % 2 ^ w
      · rw [if_pos hdead] at h
        cases h
        refine ⟨rfl, ?_, fun t' ht => Uart.setReadBytes_other _ ht⟩
        simp [UartEvent.thread, ReadBytesStep, hrb]
      · rw [if_neg hdead] at h
        cases h
        refine ⟨rfl, ?_, fun t' ht => Uart.setReadBytes_other _ ht⟩
        simp [UartEvent.thread, ReadBytesStep, hrb]
  | loop => simp [hpc] at h

theorem Uart.iterate_spec {t : τ} {rb : ReadBytes} (hrb : s.readBytes t = some rb)
    (h : s.iterate t rb = some (s', o)) : UartStep s o s' := by
  unfold Uart.iterate at h
  cases hpc : rb.pc with
  | loop =>
      simp only [hpc] at h
      by_cases hroom : rb.buffer.length < rb.length
      · rw [if_pos hroom] at h
        cases h
        refine ⟨⟨rfl, rfl⟩, ?_, fun t' ht => Uart.setReadBytes_other _ ht⟩
        simp only [UartEvent.thread, hrb, setReadBytes_self, ReadBytesStep]
        refine ⟨_, rfl, ?_, ?_, hroom⟩
        · by_cases hc : 0 ≤ s.serial.read.2 <;> simp [hc]
        · -- the byte stored is the byte that came back through the `int`
          by_cases hc : 0 ≤ s.serial.read.2 <;> simp [hc, byteOf]
      · rw [if_neg hroom] at h
        cases h
        refine ⟨rfl, ?_, fun t' ht => Uart.setReadBytes_other _ ht⟩
        simp [UartEvent.thread, ReadBytesStep, hrb]
  | setDeadline => simp [hpc] at h
  | checkDeadline => simp [hpc] at h

theorem Uart.call_spec (hrb : s.readBytes a.thread = none) (h : s.call a = some (s', o)) :
    UartStep s o s' := by
  cases a with
  | readBytes t length =>
      cases h
      refine ⟨rfl, ?_, fun t' ht => Uart.setReadBytes_other _ ht⟩
      have hidle : s.readBytes t = none := hrb
      simp [UartEvent.thread, ReadBytesStep, hidle]
  | clock t now => cases h
  | iterate t => cases h
  | feedInput t data | available t | read t | peek t | setTimeout t ms | write t data
  | rxAvailable t | rxRead t =>
      cases h
      have hidle : s.readBytes t = none := hrb
      simp [UartStep, SerialStep, UartEvent.thread, ReadBytesStep, hidle]

theorem Uart.step_spec (h : s.step w a = some (s', o)) : UartStep s o s' := by
  unfold Uart.step at h
  cases hrb : s.readBytes a.thread with
  | none =>
      simp only [hrb] at h
      exact Uart.call_spec hrb h
  | some rb =>
      simp only [hrb] at h
      cases a with
      | clock t now => exact Uart.clock_spec hrb h
      | iterate t => exact Uart.iterate_spec hrb h
      | _ => cases h

end Step

/-! ## Runs -/

section Runs

variable [DecidableEq τ] {w : Nat} {s₀ s : Uart τ γ} {as : List (UartAction τ)}
  {os : List (UartEvent τ)}

theorem input_balanced (hrun : (uart τ γ w).run s₀ as = some (s, os)) :
    inputFlow.Balanced s₀ os s :=
  Flow.balanced_run (J := fun _ => True) (fun _ _ _ _ _ _ => trivial)
    (fun _ _ _ _ _ h => (Uart.step_spec h).input_conserves) trivial hrun

theorem rx_balanced (hrun : (uart τ γ w).run s₀ as = some (s, os)) : rxFlow.Balanced s₀ os s :=
  Flow.balanced_run (J := fun _ => True) (fun _ _ _ _ _ _ => trivial)
    (fun _ _ _ _ _ h => (Uart.step_spec h).rx_conserves) trivial hrun

/-- Thread `t` is inside a call of `readBytes` with the given length and has stored `popped`. -/
def InReadBytes (t : τ) (length : Nat) (popped : List UInt8) (s : Uart τ γ) : Prop :=
  ∃ rb, s.readBytes t = some rb ∧ rb.length = length ∧ rb.buffer = popped ∧
    popped.length ≤ length

/-- One step of the machine, seen from a call of `readBytes` that it does not end. -/
theorem InReadBytes.step {t : τ} {length : Nat} {popped : List UInt8} {s s' : Uart τ γ}
    {o : UartEvent τ} (h : InReadBytes t length popped s) (hstep : UartStep s o s')
    (hreturn : ∀ count buffer, o ≠ .readBytesReturn t count buffer) :
    InReadBytes t length (popped ++ o.poppedBy t) s' := by
  rcases h with ⟨rb, hrb, hlen, hbuf, hroom⟩
  rcases hstep with ⟨_, hown, hother⟩
  by_cases ht : t = o.thread
  · subst ht
    rw [hrb] at hown
    cases o with
    | poll t ret =>
        rcases hown with ⟨rb', hrb', hlen', hbuf', hless⟩
        have hone : (byteOf ret).length ≤ 1 := by
          unfold byteOf
          split <;> simp
        refine ⟨rb', hrb', hlen'.trans hlen, ?_, ?_⟩
        · simp [UartEvent.poppedBy, UartEvent.thread, hbuf', hbuf]
        · simp only [UartEvent.poppedBy, UartEvent.thread, if_pos, List.length_append]
          rw [hlen, hbuf] at hless
          omega
    | clock t =>
        rcases hown with ⟨rb', hrb', hlen', hbuf'⟩
        refine ⟨rb', hrb', hlen'.trans hlen, ?_, ?_⟩
        · simp [UartEvent.poppedBy, hbuf', hbuf]
        · simpa [UartEvent.poppedBy] using hroom
    | readBytesReturn t count buffer => exact absurd rfl (hreturn count buffer)
    | _ => exact hown.elim
  · have hnone : o.poppedBy t = [] := by
      cases o with
      | read t' ret | poll t' ret =>
          have hne : t' ≠ t := fun heq => ht heq.symm
          simp [UartEvent.poppedBy, hne]
      | _ => rfl
    refine ⟨rb, (hother t ht).trans hrb, hlen, ?_, ?_⟩
    · rw [hnone, List.append_nil, hbuf]
    · rw [hnone, List.append_nil]
      exact hroom

theorem inReadBytes_run {t : τ} {length : Nat} (h₀ : InReadBytes t length [] s₀)
    (hrun : (uart τ γ w).run s₀ as = some (s, os))
    (hreturn : ∀ count buffer, .readBytesReturn t count buffer ∉ os) :
    InReadBytes t length (os.flatMap (UartEvent.poppedBy t)) s := by
  have hall := Machine.history
    (I := fun os s => (∀ count buffer, UartEvent.readBytesReturn t count buffer ∉ os) →
      InReadBytes t length (os.flatMap (UartEvent.poppedBy t)) s)
    (fun os s a s' o ih hstep hnone => by
      have hbefore := ih fun count buffer hmem =>
        hnone count buffer (List.mem_append_left _ hmem)
      rw [List.flatMap_append, List.flatMap_singleton]
      refine hbefore.step (Uart.step_spec hstep) ?_
      intro count buffer heq
      exact hnone count buffer (by simp [heq]))
    (fun _ => h₀) hrun
  exact hall hreturn

/-- The queues behave as exact FIFOs over a history from `s₀` to `s`. -/
structure ExactFifo (w : Nat) (s₀ : Uart τ γ) (os : List (UartEvent τ)) (s : Uart τ γ) :
    Prop where
  /-- The fed buffers in call order are the popped bytes in pop order, then what is queued. -/
  toModem : inputFlow.Balanced s₀ os s
  /-- The written buffers in call order are the popped bytes in pop order, then what is queued. -/
  toHost : rxFlow.Balanced s₀ os s
  /-- A buffer stays in one piece: its bytes come out after those of the earlier buffers, and
  nothing comes out in between. -/
  contiguous : ∀ xs t data ys, os = xs ++ .feedInput t data :: ys →
    os.flatMap UartEvent.popped ++ s.serial.input =
      s₀.serial.input ++ xs.flatMap UartEvent.fed ++ data ++ ys.flatMap UartEvent.fed
  contiguousRx : ∀ xs t data ret ys, os = xs ++ .write t data ret :: ys →
    os.flatMap UartEvent.rxPopped ++ s.serial.rxQueue =
      s₀.serial.rxQueue ++ xs.flatMap UartEvent.written ++ data ++ ys.flatMap UartEvent.written
  /-- `read`, `peek` and each read of `readBytes` return the next byte fed and not yet popped,
  and -1 only if there is none. -/
  front : ∀ xs o ret ys, os = xs ++ o :: ys → o.inputRet = some ret →
    ret = byteOrNone (inputFlow.pending s₀ xs)
  frontRx : ∀ xs o ret ys, os = xs ++ o :: ys → o.rxRet = some ret →
    ret = byteOrNone (rxFlow.pending s₀ xs)
  /-- From its call to its return, `readBytes` popped exactly the bytes it reports. -/
  readBytes : ∀ xs t length ys count buffer zs,
    os = xs ++ .readBytesCall t length :: ys ++ .readBytesReturn t count buffer :: zs →
    (∀ n b, .readBytesReturn t n b ∉ ys) →
    ys.flatMap (UartEvent.poppedBy t) = buffer ∧ count = buffer.length ∧ count ≤ length
  /-- Whatever is called next, the other direction's queue does not change. -/
  separate : ∀ a s' o, (uart τ γ w).step s a = some (s', o) →
    (o.TowardsHost → s'.serial.input = s.serial.input) ∧
      (¬ o.TowardsHost → s'.serial.rxQueue = s.serial.rxQueue)

/-- The bytes that a call of `readBytes` reports are the bytes its thread popped meanwhile. -/
theorem readBytes_reports {xs ys zs : List (UartEvent τ)} {t : τ} {length count : Nat}
    {buffer : List UInt8}
    (hrun : (uart τ γ w).run s₀ as =
      some (s, xs ++ .readBytesCall t length :: ys ++ .readBytesReturn t count buffer :: zs))
    (hreturn : ∀ n b, .readBytesReturn t n b ∉ ys) :
    ys.flatMap (UartEvent.poppedBy t) = buffer ∧ count = buffer.length ∧ count ≤ length := by
  rw [List.append_assoc, List.cons_append] at hrun
  obtain ⟨_, _, _, s₁, s₂, _, _, hcall, hrest⟩ := Machine.run_split hrun
  obtain ⟨_, _, _, s₃, s₄, _, hbody, hret, _⟩ := Machine.run_split hrest
  have hentered : InReadBytes t length [] s₂ := by
    have hown := (Uart.step_spec hcall).2.1
    simp only [UartEvent.thread] at hown
    cases hrb : s₁.readBytes t with
    | none =>
        rw [hrb] at hown
        rcases hown with ⟨rb, hrb', hlen, hbuf⟩
        exact ⟨rb, hrb', hlen, hbuf, Nat.zero_le _⟩
    | some rb =>
        rw [hrb] at hown
        exact hown.elim
  obtain ⟨rb, hrb, _, hbuf, hroom⟩ := inReadBytes_run hentered hbody hreturn
  have hown := (Uart.step_spec hret).2.1
  simp only [UartEvent.thread, hrb] at hown
  rcases hown with ⟨_, rfl, rfl⟩
  rw [hbuf]
  exact ⟨rfl, rfl, hroom⟩

theorem exactFifo_of_run (hrun : (uart τ γ w).run s₀ as = some (s, os)) :
    ExactFifo w s₀ os s where
  toModem := input_balanced hrun
  toHost := rx_balanced hrun
  contiguous := by
    intro xs t data ys hos
    have hbal := input_balanced hrun
    rw [Flow.Balanced, hos] at hbal
    rw [hos]
    refine hbal.symm.trans ?_
    simp [inputFlow, UartEvent.fed]
  contiguousRx := by
    intro xs t data ret ys hos
    have hbal := rx_balanced hrun
    rw [Flow.Balanced, hos] at hbal
    rw [hos]
    refine hbal.symm.trans ?_
    simp [rxFlow, UartEvent.written]
  front := by
    intro xs o ret ys hos hret
    rw [hos] at hrun
    obtain ⟨_, _, _, s₁, s₂, _, hbefore, hstep, _⟩ := Machine.run_split hrun
    rw [(input_balanced hbefore).pending_eq]
    exact (Uart.step_spec hstep).inputRet_eq hret
  frontRx := by
    intro xs o ret ys hos hret
    rw [hos] at hrun
    obtain ⟨_, _, _, s₁, s₂, _, hbefore, hstep, _⟩ := Machine.run_split hrun
    rw [(rx_balanced hbefore).pending_eq]
    exact (Uart.step_spec hstep).rxRet_eq hret
  readBytes := by
    intro xs t length ys count buffer zs hos hreturn
    rw [hos] at hrun
    exact readBytes_reports hrun hreturn
  separate := fun _ _ _ hstep => (Uart.step_spec hstep).keeps_other_queue

/-- A feed lands between two reads of a `readBytes` that then gives up one byte short. -/
def interruptedReadBytes : List (UartAction Bool) :=
  [.feedInput true [1, 2], .readBytes false 4, .clock false 0, .iterate false, .clock false 3,
    .peek true, .feedInput true [3], .write true [9], .iterate false, .clock false 5,
    .rxRead true, .iterate false, .clock false 9, .iterate false, .clock false 1009]

theorem exactFifo_interruptedReadBytes :
    ∃ s os, (uart Bool Unit 32).run Uart.initial interruptedReadBytes = some (s, os) ∧
      .readBytesReturn false 3 [1, 2, 3] ∈ os ∧ ExactFifo 32 Uart.initial os s := by
  have hrun : (uart Bool Unit 32).run Uart.initial interruptedReadBytes = some (_, _) := rfl
  exact ⟨_, _, hrun, by decide, exactFifo_of_run hrun⟩

end Runs

end ZiModem.Hal
