import ZiModem.Reactive.Accounting
import ZiModem.Wrapper.Host

/-! # What an instance inherits

`create` and `destroy` replace the callback slots and leave the rest of the
HAL's state alone. The queues, the line settings and the pin table are therefore
a function of everything that was ever done to them, by whichever instance: a new
instance finds them as the first one did exactly when the history has emptied the
queues, put the line settings back and written no pin.
-/

namespace ZiModem.Wrapper

open Reactive ZiModem.Hal

variable {ι φ ν : Type*}

namespace Host

/-! ## The HAL's state as a fold of the history -/

section Seen

variable (o : Seen ι)

def fedBytes : List UInt8 :=
  match o with
  | .fed data => data
  | _ => []

def readBytes : List UInt8 :=
  match o with
  | .read ret => byteOf ret
  | _ => []

def wroteBytes : List UInt8 :=
  match o with
  | .wrote data => data
  | _ => []

def polledBytes : List UInt8 :=
  match o with
  | .polled ret => byteOf ret
  | _ => []

/-- The line settings, where `begin()` sets both and a change of the baud rate keeps the framing. -/
def lineAfter (line : Nat × UInt32) : Nat × UInt32 :=
  match o with
  | .line baud config => (baud, config)
  | .baud baud => (baud, line.2)
  | _ => line

def pinsAfter (value : Int → Option Int) : Int → Option Int :=
  match o with
  | .pin pin v => Function.update value pin (some v)
  | _ => value

end Seen

/-- From the host to the firmware, and from the firmware to the host. -/
def inputFlow : Flow (Host ι φ ν) (Seen ι) UInt8 := ⟨fun s => s.serial.input, fedBytes, readBytes⟩

def rxFlow : Flow (Host ι φ ν) (Seen ι) UInt8 :=
  ⟨fun s => s.serial.rxQueue, wroteBytes, polledBytes⟩

/-- What one call does to the queues, the line settings and the pins. -/
structure Tracks (s : Host ι φ ν) (o : Seen ι) (s' : Host ι φ ν) : Prop where
  input : s.serial.input ++ fedBytes o = readBytes o ++ s'.serial.input
  rx : s.serial.rxQueue ++ wroteBytes o = polledBytes o ++ s'.serial.rxQueue
  line : s'.serial.getLineConfig = lineAfter o s.serial.getLineConfig
  pins : s'.pins.value = pinsAfter o s.pins.value

section Steps

variable {s s' : Host ι φ ν}

theorem tracks_of_same (hinput : s'.serial.input = s.serial.input)
    (hrx : s'.serial.rxQueue = s.serial.rxQueue)
    (hline : s'.serial.getLineConfig = s.serial.getLineConfig)
    (hpins : s'.pins.value = s.pins.value) {o : Seen ι}
    (ho : o = .quiet ∨ o = .fed [] ∨ ∃ result, o = .created result) : s.Tracks o s' := by
  rcases ho with rfl | rfl | ⟨result, rfl⟩ <;>
    exact ⟨by simp [fedBytes, readBytes, hinput], by simp [wroteBytes, polledBytes, hrx],
      by simp [lineAfter, hline], by simp [pinsAfter, hpins]⟩

theorem tracks_firmware (c : FirmwareCall) : s.Tracks (s.firmware c).2 (s.firmware c).1 := by
  cases c with
  | available | peek | digitalRead => exact tracks_of_same rfl rfl rfl rfl (.inl rfl)
  | read =>
      refine ⟨?_, by simp [firmware, wroteBytes, polledBytes], rfl, rfl⟩
      simpa [firmware, fedBytes, readBytes] using s.serial.read_conserves
  | write data =>
      exact ⟨by simp [firmware, fedBytes, readBytes], by simp [firmware, wroteBytes, polledBytes],
        rfl, rfl⟩
  | setLineConfig baud config =>
      simp only [firmware, Serial.setLineConfig]
      split
      · rename_i hsame
        exact ⟨by simp [fedBytes, readBytes], by simp [wroteBytes, polledBytes],
          by simp [lineAfter, Serial.getLineConfig, hsame], rfl⟩
      · exact ⟨by simp [fedBytes, readBytes], by simp [wroteBytes, polledBytes], rfl, rfl⟩
  | setLineBaud baud =>
      simp only [firmware, Serial.setLineBaud]
      split
      · rename_i hsame
        exact ⟨by simp [fedBytes, readBytes], by simp [wroteBytes, polledBytes],
          by simp [lineAfter, Serial.getLineConfig, hsame], rfl⟩
      · exact ⟨by simp [fedBytes, readBytes], by simp [wroteBytes, polledBytes], rfl, rfl⟩
  | digitalWrite pin value =>
      exact ⟨by simp [firmware, fedBytes, readBytes], by simp [firmware, wroteBytes, polledBytes],
        rfl, rfl⟩

variable [DecidableEq ι]

theorem tracks_create (cfg : Option HostConfig) (c : CreateOutcome ι) :
    s.Tracks (.created (s.create cfg c).2) (s.create cfg c).1 := by
  have hsame : ∀ result, s.Tracks (.created result) s := fun result =>
    tracks_of_same rfl rfl rfl rfl (.inr (.inr ⟨result, rfl⟩))
  cases cfg with
  | none => exact hsame _
  | some cfg =>
      simp only [create]
      split
      · cases c with
        | rootFails | newFails => exact hsame _
        | allocated h => refine tracks_of_same ?_ ?_ ?_ ?_ (.inr (.inr ⟨_, rfl⟩)) <;> rfl
      · exact hsame _

/-- Every call takes from the front of a queue what it returns, and leaves the rest. -/
theorem tracks_of_step {a : Call ι φ ν} {o : Seen ι} (hstep : s.step a = some (s', o)) :
    s.Tracks o s' := by
  unfold step at hstep
  split at hstep
  · cases hstep
  · cases a with
    | create cfg c =>
        cases hstep
        exact tracks_create cfg c
    | setCallbacks h cbs =>
        cases hstep
        cases h <;> refine tracks_of_same ?_ ?_ ?_ ?_ (.inl rfl) <;> rfl
    | start h =>
        cases hstep
        cases h with
        | none => exact tracks_of_same rfl rfl rfl rfl (.inl rfl)
        | some h =>
            simp only [start]
            split <;> refine tracks_of_same ?_ ?_ ?_ ?_ (.inl rfl) <;> rfl
    | writeSerial h data =>
        cases hstep
        cases h with
        | none => exact tracks_of_same rfl rfl rfl rfl (.inr (.inl rfl))
        | some h =>
            exact ⟨by simp [writeSerial, fedBytes, readBytes],
              by simp [writeSerial, wroteBytes, polledBytes], rfl, rfl⟩
    | rxAvailable h | getLineConfig h =>
        cases hstep
        exact tracks_of_same rfl rfl rfl rfl (.inl rfl)
    | rxRead h =>
        cases hstep
        cases h with
        | none =>
            exact ⟨by simp [rxRead, fedBytes, readBytes], by simp [rxRead, wroteBytes, polledBytes],
              rfl, rfl⟩
        | some h =>
            refine ⟨by simp [rxRead, fedBytes, readBytes], ?_, rfl, rfl⟩
            simpa [rxRead, wroteBytes, polledBytes] using s.serial.rxRead_conserves
    | setPin h pin value =>
        cases hstep
        cases h with
        | none => exact tracks_of_same rfl rfl rfl rfl (.inl rfl)
        | some h =>
            exact ⟨by simp [setPin, fedBytes, readBytes], by simp [setPin, wroteBytes, polledBytes],
              rfl, rfl⟩
    | destroy h =>
        cases hstep
        cases h <;> refine tracks_of_same ?_ ?_ ?_ ?_ (.inl rfl) <;> rfl
    | firmware c =>
        simp only at hstep
        split at hstep
        · have htracks : s.Tracks (s.firmware c).2 (s.firmware c).1 := tracks_firmware c
          rw [Option.some.inj hstep] at htracks
          exact htracks
        · cases hstep

end Steps

/-! ## Over every history -/

section Runs

variable [DecidableEq ι] {s : Host ι φ ν} {as : List (Call ι φ ν)} {os : List (Seen ι)}

theorem input_balanced (hrun : (host ι φ ν).run initial as = some (s, os)) :
    inputFlow.Balanced initial os s :=
  Flow.balanced_run (F := inputFlow) (J := fun _ => True) (fun _ _ _ _ _ _ => trivial)
    (fun _ _ _ _ _ hstep => (tracks_of_step hstep).input) trivial hrun

theorem rx_balanced (hrun : (host ι φ ν).run initial as = some (s, os)) :
    rxFlow.Balanced initial os s :=
  Flow.balanced_run (F := rxFlow) (J := fun _ => True) (fun _ _ _ _ _ _ => trivial)
    (fun _ _ _ _ _ hstep => (tracks_of_step hstep).rx) trivial hrun

theorem line_of_run (hrun : (host ι φ ν).run initial as = some (s, os)) :
    s.serial.getLineConfig = os.foldl (fun line o => lineAfter o line) (0, 0) := by
  refine Machine.history
    (I := fun os s => s.serial.getLineConfig = os.foldl (fun line o => lineAfter o line) (0, 0))
    ?_ rfl hrun
  intro os s a s' o hline hstep
  rw [List.foldl_append, ← hline]
  exact (tracks_of_step hstep).line

theorem pins_of_run (hrun : (host ι φ ν).run initial as = some (s, os)) :
    (∀ pin, s.pins.value pin = none) ↔ ∀ pin value, .pin pin value ∉ os := by
  refine Machine.history
    (I := fun os s => (∀ pin, s.pins.value pin = none) ↔ ∀ pin value, .pin pin value ∉ os)
    ?_ (by simp [initial, Pins.initial]) hrun
  intro os s a s' o hbefore hstep
  have hpins := (tracks_of_step hstep).pins
  cases o with
  | pin pin value =>
      constructor
      · intro hnone
        have hval := hnone pin
        simp [hpins, pinsAfter] at hval
      · intro hno
        exact absurd (by simp) (hno pin value)
  | _ =>
      rw [hpins]
      simpa [pinsAfter] using hbefore

end Runs

/-- The instances before it left nothing behind: the firmware has read every byte it was fed, the
host has polled every byte that was written, the line settings last applied are those of a fresh
process, and no pin was written. -/
structure LeftClean (os : List (Seen ι)) : Prop where
  input : os.flatMap readBytes = os.flatMap fedBytes
  rx : os.flatMap polledBytes = os.flatMap wroteBytes
  line : os.foldl (fun line o => lineAfter o line) (0, 0) = (0, 0)
  pins : ∀ pin value, .pin pin value ∉ os

/-- The queues, the line settings and the pins as a process starts with them. -/
structure Clean (s : Host ι φ ν) : Prop where
  input : s.serial.input = []
  rx : s.serial.rxQueue = []
  line : s.serial.getLineConfig = (0, 0)
  pins : ∀ pin, s.pins.value pin = none

theorem clean_iff [DecidableEq ι] {s : Host ι φ ν} {as : List (Call ι φ ν)} {os : List (Seen ι)}
    (hrun : (host ι φ ν).run initial as = some (s, os)) : s.Clean ↔ LeftClean os := by
  have hinput : os.flatMap fedBytes = os.flatMap readBytes ++ s.serial.input := by
    simpa [Flow.Balanced, inputFlow, initial, Serial.initial] using input_balanced hrun
  have hrx : os.flatMap wroteBytes = os.flatMap polledBytes ++ s.serial.rxQueue := by
    simpa [Flow.Balanced, rxFlow, initial, Serial.initial] using rx_balanced hrun
  have hline := line_of_run hrun
  have hpins := pins_of_run hrun
  constructor
  · intro h
    refine ⟨?_, ?_, hline ▸ h.line, hpins.mp h.pins⟩
    · rw [hinput, h.input, List.append_nil]
    · rw [hrx, h.rx, List.append_nil]
  · intro h
    refine ⟨?_, ?_, hline.trans h.line, hpins.mpr h.pins⟩
    · rw [← h.input] at hinput
      exact List.self_eq_append_right.mp hinput
    · rw [← h.rx] at hrx
      exact List.self_eq_append_right.mp hrx

end Host

/-! ## What a new instance finds -/

/-- What an instance that was just created should find, and see from then on: the state of the first
instance of a fresh process, and every first change of the line settings or of a pin on its way to
its own callbacks, whatever was written to other pins before. -/
structure Isolated [DecidableEq ι] (s : Host ι φ ν) (h : ι) : Prop where
  serial : s.serial = (Host.initial.install h : Host ι φ ν).serial
  table : s.pins = (Host.initial.install h : Host ι φ ν).pins
  input : s.serial.input = []
  rxAvailable : s.rxAvailable (some h) = 0
  lineConfig : (s.getLineConfig (some h)).baud = 0
  pins : ∀ pin, s.pins.value pin = none
  lineReported : ∀ baud config, (baud, config) ≠ (0, 0) →
    (s.serial.setLineConfig baud config).2 = some (h, baud, config)
  baudReported : ∀ baud, baud ≠ 0 → (s.serial.setLineBaud baud).2 = some (h, baud, 0)
  pinReported : ∀ (writes : List (Int × Int)) pin value, (∀ w ∈ writes, w.1 ≠ pin) →
    ((writes.foldl (fun p w => (p.digitalWrite w.1 w.2).1) s.pins).digitalWrite pin value).2 =
      some (h, pin, value)

theorem foldl_digitalWrite {γ : Type*} (p : Pins γ) {writes : List (Int × Int)} {pin : Int}
    (hother : ∀ w ∈ writes, w.1 ≠ pin) :
    (writes.foldl (fun p w => (p.digitalWrite w.1 w.2).1) p).value pin = p.value pin ∧
      (writes.foldl (fun p w => (p.digitalWrite w.1 w.2).1) p).callback = p.callback := by
  induction writes generalizing p with
  | nil => exact ⟨rfl, rfl⟩
  | cons w writes ih =>
      have hne : pin ≠ w.1 := (hother w List.mem_cons_self).symm
      have hrest := ih (p.digitalWrite w.1 w.2).1 fun w' hw' =>
        hother w' (List.mem_cons_of_mem w hw')
      refine ⟨hrest.1.trans ?_, hrest.2⟩
      simp [Pins.digitalWrite, hne]

section Create

variable [DecidableEq ι] {s s' : Host ι φ ν} {h : ι}

theorem Host.create_spec {cfg : Option HostConfig} {c : CreateOutcome ι}
    (hcreate : s.create cfg c = (s', .returned (some h))) :
    s.active = none ∧ s' = s.install h := by
  cases cfg with
  | none => cases hcreate
  | some cfg =>
      by_cases hcond : cfg.Usable ∧ s.active = none
      · simp only [create, if_pos hcond] at hcreate
        cases c with
        | allocated h' =>
            cases hcreate
            exact ⟨hcond.2, rfl⟩
        | rootFails | newFails => cases hcreate
      · simp only [create, if_neg hcond] at hcreate
        cases hcreate

/-- A new instance is isolated exactly when the process is clean. -/
theorem isolated_install_iff : Isolated (s.install h) h ↔ s.Clean := by
  constructor
  · intro hi
    have hline : (s.install h).serial.getLineConfig = (0, 0) := by
      rw [hi.serial]
      rfl
    have hrx : (s.install h).serial.rxQueue = [] := by
      rw [hi.serial]
      rfl
    exact ⟨hi.input, hrx, hline, hi.pins⟩
  · intro hc
    obtain ⟨hinput, hrx, hline, hpins⟩ := hc
    have hbaud : s.serial.lineBaud = 0 := congrArg Prod.fst hline
    have hconfig : s.serial.lineConfig = 0 := congrArg Prod.snd hline
    have hserial : (s.install h).serial = (Host.initial.install h : Host ι φ ν).serial := by
      simp [Host.install, Serial.setDataReadyCallback, Serial.setLineConfigCallback, hinput, hrx,
        hbaud, hconfig, Host.initial, Serial.initial]
    have htable : (s.install h).pins = (Host.initial.install h : Host ι φ ν).pins := by
      have hvalue : s.pins.value = fun _ => none := funext hpins
      simp [Host.install, Pins.setSignalCallback, hvalue, Host.initial, Pins.initial]
    refine ⟨hserial, htable, hinput, ?_, ?_, hpins, ?_, ?_, ?_⟩
    · have hempty : (s.install h).serial.rxQueue = [] := hrx
      simp [Host.rxAvailable, Serial.rxAvailable, hempty]
    · have hbaud' : (s.install h).serial.lineBaud = 0 := hbaud
      simp only [Host.getLineConfig, Serial.getLineConfig, LineSettings.of, hbaud']
      exact toInt_zero
    · intro baud config hne
      rw [hserial]
      have hdiff : ¬ (0 = baud ∧ (0 : UInt32) = config) := by
        rintro ⟨rfl, rfl⟩
        exact hne rfl
      simp [Serial.setLineConfig, Host.install, Host.initial, Serial.initial,
        Serial.setDataReadyCallback, Serial.setLineConfigCallback, hdiff]
    · intro baud hne
      rw [hserial]
      simp [Serial.setLineBaud, Host.install, Host.initial, Serial.initial,
        Serial.setDataReadyCallback, Serial.setLineConfigCallback, hne.symm]
    · intro writes pin value hother
      obtain ⟨hvalue, hcallback⟩ := foldl_digitalWrite (s.install h).pins hother
      refine Pins.digitalWrite_loud ?_ (hcallback.trans rfl)
      unfold Pins.Changes
      rw [hvalue]
      show s.pins.value pin ≠ some value
      rw [hpins]
      exact (Option.some_ne_none value).symm

/-- After any history, the instance that `create` returns is isolated exactly when its predecessors
left the HAL clean. -/
theorem isolated_iff {as : List (Host.Call ι φ ν)} {os : List (Host.Seen ι)}
    {cfg : Option HostConfig} {c : CreateOutcome ι}
    (hrun : (host ι φ ν).run Host.initial as = some (s, os))
    (hcreate : s.create cfg c = (s', .returned (some h))) :
    Isolated s' h ↔ Host.LeftClean os := by
  rw [(Host.create_spec hcreate).2, isolated_install_iff, Host.clean_iff hrun]

end Create

/-- The first instance reads the byte it is fed, the byte it writes is polled, and its destroy leaves
nothing to the second. -/
def drained : List (Host.Call Nat Unit Unit) :=
  [.create (some ⟨some [46]⟩) (.allocated 1), .start (some 1), .writeSerial (some 1) [65],
    .firmware .read, .firmware (.write [66]), .rxRead (some 1), .destroy (some 1)]

theorem isolated_iff_drained : ∃ s os s',
    (host Nat Unit Unit).run Host.initial drained = some (s, os) ∧
      s.create (some ⟨some [46]⟩) (.allocated 2) = (s', .returned (some 2)) ∧ Isolated s' 2 := by
  have hseen : ((host Nat Unit Unit).run Host.initial drained).map (fun r => (r.1.active, r.2)) =
      some (none, [.created (.returned (some 1)), .quiet, .fed [65], .read 65, .wrote [66],
        .polled 66, .quiet]) := by decide
  obtain ⟨⟨s, os⟩, hrun, heq⟩ := Option.map_eq_some_iff.mp hseen
  obtain ⟨hactive, hos⟩ := Prod.mk.inj heq
  have husable : (⟨some [46]⟩ : HostConfig).Usable := by decide
  have hcreate : s.create (some ⟨some [46]⟩) (.allocated 2) =
      (s.install 2, .returned (some 2)) := by
    simp only [Host.create, if_pos (And.intro husable hactive)]
  refine ⟨s, os, s.install 2, hrun, hcreate, (isolated_iff hrun hcreate).mpr ?_⟩
  simp only at hos
  rw [hos]
  exact ⟨by decide, by decide, by decide, by simp⟩

/-- The first instance is configured to 115200 baud and destroyed. -/
def configured : List (Host.Call Nat Unit Unit) :=
  [.create (some ⟨some [46]⟩) (.allocated 1), .start (some 1),
    .firmware (.setLineConfig 115200 0x800001c), .destroy (some 1)]

/-- The second instance reports the line settings of the first. -/
theorem not_isolated_of_configured : ¬ ∀ (as : List (Host.Call Nat Unit Unit)) s os cfg c s' h,
    (host Nat Unit Unit).run Host.initial as = some (s, os) → s.active = none →
      s.create cfg c = (s', .returned (some h)) → Isolated s' h := by
  intro hall
  have hi := hall configured _ _ (some ⟨some [46]⟩) (.allocated 2) _ 2 rfl rfl rfl
  have hbaud := hi.lineConfig
  revert hbaud
  decide

end ZiModem.Wrapper
