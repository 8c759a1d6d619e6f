import ZiModem.Console.KeyLoop
import ZiModem.Wrapper.Drain

/-! # The test console as a terminal

`RunInputLoop` is on one thread, the firmware and its writes on others. What the
loop forwards goes through the queue of `feed_input`, from which the firmware
reads; what the firmware writes comes back by `SerialDataReceived`, whose handler
prints it as Latin-1. The handlers of `SignalChanged` and `Log` print lines of
their own at any moment. Every call of `Console.Write` or `Console.WriteLine`
puts one piece on the screen.
-/

namespace ZiModem.Console

open Reactive Hal Wrapper LineEnds

/-! ## The loop, one iteration at a time -/

/-- What `RunInputLoop` has yet to read: the rest of a redirected input, or the keys that will have
been pressed. -/
inductive Source
  | redirected (lastWasCr : Bool) (stdin : List UInt8)
  | keys (pressed : List ConsoleKeyInfo)
  | ended
  deriving DecidableEq, Repr

namespace Source

/-- One iteration of the loop: the byte that `HandleByte` gets, if any, and what is left. Without a
key it waits. -/
def next : Source → Option (Option UInt8 × Source)
  | redirected _ [] => some (none, ended)
  | redirected lastWasCr (b :: stdin) =>
      if lastWasCr = true ∧ b = lf then some (none, redirected false stdin)
      else some (some (if b = lf then cr else b), redirected (decide (b = cr)) stdin)
  | keys [] => none
  | keys (key :: pressed) => some (mapKeyToByte key, keys pressed)
  | ended => none

def loop (dataDir : List Char) : Source → Session
  | redirected lastWasCr stdin => readLoop dataDir ⟨[], []⟩ lastWasCr stdin
  | keys pressed => keyLoop dataDir ⟨[], []⟩ pressed
  | ended => ⟨[], []⟩

def size : Source → Nat
  | redirected _ stdin => stdin.length + 1
  | keys pressed => pressed.length + 1
  | ended => 0

end Source

def Session.andThen (s s' : Session) : Session :=
  ⟨s.written ++ s'.written, s.printed ++ s'.printed⟩

theorem Session.andThen_nil (s : Session) : s.andThen ⟨[], []⟩ = s := by
  simp [andThen]

theorem Session.andThen_assoc (s₁ s₂ s₃ : Session) :
    (s₁.andThen s₂).andThen s₃ = s₁.andThen (s₂.andThen s₃) := by
  simp [andThen]

section Loop

variable (dataDir : List Char)

theorem handleByte_andThen (s : Session) (b : UInt8) :
    handleByte dataDir s b = (s.andThen (handleByte dataDir ⟨[], []⟩ b).1,
      (handleByte dataDir ⟨[], []⟩ b).2) := by
  unfold handleByte
  split
  · rw [Session.andThen_nil]
  · split <;> simp [Session.andThen]

theorem readLoop_cons_eq {lastWasCr : Bool} {b : UInt8} (h : ¬ (lastWasCr = true ∧ b = lf))
    (s : Session) (stdin : List UInt8) : readLoop dataDir s lastWasCr (b :: stdin) =
      if (handleByte dataDir s (if b = lf then cr else b)).2 then
        readLoop dataDir (handleByte dataDir s (if b = lf then cr else b)).1 (decide (b = cr)) stdin
      else (handleByte dataDir s (if b = lf then cr else b)).1 := by
  rw [readLoop, if_neg h]

theorem readLoop_andThen (s : Session) (lastWasCr : Bool) (stdin : List UInt8) :
    readLoop dataDir s lastWasCr stdin = s.andThen (readLoop dataDir ⟨[], []⟩ lastWasCr stdin) := by
  induction stdin generalizing s lastWasCr with
  | nil => exact (Session.andThen_nil s).symm
  | cons b stdin ih =>
      by_cases h : lastWasCr = true ∧ b = lf
      · rw [readLoop, readLoop, if_pos h, if_pos h]
        exact ih s false
      · rw [readLoop_cons_eq dataDir h, readLoop_cons_eq dataDir h]
        generalize (if b = lf then cr else b) = b'
        rw [handleByte_andThen]
        by_cases hmore : (handleByte dataDir ⟨[], []⟩ b').2 = true
        · rw [if_pos hmore, if_pos hmore, ih, ih (handleByte dataDir ⟨[], []⟩ b').1,
            Session.andThen_assoc]
        · rw [if_neg hmore, if_neg hmore]

theorem keyLoop_andThen (s : Session) (pressed : List ConsoleKeyInfo) :
    keyLoop dataDir s pressed = s.andThen (keyLoop dataDir ⟨[], []⟩ pressed) := by
  rw [keyLoop_eq, keyLoop_eq]
  rfl

theorem loop_skip {source rest : Source} (h : source.next = some (none, rest)) :
    source.loop dataDir = rest.loop dataDir := by
  cases source with
  | redirected lastWasCr stdin =>
      cases stdin with
      | nil =>
          cases h
          rfl
      | cons b stdin =>
          simp only [Source.next] at h
          split at h
          next hswallow =>
            cases h
            simp only [Source.loop, readLoop, if_pos hswallow]
          next => cases h
  | keys pressed =>
      cases pressed with
      | nil => cases h
      | cons key pressed =>
          simp only [Source.next, Option.some.injEq, Prod.mk.injEq] at h
          obtain ⟨hkey, rfl⟩ := h
          simp only [Source.loop, keyLoop, hkey]
  | ended => cases h

theorem loop_handle {source rest : Source} {b : UInt8} (h : source.next = some (some b, rest)) :
    source.loop dataDir = (handleByte dataDir ⟨[], []⟩ b).1.andThen
      ((if (handleByte dataDir ⟨[], []⟩ b).2 then rest else .ended).loop dataDir) := by
  cases source with
  | redirected lastWasCr stdin =>
      cases stdin with
      | nil => cases h
      | cons b' stdin =>
          simp only [Source.next] at h
          split at h
          next => cases h
          next hkept =>
            simp only [Option.some.injEq, Prod.mk.injEq] at h
            obtain ⟨hb, rfl⟩ := h
            rw [Source.loop, readLoop_cons_eq dataDir hkept, hb]
            by_cases hmore : (handleByte dataDir ⟨[], []⟩ b).2 = true
            · rw [if_pos hmore, if_pos hmore, readLoop_andThen]
              rfl
            · rw [if_neg hmore, if_neg hmore]
              exact (Session.andThen_nil _).symm
  | keys pressed =>
      cases pressed with
      | nil => cases h
      | cons key pressed =>
          simp only [Source.next, Option.some.injEq, Prod.mk.injEq] at h
          obtain ⟨hkey, rfl⟩ := h
          simp only [Source.loop, keyLoop, hkey]
          by_cases hmore : (handleByte dataDir ⟨[], []⟩ b).2 = true
          · rw [if_pos hmore, if_pos hmore, keyLoop_andThen]
          · rw [if_neg hmore, if_neg hmore]
            exact (Session.andThen_nil _).symm
  | ended => cases h

theorem loop_waits {source : Source} (h : source.next = none) :
    source.loop dataDir = ⟨[], []⟩ := by
  cases source with
  | redirected lastWasCr stdin =>
      cases stdin with
      | nil => cases h
      | cons b stdin =>
          simp only [Source.next] at h
          split at h <;> cases h
  | keys pressed =>
      cases pressed with
      | nil => rfl
      | cons key pressed => cases h
  | ended => rfl

theorem size_next {source rest : Source} {b : Option UInt8} (h : source.next = some (b, rest)) :
    rest.size < source.size := by
  cases source with
  | redirected lastWasCr stdin =>
      cases stdin with
      | nil =>
          cases h
          exact Nat.zero_lt_one
      | cons b' stdin =>
          simp only [Source.next] at h
          split at h
          all_goals
            cases h
            simp [Source.size]
  | keys pressed =>
      cases pressed with
      | nil => cases h
      | cons key pressed =>
          cases h
          simp [Source.size]
  | ended => cases h

end Loop

/-! ## The console and the modem -/

/-- `Encoding.Latin1.GetString`. -/
def latin1 (data : List UInt8) : List Char := data.map fun b => Char.ofNat b.toNat

inductive Output
  | write (text : List Char)
  | writeLine (text : List Char)
  deriving DecidableEq, Repr

def Output.written : Output → List Char
  | write text => text
  | writeLine _ => []

structure Terminal (τ γ : Type*) where
  source : Source
  modem : SerialOut τ γ

/-- An iteration of the loop, a `read` of the firmware, a step of a `serial::write`, and a line that
the handler of `SignalChanged` or of `Log` prints. -/
inductive TerminalAction (τ : Type*)
  | iterate
  | read
  | modem (a : SerialOutAction τ)
  | handler (text : List Char)
  deriving DecidableEq, Repr

inductive TerminalEvent (τ : Type*)
  | ignored
  | handled (session : Session)
  | read (ret : Int)
  | modem (o : SerialOutEvent τ)
  | handler (text : List Char)
  deriving DecidableEq, Repr

namespace TerminalEvent

variable {τ : Type*}

def received : TerminalEvent τ → List UInt8
  | read ret => byteOf ret
  | _ => []

def written : TerminalEvent τ → List UInt8
  | modem o => o.written
  | _ => []

def delivered : TerminalEvent τ → List UInt8
  | modem o => o.delivered
  | _ => []

def answers : TerminalEvent τ → List (List Char)
  | handled session => session.printed
  | _ => []

def screen : TerminalEvent τ → List Output
  | handled session => session.printed.map Output.writeLine
  | modem (.serialDataReceived _ data) => [.write (latin1 data)]
  | handler text => [.writeLine ('\n' :: text)]
  | _ => []

end TerminalEvent

namespace Terminal

variable {τ γ : Type*} [DecidableEq τ]

def iterate (dataDir : List Char) (s : Terminal τ γ) : Option (Terminal τ γ × TerminalEvent τ) :=
  match s.source.next with
  | none => none
  | some (none, rest) => some ({ s with source := rest }, .ignored)
  | some (some b, rest) =>
      let handled := handleByte dataDir ⟨[], []⟩ b
      some (⟨if handled.2 then rest else .ended,
        { s.modem with serial := s.modem.serial.feedInput handled.1.written }⟩, .handled handled.1)

def step (dataDir : List Char) (s : Terminal τ γ) :
    TerminalAction τ → Option (Terminal τ γ × TerminalEvent τ)
  | .iterate => s.iterate dataDir
  | .read =>
      some ({ s with modem := { s.modem with serial := s.modem.serial.read.1 } },
        .read s.modem.serial.read.2)
  | .modem a => (s.modem.step a).map fun r => ({ s with modem := r.1 }, .modem r.2)
  | .handler text => some (s, .handler text)

end Terminal

/-- The console, with `dataDir` as what Ctrl+D prints, and the modem. -/
def terminal (dataDir : List Char) (τ γ : Type*) [DecidableEq τ] :
    Machine (Terminal τ γ) (TerminalAction τ) (TerminalEvent τ) := ⟨Terminal.step dataDir⟩

/-! ## One step -/

section Step

variable {τ γ : Type*}

/-- From the loop to the firmware. What the loop has not read yet counts as what it will forward. -/
def typingFlow (dataDir : List Char) : Flow (Terminal τ γ) (TerminalEvent τ) UInt8 where
  held s := s.modem.serial.input ++ (s.source.loop dataDir).written
  put _ := []
  taken := TerminalEvent.received

def answerFlow (dataDir : List Char) : Flow (Terminal τ γ) (TerminalEvent τ) (List Char) where
  held s := (s.source.loop dataDir).printed
  put _ := []
  taken := TerminalEvent.answers

def screenFlow : Flow (Terminal τ γ) (TerminalEvent τ) UInt8 where
  held s := s.modem.inHand ++ s.modem.serial.rxQueue
  put := TerminalEvent.written
  taken := TerminalEvent.delivered

structure Conveys (dataDir : List Char) (s : Terminal τ γ) (o : TerminalEvent τ)
    (s' : Terminal τ γ) : Prop where
  woken : s'.modem.Woken
  typing : (typingFlow dataDir).Conserves s o s'
  answers : (answerFlow dataDir).Conserves s o s'
  screen : screenFlow.Conserves s o s'

variable {dataDir : List Char} {s s' : Terminal τ γ} {o : TerminalEvent τ}

theorem Conveys.iterate (h : s.modem.Woken) (hstep : s.iterate dataDir = some (s', o)) :
    Conveys dataDir s o s' := by
  unfold Terminal.iterate at hstep
  split at hstep
  next => cases hstep
  next rest hnext =>
    cases hstep
    have hloop := loop_skip dataDir hnext
    refine ⟨h, ?_, ?_, ?_⟩
    · simp [Flow.Conserves, typingFlow, TerminalEvent.received, hloop]
    · simp [Flow.Conserves, answerFlow, TerminalEvent.answers, hloop]
    · simp [Flow.Conserves, screenFlow, TerminalEvent.written, TerminalEvent.delivered]
  next b rest hnext =>
    cases hstep
    have hloop := loop_handle dataDir hnext
    refine ⟨⟨h.installed, h.registered, h.owner, h.pending⟩, ?_, ?_, ?_⟩
    · simp [Flow.Conserves, typingFlow, TerminalEvent.received, hloop, Session.andThen]
    · simp [Flow.Conserves, answerFlow, TerminalEvent.answers, hloop, Session.andThen]
    · have hhand : ∀ bytes, { s.modem with
          serial := s.modem.serial.feedInput bytes }.inHand = s.modem.inHand := fun _ => rfl
      simp [Flow.Conserves, screenFlow, TerminalEvent.written, TerminalEvent.delivered, hhand]

variable [DecidableEq τ]

theorem input_step {m m' : SerialOut τ γ} {a : SerialOutAction τ} {o : SerialOutEvent τ}
    (h : m.step a = some (m', o)) : m'.serial.input = m.serial.input := by
  cases a with
  | write t data =>
      simp only [SerialOut.step] at h
      split at h
      · cases h
      · cases h
        rfl
  | advance t =>
      simp only [SerialOut.step] at h
      split at h
      next pc hpc =>
        cases pc with
        | notify =>
            simp only [SerialOut.advance] at h
            split at h
            · cases h
              rfl
            · cases h
        | _ =>
            cases h
            rfl
      next => cases h

theorem Conveys.step (h : s.modem.Woken) {a : TerminalAction τ}
    (hstep : (terminal dataDir τ γ).step s a = some (s', o)) : Conveys dataDir s o s' := by
  cases a with
  | iterate => exact .iterate h hstep
  | read =>
      cases hstep
      refine ⟨⟨h.installed, h.registered, h.owner, h.pending⟩, ?_, ?_, ?_⟩
      · have hread := s.modem.serial.read_conserves
        simp only [Flow.Conserves, typingFlow, TerminalEvent.received, List.append_nil]
        rw [← List.append_assoc, hread]
      · simp [Flow.Conserves, answerFlow, TerminalEvent.answers]
      · have hhand : { s.modem with serial := s.modem.serial.read.1 }.inHand = s.modem.inHand := rfl
        simp [Flow.Conserves, screenFlow, TerminalEvent.written, TerminalEvent.delivered, hhand]
  | modem a =>
      obtain ⟨⟨m, o'⟩, hmodem, heq⟩ := Option.map_eq_some_iff.mp hstep
      cases heq
      obtain ⟨hwoken, hdelivery⟩ := h.step hmodem
      refine ⟨hwoken, ?_, ?_, hdelivery⟩
      · simp [Flow.Conserves, typingFlow, TerminalEvent.received, input_step hmodem]
      · simp [Flow.Conserves, answerFlow, TerminalEvent.answers]
  | handler text =>
      cases hstep
      refine ⟨h, ?_, ?_, ?_⟩
      · simp [Flow.Conserves, typingFlow, TerminalEvent.received]
      · simp [Flow.Conserves, answerFlow, TerminalEvent.answers]
      · simp [Flow.Conserves, screenFlow, TerminalEvent.written, TerminalEvent.delivered]

end Step

/-! ## Whole runs -/

section Runs

variable {τ γ : Type*} [DecidableEq τ] {dataDir : List Char} {s₀ s : Terminal τ γ}
  {as : List (TerminalAction τ)} {os : List (TerminalEvent τ)}

/-- Before the first iteration: nothing is queued for the modem, and the modem writes nothing. -/
structure Terminal.Ready (s : Terminal τ γ) : Prop where
  modem : s.modem.Ready
  input : s.modem.serial.input = []

theorem woken_of_run (h₀ : s₀.Ready) (hrun : (terminal dataDir τ γ).run s₀ as = some (s, os)) :
    s.modem.Woken :=
  Machine.invariant (M := terminal dataDir τ γ) (J := fun s => s.modem.Woken)
    (fun _ _ _ _ h hstep => (Conveys.step h hstep).woken) h₀.modem.woken hrun

omit [DecidableEq τ] in
/-- The text of the modem on the screen is what the handler was given. -/
theorem written_screen (o : TerminalEvent τ) :
    o.screen.flatMap Output.written = latin1 o.delivered := by
  cases o with
  | modem o => cases o <;> simp [TerminalEvent.screen, TerminalEvent.delivered,
      SerialOutEvent.delivered, Output.written, latin1]
  | handled session =>
      simp [TerminalEvent.screen, TerminalEvent.delivered, Output.written, latin1]
  | _ => rfl

omit [DecidableEq τ] in
theorem written_screens (os : List (TerminalEvent τ)) :
    (os.flatMap TerminalEvent.screen).flatMap Output.written =
      latin1 (os.flatMap TerminalEvent.delivered) := by
  rw [List.flatMap_assoc, latin1, List.map_flatMap]
  exact List.flatMap_congr fun o _ => written_screen o

/-- The terminal is transparent. However the loop, the firmware and the handlers interleave, the
firmware is sent what the loop sends by itself, the loop prints what it prints by itself, and all
else on the screen but the lines of the handlers is what the firmware wrote. -/
structure Transparent (dataDir : List Char) (source : Source) (os : List (TerminalEvent τ))
    (s : Terminal τ γ) : Prop where
  typed : os.flatMap TerminalEvent.received ++ s.modem.serial.input ++
    (s.source.loop dataDir).written = (source.loop dataDir).written
  answered : os.flatMap TerminalEvent.answers ++ (s.source.loop dataDir).printed =
    (source.loop dataDir).printed
  shown : (os.flatMap TerminalEvent.screen).flatMap Output.written ++
    latin1 (s.modem.inHand ++ s.modem.serial.rxQueue) = latin1 (os.flatMap TerminalEvent.written)

theorem transparent_of_run (h₀ : s₀.Ready)
    (hrun : (terminal dataDir τ γ).run s₀ as = some (s, os)) :
    Transparent dataDir s₀.source os s where
  typed := by
    have hbalance : (typingFlow dataDir).Balanced s₀ os s :=
      Flow.balanced_run (fun _ _ _ _ h hstep => (Conveys.step h hstep).woken)
        (fun _ _ _ _ h hstep => (Conveys.step h hstep).typing) h₀.modem.woken hrun
    have hput : os.flatMap (typingFlow (γ := γ) dataDir).put = [] :=
      List.flatMap_eq_nil_iff.mpr fun _ _ => rfl
    rw [Flow.Balanced, hput, List.append_nil] at hbalance
    simpa [typingFlow, h₀.input] using hbalance.symm
  answered := by
    have hbalance : (answerFlow dataDir).Balanced s₀ os s :=
      Flow.balanced_run (fun _ _ _ _ h hstep => (Conveys.step h hstep).woken)
        (fun _ _ _ _ h hstep => (Conveys.step h hstep).answers) h₀.modem.woken hrun
    have hput : os.flatMap (answerFlow (γ := γ) dataDir).put = [] :=
      List.flatMap_eq_nil_iff.mpr fun _ _ => rfl
    rw [Flow.Balanced, hput, List.append_nil] at hbalance
    exact hbalance.symm
  shown := by
    have hbalance : screenFlow.Balanced s₀ os s :=
      Flow.balanced_run (fun _ _ _ _ h hstep => (Conveys.step h hstep).woken)
        (fun _ _ _ _ h hstep => (Conveys.step h hstep).screen) h₀.modem.woken hrun
    have hstart : screenFlow.held s₀ = [] := by
      simp [screenFlow, SerialOut.inHand, h₀.modem.unlocked, h₀.modem.empty]
    rw [Flow.Balanced, hstart, List.nil_append] at hbalance
    rw [written_screens, latin1, latin1, latin1, ← List.map_append]
    exact congrArg _ hbalance.symm

/-! ## Nothing stays behind -/

def TerminalAction.Serves : TerminalAction τ → Prop
  | iterate | read => True
  | modem a => a.Advances
  | handler _ => False

namespace Terminal

def Shown (s : Terminal τ γ) : Prop := s.modem.inHand ++ s.modem.serial.rxQueue = []

theorem shows (dataDir : List Char) (h : s.modem.Woken) :
    ∃ s', (terminal dataDir τ γ).Reaches TerminalAction.Serves s s' ∧ s'.Shown := by
  obtain ⟨m, hreach, -, hempty⟩ := h.drains
  have hinside : ∀ (m : SerialOut τ γ) a m' o, a.Advances →
      (serialOut τ γ).step m a = some (m', o) → ∃ b o',
        (terminal dataDir τ γ).step ⟨s.source, m⟩ b = some (⟨s.source, m'⟩, o') ∧ b.Serves := by
    intro m a m' o ha hstep
    have hmodem : m.step a = some (m', o) := hstep
    refine ⟨.modem a, .modem o, ?_, ha⟩
    simp only [terminal, step, hmodem, Option.map_some]
  exact ⟨⟨s.source, m⟩, hreach.inside (Terminal.mk s.source) hinside, hempty⟩

/-- The loop can go on until it waits or has ended. -/
theorem iterates (dataDir : List Char) (h : s.Shown) :
    ∃ s', (terminal dataDir τ γ).Reaches TerminalAction.Serves s s' ∧ s'.Shown ∧
      s'.source.next = none := by
  refine Machine.reaches_of_variant (fun s : Terminal τ γ => s.source.size) (fun s hs hmore => ?_) h
  obtain ⟨⟨b, rest⟩, hnext⟩ := Option.ne_none_iff_exists'.mp hmore
  have hless := size_next hnext
  cases b with
  | none =>
      have hstep : (terminal dataDir τ γ).step s .iterate =
          some ({ s with source := rest }, .ignored) := by
        simp only [terminal, step, iterate, hnext]
      exact ⟨_, .single hstep trivial, hs, hless⟩
  | some b =>
      have hstep : (terminal dataDir τ γ).step s .iterate =
          some (⟨if (handleByte dataDir ⟨[], []⟩ b).2 then rest else .ended,
            { s.modem with serial :=
                s.modem.serial.feedInput (handleByte dataDir ⟨[], []⟩ b).1.written }⟩,
            .handled (handleByte dataDir ⟨[], []⟩ b).1) := by
        simp only [terminal, step, iterate, hnext]
      refine ⟨_, .single hstep trivial, hs, ?_⟩
      show Source.size (if _ then rest else .ended) < s.source.size
      split
      · exact hless
      · exact lt_of_le_of_lt (Nat.zero_le _) hless

theorem reads (dataDir : List Char) (h : s.Shown ∧ s.source.next = none) :
    ∃ s', (terminal dataDir τ γ).Reaches TerminalAction.Serves s s' ∧
      (s'.Shown ∧ s'.source.next = none) ∧ s'.modem.serial.input = [] := by
  refine Machine.reaches_of_variant (fun s : Terminal τ γ => s.modem.serial.input.length)
    (fun s hs hmore => ⟨_, .single (a := .read) rfl trivial, hs, ?_⟩) h
  show s.modem.serial.input.tail.length < s.modem.serial.input.length
  have hpos := List.length_pos_iff.mpr hmore
  rw [List.length_tail]
  omega

end Terminal

/-- Nothing is on its way: the firmware got all that the loop sends, and everything is printed. -/
structure CaughtUp (dataDir : List Char) (source : Source) (os : List (TerminalEvent τ))
    (s : Terminal τ γ) : Prop where
  waits : s.source.next = none
  typed : os.flatMap TerminalEvent.received = (source.loop dataDir).written
  answered : os.flatMap TerminalEvent.answers = (source.loop dataDir).printed
  shown : (os.flatMap TerminalEvent.screen).flatMap Output.written =
    latin1 (os.flatMap TerminalEvent.written)

omit [DecidableEq τ] in
theorem Transparent.caughtUp {source : Source} (h : Transparent dataDir source os s)
    (hwaits : s.source.next = none) (hinput : s.modem.serial.input = []) (hshown : s.Shown) :
    CaughtUp dataDir source os s where
  waits := hwaits
  typed := by
    have htyped := h.typed
    rwa [loop_waits dataDir hwaits, hinput, List.append_nil, List.append_nil] at htyped
  answered := by
    have hanswered := h.answered
    rwa [loop_waits dataDir hwaits, List.append_nil] at hanswered
  shown := by
    have hshows := h.shown
    rwa [show s.modem.inHand ++ s.modem.serial.rxQueue = [] from hshown, latin1, List.map_nil,
      List.append_nil] at hshows

/-- The terminal is transparent in every run, and the loop, the reads of the firmware and the calls
in progress can go on by themselves, whatever the point, until it has caught up. -/
theorem terminal_transparent (h₀ : s₀.Ready)
    (hrun : (terminal dataDir τ γ).run s₀ as = some (s, os)) :
    Transparent dataDir s₀.source os s ∧
      ∃ bs s' os', (terminal dataDir τ γ).run s bs = some (s', os') ∧ (∀ b ∈ bs, b.Serves) ∧
        CaughtUp dataDir s₀.source (os ++ os') s' := by
  refine ⟨transparent_of_run h₀ hrun, ?_⟩
  obtain ⟨s₁, hreach₁, hshown₁⟩ := Terminal.shows dataDir (woken_of_run h₀ hrun)
  obtain ⟨s₂, hreach₂, hwaiting₂⟩ := Terminal.iterates dataDir hshown₁
  obtain ⟨s', hreach₃, ⟨hshown, hwaits⟩, hinput⟩ := Terminal.reads dataDir hwaiting₂
  obtain ⟨bs, os', hbs, hserves⟩ := (hreach₁.trans hreach₂).trans hreach₃
  have hwhole : (terminal dataDir τ γ).run s₀ (as ++ bs) = some (s', os ++ os') :=
    Machine.run_append_iff.mpr ⟨s, os, os', hrun, hbs, rfl⟩
  exact ⟨bs, s', os', hbs, hserves, (transparent_of_run h₀ hwhole).caughtUp hwaits hinput hshown⟩

/-- `A`, Ctrl+D and an end of a line. Meanwhile the firmware writes `O` and `K` from two threads,
and one of the handlers prints. -/
def smallTalk : List (TerminalAction Bool) :=
  [.iterate, .modem (.write true [79]), .iterate, .read, .modem (.advance true),
    .handler ['[', ']'], .modem (.write false [75]), .iterate, .modem (.advance true),
    .modem (.advance true), .iterate, .modem (.advance true), .modem (.advance true),
    .modem (.advance true), .modem (.advance true)]

def typedLine : Terminal Bool Unit :=
  ⟨.redirected false [65, 4, 13, 10], .registered Bool⟩

theorem smallTalk_transparent :
    ∃ s os, (terminal ['d'] Bool Unit).run typedLine smallTalk = some (s, os) ∧
      os.flatMap TerminalEvent.received = [65] ∧
      os.flatMap TerminalEvent.screen =
        [.writeLine ['d'], .writeLine ['\n', '[', ']'], .write ['O', 'K']] ∧
      Transparent ['d'] typedLine.source os s ∧
      ∃ bs s' os', (terminal ['d'] Bool Unit).run s bs = some (s', os') ∧ (∀ b ∈ bs, b.Serves) ∧
        CaughtUp ['d'] typedLine.source (os ++ os') s' := by
  have hrun : (terminal ['d'] Bool Unit).run typedLine smallTalk = some (_, _) := rfl
  have hready : typedLine.Ready := ⟨⟨rfl, rfl, rfl, rfl, fun _ => rfl⟩, rfl⟩
  exact ⟨_, _, hrun, by decide, by decide, terminal_transparent hready hrun⟩

end Runs

end ZiModem.Console
