import Mathlib.Algebra.Ring.Nat
import ZiModem.Reactive.Halting

/-! # Running git

`GitProcess.Run` redirects both outputs of the child into pipes, reads the one for
stdout to its end, then the one for stderr, and then waits. A pipe holds so many
bytes; a child that writes to a full one blocks. Parent and child take their steps in
any order, and each step moves any number of bytes that can be moved.
-/

namespace ZiModem.Vendoring

open Reactive

inductive StdStream
  | out
  | err
  deriving DecidableEq, Repr

structure Write where
  stream : StdStream
  data : List UInt8
  deriving DecidableEq, Repr

def written (st : StdStream) (writes : List Write) : List UInt8 :=
  writes.flatMap fun w => if w.stream = st then w.data else []

structure Pipe where
  buffered : List UInt8
  closed : Bool
  deriving DecidableEq, Repr

def Pipe.size (p : Pipe) : Nat := p.buffered.length + (!p.closed).toNat

/-- `Result`. -/
structure GitResult (τ : Type*) where
  exitCode : Int
  stdOut : τ
  stdErr : τ
  deriving DecidableEq, Repr

/-- Where the parent is: in one of the two `ReadToEnd`s, in `WaitForExit`, or back from `Run`. -/
inductive Stage (τ : Type*)
  | reading (st : StdStream)
  | waiting
  | returned (r : GitResult τ)
  deriving DecidableEq, Repr

def Stage.size {τ : Type*} : Stage τ → Nat
  | reading .out => 3
  | reading .err => 2
  | waiting => 1
  | returned _ => 0

def Stage.Past {τ : Type*} : Stage τ → StdStream → Prop
  | reading .out, _ => False
  | reading .err, st => st = .out
  | waiting, _ => True
  | returned _, _ => True

/-- Parent and child with the pipes between them: the writes that the child has not made yet, and
what the parent has read. -/
structure GitRun (τ : Type*) where
  pipe : StdStream → Pipe
  writes : List Write
  exited : Bool
  received : StdStream → List UInt8
  stage : Stage τ

inductive GitAction
  | write (n : Nat)
  | close (st : StdStream)
  | exit
  | read (n : Nat)
  | endOfStream
  | waitForExit
  deriving DecidableEq, Repr

/-- The size of a pipe, how the output is decoded, and the exit code of the child. -/
structure GitEnv (τ : Type*) where
  capacity : Nat
  decode : List UInt8 → τ
  exitCode : Int

namespace GitRun

variable {τ : Type*} (env : GitEnv τ) (s : GitRun τ)

/-- The child has its writes to make, and the parent starts to read. -/
def start (writes : List Write) : GitRun τ :=
  ⟨fun _ => ⟨[], false⟩, writes, false, fun _ => [], .reading .out⟩

def put (w : Write) (rest : List Write) (n : Nat) : GitRun τ :=
  { s with
    pipe := Function.update s.pipe w.stream
      ⟨(s.pipe w.stream).buffered ++ w.data.take n, (s.pipe w.stream).closed⟩
    writes := ⟨w.stream, w.data.drop n⟩ :: rest }

def take (st : StdStream) (n : Nat) : GitRun τ :=
  { s with
    pipe := Function.update s.pipe st ⟨(s.pipe st).buffered.drop n, (s.pipe st).closed⟩
    received := Function.update s.received st
      (s.received st ++ (s.pipe st).buffered.take n) }

def closeEnd (st : StdStream) : GitRun τ :=
  { s with pipe := Function.update s.pipe st ⟨(s.pipe st).buffered, true⟩ }

def nextStage : StdStream → Stage τ
  | .out => .reading .err
  | .err => .waiting

def result : GitResult τ :=
  ⟨env.exitCode, env.decode (s.received .out), env.decode (s.received .err)⟩

def step : GitAction → Option (GitRun τ × Unit)
  | .write n =>
      match s.writes with
      | [] => none
      | w :: rest =>
          if w.data = [] then some ({ s with writes := rest }, ())
          else if 0 < n ∧ n ≤ w.data.length ∧
              (s.pipe w.stream).buffered.length + n ≤ env.capacity then
            some (s.put w rest n, ())
          else none
  | .close st =>
      if s.writes = [] ∧ (s.pipe st).closed = false then some (s.closeEnd st, ()) else none
  | .exit =>
      if (s.pipe .out).closed = true ∧ (s.pipe .err).closed = true ∧ s.exited = false then
        some ({ s with exited := true }, ())
      else none
  | .read n =>
      match s.stage with
      | .reading st =>
          if 0 < n ∧ n ≤ (s.pipe st).buffered.length then some (s.take st n, ()) else none
      | _ => none
  | .endOfStream =>
      match s.stage with
      | .reading st =>
          if (s.pipe st).buffered = [] ∧ (s.pipe st).closed = true then
            some ({ s with stage := nextStage st }, ())
          else none
      | _ => none
  | .waitForExit =>
      match s.stage with
      | .waiting =>
          if s.exited = true then some ({ s with stage := .returned (s.result env) }, ()) else none
      | _ => none

end GitRun

def gitProcess {τ : Type*} (env : GitEnv τ) : Machine (GitRun τ) GitAction Unit :=
  ⟨GitRun.step env⟩

namespace GitRun

variable {τ : Type*} {env : GitEnv τ} {s s' : GitRun τ}

/-! ## The steps -/

inductive Moves (env : GitEnv τ) (s : GitRun τ) : GitRun τ → Prop
  | skips {w : Write} {rest : List Write} (hwrites : s.writes = w :: rest) (hdata : w.data = []) :
      Moves env s { s with writes := rest }
  | puts {w : Write} {rest : List Write} {n : Nat} (hwrites : s.writes = w :: rest) (hpos : 0 < n)
      (hle : n ≤ w.data.length)
      (hroom : (s.pipe w.stream).buffered.length + n ≤ env.capacity) : Moves env s (s.put w rest n)
  | closes {st : StdStream} (hwrites : s.writes = []) (hopen : (s.pipe st).closed = false) :
      Moves env s (s.closeEnd st)
  | exits (hclosed : ∀ st, (s.pipe st).closed = true) (hrunning : s.exited = false) :
      Moves env s { s with exited := true }
  | takes {st : StdStream} {n : Nat} (hstage : s.stage = .reading st) (hpos : 0 < n)
      (hle : n ≤ (s.pipe st).buffered.length) : Moves env s (s.take st n)
  | advances {st : StdStream} (hstage : s.stage = .reading st) (hempty : (s.pipe st).buffered = [])
      (hclosed : (s.pipe st).closed = true) : Moves env s { s with stage := nextStage st }
  | returns (hstage : s.stage = .waiting) (hexited : s.exited = true) :
      Moves env s { s with stage := .returned (s.result env) }

theorem moves_of_step {a : GitAction} {o : Unit} (h : s.step env a = some (s', o)) :
    s.Moves env s' := by
  cases a with
  | write n =>
      simp only [step] at h
      split at h
      next => cases h
      next w rest hwrites =>
        split at h
        next hdata =>
          cases h
          exact .skips hwrites hdata
        next =>
          split at h
          next hfits =>
            cases h
            exact .puts hwrites hfits.1 hfits.2.1 hfits.2.2
          next => cases h
  | close st =>
      simp only [step] at h
      split at h
      next hclose =>
        cases h
        exact .closes hclose.1 hclose.2
      next => cases h
  | exit =>
      simp only [step] at h
      split at h
      next hexit =>
        cases h
        refine .exits ?_ hexit.2.2
        intro st
        cases st with
        | out => exact hexit.1
        | err => exact hexit.2.1
      next => cases h
  | read n =>
      simp only [step] at h
      split at h
      next st hstage =>
        split at h
        next hread =>
          cases h
          exact .takes hstage hread.1 hread.2
        next => cases h
      next => cases h
  | endOfStream =>
      simp only [step] at h
      split at h
      next st hstage =>
        split at h
        next hend =>
          cases h
          exact .advances hstage hend.1 hend.2
        next => cases h
      next => cases h
  | waitForExit =>
      simp only [step] at h
      split at h
      next hstage =>
        split at h
        next hexited =>
          cases h
          exact .returns hstage hexited
        next => cases h
      next => cases h

theorem step_of_moves (h : s.Moves env s') : ∃ a, s.step env a = some (s', ()) := by
  cases h with
  | skips hwrites hdata => exact ⟨.write 0, by simp only [step, hwrites, if_pos hdata]⟩
  | @puts w rest n hwrites hpos hle hroom =>
      have hdata : w.data ≠ [] := by
        rw [← List.length_pos_iff]
        omega
      have hfits := And.intro hpos (And.intro hle hroom)
      exact ⟨.write n, by simp only [step, hwrites, if_neg hdata, if_pos hfits]⟩
  | @closes st hwrites hopen => exact ⟨.close st, if_pos ⟨hwrites, hopen⟩⟩
  | exits hclosed hrunning => exact ⟨.exit, if_pos ⟨hclosed .out, hclosed .err, hrunning⟩⟩
  | @takes st n hstage hpos hle =>
      exact ⟨.read n, by simp only [step, hstage, if_pos (And.intro hpos hle)]⟩
  | advances hstage hempty hclosed =>
      exact ⟨.endOfStream, by simp only [step, hstage, if_pos (And.intro hempty hclosed)]⟩
  | returns hstage hexited => exact ⟨.waitForExit, by simp only [step, hstage, if_pos hexited]⟩

/-! ## Every step gets nearer to the end -/

def pipesSize (pipe : StdStream → Pipe) : Nat := (pipe .out).size + (pipe .err).size

def size (s : GitRun τ) : Nat :=
  2 * (s.writes.map fun w => w.data.length).sum + s.writes.length + pipesSize s.pipe +
    (!s.exited).toNat + s.stage.size

theorem pipesSize_update (pipe : StdStream → Pipe) (st : StdStream) (p : Pipe) :
    pipesSize (Function.update pipe st p) + (pipe st).size = pipesSize pipe + p.size := by
  cases st with
  | out =>
      have herr : Function.update pipe .out p .err = pipe .err := rfl
      simp only [pipesSize, Function.update_self, herr]
      omega
  | err =>
      have hout : Function.update pipe .err p .out = pipe .out := rfl
      simp only [pipesSize, Function.update_self, hout]
      omega

theorem Moves.size_lt (h : s.Moves env s') : s'.size < s.size := by
  cases h with
  | skips hwrites hdata =>
      simp only [size, hwrites, List.map_cons, List.sum_cons, List.length_cons]
      omega
  | @puts w rest n hwrites hpos hle hroom =>
      have hpipes := pipesSize_update s.pipe w.stream
        ⟨(s.pipe w.stream).buffered ++ w.data.take n, (s.pipe w.stream).closed⟩
      simp only [Pipe.size, List.length_append, List.length_take] at hpipes
      simp only [size, put, hwrites, List.map_cons, List.sum_cons, List.length_cons,
        List.length_drop]
      omega
  | @closes st hwrites hopen =>
      have hpipes := pipesSize_update s.pipe st ⟨(s.pipe st).buffered, true⟩
      simp only [Pipe.size, hopen, Bool.not_false, Bool.not_true, Bool.toNat_true,
        Bool.toNat_false] at hpipes
      simp only [size, closeEnd]
      omega
  | exits hclosed hrunning =>
      simp only [size, hrunning, Bool.not_false, Bool.not_true, Bool.toNat_true, Bool.toNat_false]
      omega
  | @takes st n hstage hpos hle =>
      have hpipes := pipesSize_update s.pipe st
        ⟨(s.pipe st).buffered.drop n, (s.pipe st).closed⟩
      simp only [Pipe.size, List.length_drop] at hpipes
      simp only [size, take]
      omega
  | @advances st hstage hempty hclosed =>
      have hstages : (nextStage st : Stage τ).size < (Stage.reading st : Stage τ).size := by
        cases st with
        | out => exact Nat.lt_succ_self 2
        | err => exact Nat.lt_succ_self 1
      simp only [size, hstage]
      omega
  | returns hstage hexited =>
      simp only [size, hstage, Stage.size]
      omega

/-! ## What the steps keep -/

theorem written_cons (st : StdStream) (w : Write) (rest : List Write) :
    written st (w :: rest) = (if w.stream = st then w.data else []) ++ written st rest := rfl

/-- Every byte is read, in a pipe or still to be written, and no pipe holds too much. -/
structure Flow (env : GitEnv τ) (writes : List Write) (s : GitRun τ) : Prop where
  conserved : ∀ st,
    s.received st ++ ((s.pipe st).buffered ++ written st s.writes) = written st writes
  bounded : ∀ st, (s.pipe st).buffered.length ≤ env.capacity

/-- How far the child and the parent can be: the child closes a pipe when it has nothing to write
any more, and the parent leaves one when it is empty and closed. -/
structure Ordered (env : GitEnv τ) (s : GitRun τ) : Prop where
  closed : ∀ st, (s.pipe st).closed = true → s.writes = []
  exited : s.exited = true → ∀ st, (s.pipe st).closed = true
  unread : s.stage = .reading .out → s.received .err = []
  drained : ∀ st, s.stage.Past st → s.pipe st = ⟨[], true⟩
  returned : ∀ r, s.stage = .returned r → r = s.result env

variable {writes : List Write}

theorem flow_start : Flow env writes (start writes) where
  conserved := fun _ => rfl
  bounded := fun _ => Nat.zero_le _

theorem ordered_start : Ordered env (start writes) where
  closed := fun _ h => absurd h Bool.false_ne_true
  exited := fun h => absurd h Bool.false_ne_true
  unread := fun _ => rfl
  drained := fun _ h => h.elim
  returned := fun _ h => by cases h

theorem Flow.put (h : Flow env writes s) {w : Write} {rest : List Write} {n : Nat}
    (hwrites : s.writes = w :: rest) (hle : n ≤ w.data.length)
    (hroom : (s.pipe w.stream).buffered.length + n ≤ env.capacity) :
    Flow env writes (s.put w rest n) where
  conserved := by
    intro st
    have hbefore := h.conserved st
    rw [hwrites, written_cons] at hbefore
    show s.received st ++ ((Function.update s.pipe w.stream _ st).buffered ++
      written st (⟨w.stream, w.data.drop n⟩ :: rest)) = _
    rw [written_cons, ← hbefore]
    by_cases hst : w.stream = st
    · subst hst
      rw [Function.update_self, if_pos rfl, if_pos rfl,
        List.append_assoc (s.pipe w.stream).buffered, ← List.append_assoc (w.data.take n),
        List.take_append_drop]
    · rw [Function.update_of_ne (Ne.symm hst), if_neg hst, if_neg hst]
  bounded := by
    intro st
    show (Function.update s.pipe w.stream _ st).buffered.length ≤ _
    by_cases hst : st = w.stream
    · rw [hst, Function.update_self, List.length_append, List.length_take, Nat.min_eq_left hle]
      exact hroom
    · rw [Function.update_of_ne hst]
      exact h.bounded st

theorem Flow.take (h : Flow env writes s) (st : StdStream) (n : Nat) :
    Flow env writes (s.take st n) where
  conserved := by
    intro st'
    rw [← h.conserved st']
    show Function.update s.received st _ st' ++ ((Function.update s.pipe st _ st').buffered ++
      written st' s.writes) = _
    by_cases hst : st' = st
    · subst hst
      rw [Function.update_self, Function.update_self, List.append_assoc,
        ← List.append_assoc (List.take n _), List.take_append_drop]
    · rw [Function.update_of_ne hst, Function.update_of_ne hst]
  bounded := by
    intro st'
    show (Function.update s.pipe st _ st').buffered.length ≤ _
    by_cases hst : st' = st
    · rw [hst, Function.update_self, List.length_drop]
      exact Nat.le_trans (Nat.sub_le _ _) (h.bounded st)
    · rw [Function.update_of_ne hst]
      exact h.bounded st'

theorem closeEnd_buffered (st st' : StdStream) :
    ((s.closeEnd st).pipe st').buffered = (s.pipe st').buffered := by
  show (Function.update s.pipe st _ st').buffered = _
  by_cases hst : st' = st
  · rw [hst, Function.update_self]
  · rw [Function.update_of_ne hst]

theorem Flow.moves (h : Flow env writes s) (hmoves : s.Moves env s') : Flow env writes s' := by
  cases hmoves with
  | @skips w rest hwrites hdata =>
      refine ⟨?_, h.bounded⟩
      intro st
      have hbefore := h.conserved st
      rwa [hwrites, written_cons, hdata, ite_self, List.nil_append] at hbefore
  | puts hwrites hpos hle hroom => exact h.put hwrites hle hroom
  | @closes st hwrites hopen =>
      constructor
      · intro st'
        rw [closeEnd_buffered]
        exact h.conserved st'
      · intro st'
        rw [closeEnd_buffered]
        exact h.bounded st'
  | exits hclosed hrunning => exact ⟨h.conserved, h.bounded⟩
  | @takes st n hstage hpos hle => exact h.take st n
  | advances hstage hempty hclosed => exact ⟨h.conserved, h.bounded⟩
  | returns hstage hexited => exact ⟨h.conserved, h.bounded⟩

/-- While there is something to write the child has closed nothing, and the parent has not got past
anything. -/
theorem Ordered.open_of_writes (h : Ordered env s) {w : Write} {rest : List Write}
    (hwrites : s.writes = w :: rest) (st : StdStream) :
    (s.pipe st).closed = false ∧ ¬ s.stage.Past st := by
  have hopen : (s.pipe st).closed = false := by
    rw [Bool.eq_false_iff]
    intro hclosed
    cases hwrites.symm.trans (h.closed st hclosed)
  refine ⟨hopen, fun hpast => ?_⟩
  rw [h.drained st hpast] at hopen
  cases hopen

theorem Ordered.running_of_writes (h : Ordered env s) {w : Write} {rest : List Write}
    (hwrites : s.writes = w :: rest) : s.exited = false := by
  rw [Bool.eq_false_iff]
  intro hexited
  exact absurd (h.exited hexited .out) (Bool.eq_false_iff.mp (h.open_of_writes hwrites .out).1)

theorem Ordered.put (h : Ordered env s) {w : Write} {rest : List Write} {n : Nat}
    (hwrites : s.writes = w :: rest) : Ordered env (s.put w rest n) := by
  have hopen : ∀ st, ((s.put w rest n).pipe st).closed = false := by
    intro st
    show (Function.update s.pipe w.stream _ st).closed = false
    by_cases hst : st = w.stream
    · rw [hst, Function.update_self]
      exact (h.open_of_writes hwrites w.stream).1
    · rw [Function.update_of_ne hst]
      exact (h.open_of_writes hwrites st).1
  exact ⟨fun st hclosed => absurd hclosed (Bool.eq_false_iff.mp (hopen st)),
    fun hexited => absurd hexited (Bool.eq_false_iff.mp (h.running_of_writes hwrites)), h.unread,
    fun st hpast => absurd hpast (h.open_of_writes hwrites st).2, h.returned⟩

theorem Ordered.closeEnd (h : Ordered env s) {st : StdStream} (hwrites : s.writes = [])
    (hopen : (s.pipe st).closed = false) : Ordered env (s.closeEnd st) where
  closed := fun _ _ => hwrites
  exited := fun hexited => absurd (h.exited hexited st) (Bool.eq_false_iff.mp hopen)
  unread := h.unread
  drained := by
    intro st' hpast
    have hbefore := h.drained st' hpast
    show Function.update s.pipe st _ st' = _
    by_cases hst : st' = st
    · rw [← hst, hbefore] at hopen
      cases hopen
    · rw [Function.update_of_ne hst, hbefore]
  returned := h.returned

theorem Ordered.take (h : Ordered env s) {st : StdStream} {n : Nat}
    (hstage : s.stage = .reading st) : Ordered env (s.take st n) := by
  have hclosed : ∀ st', ((s.take st n).pipe st').closed = (s.pipe st').closed := by
    intro st'
    show (Function.update s.pipe st _ st').closed = _
    by_cases hst : st' = st
    · rw [hst, Function.update_self]
    · rw [Function.update_of_ne hst]
  refine ⟨?_, ?_, ?_, ?_, ?_⟩
  · intro st' hst'
    exact h.closed st' ((hclosed st').symm.trans hst')
  · intro hexited st'
    exact (hclosed st').trans (h.exited hexited st')
  · intro hout
    obtain rfl : StdStream.out = st := Stage.reading.inj (hout.symm.trans hstage)
    exact h.unread hout
  · intro st' hpast
    have hother : st' ≠ st := by
      intro hst
      have hpast' : s.stage.Past st' := hpast
      rw [hstage, hst] at hpast'
      cases st <;> cases hpast'
    show Function.update s.pipe st _ st' = _
    rw [Function.update_of_ne hother]
    exact h.drained st' hpast
  · intro r hreturned
    cases hstage.symm.trans hreturned

theorem Ordered.advance (h : Ordered env s) {st : StdStream} (hstage : s.stage = .reading st)
    (hempty : (s.pipe st).buffered = []) (hclosed : (s.pipe st).closed = true) :
    Ordered env { s with stage := nextStage st } := by
  have hend : s.pipe st = ⟨[], true⟩ := by
    cases hpipe : s.pipe st with
    | mk buffered closed =>
        rw [hpipe] at hempty hclosed
        obtain rfl : buffered = [] := hempty
        obtain rfl : closed = true := hclosed
        rfl
  refine ⟨h.closed, h.exited, ?_, ?_, ?_⟩
  · intro hout
    cases st <;> cases hout
  · intro st' hpast
    cases st with
    | out =>
        obtain rfl : st' = .out := hpast
        exact hend
    | err =>
        cases st' with
        | out =>
            have hpast' : s.stage.Past .out := by
              rw [hstage]
              rfl
            exact h.drained .out hpast'
        | err => exact hend
  · intro r hreturned
    cases st <;> cases hreturned

theorem Ordered.moves (h : Ordered env s) (hmoves : s.Moves env s') : Ordered env s' := by
  cases hmoves with
  | skips hwrites hdata =>
      have hopen : ∀ st, (s.pipe st).closed ≠ true := fun st =>
        Bool.eq_false_iff.mp (h.open_of_writes hwrites st).1
      exact ⟨fun st hclosed => absurd hclosed (hopen st), h.exited, h.unread, h.drained, h.returned⟩
  | puts hwrites hpos hle hroom => exact h.put hwrites
  | closes hwrites hopen => exact h.closeEnd hwrites hopen
  | exits hclosed hrunning => exact ⟨h.closed, fun _ => hclosed, h.unread, h.drained, h.returned⟩
  | takes hstage hpos hle => exact h.take hstage
  | advances hstage hempty hclosed => exact h.advance hstage hempty hclosed
  | returns hstage hexited =>
      refine ⟨h.closed, h.exited, nofun, ?_, ?_⟩
      · intro st hpast
        have hpast' : s.stage.Past st := by
          rw [hstage]
          trivial
        exact h.drained st hpast'
      · intro r hreturned
        exact (Stage.returned.inj hreturned).symm

/-! ## Whole runs -/

theorem run_flow {as : List GitAction} {os : List Unit}
    (hrun : (gitProcess env).run (start writes) as = some (s, os)) :
    Flow env writes s ∧ Ordered env s := by
  have hstart : Flow env writes (start writes) ∧ Ordered env (start writes) :=
    ⟨flow_start, ordered_start⟩
  apply Machine.invariant (M := gitProcess env) ?_ hstart hrun
  intro s a s' o h hstep
  have hmoves := moves_of_step hstep
  exact ⟨h.1.moves hmoves, h.2.moves hmoves⟩

theorem result_of_returned (hflow : Flow env writes s) (hordered : Ordered env s)
    {r : GitResult τ} (hreturned : s.stage = .returned r) :
    r = ⟨env.exitCode, env.decode (written .out writes), env.decode (written .err writes)⟩ := by
  have hall : ∀ st, s.received st = written st writes := by
    intro st
    have hpast : s.stage.Past st := by
      rw [hreturned]
      trivial
    have hpipe := hordered.drained st hpast
    have hnone : s.writes = [] := hordered.closed st (by rw [hpipe])
    have hconserved := hflow.conserved st
    rw [hpipe, hnone] at hconserved
    rw [← hconserved]
    exact (List.append_nil _).symm
  rw [hordered.returned r hreturned, result, hall, hall]

theorem Ordered.room (h : Ordered env s) (hcapacity : 0 < env.capacity)
    (hfits : (written .err writes).length ≤ env.capacity) (hflow : Flow env writes s)
    {st : StdStream} (hstage : s.stage = .reading st) (hempty : (s.pipe st).buffered = [])
    {w : Write} {rest : List Write} (hwrites : s.writes = w :: rest) (hpos : 0 < w.data.length) :
    (s.pipe w.stream).buffered.length + 1 ≤ env.capacity := by
  by_cases hst : w.stream = st
  · rw [hst, hempty]
    exact hcapacity
  · cases st with
    | out =>
        have herr : w.stream = .err := by
          cases hw : w.stream with
          | out => exact absurd hw hst
          | err => rfl
        -- nothing of stderr has been read: what is in the pipe and what is left is all of it
        have hconserved := congrArg List.length (hflow.conserved .err)
        rw [h.unread hstage, hwrites, written_cons, if_pos herr, List.nil_append,
          List.length_append, List.length_append] at hconserved
        rw [herr]
        omega
    | err =>
        have hpast : s.stage.Past .out := by
          rw [hstage]
          rfl
        exact absurd hpast (h.open_of_writes hwrites .out).2

/-- Before `Run` returns something can move, as long as stderr fits in its pipe: a child that is
blocked there while the parent reads stdout has filled it. -/
theorem exists_moves (hcapacity : 0 < env.capacity)
    (hfits : (written .err writes).length ≤ env.capacity) (hflow : Flow env writes s)
    (hordered : Ordered env s) : (∃ r, s.stage = .returned r) ∨ ∃ s', s.Moves env s' := by
  cases hstage : s.stage with
  | returned r => exact .inl ⟨r, rfl⟩
  | waiting =>
      right
      cases hexited : s.exited with
      | true => exact ⟨_, .returns hstage hexited⟩
      | false =>
          refine ⟨_, .exits ?_ hexited⟩
          intro st
          have hpast : s.stage.Past st := by
            rw [hstage]
            trivial
          rw [hordered.drained st hpast]
  | reading st =>
      right
      by_cases hempty : (s.pipe st).buffered = []
      · cases hclosed : (s.pipe st).closed with
        | true => exact ⟨_, .advances hstage hempty hclosed⟩
        | false =>
            cases hwrites : s.writes with
            | nil => exact ⟨_, .closes hwrites hclosed⟩
            | cons w rest =>
                by_cases hdata : w.data = []
                · exact ⟨_, .skips hwrites hdata⟩
                · have hpos : 0 < w.data.length := List.length_pos_iff.mpr hdata
                  exact ⟨_, .puts hwrites Nat.one_pos hpos
                    (hordered.room hcapacity hfits hflow hstage hempty hwrites hpos)⟩
      · exact ⟨_, .takes hstage Nat.one_pos (List.length_pos_iff.mpr hempty)⟩

/-- With too much to write to stderr the parent does not get past stdout. -/
theorem Moves.reading_out (hbig : env.capacity < (written .err writes).length)
    (hflow : Flow env writes s) (hordered : Ordered env s) (hmoves : s.Moves env s')
    (hstage : s.stage = .reading .out) : s'.stage = .reading .out := by
  cases hmoves with
  | skips | puts | closes | exits | takes => exact hstage
  | returns hwaiting hexited => cases hstage.symm.trans hwaiting
  | @advances st hreading hempty hclosed =>
      -- all of stderr would have to be in its pipe
      obtain rfl : StdStream.out = st := Stage.reading.inj (hstage.symm.trans hreading)
      have hconserved := hflow.conserved .err
      have hnone : written .err ([] : List Write) = [] := rfl
      rw [hordered.unread hstage, hordered.closed .out hclosed, hnone, List.append_nil,
        List.nil_append] at hconserved
      have hbounded := hflow.bounded .err
      rw [hconserved] at hbounded
      omega

end GitRun

/-! ## Deadlocks -/

section Deadlock

variable {τ : Type*} (env : GitEnv τ) (writes : List Write)

/-- In no state before `Run` returns are parent and child both blocked, and what it returns is what
the child wrote. -/
structure ReturnsAll : Prop where
  not_stuck : ∀ as s os, (gitProcess env).run (GitRun.start writes) as = some (s, os) →
    (∃ r, s.stage = .returned r) ∨ ¬ (gitProcess env).Halted s
  result : ∀ as s os r, (gitProcess env).run (GitRun.start writes) as = some (s, os) →
    s.stage = .returned r →
      r = ⟨env.exitCode, env.decode (written .out writes), env.decode (written .err writes)⟩

variable {env writes}

theorem never_returned (hbig : env.capacity < (written .err writes).length) {s : GitRun τ}
    {as : List GitAction} {os : List Unit}
    (hrun : (gitProcess env).run (GitRun.start writes) as = some (s, os)) :
    s.stage = .reading .out := by
  have hstart : GitRun.Flow env writes (GitRun.start writes) ∧
      GitRun.Ordered env (GitRun.start writes) ∧
      (GitRun.start writes : GitRun τ).stage = .reading .out :=
    ⟨GitRun.flow_start, GitRun.ordered_start, rfl⟩
  have hend := Machine.invariant (M := gitProcess env)
    (J := fun s => GitRun.Flow env writes s ∧ GitRun.Ordered env s ∧ s.stage = .reading .out)
    (fun s a s' o h hstep =>
      have hmoves := GitRun.moves_of_step hstep
      ⟨h.1.moves hmoves, h.2.1.moves hmoves, hmoves.reading_out hbig h.1 h.2.1 h.2.2⟩)
    hstart hrun
  exact hend.2.2

theorem ReturnsAll.fits (h : ReturnsAll env writes) :
    (written .err writes).length ≤ env.capacity := by
  by_contra hbig
  obtain ⟨as, s, os, hrun, hhalted⟩ := Machine.exists_halted (M := gitProcess env)
    (fun s a s' o hstep => (GitRun.moves_of_step hstep).size_lt) (GitRun.start writes)
  rcases h.not_stuck as s os hrun with ⟨r, hreturned⟩ | hmoving
  · cases hreturned.symm.trans (never_returned (Nat.not_le.mp hbig) hrun)
  · exact hmoving hhalted

theorem returnsAll_of_fits (hcapacity : 0 < env.capacity)
    (hfits : (written .err writes).length ≤ env.capacity) : ReturnsAll env writes where
  not_stuck := by
    intro as s os hrun
    obtain ⟨hflow, hordered⟩ := GitRun.run_flow hrun
    rcases GitRun.exists_moves hcapacity hfits hflow hordered with hreturned | ⟨s', hmoves⟩
    · exact .inl hreturned
    · right
      intro hhalted
      obtain ⟨a, hstep⟩ := GitRun.step_of_moves hmoves
      cases (hhalted a).symm.trans hstep
  result := by
    intro as s os r hrun hreturned
    obtain ⟨hflow, hordered⟩ := GitRun.run_flow hrun
    exact GitRun.result_of_returned hflow hordered hreturned

/-- A run that cannot get stuck is over after so many steps, and until then goes on to the
return. -/
theorem ReturnsAll.returns (h : ReturnsAll env writes) {s : GitRun τ} {as : List GitAction}
    {os : List Unit} (hrun : (gitProcess env).run (GitRun.start writes) as = some (s, os)) :
    as.length ≤ (GitRun.start writes : GitRun τ).size ∧
      ∃ bs s' os' r, (gitProcess env).run s bs = some (s', os') ∧ s'.stage = .returned r := by
  have hdec : ∀ (s : GitRun τ) a s' o, (gitProcess env).step s a = some (s', o) →
      s'.size < s.size := fun s a s' o hstep => (GitRun.moves_of_step hstep).size_lt
  constructor
  · exact Nat.le_trans (Nat.le_add_right _ _) (Machine.run_length_le hdec hrun)
  · obtain ⟨bs, s', os', hrest, hhalted⟩ := Machine.exists_halted hdec s
    have hwhole := Machine.run_append_iff.mpr ⟨s, os, os', hrun, hrest, rfl⟩
    rcases h.not_stuck _ s' _ hwhole with ⟨r, hreturned⟩ | hmoving
    · exact ⟨bs, s', os', r, hrest, hreturned⟩
    · exact absurd hhalted hmoving

/-- Parent and child never block each other exactly if all that the child writes to stderr fits in
a pipe. -/
theorem returnsAll_iff (hcapacity : 0 < env.capacity) :
    ReturnsAll env writes ↔ (written .err writes).length ≤ env.capacity :=
  ⟨ReturnsAll.fits, returnsAll_of_fits hcapacity⟩

def rawEnv (n : Nat) : GitEnv (List UInt8) := ⟨n, id, 0⟩

/-- Two bytes for stderr, and a byte for stdout between them, with room for two bytes in a pipe. -/
theorem returnsAll_two :
    ReturnsAll (rawEnv 2) [⟨.err, [101]⟩, ⟨.out, [111]⟩, ⟨.err, [10]⟩] ↔
      (written .err [⟨.err, [101]⟩, ⟨.out, [111]⟩, ⟨.err, [10]⟩]).length ≤ (rawEnv 2).capacity :=
  returnsAll_iff Nat.two_pos

/-- With room for one byte in a pipe, two bytes for stderr block the child for good. -/
theorem not_returnsAll :
    ¬ ∀ (env : GitEnv (List UInt8)) (writes : List Write), 0 < env.capacity →
      ReturnsAll env writes := by
  intro hall
  have hfits := (hall (rawEnv 1) [⟨.err, [101, 10]⟩] Nat.one_pos).fits
  revert hfits
  decide

end Deadlock

end ZiModem.Vendoring
