import ZiModem.Reactive.LockOrder
import ZiModem.Reactive.Reaching
import ZiModem.Wrapper.Reentry

/-! # Calls into the wrapper come back

The mutexes of the HAL's modules are leaves: whoever holds one locks nothing.
`callback_mutex` is held while the user's callback runs, and that callback may
lock them. So no set of threads waits for one another in a circle, unless one of
them waits for itself; and a call has a bounded number of steps, plus as many
again for each call that the user's callbacks make.
-/

namespace ZiModem.Wrapper

open Reactive ZiModem.Hal

variable {φ ν : Type*}

def Mutex.rank : Mutex → Nat
  | callback => 1
  | serial | pins | log => 0

/-- What a block and the blocks it goes on with have to do, at most. -/
def Block.weight : Block φ ν → Nat
  | hal _ => 8
  | lambda _ => 5
  | setCallbacks _ => 4
  | lineConfigCall _ _ _ => 2
  | called | user _ _ _ | setCallbacksReturn _ => 1

/-- A callback of the user that makes a call adds the work of that call. -/
def callGain : Option UserCall → Nat
  | some _ => 11
  | none => 0

theorem dispatch_neverStuck : (dispatch φ ν).NeverStuck := by
  intro d b
  cases b with
  | lambda l => cases l <;> exact ⟨none, _, rfl⟩
  | _ => exact ⟨none, _, rfl⟩

/-- Blocks that fit are reached with at most `callback_mutex` held, and lock something below it. -/
theorem dispatch_descends : (dispatch φ ν).Descends FitsCallback Mutex.rank := by
  intro H b m m' hfits hguard hheld
  cases b with
  | hal c =>
      have hm : c.mutex = m := Option.some.inj hguard
      rcases hfits with rfl | ⟨rfl, _⟩
      · cases hheld
      · obtain rfl : m' = .callback := List.mem_singleton.mp hheld
        rw [← hm]
        cases c <;> exact Nat.zero_lt_one
  | user e cb ctx => cases hguard
  | _ =>
      have hH : H = [] := hfits
      rw [hH] at hheld
      cases hheld

/-- What a block goes on with is within its own weight, unless the user decides on a call. -/
theorem resume_work_le {d : Device φ ν} {b : Block φ ν}
    {e : Effect (Device φ ν) (Block φ ν) (DispatchEvent φ ν)} (hcase : Block.ExecCase d b e)
    (hcalls : ∀ ev cb ctx call, e.cont ≠ .stay (.user ev cb ctx) (some (.hal call))) :
    Program.work Block.weight ((dispatch φ ν).resume b e.cont) ≤ b.weight := by
  cases hcase with
  | hal c => cases (d.hal c).2 <;> simp [Program.resume, Program.frameWork, Block.weight]
  | userCall ev cb ctx call => exact absurd rfl (hcalls ev cb ctx call.hal)
  | _ => simp [Program.resume, Program.frameWork, Block.weight]

theorem dispatch_pays : (dispatch φ ν).Pays Block.weight callGain := by
  intro d b choice e hexec
  have hcase : Block.ExecCase d b e := Block.exec_cases hexec
  cases choice with
  | some call =>
      by_cases hcalls : ∀ ev cb ctx call, e.cont ≠ .stay (.user ev cb ctx) (some (.hal call))
      · exact (resume_work_le hcase hcalls).trans (Nat.le_add_right _ _)
      · push Not at hcalls
        obtain ⟨ev, cb, ctx, call', hcont⟩ := hcalls
        have htwelve : Program.work Block.weight ((dispatch φ ν).resume b
            (.stay (.user ev cb ctx) (some (.hal call')))) = 12 := rfl
        have hpos : 1 ≤ b.weight := by cases b <;> simp [Block.weight]
        rw [hcont, htwelve]
        exact Nat.add_le_add_right hpos 11
  | none =>
      refine (resume_work_le hcase fun _ _ _ call hcont => ?_).trans (Nat.le_add_right _ _)
      cases b with
      | user e cb ctx =>
          cases hexec
          cases hcont
      | _ => cases hcase <;> cases hcont

section Runs

variable {τ : Type*} [DecidableEq τ]

/-- As long as no thread that holds `callback_mutex` changes a pin, every call in progress can go
on, or waits, directly or through other threads, for one that can. -/
theorem dispatch_always_moves {d : Device φ ν}
    {as : List (ThreadAction τ (Block φ ν) (Option UserCall))}
    (hquiet : ((dispatch φ ν).threads τ).Along ((dispatch φ ν).Respects QuietPins)
      (Config.idle d) as) :
    ((dispatch φ ν).threads τ).Throughout (fun _ s => (dispatch φ ν).Moves s) (Config.idle d) as :=
  dispatch_descends.always_moves dispatch_neverStuck dispatch_discipline hquiet

/-- One thread is inside the signal callback while another is about to raise a signal too. -/
def contended : List (ThreadAction Bool (Block Unit Unit) (Option UserCall)) :=
  List.flatten [[.call true (.hal (.digitalWrite 10 0))], List.replicate 5 (.advance true none),
    [.call false (.hal (.digitalWrite 8 0))], List.replicate 3 (.advance false none)]

/-- The second thread waits for the first, which can go on. -/
theorem contended_moves :
    ∃ s os, ((dispatch Unit Unit).threads Bool).run (Config.idle .signalled) contended =
        some (s, os) ∧ (dispatch Unit Unit).WaitsFor s false true ∧
      (dispatch Unit Unit).Moves s := by
  have hrun : ((dispatch Unit Unit).threads Bool).run (Config.idle .signalled) contended =
      some (_, _) := rfl
  exact ⟨_, _, hrun, ⟨.callback, rfl, rfl⟩,
    dispatch_always_moves (by decide) _ List.prefix_rfl _ _ hrun⟩

def beginsCall (t : τ) : ThreadAction τ (Block φ ν) (Option UserCall) → Bool
  | .call t' _ => t' = t
  | .advance t' c => t' = t ∧ c.isSome

theorem added_le (t : τ) (a : ThreadAction τ (Block φ ν) (Option UserCall)) :
    Program.added Block.weight callGain t a ≤ if beginsCall t a then 11 else 0 := by
  cases a with
  | call t' b =>
      have hweight : b.weight ≤ 8 := by cases b <;> simp [Block.weight]
      by_cases ht : t' = t <;> simp [Program.added, beginsCall, ht, hweight]
  | advance t' c =>
      by_cases ht : t' = t <;> cases c <;> simp [Program.added, beginsCall, callGain, ht]

/-- A thread that has begun `k` calls, those of the callbacks it runs included, has taken at most
`11 * k` steps, whatever the other threads did, and what its calls still have to do is within that
bound too. -/
theorem dispatch_work_bounded {d : Device φ ν} {s : Config (Device φ ν) Mutex (Block φ ν) τ}
    {as : List (ThreadAction τ (Block φ ν) (Option UserCall))}
    {os : List (ThreadEvent τ (DispatchEvent φ ν))}
    (hrun : ((dispatch φ ν).threads τ).run (Config.idle d) as = some (s, os)) (t : τ) :
    as.countP (Program.isOf t) + Program.work Block.weight (s.stack t) ≤
      11 * as.countP (beginsCall t) := by
  have hstep : ∀ s a s' o, ((dispatch φ ν).threads τ).step s a = some (s', o) →
      (if Program.isOf t a then 1 else 0) + Program.work Block.weight (s'.stack t) ≤
        Program.work Block.weight (s.stack t) + if beginsCall t a then 11 else 0 := fun _ a _ _ h =>
    (dispatch_pays.step t h).trans (Nat.add_le_add_left (added_le t a) _)
  have hpaid := Machine.countP_le (n := fun s => Program.work Block.weight (s.stack t)) hstep hrun
  have hidle : (Config.idle d : Config (Device φ ν) Mutex (Block φ ν) τ).stack t = [] := rfl
  rw [hidle, Program.work_nil] at hpaid
  omega

/-- Each of the two threads has begun one call and keeps within its eleven steps. -/
theorem contended_bounded :
    ∃ s os, ((dispatch Unit Unit).threads Bool).run (Config.idle .signalled) contended =
        some (s, os) ∧ ∀ t, contended.countP (Program.isOf t) +
          Program.work Block.weight (s.stack t) ≤ 11 := by
  have hrun : ((dispatch Unit Unit).threads Bool).run (Config.idle .signalled) contended =
      some (_, _) := rfl
  refine ⟨_, _, hrun, fun t => ?_⟩
  have hbound := dispatch_work_bounded hrun t
  cases t <;> exact hbound

end Runs

end ZiModem.Wrapper
