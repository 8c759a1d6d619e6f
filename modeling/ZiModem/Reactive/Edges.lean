import Mathlib.Data.List.Destutter
import Mathlib.Data.Option.Basic

/-! # Edge-triggered cells

A cell raises an event whenever it is set to a value that it does not hold. So
the events are the values it is set to without immediate repeats, and the last
of them is what the cell holds.
-/

namespace Reactive

variable {α : Type*} [DecidableEq α]

/-- The events of a cell that holds `a` at first and is set to `bs` one after another. -/
def edges (a : α) : List α → List α
  | [] => []
  | b :: bs => if a = b then edges a bs else b :: edges b bs

@[simp] theorem edges_nil (a : α) : edges a [] = [] := rfl

theorem edges_snoc (a : α) (bs : List α) (b : α) :
    edges a (bs ++ [b]) = edges a bs ++ if bs.getLastD a = b then [] else [b] := by
  induction bs generalizing a with
  | nil => rfl
  | cons c bs ih =>
      rw [List.cons_append, List.getLastD_cons]
      by_cases hc : a = c
      · rw [edges, if_pos hc, ih, edges, if_pos hc, hc]
      · rw [edges, if_neg hc, ih, edges, if_neg hc, List.cons_append]

theorem getLastD_edges (a : α) (bs : List α) : (edges a bs).getLastD a = bs.getLastD a := by
  induction bs generalizing a with
  | nil => rfl
  | cons b bs ih =>
      rw [List.getLastD_cons]
      by_cases hb : a = b
      · rw [edges, if_pos hb, ih, hb]
      · rw [edges, if_neg hb, List.getLastD_cons, ih]

theorem cons_edges (a : α) (bs : List α) : a :: edges a bs = (a :: bs).destutter (· ≠ ·) := by
  rw [List.destutter_cons']
  induction bs generalizing a with
  | nil => rfl
  | cons b bs ih =>
      by_cases hb : a = b
      · rw [edges, if_pos hb, List.destutter'_cons_neg _ (not_not.mpr hb)]
        exact ih a
      · rw [edges, if_neg hb, List.destutter'_cons_pos _ hb]
        exact congrArg (a :: ·) (ih b)

theorem edges_none (bs : List α) :
    edges none (bs.map some) = (bs.destutter (· ≠ ·)).map some := by
  cases bs with
  | nil => rfl
  | cons b bs =>
      rw [List.map_cons, edges, if_neg (Option.some_ne_none b).symm, cons_edges, ← List.map_cons]
      exact (List.map_destutter_ne _ (Option.some_injective α)).symm

/-- A cell that held `init` has been set to `sets`, raised `raised` and holds `now`. -/
structure Tracks (init : α) (sets raised : List α) (now : α) : Prop where
  raised_eq : raised = edges init sets
  now_eq : now = sets.getLastD init

namespace Tracks

variable {init now : α} {sets raised : List α}

theorem start (init : α) : Tracks init [] [] init := ⟨rfl, rfl⟩

theorem set (h : Tracks init sets raised now) (b : α) :
    Tracks init (sets ++ [b]) (raised ++ if now = b then [] else [b]) b where
  raised_eq := by rw [edges_snoc, ← h.raised_eq, ← h.now_eq]
  now_eq := List.getLastD_concat.symm

theorem getLastD_raised (h : Tracks init sets raised now) : raised.getLastD init = now := by
  rw [h.raised_eq, h.now_eq, getLastD_edges]

end Tracks

end Reactive
