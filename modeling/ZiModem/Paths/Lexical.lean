import Mathlib.Data.List.Infix

/-! # Lexical normal forms of paths

A path is a list of parts, each going down to a name or up to the parent, read
either from the top of the hierarchy or from some directory. Its normal form
cancels every descent with the ascent that follows it: what is left climbs
first and descends afterwards. At the top there is nothing to climb.

Normal forms of relative paths compose, and where a path leads that is appended
to another one can be told from the two normal forms alone.
-/

namespace Lexical

variable {α : Type*}

inductive Part (α : Type*)
  | up
  | down (name : α)
  deriving DecidableEq, Repr

/-! ## Climbs -/

/-- So many steps up, then down along the names. -/
structure Climb (α : Type*) where
  ups : Nat
  names : List α
  deriving DecidableEq, Repr

namespace Climb

def here : Climb α := ⟨0, []⟩

/-- One more part; going up takes back the last name, if there is one. -/
def push (c : Climb α) : Part α → Climb α
  | .down name => ⟨c.ups, c.names ++ [name]⟩
  | .up => if c.names = [] then ⟨c.ups + 1, []⟩ else ⟨c.ups, c.names.dropLast⟩

/-- First `c`, then `d`: the ascent of `d` takes back as many names of `c` as there are. -/
def comp (c d : Climb α) : Climb α :=
  ⟨c.ups + (d.ups - c.names.length), c.names.take (c.names.length - d.ups) ++ d.names⟩

@[simp] theorem here_ups : (here : Climb α).ups = 0 := rfl

@[simp] theorem here_names : (here : Climb α).names = [] := rfl

@[simp] theorem comp_here (c : Climb α) : c.comp here = c := by
  simp [comp]

theorem comp_push (c d : Climb α) (p : Part α) : c.comp (d.push p) = (c.comp d).push p := by
  cases p with
  | down name => simp [comp, push]
  | up =>
      by_cases hd : d.names = []
      · simp only [push, comp, hd, if_true, List.append_nil]
        by_cases hlen : c.names.length ≤ d.ups
        · have hnone : c.names.length - d.ups = 0 := by omega
          have hnone' : c.names.length - (d.ups + 1) = 0 := by omega
          simp only [hnone, hnone', List.take_zero, if_true, mk.injEq, and_true]
          omega
        · have hkept : c.names.take (c.names.length - d.ups) ≠ [] := by
            rw [← List.length_pos_iff, List.length_take]
            omega
          simp only [if_neg hkept, mk.injEq]
          constructor
          · omega
          · rw [List.dropLast_eq_take, List.take_take, List.length_take]
            congr 1
            omega
      · have hcomp : c.names.take (c.names.length - d.ups) ++ d.names ≠ [] := by
          simp [hd]
        simp only [push, comp, hd, hcomp, if_false, mk.injEq, true_and]
        rw [List.dropLast_append_of_ne_nil hd]

end Climb

/-! ## Normal forms -/

def climb (ps : List (Part α)) : Climb α := ps.foldl Climb.push .here

theorem foldl_push (c : Climb α) (ps : List (Part α)) :
    ps.foldl Climb.push c = c.comp (climb ps) := by
  induction ps using List.reverseRecOn with
  | nil => simp [climb]
  | append_singleton ps p ih =>
      rw [List.foldl_append, ih]
      simp only [climb, List.foldl_append, List.foldl_cons, List.foldl_nil]
      exact (Climb.comp_push c _ p).symm

/-- Normal forms compose. -/
theorem climb_append (ps qs : List (Part α)) : climb (ps ++ qs) = (climb ps).comp (climb qs) := by
  rw [climb, List.foldl_append]
  exact foldl_push (climb ps) qs

theorem climb_ups_of_not_mem {ps : List (Part α)} (h : .up ∉ ps) : (climb ps).ups = 0 := by
  induction ps using List.reverseRecOn with
  | nil => rfl
  | append_singleton ps p ih =>
      rw [List.mem_append, not_or] at h
      cases p with
      | up => exact absurd (List.mem_singleton_self _) h.2
      | down name =>
          rw [climb, List.foldl_append]
          exact ih h.1

structure Path (α : Type*) where
  absolute : Bool
  parts : List (Part α)
  deriving DecidableEq, Repr

namespace Path

def normal (p : Path α) : Climb α :=
  if p.absolute then ⟨0, (climb p.parts).names⟩ else climb p.parts

def append (p : Path α) (qs : List (Part α)) : Path α := ⟨p.absolute, p.parts ++ qs⟩

/-- `q` names the directory `r` or something below it. -/
def Below (r q : Path α) : Prop :=
  q.absolute = r.absolute ∧ q.normal.ups = r.normal.ups ∧ r.normal.names <+: q.normal.names

instance [DecidableEq α] (r q : Path α) : Decidable (Below r q) :=
  inferInstanceAs (Decidable (_ ∧ _))

theorem append_names (r : Path α) (qs : List (Part α)) :
    (r.append qs).normal.names =
      r.normal.names.take (r.normal.names.length - (climb qs).ups) ++ (climb qs).names := by
  cases h : r.absolute <;> simp [normal, append, h, climb_append, Climb.comp]

theorem append_ups (r : Path α) (qs : List (Part α)) :
    (r.append qs).normal.ups =
      if r.absolute then 0 else r.normal.ups + ((climb qs).ups - r.normal.names.length) := by
  cases h : r.absolute <;> simp [normal, append, h, climb_append, Climb.comp]

/-- What is appended to `r` ends below `r` exactly when it comes down again through those names of
`r` that it went up past, and from a directory of unknown place only if it does not go up past
all of them. -/
theorem below_append_iff (r : Path α) (qs : List (Part α)) :
    Below r (r.append qs) ↔
      (r.absolute ∨ (climb qs).ups ≤ r.normal.names.length) ∧
        r.normal.names.drop (r.normal.names.length - (climb qs).ups) <+: (climb qs).names := by
  have hnames : r.normal.names <+: (r.append qs).normal.names ↔
      r.normal.names.drop (r.normal.names.length - (climb qs).ups) <+: (climb qs).names := by
    rw [append_names]
    conv_lhs =>
      lhs
      rw [← List.take_append_drop (r.normal.names.length - (climb qs).ups) r.normal.names]
    exact List.prefix_append_right_inj _
  have hups : (r.append qs).normal.ups = r.normal.ups ↔
      (r.absolute ∨ (climb qs).ups ≤ r.normal.names.length) := by
    rw [append_ups]
    cases h : r.absolute with
    | true => simp [normal, h]
    | false =>
        simp only [Bool.false_eq_true, if_false, false_or]
        omega
  rw [Below, hnames, hups]
  simp [append]

theorem below_append_of_ups {r : Path α} {qs : List (Part α)} (h : (climb qs).ups = 0) :
    Below r (r.append qs) := by
  rw [below_append_iff, h]
  simp

end Path

/-! ## Paths in text -/

section Text

variable [DecidableEq α] (sep dot : α)

/-- The part between two separators; nothing and a single dot lead nowhere. -/
def partOf (text : List α) : Option (Part (List α)) :=
  if text = [] ∨ text = [dot] then none
  else if text = [dot, dot] then some .up
  else some (.down text)

def parts (text : List α) : List (Part (List α)) := (text.splitOn sep).filterMap (partOf dot)

def parse (text : List α) : Path (List α) := ⟨text.head? = some sep, parts sep dot text⟩

@[simp] theorem parts_nil : parts sep dot [] = [] := by
  simp [parts, partOf]

end Text

end Lexical
