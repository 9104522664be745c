import Mathlib.Algebra.GroupWithZero.Nat
import Mathlib.Algebra.Order.BigOperators.Group.List
import Mathlib.Algebra.Order.Group.Nat
import Mathlib.Tactic.Common

/-!
# `Lib.Strikes` — acting on the same sight several times in a row

A monitor counts how often in a row it has seen something, acts when the count reaches a limit, and starts over. What
it has done after a list of sights is one act for each `limit` of them in a row.

## Contents
- **The counter** (`Strikes`, `Strikes.see`).
- **What it has done** (`foldl_see`): a sum over the runs between sights that were clear.
-/

namespace Lib

structure Strikes where
  count : Nat := 0
  acts : Nat := 0
  deriving DecidableEq

/-- One more sight. -/
def Strikes.see (limit : Nat) (s : Strikes) (seen : Bool) : Strikes :=
  if seen then
    if s.count + 1 < limit then { s with count := s.count + 1 } else { count := 0, acts := s.acts + 1 }
  else { s with count := 0 }

/-- How many sights there are in each run. -/
def runs (sights : List Bool) : List Nat := (sights.splitOn false).map List.length

/-- The acts due after runs of these lengths, the first of which is `count` longer. -/
def due (limit count : Nat) : List Nat → Nat
  | [] => 0
  | n :: ns => (count + n) / limit + (ns.map (· / limit)).sum

theorem runs_clear (sights : List Bool) : runs (false :: sights) = 0 :: runs sights := by
  unfold runs List.splitOn
  rw [List.splitOnP_cons_eq_if_modifyHead]
  rfl

theorem runs_seen (sights : List Bool) : runs (true :: sights) = (runs sights).modifyHead (· + 1) := by
  unfold runs List.splitOn
  rw [List.splitOnP_cons_eq_if_modifyHead]
  cases h : sights.splitOnP (· == false) with
  | nil => exact absurd h (List.splitOnP_ne_nil _ _)
  | cons r rs => rfl

theorem due_seen (limit count : Nat) (ns : List Nat) :
    due limit count (ns.modifyHead (· + 1)) = due limit (count + 1) ns := by
  cases ns with
  | nil => rfl
  | cons n ns =>
      show (count + (n + 1)) / limit + _ = (count + 1 + n) / limit + _
      rw [Nat.add_right_comm, Nat.add_assoc]

theorem due_zero (limit : Nat) (ns : List Nat) : due limit 0 ns = (ns.map (· / limit)).sum := by
  cases ns with
  | nil => rfl
  | cons n ns =>
      show (0 + n) / limit + _ = _
      rw [Nat.zero_add, List.map_cons, List.sum_cons]

/-- A run that is full counts for one act. -/
theorem due_full {limit : Nat} (hlimit : 0 < limit) {ns : List Nat} (hns : ns ≠ []) :
    due limit limit ns = due limit 0 ns + 1 := by
  cases ns with
  | nil => exact absurd rfl hns
  | cons n ns =>
      show (limit + n) / limit + _ = (0 + n) / limit + _ + 1
      rw [Nat.add_div_left _ hlimit, Nat.zero_add]
      omega

theorem foldl_see_due {limit : Nat} (hlimit : 0 < limit) (sights : List Bool) (s : Strikes) (hs : s.count < limit) :
    (sights.foldl (Strikes.see limit) s).acts = s.acts + due limit s.count (runs sights) := by
  induction sights generalizing s with
  | nil =>
      show s.acts = s.acts + ((s.count + 0) / limit + 0)
      rw [Nat.add_zero, Nat.add_zero, Nat.div_eq_of_lt hs, Nat.add_zero]
  | cons seen sights ih =>
      rw [List.foldl_cons]
      cases seen with
      | false =>
          rw [ih (s.see limit false) hlimit, runs_clear]
          show s.acts + due limit 0 (runs sights) = s.acts + ((s.count + 0) / limit + _)
          rw [Nat.add_zero, Nat.div_eq_of_lt hs, Nat.zero_add, due_zero]
      | true =>
          rw [runs_seen, due_seen]
          rcases Nat.lt_or_ge (s.count + 1) limit with hlt | hge
          · have hsee : s.see limit true = { s with count := s.count + 1 } := by
              unfold Strikes.see
              rw [if_pos rfl, if_pos hlt]
            rw [hsee, ih _ hlt]
          · -- the run is full: the monitor acts, and counts from zero
            have hsee : s.see limit true = { count := 0, acts := s.acts + 1 } := by
              unfold Strikes.see
              rw [if_pos rfl, if_neg (by omega)]
            have hfull : s.count + 1 = limit := by omega
            have hne : runs sights ≠ [] := by
              unfold runs
              rw [Ne, List.map_eq_nil_iff]
              exact List.splitOnP_ne_nil _ _
            rw [hsee, ih _ hlimit, hfull, due_full hlimit hne, Nat.add_right_comm, ← Nat.add_assoc]

/-- **One act for each `limit` sights in a row.** -/
theorem foldl_see {limit : Nat} (hlimit : 0 < limit) (sights : List Bool) :
    (sights.foldl (Strikes.see limit) {}).acts = ((runs sights).map (· / limit)).sum := by
  rw [foldl_see_due hlimit sights {} hlimit, due_zero]
  exact Nat.zero_add _

end Lib
