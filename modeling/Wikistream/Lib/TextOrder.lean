import Mathlib.Data.List.Lex
import Mathlib.Order.Lattice
import Mathlib.Tactic.Common

/-!
# `Lib.TextOrder` — texts made of fields, in dictionary order

Lists are compared element by element, and a proper prefix comes first. Two texts whose first fields have one length
are told apart by these fields, and by the rest only where the fields agree.

## Contents
- **Fields in front** (`append_lt_append_iff`), and a separator in front (`cons_lt_cons_same`).
-/

namespace Lib

variable {α : Type} [LinearOrder α] {a b s t : List α} {c : α}

theorem cons_lt_cons_same : c :: s < c :: t ↔ s < t := by
  rw [List.cons_lt_cons_iff]
  simp

/-- **Fields of one length** decide before what follows them. -/
theorem append_lt_append_iff (h : a.length = b.length) : a ++ s < b ++ t ↔ a < b ∨ a = b ∧ s < t := by
  induction a generalizing b with
  | nil =>
      obtain rfl := List.length_eq_zero_iff.mp h.symm
      simp
  | cons x a ih =>
      cases b with
      | nil => exact absurd h (by simp)
      | cons y b =>
          have hrest := ih (Nat.succ.inj h)
          simp only [List.cons_append, List.cons_lt_cons_iff, hrest, List.cons.injEq]
          tauto

end Lib
