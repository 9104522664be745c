import Mathlib.Tactic.Common

/-!
# `Lib.Loop` — loops with no bound of their own

A round of a `while True` goes on with a state or leaves with a result. `loop` runs as many rounds as it has fuel
for; the loop ends if some fuel is enough.

## Contents
- **Loops.** `loop`, `Ends`.
- **The invariant rule** (`loop_induction`).
- **When a loop ends** (`ends_iff`), for one whose `n`th round leaves if `Leaves n`, and goes on otherwise.
-/

namespace Lib

variable {σ β : Type} {round : σ → σ ⊕ β} {I : σ → Prop} {s : σ}

/-- At most `fuel` rounds from `s`. -/
def loop (round : σ → σ ⊕ β) : Nat → σ → σ ⊕ β
  | 0, s => .inl s
  | fuel + 1, s =>
      match round s with
      | .inl s' => loop round fuel s'
      | .inr b => .inr b

/-- Some fuel is enough. -/
def Ends (round : σ → σ ⊕ β) (s : σ) : Prop := ∃ fuel b, loop round fuel s = .inr b

theorem loop_of_inl {s' : σ} (h : round s = .inl s') (fuel : Nat) :
    loop round (fuel + 1) s = loop round fuel s' := by
  rw [loop, h]

theorem loop_of_inr {b : β} (h : round s = .inr b) (fuel : Nat) : loop round (fuel + 1) s = .inr b := by
  rw [loop, h]

/-- **The invariant rule.** What a round keeps holds of every state the loop reaches, and `Q` of its result. -/
theorem loop_induction {Q : β → Prop} (hgo : ∀ s s', I s → round s = .inl s' → I s')
    (hleave : ∀ s b, I s → round s = .inr b → Q b) (hs : I s) (fuel : Nat) :
    (∀ s', loop round fuel s = .inl s' → I s') ∧ ∀ b, loop round fuel s = .inr b → Q b := by
  induction fuel generalizing s with
  | zero => exact ⟨fun s' h => Sum.inl.inj h ▸ hs, fun b h => absurd h (by simp [loop])⟩
  | succ fuel ih =>
      cases hround : round s with
      | inl s' =>
          rw [loop_of_inl hround]
          exact ih (hgo s s' hs hround)
      | inr b =>
          rw [loop_of_inr hround]
          exact ⟨fun s' h => absurd h (by simp), fun b' h => Sum.inr.inj h ▸ hleave s b hs hround⟩

/-- A loop whose every round goes on does not end. -/
theorem not_ends (hgo : ∀ s, I s → ∃ s', round s = .inl s' ∧ I s') (hs : I s) : ¬ Ends round s := by
  rintro ⟨fuel, b, h⟩
  refine (loop_induction (Q := fun _ => False) ?_ ?_ hs fuel).2 b h
  · intro s s' hs hround
    obtain ⟨s'', hround', hs''⟩ := hgo s hs
    exact Sum.inl.inj (hround'.symm.trans hround) ▸ hs''
  · intro s b hs hround
    obtain ⟨s'', hround', _⟩ := hgo s hs
    exact absurd (hround'.symm.trans hround) (by simp)

section Index

variable {index : σ → Nat} {Leaves : Nat → Prop}

theorem ends_of_leaves
    (hgo : ∀ s, I s → ¬ Leaves (index s) → ∃ s', round s = .inl s' ∧ I s' ∧ index s' = index s + 1)
    (hleave : ∀ s, I s → Leaves (index s) → ∃ b, round s = .inr b) (hs : I s) {n : Nat} (hn : index s ≤ n)
    (h : Leaves n) : Ends round s := by
  -- the rounds that are left until the one that leaves
  induction hk : n - index s generalizing s with
  | zero =>
      obtain rfl : n = index s := Nat.le_antisymm (Nat.le_of_sub_eq_zero hk) hn
      obtain ⟨b, hb⟩ := hleave s hs h
      exact ⟨1, b, loop_of_inr hb 0⟩
  | succ k ih =>
      by_cases hnow : Leaves (index s)
      · obtain ⟨b, hb⟩ := hleave s hs hnow
        exact ⟨1, b, loop_of_inr hb 0⟩
      · obtain ⟨s', hround, hs', hindex⟩ := hgo s hs hnow
        obtain ⟨fuel, b, hfuel⟩ := ih hs' (by omega) (by omega)
        exact ⟨fuel + 1, b, (loop_of_inl hround fuel).trans hfuel⟩

/-- **When the loop ends.** -/
theorem ends_iff
    (hgo : ∀ s, I s → ¬ Leaves (index s) → ∃ s', round s = .inl s' ∧ I s' ∧ index s' = index s + 1)
    (hleave : ∀ s, I s → Leaves (index s) → ∃ b, round s = .inr b) (hs : I s) :
    Ends round s ↔ ∃ n, index s ≤ n ∧ Leaves n := by
  constructor
  · intro hends
    by_contra hnever
    refine not_ends (I := fun s' => I s' ∧ index s ≤ index s') ?_ ⟨hs, Nat.le_refl _⟩ hends
    rintro s' ⟨hs', hle⟩
    obtain ⟨s'', hround, hs'', hindex⟩ := hgo s' hs' (fun h => hnever ⟨index s', hle, h⟩)
    exact ⟨s'', hround, hs'', hindex ▸ Nat.le_succ_of_le hle⟩
  · rintro ⟨n, hn, h⟩
    exact ends_of_leaves hgo hleave hs hn h

end Index

end Lib
