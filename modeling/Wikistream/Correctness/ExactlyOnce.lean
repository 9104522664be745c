import Wikistream.Correctness.NoSkip

/-!
# `Correctness.ExactlyOnce` — runs without an in-process abort

Without aborts nothing is left behind a cursor, so the coverage invariant needs no monitor.

## Contents
- **The condition** (`NoAbort`) and coverage under it (`covered_step`).
- **Messages are records** (`Genuine`): what an instance has in hand is what the log holds.
-/

namespace Wikistream
namespace Transactional

open Lib Topics

variable {σ ρ ο ω ε : Type}

/-- The action is not an abort. -/
def NoAbort : Action ω → Prop
  | .abort _ => False
  | _ => True

instance (a : Action ω) : Decidable (NoAbort a) :=
  match a with
  | .abort _ => isFalse id
  | .start .. | .assign .. | .revoke .. | .poll .. | .beginBatch .. | .handleNext .. | .commitBatch ..
  | .crash .. | .periodic .. => isTrue trivial

/-- Every record visible below a committed offset was handled in a committed transaction, and every record
    behind a cursor was handled or is in hand. -/
abbrev AllCovered (log : Log ρ) (g : Group σ ρ ο) : Prop := Covered log g (fun _ => [])

/-- What the instance has in hand is what the log holds. -/
def Genuine (log : Log ρ) (inst : Instance σ ρ ο) : Prop := ∀ m ∈ inst.inHand, Delivers log m

variable {P : Processor σ ρ ο ω ε} {log : Log ρ} {g g' : Group σ ρ ο} {inst : Instance σ ρ ο}

theorem watch_nil {a : Action ω} (ha : NoAbort a) : watch (fun _ => []) g a = fun _ => [] := by
  cases a with
  | start i => exact Function.update_eq_self i (fun _ : Nat => ([] : List (Nat × Nat)))
  | revoke i ps => exact Function.update_eq_self i (fun _ : Nat => ([] : List (Nat × Nat)))
  | abort i => exact absurd ha id
  | _ => rfl

theorem covered_step (h : AllCovered log g) {a : Action ω} (ha : NoAbort a) (hstep : Step P log g a g') :
    AllCovered log g' := by
  have hok : CommitsNothingLeft (g, fun _ => []) a := by
    unfold CommitsNothingLeft
    split
    · split <;> simp
    · trivial
  have := h.step hok hstep
  rwa [watch_nil ha] at this

theorem Genuine.collect (h : Genuine log inst) {m : Message ρ} (hm : Delivers log m) :
    Genuine log (inst.collect m) := by
  intro x hx
  have hhand : (inst.collect m).inHand = inst.inHand ++ [m] := by
    simp [Instance.inHand, Instance.collect]
  rw [hhand] at hx
  rcases List.mem_append.mp hx with hx | hx
  · exact h x hx
  · exact List.mem_singleton.mp hx ▸ hm

/-- Starting a batch and handling its messages keeps them in hand. -/
theorem Genuine.beginBatch (h : Genuine log inst) (htxn : inst.txn = none) :
    Genuine log inst.beginBatch := by
  intro x hx
  rw [inHand_beginBatch htxn] at hx
  exact h x hx

theorem Genuine.handled (h : Genuine log inst) {t : Txn ρ ο} {m : Message ρ} {todo : List (Message ρ)}
    {r : σ × List ο} (htxn : inst.txn = some t) (htodo : t.todo = m :: todo) :
    Genuine log (inst.handled t m todo r) := by
  intro x hx
  rw [inHand_handled htxn htodo] at hx
  exact h x hx

theorem Genuine.closeTxn (h : Genuine log inst) : Genuine log inst.closeTxn := by
  intro x hx
  apply h
  rw [Instance.inHand]
  have : x ∈ inst.batch := by simpa [Instance.inHand, Instance.closeTxn] using hx
  exact List.mem_append_right _ this

end Transactional
end Wikistream
