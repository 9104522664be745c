import Wikistream.Common.Offsets
import Wikistream.Processors.Transactional

/-!
# `Processors.Retention` — the shared loop beside retention

The instances of a group run the shared loop while Kafka deletes the oldest records of the partitions. A consumer whose
next offset is deleted goes on at the oldest record that is left, and `on_assign` reports the committed offsets that
fell behind.

## Contents
- **What Kafka still has** (`kept`): the log without the records that are deleted.
- **The state** (`World`): the group, the log starts, what was reported and what was deleted unread.
- **`step`**: a step of the group over what is kept, or one of retention. Batches, transactions and what a rebalance
  makes of them are the loop's own.
- **What a step can be** (`step_cases`).
-/

namespace Wikistream
namespace Retention

open Lib Offsets Transactional

variable {σ ρ ο ω ε : Type}

/-- What is left of the log. The first visible record from a deleted offset on is the oldest that is left, which is
    where `auto.offset.reset` moves a consumer. -/
def kept (log : Log ρ) (logStart : Nat → Nat) : Log ρ := fun p o => if logStart p ≤ o then log p o else none

structure World (σ ρ ο : Type) where
  group : Group σ ρ ο := {}
  /-- The offset of the oldest record that is still kept. -/
  logStart : Nat → Nat := fun _ => 0
  /-- The gaps that were reported. -/
  gaps : List RetentionGap := []
  /-- The offsets that were deleted while an instance still had them to read, with their partitions. -/
  overtaken : List (Nat × Nat) := []
  /-- Where a partition started when it was last assigned without a committed offset. -/
  began : Dict Nat Nat := Dict.empty

inductive Action (ω : Type)
  | loop (a : Transactional.Action ω)
  /-- Retention deletes the records of partition `p` before `o`. -/
  | expire (p o : Nat)

/-- The partitions without a committed offset are read from their log start. -/
def World.beginnings (w : World σ ρ ο) (ps : List Nat) : Dict Nat Nat :=
  (ps.filter (fun p => (w.group.committed.get? p).isNone)).foldl (fun began p => began.set p (w.logStart p)) w.began

/-- The group has moved on to `g`; `on_assign` has reported, whether or not what it calls next raises. -/
def World.after (w : World σ ρ ο) (g : Group σ ρ ο) : Transactional.Action ω → World σ ρ ο
  | .assign _ ps _ =>
      { w with
        group := g
        gaps := w.gaps ++ (reportRetentionGaps w.group.committed w.logStart ps).1
        began := w.beginnings ps }
  | _ => { w with group := g }

/-- What the instance can no longer read of partition `p` once the log starts at `o`. -/
def World.missedBy (w : World σ ρ ο) (p o : Nat) (inst : Instance σ ρ ο) : List (Nat × Nat) :=
  match inst.cursors.get? p with
  | none => []
  | some cur =>
      let start := max cur.fetch (w.logStart p)
      (List.range' start (o - start)).map (Prod.mk p)

def World.expire (w : World σ ρ ο) (p o : Nat) : World σ ρ ο :=
  { w with
    logStart := Function.update w.logStart p o
    overtaken := w.overtaken ++ w.group.instances.values.flatMap (w.missedBy p o) }

variable (P : Processor σ ρ ο ω ε) (log : Log ρ)

/-- One step. -/
def step (w : World σ ρ ο) : Action ω → Option (World σ ρ ο)
  | .loop a => (Transactional.step P (kept log w.logStart) w.group a).map (fun g => w.after g a)
  | .expire p o => if w.logStart p < o then some (w.expire p o) else none

variable {P log}

/-- A step is one of the loop, over what is kept, or retention moves on. -/
theorem step_cases {w w' : World σ ρ ο} {a : Action ω} (h : step P log w a = some w') :
    (∃ b g, a = .loop b ∧ Transactional.step P (kept log w.logStart) w.group b = some g ∧ w' = w.after g b) ∨
      ∃ p o, a = .expire p o ∧ w.logStart p < o ∧ w' = w.expire p o := by
  cases a with
  | loop b =>
      obtain ⟨g, hg, rfl⟩ := Option.map_eq_some_iff.mp h
      exact Or.inl ⟨b, g, rfl, hg, rfl⟩
  | expire p o =>
      simp only [step] at h
      split at h
      · next hlt => exact Or.inr ⟨p, o, rfl, hlt, (Option.some.inj h).symm⟩
      · exact absurd h (by simp)

/-! ## Reading the state -/

variable {w : World σ ρ ο} {p o : Nat}

theorem isSome_kept {logStart : Nat → Nat} :
    (kept log logStart p o).isSome = true ↔ logStart p ≤ o ∧ (log p o).isSome = true := by
  unfold kept
  split
  · next h => exact (and_iff_right h).symm
  · next h => exact ⟨fun hnone => absurd hnone (by simp), fun hle => absurd hle.1 h⟩

theorem get?_beginnings (w : World σ ρ ο) (ps : List Nat) (p : Nat) : (w.beginnings ps).get? p =
    if p ∈ ps ∧ w.group.committed.get? p = none then some (w.logStart p) else w.began.get? p := by
  have hfold : ∀ (qs : List Nat) (began : Dict Nat Nat), (qs.foldl (fun b q => b.set q (w.logStart q)) began).get? p =
      if p ∈ qs then some (w.logStart p) else began.get? p := by
    intro qs
    induction qs with
    | nil => exact fun began => rfl
    | cons q qs ih =>
        intro began
        rw [List.foldl_cons, ih, Dict.get?_set]
        by_cases hp : p ∈ qs
        · simp [hp]
        · by_cases hq : p = q
          · simp [hq]
          · simp [hp, hq]
  unfold World.beginnings
  rw [hfold]
  simp only [List.mem_filter, Option.isNone_iff_eq_none]

theorem mem_missed {n q : Nat} : (q, o) ∈ w.group.instances.values.flatMap (w.missedBy p n) ↔
    q = p ∧ ∃ i inst cur, w.group.instances.get? i = some inst ∧ inst.cursors.get? p = some cur ∧
      max cur.fetch (w.logStart p) ≤ o ∧ o < n := by
  rw [List.mem_flatMap]
  constructor
  · rintro ⟨inst, hinst, hmem⟩
    obtain ⟨i, hi⟩ := Dict.mem_values_iff.mp hinst
    unfold World.missedBy at hmem
    split at hmem
    · exact absurd hmem List.not_mem_nil
    · next cur hcur =>
        obtain ⟨x, hx, heq⟩ := List.mem_map.mp hmem
        obtain ⟨rfl, rfl⟩ := Prod.mk.inj heq
        obtain ⟨hlow, hlt⟩ := List.mem_range'_1.mp hx
        exact ⟨rfl, i, inst, cur, hi, hcur, hlow, by omega⟩
  · rintro ⟨rfl, i, inst, cur, hi, hcur, hlow, hlt⟩
    refine ⟨inst, Dict.mem_values_iff.mpr ⟨i, hi⟩, ?_⟩
    unfold World.missedBy
    rw [hcur]
    exact List.mem_map.mpr ⟨o, List.mem_range'_1.mpr ⟨hlow, by omega⟩, rfl⟩

end Retention
end Wikistream
