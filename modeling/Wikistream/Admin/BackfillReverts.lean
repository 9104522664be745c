import Wikistream.Common.Models
import Wikistream.Lib.Dict
import Wikistream.Lib.Run

/-!
# `Admin.BackfillReverts` — filling in `is_revert` for rows from before the column existed

`main` selects a batch of rows that are still `NULL`, computes their values and updates them, in one transaction for
each batch, until there are none. It can be stopped and run again at any time, and beside it the sink inserts rows.

## Contents
- **Rows** (`StoredEdit`, `nulls`) and the two statements (`Selects`, `updateBatch`).
- **Any number of backfills** (`Job`, `World`, `step`) beside the sink.
- **What a step can be** (`Step`, `step_inv`).
-/

namespace Wikistream
namespace BackfillReverts

open Py Lib Models

/-- A row of `edits`, by the event it was stored for. -/
structure StoredEdit where
  event : CleanEvent
  isRevert : Option Bool
  deriving DecidableEq

abbrev Edits := Dict Str StoredEdit

/-- `BATCH`. -/
def batch : Nat := 5000

/-- The ids of the rows with `is_revert IS NULL`. -/
def nulls (edits : Edits) : List Str := (edits.filter (fun _ row => row.isRevert.isNone)).keys

/-- `SELECT_BATCH` may answer with these rows: it has no order. -/
def Selects (edits : Edits) (ids : List Str) : Prop :=
  ids.Nodup ∧ (∀ id ∈ ids, id ∈ nulls edits) ∧ ids.length = min batch (nulls edits).length

instance (edits : Edits) (ids : List Str) : Decidable (Selects edits ids) := inferInstanceAs (Decidable (_ ∧ _ ∧ _))

/-- `kind == "edit" and is_revert_comment(comment)`. -/
def revertFlag (host : Host) (type comment : Str) : Bool := type == lit "edit" && host.isRevertComment comment

/-- The values for the rows of a batch. -/
def valuesOf (host : Host) (edits : Edits) (ids : List Str) : List (Str × Bool) :=
  ids.filterMap (fun id =>
    (edits.get? id).map (fun row => (id, revertFlag host row.event.type row.event.comment)))

/-- `UPDATE_BATCH`, one row. -/
def updateRow (edits : Edits) (value : Str × Bool) : Edits :=
  match edits.get? value.1 with
  | some row => edits.set value.1 { row with isRevert := some value.2 }
  | none => edits

def updateBatch (edits : Edits) (values : List (Str × Bool)) : Edits := values.foldl updateRow edits

/-- A run of `main`. -/
structure Job where
  /-- The values of the transaction that is open. -/
  pending : Option (List (Str × Bool)) := none
  updated : Nat := 0
  reverts : Nat := 0
  /-- The sizes of its updates, oldest first. -/
  sizes : List Nat := []
  /-- The loop has ended. -/
  finished : Bool := false

structure World where
  edits : Edits
  jobs : Dict Nat Job := Dict.empty

inductive Action
  | start (i : Nat)
  | select (i : Nat) (ids : List Str)
  | update (i : Nat)
  /-- The process of job `i` is stopped before its end; its transaction is rolled back. -/
  | stop (i : Nat)
  /-- The sink stores an event. -/
  | insert (event : CleanEvent)
  deriving DecidableEq

/-- The job after its transaction with `values` has committed. -/
def Job.advance (job : Job) (values : List (Str × Bool)) : Job :=
  { job with
    pending := none
    updated := job.updated + values.length
    sizes := job.sizes ++ [values.length]
    reverts := job.reverts + (values.filter Prod.snd).length }

variable (host : Host)

/-- What the rows that were selected mean for the job: values to write, or the end. -/
def Job.select (job : Job) (edits : Edits) (ids : List Str) : Job :=
  match ids with
  | [] => { job with finished := true }
  | id :: ids => { job with pending := some (valuesOf host edits (id :: ids)) }

/-- `INSERT … ON CONFLICT DO NOTHING` of one event. -/
def insertEdit (edits : Edits) (event : CleanEvent) : Edits :=
  edits.setDefault event.eventId { event := event, isRevert := some (event.isRevert host) }

/-- One step. -/
def step (w : World) : Action → Option World
  | .start i =>
      match w.jobs.get? i with
      | some _ => none
      | none => some { w with jobs := w.jobs.set i {} }
  | .select i ids =>
      match w.jobs.get? i with
      | none => none
      | some job =>
          if job.pending.isNone ∧ job.finished = false ∧ Selects w.edits ids then
            some { w with jobs := w.jobs.set i (job.select host w.edits ids) }
          else none
  | .update i =>
      match w.jobs.get? i with
      | none => none
      | some job =>
          match job.pending with
          | none => none
          | some values =>
              some { edits := updateBatch w.edits values, jobs := w.jobs.set i (job.advance values) }
  | .stop i =>
      match w.jobs.get? i with
      | none => none
      | some job => if job.finished = false then some { w with jobs := w.jobs.erase i } else none
  | .insert event => some { w with edits := insertEdit host w.edits event }

/-- The steps, one constructor for each way an action can succeed. -/
inductive Step (w : World) : Action → World → Prop
  | start {i : Nat} (hnone : w.jobs.get? i = none) : Step w (.start i) { w with jobs := w.jobs.set i {} }
  | select {i : Nat} {ids : List Str} {job : Job} (hjob : w.jobs.get? i = some job) (hopen : job.finished = false)
      (hnone : job.pending = none) (hids : Selects w.edits ids) :
      Step w (.select i ids) { w with jobs := w.jobs.set i (job.select host w.edits ids) }
  | update {i : Nat} {job : Job} {values : List (Str × Bool)} (hjob : w.jobs.get? i = some job)
      (hpending : job.pending = some values) :
      Step w (.update i) { edits := updateBatch w.edits values, jobs := w.jobs.set i (job.advance values) }
  | stop {i : Nat} {job : Job} (hjob : w.jobs.get? i = some job) (hopen : job.finished = false) :
      Step w (.stop i) { w with jobs := w.jobs.erase i }
  | insert {event : CleanEvent} : Step w (.insert event) { w with edits := insertEdit host w.edits event }

variable {host}

theorem step_inv {w w' : World} {a : Action} (h : step host w a = some w') : Step host w a w' := by
  cases a with
  | start i =>
      simp only [step] at h
      split at h
      · exact absurd h (by simp)
      · next hnone => exact Option.some.inj h ▸ .start hnone
  | select i ids =>
      simp only [step] at h
      split at h
      · exact absurd h (by simp)
      · next hjob =>
          split at h
          · next hc =>
              exact Option.some.inj h ▸ .select hjob hc.2.1 (Option.isNone_iff_eq_none.mp hc.1) hc.2.2
          · exact absurd h (by simp)
  | update i =>
      simp only [step] at h
      split at h
      · exact absurd h (by simp)
      · next hjob =>
          split at h
          · exact absurd h (by simp)
          · next hpending => exact Option.some.inj h ▸ .update hjob hpending
  | stop i =>
      simp only [step] at h
      split at h
      · exact absurd h (by simp)
      · next hjob =>
          split at h
          · next hopen => exact Option.some.inj h ▸ .stop hjob hopen
          · exact absurd h (by simp)
  | insert event => exact Option.some.inj h ▸ .insert

end BackfillReverts
end Wikistream
