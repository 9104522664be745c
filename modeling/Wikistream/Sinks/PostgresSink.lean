import Wikistream.Common.Topics
import Wikistream.Sinks.Db

/-!
# `Sinks.PostgresSink` — rows first, offsets second

Several instances of one consumer group decode batches, write them to one table and commit the offsets. A
`Sink` is what the class is parameterised by; `step` is the transition system of the group.

A batch goes through three phases: it is collected, while rebalance callbacks may run; it is being
written, where every attempt may lose the connection before or after the database applied it; and it is
written, until the offsets are committed. A crash may come in any phase.
-/

namespace Wikistream
namespace PostgresSink

open Lib Topics Db

/-- What decoding a record comes to: a row, one of the exceptions `write_batch` catches, or another. -/
inductive Decoded (ν : Type)
  | row (r : ν)
  | unreadable
  | raises

structure Sink (ρ ν κ : Type) where
  decode : ρ → Decoded ν
  rowId : ν → κ
  batchSize : Nat := 500

/-- Where an instance is in its loop. -/
inductive Phase (ν : Type)
  | collecting
  | writing (rows : List ν)
  | written

structure Instance (ρ ν : Type) where
  cursors : Dict Nat Cursor := Dict.empty
  batch : List (Message ρ) := []
  phase : Phase ν := .collecting

structure Group (ρ ν : Type) where
  table : List ν := []
  committed : Dict Nat Nat := Dict.empty
  instances : Dict Nat (Instance ρ ν) := Dict.empty

variable {ρ ν κ : Type} (S : Sink ρ ν κ)

/-- The decoding loop of `write_batch`: `none` when something is raised that it does not catch. -/
def decodeBatch : List (Message ρ) → Option (List ν)
  | [] => some []
  | m :: batch =>
      match S.decode m.record with
      | .row r => (decodeBatch batch).map (r :: ·)
      | .unreadable => decodeBatch batch
      | .raises => none

inductive Action
  | start (i : Nat)
  | assign (i : Nat) (ps : List Nat)
  | revoke (i : Nat) (ps : List Nat)
  | poll (i p o : Nat)
  | decode (i : Nat)
  /-- The write succeeds. -/
  | write (i : Nat)
  /-- The connection is lost during the write, which is retried on a new one. -/
  | lose (i : Nat) (applied : Bool)
  | commit (i : Nat)
  | crash (i : Nat)
  deriving DecidableEq

def Group.put (g : Group ρ ν) (i : Nat) (inst : Instance ρ ν) : Group ρ ν :=
  { g with instances := g.instances.set i inst }

def Group.remove (g : Group ρ ν) (i : Nat) : Group ρ ν :=
  { g with instances := g.instances.erase i }

def Instance.collect (inst : Instance ρ ν) (m : Message ρ) : Instance ρ ν :=
  { inst with
    cursors := advance m.partition m.offset inst.cursors
    batch := inst.batch ++ [m] }

variable [DecidableEq κ] (log : Log ρ)

/-- One step of the group. -/
def step (g : Group ρ ν) : Action → Option (Group ρ ν)
  | .start i =>
      match g.instances.get? i with
      | none => some (g.put i {})
      | some _ => none
  | .assign i ps =>
      match g.instances.get? i with
      | some ⟨cursors, batch, .collecting⟩ =>
          some (g.put i ⟨takePartitions g.committed ps cursors, batch, .collecting⟩)
      | _ => none
  | .revoke i ps =>
      match g.instances.get? i with
      | some ⟨cursors, batch, .collecting⟩ =>
          some (g.put i ⟨releasePartitions ps cursors, batch, .collecting⟩)
      | _ => none
  | .poll i p o =>
      match g.instances.get? i with
      | some ⟨cursors, batch, .collecting⟩ =>
          match cursors.get? p, log p o with
          | some cur, some r =>
              if batch.length < S.batchSize ∧ NextVisible log p cur.fetch o then
                some (g.put i (Instance.collect ⟨cursors, batch, .collecting⟩ ⟨p, o, r⟩))
              else none
          | _, _ => none
      | _ => none
  | .decode i =>
      match g.instances.get? i with
      | some ⟨cursors, batch, .collecting⟩ =>
          if batch ≠ [] then
            match decodeBatch S batch with
            | some rows => some (g.put i ⟨cursors, batch, .writing rows⟩)
            -- an exception `write_batch` does not catch ends the process, before anything is written
            | none => some (g.remove i)
          else none
      | _ => none
  | .write i =>
      match g.instances.get? i with
      | some ⟨cursors, batch, .writing rows⟩ =>
          some { g.put i ⟨cursors, batch, .written⟩ with table := insertRows S.rowId g.table rows }
      | _ => none
  | .lose i applied =>
      match g.instances.get? i with
      -- the connection is lost before or after the server commits; the batch is still to be written
      | some ⟨_, _, .writing rows⟩ =>
          some { g with table := if applied then insertRows S.rowId g.table rows else g.table }
      | _ => none
  | .commit i =>
      match g.instances.get? i with
      | some ⟨cursors, _, .written⟩ =>
          some { g.put i ⟨cursors, [], .collecting⟩ with
            committed := g.committed.update (positions cursors) }
      | _ => none
  | .crash i =>
      match g.instances.get? i with
      | some _ => some (g.remove i)
      | none => none

end PostgresSink
end Wikistream
