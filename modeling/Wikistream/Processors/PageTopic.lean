import Wikistream.Lib.Compacted
import Wikistream.Lib.Run
import Wikistream.Processors.PageState

/-!
# `Processors.PageTopic` — one partition of page state and its output

A page state process reads one partition of `wiki.clean` and writes the same partition of
`wiki.page-latest`, which Kafka compacts at the same time. The process holds the partition until it dies, or gives it up
between two batches, which is the same here; what `on_revoke` makes of a batch that is being collected is in
`Processors.PageGroup`.

## Contents
- **The state** (`Process`, `World`). A process has handled messages and produced records in a transaction
  that is still open; the topic holds what compaction has left of the committed records.
- **`step`**: a start rebuilds the guard from the topic and resumes at the committed offset; messages,
  commits and aborts; crashes; compaction.
- **What a step can be** (`Step`, `step_inv`).
-/

namespace Wikistream
namespace PageTopic

open Py Lib PageState

structure Process where
  guards : Guards
  /-- The offset of the next message. -/
  position : Nat
  /-- What the open transaction has produced. -/
  pending : List Produced := []

structure World where
  /-- The output partition, oldest record first. -/
  topic : List KafkaRecord := []
  /-- The committed offset of the input partition. -/
  committed : Nat := 0
  /-- All that committed transactions have produced, oldest first. -/
  published : List Produced := []
  process : Option Process := none

inductive Action
  /-- A process starts, or is assigned the partition again; the polls of `load_applied`. -/
  | start (polls : List LoadPoll)
  | handleNext
  /-- The transaction commits at the wall clock time `now`. -/
  | commit (now : Int)
  /-- The transaction is aborted; the rest of its batch is dropped with it. -/
  | abort (dropped : Nat)
  | crash
  /-- Compaction removes a record that has a newer one of its key. -/
  | supersede (i : Nat)
  /-- Compaction removes a tombstone that has aged out. -/
  | expire (i : Nat)
  deriving DecidableEq

/-- The record of the topic for one that was produced; without a timestamp it gets the time of sending. -/
def stored (now : Int) (out : Produced) : KafkaRecord where
  key := out.key
  value := out.value
  timestamp := if out.timestamp = 0 then now else out.timestamp

/-- The record at `i` is a tombstone. -/
def IsTombstone (topic : List KafkaRecord) (i : Nat) : Prop := (topic[i]?).map KafkaRecord.value = some none

instance (topic : List KafkaRecord) (i : Nat) : Decidable (IsTombstone topic i) :=
  inferInstanceAs (Decidable (_ = _))

/-- The process that has handled one more message. -/
def Process.handled (pr : Process) (r : Guards × List Produced) : Process where
  guards := r.1
  position := pr.position + 1
  pending := pr.pending ++ r.2

/-- A transaction commits: its records and the position are published together. -/
def World.publish (w : World) (pr : Process) (now : Int) : World where
  topic := w.topic ++ pr.pending.map (stored now)
  committed := pr.position
  published := w.published ++ pr.pending
  process := some { pr with pending := [] }

variable (host : Host) (p : Nat) (log : List KafkaRecord)

/-- One step of the partition. -/
def step (w : World) : Action → Option World
  | .start polls =>
      match w.process with
      | some _ => none
      | none =>
          match loadApplied host w.topic polls with
          | .ok applied =>
              some { w with process := some { guards := Dict.empty.set p applied, position := w.committed } }
          -- the process dies while it loads and is started again
          | .error _ => some w
  | .handleNext =>
      match w.process with
      | none => none
      | some pr =>
          match log[pr.position]? with
          | none => none
          | some r =>
              match handle host pr.guards ⟨p, pr.position, r⟩ with
              | .ok result => some { w with process := some (pr.handled result) }
              -- `handle` raises: the process exits with the transaction open
              | .error _ => some { w with process := none }
  | .commit now =>
      match w.process with
      | none => none
      | some pr => if 0 < now then some (w.publish pr now) else none
  | .abort dropped =>
      match w.process with
      | none => none
      | some pr =>
          some { w with process := some { pr with position := pr.position + dropped, pending := [] } }
  | .crash => some { w with process := none }
  | .supersede i => if Superseded KafkaRecord.key w.topic i then some { w with topic := w.topic.eraseIdx i } else none
  | .expire i => if IsTombstone w.topic i then some { w with topic := w.topic.eraseIdx i } else none

/-- The steps, one constructor for each way an action can succeed. -/
inductive Step (w : World) : Action → World → Prop
  | start {polls : List LoadPoll} {applied : Guard} (hnone : w.process = none)
      (hload : loadApplied host w.topic polls = .ok applied) :
      Step w (.start polls)
        { w with process := some { guards := Dict.empty.set p applied, position := w.committed } }
  | handle {pr : Process} {r : KafkaRecord} {result : Guards × List Produced} (hpr : w.process = some pr)
      (hr : log[pr.position]? = some r) (hhandle : handle host pr.guards ⟨p, pr.position, r⟩ = .ok result) :
      Step w .handleNext { w with process := some (pr.handled result) }
  | commit {pr : Process} {now : Int} (hpr : w.process = some pr) (hnow : 0 < now) :
      Step w (.commit now) (w.publish pr now)
  | abort {pr : Process} {dropped : Nat} (hpr : w.process = some pr) :
      Step w (.abort dropped)
        { w with process := some { pr with position := pr.position + dropped, pending := [] } }
  /-- A crash, or an exception out of `handle`. -/
  | die {a : Action} (ha : a = .crash ∨ a = .handleNext) : Step w a { w with process := none }
  /-- An exception out of `load_applied`. -/
  | stillborn {polls : List LoadPoll} (hnone : w.process = none) : Step w (.start polls) w
  | supersede {i : Nat} (hi : Superseded KafkaRecord.key w.topic i) :
      Step w (.supersede i) { w with topic := w.topic.eraseIdx i }
  | expire {i : Nat} (hi : IsTombstone w.topic i) : Step w (.expire i) { w with topic := w.topic.eraseIdx i }

variable {host p log}

theorem step_inv {w w' : World} {a : Action} (h : step host p log w a = some w') :
    Step host p log w a w' := by
  cases a with
  | start polls =>
      simp only [step] at h
      split at h
      · exact absurd h (by simp)
      · next hnone =>
          split at h
          · next applied hload => exact Option.some.inj h ▸ .start hnone hload
          · exact Option.some.inj h ▸ .stillborn hnone
  | handleNext =>
      simp only [step] at h
      split at h
      · exact absurd h (by simp)
      · next pr hpr =>
          split at h
          · exact absurd h (by simp)
          · next r hr =>
              split at h
              · next result hhandle => exact Option.some.inj h ▸ .handle hpr hr hhandle
              · exact Option.some.inj h ▸ .die (Or.inr rfl)
  | commit now =>
      simp only [step] at h
      split at h
      · exact absurd h (by simp)
      · next pr hpr =>
          split at h
          · next hnow => exact Option.some.inj h ▸ .commit hpr hnow
          · exact absurd h (by simp)
  | abort dropped =>
      simp only [step] at h
      split at h
      · exact absurd h (by simp)
      · next pr hpr => exact Option.some.inj h ▸ .abort hpr
  | crash => exact Option.some.inj h ▸ .die (Or.inl rfl)
  | supersede i =>
      simp only [step] at h
      split at h
      · next hi => exact Option.some.inj h ▸ .supersede hi
      · exact absurd h (by simp)
  | expire i =>
      simp only [step] at h
      split at h
      · next hi => exact Option.some.inj h ▸ .expire hi
      · exact absurd h (by simp)

end PageTopic
end Wikistream
