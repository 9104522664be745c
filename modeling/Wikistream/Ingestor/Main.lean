import Wikistream.Ingestor.Tracker

/-!
# `Ingestor.Main` — the recent changes stream into Kafka, with a checkpoint

The events of the source are numbered, and a number stands for the event's id. A connection resumes after
the event the checkpoint names, and starts at the newest event without one. The messages an ingestor has
handed to its producer are outstanding until the delivery callback reports on them, in any order.

## Contents
- **The checkpoint** (`Checkpoint`, `advance`) and the state of a process (`Process`).
- **The delivery callback** (`onDelivery`): a confirmation may advance the checkpoint and save it; a
  failure stops the ingestor.
- **`step`**: connecting, receiving, sending, callbacks, connection losses, crashes and restarts.
-/

namespace Wikistream
namespace Ingestor

def saveEvery : Nat := 200

structure Checkpoint where
  lastEventId : Option Nat := none
  eventsConfirmed : Nat := 0
  deriving DecidableEq

/-- Record confirmed events in memory. -/
def Checkpoint.advance (c : Checkpoint) (eventId : Option Nat) (count : Nat) : Checkpoint where
  lastEventId := eventId.or c.lastEventId
  eventsConfirmed := c.eventsConfirmed + count

structure Process where
  checkpoint : Checkpoint
  tracker : DeliveryTracker Nat := {}
  running : Bool := true
  seq : Nat := 0
  unsaved : Nat := 0
  /-- Sequence number and event of the messages the producer holds. -/
  outstanding : List (Nat × Nat) := []
  /-- The event the connection yields next. -/
  connection : Option Nat := none
  /-- The event whose `_send` is waiting for the producer to take it. -/
  sending : Option Nat := none

structure World where
  /-- The saved checkpoint. -/
  file : Checkpoint := {}
  /-- The events Kafka holds, in `wiki.raw` or `wiki.dlq`. -/
  kafka : Finset Nat := ∅
  process : Option Process := none

inductive Action
  | start
  /-- Open a connection; `newest` is where it starts if the checkpoint is empty. -/
  | connect (newest : Nat)
  | receive
  /-- The producer takes the message `_send` was called with. -/
  | accept
  /-- `_send` gives up on a queue that stays full. -/
  | giveUp
  /-- Kafka stores a message; the callback may come later or never. -/
  | store (seq event : Nat)
  /-- The delivery callback; `timer` says whether the save interval is over. -/
  | confirm (seq event : Nat) (timer : Bool)
  | fail (seq event : Nat)
  /-- The stream ends, the connection is lost, or `produce` raises. -/
  | disconnect
  | stop
  /-- `shutdown`, after the last callbacks. -/
  | exit
  | crash
  deriving DecidableEq

/-- `resume_header` and the source's answer to it. -/
def resumeAt (checkpoint : Checkpoint) (newest : Nat) : Nat :=
  match checkpoint.lastEventId with
  | some e => e + 1
  | none => newest

/-- `_on_delivery` without an error: the process after it and the checkpoint it saved, if any. -/
def onDelivery (pr : Process) (seq : Nat) (timer : Bool) : Process × Option Checkpoint :=
  let r := pr.tracker.confirm seq
  let pr := { pr with tracker := r.tracker }
  let pr := if r.count = 0 then pr else
    { pr with
      checkpoint := pr.checkpoint.advance r.released r.count
      unsaved := pr.unsaved + r.count }
  let due := saveEvery ≤ pr.unsaved ∨ timer
  if pr.unsaved ≠ 0 ∧ due then ({ pr with unsaved := 0 }, some pr.checkpoint) else (pr, none)

/-- Drop one message from those the producer holds. -/
def Process.settle (pr : Process) (seq event : Nat) : Process :=
  { pr with outstanding := pr.outstanding.erase (seq, event) }

def World.put (w : World) (pr : Process) : World := { w with process := some pr }

variable (isError : Nat → Bool)

/-- `handle` up to the call of `_send`: an error event is only logged. -/
def Process.handle (pr : Process) (event : Nat) : Process :=
  if isError event then pr else { pr with sending := some event }

/-- One step of the ingestor and its surroundings. -/
def step (w : World) : Action → Option World
  | .start =>
      match w.process with
      | none => some { w with process := some { checkpoint := w.file } }
      | some _ => none
  | .connect newest =>
      match w.process with
      | some pr =>
          if pr.running ∧ pr.connection = none ∧ pr.sending = none then
            some (w.put { pr with connection := some (resumeAt pr.checkpoint newest) })
          else none
      | none => none
  | .receive =>
      match w.process with
      | some pr =>
          match pr.connection, pr.sending with
          | some next, none =>
              some (w.put (Process.handle isError { pr with connection := some (next + 1) } next))
          | _, _ => none
      | none => none
  | .accept =>
      match w.process with
      | some pr =>
          match pr.sending with
          | some event =>
              -- registered only now that `produce` has accepted the message
              some (w.put { pr with
                sending := none
                seq := pr.seq + 1
                outstanding := pr.outstanding ++ [(pr.seq + 1, event)]
                tracker := pr.tracker.register (pr.seq + 1) (some event) })
          | none => none
      | none => none
  | .giveUp =>
      match w.process with
      | some pr =>
          if pr.sending.isSome then
            some (w.put { pr with sending := none, connection := none, running := false })
          else none
      | none => none
  | .store seq event =>
      match w.process with
      | some pr =>
          if (seq, event) ∈ pr.outstanding then some { w with kafka := insert event w.kafka } else none
      | none => none
  | .confirm seq event timer =>
      match w.process with
      | some pr =>
          if (seq, event) ∈ pr.outstanding then
            let r := onDelivery (pr.settle seq event) seq timer
            some { file := r.2.getD w.file, kafka := insert event w.kafka, process := some r.1 }
          else none
      | none => none
  | .fail seq event =>
      match w.process with
      | some pr =>
          if (seq, event) ∈ pr.outstanding then
            -- never confirmed, so the checkpoint cannot move past this event
            some (w.put { pr.settle seq event with running := false })
          else none
      | none => none
  | .disconnect =>
      match w.process with
      | some pr =>
          if pr.connection.isSome then some (w.put { pr with connection := none, sending := none })
          else none
      | none => none
  | .stop =>
      match w.process with
      | some pr => some (w.put { pr with running := false })
      | none => none
  | .exit =>
      match w.process with
      | some pr =>
          if pr.running = false ∧ pr.sending = none then
            -- `shutdown` saves what was confirmed since the last save
            some { w with
              file := if pr.unsaved = 0 then w.file else pr.checkpoint
              process := none }
          else none
      | none => none
  | .crash =>
      match w.process with
      | some _ => some { w with process := none }
      | none => none

/-! ## What a callback does -/

/-- **One confirmation.** It releases a prefix of the pending messages, all of them confirmed, advances the
    checkpoint to the newest id among them, and saves either nothing or that checkpoint. -/
theorem onDelivery_spec (pr : Process) (seq : Nat) (timer : Bool) :
    ∃ taken, pr.tracker.pending = taken ++ (onDelivery pr seq timer).1.tracker.pending ∧
      (∀ x ∈ taken, x.1 ∈ insert seq pr.tracker.confirmed) ∧
      (onDelivery pr seq timer).1.tracker.confirmed ⊆ insert seq pr.tracker.confirmed ∧
      (onDelivery pr seq timer).1.checkpoint.lastEventId =
        (lastId taken).or pr.checkpoint.lastEventId ∧
      ((onDelivery pr seq timer).2 = none ∨
        (onDelivery pr seq timer).2 = some (onDelivery pr seq timer).1.checkpoint) ∧
      (onDelivery pr seq timer).1.seq = pr.seq ∧
      (onDelivery pr seq timer).1.connection = pr.connection ∧
      (onDelivery pr seq timer).1.sending = pr.sending ∧
      (onDelivery pr seq timer).1.outstanding = pr.outstanding := by
  obtain ⟨taken, hsplit, hmem, hid, hcount, hsub⟩ :=
    release_spec (insert seq pr.tracker.confirmed) none 0 pr.tracker.pending
  rw [Option.or_none] at hid
  refine ⟨taken, ?_⟩
  unfold onDelivery DeliveryTracker.confirm
  by_cases hzero : (release (insert seq pr.tracker.confirmed) none 0 pr.tracker.pending).count = 0
  · -- nothing was released, so there is no id either
    have htaken : taken = [] := by
      rw [hzero] at hcount
      exact List.length_eq_zero_iff.mp (by omega)
    have hnone : lastId taken = none := by rw [htaken]; rfl
    simp only [hzero, if_true]
    rw [hnone, Option.none_or]
    split
    · exact ⟨hsplit, hmem, hsub, rfl, Or.inr rfl, rfl, rfl, rfl, rfl⟩
    · exact ⟨hsplit, hmem, hsub, rfl, Or.inl rfl, rfl, rfl, rfl, rfl⟩
  · simp only [hzero, if_false]
    rw [← hid]
    split
    · exact ⟨hsplit, hmem, hsub, rfl, Or.inr rfl, rfl, rfl, rfl, rfl⟩
    · exact ⟨hsplit, hmem, hsub, rfl, Or.inl rfl, rfl, rfl, rfl, rfl⟩

end Ingestor
end Wikistream
