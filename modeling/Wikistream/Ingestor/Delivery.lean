import Wikistream.Ingestor.Main
import Wikistream.Lib.Run
import Wikistream.Python.Str

/-!
# `Ingestor.Delivery` — sends and delivery callbacks

The part of the ingestor between its producer and its checkpoint, with the stream ids as the texts they are: a
message may come without one, and an empty one counts as none. Kafka calls back once for each message the producer
took, in any order.

## Contents
- **The checkpoint and the sender** (`Checkpoint`, `Sender`).
- **The two callers of the tracker**: `sent`, the end of a `_send` whose message the producer took, and
  `onDelivery`.
- **`step`**: sends and callbacks in any order.
-/

namespace Wikistream
namespace Ingestor
namespace Delivery

open Py

/-- `if stream_id:`. -/
def nonEmpty (streamId : Option Str) : Option Str := streamId.filter (fun id => id ≠ [])

structure Checkpoint where
  lastEventId : Option Str := none
  eventsConfirmed : Int := 0

/-- Record confirmed events in memory. -/
def Checkpoint.advance (c : Checkpoint) (eventId : Option Str) (count : Nat) : Checkpoint where
  lastEventId := (nonEmpty eventId).or c.lastEventId
  eventsConfirmed := c.eventsConfirmed + count

structure Sender where
  checkpoint : Checkpoint := {}
  tracker : DeliveryTracker Str := {}
  running : Bool := true
  /-- The first error a delivery failed with. -/
  failure : Option Str := none
  seq : Nat := 0
  unsaved : Nat := 0

/-- `_maybe_save`, with the checkpoint it saves; `timer` says whether the save interval is over. -/
def Sender.maybeSave (s : Sender) (timer : Bool) : Sender × Option Checkpoint :=
  if s.unsaved ≠ 0 ∧ (saveEvery ≤ s.unsaved ∨ timer) then ({ s with unsaved := 0 }, some s.checkpoint) else (s, none)

/-- `_on_delivery`, with the checkpoint it saves. -/
def Sender.onDelivery (s : Sender) (err : Option Str) (seq : Nat) (timer : Bool) : Sender × Option Checkpoint :=
  match err with
  | some e => ({ s with failure := s.failure.or (some e), running := false }, none)
  | none =>
      let r := s.tracker.confirm seq
      let s := { s with tracker := r.tracker }
      let s := if r.count = 0 then s else
        { s with
          checkpoint := s.checkpoint.advance r.released r.count
          unsaved := s.unsaved + r.count }
      s.maybeSave timer

/-- The end of `_send`, once the producer has taken the message. -/
def Sender.sent (s : Sender) (streamId : Option Str) : Sender :=
  { s with
    seq := s.seq + 1
    tracker := s.tracker.register (s.seq + 1) (nonEmpty streamId) }

/-- The sender, and the messages Kafka has not called back for. -/
structure World where
  sender : Sender := {}
  outstanding : Finset Nat := ∅

inductive Action
  | send (streamId : Option Str)
  | callback (seq : Nat) (err : Option Str) (timer : Bool)

/-- One send, or one callback for a message that is outstanding. -/
def step (w : World) : Action → Option World
  | .send streamId => some { sender := w.sender.sent streamId, outstanding := insert (w.sender.seq + 1) w.outstanding }
  | .callback seq err timer =>
      if seq ∈ w.outstanding then
        some { sender := (w.sender.onDelivery err seq timer).1, outstanding := w.outstanding.erase seq }
      else none

/-! ## What a callback does -/

variable {s : Sender}

theorem maybeSave_fst (timer : Bool) : (s.maybeSave timer).1.tracker = s.tracker ∧
    (s.maybeSave timer).1.checkpoint = s.checkpoint ∧ (s.maybeSave timer).1.seq = s.seq := by
  unfold Sender.maybeSave
  split
  · exact ⟨rfl, rfl, rfl⟩
  · exact ⟨rfl, rfl, rfl⟩

/-- Without a message there is no id to release. -/
theorem released_of_count_eq_zero {t : DeliveryTracker Str} {seq : Nat} (h : (t.confirm seq).count = 0) :
    (t.confirm seq).released = none := by
  obtain ⟨taken, _, _, hid, hcount, _⟩ := release_spec (insert seq t.confirmed) none 0 t.pending
  have htaken : taken = [] := by
    apply List.length_eq_zero_iff.mp
    have : (t.confirm seq).count = 0 + taken.length := hcount
    omega
  rw [htaken] at hid
  exact hid

/-- A confirmation hands what it releases to the checkpoint. -/
theorem onDelivery_none (seq : Nat) (timer : Bool) :
    (s.onDelivery none seq timer).1.tracker = (s.tracker.confirm seq).tracker ∧
      (s.onDelivery none seq timer).1.checkpoint.lastEventId =
        (nonEmpty (s.tracker.confirm seq).released).or s.checkpoint.lastEventId ∧
      (s.onDelivery none seq timer).1.checkpoint.eventsConfirmed =
        s.checkpoint.eventsConfirmed + (s.tracker.confirm seq).count ∧
      (s.onDelivery none seq timer).1.seq = s.seq := by
  unfold Sender.onDelivery
  dsimp only
  split
  · next hzero =>
      obtain ⟨htracker, hcheckpoint, hseq⟩ := @maybeSave_fst { s with tracker := (s.tracker.confirm seq).tracker } timer
      rw [htracker, hcheckpoint, hseq, hzero, released_of_count_eq_zero hzero]
      exact ⟨rfl, rfl, (Int.add_zero _).symm, rfl⟩
  · obtain ⟨htracker, hcheckpoint, hseq⟩ := @maybeSave_fst { s with
        tracker := (s.tracker.confirm seq).tracker
        checkpoint := s.checkpoint.advance (s.tracker.confirm seq).released (s.tracker.confirm seq).count
        unsaved := s.unsaved + (s.tracker.confirm seq).count } timer
    rw [htracker, hcheckpoint, hseq]
    exact ⟨rfl, rfl, rfl, rfl⟩

end Delivery
end Ingestor
end Wikistream
