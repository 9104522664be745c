import Wikistream.Common.Dlq
import Wikistream.Processors.Dedup

/-!
# `Processors.Transform` — one raw message becomes one outcome

## Contents
- **Outcomes.** `Outcome`, and the envelope a rejected message is wrapped in.
- **`transform`.** `attempt` is the body of its `try`, so only a `ParseError` out of it becomes an outcome.
- **`Quiet`**: a computation that raises nothing but `ParseError`, with a rule for each way of combining.
-/

namespace Wikistream
namespace Transform

open Py Models Dedup

inductive Outcome
  | clean (event : CleanEvent)
  | duplicate (eventId : Str)
  | rejected (reason : Str) (payload : Bytes)
  | skipped (reason : Str)

/-- `Rejected.envelope`. -/
def envelope (host : Host) (failedAt reason : Str) (payload : Bytes) (sourceTopic : Str)
    (partition offset : Nat) : Except Exc Bytes :=
  Dlq.dlqRecord host failedAt (lit "cleaner") reason (.bytes payload) sourceTopic
    [(lit "partition", .int partition), (lit "offset", .int offset)]

/-- `event_time_ms`: the event's own time, or the fallback where reading it raises `ValueError` or
    `TypeError`. -/
def eventTimeMs (host : Host) (event : CleanEvent) (fallbackMs : Option Int) : Except Exc Int :=
  match epochMs host.zone event.eventTime with
  | .ok ms => .ok ms
  | .error e => if e.isValueOrTypeError then .ok (fallbackMs.getD 0) else .error e

/-- The body of the `try` in `transform`: the event, or nothing for a canary. -/
def attempt (host : Host) (payload : Payload) : Except Exc (Option CleanEvent) := do
  let raw ← parseRaw host payload
  if isCanary raw then return .none
  else
    let event ← cleanEvent host raw
    return some event

/-- `payload if isinstance(payload, bytes) else b""`. -/
def payloadBytes : Payload → Bytes
  | .bytes b => b
  | _ => []

/-- The end of `transform`, once the event and its time are known. -/
def deduplicate (event : CleanEvent) (answer : Bool × DedupCache) : Outcome × DedupCache :=
  (if answer.1 then .clean event else .duplicate event.eventId, answer.2)

/-- `transform`, with the cache it leaves behind. -/
def transform (host : Host) (payload : Payload) (cache : DedupCache) (messageTimeMs : Option Int) :
    Except Exc (Outcome × DedupCache) :=
  match attempt host payload with
  | .error (.parseError reason) => .ok (.rejected reason (payloadBytes payload), cache)
  | .error e => .error e
  | .ok .none => .ok (.skipped (lit "canary"), cache)
  | .ok (some event) =>
      match eventTimeMs host event messageTimeMs with
      | .error e => .error e
      | .ok timestamp => .ok (deduplicate event (cache.isNew event.eventId timestamp))

/-! ## Computations that raise nothing but `ParseError` -/

def Quiet {α : Type} (x : Except Exc α) : Prop := ∀ e, x = .error e → e.isParseError = true

section Quiet

variable {α β : Type}

@[simp] theorem quiet_ok (a : α) : Quiet (.ok a : Except Exc α) := fun _ h => absurd h (by simp)

@[simp] theorem quiet_pure (a : α) : Quiet (pure a : Except Exc α) := quiet_ok a

@[simp] theorem quiet_error (e : Exc) : Quiet (.error e : Except Exc α) ↔ e.isParseError = true :=
  ⟨fun h => h e rfl, fun h _ he => by cases he; exact h⟩

@[simp] theorem quiet_parseError (message : Str) : Quiet (parseError message : Except Exc α) := by
  rw [parseError, quiet_error]
  rfl

/-- A sequence is quiet when its first part is, and its second wherever it is reached. -/
theorem quiet_bind {x : Except Exc α} {f : α → Except Exc β} :
    Quiet (x >>= f) ↔ Quiet x ∧ ∀ a, x = .ok a → Quiet (f a) := by
  cases x with
  | error e =>
      change Quiet (.error e) ↔ _
      simp
  | ok a =>
      change Quiet (f a) ↔ _
      simp

/-- The rule for a second part that is quiet or not whatever the first returned. -/
theorem quiet_bind_exists {x : Except Exc α} {f : α → Except Exc β} {q : Prop}
    (hf : ∀ a, Quiet (f a) ↔ q) : Quiet (x >>= f) ↔ Quiet x ∧ ((∃ a, x = .ok a) → q) := by
  rw [quiet_bind]
  refine and_congr_right (fun _ => ⟨?_, fun h a ha => (hf a).mpr (h ⟨a, ha⟩)⟩)
  rintro h ⟨a, ha⟩
  exact (hf a).mp (h a ha)

end Quiet

end Transform
end Wikistream
