import Wikistream.Processors.EditWarDetector
import Wikistream.Common.Records
import Wikistream.Sinks.PostgresSink

/-!
# `Sinks.AlertsSink` — what the two sinks decode and store

`PostgresSink` is parameterised by the way a record is decoded and by the insert. `storage` is the sink of wiki.clean,
with the defaults of the class, and `alertsStorage` that of wiki.alerts.
-/

namespace Wikistream
namespace PostgresSink

open Py Models Db EditWarDetector

/-- `write_batch` catches `ValueError`, `TypeError` and `KeyError`. -/
def isCaught (e : Exc) : Bool := e.isValueOrTypeError || decide (e = .keyError)

/-- What becomes of a record that is decoded by `read` and stored as `row`. -/
def decodeWith {α ν : Type} (read : Payload → Except Exc α) (row : α → ν) (r : KafkaRecord) : Decoded ν :=
  match read r.payload with
  | .ok x => .row (row x)
  | .error e => if isCaught e then .unreadable else .raises

theorem decodeWith_eq_row {α ν : Type} {read : Payload → Except Exc α} {row : α → ν} {r : KafkaRecord} {v : ν} :
    decodeWith read row r = .row v ↔ ∃ x, read r.payload = .ok x ∧ row x = v := by
  unfold decodeWith
  cases read r.payload with
  | ok x => simp
  | error e =>
      dsimp only
      split <;> simp

/-- `PostgresSink()`: `CleanEvent.from_json` and `insert_edits`. -/
def storage (host : Host) : Sink KafkaRecord (List SqlValue) (Option SqlValue) where
  decode := decodeWith (CleanEvent.fromJson host) (asRow host)
  rowId := List.head?

/-! ## Alerts -/

/-- A row of `alerts`, as `insert_alerts` writes it. -/
structure AlertRow where
  alertId : Str
  wiki : Str
  title : Str
  revertCount : Nat
  users : List Str
  windowStart : Str
  windowEnd : Str
  deriving DecidableEq

def alertRow (alert : EditWarAlert) : AlertRow where
  alertId := alert.alertId
  wiki := alert.wiki
  title := alert.title
  revertCount := alert.revertCount
  users := alert.users
  windowStart := alert.windowStart
  windowEnd := alert.windowEnd

/-- `alerts_sink.build()`: `EditWarAlert.from_json` and `insert_alerts`. -/
def alertsStorage (host : Host) : Sink KafkaRecord AlertRow Str where
  decode := decodeWith (EditWarAlert.fromJson host) alertRow
  rowId := AlertRow.alertId

end PostgresSink
end Wikistream
