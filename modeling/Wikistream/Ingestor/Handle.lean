import Wikistream.Common.Dlq
import Wikistream.Common.Records

/-!
# `Ingestor.Handle` — the bytes one stream event becomes

`Ingestor.Main` numbers the events and follows their delivery; here is what `handle` makes of the data of
one of them.
-/

namespace Wikistream
namespace Ingestor

open Py Models

/-- An event of the stream. -/
structure SSEEvent where
  event : Str := lit "message"
  data : Str
  eventId : Option Str

/-- A message that `_send` hands to the producer. -/
inductive Sent
  | raw (key value : Bytes)
  | dlq (value : Bytes)
  deriving DecidableEq

/-- The event as a document and its id. -/
def readEvent (host : Host) (data : Str) : Except Exc (Obj × Str) := do
  let raw ← parseRaw host (.str data)
  let key ← eventIdOf raw
  return (raw, key)

/-- The message for `wiki.raw`; `_send` encodes the key first. -/
def rawMessage (host : Host) (raw : Obj) (key : Str) : Except Exc Sent := do
  let key ← encodeText key
  let value ← encodeText (dumps host.floatRepr (.obj raw))
  return .raw key value

/-- The message for `wiki.dlq`. `_send` encodes what `handle` has just decoded. -/
def dlqMessage (host : Host) (url failedAt reason : Str) (event : SSEEvent) : Except Exc Sent := do
  let record ← Dlq.dlqRecord host failedAt (lit "ingestor") reason (.str event.data) url
    [(lit "stream_id", CleanEvent.strOrNull event.eventId)]
  match utf8Decode record with
  | some text => (encodeText text).map Sent.dlq
  | none => .error .valueError

/-- `handle`: what is sent, if anything. -/
def handle (host : Host) (url failedAt : Str) (event : SSEEvent) : Except Exc (Option Sent) :=
  if event.event = lit "error" then .ok none
  else
    match readEvent host event.data with
    | .ok (raw, key) => (rawMessage host raw key).map some
    | .error (.parseError reason) => (dlqMessage host url failedAt reason event).map some
    -- what is not a `ParseError` leaves `handle`
    | .error e => .error e

end Ingestor
end Wikistream
