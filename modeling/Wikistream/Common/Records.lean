import Wikistream.Common.Models

/-!
# `Common.Records` — Kafka records as the processors read and write them
-/

namespace Wikistream

open Py Models

/-- The topics the processors write. -/
inductive Topic
  | clean
  | alerts
  | pageLatest
  | dlq
  deriving DecidableEq

/-- A record that is read. `timestamp` is that of `msg.timestamp()`, zero or negative when there is none. -/
structure KafkaRecord where
  key : Option Bytes := none
  value : Option Bytes
  timestamp : Int
  deriving DecidableEq

/-- A record handed to `producer.produce`; the timestamp 0 stands for the time of sending. -/
structure Produced where
  topic : Topic
  key : Option Bytes := none
  value : Option Bytes
  timestamp : Int := 0
  deriving DecidableEq

/-- `msg.value()`. -/
def KafkaRecord.payload (r : KafkaRecord) : Payload :=
  match r.value with
  | some b => .bytes b
  | none => .none

/-- `s.encode("utf-8")`. -/
def encodeText (s : Str) : Except Exc Bytes :=
  match utf8Encode s with
  | some b => .ok b
  | none => .error .unicodeEncodeError

theorem utf8Encode_of_encodeText {s : Str} {b : Bytes} (h : encodeText s = .ok b) : utf8Encode s = some b := by
  unfold encodeText at h
  split at h
  · next c hc => rw [hc, Except.ok.inj h]
  · exact absurd h (by simp)

theorem decode_encodeText {s : Str} {b : Bytes} (h : encodeText s = .ok b) : utf8Decode b = some s :=
  utf8Decode_encode (utf8Encode_of_encodeText h)

end Wikistream
