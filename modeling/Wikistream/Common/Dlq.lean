import Wikistream.Common.Models

/-!
# `Common.Dlq` — the envelope of a record sent to the dead letter topic
-/

namespace Wikistream
namespace Dlq

open Py Models

/-- One byte inside `repr(b)`, whose quote is `quote`. -/
def reprByte (quote : Chr) (b : UInt8) : Str :=
  let c : Chr := Fin.ofNat _ b.toNat
  if c = quote ∨ c = chr '\\' then [chr '\\', c]
  else if c = 0x09 then [chr '\\', chr 't']
  else if c = 0x0a then [chr '\\', chr 'n']
  else if c = 0x0d then [chr '\\', chr 'r']
  else if c.val < 0x20 ∨ 0x7f ≤ c.val then [chr '\\', chr 'x', hexChr (c.val / 16), hexChr (c.val % 16)]
  else [c]

/-- `repr(b)` for `bytes`: double quotes only around a text with single quotes and no double ones. -/
def reprBytes (b : Bytes) : Str :=
  let quote := if 0x27 ∈ b ∧ 0x22 ∉ b then chr '"' else chr '\''
  chr 'b' :: quote :: b.flatMap (reprByte quote) ++ [quote]

/-- `decode_payload`. -/
def decodePayload : Payload → Str
  | .none => []
  | .str s => s
  | .bytes b =>
      match utf8Decode b with
      | some s => s
      | .none => reprBytes b

/-- `dlq_record`, written at the wall clock time `failedAt`. -/
def dlqRecord (host : Host) (failedAt stage reason : Str) (payload : Payload) (source : Str)
    (position : Obj) : Except Exc Bytes :=
  let record := Json.obj [(lit "stage", .str stage), (lit "reason", .str reason),
    (lit "source", .str source), (lit "position", .obj position), (lit "failed_at", .str failedAt),
    (lit "payload", .str (decodePayload payload))]
  match utf8Encode (dumps host.floatRepr record) with
  | some b => .ok b
  | .none => .error .unicodeEncodeError

end Dlq
end Wikistream
