import Wikistream.Sinks.Db

/-!
# `Processors.Trending` — write the windows, then commit the offsets they no longer need

What `Trending.flush` and `Trending.on_revoke` do with the windows: the rows for `trending_minutes`, the
offsets for Kafka, and the windows that stay.
-/

namespace Wikistream
namespace Trending

open Lib Windows Db

/-- What one flush hands to PostgreSQL and to Kafka, and the windows it leaves. -/
structure Flush where
  rows : List ClosedWindow
  offsets : Dict Nat Int
  windows : MinuteWindows

variable (cfg : Config)

/-- `flush`, as far as it gets when it returns. `as_row` raises for a minute past the year 9999, and a column refuses
    a text that holds a NUL: then nothing is written or committed, and the exception ends the process, which is a crash
    before the write. -/
def flush (m : MinuteWindows) (final : Bool) : Flush :=
  let popped := popClosed cfg m final
  { rows := popped.1
    offsets := commitOffsets popped.2
    windows := popped.2 }

/-- Write what we have, then forget: the new owner replays our commit. -/
def onRevoke (m : MinuteWindows) (partitions : List Nat) : Flush :=
  let flushed := flush cfg m true
  { flushed with windows := revoke flushed.windows partitions }

end Trending
end Wikistream
