import Mathlib.Data.List.Infix
import Wikistream.Lib.NewestFirst
import Wikistream.Processors.PageState
import Wikistream.Python.TimeOrder

/-!
# `Web.Pages` — the dashboard's table of pages

The page store reads wiki.page-latest from the beginning and keeps following it, one record after the other: Kafka
used as a table. A search goes through the pages in memory.
-/

namespace Wikistream
namespace Pages

open Py Lib PageState

structure PageStore where
  pages : Dict Str PageLatest := Dict.empty
  recordsRead : Nat := 0
  tombstones : Nat := 0

/-- `apply`: an unreadable value leaves the page as it is; a key that is not UTF-8 raises. -/
def PageStore.apply (host : Host) (s : PageStore) (key value : Option Bytes) : Except Exc PageStore :=
  match key with
  | none => .ok s
  | some k =>
      match utf8Decode k with
      | none => .error .valueError
      | some pageKey =>
          match value with
          | none =>
              .ok {
                pages := s.pages.erase pageKey
                recordsRead := s.recordsRead + 1
                tombstones := s.tombstones + 1 }
          | some b =>
              match PageLatest.fromJson host (.bytes b) with
              | .ok page => .ok { s with pages := s.pages.set pageKey page, recordsRead := s.recordsRead + 1 }
              | .error e => if isUnreadable e then .ok { s with recordsRead := s.recordsRead + 1 } else .error e

/-- The records `_follow` hands to `apply`, as they come in. -/
def follow (host : Host) (feed : List KafkaRecord) : Except Exc PageStore :=
  feed.foldlM (fun s r => s.apply host r.key r.value) {}

/-- The condition of the comprehension in `search`. `casefold` is `str.casefold`. -/
def isMatch (casefold : Str → Str) (needle : Str) (wiki : Option Str) (page : PageLatest) : Bool :=
  (wiki.getD [] == [] || wiki == some page.wiki) && (needle == [] || decide (needle <:+: casefold page.title))

/-- `search`: the pages whose title contains the query, most recently changed first. -/
def PageStore.search (casefold : Str → Str) (s : PageStore) (query : Str) (wiki : Option Str) (limit : Int) :
    List PageLatest :=
  let needle := strip (casefold query)
  let found := s.pages.values.filter (isMatch casefold needle wiki)
  upTo limit (newestFirst PageLatest.eventTime found)

end Pages
end Wikistream
