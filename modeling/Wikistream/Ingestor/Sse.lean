import Wikistream.Ingestor.Handle
import Wikistream.Python.Lines

/-!
# `Ingestor.Sse` — a minimal client for Server-Sent Events

`event:`, `data:` and `id:` fields are read, a blank line ends an event, and a line that starts with a colon is a
comment.

## Contents
- **The parser** (`SSEParser.feed`, `flush`), which keeps its state from line to line.
- **The stream** (`streamEvents`): one parser for all lines of a response.
- **What the parser can hold** (`SSEParser.Unbroken`): it is fed lines, so nothing it holds has a line break.
-/

namespace Wikistream
namespace Sse

open Py
open Ingestor (SSEEvent)

deriving instance DecidableEq for SSEEvent

/-- `SSEParser`. -/
structure SSEParser where
  event : Str := lit "message"
  dataLines : List Str := []
  eventId : Option Str := none
  deriving DecidableEq

namespace SSEParser

/-- `_flush`. -/
def flush (parser : SSEParser) : SSEParser × Option SSEEvent :=
  if parser.dataLines = [] then ({ parser with event := lit "message" }, none)
  else
    ({ parser with event := lit "message", dataLines := [] },
      some { event := parser.event, data := join (lit "\n") parser.dataLines, eventId := parser.eventId })

/-- The end of `feed`, for a field. -/
def setField (parser : SSEParser) (fieldName value : Str) : SSEParser :=
  if fieldName = lit "data" then { parser with dataLines := parser.dataLines ++ [value] }
  else if fieldName = lit "event" then { parser with event := value }
  else if fieldName = lit "id" then { parser with eventId := some value }
  else parser

/-- Is the line a comment? -/
def isComment (line : Str) : Bool := line.head? == some (chr ':')

/-- A field's value without the one space in front of it. -/
def dropSpace (value : Str) : Str := if value.head? = some (chr ' ') then value.drop 1 else value

/-- `feed`. -/
def feed (parser : SSEParser) (line : Str) : SSEParser × Option SSEEvent :=
  if isComment line then (parser, none)
  else if line = [] then parser.flush
  else
    let (fieldName, value) := partition (chr ':') line
    (parser.setField fieldName (dropSpace value), none)

end SSEParser

/-- The loop of `stream_events`, over what `iter_lines` yields. -/
def feedLines (parser : SSEParser) : List (Option Str) → List SSEEvent
  | [] => []
  | none :: lines => feedLines parser lines
  | some line :: lines =>
      let (parser, event) := parser.feed line
      event.toList ++ feedLines parser lines

/-- `stream_events`, on a connection whose response yields `lines`. -/
def streamEvents (lines : List (Option Str)) : List SSEEvent := feedLines {} lines

/-! ## What the parser can hold -/

/-- Nothing in the event has a line break, but for the line feeds between its data lines. -/
structure UnbrokenEvent (e : SSEEvent) : Prop where
  event : Py.Unbroken e.event
  data : ∀ c ∈ e.data, c ≠ chr '\n' → isLineBreak c = false
  eventId : ∀ eventId, e.eventId = some eventId → Py.Unbroken eventId

/-- Nothing that the parser holds has a line break. -/
structure SSEParser.Unbroken (parser : SSEParser) : Prop where
  event : Py.Unbroken parser.event
  dataLines : ∀ line ∈ parser.dataLines, Py.Unbroken line
  eventId : ∀ eventId, parser.eventId = some eventId → Py.Unbroken eventId

theorem unbroken_message : Py.Unbroken (lit "message") := by decide

theorem SSEParser.unbroken_init : SSEParser.Unbroken {} :=
  ⟨unbroken_message, fun _ h => absurd h (by simp), fun _ h => absurd h (by simp)⟩

theorem SSEParser.Unbroken.setField {parser : SSEParser} (h : parser.Unbroken) {fieldName value : Str}
    (hvalue : Py.Unbroken value) : (parser.setField fieldName value).Unbroken := by
  unfold SSEParser.setField
  split
  · refine { h with dataLines := fun line hline => ?_ }
    rcases List.mem_append.mp hline with hold | hnew
    · exact h.dataLines line hold
    · exact List.mem_singleton.mp hnew ▸ hvalue
  · split
    · exact { h with event := hvalue }
    · split
      · exact { h with eventId := fun eventId heq => Option.some.inj heq ▸ hvalue }
      · exact h

theorem SSEParser.Unbroken.flush {parser : SSEParser} (h : parser.Unbroken) :
    parser.flush.1.Unbroken ∧ ∀ e ∈ parser.flush.2, UnbrokenEvent e := by
  unfold SSEParser.flush
  split
  · exact ⟨{ h with event := unbroken_message }, fun e he => absurd he (by simp)⟩
  · refine ⟨{ h with event := unbroken_message, dataLines := fun _ hline => absurd hline (by simp) }, ?_⟩
    intro e he
    obtain rfl := Option.some.inj he
    refine ⟨h.event, fun c hc hne => ?_, h.eventId⟩
    by_contra hbreak
    -- a character of the joined text that is no line feed is one of a line
    have hsep : c ∉ lit "\n" := fun hmem => hne (List.mem_singleton.mp hmem)
    obtain ⟨line, hline, hmem⟩ := (mem_join hsep).mp hc
    exact hbreak (h.dataLines line hline c hmem)

theorem dropSpace_sublist (value : Str) : (SSEParser.dropSpace value).Sublist value := by
  unfold SSEParser.dropSpace
  split
  · exact List.drop_sublist 1 value
  · exact List.Sublist.refl value

theorem SSEParser.Unbroken.feed {parser : SSEParser} (h : parser.Unbroken) {line : Str} (hline : Py.Unbroken line) :
    (parser.feed line).1.Unbroken ∧ ∀ e ∈ (parser.feed line).2, UnbrokenEvent e := by
  unfold SSEParser.feed
  split
  · exact ⟨h, fun e he => absurd he (by simp)⟩
  · split
    · exact h.flush
    · refine ⟨h.setField ?_, fun e he => absurd he (by simp)⟩
      exact hline.sublist ((dropSpace_sublist _).trans (partition_snd_sublist _ _))

/-- **Every event of a stream of lines is unbroken.** -/
theorem unbroken_of_feedLines {parser : SSEParser} (h : parser.Unbroken) {lines : List (Option Str)}
    (hlines : ∀ line, some line ∈ lines → Py.Unbroken line) : ∀ e ∈ feedLines parser lines, UnbrokenEvent e := by
  induction lines generalizing parser with
  | nil => exact fun e he => absurd he (by simp [feedLines])
  | cons line lines ih =>
      have hrest : ∀ line, some line ∈ lines → Py.Unbroken line := fun l hl => hlines l (List.mem_cons_of_mem _ hl)
      cases line with
      | none => exact ih h hrest
      | some line =>
          obtain ⟨hparser, hevent⟩ := h.feed (hlines line List.mem_cons_self)
          intro e he
          rcases List.mem_append.mp he with hnow | hlater
          · exact hevent e (Option.mem_toList.mp hnow)
          · exact ih hparser hrest e hlater

end Sse
end Wikistream
