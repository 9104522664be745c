import Wikistream.Ingestor.Sse
import Mathlib.Data.List.Perm.Basic

/-!
# `Correctness.StreamPayloads` — which payloads the stream client delivers unchanged

A server ends its lines with line feeds. The client's lines are those of `str.splitlines`, which also end at eight
characters that a server may write inside a line. Behind such a character the rest of a payload is a line of its
own.

## Contents
- **The stream as a server writes it** (`Sent`, `Gives`, `Frame`, `Written`), and what is assumed of `iter_lines`
  (`SplitsLines`).
- **A frame read line by line** (`feed_gives`, `foldl_frame`, `feedLines_written`): the parser keeps the fields
  apart, so their order does not matter.
- **Lines that are cut** (`Harmless`, `feedLines_pieces`): a comment does no harm if the parser takes up nothing of its
  pieces, as with one that has no line break (`harmless_of_unbroken`).
- **The result** (`payloads_unchanged_iff`), and a payload that is cut (`separator_cuts_data`).
-/

namespace Wikistream
namespace Sse

open Py SSEParser
open Ingestor (SSEEvent)

/-! ## The stream as a server writes it -/

/-- An event as it is sent. -/
structure Sent where
  event : Str
  id : Str
  data : Str
  deriving DecidableEq

/-- The event as the client should yield it. -/
def Sent.received (e : Sent) : SSEEvent := { event := e.event, data := e.data, eventId := some e.id }

/-- No text of the event has a line break. -/
structure Sent.Unbroken (e : Sent) : Prop where
  event : Py.Unbroken e.event
  id : Py.Unbroken e.id
  data : Py.Unbroken e.data

/-- The line gives the field this value. The space may be left out where the value starts with none. -/
def Gives (fieldName value line : Str) : Prop :=
  line = fieldName ++ chr ':' :: chr ' ' :: value ∨
    (line = fieldName ++ chr ':' :: value ∧ value.head? ≠ some (chr ' '))

/-- The lines of an event: one for each field, in any order, and comments anywhere. -/
def Frame (e : Sent) (lines : List Str) : Prop :=
  ∃ event id data, Gives (lit "event") e.event event ∧ Gives (lit "id") e.id id ∧ Gives (lit "data") e.data data ∧
    (lines.filter (fun line => !isComment line)).Perm [event, id, data]

/-- The lines of the events, each followed by a blank line, and comments anywhere. -/
def Written : List Sent → List Str → Prop
  | [], lines => ∀ line ∈ lines, isComment line = true
  | e :: events, lines => ∃ frame rest, lines = frame ++ [] :: rest ∧ Frame e frame ∧ Written events rest

/-- For the server this is one line. -/
def OneLine (line : Str) : Prop := ∀ c ∈ line, c ≠ chr '\n' ∧ c ≠ chr '\r'

instance (line : Str) : Decidable (OneLine line) :=
  List.decidableBAll (fun c => c ≠ chr '\n' ∧ c ≠ chr '\r') line

/-- `iter_lines(decode_unicode=True)` decodes UTF-8 and splits the text as `str.splitlines` does. -/
def SplitsLines (iterLines : List Bytes → List (Option Str)) : Prop :=
  ∀ chunks text, utf8Decode chunks.flatten = some text → iterLines chunks = (splitlines text).map some

variable {e : Sent} {events : List Sent} {fieldName value line : Str} {lines : List Str} {parser : SSEParser}

theorem Gives.value_sublist (h : Gives fieldName value line) : value.Sublist line := by
  rcases h with rfl | ⟨rfl, _⟩
  · exact ((List.sublist_cons_self _ _).trans (List.sublist_cons_self _ _)).trans (List.sublist_append_right _ _)
  · exact (List.sublist_cons_self _ _).trans (List.sublist_append_right _ _)

theorem Gives.unbroken (h : Gives fieldName value line) (hname : Py.Unbroken fieldName) (hvalue : Py.Unbroken value) :
    Py.Unbroken line := by
  have hcolon : isLineBreak (chr ':') = false := by decide
  have hspace : isLineBreak (chr ' ') = false := by decide
  intro c hc
  rcases h with rfl | ⟨rfl, _⟩
  · rcases List.mem_append.mp hc with hc | hc
    · exact hname c hc
    · rcases List.mem_cons.mp hc with rfl | hc
      · exact hcolon
      · rcases List.mem_cons.mp hc with rfl | hc
        · exact hspace
        · exact hvalue c hc
  · rcases List.mem_append.mp hc with hc | hc
    · exact hname c hc
    · rcases List.mem_cons.mp hc with rfl | hc
      · exact hcolon
      · exact hvalue c hc

/-! ## A frame read line by line -/

/-- The client reads the value that the line gives. -/
theorem feed_gives (h : Gives fieldName value line) (hne : fieldName ≠ []) (hcolon : chr ':' ∉ fieldName) :
    parser.feed line = (parser.setField fieldName value, none) := by
  have hhead : fieldName.head? ≠ some (chr ':') := fun heq => hcolon (List.mem_of_mem_head? heq)
  have hcomment : isComment line = false := by
    unfold isComment
    rw [beq_eq_false_iff_ne]
    rcases h with rfl | ⟨rfl, _⟩ <;> rwa [List.head?_append_of_ne_nil _ hne]
  have hblank : line ≠ [] := by
    rintro rfl
    rcases h with h | ⟨h, _⟩ <;> exact absurd h (by simp)
  have hvalue : partition (chr ':') line = (fieldName, chr ' ' :: value) ∨
      (partition (chr ':') line = (fieldName, value) ∧ value.head? ≠ some (chr ' ')) := by
    rcases h with rfl | ⟨rfl, hspace⟩
    · exact Or.inl (partition_append hcolon)
    · exact Or.inr ⟨partition_append hcolon, hspace⟩
  unfold SSEParser.feed
  rw [hcomment, if_neg (by simp), if_neg hblank]
  rcases hvalue with hpartition | ⟨hpartition, hspace⟩
  · rw [hpartition]
    rfl
  · rw [hpartition]
    dsimp only
    unfold dropSpace
    rw [if_neg hspace]

/-- Lines that are not blank yield nothing. -/
theorem feedLines_quiet {rest : List (Option Str)} (h : ∀ line ∈ lines, line ≠ []) :
    feedLines parser (lines.map some ++ rest) =
      feedLines (lines.foldl (fun parser line => (parser.feed line).1) parser) rest := by
  induction lines generalizing parser with
  | nil => rfl
  | cons line lines ih =>
      have hnone : (parser.feed line).2 = none := by
        unfold SSEParser.feed
        split
        · rfl
        · rw [if_neg (h line List.mem_cons_self)]
      show (parser.feed line).2.toList ++ feedLines (parser.feed line).1 (lines.map some ++ rest) = _
      rw [hnone, ih (fun l hl => h l (List.mem_cons_of_mem _ hl))]
      rfl

/-- Comments leave the parser as it is. -/
theorem foldl_feed_filter :
    lines.foldl (fun parser line => (parser.feed line).1) parser =
      (lines.filter (fun line => !isComment line)).foldl (fun parser line => (parser.feed line).1) parser := by
  induction lines generalizing parser with
  | nil => rfl
  | cons line lines ih =>
      by_cases hcomment : isComment line = true
      · have hfeed : parser.feed line = (parser, none) := by
          unfold SSEParser.feed
          rw [if_pos hcomment]
        rw [List.foldl_cons, List.filter_cons_of_neg (by simp [hcomment]), hfeed, ih]
      · rw [List.foldl_cons, List.filter_cons_of_pos (by simp [hcomment]), List.foldl_cons, ih]

theorem setField_event : parser.setField (lit "event") value = { parser with event := value } := by
  unfold setField
  rw [if_neg (by decide), if_pos rfl]

theorem setField_id : parser.setField (lit "id") value = { parser with eventId := some value } := by
  unfold setField
  rw [if_neg (by decide), if_neg (by decide), if_pos rfl]

theorem setField_data :
    parser.setField (lit "data") value = { parser with dataLines := parser.dataLines ++ [value] } := by
  unfold setField
  rw [if_pos rfl]

/-- **A frame** leaves the parser with its fields. -/
theorem foldl_frame (h : Frame e lines) (hempty : parser.dataLines = []) :
    lines.foldl (fun parser line => (parser.feed line).1) parser =
      { event := e.event, dataLines := [e.data], eventId := some e.id } := by
  obtain ⟨event, id, data, hevent, hid, hdata, hperm⟩ := h
  have hsetEvent : ∀ parser : SSEParser, (parser.feed event).1 = parser.setField (lit "event") e.event :=
    fun _ => congrArg Prod.fst (feed_gives hevent (by decide) (by decide))
  have hsetId : ∀ parser : SSEParser, (parser.feed id).1 = parser.setField (lit "id") e.id :=
    fun _ => congrArg Prod.fst (feed_gives hid (by decide) (by decide))
  have hsetData : ∀ parser : SSEParser, (parser.feed data).1 = parser.setField (lit "data") e.data :=
    fun _ => congrArg Prod.fst (feed_gives hdata (by decide) (by decide))
  have hcomm : ∀ x ∈ [event, id, data], ∀ y ∈ [event, id, data], ∀ parser : SSEParser,
      ((parser.feed x).1.feed y).1 = ((parser.feed y).1.feed x).1 := by
    intro x hx y hy parser
    simp only [List.mem_cons, List.not_mem_nil, or_false] at hx hy
    -- the same line twice, or two fields that are kept apart
    rcases hx with rfl | rfl | rfl <;> rcases hy with rfl | rfl | rfl <;>
      simp only [hsetEvent, hsetId, hsetData] <;> rfl
  rw [foldl_feed_filter, hperm.foldl_eq' (fun x hx y hy => hcomm x (hperm.subset hx) y (hperm.subset hy))]
  simp only [List.foldl_cons, List.foldl_nil, hsetEvent, hsetId, hsetData, setField_event, setField_id, setField_data,
    hempty, List.nil_append]

/-- The lines of a frame are not blank. -/
theorem Frame.ne_nil (h : Frame e lines) : ∀ line ∈ lines, line ≠ [] := by
  obtain ⟨event, id, data, hevent, hid, hdata, hperm⟩ := h
  rintro _ hline rfl
  have hmem : ([] : Str) ∈ [event, id, data] := hperm.subset (List.mem_filter.mpr ⟨hline, rfl⟩)
  have hgives : ∀ {fieldName value : Str}, ¬ Gives fieldName value [] := by
    rintro fieldName value (h | ⟨h, _⟩) <;> exact absurd h (by simp)
  simp only [List.mem_cons, List.not_mem_nil, or_false] at hmem
  rcases hmem with rfl | rfl | rfl
  · exact hgives hevent
  · exact hgives hid
  · exact hgives hdata

/-- **Written lines** are read as their events. -/
theorem feedLines_written (h : Written events lines) (hempty : parser.dataLines = []) :
    feedLines parser (lines.map some) = events.map Sent.received := by
  induction events generalizing lines parser with
  | nil =>
      have hne : ∀ line ∈ lines, line ≠ [] := by
        rintro line hline rfl
        exact absurd (h [] hline) (by decide)
      rw [← List.append_nil (lines.map some), feedLines_quiet hne]
      rfl
  | cons e events ih =>
      obtain ⟨frame, rest, rfl, hframe, hrest⟩ := h
      rw [List.map_append, feedLines_quiet hframe.ne_nil, foldl_frame hframe hempty]
      -- the blank line yields the event, and the next frame finds no data
      have hflush := @ih rest { event := lit "message", dataLines := [], eventId := some e.id } hrest rfl
      show _ :: feedLines _ (rest.map some) = _
      rw [List.map_cons, ← hflush]
      have hjoin : join (lit "\n") [e.data] = e.data := List.append_nil _
      rw [hjoin]
      rfl

/-- The lines of unbroken events are unbroken, but for comments. -/
theorem Written.unbroken (h : Written events lines) (hevents : ∀ e ∈ events, e.Unbroken) :
    ∀ line ∈ lines, isComment line = false → Py.Unbroken line := by
  induction events generalizing lines with
  | nil =>
      intro line hline hnot
      rw [h line hline] at hnot
      exact absurd hnot (by simp)
  | cons e events ih =>
      obtain ⟨frame, rest, rfl, ⟨event, id, data, hevent, hid, hdata, hperm⟩, hrest⟩ := h
      have he := hevents e List.mem_cons_self
      intro line hline hnot
      rcases List.mem_append.mp hline with hline | hline
      · have hmem : line ∈ [event, id, data] := hperm.subset (List.mem_filter.mpr ⟨hline, by simp [hnot]⟩)
        simp only [List.mem_cons, List.not_mem_nil, or_false] at hmem
        rcases hmem with rfl | rfl | rfl
        · exact hevent.unbroken (by decide) he.event
        · exact hid.unbroken (by decide) he.id
        · exact hdata.unbroken (by decide) he.data
      · rcases List.mem_cons.mp hline with rfl | hline
        · exact fun c hc => absurd hc (by simp)
        · exact ih hrest (fun e he => hevents e (List.mem_cons_of_mem _ he)) line hline hnot

/-! ## Lines that are cut -/

/-- None of the pieces of the line is blank or names a field. -/
def Harmless (line : Str) : Prop :=
  ∀ piece ∈ pieces line, piece ≠ [] ∧ (partition (chr ':') piece).1 ∉ [lit "data", lit "event", lit "id"]

theorem harmless_of_unbroken (hcomment : isComment line = true) (h : Py.Unbroken line) : Harmless line := by
  intro piece hpiece
  rw [pieces_of_unbroken h] at hpiece
  obtain rfl := List.mem_singleton.mp hpiece
  cases piece with
  | nil => exact absurd hcomment (by decide)
  | cons c s =>
      -- there is nothing before the colon
      obtain rfl : c = chr ':' := Option.some.inj (beq_iff_eq.mp hcomment)
      have hempty : (partition (chr ':') (chr ':' :: s)).1 = [] := by simp [partition]
      rw [hempty]
      exact ⟨List.cons_ne_nil _ _, by decide⟩

/-- A line that is not blank and names no field leaves the parser as it is. -/
theorem feed_eq_self (hne : line ≠ []) (hfield : (partition (chr ':') line).1 ∉ [lit "data", lit "event", lit "id"]) :
    parser.feed line = (parser, none) := by
  simp only [List.mem_cons, List.not_mem_nil, or_false, not_or] at hfield
  obtain ⟨hdata, hevent, hid⟩ := hfield
  unfold SSEParser.feed
  by_cases hcomment : isComment line = true
  · rw [if_pos hcomment]
  · rw [if_neg hcomment, if_neg hne]
    have hset (value : Str) : parser.setField (partition (chr ':') line).1 value = parser := by
      rw [setField, if_neg hdata, if_neg hevent, if_neg hid]
    exact congrArg (fun parser => (parser, none)) (hset _)

theorem feedLines_harmless (h : Harmless line) (rest : List (Option Str)) :
    feedLines parser ((pieces line).map some ++ rest) = feedLines parser rest := by
  have hskip : ∀ ps : List Str, (∀ piece ∈ ps, piece ∈ pieces line) →
      ps.foldl (fun parser piece => (parser.feed piece).1) parser = parser := by
    intro ps
    induction ps with
    | nil => exact fun _ => rfl
    | cons piece ps ih =>
        intro hps
        obtain ⟨hne, hfield⟩ := h piece (hps piece List.mem_cons_self)
        rw [List.foldl_cons, feed_eq_self hne hfield, ih (fun p hp => hps p (List.mem_cons_of_mem _ hp))]
  rw [feedLines_quiet (fun piece hpiece => (h piece hpiece).1), hskip _ (fun _ hpiece => hpiece)]

/-- **Only comments are cut, and without harm**: the events are those of the lines as they were written. -/
theorem feedLines_pieces (hcomments : ∀ line ∈ lines, isComment line = true → Harmless line)
    (hothers : ∀ line ∈ lines, isComment line = false → Py.Unbroken line) :
    feedLines parser ((lines.flatMap pieces).map some) = feedLines parser (lines.map some) := by
  induction lines generalizing parser with
  | nil => rfl
  | cons line lines ih =>
      have ih (parser : SSEParser) := @ih parser (fun l hl => hcomments l (List.mem_cons_of_mem _ hl))
        (fun l hl => hothers l (List.mem_cons_of_mem _ hl))
      rw [List.flatMap_cons, List.map_append]
      cases hcomment : isComment line with
      | true =>
          have hfeed : parser.feed line = (parser, none) := by
            unfold SSEParser.feed
            rw [if_pos hcomment]
          rw [feedLines_harmless (hcomments line List.mem_cons_self hcomment), ih]
          show _ = (parser.feed line).2.toList ++ feedLines (parser.feed line).1 (lines.map some)
          rw [hfeed]
          rfl
      | false =>
          rw [pieces_of_unbroken (hothers line List.mem_cons_self hcomment)]
          exact congrArg ((parser.feed line).2.toList ++ ·) (ih (parser.feed line).1)

/-- The data of an event stands in one of the lines. -/
theorem Written.data_sublist (h : Written events lines) (he : e ∈ events) : ∃ line ∈ lines, e.data.Sublist line := by
  induction events generalizing lines with
  | nil => exact absurd he (by simp)
  | cons x events ih =>
      obtain ⟨frame, rest, rfl, ⟨event, id, data, hevent, hid, hdata, hperm⟩, hrest⟩ := h
      rcases List.mem_cons.mp he with rfl | he
      · have hmem : data ∈ frame := List.mem_of_mem_filter (hperm.symm.subset (by simp))
        exact ⟨data, List.mem_append_left _ hmem, hdata.value_sublist⟩
      · obtain ⟨line, hline, hsublist⟩ := ih hrest he
        exact ⟨line, List.mem_append_right _ (List.mem_cons_of_mem _ hline), hsublist⟩

/-! ## The result -/

/-- **Which payloads are delivered unchanged.** The client yields the events as they were sent only if none of their
    texts has a line break of `str.splitlines`, and it does if the pieces of no comment do harm; wherever the comments
    and the ends of the chunks are. -/
theorem payloads_unchanged_iff {iterLines : List Bytes → List (Option Str)} (hiter : SplitsLines iterLines)
    {chunks : List Bytes} (hwritten : Written events lines) (hlines : ∀ line ∈ lines, OneLine line)
    (hbody : utf8Encode (joinLines lines) = some chunks.flatten) :
    (streamEvents (iterLines chunks) = events.map Sent.received → ∀ e ∈ events, e.Unbroken) ∧
      ((∀ line ∈ lines, isComment line = true → Harmless line) →
        (streamEvents (iterLines chunks) = events.map Sent.received ↔ ∀ e ∈ events, e.Unbroken)) := by
  have hread : iterLines chunks = (splitlines (joinLines lines)).map some := hiter chunks _ (utf8Decode_encode hbody)
  have hnecessary : streamEvents (iterLines chunks) = events.map Sent.received → ∀ e ∈ events, e.Unbroken := by
    intro hsame e he
    have hyielded : e.received ∈ streamEvents (iterLines chunks) := hsame.symm ▸ List.mem_map_of_mem he
    have hunbroken : UnbrokenEvent e.received := by
      refine unbroken_of_feedLines SSEParser.unbroken_init ?_ e.received hyielded
      intro line hline
      rw [hread] at hline
      obtain ⟨l, hl, heq⟩ := List.mem_map.mp hline
      exact Option.some.inj heq ▸ unbroken_of_splitlines hl
    refine ⟨hunbroken.event, hunbroken.eventId e.id rfl, ?_⟩
    intro c hc
    obtain ⟨line, hline, hsublist⟩ := hwritten.data_sublist he
    exact hunbroken.data c hc (hlines line hline c (hsublist.subset hc)).1
  refine ⟨hnecessary, fun hcomments => ⟨hnecessary, fun hevents => ?_⟩⟩
  rw [hread, splitlines_joinLines (fun line hline hmem => (hlines line hline (chr '\r') hmem).2 rfl)]
  exact (feedLines_pieces hcomments (hwritten.unbroken hevents)).trans (feedLines_written hwritten rfl)

/-- An `iter_lines` that reads the whole response before it splits it. -/
def splitAtOnce (chunks : List Bytes) : List (Option Str) :=
  match utf8Decode chunks.flatten with
  | some text => (splitlines text).map some
  | none => []

theorem splitsLines_splitAtOnce : SplitsLines splitAtOnce := by
  intro chunks text htext
  unfold splitAtOnce
  rw [htext]

/-- The lines of one event, behind a comment. -/
def linesOf (e : Sent) : List Str :=
  [lit ":ok", lit "event: " ++ e.event, lit "id: " ++ e.id, lit "data: " ++ e.data, []]

theorem written_linesOf (e : Sent) : Written [e] (linesOf e) :=
  ⟨[lit ":ok", lit "event: " ++ e.event, lit "id: " ++ e.id, lit "data: " ++ e.data], [], rfl,
    ⟨_, _, _, Or.inl rfl, Or.inl rfl, Or.inl rfl, List.Perm.refl _⟩, fun _ h => absurd h (by simp)⟩

/-- Two payloads, the second with a line separator in it. -/
def plain : Sent := { event := lit "message", id := lit "1", data := lit "ab" }

def separated : Sent := { plain with data := lit "a\u2028b" }

/-- The plain payload arrives, wherever its text is cut into chunks. -/
theorem plain_payload_arrives :
    ∃ body, utf8Encode (joinLines (linesOf plain)) = some body ∧
      ∀ n, streamEvents (splitAtOnce [body.take n, body.drop n]) = [plain.received] := by
  obtain ⟨body, hbody⟩ := Option.isSome_iff_exists.mp
    (by decide +kernel : (utf8Encode (joinLines (linesOf plain))).isSome = true)
  have hlines : ∀ line ∈ linesOf plain, OneLine line := by decide +kernel
  have hunbroken : ∀ line ∈ linesOf plain, Py.Unbroken line := by decide +kernel
  have hcomments : ∀ line ∈ linesOf plain, isComment line = true → Harmless line :=
    fun line hline hcomment => harmless_of_unbroken hcomment (hunbroken line hline)
  refine ⟨body, hbody, fun n => ?_⟩
  have hchunks : [body.take n, body.drop n].flatten = body := by
    rw [List.flatten_cons, List.flatten_singleton, List.take_append_drop]
  have hunchanged := payloads_unchanged_iff splitsLines_splitAtOnce (written_linesOf plain) hlines
    (hbody.trans (congrArg some hchunks.symm))
  apply (hunchanged.2 hcomments).mpr
  intro e he
  obtain rfl := List.mem_singleton.mp he
  exact ⟨by decide, by decide, by decide⟩

/-- **A payload that is cut.** For the server the line separator stands within a line. -/
theorem separator_cuts_data :
    Written [separated] (linesOf separated) ∧ (∀ line ∈ linesOf separated, OneLine line) ∧
      ∃ body, utf8Encode (joinLines (linesOf separated)) = some body ∧
        streamEvents (splitAtOnce [body]) = [{ separated.received with data := lit "a" }] ∧
        separated.received.data ≠ lit "a" := by
  obtain ⟨body, hbody, hread⟩ := Option.map_eq_some_iff.mp
    (by decide +kernel : (utf8Encode (joinLines (linesOf separated))).map (fun body =>
      decide (streamEvents (splitAtOnce [body]) = [{ separated.received with data := lit "a" }])) = some true)
  exact ⟨written_linesOf separated, by decide +kernel, body, hbody, of_decide_eq_true hread, by decide⟩

end Sse
end Wikistream
