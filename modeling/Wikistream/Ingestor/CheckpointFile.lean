import Wikistream.Ingestor.Delivery
import Wikistream.Lib.Disk
import Wikistream.Python.Exc
import Wikistream.Python.JsonAscii
import Wikistream.Python.Lines

/-!
# `Ingestor.CheckpointFile` — the file the checkpoint is kept in

A save writes a temporary file in the same directory, syncs it and renames it over the checkpoint. Any of its calls may
raise, the process may be killed between any two of them, and the machine may lose power.

## Contents
- **The text of a checkpoint** (`payload`) and the reader (`load`).
- **One save** (`Saving`), call by call.
- **The machine** (`Host`): a disk and at most one ingestor, which loads the file when it starts.
-/

namespace Wikistream
namespace Ingestor
namespace Delivery

open Py Lib

/-! ## The text of a checkpoint -/

instance (lim : Nat) (n : Int) : Decidable (IntFits lim n) := inferInstanceAs (Decidable (_ ∨ _))

/-- `if last_event_id is None`. -/
def idText : Option Str → Str
  | none => lit "null"
  | some last => dumpsStrAscii last

def member (name : String) (text : Str) : Str := dumpsStrAscii (lit name) ++ lit ": " ++ text

/-- The text `save` writes, unless the number has more digits than `str` converts. -/
def Checkpoint.payload (limits : JsonLimits) (c : Checkpoint) : Option Str :=
  if IntFits limits.maxStrDigits c.eventsConfirmed then
    some (chr '{' :: join (lit ", ") [member "last_event_id" (idText c.lastEventId),
      member "events_confirmed" (lit (toString c.eventsConfirmed))] ++ [chr '}'])
  else none

/-- The end of `load`: fields of another type count as missing. -/
def Checkpoint.ofDocument : Json → Checkpoint
  | .obj data => {
      lastEventId :=
        match lookup data (lit "last_event_id") with
        | some (.str last) => nonEmpty (some last)
        | _ => none
      eventsConfirmed :=
        match lookup data (lit "events_confirmed") with
        | some (.int count) => count
        -- a `bool` is an `int`
        | some (.bool b) => b.toNat
        | _ => 0 }
  | _ => {}

/-- `Checkpoint.load`, given what is in the file; `none` is `FileNotFoundError`. -/
def Checkpoint.load (limits : JsonLimits) : Option Bytes → Except Exc Checkpoint
  | none => .ok {}
  | some bytes =>
      match utf8Decode bytes with
      | none => .ok {}
      | some text =>
          match loads limits (universalNewlines text) with
          | .error (.jsonDecodeError _) => .ok {}
          | .error e => .error e
          | .ok document => .ok (Checkpoint.ofDocument document)

/-! ## One save -/

/-- How far a save has come. -/
inductive Saving
  /-- Before `mkstemp`. -/
  | start (text : Str)
  /-- `rest` is still in the buffer of the handle. -/
  | writing (tmp : Str) (file : Nat) (rest : Bytes)
  /-- After `fsync`, before `os.replace`. -/
  | synced (tmp : Str) (file : Nat)
  /-- In the `except` branch. -/
  | failing (tmp : Str)

/-! ## The machine -/

structure Running where
  world : World
  saving : Option Saving := none

structure Host where
  disk : Disk Str UInt8
  process : Option Running := none

inductive HostAction
  | start
  /-- A send or a delivery callback. -/
  | act (a : Action)
  | shutdown
  | mkstemp (random : Str)
  /-- The next `n` bytes leave the buffer. -/
  | write (n : Nat)
  | fsync
  | replace
  /-- The call whose turn it is raises. -/
  | fail
  | unlink
  | kill
  | powerCut (k : Nat) (garbage : Nat → Bytes)

/-- What a callback makes the ingestor save. -/
def saveDue (w : World) : Action → Option Checkpoint
  | .send _ => none
  | .callback seq err timer => (w.sender.onDelivery err seq timer).2

/-- The process after `json.dumps`, which may raise: nothing catches that, so the process ends. -/
def startSave (limits : JsonLimits) (w : World) (c : Checkpoint) : Option Running :=
  (c.payload limits).map (fun text => { world := w, saving := some (.start text) })

/-- The name `tempfile` makes up. -/
def tempName (random : Str) : Str := lit "tmp" ++ random ++ lit ".tmp"

/-- One step. An exception that leaves `save` leaves the process too. -/
def hostStep (limits : JsonLimits) (path : Str) (h : Host) : HostAction → Option Host
  | .start =>
      match h.process, Checkpoint.load limits (h.disk.read path) with
      | none, .ok c => some { h with process := some { world := { sender := { checkpoint := c } } } }
      | _, _ => none
  | .act a =>
      match h.process with
      | some { world := w, saving := none } =>
          match step w a with
          | none => none
          | some w' =>
              match saveDue w a with
              | none => some { h with process := some { world := w' } }
              | some c => some { h with process := startSave limits w' c }
      | _ => none
  | .shutdown =>
      match h.process with
      | some { world := w, saving := none } =>
          some { h with process := if w.sender.unsaved = 0 then none else startSave limits w w.sender.checkpoint }
      | _ => none
  | .mkstemp random =>
      match h.process with
      | some { world := w, saving := some (.start text) } =>
          if h.disk.names (tempName random) = none then
            some {
              disk := h.disk.create (tempName random)
              process := some { world := w, saving := some (
                match utf8Encode text with
                | some bytes => .writing (tempName random) h.disk.fresh bytes
                | none => .failing (tempName random)) } }
          else none
      | _ => none
  | .write n =>
      match h.process with
      | some { world := w, saving := some (.writing tmp file rest) } =>
          some {
            disk := h.disk.append file (rest.take n)
            process := some { world := w, saving := some (.writing tmp file (rest.drop n)) } }
      | _ => none
  | .fsync =>
      match h.process with
      | some { world := w, saving := some (.writing tmp file []) } =>
          some { disk := h.disk.sync file, process := some { world := w, saving := some (.synced tmp file) } }
      | _ => none
  | .replace =>
      match h.process with
      | some { world := w, saving := some (.synced tmp _) } =>
          some { disk := h.disk.rename tmp path, process := some { world := w } }
      | _ => none
  | .fail =>
      match h.process with
      | some { world := w, saving := some (.writing tmp _ _) } | some { world := w, saving := some (.synced tmp _) } =>
          some { h with process := some { world := w, saving := some (.failing tmp) } }
      | some { saving := some (.start _), .. } => some { h with process := none }
      | _ => none
  | .unlink =>
      match h.process with
      | some { saving := some (.failing tmp), .. } => some { disk := h.disk.unlink tmp, process := none }
      | _ => none
  | .kill => some { h with process := none }
  | .powerCut k garbage => (h.disk.powerCut k garbage).map (fun disk => { disk })

/-! ## Reading what was written -/

section RoundTrip

variable {limits : JsonLimits} {c : Checkpoint} {text : Str}

/-- The id is one the ingestor keeps, of characters that can be received. -/
def Checkpoint.Clean (c : Checkpoint) : Prop := ∀ last, c.lastEventId = some last → last ≠ [] ∧ Py.Encodable last

/-- The JSON value of an id. -/
def idJson : Option Str → Json
  | none => .null
  | some last => .str last

theorem lex_idText {lim : Nat} {id : Option Str} (h : ∀ last, id = some last → Py.Encodable last) (pos : Nat)
    (rest : Str) : ∃ tok pos', lex lim .blank pos (idText id ++ rest) = (tok, pos) :: lex lim .blank pos' rest ∧
      ∀ maxDepth stack, scanOnce maxDepth stack tok pos = .ok (.more (.after (idJson id)) stack) := by
  cases id with
  | none => exact ⟨.const .null, pos + 4, rfl, fun _ _ => rfl⟩
  | some last =>
      obtain ⟨pos', hlex⟩ := lex_dumpsStrAscii lim pos (h last rfl) rest
      exact ⟨.str last, pos', hlex, fun _ _ => rfl⟩

theorem lex_member_name {lim : Nat} {name : String} (hname : Py.Encodable (lit name)) (text : Str) (pos : Nat)
    (rest : Str) : ∃ pos', lex lim .blank pos (member name text ++ rest) =
      (.str (lit name), pos) :: (.colon, pos') :: lex lim .blank (pos' + 1 + 1) (text ++ rest) := by
  obtain ⟨pos', hlex⟩ := lex_dumpsStrAscii lim pos hname (lit ": " ++ (text ++ rest))
  refine ⟨pos', ?_⟩
  unfold member
  rw [List.append_assoc, List.append_assoc, hlex]
  show _ :: lex lim .blank pos' (chr ':' :: chr ' ' :: (text ++ rest)) = _
  rw [lex_cons .blank [(.colon, pos')] rfl, lex_cons .blank [] rfl]
  rfl

theorem payload_eq_some : c.payload limits = some text ↔ IntFits limits.maxStrDigits c.eventsConfirmed ∧
    text = chr '{' :: (member "last_event_id" (idText c.lastEventId) ++ (lit ", " ++
      (member "events_confirmed" (lit (toString c.eventsConfirmed)) ++ [chr '}']))) := by
  have hjoin : ∀ a b : Str, chr '{' :: join (lit ", ") [a, b] ++ [chr '}'] =
      chr '{' :: (a ++ (lit ", " ++ (b ++ [chr '}']))) := by
    intro a b
    simp [join, List.intersperse]
  unfold Checkpoint.payload
  rw [hjoin]
  split
  · next hfits =>
      rw [Option.some.injEq]
      exact ⟨fun heq => ⟨hfits, heq.symm⟩, fun h => h.2.symm⟩
  · next hfits => exact ⟨fun h => absurd h (by simp), fun h => absurd h.1 hfits⟩

/-- The text is the document of the two fields. -/
theorem loads_payload (hdepth : 0 < limits.maxDepth) (hc : c.Clean) (h : c.payload limits = some text) :
    loads limits text = .ok (.obj [(lit "last_event_id", idJson c.lastEventId),
      (lit "events_confirmed", .int c.eventsConfirmed)]) := by
  obtain ⟨hfits, rfl⟩ := payload_eq_some.mp h
  obtain ⟨p1, hname1⟩ := @lex_member_name limits.maxStrDigits "last_event_id" (by decide) (idText c.lastEventId) 1
    (lit ", " ++ (member "events_confirmed" (lit (toString c.eventsConfirmed)) ++ [chr '}']))
  obtain ⟨tok, p2, hid, hscan⟩ := @lex_idText limits.maxStrDigits c.lastEventId (fun last hl => (hc last hl).2)
    (p1 + 1 + 1) (lit ", " ++ (member "events_confirmed" (lit (toString c.eventsConfirmed)) ++ [chr '}']))
  obtain ⟨p3, hname2⟩ := @lex_member_name limits.maxStrDigits "events_confirmed" (by decide)
    (lit (toString c.eventsConfirmed)) (p2 + 1 + 1) [chr '}']
  have hends : Ends [chr '}'] := Or.inr ⟨chr '}', [], rfl, by simp⟩
  obtain ⟨p4, hint⟩ := lex_dumpsInt hfits (p3 + 1 + 1) hends
  have hcomma : lex limits.maxStrDigits .blank p2
      (lit ", " ++ (member "events_confirmed" (lit (toString c.eventsConfirmed)) ++ [chr '}'])) =
      (.comma, p2) :: lex limits.maxStrDigits .blank (p2 + 1 + 1)
        (member "events_confirmed" (lit (toString c.eventsConfirmed)) ++ [chr '}']) := by
    show lex _ _ _ (chr ',' :: chr ' ' :: _) = _
    rw [lex_cons .blank [(.comma, p2)] rfl, lex_cons .blank [] rfl]
    rfl
  have hend : lex limits.maxStrDigits .blank p4 [chr '}'] = [(.rbrace, p4), (.eof, p4 + 1)] := rfl
  unfold loads
  rw [if_neg (by simp [show (chr '{' : Chr) ≠ 0xfeff by decide]), lex_cons .blank [(.lbrace, 0)] rfl, hname1, hid,
    hcomma, hname2, hint, hend]
  have hroom : advance limits.maxDepth .value [] .lbrace 0 = .ok (.more .firstKey []) := if_pos hdepth
  have hmembers : Lib.upsert (lit "events_confirmed") (.int c.eventsConfirmed)
      (Lib.upsert (lit "last_event_id") (idJson c.lastEventId) []) =
      [(lit "last_event_id", idJson c.lastEventId), (lit "events_confirmed", .int c.eventsConfirmed)] := rfl
  -- the parser, token by token
  rw [List.singleton_append, parse_more hroom, parse_more (m := .colon [] (lit "last_event_id")) (k := []) rfl,
    parse_more (m := .value) (k := [.obj [] (lit "last_event_id")]) rfl, @parse_more _ _ .value _ _ _ _ _ (hscan _ _),
    parse_more (m := .key _) (k := []) rfl,
    parse_more (m := .colon _ (lit "events_confirmed")) (k := []) rfl,
    parse_more (m := .value) (k := [.obj _ (lit "events_confirmed")]) rfl,
    parse_more (m := .after (.int c.eventsConfirmed)) (k := [.obj _ (lit "events_confirmed")]) rfl,
    parse_more (m := .after _) (k := []) rfl, hmembers]
  rfl

theorem ofDocument_fields (hc : c.Clean) : Checkpoint.ofDocument (.obj [(lit "last_event_id", idJson c.lastEventId),
    (lit "events_confirmed", .int c.eventsConfirmed)]) = c := by
  obtain ⟨id, count⟩ := c
  cases id with
  | none => rfl
  | some last =>
      have hlast : nonEmpty (some last) = some last := Option.filter_some_pos (by simpa using (hc last rfl).1)
      show Checkpoint.mk (nonEmpty (some last)) count = _
      rw [hlast]

/-- **What `save` writes is what `load` reads.** -/
theorem load_payload (hdepth : 0 < limits.maxDepth) (hc : c.Clean) (h : c.payload limits = some text) :
    ∃ bytes, utf8Encode text = some bytes ∧ Checkpoint.load limits (some bytes) = .ok c := by
  have hascii : IsAscii text := by
    obtain ⟨_, rfl⟩ := payload_eq_some.mp h
    have hid : IsAscii (idText c.lastEventId) := by
      cases c.lastEventId with
      | none => decide
      | some last => exact dumpsStrAscii_ascii last
    have hmember : ∀ {name : String} {t : Str}, IsAscii t → IsAscii (member name t) := fun ht =>
      ((dumpsStrAscii_ascii _).append (by decide : IsAscii (lit ": "))).append ht
    have hint : IsAscii (lit (toString c.eventsConfirmed)) := isAscii_int _
    refine IsAscii.append (s := [chr '{']) (by decide) ?_
    exact (hmember hid).append ((by decide : IsAscii (lit ", ")).append ((hmember hint).append (by decide)))
  have hcr : chr '\r' ∉ text := fun hmem => absurd (hascii _ hmem).1 (by decide)
  refine ⟨text.flatMap utf8Char, utf8Encode_of_encodable hascii.encodable, ?_⟩
  unfold Checkpoint.load
  dsimp only
  rw [utf8Decode_encode (utf8Encode_of_encodable hascii.encodable)]
  dsimp only
  rw [universalNewlines_of_notMem hcr, loads_payload hdepth hc h]
  exact congrArg Except.ok (ofDocument_fields hc)

end RoundTrip

end Delivery
end Ingestor
end Wikistream
