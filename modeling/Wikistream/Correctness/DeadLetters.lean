import Wikistream.Correctness.OneOutcome
import Wikistream.Python.JsonBytes
import Wikistream.Python.Utf8

/-!
# `Correctness.DeadLetters` — which payloads a dead letter keeps apart

`decode_payload` writes UTF-8 as its text and anything else as its `repr`, into the same field. Each of the two is
injective; but the text of a `repr` is UTF-8 itself, and nothing says which of the two was meant.

## Contents
- **`repr` is injective** (`readByte_reprByte`, `reprBytes_inj`), and ASCII (`reprBytes_ascii`).
- **Two payloads with one text** (`ReprOf`, `decodePayload_eq_iff`), both rejected (`exists_twin`).
- **The field of a record** (`payloadField`, `payloadField_envelope`).
- **The result** (`payload_kept_iff`), and two messages that become one (`two_payloads_one_field`).
-/

namespace Wikistream
namespace Dlq

open Py Models Transform

/-! ## `repr` is injective -/

/-- The character of a byte. -/
def byteChr (x : UInt8) : Chr := Fin.ofNat _ x.toNat

/-- Read one byte of a `repr`. -/
def readByte : Str → Option (Chr × Str)
  | [] => none
  | c :: s =>
      if c = chr '\\' then
        match s with
        | [] => none
        | d :: s =>
            if d = chr 't' then some (0x09, s)
            else if d = chr 'n' then some (0x0a, s)
            else if d = chr 'r' then some (0x0d, s)
            else if d = chr 'x' then
              match s with
              | hi :: lo :: s =>
                  match hexDigit? hi, hexDigit? lo with
                  | some h, some l => some (Fin.ofNat _ (h * 16 + l), s)
                  | _, _ => none
              | _ => none
            else some (d, s)
      else some (c, s)

theorem val_byteChr (x : UInt8) : (byteChr x).val = x.toNat := by
  have := x.toNat_lt
  exact Nat.mod_eq_of_lt (by omega)

theorem byteChr_inj {x y : UInt8} (h : byteChr x = byteChr y) : x = y := by
  have hval := congrArg Fin.val h
  rw [val_byteChr, val_byteChr] at hval
  exact UInt8.toNat.inj hval

theorem reprByte_eq (quote : Chr) (x : UInt8) : reprByte quote x =
    if byteChr x = quote ∨ byteChr x = chr '\\' then [chr '\\', byteChr x]
    else if byteChr x = 0x09 then [chr '\\', chr 't']
    else if byteChr x = 0x0a then [chr '\\', chr 'n']
    else if byteChr x = 0x0d then [chr '\\', chr 'r']
    else if (byteChr x).val < 0x20 ∨ 0x7f ≤ (byteChr x).val then
      [chr '\\', chr 'x', hexChr ((byteChr x).val / 16), hexChr ((byteChr x).val % 16)]
    else [byteChr x] := rfl

/-- **The bytes of a `repr` are told apart**, whatever follows. -/
theorem readByte_reprByte {quote : Chr} (hquote : quote = chr '\'' ∨ quote = chr '"') (x : UInt8) (s : Str) :
    readByte (reprByte quote x ++ s) = some (byteChr x, s) := by
  have hx := x.toNat_lt
  have hval := val_byteChr x
  rw [reprByte_eq]
  generalize byteChr x = c at hval ⊢
  split
  · next hescaped =>
      -- a quote or a backslash is none of the letters an escape begins with
      have hletters : c ≠ chr 't' ∧ c ≠ chr 'n' ∧ c ≠ chr 'r' ∧ c ≠ chr 'x' := by
        rcases hescaped with rfl | rfl
        · rcases hquote with rfl | rfl <;> decide
        · decide
      obtain ⟨ht, hn, hr, hxx⟩ := hletters
      simp only [List.cons_append, List.nil_append, readByte, if_true, if_neg ht, if_neg hn, if_neg hr, if_neg hxx]
  · next hplain =>
      split
      · next htab => rw [htab]; rfl
      · split
        · next hnewline => rw [hnewline]; rfl
        · split
          · next hreturn => rw [hreturn]; rfl
          · split
            · have hhi := @hexDigit?_hexChr (c.val / 16) (by omega)
              have hlo := @hexDigit?_hexChr (c.val % 16) (by omega)
              have hback : (Fin.ofNat 0x110000 (c.val / 16 * 16 + c.val % 16) : Chr) = c := by
                apply Fin.ext
                rw [Nat.div_add_mod', val_ofNat c.isLt]
              have hescape : chr 'x' ≠ chr 't' ∧ chr 'x' ≠ chr 'n' ∧ chr 'x' ≠ chr 'r' := by decide
              simp only [List.cons_append, List.nil_append, readByte, if_true, if_neg hescape.1, if_neg hescape.2.1,
                if_neg hescape.2.2, hhi, hlo, hback]
            · have hbackslash : c ≠ chr '\\' := fun h => hplain (Or.inr h)
              simp only [List.cons_append, List.nil_append, readByte, if_neg hbackslash]

/-- A `repr` ends nowhere but at its quote. -/
theorem reprByte_ne_nil {quote : Chr} (hquote : quote = chr '\'' ∨ quote = chr '"') (x : UInt8) :
    reprByte quote x ≠ [] := by
  intro h
  have hread := readByte_reprByte hquote x []
  rw [h] at hread
  exact absurd hread (by simp [readByte])

theorem flatMap_reprByte_inj {quote : Chr} (hquote : quote = chr '\'' ∨ quote = chr '"') {p q : Bytes}
    (h : p.flatMap (reprByte quote) = q.flatMap (reprByte quote)) : p = q := by
  induction p generalizing q with
  | nil =>
      cases q with
      | nil => rfl
      | cons y q => exact absurd (List.append_eq_nil_iff.mp h.symm).1 (reprByte_ne_nil hquote y)
  | cons x p ih =>
      cases q with
      | nil => exact absurd (List.append_eq_nil_iff.mp h).1 (reprByte_ne_nil hquote x)
      | cons y q =>
          rw [List.flatMap_cons, List.flatMap_cons] at h
          have hread := congrArg readByte h
          rw [readByte_reprByte hquote, readByte_reprByte hquote] at hread
          obtain ⟨hchr, hrest⟩ := Prod.mk.inj (Option.some.inj hread)
          rw [byteChr_inj hchr, ih hrest]

/-- The quote `repr` chooses. -/
def quoteOf (b : Bytes) : Chr := if 0x27 ∈ b ∧ 0x22 ∉ b then chr '"' else chr '\''

theorem quoteOf_eq (b : Bytes) : quoteOf b = chr '\'' ∨ quoteOf b = chr '"' := by
  unfold quoteOf
  split
  · exact Or.inr rfl
  · exact Or.inl rfl

theorem reprBytes_eq (b : Bytes) :
    reprBytes b = chr 'b' :: quoteOf b :: (b.flatMap (reprByte (quoteOf b)) ++ [quoteOf b]) := rfl

/-- **`repr` is injective on `bytes`.** -/
theorem reprBytes_inj {p q : Bytes} (h : reprBytes p = reprBytes q) : p = q := by
  rw [reprBytes_eq, reprBytes_eq] at h
  obtain ⟨_, h⟩ := List.cons.inj h
  obtain ⟨hquote, h⟩ := List.cons.inj h
  rw [hquote] at h
  exact flatMap_reprByte_inj (quoteOf_eq q) (List.append_cancel_right h)

theorem reprByte_ascii {quote : Chr} (hquote : quote.val < 0x80) (x : UInt8) :
    ∀ c ∈ reprByte quote x, c.val < 0x80 := by
  have hx := x.toNat_lt
  have hval := val_byteChr x
  have hdigit : ∀ n < 16, (hexChr n).val < 0x80 := by decide
  have hletters : ∀ c ∈ lit "\\tnrx", c.val < 0x80 := by
    have hall : (lit "\\tnrx").all (fun c => c.val < 0x80) = true := by decide
    exact fun c hc => of_decide_eq_true (List.all_eq_true.mp hall c hc)
  rw [reprByte_eq]
  generalize byteChr x = d at hval ⊢
  intro c hc
  split_ifs at hc with hescaped htab hnewline hreturn hcontrol
  · rcases List.mem_pair.mp hc with rfl | rfl
    · exact hletters _ (by decide)
    · rcases hescaped with rfl | rfl
      · exact hquote
      · exact hletters _ (by decide)
  · rcases List.mem_pair.mp hc with rfl | rfl <;> exact hletters _ (by decide)
  · rcases List.mem_pair.mp hc with rfl | rfl <;> exact hletters _ (by decide)
  · rcases List.mem_pair.mp hc with rfl | rfl <;> exact hletters _ (by decide)
  · simp only [List.mem_cons, List.not_mem_nil, or_false] at hc
    rcases hc with rfl | rfl | rfl | rfl
    · exact hletters _ (by decide)
    · exact hletters _ (by decide)
    · exact hdigit _ (by omega)
    · exact hdigit _ (by omega)
  · obtain rfl := List.mem_singleton.mp hc
    omega

theorem reprBytes_ascii (b : Bytes) : ∀ c ∈ reprBytes b, c.val < 0x80 := by
  have hquote : (quoteOf b).val < 0x80 := by
    rcases quoteOf_eq b with h | h <;> rw [h] <;> decide
  intro c hc
  rw [reprBytes_eq] at hc
  simp only [List.mem_cons, List.mem_append, List.mem_flatMap, List.not_mem_nil, or_false] at hc
  rcases hc with rfl | rfl | ⟨x, _, hx⟩ | rfl
  · decide
  · exact hquote
  · exact reprByte_ascii hquote x c hx
  · exact hquote

/-! ## Two payloads with one text -/

/-- `q` is the text that stands for `p`, which is not UTF-8. -/
def ReprOf (p q : Bytes) : Prop := utf8Decode p = none ∧ q = ascii (reprBytes p)

instance (p q : Bytes) : Decidable (ReprOf p q) := inferInstanceAs (Decidable (_ ∧ _))

theorem utf8Decode_ascii_reprBytes (p : Bytes) : utf8Decode (ascii (reprBytes p)) = some (reprBytes p) :=
  utf8Decode_encode (utf8Encode_ascii (reprBytes_ascii p))

/-- A text is a `repr` exactly as its bytes are. -/
theorem reprBytes_eq_iff {p q : Bytes} {s : Str} (hp : utf8Decode p = none) (hq : utf8Decode q = some s) :
    reprBytes p = s ↔ ReprOf p q := by
  constructor
  · rintro rfl
    exact ⟨hp, utf8Decode_inj hq (utf8Decode_ascii_reprBytes p)⟩
  · rintro ⟨_, rfl⟩
    exact Option.some.inj ((utf8Decode_ascii_reprBytes p).symm.trans hq)

/-- What stands for another payload is UTF-8. -/
theorem not_reprOf {p q : Bytes} (hq : utf8Decode q = none) : ¬ ReprOf p q := by
  rintro ⟨_, rfl⟩
  exact absurd ((utf8Decode_ascii_reprBytes p).symm.trans hq) (by simp)

/-- **Two payloads are written alike exactly when one is the text of the other's `repr`.** -/
theorem decodePayload_eq_iff {p q : Bytes} (hne : p ≠ q) :
    decodePayload (.bytes p) = decodePayload (.bytes q) ↔ ReprOf p q ∨ ReprOf q p := by
  have hno {p q : Bytes} {s : Str} (hp : utf8Decode p = some s) : ¬ ReprOf p q := by
    rintro ⟨hnone, _⟩
    exact absurd (hp.symm.trans hnone) (by simp)
  cases hp : utf8Decode p with
  | none =>
      cases hq : utf8Decode q with
      | none =>
          simp only [decodePayload, hp, hq, not_reprOf hq, not_reprOf hp, or_self, iff_false]
          exact fun h => hne (reprBytes_inj h)
      | some t =>
          simp only [decodePayload, hp, hq, hno hq, or_false]
          exact reprBytes_eq_iff hp hq
  | some s =>
      cases hq : utf8Decode q with
      | none =>
          simp only [decodePayload, hp, hq, hno hp, false_or]
          exact eq_comm.trans (reprBytes_eq_iff hq hp)
      | some t =>
          simp only [decodePayload, hp, hq, hno hp, hno hq, or_self, iff_false]
          rintro rfl
          exact hne (utf8Decode_inj hp hq)

/-! ## Both are rejected -/

theorem rejected_undecodable {p : Bytes} (hp : utf8Decode p = none) (host : Host) (cache : Dedup.DedupCache)
    (time : Option Int) :
    transform host (.bytes p) cache time = .ok (.rejected (lit "value is not valid utf-8") p, cache) := by
  have hattempt : attempt host (.bytes p) = parseError (lit "value is not valid utf-8") := by
    simp only [attempt, parseRaw, decodeText, hp]
    rfl
  rw [transform, hattempt]
  rfl

/-- No document begins with a `b`. -/
theorem loads_of_b (limits : JsonLimits) (s : Str) :
    ∃ message, loads limits (chr 'b' :: s) = .error (.jsonDecodeError message) := by
  have hjunk : feedBlank 0 (chr 'b') = ([(.junk, 0)], none) := rfl
  refine ⟨decodeErrorText (lit "Expecting value") (chr 'b' :: s) 0, ?_⟩
  rw [loads, if_neg (by simp only [List.head?_cons]; decide)]
  simp only [lex, feed, hjunk, parse, advance, scanOnce, expecting]

theorem rejected_repr (p : Bytes) (host : Host) (cache : Dedup.DedupCache) (time : Option Int) :
    ∃ reason, transform host (.bytes (ascii (reprBytes p))) cache time =
      .ok (.rejected reason (ascii (reprBytes p)), cache) := by
  obtain ⟨message, hloads⟩ := loads_of_b host.json (quoteOf p :: (p.flatMap (reprByte (quoteOf p)) ++ [quoteOf p]))
  rw [← reprBytes_eq] at hloads
  have hattempt : attempt host (.bytes (ascii (reprBytes p))) = parseError (lit "invalid json: " ++ message) := by
    have hdecode : decodeJson host (reprBytes p) = parseError (lit "invalid json: " ++ message) := by
      rw [decodeJson, hloads]
    simp only [attempt, parseRaw, decodeText, utf8Decode_ascii_reprBytes]
    change (decodeJson host (reprBytes p) >>= asObject) >>= _ = _
    rw [hdecode]
    rfl
  refine ⟨lit "invalid json: " ++ message, ?_⟩
  rw [transform, hattempt]
  rfl

/-- **No payload that is not UTF-8 is alone**: another one is rejected whose text is its `repr`. -/
theorem exists_twin {p : Bytes} (hp : utf8Decode p = none) (host : Host) (cache : Dedup.DedupCache)
    (time : Option Int) :
    ∃ q reason, ReprOf p q ∧ p ≠ q ∧ transform host (.bytes q) cache time = .ok (.rejected reason q, cache) := by
  obtain ⟨reason, hreason⟩ := rejected_repr p host cache time
  refine ⟨ascii (reprBytes p), reason, ⟨hp, rfl⟩, fun h => ?_, hreason⟩
  rw [h] at hp
  exact absurd ((utf8Decode_ascii_reprBytes p).symm.trans hp) (by simp)

/-! ## The field of a record -/

/-- `json.loads(record)["payload"]`. -/
def payloadField (limits : JsonLimits) (record : Bytes) : Option Str :=
  match loadsBytes limits record with
  | .ok (.obj members) =>
      match lookup members (lit "payload") with
      | some (.str s) => some s
      | _ => none
  | _ => none

section Envelope

variable {host : Host} {reader : JsonLimits} {partition offset : Nat} (hdepth : 1 < reader.maxDepth)
  (hpartition : IntFits reader.maxStrDigits partition) (hoffset : IntFits reader.maxStrDigits offset)

include hdepth hpartition hoffset

theorem payloadField_envelope {failedAt reason topic : Str} {p b : Bytes}
    (h : envelope host failedAt reason p topic partition offset = .ok b) :
    payloadField reader b = some (decodePayload (.bytes p)) := by
  unfold envelope dlqRecord at h
  dsimp only at h
  split at h
  · next b' hb =>
      obtain rfl := Except.ok.inj h
      have hplace : [lit "partition", lit "offset"].Nodup := by decide
      have hkeys : [lit "stage", lit "reason", lit "source", lit "position", lit "failed_at", lit "payload"].Nodup := by
        decide
      have hposition : Fits reader.maxStrDigits
          (.obj [(lit "partition", .int partition), (lit "offset", .int offset)]) (reader.maxDepth - 1) :=
        ⟨by omega, hplace, hpartition, hoffset, trivial⟩
      have hfits : Fits reader.maxStrDigits (.obj [(lit "stage", .str (lit "cleaner")), (lit "reason", .str reason),
          (lit "source", .str topic), (lit "position", .obj [(lit "partition", .int partition),
          (lit "offset", .int offset)]), (lit "failed_at", .str failedAt),
          (lit "payload", .str (decodePayload (.bytes p)))]) reader.maxDepth :=
        ⟨by omega, hkeys, trivial, trivial, trivial, hposition, trivial, trivial, trivial⟩
      rw [payloadField, loadsBytes_dumps_of_floatFree (by simp) (by simp [membersFloatFree, Json.floatFree]) hfits hb]
      rfl
  · exact absurd h (by simp)

/-- **Two payloads stay apart exactly when neither is the text of the other's `repr`.** The two records are built for
    one place, at any times and for any reasons. A text and the `repr` of bytes that are not UTF-8 share the field, and
    nothing in the record tells them apart. -/
theorem payload_kept_iff {p q : Bytes} (hne : p ≠ q) {failedAt failedAt' reason reason' topic : Str} {b b' : Bytes}
    (hb : envelope host failedAt reason p topic partition offset = .ok b)
    (hb' : envelope host failedAt' reason' q topic partition offset = .ok b') :
    payloadField reader b ≠ payloadField reader b' ↔ ¬ ReprOf p q ∧ ¬ ReprOf q p := by
  rw [payloadField_envelope hdepth hpartition hoffset hb, payloadField_envelope hdepth hpartition hoffset hb', ne_eq,
    Option.some.injEq, decodePayload_eq_iff hne, not_or]

end Envelope

/-- The record of a rejected payload, with no bytes for one that cannot be written. -/
def recordAt (reason : Str) (p : Bytes) : Bytes :=
  (envelope utcHost (lit "2026-09-25T10:15:00+00:00") reason p (lit "wiki.raw") 0 0).toOption.getD []

theorem envelope_recordAt {reason : Str} {p : Bytes}
    (h : (envelope utcHost (lit "2026-09-25T10:15:00+00:00") reason p (lit "wiki.raw") 0 0).toOption.isSome) :
    envelope utcHost (lit "2026-09-25T10:15:00+00:00") reason p (lit "wiki.raw") 0 0 = .ok (recordAt reason p) := by
  obtain ⟨b, hb⟩ := Option.isSome_iff_exists.mp h
  rw [recordAt, hb, Option.getD_some]
  exact toOption_eq_some.mp hb

/-- An undecodable payload and a text that is no `repr`. -/
theorem payload_kept_apart :
    payloadField utcHost.json (recordAt (lit "value is not valid utf-8") [0xff]) ≠
      payloadField utcHost.json (recordAt (lit "event is not a json object") [0x31]) := by
  have hzero : IntFits utcHost.json.maxStrDigits ((0 : Nat) : Int) := Or.inr (Nat.pow_pos (by decide))
  have hundecodable := @envelope_recordAt (lit "value is not valid utf-8") [0xff] (by decide +kernel)
  have hnumber := @envelope_recordAt (lit "event is not a json object") [0x31] (by decide +kernel)
  exact (payload_kept_iff (by decide) hzero hzero (by decide) hundecodable hnumber).mpr (by decide +kernel)

/-- The one byte `ff` and the seven characters of its `repr` are both rejected, and their records have one payload
    field. -/
theorem two_payloads_one_field :
    ∃ p q : Bytes, ∃ reason reason' b b', p ≠ q ∧
      transform utcHost (.bytes p) {} none = .ok (.rejected reason p, {}) ∧
      transform utcHost (.bytes q) {} none = .ok (.rejected reason' q, {}) ∧
      envelope utcHost (lit "2026-09-25T10:15:00+00:00") reason p (lit "wiki.raw") 0 0 = .ok b ∧
      envelope utcHost (lit "2026-09-25T10:15:00+00:00") reason' q (lit "wiki.raw") 0 0 = .ok b' ∧
      payloadField utcHost.json b = payloadField utcHost.json b' := by
  have hattempt : attempt utcHost (.bytes (ascii (lit "b'\\xff'"))) =
      .error (.parseError (lit "invalid json: Expecting value: line 1 column 1 (char 0)")) := by
    decide +kernel
  have hundecodable := @envelope_recordAt (lit "value is not valid utf-8") [0xff] (by decide +kernel)
  have htext := @envelope_recordAt (lit "invalid json: Expecting value: line 1 column 1 (char 0)")
    (ascii (lit "b'\\xff'")) (by decide +kernel)
  refine ⟨[0xff], ascii (lit "b'\\xff'"), _, _, _, _, by decide, rejected_undecodable (by decide) _ _ _, ?_,
    hundecodable, htext, by decide +kernel⟩
  rw [transform, hattempt]
  rfl

end Dlq
end Wikistream
