import Wikistream.Python.JsonRoundTrip

/-!
# `Python.JsonBytes` — `json.loads` of bytes

`json.loads` guesses the encoding of bytes from their first four and decodes with `surrogatepass`, so it
accepts more than the strict UTF-8 that `str.encode` writes.

## Contents
- **The guess** (`detectEncoding`) and the decoders (`Encoding.decode`).
- **`loadsBytes`**. What `dumps` writes for a record is taken for UTF-8 and read back (`loadsBytes_dumps`).
-/

namespace Py

/-! ## Decoding -/

inductive Encoding
  | utf8
  | utf8Sig
  | utf16
  | utf16be
  | utf16le
  | utf32
  | utf32be
  | utf32le
  deriving DecidableEq

/-- `json.detect_encoding`. -/
def detectEncoding (b : Bytes) : Encoding :=
  if [0, 0, 0xfe, 0xff].isPrefixOf b || [0xff, 0xfe, 0, 0].isPrefixOf b then .utf32
  else if [0xfe, 0xff].isPrefixOf b || [0xff, 0xfe].isPrefixOf b then .utf16
  else if [0xef, 0xbb, 0xbf].isPrefixOf b then .utf8Sig
  else
    -- no byte order mark: the places of the zero bytes in the first character tell the width
    match b with
    | [b0, b1] => if b0 = 0 then .utf16be else if b1 = 0 then .utf16le else .utf8
    | b0 :: b1 :: b2 :: b3 :: _ =>
        if b0 = 0 then if b1 ≠ 0 then .utf16be else .utf32be
        else if b1 = 0 then if b2 ≠ 0 ∨ b3 ≠ 0 then .utf16le else .utf32le
        else .utf8
    | _ => .utf8

/-- `lead`, for a decoder that lets surrogates pass. -/
def leadPass (a : Nat) : Option Owed := if a = 0xed then some ⟨1, 0x80, 0xbf, a % 16⟩ else lead a

/-- `utf8From` with `surrogatepass`. -/
def utf8PassFrom : Option Owed → Bytes → Option Str
  | none, [] => some []
  | some _, [] => none
  | none, a :: s =>
      if a.toNat < 0x80 then (utf8PassFrom none s).map (Fin.ofNat _ a.toNat :: ·)
      else
        match leadPass a.toNat with
        | none => none
        | some owed => utf8PassFrom (some owed) s
  | some owed, b :: s =>
      if owed.lo ≤ b.toNat ∧ b.toNat ≤ owed.hi then
        match owed.more with
        | 0 => (utf8PassFrom none s).map (Fin.ofNat _ (owed.value * 64 + b.toNat % 64) :: ·)
        | more + 1 => utf8PassFrom (some ⟨more, 0x80, 0xbf, owed.value * 64 + b.toNat % 64⟩) s
      else none

/-- A number from its bytes. -/
def fromBytes (bigEndian : Bool) (b : Bytes) : Nat :=
  (if bigEndian then b else b.reverse).foldl (fun n x => n * 256 + x.toNat) 0

/-- The units of UTF-16; half of one is an error. -/
def utf16Units (bigEndian : Bool) : Bytes → Option Str
  | [] => some []
  | [_] => none
  | b0 :: b1 :: s => (utf16Units bigEndian s).map (Fin.ofNat _ (fromBytes bigEndian [b0, b1]) :: ·)

/-- Join the surrogates that stand in pairs. -/
def joinPairs : Str → Str
  | h :: l :: s =>
      if isHigh h && isLow l then
        Fin.ofNat _ (0x10000 + ((h.val - 0xd800) * 1024 + (l.val - 0xdc00))) :: joinPairs s
      else h :: joinPairs (l :: s)
  | s => s

/-- UTF-32 with `surrogatepass`. -/
def utf32Decode (bigEndian : Bool) : Bytes → Option Str
  | [] => some []
  | b0 :: b1 :: b2 :: b3 :: s =>
      let n := fromBytes bigEndian [b0, b1, b2, b3]
      if n < 0x110000 then (utf32Decode bigEndian s).map (Fin.ofNat _ n :: ·) else none
  | _ => none

/-- `b.decode(encoding, "surrogatepass")`. The codecs `utf-16` and `utf-32` read the byte order from the mark
    that `detect_encoding` has seen. -/
def Encoding.decode (b : Bytes) : Encoding → Option Str
  | .utf8 => utf8PassFrom none b
  | .utf8Sig => utf8PassFrom none (b.drop 3)
  | .utf16 => (utf16Units (b.head? = some 0xfe) (b.drop 2)).map joinPairs
  | .utf16be => (utf16Units true b).map joinPairs
  | .utf16le => (utf16Units false b).map joinPairs
  | .utf32 => utf32Decode (b.head? = some 0) (b.drop 4)
  | .utf32be => utf32Decode true b
  | .utf32le => utf32Decode false b

/-- `json.loads(b)` for `bytes`. A `UnicodeDecodeError` is a `ValueError`; a second byte order mark is no
    value. -/
def loadsBytes (limits : JsonLimits) (b : Bytes) : Except Exc Json :=
  match (detectEncoding b).decode b with
  | none => .error .valueError
  | some s =>
      if s.head? = some 0xfeff then
        .error (.jsonDecodeError (decodeErrorText (lit "Expecting value") s 0))
      else loads limits s

/-! ## Reading what was written -/

/-- What the strict decoder reads, the passing one reads the same way. -/
theorem utf8PassFrom_of_utf8From {b : Bytes} :
    (∀ s, utf8From none b = some s → utf8PassFrom none b = some s) ∧
      ∀ more lo hi hi' value s, hi ≤ hi' → utf8From (some ⟨more, lo, hi, value⟩) b = some s →
        utf8PassFrom (some ⟨more, lo, hi', value⟩) b = some s := by
  induction b with
  | nil => exact ⟨fun s h => h, fun more lo hi hi' value s _ h => absurd h (by simp [utf8From])⟩
  | cons a b ih =>
      obtain ⟨hnone, hsome⟩ := ih
      -- between two characters, and within one
      constructor
      · intro s h
        rw [utf8From] at h
        rw [utf8PassFrom]
        split at h
        · next hascii =>
            obtain ⟨t, ht, rfl⟩ := Option.map_eq_some_iff.mp h
            rw [if_pos hascii, hnone t ht]
            rfl
        · next hlong =>
            rw [if_neg hlong]
            cases hlead : lead a.toNat with
            | none =>
                rw [hlead] at h
                exact absurd h (by simp)
            | some owed =>
                rw [hlead] at h
                by_cases hed : a.toNat = 0xed
                · -- the strict decoder stops before the surrogates
                  rw [hed] at hlead
                  obtain rfl : owed = ⟨1, 0x80, 0x9f, 13⟩ := (Option.some.inj hlead).symm
                  rw [leadPass, if_pos hed, hed]
                  exact hsome _ _ _ _ _ _ (by decide) h
                · rw [leadPass, if_neg hed, hlead]
                  exact hsome _ _ _ _ _ _ (le_refl _) h
      · intro more lo hi hi' value s hle h
        rw [utf8From] at h
        rw [utf8PassFrom]
        split at h
        · next hrange =>
            rw [if_pos ⟨hrange.1, hrange.2.trans hle⟩]
            cases more with
            | zero =>
                obtain ⟨t, ht, rfl⟩ := Option.map_eq_some_iff.mp h
                dsimp only
                rw [hnone t ht]
                rfl
            | succ more => exact hsome _ _ _ _ _ _ (le_refl _) h
        · exact absurd h (by simp)

theorem detectEncoding_record (s : Bytes) : detectEncoding (0x7b :: 0x22 :: s) = .utf8 := by
  match s with
  | [] => rfl
  | [b2] => rfl
  | b2 :: b3 :: s => rfl

/-- The bytes of a text that starts as a record does are read as that text. -/
theorem loadsBytes_encode {limits : JsonLimits} {s : Str} {b : Bytes}
    (h : utf8Encode (chr '\x7b' :: chr '"' :: s) = some b) :
    loadsBytes limits b = loads limits (chr '\x7b' :: chr '"' :: s) := by
  have hdecode := utf8PassFrom_of_utf8From.1 _ (utf8Decode_encode h)
  have hutf8 : detectEncoding b = .utf8 := by
    unfold utf8Encode at h
    split at h
    · exact absurd h (by simp)
    · obtain rfl := Option.some.inj h
      exact detectEncoding_record _
  unfold loadsBytes
  rw [hutf8]
  show (match utf8PassFrom none b with | none => _ | some s => _) = _
  rw [hdecode]
  dsimp only
  have hbrace : ¬ some (chr '\x7b') = some 0xfeff := by decide
  rw [List.head?_cons, if_neg hbrace]

section Records

variable {limits : JsonLimits} {floatRepr : JFloat → Str} {members : Obj} {b : Bytes}

/-- **A written record is read back.** -/
theorem loadsBytes_dumps (hfloat : ReadsFloats limits.maxStrDigits floatRepr) (hne : members ≠ [])
    (hfits : Fits limits.maxStrDigits (.obj members) limits.maxDepth)
    (h : utf8Encode (dumps floatRepr (.obj members)) = some b) :
    ∃ members', SameMembers floatRepr members members' ∧ loadsBytes limits b = .ok (.obj members') := by
  obtain ⟨w, ⟨members', rfl, hsame⟩, hloads⟩ := loads_dumps hfloat hfits
  refine ⟨members', hsame, ?_⟩
  cases members with
  | nil => exact absurd rfl hne
  | cons m members =>
      have htext : ∃ s, dumps floatRepr (.obj (m :: members)) = chr '\x7b' :: chr '"' :: s := by
        rw [dumps, dumpsMembers, join_cons]
        exact ⟨_, rfl⟩
      obtain ⟨s, hs⟩ := htext
      rw [hs] at h hloads
      rw [loadsBytes_encode h, hloads]

theorem fits_of_loadsBytes {v : Json} (h : loadsBytes limits b = .ok v) :
    Fits limits.maxStrDigits v limits.maxDepth := by
  unfold loadsBytes at h
  split at h
  · exact absurd h (by simp)
  · split at h
    · exact absurd h (by simp)
    · exact fits_of_loads h

end Records

/-! ## Documents without floats -/

mutual

/-- The document has no float. -/
def Json.floatFree : Json → Bool
  | .float _ => false
  | .arr items => itemsFloatFree items
  | .obj members => membersFloatFree members
  | _ => true

def itemsFloatFree : List Json → Bool
  | [] => true
  | v :: vs => v.floatFree && itemsFloatFree vs

def membersFloatFree : Obj → Bool
  | [] => true
  | (_, v) :: vs => v.floatFree && membersFloatFree vs

end

section FloatFree

variable {floatRepr : JFloat → Str}

mutual

/-- Without floats the same document is an equal one. -/
theorem eq_of_same {v w : Json} (hv : v.floatFree = true) (h : Same floatRepr v w) : w = v := by
  cases v with
  | float x => exact absurd hv (by simp [Json.floatFree])
  | arr items =>
      obtain ⟨items', rfl, hitems⟩ := h
      rw [eq_of_sameItems hv hitems]
  | obj members =>
      obtain ⟨members', rfl, hmembers⟩ := h
      rw [eq_of_sameMembers hv hmembers]
  | _ => exact h

theorem eq_of_sameItems {vs ws : List Json} (hvs : itemsFloatFree vs = true) (h : SameItems floatRepr vs ws) :
    ws = vs := by
  cases vs with
  | nil => exact h
  | cons v vs =>
      obtain ⟨w, ws', rfl, hw, hws⟩ := h
      rw [itemsFloatFree, Bool.and_eq_true] at hvs
      rw [eq_of_same hvs.1 hw, eq_of_sameItems hvs.2 hws]

theorem eq_of_sameMembers {vs ws : Obj} (hvs : membersFloatFree vs = true)
    (h : SameMembers floatRepr vs ws) : ws = vs := by
  match vs with
  | [] => exact h
  | (k, v) :: vs =>
      obtain ⟨w, ws', rfl, hw, hws⟩ := h
      rw [membersFloatFree, Bool.and_eq_true] at hvs
      rw [eq_of_same hvs.1 hw, eq_of_sameMembers hvs.2 hws]

end

mutual

/-- How floats are written does not matter without them. -/
theorem dumps_of_floatFree (floatRepr' : JFloat → Str) {v : Json} (hv : v.floatFree = true) :
    dumps floatRepr v = dumps floatRepr' v := by
  match v with
  | .null | .bool true | .bool false | .int _ | .str _ => rfl
  | .float x => exact absurd hv (by simp [Json.floatFree])
  | .arr items => rw [dumps, dumps, dumpsItems_of_floatFree floatRepr' hv]
  | .obj members => rw [dumps, dumps, dumpsMembers_of_floatFree floatRepr' hv]

theorem dumpsItems_of_floatFree (floatRepr' : JFloat → Str) {vs : List Json} (hvs : itemsFloatFree vs = true) :
    dumpsItems floatRepr vs = dumpsItems floatRepr' vs := by
  match vs with
  | [] => rfl
  | v :: vs =>
      rw [itemsFloatFree, Bool.and_eq_true] at hvs
      rw [dumpsItems, dumpsItems, dumps_of_floatFree floatRepr' hvs.1, dumpsItems_of_floatFree floatRepr' hvs.2]

theorem dumpsMembers_of_floatFree (floatRepr' : JFloat → Str) {vs : Obj} (hvs : membersFloatFree vs = true) :
    dumpsMembers floatRepr vs = dumpsMembers floatRepr' vs := by
  match vs with
  | [] => rfl
  | (k, v) :: vs =>
      rw [membersFloatFree, Bool.and_eq_true] at hvs
      rw [dumpsMembers, dumpsMembers, dumps_of_floatFree floatRepr' hvs.1,
        dumpsMembers_of_floatFree floatRepr' hvs.2]

end

/-- Every float written as `0.0`. -/
def zeroText (_ : JFloat) : Str := lit "0.0"

theorem readsFloats_zeroText (lim : Nat) : ReadsFloats lim zeroText where
  ascii _ _ _ c hc := by
    have hall : (lit "0.0").all (fun c => c.val < 0x80) = true := by decide
    exact of_decide_eq_true (List.all_eq_true.mp hall c hc)
  reads neg mant exp := by
    refine ⟨.dec false 0 (-1), rfl, fun pos rest hends => ⟨pos + 3, ?_⟩⟩
    let n : Num := { start := pos, neg := false, digits := 1 }
    show lex _ .blank pos (chr '0' :: chr '.' :: chr '0' :: rest) = _
    rw [lex_cons (.zero n) [] rfl, lex_cons (.point n) [] rfl,
      lex_cons (.frac { n.push 0 with scale := 1 }) [] rfl]
    apply lex_ends hends
    · rfl
    · rintro c (rfl | rfl | rfl) <;> rfl

theorem encodable_dumps_of_floatFree {v : Json} (hv : v.floatFree = true) :
    Encodable (dumps floatRepr v) ↔ ∀ s ∈ v.texts, Encodable s := by
  rw [dumps_of_floatFree zeroText hv]
  exact encodable_dumps (readsFloats_zeroText 0) v

/-- **A written record without floats is read back as an equal one.** -/
theorem loadsBytes_dumps_of_floatFree {limits : JsonLimits} {members : Obj} {b : Bytes} (hne : members ≠ [])
    (hfree : membersFloatFree members = true)
    (hfits : Fits limits.maxStrDigits (.obj members) limits.maxDepth)
    (h : utf8Encode (dumps floatRepr (.obj members)) = some b) : loadsBytes limits b = .ok (.obj members) := by
  have hobj : (Json.obj members).floatFree = true := hfree
  rw [dumps_of_floatFree zeroText hobj] at h
  obtain ⟨members', hsame, hloads⟩ := loadsBytes_dumps (readsFloats_zeroText _) hne hfits h
  rw [hloads, eq_of_sameMembers hfree hsame]

end FloatFree

end Py
