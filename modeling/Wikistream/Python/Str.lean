import Mathlib.Algebra.Order.Ring.Int
import Mathlib.Data.Fin.Basic
import Mathlib.Tactic.Common

/-!
# `Python.Str` — text and bytes as Python sees them

A Python `str` is a sequence of code points, lone surrogates included, so it is a list of `Chr` and not
a Lean `String`; `bytes` is a list of octets.

## Contents
- **Text.** `lit`, `isSpace`, `strip`, `splitWords`, `join`, `replaceChr`.
- **UTF-8.** `utf8Decode` and `utf8Encode` are the strict codec: no overlong form, no surrogate, nothing
  above U+10FFFF. `utf8Decode_encode` is the round trip.
-/

namespace Py

/-- A Unicode code point, surrogates included. -/
abbrev Chr := Fin 0x110000

instance chrNeZero : NeZero 0x110000 := ⟨by decide⟩

/-- A Python `str`. -/
abbrev Str := List Chr

instance strLawfulBEq : LawfulBEq Str := inferInstance

/-- Python `bytes`. -/
abbrev Bytes := List UInt8

/-- A character of the source. -/
def chr (c : Char) : Chr := Fin.ofNat 0x110000 c.toNat

/-- A string literal of the source. -/
def lit (s : String) : Str := s.toList.map (fun c => Fin.ofNat 0x110000 c.toNat)

/-! ## `str` methods -/

/-- `str.isspace` for one character. -/
def isSpace (c : Chr) : Bool :=
  (9 ≤ c.val && c.val ≤ 13) || (0x1c ≤ c.val && c.val ≤ 0x20) || c.val == 0x85 || c.val == 0xa0 ||
    c.val == 0x1680 || (0x2000 ≤ c.val && c.val ≤ 0x200a) || c.val == 0x2028 || c.val == 0x2029 ||
    c.val == 0x202f || c.val == 0x205f || c.val == 0x3000

/-- `str.strip()`. -/
def strip (s : Str) : Str := ((s.dropWhile isSpace).reverse.dropWhile isSpace).reverse

/-- The words of `s`, the one being read first: `word` is its reversed beginning. -/
def splitFrom (word : Str) : Str → List Str
  | [] => if word = [] then [] else [word.reverse]
  | c :: s =>
      if isSpace c then if word = [] then splitFrom [] s else word.reverse :: splitFrom [] s
      else splitFrom (c :: word) s

/-- `str.split()`. -/
def splitWords (s : Str) : List Str := splitFrom [] s

/-- `sep.join(parts)`. -/
def join (sep : Str) (parts : List Str) : Str := (parts.intersperse sep).flatten

/-- `s.replace(c, r)` for a single character `c`. -/
def replaceChr (c : Chr) (r : Str) (s : Str) : Str := s.flatMap (fun d => if d = c then r else [d])

/-- A character that is no space survives `strip`. -/
theorem mem_strip {c : Chr} (hc : isSpace c = false) {s : Str} : c ∈ strip s ↔ c ∈ s := by
  have hdrop : ∀ t : Str, c ∈ t.dropWhile isSpace ↔ c ∈ t := by
    intro t
    induction t with
    | nil => exact Iff.rfl
    | cons d t ih =>
        by_cases hd : isSpace d = true
        · have hne : c ≠ d := fun h => by rw [h, hd] at hc; exact absurd hc (by simp)
          rw [List.dropWhile_cons_of_pos hd, ih, List.mem_cons]
          exact (or_iff_right hne).symm
        · rw [List.dropWhile_cons_of_neg hd]
  unfold strip
  rw [List.mem_reverse, hdrop, List.mem_reverse, hdrop]

theorem mem_splitFrom {c : Chr} (hc : isSpace c = false) {word s : Str} :
    (∃ w ∈ splitFrom word s, c ∈ w) ↔ c ∈ word ∨ c ∈ s := by
  induction s generalizing word with
  | nil =>
      unfold splitFrom
      split
      · next hw => simp [hw]
      · simp
  | cons d s ih =>
      unfold splitFrom
      by_cases hd : isSpace d = true
      · have hne : c ≠ d := fun h => by rw [h, hd] at hc; exact absurd hc (by simp)
        rw [if_pos hd, List.mem_cons, or_iff_right hne]
        split
        · next hw => rw [ih, hw]
        · have hrest := @ih []
          simp only [List.not_mem_nil, false_or] at hrest
          rw [← hrest]
          simp
      · rw [if_neg hd, ih, List.mem_cons, List.mem_cons, or_assoc, or_left_comm]

/-- Words joined by a separator without the character. -/
theorem mem_join {c : Chr} {sep : Str} (hc : c ∉ sep) {parts : List Str} :
    c ∈ join sep parts ↔ ∃ w ∈ parts, c ∈ w := by
  induction parts with
  | nil => simp [join]
  | cons w parts ih =>
      cases parts with
      | nil => simp [join]
      | cons v parts =>
          have hjoin : join sep (w :: v :: parts) = w ++ (sep ++ join sep (v :: parts)) := by
            simp [join, List.intersperse]
          rw [hjoin, List.mem_append, List.mem_append, or_iff_right hc, ih]
          simp

/-! ## UTF-8 -/

/-- A code point that UTF-8 cannot carry. -/
def isSurrogate (c : Chr) : Bool := 0xd800 ≤ c.val && c.val ≤ 0xdfff

/-- A character whose first bytes are read: `more` continuation bytes follow the next one, which lies
    between `lo` and `hi`, and `value` holds the bits so far. -/
structure Owed where
  more : Nat
  lo : Nat
  hi : Nat
  value : Nat

/-- What the lead byte `a` of a longer character promises. -/
def lead (a : Nat) : Option Owed :=
  if a < 0xc2 then none
  else if a < 0xe0 then some ⟨0, 0x80, 0xbf, a % 32⟩
  else if a < 0xf0 then
    some ⟨1, if a = 0xe0 then 0xa0 else 0x80, if a = 0xed then 0x9f else 0xbf, a % 16⟩
  else if a < 0xf5 then
    some ⟨2, if a = 0xf0 then 0x90 else 0x80, if a = 0xf4 then 0x8f else 0xbf, a % 8⟩
  else none

/-- Decode from within a character (`some`) or between two (`none`). -/
def utf8From : Option Owed → Bytes → Option Str
  | none, [] => some []
  | some _, [] => none
  | none, a :: s =>
      if a.toNat < 0x80 then (utf8From none s).map (Fin.ofNat _ a.toNat :: ·)
      else
        match lead a.toNat with
        | none => none
        | some owed => utf8From (some owed) s
  | some owed, b :: s =>
      if owed.lo ≤ b.toNat ∧ b.toNat ≤ owed.hi then
        match owed.more with
        | 0 => (utf8From none s).map (Fin.ofNat _ (owed.value * 64 + b.toNat % 64) :: ·)
        | more + 1 => utf8From (some ⟨more, 0x80, 0xbf, owed.value * 64 + b.toNat % 64⟩) s
      else none

/-- `bytes.decode("utf-8")`, or `none` where it raises `UnicodeDecodeError`. -/
def utf8Decode (s : Bytes) : Option Str := utf8From none s

/-- The bytes of one character. -/
def utf8Char (c : Chr) : Bytes :=
  let n := c.val
  if n < 0x80 then [UInt8.ofNat n]
  else if n < 0x800 then [UInt8.ofNat (0xc0 + n / 64), UInt8.ofNat (0x80 + n % 64)]
  else if n < 0x10000 then
    [UInt8.ofNat (0xe0 + n / 4096), UInt8.ofNat (0x80 + n / 64 % 64), UInt8.ofNat (0x80 + n % 64)]
  else
    [UInt8.ofNat (0xf0 + n / 262144), UInt8.ofNat (0x80 + n / 4096 % 64),
      UInt8.ofNat (0x80 + n / 64 % 64), UInt8.ofNat (0x80 + n % 64)]

/-- `str.encode("utf-8")`, or `none` where it raises `UnicodeEncodeError`. -/
def utf8Encode (s : Str) : Option Bytes :=
  if s.any isSurrogate then none else some (s.flatMap utf8Char)

theorem toNat_ofNat_lt {n : Nat} (h : n < 256) : (UInt8.ofNat n).toNat = n := by
  rw [UInt8.toNat_ofNat']
  omega

/-- A continuation byte in range is taken. -/
theorem utf8From_owed {owed : Owed} {n : Nat} (hlo : owed.lo ≤ 0x80 + n % 64)
    (hhi : 0x80 + n % 64 ≤ owed.hi) (s : Bytes) :
    utf8From (some owed) (UInt8.ofNat (0x80 + n % 64) :: s) =
      match owed.more with
      | 0 => (utf8From none s).map (Fin.ofNat _ (owed.value * 64 + n % 64) :: ·)
      | more + 1 => utf8From (some ⟨more, 0x80, 0xbf, owed.value * 64 + n % 64⟩) s := by
  have hb := @toNat_ofNat_lt (0x80 + n % 64) (by omega)
  have hbits : (0x80 + n % 64) % 64 = n % 64 := by omega
  rw [utf8From, hb, if_pos ⟨hlo, hhi⟩, hbits]

/-- A lead byte opens the character it promises. -/
theorem utf8From_lead {n : Nat} {owed : Owed} (h : lead n = some owed) (hn : n < 256) (s : Bytes) :
    utf8From none (UInt8.ofNat n :: s) = utf8From (some owed) s := by
  have hge : ¬ n < 0x80 := by
    intro hlt
    rw [lead, if_pos (by omega)] at h
    exact absurd h (by simp)
  rw [utf8From, toNat_ofNat_lt hn, if_neg hge, h]

theorem utf8From_utf8Char {c : Chr} (hc : isSurrogate c = false) (s : Bytes) :
    utf8From none (utf8Char c ++ s) = (utf8From none s).map (c :: ·) := by
  have hlt : c.val < 0x110000 := c.isLt
  have hs : c.val < 0xd800 ∨ 0xdfff < c.val := by
    by_contra h
    rw [isSurrogate, Bool.and_eq_false_iff] at hc
    simp at hc
    omega
  have hself {n : Nat} (h : n = c.val) : (Fin.ofNat 0x110000 n : Chr) = c := by
    subst h
    exact Fin.ext (by simp [Fin.ofNat])
  unfold utf8Char
  -- a sequence of one byte, of two, of three, of four: the lead byte tells how many follow
  by_cases h1 : c.val < 0x80
  · simp only [if_pos h1, List.cons_append, List.nil_append]
    rw [utf8From, toNat_ofNat_lt (by omega), if_pos h1, hself rfl]
  by_cases h2 : c.val < 0x800
  · simp only [if_neg h1, if_pos h2, List.cons_append, List.nil_append]
    have hl : lead (0xc0 + c.val / 64) = some ⟨0, 0x80, 0xbf, c.val / 64⟩ := by
      rw [lead, if_neg (by omega), if_pos (by omega)]
      congr 2
      omega
    rw [utf8From_lead hl (by omega), utf8From_owed (by simp) (by simp; omega)]
    dsimp only
    rw [hself (by omega)]
  by_cases h3 : c.val < 0x10000
  · simp only [if_neg h1, if_neg h2, if_pos h3, List.cons_append, List.nil_append]
    have hl : lead (0xe0 + c.val / 4096) = some ⟨1, if c.val / 4096 = 0 then 0xa0 else 0x80,
        if c.val / 4096 = 13 then 0x9f else 0xbf, c.val / 4096⟩ := by
      rw [lead, if_neg (by omega), if_neg (by omega), if_pos (by omega)]
      congr 2
      · exact if_congr (by omega) rfl rfl
      · exact if_congr (by omega) rfl rfl
      · omega
    rw [utf8From_lead hl (by omega), utf8From_owed (by dsimp only; split <;> omega)
      (by dsimp only; split <;> omega)]
    dsimp only
    rw [utf8From_owed (by simp) (by simp; omega)]
    dsimp only
    rw [hself (by omega)]
  · simp only [if_neg h1, if_neg h2, if_neg h3, List.cons_append, List.nil_append]
    have hl : lead (0xf0 + c.val / 262144) = some ⟨2, if c.val / 262144 = 0 then 0x90 else 0x80,
        if c.val / 262144 = 4 then 0x8f else 0xbf, c.val / 262144⟩ := by
      rw [lead, if_neg (by omega), if_neg (by omega), if_neg (by omega), if_pos (by omega)]
      congr 2
      · exact if_congr (by omega) rfl rfl
      · exact if_congr (by omega) rfl rfl
      · omega
    rw [utf8From_lead hl (by omega), utf8From_owed (by dsimp only; split <;> omega)
      (by dsimp only; split <;> omega)]
    dsimp only
    rw [utf8From_owed (by simp) (by simp; omega)]
    dsimp only
    rw [utf8From_owed (by simp) (by simp; omega)]
    dsimp only
    rw [hself (by omega)]

/-- **Decoding inverts encoding.** -/
theorem utf8Decode_encode {s : Str} {b : Bytes} (h : utf8Encode s = some b) : utf8Decode b = some s := by
  unfold utf8Encode at h
  split at h
  · exact absurd h (by simp)
  · next hs =>
      obtain rfl := Option.some.inj h
      unfold utf8Decode
      induction s with
      | nil => rfl
      | cons c s ih =>
          simp only [List.any_cons, Bool.or_eq_true, not_or, Bool.not_eq_true] at hs
          rw [List.flatMap_cons, utf8From_utf8Char hs.1, ih (by simpa using hs.2) (by simp)]
          rfl

end Py
