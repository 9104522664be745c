import Mathlib.Data.Int.Order.Basic
import Wikistream.Python.Double
import Wikistream.Python.Exc

/-!
# `Python.DateTime` — `datetime` as the C implementation computes it

`fromisoformat` follows `_datetimemodule.c` byte by byte: it reads a NUL-terminated UTF-8 string, so a
read past the end sees a zero byte, and it accepts more than the documentation promises (a trailing
separator before an offset, a fraction after any field).

## Contents
- **Calendar.** `daysBeforeYear`, `toOrdinal`, `ofOrdinal`, the ISO week calendar.
- **`DateTime`.** A date and time within the supported range, with an optional UTC offset.
- **Reading.** `fromisoformat`, `fromtimestamp`.
- **Writing.** `isoformat`; `fromisoformat_isoformat` reads it back.
- **Arithmetic.** `astimezone`, `timestamp`, with Python's floats in `Double`.
- **The supported range.** A UTC time exists exactly within the years 1 to 9999
  (`DateTime.exists_ofWallMicros`).
-/

namespace Py

/-! ## Calendar -/

def isLeap (year : Nat) : Bool := year % 4 = 0 && (year % 100 ≠ 0 || year % 400 = 0)

def daysInMonth (year month : Nat) : Nat :=
  if month = 2 then if isLeap year then 29 else 28
  else if month = 4 ∨ month = 6 ∨ month = 9 ∨ month = 11 then 30
  else 31

/-- Days before January 1st of `year`. -/
def daysBeforeYear (year : Nat) : Nat :=
  let y := year - 1
  y * 365 + y / 4 - y / 100 + y / 400

/-- Days of `year` before the first of `month`. -/
def daysBeforeMonth (year month : Nat) : Nat :=
  ((List.range (month - 1)).map (fun m => daysInMonth year (m + 1))).sum

/-- `date.toordinal()`: January 1st of year 1 is day 1. -/
def toOrdinal (year month day : Nat) : Nat := daysBeforeYear year + daysBeforeMonth year month + day

/-- The month and day of the `n`-th day (from 0) after the first of `month`. -/
def monthDay (year : Nat) : (fuel month n : Nat) → Nat × Nat
  | 0, month, n => (month, n + 1)
  | fuel + 1, month, n =>
      if n < daysInMonth year month then (month, n + 1)
      else monthDay year fuel (month + 1) (n - daysInMonth year month)

/-- `date.fromordinal`: year, month and day of the day `ordinal`. -/
def ofOrdinal (ordinal : Nat) : Nat × Nat × Nat :=
  let n := ordinal - 1
  let n400 := n / 146097
  let n := n % 146097
  let n100 := n / 36524
  let n := n % 36524
  let n4 := n / 1461
  let n := n % 1461
  let n1 := n / 365
  let year := n400 * 400 + n100 * 100 + n4 * 4 + n1 + 1
  -- the last day of a leap year that ends a 4-year or a 400-year cycle
  if n1 = 4 ∨ n100 = 4 then (year - 1, 12, 31)
  else
    let (month, day) := monthDay year 11 1 (n % 365)
    (year, month, day)

/-- Monday is 0. -/
def weekday (ordinal : Nat) : Nat := (ordinal + 6) % 7

/-- The ordinal of the Monday that starts week 1 of `year`. -/
def isoWeek1Monday (year : Nat) : Nat :=
  let firstDay := toOrdinal year 1 1
  let firstWeekday := weekday firstDay
  let monday := firstDay - firstWeekday
  if firstWeekday > 3 then monday + 7 else monday

/-- `iso_to_ymd`. -/
def isoToYmd (year week day : Nat) : Option (Nat × Nat × Nat) :=
  let firstWeekday := weekday (toOrdinal year 1 1)
  if year < 1 ∨ 9999 < year then none
  else if week = 0 ∨ 53 < week ∨
      (week = 53 ∧ ¬ (firstWeekday = 3 ∨ (firstWeekday = 2 ∧ isLeap year = true))) then none
  else if day = 0 ∨ 7 < day then none
  else some (ofOrdinal (isoWeek1Monday year + (week - 1) * 7 + (day - 1)))

/-! ## `DateTime` -/

/-- A `datetime`. `offset` is the UTC offset in microseconds, `none` for a naive one. -/
structure DateTime where
  year : Nat
  month : Nat
  day : Nat
  hour : Nat
  minute : Nat
  second : Nat
  microsecond : Nat
  offset : Option Int
  year_range : 1 ≤ year ∧ year ≤ 9999
  month_range : 1 ≤ month ∧ month ≤ 12
  day_range : 1 ≤ day ∧ day ≤ daysInMonth year month
  time_range : hour < 24 ∧ minute < 60 ∧ second < 60 ∧ microsecond < 1000000
  offset_range : ∀ o ∈ offset, -86400000000 < o ∧ o < 86400000000

/-- `datetime(year, month, day, …)`, or `none` where an argument is out of range. -/
def DateTime.make? (year month day hour minute second microsecond : Nat) (offset : Option Int) :
    Option DateTime :=
  if h1 : 1 ≤ year ∧ year ≤ 9999 then
    if h2 : 1 ≤ month ∧ month ≤ 12 then
      if h3 : 1 ≤ day ∧ day ≤ daysInMonth year month then
        if h4 : hour < 24 ∧ minute < 60 ∧ second < 60 ∧ microsecond < 1000000 then
          if h5 : ∀ o ∈ offset, -86400000000 < o ∧ o < 86400000000 then
            some ⟨year, month, day, hour, minute, second, microsecond, offset, h1, h2, h3, h4, h5⟩
          else none
        else none
      else none
    else none
  else none

/-- The date and time as microseconds since 1970-01-01T00:00, the offset left aside. -/
def DateTime.wallMicros (d : DateTime) : Int :=
  (((toOrdinal d.year d.month d.day : Int) - 719163) * 86400 + d.hour * 3600 + d.minute * 60 + d.second) *
    1000000 + d.microsecond

/-- The date and time `micros` after 1970-01-01T00:00, or `none` outside the years 1 to 9999. -/
def DateTime.ofWallMicros (micros : Int) (offset : Option Int) : Option DateTime :=
  let days := micros / 86400000000 + 719163
  let rest := (micros % 86400000000).toNat
  if days < 1 then none
  else
    let (year, month, day) := ofOrdinal days.toNat
    DateTime.make? year month day (rest / 3600000000) (rest / 60000000 % 60) (rest / 1000000 % 60)
      (rest % 1000000) offset

/-! ## Reading -/

/-- `p[i]`: past its end a C string reads as NUL. -/
def byteAt (s : Bytes) (i : Nat) : Nat := (s.getD i 0).toNat

def isDigit (b : Nat) : Bool := 0x30 ≤ b && b ≤ 0x39

/-- `parse_digits`: the number that the `n` digits from `i` on spell. -/
def parseDigits (s : Bytes) (i : Nat) : (n : Nat) → Option Nat
  | 0 => some 0
  | n + 1 =>
      match parseDigits s i n with
      | none => none
      | some v => if isDigit (byteAt s (i + n)) then some (v * 10 + (byteAt s (i + n) - 0x30)) else none

/-- The first position from `i` on that holds no digit. -/
def skipDigits (s : Bytes) : (fuel i : Nat) → Nat
  | 0, i => i
  | fuel + 1, i => if isDigit (byteAt s i) then skipDigits s fuel (i + 1) else i

/-- `_find_isoformat_datetime_separator`. -/
def findSeparator (s : Bytes) : Nat :=
  if s.length = 7 then 7
  else if byteAt s 4 = 0x2d then
    if byteAt s 5 = 0x57 then
      if byteAt s 8 = 0x2d then
        -- YYYY-Www-D or YYYY-Www-HH
        if 10 < s.length ∧ isDigit (byteAt s 10) = true then 8 else 10
      else 8
    else 10
  else if byteAt s 4 = 0x57 then
    let pos := skipDigits s (s.length - 7) 7
    if pos < 9 then pos else if pos % 2 = 0 then 7 else 8
  else 8

/-- `parse_isoformat_date` of the first `stop` bytes. -/
def parseDate (s : Bytes) (stop : Nat) : Option (Nat × Nat × Nat) := do
  let year ← parseDigits s 0 4
  let dashed := byteAt s 4 = 0x2d
  let p := if dashed then 5 else 4
  -- `W`: the date is a week of the year and a day of it, Monday when none is written
  if byteAt s p = 0x57 then
    let week ← parseDigits s (p + 1) 2
    if p + 3 < stop then
      let q := if dashed then p + 4 else p + 3
      if dashed ∧ byteAt s (p + 3) ≠ 0x2d then none
      else
        let day ← parseDigits s q 1
        isoToYmd year week day
    else isoToYmd year week 1
  else
    let month ← parseDigits s p 2
    let q := if dashed then p + 3 else p + 2
    if dashed ∧ byteAt s (p + 2) ≠ 0x2d then none
    else
      let day ← parseDigits s q 2
      -- the date must end where the clock begins
      if q + 2 = stop then some (year, month, day) else none

/-- The fields of a time, and whether text is left over behind them. -/
structure Clock where
  hour : Nat := 0
  minute : Nat := 0
  second : Nat := 0
  microsecond : Nat := 0
  leftover : Bool := false

/-- Store the `i`-th of hour, minute and second. -/
def Clock.put (t : Clock) (i v : Nat) : Clock :=
  match i with
  | 0 => { t with hour := v }
  | 1 => { t with minute := v }
  | _ => { t with second := v }

/-- The fraction that begins at `p`. -/
def parseFraction (s : Bytes) (stop : Nat) (t : Clock) (p : Nat) : Option Clock :=
  let n := min (stop - p) 6
  match parseDigits s p n with
  | none => none
  | some v =>
      some { t with
        microsecond := v * 10 ^ (6 - n)
        leftover := byteAt s (skipDigits s s.length (p + n)) ≠ 0 }

/-- `parse_hh_mm_ss_ff` from field `i` at `p` on; `fuel` fields are left, `colon` says that the fields
    are separated. -/
def parseClock (s : Bytes) (stop : Nat) : (fuel i : Nat) → (colon : Bool) → Clock → (p : Nat) → Option Clock
  | 0, _, _, t, p => parseFraction s stop t p
  | fuel + 1, i, colon, t, p =>
      match parseDigits s p 2 with
      | none => none
      | some v =>
          let t := t.put i v
          let c := byteAt s (p + 2)
          let colon := if i = 0 then c == 0x3a else colon
          -- the text ends here; a byte past the end is reported as left over
          if stop ≤ p + 3 then some { t with leftover := c ≠ 0 }
          else if colon ∧ c = 0x3a then parseClock s stop fuel (i + 1) colon t (p + 3)
          else if c = 0x2e ∨ c = 0x2c then parseFraction s stop t (p + 3)
          -- without colons, in the basic format, the pairs of digits follow each other
          else if !colon then parseClock s stop fuel (i + 1) colon t (p + 2)
          else none

/-- Where the offset begins: the first `+`, `-` or `Z`. -/
def findOffset (s : Bytes) : (fuel i : Nat) → Nat
  | 0, i => i
  | fuel + 1, i =>
      if byteAt s i = 0x2b ∨ byteAt s i = 0x2d ∨ byteAt s i = 0x5a then i else findOffset s fuel (i + 1)

/-- The offset in microseconds that the time `t` and a sign stand for. Below one second it counts as UTC. -/
def offsetMicros (neg : Bool) (t : Clock) : Int :=
  let seconds : Int := t.hour * 3600 + t.minute * 60 + t.second
  if seconds = 0 then 0
  else if neg then -(seconds * 1000000 + t.microsecond) else seconds * 1000000 + t.microsecond

/-- `parse_isoformat_time`: the fields and the offset. -/
def parseTime (s : Bytes) : Option (Clock × Option Int) :=
  let z := findOffset s (max s.length 1) 0
  match parseClock s z 3 0 true {} 0 with
  | none => none
  | some t =>
      if z = s.length then if t.leftover then none else some (t, none)
      else if byteAt s z = 0x5a then if byteAt s (z + 1) ≠ 0 then none else some (t, some 0)
      else
        match parseClock s s.length 3 0 true {} (z + 1) with
        | none => none
        | some o => if o.leftover then none else some (t, some (offsetMicros (byteAt s z = 0x2d) o))

/-- `_sanitize_isoformat_str`: a surrogate where the separator can be becomes `T`. -/
def sanitize (s : Str) : Str :=
  match [7, 8, 10].find? (fun i => (s[i]?).any isSurrogate) with
  | some i => s.set i (chr 'T')
  | none => s

/-- The bytes the character with lead byte `b` takes. -/
def widthOf (b : Nat) : Nat :=
  if b < 0x80 then 1 else if b / 16 = 14 then 3 else if b / 16 = 15 then 4 else 2

/-- The time behind the separator at `sep`; midnight when the text ends there. -/
def timePart (b : Bytes) (sep : Nat) : Option (Clock × Option Int) :=
  if sep < b.length then parseTime (b.drop (sep + widthOf (byteAt b sep))) else some ({}, none)

/-- `datetime.fromisoformat(s)` on the encoded text. -/
def fromIsoBytes (b : Bytes) : Option DateTime :=
  match parseDate b (findSeparator b), timePart b (findSeparator b) with
  | some (year, month, day), some (t, offset) =>
      DateTime.make? year month day t.hour t.minute t.second t.microsecond offset
  | _, _ => none

/-- `datetime.fromisoformat(s)`; it raises nothing but `ValueError`. -/
def fromisoformat (s : Str) : Except Exc DateTime :=
  if s.length < 7 then .error .valueError
  else
    match (utf8Encode (sanitize s)).bind fromIsoBytes with
    | some d => .ok d
    | none => .error .valueError

theorem fromisoformat_error {s : Str} {e : Exc} (h : fromisoformat s = .error e) : e = .valueError := by
  unfold fromisoformat at h
  split at h
  · exact (Except.error.inj h).symm
  · split at h
    · exact absurd h (by simp)
    · exact (Except.error.inj h).symm

/-- `datetime.fromtimestamp(ts, tz=timezone.utc)` for an `int`. `gmtime` fails where the year does not fit
    a C `int`. -/
def fromtimestamp (ts : Int) : Except Exc DateTime :=
  if ts < -(2 ^ 63) ∨ 2 ^ 63 ≤ ts then .error .overflowError
  else if ts < -67768040609740800 ∨ 67768036191676799 < ts then .error .osError
  else
    match DateTime.ofWallMicros (ts * 1000000) (some 0) with
    | some d => .ok d
    | none => .error .valueError

/-- The whole seconds and the microseconds of a float, the fraction rounded half to even. -/
def splitSeconds (x : Double) : Int × Int :=
  let den : Nat := 2 ^ (-x.exp).toNat
  let whole := x.trunc
  -- `modf` is exact, the product with 1000000 is rounded once more
  let y := Double.ofRatio ((x.mant * 2 ^ x.exp.toNat - whole * den) * 1000000) den
  let us : Int := roundEven (y.mant.natAbs * 2 ^ y.exp.toNat) (2 ^ (-y.exp).toNat)
  let us := if y.mant < 0 then -us else us
  if 1000000 ≤ us then (whole + 1, us - 1000000)
  else if us < 0 then (whole - 1, us + 1000000)
  else (whole, us)

/-- `datetime.fromtimestamp(ms / 1000, tz=timezone.utc)`. A quotient too large for a float and one too large
    for a C `time_t` are both an `OverflowError`. -/
def fromtimestampMs (ms : Int) : Except Exc DateTime :=
  let (ts, us) := splitSeconds (Double.ofRatio ms 1000)
  if ts < -(2 ^ 63) ∨ 2 ^ 63 ≤ ts then .error .overflowError
  else if ts < -67768040609740800 ∨ 67768036191676799 < ts then .error .osError
  else
    match DateTime.ofWallMicros (ts * 1000000 + us) (some 0) with
    | some d => .ok d
    | none => .error .valueError

/-! ## Writing -/

/-- The decimal digit `n % 10`. -/
def digitChr (n : Nat) : Chr := Fin.ofNat _ (0x30 + n % 10)

/-- `f"{n:0{width}d}"` for `n < 10 ^ width`. -/
def padded : (width n : Nat) → Str
  | 0, _ => []
  | width + 1, n => padded width (n / 10) ++ [digitChr n]

/-- The offset as `isoformat` writes it. -/
def offsetText : Option Int → Str
  | none => []
  | some o =>
      let micros := o.natAbs
      let seconds := micros / 1000000
      (if o < 0 then chr '-' else chr '+') :: padded 2 (seconds / 3600) ++ chr ':' ::
        padded 2 (seconds / 60 % 60) ++
        (if micros % 60000000 = 0 then [] else chr ':' :: padded 2 (seconds % 60)) ++
        (if micros % 1000000 = 0 then [] else chr '.' :: padded 6 (micros % 1000000))

/-- `d.isoformat()`. -/
def DateTime.isoformat (d : DateTime) : Str :=
  padded 4 d.year ++ chr '-' :: padded 2 d.month ++ chr '-' :: padded 2 d.day ++ chr 'T' ::
    padded 2 d.hour ++ chr ':' :: padded 2 d.minute ++ chr ':' :: padded 2 d.second ++
    (if d.microsecond = 0 then [] else chr '.' :: padded 6 d.microsecond) ++ offsetText d.offset

/-! ## Reading back what was written -/

/-- The bytes of ASCII text. -/
def ascii (s : Str) : Bytes := s.map (fun c => UInt8.ofNat c.val)

theorem ascii_append (s t : Str) : ascii (s ++ t) = ascii s ++ ascii t := List.map_append

theorem ascii_cons (c : Chr) (s : Str) : ascii (c :: s) = UInt8.ofNat c.val :: ascii s := rfl

theorem utf8Encode_ascii {s : Str} (h : ∀ c ∈ s, c.val < 0x80) : utf8Encode s = some (ascii s) := by
  have hany : s.any isSurrogate = false := by
    rw [List.any_eq_false]
    intro c hc
    have := h c hc
    simp [isSurrogate]
    omega
  rw [utf8Encode, hany, if_neg (by simp)]
  clear hany
  congr 1
  induction s with
  | nil => rfl
  | cons c s ih =>
      have hc := h c (by simp)
      rw [List.flatMap_cons, ih (fun d hd => h d (by simp [hd])), utf8Char,
        if_pos hc, ascii_cons, List.singleton_append]

theorem sanitize_ascii {s : Str} (h : ∀ c ∈ s, c.val < 0x80) : sanitize s = s := by
  have hnone : [7, 8, 10].find? (fun i => (s[i]?).any isSurrogate) = none := by
    rw [List.find?_eq_none]
    intro i _
    cases hi : s[i]? with
    | none => simp
    | some c =>
        have := h c (List.mem_of_getElem? hi)
        simp [isSurrogate]
        omega
  rw [sanitize, hnone]

theorem byteAt_eq {s : Bytes} {i : Nat} (p : Bytes) {b : UInt8} {q : Bytes} (hs : s = p ++ b :: q)
    (hi : p.length = i) : byteAt s i = b.toNat := by
  subst hs hi
  simp [byteAt]

theorem length_padded (w n : Nat) : (padded w n).length = w := by
  induction w generalizing n with
  | zero => rfl
  | succ w ih => simp [padded, ih]

theorem mem_padded {w n : Nat} {c : Chr} (h : c ∈ padded w n) : 0x30 ≤ c.val ∧ c.val ≤ 0x39 := by
  induction w generalizing n with
  | zero => exact absurd h (by simp [padded])
  | succ w ih =>
      rcases List.mem_append.mp h with h' | h'
      · exact ih h'
      · rw [List.mem_singleton] at h'
        subst h'
        simp [digitChr, Fin.ofNat]
        omega

/-- The digits of `n` at position `i` read as `n`. -/
theorem parseDigits_padded {s : Bytes} {i w n : Nat} (p : Bytes) {q : Bytes}
    (hs : s = p ++ (ascii (padded w n) ++ q)) (hi : p.length = i) (hn : n < 10 ^ w) :
    parseDigits s i w = some n := by
  induction w generalizing n q with
  | zero =>
      have : n = 0 := by simpa using hn
      subst this
      rfl
  | succ w ih =>
      have hdigit : (UInt8.ofNat (digitChr n).val).toNat = 0x30 + n % 10 := by
        have hval : (digitChr n).val = 0x30 + n % 10 := by
          simp [digitChr, Fin.ofNat]
          omega
        rw [hval, toNat_ofNat_lt (by omega)]
      have hs' : s = p ++ (ascii (padded w (n / 10)) ++ UInt8.ofNat (digitChr n).val :: q) := by
        rw [hs, padded, ascii_append]
        simp [ascii]
      have hlt : n / 10 < 10 ^ w := by
        rw [Nat.pow_succ] at hn
        omega
      have hbyte : byteAt s (i + w) = 0x30 + n % 10 := by
        rw [byteAt_eq (p ++ ascii (padded w (n / 10))) (by rw [hs', List.append_assoc])
          (by simp [ascii, length_padded, hi]), hdigit]
      rw [parseDigits, ih hs' hlt, hbyte]
      have hisDigit : isDigit (0x30 + n % 10) = true := by
        simp [isDigit]
        omega
      simp only [hisDigit, if_true]
      congr 1
      omega
theorem findOffset_eq {s : Bytes} (p : Bytes) {q : Bytes} {fuel i : Nat}
    (hp : ∀ b ∈ p, b.toNat ≠ 0x2b ∧ b.toNat ≠ 0x2d ∧ b.toNat ≠ 0x5a) (r : Bytes)
    (hs : s = r ++ (p ++ UInt8.ofNat 0x2b :: q)) (hi : r.length = i) (hfuel : p.length < fuel) :
    findOffset s fuel i = i + p.length := by
  induction p generalizing r i fuel with
  | nil =>
      obtain ⟨k, rfl⟩ : ∃ k, fuel = k + 1 := ⟨fuel - 1, by simp at hfuel; omega⟩
      rw [findOffset, byteAt_eq r (by rw [hs]; rfl) hi, if_pos (Or.inl (by decide))]
      simp
  | cons b p ih =>
      obtain ⟨k, rfl⟩ : ∃ k, fuel = k + 1 := ⟨fuel - 1, by simp at hfuel; omega⟩
      have hb := hp b (by simp)
      rw [findOffset, byteAt_eq r (by rw [hs]; rfl) hi, if_neg (by tauto),
        ih (fun b hb => hp b (by simp [hb])) (r ++ [b]) (by rw [hs]; simp) (by simp [hi])
          (by simp at hfuel; omega)]
      simp
      omega

/-- A field at `i` with a colon behind it is read, and the next one comes. -/
theorem parseClock_colon {s : Bytes} (p : Bytes) {q : Bytes} {v i n fuel stop : Nat} {t : Clock} {colon : Bool}
    (hv : v < 100) (hs : s = p ++ (ascii (padded 2 v) ++ UInt8.ofNat 0x3a :: q)) (hi : p.length = i)
    (hstop : i + 3 < stop) (hcolon : n = 0 ∨ colon = true) :
    parseClock s stop (fuel + 1) n colon t i = parseClock s stop fuel (n + 1) true (t.put n v) (i + 3) := by
  have hbyte : byteAt s (i + 2) = 0x3a :=
    byteAt_eq _ (hs.trans (List.append_assoc _ _ _).symm) (by simp [ascii, length_padded, hi])
  have htrue : (if n = 0 then byteAt s (i + 2) == 0x3a else colon) = true := by
    rw [hbyte]
    rcases hcolon with rfl | rfl <;> simp
  rw [parseClock, parseDigits_padded p hs hi hv]
  dsimp only
  rw [htrue, if_neg (by omega), if_pos ⟨rfl, hbyte⟩]

/-- Hours and minutes at `i` are read, and the seconds come next. -/
theorem parseClock_hm {s : Bytes} (p : Bytes) {q : Bytes} {h m i stop : Nat} (hh : h < 100) (hm : m < 100)
    (hs : s = p ++ (ascii (padded 2 h) ++ UInt8.ofNat 0x3a :: (ascii (padded 2 m) ++ UInt8.ofNat 0x3a :: q)))
    (hi : p.length = i) (hstop : i + 6 < stop) :
    parseClock s stop 3 0 true {} i = parseClock s stop 1 2 true { hour := h, minute := m } (i + 6) := by
  have hminutes : s = (p ++ (ascii (padded 2 h) ++ [UInt8.ofNat 0x3a])) ++ (ascii (padded 2 m) ++
      UInt8.ofNat 0x3a :: q) := by
    rw [hs]
    simp
  have hlength : (p ++ (ascii (padded 2 h) ++ [UInt8.ofNat 0x3a])).length = i + 3 := by
    simp [ascii, length_padded, hi]
  rw [parseClock_colon p hh hs hi (by omega) (Or.inl rfl),
    parseClock_colon _ hm hminutes hlength (by omega) (Or.inr rfl)]
  rfl

/-- `HH:MM` at `i`, and the text ends. -/
theorem parseClock_last {s : Bytes} (p : Bytes) {h m i : Nat} (hh : h < 100) (hm : m < 100)
    (hs : s = p ++ (ascii (padded 2 h) ++ UInt8.ofNat 0x3a :: (ascii (padded 2 m) ++ [])))
    (hi : p.length = i) :
    parseClock s s.length 3 0 true {} i = some { hour := h, minute := m } := by
  have hend : s.length = i + 5 := by
    rw [hs]
    simp [ascii, length_padded, hi]
  have hminutes : s = (p ++ (ascii (padded 2 h) ++ [UInt8.ofNat 0x3a])) ++ (ascii (padded 2 m) ++ []) := by
    rw [hs]
    simp
  have hlength : (p ++ (ascii (padded 2 h) ++ [UInt8.ofNat 0x3a])).length = i + 3 := by
    simp [ascii, length_padded, hi]
  have hbyte : byteAt s (i + 3 + 2) = 0 := by
    rw [byteAt, List.getD_eq_getElem?_getD, List.getElem?_eq_none (by omega)]
    rfl
  rw [parseClock_colon p hh hs hi (by omega) (Or.inl rfl), parseClock, parseDigits_padded _ hminutes hlength hm]
  simp only [hbyte, Clock.put]
  rw [if_pos (by omega)]
  simp

/-- The seconds at `i`, the last field before `stop`. -/
theorem parseClock_sec {s : Bytes} (p : Bytes) {q : Bytes} {sec i : Nat} (t : Clock) (hsec : sec < 100)
    (hs : s = p ++ (ascii (padded 2 sec) ++ q)) (hi : p.length = i) :
    parseClock s (i + 2) 1 2 true t i =
      some { t with second := sec, leftover := byteAt s (i + 2) ≠ 0 } := by
  rw [parseClock, parseDigits_padded p hs hi hsec]
  simp only [Clock.put]
  rw [if_pos (by omega)]

/-- The seconds at `i` and a fraction of six digits. -/
theorem parseClock_fraction {s : Bytes} (p : Bytes) {q : Bytes} {sec us i : Nat} (t : Clock)
    (hsec : sec < 100) (hus : us < 1000000)
    (hs : s = p ++ (ascii (padded 2 sec) ++ UInt8.ofNat 0x2e :: (ascii (padded 6 us) ++ q)))
    (hi : p.length = i) :
    ∃ leftover, parseClock s (i + 9) 1 2 true t i =
      some { t with second := sec, microsecond := us, leftover } := by
  have e2 : s = (p ++ (ascii (padded 2 sec) ++ [UInt8.ofNat 0x2e])) ++ (ascii (padded 6 us) ++ q) := by
    rw [hs]
    simp
  have b1 : byteAt s (i + 2) = 0x2e :=
    byteAt_eq _ (hs.trans (List.append_assoc _ _ _).symm) (by simp [ascii, length_padded, hi])
  have d2 := parseDigits_padded _ e2 (i := i + 3) (by simp [ascii, length_padded, hi]) hus
  have hn : min (i + 9 - (i + 3)) 6 = 6 := by omega
  rw [parseClock, parseDigits_padded p hs hi hsec]
  simp only [b1, Clock.put]
  rw [if_neg (by omega), if_neg (by simp), if_pos (by simp), parseFraction]
  simp only [hn, d2]
  exact ⟨_, by rw [Nat.sub_self, Nat.pow_zero, Nat.mul_one]⟩

/-- The text of a time, with its fraction. -/
def clockText (h m sec us : Nat) : Str :=
  padded 2 h ++ chr ':' :: padded 2 m ++ chr ':' :: padded 2 sec ++
    (if us = 0 then [] else chr '.' :: padded 6 us)

/-- A time carries none of the signs that begin an offset. -/
theorem mem_clockText {h m sec us : Nat} {c : Chr} (hc : c ∈ clockText h m sec us) :
    0x2e ≤ c.val ∧ c.val ≤ 0x3a := by
  have hdigit {w n : Nat} (hw : c ∈ padded w n) : 0x2e ≤ c.val ∧ c.val ≤ 0x3a := by
    have := mem_padded hw
    omega
  have hcolon (he : c = chr ':') : 0x2e ≤ c.val ∧ c.val ≤ 0x3a := he ▸ by decide
  have hdot (he : c = chr '.') : 0x2e ≤ c.val ∧ c.val ≤ 0x3a := he ▸ by decide
  unfold clockText at hc
  simp only [List.append_assoc, List.cons_append, List.mem_append, List.mem_cons] at hc
  rcases hc with hw | he | hw | he | hw | hf
  · exact hdigit hw
  · exact hcolon he
  · exact hdigit hw
  · exact hcolon he
  · exact hdigit hw
  · split at hf
    · exact absurd hf (by simp)
    · rcases List.mem_cons.mp hf with he | hw
      · exact hdot he
      · exact hdigit hw

theorem length_clockText (h m sec us : Nat) :
    (clockText h m sec us).length = if us = 0 then 8 else 15 := by
  unfold clockText
  split <;> simp [length_padded]

/-- A time followed by anything is read up to its end. -/
theorem parseClock_clockText {s q : Bytes} {h m sec us : Nat} (hh : h < 100) (hm : m < 100)
    (hsec : sec < 100) (hus : us < 1000000) (hs : s = ascii (clockText h m sec us) ++ q) :
    ∃ leftover, parseClock s (clockText h m sec us).length 3 0 true {} 0 =
      some ⟨h, m, sec, us, leftover⟩ := by
  rw [length_clockText]
  by_cases hz : us = 0
  · have hs' : s = [] ++ (ascii (padded 2 h) ++ UInt8.ofNat 0x3a :: (ascii (padded 2 m) ++
        UInt8.ofNat 0x3a :: (ascii (padded 2 sec) ++ q))) := by
      rw [hs, clockText, if_pos hz]
      simp [ascii_append, ascii_cons, chr]
    have hsec' : s = (ascii (padded 2 h) ++ UInt8.ofNat 0x3a :: (ascii (padded 2 m) ++
        [UInt8.ofNat 0x3a])) ++ (ascii (padded 2 sec) ++ q) := by
      rw [hs']
      simp
    rw [if_pos hz, parseClock_hm [] hh hm hs' List.length_nil (by omega),
      parseClock_sec _ _ hsec hsec' (by simp [ascii, length_padded]), hz]
    exact ⟨_, rfl⟩
  · have hs' : s = [] ++ (ascii (padded 2 h) ++ UInt8.ofNat 0x3a :: (ascii (padded 2 m) ++
        UInt8.ofNat 0x3a :: (ascii (padded 2 sec) ++ UInt8.ofNat 0x2e :: (ascii (padded 6 us) ++ q)))) := by
      rw [hs, clockText, if_neg hz]
      simp [ascii_append, ascii_cons, chr]
    have hsec' : s = (ascii (padded 2 h) ++ UInt8.ofNat 0x3a :: (ascii (padded 2 m) ++
        [UInt8.ofNat 0x3a])) ++ (ascii (padded 2 sec) ++ UInt8.ofNat 0x2e ::
          (ascii (padded 6 us) ++ q)) := by
      rw [hs']
      simp
    rw [if_neg hz, parseClock_hm [] hh hm hs' List.length_nil (by omega)]
    obtain ⟨leftover, hfrac⟩ := parseClock_fraction _ { hour := h, minute := m } hsec hus hsec'
      (i := 6) (by simp [ascii, length_padded])
    exact ⟨leftover, hfrac⟩

theorem parseTime_clockText {h m sec us : Nat} (hh : h < 100) (hm : m < 100) (hsec : sec < 100)
    (hus : us < 1000000) :
    ∃ leftover, parseTime (ascii (clockText h m sec us ++ offsetText (some 0))) =
      some (⟨h, m, sec, us, leftover⟩, some 0) := by
  set s := ascii (clockText h m sec us ++ offsetText (some 0)) with hs
  have hoff : ascii (offsetText (some 0)) = UInt8.ofNat 0x2b :: (ascii (padded 2 0) ++
      UInt8.ofNat 0x3a :: (ascii (padded 2 0) ++ [])) := by decide
  have hsplit : s = ascii (clockText h m sec us) ++ UInt8.ofNat 0x2b :: (ascii (padded 2 0) ++
      UInt8.ofNat 0x3a :: (ascii (padded 2 0) ++ [])) := by
    rw [hs, ascii_append, hoff]
  have hbody : (ascii (clockText h m sec us)).length = (clockText h m sec us).length := by
    simp [ascii]
  have hlen : s.length = (clockText h m sec us).length + 6 := by
    rw [hsplit]
    simp [ascii, length_padded]
  have hclean : ∀ b ∈ ascii (clockText h m sec us), b.toNat ≠ 0x2b ∧ b.toNat ≠ 0x2d ∧ b.toNat ≠ 0x5a := by
    intro b hb
    obtain ⟨c, hc, rfl⟩ := List.mem_map.mp hb
    have := mem_clockText hc
    rw [toNat_ofNat_lt (by omega)]
    omega
  have hz : findOffset s (max s.length 1) 0 = (clockText h m sec us).length := by
    rw [findOffset_eq _ hclean [] hsplit List.length_nil (by omega), hbody, Nat.zero_add]
  have hplus : byteAt s (clockText h m sec us).length = 0x2b := by
    rw [byteAt_eq _ hsplit hbody]
    decide
  have hlast : parseClock s s.length 3 0 true {} ((clockText h m sec us).length + 1) =
      some { hour := 0, minute := 0 } :=
    parseClock_last (ascii (clockText h m sec us) ++ [UInt8.ofNat 0x2b]) (by omega) (by omega)
      (by rw [hsplit]; simp) (by simp [hbody])
  obtain ⟨leftover, hclock⟩ := parseClock_clockText hh hm hsec hus hsplit
  refine ⟨leftover, ?_⟩
  rw [parseTime]
  simp only [hz, hclock, hplus]
  rw [if_neg (by omega), if_neg (by omega)]
  simp only [hlast]
  simp [offsetMicros]

/-- Only digits are read as digits. -/
theorem isDigit_of_parseDigits {s : Bytes} {i n v k : Nat} (h : parseDigits s i n = some v) (hk : k < n) :
    isDigit (byteAt s (i + k)) = true := by
  induction n generalizing v with
  | zero => omega
  | succ n ih =>
      rw [parseDigits] at h
      split at h
      · exact absurd h (by simp)
      · next hv =>
          split at h
          · next hd =>
              rcases Nat.lt_succ_iff_lt_or_eq.mp hk with hlt | rfl
              · exact ih hv hlt
              · exact hd
          · exact absurd h (by simp)

/-- A date followed by any separator is read up to it. -/
theorem parseDate_isoformat {s : Bytes} {y m d : Nat} {q : Bytes} (hy : y < 10000) (hm : m < 100)
    (hd : d < 100)
    (hs : s = ascii (padded 4 y) ++ UInt8.ofNat 0x2d :: (ascii (padded 2 m) ++ UInt8.ofNat 0x2d ::
      (ascii (padded 2 d) ++ q))) :
    parseDate s 10 = some (y, m, d) ∧ byteAt s 4 = 0x2d ∧ byteAt s 5 ≠ 0x57 := by
  have e2 : s = (ascii (padded 4 y) ++ [UInt8.ofNat 0x2d]) ++ (ascii (padded 2 m) ++ UInt8.ofNat 0x2d ::
      (ascii (padded 2 d) ++ q)) := by
    rw [hs]
    simp
  have e3 : s = (ascii (padded 4 y) ++ UInt8.ofNat 0x2d :: (ascii (padded 2 m) ++ [UInt8.ofNat 0x2d])) ++
      (ascii (padded 2 d) ++ q) := by
    rw [hs]
    simp
  have d1 : parseDigits s 0 4 = some y := parseDigits_padded [] hs rfl hy
  have d2 := parseDigits_padded _ e2 (i := 5) (by simp [ascii, length_padded]) hm
  have d3 := parseDigits_padded _ e3 (i := 8) (by simp [ascii, length_padded]) hd
  have b1 : byteAt s 4 = 0x2d := byteAt_eq _ hs (by simp [ascii, length_padded])
  have b2 : byteAt s 7 = 0x2d :=
    byteAt_eq _ (e2.trans (List.append_assoc _ _ _).symm) (by simp [ascii, length_padded])
  have hW : byteAt s 5 ≠ 0x57 := by
    have := isDigit_of_parseDigits d2 Nat.zero_lt_two
    intro h
    rw [Nat.add_zero, h] at this
    exact absurd this (by decide)
  exact ⟨by simp [parseDate, d1, b1, d2, b2, d3, hW], b1, hW⟩

theorem DateTime.make?_self (d : DateTime) :
    DateTime.make? d.year d.month d.day d.hour d.minute d.second d.microsecond d.offset = some d := by
  rw [DateTime.make?, dif_pos d.year_range, dif_pos d.month_range, dif_pos d.day_range,
    dif_pos d.time_range, dif_pos d.offset_range]

theorem daysInMonth_le (y m : Nat) : daysInMonth y m ≤ 31 := by
  unfold daysInMonth
  split
  · split <;> omega
  · split <;> omega

theorem DateTime.isoformat_eq {d : DateTime} (hutc : d.offset = some 0) :
    d.isoformat = padded 4 d.year ++ chr '-' :: (padded 2 d.month ++ chr '-' :: (padded 2 d.day ++ chr 'T' ::
      (clockText d.hour d.minute d.second d.microsecond ++ offsetText (some 0)))) := by
  rw [DateTime.isoformat, hutc, clockText]
  simp only [List.append_assoc, List.cons_append]

theorem DateTime.isoformat_ascii {d : DateTime} (hutc : d.offset = some 0) : ∀ c ∈ d.isoformat, c.val < 0x80 := by
  have hdigit {w n : Nat} {c : Chr} (hc : c ∈ padded w n) : c.val < 0x80 := by
    have := mem_padded hc
    omega
  have hoffset : ∀ c ∈ offsetText (some 0), c.val < 0x80 := by
    have hall : (offsetText (some 0)).all (fun c => c.val < 0x80) = true := by decide
    simpa using hall
  intro c hc
  rw [d.isoformat_eq hutc] at hc
  simp only [List.mem_append, List.mem_cons] at hc
  rcases hc with h | rfl | h | rfl | h | rfl | h | h
  · exact hdigit h
  · decide
  · exact hdigit h
  · decide
  · exact hdigit h
  · decide
  · have := mem_clockText h
    omega
  · exact hoffset c h

/-- **`fromisoformat` reads back what `isoformat` writes** for a UTC time. -/
theorem fromisoformat_isoformat {d : DateTime} (hutc : d.offset = some 0) :
    fromisoformat d.isoformat = .ok d := by
  have hy := d.year_range
  have hmo := d.month_range
  have hd := d.day_range
  have hdm := daysInMonth_le d.year d.month
  have ht := d.time_range
  have hsplit := d.isoformat_eq hutc
  have hascii := d.isoformat_ascii hutc
  set b := ascii d.isoformat with hb
  have hbytes : b = ascii (padded 4 d.year) ++ UInt8.ofNat 0x2d :: (ascii (padded 2 d.month) ++
      UInt8.ofNat 0x2d :: (ascii (padded 2 d.day) ++ UInt8.ofNat 0x54 ::
        ascii (clockText d.hour d.minute d.second d.microsecond ++ offsetText (some 0)))) := by
    rw [hb, hsplit]
    simp only [ascii_append, ascii_cons]
    rfl
  have hlen : d.isoformat.length = b.length := by rw [hb, ascii, List.length_map]
  have hlong : 18 < b.length := by
    rw [← hlen, hsplit]
    simp only [List.length_append, List.length_cons, length_padded, length_clockText]
    split <;> omega
  obtain ⟨hdate, b4, hW⟩ := parseDate_isoformat (y := d.year) (m := d.month) (d := d.day) (by omega)
    (by omega) (by omega) hbytes
  have hsep : findSeparator b = 10 := by
    rw [findSeparator, if_neg (by omega), if_pos b4, if_neg hW]
  have hT : b = (ascii (padded 4 d.year) ++ UInt8.ofNat 0x2d :: (ascii (padded 2 d.month) ++
      UInt8.ofNat 0x2d :: ascii (padded 2 d.day))) ++ UInt8.ofNat 0x54 ::
        ascii (clockText d.hour d.minute d.second d.microsecond ++ offsetText (some 0)) := by
    rw [hbytes]
    simp
  have b10 : byteAt b 10 = 0x54 := byteAt_eq _ hT (by simp [ascii, length_padded])
  have hdrop : b.drop (10 + widthOf 0x54) =
      ascii (clockText d.hour d.minute d.second d.microsecond ++ offsetText (some 0)) := by
    rw [hT, List.append_cons]
    exact List.drop_left' (by simp [ascii, length_padded, widthOf])
  obtain ⟨leftover, htime⟩ := parseTime_clockText (h := d.hour) (m := d.minute) (by omega) (by omega)
    (ht.2.2.1.trans (by omega) : d.second < 100) ht.2.2.2
  have hparsed : fromIsoBytes b = some d := by
    have htimePart : timePart b 10 = some (⟨d.hour, d.minute, d.second, d.microsecond, leftover⟩, some 0) := by
      rw [timePart, if_pos (by omega), b10, hdrop, htime]
    rw [fromIsoBytes, hsep, hdate, htimePart]
    simp only [← hutc, d.make?_self]
  rw [fromisoformat, if_neg (by omega), sanitize_ascii hascii, utf8Encode_ascii hascii]
  simp only [Option.bind_some, ← hb, hparsed]

/-! ## Arithmetic -/

/-- The host's local time zone, which Python consults for naive datetimes: `mktime` turns a local wall
    clock time (in microseconds) into seconds since the epoch, `gmtoff` is the UTC offset in seconds then. -/
structure LocalZone where
  mktime : DateTime → Except Exc Int
  gmtoff : Int → Except Exc Int

/-- The offset `d.astimezone` subtracts. -/
def DateTime.utcoffset (zone : LocalZone) (d : DateTime) : Except Exc Int :=
  match d.offset with
  | some o => .ok o
  | none =>
      match zone.mktime d with
      | .error e => .error e
      | .ok t =>
          match zone.gmtoff t with
          | .error e => .error e
          | .ok seconds => .ok (seconds * 1000000)

/-- `d.astimezone(timezone.utc)`. -/
def DateTime.astimezoneUtc (zone : LocalZone) (d : DateTime) : Except Exc DateTime :=
  match d.utcoffset zone with
  | .error e => .error e
  | .ok o =>
      match DateTime.ofWallMicros (d.wallMicros - o) (some 0) with
      | some u => .ok u
      | none => .error .overflowError

/-- `d.timestamp()`. -/
def DateTime.timestamp (zone : LocalZone) (d : DateTime) : Except Exc Double :=
  match d.offset with
  | some o => .ok (Double.ofRatio (d.wallMicros - o) 1000000)
  | none =>
      match zone.mktime d with
      | .error e => .error e
      | .ok t => .ok (Double.addInt t (Double.ofRatio d.microsecond 1000000))

/-- `int(datetime.fromisoformat(s).timestamp() * 1000)`. -/
def epochMs (zone : LocalZone) (s : Str) : Except Exc Int :=
  match fromisoformat s with
  | .error e => .error e
  | .ok d =>
      match d.timestamp zone with
      | .error e => .error e
      | .ok x => .ok (x.mulInt 1000).trunc

/-! ## The supported range -/

/-- The days from the first of `month` to the end of the `fuel`-th month after it. -/
def daysFrom (year : Nat) : (fuel month : Nat) → Nat
  | 0, month => daysInMonth year month
  | fuel + 1, month => daysInMonth year month + daysFrom year fuel (month + 1)

theorem monthDay_range {year fuel month n : Nat} (hm : 1 ≤ month) (hf : month + fuel = 12)
    (hn : n < daysFrom year fuel month) :
    (1 ≤ (monthDay year fuel month n).1 ∧ (monthDay year fuel month n).1 ≤ 12) ∧
      1 ≤ (monthDay year fuel month n).2 ∧
        (monthDay year fuel month n).2 ≤ daysInMonth year (monthDay year fuel month n).1 := by
  induction fuel generalizing month n with
  | zero =>
      simp only [daysFrom] at hn
      simp only [monthDay]
      omega
  | succ fuel ih =>
      simp only [daysFrom] at hn
      simp only [monthDay]
      split
      · next hlt => exact ⟨⟨hm, by omega⟩, by omega, by dsimp only; omega⟩
      · exact ih (by omega) (by omega) (by omega)

theorem daysFrom_year (year : Nat) : 365 ≤ daysFrom year 11 1 := by
  have hfeb : 28 ≤ daysInMonth year 2 := by
    unfold daysInMonth
    split
    · split <;> omega
    · omega
  have hsum : daysFrom year 11 1 = 31 + (daysInMonth year 2 + 306) := by
    simp [daysFrom, daysInMonth]
  omega

/-- The last day of the year 9999 is day 3652058, counted from 0: a year is given by its 400-, 100-, 4- and
    1-year cycles. -/
theorem cycles_le_iff (n n400 n100 n4 n1 : Nat) (h100 : n100 ≤ 3) (h1 : n1 ≤ 3) (h4 : n4 ≤ 24)
    (hlo : n400 * 146097 + n100 * 36524 + n4 * 1461 + n1 * 365 ≤ n)
    (hhi : n < n400 * 146097 + n100 * 36524 + n4 * 1461 + n1 * 365 + 365) :
    n400 * 400 + n100 * 100 + n4 * 4 + n1 + 1 ≤ 9999 ↔ n < 3652059 := by
  rcases Nat.lt_trichotomy n400 24 with h | rfl | h
  · omega
  · rcases Nat.lt_or_eq_of_le h100 with h | rfl
    · omega
    · rcases Nat.lt_or_eq_of_le h4 with h | rfl <;> omega
  · omega

/-- A day number gives a date, and its year is in range exactly when the number is. -/
theorem ofOrdinal_range {n : Nat} (hn : 1 ≤ n) :
    1 ≤ (ofOrdinal n).1 ∧ ((ofOrdinal n).1 ≤ 9999 ↔ n ≤ 3652059) ∧
      (1 ≤ (ofOrdinal n).2.1 ∧ (ofOrdinal n).2.1 ≤ 12) ∧
      (1 ≤ (ofOrdinal n).2.2 ∧ (ofOrdinal n).2.2 ≤ daysInMonth (ofOrdinal n).1 (ofOrdinal n).2.1) := by
  unfold ofOrdinal
  dsimp only
  split
  · next hlast =>
      refine ⟨by dsimp only; omega, ?_, by simp, by simp [daysInMonth]⟩
      dsimp only
      omega
  · next hlast =>
      have hmd := @monthDay_range ((n - 1) / 146097 * 400 + (n - 1) % 146097 / 36524 * 100 +
        (n - 1) % 146097 % 36524 / 1461 * 4 + (n - 1) % 146097 % 36524 % 1461 / 365 + 1) 11 1
        ((n - 1) % 146097 % 36524 % 1461 % 365) le_rfl rfl (lt_of_lt_of_le (by omega) (daysFrom_year _))
      have hyear := cycles_le_iff (n - 1) ((n - 1) / 146097) ((n - 1) % 146097 / 36524)
        ((n - 1) % 146097 % 36524 / 1461) ((n - 1) % 146097 % 36524 % 1461 / 365) (by omega) (by omega)
        (by omega) (by omega) (by omega)
      refine ⟨by dsimp only; omega, hyear.trans (by omega), hmd.1, hmd.2⟩

/-- Microseconds since the epoch within the years 1 to 9999. -/
def InRange (micros : Int) : Prop := -62135596800000000 ≤ micros ∧ micros < 253402300800000000

instance (micros : Int) : Decidable (InRange micros) := inferInstanceAs (Decidable (_ ∧ _))

theorem DateTime.make?_eq_some {year month day hour minute second us : Nat} {o : Option Int} {d : DateTime}
    (h : DateTime.make? year month day hour minute second us o = some d) :
    (1 ≤ year ∧ year ≤ 9999) ∧ d.offset = o := by
  unfold DateTime.make? at h
  split at h
  · next hy =>
      split at h
      · split at h
        · split at h
          · split at h
            · obtain rfl := Option.some.inj h
              exact ⟨hy, rfl⟩
            · exact absurd h (by simp)
          · exact absurd h (by simp)
        · exact absurd h (by simp)
      · exact absurd h (by simp)
  · exact absurd h (by simp)

theorem DateTime.ofWallMicros_offset {t : Int} {o : Option Int} {d : DateTime}
    (h : DateTime.ofWallMicros t o = some d) : d.offset = o := by
  unfold DateTime.ofWallMicros at h
  dsimp only at h
  split at h
  · exact absurd h (by simp)
  · exact (DateTime.make?_eq_some h).2

/-- **A UTC time exists exactly within the supported years.** -/
theorem DateTime.exists_ofWallMicros {t : Int} :
    (∃ d, DateTime.ofWallMicros t (some 0) = some d) ↔ InRange t := by
  unfold DateTime.ofWallMicros InRange
  dsimp only
  split
  · next hlt =>
      refine iff_of_false (by simp) (fun h => ?_)
      omega
  · next hge =>
      have hord := @ofOrdinal_range (t / 86400000000 + 719163).toNat (by omega)
      have hmax : (t / 86400000000 + 719163).toNat ≤ 3652059 ↔ t < 253402300800000000 := by omega
      constructor
      · rintro ⟨d, hd⟩
        have hyear := (DateTime.make?_eq_some hd).1.2
        exact ⟨by omega, hmax.mp (hord.2.1.mp hyear)⟩
      · rintro ⟨_, ht⟩
        refine Option.isSome_iff_exists.mp ?_
        rw [DateTime.make?, dif_pos ⟨hord.1, hord.2.1.mpr (hmax.mpr ht)⟩, dif_pos hord.2.2.1,
          dif_pos hord.2.2.2, dif_pos (by omega), dif_pos (by simp)]
        rfl

theorem exists_fromtimestamp {ts : Int} :
    (∃ d, fromtimestamp ts = .ok d) ↔ InRange (ts * 1000000) := by
  rw [← DateTime.exists_ofWallMicros]
  unfold fromtimestamp
  have hrange (h : ∃ d, DateTime.ofWallMicros (ts * 1000000) (some 0) = some d) :
      ¬ (ts < -(2 ^ 63) ∨ 2 ^ 63 ≤ ts) ∧ ¬ (ts < -67768040609740800 ∨ 67768036191676799 < ts) := by
    have := DateTime.exists_ofWallMicros.mp h
    unfold InRange at this
    omega
  by_cases h : ∃ d, DateTime.ofWallMicros (ts * 1000000) (some 0) = some d
  · obtain ⟨d, hd⟩ := h
    rw [if_neg (hrange ⟨d, hd⟩).1, if_neg (hrange ⟨d, hd⟩).2, hd]
    simp
  · refine iff_of_false ?_ h
    rintro ⟨d, hd⟩
    split at hd
    · exact absurd hd (by simp)
    · split at hd
      · exact absurd hd (by simp)
      · split at hd
        · next d' hd' => exact h ⟨d', hd'⟩
        · exact absurd hd (by simp)

/-- What is read from a Unix time is in UTC. -/
theorem fromtimestamp_offset {ts : Int} {d : DateTime} (h : fromtimestamp ts = .ok d) :
    d.offset = some 0 := by
  unfold fromtimestamp at h
  split at h
  · exact absurd h (by simp)
  · split at h
    · exact absurd h (by simp)
    · split at h
      · next d' hd' =>
          obtain rfl := Except.ok.inj h
          exact DateTime.ofWallMicros_offset hd'
      · exact absurd h (by simp)

/-- Converting to UTC fails with the error of reading the offset, or outside the supported years. -/
theorem DateTime.astimezoneUtc_cases (zone : LocalZone) (d : DateTime) :
    (∃ e, d.utcoffset zone = .error e ∧ d.astimezoneUtc zone = .error e) ∨
      ∃ o, d.utcoffset zone = .ok o ∧
        ((InRange (d.wallMicros - o) ∧ ∃ u, d.astimezoneUtc zone = .ok u ∧ u.offset = some 0) ∨
          (¬ InRange (d.wallMicros - o) ∧ d.astimezoneUtc zone = .error .overflowError)) := by
  unfold DateTime.astimezoneUtc
  cases ho : d.utcoffset zone with
  | error e => exact Or.inl ⟨e, rfl, rfl⟩
  | ok o =>
      refine Or.inr ⟨o, rfl, ?_⟩
      rw [← DateTime.exists_ofWallMicros]
      dsimp only
      cases hu : DateTime.ofWallMicros (d.wallMicros - o) (some 0) with
      | none => exact Or.inr ⟨by simp, rfl⟩
      | some u => exact Or.inl ⟨⟨u, rfl⟩, u, rfl, DateTime.ofWallMicros_offset hu⟩

/-- A time with an offset is read in milliseconds. -/
theorem epochMs_isoformat {d : DateTime} (hutc : d.offset = some 0) (zone : LocalZone) :
    ∃ ms, epochMs zone d.isoformat = .ok ms := by
  rw [epochMs, fromisoformat_isoformat hutc]
  simp [DateTime.timestamp, hutc]

end Py
