import Mathlib.Order.Fin.Basic
import Wikistream.Lib.TextOrder
import Wikistream.Python.DateTime

/-!
# `Python.TimeOrder` — times in UTC, as numbers and as texts

A UTC time is a number of microseconds, a date with a clock, and the text `isoformat` writes. The three are in one
order: every field of the text but the fraction has a fixed width, and a text without a fraction goes on with `+`,
which comes before the `.` of a fraction.

## Contents
- **The calendar is in order** (`toOrdinal_lt_iff`), and `ofOrdinal` inverts it (`toOrdinal_ofOrdinal`).
- **Microseconds** (`wallMicros_lt_iff`, `wallMicros_ofWallMicros`).
- **Texts** (`padded_lt_padded_iff`, `isoformat_lt_iff`).
- **`Instant`**: a moment within the supported years, with its text `iso`.
-/

namespace Py

open Lib

/-! ## The calendar -/

theorem daysBeforeMonth_succ {year month : Nat} (h : 1 ≤ month) :
    daysBeforeMonth year (month + 1) = daysBeforeMonth year month + daysInMonth year month := by
  obtain ⟨m, rfl⟩ : ∃ m, month = m + 1 := ⟨month - 1, by omega⟩
  unfold daysBeforeMonth
  simp only [Nat.add_sub_cancel, List.range_succ, List.map_append, List.map_cons, List.map_nil, List.sum_append,
    List.sum_cons, List.sum_nil, Nat.add_zero]

/-- A month is over before a later one begins. -/
theorem daysBeforeMonth_le {year month month' : Nat} (h : 1 ≤ month) (hlt : month < month') :
    daysBeforeMonth year month + daysInMonth year month ≤ daysBeforeMonth year month' := by
  induction month' with
  | zero => omega
  | succ m ih =>
      rw [daysBeforeMonth_succ (by omega)]
      rcases Nat.lt_succ_iff_lt_or_eq.mp hlt with hlt' | rfl
      · exact (ih hlt').trans (Nat.le_add_right _ _)
      · exact le_rfl

/-- The days of a year. -/
theorem daysBeforeMonth_year (year : Nat) : daysBeforeMonth year 13 = if isLeap year then 366 else 365 := by
  have hsum : daysBeforeMonth year 13 = daysInMonth year 2 + 337 := by
    simp [daysBeforeMonth, List.range_succ, daysInMonth]
    omega
  rw [hsum, daysInMonth, if_pos rfl]
  split <;> rfl

theorem daysBeforeYear_succ {year : Nat} (h : 1 ≤ year) :
    daysBeforeYear (year + 1) = daysBeforeYear year + if isLeap year then 366 else 365 := by
  obtain ⟨k, rfl⟩ : ∃ k, year = k + 1 := ⟨year - 1, by omega⟩
  have hle : k / 100 ≤ k := Nat.div_le_self k 100
  have h100 : (k + 1) % 400 = 0 → (k + 1) % 100 = 0 := by omega
  have h4 : (k + 1) % 100 = 0 → (k + 1) % 4 = 0 := by omega
  unfold daysBeforeYear isLeap
  dsimp only
  rw [Nat.add_sub_cancel, Nat.add_sub_cancel, Nat.succ_div, Nat.succ_div, Nat.succ_div]
  simp only [Nat.dvd_iff_mod_eq_zero, Bool.and_eq_true, Bool.or_eq_true, decide_eq_true_eq]
  generalize k / 4 = a, k / 100 = b, k / 400 = c at hle ⊢
  generalize (k + 1) % 4 = x, (k + 1) % 100 = y, (k + 1) % 400 = z at h4 h100 ⊢
  split_ifs <;> omega

/-- A year is over before a later one begins. -/
theorem daysBeforeYear_le {year year' : Nat} (h : 1 ≤ year) (hlt : year < year') :
    daysBeforeYear year + daysBeforeMonth year 13 ≤ daysBeforeYear year' := by
  rw [daysBeforeMonth_year]
  induction year' with
  | zero => omega
  | succ y ih =>
      rcases Nat.lt_succ_iff_lt_or_eq.mp hlt with hlt' | rfl
      · rw [daysBeforeYear_succ (by omega)]
        exact (ih hlt').trans (Nat.le_add_right _ _)
      · rw [daysBeforeYear_succ h]

/-- The year of a day. -/
theorem toOrdinal_range {year month day : Nat} (hmonth : 1 ≤ month ∧ month ≤ 12)
    (hday : 1 ≤ day ∧ day ≤ daysInMonth year month) :
    daysBeforeYear year < toOrdinal year month day ∧
      toOrdinal year month day ≤ daysBeforeYear year + daysBeforeMonth year 13 := by
  have hle := @daysBeforeMonth_le year month 13 hmonth.1 (by omega)
  unfold toOrdinal
  omega

theorem toOrdinal_lt {y y' m m' d d' : Nat} (hy : 1 ≤ y) (hm : 1 ≤ m ∧ m ≤ 12) (hd : 1 ≤ d ∧ d ≤ daysInMonth y m)
    (hm' : 1 ≤ m' ∧ m' ≤ 12) (hd' : 1 ≤ d' ∧ d' ≤ daysInMonth y' m')
    (h : y < y' ∨ y = y' ∧ (m < m' ∨ m = m' ∧ d < d')) : toOrdinal y m d < toOrdinal y' m' d' := by
  rcases h with hlt | ⟨rfl, hlt | ⟨rfl, hlt⟩⟩
  · have hover := daysBeforeYear_le hy hlt
    have := toOrdinal_range hm hd
    have := toOrdinal_range hm' hd'
    omega
  · have hover := @daysBeforeMonth_le y m m' hm.1 hlt
    unfold toOrdinal
    omega
  · unfold toOrdinal
    omega

/-- **The days are in the order of the dates.** -/
theorem toOrdinal_lt_iff {y y' m m' d d' : Nat} (hy : 1 ≤ y) (hm : 1 ≤ m ∧ m ≤ 12)
    (hd : 1 ≤ d ∧ d ≤ daysInMonth y m) (hy' : 1 ≤ y') (hm' : 1 ≤ m' ∧ m' ≤ 12)
    (hd' : 1 ≤ d' ∧ d' ≤ daysInMonth y' m') :
    toOrdinal y m d < toOrdinal y' m' d' ↔ y < y' ∨ y = y' ∧ (m < m' ∨ m = m' ∧ d < d') := by
  refine ⟨fun hlt => ?_, toOrdinal_lt hy hm hd hm' hd'⟩
  rcases Nat.lt_trichotomy y y' with h | rfl | h
  · exact Or.inl h
  · rcases Nat.lt_trichotomy m m' with h | rfl | h
    · exact Or.inr ⟨rfl, Or.inl h⟩
    · unfold toOrdinal at hlt
      exact Or.inr ⟨rfl, Or.inr ⟨rfl, by omega⟩⟩
    · have hback := toOrdinal_lt hy hm' hd' hm hd (Or.inr ⟨rfl, Or.inl h⟩)
      exact absurd hlt hback.asymm
  · have hback := toOrdinal_lt hy' hm' hd' hm hd (Or.inl h)
    exact absurd hlt hback.asymm

theorem toOrdinal_inj {y y' m m' d d' : Nat} (hy : 1 ≤ y) (hm : 1 ≤ m ∧ m ≤ 12)
    (hd : 1 ≤ d ∧ d ≤ daysInMonth y m) (hy' : 1 ≤ y') (hm' : 1 ≤ m' ∧ m' ≤ 12)
    (hd' : 1 ≤ d' ∧ d' ≤ daysInMonth y' m') :
    toOrdinal y m d = toOrdinal y' m' d' ↔ y = y' ∧ m = m' ∧ d = d' := by
  refine ⟨fun heq => ?_, fun ⟨hyear, hmonth, hday⟩ => hyear ▸ hmonth ▸ hday ▸ rfl⟩
  have hlt := not_congr (toOrdinal_lt_iff hy hm hd hy' hm' hd')
  have hgt := not_congr (toOrdinal_lt_iff hy' hm' hd' hy hm hd)
  have hle := hlt.mp heq.not_lt
  have hge := hgt.mp heq.not_gt
  omega

/-- The day a month and a day are told from. -/
theorem daysBeforeMonth_monthDay {year fuel month n : Nat} (hm : 1 ≤ month) :
    daysBeforeMonth year (monthDay year fuel month n).1 + (monthDay year fuel month n).2 =
      daysBeforeMonth year month + n + 1 := by
  induction fuel generalizing month n with
  | zero => simp [monthDay, Nat.add_assoc]
  | succ fuel ih =>
      simp only [monthDay]
      split
      · simp [Nat.add_assoc]
      · rw [ih (by omega), daysBeforeMonth_succ hm]
        omega

/-- The days before a year, by the cycles of 400, 100, 4 years and single years. -/
theorem daysBeforeYear_cycles (a : Nat) {b c d : Nat} (hb : b ≤ 3) (hc : c ≤ 24) (hd : d ≤ 3) :
    daysBeforeYear (a * 400 + b * 100 + c * 4 + d + 1) = a * 146097 + b * 36524 + c * 1461 + d * 365 := by
  have h4 : (a * 400 + b * 100 + c * 4 + d) / 4 = a * 100 + b * 25 + c := by omega
  have h100 : (a * 400 + b * 100 + c * 4 + d) / 100 = a * 4 + b := by omega
  have h400 : (a * 400 + b * 100 + c * 4 + d) / 400 = a := by omega
  unfold daysBeforeYear
  dsimp only
  rw [Nat.add_sub_cancel, h4, h100, h400]
  omega

/-- The last day of a leap year that ends a cycle of 4 or of 400 years. -/
theorem toOrdinal_last (a : Nat) {b c : Nat} (hb : b ≤ 3) (hc : c ≤ 24) (hleap : c < 24 ∨ b = 3) :
    toOrdinal (a * 400 + b * 100 + c * 4 + 4) 12 31 = a * 146097 + b * 36524 + c * 1461 + 1461 := by
  have hyear : daysBeforeYear (a * 400 + b * 100 + c * 4 + 4) = a * 146097 + b * 36524 + c * 1461 + 3 * 365 :=
    daysBeforeYear_cycles a hb hc (Nat.le_refl 3)
  have hleapYear : isLeap (a * 400 + b * 100 + c * 4 + 4) = true := by
    unfold isLeap
    simp only [Bool.and_eq_true, Bool.or_eq_true, decide_eq_true_eq]
    omega
  have hdays := daysBeforeMonth_year (a * 400 + b * 100 + c * 4 + 4)
  rw [if_pos hleapYear, daysBeforeMonth_succ (by decide : 1 ≤ 12)] at hdays
  have hdecember : daysInMonth (a * 400 + b * 100 + c * 4 + 4) 12 = 31 := rfl
  unfold toOrdinal
  omega

/-- **`ofOrdinal` inverts `toOrdinal`.** -/
theorem toOrdinal_ofOrdinal {n : Nat} (hn : 1 ≤ n) :
    toOrdinal (ofOrdinal n).1 (ofOrdinal n).2.1 (ofOrdinal n).2.2 = n := by
  unfold ofOrdinal
  dsimp only
  rw [Nat.add_sub_cancel]
  -- the cycles that are over, and the days of the last year
  generalize ha : (n - 1) / 146097 = a
  generalize hr : (n - 1) % 146097 = r
  generalize hb : r / 36524 = b
  generalize hr' : r % 36524 = r'
  generalize hc : r' / 1461 = c
  generalize hr'' : r' % 1461 = r''
  generalize hd : r'' / 365 = d
  generalize hday : r'' % 365 = day
  split
  · next hlast =>
      dsimp only
      rcases hlast with rfl | rfl
      · rw [toOrdinal_last a (by omega) (by omega) (by omega)]
        omega
      · obtain ⟨rfl, rfl⟩ : c = 0 ∧ d = 0 := by omega
        have hcentury := toOrdinal_last a (Nat.le_refl 3) (Nat.le_refl 24) (Or.inr rfl)
        rw [show a * 400 + 4 * 100 + 0 * 4 + 0 = a * 400 + 3 * 100 + 24 * 4 + 4 by omega, hcentury]
        omega
  · next hlast =>
      have hmonth := @daysBeforeMonth_monthDay (a * 400 + b * 100 + c * 4 + d + 1) 11 1 day le_rfl
      have hyear := daysBeforeYear_cycles a (by omega : b ≤ 3) (by omega : c ≤ 24) (by omega : d ≤ 3)
      have hjanuary : daysBeforeMonth (a * 400 + b * 100 + c * 4 + d + 1) 1 = 0 := rfl
      unfold toOrdinal
      dsimp only
      omega

/-! ## Microseconds -/

variable {d d' : DateTime}

/-- The seconds since midnight. -/
def DateTime.clockSeconds (d : DateTime) : Nat := d.hour * 3600 + d.minute * 60 + d.second

theorem DateTime.wallMicros_eq (d : DateTime) :
    d.wallMicros = (((toOrdinal d.year d.month d.day : Int) - 719163) * 86400 + d.clockSeconds) * 1000000 +
      d.microsecond := by
  unfold DateTime.wallMicros DateTime.clockSeconds
  omega

theorem DateTime.clockSeconds_lt (d : DateTime) : d.clockSeconds < 86400 := by
  have := d.time_range
  unfold DateTime.clockSeconds
  omega

/-- **Microseconds are in the order of the days, the seconds and the fractions.** -/
theorem DateTime.wallMicros_lt_iff :
    d.wallMicros < d'.wallMicros ↔
      toOrdinal d.year d.month d.day < toOrdinal d'.year d'.month d'.day ∨
        toOrdinal d.year d.month d.day = toOrdinal d'.year d'.month d'.day ∧
          (d.clockSeconds < d'.clockSeconds ∨ d.clockSeconds = d'.clockSeconds ∧ d.microsecond < d'.microsecond) := by
  have := d.clockSeconds_lt
  have := d'.clockSeconds_lt
  have := d.time_range.2.2.2
  have := d'.time_range.2.2.2
  rw [d.wallMicros_eq, d'.wallMicros_eq]
  omega

theorem DateTime.make?_fields {year month day hour minute second us : Nat} {o : Option Int}
    (h : DateTime.make? year month day hour minute second us o = some d) :
    (d.year = year ∧ d.month = month ∧ d.day = day) ∧
      (d.hour = hour ∧ d.minute = minute ∧ d.second = second ∧ d.microsecond = us) := by
  unfold DateTime.make? at h
  split at h
  · split at h
    · split at h
      · split at h
        · split at h
          · obtain rfl := Option.some.inj h
            exact ⟨⟨rfl, rfl, rfl⟩, rfl, rfl, rfl, rfl⟩
          · exact absurd h (by simp)
        · exact absurd h (by simp)
      · exact absurd h (by simp)
    · exact absurd h (by simp)
  · exact absurd h (by simp)

/-- **The time of a number of microseconds has that number.** -/
theorem DateTime.wallMicros_ofWallMicros {t : Int} {o : Option Int} (h : DateTime.ofWallMicros t o = some d) :
    d.wallMicros = t := by
  unfold DateTime.ofWallMicros at h
  dsimp only at h
  split at h
  · exact absurd h (by simp)
  · next hge =>
      have hordinal := @toOrdinal_ofOrdinal (t / 86400000000 + 719163).toNat (by omega)
      obtain ⟨⟨hy, hm, hday⟩, hh, hmin, hs, hus⟩ := DateTime.make?_fields h
      rw [d.wallMicros_eq, hy, hm, hday, hordinal, hus]
      unfold DateTime.clockSeconds
      rw [hh, hmin, hs]
      omega

/-! ## Texts -/

theorem digitChr_lt_iff {n m : Nat} : digitChr n < digitChr m ↔ n % 10 < m % 10 := by
  rw [Fin.lt_def]
  simp only [digitChr, Fin.ofNat]
  omega

theorem padded_inj {w n m : Nat} (hn : n < 10 ^ w) (hm : m < 10 ^ w) : padded w n = padded w m ↔ n = m := by
  refine ⟨fun h => ?_, fun h => h ▸ rfl⟩
  induction w generalizing n m with
  | zero => omega
  | succ w ih =>
      rw [Nat.pow_succ] at hn hm
      obtain ⟨hhead, hlast⟩ := List.append_inj' h rfl
      have hdigit : n % 10 = m % 10 := by
        have hval := congrArg Fin.val (List.singleton_inj.mp hlast)
        simp only [digitChr, Fin.ofNat] at hval
        omega
      have := ih (by omega) (by omega) hhead
      omega

/-- **Padded numbers are in the order of the numbers.** -/
theorem padded_lt_padded_iff {w n m : Nat} (hn : n < 10 ^ w) (hm : m < 10 ^ w) :
    padded w n < padded w m ↔ n < m := by
  induction w generalizing n m with
  | zero =>
      obtain ⟨rfl, rfl⟩ : n = 0 ∧ m = 0 := by simpa using And.intro hn hm
      simp
  | succ w ih =>
      rw [Nat.pow_succ] at hn hm
      have hhead := @ih (n / 10) (m / 10) (by omega) (by omega)
      rw [padded, padded, append_lt_append_iff (by rw [length_padded, length_padded]), hhead,
        padded_inj (by omega) (by omega), List.cons_lt_cons_iff, digitChr_lt_iff]
      simp only [List.lt_irrefl, and_false, or_false]
      omega

/-- A padded number in front decides as the number does. -/
theorem padded_append_lt_iff {w n m : Nat} (hn : n < 10 ^ w) (hm : m < 10 ^ w) {s t : Str} :
    padded w n ++ s < padded w m ++ t ↔ n < m ∨ n = m ∧ s < t := by
  rw [append_lt_append_iff (by rw [length_padded, length_padded]), padded_lt_padded_iff hn hm, padded_inj hn hm]

/-- The fraction `isoformat` writes. -/
def fractionText (us : Nat) : Str := if us = 0 then [] else chr '.' :: padded 6 us

/-- **The fraction is left out of a text with none**, and `+` comes before `.`. -/
theorem fractionText_lt_iff {us us' : Nat} (hus : us < 1000000) (hus' : us' < 1000000) :
    fractionText us ++ offsetText (some 0) < fractionText us' ++ offsetText (some 0) ↔ us < us' := by
  have hoffset : offsetText (some 0) = chr '+' :: lit "00:00" := by decide
  have hplus : chr '+' < chr '.' := by decide
  unfold fractionText
  by_cases h : us = 0
  · by_cases h' : us' = 0
    · rw [if_pos h, if_pos h', h, h']
      exact iff_of_false (List.lt_irrefl _) (Nat.lt_irrefl 0)
    · rw [if_pos h, if_neg h', hoffset, List.nil_append, List.cons_append, List.cons_lt_cons_iff]
      exact iff_of_true (Or.inl hplus) (by omega)
  · by_cases h' : us' = 0
    · rw [if_neg h, if_pos h', hoffset, List.nil_append, List.cons_append, List.cons_lt_cons_iff]
      refine iff_of_false ?_ (by omega)
      rintro (hlt | ⟨heq, _⟩)
      · exact absurd hplus hlt.asymm
      · exact hplus.ne heq.symm
    · rw [if_neg h, if_neg h', List.cons_append, List.cons_append, cons_lt_cons_same, padded_append_lt_iff hus hus']
      simp

theorem clockText_eq (h m sec us : Nat) :
    clockText h m sec us = padded 2 h ++ chr ':' :: (padded 2 m ++ chr ':' :: (padded 2 sec ++ fractionText us)) := by
  unfold clockText fractionText
  simp only [List.append_assoc, List.cons_append]

theorem DateTime.clockText_lt_iff :
    clockText d.hour d.minute d.second d.microsecond ++ offsetText (some 0) <
        clockText d'.hour d'.minute d'.second d'.microsecond ++ offsetText (some 0) ↔
      d.clockSeconds < d'.clockSeconds ∨ d.clockSeconds = d'.clockSeconds ∧ d.microsecond < d'.microsecond := by
  have ht := d.time_range
  have ht' := d'.time_range
  rw [clockText_eq, clockText_eq]
  simp only [List.append_assoc, List.cons_append]
  rw [padded_append_lt_iff (by omega) (by omega), cons_lt_cons_same, padded_append_lt_iff (by omega) (by omega),
    cons_lt_cons_same, padded_append_lt_iff (by omega) (by omega),
    fractionText_lt_iff ht.2.2.2 ht'.2.2.2]
  unfold DateTime.clockSeconds
  omega

/-- **UTC times sort as texts the way they sort as times.** -/
theorem DateTime.isoformat_lt_iff (hutc : d.offset = some 0) (hutc' : d'.offset = some 0) :
    d.isoformat < d'.isoformat ↔ d.wallMicros < d'.wallMicros := by
  have hy := d.year_range
  have hm := d.month_range
  have hday := d.day_range
  have hy' := d'.year_range
  have hm' := d'.month_range
  have hday' := d'.day_range
  have := daysInMonth_le d.year d.month
  have := daysInMonth_le d'.year d'.month
  rw [d.isoformat_eq hutc, d'.isoformat_eq hutc', DateTime.wallMicros_lt_iff, ← DateTime.clockText_lt_iff,
    toOrdinal_lt_iff hy.1 hm hday hy'.1 hm' hday', toOrdinal_inj hy.1 hm hday hy'.1 hm' hday',
    padded_append_lt_iff (by omega) (by omega), cons_lt_cons_same, padded_append_lt_iff (by omega) (by omega),
    cons_lt_cons_same, padded_append_lt_iff (by omega) (by omega), cons_lt_cons_same]
  tauto

/-! ## Instants -/

/-- A moment within the years a `datetime` can have. -/
@[ext]
structure Instant where
  micros : Int
  in_range : InRange micros

namespace Instant

instance : LinearOrder Instant := LinearOrder.lift' micros (fun _ _ h => Instant.ext h)

variable {t t' : Instant}

theorem lt_def : t < t' ↔ t.micros < t'.micros := Iff.rfl

theorem le_def : t ≤ t' ↔ t.micros ≤ t'.micros := Iff.rfl

/-- The `datetime` in UTC. -/
def dateTime (t : Instant) : DateTime :=
  (DateTime.ofWallMicros t.micros (some 0)).get
    (Option.isSome_iff_exists.mpr (DateTime.exists_ofWallMicros.mpr t.in_range))

/-- Its `isoformat`. -/
def iso (t : Instant) : Str := t.dateTime.isoformat

theorem ofWallMicros_micros (t : Instant) : DateTime.ofWallMicros t.micros (some 0) = some t.dateTime :=
  (Option.some_get _).symm

theorem dateTime_offset (t : Instant) : t.dateTime.offset = some 0 :=
  DateTime.ofWallMicros_offset t.ofWallMicros_micros

theorem wallMicros_dateTime (t : Instant) : t.dateTime.wallMicros = t.micros :=
  DateTime.wallMicros_ofWallMicros t.ofWallMicros_micros

/-- A UTC time made from microseconds is that of an instant. -/
theorem exists_of_ofWallMicros {micros : Int} {d : DateTime} (h : DateTime.ofWallMicros micros (some 0) = some d) :
    ∃ t : Instant, t.micros = micros ∧ t.dateTime = d := by
  let t : Instant := ⟨micros, DateTime.exists_ofWallMicros.mp ⟨d, h⟩⟩
  exact ⟨t, rfl, Option.some.inj (t.ofWallMicros_micros.symm.trans h)⟩

/-- **Instants sort by their texts.** -/
theorem iso_lt_iff : t.iso < t'.iso ↔ t < t' := by
  unfold iso
  rw [DateTime.isoformat_lt_iff t.dateTime_offset t'.dateTime_offset, wallMicros_dateTime, wallMicros_dateTime, lt_def]

theorem iso_le_iff : t.iso ≤ t'.iso ↔ t ≤ t' := by
  rw [← not_lt, iso_lt_iff, not_lt]

theorem iso_inj : t.iso = t'.iso ↔ t = t' := by
  rw [le_antisymm_iff, iso_le_iff, iso_le_iff, le_antisymm_iff]

/-- The text is read back as the instant. -/
theorem fromisoformat_iso (t : Instant) : fromisoformat t.iso = .ok t.dateTime :=
  fromisoformat_isoformat t.dateTime_offset

end Instant

end Py
