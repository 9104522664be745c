import Mathlib.Data.Finset.Image
import Mathlib.Order.Monotone.Basic
import Wikistream.Lib.Dict
import Wikistream.Python.Str

/-!
# `Processors.Windows` — edits per page per minute, and where it is safe to commit

The state behind `trending.py`: one table of open windows per partition, keyed by page and minute, with
the watermark, the minutes already written and the lowest offset behind a partial total.

## Contents
- **The state** (`PartitionState`, `MinuteWindows`) and its three operations: `add` counts one event,
  `popClosed` removes and returns the windows the stream has moved past, `commitOffsets` says how far each
  partition may be committed. A sentinel of `-1` stands for "none yet" in `firstOffset`, `lastOffset` and
  `partialFloor`, as in the source.
- **One partition at a time** (`partitionOf_add`, `partitionOf_popClosed`, `partitionOf_revoke`): every
  operation acts on a partition through `addTo` and `popState` alone.
- **The cap** (`enforceCap_of_le`, `size_addTo_le`).
- **What a flush leaves** (`get?_popState`, `mem_flushedMinutes_popState`, `partialFloor_popState`).
-/

namespace Wikistream
namespace Windows

open Lib

def minuteMs : Int := 60000
def defaultLatenessMs : Int := 2 * minuteMs
def maxWindowsPerPartition : Nat := 200000

structure WindowKey where
  wiki : Py.Str
  title : Py.Str
  minute : Int
  deriving DecidableEq

structure Window where
  count : Nat := 0
  firstOffset : Int := -1
  deriving DecidableEq

def Window.add (w : Window) (offset : Int) : Window where
  count := w.count + 1
  firstOffset := if w.firstOffset < 0 ∨ offset < w.firstOffset then offset else w.firstOffset

structure ClosedWindow where
  wiki : Py.Str
  title : Py.Str
  minuteMs : Int
  count : Nat
  deriving DecidableEq

/-- The key the row of a closed window is stored under. -/
def ClosedWindow.key (c : ClosedWindow) : WindowKey := ⟨c.wiki, c.title, c.minuteMs⟩

structure PartitionState where
  windows : Dict WindowKey Window := Dict.empty
  lastOffset : Int := -1
  flushedMinutes : Finset Int := ∅
  watermarkMs : Int := 0
  /-- Lowest offset behind a partial total written by a final flush. -/
  partialFloor : Int := -1

def minuteStart (eventTimeMs : Int) : Int := eventTimeMs / minuteMs * minuteMs

/-- The two settings of a `MinuteWindows`. -/
structure Config where
  latenessMs : Int := defaultLatenessMs
  maxWindows : Nat := maxWindowsPerPartition

structure MinuteWindows where
  partitions : Dict Nat PartitionState := Dict.empty
  lateEvents : Nat := 0
  counted : Nat := 0

/-- The arguments of `add`, the partition aside. -/
structure Edit where
  offset : Nat
  wiki : Py.Str
  title : Py.Str
  eventTimeMs : Int
  deriving DecidableEq

def Edit.key (e : Edit) : WindowKey := ⟨e.wiki, e.title, minuteStart e.eventTimeMs⟩

variable (cfg : Config)

/-- Minutes starting before this are finished on the partition. -/
def closedBefore (state : PartitionState) : Int := minuteStart (state.watermarkMs - cfg.latenessMs)

/-! ## Adding an event -/

/-- Drop every window of the oldest minute and mark the minute as written. -/
def forceOutOldest (state : PartitionState) : PartitionState :=
  match (state.windows.keys.map WindowKey.minute).min? with
  | none => state
  | some oldest =>
      { state with
        windows := state.windows.filter (fun k _ => k.minute ≠ oldest)
        flushedMinutes := insert oldest state.flushedMinutes }

/-- The `while` loop of `_enforce_cap`. Every round removes a window, so as many rounds as there are
    windows are enough (`size_enforceCap_le`). -/
def enforceCapLoop : Nat → PartitionState → PartitionState
  | 0, state => state
  | rounds + 1, state =>
      if cfg.maxWindows < state.windows.size then enforceCapLoop rounds (forceOutOldest state)
      else state

def enforceCap (state : PartitionState) : PartitionState :=
  enforceCapLoop cfg state.windows.size state

/-- The first two assignments of `add`: the offset and the watermark move whatever the event is. -/
def observed (state : PartitionState) (e : Edit) : PartitionState :=
  { state with
    lastOffset := max state.lastOffset e.offset
    watermarkMs := max state.watermarkMs e.eventTimeMs }

/-- The minute is past the close cutoff, or it was written before and has no open window for the page. -/
def isLate (state : PartitionState) (e : Edit) : Prop :=
  e.key.minute < closedBefore cfg state ∨
    (e.key.minute ∈ state.flushedMinutes ∧ e.key ∉ state.windows.keys)

instance (state : PartitionState) (e : Edit) : Decidable (isLate cfg state e) :=
  inferInstanceAs (Decidable (_ ∨ _))

def addWindow (state : PartitionState) (e : Edit) : PartitionState :=
  { state with
    windows := state.windows.set e.key (((state.windows.get? e.key).getD {}).add e.offset) }

/-- What `add` does to the state of the event's partition, and whether the event counted. -/
def addTo (state : PartitionState) (e : Edit) : Bool × PartitionState :=
  let state := observed state e
  if isLate cfg state e then (false, state)
  else (true, enforceCap cfg (addWindow state e))

/-- Count one edit. Returns `false` when the event arrived too late. -/
def add (m : MinuteWindows) (partition : Nat) (e : Edit) : Bool × MinuteWindows :=
  -- a partition seen for the first time starts with no window
  let result := addTo cfg ((m.partitions.get? partition).getD {}) e
  (result.1,
    { partitions := m.partitions.set partition result.2
      lateEvents := if result.1 then m.lateEvents else m.lateEvents + 1
      counted := if result.1 then m.counted + 1 else m.counted })

/-! ## Closing windows -/

/-- Whether `popClosed` takes the window under `key`. -/
def isDone (final : Bool) (cutoff : Int) (key : WindowKey) : Bool := final || key.minute < cutoff

/-- The windows `popClosed` takes from one partition, in the order of the dictionary. -/
def done (final : Bool) (state : PartitionState) : List (WindowKey × Window) :=
  state.windows.entries.filter (fun e => isDone final (closedBefore cfg state) e.1)

/-- How one popped window moves the partial floor: a window that is written before its minute is over
    pulls the floor down to its first offset. -/
def lowerFloor (final : Bool) (cutoff : Int) (floor : Int) (e : WindowKey × Window) : Int :=
  if final ∧ cutoff ≤ e.1.minute then
    if floor < 0 then e.2.firstOffset else min floor e.2.firstOffset
  else floor

def closedWindow (e : WindowKey × Window) : ClosedWindow :=
  ⟨e.1.wiki, e.1.title, e.1.minute, e.2.count⟩

/-- The state of one partition after `popClosed`. Minutes below the cutoff are rejected anyway, so they
    are forgotten. -/
def popState (final : Bool) (state : PartitionState) : PartitionState :=
  let cutoff := closedBefore cfg state
  let taken := done cfg final state
  { state with
    windows := state.windows.filter (fun k _ => !isDone final cutoff k)
    flushedMinutes :=
      (state.flushedMinutes ∪ (taken.map (fun e => e.1.minute)).toFinset).filter (cutoff ≤ ·)
    partialFloor := taken.foldl (lowerFloor final cutoff) state.partialFloor }

/-- What `popClosed` returns for one partition. -/
def popRows (final : Bool) (state : PartitionState) : List ClosedWindow :=
  (done cfg final state).map closedWindow

/-- Remove and return every window the stream has moved past; with `final`, every window. -/
def popClosed (m : MinuteWindows) (final : Bool) : List ClosedWindow × MinuteWindows :=
  (m.partitions.values.flatMap (popRows cfg final),
    { m with partitions := m.partitions.mapVals (popState cfg final) })

/-! ## Committing -/

/-- Offset to commit for one partition: the oldest offset still needed, if anything was read. -/
def commitOffset (state : PartitionState) : Option Int :=
  let floored := fun offset => if 0 ≤ state.partialFloor then min offset state.partialFloor else offset
  match (state.windows.values.map Window.firstOffset).min? with
  | some oldest => some (floored oldest)
  | none => if 0 ≤ state.lastOffset then some (floored (state.lastOffset + 1)) else none

/-- Offset to commit per partition. -/
def commitOffsets (m : MinuteWindows) : Dict Nat Int := m.partitions.filterMapVals commitOffset

/-- Drop state for partitions now owned by another instance. -/
def revoke (m : MinuteWindows) (partitions : List Nat) : MinuteWindows :=
  { m with partitions := partitions.foldl Dict.erase m.partitions }

variable {cfg}

/-! ## Minutes -/

theorem minuteStart_le (t : Int) : minuteStart t ≤ t := by
  unfold minuteStart minuteMs
  omega

theorem minuteStart_mono {a b : Int} (h : a ≤ b) : minuteStart a ≤ minuteStart b := by
  unfold minuteStart minuteMs
  omega

theorem minuteStart_minuteStart (t : Int) : minuteStart (minuteStart t) = minuteStart t := by
  unfold minuteStart minuteMs
  omega

theorem closedBefore_eq {s s' : PartitionState} (h : s.watermarkMs = s'.watermarkMs) :
    closedBefore cfg s = closedBefore cfg s' := by
  unfold closedBefore
  rw [h]

theorem closedBefore_mono {s s' : PartitionState} (h : s.watermarkMs ≤ s'.watermarkMs) :
    closedBefore cfg s ≤ closedBefore cfg s' := minuteStart_mono (by omega)

/-! ## One window -/

@[simp] theorem Window.add_count (w : Window) (o : Int) : (w.add o).count = w.count + 1 := rfl

theorem Window.add_firstOffset_fresh (o : Int) : (Window.add {} o).firstOffset = o := by
  simp [Window.add]

theorem Window.add_firstOffset_nonneg (w : Window) {o : Int} (ho : 0 ≤ o) : 0 ≤ (w.add o).firstOffset := by
  show 0 ≤ if w.firstOffset < 0 ∨ o < w.firstOffset then o else w.firstOffset
  split
  · exact ho
  · next hnot => exact Int.not_lt.mp (not_or.mp hnot).1

theorem Window.add_firstOffset_le (w : Window) (o : Int) : (w.add o).firstOffset ≤ o := by
  show (if w.firstOffset < 0 ∨ o < w.firstOffset then o else w.firstOffset) ≤ o
  split
  · exact le_refl _
  · next hnot => exact Int.not_lt.mp (not_or.mp hnot).2

/-- The first offset of a window that is open only moves back. -/
theorem Window.add_firstOffset_le_self {w : Window} (o : Int) (hw : 0 ≤ w.firstOffset) :
    (w.add o).firstOffset ≤ w.firstOffset := by
  show (if w.firstOffset < 0 ∨ o < w.firstOffset then o else w.firstOffset) ≤ w.firstOffset
  split
  · next hor => exact (hor.resolve_left (Int.not_lt.mpr hw)).le
  · exact le_refl _

/-- An offset past the first one leaves the first one alone. -/
theorem Window.add_firstOffset_of_le {w : Window} {o : Int} (hw : 0 ≤ w.firstOffset)
    (h : w.firstOffset ≤ o) : (w.add o).firstOffset = w.firstOffset := by
  show (if w.firstOffset < 0 ∨ o < w.firstOffset then o else w.firstOffset) = _
  rw [if_neg (by omega)]

/-! ## One partition at a time -/

/-- The state of a partition: a fresh one until its first event. -/
def partitionOf (m : MinuteWindows) (p : Nat) : PartitionState := (m.partitions.get? p).getD {}

theorem add_fst (m : MinuteWindows) (p : Nat) (e : Edit) :
    (add cfg m p e).1 = (addTo cfg (partitionOf m p) e).1 := rfl

theorem partitionOf_add (m : MinuteWindows) (q : Nat) (e : Edit) (p : Nat) :
    partitionOf (add cfg m q e).2 p =
      if p = q then (addTo cfg (partitionOf m q) e).2 else partitionOf m p := by
  show (((m.partitions.set q _).get? p).getD {}) = _
  rw [Dict.get?_set]
  split <;> rfl

theorem popState_fresh (final : Bool) : popState cfg final ({} : PartitionState) = {} := by
  simp [popState, done, Dict.empty, Dict.filter]

theorem partitionOf_popClosed (m : MinuteWindows) (final : Bool) (p : Nat) :
    partitionOf (popClosed cfg m final).2 p = popState cfg final (partitionOf m p) := by
  show ((m.partitions.mapVals (popState cfg final)).get? p).getD {} = _
  rw [Dict.get?_mapVals]
  unfold partitionOf
  cases m.partitions.get? p with
  | none => exact (popState_fresh final).symm
  | some s => rfl

theorem get?_commitOffsets (m : MinuteWindows) (p : Nat) :
    (commitOffsets m).get? p = commitOffset (partitionOf m p) := by
  unfold commitOffsets partitionOf
  rw [Dict.get?_filterMapVals]
  cases m.partitions.get? p <;> rfl

theorem get?_revoke (m : MinuteWindows) (ps : List Nat) (p : Nat) :
    (revoke m ps).partitions.get? p = if p ∈ ps then none else m.partitions.get? p :=
  Dict.get?_foldl_erase _ _ _

theorem partitionOf_revoke (m : MinuteWindows) {ps : List Nat} {p : Nat} (h : p ∉ ps) :
    partitionOf (revoke m ps) p = partitionOf m p := by
  unfold partitionOf
  rw [get?_revoke, if_neg h]

/-- The rows of a flush come from the partitions' own states. -/
theorem mem_popClosed {m : MinuteWindows} {final : Bool} {r : ClosedWindow} :
    r ∈ (popClosed cfg m final).1 ↔
      ∃ p s, m.partitions.get? p = some s ∧ r ∈ popRows cfg final s := by
  show r ∈ m.partitions.values.flatMap _ ↔ _
  rw [List.mem_flatMap]
  constructor
  · rintro ⟨s, hs, hr⟩
    obtain ⟨p, hp⟩ := Dict.mem_values_iff.mp hs
    exact ⟨p, s, hp, hr⟩
  · rintro ⟨p, s, hp, hr⟩
    exact ⟨s, Dict.mem_values_iff.mpr ⟨p, hp⟩, hr⟩

/-! ## The cap -/

theorem forceOutOldest_windows_sublist (s : PartitionState) :
    (forceOutOldest s).windows.entries.Sublist s.windows.entries := by
  unfold forceOutOldest
  split
  · exact List.Sublist.refl _
  · exact List.filter_sublist

theorem size_forceOutOldest_lt {s : PartitionState} (h : s.windows.entries ≠ []) :
    (forceOutOldest s).windows.size < s.windows.size := by
  unfold forceOutOldest
  split
  · next hmin =>
      rw [List.min?_eq_none_iff, List.map_eq_nil_iff] at hmin
      exact absurd (List.map_eq_nil_iff.mp hmin) h
  · next oldest hmin =>
      obtain ⟨k, hk, hkm⟩ := List.mem_map.mp (List.min?_mem hmin)
      obtain ⟨e, he, rfl⟩ := List.mem_map.mp hk
      exact List.length_filter_lt_length_iff_exists.mpr ⟨e, he, by simp [hkm]⟩

/-- What a round of `_enforce_cap` cannot change. -/
structure CapFrame (s s' : PartitionState) : Prop where
  lastOffset : s'.lastOffset = s.lastOffset
  watermarkMs : s'.watermarkMs = s.watermarkMs
  partialFloor : s'.partialFloor = s.partialFloor
  windows : s'.windows.entries.Sublist s.windows.entries

theorem capFrame_refl (s : PartitionState) : CapFrame s s := ⟨rfl, rfl, rfl, List.Sublist.refl _⟩

theorem capFrame_forceOutOldest (s : PartitionState) : CapFrame s (forceOutOldest s) := by
  refine ⟨?_, ?_, ?_, forceOutOldest_windows_sublist s⟩ <;>
    (unfold forceOutOldest; split <;> rfl)

theorem CapFrame.trans {s s' s'' : PartitionState} (h : CapFrame s s') (h' : CapFrame s' s'') :
    CapFrame s s'' where
  lastOffset := h'.lastOffset.trans h.lastOffset
  watermarkMs := h'.watermarkMs.trans h.watermarkMs
  partialFloor := h'.partialFloor.trans h.partialFloor
  windows := h'.windows.trans h.windows

theorem capFrame_enforceCapLoop (n : Nat) (s : PartitionState) :
    CapFrame s (enforceCapLoop cfg n s) := by
  induction n generalizing s with
  | zero => exact capFrame_refl s
  | succ n ih =>
      unfold enforceCapLoop
      split
      · exact (capFrame_forceOutOldest s).trans (ih _)
      · exact capFrame_refl s

theorem capFrame_enforceCap (s : PartitionState) : CapFrame s (enforceCap cfg s) :=
  capFrame_enforceCapLoop _ s

theorem size_enforceCapLoop_le {n : Nat} {s : PartitionState} (h : s.windows.size ≤ n) :
    (enforceCapLoop cfg n s).windows.size ≤ cfg.maxWindows := by
  induction n generalizing s with
  | zero => exact h.trans (Nat.zero_le _)
  | succ n ih =>
      unfold enforceCapLoop
      split
      · next hlt =>
          have hne : s.windows.entries ≠ [] := by
            intro hnil
            simp [Dict.size, hnil] at hlt
          exact ih (Nat.le_of_lt_succ ((size_forceOutOldest_lt hne).trans_le h))
      · next hle => exact Nat.le_of_not_lt hle

/-- The loop of `_enforce_cap` ends under the cap. -/
theorem size_enforceCap_le (s : PartitionState) :
    (enforceCap cfg s).windows.size ≤ cfg.maxWindows := size_enforceCapLoop_le (le_refl _)

theorem enforceCap_of_le {s : PartitionState} (h : s.windows.size ≤ cfg.maxWindows) :
    enforceCap cfg s = s := by
  unfold enforceCap
  cases s.windows.size with
  | zero => rfl
  | succ n =>
      unfold enforceCapLoop
      rw [if_neg (Nat.not_lt.mpr h)]

/-! ## What one event changes -/

@[simp] theorem observed_windows (s : PartitionState) (e : Edit) :
    (observed s e).windows = s.windows := rfl

@[simp] theorem observed_flushedMinutes (s : PartitionState) (e : Edit) :
    (observed s e).flushedMinutes = s.flushedMinutes := rfl

theorem addTo_fst (s : PartitionState) (e : Edit) :
    (addTo cfg s e).1 = true ↔ ¬ isLate cfg (observed s e) e := by
  unfold addTo
  by_cases h : isLate cfg (observed s e) e <;> simp [h]

theorem addTo_of_late {s : PartitionState} {e : Edit} (h : isLate cfg (observed s e) e) :
    addTo cfg s e = (false, observed s e) := if_pos h

theorem addTo_of_not_late {s : PartitionState} {e : Edit} (h : ¬ isLate cfg (observed s e) e) :
    addTo cfg s e = (true, enforceCap cfg (addWindow (observed s e) e)) := if_neg h

theorem addTo_lastOffset (s : PartitionState) (e : Edit) :
    (addTo cfg s e).2.lastOffset = max s.lastOffset e.offset := by
  by_cases h : isLate cfg (observed s e) e
  · rw [addTo_of_late h]; rfl
  · rw [addTo_of_not_late h, (capFrame_enforceCap _).lastOffset]; rfl

theorem addTo_watermarkMs (s : PartitionState) (e : Edit) :
    (addTo cfg s e).2.watermarkMs = max s.watermarkMs e.eventTimeMs := by
  by_cases h : isLate cfg (observed s e) e
  · rw [addTo_of_late h]; rfl
  · rw [addTo_of_not_late h, (capFrame_enforceCap _).watermarkMs]; rfl

theorem addTo_partialFloor (s : PartitionState) (e : Edit) :
    (addTo cfg s e).2.partialFloor = s.partialFloor := by
  by_cases h : isLate cfg (observed s e) e
  · rw [addTo_of_late h]; rfl
  · rw [addTo_of_not_late h, (capFrame_enforceCap _).partialFloor]; rfl

/-- Every window after an event was there before or belongs to the event. -/
theorem get?_addTo_isSome {s : PartitionState} {e : Edit} {k : WindowKey} {w : Window}
    (h : (addTo cfg s e).2.windows.get? k = some w) :
    (k = e.key ∧ (addTo cfg s e).1 = true) ∨ s.windows.get? k = some w := by
  by_cases hl : isLate cfg (observed s e) e
  · rw [addTo_of_late hl] at h
    exact Or.inr h
  · rw [addTo_of_not_late hl] at h
    have hmem : (k, w) ∈ (enforceCap cfg (addWindow (observed s e) e)).windows.entries :=
      Dict.mem_entries_iff.mpr h
    have hset := Dict.mem_entries_iff.mp ((capFrame_enforceCap _).windows.subset hmem)
    by_cases hk : k = e.key
    · exact Or.inl ⟨hk, by rw [addTo_of_not_late hl]⟩
    · rw [addWindow, Dict.get?_set_ne _ _ hk] at hset
      exact Or.inr hset

theorem size_addTo_le {s : PartitionState} {e : Edit} (h : s.windows.size ≤ cfg.maxWindows) :
    (addTo cfg s e).2.windows.size ≤ cfg.maxWindows := by
  by_cases hl : isLate cfg (observed s e) e
  · rw [addTo_of_late hl]
    exact h
  · rw [addTo_of_not_late hl]
    exact size_enforceCap_le _

/-- Counting the event takes the partition no further than the cap. -/
def Fits (cfg : Config) (s : PartitionState) (e : Edit) : Prop :=
  ¬ isLate cfg (observed s e) e → (addWindow (observed s e) e).windows.size ≤ cfg.maxWindows

instance (s : PartitionState) (e : Edit) : Decidable (Fits cfg s e) :=
  inferInstanceAs (Decidable (_ → _))

/-- Under the cap an event that counts adds one to its window and touches nothing else. -/
theorem addTo_of_fits {s : PartitionState} {e : Edit} (hf : Fits cfg s e)
    (h : ¬ isLate cfg (observed s e) e) :
    addTo cfg s e = (true, addWindow (observed s e) e) := by
  rw [addTo_of_not_late h, enforceCap_of_le (hf h)]

theorem get?_addWindow (s : PartitionState) (e : Edit) (k : WindowKey) :
    (addWindow s e).windows.get? k =
      if k = e.key then some (((s.windows.get? e.key).getD {}).add e.offset)
      else s.windows.get? k := Dict.get?_set _ _ _ _

/-! ## What a flush leaves -/

theorem closedBefore_popState (final : Bool) (s : PartitionState) :
    closedBefore cfg (popState cfg final s) = closedBefore cfg s := rfl

theorem get?_popState (final : Bool) (s : PartitionState) (k : WindowKey) :
    (popState cfg final s).windows.get? k =
      if isDone final (closedBefore cfg s) k then none else s.windows.get? k := by
  show (s.windows.filter _).get? k = _
  rw [Dict.get?_filter]
  by_cases h : isDone final (closedBefore cfg s) k
  · cases s.windows.get? k <;> simp [h]
  · cases s.windows.get? k <;> simp [h]

theorem mem_done {final : Bool} {s : PartitionState} {e : WindowKey × Window} :
    e ∈ done cfg final s ↔
      s.windows.get? e.1 = some e.2 ∧ isDone final (closedBefore cfg s) e.1 = true := by
  unfold done
  rw [List.mem_filter, Dict.mem_entries_iff]

theorem mem_flushedMinutes_popState {final : Bool} {s : PartitionState} {m : Int} :
    m ∈ (popState cfg final s).flushedMinutes ↔
      closedBefore cfg s ≤ m ∧
        (m ∈ s.flushedMinutes ∨
          ∃ k ∈ s.windows.keys, isDone final (closedBefore cfg s) k = true ∧ k.minute = m) := by
  show m ∈ Finset.filter _ (_ ∪ _) ↔ _
  rw [Finset.mem_filter, Finset.mem_union, and_comm, List.mem_toFinset, List.mem_map]
  refine and_congr_right fun _ => or_congr_right ⟨?_, ?_⟩
  · rintro ⟨e, he, rfl⟩
    obtain ⟨hget, hdone⟩ := mem_done.mp he
    exact ⟨e.1, Dict.mem_keys_iff.mpr ⟨e.2, hget⟩, hdone, rfl⟩
  · rintro ⟨k, hk, hdone, rfl⟩
    obtain ⟨w, hw⟩ := Dict.mem_keys_iff.mp hk
    exact ⟨(k, w), mem_done.mpr ⟨hw, hdone⟩, rfl⟩

theorem foldl_lowerFloor_of_lt {final : Bool} {cutoff : Int} {es : List (WindowKey × Window)}
    (h : final = true → ∀ e ∈ es, e.1.minute < cutoff) (floor : Int) :
    es.foldl (lowerFloor final cutoff) floor = floor := by
  induction es with
  | nil => rfl
  | cons e es ih =>
      have he : lowerFloor final cutoff floor e = floor := by
        unfold lowerFloor
        refine if_neg ?_
        rintro ⟨hf, hle⟩
        exact absurd (h hf e List.mem_cons_self) (not_lt.mpr hle)
      rw [List.foldl_cons, he]
      exact ih (fun hf d hd => h hf d (List.mem_cons_of_mem _ hd))

/-- Only a final flush that takes a window before its minute is over moves the partial floor. -/
theorem partialFloor_popState {final : Bool} {s : PartitionState}
    (h : final = true → ∀ k ∈ s.windows.keys, k.minute < closedBefore cfg s) :
    (popState cfg final s).partialFloor = s.partialFloor := by
  refine foldl_lowerFloor_of_lt (fun hf e he => h hf e.1 ?_) _
  exact Dict.mem_keys_iff.mpr ⟨e.2, (mem_done.mp he).1⟩

theorem mem_popRows {final : Bool} {s : PartitionState} {r : ClosedWindow} :
    r ∈ popRows cfg final s ↔
      ∃ k w, s.windows.get? k = some w ∧ isDone final (closedBefore cfg s) k = true ∧
        r = ⟨k.wiki, k.title, k.minute, w.count⟩ := by
  unfold popRows
  rw [List.mem_map]
  constructor
  · rintro ⟨e, he, rfl⟩
    obtain ⟨hget, hdone⟩ := mem_done.mp he
    exact ⟨e.1, e.2, hget, hdone, rfl⟩
  · rintro ⟨k, w, hget, hdone, rfl⟩
    exact ⟨(k, w), mem_done.mpr ⟨hget, hdone⟩, rfl⟩

/-! ## Where a partition may be committed -/

/-- Without a partial floor, the commit point is the lowest first offset of an open window, and one past
    the last offset when no window is open. -/
theorem commitOffset_spec {s : PartitionState} (hf : s.partialFloor < 0) {c : Int}
    (h : commitOffset s = some c) :
    (∀ k w, s.windows.get? k = some w → c ≤ w.firstOffset) ∧
      ((∃ k w, s.windows.get? k = some w ∧ w.firstOffset = c) ∨
        ((∀ k, s.windows.get? k = none) ∧ 0 ≤ s.lastOffset ∧ c = s.lastOffset + 1)) := by
  have hfloor : ¬ 0 ≤ s.partialFloor := not_le.mpr hf
  unfold commitOffset at h
  simp only [hfloor, if_false] at h
  split at h
  · next oldest hmin =>
      obtain rfl := Option.some.inj h
      rw [List.min?_eq_some_iff] at hmin
      obtain ⟨w, hw, hwo⟩ := List.mem_map.mp hmin.1
      obtain ⟨k, hk⟩ := Dict.mem_values_iff.mp hw
      refine ⟨fun k' w' hk' => hmin.2 _ ?_, Or.inl ⟨k, w, hk, hwo⟩⟩
      exact List.mem_map.mpr ⟨w', Dict.mem_values_iff.mpr ⟨k', hk'⟩, rfl⟩
  · next hmin =>
      rw [List.min?_eq_none_iff, List.map_eq_nil_iff] at hmin
      have hnone : ∀ k, s.windows.get? k = none :=
        Dict.entries_eq_nil_iff.mp (List.map_eq_nil_iff.mp hmin)
      split at h
      · next hlast =>
          refine ⟨fun k w hk => ?_, Or.inr ⟨hnone, hlast, (Option.some.inj h).symm⟩⟩
          rw [hnone k] at hk
          exact absurd hk (by simp)
      · exact absurd h (by simp)

/-- The first offsets of the windows whose minute is not over, in dictionary order. -/
def liveOffsets (cutoff : Int) (es : List (WindowKey × Window)) : List Int :=
  (es.filter (fun e => cutoff ≤ e.1.minute)).map (fun e => e.2.firstOffset)

theorem liveOffsets_cons (cutoff : Int) (e : WindowKey × Window) (es : List (WindowKey × Window)) :
    liveOffsets cutoff (e :: es) =
      if cutoff ≤ e.1.minute then e.2.firstOffset :: liveOffsets cutoff es
      else liveOffsets cutoff es := by
  unfold liveOffsets
  split
  · next h => rw [List.filter_cons_of_pos (by simpa using h), List.map_cons]
  · next h => rw [List.filter_cons_of_neg (by simpa using h)]

theorem foldl_lowerFloor_of_nonneg {cutoff floor : Int} (hf : 0 ≤ floor)
    {es : List (WindowKey × Window)} (hes : ∀ e ∈ es, 0 ≤ e.2.firstOffset) :
    es.foldl (lowerFloor true cutoff) floor = (liveOffsets cutoff es).foldl min floor := by
  induction es generalizing floor with
  | nil => rfl
  | cons e es ih =>
      have he := hes e List.mem_cons_self
      have hrest := fun d hd => hes d (List.mem_cons_of_mem _ hd)
      rw [List.foldl_cons, liveOffsets_cons]
      by_cases hlive : cutoff ≤ e.1.minute
      · have hhead : lowerFloor true cutoff floor e = min floor e.2.firstOffset := by
          simp [lowerFloor, hlive, not_lt.mpr hf]
        rw [if_pos hlive, List.foldl_cons, hhead]
        exact ih (le_min hf he) hrest
      · have hhead : lowerFloor true cutoff floor e = floor := by simp [lowerFloor, hlive]
        rw [if_neg hlive, hhead]
        exact ih hf hrest

/-- A final flush from a partition without a partial floor sets it to the lowest first offset of a
    window it takes too early. -/
theorem foldl_lowerFloor {cutoff : Int} {es : List (WindowKey × Window)}
    (hes : ∀ e ∈ es, 0 ≤ e.2.firstOffset) :
    es.foldl (lowerFloor true cutoff) (-1) = (liveOffsets cutoff es).min?.getD (-1) := by
  induction es with
  | nil => rfl
  | cons e es ih =>
      have he := hes e List.mem_cons_self
      have hrest := fun d hd => hes d (List.mem_cons_of_mem _ hd)
      rw [List.foldl_cons, liveOffsets_cons]
      by_cases hlive : cutoff ≤ e.1.minute
      · have hhead : lowerFloor true cutoff (-1) e = e.2.firstOffset := by simp [lowerFloor, hlive]
        rw [if_pos hlive, hhead, foldl_lowerFloor_of_nonneg he hrest, List.min?_cons', Option.getD_some]
      · have hhead : lowerFloor true cutoff (-1) e = -1 := by simp [lowerFloor, hlive]
        rw [if_neg hlive, hhead, ih hrest]

theorem values_popState (s : PartitionState) :
    (popState cfg false s).windows.values.map Window.firstOffset =
      liveOffsets (closedBefore cfg s) s.windows.entries := by
  simp [popState, liveOffsets, Dict.values, Dict.filter, isDone, ← decide_not, Function.comp_def]

/-- **A final flush does not move the commit point.** It commits what an ordinary flush at the same moment
    would commit, the partial floor standing in for the windows it took away. -/
theorem commitOffset_popState_final {s : PartitionState} (hf : s.partialFloor = -1)
    (hw : ∀ k w, s.windows.get? k = some w → 0 ≤ w.firstOffset ∧ w.firstOffset ≤ s.lastOffset) :
    commitOffset (popState cfg true s) = commitOffset (popState cfg false s) := by
  have hes : ∀ e ∈ s.windows.entries, 0 ≤ e.2.firstOffset :=
    fun e he => (hw e.1 e.2 (Dict.mem_entries_iff.mp he)).1
  have hvalues : (popState cfg true s).windows.values.map Window.firstOffset = [] := by
    simp [popState, Dict.values, Dict.filter, isDone]
  have hdone : done cfg true s = s.windows.entries := by
    simp [done, isDone]
  have hfinal : (popState cfg true s).partialFloor =
      (liveOffsets (closedBefore cfg s) s.windows.entries).min?.getD (-1) := by
    show (done cfg true s).foldl _ s.partialFloor = _
    rw [hdone, hf]
    exact foldl_lowerFloor hes
  have hplain : (popState cfg false s).partialFloor = -1 :=
    (partialFloor_popState (by simp)).trans hf
  unfold commitOffset
  rw [hvalues, values_popState, hfinal, hplain]
  show _ = _
  cases hmin : (liveOffsets (closedBefore cfg s) s.windows.entries).min? with
  | none => simp [popState]
  | some o =>
      obtain ⟨e, he, rfl⟩ := List.mem_map.mp (List.min?_mem hmin)
      have hbound := hw e.1 e.2 (Dict.mem_entries_iff.mp (List.mem_of_mem_filter he))
      have hlast : 0 ≤ s.lastOffset := hbound.1.trans hbound.2
      have hmineq : min (s.lastOffset + 1) e.2.firstOffset = e.2.firstOffset := by omega
      simp [popState, hlast, hbound.1, hmineq]

theorem min?_congr {xs ys : List Int} (h : ∀ x, x ∈ xs ↔ x ∈ ys) : xs.min? = ys.min? := by
  apply Option.ext
  intro a
  simp only [List.min?_eq_some_iff, h]

/-- The commit point is a function of what the windows read as, not of their order. -/
theorem commitOffset_congr {s s' : PartitionState} (hlast : s.lastOffset = s'.lastOffset)
    (hfloor : s.partialFloor = s'.partialFloor)
    (hwin : ∀ k, s.windows.get? k = s'.windows.get? k) : commitOffset s = commitOffset s' := by
  have hmin : (s.windows.values.map Window.firstOffset).min? =
      (s'.windows.values.map Window.firstOffset).min? := by
    refine min?_congr (fun x => ?_)
    simp only [List.mem_map, Dict.mem_values_iff, hwin]
  unfold commitOffset
  rw [hmin, hlast, hfloor]

end Windows
end Wikistream
