import Wikistream.Lib.Run
import Wikistream.Lib.Watermark
import Wikistream.Processors.Trending

/-!
# `Correctness.TrendingRestart` — trending totals survive crashes and restarts

One partition of `wiki.clean`, one consumer that may be stopped or killed at any point, and the table it
writes. A restart begins with empty windows at the last committed offset.

## Contents
- **The system.** `World` (table, committed offset, running process) and `step`.
- **The specification.** `total cfg log k`, the number of on-time events of `k` in the whole log.
- **The two invariants.** `Stored` relates the table to a resume point: what lies behind it is settled,
  and the resume point is ahead of everything behind it. `Live` relates the open windows to the events
  the process has read.
- **The result** (`totals_survive_restarts`).

The table never holds more than the final total (`Stored.sound`), so every write is a maximum that can
only move towards it.
-/

namespace Wikistream
namespace Trending

open Lib Windows Db

namespace Restart

structure Process where
  windows : MinuteWindows
  unread : List Edit

structure World where
  table : TrendingMinutes := Dict.empty
  committed : Option Int := none
  running : Option Process := none

inductive Action
  | start
  | read
  | flush
  /-- A graceful stop: flush with `final=True`, then exit. -/
  | stop
  | crash
  /-- The rows of a flush are written and the process dies before the offsets are committed. -/
  | crashInFlush (final : Bool)
  deriving DecidableEq

/-- What a consumer reads that resumes at the committed offset, or at the beginning without one. -/
def resume (log : List Edit) : Option Int → List Edit
  | none => log
  | some c => log.filter (fun e => c ≤ e.offset)

def write (w : World) (f : Flush) : World := { w with table := upsertTrending w.table f.rows }

def commit (w : World) (p : Nat) (f : Flush) : World :=
  { w with committed := (f.offsets.get? p).or w.committed }

def step (cfg : Config) (p : Nat) (log : List Edit) (w : World) : Action → Option World
  | .start =>
      match w.running with
      | none => some { w with running := some ⟨{}, resume log w.committed⟩ }
      | some _ => none
  | .read =>
      match w.running with
      | some ⟨m, e :: rest⟩ => some { w with running := some ⟨(add cfg m p e).2, rest⟩ }
      | _ => none
  | .flush =>
      match w.running with
      | some ⟨m, unread⟩ =>
          let f := Trending.flush cfg m false
          some { commit (write w f) p f with running := some ⟨f.windows, unread⟩ }
      | none => none
  | .stop =>
      match w.running with
      | some ⟨m, _⟩ =>
          let f := Trending.flush cfg m true
          some { commit (write w f) p f with running := none }
      -- `shutdown` flushes the windows that are still open too
      | none => none
  | .crash =>
      match w.running with
      | some _ => some { w with running := none }
      | none => none
  | .crashInFlush final =>
      match w.running with
      -- the rows are upserted, the offsets are not committed
      | some ⟨m, _⟩ => some { write w (Trending.flush cfg m final) with running := none }
      | none => none

/-- The event read next does not take the partition over `max_windows`. -/
def UnderCap (cfg : Config) (p : Nat) (w : World) : Action → Prop
  | .read =>
      match w.running with
      | some ⟨m, e :: _⟩ => Fits cfg (partitionOf m p) e
      | _ => True
  | _ => True

instance (cfg : Config) (p : Nat) (w : World) (a : Action) : Decidable (UnderCap cfg p w a) := by
  unfold UnderCap
  split
  · split <;> infer_instance
  · infer_instance

/-! ## The specification -/

section Spec

variable (cfg : Config)

def cutoff (w : Int) : Int := minuteStart (w - cfg.latenessMs)

/-- The events of `es` that are on time when the running maximum starts from `W`. -/
def onTime (W : Int) (es : List Edit) : List Edit :=
  Watermark.onTime Edit.eventTimeMs minuteStart (cutoff cfg) W es

/-- The running maximum of the event times, starting from `W`. -/
abbrev mark (W : Int) (es : List Edit) : Int := Watermark.mark Edit.eventTimeMs W es

def tally (k : WindowKey) (es : List Edit) : Nat := es.countP (fun e => e.key = k)

/-- The number of on-time events of `k` in the whole log. -/
def total (log : List Edit) (k : WindowKey) : Nat := tally k (onTime cfg 0 log)

end Spec

variable {cfg : Config} {p : Nat} {log : List Edit}

theorem cutoff_mono {a b : Int} (h : a ≤ b) : cutoff cfg a ≤ cutoff cfg b := minuteStart_mono (by omega)

theorem cutoff_le_bucket (h : 0 ≤ cfg.latenessMs) (t : Int) : cutoff cfg t ≤ minuteStart t :=
  minuteStart_mono (by omega)

theorem tally_append (k : WindowKey) (xs ys : List Edit) :
    tally k (xs ++ ys) = tally k xs + tally k ys := List.countP_append

theorem tally_pos {k : WindowKey} {es : List Edit} : 0 < tally k es ↔ ∃ e ∈ es, e.key = k := by
  simp [tally, List.countP_pos_iff]

theorem tally_eq_zero {k : WindowKey} {es : List Edit} (h : ∀ e ∈ es, e.key ≠ k) :
    tally k es = 0 := by
  refine List.countP_eq_zero.mpr (fun e he => ?_)
  simpa using h e he

theorem onTime_append (W : Int) (xs ys : List Edit) :
    onTime cfg W (xs ++ ys) = onTime cfg W xs ++ onTime cfg (mark W xs) ys :=
  Watermark.onTime_append W xs ys

theorem onTime_singleton (W : Int) (e : Edit) :
    onTime cfg W [e] = if cutoff cfg (max W e.eventTimeMs) ≤ e.key.minute then [e] else [] := by
  unfold onTime Watermark.onTime Watermark.onTime
  rfl

theorem exists_onTime (hL : 0 ≤ cfg.latenessMs) {W : Int} {es : List Edit} (h : W < mark W es) :
    ∃ e ∈ onTime cfg W es, e.eventTimeMs = mark W es :=
  Watermark.exists_onTime_of_lt_mark (cutoff_le_bucket hL) h

theorem onTime_snoc {W : Int} {es : List Edit} {e : Edit}
    (h : cutoff cfg (max (mark W es) e.eventTimeMs) ≤ e.key.minute) :
    onTime cfg W (es ++ [e]) = onTime cfg W es ++ [e] := by
  rw [onTime_append, onTime_singleton, if_pos h]

theorem onTime_snoc_late {W : Int} {es : List Edit} {e : Edit}
    (h : ¬ cutoff cfg (max (mark W es) e.eventTimeMs) ≤ e.key.minute) :
    onTime cfg W (es ++ [e]) = onTime cfg W es := by
  rw [onTime_append, onTime_singleton, if_neg h, List.append_nil]

theorem mark_snoc (W : Int) (es : List Edit) (e : Edit) :
    mark W (es ++ [e]) = max (mark W es) e.eventTimeMs := by
  rw [mark, Watermark.mark_append]
  rfl

/-! ## Behind and ahead of a resume point -/

def behind (c : Int) (es : List Edit) : List Edit := es.filter (fun e => (e.offset : Int) < c)

def ahead (c : Int) (es : List Edit) : List Edit := es.filter (fun e => c ≤ (e.offset : Int))

theorem mem_behind {c : Int} {es : List Edit} {e : Edit} :
    e ∈ behind c es ↔ e ∈ es ∧ (e.offset : Int) < c := by
  simp [behind]

theorem mem_ahead {c : Int} {es : List Edit} {e : Edit} :
    e ∈ ahead c es ↔ e ∈ es ∧ c ≤ (e.offset : Int) := by
  simp [ahead]

/-- The event at an offset is the first one from there on. -/
theorem eq_of_head?_ahead (h : log.Pairwise (fun a b => a.offset < b.offset)) {c' : Int} {d x : Edit}
    (hd : d ∈ ahead c' log) (hdo : (d.offset : Int) = c') (hx : x ∈ (ahead c' log).head?) : x = d := by
  have hall : (ahead c' log).Pairwise (fun a b => a.offset < b.offset) := h.sublist List.filter_sublist
  have hxmem := (mem_ahead.mp (List.mem_of_mem_head? hx)).2
  cases hahead : ahead c' log with
  | nil => exact absurd (hahead ▸ hd) (by simp)
  | cons y ys =>
      rw [hahead] at hx hd hall
      obtain rfl := Option.some.inj hx
      rcases List.mem_cons.mp hd with rfl | hdys
      · rfl
      · have hlt := (List.pairwise_cons.mp hall).1 d hdys
        omega

theorem behind_append_ahead (h : log.Pairwise (fun a b => a.offset < b.offset)) (c : Int) :
    behind c log ++ ahead c log = log := by
  induction log with
  | nil => rfl
  | cons e es ih =>
      rw [List.pairwise_cons] at h
      by_cases he : (e.offset : Int) < c
      · have hle : ¬ c ≤ (e.offset : Int) := not_le.mpr he
        simp only [behind, ahead, List.filter_cons, he, hle, decide_true, decide_false, if_true,
          Bool.false_eq_true, if_false, List.cons_append]
        exact congrArg _ (ih h.2)
      · -- from the first event at or after `c` on, nothing is behind it
        have hle : c ≤ (e.offset : Int) := not_lt.mp he
        have hrest : ∀ d ∈ es, ¬ (d.offset : Int) < c := by
          intro d hd
          have := h.1 d hd
          omega
        have hbehind : behind c (e :: es) = [] := by
          refine List.filter_eq_nil_iff.mpr (fun d hd => ?_)
          rcases List.mem_cons.mp hd with rfl | hd'
          · simpa using hle
          · simpa using hrest d hd'
        have hahead : ahead c (e :: es) = e :: es := by
          refine List.filter_eq_self.mpr (fun d hd => ?_)
          rcases List.mem_cons.mp hd with rfl | hd'
          · simpa using hle
          · simpa using hrest d hd'
        rw [hbehind, hahead, List.nil_append]

theorem resume_eq (log : List Edit) (c : Option Int) : resume log c = ahead (c.getD 0) log := by
  cases c with
  | none =>
      refine (List.filter_eq_self.mpr (fun e _ => ?_)).symm
      simp
  | some c => rfl

/-! ## The table and a resume point -/

/-- The table `T` against a resume point `c` of the log. -/
structure Stored (cfg : Config) (log : List Edit) (T : WindowKey → Option Nat) (c : Int) : Prop where
  /-- No row is for an unknown key or passes the final total. -/
  sound : ∀ k n, T k = some n → 0 < n ∧ n ≤ total cfg log k
  /-- A key with an on-time event behind `c` has its final total. -/
  settled : ∀ e ∈ onTime cfg 0 log, (e.offset : Int) < c → T e.key = some (total cfg log e.key)
  /-- Nothing behind `c` is later than the first event from `c` on. -/
  ahead : Watermark.Ahead Edit.eventTimeMs (mark 0 (behind c log)) (ahead c log)

/-- Rows that may be written: every count is positive and no larger than the final total. -/
def Bounded (cfg : Config) (log : List Edit) (R : WindowKey → Option Nat) : Prop :=
  ∀ k n, R k = some n → 0 < n ∧ n ≤ total cfg log k

/-- A value that is final stays so under bounded writes. -/
theorem max_eq_total {T R : WindowKey → Option Nat} (hR : Bounded cfg log R) {k : WindowKey}
    (h : T k = some (total cfg log k)) : max (T k) (R k) = some (total cfg log k) := by
  rw [h]
  cases hr : R k with
  | none => rfl
  | some n =>
      have hn := (hR k n hr).2
      show some (max _ _) = _
      rw [Nat.max_eq_left hn]

theorem Stored.raise {T R : WindowKey → Option Nat} {c : Int} (h : Stored cfg log T c)
    (hR : Bounded cfg log R) : Stored cfg log (fun k => max (T k) (R k)) c where
  sound := by
    intro k n hn
    cases ht : T k with
    | none =>
        simp only [ht, Option.max_none_left] at hn
        exact hR k n hn
    | some t =>
        cases hr : R k with
        | none =>
            simp only [ht, hr, Option.max_none_right] at hn
            exact h.sound k n (ht.trans hn)
        | some r =>
            have hT := h.sound k t ht
            have hr' := hR k r hr
            simp only [ht, hr] at hn
            obtain rfl : max t r = n := Option.some.inj hn
            omega
  settled := fun e he hlt => max_eq_total hR (h.settled e he hlt)
  ahead := h.ahead

theorem stored_init : Stored cfg log (fun _ => none) 0 where
  sound := by simp
  settled := by
    intro e _ hlt
    omega
  ahead := by
    have hnil : behind 0 log = [] := List.filter_eq_nil_iff.mpr (fun e _ => by simp)
    rw [hnil]
    exact Watermark.Ahead.of_nonpos (le_refl 0)

/-! ## The open windows and the events read -/

/-- The window `w` of key `k` after the on-time events `es`: it has counted all of `k`'s, and its first
    offset is that of the earliest. -/
structure WindowOf (es : List Edit) (k : WindowKey) (w : Window) : Prop where
  count : w.count = tally k es
  first : ∃ e ∈ es, e.key = k ∧ (e.offset : Int) = w.firstOffset
  least : ∀ e ∈ es, e.key = k → w.firstOffset ≤ e.offset

theorem tally_snoc (k : WindowKey) (es : List Edit) (e : Edit) :
    tally k (es ++ [e]) = tally k es + if e.key = k then 1 else 0 := by
  rw [tally_append]
  by_cases hk : e.key = k <;> simp [tally, hk]

theorem windowOf_new {es : List Edit} {e : Edit} (h : ∀ d ∈ es, d.key ≠ e.key) :
    WindowOf (es ++ [e]) e.key (Window.add {} e.offset) where
  count := by
    rw [tally_snoc, if_pos rfl, tally_eq_zero h]
    rfl
  first := ⟨e, by simp, rfl, (Window.add_firstOffset_fresh _).symm⟩
  least := by
    intro d hd hk
    rcases List.mem_append.mp hd with hd' | hd'
    · exact absurd hk (h d hd')
    · rw [List.mem_singleton.mp hd', Window.add_firstOffset_fresh]

theorem WindowOf.add {es : List Edit} {e : Edit} {w : Window} (h : WindowOf es e.key w)
    (hlt : ∀ d ∈ es, d.offset < e.offset) : WindowOf (es ++ [e]) e.key (w.add e.offset) := by
  obtain ⟨d, hd, hdk, hdo⟩ := h.first
  have hde := hlt d hd
  have hsame : (w.add e.offset).firstOffset = w.firstOffset :=
    Window.add_firstOffset_of_le (by omega) (by omega)
  refine ⟨?_, ⟨d, List.mem_append_left _ hd, hdk, hdo.trans hsame.symm⟩, ?_⟩
  · rw [tally_snoc, if_pos rfl, ← h.count, Window.add_count]
  · intro a ha hak
    rw [hsame]
    rcases List.mem_append.mp ha with ha' | ha'
    · exact h.least a ha' hak
    · rw [List.mem_singleton.mp ha']
      omega

theorem WindowOf.other {es : List Edit} {e : Edit} {k : WindowKey} {w : Window}
    (h : WindowOf es k w) (hk : e.key ≠ k) : WindowOf (es ++ [e]) k w := by
  obtain ⟨d, hd, hdk, hdo⟩ := h.first
  refine ⟨?_, ⟨d, List.mem_append_left _ hd, hdk, hdo⟩, ?_⟩
  · rw [tally_snoc, if_neg hk, ← h.count, Nat.add_zero]
  · intro a ha hak
    rcases List.mem_append.mp ha with ha' | ha'
    · exact h.least a ha' hak
    · rw [List.mem_singleton.mp ha'] at hak
      exact absurd hak hk

/-- A process that resumed at `c` and read `seen`, in terms of the state `s` of its partition. -/
structure Live (cfg : Config) (log : List Edit) (T : WindowKey → Option Nat) (c : Int)
    (s : PartitionState) (seen unread : List Edit) : Prop where
  split : ahead c log = seen ++ unread
  partialFloor : s.partialFloor = -1
  flushedMinutes : s.flushedMinutes = ∅
  watermarkMs : s.watermarkMs = mark 0 seen
  lastOffset : s.lastOffset = (seen.getLast?.map (fun e => (e.offset : Int))).getD (-1)
  windows : ∀ k w, s.windows.get? k = some w → WindowOf (onTime cfg 0 seen) k w
  /-- A key that was counted and has no open window is written in full, and its minute is over. -/
  closed : ∀ e ∈ onTime cfg 0 seen, s.windows.get? e.key = none →
    T e.key = some (total cfg log e.key) ∧ e.key.minute < closedBefore cfg s

theorem live_start (T : WindowKey → Option Nat) (c : Int) :
    Live cfg log T c {} [] (ahead c log) where
  split := rfl
  partialFloor := rfl
  flushedMinutes := rfl
  watermarkMs := rfl
  lastOffset := rfl
  windows := by simp
  closed := by simp [onTime, Watermark.onTime]

section Log

variable (hlog : log.Pairwise (fun a b => a.offset < b.offset))
variable {T : WindowKey → Option Nat} {c : Int} {s : PartitionState} {seen unread : List Edit}

theorem Live.closedBefore_eq (h : Live cfg log T c s seen unread) :
    closedBefore cfg s = cutoff cfg (mark 0 seen) := by
  unfold closedBefore cutoff
  rw [h.watermarkMs]

include hlog in
/-- The on-time events of the log: those behind the resume point, those read since, and those still to
    be read. The read part is what a stream that starts at the resume point accepts. -/
theorem onTime_log (hs : Stored cfg log T c) (hl : Live cfg log T c s seen unread) :
    onTime cfg 0 log =
      onTime cfg 0 (behind c log) ++ (onTime cfg 0 seen ++ onTime cfg (mark 0 seen) unread) := by
  conv_lhs => rw [← behind_append_ahead hlog c, onTime_append]
  have hstart : onTime cfg (mark 0 (behind c log)) (ahead c log) = onTime cfg 0 (ahead c log) :=
    hs.ahead.onTime_eq (Watermark.le_mark 0 _)
  rw [hstart, hl.split, onTime_append]

include hlog in
theorem total_eq (hs : Stored cfg log T c) (hl : Live cfg log T c s seen unread) (k : WindowKey) :
    total cfg log k = tally k (onTime cfg 0 (behind c log)) +
      (tally k (onTime cfg 0 seen) + tally k (onTime cfg (mark 0 seen) unread)) := by
  unfold total
  rw [onTime_log hlog hs hl, tally_append, tally_append]

/-- No event still to be read counts towards a minute that is over. -/
theorem Live.tally_unread_eq_zero (hl : Live cfg log T c s seen unread) {k : WindowKey}
    (hk : k.minute < closedBefore cfg s) : tally k (onTime cfg (mark 0 seen) unread) = 0 := by
  refine tally_eq_zero (fun e he hek => ?_)
  have hle : cutoff cfg (mark 0 seen) ≤ e.key.minute :=
    Watermark.cutoff_le_of_mem_onTime cutoff_mono he
  rw [hl.closedBefore_eq, ← hek] at hk
  exact absurd hle (not_le.mpr hk)

include hlog in
/-- An event behind the resume point that was on time settles its key. -/
theorem settled_of_behind (hs : Stored cfg log T c) (hl : Live cfg log T c s seen unread) {e : Edit}
    (he : e ∈ onTime cfg 0 (behind c log)) : T e.key = some (total cfg log e.key) := by
  have hlt : (e.offset : Int) < c := (mem_behind.mp (Watermark.mem_of_mem_onTime he)).2
  refine hs.settled e ?_ hlt
  rw [onTime_log hlog hs hl]
  exact List.mem_append_left _ he

include hlog in
/-- **Closing a window completes its key.** Once the minute is over, the greater of the stored and the
    written count is the final total. -/
theorem max_closed (hs : Stored cfg log T c) (hl : Live cfg log T c s seen unread) {k : WindowKey}
    {w : Window} (hw : s.windows.get? k = some w)
    (hrest : tally k (onTime cfg (mark 0 seen) unread) = 0) :
    max (T k) (some w.count) = some (total cfg log k) := by
  have htotal := total_eq hlog hs hl k
  have hcount := (hl.windows k w hw).count
  by_cases hb : ∃ e ∈ onTime cfg 0 (behind c log), e.key = k
  · obtain ⟨e, he, rfl⟩ := hb
    rw [settled_of_behind hlog hs hl he]
    show some (max _ _) = _
    rw [Nat.max_eq_left (by omega)]
  · -- the whole count of the key was read since the resume point
    push Not at hb
    have hzero : tally k (onTime cfg 0 (behind c log)) = 0 := tally_eq_zero hb
    have heq : w.count = total cfg log k := by omega
    rw [heq]
    cases ht : T k with
    | none => rfl
    | some t =>
        show some (max _ _) = _
        rw [Nat.max_eq_right (hs.sound k t ht).2]

include hlog in
theorem Live.bounded (hs : Stored cfg log T c) (hl : Live cfg log T c s seen unread) (final : Bool) :
    Bounded cfg log (largest (popRows cfg final s)) := by
  intro k n hn
  rw [largest_popRows] at hn
  split at hn
  · obtain ⟨w, hw, rfl⟩ := Option.map_eq_some_iff.mp hn
    obtain ⟨e, he, hek, _⟩ := (hl.windows k w hw).first
    have hpos : 0 < tally k (onTime cfg 0 seen) := tally_pos.mpr ⟨e, he, hek⟩
    have htotal := total_eq hlog hs hl k
    have hcount := (hl.windows k w hw).count
    omega
  · exact absurd hn (by simp)

include hlog in
/-- An ordinary flush keeps the process in step with the table it has written to. -/
theorem Live.flush (hs : Stored cfg log T c) (hl : Live cfg log T c s seen unread) :
    Live cfg log (fun k => max (T k) (largest (popRows cfg false s) k)) c (popState cfg false s)
      seen unread := by
  have hget : ∀ k w, (popState cfg false s).windows.get? k = some w → s.windows.get? k = some w := by
    intro k w hw
    rw [get?_popState] at hw
    split at hw
    · exact absurd hw (by simp)
    · exact hw
  -- a minute stays in `flushedMinutes` only while the watermark has not passed it
  have hflushed : (popState cfg false s).flushedMinutes = ∅ := by
    refine Finset.eq_empty_of_forall_notMem (fun m hm => ?_)
    obtain ⟨hle, hm | ⟨k, _, hdone, rfl⟩⟩ := mem_flushedMinutes_popState.mp hm
    · rw [hl.flushedMinutes] at hm
      exact absurd hm (Finset.notMem_empty m)
    · simp only [isDone, Bool.false_or, decide_eq_true_eq] at hdone
      exact absurd hle (not_le.mpr hdone)
  refine ⟨hl.split, (partialFloor_popState (by simp)).trans hl.partialFloor, hflushed,
    hl.watermarkMs, hl.lastOffset, fun k w hw => hl.windows k w (hget k w hw), ?_⟩
  intro e he hnone
  rw [closedBefore_popState]
  cases hw : s.windows.get? e.key with
  | none =>
      obtain ⟨ht, hlt⟩ := hl.closed e he hw
      exact ⟨max_eq_total (hl.bounded hlog hs false) ht, hlt⟩
  | some w =>
      rw [get?_popState, hw] at hnone
      -- the window was taken out, so its minute is over and no unread event counts in it
      have hdone : isDone false (closedBefore cfg s) e.key = true := by
        by_contra hd
        simp [hd] at hnone
      have hlt : e.key.minute < closedBefore cfg s := by simpa [isDone] using hdone
      refine ⟨?_, hlt⟩
      rw [largest_popRows, if_pos hdone, hw]
      exact max_closed hlog hs hl hw (hl.tally_unread_eq_zero hlt)

/-! ## Reading one event -/

theorem Live.isLate_iff (hl : Live cfg log T c s seen unread) (e : Edit) :
    isLate cfg (observed s e) e ↔
      ¬ cutoff cfg (max (mark 0 seen) e.eventTimeMs) ≤ e.key.minute := by
  have hclosed : closedBefore cfg (observed s e) = cutoff cfg (max (mark 0 seen) e.eventTimeMs) := by
    show minuteStart (max s.watermarkMs e.eventTimeMs - cfg.latenessMs) = _
    rw [hl.watermarkMs]
    rfl
  unfold isLate
  simp only [observed_flushedMinutes, hl.flushedMinutes, Finset.notMem_empty, false_and, or_false,
    hclosed, not_le]

include hlog in
theorem Live.offset_lt {e : Edit} {rest : List Edit} (hl : Live cfg log T c s seen (e :: rest)) :
    ∀ d ∈ seen, d.offset < e.offset := by
  have hsorted : (ahead c log).Pairwise (fun a b => a.offset < b.offset) :=
    hlog.sublist List.filter_sublist
  rw [hl.split, List.pairwise_append] at hsorted
  exact fun d hd => hsorted.2.2 d hd e List.mem_cons_self

theorem lastOffset_snoc {es : List Edit} {e : Edit} (h : ∀ d ∈ es, d.offset < e.offset) :
    max ((es.getLast?.map (fun d => (d.offset : Int))).getD (-1)) e.offset =
      ((es ++ [e]).getLast?.map (fun d => (d.offset : Int))).getD (-1) := by
  rw [List.getLast?_concat]
  cases hes : es.getLast? with
  | none =>
      show max (-1 : Int) e.offset = e.offset
      omega
  | some d =>
      have := h d (List.mem_of_getLast? hes)
      show max (d.offset : Int) e.offset = e.offset
      omega

include hlog in
theorem Live.sorted (hl : Live cfg log T c s seen unread) :
    (seen ++ unread).Pairwise (fun a b => a.offset < b.offset) := by
  rw [← hl.split]
  exact hlog.sublist List.filter_sublist

include hlog in
theorem Live.offset_le_lastOffset (hl : Live cfg log T c s seen unread) {e : Edit} (he : e ∈ seen) :
    (e.offset : Int) ≤ s.lastOffset := by
  have hsorted := (List.pairwise_append.mp (hl.sorted hlog)).1
  have hne : seen ≠ [] := List.ne_nil_of_mem he
  rw [hl.lastOffset, List.getLast?_eq_getLast_of_ne_nil hne]
  show (e.offset : Int) ≤ (seen.getLast hne).offset
  rw [← List.dropLast_append_getLast hne, List.pairwise_append] at hsorted
  rw [← List.dropLast_append_getLast hne, List.mem_append, List.mem_singleton] at he
  rcases he with he | rfl
  · have := hsorted.2.2 e he _ (List.mem_singleton_self _)
    omega
  · exact le_refl _

include hlog in
theorem Live.lastOffset_lt (hl : Live cfg log T c s seen unread) {e : Edit} (he : e ∈ unread) :
    s.lastOffset < e.offset := by
  rw [hl.lastOffset]
  cases hlast : seen.getLast? with
  | none =>
      show (-1 : Int) < _
      omega
  | some d =>
      have := (List.pairwise_append.mp (hl.sorted hlog)).2.2 d (List.mem_of_getLast? hlast) e he
      show (d.offset : Int) < _
      omega

/-- Without an open window no earlier event of the key was on time, or its minute would be over. -/
theorem Live.fresh {e : Edit} {rest : List Edit} (hl : Live cfg log T c s seen (e :: rest))
    (hlate : ¬ isLate cfg (observed s e) e) (hnone : s.windows.get? e.key = none) :
    ∀ d ∈ onTime cfg 0 seen, d.key ≠ e.key := by
  intro d hd hde
  have hlt := (hl.closed d hd (hde ▸ hnone)).2
  have hle : closedBefore cfg (observed s e) ≤ e.key.minute := by
    by_contra h
    exact hlate (Or.inl (not_le.mp h))
  have hmono : closedBefore cfg s ≤ closedBefore cfg (observed s e) :=
    closedBefore_mono (le_max_left _ _)
  rw [hde] at hlt
  exact absurd (hmono.trans hle) (not_le.mpr hlt)

include hlog in
theorem Live.read {e : Edit} {rest : List Edit} (hl : Live cfg log T c s seen (e :: rest))
    (hfits : Fits cfg s e) : Live cfg log T c (addTo cfg s e).2 (seen ++ [e]) rest := by
  have hbefore := hl.offset_lt hlog
  have hmono : closedBefore cfg s ≤ closedBefore cfg (addTo cfg s e).2 :=
    closedBefore_mono (by rw [addTo_watermarkMs]; exact le_max_left _ _)
  have hclosed : ∀ d ∈ onTime cfg 0 seen, s.windows.get? d.key = none →
      T d.key = some (total cfg log d.key) ∧
        d.key.minute < closedBefore cfg (addTo cfg s e).2 :=
    fun d hd hn => ⟨(hl.closed d hd hn).1, (hl.closed d hd hn).2.trans_le hmono⟩
  refine
    { split := by rw [hl.split, List.append_assoc, List.singleton_append]
      partialFloor := (addTo_partialFloor s e).trans hl.partialFloor
      flushedMinutes := ?_
      watermarkMs := by rw [addTo_watermarkMs, hl.watermarkMs, mark_snoc]
      lastOffset := by rw [addTo_lastOffset, hl.lastOffset, lastOffset_snoc hbefore]
      windows := ?_
      closed := ?_ }
  -- each clause for an event that is late, and for one that counts
  all_goals by_cases hlate : isLate cfg (observed s e) e
  · rw [addTo_of_late hlate]
    exact hl.flushedMinutes
  · rw [addTo_of_fits hfits hlate]
    exact hl.flushedMinutes
  · rw [addTo_of_late hlate, onTime_snoc_late ((hl.isLate_iff e).mp hlate)]
    exact hl.windows
  · intro k w hw
    rw [onTime_snoc (by_contra fun h => hlate ((hl.isLate_iff e).mpr h))]
    rw [addTo_of_fits hfits hlate, get?_addWindow, observed_windows] at hw
    split at hw
    · next hk =>
        subst hk
        obtain rfl := Option.some.inj hw
        cases hold : s.windows.get? e.key with
        | none => exact windowOf_new (hl.fresh hlate hold)
        | some v =>
            exact (hl.windows _ v hold).add
              (fun d hd => hbefore d (Watermark.mem_of_mem_onTime hd))
    · next hk => exact (hl.windows k w hw).other (fun h => hk h.symm)
  · intro d hd hn
    rw [onTime_snoc_late ((hl.isLate_iff e).mp hlate)] at hd
    rw [addTo_of_late hlate] at hn
    exact hclosed d hd hn
  · intro d hd hn
    rw [onTime_snoc (by_contra fun h => hlate ((hl.isLate_iff e).mpr h))] at hd
    rw [addTo_of_fits hfits hlate, get?_addWindow, observed_windows] at hn
    split at hn
    · exact absurd hn (by simp)
    · next hk =>
        rcases List.mem_append.mp hd with hd' | hd'
        · exact hclosed d hd' hn
        · exact absurd (congrArg Edit.key (List.mem_singleton.mp hd')) hk

/-! ## Committing -/

include hlog in
theorem Live.window_bounds (hl : Live cfg log T c s seen unread) {k : WindowKey} {w : Window}
    (hw : s.windows.get? k = some w) : 0 ≤ w.firstOffset ∧ w.firstOffset ≤ s.lastOffset := by
  obtain ⟨e, he, _, heo⟩ := (hl.windows k w hw).first
  have := hl.offset_le_lastOffset hlog (Watermark.mem_of_mem_onTime he)
  omega

include hlog in
/-- The log around a later resume point, up to one past the last event read. -/
theorem Live.split_at (hl : Live cfg log T c s seen unread) {c' : Int} (hle : c ≤ c')
    (hlast : c' ≤ s.lastOffset + 1) :
    behind c' log = behind c log ++ behind c' seen ∧ ahead c' log = ahead c' seen ++ unread := by
  have hlogEq : log = behind c log ++ (seen ++ unread) := by
    rw [← hl.split, behind_append_ahead hlog]
  have hpre : ∀ e ∈ behind c log, (e.offset : Int) < c' := fun e he =>
    (mem_behind.mp he).2.trans_le hle
  have hpost : ∀ e ∈ unread, c' ≤ (e.offset : Int) := fun e he => by
    have := hl.lastOffset_lt hlog he
    omega
  constructor
  · conv_lhs => rw [hlogEq]
    unfold behind at hpre ⊢
    rw [List.filter_append, List.filter_append, List.filter_eq_self.mpr (by simpa using hpre),
      show unread.filter _ = [] from List.filter_eq_nil_iff.mpr (by simpa using hpost),
      List.append_nil]
  · conv_lhs => rw [hlogEq]
    unfold ahead
    rw [List.filter_append, List.filter_append,
      show (behind c log).filter _ = [] from List.filter_eq_nil_iff.mpr (by simpa using hpre),
      List.filter_eq_self.mpr (show ∀ e ∈ unread, _ by simpa using hpost), List.nil_append]

/-- An on-time event read before the commit point has its window closed. -/
theorem Live.closed_of_lt (hl : Live cfg log T c s seen unread) {c' : Int}
    (hc : ∀ k w, s.windows.get? k = some w → c' ≤ w.firstOffset) {e : Edit}
    (he : e ∈ onTime cfg 0 seen) (hlt : (e.offset : Int) < c') :
    T e.key = some (total cfg log e.key) ∧ e.key.minute < closedBefore cfg s := by
  cases hw : s.windows.get? e.key with
  | none => exact hl.closed e he hw
  | some w =>
      have h1 := hc _ w hw
      have h2 := (hl.windows _ w hw).least e he rfl
      omega

include hlog in
theorem Live.commit_settled (hs : Stored cfg log T c) (hl : Live cfg log T c s seen unread) {c' : Int}
    (hc : ∀ k w, s.windows.get? k = some w → c' ≤ w.firstOffset) (hlast : c' ≤ s.lastOffset + 1) :
    ∀ e ∈ onTime cfg 0 log, (e.offset : Int) < c' → T e.key = some (total cfg log e.key) := by
  intro e he hlt
  rw [onTime_log hlog hs hl, List.mem_append, List.mem_append] at he
  rcases he with he | he | he
  · exact settled_of_behind hlog hs hl he
  · exact (hl.closed_of_lt hc he hlt).1
  · have := hl.lastOffset_lt hlog (Watermark.mem_of_mem_onTime he)
    omega

/-- With no window left open, no event read had a positive event time. -/
theorem Live.mark_nonpos (hL : 0 ≤ cfg.latenessMs) (hl : Live cfg log T c s seen unread)
    (hnone : ∀ k, s.windows.get? k = none) : mark 0 seen ≤ 0 := by
  by_contra hpos
  obtain ⟨e, he, het⟩ := exists_onTime hL (not_le.mp hpos)
  have hlt := (hl.closed e he (hnone _)).2
  rw [hl.closedBefore_eq, ← het] at hlt
  exact absurd (cutoff_le_bucket hL e.eventTimeMs) (not_le.mpr hlt)

include hlog in
/-- The first event from the commit point on carries the watermark of everything behind it: an earlier
    event with a later time would have a window open, and hold the commit point back. -/
theorem Live.commit_ahead (hL : 0 ≤ cfg.latenessMs) (hs : Stored cfg log T c)
    (hl : Live cfg log T c s seen unread) {c' : Int} (hle : c ≤ c') (hlast : c' ≤ s.lastOffset + 1)
    (hc : ∀ k w, s.windows.get? k = some w → c' ≤ w.firstOffset)
    (hnext : (∃ e ∈ seen, (e.offset : Int) = c' ∧ closedBefore cfg s ≤ e.key.minute) ∨
      ∀ k, s.windows.get? k = none) :
    Watermark.Ahead Edit.eventTimeMs (mark 0 (behind c' log)) (ahead c' log) := by
  obtain ⟨hbehind, hahead⟩ := hl.split_at hlog hle hlast
  by_cases hnil : behind c' seen = []
  · -- nothing was read behind `c'`: the resume point in use is as good
    have hself : ahead c' seen = seen := by
      refine List.filter_eq_self.mpr (fun e he => ?_)
      have := List.filter_eq_nil_iff.mp hnil e he
      simpa using this
    rw [hbehind, hahead, hnil, hself, List.append_nil, ← hl.split]
    exact hs.ahead
  · have hsorted := (List.pairwise_append.mp (hl.sorted hlog)).1
    have hseen : behind c' seen ++ ahead c' seen = seen := behind_append_ahead hsorted c'
    have hfirst : Watermark.Ahead Edit.eventTimeMs (mark 0 (behind c log)) (behind c' seen) := by
      intro e he
      refine hs.ahead e ?_
      rw [hl.split, ← hseen, List.append_assoc, List.head?_append, Option.mem_def.mp he]
      rfl
    have hmark : mark 0 (behind c' log) = mark 0 (behind c' seen) := by
      rw [hbehind, mark, Watermark.mark_append]
      exact hfirst.mark_eq (Watermark.le_mark 0 _) hnil
    rw [hmark]
    rcases le_or_gt (mark 0 (behind c' seen)) 0 with hpos | hpos
    · exact Watermark.Ahead.of_nonpos hpos
    obtain ⟨e, he, het⟩ := exists_onTime hL hpos
    have honTime : e ∈ onTime cfg 0 seen := by
      rw [← hseen, onTime_append]
      exact List.mem_append_left _ he
    have heLt := (mem_behind.mp (Watermark.mem_of_mem_onTime he)).2
    have hover := (hl.closed_of_lt hc honTime heLt).2
    rcases hnext with ⟨d, hd, hdo, hdm⟩ | hnone
    · intro x hx
      have hdmem : d ∈ ahead c' log := by
        rw [hahead]
        exact List.mem_append_left _ (mem_ahead.mpr ⟨hd, hdo.ge⟩)
      obtain rfl : x = d := eq_of_head?_ahead hlog hdmem hdo hx
      have hminute : minuteStart e.eventTimeMs < minuteStart x.eventTimeMs := hover.trans_le hdm
      have : e.eventTimeMs < x.eventTimeMs := by
        by_contra h
        exact absurd (minuteStart_mono (not_lt.mp h)) (not_le.mpr hminute)
      exact (het ▸ this.le).trans (le_max_right _ _)
    · have hmax : mark 0 (behind c' seen) ≤ mark 0 seen := by
        rw [← het]
        exact Watermark.time_le_mark (Watermark.mem_of_mem_onTime honTime)
      exact absurd (hl.mark_nonpos hL hnone) (not_le.mpr (hpos.trans_le hmax))

include hlog in
/-- **The commit point is a resume point.** What lies behind it is settled by the rows just written, and
    the first event from it on carries the watermark of everything behind it. -/
theorem Live.commit (hL : 0 ≤ cfg.latenessMs) (hs : Stored cfg log T c)
    (hl : Live cfg log T c s seen unread)
    (hopen : ∀ k w, s.windows.get? k = some w → closedBefore cfg s ≤ k.minute) {c' : Int}
    (hcommit : commitOffset s = some c') : Stored cfg log T c' := by
  obtain ⟨hc, hcases⟩ := commitOffset_spec (by rw [hl.partialFloor]; omega) hcommit
  have hseenGe : ∀ e ∈ seen, c ≤ (e.offset : Int) := by
    intro e he
    have : e ∈ ahead c log := by
      rw [hl.split]
      exact List.mem_append_left _ he
    exact (mem_ahead.mp this).2
  -- the commit point is the first offset of a window that is open, or the next offset to read
  rcases hcases with ⟨k, w, hw, rfl⟩ | ⟨hnone, hread, rfl⟩
  · obtain ⟨e, he, rfl, heo⟩ := (hl.windows k w hw).first
    have hmem := Watermark.mem_of_mem_onTime he
    have hle := hseenGe e hmem
    have hlast := (hl.window_bounds hlog hw).2
    exact ⟨hs.sound, hl.commit_settled hlog hs hc (by omega),
      hl.commit_ahead hlog hL hs (by omega) (by omega) hc
        (Or.inl ⟨e, hmem, heo, hopen _ w hw⟩)⟩
  · have hne : seen ≠ [] := by
      rintro rfl
      rw [hl.lastOffset] at hread
      exact absurd hread (by decide)
    obtain ⟨e, he⟩ := List.exists_mem_of_ne_nil seen hne
    have hle := hseenGe e he
    have hlast := hl.offset_le_lastOffset hlog he
    exact ⟨hs.sound, hl.commit_settled hlog hs hc (le_refl _),
      hl.commit_ahead hlog hL hs (by omega) (le_refl _) hc (Or.inr hnone)⟩

end Log

/-! ## The invariant of a run -/

/-- Only the partition under study has state. -/
def OnlyPartition (p : Nat) (m : MinuteWindows) : Prop :=
  ∀ q s, m.partitions.get? q = some s → q = p

/-- A running process is in step with the table and with the resume point it started from. -/
def InStep (cfg : Config) (p : Nat) (log : List Edit) (T : WindowKey → Option Nat) (r : Process) :
    Prop :=
  OnlyPartition p r.windows ∧
    ∃ c seen, Stored cfg log T c ∧ Live cfg log T c (partitionOf r.windows p) seen r.unread

structure Inv (cfg : Config) (p : Nat) (log : List Edit) (w : World) : Prop where
  stored : Stored cfg log w.table.get? (w.committed.getD 0)
  running : ∀ r, w.running = some r → InStep cfg p log w.table.get? r

theorem onlyPartition_add {m : MinuteWindows} (h : OnlyPartition p m) (e : Edit) :
    OnlyPartition p (add cfg m p e).2 := by
  intro q s hq
  change (m.partitions.set p _).get? q = some s at hq
  rw [Dict.get?_set] at hq
  split at hq
  · next hqp => exact hqp
  · exact h q s hq

theorem onlyPartition_popClosed {m : MinuteWindows} (h : OnlyPartition p m) (final : Bool) :
    OnlyPartition p (popClosed cfg m final).2 := by
  intro q s hq
  change (m.partitions.mapVals _).get? q = some s at hq
  rw [Dict.get?_mapVals] at hq
  obtain ⟨s', hs', _⟩ := Option.map_eq_some_iff.mp hq
  exact h q s' hs'

theorem get?_write (w : World) {m : MinuteWindows} (h : OnlyPartition p m) (final : Bool) :
    (write w (Trending.flush cfg m final)).table.get? =
      fun k => max (w.table.get? k) (largest (popRows cfg final (partitionOf m p)) k) := by
  funext k
  show (upsertTrending w.table (popClosed cfg m final).1).get? k = _
  rw [get?_upsertTrending, largest_popClosed (fun q s _ _ hq _ _ => h q s hq)]

theorem commit_committed (w : World) (m : MinuteWindows) (final : Bool) :
    (commit w p (Trending.flush cfg m final)).committed =
      (commitOffset (popState cfg final (partitionOf m p))).or w.committed := by
  show ((commitOffsets (popClosed cfg m final).2).get? p).or _ = _
  rw [get?_commitOffsets, partitionOf_popClosed]

/-- The rows of an ordinary flush are among those of a final flush. -/
theorem max_largest_final (T : WindowKey → Option Nat) (s : PartitionState) (k : WindowKey) :
    max (max (T k) (largest (popRows cfg false s) k)) (largest (popRows cfg true s) k) =
      max (T k) (largest (popRows cfg true s) k) := by
  rw [largest_popRows, largest_popRows]
  by_cases hd : isDone false (closedBefore cfg s) k
  · have htrue : isDone true (closedBefore cfg s) k = true := rfl
    rw [if_pos hd, if_pos htrue]
    cases (s.windows.get? k).map Window.count <;> cases T k <;> simp
  · rw [if_neg hd, Option.max_none_right]

section Steps

variable (hlog : log.Pairwise (fun a b => a.offset < b.offset)) (hL : 0 ≤ cfg.latenessMs)
include hlog

theorem stored_write {w : World} (hw : Inv cfg p log w) {m : MinuteWindows} {unread : List Edit}
    (hr : w.running = some ⟨m, unread⟩) (final : Bool) (c : Int)
    (hc : Stored cfg log w.table.get? c) :
    Stored cfg log (write w (Trending.flush cfg m final)).table.get? c := by
  obtain ⟨honly, c0, seen, hs, hl⟩ := hw.running _ hr
  rw [get?_write w honly]
  exact hc.raise (hl.bounded hlog hs final)

include hL in
/-- A flush commits a resume point for the table it has just written, whether it is final or not. -/
theorem stored_commit {w : World} (hw : Inv cfg p log w) {m : MinuteWindows} {unread : List Edit}
    (hr : w.running = some ⟨m, unread⟩) (final : Bool) :
    Stored cfg log (write w (Trending.flush cfg m final)).table.get?
      ((commit w p (Trending.flush cfg m final)).committed.getD 0) := by
  obtain ⟨honly, c0, seen, hs, hl⟩ := hw.running _ hr
  -- a final flush commits where a plain one does
  have hsame : commitOffset (popState cfg final (partitionOf m p)) =
      commitOffset (popState cfg false (partitionOf m p)) := by
    cases final with
    | false => rfl
    | true => exact commitOffset_popState_final hl.partialFloor (fun k w hw => hl.window_bounds hlog hw)
  rw [commit_committed, hsame]
  cases hc : commitOffset (popState cfg false (partitionOf m p)) with
  | none => exact stored_write hlog hw hr final _ hw.stored
  | some c' =>
      -- what a plain flush leaves open lies ahead of the watermark
      have hopen : ∀ k v, (popState cfg false (partitionOf m p)).windows.get? k = some v →
          closedBefore cfg (popState cfg false (partitionOf m p)) ≤ k.minute := by
        intro k v hv
        rw [get?_popState] at hv
        split at hv
        · exact absurd hv (by simp)
        · next hd =>
            rw [closedBefore_popState]
            simpa [isDone] using hd
      have hplain := (hl.flush hlog hs).commit hlog hL (hs.raise (hl.bounded hlog hs false)) hopen hc
      rw [get?_write w honly]
      cases final with
      | false => exact hplain
      | true =>
          have hboth := hplain.raise (hl.bounded hlog hs true)
          simp only [max_largest_final] at hboth
          exact hboth

include hL in
/-- **One step keeps the table and the process in step.** -/
theorem inv_step {w w' : World} {a : Action} (hw : Inv cfg p log w) (hcap : UnderCap cfg p w a)
    (hstep : step cfg p log w a = some w') : Inv cfg p log w' := by
  cases a with
  | start =>
      simp only [step] at hstep
      split at hstep
      · obtain rfl := Option.some.inj hstep
        refine ⟨hw.stored, fun r hr => ?_⟩
        obtain rfl := Option.some.inj hr
        refine ⟨fun q s hq => absurd hq (by simp), w.committed.getD 0, [], hw.stored, ?_⟩
        -- the process reads again from the resume point, with nothing in memory
        rw [resume_eq]
        exact live_start _ _
      · exact absurd hstep (by simp)
  | read =>
      simp only [step] at hstep
      split at hstep
      · next m e rest hr =>
          obtain rfl := Option.some.inj hstep
          obtain ⟨honly, c, seen, hs, hl⟩ := hw.running _ hr
          refine ⟨hw.stored, fun r hr' => ?_⟩
          obtain rfl := Option.some.inj hr'
          refine ⟨onlyPartition_add honly e, c, seen ++ [e], hs, ?_⟩
          rw [partitionOf_add, if_pos rfl]
          refine hl.read hlog ?_
          simpa only [UnderCap, hr] using hcap
      · exact absurd hstep (by simp)
  | flush =>
      simp only [step] at hstep
      split at hstep
      · next m unread hr =>
          obtain rfl := Option.some.inj hstep
          obtain ⟨honly, c, seen, hs, hl⟩ := hw.running _ hr
          refine ⟨stored_commit hlog hL hw hr false, fun r hr' => ?_⟩
          obtain rfl := Option.some.inj hr'
          refine ⟨onlyPartition_popClosed honly false, c, seen, stored_write hlog hw hr false c hs, ?_⟩
          show Live cfg log (write w (Trending.flush cfg m false)).table.get? c
            (partitionOf (popClosed cfg m false).2 p) seen unread
          rw [get?_write w honly, partitionOf_popClosed]
          exact hl.flush hlog hs
      · exact absurd hstep (by simp)
  | stop =>
      simp only [step] at hstep
      split at hstep
      · next m unread hr =>
          obtain rfl := Option.some.inj hstep
          exact ⟨stored_commit hlog hL hw hr true, fun r hr' => absurd hr' (by simp)⟩
      · exact absurd hstep (by simp)
  | crash =>
      simp only [step] at hstep
      split at hstep
      · obtain rfl := Option.some.inj hstep
        exact ⟨hw.stored, fun r hr' => absurd hr' (by simp)⟩
      · exact absurd hstep (by simp)
  | crashInFlush final =>
      simp only [step] at hstep
      split at hstep
      · next m unread hr =>
          obtain rfl := Option.some.inj hstep
          -- the rows are in the table, the offset is not committed
          exact ⟨stored_write hlog hw hr final _ hw.stored, fun r hr' => absurd hr' (by simp)⟩
      · exact absurd hstep (by simp)

include hL in
theorem inv_run {acts : List Action} {w : World} (hcap : Always (step cfg p log) (UnderCap cfg p) {} acts)
    (hrun : run (step cfg p log) {} acts = some w) : Inv cfg p log w :=
  run_state_invariant (I := Inv cfg p log) ⟨stored_init, fun r hr => absurd hr (by simp)⟩
    (fun _ _ _ hw hok hstep => inv_step hlog hL hw hok hstep) hcap hrun

end Steps

/-- **Trending totals survive crashes and restarts exactly.** After any schedule of starts, reads, flushes,
    stops and crashes that stays under the cap, once a process has read the log to its end and stopped,
    the table holds for every key the number of its on-time events, and no other row. -/
theorem totals_survive_restarts (hL : 0 ≤ cfg.latenessMs)
    (hlog : log.Pairwise (fun a b => a.offset < b.offset)) {acts : List Action} {w w' : World}
    (hcap : Always (step cfg p log) (UnderCap cfg p) {} acts)
    (hrun : run (step cfg p log) {} acts = some w)
    (hend : w.running.map Process.unread = some [])
    (hstop : step cfg p log w .stop = some w') (k : WindowKey) :
    w'.table.get? k = if total cfg log k = 0 then none else some (total cfg log k) := by
  have hw := inv_run hlog hL hcap hrun
  have hw' := inv_step hlog hL hw (show UnderCap cfg p w .stop from trivial) hstop
  obtain ⟨⟨m, unread⟩, hr, rfl⟩ := Option.map_eq_some_iff.mp hend
  simp only [step, hr] at hstop
  obtain rfl := Option.some.inj hstop
  obtain ⟨honly, c, seen, hs, hl⟩ := hw.running _ hr
  by_cases hzero : total cfg log k = 0
  · rw [if_pos hzero]
    cases ht : (commit (write w (Trending.flush cfg m true)) p (Trending.flush cfg m true)).table.get? k with
    | none => rfl
    | some n =>
        have := hw'.stored.sound k n ht
        omega
  · rw [if_neg hzero]
    show (write w (Trending.flush cfg m true)).table.get? k = _
    rw [get?_write w honly]
    obtain ⟨e, he, rfl⟩ := tally_pos.mp (Nat.pos_of_ne_zero hzero)
    have hbound := hl.bounded hlog hs true
    rw [onTime_log hlog hs hl, List.mem_append, List.mem_append] at he
    -- the event lies behind the commit point, was read since then, or is still to be read
    rcases he with he | he | he
    · exact max_eq_total hbound (settled_of_behind hlog hs hl he)
    · cases hwin : (partitionOf m p).windows.get? e.key with
      | none => exact max_eq_total hbound (hl.closed e he hwin).1
      | some v =>
          show max _ (largest (popRows cfg true (partitionOf m p)) e.key) = _
          rw [largest_popRows, if_pos (show isDone true _ e.key = true from rfl), hwin]
          exact max_closed hlog hs hl hwin rfl
    · exact absurd he (by simp [onTime, Watermark.onTime])

/-- A crash between the write and the commit, then a restart: the partial count of the open minute and the
    late last event both come out right. -/
theorem totals_survive_restarts_crash :
    let edit (offset : Nat) (t : Int) : Edit := ⟨offset, Py.lit "enwiki", Py.lit "Rome", t⟩
    let log := [edit 3 60000, edit 5 90000, edit 8 250000, edit 9 70000]
    let acts : List Action := [.start, .read, .crashInFlush true, .start, .read, .read, .read, .flush,
      .crash, .start, .read, .read]
    ∃ w w', run (step {} 0 log) {} acts = some w ∧ step {} 0 log w .stop = some w' ∧
      ∀ k, w'.table.get? k = if total {} log k = 0 then none else some (total {} log k) := by
  intro edit log acts
  have hrun : (run (step {} 0 log) {} acts).isSome = true := by decide +kernel
  have hstop : (step {} 0 log ((run (step {} 0 log) {} acts).get hrun) .stop).isSome = true := by
    decide +kernel +revert
  refine ⟨_, _, (Option.some_get hrun).symm, (Option.some_get hstop).symm, ?_⟩
  exact totals_survive_restarts (by decide) (by decide) (by decide +kernel)
    (Option.some_get hrun).symm (by decide +kernel +revert) (Option.some_get hstop).symm

end Restart
end Trending
end Wikistream
