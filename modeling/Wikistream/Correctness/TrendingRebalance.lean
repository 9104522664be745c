import Wikistream.Processors.Trending

/-!
# `Correctness.TrendingRebalance` — what a cooperative revoke does to the partitions that stay

`Trending.on_revoke` flushes with `final=True` before it forgets the revoked partitions. The final flush
takes the open windows of *every* partition, so the ones that stay have to go on without them.

## Contents
- **The system.** `State` (windows and table), `Reachable`, and the continuation of one partition.
- **What going on means** (`GoesOn`): the same events accepted, the same totals in the end, the same
  commit point once the minutes open at the revoke have closed.
- **A window that is still open breaks it** (`not_goesOn_of_open`): its minute counts as written, so the
  next event of the page is thrown away.
- **Otherwise nothing is lost** (`Rel`): windows whose minute is over leave no trace but the rows they
  would have become anyway.
- **The result** (`goesOn_iff`).
-/

namespace Wikistream
namespace Trending

open Lib Windows Db

namespace Rebalance

structure State where
  windows : MinuteWindows := {}
  table : TrendingMinutes := Dict.empty

variable (cfg : Config)

def handle (w : State) (p : Nat) (e : Edit) : State := { w with windows := (add cfg w.windows p e).2 }

/-- Hand a flush to the database and keep the windows it leaves. -/
def apply (w : State) (f : Flush) : State where
  windows := f.windows
  table := upsertTrending w.table f.rows

def flush (w : State) (final : Bool) : State := apply w (Trending.flush cfg w.windows final)

def revoke (w : State) (ps : List Nat) : State := apply w (onRevoke cfg w.windows ps)

/-- The states a consumer can be in. Every edit to a page is on the partition `route` gives the page. -/
inductive Reachable (route : Py.Str → Py.Str → Nat) : State → Prop
  | start (table : TrendingMinutes) : Reachable route { table := table }
  | handle {w : State} (e : Edit) : Reachable route w →
      Reachable route (Rebalance.handle cfg w (route e.wiki e.title) e)
  | flush {w : State} : Reachable route w → Reachable route (Rebalance.flush cfg w false)
  | revoke {w : State} (ps : List Nat) : Reachable route w →
      Reachable route (Rebalance.revoke cfg w ps)

/-! ## The continuation of one partition -/

/-- What happens next: an edit of the partition, or the periodic flush. -/
inductive Next
  | edit (e : Edit)
  | flush
  deriving DecidableEq

def next (p : Nat) (w : State) : Next → State
  | .edit e => handle cfg w p e
  | .flush => flush cfg w false

/-- The state after the continuation. -/
def after (p : Nat) (w : State) (rest : List Next) : State := rest.foldl (next cfg p) w

/-- The answers of `add`, in order. -/
def accepted (p : Nat) : State → List Next → List Bool
  | _, [] => []
  | w, .edit e :: rest => (add cfg w.windows p e).1 :: accepted p (handle cfg w p e) rest
  | w, .flush :: rest => accepted p (flush cfg w false) rest

/-- No event of the continuation takes the partition over `max_windows`. -/
def UnderCap (p : Nat) : State → List Next → Prop
  | _, [] => True
  | w, .edit e :: rest => Fits cfg (partitionOf w.windows p) e ∧ UnderCap p (handle cfg w p e) rest
  | w, .flush :: rest => UnderCap p (flush cfg w false) rest

/-- The edits of a continuation are routed to `p` and come at increasing offsets, above `last`. -/
def Continues (route : Py.Str → Py.Str → Nat) (p : Nat) : Int → List Next → Prop
  | _, [] => True
  | last, .edit e :: rest =>
      route e.wiki e.title = p ∧ last < e.offset ∧ Continues route p e.offset rest
  | last, .flush :: rest => Continues route p last rest

/-- Partition `p` goes on from `w'` as it goes on from `w`. -/
def GoesOn (route : Py.Str → Py.Str → Nat) (p : Nat) (w w' : State) : Prop :=
  ∀ rest, Continues route p (partitionOf w.windows p).lastOffset rest →
    UnderCap cfg p w rest → UnderCap cfg p w' rest →
      -- the same events are accepted
      accepted cfg p w rest = accepted cfg p w' rest ∧
      -- the largest totals ever written are the same
      (∀ k : WindowKey, route k.wiki k.title = p →
        (flush cfg (after cfg p w rest) true).table.get? k =
          (flush cfg (after cfg p w' rest) true).table.get? k) ∧
      -- once every minute open at the start has closed, the commit point is the same
      ((∀ k ∈ (partitionOf w.windows p).windows.keys,
          ∀ j ∈ (partitionOf (after cfg p w rest).windows p).windows.keys, j.minute ≠ k.minute) →
        commitOffset (partitionOf (after cfg p w rest).windows p) =
          commitOffset (partitionOf (after cfg p w' rest).windows p))

variable {cfg} {route : Py.Str → Py.Str → Nat} {p : Nat}

/-! ## What every reachable state satisfies -/

/-- The windows of partition `p` are for pages of `p`, start on a minute the partition has reached, and
    stay under the cap. -/
structure Sound (cfg : Config) (route : Py.Str → Py.Str → Nat) (p : Nat) (s : PartitionState) : Prop where
  aligned : ∀ k w, s.windows.get? k = some w → minuteStart k.minute = k.minute
  reached : ∀ k w, s.windows.get? k = some w → k.minute ≤ s.watermarkMs
  routed : ∀ k w, s.windows.get? k = some w → route k.wiki k.title = p
  size : s.windows.size ≤ cfg.maxWindows

def AllSound (cfg : Config) (route : Py.Str → Py.Str → Nat) (m : MinuteWindows) : Prop :=
  ∀ p s, m.partitions.get? p = some s → Sound cfg route p s

theorem sound_fresh (p : Nat) : Sound cfg route p {} where
  aligned := by simp
  reached := by simp
  routed := by simp
  size := Nat.zero_le _

theorem AllSound.partitionOf {m : MinuteWindows} (h : AllSound cfg route m) (p : Nat) :
    Sound cfg route p (partitionOf m p) := by
  unfold Windows.partitionOf
  cases hp : m.partitions.get? p with
  | none => exact sound_fresh p
  | some s => exact h p s hp

theorem Sound.addTo {s : PartitionState} (h : Sound cfg route p s) {e : Edit}
    (he : route e.wiki e.title = p) : Sound cfg route p (addTo cfg s e).2 where
  aligned := by
    intro k w hk
    rcases get?_addTo_isSome hk with ⟨rfl, _⟩ | hold
    · exact minuteStart_minuteStart _
    · exact h.aligned k w hold
  reached := by
    intro k w hk
    rw [addTo_watermarkMs]
    rcases get?_addTo_isSome hk with ⟨rfl, _⟩ | hold
    · exact (minuteStart_le _).trans (le_max_right _ _)
    · exact (h.reached k w hold).trans (le_max_left _ _)
  routed := by
    intro k w hk
    rcases get?_addTo_isSome hk with ⟨rfl, _⟩ | hold
    · exact he
    · exact h.routed k w hold
  size := size_addTo_le h.size

theorem get?_of_popState {final : Bool} {s : PartitionState} {k : WindowKey} {w : Window}
    (h : (popState cfg final s).windows.get? k = some w) : s.windows.get? k = some w := by
  rw [get?_popState] at h
  split at h
  · exact absurd h (by simp)
  · exact h

theorem Sound.popState {s : PartitionState} (h : Sound cfg route p s) (final : Bool) :
    Sound cfg route p (popState cfg final s) where
  aligned k w hk := h.aligned k w (get?_of_popState hk)
  reached k w hk := h.reached k w (get?_of_popState hk)
  routed k w hk := h.routed k w (get?_of_popState hk)
  size := (Dict.size_filter_le _ _).trans h.size

theorem AllSound.handle {w : State} (h : AllSound cfg route w.windows) {e : Edit}
    (he : route e.wiki e.title = p) : AllSound cfg route (handle cfg w p e).windows := by
  intro q s hq
  change (w.windows.partitions.set p _).get? q = some s at hq
  rw [Dict.get?_set] at hq
  split at hq
  · next hqp =>
      obtain rfl := Option.some.inj hq
      subst hqp
      exact (h.partitionOf q).addTo he
  · exact h q s hq

theorem allSound_popClosed {m : MinuteWindows} (h : AllSound cfg route m) (final : Bool) :
    AllSound cfg route (popClosed cfg m final).2 := by
  intro q s hq
  change (m.partitions.mapVals _).get? q = some s at hq
  rw [Dict.get?_mapVals] at hq
  obtain ⟨t, ht, rfl⟩ := Option.map_eq_some_iff.mp hq
  exact (h q t ht).popState final

theorem allSound_revoke {m : MinuteWindows} (h : AllSound cfg route m) (ps : List Nat) :
    AllSound cfg route (Windows.revoke m ps) := by
  intro q s hq
  rw [get?_revoke] at hq
  split at hq
  · exact absurd hq (by simp)
  · exact h q s hq

theorem Reachable.allSound {w : State} (h : Reachable cfg route w) :
    AllSound cfg route w.windows := by
  induction h with
  | start table => exact fun q s hq => absurd hq (by simp)
  | handle e _ ih => exact ih.handle rfl
  | flush _ ih => exact allSound_popClosed ih false
  | revoke ps _ ih => exact allSound_revoke (allSound_popClosed ih true) ps

/-- A page's row in a flush comes from the page's own partition. -/
theorem get?_flush {w : State} (h : AllSound cfg route w.windows) (final : Bool) {k : WindowKey}
    (hk : route k.wiki k.title = p) :
    (flush cfg w final).table.get? k =
      max (w.table.get? k) (largest (popRows cfg final (partitionOf w.windows p)) k) := by
  show (upsertTrending w.table (popClosed cfg w.windows final).1).get? k = _
  rw [get?_upsertTrending, largest_popClosed (fun q s j v hq hj hjk => ?_)]
  have := (h q s hq).routed j v hj
  rw [← this, hjk, hk]

theorem partitionOf_handle (w : State) (p : Nat) (e : Edit) :
    partitionOf (handle cfg w p e).windows p = (addTo cfg (partitionOf w.windows p) e).2 := by
  show partitionOf (add cfg w.windows p e).2 p = _
  rw [partitionOf_add, if_pos rfl]

theorem partitionOf_flush (w : State) (final : Bool) (p : Nat) :
    partitionOf (flush cfg w final).windows p = popState cfg final (partitionOf w.windows p) :=
  partitionOf_popClosed _ _ _

theorem partitionOf_revoked (w : State) {ps : List Nat} (hp : p ∉ ps) :
    partitionOf (revoke cfg w ps).windows p = popState cfg true (partitionOf w.windows p) := by
  show partitionOf (Windows.revoke (popClosed cfg w.windows true).2 ps) p = _
  rw [partitionOf_revoke _ hp, partitionOf_popClosed]

/-! ## A window that is still open -/

/-- After a final flush that took a window before its minute was over, the page's next event of that minute
    is rejected. -/
theorem isLate_of_taken {s : PartitionState} {e : Edit} (hkey : e.key ∈ s.windows.keys)
    (hopen : closedBefore cfg s ≤ e.key.minute) :
    isLate cfg (observed (popState cfg true s) e) e := by
  refine Or.inr ⟨?_, ?_⟩
  · rw [observed_flushedMinutes]
    exact mem_flushedMinutes_popState.mpr ⟨hopen, Or.inr ⟨e.key, hkey, rfl, rfl⟩⟩
  · rw [observed_windows, ← Dict.get?_eq_none_iff, get?_popState]
    exact if_pos rfl

/-- **A window still open at the revoke breaks the partition.** One more event of its page and minute
    counts without the revoke and is thrown away after it. -/
theorem not_goesOn_of_open {w : State} {ps : List Nat} (hs : AllSound cfg route w.windows)
    (hp : p ∉ ps) {k : WindowKey} (hk : k ∈ (partitionOf w.windows p).windows.keys)
    (hopen : closedBefore cfg (partitionOf w.windows p) ≤ k.minute) :
    ¬ GoesOn cfg route p w (revoke cfg w ps) := by
  have hsound := hs.partitionOf p
  obtain ⟨v, hv⟩ := Dict.mem_keys_iff.mp hk
  -- the next edit of the open window: counted without the revoke, late after it
  let e : Edit := ⟨((partitionOf w.windows p).lastOffset + 1).toNat, k.wiki, k.title, k.minute⟩
  have hkey : e.key = k := by
    show WindowKey.mk k.wiki k.title (minuteStart k.minute) = k
    rw [hsound.aligned k v hv]
  have hmark : closedBefore cfg (observed (partitionOf w.windows p) e) =
      closedBefore cfg (partitionOf w.windows p) := by
    refine closedBefore_eq ?_
    exact max_eq_left (hsound.reached k v hv)
  have hon : ¬ isLate cfg (observed (partitionOf w.windows p) e) e := by
    rintro (hlt | ⟨_, hout⟩)
    · rw [hmark, hkey] at hlt
      exact absurd hopen (not_le.mpr hlt)
    · rw [hkey, observed_windows] at hout
      exact hout hk
  have hlate : isLate cfg (observed (partitionOf (revoke cfg w ps).windows p) e) e := by
    rw [partitionOf_revoked w hp]
    exact isLate_of_taken (hkey ▸ hk) (hkey ▸ hopen)
  intro hgo
  have hcont : Continues route p (partitionOf w.windows p).lastOffset [.edit e] := by
    refine ⟨hsound.routed k v hv, ?_, trivial⟩
    show _ < (((partitionOf w.windows p).lastOffset + 1).toNat : Int)
    omega
  have hcap : UnderCap cfg p w [.edit e] := by
    refine ⟨fun _ => ?_, trivial⟩
    show ((observed (partitionOf w.windows p) e).windows.set _ _).size ≤ _
    rw [Dict.size_set, observed_windows, hkey, if_pos hk]
    exact hsound.size
  have hcap' : UnderCap cfg p (revoke cfg w ps) [.edit e] := ⟨fun h => absurd hlate h, trivial⟩
  have hflags := (hgo [.edit e] hcont hcap hcap').1
  have h1 := (addTo_fst _ _).mpr hon
  have h2 := (addTo_of_late hlate)
  simp only [accepted, add_fst, h1, h2] at hflags
  exact absurd hflags (by simp)

/-! ## When no window is still open -/

/-- The state `s` of a partition without the revoke, against its state `s'` after it. `D` holds the
    windows whose minute was over at the revoke: `s` has yet to write them, or has. -/
structure Rel (cfg : Config) (D : Dict WindowKey Window) (s s' : PartitionState) : Prop where
  lastOffset : s.lastOffset = s'.lastOffset
  watermarkMs : s.watermarkMs = s'.watermarkMs
  partialFloor : s.partialFloor = s'.partialFloor
  minuteOver : ∀ k ∈ D.keys, k.minute < closedBefore cfg s
  windows : ∀ k ∉ D.keys, s.windows.get? k = s'.windows.get? k
  gone : ∀ k ∈ D.keys, s'.windows.get? k = none
  flushedMinutes : ∀ m, closedBefore cfg s ≤ m → (m ∈ s.flushedMinutes ↔ m ∈ s'.flushedMinutes)

/-- The count under `k` in the table `T` without the revoke and in the table `T'` after it: what is left in
    `s` of the windows `D` makes the difference. -/
structure RelTable (D : Dict WindowKey Window) (s : PartitionState) (T T' : Option Nat)
    (k : WindowKey) : Prop where
  table : T' = max T ((D.get? k).map Window.count)
  pending : ∀ v, D.get? k = some v →
    s.windows.get? k = some v ∨ (s.windows.get? k = none ∧ max T (some v.count) = T)

variable {D : Dict WindowKey Window} {s s' : PartitionState}

theorem Rel.closedBefore_eq (h : Rel cfg D s s') : closedBefore cfg s = closedBefore cfg s' :=
  Windows.closedBefore_eq h.watermarkMs

theorem Rel.isLate_iff (h : Rel cfg D s s') (e : Edit) :
    isLate cfg (observed s e) e ↔ isLate cfg (observed s' e) e := by
  have hclosed : closedBefore cfg (observed s e) = closedBefore cfg (observed s' e) :=
    Windows.closedBefore_eq (show max _ _ = max _ _ by rw [h.watermarkMs])
  have hmono : closedBefore cfg s ≤ closedBefore cfg (observed s e) :=
    closedBefore_mono (le_max_left _ _)
  unfold isLate
  rw [← hclosed]
  by_cases hlt : e.key.minute < closedBefore cfg (observed s e)
  · simp [hlt]
  · -- a minute that is not over is none of `D`'s
    have hle : closedBefore cfg s ≤ e.key.minute := hmono.trans (not_lt.mp hlt)
    have hD : e.key ∉ D.keys := fun hk => absurd (h.minuteOver _ hk) (not_lt.mpr hle)
    rw [observed_flushedMinutes, observed_flushedMinutes, observed_windows, observed_windows,
      ← Dict.get?_eq_none_iff, ← Dict.get?_eq_none_iff, h.windows _ hD, h.flushedMinutes _ hle]

theorem Rel.read (h : Rel cfg D s s') {e : Edit} (hf : Fits cfg s e) (hf' : Fits cfg s' e) :
    Rel cfg D (addTo cfg s e).2 (addTo cfg s' e).2 := by
  have hmono : closedBefore cfg s ≤ closedBefore cfg (addTo cfg s e).2 :=
    closedBefore_mono (by rw [addTo_watermarkMs]; exact le_max_left _ _)
  have hover : ∀ k ∈ D.keys, k.minute < closedBefore cfg (addTo cfg s e).2 :=
    fun k hk => (h.minuteOver k hk).trans_le hmono
  refine
    { lastOffset := by rw [addTo_lastOffset, addTo_lastOffset, h.lastOffset]
      watermarkMs := by rw [addTo_watermarkMs, addTo_watermarkMs, h.watermarkMs]
      partialFloor := by rw [addTo_partialFloor, addTo_partialFloor, h.partialFloor]
      minuteOver := hover
      windows := ?_
      gone := ?_
      flushedMinutes := ?_ }
  -- each clause for an edit that is late, and for one that counts
  all_goals by_cases hlate : isLate cfg (observed s e) e
  · rw [addTo_of_late hlate, addTo_of_late ((h.isLate_iff e).mp hlate)]
    exact h.windows
  · intro k hk
    rw [addTo_of_fits hf hlate, addTo_of_fits hf' (mt (h.isLate_iff e).mpr hlate), get?_addWindow,
      get?_addWindow, observed_windows, observed_windows]
    split
    · next hke => rw [h.windows _ (hke ▸ hk)]
    · exact h.windows k hk
  · rw [addTo_of_late ((h.isLate_iff e).mp hlate)]
    exact h.gone
  · intro k hk
    have hne : k ≠ e.key := by
      rintro rfl
      have hlt := hover _ hk
      rw [addTo_of_fits hf hlate] at hlt
      exact hlate (Or.inl hlt)
    rw [addTo_of_fits hf' (mt (h.isLate_iff e).mpr hlate), get?_addWindow, if_neg hne]
    exact h.gone k hk
  · rw [addTo_of_late hlate, addTo_of_late ((h.isLate_iff e).mp hlate)]
    exact fun m hm => h.flushedMinutes m ((closedBefore_mono (le_max_left _ _)).trans hm)
  · rw [addTo_of_fits hf hlate, addTo_of_fits hf' (mt (h.isLate_iff e).mpr hlate)]
    exact fun m hm => h.flushedMinutes m ((closedBefore_mono (le_max_left _ _)).trans hm)

theorem Rel.flush (h : Rel cfg D s s') :
    Rel cfg D (popState cfg false s) (popState cfg false s') where
  lastOffset := h.lastOffset
  watermarkMs := h.watermarkMs
  partialFloor := by
    rw [partialFloor_popState (by simp), partialFloor_popState (by simp), h.partialFloor]
  minuteOver := h.minuteOver
  windows k hk := by rw [get?_popState, get?_popState, h.closedBefore_eq, h.windows k hk]
  gone k hk := by
    rw [get?_popState, h.gone k hk]
    split <;> rfl
  flushedMinutes m hm := by
    rw [closedBefore_popState] at hm
    have hnone : ∀ t : PartitionState, closedBefore cfg t ≤ m →
        ¬ ∃ k ∈ t.windows.keys, isDone false (closedBefore cfg t) k = true ∧ k.minute = m := by
      rintro t ht ⟨k, _, hdone, rfl⟩
      simp only [isDone, Bool.false_or, decide_eq_true_eq] at hdone
      exact absurd ht (not_le.mpr hdone)
    have hm' : closedBefore cfg s' ≤ m := h.closedBefore_eq ▸ hm
    rw [mem_flushedMinutes_popState, mem_flushedMinutes_popState, h.flushedMinutes m hm]
    simp [hm, hm', hnone s hm, hnone s' hm']

/-- Writing the windows of a flush in both runs keeps the tables in the same relation. -/
theorem RelTable.flush (h : Rel cfg D s s') {T T' : Option Nat} {k : WindowKey}
    (ht : RelTable D s T T' k) (final : Bool) :
    RelTable D (popState cfg final s) (max T (largest (popRows cfg final s) k))
      (max T' (largest (popRows cfg final s') k)) k := by
  cases hD : D.get? k with
  -- a window that the revoke did not take: both sides write the same row
  | none =>
      have hk : k ∉ D.keys := Dict.get?_eq_none_iff.mp hD
      have hsame : largest (popRows cfg final s) k = largest (popRows cfg final s') k := by
        rw [largest_popRows, largest_popRows, h.closedBefore_eq, h.windows k hk]
      have hT : T' = T := by
        rw [ht.table, hD]
        exact Option.max_none_right
      refine ⟨?_, fun v hv => absurd (hD.symm.trans hv) (by simp)⟩
      rw [hD, hsame, hT]
      exact Option.max_none_right.symm
  -- a window that it took: its row is in one table, and still to come in the other
  | some v =>
      have hk : k ∈ D.keys := Dict.mem_keys_iff.mpr ⟨v, hD⟩
      have hdone : isDone final (closedBefore cfg s) k = true := by
        simp [isDone, h.minuteOver k hk]
      have hrow' : largest (popRows cfg final s') k = none := by
        rw [largest_popRows, h.gone k hk]
        split <;> rfl
      have hrow : largest (popRows cfg final s) k = (s.windows.get? k).map Window.count := by
        rw [largest_popRows, if_pos hdone]
      have hnone : (popState cfg final s).windows.get? k = none := by
        rw [get?_popState, if_pos hdone]
      have htable := ht.table
      rw [hD, Option.map_some] at htable
      rw [hrow, hrow', htable]
      refine ⟨?_, fun u hu => Or.inr ⟨hnone, ?_⟩⟩
      · rw [hD]
        rcases ht.pending v hD with hs | ⟨hs, _⟩
        · rw [hs]
          cases T <;> simp
        · rw [hs]
          cases T <;> simp
      · obtain rfl := Option.some.inj (hD.symm.trans hu)
        rcases ht.pending v hD with hs | ⟨hs, hmax⟩
        · rw [hs]
          cases T <;> simp
        · rw [hs, Option.map_none, Option.max_none_right, hmax]

theorem RelTable.read (h : Rel cfg D s s') {T T' : Option Nat} {k : WindowKey}
    (ht : RelTable D s T T' k) {e : Edit} (hf : Fits cfg s e) :
    RelTable D (addTo cfg s e).2 T T' k := by
  refine ⟨ht.table, fun v hv => ?_⟩
  have hsame : (addTo cfg s e).2.windows.get? k = s.windows.get? k := by
    by_cases hlate : isLate cfg (observed s e) e
    · rw [addTo_of_late hlate]
      rfl
    · have hne : k ≠ e.key := by
        rintro rfl
        have hover := h.minuteOver _ (Dict.mem_keys_iff.mpr ⟨v, hv⟩)
        exact hlate (Or.inl (hover.trans_le (closedBefore_mono (le_max_left _ _))))
      rw [addTo_of_fits hf hlate, get?_addWindow, if_neg hne]
      rfl
  rw [hsame]
  exact ht.pending v hv

/-- The two runs, as seen from partition `p`. -/
structure Agree (cfg : Config) (route : Py.Str → Py.Str → Nat) (p : Nat) (D : Dict WindowKey Window)
    (w w' : State) : Prop where
  sound : AllSound cfg route w.windows
  sound' : AllSound cfg route w'.windows
  rel : Rel cfg D (partitionOf w.windows p) (partitionOf w'.windows p)
  tables : ∀ k : WindowKey, route k.wiki k.title = p →
    RelTable D (partitionOf w.windows p) (w.table.get? k) (w'.table.get? k) k

variable {w w' : State}

theorem Agree.handle (h : Agree cfg route p D w w') {e : Edit} (he : route e.wiki e.title = p)
    (hf : Fits cfg (partitionOf w.windows p) e) (hf' : Fits cfg (partitionOf w'.windows p) e) :
    Agree cfg route p D (handle cfg w p e) (handle cfg w' p e) where
  sound := h.sound.handle he
  sound' := h.sound'.handle he
  rel := by
    rw [partitionOf_handle, partitionOf_handle]
    exact h.rel.read hf hf'
  tables := by
    rw [partitionOf_handle]
    exact fun k hk => (h.tables k hk).read h.rel hf

theorem Agree.tables_flush (h : Agree cfg route p D w w') (final : Bool) {k : WindowKey}
    (hk : route k.wiki k.title = p) :
    RelTable D (partitionOf (flush cfg w final).windows p) ((flush cfg w final).table.get? k)
      ((flush cfg w' final).table.get? k) k := by
  rw [partitionOf_flush, get?_flush h.sound final hk, get?_flush h.sound' final hk]
  exact (h.tables k hk).flush h.rel final

theorem Agree.periodic (h : Agree cfg route p D w w') :
    Agree cfg route p D (flush cfg w false) (flush cfg w' false) where
  sound := allSound_popClosed h.sound false
  sound' := allSound_popClosed h.sound' false
  rel := by
    rw [partitionOf_flush, partitionOf_flush]
    exact h.rel.flush
  tables := fun _ hk => h.tables_flush false hk

/-- **The two runs agree to the end of every continuation**, and accept the same events on the way. -/
theorem Agree.run {rest : List Next} {last : Int} (h : Agree cfg route p D w w')
    (hcont : Continues route p last rest) (hcap : UnderCap cfg p w rest)
    (hcap' : UnderCap cfg p w' rest) :
    Agree cfg route p D (after cfg p w rest) (after cfg p w' rest) ∧
      accepted cfg p w rest = accepted cfg p w' rest := by
  induction rest generalizing w w' last with
  | nil => exact ⟨h, rfl⟩
  | cons a rest ih =>
      cases a with
      | flush => exact ih h.periodic hcont hcap hcap'
      | edit e =>
          obtain ⟨hagree, hflags⟩ := ih (h.handle hcont.1 hcap.1 hcap'.1) hcont.2.2 hcap.2 hcap'.2
          refine ⟨hagree, ?_⟩
          have hadd : (add cfg w.windows p e).1 = (add cfg w'.windows p e).1 := by
            rw [add_fst, add_fst, Bool.eq_iff_iff, addTo_fst, addTo_fst, h.rel.isLate_iff e]
          show _ :: _ = _ :: _
          rw [hadd, hflags]

/-- The final totals are the same. -/
theorem Agree.total_eq (h : Agree cfg route p D w w') {k : WindowKey} (hk : route k.wiki k.title = p) :
    (flush cfg w true).table.get? k = (flush cfg w' true).table.get? k := by
  have ht := h.tables_flush true hk
  have hnone : (partitionOf (flush cfg w true).windows p).windows.get? k = none := by
    rw [partitionOf_flush, get?_popState]
    exact if_pos rfl
  rw [ht.table]
  cases hD : D.get? k with
  | none => exact Option.max_none_right.symm
  | some v =>
      rcases ht.pending v hD with hs | ⟨_, hmax⟩
      · rw [hnone] at hs
        exact absurd hs (by simp)
      · exact hmax.symm

theorem Agree.commitOffset_eq (h : Agree cfg route p D w w')
    (hgone : ∀ k ∈ D.keys, (partitionOf w.windows p).windows.get? k = none) :
    commitOffset (partitionOf w.windows p) = commitOffset (partitionOf w'.windows p) := by
  refine commitOffset_congr h.rel.lastOffset h.rel.partialFloor (fun k => ?_)
  by_cases hk : k ∈ D.keys
  · rw [hgone k hk, h.rel.gone k hk]
  · exact h.rel.windows k hk

/-- The revoke itself, when the minutes of all windows of `p` are over. -/
theorem agree_revoke {ps : List Nat} (hs : AllSound cfg route w.windows) (hp : p ∉ ps)
    (hover : ∀ k ∈ (partitionOf w.windows p).windows.keys,
      k.minute < closedBefore cfg (partitionOf w.windows p)) :
    Agree cfg route p (partitionOf w.windows p).windows w (revoke cfg w ps) where
  sound := hs
  sound' := allSound_revoke (allSound_popClosed hs true) ps
  rel := by
    rw [partitionOf_revoked w hp]
    refine ⟨rfl, rfl, (partialFloor_popState (fun _ => hover)).symm, hover, fun k hk => ?_,
      fun k _ => (get?_popState true _ k).trans (if_pos rfl), fun m hm => ?_⟩
    · rw [get?_popState, Dict.get?_eq_none_iff.mpr hk]
      split <;> rfl
    · rw [mem_flushedMinutes_popState]
      constructor
      · exact fun h => ⟨hm, Or.inl h⟩
      · rintro ⟨_, h | ⟨k, hk, _, rfl⟩⟩
        · exact h
        · exact absurd (hover k hk) (not_lt.mpr hm)
  tables := by
    intro k hk
    refine ⟨?_, fun v hv => Or.inl hv⟩
    show (flush cfg w true).table.get? k = _
    rw [get?_flush hs true hk, largest_popRows, if_pos (show isDone true _ k = true from rfl)]

/-- **A retained partition goes on as before exactly when no minute of it was open.** After a cooperative
    revoke of other partitions, partition `p` accepts the same events, ends with the same totals and
    commits the same offsets as without it, if and only if the minute of every window `p` had open was
    already over at the revoke. -/
theorem goesOn_iff {w : State} (hw : Reachable cfg route w) {ps : List Nat} (hp : p ∉ ps) :
    GoesOn cfg route p w (revoke cfg w ps) ↔
      ∀ k ∈ (partitionOf w.windows p).windows.keys,
        k.minute < closedBefore cfg (partitionOf w.windows p) := by
  constructor
  · intro hgo k hk
    by_contra hopen
    exact not_goesOn_of_open hw.allSound hp hk (not_lt.mp hopen) hgo
  · intro hover rest hcont hcap hcap'
    obtain ⟨hagree, hflags⟩ := (agree_revoke hw.allSound hp hover).run hcont hcap hcap'
    refine ⟨hflags, fun k hk => hagree.total_eq hk, fun hclosed => hagree.commitOffset_eq ?_⟩
    intro k hk
    rw [Dict.get?_eq_none_iff]
    exact fun hstill => hclosed k hk k hstill rfl

/-- A partition that has read nothing since an earlier revoke goes on through the next one. -/
theorem goesOn_second_revoke :
    let e : Edit := ⟨0, Py.lit "enwiki", Py.lit "Rome", 60000⟩
    let w := revoke {} (handle {} {} 0 e) [1]
    GoesOn {} (fun _ _ => 0) 0 w (revoke {} w [2]) := by
  intro e w
  have hw : Reachable {} (fun _ _ => 0) w := .revoke [1] (.handle e (.start Dict.empty))
  exact (goesOn_iff hw (by decide)).mpr (by decide +kernel)

/-- One edit of a page, a revoke of another partition, and the next edit of the page in the same minute is
    thrown away. -/
theorem retained_edit_lost :
    let e : Edit := ⟨0, Py.lit "enwiki", Py.lit "Rome", 60000⟩
    let e' : Edit := ⟨1, Py.lit "enwiki", Py.lit "Rome", 61000⟩
    let w := handle {} {} 0 e
    Reachable {} (fun _ _ => 0) w ∧
      accepted {} 0 w [.edit e'] = [true] ∧ accepted {} 0 (revoke {} w [1]) [.edit e'] = [false] ∧
      ¬ GoesOn {} (fun _ _ => 0) 0 w (revoke {} w [1]) := by
  intro e e' w
  have hw : Reachable {} (fun _ _ => 0) w := .handle e (.start Dict.empty)
  have hlive : accepted {} 0 w [.edit e'] = [true] := by decide +kernel
  have hlost : accepted {} 0 (revoke {} w [1]) [.edit e'] = [false] := by decide +kernel
  refine ⟨hw, hlive, hlost, fun hgo => ?_⟩
  have hflags := (hgo [.edit e'] ⟨rfl, by decide +kernel, trivial⟩ ⟨by decide +kernel, trivial⟩
    ⟨by decide +kernel, trivial⟩).1
  rw [hlive, hlost] at hflags
  exact absurd hflags (by decide)

end Rebalance
end Trending
end Wikistream
