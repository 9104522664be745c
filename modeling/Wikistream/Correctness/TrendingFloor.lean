import Wikistream.Correctness.TrendingRestart

/-!
# `Correctness.TrendingFloor` — a partition that goes on after a final flush

A rebalance flushes every partition for good, those that stay with the instance included. The windows it takes too early
hold partial totals, and later events of their minutes are turned away. What saves the totals is the partial floor: no
commit passes it, so whoever has the partition next reads those events again.

## Contents
- **What the events read decide** (`exists_live` and what follows from it): facts of `Live` that need no window.
- **The partial floor** (`foldl_lowerFloor_spec`).
- **The invariant** (`Kept`), which allows for minutes that were written too early. `Kept.read` for one event,
  `Kept.pop` for a flush of either kind.
- **Committing** (`Kept.commit`): the commit point is a resume point all the same.
-/

namespace Wikistream
namespace Trending
namespace Restart

open Lib Windows Db

variable {cfg : Config} {log : List Edit} {T : WindowKey → Option Nat} {c : Int} {s : PartitionState}
  {seen unread : List Edit}

/-! ## What the events read decide -/

theorem size_addTo_le_succ (s : PartitionState) {e : Edit} (hfits : Fits cfg s e) :
    (addTo cfg s e).2.windows.size ≤ s.windows.size + 1 := by
  by_cases hlate : isLate cfg (observed s e) e
  · rw [addTo_of_late hlate]
    exact Nat.le_succ _
  · rw [addTo_of_fits hfits hlate]
    show (s.windows.set _ _).size ≤ _
    rw [Dict.size_set]
    split
    · exact Nat.le_succ _
    · exact le_refl _

section Reads

variable (hlog : log.Pairwise (fun a b => a.offset < b.offset))
include hlog

theorem exists_live_le (T : WindowKey → Option Nat) {n : Nat} (hn : seen.length ≤ n)
    (hsplit : ahead c log = seen ++ unread) :
    ∃ s, Live { cfg with maxWindows := n } log T c s seen unread ∧ s.windows.size ≤ seen.length := by
  induction seen using List.reverseRecOn generalizing unread with
  | nil =>
      rw [List.nil_append] at hsplit
      exact ⟨{}, hsplit ▸ live_start T c, Nat.zero_le _⟩
  | append_singleton es e ih =>
      rw [List.length_append, List.length_singleton] at hn
      rw [List.append_assoc, List.singleton_append] at hsplit
      obtain ⟨s, hl, hsize⟩ := ih (by omega) hsplit
      have hfits : Fits { cfg with maxWindows := n } s e := by
        intro _
        show (s.windows.set _ _).size ≤ n
        rw [Dict.size_set]
        split <;> omega
      refine ⟨_, hl.read hlog hfits, ?_⟩
      rw [List.length_append, List.length_singleton]
      exact (size_addTo_le_succ s hfits).trans (Nat.add_le_add_right hsize 1)

/-- A process that has never flushed and has room for everything has read the same events. -/
theorem exists_live (T : WindowKey → Option Nat) (hsplit : ahead c log = seen ++ unread) :
    ∃ s, Live { cfg with maxWindows := seen.length } log T c s seen unread := by
  obtain ⟨s, hl, _⟩ := exists_live_le hlog T (le_refl _) hsplit
  exact ⟨s, hl⟩

theorem total_split (hsplit : ahead c log = seen ++ unread) (hs : Stored cfg log T c) (k : WindowKey) :
    total cfg log k = tally k (onTime cfg 0 (behind c log)) +
      (tally k (onTime cfg 0 seen) + tally k (onTime cfg (mark 0 seen) unread)) := by
  obtain ⟨s, hl⟩ := exists_live hlog T hsplit
  have hroom : Stored { cfg with maxWindows := seen.length } log T c := ⟨hs.sound, hs.settled, hs.ahead⟩
  exact total_eq hlog hroom hl k

theorem onTime_split (hsplit : ahead c log = seen ++ unread) (hs : Stored cfg log T c) : onTime cfg 0 log =
    onTime cfg 0 (behind c log) ++ (onTime cfg 0 seen ++ onTime cfg (mark 0 seen) unread) := by
  obtain ⟨s, hl⟩ := exists_live hlog T hsplit
  have hroom : Stored { cfg with maxWindows := seen.length } log T c := ⟨hs.sound, hs.settled, hs.ahead⟩
  have hevents := onTime_log hlog hroom hl
  exact hevents

theorem settled_split (hsplit : ahead c log = seen ++ unread) (hs : Stored cfg log T c) {e : Edit}
    (he : e ∈ onTime cfg 0 (behind c log)) : T e.key = some (total cfg log e.key) := by
  refine hs.settled e ?_ (mem_behind.mp (Watermark.mem_of_mem_onTime he)).2
  rw [onTime_split hlog hsplit hs]
  exact List.mem_append_left _ he

end Reads

/-! ## The partial floor -/

/-- The floor only moves down, to first offsets of windows that a final flush takes too early. -/
theorem foldl_lowerFloor_spec {final : Bool} {cutoff : Int} {es : List (WindowKey × Window)}
    (hes : ∀ e ∈ es, 0 ≤ e.2.firstOffset) (floor : Int) :
    let r := es.foldl (lowerFloor final cutoff) floor
    (r = floor ∨ ∃ e ∈ es, cutoff ≤ e.1.minute ∧ e.2.firstOffset = r) ∧ (0 ≤ floor → 0 ≤ r ∧ r ≤ floor) ∧
      (final = true → ∀ e ∈ es, cutoff ≤ e.1.minute → 0 ≤ r ∧ r ≤ e.2.firstOffset) := by
  induction es generalizing floor with
  | nil => exact ⟨Or.inl rfl, fun h => ⟨h, le_refl _⟩, fun _ e he => absurd he (by simp)⟩
  | cons e es ih =>
      have he := hes e List.mem_cons_self
      obtain ⟨hfrom, hdown, hunder⟩ := ih (fun d hd => hes d (List.mem_cons_of_mem _ hd))
        (lowerFloor final cutoff floor e)
      rw [List.foldl_cons]
      by_cases htaken : final = true ∧ cutoff ≤ e.1.minute
      · have hhead : lowerFloor final cutoff floor e =
            if floor < 0 then e.2.firstOffset else min floor e.2.firstOffset := if_pos htaken
        have hbounds : 0 ≤ lowerFloor final cutoff floor e ∧ lowerFloor final cutoff floor e ≤ e.2.firstOffset ∧
            (0 ≤ floor → lowerFloor final cutoff floor e ≤ floor) ∧
            (lowerFloor final cutoff floor e = floor ∨ lowerFloor final cutoff floor e = e.2.firstOffset) := by
          rw [hhead]
          split <;> omega
        obtain ⟨hnonneg, hle, hfloor, hone⟩ := hbounds
        obtain ⟨hr, hrle⟩ := hdown hnonneg
        refine ⟨?_, fun h => ⟨hr, hrle.trans (hfloor h)⟩, ?_⟩
        · rcases hfrom with heq | ⟨d, hd, hdm, hdf⟩
          · rcases hone with hone | hone
            · exact Or.inl (heq.trans hone)
            · exact Or.inr ⟨e, List.mem_cons_self, htaken.2, (heq.trans hone).symm⟩
          · exact Or.inr ⟨d, List.mem_cons_of_mem _ hd, hdm, hdf⟩
        · intro hf d hd hdm
          rcases List.mem_cons.mp hd with rfl | hd
          · exact ⟨hr, hrle.trans hle⟩
          · exact hunder hf d hd hdm
      · have hhead : lowerFloor final cutoff floor e = floor := if_neg htaken
        rw [hhead] at hfrom hdown hunder ⊢
        refine ⟨?_, hdown, ?_⟩
        · rcases hfrom with heq | ⟨d, hd, hdm, hdf⟩
          · exact Or.inl heq
          · exact Or.inr ⟨d, List.mem_cons_of_mem _ hd, hdm, hdf⟩
        · intro hf d hd hdm
          rcases List.mem_cons.mp hd with rfl | hd
          · exact absurd ⟨hf, hdm⟩ htaken
          · exact hunder hf d hd hdm

/-- The floor after a flush, in terms of the windows that were open. -/
theorem partialFloor_spec (hes : ∀ k w, s.windows.get? k = some w → 0 ≤ w.firstOffset) (final : Bool) :
    ((popState cfg final s).partialFloor = s.partialFloor ∨ ∃ k w, s.windows.get? k = some w ∧
      closedBefore cfg s ≤ k.minute ∧ w.firstOffset = (popState cfg final s).partialFloor) ∧
    (0 ≤ s.partialFloor → 0 ≤ (popState cfg final s).partialFloor ∧
      (popState cfg final s).partialFloor ≤ s.partialFloor) ∧
    (final = true → ∀ k w, s.windows.get? k = some w → closedBefore cfg s ≤ k.minute →
      0 ≤ (popState cfg final s).partialFloor ∧ (popState cfg final s).partialFloor ≤ w.firstOffset) := by
  have hdone : ∀ e ∈ done cfg final s, 0 ≤ e.2.firstOffset := fun e he => hes _ _ (mem_done.mp he).1
  obtain ⟨hfrom, hdown, hunder⟩ := @foldl_lowerFloor_spec final (closedBefore cfg s) _ hdone s.partialFloor
  refine ⟨hfrom.imp_right ?_, hdown, fun hf k w hw hopen => hunder hf (k, w) ?_ hopen⟩
  · rintro ⟨e, he, hopen, hfirst⟩
    exact ⟨e.1, e.2, (mem_done.mp he).1, hopen, hfirst⟩
  · exact mem_done.mpr ⟨hw, by simp [isDone, hf]⟩

/-- The floor caps the commit point. -/
theorem commitOffset_floor {c' : Int} (hfloor : 0 ≤ s.partialFloor) (h : commitOffset s = some c') :
    ∃ b, commitOffset { s with partialFloor := -1 } = some b ∧ c' = min b s.partialFloor := by
  unfold commitOffset at h ⊢
  simp only [if_pos hfloor] at h
  split at h
  · next oldest hmin => exact ⟨oldest, by simp [hmin], (Option.some.inj h).symm⟩
  · next hmin =>
      split at h
      · next hlast => exact ⟨s.lastOffset + 1, by simp [hmin, hlast], (Option.some.inj h).symm⟩
      · exact absurd h (by simp)

/-! ## The invariant -/

/-- A process that resumed at `c` and read `seen`, in terms of the state `s` of its partition, after flushes of either
    kind. -/
structure Kept (cfg : Config) (log : List Edit) (T : WindowKey → Option Nat) (c : Int) (s : PartitionState)
    (seen unread : List Edit) : Prop where
  split : ahead c log = seen ++ unread
  watermarkMs : s.watermarkMs = mark 0 seen
  lastOffset : s.lastOffset = (seen.getLast?.map (fun e => (e.offset : Int))).getD (-1)
  windows : ∀ k w, s.windows.get? k = some w → WindowOf (onTime cfg 0 seen) k w
  /-- A key without an open window is written in full and over, or it is behind the floor. -/
  gone : ∀ e ∈ onTime cfg 0 seen, s.windows.get? e.key = none →
    (T e.key = some (total cfg log e.key) ∧ e.key.minute < closedBefore cfg s) ∨
      (0 ≤ s.partialFloor ∧ s.partialFloor ≤ e.offset ∧
        (e.key.minute < closedBefore cfg s ∨ e.key.minute ∈ s.flushedMinutes))
  floor : 0 ≤ s.partialFloor → s.partialFloor ≤ s.lastOffset ∧
    Watermark.Ahead Edit.eventTimeMs (mark 0 (behind s.partialFloor log)) (ahead s.partialFloor log)
  flushedMinutes : ∀ m ∈ s.flushedMinutes, 0 ≤ s.partialFloor
  unset : s.partialFloor < 0 → s.partialFloor = -1

theorem kept_start (T : WindowKey → Option Nat) (c : Int) : Kept cfg log T c {} [] (ahead c log) where
  split := rfl
  watermarkMs := rfl
  lastOffset := rfl
  windows := by simp
  gone := by simp [onTime, Watermark.onTime]
  floor h := absurd h (by decide)
  flushedMinutes := by simp
  unset _ := rfl

/-- Without a floor nothing was written too early. -/
theorem Kept.live (h : Kept cfg log T c s seen unread) (hfloor : s.partialFloor < 0) :
    Live cfg log T c s seen unread where
  split := h.split
  partialFloor := h.unset hfloor
  flushedMinutes := Finset.eq_empty_of_forall_notMem (fun m hm => absurd (h.flushedMinutes m hm) (not_le.mpr hfloor))
  watermarkMs := h.watermarkMs
  lastOffset := h.lastOffset
  windows := h.windows
  closed e he hnone := (h.gone e he hnone).resolve_right (fun hcut => absurd hcut.1 (not_le.mpr hfloor))

/-- What others write in the meantime does no harm. -/
theorem Kept.raise {T' : WindowKey → Option Nat} (h : Kept cfg log T c s seen unread)
    (hT : ∀ k, T k = some (total cfg log k) → T' k = some (total cfg log k)) : Kept cfg log T' c s seen unread where
  split := h.split
  watermarkMs := h.watermarkMs
  lastOffset := h.lastOffset
  windows := h.windows
  gone e he hnone := (h.gone e he hnone).imp_left (fun hfull => ⟨hT _ hfull.1, hfull.2⟩)
  floor := h.floor
  flushedMinutes := h.flushedMinutes
  unset := h.unset

/-! ## What the invariant gives -/

theorem Kept.closedBefore_eq (h : Kept cfg log T c s seen unread) :
    closedBefore cfg s = cutoff cfg (mark 0 seen) := by
  unfold closedBefore cutoff
  rw [h.watermarkMs]

/-- No event still to be read counts towards a minute that is over. -/
theorem Kept.tally_unread_eq_zero (h : Kept cfg log T c s seen unread) {k : WindowKey}
    (hk : k.minute < closedBefore cfg s) : tally k (onTime cfg (mark 0 seen) unread) = 0 := by
  refine tally_eq_zero (fun e he hek => ?_)
  have hle : cutoff cfg (mark 0 seen) ≤ e.key.minute := Watermark.cutoff_le_of_mem_onTime cutoff_mono he
  rw [h.closedBefore_eq, ← hek] at hk
  exact absurd hle (not_le.mpr hk)

theorem Kept.offset_ge (h : Kept cfg log T c s seen unread) {e : Edit} (he : e ∈ seen) : c ≤ (e.offset : Int) := by
  have hmem : e ∈ ahead c log := by
    rw [h.split]
    exact List.mem_append_left _ he
  exact (mem_ahead.mp hmem).2

section Log

variable (hlog : log.Pairwise (fun a b => a.offset < b.offset))
include hlog

theorem Kept.exists_live (h : Kept cfg log T c s seen unread) :
    ∃ t, Live { cfg with maxWindows := seen.length } log T c t seen unread ∧ t.lastOffset = s.lastOffset := by
  obtain ⟨t, hl⟩ := Restart.exists_live hlog T h.split
  exact ⟨t, hl, hl.lastOffset.trans h.lastOffset.symm⟩

theorem Kept.offset_lt {e : Edit} {rest : List Edit} (h : Kept cfg log T c s seen (e :: rest)) :
    ∀ d ∈ seen, d.offset < e.offset := by
  obtain ⟨t, hl, _⟩ := h.exists_live hlog
  exact hl.offset_lt hlog

theorem Kept.offset_le_lastOffset (h : Kept cfg log T c s seen unread) {e : Edit} (he : e ∈ seen) :
    (e.offset : Int) ≤ s.lastOffset := by
  obtain ⟨t, hl, hlast⟩ := h.exists_live hlog
  exact hlast ▸ hl.offset_le_lastOffset hlog he

theorem Kept.lastOffset_lt (h : Kept cfg log T c s seen unread) {e : Edit} (he : e ∈ unread) :
    s.lastOffset < e.offset := by
  obtain ⟨t, hl, hlast⟩ := h.exists_live hlog
  exact hlast ▸ hl.lastOffset_lt hlog he

theorem Kept.window_bounds (h : Kept cfg log T c s seen unread) {k : WindowKey} {w : Window}
    (hw : s.windows.get? k = some w) : 0 ≤ w.firstOffset ∧ w.firstOffset ≤ s.lastOffset := by
  obtain ⟨e, he, _, heo⟩ := (h.windows k w hw).first
  have := h.offset_le_lastOffset hlog (Watermark.mem_of_mem_onTime he)
  omega

/-- **Closing a window completes its key**, also after windows of its minute were written too early. -/
theorem Kept.max_closed (hs : Stored cfg log T c) (h : Kept cfg log T c s seen unread) {k : WindowKey} {w : Window}
    (hw : s.windows.get? k = some w) (hrest : tally k (onTime cfg (mark 0 seen) unread) = 0) :
    max (T k) (some w.count) = some (total cfg log k) := by
  have htotal := total_split hlog h.split hs k
  have hcount := (h.windows k w hw).count
  by_cases hb : ∃ e ∈ onTime cfg 0 (behind c log), e.key = k
  · obtain ⟨e, he, rfl⟩ := hb
    rw [settled_split hlog h.split hs he]
    show some (max _ _) = _
    rw [Nat.max_eq_left (by omega)]
  · -- the whole count of the key was read since the resume point
    push Not at hb
    have hzero : tally k (onTime cfg 0 (behind c log)) = 0 := tally_eq_zero hb
    have heq : w.count = total cfg log k := by omega
    rw [heq]
    cases ht : T k with
    | none => rfl
    | some t =>
        show some (max _ _) = _
        rw [Nat.max_eq_right (hs.sound k t ht).2]

/-- No flush writes more than the final totals. -/
theorem Kept.bounded (hs : Stored cfg log T c) (h : Kept cfg log T c s seen unread) (final : Bool) :
    Bounded cfg log (largest (popRows cfg final s)) := by
  intro k n hn
  rw [largest_popRows] at hn
  split at hn
  · obtain ⟨w, hw, rfl⟩ := Option.map_eq_some_iff.mp hn
    obtain ⟨e, he, hek, _⟩ := (h.windows k w hw).first
    have hpos : 0 < tally k (onTime cfg 0 seen) := tally_pos.mpr ⟨e, he, hek⟩
    have htotal := total_split hlog h.split hs k
    have hcount := (h.windows k w hw).count
    omega
  · exact absurd hn (by simp)

end Log

/-! ## Reading one event -/

/-- Without an open window no earlier event of the key was on time, or its minute would be over or written. -/
theorem Kept.fresh {e : Edit} {rest : List Edit} (h : Kept cfg log T c s seen (e :: rest))
    (hlate : ¬ isLate cfg (observed s e) e) (hnone : s.windows.get? e.key = none) :
    ∀ d ∈ onTime cfg 0 seen, d.key ≠ e.key := by
  intro d hd hde
  have hle : closedBefore cfg (observed s e) ≤ e.key.minute := by
    by_contra hlt
    exact hlate (Or.inl (not_le.mp hlt))
  have hmono : closedBefore cfg s ≤ closedBefore cfg (observed s e) := closedBefore_mono (le_max_left _ _)
  have hopen : ¬ d.key.minute < closedBefore cfg s := by
    rw [hde]
    exact not_lt.mpr (hmono.trans hle)
  rcases h.gone d hd (hde ▸ hnone) with ⟨_, hlt⟩ | ⟨_, _, hlt | hflushed⟩
  · exact hopen hlt
  · exact hopen hlt
  · refine hlate (Or.inr ⟨?_, ?_⟩)
    · rw [observed_flushedMinutes, ← hde]
      exact hflushed
    · rw [observed_windows, ← Dict.get?_eq_none_iff]
      exact hnone

/-- An event is past the cutoff, or in time for a minute that was written too early, or it counts. -/
theorem Kept.event_cases {e : Edit} {rest : List Edit} (h : Kept cfg log T c s seen (e :: rest)) :
    (isLate cfg (observed s e) e ∧ onTime cfg 0 (seen ++ [e]) = onTime cfg 0 seen) ∨
    (isLate cfg (observed s e) e ∧ onTime cfg 0 (seen ++ [e]) = onTime cfg 0 seen ++ [e] ∧
      e.key.minute ∈ s.flushedMinutes ∧ s.windows.get? e.key = none) ∨
    (¬ isLate cfg (observed s e) e ∧ onTime cfg 0 (seen ++ [e]) = onTime cfg 0 seen ++ [e]) := by
  have hmark : closedBefore cfg (observed s e) = cutoff cfg (max (mark 0 seen) e.eventTimeMs) := by
    show minuteStart (max s.watermarkMs e.eventTimeMs - cfg.latenessMs) = _
    rw [h.watermarkMs]
    rfl
  by_cases hin : cutoff cfg (max (mark 0 seen) e.eventTimeMs) ≤ e.key.minute
  · by_cases hlate : isLate cfg (observed s e) e
    · rcases hlate with hlt | ⟨hflushed, hkey⟩
      · exact absurd (hmark ▸ hlt) (not_lt.mpr hin)
      · exact Or.inr (Or.inl ⟨Or.inr ⟨hflushed, hkey⟩, onTime_snoc hin, hflushed, Dict.get?_eq_none_iff.mpr hkey⟩)
    · exact Or.inr (Or.inr ⟨hlate, onTime_snoc hin⟩)
  · refine Or.inl ⟨Or.inl ?_, onTime_snoc_late hin⟩
    rw [hmark]
    exact not_le.mp hin

section Log

variable (hlog : log.Pairwise (fun a b => a.offset < b.offset))
include hlog

theorem Kept.read_windows {e : Edit} {rest : List Edit} (h : Kept cfg log T c s seen (e :: rest))
    (hfits : Fits cfg s e) {k : WindowKey} {w : Window} (hw : (addTo cfg s e).2.windows.get? k = some w) :
    WindowOf (onTime cfg 0 (seen ++ [e])) k w := by
  rcases h.event_cases with ⟨hlate, hseen⟩ | ⟨hlate, hseen, _, hnone⟩ | ⟨hlate, hseen⟩
  · rw [addTo_of_late hlate] at hw
    exact hseen ▸ h.windows k w hw
  · rw [addTo_of_late hlate] at hw
    have hne : e.key ≠ k := by
      rintro rfl
      exact absurd (hnone.symm.trans hw) (by simp)
    exact hseen ▸ (h.windows k w hw).other hne
  · rw [addTo_of_fits hfits hlate, get?_addWindow, observed_windows] at hw
    rw [hseen]
    split at hw
    · next hk =>
        subst hk
        obtain rfl := Option.some.inj hw
        cases hold : s.windows.get? e.key with
        | none => exact windowOf_new (h.fresh hlate hold)
        | some v =>
            have hbefore := h.offset_lt hlog
            exact (h.windows _ v hold).add (fun d hd => hbefore d (Watermark.mem_of_mem_onTime hd))
    · next hk => exact (h.windows k w hw).other (fun hek => hk hek.symm)

theorem Kept.read_gone {e : Edit} {rest : List Edit} (h : Kept cfg log T c s seen (e :: rest))
    (hfits : Fits cfg s e) {d : Edit} (hd : d ∈ onTime cfg 0 (seen ++ [e]))
    (hn : (addTo cfg s e).2.windows.get? d.key = none) :
    (T d.key = some (total cfg log d.key) ∧ d.key.minute < closedBefore cfg (addTo cfg s e).2) ∨
      (0 ≤ s.partialFloor ∧ s.partialFloor ≤ d.offset ∧
        (d.key.minute < closedBefore cfg (addTo cfg s e).2 ∨ d.key.minute ∈ s.flushedMinutes)) := by
  have hmono : closedBefore cfg s ≤ closedBefore cfg (addTo cfg s e).2 :=
    closedBefore_mono (by rw [addTo_watermarkMs]; exact le_max_left _ _)
  -- what was gone before stays gone for the same reason
  have hold : d ∈ onTime cfg 0 seen → s.windows.get? d.key = none →
      (T d.key = some (total cfg log d.key) ∧ d.key.minute < closedBefore cfg (addTo cfg s e).2) ∨
        (0 ≤ s.partialFloor ∧ s.partialFloor ≤ d.offset ∧
          (d.key.minute < closedBefore cfg (addTo cfg s e).2 ∨ d.key.minute ∈ s.flushedMinutes)) := by
    intro hd hn
    refine (h.gone d hd hn).imp (fun hfull => ⟨hfull.1, hfull.2.trans_le hmono⟩) ?_
    exact fun hcut => ⟨hcut.1, hcut.2.1, hcut.2.2.imp_left (fun hlt => hlt.trans_le hmono)⟩
  rcases h.event_cases with ⟨hlate, hseen⟩ | ⟨hlate, hseen, hflushed, _⟩ | ⟨hlate, hseen⟩
  · have hsame : (addTo cfg s e).2.windows = s.windows := by rw [addTo_of_late hlate]; rfl
    rw [hseen] at hd
    exact hold hd (hsame ▸ hn)
  · have hsame : (addTo cfg s e).2.windows = s.windows := by rw [addTo_of_late hlate]; rfl
    rw [hseen] at hd
    rcases List.mem_append.mp hd with hd' | hd'
    · exact hold hd' (hsame ▸ hn)
    · -- the event is turned away, and lies behind nothing that may be committed
      obtain rfl := List.mem_singleton.mp hd'
      have hfloor := h.flushedMinutes _ hflushed
      have hlast := h.lastOffset_lt hlog (List.mem_cons_self (a := d) (l := rest))
      have hle := (h.floor hfloor).1
      exact Or.inr ⟨hfloor, by omega, Or.inr hflushed⟩
  · have hget : ∀ k, (addTo cfg s e).2.windows.get? k =
        if k = e.key then some (((s.windows.get? e.key).getD {}).add e.offset) else s.windows.get? k := by
      intro k
      rw [addTo_of_fits hfits hlate, get?_addWindow, observed_windows]
    rw [hget] at hn
    rw [hseen] at hd
    split at hn
    · exact absurd hn (by simp)
    · next hk =>
        rcases List.mem_append.mp hd with hd' | hd'
        · exact hold hd' hn
        · exact absurd (congrArg Edit.key (List.mem_singleton.mp hd')) hk

theorem Kept.read {e : Edit} {rest : List Edit} (h : Kept cfg log T c s seen (e :: rest)) (hfits : Fits cfg s e) :
    Kept cfg log T c (addTo cfg s e).2 (seen ++ [e]) rest := by
  have hfloor := @addTo_partialFloor cfg s e
  have hlast : s.lastOffset ≤ (addTo cfg s e).2.lastOffset := by
    rw [addTo_lastOffset]
    exact le_max_left _ _
  have hflushed : (addTo cfg s e).2.flushedMinutes = s.flushedMinutes := by
    by_cases hlate : isLate cfg (observed s e) e
    · rw [addTo_of_late hlate]
      rfl
    · rw [addTo_of_fits hfits hlate]
      rfl
  refine
    { split := by rw [h.split, List.append_assoc, List.singleton_append]
      watermarkMs := by rw [addTo_watermarkMs, h.watermarkMs, mark_snoc]
      lastOffset := by rw [addTo_lastOffset, h.lastOffset, lastOffset_snoc (h.offset_lt hlog)]
      windows := fun k w hw => h.read_windows hlog hfits hw
      gone := ?_
      floor := ?_
      flushedMinutes := ?_
      unset := ?_ }
  · rw [hfloor, hflushed]
    exact fun d hd hn => h.read_gone hlog hfits hd hn
  · rw [hfloor]
    exact fun hf => ⟨(h.floor hf).1.trans hlast, (h.floor hf).2⟩
  · rw [hfloor, hflushed]
    exact h.flushedMinutes
  · rw [hfloor]
    exact h.unset

/-! ## Resume points -/

theorem Kept.split_at (h : Kept cfg log T c s seen unread) {f : Int} (hle : c ≤ f) (hlast : f ≤ s.lastOffset + 1) :
    behind f log = behind c log ++ behind f seen ∧ ahead f log = ahead f seen ++ unread := by
  obtain ⟨t, hl, heq⟩ := h.exists_live hlog
  exact hl.split_at hlog hle (heq ▸ hlast)

/-- The first event of a window that is still open, from before everything else that is: it carries the watermark of
    everything behind it. -/
theorem Kept.ahead_least (hL : 0 ≤ cfg.latenessMs) (hs : Stored cfg log T c) (h : Kept cfg log T c s seen unread)
    {d : Edit} (hd : d ∈ seen) (hdm : closedBefore cfg s ≤ d.key.minute)
    (hopen : ∀ k w, s.windows.get? k = some w → closedBefore cfg s ≤ k.minute → (d.offset : Int) ≤ w.firstOffset)
    (hfloor : 0 ≤ s.partialFloor → (d.offset : Int) ≤ s.partialFloor) :
    Watermark.Ahead Edit.eventTimeMs (mark 0 (behind d.offset log)) (ahead d.offset log) := by
  have hlast := h.offset_le_lastOffset hlog hd
  obtain ⟨hbehind, hahead⟩ := h.split_at hlog (h.offset_ge hd) (by omega)
  by_cases hnil : behind d.offset seen = []
  · -- nothing was read behind `d`: the resume point in use is as good
    have hself : ahead d.offset seen = seen := by
      refine List.filter_eq_self.mpr (fun e he => ?_)
      have := List.filter_eq_nil_iff.mp hnil e he
      simpa using this
    rw [hbehind, hahead, hnil, hself, List.append_nil, ← h.split]
    exact hs.ahead
  · have hsorted : seen.Pairwise (fun a b => a.offset < b.offset) := by
      have hall : (ahead c log).Pairwise (fun a b => a.offset < b.offset) := hlog.sublist List.filter_sublist
      rw [h.split] at hall
      exact (List.pairwise_append.mp hall).1
    have hseen : behind d.offset seen ++ ahead d.offset seen = seen := behind_append_ahead hsorted _
    have hfirst : Watermark.Ahead Edit.eventTimeMs (mark 0 (behind c log)) (behind d.offset seen) := by
      intro e he
      refine hs.ahead e ?_
      rw [h.split, ← hseen, List.append_assoc, List.head?_append, Option.mem_def.mp he]
      rfl
    have hmark : mark 0 (behind d.offset log) = mark 0 (behind d.offset seen) := by
      rw [hbehind, mark, Watermark.mark_append]
      exact hfirst.mark_eq (Watermark.le_mark 0 _) hnil
    rw [hmark]
    rcases le_or_gt (mark 0 (behind d.offset seen)) 0 with hpos | hpos
    · exact Watermark.Ahead.of_nonpos hpos
    obtain ⟨e, he, het⟩ := exists_onTime hL hpos
    have honTime : e ∈ onTime cfg 0 seen := by
      rw [← hseen, onTime_append]
      exact List.mem_append_left _ he
    have heLt := (mem_behind.mp (Watermark.mem_of_mem_onTime he)).2
    -- the event with the greatest time behind `d` is of a minute that is over
    have hover : e.key.minute < closedBefore cfg s := by
      cases hw : s.windows.get? e.key with
      | none =>
          rcases h.gone e honTime hw with hfull | ⟨hf, hle, _⟩
          · exact hfull.2
          · have := hfloor hf
            omega
      | some w =>
          by_contra hnot
          have hfirstLe := hopen _ w hw (not_lt.mp hnot)
          have hleast := (h.windows _ w hw).least e honTime rfl
          omega
    intro x hx
    have hdmem : d ∈ ahead d.offset log := by
      rw [hahead]
      exact List.mem_append_left _ (mem_ahead.mpr ⟨hd, le_refl _⟩)
    obtain rfl : x = d := eq_of_head?_ahead hlog hdmem rfl hx
    have hminute : minuteStart e.eventTimeMs < minuteStart x.eventTimeMs := hover.trans_le hdm
    have hlt : e.eventTimeMs < x.eventTimeMs := by
      by_contra hnot
      exact absurd (minuteStart_mono (not_lt.mp hnot)) (not_le.mpr hminute)
    exact (het ▸ hlt.le).trans (le_max_right _ _)

/-! ## Flushing -/

/-- **A flush of either kind keeps the invariant**, over the table it has written. -/
theorem Kept.pop (hL : 0 ≤ cfg.latenessMs) (hs : Stored cfg log T c) (h : Kept cfg log T c s seen unread)
    (final : Bool) :
    Kept cfg log (fun k => max (T k) (largest (popRows cfg final s) k)) c (popState cfg final s) seen unread := by
  obtain ⟨hfrom, hdown, hunder⟩ := partialFloor_spec (fun k w hw => (h.window_bounds hlog hw).1) final
  have hget : ∀ k w, (popState cfg final s).windows.get? k = some w → s.windows.get? k = some w := by
    intro k w hw
    rw [get?_popState] at hw
    split at hw
    · exact absurd hw (by simp)
    · exact hw
  refine
    { split := h.split
      watermarkMs := h.watermarkMs
      lastOffset := h.lastOffset
      windows := fun k w hw => h.windows k w (hget k w hw)
      gone := ?_
      floor := ?_
      flushedMinutes := ?_
      unset := ?_ }
  · intro e he hnone
    have hkept : e.key.minute ∈ s.flushedMinutes →
        e.key.minute < closedBefore cfg s ∨ e.key.minute ∈ (popState cfg final s).flushedMinutes := by
      intro hm
      rcases lt_or_ge e.key.minute (closedBefore cfg s) with hlt | hge
      · exact Or.inl hlt
      · exact Or.inr (mem_flushedMinutes_popState.mpr ⟨hge, Or.inl hm⟩)
    cases hw : s.windows.get? e.key with
    | none =>
        rcases h.gone e he hw with ⟨hfull, hlt⟩ | ⟨hf, hle, hwhy⟩
        · exact Or.inl ⟨max_eq_total (h.bounded hlog hs final) hfull, hlt⟩
        · exact Or.inr ⟨(hdown hf).1, (hdown hf).2.trans hle, hwhy.elim Or.inl hkept⟩
    | some w =>
        rw [get?_popState, hw] at hnone
        have hdone : isDone final (closedBefore cfg s) e.key = true := by
          by_contra hd
          simp [hd] at hnone
        rcases lt_or_ge e.key.minute (closedBefore cfg s) with hlt | hge
        · -- the minute is over, so no unread event counts in it
          refine Or.inl ⟨?_, hlt⟩
          rw [largest_popRows, if_pos hdone, hw]
          exact h.max_closed hlog hs hw (h.tally_unread_eq_zero hlt)
        · -- the window is written too early, and pulls the floor down to its first event
          have hfinal : final = true := by
            simpa [isDone, not_lt.mpr hge] using hdone
          obtain ⟨hnonneg, hle⟩ := hunder hfinal _ w hw hge
          refine Or.inr ⟨hnonneg, hle.trans ((h.windows _ w hw).least e he rfl), Or.inr ?_⟩
          exact mem_flushedMinutes_popState.mpr ⟨hge, Or.inr ⟨e.key, Dict.mem_keys_iff.mpr ⟨w, hw⟩, hdone, rfl⟩⟩
  · intro hf
    rcases hfrom with hsame | ⟨k, w, hw, hopen, hfirst⟩
    · rw [hsame] at hf ⊢
      exact h.floor hf
    · -- the floor is the first event of a window written too early
      obtain ⟨d, hd, rfl, hdo⟩ := (h.windows k w hw).first
      have hfinal : final = true ∨ (popState cfg final s).partialFloor = s.partialFloor := by
        cases final with
        | true => exact Or.inl rfl
        | false => exact Or.inr (partialFloor_popState (by simp))
      rcases hfinal with hfinal | hsame
      · rw [← hfirst, ← hdo] at hdown hunder ⊢
        refine ⟨h.offset_le_lastOffset hlog (Watermark.mem_of_mem_onTime hd), ?_⟩
        exact h.ahead_least hlog hL hs (Watermark.mem_of_mem_onTime hd) hopen
          (fun j v hv hj => (hunder hfinal j v hv hj).2) (fun hfloor => (hdown hfloor).2)
      · rw [hsame] at hf ⊢
        exact h.floor hf
  · intro m hm
    obtain ⟨hge, hold | ⟨k, hk, hdone, rfl⟩⟩ := mem_flushedMinutes_popState.mp hm
    · exact (hdown (h.flushedMinutes m hold)).1
    · obtain ⟨w, hw⟩ := Dict.mem_keys_iff.mp hk
      have hfinal : final = true := by
        simpa [isDone, not_lt.mpr hge] using hdone
      exact (hunder hfinal k w hw hge).1
  · intro hneg
    rcases hfrom with hsame | ⟨k, w, hw, _, hfirst⟩
    · rw [hsame] at hneg ⊢
      exact h.unset hneg
    · have hnonneg := (h.window_bounds hlog hw).1
      omega

/-! ## Committing -/

/-- **The commit point is a resume point**, with or without a floor. -/
theorem Kept.commit (hL : 0 ≤ cfg.latenessMs) (hs : Stored cfg log T c) (h : Kept cfg log T c s seen unread)
    (hopen : ∀ k w, s.windows.get? k = some w → closedBefore cfg s ≤ k.minute) {c' : Int}
    (hcommit : commitOffset s = some c') : Stored cfg log T c' := by
  rcases lt_or_ge s.partialFloor 0 with hneg | hfloor
  · exact (h.live hneg).commit hlog hL hs hopen hcommit
  obtain ⟨b, hb, rfl⟩ := commitOffset_floor hfloor hcommit
  have hunset : ({ s with partialFloor := -1 } : PartitionState).partialFloor < 0 := by
    show (-1 : Int) < 0
    omega
  obtain ⟨hle, hcases⟩ := commitOffset_spec hunset hb
  obtain ⟨hlast, hahead⟩ := h.floor hfloor
  refine ⟨hs.sound, fun e he hlt => ?_, ?_⟩
  · rw [onTime_split hlog h.split hs, List.mem_append, List.mem_append] at he
    rcases he with he | he | he
    · exact settled_split hlog h.split hs he
    · cases hw : s.windows.get? e.key with
      | none =>
          rcases h.gone e he hw with hfull | ⟨_, hbehind, _⟩
          · exact hfull.1
          · omega
      | some w =>
          have hfirst := hle _ w hw
          have hleast := (h.windows _ w hw).least e he rfl
          omega
    · have := h.lastOffset_lt hlog (Watermark.mem_of_mem_onTime he)
      omega
  · rcases le_or_gt s.partialFloor b with hcap | hcap
    · rw [min_eq_right hcap]
      exact hahead
    · rw [min_eq_left hcap.le]
      rcases hcases with ⟨k, w, hw, rfl⟩ | ⟨_, _, rfl⟩
      · obtain ⟨d, hd, rfl, hdo⟩ := (h.windows k w hw).first
        rw [← hdo] at hle hcap ⊢
        exact h.ahead_least hlog hL hs (Watermark.mem_of_mem_onTime hd) (hopen _ w hw)
          (fun j v hv _ => hle j v hv) (fun _ => hcap.le)
      · change s.lastOffset + 1 < s.partialFloor at hcap
        omega

end Log

end Restart
end Trending
end Wikistream
