import Wikistream.Lib.Run
import Wikistream.Processors.Windows

/-!
# `Correctness.WindowCap` — what the window cap does to the counts

`_enforce_cap` deletes the windows of the oldest minute and marks the minute as written, but nothing writes
them: `pop_closed` never returns them, and the commit point moves past their events.

## Contents
- **The books** (`Books`, `booksAfter`): the windows, with every event counted and every window closed. The
  windows booked as closed are the ones that the calls of `pop_closed` return (`map_closed`).
- **Totals** (`openTotal_add`, `openTotal_popClosed`, `shortfall`): counts are never gained, and are lost
  exactly where an event takes its partition over the cap.
- **One partition** (`Kept`): while nothing is lost, a window holds all events of its key, and a key that has
  been closed stays closed.
- **The result** (`counts_kept_iff`).
-/

namespace Wikistream
namespace Windows

open Lib

/-! ## The books -/

inductive Op
  | add (partition : Nat) (e : Edit)
  | popClosed (final : Bool)

/-- The windows, the events that counted so far and the windows closed so far, with their partitions. -/
structure Books where
  windows : MinuteWindows := {}
  counted : List (Nat × Edit) := []
  closed : List (Nat × ClosedWindow) := []

section Books

variable (cfg : Config)

/-- One call: the closed windows it returns, and the state it leaves. -/
def call (m : MinuteWindows) : Op → List ClosedWindow × MinuteWindows
  | .add p e => ([], (add cfg m p e).2)
  | .popClosed final => popClosed cfg m final

/-- The closed windows that the calls return, from the state on. -/
def returned : MinuteWindows → List Op → List ClosedWindow
  | _, [] => []
  | m, op :: ops => (call cfg m op).1 ++ returned (call cfg m op).2 ops

/-- What `popClosed` returns, with the partition of each window. -/
def popBy (m : MinuteWindows) (final : Bool) : List (Nat × ClosedWindow) :=
  m.partitions.entries.flatMap (fun e => (popRows cfg final e.2).map (fun c => (e.1, c)))

def book (b : Books) : Op → Books
  | .add p e =>
      { windows := (add cfg b.windows p e).2
        counted := if (add cfg b.windows p e).1 then b.counted ++ [(p, e)] else b.counted
        closed := b.closed }
  | .popClosed final =>
      { windows := (popClosed cfg b.windows final).2
        counted := b.counted
        closed := b.closed ++ popBy cfg b.windows final }

def booksAfter (ops : List Op) : Books := ops.foldl (book cfg) {}

/-- Counting the event takes its partition no further than the cap. -/
def FitsOp (b : Books) : Op → Prop
  | .add p e => Fits cfg (partitionOf b.windows p) e
  | .popClosed _ => True

/-- No event takes its partition over the cap. -/
def AllFit (ops : List Op) : Prop := Always (fun b op => some (book cfg b op)) (FitsOp cfg) {} ops

end Books

/-- The events that the open windows hold. -/
def openTotal (m : MinuteWindows) : Nat := m.partitions.total (fun s => s.windows.total Window.count)

/-- The events that the closed windows hold. -/
def closedTotal (closed : List (Nat × ClosedWindow)) : Nat := (closed.map (fun c => c.2.count)).sum

/-- The events of a partition that were counted under a key. -/
def eventsOf (b : Books) (p : Nat) (key : WindowKey) : List (Nat × Edit) :=
  b.counted.filter (fun x => x.1 = p ∧ x.2.key = key)

/-- Every event that counted is in a closed window or in an open one. -/
def Conserved (b : Books) : Prop := b.counted.length = closedTotal b.closed + openTotal b.windows

/-- Every counted event below the offset to commit is in a closed window, with all other events of its
    partition and key. -/
def Included (b : Books) : Prop :=
  ∀ p e, (p, e) ∈ b.counted → ∀ offset, (commitOffsets b.windows).get? p = some offset → e.offset < offset →
    ∃ row, (p, row) ∈ b.closed ∧ row.key = e.key ∧ row.count = (eventsOf b p e.key).length

variable {cfg : Config}

theorem booksAfter_snoc (ops : List Op) (op : Op) :
    booksAfter cfg (ops ++ [op]) = book cfg (booksAfter cfg ops) op := List.foldl_concat ..

/-- `popBy` is what `popClosed` returns. -/
theorem map_popBy (m : MinuteWindows) (final : Bool) :
    (popBy cfg m final).map Prod.snd = (popClosed cfg m final).1 := by
  show _ = (m.partitions.entries.map Prod.snd).flatMap (popRows cfg final)
  unfold popBy
  rw [List.map_flatMap, List.flatMap_map]
  apply List.flatMap_congr
  intro e _
  rw [List.map_map]
  exact List.map_id _

theorem map_closed_foldl (ops : List Op) (b : Books) :
    (ops.foldl (book cfg) b).closed.map Prod.snd = b.closed.map Prod.snd ++ returned cfg b.windows ops := by
  induction ops generalizing b with
  | nil => exact (List.append_nil _).symm
  | cons op ops ih =>
      rw [List.foldl_cons, ih]
      cases op with
      | add p e => rfl
      | popClosed final =>
          show (b.closed ++ popBy cfg b.windows final).map Prod.snd ++ _ = _
          rw [List.map_append, map_popBy, List.append_assoc]
          rfl

/-- The windows booked as closed are the ones that were returned. -/
theorem map_closed (ops : List Op) : (booksAfter cfg ops).closed.map Prod.snd = returned cfg {} ops :=
  map_closed_foldl ops {}

theorem mem_popBy {m : MinuteWindows} {final : Bool} {p : Nat} {row : ClosedWindow} :
    (p, row) ∈ popBy cfg m final ↔ ∃ s, m.partitions.get? p = some s ∧ row ∈ popRows cfg final s := by
  unfold popBy
  rw [List.mem_flatMap]
  constructor
  · rintro ⟨e, he, hrow⟩
    obtain ⟨c, hc, heq⟩ := List.mem_map.mp hrow
    obtain ⟨rfl, rfl⟩ := Prod.mk.inj heq
    exact ⟨e.2, Dict.mem_entries_iff.mp he, hc⟩
  · rintro ⟨s, hs, hrow⟩
    exact ⟨(p, s), Dict.mem_entries_iff.mpr hs, List.mem_map.mpr ⟨row, hrow, rfl⟩⟩

theorem allFit_snoc {ops : List Op} {op : Op} :
    AllFit cfg (ops ++ [op]) ↔ AllFit cfg ops ∧ FitsOp cfg (booksAfter cfg ops) op := by
  unfold AllFit
  rw [always_snoc, run_total]
  exact and_congr_right (fun _ => ⟨fun h => h _ rfl, fun h t ht => Option.some.inj ht ▸ h⟩)

/-! ## Totals -/

/-- Every open window has an event. -/
def Positive (m : MinuteWindows) : Prop :=
  ∀ p k w, (partitionOf m p).windows.get? k = some w → 1 ≤ w.count

theorem total_addWindow (s : PartitionState) (e : Edit) :
    (addWindow s e).windows.total Window.count = s.windows.total Window.count + 1 := by
  have h := Dict.total_set Window.count s.windows e.key (((s.windows.get? e.key).getD {}).add e.offset)
  unfold addWindow
  dsimp only
  cases hk : s.windows.get? e.key with
  | none =>
      rw [hk] at h
      simp only [Option.map_none, Option.getD_none, Window.add_count] at h
      exact h
  | some w =>
      rw [hk] at h
      simp only [Option.map_some, Option.getD_some, Window.add_count] at h ⊢
      omega

theorem positive_addWindow {s : PartitionState} (hpos : ∀ k w, s.windows.get? k = some w → 1 ≤ w.count)
    (e : Edit) : ∀ k w, (addWindow s e).windows.get? k = some w → 1 ≤ w.count := by
  intro k w hw
  rw [get?_addWindow] at hw
  split at hw
  · obtain rfl := Option.some.inj hw
    show 1 ≤ _ + 1
    omega
  · exact hpos k w hw

/-- **An event that counts adds one to the total**, unless it takes the partition over the cap: then at least
    one event is gone. -/
theorem total_addTo {s : PartitionState} {e : Edit} (hpos : ∀ k w, s.windows.get? k = some w → 1 ≤ w.count)
    (hcounts : ¬ isLate cfg (observed s e) e) :
    (addTo cfg s e).2.windows.total Window.count ≤ s.windows.total Window.count + 1 ∧
      ((addTo cfg s e).2.windows.total Window.count = s.windows.total Window.count + 1 ↔ Fits cfg s e) := by
  have htotal := total_addWindow (observed s e) e
  rw [observed_windows] at htotal
  by_cases hfits : Fits cfg s e
  · rw [addTo_of_fits hfits hcounts]
    exact ⟨htotal.le, iff_of_true htotal hfits⟩
  · -- the cap removes a window, and a window has an event
    have hover : cfg.maxWindows < (addWindow (observed s e) e).windows.size := by
      refine Nat.lt_of_not_le (fun hle => hfits (fun _ => hle))
    have hlt : (enforceCap cfg (addWindow (observed s e) e)).windows.total Window.count <
        (addWindow (observed s e) e).windows.total Window.count := by
      apply Dict.total_lt_of_sublist
      · intro w hw
        obtain ⟨k, hk⟩ := Dict.mem_values_iff.mp hw
        exact positive_addWindow (s := observed s e) hpos e k w hk
      · exact (capFrame_enforceCap _).windows
      · exact (size_enforceCap_le _).trans_lt hover
    rw [addTo_of_not_late hcounts]
    rw [htotal] at hlt
    exact ⟨hlt.le, iff_of_false hlt.ne hfits⟩

/-- Popping moves counts from open windows to closed ones. -/
theorem total_popState (final : Bool) (s : PartitionState) :
    (popState cfg final s).windows.total Window.count + ((popRows cfg final s).map ClosedWindow.count).sum =
      s.windows.total Window.count := by
  have h := Dict.total_filter Window.count (fun k _ => !isDone final (closedBefore cfg s) k) s.windows
  simp only [Bool.not_not] at h
  rw [← h]
  congr 1
  show (((done cfg final s).map closedWindow).map ClosedWindow.count).sum = _
  rw [List.map_map]
  rfl

theorem openTotal_add (m : MinuteWindows) (p : Nat) (e : Edit) :
    openTotal (add cfg m p e).2 + (partitionOf m p).windows.total Window.count =
      openTotal m + (addTo cfg (partitionOf m p) e).2.windows.total Window.count := by
  have h := Dict.total_set (fun s : PartitionState => s.windows.total Window.count) m.partitions p
    (addTo cfg (partitionOf m p) e).2
  have hold : ((m.partitions.get? p).map (fun s => s.windows.total Window.count)).getD 0 =
      (partitionOf m p).windows.total Window.count := by
    unfold partitionOf
    cases m.partitions.get? p <;> rfl
  rw [hold] at h
  exact h

theorem openTotal_popClosed (m : MinuteWindows) (final : Bool) :
    openTotal (popClosed cfg m final).2 + closedTotal (popBy cfg m final) = openTotal m := by
  show (m.partitions.mapVals (popState cfg final)).total _ + _ = _
  rw [Dict.total_mapVals, openTotal, Dict.total_entries, Dict.total_entries]
  unfold closedTotal popBy
  induction m.partitions.entries with
  | nil => rfl
  | cons x xs ih =>
      have hx := @total_popState cfg final x.2
      rw [List.flatMap_cons, List.map_append, List.sum_append]
      have hrows : (((popRows cfg final x.2).map (fun c => (x.1, c))).map (fun c => c.2.count)).sum =
          ((popRows cfg final x.2).map ClosedWindow.count).sum := by
        rw [List.map_map]
        rfl
      simp only [List.map_cons, List.sum_cons] at ih ⊢
      rw [hrows]
      omega

theorem positive_booksAfter (ops : List Op) : Positive (booksAfter cfg ops).windows := by
  induction ops using List.reverseRecOn with
  | nil =>
      intro p k w hw
      exact absurd hw (by simp [booksAfter, partitionOf])
  | append_singleton ops op ih =>
      rw [booksAfter_snoc]
      cases op with
      | add p e =>
          intro q k w hw
          change (partitionOf (add cfg (booksAfter cfg ops).windows p e).2 q).windows.get? k = some w at hw
          rw [partitionOf_add] at hw
          split at hw
          · by_cases hl : isLate cfg (observed (partitionOf (booksAfter cfg ops).windows p) e) e
            · rw [addTo_of_late hl] at hw
              exact ih p k w hw
            · rw [addTo_of_not_late hl] at hw
              have hsub := (@capFrame_enforceCap cfg
                (addWindow (observed (partitionOf (booksAfter cfg ops).windows p) e) e)).windows
              have hw := Dict.mem_entries_iff.mp (hsub.subset (Dict.mem_entries_iff (e := (k, w)).mpr hw))
              exact positive_addWindow (fun k w hw => ih p k w hw) e k w hw
          · exact ih q k w hw
      | popClosed final =>
          intro q k w hw
          change (partitionOf (popClosed cfg (booksAfter cfg ops).windows final).2 q).windows.get? k = some w at hw
          rw [partitionOf_popClosed, get?_popState] at hw
          split at hw
          · exact absurd hw (by simp)
          · exact ih q k w hw

/-- **Counts are never gained, and none is lost exactly if every event fits.** -/
theorem shortfall (ops : List Op) :
    closedTotal (booksAfter cfg ops).closed + openTotal (booksAfter cfg ops).windows ≤
        (booksAfter cfg ops).counted.length ∧
      (Conserved (booksAfter cfg ops) ↔ AllFit cfg ops) := by
  induction ops using List.reverseRecOn with
  | nil => exact ⟨le_refl _, iff_of_true rfl trivial⟩
  | append_singleton ops op ih =>
      have hpos := @positive_booksAfter cfg ops
      rw [allFit_snoc, ← ih.2, booksAfter_snoc]
      unfold Conserved
      generalize booksAfter cfg ops = b at *
      have hle := ih.1
      cases op with
      | add p e =>
          have hopen := @openTotal_add cfg b.windows p e
          by_cases hl : isLate cfg (observed (partitionOf b.windows p) e) e
          · have hfst : (add cfg b.windows p e).1 = false := by
              rw [add_fst, addTo_of_late hl]
            rw [addTo_of_late hl, observed_windows] at hopen
            have hsame : openTotal (add cfg b.windows p e).2 = openTotal b.windows := by omega
            simp only [book, hfst, hsame, Bool.false_eq_true, if_false]
            exact ⟨hle, iff_of_eq (and_iff_left (show FitsOp cfg b (.add p e) from fun h => absurd hl h)).symm.eq⟩
          · have hfst : (add cfg b.windows p e).1 = true := (addTo_fst _ _).mpr hl
            have htotal := @total_addTo cfg _ _ (hpos p) hl
            simp only [book, hfst, if_true, List.length_append, List.length_singleton]
            rw [show FitsOp cfg b (.add p e) ↔ _ from htotal.2.symm]
            omega
      | popClosed final =>
          have hopen := @openTotal_popClosed cfg b.windows final
          have hclosed : closedTotal (b.closed ++ popBy cfg b.windows final) =
              closedTotal b.closed + closedTotal (popBy cfg b.windows final) := by
            unfold closedTotal
            rw [List.map_append, List.sum_append]
          simp only [book, FitsOp, and_true, hclosed]
          omega

/-! ## One partition -/

/-- The state of a partition whose events have all fitted. -/
structure Kept (cfg : Config) (b : Books) (p : Nat) : Prop where
  count : ∀ k w, (partitionOf b.windows p).windows.get? k = some w → w.count = (eventsOf b p k).length
  first_nonneg : ∀ k w, (partitionOf b.windows p).windows.get? k = some w → 0 ≤ w.firstOffset
  first_le : ∀ e w, (p, e) ∈ b.counted → (partitionOf b.windows p).windows.get? e.key = some w →
    w.firstOffset ≤ e.offset
  row : ∀ e, (p, e) ∈ b.counted → (partitionOf b.windows p).windows.get? e.key = none →
    ∃ row, (p, row) ∈ b.closed ∧ row.key = e.key ∧ row.count = (eventsOf b p e.key).length
  stays_closed : ∀ e, (p, e) ∈ b.counted → (partitionOf b.windows p).windows.get? e.key = none →
    e.key.minute < closedBefore cfg (partitionOf b.windows p) ∨
      e.key.minute ∈ (partitionOf b.windows p).flushedMinutes

theorem mem_eventsOf {b : Books} {p : Nat} {k : WindowKey} {x : Nat × Edit} :
    x ∈ eventsOf b p k ↔ x ∈ b.counted ∧ x.1 = p ∧ x.2.key = k := by
  simp [eventsOf]

section Add

variable {b : Books} {p : Nat} {e : Edit}

/-- An event that does not count changes nothing but the watermark and the last offset. -/
theorem Kept.add_late (h : Kept cfg b p) (hl : isLate cfg (observed (partitionOf b.windows p) e) e) :
    Kept cfg (book cfg b (.add p e)) p := by
  have hfst : (add cfg b.windows p e).1 = false := by
    rw [add_fst, addTo_of_late hl]
  have hbook : book cfg b (.add p e) = { b with windows := (add cfg b.windows p e).2 } := by
    simp [book, hfst]
  have hstate : partitionOf (add cfg b.windows p e).2 p = observed (partitionOf b.windows p) e := by
    rw [partitionOf_add, if_pos rfl, addTo_of_late hl]
  rw [hbook]
  refine ⟨?_, ?_, ?_, ?_, ?_⟩
  · intro k w hw
    rw [hstate] at hw
    exact h.count k w hw
  · intro k w hw
    rw [hstate] at hw
    exact h.first_nonneg k w hw
  · intro f w hf hw
    rw [hstate] at hw
    exact h.first_le f w hf hw
  · intro f hf hnone
    rw [hstate] at hnone
    exact h.row f hf hnone
  · intro f hf hnone
    rw [hstate] at hnone ⊢
    refine (h.stays_closed f hf hnone).imp_left (fun hlt => hlt.trans_le ?_)
    exact closedBefore_mono (le_max_left _ _)

/-- A counted event belongs to an open window or to a key without events. -/
theorem Kept.fresh (h : Kept cfg b p) (hl : ¬ isLate cfg (observed (partitionOf b.windows p) e) e)
    (hnone : (partitionOf b.windows p).windows.get? e.key = none) :
    ∀ f, (p, f) ∈ b.counted → f.key ≠ e.key := by
  intro f hf hkey
  apply hl
  rw [← hkey] at hnone
  rcases h.stays_closed f hf hnone with hlt | hflushed
  · refine Or.inl ?_
    rw [← hkey]
    exact hlt.trans_le (closedBefore_mono (le_max_left _ _))
  · refine Or.inr ⟨?_, ?_⟩
    · rw [← hkey]
      exact hflushed
    · rw [← hkey]
      exact Dict.get?_eq_none_iff.mp hnone

theorem eventsOf_snoc (b : Books) (m : MinuteWindows) (p : Nat) (e : Edit) (k : WindowKey) :
    eventsOf { b with windows := m, counted := b.counted ++ [(p, e)] } p k =
      if e.key = k then eventsOf b p k ++ [(p, e)] else eventsOf b p k := by
  unfold eventsOf
  rw [List.filter_append]
  split
  · next hk => simp [hk]
  · next hk => simp [hk]

/-- An event that counts and fits goes into its window. -/
theorem Kept.add_counted (h : Kept cfg b p) (hl : ¬ isLate cfg (observed (partitionOf b.windows p) e) e)
    (hfits : Fits cfg (partitionOf b.windows p) e) : Kept cfg (book cfg b (.add p e)) p := by
  have hfst : (add cfg b.windows p e).1 = true := (addTo_fst _ _).mpr hl
  have hbook : book cfg b (.add p e) =
      { b with windows := (add cfg b.windows p e).2, counted := b.counted ++ [(p, e)] } := by
    simp [book, hfst]
  have hstate : partitionOf (add cfg b.windows p e).2 p = addWindow (observed (partitionOf b.windows p) e) e := by
    rw [partitionOf_add, if_pos rfl, addTo_of_fits hfits hl]
  have hget : ∀ k, (partitionOf (add cfg b.windows p e).2 p).windows.get? k =
      if k = e.key then some ((((partitionOf b.windows p).windows.get? e.key).getD {}).add e.offset)
      else (partitionOf b.windows p).windows.get? k := by
    intro k
    rw [hstate, get?_addWindow, observed_windows]
  -- an event of another window was counted before
  have hbefore : ∀ f, (p, f) ∈ b.counted ++ [(p, e)] → f.key ≠ e.key → (p, f) ∈ b.counted := by
    intro f hf hne
    rcases List.mem_append.mp hf with hold | hnew
    · exact hold
    · exact absurd (congrArg Edit.key (Prod.mk.inj (List.mem_singleton.mp hnew)).2) hne
  rw [hbook]
  refine ⟨?_, ?_, ?_, ?_, ?_⟩
  · intro k w hw
    rw [hget] at hw
    rw [eventsOf_snoc]
    split at hw
    · next hk =>
        obtain rfl := Option.some.inj hw
        rw [if_pos hk.symm, List.length_append, List.length_singleton, Window.add_count, hk]
        congr 1
        cases hopen : (partitionOf b.windows p).windows.get? e.key with
        | some w => exact h.count e.key w hopen
        | none =>
            -- a window that opens now has counted nothing: else it was open, or is closed for good
            have hempty : eventsOf b p e.key = [] := by
              refine List.eq_nil_iff_forall_not_mem.mpr (fun x hx => ?_)
              obtain ⟨hmem, rfl, hkey⟩ := mem_eventsOf.mp hx
              exact h.fresh hl hopen x.2 hmem hkey
            rw [hempty]
            rfl
    · next hk =>
        rw [if_neg (Ne.symm hk)]
        exact h.count k w hw
  · intro k w hw
    rw [hget] at hw
    split at hw
    · obtain rfl := Option.some.inj hw
      exact Window.add_firstOffset_nonneg _ (Int.natCast_nonneg _)
    · exact h.first_nonneg k w hw
  · intro f w hf hw
    rw [hget] at hw
    split at hw
    · next hk =>
        obtain rfl := Option.some.inj hw
        rcases List.mem_append.mp hf with hold | hnew
        · cases hopen : (partitionOf b.windows p).windows.get? e.key with
          | some w =>
              have hle := h.first_le f w hold (hk ▸ hopen)
              exact (Window.add_firstOffset_le_self _ (h.first_nonneg e.key w hopen)).trans hle
          | none => exact absurd hk (h.fresh hl hopen f hold)
        · obtain rfl := (Prod.mk.inj (List.mem_singleton.mp hnew)).2
          exact Window.add_firstOffset_le _ _
    · next hk => exact h.first_le f w (hbefore f hf hk) hw
  · intro f hf hnone
    rw [hget] at hnone
    split at hnone
    · exact absurd hnone (by simp)
    · next hk =>
        rw [eventsOf_snoc, if_neg (Ne.symm hk)]
        exact h.row f (hbefore f hf hk) hnone
  · intro f hf hnone
    rw [hget] at hnone
    split at hnone
    · exact absurd hnone (by simp)
    · next hk =>
        -- the watermark only moves forward
        rw [hstate]
        refine (h.stays_closed f (hbefore f hf hk) hnone).imp_left (fun hlt => hlt.trans_le ?_)
        exact closedBefore_mono (le_max_left _ _)

/-- An event of another partition changes nothing here. -/
theorem Kept.add_other {q : Nat} (h : Kept cfg b p) (hne : p ≠ q) : Kept cfg (book cfg b (.add q e)) p := by
  have hstate : partitionOf (book cfg b (.add q e)).windows p = partitionOf b.windows p := by
    show partitionOf (add cfg b.windows q e).2 p = _
    rw [partitionOf_add, if_neg hne]
  have hmem : ∀ f, (p, f) ∈ (book cfg b (.add q e)).counted ↔ (p, f) ∈ b.counted := by
    intro f
    show (p, f) ∈ (if _ then _ else _) ↔ _
    split
    · simp [hne]
    · exact Iff.rfl
  have hevents : ∀ k, eventsOf (book cfg b (.add q e)) p k = eventsOf b p k := by
    intro k
    show List.filter _ (if _ then _ else _) = _
    split
    · rw [List.filter_append]
      simp [hne.symm, eventsOf]
    · rfl
  refine ⟨?_, ?_, ?_, ?_, ?_⟩
  · intro k w hw
    rw [hstate] at hw
    rw [hevents]
    exact h.count k w hw
  · intro k w hw
    rw [hstate] at hw
    exact h.first_nonneg k w hw
  · intro f w hf hw
    rw [hstate] at hw
    exact h.first_le f w ((hmem f).mp hf) hw
  · intro f hf hnone
    rw [hstate] at hnone
    rw [hevents]
    exact h.row f ((hmem f).mp hf) hnone
  · intro f hf hnone
    rw [hstate] at hnone ⊢
    exact h.stays_closed f ((hmem f).mp hf) hnone

end Add

/-- Popped windows leave as rows with all of their events. -/
theorem Kept.popClosed {b : Books} {p : Nat} (h : Kept cfg b p) (final : Bool) :
    Kept cfg (book cfg b (.popClosed final)) p := by
  have hstate : partitionOf (book cfg b (.popClosed final)).windows p = popState cfg final (partitionOf b.windows p) :=
    partitionOf_popClosed b.windows final p
  have hget := @get?_popState cfg final (partitionOf b.windows p)
  have hopen : ∀ k w, (popState cfg final (partitionOf b.windows p)).windows.get? k = some w →
      (partitionOf b.windows p).windows.get? k = some w := by
    intro k w hw
    rw [hget] at hw
    split at hw
    · exact absurd hw (by simp)
    · exact hw
  refine ⟨?_, ?_, ?_, ?_, ?_⟩
  · intro k w hw
    rw [hstate] at hw
    exact h.count k w (hopen k w hw)
  · intro k w hw
    rw [hstate] at hw
    exact h.first_nonneg k w (hopen k w hw)
  · intro f w hf hw
    rw [hstate] at hw
    exact h.first_le f w hf (hopen f.key w hw)
  · intro f hf hnone
    rw [hstate, hget] at hnone
    cases hw : (partitionOf b.windows p).windows.get? f.key with
    | none =>
        obtain ⟨row, hrow, hkey, hcount⟩ := h.row f hf hw
        exact ⟨row, List.mem_append_left _ hrow, hkey, hcount⟩
    | some w =>
        -- the window was open, so it is one that is popped now
        have hdone : isDone final (closedBefore cfg (partitionOf b.windows p)) f.key = true := by
          by_contra hnot
          rw [if_neg hnot, hw] at hnone
          exact absurd hnone (by simp)
        have hpart : b.windows.partitions.get? p = some (partitionOf b.windows p) := by
          unfold partitionOf at hw ⊢
          cases hp : b.windows.partitions.get? p with
          | none =>
              rw [hp] at hw
              exact absurd hw (by simp)
          | some s => rfl
        refine ⟨⟨f.wiki, f.title, f.key.minute, w.count⟩, List.mem_append_right _ ?_, rfl, h.count f.key w hw⟩
        exact mem_popBy.mpr ⟨_, hpart, mem_popRows.mpr ⟨f.key, w, hw, hdone, rfl⟩⟩
  · intro f hf hnone
    rw [hstate] at hnone ⊢
    rw [closedBefore_popState, mem_flushedMinutes_popState]
    by_cases hlt : f.key.minute < closedBefore cfg (partitionOf b.windows p)
    · exact Or.inl hlt
    · refine Or.inr ⟨Int.not_lt.mp hlt, ?_⟩
      rw [hget] at hnone
      cases hw : (partitionOf b.windows p).windows.get? f.key with
      | none => exact Or.inl ((h.stays_closed f hf hw).resolve_left hlt)
      | some w =>
          refine Or.inr ⟨f.key, Dict.mem_keys_iff.mpr ⟨w, hw⟩, ?_, rfl⟩
          by_contra hnot
          rw [if_neg hnot, hw] at hnone
          exact absurd hnone (by simp)

theorem kept_booksAfter {ops : List Op} (hfit : AllFit cfg ops) (p : Nat) : Kept cfg (booksAfter cfg ops) p := by
  induction ops using List.reverseRecOn with
  | nil =>
      refine ⟨?_, ?_, ?_, ?_, ?_⟩
      · intro k w hw
        exact absurd hw (by simp [booksAfter, partitionOf])
      · intro k w hw
        exact absurd hw (by simp [booksAfter, partitionOf])
      all_goals exact fun _ => by simp [booksAfter]
  | append_singleton ops op ih =>
      obtain ⟨hbefore, hop⟩ := allFit_snoc.mp hfit
      have h := ih hbefore
      rw [booksAfter_snoc]
      cases op with
      | popClosed final => exact h.popClosed final
      | add q e =>
          by_cases hpq : p = q
          · subst hpq
            by_cases hl : isLate cfg (observed (partitionOf (booksAfter cfg ops).windows p) e) e
            · exact h.add_late hl
            · exact h.add_counted hl hop
          · exact h.add_other hpq

/-- The offset to commit is not past the first offset of an open window. -/
theorem commitOffset_le {s : PartitionState} {offset : Int} (h : commitOffset s = some offset) {k : WindowKey}
    {w : Window} (hw : s.windows.get? k = some w) : offset ≤ w.firstOffset := by
  have hmem : w.firstOffset ∈ s.windows.values.map Window.firstOffset :=
    List.mem_map_of_mem (Dict.mem_values_iff.mpr ⟨k, hw⟩)
  unfold commitOffset at h
  dsimp only at h
  split at h
  · next oldest hmin =>
      have hle := (List.min?_eq_some_iff.mp hmin).2 _ hmem
      obtain rfl := Option.some.inj h
      split
      · exact (min_le_left _ _).trans hle
      · exact hle
  · next hmin =>
      rw [List.min?_eq_none_iff] at hmin
      rw [hmin] at hmem
      exact absurd hmem (by simp)

/-- While everything fits, what lies below the offset to commit has been written. -/
theorem included_booksAfter {ops : List Op} (hfit : AllFit cfg ops) : Included (booksAfter cfg ops) := by
  intro p e he offset hoffset hlt
  have h := kept_booksAfter hfit p
  rw [get?_commitOffsets] at hoffset
  cases hw : (partitionOf (booksAfter cfg ops).windows p).windows.get? e.key with
  | none => exact h.row e he hw
  | some w =>
      have hle := commitOffset_le hoffset hw
      have := h.first_le e w he hw
      omega

/-- **Nothing vanishes exactly if no event takes its partition over the cap.** For every cap, allowance for
    lateness and sequence of calls, the closed windows being the ones that the calls of `pop_closed` return. -/
theorem counts_kept_iff (cfg : Config) (ops : List Op) :
    (booksAfter cfg ops).closed.map Prod.snd = returned cfg {} ops ∧
    ((Conserved (booksAfter cfg ops) ∧ Included (booksAfter cfg ops)) ↔ AllFit cfg ops) := by
  refine ⟨map_closed ops, ?_⟩
  rw [(shortfall ops).2]
  exact ⟨And.left, fun h => ⟨h, included_booksAfter h⟩⟩

/-- With room for one window, the edit of a second page in the next minute makes the first page's vanish:
    it is in no window, and the commit point is past it. -/
theorem evicted_window_vanishes :
    let cfg : Config := { maxWindows := 1 }
    let first : Edit := ⟨0, Py.lit "w", Py.lit "A", 0⟩
    let ops := [Op.add 0 first, .add 0 ⟨1, Py.lit "w", Py.lit "B", 60000⟩, .popClosed true]
    ¬ Conserved (booksAfter cfg ops) ∧ ¬ Included (booksAfter cfg ops) := by
  intro cfg first ops
  constructor
  · have hnot : ¬ (booksAfter cfg ops).counted.length =
        closedTotal (booksAfter cfg ops).closed + openTotal (booksAfter cfg ops).windows := by
      decide +kernel
    exact hnot
  · intro hincluded
    have hcounted : (0, first) ∈ (booksAfter cfg ops).counted := by decide +kernel
    have hoffset : (commitOffsets (booksAfter cfg ops).windows).get? 0 = some 1 := by decide +kernel
    have hrows : ∀ row ∈ (booksAfter cfg ops).closed, row.2.key ≠ first.key := by decide +kernel
    obtain ⟨row, hrow, hkey, _⟩ := hincluded 0 first hcounted 1 hoffset (by decide)
    exact hrows _ hrow hkey

end Windows
end Wikistream
