import Wikistream.Correctness.TrendingRestart
import Wikistream.Correctness.WindowCap

/-!
# `Correctness.WindowClosing` — what the closed windows of a partition depend on

Events of several partitions go through one `MinuteWindows`, and `pop_closed` may be called at any moment between
them. What it returns for a partition is a function of that partition's own events.

## Contents
- **Runs** (`addsOf`, `OpenPops`, `closedAfter`): the events of a partition, and the windows closed up to and with
  the drain at the end.
- **One partition** (`Told`): open and closed windows hold the on-time events of their keys, and a key that was
  closed is below the cutoff.
- **No key twice** (`nodup_popBy`, `Told.nodup`).
- **The result** (`closed_rows`).
-/

namespace Wikistream
namespace Windows

open Lib Trending.Restart

/-! ## Runs -/

/-- The events of the partition, in the order they were added. -/
def addsOf (p : Nat) (ops : List Op) : List Edit :=
  ops.filterMap (fun
    | .add q e => if q = p then some e else none
    | .popClosed _ => none)

/-- No window is taken before its minute is over. -/
def OpenPops (ops : List Op) : Prop := ∀ op ∈ ops, op ≠ .popClosed true

/-- The windows closed by the calls of `pop_closed` and by the drain at the end. -/
def closedAfter (cfg : Config) (ops : List Op) : List (Nat × ClosedWindow) :=
  (booksAfter cfg (ops ++ [.popClosed true])).closed

/-- The partition and the key of a closed window. -/
def rowKey (row : Nat × ClosedWindow) : Nat × WindowKey := (row.1, row.2.key)

variable {cfg : Config} {b : Books} {p q : Nat} {es : List Edit} {ops : List Op} {e : Edit} {k : WindowKey}

theorem addsOf_add (p q : Nat) (ops : List Op) (e : Edit) :
    addsOf p (ops ++ [.add q e]) = if q = p then addsOf p ops ++ [e] else addsOf p ops := by
  unfold addsOf
  rw [List.filterMap_append]
  by_cases h : q = p
  · simp [h]
  · simp [h]

theorem addsOf_popClosed (p : Nat) (ops : List Op) (final : Bool) :
    addsOf p (ops ++ [.popClosed final]) = addsOf p ops := by
  unfold addsOf
  rw [List.filterMap_append]
  exact List.append_nil _

theorem partition_of_window {m : MinuteWindows} {w : Window} (h : (partitionOf m p).windows.get? k = some w) :
    m.partitions.get? p = some (partitionOf m p) := by
  unfold partitionOf at h ⊢
  cases hp : m.partitions.get? p with
  | none =>
      rw [hp] at h
      exact absurd h (by simp)
  | some s => rfl

/-- A row is popped for the window it describes. -/
theorem mem_popBy_iff {m : MinuteWindows} {final : Bool} {row : ClosedWindow} :
    (p, row) ∈ popBy cfg m final ↔ ∃ w, (partitionOf m p).windows.get? row.key = some w ∧
      isDone final (closedBefore cfg (partitionOf m p)) row.key = true ∧ row.count = w.count := by
  rw [mem_popBy]
  constructor
  · rintro ⟨s, hs, hrow⟩
    obtain ⟨k, w, hw, hdone, rfl⟩ := mem_popRows.mp hrow
    have hstate : partitionOf m p = s := by simp [partitionOf, hs]
    rw [hstate]
    exact ⟨w, hw, hdone, rfl⟩
  · rintro ⟨w, hw, hdone, hcount⟩
    refine ⟨_, partition_of_window hw, mem_popRows.mpr ⟨row.key, w, hw, hdone, ?_⟩⟩
    rw [← hcount]
    rfl

/-- One call of `pop_closed` returns no key of a partition twice. -/
theorem nodup_popBy (m : MinuteWindows) (final : Bool) : ((popBy cfg m final).map rowKey).Nodup := by
  unfold popBy
  rw [List.map_flatMap, List.nodup_flatMap]
  constructor
  · intro x _
    unfold popRows done
    rw [List.map_map, List.map_map]
    -- the keys of a row are those of its entry
    have hkeys : ((fun c => rowKey (x.1, c)) ∘ closedWindow) = (fun y : WindowKey × Window => (x.1, y.1)) := rfl
    rw [show (rowKey ∘ fun c => (x.1, c)) ∘ closedWindow = (Prod.mk x.1) ∘ Prod.fst from hkeys, ← List.map_map]
    apply List.Nodup.map (Prod.mk_right_injective x.1)
    exact (List.filter_sublist.map Prod.fst).nodup x.2.windows.nodup
  · have hnodup := List.pairwise_map.mp m.partitions.nodup
    refine hnodup.imp ?_
    intro x y hxy key hx hy
    obtain ⟨row, hrow, rfl⟩ := List.mem_map.mp hx
    obtain ⟨row', hrow', heq⟩ := List.mem_map.mp hy
    obtain ⟨c, _, rfl⟩ := List.mem_map.mp hrow
    obtain ⟨c', _, rfl⟩ := List.mem_map.mp hrow'
    exact hxy (congrArg Prod.fst heq).symm

/-! ## One partition -/

/-- Where the books of a partition stand whose events are `es`. -/
structure Told (cfg : Config) (b : Books) (p : Nat) (es : List Edit) : Prop where
  watermark : (partitionOf b.windows p).watermarkMs = mark 0 es
  flushed : (partitionOf b.windows p).flushedMinutes = ∅
  opened : ∀ k w, (partitionOf b.windows p).windows.get? k = some w →
    0 < w.count ∧ w.count = tally k (onTime cfg 0 es)
  closed : ∀ row, (p, row) ∈ b.closed → 0 < row.count ∧ row.count = tally row.key (onTime cfg 0 es) ∧
    row.key.minute < closedBefore cfg (partitionOf b.windows p) ∧
    (partitionOf b.windows p).windows.get? row.key = none
  complete : ∀ k, 0 < tally k (onTime cfg 0 es) → (partitionOf b.windows p).windows.get? k = none →
    ∃ row, (p, row) ∈ b.closed ∧ row.key = k

theorem told_init : Told cfg {} p [] where
  watermark := rfl
  flushed := rfl
  opened k w hw := absurd hw (by simp [partitionOf])
  closed row hrow := absurd hrow (by simp)
  complete k hk := absurd hk (by simp [onTime, Watermark.onTime, tally])

/-- With nothing marked as written, only the cutoff decides. -/
theorem Told.isLate_iff (h : Told cfg b p es) (e : Edit) :
    isLate cfg (observed (partitionOf b.windows p) e) e ↔
      ¬ cutoff cfg (max (mark 0 es) e.eventTimeMs) ≤ e.key.minute := by
  unfold isLate
  rw [observed_flushedMinutes, h.flushed]
  have hcutoff : closedBefore cfg (observed (partitionOf b.windows p) e) =
      cutoff cfg (max (mark 0 es) e.eventTimeMs) := by
    rw [← h.watermark]
    rfl
  rw [hcutoff]
  simp

/-- Another partition's event. -/
theorem Told.add_other (h : Told cfg b p es) (hne : p ≠ q) : Told cfg (book cfg b (.add q e)) p es := by
  have hstate : partitionOf (book cfg b (.add q e)).windows p = partitionOf b.windows p := by
    refine (partitionOf_add _ _ _ _).trans ?_
    rw [if_neg hne]
  refine ⟨?_, ?_, ?_, ?_, ?_⟩
  · rw [hstate]
    exact h.watermark
  · rw [hstate]
    exact h.flushed
  · rw [hstate]
    exact h.opened
  · rw [hstate]
    exact h.closed
  · rw [hstate]
    exact h.complete

theorem Told.add_late (h : Told cfg b p es) (hl : isLate cfg (observed (partitionOf b.windows p) e) e) :
    Told cfg (book cfg b (.add p e)) p (es ++ [e]) := by
  have hstate : partitionOf (book cfg b (.add p e)).windows p = observed (partitionOf b.windows p) e := by
    refine (partitionOf_add _ _ _ _).trans ?_
    rw [if_pos rfl, addTo_of_late hl]
  have hcutoff : closedBefore cfg (partitionOf b.windows p) ≤
      closedBefore cfg (observed (partitionOf b.windows p) e) := closedBefore_mono (le_max_left _ _)
  have honTime : onTime cfg 0 (es ++ [e]) = onTime cfg 0 es := onTime_snoc_late ((h.isLate_iff e).mp hl)
  refine ⟨?_, ?_, ?_, ?_, ?_⟩
  · rw [hstate, mark_snoc, ← h.watermark]
    rfl
  · rw [hstate]
    exact h.flushed
  · rw [hstate, honTime]
    exact h.opened
  · rw [hstate, honTime]
    intro row hrow
    obtain ⟨hpos, hcount, hlt, hnone⟩ := h.closed row hrow
    exact ⟨hpos, hcount, hlt.trans_le hcutoff, hnone⟩
  · rw [hstate, honTime]
    exact h.complete

theorem Told.add_counted (h : Told cfg b p es) (hl : ¬ isLate cfg (observed (partitionOf b.windows p) e) e)
    (hfit : Fits cfg (partitionOf b.windows p) e) : Told cfg (book cfg b (.add p e)) p (es ++ [e]) := by
  have hstate : partitionOf (book cfg b (.add p e)).windows p =
      addWindow (observed (partitionOf b.windows p) e) e := by
    refine (partitionOf_add _ _ _ _).trans ?_
    rw [if_pos rfl, addTo_of_fits hfit hl]
  have hcutoff : closedBefore cfg (partitionOf b.windows p) ≤
      closedBefore cfg (observed (partitionOf b.windows p) e) := closedBefore_mono (le_max_left _ _)
  have honTime : onTime cfg 0 (es ++ [e]) = onTime cfg 0 es ++ [e] :=
    onTime_snoc (by_contra fun hn => hl ((h.isLate_iff e).mpr hn))
  have hclosedBefore : closedBefore cfg (addWindow (observed (partitionOf b.windows p) e) e) =
      closedBefore cfg (observed (partitionOf b.windows p) e) := rfl
  have hget := get?_addWindow (observed (partitionOf b.windows p) e) e
  have htally : ∀ k, tally k (onTime cfg 0 es ++ [e]) = tally k (onTime cfg 0 es) + if e.key = k then 1 else 0 := by
    intro k
    rw [tally_append]
    simp [tally, List.countP_cons]
  -- a key that was closed is below the cutoff, and the event is not
  have hkept : ∀ row, (p, row) ∈ b.closed → row.key ≠ e.key := by
    intro row hrow heq
    have hlt := (h.closed row hrow).2.2.1
    rw [heq] at hlt
    exact hl (Or.inl (hlt.trans_le hcutoff))
  refine ⟨?_, ?_, ?_, ?_, ?_⟩
  · rw [hstate, mark_snoc, ← h.watermark]
    rfl
  · rw [hstate]
    exact h.flushed
  · rw [hstate, honTime]
    intro k w hw
    rw [hget] at hw
    rw [htally]
    split at hw
    · next hk =>
        obtain rfl := Option.some.inj hw
        subst hk
        rw [if_pos rfl, Window.add_count]
        refine ⟨Nat.succ_pos _, congrArg Nat.succ ?_⟩
        rw [observed_windows]
        cases hold : (partitionOf b.windows p).windows.get? e.key with
        | some w => exact (h.opened e.key w hold).2
        | none =>
            by_contra hne
            obtain ⟨row, hrow, hkey⟩ := h.complete e.key (Nat.pos_of_ne_zero (Ne.symm hne)) hold
            exact hkept row hrow hkey
    · next hk =>
        rw [if_neg (fun heq => hk heq.symm)]
        exact h.opened k w hw
  · rw [hstate, honTime]
    intro row hrow
    have hne := hkept row hrow
    obtain ⟨hpos, hcount, hlt, hnone⟩ := h.closed row hrow
    rw [htally, if_neg hne.symm, hget, if_neg hne, hclosedBefore]
    exact ⟨hpos, hcount, hlt.trans_le hcutoff, hnone⟩
  · rw [hstate, honTime]
    intro k hk hnone
    rw [hget] at hnone
    split at hnone
    · exact absurd hnone (by simp)
    · next hne =>
        rw [htally, if_neg (fun heq => hne heq.symm)] at hk
        exact h.complete k hk hnone

theorem Told.popClosed (h : Told cfg b p es) : Told cfg (book cfg b (.popClosed false)) p es := by
  have hstate : partitionOf (book cfg b (.popClosed false)).windows p = popState cfg false (partitionOf b.windows p) :=
    partitionOf_popClosed b.windows false p
  have hget := @get?_popState cfg false (partitionOf b.windows p)
  have hdone : ∀ k, isDone false (closedBefore cfg (partitionOf b.windows p)) k = true ↔
      k.minute < closedBefore cfg (partitionOf b.windows p) := by
    intro k
    simp [isDone]
  refine ⟨?_, ?_, ?_, ?_, ?_⟩
  · rw [hstate]
    exact h.watermark
  · rw [hstate]
    apply Finset.eq_empty_of_forall_notMem
    intro m hm
    -- a minute that is over is not remembered as written
    obtain ⟨hle, hm | ⟨k, _, hk, rfl⟩⟩ := mem_flushedMinutes_popState.mp hm
    · exact absurd hm (by simp [h.flushed])
    · exact absurd ((hdone k).mp hk) (not_lt.mpr hle)
  · rw [hstate]
    intro k w hw
    rw [hget] at hw
    split at hw
    · exact absurd hw (by simp)
    · exact h.opened k w hw
  · rw [hstate]
    intro row hrow
    rw [closedBefore_popState, hget]
    rcases List.mem_append.mp hrow with hrow | hrow
    · obtain ⟨hpos, hcount, hlt, hnone⟩ := h.closed row hrow
      refine ⟨hpos, hcount, hlt, ?_⟩
      rw [hnone, ite_self]
    · obtain ⟨w, hw, htaken, hcount⟩ := mem_popBy_iff.mp hrow
      obtain ⟨hpos, hopen⟩ := h.opened row.key w hw
      rw [if_pos htaken, hcount]
      exact ⟨hpos, hopen, (hdone row.key).mp htaken, rfl⟩
  · rw [hstate]
    intro k hk hnone
    rw [hget] at hnone
    cases hw : (partitionOf b.windows p).windows.get? k with
    | none =>
        obtain ⟨row, hrow, hkey⟩ := h.complete k hk hw
        exact ⟨row, List.mem_append_left _ hrow, hkey⟩
    | some w =>
        have htaken : isDone false (closedBefore cfg (partitionOf b.windows p)) k = true := by
          by_contra hnot
          rw [if_neg hnot, hw] at hnone
          exact absurd hnone (by simp)
        refine ⟨⟨k.wiki, k.title, k.minute, w.count⟩, List.mem_append_right _ ?_, rfl⟩
        exact mem_popBy_iff.mpr ⟨w, hw, htaken, rfl⟩

/-- Where every partition stands after a run. -/
theorem told_booksAfter (hpops : OpenPops ops) (hfit : AllFit cfg ops) (p : Nat) :
    Told cfg (booksAfter cfg ops) p (addsOf p ops) := by
  induction ops using List.reverseRecOn with
  | nil => exact told_init
  | append_singleton ops op ih =>
      obtain ⟨hfits, hop⟩ := allFit_snoc.mp hfit
      have h := ih (fun x hx => hpops x (List.mem_append_left _ hx)) hfits
      rw [booksAfter_snoc]
      cases op with
      | popClosed final =>
          cases final with
          | true => exact absurd rfl (hpops _ (List.mem_append_right _ (List.mem_singleton_self _)))
          | false =>
              rw [addsOf_popClosed]
              exact h.popClosed
      | add q e =>
          rw [addsOf_add]
          by_cases hpq : q = p
          · subst hpq
            rw [if_pos rfl]
            by_cases hl : isLate cfg (observed (partitionOf (booksAfter cfg ops).windows q) e) e
            · exact h.add_late hl
            · exact h.add_counted hl hop
          · rw [if_neg hpq]
            exact h.add_other (fun heq => hpq heq.symm)

/-! ## No key twice -/

/-- What is closed now was not closed before. -/
theorem nodup_book_popClosed (hnodup : (b.closed.map rowKey).Nodup)
    (htold : ∀ p, ∃ es, Told cfg b p es) (final : Bool) :
    ((book cfg b (.popClosed final)).closed.map rowKey).Nodup := by
  show ((b.closed ++ popBy cfg b.windows final).map rowKey).Nodup
  rw [List.map_append, List.nodup_append']
  refine ⟨hnodup, nodup_popBy b.windows final, ?_⟩
  intro key hold hnew
  obtain ⟨⟨p, row⟩, hrow, rfl⟩ := List.mem_map.mp hold
  obtain ⟨⟨q, row'⟩, hrow', heq⟩ := List.mem_map.mp hnew
  obtain ⟨rfl, hkey⟩ := Prod.mk.inj heq
  obtain ⟨es, h⟩ := htold q
  obtain ⟨w, hw, _⟩ := mem_popBy_iff.mp hrow'
  -- the window of a closed row is not open
  rw [hkey, (h.closed row hrow).2.2.2] at hw
  exact absurd hw (by simp)

theorem nodup_booksAfter (hpops : OpenPops ops) (hfit : AllFit cfg ops) :
    ((booksAfter cfg ops).closed.map rowKey).Nodup := by
  induction ops using List.reverseRecOn with
  | nil => exact List.nodup_nil
  | append_singleton ops op ih =>
      have hfits := (allFit_snoc.mp hfit).1
      have hpops' : OpenPops ops := fun x hx => hpops x (List.mem_append_left _ hx)
      have hnodup := ih hpops' hfits
      rw [booksAfter_snoc]
      cases op with
      | add q e => exact hnodup
      | popClosed final =>
          exact nodup_book_popClosed hnodup (fun p => ⟨_, told_booksAfter hpops' hfits p⟩) final

/-! ## The result -/

theorem mem_closedAfter (hpops : OpenPops ops) (hfit : AllFit cfg ops) {p : Nat} {row : ClosedWindow} :
    (p, row) ∈ closedAfter cfg ops ↔ 0 < row.count ∧ row.count = tally row.key (onTime cfg 0 (addsOf p ops)) := by
  have h := told_booksAfter hpops hfit p
  unfold closedAfter
  rw [booksAfter_snoc]
  have hdrain : ∀ row w, (partitionOf (booksAfter cfg ops).windows p).windows.get? row.key = some w →
      row.count = w.count → (p, row) ∈ popBy cfg (booksAfter cfg ops).windows true :=
    fun row w hw hcount => mem_popBy_iff.mpr ⟨w, hw, rfl, hcount⟩
  constructor
  · intro hrow
    rcases List.mem_append.mp hrow with hrow | hrow
    · obtain ⟨hpos, hcount, _⟩ := h.closed row hrow
      exact ⟨hpos, hcount⟩
    · obtain ⟨w, hw, _, hcount⟩ := mem_popBy_iff.mp hrow
      rw [hcount]
      exact h.opened row.key w hw
  · rintro ⟨hpos, hcount⟩
    cases hw : (partitionOf (booksAfter cfg ops).windows p).windows.get? row.key with
    | some w =>
        exact List.mem_append_right _ (hdrain row w hw (hcount.trans (h.opened row.key w hw).2.symm))
    | none =>
        obtain ⟨other, hother, hkey⟩ := h.complete row.key (hcount ▸ hpos) hw
        have hsame := (h.closed other hother).2.1
        -- a row is its key and its count
        obtain rfl : other = row := by
          rw [hkey, ← hcount] at hsame
          obtain ⟨wiki, title, minute, count⟩ := other
          obtain ⟨wiki', title', minute', count'⟩ := row
          obtain ⟨rfl, rfl, rfl⟩ := WindowKey.mk.inj hkey
          exact congrArg _ hsame
        exact List.mem_append_left _ hother

/-- **Windows do not depend on interleaving or flush timing.** For every interleaving of the partitions' events and
    every placement of `pop_closed` calls among them, the cap never reached: no key of a partition is closed twice,
    the count of a closed key is the number of its partition's events that are on time by that partition's own
    watermark, and two runs that agree on a partition's events close the same windows of it. The closed windows
    are the ones that the calls return, the drain included. -/
theorem closed_rows (hpops : OpenPops ops) (hfit : AllFit cfg ops) :
    (closedAfter cfg ops).map Prod.snd = returned cfg {} (ops ++ [.popClosed true]) ∧
    ((closedAfter cfg ops).map rowKey).Nodup ∧
    (∀ p row, (p, row) ∈ closedAfter cfg ops ↔
      0 < row.count ∧ row.count = tally row.key (onTime cfg 0 (addsOf p ops))) ∧
    ∀ ops', OpenPops ops' → AllFit cfg ops' → ∀ p, addsOf p ops' = addsOf p ops →
      ((closedAfter cfg ops').filter (fun row => row.1 = p)).Perm
        ((closedAfter cfg ops).filter (fun row => row.1 = p)) := by
  have hnodup : ∀ {ops}, OpenPops ops → AllFit cfg ops → ((closedAfter cfg ops).map rowKey).Nodup := by
    intro ops hpops hfit
    unfold closedAfter
    rw [booksAfter_snoc]
    exact nodup_book_popClosed (nodup_booksAfter hpops hfit) (fun p => ⟨_, told_booksAfter hpops hfit p⟩) true
  refine ⟨map_closed _, hnodup hpops hfit, fun p row => mem_closedAfter hpops hfit, ?_⟩
  intro ops' hpops' hfit' p hsame
  apply (List.perm_ext_iff_of_nodup ((hnodup hpops' hfit').of_map.filter _) ((hnodup hpops hfit).of_map.filter _)).mpr
  rintro ⟨q, row⟩
  simp only [List.mem_filter, decide_eq_true_eq]
  refine and_congr_left ?_
  rintro rfl
  rw [mem_closedAfter hpops' hfit', mem_closedAfter hpops hfit, hsame]

/-- Two edits of one page in one minute. Between them a partition ten minutes ahead is flushed. -/
def aheadBetween : List Op :=
  [.add 0 ⟨0, Py.lit "w", Py.lit "A", 0⟩, .add 1 ⟨0, Py.lit "w", Py.lit "B", 600000⟩, .popClosed false,
    .add 0 ⟨1, Py.lit "w", Py.lit "A", 1000⟩]

instance (b : Books) : (op : Op) → Decidable (FitsOp cfg b op)
  | .add p e => inferInstanceAs (Decidable (Fits cfg (partitionOf b.windows p) e))
  | .popClosed _ => inferInstanceAs (Decidable True)

/-- The partition ahead closes nothing of the other one. -/
theorem closed_rows_ahead_between : (0, ⟨Py.lit "w", Py.lit "A", 0, 2⟩) ∈ closedAfter {} aheadBetween := by
  have hpops : OpenPops aheadBetween := by
    intro op hop heq
    subst heq
    simp [aheadBetween] at hop
  have hfit : AllFit {} aheadBetween := by
    unfold AllFit
    decide +kernel
  exact ((closed_rows hpops hfit).2.2.1 0 _).mpr ⟨by decide, by decide⟩

end Windows
end Wikistream
