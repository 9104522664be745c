import Wikistream.Correctness.OneOutcome
import Wikistream.Correctness.TrendingFloor
import Wikistream.Correctness.TrendingRebalance
import Wikistream.Processors.TrendingGroup

/-!
# `Correctness.TrendingGroup` — trending totals across any number of instances

Instances come and go, partitions move between them, and an instance that has lost a partition may still write its
windows. The table keeps the greater count, so a write can only move a row towards its total; and whoever takes a
partition begins at a resume point, whatever the one before it had written too early.

## Contents
- **One partition of the table** (`rowsOf`), and what a flush writes to it (`rowsOf_write`).
- **The invariant** (`InStep` for an instance, `Inv` for the group), with one lemma for each thing an instance does.
- **The result** (`totals_across_instances`).
-/

namespace Wikistream
namespace TrendingGroup

open Py Lib Models Windows Db Trending.Restart Trending.Rebalance

/-- The rows of the pages of partition `p`. -/
def rowsOf (route : Str → Str → Nat) (p : Nat) (t : TrendingMinutes) : WindowKey → Option Nat :=
  fun k => if route k.wiki k.title = p then t.get? k else none

/-- The table after a flush of `windows`. -/
def writeTo (cfg : Windows.Config) (windows : MinuteWindows) (final : Bool) (t : TrendingMinutes) : TrendingMinutes :=
  upsertTrending t (Trending.flush cfg windows final).rows

/-- An instance is in step with the table, and with the resume point it started from on each of its partitions. -/
structure InStep (host : Host) (cfg : Windows.Config) (feed : Feed) (route : Str → Str → Nat) (t : TrendingMinutes)
    (inst : Instance) : Prop where
  sound : AllSound cfg route inst.windows
  /-- It has no state for the other partitions. -/
  fresh : ∀ p, inst.unread.get? p = none → inst.windows.partitions.get? p = none
  messages : ∀ p ms, inst.unread.get? p = some ms → ∀ m ∈ ms, m ∈ feed.records p
  held : ∀ p ms, inst.unread.get? p = some ms → ∃ c seen, Stored cfg (feed.edits host p) (rowsOf route p t) c ∧
    Kept cfg (feed.edits host p) (rowsOf route p t) c (partitionOf inst.windows p) seen (ms.filterMap (readable host))
  /-- Between the write and the commit only windows that have to stay are open. -/
  closed : ∀ caller, inst.phase = .written caller → ∀ p k w, (partitionOf inst.windows p).windows.get? k = some w →
    closedBefore cfg (partitionOf inst.windows p) ≤ k.minute

structure Inv (host : Host) (cfg : Windows.Config) (feed : Feed) (route : Str → Str → Nat) (g : Group) : Prop where
  /-- What is committed is a resume point for what the table holds. -/
  stored : ∀ p, Stored cfg (feed.edits host p) (rowsOf route p g.table) ((g.committed.get? p).getD 0)
  instances : ∀ i inst, g.instances.get? i = some inst → InStep host cfg feed route g.table inst

variable {host : Host} {cfg : Windows.Config} {feed : Feed} {route : Str → Str → Nat} {t : TrendingMinutes}
  {inst other : Instance} {g g' : Group}

/-! ## What a flush writes -/

theorem partitionOf_of_none {windows : MinuteWindows} {p : Nat} (h : windows.partitions.get? p = none) :
    partitionOf windows p = {} := by
  unfold partitionOf
  rw [h]
  rfl

theorem rowsOf_write {windows : MinuteWindows} (h : AllSound cfg route windows) (final : Bool) (p : Nat) :
    rowsOf route p (writeTo cfg windows final t) =
      fun k => max (rowsOf route p t k) (largest (popRows cfg final (partitionOf windows p)) k) := by
  funext k
  unfold rowsOf
  by_cases hk : route k.wiki k.title = p
  · rw [if_pos hk, if_pos hk]
    exact @get?_flush cfg route p ⟨windows, t⟩ h final k hk
  · rw [if_neg hk, if_neg hk, largest_popRows]
    cases hw : (partitionOf windows p).windows.get? k with
    | none => split <;> rfl
    | some w => exact absurd ((h.partitionOf p).routed k w hw) hk

/-- No instance writes more than a total. -/
theorem InStep.bounded (h : InStep host cfg feed route t inst) (final : Bool) (p : Nat) :
    Bounded cfg (feed.edits host p) (largest (popRows cfg final (partitionOf inst.windows p))) := by
  cases hp : inst.unread.get? p with
  | none =>
      intro k n hn
      rw [partitionOf_of_none (h.fresh p hp), largest_popRows] at hn
      split at hn <;> exact absurd hn (by simp)
  | some ms =>
      obtain ⟨c, seen, hs, hk⟩ := h.held p ms hp
      exact hk.bounded (edits_sorted p) hs final

/-- **Every resume point stays one** under what an instance writes. -/
theorem InStep.stored (h : InStep host cfg feed route t inst) (final : Bool) {p : Nat} {c : Int}
    (hs : Stored cfg (feed.edits host p) (rowsOf route p t) c) :
    Stored cfg (feed.edits host p) (rowsOf route p (writeTo cfg inst.windows final t)) c := by
  rw [rowsOf_write h.sound]
  exact hs.raise (h.bounded final p)

/-- Others stay in step. -/
theorem InStep.raise (hother : InStep host cfg feed route t other) (h : InStep host cfg feed route t inst)
    (final : Bool) : InStep host cfg feed route (writeTo cfg inst.windows final t) other where
  sound := hother.sound
  fresh := hother.fresh
  messages := hother.messages
  held p ms hp := by
    obtain ⟨c, seen, hs, hk⟩ := hother.held p ms hp
    refine ⟨c, seen, h.stored final hs, ?_⟩
    rw [rowsOf_write h.sound]
    exact hk.raise (fun k hfull => max_eq_total (h.bounded final p) hfull)
  closed := hother.closed

/-! ## What an instance does -/

theorem inStep_start : InStep host cfg feed route t {} where
  sound p s hp := absurd hp (by simp)
  fresh p _ := rfl
  messages p ms hp := absurd hp (by simp)
  held p ms hp := absurd hp (by simp)
  closed caller hphase := absurd hphase (by simp)

/-- The phase says nothing about the windows, except between the write and the commit. -/
theorem InStep.phase {phase : Phase} (h : InStep host cfg feed route t inst)
    (hphase : ∀ caller, phase ≠ .written caller) : InStep host cfg feed route t { inst with phase } where
  sound := h.sound
  fresh := h.fresh
  messages := h.messages
  held := h.held
  closed caller heq := absurd heq (hphase caller)

theorem filterMap_fromOffset (c : Option Int) (p : Nat) :
    (fromOffset c (feed.records p)).filterMap (readable host) = ahead (c.getD 0) (feed.edits host p) := by
  unfold Feed.edits ahead
  cases c with
  | none =>
      refine (List.filter_eq_self.mpr (fun e _ => ?_)).symm
      simp
  | some c =>
      show ((feed.records p).filter _).filterMap _ = _
      rw [List.filter_filterMap, List.filterMap_filter]
      refine List.filterMap_congr (fun m _ => ?_)
      cases hm : readable host m with
      | none => simp
      | some e => simp [Option.filter, offset_of_readable hm]

theorem get?_take (committed : Dict Nat Int) (ps : List Nat) (unread : Dict Nat (List (Message KafkaRecord)))
    (p : Nat) : (take feed committed ps unread).get? p =
      if p ∈ ps then some (fromOffset (committed.get? p) (feed.records p)) else unread.get? p := by
  unfold take
  induction ps generalizing unread with
  | nil => simp
  | cons q ps ih =>
      rw [List.foldl_cons, ih, Dict.get?_set]
      by_cases hp : p ∈ ps
      · simp [hp]
      · by_cases hq : p = q
        · simp [hq]
        · simp [hp, hq]

/-- **Taking partitions over**: the instance has nothing in memory for them, and begins at a resume point. -/
theorem InStep.assign (hg : Inv host cfg feed route g) {ps : List Nat} (h : InStep host cfg feed route g.table inst)
    (hps : ∀ p ∈ ps, inst.unread.get? p = none) :
    InStep host cfg feed route g.table { inst with unread := take feed g.committed ps inst.unread } where
  sound := h.sound
  fresh p hp := by
    change (take feed g.committed ps inst.unread).get? p = none at hp
    rw [get?_take] at hp
    split at hp
    · exact absurd hp (by simp)
    · exact h.fresh p hp
  messages p ms hp m hm := by
    change (take feed g.committed ps inst.unread).get? p = some ms at hp
    rw [get?_take] at hp
    split at hp
    · obtain rfl := Option.some.inj hp
      unfold fromOffset at hm
      split at hm
      · exact List.mem_of_mem_filter hm
      · exact hm
    · exact h.messages p ms hp m hm
  held p ms hp := by
    change (take feed g.committed ps inst.unread).get? p = some ms at hp
    rw [get?_take] at hp
    split at hp
    · next hmem =>
        obtain rfl := Option.some.inj hp
        refine ⟨_, [], hg.stored p, ?_⟩
        rw [filterMap_fromOffset, partitionOf_of_none (h.fresh p (hps p hmem))]
        exact kept_start _ _
    · exact h.held p ms hp
  closed := h.closed

/-- **Reading one message.** -/
theorem InStep.read (hroute : ∀ p, ∀ e ∈ feed.edits host p, route e.wiki e.title = p)
    (h : InStep host cfg feed route t inst) (hphase : ∀ caller, inst.phase ≠ .written caller) {p : Nat}
    {m : Message KafkaRecord} {rest : List (Message KafkaRecord)} (hp : inst.unread.get? p = some (m :: rest))
    (hfits : ∀ e, readable host m = some e → Fits cfg (partitionOf inst.windows p) e) {windows : MinuteWindows}
    (hhandle : handle host cfg inst.windows m = .ok windows) :
    InStep host cfg feed route t { inst with windows, unread := inst.unread.set p rest } := by
  have hm : m ∈ feed.records p := h.messages p _ hp m List.mem_cons_self
  have hnever : ∀ caller, inst.phase = .written caller → ∀ q k w, (partitionOf windows q).windows.get? k = some w →
      closedBefore cfg (partitionOf windows q) ≤ k.minute := fun caller heq => absurd heq (hphase caller)
  have hmessages : ∀ q ms, (inst.unread.set p rest).get? q = some ms → ∀ x ∈ ms, x ∈ feed.records q := by
    intro q ms hq x hx
    rw [Dict.get?_set] at hq
    split at hq
    · next hqp =>
        obtain rfl := Option.some.inj hq
        subst hqp
        exact h.messages q _ hp x (List.mem_cons_of_mem _ hx)
    · exact h.messages q ms hq x hx
  rcases handle_eq_ok.mp hhandle with ⟨hnone, _, rfl⟩ | ⟨e, he, rfl⟩
  · -- a record that cannot be read leaves no trace
    refine ⟨h.sound, fun q hq => h.fresh q ?_, hmessages, fun q ms hq => ?_, hnever⟩
    · change (inst.unread.set p rest).get? q = none at hq
      rw [Dict.get?_set] at hq
      split at hq
      · exact absurd hq (by simp)
      · exact hq
    · change (inst.unread.set p rest).get? q = some ms at hq
      rw [Dict.get?_set] at hq
      split at hq
      · next hqp =>
          obtain rfl := Option.some.inj hq
          subst hqp
          obtain ⟨c, seen, hs, hk⟩ := h.held q _ hp
          rw [List.filterMap_cons_none hnone] at hk
          exact ⟨c, seen, hs, hk⟩
      · exact h.held q ms hq
  · rw [feed.partition p m hm] at hnever ⊢
    have hpage : route e.wiki e.title = p := hroute p e (List.mem_filterMap.mpr ⟨m, hm, he⟩)
    refine ⟨@AllSound.handle cfg route p ⟨inst.windows, t⟩ h.sound e hpage, fun q hq => ?_, hmessages,
      fun q ms hq => ?_, hnever⟩
    · change (inst.unread.set p rest).get? q = none at hq
      change (inst.windows.partitions.set p _).get? q = none
      rw [Dict.get?_set] at hq ⊢
      split at hq
      · exact absurd hq (by simp)
      · next hqp =>
          rw [if_neg hqp]
          exact h.fresh q hq
    · change (inst.unread.set p rest).get? q = some ms at hq
      show ∃ c seen, _ ∧ Kept cfg _ _ c (partitionOf (add cfg inst.windows p e).2 q) seen _
      rw [partitionOf_add]
      rw [Dict.get?_set] at hq
      split at hq
      · next hqp =>
          obtain rfl := Option.some.inj hq
          subst hqp
          obtain ⟨c, seen, hs, hk⟩ := h.held q _ hp
          rw [List.filterMap_cons_some he] at hk
          rw [if_pos rfl]
          exact ⟨c, seen ++ [e], hs, hk.read (edits_sorted q) (hfits e he)⟩
      · next hqp =>
          rw [if_neg hqp]
          exact h.held q ms hq

/-- **Writing a flush.** -/
theorem InStep.write (hL : 0 ≤ cfg.latenessMs) (h : InStep host cfg feed route t inst) (caller : Caller) :
    InStep host cfg feed route (writeTo cfg inst.windows caller.final t)
      ⟨(popClosed cfg inst.windows caller.final).2, inst.unread, .written caller⟩ where
  sound := allSound_popClosed h.sound caller.final
  fresh p hp := by
    show (inst.windows.partitions.mapVals _).get? p = none
    rw [Dict.get?_mapVals, h.fresh p hp]
    rfl
  messages := h.messages
  held p ms hp := by
    obtain ⟨c, seen, hs, hk⟩ := h.held p ms hp
    refine ⟨c, seen, h.stored caller.final hs, ?_⟩
    show Kept cfg _ _ c (partitionOf (popClosed cfg inst.windows caller.final).2 p) seen _
    rw [partitionOf_popClosed, rowsOf_write h.sound]
    exact hk.pop (edits_sorted p) hL hs caller.final
  closed _ _ p k w hw := by
    change (partitionOf (popClosed cfg inst.windows caller.final).2 p).windows.get? k = some w at hw
    show closedBefore cfg (partitionOf (popClosed cfg inst.windows caller.final).2 p) ≤ k.minute
    rw [partitionOf_popClosed] at hw ⊢
    rw [closedBefore_popState]
    rw [get?_popState] at hw
    split at hw
    · exact absurd hw (by simp)
    · next hdone =>
        simp only [isDone, Bool.or_eq_true, decide_eq_true_eq, not_or, not_lt] at hdone
        exact hdone.2

/-- **What it commits is a resume point.** -/
theorem InStep.commit (hL : 0 ≤ cfg.latenessMs) (h : InStep host cfg feed route t inst) {caller : Caller}
    (hphase : inst.phase = .written caller) {p : Nat} {c : Int} (hc : (commitOffsets inst.windows).get? p = some c) :
    Stored cfg (feed.edits host p) (rowsOf route p t) c := by
  rw [get?_commitOffsets] at hc
  cases hp : inst.unread.get? p with
  | none =>
      rw [partitionOf_of_none (h.fresh p hp)] at hc
      exact absurd (show none = some c from hc) (by simp)
  | some ms =>
      obtain ⟨c0, seen, hs, hk⟩ := h.held p ms hp
      exact hk.commit (edits_sorted p) hL hs (fun k w hw => h.closed caller hphase p k w hw) hc

/-- Giving partitions up. -/
theorem InStep.revoke (h : InStep host cfg feed route t inst) (ps : List Nat) :
    InStep host cfg feed route t ⟨Windows.revoke inst.windows ps, ps.foldl Dict.erase inst.unread, .reading⟩ := by
  have hget : ∀ q ms, (ps.foldl Dict.erase inst.unread).get? q = some ms → q ∉ ps ∧ inst.unread.get? q = some ms := by
    intro q ms hq
    rw [Dict.get?_foldl_erase] at hq
    split at hq
    · exact absurd hq (by simp)
    · next hnot => exact ⟨hnot, hq⟩
  refine ⟨allSound_revoke h.sound ps, fun q hq => ?_, fun q ms hq => h.messages q ms (hget q ms hq).2,
    fun q ms hq => ?_, fun caller heq => absurd heq (by simp)⟩
  · change (ps.foldl Dict.erase inst.unread).get? q = none at hq
    show (Windows.revoke inst.windows ps).partitions.get? q = none
    rw [Dict.get?_foldl_erase] at hq
    rw [get?_revoke]
    split
    · rfl
    · next hnot =>
        rw [if_neg hnot] at hq
        exact h.fresh q hq
  · obtain ⟨hnot, hq'⟩ := hget q ms hq
    show ∃ c seen, _ ∧ Kept cfg _ _ c (partitionOf (Windows.revoke inst.windows ps) q) seen _
    rw [partitionOf_revoke _ hnot]
    exact h.held q ms hq'

/-! ## The invariant of a run -/

theorem inv_init : Inv host cfg feed route {} where
  stored p := by
    have hnone : rowsOf route p (Dict.empty : TrendingMinutes) = fun _ => none := by
      funext k
      unfold rowsOf
      split <;> rfl
    show Stored cfg (feed.edits host p) (rowsOf route p Dict.empty) 0
    rw [hnone]
    exact stored_init
  instances i inst hi := absurd hi (by simp)

theorem Inv.put (hg : Inv host cfg feed route g) {i : Nat} (h : InStep host cfg feed route g.table inst) :
    Inv host cfg feed route (g.put i inst) where
  stored := hg.stored
  instances := Dict.forall_get?_set hg.instances i h

theorem Inv.remove (hg : Inv host cfg feed route g) (i : Nat) : Inv host cfg feed route (g.remove i) where
  stored := hg.stored
  instances := Dict.forall_get?_erase hg.instances i

theorem Inv.write (hg : Inv host cfg feed route g) (h : InStep host cfg feed route g.table inst) (final : Bool) :
    Inv host cfg feed route { g with table := writeTo cfg inst.windows final g.table } where
  stored p := h.stored final (hg.stored p)
  instances i other hi := (hg.instances i other hi).raise h final

theorem Inv.commits (hg : Inv host cfg feed route g) {d : Dict Nat Int}
    (hd : ∀ p c, d.get? p = some c → Stored cfg (feed.edits host p) (rowsOf route p g.table) c) :
    Inv host cfg feed route { g with committed := g.committed.update d } where
  stored p := by
    show Stored cfg (feed.edits host p) (rowsOf route p g.table) (((g.committed.update d).get? p).getD 0)
    rw [Dict.get?_update]
    cases hp : d.get? p with
    | none => exact hg.stored p
    | some c => exact hd p c hp
  instances := hg.instances

/-- **One step keeps the table and every instance in step.** -/
theorem inv_step (hL : 0 ≤ cfg.latenessMs) (hroute : ∀ p, ∀ e ∈ feed.edits host p, route e.wiki e.title = p)
    (hg : Inv host cfg feed route g) {a : Action} (hcap : UnderCap host cfg g a)
    (hstep : step host cfg feed g a = some g') : Inv host cfg feed route g' := by
  cases a with
  | start i =>
      simp only [step] at hstep
      split at hstep
      · obtain rfl := Option.some.inj hstep
        exact hg.put inStep_start
      · exact absurd hstep (by simp)
  | assign i ps =>
      simp only [step] at hstep
      split at hstep
      · next windows unread hi =>
          split at hstep
          · next hps =>
              obtain rfl := Option.some.inj hstep
              exact hg.put ((hg.instances i _ hi).assign hg hps)
          · exact absurd hstep (by simp)
      · exact absurd hstep (by simp)
  | read i p =>
      simp only [step] at hstep
      split at hstep
      · next windows unread hi =>
          split at hstep
          · next m rest hp =>
              split at hstep
              · next windows' hhandle =>
                  obtain rfl := Option.some.inj hstep
                  have hfits : ∀ e, readable host m = some e → Fits cfg (partitionOf windows p) e := by
                    intro e he
                    simpa [UnderCap, hi, hp, he] using hcap
                  exact hg.put ((hg.instances i _ hi).read hroute (by simp) hp hfits hhandle)
              · obtain rfl := Option.some.inj hstep
                exact hg.remove i
          · exact absurd hstep (by simp)
      · exact absurd hstep (by simp)
  | flush i caller =>
      simp only [step] at hstep
      split at hstep
      · next windows unread hi =>
          obtain rfl := Option.some.inj hstep
          exact hg.put ((hg.instances i _ hi).phase (by simp))
      · exact absurd hstep (by simp)
  | lose i applied =>
      simp only [step] at hstep
      split at hstep
      · next windows unread caller hi =>
          obtain rfl := Option.some.inj hstep
          cases applied with
          | true => exact hg.write (hg.instances i _ hi) caller.final
          | false => exact hg
      · exact absurd hstep (by simp)
  | write i =>
      simp only [step] at hstep
      split at hstep
      · next windows unread caller hi =>
          obtain rfl := Option.some.inj hstep
          have h := hg.instances i _ hi
          exact (hg.write h caller.final).put (h.write hL caller)
      · exact absurd hstep (by simp)
  | commit i =>
      simp only [step] at hstep
      split at hstep
      · next windows unread caller hi =>
          obtain rfl := Option.some.inj hstep
          have h := hg.instances i _ hi
          have hcommits := hg.commits (fun p c hc => h.commit hL rfl hc)
          cases caller with
          | periodic => exact hcommits.put (h.phase (by simp))
          | onRevoke ps => exact hcommits.put (h.revoke ps)
          | shutdown => exact hcommits.remove i
      · exact absurd hstep (by simp)
  | crash i ps =>
      simp only [step] at hstep
      split at hstep
      · next inst hi =>
          obtain rfl := Option.some.inj hstep
          refine (hg.remove i).commits (fun p c hc => ?_)
          unfold Instance.committing at hc
          split at hc
          · next caller hphase =>
              rw [Dict.get?_filter] at hc
              exact (hg.instances i inst hi).commit hL hphase (Option.filter_eq_some_iff.mp hc).1
          · exact absurd hc (by simp)
      · exact absurd hstep (by simp)

theorem inv_run (hL : 0 ≤ cfg.latenessMs) (hroute : ∀ p, ∀ e ∈ feed.edits host p, route e.wiki e.title = p)
    {acts : List Action} (hcap : Always (step host cfg feed) (UnderCap host cfg) {} acts)
    (hrun : run (step host cfg feed) {} acts = some g) : Inv host cfg feed route g :=
  run_state_invariant inv_init (fun _ _ _ hg hok hstep => inv_step hL hroute hg hok hstep) hcap hrun

/-! ## The result -/

/-- **A write completes what is over.** An instance that has cut off no window of a partition since it took it leaves
    exact rows behind for every key of the partition that no event to come counts towards. -/
theorem InStep.completes (h : InStep host cfg feed route t inst) {p : Nat} {ms : List (Message KafkaRecord)}
    (hp : inst.unread.get? p = some ms) (hfloor : (partitionOf inst.windows p).partialFloor < 0) {final : Bool}
    {k : WindowKey} (hk : route k.wiki k.title = p)
    (hover : k.minute < closedBefore cfg (partitionOf inst.windows p) ∨
      (final = true ∧ ms.filterMap (readable host) = [])) :
    (writeTo cfg inst.windows final t).get? k =
      if total cfg (feed.edits host p) k = 0 then none else some (total cfg (feed.edits host p) k) := by
  obtain ⟨c, seen, hs, hkept⟩ := h.held p ms hp
  have hlive := hkept.live hfloor
  have hrow : rowsOf route p (writeTo cfg inst.windows final t) k = (writeTo cfg inst.windows final t).get? k :=
    if_pos hk
  have hbound := h.bounded final p
  have hrest : tally k (onTime cfg (mark 0 seen) (ms.filterMap (readable host))) = 0 := by
    rcases hover with hlt | ⟨_, hnil⟩
    · exact hlive.tally_unread_eq_zero hlt
    · rw [hnil]
      rfl
  by_cases hzero : total cfg (feed.edits host p) k = 0
  · rw [if_pos hzero, ← hrow]
    cases ht : rowsOf route p (writeTo cfg inst.windows final t) k with
    | none => rfl
    | some n =>
        have := (h.stored final hs).sound k n ht
        omega
  · rw [if_neg hzero, ← hrow, rowsOf_write h.sound]
    obtain ⟨e, he, rfl⟩ := tally_pos.mp (Nat.pos_of_ne_zero hzero)
    have hdone : isDone final (closedBefore cfg (partitionOf inst.windows p)) e.key = true := by
      rcases hover with hlt | ⟨hfinal, _⟩
      · simp [isDone, hlt]
      · simp [isDone, hfinal]
    rw [onTime_log (edits_sorted p) hs hlive, List.mem_append, List.mem_append] at he
    -- the event lies behind the resume point, was read since then, or is still to be read
    rcases he with he | he | he
    · exact max_eq_total hbound (settled_of_behind (edits_sorted p) hs hlive he)
    · cases hw : (partitionOf inst.windows p).windows.get? e.key with
      | none => exact max_eq_total hbound (hlive.closed e he hw).1
      | some w =>
          show max _ (largest (popRows cfg final (partitionOf inst.windows p)) e.key) = _
          rw [largest_popRows, if_pos hdone, hw]
          exact max_closed (edits_sorted p) hs hlive hw hrest
    · have := tally_pos.mpr ⟨e, he, rfl⟩
      omega

/-- **Trending totals across any number of instances.** In every run of starts, crashes, rebalances, flushes, lost
    connections and commits that get through in part or not at all, with partitions that move while an instance still
    writes windows of theirs, and as long as no partition goes over the cap: no row ever passes the number of on-time
    edits of its page and minute; every on-time edit behind a committed offset is counted in full; and when an instance
    writes that has cut off no window of a partition since it took it, the rows of that partition's minutes that are
    over are exact, and with a final flush at the end of the partition all of them. -/
theorem totals_across_instances (hL : 0 ≤ cfg.latenessMs)
    (hroute : ∀ p, ∀ e ∈ feed.edits host p, route e.wiki e.title = p) {acts : List Action}
    (hcap : Always (step host cfg feed) (UnderCap host cfg) {} acts)
    (hrun : run (step host cfg feed) {} acts = some g) :
    (∀ k n, g.table.get? k = some n →
      0 < n ∧ n ≤ total cfg (feed.edits host (route k.wiki k.title)) k) ∧
    (∀ p c, g.committed.get? p = some c → ∀ e ∈ onTime cfg 0 (feed.edits host p), (e.offset : Int) < c →
      g.table.get? e.key = some (total cfg (feed.edits host p) e.key)) ∧
    ∀ i windows unread caller g', g.instances.get? i = some ⟨windows, unread, .flushing caller⟩ →
      step host cfg feed g (.write i) = some g' →
      ∀ p ms, unread.get? p = some ms → (partitionOf windows p).partialFloor < 0 →
      ∀ k, route k.wiki k.title = p →
        (k.minute < closedBefore cfg (partitionOf windows p) ∨
          (caller.final = true ∧ ms.filterMap (readable host) = [])) →
        g'.table.get? k =
          if total cfg (feed.edits host p) k = 0 then none else some (total cfg (feed.edits host p) k) := by
  have hg := inv_run hL hroute hcap hrun
  refine ⟨fun k n hn => ?_, fun p c hc e he hlt => ?_, ?_⟩
  · exact (hg.stored (route k.wiki k.title)).sound k n ((if_pos rfl).trans hn)
  · have hpage : route e.key.wiki e.key.title = p := hroute p e (Watermark.mem_of_mem_onTime he)
    have hs := hg.stored p
    rw [hc] at hs
    exact (if_pos hpage).symm.trans (hs.settled e he hlt)
  · intro i windows unread caller g' hi hstep p ms hp hfloor k hk hover
    simp only [step, hi] at hstep
    obtain rfl := Option.some.inj hstep
    exact (hg.instances i _ hi).completes hp hfloor hk hover

/-- The record of an edit of `w:T`, with the time it is counted under. -/
def editRecord (timeMs : Int) : KafkaRecord where
  value := (CleanEvent.toJson Transform.utcHost
    { eventId := lit "a", wiki := lit "w", title := lit "T", type := lit "edit", pageNamespace := 0, user := []
      bot := false, minor := false, comment := [], eventTime := [], revOld := none, revNew := none, lengthOld := none
      lengthNew := none, serverName := [] }).toOption
  timestamp := timeMs

/-- Three edits of one minute, with a tombstone between them. -/
def threeEdits : Feed where
  records p :=
    if p = 0 then
      [⟨0, 0, editRecord 60000⟩, ⟨0, 1, editRecord 61000⟩, ⟨0, 2, { value := none, timestamp := 61500 }⟩,
        ⟨0, 3, editRecord 62000⟩]
    else []
  partition p m hm := by
    split at hm
    · next hp =>
        subst hp
        simp only [List.mem_cons, List.not_mem_nil, or_false] at hm
        rcases hm with rfl | rfl | rfl | rfl <;> rfl
    · exact absurd hm (by simp)
  sorted p := by
    split
    · simp
    · exact List.Pairwise.nil

/-- A rebalance cuts the first edit's window off, and the next edit is turned away; whoever takes the partition then
    counts all three, while the instance before it is still at work. -/
theorem totals_across_instances_moved :
    let acts : List Action :=
      [.start 0, .assign 0 [0, 1], .read 0 0, .flush 0 (.onRevoke [1]), .lose 0 true, .write 0, .commit 0, .read 0 0,
        .start 1, .assign 1 [0], .read 1 0, .read 1 0, .read 1 0, .read 1 0, .flush 0 .periodic, .write 0, .crash 0 [0],
        .flush 1 .shutdown]
    ∃ g g', run (step Transform.utcHost {} threeEdits) {} acts = some g ∧
      step Transform.utcHost {} threeEdits g (.write 1) = some g' ∧
      g.table.get? ⟨lit "w", lit "T", 60000⟩ = some 1 ∧ g'.table.get? ⟨lit "w", lit "T", 60000⟩ = some 3 := by
  intro acts
  have hrun : (run (step Transform.utcHost {} threeEdits) {} acts).isSome = true := by decide +kernel
  have hwrite : (step Transform.utcHost {} threeEdits ((run (step Transform.utcHost {} threeEdits) {} acts).get hrun)
      (.write 1)).isSome = true := by
    decide +kernel +revert
  obtain ⟨hbefore, hcap⟩ : ((run (step Transform.utcHost {} threeEdits) {} acts).get hrun).table.get?
        ⟨lit "w", lit "T", 60000⟩ = some 1 ∧
      Always (step Transform.utcHost {} threeEdits) (UnderCap Transform.utcHost {}) {} acts := by
    decide +kernel +revert
  have hinst : (((run (step Transform.utcHost {} threeEdits) {} acts).get hrun).instances.get? 1).isSome = true := by
    decide +kernel +revert
  obtain ⟨hphase, hread, hfloor⟩ :
      ((((run (step Transform.utcHost {} threeEdits) {} acts).get hrun).instances.get? 1).get hinst).phase =
        .flushing .shutdown ∧
      ((((run (step Transform.utcHost {} threeEdits) {} acts).get hrun).instances.get? 1).get hinst).unread.get? 0 =
        some [] ∧
      (partitionOf
        ((((run (step Transform.utcHost {} threeEdits) {} acts).get hrun).instances.get? 1).get hinst).windows
        0).partialFloor < 0 := by
    decide +kernel +revert
  refine ⟨_, _, (Option.some_get hrun).symm, (Option.some_get hwrite).symm, hbefore, ?_⟩
  have hroute : ∀ p, ∀ e ∈ threeEdits.edits Transform.utcHost p,
      (fun _ _ => 0 : Str → Str → Nat) e.wiki e.title = p := by
    intro p e he
    by_contra hp
    have hnil : threeEdits.edits Transform.utcHost p = [] := by
      unfold Feed.edits
      rw [show threeEdits.records p = [] from if_neg (fun h => hp h.symm)]
      rfl
    exact absurd (hnil ▸ he) (by simp)
  have hflushing : ∀ (o : Option Instance) (h : o.isSome = true), (o.get h).phase = .flushing .shutdown →
      o = some ⟨(o.get h).windows, (o.get h).unread, .flushing .shutdown⟩ := by
    intro o h hp
    rw [← hp]
    exact (Option.some_get h).symm
  have hcompletes := (@totals_across_instances Transform.utcHost {} threeEdits (fun _ _ => 0) _ (by decide) hroute acts
    hcap (Option.some_get hrun).symm).2.2 1 _ _ .shutdown _ (hflushing _ hinst hphase) (Option.some_get hwrite).symm
    0 [] hread hfloor
  have hexact := hcompletes ⟨lit "w", lit "T", 60000⟩ rfl (Or.inr ⟨rfl, rfl⟩)
  have htotal : total {} (threeEdits.edits Transform.utcHost 0) ⟨lit "w", lit "T", 60000⟩ = 3 := by decide +kernel
  rw [hexact, htotal]
  rfl

end TrendingGroup
end Wikistream
