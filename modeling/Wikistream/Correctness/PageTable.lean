import Wikistream.Correctness.CompactionInvisible
import Wikistream.Correctness.RebuildWhole
import Wikistream.Lib.LastWriter

/-!
# `Correctness.PageTable` — the table of pages is in event order

Messages arrive in any order, and the process may crash anywhere. Page state then writes what the last writer by
event time writes, and a guard rebuilt from the compacted output is the guard that was lost.

## Contents
- **What the table should show** (`Update`, `latestUpdate`), and the conditions on a run (`PositiveTimes`, `Calm`).
- **Written records** (`Writes`): the output is, record by record, what is kept of the updates.
- **The rebuilt guard** (`guard_rebuilt`) knows the time of the latest update of every page.
- **The invariant** (`Converged`) and its step.
- **The result** (`table_converges`).
-/

namespace Wikistream
namespace PageTopic

open Py Lib Models PageState Pages PageSnapshot

/-! ## What the table should show -/

/-- A page is changed or deleted: its key, what it then shows, and when. -/
abbrev Update := Str × Option PageLatest × Int

def pageKey (u : Update) : Str := u.1

def shows (u : Update) : Option PageLatest := u.2.1

def eventTime (u : Update) : Int := u.2.2

/-- The changes and deletions among the messages. -/
def updates (host : Host) (messages : List KafkaRecord) : List Update := messages.filterMap (updateOf host)

/-- The one with the greatest event time of a page, the last in order of arrival among equals. -/
def latestUpdate (host : Host) (messages : List KafkaRecord) (key : Str) : Option Update :=
  greatestOf pageKey eventTime key (updates host messages)

/-- Its time, or -1 for a page that has none. -/
def latestTime (host : Host) (messages : List KafkaRecord) (key : Str) : Int :=
  ((latestUpdate host messages key).map eventTime).getD (-1)

/-! ## Conditions on a run -/

/-- Every update is after the epoch. -/
def PositiveTimes (host : Host) (log : List KafkaRecord) : Prop :=
  ∀ r ∈ log, ∀ u ∈ updateOf host r, 0 < eventTime u

instance (host : Host) (log : List KafkaRecord) : Decidable (PositiveTimes host log) :=
  inferInstanceAs (Decidable (∀ r ∈ log, ∀ u ∈ updateOf host r, 0 < eventTime u))

/-- Nothing is aborted within a process, no poll of `load_applied` times out before the whole partition is read, and
    compaction keeps the newest record of a key, a tombstone too. -/
def Calm (w : World) : Action → Prop
  | .start polls => recordsRead w.topic polls = w.topic ∨ polls[answered polls]? = some .error
  | .abort _ | .expire _ => False
  | .handleNext | .commit _ | .crash | .supersede _ => True

instance (w : World) : ∀ a, Decidable (Calm w a)
  | .start polls =>
      inferInstanceAs (Decidable (recordsRead w.topic polls = w.topic ∨ polls[answered polls]? = some .error))
  | .abort _ | .expire _ => isFalse id
  | .handleNext | .commit _ | .crash | .supersede _ => isTrue trivial

/-! ## Written records -/

/-- A record with a positive timestamp is stored as it was produced. -/
def asRecord (out : Produced) : KafkaRecord := { key := out.key, value := out.value, timestamp := out.timestamp }

/-- What compaction may leave of a partition if it keeps the newest record of every key, tombstones included. -/
abbrev KeepsNewest : List KafkaRecord → List KafkaRecord → Prop := Compacted KafkaRecord.key (fun _ => False)

/-- The record is that of the update. -/
structure Writes (host : Host) (u : Update) (out : Produced) : Prop where
  asked : ∃ r, updateOf host r = some u
  positive : 0 < eventTime u
  written : outputOf host (pageKey u) (shows u) (eventTime u) = .ok out

/-- The records are what is kept of the updates. -/
def Written (host : Host) (messages : List KafkaRecord) (outs : List Produced) : Prop :=
  List.Forall₂ (Writes host) (keptOf pageKey eventTime (updates host messages)) outs

variable {host : Host} {p : Nat} {log messages : List KafkaRecord} {w : World} {u : Update} {out : Produced}
  {outs : List Produced} {topic : List KafkaRecord} {key : Str} {r : KafkaRecord}

theorem Writes.timestamp (h : Writes host u out) : out.timestamp = eventTime u := (outputOf_eq_ok h.written).2.1

theorem Writes.stored (h : Writes host u out) (now : Int) : stored now out = asRecord out := by
  have hne : out.timestamp ≠ 0 := by
    rw [h.timestamp]
    exact h.positive.ne'
  unfold PageTopic.stored asRecord
  rw [if_neg hne]

theorem Writes.reads (h : Writes host u out) : Reads host (asRecord out) (pageKey u) (shows u) := by
  obtain ⟨r, hr⟩ := h.asked
  obtain ⟨event, hevent, hpage, htime⟩ := updateOf_eq_some hr
  exact reads_outputOf hevent hpage htime h.written rfl rfl rfl

theorem Writes.dates (h : Writes host u out) {ms : Int} :
    Dates host (asRecord out) key ms ↔ key = pageKey u ∧ ms = eventTime u := by
  obtain ⟨k, hk, _, hdecode, _⟩ := h.reads.key
  have htime : timeOfRecord host (asRecord out).value (asRecord out).timestamp = .ok (eventTime u) := by
    rw [h.reads.time]
    exact congrArg _ h.timestamp
  constructor
  · rintro ⟨⟨k', hk', hkey⟩, hms⟩
    obtain rfl := Option.some.inj (hk.symm.trans hk')
    exact ⟨Option.some.inj (hkey.symm.trans hdecode), Except.ok.inj (hms.symm.trans htime)⟩
  · rintro ⟨rfl, rfl⟩
    exact ⟨⟨k, hk, hdecode⟩, htime⟩

theorem Written.readable (h : Written host messages outs) : Readable host (outs.map asRecord) := by
  intro r hr
  obtain ⟨out, hout, rfl⟩ := List.mem_map.mp hr
  obtain ⟨u, _, hwrites⟩ := forall₂_mem_right h hout
  exact ⟨_, _, hwrites.reads⟩

/-- **The newest record of a page is that of its latest update.** -/
theorem Written.rel_newest (h : Written host messages outs) (key : Str) :
    Option.Rel (fun u r => ∃ out, r = asRecord out ∧ Writes host u out) (latestUpdate host messages key)
      (newest keyText key (outs.map asRecord)) := by
  unfold latestUpdate
  rw [← newest_keptOf]
  have hmap : List.Forall₂ (fun u r => ∃ out, r = asRecord out ∧ Writes host u out)
      (keptOf pageKey eventTime (updates host messages)) (outs.map asRecord) := by
    rw [List.forall₂_map_right_iff]
    exact h.imp (fun u out hwrites => ⟨out, rfl, hwrites⟩)
  refine newest_forall₂ hmap ?_ key
  rintro u r ⟨out, rfl, hwrites⟩
  exact hwrites.reads.keyText_eq.symm

/-- Nothing of the newest records is lost in what is left of the output. -/
theorem newest_kept (hlog : Readable host log) (hkept : KeepsNewest log topic) (key : Str) :
    newest keyText key topic = newest keyText key log := by
  have htopic : Readable host topic := fun r hr => hlog r (hkept.sublist.subset hr)
  cases hk : utf8Encode key with
  | none => rw [newest_of_not_encodable hlog hk, newest_of_not_encodable htopic hk]
  | some k =>
      rw [newest_keyText hlog hk, newest_keyText htopic hk]
      rcases hkept.keeps (some k) with hsame | ⟨_, _, _, hgone⟩
      · exact hsame
      · exact hgone.elim

/-! ## The time of the latest update -/

theorem updates_snoc (messages : List KafkaRecord) (r : KafkaRecord) :
    updates host (messages ++ [r]) = updates host messages ++ (updateOf host r).toList := by
  unfold updates
  rw [List.filterMap_append]
  cases h : updateOf host r <;> simp [h]

theorem updates_of_none (hr : updateOf host r = none) : updates host (messages ++ [r]) = updates host messages := by
  rw [updates_snoc, hr]
  exact List.append_nil _

theorem updates_of_some (hr : updateOf host r = some u) :
    updates host (messages ++ [r]) = updates host messages ++ [u] := by
  rw [updates_snoc, hr]
  rfl

theorem mem_updates : u ∈ updates host messages ↔ ∃ r ∈ messages, updateOf host r = some u := List.mem_filterMap

theorem PositiveTimes.pos (h : PositiveTimes host messages) (hu : u ∈ updates host messages) : 0 < eventTime u := by
  obtain ⟨r, hr, hupdate⟩ := mem_updates.mp hu
  exact h r hr u hupdate

/-- It is as late as the updates of the page, and no later. -/
theorem le_latestTime_iff (hpos : PositiveTimes host messages) {t : Int} :
    t ≤ latestTime host messages key ↔
      t ≤ -1 ∨ ∃ u ∈ updates host messages, pageKey u = key ∧ t ≤ eventTime u := by
  unfold latestTime
  cases hlatest : latestUpdate host messages key with
  | none =>
      have hnone := greatestOf_eq_none_iff.mp hlatest
      constructor
      · exact Or.inl
      · rintro (ht | ⟨u, hu, hkey, _⟩)
        · exact ht
        · exact absurd hkey (hnone u hu)
  | some v =>
      obtain ⟨hv, hkey⟩ := mem_of_greatestOf hlatest
      constructor
      · intro ht
        exact Or.inr ⟨v, hv, hkey, ht⟩
      · rintro (ht | ⟨u, hu, hkey', ht⟩)
        · exact ht.trans ((by decide : (-1 : Int) ≤ 0).trans (hpos.pos hv).le)
        · exact ht.trans (le_greatestOf hlatest hu hkey')

/-- One more update moves the time of its page forward. -/
theorem latestTime_snoc (hpos : PositiveTimes host (messages ++ [r])) (hu : updateOf host r = some u) (key : Str) :
    latestTime host (messages ++ [r]) key =
      if key = pageKey u then max (latestTime host messages key) (eventTime u) else latestTime host messages key := by
  have hpos' : PositiveTimes host messages := fun x hx => hpos x (List.mem_append_left _ hx)
  apply eq_of_forall_le_iff
  intro t
  rw [le_latestTime_iff hpos, updates_of_some hu]
  split
  · next hkey =>
      rw [le_max_iff, le_latestTime_iff hpos', or_assoc]
      simp only [List.mem_append, List.mem_singleton, or_and_right, exists_or, exists_eq_left]
      rw [and_iff_right hkey.symm]
  · next hkey =>
      rw [le_latestTime_iff hpos']
      simp only [List.mem_append, List.mem_singleton, or_and_right, exists_or, exists_eq_left]
      have hother : ¬ (pageKey u = key ∧ t ≤ eventTime u) := fun h => hkey h.1.symm
      rw [or_iff_left hother]

/-! ## The rebuilt guard -/

/-- A load that does not raise, and has no poll that times out, reads everything. -/
theorem recordsRead_of_error {polls : List LoadPoll} {applied loaded : Guard}
    (h : loadFrom host topic polls applied = .ok loaded) (herror : polls[answered polls]? = some .error) :
    recordsRead topic polls = topic := by
  fun_induction loadFrom host topic polls applied with
  | case1 topic applied => exact absurd herror (by simp)
  | case2 topic polls applied => exact absurd herror (by simp [answered])
  | case3 topic polls applied => exact absurd h (by simp)
  | case4 polls applied => rfl
  | case5 r rest polls applied applied' hread ih =>
      have hlen : answered (.next :: polls) = answered polls + 1 := rfl
      rw [hlen, List.getElem?_cons_succ] at herror
      rw [recordsRead, ih h herror]
  | case6 r rest polls applied e hread => exact absurd h (by simp)

/-- **The rebuilt guard** knows the time of the latest update of every page. -/
theorem guard_rebuilt {polls : List LoadPoll} {applied : Guard} (hpos : PositiveTimes host messages)
    (h : Written host messages outs) (hkept : KeepsNewest (outs.map asRecord) topic)
    (hload : loadApplied host topic polls = .ok applied) (hall : recordsRead topic polls = topic) (key : Str) :
    guardOf applied key = latestTime host messages key := by
  apply eq_of_forall_le_iff
  intro t
  rw [le_guardOf_loadFrom_iff hload, le_latestTime_iff hpos, hall]
  have hempty : guardOf Dict.empty key = -1 := rfl
  rw [hempty]
  apply or_congr_right
  constructor
  · -- a record in the topic is that of an update
    rintro ⟨x, hx, ms, hdates, hle⟩
    obtain ⟨out, hout, rfl⟩ := List.mem_map.mp (hkept.sublist.subset hx)
    obtain ⟨u, hu, hwrites⟩ := forall₂_mem_right h hout
    obtain ⟨rfl, rfl⟩ := hwrites.dates.mp hdates
    exact ⟨u, mem_of_mem_keptOf hu, rfl, hle⟩
  · -- the latest update has the newest record of the page, which compaction has kept
    rintro ⟨u, hu, hkey, hle⟩
    have hrel := h.rel_newest key
    have hnewest := newest_kept h.readable hkept key
    cases hlatest : latestUpdate host messages key with
    | none => exact absurd hkey (greatestOf_eq_none_iff.mp hlatest u hu)
    | some v =>
        rw [hlatest] at hrel
        cases hx : newest keyText key (outs.map asRecord) with
        | none => exact absurd (hx ▸ hrel) (by rintro ⟨⟩)
        | some x =>
            rw [hx] at hrel hnewest
            obtain ⟨out, rfl, hwrites⟩ : ∃ out, x = asRecord out ∧ Writes host v out := by
              cases hrel with
              | some h => exact h
            have hv := mem_of_greatestOf hlatest
            exact ⟨_, (mem_of_newest hnewest).1, eventTime v, hwrites.dates.mpr ⟨hv.2.symm, rfl⟩,
              hle.trans (le_greatestOf hlatest hu hkey)⟩

/-! ## The invariant -/

/-- What holds between steps. The output and the guard are those of the messages read: the committed ones for the
    topic, those up to its position for a process. -/
structure Converged (host : Host) (p : Nat) (log : List KafkaRecord) (w : World) : Prop where
  written : Written host (log.take w.committed) w.published
  topic : KeepsNewest (w.published.map asRecord) w.topic
  process : ∀ pr, w.process = some pr →
    Written host (log.take pr.position) (w.published ++ pr.pending) ∧
      ∀ key, guardOf (appliedFor pr.guards p) key = latestTime host (log.take pr.position) key

theorem latestTime_of_some (h : latestUpdate host messages key = some u) :
    latestTime host messages key = eventTime u := by
  unfold latestTime
  rw [h]
  rfl

theorem exists_latestUpdate (h : -1 < latestTime host messages key) :
    ∃ u, latestUpdate host messages key = some u := by
  cases hu : latestUpdate host messages key with
  | some u => exact ⟨u, rfl⟩
  | none =>
      unfold latestTime at h
      rw [hu] at h
      exact absurd h (lt_irrefl _)

/-- A message that changes no page. -/
theorem Written.other (h : Written host messages outs) (hr : updateOf host r = none) :
    Written host (messages ++ [r]) outs := by
  unfold Written
  rw [updates_of_none hr]
  exact h

/-- An update that comes too late. -/
theorem Written.late (h : Written host messages outs) (hr : updateOf host r = some u) (hpos : 0 < eventTime u)
    (hlt : eventTime u < latestTime host messages (pageKey u)) : Written host (messages ++ [r]) outs := by
  obtain ⟨v, hv⟩ := exists_latestUpdate ((by omega : -1 < eventTime u).trans hlt)
  rw [latestTime_of_some hv] at hlt
  unfold Written
  rw [updates_of_some hr, keptOf_snoc_of_lt hv hlt]
  exact h

/-- An update that does not. -/
theorem Written.write (h : Written host messages outs) (hr : updateOf host r = some u) (hwrites : Writes host u out)
    (hle : latestTime host messages (pageKey u) ≤ eventTime u) : Written host (messages ++ [r]) (outs ++ [out]) := by
  have hnone : ∀ v, latestUpdate host messages (pageKey u) = some v → eventTime v ≤ eventTime u := by
    intro v hv
    rw [latestTime_of_some hv] at hle
    exact hle
  unfold Written
  rw [updates_of_some hr, keptOf_snoc_of_le hnone]
  exact List.rel_append h (.cons hwrites .nil)

/-- **One message handled**: page state writes what the last writer writes, and remembers its time. -/
theorem Written.handled {guards : Guards} {o : Nat} {result : Guards × List Produced}
    (h : Written host messages outs) (hpos : PositiveTimes host (messages ++ [r]))
    (hguard : ∀ key, guardOf (appliedFor guards p) key = latestTime host messages key)
    (hhandle : handle host guards ⟨p, o, r⟩ = .ok result) :
    Written host (messages ++ [r]) (outs ++ result.2) ∧
      ∀ key, guardOf (appliedFor result.1 p) key = latestTime host (messages ++ [r]) key := by
  rcases handle_cases hhandle with ⟨hnone, rfl⟩ | ⟨key, page, timeMs, hupdate, hcase⟩
  · rw [List.append_nil]
    refine ⟨h.other hnone, ?_⟩
    intro k
    unfold latestTime latestUpdate
    rw [updates_of_none hnone]
    exact hguard k
  · have hpositive : 0 < timeMs := hpos r (by simp) _ hupdate
    have htime : ∀ k, latestTime host (messages ++ [r]) k =
        if k = key then max (latestTime host messages k) timeMs else latestTime host messages k :=
      latestTime_snoc hpos hupdate
    rcases hcase with ⟨hstale, rfl⟩ | ⟨hle, out, hout, rfl⟩
    · have hlt : timeMs < latestTime host messages key := hguard key ▸ hstale
      rw [List.append_nil]
      refine ⟨h.late hupdate hpositive hlt, ?_⟩
      intro k
      rw [htime, appliedFor_set, if_pos rfl, hguard k]
      split
      · next hk =>
          subst hk
          exact (max_eq_left hlt.le).symm
      · rfl
    · have hle' : latestTime host messages key ≤ timeMs := hguard key ▸ hle
      refine ⟨h.write hupdate ⟨⟨r, hupdate⟩, hpositive, hout⟩ hle', ?_⟩
      intro k
      rw [htime, appliedFor_set, if_pos rfl, guardOf_remember, hguard key, hguard k]
      split
      · next hk => rw [hk]
      · rfl

theorem PositiveTimes.take (h : PositiveTimes host log) (n : Nat) : PositiveTimes host (log.take n) :=
  fun r hr => h r (List.mem_of_mem_take hr)

theorem Written.stored (h : Written host messages outs) (now : Int) {pending : List Produced} (hsub : pending ⊆ outs) :
    pending.map (stored now) = pending.map asRecord := by
  apply List.map_congr_left
  intro out hout
  obtain ⟨u, _, hwrites⟩ := forall₂_mem_right h (hsub hout)
  exact hwrites.stored now

theorem converged_init : Converged host p log {} where
  written := .nil
  topic := ⟨List.Sublist.refl _, fun k => Or.inl rfl⟩
  process pr hpr := absurd hpr (by simp)

theorem Converged.step {w' : World} {a : Action} (h : Converged host p log w) (hpos : PositiveTimes host log)
    (hcalm : Calm w a) (hstep : step host p log w a = some w') : Converged host p log w' := by
  cases step_inv hstep with
  | @start polls applied hnone hload =>
      refine ⟨h.written, h.topic, ?_⟩
      intro pr hpr
      obtain rfl := Option.some.inj hpr
      have hall : recordsRead w.topic polls = w.topic := by
        rcases hcalm with hall | herror
        · exact hall
        · exact recordsRead_of_error hload herror
      refine ⟨?_, ?_⟩
      · rw [List.append_nil]
        exact h.written
      · intro key
        rw [appliedFor_set, if_pos rfl]
        exact guard_rebuilt (hpos.take _) h.written h.topic hload hall key
  | @handle pr r result hpr hr hhandle =>
      refine ⟨h.written, h.topic, ?_⟩
      intro pr' hpr'
      obtain rfl := Option.some.inj hpr'
      obtain ⟨hwritten, hguard⟩ := h.process pr hpr
      have htake : log.take (pr.position + 1) = log.take pr.position ++ [r] := by
        rw [List.take_add_one, hr]
        rfl
      have hnext := hwritten.handled (htake ▸ hpos.take _) hguard hhandle
      rw [← htake, List.append_assoc] at hnext
      exact hnext
  | @commit pr now hpr _ =>
      obtain ⟨hwritten, hguard⟩ := h.process pr hpr
      refine ⟨hwritten, ?_, ?_⟩
      · show KeepsNewest ((w.published ++ pr.pending).map asRecord) (w.topic ++ pr.pending.map (stored now))
        rw [hwritten.stored now (fun out hout => List.mem_append_right _ hout), List.map_append]
        exact h.topic.append _
      · intro pr' hpr'
        obtain rfl := Option.some.inj hpr'
        show Written host (log.take pr.position) ((w.published ++ pr.pending) ++ []) ∧ _
        rw [List.append_nil]
        exact ⟨hwritten, hguard⟩
  | abort _ => exact hcalm.elim
  | die _ => exact ⟨h.written, h.topic, fun pr hpr => absurd hpr (by simp)⟩
  | stillborn _ => exact h
  | supersede hi => exact ⟨h.written, h.topic.eraseIdx hi, h.process⟩
  | expire _ => exact hcalm.elim

theorem converged_run {acts : List Action} (hpos : PositiveTimes host log)
    (hcalm : Always (step host p log) Calm {} acts)
    (hrun : run (step host p log) {} acts = some w) : Converged host p log w :=
  run_state_invariant converged_init (fun _ _ _ h hcalm hstep => h.step hpos hcalm hstep) hcalm hrun

/-! ## The result -/

/-- What the newest records say is what the latest updates say. -/
theorem Written.shows_eq {feed : List KafkaRecord} (h : Written host messages outs)
    (hfeed : KeepsNewest (outs.map asRecord) feed) (key : Str) :
    (newest keyText key feed).bind (pageOf host) = (latestUpdate host messages key).bind shows := by
  rw [newest_kept h.readable hfeed]
  have hrel := h.rel_newest key
  generalize newest keyText key (outs.map asRecord) = record at hrel ⊢
  generalize latestUpdate host messages key = latest at hrel ⊢
  cases hrel with
  | none => rfl
  | some hone =>
      obtain ⟨out, rfl, hwrites⟩ := hone
      exact hwrites.reads.pageOf_eq

/-- **The table converges to event order.** However the messages arrive and wherever the process crashes, both
    readers of what compaction leaves of the output show, for every page, what the latest committed update of the
    page says, and nothing for a page that it deletes. -/
theorem table_converges {acts : List Action} (hpos : PositiveTimes host log)
    (hcalm : Always (step host p log) Calm {} acts) (hrun : run (step host p log) {} acts = some w) :
    KeepsNewest (w.published.map asRecord) w.topic ∧
      ∀ feed, KeepsNewest (w.published.map asRecord) feed →
        (∃ store, follow host feed = .ok store ∧
          ∀ key, store.pages.get? key = (latestUpdate host (log.take w.committed) key).bind shows) ∧
        ∀ partitionCount polls, Whole partitionCount (feed.map (Prod.mk p)) polls →
          ∃ snapshot, buildSnapshot host partitionCount polls = .ok snapshot ∧
            ∀ key, snapshot.pages.get? (some key) =
              (latestUpdate host (log.take w.committed) key).bind shows := by
  have hconverged := converged_run hpos hcalm hrun
  refine ⟨hconverged.topic, ?_⟩
  intro feed hfeed
  have hlog : Readable host feed := fun r hr => hconverged.written.readable r (hfeed.sublist.subset hr)
  have hshows := hconverged.written.shows_eq hfeed
  refine ⟨?_, ?_⟩
  · obtain ⟨store, hstore, htable⟩ := follow_reads hlog
    refine ⟨store, hstore, ?_⟩
    intro key
    rw [htable, get?_tableOf, hshows]
  · intro partitionCount polls hwhole
    have hsnd : (feed.map (Prod.mk p)).map Prod.snd = feed := by
      rw [List.map_map]
      exact List.map_id feed
    obtain ⟨snapshot, hsnapshot, htable⟩ := snapshot_reads (hsnd.symm ▸ hlog) hwhole
    refine ⟨snapshot, hsnapshot, ?_⟩
    intro key
    have hkeys : newest (fun r => some (keyText r)) (some key) feed = newest keyText key feed :=
      newest_congr (fun r _ => Option.some_inj)
    rw [htable, get?_tableOf, hsnd, hkeys, hshows]

/-- An edit, then an edit and a deletion from before it. -/
def lateMessages : List KafkaRecord := [editRecord 3, editRecord 1, deletionRecord]

/-- The process crashes after its first commit, and once more with a message in hand. -/
def crashes : List Action :=
  [.start [.next], .handleNext, .commit 1, .crash, .start [.next], .handleNext, .crash, .start [.next],
    .handleNext, .handleNext, .commit 1]

/-- The page still shows the edit. -/
theorem late_messages_ignored :
    ∃ w store, run (step Transform.utcHost 0 lateMessages) {} crashes = some w ∧
      follow Transform.utcHost w.topic = .ok store ∧
      store.pages.get? (lit "w:T") = some (PageLatest.fromEvent Transform.utcHost (pageEvent "edit" 3 none)) := by
  have hpos : PositiveTimes Transform.utcHost lateMessages := by decide +kernel
  have hcalm : Always (step Transform.utcHost 0 lateMessages) Calm {} crashes := by decide +kernel
  have hcommitted : (run (step Transform.utcHost 0 lateMessages) {} crashes).map World.committed = some 3 := by
    decide +kernel
  have hlatest : (latestUpdate Transform.utcHost lateMessages (lit "w:T")).bind shows =
      some (PageLatest.fromEvent Transform.utcHost (pageEvent "edit" 3 none)) := by
    decide +kernel
  obtain ⟨w, hrun, hw⟩ := Option.map_eq_some_iff.mp hcommitted
  obtain ⟨htopic, hreaders⟩ := table_converges hpos hcalm hrun
  obtain ⟨store, hstore, htable⟩ := (hreaders w.topic htopic).1
  refine ⟨w, store, hrun, hstore, ?_⟩
  rw [htable, hw]
  exact hlatest

end PageTopic
end Wikistream
