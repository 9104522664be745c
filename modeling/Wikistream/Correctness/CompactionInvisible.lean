import Wikistream.Correctness.DeletedPages
import Wikistream.Correctness.PageRecords
import Wikistream.Lib.Table
import Wikistream.Scripts.PageSnapshot
import Wikistream.Web.Pages

/-!
# `Correctness.CompactionInvisible` — no reader of wiki.page-latest can tell that it was compacted

The page store and the snapshot let the last record of a page win, the guard takes the greatest event time. What
they come to depends on the newest record of each key alone, and compaction keeps it, or drops a tombstone.

## Contents
- **The two tables** (`follow_reads`, `snapshot_reads`): each is the table of its records.
- **The guard** (`loadApplied_reads`, `get?_guard`): with times that do not decrease the newest record decides.
- **Interleavings** (`newest_interleaved`): the partition of a key decides.
- **The result** (`compaction_invisible`).
-/

namespace Wikistream
namespace PageState

open Py Lib Models Pages PageSnapshot

variable {host : Host} {r : KafkaRecord} {key : Str} {page : Option PageLatest} {log : List KafkaRecord}

/-- The page a record is about. -/
def keyText (r : KafkaRecord) : Str := (r.key.bind utf8Decode).getD []

/-- What a record says about its page. -/
def pageOf (host : Host) (r : KafkaRecord) : Option PageLatest :=
  r.value.bind (fun b => (PageLatest.fromJson host (.bytes b)).toOption)

/-- Every record can be read. -/
def Readable (host : Host) (log : List KafkaRecord) : Prop := ∀ r ∈ log, ∃ key page, Reads host r key page

theorem Reads.keyText_eq (h : Reads host r key page) : keyText r = key := by
  obtain ⟨k, hk, _, hdecode, _⟩ := h.key
  simp [keyText, hk, hdecode]

theorem Reads.pageOf_eq (h : Reads host r key page) : pageOf host r = page := by
  rcases h.value with ⟨hnone, rfl⟩ | ⟨b, pg, hb, rfl, hread⟩
  · simp [pageOf, hnone]
  · simp [pageOf, hb, hread, Except.toOption]

/-! ## The two tables -/

theorem Reads.apply (h : Reads host r key page) (s : PageStore) :
    ∃ s', s.apply host r.key r.value = .ok s' ∧ s'.pages = applyRecord keyText (pageOf host) s.pages r := by
  obtain ⟨k, hk, _, hdecode, _⟩ := h.key
  unfold PageStore.apply applyRecord
  rw [h.pageOf_eq, h.keyText_eq, hk]
  simp only [hdecode]
  rcases h.value with ⟨hnone, rfl⟩ | ⟨b, pg, hb, rfl, hread⟩
  · rw [hnone]
    exact ⟨_, rfl, rfl⟩
  · rw [hb]
    simp only [hread]
    exact ⟨_, rfl, rfl⟩

theorem Reads.addRecord (h : Reads host r key page) (s : Snapshot) :
    ∃ s', PageSnapshot.addRecord host s r = .ok s' ∧
      s'.pages = applyRecord (fun r => some (keyText r)) (pageOf host) s.pages r := by
  obtain ⟨k, hk, hne, hdecode, _⟩ := h.key
  have hkey : keyOf r.key = .ok (some key) := by
    rw [hk]
    cases k with
    | nil => exact absurd rfl hne
    | cons b k => simp only [keyOf, hdecode]
  unfold PageSnapshot.addRecord applyRecord
  rw [h.pageOf_eq, hkey]
  simp only [h.keyText_eq]
  rcases h.value with ⟨hnone, rfl⟩ | ⟨b, pg, hb, rfl, hread⟩
  · simp only [hnone]
    exact ⟨_, rfl, rfl⟩
  · simp only [hb, hread]
    exact ⟨_, rfl, rfl⟩

/-- A fold that applies each record to the table in its state. -/
theorem foldlM_table {σ κ : Type} [DecidableEq κ] {table : σ → Dict κ PageLatest}
    {step : σ → KafkaRecord → Except Exc σ} {key : KafkaRecord → κ} (hlog : Readable host log)
    (hstep : ∀ s r name page, Reads host r name page →
      ∃ s', step s r = .ok s' ∧ table s' = applyRecord key (pageOf host) (table s) r) (s : σ) :
    ∃ s', log.foldlM step s = .ok s' ∧ table s' = log.foldl (applyRecord key (pageOf host)) (table s) := by
  induction log generalizing s with
  | nil => exact ⟨s, rfl, rfl⟩
  | cons r log ih =>
      obtain ⟨name, page, hr⟩ := hlog r List.mem_cons_self
      obtain ⟨s', hs', htable⟩ := hstep s r name page hr
      obtain ⟨s'', hs'', htable'⟩ := ih (fun x hx => hlog x (List.mem_cons_of_mem _ hx)) s'
      refine ⟨s'', ?_, ?_⟩
      · rw [List.foldlM_cons, hs']
        exact hs''
      · rw [htable', htable]
        rfl

/-- **The page store holds the table of its records.** -/
theorem follow_reads (hlog : Readable host log) :
    ∃ store, follow host log = .ok store ∧ store.pages = tableOf keyText (pageOf host) log :=
  foldlM_table hlog (fun s _ _ _ h => h.apply s) {}

/-- **So does the snapshot.** -/
theorem snapshot_reads {partitionCount : Nat} {feed : List (Nat × KafkaRecord)} {polls : List SnapshotPoll}
    (hlog : Readable host (feed.map Prod.snd)) (hwhole : Whole partitionCount feed polls) :
    ∃ snapshot, buildSnapshot host partitionCount polls = .ok snapshot ∧
      snapshot.pages = tableOf (fun r => some (keyText r)) (pageOf host) (feed.map Prod.snd) := by
  obtain ⟨s, hs, htable⟩ := @foldlM_table host (feed.map Prod.snd) _ _ _ Snapshot.pages _ _ hlog
    (fun s _ _ _ h => h.addRecord s) {}
  have hloop : snapshotLoop host partitionCount polls ∅ {} = feed.foldlM (fun s x => addRecord host s x.2) {} :=
    snapshotLoop_whole hwhole (by simp) (by simp) {}
  rw [List.foldlM_map] at hs
  refine ⟨{ s with stats := { s.stats with pages := s.pages.size } }, ?_, htable⟩
  unfold buildSnapshot
  rw [hloop, hs]
  rfl

/-! ## The guard -/

/-- The polls hand out the whole partition, and no error follows. -/
def Drained (topic : List KafkaRecord) (polls : List LoadPoll) : Prop :=
  ∃ rest, polls = List.replicate topic.length .next ++ rest ∧ rest.head? ≠ some .error

/-- What the records add to a guard. -/
def rememberAll (applied : Guard) (topic : List KafkaRecord) : Guard :=
  topic.foldl (fun g r => remember g (keyText r) r.timestamp) applied

theorem Reads.readRecord (h : Reads host r key page) (applied : Guard) :
    PageState.readRecord host applied r = .ok (remember applied (keyText r) r.timestamp) := by
  obtain ⟨k, hk, _, hdecode, _⟩ := h.key
  unfold PageState.readRecord
  rw [h.keyText_eq, hk]
  simp only [hdecode, h.time]
  rfl

theorem loadFrom_drained {rest : List LoadPoll} (hrest : rest.head? ≠ some .error) (hlog : Readable host log)
    (applied : Guard) :
    loadFrom host log (List.replicate log.length .next ++ rest) applied = .ok (rememberAll applied log) := by
  induction log generalizing applied with
  | nil =>
      cases rest with
      | nil => rfl
      | cons poll rest =>
          cases poll with
          | next => rfl
          | timeout => rfl
          | error => exact absurd rfl hrest
  | cons r log ih =>
      obtain ⟨key, page, hr⟩ := hlog r List.mem_cons_self
      rw [List.length_cons, List.replicate_succ, List.cons_append, loadFrom, hr.readRecord]
      exact ih (fun x hx => hlog x (List.mem_cons_of_mem _ hx)) _

theorem loadApplied_reads {polls : List LoadPoll} (hlog : Readable host log) (hpolls : Drained log polls) :
    loadApplied host log polls = .ok (rememberAll Dict.empty log) := by
  obtain ⟨rest, rfl, hrest⟩ := hpolls
  exact loadFrom_drained hrest hlog Dict.empty

/-- Event times of a page do not decrease. -/
def TimesOrdered (log : List KafkaRecord) : Prop :=
  log.Pairwise (fun x y => keyText x = keyText y → x.timestamp ≤ y.timestamp)

/-- The time a guard keeps: nothing is before the epoch. -/
def guardTime (r : KafkaRecord) : Option Int := if -1 < r.timestamp then some r.timestamp else none

/-- **The newest record decides what the guard knows.** -/
theorem get?_guard (hordered : TimesOrdered log) (k : Str) :
    (rememberAll Dict.empty log).get? k = (newest keyText k log).bind guardTime := by
  induction log using List.reverseRecOn with
  | nil => rfl
  | append_singleton log r ih =>
      obtain ⟨hlog, _, hlast⟩ := List.pairwise_append.mp hordered
      have hprev := ih hlog
      have hfold : rememberAll Dict.empty (log ++ [r]) =
          remember (rememberAll Dict.empty log) (keyText r) r.timestamp := by
        unfold rememberAll
        rw [List.foldl_append]
        rfl
      rw [hfold, newest_snoc]
      by_cases hk : keyText r = k
      · subst hk
        rw [if_pos rfl]
        -- the time known so far is that of an earlier record of the page
        have hbefore : ∀ v, (rememberAll Dict.empty log).get? (keyText r) = some v → -1 < v ∧ v ≤ r.timestamp := by
          intro v hv
          rw [hprev] at hv
          obtain ⟨x, hnewest, hv⟩ := Option.bind_eq_some_iff.mp hv
          obtain ⟨hx, hkey⟩ := mem_of_newest hnewest
          have hle := hlast x hx r (List.mem_singleton_self r) hkey
          unfold guardTime at hv
          split at hv
          · next hpos =>
              obtain rfl := Option.some.inj hv
              exact ⟨hpos, hle⟩
          · exact absurd hv (by simp)
        show _ = guardTime r
        unfold remember guardOf guardTime
        cases hget : (rememberAll Dict.empty log).get? (keyText r) with
        | none =>
            simp only [Option.getD_none]
            split
            · exact Dict.get?_set_self _ _ _
            · exact hget
        | some v =>
            obtain ⟨hpos, hle⟩ := hbefore v hget
            simp only [Option.getD_some]
            rw [if_pos (hpos.trans_le hle)]
            split
            · exact Dict.get?_set_self _ _ _
            · next hlt => rw [hget, le_antisymm hle (not_lt.mp hlt)]
      · rw [if_neg hk]
        unfold remember
        split
        · rw [Dict.get?_set_ne _ _ (fun h => hk h.symm)]
          exact hprev
        · exact hprev

/-! ## Interleavings -/

/-- The partitions of wiki.page-latest, as page state writes them: a page's records are all in the partition its key
    is assigned to, and each carries the time of its event. -/
structure Topic (host : Host) (partitioner : Bytes → Nat) (parts : Nat → List KafkaRecord) : Prop where
  written : ∀ p, ∀ r ∈ parts p, AsWritten host r
  keyed : ∀ p, ∀ r ∈ parts p, ∀ k, r.key = some k → p = partitioner k
  ordered : ∀ p, (parts p).Pairwise (fun x y => x.key = y.key → x.timestamp ≤ y.timestamp)

/-- The records of the partitions, interleaved in some way. -/
def Interleaves (parts : Nat → List KafkaRecord) (feed : List (Nat × KafkaRecord)) : Prop :=
    ∀ p, partOf p feed = parts p

/-- Kafka's compaction of a partition. -/
abbrev Compaction : List KafkaRecord → List KafkaRecord → Prop := Compacted KafkaRecord.key (fun r => r.value = none)

/-- What the full topic says about a page. -/
def lastPage (host : Host) (partitioner : Bytes → Nat) (parts : Nat → List KafkaRecord) (key : Str) :
    Option PageLatest :=
  match utf8Encode key with
  | none => none
  | some k => (newest KafkaRecord.key (some k) (parts (partitioner k))).bind (pageOf host)

variable {partitioner : Bytes → Nat} {parts kept : Nat → List KafkaRecord} {feed : List (Nat × KafkaRecord)} {k : Bytes}

theorem Topic.readable (h : Topic host partitioner parts) (p : Nat) : Readable host (parts p) :=
  fun r hr => (h.written p r hr).reads

/-- The bytes of a key and its text name the same page. -/
theorem newest_keyText (hlog : Readable host log) (hk : utf8Encode key = some k) :
    newest keyText key log = newest KafkaRecord.key (some k) log := by
  apply newest_congr
  intro r hr
  obtain ⟨name, page, hreads⟩ := hlog r hr
  obtain ⟨k', hk', _, hdecode, hencode⟩ := hreads.key
  rw [hreads.keyText_eq, hk']
  constructor
  · rintro rfl
    exact hencode.symm.trans hk
  · intro heq
    obtain rfl := Option.some.inj heq
    exact Option.some.inj (hdecode.symm.trans (utf8Decode_encode hk))

/-- A text that is no key has no record. -/
theorem newest_of_not_encodable (hlog : Readable host log) (hk : utf8Encode key = none) :
    newest keyText key log = none := by
  apply newest_eq_none_iff.mpr
  intro r hr heq
  obtain ⟨name, page, hreads⟩ := hlog r hr
  obtain ⟨k', _, _, _, hencode⟩ := hreads.key
  rw [← hreads.keyText_eq, heq] at hencode
  exact absurd (hk.symm.trans hencode) (by simp)

theorem timesOrdered (hlog : Readable host log)
    (h : log.Pairwise (fun x y => x.key = y.key → x.timestamp ≤ y.timestamp)) : TimesOrdered log := by
  refine h.imp_of_mem ?_
  intro x y hx hy hle heq
  obtain ⟨_, _, hreads⟩ := hlog x hx
  obtain ⟨_, _, hreads'⟩ := hlog y hy
  obtain ⟨k, hk, _, _, hencode⟩ := hreads.key
  obtain ⟨k', hk', _, _, hencode'⟩ := hreads'.key
  rw [← hreads.keyText_eq, heq, hreads'.keyText_eq] at hencode
  apply hle
  rw [hk, hk', Option.some.inj (hencode.symm.trans hencode')]

/-- **A compacted topic is one that page state could have written.** -/
theorem Topic.compacted (h : Topic host partitioner parts) (hkept : ∀ p, Compaction (parts p) (kept p)) :
    Topic host partitioner kept where
  written p r hr := h.written p r ((hkept p).sublist.subset hr)
  keyed p r hr := h.keyed p r ((hkept p).sublist.subset hr)
  ordered p := (h.ordered p).sublist (hkept p).sublist

/-- What any interleaving of the partitions says about a page. -/
theorem newest_interleaved (h : Topic host partitioner parts) (hfeed : Interleaves parts feed) (key : Str) :
    (newest keyText key (feed.map Prod.snd)).bind (pageOf host) = lastPage host partitioner parts key ∧
      Readable host (feed.map Prod.snd) := by
  have hmem : ∀ x ∈ feed, x.2 ∈ parts x.1 := by
    intro x hx
    rw [← hfeed x.1]
    exact mem_partOf.mpr hx
  have hlog : Readable host (feed.map Prod.snd) := by
    intro r hr
    obtain ⟨x, hx, rfl⟩ := List.mem_map.mp hr
    exact h.readable x.1 x.2 (hmem x hx)
  refine ⟨?_, hlog⟩
  unfold lastPage
  cases hk : utf8Encode key with
  | none => rw [newest_of_not_encodable hlog hk, Option.bind_none]
  | some k =>
      dsimp only
      rw [newest_keyText hlog hk, ← hfeed (partitioner k), newest_partOf]
      intro x hx hkey
      exact h.keyed x.1 x.2 (hmem x hx) k hkey

theorem lastPage_compacted (hkept : ∀ p, Compaction (parts p) (kept p)) (key : Str) :
    lastPage host partitioner kept key = lastPage host partitioner parts key := by
  unfold lastPage
  cases utf8Encode key with
  | none => rfl
  | some k =>
      apply (hkept (partitioner k)).bind_value
      intro r _ hnone
      simp [pageOf, hnone]

/-! ## The result -/

/-- **Compaction is invisible.** Whatever compaction has left of the partitions and however they are interleaved,
    the page store and the snapshot come to the table of the full topic, and the guard of a partition is the full
    partition's for every page that still has a record. -/
theorem compaction_invisible (h : Topic host partitioner parts) (hkept : ∀ p, Compaction (parts p) (kept p)) :
    (∀ feed, Interleaves parts feed ∨ Interleaves kept feed → ∃ store, follow host (feed.map Prod.snd) = .ok store ∧
      ∀ key, store.pages.get? key = lastPage host partitioner parts key) ∧
    (∀ feed partitionCount polls, Interleaves parts feed ∨ Interleaves kept feed → Whole partitionCount feed polls →
      ∃ snapshot, buildSnapshot host partitionCount polls = .ok snapshot ∧ snapshot.pages.get? none = none ∧
        ∀ key, snapshot.pages.get? (some key) = lastPage host partitioner parts key) ∧
    ∀ p polls polls', Drained (parts p) polls → Drained (kept p) polls' →
      ∃ applied applied', loadApplied host (parts p) polls = .ok applied ∧
        loadApplied host (kept p) polls' = .ok applied' ∧
        ∀ r ∈ kept p, ∀ k key, r.key = some k → utf8Decode k = some key → applied'.get? key = applied.get? key := by
  have hcompacted := h.compacted hkept
  have hfeed : ∀ feed, Interleaves parts feed ∨ Interleaves kept feed → Readable host (feed.map Prod.snd) ∧
      ∀ key, (newest keyText key (feed.map Prod.snd)).bind (pageOf host) = lastPage host partitioner parts key := by
    rintro feed (hfull | hrest)
    · exact ⟨(newest_interleaved h hfull []).2, fun key => (newest_interleaved h hfull key).1⟩
    · refine ⟨(newest_interleaved hcompacted hrest []).2, ?_⟩
      intro key
      rw [(newest_interleaved hcompacted hrest key).1, lastPage_compacted hkept]
  refine ⟨?_, ?_, ?_⟩
  · intro feed hinterleaves
    obtain ⟨hlog, hlast⟩ := hfeed feed hinterleaves
    obtain ⟨store, hstore, htable⟩ := follow_reads hlog
    refine ⟨store, hstore, ?_⟩
    intro key
    rw [htable, get?_tableOf, hlast]
  · intro feed partitionCount polls hinterleaves hwhole
    obtain ⟨hlog, hlast⟩ := hfeed feed hinterleaves
    obtain ⟨snapshot, hsnapshot, htable⟩ := snapshot_reads hlog hwhole
    refine ⟨snapshot, hsnapshot, ?_, ?_⟩
    · rw [htable, get?_tableOf, newest_eq_none_iff.mpr (fun r _ => by simp), Option.bind_none]
    · intro key
      rw [htable, get?_tableOf, ← hlast key]
      exact congrArg (Option.bind · _) (newest_congr (fun r _ => by simp))
  · intro p polls polls' hpolls hpolls'
    have hread := loadApplied_reads (h.readable p) hpolls
    have hread' := loadApplied_reads (hcompacted.readable p) hpolls'
    refine ⟨_, _, hread, hread', ?_⟩
    intro r hr k key hk hkey
    have hencode : utf8Encode key = some k := by
      obtain ⟨name, page, hreads⟩ := hcompacted.readable p r hr
      obtain ⟨k', hk', _, hdecode, hencode⟩ := hreads.key
      obtain rfl := Option.some.inj (hk.symm.trans hk')
      obtain rfl := Option.some.inj (hkey.symm.trans hdecode)
      exact hencode
    rw [get?_guard (timesOrdered (h.readable p) (h.ordered p)),
      get?_guard (timesOrdered (hcompacted.readable p) (hcompacted.ordered p)),
      newest_keyText (h.readable p) hencode, newest_keyText (hcompacted.readable p) hencode,
      (hkept p).keeps_newest ⟨r, hr, hk⟩]

/-- What page state writes for an edit of the page at that second. -/
def writtenEdit (seconds : Int) : Option KafkaRecord :=
  (handle Transform.utcHost Dict.empty ⟨0, 0, PageTopic.editRecord seconds⟩).toOption.bind (fun result =>
    result.2.head?.map (fun out => { key := out.key, value := out.value, timestamp := out.timestamp }))

theorem asWritten_of_writtenEdit {seconds : Int} (h : writtenEdit seconds = some r) :
    AsWritten Transform.utcHost r := by
  obtain ⟨result, hresult, h⟩ := Option.bind_eq_some_iff.mp h
  obtain ⟨out, hout, rfl⟩ := Option.map_eq_some_iff.mp h
  exact ⟨Dict.empty, ⟨0, 0, PageTopic.editRecord seconds⟩, result, out, toOption_eq_some.mp hresult,
    List.mem_of_head? hout, rfl, rfl, rfl⟩

/-- A topic with one partition. -/
def onePartition (log : List KafkaRecord) (p : Nat) : List KafkaRecord := if p = 0 then log else []

/-- Two edits of a page, and what compaction leaves of them. -/
theorem edit_survives_compaction :
    ∃ first second store page, writtenEdit 1 = some first ∧ writtenEdit 2 = some second ∧
      follow Transform.utcHost [second] = .ok store ∧ store.pages.get? (lit "w:T") = some page ∧
      lastPage Transform.utcHost (fun _ => 0) (onePartition [first, second]) (lit "w:T") = some page := by
  obtain ⟨⟨first, second⟩, hedits, hread⟩ := Option.map_eq_some_iff.mp
    (by decide +kernel : ((writtenEdit 1).bind (fun a => (writtenEdit 2).map (Prod.mk a))).map
      (fun x => decide (x.1.timestamp ≤ x.2.timestamp ∧ Superseded KafkaRecord.key [x.1, x.2] 0 ∧
        (lastPage Transform.utcHost (fun _ => 0) (onePartition [x.1, x.2]) (lit "w:T")).isSome)) = some true)
  obtain ⟨a, hfirst, hedits⟩ := Option.bind_eq_some_iff.mp hedits
  obtain ⟨b, hsecond, hedits⟩ := Option.map_eq_some_iff.mp hedits
  obtain ⟨rfl, rfl⟩ := Prod.mk.inj hedits
  obtain ⟨hle, hsuperseded, hlast⟩ := of_decide_eq_true hread
  have htopic : Topic Transform.utcHost (fun _ => 0) (onePartition [a, b]) := by
    refine ⟨?_, ?_, ?_⟩
    · intro p r hr
      unfold onePartition at hr
      split at hr
      · rcases List.mem_cons.mp hr with rfl | hr
        · exact asWritten_of_writtenEdit hfirst
        · obtain rfl := List.mem_singleton.mp hr
          exact asWritten_of_writtenEdit hsecond
      · exact absurd hr (by simp)
    · intro p r hr k _
      unfold onePartition at hr
      split at hr
      · assumption
      · exact absurd hr (by simp)
    · intro p
      unfold onePartition
      split
      · simpa using fun _ => hle
      · exact List.Pairwise.nil
  have hkept : ∀ p, Compaction (onePartition [a, b] p) (onePartition [b] p) := by
    intro p
    unfold onePartition
    split
    · exact ⟨List.sublist_cons_self a [b], fun k => Or.inl (newest_eraseIdx hsuperseded k)⟩
    · exact ⟨List.Sublist.refl _, fun k => Or.inl rfl⟩
  have hfeed : Interleaves (onePartition [b]) [(0, b)] := by
    intro p
    by_cases hp : p = 0
    · simp [partOf, onePartition, hp]
    · simp [partOf, onePartition, hp, Ne.symm hp]
  obtain ⟨store, hstore, htable⟩ := (compaction_invisible htopic hkept).1 [(0, b)] (Or.inr hfeed)
  obtain ⟨page, hpage⟩ := Option.isSome_iff_exists.mp hlast
  exact ⟨a, b, store, page, hfirst, hsecond, hstore, (htable _).trans hpage, hpage⟩

end PageState
end Wikistream
