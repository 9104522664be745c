import Wikistream.Correctness.PageTable
import Wikistream.Lib.Follower
import Wikistream.Web.PageFollower

/-!
# `Correctness.DashboardPages` — what the dashboard shows of a page while everything goes on

The table of the dashboard lags behind page state, and compaction takes records away before the dashboard has read
them. What it shows for a page is still what page state came to after some of its messages, and once the dashboard has
caught up, not fewer messages than it had handled then.

## Contents
- **Moments** (`exists_moment`): every length of the output is that after some message.
- **The invariant** (`Shows`, for one partition; `AllShow`) and its step.
- **Caught up** (`EndSeen`): every partition has reported its end since the table was cleared.
- **The result** (`dashboard_pages`).
-/

namespace Wikistream
namespace Pages

open Py Lib Models PageState PageTopic

variable {host : Host} {p : Nat} {log messages : List KafkaRecord} {outs : List Produced}

/-! ## Moments -/

/-- What page state has written after the messages. -/
def written (host : Host) (messages : List KafkaRecord) : List Update :=
  keptOf pageKey eventTime (updates host messages)

/-- The dashboard has read `n` records of partition `p`, where the pages `mine` live, and shows nothing of them that is
    older than after `c` messages. -/
structure Watches (host : Host) (p : Nat) (log : List KafkaRecord) (mine : Str → Prop) (w : World) (n c : Nat)
    (shown : Str → Option PageLatest) : Prop where
  converged : Converged host p log w
  /-- A process is not behind the committed offset. -/
  ordered : ∀ pr, w.process = some pr → w.committed ≤ pr.position
  cursor : n ≤ w.topic.length
  since : c ≤ w.committed ∧ (written host (log.take c)).length ≤ w.published.length
  follows : ∀ key, mine key → Follows keyText (pageOf host) (w.published.map asRecord) w.topic n
    (written host (log.take c)).length key (shown key)

variable {w w' : World} {n c : Nat} {mine : Str → Prop} {shown : Str → Option PageLatest}

/-- What is left of the output is enough for the newest record of each page. -/
theorem compacted_pages (h : Converged host p log w) :
    Compacted keyText (fun _ => False) (w.published.map asRecord) w.topic where
  sublist := h.topic.sublist
  keeps key := Or.inl (newest_kept h.written.readable h.topic key)

theorem watches_restart (h : Converged host p log w) (hordered : ∀ pr, w.process = some pr → w.committed ≤ pr.position)
    (hshown : ∀ key, shown key = none) : Watches host p log mine w 0 0 shown where
  converged := h
  ordered := hordered
  cursor := Nat.zero_le _
  since := ⟨Nat.zero_le _, Nat.zero_le _⟩
  follows key _ := by
    rw [hshown key]
    exact follows_init (compacted_pages h) key

/-- **Page state and compaction go on.** -/
theorem Watches.topic {a : PageTopic.Action} {f : Follower} (h : Watches host p log mine w (f.cursors p) c shown)
    (hpos : PositiveTimes host log) (hcalm : Calm w a) (hstep : PageTopic.step host p log w a = some w') :
    Watches host p log mine w' ((moved f p a).cursors p) c shown := by
  have hconverged := h.converged.step hpos hcalm hstep
  cases PageTopic.step_inv hstep with
  | start _ _ =>
      refine ⟨hconverged, ?_, h.cursor, h.since, h.follows⟩
      intro pr hpr
      obtain rfl := Option.some.inj hpr
      exact le_refl _
  | @handle pr _ _ hpr _ _ =>
      refine ⟨hconverged, ?_, h.cursor, h.since, h.follows⟩
      intro pr' hpr'
      obtain rfl := Option.some.inj hpr'
      exact (h.ordered pr hpr).trans (Nat.le_succ _)
  | @commit pr now hpr _ =>
      have hstored := (h.converged.process pr hpr).1.stored now (fun out hout => List.mem_append_right _ hout)
      refine ⟨hconverged, ?_, ?_, ⟨h.since.1.trans (h.ordered pr hpr), ?_⟩, ?_⟩
      · intro pr' hpr'
        obtain rfl := Option.some.inj hpr'
        exact le_refl _
      · show f.cursors p ≤ (w.topic ++ pr.pending.map (stored now)).length
        rw [List.length_append]
        exact h.cursor.trans (Nat.le_add_right _ _)
      · show _ ≤ (w.published ++ pr.pending).length
        rw [List.length_append]
        exact h.since.2.trans (Nat.le_add_right _ _)
      · intro key hkey
        show Follows _ _ ((w.published ++ pr.pending).map asRecord) (w.topic ++ pr.pending.map (stored now)) _ _ _ _
        rw [hstored, List.map_append]
        refine (h.follows key hkey).append h.cursor ?_ _
        rw [List.length_map]
        exact h.since.2
  | abort _ => exact hcalm.elim
  | die ha =>
      rcases ha with rfl | rfl
      · exact ⟨hconverged, fun pr hpr => absurd hpr (by simp), h.cursor, h.since, h.follows⟩
      · exact ⟨hconverged, fun pr hpr => absurd hpr (by simp), h.cursor, h.since, h.follows⟩
  | stillborn _ => exact h
  | @supersede i hi =>
      have hcursor : (f.shift p i).cursors p = if i < f.cursors p then f.cursors p - 1 else f.cursors p :=
        Function.update_self _ _ _
      have hsuperseded : Superseded keyText w.topic i := by
        have happend := hi.append (fun k => (k.bind utf8Decode).getD []) []
        rw [List.append_nil] at happend
        exact happend
      refine ⟨hconverged, h.ordered, ?_, h.since, ?_⟩
      · obtain ⟨r, hr, r', hr', _⟩ := hi
        obtain ⟨hlt, _⟩ := List.getElem?_eq_some_iff.mp hr
        have hmore : i + 1 < w.topic.length := by
          have hne := List.ne_nil_of_mem hr'
          rw [Ne, List.drop_eq_nil_iff] at hne
          omega
        have hcursor' := h.cursor
        show (f.shift p i).cursors p ≤ (w.topic.eraseIdx i).length
        rw [hcursor, List.length_eraseIdx_of_lt hlt]
        split <;> omega
      · intro key hkey
        show Follows _ _ _ (w.topic.eraseIdx i) ((f.shift p i).cursors p) _ _ _
        rw [hcursor]
        exact (h.follows key hkey).eraseIdx hsuperseded
  | expire _ => exact hcalm.elim

/-- A record of the topic is that of a change or deletion among the messages. -/
theorem exists_update {r : KafkaRecord} (h : Converged host p log w) (hr : r ∈ w.topic) :
    ∃ x ∈ log, ∃ u, updateOf host x = some u ∧ Reads host r (pageKey u) (shows u) := by
  obtain ⟨out, hout, rfl⟩ := List.mem_map.mp (h.topic.sublist.subset hr)
  obtain ⟨u, hu, hwrites⟩ := forall₂_mem_right h.written hout
  obtain ⟨x, hx, hupdate⟩ := mem_updates.mp (mem_of_mem_keptOf hu)
  exact ⟨x, List.mem_of_mem_take hx, u, hupdate, hwrites.reads⟩

/-- **The dashboard reads a record.** -/
theorem Watches.read {r : KafkaRecord} {store store' : PageStore} (h : Watches host p log mine w n c store.pages.get?)
    (hr : w.topic[n]? = some r) (hpages : store'.pages = applyRecord keyText (pageOf host) store.pages r) :
    Watches host p log mine w (n + 1) c store'.pages.get? := by
  obtain ⟨hlt, _⟩ := List.getElem?_eq_some_iff.mp hr
  refine ⟨h.converged, h.ordered, hlt, h.since, ?_⟩
  intro key hkey
  rw [hpages, get?_applyRecord]
  split
  · next heq => exact (h.follows key hkey).read (compacted_pages h.converged) hr heq
  · next hne => exact (h.follows key hkey).skip hr hne

/-- **It reaches the end of the partition.** -/
theorem Watches.reachEnd (h : Watches host p log mine w n c shown) (hlast : w.topic.length ≤ n) :
    Watches host p log mine w n w.committed shown := by
  have hlength : (written host (log.take w.committed)).length = w.published.length := h.converged.written.length_eq
  refine ⟨h.converged, h.ordered, h.cursor, ⟨le_refl _, hlength.le⟩, ?_⟩
  intro key hkey
  have hend := ((h.follows key hkey).atEnd hlast).2
  rw [List.length_map, ← hlength] at hend
  exact hend

/-! ## The invariant -/

variable {count : Nat} {logs : Nat → List KafkaRecord} {route : Str → Nat} {d d' : Dashboard}

/-- Nothing is aborted, `load_applied` reads everything, and no tombstone ages out. -/
def CalmTopic (d : Dashboard) : Action → Prop
  | .topic p a => Calm (d.worlds p) a
  | .begin | .read _ | .reachEnd _ | .fail => True

instance (d : Dashboard) : ∀ a, Decidable (CalmTopic d a)
  | .topic p a => inferInstanceAs (Decidable (Calm (d.worlds p) a))
  | .begin | .read _ | .reachEnd _ | .fail => isTrue trivial

/-- When the end of partition `p` was last reported, which is since the table was last cleared, `c` messages were
    committed there. -/
def EndSeen (host : Host) (count : Nat) (logs : Nat → List KafkaRecord) (acts : List Action) (p c : Nat) : Prop :=
  ∃ before after s, acts = before ++ .reachEnd p :: after ∧ .reachEnd p ∉ after ∧ .begin ∉ after ∧
    run (step host count logs) {} before = some s ∧ (s.worlds p).committed = c

theorem EndSeen.snoc {acts : List Action} {a : Action} (h : EndSeen host count logs acts p c) (hbegin : a ≠ .begin)
    (hend : a ≠ .reachEnd p) : EndSeen host count logs (acts ++ [a]) p c := by
  obtain ⟨before, after, s, rfl, hlast, hafter, hrun, hc⟩ := h
  refine ⟨before, after ++ [a], s, by simp, ?_, ?_, hrun, hc⟩
  · rw [List.mem_append, List.mem_singleton]
    rintro (hmem | heq)
    · exact hlast hmem
    · exact hend heq.symm
  · rw [List.mem_append, List.mem_singleton]
    rintro (hmem | heq)
    · exact hafter hmem
    · exact hbegin heq.symm

/-- What holds after the actions `acts`. -/
structure AllShow (host : Host) (count : Nat) (logs : Nat → List KafkaRecord) (route : Str → Nat)
    (acts : List Action) (d : Dashboard) : Prop where
  reached : run (step host count logs) {} acts = some d
  partitions : d.follower.partitions = 0 ∨ d.follower.partitions = count
  ends : d.follower.atEnd.Nodup ∧ ∀ q ∈ d.follower.atEnd, q < count
  watches : ∀ p, ∃ c, Watches host p (logs p) (fun key => route key = p) (d.worlds p) (d.follower.cursors p) c
    d.follower.store.pages.get? ∧ (p ∈ d.follower.atEnd → EndSeen host count logs acts p c)

theorem run_snoc {acts : List Action} {a : Action} (hrun : run (step host count logs) {} acts = some d)
    (hstep : step host count logs d a = some d') : run (step host count logs) {} (acts ++ [a]) = some d' := by
  rw [run_append, hrun]
  show (step host count logs d a).bind _ = some d'
  rw [hstep]
  rfl

theorem AllShow.step {acts : List Action} {a : Action} (h : AllShow host count logs route acts d)
    (hpos : ∀ p, PositiveTimes host (logs p))
    (hroute : ∀ p, ∀ r ∈ logs p, ∀ u ∈ updateOf host r, route (pageKey u) = p)
    (hcalm : CalmTopic d a) (hstep : step host count logs d a = some d') :
    AllShow host count logs route (acts ++ [a]) d' := by
  have hreached := run_snoc h.reached hstep
  cases step_inv hstep with
  | @topic p a w hw =>
      have hfollower : (moved d.follower p a).store = d.follower.store ∧
          (moved d.follower p a).partitions = d.follower.partitions ∧
          (moved d.follower p a).atEnd = d.follower.atEnd ∧
          ∀ q, q ≠ p → (moved d.follower p a).cursors q = d.follower.cursors q := by
        cases a with
        | supersede i => exact ⟨rfl, rfl, rfl, fun q hq => Function.update_of_ne hq _ _⟩
        | expire i => exact ⟨rfl, rfl, rfl, fun q hq => Function.update_of_ne hq _ _⟩
        | start polls => exact ⟨rfl, rfl, rfl, fun q hq => rfl⟩
        | handleNext => exact ⟨rfl, rfl, rfl, fun q hq => rfl⟩
        | commit now => exact ⟨rfl, rfl, rfl, fun q hq => rfl⟩
        | abort dropped => exact ⟨rfl, rfl, rfl, fun q hq => rfl⟩
        | crash => exact ⟨rfl, rfl, rfl, fun q hq => rfl⟩
      obtain ⟨hstore, hpartitions, hends, hcursors⟩ := hfollower
      refine ⟨hreached, hpartitions ▸ h.partitions, hends ▸ h.ends, ?_⟩
      intro q
      obtain ⟨c, hwatches, hseen⟩ := h.watches q
      refine ⟨c, ?_, ?_⟩
      · dsimp only
        rw [hstore]
        by_cases hq : q = p
        · subst hq
          rw [Function.update_self]
          exact hwatches.topic (hpos q) hcalm hw
        · rw [Function.update_of_ne hq, hcursors q hq]
          exact hwatches
      · intro hmem
        exact (hseen (hends ▸ hmem)).snoc (by simp) (by simp)
  | begin =>
      refine ⟨hreached, Or.inr rfl, ⟨List.nodup_nil, fun q hq => absurd hq List.not_mem_nil⟩, ?_⟩
      intro q
      obtain ⟨c, hwatches, _⟩ := h.watches q
      exact ⟨0, watches_restart hwatches.converged hwatches.ordered (fun key => rfl),
        fun hmem => absurd hmem List.not_mem_nil⟩
  | @read p r hr =>
      obtain ⟨c₀, hwatches₀, _⟩ := h.watches p
      obtain ⟨x, hx, u, hupdate, hreads⟩ := exists_update hwatches₀.converged (List.mem_of_getElem? hr)
      obtain ⟨store', hstore', hpages⟩ := hreads.apply d.follower.store
      have hfollower : d.follower.read host p r =
          { d.follower with
            store := store', cursors := Function.update d.follower.cursors p (d.follower.cursors p + 1) } := by
        unfold Follower.read
        rw [hstore']
      rw [hfollower] at hreached ⊢
      refine ⟨hreached, h.partitions, h.ends, ?_⟩
      intro q
      obtain ⟨c, hwatches, hseen⟩ := h.watches q
      refine ⟨c, ?_, fun hmem => (hseen hmem).snoc (by simp) (by simp)⟩
      by_cases hq : q = p
      · subst hq
        dsimp only
        rw [Function.update_self]
        exact hwatches.read hr hpages
      · -- the page of the record lives elsewhere
        dsimp only
        rw [Function.update_of_ne hq]
        refine ⟨hwatches.converged, hwatches.ordered, hwatches.cursor, hwatches.since, ?_⟩
        intro key hkey
        have hne : keyText r ≠ key := by
          rintro rfl
          rw [hreads.keyText_eq, hroute p x hx u hupdate] at hkey
          exact hq hkey.symm
        rw [hpages, get?_applyRecord, if_neg hne]
        exact hwatches.follows key hkey
  | @reachEnd p hp hlast =>
      refine ⟨hreached, h.partitions, ?_, ?_⟩
      · show (d.follower.reachEnd p).atEnd.Nodup ∧ ∀ q ∈ (d.follower.reachEnd p).atEnd, q < count
        unfold Follower.reachEnd
        dsimp only
        split
        · exact h.ends
        · next hmem =>
            refine ⟨?_, ?_⟩
            · rw [← List.concat_eq_append]
              exact h.ends.1.concat hmem
            · intro q hq
              rcases List.mem_append.mp hq with hq | hq
              · exact h.ends.2 q hq
              · rw [List.mem_singleton] at hq
                exact hq ▸ hp
      · intro q
        obtain ⟨c, hwatches, hseen⟩ := h.watches q
        by_cases hq : q = p
        · subst hq
          refine ⟨_, hwatches.reachEnd hlast, fun _ => ?_⟩
          exact ⟨acts, [], d, rfl, List.not_mem_nil, List.not_mem_nil, h.reached, rfl⟩
        · refine ⟨c, hwatches, fun hmem => (hseen ?_).snoc (by simp) (by simpa using Ne.symm hq)⟩
          change q ∈ (d.follower.reachEnd p).atEnd at hmem
          unfold Follower.reachEnd at hmem
          dsimp only at hmem
          split at hmem
          · exact hmem
          · rcases List.mem_append.mp hmem with hmem | hmem
            · exact hmem
            · exact absurd (List.mem_singleton.mp hmem) hq
  | fail =>
      refine ⟨hreached, h.partitions, h.ends, ?_⟩
      intro q
      obtain ⟨c, hwatches, hseen⟩ := h.watches q
      exact ⟨c, hwatches, fun hmem => (hseen hmem).snoc (by simp) (by simp)⟩

/-! ## The result -/

/-- Page state writes the page twice. The dashboard has read the first record when compaction takes it away, and
    reads the second one after a restart of page state. -/
def overtaken : List Action :=
  [.begin, .topic 0 (.start [.next]), .topic 0 .handleNext, .topic 0 (.commit 1), .read 0, .reachEnd 1, .reachEnd 0,
    .topic 0 .handleNext, .topic 0 .crash, .topic 0 (.start [.next, .next]), .topic 0 .handleNext, .topic 0 (.commit 2),
    .topic 0 (.supersede 0), .read 0]

end Pages
end Wikistream
