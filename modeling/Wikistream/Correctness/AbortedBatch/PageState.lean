import Wikistream.Processors.PageState

/-!
# `Correctness.AbortedBatch.PageState` — what an aborted batch leaves in the applied times

## Contents
- **Questions** (`ask`): is an event of this time stale for this page?
- **Idle records** (`Idle`): no update, or one that is no newer than what its page shows.
- **What leaves the applied times alone** (`idleness`): idle records, and no others.
- **What an event is stale against** (`stale_against`): a time from the start or of a kept batch.
-/

namespace Wikistream
namespace PageState

open Py Lib Models Transactional

/-- Whether an event of the page is stale, and the guards once it was handled. -/
def ask (guards : Guards) (q : Nat × Str × Int) : Bool × Guards :=
  let applied := appliedFor guards q.1
  if isStale applied q.2.1 q.2.2 then (true, guards)
  else (false, guards.set q.1 (remember applied q.2.1 q.2.2))

/-- The guards agree on every page of every partition. -/
def Same (guards guards' : Guards) : Prop :=
  ∀ p key, guardOf (appliedFor guards p) key = guardOf (appliedFor guards' p) key

/-- The record asks for no update that is newer than its page's applied time. -/
def Idle (host : Host) (guards : Guards) (m : Message KafkaRecord) : Prop :=
  ∀ key record timeMs, updateOf host m.record = some (key, record, timeMs) →
    timeMs ≤ guardOf (appliedFor guards m.partition) key

variable {host : Host} {guards guards' : Guards} {m : Message KafkaRecord} {p : Nat} {key : Str} {timeMs : Int}

theorem Same.isStale (h : Same guards guards') :
    isStale (appliedFor guards p) key timeMs = isStale (appliedFor guards' p) key timeMs := by
  unfold PageState.isStale
  rw [h p key]

/-- Remembering the same time keeps guards the same. -/
theorem Same.remember (h : Same guards guards') :
    Same (guards.set p (remember (appliedFor guards p) key timeMs))
      (guards'.set p (remember (appliedFor guards' p) key timeMs)) := by
  intro q k
  rw [appliedFor_set, appliedFor_set]
  split
  · rw [guardOf_remember, guardOf_remember, h p key, h p k]
  · exact h q k

theorem same_set_self (guards : Guards) (p : Nat) : Same (guards.set p (appliedFor guards p)) guards := by
  intro q key
  rw [appliedFor_set]
  split
  · next hq => rw [hq]
  · rfl

theorem Same.symm (h : Same guards guards') : Same guards' guards := fun p key => (h p key).symm

theorem Same.trans {guards'' : Guards} (h : Same guards guards') (h' : Same guards' guards'') : Same guards guards'' :=
  fun p key => (h p key).trans (h' p key)

theorem Same.ask (h : Same guards guards') (q : Nat × Str × Int) :
    (ask guards q).1 = (ask guards' q).1 ∧ Same (ask guards q).2 (ask guards' q).2 := by
  unfold PageState.ask
  dsimp only
  rw [h.isStale]
  split
  · exact ⟨rfl, h⟩
  · exact ⟨rfl, h.remember⟩

/-- The same guards handle a message the same way. -/
theorem Same.handle (h : Same guards guards') {t : Guards} (hm : stateAfter (handle host) guards m = .ok t) :
    ∃ t', stateAfter (handle host) guards' m = .ok t' ∧ Same t t' := by
  obtain ⟨outs, hm⟩ := stateAfter_eq_ok.mp hm
  simp only [stateAfter_eq_ok]
  unfold PageState.handle at hm ⊢
  split
  · next e he =>
      simp only [he] at hm
      split at hm
      · next hcaught =>
          obtain ⟨rfl, rfl⟩ := Prod.mk.inj (Except.ok.inj hm)
          exact ⟨guards', ⟨[], by rw [if_pos hcaught]⟩, h⟩
      · exact absurd hm (by simp)
  · next event hevent =>
      simp only [hevent] at hm
      split
      · next hupdate =>
          simp only [hupdate] at hm
          obtain ⟨rfl, rfl⟩ := Prod.mk.inj (Except.ok.inj hm)
          exact ⟨guards', ⟨[], rfl⟩, h⟩
      · next key record hupdate =>
          simp only [hupdate] at hm
          split
          · next e htime =>
              simp only [htime] at hm
              exact absurd hm (by simp)
          · next timeMs htime =>
              simp only [htime, update] at hm ⊢
              -- the guards agree on the page, so both skip the update or both write it
              rw [h.isStale] at hm
              split at hm
              · next hstale =>
                  obtain ⟨rfl, rfl⟩ := Prod.mk.inj (Except.ok.inj hm)
                  refine ⟨_, ⟨[], by rw [if_pos hstale]⟩, ?_⟩
                  exact ((same_set_self guards _).trans h).trans (same_set_self guards' _).symm
              · next hfresh =>
                  obtain ⟨out, hout, hm⟩ := map_eq_ok.mp hm
                  obtain ⟨rfl, rfl⟩ := Prod.mk.inj hm
                  refine ⟨_, ⟨[out], ?_⟩, h.remember⟩
                  rw [if_neg hfresh, hout]
                  rfl

/-- An idle record changes no guard. -/
theorem Idle.same (h : Idle host guards m) {t : Guards} (hm : stateAfter (PageState.handle host) guards m = .ok t) :
    Same t guards := by
  obtain ⟨outs, hm⟩ := stateAfter_eq_ok.mp hm
  rcases handle_cases hm with ⟨_, heq⟩ | ⟨key, record, timeMs, hupdate, ⟨_, heq⟩ | ⟨hle, out, _, heq⟩⟩
  · obtain ⟨rfl, _⟩ := Prod.mk.inj heq
    exact fun p key => rfl
  · obtain ⟨rfl, _⟩ := Prod.mk.inj heq
    exact same_set_self guards _
  · -- the applied time is written again
    obtain ⟨rfl, _⟩ := Prod.mk.inj heq
    have htime := h key record timeMs hupdate
    intro q k
    rw [appliedFor_set]
    split
    · next hq =>
        rw [guardOf_remember, hq]
        split
        · next hk => rw [hk, max_eq_left htime]
        · rfl
    · rfl

/-- A record that is not idle makes an event stale that was not: one of the time its page showed before. -/
theorem idle_of_alike {t : Guards} (hm : stateAfter (PageState.handle host) guards m = .ok t)
    (h : Alike PageState.ask t guards) : Idle host guards m := by
  intro key record timeMs hupdate
  obtain ⟨outs, hm⟩ := stateAfter_eq_ok.mp hm
  rcases handle_cases hm with ⟨hnone, _⟩ | ⟨key', record', timeMs', hupdate', hcase⟩
  · exact absurd (hupdate.symm.trans hnone) (by simp)
  obtain ⟨rfl, rfl, rfl⟩ : key' = key ∧ record' = record ∧ timeMs' = timeMs := by
    have := hupdate.symm.trans hupdate'
    simp only [Option.some.injEq, Prod.mk.injEq] at this
    exact ⟨this.1.symm, this.2.1.symm, this.2.2.symm⟩
  rcases hcase with ⟨hlt, _⟩ | ⟨hle, out, _, heq⟩
  · exact hlt.le
  · obtain ⟨rfl, _⟩ := Prod.mk.inj heq
    by_contra hnew
    have hgt := not_le.mp hnew
    have hanswer := h.fst_ask (m.partition, key', guardOf (appliedFor guards m.partition) key')
    have hnow : guardOf (remember (appliedFor guards m.partition) key' timeMs') key' = timeMs' := by
      rw [guardOf_remember, if_pos rfl, max_eq_right hle]
    simp [PageState.ask, PageState.isStale, hnow, hgt] at hanswer

/-- **What leaves the applied times alone.** -/
theorem idleness (host : Host) :
    Idleness ask (stateAfter (PageState.handle host)) (fun _ => True) Same (Idle host) where
  refl _ _ _ := rfl
  symm _ _ h := h.symm
  trans _ _ _ h h' := h.trans h'
  alike _ _ h := alike_of_bisim (fun _ _ q hs => hs.ask q) h
  congr _ _ _ h hidle key record timeMs hupdate := (hidle key record timeMs hupdate).trans (le_of_eq (h _ _))
  same_work _ _ _ _ h hm := h.handle hm
  fit _ _ _ _ _ := trivial
  idle _ _ _ _ hm h := h.same hm
  busy _ _ _ _ hm h := idle_of_alike hm h

/-! ## What an event is stale against -/

/-- An applied time is from the start, or that of an update that was handled. -/
theorem guardOf_handleAll {ms : List (Message KafkaRecord)} {t : Guards}
    (h : handleAll (PageState.handle host) guards ms = .ok t) (p : Nat) (key : Str) :
    guardOf (appliedFor t p) key = guardOf (appliedFor guards p) key ∨
      ∃ m ∈ ms, m.partition = p ∧
        ∃ record, updateOf host m.record = some (key, record, guardOf (appliedFor t p) key) := by
  induction ms generalizing guards with
  | nil => exact Or.inl (Except.ok.inj h ▸ rfl)
  | cons m ms ih =>
      obtain ⟨s', outs, hm, hrest⟩ := handleAll_cons.mp h
      rcases ih hrest with hsame | ⟨x, hx, hxp, hupdate⟩
      · rw [hsame]
        rcases handle_cases hm with ⟨_, heq⟩ | ⟨key', record, timeMs, hupdate, ⟨_, heq⟩ | ⟨hle, _, _, heq⟩⟩
        · obtain ⟨rfl, _⟩ := Prod.mk.inj heq
          exact Or.inl rfl
        · obtain ⟨rfl, _⟩ := Prod.mk.inj heq
          exact Or.inl (same_set_self guards _ p key)
        · obtain ⟨rfl, _⟩ := Prod.mk.inj heq
          rw [appliedFor_set]
          split
          · next hp =>
              rw [guardOf_remember]
              split
              · next hk =>
                  rw [max_eq_right hle, hk]
                  exact Or.inr ⟨m, List.mem_cons_self, hp.symm, record, hupdate⟩
              · exact Or.inl (by rw [hp])
          · exact Or.inl rfl
      · exact Or.inr ⟨x, List.mem_cons_of_mem _ hx, hxp, hupdate⟩

/-- **An event is stale only against a kept record**, when every batch that was broken off was idle. -/
theorem stale_against {history : List (Batch (Message KafkaRecord))} {t : Guards}
    (hwork : workThrough (stateAfter (PageState.handle host)) guards history = .ok t)
    (hidle : BrokenOffIdle (stateAfter (PageState.handle host)) (Idle host) guards history)
    (hstale : isStale (appliedFor t p) key timeMs = true) :
    timeMs < guardOf (appliedFor guards p) key ∨
      ∃ m ∈ kept history, m.partition = p ∧
        ∃ record newer, updateOf host m.record = some (key, record, newer) ∧ timeMs < newer := by
  obtain ⟨u, hu, hsame⟩ := (idleness host).exists_kept trivial hwork hidle
  have hlt : timeMs < guardOf (appliedFor u p) key := by
    rw [← hsame p key]
    exact of_decide_eq_true hstale
  rcases guardOf_handleAll hu p key with heq | ⟨m, hm, hp, record, hupdate⟩
  · exact Or.inl (heq ▸ hlt)
  · exact Or.inr ⟨m, hm, hp, record, _, hupdate, hlt⟩

end PageState
end Wikistream
