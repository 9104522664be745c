import Wikistream.Correctness.CacheInterval

/-!
# `Correctness.CacheBound` — what the cache holds and how old its answers are, for any keys

The keys hold what clients put into their requests, so there is no bound on how many there are. The cache stays small
all the same, drops the oldest entry and never the one just stored, and serves nothing that is too old.

## Contents
- **A store** (`store_grows`, `store_evicts`): an entry more, or one more and the oldest one less.
- **The invariant** (`Bounded`) and its step.
- **The result** (`bounded_and_recent`).
-/

namespace Wikistream
namespace Cache

open Lib

variable {κ τ ν : Type} [DecidableEq κ] [AddCommGroup τ] [LinearOrder τ] {cache : TTLCache κ τ ν} {key : κ} {clock : τ}
  {value : ν}

/-! ## A store -/

omit [AddCommGroup τ] in
/-- There is room: the entry is stored, and nothing else changes. -/
theorem store_grows (hsize : (cache.entries.set key (clock, value)).size ≤ 256) :
    cache.store key clock value = { cache with entries := cache.entries.set key (clock, value) } := by
  unfold TTLCache.store
  rw [if_neg (Nat.not_lt.mpr hsize)]

omit [AddCommGroup τ] in
/-- The oldest of the entries of before is still the oldest with one more that is not older. -/
theorem oldest_set (hnew : key ∉ cache.entries.keys) (hsome : cache.entries.entries ≠ [])
    (hclock : ∀ k entry, cache.entries.get? k = some entry → entry.1 ≤ clock) :
    oldest (cache.entries.set key (clock, value)) = oldest cache.entries := by
  have hentries : (cache.entries.set key (clock, value)).entries = cache.entries.entries ++ [(key, (clock, value))] :=
    upsert_of_notMem hnew _
  unfold oldest
  rw [hentries, List.argmin_concat]
  cases hmin : cache.entries.entries.argmin (fun e => e.2.1) with
  | none => exact absurd (List.argmin_eq_none.mp hmin) hsome
  | some e =>
      have hle := hclock e.1 e.2 (Dict.mem_entries_iff.mp (List.argmin_mem hmin))
      dsimp only
      rw [if_neg (not_lt.mpr hle)]

omit [AddCommGroup τ] in
/-- **There is no room**: of the entries of before, an oldest one goes. -/
theorem store_evicts (hsize : cache.entries.size ≤ 256) (hfull : 256 < (cache.entries.set key (clock, value)).size)
    (hclock : ∀ k entry, cache.entries.get? k = some entry → entry.1 ≤ clock) :
    ∃ k entry, k ≠ key ∧ cache.entries.get? k = some entry ∧
      (∀ j other, cache.entries.get? j = some other → entry.1 ≤ other.1) ∧
      cache.store key clock value = { cache with entries := (cache.entries.set key (clock, value)).erase k } := by
  have hnew : key ∉ cache.entries.keys := by
    intro hmem
    rw [Dict.size_set, if_pos hmem] at hfull
    omega
  have hsome : cache.entries.entries ≠ [] := by
    intro hnil
    rw [Dict.size_set, if_neg hnew, Dict.size, hnil, List.length_nil] at hfull
    omega
  obtain ⟨e, hmin⟩ : ∃ e, cache.entries.entries.argmin (fun e => e.2.1) = some e := by
    cases hmin : cache.entries.entries.argmin (fun e => e.2.1) with
    | none => exact absurd (List.argmin_eq_none.mp hmin) hsome
    | some e => exact ⟨e, rfl⟩
  have hget := Dict.mem_entries_iff.mp (List.argmin_mem hmin)
  refine ⟨e.1, e.2, ?_, hget, ?_, ?_⟩
  · rintro rfl
    exact hnew (Dict.mem_keys_iff.mpr ⟨_, hget⟩)
  · intro j other hj
    have hmem : (j, other) ∈ cache.entries.entries := Dict.mem_entries_iff.mpr hj
    exact @List.le_of_mem_argmin _ _ _ (fun e => e.2.1) _ (j, other) e hmem hmin
  · have holdest : oldest (cache.entries.set key (clock, value)) = some e.1 := by
      rw [oldest_set hnew hsome hclock]
      unfold oldest
      rw [hmin]
      rfl
    unfold TTLCache.store
    rw [if_pos hfull]
    simp only [holdest]

omit [AddCommGroup τ] in
/-- **What a store does**, however many keys there are: the new entry is there, there are at most 256, and what is
    there besides was there before. -/
theorem store_spec (hsize : cache.entries.size ≤ 256)
    (hclock : ∀ k entry, cache.entries.get? k = some entry → entry.1 ≤ clock) :
    (cache.store key clock value).entries.size ≤ 256 ∧
      (cache.store key clock value).entries.get? key = some (clock, value) ∧
      (∀ k entry, k ≠ key → (cache.store key clock value).entries.get? k = some entry →
        cache.entries.get? k = some entry) ∧
      (∀ k entry, k ≠ key → cache.entries.get? k = some entry → (cache.store key clock value).entries.get? k = none →
        ∀ j other, cache.entries.get? j = some other → entry.1 ≤ other.1) := by
  rcases Nat.lt_or_ge 256 (cache.entries.set key (clock, value)).size with hfull | hroom
  · obtain ⟨k, entry, hne, hget, hleast, hstore⟩ := store_evicts hsize hfull hclock
    rw [hstore]
    dsimp only
    refine ⟨?_, ?_, ?_, ?_⟩
    · -- one more, one less
      have hmem : (k, entry) ∈ (cache.entries.set key (clock, value)).entries := by
        rw [Dict.mem_entries_iff, Dict.get?_set_ne _ _ hne]
        exact hget
      have hlt : ((cache.entries.set key (clock, value)).erase k).size < (cache.entries.set key (clock, value)).size :=
        List.length_filter_lt_length_iff_exists.mpr ⟨(k, entry), hmem, by simp⟩
      rw [Dict.size_set] at hlt
      split at hlt
      · omega
      · omega
    · rw [Dict.get?_erase, if_neg (fun h => hne h.symm), Dict.get?_set, if_pos rfl]
    · intro j other hj hother
      rw [Dict.get?_erase] at hother
      split at hother
      · exact absurd hother (by simp)
      · rw [Dict.get?_set_ne _ _ hj] at hother
        exact hother
    · intro j other hj hother hgone
      rw [Dict.get?_erase] at hgone
      split at hgone
      · next hjk =>
          subst hjk
          obtain rfl := Option.some.inj (hother.symm.trans hget)
          exact hleast
      · rw [Dict.get?_set_ne _ _ hj, hother] at hgone
        exact absurd hgone (by simp)
  · rw [store_grows hroom]
    refine ⟨hroom, ?_, ?_, ?_⟩
    · show (cache.entries.set key (clock, value)).get? key = _
      rw [Dict.get?_set, if_pos rfl]
    · intro j other hj hother
      change (cache.entries.set key (clock, value)).get? j = _ at hother
      rw [Dict.get?_set_ne _ _ hj] at hother
      exact hother
    · intro j other hj hother hgone
      change (cache.entries.set key (clock, value)).get? j = _ at hgone
      rw [Dict.get?_set_ne _ _ hj, hother] at hgone
      exact absurd hgone (by simp)

/-! ## The invariant -/

/-- What holds between steps. -/
structure Bounded (w : World κ τ ν) : Prop where
  size : w.cache.entries.size ≤ 256
  /-- An entry is an answer that was stored at its time. -/
  stored : ∀ key entry, w.cache.entries.get? key = some entry → (key, entry.2, entry.1) ∈ w.stores
  /-- An answer was computed for its key before it was stored. -/
  stores : ∀ key answer time, (key, answer, time) ∈ w.stores →
    time ≤ w.clock ∧ answer.started ≤ time ∧ (key, answer.started) ∈ w.computes
  running : ∀ id key started, w.calls.get? id = some (.computing key started) →
    started ≤ w.clock ∧ (key, started) ∈ w.computes

variable {w w' : World κ τ ν}

omit [AddCommGroup τ] in
theorem bounded_initial (seconds clock : τ) : Bounded (World.initial seconds clock : World κ τ ν) where
  size := Nat.zero_le _
  stored key entry h := absurd h (by simp [World.initial])
  stores key answer time h := absurd h (by simp [World.initial])
  running id key started h := absurd h (by simp [World.initial])

omit [AddCommGroup τ] in
/-- No entry is from the future. -/
theorem Bounded.entry_le (h : Bounded w) {key : κ} {entry : τ × Answer τ ν}
    (hentry : w.cache.entries.get? key = some entry) : entry.1 ≤ w.clock :=
  (h.stores key entry.2 entry.1 (h.stored key entry hentry)).1

theorem Bounded.step {a : Action κ τ ν} (h : Bounded w) (hstep : step w a = some w') : Bounded w' := by
  cases a with
  | tick time =>
      simp only [Cache.step] at hstep
      split at hstep
      · next hle =>
          obtain rfl := Option.some.inj hstep
          refine ⟨h.size, h.stored, fun key answer time hstore => ?_, fun id key started hid => ?_⟩
          · obtain ⟨hclock, hrest⟩ := h.stores key answer time hstore
            exact ⟨hclock.trans hle, hrest⟩
          · obtain ⟨hclock, hmem⟩ := h.running id key started hid
            exact ⟨hclock.trans hle, hmem⟩
      · exact absurd hstep (by simp)
  | get i k =>
      simp only [Cache.step] at hstep
      split at hstep
      · obtain rfl := Option.some.inj hstep
        refine ⟨h.size, h.stored, h.stores, fun id key started hid => ?_⟩
        change (w.calls.set i _).get? id = _ at hid
        rw [Dict.get?_set] at hid
        split at hid
        · exact absurd hid (by simp)
        · exact h.running id key started hid
      · exact absurd hstep (by simp)
  | lookup i =>
      simp only [Cache.step] at hstep
      split at hstep
      · next key now _ =>
          split at hstep
          · obtain rfl := Option.some.inj hstep
            refine ⟨h.size, h.stored, h.stores, fun id k started hid => ?_⟩
            change (w.calls.erase i).get? id = _ at hid
            rw [Dict.get?_erase] at hid
            split at hid
            · exact absurd hid (by simp)
            · exact h.running id k started hid
          · obtain rfl := Option.some.inj hstep
            refine ⟨h.size, h.stored, fun k answer time hstore => ?_, fun id k started hid => ?_⟩
            · obtain ⟨hclock, hstarted, hmem⟩ := h.stores k answer time hstore
              exact ⟨hclock, hstarted, List.mem_append_left _ hmem⟩
            · change (w.calls.set i _).get? id = _ at hid
              rw [Dict.get?_set] at hid
              split at hid
              · obtain ⟨rfl, rfl⟩ := Call.computing.inj (Option.some.inj hid)
                exact ⟨le_refl _, List.mem_append_right _ (List.mem_singleton_self _)⟩
              · obtain ⟨hclock, hmem⟩ := h.running id k started hid
                exact ⟨hclock, List.mem_append_left _ hmem⟩
      · exact absurd hstep (by simp)
  | store i value =>
      simp only [Cache.step] at hstep
      split at hstep
      · next key started hi =>
          obtain rfl := Option.some.inj hstep
          obtain ⟨hclock, hmem⟩ := h.running i key started hi
          obtain ⟨hsize, hnew, hold, _⟩ := @store_spec _ _ _ _ _ w.cache key w.clock
            ⟨value, started⟩ h.size (fun k entry hentry => h.entry_le hentry)
          refine ⟨hsize, fun k entry hentry => ?_, fun k answer time hstore => ?_, fun id k s hid => ?_⟩
          · by_cases hk : k = key
            · subst hk
              obtain rfl := Option.some.inj (hnew.symm.trans hentry)
              exact List.mem_append_right _ (List.mem_singleton_self _)
            · exact List.mem_append_left _ (h.stored k entry (hold k entry hk hentry))
          · rcases List.mem_append.mp hstore with hbefore | hnow
            · exact h.stores k answer time hbefore
            · obtain ⟨rfl, rfl, rfl⟩ : k = key ∧ answer = ⟨value, started⟩ ∧ time = w.clock := by
                simpa using List.mem_singleton.mp hnow
              exact ⟨le_refl _, hclock, hmem⟩
          · change (w.calls.erase i).get? id = _ at hid
            rw [Dict.get?_erase] at hid
            split at hid
            · exact absurd hid (by simp)
            · exact h.running id k s hid
      · exact absurd hstep (by simp)
  | raise i =>
      simp only [Cache.step] at hstep
      split at hstep
      · obtain rfl := Option.some.inj hstep
        refine ⟨h.size, h.stored, h.stores, fun id k s hid => ?_⟩
        change (w.calls.erase i).get? id = _ at hid
        rw [Dict.get?_erase] at hid
        split at hid
        · exact absurd hid (by simp)
        · exact h.running id k s hid
      · exact absurd hstep (by simp)

/-! ## The result -/

/-- **The cache stays small, and its answers recent.** In every order of the steps of any number of calls with any
    keys: there are at most 256 entries. What a call that read the clock at `now` is served is an answer that was stored
    for its key less than `seconds` before `now`, by a call whose compute had started before that. A store keeps the
    entry it stores; what it drops is an entry as old as any. -/
theorem bounded_and_recent {seconds clock : τ} {acts : List (Action κ τ ν)}
    (hrun : run step (.initial seconds clock) acts = some w) :
    w.cache.entries.size ≤ 256 ∧
      (∀ key now answer, w.cache.lookup key now = some answer →
        ∃ stored, (key, answer, stored) ∈ w.stores ∧ now - stored < w.cache.seconds ∧ stored ≤ w.clock ∧
          answer.started ≤ stored ∧ (key, answer.started) ∈ w.computes) ∧
      ∀ key answer, (w.cache.store key w.clock answer).entries.get? key = some (w.clock, answer) ∧
        ∀ k entry, k ≠ key → w.cache.entries.get? k = some entry →
          (w.cache.store key w.clock answer).entries.get? k = none →
          ∀ j other, w.cache.entries.get? j = some other → entry.1 ≤ other.1 := by
  have h : Bounded w :=
    run_state_invariant (bounded_initial seconds clock) (fun _ _ _ h _ hstep => h.step hstep)
      (@always_of_forall _ _ _ (fun _ _ => True) (fun _ _ => trivial) _ _) hrun
  refine ⟨h.size, ?_, ?_⟩
  · intro key now answer hlookup
    unfold TTLCache.lookup at hlookup
    split at hlookup
    · next entry hentry =>
        split at hlookup
        · next hrecent =>
            obtain rfl := Option.some.inj hlookup
            have hstored := h.stored key entry hentry
            obtain ⟨hclock, hstarted, hmem⟩ := h.stores key entry.2 entry.1 hstored
            exact ⟨entry.1, hstored, hrecent, hclock, hstarted, hmem⟩
        · exact absurd hlookup (by simp)
    · exact absurd hlookup (by simp)
  · intro key answer
    obtain ⟨_, hnew, _, hleast⟩ := @store_spec _ _ _ _ _ w.cache key w.clock answer h.size
      (fun k entry hentry => h.entry_le hentry)
    exact ⟨hnew, hleast⟩

/-- Two keys, and a call that finds the answer of another one four seconds later. -/
theorem bounded_and_recent_two :
    ∃ w : World Nat Int Nat, run step (.initial 5 0) [.get 0 60, .lookup 0, .tick 2, .store 0 7, .get 1 5, .lookup 1,
        .store 1 8, .tick 6, .get 2 60] = some w ∧
      ∃ answer stored, w.cache.lookup 60 6 = some answer ∧ (60, answer, stored) ∈ w.stores ∧
        6 - stored < w.cache.seconds ∧ stored ≤ w.clock ∧ answer.started ≤ stored ∧
        (60, answer.started) ∈ w.computes := by
  have hstate : (run step (World.initial 5 0 : World Nat Int Nat) [.get 0 60, .lookup 0, .tick 2, .store 0 7, .get 1 5,
      .lookup 1, .store 1 8, .tick 6, .get 2 60]).map (fun w => (w.cache.lookup 60 6).isSome) = some true := by
    decide +kernel
  obtain ⟨w, hrun, hw⟩ := Option.map_eq_some_iff.mp hstate
  obtain ⟨answer, hanswer⟩ := Option.isSome_iff_exists.mp hw
  obtain ⟨stored, hstored⟩ := (bounded_and_recent hrun).2.1 60 6 answer hanswer
  exact ⟨w, hrun, answer, stored, hanswer, hstored⟩

end Cache
end Wikistream
