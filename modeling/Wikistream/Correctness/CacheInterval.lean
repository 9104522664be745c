import Mathlib.Algebra.Order.Group.Int
import Wikistream.Lib.Run
import Wikistream.Web.Cache

/-!
# `Correctness.CacheInterval` — when a question is computed once per interval

The lock is free while a compute runs, so a call can miss during another call's compute of its own key, and a compute
that took long can replace the answer of one that started after it.

## Contents
- **What is promised** (`Spaced`, `NeverOlder`) and the steps that keep it (`Undisturbed`).
- **The invariant** (`Inv`), kept by every such step (`inv_step`).
- **The result** (`once_per_interval`), and three calls that compute one question twice (`computed_twice`).
-/

namespace Wikistream
namespace Cache

open Lib

variable {κ τ ν : Type} [DecidableEq κ] [AddCommGroup τ] [LinearOrder τ]

/-! ## What is promised -/

/-- No two computes of a key start less than `seconds` apart. -/
def Spaced (w : World κ τ ν) : Prop := w.computes.Pairwise (fun a b => a.1 = b.1 → w.cache.seconds ≤ b.2 - a.2)

/-- No answer served from the cache is older than one served for its key before. -/
def NeverOlder (w : World κ τ ν) : Prop := w.served.Pairwise (fun a b => a.1 = b.1 → a.2 ≤ b.2)

/-- A compute of the key is running. -/
def Running (calls : Dict Nat (Call κ τ)) (key : κ) (started : τ) : Prop :=
  ∃ id, calls.get? id = some (.computing key started)

/-- A compute of the key that has stored nothing: it is running, or it raised. -/
def Unstored (w : World κ τ ν) (key : κ) (started : τ) : Prop :=
  Running w.calls key started ∨ (key, started) ∈ w.raised

/-- **A lookup that misses finds no compute of its key that started less than `seconds` ago and has stored nothing;
    a store does not put back an answer older than one that was served.** -/
def Undisturbed (w : World κ τ ν) : Action κ τ ν → Prop
  | .lookup id => ∀ key now, w.calls.get? id = some (.asked key now) → w.cache.lookup key now = none →
      ∀ started, Unstored w key started → w.cache.seconds ≤ w.clock - started
  | .store id _ => ∀ key started, w.calls.get? id = some (.computing key started) →
      ∀ s, (key, s) ∈ w.served → s ≤ started
  | _ => True

/-- The start of the compute, if the call is in one of `key`. -/
def Call.computes (key : κ) : Call κ τ → Option τ
  | .computing k started => if k = key then some started else none
  | .asked _ _ => none

/-- The starts of the computes of `key` that have stored nothing. -/
def unstored (w : World κ τ ν) (key : κ) : List τ :=
  w.calls.values.filterMap (Call.computes key) ++ (w.raised.filter (fun e => e.1 = key)).map Prod.snd

omit [AddCommGroup τ] [LinearOrder τ] in
theorem computes_eq_some_iff {call : Call κ τ} {key : κ} {started : τ} :
    call.computes key = some started ↔ call = .computing key started := by
  cases call with
  | asked => simp [Call.computes]
  | computing k s => simp [Call.computes]

omit [AddCommGroup τ] [LinearOrder τ] in
theorem mem_unstored {w : World κ τ ν} {key : κ} {started : τ} : started ∈ unstored w key ↔ Unstored w key started := by
  have hrunning : started ∈ w.calls.values.filterMap (Call.computes key) ↔ Running w.calls key started := by
    simp only [List.mem_filterMap, computes_eq_some_iff, exists_eq_right, Dict.mem_values_iff, Running]
  have hraised : started ∈ (w.raised.filter (fun e => e.1 = key)).map Prod.snd ↔ (key, started) ∈ w.raised := by
    simp
  rw [unstored, List.mem_append, hrunning, hraised, Unstored]

theorem undisturbed_lookup_iff {w : World κ τ ν} {id : Nat} {key : κ} {now : τ}
    (hid : w.calls.get? id = some (.asked key now)) : Undisturbed w (.lookup id) ↔
      ((w.cache.lookup key now).isNone → ∀ started ∈ unstored w key, w.cache.seconds ≤ w.clock - started) := by
  simp only [mem_unstored, Option.isNone_iff_eq_none]
  constructor
  · intro h
    exact h key now hid
  · intro h k n hkn
    obtain ⟨rfl, rfl⟩ := Call.asked.inj (Option.some.inj (hid.symm.trans hkn))
    exact h

theorem undisturbed_store_iff {w : World κ τ ν} {id : Nat} {key : κ} {started : τ} (value : ν)
    (hid : w.calls.get? id = some (.computing key started)) : Undisturbed w (.store id value) ↔
      ∀ e ∈ w.served, e.1 = key → e.2 ≤ started := by
  constructor
  · rintro h ⟨k, s⟩ hserved rfl
    exact h k started hid s hserved
  · intro h k n hkn s hserved
    obtain ⟨rfl, rfl⟩ := Call.computing.inj (Option.some.inj (hid.symm.trans hkn))
    exact h _ hserved rfl

instance decidableUndisturbed (w : World κ τ ν) : ∀ action, Decidable (Undisturbed w action)
  | .tick _ | .get _ _ | .raise _ => inferInstanceAs (Decidable True)
  | .lookup id =>
      match h : w.calls.get? id with
      | some (.asked _ _) => decidable_of_iff' _ (undisturbed_lookup_iff h)
      | some (.computing _ _) | none => isTrue (fun key now hid => absurd (h.symm.trans hid) (by simp))
  | .store id value =>
      match h : w.calls.get? id with
      | some (.computing _ _) => decidable_of_iff' _ (undisturbed_store_iff value h)
      | some (.asked _ _) | none => isTrue (fun key started hid => absurd (h.symm.trans hid) (by simp))

/-! ## Lookups and running computes -/

/-- A miss is a key without an entry, or one whose entry is `seconds` old. -/
theorem lookup_eq_none {cache : TTLCache κ τ ν} {key : κ} {now : τ} : cache.lookup key now = none ↔
    ∀ entry, cache.entries.get? key = some entry → cache.seconds ≤ now - entry.1 := by
  unfold TTLCache.lookup
  cases cache.entries.get? key with
  | none => simp
  | some entry => simp

theorem lookup_eq_some {cache : TTLCache κ τ ν} {key : κ} {now : τ} {value : ν}
    (h : cache.lookup key now = some value) : ∃ stored, cache.entries.get? key = some (stored, value) := by
  unfold TTLCache.lookup at h
  split at h
  · next entry hentry =>
      split at h
      · obtain rfl := Option.some.inj h
        exact ⟨entry.1, hentry⟩
      · exact absurd h (by simp)
  · exact absurd h (by simp)

section Running

variable {calls : Dict Nat (Call κ τ)} {id : Nat} {key k : κ} {started s : τ}

omit [DecidableEq κ] [AddCommGroup τ] [LinearOrder τ] in
/-- A compute goes on while a call that is not computing does its step. -/
theorem Running.set (h : Running calls k s) (hid : ∀ key started, calls.get? id ≠ some (.computing key started))
    (call : Call κ τ) : Running (calls.set id call) k s := by
  obtain ⟨i, hi⟩ := h
  have hne : i ≠ id := by
    rintro rfl
    exact hid k s hi
  exact ⟨i, by rw [Dict.get?_set_ne _ _ hne, hi]⟩

omit [DecidableEq κ] [AddCommGroup τ] [LinearOrder τ] in
/-- When a call leaves, only its own compute is no longer running. -/
theorem Running.erase (h : Running calls k s) (id : Nat) :
    calls.get? id = some (.computing k s) ∨ Running (calls.erase id) k s := by
  obtain ⟨i, hi⟩ := h
  by_cases hne : i = id
  · exact Or.inl (hne ▸ hi)
  · exact Or.inr ⟨i, by rw [Dict.get?_erase, if_neg hne, hi]⟩

end Running

/-! ## The invariant -/

def Call.key : Call κ τ → κ
  | .asked key _ | .computing key _ => key

/-- The last time the call has seen. -/
def Call.time : Call κ τ → τ
  | .asked _ now => now
  | .computing _ started => started

structure Inv (keys : List κ) (w : World κ τ ν) : Prop where
  entries_mem : ∀ k ∈ w.cache.entries.keys, k ∈ keys
  calls_mem : ∀ id call, w.calls.get? id = some call → call.key ∈ keys ∧ call.time ≤ w.clock
  stored : ∀ key entry, w.cache.entries.get? key = some entry → entry.1 ≤ w.clock
  /-- A compute that has stored something left an entry at least as new as its start. -/
  covered : ∀ key started, (key, started) ∈ w.computes →
    Unstored w key started ∨ ∃ entry, w.cache.entries.get? key = some entry ∧ started ≤ entry.1
  /-- What was served is no newer than what is in the cache. -/
  newest : ∀ key s, (key, s) ∈ w.served → ∃ entry, w.cache.entries.get? key = some entry ∧ s ≤ entry.2.started
  spaced : Spaced w
  ordered : NeverOlder w

variable {keys : List κ} {w w' : World κ τ ν} {id : Nat} {key : κ} {now started : τ}

theorem inv_tick {time : τ} (h : Inv keys w) (hle : w.clock ≤ time) : Inv keys { w with clock := time } where
  entries_mem := h.entries_mem
  calls_mem id call hid := ⟨(h.calls_mem id call hid).1, (h.calls_mem id call hid).2.trans hle⟩
  stored key entry hentry := (h.stored key entry hentry).trans hle
  covered := h.covered
  newest := h.newest
  spaced := h.spaced
  ordered := h.ordered

theorem inv_get (h : Inv keys w) (hkey : key ∈ keys) (hfresh : w.calls.get? id = none) :
    Inv keys { w with calls := w.calls.set id (.asked key w.clock) } where
  entries_mem := h.entries_mem
  calls_mem := Dict.forall_get?_set h.calls_mem id ⟨hkey, le_refl w.clock⟩
  stored := h.stored
  covered k s hmem :=
    (h.covered k s hmem).imp_left (fun hunstored => hunstored.imp_left (fun hrunning =>
      hrunning.set (by simp [hfresh]) _))
  newest := h.newest
  spaced := h.spaced
  ordered := h.ordered

/-- **A hit** serves the entry, which is no older than anything served before. -/
theorem inv_hit {answer : Answer τ ν} (h : Inv keys w) (hid : w.calls.get? id = some (.asked key now))
    (hhit : w.cache.lookup key now = some answer) :
    Inv keys { w with calls := w.calls.erase id, served := w.served ++ [(key, answer.started)] } := by
  obtain ⟨time, hentry⟩ := lookup_eq_some hhit
  exact {
    entries_mem := h.entries_mem
    calls_mem := Dict.forall_get?_erase h.calls_mem id
    stored := h.stored
    covered := fun k s hmem => (h.covered k s hmem).imp_left (fun hunstored => hunstored.imp_left (fun hrunning =>
      (hrunning.erase id).resolve_left (by simp [hid])))
    newest := fun k s hmem => by
      rcases List.mem_append.mp hmem with hold | hnew
      · exact h.newest k s hold
      · obtain ⟨rfl, rfl⟩ := Prod.mk.inj (List.mem_singleton.mp hnew)
        exact ⟨_, hentry, le_refl _⟩
    spaced := h.spaced
    ordered := by
      refine List.pairwise_append.mpr ⟨h.ordered, List.pairwise_singleton _ _, fun a ha b hb heq => ?_⟩
      obtain rfl := List.mem_singleton.mp hb
      obtain ⟨entry, hnewest, hle⟩ := h.newest a.1 a.2 ha
      obtain rfl := Option.some.inj ((heq ▸ hnewest).symm.trans hentry)
      exact hle }

variable [IsOrderedAddMonoid τ]

/-- **A miss** starts a compute `seconds` after every other: one that stored something left an entry that is now
    `seconds` old, and the others are what the condition is about. -/
theorem inv_miss (h : Inv keys w) (hid : w.calls.get? id = some (.asked key now))
    (hmiss : w.cache.lookup key now = none)
    (hok : ∀ started, Unstored w key started → w.cache.seconds ≤ w.clock - started) :
    Inv keys { w with
      calls := w.calls.set id (.computing key w.clock)
      computes := w.computes ++ [(key, w.clock)] } := by
  obtain ⟨hkey, hnow⟩ := h.calls_mem id _ hid
  exact {
    entries_mem := h.entries_mem
    calls_mem := Dict.forall_get?_set h.calls_mem id ⟨hkey, le_refl w.clock⟩
    stored := h.stored
    covered := fun k s hmem => by
      rcases List.mem_append.mp hmem with hold | hnew
      · exact (h.covered k s hold).imp_left (fun hunstored => hunstored.imp_left (fun hrunning =>
          hrunning.set (by simp [hid]) _))
      · obtain ⟨rfl, rfl⟩ := Prod.mk.inj (List.mem_singleton.mp hnew)
        exact Or.inl (Or.inl ⟨id, Dict.get?_set_self _ _ _⟩)
    newest := h.newest
    spaced := by
      refine List.pairwise_append.mpr ⟨h.spaced, List.pairwise_singleton _ _, fun a ha b hb heq => ?_⟩
      obtain rfl := List.mem_singleton.mp hb
      obtain ⟨k, s⟩ := a
      obtain rfl : k = key := heq
      rcases h.covered k s ha with hunstored | ⟨entry, hentry, hle⟩
      · exact hok s hunstored
      · exact (lookup_eq_none.mp hmiss entry hentry).trans (sub_le_sub hnow hle)
    ordered := h.ordered }

omit [IsOrderedAddMonoid τ] in
/-- **A store** leaves an entry as new as the clock, with an answer as new as those served. -/
theorem inv_store {value : ν} (h : Inv keys w) (hkeys : keys.length ≤ 256)
    (hid : w.calls.get? id = some (.computing key started)) (hok : ∀ s, (key, s) ∈ w.served → s ≤ started) :
    Inv keys { w with
      calls := w.calls.erase id
      cache := w.cache.store key w.clock ⟨value, started⟩
      stores := w.stores ++ [(key, ⟨value, started⟩, w.clock)] } := by
  have hcall : key ∈ keys ∧ started ≤ w.clock := h.calls_mem id _ hid
  obtain ⟨hkey, hstarted⟩ := hcall
  rw [store_entries hkeys h.entries_mem hkey]
  exact {
    entries_mem := fun k hk => by
      rcases Dict.mem_keys_set.mp hk with rfl | hk
      · exact hkey
      · exact h.entries_mem k hk
    calls_mem := Dict.forall_get?_erase h.calls_mem id
    stored := Dict.forall_get?_set h.stored key (le_refl w.clock)
    covered := fun k s hmem => by
      rcases h.covered k s hmem with (hrunning | hraised) | ⟨entry, hentry, hle⟩
      · rcases hrunning.erase id with hself | hrest
        · obtain ⟨rfl, rfl⟩ := Call.computing.inj (Option.some.inj (hself.symm.trans hid))
          exact Or.inr ⟨_, Dict.get?_set_self _ _ _, hstarted⟩
        · exact Or.inl (Or.inl hrest)
      · exact Or.inl (Or.inr hraised)
      · by_cases hk : k = key
        · subst hk
          exact Or.inr ⟨_, Dict.get?_set_self _ _ _, hle.trans (h.stored k entry hentry)⟩
        · exact Or.inr ⟨entry, by rw [Dict.get?_set_ne _ _ hk, hentry], hle⟩
    newest := fun k s hmem => by
      by_cases hk : k = key
      · subst hk
        exact ⟨_, Dict.get?_set_self _ _ _, hok s hmem⟩
      · obtain ⟨entry, hentry, hle⟩ := h.newest k s hmem
        exact ⟨entry, by rw [Dict.get?_set_ne _ _ hk, hentry], hle⟩
    spaced := h.spaced
    ordered := h.ordered }

omit [IsOrderedAddMonoid τ] in
/-- A compute that raises stays one that has stored nothing. -/
theorem inv_raise (h : Inv keys w) (hid : w.calls.get? id = some (.computing key started)) :
    Inv keys { w with calls := w.calls.erase id, raised := w.raised ++ [(key, started)] } where
  entries_mem := h.entries_mem
  calls_mem := Dict.forall_get?_erase h.calls_mem id
  stored := h.stored
  covered k s hmem := by
    refine (h.covered k s hmem).imp_left (fun hunstored => ?_)
    rcases hunstored with hrunning | hraised
    · rcases hrunning.erase id with hself | hrest
      · obtain ⟨rfl, rfl⟩ := Call.computing.inj (Option.some.inj (hself.symm.trans hid))
        exact Or.inr (List.mem_append_right _ (List.mem_singleton_self _))
      · exact Or.inl hrest
    · exact Or.inr (List.mem_append_left _ hraised)
  newest := h.newest
  spaced := h.spaced
  ordered := h.ordered

/-! ## The result -/

theorem inv_step {action : Action κ τ ν} (hkeys : keys.length ≤ 256)
    (hkey : ∀ id key, action = .get id key → key ∈ keys) (h : Inv keys w) (hok : Undisturbed w action)
    (hstep : step w action = some w') : Inv keys w' := by
  cases action with
  | tick time =>
      rw [step] at hstep
      split at hstep
      · next hle =>
          obtain rfl := Option.some.inj hstep
          exact inv_tick h hle
      · exact absurd hstep (by simp)
  | get id key =>
      rw [step] at hstep
      split at hstep
      · next hfresh =>
          obtain rfl := Option.some.inj hstep
          exact inv_get h (hkey id key rfl) hfresh
      · exact absurd hstep (by simp)
  | lookup id =>
      rw [step] at hstep
      split at hstep
      · next key now hid =>
          split at hstep
          · next answer hhit =>
              obtain rfl := Option.some.inj hstep
              exact inv_hit h hid hhit
          · next hmiss =>
              obtain rfl := Option.some.inj hstep
              exact inv_miss h hid hmiss (hok key now hid hmiss)
      · exact absurd hstep (by simp)
  | store id value =>
      rw [step] at hstep
      split at hstep
      · next key started hid =>
          obtain rfl := Option.some.inj hstep
          exact inv_store h hkeys hid (hok key started hid)
      · exact absurd hstep (by simp)
  | raise id =>
      rw [step] at hstep
      split at hstep
      · next key started hid =>
          obtain rfl := Option.some.inj hstep
          exact inv_raise h hid
      · exact absurd hstep (by simp)

omit [IsOrderedAddMonoid τ] in
theorem inv_initial (keys : List κ) (seconds clock : τ) : Inv keys (World.initial seconds clock : World κ τ ν) where
  entries_mem k hk := absurd hk (by simp [World.initial, Dict.mem_keys_iff])
  calls_mem id call hid := absurd hid (by simp [World.initial])
  stored key entry hentry := absurd hentry (by simp [World.initial])
  covered key s hmem := absurd hmem List.not_mem_nil
  newest key s hmem := absurd hmem List.not_mem_nil
  spaced := List.Pairwise.nil
  ordered := List.Pairwise.nil

/-- **A question is computed once per interval, and no client sees an older answer after a newer one**, in every run of
    undisturbed steps on at most 256 keys. -/
theorem once_per_interval {seconds clock : τ} {acts : List (Action κ τ ν)} {w : World κ τ ν} (hkeys : keys.length ≤ 256)
    (hgets : ∀ id key, .get id key ∈ acts → key ∈ keys) (hok : Always step Undisturbed (.initial seconds clock) acts)
    (hrun : run step (.initial seconds clock) acts = some w) : Spaced w ∧ NeverOlder w := by
  have hinv := run_invariant (I := fun as w => (∀ id key, Action.get id key ∈ as → key ∈ keys) → Inv keys w)
    (fun _ => inv_initial keys seconds clock) ?_ hok hrun hgets
  · exact ⟨hinv.spaced, hinv.ordered⟩
  · intro as t action t' ih hundisturbed hstep hmem
    have ht := ih (fun id key h => hmem id key (List.mem_append_left _ h))
    refine inv_step hkeys (fun id key heq => ?_) ht hundisturbed hstep
    exact hmem id key (List.mem_append_right _ (heq ▸ List.mem_singleton_self _))

/-- A second client within the interval is served the first one's answer; a third one, after it, computes again. -/
def sharedAnswer : List (Action Nat Int Nat) :=
  [.get 0 60, .lookup 0, .tick 1, .store 0 7, .get 1 60, .lookup 1, .tick 6, .get 2 60, .lookup 2, .store 2 8,
    .get 3 60, .lookup 3]

/-- A second client asks while the compute of the first one, which takes longer, is running. -/
def slowAnswer : List (Action Nat Int Nat) :=
  [.get 0 60, .lookup 0, .tick 3, .get 1 60, .lookup 1, .store 1 8, .get 2 60, .lookup 2, .store 0 7, .get 3 60,
    .lookup 3]

theorem shared_answer_once : ∃ w, run step (.initial 5 0) sharedAnswer = some w ∧
    w.computes = [(60, 0), (60, 6)] ∧ w.served = [(60, 0), (60, 6)] ∧ Spaced w ∧ NeverOlder w := by
  have hgets : ∀ id key, .get id key ∈ sharedAnswer → key ∈ [60] := by
    simp only [sharedAnswer, List.mem_cons, Action.get.injEq, List.not_mem_nil, or_false, reduceCtorEq, false_or]
    omega
  have hok : Always step Undisturbed (.initial 5 0) sharedAnswer := by decide
  exact ⟨_, rfl, rfl, rfl, once_per_interval (by decide) hgets hok rfl⟩

/-- **Two computes start 3 seconds apart** instead of 5, and the first one's answer replaces the second one's, which has
    been served. -/
theorem computed_twice : ∃ w, run step (.initial 5 0) slowAnswer = some w ∧
    w.computes = [(60, 0), (60, 3)] ∧ w.served = [(60, 3), (60, 0)] ∧ ¬ Spaced w ∧ ¬ NeverOlder w := by
  refine ⟨_, rfl, rfl, rfl, fun hspaced => ?_, fun hordered => ?_⟩
  · exact absurd (List.rel_of_pairwise_cons hspaced (List.mem_singleton_self _) rfl) (by decide)
  · exact absurd (List.rel_of_pairwise_cons hordered (List.mem_singleton_self _) rfl) (by decide)

end Cache
end Wikistream
