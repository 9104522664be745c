import Mathlib.Algebra.Order.Group.Defs
import Mathlib.Data.List.MinMax
import Wikistream.Lib.Dict

/-!
# `Web.Cache` — answers kept for a few seconds, shared by every client

`TTLCache.get` is three steps: a lookup under the lock, on a miss a compute outside it, and a store under the lock.
Between them the steps of other calls may come.

## Contents
- **The cache** (`TTLCache`): its two locked sections, `lookup` and `store`.
- **Calls** (`Call`, `World`, `step`): any number of `get`s at once, and a record of what they did.
- **What the store changes** while there are few keys (`store_entries`).
-/

namespace Wikistream
namespace Cache

open Lib

variable {κ τ ν : Type} [DecidableEq κ] [AddCommGroup τ] [LinearOrder τ]

/-! ## The cache -/

/-- `TTLCache`; an entry is the time it was stored and its value. -/
structure TTLCache (κ τ ν : Type) where
  seconds : τ
  entries : Dict κ (τ × ν) := Dict.empty

/-- The lookup, for a call that read the clock at `now`. -/
def TTLCache.lookup (cache : TTLCache κ τ ν) (key : κ) (now : τ) : Option ν :=
  match cache.entries.get? key with
  | some entry => if now - entry.1 < cache.seconds then some entry.2 else none
  | none => none

/-- `min(self._entries, key=lambda k: self._entries[k][0])`. -/
def oldest (entries : Dict κ (τ × ν)) : Option κ := (entries.entries.argmin (fun e => e.2.1)).map Prod.fst

/-- The store: over 256 entries the oldest one goes. -/
def TTLCache.store (cache : TTLCache κ τ ν) (key : κ) (clock : τ) (value : ν) : TTLCache κ τ ν :=
  let entries := cache.entries.set key (clock, value)
  if 256 < entries.size then
    match oldest entries with
    | some k => { cache with entries := entries.erase k }
    | none => { cache with entries }
  else { cache with entries }

/-! ## Calls -/

/-- Where a call of `get` is. -/
inductive Call (κ τ : Type)
  /-- It read the clock at `now` and has not looked up its key. -/
  | asked (key : κ) (now : τ)
  /-- It missed at `started`, and its compute is running. -/
  | computing (key : κ) (started : τ)

/-- A value with the time its compute started. -/
structure Answer (τ ν : Type) where
  value : ν
  started : τ

/-- The cache, the clock and the calls under way; and what happened so far, in order: the computes that started, those
    that raised, and the answers served from the cache, each with its key and the time its compute started; and the
    stores, each with its key, its answer and its time. -/
structure World (κ τ ν : Type) where
  cache : TTLCache κ τ (Answer τ ν)
  clock : τ
  calls : Dict Nat (Call κ τ) := Dict.empty
  computes : List (κ × τ) := []
  raised : List (κ × τ) := []
  served : List (κ × τ) := []
  stores : List (κ × Answer τ ν × τ) := []

/-- Nothing has been asked. -/
def World.initial (seconds clock : τ) : World κ τ ν where
  cache := { seconds }
  clock

inductive Action (κ τ ν : Type)
  | tick (time : τ)
  | get (id : Nat) (key : κ)
  | lookup (id : Nat)
  | store (id : Nat) (value : ν)
  | raise (id : Nat)

/-- The next step of a call, or the clock going on. -/
def step (w : World κ τ ν) : Action κ τ ν → Option (World κ τ ν)
  | .tick time => if w.clock ≤ time then some { w with clock := time } else none
  | .get id key =>
      match w.calls.get? id with
      | none => some { w with calls := w.calls.set id (.asked key w.clock) }
      | some _ => none
  | .lookup id =>
      match w.calls.get? id with
      | some (.asked key now) =>
          match w.cache.lookup key now with
          | some answer =>
              some { w with calls := w.calls.erase id, served := w.served ++ [(key, answer.started)] }
          | none =>
              some { w with
                calls := w.calls.set id (.computing key w.clock)
                computes := w.computes ++ [(key, w.clock)] }
      | _ => none
  | .store id value =>
      match w.calls.get? id with
      | some (.computing key started) =>
          some { w with
            calls := w.calls.erase id
            cache := w.cache.store key w.clock ⟨value, started⟩
            stores := w.stores ++ [(key, ⟨value, started⟩, w.clock)] }
      | _ => none
  | .raise id =>
      match w.calls.get? id with
      | some (.computing key started) =>
          some { w with calls := w.calls.erase id, raised := w.raised ++ [(key, started)] }
      | _ => none

/-! ## What the store changes -/

omit [AddCommGroup τ] in
/-- **Nothing is dropped** as long as the keys are among at most 256. -/
theorem store_entries {cache : TTLCache κ τ ν} {keys : List κ} (hkeys : keys.length ≤ 256)
    (hentries : ∀ k ∈ cache.entries.keys, k ∈ keys) {key : κ} (hkey : key ∈ keys) (clock : τ) (value : ν) :
    cache.store key clock value = { cache with entries := cache.entries.set key (clock, value) } := by
  have hsub : ∀ k ∈ (cache.entries.set key (clock, value)).keys, k ∈ keys := by
    intro k hk
    rcases Dict.mem_keys_set.mp hk with rfl | hk
    · exact hkey
    · exact hentries k hk
  have hle := ((List.subperm_of_subset (cache.entries.set key (clock, value)).nodup hsub).length_le).trans hkeys
  have hsize : ¬ 256 < (cache.entries.set key (clock, value)).size := by
    rw [Dict.size, Nat.not_lt]
    simpa [Dict.keys] using hle
  unfold TTLCache.store
  rw [if_neg hsize]

end Cache
end Wikistream
