import Wikistream.Lib.Dict
import Wikistream.Lib.Run

/-!
# `Web.UsePolling` — how a view of the dashboard keeps its data fresh

`usePolling` asks an endpoint when its component appears, on every change of the params and on a timer. Every request
aborts the one before it; answers arrive in any order, also those of aborted requests that were already on their way.

## Contents
- **What a view shows** (`Shown`), and the hook with its requests (`Polling`).
- **The parts of the hook** (`cleanup`, `load`, `effect`, `settle`).
- **`step`**: the effect, the timer, the tab, a reload, an answer.
-/

namespace Wikistream
namespace UsePolling

open Lib

/-- The state of the hook. `data` is `none` for `null`. -/
structure Shown (ν ε : Type) where
  data : Option ν := none
  error : Option ε := none
  loading : Bool := true
  refreshing : Bool := false

/-- An answer that was shown. -/
structure Answer (κ ν : Type) where
  request : Nat
  /-- The params it was asked with, and those of the effect when it was shown. -/
  key : κ
  current : Option κ
  data : Option ν

/-- The hook and its requests, which are numbered in the order they were sent. -/
structure Polling (κ ν ε : Type) where
  shown : Shown ν ε := {}
  /-- The params of the effect that runs, if the component is there. -/
  key : Option κ := none
  visible : Bool := true
  /-- The requests with no answer yet, with their params. -/
  requests : Dict Nat κ := Dict.empty
  sent : Nat := 0
  /-- `controller.current`, as the request that it belongs to. -/
  controller : Option Nat := none
  aborted : List Nat := []
  /-- The answers that were shown, oldest first. -/
  answers : List (Answer κ ν) := []

variable {κ ν ε : Type}

/-- `controller.current?.abort()`. -/
def Polling.cleanup (v : Polling κ ν ε) : Polling κ ν ε := { v with aborted := v.aborted ++ v.controller.toList }

/-- `load`, up to its `await`. -/
def Polling.load (v : Polling κ ν ε) (key : κ) : Polling κ ν ε :=
  { v.cleanup with
    controller := some v.sent
    sent := v.sent + 1
    requests := v.requests.set v.sent key
    shown := { v.shown with refreshing := v.shown.data.isSome } }

/-- The effect for new params: the one before it is cleaned up, then there is a request. -/
def Polling.effect (v : Polling κ ν ε) (key : κ) : Polling κ ν ε :=
  let shown := { v.shown with loading := v.shown.data.isNone }
  { v.cleanup with key := some key, shown := shown }.load key

/-- The answer `data` of request `i` is shown. -/
def Polling.succeed (v : Polling κ ν ε) (i : Nat) (key : κ) (data : Option ν) : Polling κ ν ε :=
  { v with
    shown := { data := data, error := none, loading := false, refreshing := false }
    answers := v.answers ++ [⟨i, key, v.key, data⟩] }

/-- The error is shown beside the data. -/
def Polling.fail (v : Polling κ ν ε) (error : ε) : Polling κ ν ε :=
  { v with shown := { v.shown with error := some error, loading := false, refreshing := false } }

inductive Action (κ ν ε : Type)
  /-- The component appears, or its params change. -/
  | effect (key : κ)
  | unmount
  | tick
  | hide
  | show
  | reload
  /-- `getJson` answers request `i`, or raises. -/
  | settle (i : Nat) (result : Except ε (Option ν))

/-- An answer comes; what an aborted request brings is dropped. -/
def Polling.settle (v : Polling κ ν ε) (i : Nat) (key : κ) (result : Except ε (Option ν)) : Polling κ ν ε :=
  let settled := { v with requests := v.requests.erase i }
  if i ∈ v.aborted then settled
  else
    match result with
    | .ok data => settled.succeed i key data
    | .error error => settled.fail error

/-- One step. -/
def step (v : Polling κ ν ε) : Action κ ν ε → Option (Polling κ ν ε)
  | .effect key => some (v.effect key)
  | .unmount => some { v.cleanup with key := none }
  | .tick => v.key.map (fun key => if v.visible then v.load key else v)
  | .hide => some { v with visible := false }
  | .show =>
      match v.key with
      | none => some { v with visible := true }
      | some key => some ({ v with visible := true }.load key)
  | .reload => v.key.map v.load
  | .settle i result => (v.requests.get? i).map (fun key => v.settle i key result)

end UsePolling
end Wikistream
