import Wikistream.Ingestor.Delivery

/-!
# `Correctness.DeliveryPrefix` — the tracker releases the longest confirmed prefix

Whatever order Kafka calls back in, and whichever deliveries fail, the checkpoint stands at the end of the longest
prefix of the accepted messages that have all succeeded.

## Contents
- **What happened** (`accepted`, `succeeded`) and its prefix (`confirmedPrefix`, `beyond`).
- **The invariant** (`Tracks`), for a send (`Tracks.send`), a failure (`Tracks.fail`) and a success
  (`Tracks.succeed`).
- **The result** (`longest_prefix_released`).
-/

namespace Wikistream
namespace Ingestor
namespace Delivery

open Py Lib

/-! ## What happened -/

/-- The messages the producer took, with their sequence numbers, in the order they were sent. -/
def accepted (acts : List Action) : List (Nat × Option Str) :=
  ((acts.filterMap (fun
    | .send streamId => some streamId
    | .callback _ _ _ => none)).zipIdx 1).map Prod.swap

/-- Kafka confirmed the message. -/
def succeeded (acts : List Action) (seq : Nat) : Bool :=
  acts.any (fun
    | .callback n none _ => n == seq
    | _ => false)

/-- The longest prefix of the accepted messages that have all succeeded. -/
def confirmedPrefix (acts : List Action) : List (Nat × Option Str) :=
  (accepted acts).takeWhile (fun m => succeeded acts m.1)

/-- The accepted messages beyond it. -/
def beyond (acts : List Action) : List (Nat × Option Str) :=
  (accepted acts).dropWhile (fun m => succeeded acts m.1)

/-- The last stream id that is there and not empty. -/
def lastNonEmpty (ms : List (Nat × Option Str)) : Option Str := (ms.filterMap (fun m => nonEmpty m.2)).getLast?

variable {acts : List Action} {c : Checkpoint} {w : World} {seq : Nat}
  {streamId : Option Str} {err : Str} {timer : Bool}

theorem accepted_send (acts : List Action) (streamId : Option Str) :
    accepted (acts ++ [.send streamId]) = accepted acts ++ [((accepted acts).length + 1, streamId)] := by
  unfold accepted
  rw [List.filterMap_append, List.zipIdx_append, List.map_append]
  simp [Nat.add_comm]

theorem accepted_callback (acts : List Action) (seq : Nat) (err : Option Str) (timer : Bool) :
    accepted (acts ++ [.callback seq err timer]) = accepted acts := by
  unfold accepted
  rw [List.filterMap_append]
  exact congrArg _ (congrArg (List.zipIdx · 1) (List.append_nil _))

theorem map_fst_accepted (acts : List Action) :
    (accepted acts).map Prod.fst = List.range' 1 (accepted acts).length := by
  unfold accepted
  rw [List.map_map, List.length_map, List.length_zipIdx]
  exact List.zipIdx_map_snd _ _

theorem nodup_accepted (acts : List Action) : ((accepted acts).map Prod.fst).Nodup := by
  rw [map_fst_accepted]
  exact List.nodup_range'

theorem succeeded_send : succeeded (acts ++ [.send streamId]) seq = succeeded acts seq := by
  simp [succeeded]

theorem succeeded_fail {n : Nat} : succeeded (acts ++ [.callback n (some err) timer]) seq = succeeded acts seq := by
  simp [succeeded]

theorem succeeded_confirm {n : Nat} :
    succeeded (acts ++ [.callback n none timer]) seq = (succeeded acts seq || n == seq) := by
  simp [succeeded]

/-- The tracker keeps the ids as `none` or not empty. -/
theorem lastId_map_nonEmpty (ms : List (Nat × Option Str)) :
    lastId (ms.map (fun m => (m.1, nonEmpty m.2))) = lastNonEmpty ms := by
  induction ms with
  | nil => rfl
  | cons m ms ih =>
      rw [List.map_cons, lastId_cons, ih]
      unfold lastNonEmpty
      rw [List.filterMap_cons]
      cases hm : nonEmpty m.2 with
      | none => simp
      | some id => simp [List.getLast?_cons]

theorem lastNonEmpty_append (ms ns : List (Nat × Option Str)) :
    lastNonEmpty (ms ++ ns) = (lastNonEmpty ns).or (lastNonEmpty ms) := by
  unfold lastNonEmpty
  rw [List.filterMap_append, List.getLast?_append]

theorem nonEmpty_lastNonEmpty (ms : List (Nat × Option Str)) : nonEmpty (lastNonEmpty ms) = lastNonEmpty ms := by
  cases h : lastNonEmpty ms with
  | none => rfl
  | some id =>
      obtain ⟨m, _, hm⟩ := List.mem_filterMap.mp (List.mem_of_getLast? h)
      obtain ⟨_, hne⟩ := Option.filter_eq_some_iff.mp hm
      exact Option.filter_some_pos hne

/-! ## The invariant -/

/-- The sender stands where the messages' fate puts it. -/
structure Tracks (c : Checkpoint) (acts : List Action) (w : World) : Prop where
  seq : w.sender.seq = (accepted acts).length
  pending : w.sender.tracker.pending = (beyond acts).map (fun m => (m.1, nonEmpty m.2))
  confirmed : ∀ n, n ∈ w.sender.tracker.confirmed ↔ n ∈ (beyond acts).map Prod.fst ∧ succeeded acts n = true
  lastEventId : w.sender.checkpoint.lastEventId = (lastNonEmpty (confirmedPrefix acts)).or c.lastEventId
  eventsConfirmed : w.sender.checkpoint.eventsConfirmed = c.eventsConfirmed + (confirmedPrefix acts).length
  outstanding : ∀ n ∈ w.outstanding, n ∈ (accepted acts).map Prod.fst ∧ succeeded acts n = false
  /-- Nothing succeeds that was not sent. -/
  genuine : ∀ n, succeeded acts n = true → n ∈ (accepted acts).map Prod.fst

theorem tracks_init (c : Checkpoint) : Tracks c [] { sender := { checkpoint := c } } where
  seq := rfl
  pending := rfl
  confirmed n := by simp [beyond, accepted]
  lastEventId := rfl
  eventsConfirmed := (Int.add_zero _).symm
  outstanding n hn := absurd hn (by simp)
  genuine n hn := absurd hn (by simp [succeeded])

/-- A new message waits behind all others. -/
theorem Tracks.send (h : Tracks c acts w) : Tracks c (acts ++ [.send streamId])
    { sender := w.sender.sent streamId, outstanding := insert (w.sender.seq + 1) w.outstanding } := by
  have hsame : (fun m : Nat × Option Str => succeeded (acts ++ [.send streamId]) m.1) =
      (fun m => succeeded acts m.1) := funext fun m => succeeded_send
  -- no callback can come for a number that has not been given out
  have hnew : succeeded acts ((accepted acts).length + 1) = false := by
    apply Bool.eq_false_of_not_eq_true
    intro hs
    have hmem := h.genuine _ hs
    rw [map_fst_accepted, List.mem_range'_1] at hmem
    omega
  have hconfirmedPrefix : confirmedPrefix (acts ++ [.send streamId]) = confirmedPrefix acts := by
    unfold confirmedPrefix
    rw [hsame, accepted_send]
    exact Prefix.takeWhile_snoc hnew
  have hbeyond : beyond (acts ++ [.send streamId]) = beyond acts ++ [((accepted acts).length + 1, streamId)] := by
    unfold beyond
    rw [hsame, accepted_send]
    exact Prefix.dropWhile_snoc hnew
  refine ⟨?_, ?_, ?_, ?_, ?_, ?_, ?_⟩
  · rw [accepted_send, List.length_append]
    exact congrArg (· + 1) h.seq
  · rw [hbeyond, List.map_append, ← h.pending, ← h.seq]
    rfl
  · intro n
    rw [hbeyond, succeeded_send, List.map_append, List.mem_append]
    refine (h.confirmed n).trans ?_
    constructor
    · rintro ⟨hn, hs⟩
      exact ⟨Or.inl hn, hs⟩
    · rintro ⟨hn | hn, hs⟩
      · exact ⟨hn, hs⟩
      · obtain rfl := List.mem_singleton.mp hn
        exact absurd hs (by simp [hnew])
  · rw [hconfirmedPrefix]
    exact h.lastEventId
  · rw [hconfirmedPrefix]
    exact h.eventsConfirmed
  · intro n hn
    rw [accepted_send, List.map_append, List.mem_append, succeeded_send]
    rcases Finset.mem_insert.mp hn with rfl | hn
    · rw [h.seq]
      exact ⟨Or.inr (List.mem_singleton_self _), hnew⟩
    · exact ⟨Or.inl (h.outstanding n hn).1, (h.outstanding n hn).2⟩
  · intro n hn
    rw [succeeded_send] at hn
    rw [accepted_send, List.map_append, List.mem_append]
    exact Or.inl (h.genuine n hn)

/-- A failed message stays where it is. -/
theorem Tracks.fail (h : Tracks c acts w) : Tracks c (acts ++ [.callback seq (some err) timer])
    { sender := (w.sender.onDelivery (some err) seq timer).1, outstanding := w.outstanding.erase seq } := by
  have hsame : (fun m : Nat × Option Str => succeeded (acts ++ [.callback seq (some err) timer]) m.1) =
      (fun m => succeeded acts m.1) := funext fun m => succeeded_fail
  have hconfirmedPrefix : confirmedPrefix (acts ++ [.callback seq (some err) timer]) = confirmedPrefix acts := by
    unfold confirmedPrefix
    rw [hsame, accepted_callback]
  have hbeyond : beyond (acts ++ [.callback seq (some err) timer]) = beyond acts := by
    unfold beyond
    rw [hsame, accepted_callback]
  refine ⟨?_, ?_, ?_, ?_, ?_, ?_, ?_⟩
  · rw [accepted_callback]
    exact h.seq
  · rw [hbeyond]
    exact h.pending
  · intro n
    rw [hbeyond, succeeded_fail]
    exact h.confirmed n
  · rw [hconfirmedPrefix]
    exact h.lastEventId
  · rw [hconfirmedPrefix]
    exact h.eventsConfirmed
  · intro n hn
    rw [accepted_callback, succeeded_fail]
    exact h.outstanding n (Finset.mem_of_mem_erase hn)
  · intro n hn
    rw [succeeded_fail] at hn
    rw [accepted_callback]
    exact h.genuine n hn

theorem nodup_beyond (acts : List Action) : ((beyond acts).map Prod.fst).Nodup :=
  ((List.dropWhile_sublist _).map Prod.fst).nodup (nodup_accepted acts)

/-- A message without a callback is beyond the prefix. -/
theorem Tracks.mem_beyond (h : Tracks c acts w) (hseq : seq ∈ w.outstanding) : seq ∈ (beyond acts).map Prod.fst := by
  obtain ⟨hin, hs⟩ := h.outstanding seq hseq
  obtain ⟨m, hm, rfl⟩ := List.mem_map.mp hin
  have hsplit : accepted acts = confirmedPrefix acts ++ beyond acts := List.takeWhile_append_dropWhile.symm
  rw [hsplit] at hm
  rcases List.mem_append.mp hm with hm | hm
  · have := List.mem_takeWhile_imp hm
    exact absurd (hs.symm.trans this) (by simp)
  · exact List.mem_map_of_mem hm

/-- What a confirmation releases is what the prefix grows by. -/
theorem Tracks.confirm_eq (h : Tracks c acts w) (seq : Nat) (timer : Bool) :
    let acts' := acts ++ [.callback seq none timer]
    let more := (beyond acts).takeWhile (fun m => succeeded acts' m.1)
    confirmedPrefix acts' = confirmedPrefix acts ++ more ∧ beyond acts = more ++ beyond acts' ∧
      (w.sender.tracker.confirm seq).tracker.pending = (beyond acts').map (fun m => (m.1, nonEmpty m.2)) ∧
      (∀ n, n ∈ (w.sender.tracker.confirm seq).tracker.confirmed ↔
        n ∈ insert seq w.sender.tracker.confirmed ∧ n ∉ more.map Prod.fst) ∧
      (w.sender.tracker.confirm seq).released = lastNonEmpty more ∧
      (w.sender.tracker.confirm seq).count = more.length := by
  intro acts' more
  have hmono : ∀ m ∈ accepted acts, succeeded acts m.1 = true → succeeded acts' m.1 = true := by
    intro m _ hs
    rw [succeeded_confirm, hs]
    rfl
  have hconfirmedPrefix : confirmedPrefix acts' = confirmedPrefix acts ++ more := by
    unfold confirmedPrefix
    rw [accepted_callback]
    exact (Prefix.takeWhile_append_takeWhile hmono).symm
  have hbeyond : beyond acts' = (beyond acts).dropWhile (fun m => succeeded acts' m.1) := by
    unfold beyond
    rw [accepted_callback]
    exact (Prefix.dropWhile_dropWhile hmono).symm
  -- among the pending messages, the confirmed numbers are those of the messages that succeeded
  have hdone : ∀ m ∈ beyond acts, (isConfirmed (insert seq w.sender.tracker.confirmed) ∘
      fun m => (m.1, nonEmpty m.2)) m = succeeded acts' m.1 := by
    intro m hm
    have hin : m.1 ∈ (beyond acts).map Prod.fst := List.mem_map_of_mem hm
    rw [succeeded_confirm, Bool.eq_iff_iff]
    simp only [Function.comp_apply, isConfirmed, decide_eq_true_eq, Finset.mem_insert, h.confirmed, hin, true_and,
      Bool.or_eq_true, beq_iff_eq]
    constructor
    · rintro (heq | hs)
      · exact Or.inr heq.symm
      · exact Or.inl hs
    · rintro (hs | heq)
      · exact Or.inr hs
      · exact Or.inl heq.symm
  have hnodup : (w.sender.tracker.pending.map Prod.fst).Nodup := by
    rw [h.pending, List.map_map]
    exact nodup_beyond acts
  have htake : w.sender.tracker.pending.takeWhile (isConfirmed (insert seq w.sender.tracker.confirmed)) =
      more.map (fun m => (m.1, nonEmpty m.2)) := by
    rw [h.pending, List.takeWhile_map, Prefix.takeWhile_congr hdone]
  obtain ⟨hpending, hconfirmed, hid, hcount⟩ :=
    release_eq hnodup (insert seq w.sender.tracker.confirmed) none 0
  rw [htake] at hid hcount
  simp only [htake] at hconfirmed
  refine ⟨hconfirmedPrefix, ?_, ?_, ?_, ?_, ?_⟩
  · rw [hbeyond]
    exact List.takeWhile_append_dropWhile.symm
  · refine hpending.trans ?_
    rw [h.pending, List.dropWhile_map, Prefix.dropWhile_congr hdone, hbeyond]
  · intro n
    refine (hconfirmed n).trans ?_
    rw [List.map_map]
    exact Iff.rfl
  · refine hid.trans ?_
    rw [lastId_map_nonEmpty, Option.or_none]
  · refine hcount.trans ?_
    rw [List.length_map, Nat.zero_add]

/-- A message that succeeded may release those behind it. -/
theorem Tracks.succeed (h : Tracks c acts w) (hseq : seq ∈ w.outstanding) :
    Tracks c (acts ++ [.callback seq none timer])
      { sender := (w.sender.onDelivery none seq timer).1, outstanding := w.outstanding.erase seq } := by
  obtain ⟨hconfirmedPrefix, hsplit, hpending, hconfirmed, hid, hcount⟩ := h.confirm_eq seq timer
  obtain ⟨htracker, hlast, hevents, hnext⟩ := @onDelivery_none w.sender seq timer
  refine ⟨?_, ?_, ?_, ?_, ?_, ?_, ?_⟩
  · rw [accepted_callback]
    exact hnext.trans h.seq
  · exact (congrArg DeliveryTracker.pending htracker).trans hpending
  · intro n
    show n ∈ (w.sender.onDelivery none seq timer).1.tracker.confirmed ↔ _
    rw [htracker, hconfirmed, Finset.mem_insert, h.confirmed, succeeded_confirm]
    have hnodup := nodup_beyond acts
    have hwaits := h.mem_beyond hseq
    generalize (beyond acts).takeWhile _ = more at hsplit
    rw [hsplit, List.map_append] at hnodup hwaits ⊢
    -- what still waits is what waited and is not released
    have hdisjoint := List.disjoint_of_nodup_append hnodup
    rw [List.mem_append, Bool.or_eq_true, beq_iff_eq]
    constructor
    · rintro ⟨rfl | ⟨hin, hs⟩, hout⟩
      · exact ⟨(List.mem_append.mp hwaits).resolve_left hout, Or.inr rfl⟩
      · exact ⟨hin.resolve_left hout, Or.inl hs⟩
    · rintro ⟨hin, hs | rfl⟩
      · exact ⟨Or.inr ⟨Or.inr hin, hs⟩, fun hout => hdisjoint hout hin⟩
      · exact ⟨Or.inl rfl, fun hout => hdisjoint hout hin⟩
  · refine hlast.trans ?_
    rw [hid, nonEmpty_lastNonEmpty, h.lastEventId, hconfirmedPrefix, lastNonEmpty_append, Option.or_assoc]
  · refine hevents.trans ?_
    rw [hcount, h.eventsConfirmed, hconfirmedPrefix, List.length_append]
    omega
  · intro n hn
    obtain ⟨hne, hn⟩ := Finset.mem_erase.mp hn
    obtain ⟨hin, hs⟩ := h.outstanding n hn
    rw [accepted_callback, succeeded_confirm, hs]
    exact ⟨hin, by simpa using hne.symm⟩
  · intro n hn
    rw [succeeded_confirm, Bool.or_eq_true] at hn
    rw [accepted_callback]
    rcases hn with hs | heq
    · exact h.genuine n hs
    · exact (beq_iff_eq.mp heq) ▸ (h.outstanding seq hseq).1

theorem Tracks.step {a : Action} {w' : World} (h : Tracks c acts w) (hstep : step w a = some w') :
    Tracks c (acts ++ [a]) w' := by
  cases a with
  | send streamId => exact Option.some.inj hstep ▸ h.send
  | callback seq err timer =>
      simp only [Delivery.step] at hstep
      split at hstep
      · next hseq =>
          obtain rfl := Option.some.inj hstep
          cases err with
          | some err => exact h.fail
          | none => exact h.succeed hseq
      · exact absurd hstep (by simp)

/-- **The tracker releases exactly the longest confirmed prefix.** After any sends and callbacks, in any order, from
    any checkpoint. -/
theorem longest_prefix_released (c : Checkpoint) (hrun : run step { sender := { checkpoint := c } } acts = some w) :
    w.sender.checkpoint.lastEventId = (lastNonEmpty (confirmedPrefix acts)).or c.lastEventId ∧
      w.sender.checkpoint.eventsConfirmed = c.eventsConfirmed + (confirmedPrefix acts).length ∧
      w.sender.tracker.inFlight = (beyond acts).length ∧
      ∀ n, n ∈ w.sender.tracker.confirmed ↔ n ∈ (beyond acts).map Prod.fst ∧ succeeded acts n = true := by
  have hok : Always step (fun _ _ => True) { sender := { checkpoint := c } } acts :=
    always_of_forall (fun _ _ => trivial) _ _
  have h : Tracks c acts w := run_invariant (tracks_init c) (fun _ _ _ _ h _ hstep => h.step hstep) hok hrun
  refine ⟨h.lastEventId, h.eventsConfirmed, ?_, h.confirmed⟩
  unfold DeliveryTracker.inFlight
  rw [h.pending, List.length_map]

/-- Three messages, the second without an id: the last is confirmed first, then the first, and the second fails. -/
def failedBetween : List Action :=
  [.send (some (lit "a")), .send (some []), .send (some (lit "b")), .callback 3 none false, .callback 1 none false,
    .callback 2 (some (lit "gone")) false]

/-- The checkpoint stays in front of the failed message for good. -/
theorem held_behind_failure :
    ∃ w, run step {} failedBetween = some w ∧ w.sender.checkpoint.lastEventId = some (lit "a") ∧
      w.sender.checkpoint.eventsConfirmed = 1 ∧ w.sender.tracker.inFlight = 2 ∧ 3 ∈ w.sender.tracker.confirmed := by
  have hrun : (run step {} failedBetween).isSome = true := by decide
  obtain ⟨w, hw⟩ := Option.isSome_iff_exists.mp hrun
  obtain ⟨hlast, hcount, hflight, hconfirmed⟩ := longest_prefix_released {} hw
  refine ⟨w, hw, hlast.trans (by decide), hcount.trans (by decide), hflight.trans (by decide), ?_⟩
  exact (hconfirmed 3).mpr (by decide)

end Delivery
end Ingestor
end Wikistream
