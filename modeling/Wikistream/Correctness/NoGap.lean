import Wikistream.Ingestor.Main
import Wikistream.Lib.Run

/-!
# `Correctness.NoGap` — what lies behind the ingestor's checkpoint

The checkpoint moves to an event when every message sent before it is confirmed. That covers the events
before it only if every one of them was received; a connection opened without a checkpoint starts at the
newest event and may jump over some.

## Contents
- **The condition** (`NoJump`): a connection opened with an empty checkpoint leaves no event behind that is
  neither in Kafka nor tracked.
- **The invariant** (`Inv`, `ProcessInv`), from the first event handled on.
- **The result** (`no_gap`), and the run that reconnects before anything was confirmed
  (`gap_after_reconnect`).
-/

namespace Wikistream
namespace Ingestor

open Lib

variable (isError : Nat → Bool)

/-- The first event handled in the run. -/
abbrev First := Option Nat

/-- The event a `receive` hands to `handle`. -/
def received (w : World) : Action → Option Nat
  | .receive => w.process.bind Process.connection
  | _ => none

def watch (first : First) (w : World) (a : Action) : First := first.or (received w a)

/-- Every event in `[first, n)` that is not an error event satisfies `q`. -/
def FromFirst (first : First) (n : Nat) (q : Nat → Prop) : Prop :=
  ∀ f, first = some f → ∀ e, f ≤ e → e < n → isError e = false → q e

/-- The event is in Kafka, or a tracked message will tell when it is. -/
def Accounted (kafka : Finset Nat) (tracked : List (Nat × Option Nat)) (e : Nat) : Prop :=
  e ∈ kafka ∨ ∃ s, (s, some e) ∈ tracked

/-- A connection opened with an empty checkpoint jumps over no event: everything between the first event
    handled and the connection's start is in Kafka or tracked. -/
def NoJump (s : World × First) : Action → Prop
  | .connect newest =>
      ∀ pr, s.1.process = some pr → pr.checkpoint.lastEventId = none →
        FromFirst isError s.2 newest (Accounted s.1.kafka pr.tracker.pending)
  | _ => True

instance (first : First) (n : Nat) (q : Nat → Prop) [DecidablePred q] :
    Decidable (FromFirst isError first n q) :=
  decidable_of_iff (∀ f ∈ first, ∀ e < n, f ≤ e → isError e = false → q e)
    ⟨fun h f hf e hle hlt herr => h f hf e hlt hle herr,
      fun h f hf e hlt hle herr => h f hf e hle hlt herr⟩

instance (kafka : Finset Nat) (tracked : List (Nat × Option Nat)) :
    DecidablePred (Accounted kafka tracked) := fun e =>
  decidable_of_iff (e ∈ kafka ∨ some e ∈ tracked.map Prod.snd) (by simp [Accounted])

instance (s : World × First) (a : Action) : Decidable (NoJump isError s a) := by
  unfold NoJump
  split
  · next newest =>
      exact inferInstanceAs (Decidable (∀ pr ∈ s.1.process, pr.checkpoint.lastEventId = none →
        FromFirst isError s.2 newest (Accounted s.1.kafka pr.tracker.pending)))
  · infer_instance

/-! ## The invariant -/

/-- Everything up to the event a checkpoint names is in Kafka. -/
def Covered (first : First) (kafka : Finset Nat) (c : Checkpoint) : Prop :=
  ∀ e, c.lastEventId = some e → FromFirst isError first (e + 1) (· ∈ kafka)

/-- The pending messages: what was sent before each of them covers the events up to it. -/
def Tracked (first : First) (kafka : Finset Nat) (pending : List (Nat × Option Nat)) : Prop :=
  ∀ before s e after, pending = before ++ (s, some e) :: after →
    FromFirst isError first (e + 1) (Accounted kafka (before ++ [(s, some e)]))

structure ProcessInv (first : First) (kafka : Finset Nat) (pr : Process) : Prop where
  checkpoint : Covered isError first kafka pr.checkpoint
  pending : Tracked isError first kafka pr.tracker.pending
  connection : ∀ n, pr.connection = some n → FromFirst isError first n (fun e =>
    Accounted kafka pr.tracker.pending e ∨ pr.sending = some e)
  sending : ∀ n, pr.sending = some n → pr.connection = some (n + 1)
  /-- Before the first event the process has only its checkpoint, and a connection just after it. -/
  fresh : first = none → pr.tracker.pending = [] ∧ pr.sending = none ∧
    ∀ n e, pr.connection = some n → pr.checkpoint.lastEventId = some e → n = e + 1
  /-- Sequence numbers in use are not past the counter. -/
  bounded : (∀ x ∈ pr.tracker.pending, x.1 ≤ pr.seq) ∧ (∀ s ∈ pr.tracker.confirmed, s ≤ pr.seq) ∧
    ∀ x ∈ pr.outstanding, x.1 ≤ pr.seq
  outstanding : ∀ s e, (s, e) ∈ pr.outstanding → ∀ id, (s, id) ∈ pr.tracker.pending → id = some e
  /-- A confirmed message that is still pending is in Kafka. -/
  confirmed : ∀ s ∈ pr.tracker.confirmed, ∀ e, (s, some e) ∈ pr.tracker.pending → e ∈ kafka

structure Inv (w : World) (first : First) : Prop where
  file : Covered isError first w.kafka w.file
  process : ∀ pr, w.process = some pr → ProcessInv isError first w.kafka pr
  /-- Before the first event the file and the process agree. -/
  fresh : first = none → ∀ pr, w.process = some pr →
    pr.checkpoint.lastEventId = w.file.lastEventId

variable {isError} {first : First} {kafka kafka' : Finset Nat} {pr : Process} {w : World}

theorem FromFirst.imp {n : Nat} {q q' : Nat → Prop} (h : FromFirst isError first n q)
    (himp : ∀ e, q e → q' e) : FromFirst isError first n q' :=
  fun f hf e hle hlt herr => himp e (h f hf e hle hlt herr)

theorem Accounted.imp {tracked tracked' : List (Nat × Option Nat)} {e : Nat}
    (h : Accounted kafka tracked e) (hk : kafka ⊆ kafka')
    (ht : ∀ s e, (s, some e) ∈ tracked → e ∈ kafka' ∨ (s, some e) ∈ tracked') :
    Accounted kafka' tracked' e := by
  rcases h with h | ⟨s, h⟩
  · exact Or.inl (hk h)
  · exact (ht s e h).imp_right (fun hm => ⟨s, hm⟩)

theorem Covered.mono {c : Checkpoint} (h : Covered isError first kafka c) (hk : kafka ⊆ kafka') :
    Covered isError first kafka' c := fun e he => (h e he).imp (fun _ hm => hk hm)

/-- What survives in the process when Kafka stores more. -/
theorem ProcessInv.mono (h : ProcessInv isError first kafka pr) (hk : kafka ⊆ kafka') :
    ProcessInv isError first kafka' pr where
  checkpoint := h.checkpoint.mono hk
  pending before s e after heq :=
    (h.pending before s e after heq).imp (fun _ ha => ha.imp hk (fun _ _ hm => Or.inr hm))
  connection n hn := (h.connection n hn).imp (fun _ ha =>
    ha.imp_left (fun hacc => hacc.imp hk (fun _ _ hm => Or.inr hm)))
  sending := h.sending
  fresh := h.fresh
  bounded := h.bounded
  outstanding := h.outstanding
  confirmed s hs e he := hk (h.confirmed s hs e he)

/-- The invariant of a process after losing its connection. -/
theorem ProcessInv.disconnect (h : ProcessInv isError first kafka pr) (running : Bool) :
    ProcessInv isError first kafka { pr with connection := none, sending := none, running := running } where
  checkpoint := h.checkpoint
  pending := h.pending
  connection n hn := absurd hn (by simp)
  sending n hn := absurd hn (by simp)
  fresh hf := ⟨(h.fresh hf).1, rfl, fun n e hn => absurd hn (by simp)⟩
  bounded := h.bounded
  outstanding := h.outstanding
  confirmed := h.confirmed

theorem processInv_start {c : Checkpoint} (h : Covered isError first kafka c) :
    ProcessInv isError first kafka { checkpoint := c } where
  checkpoint := h
  pending before s e after heq := absurd heq (by simp)
  connection n hn := absurd hn (by simp)
  sending n hn := absurd hn (by simp)
  fresh _ := ⟨rfl, rfl, fun n e hn => absurd hn (by simp)⟩
  bounded := by simp
  outstanding s e hs := absurd hs (by simp)
  confirmed s hs := absurd hs (by simp)

theorem ProcessInv.connect (h : ProcessInv isError first kafka pr) (hsend : pr.sending = none)
    {newest : Nat} (hjump : pr.checkpoint.lastEventId = none →
      FromFirst isError first newest (Accounted kafka pr.tracker.pending)) :
    ProcessInv isError first kafka
      { pr with connection := some (resumeAt pr.checkpoint newest) } where
  checkpoint := h.checkpoint
  pending := h.pending
  connection n hn := by
    obtain rfl := Option.some.inj hn
    unfold resumeAt
    cases hc : pr.checkpoint.lastEventId with
    | none => exact (hjump hc).imp (fun _ ha => Or.inl ha)
    | some e => exact (h.checkpoint e hc).imp (fun _ hm => Or.inl (Or.inl hm))
  sending n hn := absurd (hsend.symm.trans hn) (by simp)
  fresh hf := by
    refine ⟨(h.fresh hf).1, hsend, fun n e hn he => ?_⟩
    obtain rfl := Option.some.inj hn
    show resumeAt pr.checkpoint newest = e + 1
    unfold resumeAt
    rw [show pr.checkpoint.lastEventId = some e from he]
  bounded := h.bounded
  outstanding := h.outstanding
  confirmed := h.confirmed

/-! ## The first event -/

/-- From the first event received on, the range starts there: what a loaded checkpoint names lies before
    it. -/
theorem covered_first {c : Checkpoint} {n : Nat} (h : ∀ e, c.lastEventId = some e → n = e + 1) :
    Covered isError (some n) kafka c := by
  intro e he f hf x hle hlt
  obtain rfl := Option.some.inj hf
  have := h e he
  omega

theorem ProcessInv.firstEvent (h : ProcessInv isError none kafka pr) {n : Nat}
    (hn : pr.connection = some n) : ProcessInv isError (some n) kafka pr where
  checkpoint := covered_first (fun e he => (h.fresh rfl).2.2 n e hn he)
  pending before s e after heq := by
    rw [(h.fresh rfl).1] at heq
    exact absurd heq (by simp)
  connection m hm := by
    intro f hf x hle hlt
    rw [hn] at hm
    obtain rfl := Option.some.inj hm
    obtain rfl := Option.some.inj hf
    omega
  sending := h.sending
  fresh hf := absurd hf (by simp)
  bounded := h.bounded
  outstanding := h.outstanding
  confirmed := h.confirmed

/-- Handing the next event to `handle`. -/
theorem ProcessInv.receive {f : Nat} (h : ProcessInv isError (some f) kafka pr) {n : Nat}
    (hn : pr.connection = some n) (hsend : pr.sending = none) :
    ProcessInv isError (some f) kafka
      (Process.handle isError { pr with connection := some (n + 1) } n) := by
  have hbefore : ∀ e < n, f ≤ e → isError e = false → Accounted kafka pr.tracker.pending e := by
    intro e hlt hle herr
    rcases h.connection n hn f rfl e hle hlt herr with hacc | hs
    · exact hacc
    · rw [hsend] at hs
      exact absurd hs (by simp)
  unfold Process.handle
  by_cases herr : isError n = true
  · rw [if_pos herr]
    refine ⟨h.checkpoint, h.pending, ?_, fun m hm => absurd (hsend.symm.trans hm) (by simp),
      fun hf => absurd hf (by simp), h.bounded, h.outstanding, h.confirmed⟩
    intro m hm f' hf' e hle hlt hok
    obtain rfl := Option.some.inj hm
    obtain rfl := Option.some.inj hf'
    rcases Nat.lt_succ_iff_lt_or_eq.mp hlt with hlt' | rfl
    · exact Or.inl (hbefore e hlt' hle hok)
    · rw [herr] at hok
      exact absurd hok (by simp)
  · rw [if_neg herr]
    refine ⟨h.checkpoint, h.pending, ?_, ?_, fun hf => absurd hf (by simp), h.bounded, h.outstanding,
      h.confirmed⟩
    · intro m hm f' hf' e hle hlt hok
      obtain rfl := Option.some.inj hm
      obtain rfl := Option.some.inj hf'
      rcases Nat.lt_succ_iff_lt_or_eq.mp hlt with hlt' | rfl
      · exact Or.inl (hbefore e hlt' hle hok)
      · exact Or.inr rfl
    · intro m hm
      obtain rfl := Option.some.inj hm
      rfl

/-- The producer takes the message: it joins the tracker behind everything sent before it. -/
theorem ProcessInv.accept (h : ProcessInv isError first kafka pr) {event : Nat}
    (hsend : pr.sending = some event) :
    ProcessInv isError first kafka { pr with
      sending := none
      seq := pr.seq + 1
      outstanding := pr.outstanding ++ [(pr.seq + 1, event)]
      tracker := pr.tracker.register (pr.seq + 1) (some event) } := by
  obtain ⟨hpend, hconf, hout⟩ := h.bounded
  have hreg : (pr.tracker.register (pr.seq + 1) (some event)).pending =
      pr.tracker.pending ++ [(pr.seq + 1, some event)] := rfl
  have hacc : ∀ n, pr.connection = some n → FromFirst isError first n (Accounted kafka
      (pr.tracker.pending ++ [(pr.seq + 1, some event)])) := by
    intro n hn
    refine (h.connection n hn).imp (fun e he => ?_)
    rcases he with ha | hs
    · exact ha.imp (Finset.Subset.refl _) (fun _ _ hm => Or.inr (List.mem_append_left _ hm))
    · rw [hsend] at hs
      obtain rfl := Option.some.inj hs
      exact Or.inr ⟨_, List.mem_append_right _ (List.mem_singleton_self _)⟩
  refine ⟨h.checkpoint, ?_, ?_, fun n hn => absurd hn (by simp), ?_, ?_, ?_, ?_⟩
  · intro before s e after heq
    change pr.tracker.pending ++ [(pr.seq + 1, some event)] = before ++ (s, some e) :: after at heq
    rcases List.eq_nil_or_concat after with rfl | ⟨after', x, rfl⟩
    · -- the new message: everything before its event is accounted for on this connection
      obtain ⟨rfl, hlast⟩ := List.append_inj' heq rfl
      obtain ⟨hs, he⟩ := Prod.mk.inj (List.singleton_inj.mp hlast)
      obtain rfl := Option.some.inj he
      rw [← hs]
      exact hacc _ (h.sending event hsend)
    · rw [List.concat_eq_append, ← List.cons_append, ← List.append_assoc] at heq
      obtain ⟨hinit, _⟩ := List.append_inj' heq rfl
      exact h.pending before s e after' hinit
  · intro n hn
    exact (hacc n hn).imp (fun _ ha => Or.inl ha)
  · intro hf
    have := (h.fresh hf).2.1
    rw [hsend] at this
    exact absurd this (by simp)
  · refine ⟨?_, ?_, ?_⟩
    · intro x hx
      rcases List.mem_append.mp hx with hx' | hx'
      · exact Nat.le_succ_of_le (hpend x hx')
      · rw [List.mem_singleton.mp hx']
    · exact fun s hs => Nat.le_succ_of_le (hconf s hs)
    · intro x hx
      rcases List.mem_append.mp hx with hx' | hx'
      · exact Nat.le_succ_of_le (hout x hx')
      · rw [List.mem_singleton.mp hx']
  · intro s e hs id hid
    rcases List.mem_append.mp hs with hs' | hs' <;> rcases List.mem_append.mp hid with hid' | hid'
    · exact h.outstanding s e hs' id hid'
    · have := hout _ hs'
      rw [(Prod.mk.inj (List.mem_singleton.mp hid')).1] at this
      omega
    · have := hpend _ hid'
      rw [(Prod.mk.inj (List.mem_singleton.mp hs')).1] at this
      omega
    · rw [(Prod.mk.inj (List.mem_singleton.mp hs')).2, (Prod.mk.inj (List.mem_singleton.mp hid')).2]
  · intro s hs e he
    rcases List.mem_append.mp he with he' | he'
    · exact h.confirmed s hs e he'
    · have := hconf s hs
      rw [(Prod.mk.inj (List.mem_singleton.mp he')).1] at this
      omega

/-! ## Callbacks -/

theorem ProcessInv.settle (h : ProcessInv isError first kafka pr) (seq event : Nat) :
    ProcessInv isError first kafka (pr.settle seq event) :=
  { h with
    bounded := ⟨h.bounded.1, h.bounded.2.1, fun x hx => h.bounded.2.2 x (List.mem_of_mem_erase hx)⟩
    outstanding := fun s e hs => h.outstanding s e (List.mem_of_mem_erase hs) }

/-- **A confirmation moves the checkpoint over confirmed events only.** The checkpoint it may save is the
    one it leaves. -/
theorem ProcessInv.confirm (h : ProcessInv isError first kafka pr) {seq event : Nat}
    (hout : (seq, event) ∈ pr.outstanding) (timer : Bool) :
    ProcessInv isError first (insert event kafka) (onDelivery (pr.settle seq event) seq timer).1 ∧
      (first = none → (onDelivery (pr.settle seq event) seq timer).1.checkpoint.lastEventId =
        pr.checkpoint.lastEventId) := by
  obtain ⟨taken, hsplit, hmem, hsub, hid, _, hseq, hconn, hsend, houts⟩ :=
    onDelivery_spec (pr.settle seq event) seq timer
  have hset := h.settle seq event
  change pr.tracker.pending = _ at hsplit
  change ∀ x ∈ taken, x.1 ∈ insert seq pr.tracker.confirmed at hmem
  change _ ⊆ insert seq pr.tracker.confirmed at hsub
  change _ = (lastId taken).or pr.checkpoint.lastEventId at hid
  have hkafka : kafka ⊆ insert event kafka := Finset.subset_insert _ _
  -- a message whose sequence number is confirmed now is in Kafka now
  have hstored : ∀ s e, (s, some e) ∈ pr.tracker.pending → s ∈ insert seq pr.tracker.confirmed →
      e ∈ insert event kafka := by
    intro s e hp hs
    rcases Finset.mem_insert.mp hs with rfl | hs'
    · obtain rfl := Option.some.inj (h.outstanding s event hout (some e) hp)
      exact Finset.mem_insert_self _ _
    · exact hkafka (h.confirmed s hs' e hp)
  have htaken : ∀ s e, (s, some e) ∈ taken → e ∈ insert event kafka := fun s e hm =>
    hstored s e (hsplit ▸ List.mem_append_left _ hm) (hmem _ hm)
  have hmove : ∀ s e, (s, some e) ∈ pr.tracker.pending → e ∈ insert event kafka ∨
      (s, some e) ∈ (onDelivery (pr.settle seq event) seq timer).1.tracker.pending := by
    intro s e hp
    rw [hsplit, List.mem_append] at hp
    exact hp.imp (htaken s e) id
  have hpend : ∀ x ∈ (onDelivery (pr.settle seq event) seq timer).1.tracker.pending,
      x ∈ pr.tracker.pending := fun x hx => hsplit ▸ List.mem_append_right _ hx
  refine ⟨⟨?_, ?_, ?_, ?_, ?_, ?_, ?_, ?_⟩, ?_⟩
  · intro e he
    rw [hid] at he
    cases hlast : lastId taken with
    | none =>
        rw [hlast, Option.none_or] at he
        exact (h.checkpoint e he).imp (fun _ hm => hkafka hm)
    | some x =>
        rw [hlast, Option.some_or] at he
        obtain rfl := Option.some.inj he
        obtain ⟨before, s, after, rfl⟩ := lastId_eq_some hlast
        rw [List.append_assoc, List.cons_append] at hsplit
        refine (h.pending before s x _ hsplit).imp (fun e he => ?_)
        rcases he with hk | ⟨s', hs'⟩
        · exact hkafka hk
        · refine htaken s' e ?_
          rcases List.mem_append.mp hs' with hb | hb
          · exact List.mem_append_left _ hb
          · rw [List.mem_singleton.mp hb]
            exact List.mem_append_right _ List.mem_cons_self
  · intro before s e after heq
    rw [heq, ← List.append_assoc] at hsplit
    refine (h.pending (taken ++ before) s e after hsplit).imp (fun x hx => ?_)
    refine hx.imp hkafka (fun s' e' hm => ?_)
    rw [List.append_assoc] at hm
    rcases List.mem_append.mp hm with hm' | hm'
    · exact Or.inl (htaken s' e' hm')
    · exact Or.inr hm'
  · intro n hn
    rw [hconn] at hn
    rw [hsend]
    exact (h.connection n hn).imp (fun _ ha => ha.imp_left (fun hacc => hacc.imp hkafka hmove))
  · rw [hsend, hconn]
    exact h.sending
  · intro hf
    obtain ⟨hnil, hs, hc⟩ := h.fresh hf
    rw [hnil] at hsplit
    obtain ⟨htnil, hpnil⟩ := List.append_eq_nil_iff.mp hsplit.symm
    refine ⟨hpnil, hsend.trans hs, fun n e hn he => hc n e (hconn ▸ hn) ?_⟩
    rw [hid, htnil] at he
    exact he
  · rw [hseq]
    refine ⟨fun x hx => h.bounded.1 x (hpend x hx), fun s hs => ?_, ?_⟩
    · rcases Finset.mem_insert.mp (hsub hs) with rfl | hs'
      · exact h.bounded.2.2 _ hout
      · exact h.bounded.2.1 s hs'
    · rw [houts]
      exact hset.bounded.2.2
  · rw [houts]
    exact fun s e hs id hid' => hset.outstanding s e hs id (hpend _ hid')
  · intro s hs e he
    exact hstored s e (hpend _ he) (hsub hs)
  · intro hf
    rw [(h.fresh hf).1] at hsplit
    rw [hid, (List.append_eq_nil_iff.mp hsplit.symm).1]
    rfl

/-! ## One step and all runs -/

theorem Inv.put (h : Inv isError w first) {pr' : Process}
    (hpr : ProcessInv isError first w.kafka pr')
    (hfresh : first = none → pr'.checkpoint.lastEventId = w.file.lastEventId) :
    Inv isError (w.put pr') first where
  file := h.file
  process _ hp := Option.some.inj hp ▸ hpr
  fresh hf _ hp := Option.some.inj hp ▸ hfresh hf

theorem Inv.lose (h : Inv isError w first) : Inv isError { w with process := none } first where
  file := h.file
  process _ hp := absurd hp (by simp)
  fresh _ _ hp := absurd hp (by simp)

/-- The first event received fixes where the range starts. -/
theorem Inv.receive (h : Inv isError w first) (hpr : w.process = some pr) {n : Nat}
    (hn : pr.connection = some n) (hsend : pr.sending = none) :
    Inv isError (w.put (Process.handle isError { pr with connection := some (n + 1) } n))
      (first.or (some n)) := by
  have hinv := h.process pr hpr
  cases first with
  | some f => exact h.put (hinv.receive hn hsend) (fun hf => absurd hf (by simp))
  | none =>
      have hfile : Covered isError (some n) w.kafka w.file := by
        refine covered_first (fun e he => ?_)
        rw [← h.fresh rfl pr hpr] at he
        exact (hinv.fresh rfl).2.2 n e hn he
      refine ⟨hfile, fun pr' hp => ?_, fun hf => absurd hf (by simp)⟩
      exact Option.some.inj hp ▸ (hinv.firstEvent hn).receive hn hsend

theorem Inv.step (h : Inv isError w first) {a : Action} {w' : World}
    (hok : NoJump isError (w, first) a) (hstep : step isError w a = some w') :
    Inv isError w' (watch first w a) := by
  have hwatch : received w a = none → watch first w a = first := by
    intro hr
    rw [watch, hr, Option.or_none]
  cases a with
  | start =>
      rw [hwatch rfl]
      simp only [Ingestor.step] at hstep
      split at hstep
      · obtain rfl := Option.some.inj hstep
        exact h.put (processInv_start h.file) (fun _ => rfl)
      · exact absurd hstep (by simp)
  | connect newest =>
      rw [hwatch rfl]
      simp only [Ingestor.step] at hstep
      split at hstep
      · next pr hpr =>
          split at hstep
          · next hc =>
              obtain rfl := Option.some.inj hstep
              exact h.put ((h.process pr hpr).connect hc.2.2 (hok pr hpr)) (fun hf => h.fresh hf pr hpr)
          · exact absurd hstep (by simp)
      · exact absurd hstep (by simp)
  | receive =>
      simp only [Ingestor.step] at hstep
      split at hstep
      · next pr hpr =>
          split at hstep
          · next n hn hsend =>
              obtain rfl := Option.some.inj hstep
              have hr : received w .receive = some n := by simp [received, hpr, hn]
              rw [watch, hr]
              exact h.receive hpr hn hsend
          · exact absurd hstep (by simp)
      · exact absurd hstep (by simp)
  | accept =>
      rw [hwatch rfl]
      simp only [Ingestor.step] at hstep
      split at hstep
      · next pr hpr =>
          split at hstep
          · next event hsend =>
              obtain rfl := Option.some.inj hstep
              exact h.put ((h.process pr hpr).accept hsend) (fun hf => h.fresh hf pr hpr)
          · exact absurd hstep (by simp)
      · exact absurd hstep (by simp)
  | giveUp =>
      rw [hwatch rfl]
      simp only [Ingestor.step] at hstep
      split at hstep
      · next pr hpr =>
          split at hstep
          · obtain rfl := Option.some.inj hstep
            exact h.put ((h.process pr hpr).disconnect false) (fun hf => h.fresh hf pr hpr)
          · exact absurd hstep (by simp)
      · exact absurd hstep (by simp)
  | store seq event =>
      rw [hwatch rfl]
      simp only [Ingestor.step] at hstep
      split at hstep
      · next pr hpr =>
          split at hstep
          · obtain rfl := Option.some.inj hstep
            refine ⟨h.file.mono (Finset.subset_insert _ _), fun pr' hp => ?_, h.fresh⟩
            exact (h.process pr' hp).mono (Finset.subset_insert _ _)
          · exact absurd hstep (by simp)
      · exact absurd hstep (by simp)
  | confirm seq event timer =>
      rw [hwatch rfl]
      simp only [Ingestor.step] at hstep
      split at hstep
      · next pr hpr =>
          split at hstep
          · next hout =>
              obtain rfl := Option.some.inj hstep
              obtain ⟨hinv, hsame⟩ := (h.process pr hpr).confirm hout timer
              obtain ⟨_, _, _, _, _, hsaved, _⟩ := onDelivery_spec (pr.settle seq event) seq timer
              refine ⟨?_, fun _ hp => Option.some.inj hp ▸ hinv, fun hf pr' hp => ?_⟩
              · rcases hsaved with hs | hs
                · simp only [hs, Option.getD_none]
                  exact h.file.mono (Finset.subset_insert _ _)
                · simp only [hs, Option.getD_some]
                  exact hinv.checkpoint
              · obtain rfl := Option.some.inj hp
                rcases hsaved with hs | hs
                · simp only [hs, Option.getD_none]
                  exact (hsame hf).trans (h.fresh hf pr hpr)
                · simp only [hs, Option.getD_some]
          · exact absurd hstep (by simp)
      · exact absurd hstep (by simp)
  | fail seq event =>
      rw [hwatch rfl]
      simp only [Ingestor.step] at hstep
      split at hstep
      · next pr hpr =>
          split at hstep
          · obtain rfl := Option.some.inj hstep
            exact h.put { (h.process pr hpr).settle seq event with } (fun hf => h.fresh hf pr hpr)
          · exact absurd hstep (by simp)
      · exact absurd hstep (by simp)
  | disconnect =>
      rw [hwatch rfl]
      simp only [Ingestor.step] at hstep
      split at hstep
      · next pr hpr =>
          split at hstep
          · obtain rfl := Option.some.inj hstep
            exact h.put ((h.process pr hpr).disconnect pr.running) (fun hf => h.fresh hf pr hpr)
          · exact absurd hstep (by simp)
      · exact absurd hstep (by simp)
  | stop =>
      rw [hwatch rfl]
      simp only [Ingestor.step] at hstep
      split at hstep
      · next pr hpr =>
          obtain rfl := Option.some.inj hstep
          exact h.put { h.process pr hpr with } (fun hf => h.fresh hf pr hpr)
      · exact absurd hstep (by simp)
  | exit =>
      rw [hwatch rfl]
      simp only [Ingestor.step] at hstep
      split at hstep
      · next pr hpr =>
          split at hstep
          · obtain rfl := Option.some.inj hstep
            refine ⟨?_, fun _ hp => absurd hp (by simp), fun _ _ hp => absurd hp (by simp)⟩
            show Covered isError first w.kafka (if pr.unsaved = 0 then w.file else pr.checkpoint)
            split
            · exact h.file
            · exact (h.process pr hpr).checkpoint
          · exact absurd hstep (by simp)
      · exact absurd hstep (by simp)
  | crash =>
      rw [hwatch rfl]
      simp only [Ingestor.step] at hstep
      split at hstep
      · obtain rfl := Option.some.inj hstep
        exact h.lose
      · exact absurd hstep (by simp)

/-- The ingestor with the first event remembered beside it. -/
abbrev watched (isError : Nat → Bool) : World × First → Action → Option (World × First) :=
  monitored (step isError) watch

theorem inv_init (c : Checkpoint) : Inv isError { file := c } none where
  file e _ f hf := absurd hf (by simp)
  process pr hp := absurd hp (by simp)
  fresh _ pr hp := absurd hp (by simp)

theorem inv_run {c : Checkpoint} {acts : List Action} {s : World × First}
    (hok : Always (watched isError) (NoJump isError) ({ file := c }, none) acts)
    (hrun : run (watched isError) ({ file := c }, none) acts = some s) : Inv isError s.1 s.2 := by
  refine run_state_invariant (I := fun s => Inv isError s.1 s.2) (inv_init c) ?_ hok hrun
  intro s a s' hs hguard hstep
  obtain ⟨hw, hf⟩ := monitored_eq_some.mp hstep
  rw [hf]
  exact hs.step hguard hw

/-- **No gap behind the checkpoint.** In every run in which no connection opened with an empty checkpoint
    jumps over an event, every event from the first one handled to the one the checkpoint names, in the
    file or in memory, is in Kafka unless it is an error event. -/
theorem no_gap {c : Checkpoint} {acts : List Action} {s : World × First}
    (hok : Always (watched isError) (NoJump isError) ({ file := c }, none) acts)
    (hrun : run (watched isError) ({ file := c }, none) acts = some s) {f e : Nat}
    (hf : s.2 = some f)
    (he : s.1.file.lastEventId = some e ∨
      ∃ pr, s.1.process = some pr ∧ pr.checkpoint.lastEventId = some e) :
    ∀ n, f ≤ n → n ≤ e → isError n = false → n ∈ s.1.kafka := by
  have h := inv_run hok hrun
  intro n hfn hne herr
  rcases he with he | ⟨pr, hpr, he⟩
  · exact h.file e he f hf n hfn (Nat.lt_succ_of_le hne) herr
  · exact (h.process pr hpr).checkpoint e he f hf n hfn (Nat.lt_succ_of_le hne) herr

/-! ## Two runs -/

/-- A stream whose event 12 is an error event. -/
def errorAtTwelve : Nat → Bool := fun n => n == 12

/-- Confirmations out of order, a reconnect, a crash and a restart from the file. -/
def crashRun : List Action := [.start, .connect 10, .receive, .accept, .receive, .accept,
  .confirm 2 11 false, .confirm 1 10 true, .receive, .receive, .accept, .disconnect, .connect 99,
  .receive, .receive, .accept, .crash, .start, .connect 99, .receive, .receive, .accept,
  .confirm 1 13 true]

/-- The error event is the only one not in Kafka. -/
theorem no_gap_after_crash :
    ∃ s, run (watched errorAtTwelve) ({}, none) crashRun = some s ∧
      s.1.file.lastEventId = some 13 ∧
      ∀ n, 10 ≤ n → n ≤ 13 → errorAtTwelve n = false → n ∈ s.1.kafka := by
  have hrun : (run (watched errorAtTwelve) ({}, none) crashRun).isSome = true := by decide +kernel
  have hok : Always (watched errorAtTwelve) (NoJump errorAtTwelve) ({}, none) crashRun := by
    decide +kernel
  have hf : ((run (watched errorAtTwelve) ({}, none) crashRun).get hrun).2 = some 10 := by
    decide +kernel +revert
  have he : ((run (watched errorAtTwelve) ({}, none) crashRun).get hrun).1.file.lastEventId =
      some 13 := by
    decide +kernel +revert
  exact ⟨_, (Option.some_get hrun).symm, he,
    no_gap hok (Option.some_get hrun).symm hf (Or.inl he)⟩

/-- The connection is lost before anything is confirmed; the next one starts at the newest event. -/
def reconnectRun : List Action := [.start, .connect 10, .receive, .accept, .disconnect, .connect 20,
  .receive, .accept, .confirm 1 10 true, .confirm 2 20 true]

/-- Once both messages are confirmed the checkpoint names event 20, though event 15 was never received. -/
theorem gap_after_reconnect :
    ∃ s, run (watched (fun _ => false)) ({}, none) reconnectRun = some s ∧ s.2 = some 10 ∧
      s.1.file.lastEventId = some 20 ∧ 15 ∉ s.1.kafka := by
  have hrun : (run (watched (fun _ => false)) ({}, none) reconnectRun).isSome = true := by
    decide +kernel
  refine ⟨_, (Option.some_get hrun).symm, ?_, ?_, ?_⟩ <;> decide +kernel +revert

end Ingestor
end Wikistream
