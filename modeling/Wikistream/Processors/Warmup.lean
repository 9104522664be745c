import Wikistream.Common.Records
import Wikistream.Lib.Log
import Wikistream.Processors.Dedup

/-!
# `Processors.Warmup` — rebuilding state from a partition's recent history

`PartitionReplayer.replay` reads `[window start, until_offset)` of one partition into a callback. What
Kafka and the clock answer during one replay is an `Answers`; a poll that claims a record hands out the
next visible one of the log or nothing.

## Contents
- **The replay.** `anchorTime`, `startOffset`, `replayFrom` (the loop), `replay`.
- **`CacheWarmer`.** `load` is the callback that fills the cleaner's cache.
- **What a replay can do** (`replay_sequence`, `replay_induction`): it runs the callback on messages of the partition
  from the start offset up to `until_offset`, one after the other, so a property the callback keeps on those survives
  it.
- **What a replay does when Kafka answers truthfully** (`Truthful`, `replay_truthful`): it runs the callback on
  the records of the window, in order; `mem_replayed` says which those are.
-/

namespace Wikistream
namespace Warmup

open Py Lib Models Dedup

/-- `window_ms` and `max_records` of a replayer. -/
structure Config where
  windowMs : Int := hourMs
  maxRecords : Nat := 200000

/-- What a `poll` of the replaying consumer comes back with. -/
inductive Poll
  | timeout
  | eof
  | error
  | record (offset : Nat)

/-- What is answered during the replay of one partition: its low watermark, the poll for the anchor, the
    clock, `offsets_for_times`, the polls of the loop, and the clock when a record is loaded. -/
structure Answers where
  low : Nat := 0
  anchor : Poll := .timeout
  nowMs : Int := 0
  offsetForTime : Int → Int := fun _ => -1
  polls : List Poll := []
  loadMs : Nat → Int := fun _ => 0

/-- What `replay` reports. -/
structure WarmupResult where
  loaded : Nat := 0
  skipped : Nat := 0
  fromOffset : Int := -1
  untilOffset : Nat

def WarmupResult.count (r : WarmupResult) (used : Bool) : WarmupResult :=
  if used then { r with loaded := r.loaded + 1 } else { r with skipped := r.skipped + 1 }

/-- The message a poll hands out, for a consumer that stands at `fetch`. -/
def delivered {ρ : Type} (log : Log ρ) (p fetch o : Nat) : Option (Message ρ) :=
  if NextVisible log p fetch o then (log p o).map (Message.mk p o) else none

theorem delivered_eq_some {ρ : Type} {log : Log ρ} {p fetch o : Nat} {m : Message ρ}
    (h : delivered log p fetch o = some m) :
    m.partition = p ∧ m.offset = o ∧ fetch ≤ o ∧ Delivers log m := by
  unfold delivered at h
  split at h
  · next hnext =>
      obtain ⟨r, hr, rfl⟩ := Option.map_eq_some_iff.mp h
      exact ⟨rfl, rfl, hnext.1, hr⟩
  · exact absurd h (by simp)

/-! ## The replay -/

/-- `anchor_time`: the timestamp of the last committed record, or the clock. -/
def anchorTime (log : Log KafkaRecord) (p untilOffset : Nat) (answers : Answers) : Int :=
  match answers.anchor with
  | .record o =>
      match delivered log p (untilOffset - 1) o with
      | some m => if 0 < m.record.timestamp then m.record.timestamp else answers.nowMs
      | none => answers.nowMs
  | _ => answers.nowMs

/-- `start_offset`. -/
def startOffset (cfg : Config) (log : Log KafkaRecord) (p untilOffset : Nat) (answers : Answers) :
    Option Nat :=
  if untilOffset ≤ answers.low then none
  else
    let found := answers.offsetForTime (anchorTime log p untilOffset answers - cfg.windowMs)
    if found < 0 then none
    else
      let start := max (max found.toNat answers.low) (untilOffset - cfg.maxRecords)
      if start < untilOffset then some start else none

/-- The loop of `replay`, for a consumer that stands at `fetch`. Running out of polls is a timeout. -/
def replayFrom {τ ε : Type} (log : Log KafkaRecord) (p untilOffset : Nat) (kafkaError : ε)
    (onMessage : τ → Message KafkaRecord → Except ε (τ × Bool)) :
    (fetch : Nat) → List Poll → τ × WarmupResult → Except ε (τ × WarmupResult)
  | _, [], t => .ok t
  | _, .timeout :: _, t => .ok t
  | _, .eof :: _, t => .ok t
  | _, .error :: _, _ => .error kafkaError
  | fetch, .record o :: polls, t =>
      match delivered log p fetch o with
      -- every offset left is compacted or beyond the end: the poll has no such record
      | none => .ok t
      | some m =>
          if untilOffset ≤ m.offset then .ok t
          else
            match onMessage t.1 m with
            | .error e => .error e
            | .ok (t', used) =>
                replayFrom log p untilOffset kafkaError onMessage (o + 1) polls (t', t.2.count used)

/-- `replay`, with the state the callback works on. -/
def replay {τ ε : Type} (cfg : Config) (log : Log KafkaRecord) (kafkaError : ε)
    (onMessage : τ → Message KafkaRecord → Except ε (τ × Bool)) (p untilOffset : Nat) (answers : Answers)
    (t : τ) : Except ε (τ × WarmupResult) :=
  if untilOffset = 0 then .ok (t, { untilOffset })
  else
    match startOffset cfg log p untilOffset answers with
    | none => .ok (t, { untilOffset })
    | some start =>
        replayFrom log p untilOffset kafkaError onMessage start answers.polls
          (t, { untilOffset, fromOffset := start })

/-! ## `CacheWarmer` -/

/-- `event_id_of(parse_raw(msg.value()))`. -/
def recordId (host : Host) (r : KafkaRecord) : Except Exc Str := do
  let raw ← parseRaw host r.payload
  eventIdOf raw

/-- `_load`. -/
def load (host : Host) (answers : Answers) (cache : DedupCache) (m : Message KafkaRecord) :
    Except Exc (DedupCache × Bool) :=
  match recordId host m.record with
  -- a record that does not parse has no id to remember
  | .error (.parseError _) => .ok (cache, false)
  | .error e => .error e
  | .ok eventId =>
      -- a record without a timestamp is loaded at the time of the replay
      let time := if 0 < m.record.timestamp then m.record.timestamp else answers.loadMs m.offset
      .ok ((cache.isNew eventId time).2, true)

/-! ## What a replay can do -/

section Induction

variable {τ ε : Type} {log : Log KafkaRecord} {p untilOffset : Nat} {kafkaError : ε}
variable {onMessage : τ → Message KafkaRecord → Except ε (τ × Bool)} {J : τ → Nat → Prop}

theorem startOffset_le {cfg : Config} {answers : Answers} {start : Nat}
    (h : startOffset cfg log p untilOffset answers = some start) : start ≤ untilOffset := by
  unfold startOffset at h
  split at h
  · exact absurd h (by simp)
  · dsimp only at h
    split at h
    · exact absurd h (by simp)
    · split at h
      · next hlt => exact Option.some.inj h ▸ Nat.le_of_lt hlt
      · exact absurd h (by simp)

/-- `J t o` may say that nothing from the offset `o` on was replayed into `t`. -/
theorem replayFrom_sequence (hmono : ∀ t o o', J t o → o ≤ o' → J t o')
    (hstep : ∀ t m r, J t m.offset → m.partition = p → m.offset < untilOffset → Delivers log m →
      onMessage t m = .ok r → J r.1 (m.offset + 1))
    {fetch : Nat} {polls : List Poll} {t r : τ × WarmupResult} (ht : J t.1 fetch) (hfetch : fetch ≤ untilOffset)
    (h : replayFrom log p untilOffset kafkaError onMessage fetch polls t = .ok r) : J r.1 untilOffset := by
  induction polls generalizing fetch t with
  | nil => exact Except.ok.inj h ▸ hmono _ _ _ ht hfetch
  | cons poll polls ih =>
      cases poll with
      | timeout => exact Except.ok.inj h ▸ hmono _ _ _ ht hfetch
      | eof => exact Except.ok.inj h ▸ hmono _ _ _ ht hfetch
      | error => exact absurd h (by simp [replayFrom])
      | record o =>
          rw [replayFrom] at h
          split at h
          · exact Except.ok.inj h ▸ hmono _ _ _ ht hfetch
          · next m hm =>
              obtain ⟨hp, rfl, hle, hdel⟩ := delivered_eq_some hm
              split at h
              · exact Except.ok.inj h ▸ hmono _ _ _ ht hfetch
              · next hlt =>
                  split at h
                  · exact absurd h (by simp)
                  · next u used hu =>
                      have hnext := hstep t.1 m _ (hmono _ _ _ ht hle) hp (Nat.lt_of_not_le hlt) hdel hu
                      exact ih (t := (u, _)) hnext (Nat.lt_of_not_le hlt) h

/-- **The replay rule.** The replay comes to the partition's records below `until_offset` one after the other. -/
theorem replay_sequence {cfg : Config} (hmono : ∀ t o o', J t o → o ≤ o' → J t o')
    (hstep : ∀ t m r, J t m.offset → m.partition = p → m.offset < untilOffset → Delivers log m →
      onMessage t m = .ok r → J r.1 (m.offset + 1))
    {answers : Answers} {t : τ} {r : τ × WarmupResult} (ht : J t 0)
    (h : replay cfg log kafkaError onMessage p untilOffset answers t = .ok r) : J r.1 untilOffset := by
  unfold replay at h
  split at h
  · exact Except.ok.inj h ▸ hmono _ _ _ ht (Nat.zero_le _)
  · split at h
    · exact Except.ok.inj h ▸ hmono _ _ _ ht (Nat.zero_le _)
    · next start hstart =>
        exact replayFrom_sequence (t := (t, _)) hmono hstep (hmono _ _ _ ht (Nat.zero_le _)) (startOffset_le hstart) h

/-- What the callback keeps on the partition's records below `until_offset`, the replay keeps. -/
theorem replay_induction {cfg : Config} {I : τ → Prop}
    (hstep : ∀ t m r, I t → m.partition = p → m.offset < untilOffset → Delivers log m →
      onMessage t m = .ok r → I r.1)
    {answers : Answers} {t : τ} {r : τ × WarmupResult} (ht : I t)
    (h : replay cfg log kafkaError onMessage p untilOffset answers t = .ok r) : I r.1 :=
  replay_sequence (J := fun t _ => I t) (fun _ _ _ h _ => h) hstep ht h

end Induction

/-! ## What a replay does when Kafka answers truthfully -/

/-- `o` is the offset of the first record at or after the time. -/
def FirstSince (log : Log KafkaRecord) (p : Nat) (time : Int) (o : Nat) : Prop :=
  (∃ r, log p o = some r ∧ time ≤ r.timestamp) ∧ ∀ x r, x < o → log p x = some r → r.timestamp < time

/-- The answers are those of a partition that holds `log`, and no poll is cut short before the records below
    `until_offset` have been handed out. -/
structure Truthful (cfg : Config) (log : Log KafkaRecord) (p untilOffset : Nat) (answers : Answers) :
    Prop where
  low : ∀ o, o < answers.low → log p o = none
  anchor : ∀ r, log p (untilOffset - 1) = some r → answers.anchor = .record (untilOffset - 1)
  found : ∀ time, (answers.offsetForTime time < 0 ∧
      ∀ o r, o < untilOffset → log p o = some r → r.timestamp < time) ∨
    ∃ o : Nat, answers.offsetForTime time = o ∧ FirstSince log p time o
  polls : ∀ start, startOffset cfg log p untilOffset answers = some start →
    ∃ rest, answers.polls = (visible log p start untilOffset).map (fun m => .record m.offset) ++ rest ∧
      rest.head? ≠ some .error

/-- The records from the start offset up to `until_offset`. -/
def replayed (cfg : Config) (log : Log KafkaRecord) (p untilOffset : Nat) (answers : Answers) :
    List (Message KafkaRecord) :=
  match startOffset cfg log p untilOffset answers with
  | some start => visible log p start untilOffset
  | none => []

/-- Run the callback on the messages. -/
def callEach {τ ε : Type} (onMessage : τ → Message KafkaRecord → Except ε (τ × Bool)) :
    τ → List (Message KafkaRecord) → Except ε τ
  | t, [] => .ok t
  | t, m :: ms =>
      match onMessage t m with
      | .error e => .error e
      | .ok (t', _) => callEach onMessage t' ms

section Truthful

variable {τ ε : Type} {cfg : Config} {log : Log KafkaRecord} {p untilOffset : Nat} {kafkaError : ε}
variable {onMessage : τ → Message KafkaRecord → Except ε (τ × Bool)} {answers : Answers}

/-- The end of the loop: nothing below `until_offset` is left. -/
theorem replayFrom_end {fetch : Nat} {rest : List Poll} (hnone : visible log p fetch untilOffset = [])
    (hrest : rest.head? ≠ some .error) (t : τ × WarmupResult) :
    replayFrom log p untilOffset kafkaError onMessage fetch rest t = .ok t := by
  cases rest with
  | nil => rfl
  | cons poll polls =>
      cases poll with
      | timeout => rfl
      | eof => rfl
      | error => exact absurd rfl hrest
      | record o =>
          rw [replayFrom]
          split
          · rfl
          · next m hm =>
              obtain ⟨hp, ho, hle, hdel⟩ := delivered_eq_some hm
              split
              · rfl
              · next hlt =>
                  -- the message would be one of the range
                  have hin : m ∈ visible log p fetch untilOffset :=
                    mem_visible.mpr ⟨hp, ho ▸ hle, Nat.lt_of_not_le hlt, hdel⟩
                  rw [hnone] at hin
                  exact absurd hin (by simp)

/-- The next message of a range is the one the poll hands out. -/
theorem delivered_of_visible {fetch : Nat} {m : Message KafkaRecord} {ms : List (Message KafkaRecord)}
    (h : visible log p fetch untilOffset = m :: ms) : delivered log p fetch m.offset = some m := by
  have hm : m ∈ visible log p fetch untilOffset := h ▸ List.mem_cons_self
  obtain ⟨rfl, hle, hlt, hdel⟩ := mem_visible.mp hm
  have hnext : NextVisible log m.partition fetch m.offset := by
    refine ⟨hle, fun x hx hfetch => ?_⟩
    rw [Option.isNone_iff_eq_none]
    by_contra hsome
    obtain ⟨r, hr⟩ := Option.ne_none_iff_exists'.mp hsome
    -- an earlier visible record would stand in front of `m`
    have hx' : (⟨m.partition, x, r⟩ : Message KafkaRecord) ∈ m :: ms :=
      h ▸ mem_visible.mpr ⟨rfl, hfetch, hx.trans hlt, hr⟩
    rcases List.mem_cons.mp hx' with heq | hx'
    · have hoffset : x = m.offset := congrArg Message.offset heq
      exact absurd hoffset (Nat.ne_of_lt hx)
    · have hsorted := h ▸ sorted_visible log m.partition fetch untilOffset
      have := (List.pairwise_cons.mp hsorted).1 _ hx'
      exact absurd (this.trans hx) (Nat.lt_irrefl _)
  unfold delivered
  rw [if_pos hnext, show log m.partition m.offset = some m.record from hdel]
  rfl

/-- What is left of a range behind its first message. -/
theorem visible_tail {fetch : Nat} {m : Message KafkaRecord} {ms : List (Message KafkaRecord)}
    (h : visible log p fetch untilOffset = m :: ms) : visible log p (m.offset + 1) untilOffset = ms := by
  have hsorted := h ▸ sorted_visible log p fetch untilOffset
  obtain ⟨hfirst, hrest⟩ := List.pairwise_cons.mp hsorted
  refine (eq_visible hrest (fun x => ?_)).symm
  have hx : x ∈ m :: ms ↔ _ := h ▸ mem_visible
  have hm := mem_visible.mp (h ▸ List.mem_cons_self : m ∈ visible log p fetch untilOffset)
  constructor
  · intro hms
    obtain ⟨hp, _, hlt, hdel⟩ := hx.mp (List.mem_cons_of_mem _ hms)
    exact ⟨hp, hfirst x hms, hlt, hdel⟩
  · rintro ⟨hp, hle, hlt, hdel⟩
    rcases List.mem_cons.mp (hx.mpr ⟨hp, hm.2.1.trans (Nat.le_of_succ_le hle), hlt, hdel⟩) with rfl | hms
    · exact absurd hle (Nat.not_succ_le_self _)
    · exact hms

theorem replayFrom_visible {fetch : Nat} {rest : List Poll} {ms : List (Message KafkaRecord)}
    (hms : visible log p fetch untilOffset = ms) (hrest : rest.head? ≠ some .error)
    (t : τ × WarmupResult) :
    (replayFrom log p untilOffset kafkaError onMessage fetch
      (ms.map (fun m => .record m.offset) ++ rest) t).map Prod.fst = callEach onMessage t.1 ms := by
  induction ms generalizing fetch t with
  | nil =>
      show (replayFrom log p untilOffset kafkaError onMessage fetch rest t).map Prod.fst = .ok t.1
      rw [replayFrom_end hms hrest]
      rfl
  | cons m ms ih =>
      show (replayFrom log p untilOffset kafkaError onMessage fetch
        (.record m.offset :: (ms.map (fun m => .record m.offset) ++ rest)) t).map Prod.fst = _
      have hlt := (mem_visible.mp (hms ▸ List.mem_cons_self : m ∈ visible log p fetch untilOffset)).2.2.1
      simp only [replayFrom, delivered_of_visible hms, if_neg (Nat.not_le_of_lt hlt), callEach]
      cases onMessage t.1 m with
      | error e => rfl
      | ok r => exact ih (visible_tail hms) (r.1, t.2.count r.2)

/-- **A truthful replay** runs the callback on the records of the window. -/
theorem replay_truthful (h : Truthful cfg log p untilOffset answers) (t : τ) :
    (replay cfg log kafkaError onMessage p untilOffset answers t).map Prod.fst =
      callEach onMessage t (replayed cfg log p untilOffset answers) := by
  unfold replay replayed
  by_cases h0 : untilOffset = 0
  · subst h0
    rw [if_pos rfl]
    have hnone : startOffset cfg log p 0 answers = none := by
      unfold startOffset
      rw [if_pos (Nat.zero_le _)]
    rw [hnone]
    rfl
  · rw [if_neg h0]
    cases hstart : startOffset cfg log p untilOffset answers with
    | none => rfl
    | some start =>
        obtain ⟨rest, hpolls, hrest⟩ := h.polls start hstart
        dsimp only
        rw [hpolls]
        exact replayFrom_visible rfl hrest _

/-- The window ends at the time of the last committed record. -/
theorem anchorTime_eq (h : Truthful cfg log p untilOffset answers) {last : KafkaRecord}
    (hlast : log p (untilOffset - 1) = some last) (hstamp : 0 < last.timestamp) :
    anchorTime log p untilOffset answers = last.timestamp := by
  have hdelivered : delivered log p (untilOffset - 1) (untilOffset - 1) =
      some ⟨p, untilOffset - 1, last⟩ := by
    unfold delivered
    rw [if_pos ⟨Nat.le_refl _, fun x hx hle => absurd hle (Nat.not_le_of_lt hx)⟩, hlast]
    rfl
  unfold anchorTime
  rw [h.anchor last hlast]
  simp only [hdelivered, if_pos hstamp]

/-- The record lies in the window. -/
def InWindow (cfg : Config) (log : Log KafkaRecord) (p untilOffset : Nat) (answers : Answers)
    (r : KafkaRecord) : Prop := anchorTime log p untilOffset answers - cfg.windowMs ≤ r.timestamp

/-- Record timestamps do not decrease along the partition. -/
def TimeOrdered (log : Log KafkaRecord) (p : Nat) : Prop :=
  ∀ o x r r', o ≤ x → log p o = some r → log p x = some r' → r.timestamp ≤ r'.timestamp

/-- **Which records are replayed**: those of the window, when they are at most `max_records`. -/
theorem mem_replayed (h : Truthful cfg log p untilOffset answers) (hordered : TimeOrdered log p)
    (hcap : ∀ o r, o < untilOffset → log p o = some r → InWindow cfg log p untilOffset answers r →
      untilOffset - cfg.maxRecords ≤ o) {m : Message KafkaRecord} :
    m ∈ replayed cfg log p untilOffset answers ↔
      m.partition = p ∧ m.offset < untilOffset ∧ Delivers log m ∧
        InWindow cfg log p untilOffset answers m.record := by
  have hlow : ∀ o, log p o ≠ none → answers.low ≤ o := by
    intro o hsome
    by_contra hlt
    exact hsome (h.low o (Nat.lt_of_not_le hlt))
  have hvisible : ∀ {m : Message KafkaRecord}, m.partition = p → Delivers log m → log p m.offset = some m.record :=
    fun hp hdel => hp ▸ hdel
  unfold replayed startOffset
  by_cases hexpired : untilOffset ≤ answers.low
  · -- nothing below `untilOffset` is left in the partition
    rw [if_pos hexpired]
    refine iff_of_false (by simp) ?_
    rintro ⟨hp, hlt, hdel, _⟩
    have := hlow m.offset (by rw [hvisible hp hdel]; simp)
    omega
  rw [if_neg hexpired]
  dsimp only
  -- the broker finds no record of the window, or the first one that is as late
  rcases h.found (anchorTime log p untilOffset answers - cfg.windowMs) with ⟨hneg, hold⟩ | ⟨o, ho, hfirst⟩
  · rw [if_pos hneg]
    refine iff_of_false (by simp) ?_
    rintro ⟨hp, hlt, hdel, hwindow⟩
    exact absurd hwindow (Int.not_le.mpr (hold m.offset m.record hlt (hvisible hp hdel)))
  · rw [if_neg (by omega), ho, Int.toNat_natCast]
    have hmem : m ∈ visible log p (max (max o answers.low) (untilOffset - cfg.maxRecords)) untilOffset ↔
        m.partition = p ∧ m.offset < untilOffset ∧ Delivers log m ∧
          InWindow cfg log p untilOffset answers m.record := by
      rw [mem_visible]
      constructor
      · rintro ⟨hp, hle, hlt, hdel⟩
        obtain ⟨r, hr, hsince⟩ := hfirst.1
        exact ⟨hp, hlt, hdel,
          hsince.trans (hordered o m.offset r m.record (by omega) hr (hvisible hp hdel))⟩
      · rintro ⟨hp, hlt, hdel, hwindow⟩
        have hm := hvisible hp hdel
        have hlowm := hlow m.offset (by rw [hm]; simp)
        have hcapm := hcap m.offset m.record hlt hm hwindow
        -- the record is of the window, so it does not lie below the first one that is
        have hom : o ≤ m.offset := by
          by_contra hgt
          exact absurd hwindow (Int.not_le.mpr (hfirst.2 m.offset m.record (Nat.lt_of_not_le hgt) hm))
        exact ⟨hp, by omega, hlt, hdel⟩
    rw [← hmem]
    split
    · next start hstart =>
        split at hstart
        · rw [← Option.some.inj hstart]
        · exact absurd hstart (by simp)
    · next hstart =>
        split at hstart
        · exact absurd hstart (by simp)
        · next hge =>
            rw [visible_of_le (Nat.le_of_not_lt hge)]

end Truthful

end Warmup
end Wikistream
