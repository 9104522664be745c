import Wikistream.Correctness.OneOutcome
import Wikistream.Processors.PageState
import Wikistream.Processors.Warmup

/-!
# `Correctness.RebuildWhole` — when rebuilt state is whole

`replay` and `load_applied` take a poll that times out for the end of what there is to read. A broker that is slow
once leaves the state as it is by then, and nothing says so.

## Contents
- **Polls** (`Honest`, `Answered`): what the consumer can hand out, and that no poll that matters timed out.
- **The replay** (`recording`, `Covers`, `replayFrom_whole_iff`): which records the callback got.
- **The guard** (`KnownTo`, `le_guardOf_loadFrom_iff`): which records it knows.
- **The result** (`rebuilt_whole_iff`), and a poll that is late (`late_poll_leaves_gap`).
-/

namespace Wikistream
namespace Warmup

open Py Lib Models Dedup

section Replay

variable {τ ε : Type} {cfg : Config} {log : Log KafkaRecord} {p fetch untilOffset : Nat} {kafkaError : ε}
variable {onMessage : τ → Message KafkaRecord → Except ε (τ × Bool)} {polls : List Poll}

/-! ## Polls -/

/-- What a consumer of the partition can hand out from `fetch` on: its records in the order of their offsets, its
    end where there are no more, errors, and timeouts at any point. -/
def Honest (log : Log KafkaRecord) (p : Nat) : (fetch : Nat) → List Poll → Prop
  | _, [] => True
  | fetch, .record o :: polls => NextVisible log p fetch o ∧ (log p o).isSome = true ∧ Honest log p (o + 1) polls
  | fetch, .eof :: polls => (∀ o, fetch ≤ o → log p o = none) ∧ Honest log p fetch polls
  | fetch, .timeout :: polls => Honest log p fetch polls
  | fetch, .error :: polls => Honest log p fetch polls

/-- None of the first `n` polls timed out. -/
def Answered (n : Nat) (polls : List Poll) : Prop := n ≤ polls.length ∧ .timeout ∉ polls.take n

theorem answered_zero : Answered 0 polls := ⟨Nat.zero_le _, by simp⟩

theorem answered_succ {n : Nat} {poll : Poll} :
    Answered (n + 1) (poll :: polls) ↔ poll ≠ .timeout ∧ Answered n polls := by
  unfold Answered
  rw [List.length_cons, List.take_succ_cons, List.mem_cons, not_or, Nat.add_le_add_iff_right]
  constructor
  · rintro ⟨hle, hne, hrest⟩
    exact ⟨fun heq => hne heq.symm, hle, hrest⟩
  · rintro ⟨hne, hle, hrest⟩
    exact ⟨hle, fun heq => hne heq.symm, hrest⟩

/-! ## The replay -/

/-- The callback, with the messages it was called with. -/
def recording (onMessage : τ → Message KafkaRecord → Except ε (τ × Bool)) (t : τ × List (Message KafkaRecord))
    (m : Message KafkaRecord) : Except ε ((τ × List (Message KafkaRecord)) × Bool) :=
  (onMessage t.1 m).map (fun r => ((r.1, t.2 ++ [m]), r.2))

/-- The messages are those of the visible records with offsets in `[s, untilOffset)`, each once and in order. -/
def Covers (log : Log KafkaRecord) (p s untilOffset : Nat) (ms : List (Message KafkaRecord)) : Prop :=
  ms.Pairwise (fun x y => x.offset < y.offset) ∧
    ∀ m, m ∈ ms ↔ m.partition = p ∧ s ≤ m.offset ∧ m.offset < untilOffset ∧ Delivers log m

theorem covers_iff {s : Nat} {ms : List (Message KafkaRecord)} :
    Covers log p s untilOffset ms ↔ ms = visible log p s untilOffset := by
  constructor
  · rintro ⟨hsorted, hmem⟩
    exact eq_visible hsorted hmem
  · rintro rfl
    exact ⟨sorted_visible log p s untilOffset, fun m => mem_visible⟩

theorem visible_eq_nil {a b : Nat} (h : ∀ x, a ≤ x → x < b → (log p x).isNone = true) : visible log p a b = [] := by
  apply List.eq_nil_iff_forall_not_mem.mpr
  intro m hm
  obtain ⟨rfl, hle, hlt, hdel⟩ := mem_visible.mp hm
  have hnone := h m.offset hle hlt
  rw [hdel] at hnone
  exact absurd hnone (by simp)

/-- The next visible record is the first of its range. -/
theorem visible_of_next {o : Nat} {r : KafkaRecord} (hnext : NextVisible log p fetch o) (hr : log p o = some r)
    (ho : o < untilOffset) : visible log p fetch untilOffset = ⟨p, o, r⟩ :: visible log p (o + 1) untilOffset := by
  have hbefore : visible log p fetch o = [] := visible_eq_nil (fun x hle hlt => hnext.2 x hlt hle)
  rw [visible_append log p hnext.1 (Nat.le_of_lt ho), hbefore, List.nil_append, visible_succ log p ho, hr]
  rfl

/-- A loop that ends without a poll that answers has covered its range only if that is empty. -/
theorem whole_iff_of_stop {n : Nat} {ms seen : List (Message KafkaRecord)} (hn : ms.length = n)
    (hnot : ∀ k, ¬ Answered (k + 1) polls) : seen = seen ++ ms ↔ Answered n polls := by
  subst hn
  cases ms with
  | nil => exact iff_of_true (List.append_nil _).symm answered_zero
  | cons m ms => exact iff_of_false (by simp) (hnot ms.length)

/-- One more message for the callback that records them. -/
theorem recording_eq_ok {t u : τ × List (Message KafkaRecord)} {m : Message KafkaRecord} {used : Bool}
    (h : recording onMessage t m = .ok (u, used)) : u.2 = t.2 ++ [m] := by
  unfold recording at h
  cases hr : onMessage t.1 m with
  | error e => exact absurd (hr ▸ h) (by simp [Except.map])
  | ok r =>
      rw [hr] at h
      rw [← congrArg (fun x => x.1.2) (Except.ok.inj h)]

/-- **The loop covers its range** if and only if no poll it needed timed out. -/
theorem replayFrom_whole_iff (hhonest : Honest log p fetch polls) {t t' : τ × List (Message KafkaRecord)}
    {r r' : WarmupResult}
    (h : replayFrom log p untilOffset kafkaError (recording onMessage) fetch polls (t, r) = .ok (t', r')) :
    t'.2 = t.2 ++ visible log p fetch untilOffset ↔ Answered (visible log p fetch untilOffset).length polls := by
  induction polls generalizing fetch t r with
  | nil =>
      obtain rfl : t' = t := congrArg Prod.fst (Except.ok.inj h).symm
      exact whole_iff_of_stop rfl (fun k hk => absurd hk.1 (by simp))
  | cons poll polls ih =>
      cases poll with
      | timeout =>
          obtain rfl : t' = t := congrArg Prod.fst (Except.ok.inj h).symm
          exact whole_iff_of_stop rfl (fun k hk => (answered_succ.mp hk).1 rfl)
      | error => exact absurd h (by simp [replayFrom])
      | eof =>
          obtain rfl : t' = t := congrArg Prod.fst (Except.ok.inj h).symm
          have hnil : visible log p fetch untilOffset = [] := by
            apply visible_eq_nil
            intro x hle _
            rw [hhonest.1 x hle]
            rfl
          rw [hnil]
          exact iff_of_true (List.append_nil _).symm answered_zero
      | record o =>
          obtain ⟨hnext, hsome, hrest⟩ := hhonest
          obtain ⟨x, hx⟩ := Option.isSome_iff_exists.mp hsome
          have hdelivered : delivered log p fetch o = some ⟨p, o, x⟩ := by
            unfold delivered
            rw [if_pos hnext, hx]
            rfl
          rw [replayFrom, hdelivered] at h
          dsimp only at h
          split at h
          · next hle =>
              -- the first record at or behind `until_offset` ends the range
              obtain rfl : t' = t := congrArg Prod.fst (Except.ok.inj h).symm
              have hnil : visible log p fetch untilOffset = [] :=
                visible_eq_nil (fun y hfetch hlt => hnext.2 y (hlt.trans_le hle) hfetch)
              rw [hnil]
              exact iff_of_true (List.append_nil _).symm answered_zero
          · next hlt =>
              split at h
              · exact absurd h (by simp)
              · next u used hu =>
                  -- the message is the first of the range, and the rest is what the loop goes on with
                  have hwhole := ih hrest h
                  rw [recording_eq_ok hu, List.append_assoc, List.singleton_append] at hwhole
                  rw [visible_of_next hnext hx (Nat.lt_of_not_le hlt), List.length_cons, answered_succ,
                    and_iff_right (by simp)]
                  exact hwhole

/-- The loop leaves `from_offset` alone. -/
theorem fromOffset_replayFrom {onMessage : τ → Message KafkaRecord → Except ε (τ × Bool)} {t r : τ × WarmupResult}
    (h : replayFrom log p untilOffset kafkaError onMessage fetch polls t = .ok r) :
    r.2.fromOffset = t.2.fromOffset := by
  induction polls generalizing fetch t with
  | nil => rw [← Except.ok.inj h]
  | cons poll polls ih =>
      cases poll with
      | timeout => rw [← Except.ok.inj h]
      | eof => rw [← Except.ok.inj h]
      | error => exact absurd h (by simp [replayFrom])
      | record o =>
          rw [replayFrom] at h
          split at h
          · rw [← Except.ok.inj h]
          · split at h
            · rw [← Except.ok.inj h]
            · split at h
              · exact absurd h (by simp)
              · next u used _ =>
                  rw [ih h]
                  unfold WarmupResult.count
                  split <;> rfl

/-- **The replay covers its range** if and only if no poll it needed timed out. -/
theorem replay_whole_iff {answers : Answers} {s : Nat} (hhonest : Honest log p s answers.polls) {t t' : τ}
    {ms : List (Message KafkaRecord)} {result : WarmupResult}
    (h : replay cfg log kafkaError (recording onMessage) p untilOffset answers (t, []) = .ok ((t', ms), result))
    (hfrom : result.fromOffset = s) :
    Covers log p s untilOffset ms ↔ Answered (visible log p s untilOffset).length answers.polls := by
  unfold replay at h
  split at h
  · obtain rfl := congrArg Prod.snd (Except.ok.inj h)
    exact absurd hfrom (by simp)
  · split at h
    · obtain rfl := congrArg Prod.snd (Except.ok.inj h)
      exact absurd hfrom (by simp)
    · next start _ =>
        have hstart : (start : Int) = s := (fromOffset_replayFrom h).symm.trans hfrom
        obtain rfl : start = s := Int.ofNat.inj hstart
        rw [covers_iff, ← replayFrom_whole_iff hhonest h, List.nil_append]

end Replay

end Warmup

namespace PageState

open Py Lib Models Transactional

variable {host : Host} {topic : List KafkaRecord} {polls : List LoadPoll} {applied applied' loaded : Guard}

/-! ## The guard -/

/-- The record tells that the page `key` was last changed at `ms`. -/
def Dates (host : Host) (x : KafkaRecord) (key : Str) (ms : Int) : Prop :=
  (∃ k, x.key = some k ∧ utf8Decode k = some key) ∧ timeOfRecord host x.value x.timestamp = .ok ms

/-- The guard knows the record: an older event of its page is stale. -/
def KnownTo (host : Host) (applied : Guard) (x : KafkaRecord) : Prop :=
  ∀ key ms, Dates host x key ms → ms ≤ guardOf applied key

/-- How many polls come back before one times out. -/
def answered (polls : List LoadPoll) : Nat := (polls.takeWhile (· == .next)).length

theorem recordsRead_eq : recordsRead topic polls = topic.take (answered polls) := by
  fun_induction recordsRead topic polls with
  | case1 r rest polls ih =>
      have hlen : answered (.next :: polls) = answered polls + 1 := rfl
      rw [hlen, List.take_succ_cons, ih]
  | case2 topic polls hnot =>
      cases topic with
      | nil => exact List.take_nil.symm
      | cons r rest =>
          cases polls with
          | nil => rfl
          | cons poll polls =>
              cases poll with
              | next => exact absurd rfl (hnot r rest polls rfl)
              | timeout => rfl
              | error => rfl

/-- A record brings its own time, and nothing else. -/
theorem le_guardOf_readRecord_iff {x : KafkaRecord} (h : readRecord host applied x = .ok applied')
    {key : Str} {t : Int} :
    t ≤ guardOf applied' key ↔ t ≤ guardOf applied key ∨ ∃ ms, Dates host x key ms ∧ t ≤ ms := by
  obtain ⟨hgrow, hone⟩ := le_guardOf_readRecord h
  constructor
  · intro ht
    unfold readRecord at h
    split at h
    · exact Or.inl (Except.ok.inj h ▸ ht)
    · next k hk =>
        split at h
        · exact absurd h (by simp)
        · next name hname =>
            obtain ⟨ms, hms, rfl⟩ := map_eq_ok.mp h
            rw [guardOf_remember] at ht
            split at ht
            · next hkey =>
                subst hkey
                exact (le_max_iff.mp ht).imp id (fun hle => ⟨ms, ⟨⟨k, hk, hname⟩, hms⟩, hle⟩)
            · exact Or.inl ht
  · rintro (ht | ⟨ms, ⟨⟨k, hk, hkey⟩, hms⟩, ht⟩)
    · exact ht.trans (hgrow key)
    · exact ht.trans (hone k key ms hk hkey hms)

/-- **The rebuilt guard** is as late as the records that were read, and no later. -/
theorem le_guardOf_loadFrom_iff (h : loadFrom host topic polls applied = .ok loaded) {key : Str} {t : Int} :
    t ≤ guardOf loaded key ↔
      t ≤ guardOf applied key ∨ ∃ x ∈ recordsRead topic polls, ∃ ms, Dates host x key ms ∧ t ≤ ms := by
  fun_induction loadFrom host topic polls applied with
  | case1 topic applied =>
      obtain rfl := Except.ok.inj h
      cases topic <;> simp [recordsRead]
  | case2 topic polls applied =>
      obtain rfl := Except.ok.inj h
      cases topic <;> simp [recordsRead]
  | case3 topic polls applied => exact absurd h (by simp)
  | case4 polls applied =>
      obtain rfl := Except.ok.inj h
      simp [recordsRead]
  | case5 y rest polls applied applied' hread ih =>
      rw [ih h, le_guardOf_readRecord_iff hread, or_assoc, recordsRead, List.exists_mem_cons_iff]
  | case6 y rest polls applied e hread => exact absurd h (by simp)

/-- **The rebuilt guard is whole** if and only if what it did not read is no newer than what it did. -/
theorem loadApplied_whole_iff (h : loadApplied host topic polls = .ok loaded) :
    (∀ x ∈ topic, KnownTo host loaded x) ↔
      ∀ x ∈ topic.drop (answered polls), ∀ key ms, Dates host x key ms →
        ms ≤ -1 ∨ ∃ y ∈ topic.take (answered polls), ∃ ms', Dates host y key ms' ∧ ms ≤ ms' := by
  have hguard : ∀ {key t}, t ≤ guardOf loaded key ↔
      t ≤ -1 ∨ ∃ y ∈ topic.take (answered polls), ∃ ms', Dates host y key ms' ∧ t ≤ ms' := by
    intro key t
    rw [← recordsRead_eq]
    exact le_guardOf_loadFrom_iff h
  constructor
  · intro hknown x hx key ms hdates
    exact hguard.mp (hknown x (List.mem_of_mem_drop hx) key ms hdates)
  · intro hrest x hx key ms hdates
    apply hguard.mpr
    rw [← List.take_append_drop (answered polls) topic] at hx
    rcases List.mem_append.mp hx with hread | hunread
    · exact Or.inr ⟨x, hread, ms, hdates, le_refl ms⟩
    · exact hrest x hunread key ms hdates

end PageState

namespace Warmup

open Py Lib Models Dedup PageState

/-! ## The result -/

/-- **When rebuilt state is whole.** The replay has covered its range if and only if none of the polls it needed
    for it timed out. The guard knows every record if and only if those behind the first poll that timed out tell
    of no later time than the ones in front of it. -/
theorem rebuilt_whole_iff {τ ε : Type} {cfg : Config} {log : Log KafkaRecord} {p s untilOffset : Nat} {kafkaError : ε}
    {onMessage : τ → Message KafkaRecord → Except ε (τ × Bool)} {answers : Answers} {t t' : τ}
    {ms : List (Message KafkaRecord)} {result : WarmupResult} {host : Host} {topic : List KafkaRecord}
    {polls : List LoadPoll} {loaded : Guard} (hhonest : Honest log p s answers.polls)
    (hreplay : replay cfg log kafkaError (recording onMessage) p untilOffset answers (t, []) =
      .ok ((t', ms), result))
    (hfrom : result.fromOffset = s) (hload : loadApplied host topic polls = .ok loaded) :
    (Covers log p s untilOffset ms ↔ Answered (visible log p s untilOffset).length answers.polls) ∧
      ((∀ x ∈ topic, KnownTo host loaded x) ↔
        ∀ x ∈ topic.drop (answered polls), ∀ key ms, Dates host x key ms →
          ms ≤ -1 ∨ ∃ y ∈ topic.take (answered polls), ∃ ms', Dates host y key ms' ∧ ms ≤ ms') :=
  ⟨replay_whole_iff hhonest hreplay hfrom, loadApplied_whole_iff hload⟩

/-- A deletion of the page `k`. -/
def deletion (ms : Int) : KafkaRecord := { key := some [107], value := none, timestamp := ms }

/-- A partition with two of them. -/
def twoDeletions : Log KafkaRecord := fun p o => if p = 0 ∧ o < 2 then some (deletion (o + 1)) else none

/-- A callback that takes every record. -/
def takeAll (t : Unit) (_ : Message KafkaRecord) : Except Exc (Unit × Bool) := .ok (t, true)

/-- Kafka says that the window starts at offset 0. -/
def fromStart (polls : List Poll) : Answers := { offsetForTime := fun _ => 0, polls }

theorem dates_deletion {ms : Int} : Dates Transform.utcHost (deletion ms) (lit "k") ms :=
  ⟨⟨[107], rfl, by decide⟩, rfl⟩

/-- Polls in time: both records are handed out, and the guard knows its record. -/
theorem polls_in_time :
    ∃ ms loaded, (replay {} twoDeletions .kafkaException (recording takeAll) 0 2
        (fromStart [.record 0, .record 1, .eof]) ((), [])).map (fun x => x.1.2) = .ok ms ∧
      Covers twoDeletions 0 0 2 ms ∧ loadApplied Transform.utcHost [deletion 5] [.next, .next] = .ok loaded ∧
      KnownTo Transform.utcHost loaded (deletion 5) := by
  have hhonest : Honest twoDeletions 0 0 (fromStart [.record 0, .record 1, .eof]).polls := by
    refine ⟨by decide, by decide, by decide, by decide, fun o ho => ?_, trivial⟩
    exact if_neg (fun h => absurd h.2 (Nat.not_lt.mpr ho))
  have hreplay : replay {} twoDeletions .kafkaException (recording takeAll) 0 2
      (fromStart [.record 0, .record 1, .eof]) ((), []) =
        .ok (((), [⟨0, 0, deletion 1⟩, ⟨0, 1, deletion 2⟩]), { loaded := 2, fromOffset := 0, untilOffset := 2 }) := rfl
  have hload : loadApplied Transform.utcHost [deletion 5] [.next, .next] =
      .ok (remember Dict.empty (lit "k") 5) := rfl
  obtain ⟨hcovers, hknown⟩ := rebuilt_whole_iff hhonest hreplay rfl hload
  refine ⟨_, _, congrArg (fun x => x.map (fun y => y.1.2)) hreplay, ?_, hload, ?_⟩
  · have hpolls : (.timeout : Poll) ∉ [Poll.record 0, .record 1] := by simp
    exact hcovers.mpr ⟨by decide, hpolls⟩
  · exact hknown.mpr (fun x hx => absurd hx (by simp [answered])) _ List.mem_cons_self

/-- **One late poll.** The replay returns without its second record, and the guard without its only one. -/
theorem late_poll_leaves_gap :
    Honest twoDeletions 0 0 [.record 0, .timeout] ∧
      (∃ ms result, replay {} twoDeletions .kafkaException (recording takeAll) 0 2
          (fromStart [.record 0, .timeout]) ((), []) = .ok (((), ms), result) ∧
        result.fromOffset = 0 ∧ ¬ Covers twoDeletions 0 0 2 ms) ∧
      ∃ loaded, loadApplied Transform.utcHost [deletion 5] [.timeout] = .ok loaded ∧
        ¬ KnownTo Transform.utcHost loaded (deletion 5) := by
  refine ⟨⟨by decide, by decide, trivial⟩, ⟨_, _, rfl, rfl, ?_⟩, ⟨_, rfl, ?_⟩⟩
  · rintro ⟨_, hmem⟩
    have hsecond := (hmem ⟨0, 1, deletion 2⟩).mpr ⟨rfl, by decide, by decide, rfl⟩
    exact absurd hsecond (by simp)
  · intro hknown
    exact absurd (hknown (lit "k") 5 dates_deletion) (by decide)

end Warmup
end Wikistream
