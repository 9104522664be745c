import Wikistream.Correctness.ExactlyOnce
import Wikistream.Correctness.OneOutcome
import Wikistream.Processors.Cleaner

/-!
# `Correctness.CleanerLossless` — no event is lost to a crash of the cleaner

A dropped duplicate is harmless because the event it repeats was published. The cache forgets nothing it
should not know: every id in it is that of a record handled in a committed transaction, or in the one that
is open. The warm-up keeps this because it stops at the committed offset.

## Contents
- **What is accepted and what was published** (`Accepts`, `Published`), and the assumption on the log
  (`SamePayload`).
- **The invariant.** `Known` for the ids in the cache, `Sound` for an instance, `Lossless` for the group.
- **The warm-up** (`knows_warm`), one message (`Sound.handled`) and one step (`Lossless.step`).
- **The result** (`committed_published`).
-/

namespace Wikistream
namespace Cleaner

open Py Lib Models Dedup Transform Warmup Transactional

/-- `parse_raw` and `clean_event` accept the record, and it is no canary. -/
def Accepts (host : Host) (r : KafkaRecord) (event : CleanEvent) : Prop :=
  ∃ raw, parseRaw host r.payload = .ok raw ∧ isCanary raw = false ∧ cleanEvent host raw = .ok event

/-- The event is in the committed output. -/
def Published (host : Host) (g : Group Caches KafkaRecord Produced) (event : CleanEvent) : Prop :=
  ∃ c ∈ g.commits, ∃ out ∈ c.outputs, IsOutputOf host event out

/-- Records of a partition with the same event id carry the same payload. -/
def SamePayload (host : Host) (log : Log KafkaRecord) : Prop :=
  ∀ p o o' r r' id, log p o = some r → log p o' = some r' → recordId host r = .ok id →
    recordId host r' = .ok id → r.value = r'.value

variable {env : Env} {host : Host} {log : Log KafkaRecord} {g : Group Caches KafkaRecord Produced}
variable {inst : Instance Caches KafkaRecord Produced} {i p : Nat} {r : KafkaRecord} {event : CleanEvent}

/-! ## Accepted records -/

theorem attempt_eq_some : attempt host r.payload = .ok (some event) ↔ Accepts host r event := by
  unfold attempt Accepts
  rw [bind_eq_ok]
  refine exists_congr (fun raw => and_congr_right (fun _ => ?_))
  by_cases hc : isCanary raw = true
  · rw [if_pos hc]
    exact iff_of_false (fun h => absurd (Except.ok.inj h) (by simp)) (by simp [hc])
  · rw [if_neg hc, bind_eq_ok]
    constructor
    · rintro ⟨event', hevent, h⟩
      obtain rfl := Option.some.inj (Except.ok.inj h)
      exact ⟨Bool.eq_false_of_not_eq_true hc, hevent⟩
    · rintro ⟨_, hevent⟩
      exact ⟨event, hevent, rfl⟩

/-- The id under which the cache knows an event is the one the warm-up reads from its record. -/
theorem recordId_of_accepts (h : Accepts host r event) : recordId host r = .ok event.eventId := by
  obtain ⟨raw, hraw, _, hevent⟩ := h
  unfold cleanEvent at hevent
  simp only [bind_eq_ok] at hevent
  obtain ⟨id, hid, type, _, wiki, _, title, _, n, _, time, _, rev, _, len, _, hevent⟩ := hevent
  obtain rfl := Except.ok.inj hevent
  exact bind_eq_ok.mpr ⟨raw, hraw, hid⟩

theorem Accepts.of_value_eq {r' : KafkaRecord} (h : Accepts host r event) (hv : r.value = r'.value) :
    Accepts host r' event := by
  have hp : r'.payload = r.payload := by rw [KafkaRecord.payload, KafkaRecord.payload, hv]
  unfold Accepts at h ⊢
  rwa [hp]

/-! ## The invariant -/

/-- The record at offset `o` was handled, in a committed transaction or in the open one. -/
def Done (g : Group Caches KafkaRecord Produced) (inst : Instance Caches KafkaRecord Produced)
    (p o : Nat) : Prop :=
  Handled g p o ∨ ∃ t, inst.txn = some t ∧ ∃ m ∈ t.handled, m.partition = p ∧ m.offset = o

/-- The id is that of a record of the partition that is done. -/
def Known (host : Host) (log : Log KafkaRecord) (g : Group Caches KafkaRecord Produced)
    (inst : Instance Caches KafkaRecord Produced) (p : Nat) (id : Str) : Prop :=
  ∃ o r, log p o = some r ∧ recordId host r = .ok id ∧ Done g inst p o

/-- The caches hold nothing but known ids. -/
def Knows (host : Host) (log : Log KafkaRecord) (g : Group Caches KafkaRecord Produced)
    (inst : Instance Caches KafkaRecord Produced) (caches : Caches) : Prop :=
  ∀ p id, id ∈ (cacheFor caches p).ids → Known host log g inst p id

structure Sound (host : Host) (log : Log KafkaRecord) (g : Group Caches KafkaRecord Produced)
    (inst : Instance Caches KafkaRecord Produced) : Prop where
  genuine : Genuine log inst
  /-- The event of a message handled in the open transaction is published, or will be with it. -/
  emitted : ∀ t, inst.txn = some t → ∀ m ∈ t.handled, ∀ event, Accepts host m.record event →
    Published host g event ∨ ∃ out ∈ t.outputs, IsOutputOf host event out
  knows : Knows host log g inst inst.state

structure Lossless (host : Host) (log : Log KafkaRecord) (g : Group Caches KafkaRecord Produced) :
    Prop where
  covered : AllCovered log g
  published : ∀ p o r event, Handled g p o → log p o = some r → Accepts host r event →
    Published host g event
  instances : ∀ i inst, g.instances.get? i = some inst → Sound host log g inst

theorem lossless_init : Lossless host log {} where
  covered := covered_init
  published p o r event h := by
    obtain ⟨c, hc, _⟩ := h
    exact absurd hc (by simp)
  instances i inst hi := absurd hi (by simp)

/-- What an instance knows depends on the group through the records handled in it. -/
theorem Knows.mono {caches : Caches} {g' : Group Caches KafkaRecord Produced}
    {inst' : Instance Caches KafkaRecord Produced} (h : Knows host log g inst caches)
    (hdone : ∀ p o, Done g inst p o → Done g' inst' p o) : Knows host log g' inst' caches := by
  intro p id hid
  obtain ⟨o, r, hr, hrid, hd⟩ := h p id hid
  exact ⟨o, r, hr, hrid, hdone p o hd⟩

/-- Changing one instance. -/
theorem Lossless.put (h : Lossless host log g) (hcov : AllCovered log (g.put i inst))
    (hinst : Sound host log g inst) : Lossless host log (g.put i inst) where
  covered := hcov
  published := h.published
  instances := by
    intro j inst' hj
    have hsound : Sound host log g inst' := by
      rw [get?_put] at hj
      split at hj
      · exact Option.some.inj hj ▸ hinst
      · exact h.instances j inst' hj
    exact ⟨hsound.genuine, hsound.emitted, hsound.knows⟩

/-! ## The warm-up -/

theorem knows_set {caches : Caches} {cache : DedupCache} (h : Knows host log g inst caches)
    (hcache : ∀ id ∈ cache.ids, Known host log g inst p id) :
    Knows host log g inst (caches.set p cache) := by
  intro q id hid
  rw [cacheFor_set] at hid
  split at hid
  · next hq => exact hq ▸ hcache id hid
  · exact h q id hid

theorem knows_init : Knows host log g inst Dict.empty := by
  intro p id hid
  have : (cacheFor Dict.empty p).ids = [] := rfl
  rw [this] at hid
  exact absurd hid (by simp)

/-- `_load` adds the id of its record at most. -/
theorem load_cases {answers : Answers} {cache : DedupCache} {m : Message KafkaRecord}
    {r : DedupCache × Bool} (h : load host answers cache m = .ok r) {id : Str} (hid : id ∈ r.1.ids) :
    id ∈ cache.ids ∨ recordId host m.record = .ok id := by
  unfold load at h
  split at h
  · obtain rfl := Except.ok.inj h
    exact Or.inl hid
  · exact absurd h (by simp)
  · next eventId hrec =>
      obtain rfl := Except.ok.inj h
      rcases DedupCache.mem_ids_isNew hid with hold | ⟨_, rfl⟩
      · exact Or.inl hold
      · exact Or.inr hrec

/-- Records below the committed offset are all handled, so loading them is safe. -/
theorem knows_warmOne (h : Lossless env.host log g) {answers : Answers} {caches caches' : Caches}
    (hk : Knows env.host log g inst caches)
    (hwarm : warmOne env log g.committed answers p caches = .ok caches') :
    Knows env.host log g inst caches' := by
  unfold warmOne at hwarm
  dsimp only at hwarm
  split at hwarm
  · obtain rfl := Except.ok.inj hwarm
    exact knows_set hk (hk p)
  · next c hc =>
      split at hwarm
      · exact absurd hwarm (by simp)
      · next cache _ hreplay =>
          obtain rfl := Except.ok.inj hwarm
          refine knows_set hk ?_
          -- every message of the replay lies below the committed offset, so it was handled in a
          -- transaction that committed
          refine replay_induction (I := fun cache => ∀ id ∈ cache.ids, Known env.host log g inst p id)
            ?_ (hk p) hreplay
          intro cache m r hI hp hlt hm hload id hid
          rcases load_cases hload hid with hold | hrec
          · exact hI id hold
          · subst hp
            have hhandled := h.covered.committed _ c hc m.offset hlt (by rw [hm]; rfl)
            exact ⟨m.offset, m.record, hm, hrec, Or.inl hhandled⟩

theorem knows_warm (h : Lossless env.host log g) {answers : Nat → Answers} {ps : List Nat}
    {caches caches' : Caches} (hk : Knows env.host log g inst caches)
    (hwarm : warm env log g.committed answers caches ps = .ok caches') :
    Knows env.host log g inst caches' := by
  induction ps generalizing caches with
  | nil => exact Except.ok.inj hwarm ▸ hk
  | cons p ps ih =>
      rw [warm] at hwarm
      split at hwarm
      · exact absurd hwarm (by simp)
      · next caches₁ hone => exact ih (knows_warmOne h hk hone) hwarm

theorem knows_revoked {caches : Caches} (hk : Knows host log g inst caches) (ps : List Nat) :
    Knows host log g inst (partitionsRevoked caches ps) := by
  intro p id hid
  rw [cacheFor_partitionsRevoked] at hid
  split at hid
  · exact absurd hid (by simp [DedupCache.ids, Dict.values, Dict.empty])
  · exact hk p id hid

/-! ## One message -/

/-- A duplicate of a known id was accepted before, under the same payload. -/
theorem exists_earlier (hsame : SamePayload host log) {m : Message KafkaRecord} (hm : Delivers log m)
    (hacc : Accepts host m.record event) (hknown : Known host log g inst m.partition event.eventId) :
    ∃ o r, log m.partition o = some r ∧ Accepts host r event ∧ Done g inst m.partition o := by
  obtain ⟨o, r, hr, hrid, hdone⟩ := hknown
  have hvalue := hsame _ _ _ _ _ _ hm hr (recordId_of_accepts hacc) hrid
  exact ⟨o, r, hr, hacc.of_value_eq hvalue, hdone⟩

/-- What is done and accepted is published, now or with the open transaction. -/
theorem Sound.emitted_of_done (h : Sound host log g inst)
    (hpub : ∀ p o r event, Handled g p o → log p o = some r → Accepts host r event →
      Published host g event)
    {t : Txn KafkaRecord Produced} (htxn : inst.txn = some t) {o : Nat} (hr : log p o = some r)
    (hacc : Accepts host r event) (hdone : Done g inst p o) :
    Published host g event ∨ ∃ out ∈ t.outputs, IsOutputOf host event out := by
  rcases hdone with hh | ⟨t', ht', m, hm, rfl, rfl⟩
  · exact Or.inl (hpub _ _ r event hh hr hacc)
  · obtain rfl := Option.some.inj (htxn.symm.trans ht')
    have hdel : Delivers log m := by
      apply h.genuine
      rw [inHand_of_txn htxn]
      exact List.mem_append_left _ (List.mem_append_left _ hm)
    obtain rfl := Option.some.inj (hdel.symm.trans hr)
    exact h.emitted t htxn m hm event hacc

theorem Done.handled {t : Txn KafkaRecord Produced} {m : Message KafkaRecord}
    {todo : List (Message KafkaRecord)} {r : Caches × List Produced} (htxn : inst.txn = some t) {o : Nat}
    (h : Done g inst p o) : Done g (inst.handled t m todo r) p o := by
  refine h.imp_right ?_
  rintro ⟨t', ht', x, hx, hxo⟩
  obtain rfl := Option.some.inj (htxn.symm.trans ht')
  exact ⟨_, rfl, x, List.mem_append_left _ hx, hxo⟩

theorem done_handled_self {t : Txn KafkaRecord Produced} {m : Message KafkaRecord}
    {todo : List (Message KafkaRecord)} {r : Caches × List Produced} :
    Done g (inst.handled t m todo r) m.partition m.offset :=
  Or.inr ⟨_, rfl, m, List.mem_append_right _ (List.mem_singleton_self m), rfl, rfl⟩

/-- The message's own event is published or emitted, and what its id adds to the cache is known. -/
theorem Sound.handled (hsame : SamePayload env.host log) (h : Lossless env.host log g)
    (hi : g.instances.get? i = some inst) {t : Txn KafkaRecord Produced} {m : Message KafkaRecord}
    {todo : List (Message KafkaRecord)} {r : Caches × List Produced} (htxn : inst.txn = some t)
    (htodo : t.todo = m :: todo) (hook : handle env inst.state m = .ok r) :
    Sound env.host log g (inst.handled t m todo r) := by
  have hinst := h.instances i inst hi
  have hm : Delivers log m := by
    apply hinst.genuine
    rw [inHand_of_txn htxn, htodo]
    simp
  have hold : Knows env.host log g (inst.handled t m todo r) inst.state :=
    hinst.knows.mono (fun p o hd => hd.handled htxn)
  refine ⟨hinst.genuine.handled htxn htodo, ?_, ?_⟩
  · intro t' ht' x hx event hacc
    obtain rfl := Option.some.inj ht'
    -- the outputs of the transaction only grow
    have hgrow : ∀ {event}, (Published env.host g event ∨ ∃ out ∈ t.outputs, IsOutputOf env.host event out) →
        Published env.host g event ∨ ∃ out ∈ t.outputs ++ r.2, IsOutputOf env.host event out := by
      intro event he
      refine he.imp_right ?_
      rintro ⟨out, hout, his⟩
      exact ⟨out, List.mem_append_left _ hout, his⟩
    rcases List.mem_append.mp hx with hx | hx
    · exact hgrow (hinst.emitted t htxn x hx event hacc)
    · obtain rfl := List.mem_singleton.mp hx
      obtain ⟨time, _, hnew⟩ := handle_of_event (attempt_eq_some.mpr hacc) hook
      cases hans : ((cacheFor inst.state x.partition).isNew event.eventId time).1 with
      | true =>
          obtain ⟨out, hout, his⟩ := hnew hans
          exact Or.inr ⟨out, List.mem_append_right _ hout, his⟩
      | false =>
          have hknown := hinst.knows _ _ (DedupCache.mem_ids_of_isNew_eq_false hans)
          obtain ⟨o, r', hr', hacc', hdone⟩ := exists_earlier hsame hm hacc hknown
          exact hgrow (hinst.emitted_of_done h.published htxn hr' hacc' hdone)
  · change Knows env.host log g _ r.1
    -- a record with an event adds its id, and this message has now handled it
    by_cases hevent : ∃ event, attempt env.host m.record.payload = .ok (some event)
    · obtain ⟨event, hevent⟩ := hevent
      obtain ⟨time, hstate, _⟩ := handle_of_event hevent hook
      rw [hstate]
      refine knows_set hold (fun id hid => ?_)
      rcases DedupCache.mem_ids_isNew hid with hid | ⟨_, rfl⟩
      · exact hold _ id hid
      · exact ⟨m.offset, m.record, hm, recordId_of_accepts (attempt_eq_some.mp hevent), done_handled_self⟩
    · rw [handle_of_no_event (fun event h => hevent ⟨event, h⟩) hook]
      exact knows_set hold (hold m.partition)

/-! ## One step -/

theorem Published.commit {t : Txn KafkaRecord Produced} (h : Published host g event) :
    Published host (g.commit i inst t) event := by
  obtain ⟨c, hc, hout⟩ := h
  exact ⟨c, List.mem_append_left _ hc, hout⟩

/-- A commit publishes what its transaction emitted. -/
theorem published_commit {t : Txn KafkaRecord Produced}
    (h : Published host g event ∨ ∃ out ∈ t.outputs, IsOutputOf host event out) :
    Published host (g.commit i inst t) event := by
  rcases h with h | hout
  · exact h.commit
  · exact ⟨⟨t.handled, t.outputs⟩, List.mem_append_right _ (List.mem_singleton_self _), hout⟩

theorem handled_commit {t : Txn KafkaRecord Produced} {o : Nat} :
    Handled (g.commit i inst t) p o ↔
      Handled g p o ∨ ∃ m ∈ t.handled, m.partition = p ∧ m.offset = o := by
  constructor
  · rintro ⟨c, hc, hm⟩
    rcases List.mem_append.mp hc with hc | hc
    · exact Or.inl ⟨c, hc, hm⟩
    · obtain rfl := List.mem_singleton.mp hc
      exact Or.inr hm
  · rintro (hh | hm)
    · exact hh.commit
    · exact ⟨⟨t.handled, t.outputs⟩, List.mem_append_right _ (List.mem_singleton_self _), hm⟩

theorem Lossless.commit (h : Lossless host log g) (hi : g.instances.get? i = some inst)
    {t : Txn KafkaRecord Produced} (htxn : inst.txn = some t)
    (hcov : AllCovered log (g.commit i inst t)) : Lossless host log (g.commit i inst t) where
  covered := hcov
  published := by
    intro p o r event hh hr hacc
    have hinst := h.instances i inst hi
    apply published_commit
    apply hinst.emitted_of_done h.published htxn hr hacc
    rcases handled_commit.mp hh with hh | hm
    · exact Or.inl hh
    · exact Or.inr ⟨t, htxn, hm⟩
  instances := by
    intro j inst' hj
    rw [get?_commit] at hj
    split at hj
    · obtain rfl := Option.some.inj hj
      have hinst := h.instances i inst hi
      refine ⟨hinst.genuine.closeTxn, fun t' ht' => absurd ht' (by simp [Instance.closeTxn]), ?_⟩
      -- what the open transaction handled is now committed
      apply hinst.knows.mono
      rintro p o (hh | ⟨t', ht', hm⟩)
      · exact Or.inl hh.commit
      · obtain rfl := Option.some.inj (htxn.symm.trans ht')
        exact Or.inl (handled_commit.mpr (Or.inr hm))
    · have hinst := h.instances j inst' hj
      exact ⟨hinst.genuine, fun t' ht' m hm event hacc =>
          (hinst.emitted t' ht' m hm event hacc).imp_left Published.commit,
        hinst.knows.mono (fun p o hd => hd.imp_left Handled.commit)⟩

/-- **One step keeps the caches sound and the events published.** -/
theorem Lossless.step (hsame : SamePayload env.host log) (h : Lossless env.host log g)
    {a : Action (Nat → Answers)} (ha : NoAbort a) {g' : Group Caches KafkaRecord Produced}
    (hstep : Step (cleaner env log) log g a g') : Lossless env.host log g' := by
  have hcov := covered_step h.covered ha hstep
  cases hstep with
  | start hi =>
      refine h.put hcov ⟨fun m hm => absurd hm (by simp [Instance.inHand]), ?_, knows_init⟩
      exact fun t ht => absurd ht (by simp)
  | assign hi htxn hfree hook =>
      have hinst := h.instances _ _ hi
      exact h.put hcov ⟨hinst.genuine, hinst.emitted, knows_warm h hinst.knows hook⟩
  | revoke hi htxn =>
      have hinst := h.instances _ _ hi
      rw [onRevoke_of_txn_none _ htxn] at hcov ⊢
      exact h.put hcov ⟨hinst.genuine, hinst.emitted, knows_revoked hinst.knows _⟩
  | poll hi htxn hcur hr hnext =>
      have hinst := h.instances _ _ hi
      exact h.put hcov ⟨hinst.genuine.collect hr, hinst.emitted, hinst.knows⟩
  | @beginBatch i inst hi htxn =>
      have hinst := h.instances _ _ hi
      refine h.put hcov ⟨hinst.genuine.beginBatch htxn, ?_, ?_⟩
      · intro t ht m hm
        obtain rfl := Option.some.inj ht
        exact absurd hm (by simp)
      · -- the transaction that opens has handled nothing yet
        apply hinst.knows.mono
        rintro p o (hh | ⟨t, ht, _⟩)
        · exact Or.inl hh
        · exact absurd (htxn.symm.trans ht) (by simp)
  | handleNext hi htxn htodo hook => exact h.put hcov (Sound.handled hsame h hi htxn htodo hook)
  | commitBatch hi htxn htodo => exact h.commit hi htxn hcov
  | abort hi htxn => exact absurd ha id
  | periodic hi htxn =>
      have hinst := h.instances _ _ hi
      exact h.put hcov ⟨hinst.genuine, hinst.emitted, hinst.knows⟩
  | die =>
      refine ⟨hcov, h.published, fun j inst' hj => ?_⟩
      rw [get?_remove] at hj
      split at hj
      · exact absurd hj (by simp)
      · have hinst := h.instances j inst' hj
        exact ⟨hinst.genuine, hinst.emitted, hinst.knows⟩

/-! ## Runs -/

/-- **No event is lost.** In every run without an in-process abort, with crashes and rebalances wherever
    they fall and whatever the warm-up's window, `max_records` and answers, over a log whose records with the
    same id carry the same payload: the event of every accepted record below a committed offset is in the
    committed output. -/
theorem committed_published (env : Env) (log : Log KafkaRecord) (hsame : SamePayload env.host log)
    {acts : List (Action (Nat → Answers))} {g : Group Caches KafkaRecord Produced}
    (hok : Always (step (cleaner env log) log) (fun _ => NoAbort) {} acts)
    (hrun : run (step (cleaner env log) log) {} acts = some g) {p c o : Nat} {r : KafkaRecord}
    {event : CleanEvent} (hc : g.committed.get? p = some c) (ho : o < c) (hr : log p o = some r)
    (hacc : Accepts env.host r event) : Published env.host g event := by
  have h : Lossless env.host log g :=
    run_state_invariant lossless_init (fun t a t' ht ha hstep => ht.step hsame ha (step_inv hstep)) hok hrun
  have hhandled := h.covered.committed p c hc o ho (by rw [hr]; rfl)
  exact h.published p o r event hhandled hr hacc

/-- An edit, as the ingestor writes it. -/
def anEdit : Bytes :=
  ascii (lit ("\x7b\"meta\":\x7b\"id\":\"a\"\x7d,\"type\":\"edit\",\"wiki\":\"w\",\"title\":\"T\"," ++
    "\"namespace\":0,\"timestamp\":1\x7d"))

/-- A partition that holds the edit twice. -/
def editTwice : Log KafkaRecord := fun p o =>
  if p = 0 ∧ o < 2 then some { value := some anEdit, timestamp := 1000 } else none

/-- The event of the edit. -/
def theEvent : CleanEvent where
  eventId := lit "a"
  wiki := lit "w"
  title := lit "T"
  type := lit "edit"
  pageNamespace := 0
  user := []
  bot := false
  minor := false
  comment := []
  eventTime := lit "1970-01-01T00:00:01+00:00"
  revOld := none
  revNew := none
  lengthOld := none
  lengthNew := none
  serverName := []

/-- The cleaner crashes after its first commit, loads the first record during its warm-up and drops the
    second as a duplicate; the event is in the output. -/
theorem committed_published_after_crash :
    let env : Env := { host := utcHost }
    let cold : Nat → Answers := fun _ => {}
    let warm : Nat → Answers := fun _ =>
      { anchor := .record 0, offsetForTime := fun _ => 0, polls := [.record 0, .record 1] }
    let acts := [.start 0, .assign 0 [0] cold, .poll 0 0 0, .beginBatch 0, .handleNext 0, .commitBatch 0,
      .crash 0, .start 0, .assign 0 [0] warm, .poll 0 0 1, .beginBatch 0, .handleNext 0, .commitBatch 0]
    ∃ g, run (step (cleaner env editTwice) editTwice) {} acts = some g ∧
      g.committed.get? 0 = some 2 ∧ g.commits.map (fun c => c.outputs.length) = [1, 0] ∧
      Published utcHost g theEvent := by
  intro env cold warm acts
  have hrun : (run (step (cleaner env editTwice) editTwice) {} acts).isSome = true := by decide +kernel
  have hc : ((run (step (cleaner env editTwice) editTwice) {} acts).get hrun).committed.get? 0 =
      some 2 := by
    decide +kernel +revert
  have hsame : SamePayload utcHost editTwice := by
    intro p o o' r r' id hr hr' _ _
    unfold editTwice at hr hr'
    split at hr
    · split at hr'
      · exact (Option.some.inj hr).symm.trans (Option.some.inj hr') ▸ rfl
      · exact absurd hr' (by simp)
    · exact absurd hr (by simp)
  have hacc : attempt utcHost (.bytes anEdit) = .ok (some theEvent) := by decide +kernel
  refine ⟨_, (Option.some_get hrun).symm, hc, by decide +kernel +revert, ?_⟩
  exact committed_published env editTwice hsame (by decide +kernel) (Option.some_get hrun).symm hc
    (by decide : 1 < 2) rfl (attempt_eq_some.mp hacc)

end Cleaner
end Wikistream
