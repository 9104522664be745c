import Wikistream.Ingestor.CheckpointFile
import Wikistream.Correctness.DeliveryPrefix

/-!
# `Correctness.CheckpointCrash` — the checkpoint file through crashes

Whatever happens to the ingestor and to the machine, the file is a whole checkpoint: no reader ever finds half of one.
And it claims nothing too much, whichever of the saved checkpoints a crash brings back: the events it counts are
messages that Kafka confirmed in the lives of the process so far, and its id is the last among them.

## Contents
- **The lives of the process** (`lives`), and the messages a checkpoint may claim (`Credited`).
- **The invariant** (`Sound`): of the disk, of the process, and of a save under way (`SavingOk`). One lemma for each
  kind of step.
- **The result** (`checkpoint_survives`).
-/

namespace Wikistream
namespace Ingestor
namespace Delivery

open Py Lib

/-! ## What a checkpoint may claim -/

/-- One more step of the host, after the given lives, the newest first. -/
def grow (lives : List (List Action)) : HostAction → List (List Action)
  | .start => [] :: lives
  | .act a =>
      match lives with
      | life :: earlier => (life ++ [a]) :: earlier
      | [] => []
  | _ => lives

/-- The sends and callbacks of each life of the process, the newest life first. -/
def lives (acts : List HostAction) : List (List Action) := acts.foldl grow []

/-- The messages confirmed in order in each of the lives. -/
def confirmedIn (lives : List (List Action)) : List (Nat × Option Str) := lives.reverse.flatMap confirmedPrefix

/-- The checkpoint counts the messages confirmed in the beginnings of the lives, and no others. -/
def Credited (c₀ : Checkpoint) (lives : List (List Action)) (c : Checkpoint) : Prop :=
  ∃ parts, List.Forall₂ (· <+: ·) parts lives ∧
    c.lastEventId = (lastNonEmpty (confirmedIn parts)).or c₀.lastEventId ∧
    c.eventsConfirmed = c₀.eventsConfirmed + (confirmedIn parts).length

variable {c₀ c : Checkpoint} {ls : List (List Action)} {acts : List Action} {w : World}

theorem lives_snoc (acts : List HostAction) (a : HostAction) : lives (acts ++ [a]) = grow (lives acts) a := by
  unfold lives
  rw [List.foldl_append]
  rfl

theorem confirmedIn_cons (part : List Action) (parts : List (List Action)) :
    confirmedIn (part :: parts) = confirmedIn parts ++ confirmedPrefix part := by
  unfold confirmedIn
  rw [List.reverse_cons, List.flatMap_append, List.flatMap_singleton]

theorem confirmedIn_nil_cons (parts : List (List Action)) : confirmedIn ([] :: parts) = confirmedIn parts := by
  rw [confirmedIn_cons]
  exact List.append_nil _

theorem credited_start (c₀ : Checkpoint) : Credited c₀ [] c₀ :=
  ⟨[], List.Forall₂.nil, rfl, (Int.add_zero _).symm⟩

/-- A life that has just begun adds nothing. -/
theorem Credited.born (h : Credited c₀ ls c) : Credited c₀ ([] :: ls) c := by
  obtain ⟨parts, hparts, hlast, hcount⟩ := h
  refine ⟨[] :: parts, List.Forall₂.cons (List.prefix_refl _) hparts, ?_, ?_⟩
  · rw [confirmedIn_nil_cons]
    exact hlast
  · rw [confirmedIn_nil_cons]
    exact hcount

theorem Credited.grow (h : Credited c₀ ls c) (a : HostAction) : Credited c₀ (grow ls a) c := by
  cases a with
  | start => exact h.born
  | act a =>
      obtain ⟨parts, hparts, hlast, hcount⟩ := h
      cases hparts with
      | nil => exact ⟨[], List.Forall₂.nil, hlast, hcount⟩
      | cons hpart hparts =>
          exact ⟨_ :: _, List.Forall₂.cons (hpart.trans (List.prefix_append _ _)) hparts, hlast, hcount⟩
  | _ => exact h

/-- What a process has counted since it started from a credited checkpoint. -/
theorem Credited.life (h : Credited c₀ ls c) (hw : Tracks c acts w) :
    Credited c₀ (acts :: ls) w.sender.checkpoint := by
  obtain ⟨parts, hparts, hlast, hcount⟩ := h
  refine ⟨acts :: parts, List.Forall₂.cons (List.prefix_refl _) hparts, ?_, ?_⟩
  · rw [hw.lastEventId, hlast, confirmedIn_cons, lastNonEmpty_append, Option.or_assoc]
  · rw [hw.eventsConfirmed, hcount, confirmedIn_cons, List.length_append]
    omega

/-! ## Ids -/

/-- Every id that was sent can be received. -/
def IdsEncodable (ls : List (List Action)) : Prop := ∀ life ∈ ls, ∀ id, .send (some id) ∈ life → Py.Encodable id

theorem send_mem_of_accepted {m : Nat × Option Str} (h : m ∈ accepted acts) : .send m.2 ∈ acts := by
  obtain ⟨p, hp, rfl⟩ := List.mem_map.mp h
  have hid : p.1 ∈ acts.filterMap _ := List.fst_mem_of_mem_zipIdx hp
  obtain ⟨a, ha, hsend⟩ := List.mem_filterMap.mp hid
  cases a with
  | send streamId =>
      obtain rfl := Option.some.inj hsend
      exact ha
  | callback seq err timer => exact absurd hsend (by simp)

theorem exists_life {parts : List (List Action)} (h : List.Forall₂ (· <+: ·) parts ls) {part : List Action}
    (hpart : part ∈ parts) : ∃ life ∈ ls, part <+: life := by
  induction h with
  | nil => exact absurd hpart List.not_mem_nil
  | cons hbegin _ ih =>
      rcases List.mem_cons.mp hpart with rfl | hpart
      · exact ⟨_, List.mem_cons_self, hbegin⟩
      · obtain ⟨life, hlife, hbegin⟩ := ih hpart
        exact ⟨life, List.mem_cons_of_mem _ hlife, hbegin⟩

/-- A credited checkpoint has an id that was sent. -/
theorem Credited.clean (h : Credited c₀ ls c) (hids : IdsEncodable ls) (hc₀ : c₀.Clean) : c.Clean := by
  obtain ⟨parts, hparts, hlast, _⟩ := h
  intro last hc
  rw [hlast] at hc
  cases hsome : lastNonEmpty (confirmedIn parts) with
  | none =>
      rw [hsome, Option.none_or] at hc
      exact hc₀ last hc
  | some id =>
      rw [hsome, Option.some_or] at hc
      obtain rfl := Option.some.inj hc
      obtain ⟨m, hm, hne⟩ := List.mem_filterMap.mp (List.mem_of_getLast? hsome)
      obtain ⟨hid, hnonempty⟩ := Option.filter_eq_some_iff.mp hne
      refine ⟨by simpa using hnonempty, ?_⟩
      obtain ⟨part, hpart, hin⟩ := List.mem_flatMap.mp hm
      obtain ⟨life, hlife, hbegin⟩ := exists_life hparts (List.mem_reverse.mp hpart)
      have hsend := send_mem_of_accepted ((List.takeWhile_sublist _).subset hin)
      rw [hid] at hsend
      exact hids life hlife id (hbegin.subset hsend)

/-! ## The invariant -/

variable {limits : JsonLimits} {path : Str} {d₀ : Disk Str UInt8} {host h' : Host} {acts : List HostAction}

/-- A file that has `text` in it, or will have. -/
def Holding (path : Str) (d : Disk Str UInt8) (tmp : Str) (file : Nat) (rest : Bytes) (text : Str) : Prop :=
  tmp ≠ path ∧ d.names tmp = some file ∧ Hidden path d file ∧ utf8Encode text = some (d.data file ++ rest)

/-- A save under way, of the checkpoint `c`. -/
def SavingOk (limits : JsonLimits) (path : Str) (d : Disk Str UInt8) (c : Checkpoint) : Saving → Prop
  | .start text => c.payload limits = some text
  | .writing tmp file rest => ∃ text, c.payload limits = some text ∧ Holding path d tmp file rest text
  | .synced tmp file =>
      d.synced file = true ∧ ∃ text, c.payload limits = some text ∧ Holding path d tmp file [] text
  | .failing tmp => tmp ≠ path

/-- What may be in the file after `acts`: a credited checkpoint that was there before. -/
def Saved (limits : JsonLimits) (path : Str) (d₀ : Disk Str UInt8) (c₀ : Checkpoint) (acts : List HostAction)
    (found : Option Bytes) : Prop :=
  (∃ c, Checkpoint.load limits found = .ok c ∧ Credited c₀ (lives acts) c) ∧
    ∃ before h, before <+: acts ∧ run (hostStep limits path) { disk := d₀ } before = some h ∧
      h.disk.read path = found

structure Sound (limits : JsonLimits) (path : Str) (d₀ : Disk Str UInt8) (c₀ : Checkpoint) (acts : List HostAction)
    (h : Host) : Prop where
  reached : run (hostStep limits path) { disk := d₀ } acts = some h
  file : Keeps (Saved limits path d₀ c₀ acts) path h.disk
  ids : IdsEncodable (lives acts)
  process : ∀ r, h.process = some r → ∃ life earlier c, lives acts = life :: earlier ∧ Credited c₀ earlier c ∧
    Tracks c life r.world
  saving : ∀ r s, h.process = some r → r.saving = some s → SavingOk limits path h.disk r.world.sender.checkpoint s

theorem Saved.snoc {found : Option Bytes} (h : Saved limits path d₀ c₀ acts found) (a : HostAction) :
    Saved limits path d₀ c₀ (acts ++ [a]) found := by
  obtain ⟨⟨c, hload, hcredited⟩, before, host, hbefore, hrun, hread⟩ := h
  refine ⟨⟨c, hload, ?_⟩, before, host, hbefore.trans (List.prefix_append _ _), hrun, hread⟩
  rw [lives_snoc]
  exact hcredited.grow a

theorem reached_snoc {a : HostAction} (h : run (hostStep limits path) { disk := d₀ } acts = some host)
    (hstep : hostStep limits path host a = some h') :
    run (hostStep limits path) { disk := d₀ } (acts ++ [a]) = some h' := by
  rw [run_append, h, Option.bind_some, run_cons, hstep]
  rfl

/-- A step that puts nothing new in the file, in a life that goes on or is over. -/
theorem Sound.keep {a : HostAction} (h : Sound limits path d₀ c₀ acts host)
    (hstep : hostStep limits path host a = some h') (hlives : grow (lives acts) a = lives acts)
    (hfile : Keeps (Saved limits path d₀ c₀ acts) path h'.disk)
    (hprocess : ∀ r, h'.process = some r → (∃ r₀, host.process = some r₀ ∧ r.world = r₀.world) ∧
      ∀ s, r.saving = some s → SavingOk limits path h'.disk r.world.sender.checkpoint s) :
    Sound limits path d₀ c₀ (acts ++ [a]) h' where
  reached := reached_snoc h.reached hstep
  file := hfile.mono (fun _ hx => hx.snoc a)
  ids := by
    rw [lives_snoc, hlives]
    exact h.ids
  process := by
    intro r hr
    obtain ⟨⟨r₀, hr₀, hworld⟩, _⟩ := hprocess r hr
    rw [lives_snoc, hlives, hworld]
    exact h.process r₀ hr₀
  saving := fun r s hr hs => (hprocess r hr).2 s hs

/-! ### The process -/

theorem checkpoint_of_saveDue {a : Action} {w' : World} (hstep : step w a = some w') (hdue : saveDue w a = some c) :
    w'.sender.checkpoint = c := by
  cases a with
  | send streamId => exact absurd hdue (by simp [saveDue])
  | callback seq err timer =>
      have hsave : ∀ s : Sender, (s.maybeSave timer).2 = some c → (s.maybeSave timer).1.checkpoint = c := by
        intro s hs
        unfold Sender.maybeSave at hs ⊢
        split at hs
        · next hdue =>
            rw [if_pos hdue]
            exact Option.some.inj hs
        · exact absurd hs (by simp)
      simp only [step] at hstep
      split at hstep
      · obtain rfl := Option.some.inj hstep
        cases err with
        | some e => exact absurd hdue (by simp [saveDue, Sender.onDelivery])
        | none => exact hsave _ hdue
      · exact absurd hstep (by simp)

theorem startSave_eq_some {r : Running} (h : startSave limits w c = some r) :
    r.world = w ∧ ∃ text, r.saving = some (.start text) ∧ c.payload limits = some text := by
  obtain ⟨text, htext, rfl⟩ := Option.map_eq_some_iff.mp h
  exact ⟨rfl, text, rfl, htext⟩

theorem Sound.start (h : Sound limits path d₀ c₀ acts host) (hstep : hostStep limits path host .start = some h') :
    Sound limits path d₀ c₀ (acts ++ [.start]) h' := by
  have hreached := reached_snoc h.reached hstep
  simp only [hostStep] at hstep
  split at hstep
  · next c _ hload =>
      obtain rfl := Option.some.inj hstep
      obtain ⟨⟨c', hload', hcredited⟩, _⟩ := h.file.read
      obtain rfl : c' = c := Except.ok.inj (hload'.symm.trans hload)
      refine ⟨hreached, h.file.mono (fun _ hx => hx.snoc _), ?_, ?_, ?_⟩
      · rw [lives_snoc]
        intro life hlife id hid
        rcases List.mem_cons.mp hlife with rfl | hlife
        · exact absurd hid List.not_mem_nil
        · exact h.ids life hlife id hid
      · rintro r ⟨rfl⟩
        exact ⟨[], lives acts, c', lives_snoc acts .start, hcredited, tracks_init c'⟩
      · rintro r s ⟨rfl⟩ hs
        exact absurd hs (by simp)
  · exact absurd hstep (by simp)

theorem Sound.act {a : Action} (h : Sound limits path d₀ c₀ acts host)
    (hid : ∀ id, a = .send (some id) → Py.Encodable id) (hstep : hostStep limits path host (.act a) = some h') :
    Sound limits path d₀ c₀ (acts ++ [.act a]) h' := by
  have hreached := reached_snoc h.reached hstep
  simp only [hostStep] at hstep
  split at hstep
  · next w hproc =>
      obtain ⟨life, earlier, c, hlives, hcredited, htracks⟩ := h.process _ hproc
      have hgrow : lives (acts ++ [.act a]) = (life ++ [a]) :: earlier := by
        rw [lives_snoc, hlives]
        rfl
      have hids : IdsEncodable (lives (acts ++ [.act a])) := by
        rw [hgrow]
        intro l hl id hsend
        have hall : ∀ l ∈ life :: earlier, ∀ id, .send (some id) ∈ l → Py.Encodable id := hlives ▸ h.ids
        rcases List.mem_cons.mp hl with rfl | hl
        · rcases List.mem_append.mp hsend with hsend | hsend
          · exact hall life List.mem_cons_self id hsend
          · exact hid id (List.mem_singleton.mp hsend).symm
        · exact hall l (List.mem_cons_of_mem _ hl) id hsend
      have hfile := h.file.mono (fun _ hx => hx.snoc (.act a))
      split at hstep
      · exact absurd hstep (by simp)
      · next w' hw' =>
          have htracks' := htracks.step hw'
          split at hstep
          · obtain rfl := Option.some.inj hstep
            refine ⟨hreached, hfile, hids, ?_, ?_⟩
            · rintro r ⟨rfl⟩
              exact ⟨_, _, c, hgrow, hcredited, htracks'⟩
            · rintro r s ⟨rfl⟩ hs
              exact absurd hs (by simp)
          · next due hdue =>
              obtain rfl := Option.some.inj hstep
              refine ⟨hreached, hfile, hids, ?_, ?_⟩
              · intro r hr
                rw [(startSave_eq_some hr).1]
                exact ⟨_, _, c, hgrow, hcredited, htracks'⟩
              · intro r s hr hs
                obtain ⟨hworld, text, htext, hpayload⟩ := startSave_eq_some hr
                obtain rfl := Option.some.inj (htext.symm.trans hs)
                rw [hworld, checkpoint_of_saveDue hw' hdue]
                exact hpayload
  · exact absurd hstep (by simp)

theorem Sound.shutdown (h : Sound limits path d₀ c₀ acts host) (hstep : hostStep limits path host .shutdown = some h') :
    Sound limits path d₀ c₀ (acts ++ [.shutdown]) h' := by
  have hstep' := hstep
  simp only [hostStep] at hstep
  split at hstep
  · next w hproc =>
      obtain rfl := Option.some.inj hstep
      refine h.keep hstep' rfl h.file (fun r hr => ?_)
      dsimp only at hr
      split at hr
      · exact absurd hr (by simp)
      · obtain ⟨hworld, text, htext, hpayload⟩ := startSave_eq_some hr
        refine ⟨⟨_, hproc, hworld⟩, fun s hs => ?_⟩
        obtain rfl := Option.some.inj (htext.symm.trans hs)
        rw [hworld]
        exact hpayload
  · exact absurd hstep (by simp)

/-! ### A save -/

theorem Sound.mkstemp {random : Str} (h : Sound limits path d₀ c₀ acts host) (hpath : tempName random ≠ path)
    (hstep : hostStep limits path host (.mkstemp random) = some h') :
    Sound limits path d₀ c₀ (acts ++ [.mkstemp random]) h' := by
  have hstep' := hstep
  simp only [hostStep] at hstep
  split at hstep
  · next w text hproc =>
      split at hstep
      · obtain rfl := Option.some.inj hstep
        obtain ⟨hkeeps, hhidden⟩ := h.file.create hpath
        refine h.keep hstep' rfl hkeeps ?_
        rintro r ⟨rfl⟩
        refine ⟨⟨_, hproc, rfl⟩, ?_⟩
        rintro s ⟨rfl⟩
        split
        · next bytes hbytes =>
            have hpayload : w.sender.checkpoint.payload limits = some text := h.saving _ _ hproc rfl
            refine ⟨text, hpayload, hpath, if_pos rfl, hhidden, ?_⟩
            have hnew : (host.disk.create (tempName random)).data host.disk.fresh = [] := if_pos rfl
            rw [hnew]
            exact hbytes
        · exact hpath
      · exact absurd hstep (by simp)
  · exact absurd hstep (by simp)

theorem Sound.write {n : Nat} (h : Sound limits path d₀ c₀ acts host)
    (hstep : hostStep limits path host (.write n) = some h') :
    Sound limits path d₀ c₀ (acts ++ [.write n]) h' := by
  have hstep' := hstep
  simp only [hostStep] at hstep
  split at hstep
  · next w tmp file rest hproc =>
      obtain rfl := Option.some.inj hstep
      obtain ⟨text, hpayload, hne, hname, hhidden, hbytes⟩ := h.saving _ _ hproc rfl
      refine h.keep hstep' rfl (h.file.append hhidden _) ?_
      rintro r ⟨rfl⟩
      refine ⟨⟨_, hproc, rfl⟩, ?_⟩
      rintro s ⟨rfl⟩
      refine ⟨text, hpayload, hne, hname, hhidden, ?_⟩
      have hdata : (host.disk.append file (rest.take n)).data file = host.disk.data file ++ rest.take n := if_pos rfl
      rw [hdata, List.append_assoc, List.take_append_drop]
      exact hbytes
  · exact absurd hstep (by simp)

theorem Sound.fsync (h : Sound limits path d₀ c₀ acts host) (hstep : hostStep limits path host .fsync = some h') :
    Sound limits path d₀ c₀ (acts ++ [.fsync]) h' := by
  have hstep' := hstep
  simp only [hostStep] at hstep
  split at hstep
  · next w tmp file hproc =>
      obtain rfl := Option.some.inj hstep
      obtain ⟨text, hpayload, hne, hname, hhidden, hbytes⟩ := h.saving _ _ hproc rfl
      refine h.keep hstep' rfl (h.file.sync file) ?_
      rintro r ⟨rfl⟩
      refine ⟨⟨_, hproc, rfl⟩, ?_⟩
      rintro s ⟨rfl⟩
      exact ⟨if_pos rfl, text, hpayload, hne, hname, hhidden, hbytes⟩
  · exact absurd hstep (by simp)

/-- What is renamed over the checkpoint is the whole text of the one in memory. -/
theorem Sound.replaced (h : Sound limits path d₀ c₀ acts host) (hdepth : 0 < limits.maxDepth) (hc₀ : c₀.Clean)
    (hstep : hostStep limits path host .replace = some h') : ∃ w tmp file,
      host.process = some { world := w, saving := some (.synced tmp file) } ∧
      h' = { disk := host.disk.rename tmp path, process := some { world := w } } ∧
      host.disk.names tmp = some file ∧ file < host.disk.fresh ∧ host.disk.synced file = true ∧
      Checkpoint.load limits (some (host.disk.data file)) = .ok w.sender.checkpoint ∧
      Credited c₀ (lives acts) w.sender.checkpoint := by
  simp only [hostStep] at hstep
  split at hstep
  · next w tmp file hproc =>
      obtain rfl := Option.some.inj hstep
      obtain ⟨hsynced, text, hpayload, _, hname, hhidden, hbytes⟩ := h.saving _ _ hproc rfl
      obtain ⟨life, earlier, c, hlives, hcredited, htracks⟩ := h.process _ hproc
      have hcredit : Credited c₀ (lives acts) w.sender.checkpoint := by
        rw [hlives]
        exact hcredited.life htracks
      obtain ⟨bytes, hencode, hload⟩ := load_payload hdepth (hcredit.clean h.ids hc₀) hpayload
      rw [List.append_nil] at hbytes
      obtain rfl := Option.some.inj (hbytes.symm.trans hencode)
      exact ⟨w, tmp, file, hproc, rfl, hname, hhidden.1, hsynced, hload, hcredit⟩
  · exact absurd hstep (by simp)

theorem Sound.replace (h : Sound limits path d₀ c₀ acts host) (hdepth : 0 < limits.maxDepth) (hc₀ : c₀.Clean)
    (hstep : hostStep limits path host .replace = some h') : Sound limits path d₀ c₀ (acts ++ [.replace]) h' := by
  have hreached := reached_snoc h.reached hstep
  obtain ⟨w, tmp, file, hproc, rfl, hname, hlt, hsynced, hload, hcredit⟩ := h.replaced hdepth hc₀ hstep
  have hfile := h.file.mono (fun _ hx => hx.snoc .replace)
  refine ⟨hreached, hfile.rename hname hlt hsynced ?_, ?_, ?_, ?_⟩
  · exact ⟨⟨_, hload, by rwa [lives_snoc]⟩, _, _, List.prefix_refl _, hreached, read_rename hname⟩
  · rw [lives_snoc]
    exact h.ids
  · rintro r ⟨rfl⟩
    obtain ⟨life, earlier, c, hlives, hrest⟩ := h.process _ hproc
    exact ⟨life, earlier, c, (lives_snoc acts .replace).trans hlives, hrest⟩
  · rintro r s ⟨rfl⟩ hs
    exact absurd hs (by simp)

theorem Sound.fail (h : Sound limits path d₀ c₀ acts host) (hstep : hostStep limits path host .fail = some h') :
    Sound limits path d₀ c₀ (acts ++ [.fail]) h' := by
  have hstep' := hstep
  simp only [hostStep] at hstep
  split at hstep
  · next w tmp file rest hproc =>
      obtain rfl := Option.some.inj hstep
      obtain ⟨text, _, hne, _⟩ := h.saving _ _ hproc rfl
      refine h.keep hstep' rfl h.file ?_
      rintro r ⟨rfl⟩
      refine ⟨⟨_, hproc, rfl⟩, ?_⟩
      rintro s ⟨rfl⟩
      exact hne
  · next w tmp file hproc =>
      obtain rfl := Option.some.inj hstep
      obtain ⟨_, text, _, hne, _⟩ := h.saving _ _ hproc rfl
      refine h.keep hstep' rfl h.file ?_
      rintro r ⟨rfl⟩
      refine ⟨⟨_, hproc, rfl⟩, ?_⟩
      rintro s ⟨rfl⟩
      exact hne
  · obtain rfl := Option.some.inj hstep
    exact h.keep hstep' rfl h.file (fun r hr => absurd hr (by simp))
  · exact absurd hstep (by simp)

/-- A step after which no process runs. -/
theorem Sound.gone {a : HostAction} {d : Disk Str UInt8} (h : Sound limits path d₀ c₀ acts host)
    (hlives : grow (lives acts) a = lives acts) (hfile : Keeps (Saved limits path d₀ c₀ acts) path d)
    (hstep : hostStep limits path host a = some { disk := d }) : Sound limits path d₀ c₀ (acts ++ [a]) { disk := d } :=
  h.keep hstep hlives hfile (fun r hr => absurd hr (by simp))

theorem Sound.unlink (h : Sound limits path d₀ c₀ acts host) (hstep : hostStep limits path host .unlink = some h') :
    Sound limits path d₀ c₀ (acts ++ [.unlink]) h' := by
  have hstep' := hstep
  simp only [hostStep] at hstep
  split at hstep
  · next w tmp hproc =>
      obtain rfl := Option.some.inj hstep
      have hne : tmp ≠ path := h.saving _ _ hproc rfl
      exact h.gone rfl (h.file.unlink hne) hstep'
  · exact absurd hstep (by simp)

theorem Sound.powerCut {k : Nat} {garbage : Nat → Bytes} (h : Sound limits path d₀ c₀ acts host)
    (hstep : hostStep limits path host (.powerCut k garbage) = some h') :
    Sound limits path d₀ c₀ (acts ++ [.powerCut k garbage]) h' := by
  obtain ⟨d, hd, rfl⟩ := Option.map_eq_some_iff.mp hstep
  exact h.gone rfl (h.file.powerCut hd) hstep

/-- What each action may be: ids without surrogates. -/
def Receivable : HostAction → Prop
  | .act (.send (some id)) => Py.Encodable id
  | _ => True

instance : DecidablePred Receivable
  | .act (.send (some id)) => inferInstanceAs (Decidable (Py.Encodable id))
  | .act (.send none) | .act (.callback _ _ _) | .start | .shutdown | .mkstemp _ | .write _ | .fsync | .replace | .fail
  | .unlink | .kill | .powerCut _ _ => inferInstanceAs (Decidable True)

theorem Sound.step {a : HostAction} (h : Sound limits path d₀ c₀ acts host) (hdepth : 0 < limits.maxDepth)
    (hc₀ : c₀.Clean) (hpath : ∀ random, tempName random ≠ path) (ha : Receivable a)
    (hstep : hostStep limits path host a = some h') : Sound limits path d₀ c₀ (acts ++ [a]) h' := by
  cases a with
  | start => exact h.start hstep
  | act a =>
      refine h.act (fun id hid => ?_) hstep
      subst hid
      exact ha
  | shutdown => exact h.shutdown hstep
  | mkstemp random => exact h.mkstemp (hpath random) hstep
  | write n => exact h.write hstep
  | fsync => exact h.fsync hstep
  | replace => exact h.replace hdepth hc₀ hstep
  | fail => exact h.fail hstep
  | unlink => exact h.unlink hstep
  | kill =>
      obtain rfl := Option.some.inj hstep
      exact h.gone rfl h.file hstep
  | powerCut k garbage => exact h.powerCut hstep

/-- Between a rename and a power failure the file stays as it is. -/
theorem Sound.read_eq {a : HostAction} (h : Sound limits path d₀ c₀ acts host)
    (hpath : ∀ random, tempName random ≠ path) (hreplace : a ≠ .replace) (hcut : ∀ k garbage, a ≠ .powerCut k garbage)
    (hstep : hostStep limits path host a = some h') : h'.disk.read path = host.disk.read path := by
  cases a with
  | start =>
      simp only [hostStep] at hstep
      split at hstep
      · exact (Option.some.inj hstep) ▸ rfl
      · exact absurd hstep (by simp)
  | act a =>
      simp only [hostStep] at hstep
      split at hstep
      · split at hstep
        · exact absurd hstep (by simp)
        · split at hstep
          · exact (Option.some.inj hstep) ▸ rfl
          · exact (Option.some.inj hstep) ▸ rfl
      · exact absurd hstep (by simp)
  | shutdown =>
      simp only [hostStep] at hstep
      split at hstep
      · exact (Option.some.inj hstep) ▸ rfl
      · exact absurd hstep (by simp)
  | mkstemp random =>
      simp only [hostStep] at hstep
      split at hstep
      · split at hstep
        · exact (Option.some.inj hstep) ▸ read_create (hpath random) h.file
        · exact absurd hstep (by simp)
      · exact absurd hstep (by simp)
  | write n =>
      simp only [hostStep] at hstep
      split at hstep
      · next w tmp file rest hproc =>
          obtain ⟨_, _, _, _, hhidden, _⟩ := h.saving _ _ hproc rfl
          exact (Option.some.inj hstep) ▸ read_append hhidden h.file.current _
      · exact absurd hstep (by simp)
  | fsync =>
      simp only [hostStep] at hstep
      split at hstep
      · exact (Option.some.inj hstep) ▸ rfl
      · exact absurd hstep (by simp)
  | replace => exact absurd rfl hreplace
  | fail =>
      simp only [hostStep] at hstep
      split at hstep
      · exact (Option.some.inj hstep) ▸ rfl
      · exact (Option.some.inj hstep) ▸ rfl
      · exact (Option.some.inj hstep) ▸ rfl
      · exact absurd hstep (by simp)
  | unlink =>
      simp only [hostStep] at hstep
      split at hstep
      · next w tmp hproc => exact (Option.some.inj hstep) ▸ read_unlink (h.saving _ _ hproc rfl)
      · exact absurd hstep (by simp)
  | kill => exact (Option.some.inj hstep) ▸ rfl
  | powerCut k garbage => exact absurd rfl (hcut k garbage)

/-- **The checkpoint file survives.** From a disk whose file loads to `c₀`, through any lives of the ingestor, calls
    that raise, kills and power failures: the file loads, and to a checkpoint that counts only messages confirmed in
    order in those lives. A rename that is done leaves the whole checkpoint in memory in the file. Nothing else changes
    it but a power failure, which brings back what it held before. -/
theorem checkpoint_survives (hdepth : 0 < limits.maxDepth) (hpath : ∀ random, tempName random ≠ path)
    (hdisk : Keeps (· = d₀.read path) path d₀) (hload : Checkpoint.load limits (d₀.read path) = .ok c₀)
    (hc₀ : c₀.Clean) (hids : ∀ a ∈ acts, Receivable a)
    (hrun : run (hostStep limits path) { disk := d₀ } acts = some host) :
    (∃ c, Checkpoint.load limits (host.disk.read path) = .ok c ∧ Credited c₀ (lives acts) c) ∧
      (∀ h', hostStep limits path host .replace = some h' → ∃ r, host.process = some r ∧
        Checkpoint.load limits (h'.disk.read path) = .ok r.world.sender.checkpoint) ∧
      ∀ a h', hostStep limits path host a = some h' → h'.disk.read path = host.disk.read path ∨ a = .replace ∨
        ((∃ k garbage, a = .powerCut k garbage) ∧ ∃ before earlier, before <+: acts ∧
          run (hostStep limits path) { disk := d₀ } before = some earlier ∧
          earlier.disk.read path = h'.disk.read path) := by
  have hinit : Sound limits path d₀ c₀ [] { disk := d₀ } := by
    refine ⟨rfl, hdisk.mono ?_, fun life hlife => absurd hlife List.not_mem_nil, ?_, ?_⟩
    · rintro found rfl
      exact ⟨⟨c₀, hload, credited_start c₀⟩, [], { disk := d₀ }, List.prefix_refl _, rfl, rfl⟩
    · exact fun r hr => absurd hr (by simp)
    · exact fun r s hr => absurd hr (by simp)
  have hsound : Sound limits path d₀ c₀ acts host :=
    run_invariant hinit (fun _ _ _ _ h ha hstep => h.step hdepth hc₀ hpath ha hstep) (always_of_mem hids _) hrun
  refine ⟨hsound.file.read.1, ?_, ?_⟩
  · intro h' hstep
    obtain ⟨w, tmp, file, hproc, rfl, hname, _, _, hload', _⟩ := hsound.replaced hdepth hc₀ hstep
    refine ⟨_, hproc, ?_⟩
    rw [show Disk.read _ path = some (host.disk.data file) from read_rename hname]
    exact hload'
  · intro a h' hstep
    by_cases hreplace : a = .replace
    · exact Or.inr (Or.inl hreplace)
    by_cases hcut : ∃ k garbage, a = .powerCut k garbage
    · refine Or.inr (Or.inr ⟨hcut, ?_⟩)
      obtain ⟨k, garbage, rfl⟩ := hcut
      obtain ⟨d, hd, rfl⟩ := Option.map_eq_some_iff.mp hstep
      exact (hsound.file.powerCut hd).read.2
    · exact Or.inl (hsound.read_eq hpath hreplace (fun k garbage heq => hcut ⟨k, garbage, heq⟩) hstep)

/-- A disk without any file. -/
def bare : Disk Str UInt8 where
  names _ := none
  data _ := []
  synced _ := false
  fresh := 0
  tables := [fun _ => none]

/-- The first event is saved, and the power fails while the second is; the disk still has the older table. -/
def cutShort : List HostAction :=
  [.start, .act (.send (some (lit "é"))), .act (.callback 1 none true), .mkstemp (lit "a"), .write 20, .write 60,
    .fsync, .replace, .act (.send (some (lit "b"))), .act (.callback 2 none true), .mkstemp (lit "b"), .write 9,
    .powerCut 1 (fun _ => [0xff])]

theorem checkpoint_survives_cut : ∃ host, run (hostStep ⟨4300, 1000⟩ (lit "ingestor.json")) { disk := bare } cutShort =
      some host ∧ ∃ c, Checkpoint.load ⟨4300, 1000⟩ (host.disk.read (lit "ingestor.json")) = .ok c ∧
        Credited {} (lives cutShort) c := by
  have hrun : (run (hostStep ⟨4300, 1000⟩ (lit "ingestor.json")) { disk := bare } cutShort).isSome = true := by
    decide +kernel
  obtain ⟨host, hhost⟩ := Option.isSome_iff_exists.mp hrun
  have hname : ∀ random, tempName random ≠ lit "ingestor.json" := by
    intro random h
    have hhead : some (chr 't') = some (chr 'i') := congrArg List.head? h
    exact absurd hhead (by decide)
  have hdisk : Keeps (· = bare.read (lit "ingestor.json")) (lit "ingestor.json") bare := by
    refine ⟨List.mem_singleton_self _, ?_, ?_⟩
    · intro names hnames f hf
      rw [List.mem_singleton.mp hnames] at hf
      exact absurd hf (by simp)
    · intro names hnames
      rw [List.mem_singleton.mp hnames]
      rfl
  have hclean : ({} : Checkpoint).Clean := fun last hlast => absurd hlast (by simp)
  exact ⟨host, hhost, (checkpoint_survives (by decide) hname hdisk rfl hclean (by decide) hhost).1⟩

end Delivery
end Ingestor
end Wikistream
