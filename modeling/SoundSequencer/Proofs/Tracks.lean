/-
SoundSequencer.Proofs.Tracks — what can become of a track that plays.

* `Track.Step` lists what happens to a track between its start and the next;
  `Track.Steps` is any number of steps.
* Every deed, every freed voice and every note takes each track of the pool
  through such steps: `steps_deed`, `steps_freeVoice`, `steps_playNote`,
  `steps_noteOn`.
* What every step keeps therefore lasts for all tracks: `lasting_tracks`.
-/
import SoundSequencer.Proofs.Effects
import SoundSequencer.Proofs.Performance

namespace SoundSequencer

/-! ## Steps -/

namespace Track

/-- The track with a voice more. -/
def withVoice (t : Track) : Track := { t with voicesActive := t.voicesActive + 1 }

@[simp] theorem voicesActive_voiceFreed (t : Track) :
    t.voiceFreed.voicesActive = t.voicesActive - 1 := by
  unfold voiceFreed
  split <;> rfl

/-- The track without a handle. -/
def unhandled (t : Track) : Track := { t with flags := { t.flags with handled := false } }

/-- What can happen to a track at once, as long as nothing starts it or lets it
go on. -/
inductive Step : Track → Track → Prop where
  | tuned {t t' : Track} : t'.standing = t.standing → Step t t'
  | paused (t : Track) : Step t t.paused
  | retired (t : Track) : Step t t.retired
  | awaiting (t : Track) : t.voicesActive ≠ 0 → Step t t.awaiting
  | voiceFreed (t : Track) : Step t t.voiceFreed
  | withVoice (t : Track) : Step t t.withVoice

/-- Steps one after the other. -/
abbrev Steps : Track → Track → Prop := Relation.ReflTransGen Step

theorem Step.steps {t t' : Track} (h : Step t t') : Steps t t' := .single h

theorem Steps.of_eq {t t' : Track} (h : t' = t) : Steps t t' := h ▸ .refl

/-- What every step keeps, any number of steps keeps. -/
theorem Steps.keeps {good : Track → Prop} (hstep : ∀ t t', Step t t' → good t → good t')
    {t t' : Track} (h : Steps t t') (ht : good t) : good t' := by
  induction h with
  | refl => exact ht
  | tail _ hlast ih => exact hstep _ _ hlast ih

/-- A step leaves a track in its place, with its driver and its limit. -/
theorem Step.place {t t' : Track} (h : Step t t') :
    t'.slot = t.slot ∧ t'.sequence = t.sequence ∧ t'.position = t.position ∧
      t'.driver = t.driver ∧ t'.maxVoices = t.maxVoices := by
  cases h with
  | tuned h =>
    exact ⟨(congrArg Track.slot h :), (congrArg Track.sequence h :),
      (congrArg Track.position h :), (congrArg Track.driver h :), (congrArg Track.maxVoices h :)⟩
  | paused => exact ⟨rfl, rfl, rfl, rfl, rfl⟩
  | retired => exact ⟨rfl, rfl, rfl, rfl, rfl⟩
  | awaiting => exact ⟨rfl, rfl, rfl, rfl, rfl⟩
  | voiceFreed =>
    unfold Track.voiceFreed
    split <;> exact ⟨rfl, rfl, rfl, rfl, rfl⟩
  | withVoice => exact ⟨rfl, rfl, rfl, rfl, rfl⟩

theorem Steps.place {t t' : Track} (h : Steps t t') :
    t'.slot = t.slot ∧ t'.sequence = t.sequence ∧ t'.position = t.position ∧
      t'.driver = t.driver ∧ t'.maxVoices = t.maxVoices := by
  induction h with
  | refl => exact ⟨rfl, rfl, rfl, rfl, rfl⟩
  | tail _ hlast ih =>
    obtain ⟨hs, hq, hp, hd, hm⟩ := hlast.place
    obtain ⟨is, iq, ip, id, im⟩ := ih
    exact ⟨hs.trans is, hq.trans iq, hp.trans ip, hd.trans id, hm.trans im⟩

/-- No step lets a track go on. -/
theorem Step.isRunning {t t' : Track} (h : Step t t') (hrun : t'.isRunning = true) :
    t.isRunning = true := by
  cases h with
  | tuned h => exact (congrArg Track.isRunning h).symm.trans hrun
  | paused => simp [Track.isRunning, Track.isStopped, Track.paused] at hrun
  | retired => simp [Track.isRunning, Track.isStopped, Track.retired] at hrun
  | awaiting => simp [Track.isRunning, Track.isStopped, Track.awaiting] at hrun
  | voiceFreed =>
    unfold Track.voiceFreed at hrun
    split at hrun
    · simp [Track.isRunning, Track.isStopped, Track.retired] at hrun
    · exact hrun
  | withVoice => exact hrun

theorem Steps.isRunning {t t' : Track} (h : Steps t t') (hrun : t'.isRunning = true) :
    t.isRunning = true := by
  induction h with
  | refl => exact hrun
  | tail _ hlast ih => exact ih (hlast.isRunning hrun)

/-- No step brings a track into the pool. -/
theorem Step.isActive {t t' : Track} (h : Step t t') (hactive : t'.isActive = true) :
    t.isActive = true := by
  cases h with
  | tuned h => exact (congrArg Track.isActive h).symm.trans hactive
  | paused => exact hactive
  | retired => exact (Bool.and_eq_true_iff.mp hactive).1
  | awaiting => exact hactive
  | voiceFreed =>
    unfold Track.voiceFreed at hactive
    split at hactive
    · exact (Bool.and_eq_true_iff.mp hactive).1
    · exact hactive
  | withVoice => exact hactive

theorem Steps.isActive {t t' : Track} (h : Steps t t') (hactive : t'.isActive = true) :
    t.isActive = true := by
  induction h with
  | refl => exact hactive
  | tail _ hlast ih => exact ih (hlast.isActive hactive)

theorem Steps.maxVoices {t t' : Track} (h : Steps t t') : t'.maxVoices = t.maxVoices :=
  h.place.2.2.2.2

/-! ## Tracks that may play -/

/-- A track of a sequence that plays notes and is not turned off. -/
structure MayPlay (t : Track) : Prop where
  active : t.isActive = true
  driver : t.driver = .voices
  on : t.flags.off = false

theorem MayPlay.voiceFreed (t : Track) (h : t.MayPlay) : t.voiceFreed.MayPlay := by
  have hstays : t.voiceFreed = t.withoutVoice :=
    if_neg fun hlast => Bool.false_ne_true (h.on.symm.trans hlast.2)
  rw [hstays]
  exact ⟨h.active, h.driver, h.on⟩

theorem MayPlay.withVoice (t : Track) (h : t.MayPlay) : t.withVoice.MayPlay :=
  ⟨h.active, h.driver, h.on⟩

end Track

namespace Engine

variable {σ : Type} [SoundChip σ]

/-! ## The tracks of the pool -/

/-- Every track of the pool has gone through steps. -/
def Steps (e e' : Engine σ) : Prop := ∀ i, Track.Steps (e.track i) (e'.track i)

omit [SoundChip σ] in
theorem Steps.refl (e : Engine σ) : Steps e e := fun _ => .refl

omit [SoundChip σ] in
theorem Steps.trans {a b c : Engine σ} (hab : Steps a b) (hbc : Steps b c) : Steps a c :=
  fun i => (hab i).trans (hbc i)

theorem Tuned.steps {e e' : Engine σ} (h : Tuned e e') : Steps e e' :=
  fun i => .single (.tuned (h.track i))

omit [SoundChip σ] in
/-- Steps of one track alone. -/
theorem steps_of_ite {e e' : Engine σ} {p : Nat → Prop} [DecidablePred p] {f : Track → Track}
    (htrack : ∀ j, e'.track j = if p j then f (e.track j) else e.track j)
    (hf : ∀ j, p j → Track.Step (e.track j) (f (e.track j))) : Steps e e' := by
  intro j
  rw [htrack]
  split
  · next h => exact (hf j h).steps
  · exact .refl

omit [SoundChip σ] in
theorem steps_pauseTrack (e : Engine σ) (i : Nat) : Steps e (e.pauseTrack i) :=
  steps_of_ite (track_pauseTrack e i) fun _ _ => .paused _

omit [SoundChip σ] in
theorem steps_retireTrack (e : Engine σ) (i : Nat) : Steps e (e.retireTrack i) :=
  steps_of_ite (track_retireTrack e i) fun _ _ => .retired _

omit [SoundChip σ] in
theorem steps_releaseVoices (e : Engine σ) (i : Nat) : Steps e (e.releaseVoices i) :=
  fun j => .of_eq (track_releaseVoices e i j)

omit [SoundChip σ] in
theorem steps_muteTrack (e : Engine σ) (i : Nat) : Steps e (e.muteTrack i) := by
  unfold muteTrack
  split
  · exact .refl e
  · exact steps_releaseVoices e i

omit [SoundChip σ] in
theorem steps_turnOff (e : Engine σ) (i : Nat) : Steps e (e.turnOff i) := by
  rw [turnOff_eq]
  split
  · exact steps_retireTrack e i
  · split
    · exact steps_retireTrack e i
    · next hvoices =>
      refine (steps_releaseVoices e i).trans (steps_of_ite (track_awaitVoices _ i) ?_)
      rintro j ⟨rfl, -⟩
      rw [track_releaseVoices]
      exact .awaiting _ hvoices

theorem steps_deed {e e' : Engine σ} (h : Deed e e') : Steps e e' := by
  cases h with
  | tuned h => exact h.steps
  | turnOff => exact steps_turnOff e _
  | endSequence s => exact foldl_relates .refl (fun _ _ _ => .trans) steps_turnOff _ e
  | noteOff => exact .refl e
  | pauseTrack => exact steps_pauseTrack e _
  | muteTrack i => exact steps_muteTrack e i

omit [SoundChip σ] in
theorem steps_freeVoice (e : Engine σ) (v : Nat) : Steps e (e.freeVoice v) :=
  steps_of_ite (track_freeVoice e v) fun _ _ => .voiceFreed _

/-! ## Notes -/

theorem startVoice_of_none {e : Engine σ} {v i : Nat} {patchVoice : UInt16}
    {note velocity : UInt8} (h : e.module.patches.voice? patchVoice.toNat = none) :
    e.startVoice v i patchVoice note velocity = e := by
  unfold startVoice
  rw [h]

/-- A note that starts occupies its voice for its track and changes nothing else but
the chip and what goes to the reverb unit. -/
theorem startVoice_of_some {e : Engine σ} {patchVoice : UInt16} {patch : PatchVoice}
    (v i : Nat) (note velocity : UInt8)
    (h : e.module.patches.voice? patchVoice.toNat = some patch) :
    ∃ (voice : Voice) (chip : σ) (reverbVoices : VoiceSet),
      voice.track = i ∧ voice.patchVoice = patchVoice ∧
      e.startVoice v i patchVoice note velocity =
        { e.modifyTrack i Track.withVoice with
          voices := e.voices.occupy v voice, chip, reverbVoices } := by
  unfold startVoice
  rw [h]
  unfold keyOn routeReverb
  dsimp only
  split
  · exact ⟨_, _, _, rfl, rfl, rfl⟩
  · exact ⟨_, _, _, rfl, rfl, rfl⟩

theorem track_startVoice (e : Engine σ) (v i : Nat) (patchVoice : UInt16)
    (note velocity : UInt8) (j : Nat) :
    (e.startVoice v i patchVoice note velocity).track j =
      if (e.module.patches.voice? patchVoice.toNat).isSome ∧ i = j ∧ j < e.tracks.size then
        (e.track j).withVoice
      else e.track j := by
  cases h : e.module.patches.voice? patchVoice.toNat with
  | none =>
    rw [startVoice_of_none h]
    simp
  | some patch =>
    obtain ⟨_, _, _, -, -, hstarted⟩ := startVoice_of_some v i note velocity h
    rw [hstarted]
    refine (track_modifyTrack e i j _).trans ?_
    simp only [Option.isSome_some, true_and]

theorem steps_startVoice (e : Engine σ) (v i : Nat) (patchVoice : UInt16)
    (note velocity : UInt8) : Steps e (e.startVoice v i patchVoice note velocity) :=
  steps_of_ite (track_startVoice e v i patchVoice note velocity) fun _ _ => .withVoice _

theorem steps_playNote (e : Engine σ) (i : Nat) (patchVoice : UInt16) (note velocity : UInt8) :
    Steps e (e.playNote i patchVoice note velocity) := by
  unfold playNote
  dsimp only
  split
  · exact .refl e
  · split
    · exact .refl e
    · exact steps_startVoice e _ i patchVoice note velocity
    · exact (steps_freeVoice e _).trans (steps_startVoice _ _ i patchVoice note velocity)

theorem steps_noteOn (e : Engine σ) (i : Nat) (key velocity : UInt8) :
    Steps e (e.noteOn i key velocity) := by
  unfold noteOn
  split
  · exact .refl e
  · exact foldl_relates .refl (fun _ _ _ => .trans)
      (fun e _ => steps_playNote e i _ _ velocity) _ e

omit [SoundChip σ] in
theorem freeVoice_keeps {good : Track → Prop} (hfreed : ∀ t, good t → good t.voiceFreed)
    {e : Engine σ} {i : Nat} (h : good (e.track i)) (v : Nat) :
    good ((e.freeVoice v).track i) := by
  rw [track_freeVoice]
  split
  · exact hfreed _ h
  · exact h

theorem startVoice_keeps {good : Track → Prop} (hvoice : ∀ t, good t → good t.withVoice)
    {e : Engine σ} {i : Nat} (h : good (e.track i)) (v j : Nat) (patchVoice : UInt16)
    (note velocity : UInt8) :
    good ((e.startVoice v j patchVoice note velocity).track i) := by
  rw [track_startVoice]
  split
  · exact hvoice _ h
  · exact h

/-- What neither a voice less nor a voice more ends, no note for whatever track
ends. -/
theorem playNote_keeps {good : Track → Prop} (hfreed : ∀ t, good t → good t.voiceFreed)
    (hvoice : ∀ t, good t → good t.withVoice) {e : Engine σ} {i : Nat} (h : good (e.track i))
    (j : Nat) (patchVoice : UInt16) (note velocity : UInt8) :
    good ((e.playNote j patchVoice note velocity).track i) := by
  unfold playNote
  dsimp only
  split
  · exact h
  · split
    · exact h
    · exact startVoice_keeps hvoice h _ j patchVoice note velocity
    · exact startVoice_keeps hvoice (freeVoice_keeps hfreed h _) _ j patchVoice note velocity

/-! ## The start of a track -/

omit [SoundChip σ] in
/-- A track of the pool that starts: it belongs to the sequence, is on and has no
voice, and it is paused if a handle holds it. -/
theorem track_startTrack (e : Engine σ) (slot sequence : Nat) (options : StartOptions)
    (i position : Nat) : ∃ t : Track, t.isActive = true ∧ t.isStopped = options.handled ∧
      t.isHandled = options.handled ∧ t.flags.off = false ∧ t.voicesActive = 0 ∧
      t.slot = slot ∧ t.sequence = sequence ∧ t.position = position ∧
      ∀ j, (e.startTrack slot sequence options i position).track j =
        if (e.module.track? sequence position).isSome ∧ i = j ∧ j < e.tracks.size then t
        else e.track j := by
  unfold startTrack
  split
  · next h =>
    exact ⟨{ flags := { active := true, stopped := options.handled, handled := options.handled },
             slot, sequence, position },
      rfl, rfl, rfl, rfl, rfl, rfl, rfl, rfl, fun j => by simp [h]⟩
  · next stream h =>
    obtain ⟨delta, pc⟩ := (stream.event? 0).getD (0, 0)
    have hstart : ∀ t : Track, (t.start stream.header options.attrs).flags.active = true ∧
        (t.start stream.header options.attrs).flags.off = false ∧
        (t.start stream.header options.attrs).voicesActive = 0 := by
      intro t
      unfold Track.start
      dsimp only
      split <;> exact ⟨rfl, rfl, rfl⟩
    obtain ⟨hactive, hoff, hcount⟩ := hstart (e.track i)
    let t := (e.track i).start stream.header options.attrs
    refine ⟨{ t with
      flags := { t.flags with handled := options.handled, stopped := options.handled }
      slot, sequence, position, delta, pc }, hactive, rfl, rfl, hoff, hcount, rfl, rfl, rfl,
      fun j => ?_⟩
    refine (track_modifyTrack e i j _).trans ?_
    by_cases hj : i = j ∧ j < e.tracks.size
    · obtain ⟨rfl, hi⟩ := hj
      simp only [h, hi, Option.isSome_some, and_self, if_true]
      rfl
    · rw [if_neg hj, if_neg fun hp => hj hp.2]

omit [SoundChip σ] in
theorem mem_freeTracks {e : Engine σ} {i : Nat} :
    i ∈ e.freeTracks ↔ i < e.tracks.size ∧ (e.track i).isActive = false := by
  simp [freeTracks, trackIds]

omit [SoundChip σ] in
theorem nodup_freeTracks (e : Engine σ) : e.freeTracks.Nodup :=
  List.nodup_range.filter _

omit [SoundChip σ] in
/-- A property that is not about slots and outlasts the start of any track outside
the sequences outlasts the start of a sequence. -/
theorem startSequence_keeps {good : Engine σ → Prop}
    (hslot : ∀ e s f, good e → good (e.modifySlot s f))
    (hcount : ∀ (e : Engine σ) slotsActive, good e → good { e with slotsActive })
    {options : StartOptions}
    (hstart : ∀ e slot sequence i position, (e.track i).isActive = false → good e →
      good (e.startTrack slot sequence options i position))
    (sequence : Nat) {e : Engine σ} (he : good e) : good (e.startSequence sequence options).2 := by
  unfold startSequence
  split
  · exact he
  · split
    · exact he
    · split
      · exact he
      · next streams _ _ _ slot _ =>
        dsimp only
        split
        · exact hslot _ _ _ he
        · refine hcount _ _ (hslot _ _ _ ?_)
          -- the tracks still to start are outside the sequences and all different
          have hwork := foldl_keeps
            (f := fun e (p : Nat × Nat) => e.startTrack slot sequence options p.1 p.2)
            (fun l e => good e ∧ (l.map Prod.fst).Nodup ∧
              ∀ p ∈ l, (e.track p.1).isActive = false)
            (fun p l e h => by
              obtain ⟨hgood, hnodup, hidle⟩ := h
              rw [List.map_cons, List.nodup_cons] at hnodup
              refine ⟨hstart e _ _ _ _ (hidle p List.mem_cons_self) hgood, hnodup.2,
                fun r hr => ?_⟩
              obtain ⟨t, -, -, -, -, -, -, -, -, htrack⟩ :=
                track_startTrack e slot sequence options p.1 p.2
              have hne : p.1 ≠ r.1 := fun heq =>
                hnodup.1 (heq ▸ List.mem_map_of_mem hr)
              rw [htrack, if_neg fun hp => hne hp.2.1]
              exact hidle r (List.mem_cons_of_mem p hr))
            (e.freeTracks.take streams.size).zipIdx (e.modifySlot slot Slot.cleared)
            ⟨hslot _ _ _ he, by
              rw [List.zipIdx_map_fst]
              exact (nodup_freeTracks e).sublist (List.take_sublist _ _), by
              intro p hp
              have hmem := List.mem_of_mem_take (List.fst_mem_of_mem_zipIdx hp)
              exact (mem_freeTracks.mp hmem).2⟩
          exact hwork.1

/-! ## The end of a handle -/

omit [SoundChip σ] in
theorem track_unhandle (e : Engine σ) (i j : Nat) :
    (e.modifyTrack i Track.unhandled).track j =
      if i = j ∧ j < e.tracks.size then (e.track j).unhandled else e.track j :=
  track_modifyTrack e i j _

omit [SoundChip σ] in
theorem releaseHandle_keeps {good : Engine σ → Prop}
    (hslot : ∀ e s f, good e → good (e.modifySlot s f))
    (hrelease : ∀ e i, good e → good ((e.modifyTrack i Track.unhandled).turnOff i))
    (slot : Nat) {e : Engine σ} (he : good e) : good (e.releaseHandle slot) := by
  unfold releaseHandle
  split
  · exact foldl_keeps (fun _ e => good e) (fun i _ e he => hrelease e i he) _ _ (hslot _ _ _ he)
  · exact he

/-! ## Properties of all tracks -/

omit [SoundChip σ] in
theorem Steps.keeps {good : Track → Prop} (hstep : ∀ t t', Track.Step t t' → good t → good t')
    {e e' : Engine σ} (h : Steps e e') (he : ∀ i, good (e.track i)) : ∀ i, good (e'.track i) :=
  fun i => (h i).keeps hstep (he i)

/-- What every step of a track keeps lasts for all tracks of the pool. -/
theorem lasting_tracks {good : Track → Prop}
    (hstep : ∀ t t', Track.Step t t' → good t → good t') :
    Lasting fun e : Engine σ => ∀ i, good (e.track i) where
  deed _ _ hdeed := (steps_deed hdeed).keeps hstep
  freeVoice e v := (steps_freeVoice e v).keeps hstep
  sound _ _ _ _ h := h

end Engine

end SoundSequencer
