/-
SoundSequencer.Proofs.LeftAlone — what a track that runs leaves alone.

* `Engine.LeftAlone q` says that the slots which satisfy `q` are as they were, and their tracks
  too, but for the number of their voices.
* A command of a track leaves all slots but its own alone: `leftAlone_turnOff`,
  `leftAlone_command`, `leftAlone_stepTrack`. A note may take a voice from any track, and a voice
  may come to its end, which ends the track only if it is turned off: `leftAlone_freeVoice`,
  `leftAlone_noteOn`.
* `Engine.Asleep q` says that all tracks of these slots stand still and none is turned off.
  `leftAlone_ticks` says that ticks leave such slots alone, whatever the others play.
-/
import Mathlib.Logic.Function.Iterate
import SoundSequencer.Proofs.Executions
import SoundSequencer.Proofs.ScoreCommands
import SoundSequencer.Proofs.Stops

namespace SoundSequencer

/-- The track but for the number of its voices. -/
def Track.uncounted (t : Track) : Track := { t with voicesActive := 0 }

namespace Engine

variable {σ : Type} {q : Nat → Prop}

/-- Slots that satisfy `q` are as they were, and so are their tracks, but for the number of their
voices; and every track is on the slot where it was. -/
structure LeftAlone (q : Nat → Prop) (e e' : Engine σ) : Prop where
  slot : ∀ s, q s → e'.slot s = e.slot s
  home : ∀ i, (e'.track i).slot = (e.track i).slot
  track : ∀ i, q (e.track i).slot → (e'.track i).uncounted = (e.track i).uncounted

namespace LeftAlone

theorem refl (e : Engine σ) : LeftAlone q e e := ⟨fun _ _ => rfl, fun _ => rfl, fun _ _ => rfl⟩

theorem trans {a b c : Engine σ} (hab : LeftAlone q a b) (hbc : LeftAlone q b c) :
    LeftAlone q a c where
  slot s hs := (hbc.slot s hs).trans (hab.slot s hs)
  home i := (hbc.home i).trans (hab.home i)
  track i hi := (hbc.track i (by rwa [hab.home])).trans (hab.track i hi)

theorem of_pools {e e' : Engine σ} (htracks : e'.tracks = e.tracks) (hslots : e'.slots = e.slots) :
    LeftAlone q e e' := by
  have htrack : ∀ i, e'.track i = e.track i := fun i => by unfold Engine.track; rw [htracks]
  have hslot : ∀ s, e'.slot s = e.slot s := fun s => by unfold Engine.slot; rw [hslots]
  exact ⟨fun s _ => hslot s, fun i => by rw [htrack], fun i _ => by rw [htrack]⟩

/-- Only a track of another slot has changed. -/
theorem of_track {e e' : Engine σ} {i : Nat} (hi : ¬ q (e.track i).slot)
    (hslot : ∀ s, q s → e'.slot s = e.slot s) (hself : (e'.track i).slot = (e.track i).slot)
    (hother : ∀ j, i ≠ j → e'.track j = e.track j) : LeftAlone q e e' := by
  refine ⟨hslot, fun j => ?_, fun j hj => ?_⟩
  · by_cases hij : i = j
    · exact hij ▸ hself
    · rw [hother j hij]
  · rw [hother j]
    rintro rfl
    exact hi hj

end LeftAlone

theorem leftAlone_modifyTrack {e : Engine σ} {i : Nat} (hi : ¬ q (e.track i).slot)
    {f : Track → Track} (hf : (f (e.track i)).slot = (e.track i).slot) :
    LeftAlone q e (e.modifyTrack i f) := by
  refine .of_track hi (fun _ _ => rfl) ?_ fun j hij => ?_
  · rw [track_modifyTrack]
    split
    · exact hf
    · rfl
  · rw [track_modifyTrack, if_neg fun hboth => hij hboth.1]

theorem leftAlone_modifySlot {e : Engine σ} {s : Nat} (hs : ¬ q s) (g : Slot → Slot) :
    LeftAlone q e (e.modifySlot s g) := by
  refine ⟨fun r hr => ?_, fun _ => rfl, fun _ _ => rfl⟩
  rw [slot_modifySlot, if_neg]
  rintro ⟨rfl, -⟩
  exact hs hr

/-- The turns of tracks of other slots. The work may carry more than the engine. -/
theorem leftAlone_foldl {α : Type} (engine : α → Engine σ) {f : α → Nat → α}
    (hf : ∀ a i, ¬ q ((engine a).track i).slot → LeftAlone q (engine a) (engine (f a i))) :
    ∀ (l : List Nat) (a : α), (∀ i ∈ l, ¬ q ((engine a).track i).slot) →
      LeftAlone q (engine a) (engine (l.foldl f a))
  | [], _, _ => .refl _
  | i :: l, a, hl => by
    have hfirst := hf a i (hl i List.mem_cons_self)
    refine hfirst.trans (leftAlone_foldl engine hf l (f a i) fun j hj => ?_)
    rw [hfirst.home]
    exact hl j (List.mem_cons_of_mem i hj)

/-- Tracks that a slot lists are on no other. -/
theorem Placed.away_of_mem_trackList {e : Engine σ} (h : e.Placed) {s : Nat} (hs : ¬ q s) :
    ∀ i ∈ (e.slot s).trackList, ¬ q (e.track i).slot := by
  intro i hi
  rwa [(h.of_mem (List.mem_of_mem_take hi)).2]

/-! ## Ending -/

theorem leftAlone_retireTrack {e : Engine σ} {i : Nat} (hi : ¬ q (e.track i).slot) :
    LeftAlone q e (e.retireTrack i) := by
  refine .of_track hi (fun s hs => ?_) ?_ fun j hij => ?_
  · have hne : ¬ ((e.track i).slot = s ∧ s < e.slots.size) := by
      rintro ⟨rfl, -⟩
      exact hi hs
    rw [retireTrack_eq]
    exact (slot_modifySlot (e.modifyTrack i Track.retired) _ s _).trans (if_neg hne)
  · rw [track_retireTrack]
    split <;> rfl
  · rw [track_retireTrack, if_neg fun hboth => hij hboth.1]

theorem leftAlone_turnOff {e : Engine σ} {i : Nat} (hi : ¬ q (e.track i).slot) :
    LeftAlone q e (e.turnOff i) := by
  refine .of_track hi (fun s hs => ?_) ?_ fun j hij => ?_
  · rw [slot_turnOff, if_neg]
    rintro ⟨rfl, -⟩
    exact hi hs
  · rw [track_turnOff]
    split
    · unfold Track.turnedOff
      split <;> rfl
    · rfl
  · rw [track_turnOff, if_neg fun hboth => hij hboth.1]

theorem leftAlone_endSequence {e : Engine σ} (h : e.Placed) {s : Nat} (hs : ¬ q s) :
    LeftAlone q e (e.endSequence s) :=
  leftAlone_foldl id (fun _ _ hi => leftAlone_turnOff hi) _ e (h.away_of_mem_trackList hs)

/-! ## Places -/

theorem leftAlone_readDelta? {e e' : Engine σ} {i offset : Nat} (hi : ¬ q (e.track i).slot)
    (h : e.readDelta? i offset = some e') : LeftAlone q e e' := by
  rw [readDelta?_eq] at h
  obtain ⟨t, ht, rfl⟩ := Option.map_eq_some_iff.mp h
  obtain ⟨delta, pc, -, rfl⟩ := Track.behindDelta?_eq_some ht
  exact leftAlone_modifyTrack hi rfl

theorem leftAlone_nextEvent {e : Engine σ} (h : e.Placed) {i : Nat} (hi : ¬ q (e.track i).slot)
    (offset : Nat) : LeftAlone q e (e.nextEvent i offset) := by
  unfold nextEvent
  split
  · next hread => exact leftAlone_readDelta? hi hread
  · split
    · exact leftAlone_endSequence h hi
    · exact .refl e

theorem leftAlone_move {e : Engine σ} {i : Nat} (hi : ¬ q (e.track i).slot) {course : Course}
    (hcourse : course.OfControl) : LeftAlone q e (e.move i course).1 :=
  leftAlone_modifyTrack hi (congrArg (·.1) (hcourse.place _ _))

theorem leftAlone_jump {e : Engine σ} {i : Nat} (hi : ¬ q (e.track i).slot) (label : Int16) :
    LeftAlone q e (e.jump i label).1 := by
  rw [jump_eq]
  exact leftAlone_move hi (Track.ofControl_jumped label)

theorem leftAlone_gosub {e : Engine σ} {i : Nat} (hi : ¬ q (e.track i).slot) (label : Int16) :
    LeftAlone q e (e.gosub i label).1 := by
  rw [gosub_eq]
  exact leftAlone_move hi (Track.ofControl_gosubbed label)

theorem leftAlone_goBack {e : Engine σ} {i : Nat} (hi : ¬ q (e.track i).slot) :
    LeftAlone q e (e.goBack i).1 := by
  rw [goBack_eq]
  exact leftAlone_move hi Track.ofControl_wentBack

theorem leftAlone_forSequence {e : Engine σ} (h : e.Placed) {i : Nat} (hi : ¬ q (e.track i).slot)
    {move : Engine σ → Nat → Engine σ × Flow}
    (hmove : ∀ e j, ¬ q (e.track j).slot → LeftAlone q e (move e j).1) :
    LeftAlone q e (e.forSequence i move).1 := by
  unfold forSequence
  refine leftAlone_foldl Prod.fst (fun p j hj => ?_) _ (e, Flow.advance)
    (h.away_of_mem_trackList hi)
  exact hmove p.1 j hj

theorem leftAlone_endTrack {e : Engine σ} {i : Nat} (hi : ¬ q (e.track i).slot) :
    LeftAlone q e (e.endTrack i).1 := by
  unfold endTrack
  dsimp only
  split
  · next hrewound =>
    split at hrewound
    · exact leftAlone_readDelta? hi hrewound
    · cases hrewound
  · exact leftAlone_turnOff hi

/-- A command of the sequencer. -/
theorem leftAlone_command {e : Engine σ} (h : e.Placed) {i : Nat} (hi : ¬ q (e.track i).slot)
    (c : Command) : LeftAlone q e (e.command i c).1 := by
  have hslot := leftAlone_modifySlot (e := e) hi
  have hjump : ∀ g, LeftAlone q e ((e.modifySlot (e.track i).slot g).jump i (c.signedWord 3)).1 :=
    fun g => (hslot g).trans (leftAlone_jump (by exact hi) _)
  unfold command
  dsimp only
  split
  case h_1 =>
    unfold hearMark
    split <;> exact .of_pools rfl rfl
  case h_2 | h_3 =>
    split
    · exact hjump _
    · exact .refl e
  case h_4 | h_5 | h_6 => exact hslot _
  case h_7 =>
    exact leftAlone_foldl id (fun _ _ hj => leftAlone_modifyTrack hj rfl) _ e
      (h.away_of_mem_trackList hi)
  case h_8 =>
    split
    · exact .refl e
    · exact leftAlone_forSequence h hi fun e j hj => leftAlone_gosub hj _
  case h_9 =>
    split
    · exact .refl e
    · exact leftAlone_forSequence h hi fun e j hj => leftAlone_jump hj _
  case h_10 => exact leftAlone_forSequence h hi fun e j hj => leftAlone_goBack hj
  case h_11 => exact leftAlone_endSequence h hi
  case h_12 => exact leftAlone_modifyTrack hi rfl
  case h_13 => exact leftAlone_gosub hi _
  case h_14 =>
    have hjumped := leftAlone_jump hi (c.signedWord 1)
    split
    · next e' heq =>
      rw [heq] at hjumped
      exact hjumped.trans (leftAlone_modifyTrack (by rwa [hjumped.home]) rfl)
    · next e' heq =>
      rw [heq] at hjumped
      exact hjumped
  case h_15 => exact leftAlone_goBack hi
  case h_16 => exact leftAlone_endTrack hi
  case h_17 => exact .refl e

/-! ## Voices -/

/-- The tracks of slots that satisfy `q` stand still, and none is turned off. -/
def Asleep (q : Nat → Prop) (e : Engine σ) : Prop :=
  ∀ i, q (e.track i).slot → (e.track i).isActive = true →
    (e.track i).isStopped = true ∧ (e.track i).flags.off = false

theorem LeftAlone.flags {e e' : Engine σ} (h : LeftAlone q e e') {i : Nat}
    (hi : q (e.track i).slot) : (e'.track i).flags = (e.track i).flags :=
  (congrArg Track.flags (h.track i hi) :)

theorem LeftAlone.asleep {e e' : Engine σ} (h : LeftAlone q e e') (hasleep : e.Asleep q) :
    e'.Asleep q := by
  intro i hi hactive
  rw [h.home] at hi
  unfold Track.isActive Track.isStopped at *
  rw [h.flags hi] at hactive ⊢
  exact hasleep i hi hactive

/-- A running track is on none of the slots that are asleep. -/
theorem Asleep.away {e : Engine σ} (h : e.Asleep q) {i : Nat}
    (hrun : (e.track i).isRunning = true) : ¬ q (e.track i).slot := by
  intro hi
  obtain ⟨hactive, hgoes⟩ := Bool.and_eq_true_iff.mp hrun
  rw [(h i hi hactive).1] at hgoes
  cases hgoes

/-- A voice that is freed leaves its track alone, but for the number of its voices, unless that is
turned off. -/
theorem leftAlone_freeVoice {e : Engine σ} (h : e.WellFormed) (hasleep : e.Asleep q) (v : Nat) :
    LeftAlone q e (e.freeVoice v) := by
  rw [freeVoice_eq]
  split
  · next hv =>
    have hdropped : LeftAlone q e (e.dropVoice v) := by
      refine ⟨fun _ _ => rfl, fun i => ?_, fun i _ => ?_⟩
      · rw [track_dropVoice]
        split <;> rfl
      · rw [track_dropVoice]
        split <;> rfl
    split
    · next hlast =>
      refine hdropped.trans (leftAlone_retireTrack fun howner => ?_)
      rw [hdropped.home] at howner
      have hon := (hasleep _ howner (h.voices.owner v hv).1).2
      rw [hdropped.flags howner, hon] at hlast
      exact Bool.false_ne_true hlast.2
    · exact hdropped
  · exact .refl e

section Chip

variable [SoundChip σ]

theorem leftAlone_startVoice {e : Engine σ} {i : Nat} (hi : ¬ q (e.track i).slot) (v : Nat)
    (patchVoice : UInt16) (note velocity : UInt8) :
    LeftAlone q e (e.startVoice v i patchVoice note velocity) := by
  refine .of_track hi (fun s _ => slot_startVoice e v i patchVoice note velocity s) ?_
    fun j hij => ?_
  · rw [track_startVoice]
    split <;> rfl
  · rw [track_startVoice, if_neg fun hall => hij hall.2.1]

theorem leftAlone_playNote {e : Engine σ} (h : e.WellFormed) (hasleep : e.Asleep q) {i : Nat}
    (hi : ¬ q (e.track i).slot) (patchVoice : UInt16) (note velocity : UInt8) :
    LeftAlone q e (e.playNote i patchVoice note velocity) := by
  rcases playNote_eq e i patchVoice note velocity with heq | ⟨-, v, -, heq⟩
  · rw [heq]
    exact .refl e
  · have hfreed := leftAlone_freeVoice h hasleep v
    rw [heq]
    exact hfreed.trans (leftAlone_startVoice (by rwa [hfreed.home]) v patchVoice note velocity)

/-- A key takes its voices from whomever it likes. -/
theorem leftAlone_noteOn {e : Engine σ} (h : e.WellFormed) (hasleep : e.Asleep q) {i : Nat}
    (hi : ¬ q (e.track i).slot) (hplays : (e.track i).MayPlay) (key velocity : UInt8) :
    LeftAlone q e (e.noteOn i key velocity) := by
  unfold noteOn
  split
  · exact .refl e
  · next patch note _ =>
    have hkeys := foldl_keeps
      (f := fun e index => e.playNote i (UInt16.ofNat index) note velocity)
      (fun _ d => d.WellFormed ∧ (d.track i).MayPlay ∧ LeftAlone q e d)
      (fun index _ d hd => by
        obtain ⟨hform, hplays, hleft⟩ := hd
        refine ⟨hform.playNote hplays _ note velocity,
          playNote_keeps Track.MayPlay.voiceFreed Track.MayPlay.withVoice hplays i _ note velocity,
          hleft.trans (leftAlone_playNote hform (hleft.asleep hasleep) ?_ _ note velocity)⟩
        rwa [hleft.home])
      (soundingVoices e.module.patches patch note) e ⟨h, hplays, .refl e⟩
    exact hkeys.2.2

theorem leftAlone_writeOwned (e : Engine σ) (i : Nat) (mask : RegisterMask)
    (registers : Voice → PatchVoice → VoiceRegisters) :
    LeftAlone q e (e.writeOwned i mask registers) := by
  unfold writeOwned
  split <;> exact .of_pools rfl rfl

theorem leftAlone_pushLevels (e : Engine σ) (i : Nat) : LeftAlone q e (e.pushLevels i) :=
  leftAlone_writeOwned e i _ _

theorem leftAlone_driverCommand {e : Engine σ} (h : e.WellFormed) (hasleep : e.Asleep q) {i : Nat}
    (hrun : (e.track i).isRunning = true) (c : Command) :
    LeftAlone q e (e.driverCommand i c) := by
  have hi := hasleep.away hrun
  cases hdriver : (e.track i).driver with
  | silent =>
    unfold driverCommand
    rw [hdriver]
    refine leftAlone_modifyTrack hi ?_
    unfold Track.silentCommand
    split <;> rfl
  | voices =>
    unfold driverCommand voiceCommand
    rw [hdriver]
    dsimp only
    split
    · exact leftAlone_modifyTrack hi rfl
    · unfold bendPitch
      split
      · exact .refl e
      · exact (leftAlone_modifyTrack hi rfl).trans (leftAlone_writeOwned _ i _ _)
    · exact (leftAlone_modifyTrack hi rfl).trans (leftAlone_pushLevels _ i)
    · unfold setTrackPan
      dsimp only
      split
      · exact leftAlone_modifyTrack hi rfl
      · exact (leftAlone_modifyTrack hi rfl).trans (leftAlone_pushLevels _ i)
    · exact leftAlone_noteOn h hasleep hi (mayPlay_of_isRunning (h.rests i) hrun hdriver) _ _
    · exact .of_pools rfl rfl
    · exact .refl e

/-! ## Ticks -/

theorem leftAlone_stepTrack {e : Engine σ} (h : e.WellFormed) (hasleep : e.Asleep q) {i : Nat}
    (hrun : (e.track i).isRunning = true) : LeftAlone q e (e.stepTrack i) := by
  have hi := hasleep.away hrun
  unfold stepTrack
  dsimp only
  split
  · exact leftAlone_endSequence h.agree.toPlaced hi
  · next c _ =>
    split
    · have hobeyed := leftAlone_driverCommand h hasleep hrun c
      have hform := h.moves (moves_driverCommand c hrun)
      exact hobeyed.trans
        (leftAlone_nextEvent hform.agree.toPlaced (by rwa [hobeyed.home]) _)
    · split
      · have hobeyed := leftAlone_command h.agree.toPlaced hi c
        have hform := h.moves (moves_command c hrun)
        split
        · exact hobeyed.trans
            (leftAlone_nextEvent hform.agree.toPlaced (by rwa [hobeyed.home]) _)
        · exact hobeyed
      · exact leftAlone_endSequence h.agree.toPlaced hi

/-- A tick leaves slots that are asleep alone, whatever the others play. -/
theorem leftAlone_tick {e : Engine σ} (h : e.WellFormed) (hasleep : e.Asleep q) :
    LeftAlone q e e.tick := by
  have htuned : ∀ {d d' : Engine σ}, d.WellFormed → Tuned d d' → d'.WellFormed :=
    fun hd htuned => lasting_wellFormed.deed _ _ (.tuned htuned) hd
  have hstart : LeftAlone q e e.beforeTracks := by
    have hpools := pools_beforeTracks e
    simp only [pools, Prod.mk.injEq] at hpools
    exact .of_pools hpools.2.1 hpools.2.2.1
  have hturns := @beforeUpkeep_keeps _ _ (fun d => d.WellFormed ∧ LeftAlone q e d)
    (fun _ _ => True)
    (fun d i hrun hd => ⟨htuned hd.1 (tuned_modifyTrack d i rfl), hd.2.trans
      (leftAlone_modifyTrack ((hd.2.asleep hasleep).away hrun) rfl)⟩)
    (fun d i hrun hd => ⟨htuned hd.1 (tuned_modifyTrack d i rfl), hd.2.trans
      (leftAlone_modifyTrack ((hd.2.asleep hasleep).away hrun) rfl)⟩)
    (fun d i hrun hd => ⟨lasting_wellFormed.deed _ _ (.turnOff hrun) hd.1, hd.2.trans
      (leftAlone_turnOff ((hd.2.asleep hasleep).away hrun))⟩)
    (fun d i hrun _ hd => ⟨hd.1.moves (moves_stepTrack hrun), hd.2.trans
      (leftAlone_stepTrack hd.1 (hd.2.asleep hasleep) hrun)⟩)
    e ⟨htuned h (tuned_beforeTracks e), hstart⟩ fun _ _ => trivial
  rw [tick_eq]
  have hupkeep := @serviceVoices_keeps _ _ (fun d => d.WellFormed ∧ LeftAlone q e d)
    (fun d v hd => ⟨hd.1.freeVoice v,
      hd.2.trans (leftAlone_freeVoice hd.1 (hd.2.asleep hasleep) v)⟩)
    (fun d chip toRelease toMute hd => ⟨lasting_wellFormed.sound d chip toRelease toMute hd.1,
      hd.2.trans (.of_pools rfl rfl)⟩) _ hturns.1
  exact hupkeep.2

theorem leftAlone_ticks {e : Engine σ} (h : e.WellFormed) (hasleep : e.Asleep q) :
    ∀ n, LeftAlone q e (tick^[n] e)
  | 0 => .refl e
  | n + 1 => by
    rw [Function.iterate_succ_apply]
    have hfirst := leftAlone_tick h hasleep
    exact hfirst.trans (leftAlone_ticks (wellFormed_tick h) (hfirst.asleep hasleep) n)

end Chip

end Engine

end SoundSequencer
