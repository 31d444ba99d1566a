/-
SoundSequencer.Proofs.SameBoxes — what leaves gates and counters alone.

* `Engine.SameBoxes` says that every slot keeps its gates and its counters, and that none comes
  into use.
* Only commands for them and the start of a sequence change any: `sameBoxes_turnOff`,
  `sameBoxes_driverCommand`, `sameBoxes_serviceVoices` and `sameBoxes_perform` say so of all
  else.
-/
import SoundSequencer.Proofs.Stops
import SoundSequencer.Proofs.Unmoved

namespace SoundSequencer

namespace Engine

variable {σ : Type}

/-- Every slot has the gates and the counters that it had, and none has come into use. -/
structure SameBoxes (e e' : Engine σ) : Prop where
  boxes : ∀ s, (e'.slot s).boxes = (e.slot s).boxes
  active : ∀ s, (e'.slot s).active = true → (e.slot s).active = true

namespace SameBoxes

theorem refl (e : Engine σ) : SameBoxes e e := ⟨fun _ => rfl, fun _ h => h⟩

theorem trans {a b c : Engine σ} (hab : SameBoxes a b) (hbc : SameBoxes b c) : SameBoxes a c :=
  ⟨fun s => (hbc.boxes s).trans (hab.boxes s), fun s h => hab.active s (hbc.active s h)⟩

theorem of_slots {e e' : Engine σ} (h : e'.slots = e.slots) : SameBoxes e e' := by
  have hslot : ∀ s, e'.slot s = e.slot s := fun s => by unfold slot; rw [h]
  exact ⟨fun s => by rw [hslot], fun s hs => by rwa [hslot] at hs⟩

/-- Some slots change, but not in their boxes, and none comes into use. -/
theorem of_ite {e e' : Engine σ} {p : Nat → Prop} [DecidablePred p] {g : Slot → Slot}
    (hslot : ∀ s, e'.slot s = if p s then g (e.slot s) else e.slot s)
    (hboxes : ∀ slot, (g slot).boxes = slot.boxes)
    (hactive : ∀ slot, (g slot).active = true → slot.active = true) : SameBoxes e e' := by
  refine ⟨fun s => ?_, fun s hs => ?_⟩
  · rw [hslot]
    split
    · exact hboxes _
    · rfl
  · rw [hslot] at hs
    split at hs
    · exact hactive _ hs
    · exact hs

end SameBoxes

theorem sameBoxes_foldl {α : Type} {f : Engine σ → α → Engine σ}
    (hf : ∀ e a, SameBoxes e (f e a)) (l : List α) (e : Engine σ) : SameBoxes e (l.foldl f e) :=
  foldl_relates .refl (fun _ _ _ => .trans) hf l e

theorem sameBoxes_modifyTrack (e : Engine σ) (i : Nat) (f : Track → Track) :
    SameBoxes e (e.modifyTrack i f) := .of_slots rfl

theorem sameBoxes_modifySlot (e : Engine σ) (s : Nat) {g : Slot → Slot}
    (hboxes : ∀ slot, (g slot).boxes = slot.boxes)
    (hactive : ∀ slot, (g slot).active = true → slot.active = true) :
    SameBoxes e (e.modifySlot s g) := .of_ite (slot_modifySlot e s · g) hboxes hactive

/-! ## Pausing and ending -/

theorem active_of_withoutTrack {s : Slot} {i : Nat} (h : (s.withoutTrack i).active = true) :
    s.active = true := (Bool.and_eq_true_iff.mp h).1

theorem sameBoxes_pauseTrack (e : Engine σ) (i : Nat) : SameBoxes e (e.pauseTrack i) := by
  unfold pauseTrack
  split
  · exact .refl e
  · exact (sameBoxes_modifyTrack e i _).trans (sameBoxes_modifySlot _ _ (fun _ => rfl) fun _ h => h)

theorem sameBoxes_resumeTrack (e : Engine σ) (i : Nat) : SameBoxes e (e.resumeTrack i) := by
  unfold resumeTrack
  split
  · exact (sameBoxes_modifyTrack e i _).trans (sameBoxes_modifySlot _ _ (fun _ => rfl) fun _ h => h)
  · exact .refl e

theorem sameBoxes_releaseVoices (e : Engine σ) (i : Nat) : SameBoxes e (e.releaseVoices i) := by
  unfold releaseVoices
  split <;> exact .of_slots rfl

theorem sameBoxes_muteTrack (e : Engine σ) (i : Nat) : SameBoxes e (e.muteTrack i) := by
  unfold muteTrack
  split
  · exact .refl e
  · exact sameBoxes_releaseVoices e i

theorem sameBoxes_retireTrack (e : Engine σ) (i : Nat) : SameBoxes e (e.retireTrack i) := by
  have hslot : SameBoxes e ((e.modifyTrack i Track.retired).modifySlot (e.track i).slot fun s =>
      (e.track i).leave i (if (e.track i).isStopped then s else s.stopped)) := by
    refine (sameBoxes_modifyTrack e i _).trans
      (sameBoxes_modifySlot _ _ (fun s => ?_) fun s hs => ?_)
    · unfold Track.leave
      split <;> split <;> rfl
    · unfold Track.leave at hs
      split at hs <;> split at hs
      · exact hs
      · exact hs
      · exact active_of_withoutTrack (i := i) hs
      · exact active_of_withoutTrack (i := i) hs
  rw [retireTrack_eq]
  exact hslot.trans (.of_slots rfl)

theorem sameBoxes_turnOff (e : Engine σ) (i : Nat) : SameBoxes e (e.turnOff i) := by
  have hquieted : ∀ s : Slot, (s.quieted (e.track i)).boxes = s.boxes ∧
      (s.quieted (e.track i)).active = s.active := by
    intro s
    unfold Slot.quieted
    split
    · split <;> exact ⟨rfl, rfl⟩
    · exact ⟨rfl, rfl⟩
  refine .of_ite (g := fun s => s.afterOff (e.track i) i) (slot_turnOff e i) (fun s => ?_)
    fun s hs => ?_
  · unfold Slot.afterOff
    split
    · exact (hquieted s).1
    · exact (hquieted s).1
  · unfold Slot.afterOff at hs
    split at hs
    · exact (hquieted s).2 ▸ active_of_withoutTrack hs
    · exact (hquieted s).2 ▸ hs

theorem sameBoxes_endSequence (e : Engine σ) (s : Nat) : SameBoxes e (e.endSequence s) :=
  sameBoxes_foldl sameBoxes_turnOff _ e

theorem sameBoxes_freeVoice (e : Engine σ) (v : Nat) : SameBoxes e (e.freeVoice v) := by
  have hdropped : SameBoxes e (e.dropVoice v) := .of_slots rfl
  rw [freeVoice_eq]
  split
  · split
    · exact hdropped.trans (sameBoxes_retireTrack _ _)
    · exact hdropped
  · exact .refl e

/-! ## Places -/

theorem sameBoxes_readDelta? {e e' : Engine σ} {i offset : Nat}
    (h : e.readDelta? i offset = some e') : SameBoxes e e' := by
  rw [readDelta?_eq] at h
  obtain ⟨t, -, rfl⟩ := Option.map_eq_some_iff.mp h
  exact .of_slots rfl

theorem sameBoxes_nextEvent (e : Engine σ) (i offset : Nat) :
    SameBoxes e (e.nextEvent i offset) := by
  unfold nextEvent
  split
  · next hread => exact sameBoxes_readDelta? hread
  · split
    · exact sameBoxes_endSequence e _
    · exact .refl e

theorem sameBoxes_move (e : Engine σ) (i : Nat) (course : Course) :
    SameBoxes e (e.move i course).1 := .of_slots rfl

theorem sameBoxes_jump (e : Engine σ) (i : Nat) (label : Int16) :
    SameBoxes e (e.jump i label).1 := by
  rw [jump_eq]
  exact sameBoxes_move e i _

theorem sameBoxes_gosub (e : Engine σ) (i : Nat) (label : Int16) :
    SameBoxes e (e.gosub i label).1 := by
  rw [gosub_eq]
  exact sameBoxes_move e i _

theorem sameBoxes_goBack (e : Engine σ) (i : Nat) : SameBoxes e (e.goBack i).1 := by
  rw [goBack_eq]
  exact sameBoxes_move e i _

theorem sameBoxes_forSequence {move : Engine σ → Nat → Engine σ × Flow}
    (hmove : ∀ e j, SameBoxes e (move e j).1) (e : Engine σ) (i : Nat) :
    SameBoxes e (e.forSequence i move).1 := by
  unfold forSequence
  refine foldl_relates (r := fun p q : Engine σ × Flow => SameBoxes p.1 q.1) (fun p => .refl p.1)
    (fun _ _ _ => .trans) (fun p j => ?_) _ (e, Flow.advance)
  exact hmove p.1 j

theorem sameBoxes_endTrack (e : Engine σ) (i : Nat) : SameBoxes e (e.endTrack i).1 := by
  unfold endTrack
  dsimp only
  split
  · next hrewound =>
    split at hrewound
    · exact sameBoxes_readDelta? hrewound
    · cases hrewound
  · exact sameBoxes_turnOff e i

section Chip

variable [SoundChip σ]

/-! ## Notes and controls -/

theorem sameBoxes_startVoice (e : Engine σ) (v i : Nat) (patchVoice : UInt16)
    (note velocity : UInt8) : SameBoxes e (e.startVoice v i patchVoice note velocity) := by
  cases hpatch : e.module.patches.voice? patchVoice.toNat with
  | none =>
    rw [startVoice_of_none hpatch]
    exact .refl e
  | some patch =>
    obtain ⟨_, _, _, -, -, hstarted⟩ := startVoice_of_some v i note velocity hpatch
    rw [hstarted]
    exact .of_slots rfl

theorem sameBoxes_playNote (e : Engine σ) (i : Nat) (patchVoice : UInt16)
    (note velocity : UInt8) : SameBoxes e (e.playNote i patchVoice note velocity) := by
  rcases playNote_eq e i patchVoice note velocity with heq | ⟨-, v, -, heq⟩
  · rw [heq]
    exact .refl e
  · rw [heq]
    exact (sameBoxes_freeVoice e v).trans (sameBoxes_startVoice _ v i patchVoice note velocity)

theorem sameBoxes_noteOn (e : Engine σ) (i : Nat) (key velocity : UInt8) :
    SameBoxes e (e.noteOn i key velocity) := by
  unfold noteOn
  split
  · exact .refl e
  · exact sameBoxes_foldl (fun e index => sameBoxes_playNote e i _ _ velocity) _ e

theorem sameBoxes_writeOwned (e : Engine σ) (i : Nat) (mask : RegisterMask)
    (registers : Voice → PatchVoice → VoiceRegisters) :
    SameBoxes e (e.writeOwned i mask registers) := by
  unfold writeOwned
  split <;> exact .of_slots rfl

theorem sameBoxes_pushLevels (e : Engine σ) (i : Nat) : SameBoxes e (e.pushLevels i) :=
  sameBoxes_writeOwned e i _ _

theorem sameBoxes_driverCommand (e : Engine σ) (i : Nat) (c : Command) :
    SameBoxes e (e.driverCommand i c) := by
  unfold driverCommand
  split
  · exact .of_slots rfl
  · unfold voiceCommand
    split
    · exact .of_slots rfl
    · unfold bendPitch
      split
      · exact .refl e
      · exact (sameBoxes_modifyTrack e i _).trans (sameBoxes_writeOwned _ i _ _)
    · exact (sameBoxes_modifyTrack e i _).trans (sameBoxes_pushLevels _ i)
    · unfold setTrackPan
      dsimp only
      split
      · exact .of_slots rfl
      · exact (sameBoxes_modifyTrack e i _).trans (sameBoxes_pushLevels _ i)
    · exact sameBoxes_noteOn e i _ _
    · exact .of_slots rfl
    · exact .refl e

theorem sameBoxes_serviceVoices (e : Engine σ) : SameBoxes e e.serviceVoices :=
  @serviceVoices_keeps _ _ (SameBoxes e) (fun d v h => h.trans (sameBoxes_freeVoice d v))
    (fun _ _ _ _ h => h.trans (.of_slots rfl)) e (.refl e)

/-! ## Calls -/

omit [SoundChip σ] in
theorem sameBoxes_forTracksWhere (e : Engine σ) (q : Slot → Bool)
    {f : Engine σ → Nat → Engine σ} (hf : ∀ e i, SameBoxes e (f e i)) :
    SameBoxes e (e.forTracksWhere q f) := by
  refine sameBoxes_foldl (fun e s => ?_) _ e
  split
  · exact sameBoxes_foldl hf _ e
  · exact .refl e

theorem sameBoxes_updateTrack (e : Engine σ) (i : Nat) (attrs : PlayAttrs) :
    SameBoxes e (e.updateTrack i attrs) := by
  unfold updateTrack
  extract_lets mask panned levelled bent
  have hpanned : SameBoxes e panned := by
    unfold panned
    split <;> exact .of_slots rfl
  have hlevelled : SameBoxes panned levelled := by
    unfold levelled
    split
    · exact sameBoxes_driverCommand _ i _
    · split
      · exact sameBoxes_driverCommand _ i _
      · exact .refl _
  have hbent : SameBoxes levelled bent := by
    unfold bent
    split
    · exact sameBoxes_driverCommand _ i _
    · exact .refl _
  exact (hpanned.trans (hlevelled.trans hbent)).trans (sameBoxes_modifyTrack bent i _)

omit [SoundChip σ] in
theorem sameBoxes_pauseAll (e : Engine σ) (mute : Bool) (saved : List SavedNote) :
    SameBoxes e (e.pauseAll mute saved).2 := by
  refine foldl_relates (r := fun p q => SameBoxes p.2 q.2) (fun p => .refl p.2)
    (fun _ _ _ => .trans) (fun p s => ?_) _ (saved, e)
  obtain ⟨saved, e⟩ := p
  dsimp only
  split
  · refine foldl_relates (r := fun p q => SameBoxes p.2 q.2) (fun p => .refl p.2)
      (fun _ _ _ => .trans) (fun p i => ?_) _ (saved, e)
    split
    · exact (sameBoxes_muteTrack p.2 i).trans (sameBoxes_pauseTrack _ i)
    · exact sameBoxes_pauseTrack p.2 i
  · exact .refl e

theorem sameBoxes_restartAll (e : Engine σ) (saved : List SavedNote) :
    SameBoxes e (e.restartAll saved) := by
  refine sameBoxes_foldl (fun e s => ?_) _ e
  dsimp only
  split
  · refine sameBoxes_foldl (fun e i => ?_) _ e
    exact (sameBoxes_resumeTrack e i).trans
      (sameBoxes_foldl (fun e n => sameBoxes_playNote e i _ _ _) _ _)
  · exact .refl e

omit [SoundChip σ] in
theorem sameBoxes_releaseHandle (e : Engine σ) (slot : Nat) :
    SameBoxes e (e.releaseHandle slot) := by
  unfold releaseHandle
  split
  · refine (sameBoxes_modifySlot e slot (g := fun s => { s with handled := false })
      (fun _ => rfl) fun _ h => h).trans (sameBoxes_foldl (fun e i => ?_) _ _)
    exact (sameBoxes_modifyTrack e i _).trans (sameBoxes_turnOff _ i)
  · exact .refl e

theorem sameBoxes_setVolumeOf (e : Engine σ) (kind : MasterKind) (volume : UInt8) :
    SameBoxes e (e.setVolumeOf kind volume) := by
  cases kind with
  | effects => exact .of_slots rfl
  | music =>
    have hset : SameBoxes e { e with musicVolume := volume } := .of_slots rfl
    refine hset.trans (sameBoxes_foldl (fun e i => ?_) _ _)
    dsimp only
    split
    · exact sameBoxes_driverCommand e i _
    · exact .refl e

end Chip

end Engine

open Engine in
/-- Calls that are no tick and no start leave gates and counters alone. -/
theorem sameBoxes_perform {σ : Type} [SoundChip σ] (s : Session σ) {call : Call σ}
    (h : ¬ call.Drives) : SameBoxes s.engine (s.perform call).engine := by
  cases call with
  | tick => exact absurd trivial h
  | start => exact absurd trivial h
  | releaseHandle slot => exact sameBoxes_releaseHandle s.engine slot
  | stop sequence =>
    exact sameBoxes_forTracksWhere s.engine (·.sequence == sequence) sameBoxes_turnOff
  | stopAll => exact sameBoxes_forTracksWhere s.engine (fun _ => true) sameBoxes_turnOff
  | stopTagged tag => exact sameBoxes_forTracksWhere s.engine (·.tag == tag) sameBoxes_turnOff
  | pause sequence mute =>
    refine sameBoxes_forTracksWhere s.engine (·.sequence == sequence)
      (f := fun e i => if mute then (e.pauseTrack i).muteTrack i else e.pauseTrack i)
      fun e i => ?_
    split
    · exact (sameBoxes_pauseTrack e i).trans (sameBoxes_muteTrack _ i)
    · exact sameBoxes_pauseTrack e i
  | pauseAll mute saved => exact sameBoxes_pauseAll s.engine mute saved
  | restart sequence =>
    exact sameBoxes_forTracksWhere s.engine (·.sequence == sequence) sameBoxes_resumeTrack
  | restartAll saved => exact sameBoxes_restartAll s.engine saved
  | updateTagged tag attrs =>
    unfold Session.perform Engine.updateTagged
    dsimp only
    split
    · exact .refl s.engine
    · exact sameBoxes_forTracksWhere s.engine (·.tag == tag) fun e i =>
        sameBoxes_updateTrack e i attrs
  | setVolumeOf kind volume => exact sameBoxes_setVolumeOf s.engine kind volume
  | listen kind =>
    unfold Session.perform Engine.listen
    dsimp only
    cases s.engine.listeners.findIdx? Option.isNone with
    | none => exact .refl s.engine
    | some place => exact .of_slots rfl
  | _ => exact .of_slots rfl

end SoundSequencer
