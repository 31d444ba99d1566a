/-
SoundSequencer.Proofs.VoiceActs — what happens to the voices, one act after the other.

* An `Act` changes the voices or the time: a note is played, the notes of a key or of a track
  are released, a tick begins, or the voices have their upkeep. `Engine.act` does it.
* `Engine.Calm` relates engines that have the same voices at the same time, `Engine.Inert`
  those whose mutes are also as fast. `Engine.Stirred` is what acts between the start of a tick
  and its upkeep may lead to; `stirred_command`, `stirred_perform` and their like say that
  commands and calls do no more. No act changes how fast mutes are: `muteRate_act`.
* `Act.Takes` and `Act.Releases` say which voices an act takes for a note or releases;
  `voice_act_of_spared` and `voice_serviceVoices` say what becomes of the others.
-/
import SoundSequencer.Proofs.Boxes
import SoundSequencer.Proofs.NoteEffects
import SoundSequencer.Proofs.VoiceChoice

namespace SoundSequencer

/-- What can happen to the voices of an engine, or to its time. -/
inductive Act where
  | play (i : Nat) (patchVoice : UInt16) (note velocity : UInt8)
  | endNote (i : Nat) (note : UInt8)
  | fade (i : Nat)
  | tick
  | upkeep
  deriving DecidableEq

/-- Whether an act is part of a call or of a turn of a track. -/
def Act.isInner : Act → Bool
  | .tick | .upkeep => false
  | _ => true

namespace Engine

variable {σ : Type}

/-- The engine after an act. -/
def act [SoundChip σ] (e : Engine σ) : Act → Engine σ
  | .play i patchVoice note velocity => e.playNote i patchVoice note velocity
  | .endNote i note => e.noteOff i note
  | .fade i => e.releaseVoices i
  | .tick => e.beforeTracks
  | .upkeep => e.serviceVoices

/-- The voices are the same, and no time has passed. -/
structure Calm (e e' : Engine σ) : Prop where
  voices : e'.voices = e.voices
  clock : e'.clock = e.clock
  ticks : e'.ticks = e.ticks

namespace Calm

theorem refl (e : Engine σ) : Calm e e := ⟨rfl, rfl, rfl⟩

theorem trans {a b c : Engine σ} (hab : Calm a b) (hbc : Calm b c) : Calm a c :=
  ⟨hbc.voices.trans hab.voices, hbc.clock.trans hab.clock, hbc.ticks.trans hab.ticks⟩

theorem voice {e e' : Engine σ} (h : Calm e e') (v : Nat) : e'.voice v = e.voice v := by
  unfold Engine.voice
  rw [h.voices]

end Calm

instance decidableCalm (e e' : Engine σ) : Decidable (Calm e e') :=
  decidable_of_iff (e'.voices = e.voices ∧ e'.clock = e.clock ∧ e'.ticks = e.ticks)
    ⟨fun h => ⟨h.1, h.2.1, h.2.2⟩, fun h => ⟨h.voices, h.clock, h.ticks⟩⟩

/-- The voices are the same, no time has passed, and mutes are as fast as before. -/
structure Inert (e e' : Engine σ) : Prop extends Calm e e' where
  muteRate : e'.muteRate = e.muteRate

namespace Inert

theorem refl (e : Engine σ) : Inert e e := ⟨.refl e, rfl⟩

theorem trans {a b c : Engine σ} (hab : Inert a b) (hbc : Inert b c) : Inert a c :=
  ⟨hab.toCalm.trans hbc.toCalm, hbc.muteRate.trans hab.muteRate⟩

end Inert

/-- No time has passed, and mutes are as fast as before. -/
structure Timeless (e e' : Engine σ) : Prop where
  clock : e'.clock = e.clock
  ticks : e'.ticks = e.ticks
  muteRate : e'.muteRate = e.muteRate

namespace Timeless

theorem refl (e : Engine σ) : Timeless e e := ⟨rfl, rfl, rfl⟩

theorem trans {a b c : Engine σ} (hab : Timeless a b) (hbc : Timeless b c) : Timeless a c :=
  ⟨hbc.clock.trans hab.clock, hbc.ticks.trans hab.ticks, hbc.muteRate.trans hab.muteRate⟩

end Timeless

theorem Inert.timeless {e e' : Engine σ} (h : Inert e e') : Timeless e e' :=
  ⟨h.clock, h.ticks, h.muteRate⟩

theorem inert_foldl {α : Type} {f : Engine σ → α → Engine σ} (hf : ∀ e a, Inert e (f e a))
    (l : List α) (e : Engine σ) : Inert e (l.foldl f e) :=
  foldl_relates .refl (fun _ _ _ => .trans) hf l e

/-! ## What leaves the voices alone -/

theorem inert_modifyTrack (e : Engine σ) (i : Nat) (f : Track → Track) :
    Inert e (e.modifyTrack i f) := ⟨⟨rfl, rfl, rfl⟩, rfl⟩

theorem inert_modifySlot (e : Engine σ) (s : Nat) (f : Slot → Slot) :
    Inert e (e.modifySlot s f) := ⟨⟨rfl, rfl, rfl⟩, rfl⟩

theorem inert_pauseTrack (e : Engine σ) (i : Nat) : Inert e (e.pauseTrack i) := by
  unfold pauseTrack
  split
  · exact .refl e
  · exact (inert_modifyTrack e i _).trans (inert_modifySlot _ _ _)

theorem inert_resumeTrack (e : Engine σ) (i : Nat) : Inert e (e.resumeTrack i) := by
  unfold resumeTrack
  split
  · exact (inert_modifyTrack e i _).trans (inert_modifySlot _ _ _)
  · exact .refl e

theorem inert_retireTrack (e : Engine σ) (i : Nat) : Inert e (e.retireTrack i) := by
  unfold retireTrack
  dsimp only
  split
  · exact (inert_pauseTrack e i).trans (inert_modifyTrack _ i _)
  · have hleave : ∀ e : Engine σ, Inert e (e.leavePool i) := fun _ => ⟨⟨rfl, rfl, rfl⟩, rfl⟩
    exact (inert_pauseTrack e i).trans ((hleave _).trans (inert_modifyTrack _ i _))

theorem inert_awaitVoices (e : Engine σ) (i : Nat) : Inert e (e.awaitVoices i) :=
  (inert_modifyTrack e i _).trans (inert_modifySlot _ _ _)

theorem inert_readDelta? {e e' : Engine σ} {i offset : Nat} (h : e.readDelta? i offset = some e') :
    Inert e e' := by
  rw [readDelta?_eq] at h
  obtain ⟨t, -, rfl⟩ := Option.map_eq_some_iff.mp h
  exact inert_modifyTrack e i _

theorem inert_move (e : Engine σ) (i : Nat) (course : Course) : Inert e (e.move i course).1 :=
  inert_modifyTrack e i _

theorem inert_jump (e : Engine σ) (i : Nat) (label : Int16) : Inert e (e.jump i label).1 := by
  rw [jump_eq]
  exact inert_move e i _

theorem inert_gosub (e : Engine σ) (i : Nat) (label : Int16) : Inert e (e.gosub i label).1 := by
  rw [gosub_eq]
  exact inert_move e i _

theorem inert_goBack (e : Engine σ) (i : Nat) : Inert e (e.goBack i).1 := by
  rw [goBack_eq]
  exact inert_move e i _

theorem inert_forSequence {move : Engine σ → Nat → Engine σ × Flow}
    (hmove : ∀ e j, Inert e (move e j).1) (e : Engine σ) (i : Nat) :
    Inert e (e.forSequence i move).1 := by
  unfold forSequence
  refine foldl_relates (r := fun p q : Engine σ × Flow => Inert p.1 q.1) (fun p => .refl p.1)
    (fun _ _ _ => .trans) (fun p j => ?_) _ (e, Flow.advance)
  exact hmove p.1 j

theorem inert_hearMark (e : Engine σ) (kind : UInt8) (value : Int16) :
    Inert e (e.hearMark kind value) := by
  unfold hearMark
  split <;> exact ⟨⟨rfl, rfl, rfl⟩, rfl⟩

theorem inert_startTrack (e : Engine σ) (slot sequence : Nat) (options : StartOptions)
    (i position : Nat) : Inert e (e.startTrack slot sequence options i position) := by
  unfold startTrack
  split <;> exact ⟨⟨rfl, rfl, rfl⟩, rfl⟩

theorem inert_startSequence (e : Engine σ) (sequence : Nat) (options : StartOptions) :
    Inert e (e.startSequence sequence options).2 := by
  unfold startSequence
  split
  · exact .refl e
  · split
    · exact .refl e
    · split
      · exact .refl e
      · dsimp only
        split
        · exact inert_modifySlot e _ _
        · have hstarted : ∀ (slot : Nat) (l : List (Nat × Nat)) (e : Engine σ),
              Inert e (l.foldl (fun e p => e.startTrack slot sequence options p.1 p.2) e) :=
            fun slot => inert_foldl fun e p => inert_startTrack e slot sequence options p.1 p.2
          exact (inert_modifySlot e _ _).trans ((hstarted _ _ _).trans ⟨⟨rfl, rfl, rfl⟩, rfl⟩)

theorem timeless_freeVoice (e : Engine σ) (v : Nat) : Timeless e (e.freeVoice v) := by
  have hdrop : Timeless e (e.dropVoice v) := ⟨rfl, rfl, rfl⟩
  rw [freeVoice_eq]
  split
  · split
    · exact hdrop.trans (inert_retireTrack _ _).timeless
    · exact hdrop
  · exact .refl e

theorem timeless_foldl_freeVoice (q : Engine σ → Nat → Bool) (l : List Nat) (e : Engine σ) :
    Timeless e (l.foldl (fun e v => if q e v then e.freeVoice v else e) e) := by
  refine foldl_relates .refl (fun _ _ _ => .trans) (fun e v => ?_) l e
  split
  · exact timeless_freeVoice e v
  · exact .refl e

variable [SoundChip σ]

theorem inert_writeOwned (e : Engine σ) (i : Nat) (mask : RegisterMask)
    (registers : Voice → PatchVoice → VoiceRegisters) :
    Inert e (e.writeOwned i mask registers) := by
  unfold writeOwned
  split <;> exact ⟨⟨rfl, rfl, rfl⟩, rfl⟩

/-- A command of the driver that is no note leaves the voices of the pool alone. -/
theorem inert_driverCommand (e : Engine σ) (i : Nat) {c : Command} (hon : c.op ≠ .noteOn)
    (hoff : c.op ≠ .noteOff) : Inert e (e.driverCommand i c) := by
  have hpush : ∀ e : Engine σ, Inert e (e.pushLevels i) := fun e => inert_writeOwned e i _ _
  unfold driverCommand
  split
  · exact inert_modifyTrack e i _
  · unfold voiceCommand
    split
    · exact inert_modifyTrack e i _
    · unfold bendPitch
      split
      · exact .refl e
      · exact (inert_modifyTrack e i _).trans (inert_writeOwned _ i _ _)
    · exact (inert_modifyTrack e i _).trans (hpush _)
    · unfold setTrackPan
      dsimp only
      split
      · exact inert_modifyTrack e i _
      · exact (inert_modifyTrack e i _).trans (hpush _)
    · next h => exact absurd h hon
    · next h => exact absurd h hoff
    · exact .refl e

theorem inert_updateTrack (e : Engine σ) (i : Nat) (attrs : PlayAttrs) :
    Inert e (e.updateTrack i attrs) := by
  unfold updateTrack
  extract_lets mask panned levelled bent
  have hpanned : Inert e panned := by
    unfold panned
    split <;> exact ⟨⟨rfl, rfl, rfl⟩, rfl⟩
  have hlevelled : Inert panned levelled := by
    unfold levelled
    split
    · exact inert_driverCommand _ i nofun nofun
    · split
      · exact inert_driverCommand _ i nofun nofun
      · exact .refl _
  have hbent : Inert levelled bent := by
    unfold bent
    split
    · exact inert_driverCommand _ i nofun nofun
    · exact .refl _
  exact (hpanned.trans (hlevelled.trans hbent)).trans (inert_modifyTrack bent i _)

theorem inert_setVolumeOf (e : Engine σ) (kind : MasterKind) (volume : UInt8) :
    Inert e (e.setVolumeOf kind volume) := by
  cases kind with
  | effects => exact ⟨⟨rfl, rfl, rfl⟩, rfl⟩
  | music =>
    have hset : Inert e { e with musicVolume := volume } := ⟨⟨rfl, rfl, rfl⟩, rfl⟩
    refine hset.trans (inert_foldl (fun e i => ?_) _ _)
    dsimp only
    split
    · exact inert_driverCommand e i nofun nofun
    · exact .refl e

/-! ## Acts within a call -/

/-- One step of a call: an act of a call, or nothing that a voice or a mute notices. -/
inductive Stirs : Engine σ → Engine σ → Prop
  | inert {e e' : Engine σ} : Inert e e' → Stirs e e'
  | act (e : Engine σ) {x : Act} : x.isInner = true → Stirs e (e.act x)

/-- What steps of calls lead to. -/
abbrev Stirred : Engine σ → Engine σ → Prop := Relation.ReflTransGen Stirs

theorem Inert.stirred {e e' : Engine σ} (h : Inert e e') : Stirred e e' :=
  .single (.inert h)

theorem stirred_foldl {α : Type} {f : Engine σ → α → Engine σ} (hf : ∀ e a, Stirred e (f e a))
    (l : List α) (e : Engine σ) : Stirred e (l.foldl f e) :=
  foldl_relates (fun _ => .refl) (fun _ _ _ => .trans) hf l e

theorem stirred_releaseVoices (e : Engine σ) (i : Nat) : Stirred e (e.releaseVoices i) :=
  .single (.act e (x := .fade i) rfl)

theorem stirred_muteTrack (e : Engine σ) (i : Nat) : Stirred e (e.muteTrack i) := by
  unfold muteTrack
  split
  · exact .refl
  · exact stirred_releaseVoices e i

theorem stirred_turnOff (e : Engine σ) (i : Nat) : Stirred e (e.turnOff i) := by
  unfold turnOff
  split
  · exact (inert_retireTrack e i).stirred
  · refine (stirred_releaseVoices e i).trans ?_
    dsimp only
    split
    · exact (inert_retireTrack _ i).stirred
    · exact (inert_awaitVoices _ i).stirred

theorem stirred_endSequence (e : Engine σ) (s : Nat) : Stirred e (e.endSequence s) :=
  stirred_foldl stirred_turnOff _ e

theorem stirred_forTracksWhere (e : Engine σ) (q : Slot → Bool) {f : Engine σ → Nat → Engine σ}
    (hf : ∀ e i, Stirred e (f e i)) : Stirred e (e.forTracksWhere q f) := by
  refine stirred_foldl (fun e s => ?_) _ e
  split
  · exact stirred_foldl hf _ e
  · exact .refl

theorem stirred_playNote (e : Engine σ) (i : Nat) (patchVoice : UInt16) (note velocity : UInt8) :
    Stirred e (e.playNote i patchVoice note velocity) :=
  .single (.act e (x := .play i patchVoice note velocity) rfl)

theorem stirred_noteOn (e : Engine σ) (i : Nat) (key velocity : UInt8) :
    Stirred e (e.noteOn i key velocity) := by
  unfold noteOn
  split
  · exact .refl
  · exact stirred_foldl (fun e _ => stirred_playNote e i _ _ velocity) _ e

/-! ## Commands -/

theorem stirred_driverCommand (e : Engine σ) (i : Nat) (c : Command) :
    Stirred e (e.driverCommand i c) := by
  by_cases hnote : c.op = .noteOn ∨ c.op = .noteOff
  case neg =>
    rw [not_or] at hnote
    exact (inert_driverCommand e i hnote.1 hnote.2).stirred
  case pos =>
    unfold driverCommand
    split
    · exact (inert_modifyTrack e i _).stirred
    · rcases hnote with hop | hop <;> simp only [voiceCommand, hop]
      · exact stirred_noteOn e i _ _
      · exact .single (.act e (x := .endNote i (c.byte 1)) rfl)

theorem stirred_endTrack (e : Engine σ) (i : Nat) : Stirred e (e.endTrack i).1 := by
  unfold endTrack
  dsimp only
  split
  · next hrewound =>
    split at hrewound
    · exact (inert_readDelta? hrewound).stirred
    · cases hrewound
  · exact stirred_turnOff e i

theorem stirred_command (e : Engine σ) (i : Nat) (c : Command) :
    Stirred e (e.command i c).1 := by
  unfold command
  dsimp only
  split
  case h_1 => exact (inert_hearMark e _ _).stirred
  case h_2 =>
    split
    · exact ((inert_modifySlot e _ _).trans (inert_jump _ i _)).stirred
    · exact .refl
  case h_3 =>
    split
    · exact ((inert_modifySlot e _ _).trans (inert_jump _ i _)).stirred
    · exact .refl
  case h_4 => exact (inert_modifySlot e _ _).stirred
  case h_5 => exact (inert_modifySlot e _ _).stirred
  case h_6 => exact (inert_modifySlot e _ _).stirred
  case h_7 => exact (inert_foldl (fun e _ => inert_modifyTrack e _ _) _ e).stirred
  case h_8 =>
    split
    · exact .refl
    · exact (inert_forSequence (fun e j => inert_gosub e j _) e i).stirred
  case h_9 =>
    split
    · exact .refl
    · exact (inert_forSequence (fun e j => inert_jump e j _) e i).stirred
  case h_10 => exact (inert_forSequence inert_goBack e i).stirred
  case h_11 => exact stirred_endSequence e _
  case h_12 => exact (inert_modifyTrack e i _).stirred
  case h_13 => exact (inert_gosub e i _).stirred
  case h_14 =>
    have hjump := inert_jump e i (c.signedWord 1)
    split
    · next h => rw [h] at hjump; exact (hjump.trans (inert_modifyTrack _ i _)).stirred
    · next h => rw [h] at hjump; exact hjump.stirred
  case h_15 => exact (inert_goBack e i).stirred
  case h_16 => exact stirred_endTrack e i
  case h_17 => exact .refl

theorem stirred_nextEvent (e : Engine σ) (i offset : Nat) : Stirred e (e.nextEvent i offset) := by
  unfold nextEvent
  split
  · next hread => exact (inert_readDelta? hread).stirred
  · split
    · exact stirred_endSequence e _
    · exact .refl

theorem stirred_obey (e : Engine σ) (i : Nat) : Stirred e (e.obey i) := by
  unfold obey
  split
  · exact .refl
  · split
    · exact stirred_driverCommand e i _
    · split
      · exact stirred_command e i _
      · exact .refl

/-- What a track does behind its command. -/
theorem stirred_stepTrack (e : Engine σ) (i : Nat) : Stirred (e.obey i) (e.stepTrack i) := by
  have hcommand : ((e.stream? i).bind fun s => Command.decodeAt s.bytes (e.track i).pc) =
      e.command? i := rfl
  unfold obey stepTrack
  dsimp only
  rw [hcommand]
  cases e.command? i with
  | none => exact stirred_endSequence e _
  | some c =>
    dsimp only
    split
    · exact stirred_nextEvent _ i _
    · split
      · split
        · exact stirred_nextEvent _ i _
        · exact .refl
      · exact stirred_endSequence e _

/-- What the turns of the tracks do in a tick. -/
theorem stirred_beforeUpkeep (e : Engine σ) : Stirred e.beforeTracks e.beforeUpkeep :=
  (@beforeUpkeep_keeps σ _ (Stirred e.beforeTracks) (fun _ _ => True)
    (fun d i _ h => h.trans (inert_modifyTrack d i _).stirred)
    (fun d i _ h => h.trans (inert_modifyTrack d i _).stirred)
    (fun d i _ h => h.trans (stirred_turnOff d i))
    (fun d i _ _ h => h.trans ((stirred_obey d i).trans (stirred_stepTrack d i)))
    e .refl fun _ _ => trivial).1

/-! ## Calls -/

theorem stirred_pauseAll (e : Engine σ) (mute : Bool) (saved : List SavedNote) :
    Stirred e (e.pauseAll mute saved).2 := by
  refine foldl_relates (r := fun p q => Stirred p.2 q.2) (fun _ => .refl)
    (fun _ _ _ => .trans) (fun p s => ?_) _ (saved, e)
  obtain ⟨saved, e⟩ := p
  dsimp only
  split
  · refine foldl_relates (r := fun p q => Stirred p.2 q.2) (fun _ => .refl)
      (fun _ _ _ => .trans) (fun p i => ?_) _ (saved, e)
    split
    · exact (stirred_muteTrack p.2 i).trans (inert_pauseTrack _ i).stirred
    · exact (inert_pauseTrack p.2 i).stirred
  · exact .refl

theorem stirred_restartAll (e : Engine σ) (saved : List SavedNote) :
    Stirred e (e.restartAll saved) := by
  refine stirred_foldl (fun e s => ?_) _ e
  dsimp only
  split
  · refine stirred_foldl (fun e i => ?_) _ e
    exact (inert_resumeTrack e i).stirred.trans
      (stirred_foldl (fun e n => stirred_playNote e i _ _ _) _ _)
  · exact .refl

theorem stirred_releaseHandle (e : Engine σ) (slot : Nat) :
    Stirred e (e.releaseHandle slot) := by
  unfold releaseHandle
  split
  · refine (inert_modifySlot e slot _).stirred.trans (stirred_foldl (fun e i => ?_) _ _)
    exact (inert_modifyTrack e i _).stirred.trans (stirred_turnOff _ i)
  · exact .refl

/-- A call that is no tick and sets no mute release. -/
theorem stirred_perform (s : Session σ) {call : Call σ} (htick : call.isTick = false)
    (hmute : ∀ ms, call ≠ .setMuteRelease ms) : Stirred s.engine (s.perform call).engine := by
  cases call with
  | tick => cases htick
  | setMuteRelease ms => exact absurd rfl (hmute ms)
  | start sequence options => exact (inert_startSequence s.engine sequence options).stirred
  | releaseHandle slot => exact stirred_releaseHandle s.engine slot
  | stop sequence => exact stirred_forTracksWhere s.engine (·.sequence == sequence) stirred_turnOff
  | stopAll => exact stirred_forTracksWhere s.engine (fun _ => true) stirred_turnOff
  | stopTagged tag => exact stirred_forTracksWhere s.engine (·.tag == tag) stirred_turnOff
  | pause sequence mute =>
    refine stirred_forTracksWhere s.engine (·.sequence == sequence)
      (f := fun e i => if mute then (e.pauseTrack i).muteTrack i else e.pauseTrack i)
      fun e i => ?_
    split
    · exact (inert_pauseTrack e i).stirred.trans (stirred_muteTrack _ i)
    · exact (inert_pauseTrack e i).stirred
  | pauseAll mute saved => exact stirred_pauseAll s.engine mute saved
  | restart sequence =>
    exact stirred_forTracksWhere s.engine (·.sequence == sequence)
      fun e i => (inert_resumeTrack e i).stirred
  | restartAll saved => exact stirred_restartAll s.engine saved
  | updateTagged tag attrs =>
    unfold Session.perform Engine.updateTagged
    dsimp only
    split
    · exact .refl
    · exact stirred_forTracksWhere s.engine (·.tag == tag) fun e i =>
        (inert_updateTrack e i attrs).stirred
  | setVolumeOf kind volume => exact (inert_setVolumeOf s.engine kind volume).stirred
  | listen kind =>
    unfold Session.perform Engine.listen
    dsimp only
    cases s.engine.listeners.findIdx? Option.isNone with
    | none => exact .refl
    | some place => exact .single (.inert ⟨⟨rfl, rfl, rfl⟩, rfl⟩)
  | _ => exact .single (.inert ⟨⟨rfl, rfl, rfl⟩, rfl⟩)

/-! ## What an act does to a voice -/

/-- The voice that the next note of track `i` takes. -/
def taken? (e : Engine σ) (i : Nat) : Option Nat :=
  if (e.track i).maxVoices ≤ (e.track i).voicesActive then none
  else
    match e.voices.choose (e.track i).priority with
    | none => none
    | some (.free v) => some v
    | some (.steal v) => some v

end Engine

namespace Act

variable {σ : Type}

/-- Whether an act takes a voice for a note. -/
def Takes (x : Act) (e : Engine σ) (v : Nat) : Prop :=
  match x with
  | .play i _ _ _ => e.taken? i = some v
  | _ => False

/-- Whether an act begins the release of a voice, or begins it anew. -/
def Releases (x : Act) (e : Engine σ) (v : Nat) : Prop :=
  match x with
  | .endNote i note =>
    (e.voice v).ownedBy i = true ∧ (e.voice v).release = false ∧ (e.voice v).note = note
  | .fade i => (e.track i).voicesActive ≠ 0 ∧ (e.voice v).ownedBy i = true
  | _ => False

end Act

/-- What an update does not choose it leaves alone. -/
theorem VoicePool.voice_update_of_not {p : VoicePool} {q : Voice → Bool} {f : Voice → Voice}
    {v : Nat} (h : ¬ q (p.voice v) = true) : (p.update q f).voice v = p.voice v := by
  by_cases hv : v < p.limit
  · rw [voice_update p q f v hv, if_neg h]
  · have hout : p.voices.size ≤ v := Nat.le_of_not_lt hv
    simp [voice, update, Array.getD_eq_getD_getElem?, hout]

namespace Engine

variable {σ : Type}

theorem lt_limit_of_taken? {e : Engine σ} {i v : Nat} (h : e.taken? i = some v) :
    v < e.voices.limit := by
  unfold taken? at h
  split at h
  · cases h
  · split at h
    · cases h
    · next hchoice =>
      cases h
      exact (VoicePool.choose_free hchoice).1
    · next hchoice =>
      cases h
      exact (VoicePool.choose_steal hchoice).1

variable [SoundChip σ]

/-- Whether the chip reports a voice silent when the voices have their upkeep. -/
def Silent (e : Engine σ) (v : Nat) : Prop :=
  (SoundChip.pollKeys e.freeExpired.flushReleases.chip).1 v = .off

instance decidableSilent (e : Engine σ) (v : Nat) : Decidable (e.Silent v) :=
  inferInstanceAs (Decidable (_ = KeyStatus.off))

theorem playNote_of_taken? {e : Engine σ} {i : Nat} (patchVoice : UInt16)
    (note velocity : UInt8) :
    e.playNote i patchVoice note velocity =
      match e.taken? i with
      | none => e
      | some v => (e.freeVoice v).startVoice v i patchVoice note velocity := by
  unfold playNote taken?
  dsimp only
  split
  · rfl
  · cases hchoice : e.voices.choose (e.track i).priority with
    | none => rfl
    | some choice =>
      cases choice with
      | free v =>
        have hidle : (e.voice v).active = false := (VoicePool.choose_free hchoice).2
        dsimp only
        rw [freeVoice_of_idle hidle]
      | steal v => rfl

/-! ### Time -/

theorem timeless_serviceVoices (e : Engine σ) : Timeless e e.serviceVoices := by
  have hexpired : Timeless e e.freeExpired := timeless_foldl_freeVoice _ _ e
  have hflushed : Timeless e.freeExpired e.freeExpired.flushReleases := ⟨rfl, rfl, rfl⟩
  let polled := SoundChip.pollKeys e.freeExpired.flushReleases.chip
  let d : Engine σ := { e.freeExpired.flushReleases with chip := polled.2 }
  have hpolled : Timeless e.freeExpired.flushReleases d := ⟨rfl, rfl, rfl⟩
  exact hexpired.trans (hflushed.trans (hpolled.trans (timeless_foldl_freeVoice
    (fun d v => polled.1 v = .off && (d.voice v).active) (List.range d.voices.limit) d)))

theorem timeless_startVoice (e : Engine σ) (v i : Nat) (patchVoice : UInt16)
    (note velocity : UInt8) : Timeless e (e.startVoice v i patchVoice note velocity) := by
  cases hpatch : e.module.patches.voice? patchVoice.toNat with
  | none =>
    rw [startVoice_of_none hpatch]
    exact .refl e
  | some patch =>
    obtain ⟨_, _, _, -, -, hstarted⟩ := startVoice_of_some v i note velocity hpatch
    rw [hstarted]
    exact ⟨rfl, rfl, rfl⟩

theorem time_beforeTracks (e : Engine σ) :
    e.beforeTracks.clock = e.clock.advance ∧ e.beforeTracks.ticks = e.ticks + 1 ∧
      e.beforeTracks.muteRate = e.muteRate := by
  have hmaster : ∀ e : Engine σ, Timeless e e.fadeMaster := by
    intro e
    unfold fadeMaster
    split <;> exact ⟨rfl, rfl, rfl⟩
  have hcd : ∀ e : Engine σ, Timeless e e.fadeCd := by
    intro e
    unfold fadeCd
    split <;> exact ⟨rfl, rfl, rfl⟩
  unfold beforeTracks
  dsimp only
  rw [(hcd _).clock, (hmaster _).clock, (hcd _).ticks, (hmaster _).ticks, (hcd _).muteRate,
    (hmaster _).muteRate]
  exact ⟨rfl, rfl, rfl⟩

/-- Only a tick takes time. -/
theorem timeless_act_of_ne_tick {e : Engine σ} {x : Act} (h : x ≠ .tick) :
    Timeless e (e.act x) := by
  cases x with
  | play i patchVoice note velocity =>
    rw [act, playNote_of_taken?]
    split
    · exact .refl e
    · next v _ => exact (timeless_freeVoice e v).trans (timeless_startVoice _ v i _ _ _)
  | endNote i note => exact ⟨rfl, rfl, rfl⟩
  | fade i =>
    unfold act releaseVoices
    dsimp only
    split <;> exact ⟨rfl, rfl, rfl⟩
  | tick => exact absurd rfl h
  | upkeep => exact timeless_serviceVoices e

/-- No act changes how fast mutes are. -/
theorem muteRate_act (e : Engine σ) (x : Act) : (e.act x).muteRate = e.muteRate := by
  by_cases hx : x = .tick
  · subst hx
    exact (time_beforeTracks e).2.2
  · exact (timeless_act_of_ne_tick hx).muteRate

theorem Stirred.muteRate {a b : Engine σ} (h : Stirred a b) : b.muteRate = a.muteRate := by
  induction h with
  | refl => rfl
  | tail _ hstep ih =>
    cases hstep with
    | inert hinert => exact hinert.muteRate.trans ih
    | act => exact (muteRate_act _ _).trans ih

/-- A voice that is neither taken nor released stays as it is until its upkeep. -/
theorem voice_act_of_spared {e : Engine σ} {x : Act} {v : Nat} (hx : x ≠ .upkeep)
    (htakes : ¬ x.Takes e v) (hreleases : ¬ x.Releases e v) : (e.act x).voice v = e.voice v := by
  cases x with
  | play i patchVoice note velocity =>
    rw [act, playNote_of_taken?]
    cases htaken : e.taken? i with
    | none => rfl
    | some w =>
      refine voice_takeVoice (lt_limit_of_taken? htaken) (fun hwv => htakes ?_) i _ _ _
      rw [Act.Takes, htaken, hwv]
  | endNote i note =>
    refine VoicePool.voice_update_of_not fun hends => hreleases ?_
    simpa [Act.Releases, voice, and_assoc] using hends
  | fade i =>
    unfold act releaseVoices
    dsimp only
    split
    · rfl
    · next hsounds => exact VoicePool.voice_update_of_not fun hown => hreleases ⟨hsounds, hown⟩
  | tick =>
    have hpools := pools_beforeTracks e
    simp only [pools, Prod.mk.injEq] at hpools
    unfold act voice
    rw [hpools.2.2.2.1]
  | upkeep => exact absurd rfl hx

/-! ### Upkeep -/

omit [SoundChip σ] in
/-- Freeing every voice that is to be freed, one after the other. -/
theorem voice_foldl_freeVoice (p : Nat → Voice → Bool) (v : Nat) :
    ∀ (l : List Nat) (e : Engine σ),
      (l.foldl (fun e w => if p w (e.voice w) then e.freeVoice w else e) e).voice v =
        if v ∈ l ∧ p v (e.voice v) = true ∧ (e.voice v).active = true then
          { e.voice v with active := false, release := false }
        else e.voice v
  | [], e => by simp
  | w :: l, e => by
    rw [List.foldl_cons, voice_foldl_freeVoice p v l]
    by_cases hw : w = v
    · subst hw
      by_cases hfreed : p w (e.voice w) = true ∧ (e.voice w).active = true
      · -- once free, a voice is left alone
        have hidle : (e.freeVoice w).voice w =
            { e.voice w with active := false, release := false } := by
          rw [voice_freeVoice, if_pos ⟨rfl, hfreed.2⟩]
        simp [hfreed.1, hfreed.2, hidle]
      · have hkept : (if p w (e.voice w) then e.freeVoice w else e).voice w = e.voice w := by
          split
          · next hp => rw [voice_freeVoice, if_neg fun h => hfreed ⟨hp, h.2⟩]
          · rfl
        rw [hkept, if_neg fun h => hfreed h.2, if_neg fun h => hfreed h.2]
    · have hkept : (if p w (e.voice w) then e.freeVoice w else e).voice v = e.voice v := by
        split
        · rw [voice_freeVoice, if_neg fun h => hw h.1]
        · rfl
      simp [hkept, Ne.symm hw]

/-- The upkeep makes a voice idle whose release is over or which the chip reports silent, and
leaves every other as it is. -/
theorem voice_serviceVoices (e : Engine σ) (v : Nat) :
    e.serviceVoices.voice v =
      if (e.voice v).expired e.clock.ms = true ∨ ((e.voice v).active = true ∧ e.Silent v) then
        { e.voice v with active := false, release := false }
      else e.voice v := by
  have hrange : ∀ {e : Engine σ}, (e.voice v).active = true → v ∈ List.range e.voices.limit :=
    fun h => List.mem_range.mpr (VoicePool.lt_limit_of_active h)
  have hactive : (e.voice v).expired e.clock.ms = true → (e.voice v).active = true := by
    intro h
    simp only [Voice.expired, Bool.and_eq_true] at h
    exact h.1.1
  have hexpired : e.freeExpired.voice v =
      if (e.voice v).expired e.clock.ms = true then
        { e.voice v with active := false, release := false }
      else e.voice v := by
    refine (voice_foldl_freeVoice (fun _ voice => voice.expired e.clock.ms) v _ e).trans ?_
    by_cases h : (e.voice v).expired e.clock.ms = true
    · rw [if_pos ⟨hrange (hactive h), h, hactive h⟩, if_pos h]
    · rw [if_neg fun hall => h hall.2.1, if_neg h]
  let polled := SoundChip.pollKeys e.freeExpired.flushReleases.chip
  let d : Engine σ := { e.freeExpired.flushReleases with chip := polled.2 }
  have hflushed : d.voice v = e.freeExpired.voice v := rfl
  have hsilent : e.serviceVoices.voice v =
      if (e.freeExpired.voice v).active = true ∧ e.Silent v then
        { e.freeExpired.voice v with active := false, release := false }
      else e.freeExpired.voice v := by
    refine (congrArg (fun d : Engine σ => d.voice v) ?_).trans ((voice_foldl_freeVoice
      (fun w voice => polled.1 w = .off && voice.active) v (List.range d.voices.limit) d).trans ?_)
    · rfl
    · rw [hflushed]
      by_cases h : (e.freeExpired.voice v).active = true ∧ e.Silent v
      · have hoff : polled.1 v = .off := h.2
        rw [if_pos h, if_pos ⟨hrange (by rw [hflushed]; exact h.1), by simp [hoff, h.1], h.1⟩]
      · rw [if_neg h, if_neg fun hall => h ⟨hall.2.2, ?_⟩]
        exact of_decide_eq_true (Bool.and_eq_true_iff.mp hall.2.1).1
  rw [hsilent, hexpired]
  by_cases h : (e.voice v).expired e.clock.ms = true
  · simp [h]
  · simp [h]

end Engine

end SoundSequencer
