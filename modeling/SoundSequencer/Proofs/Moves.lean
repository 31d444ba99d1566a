/-
SoundSequencer.Proofs.Moves — what running the tracks can do to an engine.

* `Track.standing` and `Slot.standing` are a track and a slot without what
  commands are free to change: controls, time and place, gates and
  counters.
* `Unkeyed` relates two states of a chip between which no voice was keyed.
* `Tuned` relates two engines that differ in those free parts alone; a
  command for the control of a track or a sequence tunes the engine.
* `Move` lists what else a command can do. `moves_runTracks` says that the
  tracks of a tick only ever make such moves, so a property that every
  move keeps is kept by all of them.
-/
import Mathlib.Logic.Relation
import Mathlib.Tactic.Common
import SoundSequencer.Engine.Interpreter

namespace SoundSequencer

/-! ## One thing after another -/

/-- A step that relates what it finds to what it leaves relates the two ends of a
list of steps. -/
theorem foldl_relates {α β : Type} {r : α → α → Prop} {f : α → β → α} (hrefl : ∀ a, r a a)
    (htrans : ∀ a b c, r a b → r b c → r a c) (hf : ∀ a b, r a (f a b)) :
    ∀ (l : List β) (a : α), r a (l.foldl f a)
  | [], a => hrefl a
  | b :: l, a => htrans _ _ _ (hf a b) (foldl_relates hrefl htrans hf l (f a b))

/-- What holds of a list of work still to be done and of what is done so far. -/
theorem foldl_keeps {α β : Type} {f : α → β → α} (good : List β → α → Prop)
    (hstep : ∀ b l a, good (b :: l) a → good l (f a b)) :
    ∀ (l : List β) (a : α), good l a → good [] (l.foldl f a)
  | [], _, h => h
  | b :: l, a, h => foldl_keeps good hstep l (f a b) (hstep b l a h)

/-- A list of work of which none has anything to do. -/
theorem foldl_idle {α β : Type} {f : α → β → α} {a : α} :
    ∀ {l : List β}, (∀ b ∈ l, f a b = a) → l.foldl f a = a
  | [], _ => rfl
  | b :: l, h => by
    rw [List.foldl_cons, h b List.mem_cons_self]
    exact foldl_idle fun c hc => h c (List.mem_cons_of_mem b hc)

/-! ## Standing -/

/-- The track without controls, time and place in its stream. -/
def Track.standing (t : Track) : Track :=
  { t with
    flags := { t.flags with muted := false, looped := false, timed := false }
    patch := 0, pitch := 0, volume := 0, pan := 0, reverb := 0
    qpm := 0, ppi := 0, frac := 0, total := 0, acc := 0, endAt := 0
    delta := 0, pc := 0, returns := [] }

/-- The slot without gates and counters. -/
def Slot.standing (s : Slot) : Slot := { s with gates := #[], iters := #[] }

/-- The later state of the chip is reached without keying a voice. -/
inductive Unkeyed {σ : Type} [SoundChip σ] : σ → σ → Prop where
  | refl (chip : σ) : Unkeyed chip chip
  | registers {a b : σ} (voices : VoiceSet) (mask : RegisterMask) (registers : VoiceRegisters) :
      Unkeyed a b → Unkeyed a (SoundChip.writeRegisters voices mask registers b)
  | reverb {a b : σ} (on : Bool) (voices : VoiceSet) :
      Unkeyed a b → Unkeyed a (SoundChip.setReverb on voices b)
  | masterVolume {a b : σ} (volume : Int16) :
      Unkeyed a b → Unkeyed a (SoundChip.setMasterVolume volume b)
  | cdVolume {a b : σ} (volume : Int16) :
      Unkeyed a b → Unkeyed a (SoundChip.setCdVolume volume b)
  | startTransfer {a b : σ} (address : UInt32) :
      Unkeyed a b → Unkeyed a (SoundChip.startTransfer address b)
  | writeTransfer {a b : σ} (data : List UInt8) :
      Unkeyed a b → Unkeyed a (SoundChip.writeTransfer data b).2
  | transferComplete {a b : σ} (wait : Bool) :
      Unkeyed a b → Unkeyed a (SoundChip.transferComplete wait b).2

theorem Unkeyed.trans {σ : Type} [SoundChip σ] {a b c : σ} (hab : Unkeyed a b)
    (hbc : Unkeyed b c) : Unkeyed a c := by
  induction hbc with
  | refl => exact hab
  | registers voices mask registers _ ih => exact ih.registers voices mask registers
  | reverb on voices _ ih => exact ih.reverb on voices
  | masterVolume volume _ ih => exact ih.masterVolume volume
  | cdVolume volume _ ih => exact ih.cdVolume volume
  | startTransfer address _ ih => exact ih.startTransfer address
  | writeTransfer data _ ih => exact ih.writeTransfer data
  | transferComplete wait _ ih => exact ih.transferComplete wait

namespace Engine

variable {σ : Type} [SoundChip σ]

/-- The engines differ in controls, times and places of tracks, in gates and
counters, and in what the chip sounds like, but neither in who plays what nor
in the voices that are keyed. -/
structure Tuned (e e' : Engine σ) : Prop where
  module : e'.module = e.module
  voices : e'.voices = e.voices
  toRelease : e'.toRelease = e.toRelease
  toMute : e'.toMute = e.toMute
  chip : Unkeyed e.chip e'.chip
  tracks_size : e'.tracks.size = e.tracks.size
  slots_size : e'.slots.size = e.slots.size
  track : ∀ i, (e'.track i).standing = (e.track i).standing
  slot : ∀ s, (e'.slot s).standing = (e.slot s).standing
  tracksActive : e'.tracksActive = e.tracksActive
  slotsActive : e'.slotsActive = e.slotsActive

namespace Tuned

theorem refl (e : Engine σ) : Tuned e e :=
  ⟨rfl, rfl, rfl, rfl, .refl _, rfl, rfl, fun _ => rfl, fun _ => rfl, rfl, rfl⟩

theorem trans {a b c : Engine σ} (hab : Tuned a b) (hbc : Tuned b c) : Tuned a c where
  module := hbc.module.trans hab.module
  voices := hbc.voices.trans hab.voices
  toRelease := hbc.toRelease.trans hab.toRelease
  toMute := hbc.toMute.trans hab.toMute
  chip := hab.chip.trans hbc.chip
  tracks_size := hbc.tracks_size.trans hab.tracks_size
  slots_size := hbc.slots_size.trans hab.slots_size
  track i := (hbc.track i).trans (hab.track i)
  slot s := (hbc.slot s).trans (hab.slot s)
  tracksActive := hbc.tracksActive.trans hab.tracksActive
  slotsActive := hbc.slotsActive.trans hab.slotsActive

/-- What a track shows that its standing shows too is the same. -/
theorem read {α : Type} {e e' : Engine σ} (h : Tuned e e') (f : Track → α)
    (hf : ∀ t, f t.standing = f t) (i : Nat) : f (e'.track i) = f (e.track i) := by
  rw [← hf, h.track, hf]

/-- What a slot shows that its standing shows too is the same. -/
theorem readSlot {α : Type} {e e' : Engine σ} (h : Tuned e e') (f : Slot → α)
    (hf : ∀ s, f s.standing = f s) (s : Nat) : f (e'.slot s) = f (e.slot s) := by
  rw [← hf, h.slot, hf]

theorem isRunning {e e' : Engine σ} (h : Tuned e e') (i : Nat) :
    (e'.track i).isRunning = (e.track i).isRunning := h.read _ (fun _ => rfl) i

theorem driver {e e' : Engine σ} (h : Tuned e e') (i : Nat) :
    (e'.track i).driver = (e.track i).driver := h.read Track.driver (fun _ => rfl) i

theorem voice {e e' : Engine σ} (h : Tuned e e') (v : Nat) : e'.voice v = e.voice v := by
  unfold Engine.voice; rw [h.voices]

end Tuned

/-! ## What tunes an engine -/

theorem tuned_modifyTrack (e : Engine σ) (i : Nat) {f : Track → Track}
    (hf : (f (e.track i)).standing = (e.track i).standing) : Tuned e (e.modifyTrack i f) where
  module := rfl
  voices := rfl
  toRelease := rfl
  toMute := rfl
  chip := .refl _
  tracks_size := by simp [modifyTrack]
  slots_size := rfl
  track j := by
    rw [track_modifyTrack]
    split
    · next h => obtain ⟨rfl, -⟩ := h; exact hf
    · rfl
  slot _ := rfl
  tracksActive := rfl
  slotsActive := rfl

theorem tuned_modifySlot (e : Engine σ) (s : Nat) {f : Slot → Slot}
    (hf : (f (e.slot s)).standing = (e.slot s).standing) : Tuned e (e.modifySlot s f) where
  module := rfl
  voices := rfl
  toRelease := rfl
  toMute := rfl
  chip := .refl _
  tracks_size := rfl
  slots_size := by simp [modifySlot]
  track _ := rfl
  slot j := by
    rw [slot_modifySlot]
    split
    · next h => obtain ⟨rfl, -⟩ := h; exact hf
    · rfl
  tracksActive := rfl
  slotsActive := rfl

theorem tuned_chip (e : Engine σ) {chip : σ} (h : Unkeyed e.chip chip) :
    Tuned e { e with chip } :=
  ⟨rfl, rfl, rfl, rfl, h, rfl, rfl, fun _ => rfl, fun _ => rfl, rfl, rfl⟩

theorem tuned_writeOwned (e : Engine σ) (i : Nat) (mask : RegisterMask)
    (registers : Voice → PatchVoice → VoiceRegisters) :
    Tuned e (e.writeOwned i mask registers) := by
  unfold writeOwned
  split
  · exact .refl e
  · refine tuned_chip e ?_
    refine foldl_relates (r := Unkeyed) .refl (fun _ _ _ => .trans) (fun chip v => ?_) _ e.chip
    -- a voice adds at most one write
    split
    · exact .refl chip
    · exact (Unkeyed.refl chip).registers _ _ _

theorem tuned_pushLevels (e : Engine σ) (i : Nat) : Tuned e (e.pushLevels i) :=
  tuned_writeOwned e i _ _

theorem tuned_bendPitch (e : Engine σ) (i : Nat) (pitch : Int16) :
    Tuned e (e.bendPitch i pitch) := by
  unfold bendPitch
  split
  · exact .refl e
  · exact (tuned_modifyTrack e i rfl).trans (tuned_writeOwned _ i _ _)

theorem tuned_setTrackVolume (e : Engine σ) (i : Nat) (volume : UInt8) :
    Tuned e (e.setTrackVolume i volume) :=
  (tuned_modifyTrack e i rfl).trans (tuned_pushLevels _ i)

theorem tuned_setTrackPan (e : Engine σ) (i : Nat) (pan : UInt8) :
    Tuned e (e.setTrackPan i pan) := by
  unfold setTrackPan
  dsimp only
  split
  · exact tuned_modifyTrack e i rfl
  · exact (tuned_modifyTrack e i rfl).trans (tuned_pushLevels _ i)

theorem standing_silentCommand (t : Track) (c : Command) :
    (t.silentCommand c).standing = t.standing := by
  unfold Track.silentCommand
  split <;> rfl

/-- A command of the driver that is no note tunes the engine. -/
theorem tuned_driverCommand (e : Engine σ) (i : Nat) (c : Command) (hon : c.op ≠ .noteOn)
    (hoff : c.op ≠ .noteOff) : Tuned e (e.driverCommand i c) := by
  unfold driverCommand
  split
  · exact tuned_modifyTrack e i (standing_silentCommand _ c)
  · unfold voiceCommand
    split
    · exact tuned_modifyTrack e i rfl
    · exact tuned_bendPitch e i _
    · exact tuned_setTrackVolume e i _
    · exact tuned_setTrackPan e i _
    · next h => exact absurd h hon
    · next h => exact absurd h hoff
    · exact .refl e

theorem tuned_readDelta? {e e' : Engine σ} {i offset : Nat}
    (h : e.readDelta? i offset = some e') : Tuned e e' := by
  unfold readDelta? at h
  simp only [bind, Option.bind_eq_some_iff, pure, Option.some.injEq] at h
  obtain ⟨_, _, _, _, rfl⟩ := h
  exact tuned_modifyTrack e i rfl

theorem tuned_jump (e : Engine σ) (i : Nat) (label : Int16) : Tuned e (e.jump i label).1 := by
  unfold jump
  split
  · exact .refl e
  · exact tuned_modifyTrack e i rfl

theorem standing_pushReturn? {t t' : Track} {address : Nat}
    (h : t.pushReturn? address = some t') : t'.standing = t.standing := by
  unfold Track.pushReturn? at h
  split at h
  · cases h; rfl
  · cases h

theorem standing_popReturn? {t t' : Track} {address : Nat}
    (h : t.popReturn? = some (address, t')) : t'.standing = t.standing := by
  unfold Track.popReturn? at h
  split at h
  · cases h
  · cases h; rfl

theorem tuned_gosub (e : Engine σ) (i : Nat) (label : Int16) : Tuned e (e.gosub i label).1 := by
  unfold gosub
  split
  · exact .refl e
  · dsimp only
    split
    · exact .refl e
    · next h =>
      have hstanding := standing_pushReturn? h
      exact tuned_modifyTrack e i (by exact hstanding)

theorem tuned_goBack (e : Engine σ) (i : Nat) : Tuned e (e.goBack i).1 := by
  unfold goBack
  split
  · exact .refl e
  · next h =>
    have hpop : Tuned e (e.modifyTrack i fun _ => _) :=
      tuned_modifyTrack e i (standing_popReturn? h)
    dsimp only
    split
    · exact hpop
    · next hread => exact hpop.trans (tuned_readDelta? hread)

theorem tuned_forSequence (e : Engine σ) (i : Nat) {move : Engine σ → Nat → Engine σ × Flow}
    (hmove : ∀ e j, Tuned e (move e j).1) : Tuned e (e.forSequence i move).1 := by
  unfold forSequence
  refine foldl_relates (r := fun p q : Engine σ × Flow => Tuned p.1 q.1) (fun p => .refl p.1)
    (fun _ _ _ => .trans) (fun p j => ?_) _ (e, Flow.advance)
  exact hmove p.1 j

theorem tuned_forTracksOf (e : Engine σ) (s : Nat) {f : Engine σ → Nat → Engine σ}
    (hf : ∀ e i, Tuned e (f e i)) : Tuned e (e.forTracksOf s f) :=
  foldl_relates .refl (fun _ _ _ => .trans) hf _ e

theorem tuned_hearMark (e : Engine σ) (kind : UInt8) (value : Int16) :
    Tuned e (e.hearMark kind value) := by
  unfold hearMark
  split
  · exact .refl e
  · exact ⟨rfl, rfl, rfl, rfl, .refl _, rfl, rfl, fun _ => rfl, fun _ => rfl, rfl, rfl⟩

theorem standing_passGate (s : Slot) (gate first : UInt8) :
    (s.passGate gate first).1.standing = s.standing := by
  unfold Slot.passGate
  repeat' split
  all_goals rfl

theorem standing_countDown (s : Slot) (counter first : UInt8) :
    (s.countDown counter first).1.standing = s.standing := by
  unfold Slot.countDown
  repeat' split
  all_goals rfl

/-! ## Deeds and moves -/

/-- Track `i` is among the tracks of slot `s`, which is in use. -/
def Lists (e : Engine σ) (s i : Nat) : Prop :=
  (e.slot s).active = true ∧ i ∈ (e.slot s).trackIds

/-- What a command or a call can do to an engine without playing a note. A track
that is turned off by a command of its own was running when it did so. -/
inductive Deed : Engine σ → Engine σ → Prop where
  | tuned {e e' : Engine σ} : Tuned e e' → Deed e e'
  | turnOff {e : Engine σ} {i : Nat} : (e.track i).isRunning = true → Deed e (e.turnOff i)
  | endSequence (e : Engine σ) (s : Nat) : Deed e (e.endSequence s)
  | noteOff (e : Engine σ) (i : Nat) (note : UInt8) : Deed e (e.noteOff i note)
  | pauseTrack {e : Engine σ} {s i : Nat} : e.Lists s i → Deed e (e.pauseTrack i)
  | muteTrack (e : Engine σ) (i : Nat) : Deed e (e.muteTrack i)

/-- What a command of a track can do to an engine. A track that plays notes was
running when it did so. -/
inductive Move : Engine σ → Engine σ → Prop where
  | deed {e e' : Engine σ} : Deed e e' → Move e e'
  | noteOn {e : Engine σ} {i : Nat} (key velocity : UInt8) : (e.track i).isRunning = true →
      (e.track i).driver = .voices → Move e (e.noteOn i key velocity)

/-- Moves one after the other. -/
abbrev Moves : Engine σ → Engine σ → Prop := Relation.ReflTransGen Move

theorem Deed.moves {e e' : Engine σ} (h : Deed e e') : Moves e e' := .single (.deed h)

theorem Tuned.moves {e e' : Engine σ} (h : Tuned e e') : Moves e e' := (Deed.tuned h).moves

/-- What every move keeps, any number of moves keeps. -/
theorem Moves.keeps {good : Engine σ → Prop} (hmove : ∀ e e', Move e e' → good e → good e')
    {e e' : Engine σ} (h : Moves e e') (he : good e) : good e' := by
  induction h with
  | refl => exact he
  | tail _ hlast ih => exact hmove _ _ hlast ih

/-! ## The tracks of a tick -/

theorem moves_nextEvent (e : Engine σ) (i offset : Nat) : Moves e (e.nextEvent i offset) := by
  unfold nextEvent
  split
  · next h => exact (tuned_readDelta? h).moves
  · split
    · exact (Deed.endSequence e _).moves
    · exact .refl

theorem moves_endTrack {e : Engine σ} {i : Nat} (hrun : (e.track i).isRunning = true) :
    Moves e (e.endTrack i).1 := by
  unfold endTrack
  dsimp only
  split
  · next h =>
    split at h
    · exact (tuned_readDelta? h).moves
    · cases h
  · exact (Deed.turnOff hrun).moves

theorem moves_command {e : Engine σ} {i : Nat} (c : Command)
    (hrun : (e.track i).isRunning = true) : Moves e (e.command i c).1 := by
  unfold command
  dsimp only
  split
  case h_1 => exact (tuned_hearMark e _ _).moves
  case h_2 =>
    split
    · exact ((tuned_modifySlot e _ (standing_passGate _ _ _)).trans (tuned_jump _ i _)).moves
    · exact .refl
  case h_3 =>
    split
    · exact ((tuned_modifySlot e _ (standing_countDown _ _ _)).trans (tuned_jump _ i _)).moves
    · exact .refl
  case h_4 => exact (tuned_modifySlot e _ rfl).moves
  case h_5 => exact (tuned_modifySlot e _ rfl).moves
  case h_6 => exact (tuned_modifySlot e _ rfl).moves
  case h_7 => exact (tuned_forTracksOf e _ fun e _ => tuned_modifyTrack e _ rfl).moves
  case h_8 =>
    split
    · exact .refl
    · exact (tuned_forSequence e i fun e j => tuned_gosub e j _).moves
  case h_9 =>
    split
    · exact .refl
    · exact (tuned_forSequence e i fun e j => tuned_jump e j _).moves
  case h_10 => exact (tuned_forSequence e i tuned_goBack).moves
  case h_11 => exact (Deed.endSequence e _).moves
  case h_12 => exact (tuned_modifyTrack e i rfl).moves
  case h_13 => exact (tuned_gosub e i _).moves
  case h_14 =>
    have hjump := tuned_jump e i (c.signedWord 1)
    split
    · next h => rw [h] at hjump; exact (hjump.trans (tuned_modifyTrack _ i rfl)).moves
    · next h => rw [h] at hjump; exact hjump.moves
  case h_15 => exact (tuned_goBack e i).moves
  case h_16 => exact moves_endTrack hrun
  case h_17 => exact .refl

theorem moves_driverCommand {e : Engine σ} {i : Nat} (c : Command)
    (hrun : (e.track i).isRunning = true) : Moves e (e.driverCommand i c) := by
  cases hdriver : (e.track i).driver with
  | silent =>
    have h : e.driverCommand i c = e.modifyTrack i (·.silentCommand c) := by
      simp [driverCommand, hdriver]
    rw [h]
    exact (tuned_modifyTrack e i (standing_silentCommand _ c)).moves
  | voices =>
    have h : e.driverCommand i c = e.voiceCommand i c := by simp [driverCommand, hdriver]
    by_cases hon : c.op = .noteOn
    · rw [h, voiceCommand, hon]
      exact .single (.noteOn _ _ hrun hdriver)
    · by_cases hoff : c.op = .noteOff
      · rw [h, voiceCommand, hoff]
        exact (Deed.noteOff e i _).moves
      · exact (tuned_driverCommand e i c hon hoff).moves

theorem moves_stepTrack {e : Engine σ} {i : Nat} (hrun : (e.track i).isRunning = true) :
    Moves e (e.stepTrack i) := by
  unfold stepTrack
  dsimp only
  split
  · exact (Deed.endSequence e _).moves
  · next c _ =>
    split
    · exact (moves_driverCommand c hrun).trans (moves_nextEvent _ i _)
    · split
      · split
        · exact (moves_command c hrun).trans (moves_nextEvent _ i _)
        · exact moves_command c hrun
      · exact (Deed.endSequence e _).moves

omit [SoundChip σ] in
theorem isRunning_of_isDue {e : Engine σ} {i : Nat} (h : e.isDue i = true) :
    (e.track i).isRunning = true := by
  simp only [isDue, Bool.and_eq_true] at h
  exact h.1

theorem moves_runDue (i : Nat) : ∀ (budget : Nat) (e : Engine σ), Moves e (runDue budget e i)
  | 0, e => by
    unfold runDue
    split
    · next h => exact (Deed.turnOff (isRunning_of_isDue h)).moves
    · exact .refl
  | budget + 1, e => by
    unfold runDue
    split
    · next h =>
      have hpay : Tuned e (e.payDelta i) := tuned_modifyTrack e i rfl
      have hrun : ((e.payDelta i).track i).isRunning = true := by
        rw [hpay.isRunning, isRunning_of_isDue h]
      exact hpay.moves.trans ((moves_stepTrack hrun).trans (moves_runDue i budget _))
    · exact .refl

theorem moves_runTrack {e : Engine σ} {i : Nat} (hrun : (e.track i).isRunning = true) :
    Moves e (e.runTrack i) := by
  have hadvance : Tuned e (e.modifyTrack i Track.advance) := tuned_modifyTrack e i rfl
  unfold runTrack
  dsimp only
  split
  · exact hadvance.moves.trans (Deed.turnOff (by rw [hadvance.isRunning, hrun])).moves
  · exact hadvance.moves.trans (moves_runDue i _ _)

/-- The turns of the tracks of a list, of those that run when their turn comes. -/
def runPool (e : Engine σ) (l : List Nat) : Engine σ :=
  l.foldl (fun e i => if (e.track i).isRunning then e.runTrack i else e) e

theorem moves_runPool (l : List Nat) (e : Engine σ) : Moves e (e.runPool l) := by
  induction l generalizing e with
  | nil => exact .refl
  | cons i l ih =>
    unfold runPool
    rw [List.foldl_cons]
    refine .trans ?_ (ih _)
    split
    · next h => exact moves_runTrack h
    · exact .refl

/-- The tracks of a tick do nothing but moves. -/
theorem moves_runTracks (e : Engine σ) : Moves e e.runTracks := moves_runPool e.trackIds e

end Engine

end SoundSequencer
