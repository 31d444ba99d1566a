/-
SoundSequencer.Proofs.Effects — what pausing, resuming and ending a track do
to each track, and what they leave alone.

* `Track.paused`, `Track.resumed`, `Track.awaiting`, `Track.retired` are the
  track after each of them.
* `track_pauseTrack` … `track_awaitVoices`, `track_freeVoice` read any track
  of the pool after an operation.
* `SameSound` says that an operation leaves module, chip, voices and
  pending releases as they are.
-/
import Mathlib.Tactic.Common
import SoundSequencer.Engine.Teardown

namespace SoundSequencer

/-! ## A track after an operation -/

namespace Track

/-- The track with its time stopped. -/
def paused (t : Track) : Track := { t with flags := { t.flags with stopped := true } }

/-- The track with its time going on. -/
def resumed (t : Track) : Track := { t with flags := { t.flags with stopped := false } }

/-- The track turned off, waiting for its voices. -/
def awaiting (t : Track) : Track :=
  { t with flags := { t.flags with off := true, stopped := true } }

/-- The track at its end: out of the pool, unless a handle holds it. -/
def retired (t : Track) : Track :=
  { t with flags := { t.flags with
      stopped := true, timed := false, active := t.flags.active && t.flags.handled } }

/-- The track with a voice less. -/
def withoutVoice (t : Track) : Track := { t with voicesActive := t.voicesActive - 1 }

/-- The track once a voice of it is free: one that waited for its last voice
is at its end. -/
def voiceFreed (t : Track) : Track :=
  if t.withoutVoice.voicesActive = 0 ∧ t.withoutVoice.flags.off then t.withoutVoice.retired
  else t.withoutVoice

end Track

namespace Engine

variable {σ : Type}

/-! ## What is left alone -/

/-- Module, chip, voices and pending releases are the same, and so is the size of
the track pool. -/
structure SameSound (e e' : Engine σ) : Prop where
  module : e'.module = e.module
  chip : e'.chip = e.chip
  voices : e'.voices = e.voices
  toRelease : e'.toRelease = e.toRelease
  toMute : e'.toMute = e.toMute
  tracks_size : e'.tracks.size = e.tracks.size

theorem SameSound.refl (e : Engine σ) : SameSound e e := ⟨rfl, rfl, rfl, rfl, rfl, rfl⟩

theorem SameSound.trans {a b c : Engine σ} (hab : SameSound a b) (hbc : SameSound b c) :
    SameSound a c :=
  ⟨hbc.module.trans hab.module, hbc.chip.trans hab.chip, hbc.voices.trans hab.voices,
    hbc.toRelease.trans hab.toRelease, hbc.toMute.trans hab.toMute,
    hbc.tracks_size.trans hab.tracks_size⟩

theorem SameSound.voice {e e' : Engine σ} (h : SameSound e e') (v : Nat) :
    e'.voice v = e.voice v := by
  unfold Engine.voice; rw [h.voices]

theorem sameSound_modifyTrack (e : Engine σ) (i : Nat) (f : Track → Track) :
    SameSound e (e.modifyTrack i f) :=
  ⟨rfl, rfl, rfl, rfl, rfl, by simp [modifyTrack]⟩

theorem sameSound_modifySlot (e : Engine σ) (s : Nat) (f : Slot → Slot) :
    SameSound e (e.modifySlot s f) := ⟨rfl, rfl, rfl, rfl, rfl, rfl⟩

theorem sameSound_pauseTrack (e : Engine σ) (i : Nat) : SameSound e (e.pauseTrack i) := by
  unfold pauseTrack
  split
  · exact .refl e
  · exact (sameSound_modifyTrack e i _).trans (sameSound_modifySlot _ _ _)

theorem sameSound_resumeTrack (e : Engine σ) (i : Nat) : SameSound e (e.resumeTrack i) := by
  unfold resumeTrack
  split
  · exact (sameSound_modifyTrack e i _).trans (sameSound_modifySlot _ _ _)
  · exact .refl e

theorem sameSound_leavePool (e : Engine σ) (i : Nat) : SameSound e (e.leavePool i) :=
  ⟨rfl, rfl, rfl, rfl, rfl, by simp [leavePool, modifyTrack, modifySlot]⟩

theorem sameSound_retireTrack (e : Engine σ) (i : Nat) : SameSound e (e.retireTrack i) := by
  unfold retireTrack
  dsimp only
  refine (sameSound_pauseTrack e i).trans (.trans ?_ (sameSound_modifyTrack _ i _))
  split
  · exact .refl _
  · exact sameSound_leavePool _ i

theorem sameSound_awaitVoices (e : Engine σ) (i : Nat) : SameSound e (e.awaitVoices i) :=
  (sameSound_modifyTrack e i _).trans (sameSound_modifySlot _ _ _)

/-- The engine with voice `v` idle and its owner's count of voices one less. -/
def dropVoice (e : Engine σ) (v : Nat) : Engine σ :=
  { e with voices := e.voices.vacate v }.modifyTrack (e.voice v).track Track.withoutVoice

/-! ## Tracks after an operation -/

/-- A track outside the pool belongs to no sequence. -/
theorem lt_size_of_isActive {e : Engine σ} {i : Nat} (h : (e.track i).isActive = true) :
    i < e.tracks.size := by
  by_contra hi
  simp [track, Array.getD_eq_getD_getElem?, hi, Track.isActive] at h

theorem track_of_size_le {e : Engine σ} {i : Nat} (h : e.tracks.size ≤ i) : e.track i = {} := by
  simp [track, Array.getD_eq_getD_getElem?, h]

theorem track_pauseTrack (e : Engine σ) (i j : Nat) :
    (e.pauseTrack i).track j =
      if i = j ∧ j < e.tracks.size then (e.track j).paused else e.track j := by
  unfold pauseTrack
  split
  case isTrue hs =>
    split
    case isTrue h =>
      obtain ⟨rfl, -⟩ := h
      have hflag : (e.track i).flags.stopped = true := hs
      simp [Track.paused, ← hflag]
    case isFalse => rfl
  case isFalse => exact track_modifyTrack e i j Track.paused

theorem track_resumeTrack (e : Engine σ) (i j : Nat) :
    (e.resumeTrack i).track j =
      if i = j ∧ j < e.tracks.size then (e.track j).resumed else e.track j := by
  unfold resumeTrack
  split
  case isTrue => exact track_modifyTrack e i j Track.resumed
  case isFalse hs =>
    split
    case isTrue h =>
      obtain ⟨rfl, -⟩ := h
      have hflag : (e.track i).flags.stopped = false := by
        simpa [Track.isStopped] using hs
      simp [Track.resumed, ← hflag]
    case isFalse => rfl

theorem track_leavePool (e : Engine σ) (i j : Nat) :
    (e.leavePool i).track j =
      if i = j ∧ j < e.tracks.size then
        { e.track j with flags := { (e.track j).flags with active := false } }
      else e.track j :=
  track_modifyTrack e i j _

theorem track_retireTrack (e : Engine σ) (i j : Nat) :
    (e.retireTrack i).track j =
      if i = j ∧ j < e.tracks.size then (e.track j).retired else e.track j := by
  unfold retireTrack
  dsimp only
  have hsize := (sameSound_pauseTrack e i).tracks_size
  rw [track_modifyTrack]
  by_cases hij : i = j ∧ j < e.tracks.size
  · obtain ⟨rfl, hi⟩ := hij
    split
    case isTrue hh =>
      rw [track_pauseTrack] at hh ⊢
      simp only [hi, and_self, if_true, hsize] at hh ⊢
      have hflag : (e.track i).flags.handled = true := hh
      simp [Track.retired, Track.paused, hflag]
    case isFalse hh =>
      rw [track_pauseTrack] at hh
      simp only [hi, and_self, if_true] at hh
      have hflag : (e.track i).flags.handled = false := by
        simpa [Track.isHandled, Track.paused] using hh
      rw [(sameSound_leavePool _ i).tracks_size, track_leavePool, track_pauseTrack]
      simp [hi, hsize, Track.retired, Track.paused, hflag]
  · split
    case isTrue => simp only [track_pauseTrack, hij, hsize, if_false]
    case isFalse =>
      simp only [(sameSound_leavePool _ i).tracks_size, track_leavePool, track_pauseTrack, hij,
        hsize, if_false]

theorem track_awaitVoices (e : Engine σ) (i j : Nat) :
    (e.awaitVoices i).track j =
      if i = j ∧ j < e.tracks.size then (e.track j).awaiting else e.track j :=
  track_modifyTrack e i j Track.awaiting

@[simp] theorem track_releaseVoices (e : Engine σ) (i j : Nat) :
    (e.releaseVoices i).track j = e.track j := by
  unfold releaseVoices
  split <;> rfl

@[simp] theorem tracks_size_releaseVoices (e : Engine σ) (i : Nat) :
    (e.releaseVoices i).tracks.size = e.tracks.size := by
  unfold releaseVoices
  split <;> rfl

/-- A track that is turned off is at its end or waits for its voices. -/
theorem turnOff_eq (e : Engine σ) (i : Nat) :
    e.turnOff i =
      match (e.track i).driver with
      | .silent => e.retireTrack i
      | .voices =>
        if (e.track i).voicesActive = 0 then e.retireTrack i
        else (e.releaseVoices i).awaitVoices i := by
  unfold turnOff
  cases (e.track i).driver with
  | silent => rfl
  | voices =>
    dsimp only
    rw [track_releaseVoices]
    split
    case isTrue h => simp [releaseVoices, h]
    case isFalse => rfl

/-- An idle voice has nothing to free; for any other, its owner is retired or not. -/
theorem freeVoice_eq (e : Engine σ) (v : Nat) :
    e.freeVoice v =
      if (e.voice v).active then
        if ((e.dropVoice v).track (e.voice v).track).voicesActive = 0 ∧
            ((e.dropVoice v).track (e.voice v).track).flags.off then
          (e.dropVoice v).retireTrack (e.voice v).track
        else e.dropVoice v
      else e := rfl

theorem track_dropVoice (e : Engine σ) (v j : Nat) :
    (e.dropVoice v).track j =
      if (e.voice v).track = j ∧ j < e.tracks.size then (e.track j).withoutVoice
      else e.track j :=
  track_modifyTrack _ _ j Track.withoutVoice

@[simp] theorem tracks_size_dropVoice (e : Engine σ) (v : Nat) :
    (e.dropVoice v).tracks.size = e.tracks.size := by
  simp [dropVoice, modifyTrack]

theorem track_freeVoice (e : Engine σ) (v j : Nat) :
    (e.freeVoice v).track j =
      if (e.voice v).active = true ∧ (e.voice v).track = j ∧ j < e.tracks.size then
        (e.track j).voiceFreed
      else e.track j := by
  rw [freeVoice_eq]
  by_cases ha : (e.voice v).active = true
  · by_cases hj : (e.voice v).track = j ∧ j < e.tracks.size
    · obtain ⟨rfl, hi⟩ := hj
      have hown := track_dropVoice e v (e.voice v).track
      simp only [hi, and_self, if_true] at hown
      simp only [ha, hown, hi, and_self, if_true, Track.voiceFreed]
      split
      case isTrue h =>
        rw [track_retireTrack, hown, if_pos (by simpa using hi)]
      case isFalse h => exact hown
    · have hother := track_dropVoice e v j
      simp only [hj, if_false] at hother
      simp only [ha, hj, if_true, and_false, if_false]
      split
      · rw [track_retireTrack, tracks_size_dropVoice, if_neg hj, hother]
      · exact hother
  · simp [ha]

theorem voices_freeVoice (e : Engine σ) (v : Nat) :
    (e.freeVoice v).voices = e.voices.vacate v := by
  rw [freeVoice_eq]
  split
  case isTrue =>
    split
    · exact (sameSound_retireTrack _ _).voices
    · rfl
  case isFalse ha =>
    have hidle : (e.voices.voice v).active = false := by simpa [Engine.voice] using ha
    simp [VoicePool.vacate, hidle]

end Engine

end SoundSequencer
