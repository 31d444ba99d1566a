/-
SoundSequencer.Engine.State — an engine: a sound module, a chip and all that
plays.

* `Engine` holds the module, the chip, the pools of tracks, slots and
  voices, the masters, the fades, the clock and the listeners.
* `Engine.make` builds one around a module that passes admission.
* `track`, `slot`, `voice` read the pools; outside a pool they read an idle
  entry. `modifyTrack` and `modifySlot` change one entry.
-/
import SoundSequencer.Engine.Admission
import SoundSequencer.Fade
import SoundSequencer.Slot
import SoundSequencer.Voice.Params
import SoundSequencer.Voice.Pool

namespace SoundSequencer

/-- Who hears the status marks of a kind, and the last value heard. -/
structure Listener where
  kind : UInt8
  value : Int16 := 0
  deriving Repr, DecidableEq

/-- A status mark that a listener heard. -/
structure Mark where
  kind : UInt8
  value : Int16
  deriving Repr, DecidableEq

/-- The milliseconds that a mute may take before anything else is asked. -/
def defaultMuteRelease : UInt32 := 250

/-- An engine with its chip in a state of type `σ`. -/
structure Engine (σ : Type) where
  module : SoundModule
  chip : σ
  tracks : Array Track
  slots : Array Slot
  voices : VoicePool
  /-- The voices that were last sent to the reverb unit. -/
  reverbVoices : VoiceSet := BitVec.allOnes 32
  /-- The voices to key off at the end of the tick. -/
  toRelease : VoiceSet := 0
  /-- The voices to give the mute release before they are keyed off. -/
  toMute : VoiceSet := 0
  listeners : Array (Option Listener)
  /-- The marks heard and not yet taken, the oldest first. -/
  marks : Array Mark := #[]
  clock : MsClock := {}
  effectVolume : UInt8 := maxMasterVolume
  musicVolume : UInt8 := maxMasterVolume
  panMode : PanMode := .on
  muteRate : UInt8 := Voice.muteReleaseRate defaultMuteRelease
  masterVolume : Int16 := maxChipVolume
  masterFade : Fade := {}
  cdVolume : Int16 := maxCdVolume
  cdFade : Fade := {}
  slotsActive : Nat := 0
  tracksActive : Nat := 0
  ticks : Nat := 0

namespace Engine

variable {σ : Type}

/-- An engine around `module`, with the chip's volumes all the way up; refused
if the module has a flaw. -/
def make [SoundChip σ] (module : SoundModule) (chip : σ) : Except EngineError (Engine σ) :=
  match module.flaw? with
  | some flaw => .error flaw
  | none =>
    let limits := module.limits
    let slot :=
      Slot.ofSizes limits.gates.toNat limits.iters.toNat module.widestSequence
    .ok {
      module
      chip := SoundChip.setCdVolume maxCdVolume (SoundChip.setMasterVolume maxChipVolume chip)
      tracks := Array.replicate limits.tracks.toNat {}
      slots := Array.replicate limits.sequences.toNat slot
      voices := VoicePool.ofLimit limits.voices.toNat
      listeners := Array.replicate limits.callbacks.toNat none }

/-! ## The pools -/

/-- Entry `i` of the track pool. -/
def track (e : Engine σ) (i : Nat) : Track := e.tracks.getD i {}

/-- Slot `i`. -/
def slot (e : Engine σ) (i : Nat) : Slot := e.slots.getD i {}

/-- Voice `i` of the voice pool. -/
def voice (e : Engine σ) (i : Nat) : Voice := e.voices.voice i

/-- The engine with `f` applied to track `i`. -/
def modifyTrack (e : Engine σ) (i : Nat) (f : Track → Track) : Engine σ :=
  { e with tracks := e.tracks.modify i f }

/-- The engine with `f` applied to slot `i`. -/
def modifySlot (e : Engine σ) (i : Nat) (f : Slot → Slot) : Engine σ :=
  { e with slots := e.slots.modify i f }

theorem track_modifyTrack (e : Engine σ) (i j : Nat) (f : Track → Track) :
    (e.modifyTrack i f).track j =
      if i = j ∧ j < e.tracks.size then f (e.track j) else e.track j := by
  by_cases hj : j < e.tracks.size <;> by_cases hi : i = j <;>
    simp [track, modifyTrack, Array.getD_eq_getD_getElem?, Array.getElem_modify, hi, hj]

theorem slot_modifySlot (e : Engine σ) (i j : Nat) (f : Slot → Slot) :
    (e.modifySlot i f).slot j =
      if i = j ∧ j < e.slots.size then f (e.slot j) else e.slot j := by
  by_cases hj : j < e.slots.size <;> by_cases hi : i = j <;>
    simp [slot, modifySlot, Array.getD_eq_getD_getElem?, Array.getElem_modify, hi, hj]

@[simp] theorem slot_modifyTrack (e : Engine σ) (i j : Nat) (f : Track → Track) :
    (e.modifyTrack i f).slot j = e.slot j := rfl

@[simp] theorem track_modifySlot (e : Engine σ) (i j : Nat) (f : Slot → Slot) :
    (e.modifySlot i f).track j = e.track j := rfl

@[simp] theorem voice_modifyTrack (e : Engine σ) (i v : Nat) (f : Track → Track) :
    (e.modifyTrack i f).voice v = e.voice v := rfl

@[simp] theorem voice_modifySlot (e : Engine σ) (i v : Nat) (f : Slot → Slot) :
    (e.modifySlot i f).voice v = e.voice v := rfl

/-- The numbers of all tracks in the pool. -/
def trackIds (e : Engine σ) : List Nat := List.range e.tracks.size

/-- The numbers of all slots. -/
def slotIds (e : Engine σ) : List Nat := List.range e.slots.size

/-- The stream that a track reads. -/
def stream? (e : Engine σ) (i : Nat) : Option TrackStream :=
  e.module.track? (e.track i).sequence (e.track i).position

/-- The patch voice that plays on a voice. -/
def patchVoice? (e : Engine σ) (v : Nat) : Option PatchVoice :=
  e.module.patches.voice? (e.voice v).patchVoice.toNat

/-- Applies `f` to every track of a slot, one after the other. -/
def forTracksOf (e : Engine σ) (slot : Nat) (f : Engine σ → Nat → Engine σ) : Engine σ :=
  (e.slot slot).trackList.foldl f e

/-- Applies `f` to every track of every active slot that satisfies `q`, slot
by slot. -/
def forTracksWhere (e : Engine σ) (q : Slot → Bool) (f : Engine σ → Nat → Engine σ) :
    Engine σ :=
  e.slotIds.foldl (fun e s =>
    if (e.slot s).active && q (e.slot s) then e.forTracksOf s f else e) e

end Engine

end SoundSequencer
