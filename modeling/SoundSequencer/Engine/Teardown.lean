/-
SoundSequencer.Engine.Teardown — pausing, resuming and ending tracks.

* `pauseTrack` and `resumeTrack` stop and start a track's time and keep its
  slot's count of playing tracks.
* `leavePool` gives a track back; the last track of a slot frees the slot.
* `retireTrack` ends a track for good, unless a handle holds it.
* `releaseVoices` starts the mute release of all notes of a track.
* `turnOff` ends a track: one that still sounds waits, turned off, for its
  last voice. `freeVoice` makes a voice idle and retires an owner that
  waited for it.
-/
import SoundSequencer.Engine.State

namespace SoundSequencer.Engine

variable {σ : Type}

/-! ## Pausing -/

/-- Stops the time of a track. -/
def pauseTrack (e : Engine σ) (i : Nat) : Engine σ :=
  if (e.track i).isStopped then e
  else
    (e.modifyTrack i fun t => { t with flags := { t.flags with stopped := true } }).modifySlot
      (e.track i).slot Slot.stopped

/-- Lets the time of a track go on. -/
def resumeTrack (e : Engine σ) (i : Nat) : Engine σ :=
  if (e.track i).isStopped then
    (e.modifyTrack i fun t => { t with flags := { t.flags with stopped := false } }).modifySlot
      (e.track i).slot Slot.started
  else e

/-! ## Leaving the pool -/

/-- Gives a track back to the pool, and with its last track its slot. -/
def leavePool (e : Engine σ) (i : Nat) : Engine σ :=
  let home := (e.track i).slot
  let slotsActive := if (e.slot home).endsNext then e.slotsActive - 1 else e.slotsActive
  let e := e.modifyTrack i fun t => { t with flags := { t.flags with active := false } }
  { e.modifySlot home (·.withoutTrack i) with tracksActive := e.tracksActive - 1, slotsActive }

/-- Stops a track and gives it back, unless a handle holds it. -/
def retireTrack (e : Engine σ) (i : Nat) : Engine σ :=
  let e := e.pauseTrack i
  let e := if (e.track i).isHandled then e else e.leavePool i
  e.modifyTrack i fun t => { t with flags := { t.flags with timed := false } }

/-! ## Voices -/

/-- Makes a voice idle. An owner that is turned off and has no other voice is
retired. -/
def freeVoice (e : Engine σ) (v : Nat) : Engine σ :=
  let voice := e.voice v
  if voice.active then
    let e := { e with voices := e.voices.vacate v }
    let e := e.modifyTrack voice.track fun t => { t with voicesActive := t.voicesActive - 1 }
    let owner := e.track voice.track
    if owner.voicesActive = 0 ∧ owner.flags.off then e.retireTrack voice.track else e
  else e

/-- Starts the mute release of every note of a track. -/
def releaseVoices (e : Engine σ) (i : Nat) : Engine σ :=
  if (e.track i).voicesActive = 0 then e
  else
    let owned := VoiceSet.ofList (e.voices.ownedBy i)
    let muteTime := Voice.muteReleaseTime e.muteRate
    let now := e.clock.ms
    { e with
      voices := e.voices.update (·.ownedBy i) fun v =>
        { v with releaseTime := muteTime }.released now
      toRelease := e.toRelease ||| owned
      toMute := e.toMute ||| owned }

/-- Marks a track as turned off, to be retired with its last voice. -/
def awaitVoices (e : Engine σ) (i : Nat) : Engine σ :=
  let t := e.track i
  let e := e.modifyTrack i fun t =>
    { t with flags := { t.flags with off := true, stopped := true } }
  e.modifySlot t.slot fun s =>
    if t.isStopped then { s with mode := if s.tracksPlaying = 0 then .stopped else s.mode }
    else s.stopped

/-- Ends a track. Its notes fade at the mute release, and while one of them
sounds the track stays in the pool, turned off. -/
def turnOff (e : Engine σ) (i : Nat) : Engine σ :=
  match (e.track i).driver with
  | .silent => e.retireTrack i
  | .voices =>
    let e := e.releaseVoices i
    if (e.track i).voicesActive = 0 then e.retireTrack i else e.awaitVoices i

/-- Ends every track of a slot. -/
def endSequence (e : Engine σ) (slot : Nat) : Engine σ := e.forTracksOf slot turnOff

end SoundSequencer.Engine
