/-
SoundSequencer.Engine.Notes — from notes to voices.

* `levels` and `pushLevels` set the levels of sounding voices, `bendPitch`
  their note registers.
* `playNote` finds a voice for a note and starts it; `noteOn` plays what a
  key means to a track's patch or to the drum map; `noteOff` releases it.
* `serviceVoices` is the upkeep at the end of a tick: it frees voices whose
  release is over, keys off those released in the tick, and frees those
  that the chip reports silent.
* `SavedNote` is a note put aside by a muting pause.
-/
import SoundSequencer.Engine.Teardown

namespace SoundSequencer

/-- A note put aside, to be struck again. -/
structure SavedNote where
  sequence : Nat
  track : Nat
  note : UInt8
  velocity : UInt8
  patchVoice : UInt16
  sample : UInt16
  deriving Repr, DecidableEq

namespace Engine

variable {σ : Type}

/-! ## Levels and pitch -/

/-- The master volume that a sound class follows. -/
def classVolume (e : Engine σ) (c : SoundClass) : UInt8 :=
  if c.isEffect then e.effectVolume else e.musicVolume

/-- The left and the right level of a note of track `i`. -/
def levels (e : Engine σ) (i : Nat) (patch : PatchVoice) (velocity : UInt8) : Int16 × Int16 :=
  let t := e.track i
  Voice.stereoLevels
    (Voice.voiceVolume velocity patch.volume t.volume (e.classVolume t.soundClass))
    (Voice.voicePan t.pan patch.pan e.panMode) e.panMode

/-- Writes registers of every voice of track `i`, as its patch voice and its
note want them. -/
def writeOwned [SoundChip σ] (e : Engine σ) (i : Nat) (mask : RegisterMask)
    (registers : Voice → PatchVoice → VoiceRegisters) : Engine σ :=
  if (e.track i).voicesActive = 0 then e
  else
    { e with
      chip := (e.voices.ownedBy i).foldl (fun chip v =>
        match e.patchVoice? v with
        | none => chip
        | some patch =>
          SoundChip.writeRegisters (VoiceSet.single v) mask (registers (e.voice v) patch) chip)
        e.chip }

/-- Sends the levels of every voice of a track to the chip again. -/
def pushLevels [SoundChip σ] (e : Engine σ) (i : Nat) : Engine σ :=
  e.writeOwned i .levels fun voice patch =>
    let (left, right) := e.levels i patch voice.velocity
    { left, right }

/-- Bends a track to `pitch`, with all its voices. -/
def bendPitch [SoundChip σ] (e : Engine σ) (i : Nat) (pitch : Int16) : Engine σ :=
  if (e.track i).pitch = pitch then e
  else
    (e.modifyTrack i fun t => { t with pitch }).writeOwned i { note := true } fun voice patch =>
      { note := Voice.voiceNote voice.note pitch patch }

/-- Sets the volume of a track, with all its voices. -/
def setTrackVolume [SoundChip σ] (e : Engine σ) (i : Nat) (volume : UInt8) : Engine σ :=
  (e.modifyTrack i fun t => { t with volume }).pushLevels i

/-- Sets the pan of a track, with all its voices unless pans are off. -/
def setTrackPan [SoundChip σ] (e : Engine σ) (i : Nat) (pan : UInt8) : Engine σ :=
  let e := e.modifyTrack i fun t => { t with pan }
  if e.panMode = .off then e else e.pushLevels i

/-! ## Starting notes -/

/-- The registers that start the note of voice `v`. -/
def startRegisters (e : Engine σ) (v : Nat) (patch : PatchVoice) : VoiceRegisters :=
  let voice := e.voice v
  let (left, right) := e.levels voice.track patch voice.velocity
  { left, right
    note := Voice.voiceNote voice.note (e.track voice.track).pitch patch
    sampleNote := Voice.sampleNote patch
    address := (e.module.patches.sample? voice.sample).elim 0 (·.address)
    adsr1 := patch.adsr1
    adsr2 := patch.adsr2 }

/-- Sends voice `v` to the reverb unit or takes it away, as its owner wants. -/
def routeReverb [SoundChip σ] (e : Engine σ) (v : Nat) : Engine σ :=
  let wanted := (e.track (e.voice v).track).reverb != 0
  if wanted = e.reverbVoices.contains v then e
  else
    { e with
      chip := SoundChip.setReverb wanted (VoiceSet.single v) e.chip
      reverbVoices := if wanted then e.reverbVoices.insert v else e.reverbVoices.erase v }

/-- Programs voice `v` for the note that it was just given, and keys it on. -/
def keyOn [SoundChip σ] (e : Engine σ) (v : Nat) (patch : PatchVoice) : Engine σ :=
  let e := e.routeReverb v
  { e with
    chip := SoundChip.keyOnWith (VoiceSet.single v) .start (e.startRegisters v patch) e.chip }

/-- Starts a note of track `i` on voice `v`. -/
def startVoice [SoundChip σ] (e : Engine σ) (v i : Nat) (patchVoice : UInt16)
    (note velocity : UInt8) : Engine σ :=
  match e.module.patches.voice? patchVoice.toNat with
  | none => e
  | some patch =>
    let t := e.track i
    let e := { e with
      voices := e.voices.occupy v {
        track := i, note, velocity, soundClass := t.soundClass, priority := t.priority,
        patchVoice, sample := patch.sample, onOff := e.clock.ms,
        releaseTime := Voice.envelopeRelease patch.adsr2 } }
    (e.modifyTrack i fun t => { t with voicesActive := t.voicesActive + 1 }).keyOn v patch

/-- Plays a note of track `i` if the track may have another voice and there is
one to be had. -/
def playNote [SoundChip σ] (e : Engine σ) (i : Nat) (patchVoice : UInt16)
    (note velocity : UInt8) : Engine σ :=
  let t := e.track i
  if t.maxVoices ≤ t.voicesActive then e
  else
    match e.voices.choose t.priority with
    | none => e
    | some (.free v) => e.startVoice v i patchVoice note velocity
    | some (.steal v) => (e.freeVoice v).startVoice v i patchVoice note velocity

/-- The patch and the note that a key means to a track: what the drum map says
for drums, the track's patch and the key itself for all others. -/
def keyMeaning? (e : Engine σ) (i : Nat) (key : UInt8) : Option (UInt16 × UInt8) :=
  let t := e.track i
  if t.soundClass.isDrums then (e.module.patches.drum? key).map fun d => (d.patch, d.note)
  else some (t.patch, key)

/-- The patch voices of `patch` that sound for `note`: those in whose range it
is and whose sample is in memory. -/
def soundingVoices (bank : PatchBank) (patch : UInt16) (note : UInt8) : List Nat :=
  (bank.voiceIndices patch).filter fun index =>
    match bank.voice? index with
    | none => false
    | some p => (bank.sample? p.sample).any Sample.isLoaded && p.answers note

/-- Plays a key on a track. -/
def noteOn [SoundChip σ] (e : Engine σ) (i : Nat) (key velocity : UInt8) : Engine σ :=
  match e.keyMeaning? i key with
  | none => e
  | some (patch, note) =>
    (soundingVoices e.module.patches patch note).foldl
      (fun e index => e.playNote i (UInt16.ofNat index) note velocity) e

/-! ## Ending notes -/

/-- Releases every note `note` of a track that still sounds. -/
def noteOff (e : Engine σ) (i : Nat) (note : UInt8) : Engine σ :=
  let ends (v : Voice) := v.ownedBy i && !v.release && v.note == note
  let now := e.clock.ms
  { e with
    toRelease := e.toRelease ||| VoiceSet.ofList (e.voices.select ends)
    voices := e.voices.update ends (·.released now) }

/-- The notes of a music track that are held, to be put aside. -/
def heldMusic (e : Engine σ) (i : Nat) : List SavedNote :=
  let t := e.track i
  if t.driver = .silent ∨ t.voicesActive = 0 ∨ t.soundClass ≠ .music then []
  else
    (e.voices.select fun v => v.ownedBy i && !v.release).map fun v =>
      let voice := e.voice v
      { sequence := (e.slot t.slot).sequence, track := i, note := voice.note,
        velocity := voice.velocity, patchVoice := voice.patchVoice, sample := voice.sample }

/-- Mutes the notes of a track, if it has voices at all. -/
def muteTrack (e : Engine σ) (i : Nat) : Engine σ :=
  match (e.track i).driver with
  | .silent => e
  | .voices => e.releaseVoices i

/-! ## Upkeep -/

/-- Frees every voice whose release is over. -/
def freeExpired (e : Engine σ) : Engine σ :=
  let now := e.clock.ms
  (List.range e.voices.limit).foldl
    (fun e v => if (e.voice v).expired now then e.freeVoice v else e) e

/-- Keys off the voices that were released since the last tick, those that were
muted at the mute release. -/
def flushReleases [SoundChip σ] (e : Engine σ) : Engine σ :=
  let keyOff := e.toRelease ||| e.toMute
  let chip :=
    if e.toMute = 0 then e.chip
    else
      SoundChip.writeRegisters e.toMute .release
        { releaseMode := .exponential, releaseRate := e.muteRate } e.chip
  { e with
    chip := if keyOff = 0 then chip else SoundChip.setKey false keyOff chip
    toRelease := 0
    toMute := 0 }

/-- Frees every voice that the chip reports silent. -/
def freeSilent [SoundChip σ] (e : Engine σ) : Engine σ :=
  let (status, chip) := SoundChip.pollKeys e.chip
  (List.range e.voices.limit).foldl
    (fun e v => if status v = .off && (e.voice v).active then e.freeVoice v else e)
    { e with chip }

/-- The upkeep of the voices at the end of a tick. -/
def serviceVoices [SoundChip σ] (e : Engine σ) : Engine σ :=
  e.freeExpired.flushReleases.freeSilent

end Engine

end SoundSequencer
