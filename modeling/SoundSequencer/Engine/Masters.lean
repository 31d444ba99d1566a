/-
SoundSequencer.Engine.Masters — the controls that belong to no sequence.

* Master volumes of the sound classes, pan mode and mute release.
* Volumes of the chip and of the disc input, with their fades.
* Listeners for status marks, and the marks that they heard.
* Upload of samples into the chip's memory.
-/
import SoundSequencer.Engine.Interpreter

namespace SoundSequencer

/-- The master volumes. -/
inductive MasterKind where
  /-- That of sound effects. -/
  | effects
  /-- That of all other sound classes. -/
  | music
  deriving Repr, DecidableEq

namespace Engine

variable {σ : Type}

/-! ## Sound classes -/

/-- The master volume of a kind. -/
def volumeOf (e : Engine σ) : MasterKind → UInt8
  | .effects => e.effectVolume
  | .music => e.musicVolume

/-- Sets a master volume. A new volume of music reaches the notes of music
tracks at once; all others take theirs up with their next note. -/
def setVolumeOf [SoundChip σ] (e : Engine σ) (kind : MasterKind) (volume : UInt8) : Engine σ :=
  match kind with
  | .effects => { e with effectVolume := volume }
  | .music =>
    e.trackIds.foldl (fun e i =>
      let t := e.track i
      if t.isActive && t.soundClass == .music then e.driverCommand i (.volumeMod t.volume)
      else e) { e with musicVolume := volume }

/-- Sets how pans become levels, for the notes to come. -/
def setPanMode (e : Engine σ) (panMode : PanMode) : Engine σ := { e with panMode }

/-- Lets mutes take at most `ms` milliseconds. -/
def setMuteRelease (e : Engine σ) (ms : UInt32) : Engine σ :=
  { e with muteRate := Voice.muteReleaseRate ms }

/-! ## The chip -/

/-- Sets the chip's master volume, which ends its fade. -/
def setMasterVolume [SoundChip σ] (e : Engine σ) (volume : Int16) : Engine σ :=
  { e with
    masterFade := e.masterFade.cancel
    masterVolume := volume
    chip := SoundChip.setMasterVolume volume e.chip }

/-- Fades the chip's master volume to `dest` within `ms` milliseconds. -/
def startMasterFade (e : Engine σ) (ms : UInt32) (dest : Int16) : Engine σ :=
  { e with masterFade := Fade.start e.masterVolume ms dest }

/-- Sets the volume of the disc input, which ends its fade. -/
def setCdVolume [SoundChip σ] (e : Engine σ) (volume : Int16) : Engine σ :=
  { e with
    cdFade := e.cdFade.cancel
    cdVolume := volume
    chip := SoundChip.setCdVolume volume e.chip }

/-- Fades the volume of the disc input to `dest` within `ms` milliseconds. -/
def startCdFade (e : Engine σ) (ms : UInt32) (dest : Int16) : Engine σ :=
  { e with cdFade := Fade.start e.cdVolume ms dest }

/-- Copies `data` into the chip's memory from `address` on, and says how many
bytes were written. -/
def upload [SoundChip σ] (e : Engine σ) (address : UInt32) (data : List UInt8) :
    Nat × Engine σ :=
  let (written, chip) := SoundChip.writeTransfer data (SoundChip.startTransfer address e.chip)
  let (_, chip) := SoundChip.transferComplete true chip
  (written, { e with chip })

/-! ## Status marks -/

/-- Listens for marks of a kind, if there is a place left. -/
def listen (e : Engine σ) (kind : UInt8) : Except EngineError (Engine σ) :=
  match e.listeners.findIdx? Option.isNone with
  | none => .error (.callbacksFull e.listeners.size)
  | some place =>
    .ok { e with listeners := e.listeners.setIfInBounds place (some { kind }) }

/-- Ends all listening for marks of a kind. -/
def unlisten (e : Engine σ) (kind : UInt8) : Engine σ :=
  { e with listeners := e.listeners.map fun l => l.filter (·.kind != kind) }

/-- The last value that the first listener of a kind heard. -/
def heard? (e : Engine σ) (kind : UInt8) : Option Int16 :=
  ((e.listeners.toList.filterMap id).find? (·.kind == kind)).map (·.value)

/-- The marks heard since they were last taken. -/
def takeMarks (e : Engine σ) : Array Mark × Engine σ := (e.marks, { e with marks := #[] })

end Engine

end SoundSequencer
