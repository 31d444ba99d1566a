/-
SoundSequencer.Levels — the ranges of the public level controls.

* `PanMode` says how the pans of track and patch become two channels.
* The bounds of pan, master volumes and reverb depth.
-/

namespace SoundSequencer

/-- How the pans of a track and of its patch become a left and a right
level. -/
inductive PanMode where
  /-- Both channels have the same level. -/
  | off
  | on
  /-- Left and right change places. -/
  | reversed
  deriving Repr, DecidableEq, Inhabited

/-- The pan of a sound that comes from the left alone. -/
def panLeft : UInt8 := 0

/-- The pan of a sound in the middle. -/
def panCenter : UInt8 := 64

/-- The pan of a sound that comes from the right alone. -/
def panRight : UInt8 := 127

/-- The largest master volume of a sound class. -/
def maxMasterVolume : UInt8 := 127

/-- The largest reverb depth. -/
def maxReverbDepth : UInt8 := 127

/-- The largest volume of the disc input. -/
def maxCdVolume : Int16 := 0x3CFF

/-- The largest master volume of the sound chip. -/
def maxChipVolume : Int16 := 0x3FFF

end SoundSequencer
