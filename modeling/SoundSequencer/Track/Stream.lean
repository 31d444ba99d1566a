/-
SoundSequencer.Track.Stream — what a sound module says about a track.

* `Driver` and `SoundClass` say who plays a track and what kind of sound
  it makes.
* `TrackHeader` holds the settings that a track starts with.
* `TrackStream` is a track as stored: header, label table and byte code.
  `label?` looks up where a label points; `event?` reads a delta time.
-/
import SoundSequencer.Command
import SoundSequencer.Vlq

namespace SoundSequencer

/-- Who plays the notes of a track. -/
inductive Driver where
  /-- Nobody: the track runs without voices. -/
  | silent
  /-- The hardware voices of the sound chip. -/
  | voices
  deriving Repr, DecidableEq, Inhabited

/-- What kind of sound a track makes. -/
inductive SoundClass where
  | effect | music | drums | effectDrums
  deriving Repr, DecidableEq

namespace SoundClass

instance : Inhabited SoundClass := ⟨music⟩

/-- Every class, in the order of its number. -/
def all : List SoundClass := [effect, music, drums, effectDrums]

/-- The number of a class. -/
def toNat (c : SoundClass) : Nat := c.ctorIdx

/-- Whether the class follows the master volume of sound effects; all others
follow that of music. -/
def isEffect (c : SoundClass) : Bool := c == effect

/-- Whether the class plays its keys through the drum map. -/
def isDrums (c : SoundClass) : Bool := c == drums

end SoundClass

/-- The settings that a track starts with. -/
structure TrackHeader where
  driver : Driver := .voices
  soundClass : SoundClass := .music
  priority : UInt8 := 128
  maxVoices : UInt8 := 8
  /-- The number of nested gosubs that the track calls for. -/
  returnDepth : UInt8 := 4
  /-- A bit for every mute group that the track belongs to. -/
  muteGroups : UInt32 := 0
  patch : UInt16 := 0
  pitch : Int16 := 0
  volume : UInt8 := 127
  pan : UInt8 := 64
  reverb : UInt8 := 0
  /-- Parts per quarter note. -/
  ppq : UInt16 := 120
  /-- Quarter notes per minute. -/
  qpm : UInt16 := 120
  deriving Repr, DecidableEq, Inhabited

/-- A track as stored in a module. -/
structure TrackStream where
  header : TrackHeader := {}
  /-- The offset in `bytes` that each label stands for. -/
  labels : Array Nat := #[]
  /-- Delta times and commands in turn. -/
  bytes : Array UInt8 := #[]
  deriving Repr, DecidableEq, Inhabited

namespace TrackStream

/-- Where label `index` points, if there is such a label and it points into
the byte code. -/
def label? (s : TrackStream) (index : Int) : Option Nat :=
  match index with
  | .ofNat i => s.labels[i]?.filter (· < s.bytes.size)
  | .negSucc _ => none

/-- The delta time at `offset`, with the offset of the command behind it. -/
def event? (s : TrackStream) (offset : Nat) : Option (UInt32 × Nat) :=
  (Vlq.decodeAt s.bytes offset).map fun (delta, consumed) => (delta, offset + consumed)

end TrackStream

end SoundSequencer
