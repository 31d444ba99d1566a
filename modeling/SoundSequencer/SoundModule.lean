/-
SoundSequencer.SoundModule — everything that an engine reads and never
writes: sequences of tracks, instrument tables and the sizes of the
engine's pools.
-/
import SoundSequencer.Track.Stream
import SoundSequencer.PatchBank

namespace SoundSequencer

/-- The sizes of an engine's pools. -/
structure Limits where
  sequences : UInt8 := 8
  tracks : UInt8 := 32
  /-- Gates of each sequence slot. -/
  gates : UInt8 := 16
  /-- Loop counters of each sequence slot. -/
  iters : UInt8 := 16
  callbacks : UInt8 := 4
  voices : UInt8 := 24
  deriving Repr, DecidableEq, Inhabited

/-- The sound data of an application. -/
structure SoundModule where
  limits : Limits := {}
  /-- The tracks of every sequence. -/
  sequences : Array (Array TrackStream) := #[]
  patches : PatchBank := {}
  deriving Repr, DecidableEq, Inhabited

namespace SoundModule

/-- The number of tracks of the widest sequence. -/
def widestSequence (m : SoundModule) : Nat :=
  m.sequences.foldl (fun widest tracks => max widest tracks.size) 0

/-- Track `track` of sequence `sequence`. -/
def track? (m : SoundModule) (sequence track : Nat) : Option TrackStream := do
  (← m.sequences[sequence]?)[track]?

end SoundModule

end SoundSequencer
