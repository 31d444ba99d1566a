/-
SoundSequencer.Track.Assembler — writing a track's byte code.

A stream is a list of events: a delta time, then one command. A label
stands for the offset of a command, past its delta time, so that a jump
lands on the command and keeps the wait that its track has pending.

* `reserve` makes a label, `place` puts it before the next command,
  `label` does both.
* `emit` writes an event; `raw` writes bytes as they are.
* `build` is the track written so far. A label without a place points at
  the end of the stream, where no command is.
-/
import SoundSequencer.Track.Stream

namespace SoundSequencer

/-- A track that is being written. -/
structure Assembler where
  header : TrackHeader := {}
  /-- The place of each label, once it has one. -/
  labels : Array (Option Nat) := #[]
  /-- The labels that wait for the next command. -/
  waiting : List UInt16 := []
  bytes : Array UInt8 := #[]
  deriving Repr, DecidableEq, Inhabited

namespace Assembler

/-- The number of bytes written. -/
def offset (a : Assembler) : Nat := a.bytes.size

/-! ## Labels -/

/-- A new label, still without a place. -/
def reserve (a : Assembler) : UInt16 × Assembler :=
  (UInt16.ofNat a.labels.size, { a with labels := a.labels.push none })

/-- Puts `label` before the next command; one that was never made is
ignored. -/
def place (a : Assembler) (label : UInt16) : Assembler :=
  if label.toNat < a.labels.size then { a with waiting := label :: a.waiting } else a

/-- A new label before the next command. -/
def label (a : Assembler) : UInt16 × Assembler :=
  let (label, a) := a.reserve
  (label, a.place label)

/-! ## Events -/

/-- Writes `c` to run `delta` parts after the command before it. The labels
that wait get the place of the command. -/
def emit (a : Assembler) (delta : UInt32) (c : Command) : Assembler :=
  let bytes := a.bytes ++ Vlq.encode delta
  let labels := a.waiting.foldl
    (fun labels label => labels.setIfInBounds label.toNat (some bytes.size)) a.labels
  { a with labels, waiting := [], bytes := bytes ++ c.toBytes }

/-- Writes bytes that need not be an event. -/
def raw (a : Assembler) (bytes : List UInt8) : Assembler :=
  { a with bytes := a.bytes ++ bytes }

/-- The track as written so far. -/
def build (a : Assembler) : TrackStream where
  header := a.header
  labels := a.labels.map fun place => place.getD a.bytes.size
  bytes := a.bytes

end Assembler

end SoundSequencer
