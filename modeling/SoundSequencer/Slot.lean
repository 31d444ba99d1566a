/-
SoundSequencer.Slot — a sequence while it plays.

* `Slot` holds the sequence's gates, loop counters and tracks, and how many
  of the tracks are active and playing.
* `resetGates` and `resetIters` make gates and counters unset again.
* `started` and `stopped` count playing tracks; `dropTrack` takes a track
  out.
-/

namespace SoundSequencer

/-- What a gate or a counter holds before it is first written. -/
def unset : UInt8 := 255

/-- The index that means every gate or every counter. -/
def everyIndex : UInt8 := 255

/-- The most tracks that a sequence may have. -/
def maxTracksPerSequence : Nat := 256

/-- Whether any track of a sequence plays. -/
inductive PlayMode where
  | stopped | playing
  deriving Repr, DecidableEq, Inhabited

/-- A place for a sequence that plays. -/
structure Slot where
  active : Bool := false
  /-- Whether a handle holds the sequence. -/
  handled : Bool := false
  /-- The sequence in the module. -/
  sequence : Nat := 0
  /-- The tag that the caller gave. -/
  tag : UInt32 := 0
  mode : PlayMode := .stopped
  tracksActive : Nat := 0
  tracksPlaying : Nat := 0
  volume : UInt8 := 0
  pan : UInt8 := 0
  gates : Array UInt8 := #[]
  iters : Array UInt8 := #[]
  /-- The pool entry of each of the sequence's tracks. -/
  tracks : Array (Option Nat) := #[]
  deriving Repr, DecidableEq, Inhabited

/-- The volume of a sequence as it starts. -/
def sequenceVolume : UInt8 := 128

/-- The pan of a sequence as it starts. -/
def sequencePan : UInt8 := 64

namespace Slot

/-- An empty slot of the given sizes. -/
def ofSizes (gates iters tracks : Nat) : Slot where
  gates := Array.replicate gates unset
  iters := Array.replicate iters unset
  tracks := Array.replicate tracks none

/-! ## Tracks -/

/-- The pool entries of the slot's tracks, in the order of the sequence. -/
def trackIds (s : Slot) : List Nat := s.tracks.toList.filterMap id

/-- The tracks that a command for the sequence reaches. -/
def trackList (s : Slot) : List Nat := s.trackIds.take maxTracksPerSequence

/-- The slot without `track` among its tracks. -/
def dropTrack (s : Slot) (track : Nat) : Slot :=
  { s with tracks := s.tracks.map fun entry => if entry = some track then none else entry }

/-- Whether the slot is active and the next track to leave is its last. -/
def endsNext (s : Slot) : Bool := s.active && s.tracksActive ≤ 1

/-- The slot after `track` has left the pool. -/
def withoutTrack (s : Slot) (track : Nat) : Slot :=
  { s.dropTrack track with
    tracksActive := s.tracksActive - 1
    active := s.active && !s.endsNext }

/-- The slot cleared for a sequence that is about to start. -/
def cleared (s : Slot) : Slot :=
  { s with
    tracks := s.tracks.map fun _ => none
    tracksActive := 0
    tracksPlaying := 0
    gates := s.gates.map fun _ => unset
    iters := s.iters.map fun _ => unset }

/-- The slot with a playing track more. -/
def started (s : Slot) : Slot :=
  { s with tracksPlaying := s.tracksPlaying + 1, mode := .playing }

/-- The slot with a playing track less. -/
def stopped (s : Slot) : Slot :=
  { s with
    tracksPlaying := s.tracksPlaying - 1
    mode := if s.tracksPlaying - 1 = 0 then .stopped else s.mode }

/-! ## Gates and counters -/

/-- The boxes with the one at `index`, or all of them, unset. -/
def resetBoxes (boxes : Array UInt8) (index : UInt8) : Array UInt8 :=
  if index = everyIndex then boxes.map fun _ => unset
  else boxes.setIfInBounds index.toNat unset

/-- Makes a gate unset, or every gate. -/
def resetGates (s : Slot) (index : UInt8) : Slot := { s with gates := resetBoxes s.gates index }

/-- Makes a counter unset, or every counter. -/
def resetIters (s : Slot) (index : UInt8) : Slot := { s with iters := resetBoxes s.iters index }

/-- What a gate jump does with its gate: the slot after it and whether the jump
is open. A gate that is unset takes `first`; a gate at zero is shut, and one
that does not exist is too. -/
def passGate (s : Slot) (gate first : UInt8) : Slot × Bool :=
  match s.gates[gate.toNat]? with
  | none => (s, false)
  | some value =>
    if value = 0 then (s, false)
    else if value = unset then
      ({ s with gates := s.gates.setIfInBounds gate.toNat first }, true)
    else (s, true)

/-- What a counting jump does with its counter: the slot after it and whether
the jump is taken. A counter that is unset takes `first`, another is counted
down; at zero the jump is not taken, nor at a counter that does not exist. -/
def countDown (s : Slot) (counter first : UInt8) : Slot × Bool :=
  match s.iters[counter.toNat]? with
  | none => (s, false)
  | some value =>
    if value = 0 then (s, false)
    else
      let next := if value = unset then first else value - 1
      ({ s with iters := s.iters.setIfInBounds counter.toNat next }, true)

/-- The slot with counter `counter` at `value`. -/
def writeIter (s : Slot) (counter value : UInt8) : Slot :=
  { s with iters := s.iters.setIfInBounds counter.toNat value }

end Slot

end SoundSequencer
