/-
SoundSequencer.Command — one command of a track stream: an opcode with
its argument bytes.

* `Command` holds exactly the arguments that its opcode calls for.
* `Command.make` builds one from any bytes: missing arguments are zero,
  further ones are dropped.
* `Command.decodeAt` reads one at an offset of a stream; `toBytes` is its
  written form.
* `byte`, `word` and `signedWord` read arguments by their place in the
  written form; a place past the command's length reads as zero.
* One constructor per command that a stream can hold, with its arguments
  in the domain's types (`Command.noteOn`, `Command.trackJump`, …).
-/
import SoundSequencer.Opcode

namespace SoundSequencer

/-- The low and the high byte of a word. -/
def wordBytes (word : UInt16) : List UInt8 :=
  [word.toUInt8, (word >>> 8).toUInt8]

/-- An opcode with the arguments that it calls for. -/
structure Command where
  op : Opcode
  args : List UInt8
  args_length : args.length = op.argCount
  deriving DecidableEq

namespace Command

/-- The command `op` with the first of `args` as its arguments, and zeros
where they run out. -/
def make (op : Opcode) (args : List UInt8) : Command where
  op := op
  args := (args ++ List.replicate op.argCount 0).take op.argCount
  args_length := by simp

/-! ## The written form -/

/-- The bytes of the command in a stream. -/
def toBytes (c : Command) : List UInt8 := c.op.toByte :: c.args

/-- The command whose opcode stands at `offset` of `stream`, if it is one
and all its arguments are there. -/
def decodeAt (stream : Array UInt8) (offset : Nat) : Option Command := do
  let op ← Opcode.ofByte? (← stream[offset]?)
  let args := (stream.extract (offset + 1) (offset + 1 + op.argCount)).toList
  if h : args.length = op.argCount then some ⟨op, args, h⟩ else none

/-- The length that the opcode declares. -/
def length (c : Command) : Nat := c.op.byteLength

/-- Whether the opcode declares no length: an entry point of the driver. -/
def isEmpty (c : Command) : Bool := c.length == 0

theorem length_toBytes (c : Command) : c.toBytes.length = c.op.argCount + 1 := by
  simp [toBytes, c.args_length]

/-- A command that is written in a stream is read back at its place. -/
theorem decodeAt_append (before after : List UInt8) (c : Command) :
    decodeAt (before ++ c.toBytes ++ after).toArray before.length = some c := by
  obtain ⟨op, args, h⟩ := c
  have htake : List.take op.argCount (args ++ after) = args := by
    rw [← h]; exact List.take_left
  have hargs :
      (before ++ op.toByte :: (args ++ after)).drop (before.length + 1) = args ++ after := by
    simp [List.drop_append]
  simp [decodeAt, toBytes, Opcode.ofByte?_toByte, hargs, htake, h]

/-! ## Arguments -/

/-- The byte at place `i` of the written form, zero past the declared
length. -/
def byte (c : Command) (i : Nat) : UInt8 :=
  if i < c.length then c.toBytes.getD i 0 else 0

/-- The unsigned word at place `i`, low byte first. -/
def word (c : Command) (i : Nat) : UInt16 :=
  (c.byte i).toUInt16 + 256 * (c.byte (i + 1)).toUInt16

/-- The signed word at place `i`, low byte first. -/
def signedWord (c : Command) (i : Nat) : Int16 := (c.word i).toInt16

/-! ## Commands of the sound driver -/

/-- Plays the track's next notes with another patch. -/
def patchChange (patch : UInt16) : Command := make .patchChange (wordBytes patch)

/-- Bends the track's notes by a number of steps, upwards if it is positive. -/
def pitchMod (pitch : Int16) : Command := make .pitchMod (wordBytes pitch.toUInt16)

/-- Sets the volume of the track. -/
def volumeMod (volume : UInt8) : Command := make .volumeMod [volume]

/-- Sets the pan of the track. -/
def panMod (pan : UInt8) : Command := make .panMod [pan]

/-- Asks for a depth of reverb. -/
def reverbMod (depth : UInt8) : Command := make .reverbMod [depth]

/-- Strikes a key. -/
def noteOn (note velocity : UInt8) : Command := make .noteOn [note, velocity]

/-- Releases a key. -/
def noteOff (note : UInt8) : Command := make .noteOff [note]

/-! ## Commands of the sequencer -/

/-- Tells the listener of a kind a value. -/
def statusMark (kind : UInt8) (value : Int16) : Command :=
  make .statusMark (kind :: wordBytes value.toUInt16)

/-- Jumps to a label while a gate is open. A gate that is unset takes `first`. -/
def gateJump (gate first : UInt8) (label : UInt16) : Command :=
  make .gateJump (gate :: first :: wordBytes label)

/-- Jumps to a label and counts down a counter, until that is zero. A counter that
is unset takes `first`. -/
def iterJump (counter first : UInt8) (label : UInt16) : Command :=
  make .iterJump (counter :: first :: wordBytes label)

/-- Makes a gate unset, or every gate. -/
def resetGates (gate : UInt8) : Command := make .resetGates [gate]

/-- Makes a counter unset, or every counter. -/
def resetIters (counter : UInt8) : Command := make .resetIters [counter]

/-- Writes a counter. -/
def writeIter (counter value : UInt8) : Command := make .writeIter [counter, value]

/-- Sets the tempo of every track of the sequence, in quarters a minute. -/
def seqTempo (qpm : UInt16) : Command := make .seqTempo (wordBytes qpm)

/-- Sends every track of the sequence to a label, to return. -/
def seqGosub (label : UInt16) : Command := make .seqGosub (wordBytes label)

/-- Sends every track of the sequence to a label. -/
def seqJump (label : UInt16) : Command := make .seqJump (wordBytes label)

/-- Sends every track of the sequence back. -/
def seqReturn : Command := make .seqReturn []

/-- Ends every track of the sequence. -/
def seqEnd : Command := make .seqEnd []

/-- Sets the tempo of the track, in quarters a minute. -/
def trackTempo (qpm : UInt16) : Command := make .trackTempo (wordBytes qpm)

/-- Sends the track to a label, to return. -/
def trackGosub (label : UInt16) : Command := make .trackGosub (wordBytes label)

/-- Sends the track to a label, where its wait is over. -/
def trackJump (label : UInt16) : Command := make .trackJump (wordBytes label)

/-- Sends the track back. -/
def trackReturn : Command := make .trackReturn []

/-- Ends the track, or sends a looped one to its start. -/
def trackEnd : Command := make .trackEnd []

/-- Does nothing. -/
def nullEvent : Command := make .nullEvent []

end Command

end SoundSequencer
