/-
SoundSequencer.Opcode — the command vocabulary of a track stream.

* `Opcode` names the commands; `Opcode.all` lists them by number.
* `toByte` and `ofByte?` are the number in a stream and its reading.
* `byteLength` is what a command takes in a stream, opcode included. The
  driver's entry points have length zero: they never stand in a stream,
  and one that does is skipped without a step forward.
* `isDriver` and `isEngine` split the commands by who executes them.
-/

namespace SoundSequencer

/-- A command of a track stream. -/
inductive Opcode where
  | driverInit | driverExit | driverEntry1 | driverEntry2 | driverEntry3
  | trackOff | trackMute
  | patchChange | patchMod | pitchMod | zeroMod | modulationMod | volumeMod | panMod
  | pedalMod | reverbMod | chorusMod | noteOn | noteOff
  | statusMark | gateJump | iterJump | resetGates | resetIters | writeIter
  | seqTempo | seqGosub | seqJump | seqReturn | seqEnd
  | trackTempo | trackGosub | trackJump | trackReturn | trackEnd
  | nullEvent
  deriving Repr, DecidableEq, Inhabited

namespace Opcode

/-- Every command, in the order of its number. -/
def all : Array Opcode := #[
  driverInit, driverExit, driverEntry1, driverEntry2, driverEntry3,
  trackOff, trackMute,
  patchChange, patchMod, pitchMod, zeroMod, modulationMod, volumeMod, panMod,
  pedalMod, reverbMod, chorusMod, noteOn, noteOff,
  statusMark, gateJump, iterJump, resetGates, resetIters, writeIter,
  seqTempo, seqGosub, seqJump, seqReturn, seqEnd,
  trackTempo, trackGosub, trackJump, trackReturn, trackEnd,
  nullEvent]

/-- The number of a command, the first byte that it has in a stream. -/
def toByte (op : Opcode) : UInt8 := UInt8.ofNat op.ctorIdx

/-- The command with the number `byte`. -/
def ofByte? (byte : UInt8) : Option Opcode := all[byte.toNat]?

theorem ofByte?_toByte (op : Opcode) : ofByte? op.toByte = some op := by
  cases op <;> rfl

/-- The bytes that a command takes in a stream, its opcode included. -/
def byteLength : Opcode → Nat
  | driverInit | driverExit | driverEntry1 | driverEntry2 | driverEntry3
  | trackOff | trackMute => 0
  | seqReturn | seqEnd | trackReturn | trackEnd | nullEvent => 1
  | patchMod | zeroMod | modulationMod | volumeMod | panMod | pedalMod | reverbMod
  | chorusMod | noteOff | resetGates | resetIters => 2
  | patchChange | pitchMod | noteOn | writeIter | seqTempo | seqGosub | seqJump
  | trackTempo | trackGosub | trackJump => 3
  | statusMark => 4
  | gateJump | iterJump => 5

/-- The bytes of a command behind its opcode. -/
def argCount (op : Opcode) : Nat := op.byteLength - 1

/-- Whether the track's sound driver executes the command. -/
def isDriver (op : Opcode) : Bool :=
  patchChange.toByte ≤ op.toByte && op.toByte ≤ noteOff.toByte

/-- Whether the sequencer executes the command itself. -/
def isEngine (op : Opcode) : Bool :=
  statusMark.toByte ≤ op.toByte && op.toByte ≤ nullEvent.toByte

/-- The mnemonic of a command. -/
def mnemonic : Opcode → String
  | driverInit => "DriverInit"
  | driverExit => "DriverExit"
  | driverEntry1 => "DriverEntry1"
  | driverEntry2 => "DriverEntry2"
  | driverEntry3 => "DriverEntry3"
  | trackOff => "TrkOff"
  | trackMute => "TrkMute"
  | patchChange => "PatchChg"
  | patchMod => "PatchMod"
  | pitchMod => "PitchMod"
  | zeroMod => "ZeroMod"
  | modulationMod => "ModuMod"
  | volumeMod => "VolumeMod"
  | panMod => "PanMod"
  | pedalMod => "PedalMod"
  | reverbMod => "ReverbMod"
  | chorusMod => "ChorusMod"
  | noteOn => "NoteOn"
  | noteOff => "NoteOff"
  | statusMark => "StatusMark"
  | gateJump => "GateJump"
  | iterJump => "IterJump"
  | resetGates => "ResetGates"
  | resetIters => "ResetIters"
  | writeIter => "WriteIterBox"
  | seqTempo => "SeqTempo"
  | seqGosub => "SeqGosub"
  | seqJump => "SeqJump"
  | seqReturn => "SeqRet"
  | seqEnd => "SeqEnd"
  | trackTempo => "TrkTempo"
  | trackGosub => "TrkGosub"
  | trackJump => "TrkJump"
  | trackReturn => "TrkRet"
  | trackEnd => "TrkEnd"
  | nullEvent => "NullEvent"

end Opcode

end SoundSequencer
