/-
SoundSequencer.Engine.Interpreter — running the byte code of tracks.

At every tick a running track's time advances, and the track executes
commands as long as the time covers the wait for the next one.

* `driverCommand` executes a command of the sound driver, `command` one of
  the sequencer; `Flow` says whether the track then goes on behind it.
* `stepTrack` executes the command at a track's place. A stream that cannot
  be read ends the whole sequence.
* `runTrack` is one tick of a track, `runTracks` one of all. A track that
  never waits is turned off after `maxCommandsPerTick` commands.
-/
import SoundSequencer.Engine.Notes

namespace SoundSequencer

/-- The commands that a track may execute in one tick. -/
def maxCommandsPerTick : Nat := 4096

/-- The parts that a looped track must have played before its end leads back
to its start. -/
def minLoopParts : UInt32 := 16

/-- How a track goes on after a command of the sequencer. -/
inductive Flow where
  /-- Behind the command. -/
  | advance
  /-- Where the command put it. -/
  | hold
  deriving Repr, DecidableEq

/-- What a command of the driver does to a track without voices. Only the low
byte of a patch is kept. -/
def Track.silentCommand (t : Track) (c : Command) : Track :=
  match c.op with
  | .patchChange => { t with patch := (c.byte 1).toUInt16 }
  | .pitchMod => { t with pitch := c.signedWord 1 }
  | .volumeMod => { t with volume := c.byte 1 }
  | .panMod => { t with pan := c.byte 1 }
  | _ => t

namespace Engine

variable {σ : Type}

/-! ## The place of a track -/

/-- Moves a track behind the delta time at `offset`, if there is one. -/
def readDelta? (e : Engine σ) (i offset : Nat) : Option (Engine σ) := do
  let (delta, pc) ← (← e.stream? i).event? offset
  return e.modifyTrack i fun t => { t with pc, delta }

/-- Moves a track behind the delta time at `offset`. Where the stream ends, so
does the sequence of a track that runs. -/
def nextEvent (e : Engine σ) (i offset : Nat) : Engine σ :=
  match e.readDelta? i offset with
  | some e => e
  | none => if (e.track i).isRunning then e.endSequence (e.track i).slot else e

/-- Where a label of track `i` points. -/
def label? (e : Engine σ) (i : Nat) (label : Int16) : Option Nat := do
  (← e.stream? i).label? label.toInt

/-! ## Control flow of one track -/

/-- Moves a track to a label, with its wait as it is. -/
def jump (e : Engine σ) (i : Nat) (label : Int16) : Engine σ × Flow :=
  match e.label? i label with
  | none => (e, .advance)
  | some pc => (e.modifyTrack i fun t => { t with pc }, .hold)

/-- Moves a track to a label and notes where to come back to: behind the
command that the track is at. -/
def gosub (e : Engine σ) (i : Nat) (label : Int16) : Engine σ × Flow :=
  match e.label? i label with
  | none => (e, .advance)
  | some pc =>
    let t := e.track i
    match t.pushReturn? (t.pc + Opcode.trackGosub.byteLength) with
    | none => (e, .advance)
    | some t => (e.modifyTrack i fun _ => { t with pc }, .hold)

/-- Takes a track back to the event behind its last gosub. -/
def goBack (e : Engine σ) (i : Nat) : Engine σ × Flow :=
  match (e.track i).popReturn? with
  | none => (e, .advance)
  | some (address, t) =>
    let e := e.modifyTrack i fun _ => t
    match e.readDelta? i address with
    | none => (e, .advance)
    | some e => (e, .hold)

/-- Where a track goes on after it was turned off: a handle keeps it in place. -/
def flowWhenOff (e : Engine σ) (i : Nat) : Flow :=
  if (e.track i).isHandled then .hold else .advance

/-- The end of a track: a looped one goes back to its start, any other is
turned off. -/
def endTrack (e : Engine σ) (i : Nat) : Engine σ × Flow :=
  let t := e.track i
  let rewound := if t.flags.looped && minLoopParts ≤ t.total then e.readDelta? i 0 else none
  match rewound with
  | some e => (e, .hold)
  | none => let e := e.turnOff i; (e, e.flowWhenOff i)

/-! ## Control flow of a sequence -/

/-- Moves every track of the slot of track `i`. The track itself goes on as its
own move says. -/
def forSequence (e : Engine σ) (i : Nat) (move : Engine σ → Nat → Engine σ × Flow) :
    Engine σ × Flow :=
  (e.slot (e.track i).slot).trackList.foldl (fun (e, flow) other =>
    let (e, moved) := move e other
    (e, if other = i then moved else flow)) (e, .advance)

/-- Tells the first listener of a kind about a status mark. -/
def hearMark (e : Engine σ) (kind : UInt8) (value : Int16) : Engine σ :=
  match e.listeners.findIdx? (·.any (·.kind == kind)) with
  | none => e
  | some place =>
    { e with
      listeners := e.listeners.setIfInBounds place (some { kind, value })
      marks := e.marks.push { kind, value } }

/-- Executes a command of the sequencer for track `i`. -/
def command (e : Engine σ) (i : Nat) (c : Command) : Engine σ × Flow :=
  let home := (e.track i).slot
  match c.op with
  | .statusMark => (e.hearMark (c.byte 1) (c.signedWord 2), .advance)
  | .gateJump =>
    let (slot, isOpen) := (e.slot home).passGate (c.byte 1) (c.byte 2)
    if isOpen then (e.modifySlot home fun _ => slot).jump i (c.signedWord 3) else (e, .advance)
  | .iterJump =>
    let (slot, taken) := (e.slot home).countDown (c.byte 1) (c.byte 2)
    if taken then (e.modifySlot home fun _ => slot).jump i (c.signedWord 3) else (e, .advance)
  | .resetGates => (e.modifySlot home (·.resetGates (c.byte 1)), .advance)
  | .resetIters => (e.modifySlot home (·.resetIters (c.byte 1)), .advance)
  | .writeIter => (e.modifySlot home (·.writeIter (c.byte 1) (c.byte 2)), .advance)
  | .seqTempo =>
    (e.forTracksOf home fun e other => e.modifyTrack other (·.setTempo (c.word 1)), .advance)
  | .seqGosub =>
    if (e.label? i (c.signedWord 1)).isNone then (e, .advance)
    else e.forSequence i fun e other => e.gosub other (c.signedWord 1)
  | .seqJump =>
    if (e.label? i (c.signedWord 1)).isNone then (e, .advance)
    else e.forSequence i fun e other => e.jump other (c.signedWord 1)
  | .seqReturn => e.forSequence i goBack
  | .seqEnd => let e := e.endSequence home; (e, e.flowWhenOff i)
  | .trackTempo => (e.modifyTrack i (·.setTempo (c.word 1)), .advance)
  | .trackGosub => e.gosub i (c.signedWord 1)
  | .trackJump =>
    match e.jump i (c.signedWord 1) with
    | (e, .hold) => (e.modifyTrack i fun t => { t with delta := 0 }, .hold)
    | (e, .advance) => (e, .advance)
  | .trackReturn => e.goBack i
  | .trackEnd => e.endTrack i
  | _ => (e, .advance)

/-! ## Commands of the driver -/

/-- Executes a command of the driver for a track that has voices. -/
def voiceCommand [SoundChip σ] (e : Engine σ) (i : Nat) (c : Command) : Engine σ :=
  match c.op with
  | .patchChange => e.modifyTrack i fun t => { t with patch := c.word 1 }
  | .pitchMod => e.bendPitch i (c.signedWord 1)
  | .volumeMod => e.setTrackVolume i (c.byte 1)
  | .panMod => e.setTrackPan i (c.byte 1)
  | .noteOn => e.noteOn i (c.byte 1) (c.byte 2)
  | .noteOff => e.noteOff i (c.byte 1)
  | _ => e

/-- Executes a command of the driver. -/
def driverCommand [SoundChip σ] (e : Engine σ) (i : Nat) (c : Command) : Engine σ :=
  match (e.track i).driver with
  | .silent => e.modifyTrack i (·.silentCommand c)
  | .voices => e.voiceCommand i c

/-! ## Running -/

/-- Executes the command at the place of track `i`. -/
def stepTrack [SoundChip σ] (e : Engine σ) (i : Nat) : Engine σ :=
  let t := e.track i
  match (e.stream? i).bind fun s => Command.decodeAt s.bytes t.pc with
  | none => e.endSequence t.slot
  | some c =>
    if c.op.isDriver then (e.driverCommand i c).nextEvent i (t.pc + c.length)
    else if c.op.isEngine then
      let (e, flow) := e.command i c
      if flow = .advance && (e.track i).isActive then e.nextEvent i (t.pc + c.length) else e
    else e.endSequence t.slot

/-- Whether the time of track `i` covers the wait for its next command. -/
def isDue (e : Engine σ) (i : Nat) : Bool :=
  let t := e.track i
  t.isRunning && t.delta ≤ t.acc

/-- Takes the wait for the next command off the time of track `i`. -/
def payDelta (e : Engine σ) (i : Nat) : Engine σ :=
  e.modifyTrack i fun t => { t with acc := t.acc - t.delta }

/-- Executes what is due on track `i`, at most `budget` commands; a track with
more to do is turned off. -/
def runDue [SoundChip σ] : (budget : Nat) → Engine σ → Nat → Engine σ
  | 0, e, i => if e.isDue i then e.turnOff i else e
  | budget + 1, e, i => if e.isDue i then runDue budget ((e.payDelta i).stepTrack i) i else e

/-- One tick of track `i`. -/
def runTrack [SoundChip σ] (e : Engine σ) (i : Nat) : Engine σ :=
  let e := e.modifyTrack i Track.advance
  if (e.track i).timeIsUp then e.turnOff i else runDue maxCommandsPerTick e i

/-- One tick of every track that runs when its turn comes. -/
def runTracks [SoundChip σ] (e : Engine σ) : Engine σ :=
  e.trackIds.foldl (fun e i => if (e.track i).isRunning then e.runTrack i else e) e

end Engine

end SoundSequencer
