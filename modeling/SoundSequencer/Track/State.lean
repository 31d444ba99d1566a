/-
SoundSequencer.Track.State — a track while it plays.

* `TrackFlags` says what state a track is in, with the numbers that stand
  for the flags.
* `Track` holds the settings, the times and the place of a track.
  `Track.start` sets it up from its header.
* `pushReturn?` and `popReturn?` work the stack of return addresses, whose
  depth the header declares.
-/
import SoundSequencer.Timing
import SoundSequencer.PlayAttrs
import SoundSequencer.Track.Stream

namespace SoundSequencer

/-- The deepest stack of return addresses that a track may declare. -/
def maxReturnDepth : Nat := 16

/-- The state of a track. -/
structure TrackFlags where
  /-- The track belongs to a sequence. -/
  active : Bool := false
  /-- The track is paused: its time stands still. -/
  stopped : Bool := false
  /-- A mute group took the track. Nothing follows from it. -/
  muted : Bool := false
  /-- The end of the track leads back to its start. -/
  looped : Bool := false
  /-- The track turns itself off at a given time. -/
  timed : Bool := false
  /-- The track is turned off and waits for its last voices. -/
  off : Bool := false
  /-- The track stays in the pool when turned off, until its handle is
  released. -/
  handled : Bool := false
  deriving Repr, DecidableEq, Inhabited

namespace TrackFlags

/-- The flags as a number, the first in the lowest bit. -/
def toBits (f : TrackFlags) : Nat :=
  [f.active, f.stopped, f.muted, f.looped, f.timed, f.off, f.handled].foldr
    (fun flag bits => bits * 2 + flag.toNat) 0

/-- The flags that a number marks; further bits mean nothing. -/
def ofBits (bits : Nat) : TrackFlags where
  active := bits.testBit 0
  stopped := bits.testBit 1
  muted := bits.testBit 2
  looped := bits.testBit 3
  timed := bits.testBit 4
  off := bits.testBit 5
  handled := bits.testBit 6

end TrackFlags

/-- A track while it plays. -/
structure Track where
  flags : TrackFlags := {}
  /-- The slot of the track's sequence. -/
  slot : Nat := 0
  /-- The sequence in the module. -/
  sequence : Nat := 0
  /-- The place of the track in its sequence. -/
  position : Nat := 0
  driver : Driver := .voices
  soundClass : SoundClass := .music
  priority : UInt8 := 0
  maxVoices : Nat := 0
  /-- How many voices play notes of the track. -/
  voicesActive : Nat := 0
  muteGroups : UInt32 := 0
  patch : UInt16 := 0
  pitch : Int16 := 0
  volume : UInt8 := 0
  pan : UInt8 := 0
  reverb : UInt8 := 0
  ppq : UInt16 := 0
  qpm : UInt16 := 0
  /-- Parts per interrupt, with sixteen fractional bits. -/
  ppi : UInt32 := 0
  /-- The fraction of a part that has passed, in 65536ths. -/
  frac : UInt32 := 0
  /-- The parts that have passed since the start. -/
  total : UInt32 := 0
  /-- The parts that have passed and are not yet spent on a command. -/
  acc : UInt32 := 0
  /-- The total at which a timed track ends. -/
  endAt : UInt32 := 0
  /-- The parts to wait before the command at `pc`. -/
  delta : UInt32 := 0
  /-- The offset of the next command. -/
  pc : Nat := 0
  /-- Return addresses, the newest first. -/
  returns : List Nat := []
  /-- How many return addresses the track may hold. -/
  returnDepth : Nat := 0
  deriving Repr, DecidableEq, Inhabited

namespace Track

/-! ## State -/

/-- Whether the track belongs to a sequence. -/
def isActive (t : Track) : Bool := t.flags.active

/-- Whether the track is paused. -/
def isStopped (t : Track) : Bool := t.flags.stopped

/-- Whether a handle holds the track. -/
def isHandled (t : Track) : Bool := t.flags.handled

/-- Whether the track's time goes on. -/
def isRunning (t : Track) : Bool := t.isActive && !t.isStopped

/-! ## Tempo and time -/

/-- The track with its advance per tick in keeping with tempo and resolution. -/
def retime (t : Track) : Track :=
  { t with ppi := partsPerInterrupt ticksPerSecond t.ppq t.qpm }

/-- The track at a tempo of `qpm` quarters a minute. -/
def setTempo (t : Track) (qpm : UInt16) : Track := { t with qpm }.retime

/-- The track after the time of one tick has passed. -/
def advance (t : Track) : Track :=
  let passed := t.frac + t.ppi
  let whole := passed >>> 16
  { t with frac := passed &&& 0xFFFF, total := t.total + whole, acc := t.acc + whole }

/-- Whether a timed track has come to its end. -/
def timeIsUp (t : Track) : Bool := t.flags.timed && t.endAt ≤ t.total

/-- The track set to end `playtime` parts from now. -/
def endIn (t : Track) (playtime : UInt32) : Track :=
  { t with flags := { t.flags with timed := true }, endAt := t.total + playtime }

/-! ## Start -/

/-- The track as its header and the caller's settings want it at the start.
The place in the stream and the links to the sequence stay as they are. -/
def start (t : Track) (header : TrackHeader) (attrs : PlayAttrs) : Track :=
  let mask := attrs.mask
  let t : Track := { t with
    flags := { active := true, muted := attrs.mutes header.muteGroups, looped := mask.looped }
    driver := header.driver
    soundClass := header.soundClass
    priority := header.priority
    maxVoices := header.maxVoices.toNat
    voicesActive := 0
    muteGroups := header.muteGroups
    patch := if mask.patch then attrs.patch else header.patch
    pitch := if mask.pitch then attrs.pitch else header.pitch
    volume := if mask.volume then attrs.volume else header.volume
    pan := if mask.pan then attrs.pan else header.pan
    reverb := if mask.reverb then attrs.reverb else header.reverb
    ppq := header.ppq
    qpm := if mask.tempo then attrs.tempo else header.qpm
    frac := 0
    total := 0
    acc := 0
    endAt := 0
    returns := []
    returnDepth := min header.returnDepth.toNat maxReturnDepth }
  let t := t.retime
  if mask.timed then t.endIn attrs.playtime else t

/-- The track under way with the settings that a caller gives, those of its
voices apart. -/
def override (t : Track) (attrs : PlayAttrs) : Track :=
  let mask := attrs.mask
  let t : Track := { t with
    patch := if mask.patch then attrs.patch else t.patch
    reverb := if mask.reverb then attrs.reverb else t.reverb
    flags := { t.flags with
      muted := if mask.mute then attrs.mutes t.muteGroups else t.flags.muted
      looped := t.flags.looped || mask.looped } }
  let t := if mask.tempo then t.setTempo attrs.tempo else t
  if mask.timed then t.endIn attrs.playtime else t

/-! ## Return addresses -/

/-- The track with a return address more, if there is room. -/
def pushReturn? (t : Track) (address : Nat) : Option Track :=
  if t.returns.length < t.returnDepth ∧ t.returns.length < maxReturnDepth then
    some { t with returns := address :: t.returns }
  else none

/-- The newest return address and the track without it. -/
def popReturn? (t : Track) : Option (Nat × Track) :=
  match t.returns with
  | [] => none
  | address :: rest => some (address, { t with returns := rest })

end Track

end SoundSequencer
