/-
SoundSequencer.Engine.Error — why an engine refuses a module or a call.

* `EngineError` lists the causes.
* `EngineError.message` is the wording of each.
-/
import SoundSequencer.Chip
import SoundSequencer.Track.State

namespace SoundSequencer

/-- A pool that must not be empty. -/
inductive PoolName where
  | sequences | tracks | voices
  deriving Repr, DecidableEq

/-- The name of a pool's size among the limits of a module. -/
def PoolName.limitName : PoolName → String
  | .sequences => "max_active_sequences"
  | .tracks => "max_active_tracks"
  | .voices => "voice_limit"

/-- Why an engine refuses a module or a call. -/
inductive EngineError where
  /-- A pool of the module has size zero. -/
  | zeroLimit (pool : PoolName)
  /-- The module wants more voices than the hardware has. -/
  | voiceLimit (voices : UInt8)
  /-- A label does not stand for a place in its stream. -/
  | badLabel (sequence track label : Nat)
  /-- A track calls for more return addresses than any may hold. -/
  | stackTooDeep (sequence track : Nat)
  /-- A sequence has more tracks than any may have. -/
  | tooManyTracks (sequence tracks : Nat)
  /-- A patch runs past the table of patch voices. -/
  | badPatch (patch : Nat)
  /-- A patch voice has a sample that is not there. -/
  | badSample (voice : Nat) (sample : UInt16)
  /-- A drum key has a patch that is not there. -/
  | badDrum (key : Nat) (patch : UInt16)
  /-- The module has no such sequence. -/
  | invalidSequence (sequence : Nat)
  /-- The sequence has no tracks. -/
  | emptySequence (sequence : Nat)
  /-- Every sequence slot is taken. -/
  | noFreeSequence
  /-- Every track is taken. -/
  | noFreeTrack
  /-- Every place for a listener is taken. -/
  | callbacksFull (places : Nat)
  deriving Repr, DecidableEq

/-- The wording of a refusal. -/
def EngineError.message : EngineError → String
  | zeroLimit pool => "module limit " ++ pool.limitName ++ " must be non-zero"
  | voiceLimit voices => s!"voice limit {voices} exceeds the {hardwareVoices} hardware voices"
  | badLabel sequence track label =>
    s!"sequence {sequence} track {track}: label {label} points outside the stream"
  | stackTooDeep sequence track =>
    s!"sequence {sequence} track {track}: return stack deeper than {maxReturnDepth}"
  | tooManyTracks sequence tracks =>
    s!"sequence {sequence} has {tracks} tracks, more than the engine can hold"
  | badPatch patch => s!"patch {patch} refers to voices past the end of the table"
  | badSample voice sample => s!"patch voice {voice} refers to missing sample {sample}"
  | badDrum key patch => s!"drum key {key} refers to missing patch {patch}"
  | invalidSequence sequence => s!"sequence {sequence} does not exist"
  | emptySequence sequence => s!"sequence {sequence} has no tracks"
  | noFreeSequence => "no free sequence slot"
  | noFreeTrack => "no free track slot"
  | callbacksFull places => s!"all {places} callback slots are in use"

end SoundSequencer
