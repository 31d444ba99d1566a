/-
SoundSequencer.Engine.Admission — which sound modules an engine accepts.

* `SoundModule.flaw?` is the first reason to refuse a module, in the order:
  limits, then sequences with their tracks, then patches, patch voices and
  drum keys.
* A module is accepted when there is none.
-/
import SoundSequencer.Engine.Error
import SoundSequencer.Slot
import SoundSequencer.SoundModule

namespace SoundSequencer

/-- The first index from `index` on at which `flaw` finds something. -/
def findFlaw {α : Type} (flaw : Nat → α → Option EngineError) :
    (index : Nat) → List α → Option EngineError
  | _, [] => none
  | index, a :: rest => (flaw index a).or (findFlaw flaw (index + 1) rest)

namespace Limits

/-- The first limit that no engine can work with. -/
def flaw? (l : Limits) : Option EngineError :=
  if l.sequences = 0 then some (.zeroLimit .sequences)
  else if l.tracks = 0 then some (.zeroLimit .tracks)
  else if l.voices = 0 then some (.zeroLimit .voices)
  else if hardwareVoices < l.voices.toNat then some (.voiceLimit l.voices)
  else none

end Limits

namespace TrackStream

/-- Whether a track calls for too many return addresses or has a label outside
its stream. -/
def flaw? (sequence track : Nat) (s : TrackStream) : Option EngineError :=
  if maxReturnDepth < s.header.returnDepth.toNat then some (.stackTooDeep sequence track)
  else (s.labels.findIdx? (s.bytes.size ≤ ·)).map (.badLabel sequence track)

end TrackStream

namespace PatchBank

/-- The first entry of the tables that refers to nothing. -/
def flaw? (b : PatchBank) : Option EngineError :=
  let ofPatch (index : Nat) (p : Patch) :=
    if b.voices.size < p.firstVoice.toNat + p.voiceCount.toNat then some (.badPatch index)
    else none
  let ofVoice (index : Nat) (v : PatchVoice) :=
    if (b.sample? v.sample).isNone then some (.badSample index v.sample) else none
  let ofDrum (key : Nat) (d : DrumKey) :=
    if (b.patch? d.patch).isNone then some (.badDrum key d.patch) else none
  (findFlaw ofPatch 0 b.patches.toList).or <|
    (findFlaw ofVoice 0 b.voices.toList).or <| findFlaw ofDrum 0 b.drums.toList

end PatchBank

namespace SoundModule

/-- The first flaw of a sequence: too many tracks, or that of its first flawed
track. -/
def sequenceFlaw? (sequence : Nat) (tracks : Array TrackStream) : Option EngineError :=
  if maxTracksPerSequence < tracks.size then some (.tooManyTracks sequence tracks.size)
  else findFlaw (TrackStream.flaw? sequence) 0 tracks.toList

/-- The first reason to refuse the module. -/
def flaw? (m : SoundModule) : Option EngineError :=
  m.limits.flaw?.or <| (findFlaw sequenceFlaw? 0 m.sequences.toList).or m.patches.flaw?

end SoundModule

end SoundSequencer
