/-
SoundSequencer.Engine.Calls — the calls by which an application plays
sequences.

* `trigger`, `triggerWith` and `triggerHandled` start a sequence; only they
  can be refused.
* `releaseHandle` ends what a handle holds.
* `stop`, `stopAll`, `stopTagged` end sequences; `pause`, `pauseAll`,
  `restart`, `restartAll`, `restartSaved` hold them and let them go on;
  `updateTagged` changes the settings of those that play.
* `status` tells what a sequence does.

Calls that name a sequence that does not play do nothing.
-/
import SoundSequencer.Engine.Interpreter

namespace SoundSequencer

/-- What a sequence does. -/
inductive SequenceStatus where
  /-- There is no such sequence. -/
  | invalid
  /-- It is in no slot. -/
  | inactive
  /-- It is in a slot, and all its tracks are paused. -/
  | stopped
  | playing
  deriving Repr, DecidableEq

/-- How a sequence is started. -/
structure StartOptions where
  /-- The tag by which the caller groups sequences. -/
  tag : UInt32 := 0
  /-- Settings in place of those in the headers. -/
  attrs : PlayAttrs := {}
  /-- Whether the tracks wait, paused, and stay until the handle is released. -/
  handled : Bool := false
  deriving Repr, DecidableEq

/-- The most notes that a muting pause puts aside. -/
def maxSavedNotes : Nat := hardwareVoices

namespace Engine

variable {σ : Type}

/-! ## Starting -/

/-- Puts track `position` of a sequence into pool entry `i` for `slot`. -/
def startTrack (e : Engine σ) (slot sequence : Nat) (options : StartOptions)
    (i position : Nat) : Engine σ :=
  match e.module.track? sequence position with
  | none => e
  | some stream =>
    let (delta, pc) := (stream.event? 0).getD (0, 0)
    let e := e.modifyTrack i fun t =>
      let t := t.start stream.header options.attrs
      { t with
        flags := { t.flags with handled := options.handled, stopped := options.handled }
        slot, sequence, position, delta, pc }
    let e := e.modifySlot slot fun s =>
      { s with
        tracks := s.tracks.setIfInBounds position (some i)
        tracksActive := s.tracksActive + 1
        tracksPlaying := if options.handled then s.tracksPlaying else s.tracksPlaying + 1 }
    { e with tracksActive := e.tracksActive + 1 }

/-- The tracks of the pool that belong to no sequence. -/
def freeTracks (e : Engine σ) : List Nat := e.trackIds.filter fun i => !(e.track i).isActive

/-- Starts a sequence in the first free slot, with as many of its tracks as the
pool has free; answers with the slot. -/
def startSequence (e : Engine σ) (sequence : Nat) (options : StartOptions) :
    Except EngineError Nat × Engine σ :=
  match e.module.sequences[sequence]? with
  | none => (.error (.invalidSequence sequence), e)
  | some streams =>
    if streams.isEmpty then (.error (.emptySequence sequence), e)
    else
      match e.slots.findIdx? (!·.active) with
      | none => (.error .noFreeSequence, e)
      | some slot =>
        let taken := e.freeTracks.take streams.size
        let e := e.modifySlot slot Slot.cleared
        if taken.isEmpty then (.error .noFreeTrack, e)
        else
          let e := taken.zipIdx.foldl
            (fun e (i, position) => e.startTrack slot sequence options i position) e
          let e := e.modifySlot slot fun s =>
            { s with
              active := true
              handled := options.handled
              sequence
              tag := options.tag
              mode := if options.handled then .stopped else .playing
              volume := sequenceVolume
              pan := sequencePan }
          (.ok slot, { e with slotsActive := e.slotsActive + 1 })

/-- Starts a sequence as its headers say. -/
def trigger (e : Engine σ) (sequence : Nat) : Except EngineError Nat × Engine σ :=
  e.startSequence sequence {}

/-- Starts a sequence under a tag with settings of the caller's. -/
def triggerWith (e : Engine σ) (sequence : Nat) (tag : UInt32) (attrs : PlayAttrs) :
    Except EngineError Nat × Engine σ :=
  e.startSequence sequence { tag, attrs }

/-- Readies a sequence, whose tracks wait for `restart` and stay in the pool
when they end, until the handle is released. -/
def triggerHandled (e : Engine σ) (sequence : Nat) (attrs : PlayAttrs) :
    Except EngineError Nat × Engine σ :=
  e.startSequence sequence { attrs, handled := true }

/-- Releases the handle of a slot and ends its tracks. -/
def releaseHandle (e : Engine σ) (slot : Nat) : Engine σ :=
  if (e.slot slot).active && (e.slot slot).handled then
    (e.modifySlot slot fun s => { s with handled := false }).forTracksOf slot fun e i =>
      (e.modifyTrack i fun t => { t with flags := { t.flags with handled := false } }).turnOff i
  else e

/-! ## Stopping -/

/-- Ends every slot that plays `sequence`. -/
def stop (e : Engine σ) (sequence : Nat) : Engine σ :=
  e.forTracksWhere (·.sequence == sequence) turnOff

/-- Ends everything. -/
def stopAll (e : Engine σ) : Engine σ := e.forTracksWhere (fun _ => true) turnOff

/-- Ends every slot under `tag`. -/
def stopTagged (e : Engine σ) (tag : UInt32) : Engine σ :=
  e.forTracksWhere (·.tag == tag) turnOff

/-! ## Queries -/

/-- What `sequence` does: what the first slot that plays it does. -/
def status (e : Engine σ) (sequence : Nat) : SequenceStatus :=
  if sequence < e.module.sequences.size then
    match e.slots.find? fun s => s.active && s.sequence == sequence with
    | none => .inactive
    | some s => match s.mode with
      | .playing => .playing
      | .stopped => .stopped
  else .invalid

/-! ## Pausing -/

/-- Pauses every slot that plays `sequence`. Its notes sound on, unless they are
muted. -/
def pause (e : Engine σ) (sequence : Nat) (mute : Bool) : Engine σ :=
  e.forTracksWhere (·.sequence == sequence) fun e i =>
    let e := e.pauseTrack i
    if mute then e.muteTrack i else e

/-- Lets every slot that plays `sequence` go on. -/
def restart (e : Engine σ) (sequence : Nat) : Engine σ :=
  e.forTracksWhere (·.sequence == sequence) resumeTrack

/-- Pauses everything. Where notes are muted, those of music that were held are
put aside behind the notes in `saved`. -/
def pauseAll (e : Engine σ) (mute : Bool) (saved : List SavedNote) :
    List SavedNote × Engine σ :=
  e.slotIds.foldl (fun (saved, e) s =>
    if (e.slot s).active then
      (e.slot s).trackList.foldl (fun (saved, e) i =>
        if mute then
          ((saved ++ e.heldMusic i).take maxSavedNotes, (e.muteTrack i).pauseTrack i)
        else (saved, e.pauseTrack i)) (saved, e)
    else (saved, e)) (saved, e)

/-- Lets everything go on, and strikes the notes put aside again, each on its
track if that still plays the same sequence. -/
def restartAll [SoundChip σ] (e : Engine σ) (saved : List SavedNote) : Engine σ :=
  e.slotIds.foldl (fun e s =>
    let slot := e.slot s
    if slot.active then
      e.forTracksOf s fun e i =>
        (saved.filter fun n => n.track == i && n.sequence == slot.sequence).foldl
          (fun e n => e.playNote i n.patchVoice n.note n.velocity) (e.resumeTrack i)
    else e) e

/-- Lets everything go on with the notes put aside in `saved`, and empties the list. -/
def restartSaved [SoundChip σ] (e : Engine σ) (saved : List SavedNote) :
    List SavedNote × Engine σ := ([], e.restartAll saved)

/-! ## Changing settings -/

/-- Gives track `i` the settings that `attrs` gives. -/
def updateTrack [SoundChip σ] (e : Engine σ) (i : Nat) (attrs : PlayAttrs) : Engine σ :=
  let mask := attrs.mask
  let e := if mask.pan then e.modifyTrack i fun t => { t with pan := attrs.pan } else e
  let e :=
    if mask.volume then e.driverCommand i (.volumeMod attrs.volume)
    else if mask.pan then e.driverCommand i (.panMod attrs.pan)
    else e
  let e := if mask.pitch then e.driverCommand i (.pitchMod attrs.pitch) else e
  e.modifyTrack i (·.override attrs)

/-- Gives the settings that `attrs` gives to every slot under `tag`. -/
def updateTagged [SoundChip σ] (e : Engine σ) (tag : UInt32) (attrs : PlayAttrs) : Engine σ :=
  if attrs.mask.isEmpty then e
  else e.forTracksWhere (·.tag == tag) (updateTrack · · attrs)

end Engine

end SoundSequencer
