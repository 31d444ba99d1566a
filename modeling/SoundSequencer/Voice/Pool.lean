/-
SoundSequencer.Voice.Pool — which hardware voice plays what, and the choice
of a voice for a new note.

* `Voice` is what the engine knows of a hardware voice.
* `VoicePool` holds the voices that the engine may use, with the number of
  those in use.
* `VoicePool.choose` finds the voice for a new note: the first idle one,
  else one whose note may be cut off.
* `occupy` and `vacate` are the only ways in and out of use.
-/
import SoundSequencer.Chip
import SoundSequencer.Track.Stream

namespace SoundSequencer

/-- What the engine knows of a hardware voice. -/
structure Voice where
  active : Bool := false
  /-- Keyed off and fading. -/
  release : Bool := false
  /-- The track that owns the voice. -/
  track : Nat := 0
  note : UInt8 := 0
  velocity : UInt8 := 0
  soundClass : SoundClass := .music
  /-- The priority of the owner. -/
  priority : UInt8 := 0
  /-- The entry that plays in the table of patch voices. -/
  patchVoice : UInt16 := 0
  sample : UInt16 := 0
  /-- When the note was keyed on or, once it is released, when its release
  ends, on the millisecond clock. -/
  onOff : UInt32 := 0
  /-- How long a release of the note lasts, in milliseconds. -/
  releaseTime : UInt32 := 0
  deriving Repr, DecidableEq, Inhabited

namespace Voice

/-- Whether the voice plays a note of `track`. -/
def ownedBy (v : Voice) (track : Nat) : Bool := v.active && v.track == track

/-- Whether the voice plays a note that is not released. -/
def sounding (v : Voice) : Bool := v.active && !v.release

/-- The voice as its release begins at `now`. -/
def released (v : Voice) (now : UInt32) : Voice :=
  { v with release := true, onOff := now + v.releaseTime }

/-- Whether the time of the voice's release has passed. -/
def expired (v : Voice) (now : UInt32) : Bool := v.active && v.release && v.onOff < now

/-- Whether cutting off `v` costs less than cutting off `best`, of which `v` is
further on in the pool. A lower priority always does. Otherwise a voice that
fades wins over one that plays, and the earlier time decides between voices
alike; the comparison does not look at a higher priority of `v`. -/
def cheaperThan (v best : Voice) : Bool :=
  v.priority < best.priority ||
    (if v.release then v.onOff < best.onOff || !best.release
     else v.onOff < best.onOff && !best.release)

end Voice

/-- Where a new note goes. -/
inductive VoiceChoice where
  /-- An idle voice. -/
  | free (voice : Nat)
  /-- A voice in use, whose note is cut off. -/
  | steal (voice : Nat)
  deriving Repr, DecidableEq

/-- The voices that an engine may use. -/
structure VoicePool where
  voices : Array Voice := #[]
  /-- How many of the voices are in use. -/
  active : Nat := 0
  deriving Repr, DecidableEq, Inhabited

namespace VoicePool

/-- A pool of idle voices, as many as the hardware allows. -/
def ofLimit (limit : Nat) : VoicePool := { voices := Array.replicate (min limit hardwareVoices) {} }

/-- The number of voices, in use or not. -/
def limit (p : VoicePool) : Nat := p.voices.size

/-- Voice `v`; a voice outside the pool is idle. -/
def voice (p : VoicePool) (v : Nat) : Voice := p.voices.getD v {}

/-- The pool with `f` applied to voice `v`. -/
def modify (p : VoicePool) (v : Nat) (f : Voice → Voice) : VoicePool :=
  { p with voices := p.voices.modify v f }

theorem voice_modify (p : VoicePool) (v w : Nat) (f : Voice → Voice) :
    (p.modify v f).voice w = if v = w ∧ w < p.limit then f (p.voice w) else p.voice w := by
  by_cases hw : w < p.voices.size <;> by_cases hv : v = w <;>
    simp [voice, modify, limit, Array.getD_eq_getD_getElem?, Array.getElem_modify, hw, hv]

@[simp] theorem limit_modify (p : VoicePool) (v : Nat) (f : Voice → Voice) :
    (p.modify v f).limit = p.limit := by
  simp [limit, modify]

/-- A voice in use is a voice of the pool. -/
theorem lt_limit_of_active {p : VoicePool} {v : Nat} (h : (p.voice v).active = true) :
    v < p.limit := by
  by_cases hv : v < p.voices.size
  · exact hv
  · simp [voice, Array.getD_eq_getD_getElem?, hv] at h

/-- The voices that satisfy `q`, in order. -/
def select (p : VoicePool) (q : Voice → Bool) : List Nat :=
  (List.range p.limit).filter fun v => q (p.voice v)

/-- The pool with `f` applied to the voices that satisfy `q`. -/
def update (p : VoicePool) (q : Voice → Bool) (f : Voice → Voice) : VoicePool :=
  { p with voices := p.voices.map fun v => if q v then f v else v }

/-- The voices that play notes of `track`, in order. -/
def ownedBy (p : VoicePool) (track : Nat) : List Nat := p.select (·.ownedBy track)

theorem voice_update (p : VoicePool) (q : Voice → Bool) (f : Voice → Voice) (v : Nat)
    (h : v < p.limit) :
    (p.update q f).voice v = if q (p.voice v) then f (p.voice v) else p.voice v := by
  have hv : v < p.voices.size := h
  simp [voice, update, Array.getD_eq_getD_getElem?, hv]

@[simp] theorem limit_update (p : VoicePool) (q : Voice → Bool) (f : Voice → Voice) :
    (p.update q f).limit = p.limit := by
  simp [limit, update]

theorem mem_select {p : VoicePool} {q : Voice → Bool} {v : Nat} :
    v ∈ p.select q ↔ v < p.limit ∧ q (p.voice v) = true := by
  simp [select]

/-! ## The choice of a voice -/

/-- The first idle voice. -/
def firstIdle? (p : VoicePool) : Option Nat := p.voices.findIdx? (!·.active)

/-- The voice to cut off for a note of the given priority, were all voices in
use: a scan that keeps the cheapest so far among those of no higher
priority. -/
def victim? (p : VoicePool) (priority : UInt8) : Option Nat :=
  (List.range p.limit).foldl (fun best v =>
    if priority < (p.voice v).priority then best
    else
      match best with
      | none => some v
      | some b => if (p.voice v).cheaperThan (p.voice b) then some v else best) none

/-- The voice for a note of the given priority; nothing if the note is to be
dropped. -/
def choose (p : VoicePool) (priority : UInt8) : Option VoiceChoice :=
  match p.firstIdle? with
  | some v => some (.free v)
  | none => (p.victim? priority).map .steal

/-! ## In and out of use -/

/-- The pool with `voice` playing on voice `v`. -/
def occupy (p : VoicePool) (v : Nat) (voice : Voice) : VoicePool :=
  if v < p.limit then
    { p.modify v fun _ => { voice with active := true, release := false } with
      active := if (p.voice v).active then p.active else p.active + 1 }
  else p

/-- The pool with voice `v` idle. -/
def vacate (p : VoicePool) (v : Nat) : VoicePool :=
  if (p.voice v).active then
    { p.modify v fun voice => { voice with active := false, release := false } with
      active := p.active - 1 }
  else p

@[simp] theorem limit_occupy (p : VoicePool) (v : Nat) (voice : Voice) :
    (p.occupy v voice).limit = p.limit := by
  unfold occupy
  split
  · exact limit_modify p v _
  · rfl

@[simp] theorem limit_vacate (p : VoicePool) (v : Nat) : (p.vacate v).limit = p.limit := by
  unfold vacate
  split
  · exact limit_modify p v _
  · rfl

theorem voice_occupy (p : VoicePool) (v w : Nat) (voice : Voice) (h : v < p.limit) :
    (p.occupy v voice).voice w =
      if v = w then { voice with active := true, release := false } else p.voice w := by
  rw [occupy, if_pos h]
  refine (voice_modify p v w _).trans ?_
  by_cases hw : v = w
  · subst hw; simp [h]
  · simp [hw]

theorem voice_vacate (p : VoicePool) (v w : Nat) :
    (p.vacate v).voice w =
      if v = w ∧ (p.voice v).active then { p.voice v with active := false, release := false }
      else p.voice w := by
  unfold vacate
  by_cases ha : (p.voice v).active = true
  · rw [if_pos ha]
    refine (voice_modify p v w _).trans ?_
    by_cases hw : v = w
    · subst hw; simp [ha, lt_limit_of_active ha]
    · simp [hw]
  · simp [ha]

end VoicePool

end SoundSequencer
