/-
SoundSequencer.Proofs.Stops — several calls that end sequences, one after the other.

* `Track.turnedOff` and `Slot.afterOff` are a track and its slot when the track is turned off.
  `turnOff_eq_fields` says that nothing else depends on the engine.
* `turnOff_comm` says that tracks may be turned off in any order, `dismiss_dismiss` that a track
  that was turned off may be turned off again.
* `Stop` lists the calls that end sequences; `Engine.halts` makes several. `halts_eq` says that
  they turn off the tracks that they reach in the engine as it is at first.
-/
import SoundSequencer.Proofs.Accepted
import SoundSequencer.Proofs.Overrides
import SoundSequencer.Proofs.Reach

namespace SoundSequencer

/-! ## A track and its slot -/

namespace Track

/-- Whether a track that is turned off has notes that fade first. -/
def lingers (t : Track) : Bool := t.driver == .voices && t.voicesActive != 0

/-- Whether a track that is turned off leaves the pool at once. -/
def departs (t : Track) : Bool := !t.lingers && !t.isHandled

/-- The track with no time set to end. -/
def untimed (t : Track) : Track := { t with flags := { t.flags with timed := false } }

/-- The track out of the pool. -/
def gone (t : Track) : Track := { t with flags := { t.flags with active := false } }

/-- The slot when its track `i` is at its end: it stays if a handle holds it. -/
def leave (t : Track) (i : Nat) (s : Slot) : Slot := if t.isHandled then s else s.withoutTrack i

/-- The track when it is turned off. -/
def turnedOff (t : Track) : Track := if t.lingers then t.awaiting else t.retired

theorem turnedOff_of_lingers {t : Track} (h : t.lingers = true) : t.turnedOff = t.awaiting :=
  if_pos h

theorem turnedOff_of_not_lingers {t : Track} (h : t.lingers = false) : t.turnedOff = t.retired :=
  if_neg (by rw [h]; exact Bool.false_ne_true)

theorem lingers_iff {t : Track} :
    t.lingers = true ↔ t.driver = .voices ∧ t.voicesActive ≠ 0 := by
  simp [lingers]

/-- A track whose notes fade stays in the pool meanwhile. -/
theorem departs_of_lingers {t : Track} (h : t.lingers = true) : t.departs = false := by
  simp [departs, h]

theorem departs_of_not_lingers {t : Track} (h : t.lingers = false) :
    t.departs = !t.isHandled := by
  simp [departs, h]

@[simp] theorem lingers_turnedOff (t : Track) : t.turnedOff.lingers = t.lingers := by
  unfold turnedOff
  split <;> rfl

@[simp] theorem isHandled_turnedOff (t : Track) : t.turnedOff.isHandled = t.isHandled := by
  unfold turnedOff
  split <;> rfl

@[simp] theorem isStopped_turnedOff (t : Track) : t.turnedOff.isStopped = true := by
  unfold turnedOff
  split <;> rfl

@[simp] theorem slot_turnedOff (t : Track) : t.turnedOff.slot = t.slot := by
  unfold turnedOff
  split <;> rfl

@[simp] theorem departs_turnedOff (t : Track) : t.turnedOff.departs = t.departs := by
  rw [departs, departs, lingers_turnedOff, isHandled_turnedOff]

@[simp] theorem isActive_turnedOff (t : Track) :
    t.turnedOff.isActive = (t.isActive && !t.departs) := by
  unfold turnedOff departs
  cases h : t.lingers with
  | true => simp [isActive, awaiting]
  | false => simp [isActive, retired, isHandled]

/-- A track that was turned off is as it would be if it were turned off again. -/
theorem turnedOff_turnedOff (t : Track) : t.turnedOff.turnedOff = t.turnedOff := by
  cases hlingers : t.lingers with
  | true =>
    have hagain : t.awaiting.lingers = true := hlingers
    rw [turnedOff_of_lingers hlingers, turnedOff_of_lingers hagain]
    rfl
  | false =>
    have hagain : t.retired.lingers = false := hlingers
    rw [turnedOff_of_not_lingers hlingers, turnedOff_of_not_lingers hagain]
    simp [retired]

end Track

namespace Slot

/-- The slot with its mode in keeping with its count of playing tracks. -/
def settled (s : Slot) : Slot := { s with mode := if s.tracksPlaying = 0 then .stopped else s.mode }

/-- The slot when a track that is `t` until then plays no longer. -/
def quieted (s : Slot) (t : Track) : Slot :=
  if t.isStopped then (if t.lingers then s.settled else s) else s.stopped

/-- The slot when its track `i`, which is `t` until then, is turned off. -/
def afterOff (s : Slot) (t : Track) (i : Nat) : Slot :=
  if t.departs then (s.quieted t).withoutTrack i else s.quieted t

theorem afterOff_of_lingers {t : Track} (h : t.lingers = true) (s : Slot) (i : Nat) :
    s.afterOff t i = if t.isStopped then s.settled else s.stopped := by
  simp [afterOff, quieted, h, Track.departs_of_lingers h]

theorem afterOff_of_not_lingers {t : Track} (h : t.lingers = false) (s : Slot) (i : Nat) :
    s.afterOff t i = t.leave i (if t.isStopped then s else s.stopped) := by
  unfold afterOff quieted Track.leave
  rw [h, Track.departs_of_not_lingers h]
  cases t.isHandled <;> simp

theorem settled_settled (s : Slot) : s.settled.settled = s.settled := by
  unfold settled
  split <;> rfl

theorem stopped_settled (s : Slot) : s.stopped.settled = s.stopped := by
  unfold settled stopped
  dsimp only
  split <;> rfl

theorem settled_stopped (s : Slot) : s.settled.stopped = s.stopped := by
  unfold settled stopped
  dsimp only
  split
  · rfl
  · next hmore => rw [if_neg (by omega)]

/-- A slot with two tracks less that play has the mode that its count wants, whichever of them
went first. -/
theorem quieted_comm (s : Slot) (t u : Track) :
    (s.quieted t).quieted u = (s.quieted u).quieted t := by
  unfold quieted
  split <;> split <;> (try split) <;> (try split) <;>
    simp only [settled_settled, stopped_settled, settled_stopped]

theorem quieted_withoutTrack (s : Slot) (t : Track) (i : Nat) :
    (s.withoutTrack i).quieted t = (s.quieted t).withoutTrack i := by
  unfold quieted
  split
  · split <;> rfl
  · rfl

theorem withoutTrack_comm (s : Slot) (i j : Nat) :
    (s.withoutTrack i).withoutTrack j = (s.withoutTrack j).withoutTrack i := by
  have htracks : ((s.tracks.map fun entry => if entry = some i then none else entry).map
      fun entry => if entry = some j then none else entry) =
        (s.tracks.map fun entry => if entry = some j then none else entry).map
          fun entry => if entry = some i then none else entry := by
    simp only [Array.map_map]
    refine Array.map_congr_left fun entry _ => ?_
    simp only [Function.comp]
    grind
  unfold withoutTrack dropTrack
  dsimp only
  rw [htracks]
  rfl

/-- Two tracks of a slot may be turned off in either order. -/
theorem afterOff_comm (s : Slot) (t u : Track) (i j : Nat) :
    (s.afterOff t i).afterOff u j = (s.afterOff u j).afterOff t i := by
  unfold afterOff
  split <;> split <;>
    simp only [quieted_withoutTrack, quieted_comm s t u, withoutTrack_comm _ i j]

/-- A track that stays in the pool changes its slot no more when it is turned off again. -/
theorem afterOff_afterOff {t : Track} (h : t.departs = false) (s : Slot) (i : Nat) :
    (s.afterOff t i).afterOff t.turnedOff i = s.afterOff t i := by
  unfold afterOff
  rw [Track.departs_turnedOff, h]
  simp only [Bool.false_eq_true, if_false]
  unfold quieted
  rw [Track.isStopped_turnedOff, Track.lingers_turnedOff, if_pos rfl]
  cases t.isStopped <;> cases t.lingers <;>
    simp [settled_settled, stopped_settled]

/-- Whether a slot ends with the next track to leave depends on nothing that a track changes
which plays no longer. -/
theorem endsNext_afterOff (s : Slot) (t : Track) (i : Nat) :
    (s.afterOff t i).endsNext =
      if t.departs then (s.withoutTrack i).endsNext else s.endsNext := by
  have hquieted : (s.quieted t).endsNext = s.endsNext := by
    unfold quieted
    split
    · split <;> rfl
    · rfl
  unfold afterOff
  split
  · rw [← quieted_withoutTrack]
    unfold quieted
    split
    · split <;> rfl
    · rfl
  · exact hquieted

end Slot

/-- The voice with its mute release under way. -/
def Voice.muted (v : Voice) (muteTime now : UInt32) : Voice :=
  { v with releaseTime := muteTime }.released now

@[simp] theorem Voice.ownedBy_muted (v : Voice) (muteTime now : UInt32) (i : Nat) :
    (v.muted muteTime now).ownedBy i = v.ownedBy i := rfl

namespace VoicePool

/-- The voices with the mute release of those of track `i` under way. -/
def mute (p : VoicePool) (i : Nat) (muteTime now : UInt32) : VoicePool :=
  p.update (·.ownedBy i) (·.muted muteTime now)

variable (p : VoicePool) (muteTime now : UInt32)

theorem mute_comm (i j : Nat) :
    (p.mute i muteTime now).mute j muteTime now = (p.mute j muteTime now).mute i muteTime now := by
  unfold mute update
  simp only [Array.map_map]
  congr 1
  refine Array.map_congr_left fun v _ => ?_
  simp only [Function.comp]
  cases hi : v.ownedBy i <;> cases hj : v.ownedBy j <;> simp [hi, hj]

theorem mute_mute (i : Nat) :
    (p.mute i muteTime now).mute i muteTime now = p.mute i muteTime now := by
  unfold mute update
  simp only [Array.map_map]
  congr 1
  refine Array.map_congr_left fun v _ => ?_
  simp only [Function.comp]
  cases hi : v.ownedBy i <;> simp [hi, Voice.muted, Voice.released]

/-- A voice that is muted keeps its owner. -/
theorem ownedBy_mute (i j : Nat) : (p.mute i muteTime now).ownedBy j = p.ownedBy j := by
  unfold ownedBy select mute
  rw [limit_update]
  refine List.filter_congr fun v hv => ?_
  rw [voice_update _ _ _ _ (List.mem_range.mp hv)]
  split <;> rfl

end VoicePool

namespace Engine

variable {σ : Type}

/-! ## One track -/

theorem modifySlot_congr {e : Engine σ} {s : Nat} {f g : Slot → Slot}
    (h : f (e.slot s) = g (e.slot s)) : e.modifySlot s f = e.modifySlot s g := by
  have hslots : e.slots.modify s f = e.slots.modify s g := by
    refine Array.ext (by simp) fun r hr hr' => ?_
    rw [Array.getElem_modify, Array.getElem_modify]
    split
    · next hs =>
      subst hs
      have hsize : s < e.slots.size := by simpa using hr
      simpa [slot, Array.getD_eq_getD_getElem?, hsize] using h
    · rfl
  unfold modifySlot
  rw [hslots]

theorem modifySlot_id (e : Engine σ) (s : Nat) : (e.modifySlot s fun slot => slot) = e := by
  have hslots : (e.slots.modify s fun slot => slot) = e.slots := by
    refine Array.ext (by simp) fun r hr hr' => ?_
    rw [Array.getElem_modify]
    split <;> rfl
  unfold modifySlot
  rw [hslots]

theorem modifySlot_of_eq {e : Engine σ} {s : Nat} {g : Slot → Slot}
    (h : g (e.slot s) = e.slot s) : e.modifySlot s g = e :=
  (modifySlot_congr h).trans (e.modifySlot_id s)

theorem modifySlot_modifySlot (e : Engine σ) (s : Nat) (f g : Slot → Slot) :
    (e.modifySlot s f).modifySlot s g = e.modifySlot s fun slot => g (f slot) := by
  have hslots : (e.slots.modify s f).modify s g = e.slots.modify s fun slot => g (f slot) := by
    refine Array.ext (by simp) fun r hr hr' => ?_
    simp only [Array.getElem_modify]
    split <;> rfl
  unfold modifySlot
  dsimp only
  rw [hslots]

/-- Changes to different slots may be made in either order, and so may changes to one slot
that commute. -/
theorem modify_comm_slot {slots : Array Slot} {r s : Nat} {f g : Slot → Slot}
    (h : r = s → ∀ slot, g (f slot) = f (g slot)) :
    (slots.modify r f).modify s g = (slots.modify s g).modify r f := by
  refine Array.ext (by simp) fun k hk hk' => ?_
  simp only [Array.getElem_modify]
  grind

theorem pauseTrack_eq (e : Engine σ) (i : Nat) :
    e.pauseTrack i = (e.modifyTrack i Track.paused).modifySlot (e.track i).slot fun s =>
      if (e.track i).isStopped then s else s.stopped := by
  unfold pauseTrack
  split
  · next hstopped =>
    have hpaused : (e.track i).paused = e.track i := by
      have hflag : (e.track i).flags.stopped = true := hstopped
      simp [Track.paused, ← hflag]
    rw [modifyTrack_of_eq hpaused, modifySlot_of_eq rfl]
  · rfl

/-- A track at its end that a handle holds is paused. -/
theorem retireTrack_of_isHandled {e : Engine σ} {i : Nat} (h : (e.track i).isHandled = true) :
    e.retireTrack i = (e.modifyTrack i Track.retired).modifySlot (e.track i).slot fun s =>
      if (e.track i).isStopped then s else s.stopped := by
  have hhandled : ((e.pauseTrack i).track i).isHandled = true := by
    rw [track_pauseTrack]
    split <;> exact h
  have hretired : (e.modifyTrack i Track.paused).modifyTrack i Track.untimed =
      e.modifyTrack i Track.retired := by
    have hflag : (e.track i).flags.handled = true := h
    rw [modifyTrack_modifyTrack]
    exact modifyTrack_congr (by simp [Track.retired, Track.paused, Track.untimed, hflag])
  unfold retireTrack
  dsimp only
  rw [if_pos hhandled, pauseTrack_eq, ← hretired]
  rfl

/-- Any other track at its end is paused, too, and leaves the pool. -/
theorem retireTrack_of_not_isHandled {e : Engine σ} {i : Nat}
    (h : (e.track i).isHandled = false) :
    e.retireTrack i =
      { (e.modifyTrack i Track.retired).modifySlot (e.track i).slot fun s =>
          (if (e.track i).isStopped then s else s.stopped).withoutTrack i with
        tracksActive := e.tracksActive - 1
        slotsActive :=
          if (e.slot (e.track i).slot).endsNext then e.slotsActive - 1 else e.slotsActive } := by
  have hhandled : ((e.pauseTrack i).track i).isHandled = false := by
    rw [track_pauseTrack]
    split <;> exact h
  have hhome : ((e.pauseTrack i).track i).slot = (e.track i).slot := by
    rw [track_pauseTrack]
    split <;> rfl
  have hends : ((e.pauseTrack i).slot (e.track i).slot).endsNext =
      (e.slot (e.track i).slot).endsNext := by
    rw [pauseTrack_eq, slot_modifySlot]
    split
    · split <;> rfl
    · rfl
  have hretired : ((e.modifyTrack i Track.paused).modifyTrack i Track.gone).modifyTrack i
      Track.untimed = e.modifyTrack i Track.retired := by
    have hflag : (e.track i).flags.handled = false := h
    rw [modifyTrack_modifyTrack, modifyTrack_modifyTrack]
    exact modifyTrack_congr
      (by simp [Track.retired, Track.paused, Track.gone, Track.untimed, hflag])
  have hslots := modifySlot_modifySlot (e.modifyTrack i Track.retired) (e.track i).slot
    (fun s => if (e.track i).isStopped then s else s.stopped) (·.withoutTrack i)
  unfold retireTrack leavePool
  dsimp only
  rw [hhandled, if_neg Bool.false_ne_true, hhome, hends, pauseTrack_eq, ← hslots, ← hretired]
  rfl

/-- A track at its end, in one go. -/
theorem retireTrack_eq (e : Engine σ) (i : Nat) :
    e.retireTrack i =
      { (e.modifyTrack i Track.retired).modifySlot (e.track i).slot fun s =>
          (e.track i).leave i (if (e.track i).isStopped then s else s.stopped) with
        tracksActive := if (e.track i).isHandled then e.tracksActive else e.tracksActive - 1
        slotsActive :=
          if !(e.track i).isHandled && (e.slot (e.track i).slot).endsNext then e.slotsActive - 1
          else e.slotsActive } := by
  unfold Track.leave
  cases h : (e.track i).isHandled with
  | true => exact retireTrack_of_isHandled h
  | false => exact retireTrack_of_not_isHandled h

/-- A track whose notes fade waits for them. -/
theorem turnOff_of_lingers {e : Engine σ} {i : Nat} (h : (e.track i).lingers = true) :
    e.turnOff i = (e.releaseVoices i).awaitVoices i := by
  obtain ⟨hdriver, hsounds⟩ := Track.lingers_iff.mp h
  rw [turnOff_eq, hdriver]
  exact if_neg hsounds

/-- Any other track is at its end at once. -/
theorem turnOff_of_not_lingers {e : Engine σ} {i : Nat} (h : (e.track i).lingers = false) :
    e.turnOff i = e.retireTrack i := by
  rw [turnOff_eq]
  split
  · rfl
  · next hvoices =>
    refine if_pos ?_
    simpa [Track.lingers, hvoices] using h

/-- A track that is turned off: what becomes of it, of its slot, of its voices and of the
counts. -/
theorem turnOff_eq_fields (e : Engine σ) (i : Nat) :
    e.turnOff i =
      { e with
        tracks := e.tracks.modify i Track.turnedOff
        slots := e.slots.modify (e.track i).slot (·.afterOff (e.track i) i)
        voices :=
          if (e.track i).lingers then
            e.voices.mute i (Voice.muteReleaseTime e.muteRate) e.clock.ms
          else e.voices
        toRelease :=
          if (e.track i).lingers then e.toRelease ||| VoiceSet.ofList (e.voices.ownedBy i)
          else e.toRelease
        toMute :=
          if (e.track i).lingers then e.toMute ||| VoiceSet.ofList (e.voices.ownedBy i)
          else e.toMute
        tracksActive := if (e.track i).departs then e.tracksActive - 1 else e.tracksActive
        slotsActive :=
          if (e.track i).departs && (e.slot (e.track i).slot).endsNext then e.slotsActive - 1
          else e.slotsActive } := by
  cases hlingers : (e.track i).lingers with
  | true =>
    have htracks : e.tracks.modify i Track.turnedOff = e.tracks.modify i Track.awaiting :=
      congrArg Engine.tracks
        (@modifyTrack_congr _ e i _ _ (Track.turnedOff_of_lingers hlingers))
    have hafter : (fun s : Slot => s.afterOff (e.track i) i) = fun s =>
        if (e.track i).isStopped then s.settled else s.stopped :=
      funext fun s => s.afterOff_of_lingers hlingers i
    rw [turnOff_of_lingers hlingers, htracks, hafter, Track.departs_of_lingers hlingers]
    unfold awaitVoices releaseVoices
    rw [if_neg (Track.lingers_iff.mp hlingers).2]
    rfl
  | false =>
    have htracks : e.tracks.modify i Track.turnedOff = e.tracks.modify i Track.retired :=
      congrArg Engine.tracks
        (@modifyTrack_congr _ e i _ _ (Track.turnedOff_of_not_lingers hlingers))
    have hafter : (fun s : Slot => s.afterOff (e.track i) i) = fun s =>
        (e.track i).leave i (if (e.track i).isStopped then s else s.stopped) :=
      funext fun s => s.afterOff_of_not_lingers hlingers i
    have hcount : (if (e.track i).departs then e.tracksActive - 1 else e.tracksActive) =
        if (e.track i).isHandled then e.tracksActive else e.tracksActive - 1 := by
      rw [Track.departs_of_not_lingers hlingers]
      cases (e.track i).isHandled <;> rfl
    rw [turnOff_of_not_lingers hlingers, retireTrack_eq, htracks, hafter, hcount,
      Track.departs_of_not_lingers hlingers]
    rfl

/-! ### What it reads -/

section Reads

variable (e : Engine σ) (i : Nat)

theorem tracks_turnOff : (e.turnOff i).tracks = e.tracks.modify i Track.turnedOff := by
  rw [turnOff_eq_fields]

theorem slots_turnOff : (e.turnOff i).slots =
    e.slots.modify (e.track i).slot (·.afterOff (e.track i) i) := by
  rw [turnOff_eq_fields]

theorem track_turnOff (j : Nat) : (e.turnOff i).track j =
    if i = j ∧ j < e.tracks.size then (e.track j).turnedOff else e.track j := by
  unfold track
  rw [tracks_turnOff]
  exact track_modifyTrack e i j _

theorem slot_turnOff (s : Nat) : (e.turnOff i).slot s =
    if (e.track i).slot = s ∧ s < e.slots.size then (e.slot s).afterOff (e.track i) i
    else e.slot s := by
  unfold slot
  rw [slots_turnOff]
  exact slot_modifySlot e (e.track i).slot s _

theorem voices_turnOff : (e.turnOff i).voices =
    if (e.track i).lingers then e.voices.mute i (Voice.muteReleaseTime e.muteRate) e.clock.ms
    else e.voices := by
  rw [turnOff_eq_fields]

theorem ownedBy_turnOff (j : Nat) :
    (e.turnOff i).voices.ownedBy j = e.voices.ownedBy j := by
  rw [voices_turnOff]
  split
  · exact VoicePool.ownedBy_mute _ _ _ _ _
  · rfl

end Reads

/-! ### In any order, and again -/

/-- Whether the slot of another track ends with its next track to leave, once track `i` is
turned off. -/
theorem endsNext_turnOff (e : Engine σ) (i j : Nat) :
    ((e.turnOff i).slot (e.track j).slot).endsNext =
      if (e.track i).slot = (e.track j).slot ∧ (e.track i).departs = true then
        ((e.slot (e.track j).slot).withoutTrack i).endsNext
      else (e.slot (e.track j).slot).endsNext := by
  rw [slot_turnOff]
  by_cases hs : (e.track i).slot = (e.track j).slot ∧ (e.track j).slot < e.slots.size
  · rw [if_pos hs, Slot.endsNext_afterOff]
    simp only [hs.1, true_and]
  · rw [if_neg hs]
    by_cases hsame : (e.track i).slot = (e.track j).slot
    · have hout : e.slot (e.track j).slot = {} := by
        have hsize : e.slots.size ≤ (e.track j).slot :=
          Nat.le_of_not_lt fun hlt => hs ⟨hsame, hlt⟩
        simp [slot, Array.getD_eq_getD_getElem?, hsize]
      rw [hout]
      split <;> rfl
    · rw [if_neg fun hboth => hsame hboth.1]

theorem pending_comm (first second : Bool) (pending voices more : VoiceSet) :
    (if second then (if first then pending ||| voices else pending) ||| more
      else if first then pending ||| voices else pending) =
        if first then (if second then pending ||| more else pending) ||| voices
        else if second then pending ||| more else pending := by
  cases first <;> cases second <;> simp only [Bool.false_eq_true, if_true, if_false]
  rw [BitVec.or_assoc, BitVec.or_comm voices, ← BitVec.or_assoc]

/-- Different tracks may be turned off in either order. -/
theorem turnOff_comm (e : Engine σ) {i j : Nat} (hij : i ≠ j) :
    (e.turnOff i).turnOff j = (e.turnOff j).turnOff i := by
  have htracks := congrArg Engine.tracks
    (modifyTrack_comm e hij Track.turnedOff Track.turnedOff)
  have hslots : (e.slots.modify (e.track i).slot (·.afterOff (e.track i) i)).modify
      (e.track j).slot (·.afterOff (e.track j) j) =
        (e.slots.modify (e.track j).slot (·.afterOff (e.track j) j)).modify
          (e.track i).slot (·.afterOff (e.track i) i) :=
    modify_comm_slot fun _ s => s.afterOff_comm _ _ i j
  rw [turnOff_eq_fields (e.turnOff i) j, turnOff_eq_fields (e.turnOff j) i,
    track_turnOff_of_ne e hij, track_turnOff_of_ne e hij.symm, ownedBy_turnOff, ownedBy_turnOff,
    endsNext_turnOff, endsNext_turnOff, turnOff_eq_fields e i, turnOff_eq_fields e j]
  dsimp only
  congr 1
  case e_voices =>
    cases (e.track i).lingers <;> cases (e.track j).lingers <;>
      simp only [Bool.false_eq_true, if_true, if_false]
    exact VoicePool.mute_comm _ _ _ i j
  case e_toRelease => exact pending_comm _ _ _ _ _
  case e_toMute => exact pending_comm _ _ _ _ _
  case e_tracksActive =>
    cases (e.track i).departs <;> cases (e.track j).departs <;> rfl
  case e_slotsActive =>
    -- on one slot it is the second track to leave, whichever it is, that may be the last
    have hends : ∀ s : Slot, (s.withoutTrack i).endsNext = (s.withoutTrack j).endsNext :=
      fun _ => rfl
    by_cases hs : (e.track i).slot = (e.track j).slot
    · rw [hs]
      cases (e.track i).departs <;> cases (e.track j).departs <;>
        simp [hends]
    · simp only [hs, Ne.symm hs, false_and, if_false]
      cases (e.track i).departs && (e.slot (e.track i).slot).endsNext <;>
        cases (e.track j).departs && (e.slot (e.track j).slot).endsNext <;> rfl

/-- A track that was turned off and is still in the pool may be turned off again. -/
theorem turnOff_turnOff {e : Engine σ} {i : Nat} (h : (e.track i).departs = false) :
    (e.turnOff i).turnOff i = e.turnOff i := by
  have htrack : (e.turnOff i).track i = (e.track i).turnedOff := by
    rw [track_turnOff]
    split
    · rfl
    · next hout =>
      -- an idle track would leave at once
      rw [track_of_size_le (Nat.le_of_not_lt fun hlt => hout ⟨rfl, hlt⟩)] at h
      cases h
  have htracks := congrArg Engine.tracks
    ((modifyTrack_modifyTrack e i Track.turnedOff Track.turnedOff).trans
      (congrArg (e.modifyTrack i) (funext Track.turnedOff_turnedOff)))
  have hslots := congrArg Engine.slots
    ((modifySlot_modifySlot e (e.track i).slot (·.afterOff (e.track i) i)
      (·.afterOff (e.track i).turnedOff i)).trans
        (congrArg (e.modifySlot _) (funext fun s => s.afterOff_afterOff h i)))
  rw [turnOff_eq_fields (e.turnOff i) i, htrack, ownedBy_turnOff, Track.slot_turnedOff,
    Track.departs_turnedOff, Track.lingers_turnedOff, h, turnOff_eq_fields e i, h]
  dsimp only
  congr 1
  case e_voices =>
    split
    · exact VoicePool.mute_mute _ _ _ i
    · rfl
  case e_toRelease =>
    split
    · rw [BitVec.or_assoc, BitVec.or_self]
    · rfl
  case e_toMute =>
    split
    · rw [BitVec.or_assoc, BitVec.or_self]
    · rfl

/-! ## Tracks of sequences -/

/-- Turns a track off that belongs to a sequence. -/
def dismiss (e : Engine σ) (i : Nat) : Engine σ := if (e.track i).isActive then e.turnOff i else e

theorem isActive_dismiss_of_ne (e : Engine σ) {i j : Nat} (hij : i ≠ j) :
    ((e.dismiss i).track j).isActive = (e.track j).isActive := by
  unfold dismiss
  split
  · rw [track_turnOff_of_ne e hij]
  · rfl

theorem dismiss_comm (e : Engine σ) (i j : Nat) :
    (e.dismiss i).dismiss j = (e.dismiss j).dismiss i := by
  by_cases hij : i = j
  · rw [hij]
  · have hlater : ∀ i j : Nat, i ≠ j → (e.dismiss i).dismiss j =
        if (e.track j).isActive then (e.dismiss i).turnOff j else e.dismiss i := by
      intro i j hij
      rw [← isActive_dismiss_of_ne e hij]
      rfl
    rw [hlater i j hij, hlater j i (Ne.symm hij)]
    unfold dismiss
    split <;> split
    · exact turnOff_comm e hij
    · rfl
    · rfl
    · rfl

/-- A track that is gone, or waits for its voices, or is held by a handle, is as little to be
turned off again as one that never was in the pool. -/
theorem dismiss_dismiss (e : Engine σ) (i : Nat) : (e.dismiss i).dismiss i = e.dismiss i := by
  by_cases hactive : (e.track i).isActive = true
  · have hoff : e.dismiss i = e.turnOff i := if_pos hactive
    rw [hoff]
    cases hdeparts : (e.track i).departs with
    | true =>
      refine if_neg ?_
      rw [track_turnOff, if_pos ⟨rfl, lt_size_of_isActive hactive⟩, Track.isActive_turnedOff,
        hdeparts, Bool.not_true, Bool.and_false]
      exact Bool.false_ne_true
    | false =>
      unfold dismiss
      rw [turnOff_turnOff hdeparts, ite_self]
  · have hidle : e.dismiss i = e := if_neg hactive
    rw [hidle, hidle]

theorem atHome_turnOff : AtHome (turnOff : Engine σ → Nat → Engine σ) where
  home e i j := by
    rw [track_turnOff]
    split
    · exact Track.slot_turnedOff _
    · rfl
  slot e i r hr := by rw [slot_turnOff, if_neg fun heq => hr heq.1]

/-- Different tracks of sequences that are turned off. -/
theorem foldl_turnOff_eq_dismiss : ∀ {l : List Nat} {e : Engine σ}, l.Nodup →
    (∀ i ∈ l, (e.track i).isActive = true) → l.foldl turnOff e = l.foldl dismiss e
  | [], _, _, _ => rfl
  | i :: l, e, hl, hactive => by
    obtain ⟨hnot, hrest⟩ := List.nodup_cons.mp hl
    have hi : e.dismiss i = e.turnOff i := if_pos (hactive i List.mem_cons_self)
    rw [List.foldl_cons, List.foldl_cons, hi]
    refine foldl_turnOff_eq_dismiss hrest fun j hj => ?_
    have hij : i ≠ j := by
      rintro rfl
      exact hnot hj
    rw [track_turnOff_of_ne e hij]
    exact hactive j (List.mem_cons_of_mem i hj)

/-! ### What is left alone -/

theorem voice_turnOff (e : Engine σ) (i v : Nat)
    (h : (e.voice v).active = true → (e.voice v).track ≠ i) :
    (e.turnOff i).voice v = e.voice v := by
  unfold voice
  rw [voices_turnOff]
  split
  · by_cases hv : v < e.voices.limit
    · rw [VoicePool.mute, VoicePool.voice_update _ _ _ _ hv, if_neg]
      simp only [Voice.ownedBy, Bool.and_eq_true, beq_iff_eq]
      exact fun hown => h hown.1 hown.2
    · have hout : (e.voices.mute i (Voice.muteReleaseTime e.muteRate) e.clock.ms).limit ≤ v := by
        rw [VoicePool.mute, VoicePool.limit_update]
        exact Nat.le_of_not_lt hv
      have hout' : e.voices.limit ≤ v := Nat.le_of_not_lt hv
      unfold VoicePool.limit at hout hout'
      simp [VoicePool.voice, Array.getD_eq_getD_getElem?, hout, hout']
  · rfl

/-- Tracks, slots and voices that are not of the tracks `l` are the same. -/
structure Beside (l : List Nat) (e e' : Engine σ) : Prop where
  track : ∀ i, i ∉ l → e'.track i = e.track i
  slot : ∀ s, (∀ i ∈ l, (e.track i).slot ≠ s) → e'.slot s = e.slot s
  voice : ∀ v, ((e.voice v).active = true → (e.voice v).track ∉ l) → e'.voice v = e.voice v

theorem beside_dismiss (e : Engine σ) (i : Nat) : Beside [i] e (e.dismiss i) := by
  unfold dismiss
  split
  · refine ⟨fun j hj => ?_, fun s hs => ?_, fun v hv => ?_⟩
    · exact track_turnOff_of_ne e fun heq => hj (List.mem_singleton.mpr heq.symm)
    · exact atHome_turnOff.slot e i s (hs i List.mem_cons_self)
    · exact voice_turnOff e i v fun hactive heq => hv hactive (List.mem_singleton.mpr heq)
  · exact ⟨fun _ _ => rfl, fun _ _ => rfl, fun _ _ => rfl⟩

theorem beside_foldl : ∀ (l : List Nat) (e : Engine σ), Beside l e (l.foldl dismiss e)
  | [], _ => ⟨fun _ _ => rfl, fun _ _ => rfl, fun _ _ => rfl⟩
  | i :: l, e => by
    have hfirst := beside_dismiss e i
    have hrest := beside_foldl l (e.dismiss i)
    have hhome : ∀ j, ((e.dismiss i).track j).slot = (e.track j).slot := by
      intro j
      unfold dismiss
      split
      · exact atHome_turnOff.home e i j
      · rfl
    refine ⟨fun j hj => ?_, fun s hs => ?_, fun v hv => ?_⟩
    · rw [List.mem_cons, not_or] at hj
      rw [List.foldl_cons, hrest.track j hj.2,
        hfirst.track j fun hmem => hj.1 (List.mem_singleton.mp hmem)]
    · rw [List.foldl_cons, hrest.slot s fun j hj => by
          rw [hhome]; exact hs j (List.mem_cons_of_mem i hj),
        hfirst.slot s fun j hj => hs j (List.mem_singleton.mp hj ▸ List.mem_cons_self)]
    · have hv' := hfirst.voice v fun hactive hmem =>
        hv hactive (List.mem_singleton.mp hmem ▸ List.mem_cons_self)
      rw [List.foldl_cons, hrest.voice v fun hactive hmem => ?_, hv']
      rw [hv'] at hactive hmem
      exact hv hactive (List.mem_cons_of_mem i hmem)

end Engine

/-! ## Calls -/

/-- A call that ends sequences. -/
inductive Stop where
  | sequence (sequence : Nat)
  | tagged (tag : UInt32)
  | all
  deriving Repr, DecidableEq

/-- Whether a call is for a slot, if that is in use. -/
def Stop.isFor : Stop → Slot → Bool
  | .sequence q, s => s.sequence == q
  | .tagged t, s => s.tag == t
  | .all, _ => true

theorem Stop.isFor_congr (c : Stop) {s s' : Slot} (hsequence : s'.sequence = s.sequence)
    (htag : s'.tag = s.tag) : c.isFor s' = c.isFor s := by
  cases c with
  | sequence q => rw [isFor, isFor, hsequence]
  | tagged t => rw [isFor, isFor, htag]
  | all => rfl

namespace Engine

variable {σ : Type}

/-- Makes one call. -/
def halt (e : Engine σ) : Stop → Engine σ
  | .sequence sequence => e.stop sequence
  | .tagged tag => e.stopTagged tag
  | .all => e.stopAll

/-- Makes several calls, one after the other. -/
def halts (e : Engine σ) (calls : List Stop) : Engine σ := calls.foldl halt e

theorem halt_eq (e : Engine σ) (c : Stop) : e.halt c = e.forTracksWhere c.isFor turnOff := by
  cases c <;> rfl

/-- Some tracks of sequences have been turned off in `e'`, no sequence has started. -/
structure Dismissed (e e' : Engine σ) : Prop where
  agree : e'.PoolsAgree
  module : e'.module = e.module
  home : ∀ i, (e'.track i).slot = (e.track i).slot
  active : ∀ i, (e'.track i).isActive = true → (e.track i).isActive = true
  sequence : ∀ s, (e'.slot s).sequence = (e.slot s).sequence
  tag : ∀ s, (e'.slot s).tag = (e.slot s).tag

namespace Dismissed

variable {e e' : Engine σ}

theorem dismiss (h : Dismissed e e') (i : Nat) : Dismissed e (e'.dismiss i) := by
  unfold Engine.dismiss
  split
  · next hi =>
    have hslot : ∀ s, ((e'.turnOff i).slot s).sequence = (e'.slot s).sequence ∧
        ((e'.turnOff i).slot s).tag = (e'.slot s).tag := by
      intro s
      rw [slot_turnOff]
      split
      · unfold Slot.afterOff Slot.quieted
        split <;> split <;> (try split) <;> exact ⟨rfl, rfl⟩
      · exact ⟨rfl, rfl⟩
    refine ⟨h.agree.turnOff hi, ?_, fun j => (atHome_turnOff.home e' i j).trans (h.home j),
      fun j hj => h.active j ?_, fun s => (hslot s).1.trans (h.sequence s),
      fun s => (hslot s).2.trans (h.tag s)⟩
    · rw [turnOff_eq_fields]
      exact h.module
    · rw [track_turnOff] at hj
      split at hj
      · rw [Track.isActive_turnedOff, Bool.and_eq_true] at hj
        exact hj.1
      · exact hj
  · exact h

theorem foldl (h : Dismissed e e') (l : List Nat) :
    Dismissed e (l.foldl Engine.dismiss e') :=
  foldl_keeps (fun _ e' => Dismissed e e') (fun i _ _ h => h.dismiss i) l e' h

/-- A call that comes later turns off those tracks that it would have turned off at first: any
that it no longer reaches are gone. -/
theorem halt (h : Dismissed e e') (he : e.PoolsAgree)
    (hwide : e.module.widestSequence ≤ maxTracksPerSequence) (c : Stop) :
    e'.halt c = (e.reach c.isFor).foldl Engine.dismiss e' := by
  have hwide' : e'.module.widestSequence ≤ maxTracksPerSequence := by rwa [h.module]
  have hturns : e'.halt c = (e'.reach c.isFor).foldl Engine.dismiss e' := by
    rw [halt_eq, atHome_turnOff.forTracksWhere_eq h.agree.toPlaced]
    exact foldl_turnOff_eq_dismiss (h.agree.nodup_reach hwide' _)
      fun i hi => ((h.agree.mem_reach hwide').mp hi).1
  have hgone : (e'.reach c.isFor).foldl Engine.dismiss e' =
      ((e.reach c.isFor).filter (fun i => !(e'.track i).isActive) ++ e'.reach c.isFor).foldl
        Engine.dismiss e' := by
    have hidle : ((e.reach c.isFor).filter fun i => !(e'.track i).isActive).foldl
        Engine.dismiss e' = e' :=
      foldl_idle fun i hi => if_neg (by simpa using (List.mem_filter.mp hi).2)
    rw [List.foldl_append, hidle]
  rw [hturns, hgone]
  refine foldl_eq_of_mem_iff dismiss_comm dismiss_dismiss (fun i => ?_) e'
  have hfor : c.isFor (e'.slot (e'.track i).slot) = c.isFor (e.slot (e.track i).slot) := by
    rw [h.home]
    exact c.isFor_congr (h.sequence _) (h.tag _)
  rw [List.mem_append, List.mem_filter, he.mem_reach hwide, h.agree.mem_reach hwide', hfor]
  constructor
  · rintro (⟨hreached, -⟩ | ⟨hactive, hreached⟩)
    · exact hreached
    · exact ⟨h.active i hactive, hreached⟩
  · rintro ⟨hactive, hreached⟩
    cases hstays : (e'.track i).isActive with
    | false => exact .inl ⟨⟨hactive, hreached⟩, rfl⟩
    | true => exact .inr ⟨rfl, hreached⟩

end Dismissed

/-- Several calls turn off the tracks that they would reach if each were the first. -/
theorem halts_eq {e : Engine σ} (h : e.PoolsAgree)
    (hwide : e.module.widestSequence ≤ maxTracksPerSequence) (calls : List Stop) :
    e.halts calls = (calls.flatMap fun c => e.reach c.isFor).foldl dismiss e := by
  have hcalls : ∀ (calls : List Stop) (e' : Engine σ), Dismissed e e' →
      calls.foldl halt e' = (calls.flatMap fun c => e.reach c.isFor).foldl dismiss e' := by
    intro calls
    induction calls with
    | nil => exact fun _ _ => rfl
    | cons c calls ih =>
      intro e' h'
      rw [List.foldl_cons, List.flatMap_cons, List.foldl_append, h'.halt h hwide]
      exact ih _ (h'.foldl _)
  exact hcalls calls e ⟨h, rfl, fun _ => rfl, fun _ => id, fun _ => rfl, fun _ => rfl⟩

/-- Whether one of the calls is for slot `s`, which is in use. -/
def Meets (e : Engine σ) (calls : List Stop) (s : Nat) : Prop :=
  (e.slot s).active = true ∧ ∃ c ∈ calls, c.isFor (e.slot s) = true

/-- What several calls do is up to the slots that they meet. -/
structure StopsAsSet (e : Engine σ) (calls : List Stop) : Prop where
  /-- Calls that meet the same slots lead to the same engine. -/
  met : ∀ calls', (∀ s, e.Meets calls' s ↔ e.Meets calls s) → e.halts calls' = e.halts calls
  /-- So do the same calls in another order, or made more often. -/
  members : ∀ calls', (∀ c, c ∈ calls' ↔ c ∈ calls) → e.halts calls' = e.halts calls
  /-- Slots that are not met stay as they are, and so do their tracks and the voices of
  those. -/
  slots : ∀ s, ¬ e.Meets calls s → (e.halts calls).slot s = e.slot s
  tracks : ∀ i, ((e.track i).isActive = true → ¬ e.Meets calls (e.track i).slot) →
    (e.halts calls).track i = e.track i
  voices : ∀ v, ((e.voice v).active = true →
    ¬ e.Meets calls (e.track (e.voice v).track).slot) → (e.halts calls).voice v = e.voice v

/-- Calls that end sequences, with no tick between them, may be made in any order and any number
of times: what comes of them depends on nothing but which slots in use one of them is for, and
all other slots play on. -/
theorem halts_asSet {e : Engine σ} (h : e.WellFormed) (haccepted : e.module.flaw? = none)
    (calls : List Stop) : e.StopsAsSet calls := by
  have hwide := (SoundModule.flaw?_eq_none_iff.mp haccepted).widestSequence_le
  have hreached : ∀ (calls : List Stop) (i : Nat),
      i ∈ (calls.flatMap fun c => e.reach c.isFor) ↔
        (e.track i).isActive = true ∧ e.Meets calls (e.track i).slot := by
    intro calls i
    simp only [List.mem_flatMap, h.agree.mem_reach hwide, Meets]
    constructor
    · rintro ⟨c, hc, hi, hfor⟩
      exact ⟨hi, (h.agree.home i hi).1, c, hc, hfor⟩
    · rintro ⟨hi, -, c, hc, hfor⟩
      exact ⟨c, hc, hi, hfor⟩
  have hmet : ∀ calls', (∀ s, e.Meets calls' s ↔ e.Meets calls s) →
      e.halts calls' = e.halts calls := by
    intro calls' hsame
    rw [halts_eq h.agree hwide, halts_eq h.agree hwide]
    refine foldl_eq_of_mem_iff dismiss_comm dismiss_dismiss (fun i => ?_) e
    rw [hreached, hreached, hsame]
  have hbeside : Beside (calls.flatMap fun c => e.reach c.isFor) e (e.halts calls) :=
    halts_eq h.agree hwide calls ▸ beside_foldl _ e
  refine ⟨hmet, fun calls' hsame => hmet calls' fun s => ?_, fun s hs => ?_, fun i hi => ?_,
    fun v hv => ?_⟩
  · simp only [Meets, hsame]
  · refine hbeside.slot s fun i hi heq => hs ?_
    rw [← heq]
    exact ((hreached calls i).mp hi).2
  · refine hbeside.track i fun hmem => ?_
    obtain ⟨hactive, hmeets⟩ := (hreached calls i).mp hmem
    exact hi hactive hmeets
  · exact hbeside.voice v fun hactive hmem => hv hactive ((hreached calls _).mp hmem).2

end Engine

open Engine

/-- The engine in which a sequence plays, one of its tracks with a note, beside another that
waits for its handle. -/
def Engine.withHandle (e : Engine RecorderChip) : Engine RecorderChip :=
  (Session.run { engine := e } [.start 0 {}, .start 0 { tag := 7, handled := true }, .tick]).engine

/-- Three calls reach a track that sounds, one that is silent and two that a handle holds. -/
theorem halts_asSet_trio : ∃ e : Engine RecorderChip,
    Engine.make trio {} = .ok e ∧ e.withHandle.voices.active = 1 ∧
      (e.withHandle.slot 0).trackList = [0, 1, 2] ∧ (e.withHandle.slot 1).trackList = [3, 4] ∧
      ((e.withHandle.halts [.sequence 0, .tagged 7, .all]).slot 0).trackList = [0] ∧
      ((e.withHandle.halts [.sequence 0, .tagged 7, .all]).slot 1).trackList = [3, 4] ∧
      e.withHandle.StopsAsSet [.sequence 0, .tagged 7, .all] := by
  obtain ⟨e, hmake, hsounds, htracks, hheld, hleft, hstill, haccepted⟩ :
      ∃ e : Engine RecorderChip, Engine.make trio {} = .ok e ∧
        e.withHandle.voices.active = 1 ∧ (e.withHandle.slot 0).trackList = [0, 1, 2] ∧
        (e.withHandle.slot 1).trackList = [3, 4] ∧
        ((e.withHandle.halts [.sequence 0, .tagged 7, .all]).slot 0).trackList = [0] ∧
        ((e.withHandle.halts [.sequence 0, .tagged 7, .all]).slot 1).trackList = [3, 4] ∧
        e.withHandle.module.flaw? = none :=
    exists_make (by decide +kernel)
  have hform : e.withHandle.WellFormed := (@wellFormed_throughout _ _ _ _ _ hmake
    [.start 0 {}, .start 0 { tag := 7, handled := true }, .tick]
    ⟨trivial, trivial, trivial, trivial⟩).last
  exact ⟨e, hmake, hsounds, htracks, hheld, hleft, hstill, halts_asSet hform haccepted _⟩

end SoundSequencer
