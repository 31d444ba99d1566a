/-
SoundSequencer.Proofs.Places — tracks and slots that know of each other.

* `Slot.entry` is the track at a position of a slot; `Slot.entries` and
  `Engine.playingOn` count the tracks of a slot and those that are not paused.
* `Engine.Placed` says that tracks and slots point at each other and that all
  counts are right. `Slot.Lively` says of a slot in use that it has a track
  and that its mode tells whether one plays.
* `Placed.replay` is what pausing a track, letting it go on and turning it
  off have in common; `Placed.leavePool` takes a track out.
-/
import SoundSequencer.Proofs.Ownership

namespace SoundSequencer

/-! ## Entries -/

namespace Slot

/-- The track at a position. -/
def entry (s : Slot) (p : Nat) : Option Nat := s.tracks.getD p none

/-- The number of tracks. -/
def entries (s : Slot) : Nat := (List.range s.tracks.size).countP fun p => (s.entry p).isSome

theorem lt_size_of_entry {s : Slot} {p i : Nat} (h : s.entry p = some i) :
    p < s.tracks.size := by
  by_contra hp
  simp [entry, Array.getD_eq_getD_getElem?, hp] at h

theorem mem_trackIds {s : Slot} {i : Nat} : i ∈ s.trackIds ↔ ∃ p, s.entry p = some i := by
  simp only [trackIds, List.mem_filterMap, id_eq, exists_eq_right, Array.mem_toList_iff]
  constructor
  · intro h
    obtain ⟨p, hp, hget⟩ := Array.mem_iff_getElem.mp h
    exact ⟨p, by simp [entry, Array.getD_eq_getD_getElem?, hp, hget]⟩
  · rintro ⟨p, h⟩
    have hp := lt_size_of_entry h
    simp only [entry, Array.getD_eq_getD_getElem?, hp, Array.getElem?_eq_getElem,
      Option.getD_some] at h
    exact Array.mem_iff_getElem.mpr ⟨p, hp, h⟩

/-- Where no track has two positions, all that are listed are different. -/
theorem nodup_trackList {s : Slot}
    (h : ∀ p q i, s.entry p = some i → s.entry q = some i → p = q) : s.trackList.Nodup := by
  refine List.Nodup.sublist (List.take_sublist _ _) ?_
  unfold trackIds
  rw [List.Nodup, List.pairwise_filterMap, List.pairwise_iff_getElem]
  intro p q hp hq hpq i hi j hj hij
  have hentry : ∀ r (hr : r < s.tracks.toList.length), s.entry r = s.tracks.toList[r] := by
    intro r hr
    have hr' : r < s.tracks.size := by simpa using hr
    simp [entry, Array.getD_eq_getD_getElem?, hr']
  have hplace := h p q i ((hentry p hp).trans hi) ((hentry q hq).trans (hij ▸ hj))
  omega

theorem entry_withoutTrack (s : Slot) (i p : Nat) :
    (s.withoutTrack i).entry p = if s.entry p = some i then none else s.entry p := by
  by_cases hp : p < s.tracks.size
  · simp [entry, withoutTrack, dropTrack, Array.getD_eq_getD_getElem?, hp]
  · simp [entry, withoutTrack, dropTrack, Array.getD_eq_getD_getElem?, hp]

theorem entry_cleared (s : Slot) (p : Nat) : s.cleared.entry p = none := by
  by_cases hp : p < s.tracks.size
  · simp [entry, cleared, Array.getD_eq_getD_getElem?, hp]
  · simp [entry, cleared, Array.getD_eq_getD_getElem?, hp]

/-- Without a track that stands at one position only, a slot has one less. -/
theorem entries_withoutTrack {s : Slot} {i p : Nat} (hp : s.entry p = some i)
    (hone : ∀ q, s.entry q = some i → q = p) :
    s.entries = (s.withoutTrack i).entries + 1 := by
  have hsize : (s.withoutTrack i).tracks.size = s.tracks.size := by
    simp [withoutTrack, dropTrack]
  unfold entries
  rw [hsize]
  refine countP_range_add_one (lt_size_of_entry hp) ?_ ?_ fun q hq => ?_
  · rw [entry_withoutTrack, if_pos hp]
    rfl
  · rw [hp]
    rfl
  · rw [entry_withoutTrack, if_neg fun hqi => hq (hone q hqi)]

theorem entries_pos {s : Slot} {p i : Nat} (h : s.entry p = some i) : 0 < s.entries := by
  rw [entries, List.countP_pos_iff]
  exact ⟨p, List.mem_range.mpr (lt_size_of_entry h), by rw [h]; rfl⟩

/-- A slot in use has a track, and its mode tells whether one plays. -/
def Lively (s : Slot) : Prop :=
  s.active = true → 1 ≤ s.tracksActive ∧ (s.mode = .playing ↔ 0 < s.tracksPlaying)

/-- The slot as far as its tracks point at it. -/
def desk (s : Slot) := (s.active, s.sequence, s.tracksActive, s.tracks)

end Slot

/-- The track as far as its slot points at it. -/
def Track.seat (t : Track) := (t.isActive, t.slot, t.sequence, t.position)

namespace Engine

variable {σ : Type}

/-! ## The invariant -/

/-- Whether slot `s` has a track at a position that is not paused. -/
def playsAt (e : Engine σ) (s p : Nat) : Bool :=
  ((e.slot s).entry p).any fun i => !(e.track i).isStopped

/-- The number of tracks of slot `s` that are not paused. -/
def playingOn (e : Engine σ) (s : Nat) : Nat :=
  (List.range (e.slot s).tracks.size).countP (e.playsAt s)

/-- Tracks and slots point at each other, and all counts are right. -/
structure Placed (e : Engine σ) : Prop where
  home : ∀ i, (e.track i).isActive = true →
    (e.slot (e.track i).slot).active = true ∧
      (e.slot (e.track i).slot).entry (e.track i).position = some i ∧
      (e.slot (e.track i).slot).sequence = (e.track i).sequence
  entry : ∀ s p i, (e.slot s).entry p = some i →
    (e.slot s).active = true ∧ (e.track i).isActive = true ∧ (e.track i).slot = s ∧
      (e.track i).position = p
  entries : ∀ s, (e.slot s).active = true → (e.slot s).tracksActive = (e.slot s).entries
  playing : ∀ s, (e.slot s).active = true → (e.slot s).tracksPlaying = e.playingOn s
  tracks : e.tracksActive =
    (List.range e.tracks.size).countP fun i => (e.track i).isActive
  slots : e.slotsActive = (List.range e.slots.size).countP fun s => (e.slot s).active
  wide : ∀ s, s < e.slots.size → (e.slot s).tracks.size = e.module.widestSequence

theorem lt_size_of_active {e : Engine σ} {s : Nat} (h : (e.slot s).active = true) :
    s < e.slots.size := by
  by_contra hs
  simp [slot, Array.getD_eq_getD_getElem?, hs] at h

/-- No sequence has more tracks than a command for it reaches. -/
theorem Placed.trackList_eq {e : Engine σ} (h : e.Placed)
    (hwide : e.module.widestSequence ≤ maxTracksPerSequence) {s : Nat}
    (hs : (e.slot s).active = true) : (e.slot s).trackList = (e.slot s).trackIds := by
  refine List.take_of_length_le (Nat.le_trans (List.length_filterMap_le _ _) ?_)
  rw [Array.length_toList, h.wide _ (lt_size_of_active hs)]
  exact hwide

/-- A track of the pool that does not stand still plays on its slot. -/
theorem Placed.playing_pos {e : Engine σ} (h : e.Placed) {i : Nat}
    (hi : (e.track i).isActive = true) (hrun : (e.track i).isStopped = false) :
    0 < (e.slot (e.track i).slot).tracksPlaying := by
  obtain ⟨hactive, hentry, -⟩ := h.home i hi
  rw [h.playing _ hactive, playingOn, List.countP_pos_iff]
  refine ⟨(e.track i).position, List.mem_range.mpr (Slot.lt_size_of_entry hentry), ?_⟩
  simp [playsAt, hentry, hrun]

/-- A slot that lists a track has it as a track of its own. -/
theorem Placed.of_mem {e : Engine σ} (h : e.Placed) {s i : Nat}
    (hi : i ∈ (e.slot s).trackIds) : (e.track i).isActive = true ∧ (e.track i).slot = s := by
  obtain ⟨p, hp⟩ := Slot.mem_trackIds.mp hi
  obtain ⟨-, hactive, hslot, -⟩ := h.entry s p i hp
  exact ⟨hactive, hslot⟩

theorem Placed.of_lists {e : Engine σ} (h : e.Placed) {s i : Nat} (hi : e.Lists s i) :
    (e.track i).isActive = true ∧ (e.track i).slot = s := h.of_mem hi.2

/-! ## What leaves links alone -/

/-- Tracks and slots point at each other as before. -/
structure SameLinks (e e' : Engine σ) : Prop where
  module : e'.module = e.module
  tracks_size : e'.tracks.size = e.tracks.size
  slots_size : e'.slots.size = e.slots.size
  seat : ∀ i, (e'.track i).seat = (e.track i).seat
  desk : ∀ s, (e'.slot s).desk = (e.slot s).desk
  tracksActive : e'.tracksActive = e.tracksActive
  slotsActive : e'.slotsActive = e.slotsActive

namespace SameLinks

variable {e e' : Engine σ}

theorem trans {e'' : Engine σ} (h : SameLinks e e') (h' : SameLinks e' e'') :
    SameLinks e e'' where
  module := h'.module.trans h.module
  tracks_size := h'.tracks_size.trans h.tracks_size
  slots_size := h'.slots_size.trans h.slots_size
  seat i := (h'.seat i).trans (h.seat i)
  desk s := (h'.desk s).trans (h.desk s)
  tracksActive := h'.tracksActive.trans h.tracksActive
  slotsActive := h'.slotsActive.trans h.slotsActive

theorem isActive (h : SameLinks e e') (i : Nat) : (e'.track i).isActive = (e.track i).isActive :=
  congrArg (·.1) (h.seat i)

theorem home (h : SameLinks e e') (i : Nat) : (e'.track i).slot = (e.track i).slot :=
  congrArg (·.2.1) (h.seat i)

theorem active (h : SameLinks e e') (s : Nat) : (e'.slot s).active = (e.slot s).active :=
  congrArg (·.1) (h.desk s)

theorem tracks (h : SameLinks e e') (s : Nat) : (e'.slot s).tracks = (e.slot s).tracks :=
  congrArg (·.2.2.2) (h.desk s)

theorem entry (h : SameLinks e e') (s p : Nat) : (e'.slot s).entry p = (e.slot s).entry p := by
  unfold Slot.entry
  rw [h.tracks]

/-- Where links are the same, only the count of playing tracks is left to check. -/
theorem placed (h : SameLinks e e') (he : e.Placed)
    (hplaying : ∀ s, (e.slot s).active = true → (e'.slot s).tracksPlaying = e'.playingOn s) :
    e'.Placed where
  home i hi := by
    have hsequence : (e'.track i).sequence = (e.track i).sequence :=
      congrArg (·.2.2.1) (h.seat i)
    have hposition : (e'.track i).position = (e.track i).position :=
      congrArg (·.2.2.2) (h.seat i)
    have hslot : (e'.slot (e.track i).slot).sequence = (e.slot (e.track i).slot).sequence :=
      congrArg (·.2.1) (h.desk _)
    rw [h.isActive] at hi
    rw [h.home, h.active, h.entry, hposition, hsequence, hslot]
    exact he.home i hi
  entry s p i hentry := by
    have hposition : (e'.track i).position = (e.track i).position :=
      congrArg (·.2.2.2) (h.seat i)
    rw [h.entry] at hentry
    rw [h.active, h.isActive, h.home, hposition]
    exact he.entry s p i hentry
  entries s hs := by
    have hcount : (e'.slot s).tracksActive = (e.slot s).tracksActive :=
      congrArg (·.2.2.1) (h.desk s)
    rw [h.active] at hs
    rw [hcount, he.entries s hs]
    simp only [Slot.entries, h.tracks, h.entry]
  playing s hs := hplaying s (by rwa [h.active] at hs)
  tracks := by
    rw [h.tracksActive, h.tracks_size, he.tracks]
    simp only [h.isActive]
  slots := by
    rw [h.slotsActive, h.slots_size, he.slots]
    simp only [h.active]
  wide s hs := by
    rw [h.slots_size] at hs
    rw [h.tracks, h.module]
    exact he.wide s hs

end SameLinks

/-- Links are the same, the same tracks stand still and slots know of it. -/
structure SamePlaces (e e' : Engine σ) : Prop extends SameLinks e e' where
  isStopped : ∀ i, (e'.track i).isStopped = (e.track i).isStopped
  tracksPlaying : ∀ s, (e'.slot s).tracksPlaying = (e.slot s).tracksPlaying
  mode : ∀ s, (e'.slot s).mode = (e.slot s).mode

namespace SamePlaces

variable {e e' : Engine σ}

theorem trans {e'' : Engine σ} (h : SamePlaces e e') (h' : SamePlaces e' e'') :
    SamePlaces e e'' where
  toSameLinks := h.toSameLinks.trans h'.toSameLinks
  isStopped i := (h'.isStopped i).trans (h.isStopped i)
  tracksPlaying s := (h'.tracksPlaying s).trans (h.tracksPlaying s)
  mode s := (h'.mode s).trans (h.mode s)

theorem playingOn (h : SamePlaces e e') (s : Nat) : e'.playingOn s = e.playingOn s := by
  have hplays : e'.playsAt s = e.playsAt s := by
    funext p
    simp only [playsAt, h.entry, h.isStopped]
  rw [Engine.playingOn, Engine.playingOn, h.tracks, hplays]

theorem placed (h : SamePlaces e e') (he : e.Placed) : e'.Placed :=
  h.toSameLinks.placed he fun s hs => by rw [h.tracksPlaying, h.playingOn, he.playing s hs]

theorem lively (h : SamePlaces e e') {s : Nat} (hs : (e.slot s).Lively) :
    (e'.slot s).Lively := by
  have hcount : (e'.slot s).tracksActive = (e.slot s).tracksActive :=
    congrArg (·.2.2.1) (h.desk s)
  unfold Slot.Lively
  rwa [h.active, hcount, h.mode, h.tracksPlaying]

end SamePlaces

theorem samePlaces_modifyTrack (e : Engine σ) (i : Nat) {f : Track → Track}
    (hf : ∀ t, (f t).seat = t.seat) (hstop : ∀ t, (f t).isStopped = t.isStopped) :
    SamePlaces e (e.modifyTrack i f) where
  module := rfl
  tracks_size := by simp [modifyTrack]
  slots_size := rfl
  seat j := by rw [track_modifyTrack]; split <;> simp only [hf]
  desk _ := rfl
  tracksActive := rfl
  slotsActive := rfl
  isStopped j := by rw [track_modifyTrack]; split <;> simp only [hstop]
  tracksPlaying _ := rfl
  mode _ := rfl

/-! ## Pausing, going on, waiting -/

/-- Where a track alone is paused or goes on, and its slot keeps count of it, every
count stays right. -/
theorem Placed.replay {e e' : Engine σ} (h : e.Placed) (hlinks : SameLinks e e') {i : Nat}
    (hi : (e.track i).isActive = true)
    (htrack : ∀ j, i ≠ j → (e'.track j).isStopped = (e.track j).isStopped)
    (hslot : ∀ s, (e.track i).slot ≠ s →
      (e'.slot s).tracksPlaying = (e.slot s).tracksPlaying)
    (hcount : (e'.slot (e.track i).slot).tracksPlaying +
        (if (e'.track i).isStopped then 1 else 0) =
      (e.slot (e.track i).slot).tracksPlaying + (if (e.track i).isStopped then 1 else 0)) :
    e'.Placed := by
  obtain ⟨hactive, hentry, -⟩ := h.home i hi
  refine hlinks.placed h fun s hs => ?_
  -- only the track's own entry can count otherwise than before
  have hother : ∀ p, ¬ ((e.track i).slot = s ∧ (e.track i).position = p) →
      e'.playsAt s p = e.playsAt s p := by
    intro p hp
    unfold playsAt
    rw [hlinks.entry]
    cases hentry' : (e.slot s).entry p with
    | none => rfl
    | some j =>
      have hij : i ≠ j := by
        rintro rfl
        exact hp (h.entry s p i hentry').2.2
      simp only [Option.any_some, htrack j hij]
  rw [playingOn, hlinks.tracks]
  by_cases hs' : (e.track i).slot = s
  · subst hs'
    have hflip := countP_range_flip (Slot.lt_size_of_entry hentry)
      fun p hp => hother p fun hboth => hp hboth.2.symm
    have hold : e.playsAt (e.track i).slot (e.track i).position = !(e.track i).isStopped := by
      rw [playsAt, hentry, Option.any_some]
    have hnew : e'.playsAt (e.track i).slot (e.track i).position = !(e'.track i).isStopped := by
      rw [playsAt, hlinks.entry, hentry, Option.any_some]
    rw [← playingOn, ← h.playing _ hactive, hold, hnew] at hflip
    simp only [Bool.not_eq_true'] at hflip
    cases hstop : (e.track i).isStopped <;> cases hstop' : (e'.track i).isStopped <;>
      simp [hstop, hstop'] at hflip hcount <;> omega
  · rw [hslot s hs', h.playing s hs]
    exact (countP_range_congr fun p _ => hother p fun hboth => hs' hboth.1).symm

/-- Tracks and slots agree: they point at each other, all counts are right, a slot in
use has a track, and its mode tells whether one plays. -/
structure PoolsAgree (e : Engine σ) : Prop extends Placed e where
  lively : ∀ s, (e.slot s).Lively

theorem SamePlaces.agree {e e' : Engine σ} (h : SamePlaces e e') (he : e.PoolsAgree) :
    e'.PoolsAgree :=
  ⟨h.placed he.toPlaced, fun s => h.lively (he.lively s)⟩

/-- A change of a track and of its slot that leaves them in place and keeps count. -/
theorem PoolsAgree.modify {e : Engine σ} (h : e.PoolsAgree) {i : Nat}
    (hi : (e.track i).isActive = true) {f : Track → Track} {g : Slot → Slot}
    (hf : ∀ t, (f t).seat = t.seat) (hg : ∀ s, (g s).desk = s.desk)
    (hcount : (g (e.slot (e.track i).slot)).tracksPlaying +
        (if (f (e.track i)).isStopped then 1 else 0) =
      (e.slot (e.track i).slot).tracksPlaying + (if (e.track i).isStopped then 1 else 0))
    (hmode : (g (e.slot (e.track i).slot)).mode = .playing ↔
      0 < (g (e.slot (e.track i).slot)).tracksPlaying) :
    ((e.modifyTrack i f).modifySlot (e.track i).slot g).PoolsAgree := by
  obtain ⟨hactive, -⟩ := h.home i hi
  have htrack : ((e.modifyTrack i f).modifySlot (e.track i).slot g).track i = f (e.track i) := by
    rw [track_modifySlot, track_modifyTrack, if_pos ⟨rfl, lt_size_of_isActive hi⟩]
  have hslot : ((e.modifyTrack i f).modifySlot (e.track i).slot g).slot (e.track i).slot =
      g (e.slot (e.track i).slot) := by
    rw [slot_modifySlot, slot_modifyTrack, if_pos ⟨rfl, lt_size_of_active hactive⟩]
  have hslots : ∀ s, (e.track i).slot ≠ s →
      ((e.modifyTrack i f).modifySlot (e.track i).slot g).slot s = e.slot s := by
    intro s hs
    rw [slot_modifySlot, slot_modifyTrack, if_neg fun hp => hs hp.1]
  have hlinks : SameLinks e ((e.modifyTrack i f).modifySlot (e.track i).slot g) :=
    { module := rfl
      tracks_size := by simp [modifyTrack, modifySlot]
      slots_size := by simp [modifyTrack, modifySlot]
      seat := fun j => by
        rw [track_modifySlot, track_modifyTrack]
        split <;> simp only [hf]
      desk := fun s => by
        rw [slot_modifySlot, slot_modifyTrack]
        split <;> simp only [hg]
      tracksActive := rfl
      slotsActive := rfl }
  refine ⟨h.replay hlinks hi (fun j hij => ?_) (fun s hs => ?_) ?_, fun s => ?_⟩
  · rw [track_modifySlot, track_modifyTrack, if_neg fun hp => hij hp.1]
  · rw [hslots s hs]
  · rw [hslot, htrack]
    exact hcount
  · by_cases hs : (e.track i).slot = s
    · subst hs
      rw [hslot]
      intro _
      have hbusy := (h.lively (e.track i).slot hactive).1
      have hdesk : (g (e.slot (e.track i).slot)).tracksActive =
          (e.slot (e.track i).slot).tracksActive := congrArg (·.2.2.1) (hg _)
      exact ⟨by rwa [hdesk], hmode⟩
    · rw [hslots s hs]
      exact h.lively s

/-- A track that plays no longer, and its slot with a playing track less. -/
theorem PoolsAgree.standStill {e : Engine σ} (h : e.PoolsAgree) {i : Nat}
    (hi : (e.track i).isActive = true) (hrun : (e.track i).isStopped = false)
    {f : Track → Track} (hf : ∀ t, (f t).seat = t.seat) (hstop : ∀ t, (f t).isStopped = true) :
    ((e.modifyTrack i f).modifySlot (e.track i).slot Slot.stopped).PoolsAgree := by
  have hplays := h.playing_pos hi hrun
  have hmode := ((h.lively _ (h.home i hi).1).2).mpr hplays
  refine h.modify hi hf (fun _ => rfl) ?_ ?_
  · rw [hrun, hstop]
    simp only [Slot.stopped, if_true, Bool.false_eq_true, if_false]
    omega
  · simp only [Slot.stopped, hmode]
    split
    · next hzero => simp [hzero]
    · next hmore => simp only [true_iff]; omega

theorem PoolsAgree.pauseTrack {e : Engine σ} (h : e.PoolsAgree) {i : Nat}
    (hi : (e.track i).isActive = true) : (e.pauseTrack i).PoolsAgree := by
  unfold Engine.pauseTrack
  split
  · exact h
  · next hrun => exact h.standStill hi (by simpa using hrun) (fun _ => rfl) fun _ => rfl

theorem PoolsAgree.resumeTrack {e : Engine σ} (h : e.PoolsAgree) {i : Nat}
    (hi : (e.track i).isActive = true) : (e.resumeTrack i).PoolsAgree := by
  unfold Engine.resumeTrack
  split
  · next hstopped =>
    refine h.modify hi (fun _ => rfl) (fun _ => rfl) ?_ ?_
    · rw [hstopped]
      rfl
    · simp [Slot.started]
  · exact h

theorem PoolsAgree.awaitVoices {e : Engine σ} (h : e.PoolsAgree) {i : Nat}
    (hi : (e.track i).isActive = true) : (e.awaitVoices i).PoolsAgree := by
  have hmode := (h.lively _ (h.home i hi).1).2
  unfold Engine.awaitVoices
  dsimp only
  split
  · next hstopped =>
    refine h.modify hi (fun _ => rfl) (fun _ => rfl) ?_ ?_
    · rw [hstopped]
      rfl
    · dsimp only
      split
      · next hzero => simp [hzero]
      · exact hmode
  · next hrun => exact h.standStill hi (by simpa using hrun) (fun _ => rfl) fun _ => rfl

/-! ## Leaving the pool -/

theorem slot_leavePool {e : Engine σ} {i s : Nat} :
    (e.leavePool i).slot s =
      if (e.track i).slot = s ∧ s < e.slots.size then (e.slot s).withoutTrack i
      else e.slot s :=
  slot_modifySlot _ _ s _

section Leaving

variable {e : Engine σ} {i : Nat}

theorem Placed.entry_leavePool (h : e.Placed) (hi : (e.track i).isActive = true) {s p j : Nat} :
    ((e.leavePool i).slot s).entry p = some j ↔ (e.slot s).entry p = some j ∧ i ≠ j := by
  obtain ⟨hactive, -⟩ := h.home i hi
  rw [slot_leavePool]
  by_cases hs : (e.track i).slot = s
  · subst hs
    rw [if_pos ⟨rfl, lt_size_of_active hactive⟩, Slot.entry_withoutTrack]
    constructor
    · intro hp
      split at hp
      · cases hp
      · next hne =>
        refine ⟨hp, ?_⟩
        rintro rfl
        exact hne hp
    · rintro ⟨hp, hij⟩
      rw [if_neg fun heq => hij (Option.some.inj (heq.symm.trans hp)), hp]
  · rw [if_neg fun hp => hs hp.1]
    refine ⟨fun hp => ⟨hp, ?_⟩, fun hp => hp.1⟩
    rintro rfl
    exact hs (h.entry s p i hp).2.2.1

theorem Placed.entries_leavePool (h : e.Placed) (hi : (e.track i).isActive = true) :
    (e.slot (e.track i).slot).entries =
      ((e.slot (e.track i).slot).withoutTrack i).entries + 1 :=
  Slot.entries_withoutTrack (h.home i hi).2.1 fun p hp => (h.entry _ p i hp).2.2.2.symm

/-- A slot stays in use as long as it has another track. -/
theorem Placed.active_withoutTrack (h : e.Placed) (hi : (e.track i).isActive = true) :
    ((e.slot (e.track i).slot).withoutTrack i).active =
      decide (0 < ((e.slot (e.track i).slot).withoutTrack i).entries) := by
  obtain ⟨hactive, -⟩ := h.home i hi
  have hends : ((e.slot (e.track i).slot).withoutTrack i).active =
      !decide ((e.slot (e.track i).slot).tracksActive ≤ 1) := by
    simp [Slot.withoutTrack, Slot.endsNext, hactive]
  rw [hends, h.entries _ hactive, h.entries_leavePool hi, ← decide_not, decide_eq_decide]
  omega

theorem Placed.active_leavePool (h : e.Placed) (hi : (e.track i).isActive = true) {s p j : Nat}
    (hp : ((e.leavePool i).slot s).entry p = some j) :
    ((e.leavePool i).slot s).active = true := by
  have hold := (h.entry s p j ((h.entry_leavePool hi).mp hp).1).1
  rw [slot_leavePool] at hp ⊢
  split
  · next hs =>
    obtain ⟨rfl, hlt⟩ := hs
    rw [if_pos ⟨rfl, hlt⟩] at hp
    rw [h.active_withoutTrack hi, decide_eq_true_iff]
    exact Slot.entries_pos hp
  · exact hold

/-- A track that stands still does not play when it leaves. -/
theorem Placed.playsAt_leavePool (h : e.Placed) (hi : (e.track i).isActive = true)
    (hstop : (e.track i).isStopped = true) (s p : Nat) :
    (e.leavePool i).playsAt s p = e.playsAt s p := by
  unfold playsAt
  cases hp : (e.slot s).entry p with
  | none =>
    cases hp' : ((e.leavePool i).slot s).entry p with
    | none => rfl
    | some j =>
      rw [((h.entry_leavePool hi).mp hp').1] at hp
      cases hp
  | some j =>
    by_cases hij : i = j
    · subst hij
      cases hp' : ((e.leavePool i).slot s).entry p with
      | none => simp [hstop]
      | some j =>
        have hboth := (h.entry_leavePool hi).mp hp'
        rw [hp, Option.some.injEq] at hboth
        exact absurd hboth.1 hboth.2
    · rw [(h.entry_leavePool hi).mpr ⟨hp, hij⟩, Option.any_some, Option.any_some,
        track_leavePool, if_neg fun hp => hij hp.1]

theorem isActive_leavePool (hi : (e.track i).isActive = true) :
    ((e.leavePool i).track i).isActive = false := by
  rw [track_leavePool, if_pos ⟨rfl, lt_size_of_isActive hi⟩]
  rfl

theorem track_leavePool_of_ne {j : Nat} (hij : i ≠ j) : (e.leavePool i).track j = e.track j := by
  rw [track_leavePool, if_neg fun hp => hij hp.1]

theorem slot_leavePool_of_ne {s : Nat} (hs : (e.track i).slot ≠ s) :
    (e.leavePool i).slot s = e.slot s := by
  rw [slot_leavePool, if_neg fun hp => hs hp.1]

theorem Placed.slot_leavePool (h : e.Placed) (hi : (e.track i).isActive = true) :
    (e.leavePool i).slot (e.track i).slot = (e.slot (e.track i).slot).withoutTrack i := by
  rw [Engine.slot_leavePool, if_pos ⟨rfl, lt_size_of_active (h.home i hi).1⟩]

theorem size_slots_leavePool : (e.leavePool i).slots.size = e.slots.size := by
  simp [Engine.leavePool, modifySlot, modifyTrack]

/-- Slots keep their sequence, their count of playing tracks and their width, and none
comes into use. -/
theorem Placed.slot_keeps_leavePool (h : e.Placed) (hi : (e.track i).isActive = true) (s : Nat) :
    ((e.leavePool i).slot s).sequence = (e.slot s).sequence ∧
      ((e.leavePool i).slot s).tracksPlaying = (e.slot s).tracksPlaying ∧
      ((e.leavePool i).slot s).tracks.size = (e.slot s).tracks.size ∧
      (((e.leavePool i).slot s).active = true → (e.slot s).active = true) := by
  by_cases hs : (e.track i).slot = s
  · subst hs
    rw [h.slot_leavePool hi]
    exact ⟨rfl, rfl, by simp [Slot.withoutTrack, Slot.dropTrack], fun _ => (h.home i hi).1⟩
  · rw [slot_leavePool_of_ne hs]
    exact ⟨rfl, rfl, rfl, id⟩

/-- The count of slots in use is one less exactly if the slot of the track falls out of
use. -/
theorem Placed.slotsActive_leavePool (h : e.Placed) (hi : (e.track i).isActive = true) :
    (e.leavePool i).slotsActive =
      (List.range e.slots.size).countP fun s => ((e.leavePool i).slot s).active := by
  obtain ⟨hactive, -⟩ := h.home i hi
  have hsame : ∀ s, s ≠ (e.track i).slot →
      (e.slot s).active = ((e.leavePool i).slot s).active := by
    intro s hs
    rw [slot_leavePool_of_ne hs.symm]
  have hleaves : (e.leavePool i).slotsActive =
      if (e.slot (e.track i).slot).endsNext then e.slotsActive - 1 else e.slotsActive := rfl
  have hends : (e.slot (e.track i).slot).endsNext =
      !((e.leavePool i).slot (e.track i).slot).active := by
    rw [h.slot_leavePool hi]
    simp [Slot.withoutTrack, hactive]
  rw [hleaves, hends, h.slots]
  cases hlast : ((e.leavePool i).slot (e.track i).slot).active with
  | false =>
    have hless := countP_range_add_one (p := fun s => ((e.leavePool i).slot s).active)
      (q := fun s => (e.slot s).active) (lt_size_of_active hactive) hlast hactive hsame
    simp only [Bool.not_false, if_true]
    rw [hless]
    exact Nat.add_sub_cancel _ 1
  | true =>
    simp only [Bool.not_true, Bool.false_eq_true, if_false]
    refine countP_range_congr fun s _ => ?_
    by_cases hs : s = (e.track i).slot
    · rw [hs, hlast, hactive]
    · exact hsame s hs

theorem Placed.leavePool (h : e.Placed) (hi : (e.track i).isActive = true)
    (hstop : (e.track i).isStopped = true) : (e.leavePool i).Placed := by
  obtain ⟨hactive, -⟩ := h.home i hi
  have hslot := h.slot_keeps_leavePool hi
  constructor
  case home =>
    intro j hj
    have hij : i ≠ j := by
      rintro rfl
      rw [isActive_leavePool hi] at hj
      cases hj
    rw [track_leavePool_of_ne hij] at hj ⊢
    obtain ⟨-, hp, hseq⟩ := h.home j hj
    have hp' := (h.entry_leavePool hi).mpr ⟨hp, hij⟩
    exact ⟨h.active_leavePool hi hp', hp', by rw [(hslot _).1, hseq]⟩
  case entry =>
    intro s p j hp
    obtain ⟨hp', hij⟩ := (h.entry_leavePool hi).mp hp
    rw [track_leavePool_of_ne hij]
    exact ⟨h.active_leavePool hi hp, (h.entry s p j hp').2⟩
  case entries =>
    intro s hs'
    by_cases hs : (e.track i).slot = s
    · subst hs
      rw [h.slot_leavePool hi]
      show (e.slot (e.track i).slot).tracksActive - 1 = _
      rw [h.entries _ hactive, h.entries_leavePool hi]
      exact Nat.add_sub_cancel _ 1
    · rw [slot_leavePool_of_ne hs] at hs' ⊢
      exact h.entries s hs'
  case playing =>
    intro s hs'
    obtain ⟨-, hcount, hwidth, hused⟩ := hslot s
    rw [hcount, h.playing s (hused hs'), playingOn, playingOn, hwidth]
    exact countP_range_congr fun p _ => (h.playsAt_leavePool hi hstop s p).symm
  case tracks =>
    have hless := countP_range_add_one (p := fun j => ((e.leavePool i).track j).isActive)
      (q := fun j => (e.track j).isActive) (lt_size_of_isActive hi) (isActive_leavePool hi) hi
      fun j hij => by rw [track_leavePool_of_ne hij.symm]
    show e.tracksActive - 1 = _
    rw [(sameSound_leavePool e i).tracks_size, h.tracks, hless]
    exact Nat.add_sub_cancel _ 1
  case slots =>
    rw [size_slots_leavePool]
    exact h.slotsActive_leavePool hi
  case wide =>
    intro s hs'
    rw [size_slots_leavePool] at hs'
    rw [(hslot s).2.2.1]
    exact h.wide s hs'

theorem PoolsAgree.leavePool (h : e.PoolsAgree) (hi : (e.track i).isActive = true)
    (hstop : (e.track i).isStopped = true) : (e.leavePool i).PoolsAgree := by
  refine ⟨h.toPlaced.leavePool hi hstop, fun s hs => ?_⟩
  obtain ⟨hactive, -⟩ := h.home i hi
  rw [slot_leavePool] at hs ⊢
  split
  · next hhome =>
    obtain ⟨rfl, hlt⟩ := hhome
    rw [if_pos ⟨rfl, hlt⟩, h.active_withoutTrack hi, decide_eq_true_iff] at hs
    refine ⟨?_, (h.lively _ hactive).2⟩
    show 1 ≤ (e.slot (e.track i).slot).tracksActive - 1
    rw [h.entries _ hactive, h.entries_leavePool hi]
    omega
  · next hhome =>
    rw [if_neg hhome] at hs
    exact h.lively s hs

/-- A track at its end leaves tracks and slots in agreement. -/
theorem PoolsAgree.retireTrack (h : e.PoolsAgree) (hi : (e.track i).isActive = true) :
    (e.retireTrack i).PoolsAgree := by
  have hpaused := h.pauseTrack hi
  have hsize := lt_size_of_isActive hi
  have htrack : (e.pauseTrack i).track i = (e.track i).paused := by
    rw [track_pauseTrack, if_pos ⟨rfl, hsize⟩]
  have hleft : (if ((e.pauseTrack i).track i).isHandled then e.pauseTrack i
      else (e.pauseTrack i).leavePool i).PoolsAgree := by
    split
    · exact hpaused
    · refine hpaused.leavePool ?_ ?_
      · rw [htrack]
        exact hi
      · rw [htrack]
        rfl
  exact SamePlaces.agree (samePlaces_modifyTrack _ i (fun _ => rfl) fun _ => rfl) hleft

end Leaving

end Engine

end SoundSequencer
