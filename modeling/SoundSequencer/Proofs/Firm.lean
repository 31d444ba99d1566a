/-
SoundSequencer.Proofs.Firm — what a machine can count on while it plays.

* `Engine.Manned` bounds the voices and their owners, `Engine.Tallied` the counts of
  tracks and slots, `Engine.Steady` numbers and places of tracks, clock and fades. None
  of it says that the counts are right: they need not be.
* `Engine.Paced` bounds the count of playing tracks of a slot: together with those
  of its tracks that are paused, they fit into the slot. A slot may have to answer
  for tracks that it no longer lists, which are let go on all the same.
* `Engine.Firm` is all this, and that tracks are seated. Pausing, ending and playing
  leave an engine firm.
-/
import SoundSequencer.Proofs.Machine
import SoundSequencer.Proofs.Seats
import SoundSequencer.Proofs.Unmoved

namespace SoundSequencer

namespace Engine

variable {σ : Type}

/-! ## Voices -/

/-- The voices are of the hardware, those in use are counted, and tracks of the pool own
them. -/
structure Manned (e : Engine σ) : Prop where
  limit_le : e.voices.limit ≤ hardwareVoices
  active : e.voices.active =
    (List.range e.voices.limit).countP fun v => (e.voice v).active
  owner_lt : ∀ v, (e.voice v).active = true → (e.voice v).track < e.tracks.size

namespace Manned

variable {e e' : Engine σ}

theorem of_same (h : e.Manned) (hsize : e'.tracks.size = e.tracks.size)
    (hlimit : e'.voices.limit = e.voices.limit) (hcount : e'.voices.active = e.voices.active)
    (hactive : ∀ v, (e'.voice v).active = (e.voice v).active)
    (htrack : ∀ v, (e'.voice v).track = (e.voice v).track) : e'.Manned where
  limit_le := by
    rw [hlimit]
    exact h.limit_le
  active := by
    rw [hcount, hlimit, h.active]
    exact countP_range_congr fun v _ => (hactive v).symm
  owner_lt v hv := by
    rw [hactive] at hv
    rw [htrack, hsize]
    exact h.owner_lt v hv

theorem of_voices (h : e.Manned) (hsize : e'.tracks.size = e.tracks.size)
    (hvoices : e'.voices = e.voices) : e'.Manned := by
  have hvoice : ∀ v, e'.voice v = e.voice v := fun v => by unfold Engine.voice; rw [hvoices]
  exact h.of_same hsize (by rw [hvoices]) (by rw [hvoices]) (fun v => by rw [hvoice])
    fun v => by rw [hvoice]

theorem of_owners (h : e.Manned) (howners : SameOwners e e')
    (hcount : e'.voices.active = e.voices.active) : e'.Manned :=
  h.of_same howners.tracks_size howners.limit hcount howners.active howners.track

/-- A voice in use is counted. -/
theorem active_pos (h : e.Manned) {v : Nat} (hv : (e.voice v).active = true) :
    1 ≤ e.voices.active := by
  rw [h.active, Nat.one_le_iff_ne_zero, ← Nat.pos_iff_ne_zero, List.countP_pos_iff]
  exact ⟨v, List.mem_range.mpr (lt_limit_of_active hv), hv⟩

theorem active_le (h : e.Manned) : e.voices.active ≤ hardwareVoices := by
  have hcount := List.countP_le_length (p := fun v => (e.voice v).active)
    (l := List.range e.voices.limit)
  rw [List.length_range, ← h.active] at hcount
  exact Nat.le_trans hcount h.limit_le

theorem freeVoice (h : e.Manned) (v : Nat) : (e.freeVoice v).Manned where
  limit_le := by
    rw [limit_freeVoice]
    exact h.limit_le
  active := by
    cases hv : (e.voice v).active with
    | false =>
      rw [freeVoice_of_idle hv]
      exact h.active
    | true =>
      have hcount : (e.freeVoice v).voices.active = e.voices.active - 1 := by
        have hbusy : (e.voices.voice v).active = true := hv
        rw [voices_freeVoice, VoicePool.vacate, if_pos hbusy]
      have hless := countP_range_add_one (p := fun w => ((e.freeVoice v).voice w).active)
        (q := fun w => (e.voice w).active) (lt_limit_of_active hv)
        (by simp [active_freeVoice]) hv fun w hw => by simp [active_freeVoice, hw.symm]
      rw [hcount, h.active, limit_freeVoice]
      omega
  owner_lt w hw := by
    rw [active_freeVoice, Bool.and_eq_true] at hw
    rw [owner_freeVoice, tracks_size_freeVoice]
    exact h.owner_lt w hw.2

theorem startVoice [SoundChip σ] (h : e.Manned) {v i : Nat} (hv : v < e.voices.limit)
    (hi : i < e.tracks.size) (patchVoice : UInt16) (note velocity : UInt8) :
    (e.startVoice v i patchVoice note velocity).Manned := by
  cases hpatch : e.module.patches.voice? patchVoice.toNat with
  | none =>
    rw [startVoice_of_none hpatch]
    exact h
  | some patch =>
    obtain ⟨voice, chip, reverbVoices, htrack, -, hstarted⟩ :=
      startVoice_of_some v i note velocity hpatch
    have hvoice := fun w => VoicePool.voice_occupy e.voices v w voice hv
    rw [hstarted]
    refine ⟨?_, ?_, fun w hw => ?_⟩
    · rw [VoicePool.limit_occupy]
      exact h.limit_le
    · have hother : ∀ w, w ≠ v → ((e.voices.occupy v voice).voice w).active =
          (e.voice w).active := by
        intro w hw
        rw [hvoice, if_neg hw.symm]
        rfl
      have hbusy : ((e.voices.occupy v voice).voice v).active = true := by
        rw [hvoice, if_pos rfl]
      have hcount : (e.voices.occupy v voice).active =
          if (e.voices.voice v).active then e.voices.active else e.voices.active + 1 := by
        rw [VoicePool.occupy, if_pos hv]
      have hflip := countP_range_flip hv hother
      show (e.voices.occupy v voice).active =
        (List.range (e.voices.occupy v voice).limit).countP
          fun w => ((e.voices.occupy v voice).voice w).active
      rw [hbusy, if_pos rfl] at hflip
      rw [hcount, VoicePool.limit_occupy, h.active]
      cases hold : (e.voices.voice v).active with
      | true => simp only [Engine.voice, hold, if_true] at hflip ⊢; omega
      | false => simp only [Engine.voice, hold, Bool.false_eq_true, if_false] at hflip ⊢; omega
    · change ((e.voices.occupy v voice).voice w).active = true at hw
      show ((e.voices.occupy v voice).voice w).track < (e.tracks.modify i _).size
      rw [hvoice] at hw ⊢
      rw [Array.size_modify]
      split
      · rwa [htrack]
      · next hne =>
        rw [if_neg hne] at hw
        exact h.owner_lt w hw

end Manned

/-! ## Counts of tracks and slots -/

/-- No more tracks and slots are counted than are in use. -/
structure Tallied (e : Engine σ) : Prop where
  tracks : e.tracksActive ≤ (List.range e.tracks.size).countP fun i => (e.track i).isActive
  slots : e.slotsActive ≤ (List.range e.slots.size).countP fun s => (e.slot s).active

namespace Tallied

variable {e e' : Engine σ}

theorem of_links (h : e.Tallied) (hlinks : SameLinks e e') : e'.Tallied where
  tracks := by
    rw [hlinks.tracksActive, hlinks.tracks_size]
    simp only [hlinks.isActive]
    exact h.tracks
  slots := by
    rw [hlinks.slotsActive, hlinks.slots_size]
    simp only [hlinks.active]
    exact h.slots

/-- A count of numbers that is one less for one number. -/
theorem countP_range_sub_one_le {p q : Nat → Bool} {n v : Nat} (hv : v < n)
    (hother : ∀ w, w ≠ v → q w = p w) (hq : q v = false) :
    (List.range n).countP p - 1 ≤ (List.range n).countP q := by
  have hflip := countP_range_flip hv hother
  rw [hq, if_neg Bool.false_ne_true] at hflip
  split at hflip <;> omega

theorem leavePool (h : e.Tallied) (i : Nat) : (e.leavePool i).Tallied where
  tracks := by
    have hsize := (sameSound_leavePool e i).tracks_size
    have hcount : (e.leavePool i).tracksActive = e.tracksActive - 1 := rfl
    rw [hsize, hcount]
    have htracks := h.tracks
    by_cases hi : i < e.tracks.size
    · have hless := countP_range_sub_one_le (p := fun j => (e.track j).isActive)
        (q := fun j => ((e.leavePool i).track j).isActive) hi
        (fun j hj => by rw [track_leavePool_of_ne hj.symm])
        (by rw [track_leavePool, if_pos ⟨rfl, hi⟩]; rfl)
      omega
    · have hsame : ∀ j, j < e.tracks.size →
          ((e.leavePool i).track j).isActive = (e.track j).isActive := by
        intro j hj
        rw [track_leavePool_of_ne fun hij : i = j => hi (hij ▸ hj)]
      rw [countP_range_congr hsame]
      omega
  slots := by
    have hcount : (e.leavePool i).slotsActive =
        if (e.slot (e.track i).slot).endsNext then e.slotsActive - 1 else e.slotsActive := rfl
    have hother : ∀ s, s ≠ (e.track i).slot →
        ((e.leavePool i).slot s).active = (e.slot s).active := by
      intro s hs
      rw [slot_leavePool_of_ne hs.symm]
    have hslots := h.slots
    rw [size_slots_leavePool, hcount]
    by_cases hhome : (e.track i).slot < e.slots.size
    · have hslot : ((e.leavePool i).slot (e.track i).slot).active =
          ((e.slot (e.track i).slot).active && !(e.slot (e.track i).slot).endsNext) := by
        rw [slot_leavePool, if_pos ⟨rfl, hhome⟩]
        rfl
      split
      · next hends =>
        have hless := countP_range_sub_one_le (p := fun s => (e.slot s).active)
          (q := fun s => ((e.leavePool i).slot s).active) hhome hother
          (by rw [hslot, hends]; simp)
        omega
      · next hstays =>
        have hsame : ∀ s, s < e.slots.size →
            ((e.leavePool i).slot s).active = (e.slot s).active := by
          intro s _
          by_cases hs : s = (e.track i).slot
          · rw [hs, hslot]
            simp [hstays]
          · exact hother s hs
        rwa [countP_range_congr hsame]
    · have hsame : ∀ s, s < e.slots.size →
          ((e.leavePool i).slot s).active = (e.slot s).active :=
        fun s hs => hother s fun heq => hhome (heq ▸ hs)
      rw [countP_range_congr hsame]
      split <;> omega

theorem tracksActive_le (h : e.Tallied) : e.tracksActive ≤ e.tracks.size := by
  have hcount := List.countP_le_length (p := fun i => (e.track i).isActive)
    (l := List.range e.tracks.size)
  rw [List.length_range] at hcount
  exact Nat.le_trans h.tracks hcount

theorem slotsActive_le (h : e.Tallied) : e.slotsActive ≤ e.slots.size := by
  have hcount := List.countP_le_length (p := fun s => (e.slot s).active)
    (l := List.range e.slots.size)
  rw [List.length_range] at hcount
  exact Nat.le_trans h.slots hcount

end Tallied

/-! ## Playing tracks -/

/-- How many tracks of a list are paused. -/
def pausedOf (e : Engine σ) (l : List Nat) : Nat := l.countP fun i => (e.track i).isStopped

/-- Slots answer for tracks of their own, those that they list among them: the tracks that
play and those that are paused fit into the slot. -/
structure Paced (held : Nat → Nat → Prop) (e : Engine σ) : Prop where
  lists : ∀ s i, i ∈ (e.slot s).trackIds → held s i
  home : ∀ s i, held s i → (e.track i).slot = s
  lt_size : ∀ s i, held s i → i < e.tracks.size
  length : ∀ s (l : List Nat), l.Nodup → (∀ i ∈ l, held s i) → l.length ≤ (e.slot s).tracks.size
  room : ∀ s (l : List Nat), l.Nodup → (∀ i ∈ l, held s i) →
    (e.slot s).tracksPlaying + e.pausedOf l ≤ (e.slot s).tracks.size

namespace Paced

variable {held : Nat → Nat → Prop} {e e' : Engine σ}

/-- A slot may answer for fewer tracks, if only for those that it lists. -/
theorem mono {fewer : Nat → Nat → Prop} (h : Paced held e)
    (hlists : ∀ s i, i ∈ (e.slot s).trackIds → fewer s i) (hless : ∀ s i, fewer s i → held s i) :
    Paced fewer e where
  lists := hlists
  home s i hi := h.home s i (hless s i hi)
  lt_size s i hi := h.lt_size s i (hless s i hi)
  length s l hl hall := h.length s l hl fun i hi => hless s i (hall i hi)
  room s l hl hall := h.room s l hl fun i hi => hless s i (hall i hi)

/-- What lists no more tracks, where they are, is left to have room. -/
theorem of_room (h : Paced held e) (hsize : e'.tracks.size = e.tracks.size)
    (hlists : ∀ s i, i ∈ (e'.slot s).trackIds → i ∈ (e.slot s).trackIds)
    (hhome : ∀ i, (e'.track i).slot = (e.track i).slot)
    (hwidth : ∀ s, (e'.slot s).tracks.size = (e.slot s).tracks.size)
    (hroom : ∀ s (l : List Nat), l.Nodup → (∀ i ∈ l, held s i) →
      (e'.slot s).tracksPlaying + e'.pausedOf l ≤ (e.slot s).tracks.size) :
    Paced held e' where
  lists s i hi := h.lists s i (hlists s i hi)
  home s i hi := (hhome i).trans (h.home s i hi)
  lt_size s i hi := by
    rw [hsize]
    exact h.lt_size s i hi
  length s l hl hall := by
    rw [hwidth]
    exact h.length s l hl hall
  room s l hl hall := by
    rw [hwidth]
    exact hroom s l hl hall

theorem of_links (h : Paced held e) (hlinks : SameLinks e e')
    (hroom : ∀ s (l : List Nat), l.Nodup → (∀ i ∈ l, held s i) →
      (e'.slot s).tracksPlaying + e'.pausedOf l ≤ (e.slot s).tracks.size) : Paced held e' := by
  refine h.of_room hlinks.tracks_size (fun s i hi => ?_) hlinks.home
    (fun s => by rw [hlinks.tracks]) hroom
  rwa [Slot.trackIds, hlinks.tracks] at hi

theorem of_same (h : Paced held e) (hlinks : SameLinks e e')
    (hstop : ∀ i, (e'.track i).isStopped = (e.track i).isStopped)
    (hplaying : ∀ s, (e'.slot s).tracksPlaying = (e.slot s).tracksPlaying) :
    Paced held e' := by
  refine h.of_links hlinks fun s l hl hall => ?_
  unfold pausedOf
  simp only [hplaying, hstop]
  exact h.room s l hl hall

/-- Where a track is among different ones, it counts once. -/
theorem pausedOf_of_mem (e : Engine σ) {i : Nat} {l : List Nat} (hi : i ∈ l) :
    e.pausedOf l = e.pausedOf (l.erase i) + if (e.track i).isStopped then 1 else 0 := by
  unfold pausedOf
  rw [(List.perm_cons_erase hi).countP_eq, List.countP_cons]

theorem pausedOf_congr {l : List Nat}
    (hstop : ∀ i ∈ l, (e'.track i).isStopped = (e.track i).isStopped) :
    e'.pausedOf l = e.pausedOf l :=
  List.countP_congr fun i hi => by rw [hstop i hi]

/-- A track that stands still, and its slot with a playing track less. -/
theorem standStill (h : Paced held e) {i : Nat} (hhome : (e.track i).slot < e.slots.size)
    {f : Track → Track} (hf : ∀ t, (f t).seat = t.seat) :
    Paced held ((e.modifyTrack i f).modifySlot (e.track i).slot Slot.stopped) := by
  have hother : ∀ j, j ≠ i →
      (((e.modifyTrack i f).modifySlot (e.track i).slot Slot.stopped).track j).isStopped =
        (e.track j).isStopped := by
    intro j hj
    rw [track_modifySlot, track_modifyTrack, if_neg fun hij => hj hij.1.symm]
  refine h.of_links (sameLinks_modify e i _ hf fun _ => rfl) fun s l hl hall => ?_
  have hroom := h.room s l hl hall
  rw [slot_modifySlot, slot_modifyTrack]
  by_cases hs : (e.track i).slot = s
  · subst hs
    rw [if_pos ⟨rfl, hhome⟩]
    show (e.slot (e.track i).slot).tracksPlaying - 1 + _ ≤ _
    -- at most one more of the tracks is paused; a slot that counts none has room for all
    by_cases hi : i ∈ l
    · have hlength := h.length _ l hl hall
      have hrest : ∀ j ∈ l.erase i, _ = (e.track j).isStopped :=
        fun j hj => hother j (hl.mem_erase_iff.mp hj).1
      have hpaused := pausedOf_of_mem e hi
      have hpaused' := pausedOf_of_mem
        ((e.modifyTrack i f).modifySlot (e.track i).slot Slot.stopped) hi
      have hall' : ((e.modifyTrack i f).modifySlot (e.track i).slot Slot.stopped).pausedOf l ≤
          l.length := List.countP_le_length
      rw [pausedOf_congr hrest] at hpaused'
      split at hpaused' <;> omega
    · rw [pausedOf_congr fun j hj => hother j fun hij => hi (hij ▸ hj)]
      omega
  · rw [if_neg fun hp => hs hp.1,
      pausedOf_congr fun j hj => hother j fun hij => hs (by rw [← hij, h.home s j (hall j hj)])]
    exact hroom

theorem pauseTrack (h : Paced held e) {i : Nat} (hhome : (e.track i).slot < e.slots.size) :
    Paced held (e.pauseTrack i) := by
  unfold Engine.pauseTrack
  split
  · exact h
  · exact h.standStill hhome fun _ => rfl

theorem awaitVoices (h : Paced held e) {i : Nat} (hhome : (e.track i).slot < e.slots.size) :
    Paced held (e.awaitVoices i) := by
  unfold Engine.awaitVoices
  dsimp only
  split
  · next hstopped =>
    refine h.of_same (sameLinks_modify e i _ (fun _ => rfl) fun _ => rfl) (fun j => ?_)
      fun s => ?_
    · rw [track_modifySlot, track_modifyTrack]
      split
      · next hij => rw [← hij.1, hstopped]; rfl
      · rfl
    · rw [slot_modifySlot]
      split <;> rfl
  · exact h.standStill (f := Track.awaiting) hhome fun _ => rfl

/-- A track for which its slot answers may go on, listed or not. -/
theorem resumeTrack (h : Paced held e) {i : Nat} (hi : held (e.track i).slot i) :
    Paced held (e.resumeTrack i) := by
  have hother : ∀ j, j ≠ i → ((e.resumeTrack i).track j).isStopped = (e.track j).isStopped := by
    intro j hj
    rw [track_resumeTrack, if_neg fun hij => hj hij.1.symm]
  refine h.of_links (sameLinks_resumeTrack e i) fun s l hl hall => ?_
  have hroom := h.room s l hl hall
  cases hstopped : (e.track i).isStopped with
  | false =>
    have hsame : e.resumeTrack i = e := if_neg (by simp [hstopped])
    rwa [hsame]
  | true =>
    have hlt : i < e.tracks.size := by
      by_contra hout
      rw [track_of_size_le (Nat.le_of_not_lt hout)] at hstopped
      cases hstopped
    have hself : ((e.resumeTrack i).track i).isStopped = false := by
      rw [track_resumeTrack, if_pos ⟨rfl, hlt⟩]
      rfl
    have hplaying : ((e.resumeTrack i).slot s).tracksPlaying ≤
        (e.slot s).tracksPlaying + if (e.track i).slot = s then 1 else 0 := by
      unfold Engine.resumeTrack
      rw [if_pos hstopped, slot_modifySlot, slot_modifyTrack]
      by_cases hs : (e.track i).slot = s
      · rw [if_pos hs]
        split
        · exact Nat.le_refl _
        · exact Nat.le_succ _
      · rw [if_neg fun hp => hs hp.1, if_neg hs]
        exact Nat.le_refl _
    by_cases hmem : i ∈ l
    · -- the track was counted as paused and now plays
      have hs : (e.track i).slot = s := h.home s i (hall i hmem)
      have hpaused := pausedOf_of_mem e hmem
      have hpaused' := pausedOf_of_mem (e.resumeTrack i) hmem
      rw [pausedOf_congr fun j hj => hother j (hl.mem_erase_iff.mp hj).1, hself] at hpaused'
      rw [if_pos hs] at hplaying
      rw [hstopped] at hpaused
      simp only [if_true, Bool.false_eq_true, if_false] at hpaused hpaused'
      omega
    · rw [pausedOf_congr fun j hj => hother j fun hij => hmem (hij ▸ hj)]
      by_cases hs : (e.track i).slot = s
      · -- the slot answers for one track more than those of the list
        have hmore := h.room s (i :: l) (List.nodup_cons.mpr ⟨hmem, hl⟩) fun j hj =>
          (List.mem_cons.mp hj).elim (fun hij => by rw [hij, ← hs]; exact hi) (hall j)
        have hpaused : e.pausedOf (i :: l) = e.pausedOf l + 1 := by
          unfold pausedOf
          rw [List.countP_cons, hstopped, if_pos rfl]
        rw [if_pos hs] at hplaying
        omega
      · rw [if_neg hs] at hplaying
        omega

theorem leavePool (h : Paced held e) {i : Nat} : Paced held (e.leavePool i) := by
  refine h.of_room (sameSound_leavePool e i).tracks_size (fun s j hj => ?_) (fun j => ?_)
    (fun s => ?_) fun s l hl hall => ?_
  · obtain ⟨p, hp⟩ := Slot.mem_trackIds.mp hj
    refine Slot.mem_trackIds.mpr ⟨p, ?_⟩
    rw [slot_leavePool] at hp
    split at hp
    · rw [Slot.entry_withoutTrack] at hp
      split at hp
      · cases hp
      · exact hp
    · exact hp
  · rw [track_leavePool]
    split <;> rfl
  · rw [slot_leavePool]
    split
    · simp [Slot.withoutTrack, Slot.dropTrack]
    · rfl
  · have hplaying : ((e.leavePool i).slot s).tracksPlaying = (e.slot s).tracksPlaying := by
      rw [slot_leavePool]
      split <;> rfl
    have hstop : ∀ j ∈ l, ((e.leavePool i).track j).isStopped = (e.track j).isStopped := by
      intro j _
      rw [track_leavePool]
      split <;> rfl
    rw [hplaying, pausedOf_congr hstop]
    exact h.room s l hl hall

theorem retireTrack (h : Paced held e) {i : Nat} (hhome : (e.track i).slot < e.slots.size) :
    Paced held (e.retireTrack i) := by
  unfold Engine.retireTrack
  dsimp only
  have hpaused := h.pauseTrack hhome
  have hleft : Paced held (if ((e.pauseTrack i).track i).isHandled then e.pauseTrack i
      else (e.pauseTrack i).leavePool i) := by
    split
    · exact hpaused
    · exact hpaused.leavePool
  have hplaces := samePlaces_modifyTrack
    (f := fun t => { t with flags := { t.flags with timed := false } })
    (if ((e.pauseTrack i).track i).isHandled then e.pauseTrack i
      else (e.pauseTrack i).leavePool i) i (fun _ => rfl) fun _ => rfl
  exact hleft.of_same hplaces.toSameLinks hplaces.isStopped hplaces.tracksPlaying

end Paced

/-! ## Tracks, clock and fades -/

/-- What goes on with time alone. -/
def panel (e : Engine σ) := (e.clock, e.masterFade, e.cdFade)

/-- The module is sound, the pools are small, and numbers and places of tracks, the clock
and the fades keep within bounds. -/
structure Steady (e : Engine σ) : Prop where
  accepted : e.module.Accepted
  memory : e.module.FitsMemory
  tracks_lt : e.tracks.size < 2 ^ 8
  slots_lt : e.slots.size < 2 ^ 8
  maxVoices_lt : ∀ i, (e.track i).maxVoices < 2 ^ 8
  pc_lt : ∀ i, (e.track i).pc < 2 ^ 63
  frac_lt : e.clock.frac < 65536
  masterFade : e.masterFade.Fits
  cdFade : e.cdFade.Fits

/-- Nothing has changed that is bounded, nor have tracks moved. -/
structure Kept (e e' : Engine σ) : Prop where
  module : e'.module = e.module
  tracks_size : e'.tracks.size = e.tracks.size
  slots_size : e'.slots.size = e.slots.size
  track : ∀ i, (e'.track i).maxVoices = (e.track i).maxVoices ∧ (e'.track i).pc = (e.track i).pc
  panel : e'.panel = e.panel

namespace Steady

variable {e e' : Engine σ}

theorem of_bounds (h : e.Steady) (hmodule : e'.module = e.module)
    (htracks : e'.tracks.size = e.tracks.size) (hslots : e'.slots.size = e.slots.size)
    (hmax : ∀ i, (e'.track i).maxVoices < 2 ^ 8) (hpc : ∀ i, (e'.track i).pc < 2 ^ 63)
    (hpanel : e'.panel = e.panel) : e'.Steady := by
  simp only [Engine.panel, Prod.mk.injEq] at hpanel
  obtain ⟨hclock, hmaster, hcd⟩ := hpanel
  exact {
    accepted := by rw [hmodule]; exact h.accepted
    memory := by rw [hmodule]; exact h.memory
    tracks_lt := by rw [htracks]; exact h.tracks_lt
    slots_lt := by rw [hslots]; exact h.slots_lt
    maxVoices_lt := hmax
    pc_lt := hpc
    frac_lt := by rw [hclock]; exact h.frac_lt
    masterFade := by rw [hmaster]; exact h.masterFade
    cdFade := by rw [hcd]; exact h.cdFade }

theorem kept (h : e.Steady) (hkept : Kept e e') : e'.Steady := by
  refine h.of_bounds hkept.module hkept.tracks_size hkept.slots_size (fun i => ?_) (fun i => ?_)
    hkept.panel
  · rw [(hkept.track i).1]
    exact h.maxVoices_lt i
  · rw [(hkept.track i).2]
    exact h.pc_lt i

theorem tuned [SoundChip σ] (h : e.Steady) (htuned : Tuned e e') (hpanel : e'.panel = e.panel)
    (hpc : ∀ i, (e'.track i).pc < 2 ^ 63) : e'.Steady := by
  refine h.of_bounds htuned.module htuned.tracks_size htuned.slots_size (fun i => ?_) hpc hpanel
  rw [htuned.read Track.maxVoices fun _ => rfl]
  exact h.maxVoices_lt i

end Steady

namespace Kept

variable {e e' : Engine σ}

theorem refl (e : Engine σ) : Kept e e := ⟨rfl, rfl, rfl, fun _ => ⟨rfl, rfl⟩, rfl⟩

theorem trans {e'' : Engine σ} (h : Kept e e') (h' : Kept e' e'') : Kept e e'' where
  module := h'.module.trans h.module
  tracks_size := h'.tracks_size.trans h.tracks_size
  slots_size := h'.slots_size.trans h.slots_size
  track i := ⟨(h'.track i).1.trans (h.track i).1, (h'.track i).2.trans (h.track i).2⟩
  panel := h'.panel.trans h.panel

theorem of_pools (hmodule : e'.module = e.module) (htracks : e'.tracks = e.tracks)
    (hslots : e'.slots = e.slots) (hpanel : e'.panel = e.panel) : Kept e e' where
  module := hmodule
  tracks_size := by rw [htracks]
  slots_size := by rw [hslots]
  track i := by
    unfold Engine.track
    rw [htracks]
    exact ⟨rfl, rfl⟩
  panel := hpanel

end Kept

theorem kept_modifyTrack (e : Engine σ) (i : Nat) {f : Track → Track}
    (hf : ∀ t, (f t).maxVoices = t.maxVoices ∧ (f t).pc = t.pc) : Kept e (e.modifyTrack i f) where
  module := rfl
  tracks_size := by simp [modifyTrack]
  slots_size := rfl
  track j := by
    rw [track_modifyTrack]
    split
    · exact hf _
    · exact ⟨rfl, rfl⟩
  panel := rfl

theorem kept_modifySlot (e : Engine σ) (s : Nat) (f : Slot → Slot) :
    Kept e (e.modifySlot s f) where
  module := rfl
  tracks_size := rfl
  slots_size := by simp [modifySlot]
  track _ := ⟨rfl, rfl⟩
  panel := rfl

theorem kept_modify (e : Engine σ) (i s : Nat) {f : Track → Track}
    (hf : ∀ t, (f t).maxVoices = t.maxVoices ∧ (f t).pc = t.pc) (g : Slot → Slot) :
    Kept e ((e.modifyTrack i f).modifySlot s g) :=
  (kept_modifyTrack e i hf).trans (kept_modifySlot _ s g)

theorem kept_pauseTrack (e : Engine σ) (i : Nat) : Kept e (e.pauseTrack i) := by
  unfold pauseTrack
  split
  · exact .refl e
  · exact kept_modify (f := Track.paused) e i _ (fun _ => ⟨rfl, rfl⟩) _

theorem kept_resumeTrack (e : Engine σ) (i : Nat) : Kept e (e.resumeTrack i) := by
  unfold resumeTrack
  split
  · exact kept_modify (f := Track.resumed) e i _ (fun _ => ⟨rfl, rfl⟩) _
  · exact .refl e

theorem kept_leavePool (e : Engine σ) (i : Nat) : Kept e (e.leavePool i) := by
  have hmodified := kept_modify e i (e.track i).slot
    (f := fun t => { t with flags := { t.flags with active := false } }) (fun _ => ⟨rfl, rfl⟩)
    (·.withoutTrack i)
  exact hmodified.trans (.of_pools rfl rfl rfl rfl)

theorem kept_retireTrack (e : Engine σ) (i : Nat) : Kept e (e.retireTrack i) := by
  unfold retireTrack
  dsimp only
  refine (kept_pauseTrack e i).trans (.trans ?_ (kept_modifyTrack
    (f := fun t => { t with flags := { t.flags with timed := false } }) _ i fun _ => ⟨rfl, rfl⟩))
  split
  · exact .refl _
  · exact kept_leavePool _ i

theorem kept_releaseVoices (e : Engine σ) (i : Nat) : Kept e (e.releaseVoices i) := by
  unfold releaseVoices
  split
  · exact .refl e
  · exact .of_pools rfl rfl rfl rfl

theorem kept_awaitVoices (e : Engine σ) (i : Nat) : Kept e (e.awaitVoices i) :=
  kept_modify (f := Track.awaiting) e i _ (fun _ => ⟨rfl, rfl⟩) _

theorem kept_turnOff (e : Engine σ) (i : Nat) : Kept e (e.turnOff i) := by
  rw [turnOff_eq]
  split
  · exact kept_retireTrack e i
  · split
    · exact kept_retireTrack e i
    · exact (kept_releaseVoices e i).trans (kept_awaitVoices _ i)

theorem kept_dropVoice (e : Engine σ) (v : Nat) : Kept e (e.dropVoice v) := by
  have hvacated : Kept e { e with voices := e.voices.vacate v } := .of_pools rfl rfl rfl rfl
  exact hvacated.trans (kept_modifyTrack (f := Track.withoutVoice) _ _ fun _ => ⟨rfl, rfl⟩)

theorem kept_freeVoice (e : Engine σ) (v : Nat) : Kept e (e.freeVoice v) := by
  rw [freeVoice_eq]
  split
  · split
    · exact (kept_dropVoice e v).trans (kept_retireTrack _ _)
    · exact kept_dropVoice e v
  · exact .refl e

theorem kept_startVoice [SoundChip σ] (e : Engine σ) (v i : Nat) (patchVoice : UInt16)
    (note velocity : UInt8) : Kept e (e.startVoice v i patchVoice note velocity) := by
  cases hpatch : e.module.patches.voice? patchVoice.toNat with
  | none =>
    rw [startVoice_of_none hpatch]
    exact .refl e
  | some patch =>
    obtain ⟨_, _, _, -, -, hstarted⟩ := startVoice_of_some v i note velocity hpatch
    rw [hstarted]
    exact (kept_modifyTrack (f := Track.withVoice) e i fun _ => ⟨rfl, rfl⟩).trans
      (.of_pools rfl rfl rfl rfl)

/-! ## All of it -/

/-- What a machine can count on. -/
structure Firm (held : Nat → Nat → Prop) (e : Engine σ) : Prop where
  seated : e.Seated
  manned : e.Manned
  tallied : e.Tallied
  paced : e.Paced held
  steady : e.Steady

/-- Slots answer for just the tracks that they list. -/
def listed (e : Engine σ) (s i : Nat) : Prop := i ∈ (e.slot s).trackIds

namespace Firm

variable {held : Nat → Nat → Prop} {e e' : Engine σ}

theorem mono {fewer : Nat → Nat → Prop} (h : Firm held e) (hlists : ∀ s i, e.listed s i → fewer s i)
    (hless : ∀ s i, fewer s i → held s i) : Firm fewer e :=
  ⟨h.seated, h.manned, h.tallied, h.paced.mono hlists hless, h.steady⟩

/-- What slots answer for they may as well just list. -/
theorem rest (h : Firm held e) : Firm e.listed e := h.mono (fun _ _ => id) h.paced.lists

theorem of_places (h : Firm held e) (hplaces : SamePlaces e e') (hmanned : e'.Manned)
    (hsteady : e'.Steady) : Firm held e' where
  seated := hplaces.toSameLinks.seated h.seated
  manned := hmanned
  tallied := h.tallied.of_links hplaces.toSameLinks
  paced := h.paced.of_same hplaces.toSameLinks hplaces.isStopped hplaces.tracksPlaying
  steady := hsteady

/-- Controls and places of tracks may change, as long as tracks stay where byte code can
be. -/
theorem tuned [SoundChip σ] (h : Firm held e) (htuned : Tuned e e') (hpanel : e'.panel = e.panel)
    (hpc : ∀ i, (e'.track i).pc < 2 ^ 63) : Firm held e' :=
  h.of_places htuned.samePlaces (h.manned.of_voices htuned.tracks_size htuned.voices)
    (h.steady.tuned htuned hpanel hpc)

theorem pauseTrack (h : Firm held e) (i : Nat) : Firm held (e.pauseTrack i) where
  seated := (sameLinks_pauseTrack e i).seated h.seated
  manned := h.manned.of_voices (sameSound_pauseTrack e i).tracks_size
    (sameSound_pauseTrack e i).voices
  tallied := h.tallied.of_links (sameLinks_pauseTrack e i)
  paced := h.paced.pauseTrack (h.seated.home i)
  steady := h.steady.kept (kept_pauseTrack e i)

theorem resumeTrack (h : Firm held e) {i : Nat} (hi : held (e.track i).slot i) :
    Firm held (e.resumeTrack i) where
  seated := (sameLinks_resumeTrack e i).seated h.seated
  manned := h.manned.of_voices (sameSound_resumeTrack e i).tracks_size
    (sameSound_resumeTrack e i).voices
  tallied := h.tallied.of_links (sameLinks_resumeTrack e i)
  paced := h.paced.resumeTrack hi
  steady := h.steady.kept (kept_resumeTrack e i)

theorem retireTrack (h : Firm held e) (i : Nat) : Firm held (e.retireTrack i) where
  seated := h.seated.retireTrack i
  manned := h.manned.of_voices (sameSound_retireTrack e i).tracks_size
    (sameSound_retireTrack e i).voices
  tallied := by
    unfold Engine.retireTrack
    dsimp only
    have hpaused := h.tallied.of_links (sameLinks_pauseTrack e i)
    refine Tallied.of_links ?_ (sameLinks_modifyTrack
      (f := fun t => { t with flags := { t.flags with timed := false } }) _ i fun _ => rfl)
    split
    · exact hpaused
    · exact hpaused.leavePool i
  paced := h.paced.retireTrack (h.seated.home i)
  steady := h.steady.kept (kept_retireTrack e i)

theorem releaseVoices (h : Firm held e) (i : Nat) : Firm held (e.releaseVoices i) := by
  refine h.of_places (samePlaces_releaseVoices e i)
    (h.manned.of_owners (sameOwners_releaseVoices e i) ?_)
    (h.steady.kept (kept_releaseVoices e i))
  unfold Engine.releaseVoices
  split <;> rfl

theorem muteTrack (h : Firm held e) (i : Nat) : Firm held (e.muteTrack i) := by
  unfold Engine.muteTrack
  split
  · exact h
  · exact h.releaseVoices i

theorem noteOff (h : Firm held e) (i : Nat) (note : UInt8) : Firm held (e.noteOff i note) :=
  h.of_places (samePlaces_noteOff e i note) (h.manned.of_owners (sameOwners_noteOff e i note) rfl)
    (h.steady.kept (.of_pools rfl rfl rfl rfl))

theorem awaitVoices (h : Firm held e) (i : Nat) : Firm held (e.awaitVoices i) where
  seated := (sameLinks_awaitVoices e i).seated h.seated
  manned := h.manned.of_voices (sameSound_awaitVoices e i).tracks_size
    (sameSound_awaitVoices e i).voices
  tallied := h.tallied.of_links (sameLinks_awaitVoices e i)
  paced := h.paced.awaitVoices (h.seated.home i)
  steady := h.steady.kept (kept_awaitVoices e i)

theorem turnOff (h : Firm held e) (i : Nat) : Firm held (e.turnOff i) := by
  rw [turnOff_eq]
  split
  · exact h.retireTrack i
  · split
    · exact h.retireTrack i
    · exact (h.releaseVoices i).awaitVoices i

theorem freeVoice (h : Firm held e) (v : Nat) : Firm held (e.freeVoice v) := by
  rw [freeVoice_eq]
  split
  · have hvoices : (e.dropVoice v).voices = (e.freeVoice v).voices := by
      rw [voices_freeVoice]
      rfl
    have hdropped : Firm held (e.dropVoice v) :=
      h.of_places (samePlaces_dropVoice e v)
        ((h.manned.freeVoice v).of_voices (by simp) hvoices) (h.steady.kept (kept_dropVoice e v))
    split
    · exact hdropped.retireTrack _
    · exact hdropped
  · exact h

theorem startVoice [SoundChip σ] (h : Firm held e) {v i : Nat} (hv : v < e.voices.limit)
    (hi : i < e.tracks.size) (patchVoice : UInt16) (note velocity : UInt8) :
    Firm held (e.startVoice v i patchVoice note velocity) :=
  h.of_places (samePlaces_startVoice e v i patchVoice note velocity)
    (h.manned.startVoice hv hi patchVoice note velocity)
    (h.steady.kept (kept_startVoice e v i patchVoice note velocity))

/-- The chip, and what is asked of it at the end of the tick, may be anything. -/
theorem sound (h : Firm held e) (chip : σ) (toRelease toMute : VoiceSet) :
    Firm held { e with chip, toRelease, toMute } :=
  h.of_places (samePlaces_of_pools rfl rfl rfl rfl rfl) (h.manned.of_voices rfl rfl)
    (h.steady.kept (.of_pools rfl rfl rfl rfl))

theorem unhandle (h : Firm held e) (i : Nat) : Firm held (e.modifyTrack i Track.unhandled) :=
  h.of_places (samePlaces_modifyTrack e i (fun _ => rfl) fun _ => rfl)
    (h.manned.of_voices (by simp [modifyTrack]) rfl)
    (h.steady.kept (kept_modifyTrack e i fun _ => ⟨rfl, rfl⟩))

end Firm

end Engine

end SoundSequencer
