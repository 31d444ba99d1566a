/-
SoundSequencer.Proofs.Ownership — which track owns which voice.

* `Engine.Counted` says that every track counts the voices that it owns and
  has no more than it may; `Engine.VoicesOwned` that moreover every voice in
  use is owned by a track of a sequence that plays notes.
* Only a note can end `VoicesOwned`, and it does so exactly if it is struck
  for a track that may not own its voice: `VoicesOwned.playNote`.
-/
import SoundSequencer.Proofs.Tracks

namespace SoundSequencer

/-! ## Counting -/

/-- A count of numbers that satisfy one property or another is one more if one
number makes the difference. -/
theorem countP_range_add_one {p q : Nat → Bool} {n v : Nat} (hv : v < n) (hp : p v = false)
    (hq : q v = true) (hother : ∀ w, w ≠ v → q w = p w) :
    (List.range n).countP q = (List.range n).countP p + 1 := by
  induction n with
  | zero => exact absurd hv (Nat.not_lt_zero v)
  | succ n ih =>
    rw [List.range_succ, List.countP_append, List.countP_append]
    by_cases hn : v = n
    · subst hn
      have hrest : (List.range v).countP q = (List.range v).countP p := by
        refine List.countP_congr fun w hw => ?_
        rw [hother w (Nat.ne_of_lt (List.mem_range.mp hw))]
      simp [hrest, hp, hq]
    · have hlast : q n = p n := hother n (Ne.symm hn)
      have hlt : v < n := by omega
      simp only [ih hlt, List.countP_singleton, hlast]
      omega

theorem countP_range_congr {p q : Nat → Bool} {n : Nat} (h : ∀ w, w < n → q w = p w) :
    (List.range n).countP q = (List.range n).countP p :=
  List.countP_congr fun w hw => by rw [h w (List.mem_range.mp hw)]

/-- Where only number `v` may make a difference, the counts are the same but for it. -/
theorem countP_range_flip {p q : Nat → Bool} {n v : Nat} (hv : v < n)
    (hother : ∀ w, w ≠ v → q w = p w) :
    (List.range n).countP q + (if q v then 0 else 1) =
      (List.range n).countP p + (if p v then 0 else 1) := by
  cases hp : p v with
  | false =>
    cases hq : q v with
    | false =>
      have hsame : ∀ w, w < n → q w = p w := by
        intro w _
        by_cases hw : w = v
        · rw [hw, hp, hq]
        · exact hother w hw
      rw [countP_range_congr hsame]
    | true => rw [countP_range_add_one hv hp hq hother]; rfl
  | true =>
    cases hq : q v with
    | false => rw [countP_range_add_one hv hq hp fun w hw => (hother w hw).symm]; rfl
    | true =>
      have hsame : ∀ w, w < n → q w = p w := by
        intro w _
        by_cases hw : w = v
        · rw [hw, hp, hq]
        · exact hother w hw
      rw [countP_range_congr hsame]

namespace VoicePool

theorem length_ownedBy (p : VoicePool) (i : Nat) :
    (p.ownedBy i).length = (List.range p.limit).countP fun v => (p.voice v).ownedBy i := by
  rw [ownedBy, select, List.countP_eq_length_filter]

/-- What `f` leaves alone in a voice, an update with `f` leaves alone in all. -/
theorem voice_update_of {α : Type} (g : Voice → α) (p : VoicePool) (q : Voice → Bool)
    {f : Voice → Voice} (hf : ∀ v, g (f v) = g v) (v : Nat) :
    g ((p.update q f).voice v) = g (p.voice v) := by
  by_cases hv : v < p.limit
  · rw [voice_update p q f v hv]
    split
    · exact hf _
    · rfl
  · have hout : p.voices.size ≤ v := Nat.le_of_not_lt hv
    simp [voice, update, Array.getD_eq_getD_getElem?, hout]

/-! ## The choice of a voice -/

theorem choose_free {p : VoicePool} {priority : UInt8} {v : Nat}
    (h : p.choose priority = some (.free v)) : v < p.limit ∧ (p.voice v).active = false := by
  unfold choose at h
  split at h
  · next hidle =>
    cases h
    obtain ⟨hv, hactive, -⟩ := Array.findIdx?_eq_some_iff_getElem.mp hidle
    refine ⟨hv, ?_⟩
    simpa [voice, Array.getD_eq_getD_getElem?, hv] using hactive
  · cases hvictim : p.victim? priority with
    | none => simp [hvictim] at h
    | some w => simp [hvictim] at h

theorem victim?_lt {p : VoicePool} {priority : UInt8} {v : Nat}
    (h : p.victim? priority = some v) : v < p.limit := by
  unfold victim? at h
  -- the scan only ever keeps a voice that it has seen
  refine (foldl_keeps
    (fun (l : List Nat) (best : Option Nat) =>
      (∀ w ∈ l, w < p.limit) ∧ ∀ w, best = some w → w < p.limit)
    (fun u l best hseen => ?_) (List.range p.limit) none ?_).2 v h
  · obtain ⟨hl, hbest⟩ := hseen
    have hu : u < p.limit := hl u List.mem_cons_self
    refine ⟨fun w hw => hl w (List.mem_cons_of_mem u hw), fun w hw => ?_⟩
    split at hw
    · exact hbest w hw
    · split at hw
      · cases hw
        exact hu
      · split at hw
        · cases hw
          exact hu
        · exact hbest w hw
  · exact ⟨fun w hw => List.mem_range.mp hw, fun w hw => by cases hw⟩

theorem choose_steal {p : VoicePool} {priority : UInt8} {v : Nat}
    (h : p.choose priority = some (.steal v)) : v < p.limit ∧ (p.voice v).active = true := by
  unfold choose at h
  split at h
  · cases h
  · next hidle =>
    cases hvictim : p.victim? priority with
    | none => simp [hvictim] at h
    | some w =>
      simp only [hvictim, Option.map_some, Option.some.injEq, VoiceChoice.steal.injEq] at h
      subst h
      have hlt := victim?_lt hvictim
      refine ⟨hlt, ?_⟩
      have hbusy := Array.findIdx?_eq_none_iff.mp hidle
      have hmem : p.voice w ∈ p.voices := by
        rw [voice, Array.getD_eq_getD_getElem?, Array.getElem?_eq_getElem hlt]
        exact Array.getElem_mem hlt
      simpa using hbusy _ hmem

end VoicePool

/-- A track of a sequence that plays notes and counts a voice. -/
structure Track.Sounds (t : Track) : Prop where
  active : t.isActive = true
  driver : t.driver = .voices
  counts : t.voicesActive ≠ 0

namespace Engine

variable {σ : Type}

/-! ## The invariants -/

/-- Every track counts the voices that it owns, and has no more than it may. -/
structure Counted (e : Engine σ) : Prop where
  lt : ∀ v, (e.voice v).active = true → (e.voice v).track < e.tracks.size
  count : ∀ i, (e.track i).voicesActive = (e.voices.ownedBy i).length
  atMost : ∀ i, (e.track i).voicesActive ≤ (e.track i).maxVoices

/-- Voice `v`, if it is in use, is owned by a track of a sequence that plays
notes. -/
def OwnerPlays (e : Engine σ) (v : Nat) : Prop :=
  (e.voice v).active = true →
    (e.track (e.voice v).track).isActive = true ∧ (e.track (e.voice v).track).driver = .voices

instance (e : Engine σ) (v : Nat) : Decidable (e.OwnerPlays v) :=
  inferInstanceAs (Decidable (_ → _))

/-- Every voice in use is owned by a track of a sequence that plays notes, and
every track counts the voices that it owns and has no more than it may. -/
structure VoicesOwned (e : Engine σ) : Prop where
  owner : ∀ v, e.OwnerPlays v
  count : ∀ i, (e.track i).voicesActive = (e.voices.ownedBy i).length
  atMost : ∀ i, (e.track i).voicesActive ≤ (e.track i).maxVoices

theorem VoicesOwned.counted {e : Engine σ} (h : e.VoicesOwned) : e.Counted where
  lt v hv := lt_size_of_isActive (h.owner v hv).1
  count := h.count
  atMost := h.atMost

theorem Counted.owned {e : Engine σ} (h : e.Counted) (howner : ∀ v, e.OwnerPlays v) :
    e.VoicesOwned := ⟨howner, h.count, h.atMost⟩

theorem lt_limit_of_active {e : Engine σ} {v : Nat} (h : (e.voice v).active = true) :
    v < e.voices.limit := VoicePool.lt_limit_of_active h

/-- A track that counts no voices owns none. -/
theorem Counted.not_owned {e : Engine σ} (h : e.Counted) {v : Nat}
    (hv : (e.voice v).active = true) : (e.track (e.voice v).track).voicesActive ≠ 0 := by
  rw [h.count, Nat.ne_zero_iff_zero_lt, List.length_pos_iff_exists_mem]
  refine ⟨v, VoicePool.mem_select.mpr ⟨lt_limit_of_active hv, ?_⟩⟩
  simpa [Voice.ownedBy, Engine.voice] using hv

/-! ## What leaves ownership alone -/

/-- The same voices are in use, with the same owners, who count the same and may
own as many. -/
structure SameOwners (e e' : Engine σ) : Prop where
  tracks_size : e'.tracks.size = e.tracks.size
  limit : e'.voices.limit = e.voices.limit
  active : ∀ v, (e'.voice v).active = (e.voice v).active
  track : ∀ v, (e'.voice v).track = (e.voice v).track
  count : ∀ i, (e'.track i).voicesActive = (e.track i).voicesActive
  driver : ∀ i, (e'.track i).driver = (e.track i).driver
  maxVoices : ∀ i, (e'.track i).maxVoices = (e.track i).maxVoices

theorem SameOwners.refl (e : Engine σ) : SameOwners e e :=
  ⟨rfl, rfl, fun _ => rfl, fun _ => rfl, fun _ => rfl, fun _ => rfl, fun _ => rfl⟩

theorem SameOwners.trans {a b c : Engine σ} (hab : SameOwners a b) (hbc : SameOwners b c) :
    SameOwners a c where
  tracks_size := hbc.tracks_size.trans hab.tracks_size
  limit := hbc.limit.trans hab.limit
  active v := (hbc.active v).trans (hab.active v)
  track v := (hbc.track v).trans (hab.track v)
  count i := (hbc.count i).trans (hab.count i)
  driver i := (hbc.driver i).trans (hab.driver i)
  maxVoices i := (hbc.maxVoices i).trans (hab.maxVoices i)

theorem SameSound.owners {e e' : Engine σ} (h : SameSound e e')
    (htrack : ∀ i, (e'.track i).voicesActive = (e.track i).voicesActive ∧
      (e'.track i).driver = (e.track i).driver ∧
      (e'.track i).maxVoices = (e.track i).maxVoices) : SameOwners e e' where
  tracks_size := h.tracks_size
  limit := by rw [h.voices]
  active v := by rw [h.voice]
  track v := by rw [h.voice]
  count i := (htrack i).1
  driver i := (htrack i).2.1
  maxVoices i := (htrack i).2.2

theorem SameOwners.ownedBy {e e' : Engine σ} (h : SameOwners e e') (i : Nat) :
    (e'.voices.ownedBy i).length = (e.voices.ownedBy i).length := by
  rw [VoicePool.length_ownedBy, VoicePool.length_ownedBy, h.limit]
  refine countP_range_congr fun v _ => ?_
  have hactive : (e'.voices.voice v).active = (e.voices.voice v).active := h.active v
  have htrack : (e'.voices.voice v).track = (e.voices.voice v).track := h.track v
  simp only [Voice.ownedBy, hactive, htrack]

theorem SameOwners.counted {e e' : Engine σ} (h : SameOwners e e') (he : e.Counted) :
    e'.Counted where
  lt v hv := by
    rw [h.track, h.tracks_size]
    exact he.lt v (by rwa [h.active] at hv)
  count i := by rw [h.count, h.ownedBy, he.count]
  atMost i := by rw [h.count, h.maxVoices]; exact he.atMost i

theorem sameOwners_pauseTrack (e : Engine σ) (i : Nat) : SameOwners e (e.pauseTrack i) :=
  (sameSound_pauseTrack e i).owners fun j => by
    rw [track_pauseTrack]; split <;> exact ⟨rfl, rfl, rfl⟩

theorem sameOwners_resumeTrack (e : Engine σ) (i : Nat) : SameOwners e (e.resumeTrack i) :=
  (sameSound_resumeTrack e i).owners fun j => by
    rw [track_resumeTrack]; split <;> exact ⟨rfl, rfl, rfl⟩

theorem sameOwners_retireTrack (e : Engine σ) (i : Nat) : SameOwners e (e.retireTrack i) :=
  (sameSound_retireTrack e i).owners fun j => by
    rw [track_retireTrack]; split <;> exact ⟨rfl, rfl, rfl⟩

theorem sameOwners_awaitVoices (e : Engine σ) (i : Nat) : SameOwners e (e.awaitVoices i) :=
  (sameSound_awaitVoices e i).owners fun j => by
    rw [track_awaitVoices]; split <;> exact ⟨rfl, rfl, rfl⟩

/-- An update of voices that keeps their use and their owners. -/
theorem sameOwners_update {e e' : Engine σ} {q : Voice → Bool} {f : Voice → Voice}
    (hvoices : e'.voices = e.voices.update q f) (htracks : e'.tracks = e.tracks)
    (hactive : ∀ v, (f v).active = v.active) (htrack : ∀ v, (f v).track = v.track) :
    SameOwners e e' where
  tracks_size := by rw [htracks]
  limit := by rw [hvoices, VoicePool.limit_update]
  active v := by
    unfold Engine.voice
    rw [hvoices]
    exact VoicePool.voice_update_of Voice.active e.voices q hactive v
  track v := by
    unfold Engine.voice
    rw [hvoices]
    exact VoicePool.voice_update_of Voice.track e.voices q htrack v
  count i := by unfold Engine.track; rw [htracks]
  driver i := by unfold Engine.track; rw [htracks]
  maxVoices i := by unfold Engine.track; rw [htracks]

theorem sameOwners_releaseVoices (e : Engine σ) (i : Nat) : SameOwners e (e.releaseVoices i) := by
  unfold releaseVoices
  split
  · exact .refl e
  · exact sameOwners_update rfl rfl (fun _ => rfl) fun _ => rfl

theorem sameOwners_noteOff (e : Engine σ) (i : Nat) (note : UInt8) :
    SameOwners e (e.noteOff i note) :=
  sameOwners_update rfl rfl (fun _ => rfl) fun _ => rfl

theorem sameOwners_muteTrack (e : Engine σ) (i : Nat) : SameOwners e (e.muteTrack i) := by
  unfold muteTrack
  split
  · exact .refl e
  · exact sameOwners_releaseVoices e i

theorem sameOwners_turnOff (e : Engine σ) (i : Nat) : SameOwners e (e.turnOff i) := by
  rw [turnOff_eq]
  split
  · exact sameOwners_retireTrack e i
  · split
    · exact sameOwners_retireTrack e i
    · exact (sameOwners_releaseVoices e i).trans (sameOwners_awaitVoices _ i)

theorem sameOwners_deed [SoundChip σ] {e e' : Engine σ} (h : Deed e e') : SameOwners e e' := by
  cases h with
  | tuned h =>
    exact {
      tracks_size := h.tracks_size
      limit := by rw [h.voices]
      active := fun v => by rw [h.voice]
      track := fun v => by rw [h.voice]
      count := h.read Track.voicesActive fun _ => rfl
      driver := h.driver
      maxVoices := h.read Track.maxVoices fun _ => rfl }
  | turnOff => exact sameOwners_turnOff e _
  | endSequence s => exact foldl_relates .refl (fun _ _ _ => .trans) sameOwners_turnOff _ e
  | noteOff i note => exact sameOwners_noteOff e i note
  | pauseTrack => exact sameOwners_pauseTrack e _
  | muteTrack i => exact sameOwners_muteTrack e i

/-! ## Tracks that sound -/

/-- A track is retired at once only if it counts no voice, so one that sounds stays. -/
theorem sounds_turnOff (e : Engine σ) (i j : Nat) (h : (e.track j).Sounds) :
    ((e.turnOff i).track j).Sounds := by
  have hother : ∀ e' : Engine σ, i ≠ j → (e'.retireTrack i).track j = e'.track j := by
    intro e' hij
    rw [track_retireTrack, if_neg fun hp => hij hp.1]
  rw [turnOff_eq]
  by_cases hij : i = j
  · subst hij
    rw [h.driver]
    dsimp only
    rw [if_neg h.counts, track_awaitVoices, track_releaseVoices]
    split
    · exact ⟨h.active, h.driver, h.counts⟩
    · exact h
  · split
    · rwa [hother e hij]
    · split
      · rwa [hother e hij]
      · rwa [track_awaitVoices, if_neg fun hp => hij hp.1, track_releaseVoices]

/-- No deed takes a track that sounds out of its sequence. -/
theorem sounds_deed [SoundChip σ] {e e' : Engine σ} (hdeed : Deed e e') {i : Nat}
    (h : (e.track i).Sounds) : (e'.track i).Sounds := by
  cases hdeed with
  | tuned htuned =>
    refine ⟨?_, ?_, ?_⟩
    · rw [htuned.read Track.isActive (fun _ => rfl)]
      exact h.active
    · rw [htuned.driver]
      exact h.driver
    · rw [htuned.read Track.voicesActive (fun _ => rfl)]
      exact h.counts
  | turnOff => exact sounds_turnOff e _ i h
  | endSequence s =>
    exact foldl_keeps (fun _ e => (e.track i).Sounds) (fun j _ e h => sounds_turnOff e j i h) _ e h
  | noteOff => exact h
  | pauseTrack =>
    rw [track_pauseTrack]
    split
    · exact ⟨h.active, h.driver, h.counts⟩
    · exact h
  | muteTrack j =>
    unfold muteTrack
    split
    · exact h
    · rwa [track_releaseVoices]

/-- The same owners own as before if those that sound stay in the pool. -/
theorem SameOwners.owned {e e' : Engine σ} (h : SameOwners e e') (he : e.VoicesOwned)
    (hactive : ∀ i, (e.track i).Sounds → (e'.track i).isActive = true) : e'.VoicesOwned := by
  refine (h.counted he.counted).owned fun v hv => ?_
  rw [h.active] at hv
  obtain ⟨howner, hdriver⟩ := he.owner v hv
  rw [h.track, h.driver]
  exact ⟨hactive _ ⟨howner, hdriver, he.counted.not_owned hv⟩, hdriver⟩

theorem VoicesOwned.turnOff {e : Engine σ} (h : e.VoicesOwned) (i : Nat) :
    (e.turnOff i).VoicesOwned :=
  (sameOwners_turnOff e i).owned h fun j hj => (sounds_turnOff e i j hj).active

theorem VoicesOwned.deed [SoundChip σ] {e e' : Engine σ} (h : e.VoicesOwned)
    (hdeed : Deed e e') : e'.VoicesOwned :=
  (sameOwners_deed hdeed).owned h fun _ hi => (sounds_deed hdeed hi).active

/-! ## Voices given and taken -/

theorem voice_freeVoice (e : Engine σ) (v w : Nat) :
    (e.freeVoice v).voice w =
      if v = w ∧ (e.voice v).active then { e.voice v with active := false, release := false }
      else e.voice w := by
  unfold Engine.voice
  rw [voices_freeVoice, VoicePool.voice_vacate]

theorem active_freeVoice (e : Engine σ) (v w : Nat) :
    ((e.freeVoice v).voice w).active = (decide (v ≠ w) && (e.voice w).active) := by
  rw [voice_freeVoice]
  by_cases hvw : v = w
  · subst hvw
    cases hv : (e.voice v).active <;> simp [hv]
  · simp [hvw]

theorem owner_freeVoice (e : Engine σ) (v w : Nat) :
    ((e.freeVoice v).voice w).track = (e.voice w).track := by
  rw [voice_freeVoice]
  split
  · next h => obtain ⟨rfl, -⟩ := h; rfl
  · rfl

@[simp] theorem tracks_size_freeVoice (e : Engine σ) (v : Nat) :
    (e.freeVoice v).tracks.size = e.tracks.size := by
  rw [freeVoice_eq]
  split
  · split
    · rw [(sameSound_retireTrack _ _).tracks_size, tracks_size_dropVoice]
    · exact tracks_size_dropVoice e v
  · rfl

@[simp] theorem limit_freeVoice (e : Engine σ) (v : Nat) :
    (e.freeVoice v).voices.limit = e.voices.limit := by
  rw [voices_freeVoice, VoicePool.limit_vacate]

/-- The owner of a freed voice owns one less, every other track as many. -/
theorem ownedBy_freeVoice (e : Engine σ) (v i : Nat) :
    (e.voices.ownedBy i).length = ((e.freeVoice v).voices.ownedBy i).length +
      (if (e.voice v).ownedBy i then 1 else 0) := by
  simp only [VoicePool.length_ownedBy, limit_freeVoice]
  have hother : ∀ w, w ≠ v →
      (e.voices.voice w).ownedBy i = ((e.freeVoice v).voices.voice w).ownedBy i := by
    intro w hw
    have hactive := active_freeVoice e v w
    have howner := owner_freeVoice e v w
    simp only [Engine.voice] at hactive howner
    simp [Voice.ownedBy, hactive, howner, hw.symm]
  split
  case isTrue h =>
    have hactive : (e.voice v).active = true := by
      simp only [Voice.ownedBy, Bool.and_eq_true] at h
      exact h.1
    refine countP_range_add_one (lt_limit_of_active hactive) ?_ h hother
    have hidle := active_freeVoice e v v
    simp only [Engine.voice] at hidle
    simp [Voice.ownedBy, hidle]
  case isFalse h =>
    refine countP_range_congr fun w _ => ?_
    by_cases hw : w = v
    · subst hw
      have hidle := active_freeVoice e w w
      simp only [Engine.voice] at hidle h
      simp [Voice.ownedBy, hidle] at h ⊢
      simpa using h
    · exact hother w hw

/-- With a voice that is freed its owner counts one less. -/
theorem balance_freeVoice {e : Engine σ} (v : Nat) {i : Nat}
    (h : (e.voices.ownedBy i).length ≤ (e.track i).voicesActive) :
    ((e.freeVoice v).track i).voicesActive + (e.voices.ownedBy i).length =
      (e.track i).voicesActive + ((e.freeVoice v).voices.ownedBy i).length := by
  have hcount := ownedBy_freeVoice e v i
  rw [track_freeVoice]
  by_cases hown : (e.voice v).ownedBy i = true
  · rw [if_pos hown] at hcount
    simp only [Voice.ownedBy, Bool.and_eq_true, beq_iff_eq] at hown
    have hlt : i < e.tracks.size := by
      by_contra hout
      rw [track_of_size_le (Nat.le_of_not_lt hout)] at h
      simp only [Nat.le_zero] at h
      omega
    rw [if_pos ⟨hown.1, hown.2, hlt⟩, Track.voicesActive_voiceFreed]
    omega
  · have hnot : ¬ ((e.voice v).active = true ∧ (e.voice v).track = i ∧ i < e.tracks.size) := by
      rintro ⟨hactive, htrack, -⟩
      exact hown (by simp [Voice.ownedBy, hactive, htrack])
    rw [if_neg hnot]
    rw [if_neg hown] at hcount
    omega

theorem Counted.freeVoice {e : Engine σ} (h : e.Counted) (v : Nat) : (e.freeVoice v).Counted where
  lt w hw := by
    rw [active_freeVoice, Bool.and_eq_true] at hw
    rw [owner_freeVoice, tracks_size_freeVoice]
    exact h.lt w hw.2
  count i := by
    have hcount := h.count i
    have hbalance := balance_freeVoice v (Nat.le_of_eq hcount.symm)
    omega
  atMost i := by
    rw [((steps_freeVoice e v) i).maxVoices, track_freeVoice]
    have hmost := h.atMost i
    split
    · rw [Track.voicesActive_voiceFreed]
      omega
    · exact hmost

/-- A voice that is freed leaves every other voice to an owner that plays, since
only a track without voices leaves the pool for it. -/
theorem VoicesOwned.freeVoice {e : Engine σ} (h : e.VoicesOwned) (v : Nat) :
    (e.freeVoice v).VoicesOwned := by
  have hcounted := h.counted.freeVoice v
  refine hcounted.owned fun w hw => ?_
  have hcount := hcounted.not_owned hw
  have hold := hw
  rw [active_freeVoice, Bool.and_eq_true] at hold
  obtain ⟨hactive, hdriver⟩ := h.owner w hold.2
  rw [owner_freeVoice] at hcount ⊢
  rw [track_freeVoice] at hcount ⊢
  split
  case isTrue hown =>
    rw [if_pos hown, Track.voicesActive_voiceFreed] at hcount
    have hstays : (e.track (e.voice w).track).voiceFreed =
        (e.track (e.voice w).track).withoutVoice :=
      if_neg fun hlast => hcount hlast.1
    rw [hstays]
    exact ⟨hactive, hdriver⟩
  case isFalse => exact ⟨hactive, hdriver⟩

theorem freeVoice_of_idle {e : Engine σ} {v : Nat} (h : (e.voice v).active = false) :
    e.freeVoice v = e := by
  rw [freeVoice_eq, h]
  rfl

/-! ## Tracks that start and go on, handles that are released -/

theorem VoicesOwned.resumeTrack {e : Engine σ} (h : e.VoicesOwned) (i : Nat) :
    (e.resumeTrack i).VoicesOwned := by
  refine (sameOwners_resumeTrack e i).owned h fun j hj => ?_
  rw [track_resumeTrack]
  split
  · exact hj.active
  · exact hj.active

/-- A track outside the sequences has no voice. -/
theorem VoicesOwned.silent {e : Engine σ} (h : e.VoicesOwned) {i : Nat}
    (hi : (e.track i).isActive = false) : (e.voices.ownedBy i).length = 0 := by
  rw [List.length_eq_zero_iff, List.eq_nil_iff_forall_not_mem]
  intro v hv
  have hown := (VoicePool.mem_select.mp hv).2
  simp only [Voice.ownedBy, Bool.and_eq_true, beq_iff_eq] at hown
  have hactive := (h.owner v hown.1).1
  rw [show (e.voice v).track = i from hown.2, hi] at hactive
  cases hactive

theorem voices_startTrack (e : Engine σ) (slot sequence : Nat) (options : StartOptions)
    (i position : Nat) :
    (e.startTrack slot sequence options i position).voices = e.voices := by
  unfold startTrack
  split <;> rfl

theorem VoicesOwned.startTrack {e : Engine σ} (h : e.VoicesOwned) {i : Nat}
    (hi : (e.track i).isActive = false) (slot sequence : Nat) (options : StartOptions)
    (position : Nat) : (e.startTrack slot sequence options i position).VoicesOwned := by
  obtain ⟨t, -, -, -, -, hcount, -, -, -, htrack⟩ :=
    track_startTrack e slot sequence options i position
  have hvoices := voices_startTrack e slot sequence options i position
  constructor
  case owner =>
    intro v hv
    have hread : (e.startTrack slot sequence options i position).voice v = e.voice v := by
      unfold Engine.voice; rw [hvoices]
    rw [hread] at hv ⊢
    have howner := h.owner v hv
    have hne : ¬ i = (e.voice v).track := by
      rintro rfl
      rw [hi] at howner
      cases howner.1
    rw [htrack, if_neg fun hp => hne hp.2.1]
    exact howner
  case count =>
    intro j
    rw [hvoices, htrack]
    split
    · next hp =>
      obtain ⟨-, rfl, -⟩ := hp
      rw [hcount, h.silent hi]
    · exact h.count j
  case atMost =>
    intro j
    rw [htrack]
    split
    · rw [hcount]
      exact Nat.zero_le _
    · exact h.atMost j

theorem VoicesOwned.startSequence {e : Engine σ} (h : e.VoicesOwned) (sequence : Nat)
    (options : StartOptions) : (e.startSequence sequence options).2.VoicesOwned :=
  startSequence_keeps (fun _ _ _ he => ⟨he.owner, he.count, he.atMost⟩)
    (fun _ _ he => ⟨he.owner, he.count, he.atMost⟩)
    (fun _ slot sequence _ position hi he => he.startTrack hi slot sequence options position)
    sequence h

theorem VoicesOwned.unhandle {e : Engine σ} (h : e.VoicesOwned) (i : Nat) :
    (e.modifyTrack i Track.unhandled).VoicesOwned := by
  have hsame : SameOwners e (e.modifyTrack i Track.unhandled) :=
    (sameSound_modifyTrack e i _).owners fun j => by
      rw [track_unhandle]
      split <;> exact ⟨rfl, rfl, rfl⟩
  refine hsame.owned h fun j hj => ?_
  rw [track_unhandle]
  split
  · exact hj.active
  · exact hj.active

theorem VoicesOwned.releaseHandle {e : Engine σ} (h : e.VoicesOwned) (slot : Nat) :
    (e.releaseHandle slot).VoicesOwned :=
  releaseHandle_keeps (fun _ _ _ he => ⟨he.owner, he.count, he.atMost⟩)
    (fun _ i he => (he.unhandle i).turnOff i) slot h

theorem VoicesOwned.restart {e : Engine σ} (h : e.VoicesOwned) (sequence : Nat) :
    (e.restart sequence).VoicesOwned :=
  restart_keeps (fun e => e.VoicesOwned) (fun _ _ i _ he => he.resumeTrack i) sequence h

/-! ## Notes -/

section Notes

variable [SoundChip σ]

theorem tracks_size_startVoice (e : Engine σ) (v i : Nat) (patchVoice : UInt16)
    (note velocity : UInt8) :
    (e.startVoice v i patchVoice note velocity).tracks.size = e.tracks.size := by
  cases h : e.module.patches.voice? patchVoice.toNat with
  | none => rw [startVoice_of_none h]
  | some patch =>
    obtain ⟨_, _, _, -, -, hstarted⟩ := startVoice_of_some v i note velocity h
    rw [hstarted]
    simp [modifyTrack]

/-- A note that starts is the one that its voice plays. -/
theorem voice_startVoice {e : Engine σ} {patchVoice : UInt16} {patch : PatchVoice} {v : Nat}
    (i : Nat) (note velocity : UInt8) (hv : v < e.voices.limit)
    (h : e.module.patches.voice? patchVoice.toNat = some patch) :
    ∃ voice : Voice, voice.track = i ∧ voice.patchVoice = patchVoice ∧
      (e.startVoice v i patchVoice note velocity).voices.limit = e.voices.limit ∧
      ∀ w, (e.startVoice v i patchVoice note velocity).voice w =
        if v = w then { voice with active := true, release := false } else e.voice w := by
  obtain ⟨voice, chip, reverbVoices, htrack, hplays, hstarted⟩ :=
    startVoice_of_some v i note velocity h
  refine ⟨voice, htrack, hplays, ?_, fun w => ?_⟩
  · rw [hstarted]
    exact VoicePool.limit_occupy e.voices v voice
  · rw [hstarted]
    exact VoicePool.voice_occupy e.voices v w voice hv

/-- A note is dropped, or it takes a voice, from another note if need be. -/
theorem playNote_eq (e : Engine σ) (i : Nat) (patchVoice : UInt16) (note velocity : UInt8) :
    e.playNote i patchVoice note velocity = e ∨
      ((e.track i).voicesActive < (e.track i).maxVoices ∧ ∃ v, v < e.voices.limit ∧
        e.playNote i patchVoice note velocity =
          (e.freeVoice v).startVoice v i patchVoice note velocity) := by
  unfold playNote
  dsimp only
  split
  · exact .inl rfl
  · next hroom =>
    have hlt := Nat.lt_of_not_le hroom
    split
    · exact .inl rfl
    · next v hchoice =>
      obtain ⟨hv, hidle⟩ := VoicePool.choose_free hchoice
      refine .inr ⟨hlt, v, hv, ?_⟩
      rw [freeVoice_of_idle hidle]
    · next v hchoice =>
      exact .inr ⟨hlt, v, (VoicePool.choose_steal hchoice).1, rfl⟩

/-- The track of a note that starts on an idle voice owns one more, every other track as
many. -/
theorem ownedBy_startVoice {e : Engine σ} {patchVoice : UInt16} {patch : PatchVoice} {v : Nat}
    (i : Nat) (note velocity : UInt8) (hv : v < e.voices.limit)
    (hidle : (e.voice v).active = false)
    (h : e.module.patches.voice? patchVoice.toNat = some patch) (j : Nat) :
    ((e.startVoice v i patchVoice note velocity).voices.ownedBy j).length =
      (e.voices.ownedBy j).length + (if i = j then 1 else 0) := by
  obtain ⟨voice, htrack, -, hlimit, hread⟩ := voice_startVoice i note velocity hv h
  rw [VoicePool.length_ownedBy, VoicePool.length_ownedBy, hlimit]
  have hother : ∀ w, w ≠ v →
      ((e.startVoice v i patchVoice note velocity).voices.voice w).ownedBy j =
        (e.voices.voice w).ownedBy j := by
    intro w hw
    have hsame := hread w
    rw [if_neg hw.symm] at hsame
    exact congrArg (·.ownedBy j) hsame
  have hbefore : (e.voices.voice v).ownedBy j = false := by
    have hoff : (e.voices.voice v).active = false := hidle
    simp [Voice.ownedBy, hoff]
  have hafter : ((e.startVoice v i patchVoice note velocity).voices.voice v).ownedBy j =
      decide (i = j) := by
    have hfresh := hread v
    rw [if_pos rfl] at hfresh
    rw [show (e.startVoice v i patchVoice note velocity).voices.voice v = _ from hfresh]
    simp only [Voice.ownedBy, htrack, Bool.true_and]
    rfl
  by_cases hij : i = j
  · rw [if_pos hij]
    exact countP_range_add_one hv hbefore (by rw [hafter, decide_eq_true hij]) hother
  · rw [if_neg hij]
    refine countP_range_congr fun w _ => ?_
    by_cases hw : w = v
    · rw [hw, hbefore, hafter, decide_eq_false hij]
    · exact hother w hw

/-- With a note that starts on an idle voice its track counts one more. -/
theorem balance_startVoice {e : Engine σ} {v i : Nat} (patchVoice : UInt16)
    (note velocity : UInt8) (hv : v < e.voices.limit)
    (hidle : (e.voice v).active = false) (hi : i < e.tracks.size) (j : Nat) :
    ((e.startVoice v i patchVoice note velocity).track j).voicesActive +
        (e.voices.ownedBy j).length =
      (e.track j).voicesActive +
        ((e.startVoice v i patchVoice note velocity).voices.ownedBy j).length := by
  cases hpatch : e.module.patches.voice? patchVoice.toNat with
  | none => rw [startVoice_of_none hpatch]
  | some patch =>
    rw [track_startVoice, ownedBy_startVoice i note velocity hv hidle hpatch]
    by_cases hij : i = j
    · subst hij
      rw [if_pos ⟨by rw [hpatch]; rfl, rfl, hi⟩, if_pos rfl]
      simp only [Track.withVoice]
      omega
    · rw [if_neg fun hp => hij hp.2.1, if_neg hij, Nat.add_zero]

/-- A note on an idle voice for a track that may have another. -/
theorem Counted.startVoice {e : Engine σ} (h : e.Counted) {v i : Nat} (hv : v < e.voices.limit)
    (hidle : (e.voice v).active = false) (hi : i < e.tracks.size)
    (hroom : (e.track i).voicesActive < (e.track i).maxVoices) (patchVoice : UInt16)
    (note velocity : UInt8) : (e.startVoice v i patchVoice note velocity).Counted := by
  constructor
  case lt =>
    intro w hw
    rw [tracks_size_startVoice]
    cases hpatch : e.module.patches.voice? patchVoice.toNat with
    | none =>
      rw [startVoice_of_none hpatch] at hw ⊢
      exact h.lt w hw
    | some patch =>
      obtain ⟨voice, htrack, -, -, hread⟩ := voice_startVoice i note velocity hv hpatch
      rw [hread] at hw ⊢
      split
      · exact htrack ▸ hi
      · next hvw => exact h.lt w (by rwa [if_neg hvw] at hw)
  case count =>
    intro j
    have hbalance := balance_startVoice patchVoice note velocity hv hidle hi j
    have hcount := h.count j
    omega
  case atMost =>
    intro j
    rw [((steps_startVoice e v i patchVoice note velocity) j).maxVoices, track_startVoice]
    split
    · next hp =>
      obtain ⟨-, rfl, -⟩ := hp
      exact hroom
    · exact h.atMost j

/-- Whatever note is struck for whatever track, voices are counted. -/
theorem Counted.playNote {e : Engine σ} (h : e.Counted) (i : Nat) (patchVoice : UInt16)
    (note velocity : UInt8) : (e.playNote i patchVoice note velocity).Counted := by
  rcases playNote_eq e i patchVoice note velocity with heq | ⟨hroom, v, hv, heq⟩
  · rw [heq]
    exact h
  · have hi : i < e.tracks.size := by
      by_contra hout
      rw [track_of_size_le (Nat.le_of_not_lt hout)] at hroom
      exact absurd hroom (Nat.not_lt_zero 0)
    have hcount : ((e.freeVoice v).track i).voicesActive ≤ (e.track i).voicesActive := by
      rw [track_freeVoice]
      split
      · rw [Track.voicesActive_voiceFreed]
        exact Nat.sub_le _ 1
      · exact Nat.le_refl _
    have hmost := ((steps_freeVoice e v) i).maxVoices
    rw [heq]
    refine (h.freeVoice v).startVoice (by simpa using hv) ?_ (by simpa using hi) ?_ _ _ _
    · simp [active_freeVoice]
    · rw [hmost]
      exact Nat.lt_of_le_of_lt hcount hroom

theorem Counted.noteOn {e : Engine σ} (h : e.Counted) (i : Nat) (key velocity : UInt8) :
    (e.noteOn i key velocity).Counted := by
  unfold Engine.noteOn
  split
  · exact h
  · next patch note hmeaning =>
    generalize soundingVoices e.module.patches patch note = indices
    clear hmeaning
    induction indices generalizing e with
    | nil => exact h
    | cons index indices ih => exact ih (h.playNote i _ note velocity)

/-- A note struck for a track that may play is owned by it. -/
theorem VoicesOwned.playNote {e : Engine σ} (h : e.VoicesOwned) {i : Nat}
    (hi : (e.track i).MayPlay) (patchVoice : UInt16) (note velocity : UInt8) :
    (e.playNote i patchVoice note velocity).VoicesOwned := by
  refine (h.counted.playNote i patchVoice note velocity).owned fun w hw => ?_
  rcases playNote_eq e i patchVoice note velocity with heq | ⟨-, v, hv, heq⟩
  · rw [heq] at hw ⊢
    exact h.owner w hw
  · have hfreed := h.freeVoice v
    have hplays := freeVoice_keeps Track.MayPlay.voiceFreed hi v
    rw [heq] at hw ⊢
    cases hpatch : (e.freeVoice v).module.patches.voice? patchVoice.toNat with
    | none =>
      rw [startVoice_of_none hpatch] at hw ⊢
      exact hfreed.owner w hw
    | some patch =>
      obtain ⟨voice, htrack, -, -, hread⟩ :=
        voice_startVoice i note velocity (by simpa using hv) hpatch
      rw [hread] at hw ⊢
      by_cases hvw : v = w
      · rw [if_pos hvw, htrack]
        have hstarted :=
          startVoice_keeps Track.MayPlay.withVoice hplays v i patchVoice note velocity
        exact ⟨hstarted.active, hstarted.driver⟩
      · rw [if_neg hvw] at hw ⊢
        rw [track_startVoice]
        split
        · exact hfreed.owner w hw
        · exact hfreed.owner w hw

/-- A key played on a track that may play leaves it so, and all voices owned. -/
theorem VoicesOwned.noteOn {e : Engine σ} (h : e.VoicesOwned) {i : Nat}
    (hi : (e.track i).MayPlay) (key velocity : UInt8) :
    (e.noteOn i key velocity).VoicesOwned := by
  unfold Engine.noteOn
  split
  · exact h
  · next patch note _ =>
    have hkeys := foldl_keeps
      (f := fun e index => e.playNote i (UInt16.ofNat index) note velocity)
      (fun _ e => e.VoicesOwned ∧ (e.track i).MayPlay)
      (fun index _ e he => by
        obtain ⟨howned, hplays⟩ := he
        exact ⟨howned.playNote hplays _ note velocity,
          playNote_keeps Track.MayPlay.voiceFreed Track.MayPlay.withVoice hplays i _ note velocity⟩)
      (soundingVoices e.module.patches patch note) e ⟨h, hi⟩
    exact hkeys.1

end Notes

end Engine

end SoundSequencer
