/-
SoundSequencer.Proofs.HeldNotes — a muting pause and the restart after it.

* `Engine.noteOf` is the note of a voice as a pause puts it aside, `Engine.heldVoices`
  the voices that hold a note of music, `Engine.playing` what the voices in use play.
* `Engine.PutAside` is kept by the turns of a muting pause: `putAside_pauseAll`.
* `Engine.Muted` leads through the tick behind it to an engine without a voice in use:
  `Muted.tick`.
* `Engine.Replayed` is kept by a restart: each note put aside finds an idle voice, since
  no track held more than it may have and no more notes were held than there are voices.
* `pauseAll_restartSaved` has all three together.
-/
import SoundSequencer.Proofs.Executions
import SoundSequencer.Proofs.Roster
import SoundSequencer.Proofs.Sounding

namespace SoundSequencer

/-- Grouped by their keys, the members of a list are all there, in some order. -/
theorem flatMap_filter_perm {α : Type} (key : α → Nat) (xs : List α) : ∀ {keys : List Nat},
    keys.Nodup → (∀ x ∈ xs, key x ∈ keys) →
      (keys.flatMap fun k => xs.filter fun x => key x == k).Perm xs := by
  intro keys
  induction keys generalizing xs with
  | nil =>
    intro _ hcovered
    cases xs with
    | nil => exact .refl _
    | cons x xs => exact absurd (hcovered x List.mem_cons_self) List.not_mem_nil
  | cons k keys ih =>
    intro hnodup hcovered
    obtain ⟨hnot, hrest⟩ := List.nodup_cons.mp hnodup
    -- the other keys group what the first key leaves
    have hothers : ∀ x ∈ xs.filter (fun x => !(key x == k)), key x ∈ keys := by
      intro x hx
      obtain ⟨hx, hne⟩ := List.mem_filter.mp hx
      exact List.mem_of_ne_of_mem (by simpa using hne) (hcovered x hx)
    have hgroup : ∀ k' ∈ keys, (xs.filter fun x => key x == k') =
        (xs.filter fun x => !(key x == k)).filter fun x => key x == k' := by
      intro k' hk'
      rw [List.filter_filter]
      refine List.filter_congr fun x _ => ?_
      by_cases hx : key x = k'
      · have hne : key x ≠ k := fun hk => hnot (hk ▸ hx ▸ hk')
        simp [hx, hx ▸ hne]
      · simp [hx]
    rw [List.flatMap_cons, List.flatMap_congr hgroup]
    exact ((ih _ hrest hothers).append_left _).trans (List.filter_append_perm _ xs)

/-- There is nothing behind the last voice. -/
theorem VoicePool.voice_of_limit_le {p : VoicePool} {v : Nat} (h : p.limit ≤ v) :
    p.voice v = {} := by
  rw [voice, Array.getD_eq_getD_getElem?, Array.getElem?_eq_none h, Option.getD_none]

/-! ## What is played -/

/-- What a voice plays: track, note, velocity, patch voice and sample. -/
def Voice.tone (v : Voice) : Nat × UInt8 × UInt8 × UInt16 × UInt16 :=
  (v.track, v.note, v.velocity, v.patchVoice, v.sample)

/-- What a voice plays once the note is struck again. -/
def SavedNote.tone (n : SavedNote) : Nat × UInt8 × UInt8 × UInt16 × UInt16 :=
  (n.track, n.note, n.velocity, n.patchVoice, n.sample)

namespace VoicePool

/-- What the voices in use play. -/
def playing (p : VoicePool) : List (Nat × UInt8 × UInt8 × UInt16 × UInt16) :=
  (p.select (·.active)).map fun v => (p.voice v).tone

theorem nodup_select (p : VoicePool) (q : Voice → Bool) : (p.select q).Nodup :=
  List.nodup_range.filter _

/-- A voice that was idle joins those in use. -/
theorem select_occupy {p : VoicePool} {v : Nat} (hv : v < p.limit)
    (hidle : (p.voice v).active = false) (voice : Voice) :
    ((p.occupy v voice).select (·.active)).Perm (v :: p.select (·.active)) := by
  have hnot : v ∉ p.select (·.active) := fun hmem =>
    Bool.false_ne_true (hidle.symm.trans (mem_select.mp hmem).2)
  refine (List.perm_ext_iff_of_nodup (nodup_select _ _)
    (List.nodup_cons.mpr ⟨hnot, nodup_select _ _⟩)).mpr fun w => ?_
  rw [List.mem_cons, mem_select, mem_select, limit_occupy, voice_occupy p v w voice hv]
  by_cases hw : v = w
  · subst hw
    simp [hv]
  · simp [hw, Ne.symm hw]

theorem playing_occupy {p : VoicePool} {v : Nat} (hv : v < p.limit)
    (hidle : (p.voice v).active = false) (voice : Voice) :
    (p.occupy v voice).playing.Perm (voice.tone :: p.playing) := by
  refine ((select_occupy hv hidle voice).map _).trans ?_
  rw [List.map_cons, voice_occupy p v v voice hv, if_pos rfl]
  refine .cons _ (.of_eq (List.map_congr_left fun w hw => ?_))
  have hne : v ≠ w := by
    rintro rfl
    exact Bool.false_ne_true (hidle.symm.trans (mem_select.mp hw).2)
  rw [voice_occupy p v w voice hv, if_neg hne]

theorem exists_choose_free {p : VoicePool} {v : Nat} (hv : v < p.limit)
    (hidle : (p.voice v).active = false) (priority : UInt8) :
    ∃ w, p.choose priority = some (.free w) := by
  cases hfirst : p.firstIdle? with
  | some w => exact ⟨w, by rw [choose, hfirst]⟩
  | none =>
    have hbusy := Array.findIdx?_eq_none_iff.mp hfirst
    have hmem : p.voice v ∈ p.voices := by
      rw [voice, Array.getD_eq_getD_getElem?, Array.getElem?_eq_getElem hv]
      exact Array.getElem_mem hv
    have hactive : (p.voice v).active = true := by simpa using hbusy _ hmem
    exact absurd (hidle.symm.trans hactive) Bool.false_ne_true

/-- Where fewer notes play than there are voices, one is idle. -/
theorem exists_idle {p : VoicePool} (h : p.playing.length < p.limit) :
    ∃ v, v < p.limit ∧ (p.voice v).active = false := by
  by_contra hnone
  have hall : p.select (·.active) = List.range p.limit := by
    refine List.filter_eq_self.mpr fun v hv => ?_
    have hv := List.mem_range.mp hv
    exact Bool.not_eq_false _ ▸ fun hidle => hnone ⟨v, hv, hidle⟩
  rw [playing, List.length_map, hall, List.length_range] at h
  exact Nat.lt_irrefl _ h

/-- A track has as many voices as notes of its play. -/
theorem countP_playing (p : VoicePool) (i : Nat) :
    p.playing.countP (fun tone => tone.1 == i) = (p.ownedBy i).length := by
  rw [playing, List.countP_map, select, List.countP_filter, length_ownedBy]
  refine List.countP_congr fun v _ => ?_
  simp [Voice.tone, Voice.ownedBy, and_comm]

end VoicePool

namespace Engine

/-- The note of voice `v` as a pause puts it aside. -/
def noteOf {σ : Type} (e : Engine σ) (v : Nat) : SavedNote :=
  let voice := e.voice v
  { sequence := (e.slot (e.track voice.track).slot).sequence, track := voice.track,
    note := voice.note, velocity := voice.velocity, patchVoice := voice.patchVoice,
    sample := voice.sample }

/-- The voices that hold a note of music. -/
def heldVoices {σ : Type} (e : Engine σ) : List Nat :=
  e.voices.select fun v => v.sounding && decide ((e.track v.track).soundClass = .music)

variable {σ : Type}

theorem length_heldVoices_le (e : Engine σ) : e.heldVoices.length ≤ e.voices.limit := by
  have hlength := List.length_filter_le
    (fun v => (e.voices.voice v).sounding &&
      decide ((e.track (e.voices.voice v).track).soundClass = .music)) (List.range e.voices.limit)
  rwa [List.length_range] at hlength

theorem mem_heldVoices {e : Engine σ} {v : Nat} :
    v ∈ e.heldVoices ↔ (e.voice v).active = true ∧ (e.voice v).release = false ∧
      (e.track (e.voice v).track).soundClass = .music := by
  unfold heldVoices
  rw [VoicePool.mem_select]
  simp only [Voice.sounding, Bool.and_eq_true, Bool.not_eq_true', decide_eq_true_eq, and_assoc]
  exact ⟨fun h => h.2, fun h => ⟨lt_limit_of_active h.1, h⟩⟩

/-- A track holds no more notes than it has voices. -/
theorem countP_heldVoices_le (e : Engine σ) (i : Nat) :
    e.heldVoices.countP (fun v => (e.voice v).track == i) ≤ (e.voices.ownedBy i).length := by
  unfold heldVoices VoicePool.select
  rw [List.countP_filter, VoicePool.length_ownedBy]
  refine List.countP_mono_left fun v _ hv => ?_
  simp only [Voice.sounding, Bool.and_eq_true] at hv
  rw [Voice.ownedBy, Bool.and_eq_true]
  exact ⟨hv.2.1.1, hv.1⟩

/-- A track's share of the held voices is what a pause puts aside for it. -/
theorem heldMusic_eq {e : Engine σ} (h : e.VoicesOwned) (i : Nat) :
    e.heldMusic i = (e.heldVoices.filter fun v => (e.voice v).track == i).map e.noteOf := by
  unfold heldMusic
  dsimp only
  split
  · next hnone =>
    symm
    rw [List.map_eq_nil_iff, List.filter_eq_nil_iff]
    intro v hv htrack
    obtain ⟨hactive, -, hmusic⟩ := mem_heldVoices.mp hv
    have howner : (e.voice v).track = i := by simpa using htrack
    subst howner
    rcases hnone with hsilent | hcount | hclass
    · rw [(h.owner v hactive).2] at hsilent
      cases hsilent
    · exact h.counted.not_owned hactive hcount
    · exact hclass hmusic
  · next hholds =>
    simp only [not_or, not_not] at hholds
    unfold heldVoices VoicePool.select
    rw [List.filter_filter]
    have hsame : ∀ v, ((e.voices.voice v).ownedBy i && !(e.voices.voice v).release) =
        ((e.voice v).track == i && ((e.voices.voice v).sounding &&
          decide ((e.track (e.voices.voice v).track).soundClass = .music))) := by
      intro v
      by_cases howner : (e.voices.voice v).track = i
      · simp [Voice.ownedBy, Voice.sounding, Engine.voice, howner, hholds.2.2]
      · have hother : ((e.voices.voice v).track == i) = false := by simpa using howner
        simp [Voice.ownedBy, Engine.voice, hother]
    simp only [hsame]
    refine List.map_congr_left fun v hv => ?_
    have howner : (e.voice v).track = i := by
      have hv := (List.mem_filter.mp hv).2
      simp only [Bool.and_eq_true, beq_iff_eq] at hv
      exact hv.1
    simp only [noteOf, howner]

/-- What a pause puts aside, track by track, are the notes of all held voices. -/
theorem heldMusic_perm {e : Engine σ} (hroster : e.Rostered) (howned : e.VoicesOwned) :
    (e.roster.flatMap e.heldMusic).Perm (e.heldVoices.map e.noteOf) := by
  have hgrouped := flatMap_filter_perm (fun v => (e.voice v).track) e.heldVoices
    hroster.nodup fun v hv => (hroster.mem _).mpr (howned.owner v (mem_heldVoices.mp hv).1).1
  rw [List.flatMap_congr fun i _ => heldMusic_eq howned i, ← List.map_flatMap]
  exact hgrouped.map _

/-! ## The pause -/

/-- What a track holds depends on its own voices alone. -/
theorem heldMusic_congr {e e' : Engine σ} {i : Nat} (hstance : SameStance e e')
    (howners : SameOwners e e')
    (hvoice : ∀ v, (e.voice v).ownedBy i = true → e'.voice v = e.voice v) :
    e'.heldMusic i = e.heldMusic i := by
  have howned : ∀ v, (e'.voice v).ownedBy i = (e.voice v).ownedBy i := fun v => by
    rw [Voice.ownedBy, Voice.ownedBy, howners.active, howners.track]
  have hselect : (e'.voices.select fun v => v.ownedBy i && !v.release) =
      e.voices.select fun v => v.ownedBy i && !v.release := by
    unfold VoicePool.select
    rw [howners.limit]
    refine List.filter_congr fun v _ => ?_
    show ((e'.voice v).ownedBy i && !(e'.voice v).release) =
      ((e.voice v).ownedBy i && !(e.voice v).release)
    rw [howned]
    cases hv : (e.voice v).ownedBy i with
    | false => rfl
    | true => rw [hvoice v hv]
  have hsequence : (e'.slot (e'.track i).slot).sequence = (e.slot (e.track i).slot).sequence := by
    rw [hstance.home]
    exact (congrArg (fun d => d.2.1) (hstance.desk _) :)
  unfold heldMusic
  simp only [howners.driver, howners.count, hselect, hsequence,
    hstance.read Track.soundClass fun _ => rfl]
  split
  · rfl
  · refine List.map_congr_left fun v hv => ?_
    have hv := (VoicePool.mem_select.mp hv).2
    simp only [Bool.and_eq_true] at hv
    rw [hvoice v hv.1]

/-- Muting a track changes its own voices alone. -/
theorem voice_muteTrack_of_not_owned (e : Engine σ) {i v : Nat}
    (hv : (e.voice v).ownedBy i = false) : (e.muteTrack i).voice v = e.voice v := by
  unfold muteTrack releaseVoices
  split
  · rfl
  · split
    · rfl
    · rcases Nat.lt_or_ge v e.voices.limit with hlimit | hlimit
      · refine (VoicePool.voice_update e.voices _ _ v hlimit).trans (if_neg ?_)
        exact Bool.eq_false_iff.mp hv
      · refine (VoicePool.voice_of_limit_le ?_).trans (VoicePool.voice_of_limit_le hlimit).symm
        exact Nat.le_trans (Nat.le_of_eq (VoicePool.limit_update _ _ _)) hlimit

/-- The turn of a track in a muting pause. -/
theorem sameOwners_putAside (e : Engine σ) (i : Nat) :
    SameOwners e ((e.muteTrack i).pauseTrack i) :=
  (sameOwners_muteTrack e i).trans (sameOwners_pauseTrack _ i)

theorem sameStance_putAside (e : Engine σ) (i : Nat) :
    SameStance e ((e.muteTrack i).pauseTrack i) :=
  (sameStance_muteTrack e i).trans (sameStance_pauseTrack _ i)

theorem heldMusic_putAside (e : Engine σ) {i j : Nat} (hij : i ≠ j) :
    ((e.muteTrack i).pauseTrack i).heldMusic j = e.heldMusic j := by
  refine heldMusic_congr (sameStance_putAside e i) (sameOwners_putAside e i) fun v hv => ?_
  rw [(sameSound_pauseTrack _ i).voice]
  refine voice_muteTrack_of_not_owned e ?_
  simp only [Voice.ownedBy, Bool.and_eq_true, beq_iff_eq] at hv
  simp [Voice.ownedBy, hv.2, Ne.symm hij]

theorem releases_putAside (e : Engine RecorderChip) (i : Nat) :
    Releases e ((e.muteTrack i).pauseTrack i) :=
  (releases_muteTrack e i).trans (sameSound_pauseTrack _ i).releases

/-- Every voice of a track that is muted is to be keyed off. -/
theorem pending_putAside {e : Engine RecorderChip} (h : e.VoicesOwned) {v : Nat}
    (hv : (e.voice v).active = true) (hwidth : v < 32) :
    ((e.muteTrack (e.voice v).track).pauseTrack (e.voice v).track).pending v = true := by
  have howner := h.owner v hv
  have hown : (e.voice v).ownedBy (e.voice v).track = true := by simpa [Voice.ownedBy] using hv
  refine (sameSound_pauseTrack _ _).releases.pending v ?_
  unfold muteTrack
  rw [howner.2]
  exact pending_releaseVoices hown (h.counted.not_owned hv) hwidth

/-- A muting pause of `e` under way, with the tracks of `l` still to come. -/
structure PutAside (e : Engine RecorderChip) (l : List Nat)
    (b : List SavedNote × Engine RecorderChip) : Prop where
  nodup : l.Nodup
  stance : SameStance e b.2
  owners : SameOwners e b.2
  releases : Releases e b.2
  pending : ∀ v, (e.voice v).active = true → (e.voice v).track ∉ l → b.2.pending v = true
  stopped : ∀ i, (e.track i).isActive = true → i ∉ l → (b.2.track i).isStopped = true
  held : ∀ i ∈ l, b.2.heldMusic i = e.heldMusic i
  saved : b.1 ++ l.flatMap e.heldMusic = e.roster.flatMap e.heldMusic

namespace PutAside

variable {e : Engine RecorderChip}

theorem owned {l : List Nat} {b : List SavedNote × Engine RecorderChip} (h : PutAside e l b)
    (howned : e.VoicesOwned) : b.2.VoicesOwned :=
  h.owners.owned howned fun i hi => (h.stance.isActive i).trans hi.active

/-- The turn of a track. There is room for all that was held. -/
theorem step {i : Nat} {l : List Nat} {b : List SavedNote × Engine RecorderChip}
    (h : PutAside e (i :: l) b) (howned : e.VoicesOwned)
    (hroom : (e.roster.flatMap e.heldMusic).length ≤ maxSavedNotes)
    (hlimit : e.voices.limit ≤ hardwareVoices) :
    PutAside e l ((b.1 ++ b.2.heldMusic i).take maxSavedNotes,
      (b.2.muteTrack i).pauseTrack i) := by
  obtain ⟨hnot, hrest⟩ := List.nodup_cons.mp h.nodup
  have hsaved := h.saved
  rw [List.flatMap_cons, ← List.append_assoc, ← h.held i List.mem_cons_self] at hsaved
  have hfits : (b.1 ++ b.2.heldMusic i).length ≤ maxSavedNotes := by
    rw [← hsaved, List.length_append] at hroom
    omega
  refine
    { nodup := hrest
      stance := h.stance.trans (sameStance_putAside b.2 i)
      owners := h.owners.trans (sameOwners_putAside b.2 i)
      releases := h.releases.trans (releases_putAside b.2 i)
      pending := fun v hv hl => ?_
      stopped := fun j hj hl => ?_
      held := fun j hj => ?_
      saved := ?_ }
  · by_cases howner : (e.voice v).track = i
    · have hactive : (b.2.voice v).active = true := (h.owners.active v).trans hv
      have htrack : (b.2.voice v).track = i := (h.owners.track v).trans howner
      have hv' : v < 32 :=
        lt_of_lt_hardwareVoices (Nat.lt_of_lt_of_le (lt_limit_of_active hv) hlimit)
      exact htrack ▸ pending_putAside (h.owned howned) hactive hv'
    · refine (releases_putAside b.2 i).pending v (h.pending v hv ?_)
      exact List.not_mem_cons_of_ne_of_not_mem howner hl
  · rw [track_pauseTrack, track_muteTrack]
    split
    · rfl
    · next hother =>
      have hpool : j < (b.2.muteTrack i).tracks.size := by
        rw [(sameOwners_muteTrack b.2 i).tracks_size, h.owners.tracks_size]
        exact lt_size_of_isActive hj
      have hij : i ≠ j := fun hij => hother ⟨hij, hpool⟩
      exact h.stopped j hj (List.not_mem_cons_of_ne_of_not_mem (Ne.symm hij) hl)
  · have hij : i ≠ j := fun hij => hnot (hij ▸ hj)
    rw [heldMusic_putAside b.2 hij, h.held j (List.mem_cons_of_mem i hj)]
  · rw [List.take_of_length_le hfits]
    exact hsaved

end PutAside

/-- A muting pause puts aside what every track held and stops them all. -/
theorem putAside_pauseAll {e : Engine RecorderChip} (hroster : e.Rostered)
    (howned : e.VoicesOwned) (hlimit : e.voices.limit ≤ hardwareVoices) :
    PutAside e [] (e.pauseAll true []) := by
  have hroom : (e.roster.flatMap e.heldMusic).length ≤ maxSavedNotes := by
    rw [(heldMusic_perm hroster howned).length_eq, List.length_map]
    exact Nat.le_trans e.length_heldVoices_le hlimit
  refine roster_keeps (g := fun b : List SavedNote × Engine RecorderChip => b.2)
    (f := fun _ b i => if true then
      ((b.1 ++ b.2.heldMusic i).take maxSavedNotes, (b.2.muteTrack i).pauseTrack i)
      else (b.1, b.2.pauseTrack i)) (PutAside e) (fun _ _ h => h.stance.toSameLinks)
    (fun _ s i l b _ _ h => h.step howned hroom hlimit) (b := ([], e)) ?_
  exact
    { nodup := hroster.nodup
      stance := SameStance.refl e
      owners := SameOwners.refl e
      releases := Releases.refl e
      pending := fun v hv hl => absurd ((hroster.mem _).mpr (howned.owner v hv).1) hl
      stopped := fun i hi hl => absurd ((hroster.mem i).mpr hi) hl
      held := fun _ _ => rfl
      saved := rfl }

/-! ## The tick behind it -/

/-- Where no track runs, a tick leaves the tracks alone. -/
theorem runTracks_of_not_isRunning [SoundChip σ] {e : Engine σ}
    (h : ∀ i, (e.track i).isRunning = false) : e.runTracks = e := by
  refine foldl_keeps (fun _ e' => e' = e) (fun i l e' he' => ?_) e.trackIds e rfl
  subst he'
  exact if_neg (Bool.eq_false_iff.mp (h i))

theorem beforeUpkeep_of_not_isRunning [SoundChip σ] {e : Engine σ}
    (h : ∀ i, (e.track i).isRunning = false) : e.beforeUpkeep = e.beforeTracks := by
  have htracks : e.beforeTracks.tracks = e.tracks :=
    congrArg (fun p => p.2.1) (pools_beforeTracks e)
  rw [beforeUpkeep_eq_beforeTracks]
  split
  · rfl
  · refine runTracks_of_not_isRunning fun i => ?_
    rw [track, htracks]
    exact h i

/-- On a chip that silences at once, every voice in use is to be keyed off; `e` is the
engine before all this. -/
structure Muted (e e' : Engine RecorderChip) : Prop where
  stance : SameStance e e'
  owned : e'.VoicesOwned
  instant : e'.chip.instantRelease = true
  pending : ∀ v, (e'.voice v).active = true → e'.pending v = true

namespace Muted

variable {e e' : Engine RecorderChip}

theorem freeVoice (h : Muted e e') (hoff : ∀ i, (e.track i).NotOff) (v : Nat) :
    Muted e (e'.freeVoice v) where
  stance := h.stance.trans (sameStance_freeVoice h.owned (h.stance.notOff hoff) v)
  owned := h.owned.freeVoice v
  instant := (sameDue_freeVoice e' v).instantRelease.trans h.instant
  pending w hw := by
    rw [active_freeVoice, Bool.and_eq_true] at hw
    rw [(sameDue_freeVoice e' v).pending]
    exact h.pending w hw.2

/-- The start of a tick moves the clock and the volumes of the chip. -/
theorem beforeTracks (h : Muted e e') : Muted e e'.beforeTracks where
  stance := h.stance.trans (sameStance_of_pools (pools_beforeTracks e'))
  owned := h.owned.deed (.tuned (tuned_beforeTracks e'))
  instant := by
    have hkeys := RecorderChip.sameKeys_of_unkeyed (tuned_beforeTracks e').chip
    exact hkeys.instantRelease.trans h.instant
  pending v hv := by
    have hsame := tuned_beforeTracks e'
    rw [hsame.voice] at hv
    rw [Engine.pending, hsame.toRelease, hsame.toMute]
    exact h.pending v hv

theorem freeExpired (h : Muted e e') (hoff : ∀ i, (e.track i).NotOff) :
    Muted e e'.freeExpired :=
  freeWhere_keeps (fun _ v hv => hv.freeVoice hoff v) _ _ h

/-- The flush silences every voice in use. -/
theorem status_flushReleases (h : Muted e e') {v : Nat} (hv : (e'.voice v).active = true) :
    e'.flushReleases.chip.status v = .off :=
  status_flushReleases_of_pending h.instant (h.pending v hv)

end Muted

/-- Once they are all silent, every voice is freed, and what outlasts the freeing of
voices still holds. -/
theorem freeSilent_silences (good : Engine RecorderChip → Prop)
    (hfree : ∀ e v, good e → good (e.freeVoice v)) {e : Engine RecorderChip} (he : good e)
    (hsilent : ∀ v, (e.voice v).active = true → e.chip.status v = .off) :
    good e.freeSilent ∧ ∀ v, (e.freeSilent.voice v).active = false := by
  -- only voices still to come are in use
  have hwork := foldl_keeps
    (f := fun (d : Engine RecorderChip) v =>
      if e.chip.status v = .off && (d.voice v).active then d.freeVoice v else d)
    (fun l d => good d ∧ ∀ v, (d.voice v).active = true → v ∈ l ∧ e.chip.status v = .off)
    (fun v l d h => by
      obtain ⟨hgood, hbusy⟩ := h
      split
      · refine ⟨hfree d v hgood, fun w hw => ?_⟩
        rw [active_freeVoice, Bool.and_eq_true, decide_eq_true_eq] at hw
        obtain ⟨hmem, hstatus⟩ := hbusy w hw.2
        exact ⟨List.mem_of_ne_of_mem (Ne.symm hw.1) hmem, hstatus⟩
      · next hkept =>
        refine ⟨hgood, fun w hw => ?_⟩
        obtain ⟨hmem, hstatus⟩ := hbusy w hw
        have hwv : w ≠ v := by
          rintro rfl
          exact hkept (by simp [hstatus, hw])
        exact ⟨List.mem_of_ne_of_mem hwv hmem, hstatus⟩)
    (List.range e.voices.limit) e
    ⟨he, fun v hv => ⟨List.mem_range.mpr (lt_limit_of_active hv), hsilent v hv⟩⟩
  obtain ⟨hgood, hbusy⟩ := hwork
  refine ⟨hgood, fun v => Bool.eq_false_iff.mpr fun hv => ?_⟩
  exact List.not_mem_nil (hbusy v hv).1

/-- That leaves the tracks as they were if none of them waits for its last voice. -/
theorem freeSilent_of_silent {e e' : Engine RecorderChip} (hstance : SameStance e e')
    (hoff : ∀ i, (e.track i).NotOff) (howned : e'.VoicesOwned)
    (hsilent : ∀ v, (e'.voice v).active = true → e'.chip.status v = .off) :
    SameStance e e'.freeSilent ∧ e'.freeSilent.VoicesOwned ∧
      e'.freeSilent.voices.limit = e'.voices.limit ∧
      ∀ v, (e'.freeSilent.voice v).active = false := by
  obtain ⟨⟨hstance', howned', hlimit⟩, hidle⟩ := freeSilent_silences
    (fun d => SameStance e d ∧ d.VoicesOwned ∧ d.voices.limit = e'.voices.limit)
    (fun d v h => ⟨h.1.trans (sameStance_freeVoice h.2.1 (h.1.notOff hoff) v),
      h.2.1.freeVoice v, (limit_freeVoice d v).trans h.2.2⟩)
    ⟨hstance, howned, rfl⟩ hsilent
  exact ⟨hstance', howned', hlimit, hidle⟩

/-- A tick behind a muting pause frees every voice. -/
theorem Muted.tick {e e' : Engine RecorderChip} (h : Muted e e')
    (hoff : ∀ i, (e.track i).NotOff) (hrest : ∀ i, (e'.track i).isRunning = false) :
    SameStance e e'.tick ∧ e'.tick.VoicesOwned ∧ e'.tick.voices.limit = e'.voices.limit ∧
      ∀ v, (e'.tick.voice v).active = false := by
  have hmuted : Muted e e'.beforeFlush := by
    rw [beforeFlush, beforeUpkeep_of_not_isRunning hrest]
    exact h.beforeTracks.freeExpired hoff
  have hlimit : e'.beforeFlush.voices.limit = e'.voices.limit := by
    rw [beforeFlush, beforeUpkeep_of_not_isRunning hrest]
    have hfreed := (sameDue_freeWhere (e := e'.beforeTracks)
      (fun d v => (d.voice v).expired e'.beforeTracks.clock.ms)
      (List.range e'.beforeTracks.voices.limit)).2.2
    exact hfreed.trans (congrArg VoicePool.limit (tuned_beforeTracks e').voices)
  rw [tick_eq_flush]
  have hfreed := freeSilent_of_silent (hmuted.stance.trans (sameStance_flushReleases _)) hoff
    (lasting_voicesOwned.sound _ _ _ _ hmuted.owned) fun v hv => hmuted.status_flushReleases hv
  rwa [show e'.beforeFlush.flushReleases.voices.limit = e'.voices.limit from hlimit] at hfreed

/-! ## The restart -/

theorem voices_startVoice [SoundChip σ] {e : Engine σ} {patchVoice : UInt16}
    {patch : PatchVoice} (v i : Nat) (note velocity : UInt8)
    (h : e.module.patches.voice? patchVoice.toNat = some patch) :
    ∃ voice : Voice, voice.tone = (i, note, velocity, patchVoice, patch.sample) ∧
      (e.startVoice v i patchVoice note velocity).voices = e.voices.occupy v voice := by
  unfold startVoice
  rw [h]
  unfold keyOn routeReverb
  dsimp only
  split
  · exact ⟨_, rfl, rfl⟩
  · exact ⟨_, rfl, rfl⟩

/-- With an idle voice to be had, no note is cut off for another. -/
theorem playNote_of_idle [SoundChip σ] {e : Engine σ} {i v : Nat} (patchVoice : UInt16)
    (note velocity : UInt8) (hroom : (e.track i).voicesActive < (e.track i).maxVoices)
    (hv : v < e.voices.limit) (hidle : (e.voice v).active = false) :
    ∃ w, w < e.voices.limit ∧ (e.voice w).active = false ∧
      e.playNote i patchVoice note velocity = e.startVoice w i patchVoice note velocity := by
  obtain ⟨w, hchoice⟩ := VoicePool.exists_choose_free hv hidle (e.track i).priority
  obtain ⟨hw, hactive⟩ := VoicePool.choose_free hchoice
  refine ⟨w, hw, hactive, ?_⟩
  unfold playNote
  rw [if_neg (Nat.not_le.mpr hroom), hchoice]

/-- Notes that `e` can play side by side. -/
structure Playable (e : Engine σ) (saved : List SavedNote) : Prop where
  active : ∀ n ∈ saved, (e.track n.track).isActive = true
  sequence : ∀ n ∈ saved, n.sequence = (e.slot (e.track n.track).slot).sequence
  plays : ∀ n ∈ saved, (e.module.patches.voice? n.patchVoice.toNat).map (·.sample) = some n.sample
  room : ∀ i, saved.countP (fun n => n.track == i) ≤ (e.track i).maxVoices
  length : saved.length ≤ e.voices.limit

/-- The voices of `e'` play the notes of `done` and nothing else; `e` is the engine
before the restart. -/
structure Replayed [SoundChip σ] (e : Engine σ) (done : List SavedNote) (e' : Engine σ) :
    Prop where
  stance : SameStance e e'
  counted : e'.Counted
  limit : e'.voices.limit = e.voices.limit
  playing : e'.voices.playing.Perm (done.map SavedNote.tone)
  unreleased : ∀ v, (e'.voice v).active = true → (e'.voice v).release = false

/-- Strikes a note put aside again. -/
def strike [SoundChip σ] (e : Engine σ) (n : SavedNote) : Engine σ :=
  e.playNote n.track n.patchVoice n.note n.velocity

namespace Replayed

variable [SoundChip σ] {e e' : Engine σ} {done : List SavedNote}

/-- The tracks have as many voices as their notes were struck. -/
theorem voicesActive (h : Replayed e done e') (i : Nat) :
    (e'.track i).voicesActive = done.countP fun n => n.track == i := by
  rw [h.counted.count, ← VoicePool.countP_playing, h.playing.countP_eq, List.countP_map]
  rfl

theorem resumeTrack (h : Replayed e done e') (i : Nat) : Replayed e done (e'.resumeTrack i) where
  stance := h.stance.trans (sameStance_resumeTrack e' i)
  counted := (sameOwners_resumeTrack e' i).counted h.counted
  limit := by rw [(sameSound_resumeTrack e' i).voices, h.limit]
  playing := by rw [(sameSound_resumeTrack e' i).voices]; exact h.playing
  unreleased v hv := by
    rw [(sameSound_resumeTrack e' i).voice] at hv ⊢
    exact h.unreleased v hv

/-- One more note finds its voice. -/
theorem strike (h : Replayed e done e') {saved rest : List SavedNote} {n : SavedNote}
    (hplayable : Playable e saved) (hperm : (done ++ n :: rest).Perm saved) :
    Replayed e (done ++ [n]) (e'.strike n) ∧
      ∀ i, ((e'.strike n).track i).isStopped = (e'.track i).isStopped := by
  have hn : n ∈ saved := hperm.mem_iff.mp (List.mem_append_right done List.mem_cons_self)
  have hroom : (e'.track n.track).voicesActive < (e'.track n.track).maxVoices := by
    rw [h.voicesActive, h.stance.read Track.maxVoices fun _ => rfl]
    refine Nat.lt_of_lt_of_le ?_ (hplayable.room n.track)
    rw [← hperm.countP_eq, List.countP_append, List.countP_cons]
    simp
  have hlength : e'.voices.playing.length < e'.voices.limit := by
    rw [h.playing.length_eq, List.length_map, h.limit]
    refine Nat.lt_of_lt_of_le ?_ hplayable.length
    rw [← hperm.length_eq, List.length_append, List.length_cons]
    omega
  obtain ⟨patch, hpatch, hsample⟩ := Option.map_eq_some_iff.mp (hplayable.plays n hn)
  rw [← h.stance.module] at hpatch
  obtain ⟨v, hv, hidle⟩ := VoicePool.exists_idle hlength
  obtain ⟨w, hw, hactive, hplayed⟩ :=
    playNote_of_idle n.patchVoice n.note n.velocity hroom hv hidle
  obtain ⟨voice, htone, hvoices⟩ := voices_startVoice w n.track n.note n.velocity hpatch
  have hpool : n.track < e'.tracks.size := by
    rw [h.stance.tracks_size]
    exact lt_size_of_isActive (hplayable.active n hn)
  unfold Engine.strike
  rw [hplayed]
  refine ⟨?_, fun i => (samePlaces_startVoice e' w n.track _ _ _).isStopped i⟩
  refine
    { stance := h.stance.trans (sameStance_startVoice e' w n.track _ _ _)
      counted := h.counted.startVoice hw hactive hpool hroom _ _ _
      limit := by rw [hvoices, VoicePool.limit_occupy, h.limit]
      playing := ?_
      unreleased := fun u hu => ?_ }
  · rw [hvoices, List.map_append]
    refine (VoicePool.playing_occupy hw hactive voice).trans ?_
    have hnote : voice.tone = n.tone := by rw [htone, hsample]; rfl
    rw [hnote]
    exact (h.playing.cons _).trans (List.perm_append_singleton _ _).symm
  · rw [Engine.voice, hvoices, VoicePool.voice_occupy _ _ _ _ hw] at hu ⊢
    split at hu
    · next heq => rw [if_pos heq]
    · next hne =>
      rw [if_neg hne]
      exact h.unreleased u hu

/-- So do all that follow. -/
theorem foldl_strike {saved rest : List SavedNote} (hplayable : Playable e saved) :
    ∀ (notes : List SavedNote) {done : List SavedNote} {e' : Engine σ},
      (done ++ notes ++ rest).Perm saved → Replayed e done e' →
        Replayed e (done ++ notes) (notes.foldl Engine.strike e') ∧
          ∀ i, ((notes.foldl Engine.strike e').track i).isStopped = (e'.track i).isStopped := by
  intro notes
  induction notes with
  | nil =>
    intro done e' _ h
    rw [List.append_nil]
    exact ⟨h, fun _ => rfl⟩
  | cons n notes ih =>
    intro done e' hperm h
    rw [List.append_assoc, List.cons_append] at hperm
    obtain ⟨hnext, hstops⟩ := h.strike hplayable hperm
    have hperm' : ((done ++ [n]) ++ notes ++ rest).Perm saved := by
      simpa only [List.append_assoc, List.cons_append, List.nil_append] using hperm
    obtain ⟨hlast, hstops'⟩ := ih hperm' hnext
    rw [List.append_assoc, List.cons_append, List.nil_append] at hlast
    exact ⟨hlast, fun i => (hstops' i).trans (hstops i)⟩

end Replayed

/-- A restart of `e` under way, with the tracks of `l` still to come. -/
structure Restarting [SoundChip σ] (e : Engine σ) (saved : List SavedNote) (l : List Nat)
    (e' : Engine σ) : Prop where
  replayed : ∃ done, (done ++ l.flatMap fun i => saved.filter fun n => n.track == i).Perm saved ∧
    Replayed e done e'
  running : ∀ i, (e.track i).isActive = true → i ∉ l → (e'.track i).isRunning = true

/-- The turn of a track: it goes on, and strikes its own notes again. -/
theorem Restarting.step [SoundChip σ] {e e' : Engine σ} {saved : List SavedNote} {i : Nat}
    {l : List Nat} (h : Restarting e saved (i :: l) e') (hplayable : Playable e saved) :
    Restarting e saved l
      ((saved.filter fun n => n.track == i).foldl Engine.strike (e'.resumeTrack i)) := by
  obtain ⟨done, hperm, hreplayed⟩ := h.replayed
  rw [List.flatMap_cons, ← List.append_assoc] at hperm
  obtain ⟨hnext, hstops⟩ := (Replayed.foldl_strike hplayable _ hperm (hreplayed.resumeTrack i))
  refine ⟨⟨_, hperm, hnext⟩, fun j hj hl => ?_⟩
  have hactive : ((e'.resumeTrack i).track j).isActive = true :=
    ((hreplayed.stance.trans (sameStance_resumeTrack e' i)).isActive j).trans hj
  rw [Track.isRunning, hstops, hnext.stance.isActive, hj, Bool.true_and, Bool.not_eq_true',
    track_resumeTrack]
  split
  · rfl
  · next hother =>
    have hpool : j < e'.tracks.size := by
      rw [hreplayed.stance.tracks_size]
      exact lt_size_of_isActive hj
    have hij : j ≠ i := fun hij => hother ⟨hij.symm, hpool⟩
    have hrun := h.running j hj (List.not_mem_cons_of_ne_of_not_mem hij hl)
    simp only [Track.isRunning, Bool.and_eq_true, Bool.not_eq_true'] at hrun
    exact hrun.2

/-- A restart strikes all notes put aside again, and every track runs. -/
theorem restarting_restartAll [SoundChip σ] {e : Engine σ} {saved : List SavedNote}
    (hroster : e.Rostered) (hcounted : e.Counted) (hidle : ∀ v, (e.voice v).active = false)
    (hplayable : Playable e saved) :
    Restarting e saved [] (e.restartAll saved) := by
  refine roster_keeps (g := fun e' : Engine σ => e')
    (f := fun slot e' i =>
      (saved.filter fun n => n.track == i && n.sequence == slot.sequence).foldl
        (fun e' n => e'.playNote i n.patchVoice n.note n.velocity) (e'.resumeTrack i))
    (Restarting e saved) (fun l e' h => ?_) (fun slot s i l e' hdesk hi h => ?_) (b := e) ?_
  · obtain ⟨_, -, hreplayed⟩ := h.replayed
    exact hreplayed.stance.toSameLinks
  · have hown : (saved.filter fun n => n.track == i && n.sequence == slot.sequence) =
        saved.filter fun n => n.track == i := by
      refine List.filter_congr fun n hn => ?_
      by_cases htrack : n.track = i
      · have hsequence : n.sequence = slot.sequence := by
          rw [hplayable.sequence n hn, htrack, hroster.home s i hi]
          exact (congrArg (fun d => d.2.1) hdesk.symm :)
        simp [htrack, hsequence]
      · simp [htrack]
    rw [hown]
    have hstruck := h.step hplayable
    rwa [List.foldl_ext Engine.strike (fun e' n => e'.playNote i n.patchVoice n.note n.velocity)
      _ fun e' n hn => by
        have htrack : n.track = i := by simpa using (List.mem_filter.mp hn).2
        rw [Engine.strike, htrack]] at hstruck
  · have hperm : (e.roster.flatMap fun i => saved.filter fun n => n.track == i).Perm saved :=
      flatMap_filter_perm SavedNote.track saved hroster.nodup fun n hn =>
        (hroster.mem _).mpr (hplayable.active n hn)
    refine ⟨⟨[], hperm, ?_⟩, fun i hi hl => absurd ((hroster.mem i).mpr hi) hl⟩
    have hsilent : e.voices.select (·.active) = [] :=
      List.filter_eq_nil_iff.mpr fun v _ => Bool.eq_false_iff.mp (hidle v)
    exact
      { stance := SameStance.refl e
        counted := hcounted
        limit := rfl
        playing := by rw [VoicePool.playing, hsilent]; exact .refl _
        unreleased := fun v hv => absurd ((hidle v).symm.trans hv) Bool.false_ne_true }

/-! ## Both together -/

theorem Playable.perm {e : Engine σ} {saved saved' : List SavedNote} (h : Playable e saved)
    (hperm : saved'.Perm saved) : Playable e saved' where
  active n hn := h.active n (hperm.mem_iff.mp hn)
  sequence n hn := h.sequence n (hperm.mem_iff.mp hn)
  plays n hn := h.plays n (hperm.mem_iff.mp hn)
  room i := by
    rw [hperm.countP_eq]
    exact h.room i
  length := by
    rw [hperm.length_eq]
    exact h.length

theorem SameStance.playable {e e' : Engine σ} (h : SameStance e e')
    (hlimit : e'.voices.limit = e.voices.limit) {saved : List SavedNote}
    (hplayable : Playable e saved) : Playable e' saved where
  active n hn := (h.isActive _).trans (hplayable.active n hn)
  sequence n hn := by
    rw [hplayable.sequence n hn, h.home]
    exact (congrArg (fun d => d.2.1) (h.desk _).symm :)
  plays n hn := by
    rw [h.module]
    exact hplayable.plays n hn
  room i := by
    rw [h.read Track.maxVoices fun _ => rfl]
    exact hplayable.room i
  length := by
    rw [hlimit]
    exact hplayable.length

/-- An engine whose pools agree, on a chip that silences at once: each voice in use plays
the sample of its patch voice for a track that plays notes and counts it, and no track
waits, turned off, for its last voice. There are no more voices than the hardware has,
and no sequence has more tracks than it may. -/
structure InConcert (e : Engine RecorderChip) : Prop where
  placed : e.Placed
  owned : e.VoicesOwned
  plays : ∀ v, (e.voice v).active = true →
    (e.patchVoice? v).map (·.sample) = some (e.voice v).sample
  notOff : ∀ i, (e.track i).NotOff
  limit : e.voices.limit ≤ hardwareVoices
  wide : e.module.widestSequence ≤ maxTracksPerSequence
  instant : e.chip.instantRelease = true

/-- What is held can be held again: no track is given more than it had. -/
theorem InConcert.playable {e : Engine RecorderChip} (h : e.InConcert) :
    Playable e (e.heldVoices.map e.noteOf) where
  active n hn := by
    obtain ⟨v, hv, rfl⟩ := List.mem_map.mp hn
    exact (h.owned.owner v (mem_heldVoices.mp hv).1).1
  sequence n hn := by
    obtain ⟨v, -, rfl⟩ := List.mem_map.mp hn
    rfl
  plays n hn := by
    obtain ⟨v, hv, rfl⟩ := List.mem_map.mp hn
    exact h.plays v (mem_heldVoices.mp hv).1
  room i := by
    rw [List.countP_map]
    refine Nat.le_trans (e.countP_heldVoices_le i) ?_
    rw [← h.owned.count]
    exact h.owned.atMost i
  length := by
    rw [List.length_map]
    exact e.length_heldVoices_le

end Engine

open Engine

/-- A muting pause puts aside every held note of music, once each, and nothing else; a
tick later no voice is in use; the restart strikes just those notes again and lets every
track go on where it stood. -/
theorem pauseAll_restartSaved {e : Engine RecorderChip} (h : e.InConcert) :
    ∃ saved paused restarted,
      e.pauseAll true [] = (saved, paused) ∧
      paused.tick.restartSaved saved = ([], restarted) ∧
      saved.Perm (e.heldVoices.map e.noteOf) ∧
      (∀ v, (paused.tick.voice v).active = false) ∧
      restarted.voices.playing.Perm (saved.map SavedNote.tone) ∧
      (∀ v, (restarted.voice v).active = true → (restarted.voice v).release = false) ∧
      (∀ s, (restarted.slot s).active = (e.slot s).active ∧
        (restarted.slot s).tracks = (e.slot s).tracks) ∧
      ∀ s, (e.slot s).active = true → ∀ i ∈ (e.slot s).trackIds,
        (restarted.track i).isRunning = true ∧
          (restarted.track i).pc = (e.track i).pc ∧
          (restarted.track i).delta = (e.track i).delta ∧
          (restarted.track i).acc = (e.track i).acc ∧
          (restarted.track i).total = (e.track i).total := by
  have hroster := h.placed.rostered h.wide
  have hput := putAside_pauseAll hroster h.owned h.limit
  generalize e.pauseAll true [] = b at hput
  obtain ⟨saved, paused⟩ := b
  have hsaved : saved.Perm (e.heldVoices.map e.noteOf) := by
    have hperm := heldMusic_perm hroster h.owned
    rw [← hput.saved] at hperm
    exact (List.append_nil saved).symm ▸ hperm
  have hmuted : Muted e paused :=
    { stance := hput.stance
      owned := hput.owned h.owned
      instant := hput.releases.chip.instantRelease.trans h.instant
      pending := fun v hv =>
        hput.pending v ((hput.owners.active v).symm.trans hv) List.not_mem_nil }
  have hrest : ∀ i, (paused.track i).isRunning = false := by
    intro i
    rw [Track.isRunning, hput.stance.isActive]
    cases hactive : (e.track i).isActive with
    | false => rfl
    | true => rw [hput.stopped i hactive List.not_mem_nil]; rfl
  obtain ⟨hstance, howned, hlimit, hidle⟩ := hmuted.tick h.notOff hrest
  have hplayable : Playable paused.tick saved :=
    hstance.playable (hlimit.trans hput.owners.limit) (h.playable.perm hsaved)
  have hstruck := restarting_restartAll (hstance.toSameLinks.rostered hroster) howned.counted
    hidle hplayable
  obtain ⟨done, hdone, hreplayed⟩ := hstruck.replayed
  have hlast := hstance.trans hreplayed.stance
  refine ⟨saved, paused, paused.tick.restartAll saved, rfl, rfl, hsaved, hidle, ?_,
    hreplayed.unreleased, fun s => ⟨hlast.active s, hlast.tracks s⟩, fun s hs i hi => ?_⟩
  · rw [List.flatMap_nil, List.append_nil] at hdone
    exact hreplayed.playing.trans (hdone.map _)
  · have hactive := (h.placed.of_lists ⟨hs, hi⟩).1
    exact ⟨hstruck.running i ((hstance.isActive i).trans hactive) List.not_mem_nil,
      hlast.read Track.pc (fun _ => rfl) i, hlast.read Track.delta (fun _ => rfl) i,
      hlast.read Track.acc (fun _ => rfl) i, hlast.read Track.total (fun _ => rfl) i⟩

/-- Three sequences, of which the first has a track of effects beside its music, for an
engine with five voices. -/
def band : SoundModule :=
  { solo [] with
    limits := { sequences := 3, tracks := 4, voices := 5 }
    sequences := #[
      #[TrackHeader.plays { maxVoices := 2 }
          [(3, .noteOn 60 100), (0, .noteOn 64 90), (1000, .trackEnd)],
        TrackHeader.plays { soundClass := .effect } [(0, .noteOn 70 100), (1000, .trackEnd)]],
      #[TrackHeader.plays {} [(0, .noteOn 48 80), (1000, .trackEnd)]],
      #[TrackHeader.plays {} [(0, .noteOn 52 70), (1000, .trackEnd)]]] }

/-- Two ticks of the whole band, and a muting pause of its third sequence. -/
def prelude : List (Call RecorderChip) :=
  [.start 0 {}, .start 1 {}, .start 2 {}, .tick, .tick, .pause 2 true]

/-- The engine behind the prelude. -/
def Engine.afterPrelude (e : Engine RecorderChip) : Engine RecorderChip :=
  (Session.run { engine := e } prelude).engine

/-- The music of the first sequence is struck behind that of the second, and put aside
before it. The third fades already, and the effect is no music. -/
theorem pauseAll_restartSaved_band : ∃ e : Engine RecorderChip,
    Engine.make band {} = .ok e ∧
      e.afterPrelude.heldVoices = [1, 3, 4] ∧ (e.afterPrelude.voice 2).release = true ∧
      e.afterPrelude.InConcert ∧
      ∃ saved paused restarted,
        e.afterPrelude.pauseAll true [] = (saved, paused) ∧
        paused.tick.restartSaved saved = ([], restarted) ∧
        saved.Perm ([1, 3, 4].map e.afterPrelude.noteOf) ∧
        restarted.voices.playing.Perm (saved.map SavedNote.tone) := by
  obtain ⟨e, hmake, hcareful, hheld, hfades, hplays, hoff, hlimit, hwide, hinstant⟩ :
      ∃ e : Engine RecorderChip, Engine.make band {} = .ok e ∧
        Session.Allows Session.Careful { engine := e } prelude ∧
        e.afterPrelude.heldVoices = [1, 3, 4] ∧ (e.afterPrelude.voice 2).release = true ∧
        (∀ v < e.afterPrelude.voices.limit, (e.afterPrelude.voice v).active = true →
          (e.afterPrelude.patchVoice? v).map (·.sample) = some (e.afterPrelude.voice v).sample) ∧
        (∀ i < e.afterPrelude.tracks.size, (e.afterPrelude.track i).NotOff) ∧
        e.afterPrelude.voices.limit ≤ hardwareVoices ∧
        e.afterPrelude.module.widestSequence ≤ maxTracksPerSequence ∧
        e.afterPrelude.chip.instantRelease = true :=
    exists_make (by decide +kernel)
  have horder : e.afterPrelude.InOrder :=
    (Session.Allows.throughout (fun s => s.engine.InOrder)
      (fun s call h hfit => inOrder_perform s call h hfit) hcareful
      ⟨voicesOwned_make hmake, offRests_make hmake, poolsAgree_make hmake⟩).last
  have hconcert : e.afterPrelude.InConcert :=
    { placed := horder.agree.toPlaced
      owned := horder.owned
      plays := fun v hv => hplays v (lt_limit_of_active hv) hv
      notOff := (forall_track_iff _ _ fun h => by cases h).mp hoff
      limit := hlimit
      wide := hwide
      instant := hinstant }
  refine ⟨e, hmake, hheld, hfades, hconcert, ?_⟩
  obtain ⟨saved, paused, restarted, hpause, hrestart, hsaved, -, hplaying, -⟩ :=
    pauseAll_restartSaved hconcert
  exact ⟨saved, paused, restarted, hpause, hrestart, hheld ▸ hsaved, hplaying⟩

end SoundSequencer
