/-
SoundSequencer.Proofs.Seats — what no call and no tick can end.

* `Enduring` holds of properties that outlast whatever an engine does, also
  where tracks that are turned off are let go on. `Enduring.perform` carries
  them through every call.
* `Engine.Seated` is such a property: a slot lists only tracks of its own, each
  at its position and once, and slots stay as wide as the widest sequence.
-/
import SoundSequencer.Proofs.Accepted
import SoundSequencer.Proofs.PoolRuns

namespace SoundSequencer

namespace Engine

variable {σ : Type} [SoundChip σ]

/-! ## Properties that endure -/

/-- The property outlasts whatever an engine does at once, whoever asks for it. -/
structure Enduring (good : Engine σ → Prop) : Prop extends Lasting good where
  startVoice : ∀ e v i patchVoice note velocity, i < e.tracks.size → good e →
    good (e.startVoice v i patchVoice note velocity)
  resumeTrack : ∀ e i, good e → good (e.resumeTrack i)
  startSequence : ∀ e sequence options, good e → good (e.startSequence sequence options).2
  releaseHandle : ∀ e slot, good e → good (e.releaseHandle slot)

theorem tracks_size_playNote (e : Engine σ) (i : Nat) (patchVoice : UInt16)
    (note velocity : UInt8) :
    (e.playNote i patchVoice note velocity).tracks.size = e.tracks.size := by
  rcases playNote_eq e i patchVoice note velocity with heq | ⟨-, v, -, heq⟩
  · rw [heq]
  · rw [heq, tracks_size_startVoice, tracks_size_freeVoice]

namespace Enduring

variable {good : Engine σ → Prop}

theorem playNote (h : Enduring good) {e : Engine σ} {i : Nat} (hi : i < e.tracks.size)
    (patchVoice : UInt16) (note velocity : UInt8) (he : good e) :
    good (e.playNote i patchVoice note velocity) := by
  rcases playNote_eq e i patchVoice note velocity with heq | ⟨-, v, -, heq⟩
  · rwa [heq]
  · rw [heq]
    exact h.startVoice _ v i _ _ _ (by rwa [tracks_size_freeVoice]) (h.freeVoice e v he)

theorem noteOn (h : Enduring good) {e : Engine σ} {i : Nat} (hi : i < e.tracks.size)
    (key velocity : UInt8) (he : good e) : good (e.noteOn i key velocity) := by
  unfold Engine.noteOn
  split
  · exact he
  · next patch note _ =>
    have hplayed := foldl_keeps (fun (_ : List Nat) e => i < e.tracks.size ∧ good e)
      (f := fun e index => e.playNote i (UInt16.ofNat index) note velocity)
      (fun index _ e he => by
        obtain ⟨hi, hgood⟩ := he
        exact ⟨by rwa [tracks_size_playNote], h.playNote hi _ _ _ hgood⟩)
      (soundingVoices e.module.patches patch note) e ⟨hi, he⟩
    exact hplayed.2

theorem strike (h : Enduring good) {i : Nat} : ∀ (notes : List SavedNote) {e : Engine σ},
    i < e.tracks.size → good e →
      (notes.foldl (fun e n => e.playNote i n.patchVoice n.note n.velocity) e).tracks.size =
        e.tracks.size ∧
      good (notes.foldl (fun e n => e.playNote i n.patchVoice n.note n.velocity) e)
  | [], _, _, he => ⟨rfl, he⟩
  | n :: notes, e, hi, he => by
    have hsize := tracks_size_playNote e i n.patchVoice n.note n.velocity
    obtain ⟨hrest, hgood⟩ := h.strike notes (by rwa [hsize]) (h.playNote hi _ _ _ he)
    exact ⟨hrest.trans hsize, hgood⟩

/-- What endures holds while notes are struck again on tracks of the pool. -/
theorem restartAll (h : Enduring good)
    (hpool : ∀ e, good e → ∀ s, ∀ i ∈ (e.slot s).trackIds, i < e.tracks.size)
    (saved : List SavedNote) {e : Engine σ} (he : good e) : good (e.restartAll saved) := by
  refine foldl_keeps (fun _ e => good e) (fun s _ e he => ?_) _ e he
  dsimp only
  split
  · have hlisted : ∀ i ∈ (e.slot s).trackList, i < e.tracks.size := fun i hi =>
      hpool e he s i (List.mem_of_mem_take hi)
    refine (foldl_keeps (fun l e => (∀ i ∈ l, i < e.tracks.size) ∧ good e)
      (fun i l e' he' => ?_) (e.slot s).trackList e ⟨hlisted, he⟩).2
    -- the tracks still to come stay tracks of the pool
    obtain ⟨hlist, hgood⟩ := he'
    have hresumed := (sameSound_resumeTrack e' i).tracks_size
    obtain ⟨hsize, hstruck⟩ := h.strike
      (saved.filter fun n => n.track == i && n.sequence == (e.slot s).sequence)
      (by rw [hresumed]; exact hlist i List.mem_cons_self) (h.resumeTrack e' i hgood)
    refine ⟨fun j hj => ?_, hstruck⟩
    rw [hsize, hresumed]
    exact hlist j (List.mem_cons_of_mem i hj)
  · exact he

theorem moves (h : Enduring good) {e e' : Engine σ} (hmoves : Moves e e') (he : good e) :
    good e' := by
  refine hmoves.keeps (fun a b hmove ha => ?_) he
  cases hmove with
  | deed hdeed => exact h.deed a b hdeed ha
  | noteOn key velocity hrun _ =>
    exact h.noteOn (lt_size_of_isActive (Bool.and_eq_true_iff.mp hrun).1) key velocity ha

theorem tick (h : Enduring good) {e : Engine σ} (he : good e) : good e.tick := by
  rw [tick_eq]
  exact h.toLasting.serviceVoices (h.moves (moves_beforeUpkeep e) he)

/-- What endures outlasts every call. -/
theorem perform (h : Enduring good)
    (hpool : ∀ e, good e → ∀ s, ∀ i ∈ (e.slot s).trackIds, i < e.tracks.size)
    (s : Session σ) (call : Call σ) (hs : good s.engine) : good (s.perform call).engine := by
  cases call with
  | tick =>
    rw [Session.engine_tick]
    exact h.tick hs
  | start sequence options => exact h.startSequence s.engine sequence options hs
  | releaseHandle slot => exact h.releaseHandle s.engine slot hs
  | restart sequence => exact restart_keeps good (fun e _ i _ => h.resumeTrack e i) sequence hs
  | restartAll saved => exact h.restartAll hpool saved hs
  | onChip f => exact h.toLasting.perform (.inr ⟨f, rfl⟩) hs
  | _ => exact h.toLasting.perform (.inl trivial) hs

end Enduring

/-! ## Seats -/

/-- Whom slots list, and how wide they are. -/
structure Seated (e : Engine σ) : Prop where
  /-- A slot lists tracks of its own, each at its position. -/
  entry : ∀ s p i, (e.slot s).entry p = some i →
    (e.track i).isActive = true ∧ (e.track i).slot = s ∧ (e.track i).position = p
  home : ∀ i, (e.track i).slot < e.slots.size
  wide : ∀ s, s < e.slots.size → (e.slot s).tracks.size = e.module.widestSequence

omit [SoundChip σ]

theorem Seated.of_mem {e : Engine σ} (h : e.Seated) {s i : Nat} (hi : i ∈ (e.slot s).trackIds) :
    (e.track i).isActive = true ∧ (e.track i).slot = s := by
  obtain ⟨p, hp⟩ := Slot.mem_trackIds.mp hi
  exact ⟨(h.entry s p i hp).1, (h.entry s p i hp).2.1⟩

theorem Seated.lt_size {e : Engine σ} (h : e.Seated) {s i : Nat} (hi : i ∈ (e.slot s).trackIds) :
    i < e.tracks.size := lt_size_of_isActive (h.of_mem hi).1

theorem Seated.nodup_trackList {e : Engine σ} (h : e.Seated) (s : Nat) :
    (e.slot s).trackList.Nodup := by
  refine Slot.nodup_trackList fun p q i hp hq => ?_
  exact (h.entry s p i hp).2.2.symm.trans (h.entry s q i hq).2.2

theorem SameLinks.seated {e e' : Engine σ} (h : SameLinks e e') (he : e.Seated) : e'.Seated where
  entry s p i hp := by
    have hposition : (e'.track i).position = (e.track i).position := congrArg (·.2.2.2) (h.seat i)
    rw [h.entry] at hp
    rw [h.isActive, h.home, hposition]
    exact he.entry s p i hp
  home i := by
    rw [h.home, h.slots_size]
    exact he.home i
  wide s hs := by
    rw [h.slots_size] at hs
    rw [h.tracks, h.module]
    exact he.wide s hs

theorem SameLinks.refl (e : Engine σ) : SameLinks e e :=
  ⟨rfl, rfl, rfl, fun _ => rfl, fun _ => rfl, rfl, rfl⟩

theorem sameLinks_of_pools {e e' : Engine σ} (hpools : e'.pools = e.pools) : SameLinks e e' := by
  simp only [pools, Prod.mk.injEq] at hpools
  obtain ⟨hmodule, htracks, hslots, -, -, -, hactive, hslotsActive⟩ := hpools
  refine ⟨hmodule, by rw [htracks], by rw [hslots], fun i => ?_, fun s => ?_, hactive,
    hslotsActive⟩
  · unfold track
    rw [htracks]
  · unfold slot
    rw [hslots]

theorem sameLinks_modifyTrack (e : Engine σ) (i : Nat) {f : Track → Track}
    (hf : ∀ t, (f t).seat = t.seat) : SameLinks e (e.modifyTrack i f) where
  module := rfl
  tracks_size := by simp [modifyTrack]
  slots_size := rfl
  seat j := by
    rw [track_modifyTrack]
    split <;> simp only [hf]
  desk _ := rfl
  tracksActive := rfl
  slotsActive := rfl

theorem sameLinks_modifySlot (e : Engine σ) (s : Nat) {g : Slot → Slot}
    (hg : ∀ s, (g s).desk = s.desk) : SameLinks e (e.modifySlot s g) where
  module := rfl
  tracks_size := rfl
  slots_size := by simp [modifySlot]
  seat _ := rfl
  desk s := by
    rw [slot_modifySlot]
    split <;> simp only [hg]
  tracksActive := rfl
  slotsActive := rfl

/-- A track and a slot that change, but not in what links them. -/
theorem sameLinks_modify (e : Engine σ) (i s : Nat) {f : Track → Track} {g : Slot → Slot}
    (hf : ∀ t, (f t).seat = t.seat) (hg : ∀ s, (g s).desk = s.desk) :
    SameLinks e ((e.modifyTrack i f).modifySlot s g) :=
  (sameLinks_modifyTrack e i hf).trans (sameLinks_modifySlot _ s hg)

theorem sameLinks_pauseTrack (e : Engine σ) (i : Nat) : SameLinks e (e.pauseTrack i) := by
  unfold pauseTrack
  split
  · exact .refl e
  · exact sameLinks_modify e i _ (g := Slot.stopped) (fun _ => rfl) fun _ => rfl

theorem sameLinks_resumeTrack (e : Engine σ) (i : Nat) : SameLinks e (e.resumeTrack i) := by
  unfold resumeTrack
  split
  · exact sameLinks_modify e i _ (g := Slot.started) (fun _ => rfl) fun _ => rfl
  · exact .refl e

theorem sameLinks_awaitVoices (e : Engine σ) (i : Nat) : SameLinks e (e.awaitVoices i) := by
  refine sameLinks_modify e i _ (fun _ => rfl) fun s => ?_
  split <;> rfl

theorem Seated.advance {e : Engine σ} (h : e.Seated) (i : Nat) :
    (e.modifyTrack i Track.advance).Seated :=
  (sameLinks_modifyTrack (f := Track.advance) e i fun _ => rfl).seated h

theorem Seated.payDelta {e : Engine σ} (h : e.Seated) (i : Nat) : (e.payDelta i).Seated :=
  (sameLinks_modifyTrack (f := fun t => { t with acc := t.acc - t.delta }) e i fun _ => rfl).seated
    h

/-- A track that leaves takes its entries with it. -/
theorem Seated.leavePool {e : Engine σ} (h : e.Seated) (i : Nat) : (e.leavePool i).Seated where
  entry s p j hp := by
    have hold : (e.slot s).entry p = some j ∧ i ≠ j := by
      rw [slot_leavePool] at hp
      split at hp
      · rw [Slot.entry_withoutTrack] at hp
        split at hp
        · cases hp
        · next hne =>
          refine ⟨hp, ?_⟩
          rintro rfl
          exact hne hp
      · next hother =>
        refine ⟨hp, ?_⟩
        rintro rfl
        obtain ⟨-, hslot, -⟩ := h.entry s p i hp
        exact hother ⟨hslot, hslot ▸ h.home i⟩
    rw [track_leavePool_of_ne hold.2]
    exact h.entry s p j hold.1
  home j := by
    rw [size_slots_leavePool, track_leavePool]
    split <;> exact h.home j
  wide s hs := by
    rw [size_slots_leavePool] at hs
    rw [slot_leavePool]
    have hwide : (e.slot s).tracks.size = (e.leavePool i).module.widestSequence := h.wide s hs
    split
    · simpa [Slot.withoutTrack, Slot.dropTrack] using hwide
    · exact hwide

theorem Seated.retireTrack {e : Engine σ} (h : e.Seated) (i : Nat) : (e.retireTrack i).Seated := by
  unfold Engine.retireTrack
  dsimp only
  have hpaused := (sameLinks_pauseTrack e i).seated h
  have hleft : (if ((e.pauseTrack i).track i).isHandled then e.pauseTrack i
      else (e.pauseTrack i).leavePool i).Seated := by
    split
    · exact hpaused
    · exact hpaused.leavePool i
  exact (sameLinks_modifyTrack (f := fun t => { t with flags := { t.flags with timed := false } })
    _ i fun _ => rfl).seated hleft

theorem Seated.turnOff {e : Engine σ} (h : e.Seated) (i : Nat) : (e.turnOff i).Seated := by
  rw [turnOff_eq]
  split
  · exact h.retireTrack i
  · split
    · exact h.retireTrack i
    · exact (sameLinks_awaitVoices _ i).seated
        ((samePlaces_releaseVoices e i).toSameLinks.seated h)

theorem Seated.freeVoice {e : Engine σ} (h : e.Seated) (v : Nat) : (e.freeVoice v).Seated := by
  have hdropped := (samePlaces_dropVoice e v).toSameLinks.seated h
  rw [freeVoice_eq]
  split
  · split
    · exact hdropped.retireTrack _
    · exact hdropped
  · exact h

/-- A track outside the sequences is listed nowhere. -/
theorem Seated.not_listed {e : Engine σ} (h : e.Seated) {i : Nat}
    (hi : (e.track i).isActive = false) (s p : Nat) : (e.slot s).entry p ≠ some i :=
  fun hp => Bool.false_ne_true (hi.symm.trans (h.entry s p i hp).1)

theorem Seated.startTrack {e : Engine σ} (h : e.Seated) {slot sequence i position : Nat}
    (options : StartOptions) (hslot : slot < e.slots.size) (hi : i < e.tracks.size)
    (hidle : (e.track i).isActive = false)
    (hstream : (e.module.track? sequence position).isSome = true)
    (hwide : position < e.module.widestSequence) :
    (e.startTrack slot sequence options i position).Seated := by
  obtain ⟨t, hactive, -, -, -, -, hhome, -, hposition, htrack⟩ :=
    track_startTrack e slot sequence options i position
  obtain ⟨hmodule, -, hslots, -⟩ := startTrack_frame hstream slot options i
  refine ⟨fun s p j hp => ?_, fun j => ?_, fun s hs => ?_⟩
  · rw [slot_startTrack hstream] at hp
    have hwithin : position < (e.slot slot).tracks.size := by rwa [h.wide slot hslot]
    split at hp
    · next hs =>
      obtain ⟨rfl, -⟩ := hs
      rw [Slot.entry_withTrack hwithin] at hp
      split at hp
      · next hp' =>
        cases hp
        rw [htrack, if_pos ⟨hstream, rfl, hi⟩]
        exact ⟨hactive, hhome, hposition.trans hp'.symm⟩
      · have hij : i ≠ j := fun hij => h.not_listed hidle _ _ (hij ▸ hp)
        rw [htrack, if_neg fun hj => hij hj.2.1]
        exact h.entry _ p j hp
    · have hij : i ≠ j := fun hij => h.not_listed hidle _ _ (hij ▸ hp)
      rw [htrack, if_neg fun hj => hij hj.2.1]
      exact h.entry s p j hp
  · rw [hslots, htrack]
    split
    · rwa [hhome]
    · exact h.home j
  · rw [hslots] at hs
    rw [hmodule, slot_startTrack hstream]
    split
    · rw [Slot.size_withTrack]
      exact h.wide s hs
    · exact h.wide s hs

theorem Resets.seated {slot : Nat} {e e' : Engine σ} (h : Resets slot e e') (he : e.Seated) :
    e'.Seated where
  entry s p i hp := by
    by_cases hs : slot = s
    · subst hs
      rw [h.empty] at hp
      cases hp
    · rw [h.other s hs] at hp
      rw [h.track]
      exact he.entry s p i hp
  home i := by
    rw [h.track, h.slots_size]
    exact he.home i
  wide s hs := by
    rw [h.slots_size] at hs
    rw [h.module, ← he.wide s hs]
    by_cases hs' : slot = s
    · subst hs'
      exact h.width
    · rw [h.other s hs']

/-- What a sequence that starts has still to do with the tracks that it takes. -/
structure Seats (slot sequence : Nat) (rest : List (Nat × Nat)) (e : Engine σ) : Prop where
  seated : e.Seated
  slot : slot < e.slots.size
  tracks : (rest.map Prod.fst).Nodup
  idle : ∀ p ∈ rest, p.1 < e.tracks.size ∧ (e.track p.1).isActive = false
  stream : ∀ p ∈ rest, (e.module.track? sequence p.2).isSome = true ∧
    p.2 < e.module.widestSequence

theorem Seats.startTrack {slot sequence : Nat} {p : Nat × Nat} {rest : List (Nat × Nat)}
    {e : Engine σ} (h : Seats slot sequence (p :: rest) e) (options : StartOptions) :
    Seats slot sequence rest (e.startTrack slot sequence options p.1 p.2) := by
  obtain ⟨hstream, hwide⟩ := h.stream p List.mem_cons_self
  obtain ⟨hsize, hidle⟩ := h.idle p List.mem_cons_self
  obtain ⟨hfst, hrest⟩ := List.nodup_cons.mp h.tracks
  obtain ⟨hmodule, htracks, hslots, -⟩ := startTrack_frame hstream slot options p.1
  refine ⟨h.seated.startTrack options h.slot hsize hidle hstream hwide,
    by rw [hslots]; exact h.slot, hrest, fun q hq => ?_, fun q hq => ?_⟩
  · have hne : p.1 ≠ q.1 := fun heq => hfst (heq ▸ List.mem_map_of_mem hq)
    rw [htracks, track_startTrack_of_ne e slot sequence options p.2 hne]
    exact h.idle q (List.mem_cons_of_mem p hq)
  · rw [hmodule]
    exact h.stream q (List.mem_cons_of_mem p hq)

/-- A slot that opens for a sequence has seats for the tracks that the sequence takes. -/
theorem Seated.openSlot {e : Engine σ} (h : e.Seated) {sequence slot : Nat}
    {streams : Array TrackStream} (hstreams : e.module.sequences[sequence]? = some streams)
    (hlt : slot < e.slots.size) (options : StartOptions) :
    Seats slot sequence (e.freeTracks.take streams.size).zipIdx
      ((e.modifySlot slot Slot.cleared).openSlot slot sequence options) := by
  have hreset := resets_openSlot hlt sequence options
  refine ⟨hreset.seated h, by rwa [hreset.slots_size], ?_, fun p hp => ?_, fun p hp => ?_⟩
  · rw [List.zipIdx_map_fst]
    exact (nodup_freeTracks e).sublist (List.take_sublist _ _)
  · have hmem := List.mem_of_mem_take (List.fst_mem_of_mem_zipIdx hp)
    rw [hreset.tracks, hreset.track]
    exact mem_freeTracks.mp hmem
  · have hbound := List.snd_lt_of_mem_zipIdx hp
    rw [List.length_take] at hbound
    rw [hreset.module]
    exact ⟨SoundModule.isSome_track? hstreams (by omega),
      Nat.lt_of_lt_of_le (by omega) (SoundModule.size_le_widestSequence hstreams)⟩

theorem Seated.startSequence {e : Engine σ} (h : e.Seated) (sequence : Nat)
    (options : StartOptions) : (e.startSequence sequence options).2.Seated := by
  rcases startSequence_eq e sequence options with
    ⟨-, heq⟩ | ⟨streams, slot, hstreams, hlt, hidle, ⟨-, heq⟩ | ⟨htaken, -, heq⟩⟩
  · rwa [heq]
  · rw [heq]
    exact (resets_clearSlot hlt).seated h
  · rw [heq]
    have hstarted := foldl_keeps (f := fun e p => e.startTrack slot sequence options p.1 p.2)
      (Seats slot sequence) (fun p rest e h => h.startTrack options) _ _
      (h.openSlot hstreams hlt options)
    exact hstarted.seated

theorem Seated.releaseHandle {e : Engine σ} (h : e.Seated) (slot : Nat) :
    (e.releaseHandle slot).Seated := by
  unfold Engine.releaseHandle
  split
  · have hopen := (sameLinks_modifySlot (g := fun s => { s with handled := false }) e slot
      fun _ => rfl).seated h
    refine foldl_keeps (fun _ (e : Engine σ) => e.Seated) (fun i _ e he => ?_) _ _ hopen
    exact ((sameLinks_modifyTrack (f := Track.unhandled) e i fun _ => rfl).seated he).turnOff i
  · exact h

theorem Seated.deed [SoundChip σ] {e e' : Engine σ} (h : e.Seated) (hdeed : Deed e e') :
    e'.Seated := by
  cases hdeed with
  | tuned htuned => exact htuned.samePlaces.toSameLinks.seated h
  | turnOff => exact h.turnOff _
  | endSequence s =>
    exact foldl_keeps (fun _ (e : Engine σ) => e.Seated) (fun i _ _ he => he.turnOff i) _ e h
  | noteOff i note => exact (samePlaces_noteOff e i note).toSameLinks.seated h
  | pauseTrack => exact (sameLinks_pauseTrack e _).seated h
  | muteTrack i => exact (samePlaces_muteTrack e i).toSameLinks.seated h

/-- Nothing unseats a track. -/
theorem enduring_seated [SoundChip σ] : Enduring fun e : Engine σ => e.Seated where
  deed _ _ hdeed h := h.deed hdeed
  freeVoice _ v h := h.freeVoice v
  sound _ _ _ _ h := ⟨h.entry, h.home, h.wide⟩
  startVoice e v i patchVoice note velocity _ h :=
    (samePlaces_startVoice e v i patchVoice note velocity).toSameLinks.seated h
  resumeTrack e i h := (sameLinks_resumeTrack e i).seated h
  startSequence _ sequence options h := h.startSequence sequence options
  releaseHandle _ slot h := h.releaseHandle slot

theorem seated_perform [SoundChip σ] (s : Session σ) (call : Call σ) (h : s.engine.Seated) :
    (s.perform call).engine.Seated :=
  enduring_seated.perform (fun _ he _ _ hi => he.lt_size hi) s call h

/-! ## The module -/

theorem module_turnOff (e : Engine σ) (i : Nat) : (e.turnOff i).module = e.module := by
  rw [turnOff_eq]
  split
  · exact (sameSound_retireTrack e i).module
  · split
    · exact (sameSound_retireTrack e i).module
    · exact (sameLinks_awaitVoices _ i).module.trans (samePlaces_releaseVoices e i).module

theorem module_freeVoice (e : Engine σ) (v : Nat) : (e.freeVoice v).module = e.module := by
  rw [freeVoice_eq]
  split
  · split
    · exact (sameSound_retireTrack _ _).module
    · rfl
  · rfl

theorem module_startTrack (e : Engine σ) (slot sequence : Nat) (options : StartOptions)
    (i position : Nat) : (e.startTrack slot sequence options i position).module = e.module := by
  unfold startTrack
  split <;> rfl

theorem module_deed [SoundChip σ] {e e' : Engine σ} (h : Deed e e') : e'.module = e.module := by
  cases h with
  | tuned htuned => exact htuned.module
  | turnOff => exact module_turnOff e _
  | endSequence s =>
    exact foldl_keeps (fun _ (e' : Engine σ) => e'.module = e.module)
      (fun i _ e' he => (module_turnOff e' i).trans he) _ e rfl
  | noteOff => rfl
  | pauseTrack => exact (sameLinks_pauseTrack e _).module
  | muteTrack i => exact (samePlaces_muteTrack e i).module

/-- Nothing changes the module. -/
theorem enduring_module [SoundChip σ] (module : SoundModule) :
    Enduring fun e : Engine σ => e.Seated ∧ e.module = module where
  deed _ _ hdeed h := ⟨h.1.deed hdeed, (module_deed hdeed).trans h.2⟩
  freeVoice e v h := ⟨h.1.freeVoice v, (module_freeVoice e v).trans h.2⟩
  sound e chip toRelease toMute h := ⟨enduring_seated.sound e chip toRelease toMute h.1, h.2⟩
  startVoice e v i patchVoice note velocity hi h :=
    ⟨enduring_seated.startVoice e v i patchVoice note velocity hi h.1,
      (samePlaces_startVoice e v i patchVoice note velocity).module.trans h.2⟩
  resumeTrack e i h :=
    ⟨enduring_seated.resumeTrack e i h.1, (sameLinks_resumeTrack e i).module.trans h.2⟩
  startSequence e sequence options h := by
    refine ⟨h.1.startSequence sequence options, ?_⟩
    exact @startSequence_keeps σ (fun e => e.module = module) (fun _ _ _ he => he)
      (fun _ _ he => he) _ (fun e slot sequence i position _ he =>
        (module_startTrack e slot sequence options i position).trans he) sequence e h.2
  releaseHandle e slot h := by
    refine ⟨h.1.releaseHandle slot, ?_⟩
    exact @releaseHandle_keeps σ (fun e => e.module = module) (fun _ _ _ he => he)
      (fun e i he => (module_turnOff _ i).trans he) slot e h.2

/-- An engine is made only of a module that is admitted. -/
theorem accepted_make [SoundChip σ] {module : SoundModule} {chip : σ} {e : Engine σ}
    (h : Engine.make module chip = .ok e) :
    e.module.Accepted ∧ e.slots.size = e.module.limits.sequences.toNat := by
  unfold Engine.make at h
  split at h
  · cases h
  · next hflaw =>
    cases h
    exact ⟨SoundModule.flaw?_eq_none_iff.mp hflaw, by simp⟩

theorem seated_make [SoundChip σ] {module : SoundModule} {chip : σ} {e : Engine σ}
    (h : Engine.make module chip = .ok e) : e.Seated where
  entry s p i hp := by
    rw [Slot.entry, (slot_make h s).2.1] at hp
    cases hp
  home i := by
    obtain ⟨haccepted, hslots⟩ := accepted_make h
    rw [track_make h]
    show 0 < e.slots.size
    rw [hslots]
    exact Nat.pos_of_ne_zero fun hzero => haccepted.pools.1 (UInt8.toNat_inj.mp hzero)
  wide s := (slot_make h s).2.2

theorem module_perform [SoundChip σ] {module : SoundModule} (s : Session σ) (call : Call σ)
    (h : s.engine.Seated ∧ s.engine.module = module) :
    (s.perform call).engine.Seated ∧ (s.perform call).engine.module = module :=
  (enduring_module module).perform (fun _ he _ _ hi => he.1.lt_size hi) s call h

/-- The module stays the one that the engine was made of. -/
theorem module_run [SoundChip σ] {module : SoundModule} {chip : σ} {e : Engine σ}
    (h : Engine.make module chip = .ok e) (calls : List (Call σ)) :
    (Session.run { engine := e } calls).engine.Seated ∧
      (Session.run { engine := e } calls).engine.module = e.module := by
  have hall : Session.Allows (fun _ _ => True) { engine := e } calls :=
    Session.allows_of_forall (fun _ _ => trivial) calls _
  have hkept := hall.throughout (fun s => s.engine.Seated ∧ s.engine.module = e.module)
    (fun s call h _ => module_perform s call h) ⟨seated_make h, rfl⟩
  exact hkept.last

end Engine

end SoundSequencer
