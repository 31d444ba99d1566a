/-
SoundSequencer.Proofs.PoolRuns — tracks and slots over whole runs.

* Every deed keeps tracks and slots in agreement, and so does every voice that
  is freed and every note that is struck as long as voices are owned.
* `poolsAgree_throughout` says that tracks and slots agree throughout every
  careful run.
-/
import SoundSequencer.Proofs.OwnedRuns
import SoundSequencer.Proofs.SequenceStart

namespace SoundSequencer

namespace Engine

variable {σ : Type}

/-! ## Operations that leave places alone -/

theorem samePlaces_of_pools {e e' : Engine σ} (hmodule : e'.module = e.module)
    (htracks : e'.tracks = e.tracks) (hslots : e'.slots = e.slots)
    (htracksActive : e'.tracksActive = e.tracksActive)
    (hslotsActive : e'.slotsActive = e.slotsActive) : SamePlaces e e' where
  module := hmodule
  tracks_size := by rw [htracks]
  slots_size := by rw [hslots]
  seat i := by unfold Engine.track; rw [htracks]
  desk s := by unfold Engine.slot; rw [hslots]
  tracksActive := htracksActive
  slotsActive := hslotsActive
  isStopped i := by unfold Engine.track; rw [htracks]
  tracksPlaying s := by unfold Engine.slot; rw [hslots]
  mode s := by unfold Engine.slot; rw [hslots]

theorem samePlaces_releaseVoices (e : Engine σ) (i : Nat) : SamePlaces e (e.releaseVoices i) := by
  unfold releaseVoices
  split <;> exact samePlaces_of_pools rfl rfl rfl rfl rfl

theorem samePlaces_muteTrack (e : Engine σ) (i : Nat) : SamePlaces e (e.muteTrack i) := by
  unfold muteTrack
  split
  · exact samePlaces_of_pools rfl rfl rfl rfl rfl
  · exact samePlaces_releaseVoices e i

theorem samePlaces_noteOff (e : Engine σ) (i : Nat) (note : UInt8) :
    SamePlaces e (e.noteOff i note) := samePlaces_of_pools rfl rfl rfl rfl rfl

theorem Tuned.samePlaces [SoundChip σ] {e e' : Engine σ} (h : Tuned e e') : SamePlaces e e' where
  module := h.module
  tracks_size := h.tracks_size
  slots_size := h.slots_size
  seat := h.read Track.seat fun _ => rfl
  desk := h.readSlot Slot.desk fun _ => rfl
  tracksActive := h.tracksActive
  slotsActive := h.slotsActive
  isStopped := h.read Track.isStopped fun _ => rfl
  tracksPlaying := h.readSlot Slot.tracksPlaying fun _ => rfl
  mode := h.readSlot Slot.mode fun _ => rfl

theorem samePlaces_dropVoice (e : Engine σ) (v : Nat) : SamePlaces e (e.dropVoice v) := by
  have hvacated : SamePlaces e { e with voices := e.voices.vacate v } :=
    samePlaces_of_pools rfl rfl rfl rfl rfl
  have hdropped := samePlaces_modifyTrack { e with voices := e.voices.vacate v }
    (e.voice v).track (f := Track.withoutVoice) (fun _ => rfl) fun _ => rfl
  exact hvacated.trans hdropped

theorem samePlaces_startVoice [SoundChip σ] (e : Engine σ) (v i : Nat) (patchVoice : UInt16)
    (note velocity : UInt8) : SamePlaces e (e.startVoice v i patchVoice note velocity) := by
  cases h : e.module.patches.voice? patchVoice.toNat with
  | none =>
    rw [startVoice_of_none h]
    exact samePlaces_of_pools rfl rfl rfl rfl rfl
  | some patch =>
    obtain ⟨_, _, _, -, -, hstarted⟩ := startVoice_of_some v i note velocity h
    rw [hstarted]
    refine (samePlaces_modifyTrack e i (f := Track.withVoice) (fun _ => rfl) fun _ => rfl).trans ?_
    exact samePlaces_of_pools rfl rfl rfl rfl rfl

/-! ## Ends -/

theorem track_turnOff_of_ne (e : Engine σ) {i j : Nat} (hij : i ≠ j) :
    (e.turnOff i).track j = e.track j := by
  rw [turnOff_eq]
  split
  · rw [track_retireTrack, if_neg fun hp => hij hp.1]
  · split
    · rw [track_retireTrack, if_neg fun hp => hij hp.1]
    · rw [track_awaitVoices, if_neg fun hp => hij hp.1, track_releaseVoices]

theorem PoolsAgree.turnOff {e : Engine σ} (h : e.PoolsAgree) {i : Nat}
    (hi : (e.track i).isActive = true) : (e.turnOff i).PoolsAgree := by
  rw [turnOff_eq]
  split
  · exact h.retireTrack hi
  · split
    · exact h.retireTrack hi
    · refine ((samePlaces_releaseVoices e i).agree h).awaitVoices ?_
      rw [track_releaseVoices]
      exact hi

/-- The tracks that a slot lists are all different, and all belong to it. -/
theorem Placed.nodup_trackList {e : Engine σ} (h : e.Placed) (s : Nat) :
    (e.slot s).trackList.Nodup := by
  refine Slot.nodup_trackList fun p q i hp hq => ?_
  exact (h.entry s p i hp).2.2.2.symm.trans (h.entry s q i hq).2.2.2

theorem Placed.isActive_of_mem {e : Engine σ} (h : e.Placed) {s i : Nat}
    (hi : i ∈ (e.slot s).trackList) : (e.track i).isActive = true := by
  obtain ⟨p, hp⟩ := Slot.mem_trackIds.mp (List.mem_of_mem_take hi)
  exact (h.entry s p i hp).2.1

/-- Work on tracks, one after the other and none twice, of which each is as it was when
its turn comes. -/
theorem foldl_tracks {good : Engine σ → Prop} (fine : Track → Prop)
    {f : Engine σ → Nat → Engine σ} (hf : ∀ e i, fine (e.track i) → good e → good (f e i))
    (hother : ∀ e i j, i ≠ j → (f e i).track j = e.track j) {l : List Nat} (hl : l.Nodup)
    {e : Engine σ} (hfine : ∀ i ∈ l, fine (e.track i)) (he : good e) : good (l.foldl f e) := by
  have hwork := foldl_keeps (f := f)
    (fun l e => l.Nodup ∧ (∀ i ∈ l, fine (e.track i)) ∧ good e)
    (fun i l e h => by
      obtain ⟨hl, hfine, hgood⟩ := h
      obtain ⟨hnot, hrest⟩ := List.nodup_cons.mp hl
      refine ⟨hrest, fun j hj => ?_, hf e i (hfine i List.mem_cons_self) hgood⟩
      rw [hother e i j fun hij => hnot (hij ▸ hj)]
      exact hfine j (List.mem_cons_of_mem i hj))
    l e ⟨hl, hfine, he⟩
  exact hwork.2.2

/-- Work that ends tracks of the pool, one after the other and none twice. -/
theorem PoolsAgree.foldl {e : Engine σ} (h : e.PoolsAgree) {f : Engine σ → Nat → Engine σ}
    (hf : ∀ e i, (e.track i).isActive = true → PoolsAgree e → (f e i).PoolsAgree)
    (hother : ∀ e i j, i ≠ j → (f e i).track j = e.track j) {l : List Nat} (hl : l.Nodup)
    (hactive : ∀ i ∈ l, (e.track i).isActive = true) : (l.foldl f e).PoolsAgree :=
  foldl_tracks (fun t => t.isActive = true) hf hother hl hactive h

theorem PoolsAgree.endSequence {e : Engine σ} (h : e.PoolsAgree) (s : Nat) :
    (e.endSequence s).PoolsAgree :=
  h.foldl (fun _ _ hi he => he.turnOff hi) (fun e _ _ hij => track_turnOff_of_ne e hij)
    (h.nodup_trackList s) fun _ hi => h.isActive_of_mem hi

theorem PoolsAgree.deed [SoundChip σ] {e e' : Engine σ} (h : e.PoolsAgree)
    (hdeed : Deed e e') : e'.PoolsAgree := by
  cases hdeed with
  | tuned htuned => exact htuned.samePlaces.agree h
  | turnOff hrun =>
    simp only [Track.isRunning, Bool.and_eq_true] at hrun
    exact h.turnOff hrun.1
  | endSequence s => exact h.endSequence s
  | noteOff i note => exact (samePlaces_noteOff e i note).agree h
  | pauseTrack hlists => exact h.pauseTrack (h.of_lists hlists).1
  | muteTrack i => exact (samePlaces_muteTrack e i).agree h

theorem samePlaces_releaseSlot (e : Engine σ) (slot : Nat) :
    SamePlaces e (e.modifySlot slot fun s => { s with handled := false }) where
  module := rfl
  tracks_size := rfl
  slots_size := by simp [modifySlot]
  seat _ := rfl
  desk s := by rw [slot_modifySlot]; split <;> rfl
  tracksActive := rfl
  slotsActive := rfl
  isStopped _ := rfl
  tracksPlaying s := by rw [slot_modifySlot]; split <;> rfl
  mode s := by rw [slot_modifySlot]; split <;> rfl

/-- The engine with track `i` turned off, and no handle to keep it. -/
def releaseTrack (e : Engine σ) (i : Nat) : Engine σ := (e.modifyTrack i Track.unhandled).turnOff i

theorem track_releaseTrack_of_ne (e : Engine σ) {i j : Nat} (hij : i ≠ j) :
    (e.releaseTrack i).track j = e.track j := by
  rw [releaseTrack, track_turnOff_of_ne _ hij, track_unhandle, if_neg fun hp => hij hp.1]

theorem PoolsAgree.releaseTrack {e : Engine σ} (h : e.PoolsAgree) {i : Nat}
    (hi : (e.track i).isActive = true) : (e.releaseTrack i).PoolsAgree := by
  have hunhandled : SamePlaces e (e.modifyTrack i Track.unhandled) :=
    samePlaces_modifyTrack e i (fun _ => rfl) fun _ => rfl
  exact (hunhandled.agree h).turnOff ((hunhandled.isActive i).trans hi)

theorem PoolsAgree.releaseHandle {e : Engine σ} (h : e.PoolsAgree) (slot : Nat) :
    (e.releaseHandle slot).PoolsAgree := by
  unfold Engine.releaseHandle
  split
  · have hfree := (samePlaces_releaseSlot e slot).agree h
    exact hfree.foldl (f := Engine.releaseTrack) (fun _ _ hi he => he.releaseTrack hi)
      (fun e _ _ hij => e.track_releaseTrack_of_ne hij) (hfree.nodup_trackList slot)
      fun i hi => hfree.isActive_of_mem hi
  · exact h

/-! ## Voices and notes -/

/-- A voice that is freed ends at most its owner, which is in the pool. -/
theorem PoolsAgree.freeVoice {e : Engine σ} (h : e.PoolsAgree) (howner : ∀ v, e.OwnerPlays v)
    (v : Nat) : (e.freeVoice v).PoolsAgree := by
  rw [freeVoice_eq]
  split
  · next hv =>
    have hdropped := samePlaces_dropVoice e v
    split
    · refine (hdropped.agree h).retireTrack ?_
      rw [hdropped.isActive]
      exact (howner v hv).1
    · exact hdropped.agree h
  · exact h

theorem PoolsAgree.playNote [SoundChip σ] {e : Engine σ} (h : e.PoolsAgree)
    (howner : ∀ v, e.OwnerPlays v) (i : Nat) (patchVoice : UInt16) (note velocity : UInt8) :
    (e.playNote i patchVoice note velocity).PoolsAgree := by
  rcases playNote_eq e i patchVoice note velocity with heq | ⟨-, v, -, heq⟩
  · rw [heq]
    exact h
  · rw [heq]
    exact (samePlaces_startVoice _ v i patchVoice note velocity).agree (h.freeVoice howner v)

theorem PoolsAgree.noteOn [SoundChip σ] {e : Engine σ} (h : e.PoolsAgree)
    (howned : e.VoicesOwned) {i : Nat} (hi : (e.track i).MayPlay) (key velocity : UInt8) :
    (e.noteOn i key velocity).PoolsAgree := by
  unfold Engine.noteOn
  split
  · exact h
  · next patch note _ =>
    have hkeys := foldl_keeps
      (f := fun e index => e.playNote i (UInt16.ofNat index) note velocity)
      (fun _ e => e.PoolsAgree ∧ e.VoicesOwned ∧ (e.track i).MayPlay)
      (fun index _ e he => by
        obtain ⟨hagree, howned, hplays⟩ := he
        exact ⟨hagree.playNote howned.owner i _ note velocity,
          howned.playNote hplays _ note velocity,
          playNote_keeps Track.MayPlay.voiceFreed Track.MayPlay.withVoice hplays i _ note velocity⟩)
      (soundingVoices e.module.patches patch note) e ⟨h, howned, hi⟩
    exact hkeys.1

/-! ## Letting tracks go on -/

/-- Where no track waits, turned off, a voice that is freed ends none, and slots
stay as they are. -/
theorem freeVoice_of_notOff {e : Engine σ} (howned : e.VoicesOwned)
    (hoff : ∀ i, (e.track i).NotOff) (v : Nat) :
    e.freeVoice v = if (e.voice v).active then e.dropVoice v else e := by
  rw [freeVoice_eq]
  split
  · next hv =>
    have howner := hoff _ (howned.owner v hv).1
    refine if_neg fun hlast => ?_
    rw [track_dropVoice] at hlast
    split at hlast
    · exact absurd hlast.2 (Bool.eq_false_iff.mp howner)
    · exact absurd hlast.2 (Bool.eq_false_iff.mp howner)
  · rfl

theorem slot_freeVoice {e : Engine σ} (howned : e.VoicesOwned)
    (hoff : ∀ i, (e.track i).NotOff) (v s : Nat) : (e.freeVoice v).slot s = e.slot s := by
  rw [freeVoice_of_notOff howned hoff]
  split
  · rfl
  · rfl

theorem slot_startVoice [SoundChip σ] (e : Engine σ) (v i : Nat) (patchVoice : UInt16)
    (note velocity : UInt8) (s : Nat) :
    (e.startVoice v i patchVoice note velocity).slot s = e.slot s := by
  cases h : e.module.patches.voice? patchVoice.toNat with
  | none => rw [startVoice_of_none h]
  | some patch =>
    obtain ⟨_, _, _, -, -, hstarted⟩ := startVoice_of_some v i note velocity h
    rw [hstarted]
    rfl

theorem slot_playNote [SoundChip σ] {e : Engine σ} (howned : e.VoicesOwned)
    (hoff : ∀ i, (e.track i).NotOff) (i : Nat) (patchVoice : UInt16) (note velocity : UInt8)
    (s : Nat) : (e.playNote i patchVoice note velocity).slot s = e.slot s := by
  rcases playNote_eq e i patchVoice note velocity with heq | ⟨-, v, -, heq⟩
  · rw [heq]
  · rw [heq, slot_startVoice, slot_freeVoice howned hoff]

theorem PoolsAgree.restart {e : Engine σ} (h : e.PoolsAgree) (sequence : Nat) :
    (e.restart sequence).PoolsAgree :=
  restart_keeps (fun e => e.PoolsAgree) (fun _ _ _ hi he => he.resumeTrack (he.of_lists hi).1)
    sequence h

theorem PoolsAgree.restartAll [SoundChip σ] {e : Engine σ} (h : e.PoolsAgree)
    {saved : List SavedNote} (htakes : e.Takes saved) (hoff : ∀ i, (e.track i).NotOff) :
    (e.restartAll saved).PoolsAgree := by
  have hrestart := restartAll_keeps
    (fun e : Engine σ => e.PoolsAgree ∧ e.Takes saved ∧ ∀ i, (e.track i).NotOff) saved
    Lists (fun _ _ _ h => h)
    (fun e s i hi h => by
      obtain ⟨hagree, htakes, hoff⟩ := h
      exact ⟨hagree.resumeTrack (hagree.of_lists hi).1, htakes.resumeTrack i,
        forall_track_resume (fun _ h => h) hoff i⟩)
    (fun e s i j hj => (lists_resumeTrack e i s j).mpr hj)
    (fun e n hn h => by
      obtain ⟨hagree, htakes, hoff⟩ := h
      refine ⟨hagree.playNote htakes.owned.owner n.track n.patchVoice n.note n.velocity,
        htakes.playNote hn, fun i => ?_⟩
      exact playNote_keeps Track.NotOff.voiceFreed Track.NotOff.withVoice (hoff i) n.track _ _ _)
    (fun e n s j _ h hj => by
      obtain ⟨-, htakes, hoff⟩ := h
      unfold Lists at hj ⊢
      rwa [slot_playNote htakes.owned hoff])
    ⟨h, htakes, hoff⟩
  exact hrestart.1

end Engine

/-! ## Runs -/

section Runs

variable {σ : Type} [SoundChip σ]

open Engine

theorem poolsAgree_make {module : SoundModule} {chip : σ} {e : Engine σ}
    (h : Engine.make module chip = .ok e) : e.PoolsAgree := by
  have htrack : ∀ i, (e.track i).isActive = false := by
    intro i
    rw [track_make h]
    rfl
  have hslot : ∀ s, (e.slot s).active = true → False := by
    intro s hs
    rw [(slot_make h s).1] at hs
    cases hs
  obtain ⟨htracks, hslots⟩ := counts_make h
  exact {
    home := fun i hi => by rw [htrack] at hi; cases hi
    entry := fun s p i hp => by
      rw [Slot.entry, (slot_make h s).2.1] at hp
      cases hp
    entries := fun s hs => (hslot s hs).elim
    playing := fun s hs => (hslot s hs).elim
    tracks := by
      rw [htracks, eq_comm, List.countP_eq_zero]
      intro i _
      rw [htrack]
      exact Bool.false_ne_true
    slots := by
      rw [hslots, eq_comm, List.countP_eq_zero]
      exact fun s _ hs => hslot s hs
    wide := fun s => (slot_make h s).2.2
    lively := fun s hs => (hslot s hs).elim }

/-- What careful runs keep: voices are owned, tracks that are turned off are paused,
and tracks and slots agree. -/
structure Engine.InOrder (e : Engine σ) : Prop where
  owned : e.VoicesOwned
  rests : ∀ i, (e.track i).OffRests
  agree : e.PoolsAgree

theorem lasting_inOrder : Lasting fun e : Engine σ => e.InOrder where
  deed _ _ hdeed h :=
    ⟨h.owned.deed hdeed, (steps_deed hdeed).keeps (fun _ _ hstep => hstep.offRests) h.rests,
      h.agree.deed hdeed⟩
  freeVoice e v h :=
    ⟨h.owned.freeVoice v, (steps_freeVoice e v).keeps (fun _ _ hstep => hstep.offRests) h.rests,
      h.agree.freeVoice h.owned.owner v⟩
  sound e chip toRelease toMute h :=
    ⟨lasting_voicesOwned.sound e chip toRelease toMute h.owned, h.rests,
      SamePlaces.agree (e := e) (samePlaces_of_pools rfl rfl rfl rfl rfl) h.agree⟩

/-- A key that a running track plays leaves all in order. -/
theorem Engine.InOrder.noteOn_of_isRunning {e : Engine σ} (h : e.InOrder) {i : Nat}
    (hrun : (e.track i).isRunning = true) (hdriver : (e.track i).driver = .voices)
    (key velocity : UInt8) : (e.noteOn i key velocity).InOrder := by
  have hplays := mayPlay_of_isRunning (h.rests i) hrun hdriver
  exact ⟨h.owned.noteOn hplays key velocity,
    (steps_noteOn e i key velocity).keeps (fun _ _ hstep => hstep.offRests) h.rests,
    h.agree.noteOn h.owned hplays key velocity⟩

theorem poolsAgree_tick {e : Engine σ} (h : e.InOrder) : e.tick.PoolsAgree := by
  have htick := lasting_inOrder.tick
    (fun _ _ key velocity hrun hdriver h => h.noteOn_of_isRunning hrun hdriver key velocity) h
  exact htick.agree

theorem inOrder_perform (s : Session σ) (call : Call σ) (h : s.engine.InOrder)
    (hcareful : s.Careful call) : (s.perform call).engine.InOrder := by
  by_cases hplain : call.Plain
  · exact lasting_inOrder.perform (.inl hplain) h
  obtain ⟨howned, hrests⟩ := careful_perform s call ⟨h.owned, h.rests⟩ hcareful
  refine ⟨howned, hrests, ?_⟩
  cases call with
  | tick =>
    rw [Session.engine_tick]
    exact poolsAgree_tick h
  | start sequence options => exact h.agree.startSequence sequence options
  | releaseHandle slot => exact h.agree.releaseHandle slot
  | restart sequence => exact h.agree.restart sequence
  | restartAll saved =>
    exact h.agree.restartAll ⟨h.owned, hcareful.2⟩ (hcareful.1 rfl)
  | onChip f => exact (lasting_inOrder.perform (.inr ⟨f, rfl⟩) h).agree
  | _ => exact absurd trivial hplain

theorem inOrder_make {module : SoundModule} {chip : σ} {e : Engine σ}
    (hmake : Engine.make module chip = .ok e) : e.InOrder :=
  ⟨voicesOwned_make hmake, offRests_make hmake, poolsAgree_make hmake⟩

/-- Tracks and slots agree throughout every run in which tracks are let go on only
while none of them waits, turned off, for its last voice, and in which only notes of
tracks that may play are struck again. -/
theorem poolsAgree_throughout {module : SoundModule} {chip : σ} {e : Engine σ}
    (hmake : Engine.make module chip = .ok e) {calls : List (Call σ)}
    (hcareful : Session.Allows Session.Careful { engine := e } calls) :
    Session.Throughout (fun s => s.engine.PoolsAgree) { engine := e } calls := by
  have hkept := hcareful.throughout (fun s => s.engine.InOrder)
    (fun s call h hcareful => inOrder_perform s call h hcareful)
    ⟨voicesOwned_make hmake, offRests_make hmake, poolsAgree_make hmake⟩
  exact hkept.imp fun _ h => h.agree

end Runs

/-- A sequence starts, is paused, goes on, loses its voice to itself, and is stopped. -/
theorem poolsAgree_throughout_steal : ∃ e,
    Engine.make (solo [(0, .noteOn 60 100), (2, .noteOn 62 100), (1000, .trackEnd)])
        ({ instantRelease := false } : RecorderChip) = .ok e ∧
      Session.Throughout (fun s => s.engine.PoolsAgree) { engine := e }
        [.start 0 {}, .tick, .pauseAll true [], .restartAll [], .tick, .stop 0, .tick] := by
  obtain ⟨e, hmake, hcareful⟩ : ∃ e,
      Engine.make (solo [(0, .noteOn 60 100), (2, .noteOn 62 100), (1000, .trackEnd)])
          ({ instantRelease := false } : RecorderChip) = .ok e ∧
        Session.Allows Session.Careful { engine := e }
          [.start 0 {}, .tick, .pauseAll true [], .restartAll [], .tick, .stop 0, .tick] :=
    Engine.exists_make (by decide +kernel)
  exact ⟨e, hmake, poolsAgree_throughout hmake hcareful⟩

end SoundSequencer
