/-
SoundSequencer.Proofs.Handles — how long a handle is good.

* `Engine.Holds` says that a handle holds a slot: the slot and all its tracks are in
  use, and marked as held.
* `SameGrip` says that nothing changes that a handle can hold. A track that is
  retired is either held, and stays, or stands on another slot.
* `handle_throughout` says that a handle is good in every careful run until it is
  released, and what its release does to the tracks.
-/
import SoundSequencer.Proofs.Seats
import SoundSequencer.Proofs.WellFormed

namespace SoundSequencer

/-- Whether a call releases the handle of `slot`. -/
def Call.releases {σ : Type} (slot : Nat) : Call σ → Bool
  | .releaseHandle s => s == slot
  | _ => false

/-- The slot as far as a handle holds it. -/
def Slot.grip (s : Slot) := (s.active, s.handled, s.sequence, s.tracks)

/-- The track as far as a handle holds it. -/
def Track.grip (t : Track) := (t.isActive, t.isHandled)

/-- The track has left the pool, or it is turned off and paused and waits for voices. -/
def Track.Dismissed (t : Track) : Prop :=
  t.isActive = false ∨ t.flags.off = true ∧ t.isStopped = true ∧ 0 < t.voicesActive

namespace Engine

variable {σ : Type}

/-! ## What a handle holds -/

/-- A handle holds `slot`, which is in use for `sequence` with the given tracks. -/
structure Holds (e : Engine σ) (slot sequence : Nat) (tracks : Array (Option Nat)) : Prop where
  grip : (e.slot slot).grip = (true, true, sequence, tracks)
  held : ∀ i ∈ (e.slot slot).trackIds, (e.track i).grip = (true, true)

/-- Nothing changes that a handle can hold. -/
structure SameGrip (e e' : Engine σ) : Prop where
  slot : ∀ s, (e'.slot s).grip = (e.slot s).grip
  track : ∀ i, (e'.track i).grip = (e.track i).grip

namespace SameGrip

theorem refl (e : Engine σ) : SameGrip e e := ⟨fun _ => rfl, fun _ => rfl⟩

theorem trans {a b c : Engine σ} (hab : SameGrip a b) (hbc : SameGrip b c) : SameGrip a c :=
  ⟨fun s => (hbc.slot s).trans (hab.slot s), fun i => (hbc.track i).trans (hab.track i)⟩

theorem of_pools {e e' : Engine σ} (htracks : e'.tracks = e.tracks) (hslots : e'.slots = e.slots) :
    SameGrip e e' where
  slot s := by
    unfold Engine.slot
    rw [hslots]
  track i := by
    unfold Engine.track
    rw [htracks]

theorem modifyTrack (e : Engine σ) (i : Nat) {f : Track → Track} (hf : ∀ t, (f t).grip = t.grip) :
    SameGrip e (e.modifyTrack i f) where
  slot _ := rfl
  track j := by
    rw [track_modifyTrack]
    split <;> simp only [hf]

theorem modifySlot (e : Engine σ) (s : Nat) {g : Slot → Slot} (hg : ∀ s, (g s).grip = s.grip) :
    SameGrip e (e.modifySlot s g) where
  slot j := by
    rw [slot_modifySlot]
    split <;> simp only [hg]
  track _ := rfl

theorem modify (e : Engine σ) (i s : Nat) {f : Track → Track} {g : Slot → Slot}
    (hf : ∀ t, (f t).grip = t.grip) (hg : ∀ s, (g s).grip = s.grip) :
    SameGrip e ((e.modifyTrack i f).modifySlot s g) :=
  (modifyTrack e i hf).trans (modifySlot _ s hg)

end SameGrip

theorem sameGrip_pauseTrack (e : Engine σ) (i : Nat) : SameGrip e (e.pauseTrack i) := by
  unfold pauseTrack
  split
  · exact .refl e
  · exact .modify (g := Slot.stopped) e i _ (fun _ => rfl) fun _ => rfl

theorem sameGrip_resumeTrack (e : Engine σ) (i : Nat) : SameGrip e (e.resumeTrack i) := by
  unfold resumeTrack
  split
  · exact .modify (g := Slot.started) e i _ (fun _ => rfl) fun _ => rfl
  · exact .refl e

theorem sameGrip_awaitVoices (e : Engine σ) (i : Nat) : SameGrip e (e.awaitVoices i) := by
  refine .modify e i _ (fun _ => rfl) fun s => ?_
  split <;> rfl

theorem sameGrip_releaseVoices (e : Engine σ) (i : Nat) : SameGrip e (e.releaseVoices i) := by
  unfold releaseVoices
  split
  · exact .refl e
  · exact .of_pools rfl rfl

theorem sameGrip_muteTrack (e : Engine σ) (i : Nat) : SameGrip e (e.muteTrack i) := by
  unfold muteTrack
  split
  · exact .of_pools rfl rfl
  · exact sameGrip_releaseVoices e i

theorem sameGrip_dropVoice (e : Engine σ) (v : Nat) : SameGrip e (e.dropVoice v) :=
  have hvacated : SameGrip e { e with voices := e.voices.vacate v } := .of_pools rfl rfl
  hvacated.trans (.modifyTrack (f := Track.withoutVoice) _ _ fun _ => rfl)

theorem sameGrip_startVoice [SoundChip σ] (e : Engine σ) (v i : Nat) (patchVoice : UInt16)
    (note velocity : UInt8) : SameGrip e (e.startVoice v i patchVoice note velocity) where
  slot s := by rw [slot_startVoice]
  track j := by
    rw [track_startVoice]
    split <;> rfl

theorem Tuned.sameGrip [SoundChip σ] {e e' : Engine σ} (h : Tuned e e') : SameGrip e e' :=
  ⟨fun s => h.readSlot Slot.grip (fun _ => rfl) s, fun i => h.read Track.grip (fun _ => rfl) i⟩

namespace Holds

variable {e e' : Engine σ} {slot sequence : Nat} {tracks : Array (Option Nat)}

theorem isActive (h : e.Holds slot sequence tracks) : (e.slot slot).active = true :=
  congrArg (·.1) h.grip

theorem tracks_eq (h : e.Holds slot sequence tracks) : (e.slot slot).tracks = tracks :=
  congrArg (·.2.2.2) h.grip

/-- What touches neither the slot nor its tracks leaves the handle good. -/
theorem of_eq (h : e.Holds slot sequence tracks)
    (hslot : (e'.slot slot).grip = (e.slot slot).grip)
    (htrack : ∀ i ∈ (e.slot slot).trackIds, (e'.track i).grip = (e.track i).grip) :
    e'.Holds slot sequence tracks where
  grip := hslot.trans h.grip
  held i hi := by
    have htracks : (e'.slot slot).tracks = (e.slot slot).tracks := congrArg (·.2.2.2) hslot
    rw [Slot.trackIds, htracks] at hi
    rw [htrack i hi]
    exact h.held i hi

theorem same (h : e.Holds slot sequence tracks) (hgrip : SameGrip e e') :
    e'.Holds slot sequence tracks :=
  h.of_eq (hgrip.slot slot) fun i _ => hgrip.track i

/-- A track that no handle holds leaves from another slot. -/
theorem leavePool (h : e.Holds slot sequence tracks) (hplaced : e.Placed) {j : Nat}
    (hj : (e.track j).isActive = true) (hfree : (e.track j).isHandled = false) :
    (e.leavePool j).Holds slot sequence tracks := by
  have hnot : j ∉ (e.slot slot).trackIds := by
    intro hmem
    have hheld : (e.track j).isHandled = true := congrArg (·.2) (h.held j hmem)
    rw [hfree] at hheld
    cases hheld
  have hhome : (e.track j).slot ≠ slot := by
    rintro rfl
    exact hnot (Slot.mem_trackIds.mpr ⟨_, (hplaced.home j hj).2.1⟩)
  refine h.of_eq ?_ fun i hi => ?_
  · rw [slot_leavePool_of_ne hhome]
  · have hji : j ≠ i := by
      rintro rfl
      exact hnot hi
    rw [track_leavePool_of_ne hji]

theorem retireTrack (h : e.Holds slot sequence tracks) (hagree : e.PoolsAgree) {j : Nat}
    (hj : (e.track j).isActive = true) : (e.retireTrack j).Holds slot sequence tracks := by
  have hpaused := h.same (sameGrip_pauseTrack e j)
  have hplaced := (hagree.pauseTrack hj).toPlaced
  have hin : ((e.pauseTrack j).track j).isActive = true :=
    (congrArg (·.1) ((sameGrip_pauseTrack e j).track j)).trans hj
  unfold Engine.retireTrack
  dsimp only
  have hleft : (if ((e.pauseTrack j).track j).isHandled then e.pauseTrack j
      else (e.pauseTrack j).leavePool j).Holds slot sequence tracks := by
    split
    · exact hpaused
    · next hfree => exact hpaused.leavePool hplaced hin (Bool.not_eq_true _ ▸ hfree)
  exact hleft.same (.modifyTrack _ j fun _ => rfl)

theorem turnOff (h : e.Holds slot sequence tracks) (hagree : e.PoolsAgree) {j : Nat}
    (hj : (e.track j).isActive = true) : (e.turnOff j).Holds slot sequence tracks := by
  rw [turnOff_eq]
  split
  · exact h.retireTrack hagree hj
  · split
    · exact h.retireTrack hagree hj
    · exact h.same ((sameGrip_releaseVoices e j).trans (sameGrip_awaitVoices _ j))

theorem endSequence (h : e.Holds slot sequence tracks) (hagree : e.PoolsAgree) (s : Nat) :
    (e.endSequence s).Holds slot sequence tracks := by
  have hended := foldl_tracks (fun t => t.isActive = true)
    (fun e j hj (he : e.PoolsAgree ∧ e.Holds slot sequence tracks) =>
      ⟨he.1.turnOff hj, he.2.turnOff he.1 hj⟩)
    (fun e _ _ hij => track_turnOff_of_ne e hij) (hagree.nodup_trackList s)
    (fun _ hi => hagree.isActive_of_mem hi) ⟨hagree, h⟩
  exact hended.2

/-- A voice that is freed, on whomever's account, ends no track that a handle holds. -/
theorem freeVoice (h : e.Holds slot sequence tracks) (hagree : e.PoolsAgree)
    (howner : ∀ v, e.OwnerPlays v) (v : Nat) : (e.freeVoice v).Holds slot sequence tracks := by
  rw [freeVoice_eq]
  split
  · next hv =>
    have hdropped := samePlaces_dropVoice e v
    have hkept := h.same (sameGrip_dropVoice e v)
    split
    · refine hkept.retireTrack (hdropped.agree hagree) ?_
      rw [hdropped.isActive]
      exact (howner v hv).1
    · exact hkept
  · exact h

theorem playNote [SoundChip σ] (h : e.Holds slot sequence tracks) (hagree : e.PoolsAgree)
    (howner : ∀ v, e.OwnerPlays v) (i : Nat) (patchVoice : UInt16) (note velocity : UInt8) :
    (e.playNote i patchVoice note velocity).Holds slot sequence tracks := by
  rcases playNote_eq e i patchVoice note velocity with heq | ⟨-, v, -, heq⟩
  · rwa [heq]
  · rw [heq]
    exact (h.freeVoice hagree howner v).same (sameGrip_startVoice _ v i patchVoice note velocity)

end Holds

/-! ## Ticks and plain calls -/

section Ticks

variable [SoundChip σ] {e e' : Engine σ} {slot sequence : Nat} {tracks : Array (Option Nat)}

/-- The books are right, and the handle is good. -/
structure InHand (slot sequence : Nat) (tracks : Array (Option Nat)) (e : Engine σ) : Prop where
  form : e.WellFormed
  holds : e.Holds slot sequence tracks

theorem Holds.deed (h : e.Holds slot sequence tracks) (hagree : e.PoolsAgree)
    (hdeed : Deed e e') : e'.Holds slot sequence tracks := by
  cases hdeed with
  | tuned htuned => exact h.same htuned.sameGrip
  | turnOff hrun => exact h.turnOff hagree (Bool.and_eq_true_iff.mp hrun).1
  | endSequence s => exact h.endSequence hagree s
  | noteOff => exact h.same (.of_pools rfl rfl)
  | pauseTrack => exact h.same (sameGrip_pauseTrack e _)
  | muteTrack i => exact h.same (sameGrip_muteTrack e i)

theorem lasting_inHand (slot sequence : Nat) (tracks : Array (Option Nat)) :
    Lasting fun e : Engine σ => InHand slot sequence tracks e where
  deed e e' hdeed h :=
    ⟨lasting_wellFormed.deed e e' hdeed h.form, h.holds.deed h.form.agree hdeed⟩
  freeVoice _ v h := ⟨h.form.freeVoice v, h.holds.freeVoice h.form.agree h.form.voices.owner v⟩
  sound e chip toRelease toMute h :=
    ⟨lasting_wellFormed.sound e chip toRelease toMute h.form, h.holds.same (.of_pools rfl rfl)⟩

theorem InHand.playNote (h : InHand slot sequence tracks e) {i : Nat}
    (hi : (e.track i).MayPlay) (patchVoice : UInt16) (note velocity : UInt8) :
    InHand slot sequence tracks (e.playNote i patchVoice note velocity) :=
  ⟨h.form.playNote hi patchVoice note velocity,
    h.holds.playNote h.form.agree h.form.voices.owner i patchVoice note velocity⟩

/-- A key takes voices from whomever it likes, and from no handle a track. -/
theorem InHand.noteOn (h : InHand slot sequence tracks e) {i : Nat} (hi : (e.track i).MayPlay)
    (key velocity : UInt8) : InHand slot sequence tracks (e.noteOn i key velocity) := by
  unfold Engine.noteOn
  split
  · exact h
  · next patch note _ =>
    have hkeys := foldl_keeps
      (f := fun e index => e.playNote i (UInt16.ofNat index) note velocity)
      (fun _ e => InHand slot sequence tracks e ∧ (e.track i).MayPlay)
      (fun index _ e he => by
        obtain ⟨hhand, hplays⟩ := he
        exact ⟨hhand.playNote hplays _ note velocity,
          playNote_keeps Track.MayPlay.voiceFreed Track.MayPlay.withVoice hplays i _ note velocity⟩)
      (soundingVoices e.module.patches patch note) e ⟨h, hi⟩
    exact hkeys.1

theorem InHand.tick (h : InHand slot sequence tracks e) : InHand slot sequence tracks e.tick :=
  (lasting_inHand slot sequence tracks).tick
    (fun _ i key velocity hrun hdriver h =>
      h.noteOn (mayPlay_of_isRunning (h.form.rests i) hrun hdriver) key velocity) h

end Ticks

/-! ## Other calls -/

section Calls

variable {e : Engine σ} {slot sequence : Nat} {tracks : Array (Option Nat)}

theorem Holds.restart (h : e.Holds slot sequence tracks) (other : Nat) :
    (e.restart other).Holds slot sequence tracks :=
  restart_keeps (fun e => e.Holds slot sequence tracks)
    (fun e _ i _ h => h.same (sameGrip_resumeTrack e i)) other h

/-- Where no track waits, turned off, no note that is struck again ends one. -/
theorem sameGrip_playNote [SoundChip σ] (howned : e.VoicesOwned)
    (hoff : ∀ i, (e.track i).NotOff) (i : Nat) (patchVoice : UInt16) (note velocity : UInt8) :
    SameGrip e (e.playNote i patchVoice note velocity) := by
  rcases playNote_eq e i patchVoice note velocity with heq | ⟨-, v, -, heq⟩
  · rw [heq]
    exact .refl e
  · rw [heq]
    have hfreed : SameGrip e (e.freeVoice v) := by
      rw [freeVoice_of_notOff howned hoff]
      split
      · exact sameGrip_dropVoice e v
      · exact .refl e
    exact hfreed.trans (sameGrip_startVoice _ v i patchVoice note velocity)

theorem sameGrip_restartAll [SoundChip σ] {saved : List SavedNote} (htakes : e.Takes saved)
    (hoff : ∀ i, (e.track i).NotOff) : SameGrip e (e.restartAll saved) := by
  have hrestart := restartAll_keeps
    (fun e' : Engine σ => SameGrip e e' ∧ e'.Takes saved ∧ ∀ i, (e'.track i).NotOff) saved
    (fun _ _ _ => True) (fun _ _ _ _ => trivial)
    (fun e' _ i _ h => by
      obtain ⟨hgrip, htakes, hoff⟩ := h
      exact ⟨hgrip.trans (sameGrip_resumeTrack e' i), htakes.resumeTrack i,
        forall_track_resume (fun _ h => h) hoff i⟩)
    (fun _ _ _ _ _ => trivial)
    (fun e' n hn h => by
      obtain ⟨hgrip, htakes, hoff⟩ := h
      refine ⟨hgrip.trans (sameGrip_playNote htakes.owned hoff n.track _ _ _),
        htakes.playNote hn, fun i => ?_⟩
      exact playNote_keeps Track.NotOff.voiceFreed Track.NotOff.withVoice (hoff i) n.track _ _ _)
    (fun _ _ _ _ _ _ _ => trivial) ⟨.refl e, htakes, hoff⟩
  exact hrestart.1

/-- A track that starts is one that no handle holds. -/
theorem Holds.startTrack (h : e.Holds slot sequence tracks) {home other i position : Nat}
    (hfits : e.Fits home other i position) (hne : home ≠ slot) (options : StartOptions) :
    (e.startTrack home other options i position).Holds slot sequence tracks := by
  refine h.of_eq ?_ fun j hj => ?_
  · rw [hfits.slot_of_ne options hne]
  · have hij : i ≠ j := by
      rintro rfl
      have hactive : (e.track i).isActive = true := congrArg (·.1) (h.held i hj)
      exact Bool.false_ne_true (hfits.idle.symm.trans hactive)
    rw [track_startTrack_of_ne e home other options position hij]

/-- A sequence that starts takes another slot. -/
theorem Holds.startSequence (h : e.Holds slot sequence tracks) (hagree : e.PoolsAgree)
    (other : Nat) (options : StartOptions) :
    (e.startSequence other options).2.Holds slot sequence tracks := by
  have hother : ∀ home, (e.slot home).active = false → home ≠ slot := by
    rintro home hidle rfl
    exact Bool.false_ne_true (hidle.symm.trans h.isActive)
  rcases startSequence_eq e other options with
    ⟨-, heq⟩ | ⟨streams, home, hstreams, hlt, hidle, ⟨-, heq⟩ | ⟨-, -, heq⟩⟩
  · rwa [heq]
  · rw [heq]
    refine h.of_eq ?_ fun _ _ => rfl
    rw [slot_clearSlot hlt, if_neg (hother home hidle)]
  · rw [heq]
    have hopen : ((e.modifySlot home Slot.cleared).openSlot home other options).Holds slot sequence
        tracks := by
      refine h.of_eq ?_ fun _ _ => rfl
      rw [slot_openSlot hlt, if_neg (hother home hidle)]
    have hfilled := foldl_keeps (f := fun e p => e.startTrack home other options p.1 p.2)
      (fun rest e' => Filling home other options (e.freeTracks.take streams.size).length rest e' ∧
        e'.Holds slot sequence tracks)
      (fun p rest e' h => by
        obtain ⟨hfilling, hholds⟩ := h
        exact ⟨hfilling.startTrack,
          hholds.startTrack (hfilling.fits p List.mem_cons_self) (hother home hidle) options⟩)
      _ _ ⟨hagree.openSlot hlt hidle hstreams options, hopen⟩
    exact hfilled.2

theorem Holds.releaseTrack (h : e.Holds slot sequence tracks) (hagree : e.PoolsAgree) {i : Nat}
    (hi : (e.track i).isActive = true) (hhome : (e.track i).slot ≠ slot) :
    (e.releaseTrack i).Holds slot sequence tracks := by
  have hunhandled : SamePlaces e (e.modifyTrack i Track.unhandled) :=
    samePlaces_modifyTrack e i (fun _ => rfl) fun _ => rfl
  have hkept : (e.modifyTrack i Track.unhandled).Holds slot sequence tracks := by
    refine h.of_eq rfl fun j hj => ?_
    have hij : i ≠ j := by
      rintro rfl
      exact hhome (hagree.of_mem hj).2
    rw [track_unhandle, if_neg fun hp => hij hp.1]
  exact hkept.turnOff (hunhandled.agree hagree) ((hunhandled.isActive i).trans hi)

/-- The handle of another slot takes no track along. -/
theorem Holds.releaseHandle (h : e.Holds slot sequence tracks) (hagree : e.PoolsAgree)
    {other : Nat} (hne : other ≠ slot) : (e.releaseHandle other).Holds slot sequence tracks := by
  unfold Engine.releaseHandle
  split
  · have hfree := (samePlaces_releaseSlot e other).agree hagree
    have hkept : (e.modifySlot other fun s => { s with handled := false }).Holds slot sequence
        tracks := by
      refine h.of_eq ?_ fun _ _ => rfl
      rw [slot_modifySlot, if_neg fun hp => hne hp.1]
    have hreleased := foldl_tracks (f := Engine.releaseTrack)
      (fun t => t.isActive = true ∧ t.slot = other)
      (fun e i hi (he : e.PoolsAgree ∧ e.Holds slot sequence tracks) =>
        ⟨he.1.releaseTrack hi.1, he.2.releaseTrack he.1 hi.1 fun hs => hne (hi.2.symm.trans hs)⟩)
      (fun e _ _ hij => e.track_releaseTrack_of_ne hij) (hfree.nodup_trackList other)
      (fun _ hi => hfree.of_mem (List.mem_of_mem_take hi)) ⟨hfree, hkept⟩
    exact hreleased.2
  · exact h

theorem Holds.perform [SoundChip σ] {s : Session σ} (h : s.engine.Holds slot sequence tracks)
    (horder : s.engine.InOrder) {call : Call σ} (hcareful : s.Careful call)
    (hkeeps : call.releases slot = false) :
    (s.perform call).engine.Holds slot sequence tracks := by
  have hlast : Lasting fun e : Engine σ => InHand slot sequence tracks e :=
    lasting_inHand slot sequence tracks
  have hhand : InHand slot sequence tracks s.engine := ⟨horder.wellFormed, h⟩
  by_cases hplain : call.Plain
  · exact (hlast.perform (.inl hplain) hhand).holds
  cases call with
  | tick =>
    rw [Session.engine_tick]
    exact hhand.tick.holds
  | start other options => exact h.startSequence horder.agree other options
  | releaseHandle other =>
    exact h.releaseHandle horder.agree (by simpa [Call.releases] using hkeeps)
  | restart other => exact h.restart other
  | restartAll saved =>
    exact h.same (sameGrip_restartAll ⟨horder.owned, hcareful.2⟩ (hcareful.1 rfl))
  | onChip f => exact (hlast.perform (.inr ⟨f, rfl⟩) hhand).holds
  | _ => exact absurd trivial hplain

/-! ## How a handle begins -/

/-- The tracks that have started so far are held. -/
structure Gripped (slot sequence : Nat) (e : Engine σ) : Prop where
  inUse : (e.slot slot).active = true ∧ (e.slot slot).handled = true ∧
    (e.slot slot).sequence = sequence
  held : ∀ i ∈ (e.slot slot).trackIds, (e.track i).grip = (true, true)

theorem Gripped.startTrack (h : Gripped slot sequence e) (hplaced : e.Placed) {i position : Nat}
    (hfits : e.Fits slot sequence i position) {options : StartOptions}
    (hhandled : options.handled = true) :
    Gripped slot sequence (e.startTrack slot sequence options i position) where
  inUse := by
    rw [hfits.slot_self]
    exact h.inUse
  held j hj := by
    obtain ⟨p, hp⟩ := Slot.mem_trackIds.mp hj
    rcases (hfits.entry options).mp hp with ⟨-, -, rfl⟩ | hold
    · obtain ⟨t, hactive, -, hheld, -, -, -, -, -, hread⟩ :=
        track_startTrack e slot sequence options j position
      rw [hread, if_pos ⟨hfits.stream, rfl, hfits.lt⟩, Track.grip, hactive, hheld, hhandled]
    · rw [track_startTrack_of_ne e slot sequence options position (hfits.ne_of_entry hplaced hold)]
      exact h.held j (Slot.mem_trackIds.mpr ⟨p, hold⟩)

/-- A handle that is given holds its slot. -/
theorem PoolsAgree.holds_startSequence (h : e.PoolsAgree) {options : StartOptions}
    (hhandled : options.handled = true)
    (hstart : (e.startSequence sequence options).1 = .ok slot) :
    (e.startSequence sequence options).2.Holds slot sequence
      ((e.startSequence sequence options).2.slot slot).tracks := by
  rcases startSequence_eq e sequence options with
    ⟨⟨flaw, hflaw⟩, -⟩ | ⟨streams, home, hstreams, hlt, hidle, ⟨⟨flaw, hflaw⟩, -⟩ |
      ⟨-, hanswer, heq⟩⟩
  · exact nomatch hflaw.symm.trans hstart
  · exact nomatch hflaw.symm.trans hstart
  · obtain rfl : home = slot := Except.ok.inj (hanswer.symm.trans hstart)
    have hopen : Gripped home sequence
        ((e.modifySlot home Slot.cleared).openSlot home sequence options) := by
      refine ⟨?_, fun i hi => ?_⟩
      · rw [slot_openSlot hlt, if_pos rfl]
        exact ⟨rfl, hhandled, rfl⟩
      · obtain ⟨p, hp⟩ := Slot.mem_trackIds.mp hi
        rw [(resets_openSlot hlt sequence options).empty] at hp
        cases hp
    have hfilled := foldl_keeps (f := fun e p => e.startTrack home sequence options p.1 p.2)
      (fun rest e' =>
        Filling home sequence options (e.freeTracks.take streams.size).length rest e' ∧
          Gripped home sequence e')
      (fun p rest e' h => by
        obtain ⟨hfilling, hgripped⟩ := h
        exact ⟨hfilling.startTrack, hgripped.startTrack hfilling.placed
          (hfilling.fits p List.mem_cons_self) hhandled⟩)
      _ _ ⟨h.openSlot hlt hidle hstreams options, hopen⟩
    rw [← heq] at hfilled
    obtain ⟨⟨hactive, hheld, hsequence⟩, htracks⟩ := hfilled.2
    exact ⟨by rw [Slot.grip, hactive, hheld, hsequence], htracks⟩

/-! ## How a handle ends -/

theorem dismissed_releaseTrack (e : Engine σ) (i : Nat) :
    ((e.releaseTrack i).track i).Dismissed := by
  by_cases hi : i < e.tracks.size
  · have hunheld : (e.modifyTrack i Track.unhandled).track i = (e.track i).unhandled := by
      rw [track_unhandle, if_pos ⟨rfl, hi⟩]
    have hsize : i < (e.modifyTrack i Track.unhandled).tracks.size := by
      simpa [modifyTrack] using hi
    have hretired : (((e.modifyTrack i Track.unhandled).retireTrack i).track i).Dismissed := by
      left
      rw [track_retireTrack, if_pos ⟨rfl, hsize⟩, hunheld]
      exact Bool.and_false _
    unfold releaseTrack
    rw [turnOff_eq]
    split
    · exact hretired
    · split
      · exact hretired
      · next hvoices =>
        right
        rw [track_awaitVoices, track_releaseVoices, tracks_size_releaseVoices,
          if_pos ⟨rfl, hsize⟩]
        exact ⟨rfl, rfl, Nat.pos_of_ne_zero hvoices⟩
  · left
    refine Bool.eq_false_iff.mpr fun hactive => hi ?_
    have hbefore := (steps_turnOff (e.modifyTrack i Track.unhandled) i i).isActive hactive
    rw [track_unhandle, if_neg fun hp => hi hp.2] at hbefore
    exact lt_size_of_isActive hbefore

theorem dismissed_foldl : ∀ {l : List Nat} {e : Engine σ}, l.Nodup → ∀ i ∈ l,
    ((l.foldl releaseTrack e).track i).Dismissed := by
  intro l
  induction l with
  | nil => exact fun _ _ hi => absurd hi List.not_mem_nil
  | cons j l ih =>
    intro e hl i hi
    obtain ⟨hnot, hrest⟩ := List.nodup_cons.mp hl
    rcases List.mem_cons.mp hi with rfl | hi
    · -- the tracks behind it leave it as it is
      have hstays := foldl_keeps (f := releaseTrack)
        (fun l (e' : Engine σ) => i ∉ l ∧ (e'.track i).Dismissed)
        (fun j l e' h => by
          obtain ⟨hmem, hdismissed⟩ := h
          rw [List.mem_cons, not_or] at hmem
          refine ⟨hmem.2, ?_⟩
          rwa [track_releaseTrack_of_ne e' (Ne.symm hmem.1)])
        l (e.releaseTrack i) ⟨hnot, dismissed_releaseTrack e i⟩
      exact hstays.2
    · exact ih hrest i hi

/-- No sequence that starts takes the slot or a track of it. -/
def Reserves (e : Engine σ) (slot : Nat) : Prop :=
  ∀ other options home, (e.startSequence other options).1 = .ok home → home ≠ slot ∧
    ∀ i ∈ ((e.startSequence other options).2.slot home).trackIds, i ∉ (e.slot slot).trackIds

/-- The release of the handle of the slot dismisses all its tracks. -/
def Dismisses (e : Engine σ) (slot : Nat) : Prop :=
  ∀ i ∈ (e.slot slot).trackIds, ((e.releaseHandle slot).track i).Dismissed

theorem Holds.reserves (h : e.Holds slot sequence tracks) (hagree : e.PoolsAgree) :
    e.Reserves slot := by
  intro other options home hstart
  have hkept := h.startSequence hagree other options
  have hstarted := hagree.startSequence other options
  have hne : home ≠ slot := by
    rcases startSequence_eq e other options with
      ⟨⟨flaw, hflaw⟩, -⟩ | ⟨-, home', -, -, hidle, ⟨⟨flaw, hflaw⟩, -⟩ | ⟨-, hanswer, -⟩⟩
    · exact nomatch hflaw.symm.trans hstart
    · exact nomatch hflaw.symm.trans hstart
    · obtain rfl : home' = home := Except.ok.inj (hanswer.symm.trans hstart)
      rintro rfl
      exact Bool.false_ne_true (hidle.symm.trans h.isActive)
  refine ⟨hne, fun i hi hmem => hne ?_⟩
  -- a track is at home on one slot only
  rw [Slot.trackIds, h.tracks_eq, ← hkept.tracks_eq] at hmem
  exact (hstarted.of_mem hi).2.symm.trans (hstarted.of_mem hmem).2

theorem Holds.dismisses (h : e.Holds slot sequence tracks) (hagree : e.PoolsAgree)
    (hwide : e.module.widestSequence ≤ maxTracksPerSequence) : e.Dismisses slot := by
  intro i hi
  have hheld : (e.slot slot).handled = true := congrArg (·.2.1) h.grip
  have hfree := (samePlaces_releaseSlot e slot).agree hagree
  have hlist : ((e.modifySlot slot fun s => { s with handled := false }).slot slot).trackList =
      (e.slot slot).trackIds := by
    rw [slot_modifySlot, if_pos ⟨rfl, lt_size_of_active h.isActive⟩]
    exact hagree.trackList_eq hwide h.isActive
  have hreleased : e.releaseHandle slot =
      ((e.modifySlot slot fun s => { s with handled := false }).slot slot).trackList.foldl
        Engine.releaseTrack (e.modifySlot slot fun s => { s with handled := false }) := by
    unfold Engine.releaseHandle
    rw [if_pos (by rw [h.isActive, hheld]; rfl)]
    rfl
  rw [hreleased]
  refine dismissed_foldl (hfree.nodup_trackList slot) i ?_
  rwa [hlist]

end Calls

end Engine

section Runs

variable {σ : Type} [SoundChip σ]

open Engine

/-- A handle that is good stays good as long as it is not released. -/
theorem Engine.Holds.throughout {s : Session σ} {slot sequence : Nat}
    {tracks : Array (Option Nat)} (h : s.engine.Holds slot sequence tracks)
    {module : SoundModule} (hwide : module.widestSequence ≤ maxTracksPerSequence)
    (horder : s.engine.InOrder) (hmodule : s.engine.Seated ∧ s.engine.module = module)
    {calls : List (Call σ)}
    (hcalls : s.Allows (fun s call => s.Careful call ∧ call.releases slot = false) calls) :
    s.Throughout (fun s => s.engine.Holds slot sequence tracks ∧ s.engine.Reserves slot ∧
      s.engine.Dismisses slot) calls := by
  have hkept := hcalls.throughout
    (fun s => s.engine.InOrder ∧ s.engine.Holds slot sequence tracks ∧
      s.engine.Seated ∧ s.engine.module = module)
    (fun s call h hcall => by
      obtain ⟨horder, hholds, hmodule⟩ := h
      exact ⟨inOrder_perform s call horder hcall.1, hholds.perform horder hcall.1 hcall.2,
        module_perform s call hmodule⟩)
    ⟨horder, h, hmodule⟩
  refine hkept.imp fun s h => ?_
  obtain ⟨horder, hholds, -, hmodule⟩ := h
  exact ⟨hholds, hholds.reserves horder.agree, hholds.dismisses horder.agree (by rwa [hmodule])⟩

/-- From the call that gives a handle to the one that releases it, in every careful run, the
slot stays in use for its sequence with the same tracks, all of them in the pool and held;
no sequence that starts takes the slot or one of its tracks; and the release of the handle
would dismiss every one of them. -/
theorem handle_throughout {module : SoundModule} {chip : σ} {e : Engine σ}
    (hmake : Engine.make module chip = .ok e) {before after : List (Call σ)}
    (hbefore : Session.Allows Session.Careful { engine := e } before)
    {sequence slot : Nat} {options : StartOptions} (hhandled : options.handled = true)
    (hstart : ((Session.run { engine := e } before).engine.startSequence sequence options).1 =
      .ok slot)
    (hafter : Session.Allows (fun s call => s.Careful call ∧ call.releases slot = false)
      (Session.run { engine := e } (before ++ [.start sequence options])) after) :
    ∃ tracks, Session.Throughout (fun s => s.engine.Holds slot sequence tracks ∧
        s.engine.Reserves slot ∧ s.engine.Dismisses slot)
      (Session.run { engine := e } (before ++ [.start sequence options])) after := by
  have hrun : Session.run { engine := e } (before ++ [.start sequence options]) =
      (Session.run { engine := e } before).perform (.start sequence options) := by
    simp [Session.run]
  have horder := (hbefore.throughout (fun s => s.engine.InOrder)
    (fun s call h hcareful => inOrder_perform s call h hcareful) (inOrder_make hmake)).last
  have hwide : e.module.widestSequence ≤ maxTracksPerSequence :=
    (accepted_make hmake).1.widestSequence_le
  rw [hrun] at hafter ⊢
  exact ⟨_, (horder.agree.holds_startSequence hhandled hstart).throughout hwide
    (inOrder_perform _ (.start sequence options) horder ⟨nofun, nofun⟩)
    (module_perform _ (.start sequence options) (module_run hmake before)) hafter⟩

end Runs

/-- A module of one short sequence, for an engine that can play it three times at once with
one voice. -/
def relay : SoundModule :=
  { solo [(0, .noteOn 60 100), (2, .trackEnd)] with
    limits := { sequences := 3, tracks := 3, voices := 1 } }

/-- The sequence that a handle holds takes the voice from one that plays, comes to its end,
and waits for the voice; a third sequence takes it, and then everything is stopped. -/
def encore : List (Call RecorderChip) :=
  [.restart 0, .tick, .tick, .start 0 {}, .tick, .stopAll, .pauseAll true [], .tick]

theorem handle_throughout_encore : ∃ e,
    Engine.make relay ({ instantRelease := false } : RecorderChip) = .ok e ∧
      ((Session.run { engine := e } [.start 0 {}, .tick]).engine.startSequence 0
        { handled := true }).1 = .ok 1 ∧
      ((Session.run { engine := e } ([.start 0 {}, .tick] ++ [.start 0 { handled := true }] ++
        encore)).engine.track 1).flags =
          { active := true, stopped := true, off := true, handled := true } ∧
      ∃ tracks, Session.Throughout (fun s => s.engine.Holds 1 0 tracks ∧
          s.engine.Reserves 1 ∧ s.engine.Dismisses 1)
        (Session.run { engine := e } ([.start 0 {}, .tick] ++ [.start 0 { handled := true }]))
        encore := by
  obtain ⟨e, hmake, hstart, hended, hbefore, hafter⟩ : ∃ e,
      Engine.make relay ({ instantRelease := false } : RecorderChip) = .ok e ∧
        ((Session.run { engine := e } [.start 0 {}, .tick]).engine.startSequence 0
          { handled := true }).1 = .ok 1 ∧
        ((Session.run { engine := e } ([.start 0 {}, .tick] ++ [.start 0 { handled := true }] ++
          encore)).engine.track 1).flags =
            { active := true, stopped := true, off := true, handled := true } ∧
        Session.Allows Session.Careful { engine := e } [.start 0 {}, .tick] ∧
        Session.Allows (fun s call => s.Careful call ∧ call.releases 1 = false)
          (Session.run { engine := e } ([.start 0 {}, .tick] ++ [.start 0 { handled := true }]))
          encore :=
    Engine.exists_make (by decide +kernel)
  exact ⟨e, hmake, hstart, hended, handle_throughout hmake hbefore rfl hstart hafter⟩

end SoundSequencer
