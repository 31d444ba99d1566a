/-
SoundSequencer.Proofs.Performance — calls and ticks as deeds and moves.

* `Call.Plain` holds of the calls that strike no note, start nothing and let
  nothing go on; `deeds_perform` says that they do nothing but deeds.
* `Engine.beforeTracks` is a tick up to the turns of the tracks, `Engine.beforeUpkeep`
  one up to the upkeep of the voices; `moves_beforeUpkeep` says that it does nothing but
  moves.
* `Lasting` holds of properties that no deed, no freed voice and no change of
  the chip can end. `Lasting.perform` and `Lasting.tick` carry them through
  plain calls and ticks.
-/
import SoundSequencer.Proofs.Moves
import SoundSequencer.Proofs.Session

namespace SoundSequencer

variable {σ : Type} [SoundChip σ]

namespace Engine

/-! ## Deeds one after the other -/

/-- Deeds one after the other. -/
abbrev Deeds : Engine σ → Engine σ → Prop := Relation.ReflTransGen Deed

theorem Deed.deeds {e e' : Engine σ} (h : Deed e e') : Deeds e e' := .single h

theorem Tuned.deeds {e e' : Engine σ} (h : Tuned e e') : Deeds e e' := .single (.tuned h)

/-- What every deed keeps, any number of deeds keeps. -/
theorem Deeds.keeps {good : Engine σ → Prop} (hdeed : ∀ e e', Deed e e' → good e → good e')
    {e e' : Engine σ} (h : Deeds e e') (he : good e) : good e' := by
  induction h with
  | refl => exact he
  | tail _ hlast ih => exact hdeed _ _ hlast ih

/-! ## The tracks of a slot -/

omit [SoundChip σ] in
/-- A change of a slot that keeps its use and its tracks keeps what is listed. -/
theorem lists_modifySlot (e : Engine σ) (home : Nat) {f : Slot → Slot}
    (hactive : ∀ s, (f s).active = s.active) (htracks : ∀ s, (f s).tracks = s.tracks)
    (s i : Nat) : (e.modifySlot home f).Lists s i ↔ e.Lists s i := by
  unfold Lists
  rw [slot_modifySlot]
  split
  · simp only [hactive, Slot.trackIds, htracks]
  · rfl

omit [SoundChip σ] in
theorem lists_pauseTrack (e : Engine σ) (j s i : Nat) :
    (e.pauseTrack j).Lists s i ↔ e.Lists s i := by
  unfold pauseTrack
  split
  · rfl
  · exact lists_modifySlot (f := Slot.stopped) (e.modifyTrack j _) _ (fun _ => rfl)
      (fun _ => rfl) s i

omit [SoundChip σ] in
theorem lists_resumeTrack (e : Engine σ) (j s i : Nat) :
    (e.resumeTrack j).Lists s i ↔ e.Lists s i := by
  unfold resumeTrack
  split
  · exact lists_modifySlot (f := Slot.started) (e.modifyTrack j _) _ (fun _ => rfl)
      (fun _ => rfl) s i
  · rfl

omit [SoundChip σ] in
@[simp] theorem slot_releaseVoices (e : Engine σ) (i s : Nat) :
    (e.releaseVoices i).slot s = e.slot s := by
  unfold releaseVoices
  split <;> rfl

omit [SoundChip σ] in
theorem lists_muteTrack (e : Engine σ) (j s i : Nat) :
    (e.muteTrack j).Lists s i ↔ e.Lists s i := by
  unfold muteTrack
  split
  · rfl
  · simp only [Lists, slot_releaseVoices]

omit [SoundChip σ] in
theorem lists_of_mem_trackList {e : Engine σ} {s i : Nat} (hs : (e.slot s).active = true)
    (hi : i ∈ (e.slot s).trackList) : e.Lists s i :=
  ⟨hs, List.mem_of_mem_take hi⟩

/-- Work on the tracks of a slot, one after the other, that leaves them on the
slot. The work may carry more than the engine. -/
theorem deeds_foldl_lists {α : Type} (engine : α → Engine σ) {f : α → Nat → α} {s : Nat}
    (hdeeds : ∀ a i, (engine a).Lists s i → Deeds (engine a) (engine (f a i)))
    (hlists : ∀ a i j, (engine (f a i)).Lists s j ↔ (engine a).Lists s j) :
    ∀ (l : List Nat) (a : α), (∀ i ∈ l, (engine a).Lists s i) →
      Deeds (engine a) (engine (l.foldl f a))
  | [], _, _ => .refl
  | i :: l, a, h => by
    refine (hdeeds a i (h i List.mem_cons_self)).trans ?_
    refine deeds_foldl_lists engine hdeeds hlists l (f a i) fun j hj => ?_
    exact (hlists a i j).mpr (h j (List.mem_cons_of_mem i hj))

/-- What is done to every track of the slots that satisfy `q`, done slot by
slot. -/
theorem deeds_forTracksWhere (e : Engine σ) (q : Slot → Bool) {f : Engine σ → Nat → Engine σ}
    (hslot : ∀ e s, (e.slot s).active = true → Deeds e (e.forTracksOf s f)) :
    Deeds e (e.forTracksWhere q f) := by
  refine foldl_relates (r := Deeds) (fun _ => .refl) (fun _ _ _ => .trans) (fun e s => ?_) _ e
  split
  · next h =>
    rw [Bool.and_eq_true] at h
    exact hslot e s h.1
  · exact .refl

/-! ## Plain calls -/

theorem deeds_endWhere (e : Engine σ) (q : Slot → Bool) : Deeds e (e.forTracksWhere q turnOff) :=
  deeds_forTracksWhere e q fun e s _ => (Deed.endSequence e s).deeds

theorem deeds_pause (e : Engine σ) (sequence : Nat) (mute : Bool) :
    Deeds e (e.pause sequence mute) := by
  refine deeds_forTracksWhere e _ fun e s hs => ?_
  refine deeds_foldl_lists id (fun e i hi => ?_) (fun e i j => ?_) _ e
    fun i hi => lists_of_mem_trackList hs hi
  · have hpause : Deeds e (e.pauseTrack i) := (Deed.pauseTrack hi).deeds
    dsimp only [id]
    split
    · exact hpause.tail (Deed.muteTrack _ i)
    · exact hpause
  · dsimp only [id]
    split
    · rw [lists_muteTrack, lists_pauseTrack]
    · rw [lists_pauseTrack]

theorem deeds_pauseAll (e : Engine σ) (mute : Bool) (saved : List SavedNote) :
    Deeds e (e.pauseAll mute saved).2 := by
  refine foldl_relates (r := fun p q => Deeds p.2 q.2) (fun _ => .refl) (fun _ _ _ => .trans)
    (fun p s => ?_) _ (saved, e)
  obtain ⟨saved, e⟩ := p
  dsimp only
  split
  · next hs =>
    refine deeds_foldl_lists Prod.snd (fun p i hi => ?_) (fun p i j => ?_) _ (saved, e)
      fun i hi => lists_of_mem_trackList hs hi
    · split
      · exact (Deed.muteTrack _ i).deeds.tail (.pauseTrack ((lists_muteTrack _ i s i).mpr hi))
      · exact (Deed.pauseTrack hi).deeds
    · split
      · rw [lists_pauseTrack, lists_muteTrack]
      · rw [lists_pauseTrack]
  · exact .refl

omit [SoundChip σ] in
theorem standing_override (t : Track) (attrs : PlayAttrs) :
    (t.override attrs).standing = t.standing := by
  unfold Track.override
  dsimp only
  split <;> split <;> rfl

theorem tuned_updateTrack (e : Engine σ) (i : Nat) (attrs : PlayAttrs) :
    Tuned e (e.updateTrack i attrs) := by
  unfold updateTrack
  extract_lets mask panned levelled bent
  have hpanned : Tuned e panned := by
    unfold panned
    split
    · exact tuned_modifyTrack e i rfl
    · exact .refl e
  have hlevelled : Tuned panned levelled := by
    unfold levelled
    split
    · exact tuned_driverCommand _ i _ nofun nofun
    · split
      · exact tuned_driverCommand _ i _ nofun nofun
      · exact .refl _
  have hbent : Tuned levelled bent := by
    unfold bent
    split
    · exact tuned_driverCommand _ i _ nofun nofun
    · exact .refl _
  exact (hpanned.trans (hlevelled.trans hbent)).trans
    (tuned_modifyTrack _ i (standing_override _ attrs))

theorem tuned_forTracksWhere (e : Engine σ) (q : Slot → Bool) {f : Engine σ → Nat → Engine σ}
    (hf : ∀ e i, Tuned e (f e i)) : Tuned e (e.forTracksWhere q f) := by
  refine foldl_relates .refl (fun _ _ _ => .trans) (fun e s => ?_) _ e
  split
  · exact tuned_forTracksOf e s hf
  · exact .refl e

theorem tuned_updateTagged (e : Engine σ) (tag : UInt32) (attrs : PlayAttrs) :
    Tuned e (e.updateTagged tag attrs) := by
  unfold updateTagged
  split
  · exact .refl e
  · exact tuned_forTracksWhere e _ fun e i => tuned_updateTrack e i attrs

theorem tuned_setVolumeOf (e : Engine σ) (kind : MasterKind) (volume : UInt8) :
    Tuned e (e.setVolumeOf kind volume) := by
  cases kind with
  | effects =>
    exact ⟨rfl, rfl, rfl, rfl, .refl _, rfl, rfl, fun _ => rfl, fun _ => rfl, rfl, rfl⟩
  | music =>
    have hset : Tuned e { e with musicVolume := volume } :=
      ⟨rfl, rfl, rfl, rfl, .refl _, rfl, rfl, fun _ => rfl, fun _ => rfl, rfl, rfl⟩
    refine hset.trans (foldl_relates .refl (fun _ _ _ => .trans) (fun e i => ?_) _ _)
    dsimp only
    split
    · exact tuned_driverCommand e i _ nofun nofun
    · exact .refl e

/-- All that says who plays what, and what is still to be keyed off. -/
def pools (e : Engine σ) :=
  (e.module, e.tracks, e.slots, e.voices, e.toRelease, e.toMute, e.tracksActive, e.slotsActive)

/-- Clock, fades, listeners, marks and general settings tune an engine. -/
theorem tuned_of_pools {e e' : Engine σ} (hpools : e'.pools = e.pools)
    (hchip : Unkeyed e.chip e'.chip) : Tuned e e' := by
  simp only [pools, Prod.mk.injEq] at hpools
  obtain ⟨hmodule, htracks, hslots, hvoices, hrelease, hmute, hactive, hslotsActive⟩ := hpools
  exact {
    module := hmodule
    voices := hvoices
    toRelease := hrelease
    toMute := hmute
    chip := hchip
    tracks_size := by rw [htracks]
    slots_size := by rw [hslots]
    track := fun i => by unfold Engine.track; rw [htracks]
    slot := fun s => by unfold Engine.slot; rw [hslots]
    tracksActive := hactive
    slotsActive := hslotsActive }

end Engine

/-- Whether a call strikes no note, starts nothing, lets nothing go on and leaves
the chip to the engine. -/
def Call.Plain : Call σ → Prop
  | .tick | .start .. | .releaseHandle _ | .restart _ | .restartAll _ | .onChip _ => False
  | _ => True

open Engine in
/-- A plain call does nothing but deeds. -/
theorem deeds_perform (s : Session σ) {call : Call σ} (h : call.Plain) :
    Deeds s.engine (s.perform call).engine := by
  cases call with
  | tick => exact h.elim
  | start => exact h.elim
  | releaseHandle => exact h.elim
  | restart => exact h.elim
  | restartAll => exact h.elim
  | onChip => exact h.elim
  | stop sequence => exact deeds_endWhere s.engine (·.sequence == sequence)
  | stopAll => exact deeds_endWhere s.engine fun _ => true
  | stopTagged tag => exact deeds_endWhere s.engine (·.tag == tag)
  | pause sequence mute => exact deeds_pause s.engine sequence mute
  | pauseAll mute saved => exact deeds_pauseAll s.engine mute saved
  | updateTagged tag attrs => exact (tuned_updateTagged s.engine tag attrs).deeds
  | setVolumeOf kind volume => exact (tuned_setVolumeOf s.engine kind volume).deeds
  | setPanMode => exact .single (.tuned (tuned_of_pools rfl (.refl _)))
  | setMuteRelease => exact .single (.tuned (tuned_of_pools rfl (.refl _)))
  | setMasterVolume volume =>
    exact .single (.tuned (tuned_of_pools rfl (.masterVolume volume (.refl _))))
  | startMasterFade => exact .single (.tuned (tuned_of_pools rfl (.refl _)))
  | setCdVolume volume =>
    exact .single (.tuned (tuned_of_pools rfl (.cdVolume volume (.refl _))))
  | startCdFade => exact .single (.tuned (tuned_of_pools rfl (.refl _)))
  | upload address data =>
    have hchip := ((Unkeyed.refl s.engine.chip).startTransfer address |>.writeTransfer data
      |>.transferComplete true)
    exact .single (.tuned (tuned_of_pools rfl hchip))
  | listen kind =>
    unfold Session.perform Engine.listen
    dsimp only
    cases s.engine.listeners.findIdx? Option.isNone with
    | none => exact .refl
    | some place => exact .single (.tuned (tuned_of_pools rfl (.refl _)))
  | unlisten => exact .single (.tuned (tuned_of_pools rfl (.refl _)))
  | takeMarks => exact .single (.tuned (tuned_of_pools rfl (.refl _)))

namespace Engine

/-! ## Ticks -/

theorem tuned_fadeMaster (e : Engine σ) : Tuned e e.fadeMaster := by
  unfold fadeMaster
  split
  · exact .refl e
  · exact tuned_of_pools rfl (.masterVolume _ (.refl _))

theorem tuned_fadeCd (e : Engine σ) : Tuned e e.fadeCd := by
  unfold fadeCd
  split
  · exact .refl e
  · exact tuned_of_pools rfl (.cdVolume _ (.refl _))

/-- A tick up to the turn of the first track. -/
def beforeTracks (e : Engine σ) : Engine σ :=
  let e := { e with ticks := e.ticks + 1 }
  let e := e.fadeMaster.fadeCd
  { e with clock := e.clock.advance }

theorem pools_beforeTracks (e : Engine σ) : e.beforeTracks.pools = e.pools := by
  have hmaster : ∀ e : Engine σ, e.fadeMaster.pools = e.pools := by
    intro e
    unfold fadeMaster
    split <;> rfl
  have hcd : ∀ e : Engine σ, e.fadeCd.pools = e.pools := by
    intro e
    unfold fadeCd
    split <;> rfl
  have htime : ∀ e : Engine σ, { e with clock := e.clock.advance }.pools = e.pools := by
    simp only [pools, implies_true]
  have hcount : ∀ e : Engine σ, { e with ticks := e.ticks + 1 }.pools = e.pools := by
    simp only [pools, implies_true]
  unfold beforeTracks
  dsimp only
  rw [htime, hcd, hmaster, hcount]

theorem tuned_beforeTracks (e : Engine σ) : Tuned e e.beforeTracks := by
  have hcount : ∀ e : Engine σ, Tuned e { e with ticks := e.ticks + 1 } :=
    fun e => tuned_of_pools rfl (.refl _)
  have htime : ∀ e : Engine σ, Tuned e { e with clock := e.clock.advance } :=
    fun e => tuned_of_pools (by simp only [pools]) (.refl _)
  unfold beforeTracks
  exact (hcount e).trans ((tuned_fadeMaster _).trans ((tuned_fadeCd _).trans (htime _)))

/-- A tick up to the upkeep of the voices. -/
def beforeUpkeep (e : Engine σ) : Engine σ :=
  let e := { e with ticks := e.ticks + 1 }
  let e := e.fadeMaster.fadeCd
  let e := { e with clock := e.clock.advance }
  if e.tracksActive = 0 then e else e.runTracks

theorem tick_eq (e : Engine σ) : e.tick = e.beforeUpkeep.serviceVoices := by
  simp only [tick, beforeUpkeep]

theorem beforeUpkeep_eq_beforeTracks (e : Engine σ) :
    e.beforeUpkeep =
      if e.beforeTracks.tracksActive = 0 then e.beforeTracks else e.beforeTracks.runTracks := by
  unfold beforeUpkeep beforeTracks
  rfl

theorem moves_beforeUpkeep (e : Engine σ) : Moves e e.beforeUpkeep := by
  have hstart := (tuned_beforeTracks e).moves
  rw [beforeUpkeep_eq_beforeTracks]
  split
  · exact hstart
  · exact hstart.trans (moves_runTracks _)

omit [SoundChip σ] in
theorem freeWhere_keeps {good : Engine σ → Prop}
    (hfree : ∀ e v, good e → good (e.freeVoice v)) (q : Engine σ → Nat → Bool) :
    ∀ (l : List Nat) {e : Engine σ}, good e →
      good (l.foldl (fun e v => if q e v then e.freeVoice v else e) e)
  | [], _, he => he
  | v :: l, e, he => by
    refine freeWhere_keeps hfree q l ?_
    dsimp only
    split
    · exact hfree e v he
    · exact he

/-- The upkeep of the voices frees some of them and asks something of the chip. -/
theorem serviceVoices_keeps {good : Engine σ → Prop}
    (hfree : ∀ e v, good e → good (e.freeVoice v))
    (hsound : ∀ e chip toRelease toMute, good e → good { e with chip, toRelease, toMute })
    {e : Engine σ} (he : good e) : good e.serviceVoices := by
  have hexpired : good e.freeExpired := freeWhere_keeps hfree _ _ he
  have hflushed : good e.freeExpired.flushReleases := hsound _ _ _ _ hexpired
  exact freeWhere_keeps hfree (fun e v => _ = KeyStatus.off && (e.voice v).active) _
    (hsound _ _ _ _ hflushed)

/-! ## Properties that last -/

/-- The property outlasts every deed, every voice that is freed, and every change
of the chip and of the releases that it is asked for. -/
structure Lasting (good : Engine σ → Prop) : Prop where
  deed : ∀ e e', Deed e e' → good e → good e'
  freeVoice : ∀ e v, good e → good (e.freeVoice v)
  sound : ∀ e chip toRelease toMute, good e → good { e with chip, toRelease, toMute }

namespace Lasting

variable {good : Engine σ → Prop}

theorem and {fine : Engine σ → Prop} (h : Lasting good) (h' : Lasting fine) :
    Lasting fun e => good e ∧ fine e where
  deed e e' hdeed he := ⟨h.deed e e' hdeed he.1, h'.deed e e' hdeed he.2⟩
  freeVoice e v he := ⟨h.freeVoice e v he.1, h'.freeVoice e v he.2⟩
  sound e chip release mute he := ⟨h.sound e chip release mute he.1,
    h'.sound e chip release mute he.2⟩

/-- A plain call or one on the chip ends no lasting property. -/
theorem perform (h : Lasting good) {s : Session σ} {call : Call σ}
    (hcall : call.Plain ∨ ∃ f, call = .onChip f) (hs : good s.engine) :
    good (s.perform call).engine := by
  rcases hcall with hplain | ⟨f, rfl⟩
  · exact (deeds_perform s hplain).keeps h.deed hs
  · exact h.sound s.engine _ _ _ hs

theorem serviceVoices (h : Lasting good) {e : Engine σ} (he : good e) :
    good e.serviceVoices := serviceVoices_keeps h.freeVoice h.sound he

/-- A tick keeps what lasts and outlasts every key that a running track plays. -/
theorem tick (h : Lasting good)
    (hnoteOn : ∀ (e : Engine σ) (i : Nat) (key velocity : UInt8), (e.track i).isRunning = true →
      (e.track i).driver = .voices → good e → good (e.noteOn i key velocity))
    {e : Engine σ} (he : good e) : good e.tick := by
  rw [tick_eq]
  refine h.serviceVoices ((moves_beforeUpkeep e).keeps (fun e e' hmove hgood => ?_) he)
  cases hmove with
  | deed hdeed => exact h.deed e e' hdeed hgood
  | noteOn key velocity hrun hdriver => exact hnoteOn e _ key velocity hrun hdriver hgood

end Lasting

/-! ## The other calls -/

omit [SoundChip σ] in
/-- Work on the tracks that a slot lists, of which each stays listed until its
turn comes, as far as that matters. -/
theorem forTracksOf_keeps {good : Engine σ → Prop} (listed : Engine σ → Nat → Prop) {s : Nat}
    {f : Engine σ → Nat → Engine σ} (hlisted : ∀ e i, e.Lists s i → listed e i)
    (hf : ∀ e i, listed e i → good e → good (f e i))
    (hstays : ∀ e i j, listed e i → good e → listed e j → listed (f e i) j)
    {e : Engine σ} (hs : (e.slot s).active = true) (he : good e) : good (e.forTracksOf s f) := by
  have hwork := foldl_keeps (f := f) (fun l e => good e ∧ ∀ i ∈ l, listed e i)
    (fun i l e h => by
      obtain ⟨hgood, hall⟩ := h
      have hi := hall i List.mem_cons_self
      refine ⟨hf e i hi hgood, fun j hj => ?_⟩
      exact hstays e i j hi hgood (hall j (List.mem_cons_of_mem i hj)))
    (e.slot s).trackList e
    ⟨he, fun i hi => hlisted e i (lists_of_mem_trackList hs hi)⟩
  exact hwork.1

omit [SoundChip σ] in
/-- The same for every slot that satisfies `q`. -/
theorem forTracksWhere_keeps {good : Engine σ → Prop} {q : Slot → Bool}
    {f : Engine σ → Nat → Engine σ}
    (hslot : ∀ e s, (e.slot s).active = true → good e → good (e.forTracksOf s f))
    {e : Engine σ} (he : good e) : good (e.forTracksWhere q f) := by
  refine foldl_keeps (fun _ e => good e) (fun s _ e he => ?_) _ e he
  split
  · next h =>
    rw [Bool.and_eq_true] at h
    exact hslot e s h.1 he
  · exact he

omit [SoundChip σ] in
theorem restart_keeps (good : Engine σ → Prop)
    (hresume : ∀ e s i, e.Lists s i → good e → good (e.resumeTrack i)) (sequence : Nat)
    {e : Engine σ} (he : good e) : good (e.restart sequence) :=
  forTracksWhere_keeps (fun _ s hs he => forTracksOf_keeps (fun e i => e.Lists s i)
    (fun _ _ h => h) (fun e i hi he => hresume e s i hi he)
    (fun e i j _ _ hj => (lists_resumeTrack e i s j).mpr hj) hs he) he

theorem restartAll_keeps (good : Engine σ → Prop) (saved : List SavedNote)
    (listed : Engine σ → Nat → Nat → Prop) (hlisted : ∀ e s i, e.Lists s i → listed e s i)
    (hresume : ∀ e s i, listed e s i → good e → good (e.resumeTrack i))
    (hresumed : ∀ e s i j, listed e s j → listed (e.resumeTrack i) s j)
    (hplay : ∀ e n, n ∈ saved → good e →
      good (e.playNote n.track n.patchVoice n.note n.velocity))
    (hplayed : ∀ e n s j, n ∈ saved → good e → listed e s j →
      listed (e.playNote n.track n.patchVoice n.note n.velocity) s j)
    {e : Engine σ} (he : good e) : good (e.restartAll saved) := by
  refine foldl_keeps (fun _ e => good e) (fun s _ e he => ?_) _ e he
  dsimp only
  split
  case isTrue hs =>
    -- a track goes on, and then its notes are struck
    have htrack : ∀ e' i, listed e' s i → good e' →
        good ((saved.filter fun n => n.track == i && n.sequence == (e.slot s).sequence).foldl
          (fun e n => e.playNote i n.patchVoice n.note n.velocity) (e'.resumeTrack i)) ∧
        ∀ j, listed e' s j → listed ((saved.filter fun n =>
          n.track == i && n.sequence == (e.slot s).sequence).foldl
          (fun e n => e.playNote i n.patchVoice n.note n.velocity) (e'.resumeTrack i)) s j := by
      intro e' i hi he'
      have hstrike := foldl_keeps
        (f := fun e n => e.playNote i n.patchVoice n.note n.velocity)
        (fun l e => (∀ n ∈ l, n ∈ saved ∧ n.track = i) ∧ good e ∧
          ∀ j, listed e' s j → listed e s j)
        (fun n l e h => by
          obtain ⟨hnotes, hgood, hall⟩ := h
          obtain ⟨hn, rfl⟩ := hnotes n List.mem_cons_self
          refine ⟨fun m hm => hnotes m (List.mem_cons_of_mem n hm), hplay e n hn hgood, ?_⟩
          exact fun j hj => hplayed e n s j hn hgood (hall j hj))
        (saved.filter fun n => n.track == i && n.sequence == (e.slot s).sequence)
        (e'.resumeTrack i)
        ⟨fun n hn => by
          obtain ⟨hmem, hnote⟩ := List.mem_filter.mp hn
          rw [Bool.and_eq_true, beq_iff_eq] at hnote
          exact ⟨hmem, hnote.1⟩,
        hresume e' s i hi he', fun j hj => hresumed e' s i j hj⟩
      exact hstrike.2
    exact forTracksOf_keeps (fun e i => listed e s i) (fun e i h => hlisted e s i h)
      (fun e' i hi he' => (htrack e' i hi he').1)
      (fun e' i j hi he' hj => (htrack e' i hi he').2 j hj) hs he
  case isFalse => exact he

end Engine

end SoundSequencer
