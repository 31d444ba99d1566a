/-
SoundSequencer.Proofs.Roster — calls for everything, track by track.

* `Track.stance` is a track but for its pause and its count of voices.
  `Engine.SameStance` says that two engines differ in pauses, voices and what belongs to
  no pool at most; pausing, muting, resuming and striking keep it.
* `Engine.roster` are the tracks of the slots in use in the order in which calls for
  everything reach them; `Rostered` says that each track has its turn once.
* `roster_keeps` is the rule for such a call: what one track's turn keeps holds after
  the call, once it holds with the whole roster still to come.
-/
import Mathlib.Data.List.Perm.Basic
import SoundSequencer.Proofs.Score
import SoundSequencer.Proofs.Seats

namespace SoundSequencer

/-- The track but for its pause and its count of voices. -/
def Track.stance (t : Track) : Track :=
  { t with flags := { t.flags with stopped := false }, voicesActive := 0 }

namespace Engine

variable {σ : Type}

/-! ## What stays -/

/-- Every track keeps its place and all but its pause and its voices. -/
structure SameStance (e e' : Engine σ) : Prop extends SameLinks e e' where
  stance : ∀ i, (e'.track i).stance = (e.track i).stance

namespace SameStance

variable {e e' : Engine σ}

theorem refl (e : Engine σ) : SameStance e e := ⟨SameLinks.refl e, fun _ => rfl⟩

theorem trans {e'' : Engine σ} (h : SameStance e e') (h' : SameStance e' e'') :
    SameStance e e'' :=
  ⟨h.toSameLinks.trans h'.toSameLinks, fun i => (h'.stance i).trans (h.stance i)⟩

/-- What the stance decides is the same. -/
theorem read {α : Type} (h : SameStance e e') (f : Track → α) (hf : ∀ t, f t.stance = f t)
    (i : Nat) : f (e'.track i) = f (e.track i) := by
  rw [← hf, h.stance, hf]

theorem notOff (h : SameStance e e') (hoff : ∀ i, (e.track i).NotOff) (i : Nat) :
    (e'.track i).NotOff := by
  intro hactive
  have hflag := h.read (fun t => t.flags.off) (fun _ => rfl) i
  exact hflag.trans (hoff i (h.isActive i ▸ hactive))

end SameStance

theorem sameStance_of_pools {e e' : Engine σ} (hpools : e'.pools = e.pools) :
    SameStance e e' where
  toSameLinks := sameLinks_of_pools hpools
  stance i := by
    have htracks : e'.tracks = e.tracks := congrArg (fun p => p.2.1) hpools
    rw [track, track, htracks]

theorem sameStance_pauseTrack (e : Engine σ) (i : Nat) : SameStance e (e.pauseTrack i) where
  toSameLinks := sameLinks_pauseTrack e i
  stance j := by
    rw [track_pauseTrack]
    split <;> rfl

theorem sameStance_resumeTrack (e : Engine σ) (i : Nat) : SameStance e (e.resumeTrack i) where
  toSameLinks := sameLinks_resumeTrack e i
  stance j := by
    rw [track_resumeTrack]
    split <;> rfl

theorem track_muteTrack (e : Engine σ) (i j : Nat) : (e.muteTrack i).track j = e.track j := by
  unfold muteTrack
  split
  · rfl
  · exact track_releaseVoices e i j

theorem sameStance_muteTrack (e : Engine σ) (i : Nat) : SameStance e (e.muteTrack i) where
  toSameLinks := (samePlaces_muteTrack e i).toSameLinks
  stance j := by rw [track_muteTrack]

theorem sameStance_dropVoice (e : Engine σ) (v : Nat) : SameStance e (e.dropVoice v) where
  toSameLinks := (samePlaces_dropVoice e v).toSameLinks
  stance j := by
    rw [track_dropVoice]
    split <;> rfl

/-- No track waits for the voice. -/
theorem sameStance_freeVoice {e : Engine σ} (howned : e.VoicesOwned)
    (hoff : ∀ i, (e.track i).NotOff) (v : Nat) : SameStance e (e.freeVoice v) := by
  rw [freeVoice_of_notOff howned hoff]
  split
  · exact sameStance_dropVoice e v
  · exact SameStance.refl e

theorem sameStance_startVoice [SoundChip σ] (e : Engine σ) (v i : Nat) (patchVoice : UInt16)
    (note velocity : UInt8) : SameStance e (e.startVoice v i patchVoice note velocity) where
  toSameLinks := (samePlaces_startVoice e v i patchVoice note velocity).toSameLinks
  stance j := by
    rw [track_startVoice]
    split <;> rfl

theorem sameStance_flushReleases [SoundChip σ] (e : Engine σ) :
    SameStance e e.flushReleases where
  toSameLinks :=
    have hplaces : SamePlaces e e.flushReleases := samePlaces_of_pools rfl rfl rfl rfl rfl
    hplaces.toSameLinks
  stance _ := rfl

/-! ## The roster -/

/-- The tracks that a call for everything reaches on slot `s`. -/
def crew (e : Engine σ) (s : Nat) : List Nat :=
  if (e.slot s).active then (e.slot s).trackList else []

/-- The tracks of the slots in use, slot by slot. -/
def roster (e : Engine σ) : List Nat := e.slotIds.flatMap e.crew

/-- Each track that belongs to a sequence has its turn once, on its own slot. -/
structure Rostered (e : Engine σ) : Prop where
  home : ∀ s i, i ∈ e.crew s → (e.track i).slot = s
  nodup : e.roster.Nodup
  mem : ∀ i, i ∈ e.roster ↔ (e.track i).isActive = true

theorem Placed.home_of_mem_crew {e : Engine σ} (h : e.Placed) {s i : Nat} (hi : i ∈ e.crew s) :
    (e.track i).isActive = true ∧ (e.track i).slot = s := by
  unfold crew at hi
  split at hi
  · next hs => exact h.of_lists (lists_of_mem_trackList hs hi)
  · cases hi

theorem Placed.rostered {e : Engine σ} (h : e.Placed)
    (hwide : e.module.widestSequence ≤ maxTracksPerSequence) : e.Rostered where
  home s i hi := (h.home_of_mem_crew hi).2
  nodup := by
    unfold roster
    rw [List.Nodup, List.pairwise_flatMap]
    refine ⟨fun s _ => ?_, List.nodup_range.imp fun {s} {s'} hne i hi j hj hij => ?_⟩
    · unfold crew
      split
      · exact h.nodup_trackList s
      · exact List.nodup_nil
    · subst hij
      exact hne ((h.home_of_mem_crew hi).2.symm.trans (h.home_of_mem_crew hj).2)
  mem i := by
    constructor
    · intro hi
      obtain ⟨s, -, hs⟩ := List.mem_flatMap.mp hi
      exact (h.home_of_mem_crew hs).1
    · intro hi
      obtain ⟨hactive, hentry, -⟩ := h.home i hi
      have hslot : (e.track i).slot ∈ e.slotIds := List.mem_range.mpr (lt_size_of_active hactive)
      refine List.mem_flatMap.mpr ⟨(e.track i).slot, hslot, ?_⟩
      rw [crew, if_pos hactive, h.trackList_eq hwide hactive]
      exact Slot.mem_trackIds.mpr ⟨_, hentry⟩

theorem SameLinks.crew {e e' : Engine σ} (h : SameLinks e e') (s : Nat) :
    e'.crew s = e.crew s := by
  rw [Engine.crew, Engine.crew, h.active, Slot.trackList, Slot.trackList, Slot.trackIds,
    Slot.trackIds, h.tracks]

theorem SameLinks.rostered {e e' : Engine σ} (h : SameLinks e e') (he : e.Rostered) :
    e'.Rostered := by
  have hroster : e'.roster = e.roster := by
    rw [roster, roster, slotIds, slotIds, h.slots_size, funext h.crew]
  refine ⟨fun s i hi => ?_, hroster ▸ he.nodup, fun i => ?_⟩
  · rw [h.home]
    exact he.home s i (h.crew s ▸ hi)
  · rw [hroster, h.isActive]
    exact he.mem i

/-! ## Calls for everything -/

variable {β : Type} {g : β → Engine σ} {f : Slot → β → Nat → β} {e : Engine σ}

/-- The turn of one slot: each of its tracks has its own. -/
theorem crew_keeps {good : List Nat → β → Prop} {slot : Slot} {s : Nat}
    (hstep : ∀ i l b, i ∈ e.crew s → good (i :: l) b → good l (f slot b i)) (rest : List Nat) :
    ∀ (l : List Nat) (b : β), (∀ i ∈ l, i ∈ e.crew s) → good (l ++ rest) b →
      good rest (l.foldl (f slot) b) := by
  intro l
  induction l with
  | nil => exact fun b _ hb => hb
  | cons i l ih =>
    intro b hmem hb
    exact ih _ (fun j hj => hmem j (List.mem_cons_of_mem i hj))
      (hstep i _ b (hmem i List.mem_cons_self) hb)

/-- A call for everything keeps what the turn of each track keeps; `l` are the tracks
still to come. -/
theorem roster_keeps (good : List Nat → β → Prop)
    (hlinks : ∀ l b, good l b → SameLinks e (g b))
    (hstep : ∀ slot s i l b, slot.desk = (e.slot s).desk → i ∈ e.crew s → good (i :: l) b →
      good l (f slot b i))
    {b : β} (hb : good e.roster b) :
    good [] (e.slotIds.foldl (fun b s =>
      if ((g b).slot s).active then
        ((g b).slot s).trackList.foldl (f ((g b).slot s)) b
      else b) b) := by
  refine foldl_keeps (fun slots b => good (slots.flatMap e.crew) b)
    (fun s slots b hgood => ?_) e.slotIds b hb
  have hsame := hlinks _ b hgood
  rw [List.flatMap_cons] at hgood
  have hcrew : e.crew s =
      if ((g b).slot s).active then ((g b).slot s).trackList else [] :=
    (hsame.crew s).symm
  split
  · next hs =>
    rw [if_pos hs] at hcrew
    rw [hcrew] at hgood
    exact crew_keeps (fun i l b hi => hstep _ s i l b (hsame.desk s) hi) _ _ b
      (fun i hi => hcrew ▸ hi) hgood
  · next hs =>
    rw [hcrew, if_neg hs] at hgood
    exact hgood

end Engine

end SoundSequencer
