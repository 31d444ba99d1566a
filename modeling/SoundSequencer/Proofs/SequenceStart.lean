/-
SoundSequencer.Proofs.SequenceStart — how a sequence comes to its slot.

* `Engine.openSlot` puts a sequence without tracks on a slot.
  `startSequence_eq` says that a sequence that starts does so first, and then
  starts its tracks.
* `Engine.FirstFree` is the slot that it takes. `startSequence_outcome` says
  when it starts at all, and what is the matter when it does not.
* `Placed.startTrack` puts one track on a slot, and `PoolsAgree.startSequence`
  the tracks of a whole sequence.
-/
import SoundSequencer.Proofs.Places

namespace SoundSequencer

/-! ## Slots -/

namespace Slot

/-- The slot in use for a sequence. -/
def opened (s : Slot) (sequence : Nat) (options : StartOptions) : Slot :=
  { s with
    active := true
    handled := options.handled
    sequence
    tag := options.tag
    mode := if options.handled then .stopped else .playing
    volume := sequenceVolume
    pan := sequencePan }

/-- The slot with track `i` at a position, which plays unless it waits. -/
def withTrack (s : Slot) (position i : Nat) (waits : Bool) : Slot :=
  { s with
    tracks := s.tracks.setIfInBounds position (some i)
    tracksActive := s.tracksActive + 1
    tracksPlaying := if waits then s.tracksPlaying else s.tracksPlaying + 1 }

@[simp] theorem size_withTrack (s : Slot) (position i : Nat) (waits : Bool) :
    (s.withTrack position i waits).tracks.size = s.tracks.size := by
  simp [withTrack]

theorem entry_withTrack {s : Slot} {position : Nat} (h : position < s.tracks.size) (i : Nat)
    (waits : Bool) (p : Nat) :
    (s.withTrack position i waits).entry p = if p = position then some i else s.entry p := by
  by_cases hp : p = position
  · subst hp
    simp [entry, withTrack, Array.getD_eq_getD_getElem?, h]
  · rw [if_neg hp]
    simp [entry, withTrack, Array.getD_eq_getD_getElem?, Ne.symm hp]

theorem entries_withTrack {s : Slot} {position : Nat} (h : position < s.tracks.size)
    (hfree : s.entry position = none) (i : Nat) (waits : Bool) :
    (s.withTrack position i waits).entries = s.entries + 1 := by
  unfold entries
  rw [size_withTrack]
  refine countP_range_add_one h ?_ ?_ fun p hp => ?_
  · rw [hfree]
    rfl
  · rw [entry_withTrack h, if_pos rfl]
    rfl
  · rw [entry_withTrack h, if_neg hp]

theorem entries_eq_zero {s : Slot} (h : ∀ p, s.entry p = none) : s.entries = 0 := by
  rw [entries, List.countP_eq_zero]
  intro p _
  rw [h p]
  exact Bool.false_ne_true

end Slot

/-! ## Modules -/

namespace SoundModule

theorem size_le_widestSequence {m : SoundModule} {sequence : Nat} {streams : Array TrackStream}
    (h : m.sequences[sequence]? = some streams) : streams.size ≤ m.widestSequence := by
  have hwidest : ∀ (l : List (Array TrackStream)) (widest : Nat),
      widest ≤ l.foldl (fun widest tracks => max widest tracks.size) widest ∧
        ∀ tracks ∈ l, tracks.size ≤
          l.foldl (fun widest tracks => max widest tracks.size) widest := by
    intro l
    induction l with
    | nil => exact fun widest => ⟨Nat.le_refl _, nofun⟩
    | cons tracks l ih =>
      intro widest
      obtain ⟨hinit, hall⟩ := ih (max widest tracks.size)
      rw [List.foldl_cons]
      refine ⟨Nat.le_trans (Nat.le_max_left _ _) hinit, fun other hother => ?_⟩
      rcases List.mem_cons.mp hother with rfl | hmem
      · exact Nat.le_trans (Nat.le_max_right _ _) hinit
      · exact hall other hmem
  rw [widestSequence, ← Array.foldl_toList]
  exact (hwidest m.sequences.toList 0).2 streams
    (Array.mem_toList_iff.mpr (Array.mem_of_getElem? h))

theorem isSome_track? {m : SoundModule} {sequence : Nat} {streams : Array TrackStream}
    (h : m.sequences[sequence]? = some streams) {position : Nat}
    (hposition : position < streams.size) : (m.track? sequence position).isSome = true := by
  simp [track?, h, hposition]

end SoundModule

namespace Engine

variable {σ : Type}

/-! ## One track -/

theorem slot_startTrack {e : Engine σ} {sequence position : Nat}
    (h : (e.module.track? sequence position).isSome = true) (slot : Nat)
    (options : StartOptions) (i s : Nat) :
    (e.startTrack slot sequence options i position).slot s =
      if slot = s ∧ s < e.slots.size then (e.slot s).withTrack position i options.handled
      else e.slot s := by
  obtain ⟨stream, hstream⟩ := Option.isSome_iff_exists.mp h
  unfold startTrack
  rw [hstream]
  exact slot_modifySlot _ slot s _

theorem startTrack_frame {e : Engine σ} {sequence position : Nat}
    (h : (e.module.track? sequence position).isSome = true) (slot : Nat)
    (options : StartOptions) (i : Nat) :
    (e.startTrack slot sequence options i position).module = e.module ∧
      (e.startTrack slot sequence options i position).tracks.size = e.tracks.size ∧
      (e.startTrack slot sequence options i position).slots.size = e.slots.size ∧
      (e.startTrack slot sequence options i position).tracksActive = e.tracksActive + 1 ∧
      (e.startTrack slot sequence options i position).slotsActive = e.slotsActive := by
  obtain ⟨stream, hstream⟩ := Option.isSome_iff_exists.mp h
  unfold startTrack
  rw [hstream]
  exact ⟨rfl, by simp [modifyTrack, modifySlot], by simp [modifyTrack, modifySlot], rfl, rfl⟩

theorem track_startTrack_of_ne (e : Engine σ) (slot sequence : Nat) (options : StartOptions)
    (position : Nat) {i j : Nat} (hij : i ≠ j) :
    (e.startTrack slot sequence options i position).track j = e.track j := by
  obtain ⟨t, -, -, -, -, -, -, -, -, hread⟩ := track_startTrack e slot sequence options i position
  rw [hread, if_neg fun hp => hij hp.2.1]

/-- Track `i` is outside the sequences; slot `slot` plays `sequence`, which has a track
for `position`, and has none there yet. -/
structure Fits (e : Engine σ) (slot sequence i position : Nat) : Prop where
  stream : (e.module.track? sequence position).isSome = true
  active : (e.slot slot).active = true
  serves : (e.slot slot).sequence = sequence
  within : position < (e.slot slot).tracks.size
  free : (e.slot slot).entry position = none
  lt : i < e.tracks.size
  idle : (e.track i).isActive = false

namespace Fits

variable {e : Engine σ} {slot sequence i position : Nat}

theorem slot_self (h : e.Fits slot sequence i position) (options : StartOptions) :
    (e.startTrack slot sequence options i position).slot slot =
      (e.slot slot).withTrack position i options.handled := by
  rw [slot_startTrack h.stream, if_pos ⟨rfl, lt_size_of_active h.active⟩]

theorem slot_of_ne (h : e.Fits slot sequence i position) (options : StartOptions) {s : Nat}
    (hs : slot ≠ s) : (e.startTrack slot sequence options i position).slot s = e.slot s := by
  rw [slot_startTrack h.stream, if_neg fun hp => hs hp.1]

/-- Slots keep their use, their sequence and their width. -/
theorem slot_keeps (h : e.Fits slot sequence i position) (options : StartOptions) (s : Nat) :
    ((e.startTrack slot sequence options i position).slot s).active = (e.slot s).active ∧
      ((e.startTrack slot sequence options i position).slot s).sequence = (e.slot s).sequence ∧
      ((e.startTrack slot sequence options i position).slot s).tracks.size =
        (e.slot s).tracks.size := by
  rw [slot_startTrack h.stream]
  split
  · exact ⟨rfl, rfl, Slot.size_withTrack _ _ _ _⟩
  · exact ⟨rfl, rfl, rfl⟩

theorem track_self (h : e.Fits slot sequence i position) (options : StartOptions) :
    ((e.startTrack slot sequence options i position).track i).seat =
        (true, slot, sequence, position) ∧
      ((e.startTrack slot sequence options i position).track i).isStopped = options.handled := by
  obtain ⟨t, hactive, hstopped, -, -, -, hslot, hsequence, hposition, hread⟩ :=
    track_startTrack e slot sequence options i position
  rw [hread, if_pos ⟨h.stream, rfl, h.lt⟩]
  refine ⟨?_, hstopped⟩
  rw [Track.seat, hactive, hslot, hsequence, hposition]

theorem entry (h : e.Fits slot sequence i position) (options : StartOptions) {s p j : Nat} :
    ((e.startTrack slot sequence options i position).slot s).entry p = some j ↔
      (s = slot ∧ p = position ∧ j = i) ∨ (e.slot s).entry p = some j := by
  by_cases hs : slot = s
  · subst hs
    rw [h.slot_self, Slot.entry_withTrack h.within]
    by_cases hp : p = position
    · subst hp
      simp [h.free, eq_comm]
    · simp [hp]
  · rw [h.slot_of_ne options hs]
    simp [Ne.symm hs]

theorem ne_of_entry (h : e.Fits slot sequence i position) (hplaced : e.Placed) {s p j : Nat}
    (hp : (e.slot s).entry p = some j) : i ≠ j := by
  rintro rfl
  have hactive := (hplaced.entry s p i hp).2.1
  rw [h.idle] at hactive
  cases hactive

theorem playsAt_self (h : e.Fits slot sequence i position) (options : StartOptions) :
    (e.startTrack slot sequence options i position).playsAt slot position = !options.handled := by
  rw [playsAt, (h.entry options).mpr (.inl ⟨rfl, rfl, rfl⟩), Option.any_some,
    (h.track_self options).2]

theorem playsAt_of_ne (h : e.Fits slot sequence i position) (hplaced : e.Placed)
    (options : StartOptions) {s p : Nat} (hne : ¬ (slot = s ∧ position = p)) :
    (e.startTrack slot sequence options i position).playsAt s p = e.playsAt s p := by
  have hsame : ((e.startTrack slot sequence options i position).slot s).entry p =
      (e.slot s).entry p := by
    by_cases hs : slot = s
    · subst hs
      rw [h.slot_self, Slot.entry_withTrack h.within,
        if_neg fun heq => hne ⟨rfl, heq.symm⟩]
    · rw [h.slot_of_ne options hs]
  unfold playsAt
  rw [hsame]
  cases hp : (e.slot s).entry p with
  | none => rfl
  | some j =>
    rw [Option.any_some, Option.any_some,
      track_startTrack_of_ne e slot sequence options position (h.ne_of_entry hplaced hp)]

/-- The slot has a playing track more unless the track waits. -/
theorem playingOn (h : e.Fits slot sequence i position) (hplaced : e.Placed)
    (options : StartOptions) : (e.startTrack slot sequence options i position).playingOn slot =
      if options.handled then e.playingOn slot else e.playingOn slot + 1 := by
  have hother : ∀ p, p ≠ position →
      (e.startTrack slot sequence options i position).playsAt slot p = e.playsAt slot p :=
    fun p hp => h.playsAt_of_ne hplaced options fun heq => hp heq.2.symm
  have hold : e.playsAt slot position = false := by
    rw [playsAt, h.free]
    rfl
  have hnow := h.playsAt_self options
  rw [Engine.playingOn, (h.slot_keeps options slot).2.2]
  split
  · next hwaits =>
    refine countP_range_congr fun p _ => ?_
    by_cases hp : p = position
    · rw [hp, hold, hnow, hwaits]
      rfl
    · exact hother p hp
  · next hplays =>
    exact countP_range_add_one h.within hold (by rw [hnow]; simpa using hplays) hother

/-- Two tracks that fit two positions fit one after the other. -/
theorem startTrack (h : e.Fits slot sequence i position) (options : StartOptions) {j p : Nat}
    (hj : e.Fits slot sequence j p) (hij : i ≠ j) (hp : p ≠ position) :
    (e.startTrack slot sequence options i position).Fits slot sequence j p := by
  obtain ⟨hmodule, hsize, -⟩ := startTrack_frame h.stream slot options i
  obtain ⟨hactive, hsequence, hwidth⟩ := h.slot_keeps options slot
  refine ⟨by rw [hmodule]; exact hj.stream, hactive.trans hj.active, hsequence.trans hj.serves,
    by rw [hwidth]; exact hj.within, ?_, by rw [hsize]; exact hj.lt, ?_⟩
  · rw [h.slot_self, Slot.entry_withTrack h.within, if_neg hp, hj.free]
  · rw [track_startTrack_of_ne e slot sequence options position hij, hj.idle]

end Fits

/-- A track that starts where it fits leaves all links and counts right. -/
theorem Placed.startTrack {e : Engine σ} (h : e.Placed) {slot sequence i position : Nat}
    (hfits : e.Fits slot sequence i position) (options : StartOptions) :
    (e.startTrack slot sequence options i position).Placed := by
  obtain ⟨hmodule, htracksSize, hslotsSize, htracksActive, hslotsActive⟩ :=
    startTrack_frame hfits.stream slot options i
  obtain ⟨hseat, -⟩ := hfits.track_self options
  simp only [Track.seat, Prod.mk.injEq] at hseat
  obtain ⟨hactive, hslot, hsequence, hposition⟩ := hseat
  have htrack : ∀ j, i ≠ j →
      (e.startTrack slot sequence options i position).track j = e.track j :=
    fun j hij => track_startTrack_of_ne e slot sequence options position hij
  have hkeeps := hfits.slot_keeps options
  constructor
  case home =>
    intro j hj
    by_cases hij : i = j
    · subst hij
      rw [hslot, hsequence, hposition, (hkeeps slot).1, (hkeeps slot).2.1]
      exact ⟨hfits.active, (hfits.entry options).mpr (.inl ⟨rfl, rfl, rfl⟩), hfits.serves⟩
    · rw [htrack j hij] at hj ⊢
      obtain ⟨hjactive, hjentry, hjsequence⟩ := h.home j hj
      rw [(hkeeps _).1, (hkeeps _).2.1]
      exact ⟨hjactive, (hfits.entry options).mpr (.inr hjentry), hjsequence⟩
  case entry =>
    intro s p j hp
    rw [(hkeeps s).1]
    rcases (hfits.entry options).mp hp with ⟨rfl, rfl, rfl⟩ | hold
    · exact ⟨hfits.active, hactive, hslot, hposition⟩
    · rw [htrack j (hfits.ne_of_entry h hold)]
      exact h.entry s p j hold
  case entries =>
    intro s hs
    rw [(hkeeps s).1] at hs
    by_cases hs' : slot = s
    · subst hs'
      rw [hfits.slot_self, Slot.entries_withTrack hfits.within hfits.free, ← h.entries slot hs]
      rfl
    · rw [hfits.slot_of_ne options hs']
      exact h.entries s hs
  case playing =>
    intro s hs
    rw [(hkeeps s).1] at hs
    by_cases hs' : slot = s
    · subst hs'
      rw [hfits.playingOn h, hfits.slot_self, ← h.playing slot hs]
      rfl
    · rw [playingOn, (hkeeps s).2.2, hfits.slot_of_ne options hs', h.playing s hs]
      refine (countP_range_congr fun p _ => ?_).symm
      exact hfits.playsAt_of_ne h options fun heq => hs' heq.1
  case tracks =>
    rw [htracksActive, htracksSize, h.tracks]
    exact (countP_range_add_one hfits.lt hfits.idle hactive
      fun j hij => by rw [htrack j hij.symm]).symm
  case slots =>
    rw [hslotsActive, hslotsSize, h.slots]
    exact (countP_range_congr fun s _ => (hkeeps s).1).symm
  case wide =>
    intro s hs
    rw [hslotsSize] at hs
    rw [(hkeeps s).2.2, hmodule]
    exact h.wide s hs

/-! ## A whole sequence -/

/-- The engine with a slot in use for a sequence. -/
def openSlot (e : Engine σ) (slot sequence : Nat) (options : StartOptions) : Engine σ :=
  { e.modifySlot slot (·.opened sequence options) with slotsActive := e.slotsActive + 1 }

theorem modifySlot_comm (e : Engine σ) (slot : Nat) {f g : Slot → Slot}
    (h : ∀ s, g (f s) = f (g s)) :
    (e.modifySlot slot f).modifySlot slot g = (e.modifySlot slot g).modifySlot slot f := by
  have hslots : (e.slots.modify slot f).modify slot g =
      (e.slots.modify slot g).modify slot f := by
    refine Array.ext (by simp) fun s hs hs' => ?_
    simp only [Array.getElem_modify]
    split
    · exact h _
    · rfl
  unfold modifySlot
  dsimp only
  rw [hslots]

/-- It makes no difference whether a slot is opened before or after a track starts. -/
theorem openSlot_startTrack (e : Engine σ) (slot sequence : Nat) (options : StartOptions)
    (i position : Nat) :
    (e.startTrack slot sequence options i position).openSlot slot sequence options =
      (e.openSlot slot sequence options).startTrack slot sequence options i position := by
  unfold startTrack
  have hmodule : (e.openSlot slot sequence options).module = e.module := rfl
  rw [hmodule]
  split
  · rfl
  · have hcomm := modifySlot_comm e slot
      (f := fun s => s.withTrack position i options.handled)
      (g := fun s => s.opened sequence options) fun _ => rfl
    have hslots := congrArg Engine.slots hcomm
    unfold openSlot modifyTrack
    dsimp only
    unfold modifySlot at hslots ⊢
    congr 1

theorem openSlot_foldl (slot sequence : Nat) (options : StartOptions) :
    ∀ (l : List (Nat × Nat)) (e : Engine σ),
      (l.foldl (fun e p => e.startTrack slot sequence options p.1 p.2) e).openSlot slot sequence
          options =
        l.foldl (fun e p => e.startTrack slot sequence options p.1 p.2)
          (e.openSlot slot sequence options)
  | [], _ => rfl
  | p :: l, e => by
    rw [List.foldl_cons, List.foldl_cons, openSlot_foldl slot sequence options l,
      openSlot_startTrack]

/-- Slot `s` is the first that is free. -/
structure FirstFree (e : Engine σ) (s : Nat) : Prop where
  lt : s < e.slots.size
  free : (e.slot s).active = false
  first : ∀ r < s, (e.slot r).active = true

/-- The module has the sequence, and the sequence has tracks. -/
def Startable (e : Engine σ) (sequence : Nat) : Prop :=
  ∃ streams ∈ e.module.sequences[sequence]?, streams ≠ #[]

theorem firstFree_of_findIdx? {e : Engine σ} {s : Nat}
    (h : e.slots.findIdx? (!·.active) = some s) : e.FirstFree s := by
  obtain ⟨hlt, hfree, hfirst⟩ := Array.findIdx?_eq_some_iff_getElem.mp h
  refine ⟨hlt, by simpa [slot, Array.getD_eq_getD_getElem?, hlt] using hfree, fun r hr => ?_⟩
  simpa [slot, Array.getD_eq_getD_getElem?, Nat.lt_trans hr hlt] using hfirst r hr

theorem active_of_findIdx? {e : Engine σ} (h : e.slots.findIdx? (!·.active) = none) :
    ∀ s < e.slots.size, (e.slot s).active = true := by
  intro s hs
  have hall := Array.findIdx?_eq_none_iff.mp h e.slots[s] (Array.getElem_mem hs)
  simpa [slot, Array.getD_eq_getD_getElem?, hs] using hall

/-- No two slots are the first free one. -/
theorem FirstFree.unique {e : Engine σ} {s r : Nat} (h : e.FirstFree s) (h' : e.FirstFree r) :
    s = r := by
  rcases Nat.lt_trichotomy s r with hlt | heq | hlt
  · exact absurd (h.free.symm.trans (h'.first s hlt)) Bool.false_ne_true
  · exact heq
  · exact absurd (h'.free.symm.trans (h.first r hlt)) Bool.false_ne_true

/-- The five ways in which a start may go. With which options a sequence starts has no say in
which of them it goes. -/
theorem startSequence_outcome (e : Engine σ) (sequence : Nat) :
    (e.module.sequences.size ≤ sequence ∧
        ∀ options, e.startSequence sequence options = (.error (.invalidSequence sequence), e)) ∨
      (e.module.sequences[sequence]? = some #[] ∧
        ∀ options, e.startSequence sequence options = (.error (.emptySequence sequence), e)) ∨
      (e.Startable sequence ∧ (∀ s < e.slots.size, (e.slot s).active = true) ∧
        ∀ options, e.startSequence sequence options = (.error .noFreeSequence, e)) ∨
      (e.Startable sequence ∧ e.freeTracks = [] ∧ ∃ s, e.FirstFree s ∧
        ∀ options, e.startSequence sequence options =
          (.error .noFreeTrack, e.modifySlot s Slot.cleared)) ∨
      ∃ streams s, e.module.sequences[sequence]? = some streams ∧ e.FirstFree s ∧
        e.freeTracks.take streams.size ≠ [] ∧ ∀ options, e.startSequence sequence options =
          (.ok s, (e.freeTracks.take streams.size).zipIdx.foldl
            (fun e p => e.startTrack s sequence options p.1 p.2)
            ((e.modifySlot s Slot.cleared).openSlot s sequence options)) := by
  unfold startSequence
  split
  · next hnone => exact .inl ⟨Array.getElem?_eq_none_iff.mp hnone, fun _ => rfl⟩
  · next streams hstreams =>
    split
    · next hempty =>
      rw [Array.isEmpty_iff] at hempty
      exact .inr (.inl ⟨hempty ▸ hstreams, fun _ => rfl⟩)
    · next hsome =>
      rw [Array.isEmpty_iff] at hsome
      have hstartable : e.Startable sequence := ⟨streams, hstreams, hsome⟩
      refine .inr (.inr ?_)
      split
      · next hfull => exact .inl ⟨hstartable, active_of_findIdx? hfull, fun _ => rfl⟩
      · next s hs =>
        have hfirst := firstFree_of_findIdx? hs
        refine .inr ?_
        dsimp only
        split
        · next hnone =>
          rw [List.isEmpty_iff, List.take_eq_nil_iff] at hnone
          have hfree := hnone.resolve_left (Nat.pos_iff_ne_zero.mp (Array.size_pos_iff.mpr hsome))
          exact .inl ⟨hstartable, hfree, s, hfirst, fun _ => rfl⟩
        · next htaken =>
          refine .inr ⟨streams, s, hstreams, hfirst, by simpa using htaken, fun options => ?_⟩
          rw [← openSlot_foldl s sequence options]
          rfl

/-- A sequence that starts takes the first free slot, if there is one, and then tracks
of the pool for its own, if there are any. With which options it starts has no say in
this. -/
theorem startSequence_cases (e : Engine σ) (sequence : Nat) :
    (∃ flaw, ∀ options, e.startSequence sequence options = (.error flaw, e)) ∨
      ∃ streams slot, e.module.sequences[sequence]? = some streams ∧ slot < e.slots.size ∧
        (e.slot slot).active = false ∧
        ((∃ flaw, ∀ options, e.startSequence sequence options =
            (.error flaw, e.modifySlot slot Slot.cleared)) ∨
          e.freeTracks.take streams.size ≠ [] ∧ ∀ options, e.startSequence sequence options =
            (.ok slot, (e.freeTracks.take streams.size).zipIdx.foldl
              (fun e p => e.startTrack slot sequence options p.1 p.2)
              ((e.modifySlot slot Slot.cleared).openSlot slot sequence options))) := by
  rcases startSequence_outcome e sequence with
    ⟨-, heq⟩ | ⟨-, heq⟩ | ⟨-, -, heq⟩ | ⟨⟨streams, hstreams, -⟩, -, s, hfirst, heq⟩ |
    ⟨streams, s, hstreams, hfirst, htaken, heq⟩
  · exact .inl ⟨_, heq⟩
  · exact .inl ⟨_, heq⟩
  · exact .inl ⟨_, heq⟩
  · exact .inr ⟨streams, s, hstreams, hfirst.lt, hfirst.free, .inl ⟨_, heq⟩⟩
  · exact .inr ⟨streams, s, hstreams, hfirst.lt, hfirst.free, .inr ⟨htaken, heq⟩⟩

theorem startSequence_eq (e : Engine σ) (sequence : Nat) (options : StartOptions) :
    ((∃ flaw, (e.startSequence sequence options).1 = .error flaw) ∧
        (e.startSequence sequence options).2 = e) ∨
      ∃ streams slot, e.module.sequences[sequence]? = some streams ∧ slot < e.slots.size ∧
        (e.slot slot).active = false ∧
        ((∃ flaw, (e.startSequence sequence options).1 = .error flaw) ∧
            (e.startSequence sequence options).2 = e.modifySlot slot Slot.cleared ∨
          (e.freeTracks.take streams.size ≠ [] ∧
            (e.startSequence sequence options).1 = .ok slot ∧
            (e.startSequence sequence options).2 =
              (e.freeTracks.take streams.size).zipIdx.foldl
                (fun e p => e.startTrack slot sequence options p.1 p.2)
                ((e.modifySlot slot Slot.cleared).openSlot slot sequence options))) := by
  rcases startSequence_cases e sequence with
    ⟨flaw, heq⟩ | ⟨streams, slot, hstreams, hlt, hidle, ⟨flaw, heq⟩ | ⟨htaken, heq⟩⟩
  · rw [heq]
    exact .inl ⟨⟨flaw, rfl⟩, rfl⟩
  · rw [heq]
    exact .inr ⟨streams, slot, hstreams, hlt, hidle, .inl ⟨⟨flaw, rfl⟩, rfl⟩⟩
  · rw [heq]
    exact .inr ⟨streams, slot, hstreams, hlt, hidle, .inr ⟨htaken, rfl, rfl⟩⟩

/-- Slot `slot` has been emptied, and nothing else has changed but that it may be in
use. -/
structure Resets (slot : Nat) (e e' : Engine σ) : Prop where
  module : e'.module = e.module
  tracks : e'.tracks = e.tracks
  slots_size : e'.slots.size = e.slots.size
  other : ∀ s, slot ≠ s → e'.slot s = e.slot s
  empty : ∀ p, (e'.slot slot).entry p = none
  width : (e'.slot slot).tracks.size = (e.slot slot).tracks.size
  tracksActive : (e'.slot slot).tracksActive = 0
  tracksPlaying : (e'.slot slot).tracksPlaying = 0
  total : e'.tracksActive = e.tracksActive

namespace Resets

variable {slot : Nat} {e e' : Engine σ}

theorem track (h : Resets slot e e') (i : Nat) : e'.track i = e.track i := by
  unfold Engine.track
  rw [h.tracks]

/-- A free slot that is emptied, or put in use, before any track starts on it. -/
theorem placed (h : Resets slot e e') (he : e.Placed) (hlt : slot < e.slots.size)
    (hidle : (e.slot slot).active = false)
    (hslots : e'.slotsActive = e.slotsActive + (if (e'.slot slot).active then 1 else 0)) :
    e'.Placed := by
  constructor
  case home =>
    intro i hi
    rw [h.track] at hi ⊢
    have hhome := he.home i hi
    have hs : slot ≠ (e.track i).slot := by
      intro heq
      rw [← heq, hidle] at hhome
      cases hhome.1
    rw [h.other _ hs]
    exact hhome
  case entry =>
    intro s p i hp
    have hs : slot ≠ s := by
      rintro rfl
      rw [h.empty] at hp
      cases hp
    rw [h.other s hs] at hp ⊢
    rw [h.track]
    exact he.entry s p i hp
  case entries =>
    intro s hs
    by_cases hs' : slot = s
    · subst hs'
      rw [h.tracksActive, Slot.entries_eq_zero h.empty]
    · rw [h.other s hs'] at hs ⊢
      exact he.entries s hs
  case playing =>
    intro s hs
    by_cases hs' : slot = s
    · subst hs'
      rw [h.tracksPlaying, playingOn, eq_comm, List.countP_eq_zero]
      intro p _
      rw [playsAt, h.empty]
      exact Bool.false_ne_true
    · have hplays : e'.playsAt s = e.playsAt s := by
        funext p
        simp only [playsAt, h.other s hs', h.track]
      rw [playingOn, hplays, h.other s hs'] at *
      exact he.playing s hs
  case tracks =>
    rw [h.total, he.tracks, h.tracks]
    exact countP_range_congr fun i _ => by rw [h.track]
  case slots =>
    have hsame : ∀ s, s ≠ slot → (e'.slot s).active = (e.slot s).active := by
      intro s hs
      rw [h.other s hs.symm]
    rw [hslots, h.slots_size, he.slots]
    cases hnow : (e'.slot slot).active with
    | false =>
      refine countP_range_congr fun s _ => ?_
      by_cases hs : s = slot
      · rw [hs, hidle, hnow]
      · exact (hsame s hs).symm
    | true =>
      exact (countP_range_add_one (p := fun s => (e.slot s).active)
        (q := fun s => (e'.slot s).active) hlt hidle hnow hsame).symm
  case wide =>
    intro s hs
    rw [h.slots_size] at hs
    rw [h.module]
    by_cases hs' : slot = s
    · subst hs'
      rw [h.width, he.wide slot hs]
    · rw [h.other s hs', he.wide s hs]

end Resets

theorem slot_clearSlot {e : Engine σ} {slot : Nat} (hlt : slot < e.slots.size) (s : Nat) :
    (e.modifySlot slot Slot.cleared).slot s =
      if slot = s then (e.slot s).cleared else e.slot s := by
  rw [slot_modifySlot]
  by_cases hs : slot = s
  · subst hs
    rw [if_pos ⟨rfl, hlt⟩, if_pos rfl]
  · rw [if_neg fun hp => hs hp.1, if_neg hs]

theorem resets_clearSlot {e : Engine σ} {slot : Nat} (hlt : slot < e.slots.size) :
    Resets slot e (e.modifySlot slot Slot.cleared) := by
  have hhome : (e.modifySlot slot Slot.cleared).slot slot = (e.slot slot).cleared := by
    rw [slot_clearSlot hlt, if_pos rfl]
  refine ⟨rfl, rfl, by simp [modifySlot], fun s hs => ?_, fun p => ?_, ?_, ?_, ?_, rfl⟩
  · rw [slot_clearSlot hlt, if_neg hs]
  · rw [hhome, Slot.entry_cleared]
  · rw [hhome]
    simp [Slot.cleared]
  · rw [hhome]
    rfl
  · rw [hhome]
    rfl

theorem slot_openSlot {e : Engine σ} {slot : Nat} (hlt : slot < e.slots.size) (sequence : Nat)
    (options : StartOptions) (s : Nat) :
    ((e.modifySlot slot Slot.cleared).openSlot slot sequence options).slot s =
      if slot = s then (e.slot s).cleared.opened sequence options else e.slot s := by
  refine (slot_modifySlot _ slot s _).trans ?_
  rw [slot_clearSlot hlt]
  by_cases hs : slot = s
  · subst hs
    rw [if_pos ⟨rfl, by simpa [modifySlot] using hlt⟩, if_pos rfl, if_pos rfl]
  · rw [if_neg fun hp => hs hp.1, if_neg hs, if_neg hs]

theorem resets_openSlot {e : Engine σ} {slot : Nat} (hlt : slot < e.slots.size) (sequence : Nat)
    (options : StartOptions) :
    Resets slot e ((e.modifySlot slot Slot.cleared).openSlot slot sequence options) := by
  have hhome : ((e.modifySlot slot Slot.cleared).openSlot slot sequence options).slot slot =
      (e.slot slot).cleared.opened sequence options := by
    rw [slot_openSlot hlt, if_pos rfl]
  refine ⟨rfl, rfl, by simp [openSlot, modifySlot], fun s hs => ?_, fun p => ?_, ?_, ?_, ?_, rfl⟩
  · rw [slot_openSlot hlt, if_neg hs]
  · rw [hhome]
    exact (e.slot slot).entry_cleared p
  · rw [hhome]
    simp [Slot.opened, Slot.cleared]
  · rw [hhome]
    rfl
  · rw [hhome]
    rfl

/-- A slot on which a sequence starts, with tracks and positions that are still to
come; `total` tracks there will be. -/
structure Filling (slot sequence : Nat) (options : StartOptions) (total : Nat)
    (rest : List (Nat × Nat)) (e : Engine σ) : Prop where
  placed : e.Placed
  lively : ∀ s, slot ≠ s → (e.slot s).Lively
  mode : (e.slot slot).mode = if options.handled then .stopped else .playing
  playing : (e.slot slot).tracksPlaying =
    if options.handled then 0 else (e.slot slot).tracksActive
  count : (e.slot slot).tracksActive + rest.length = total
  tracks : (rest.map Prod.fst).Nodup
  positions : (rest.map Prod.snd).Nodup
  fits : ∀ p ∈ rest, e.Fits slot sequence p.1 p.2

theorem Filling.startTrack {slot sequence total : Nat} {options : StartOptions}
    {p : Nat × Nat} {rest : List (Nat × Nat)} {e : Engine σ}
    (h : Filling slot sequence options total (p :: rest) e) :
    Filling slot sequence options total rest
      (e.startTrack slot sequence options p.1 p.2) := by
  have hfits := h.fits p List.mem_cons_self
  obtain ⟨hfst, hrest⟩ := List.nodup_cons.mp h.tracks
  obtain ⟨hsnd, hrest'⟩ := List.nodup_cons.mp h.positions
  refine {
    placed := h.placed.startTrack hfits options
    lively := fun s hs => by rw [hfits.slot_of_ne options hs]; exact h.lively s hs
    mode := by rw [hfits.slot_self]; exact h.mode
    playing := ?playing
    count := ?count
    tracks := hrest
    positions := hrest'
    fits := fun q hq => ?fits }
  case playing =>
    have hplaying := h.playing
    rw [hfits.slot_self]
    simp only [Slot.withTrack]
    split
    · next hwaits => rwa [if_pos hwaits] at hplaying
    · next hwaits =>
      rw [if_neg hwaits] at hplaying
      rw [hplaying]
  case count =>
    have hcount := h.count
    rw [hfits.slot_self]
    simp only [Slot.withTrack, List.length_cons] at hcount ⊢
    omega
  case fits =>
    have hne : p.1 ≠ q.1 := fun heq => hfst (heq ▸ List.mem_map_of_mem hq)
    have hne' : q.2 ≠ p.2 := fun heq => hsnd (heq ▸ List.mem_map_of_mem hq)
    exact hfits.startTrack options (h.fits q (List.mem_cons_of_mem p hq)) hne hne'

/-- A slot with all its tracks is like any other. -/
theorem Filling.agree {slot sequence total : Nat} {options : StartOptions} {e : Engine σ}
    (h : Filling slot sequence options total [] e) (htotal : 0 < total) : e.PoolsAgree := by
  refine ⟨h.placed, fun s => ?_⟩
  by_cases hs : slot = s
  · subst hs
    intro _
    have hcount := h.count
    rw [List.length_nil, Nat.add_zero] at hcount
    refine ⟨by omega, ?_⟩
    rw [h.mode, h.playing]
    split
    · simp
    · simp only [true_iff]
      omega
  · exact h.lively s hs

/-- A free slot may be emptied. -/
theorem PoolsAgree.clearSlot {e : Engine σ} (h : e.PoolsAgree) {slot : Nat}
    (hlt : slot < e.slots.size) (hidle : (e.slot slot).active = false) :
    (e.modifySlot slot Slot.cleared).PoolsAgree := by
  have hunused : ((e.modifySlot slot Slot.cleared).slot slot).active = false := by
    rw [slot_clearSlot hlt, if_pos rfl]
    exact hidle
  refine ⟨(resets_clearSlot hlt).placed h.toPlaced hlt hidle (by rw [hunused]; rfl),
    fun s hs => ?_⟩
  by_cases hs' : slot = s
  · subst hs'
    rw [hunused] at hs
    cases hs
  · rw [slot_clearSlot hlt, if_neg hs'] at hs ⊢
    exact h.lively s hs

/-- A slot that is put in use is ready for tracks of the pool that are free, as many as
the sequence has. -/
theorem PoolsAgree.openSlot {e : Engine σ} (h : e.PoolsAgree) {slot sequence : Nat}
    (hlt : slot < e.slots.size) (hidle : (e.slot slot).active = false)
    {streams : Array TrackStream} (hstreams : e.module.sequences[sequence]? = some streams)
    (options : StartOptions) :
    Filling slot sequence options (e.freeTracks.take streams.size).length
      (e.freeTracks.take streams.size).zipIdx
      ((e.modifySlot slot Slot.cleared).openSlot slot sequence options) := by
  have hreset := resets_openSlot hlt sequence options
  have hhome : ((e.modifySlot slot Slot.cleared).openSlot slot sequence options).slot slot =
      (e.slot slot).cleared.opened sequence options := by
    rw [slot_openSlot hlt, if_pos rfl]
  refine {
    placed := hreset.placed h.toPlaced hlt hidle (by rw [hhome]; rfl)
    lively := fun s hs => by rw [hreset.other s hs]; exact h.lively s
    mode := by rw [hhome]; rfl
    playing := by rw [hhome]; split <;> rfl
    count := by rw [hreset.tracksActive, List.length_zipIdx, Nat.zero_add]
    tracks := ?tracks
    positions := by rw [List.zipIdx_map_snd]; exact List.nodup_range'
    fits := fun p hp => ?fits }
  case tracks =>
    rw [List.zipIdx_map_fst]
    exact (nodup_freeTracks e).sublist (List.take_sublist _ _)
  case fits =>
    have hmem := List.mem_of_mem_take (List.fst_mem_of_mem_zipIdx hp)
    obtain ⟨hpsize, hpidle⟩ := mem_freeTracks.mp hmem
    have hbound := List.snd_lt_of_mem_zipIdx hp
    have hwidth : p.2 < streams.size := by
      rw [List.length_take] at hbound
      omega
    exact {
      stream := SoundModule.isSome_track? hstreams hwidth
      active := by rw [hhome]; rfl
      serves := by rw [hhome]; rfl
      within := by
        rw [hreset.width, h.wide slot hlt]
        exact Nat.lt_of_lt_of_le hwidth (SoundModule.size_le_widestSequence hstreams)
      free := hreset.empty p.2
      lt := hpsize
      idle := hpidle }

/-- A sequence that starts leaves tracks and slots in agreement, and so does one that
is refused. -/
theorem PoolsAgree.startSequence {e : Engine σ} (h : e.PoolsAgree) (sequence : Nat)
    (options : StartOptions) : (e.startSequence sequence options).2.PoolsAgree := by
  rcases startSequence_eq e sequence options with
    ⟨-, heq⟩ | ⟨streams, slot, hstreams, hlt, hidle, ⟨-, heq⟩ | ⟨htaken, -, heq⟩⟩
  · rw [heq]
    exact h
  · rw [heq]
    exact h.clearSlot hlt hidle
  · rw [heq]
    have hfilled := foldl_keeps (f := fun e p => e.startTrack slot sequence options p.1 p.2)
      (Filling slot sequence options (e.freeTracks.take streams.size).length)
      (fun p rest e h => h.startTrack) _ _ (h.openSlot hlt hidle hstreams options)
    exact hfilled.agree (List.length_pos_iff.mpr htaken)

end Engine

end SoundSequencer
