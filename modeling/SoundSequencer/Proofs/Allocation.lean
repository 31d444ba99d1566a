/-
SoundSequencer.Proofs.Allocation — what a sequence that starts takes, and what it leaves.

* `TrackStream.atStart` and `Slot.allotted` are a track and a slot of a sequence that has just
  started, written out in full.
* `Engine.LowestFree` are the tracks that a start takes; `allots_foldl` follows them on their way
  to the slot.
* `Engine.Due` says which answer is due to a start, `Engine.Allocates` what a start that goes
  ahead changes. `startSequence_exact` says that every start keeps to both.
-/
import SoundSequencer.Proofs.Overrides

namespace SoundSequencer

/-! ## Tracks and slots at the start -/

/-- A track as it starts on a slot, whatever the entry of the pool held before. -/
def TrackStream.atStart (stream : TrackStream) (options : StartOptions)
    (slot sequence position : Nat) : Track :=
  let header := stream.header
  let attrs := options.attrs
  let mask := attrs.mask
  let qpm := if mask.tempo then attrs.tempo else header.qpm
  { flags := {
      active := true
      stopped := options.handled
      muted := attrs.mutes header.muteGroups
      looped := mask.looped
      timed := mask.timed
      off := false
      handled := options.handled }
    slot, sequence, position
    driver := header.driver
    soundClass := header.soundClass
    priority := header.priority
    maxVoices := header.maxVoices.toNat
    voicesActive := 0
    muteGroups := header.muteGroups
    patch := if mask.patch then attrs.patch else header.patch
    pitch := if mask.pitch then attrs.pitch else header.pitch
    volume := if mask.volume then attrs.volume else header.volume
    pan := if mask.pan then attrs.pan else header.pan
    reverb := if mask.reverb then attrs.reverb else header.reverb
    ppq := header.ppq
    qpm
    ppi := partsPerInterrupt ticksPerSecond header.ppq qpm
    frac := 0
    total := 0
    acc := 0
    endAt := if mask.timed then attrs.playtime else 0
    delta := ((stream.event? 0).getD (0, 0)).1
    pc := ((stream.event? 0).getD (0, 0)).2
    returns := []
    returnDepth := min header.returnDepth.toNat maxReturnDepth }

theorem Track.start_seated_eq (t : Track) (stream : TrackStream) (options : StartOptions)
    (slot sequence position : Nat) :
    (t.start stream.header options.attrs).seated options.handled slot sequence position
        ((stream.event? 0).getD (0, 0)).1 ((stream.event? 0).getD (0, 0)).2 =
      stream.atStart options slot sequence position := by
  have hend : (0 : UInt32) + options.attrs.playtime = options.attrs.playtime :=
    UInt32.zero_add _
  unfold seated start retime endIn TrackStream.atStart
  dsimp only
  generalize partsPerInterrupt ticksPerSecond = parts
  cases options.attrs.mask.timed with
  | true => simp only [if_true, hend]
  | false => simp only [Bool.false_eq_true, if_false]

namespace Slot

/-- The slot in which a sequence has just started with the tracks `taken`. -/
def allotted (s : Slot) (sequence : Nat) (options : StartOptions) (taken : List Nat) : Slot where
  active := true
  handled := options.handled
  sequence
  tag := options.tag
  mode := if options.handled then .stopped else .playing
  tracksActive := taken.length
  tracksPlaying := if options.handled then 0 else taken.length
  volume := sequenceVolume
  pan := sequencePan
  gates := Array.replicate s.gates.size unset
  iters := Array.replicate s.iters.size unset
  tracks := Array.ofFn fun p : Fin s.tracks.size => taken[p.val]?

/-- Tracks that come to a slot one after the other. -/
theorem foldl_withTrack (waits : Bool) : ∀ (l : List (Nat × Nat)) (s : Slot),
    l.foldl (fun s p => s.withTrack p.2 p.1 waits) s =
      { s with
        tracks := l.foldl (fun tracks p => tracks.setIfInBounds p.2 (some p.1)) s.tracks
        tracksActive := s.tracksActive + l.length
        tracksPlaying := if waits then s.tracksPlaying else s.tracksPlaying + l.length }
  | [], s => by simp
  | p :: l, s => by
    rw [List.foldl_cons, foldl_withTrack waits l, List.foldl_cons, List.length_cons]
    unfold withTrack
    dsimp only
    congr 1
    · omega
    · split <;> omega

/-- Entries that are filled in their order, from entry `k` on. -/
theorem getElem?_fill : ∀ (taken : List Nat) (k : Nat) (entries : Array (Option Nat)) (p : Nat),
    ((taken.zipIdx k).foldl (fun entries q => entries.setIfInBounds q.2 (some q.1)) entries)[p]? =
      if k ≤ p ∧ p < k + taken.length ∧ p < entries.size then some taken[p - k]?
      else entries[p]?
  | [], k, entries, p => by
    rw [if_neg (by rw [List.length_nil]; omega)]
    rfl
  | i :: taken, k, entries, p => by
    rw [List.zipIdx_cons, List.foldl_cons, getElem?_fill taken (k + 1), Array.size_setIfInBounds,
      Array.getElem?_setIfInBounds]
    by_cases hp : p = k
    · subst hp
      by_cases hlt : p < entries.size
      · simp [hlt]
      · simp [hlt]
    · by_cases hrange : k ≤ p ∧ p < k + (taken.length + 1) ∧ p < entries.size
      · have hshift : p - k = p - (k + 1) + 1 := by omega
        rw [if_pos (by omega), List.length_cons, if_pos hrange, hshift, List.getElem?_cons_succ]
      · rw [if_neg (by omega), if_neg (Ne.symm hp), List.length_cons, if_neg hrange]

/-- A slot that is emptied, opened and given its tracks is one in which a sequence starts. -/
theorem allotted_eq (s : Slot) (sequence : Nat) (options : StartOptions) (taken : List Nat) :
    taken.zipIdx.foldl (fun s p => s.withTrack p.2 p.1 options.handled)
        (s.cleared.opened sequence options) = s.allotted sequence options taken := by
  have htracks : taken.zipIdx.foldl (fun tracks p => tracks.setIfInBounds p.2 (some p.1))
      (s.tracks.map fun _ => (none : Option Nat)) =
        Array.ofFn fun p : Fin s.tracks.size => taken[p.val]? := by
    refine Array.ext_getElem? fun p => ?_
    rw [getElem?_fill]
    by_cases hp : p < s.tracks.size
    · by_cases htaken : p < taken.length
      · simp [hp, htaken]
      · simp [hp, htaken]
    · simp [hp]
  have hunset : ∀ boxes : Array UInt8,
      (boxes.map fun _ => unset) = Array.replicate boxes.size unset := fun boxes =>
    Array.ext (by simp) fun p _ _ => by simp
  rw [foldl_withTrack]
  unfold opened cleared allotted
  dsimp only
  rw [htracks, hunset, hunset, List.length_zipIdx, Nat.zero_add]

end Slot

namespace Engine

variable {σ : Type}

/-! ## What a start takes -/

/-- The tracks in `taken` are the first `wanted` of the pool that are free, or all of them if
there are fewer. -/
structure LowestFree (e : Engine σ) (wanted : Nat) (taken : List Nat) : Prop where
  ascending : taken.Pairwise (· < ·)
  free : ∀ i ∈ taken, i < e.tracks.size ∧ (e.track i).isActive = false
  length : taken.length =
    min wanted ((List.range e.tracks.size).countP fun i => !(e.track i).isActive)
  lowest : ∀ i ∈ taken, ∀ j < e.tracks.size, (e.track j).isActive = false → j ∉ taken → i < j

theorem lowestFree_take (e : Engine σ) (wanted : Nat) :
    e.LowestFree wanted (e.freeTracks.take wanted) := by
  have hascending : e.freeTracks.Pairwise (· < ·) := List.pairwise_lt_range.filter _
  refine ⟨hascending.sublist (List.take_sublist _ _),
    fun i hi => mem_freeTracks.mp (List.mem_of_mem_take hi), ?_, fun i hi j hj hidle hleft => ?_⟩
  · rw [List.length_take, List.countP_eq_length_filter]
    rfl
  · rw [← List.take_append_drop wanted e.freeTracks, List.pairwise_append] at hascending
    have hmem : j ∈ e.freeTracks.take wanted ++ e.freeTracks.drop wanted := by
      rw [List.take_append_drop]
      exact mem_freeTracks.mpr ⟨hj, hidle⟩
    exact hascending.2.2 i hi j ((List.mem_append.mp hmem).resolve_left hleft)

/-! ## Tracks on their way -/

/-- The tracks in `all` have started at their positions on a slot, and nothing else has
changed. -/
structure Allots (slot sequence : Nat) (options : StartOptions) (all : List (Nat × Nat))
    (e e' : Engine σ) : Prop where
  started : ∀ p ∈ all, ∃ stream, e.module.track? sequence p.2 = some stream ∧
    e'.track p.1 = stream.atStart options slot sequence p.2
  others : ∀ i, i ∉ all.map Prod.fst → e'.track i = e.track i
  slots : ∀ s, e'.slot s =
    if slot = s ∧ s < e.slots.size then
      all.foldl (fun s p => s.withTrack p.2 p.1 options.handled) (e.slot s)
    else e.slot s
  tracks_size : e'.tracks.size = e.tracks.size
  slots_size : e'.slots.size = e.slots.size
  rest : e' = { e with
    tracks := e'.tracks, slots := e'.slots, tracksActive := e.tracksActive + all.length }

/-- A track that starts. -/
theorem allots_startTrack {slot sequence position i : Nat} {options : StartOptions}
    {e : Engine σ} {stream : TrackStream} (h : e.module.track? sequence position = some stream)
    (hi : i < e.tracks.size) :
    Allots slot sequence options [(i, position)] e
      (e.startTrack slot sequence options i position) := by
  have hsome : (e.module.track? sequence position).isSome = true := by rw [h]; rfl
  obtain ⟨-, htracks, hslots, -, -⟩ := startTrack_frame hsome slot options i
  refine ⟨?started, fun j hj => ?others, fun s => ?slots, htracks, hslots, ?rest⟩
  case started =>
    intro p hp
    cases List.mem_singleton.mp hp
    refine ⟨stream, h, ?_⟩
    rw [startTrack_eq h]
    refine (track_modifyTrack e i i _).trans ?_
    rw [if_pos ⟨rfl, hi⟩, Track.start_seated_eq]
  case others =>
    rw [List.map_singleton, List.mem_singleton] at hj
    exact track_startTrack_of_ne e slot sequence options position (Ne.symm hj)
  case slots => exact slot_startTrack hsome slot options i s
  case rest =>
    rw [startTrack_eq h]
    rfl

theorem Allots.trans {slot sequence : Nat} {options : StartOptions} {all more : List (Nat × Nat)}
    {a b c : Engine σ} (h : Allots slot sequence options all a b)
    (h' : Allots slot sequence options more b c)
    (hnew : ∀ p ∈ all, p.1 ∉ more.map Prod.fst) :
    Allots slot sequence options (all ++ more) a c := by
  have hmodule : b.module = a.module := by rw [h.rest]
  refine ⟨?started, fun i hi => ?others, fun s => ?slots, h'.tracks_size.trans h.tracks_size,
    h'.slots_size.trans h.slots_size, ?rest⟩
  case started =>
    intro p hp
    rcases List.mem_append.mp hp with hall | hmore
    · rw [h'.others p.1 (hnew p hall)]
      exact h.started p hall
    · rw [← hmodule]
      exact h'.started p hmore
  case others =>
    rw [List.map_append, List.mem_append, not_or] at hi
    rw [h'.others i hi.2, h.others i hi.1]
  case slots =>
    rw [h'.slots, h.slots_size, h.slots, List.foldl_append]
    split <;> rfl
  case rest =>
    have hcount : b.tracksActive = a.tracksActive + all.length := by rw [h.rest]
    rw [h'.rest, hcount, List.length_append, ← Nat.add_assoc]
    conv_lhs => rw [h.rest]

/-- Different tracks of the pool that start one after the other. -/
theorem allots_foldl (slot sequence : Nat) (options : StartOptions) :
    ∀ {l : List (Nat × Nat)} {e : Engine σ}, (l.map Prod.fst).Nodup →
      (∀ p ∈ l, p.1 < e.tracks.size ∧ (e.module.track? sequence p.2).isSome = true) →
      Allots slot sequence options l e
        (l.foldl (fun e p => e.startTrack slot sequence options p.1 p.2) e)
  | [], e, _, _ =>
    ⟨nofun, fun _ _ => rfl, fun _ => by split <;> rfl, rfl, rfl, rfl⟩
  | p :: l, e, hnodup, hready => by
    obtain ⟨hnot, hrest⟩ := List.nodup_cons.mp hnodup
    obtain ⟨hlt, hstream⟩ := hready p List.mem_cons_self
    obtain ⟨stream, hstream⟩ := Option.isSome_iff_exists.mp hstream
    have hfirst : Allots slot sequence options [p] e
        (e.startTrack slot sequence options p.1 p.2) := allots_startTrack hstream hlt
    have hmodule : (e.startTrack slot sequence options p.1 p.2).module = e.module := by
      rw [hfirst.rest]
    refine hfirst.trans (allots_foldl slot sequence options hrest fun q hq => ?_) fun q hq => ?_
    · rw [hfirst.tracks_size, hmodule]
      exact hready q (List.mem_cons_of_mem p hq)
    · rw [List.mem_singleton.mp hq]
      exact hnot

/-! ## The start of a sequence -/

/-- Whether an answer is the one that is due to a start: what the module says of the sequence
comes first, then whether there is a free slot, then whether there is a free track. -/
def Due (e : Engine σ) (sequence : Nat) : Except EngineError Nat → Prop
  | .error (.invalidSequence q) => q = sequence ∧ e.module.sequences.size ≤ sequence
  | .error (.emptySequence q) => q = sequence ∧ e.module.sequences[sequence]? = some #[]
  | .error .noFreeSequence =>
    e.Startable sequence ∧ ∀ s < e.slots.size, (e.slot s).active = true
  | .error .noFreeTrack =>
    e.Startable sequence ∧ (∃ s, e.FirstFree s) ∧
      ∀ i < e.tracks.size, (e.track i).isActive = true
  | .error _ => False
  | .ok s =>
    e.Startable sequence ∧ e.FirstFree s ∧ ∃ i < e.tracks.size, (e.track i).isActive = false

/-- No two answers are due. -/
theorem Due.unique {e : Engine σ} {sequence : Nat} {a b : Except EngineError Nat}
    (ha : e.Due sequence a) (hb : e.Due sequence b) : a = b := by
  have hout : e.module.sequences.size ≤ sequence → e.module.sequences[sequence]? = none :=
    Array.getElem?_eq_none
  have hstartable : e.Startable sequence →
      ∃ streams, e.module.sequences[sequence]? = some streams ∧ streams ≠ #[] := id
  have hslot : ∀ s, e.FirstFree s → s < e.slots.size ∧ (e.slot s).active = false :=
    fun s hs => ⟨hs.lt, hs.free⟩
  have hunique : ∀ s r, e.FirstFree s → e.FirstFree r → s = r := fun s r hs hr => hs.unique hr
  unfold Due at ha hb
  split at ha <;> split at hb <;> grind

/-- Sequence `sequence` has started in slot `s` of `e` with the tracks `taken`, which makes the
engine `e'`. -/
structure Allocates (e : Engine σ) (sequence : Nat) (options : StartOptions) (s : Nat)
    (streams : Array TrackStream) (taken : List Nat) (e' : Engine σ) : Prop where
  /-- The tracks are the lowest free ones, as many as there are or as the sequence has. -/
  lowest : e.LowestFree streams.size taken
  /-- No voice that sounds is one of theirs. -/
  silent : ∀ v, (e.voice v).active = true → (e.voice v).track ∉ taken
  /-- Each of them is the track of its position, at its start. -/
  started : ∀ p i, taken[p]? = some i → ∃ stream : TrackStream, streams[p]? = some stream ∧
    e'.track i = stream.atStart options s sequence p
  /-- All other tracks are as they were. -/
  tracks : ∀ i, i ∉ taken → e'.track i = e.track i
  /-- The slot has room for all of them, holds them and nothing that it held before. -/
  room : taken.length ≤ (e.slot s).tracks.size
  slot : e'.slot s = (e.slot s).allotted sequence options taken
  /-- All other slots are as they were. -/
  slots : ∀ r, s ≠ r → e'.slot r = e.slot r
  tracks_size : e'.tracks.size = e.tracks.size
  slots_size : e'.slots.size = e.slots.size
  /-- Nothing else has changed but the two counts: neither voices nor chip, neither listeners
  nor clock. -/
  rest : e' = { e with
    tracks := e'.tracks, slots := e'.slots
    tracksActive := e.tracksActive + taken.length, slotsActive := e.slotsActive + 1 }

/-- Nothing but slot `s` has changed, and that is as free as it was. -/
structure ClearsOnly (e : Engine σ) (s : Nat) (e' : Engine σ) : Prop where
  free : (e'.slot s).active = (e.slot s).active
  slots : ∀ r, s ≠ r → e'.slot r = e.slot r
  slots_size : e'.slots.size = e.slots.size
  rest : e' = { e with slots := e'.slots }

/-- Which answer a start has, and what it changes. -/
structure StartsExactly (e : Engine σ) (sequence : Nat) (options : StartOptions) : Prop where
  answer : ∀ a, (e.startSequence sequence options).1 = a ↔ e.Due sequence a
  /-- A start that goes ahead takes its slot and its tracks. -/
  allocates : ∀ s, (e.startSequence sequence options).1 = .ok s →
    ∃ streams taken, e.module.sequences[sequence]? = some streams ∧
      e.Allocates sequence options s streams taken (e.startSequence sequence options).2
  /-- A start that is refused changes nothing but at most a slot that is free and stays so: the
  one that was meant for it, where it was refused for want of a track. -/
  refused : ∀ flaw, (e.startSequence sequence options).1 = .error flaw →
    (e.startSequence sequence options).2 = e ∨
      flaw = .noFreeTrack ∧ ∃ s, e.FirstFree s ∧
        e.ClearsOnly s (e.startSequence sequence options).2

theorem clearsOnly_clearSlot {e : Engine σ} {s : Nat} (hlt : s < e.slots.size) :
    e.ClearsOnly s (e.modifySlot s Slot.cleared) := by
  have hreset := resets_clearSlot hlt
  refine ⟨?_, hreset.other, hreset.slots_size, rfl⟩
  rw [slot_clearSlot hlt, if_pos rfl]
  rfl

/-- With tracks of the pool that are free and streams for their positions a start is as it
should be. -/
theorem WellFormed.allocates {e : Engine σ} (h : e.WellFormed) {sequence s : Nat}
    {options : StartOptions} {streams : Array TrackStream}
    (hstreams : e.module.sequences[sequence]? = some streams) (hfirst : e.FirstFree s) :
    e.Allocates sequence options s streams (e.freeTracks.take streams.size)
      ((e.freeTracks.take streams.size).zipIdx.foldl
        (fun e p => e.startTrack s sequence options p.1 p.2)
        ((e.modifySlot s Slot.cleared).openSlot s sequence options)) := by
  have hlowest := lowestFree_take e streams.size
  have hopen := h.agree.openSlot hfirst.lt hfirst.free hstreams options
  have hslot := slot_openSlot hfirst.lt sequence options
  have hsize : ((e.modifySlot s Slot.cleared).openSlot s sequence options).slots.size =
      e.slots.size := (resets_openSlot hfirst.lt sequence options).slots_size
  generalize e.freeTracks.take streams.size = taken at hlowest hopen ⊢
  have hroom : taken.length ≤ streams.size := by
    rw [hlowest.length]
    exact Nat.min_le_left _ _
  have hallots := allots_foldl s sequence options hopen.tracks fun p hp =>
    ⟨(hopen.fits p hp).lt, (hopen.fits p hp).stream⟩
  have hfst : taken.zipIdx.map Prod.fst = taken := List.zipIdx_map_fst 0 taken
  constructor
  case lowest => exact hlowest
  case silent =>
    intro v hv hmem
    -- the owner of a voice in use is a track of a sequence
    exact Bool.false_ne_true
      ((hlowest.free _ hmem).2.symm.trans (h.voices.owner v hv).1)
  case started =>
    intro p i hp
    have hmem : (i, p) ∈ taken.zipIdx := List.mk_mem_zipIdx_iff_getElem?.mpr hp
    obtain ⟨stream, hstream, hread⟩ := hallots.started (i, p) hmem
    have htrack : e.module.track? sequence p = streams[p]? := by
      simp [SoundModule.track?, hstreams]
    exact ⟨stream, htrack ▸ hstream, hread⟩
  case tracks =>
    intro i hi
    rw [hallots.others i (by rwa [hfst])]
    rfl
  case room =>
    rw [h.agree.wide s hfirst.lt]
    exact Nat.le_trans hroom (SoundModule.size_le_widestSequence hstreams)
  case slot =>
    rw [hallots.slots, hsize, if_pos ⟨rfl, hfirst.lt⟩, hslot, if_pos rfl, Slot.allotted_eq]
  case slots =>
    intro r hr
    rw [hallots.slots, if_neg fun heq => hr heq.1, hslot, if_neg hr]
  case tracks_size => exact hallots.tracks_size
  case slots_size => exact hallots.slots_size.trans hsize
  case rest =>
    refine hallots.rest.trans ?_
    rw [List.length_zipIdx]
    rfl

/-- A start under any settings, held by a handle or not, has the first answer in the order of
the module, the slots and the tracks that is due. It takes the first free slot and the lowest
free tracks, sets them up anew and leaves everything else in the engine as it was; where it is
refused it leaves everything that is in use as it was. -/
theorem startSequence_exact {e : Engine σ} (h : e.WellFormed) (sequence : Nat)
    (options : StartOptions) : e.StartsExactly sequence options := by
  have hdue : e.Due sequence (e.startSequence sequence options).1 := by
    rcases startSequence_outcome e sequence with
      ⟨hout, heq⟩ | ⟨hempty, heq⟩ | ⟨hstartable, hfull, heq⟩ |
      ⟨hstartable, hnone, s, hfirst, heq⟩ | ⟨streams, s, hstreams, hfirst, htaken, heq⟩
    · rw [heq]
      exact ⟨rfl, hout⟩
    · rw [heq]
      exact ⟨rfl, hempty⟩
    · rw [heq]
      exact ⟨hstartable, hfull⟩
    · rw [heq]
      refine ⟨hstartable, ⟨s, hfirst⟩, fun i hi => ?_⟩
      by_contra hidle
      have hmem := mem_freeTracks.mpr ⟨hi, Bool.eq_false_iff.mpr hidle⟩
      rw [hnone] at hmem
      cases hmem
    · rw [heq]
      obtain ⟨i, hi⟩ := List.exists_mem_of_ne_nil _ htaken
      have hsome : streams ≠ #[] := by
        rintro rfl
        exact htaken List.take_zero
      exact ⟨⟨streams, hstreams, hsome⟩, hfirst, i, mem_freeTracks.mp (List.mem_of_mem_take hi)⟩
  refine ⟨fun a => ⟨fun heq => heq ▸ hdue, hdue.unique⟩, fun s hs => ?_, fun flaw hflaw => ?_⟩
  · rcases startSequence_outcome e sequence with
      ⟨-, heq⟩ | ⟨-, heq⟩ | ⟨-, -, heq⟩ | ⟨-, -, r, -, heq⟩ | ⟨streams, r, hstreams, hfirst, -, heq⟩
    all_goals rw [heq] at hs ⊢; cases hs
    exact ⟨streams, _, hstreams, h.allocates hstreams hfirst⟩
  · rcases startSequence_outcome e sequence with
      ⟨-, heq⟩ | ⟨-, heq⟩ | ⟨-, -, heq⟩ | ⟨-, -, s, hfirst, heq⟩ | ⟨streams, s, -, -, -, heq⟩
    all_goals rw [heq] at hflaw ⊢; cases hflaw
    · exact .inl rfl
    · exact .inl rfl
    · exact .inl rfl
    · exact .inr ⟨rfl, s, hfirst, clearsOnly_clearSlot hfirst.lt⟩

end Engine

open Engine

/-- A module with a sequence of three tracks, of which the second is at its end at once, for an
engine with four tracks. -/
def gapped : SoundModule :=
  { solo [] with
    limits := { sequences := 2, tracks := 4, voices := 1 }
    sequences := #[#[TrackHeader.plays {} [(0, .noteOn 60 100), (1000, .trackEnd)],
      TrackHeader.plays { driver := .silent } [(0, .trackEnd)],
      TrackHeader.plays {} [(1000, .trackEnd)]]] }

/-- A sequence starts beside itself on the two tracks that are free, which do not lie side by
side. -/
theorem startSequence_exact_gapped : ∃ e : Engine RecorderChip,
    Engine.make gapped {} = .ok e ∧ e.underWay.voices.active = 1 ∧
      (e.underWay.startSequence 0 { tag := 7, attrs := allSettings }).1 = .ok 1 ∧
      ((e.underWay.startSequence 0 { tag := 7, attrs := allSettings }).2.slot 1).trackList =
        [1, 3] ∧
      e.underWay.StartsExactly 0 { tag := 7, attrs := allSettings } := by
  obtain ⟨e, hmake, hfacts⟩ : ∃ e : Engine RecorderChip,
      Engine.make gapped {} = .ok e ∧ e.underWay.voices.active = 1 ∧
        (e.underWay.startSequence 0 { tag := 7, attrs := allSettings }).1 = .ok 1 ∧
        ((e.underWay.startSequence 0 { tag := 7, attrs := allSettings }).2.slot 1).trackList =
          [1, 3] :=
    exists_make (by decide +kernel)
  have hform : e.underWay.WellFormed := (@wellFormed_throughout _ _ _ _ _ hmake
    [.start 0 {}, .tick] ⟨trivial, trivial, trivial⟩).last
  exact ⟨e, hmake, hfacts.1, hfacts.2.1, hfacts.2.2, startSequence_exact hform 0 _⟩

end SoundSequencer
