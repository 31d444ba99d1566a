/-
SoundSequencer.Proofs.Overrides — settings given with the start of a sequence and right
after it.

* `Track.revised` is a track with the settings of a caller. `Track.start_seated` says that a
  track that starts with them is one that starts without and is revised then.
* `updateTrack_of_quiet` says that an update does no more to a track that has no voices.
* `Filling.joined` says which tracks a sequence has when it has started, and
  `forTracksWhere_of_one` that an update reaches no others. `startSequence_attrs` puts the
  start and the update together.
-/
import SoundSequencer.Proofs.Disassembly
import SoundSequencer.Proofs.HeldNotes
import SoundSequencer.Proofs.OneTrack
import SoundSequencer.Proofs.Seats
import SoundSequencer.Proofs.WellFormed

namespace SoundSequencer

/-- The same way to start a sequence, but with the settings of the headers. -/
def StartOptions.plain (options : StartOptions) : StartOptions := { options with attrs := {} }

/-- What a caller finds a slot by. -/
def Slot.claim (s : Slot) := (s.active, s.tag)

/-! ## One track -/

namespace Track

/-- The track with the settings that a caller gives, those of its voices as well. -/
def revised (t : Track) (attrs : PlayAttrs) : Track :=
  { t with
    pan := if attrs.mask.pan then attrs.pan else t.pan
    volume := if attrs.mask.volume then attrs.volume else t.volume
    pitch := if attrs.mask.pitch then attrs.pitch else t.pitch }.override attrs

theorem voicesActive_revised (t : Track) (attrs : PlayAttrs) :
    (t.revised attrs).voicesActive = t.voicesActive := by
  unfold revised override
  dsimp only
  split <;> split <;> rfl

/-- Where nothing is given, nothing changes. -/
theorem revised_of_isEmpty {attrs : PlayAttrs} (h : attrs.mask.isEmpty = true) (t : Track) :
    t.revised attrs = t := by
  have hmask : attrs.mask = {} := by simpa [PlayMask.isEmpty] using h
  simp [revised, override, hmask]

/-- The track in its place at the start of a stream. -/
def seated (t : Track) (handled : Bool) (slot sequence position : Nat) (delta : UInt32)
    (pc : Nat) : Track :=
  { t with
    flags := { t.flags with handled := handled, stopped := handled }
    slot, sequence, position, delta, pc }

/-- To start with the settings of a caller is to start as the header says and to be revised
then. -/
theorem start_seated (t : Track) (header : TrackHeader) (attrs : PlayAttrs) (handled : Bool)
    (slot sequence position : Nat) (delta : UInt32) (pc : Nat) :
    (t.start header attrs).seated handled slot sequence position delta pc =
      ((t.start header {}).seated handled slot sequence position delta pc).revised attrs := by
  have hmuted : attrs.mutes header.muteGroups =
      if attrs.mask.mute then attrs.mutes header.muteGroups else false := by
    unfold PlayAttrs.mutes
    cases attrs.mask.mute <;> rfl
  unfold revised override seated start retime setTempo endIn retime
  dsimp only
  -- that the advance per tick is computed twice makes no difference
  generalize partsPerInterrupt ticksPerSecond = parts
  rw [hmuted]
  cases attrs.mask.tempo <;> cases attrs.mask.timed <;>
    simp only [Bool.false_eq_true, if_false, if_true] <;> rfl

end Track

namespace Engine

variable {σ : Type}

/-! ## An update of a track without voices -/

/-- A change that is not made is one that changes nothing. -/
theorem ite_modifyTrack (given : Bool) (e : Engine σ) (i : Nat) (f : Track → Track) :
    (if given then e.modifyTrack i f else e) =
      e.modifyTrack i fun t => if given then f t else t := by
  cases given with
  | true => rfl
  | false => exact (modifyTrack_of_eq rfl).symm

section Quiet

variable [SoundChip σ] {e : Engine σ} {i : Nat}

omit [SoundChip σ] in
theorem quiet_modifyTrack {f : Track → Track} (hf : ∀ t, (f t).voicesActive = t.voicesActive)
    (h : (e.track i).voicesActive = 0) (j : Nat) :
    ((e.modifyTrack j f).track i).voicesActive = 0 := by
  rw [track_modifyTrack]
  split
  · exact (hf _).trans h
  · exact h

theorem pushLevels_of_quiet (h : (e.track i).voicesActive = 0) : e.pushLevels i = e := if_pos h

theorem volumeMod_of_quiet (h : (e.track i).voicesActive = 0) (volume : UInt8) :
    e.driverCommand i (.volumeMod volume) = e.modifyTrack i fun t => { t with volume } := by
  have hquiet := quiet_modifyTrack (f := fun t => { t with volume }) (fun _ => rfl) h i
  unfold driverCommand
  cases (e.track i).driver with
  | silent => rfl
  | voices => exact pushLevels_of_quiet hquiet

theorem panMod_of_quiet (h : (e.track i).voicesActive = 0) (pan : UInt8) :
    e.driverCommand i (.panMod pan) = e.modifyTrack i fun t => { t with pan } := by
  have hquiet := quiet_modifyTrack (f := fun t => { t with pan }) (fun _ => rfl) h i
  unfold driverCommand
  cases (e.track i).driver with
  | silent => rfl
  | voices =>
    show (if _ then _ else _) = _
    split
    · rfl
    · exact pushLevels_of_quiet hquiet

theorem pitchMod_of_quiet (h : (e.track i).voicesActive = 0) (pitch : Int16) :
    e.driverCommand i (.pitchMod pitch) = e.modifyTrack i fun t => { t with pitch } := by
  have hquiet := quiet_modifyTrack (f := fun t => { t with pitch }) (fun _ => rfl) h i
  have hpitch := Command.argumentsKept.pitchMod pitch
  unfold driverCommand
  cases (e.track i).driver with
  | silent =>
    show e.modifyTrack i (fun t => { t with pitch := (Command.pitchMod pitch).signedWord 1 }) = _
    rw [hpitch]
  | voices =>
    show e.bendPitch i ((Command.pitchMod pitch).signedWord 1) = _
    rw [hpitch, bendPitch]
    split
    · next hsame => exact (modifyTrack_of_eq (by rw [← hsame])).symm
    · exact if_pos hquiet

/-- To a track without voices the commands by which an update gives a volume, a pan and a
pitch are plain writes, whatever its driver. -/
theorem updateTrack_of_quiet (h : (e.track i).voicesActive = 0) (attrs : PlayAttrs) :
    e.updateTrack i attrs = e.modifyTrack i (·.revised attrs) := by
  unfold updateTrack
  extract_lets mask panned levelled bent
  have hpanned : panned =
      e.modifyTrack i fun t => if mask.pan then { t with pan := attrs.pan } else t :=
    ite_modifyTrack mask.pan e i _
  have hquiet : (panned.track i).voicesActive = 0 := by
    rw [hpanned]
    exact quiet_modifyTrack (fun t => by split <;> rfl) h i
  -- the pan is there already, so to give it once more changes nothing
  have hagain : (if mask.pan then panned.driverCommand i (.panMod attrs.pan) else panned) =
      panned := by
    split
    · next hgiven =>
      rw [panMod_of_quiet hquiet, hpanned, modifyTrack_modifyTrack]
      simp only [hgiven, if_true]
    · rfl
  have hlevelled : levelled =
      panned.modifyTrack i fun t => if mask.volume then { t with volume := attrs.volume }
        else t := by
    rw [← ite_modifyTrack, ← volumeMod_of_quiet hquiet]
    exact congrArg (ite _ _) hagain
  have hquiet' : (levelled.track i).voicesActive = 0 := by
    rw [hlevelled]
    exact quiet_modifyTrack (fun t => by split <;> rfl) hquiet i
  have hbent : bent =
      levelled.modifyTrack i fun t => if mask.pitch then { t with pitch := attrs.pitch }
        else t := by
    rw [← ite_modifyTrack, ← pitchMod_of_quiet hquiet']
  rw [hbent, hlevelled, hpanned]
  simp only [modifyTrack_modifyTrack]
  refine modifyTrack_congr ?_
  unfold Track.revised
  dsimp only [mask]
  cases attrs.mask.pan <;> cases attrs.mask.volume <;> cases attrs.mask.pitch <;> rfl

/-- An update of tracks that have no voices. -/
theorem foldl_updateTrack_of_quiet (attrs : PlayAttrs) : ∀ {l : List Nat} {e : Engine σ},
    (∀ i ∈ l, (e.track i).voicesActive = 0) →
      l.foldl (fun e i => e.updateTrack i attrs) e =
        l.foldl (fun e i => e.modifyTrack i (·.revised attrs)) e
  | [], _, _ => rfl
  | i :: l, e, h => by
    rw [List.foldl_cons, List.foldl_cons, updateTrack_of_quiet (h i List.mem_cons_self)]
    refine foldl_updateTrack_of_quiet attrs fun j hj => ?_
    exact quiet_modifyTrack (·.voicesActive_revised attrs) (h j (List.mem_cons_of_mem i hj)) i

end Quiet

/-! ## Starts and updates of several tracks -/

/-- The order in which different tracks change does not matter. -/
theorem foldl_modifyTrack_congr {l l' : List Nat} (hl : l.Nodup) (hl' : l'.Nodup)
    (h : ∀ i, i ∈ l ↔ i ∈ l') (f : Track → Track) (e : Engine σ) :
    l.foldl (fun e i => e.modifyTrack i f) e = l'.foldl (fun e i => e.modifyTrack i f) e := by
  refine ((List.perm_ext_iff_of_nodup hl hl').mpr h).foldl_eq' (fun i _ j _ e => ?_) e
  by_cases hij : i = j
  · rw [hij]
  · exact modifyTrack_comm e hij f f

section Starts

variable {slot sequence : Nat} {options : StartOptions}

/-- The engine with track `i` on a slot. -/
def board (e : Engine σ) (slot i position : Nat) (waits : Bool) : Engine σ :=
  { e.modifySlot slot (·.withTrack position i waits) with tracksActive := e.tracksActive + 1 }

theorem board_modifyTrack (e : Engine σ) (i j position : Nat) (f : Track → Track)
    (waits : Bool) : (e.modifyTrack j f).board slot i position waits =
      (e.board slot i position waits).modifyTrack j f := rfl

/-- A track takes its place and its slot takes it in. -/
theorem startTrack_eq {e : Engine σ} {position : Nat} {stream : TrackStream}
    (h : e.module.track? sequence position = some stream) (i : Nat) :
    e.startTrack slot sequence options i position =
      (e.modifyTrack i fun t => (t.start stream.header options.attrs).seated options.handled slot
        sequence position ((stream.event? 0).getD (0, 0)).1 ((stream.event? 0).getD (0, 0)).2).board
          slot i position options.handled := by
  unfold startTrack
  rw [h]
  rfl

/-- A track that starts leaves it to the others to change. -/
theorem startTrack_modifyTrack (e : Engine σ) (position : Nat) {i j : Nat} (hij : i ≠ j)
    (f : Track → Track) :
    (e.modifyTrack j f).startTrack slot sequence options i position =
      (e.startTrack slot sequence options i position).modifyTrack j f := by
  cases hstream : e.module.track? sequence position with
  | none =>
    have hmodule : (e.modifyTrack j f).module = e.module := rfl
    unfold startTrack
    rw [hmodule, hstream]
  | some stream =>
    rw [startTrack_eq hstream, @startTrack_eq _ _ _ _ (e.modifyTrack j f) _ _ hstream,
      modifyTrack_comm e hij.symm, board_modifyTrack]

/-- A track that starts with settings might be given them when it has started. -/
theorem startTrack_attrs {e : Engine σ} {position : Nat}
    (h : (e.module.track? sequence position).isSome = true) (i : Nat) :
    e.startTrack slot sequence options i position =
      (e.startTrack slot sequence options.plain i position).modifyTrack i
        (·.revised options.attrs) := by
  obtain ⟨stream, hstream⟩ := Option.isSome_iff_exists.mp h
  rw [startTrack_eq hstream, startTrack_eq hstream, ← board_modifyTrack, modifyTrack_modifyTrack]
  exact congrArg (board · slot i position options.handled)
    (modifyTrack_congr (Track.start_seated _ _ _ _ _ _ _ _ _))

theorem foldl_startTrack_modifyTrack {i : Nat} (f : Track → Track) :
    ∀ {l : List (Nat × Nat)} {e : Engine σ}, i ∉ l.map Prod.fst →
      l.foldl (fun e p => e.startTrack slot sequence options p.1 p.2) (e.modifyTrack i f) =
        (l.foldl (fun e p => e.startTrack slot sequence options p.1 p.2) e).modifyTrack i f
  | [], _, _ => rfl
  | p :: l, e, hi => by
    rw [List.map_cons, List.mem_cons, not_or] at hi
    rw [List.foldl_cons, List.foldl_cons,
      startTrack_modifyTrack e p.2 (Ne.symm hi.1),
      foldl_startTrack_modifyTrack f hi.2]

/-- Different tracks that start with settings might all be given them when they have all
started. -/
theorem foldl_startTrack_attrs (slot sequence : Nat) (options : StartOptions) :
    ∀ {l : List (Nat × Nat)} {e : Engine σ},
    (∀ p ∈ l, (e.module.track? sequence p.2).isSome = true) → (l.map Prod.fst).Nodup →
      l.foldl (fun e p => e.startTrack slot sequence options p.1 p.2) e =
        (l.map Prod.fst).foldl (fun e i => e.modifyTrack i (·.revised options.attrs))
          (l.foldl (fun e p => e.startTrack slot sequence options.plain p.1 p.2) e)
  | [], _, _, _ => rfl
  | p :: l, e, hstreams, hl => by
    obtain ⟨hnot, hrest⟩ := List.nodup_cons.mp hl
    have hstream := hstreams p List.mem_cons_self
    have hmodule := (startTrack_frame hstream slot options.plain p.1).1
    rw [List.map_cons, List.foldl_cons, List.foldl_cons, List.foldl_cons,
      startTrack_attrs hstream, ← foldl_startTrack_modifyTrack _ hnot]
    refine foldl_startTrack_attrs slot sequence options (fun q hq => ?_) hrest
    show ((e.startTrack slot sequence options.plain p.1 p.2).module.track? sequence q.2).isSome =
      true
    rw [hmodule]
    exact hstreams q (List.mem_cons_of_mem p hq)

end Starts

/-! ## The tracks that an update reaches -/

section Where

variable {e : Engine σ} {q : Slot → Bool} {f : Engine σ → Nat → Engine σ}

/-- A command that is for no slot does nothing. -/
theorem forTracksWhere_of_none (h : ∀ s, (e.slot s).active = true → q (e.slot s) = false) :
    e.forTracksWhere q f = e := by
  refine foldl_idle fun s _ => if_neg ?_
  rw [Bool.and_eq_true]
  rintro ⟨hactive, hq⟩
  exact Bool.false_ne_true ((h s hactive).symm.trans hq)

/-- A command that is for one slot, and leaves the slots as they are. -/
theorem forTracksWhere_of_one {slot : Nat} (hactive : (e.slot slot).active = true)
    (hq : q (e.slot slot) = true)
    (hother : ∀ s, slot ≠ s → (e.slot s).active = true → q (e.slot s) = false)
    (hslots : ∀ s, (e.forTracksOf slot f).slot s = e.slot s) :
    e.forTracksWhere q f = e.forTracksOf slot f := by
  have hidle : ∀ s, slot ≠ s → ¬((e.slot s).active && q (e.slot s)) = true := by
    intro s hs hboth
    rw [Bool.and_eq_true] at hboth
    exact Bool.false_ne_true ((hother s hs hboth.1).symm.trans hboth.2)
  have hmem : slot ∈ e.slotIds := List.mem_range.mpr (lt_size_of_active hactive)
  obtain ⟨before, after, hids⟩ := List.append_of_mem hmem
  have hnodup : (before ++ slot :: after).Nodup := hids ▸ List.nodup_range
  rw [List.nodup_append] at hnodup
  obtain ⟨-, hafter, hbefore⟩ := hnodup
  unfold forTracksWhere
  rw [hids, List.foldl_append, List.foldl_cons,
    foldl_idle fun s hs => if_neg (hidle s (hbefore s hs slot List.mem_cons_self).symm),
    if_pos (by rw [hactive, hq]; rfl)]
  refine foldl_idle fun s hs => if_neg ?_
  rw [hslots]
  exact hidle s fun heq => (List.nodup_cons.mp hafter).1 (heq ▸ hs)

end Where

/-! ## A sequence that starts -/

theorem Fits.mem_trackIds {e : Engine σ} {slot sequence i position : Nat}
    (h : e.Fits slot sequence i position) (options : StartOptions) (j : Nat) :
    j ∈ ((e.startTrack slot sequence options i position).slot slot).trackIds ↔
      j = i ∨ j ∈ (e.slot slot).trackIds := by
  simp only [Slot.mem_trackIds, h.entry options, true_and]
  constructor
  · rintro ⟨p, ⟨-, rfl⟩ | hp⟩
    · exact .inl rfl
    · exact .inr ⟨p, hp⟩
  · rintro (rfl | ⟨p, hp⟩)
    · exact ⟨position, .inl ⟨rfl, rfl⟩⟩
    · exact ⟨p, .inr hp⟩

/-- Of the tracks `all` that a slot is to have, those in `rest` are still to come; the others
are there and have no voices. -/
structure Joined (slot : Nat) (all rest : List Nat) (e : Engine σ) : Prop where
  listed : ∀ i, i ∈ all ↔ i ∈ (e.slot slot).trackIds ∨ i ∈ rest
  quiet : ∀ i ∈ (e.slot slot).trackIds, (e.track i).voicesActive = 0

theorem Joined.startTrack {e : Engine σ} {slot sequence i position : Nat} {all rest : List Nat}
    (h : Joined slot all (i :: rest) e) (hplaced : e.Placed)
    (hfits : e.Fits slot sequence i position) (options : StartOptions) :
    Joined slot all rest (e.startTrack slot sequence options i position) := by
  constructor
  case listed =>
    intro j
    rw [h.listed, hfits.mem_trackIds options, List.mem_cons, or_assoc, or_left_comm]
  case quiet =>
    intro j hj
    obtain ⟨t, -, -, -, -, hquiet, -, -, -, hread⟩ :=
      track_startTrack e slot sequence options i position
    rcases (hfits.mem_trackIds options j).mp hj with rfl | hold
    · rw [hread, if_pos ⟨hfits.stream, rfl, hfits.lt⟩]
      exact hquiet
    · obtain ⟨p, hp⟩ := Slot.mem_trackIds.mp hold
      rw [track_startTrack_of_ne e slot sequence options position (hfits.ne_of_entry hplaced hp)]
      exact h.quiet j hold

/-- The tracks of a sequence that has started are those that it was given. -/
theorem Filling.joined {slot sequence total : Nat} {options : StartOptions}
    {l : List (Nat × Nat)} {e : Engine σ} (h : Filling slot sequence options total l e)
    (hempty : ∀ p, (e.slot slot).entry p = none) :
    Filling slot sequence options total []
        (l.foldl (fun e p => e.startTrack slot sequence options p.1 p.2) e) ∧
      Joined slot (l.map Prod.fst) []
        (l.foldl (fun e p => e.startTrack slot sequence options p.1 p.2) e) := by
  have hnone : ∀ i, i ∉ (e.slot slot).trackIds := by
    intro i hi
    obtain ⟨p, hp⟩ := Slot.mem_trackIds.mp hi
    exact nomatch (hempty p).symm.trans hp
  exact foldl_keeps (f := fun e p => e.startTrack slot sequence options p.1 p.2)
    (fun rest e => Filling slot sequence options total rest e ∧
      Joined slot (l.map Prod.fst) (rest.map Prod.fst) e)
    (fun p rest e h => by
      obtain ⟨hfilling, hjoined⟩ := h
      exact ⟨hfilling.startTrack,
        hjoined.startTrack hfilling.placed (hfilling.fits p List.mem_cons_self) options⟩)
    l e ⟨h, ⟨fun i => ⟨.inr, fun hi => hi.resolve_left (hnone i)⟩,
      fun i hi => absurd hi (hnone i)⟩⟩

/-- Tracks that start leave the module, and the slots in use under their tags. -/
theorem foldl_startTrack_frame (slot sequence : Nat) (options : StartOptions)
    (l : List (Nat × Nat)) (e : Engine σ) :
    (l.foldl (fun e p => e.startTrack slot sequence options p.1 p.2) e).module = e.module ∧
      ∀ s, ((l.foldl (fun e p => e.startTrack slot sequence options p.1 p.2) e).slot s).claim =
        (e.slot s).claim := by
  refine foldl_relates (r := fun e e' : Engine σ => e'.module = e.module ∧
      ∀ s, (e'.slot s).claim = (e.slot s).claim) (fun _ => ⟨rfl, fun _ => rfl⟩)
    (fun _ _ _ h h' => ⟨h'.1.trans h.1, fun s => (h'.2 s).trans (h.2 s)⟩)
    (fun e p => ⟨module_startTrack e slot sequence options p.1 p.2, fun s => ?_⟩) l e
  cases hstream : e.module.track? sequence p.2 with
  | none =>
    unfold Engine.startTrack
    rw [hstream]
  | some stream =>
    rw [slot_startTrack (Option.isSome_iff_exists.mpr ⟨stream, hstream⟩)]
    split <;> rfl

section Tagged

variable [SoundChip σ] {e : Engine σ} {tag : UInt32} {attrs : PlayAttrs}

/-- An update under a tag that no slot has changes nothing. -/
theorem updateTagged_of_none (h : ∀ s, (e.slot s).active = true → (e.slot s).tag ≠ tag) :
    e.updateTagged tag attrs = e := by
  unfold updateTagged
  split
  · rfl
  · exact forTracksWhere_of_none fun s hs => beq_false_of_ne (h s hs)

/-- An update under a tag that one slot has is one of the tracks of that slot, if they have
no voices. -/
theorem updateTagged_of_one {slot : Nat} (hclaim : (e.slot slot).claim = (true, tag))
    (hother : ∀ s, slot ≠ s → (e.slot s).active = true → (e.slot s).tag ≠ tag)
    (hquiet : ∀ i ∈ (e.slot slot).trackList, (e.track i).voicesActive = 0) :
    e.updateTagged tag attrs =
      (e.slot slot).trackList.foldl (fun e i => e.modifyTrack i (·.revised attrs)) e := by
  have hrevised := foldl_updateTrack_of_quiet attrs hquiet
  simp only [Slot.claim, Prod.mk.injEq] at hclaim
  unfold updateTagged
  split
  · next hempty =>
    refine (foldl_idle fun i _ => ?_).symm
    exact modifyTrack_of_eq (Track.revised_of_isEmpty hempty _)
  · refine (forTracksWhere_of_one (q := fun s => s.tag == tag) hclaim.1
      (beq_iff_eq.mpr hclaim.2) (fun s hs hactive => beq_false_of_ne (hother s hs hactive))
      fun s => ?_).trans hrevised
    refine (congrArg (·.slot s) hrevised).trans ?_
    exact foldl_relates (r := fun e e' : Engine σ => e'.slot s = e.slot s)
      (f := fun e i => e.modifyTrack i (·.revised attrs)) (fun _ => rfl)
      (fun _ _ _ h h' => h'.trans h) (fun _ _ => rfl) _ e

/-- An update under the tag of a sequence that has just started is one of all the tracks that
it was given. -/
theorem Joined.updateTagged {slot : Nat} {all : List Nat} (h : Joined slot all [] e)
    (hplaced : e.Placed) (hwide : e.module.widestSequence ≤ maxTracksPerSequence)
    (hall : all.Nodup) (hclaim : (e.slot slot).claim = (true, tag))
    (hother : ∀ s, slot ≠ s → (e.slot s).active = true → (e.slot s).tag ≠ tag) :
    e.updateTagged tag attrs = all.foldl (fun e i => e.modifyTrack i (·.revised attrs)) e := by
  have hlist := hplaced.trackList_eq hwide (congrArg Prod.fst hclaim)
  rw [updateTagged_of_one hclaim hother fun i hi => h.quiet i (hlist ▸ hi)]
  refine foldl_modifyTrack_congr (hplaced.nodup_trackList slot) hall (fun i => ?_) _ e
  rw [h.listed, hlist]
  simp only [List.not_mem_nil, or_false]

/-- To start with settings is to start without and to give the settings to what answers
then to the tag of the caller. -/
theorem startSequence_attrs (h : e.PoolsAgree)
    (hwide : e.module.widestSequence ≤ maxTracksPerSequence) (options : StartOptions)
    (hfree : ∀ s, (e.slot s).active = true → (e.slot s).tag ≠ options.tag) (sequence : Nat) :
    e.startSequence sequence options =
      ((e.startSequence sequence options.plain).1,
        (e.startSequence sequence options.plain).2.updateTagged options.tag options.attrs) := by
  rcases startSequence_cases e sequence with
    ⟨flaw, heq⟩ | ⟨streams, slot, hstreams, hlt, hidle, ⟨flaw, heq⟩ | ⟨htaken, heq⟩⟩
  · rw [heq, heq, updateTagged_of_none hfree]
  · rw [heq, heq, updateTagged_of_none fun s hs => ?_]
    rw [slot_clearSlot hlt] at hs ⊢
    split at hs
    · next hslot =>
      subst hslot
      exact absurd hs (Bool.eq_false_iff.mp hidle)
    · next hslot =>
      rw [if_neg hslot]
      exact hfree s hs
  · rw [heq, heq]
    have hopen := h.openSlot hlt hidle hstreams options.plain
    obtain ⟨hfilling, hjoined⟩ := hopen.joined (resets_openSlot hlt sequence options.plain).empty
    obtain ⟨hmodule, hclaim⟩ := foldl_startTrack_frame slot sequence options.plain
      (e.freeTracks.take streams.size).zipIdx
      ((e.modifySlot slot Slot.cleared).openSlot slot sequence options.plain)
    simp only [slot_openSlot hlt] at hclaim
    have hstarts := foldl_startTrack_attrs slot sequence options
      (fun p hp => (hopen.fits p hp).stream) hopen.tracks
    refine congrArg (Prod.mk _) (hstarts.trans (hjoined.updateTagged hfilling.placed
      (by rw [hmodule]; exact hwide) hopen.tracks ?_ fun s hs hactive => ?_).symm)
    · rw [hclaim, if_pos rfl]
      rfl
    · have hsame := hclaim s
      rw [if_neg hs] at hsame
      simp only [Slot.claim, Prod.mk.injEq] at hsame
      rw [hsame.2]
      exact hfree s (hsame.1.symm.trans hactive)

/-- Settings that are given with the start of a sequence, under a tag that no sequence has
yet, might as well be given right after it: the answer is the same and so is everything in
the engine, whatever is given, and also where the start is refused or finds too few tracks. -/
theorem triggerWith_eq_updateTagged (h : e.PoolsAgree)
    (hwide : e.module.widestSequence ≤ maxTracksPerSequence)
    (hfree : ∀ s, (e.slot s).active = true → (e.slot s).tag ≠ tag) (sequence : Nat)
    (attrs : PlayAttrs) :
    e.triggerWith sequence tag attrs =
      ((e.triggerWith sequence tag {}).1,
        (e.triggerWith sequence tag {}).2.updateTagged tag attrs) :=
  startSequence_attrs h hwide { tag, attrs } hfree sequence

end Tagged

end Engine

open Engine

/-- A module of one sequence for both drivers, for an engine that has tracks for half of it
when it plays already. -/
def trio : SoundModule :=
  { solo [] with
    limits := { sequences := 2, tracks := 5, voices := 1 }
    sequences := #[#[TrackHeader.plays {} [(0, .noteOn 60 100), (1000, .trackEnd)],
      TrackHeader.plays { driver := .silent, muteGroups := 8 } [(1000, .trackEnd)],
      TrackHeader.plays {} [(1000, .trackEnd)]]] }

/-- All settings at once. -/
def allSettings : PlayAttrs :=
  (((((((({} : PlayAttrs).withVolume 90).withPan 20).withPatch 0).withPitch (-300)).withMuteGroup
    3).withTempo 90).withPlaytime 500).asLooped.withReverb 5

/-- The engine in which a sequence plays. -/
def Engine.underWay (e : Engine RecorderChip) : Engine RecorderChip :=
  (Session.run { engine := e } [.start 0 {}, .tick]).engine

/-- A sequence starts beside itself with all settings, on two of its three tracks. -/
theorem triggerWith_eq_updateTagged_trio : ∃ e : Engine RecorderChip,
    Engine.make trio {} = .ok e ∧ e.underWay.voices.active = 1 ∧
      (e.underWay.triggerWith 0 7 allSettings).1 = .ok 1 ∧
      ((e.underWay.triggerWith 0 7 allSettings).2.slot 1).trackList = [3, 4] ∧
      e.underWay.triggerWith 0 7 allSettings =
        ((e.underWay.triggerWith 0 7 {}).1,
          (e.underWay.triggerWith 0 7 {}).2.updateTagged 7 allSettings) := by
  obtain ⟨e, hmake, hsounds, hstarts, htracks, hwide, hfree⟩ : ∃ e : Engine RecorderChip,
      Engine.make trio {} = .ok e ∧ e.underWay.voices.active = 1 ∧
        (e.underWay.triggerWith 0 7 allSettings).1 = .ok 1 ∧
        ((e.underWay.triggerWith 0 7 allSettings).2.slot 1).trackList = [3, 4] ∧
        e.underWay.module.widestSequence ≤ maxTracksPerSequence ∧
        ∀ s < e.underWay.slots.size, (e.underWay.slot s).active = true →
          (e.underWay.slot s).tag ≠ 7 :=
    exists_make (by decide +kernel)
  have hform : e.underWay.WellFormed := (@wellFormed_throughout _ _ _ _ _ hmake
    [.start 0 {}, .tick] ⟨trivial, trivial, trivial⟩).last
  exact ⟨e, hmake, hsounds, hstarts, htracks, triggerWith_eq_updateTagged hform.agree hwide
    (fun s hs => hfree s (lt_size_of_active hs) hs) 0 allSettings⟩

end SoundSequencer
