/-
SoundSequencer.Proofs.MachineStarts — starting a sequence on a machine.

* Between two calls a slot answers for just the tracks that it lists. `firm_make` says
  that a new engine is firm in this sense.
* `Engine.Boarding` is what holds while the tracks of a sequence start: the slot has
  room for all that are still to come, whether they play or wait.
* `Machine.startSequence_eq`: on a firm engine the machine starts a sequence, or refuses
  to, as the engine does.
-/
import Mathlib.Data.List.Perm.Subperm
import SoundSequencer.Proofs.MachineTracks

namespace SoundSequencer

/-- A list of different tracks of a slot is no longer than the slot is wide. -/
theorem Slot.length_le {s : Slot} {l : List Nat} (hl : l.Nodup) (hall : ∀ i ∈ l, i ∈ s.trackIds) :
    l.length ≤ s.tracks.size := by
  refine Nat.le_trans (List.subperm_of_subset hl hall).length_le ?_
  rw [← Array.length_toList]
  exact List.length_filterMap_le _ _

namespace Engine

variable {σ : Type} {e : Engine σ}

/-! ## Between two calls -/

/-- Where every slot has room for the tracks that it lists, it can answer for them. -/
theorem Paced.of_seated (h : e.Seated)
    (hroom : ∀ s (l : List Nat), l.Nodup → (∀ i ∈ l, e.listed s i) →
      (e.slot s).tracksPlaying + e.pausedOf l ≤ (e.slot s).tracks.size) : Paced e.listed e where
  lists _ _ := id
  home _ _ hi := (h.of_mem hi).2
  lt_size _ _ hi := h.lt_size hi
  length _ _ := Slot.length_le
  room := hroom

theorem eq_nil_of_listed {s : Nat} (hempty : ∀ p, (e.slot s).entry p = none) {l : List Nat}
    (hall : ∀ i ∈ l, e.listed s i) : l = [] := by
  refine List.eq_nil_iff_forall_not_mem.mpr fun i hi => ?_
  obtain ⟨p, hp⟩ := Slot.mem_trackIds.mp (hall i hi)
  rw [hempty] at hp
  cases hp

/-- A slot may be emptied. -/
theorem Firm.clearSlot (h : Firm e.listed e) {slot : Nat} (hslot : slot < e.slots.size) :
    Firm (e.modifySlot slot Slot.cleared).listed (e.modifySlot slot Slot.cleared) := by
  have hreset := resets_clearSlot hslot
  have hactive : ∀ s, ((e.modifySlot slot Slot.cleared).slot s).active = (e.slot s).active := by
    intro s
    rw [slot_clearSlot hslot]
    split <;> rfl
  refine {
    seated := hreset.seated h.seated
    manned := h.manned.of_voices rfl rfl
    tallied := ⟨h.tallied.tracks, ?slots⟩
    paced := .of_seated (hreset.seated h.seated) fun s l hl hall => ?room
    steady := h.steady.kept (kept_modifySlot e slot _) }
  case slots =>
    simp only [hactive, hreset.slots_size]
    exact h.tallied.slots
  case room =>
    by_cases hs : slot = s
    · subst hs
      rw [eq_nil_of_listed hreset.empty hall, hreset.tracksPlaying]
      exact Nat.zero_le _
    · unfold listed at hall
      rw [hreset.other s hs] at hall ⊢
      exact h.paced.room s l hl hall

/-! ## Tracks that start -/

/-- What holds of every track and of the one that is new. -/
theorem good_track_modifyTrack {good : Track → Prop} (h : ∀ j, good (e.track j)) {i : Nat}
    {f : Track → Track} (hf : good (f (e.track i))) (j : Nat) :
    good ((e.modifyTrack i f).track j) := by
  rw [track_modifyTrack]
  split
  · next hj =>
    rw [← hj.1]
    exact hf
  · exact h j

/-- A track that starts is where byte code can be, and its voices are few. -/
theorem bounds_startTrack (h : e.Steady) (slot sequence : Nat) (options : StartOptions)
    (i position j : Nat) :
    ((e.startTrack slot sequence options i position).track j).maxVoices < 2 ^ 8 ∧
      ((e.startTrack slot sequence options i position).track j).pc < 2 ^ 63 := by
  have hold : ∀ j, (e.track j).maxVoices < 2 ^ 8 ∧ (e.track j).pc < 2 ^ 63 :=
    fun j => ⟨h.maxVoices_lt j, h.pc_lt j⟩
  unfold startTrack
  cases hstream : e.module.track? sequence position with
  | none => exact hold j
  | some stream =>
    have hsize := h.memory.size_lt hstream
    have hpc : ((stream.event? 0).getD (0, 0)).2 < 2 ^ 63 := by
      cases hevent : stream.event? 0 with
      | none => decide
      | some event => exact Nat.lt_of_le_of_lt (Machine.pc_le_of_event? hevent) hsize
    have hmax : ∀ t : Track, (t.start stream.header options.attrs).maxVoices < 2 ^ 8 := by
      intro t
      have hheader := stream.header.maxVoices.toNat_lt
      unfold Track.start
      dsimp only
      split <;> exact hheader
    refine @good_track_modifyTrack σ e (fun t => t.maxVoices < 2 ^ 8 ∧ t.pc < 2 ^ 63) hold i _ ?_ j
    exact ⟨hmax _, hpc⟩

theorem panel_startTrack (e : Engine σ) (slot sequence : Nat) (options : StartOptions)
    (i position : Nat) : (e.startTrack slot sequence options i position).panel = e.panel := by
  unfold startTrack
  split <;> rfl

/-- A free slot on which tracks start, with pool entries and positions that are still to
come. -/
structure Boarding (home sequence : Nat) (rest : List (Nat × Nat)) (e : Engine σ) : Prop
    extends Seats home sequence rest e where
  firm : Firm e.listed e
  free : (e.slot home).active = false
  counted : (e.slot home).tracksActive + rest.length ≤ (e.slot home).tracks.size
  room : ∀ l : List Nat, l.Nodup → (∀ i ∈ l, e.listed home i) →
    (e.slot home).tracksPlaying + e.pausedOf l + rest.length ≤ (e.slot home).tracks.size

namespace Boarding

variable {home sequence : Nat} {p : Nat × Nat} {rest : List (Nat × Nat)}

theorem slot_self (h : Boarding home sequence (p :: rest) e) (options : StartOptions) :
    (e.startTrack home sequence options p.1 p.2).slot home =
      (e.slot home).withTrack p.2 p.1 options.handled := by
  rw [slot_startTrack (h.stream p List.mem_cons_self).1, if_pos ⟨rfl, h.slot⟩]

theorem slot_of_ne (h : Boarding home sequence (p :: rest) e) (options : StartOptions) {s : Nat}
    (hs : home ≠ s) : (e.startTrack home sequence options p.1 p.2).slot s = e.slot s := by
  rw [slot_startTrack (h.stream p List.mem_cons_self).1, if_neg fun hp => hs hp.1]

theorem track_self (h : Boarding home sequence (p :: rest) e) (options : StartOptions) :
    ((e.startTrack home sequence options p.1 p.2).track p.1).isActive = true ∧
      ((e.startTrack home sequence options p.1 p.2).track p.1).isStopped = options.handled := by
  obtain ⟨t, hactive, hstopped, -, -, -, -, -, -, hread⟩ :=
    track_startTrack e home sequence options p.1 p.2
  rw [hread, if_pos ⟨(h.stream p List.mem_cons_self).1, rfl, (h.idle p List.mem_cons_self).1⟩]
  exact ⟨hactive, hstopped⟩

/-- The slot lists one track more. -/
theorem listed_startTrack (h : Boarding home sequence (p :: rest) e) (options : StartOptions)
    {i : Nat} (hi : (e.startTrack home sequence options p.1 p.2).listed home i) (hne : i ≠ p.1) :
    e.listed home i := by
  have hwithin : p.2 < (e.slot home).tracks.size := by
    rw [h.seated.wide home h.slot]
    exact (h.stream p List.mem_cons_self).2
  unfold listed at hi
  obtain ⟨q, hq⟩ := Slot.mem_trackIds.mp hi
  rw [h.slot_self, Slot.entry_withTrack hwithin] at hq
  split at hq
  · exact absurd (Option.some.inj hq).symm hne
  · exact Slot.mem_trackIds.mpr ⟨q, hq⟩

/-- Of the tracks of the slot, one more plays or waits. -/
theorem room_startTrack (h : Boarding home sequence (p :: rest) e) (options : StartOptions)
    {l : List Nat} (hl : l.Nodup)
    (hall : ∀ i ∈ l, (e.startTrack home sequence options p.1 p.2).listed home i) :
    ((e.startTrack home sequence options p.1 p.2).slot home).tracksPlaying +
        (e.startTrack home sequence options p.1 p.2).pausedOf l + rest.length ≤
      (e.slot home).tracks.size := by
  have hroom := h.room (l.erase p.1) (hl.erase p.1) fun i hi =>
    h.listed_startTrack options (hall i (List.mem_of_mem_erase hi)) (hl.mem_erase_iff.mp hi).1
  have hold : (e.startTrack home sequence options p.1 p.2).pausedOf (l.erase p.1) =
      e.pausedOf (l.erase p.1) := Paced.pausedOf_congr fun i hi => by
    rw [track_startTrack_of_ne e home sequence options p.2 (hl.mem_erase_iff.mp hi).1.symm]
  have hnew : (e.startTrack home sequence options p.1 p.2).pausedOf l ≤
      e.pausedOf (l.erase p.1) + if options.handled then 1 else 0 := by
    by_cases hp : p.1 ∈ l
    · rw [Paced.pausedOf_of_mem _ hp, hold, (h.track_self options).2]
    · rw [List.erase_of_not_mem hp] at hold ⊢
      rw [hold]
      exact Nat.le_add_right _ _
  rw [h.slot_self]
  simp only [Slot.withTrack, List.length_cons] at hroom ⊢
  split at hnew <;> simp_all <;> omega

/-- A track starts on the slot. -/
theorem startTrack (h : Boarding home sequence (p :: rest) e) (options : StartOptions) :
    Boarding home sequence rest (e.startTrack home sequence options p.1 p.2) := by
  have hseats := h.toSeats.startTrack options
  obtain ⟨hstream, -⟩ := h.stream p List.mem_cons_self
  obtain ⟨hlt, hidle⟩ := h.idle p List.mem_cons_self
  obtain ⟨hmodule, htracks, hslots, htotal, hslotsActive⟩ :=
    startTrack_frame hstream home options p.1
  have hpanel := panel_startTrack e home sequence options p.1 p.2
  have hother : ∀ {i}, i ≠ p.1 →
      (e.startTrack home sequence options p.1 p.2).track i = e.track i :=
    fun hi => track_startTrack_of_ne e home sequence options p.2 hi.symm
  have hactive : ∀ s, ((e.startTrack home sequence options p.1 p.2).slot s).active =
      (e.slot s).active := by
    intro s
    rw [slot_startTrack hstream]
    split <;> rfl
  have hwidth : ((e.startTrack home sequence options p.1 p.2).slot home).tracks.size =
      (e.slot home).tracks.size := by rw [h.slot_self, Slot.size_withTrack]
  have hcounted : (e.slot home).tracksActive + 1 + rest.length ≤ (e.slot home).tracks.size := by
    have hcounted := h.counted
    rw [List.length_cons] at hcounted
    omega
  refine {
    toSeats := hseats
    firm := {
      seated := hseats.seated
      manned := h.firm.manned.of_voices htracks (voices_startTrack e home sequence options p.1 p.2)
      tallied := ⟨?tracks, ?slots⟩
      paced := .of_seated hseats.seated fun s l hl hall => ?paced
      steady := h.firm.steady.of_bounds hmodule htracks hslots
        (fun i => (bounds_startTrack h.firm.steady home sequence options p.1 p.2 i).1)
        (fun i => (bounds_startTrack h.firm.steady home sequence options p.1 p.2 i).2) hpanel }
    free := by rw [hactive, h.free]
    counted := by rw [hwidth, h.slot_self]; exact hcounted
    room := fun l hl hall => by rw [hwidth]; exact h.room_startTrack options hl hall }
  case tracks =>
    have hmore := countP_range_add_one (p := fun i => (e.track i).isActive)
      (q := fun i => ((e.startTrack home sequence options p.1 p.2).track i).isActive) hlt hidle
      (h.track_self options).1 fun i hi => by rw [hother hi]
    have htallied := h.firm.tallied.tracks
    rw [htotal, htracks, hmore]
    omega
  case slots =>
    rw [hslotsActive, hslots]
    simp only [hactive]
    exact h.firm.tallied.slots
  case paced =>
    by_cases hs : home = s
    · subst hs
      have hroom := h.room_startTrack options hl hall
      rw [hwidth]
      omega
    · -- the track that starts was on no other slot
      unfold listed at hall
      rw [h.slot_of_ne options hs] at hall ⊢
      have hsame : (e.startTrack home sequence options p.1 p.2).pausedOf l = e.pausedOf l := by
        refine Paced.pausedOf_congr fun i hi => ?_
        have hne : i ≠ p.1 := fun heq =>
          Bool.false_ne_true (hidle.symm.trans (heq ▸ (h.seated.of_mem (hall i hi)).1))
        rw [hother hne]
      rw [hsame]
      exact h.firm.paced.room s l hl hall

/-- With all its tracks, the slot is put in use. -/
theorem openSlot (h : Boarding home sequence [] e) (options : StartOptions) :
    Firm (e.openSlot home sequence options).listed (e.openSlot home sequence options) := by
  have hslot : ∀ s, (e.openSlot home sequence options).slot s =
      if home = s then (e.slot s).opened sequence options else e.slot s := by
    intro s
    refine (slot_modifySlot e home s _).trans ?_
    by_cases hs : home = s
    · rw [if_pos ⟨hs, hs ▸ h.slot⟩, if_pos hs]
    · rw [if_neg fun hp => hs hp.1, if_neg hs]
  have hsize : (e.openSlot home sequence options).slots.size = e.slots.size := by
    simp [Engine.openSlot, modifySlot]
  have hdesk : ∀ s, ((e.openSlot home sequence options).slot s).tracks = (e.slot s).tracks ∧
      ((e.openSlot home sequence options).slot s).tracksPlaying = (e.slot s).tracksPlaying := by
    intro s
    rw [hslot]
    split <;> exact ⟨rfl, rfl⟩
  have hseated : (e.openSlot home sequence options).Seated := by
    refine ⟨fun s p i hp => ?_, fun i => ?_, fun s hs => ?_⟩
    · unfold Slot.entry at hp
      rw [(hdesk s).1] at hp
      exact h.seated.entry s p i hp
    · rw [hsize]
      exact h.seated.home i
    · rw [hsize] at hs
      rw [(hdesk s).1]
      exact h.seated.wide s hs
  refine {
    seated := hseated
    manned := h.firm.manned.of_voices rfl rfl
    tallied := ⟨h.firm.tallied.tracks, ?slots⟩
    paced := .of_seated hseated fun s l hl hall => ?paced
    steady := h.firm.steady.kept ((kept_modifySlot e home (·.opened sequence options)).trans
      (.of_pools rfl rfl rfl rfl)) }
  case slots =>
    have hmore := countP_range_add_one (p := fun s => (e.slot s).active)
      (q := fun s => ((e.openSlot home sequence options).slot s).active) h.slot h.free
      (by rw [hslot, if_pos rfl]; rfl) fun s hs => by rw [hslot, if_neg hs.symm]
    have htallied := h.firm.tallied.slots
    have hcount : (e.openSlot home sequence options).slotsActive = e.slotsActive + 1 := rfl
    rw [hcount, hsize, hmore]
    omega
  case paced =>
    unfold listed Slot.trackIds at hall
    rw [(hdesk s).1] at hall
    rw [(hdesk s).1, (hdesk s).2]
    exact h.firm.paced.room s l hl hall

end Boarding

/-- An empty slot is ready for the tracks of the pool that are free, as many as the
sequence has. -/
theorem boarding_clearSlot (h : Firm e.listed e) {slot sequence : Nat} (hlt : slot < e.slots.size)
    (hunused : (e.slot slot).active = false) {streams : Array TrackStream}
    (hstreams : e.module.sequences[sequence]? = some streams) :
    Boarding slot sequence (e.freeTracks.take streams.size).zipIdx
      (e.modifySlot slot Slot.cleared) := by
  have hreset := resets_clearSlot hlt
  have hlength : (e.freeTracks.take streams.size).zipIdx.length ≤ e.module.widestSequence := by
    rw [List.length_zipIdx, List.length_take]
    exact Nat.le_trans (Nat.min_le_left _ _) (SoundModule.size_le_widestSequence hstreams)
  refine {
    seated := hreset.seated h.seated
    slot := by rw [hreset.slots_size]; exact hlt
    tracks := ?tracks
    idle := fun p hp => ?idle
    stream := fun p hp => ?stream
    firm := h.clearSlot hlt
    free := by rw [slot_clearSlot hlt, if_pos rfl]; exact hunused
    counted := ?counted
    room := fun l _ hall => ?room }
  case tracks =>
    rw [List.zipIdx_map_fst]
    exact (nodup_freeTracks e).sublist (List.take_sublist _ _)
  case idle =>
    exact mem_freeTracks.mp (List.mem_of_mem_take (List.fst_mem_of_mem_zipIdx hp))
  case stream =>
    have hbound := List.snd_lt_of_mem_zipIdx hp
    rw [List.length_take] at hbound
    exact ⟨SoundModule.isSome_track? hstreams (by omega),
      Nat.lt_of_lt_of_le (by omega) (SoundModule.size_le_widestSequence hstreams)⟩
  case counted =>
    rw [hreset.tracksActive, hreset.width, h.seated.wide slot hlt, Nat.zero_add]
    exact hlength
  case room =>
    rw [eq_nil_of_listed hreset.empty hall, hreset.tracksPlaying, hreset.width,
      h.seated.wide slot hlt, Nat.zero_add]
    exact Nat.le_trans (Nat.le_of_eq (Nat.zero_add _)) hlength

/-! ## A new engine -/

/-- What a new engine is made of. -/
theorem parts_make [SoundChip σ] {module : SoundModule} {chip : σ}
    (h : Engine.make module chip = .ok e) :
    module.Accepted ∧ e.module = module ∧ e.voices = VoicePool.ofLimit module.limits.voices.toNat ∧
      e.tracks.size = module.limits.tracks.toNat ∧
      e.slots.size = module.limits.sequences.toNat ∧ e.panel = ({}, {}, {}) ∧
      ∀ s, (e.slot s).tracksPlaying = 0 := by
  unfold Engine.make at h
  split at h
  · cases h
  · next hflaw =>
    cases h
    refine ⟨SoundModule.flaw?_eq_none_iff.mp hflaw, rfl, rfl, by simp, by simp, rfl, fun s => ?_⟩
    by_cases hs : s < module.limits.sequences.toNat
    · simp [slot, Array.getD_eq_getD_getElem?, hs, Slot.ofSizes]
    · simp [slot, Array.getD_eq_getD_getElem?, hs]

/-- A new engine counts no tracks and lists none. -/
theorem firm_make [SoundChip σ] {module : SoundModule} {chip : σ}
    (h : Engine.make module chip = .ok e) (hmemory : module.FitsMemory) : Firm e.listed e := by
  have hseated := seated_make h
  obtain ⟨htracksActive, hslotsActive⟩ := counts_make h
  obtain ⟨haccepted, hmodule, hvoices, htracks, hslots, hpanel, hplaying⟩ := parts_make h
  simp only [panel, Prod.mk.injEq] at hpanel
  obtain ⟨hclock, hmaster, hcd⟩ := hpanel
  have hidle : ∀ v, (e.voice v).active = false := fun v => by rw [voice_make h]
  have hstill : Fade.Fits {} := Fade.fits_of_ticks_eq_zero rfl
  refine {
    seated := hseated
    manned := ⟨?limit, ?active, fun v hv => absurd hv (by rw [hidle]; exact Bool.false_ne_true)⟩
    tallied := ⟨by rw [htracksActive]; exact Nat.zero_le _,
      by rw [hslotsActive]; exact Nat.zero_le _⟩
    paced := .of_seated hseated fun s l hl hall => ?room
    steady := {
      accepted := by rw [hmodule]; exact haccepted
      memory := by rw [hmodule]; exact hmemory
      tracks_lt := by rw [htracks]; exact module.limits.tracks.toNat_lt
      slots_lt := by rw [hslots]; exact module.limits.sequences.toNat_lt
      maxVoices_lt := fun i => by rw [track_make h]; decide
      pc_lt := fun i => by rw [track_make h]; decide
      frac_lt := by rw [hclock]; decide
      masterFade := by rw [hmaster]; exact hstill
      cdFade := by rw [hcd]; exact hstill } }
  case limit =>
    rw [hvoices, VoicePool.limit, VoicePool.ofLimit, Array.size_replicate]
    exact Nat.min_le_right _ _
  case active =>
    rw [hvoices, eq_comm]
    exact List.countP_eq_zero.mpr fun v _ => by rw [hidle]; exact Bool.false_ne_true
  case room =>
    rw [eq_nil_of_listed (slot_make h s).2.1 hall, hplaying]
    exact Nat.zero_le _

end Engine

namespace Machine

open Engine

variable {σ : Type} {e : Engine σ}

/-! ## Starting -/

/-- The playing tracks of a slot when one more starts on it, playing or waiting. -/
def playingWith (s : Slot) (waits : Bool) : Except Fault Nat :=
  if waits then return s.tracksPlaying else unsigned 64 (s.tracksPlaying + 1)

/-- Puts track `position` of a sequence into pool entry `i` for `slot`. -/
def startTrack (e : Engine σ) (slot sequence : Nat) (options : StartOptions) (i position : Nat) :
    Except Fault (Engine σ) := do
  let streams ← get e.module.sequences sequence
  let stream ← get streams position
  let t ← get e.tracks i
  let started := t.start stream.header options.attrs
  let _ ← partsPerInterrupt started.ppq started.qpm
  let _ ← event stream 0
  let s ← get e.slots slot
  let _ ← playingWith s options.handled
  let _ ← get s.tracks position
  let _ ← unsigned 64 (s.tracksActive + 1)
  let _ ← unsigned 64 (e.tracksActive + 1)
  let _ ← unsigned 64 (position + 1)
  return e.startTrack slot sequence options i position

theorem startTrack_eq {slot sequence : Nat} {p : Nat × Nat} {rest : List (Nat × Nat)}
    (h : Boarding slot sequence (p :: rest) e) (options : StartOptions) :
    startTrack e slot sequence options p.1 p.2 =
      .ok (e.startTrack slot sequence options p.1 p.2) := by
  obtain ⟨hstream, hwide⟩ := h.stream p List.mem_cons_self
  obtain ⟨hlt, -⟩ := h.idle p List.mem_cons_self
  obtain ⟨stream, hstream⟩ := Option.isSome_iff_exists.mp hstream
  obtain ⟨streams, hstreams, hposition⟩ := Option.bind_eq_some_iff.mp hstream
  have hwidth := h.seated.wide slot h.slot
  have hsize : (e.slot slot).tracks.size ≤ maxTracksPerSequence := by
    rw [hwidth]
    exact h.firm.steady.accepted.widestSequence_le
  have hplaying : (e.slot slot).tracksPlaying + 0 + (p :: rest).length ≤ _ :=
    h.room [] List.nodup_nil nofun
  have hcounted := h.counted
  have htotal := h.firm.tallied.tracksActive_le
  have htracks := h.firm.steady.tracks_lt
  simp only [maxTracksPerSequence, List.length_cons] at hsize hplaying hcounted
  have hcount : playingWith (e.slot slot) options.handled =
      .ok (if options.handled then (e.slot slot).tracksPlaying
        else (e.slot slot).tracksPlaying + 1) := by
    unfold playingWith
    split
    · rfl
    · exact unsigned_eq (by omega)
  unfold startTrack
  rw [get_eq hstreams, ok_bind, get_eq hposition, ok_bind, get_track hlt, ok_bind]
  dsimp only
  rw [partsPerInterrupt_eq, ok_bind, event_eq (h.firm.steady.memory.size_lt hstream), ok_bind,
    get_slot h.slot, ok_bind, hcount, ok_bind, get_getD (by omega) none, ok_bind,
    unsigned_eq (by omega), ok_bind, unsigned_eq (by omega), ok_bind, unsigned_eq (by omega),
    ok_bind, pure_eq]

/-- Starts a sequence in the first free slot. -/
def startSequence (e : Engine σ) (sequence : Nat) (options : StartOptions) :
    Except Fault (Except EngineError Nat × Engine σ) :=
  match e.module.sequences[sequence]? with
  | none => return (.error (.invalidSequence sequence), e)
  | some streams =>
    if streams.isEmpty then return (.error (.emptySequence sequence), e)
    else
      match e.slots.findIdx? (!·.active) with
      | none => return (.error .noFreeSequence, e)
      | some slot => do
        let _ ← get e.slots slot
        let taken := e.freeTracks.take streams.size
        let e := e.modifySlot slot Slot.cleared
        if taken.isEmpty then return (.error .noFreeTrack, e)
        else
          let e ← taken.zipIdx.foldlM
            (fun e (i, position) => startTrack e slot sequence options i position) e
          let _ ← get e.slots slot
          let _ ← unsigned 64 (e.slotsActive + 1)
          return (.ok slot, e.openSlot slot sequence options)

theorem startSequence_eq (h : Firm e.listed e) (sequence : Nat) (options : StartOptions) :
    startSequence e sequence options = .ok (e.startSequence sequence options) ∧
      Firm (e.startSequence sequence options).2.listed (e.startSequence sequence options).2 := by
  unfold startSequence Engine.startSequence
  cases hstreams : e.module.sequences[sequence]? with
  | none => exact ⟨rfl, h⟩
  | some streams =>
    dsimp only
    split
    · exact ⟨rfl, h⟩
    · cases hfree : e.slots.findIdx? (!·.active) with
      | none => exact ⟨rfl, h⟩
      | some slot =>
        obtain ⟨hlt, hidle, -⟩ := Array.findIdx?_eq_some_iff_getElem.mp hfree
        have hunused : (e.slot slot).active = false := by
          simpa [Engine.slot, Array.getD_eq_getD_getElem?, hlt] using hidle
        have hcleared := h.clearSlot hlt
        have hboarding := boarding_clearSlot h hlt hunused hstreams
        dsimp only
        rw [get_slot hlt, ok_bind]
        split
        · exact ⟨rfl, hcleared⟩
        · obtain ⟨hstart, hstarted⟩ := foldlM_eq
            (f := fun e p => startTrack e slot sequence options p.1 p.2)
            (g := fun e p => e.startTrack slot sequence options p.1 p.2)
            (Boarding slot sequence) (fun p rest e h => ⟨startTrack_eq h options,
              h.startTrack options⟩) _ _ hboarding
          have hcount := hstarted.firm.tallied.slotsActive_le
          have hslots := hstarted.firm.steady.slots_lt
          rw [hstart, ok_bind, get_slot hstarted.slot, ok_bind, unsigned_eq (by omega), ok_bind]
          exact ⟨rfl, hstarted.openSlot options⟩

end Machine

end SoundSequencer
