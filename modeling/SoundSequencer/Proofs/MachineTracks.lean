/-
SoundSequencer.Proofs.MachineTracks — running the byte code of tracks on a machine.

* `Firm.place` and `Firm.adjust` are the rules for commands that move a track or change
  its controls: labels, delta times and return addresses lead to where byte code can be.
* `Machine.command`, `Machine.driverCommand`, `Machine.stepTrack` and `Machine.runTrack`
  are the interpreter with the tables and numbers of a machine.
* `Machine.tick_eq`: on a firm engine the machine gets through a tick, and ends in what
  the tick leaves, which is firm again.
-/
import SoundSequencer.Proofs.MachineNotes
import SoundSequencer.Proofs.Executions
import SoundSequencer.Proofs.OneTrack

namespace SoundSequencer

theorem SoundModule.FitsMemory.size_lt {m : SoundModule} (h : m.FitsMemory)
    {sequence position : Nat} {stream : TrackStream}
    (hstream : m.track? sequence position = some stream) : stream.bytes.size < 2 ^ 63 := by
  obtain ⟨tracks, htracks, hposition⟩ := Option.bind_eq_some_iff.mp hstream
  exact h tracks (Array.mem_of_getElem? htracks) stream (Array.mem_of_getElem? hposition)

namespace Engine

variable {σ : Type} [SoundChip σ] {held : Nat → Nat → Prop} {e e' : Engine σ}

/-! ## Where tracks can be -/

omit [SoundChip σ] in
theorem Steady.stream_lt (h : e.Steady) {i : Nat} {stream : TrackStream}
    (hstream : e.stream? i = some stream) : stream.bytes.size < 2 ^ 63 := h.memory.size_lt hstream

omit [SoundChip σ] in
theorem Steady.label_lt (h : e.Steady) {i pc : Nat} {label : Int16}
    (hlabel : e.label? i label = some pc) : pc < 2 ^ 63 := by
  obtain ⟨stream, hstream, hplace⟩ := Option.bind_eq_some_iff.mp hlabel
  have hsize := h.stream_lt hstream
  unfold TrackStream.label? at hplace
  split at hplace
  · have hlt := (Option.filter_eq_some_iff.mp hplace).2
    simp only [decide_eq_true_eq] at hlt
    omega
  · cases hplace

/-- A track may move to where byte code can be. -/
theorem Firm.place (h : Firm held e) (i : Nat) {f : Track → Track}
    (hf : (f (e.track i)).standing = (e.track i).standing) (hpc : (f (e.track i)).pc < 2 ^ 63) :
    Firm held (e.modifyTrack i f) := by
  refine h.tuned (tuned_modifyTrack e i hf) rfl fun j => ?_
  rw [track_modifyTrack]
  split
  · next hij =>
    rw [← hij.1]
    exact hpc
  · exact h.steady.pc_lt j

/-- A track may change its controls and its time where it is. -/
theorem Firm.adjust (h : Firm held e) (i : Nat) {f : Track → Track}
    (hf : (f (e.track i)).standing = (e.track i).standing)
    (hpc : (f (e.track i)).pc = (e.track i).pc) : Firm held (e.modifyTrack i f) :=
  h.place i hf (by rw [hpc]; exact h.steady.pc_lt i)

/-- A slot may change its gates and counters. -/
theorem Firm.adjustSlot (h : Firm held e) (s : Nat) {f : Slot → Slot}
    (hf : (f (e.slot s)).standing = (e.slot s).standing) : Firm held (e.modifySlot s f) :=
  h.tuned (tuned_modifySlot e s hf) rfl h.steady.pc_lt

theorem Firm.retuned (h : Firm held e) (htuned : Tuned e e') (hkept : Kept e e') : Firm held e' :=
  h.of_places htuned.samePlaces (h.manned.of_voices htuned.tracks_size htuned.voices)
    (h.steady.kept hkept)

omit [SoundChip σ] in
/-- As long as the pools stay, clock and fades may go on within bounds. -/
theorem Firm.of_pools (h : Firm held e) (hpools : e'.pools = e.pools)
    (hfrac : e'.clock.frac < 65536) (hmaster : e'.masterFade.Fits) (hcd : e'.cdFade.Fits) :
    Firm held e' := by
  simp only [pools, Prod.mk.injEq] at hpools
  obtain ⟨hmodule, htracks, hslots, hvoices, -, -, hactive, hslotsActive⟩ := hpools
  have htrack : ∀ i, e'.track i = e.track i := fun i => by unfold Engine.track; rw [htracks]
  refine h.of_places (samePlaces_of_pools hmodule htracks hslots hactive hslotsActive)
    (h.manned.of_voices (by rw [htracks]) hvoices) ?_
  exact {
    accepted := by rw [hmodule]; exact h.steady.accepted
    memory := by rw [hmodule]; exact h.steady.memory
    tracks_lt := by rw [htracks]; exact h.steady.tracks_lt
    slots_lt := by rw [hslots]; exact h.steady.slots_lt
    maxVoices_lt := fun i => by rw [htrack]; exact h.steady.maxVoices_lt i
    pc_lt := fun i => by rw [htrack]; exact h.steady.pc_lt i
    frac_lt := hfrac
    masterFade := hmaster
    cdFade := hcd }

theorem Firm.hearMark (h : Firm held e) (kind : UInt8) (value : Int16) :
    Firm held (e.hearMark kind value) := by
  refine h.retuned (tuned_hearMark e kind value) ?_
  unfold Engine.hearMark
  split
  · exact .refl e
  · exact .of_pools rfl rfl rfl rfl

theorem Firm.writeOwned (h : Firm held e) (i : Nat) (mask : RegisterMask)
    (registers : Voice → PatchVoice → VoiceRegisters) :
    Firm held (e.writeOwned i mask registers) := by
  refine h.retuned (tuned_writeOwned e i mask registers) ?_
  unfold Engine.writeOwned
  split
  · exact .refl e
  · exact .of_pools rfl rfl rfl rfl

theorem Firm.bendPitch (h : Firm held e) (i : Nat) (pitch : Int16) :
    Firm held (e.bendPitch i pitch) := by
  have hbent : Firm held (e.modifyTrack i fun t => { t with pitch }) := h.adjust i rfl rfl
  unfold Engine.bendPitch
  split
  · exact h
  · exact hbent.writeOwned i _ _

theorem Firm.setTrackVolume (h : Firm held e) (i : Nat) (volume : UInt8) :
    Firm held (e.setTrackVolume i volume) := by
  have hset : Firm held (e.modifyTrack i fun t => { t with volume }) := h.adjust i rfl rfl
  unfold Engine.setTrackVolume
  exact hset.writeOwned i _ _

theorem Firm.setTrackPan (h : Firm held e) (i : Nat) (pan : UInt8) :
    Firm held (e.setTrackPan i pan) := by
  have hset : Firm held (e.modifyTrack i fun t => { t with pan }) := h.adjust i rfl rfl
  unfold Engine.setTrackPan
  dsimp only
  split
  · exact hset
  · exact hset.writeOwned i _ _

theorem pc_silentCommand (t : Track) (c : Command) : (t.silentCommand c).pc = t.pc := by
  unfold Track.silentCommand
  split <;> rfl

theorem Firm.readDelta? (h : Firm held e) {i offset : Nat}
    (hread : e.readDelta? i offset = some e') : Firm held e' := by
  unfold Engine.readDelta? at hread
  simp only [bind, Option.bind_eq_some_iff, pure, Option.some.injEq] at hread
  obtain ⟨stream, hstream, ⟨delta, pc⟩, hevent, rfl⟩ := hread
  have hsize := h.steady.stream_lt hstream
  exact h.place i rfl (Nat.lt_of_le_of_lt (Machine.pc_le_of_event? hevent) hsize)

theorem tracks_size_endSequence (e : Engine σ) (s : Nat) :
    (e.endSequence s).tracks.size = e.tracks.size :=
  (sameOwners_deed (.endSequence e s)).tracks_size

theorem tracks_size_noteOn (e : Engine σ) (i : Nat) (key velocity : UInt8) :
    (e.noteOn i key velocity).tracks.size = e.tracks.size := by
  unfold noteOn
  split
  · rfl
  · exact foldl_keeps (fun (_ : List Nat) (d : Engine σ) => d.tracks.size = e.tracks.size)
      (fun _ _ d hd => (tracks_size_playNote d i _ _ _).trans hd) _ e rfl

theorem tracks_size_moves (h : Moves e e') : e'.tracks.size = e.tracks.size := by
  have hkeeps : ∀ d d' : Engine σ, Move d d' → d.tracks.size = e.tracks.size →
      d'.tracks.size = e.tracks.size := by
    intro d d' hmove hd
    cases hmove with
    | deed hdeed => exact (sameOwners_deed hdeed).tracks_size.trans hd
    | noteOn key velocity => exact (tracks_size_noteOn d _ key velocity).trans hd
  exact h.keeps hkeeps rfl

end Engine

namespace Machine

open Engine

variable {σ : Type} [SoundChip σ] {held : Nat → Nat → Prop} {e : Engine σ}

/-! ## The place of a track -/

/-- Moves a track behind the delta time at `offset`, if there is one. -/
def readDelta (e : Engine σ) (i offset : Nat) : Except Fault (Option (Engine σ)) :=
  match e.stream? i with
  | none => return none
  | some stream => do
    match ← event stream offset with
    | none => return none
    | some (delta, pc) =>
      let _ ← get e.tracks i
      return some (e.modifyTrack i fun t => { t with pc, delta })

omit [SoundChip σ] in
theorem readDelta_eq (h : e.Steady) {i : Nat} (hi : i < e.tracks.size) (offset : Nat) :
    readDelta e i offset = .ok (e.readDelta? i offset) := by
  unfold readDelta Engine.readDelta?
  cases hstream : e.stream? i with
  | none => rfl
  | some stream =>
    dsimp only
    rw [event_eq (h.stream_lt hstream), ok_bind]
    simp only [Option.bind_eq_bind, Option.bind_some]
    cases stream.event? offset with
    | none => rfl
    | some next =>
      dsimp only
      rw [get_track hi]
      rfl

/-- Moves a track behind the delta time at `offset`; without one, its sequence ends. -/
def nextEvent (e : Engine σ) (i offset : Nat) : Except Fault (Engine σ) := do
  match ← readDelta e i offset with
  | some e => return e
  | none =>
    let t ← get e.tracks i
    if t.isRunning then endSequence e t.slot else return e

theorem nextEvent_eq (h : Firm held e) {i : Nat} (hi : i < e.tracks.size) (offset : Nat) :
    nextEvent e i offset = .ok (e.nextEvent i offset) ∧ Firm held (e.nextEvent i offset) := by
  unfold nextEvent Engine.nextEvent
  rw [readDelta_eq h.steady hi, ok_bind]
  cases hread : e.readDelta? i offset with
  | some e' => exact ⟨rfl, h.readDelta? hread⟩
  | none =>
    dsimp only
    rw [get_track hi, ok_bind]
    split
    · exact endSequence_eq h (h.seated.home i)
    · exact ⟨rfl, h⟩

/-! ## Control flow of one track -/

/-- Moves a track to a label. -/
def jump (e : Engine σ) (i : Nat) (label : Int16) : Except Fault (Engine σ × Flow) :=
  match e.label? i label with
  | none => return (e, .advance)
  | some pc => do
    let _ ← get e.tracks i
    return (e.modifyTrack i fun t => { t with pc }, .hold)

theorem jump_eq (h : Firm held e) {i : Nat} (hi : i < e.tracks.size) (label : Int16) :
    jump e i label = .ok (e.jump i label) ∧ Firm held (e.jump i label).1 := by
  unfold jump Engine.jump
  cases hlabel : e.label? i label with
  | none => exact ⟨rfl, h⟩
  | some pc =>
    dsimp only
    rw [get_track hi]
    exact ⟨rfl, h.place i rfl (h.steady.label_lt hlabel)⟩

/-- Moves a track to a label and notes the place behind the command. -/
def gosub (e : Engine σ) (i : Nat) (label : Int16) : Except Fault (Engine σ × Flow) :=
  match e.label? i label with
  | none => return (e, .advance)
  | some pc => do
    let t ← get e.tracks i
    let address ← unsigned 64 (t.pc + Opcode.trackGosub.byteLength)
    match t.pushReturn? address with
    | none => return (e, .advance)
    | some t => return (e.modifyTrack i fun _ => { t with pc }, .hold)

theorem gosub_eq (h : Firm held e) {i : Nat} (hi : i < e.tracks.size) (label : Int16) :
    gosub e i label = .ok (e.gosub i label) ∧ Firm held (e.gosub i label).1 := by
  unfold gosub Engine.gosub
  cases hlabel : e.label? i label with
  | none => exact ⟨rfl, h⟩
  | some pc =>
    have haddress : (e.track i).pc + Opcode.trackGosub.byteLength < 2 ^ 64 := by
      have hpc := h.steady.pc_lt i
      have hlength := byteLength_le .trackGosub
      simp only [commandRoom] at hlength
      omega
    dsimp only
    rw [get_track hi, ok_bind, unsigned_eq haddress, ok_bind]
    cases hpush : (e.track i).pushReturn? ((e.track i).pc + Opcode.trackGosub.byteLength) with
    | none => exact ⟨rfl, h⟩
    | some t =>
      have hstanding := standing_pushReturn? hpush
      exact ⟨rfl, h.place i (by exact hstanding) (h.steady.label_lt hlabel)⟩

/-- Takes a track back to the event behind its last gosub. -/
def goBack (e : Engine σ) (i : Nat) : Except Fault (Engine σ × Flow) := do
  let t ← get e.tracks i
  match t.popReturn? with
  | none => return (e, .advance)
  | some (address, t) =>
    let e := e.modifyTrack i fun _ => t
    match ← readDelta e i address with
    | none => return (e, .advance)
    | some e => return (e, .hold)

theorem goBack_eq (h : Firm held e) {i : Nat} (hi : i < e.tracks.size) :
    goBack e i = .ok (e.goBack i) ∧ Firm held (e.goBack i).1 := by
  unfold goBack Engine.goBack
  rw [get_track hi, ok_bind]
  cases hpop : (e.track i).popReturn? with
  | none => exact ⟨rfl, h⟩
  | some popped =>
    obtain ⟨address, t⟩ := popped
    obtain ⟨-, ht⟩ := Track.popReturn?_eq_some hpop
    have hpopped : Firm held (e.modifyTrack i fun _ => t) :=
      h.adjust i (standing_popReturn? hpop) (by rw [ht])
    have hi' : i < (e.modifyTrack i fun _ => t).tracks.size := by simpa [modifyTrack] using hi
    dsimp only
    rw [readDelta_eq hpopped.steady hi', ok_bind]
    cases hread : (e.modifyTrack i fun _ => t).readDelta? i address with
    | none => exact ⟨rfl, hpopped⟩
    | some e' => exact ⟨rfl, hpopped.readDelta? hread⟩

/-- Where a track goes on after it was turned off. -/
def flowWhenOff (e : Engine σ) (i : Nat) : Except Fault Flow := do
  let t ← get e.tracks i
  return if t.isHandled then .hold else .advance

omit [SoundChip σ] in
theorem flowWhenOff_eq {i : Nat} (hi : i < e.tracks.size) :
    flowWhenOff e i = .ok (e.flowWhenOff i) := by
  unfold flowWhenOff
  rw [get_track hi]
  rfl

/-- A looped track back at its start. -/
def rewind (e : Engine σ) (i : Nat) : Except Fault (Option (Engine σ)) := do
  let t ← get e.tracks i
  if t.flags.looped && minLoopParts ≤ t.total then readDelta e i 0 else return none

/-- The end of a track. -/
def endTrack (e : Engine σ) (i : Nat) : Except Fault (Engine σ × Flow) := do
  match ← rewind e i with
  | some e => return (e, .hold)
  | none =>
    let e ← turnOff e i
    return (e, ← flowWhenOff e i)

theorem endTrack_eq (h : Firm held e) {i : Nat} (hi : i < e.tracks.size) :
    endTrack e i = .ok (e.endTrack i) ∧ Firm held (e.endTrack i).1 := by
  have hrewind : rewind e i = .ok (if (e.track i).flags.looped && minLoopParts ≤ (e.track i).total
      then e.readDelta? i 0 else none) := by
    unfold rewind
    rw [get_track hi, ok_bind]
    split
    · exact readDelta_eq h.steady hi 0
    · rfl
  have hi' : i < (e.turnOff i).tracks.size := by rwa [(sameOwners_turnOff e i).tracks_size]
  unfold endTrack Engine.endTrack
  rw [hrewind, ok_bind]
  dsimp only
  cases hread : (if (e.track i).flags.looped && minLoopParts ≤ (e.track i).total
      then e.readDelta? i 0 else none) with
  | some e' =>
    refine ⟨rfl, ?_⟩
    split at hread
    · exact h.readDelta? hread
    · cases hread
  | none =>
    dsimp only
    rw [Machine.turnOff_eq h hi, ok_bind, flowWhenOff_eq hi']
    exact ⟨rfl, h.turnOff i⟩

/-! ## Control flow of a sequence -/

/-- Moves every track of the slot of track `i`. -/
def forSequence (e : Engine σ) (i : Nat) (move : Engine σ → Nat → Except Fault (Engine σ × Flow)) :
    Except Fault (Engine σ × Flow) := do
  let t ← lookUp e i
  (e.slot t.slot).trackList.foldlM (fun (e, flow) other => do
    let (e, moved) ← move e other
    return (e, if other = i then moved else flow)) (e, .advance)

omit [SoundChip σ] in
theorem forSequence_eq (h : Firm held e) {i : Nat} (hi : i < e.tracks.size)
    {move : Engine σ → Nat → Except Fault (Engine σ × Flow)}
    {plain : Engine σ → Nat → Engine σ × Flow}
    (hmove : ∀ e j, Firm held e → j < e.tracks.size →
      move e j = .ok (plain e j) ∧ Firm held (plain e j).1) :
    forSequence e i move = .ok (e.forSequence i plain) ∧
      Firm held (e.forSequence i plain).1 := by
  have hheld : ∀ j ∈ (e.slot (e.track i).slot).trackList, held (e.track i).slot j :=
    fun j hj => h.paced.lists _ j (List.mem_of_mem_take hj)
  unfold forSequence Engine.forSequence
  rw [lookUp_eq h hi, ok_bind]
  refine (foldlM_eq (fun l (p : Engine σ × Flow) =>
    Firm held p.1 ∧ ∀ j ∈ l, held (e.track i).slot j) (fun j l p hall => ?_) _ _
      ⟨h, hheld⟩).imp id And.left
  obtain ⟨hfirm, hlist⟩ := hall
  have hj := hfirm.paced.lt_size _ j (hlist j List.mem_cons_self)
  obtain ⟨hrun, hmoved⟩ := hmove p.1 j hfirm hj
  dsimp only
  rw [hrun, ok_bind]
  exact ⟨rfl, hmoved, fun k hk => hlist k (List.mem_cons_of_mem j hk)⟩

/-- What a counting jump does with its counter. -/
def countDown (s : Slot) (counter first : UInt8) : Except Fault (Slot × Bool) :=
  match s.iters[counter.toNat]? with
  | none => return (s, false)
  | some value =>
    if value = 0 then return (s, false)
    else do
      let less ← minus value.toNat 1
      let next := if value = unset then first else UInt8.ofNat less
      return ({ s with iters := s.iters.setIfInBounds counter.toNat next }, true)

theorem countDown_eq (s : Slot) (counter first : UInt8) :
    countDown s counter first = .ok (s.countDown counter first) := by
  unfold countDown Slot.countDown
  cases s.iters[counter.toNat]? with
  | none => rfl
  | some value =>
    dsimp only
    split
    · rfl
    · next hvalue =>
      have hpos : 1 ≤ value.toNat :=
        Nat.pos_of_ne_zero fun hzero => hvalue (UInt8.toNat_inj.mp hzero)
      have hone : (1 : UInt8) ≤ value := UInt8.le_iff_toNat_le.mpr hpos
      have hless : UInt8.ofNat (value.toNat - 1) = value - 1 := by
        refine UInt8.toNat_inj.mp ?_
        have hlt := value.toNat_lt
        rw [UInt8.toNat_sub_of_le _ _ hone, UInt8.toNat_ofNat']
        exact Nat.mod_eq_of_lt (by omega)
      rw [minus_eq hpos, ok_bind, hless, pure_eq]

/-- Sets the tempo of a track. -/
def setTempo (e : Engine σ) (i : Nat) (qpm : UInt16) : Except Fault (Engine σ) := do
  let t ← get e.tracks i
  let ppi ← partsPerInterrupt t.ppq qpm
  return e.modifyTrack i fun t => { t with qpm, ppi }

theorem setTempo_eq (h : Firm held e) {i : Nat} (hi : i < e.tracks.size) (qpm : UInt16) :
    setTempo e i qpm = .ok (e.modifyTrack i (·.setTempo qpm)) ∧
      Firm held (e.modifyTrack i (·.setTempo qpm)) := by
  refine ⟨?_, h.adjust i rfl rfl⟩
  unfold setTempo
  rw [get_track hi, ok_bind, partsPerInterrupt_eq, ok_bind, pure_eq]
  exact congrArg Except.ok (modifyTrack_congr rfl)

/-- Executes a command of the sequencer for track `i`. -/
def command (e : Engine σ) (i : Nat) (c : Command) : Except Fault (Engine σ × Flow) := do
  let t ← lookUp e i
  let home := t.slot
  match c.op with
  | .statusMark => return (e.hearMark (c.byte 1) (c.signedWord 2), .advance)
  | .gateJump =>
    let (slot, isOpen) := (e.slot home).passGate (c.byte 1) (c.byte 2)
    if isOpen then jump (e.modifySlot home fun _ => slot) i (c.signedWord 3)
    else return (e, .advance)
  | .iterJump =>
    let (slot, taken) ← countDown (e.slot home) (c.byte 1) (c.byte 2)
    if taken then jump (e.modifySlot home fun _ => slot) i (c.signedWord 3)
    else return (e, .advance)
  | .resetGates => return (e.modifySlot home (·.resetGates (c.byte 1)), .advance)
  | .resetIters => return (e.modifySlot home (·.resetIters (c.byte 1)), .advance)
  | .writeIter => return (e.modifySlot home (·.writeIter (c.byte 1) (c.byte 2)), .advance)
  | .seqTempo => return (← forTracksOf e home (setTempo · · (c.word 1)), .advance)
  | .seqGosub =>
    if (e.label? i (c.signedWord 1)).isNone then return (e, .advance)
    else forSequence e i fun e other => gosub e other (c.signedWord 1)
  | .seqJump =>
    if (e.label? i (c.signedWord 1)).isNone then return (e, .advance)
    else forSequence e i fun e other => jump e other (c.signedWord 1)
  | .seqReturn => forSequence e i goBack
  | .seqEnd =>
    let e ← endSequence e home
    return (e, ← flowWhenOff e i)
  | .trackTempo => return (← setTempo e i (c.word 1), .advance)
  | .trackGosub => gosub e i (c.signedWord 1)
  | .trackJump =>
    match ← jump e i (c.signedWord 1) with
    | (e, .hold) =>
      let _ ← get e.tracks i
      return (e.modifyTrack i fun t => { t with delta := 0 }, .hold)
    | (e, .advance) => return (e, .advance)
  | .trackReturn => goBack e i
  | .trackEnd => endTrack e i
  | _ => return (e, .advance)

theorem command_eq (h : Firm held e) {i : Nat} (hi : i < e.tracks.size) (c : Command) :
    command e i c = .ok (e.command i c) ∧ Firm held (e.command i c).1 := by
  have hhome := h.seated.home i
  unfold command Engine.command
  rw [lookUp_eq h hi, ok_bind]
  generalize c.op = op
  dsimp only
  cases op with
  | statusMark =>
    dsimp only
    exact ⟨rfl, h.hearMark _ _⟩
  | gateJump =>
    have hgate : Firm held (e.modifySlot (e.track i).slot fun _ =>
        ((e.slot (e.track i).slot).passGate (c.byte 1) (c.byte 2)).1) :=
      h.adjustSlot _ (standing_passGate _ _ _)
    dsimp only
    split
    · exact Machine.jump_eq hgate hi _
    · exact ⟨rfl, h⟩
  | iterJump =>
    have hcounter : Firm held (e.modifySlot (e.track i).slot fun _ =>
        ((e.slot (e.track i).slot).countDown (c.byte 1) (c.byte 2)).1) :=
      h.adjustSlot _ (standing_countDown _ _ _)
    dsimp only
    rw [countDown_eq, ok_bind]
    split
    · exact Machine.jump_eq hcounter hi _
    · exact ⟨rfl, h⟩
  | resetGates => exact ⟨rfl, h.adjustSlot _ rfl⟩
  | resetIters => exact ⟨rfl, h.adjustSlot _ rfl⟩
  | writeIter => exact ⟨rfl, h.adjustSlot _ rfl⟩
  | seqTempo =>
    obtain ⟨hrun, hfirm⟩ := forTracksOf_eq (f := (setTempo · · (c.word 1)))
      (g := fun e other => e.modifyTrack other (·.setTempo (c.word 1))) h hhome
      fun e j he hj => setTempo_eq he (he.paced.lt_size _ j hj) (c.word 1)
    dsimp only
    rw [hrun]
    exact ⟨rfl, hfirm⟩
  | seqGosub =>
    dsimp only
    split
    · exact ⟨rfl, h⟩
    · exact forSequence_eq h hi fun e j he hj => Machine.gosub_eq he hj _
  | seqJump =>
    dsimp only
    split
    · exact ⟨rfl, h⟩
    · exact forSequence_eq h hi fun e j he hj => Machine.jump_eq he hj _
  | seqReturn => exact forSequence_eq h hi fun e j he hj => Machine.goBack_eq he hj
  | seqEnd =>
    obtain ⟨hrun, hfirm⟩ := endSequence_eq h hhome
    have hi' : i < (e.endSequence (e.track i).slot).tracks.size := by rwa [tracks_size_endSequence]
    dsimp only
    rw [hrun, ok_bind, flowWhenOff_eq hi']
    exact ⟨rfl, hfirm⟩
  | trackTempo =>
    obtain ⟨hrun, hfirm⟩ := setTempo_eq h hi (c.word 1)
    dsimp only
    rw [hrun]
    exact ⟨rfl, hfirm⟩
  | trackGosub => exact Machine.gosub_eq h hi _
  | trackJump =>
    obtain ⟨hrun, hfirm⟩ := Machine.jump_eq h hi (c.signedWord 1)
    have hi' : i < (e.jump i (c.signedWord 1)).1.tracks.size := by
      rwa [(tuned_jump e i _).tracks_size]
    dsimp only
    rw [hrun, ok_bind]
    generalize e.jump i (c.signedWord 1) = moved at hfirm hi' ⊢
    obtain ⟨e', flow⟩ := moved
    cases flow with
    | advance => exact ⟨rfl, hfirm⟩
    | hold =>
      dsimp only
      rw [get_track hi', ok_bind]
      exact ⟨rfl, hfirm.adjust i rfl rfl⟩
  | trackReturn => exact Machine.goBack_eq h hi
  | trackEnd => exact endTrack_eq h hi
  | _ => exact ⟨rfl, h⟩

/-! ## Commands of the driver -/

/-- Executes a command of the driver. -/
def driverCommand (e : Engine σ) (i : Nat) (c : Command) : Except Fault (Engine σ) := do
  let t ← get e.tracks i
  match t.driver with
  | .silent => return e.modifyTrack i (·.silentCommand c)
  | .voices =>
    match c.op with
    | .patchChange => return e.modifyTrack i fun t => { t with patch := c.word 1 }
    | .pitchMod => bendPitch e i (c.signedWord 1)
    | .volumeMod => setTrackVolume e i (c.byte 1)
    | .panMod => setTrackPan e i (c.byte 1)
    | .noteOn => noteOn e i (c.byte 1) (c.byte 2)
    | .noteOff => return e.noteOff i (c.byte 1)
    | _ => return e

theorem driverCommand_eq (h : Firm held e) {i : Nat} (hi : i < e.tracks.size) (c : Command) :
    driverCommand e i c = .ok (e.driverCommand i c) ∧ Firm held (e.driverCommand i c) := by
  unfold driverCommand Engine.driverCommand
  rw [get_track hi, ok_bind]
  cases (e.track i).driver with
  | silent => exact ⟨rfl, h.adjust i (standing_silentCommand _ c) (pc_silentCommand _ c)⟩
  | voices =>
    unfold Engine.voiceCommand
    generalize c.op = op
    cases op with
    | patchChange => exact ⟨rfl, h.adjust i rfl rfl⟩
    | pitchMod => exact ⟨bendPitch_eq hi _, h.bendPitch i _⟩
    | volumeMod => exact ⟨setTrackVolume_eq hi _, h.setTrackVolume i _⟩
    | panMod => exact ⟨setTrackPan_eq hi _, h.setTrackPan i _⟩
    | noteOn => exact noteOn_eq h hi _ _
    | noteOff => exact ⟨rfl, h.noteOff i _⟩
    | _ => exact ⟨rfl, h⟩

/-! ## Running -/

/-- Executes the command at the place of track `i`. -/
def stepTrack (e : Engine σ) (i : Nat) : Except Fault (Engine σ) := do
  let t ← get e.tracks i
  match ← (e.stream? i).elim (pure none) fun stream => decodeAt stream.bytes t.pc with
  | none => endSequence e t.slot
  | some c =>
    if c.op.isDriver then
      let e ← driverCommand e i c
      nextEvent e i (← unsigned 64 (t.pc + c.length))
    else if c.op.isEngine then
      let (e, flow) ← command e i c
      let new ← get e.tracks i
      if flow = .advance && new.isActive then nextEvent e i (← unsigned 64 (t.pc + c.length))
      else return e
    else endSequence e t.slot

theorem stepTrack_eq (h : Firm held e) {i : Nat} (hi : i < e.tracks.size)
    (hrun : (e.track i).isRunning = true) :
    stepTrack e i = .ok (e.stepTrack i) ∧ Firm held (e.stepTrack i) := by
  have hread : (e.stream? i).elim (pure none)
      (fun stream => decodeAt stream.bytes (e.track i).pc) =
        .ok ((e.stream? i).bind fun stream => Command.decodeAt stream.bytes (e.track i).pc) := by
    cases hstream : e.stream? i with
    | none => rfl
    | some stream => exact decodeAt_eq (h.steady.stream_lt hstream) _
  have hends := endSequence_eq h (h.seated.home i)
  unfold stepTrack Engine.stepTrack
  rw [get_track hi, ok_bind, hread, ok_bind]
  dsimp only
  cases (e.stream? i).bind fun stream => Command.decodeAt stream.bytes (e.track i).pc with
  | none => exact hends
  | some c =>
    have hnext : (e.track i).pc + c.length < 2 ^ 64 := by
      have hpc := h.steady.pc_lt i
      have hlength : c.length ≤ commandRoom := byteLength_le c.op
      simp only [commandRoom] at hlength
      omega
    dsimp only
    split
    · obtain ⟨hdone, hfirm⟩ := driverCommand_eq h hi c
      have hi' : i < (e.driverCommand i c).tracks.size := by
        rwa [tracks_size_moves (moves_driverCommand c hrun)]
      rw [hdone, ok_bind, unsigned_eq hnext, ok_bind]
      exact nextEvent_eq hfirm hi' _
    · split
      · obtain ⟨hdone, hfirm⟩ := command_eq h hi c
        have hi' : i < (e.command i c).1.tracks.size := by
          rwa [tracks_size_moves (moves_command c hrun)]
        rw [hdone, ok_bind, get_track hi', ok_bind]
        split
        · rw [unsigned_eq hnext, ok_bind]
          exact nextEvent_eq hfirm hi' _
        · exact ⟨rfl, hfirm⟩
      · exact hends

/-- Executes what is due on track `i`, at most `budget` commands. -/
def runDue : (budget : Nat) → Engine σ → Nat → Except Fault (Engine σ)
  | 0, e, i => do
    let t ← get e.tracks i
    if t.isRunning && t.delta ≤ t.acc then turnOff e i else return e
  | budget + 1, e, i => do
    let t ← get e.tracks i
    if t.isRunning && t.delta ≤ t.acc then
      let acc ← minus t.acc.toNat t.delta.toNat
      let e ← stepTrack (e.modifyTrack i fun t => { t with acc := UInt32.ofNat acc }) i
      runDue budget e i
    else return e

theorem runDue_eq (i : Nat) : ∀ (budget : Nat) {e : Engine σ}, Firm held e → i < e.tracks.size →
    runDue budget e i = .ok (Engine.runDue budget e i) ∧ Firm held (Engine.runDue budget e i)
  | 0, e, h, hi => by
    unfold runDue Engine.runDue Engine.isDue
    rw [get_track hi, ok_bind]
    split
    · exact ⟨Machine.turnOff_eq h hi, h.turnOff i⟩
    · exact ⟨rfl, h⟩
  | budget + 1, e, h, hi => by
    unfold runDue Engine.runDue
    rw [get_track hi, ok_bind]
    by_cases hdue : e.isDue i = true
    · have hrun := isRunning_of_isDue hdue
      have hcovers : (e.track i).delta ≤ (e.track i).acc := by
        simp only [isDue, Bool.and_eq_true, decide_eq_true_eq] at hdue
        exact hdue.2
      have hpay : (e.modifyTrack i fun t => { t with
          acc := UInt32.ofNat ((e.track i).acc.toNat - (e.track i).delta.toNat) }) =
            e.payDelta i := by
        have hacc : UInt32.ofNat ((e.track i).acc.toNat - (e.track i).delta.toNat) =
            (e.track i).acc - (e.track i).delta := by
          refine UInt32.toNat_inj.mp ?_
          have hlt := (e.track i).acc.toNat_lt
          rw [UInt32.toNat_sub_of_le _ _ hcovers, UInt32.toNat_ofNat']
          exact Nat.mod_eq_of_lt (by omega)
        refine modifyTrack_congr ?_
        rw [hacc]
      have hpaid : Firm held (e.payDelta i) := h.adjust i rfl rfl
      have hi' : i < (e.payDelta i).tracks.size := by simpa [payDelta, modifyTrack] using hi
      have hrun' : ((e.payDelta i).track i).isRunning = true := by
        have htuned : Tuned e (e.payDelta i) := tuned_modifyTrack e i rfl
        rw [htuned.isRunning, hrun]
      obtain ⟨hstep, hstepped⟩ := stepTrack_eq hpaid hi' hrun'
      have hi'' : i < ((e.payDelta i).stepTrack i).tracks.size := by
        rwa [tracks_size_moves (moves_stepTrack hrun')]
      have hdue' : ((e.track i).isRunning && (e.track i).delta ≤ (e.track i).acc) = true := hdue
      rw [if_pos hdue, if_pos hdue', minus_eq (UInt32.le_iff_toNat_le.mp hcovers), ok_bind, hpay,
        hstep, ok_bind]
      exact runDue_eq i budget hstepped hi''
    · have hdue' : ¬ ((e.track i).isRunning && (e.track i).delta ≤ (e.track i).acc) = true := hdue
      rw [if_neg hdue, if_neg hdue']
      exact ⟨rfl, h⟩

/-- One tick of track `i`. -/
def runTrack (e : Engine σ) (i : Nat) : Except Fault (Engine σ) := do
  let _ ← get e.tracks i
  let e := e.modifyTrack i Track.advance
  let t ← get e.tracks i
  if t.timeIsUp then turnOff e i else runDue maxCommandsPerTick e i

theorem runTrack_eq (h : Firm held e) {i : Nat} (hi : i < e.tracks.size) :
    runTrack e i = .ok (e.runTrack i) ∧ Firm held (e.runTrack i) := by
  have hadvanced : Firm held (e.modifyTrack i Track.advance) := h.adjust i rfl rfl
  have hi' : i < (e.modifyTrack i Track.advance).tracks.size := by simpa [modifyTrack] using hi
  unfold runTrack Engine.runTrack
  rw [get_track hi, ok_bind]
  dsimp only
  rw [get_track hi', ok_bind]
  split
  · exact ⟨Machine.turnOff_eq hadvanced hi', hadvanced.turnOff i⟩
  · exact runDue_eq i _ hadvanced hi'

/-- One tick of every track that runs when its turn comes. -/
def runTracks (e : Engine σ) : Except Fault (Engine σ) :=
  e.trackIds.foldlM (fun e i => do
    let t ← get e.tracks i
    if t.isRunning then runTrack e i else return e) e

theorem runTracks_eq (h : Firm held e) :
    runTracks e = .ok e.runTracks ∧ Firm held e.runTracks := by
  refine (foldlM_eq (fun l d => Firm held d ∧ ∀ i ∈ l, i < d.tracks.size) (fun i l d hall => ?_)
    e.trackIds e ⟨h, fun i hi => List.mem_range.mp hi⟩).imp id And.left
  obtain ⟨hfirm, hids⟩ := hall
  have hi := hids i List.mem_cons_self
  have hrest : ∀ j ∈ l, j < d.tracks.size := fun j hj => hids j (List.mem_cons_of_mem i hj)
  rw [get_track hi, ok_bind]
  split
  · next hrun =>
    obtain ⟨hturn, hfirm'⟩ := runTrack_eq hfirm hi
    rw [← tracks_size_moves (moves_runTrack hrun)] at hrest
    exact ⟨hturn, hfirm', hrest⟩
  · exact ⟨rfl, hfirm, hrest⟩

/-! ## Ticks -/

/-- One step of the fade of the chip's master volume. -/
def fadeMaster (e : Engine σ) : Except Fault (Engine σ) := do
  match ← stepFade e.masterFade with
  | (none, _) => return e
  | (some volume, masterFade) => return { e with
      masterFade, masterVolume := volume, chip := SoundChip.setMasterVolume volume e.chip }

/-- One step of the fade of the disc input. -/
def fadeCd (e : Engine σ) : Except Fault (Engine σ) := do
  match ← stepFade e.cdFade with
  | (none, _) => return e
  | (some volume, cdFade) => return { e with
      cdFade, cdVolume := volume, chip := SoundChip.setCdVolume volume e.chip }

/-- A tick up to the turn of the first track. -/
def beforeTracks (e : Engine σ) : Except Fault (Engine σ) := do
  let e ← fadeMaster { e with ticks := e.ticks + 1 }
  let e ← fadeCd e
  let clock ← advanceClock e.clock
  return { e with clock }

/-- One tick. -/
def tick (e : Engine σ) : Except Fault (Engine σ) := do
  let e ← beforeTracks e
  if e.tracksActive = 0 then serviceVoices e
  else
    let e ← runTracks e
    serviceVoices e

theorem fadeMaster_eq (h : Firm held e) :
    fadeMaster e = .ok e.fadeMaster ∧ Firm held e.fadeMaster := by
  have hstep := Fade.fits_step h.steady.masterFade
  unfold fadeMaster Engine.fadeMaster
  rw [stepFade_eq h.steady.masterFade, ok_bind]
  generalize e.masterFade.step = step at hstep ⊢
  obtain ⟨volume, fade⟩ := step
  cases volume with
  | none => exact ⟨rfl, h⟩
  | some volume => exact ⟨rfl, h.of_pools rfl h.steady.frac_lt hstep h.steady.cdFade⟩

theorem fadeCd_eq (h : Firm held e) : fadeCd e = .ok e.fadeCd ∧ Firm held e.fadeCd := by
  have hstep := Fade.fits_step h.steady.cdFade
  unfold fadeCd Engine.fadeCd
  rw [stepFade_eq h.steady.cdFade, ok_bind]
  generalize e.cdFade.step = step at hstep ⊢
  obtain ⟨volume, fade⟩ := step
  cases volume with
  | none => exact ⟨rfl, h⟩
  | some volume => exact ⟨rfl, h.of_pools rfl h.steady.frac_lt h.steady.masterFade hstep⟩

theorem frac_advance_lt (c : MsClock) : c.advance.frac < 65536 := by
  unfold MsClock.advance
  exact Nat.mod_lt _ (by decide)

theorem beforeTracks_eq (h : Firm held e) :
    beforeTracks e = .ok e.beforeTracks ∧ Firm held e.beforeTracks := by
  have hcount : Firm held { e with ticks := e.ticks + 1 } :=
    h.of_pools rfl h.steady.frac_lt h.steady.masterFade h.steady.cdFade
  obtain ⟨hmaster, hmastered⟩ := fadeMaster_eq hcount
  obtain ⟨hcd, hfaded⟩ := fadeCd_eq hmastered
  unfold beforeTracks Engine.beforeTracks
  rw [hmaster, ok_bind, hcd, ok_bind, advanceClock_eq hfaded.steady.frac_lt, ok_bind, pure_eq]
  exact ⟨rfl, hfaded.of_pools (by simp only [pools]) (frac_advance_lt _) hfaded.steady.masterFade
    hfaded.steady.cdFade⟩

theorem tick_eq (h : Firm held e) : tick e = .ok e.tick ∧ Firm held e.tick := by
  obtain ⟨hbefore, hfirm⟩ := beforeTracks_eq h
  unfold tick
  rw [hbefore, ok_bind, Engine.tick_eq, beforeUpkeep_eq_beforeTracks]
  split
  · exact serviceVoices_eq hfirm
  · obtain ⟨hrun, hplayed⟩ := runTracks_eq hfirm
    rw [hrun, ok_bind]
    exact serviceVoices_eq hplayed

end Machine

end SoundSequencer
