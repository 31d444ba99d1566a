/-
SoundSequencer.Proofs.Score — the course of a sequence, without sound.

* `Track.control` is what is left of a track without voices and bookkeeping.
  `Engine.part` is the control of the track at a position of a slot, as long
  as the track runs.
* `Score` holds a sequence's streams, the parts that run and its gates and
  counters, and nothing of other sequences, voices or pools. `Score.step`
  executes a command of a part, `Score.run` is a tick of a part and
  `Score.turns` one of all.
* `Engine.score` is the score of a slot. `Follows` says that what an engine does
  for a track turns the score of the track's slot into a given one and leaves
  all others alone.
-/
import SoundSequencer.Proofs.OneTrack
import SoundSequencer.Proofs.WellFormed

namespace SoundSequencer

/-! ## Control -/

namespace Track

/-- The control of a track: driver, controls, times, place in the stream and the flags
that they depend on. -/
def control (t : Track) : Track where
  flags := { active := true, looped := t.flags.looped, timed := t.flags.timed,
             handled := t.flags.handled }
  driver := t.driver
  patch := t.patch
  pitch := t.pitch
  volume := t.volume
  pan := t.pan
  ppq := t.ppq
  qpm := t.qpm
  ppi := t.ppi
  frac := t.frac
  total := t.total
  acc := t.acc
  endAt := t.endAt
  delta := t.delta
  pc := t.pc
  returns := t.returns
  returnDepth := t.returnDepth

/-- The control of a track that runs. -/
def running? (t : Track) : Option Track := if t.isRunning then some t.control else none

theorem running?_of_not_isRunning {t : Track} (h : t.isRunning = false) : t.running? = none := by
  simp [running?, h]

theorem running?_of_isStopped {t : Track} (h : t.isStopped = true) : t.running? = none :=
  running?_of_not_isRunning (by simp [isRunning, h])

theorem running?_of_isRunning {t : Track} (h : t.isRunning = true) :
    t.running? = some t.control := if_pos h

/-- A track that is turned off does not run, where such tracks are paused. -/
theorem OffRests.running? {t : Track} (h : t.OffRests) (hoff : t.flags.off = true) :
    t.running? = none := by
  cases hactive : t.isActive with
  | false => exact running?_of_not_isRunning (by simp [isRunning, hactive])
  | true => exact running?_of_isStopped (h hactive hoff)

/-- What a command of the driver does to the control of a track that has voices. -/
def voiced (t : Track) (c : Command) : Track :=
  match c.op with
  | .patchChange => { t with patch := c.word 1 }
  | .pitchMod => { t with pitch := c.signedWord 1 }
  | .volumeMod => { t with volume := c.byte 1 }
  | .panMod => { t with pan := c.byte 1 }
  | _ => t

/-- What a command of the driver does to the control of a track. -/
def conducted (t : Track) (c : Command) : Track :=
  match t.driver with
  | .silent => t.silentCommand c
  | .voices => t.voiced c

end Track

/-- The gates and counters of a slot. -/
def Slot.boxes (s : Slot) : Slot := { gates := s.gates, iters := s.iters }

/-! ## Scores -/

/-- A sequence as it plays: the stream of each of its tracks, the control of each that
runs, and its gates and counters. -/
@[ext] structure Score where
  streams : Nat → Option TrackStream
  parts : Nat → Option Track
  boxes : Slot

namespace Score

/-- The score with `f` applied to the part at position `p`. -/
def modify (m : Score) (p : Nat) (f : Track → Track) : Score :=
  { m with parts := fun q => if q = p then (m.parts p).map f else m.parts q }

/-- The score without the part at position `p`. -/
def silence (m : Score) (p : Nat) : Score :=
  { m with parts := fun q => if q = p then none else m.parts q }

/-- The score without parts. -/
def finish (m : Score) : Score := { m with parts := fun _ => none }

/-- The part at position `p` on a course. -/
def move (m : Score) (p : Nat) (course : Course) : Score × Flow :=
  (m.modify p fun t => (course (m.streams p) t).1,
    (m.parts p).elim .advance fun t => (course (m.streams p) t).2)

/-- Every part on its course; the flow is that of the part at position `p`. -/
def moveAll (m : Score) (p : Nat) (course : Course) : Score × Flow :=
  ({ m with parts := fun q => (m.parts q).map fun t => (course (m.streams q) t).1 },
    (m.parts p).elim .advance fun t => (course (m.streams p) t).2)

/-- The part at position `p` behind the delta time at `offset`. Where its stream ends, so
does the score. -/
def nextEvent (m : Score) (p offset : Nat) : Score :=
  match m.parts p with
  | none => m
  | some t =>
    match t.behindDelta? (m.streams p) offset with
    | some t => m.modify p fun _ => t
    | none => m.finish

/-- The end of part `t` at position `p`. -/
def endTrack (m : Score) (p : Nat) (t : Track) : Score × Flow :=
  match if t.flags.looped && minLoopParts ≤ t.total then t.behindDelta? (m.streams p) 0
    else none with
  | some t => (m.modify p fun _ => t, .hold)
  | none => (m.silence p, .hold)

/-- A command of the sequencer for part `t` at position `p`. -/
def command (m : Score) (p : Nat) (t : Track) (c : Command) : Score × Flow :=
  match c.op with
  | .gateJump =>
    let (boxes, isOpen) := m.boxes.passGate (c.byte 1) (c.byte 2)
    if isOpen then { m with boxes }.move p (Track.jumped (c.signedWord 3)) else (m, .advance)
  | .iterJump =>
    let (boxes, taken) := m.boxes.countDown (c.byte 1) (c.byte 2)
    if taken then { m with boxes }.move p (Track.jumped (c.signedWord 3)) else (m, .advance)
  | .resetGates => ({ m with boxes := m.boxes.resetGates (c.byte 1) }, .advance)
  | .resetIters => ({ m with boxes := m.boxes.resetIters (c.byte 1) }, .advance)
  | .writeIter => ({ m with boxes := m.boxes.writeIter (c.byte 1) (c.byte 2) }, .advance)
  | .seqTempo =>
    ({ m with parts := fun q => (m.parts q).map (·.setTempo (c.word 1)) }, .advance)
  | .seqGosub =>
    if ((m.streams p).bind (·.label? (c.signedWord 1).toInt)).isNone then (m, .advance)
    else m.moveAll p (Track.gosubbed (c.signedWord 1))
  | .seqJump =>
    if ((m.streams p).bind (·.label? (c.signedWord 1).toInt)).isNone then (m, .advance)
    else m.moveAll p (Track.jumped (c.signedWord 1))
  | .seqReturn => m.moveAll p Track.wentBack
  | .seqEnd => (m.finish, .hold)
  | .trackTempo => (m.modify p (·.setTempo (c.word 1)), .advance)
  | .trackGosub => m.move p (Track.gosubbed (c.signedWord 1))
  | .trackJump =>
    match m.move p (Track.jumped (c.signedWord 1)) with
    | (m, .hold) => (m.modify p fun t => { t with delta := 0 }, .hold)
    | (m, .advance) => (m, .advance)
  | .trackReturn => m.move p Track.wentBack
  | .trackEnd => m.endTrack p t
  | _ => (m, .advance)

/-- Executes the command at the place of the part at position `p`. -/
def step (m : Score) (p : Nat) : Score :=
  match m.parts p with
  | none => m
  | some t =>
    match (m.streams p).bind fun s => Command.decodeAt s.bytes t.pc with
    | none => m.finish
    | some c =>
      if c.op.isDriver then (m.modify p (·.conducted c)).nextEvent p (t.pc + c.length)
      else if c.op.isEngine then
        let (m, flow) := m.command p t c
        if flow = .advance then m.nextEvent p (t.pc + c.length) else m
      else m.finish

/-- Whether the time of the part at position `p` covers the wait for its next command. -/
def isDue (m : Score) (p : Nat) : Bool := (m.parts p).any fun t => t.delta ≤ t.acc

/-- Executes what is due on the part at position `p`, at most `budget` commands. -/
def runDue : (budget : Nat) → Score → Nat → Score
  | 0, m, p => if m.isDue p then m.silence p else m
  | budget + 1, m, p =>
    if m.isDue p then
      runDue budget ((m.modify p fun t => { t with acc := t.acc - t.delta }).step p) p
    else m

/-- One tick of the part at position `p`. -/
def run (m : Score) (p : Nat) : Score :=
  let m := m.modify p Track.advance
  if (m.parts p).any Track.timeIsUp then m.silence p else runDue maxCommandsPerTick m p

/-- One tick of the parts at the first `n` positions. -/
def turns (m : Score) (n : Nat) : Score := (List.range n).foldl run m

end Score

namespace Engine

variable {σ : Type}

/-- The control of the track at position `p` of slot `s`, if there is one and it runs. -/
def part (e : Engine σ) (s p : Nat) : Option Track :=
  ((e.slot s).entry p).bind fun i => (e.track i).running?

/-- The score of slot `s`. -/
def score (e : Engine σ) (s : Nat) : Score where
  streams := e.module.track? (e.slot s).sequence
  parts := e.part s
  boxes := (e.slot s).boxes

/-! ## Reading a score -/

section Reading

variable {e : Engine σ} {i : Nat}

theorem Placed.entry_iff (h : e.Placed) (hi : (e.track i).isActive = true) {s p : Nat} :
    (e.slot s).entry p = some i ↔ (e.track i).slot = s ∧ (e.track i).position = p := by
  constructor
  · intro hp
    obtain ⟨-, -, hslot, hposition⟩ := h.entry s p i hp
    exact ⟨hslot, hposition⟩
  · rintro ⟨rfl, rfl⟩
    exact (h.home i hi).2.1

theorem Placed.part_self (h : e.Placed) (hi : (e.track i).isActive = true) :
    (e.score (e.track i).slot).parts (e.track i).position = (e.track i).running? := by
  show ((e.slot _).entry _).bind _ = _
  rw [(h.home i hi).2.1]
  rfl

theorem Placed.streams_self (h : e.Placed) (hi : (e.track i).isActive = true) :
    (e.score (e.track i).slot).streams (e.track i).position = e.stream? i := by
  show e.module.track? _ _ = e.module.track? _ _
  rw [(h.home i hi).2.2]

end Reading

/-! ## Following a score -/

/-- The score of the slot of track `i` becomes `m`, and no other score changes. -/
structure Follows (e e' : Engine σ) (i : Nat) (m : Score) : Prop where
  home : e'.score (e.track i).slot = m
  other : ∀ s, (e.track i).slot ≠ s → e'.score s = e.score s

namespace Follows

variable {e e' e'' : Engine σ} {i : Nat} {m : Score}

theorem of_same (h : ∀ s, e'.score s = e.score s) :
    Follows e e' i (e.score (e.track i).slot) :=
  ⟨h _, fun s _ => h s⟩

theorem refl (e : Engine σ) (i : Nat) : Follows e e i (e.score (e.track i).slot) :=
  of_same fun _ => rfl

/-- One thing after another. -/
theorem next (h : Follows e e' i m) (hplace : (e'.track i).place = (e.track i).place)
    {f : Score → Nat → Score}
    (h' : Follows e' e'' i (f (e'.score (e'.track i).slot) (e'.track i).position)) :
    Follows e e'' i (f m (e.track i).position) := by
  simp only [Track.place, Prod.mk.injEq] at hplace
  obtain ⟨hslot, -, hposition⟩ := hplace
  refine ⟨?_, fun s hs => ?_⟩
  · have hhome := h'.home
    rwa [hslot, hposition, h.home] at hhome
  · rw [h'.other s (by rwa [hslot]), h.other s hs]

end Follows

/-- Changes that no score shows. -/
theorem score_congr (e e' : Engine σ) (hmodule : e'.module = e.module) (s : Nat)
    (hslot : (e'.slot s).sequence = (e.slot s).sequence ∧
      (e'.slot s).boxes = (e.slot s).boxes ∧
      ∀ p, (e'.slot s).entry p = (e.slot s).entry p)
    (htrack : ∀ p i, (e.slot s).entry p = some i →
      (e'.track i).running? = (e.track i).running?) : e'.score s = e.score s := by
  obtain ⟨hsequence, hboxes, hentry⟩ := hslot
  refine Score.ext ?_ (funext fun p => ?_) hboxes
  · show e'.module.track? _ = e.module.track? _
    rw [hmodule, hsequence]
  · show ((e'.slot s).entry p).bind _ = ((e.slot s).entry p).bind _
    rw [hentry]
    cases hp : (e.slot s).entry p with
    | none => rfl
    | some i => exact htrack p i hp

/-- A change of a track in its place is a change of its part. -/
theorem follows_modifyTrack {e : Engine σ} (h : e.Placed) {i : Nat}
    (hi : (e.track i).isActive = true) {f g : Track → Track}
    (hf : (f (e.track i)).running? = (e.track i).running?.map g) :
    Follows e (e.modifyTrack i f) i
      ((e.score (e.track i).slot).modify (e.track i).position g) := by
  have hself : (e.modifyTrack i f).track i = f (e.track i) := by
    rw [track_modifyTrack, if_pos ⟨rfl, lt_size_of_isActive hi⟩]
  have hother : ∀ j, j ≠ i → (e.modifyTrack i f).track j = e.track j := by
    intro j hj
    rw [track_modifyTrack, if_neg fun hp => hj hp.1.symm]
  refine ⟨Score.ext rfl (funext fun p => ?_) rfl, fun s hs => ?_⟩
  · show ((e.slot _).entry p).bind _ = if _ then _ else ((e.slot _).entry p).bind _
    by_cases hp : p = (e.track i).position
    · subst hp
      rw [if_pos rfl, h.part_self hi, (h.home i hi).2.1]
      show ((e.modifyTrack i f).track i).running? = _
      rw [hself, hf]
    · rw [if_neg hp]
      cases hentry : (e.slot (e.track i).slot).entry p with
      | none => rfl
      | some j =>
        have hj : j ≠ i := by
          rintro rfl
          exact hp ((h.entry_iff hi).mp hentry).2.symm
        show ((e.modifyTrack i f).track j).running? = (e.track j).running?
        rw [hother j hj]
  · refine score_congr e (e.modifyTrack i f) rfl s ⟨rfl, rfl, fun _ => rfl⟩ fun p j hentry => ?_
    have hj : j ≠ i := by
      rintro rfl
      exact hs ((h.entry_iff hi).mp hentry).1
    rw [hother j hj]

/-- A change of the gates and counters of a track's slot. -/
theorem follows_modifySlot {e : Engine σ} (h : e.Placed) {i : Nat}
    (hi : (e.track i).isActive = true) {f : Slot → Slot} {boxes : Slot}
    (htracks : (f (e.slot (e.track i).slot)).tracks = (e.slot (e.track i).slot).tracks)
    (hsequence : (f (e.slot (e.track i).slot)).sequence = (e.slot (e.track i).slot).sequence)
    (hboxes : (f (e.slot (e.track i).slot)).boxes = boxes) :
    Follows e (e.modifySlot (e.track i).slot f) i { e.score (e.track i).slot with boxes } := by
  have hself : (e.modifySlot (e.track i).slot f).slot (e.track i).slot =
      f (e.slot (e.track i).slot) := by
    rw [slot_modifySlot, if_pos ⟨rfl, lt_size_of_active (h.home i hi).1⟩]
  refine ⟨Score.ext ?_ (funext fun p => ?_) ?_, fun s hs => ?_⟩
  · show e.module.track? _ = e.module.track? _
    rw [hself, hsequence]
  · show ((Engine.slot _ _).entry p).bind _ = ((e.slot _).entry p).bind _
    rw [hself]
    unfold Slot.entry
    rw [htracks]
    rfl
  · show (Engine.slot _ _).boxes = boxes
    rw [hself, hboxes]
  · have hsame : (e.modifySlot (e.track i).slot f).slot s = e.slot s := by
      rw [slot_modifySlot, if_neg fun hp => hs hp.1]
    refine score_congr e (e.modifySlot (e.track i).slot f) rfl s ?_ fun _ _ _ => rfl
    rw [hsame]
    exact ⟨rfl, rfl, fun _ => rfl⟩

/-! ## Tracks that end -/

/-- Slots keep their sequence, their gates and counters and all tracks that are not in
`l`, and those are as they were. No slot gets a track. -/
structure Spares (l : List Nat) (e e' : Engine σ) : Prop where
  module : e'.module = e.module
  sequence : ∀ s, (e'.slot s).sequence = (e.slot s).sequence
  boxes : ∀ s, (e'.slot s).boxes = (e.slot s).boxes
  sheds : ∀ s p j, (e'.slot s).entry p = some j → (e.slot s).entry p = some j
  entry : ∀ s p j, j ∉ l → (e.slot s).entry p = some j → (e'.slot s).entry p = some j
  track : ∀ j, j ∉ l → e'.track j = e.track j

namespace Spares

variable {l : List Nat} {e e' e'' : Engine σ}

theorem refl (l : List Nat) (e : Engine σ) : Spares l e e :=
  ⟨rfl, fun _ => rfl, fun _ => rfl, fun _ _ _ h => h, fun _ _ _ _ h => h, fun _ _ => rfl⟩

theorem trans (h : Spares l e e') (h' : Spares l e' e'') : Spares l e e'' where
  module := h'.module.trans h.module
  sequence s := (h'.sequence s).trans (h.sequence s)
  boxes s := (h'.boxes s).trans (h.boxes s)
  sheds s p j hentry := h.sheds s p j (h'.sheds s p j hentry)
  entry s p j hj hentry := h'.entry s p j hj (h.entry s p j hj hentry)
  track j hj := (h'.track j hj).trans (h.track j hj)

theorem mono {l' : List Nat} (h : Spares l e e') (hl : ∀ j ∈ l, j ∈ l') : Spares l' e e' where
  module := h.module
  sequence := h.sequence
  boxes := h.boxes
  sheds := h.sheds
  entry s p j hj := h.entry s p j fun hmem => hj (hl j hmem)
  track j hj := h.track j fun hmem => hj (hl j hmem)

end Spares

theorem spares_modifyTrack (e : Engine σ) (i : Nat) (f : Track → Track) :
    Spares [i] e (e.modifyTrack i f) := by
  refine ⟨rfl, fun _ => rfl, fun _ => rfl, fun _ _ _ h => h, fun _ _ _ _ h => h, fun j hj => ?_⟩
  rw [track_modifyTrack, if_neg fun hp => hj (by simp [hp.1])]

/-- A slot may lose track `i`, as long as it keeps all others. -/
theorem spares_modifySlot (e : Engine σ) (i s : Nat) {f : Slot → Slot}
    (hsequence : ∀ s, (f s).sequence = s.sequence) (hboxes : ∀ s, (f s).boxes = s.boxes)
    (hentry : ∀ s p, (f s).entry p = s.entry p ∨ (f s).entry p = none ∧ s.entry p = some i) :
    Spares [i] e (e.modifySlot s f) := by
  refine ⟨rfl, fun r => ?_, fun r => ?_, fun r p j => ?_, fun r p j hj => ?_, fun _ _ => rfl⟩
  · rw [slot_modifySlot]
    split
    · exact hsequence _
    · rfl
  · rw [slot_modifySlot]
    split
    · exact hboxes _
    · rfl
  · rw [slot_modifySlot]
    split
    · rcases hentry (e.slot r) p with hsame | ⟨hnone, -⟩
      · rw [hsame]
        exact id
      · rw [hnone]
        exact nofun
    · exact id
  · rw [slot_modifySlot]
    split
    · rcases hentry (e.slot r) p with hsame | ⟨-, hsome⟩
      · rw [hsame]
        exact id
      · rw [hsome, Option.some.injEq]
        intro hij
        exact absurd (by simp [hij]) hj
    · exact id

theorem spares_pauseTrack (e : Engine σ) (i : Nat) : Spares [i] e (e.pauseTrack i) := by
  unfold pauseTrack
  split
  · exact .refl _ e
  · exact (spares_modifyTrack e i _).trans (spares_modifySlot _ i _ (f := Slot.stopped)
      (fun _ => rfl) (fun _ => rfl) fun _ _ => .inl rfl)

theorem spares_leavePool (e : Engine σ) (i : Nat) : Spares [i] e (e.leavePool i) := by
  have hleave := (spares_modifyTrack e i fun t =>
    { t with flags := { t.flags with active := false } }).trans
      (spares_modifySlot _ i (e.track i).slot (f := (·.withoutTrack i)) (fun _ => rfl)
        (fun _ => rfl) fun s p => by
          rw [Slot.entry_withoutTrack]
          split
          · next hp => exact .inr ⟨rfl, hp⟩
          · exact .inl rfl)
  exact ⟨hleave.module, hleave.sequence, hleave.boxes, hleave.sheds, hleave.entry, hleave.track⟩

theorem spares_retireTrack (e : Engine σ) (i : Nat) : Spares [i] e (e.retireTrack i) := by
  unfold retireTrack
  dsimp only
  refine (spares_pauseTrack e i).trans (.trans ?_ (spares_modifyTrack _ i _))
  split
  · exact .refl _ _
  · exact spares_leavePool _ i

theorem spares_turnOff (e : Engine σ) (i : Nat) : Spares [i] e (e.turnOff i) := by
  have hrelease : Spares [i] e (e.releaseVoices i) := by
    unfold releaseVoices
    split
    · exact .refl _ e
    · exact ⟨rfl, fun _ => rfl, fun _ => rfl, fun _ _ _ h => h, fun _ _ _ _ h => h,
        fun _ _ => rfl⟩
  rw [turnOff_eq]
  split
  · exact spares_retireTrack e i
  · split
    · exact spares_retireTrack e i
    · refine hrelease.trans ((spares_modifyTrack _ i _).trans (spares_modifySlot _ i _ ?_ ?_ ?_))
      · intro s
        split <;> rfl
      · intro s
        split <;> rfl
      · intro s p
        refine .inl ?_
        split <;> rfl

/-- The tracks in `l` run no longer, and all else is spared. -/
structure Quits (l : List Nat) (e e' : Engine σ) : Prop extends Spares l e e' where
  rests : ∀ i, i ∈ l → (e'.track i).running? = none

theorem quits_retireTrack (e : Engine σ) (i : Nat) : Quits [i] e (e.retireTrack i) := by
  refine ⟨spares_retireTrack e i, fun j hj => ?_⟩
  obtain rfl : j = i := by simpa using hj
  by_cases hsize : j < e.tracks.size
  · rw [track_retireTrack, if_pos ⟨rfl, hsize⟩]
    exact Track.running?_of_isStopped rfl
  · rw [track_of_size_le]
    · rfl
    · rw [(sameSound_retireTrack e j).tracks_size]
      exact Nat.le_of_not_lt hsize

theorem quits_turnOff (e : Engine σ) (i : Nat) : Quits [i] e (e.turnOff i) := by
  refine ⟨spares_turnOff e i, fun j hj => ?_⟩
  obtain rfl : j = i := by simpa using hj
  rw [turnOff_eq]
  split
  · exact (quits_retireTrack e j).rests j hj
  · split
    · exact (quits_retireTrack e j).rests j hj
    · next hvoices =>
      have hsize : j < e.tracks.size := by
        by_contra hout
        rw [track_of_size_le (Nat.le_of_not_lt hout)] at hvoices
        exact hvoices rfl
      rw [track_awaitVoices, if_pos ⟨rfl, by rwa [tracks_size_releaseVoices]⟩]
      exact Track.running?_of_isStopped rfl

theorem quits_foldl_turnOff : ∀ (l : List Nat) (e : Engine σ), Quits l e (l.foldl turnOff e)
  | [], e => ⟨.refl _ e, nofun⟩
  | i :: l, e => by
    have hfirst := quits_turnOff e i
    have hrest := quits_foldl_turnOff l (e.turnOff i)
    refine ⟨(hfirst.toSpares.mono (by simp)).trans
      (hrest.toSpares.mono fun j hj => List.mem_cons_of_mem i hj), fun j hj => ?_⟩
    by_cases hl : j ∈ l
    · exact hrest.rests j hl
    · rw [List.foldl_cons, hrest.track j hl]
      exact hfirst.rests j (by simpa using (List.mem_cons.mp hj).resolve_right hl)

namespace Quits

variable {l : List Nat} {e e' : Engine σ}

/-- A score has no more part for a track that quit, and all others as before. -/
theorem part (h : Quits l e e') (s p : Nat) :
    e'.part s p = if ∃ i ∈ l, (e.slot s).entry p = some i then none else e.part s p := by
  unfold Engine.part
  split
  · next hquit =>
    obtain ⟨i, hi, hold⟩ := hquit
    cases hnew : (e'.slot s).entry p with
    | none => rfl
    | some j =>
      rw [h.sheds s p j hnew, Option.some.injEq] at hold
      exact h.rests j (hold ▸ hi)
  · next hstays =>
    cases hold : (e.slot s).entry p with
    | none =>
      cases hnew : (e'.slot s).entry p with
      | none => rfl
      | some j =>
        rw [h.sheds s p j hnew] at hold
        cases hold
    | some i =>
      have hi : i ∉ l := fun hi => hstays ⟨i, hi, hold⟩
      rw [h.entry s p i hi hold]
      show (e'.track i).running? = (e.track i).running?
      rw [h.track i hi]

theorem streams (h : Quits l e e') (s : Nat) : (e'.score s).streams = (e.score s).streams := by
  show e'.module.track? _ = e.module.track? _
  rw [h.module, h.sequence]

/-- A score does not show that tracks quit of which none was a part. -/
theorem score_eq (h : Quits l e e') {s : Nat}
    (hrests : ∀ i ∈ l, ∀ p, (e.slot s).entry p = some i → (e.track i).running? = none) :
    e'.score s = e.score s := by
  refine Score.ext (h.streams s) (funext fun p => ?_) (h.boxes s)
  show e'.part s p = e.part s p
  rw [h.part]
  split
  · next hquit =>
    obtain ⟨i, hi, hentry⟩ := hquit
    unfold Engine.part
    rw [hentry]
    exact (hrests i hi p hentry).symm
  · rfl

end Quits

/-- A track that is turned off is no part of its score any more. -/
theorem follows_turnOff {e : Engine σ} (h : e.Placed) {i : Nat}
    (hi : (e.track i).isActive = true) :
    Follows e (e.turnOff i) i ((e.score (e.track i).slot).silence (e.track i).position) := by
  have hquits := quits_turnOff e i
  refine ⟨Score.ext (hquits.streams _) (funext fun p => ?_) (hquits.boxes _), fun s hs => ?_⟩
  · show (e.turnOff i).part _ p = if _ then _ else e.part _ p
    rw [hquits.part]
    by_cases hp : p = (e.track i).position
    · subst hp
      rw [if_pos ⟨i, List.mem_singleton_self i, (h.home i hi).2.1⟩, if_pos rfl]
    · rw [if_neg hp, if_neg]
      rintro ⟨j, hj, hentry⟩
      obtain rfl : j = i := by simpa using hj
      exact hp ((h.entry_iff hi).mp hentry).2.symm
  · refine hquits.score_eq fun j hj p hentry => ?_
    obtain rfl : j = i := by simpa using hj
    exact absurd ((h.entry_iff hi).mp hentry).1 hs

/-- With its sequence, a score is at its end. -/
theorem follows_endSequence {e : Engine σ} (h : e.Placed)
    (hwide : e.module.widestSequence ≤ maxTracksPerSequence) {i : Nat}
    (hi : (e.track i).isActive = true) :
    Follows e (e.endSequence (e.track i).slot) i (e.score (e.track i).slot).finish := by
  have hquits : Quits (e.slot (e.track i).slot).trackList e (e.endSequence (e.track i).slot) :=
    quits_foldl_turnOff _ e
  have hlist := h.trackList_eq hwide (h.home i hi).1
  refine ⟨Score.ext (hquits.streams _) (funext fun p => ?_) (hquits.boxes _), fun s hs => ?_⟩
  · show (e.endSequence _).part _ p = none
    rw [hquits.part, hlist]
    split
    · rfl
    · next hnone =>
      unfold Engine.part
      cases hentry : (e.slot (e.track i).slot).entry p with
      | none => rfl
      | some j => exact absurd ⟨j, Slot.mem_trackIds.mpr ⟨p, hentry⟩, hentry⟩ hnone
  · refine hquits.score_eq fun j hj p hentry => ?_
    obtain ⟨q, hq⟩ := Slot.mem_trackIds.mp (List.mem_of_mem_take hj)
    have hhome := (h.entry _ q j hq).2.2.1
    have hthere := (h.entry s p j hentry).2.2.1
    exact absurd (hhome.symm.trans hthere) hs

/-! ## Notes -/

/-- Changes of voices and chip, and of tracks as far as their voices go. -/
theorem score_of_voices {e e' : Engine σ} (hmodule : e'.module = e.module)
    (hslots : e'.slots = e.slots) (htrack : ∀ i, (e'.track i).running? = (e.track i).running?)
    (s : Nat) : e'.score s = e.score s := by
  have hslot : e'.slot s = e.slot s := by unfold Engine.slot; rw [hslots]
  refine score_congr e e' hmodule s ?_ fun _ i _ => htrack i
  rw [hslot]
  exact ⟨rfl, rfl, fun _ => rfl⟩

/-- A voice that is freed may end its owner, but only one that does not run. -/
theorem score_freeVoice {e : Engine σ} (hrests : ∀ i, (e.track i).OffRests) (v s : Nat) :
    (e.freeVoice v).score s = e.score s := by
  have hdropped : ∀ i, ((e.dropVoice v).track i).running? = (e.track i).running? := by
    intro i
    rw [track_dropVoice]
    split <;> rfl
  have hdrop : (e.dropVoice v).score s = e.score s :=
    @score_of_voices _ e (e.dropVoice v) rfl rfl hdropped s
  rw [freeVoice_eq]
  split
  · split
    · next hlast =>
      refine ((quits_retireTrack _ _).score_eq fun j hj _ _ => ?_).trans hdrop
      obtain rfl : j = (e.voice v).track := by simpa using hj
      have hoff : (e.track (e.voice v).track).flags.off = true := by
        have hlast := hlast.2
        rw [track_dropVoice] at hlast
        split at hlast
        · exact hlast
        · exact hlast
      rw [hdropped]
      exact (hrests _).running? hoff
    · exact hdrop
  · rfl

section Notes

variable [SoundChip σ]

theorem score_startVoice (e : Engine σ) (v i : Nat) (patchVoice : UInt16)
    (note velocity : UInt8) (s : Nat) :
    (e.startVoice v i patchVoice note velocity).score s = e.score s := by
  cases hpatch : e.module.patches.voice? patchVoice.toNat with
  | none => rw [startVoice_of_none hpatch]
  | some patch =>
    refine score_of_voices ?_ ?_ (fun j => ?_) s
    · obtain ⟨_, _, _, -, -, hstarted⟩ := startVoice_of_some v i note velocity hpatch
      rw [hstarted]
      rfl
    · obtain ⟨_, _, _, -, -, hstarted⟩ := startVoice_of_some v i note velocity hpatch
      rw [hstarted]
      rfl
    · rw [track_startVoice]
      split <;> rfl

theorem score_playNote {e : Engine σ} (hrests : ∀ i, (e.track i).OffRests) (i : Nat)
    (patchVoice : UInt16) (note velocity : UInt8) (s : Nat) :
    (e.playNote i patchVoice note velocity).score s = e.score s := by
  rcases playNote_eq e i patchVoice note velocity with heq | ⟨-, v, -, heq⟩
  · rw [heq]
  · rw [heq, score_startVoice, score_freeVoice hrests]

/-- No score shows a note, whatever voice it takes. -/
theorem score_noteOn {e : Engine σ} (hrests : ∀ i, (e.track i).OffRests) (i : Nat)
    (key velocity : UInt8) (s : Nat) : (e.noteOn i key velocity).score s = e.score s := by
  unfold noteOn
  split
  · rfl
  · next patch note _ =>
    have hkeys := foldl_keeps
      (f := fun e' index => e'.playNote i (UInt16.ofNat index) note velocity)
      (fun _ e' => (∀ i, (e'.track i).OffRests) ∧ e'.score s = e.score s)
      (fun index _ e' he => by
        obtain ⟨hrests, hscore⟩ := he
        refine ⟨(steps_playNote e' i _ note velocity).keeps
          (fun _ _ hstep => hstep.offRests) hrests, ?_⟩
        rw [score_playNote hrests, hscore])
      (soundingVoices e.module.patches patch note) e ⟨hrests, rfl⟩
    exact hkeys.2

end Notes

end Engine

end SoundSequencer
