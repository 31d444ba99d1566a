/-
SoundSequencer.Proofs.ScoreCommands — a command does to the score of its slot what it
does to the engine.

* `Course.OfControl` says of a course that it depends on the control of a track
  alone.
* `Flows` says of a command what `Follows` says of an engine, together with how the
  track goes on.
* `follows_nextEvent`, `flows_command` and `follows_driverCommand` are the
  interpreter, one score operation for each.
-/
import SoundSequencer.Proofs.Score

namespace SoundSequencer

/-! ## Courses -/

namespace Track

variable {t t' : Track}

theorem running?_map {f : Track → Track} (hrun : t'.isRunning = t.isRunning)
    (hcontrol : t'.control = f t.control) : t'.running? = t.running?.map f := by
  unfold running?
  rw [hrun]
  split
  · rw [hcontrol]
    rfl
  · rfl

theorem control_behindDelta? (t : Track) (stream : Option TrackStream) (offset : Nat) :
    t.control.behindDelta? stream offset = (t.behindDelta? stream offset).map control := by
  unfold behindDelta?
  rw [Option.map_map]
  rfl

theorem control_pushReturn? (t : Track) (address : Nat) :
    t.control.pushReturn? address = (t.pushReturn? address).map control := by
  have hreturns : t.control.returns = t.returns := rfl
  have hdepth : t.control.returnDepth = t.returnDepth := rfl
  unfold pushReturn?
  rw [hreturns, hdepth]
  split <;> rfl

theorem control_popReturn? (t : Track) :
    t.control.popReturn? = t.popReturn?.map fun popped => (popped.1, popped.2.control) := by
  have hreturns : t.control.returns = t.returns := rfl
  unfold popReturn?
  rw [hreturns]
  cases t.returns with
  | nil => rfl
  | cons address rest => rfl

end Track

/-- A course that depends on the control of a track alone, and leaves the track in its
place, running or not. -/
structure Course.OfControl (course : Course) : Prop where
  place : ∀ stream t, (course stream t).1.place = t.place
  isRunning : ∀ stream t, (course stream t).1.isRunning = t.isRunning
  control : ∀ stream t, (course stream t).1.control = (course stream t.control).1
  flow : ∀ stream t, (course stream t).2 = (course stream t.control).2

namespace Track

/-- A new tempo, as a course that leads nowhere. -/
def retempoed (qpm : UInt16) : Course := fun _ t => (t.setTempo qpm, .advance)

theorem ofControl_retempoed (qpm : UInt16) : Course.OfControl (retempoed qpm) :=
  ⟨fun _ _ => rfl, fun _ _ => rfl, fun _ _ => rfl, fun _ _ => rfl⟩

theorem ofControl_jumped (label : Int16) : Course.OfControl (jumped label) := by
  constructor <;> intro stream t <;> unfold jumped <;>
    cases stream.bind (·.label? label.toInt) <;> rfl

theorem ofControl_gosubbed (label : Int16) : Course.OfControl (gosubbed label) := by
  have hplace : ∀ stream t, (gosubbed label stream t).1.place = t.place ∧
      (gosubbed label stream t).1.isRunning = t.isRunning := by
    intro stream t
    unfold gosubbed
    cases stream.bind (·.label? label.toInt) with
    | none => exact ⟨rfl, rfl⟩
    | some pc =>
      cases hpush : t.pushReturn? (t.pc + Opcode.trackGosub.byteLength) with
      | none => exact ⟨rfl, rfl⟩
      | some t' =>
        obtain ⟨-, -, rfl⟩ := pushReturn?_eq_some hpush
        exact ⟨rfl, rfl⟩
  have hcontrol : ∀ stream t,
      (gosubbed label stream t).1.control = (gosubbed label stream t.control).1 ∧
        (gosubbed label stream t).2 = (gosubbed label stream t.control).2 := by
    intro stream t
    unfold gosubbed
    cases stream.bind (·.label? label.toInt) with
    | none => exact ⟨rfl, rfl⟩
    | some pc =>
      have hpc : t.control.pc = t.pc := rfl
      simp only [hpc, control_pushReturn?]
      cases t.pushReturn? (t.pc + Opcode.trackGosub.byteLength) with
      | none => exact ⟨rfl, rfl⟩
      | some t' => exact ⟨rfl, rfl⟩
  exact ⟨fun stream t => (hplace stream t).1, fun stream t => (hplace stream t).2,
    fun stream t => (hcontrol stream t).1, fun stream t => (hcontrol stream t).2⟩

theorem ofControl_wentBack : Course.OfControl wentBack := by
  have hplace : ∀ stream t, (wentBack stream t).1.place = t.place ∧
      (wentBack stream t).1.isRunning = t.isRunning := by
    intro stream t
    unfold wentBack
    cases hpop : t.popReturn? with
    | none => exact ⟨rfl, rfl⟩
    | some popped =>
      obtain ⟨address, t'⟩ := popped
      obtain ⟨-, ht'⟩ := popReturn?_eq_some hpop
      have hkept : t'.place = t.place ∧ t'.isRunning = t.isRunning := by
        rw [ht']
        exact ⟨rfl, rfl⟩
      dsimp only
      cases hread : t'.behindDelta? stream address with
      | none => exact hkept
      | some t'' =>
        obtain ⟨_, _, -, rfl⟩ := behindDelta?_eq_some hread
        exact hkept
  have hcontrol : ∀ stream t,
      (wentBack stream t).1.control = (wentBack stream t.control).1 ∧
        (wentBack stream t).2 = (wentBack stream t.control).2 := by
    intro stream t
    unfold wentBack
    rw [control_popReturn?]
    cases t.popReturn? with
    | none => exact ⟨rfl, rfl⟩
    | some popped =>
      simp only [Option.map_some, control_behindDelta?]
      cases popped.2.behindDelta? stream popped.1 with
      | none => exact ⟨rfl, rfl⟩
      | some t' => exact ⟨rfl, rfl⟩
  exact ⟨fun stream t => (hplace stream t).1, fun stream t => (hplace stream t).2,
    fun stream t => (hcontrol stream t).1, fun stream t => (hcontrol stream t).2⟩

end Track

/-! ## What the score shows of a track -/

namespace Score

/-- A change that does not show. -/
theorem modify_self {m : Score} {p : Nat} {f : Track → Track}
    (h : ∀ t, m.parts p = some t → f t = t) : m.modify p f = m := by
  refine Score.ext rfl (funext fun q => ?_) rfl
  show (if q = p then (m.parts p).map f else m.parts q) = m.parts q
  split
  · next hq =>
    subst hq
    cases hpart : m.parts q with
    | none => rfl
    | some t => rw [Option.map_some, h t hpart]
  · rfl

/-- Changes that show alike. -/
theorem modify_congr {m : Score} {p : Nat} {f g : Track → Track}
    (h : ∀ t, m.parts p = some t → f t = g t) : m.modify p f = m.modify p g := by
  refine Score.ext rfl (funext fun q => ?_) rfl
  show (if q = p then (m.parts p).map f else m.parts q) =
    if q = p then (m.parts p).map g else m.parts q
  split
  · cases hpart : m.parts p with
    | none => rfl
    | some t => rw [Option.map_some, Option.map_some, h t hpart]
  · rfl

/-- No command moves on a part that is not there. -/
theorem nextEvent_of_none {m : Score} {p : Nat} (h : m.parts p = none) (offset : Nat) :
    m.nextEvent p offset = m := by
  unfold nextEvent
  rw [h]

theorem isDue_of_none {m : Score} {p : Nat} (h : m.parts p = none) : m.isDue p = false := by
  unfold isDue
  rw [h]
  rfl

theorem runDue_of_not_isDue {m : Score} {p : Nat} (h : m.isDue p = false) :
    ∀ budget, runDue budget m p = m
  | 0 => by unfold runDue; rw [h]; rfl
  | _ + 1 => by unfold runDue; rw [h]; rfl

/-- A part that is not there has no turn. -/
theorem run_of_none {m : Score} {p : Nat} (h : m.parts p = none) : m.run p = m := by
  have hadvance : m.modify p Track.advance = m :=
    modify_self fun t ht => by rw [h] at ht; cases ht
  have hnone : (m.parts p).any Track.timeIsUp = false := by rw [h]; rfl
  unfold run
  dsimp only
  rw [hadvance, hnone]
  exact runDue_of_not_isDue (isDue_of_none h) _

end Score

namespace Engine

variable {σ : Type}

namespace Follows

variable {e e' e'' : Engine σ} {i : Nat} {m : Score}

/-- What no score shows may come after. -/
theorem congr (h : Follows e e' i m) (hscore : ∀ s, e''.score s = e'.score s) :
    Follows e e'' i m :=
  ⟨(hscore _).trans h.home, fun s hs => (hscore s).trans (h.other s hs)⟩

end Follows

/-- The score follows, and a track that still runs goes on as its part does. -/
structure Flows (e : Engine σ) (moved : Engine σ × Flow) (i : Nat) (m : Score × Flow) : Prop where
  follows : Follows e moved.1 i m.1
  flow : (moved.1.track i).isRunning = true → moved.2 = m.2

/-! ## Moves of tracks -/

section Courses

variable {course : Course}

theorem follows_move {e : Engine σ} (h : e.Placed) {i : Nat}
    (hi : (e.track i).isActive = true) (hcourse : course.OfControl) :
    Follows e (e.move i course).1 i
      ((e.score (e.track i).slot).move (e.track i).position course).1 := by
  show Follows e (e.modifyTrack i fun _ => _) i (Score.modify _ _ fun t =>
    (course ((e.score (e.track i).slot).streams (e.track i).position) t).1)
  rw [h.streams_self hi]
  exact follows_modifyTrack h hi
    (Track.running?_map (hcourse.isRunning _ _) (hcourse.control _ _))

/-- A track that runs goes on as its part does. -/
theorem flow_part {e : Engine σ} (h : e.Placed) {i : Nat} (hrun : (e.track i).isRunning = true)
    (hcourse : course.OfControl) :
    (course (e.stream? i) (e.track i)).2 =
      ((e.score (e.track i).slot).parts (e.track i).position).elim .advance fun t =>
        (course ((e.score (e.track i).slot).streams (e.track i).position) t).2 := by
  have hi : (e.track i).isActive = true := (Bool.and_eq_true_iff.mp hrun).1
  rw [h.part_self hi, h.streams_self hi, Track.running?_of_isRunning hrun]
  exact hcourse.flow _ _

/-- Every track of a slot on its course is every part on its course. -/
theorem follows_moveAll {e e' : Engine σ} (h : e.Placed)
    (hwide : e.module.widestSequence ≤ maxTracksPerSequence) {i : Nat}
    (hi : (e.track i).isActive = true) (hcourse : course.OfControl)
    (hmodule : e'.module = e.module) (hslots : e'.slots = e.slots)
    (htrack : ∀ j, e'.track j =
      if j ∈ (e.slot (e.track i).slot).trackList ∧ j < e.tracks.size then
        (course (e.stream? j) (e.track j)).1 else e.track j) :
    Follows e e' i ((e.score (e.track i).slot).moveAll (e.track i).position course).1 := by
  have hslot : ∀ s, e'.slot s = e.slot s := fun s => by unfold Engine.slot; rw [hslots]
  refine ⟨Score.ext ?_ (funext fun p => ?_) ?_, fun s hs => ?_⟩
  · show e'.module.track? _ = e.module.track? _
    rw [hmodule, hslot]
  · show ((e'.slot _).entry p).bind _ = (((e.slot _).entry p).bind _).map _
    rw [hslot]
    cases hentry : (e.slot (e.track i).slot).entry p with
    | none => rfl
    | some j =>
      obtain ⟨-, hactive, hhome, hposition⟩ := h.entry _ p j hentry
      have hmem : j ∈ (e.slot (e.track i).slot).trackList := by
        rw [h.trackList_eq hwide (h.home i hi).1]
        exact Slot.mem_trackIds.mpr ⟨p, hentry⟩
      have hstream : (e.score (e.track i).slot).streams p = e.stream? j := by
        rw [← hhome, ← hposition, h.streams_self hactive]
      show (e'.track j).running? = (e.track j).running?.map _
      rw [htrack, if_pos ⟨hmem, lt_size_of_isActive hactive⟩, hstream]
      exact Track.running?_map (hcourse.isRunning _ _) (hcourse.control _ _)
  · show (e'.slot _).boxes = (e.slot _).boxes
    rw [hslot]
  · refine score_congr e e' hmodule s ?_ fun p j hentry => ?_
    · rw [hslot]
      exact ⟨rfl, rfl, fun _ => rfl⟩
    · rw [htrack, if_neg]
      rintro ⟨hmem, -⟩
      obtain ⟨q, hq⟩ := Slot.mem_trackIds.mp (List.mem_of_mem_take hmem)
      have hhome := (h.entry _ q j hq).2.2.1
      exact hs (hhome.symm.trans (h.entry s p j hentry).2.2.1)

/-- A command for a sequence moves every part. -/
theorem flows_forSequence {e : Engine σ} (h : e.Placed)
    (hwide : e.module.widestSequence ≤ maxTracksPerSequence) {i : Nat}
    (hrun : (e.track i).isRunning = true) (hcourse : course.OfControl) :
    Flows e (e.forSequence i fun e other => e.move other course) i
      ((e.score (e.track i).slot).moveAll (e.track i).position course) := by
  have hi : (e.track i).isActive = true := (Bool.and_eq_true_iff.mp hrun).1
  obtain ⟨hmodule, hslots, htrack, hflow⟩ := foldl_move hcourse.place i
    (e.slot (e.track i).slot).trackList e .advance (h.nodup_trackList _)
  have hmem : i ∈ (e.slot (e.track i).slot).trackList := by
    rw [h.trackList_eq hwide (h.home i hi).1]
    exact Slot.mem_trackIds.mpr ⟨_, (h.home i hi).2.1⟩
  rw [if_pos hmem] at hflow
  exact ⟨follows_moveAll h hwide hi hcourse hmodule hslots htrack,
    fun _ => hflow.trans (flow_part h hrun hcourse)⟩

theorem flows_move {e : Engine σ} (h : e.Placed) {i : Nat}
    (hrun : (e.track i).isRunning = true) (hcourse : course.OfControl) :
    Flows e (e.move i course) i ((e.score (e.track i).slot).move (e.track i).position course) :=
  ⟨follows_move h (Bool.and_eq_true_iff.mp hrun).1 hcourse, fun _ => flow_part h hrun hcourse⟩

end Courses

/-- A new tempo for a sequence is one for every part. -/
theorem follows_seqTempo {e : Engine σ} (h : e.Placed)
    (hwide : e.module.widestSequence ≤ maxTracksPerSequence) {i : Nat}
    (hi : (e.track i).isActive = true) (qpm : UInt16) :
    Follows e (e.forTracksOf (e.track i).slot fun e other => e.modifyTrack other (·.setTempo qpm))
      i ((e.score (e.track i).slot).moveAll (e.track i).position (Track.retempoed qpm)).1 := by
  have hcourse := Track.ofControl_retempoed qpm
  obtain ⟨hmodule, hslots, htrack, -⟩ := foldl_move hcourse.place i
    (e.slot (e.track i).slot).trackList e .advance (h.nodup_trackList _)
  have hsame : e.forTracksOf (e.track i).slot (fun e other =>
      e.modifyTrack other (·.setTempo qpm)) =
        ((e.slot (e.track i).slot).trackList.foldl (fun (p : Engine σ × Flow) other =>
          ((p.1.move other (Track.retempoed qpm)).1,
            if other = i then (p.1.move other (Track.retempoed qpm)).2 else p.2))
          (e, .advance)).1 := by
    unfold forTracksOf
    show List.foldl _ (Prod.fst (e, Flow.advance)) _ = _
    exact List.foldl_hom Prod.fst fun p other => modifyTrack_congr rfl
  rw [hsame]
  exact follows_moveAll h hwide hi hcourse hmodule hslots htrack

/-! ## The next event -/

/-- An event of a track that runs shows. -/
theorem follows_event {e : Engine σ} (h : e.Placed) {i : Nat}
    (hrun : (e.track i).isRunning = true) {offset : Nat} {t : Track}
    (hbehind : (e.track i).behindDelta? (e.stream? i) offset = some t) :
    Follows e (e.modifyTrack i fun _ => t) i
      ((e.score (e.track i).slot).modify (e.track i).position fun _ => t.control) := by
  have hi : (e.track i).isActive = true := (Bool.and_eq_true_iff.mp hrun).1
  obtain ⟨delta, pc, -, rfl⟩ := Track.behindDelta?_eq_some hbehind
  have hmove := follows_modifyTrack h hi (f := fun _ => { e.track i with delta, pc })
    (g := fun t => { t with delta, pc }) (Track.running?_map rfl rfl)
  rwa [Score.modify_congr (g := fun _ => _)] at hmove
  intro t ht
  rw [h.part_self hi, Track.running?_of_isRunning hrun] at ht
  cases ht
  rfl

/-- A score only shows the next event of a track that runs. -/
theorem follows_nextEvent {e : Engine σ} (h : e.Placed)
    (hwide : e.module.widestSequence ≤ maxTracksPerSequence) {i : Nat}
    (hpart : e.part (e.track i).slot (e.track i).position = (e.track i).running?)
    (offset : Nat) :
    Follows e (e.nextEvent i offset) i
      ((e.score (e.track i).slot).nextEvent (e.track i).position offset) := by
  have hread := readDelta?_eq e i offset
  cases hactive : (e.track i).isActive with
  | false =>
    have hidle : (e.track i).isRunning = false := by
      unfold Track.isRunning
      rw [hactive]
      rfl
    have hnone := Track.running?_of_not_isRunning hidle
    rw [Score.nextEvent_of_none (hpart.trans hnone)]
    refine .of_same fun s => ?_
    unfold nextEvent
    rw [hread, hidle]
    cases (e.track i).behindDelta? (e.stream? i) offset with
    | none => rfl
    | some t =>
      refine score_congr e (e.modifyTrack i fun _ => t) rfl s ⟨rfl, rfl, fun _ => rfl⟩
        fun p j hentry => ?_
      rw [track_modifyTrack, if_neg]
      rintro ⟨rfl, -⟩
      exact Bool.false_ne_true (hactive.symm.trans (h.entry s p i hentry).2.1)
  | true =>
    unfold nextEvent Score.nextEvent
    rw [hread, h.part_self hactive, h.streams_self hactive]
    cases hbehind : (e.track i).behindDelta? (e.stream? i) offset with
    | none =>
      cases hrun : (e.track i).isRunning with
      | false =>
        have hnone := Track.running?_of_not_isRunning hrun
        rw [hnone]
        exact .refl e i
      | true =>
        rw [Track.running?_of_isRunning hrun]
        dsimp only
        rw [Track.control_behindDelta?, hbehind]
        exact follows_endSequence h hwide hactive
    | some t =>
      cases hrun : (e.track i).isRunning with
      | false =>
        obtain ⟨delta, pc, -, rfl⟩ := Track.behindDelta?_eq_some hbehind
        have hmove := follows_modifyTrack h hactive (f := fun _ => { e.track i with delta, pc })
          (g := fun t => { t with delta, pc }) (Track.running?_map rfl rfl)
        have hnone := Track.running?_of_not_isRunning hrun
        rw [hnone]
        rwa [Score.modify_self] at hmove
        intro t ht
        rw [h.part_self hactive, hnone] at ht
        cases ht
      | true =>
        rw [Track.running?_of_isRunning hrun]
        dsimp only
        rw [Track.control_behindDelta?, hbehind]
        exact follows_event h hrun hbehind

/-! ## Commands of the sequencer -/

theorem boxes_passGate (s : Slot) (gate first : UInt8) :
    (s.boxes.passGate gate first).1 = (s.passGate gate first).1.boxes ∧
      (s.boxes.passGate gate first).2 = (s.passGate gate first).2 := by
  have hgates : s.boxes.gates = s.gates := rfl
  unfold Slot.passGate
  rw [hgates]
  cases s.gates[gate.toNat]? with
  | none => exact ⟨rfl, rfl⟩
  | some value =>
    dsimp only
    split
    · exact ⟨rfl, rfl⟩
    · split <;> exact ⟨rfl, rfl⟩

theorem boxes_countDown (s : Slot) (counter first : UInt8) :
    (s.boxes.countDown counter first).1 = (s.countDown counter first).1.boxes ∧
      (s.boxes.countDown counter first).2 = (s.countDown counter first).2 := by
  have hiters : s.boxes.iters = s.iters := rfl
  unfold Slot.countDown
  rw [hiters]
  cases s.iters[counter.toNat]? with
  | none => exact ⟨rfl, rfl⟩
  | some value =>
    dsimp only
    split <;> exact ⟨rfl, rfl⟩

theorem score_hearMark (e : Engine σ) (kind : UInt8) (value : Int16) (s : Nat) :
    (e.hearMark kind value).score s = e.score s := by
  unfold hearMark
  split <;> rfl

section Commands

variable [SoundChip σ] {e : Engine σ} {i : Nat}

omit [SoundChip σ] in
/-- What leaves the track where it is goes on behind the command. -/
theorem Follows.advances {e' : Engine σ} {m : Score} (h : Follows e e' i m) :
    Flows e (e', .advance) i (m, .advance) := ⟨h, fun _ => rfl⟩

/-- A jump once a gate or a counter has changed. -/
theorem flows_boxJump (h : e.Placed) (hrun : (e.track i).isRunning = true) {slot : Slot}
    (hstanding : slot.standing = (e.slot (e.track i).slot).standing) (label : Int16) :
    Flows e ((e.modifySlot (e.track i).slot fun _ => slot).jump i label) i
      ({ e.score (e.track i).slot with boxes := slot.boxes }.move (e.track i).position
        (Track.jumped label)) := by
  have hi : (e.track i).isActive = true := (Bool.and_eq_true_iff.mp hrun).1
  have hslot := follows_modifySlot h hi (f := fun _ => slot) (congrArg Slot.tracks hstanding :)
    (congrArg Slot.sequence hstanding :) rfl
  have htuned := tuned_modifySlot e (e.track i).slot (f := fun _ => slot) hstanding
  have hjump := flows_move (htuned.samePlaces.placed h) (i := i) hrun
    (Track.ofControl_jumped label)
  rw [jump_eq]
  have hhome := hslot.home
  refine ⟨hslot.next rfl (f := fun m p => (m.move p (Track.jumped label)).1) hjump.follows,
    fun hruns => ?_⟩
  have hflow := hjump.flow hruns
  rw [track_modifySlot, hhome] at hflow
  exact hflow

omit [SoundChip σ] in
theorem flows_endTrack (h : e.Placed) (hrun : (e.track i).isRunning = true) :
    Flows e (e.endTrack i) i
      ((e.score (e.track i).slot).endTrack (e.track i).position (e.track i).control) := by
  have hi : (e.track i).isActive = true := (Bool.and_eq_true_iff.mp hrun).1
  have hread := readDelta?_eq e i 0
  have hend : Flows e (let e := e.turnOff i; (e, e.flowWhenOff i)) i
      ((e.score (e.track i).slot).silence (e.track i).position, .hold) := by
    refine ⟨follows_turnOff h hi, fun hruns => ?_⟩
    have hrests := (quits_turnOff e i).rests i (List.mem_singleton_self i)
    rw [Track.running?_of_isRunning hruns] at hrests
    cases hrests
  unfold endTrack Score.endTrack
  dsimp only
  have hflags : (e.track i).control.flags.looped = (e.track i).flags.looped := rfl
  have htotal : (e.track i).control.total = (e.track i).total := rfl
  rw [hflags, htotal, hread, h.streams_self hi, Track.control_behindDelta?]
  by_cases hloop : ((e.track i).flags.looped && decide (minLoopParts ≤ (e.track i).total)) = true
  · rw [if_pos hloop, if_pos hloop]
    cases hbehind : (e.track i).behindDelta? (e.stream? i) 0 with
    | none => exact hend
    | some t => exact ⟨follows_event h hrun hbehind, fun _ => rfl⟩
  · rw [if_neg hloop, if_neg hloop]
    exact hend

/-- A jump of the track alone also ends its wait. -/
theorem flows_trackJump (h : e.Placed) (hrun : (e.track i).isRunning = true) (label : Int16) :
    Flows e (match e.move i (Track.jumped label) with
        | (e, .hold) => (e.modifyTrack i fun t => { t with delta := 0 }, .hold)
        | (e, .advance) => (e, .advance)) i
      (match (e.score (e.track i).slot).move (e.track i).position (Track.jumped label) with
        | (m, .hold) => (m.modify (e.track i).position fun t => { t with delta := 0 }, .hold)
        | (m, .advance) => (m, .advance)) := by
  have hcourse := Track.ofControl_jumped label
  have hi : (e.track i).isActive = true := (Bool.and_eq_true_iff.mp hrun).1
  have hjump := flows_move h hrun hcourse
  have hmoved : (e.move i (Track.jumped label)).1.track i =
      (Track.jumped label (e.stream? i) (e.track i)).1 := by
    refine (track_modifyTrack e i i _).trans ?_
    rw [if_pos ⟨rfl, lt_size_of_isActive hi⟩]
  have hruns : ((e.move i (Track.jumped label)).1.track i).isRunning = true := by
    rw [hmoved, hcourse.isRunning, hrun]
  have htuned : Tuned e (e.move i (Track.jumped label)).1 := by
    rw [← jump_eq]
    exact tuned_jump e i label
  have hplaced := htuned.samePlaces.placed h
  have hplace : ((e.move i (Track.jumped label)).1.track i).place = (e.track i).place := by
    rw [hmoved, hcourse.place]
  have hflow := hjump.flow hruns
  have hfollows := hjump.follows
  generalize e.move i (Track.jumped label) = moved at *
  generalize (e.score (e.track i).slot).move (e.track i).position (Track.jumped label) = score
    at *
  obtain ⟨e', flow⟩ := moved
  obtain ⟨m, flow'⟩ := score
  obtain rfl : flow = flow' := hflow
  cases flow with
  | advance => exact hfollows.advances
  | hold =>
    refine ⟨hfollows.next hplace (f := fun m p => m.modify p fun t => { t with delta := 0 }) ?_,
      fun _ => rfl⟩
    exact follows_modifyTrack hplaced (Bool.and_eq_true_iff.mp hruns).1
      (Track.running?_map rfl rfl)

/-- Every command of the sequencer does to the score what it does to the engine. -/
theorem flows_command (h : e.Placed)
    (hwide : e.module.widestSequence ≤ maxTracksPerSequence)
    (hrun : (e.track i).isRunning = true) (c : Command) :
    Flows e (e.command i c) i
      ((e.score (e.track i).slot).command (e.track i).position (e.track i).control c) := by
  have hi : (e.track i).isActive = true := (Bool.and_eq_true_iff.mp hrun).1
  have hlabel : ∀ label : Int16, e.label? i label =
      ((e.score (e.track i).slot).streams (e.track i).position).bind
        (·.label? label.toInt) := fun label => by rw [h.streams_self hi]; rfl
  have hboxes : (e.score (e.track i).slot).boxes = (e.slot (e.track i).slot).boxes := rfl
  have hself := Follows.refl e i
  unfold command Score.command
  dsimp only
  split
  case h_1 hop =>
    rw [hop]
    exact (hself.congr (score_hearMark e _ _)).advances
  case h_2 hop =>
    have hpass := boxes_passGate (e.slot (e.track i).slot) (c.byte 1) (c.byte 2)
    rw [hop]
    dsimp only
    rw [hboxes, hpass.1, hpass.2]
    split
    · exact flows_boxJump h hrun (standing_passGate _ _ _) _
    · exact hself.advances
  case h_3 hop =>
    have hcount := boxes_countDown (e.slot (e.track i).slot) (c.byte 1) (c.byte 2)
    rw [hop]
    dsimp only
    rw [hboxes, hcount.1, hcount.2]
    split
    · exact flows_boxJump h hrun (standing_countDown _ _ _) _
    · exact hself.advances
  case h_4 hop =>
    rw [hop]
    exact (follows_modifySlot h hi rfl rfl rfl).advances
  case h_5 hop =>
    rw [hop]
    exact (follows_modifySlot h hi rfl rfl rfl).advances
  case h_6 hop =>
    rw [hop]
    exact (follows_modifySlot h hi rfl rfl rfl).advances
  case h_7 hop =>
    rw [hop]
    exact (follows_seqTempo h hwide hi _).advances
  case h_8 hop =>
    rw [hop]
    dsimp only
    rw [hlabel]
    split
    · exact hself.advances
    · simp only [gosub_eq]
      exact flows_forSequence h hwide hrun (Track.ofControl_gosubbed _)
  case h_9 hop =>
    rw [hop]
    dsimp only
    rw [hlabel]
    split
    · exact hself.advances
    · simp only [jump_eq]
      exact flows_forSequence h hwide hrun (Track.ofControl_jumped _)
  case h_10 hop =>
    rw [hop]
    have hback : (goBack : Engine σ → Nat → Engine σ × Flow) =
        fun e other => e.move other Track.wentBack := by
      funext e other
      exact goBack_eq e other
    rw [hback]
    exact flows_forSequence h hwide hrun Track.ofControl_wentBack
  case h_11 hop =>
    rw [hop]
    refine ⟨follows_endSequence h hwide hi, fun hruns => ?_⟩
    have hmem : i ∈ (e.slot (e.track i).slot).trackList := by
      rw [h.trackList_eq hwide (h.home i hi).1]
      exact Slot.mem_trackIds.mpr ⟨_, (h.home i hi).2.1⟩
    have hrests : ((e.endSequence (e.track i).slot).track i).running? = none :=
      (quits_foldl_turnOff _ e).rests i hmem
    rw [Track.running?_of_isRunning hruns] at hrests
    cases hrests
  case h_12 hop =>
    rw [hop]
    have htempo := follows_modifyTrack h hi (f := (·.setTempo (c.word 1)))
      (g := (·.setTempo (c.word 1))) (Track.running?_map rfl rfl)
    exact htempo.advances
  case h_13 hop =>
    rw [hop, gosub_eq]
    exact flows_move h hrun (Track.ofControl_gosubbed _)
  case h_14 hop =>
    rw [hop, jump_eq]
    exact flows_trackJump h hrun _
  case h_15 hop =>
    rw [hop, goBack_eq]
    exact flows_move h hrun Track.ofControl_wentBack
  case h_16 hop =>
    rw [hop]
    exact flows_endTrack h hrun
  case h_17 =>
    split
    all_goals first | contradiction | exact hself.advances

end Commands

/-! ## Commands of the driver -/

section Driving

variable [SoundChip σ]

theorem score_writeOwned (e : Engine σ) (i : Nat) (mask : RegisterMask)
    (registers : Voice → PatchVoice → VoiceRegisters) (s : Nat) :
    (e.writeOwned i mask registers).score s = e.score s := by
  unfold writeOwned
  split <;> rfl

theorem control_silentCommand (t : Track) (c : Command) :
    (t.silentCommand c).control = t.control.silentCommand c := by
  unfold Track.silentCommand
  split <;> rfl

/-- A command of the driver shows in the controls of its track, but no note does. -/
theorem follows_driverCommand {e : Engine σ} (h : e.WellFormed) {i : Nat}
    (hrun : (e.track i).isRunning = true) (c : Command) :
    Follows e (e.driverCommand i c) i
      ((e.score (e.track i).slot).modify (e.track i).position (·.conducted c)) := by
  have hplaced := h.agree.toPlaced
  have hi : (e.track i).isActive = true := (Bool.and_eq_true_iff.mp hrun).1
  have hpart : ∀ t, (e.score (e.track i).slot).parts (e.track i).position = some t →
      t = (e.track i).control := by
    intro t ht
    rw [hplaced.part_self hi, Track.running?_of_isRunning hrun] at ht
    exact (Option.some.inj ht).symm
  -- a change of one control, whatever the chip is told of it
  have hset : ∀ f : Track → Track, (f (e.track i)).isRunning = (e.track i).isRunning →
      (f (e.track i)).control = (e.track i).control.conducted c →
      Follows e (e.modifyTrack i f) i
        ((e.score (e.track i).slot).modify (e.track i).position (·.conducted c)) :=
    fun f hruns hcontrol => follows_modifyTrack hplaced hi (Track.running?_map hruns hcontrol)
  have hkeep : (e.track i).control.conducted c = (e.track i).control →
      Follows e e i ((e.score (e.track i).slot).modify (e.track i).position (·.conducted c)) := by
    intro hsame
    rw [Score.modify_self fun t ht => by rw [hpart t ht, hsame]]
    exact .refl e i
  have hdriver : (e.track i).control.driver = (e.track i).driver := rfl
  unfold driverCommand
  split
  case h_1 hsilent =>
    refine hset _ ?_ ?_
    · unfold Track.silentCommand
      split <;> rfl
    · rw [control_silentCommand]
      unfold Track.conducted
      rw [hdriver, hsilent]
  case h_2 hvoices =>
    have hconducted : (e.track i).control.conducted c = (e.track i).control.voiced c := by
      unfold Track.conducted
      rw [hdriver, hvoices]
    unfold Track.voiced at hconducted
    unfold voiceCommand
    split
    case h_1 hop =>
      rw [hop] at hconducted
      exact hset (fun t => { t with patch := c.word 1 }) rfl hconducted.symm
    case h_2 hop =>
      rw [hop] at hconducted
      unfold bendPitch
      split
      · next hpitch =>
        refine hkeep (hconducted.trans ?_)
        rw [← hpitch]
        rfl
      · exact (hset (fun t => { t with pitch := c.signedWord 1 }) rfl hconducted.symm).congr
          (score_writeOwned _ i _ _)
    case h_3 hop =>
      rw [hop] at hconducted
      exact (hset (fun t => { t with volume := c.byte 1 }) rfl hconducted.symm).congr
        (score_writeOwned _ i _ _)
    case h_4 hop =>
      rw [hop] at hconducted
      have hpan := hset (fun t => { t with pan := c.byte 1 }) rfl hconducted.symm
      unfold setTrackPan
      dsimp only
      split
      · exact hpan
      · exact hpan.congr (score_writeOwned _ i _ _)
    case h_5 hop =>
      rw [hop] at hconducted
      exact (hkeep hconducted).congr (score_noteOn h.rests i _ _)
    case h_6 hop =>
      rw [hop] at hconducted
      exact (hkeep hconducted).congr fun _ => rfl
    case h_7 =>
      refine hkeep (hconducted.trans ?_)
      split
      all_goals first | contradiction | rfl

end Driving

end Engine

end SoundSequencer
