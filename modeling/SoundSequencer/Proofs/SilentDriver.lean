/-
SoundSequencer.Proofs.SilentDriver — a module plays the same course without voices.

* `SoundModule.silenced` is a module with the silent driver on every track.
* `Track.tacit` forgets driver and patch of a track, `Score.tacit` those of a score.
  `Score.tacit_run` is the turn of a part: what is forgotten decides nothing.
* `Matches` relates two engines in which the same sequences were started, one of them on
  the silenced module: the same pool and the same slots, drivers apart.
* `turnOrder_later` says that of the parts that have their turns, those are left that still
  run. So both engines keep the order of turns: `InStep`, `InStep.tick`.
* `silenced_sameCourse` is the result for any starts and any number of ticks.
-/
import Mathlib.Logic.Function.Iterate
import SoundSequencer.Proofs.ScoreRuns

namespace SoundSequencer

/-! ## Without voices -/

/-- The track with the silent driver. -/
def TrackStream.silenced (s : TrackStream) : TrackStream :=
  { s with header := { s.header with driver := .silent } }

/-- The module with the silent driver on every track. -/
def SoundModule.silenced (m : SoundModule) : SoundModule :=
  { m with sequences := m.sequences.map fun tracks => tracks.map TrackStream.silenced }

namespace SoundModule

theorem sequences_silenced (m : SoundModule) (sequence : Nat) :
    m.silenced.sequences[sequence]? =
      m.sequences[sequence]?.map fun tracks => tracks.map TrackStream.silenced :=
  Array.getElem?_map

theorem track?_silenced (m : SoundModule) (sequence position : Nat) :
    m.silenced.track? sequence position =
      (m.track? sequence position).map TrackStream.silenced := by
  unfold track?
  rw [sequences_silenced]
  cases m.sequences[sequence]? with
  | none => rfl
  | some tracks => exact Array.getElem?_map

theorem widestSequence_silenced (m : SoundModule) :
    m.silenced.widestSequence = m.widestSequence := by
  unfold widestSequence silenced
  dsimp only
  rw [← Array.foldl_toList, ← Array.foldl_toList, Array.toList_map, List.foldl_map]
  simp only [Array.size_map]

theorem accepted_silenced {m : SoundModule} (h : m.Accepted) : m.silenced.Accepted where
  pools := h.pools
  voices_le := h.voices_le
  size_le := by
    intro sequence tracks hsequence
    rw [sequences_silenced] at hsequence
    obtain ⟨old, hold, rfl⟩ := Option.map_eq_some_iff.mp hsequence
    rw [Array.size_map]
    exact h.size_le hold
  depth_le := by
    intro sequence position stream hstream
    rw [track?_silenced] at hstream
    obtain ⟨old, hold, rfl⟩ := Option.map_eq_some_iff.mp hstream
    exact @Accepted.depth_le _ h _ _ old hold
  label_lt := by
    intro sequence position stream hstream
    rw [track?_silenced] at hstream
    obtain ⟨old, hold, rfl⟩ := Option.map_eq_some_iff.mp hstream
    exact @Accepted.label_lt _ h _ _ old hold
  patches := h.patches
  samples := h.samples
  drums := h.drums

end SoundModule

/-! ## What the drivers do not share -/

namespace Track

/-- The track without driver and patch. -/
def tacit (t : Track) : Track := { t with driver := .silent, patch := 0 }

/-- Both drivers do the same to all controls but the patch. -/
theorem tacit_conducted (t : Track) (c : Command) :
    (t.conducted c).tacit = (t.tacit.conducted c).tacit := by
  show _ = (t.tacit.silentCommand c).tacit
  unfold conducted
  cases t.driver with
  | silent =>
    show (t.silentCommand c).tacit = _
    unfold silentCommand
    cases c.op <;> rfl
  | voices =>
    show (t.voiced c).tacit = _
    unfold voiced silentCommand
    cases c.op <;> rfl

theorem tacit_behindDelta? (t : Track) (stream : Option TrackStream) (offset : Nat) :
    t.tacit.behindDelta? (stream.map TrackStream.silenced) offset =
      (t.behindDelta? stream offset).map tacit := by
  unfold behindDelta?
  cases stream with
  | none => rfl
  | some s =>
    rw [Option.map_map]
    rfl

/-- A course that driver and patch do not decide. -/
def OfTacit (course : Course) : Prop :=
  ∀ stream t, course (stream.map TrackStream.silenced) t.tacit =
    ((course stream t).1.tacit, (course stream t).2)

/-- Labels stay where they are. -/
theorem label?_silenced (stream : Option TrackStream) (label : Int) :
    (stream.map TrackStream.silenced).bind (·.label? label) = stream.bind (·.label? label) := by
  cases stream <;> rfl

theorem ofTacit_jumped (label : Int16) : OfTacit (jumped label) := by
  intro stream t
  unfold jumped
  rw [label?_silenced]
  cases stream.bind (·.label? label.toInt) <;> rfl

theorem ofTacit_gosubbed (label : Int16) : OfTacit (gosubbed label) := by
  intro stream t
  unfold gosubbed
  rw [label?_silenced]
  cases stream.bind (·.label? label.toInt) with
  | none => rfl
  | some pc =>
    have hpush : t.tacit.pushReturn? (t.pc + Opcode.trackGosub.byteLength) =
        (t.pushReturn? (t.pc + Opcode.trackGosub.byteLength)).map tacit := by
      have hreturns : t.tacit.returns = t.returns := rfl
      have hdepth : t.tacit.returnDepth = t.returnDepth := rfl
      unfold pushReturn?
      rw [hreturns, hdepth]
      split <;> rfl
    have hpc : t.tacit.pc = t.pc := rfl
    dsimp only
    rw [hpc, hpush]
    cases t.pushReturn? (t.pc + Opcode.trackGosub.byteLength) <;> rfl

theorem ofTacit_wentBack : OfTacit wentBack := by
  intro stream t
  have hpop : t.tacit.popReturn? = t.popReturn?.map fun popped => (popped.1, popped.2.tacit) := by
    unfold popReturn?
    have hreturns : t.tacit.returns = t.returns := rfl
    rw [hreturns]
    cases t.returns <;> rfl
  unfold wentBack
  rw [hpop]
  cases t.popReturn? with
  | none => rfl
  | some popped =>
    simp only [Option.map_some, tacit_behindDelta?]
    cases popped.2.behindDelta? stream popped.1 <;> rfl

end Track

namespace Score

/-- The score on silenced streams, without drivers and patches. -/
def tacit (m : Score) : Score where
  streams p := (m.streams p).map TrackStream.silenced
  parts p := (m.parts p).map Track.tacit
  boxes := m.boxes

variable {m : Score} {p : Nat}

theorem tacit_modify {f g : Track → Track} (h : ∀ t, m.parts p = some t → (f t).tacit = g t.tacit) :
    (m.modify p f).tacit = m.tacit.modify p g := by
  refine Score.ext rfl (funext fun q => ?_) rfl
  show Option.map Track.tacit (if q = p then (m.parts p).map f else m.parts q) =
    if q = p then ((m.parts p).map Track.tacit).map g else (m.parts q).map Track.tacit
  split
  · cases hpart : m.parts p with
    | none => rfl
    | some t => exact congrArg some (h t hpart)
  · rfl

theorem tacit_silence : (m.silence p).tacit = m.tacit.silence p := by
  refine Score.ext rfl (funext fun q => ?_) rfl
  show Option.map Track.tacit (if q = p then none else m.parts q) =
    if q = p then none else (m.parts q).map Track.tacit
  split <;> rfl

theorem flow_tacit {course : Course} (h : Track.OfTacit course) :
    (m.tacit.parts p).elim Flow.advance (fun t => (course (m.tacit.streams p) t).2) =
      (m.parts p).elim Flow.advance fun t => (course (m.streams p) t).2 := by
  show ((m.parts p).map Track.tacit).elim _ _ = _
  cases m.parts p with
  | none => rfl
  | some t => exact (congrArg Prod.snd (h (m.streams p) t) :)

theorem tacit_move {course : Course} (h : Track.OfTacit course) :
    m.tacit.move p course = ((m.move p course).1.tacit, (m.move p course).2) := by
  refine Prod.ext ?_ (flow_tacit h)
  exact (tacit_modify fun t _ => (congrArg Prod.fst (h (m.streams p) t)).symm).symm

theorem tacit_moveAll {course : Course} (h : Track.OfTacit course) :
    m.tacit.moveAll p course = ((m.moveAll p course).1.tacit, (m.moveAll p course).2) := by
  refine Prod.ext (Score.ext rfl (funext fun q => ?_) rfl) (flow_tacit h)
  show ((m.parts q).map Track.tacit).map _ = ((m.parts q).map _).map Track.tacit
  cases m.parts q with
  | none => rfl
  | some t => exact congrArg (fun moved => some moved.1) (h (m.streams q) t)

theorem tacit_nextEvent {offset : Nat} :
    (m.nextEvent p offset).tacit = m.tacit.nextEvent p offset := by
  have hpart : m.tacit.parts p = (m.parts p).map Track.tacit := rfl
  have hstream : m.tacit.streams p = (m.streams p).map TrackStream.silenced := rfl
  unfold nextEvent
  rw [hpart, hstream]
  cases m.parts p with
  | none => rfl
  | some t =>
    dsimp only [Option.map_some]
    rw [Track.tacit_behindDelta?]
    cases t.behindDelta? (m.streams p) offset with
    | none => rfl
    | some t' => exact tacit_modify fun _ _ => rfl

theorem tacit_endTrack {t : Track} :
    m.tacit.endTrack p t.tacit = ((m.endTrack p t).1.tacit, (m.endTrack p t).2) := by
  have hrewound : (if t.tacit.flags.looped && minLoopParts ≤ t.tacit.total then
        t.tacit.behindDelta? (m.tacit.streams p) 0 else none) =
      (if t.flags.looped && minLoopParts ≤ t.total then t.behindDelta? (m.streams p) 0
        else none).map Track.tacit := by
    show (if t.flags.looped && minLoopParts ≤ t.total then _ else none) = _
    split
    · exact t.tacit_behindDelta? (m.streams p) 0
    · rfl
  unfold endTrack
  rw [hrewound]
  cases if t.flags.looped && minLoopParts ≤ t.total then t.behindDelta? (m.streams p) 0
    else none with
  | none => exact congrArg (·, Flow.hold) tacit_silence.symm
  | some t' => exact congrArg (·, Flow.hold) (@tacit_modify m p (fun _ => t') _ fun _ _ => rfl).symm

/-- A jump of a part once a gate or a counter has changed. -/
theorem tacit_boxMove {boxes : Slot} {course : Course} (h : Track.OfTacit course) :
    { m.tacit with boxes }.move p course =
      (({ m with boxes }.move p course).1.tacit, ({ m with boxes }.move p course).2) :=
  @tacit_move { m with boxes } p course h

theorem isNone_label?_tacit (label : Int) :
    ((m.tacit.streams p).bind (·.label? label)).isNone =
      ((m.streams p).bind (·.label? label)).isNone := by
  show (((m.streams p).map TrackStream.silenced).bind _).isNone = _
  cases m.streams p <;> rfl

/-- Driver and patch decide no command of the sequencer. -/
theorem tacit_command {t : Track} (c : Command) :
    m.tacit.command p t.tacit c = ((m.command p t c).1.tacit, (m.command p t c).2) := by
  have hboxes : m.tacit.boxes = m.boxes := rfl
  unfold command
  rw [hboxes]
  generalize c.op = op
  cases op with
  | gateJump =>
    dsimp only
    split
    · exact tacit_boxMove (Track.ofTacit_jumped _)
    · rfl
  | iterJump =>
    dsimp only
    split
    · exact tacit_boxMove (Track.ofTacit_jumped _)
    · rfl
  | seqTempo =>
    refine Prod.ext (Score.ext rfl (funext fun q => ?_) rfl) rfl
    show ((m.parts q).map Track.tacit).map _ = ((m.parts q).map _).map Track.tacit
    cases m.parts q <;> rfl
  | seqGosub =>
    dsimp only
    rw [isNone_label?_tacit]
    split
    · rfl
    · exact tacit_moveAll (Track.ofTacit_gosubbed _)
  | seqJump =>
    dsimp only
    rw [isNone_label?_tacit]
    split
    · rfl
    · exact tacit_moveAll (Track.ofTacit_jumped _)
  | seqReturn => exact tacit_moveAll Track.ofTacit_wentBack
  | trackTempo =>
    exact congrArg (·, Flow.advance)
      (@tacit_modify m p (·.setTempo (c.word 1)) _ fun _ _ => rfl).symm
  | trackGosub => exact tacit_move (Track.ofTacit_gosubbed _)
  | trackJump =>
    dsimp only
    rw [tacit_move (Track.ofTacit_jumped _)]
    obtain ⟨moved, flow⟩ := m.move p (Track.jumped (c.signedWord 1))
    cases flow with
    | advance => rfl
    | hold =>
      exact congrArg (·, Flow.hold)
        (@tacit_modify moved p (fun t => { t with delta := 0 }) _ fun _ _ => rfl).symm
  | trackReturn => exact tacit_move Track.ofTacit_wentBack
  | trackEnd => exact tacit_endTrack
  | _ => rfl

@[simp] theorem tacit_tacit (m : Score) : m.tacit.tacit = m.tacit := by
  refine Score.ext (funext fun p => ?_) (funext fun p => ?_) rfl
  · exact Option.map_map .. |>.trans rfl
  · exact Option.map_map .. |>.trans rfl

/-- A change in which driver and patch decide at most driver and patch. -/
theorem tacit_modify_tacit {f : Track → Track} (h : ∀ t, (f t).tacit = (f t.tacit).tacit) :
    (m.modify p f).tacit = (m.tacit.modify p f).tacit := by
  refine Score.ext (congrArg Score.streams (tacit_tacit m)).symm (funext fun q => ?_) rfl
  show Option.map Track.tacit (if q = p then (m.parts p).map f else m.parts q) =
    Option.map Track.tacit
      (if q = p then ((m.parts p).map Track.tacit).map f else (m.parts q).map Track.tacit)
  split
  · cases m.parts p with
    | none => rfl
    | some t => exact congrArg some (h t)
  · exact (congrFun (congrArg Score.parts (tacit_tacit m)) q).symm

/-- Driver and patch decide nothing but the patch that a command puts. -/
theorem tacit_step (m : Score) (p : Nat) : (m.step p).tacit = (m.tacit.step p).tacit := by
  have hpart : m.tacit.parts p = (m.parts p).map Track.tacit := rfl
  have hstream : m.tacit.streams p = (m.streams p).map TrackStream.silenced := rfl
  have hread : ∀ t : Track, ((m.streams p).map TrackStream.silenced).bind
      (fun s => Command.decodeAt s.bytes t.tacit.pc) =
        (m.streams p).bind fun s => Command.decodeAt s.bytes t.pc := by
    intro t
    cases m.streams p <;> rfl
  unfold step
  rw [hpart, hstream]
  cases m.parts p with
  | none => exact (tacit_tacit m).symm
  | some t =>
    dsimp only [Option.map_some]
    rw [hread]
    cases (m.streams p).bind fun s => Command.decodeAt s.bytes t.pc with
    | none => exact (tacit_tacit m.finish).symm
    | some c =>
      dsimp only
      split
      · rw [tacit_nextEvent, tacit_nextEvent, tacit_modify_tacit fun t => t.tacit_conducted c]
        rfl
      · split
        · rw [tacit_command]
          obtain ⟨moved, flow⟩ := m.command p t c
          dsimp only
          split
          · rw [← tacit_nextEvent, tacit_tacit]
            rfl
          · rw [tacit_tacit]
        · exact (tacit_tacit m.finish).symm

theorem isDue_tacit : m.tacit.isDue p = m.isDue p := by
  show ((m.parts p).map Track.tacit).any _ = (m.parts p).any _
  cases m.parts p <;> rfl

theorem tacit_runDue : ∀ (budget : Nat) (m : Score) (p : Nat),
    (runDue budget m p).tacit = (runDue budget m.tacit p).tacit
  | 0, m, p => by
    unfold runDue
    rw [isDue_tacit]
    split
    · rw [tacit_silence, tacit_silence, tacit_tacit]
    · rw [tacit_tacit]
  | budget + 1, m, p => by
    have hpay : (m.modify p fun t => { t with acc := t.acc - t.delta }).tacit =
        m.tacit.modify p fun t => { t with acc := t.acc - t.delta } :=
      tacit_modify fun _ _ => rfl
    unfold runDue
    rw [isDue_tacit]
    split
    · rw [tacit_runDue budget, tacit_step, hpay, ← tacit_runDue budget]
    · rw [tacit_tacit]

/-- Driver and patch decide nothing in the turn of a part. -/
theorem tacit_run (m : Score) (p : Nat) : (m.run p).tacit = (m.tacit.run p).tacit := by
  have hadvance : (m.modify p Track.advance).tacit = m.tacit.modify p Track.advance :=
    tacit_modify fun _ _ => rfl
  have hup : ((m.tacit.modify p Track.advance).parts p).any Track.timeIsUp =
      ((m.modify p Track.advance).parts p).any Track.timeIsUp := by
    rw [← hadvance]
    show (((m.modify p Track.advance).parts p).map Track.tacit).any _ = _
    cases (m.modify p Track.advance).parts p <;> rfl
  unfold run
  dsimp only
  rw [hup]
  split
  · rw [tacit_silence, tacit_silence, ← hadvance, tacit_tacit]
  · rw [tacit_runDue, hadvance]

theorem tacit_foldl_run : ∀ {order : List Nat} {m m' : Score}, m'.tacit = m.tacit →
    (order.foldl run m').tacit = (order.foldl run m).tacit
  | [], _, _, h => h
  | p :: order, m, m', h => by
    rw [List.foldl_cons, List.foldl_cons]
    exact tacit_foldl_run (by rw [tacit_run m', h, ← tacit_run])

end Score

/-! ## The same starts -/

namespace Track

theorem map_tacit_running? {t t' : Track} (h : t'.tacit = t.tacit) :
    t'.running?.map tacit = t.running?.map tacit := by
  have htacit : ∀ t : Track, t.running?.map tacit = t.tacit.running?.map tacit := by
    intro t
    unfold running?
    show _ = Option.map tacit (if t.isRunning then some t.tacit.control else none)
    split <;> rfl
  rw [htacit t', h, ← htacit]

/-- The driver in a header is the driver of the track, and decides nothing else. -/
theorem tacit_start {t t' : Track} (h : t'.tacit = t.tacit) (header : TrackHeader)
    (attrs : PlayAttrs) :
    (t'.start { header with driver := .silent } attrs).tacit = (t.start header attrs).tacit := by
  have htacit : ∀ t : Track, (t.start header attrs).tacit =
      (t.tacit.start { header with driver := .silent } attrs).tacit := by
    intro t
    unfold start
    dsimp only
    split <;> rfl
  have hsilent : (t'.start { header with driver := .silent } attrs).tacit =
      (t'.tacit.start { header with driver := .silent } attrs).tacit := by
    unfold start
    dsimp only
    split <;> rfl
  rw [hsilent, h, htacit]

end Track

namespace Engine

variable {σ τ : Type}

/-- The second engine plays the silenced module, and has the same slots and the same pool
of tracks as the first, drivers and patches apart. -/
structure Matches (e : Engine σ) (e' : Engine τ) : Prop where
  module : e'.module = e.module.silenced
  slots : e'.slots = e.slots
  size : e'.tracks.size = e.tracks.size
  track : ∀ i, (e'.track i).tacit = (e.track i).tacit

namespace Matches

variable {e : Engine σ} {e' : Engine τ}

theorem slot (h : Matches e e') (s : Nat) : e'.slot s = e.slot s := by
  unfold Engine.slot
  rw [h.slots]

/-- What is read of a track without its driver and its patch is the same. -/
theorem read {α : Type} (h : Matches e e') (f : Track → α) (hf : ∀ t : Track, f t.tacit = f t)
    (i : Nat) : f (e'.track i) = f (e.track i) := by
  rw [← hf, h.track, hf]

theorem modifyTrack (h : Matches e e') (i : Nat) {f g : Track → Track}
    (hfg : (g (e'.track i)).tacit = (f (e.track i)).tacit) :
    Matches (e.modifyTrack i f) (e'.modifyTrack i g) where
  module := h.module
  slots := h.slots
  size := by simp [Engine.modifyTrack, h.size]
  track j := by
    rw [track_modifyTrack, track_modifyTrack, h.size]
    split
    · next hj =>
      obtain ⟨rfl, -⟩ := hj
      exact hfg
    · exact h.track j

theorem modifySlot (h : Matches e e') (s : Nat) (f : Slot → Slot) :
    Matches (e.modifySlot s f) (e'.modifySlot s f) where
  module := h.module
  slots := congrArg (·.modify s f) h.slots
  size := h.size
  track := h.track

theorem startTrack (h : Matches e e') (slot sequence : Nat) (options : StartOptions)
    (i position : Nat) :
    Matches (e.startTrack slot sequence options i position)
      (e'.startTrack slot sequence options i position) := by
  unfold Engine.startTrack
  rw [h.module, SoundModule.track?_silenced]
  cases e.module.track? sequence position with
  | none => exact h
  | some stream =>
    have hevent : stream.silenced.event? 0 = stream.event? 0 := rfl
    dsimp only [Option.map_some]
    rw [hevent]
    generalize (stream.event? 0).getD (0, 0) = event
    have hstarted := (h.modifyTrack i (f := fun t =>
        let t := t.start stream.header options.attrs
        { t with
          flags := { t.flags with handled := options.handled, stopped := options.handled }
          slot, sequence, position, delta := event.1, pc := event.2 })
      (g := fun t =>
        let t := t.start stream.silenced.header options.attrs
        { t with
          flags := { t.flags with handled := options.handled, stopped := options.handled }
          slot, sequence, position, delta := event.1, pc := event.2 })
      (congrArg (fun t : Track => { t with
          flags := { t.flags with handled := options.handled, stopped := options.handled }
          slot, sequence, position, delta := event.1, pc := event.2 })
        (Track.tacit_start (h.track i) stream.header options.attrs))).modifySlot slot fun s =>
          { s with
            tracks := s.tracks.setIfInBounds position (some i)
            tracksActive := s.tracksActive + 1
            tracksPlaying := if options.handled then s.tracksPlaying else s.tracksPlaying + 1 }
    exact ⟨hstarted.module, hstarted.slots, hstarted.size, hstarted.track⟩

theorem foldl_startTrack (slot sequence : Nat) (options : StartOptions) :
    ∀ (l : List (Nat × Nat)) {e : Engine σ} {e' : Engine τ}, Matches e e' →
      Matches (l.foldl (fun e p => e.startTrack slot sequence options p.1 p.2) e)
        (l.foldl (fun e p => e.startTrack slot sequence options p.1 p.2) e')
  | [], _, _, h => h
  | _ :: l, _, _, h =>
    foldl_startTrack slot sequence options l (h.startTrack slot sequence options _ _)

theorem freeTracks (h : Matches e e') : e'.freeTracks = e.freeTracks := by
  unfold Engine.freeTracks trackIds
  rw [h.size]
  exact List.filter_congr fun i _ => congrArg (!·) (h.read Track.isActive (fun _ => rfl) i)

/-- The same start has the same answer and the same effect. -/
theorem startSequence (h : Matches e e') (sequence : Nat) (options : StartOptions) :
    (e'.startSequence sequence options).1 = (e.startSequence sequence options).1 ∧
      Matches (e.startSequence sequence options).2 (e'.startSequence sequence options).2 := by
  unfold Engine.startSequence
  rw [h.module, SoundModule.sequences_silenced, h.slots, h.freeTracks]
  cases e.module.sequences[sequence]? with
  | none => exact ⟨rfl, h⟩
  | some streams =>
    have hempty : (streams.map TrackStream.silenced).isEmpty = streams.isEmpty := by
      simp [Array.isEmpty]
    dsimp only [Option.map_some]
    rw [hempty, Array.size_map]
    split
    · exact ⟨rfl, h⟩
    · split
      · exact ⟨rfl, h⟩
      · next slot _ =>
        have hcleared := h.modifySlot slot Slot.cleared
        split
        · exact ⟨rfl, hcleared⟩
        · have hstarted := (foldl_startTrack slot sequence options
            (e.freeTracks.take streams.size).zipIdx hcleared).modifySlot slot fun s =>
              { s with
                active := true
                handled := options.handled
                sequence
                tag := options.tag
                mode := if options.handled then .stopped else .playing
                volume := sequenceVolume
                pan := sequencePan }
          exact ⟨rfl, hstarted.module, hstarted.slots, hstarted.size, hstarted.track⟩

theorem part (h : Matches e e') (s p : Nat) :
    (e'.part s p).map Track.tacit = (e.part s p).map Track.tacit := by
  unfold Engine.part
  rw [h.slot]
  cases (e.slot s).entry p with
  | none => rfl
  | some i => exact Track.map_tacit_running? (h.track i)

theorem score (h : Matches e e') (s : Nat) : (e'.score s).tacit = (e.score s).tacit := by
  refine Score.ext (funext fun p => ?_) (funext (h.part s)) ?_
  · show (e'.module.track? (e'.slot s).sequence p).map _ = (e.module.track? _ p).map _
    rw [h.module, h.slot, SoundModule.track?_silenced, Option.map_map]
    rfl
  · show (e'.slot s).boxes = (e.slot s).boxes
    rw [h.slot]

theorem turnOrder (h : Matches e e') (s : Nat) : e'.turnOrder s = e.turnOrder s := by
  have hturn : ∀ i, ((e'.track i).isRunning && (e'.track i).slot == s) =
      ((e.track i).isRunning && (e.track i).slot == s) :=
    h.read (fun t => t.isRunning && t.slot == s) fun _ => rfl
  have hposition : ∀ i, (e'.track i).position = (e.track i).position :=
    h.read Track.position fun _ => rfl
  unfold Engine.turnOrder trackIds
  simp only [h.size, hturn, hposition]

end Matches

theorem matches_make [SoundChip σ] [SoundChip τ] {module : SoundModule} {chip : σ} {e : Engine σ}
    (hmake : Engine.make module chip = .ok e) (chip' : τ) :
    ∃ e', Engine.make module.silenced chip' = .ok e' ∧ Matches e e' := by
  have haccepted := SoundModule.flaw?_eq_none_iff.mp (exists_make_iff.mp ⟨e, hmake⟩)
  have hsilenced := SoundModule.flaw?_eq_none_iff.mpr (SoundModule.accepted_silenced haccepted)
  obtain ⟨e', hmake'⟩ := (@exists_make_iff τ _ _ chip').mpr hsilenced
  refine ⟨e', hmake', ?_⟩
  have htracks : ∀ i, (e'.track i).tacit = (e.track i).tacit := fun i => by
    rw [track_make hmake, track_make hmake']
  unfold Engine.make at hmake hmake'
  split at hmake
  · cases hmake
  · split at hmake'
    · cases hmake'
    · cases hmake
      cases hmake'
      refine ⟨rfl, ?_, rfl, htracks⟩
      show Array.replicate _ (Slot.ofSizes _ _ module.silenced.widestSequence) = _
      rw [SoundModule.widestSequence_silenced]
      rfl

/-- The engine after some starts, one after the other. -/
def started (e : Engine σ) (starts : List (Nat × StartOptions)) : Engine σ :=
  starts.foldl (fun e start => (e.startSequence start.1 start.2).2) e

theorem Matches.started : ∀ {starts : List (Nat × StartOptions)} {e : Engine σ} {e' : Engine τ},
    Matches e e' → Matches (e.started starts) (e'.started starts)
  | [], _, _, h => h
  | (sequence, options) :: starts, _, _, h =>
    @Matches.started starts _ _ (h.startSequence sequence options).2

theorem module_started : ∀ (starts : List (Nat × StartOptions)) (e : Engine σ),
    (e.started starts).module = e.module
  | [], _ => rfl
  | (sequence, options) :: starts, e => by
    refine (module_started starts _).trans ?_
    refine @startSequence_keeps _ (fun f : Engine σ => f.module = e.module)
      (fun _ _ _ h => h) (fun _ _ h => h) options (fun f slot sequence i position _ h => ?_)
      sequence e rfl
    unfold startTrack
    split <;> exact h

theorem WellFormed.started [SoundChip σ] : ∀ {starts : List (Nat × StartOptions)} {e : Engine σ},
    e.WellFormed → (e.started starts).WellFormed
  | [], _, h => h
  | (sequence, options) :: starts, _, h =>
    @WellFormed.started _ starts _ (h.startSequence sequence options)

/-! ## The same course -/

section Ticks

variable [SoundChip σ]

omit [SoundChip σ] in
/-- The parts that have their turns later are those that still run, in the same order. -/
theorem turnOrder_later {e e' : Engine σ} (h : e.Placed) (h' : e'.Placed) (hsheds : Sheds e e')
    (hsteps : Steps e e') (s : Nat) :
    e'.turnOrder s = (e.turnOrder s).filter fun p => (e'.part s p).isSome := by
  have hplace : ∀ i, (e'.track i).slot = (e.track i).slot ∧
      (e'.track i).position = (e.track i).position := fun i =>
    ⟨(hsteps i).place.1, (hsteps i).place.2.2.1⟩
  have hmem : ∀ (d : Engine σ) i,
      i ∈ d.trackIds.filter (fun i => (d.track i).isRunning && (d.track i).slot == s) ↔
        (d.track i).isRunning = true ∧ (d.track i).slot = s := by
    intro d i
    rw [List.mem_filter, Bool.and_eq_true, beq_iff_eq]
    exact and_iff_right_of_imp fun hturn =>
      List.mem_range.mpr (lt_size_of_isActive (Bool.and_eq_true_iff.mp hturn.1).1)
  have hruns : ∀ i, (e.track i).isRunning = true → (e.track i).slot = s →
      ((e'.part s (e.track i).position).isSome = true ↔ (e'.track i).isRunning = true) := by
    intro i hrun hslot
    have hpart := h.part_later h' hsheds hsteps (Bool.and_eq_true_iff.mp hrun).1
    rw [(hplace i).1, (hplace i).2, hslot] at hpart
    rw [hpart]
    unfold Track.running?
    split <;> simp [*]
  have hsorted : ∀ d : Engine σ, (d.trackIds.filter fun i =>
      (d.track i).isRunning && (d.track i).slot == s).Pairwise (· < ·) := fun d =>
    List.pairwise_lt_range.filter _
  have hids : (e'.trackIds.filter fun i => (e'.track i).isRunning && (e'.track i).slot == s) =
      (e.trackIds.filter fun i => (e.track i).isRunning && (e.track i).slot == s).filter
        fun i => (e'.part s (e.track i).position).isSome := by
    refine List.Pairwise.eq_of_mem_iff (hsorted e') ((hsorted e).filter _) fun i => ?_
    rw [hmem e', List.mem_filter, hmem e, (hplace i).1]
    constructor
    · rintro ⟨hrun', hslot⟩
      have hrun := (hsteps i).isRunning hrun'
      exact ⟨⟨hrun, hslot⟩, (hruns i hrun hslot).mpr hrun'⟩
    · rintro ⟨⟨hrun, hslot⟩, hsome⟩
      exact ⟨(hruns i hrun hslot).mp hsome, hslot⟩
  unfold turnOrder
  rw [hids, List.filter_map]
  exact List.map_congr_left fun i _ => (hplace i).2

end Ticks

/-- The scores of all slots are the same in two engines, drivers and patches apart, and so is
the order of their turns. -/
structure InStep (e : Engine σ) (e' : Engine τ) : Prop where
  score : ∀ s, (e'.score s).tacit = (e.score s).tacit
  turnOrder : ∀ s, e'.turnOrder s = e.turnOrder s

theorem InStep.part {e : Engine σ} {e' : Engine τ} (h : InStep e e') (s p : Nat) :
    (e'.part s p).map Track.tacit = (e.part s p).map Track.tacit :=
  congrFun (congrArg Score.parts (h.score s)) p

section Course

variable [SoundChip σ] [SoundChip τ] {e : Engine σ} {e' : Engine τ}

theorem InStep.tick (h : InStep e e') (he : e.WellFormed) (he' : e'.WellFormed)
    (hwide : e.module.widestSequence ≤ maxTracksPerSequence)
    (hwide' : e'.module.widestSequence ≤ maxTracksPerSequence) : InStep e.tick e'.tick := by
  have hscore : ∀ s, (e'.tick.score s).tacit = (e.tick.score s).tacit := by
    intro s
    rw [score_tick he' hwide', score_tick he hwide, h.turnOrder]
    exact Score.tacit_foldl_run (h.score s)
  have horder := turnOrder_later he.agree.toPlaced (wellFormed_tick he).agree.toPlaced
    (sheds_tick e) (steps_tick e)
  have horder' := turnOrder_later he'.agree.toPlaced (wellFormed_tick he').agree.toPlaced
    (sheds_tick e') (steps_tick e')
  generalize e.tick = f at hscore horder ⊢
  generalize e'.tick = f' at hscore horder' ⊢
  refine ⟨hscore, fun s => ?_⟩
  rw [horder, horder', h.turnOrder]
  refine List.filter_congr fun p _ => ?_
  have hpart : (f'.part s p).map Track.tacit = (f.part s p).map Track.tacit :=
    congrFun (congrArg Score.parts (hscore s)) p
  simpa using congrArg Option.isSome hpart

/-- What any number of ticks leaves of an engine. -/
theorem wellFormed_ticks (he : e.WellFormed) : ∀ n,
    (Engine.tick^[n] e).WellFormed ∧ Sheds e (Engine.tick^[n] e) ∧ Steps e (Engine.tick^[n] e)
  | 0 => ⟨he, .refl e, .refl e⟩
  | n + 1 => by
    obtain ⟨hform, hsheds, hsteps⟩ := wellFormed_ticks he n
    rw [Function.iterate_succ_apply']
    exact ⟨wellFormed_tick hform, hsheds.trans (sheds_tick _), hsteps.trans (steps_tick _)⟩

theorem InStep.ticks (h : InStep e e') (he : e.WellFormed) (he' : e'.WellFormed)
    (hwide : e.module.widestSequence ≤ maxTracksPerSequence)
    (hwide' : e'.module.widestSequence ≤ maxTracksPerSequence) :
    ∀ n, InStep (Engine.tick^[n] e) (Engine.tick^[n] e')
  | 0 => h
  | n + 1 => by
    obtain ⟨hform, hsheds, -⟩ := wellFormed_ticks he n
    obtain ⟨hform', hsheds', -⟩ := wellFormed_ticks he' n
    rw [Function.iterate_succ_apply', Function.iterate_succ_apply']
    exact (h.ticks he he' hwide hwide' n).tick hform hform'
      (by rw [hsheds.module]; exact hwide) (by rw [hsheds'.module]; exact hwide')

end Course

end Engine

/-- Two engines are on the same course, drivers and patches of tracks apart: every entry of
the pool belongs to the same position of the same sequence and slot, the same of them run,
with the same control, and slots have the same gates and counters. -/
structure SameCourse {σ τ : Type} (e : Engine σ) (e' : Engine τ) : Prop where
  place : ∀ i, (e'.track i).place = (e.track i).place
  running : ∀ i, (e'.track i).running?.map Track.tacit = (e.track i).running?.map Track.tacit
  part : ∀ s p, (e'.part s p).map Track.tacit = (e.part s p).map Track.tacit
  sequence : ∀ s, (e'.slot s).sequence = (e.slot s).sequence
  gates : ∀ s, (e'.slot s).gates = (e.slot s).gates
  iters : ∀ s, (e'.slot s).iters = (e.slot s).iters

section Course

variable {σ τ : Type} [SoundChip σ] [SoundChip τ]

open Engine

/-- Engines that match are on the same course after any number of ticks. -/
theorem Engine.Matches.sameCourse {e : Engine σ} {e' : Engine τ} (h : Matches e e')
    (he : e.WellFormed) (he' : e'.WellFormed)
    (hwide : e.module.widestSequence ≤ maxTracksPerSequence) (n : Nat) :
    SameCourse (Engine.tick^[n] e) (Engine.tick^[n] e') := by
  have hwide' : e'.module.widestSequence ≤ maxTracksPerSequence := by
    rwa [h.module, SoundModule.widestSequence_silenced]
  have hstep := (InStep.mk h.score h.turnOrder).ticks he he' hwide hwide' n
  obtain ⟨hform, hsheds, hsteps⟩ := wellFormed_ticks he n
  obtain ⟨hform', hsheds', hsteps'⟩ := wellFormed_ticks he' n
  have hactive := h.read Track.isActive fun _ => rfl
  generalize Engine.tick^[n] e = f at *
  generalize Engine.tick^[n] e' = f' at *
  have hplace : ∀ i, (f'.track i).place = (f.track i).place := by
    intro i
    obtain ⟨hslot, hsequence, hposition, -⟩ := (hsteps i).place
    obtain ⟨hslot', hsequence', hposition', -⟩ := (hsteps' i).place
    have hsame := h.read Track.place (fun _ => rfl) i
    simp only [Track.place, Prod.mk.injEq] at hsame ⊢
    rw [hslot, hsequence, hposition, hslot', hsequence', hposition']
    exact hsame
  refine ⟨hplace, fun i => ?_, hstep.part, fun s => ?_,
    fun s => congrArg (fun m : Score => m.boxes.gates) (hstep.score s),
    fun s => congrArg (fun m : Score => m.boxes.iters) (hstep.score s)⟩
  · cases hi : (e.track i).isActive with
    | true =>
      -- the track is the part at its position, in both engines
      have hpart := he.agree.toPlaced.part_later hform.agree.toPlaced hsheds hsteps hi
      have hpart' := he'.agree.toPlaced.part_later hform'.agree.toPlaced hsheds' hsteps'
        ((hactive i).trans hi)
      have hseat := hplace i
      simp only [Track.place, Prod.mk.injEq] at hseat
      rw [hseat.1, hseat.2.2] at hpart'
      rw [← hpart, ← hpart', hstep.part]
    | false =>
      have hrests : (f.track i).isRunning = false := by
        by_contra hrun
        have hrun := (hsteps i).isRunning (Bool.not_eq_false _ ▸ hrun)
        exact absurd (hi.symm.trans (Bool.and_eq_true_iff.mp hrun).1) Bool.false_ne_true
      have hrests' : (f'.track i).isRunning = false := by
        by_contra hrun
        have hrun := (hsteps' i).isRunning (Bool.not_eq_false _ ▸ hrun)
        exact absurd (((hactive i).trans hi).symm.trans (Bool.and_eq_true_iff.mp hrun).1)
          Bool.false_ne_true
      rw [Track.running?_of_not_isRunning hrests, Track.running?_of_not_isRunning hrests']
  · rw [hsheds'.sequence, hsheds.sequence, h.slot]

/-- The silent driver changes nothing of the course of a module. Whatever sequences are
started in whatever way on a new engine, and the same on one whose tracks all have the silent
driver, both are on the same course after any number of ticks, on chips of any kind. -/
theorem silenced_sameCourse {module : SoundModule} {chip : σ} {e : Engine σ}
    (hmake : Engine.make module chip = .ok e) (chip' : τ) :
    ∃ e' : Engine τ, Engine.make module.silenced chip' = .ok e' ∧
      ∀ (starts : List (Nat × StartOptions)) (n : Nat),
        SameCourse (Engine.tick^[n] (e.started starts)) (Engine.tick^[n] (e'.started starts)) := by
  have haccepted := SoundModule.flaw?_eq_none_iff.mp (exists_make_iff.mp ⟨e, hmake⟩)
  obtain ⟨e', hmake', hmatches⟩ := matches_make hmake chip'
  have hmodule : e.module = module := by
    unfold Engine.make at hmake
    split at hmake
    · cases hmake
    · cases hmake
      rfl
  refine ⟨e', hmake', fun starts n => ?_⟩
  refine Matches.sameCourse hmatches.started (wellFormed_make hmake).started
    (wellFormed_make hmake').started ?_ n
  rw [module_started, hmodule]
  exact haccepted.widestSequence_le

end Course

open Engine in
/-- A track that ends with a note waits for its voice, and its twin on the silent driver has
left the pool; the other track, with a patch past eight bits, goes on in both engines. -/
theorem silenced_sameCourse_wait : ∃ e e' : Engine RecorderChip,
    Engine.make (program [[[(0, .noteOn 60 100), (0, .trackEnd)],
        [(0, .patchChange 300), (0, .noteOn 62 100), (1000, .trackEnd)]]])
      { instantRelease := false } = .ok e ∧
    Engine.make (program [[[(0, .noteOn 60 100), (0, .trackEnd)],
        [(0, .patchChange 300), (0, .noteOn 62 100), (1000, .trackEnd)]]]).silenced
      ({} : RecorderChip) = .ok e' ∧
    ((Engine.tick^[2] (e.started [(0, {})])).tracksActive = 2 ∧
      ((Engine.tick^[2] (e.started [(0, {})])).part 0 1).map Track.patch = some 300) ∧
    ((Engine.tick^[2] (e'.started [(0, {})])).tracksActive = 1 ∧
      ((Engine.tick^[2] (e'.started [(0, {})])).part 0 1).map Track.patch = some 44) ∧
    SameCourse (Engine.tick^[2] (e.started [(0, {})]))
      (Engine.tick^[2] (e'.started [(0, {})])) := by
  let module := program [[[(0, .noteOn 60 100), (0, .trackEnd)],
    [(0, .patchChange 300), (0, .noteOn 62 100), (1000, .trackEnd)]]]
  obtain ⟨e, hmake, hwaits⟩ : ∃ e : Engine RecorderChip,
      Engine.make module { instantRelease := false } = .ok e ∧
        (Engine.tick^[2] (e.started [(0, {})])).tracksActive = 2 ∧
          ((Engine.tick^[2] (e.started [(0, {})])).part 0 1).map Track.patch = some 300 :=
    exists_make (by decide +kernel)
  obtain ⟨e', hmake', hleft⟩ : ∃ e' : Engine RecorderChip,
      Engine.make module.silenced {} = .ok e' ∧
        (Engine.tick^[2] (e'.started [(0, {})])).tracksActive = 1 ∧
          ((Engine.tick^[2] (e'.started [(0, {})])).part 0 1).map Track.patch = some 44 :=
    exists_make (by decide +kernel)
  obtain ⟨twin, htwin, hcourse⟩ := silenced_sameCourse hmake ({} : RecorderChip)
  obtain rfl : e' = twin := Except.ok.inj (hmake'.symm.trans htwin)
  exact ⟨e, e', hmake, hmake', hwaits, hleft, hcourse [(0, {})] 2⟩

end SoundSequencer
