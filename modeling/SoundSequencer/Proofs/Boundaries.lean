/-
SoundSequencer.Proofs.Boundaries — tracks stand on commands.

* `SoundModule.WrittenBy` says that a module's tracks are what an assembler
  built from scripts. `Track.OnCommands` says that a track stands on a command
  of its script and will come back to events of it.
* Jumps, returns and loops keep that. A gosub does where an event starts three
  bytes behind the command that the track is at, the length of a gosub: so it
  does for a track's own gosub. A gosub for the whole sequence also sends
  tracks that are at other commands; `Engine.GosubFits` says that it fits them.
* `Engine.InScript.stepTrack` is one command, `onCommands_throughout_iff` says
  of runs that tracks stay on commands just as long as all gosubs fit.
-/
import SoundSequencer.Proofs.Events
import SoundSequencer.Proofs.Executions
import SoundSequencer.Proofs.ScoreRuns
import SoundSequencer.Proofs.Seats
import SoundSequencer.Proofs.Unmoved

namespace SoundSequencer

theorem Opcode.byteLength_pos {op : Opcode} (h : op.isDriver = true ∨ op.isEngine = true) :
    1 ≤ op.byteLength := by
  cases op <;> revert h <;> decide

/-- A command takes in its stream what its opcode declares. -/
theorem Command.length_eq {c : Command} (h : 1 ≤ c.length) : c.length = c.toBytes.length := by
  rw [length] at h ⊢
  rw [length_toBytes, Opcode.argCount]
  omega

/-! ## Scripts of a module -/

/-- The tracks of the module are what the assembler builds from the scripts, of which
each writes an event. -/
def SoundModule.WrittenBy (m : SoundModule) (scripts : Array (Array Script)) : Prop :=
  m.sequences = scripts.map (fun tracks => tracks.map Script.stream) ∧
    ∀ tracks ∈ scripts, ∀ script ∈ tracks, script.events ≠ []

instance (m : SoundModule) (scripts : Array (Array Script)) : Decidable (m.WrittenBy scripts) :=
  inferInstanceAs (Decidable (_ ∧ _))

namespace Track

/-- The script of a track. -/
def script? (scripts : Array (Array Script)) (t : Track) : Option Script := do
  (← scripts[t.sequence]?)[t.position]?

/-- The track stands on a command of its script, and all that it will come back to are
places where an event starts, or where the script ends. -/
def OnCommands (scripts : Array (Array Script)) (t : Track) : Prop :=
  ∃ script ∈ t.script? scripts, (∃ c, CommandAt script.events t.pc c) ∧
    ∀ address ∈ t.returns, EventAt script.events address

instance (scripts : Array (Array Script)) (t : Track) : Decidable (t.OnCommands scripts) :=
  inferInstanceAs (Decidable (∃ script ∈ t.script? scripts, _))

theorem OnCommands.of_spot {scripts : Array (Array Script)} {t t' : Track}
    (h : t.OnCommands scripts) (hspot : t'.spot = t.spot) : t'.OnCommands scripts := by
  simp only [spot, Prod.mk.injEq] at hspot
  obtain ⟨hsequence, hposition, hpc, hreturns⟩ := hspot
  unfold OnCommands script? at *
  rwa [hsequence, hposition, hpc, hreturns]

end Track

theorem SoundModule.WrittenBy.track?_eq {m : SoundModule} {scripts : Array (Array Script)}
    (h : m.WrittenBy scripts) (t : Track) :
    m.track? t.sequence t.position = (t.script? scripts).map Script.stream := by
  unfold SoundModule.track? Track.script?
  rw [h.1]
  cases htracks : scripts[t.sequence]? with
  | none => simp [htracks]
  | some tracks => simp [htracks]

theorem SoundModule.WrittenBy.events_ne_nil {m : SoundModule} {scripts : Array (Array Script)}
    (h : m.WrittenBy scripts) {t : Track} {script : Script} (ht : t.script? scripts = some script) :
    script.events ≠ [] := by
  obtain ⟨tracks, htracks, hscript⟩ := Option.bind_eq_some_iff.mp ht
  exact h.2 tracks (Array.mem_of_getElem? htracks) script (Array.mem_of_getElem? hscript)

/-! ## One track -/

namespace Track

variable {scripts : Array (Array Script)} {t t' : Track} {script : Script}

theorem OnCommands.behindDelta {offset : Nat} (h : t.OnCommands scripts)
    (hscript : t.script? scripts = some script) (hoffset : EventAt script.events offset)
    (hbehind : t.behindDelta? (some script.stream) offset = some t') :
    t'.OnCommands scripts := by
  obtain ⟨delta, pc, hevent, rfl⟩ := behindDelta?_eq_some hbehind
  obtain ⟨script', hscript', -, hreturns⟩ := h
  obtain rfl : script = script' := Option.some.inj (hscript.symm.trans hscript')
  exact ⟨script, hscript, hoffset.event? script.bytes_stream hevent, hreturns⟩

theorem OnCommands.jumped (h : t.OnCommands scripts) (hscript : t.script? scripts = some script)
    (label : Int16) : (Track.jumped label (some script.stream) t).1.OnCommands scripts := by
  unfold Track.jumped
  split
  · exact h
  · next pc hlabel =>
    obtain ⟨script', hscript', -, hreturns⟩ := h
    obtain rfl : script = script' := Option.some.inj (hscript.symm.trans hscript')
    exact ⟨script, hscript, Script.commandAt_of_label? hlabel, hreturns⟩

/-- A gosub notes the place three bytes on, so that one had better be fit to come back
to. -/
theorem gosubbed_eq_hold {label : Int16} {stream : Option TrackStream}
    (h : (Track.gosubbed label stream t).2 = .hold) :
    ∃ pc, stream.bind (·.label? label.toInt) = some pc ∧ (Track.gosubbed label stream t).1 =
      { t with pc, returns := (t.pc + Opcode.trackGosub.byteLength) :: t.returns } := by
  unfold Track.gosubbed at h ⊢
  cases hlabel : stream.bind (·.label? label.toInt) with
  | none => simp [hlabel] at h
  | some pc =>
    cases hpush : t.pushReturn? (t.pc + Opcode.trackGosub.byteLength) with
    | none => simp [hlabel, hpush] at h
    | some t' =>
      obtain ⟨-, -, rfl⟩ := pushReturn?_eq_some hpush
      exact ⟨pc, rfl, rfl⟩

theorem gosubbed_of_ne_hold {label : Int16} {stream : Option TrackStream}
    (h : (Track.gosubbed label stream t).2 ≠ .hold) : (Track.gosubbed label stream t).1 = t := by
  unfold Track.gosubbed at h ⊢
  cases hlabel : stream.bind (·.label? label.toInt) with
  | none => rfl
  | some pc =>
    cases hpush : t.pushReturn? (t.pc + Opcode.trackGosub.byteLength) with
    | none => rfl
    | some t' => simp [hlabel, hpush] at h

theorem OnCommands.gosubbed (h : t.OnCommands scripts) (hscript : t.script? scripts = some script)
    {label : Int16} (hfit : (Track.gosubbed label (some script.stream) t).2 = .hold →
      EventAt script.events (t.pc + Opcode.trackGosub.byteLength)) :
    (Track.gosubbed label (some script.stream) t).1.OnCommands scripts := by
  by_cases hgone : (Track.gosubbed label (some script.stream) t).2 = .hold
  · obtain ⟨pc, hlabel, heq⟩ := gosubbed_eq_hold hgone
    obtain ⟨script', hscript', -, hreturns⟩ := h
    obtain rfl : script = script' := Option.some.inj (hscript.symm.trans hscript')
    rw [heq]
    refine ⟨script, hscript, Script.commandAt_of_label? hlabel, fun address haddress => ?_⟩
    rcases List.mem_cons.mp haddress with rfl | hold
    · exact hfit hgone
    · exact hreturns address hold
  · rwa [gosubbed_of_ne_hold hgone]

theorem OnCommands.wentBack (h : t.OnCommands scripts)
    (hscript : t.script? scripts = some script) :
    (Track.wentBack (some script.stream) t).1.OnCommands scripts := by
  unfold Track.wentBack
  split
  · exact h
  · next address t' hpop =>
    obtain ⟨hreturns, ht'⟩ := popReturn?_eq_some hpop
    obtain ⟨script', hscript', hcommand, hevents⟩ := h
    obtain rfl : script = script' := Option.some.inj (hscript.symm.trans hscript')
    rw [hreturns] at hevents
    have hpopped : t'.OnCommands scripts := by
      rw [ht']
      exact ⟨script, hscript, hcommand, fun a ha => hevents a (List.mem_cons_of_mem _ ha)⟩
    split
    · exact hpopped
    · next hbehind =>
      refine hpopped.behindDelta ?_ (hevents address List.mem_cons_self) hbehind
      rwa [ht']

end Track

namespace Engine

variable {σ : Type} {scripts : Array (Array Script)}

/-! ## All tracks -/

/-- Every track of a sequence stands on a command. -/
def OnCommands (scripts : Array (Array Script)) (e : Engine σ) : Prop :=
  ∀ i, (e.track i).isActive = true → (e.track i).OnCommands scripts

instance (scripts : Array (Array Script)) (e : Engine σ) : Decidable (e.OnCommands scripts) :=
  decidable_of_iff
    (∀ i < e.tracks.size, (e.track i).isActive = true → (e.track i).OnCommands scripts)
    ⟨fun h i hi => h i (lt_size_of_isActive hi) hi, fun h i _ => h i⟩

/-- The engine plays scripts, on whose commands its tracks stand. -/
structure InScript (scripts : Array (Array Script)) (e : Engine σ) : Prop where
  written : e.module.WrittenBy scripts
  commands : e.OnCommands scripts

/-- A gosub for the whole sequence that track `i` is about to make fits its other
tracks: three bytes behind the command that each is at, one of its events starts. -/
def GosubFits (scripts : Array (Array Script)) (e : Engine σ) (i : Nat) : Prop :=
  ∀ c ∈ e.command? i, c.op = .seqGosub → (e.label? i (c.signedWord 1)).isSome = true →
    ∀ j ∈ (e.slot (e.track i).slot).trackList, j ≠ i →
      (e.gosub j (c.signedWord 1)).2 = .hold → ∀ script ∈ (e.track j).script? scripts,
        EventAt script.events ((e.track j).pc + Opcode.trackGosub.byteLength)

instance (scripts : Array (Array Script)) (e : Engine σ) (i : Nat) :
    Decidable (e.GosubFits scripts i) :=
  inferInstanceAs (Decidable (∀ c ∈ e.command? i, _))

theorem Unmoved.inScript {e e' : Engine σ} (h : Unmoved e e') (he : e.InScript scripts) :
    e'.InScript scripts where
  written := by
    rw [h.module]
    exact he.written
  commands i hi := (he.commands i (h.active i hi)).of_spot (h.spot i)

namespace InScript

variable {e : Engine σ}

theorem of_tracks {e' : Engine σ} (h : e.InScript scripts) (hmodule : e'.module = e.module)
    (htracks : e'.tracks = e.tracks) : e'.InScript scripts :=
  (Unmoved.of_tracks hmodule htracks).inScript h

theorem stream?_eq (h : e.InScript scripts) (i : Nat) :
    e.stream? i = ((e.track i).script? scripts).map Script.stream := h.written.track?_eq _

/-- What an active track executes next is a command of its script. -/
theorem command?_eq (h : e.InScript scripts) {i : Nat} (hi : (e.track i).isActive = true) :
    ∃ script c, (e.track i).script? scripts = some script ∧
      CommandAt script.events (e.track i).pc c ∧ e.command? i = some c := by
  obtain ⟨script, hscript, ⟨c, hc⟩, -⟩ := h.commands i hi
  refine ⟨script, c, hscript, hc, ?_⟩
  unfold command?
  rw [h.stream?_eq, hscript]
  exact hc.decodeAt script.bytes_stream

theorem modifyTrack (h : e.InScript scripts) (i : Nat) {f : Track → Track}
    (hf : (f (e.track i)).isActive = true → (f (e.track i)).OnCommands scripts) :
    (e.modifyTrack i f).InScript scripts := by
  refine ⟨h.written, fun j hj => ?_⟩
  rw [track_modifyTrack] at hj ⊢
  by_cases hij : i = j ∧ j < e.tracks.size
  · rw [if_pos hij] at hj ⊢
    obtain ⟨rfl, -⟩ := hij
    exact hf hj
  · rw [if_neg hij] at hj ⊢
    exact h.commands j hj

/-- A track may change in all but where it stands. -/
theorem of_spot (h : e.InScript scripts) (i : Nat) {f : Track → Track}
    (hspot : ∀ t, (f t).spot = t.spot) (hactive : ∀ t, (f t).isActive = t.isActive) :
    (e.modifyTrack i f).InScript scripts := by
  refine h.modifyTrack i fun hi => ?_
  rw [hactive] at hi
  exact (h.commands i hi).of_spot (hspot _)

/-- A track that an event of its script is read for. -/
theorem readDelta? (h : e.InScript scripts) {i offset : Nat} {e' : Engine σ}
    (hoffset : ∀ script ∈ (e.track i).script? scripts, EventAt script.events offset)
    (hread : e.readDelta? i offset = some e') : e'.InScript scripts := by
  rw [readDelta?_eq] at hread
  obtain ⟨t, hbehind, rfl⟩ := Option.map_eq_some_iff.mp hread
  refine h.modifyTrack i fun hactive => ?_
  have hi : (e.track i).isActive = true := by
    obtain ⟨_, _, -, rfl⟩ := Track.behindDelta?_eq_some hbehind
    exact hactive
  obtain ⟨script, hscript, -⟩ := h.commands i hi
  rw [h.stream?_eq, hscript] at hbehind
  exact (h.commands i hi).behindDelta hscript (hoffset script hscript) hbehind

theorem nextEvent (h : e.InScript scripts) {i offset : Nat}
    (hoffset : ∀ script ∈ (e.track i).script? scripts, EventAt script.events offset) :
    (e.nextEvent i offset).InScript scripts := by
  unfold Engine.nextEvent
  split
  · next hread => exact h.readDelta? hoffset hread
  · split
    · exact (unmoved_endSequence e _).inScript h
    · exact h

theorem endTrack (h : e.InScript scripts) (i : Nat) :
    (e.endTrack i).1.InScript scripts := by
  unfold Engine.endTrack
  dsimp only
  split
  · next hrewound =>
    split at hrewound
    · exact h.readDelta? (fun script _ => eventAt_zero script.events) hrewound
    · cases hrewound
  · exact (unmoved_turnOff e i).inScript h

/-- Behind the command of an active track, an event starts. -/
theorem eventAt_next (h : e.InScript scripts) {i : Nat}
    (hi : (e.track i).isActive = true) {c : Command} (hc : e.command? i = some c)
    (hlength : 1 ≤ c.length) :
    ∀ script ∈ (e.track i).script? scripts, EventAt script.events ((e.track i).pc + c.length) := by
  obtain ⟨script, c', hscript, hat, hc'⟩ := h.command?_eq hi
  obtain rfl : c = c' := Option.some.inj (hc.symm.trans hc')
  intro script' hscript'
  obtain rfl : script = script' := Option.some.inj (hscript.symm.trans hscript')
  rw [Command.length_eq hlength]
  exact hat.next

end InScript

/-- A command for a sequence leads each of its tracks. -/
theorem track_forSequence {e : Engine σ} (hseated : e.Seated) {course : Course}
    (hplace : ∀ stream t, (course stream t).1.place = t.place)
    {move : Engine σ → Nat → Engine σ × Flow} (hmove : ∀ e j, move e j = e.move j course)
    (i j : Nat) : (e.forSequence i move).1.track j =
      if j ∈ (e.slot (e.track i).slot).trackList ∧ j < e.tracks.size then
        (course (e.stream? j) (e.track j)).1 else e.track j := by
  obtain rfl : move = fun e j => e.move j course := funext fun e => funext fun j => hmove e j
  exact (foldl_move hplace i _ e .advance (hseated.nodup_trackList _)).2.2.1 j

section Chip

variable [SoundChip σ]

namespace InScript

variable {e : Engine σ}

/-! ## Courses -/

/-- Tracks that are led on a course from command to command. -/
theorem led (h : e.InScript scripts) (course : Course) {p : Nat → Prop} {e' : Engine σ}
    (htuned : Tuned e e')
    (hled : ∀ j, p j → e'.track j = (course (e.stream? j) (e.track j)).1)
    (hstay : ∀ j, ¬ p j → e'.track j = e.track j)
    (hcourse : ∀ j, p j → ∀ script, (e.track j).script? scripts = some script →
      (e.track j).OnCommands scripts →
        (course (some script.stream) (e.track j)).1.OnCommands scripts) :
    e'.InScript scripts := by
  refine ⟨by rw [htuned.module]; exact h.written, fun j hj => ?_⟩
  have hactive : (e.track j).isActive = true := (htuned.read Track.isActive (fun _ => rfl) j) ▸ hj
  by_cases hp : p j
  · obtain ⟨script, hscript, -⟩ := h.commands j hactive
    rw [hled j hp, h.stream?_eq, hscript]
    exact hcourse j hp script hscript (h.commands j hactive)
  · rw [hstay j hp]
    exact h.commands j hactive

theorem move {course : Course} (h : e.InScript scripts) (i : Nat)
    (htuned : Tuned e (e.move i course).1)
    (hcourse : ∀ script, (e.track i).script? scripts = some script →
      (e.track i).OnCommands scripts →
        (course (some script.stream) (e.track i)).1.OnCommands scripts) :
    (e.move i course).1.InScript scripts := by
  have htrack := fun j => track_modifyTrack e i j fun _ => (course (e.stream? i) (e.track i)).1
  refine h.led course (p := fun j => i = j ∧ j < e.tracks.size) htuned
    (fun j hj => ?_) (fun j hj => (htrack j).trans (if_neg hj)) fun j hj => ?_
  · obtain ⟨rfl, hi⟩ := hj
    exact (htrack i).trans (if_pos ⟨rfl, hi⟩)
  · obtain ⟨rfl, -⟩ := hj
    exact hcourse

theorem jump (h : e.InScript scripts) (i : Nat) (label : Int16) :
    (e.jump i label).1.InScript scripts := by
  have htuned := tuned_jump e i label
  rw [jump_eq] at htuned ⊢
  exact h.move i htuned fun script hscript ht => ht.jumped hscript label

theorem goBack (h : e.InScript scripts) (i : Nat) : (e.goBack i).1.InScript scripts := by
  have htuned := tuned_goBack e i
  rw [goBack_eq] at htuned ⊢
  exact h.move i htuned fun script hscript ht => ht.wentBack hscript

theorem gosub (h : e.InScript scripts) {i : Nat} (label : Int16)
    (hfit : ∀ script ∈ (e.track i).script? scripts,
      EventAt script.events ((e.track i).pc + Opcode.trackGosub.byteLength)) :
    (e.gosub i label).1.InScript scripts := by
  have htuned := tuned_gosub e i label
  rw [gosub_eq] at htuned ⊢
  exact h.move i htuned fun script hscript ht => ht.gosubbed hscript fun _ => hfit script hscript

end InScript

theorem InScript.forSequence {e : Engine σ} (h : e.InScript scripts) (hseated : e.Seated)
    {course : Course} (hplace : ∀ stream t, (course stream t).1.place = t.place)
    {move : Engine σ → Nat → Engine σ × Flow} (hmove : ∀ e j, move e j = e.move j course)
    (htuned : ∀ e j, Tuned e (move e j).1) (i : Nat)
    (hcourse : ∀ j ∈ (e.slot (e.track i).slot).trackList, ∀ script,
      (e.track j).script? scripts = some script → (e.track j).OnCommands scripts →
        (course (some script.stream) (e.track j)).1.OnCommands scripts) :
    (e.forSequence i move).1.InScript scripts := by
  have htrack := track_forSequence hseated hplace hmove i
  exact h.led course (p := fun j => j ∈ (e.slot (e.track i).slot).trackList ∧ j < e.tracks.size)
    (tuned_forSequence e i htuned) (fun j hj => (htrack j).trans (if_pos hj))
    (fun j hj => (htrack j).trans (if_neg hj)) fun j hj => hcourse j hj.1

/-! ## One command -/

/-- A gosub for the sequence is one of the track itself, which always fits, and one of
every other track. -/
theorem InScript.seqGosub {e : Engine σ} (h : e.InScript scripts) (hseated : e.Seated) {i : Nat}
    {c : Command} (hop : c.op = .seqGosub) (hc : e.command? i = some c)
    (hown : ∀ script ∈ (e.track i).script? scripts,
      EventAt script.events ((e.track i).pc + c.length))
    (hlabel : (e.label? i (c.signedWord 1)).isSome = true) (hfit : e.GosubFits scripts i) :
    (e.forSequence i fun e j => e.gosub j (c.signedWord 1)).1.InScript scripts := by
  refine h.forSequence hseated (Track.ofControl_gosubbed _).place (gosub_eq · · _)
    (tuned_gosub · · _) i fun j hj script hscript ht => ht.gosubbed hscript fun hgone => ?_
  by_cases hji : j = i
  · subst hji
    have hlength : c.length = Opcode.trackGosub.byteLength := by
      rw [Command.length, hop]
      rfl
    rw [← hlength]
    exact hown script hscript
  · refine hfit c hc hop hlabel j hj hji ?_ script hscript
    rw [gosub_eq]
    show (Track.gosubbed _ (e.stream? j) _).2 = _
    rwa [h.stream?_eq, hscript]

theorem InScript.command {e : Engine σ} (h : e.InScript scripts) (hseated : e.Seated) {i : Nat}
    {c : Command} (hc : e.command? i = some c)
    (hown : ∀ script ∈ (e.track i).script? scripts,
      EventAt script.events ((e.track i).pc + c.length)) (hfit : e.GosubFits scripts i) :
    (e.command i c).1.InScript scripts := by
  unfold Engine.command
  dsimp only
  split
  case h_1 =>
    have hheard : Unmoved e (e.hearMark (c.byte 1) (c.signedWord 2)) := by
      unfold hearMark
      split <;> exact .of_tracks rfl rfl
    exact hheard.inScript h
  case h_2 =>
    split
    · exact ((unmoved_modifySlot e _ _).inScript h).jump i _
    · exact h
  case h_3 =>
    split
    · exact ((unmoved_modifySlot e _ _).inScript h).jump i _
    · exact h
  case h_4 => exact (unmoved_modifySlot e _ _).inScript h
  case h_5 => exact (unmoved_modifySlot e _ _).inScript h
  case h_6 => exact (unmoved_modifySlot e _ _).inScript h
  case h_7 =>
    exact (unmoved_foldl (fun e j => unmoved_modifyTrack e j (f := (·.setTempo (c.word 1)))
      (fun _ => rfl) (fun t => t.paced_setTempo _) fun _ h => h) _ e).inScript h
  case h_8 hop =>
    split
    · exact h
    · next hlabel =>
      exact h.seqGosub hseated hop hc hown (Option.isSome_iff_ne_none.mpr (by simpa using hlabel))
        hfit
  case h_9 =>
    split
    · exact h
    · exact h.forSequence hseated (Track.ofControl_jumped _).place (jump_eq · · _)
        (tuned_jump · · _) i fun j _ script hscript ht => ht.jumped hscript _
  case h_10 =>
    exact h.forSequence hseated Track.ofControl_wentBack.place goBack_eq tuned_goBack i
      fun j _ script hscript ht => ht.wentBack hscript
  case h_11 => exact (unmoved_endSequence e _).inScript h
  case h_12 =>
    exact (unmoved_modifyTrack e i (f := (·.setTempo (c.word 1))) (fun _ => rfl)
      (fun t => t.paced_setTempo _) fun _ h => h).inScript h
  case h_13 hop =>
    refine h.gosub _ fun script hscript => ?_
    have hlength : c.length = Opcode.trackGosub.byteLength := by rw [Command.length, hop]
    rw [← hlength]
    exact hown script hscript
  case h_14 =>
    have hjumped := h.jump i (c.signedWord 1)
    split
    · next heq =>
      rw [heq] at hjumped
      exact hjumped.of_spot i (f := fun t => { t with delta := 0 }) (fun _ => rfl) fun _ => rfl
    · next heq =>
      rw [heq] at hjumped
      exact hjumped
  case h_15 => exact h.goBack i
  case h_16 => exact h.endTrack i
  case h_17 => exact h

theorem InScript.obey {e : Engine σ} (h : e.InScript scripts) (hseated : e.Seated) {i : Nat}
    (hi : (e.track i).isActive = true) (hfit : e.GosubFits scripts i) :
    (e.obey i).InScript scripts := by
  unfold Engine.obey
  split
  · exact h
  · next c hc =>
    split
    · exact (unmoved_driverCommand e i c).inScript h
    · split
      · next hop =>
        exact h.command hseated hc (h.eventAt_next hi hc (Opcode.byteLength_pos (.inr hop))) hfit
      · exact h

/-- A track that executes a command goes on to the next, unless the command put it
elsewhere. -/
theorem InScript.stepTrack {e : Engine σ} (h : e.InScript scripts) (hseated : e.Seated) {i : Nat}
    (hrun : (e.track i).isRunning = true) (hfit : e.GosubFits scripts i) :
    (e.stepTrack i).InScript scripts := by
  have hi : (e.track i).isActive = true := (Bool.and_eq_true_iff.mp hrun).1
  obtain ⟨script, c, -, -, hc⟩ := h.command?_eq hi
  -- the track keeps its script, so what stands behind the command does as well
  have hbehind : ∀ {e' : Engine σ}, Moves e e' → e'.InScript scripts →
      1 ≤ c.length →
        (e'.nextEvent i ((e.track i).pc + c.length)).InScript scripts := by
    intro e' hmoves h' hlength
    refine h'.nextEvent fun script hscript => h.eventAt_next hi hc hlength script ?_
    obtain ⟨-, hsequence, hposition, -⟩ := (steps_moves hmoves i).place
    rwa [Track.script?, hsequence, hposition] at hscript
  have hdecode : ((e.stream? i).bind fun s => Command.decodeAt s.bytes (e.track i).pc) =
      some c := hc
  unfold Engine.stepTrack
  dsimp only
  rw [hdecode]
  dsimp only
  split
  · next hop =>
    exact hbehind (moves_driverCommand c hrun) ((unmoved_driverCommand e i c).inScript h)
      (Opcode.byteLength_pos (.inl hop))
  · split
    · next hop =>
      have hlength := Opcode.byteLength_pos (.inr hop)
      have hdone := h.command hseated hc (h.eventAt_next hi hc hlength) hfit
      split
      · exact hbehind (moves_command c hrun) hdone hlength
      · exact hdone
    · exact (unmoved_endSequence e _).inScript h

/-- Where the tracks stand on commands after a command, it was no gosub that does not
fit. -/
theorem gosubFits_of_obey {e : Engine σ} (hseated : e.Seated) {i : Nat}
    (hdone : (e.obey i).OnCommands scripts) : e.GosubFits scripts i := by
  intro c hc hop hlabel j hj hne hgone script hscript
  have hobey : e.obey i = (e.forSequence i fun e j => e.gosub j (c.signedWord 1)).1 := by
    have hnot : ¬ (e.label? i (c.signedWord 1)).isNone = true := by
      rw [Option.isNone_iff_eq_none]
      exact Option.isSome_iff_ne_none.mp hlabel
    unfold obey
    rw [hc]
    dsimp only
    rw [hop, if_neg (by decide), if_pos (by decide), Engine.command, hop]
    dsimp only
    rw [if_neg hnot]
  have hlisted := List.mem_of_mem_take hj
  have htrack := track_forSequence hseated (Track.ofControl_gosubbed (c.signedWord 1)).place
    (gosub_eq · · _) i j
  rw [if_pos ⟨hj, hseated.lt_size hlisted⟩, ← hobey] at htrack
  rw [gosub_eq] at hgone
  obtain ⟨pc, -, hgosubbed⟩ := Track.gosubbed_eq_hold hgone
  rw [hgosubbed] at htrack
  have hactive : ((e.obey i).track j).isActive = true := by
    rw [htrack]
    exact (hseated.of_mem hlisted).1
  obtain ⟨script', hscript', -, hreturns⟩ := hdone j hactive
  rw [htrack] at hscript' hreturns
  obtain rfl : script = script' := Option.some.inj (hscript.symm.trans hscript')
  exact hreturns _ List.mem_cons_self

/-! ## Ticks -/

theorem InScript.tick {e : Engine σ} (h : e.InScript scripts) (hseated : e.Seated)
    (hfit : ∀ p ∈ e.executions, p.1.GosubFits scripts p.2) :
    e.tick.InScript scripts ∧ ∀ p ∈ e.executions,
      p.1.OnCommands scripts ∧ (p.1.obey p.2).OnCommands scripts := by
  have hpools := pools_beforeTracks e
  have hbefore : e.beforeTracks.InScript scripts ∧ e.beforeTracks.Seated :=
    ⟨(Unmoved.of_pools hpools).inScript h, (sameLinks_of_pools hpools).seated hseated⟩
  obtain ⟨⟨hturns, -⟩, hsteps⟩ := @beforeUpkeep_keeps _ _
    (fun e : Engine σ => e.InScript scripts ∧ e.Seated) (GosubFits scripts)
    (fun e i _ h => ⟨h.1.of_spot i (f := Track.advance) (fun _ => rfl) fun _ => rfl, h.2.advance i⟩)
    (fun e i _ h => ⟨h.1.of_spot i (f := fun t => { t with acc := t.acc - t.delta }) (fun _ => rfl)
      fun _ => rfl, h.2.payDelta i⟩)
    (fun e i _ h => ⟨(unmoved_turnOff e i).inScript h.1, h.2.turnOff i⟩)
    (fun e i hrun hfit h => ⟨h.1.stepTrack h.2 hrun hfit,
      enduring_seated.moves (moves_stepTrack hrun) h.2⟩)
    _ hbefore hfit
  refine ⟨?_, fun p hp => ?_⟩
  · rw [tick_eq]
    exact @serviceVoices_keeps _ _ (InScript scripts)
      (fun e v h => (unmoved_freeVoice e v).inScript h)
      (fun _ _ _ _ h => h.of_tracks rfl rfl) _ hturns
  · obtain ⟨⟨hscript, hseat⟩, hrun⟩ := hsteps p hp
    exact ⟨hscript.commands,
      (hscript.obey hseat (Bool.and_eq_true_iff.mp hrun).1 (hfit p hp)).commands⟩

theorem seated_of_mem_executions {e : Engine σ} (h : e.Seated) {p : Engine σ × Nat}
    (hp : p ∈ e.executions) : p.1.Seated :=
  enduring_seated.moves (moves_of_mem_executions hp).1 h

/-! ## Calls -/

omit [SoundChip σ] in
/-- A track starts on its first command, with nothing to come back to. -/
theorem InScript.startTrack {e : Engine σ} (h : e.InScript scripts)
    (slot sequence : Nat) (options : StartOptions) (i position : Nat) :
    (e.startTrack slot sequence options i position).InScript scripts := by
  cases hstream : e.module.track? sequence position with
  | none =>
    have hsame : e.startTrack slot sequence options i position = e := by
      unfold Engine.startTrack
      rw [hstream]
    rwa [hsame]
  | some stream =>
    obtain ⟨script, hscript, rfl⟩ : ∃ script,
        Track.script? scripts { sequence, position } = some script ∧ script.stream = stream := by
      have hwritten := h.written.track?_eq { sequence, position }
      exact Option.map_eq_some_iff.mp (hwritten.symm.trans hstream)
    have hfirst := event?_zero (h.written.events_ne_nil hscript) script.bytes_stream
    obtain ⟨⟨delta, pc⟩, hevent⟩ := Option.isSome_iff_exists.mp hfirst
    let started (t : Track) : Track :=
      { t.start script.stream.header options.attrs with
        flags := { (t.start script.stream.header options.attrs).flags with
          handled := options.handled, stopped := options.handled }
        slot, sequence, position, delta, pc }
    have hsame : (e.startTrack slot sequence options i position).module = e.module ∧
        (e.startTrack slot sequence options i position).tracks =
          (e.modifyTrack i started).tracks := by
      unfold Engine.startTrack
      rw [hstream]
      dsimp only
      rw [hevent]
      exact ⟨rfl, rfl⟩
    have hreturns : ∀ t : Track, (started t).returns = [] := by
      intro t
      show (t.start script.stream.header options.attrs).returns = []
      unfold Track.start
      dsimp only
      split <;> rfl
    refine (h.modifyTrack i fun _ => ?_).of_tracks hsame.1 hsame.2
    refine ⟨script, hscript, (eventAt_zero _).event? script.bytes_stream hevent, ?_⟩
    rw [hreturns]
    exact fun _ hnone => (List.not_mem_nil hnone).elim

omit [SoundChip σ] in
theorem InScript.startSequence {e : Engine σ} (h : e.InScript scripts) (sequence : Nat)
    (options : StartOptions) : (e.startSequence sequence options).2.InScript scripts :=
  @startSequence_keeps _ (InScript scripts)
    (fun e _ _ h => (unmoved_modifySlot e _ _).inScript h)
    (fun _ _ h => h.of_tracks rfl rfl) options
    (fun _ slot sequence i position _ h => h.startTrack slot sequence options i position)
    sequence _ h

theorem inScript_perform {s : Session σ} {call : Call σ} (h : s.engine.InScript scripts)
    (hseated : s.engine.Seated)
    (hfit : call.isTick = true → ∀ p ∈ s.engine.executions, p.1.GosubFits scripts p.2) :
    (s.perform call).engine.InScript scripts := by
  by_cases hdrives : call.Drives
  · cases call with
    | tick =>
      rw [Session.engine_tick]
      exact (h.tick hseated (hfit rfl)).1
    | start sequence options => exact h.startSequence sequence options
    | _ => exact hdrives.elim
  · exact (unmoved_perform s hdrives).inScript h

/-! ## Runs -/

/-- Whether the tracks stand on commands all through a call: in a tick, before each
command that is executed and behind it. -/
def StaysOnCommands (scripts : Array (Array Script)) (e : Engine σ) (call : Call σ) : Prop :=
  call.isTick = true → ∀ p ∈ e.executions,
    p.1.OnCommands scripts ∧ (p.1.obey p.2).OnCommands scripts

/-- Whether all gosubs for a sequence that a call makes fit. -/
def GosubsFit (scripts : Array (Array Script)) (e : Engine σ) (call : Call σ) : Prop :=
  call.isTick = true → ∀ p ∈ e.executions, p.1.GosubFits scripts p.2

instance (scripts : Array (Array Script)) (e : Engine σ) (call : Call σ) :
    Decidable (e.GosubsFit scripts call) :=
  inferInstanceAs (Decidable (_ → _))

theorem staysOnCommands_iff {e : Engine σ} (h : e.InScript scripts) (hseated : e.Seated)
    (call : Call σ) : e.StaysOnCommands scripts call ↔ e.GosubsFit scripts call :=
  ⟨fun hstays htick p hp =>
    gosubFits_of_obey (seated_of_mem_executions hseated hp) (hstays htick p hp).2,
    fun hfit htick => (h.tick hseated (hfit htick)).2⟩

end Chip

end Engine

open Engine in
/-- Every active track stands on a command of its script, and comes back to where its
events start, in each state of a run and all through each tick, just if all gosubs for
a sequence that the run makes fit the tracks that they send: three bytes behind the
command of each, an event starts. -/
theorem onCommands_throughout_iff {σ : Type} [SoundChip σ] {module : SoundModule} {chip : σ}
    {e : Engine σ} (hmake : Engine.make module chip = .ok e) {scripts : Array (Array Script)}
    (hwritten : module.WrittenBy scripts) (calls : List (Call σ)) :
    Session.Throughout (fun s => s.engine.OnCommands scripts) { engine := e } calls ∧
        Session.Allows (fun s call => s.engine.StaysOnCommands scripts call)
          { engine := e } calls ↔
      Session.Allows (fun s call => s.engine.GosubsFit scripts call) { engine := e } calls := by
  have hmodule : e.module = module := by
    unfold Engine.make at hmake
    split at hmake
    · cases hmake
    · cases hmake
      rfl
  have hstart : e.InScript scripts ∧ e.Seated := by
    refine ⟨⟨by rwa [hmodule], fun i hi => ?_⟩, seated_make hmake⟩
    rw [track_make hmake] at hi
    cases hi
  have hkeeps : ∀ (s : Session σ) (call : Call σ), s.engine.InScript scripts ∧ s.engine.Seated →
      s.engine.GosubsFit scripts call →
        (s.perform call).engine.InScript scripts ∧ (s.perform call).engine.Seated :=
    fun s call h hfit => ⟨inScript_perform h.1 h.2 hfit, seated_perform s call h.2⟩
  have hstays := Session.allows_iff_allows
    (fun s : Session σ => s.engine.InScript scripts ∧ s.engine.Seated)
    (fun s call => s.engine.GosubsFit scripts call)
    (fun s call h (_ : True) => staysOnCommands_iff h.1 h.2 call)
    (fun s call h _ hfit => hkeeps s call h hfit)
    (Session.allows_of_forall (fun _ _ => trivial) calls { engine := e }) hstart
  refine ⟨fun h => hstays.mp h.2, fun hfit => ⟨?_, hstays.mpr hfit⟩⟩
  exact (hfit.throughout _ hkeeps hstart).imp fun s h => h.1.commands

/-- A sequence of two tracks: one makes a gosub for the sequence at once, the other waits
for its first command. -/
def duet (pending : Command) : Array (Array Script) :=
  #[#[{ lines := [.reserve, .place 0, .event 1 (.seqGosub 0), .event 1000 .trackEnd] },
    { lines := [.reserve, .place 0, .event 1000 pending, .event 1000 .trackEnd] }]]

/-- A module of scripts for an engine with two tracks. -/
def scripted (scripts : Array (Array Script)) : SoundModule :=
  { solo [] with
    limits := { sequences := 1, tracks := 2, voices := 1 }
    sequences := scripts.map fun tracks => tracks.map Script.stream }

/-- A track that waits for a note comes back behind it, in three bytes. -/
theorem onCommands_throughout_duet : ∃ e,
    Engine.make (scripted (duet (.noteOn 60 100)))
        ({ instantRelease := false } : RecorderChip) = .ok e ∧
      ((Session.run { engine := e } [.start 0 {}, .tick, .tick]).engine.track 1).returns =
        [5, 5, 5] ∧
      (Session.Throughout (fun s => s.engine.OnCommands (duet (.noteOn 60 100))) { engine := e }
          [.start 0 {}, .tick, .tick, .stop 0, .start 0 {}, .tick] ∧
        Session.Allows (fun s call => s.engine.StaysOnCommands (duet (.noteOn 60 100)) call)
          { engine := e }
          [.start 0 {}, .tick, .tick, .stop 0, .start 0 {}, .tick]) := by
  obtain ⟨e, hmake, hreturns, hfit⟩ : ∃ e,
      Engine.make (scripted (duet (.noteOn 60 100)))
          ({ instantRelease := false } : RecorderChip) = .ok e ∧
        ((Session.run { engine := e } [.start 0 {}, .tick, .tick]).engine.track 1).returns =
          [5, 5, 5] ∧
        Session.Allows (fun s call => s.engine.GosubsFit (duet (.noteOn 60 100)) call)
          { engine := e }
          [.start 0 {}, .tick, .tick, .stop 0, .start 0 {}, .tick] :=
    Engine.exists_make (by decide +kernel)
  exact ⟨e, hmake, hreturns, (onCommands_throughout_iff hmake ⟨rfl, by decide⟩ _).mpr hfit⟩

/-- A track that waits for the end of a note, in two bytes, comes back into the delta time
of the event behind that. -/
theorem not_onCommands_duet : (scripted (duet (.noteOff 60))).WrittenBy (duet (.noteOff 60)) ∧
    ∃ e, Engine.make (scripted (duet (.noteOff 60)))
        ({ instantRelease := false } : RecorderChip) = .ok e ∧
      ¬ Session.Throughout (fun s => s.engine.OnCommands (duet (.noteOff 60))) { engine := e }
        [.start 0 {}, .tick] := by
  obtain ⟨e, hmake, hoff⟩ : ∃ e,
      Engine.make (scripted (duet (.noteOff 60)))
          ({ instantRelease := false } : RecorderChip) = .ok e ∧
        ¬ (Session.run { engine := e } [.start 0 {}, .tick]).engine.OnCommands
          (duet (.noteOff 60)) := Engine.exists_make (by decide +kernel)
  exact ⟨⟨rfl, by decide⟩, e, hmake, fun hthroughout => hoff hthroughout.last⟩

end SoundSequencer
