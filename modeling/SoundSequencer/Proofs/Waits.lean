/-
SoundSequencer.Proofs.Waits — whose time a command touches.

* `Track.Still` says that no time passes for a track and that it keeps its pace,
  `Engine.SameTime` that it is so for all tracks, and that all but some wait as long as
  they did.
* `sameTime_command` goes through the commands: a track that executes one sets how long
  itself waits. Only a return for the whole sequence sets that for others, as
  `Engine.Returns` has it.
* `timing_runPool` says that the turns of other tracks leave the timing of a track
  alone as long as none of its slot makes such a return.
-/
import SoundSequencer.Proofs.Boundaries

namespace SoundSequencer

/-- How much time has passed for a track, and how much of it is not yet spent. -/
def Track.elapsed (t : Track) := (t.total, t.acc)

theorem Track.timing_eq {t t' : Track} :
    t'.timing = t.timing ↔ t'.elapsed = t.elapsed ∧ t'.delta = t.delta := by
  simp [timing, elapsed, and_assoc]

/-- No time passes on the way from `t` to `t'`, and it goes on as before but for the tempo. -/
structure Track.Still (t t' : Track) : Prop extends Track.Paced t t' where
  elapsed : t'.elapsed = t.elapsed

namespace Track.Still

theorem refl (t : Track) : t.Still t := ⟨.refl t, rfl⟩

theorem trans {a b c : Track} (hab : a.Still b) (hbc : b.Still c) : a.Still c :=
  ⟨hab.toPaced.trans hbc.toPaced, hbc.elapsed.trans hab.elapsed⟩

end Track.Still

namespace Engine

variable {σ : Type}

/-- No time passes, and the tracks that have not `moved` wait as long as they did. -/
structure SameTime (moved : Nat → Prop) (e e' : Engine σ) : Prop where
  still : ∀ i, (e.track i).Still (e'.track i)
  delta : ∀ i, ¬ moved i → (e'.track i).delta = (e.track i).delta

namespace SameTime

variable {moved : Nat → Prop} {a b c e e' : Engine σ}

theorem refl (moved : Nat → Prop) (e : Engine σ) : SameTime moved e e :=
  ⟨fun _ => .refl _, fun _ _ => rfl⟩

theorem trans (hab : SameTime moved a b) (hbc : SameTime moved b c) : SameTime moved a c :=
  ⟨fun i => (hab.still i).trans (hbc.still i),
    fun i hi => (hbc.delta i hi).trans (hab.delta i hi)⟩

theorem mono {more : Nat → Prop} (h : SameTime moved e e') (hmore : ∀ i, moved i → more i) :
    SameTime more e e' :=
  ⟨h.still, fun i hi => h.delta i fun hmoved => hi (hmore i hmoved)⟩

theorem timing (h : SameTime moved e e') {i : Nat} (hi : ¬ moved i) :
    (e'.track i).timing = (e.track i).timing :=
  Track.timing_eq.mpr ⟨(h.still i).elapsed, h.delta i hi⟩

end SameTime

theorem Unmoved.sameTime {e e' : Engine σ} (h : Unmoved e e') (moved : Nat → Prop) :
    SameTime moved e e' :=
  ⟨fun i => ⟨h.paced i, (Track.timing_eq.mp (h.timing i)).1⟩,
    fun i _ => (Track.timing_eq.mp (h.timing i)).2⟩

/-- One track changes, but not in the time that has passed for it. -/
theorem sameTime_modifyTrack (e : Engine σ) (i : Nat) {f : Track → Track}
    (hf : (e.track i).Still (f (e.track i))) : SameTime (· = i) e (e.modifyTrack i f) where
  still j := by
    rw [track_modifyTrack]
    split
    · next h =>
      obtain ⟨rfl, -⟩ := h
      exact hf
    · exact .refl _
  delta j hj := by rw [track_modifyTrack, if_neg fun h => hj h.1.symm]

/-! ## Places -/

/-- A track that is led on a course that takes no time. -/
theorem sameTime_move (e : Engine σ) (i : Nat) {course : Course}
    (hcourse : ∀ stream (t : Track), t.Still (course stream t).1) :
    SameTime (· = i) e (e.move i course).1 := sameTime_modifyTrack e i (hcourse _ _)

/-- A track that is led on a course which leaves it its wait. -/
theorem unwaited_move (e : Engine σ) (i : Nat) {course : Course}
    (hcourse : ∀ stream (t : Track),
      t.Still (course stream t).1 ∧ (course stream t).1.delta = t.delta) :
    SameTime (fun _ => False) e (e.move i course).1 := by
  refine ⟨(sameTime_move e i fun stream t => (hcourse stream t).1).still, fun j _ => ?_⟩
  refine (congrArg Track.delta (track_modifyTrack e i j _)).trans ?_
  split
  · next h =>
    obtain ⟨rfl, -⟩ := h
    exact (hcourse _ _).2
  · rfl

theorem still_jumped (label : Int16) (stream : Option TrackStream) (t : Track) :
    t.Still (Track.jumped label stream t).1 ∧
      (Track.jumped label stream t).1.delta = t.delta := by
  unfold Track.jumped
  split <;> exact ⟨⟨⟨rfl, rfl, id⟩, rfl⟩, rfl⟩

theorem still_gosubbed (label : Int16) (stream : Option TrackStream) (t : Track) :
    t.Still (Track.gosubbed label stream t).1 ∧
      (Track.gosubbed label stream t).1.delta = t.delta := by
  by_cases hgone : (Track.gosubbed label stream t).2 = .hold
  · obtain ⟨pc, -, heq⟩ := Track.gosubbed_eq_hold hgone
    rw [heq]
    exact ⟨⟨⟨rfl, rfl, id⟩, rfl⟩, rfl⟩
  · rw [Track.gosubbed_of_ne_hold hgone]
    exact ⟨.refl t, rfl⟩

theorem still_wentBack (stream : Option TrackStream) (t : Track) :
    t.Still (Track.wentBack stream t).1 := by
  unfold Track.wentBack
  cases hpop : t.popReturn? with
  | none => exact .refl t
  | some popped =>
    obtain ⟨address, t'⟩ := popped
    obtain ⟨-, ht'⟩ := Track.popReturn?_eq_some hpop
    have hstill : t.Still t' := by
      rw [ht']
      exact ⟨⟨rfl, rfl, id⟩, rfl⟩
    dsimp only
    cases hbehind : t'.behindDelta? stream address with
    | none => exact hstill
    | some t'' =>
      obtain ⟨delta, pc, -, rfl⟩ := Track.behindDelta?_eq_some hbehind
      exact hstill.trans ⟨⟨rfl, rfl, id⟩, rfl⟩

theorem sameTime_readDelta? {e e' : Engine σ} {i offset : Nat}
    (h : e.readDelta? i offset = some e') : SameTime (· = i) e e' := by
  rw [readDelta?_eq] at h
  obtain ⟨t, hbehind, rfl⟩ := Option.map_eq_some_iff.mp h
  obtain ⟨delta, pc, -, rfl⟩ := Track.behindDelta?_eq_some hbehind
  exact sameTime_modifyTrack e i ⟨⟨rfl, rfl, id⟩, rfl⟩

theorem sameTime_nextEvent (e : Engine σ) (i offset : Nat) :
    SameTime (· = i) e (e.nextEvent i offset) := by
  unfold nextEvent
  split
  · next hread => exact sameTime_readDelta? hread
  · split
    · exact (unmoved_endSequence e _).sameTime _
    · exact .refl _ e

theorem sameTime_endTrack (e : Engine σ) (i : Nat) : SameTime (· = i) e (e.endTrack i).1 := by
  unfold endTrack
  dsimp only
  split
  · next hrewound =>
    split at hrewound
    · exact sameTime_readDelta? hrewound
    · cases hrewound
  · exact (unmoved_turnOff e i).sameTime _

theorem sameTime_jump (e : Engine σ) (i : Nat) (label : Int16) :
    SameTime (fun _ => False) e (e.jump i label).1 := by
  rw [jump_eq]
  exact unwaited_move e i (still_jumped label)

theorem sameTime_gosub (e : Engine σ) (i : Nat) (label : Int16) :
    SameTime (fun _ => False) e (e.gosub i label).1 := by
  rw [gosub_eq]
  exact unwaited_move e i (still_gosubbed label)

theorem sameTime_goBack (e : Engine σ) (i : Nat) : SameTime (· = i) e (e.goBack i).1 := by
  rw [goBack_eq]
  exact sameTime_move e i still_wentBack

/-- A command for a sequence that sets the waits of its tracks at most. -/
theorem sameTime_forSequence {moved : Nat → Prop} {move : Engine σ → Nat → Engine σ × Flow}
    (e : Engine σ) (i : Nat)
    (hmove : ∀ a, ∀ j ∈ (e.slot (e.track i).slot).trackList, SameTime moved a (move a j).1) :
    SameTime moved e (e.forSequence i move).1 := by
  have hled := foldl_keeps
    (f := fun (p : Engine σ × Flow) other =>
      ((move p.1 other).1, if other = i then (move p.1 other).2 else p.2))
    (fun l p => (∀ j ∈ l, j ∈ (e.slot (e.track i).slot).trackList) ∧ SameTime moved e p.1)
    (fun j l p h => by
      obtain ⟨hlisted, hsame⟩ := h
      exact ⟨fun k hk => hlisted k (List.mem_cons_of_mem j hk),
        hsame.trans (hmove p.1 j (hlisted j List.mem_cons_self))⟩)
    (e.slot (e.track i).slot).trackList (e, Flow.advance) ⟨fun _ => id, .refl moved e⟩
  exact hled.2

/-! ## Commands -/

/-- Whom a command makes wait anew: the track that executes it, and with a return for the
whole sequence all tracks of its slot. -/
def Awaits (e : Engine σ) (j : Nat) (c : Command) (i : Nat) : Prop :=
  i = j ∨ c.op = .seqReturn ∧ i ∈ (e.slot (e.track j).slot).trackList

theorem sameTime_command (e : Engine σ) (j : Nat) (c : Command) :
    SameTime (e.Awaits j c) e (e.command j c).1 := by
  have hself : ∀ i, i = j → e.Awaits j c i := fun _ => Or.inl
  have hnone : ∀ i, False → e.Awaits j c i := fun _ => False.elim
  unfold command
  dsimp only
  split
  case h_1 =>
    refine Unmoved.sameTime ?_ _
    unfold hearMark
    split <;> exact .of_tracks rfl rfl
  case h_2 =>
    split
    · exact ((unmoved_modifySlot e _ _).sameTime _).trans ((sameTime_jump _ j _).mono hnone)
    · exact .refl _ e
  case h_3 =>
    split
    · exact ((unmoved_modifySlot e _ _).sameTime _).trans ((sameTime_jump _ j _).mono hnone)
    · exact .refl _ e
  case h_4 => exact (unmoved_modifySlot e _ _).sameTime _
  case h_5 => exact (unmoved_modifySlot e _ _).sameTime _
  case h_6 => exact (unmoved_modifySlot e _ _).sameTime _
  case h_7 =>
    -- a tempo for the sequence changes how fast time passes, not how much has passed
    refine Unmoved.sameTime ?_ _
    exact unmoved_foldl (fun e j => unmoved_modifyTrack e j (f := (·.setTempo (c.word 1)))
      (fun _ => rfl) (fun t => t.paced_setTempo _) fun _ h => h) _ e
  case h_8 =>
    split
    · exact .refl _ e
    · exact sameTime_forSequence e j fun a k _ => (sameTime_gosub a k _).mono hnone
  case h_9 =>
    split
    · exact .refl _ e
    · exact sameTime_forSequence e j fun a k _ => (sameTime_jump a k _).mono hnone
  case h_10 hop =>
    -- the return for the sequence: each track of it gets the wait behind its own gosub
    refine sameTime_forSequence e j fun a k hk => (sameTime_goBack a k).mono ?_
    rintro i rfl
    exact .inr ⟨hop, hk⟩
  case h_11 => exact (unmoved_endSequence e _).sameTime _
  case h_12 =>
    exact (unmoved_modifyTrack e j (f := (·.setTempo (c.word 1))) (fun _ => rfl)
      (fun t => t.paced_setTempo _) fun _ h => h).sameTime _
  case h_13 => exact (sameTime_gosub e j _).mono hnone
  case h_14 =>
    -- the jump of one track clears the wait that it took along
    have hjumped := (sameTime_jump e j (c.signedWord 1)).mono hnone
    split
    · next heq =>
      rw [heq] at hjumped
      exact hjumped.trans
        ((sameTime_modifyTrack _ j (f := fun t => { t with delta := 0 })
          ⟨⟨rfl, rfl, id⟩, rfl⟩).mono hself)
    · next heq =>
      rw [heq] at hjumped
      exact hjumped
  case h_15 => exact (sameTime_goBack e j).mono hself
  case h_16 => exact (sameTime_endTrack e j).mono hself
  case h_17 => exact .refl _ e

section Chip

variable [SoundChip σ]

/-- Whether track `j` is at a return for its whole sequence. -/
def Returns (e : Engine σ) (j : Nat) : Prop := ∃ c ∈ e.command? j, c.op = .seqReturn

instance (e : Engine σ) (j : Nat) : Decidable (e.Returns j) :=
  inferInstanceAs (Decidable (∃ c ∈ e.command? j, c.op = .seqReturn))

/-- Whom the step of track `j` makes wait anew. -/
def Rouses (e : Engine σ) (j i : Nat) : Prop :=
  i = j ∨ e.Returns j ∧ i ∈ (e.slot (e.track j).slot).trackList

/-- A track that executes a command and goes on to the next. -/
theorem sameTime_stepTrack (e : Engine σ) (j : Nat) :
    SameTime (e.Rouses j) e (e.stepTrack j) := by
  have hnext : ∀ (e' : Engine σ) offset, SameTime (e.Rouses j) e' (e'.nextEvent j offset) :=
    fun e' offset => (sameTime_nextEvent e' j offset).mono fun _ => Or.inl
  unfold stepTrack
  dsimp only
  split
  · exact (unmoved_endSequence e _).sameTime _
  · next c hc =>
    split
    · exact ((unmoved_driverCommand e j c).sameTime _).trans (hnext _ _)
    · split
      · have hcommand : SameTime (e.Rouses j) e (e.command j c).1 := by
          refine (sameTime_command e j c).mono ?_
          rintro i (hself | ⟨hop, hlisted⟩)
          · exact .inl hself
          · exact .inr ⟨⟨c, hc, hop⟩, hlisted⟩
        split
        · exact hcommand.trans (hnext _ _)
        · exact hcommand
      · exact (unmoved_endSequence e _).sameTime _

/-! ## Turns of other tracks -/

/-- Whether track `j` makes a return for the sequence of track `i`, if it is another one. -/
def ReturnsFor (i : Nat) (e : Engine σ) (j : Nat) : Prop :=
  j ≠ i ∧ (e.track j).slot = (e.track i).slot ∧ e.Returns j

instance (i : Nat) (e : Engine σ) (j : Nat) : Decidable (e.ReturnsFor i j) :=
  inferInstanceAs (Decidable (_ ∧ _ ∧ _))

/-- The turns of other tracks leave the timing of a track alone, unless one of its slot
makes a return for all of them. -/
theorem timing_runPool {i : Nat} {l : List Nat} (hl : i ∉ l) {e : Engine σ} (hseated : e.Seated)
    (hreturns : ∀ p ∈ poolSteps l e, ¬ p.1.ReturnsFor i p.2) :
    (e.runPool l).Seated ∧ ((e.runPool l).track i).timing = (e.track i).timing := by
  have hother : ∀ (e : Engine σ) {j : Nat} (f : Track → Track), j ≠ i →
      (e.modifyTrack j f).track i = e.track i := by
    intro e j f hj
    rw [track_modifyTrack, if_neg fun h => hj h.1]
  refine (@runPool_keeps σ _ (fun e' => e'.Seated ∧ (e'.track i).timing = (e.track i).timing)
    (fun e j => ¬ e.ReturnsFor i j) (· ≠ i) ?_ ?_ ?_ ?_ l ?_ e ⟨hseated, rfl⟩ hreturns).1
  · rintro e' j hj - ⟨hseated, htiming⟩
    exact ⟨hseated.advance j, by rwa [hother e' _ hj]⟩
  · rintro e' j hj - ⟨hseated, htiming⟩
    refine ⟨hseated.payDelta j, ?_⟩
    rwa [payDelta, hother e' _ hj]
  · rintro e' j hj - ⟨hseated, htiming⟩
    exact ⟨hseated.turnOff j, ((unmoved_turnOff e' j).timing i).trans htiming⟩
  · rintro e' j hj hrun hfit ⟨hseated, htiming⟩
    refine ⟨enduring_seated.moves (moves_stepTrack hrun) hseated, ?_⟩
    refine ((sameTime_stepTrack e' j).timing ?_).trans htiming
    rintro (hself | ⟨hreturn, hlisted⟩)
    · exact hj hself.symm
    · exact hfit ⟨hj, (hseated.of_mem (List.mem_of_mem_take hlisted)).2.symm, hreturn⟩
  · rintro j hj rfl
    exact hl hj

end Chip

end Engine

end SoundSequencer
