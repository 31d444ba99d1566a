/-
SoundSequencer.Proofs.ScoreRuns — a tick turns the score of every slot into the
next, whatever else plays.

* `Sheds` says that slots only lose tracks; in a tick none gets one.
* `follows_stepTrack` and `follows_runTrack` are the turn of a track.
* `score_tick` is a tick of a score: its parts take their turns in the order of the
  pool. `Unison` says of two engines that a slot plays the same in both.
-/
import Mathlib.Data.List.Sort
import SoundSequencer.Proofs.Accepted
import SoundSequencer.Proofs.ScoreCommands

namespace SoundSequencer

namespace Engine

variable {σ : Type}

/-! ## Slots lose tracks -/

/-- The module is the same, slots have the same sequences, and none has got a track. -/
structure Sheds (e e' : Engine σ) : Prop where
  module : e'.module = e.module
  sequence : ∀ s, (e'.slot s).sequence = (e.slot s).sequence
  entry : ∀ s p j, (e'.slot s).entry p = some j → (e.slot s).entry p = some j

namespace Sheds

variable {e e' e'' : Engine σ}

theorem refl (e : Engine σ) : Sheds e e := ⟨rfl, fun _ => rfl, fun _ _ _ h => h⟩

theorem trans (h : Sheds e e') (h' : Sheds e' e'') : Sheds e e'' :=
  ⟨h'.module.trans h.module, fun s => (h'.sequence s).trans (h.sequence s),
    fun s p j hentry => h.entry s p j (h'.entry s p j hentry)⟩

theorem of_slots (hmodule : e'.module = e.module)
    (hslot : ∀ s, (e'.slot s).standing = (e.slot s).standing) : Sheds e e' := by
  refine ⟨hmodule, fun s => (congrArg Slot.sequence (hslot s) :), fun s p j => ?_⟩
  have htracks : (e'.slot s).tracks = (e.slot s).tracks := (congrArg Slot.tracks (hslot s) :)
  unfold Slot.entry
  rw [htracks]
  exact id

end Sheds

theorem Spares.toSheds {l : List Nat} {e e' : Engine σ} (h : Spares l e e') : Sheds e e' :=
  ⟨h.module, h.sequence, h.sheds⟩

theorem sheds_releaseVoices (e : Engine σ) (i : Nat) : Sheds e (e.releaseVoices i) := by
  unfold releaseVoices
  split
  · exact .refl e
  · exact .of_slots rfl fun _ => rfl

theorem sheds_freeVoice (e : Engine σ) (v : Nat) : Sheds e (e.freeVoice v) := by
  have hdrop : Sheds e (e.dropVoice v) := .of_slots rfl fun _ => rfl
  rw [freeVoice_eq]
  split
  · split
    · exact hdrop.trans (spares_retireTrack _ _).toSheds
    · exact hdrop
  · exact .refl e

section Turns

variable [SoundChip σ]

theorem sheds_playNote (e : Engine σ) (i : Nat) (patchVoice : UInt16) (note velocity : UInt8) :
    Sheds e (e.playNote i patchVoice note velocity) := by
  have hstart : ∀ (e : Engine σ) v, Sheds e (e.startVoice v i patchVoice note velocity) := by
    intro e v
    cases hpatch : e.module.patches.voice? patchVoice.toNat with
    | none =>
      rw [startVoice_of_none hpatch]
      exact .refl e
    | some patch =>
      obtain ⟨_, _, _, -, -, hstarted⟩ := startVoice_of_some v i note velocity hpatch
      rw [hstarted]
      exact .of_slots rfl fun _ => rfl
  rcases playNote_eq e i patchVoice note velocity with heq | ⟨-, v, -, heq⟩
  · rw [heq]
    exact .refl e
  · rw [heq]
    exact (sheds_freeVoice e v).trans (hstart _ v)

theorem sheds_noteOn (e : Engine σ) (i : Nat) (key velocity : UInt8) :
    Sheds e (e.noteOn i key velocity) := by
  unfold noteOn
  split
  · exact .refl e
  · exact foldl_relates .refl (fun _ _ _ => .trans)
      (fun e _ => sheds_playNote e i _ _ velocity) _ e

theorem sheds_moves {e e' : Engine σ} (h : Moves e e') : Sheds e e' := by
  refine @Moves.keeps _ _ (Sheds e) (fun e₁ e₂ hmove he => he.trans ?_) _ _ h (.refl e)
  cases hmove with
  | noteOn key velocity => exact sheds_noteOn e₁ _ key velocity
  | deed hdeed =>
    cases hdeed with
    | tuned h => exact .of_slots h.module h.slot
    | turnOff => exact (spares_turnOff e₁ _).toSheds
    | endSequence s => exact (quits_foldl_turnOff _ e₁).toSheds
    | noteOff => exact .of_slots rfl fun _ => rfl
    | pauseTrack => exact (spares_pauseTrack e₁ _).toSheds
    | muteTrack i =>
      unfold muteTrack
      split
      · exact .refl e₁
      · exact sheds_releaseVoices e₁ i

theorem steps_moves {e e' : Engine σ} (h : Moves e e') : Steps e e' := by
  refine @Moves.keeps _ _ (Steps e) (fun e₁ e₂ hmove he => he.trans ?_) _ _ h (.refl e)
  cases hmove with
  | deed hdeed => exact steps_deed hdeed
  | noteOn key velocity => exact steps_noteOn e₁ _ key velocity

theorem steps_tick (e : Engine σ) : Steps e e.tick := by
  rw [tick_eq]
  exact serviceVoices_keeps (fun e' v he => he.trans (steps_freeVoice e' v)) (fun _ _ _ _ he => he)
    (steps_moves (moves_beforeUpkeep e))

omit [SoundChip σ] in
/-- In all that follows, the part at a track's position is that of the track. -/
theorem Placed.part_later {e e' : Engine σ} (h : e.Placed) (h' : e'.Placed) (hsheds : Sheds e e')
    (hsteps : Steps e e') {i : Nat} (hi : (e.track i).isActive = true) :
    e'.part (e'.track i).slot (e'.track i).position = (e'.track i).running? := by
  cases hactive : (e'.track i).isActive with
  | true => exact h'.part_self hactive
  | false =>
    obtain ⟨hslot, -, hposition, -⟩ := (hsteps i).place
    rw [Track.running?_of_not_isRunning (by simp [Track.isRunning, hactive])]
    show ((e'.slot _).entry _).bind _ = none
    cases hentry : (e'.slot (e'.track i).slot).entry (e'.track i).position with
    | none => rfl
    | some j =>
      -- the only track that could stand there has left
      have hold := hsheds.entry _ _ j hentry
      rw [hslot, hposition, (h.home i hi).2.1, Option.some.injEq] at hold
      subst hold
      exact absurd (hactive.symm.trans (h'.entry _ _ i hentry).2.1) Bool.false_ne_true

/-- What is known of an engine, and of a track that was in the pool, after any moves. -/
structure Later (e e' : Engine σ) (i : Nat) : Prop where
  wellFormed : e'.WellFormed
  wide : e'.module.widestSequence ≤ maxTracksPerSequence
  place : (e'.track i).place = (e.track i).place
  part : e'.part (e'.track i).slot (e'.track i).position = (e'.track i).running?

theorem WellFormed.later {e e' : Engine σ} (h : e.WellFormed)
    (hwide : e.module.widestSequence ≤ maxTracksPerSequence) (hmoves : Moves e e') {i : Nat}
    (hi : (e.track i).isActive = true) : Later e e' i := by
  have h' := h.moves hmoves
  have hsheds := sheds_moves hmoves
  have hsteps := steps_moves hmoves
  obtain ⟨hslot, hsequence, hposition, -⟩ := (hsteps i).place
  refine ⟨h', by rwa [hsheds.module], ?_,
    h.agree.toPlaced.part_later h'.agree.toPlaced hsheds hsteps hi⟩
  unfold Track.place
  rw [hslot, hsequence, hposition]

/-! ## The turn of a track -/

/-- A command of a track is one of its part. -/
theorem follows_stepTrack {e : Engine σ} (h : e.WellFormed)
    (hwide : e.module.widestSequence ≤ maxTracksPerSequence) {i : Nat}
    (hrun : (e.track i).isRunning = true) :
    Follows e (e.stepTrack i) i
      ((e.score (e.track i).slot).step (e.track i).position) := by
  have hplaced := h.agree.toPlaced
  have hi : (e.track i).isActive = true := (Bool.and_eq_true_iff.mp hrun).1
  have hpc : (e.track i).control.pc = (e.track i).pc := rfl
  unfold stepTrack Score.step
  rw [hplaced.part_self hi, hplaced.streams_self hi, Track.running?_of_isRunning hrun]
  dsimp only
  rw [hpc]
  cases (e.stream? i).bind fun s => Command.decodeAt s.bytes (e.track i).pc with
  | none => exact follows_endSequence hplaced hwide hi
  | some c =>
    dsimp only
    split
    · have hlater := h.later hwide (moves_driverCommand c hrun) hi
      exact (follows_driverCommand h hrun c).next hlater.place
        (f := fun m p => m.nextEvent p ((e.track i).pc + c.length))
        (follows_nextEvent hlater.wellFormed.agree.toPlaced hlater.wide hlater.part _)
    · split
      · have hlater := h.later hwide (moves_command c hrun) hi
        obtain ⟨hfollows, hflow⟩ := flows_command hplaced hwide hrun c
        have hnext := hfollows.next hlater.place
          (f := fun m p => m.nextEvent p ((e.track i).pc + c.length))
          (follows_nextEvent hlater.wellFormed.agree.toPlaced hlater.wide hlater.part _)
        obtain ⟨-, -, hplace, hpart⟩ := hlater
        simp only [Track.place, Prod.mk.injEq] at hplace
        rw [hplace.1, hplace.2.2] at hpart
        generalize e.command i c = moved at *
        generalize Score.command _ _ _ c = score at *
        obtain ⟨e', flow⟩ := moved
        obtain ⟨m, flow'⟩ := score
        have hhome : m.parts (e.track i).position = (e'.track i).running? := by
          have hparts := congrFun (congrArg Score.parts hfollows.home) (e.track i).position
          exact hparts.symm.trans hpart
        dsimp only
        cases hruns : (e'.track i).isRunning with
        | true =>
          obtain rfl : flow = flow' := hflow hruns
          have hactive : (e'.track i).isActive = true := (Bool.and_eq_true_iff.mp hruns).1
          cases flow with
          | advance =>
            rw [hactive]
            exact hnext
          | hold => exact hfollows
        | false =>
          -- a track that runs no longer is no part, so nothing moves it on
          rw [Track.running?_of_not_isRunning hruns] at hhome
          rw [Score.nextEvent_of_none hhome, ite_self]
          split
          · rwa [Score.nextEvent_of_none hhome] at hnext
          · exact hfollows
      · exact follows_endSequence hplaced hwide hi

omit [SoundChip σ] in
theorem isDue_score {e : Engine σ} {i : Nat}
    (hpart : e.part (e.track i).slot (e.track i).position = (e.track i).running?) :
    (e.score (e.track i).slot).isDue (e.track i).position = e.isDue i := by
  show Option.any _ (e.part _ _) = _
  rw [hpart]
  unfold Track.running? isDue
  dsimp only
  cases (e.track i).isRunning with
  | true => rfl
  | false => rfl

/-- All commands that are due on a track are due on its part. -/
theorem follows_runDue (i : Nat) : ∀ (budget : Nat) {e : Engine σ}, e.WellFormed →
    e.module.widestSequence ≤ maxTracksPerSequence →
    e.part (e.track i).slot (e.track i).position = (e.track i).running? →
    Follows e (runDue budget e i) i
      (Score.runDue budget (e.score (e.track i).slot) (e.track i).position)
  | 0, e, h, hwide, hpart => by
    unfold Engine.runDue Score.runDue
    rw [isDue_score hpart]
    split
    · next hdue =>
      have hrun := isRunning_of_isDue hdue
      exact follows_turnOff h.agree.toPlaced (Bool.and_eq_true_iff.mp hrun).1
    · exact .refl e i
  | budget + 1, e, h, hwide, hpart => by
    unfold Engine.runDue Score.runDue
    rw [isDue_score hpart]
    split
    · next hdue =>
      have hrun := isRunning_of_isDue hdue
      have hi : (e.track i).isActive = true := (Bool.and_eq_true_iff.mp hrun).1
      have htuned : Tuned e (e.payDelta i) := tuned_modifyTrack e i rfl
      have hrun' : ((e.payDelta i).track i).isRunning = true := by rw [htuned.isRunning, hrun]
      have hpaid := h.later hwide htuned.moves hi
      have hstepped := h.later hwide (htuned.moves.trans (moves_stepTrack hrun')) hi
      -- pay, execute, and go on with what is still due
      have hpay := follows_modifyTrack h.agree.toPlaced hi
        (f := fun t => { t with acc := t.acc - t.delta })
        (g := fun t => { t with acc := t.acc - t.delta }) (Track.running?_map rfl rfl)
      have hstep := hpay.next hpaid.place (f := Score.step)
        (follows_stepTrack hpaid.wellFormed hpaid.wide hrun')
      exact hstep.next hstepped.place (f := Score.runDue budget)
        (follows_runDue i budget hstepped.wellFormed hstepped.wide hstepped.part)
    · exact .refl e i

/-- The turn of a track is that of its part. -/
theorem follows_runTrack {e : Engine σ} (h : e.WellFormed)
    (hwide : e.module.widestSequence ≤ maxTracksPerSequence) {i : Nat}
    (hrun : (e.track i).isRunning = true) :
    Follows e (e.runTrack i) i ((e.score (e.track i).slot).run (e.track i).position) := by
  have hplaced := h.agree.toPlaced
  have hi : (e.track i).isActive = true := (Bool.and_eq_true_iff.mp hrun).1
  have htuned : Tuned e (e.modifyTrack i Track.advance) := tuned_modifyTrack e i rfl
  have hlater := h.later hwide htuned.moves hi
  have hrun' : ((e.modifyTrack i Track.advance).track i).isRunning = true := by
    rw [htuned.isRunning, hrun]
  have hi' : ((e.modifyTrack i Track.advance).track i).isActive = true :=
    (Bool.and_eq_true_iff.mp hrun').1
  have hadvance := follows_modifyTrack hplaced hi (f := Track.advance) (g := Track.advance)
    (Track.running?_map rfl rfl)
  have hup : (((e.score (e.track i).slot).modify (e.track i).position Track.advance).parts
      (e.track i).position).any Track.timeIsUp =
        ((e.modifyTrack i Track.advance).track i).timeIsUp := by
    have hplace := hlater.place
    have hpart := hlater.part
    simp only [Track.place, Prod.mk.injEq] at hplace
    rw [hplace.1, hplace.2.2, Track.running?_of_isRunning hrun'] at hpart
    have hparts := congrFun (congrArg Score.parts hadvance.home) (e.track i).position
    rw [hparts.symm.trans hpart]
    rfl
  unfold runTrack Score.run
  dsimp only
  rw [hup]
  split
  · exact hadvance.next hlater.place (f := Score.silence)
      (follows_turnOff hlater.wellFormed.agree.toPlaced hi')
  · exact hadvance.next hlater.place (f := Score.runDue maxCommandsPerTick)
      (follows_runDue i _ hlater.wellFormed hlater.wide hlater.part)

/-! ## The turns of a tick -/

omit [SoundChip σ] in
/-- The positions of the tracks of slot `s` that run, in the order of the pool. -/
def turnOrder (e : Engine σ) (s : Nat) : List Nat :=
  (e.trackIds.filter fun i => (e.track i).isRunning && (e.track i).slot == s).map fun i =>
    (e.track i).position

/-- In a tick, the parts of a score take their turns in the order of the pool. -/
theorem score_runTracks {e : Engine σ} (h : e.WellFormed)
    (hwide : e.module.widestSequence ≤ maxTracksPerSequence) (s : Nat) :
    e.runTracks.score s = (e.turnOrder s).foldl Score.run (e.score s) := by
  have hturns : ∀ (l : List Nat) (e' : Engine σ), Moves e e' →
      (l.foldl (fun e i => if (e.track i).isRunning then e.runTrack i else e) e').score s =
        ((l.filter fun i => (e.track i).isRunning && (e.track i).slot == s).map fun i =>
          (e.track i).position).foldl Score.run (e'.score s) := by
    intro l
    induction l with
    | nil => exact fun _ _ => rfl
    | cons i l ih =>
      intro e' hmoves
      have hsteps := steps_moves hmoves i
      rw [List.foldl_cons]
      cases hrun' : (e'.track i).isRunning with
      | true =>
        have hrun := hsteps.isRunning hrun'
        have hlater := h.later hwide hmoves (Bool.and_eq_true_iff.mp hrun).1
        have hfollows := follows_runTrack hlater.wellFormed hlater.wide hrun'
        rw [if_pos rfl, ih _ (hmoves.trans (moves_runTrack hrun'))]
        obtain ⟨-, -, hplace, -⟩ := hlater
        simp only [Track.place, Prod.mk.injEq] at hplace
        rw [hplace.1, hplace.2.2] at hfollows
        obtain ⟨hhome, hother⟩ := hfollows
        rw [hplace.1] at hhome hother
        by_cases hslot : (e.track i).slot = s
        · have hturn : ((e.track i).isRunning && (e.track i).slot == s) = true := by
            simp [hrun, hslot]
          rw [List.filter_cons_of_pos (by exact hturn), List.map_cons, List.foldl_cons, ← hslot,
            hhome]
        · have hturn : ¬ ((e.track i).isRunning && (e.track i).slot == s) = true := by
            simp [hslot]
          rw [List.filter_cons_of_neg (by exact hturn), hother s hslot]
      | false =>
        rw [if_neg (by decide), ih e' hmoves]
        by_cases hturn : ((e.track i).isRunning && (e.track i).slot == s) = true
        · -- the track was stopped before its turn came
          obtain ⟨hrun, hslot⟩ := Bool.and_eq_true_iff.mp hturn
          obtain ⟨-, -, hplace, hpart⟩ :=
            h.later hwide hmoves (Bool.and_eq_true_iff.mp hrun).1
          simp only [Track.place, Prod.mk.injEq] at hplace
          rw [hplace.1, hplace.2.2, Track.running?_of_not_isRunning hrun',
            beq_iff_eq.mp hslot] at hpart
          rw [List.filter_cons_of_pos (by exact hturn), List.map_cons, List.foldl_cons,
            Score.run_of_none hpart]
        · rw [List.filter_cons_of_neg (by exact hturn)]
  exact hturns e.trackIds e .refl

omit [SoundChip σ] in
/-- A voice that is freed shows in no score. -/
theorem score_freeWhere (q : Engine σ → Nat → Bool) (s : Nat) :
    ∀ (l : List Nat) {e : Engine σ}, (∀ i, (e.track i).OffRests) →
      (l.foldl (fun e v => if q e v then e.freeVoice v else e) e).score s = e.score s ∧
        ∀ i, ((l.foldl (fun e v => if q e v then e.freeVoice v else e) e).track i).OffRests
  | [], _, hrests => ⟨rfl, hrests⟩
  | v :: l, e, hrests => by
    rw [List.foldl_cons]
    split
    · have hfreed := (steps_freeVoice e v).keeps (fun _ _ hstep => hstep.offRests) hrests
      have hrest := score_freeWhere q s l hfreed
      rwa [score_freeVoice hrests] at hrest
    · exact score_freeWhere q s l hrests

theorem score_serviceVoices {e : Engine σ} (hrests : ∀ i, (e.track i).OffRests) (s : Nat) :
    e.serviceVoices.score s = e.score s := by
  have hexpired := score_freeWhere (fun e' v => (e'.voice v).expired e.clock.ms) s
    (List.range e.voices.limit) hrests
  have hsilent := @score_freeWhere _
    (fun e' v => (SoundChip.pollKeys e.freeExpired.flushReleases.chip).1 v = .off &&
      (e'.voice v).active) s (List.range e.freeExpired.flushReleases.voices.limit)
    { e.freeExpired.flushReleases with
      chip := (SoundChip.pollKeys e.freeExpired.flushReleases.chip).2 } hexpired.2
  exact hsilent.1.trans hexpired.1

omit [SoundChip σ] in
theorem score_of_pools {e e' : Engine σ} (h : e'.pools = e.pools) (s : Nat) :
    e'.score s = e.score s := by
  simp only [pools, Prod.mk.injEq] at h
  obtain ⟨hmodule, htracks, hslots, -⟩ := h
  exact score_of_voices hmodule hslots (fun i => by unfold Engine.track; rw [htracks]) s

omit [SoundChip σ] in
theorem turnOrder_of_pools {e e' : Engine σ} (h : e'.pools = e.pools) (s : Nat) :
    e'.turnOrder s = e.turnOrder s := by
  simp only [pools, Prod.mk.injEq] at h
  obtain ⟨-, htracks, -⟩ := h
  unfold turnOrder trackIds Engine.track
  rw [htracks]

/-- Fades and the clock come before the tracks of a tick, and leave all pools alone. -/
theorem beforeUpkeep_eq (e : Engine σ) : ∃ e' : Engine σ, Moves e e' ∧ e'.pools = e.pools ∧
    e.beforeUpkeep = if e'.tracksActive = 0 then e' else e'.runTracks := by
  have hmaster : ∀ e : Engine σ, e.fadeMaster.pools = e.pools := fun e => by
    unfold fadeMaster
    split <;> rfl
  have hcd : ∀ e : Engine σ, e.fadeCd.pools = e.pools := fun e => by
    unfold fadeCd
    split <;> rfl
  have hcount : ∀ e : Engine σ, { e with ticks := e.ticks + 1 }.pools = e.pools :=
    fun e => by simp only [pools]
  have htime : ∀ e : Engine σ, { e with clock := e.clock.advance }.pools = e.pools :=
    fun e => by simp only [pools]
  have htuned := (tuned_of_pools (hcount e) (.refl _)).trans ((tuned_fadeMaster _).trans
    ((tuned_fadeCd _).trans (tuned_of_pools (htime _) (.refl _))))
  exact ⟨_, htuned.moves,
    (htime _).trans ((hcd _).trans ((hmaster _).trans (hcount e))), rfl⟩

/-- A tick of an engine is a tick of every score. -/
theorem score_tick {e : Engine σ} (h : e.WellFormed)
    (hwide : e.module.widestSequence ≤ maxTracksPerSequence) (s : Nat) :
    e.tick.score s = (e.turnOrder s).foldl Score.run (e.score s) := by
  obtain ⟨e', hmoves, hpools, hbefore⟩ := beforeUpkeep_eq e
  have h' := h.moves hmoves
  have hmodule : e'.module = e.module := (sheds_moves hmoves).module
  rw [tick_eq, score_serviceVoices (h.moves (moves_beforeUpkeep e)).rests, hbefore,
    ← score_of_pools hpools, ← turnOrder_of_pools hpools]
  split
  · next hidle =>
    -- without a track in the pool, nothing has a turn
    have hcount := h'.agree.tracks
    rw [hidle, eq_comm, List.countP_eq_zero] at hcount
    have hnone : e'.turnOrder s = [] := by
      unfold turnOrder
      rw [List.map_eq_nil_iff, List.filter_eq_nil_iff]
      intro i hi hturn
      rw [Bool.and_eq_true] at hturn
      exact hcount i hi (Bool.and_eq_true_iff.mp hturn.1).1
    rw [hnone]
    rfl
  · exact score_runTracks h' (by rwa [hmodule]) s

end Turns

/-! ## Two engines -/

/-- The tracks of slot `s` stand in the pool in the order of the sequence. -/
def InPoolOrder (e : Engine σ) (s : Nat) : Prop :=
  ∀ i j, (e.track i).isActive = true → (e.track j).isActive = true → (e.track i).slot = s →
    (e.track j).slot = s → i < j → (e.track i).position < (e.track j).position

instance (e : Engine σ) (s : Nat) : Decidable (e.InPoolOrder s) :=
  decidable_of_iff (∀ i < e.tracks.size, ∀ j < e.tracks.size,
      ((e.track i).isActive = true ∧ (e.track j).isActive = true ∧ (e.track i).slot = s ∧
        (e.track j).slot = s ∧ i < j) → (e.track i).position < (e.track j).position)
    ⟨fun h i j hi hj hs hs' hij =>
      h i (lt_size_of_isActive hi) j (lt_size_of_isActive hj) ⟨hi, hj, hs, hs', hij⟩,
      fun h i _ j _ ⟨hi, hj, hs, hs', hij⟩ => h i j hi hj hs hs' hij⟩

theorem mem_turnOrder {e : Engine σ} (h : e.Placed) {s p : Nat} :
    p ∈ e.turnOrder s ↔ (e.part s p).isSome = true := by
  constructor
  · intro hp
    obtain ⟨i, hi, rfl⟩ := List.mem_map.mp hp
    have hturn := (List.mem_filter.mp hi).2
    rw [Bool.and_eq_true, beq_iff_eq] at hturn
    obtain ⟨hrun, rfl⟩ := hturn
    have hpart := h.part_self (Bool.and_eq_true_iff.mp hrun).1
    rw [Track.running?_of_isRunning hrun] at hpart
    rw [show e.part _ _ = _ from hpart]
    rfl
  · intro hp
    obtain ⟨t, ht⟩ := Option.isSome_iff_exists.mp hp
    obtain ⟨i, hentry, hi⟩ := Option.bind_eq_some_iff.mp ht
    obtain ⟨-, hactive, hslot, hposition⟩ := h.entry s p i hentry
    have hrun : (e.track i).isRunning = true := by
      by_contra hrun
      rw [Track.running?_of_not_isRunning (Bool.not_eq_true _ ▸ hrun)] at hi
      cases hi
    refine List.mem_map.mpr ⟨i, List.mem_filter.mpr ⟨?_, ?_⟩, hposition⟩
    · exact List.mem_range.mpr (lt_size_of_isActive hactive)
    · simp [hrun, hslot]

theorem pairwise_turnOrder {e : Engine σ} {s : Nat} (h : e.InPoolOrder s) :
    (e.turnOrder s).Pairwise (· < ·) := by
  unfold turnOrder trackIds
  rw [List.pairwise_map]
  refine (List.pairwise_lt_range.filter _).imp_of_mem fun {i j} hi hj hij => ?_
  have hi := (List.mem_filter.mp hi).2
  have hj := (List.mem_filter.mp hj).2
  rw [Bool.and_eq_true, beq_iff_eq] at hi hj
  exact h i j (Bool.and_eq_true_iff.mp hi.1).1 (Bool.and_eq_true_iff.mp hj.1).1 hi.2 hj.2 hij

/-- Where the pool keeps the order of a sequence, the score says which of its parts take
their turns when. -/
theorem turnOrder_eq {σ τ : Type} {e : Engine σ} {e' : Engine τ} (h : e.Placed) (h' : e'.Placed)
    {s : Nat} (horder : e.InPoolOrder s) (horder' : e'.InPoolOrder s)
    (hpart : ∀ p, e'.part s p = e.part s p) : e'.turnOrder s = e.turnOrder s := by
  refine List.Pairwise.eq_of_mem_iff (pairwise_turnOrder horder') (pairwise_turnOrder horder)
    fun p => ?_
  rw [mem_turnOrder h', mem_turnOrder h, hpart]

end Engine

/-- Slot `s` plays the same in two engines: the same sequence of the same module, with the
same tracks running, the same control of each of them, the same gates and counters. -/
structure Unison {σ τ : Type} (s : Nat) (e : Engine σ) (e' : Engine τ) : Prop where
  module : e'.module = e.module
  sequence : (e'.slot s).sequence = (e.slot s).sequence
  part : ∀ p, e'.part s p = e.part s p
  gates : (e'.slot s).gates = (e.slot s).gates
  iters : (e'.slot s).iters = (e.slot s).iters

section Ticks

variable {σ τ : Type} {e : Engine σ} {e' : Engine τ} {s : Nat}

open Engine

/-- Behind its last position, a slot has no part. -/
theorem Engine.part_of_size_le {p : Nat} (h : (e.slot s).tracks.size ≤ p) : e.part s p = none := by
  unfold Engine.part
  cases hentry : (e.slot s).entry p with
  | none => rfl
  | some i => exact absurd (Slot.lt_size_of_entry hentry) (Nat.not_lt.mpr h)

instance : Decidable (Unison s e e') :=
  decidable_of_iff (e'.module = e.module ∧ (e'.slot s).sequence = (e.slot s).sequence ∧
      (∀ p < max (e.slot s).tracks.size (e'.slot s).tracks.size, e'.part s p = e.part s p) ∧
      (e'.slot s).gates = (e.slot s).gates ∧ (e'.slot s).iters = (e.slot s).iters)
    ⟨fun ⟨hmodule, hsequence, hpart, hgates, hiters⟩ =>
      ⟨hmodule, hsequence, fun p => by
        by_cases hp : p < max (e.slot s).tracks.size (e'.slot s).tracks.size
        · exact hpart p hp
        · rw [part_of_size_le (by omega), part_of_size_le (by omega)], hgates, hiters⟩,
    fun h => ⟨h.module, h.sequence, fun p _ => h.part p, h.gates, h.iters⟩⟩

theorem Unison.score_eq (h : Unison s e e') : e'.score s = e.score s := by
  refine Score.ext ?_ (funext h.part) ?_
  · show e'.module.track? _ = e.module.track? _
    rw [h.module, h.sequence]
  · show (e'.slot s).boxes = (e.slot s).boxes
    unfold Slot.boxes
    rw [h.gates, h.iters]

theorem Unison.of_score (hmodule : e'.module = e.module)
    (hsequence : (e'.slot s).sequence = (e.slot s).sequence)
    (hscore : e'.score s = e.score s) : Unison s e e' where
  module := hmodule
  sequence := hsequence
  part := congrFun (congrArg Score.parts hscore)
  gates := congrArg (fun m => m.boxes.gates) hscore
  iters := congrArg (fun m => m.boxes.iters) hscore

variable [SoundChip σ] [SoundChip τ]

theorem Engine.sheds_tick (e : Engine σ) : Sheds e e.tick := by
  rw [tick_eq]
  refine serviceVoices_keeps (fun e' v he => he.trans (sheds_freeVoice e' v))
    (fun e' chip toRelease toMute he => he.trans ?_) (sheds_moves (moves_beforeUpkeep e))
  exact .of_slots rfl fun _ => rfl

/-- What a sequence does in a tick depends neither on sound nor on other sequences. Where
an accepted module plays in two engines with all books right, and a slot plays the same in
both with its tracks in the order of the pool, it does so after a tick, whatever the chips,
voices, volumes, clocks, other slots and pool entries are. -/
theorem unison_tick (haccepted : e.module.flaw? = none) (h : e.WellFormed) (h' : e'.WellFormed)
    (horder : e.InPoolOrder s) (horder' : e'.InPoolOrder s) (hunison : Unison s e e') :
    Unison s e.tick e'.tick := by
  have hwide := (SoundModule.flaw?_eq_none_iff.mp haccepted).widestSequence_le
  have hwide' : e'.module.widestSequence ≤ maxTracksPerSequence := by rwa [hunison.module]
  have hscore : e'.tick.score s = e.tick.score s := by
    rw [score_tick h' hwide', score_tick h hwide, hunison.score_eq,
      turnOrder_eq h.agree.toPlaced h'.agree.toPlaced horder horder' hunison.part]
  have hsheds := sheds_tick e
  have hsheds' := sheds_tick e'
  refine .of_score ?_ ?_ hscore
  · rw [hsheds'.module, hsheds.module, hunison.module]
  · rw [hsheds'.sequence, hsheds.sequence, hunison.sequence]

end Ticks

/-- A track of the given events. -/
def melody (events : List (UInt32 × Command)) : TrackStream :=
  (events.foldl (fun a (delta, c) => a.emit delta c) ({} : Assembler)).build

/-- A module of several sequences, for an engine with two slots, four tracks and one voice. -/
def program (sequences : List (List (List (UInt32 × Command)))) : SoundModule :=
  { solo [] with
    limits := { sequences := 2, tracks := 4, voices := 1 }
    sequences := (sequences.map fun tracks => (tracks.map melody).toArray).toArray }

open Engine in
/-- The first sequence of a module plays in slot 1 beside the second in one engine, with
which it fights for the voice, and beside the third in another, on a chip of another
kind and in other entries of the pool. -/
theorem unison_tick_beside : ∃ e e' : Engine RecorderChip,
    e.WellFormed ∧ e'.WellFormed ∧ Unison 1 e e' ∧
    (e.voice 0 ≠ e'.voice 0 ∧ (e.slot 0).sequence ≠ (e'.slot 0).sequence ∧
      (e.slot 1).entry 0 ≠ (e'.slot 1).entry 0) ∧
    (e.part 1 0).isSome = true ∧ e.tick.part 1 0 ≠ e.part 1 0 ∧ Unison 1 e.tick e'.tick := by
  let module := program
    [[[(0, .noteOn 60 100), (2, .seqTempo 90), (1000, .trackEnd)],
      [(1, .noteOn 72 100), (1, .volumeMod 90), (1000, .trackEnd)]],
    [[(1, .noteOn 48 100), (1, .noteOn 50 100), (1000, .trackEnd)]],
    [[(0, .nullEvent), (1000, .trackEnd)], [(1000, .trackEnd)]]]
  let first (e : Engine RecorderChip) : Engine RecorderChip :=
    (Session.run { engine := e } [.start 1 {}, .start 0 {}, .tick]).engine
  let second (e : Engine RecorderChip) : Engine RecorderChip :=
    (Session.run { engine := e } [.start 2 {}, .start 0 {}, .tick]).engine
  -- what can be computed of both engines
  let fit (e e' : Engine RecorderChip) : Prop :=
    (first e).module.flaw? = none ∧ (first e).InPoolOrder 1 ∧ (second e').InPoolOrder 1 ∧
      Unison 1 (first e) (second e') ∧
      ((first e).voice 0 ≠ (second e').voice 0 ∧
        ((first e).slot 0).sequence ≠ ((second e').slot 0).sequence ∧
        ((first e).slot 1).entry 0 ≠ ((second e').slot 1).entry 0) ∧
      ((first e).part 1 0).isSome = true ∧ (first e).tick.part 1 0 ≠ (first e).part 1 0
  obtain ⟨e, hmake, hrest⟩ : ∃ e, Engine.make module { instantRelease := false } = .ok e ∧
      (match Engine.make module ({} : RecorderChip) with
        | .ok e' => decide (fit e e')
        | .error _ => false) = true := Engine.exists_make (by decide +kernel)
  split at hrest
  case h_2 => cases hrest
  case h_1 e' hmake' =>
    obtain ⟨haccepted, horder, horder', hunison, hdiffer, hruns⟩ := of_decide_eq_true hrest
    have hform := (@wellFormed_throughout _ _ _ _ _ hmake [.start 1 {}, .start 0 {}, .tick]
      ⟨trivial, trivial, trivial, trivial⟩).last
    have hform' := (@wellFormed_throughout _ _ _ _ _ hmake' [.start 2 {}, .start 0 {}, .tick]
      ⟨trivial, trivial, trivial, trivial⟩).last
    exact ⟨first e, second e', hform, hform', hunison, hdiffer, hruns.1, hruns.2,
      unison_tick haccepted hform hform' horder horder' hunison⟩

end SoundSequencer
