/-
SoundSequencer.Proofs.Punctual — commands when they are due.

* `Engine.ownSteps` are the states in which a tick executes the commands of a track,
  `Session.turns` the turns that the track had in a run.
* `Engine.Spends` says what a tick does with the time of a track: none of it is lost,
  and a command comes in the first turn that the waits before it allow.
  `Engine.OnTime` is the state of a track between ticks that makes it so;
  `onTime_startSequence`, `OnTime.tick` and `OnTime.perform` carry it along.
* `Engine.KeepsTime` says besides that a track which goes on running has had its turn.
  `keepsTime_iff` says that this fails only where the engine counts no tracks and one runs.
-/
import SoundSequencer.Proofs.PoolRuns
import SoundSequencer.Proofs.Turns

namespace SoundSequencer

/-- No time has passed for a track, and its time goes on at its tempo. -/
structure Track.Fresh (t : Track) : Prop where
  elapsed : t.elapsed = (0, 0)
  frac : t.frac = 0
  inTempo : t.InTempo

theorem Track.fresh_start (t : Track) (header : TrackHeader) (attrs : PlayAttrs) :
    (t.start header attrs).Fresh := by
  unfold start
  dsimp only
  split <;> exact ⟨rfl, rfl, rfl⟩

variable {σ : Type} [SoundChip σ]

namespace Engine

/-! ## The commands of a track -/

/-- The states in which a tick executes the commands of track `i`. -/
def ownSteps (e : Engine σ) (i : Nat) : List (Engine σ) :=
  (e.executions.filter fun p => p.2 == i).map Prod.fst

theorem ownSteps_of_none {e : Engine σ} {i : Nat} (h : e.turn? i = none) : e.ownSteps i = [] := by
  rw [ownSteps, filter_executions, h]
  rfl

theorem ownSteps_of_some {e : Engine σ} {i : Nat} {turn : Turn} (h : e.turn? i = some turn) :
    e.ownSteps i = (e.beforeTurn i).turnSteps i := by
  rw [ownSteps, filter_executions, h, Option.isSome_some, if_pos rfl, List.map_map]
  exact List.map_id _

/-- A track that runs when a tick is over had its turn, if the engine counts tracks. -/
theorem isSome_turn? {e : Engine σ} {i : Nat} (hrun : (e.tick.track i).isRunning = true)
    (hbusy : e.tracksActive ≠ 0) : (e.turn? i).isSome = true := by
  have hran := (steps_tick e i).isRunning hrun
  have hi := lt_size_of_isActive (Bool.and_eq_true_iff.mp hran).1
  obtain ⟨rest, -, hturned, -⟩ := beforeUpkeep_split hbusy hi
  rw [tick_eq, hturned] at hrun
  have hturn := (steps_moves (moves_runPool _ _) i).isRunning
    ((fades_serviceVoices _ i).steps.isRunning hrun)
  simp [turn?, hbusy, hturn]

/-! ## What a tick does with the time of a track -/

/-- The time of a track in a tick, after the turns that it had. When it executes a command,
the parts that have passed are those that it has still to spend and the waits so far, the
one for that command included. -/
structure Spends (past : List Turn) (e : Engine σ) (i : Nat) : Prop where
  before : (e.track i).total.toNat = (e.track i).acc.toNat + spent past
  within : ∀ k d, (e.ownSteps i)[k]? = some d →
    (d.track i).total.toNat =
      (d.track i).acc.toNat + (spent past + ((waitsOf i (e.ownSteps i)).take (k + 1)).sum)
  after : (e.tick.track i).total.toNat =
    (e.tick.track i).acc.toNat + spent (past ++ (e.turn? i).toList)
  /-- A command comes in the first turn that its wait and those before it allow. -/
  due : ∀ k < (e.ownSteps i).length,
    spent past + ((waitsOf i (e.ownSteps i)).take (k + 1)).sum ≤ (e.tick.track i).total.toNat ∧
      ∀ turn ∈ past, turn.total < spent past + ((waitsOf i (e.ownSteps i)).take (k + 1)).sum
  /-- After its turn, a track that runs waits for its next command. -/
  rests : (e.turn? i).isSome = true → (e.tick.track i).isRunning = true →
    (e.tick.track i).acc < (e.tick.track i).delta
  few : (e.ownSteps i).length ≤ maxCommandsPerTick
  more : ∀ d ∈ (e.ownSteps i)[maxCommandsPerTick - 1]?, (d.stepTrack i).isDue i = true →
    (e.tick.track i).Ended
  timed : (e.turn? i).isSome = true → ((e.beforeTurn i).track i).advance.timeIsUp = true →
    e.ownSteps i = [] ∧ (e.tick.track i).Ended
  told : ∀ turn ∈ e.turn? i, turn.total = (e.tick.track i).total.toNat ∧
    turn.waits = waitsOf i (e.ownSteps i)
  /-- Without a turn, time stands still. -/
  still : e.turn? i = none →
    (e.tick.track i).timing = (e.track i).timing ∧ e.ownSteps i = []
  grows : (e.track i).total.toNat ≤ (e.tick.track i).total.toNat

/-- In a tick a track keeps time: nothing is lost, every command comes when it is due, and
a track that goes on running has had its turn and waits for its next command. -/
structure KeepsTime (past : List Turn) (e : Engine σ) (i : Nat) : Prop extends
    Spends past e i where
  runs : (e.tick.track i).isRunning = true →
    (e.turn? i).isSome = true ∧ (e.tick.track i).acc < (e.tick.track i).delta

/-- The next tick does not disturb track `i`: no other track of its slot makes a return for
it, and its time does not run over. -/
def Undisturbed (e : Engine σ) (i : Nat) : Prop :=
  (∀ p ∈ e.executions, ¬ p.1.ReturnsFor i p.2) ∧
    ((e.turn? i).isSome = true → ((e.beforeTurn i).track i).TimeFits)

instance (e : Engine σ) (i : Nat) : Decidable (e.Undisturbed i) :=
  inferInstanceAs (Decidable (_ ∧ _))

/-- Where track `i` stands after some turns. -/
structure OnTime (past : List Turn) (e : Engine σ) (i : Nat) : Prop where
  seated : e.Seated
  balance : (e.track i).total.toNat = (e.track i).acc.toNat + spent past
  rests : past ≠ [] → (e.track i).acc < (e.track i).delta
  behind : ∀ turn ∈ past, turn.total ≤ (e.track i).total.toNat

theorem spent_append (past : List Turn) (turn : Turn) :
    spent (past ++ [turn]) = spent past + turn.waits.sum := by
  simp [spent]

/-- The sum of the first waits is at least the first of them. -/
theorem head_le_sum {waits : List Nat} {k : Nat} (hk : k < waits.length) :
    ∃ w ∈ waits.head?, w ≤ (waits.take (k + 1)).sum := by
  cases waits with
  | nil => exact absurd hk (Nat.not_lt_zero k)
  | cons w waits =>
    refine ⟨w, rfl, ?_⟩
    rw [List.take_succ_cons, List.sum_cons]
    exact Nat.le_add_right w _

namespace OnTime

variable {past : List Turn} {e : Engine σ} {i : Nat}

omit [SoundChip σ] in
/-- The wait that a track stands in was not over in any turn before. -/
theorem behind_wait (h : OnTime past e i) :
    ∀ turn ∈ past, turn.total < spent past + (e.track i).delta.toNat := by
  intro turn hturn
  have hwait := UInt32.lt_iff_toNat_lt.mp (h.rests (List.ne_nil_of_mem hturn))
  have hbehind := h.behind turn hturn
  have hbalance := h.balance
  omega

/-- The turn of a track: the time that passes with it, and what is left of that. -/
theorem turn (h : OnTime past e i) (hcalm : e.Undisturbed i) {turn : Turn}
    (hturn : e.turn? i = some turn) :
    (e.tick.track i).total = ((e.beforeTurn i).track i).advance.total ∧
      (e.track i).total.toNat ≤ (e.tick.track i).total.toNat ∧
      ((e.beforeTurn i).track i).advance.total.toNat =
        ((e.beforeTurn i).track i).advance.acc.toNat + spent past ∧
      (e.tick.track i).acc.toNat + turn.waits.sum =
        ((e.beforeTurn i).track i).advance.acc.toNat ∧
      ((e.beforeTurn i).track i).delta = (e.track i).delta := by
  obtain ⟨-, hrun, -, hwaits⟩ := turn?_eq_some hturn
  have hi := lt_size_of_isActive (Bool.and_eq_true_iff.mp hrun).1
  obtain ⟨hbefore, hafter⟩ := fades_tick_of_some h.seated hcalm.1 hturn
  obtain ⟨htotal, hacc, hdelta⟩ := Track.timing_inj.mp hbefore.timing
  obtain ⟨hsame, hleft, -⟩ := Track.timing_inj.mp hafter.timing
  have hbalance : ((e.beforeTurn i).track i).total.toNat =
      ((e.beforeTurn i).track i).acc.toNat + spent past := by
    rw [htotal, hacc]
    exact h.balance
  have hfits : ((e.beforeTurn i).track i).TimeFits := hcalm.2 (by rw [hturn]; rfl)
  obtain ⟨hadvanced, hgrows⟩ := hfits.advance hbalance
  obtain ⟨hturned, hspent⟩ := spent_runTrack hi
  have hticked : (e.tick.track i).total = ((e.beforeTurn i).track i).advance.total :=
    hsame.trans hturned
  refine ⟨hticked, ?_, hadvanced, ?_, hdelta⟩
  · rw [hticked, ← htotal]
    exact hgrows
  · rw [hleft, hwaits]
    exact hspent

/-- The commands of the turn: each balances the time that has passed when the tick is over. -/
theorem command (h : OnTime past e i) (hcalm : e.Undisturbed i) {turn : Turn}
    (hturn : e.turn? i = some turn) {k : Nat} {d : Engine σ} (hd : (e.ownSteps i)[k]? = some d) :
    (d.track i).total = (e.tick.track i).total ∧
      (d.track i).total.toNat = (d.track i).acc.toNat +
        (spent past + ((waitsOf i (e.ownSteps i)).take (k + 1)).sum) := by
  obtain ⟨-, hrun, -, -⟩ := turn?_eq_some hturn
  have hi := lt_size_of_isActive (Bool.and_eq_true_iff.mp hrun).1
  obtain ⟨hticked, -, hadvanced, -, -⟩ := h.turn hcalm hturn
  rw [ownSteps_of_some hturn] at hd ⊢
  obtain ⟨hsame, hpaid⟩ := spent_turnSteps hi hd
  refine ⟨hsame.trans hticked.symm, ?_⟩
  rw [hsame]
  omega

/-- A tick without a turn takes nothing and spends nothing. -/
theorem spends_of_none (h : OnTime past e i) (hcalm : e.Undisturbed i) (hturn : e.turn? i = none) :
    Spends past e i := by
  have hfades := fades_tick_of_none h.seated hcalm.1 hturn
  have hnone := ownSteps_of_none hturn
  obtain ⟨htotal, hacc, -⟩ := Track.timing_inj.mp hfades.timing
  constructor
  case before => exact h.balance
  case after =>
    rw [hturn, htotal, hacc, Option.toList_none, List.append_nil]
    exact h.balance
  case still => exact fun _ => ⟨hfades.timing, hnone⟩
  case grows => exact Nat.le_of_eq (congrArg UInt32.toNat htotal.symm)
  all_goals simp [hturn, hnone]

/-- A tick with a turn spends what the commands of the turn had to wait for. -/
theorem spends_of_some (h : OnTime past e i) (hcalm : e.Undisturbed i) {turn : Turn}
    (hturn : e.turn? i = some turn) : Spends past e i := by
  obtain ⟨-, hrun, htotal, hwaits⟩ := turn?_eq_some hturn
  obtain ⟨hticked, hgrows, hadvanced, hspent, hdelta⟩ := h.turn hcalm hturn
  have hactive := (Bool.and_eq_true_iff.mp hrun).1
  have hi := lt_size_of_isActive hactive
  have hown := ownSteps_of_some hturn
  have hafter := (fades_tick_of_some h.seated hcalm.1 hturn).2
  have hended : (((e.beforeTurn i).runTrack i).track i).Ended → (e.tick.track i).Ended :=
    hafter.steps.keeps fun _ _ hstep => hstep.ended
  constructor
  case before => exact h.balance
  case within => exact fun k d hd => (h.command hcalm hturn hd).2
  case after =>
    rw [hturn, Option.toList_some, spent_append, hticked]
    omega
  case due =>
    intro k hk
    obtain ⟨hsame, hbalance⟩ := h.command hcalm hturn (List.getElem?_eq_getElem hk)
    rw [hsame] at hbalance
    refine ⟨by omega, fun earlier hearlier => ?_⟩
    have hlong : k < (waitsOf i (e.ownSteps i)).length := by simpa [waitsOf] using hk
    obtain ⟨w, hw, hle⟩ := head_le_sum hlong
    rw [hown] at hw
    have hfirst := head_turnSteps hi w hw
    rw [hdelta] at hfirst
    have hbehind := h.behind_wait earlier hearlier
    omega
  case rests =>
    intro _ hgoes
    obtain ⟨-, hacc, hwait⟩ := Track.timing_inj.mp hafter.timing
    rw [hacc, hwait]
    exact rests_runTrack hi (hafter.steps.isRunning hgoes) hactive
  case few =>
    rw [hown]
    exact length_turnSteps_le _ i
  case more =>
    intro d hd hdue
    rw [hown] at hd
    exact hended (runTrack_of_more hd hdue)
  case timed =>
    intro _ hup
    obtain ⟨hnone, hends⟩ := runTrack_of_timeIsUp hi hup hactive
    exact ⟨hown.trans hnone, hended hends⟩
  case told =>
    intro other hother
    obtain rfl : turn = other := Option.some.inj (hturn.symm.trans hother)
    rw [hticked, hown]
    exact ⟨htotal, hwaits⟩
  case still =>
    intro hnone
    rw [hturn] at hnone
    cases hnone
  case grows => exact hgrows

/-- A tick loses nothing of the time of a track. -/
theorem spends (h : OnTime past e i) (hcalm : e.Undisturbed i) : Spends past e i := by
  cases hturn : e.turn? i with
  | none => exact h.spends_of_none hcalm hturn
  | some turn => exact h.spends_of_some hcalm hturn

omit [SoundChip σ] in
/-- What leaves the timing of a track alone leaves it on time. -/
theorem of_timing (h : OnTime past e i) {e' : Engine σ} (hseated : e'.Seated)
    (htiming : (e'.track i).timing = (e.track i).timing) : OnTime past e' i := by
  obtain ⟨htotal, hacc, hdelta⟩ := Track.timing_inj.mp htiming
  refine ⟨hseated, ?_, ?_, ?_⟩
  · rw [htotal, hacc]
    exact h.balance
  · rw [hacc, hdelta]
    exact h.rests
  · rw [htotal]
    exact h.behind

/-- A tick that does not end a track leaves it on time. -/
theorem tick (h : OnTime past e i) (hcalm : e.Undisturbed i)
    (hgoes : (e.track i).isRunning = true → (e.tick.track i).isRunning = true) :
    OnTime (past ++ (e.turn? i).toList) e.tick i := by
  have hspends := h.spends hcalm
  have hseated := enduring_seated.tick h.seated
  cases hturn : e.turn? i with
  | none =>
    rw [Option.toList_none, List.append_nil]
    exact h.of_timing hseated (hspends.still hturn).1
  | some turn =>
    obtain ⟨-, hrun, -, -⟩ := turn?_eq_some hturn
    have hran := (fades_tick_of_some h.seated hcalm.1 hturn).1.steps.isRunning hrun
    have hsome : (e.turn? i).isSome = true := by rw [hturn]; rfl
    refine ⟨hseated, ?_, fun _ => hspends.rests hsome (hgoes hran), ?_⟩
    · rw [← hturn]
      exact hspends.after
    · intro other hother
      rcases List.mem_append.mp hother with hpast | hnow
      · exact Nat.le_trans (h.behind other hpast) hspends.grows
      · rw [← hturn] at hnow
        exact Nat.le_of_eq (hspends.told other (Option.mem_toList.mp hnow)).1

/-- A track keeps time in a tick unless it runs on where the engine counts no tracks. -/
theorem keepsTime_iff_busy (h : OnTime past e i) (hcalm : e.Undisturbed i) :
    KeepsTime past e i ↔ ((e.tick.track i).isRunning = true → e.tracksActive ≠ 0) := by
  constructor
  · intro hkeeps hrun
    obtain ⟨turn, hturn⟩ := Option.isSome_iff_exists.mp (hkeeps.runs hrun).1
    exact (turn?_eq_some hturn).1
  · intro hbusy
    have hspends := h.spends hcalm
    refine ⟨hspends, fun hrun => ?_⟩
    have hturn := isSome_turn? hrun (hbusy hrun)
    exact ⟨hturn, hspends.rests hturn hrun⟩

end OnTime

/-! ## Starts -/

omit [SoundChip σ] in
/-- A sequence that starts leaves the tracks of the pool alone. -/
theorem track_startSequence {e : Engine σ} {i : Nat} (hi : (e.track i).isActive = true)
    (sequence : Nat) (options : StartOptions) :
    (e.startSequence sequence options).2.track i = e.track i := by
  refine @startSequence_keeps σ (fun e' => e'.track i = e.track i) (fun _ _ _ h => h)
    (fun _ _ h => h) options ?_ sequence e rfl
  intro e' slot sequence j position hidle h
  have hij : j ≠ i := by
    rintro rfl
    rw [h, hi] at hidle
    cases hidle
  rw [track_startTrack_of_ne e' slot sequence options position hij, h]

omit [SoundChip σ] in
/-- A track that starts is fresh. -/
theorem fresh_startTrack {e : Engine σ} {sequence position i : Nat}
    (hstream : (e.module.track? sequence position).isSome = true) (hi : i < e.tracks.size)
    (slot : Nat) (options : StartOptions) :
    ((e.startTrack slot sequence options i position).track i).Fresh := by
  obtain ⟨stream, hstream⟩ := Option.isSome_iff_exists.mp hstream
  have hstart := (e.track i).fresh_start stream.header options.attrs
  unfold startTrack
  rw [hstream]
  dsimp only
  refine (congrArg Track.Fresh (track_modifyTrack e i i _)).mpr ?_
  rw [if_pos ⟨rfl, hi⟩]
  exact ⟨hstart.elapsed, hstart.frac, hstart.inTempo⟩

omit [SoundChip σ] in
/-- A track that takes its seat leaves the slot one of fresh tracks. -/
theorem Seats.fresh_startTrack {slot sequence : Nat} {p : Nat × Nat} {rest : List (Nat × Nat)}
    {e : Engine σ} (h : Seats slot sequence (p :: rest) e)
    (hfresh : ∀ i ∈ (e.slot slot).trackIds, (e.track i).Fresh) (options : StartOptions) :
    ∀ i ∈ ((e.startTrack slot sequence options p.1 p.2).slot slot).trackIds,
      ((e.startTrack slot sequence options p.1 p.2).track i).Fresh := by
  intro i hi
  obtain ⟨hstream, hwide⟩ := h.stream p List.mem_cons_self
  by_cases hp : p.1 = i
  · subst hp
    exact Engine.fresh_startTrack hstream (h.idle p List.mem_cons_self).1 slot options
  · rw [track_startTrack_of_ne e slot sequence options p.2 hp]
    apply hfresh i
    obtain ⟨place, hplace⟩ := Slot.mem_trackIds.mp hi
    have hwithin : p.2 < (e.slot slot).tracks.size := by rwa [h.seated.wide slot h.slot]
    rw [slot_startTrack hstream, if_pos ⟨rfl, h.slot⟩, Slot.entry_withTrack hwithin] at hplace
    split at hplace
    · exact absurd (Option.some.inj hplace) hp
    · exact Slot.mem_trackIds.mpr ⟨place, hplace⟩

omit [SoundChip σ] in
/-- The tracks of a sequence that starts are fresh. -/
theorem Seated.fresh_startSequence {e : Engine σ} (h : e.Seated) {sequence slot : Nat}
    {options : StartOptions} (hstart : (e.startSequence sequence options).1 = .ok slot) :
    ∀ i ∈ ((e.startSequence sequence options).2.slot slot).trackIds,
      ((e.startSequence sequence options).2.track i).Fresh := by
  rcases startSequence_eq e sequence options with
    ⟨⟨flaw, hflaw⟩, -⟩ | ⟨streams, home, hstreams, hlt, -, ⟨⟨flaw, hflaw⟩, -⟩ |
      ⟨-, hanswer, heq⟩⟩
  · exact nomatch hflaw.symm.trans hstart
  · exact nomatch hflaw.symm.trans hstart
  · obtain rfl : home = slot := Except.ok.inj (hanswer.symm.trans hstart)
    have hempty : ∀ i, i ∉ (((e.modifySlot home Slot.cleared).openSlot home sequence
        options).slot home).trackIds := by
      intro i hi
      obtain ⟨p, hp⟩ := Slot.mem_trackIds.mp hi
      rw [(resets_openSlot hlt sequence options).empty] at hp
      cases hp
    have hfilled := foldl_keeps (f := fun e p => e.startTrack home sequence options p.1 p.2)
      (fun rest e => Seats home sequence rest e ∧
        ∀ i ∈ (e.slot home).trackIds, (e.track i).Fresh)
      (fun p rest e h => ⟨h.1.startTrack options, h.1.fresh_startTrack h.2 options⟩)
      _ _ ⟨h.openSlot hstreams hlt options, fun i hi => absurd hi (hempty i)⟩
    rw [heq]
    exact hfilled.2

omit [SoundChip σ] in
/-- A track is on time when its sequence starts. -/
theorem onTime_startSequence {e : Engine σ} (h : e.Seated) {sequence slot i : Nat}
    {options : StartOptions} (hstart : (e.startSequence sequence options).1 = .ok slot)
    (hi : i ∈ ((e.startSequence sequence options).2.slot slot).trackIds) :
    OnTime [] (e.startSequence sequence options).2 i := by
  have hfresh := (h.fresh_startSequence hstart i hi).elapsed
  simp only [Track.elapsed, Prod.mk.injEq] at hfresh
  constructor
  case seated => exact h.startSequence sequence options
  case balance =>
    rw [hfresh.1, hfresh.2]
    rfl
  case rests => simp
  case behind => simp

end Engine

/-! ## Runs -/

namespace Session

/-- The turns that track `i` has in the ticks of a run. -/
def turns (i : Nat) : Session σ → List (Call σ) → List Turn
  | _, [] => []
  | s, call :: calls =>
    (if call.isTick then (s.engine.turn? i).toList else []) ++ turns i (s.perform call) calls

/-- A call on the way of track `i`: the track is in the pool, and a tick does not disturb
it and lets it run on if it runs. -/
def Paces (i : Nat) (s : Session σ) (call : Call σ) : Prop :=
  (s.engine.track i).isActive = true ∧
    (call.isTick = true → s.engine.Undisturbed i ∧
      ((s.engine.track i).isRunning = true → (s.engine.tick.track i).isRunning = true))

instance (i : Nat) (s : Session σ) (call : Call σ) : Decidable (s.Paces i call) :=
  inferInstanceAs (Decidable (_ ∧ _))

end Session

open Engine

/-- Time passes for the tracks of the pool in ticks only. -/
theorem timing_perform {s : Session σ} {i : Nat} (hi : (s.engine.track i).isActive = true)
    {call : Call σ} (h : call.isTick = false) :
    ((s.perform call).engine.track i).timing = (s.engine.track i).timing := by
  by_cases hdrives : call.Drives
  · cases call with
    | tick => cases h
    | start sequence options =>
      exact congrArg Track.timing (track_startSequence hi sequence options)
    | _ => exact hdrives.elim
  · exact (unmoved_perform s hdrives).timing i

theorem Engine.OnTime.perform {past : List Turn} {s : Session σ} {i : Nat}
    (h : OnTime past s.engine i) {call : Call σ} (hpaces : s.Paces i call) :
    OnTime (past ++ if call.isTick then (s.engine.turn? i).toList else [])
      (s.perform call).engine i := by
  obtain ⟨hactive, hpaced⟩ := hpaces
  cases htick : call.isTick with
  | true =>
    obtain rfl := Call.eq_tick htick
    obtain ⟨hcalm, hgoes⟩ := hpaced rfl
    rw [Session.engine_tick]
    exact h.tick hcalm hgoes
  | false =>
    rw [if_neg Bool.false_ne_true, List.append_nil]
    exact h.of_timing (seated_perform s call h.seated) (timing_perform hactive htick)

/-- A track stays on time in a run that it goes through. -/
theorem Engine.OnTime.run {i : Nat} (calls : List (Call σ)) {past : List Turn} {s : Session σ}
    (h : OnTime past s.engine i) (hcalls : s.Allows (Session.Paces i) calls) :
    OnTime (past ++ s.turns i calls) (s.run calls).engine i := by
  induction calls generalizing past s with
  | nil =>
    rw [Session.turns, List.append_nil]
    exact h
  | cons call calls ih =>
    obtain ⟨hpaces, hrest⟩ := hcalls
    rw [Session.turns, ← List.append_assoc]
    exact ih (h.perform hpaces) hrest

/-- From the start of its sequence until it ends, while no other track of the sequence makes
a return for all and its time does not run over, a track keeps time in exactly those ticks
that do not leave it running where the engine counts no tracks. In careful runs it keeps time
in every tick. -/
theorem keepsTime_iff {module : SoundModule} {chip : σ} {e : Engine σ}
    (hmake : Engine.make module chip = .ok e) {before calls : List (Call σ)}
    {sequence slot i : Nat} {options : StartOptions}
    (hstart : ((Session.run { engine := e } before).engine.startSequence sequence options).1 =
      .ok slot)
    {s : Session σ} (hs : s = Session.run { engine := e } (before ++ [.start sequence options]))
    (hi : i ∈ (s.engine.slot slot).trackIds) (hcalls : s.Allows (Session.Paces i) calls)
    (hcalm : (s.run calls).engine.Undisturbed i) :
    (KeepsTime (s.turns i calls) (s.run calls).engine i ↔
      (((s.run calls).engine.tick.track i).isRunning = true →
        (s.run calls).engine.tracksActive ≠ 0)) ∧
    (Session.Allows Session.Careful { engine := e } (before ++ .start sequence options :: calls) →
      KeepsTime (s.turns i calls) (s.run calls).engine i) := by
  have hrun : s = (Session.run { engine := e } before).perform (.start sequence options) := by
    simp [hs, Session.run]
  have hstarted : OnTime [] s.engine i := by
    rw [hrun] at hi ⊢
    exact onTime_startSequence (module_run hmake before).1 hstart hi
  have hiff := (hstarted.run calls hcalls).keepsTime_iff_busy hcalm
  rw [List.nil_append] at hiff
  refine ⟨hiff, fun hcareful => hiff.mpr fun hgoes => ?_⟩
  have horder := (hcareful.throughout (fun s => s.engine.InOrder)
    (fun s call h hcareful => inOrder_perform s call h hcareful) (inOrder_make hmake)).last
  have hsame : Session.run { engine := e } (before ++ .start sequence options :: calls) =
      s.run calls := by
    simp [hs, Session.run]
  rw [hsame] at horder
  -- the track was in the pool before the tick, so the engine counts it
  have hran := (steps_tick _ i).isActive (Bool.and_eq_true_iff.mp hgoes).1
  rw [horder.agree.tracks]
  refine Nat.ne_of_gt (List.countP_pos_iff.mpr ⟨i, ?_, hran⟩)
  exact List.mem_range.mpr (lt_size_of_isActive hran)

/-- Two tracks: one plays a note over and over, at a pace of its own from the second time
on, the other slows both down. -/
def canon : Array (Array Script) :=
  #[#[{ lines := [.reserve, .place 0, .event 2 (.noteOn 60 100), .event 1 (.noteOff 60),
          .event 0 (.trackTempo 240), .event 3 (.trackJump 0)] },
      { lines := [.reserve, .place 0, .event 5 (.seqTempo 60), .event 1000 .trackEnd] }]]

/-- The canon begins. -/
def begun (e : Engine RecorderChip) : Session RecorderChip :=
  Session.run { engine := e } [.start 0 {}]

/-- Three ticks, a pause, and two ticks more. -/
def interrupted : List (Call RecorderChip) :=
  [.tick, .tick, .tick, .pause 0 false, .tick, .restart 0, .tick, .tick]

theorem keepsTime_canon : ∃ e,
    Engine.make (scripted canon) ({} : RecorderChip) = .ok e ∧
      (begun e).turns 0 interrupted =
        [⟨1, []⟩, ⟨3, [2, 1, 0]⟩, ⟨7, [3, 0, 1, 0]⟩, ⟨8, []⟩, ⟨9, []⟩] ∧
      ((begun e).run interrupted).engine.turn? 0 = some ⟨10, [3, 0]⟩ ∧
      KeepsTime ((begun e).turns 0 interrupted) ((begun e).run interrupted).engine 0 := by
  obtain ⟨e, hmake, hturns, hturn, hstart, hi, hcalls, hcalm, hcareful⟩ : ∃ e,
      Engine.make (scripted canon) ({} : RecorderChip) = .ok e ∧
        (begun e).turns 0 interrupted =
          [⟨1, []⟩, ⟨3, [2, 1, 0]⟩, ⟨7, [3, 0, 1, 0]⟩, ⟨8, []⟩, ⟨9, []⟩] ∧
        ((begun e).run interrupted).engine.turn? 0 = some ⟨10, [3, 0]⟩ ∧
        ((Session.run { engine := e } []).engine.startSequence 0 {}).1 = .ok 0 ∧
        0 ∈ ((begun e).engine.slot 0).trackIds ∧
        (begun e).Allows (Session.Paces 0) interrupted ∧
        ((begun e).run interrupted).engine.Undisturbed 0 ∧
        Session.Allows Session.Careful { engine := e } (.start 0 {} :: interrupted) :=
    Engine.exists_make (by decide +kernel)
  exact ⟨e, hmake, hturns, hturn, (keepsTime_iff hmake hstart rfl hi hcalls hcalm).2 hcareful⟩

/-- Two sequences for an engine with one voice. -/
def rivals : SoundModule :=
  program [[[(0, .noteOn 60 100), (2, .noteOn 62 100), (1000, .trackEnd)]],
    [[(0, .noteOn 48 100), (1000, .trackEnd)]]]

/-- The first sequence plays and is stopped. -/
def overture : List (Call RecorderChip) := [.start 0 {}, .tick, .stop 0]

/-- The second sequence is readied. -/
def readied (e : Engine RecorderChip) : Session RecorderChip :=
  Session.run { engine := e } (overture ++ [.start 1 { handled := true }])

/-- The first sequence is let go on, and after a tick the second is. -/
def comeback : List (Call RecorderChip) := [.restart 0, .tick, .restart 1]

/-- A track that is stopped and let go on takes its last voice from itself. It leaves the
pool then, and leaves it again when the voice falls silent: a track of another sequence is
not counted from then on, and when it is let go on, its first note does not come. -/
theorem not_keepsTime_restart : ∃ e,
    Engine.make rivals ({} : RecorderChip) = .ok e ∧
      ((Session.run { engine := e } overture).engine.startSequence 1 { handled := true }).1 =
        .ok 1 ∧
      1 ∈ ((readied e).engine.slot 1).trackIds ∧
      (readied e).Allows (Session.Paces 1) comeback ∧
      ((readied e).run comeback).engine.Undisturbed 1 ∧
      ¬ KeepsTime ((readied e).turns 1 comeback) ((readied e).run comeback).engine 1 := by
  obtain ⟨e, hmake, hstart, hi, hcalls, hcalm, hruns, hlate⟩ : ∃ e,
      Engine.make rivals ({} : RecorderChip) = .ok e ∧
        ((Session.run { engine := e } overture).engine.startSequence 1 { handled := true }).1 =
          .ok 1 ∧
        1 ∈ ((readied e).engine.slot 1).trackIds ∧
        (readied e).Allows (Session.Paces 1) comeback ∧
        ((readied e).run comeback).engine.Undisturbed 1 ∧
        (((readied e).run comeback).engine.tick.track 1).isRunning = true ∧
        ¬ (((readied e).run comeback).engine.tick.track 1).acc <
          (((readied e).run comeback).engine.tick.track 1).delta :=
    Engine.exists_make (by decide +kernel)
  exact ⟨e, hmake, hstart, hi, hcalls, hcalm, fun hkeeps => hlate (hkeeps.runs hruns).2⟩

end SoundSequencer
