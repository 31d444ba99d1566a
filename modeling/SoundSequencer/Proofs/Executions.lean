/-
SoundSequencer.Proofs.Executions — the commands that a tick executes.

* `Engine.turnSteps` are the states in which a track executes a command in its
  turn, `Engine.executions` those of a whole tick, each with its track.
* `length_turnSteps_le` bounds how many a turn can have, `countP_executions_le` how many
  a track can have in a tick.
* `runPool_keeps` is the rule for the turns of some tracks, `beforeUpkeep_keeps` the one
  for a tick: what every fit command keeps holds before each command and when the tracks
  have had their turns. `moves_of_mem_executions` says how a tick comes to each command.
-/
import SoundSequencer.Proofs.Performance

namespace SoundSequencer

namespace Engine

variable {σ : Type}

/-! ## One command -/

/-- The command at the place of track `i`. -/
def command? (e : Engine σ) (i : Nat) : Option Command :=
  (e.stream? i).bind fun s => Command.decodeAt s.bytes (e.track i).pc

variable [SoundChip σ]

/-- What the command at the place of track `i` does, before the track moves on to the
next. -/
def obey (e : Engine σ) (i : Nat) : Engine σ :=
  match e.command? i with
  | none => e
  | some c =>
    if c.op.isDriver then e.driverCommand i c
    else if c.op.isEngine then (e.command i c).1
    else e

/-! ## The commands of a tick -/

/-- The states in which track `i` executes what is due, at most `budget` commands. -/
def dueSteps (i : Nat) : (budget : Nat) → Engine σ → List (Engine σ)
  | 0, _ => []
  | budget + 1, e =>
    if e.isDue i then e.payDelta i :: dueSteps i budget ((e.payDelta i).stepTrack i) else []

/-- The states in which track `i` executes a command in its turn. -/
def turnSteps (e : Engine σ) (i : Nat) : List (Engine σ) :=
  let e := e.modifyTrack i Track.advance
  if (e.track i).timeIsUp then [] else dueSteps i maxCommandsPerTick e

/-- The states in which the tracks of a list execute commands, one track after the
other. -/
def poolSteps : List Nat → Engine σ → List (Engine σ × Nat)
  | [], _ => []
  | i :: rest, e =>
    if (e.track i).isRunning then
      (e.turnSteps i).map (·, i) ++ poolSteps rest (e.runTrack i)
    else poolSteps rest e

/-- The states in which a tick executes commands, each with the track that does so. -/
def executions (e : Engine σ) : List (Engine σ × Nat) :=
  if e.beforeTracks.tracksActive = 0 then []
  else poolSteps e.beforeTracks.trackIds e.beforeTracks

theorem length_dueSteps_le (i : Nat) : ∀ (budget : Nat) (e : Engine σ),
    (dueSteps i budget e).length ≤ budget
  | 0, _ => Nat.le_refl 0
  | budget + 1, e => by
    unfold dueSteps
    split
    · rw [List.length_cons]
      exact Nat.succ_le_succ (length_dueSteps_le i budget _)
    · exact Nat.zero_le _

theorem length_turnSteps_le (e : Engine σ) (i : Nat) :
    (e.turnSteps i).length ≤ maxCommandsPerTick := by
  unfold turnSteps
  dsimp only
  split
  · exact Nat.zero_le _
  · exact length_dueSteps_le i _ _

theorem countP_poolSteps_le (i : Nat) : ∀ (l : List Nat) (e : Engine σ), l.Nodup →
    (poolSteps l e).countP (fun p => p.2 == i) ≤ if i ∈ l then maxCommandsPerTick else 0
  | [], _, _ => Nat.zero_le _
  | j :: l, e, h => by
    obtain ⟨hnot, hrest⟩ := List.nodup_cons.mp h
    unfold poolSteps
    split
    · rw [List.countP_append, List.countP_map]
      have hafter := countP_poolSteps_le i l (e.runTrack j) hrest
      by_cases hj : j = i
      · subst hj
        have hturn : (e.turnSteps j).countP ((fun p => p.2 == j) ∘ fun d => (d, j)) ≤
            maxCommandsPerTick := Nat.le_trans List.countP_le_length (length_turnSteps_le e j)
        rw [if_neg hnot] at hafter
        rw [if_pos List.mem_cons_self]
        omega
      · have hturn : (e.turnSteps j).countP ((fun p => p.2 == i) ∘ fun d => (d, j)) = 0 := by
          rw [List.countP_eq_zero]
          intro d _
          simpa using hj
        simp only [List.mem_cons, Ne.symm hj, false_or]
        omega
    · refine Nat.le_trans (countP_poolSteps_le i l e hrest) ?_
      by_cases hi : i ∈ l
      · exact Nat.le_of_eq (by rw [if_pos hi, if_pos (List.mem_cons_of_mem j hi)])
      · rw [if_neg hi]
        exact Nat.zero_le _

/-- In one tick a track executes no more commands than it may. -/
theorem countP_executions_le (e : Engine σ) (i : Nat) :
    e.executions.countP (fun p => p.2 == i) ≤ maxCommandsPerTick := by
  unfold executions
  split
  · exact Nat.zero_le _
  · refine Nat.le_trans (countP_poolSteps_le i _ _ List.nodup_range) ?_
    split
    · exact Nat.le_refl _
    · exact Nat.zero_le _

/-! ## What commands keep -/

section Keeps

variable {good : Engine σ → Prop} {fit : Engine σ → Nat → Prop}

section Turn

variable {i : Nat} (hpay : ∀ e, (e.track i).isRunning = true → good e → good (e.payDelta i))
  (hoff : ∀ e, (e.track i).isRunning = true → good e → good (e.turnOff i))
  (hstep : ∀ e, (e.track i).isRunning = true → fit e i → good e → good (e.stepTrack i))

include hpay hoff hstep

theorem runDue_keeps : ∀ (budget : Nat) {e : Engine σ}, good e →
    (∀ d ∈ dueSteps i budget e, fit d i) →
      good (runDue budget e i) ∧ ∀ d ∈ dueSteps i budget e, good d ∧ (d.track i).isRunning = true
  | 0, e, he, _ => by
    refine ⟨?_, fun d hd => (List.not_mem_nil hd).elim⟩
    unfold runDue
    split
    · next hdue => exact hoff e (isRunning_of_isDue hdue) he
    · exact he
  | budget + 1, e, he, hfit => by
    unfold runDue dueSteps at *
    by_cases hdue : e.isDue i = true
    · rw [if_pos hdue] at hfit ⊢
      rw [if_pos hdue]
      have hpaid := hpay e (isRunning_of_isDue hdue) he
      have hrun : ((e.payDelta i).track i).isRunning = true := by
        have htuned : Tuned e (e.payDelta i) := tuned_modifyTrack e i rfl
        rw [htuned.isRunning, isRunning_of_isDue hdue]
      have hstepped := hstep _ hrun (hfit _ List.mem_cons_self) hpaid
      obtain ⟨hrest, hall⟩ := runDue_keeps budget hstepped
        fun d hd => hfit d (List.mem_cons_of_mem _ hd)
      refine ⟨hrest, fun d hd => ?_⟩
      rcases List.mem_cons.mp hd with rfl | hd
      · exact ⟨hpaid, hrun⟩
      · exact hall d hd
    · rw [if_neg hdue] at hfit ⊢
      rw [if_neg hdue]
      exact ⟨he, fun d hd => (List.not_mem_nil hd).elim⟩

theorem runTrack_keeps (hadvance : ∀ e, (e.track i).isRunning = true → good e →
      good (e.modifyTrack i Track.advance))
    {e : Engine σ} (hrun : (e.track i).isRunning = true) (he : good e)
    (hfit : ∀ d ∈ e.turnSteps i, fit d i) :
    good (e.runTrack i) ∧ ∀ d ∈ e.turnSteps i, good d ∧ (d.track i).isRunning = true := by
  have hadvanced := hadvance e hrun he
  have htuned : Tuned e (e.modifyTrack i Track.advance) := tuned_modifyTrack e i rfl
  unfold runTrack turnSteps at *
  dsimp only at hfit ⊢
  split
  · exact ⟨hoff _ (by rwa [htuned.isRunning]) hadvanced, fun d hd => (List.not_mem_nil hd).elim⟩
  · next hup =>
    rw [if_neg hup] at hfit
    exact runDue_keeps hpay hoff hstep _ hadvanced hfit

end Turn

/-- The tracks of a list take their turns: what outlasts every fit command of theirs holds
before each command and in the end. -/
theorem runPool_keeps {among : Nat → Prop}
    (hadvance : ∀ e i, among i → (e.track i).isRunning = true → good e →
      good (e.modifyTrack i Track.advance))
    (hpay : ∀ e i, among i → (e.track i).isRunning = true → good e → good (e.payDelta i))
    (hoff : ∀ e i, among i → (e.track i).isRunning = true → good e → good (e.turnOff i))
    (hstep : ∀ e i, among i → (e.track i).isRunning = true → fit e i → good e →
      good (e.stepTrack i)) (l : List Nat) (hl : ∀ i ∈ l, among i) :
    ∀ {e : Engine σ}, good e → (∀ p ∈ poolSteps l e, fit p.1 p.2) →
      good (e.runPool l) ∧ ∀ p ∈ poolSteps l e, good p.1 ∧ (p.1.track p.2).isRunning = true := by
  induction l with
  | nil => exact fun he _ => ⟨he, fun p hp => (List.not_mem_nil hp).elim⟩
  | cons i l ih =>
    have hi := hl i List.mem_cons_self
    have hrest : ∀ j ∈ l, among j := fun j hj => hl j (List.mem_cons_of_mem i hj)
    intro e he hfit
    unfold poolSteps at hfit ⊢
    unfold runPool
    rw [List.foldl_cons]
    by_cases hrun : (e.track i).isRunning = true
    · rw [if_pos hrun] at hfit ⊢
      rw [if_pos hrun]
      obtain ⟨hturn, hsteps⟩ := runTrack_keeps (fun e => hpay e i hi) (fun e => hoff e i hi)
        (fun e => hstep e i hi) (fun e => hadvance e i hi) hrun he fun d hd =>
          hfit (d, i) (List.mem_append_left _ (List.mem_map_of_mem hd))
      obtain ⟨hgood, hall⟩ := ih hrest hturn fun p hp => hfit p (List.mem_append_right _ hp)
      refine ⟨hgood, fun p hp => ?_⟩
      rcases List.mem_append.mp hp with hp | hp
      · obtain ⟨d, hd, rfl⟩ := List.mem_map.mp hp
        exact hsteps d hd
      · exact hall p hp
    · rw [if_neg hrun] at hfit ⊢
      rw [if_neg hrun]
      exact ih hrest he hfit

/-- What holds when the tracks get their turns and outlasts every fit command holds
before each command and in the end. -/
theorem beforeUpkeep_keeps
    (hadvance : ∀ e i, (e.track i).isRunning = true → good e →
      good (e.modifyTrack i Track.advance))
    (hpay : ∀ e i, (e.track i).isRunning = true → good e → good (e.payDelta i))
    (hoff : ∀ e i, (e.track i).isRunning = true → good e → good (e.turnOff i))
    (hstep : ∀ e i, (e.track i).isRunning = true → fit e i → good e → good (e.stepTrack i))
    {e : Engine σ} (he : good e.beforeTracks) (hfit : ∀ p ∈ e.executions, fit p.1 p.2) :
    good e.beforeUpkeep ∧
      ∀ p ∈ e.executions, good p.1 ∧ (p.1.track p.2).isRunning = true := by
  unfold executions at *
  rw [beforeUpkeep_eq_beforeTracks]
  split
  · exact ⟨he, fun p hp => (List.not_mem_nil hp).elim⟩
  · next hbusy =>
    rw [if_neg hbusy] at hfit
    exact @runPool_keeps σ _ good fit (fun _ => True) (fun e i _ => hadvance e i)
      (fun e i _ => hpay e i) (fun e i _ => hoff e i) (fun e i _ => hstep e i) _
      (fun _ _ => trivial) _ he hfit

end Keeps

/-- Where a tick executes a command, the track runs, and moves alone have led there. -/
theorem moves_of_mem_executions {e : Engine σ} {p : Engine σ × Nat} (hp : p ∈ e.executions) :
    Moves e p.1 ∧ (p.1.track p.2).isRunning = true :=
  (@beforeUpkeep_keeps _ _ (Moves e) (fun _ _ => True)
    (fun d i _ h => h.trans (tuned_modifyTrack d i rfl).moves)
    (fun d i _ h => h.trans (tuned_modifyTrack d i rfl).moves)
    (fun _ _ hrun h => h.trans (Deed.turnOff hrun).moves)
    (fun _ _ hrun _ h => h.trans (moves_stepTrack hrun))
    _ (tuned_beforeTracks e).moves fun _ _ => trivial).2 p hp

end Engine

end SoundSequencer
