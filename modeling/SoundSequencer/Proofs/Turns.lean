/-
SoundSequencer.Proofs.Turns — what a track does when its turn comes.

* `Engine.turn?` is the turn of a track in a tick, if it has one: how much time has
  passed for it, and how long it waited for each command that it executes.
  `filter_executions` says that these are the commands of the track in that tick.
* `spent_runDue` and `spent_dueSteps` balance the time of a track against the
  waits it pays. `rests_runDue` says that nothing is left that is due.
* `beforeUpkeep_keeps_of_none` and `beforeUpkeep_keeps_of_some` say what a tick does to a
  track by what the turns of other tracks do, `Engine.Fades` that this is little.
-/
import Mathlib.Algebra.GroupWithZero.Nat
import SoundSequencer.Proofs.Waits

namespace SoundSequencer

/-- The turn of a track: the parts that have passed since it started, and the wait
for each command that it executes. -/
structure Turn where
  total : Nat
  waits : List Nat
  deriving Repr, DecidableEq

/-- The parts that a track has spent in its turns on waiting for commands. -/
def spent (turns : List Turn) : Nat := (turns.flatMap Turn.waits).sum

namespace Track

/-- The track was turned off: it has left the pool, or it stands still and waits for its
last voices or for its handle to be released. -/
def Ended (t : Track) : Prop :=
  t.isActive = false ∨ t.isStopped = true ∧ (t.flags.off = true ∨ t.isHandled = true)

instance (t : Track) : Decidable t.Ended := inferInstanceAs (Decidable (_ ∨ _))

theorem Ended.not_isRunning {t : Track} (h : t.Ended) : t.isRunning = false := by
  rcases h with hactive | ⟨hstopped, -⟩
  · simp [isRunning, hactive]
  · simp [isRunning, hstopped]

theorem Step.ended {t t' : Track} (h : Step t t') (ht : t.Ended) : t'.Ended := by
  have hleft : t.isActive = false → t'.isActive = false := by
    intro hactive
    refine Bool.eq_false_iff.mpr fun hactive' => ?_
    exact Bool.false_ne_true (hactive.symm.trans (h.isActive hactive'))
  rcases ht with hactive | ⟨hstopped, hwaits⟩
  · exact .inl (hleft hactive)
  · right
    rw [h.isHandled]
    cases h with
    | tuned h =>
      have hoff : t'.flags.off = t.flags.off := (congrArg (·.flags.off) h :)
      have hstands : t'.isStopped = t.isStopped := (congrArg Track.isStopped h :)
      rw [hoff, hstands]
      exact ⟨hstopped, hwaits⟩
    | paused => exact ⟨rfl, hwaits⟩
    | retired => exact ⟨rfl, hwaits⟩
    | awaiting => exact ⟨rfl, .inl rfl⟩
    | voiceFreed =>
      unfold Track.voiceFreed
      split
      · exact ⟨rfl, hwaits⟩
      · exact ⟨hstopped, hwaits⟩
    | withVoice => exact ⟨hstopped, hwaits⟩

/-- The time of a track does not run over in the next tick. -/
def TimeFits (t : Track) : Prop := t.total.toNat + ((t.frac + t.ppi) >>> 16).toNat < 2 ^ 32

instance (t : Track) : Decidable t.TimeFits := inferInstanceAs (Decidable (_ < _))

/-- Time that passes is there to be spent. -/
theorem TimeFits.advance {t : Track} (h : t.TimeFits) {paid : Nat}
    (hpaid : t.total.toNat = t.acc.toNat + paid) :
    t.advance.total.toNat = t.advance.acc.toNat + paid ∧ t.total.toNat ≤ t.advance.total.toNat := by
  unfold TimeFits at h
  have htotal : t.advance.total.toNat = t.total.toNat + ((t.frac + t.ppi) >>> 16).toNat := by
    show (t.total + ((t.frac + t.ppi) >>> 16)).toNat = _
    rw [UInt32.toNat_add, Nat.mod_eq_of_lt h]
  have hacc : t.advance.acc.toNat = t.acc.toNat + ((t.frac + t.ppi) >>> 16).toNat := by
    show (t.acc + ((t.frac + t.ppi) >>> 16)).toNat = _
    rw [UInt32.toNat_add, Nat.mod_eq_of_lt (by omega)]
  omega

end Track

namespace Engine

variable {σ : Type}

theorem ended_turnOff {e : Engine σ} {i : Nat} (hi : (e.track i).isActive = true) :
    ((e.turnOff i).track i).Ended := by
  have hsize := lt_size_of_isActive hi
  have hretired : ((e.retireTrack i).track i).Ended := by
    rw [track_retireTrack, if_pos ⟨rfl, hsize⟩]
    cases hheld : (e.track i).isHandled with
    | true => exact .inr ⟨rfl, .inr hheld⟩
    | false =>
      left
      show (_ && (e.track i).isHandled) = false
      rw [hheld, Bool.and_false]
  rw [turnOff_eq]
  split
  · exact hretired
  · split
    · exact hretired
    · right
      rw [track_awaitVoices, track_releaseVoices, tracks_size_releaseVoices, if_pos ⟨rfl, hsize⟩]
      exact ⟨rfl, .inl rfl⟩

/-! ## Time and waits -/

theorem isDue_iff {e : Engine σ} {i : Nat} :
    e.isDue i = true ↔ (e.track i).isRunning = true ∧ (e.track i).delta ≤ (e.track i).acc := by
  simp [isDue]

/-- A wait that is paid comes out of the time that is there to be spent. -/
theorem track_payDelta {e : Engine σ} {i : Nat} (h : e.isDue i = true) :
    ((e.payDelta i).track i).total = (e.track i).total ∧
      ((e.payDelta i).track i).delta = (e.track i).delta ∧
      ((e.payDelta i).track i).acc.toNat + (e.track i).delta.toNat = (e.track i).acc.toNat := by
  obtain ⟨hrun, hdelta⟩ := isDue_iff.mp h
  have hi := lt_size_of_isActive (Bool.and_eq_true_iff.mp hrun).1
  have hpaid : (e.payDelta i).track i =
      { e.track i with acc := (e.track i).acc - (e.track i).delta } := by
    rw [payDelta, track_modifyTrack, if_pos ⟨rfl, hi⟩]
  rw [hpaid]
  refine ⟨rfl, rfl, ?_⟩
  rw [UInt32.toNat_sub_of_le _ _ hdelta]
  exact Nat.sub_add_cancel (UInt32.le_iff_toNat_le.mp hdelta)

variable [SoundChip σ]

/-- The waits for the commands that track `i` executes in the given states. -/
def waitsOf (i : Nat) (steps : List (Engine σ)) : List Nat :=
  steps.map fun d => (d.track i).delta.toNat

/-- A command takes no time. -/
theorem elapsed_stepTrack (e : Engine σ) (i j : Nat) :
    ((e.stepTrack j).track i).total = (e.track i).total ∧
      ((e.stepTrack j).track i).acc = (e.track i).acc := by
  have helapsed := ((sameTime_stepTrack e j).still i).elapsed
  simpa [Track.elapsed] using helapsed

omit [SoundChip σ] in
theorem timing_turnOff (e : Engine σ) (i j : Nat) :
    ((e.turnOff j).track i).total = (e.track i).total ∧
      ((e.turnOff j).track i).acc = (e.track i).acc ∧
      ((e.turnOff j).track i).delta = (e.track i).delta :=
  Track.timing_inj.mp ((unmoved_turnOff e j).timing i)

/-- What a track has to spend before it executes what is due, it has then spent on waits or
has still to spend. -/
theorem spent_runDue (i : Nat) (budget : Nat) (e : Engine σ) :
    ((runDue budget e i).track i).total = (e.track i).total ∧
      ((runDue budget e i).track i).acc.toNat + (waitsOf i (dueSteps i budget e)).sum =
        (e.track i).acc.toNat := by
  induction budget generalizing e with
  | zero =>
    unfold runDue dueSteps
    split
    · obtain ⟨htotal, hacc, -⟩ := timing_turnOff e i i
      exact ⟨htotal, by rw [hacc]; rfl⟩
    · exact ⟨rfl, rfl⟩
  | succ budget ih =>
    unfold runDue dueSteps
    by_cases hdue : e.isDue i = true
    · rw [if_pos hdue, if_pos hdue]
      obtain ⟨htotal, hdelta, hacc⟩ := track_payDelta hdue
      obtain ⟨hstepped, hunspent⟩ := elapsed_stepTrack (e.payDelta i) i i
      obtain ⟨hrest, hspent⟩ := ih ((e.payDelta i).stepTrack i)
      refine ⟨hrest.trans (hstepped.trans htotal), ?_⟩
      rw [hunspent] at hspent
      rw [waitsOf, List.map_cons, List.sum_cons, hdelta]
      unfold waitsOf at hspent
      omega
    · rw [if_neg hdue, if_neg hdue]
      exact ⟨rfl, rfl⟩

/-- So it is with each command. -/
theorem spent_dueSteps (i : Nat) (budget : Nat) (e : Engine σ) {k : Nat} {d : Engine σ}
    (h : (dueSteps i budget e)[k]? = some d) :
    (d.track i).total = (e.track i).total ∧
      (d.track i).acc.toNat + ((waitsOf i (dueSteps i budget e)).take (k + 1)).sum =
        (e.track i).acc.toNat := by
  induction budget generalizing e k with
  | zero => cases h
  | succ budget ih =>
    unfold dueSteps at h ⊢
    by_cases hdue : e.isDue i = true
    · rw [if_pos hdue] at h ⊢
      obtain ⟨htotal, hdelta, hacc⟩ := track_payDelta hdue
      cases k with
      | zero =>
        obtain rfl : e.payDelta i = d := Option.some.inj h
        refine ⟨htotal, ?_⟩
        rw [waitsOf, List.map_cons, List.take_succ_cons, List.take_zero, List.sum_singleton, hdelta]
        exact hacc
      | succ k =>
        obtain ⟨hstepped, hunspent⟩ := elapsed_stepTrack (e.payDelta i) i i
        obtain ⟨hrest, hspent⟩ := ih ((e.payDelta i).stepTrack i) (k := k) h
        refine ⟨hrest.trans (hstepped.trans htotal), ?_⟩
        rw [hunspent] at hspent
        rw [waitsOf, List.map_cons, List.take_succ_cons, List.sum_cons, hdelta]
        unfold waitsOf at hspent
        omega
    · rw [if_neg hdue] at h
      cases h

/-- A track that still runs has waits to come. -/
theorem rests_runDue (i : Nat) (budget : Nat) (e : Engine σ)
    (hrun : ((runDue budget e i).track i).isRunning = true) :
    ((runDue budget e i).track i).acc < ((runDue budget e i).track i).delta := by
  have hidle : ∀ e : Engine σ, ¬ e.isDue i = true → (e.track i).isRunning = true →
      (e.track i).acc < (e.track i).delta := by
    intro e hdue hrun
    by_contra hlate
    exact hdue (isDue_iff.mpr ⟨hrun, UInt32.not_lt.mp hlate⟩)
  induction budget generalizing e with
  | zero =>
    unfold runDue at hrun ⊢
    by_cases hdue : e.isDue i = true
    · rw [if_pos hdue] at hrun
      have hactive := (Bool.and_eq_true_iff.mp (isDue_iff.mp hdue).1).1
      exact absurd hrun (Bool.eq_false_iff.mp (ended_turnOff hactive).not_isRunning)
    · rw [if_neg hdue] at hrun ⊢
      exact hidle e hdue hrun
  | succ budget ih =>
    unfold runDue at hrun ⊢
    by_cases hdue : e.isDue i = true
    · rw [if_pos hdue] at hrun ⊢
      exact ih _ hrun
    · rw [if_neg hdue] at hrun ⊢
      exact hidle e hdue hrun

/-- A track with more to do than it may is turned off. -/
theorem runDue_of_more (i : Nat) (budget : Nat) (e : Engine σ) {d : Engine σ}
    (hlast : (dueSteps i (budget + 1) e)[budget]? = some d)
    (hmore : (d.stepTrack i).isDue i = true) :
    runDue (budget + 1) e i = (d.stepTrack i).turnOff i := by
  induction budget generalizing e with
  | zero =>
    unfold dueSteps at hlast
    unfold runDue
    by_cases hdue : e.isDue i = true
    · rw [if_pos hdue] at hlast ⊢
      obtain rfl : e.payDelta i = d := Option.some.inj hlast
      unfold runDue
      rw [if_pos hmore]
    · rw [if_neg hdue] at hlast
      cases hlast
  | succ budget ih =>
    unfold dueSteps at hlast
    unfold runDue
    by_cases hdue : e.isDue i = true
    · rw [if_pos hdue] at hlast ⊢
      exact ih _ hlast
    · rw [if_neg hdue] at hlast
      cases hlast

/-- The first wait is the one that the track stands in. -/
theorem head_dueSteps (i : Nat) (budget : Nat) (e : Engine σ) :
    ∀ w ∈ (waitsOf i (dueSteps i budget e)).head?, w = (e.track i).delta.toNat := by
  intro w hw
  cases budget with
  | zero => cases hw
  | succ budget =>
    unfold dueSteps at hw
    by_cases hdue : e.isDue i = true
    · rw [if_pos hdue, waitsOf, List.map_cons, List.head?_cons] at hw
      rw [← Option.some.inj hw, (track_payDelta hdue).2.1]
    · rw [if_neg hdue] at hw
      cases hw

/-! ## The turn of a track -/

section Turn

variable {e : Engine σ} {i : Nat} (hi : i < e.tracks.size)

omit [SoundChip σ] in
include hi in
theorem track_advance : (e.modifyTrack i Track.advance).track i = (e.track i).advance := by
  rw [track_modifyTrack, if_pos ⟨rfl, hi⟩]

include hi

/-- A turn adds the time of a tick, and takes off the waits for the commands in it. -/
theorem spent_runTrack :
    ((e.runTrack i).track i).total = (e.track i).advance.total ∧
      ((e.runTrack i).track i).acc.toNat + (waitsOf i (e.turnSteps i)).sum =
        (e.track i).advance.acc.toNat := by
  unfold runTrack turnSteps
  dsimp only
  rw [← track_advance hi]
  split
  · obtain ⟨htotal, hacc, -⟩ := timing_turnOff (e.modifyTrack i Track.advance) i i
    exact ⟨htotal, by rw [hacc]; rfl⟩
  · exact spent_runDue i _ _

theorem spent_turnSteps {k : Nat} {d : Engine σ} (h : (e.turnSteps i)[k]? = some d) :
    (d.track i).total = (e.track i).advance.total ∧
      (d.track i).acc.toNat + ((waitsOf i (e.turnSteps i)).take (k + 1)).sum =
        (e.track i).advance.acc.toNat := by
  unfold turnSteps at h ⊢
  dsimp only at h ⊢
  rw [← track_advance hi]
  split at h
  · cases h
  · next hup =>
    rw [if_neg hup]
    exact spent_dueSteps i _ _ h

/-- The first command of a turn ends the wait that the track stands in. -/
theorem head_turnSteps :
    ∀ w ∈ (waitsOf i (e.turnSteps i)).head?, w = (e.track i).delta.toNat := by
  intro w hw
  unfold turnSteps at hw
  dsimp only at hw
  split at hw
  · cases hw
  · have hfirst := head_dueSteps i maxCommandsPerTick (e.modifyTrack i Track.advance) w hw
    rw [hfirst, track_advance hi]
    rfl

theorem rests_runTrack (hrun : ((e.runTrack i).track i).isRunning = true)
    (hactive : (e.track i).isActive = true) :
    ((e.runTrack i).track i).acc < ((e.runTrack i).track i).delta := by
  unfold runTrack at hrun ⊢
  dsimp only at hrun ⊢
  split at hrun
  · have hadvanced : ((e.modifyTrack i Track.advance).track i).isActive = true := by
      rw [track_advance hi]
      exact hactive
    exact absurd hrun (Bool.eq_false_iff.mp (ended_turnOff hadvanced).not_isRunning)
  · next hup =>
    rw [if_neg hup]
    exact rests_runDue i _ _ hrun

/-- A track whose time is up executes nothing more. -/
theorem runTrack_of_timeIsUp (hup : (e.track i).advance.timeIsUp = true)
    (hactive : (e.track i).isActive = true) :
    e.turnSteps i = [] ∧ ((e.runTrack i).track i).Ended := by
  rw [← track_advance hi] at hup
  have hadvanced : ((e.modifyTrack i Track.advance).track i).isActive = true := by
    rw [track_advance hi]
    exact hactive
  unfold turnSteps runTrack
  dsimp only
  rw [if_pos hup, if_pos hup]
  exact ⟨rfl, ended_turnOff hadvanced⟩

omit hi

/-- A track that has more to do than it may in one turn is turned off. -/
theorem runTrack_of_more {d : Engine σ}
    (hlast : (e.turnSteps i)[maxCommandsPerTick - 1]? = some d)
    (hmore : (d.stepTrack i).isDue i = true) : ((e.runTrack i).track i).Ended := by
  have hactive : ((d.stepTrack i).track i).isActive = true :=
    (Bool.and_eq_true_iff.mp (isDue_iff.mp hmore).1).1
  unfold turnSteps at hlast
  unfold runTrack
  dsimp only at hlast ⊢
  split at hlast
  · cases hlast
  · next hup =>
    rw [if_neg hup]
    have hbudget : maxCommandsPerTick = maxCommandsPerTick - 1 + 1 := rfl
    rw [hbudget] at hlast ⊢
    rw [runDue_of_more i _ _ hlast hmore]
    exact ended_turnOff hactive

end Turn

/-! ## The turns in a tick -/

/-- A tick up to the turn of track `i`. -/
def beforeTurn (e : Engine σ) (i : Nat) : Engine σ := e.beforeTracks.runPool (List.range i)

/-- The turn of track `i` in a tick. It has none if it does not run then, and where the
engine counts no tracks, no track has. -/
def turn? (e : Engine σ) (i : Nat) : Option Turn :=
  if e.tracksActive = 0 ∨ ((e.beforeTurn i).track i).isRunning = false then none
  else some {
    total := ((e.beforeTurn i).track i).advance.total.toNat
    waits := waitsOf i ((e.beforeTurn i).turnSteps i) }

theorem turn?_eq_some {e : Engine σ} {i : Nat} {turn : Turn} (h : e.turn? i = some turn) :
    e.tracksActive ≠ 0 ∧ ((e.beforeTurn i).track i).isRunning = true ∧
      turn.total = ((e.beforeTurn i).track i).advance.total.toNat ∧
      turn.waits = waitsOf i ((e.beforeTurn i).turnSteps i) := by
  unfold turn? at h
  split at h
  · cases h
  · next hturn =>
    cases h
    rw [not_or] at hturn
    exact ⟨hturn.1, by simpa using hturn.2, rfl, rfl⟩

theorem turn?_eq_none_iff {e : Engine σ} {i : Nat} :
    e.turn? i = none ↔ e.tracksActive = 0 ∨ ((e.beforeTurn i).track i).isRunning = false := by
  unfold turn?
  split
  · next hnone => exact iff_of_true rfl hnone
  · next hturn => exact iff_of_false nofun hturn

theorem tracksActive_beforeTracks (e : Engine σ) :
    e.beforeTracks.tracksActive = e.tracksActive := (tuned_beforeTracks e).tracksActive

theorem runPool_append (e : Engine σ) (l l' : List Nat) :
    e.runPool (l ++ l') = (e.runPool l).runPool l' := List.foldl_append

theorem runPool_cons (e : Engine σ) (i : Nat) (l : List Nat) :
    e.runPool (i :: l) = (if (e.track i).isRunning then e.runTrack i else e).runPool l := rfl

theorem poolSteps_append (l l' : List Nat) (e : Engine σ) :
    poolSteps (l ++ l') e = poolSteps l e ++ poolSteps l' (e.runPool l) := by
  induction l generalizing e with
  | nil => rfl
  | cons i l ih =>
    rw [List.cons_append, poolSteps, poolSteps, runPool_cons]
    split
    · rw [ih, List.append_assoc]
    · rw [ih]

theorem mem_of_mem_poolSteps {l : List Nat} {e : Engine σ} {p : Engine σ × Nat}
    (h : p ∈ poolSteps l e) : p.2 ∈ l := by
  induction l generalizing e with
  | nil => cases h
  | cons i l ih =>
    unfold poolSteps at h
    split at h
    · rcases List.mem_append.mp h with hturn | hrest
      · obtain ⟨d, -, rfl⟩ := List.mem_map.mp hturn
        exact List.mem_cons_self
      · exact List.mem_cons_of_mem i (ih hrest)
    · exact List.mem_cons_of_mem i (ih h)

theorem filter_poolSteps_of_not_mem {i : Nat} {l : List Nat} (hi : i ∉ l) (e : Engine σ) :
    (poolSteps l e).filter (fun p => p.2 == i) = [] := by
  refine List.filter_eq_nil_iff.mpr fun p hp heq => hi ?_
  have hmem := mem_of_mem_poolSteps hp
  rwa [beq_iff_eq.mp heq] at hmem

theorem range_split {i n : Nat} (h : i < n) :
    List.range n = List.range i ++ i :: List.range' (i + 1) (n - (i + 1)) := by
  have hcount : n - (i + 1) + 1 = n - i := by omega
  have hwhole := List.range'_append_1 (s := 0) (m := i) (n := n - i)
  rw [Nat.zero_add, Nat.add_sub_cancel' (Nat.le_of_lt h)] at hwhole
  rw [← List.range'_succ, hcount, List.range_eq_range', List.range_eq_range', hwhole]

/-- What the tracks do in a tick, as the turn of one and the turns of those before and
behind it. -/
theorem beforeUpkeep_split {e : Engine σ} {i : Nat} (hbusy : e.tracksActive ≠ 0)
    (hi : i < e.tracks.size) : ∃ rest, i ∉ rest ∧
      e.beforeUpkeep = (e.beforeTurn i).runPool (i :: rest) ∧
      e.executions = poolSteps (List.range i) e.beforeTracks ++
        poolSteps (i :: rest) (e.beforeTurn i) := by
  have hcount : ¬ e.beforeTracks.tracksActive = 0 := by rwa [tracksActive_beforeTracks]
  have hids : e.beforeTracks.trackIds =
      List.range i ++ i :: List.range' (i + 1) (e.tracks.size - (i + 1)) := by
    unfold trackIds
    rw [(tuned_beforeTracks e).tracks_size]
    exact range_split hi
  refine ⟨List.range' (i + 1) (e.tracks.size - (i + 1)), ?_, ?_, ?_⟩
  · simp
  · rw [beforeUpkeep_eq_beforeTracks, if_neg hcount]
    show e.beforeTracks.runPool e.beforeTracks.trackIds = _
    rw [hids, runPool_append]
    rfl
  · unfold executions
    rw [if_neg hcount, hids, poolSteps_append]
    rfl

/-- A track that runs when its turn comes ran before the tick. -/
theorem isActive_of_beforeTurn {e : Engine σ} {i : Nat}
    (h : ((e.beforeTurn i).track i).isRunning = true) : (e.track i).isActive = true := by
  have hsteps : Track.Steps (e.track i) ((e.beforeTurn i).track i) :=
    ((tuned_beforeTracks e).steps i).trans (steps_moves (moves_runPool _ _) i)
  exact hsteps.isActive (Bool.and_eq_true_iff.mp h).1

/-- The commands of a track in a tick are those of its turn. -/
theorem filter_executions (e : Engine σ) (i : Nat) :
    e.executions.filter (fun p => p.2 == i) =
      if (e.turn? i).isSome then ((e.beforeTurn i).turnSteps i).map (·, i) else [] := by
  by_cases hbusy : e.tracksActive = 0
  · have hcount : e.beforeTracks.tracksActive = 0 := (tracksActive_beforeTracks e).trans hbusy
    have hnone : e.turn? i = none := turn?_eq_none_iff.mpr (.inl hbusy)
    rw [hnone, executions, if_pos hcount]
    rfl
  by_cases hi : i < e.tracks.size
  · obtain ⟨rest, hrest, -, hsteps⟩ := beforeUpkeep_split hbusy hi
    have hbefore : i ∉ List.range i := by simp
    rw [hsteps, List.filter_append, filter_poolSteps_of_not_mem hbefore, List.nil_append,
      poolSteps]
    by_cases hrun : ((e.beforeTurn i).track i).isRunning = true
    · have hsome : (e.turn? i).isSome = true := by simp [turn?, hbusy, hrun]
      rw [if_pos hrun, if_pos hsome, List.filter_append, filter_poolSteps_of_not_mem hrest]
      simp
    · have hnone : e.turn? i = none :=
        turn?_eq_none_iff.mpr (.inr (Bool.eq_false_iff.mpr hrun))
      rw [hnone, if_neg hrun, filter_poolSteps_of_not_mem hrest]
      rfl
  · have hnone : e.turn? i = none := by
      refine turn?_eq_none_iff.mpr (.inr (Bool.eq_false_iff.mpr fun hrun => ?_))
      exact hi (lt_size_of_isActive (isActive_of_beforeTurn hrun))
    have hout : i ∉ e.beforeTracks.trackIds := by
      rw [trackIds, (tuned_beforeTracks e).tracks_size, List.mem_range]
      exact hi
    have hcount : ¬ e.beforeTracks.tracksActive = 0 := by rwa [tracksActive_beforeTracks]
    rw [hnone, executions, if_neg hcount, filter_poolSteps_of_not_mem hout]
    rfl

/-! ## The rest of a tick -/

section Others

variable {good : Engine σ → Prop} {e : Engine σ} {i : Nat}
  (hothers : ∀ l d, i ∉ l → (∀ p ∈ poolSteps l d, p ∈ e.executions) → good d → good (d.runPool l))

include hothers

/-- What the turns of other tracks keep holds when the turn of a track comes. -/
theorem beforeTurn_keeps (hbefore : good e.beforeTracks) (hbusy : e.tracksActive ≠ 0)
    (hi : i < e.tracks.size) : good (e.beforeTurn i) := by
  obtain ⟨rest, -, -, hsteps⟩ := beforeUpkeep_split hbusy hi
  have hbehind : i ∉ List.range i := by simp
  exact hothers _ _ hbehind (fun p hp => hsteps ▸ List.mem_append_left _ hp) hbefore

/-- It holds after all turns if the track has none. -/
theorem beforeUpkeep_keeps_of_none (hbefore : good e.beforeTracks) (h : e.turn? i = none) :
    good e.beforeUpkeep := by
  by_cases hbusy : e.tracksActive = 0
  · have hcount : e.beforeTracks.tracksActive = 0 := (tracksActive_beforeTracks e).trans hbusy
    rw [beforeUpkeep_eq_beforeTracks, if_pos hcount]
    exact hbefore
  by_cases hi : i < e.tracks.size
  · obtain ⟨rest, hrest, hupkeep, hsteps⟩ := beforeUpkeep_split hbusy hi
    have hstands : ((e.beforeTurn i).track i).isRunning = false := by
      by_contra hrun
      simp [turn?, hbusy, hrun] at h
    have hpool : ∀ p ∈ poolSteps rest (e.beforeTurn i), p ∈ e.executions := by
      intro p hp
      rw [hsteps]
      refine List.mem_append_right _ ?_
      rwa [poolSteps, hstands]
    rw [hupkeep, runPool_cons, hstands]
    exact hothers _ _ hrest hpool (beforeTurn_keeps hothers hbefore hbusy hi)
  · have hout : i ∉ e.beforeTracks.trackIds := by
      rw [trackIds, (tuned_beforeTracks e).tracks_size, List.mem_range]
      exact hi
    have hcount : ¬ e.beforeTracks.tracksActive = 0 := by rwa [tracksActive_beforeTracks]
    rw [beforeUpkeep_eq_beforeTracks, if_neg hcount]
    refine hothers _ _ hout (fun p hp => ?_) hbefore
    rwa [executions, if_neg hcount]

/-- It holds after all turns if it does after the turn of the track. -/
theorem beforeUpkeep_keeps_of_some {turn : Turn} (h : e.turn? i = some turn)
    (hturned : good ((e.beforeTurn i).runTrack i)) : good e.beforeUpkeep := by
  obtain ⟨hbusy, hrun, -, -⟩ := turn?_eq_some h
  have hi := lt_size_of_isActive (isActive_of_beforeTurn hrun)
  obtain ⟨rest, hrest, hupkeep, hsteps⟩ := beforeUpkeep_split hbusy hi
  rw [hupkeep, runPool_cons, if_pos hrun]
  refine hothers _ _ hrest (fun p hp => ?_) hturned
  rw [hsteps, poolSteps, if_pos hrun]
  exact List.mem_append_right _ (List.mem_append_right _ hp)

end Others

/-- Track `i` may be paused or ended, but its timing stays as it is. -/
structure Fades (i : Nat) (e e' : Engine σ) : Prop where
  timing : (e'.track i).timing = (e.track i).timing
  steps : Track.Steps (e.track i) (e'.track i)

omit [SoundChip σ] in
theorem Fades.trans {i : Nat} {a b c : Engine σ} (hab : Fades i a b) (hbc : Fades i b c) :
    Fades i a c := ⟨hbc.timing.trans hab.timing, hab.steps.trans hbc.steps⟩

theorem fades_beforeTracks (e : Engine σ) (i : Nat) : Fades i e e.beforeTracks :=
  ⟨(Unmoved.of_pools (pools_beforeTracks e)).timing i, (tuned_beforeTracks e).steps i⟩

theorem fades_serviceVoices (e : Engine σ) (i : Nat) : Fades i e e.serviceVoices :=
  @serviceVoices_keeps _ _ (fun e' => Fades i e e')
    (fun e' v h => h.trans ⟨(unmoved_freeVoice e' v).timing i, steps_freeVoice e' v i⟩)
    (fun _ _ _ _ h => ⟨h.timing, h.steps⟩) _ ⟨rfl, .refl⟩

/-- The turns of other tracks. -/
theorem fades_runPool {i : Nat} {l : List Nat} (hl : i ∉ l) {e : Engine σ} (hseated : e.Seated)
    (hreturns : ∀ p ∈ poolSteps l e, ¬ p.1.ReturnsFor i p.2) : Fades i e (e.runPool l) :=
  ⟨(timing_runPool hl hseated hreturns).2, steps_moves (moves_runPool l e) i⟩

section Tick

variable {e : Engine σ} {i : Nat} (hseated : e.Seated)
  (hreturns : ∀ p ∈ e.executions, ¬ p.1.ReturnsFor i p.2)

include hseated in
theorem fades_ready : e.beforeTracks.Seated ∧ Fades i e e.beforeTracks :=
  ⟨(sameLinks_of_pools (pools_beforeTracks e)).seated hseated, fades_beforeTracks e i⟩

include hreturns in
theorem fades_others (a : Engine σ) : ∀ l d, i ∉ l → (∀ p ∈ poolSteps l d, p ∈ e.executions) →
    d.Seated ∧ Fades i a d → (d.runPool l).Seated ∧ Fades i a (d.runPool l) := by
  rintro l d hl hsteps ⟨hready, hfades⟩
  have hpool : ∀ p ∈ poolSteps l d, ¬ p.1.ReturnsFor i p.2 := fun p hp =>
    hreturns p (hsteps p hp)
  exact ⟨(timing_runPool hl hready hpool).1, hfades.trans (fades_runPool hl hready hpool)⟩

include hseated hreturns

/-- The turns of the tracks before. -/
theorem fades_beforeTurn (hbusy : e.tracksActive ≠ 0) (hi : i < e.tracks.size) :
    (e.beforeTurn i).Seated ∧ Fades i e (e.beforeTurn i) :=
  beforeTurn_keeps (fades_others hreturns e) (fades_ready hseated) hbusy hi

/-- A tick without a turn of the track. -/
theorem fades_tick_of_none (h : e.turn? i = none) : Fades i e e.tick := by
  rw [tick_eq]
  exact (beforeUpkeep_keeps_of_none (fades_others hreturns e) (fades_ready hseated) h).2.trans
    (fades_serviceVoices _ i)

/-- A tick with a turn of the track. -/
theorem fades_tick_of_some {turn : Turn} (h : e.turn? i = some turn) :
    Fades i e (e.beforeTurn i) ∧ Fades i ((e.beforeTurn i).runTrack i) e.tick := by
  obtain ⟨hbusy, hrun, -, -⟩ := turn?_eq_some h
  have hi := lt_size_of_isActive (isActive_of_beforeTurn hrun)
  obtain ⟨hready, hfades⟩ := fades_beforeTurn hseated hreturns hbusy hi
  refine ⟨hfades, ?_⟩
  have hturned := enduring_seated.moves (moves_runTrack hrun) hready
  rw [tick_eq]
  exact (beforeUpkeep_keeps_of_some (fades_others hreturns _) h ⟨hturned, rfl, .refl⟩).2.trans
    (fades_serviceVoices _ i)

end Tick

end Engine

end SoundSequencer
