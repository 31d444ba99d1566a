/-
SoundSequencer.Proofs.Tempo — time without drift.

* `quarterShare` is what a tempo makes of a tick, `Track.passed` what a track has counted, both
  in 65536ths. `Advanced.advance` says that a turn adds the one to the other with nothing lost.
* `Track.SameCount` says that a track counts nothing. Apart from its turns a track counts
  nothing in any call: `sameCount_tick_of_none`, `sameCount_perform`.
* `Track.Advanced.run` follows a track through a run, and `time_without_drift` compares what it
  has counted with the tempo asked for. So it does for the clock.
-/
import Mathlib.Algebra.Order.Field.Basic
import Mathlib.Algebra.Order.Field.Rat
import Mathlib.Algebra.Order.Ring.Abs
import Mathlib.Tactic.Linarith
import Mathlib.Tactic.Qify
import SoundSequencer.Proofs.Punctual
import SoundSequencer.Proofs.ReleaseTimes

namespace SoundSequencer

/-! ## The advance of a tick -/

/-- The part of a quarter that passes in a tick at a tempo of `qpm` quarters a minute, in
65536ths and rounded. -/
def quarterShare (qpm : UInt16) : Nat := (qpm.toNat * 65536 + 3630) / 7200

theorem toNat_partsPerInterrupt {ppq qpm : UInt16}
    (h : quarterShare qpm * ppq.toNat ≤ 2 ^ 32 - 2 ^ 16) :
    (partsPerInterrupt ticksPerSecond ppq qpm).toNat = quarterShare qpm * ppq.toNat := by
  have hqpm := qpm.toNat_lt
  have hshare : quarterShare qpm < 2 ^ 32 := by
    unfold quarterShare
    omega
  have hparts : partsPerInterrupt ticksPerSecond ppq qpm =
      UInt32.ofNat (quarterShare qpm) * ppq.toUInt32 := rfl
  rw [hparts, UInt32.toNat_mul, UInt32.toNat_ofNat', UInt16.toNat_toUInt32,
    Nat.mod_eq_of_lt hshare, Nat.mod_eq_of_lt (by omega)]

/-- The whole parts of `n` advances are less than one part away from what the tempo asks for, and
the rounding of the share more for each of them. -/
theorem near_ideal (n : Nat) (ppq qpm : UInt16) :
    |((n * (quarterShare qpm * ppq.toNat) / 65536 : Nat) : Rat) -
        n * qpm.toNat * ppq.toNat / 7200| <
      1 + n * ppq.toNat * 3630 / (7200 * 65536) := by
  have hshare : 7200 * quarterShare qpm ≤ qpm.toNat * 65536 + 3630 ∧
      qpm.toNat * 65536 ≤ 7200 * quarterShare qpm + 3630 := by
    unfold quarterShare
    omega
  generalize quarterShare qpm = share at hshare ⊢
  generalize htotal : n * (share * ppq.toNat) / 65536 = total
  have hwhole : 65536 * total ≤ n * (share * ppq.toNat) ∧
      n * (share * ppq.toNat) < 65536 * total + 65536 := by omega
  -- a rounding of the share, once for every part that a quarter has and every turn
  have hover := Nat.mul_le_mul_left (n * ppq.toNat) hshare.1
  have hunder := Nat.mul_le_mul_left (n * ppq.toNat) hshare.2
  rw [abs_sub_lt_iff]
  qify at hwhole hover hunder
  constructor <;> linarith

namespace Track

/-- The parts that have passed for a track, in 65536ths. -/
def passed (t : Track) : Nat := 65536 * t.total.toNat + t.frac.toNat

/-- What a turn adds to the time of a track: its parts per interrupt, with nothing lost. -/
theorem passed_advance {t : Track} (hfrac : t.frac.toNat < 65536)
    (hppi : t.ppi.toNat ≤ 2 ^ 32 - 2 ^ 16) (hfits : t.passed + t.ppi.toNat < 2 ^ 48) :
    t.advance.passed = t.passed + t.ppi.toNat ∧ t.advance.frac.toNat < 65536 := by
  unfold passed at *
  have hsum : (t.frac + t.ppi).toNat = t.frac.toNat + t.ppi.toNat := by
    rw [UInt32.toNat_add, Nat.mod_eq_of_lt (by omega)]
  have hwhole : ((t.frac + t.ppi) >>> 16).toNat = (t.frac.toNat + t.ppi.toNat) / 65536 := by
    rw [UInt32.toNat_shiftRight, hsum]
    exact Nat.shiftRight_eq_div_pow _ _
  have hrest : t.advance.frac.toNat = (t.frac.toNat + t.ppi.toNat) % 65536 := by
    show ((t.frac + t.ppi) &&& 0xFFFF).toNat = _
    rw [UInt32.toNat_and, hsum]
    exact Nat.and_two_pow_sub_one_eq_mod _ 16
  have htotal : t.advance.total.toNat =
      t.total.toNat + (t.frac.toNat + t.ppi.toNat) / 65536 := by
    show (t.total + ((t.frac + t.ppi) >>> 16)).toNat = _
    rw [UInt32.toNat_add, hwhole, Nat.mod_eq_of_lt (by omega)]
  omega

/-- The track `t'` has counted what `t` has, and counts on in the same way but for the tempo. -/
structure SameCount (t t' : Track) : Prop extends Paced t t' where
  total : t'.total = t.total

theorem SameCount.refl (t : Track) : t.SameCount t := ⟨.refl t, rfl⟩

theorem SameCount.trans {a b c : Track} (hab : a.SameCount b) (hbc : b.SameCount c) :
    a.SameCount c := ⟨hab.toPaced.trans hbc.toPaced, hbc.total.trans hab.total⟩

theorem Still.sameCount {t t' : Track} (h : t.Still t') : t.SameCount t' :=
  ⟨h.toPaced, (Prod.mk.inj h.elapsed).1⟩

/-- A track with `ppq` parts to a quarter after `n` turns at a tempo of `qpm` quarters a minute. -/
structure Advanced (ppq qpm : UInt16) (n : Nat) (t : Track) : Prop where
  inTempo : t.InTempo
  resolution : t.ppq = ppq
  frac : t.frac.toNat < 65536
  passed : t.passed = n * (quarterShare qpm * ppq.toNat)

namespace Advanced

variable {ppq qpm : UInt16} {n : Nat} {t t' : Track}

theorem of_fresh (h : t.Fresh) (qpm : UInt16) : Advanced t.ppq qpm 0 t := by
  have htotal : t.total = 0 := (Prod.mk.inj h.elapsed).1
  refine ⟨h.inTempo, rfl, ?_, ?_⟩
  · rw [h.frac]
    decide
  · rw [Track.passed, htotal, h.frac, Nat.zero_mul]
    rfl

theorem of_sameCount (h : Advanced ppq qpm n t) (hsame : t.SameCount t') :
    Advanced ppq qpm n t' := by
  refine ⟨hsame.inTempo h.inTempo, hsame.ppq.trans h.resolution, ?_, ?_⟩
  · rw [hsame.frac]
    exact h.frac
  · rw [Track.passed, hsame.total, hsame.frac]
    exact h.passed

theorem advance (h : Advanced ppq qpm n t) (hqpm : t.qpm = qpm)
    (hppi : quarterShare qpm * ppq.toNat ≤ 2 ^ 32 - 2 ^ 16)
    (hfits : (n + 1) * (quarterShare qpm * ppq.toNat) < 2 ^ 48) :
    Advanced ppq qpm (n + 1) t.advance := by
  have hparts : t.ppi.toNat = quarterShare qpm * ppq.toNat := by
    rw [h.inTempo, h.resolution, hqpm]
    exact toNat_partsPerInterrupt hppi
  have hnext : t.passed + t.ppi.toNat = (n + 1) * (quarterShare qpm * ppq.toNat) := by
    rw [h.passed, hparts, Nat.succ_mul]
  obtain ⟨hpassed, hfrac⟩ := passed_advance h.frac (hparts ▸ hppi) (hnext ▸ hfits)
  exact ⟨h.inTempo, h.resolution, hfrac, hpassed.trans hnext⟩

end Advanced

end Track

namespace Engine

variable {σ : Type}

/-! ## Turns -/

theorem Unmoved.sameCount {e e' : Engine σ} (h : Unmoved e e') (i : Nat) :
    (e.track i).SameCount (e'.track i) := ((h.sameTime fun _ => True).still i).sameCount

theorem sameCount_modifyTrack_of_ne (e : Engine σ) {i j : Nat} (h : j ≠ i) (f : Track → Track) :
    (e.track i).SameCount ((e.modifyTrack j f).track i) := by
  rw [track_modifyTrack, if_neg fun hj => h hj.1]
  exact .refl _

/-- Paying for a command takes nothing from what a track has counted. -/
theorem sameCount_payDelta (e : Engine σ) (i j : Nat) :
    (e.track i).SameCount ((e.payDelta j).track i) := by
  rw [payDelta, track_modifyTrack]
  split
  · exact ⟨⟨rfl, rfl, id⟩, rfl⟩
  · exact .refl _

variable [SoundChip σ]

theorem sameCount_stepTrack (e : Engine σ) (i j : Nat) :
    (e.track i).SameCount ((e.stepTrack j).track i) := ((sameTime_stepTrack e j).still i).sameCount

/-- In its turn a track counts the advance of a tick. -/
theorem sameCount_runTrack {e : Engine σ} {i : Nat} (hrun : (e.track i).isRunning = true) :
    (e.track i).advance.SameCount ((e.runTrack i).track i) := by
  have hi := lt_size_of_isActive (Bool.and_eq_true_iff.mp hrun).1
  unfold runTrack
  dsimp only
  rw [← track_advance hi]
  split
  · exact (unmoved_turnOff _ i).sameCount i
  · exact (@runDue_keeps σ _
      (fun d => ((e.modifyTrack i Track.advance).track i).SameCount (d.track i))
      (fun _ _ => True) i
      (fun d _ h => h.trans (sameCount_payDelta d i i))
      (fun d _ h => h.trans ((unmoved_turnOff d i).sameCount i))
      (fun d _ _ h => h.trans (sameCount_stepTrack d i i))
      _ _ (.refl _) fun _ _ => trivial).1

/-- In the turns of other tracks it counts nothing. -/
theorem sameCount_runPool {i : Nat} {l : List Nat} (hl : i ∉ l) (e : Engine σ) :
    (e.track i).SameCount ((e.runPool l).track i) :=
  (@runPool_keeps σ _ (fun d => (e.track i).SameCount (d.track i)) (fun _ _ => True) (· ≠ i)
    (fun d _ hj _ h => h.trans (sameCount_modifyTrack_of_ne d hj _))
    (fun d j _ _ h => h.trans (sameCount_payDelta d i j))
    (fun d j _ _ h => h.trans ((unmoved_turnOff d j).sameCount i))
    (fun d j _ _ _ h => h.trans (sameCount_stepTrack d i j))
    l (fun _ hj heq => hl (heq ▸ hj)) _ (.refl _) fun _ _ => trivial).1

/-! ## Ticks -/

theorem sameCount_beforeTracks (e : Engine σ) (i : Nat) :
    (e.track i).SameCount (e.beforeTracks.track i) :=
  (Unmoved.of_pools (pools_beforeTracks e)).sameCount i

theorem sameCount_serviceVoices (e : Engine σ) (i : Nat) :
    (e.track i).SameCount (e.serviceVoices.track i) :=
  @serviceVoices_keeps _ _ (fun d => (e.track i).SameCount (d.track i))
    (fun d v h => h.trans ((unmoved_freeVoice d v).sameCount i)) (fun _ _ _ _ h => h) _ (.refl _)

section Tick

variable {e : Engine σ} {i : Nat}

theorem sameCount_others (t : Track) : ∀ l d, i ∉ l → (∀ p ∈ poolSteps l d, p ∈ e.executions) →
    t.SameCount (d.track i) → t.SameCount ((d.runPool l).track i) :=
  fun _ d hl _ h => h.trans (sameCount_runPool hl d)

/-- A tick without a turn of the track. -/
theorem sameCount_tick_of_none (h : e.turn? i = none) :
    (e.track i).SameCount (e.tick.track i) := by
  rw [tick_eq]
  exact (beforeUpkeep_keeps_of_none (sameCount_others (e.track i))
    (sameCount_beforeTracks e i) h).trans (sameCount_serviceVoices _ i)

/-- A tick with a turn of the track. -/
theorem sameCount_tick_of_some {turn : Turn} (h : e.turn? i = some turn) :
    (e.track i).SameCount ((e.beforeTurn i).track i) ∧
      ((e.beforeTurn i).track i).advance.SameCount (e.tick.track i) := by
  obtain ⟨hbusy, hrun, -, -⟩ := turn?_eq_some h
  have hi := lt_size_of_isActive (isActive_of_beforeTurn hrun)
  constructor
  · exact beforeTurn_keeps (sameCount_others (e.track i)) (sameCount_beforeTracks e i) hbusy hi
  · rw [tick_eq]
    exact (beforeUpkeep_keeps_of_some (sameCount_others ((e.beforeTurn i).track i).advance) h
      (sameCount_runTrack hrun)).trans (sameCount_serviceVoices _ i)

end Tick

/-- A turn at the tempo takes an advanced track one turn further. -/
theorem advanced_tick {e : Engine σ} {i n : Nat} {ppq qpm : UInt16}
    (h : (e.track i).Advanced ppq qpm n)
    (hqpm : (e.turn? i).isSome = true → ((e.beforeTurn i).track i).qpm = qpm)
    (hppi : quarterShare qpm * ppq.toNat ≤ 2 ^ 32 - 2 ^ 16)
    (hfits : (n + (e.turn? i).toList.length) * (quarterShare qpm * ppq.toNat) < 2 ^ 48) :
    (e.tick.track i).Advanced ppq qpm (n + (e.turn? i).toList.length) := by
  cases hturn : e.turn? i with
  | none => exact h.of_sameCount (sameCount_tick_of_none hturn)
  | some turn =>
    obtain ⟨hbefore, hafter⟩ := sameCount_tick_of_some hturn
    rw [hturn] at hqpm hfits
    exact ((h.of_sameCount hbefore).advance (hqpm rfl) hppi hfits).of_sameCount hafter

end Engine

/-! ## Runs -/

/-- Whether a call starts a sequence. -/
def Call.isStart {σ : Type} : Call σ → Bool
  | .start .. => true
  | _ => false

section Runs

variable {σ : Type} [SoundChip σ]

/-- A call on the way of track `i` at a tempo of `qpm` quarters a minute: the track has that
tempo when its turn comes, and does not leave its place to a track of a sequence that starts. -/
def Session.AtTempo (qpm : UInt16) (i : Nat) (s : Session σ) (call : Call σ) : Prop :=
  (call.isTick = true → (s.engine.turn? i).isSome = true →
    ((s.engine.beforeTurn i).track i).qpm = qpm) ∧
  (call.isStart = true → (s.engine.track i).isActive = true)

instance (qpm : UInt16) (i : Nat) (s : Session σ) (call : Call σ) :
    Decidable (s.AtTempo qpm i call) :=
  inferInstanceAs (Decidable (_ ∧ _))

/-- Between ticks a track counts nothing. -/
theorem sameCount_perform {s : Session σ} {i : Nat} {call : Call σ} (htick : call.isTick = false)
    (hstart : call.isStart = true → (s.engine.track i).isActive = true) :
    (s.engine.track i).SameCount ((s.perform call).engine.track i) := by
  by_cases hdrives : call.Drives
  · cases call with
    | tick => cases htick
    | start sequence options =>
      have hsame : (s.perform (.start sequence options)).engine.track i = s.engine.track i :=
        Engine.track_startSequence (hstart rfl) sequence options
      rw [hsame]
      exact .refl _
    | _ => exact hdrives.elim
  · exact (unmoved_perform s hdrives).sameCount i

/-- A run at the tempo takes an advanced track as many turns further as it has in it. -/
theorem Track.Advanced.run {i n : Nat} {ppq qpm : UInt16} (calls : List (Call σ)) {s : Session σ}
    (h : (s.engine.track i).Advanced ppq qpm n) (hcalls : s.Allows (Session.AtTempo qpm i) calls)
    (hppi : quarterShare qpm * ppq.toNat ≤ 2 ^ 32 - 2 ^ 16)
    (hfits : (n + (s.turns i calls).length) * (quarterShare qpm * ppq.toNat) < 2 ^ 48) :
    ((s.run calls).engine.track i).Advanced ppq qpm (n + (s.turns i calls).length) := by
  induction calls generalizing n s with
  | nil => exact h
  | cons call calls ih =>
    obtain ⟨⟨hqpm, hstart⟩, hrest⟩ := hcalls
    rw [Session.turns, List.length_append, ← Nat.add_assoc] at hfits ⊢
    refine ih ?_ hrest hfits
    -- the turns to come leave room for those of this call
    have hroom := Nat.lt_of_le_of_lt (Nat.mul_le_mul_right _ (Nat.le_add_right _ _)) hfits
    cases htick : call.isTick with
    | true =>
      obtain rfl := Call.eq_tick htick
      rw [Session.engine_tick]
      exact Engine.advanced_tick h (hqpm rfl) hppi hroom
    | false => exact h.of_sameCount (sameCount_perform htick hstart)

/-! ## The clock -/

theorem MsClock.iterate_advance (n : Nat) : MsClock.advance^[n] {} = MsClock.advanceBy {} n := by
  induction n with
  | zero => exact (MsClock.advanceBy_zero (by decide)).symm
  | succ n ih =>
    rw [Function.iterate_succ_apply', ih, MsClock.advance_eq, ← MsClock.advanceBy_add]

theorem MsClock.ms_advance (n : Nat) :
    (MsClock.advance^[n] {}).ms.toNat = n * 0x85555 / 65536 % 2 ^ 32 := by
  rw [iterate_advance]
  show (0 + UInt32.ofNat ((0 + n * tickLength) / 65536)).toNat = _
  rw [UInt32.zero_add, Nat.zero_add, UInt32.toNat_ofNat']
  rfl

/-- The clock of an engine has advanced once in every tick. -/
theorem Engine.clock_run {module : SoundModule} {chip : σ} {e : Engine σ}
    (hmake : Engine.make module chip = .ok e) (calls : List (Call σ)) :
    (Session.run { engine := e } calls).engine.clock =
      MsClock.advance^[(Session.run { engine := e } calls).engine.ticks] {} := by
  obtain ⟨hclock, hticks⟩ : e.clock = {} ∧ e.ticks = 0 := by
    unfold Engine.make at hmake
    split at hmake
    · cases hmake
    · cases hmake
      exact ⟨rfl, rfl⟩
  obtain ⟨l, hl, -⟩ := Session.exists_history calls { engine := e }
  have htime := (Clocked.refl (by rw [hclock]; decide)).history hl
  rw [htime.clock, hclock, hticks, Nat.sub_zero, MsClock.iterate_advance]

/-! ## Time without drift -/

/-- What a track with `ppq` parts to a quarter has counted in `n` turns at a tempo of `qpm`
quarters a minute. -/
structure Track.Counts (ppq qpm : UInt16) (n : Nat) (t : Track) : Prop where
  total : t.total.toNat = n * (quarterShare qpm * ppq.toNat) / 65536
  frac : t.frac.toNat = n * (quarterShare qpm * ppq.toNat) % 65536
  near : |(t.total.toNat : Rat) - n * qpm.toNat * ppq.toNat / 7200| <
    1 + n * ppq.toNat * 3630 / (7200 * 65536)

theorem Track.Advanced.counts {ppq qpm : UInt16} {n : Nat} {t : Track}
    (h : t.Advanced ppq qpm n) : t.Counts ppq qpm n := by
  have hfrac := h.frac
  have hpassed := h.passed
  unfold Track.passed at hpassed
  have htotal : t.total.toNat = n * (quarterShare qpm * ppq.toNat) / 65536 := by omega
  refine ⟨htotal, by omega, ?_⟩
  rw [htotal]
  exact near_ideal n ppq qpm

/-- Neither tracks nor the clock drift. From the start of its sequence a track counts in every
turn what its tempo makes of a tick, whatever else goes on between its turns and as long as its
total does not run over; so the rounding of that share is all that it is off by. The clock of an
engine advances once in a tick and loses no fraction. -/
theorem time_without_drift :
    (∀ ppq qpm : UInt16, quarterShare qpm * ppq.toNat ≤ 2 ^ 32 - 2 ^ 16 →
      (partsPerInterrupt ticksPerSecond ppq qpm).toNat = quarterShare qpm * ppq.toNat) ∧
    (∀ (module : SoundModule) (chip : σ) (e : Engine σ), Engine.make module chip = .ok e →
      ∀ (before calls : List (Call σ)) (sequence slot i : Nat) (options : StartOptions)
        (qpm : UInt16) (s : Session σ),
        s = Session.run { engine := e } (before ++ [.start sequence options]) →
        ((Session.run { engine := e } before).engine.startSequence sequence options).1 = .ok slot →
        i ∈ (s.engine.slot slot).trackIds → s.Allows (Session.AtTempo qpm i) calls →
        quarterShare qpm * (s.engine.track i).ppq.toNat ≤ 2 ^ 32 - 2 ^ 16 →
        (s.turns i calls).length * (quarterShare qpm * (s.engine.track i).ppq.toNat) / 65536 <
          2 ^ 32 →
        ((s.run calls).engine.track i).Counts (s.engine.track i).ppq qpm
          (s.turns i calls).length) ∧
    (∀ n, (MsClock.advance^[n] {}).ms.toNat = n * 0x85555 / 65536 % 2 ^ 32) ∧
    ∀ (module : SoundModule) (chip : σ) (e : Engine σ), Engine.make module chip = .ok e →
      ∀ calls : List (Call σ), (Session.run { engine := e } calls).engine.clock =
        MsClock.advance^[(Session.run { engine := e } calls).engine.ticks] {} := by
  refine ⟨fun _ _ => toNat_partsPerInterrupt, ?_, MsClock.ms_advance,
    fun _ _ _ => Engine.clock_run⟩
  intro module chip e hmake before calls sequence slot i options qpm s hs hstart hi hcalls hppi
    hroom
  have hrun : s = (Session.run { engine := e } before).perform (.start sequence options) := by
    simp [hs, Session.run]
  have hfresh : (s.engine.track i).Fresh := by
    rw [hrun] at hi ⊢
    exact (Engine.module_run hmake before).1.fresh_startSequence hstart i hi
  have hfits : (0 + (s.turns i calls).length) *
      (quarterShare qpm * (s.engine.track i).ppq.toNat) < 2 ^ 48 := by
    rw [Nat.zero_add]
    omega
  have hadvanced := (Track.Advanced.of_fresh hfresh qpm).run calls hcalls hppi hfits
  rw [Nat.zero_add] at hadvanced
  exact hadvanced.counts

end Runs

/-- Two ticks, one in a pause, and one more. -/
def rested : List (Call RecorderChip) :=
  [.tick, .tick, .pause 0 false, .tick, .restart 0, .tick]

/-- The second voice of the canon in its first three turns, and the clock in a second. -/
theorem time_without_drift_canon :
    (partsPerInterrupt ticksPerSecond 120 120).toNat = 1092 * 120 ∧
    (∃ e, Engine.make (scripted canon) ({} : RecorderChip) = .ok e ∧
      ((begun e).turns 1 rested).length = 3 ∧
      (((begun e).run rested).engine.track 1).Counts 120 120 3 ∧
      ((begun e).run rested).engine.clock = MsClock.advance^[4] {}) ∧
    (MsClock.advance^[120] {}).ms.toNat = 999 := by
  obtain ⟨hparts, hcounts, hclock, hadvances⟩ := time_without_drift (σ := RecorderChip)
  obtain ⟨e, hmake, hstart, hi, hcalls, hppq, hturns, hticks⟩ : ∃ e,
      Engine.make (scripted canon) ({} : RecorderChip) = .ok e ∧
        ((Session.run { engine := e } []).engine.startSequence 0 {}).1 = .ok 0 ∧
        1 ∈ ((begun e).engine.slot 0).trackIds ∧
        (begun e).Allows (Session.AtTempo 120 1) rested ∧
        ((begun e).engine.track 1).ppq = 120 ∧
        ((begun e).turns 1 rested).length = 3 ∧
        (Session.run { engine := e } (.start 0 {} :: rested)).engine.ticks = 4 :=
    Engine.exists_make (by decide +kernel)
  have hcounted := hcounts _ _ e hmake [] rested 0 0 1 {} 120 (begun e) rfl hstart hi hcalls
  rw [hppq, hturns] at hcounted
  refine ⟨hparts 120 120 (by decide), ⟨e, hmake, hturns, hcounted (by decide) (by decide), ?_⟩,
    (hclock 120).trans (by decide)⟩
  rw [← hticks]
  exact hadvances _ _ e hmake (.start 0 {} :: rested)

end SoundSequencer
