/-
SoundSequencer.Proofs.MuteRelease — how long the notes of a muted track fade.

* `Voice.isGreatest_muteReleaseRate`: the rate of a mute is the largest whose release lasts no
  longer than it may.
* `Voice.searched` lists the rounds of the search for it, in each of which the time at hand is
  the release time of the rate at hand: `Voice.time_of_mem_searched`.
* `muteLimit` is what the last call of a run has allowed mutes, and `Engine.MutesWithin` says of
  an act that the releases it begins are no longer: `mute_release_exact`.
-/
import Mathlib.Data.List.Chain
import Mathlib.Order.Bounds.Basic
import SoundSequencer.Proofs.ReleaseTimes

namespace SoundSequencer

namespace Voice

/-! ## Times -/

/-- The release of rate 31 lasts longest, and each rate less halves the time. -/
theorem toNat_muteReleaseTime {rate : Nat} (h : rate ≤ 31) :
    (muteReleaseTime (UInt8.ofNat rate)).toNat = 0x10000000 / 2 ^ (31 - rate) := by
  have hrate : (UInt8.ofNat rate).toNat = rate := by simp; omega
  have hshift : (31 - (UInt8.ofNat rate % 32).toUInt32).toNat = 31 - rate := by
    rw [UInt32.toNat_sub_of_le] <;>
      simp only [UInt32.le_iff_toNat_le, UInt8.toNat_toUInt32, UInt8.toNat_mod, hrate,
        UInt8.reduceToNat, UInt32.reduceToNat] <;> omega
  have hmod : (31 - rate) % 32 = 31 - rate := by omega
  rw [muteReleaseTime, UInt32.toNat_shiftRight, hshift, hmod, Nat.shiftRight_eq_div_pow]
  rfl

theorem muteReleaseTime_halved {rate : Nat} (h : rate + 1 ≤ 31) :
    muteReleaseTime (UInt8.ofNat (rate + 1)) >>> 1 = muteReleaseTime (UInt8.ofNat rate) := by
  have hpow : 2 ^ (31 - (rate + 1)) * 2 = 2 ^ (31 - rate) := by
    rw [← Nat.pow_succ]
    congr 1
    omega
  apply UInt32.toNat_inj.mp
  rw [UInt32.toNat_shiftRight, toNat_muteReleaseTime h, toNat_muteReleaseTime (Nat.le_of_succ_le h),
    ← hpow, ← Nat.div_div_eq_div_mul]
  rfl

/-! ## The search -/

/-- The state of the search behind the next round, if there is one. -/
def round? (ms : UInt32) : Nat × UInt32 → Option (Nat × UInt32)
  | (rate, time) => if ms < time ∧ rate ≠ 0 then some (rate - 1, time >>> 1) else none

/-- The rates that the search is at, each with the time at hand. -/
def searched (ms : UInt32) : (rate : Nat) → (time : UInt32) → List (Nat × UInt32)
  | 0, time => [(0, time)]
  | rate + 1, time => (rate + 1, time) :: if ms < time then searched ms rate (time >>> 1) else []

theorem head?_searched (ms : UInt32) (rate : Nat) (time : UInt32) :
    (searched ms rate time).head? = some (rate, time) := by
  cases rate <;> rfl

theorem length_searched_le (ms : UInt32) (rate : Nat) (time : UInt32) :
    (searched ms rate time).length ≤ rate + 1 := by
  induction rate generalizing time with
  | zero => exact Nat.le_refl 1
  | succ rate ih =>
    unfold searched
    split
    · exact Nat.succ_le_succ (ih _)
    · exact Nat.succ_le_succ (Nat.zero_le _)

/-- From each state to the next it is one round. -/
theorem isChain_searched (ms : UInt32) (rate : Nat) (time : UInt32) :
    (searched ms rate time).IsChain fun p q => round? ms p = some q := by
  induction rate generalizing time with
  | zero => exact .singleton _
  | succ rate ih =>
    unfold searched
    split
    · next hlong =>
      refine List.isChain_cons.mpr ⟨fun q hq => ?_, ih _⟩
      rw [head?_searched] at hq
      cases hq
      exact if_pos ⟨hlong, Nat.succ_ne_zero rate⟩
    · exact .singleton _

/-- The search ends at the rate that is its result. -/
theorem getLast?_searched (ms : UInt32) {rate : Nat} (time : UInt32) (h : rate ≤ 31) :
    ∃ last, (searched ms rate time).getLast? = some last ∧ round? ms last = none ∧
      last.1 = (fittingRate ms rate time).toNat := by
  induction rate generalizing time with
  | zero => exact ⟨(0, time), rfl, if_neg fun hboth => hboth.2 rfl, rfl⟩
  | succ rate ih =>
    unfold searched fittingRate
    split
    · obtain ⟨last, hlast, hend⟩ := ih (time >>> 1) (Nat.le_of_succ_le h)
      exact ⟨last, by rw [List.getLast?_cons, hlast]; rfl, hend⟩
    · next hfits => exact ⟨(rate + 1, time), rfl, if_neg fun hboth => hfits hboth.1, by simp; omega⟩

/-- The time at hand is the release time of the rate at hand. -/
theorem time_of_mem_searched {ms : UInt32} {rate : Nat} (h : rate ≤ 31) :
    ∀ p ∈ searched ms rate (muteReleaseTime (UInt8.ofNat rate)),
      p.2 = muteReleaseTime (UInt8.ofNat p.1) := by
  induction rate with
  | zero =>
    intro p hp
    rw [List.mem_singleton.mp hp]
  | succ rate ih =>
    unfold searched
    refine List.forall_mem_cons.mpr ⟨rfl, ?_⟩
    split
    · rw [muteReleaseTime_halved h]
      exact ih (Nat.le_of_succ_le h)
    · exact fun _ hp => (List.not_mem_nil hp).elim

/-! ## The result -/

/-- From a rate on whose release time is at hand, the search finds the largest that fits. -/
theorem isGreatest_fittingRate (ms : UInt32) {rate : Nat} (h : rate ≤ 31) :
    IsGreatest {r : UInt8 | r.toNat ≤ rate ∧ muteReleaseTime r ≤ ms}
      (fittingRate ms rate (muteReleaseTime (UInt8.ofNat rate))) := by
  have htop : (UInt8.ofNat rate).toNat = rate := by simp; omega
  induction rate with
  | zero =>
    have hnone : muteReleaseTime 0 ≤ ms := UInt32.le_iff_toNat_le.mpr (Nat.zero_le ms.toNat)
    exact ⟨⟨Nat.le_refl 0, hnone⟩, fun r hr => UInt8.le_iff_toNat_le.mpr hr.1⟩
  | succ rate ih =>
    unfold fittingRate
    split
    · next hlong =>
      have hlong' := UInt32.lt_iff_toNat_lt.mp hlong
      rw [muteReleaseTime_halved h]
      obtain ⟨⟨hle, hfits⟩, hgreatest⟩ := ih (Nat.le_of_succ_le h) (by simp; omega)
      refine ⟨⟨Nat.le_succ_of_le hle, hfits⟩, fun r hr => hgreatest ⟨?_, hr.2⟩⟩
      -- the rate that was too slow is not among those that fit
      have hne : r.toNat ≠ rate + 1 := by
        intro htoNat
        have hr' : r = UInt8.ofNat (rate + 1) := UInt8.toNat_inj.mp (htoNat.trans htop.symm)
        exact absurd (UInt32.le_iff_toNat_le.mp (hr' ▸ hr.2)) (Nat.not_le.mpr hlong')
      exact Nat.le_of_lt_succ (Nat.lt_of_le_of_ne hr.1 hne)
    · next hfits =>
      have hfits' : muteReleaseTime (UInt8.ofNat (rate + 1)) ≤ ms := by
        rw [UInt32.le_iff_toNat_le]
        rw [UInt32.lt_iff_toNat_lt] at hfits
        omega
      refine ⟨⟨Nat.le_of_eq htop, hfits'⟩, fun r hr => ?_⟩
      rw [UInt8.le_iff_toNat_le, htop]
      exact hr.1

/-- The rate of a mute is the largest whose release lasts at most `ms`. -/
theorem isGreatest_muteReleaseRate (ms : UInt32) :
    IsGreatest {r : UInt8 | r.toNat ≤ 31 ∧ muteReleaseTime r ≤ ms} (muteReleaseRate ms) :=
  isGreatest_fittingRate ms (Nat.le_refl 31)

/-- Mutes that may last longer have no smaller rate. -/
theorem muteReleaseRate_mono {ms ms' : UInt32} (h : ms ≤ ms') :
    muteReleaseRate ms ≤ muteReleaseRate ms' := by
  obtain ⟨⟨hrate, hfits⟩, -⟩ := isGreatest_muteReleaseRate ms
  exact (isGreatest_muteReleaseRate ms').2 ⟨hrate, UInt32.le_trans hfits h⟩

end Voice

/-! ## Mutes of a run -/

/-- What mutes may last after a call, in milliseconds. -/
def Call.muteLimit {σ : Type} (limit : UInt32) : Call σ → UInt32
  | .setMuteRelease ms => ms
  | _ => limit

/-- What mutes may last after a run of a new engine. -/
def muteLimit {σ : Type} (calls : List (Call σ)) : UInt32 :=
  calls.foldl Call.muteLimit defaultMuteRelease

namespace Engine

variable {σ : Type} [SoundChip σ]

/-- If an act mutes a track, the voices of the track fade for `ms` milliseconds at most, and
that from now on. -/
def MutesWithin (ms : UInt32) (e : Engine σ) (x : Act) : Prop :=
  ∀ i v, x = .fade i → x.Releases e v →
    ((e.act x).voice v).releaseTime ≤ ms ∧
      (e.act x).FadesUntil v (e.clock.ms + ((e.act x).voice v).releaseTime)

theorem releaseTime_act_fade {e : Engine σ} {i v : Nat} (h : (Act.fade i).Releases e v) :
    ((e.act (.fade i)).voice v).releaseTime = Voice.muteReleaseTime e.muteRate := by
  obtain ⟨hsounds, howned⟩ := h
  have hactive : (e.voice v).active = true := (Bool.and_eq_true_iff.mp howned).1
  have hvoice := VoicePool.voice_update e.voices (·.ownedBy i)
    (fun v => { v with releaseTime := Voice.muteReleaseTime e.muteRate }.released e.clock.ms) v
    (VoicePool.lt_limit_of_active hactive)
  unfold act releaseVoices
  dsimp only
  rw [if_neg hsounds]
  exact congrArg Voice.releaseTime (hvoice.trans (if_pos howned))

/-- At the rate for `ms` milliseconds, mutes last no longer. -/
theorem mutesWithin_of_muteRate {e : Engine σ} {ms : UInt32}
    (h : e.muteRate = Voice.muteReleaseRate ms) (x : Act) : MutesWithin ms e x := by
  rintro i v rfl hreleases
  have hclock := (timeless_act_of_ne_tick (e := e) (x := .fade i) nofun).clock
  have hfades := fadesUntil_of_releases hreleases
  rw [hclock] at hfades
  refine ⟨?_, hfades⟩
  rw [releaseTime_act_fade hreleases, h]
  exact (Voice.isGreatest_muteReleaseRate ms).1.2

end Engine

namespace Session

open Engine

variable {σ : Type} [SoundChip σ]

theorem muteRate_perform {s : Session σ} {limit : UInt32}
    (h : s.engine.muteRate = Voice.muteReleaseRate limit) (call : Call σ) :
    (s.perform call).engine.muteRate = Voice.muteReleaseRate (call.muteLimit limit) := by
  cases htick : call.isTick with
  | true =>
    obtain rfl := Call.eq_tick htick
    have hupkeep := (timeless_serviceVoices s.engine.beforeUpkeep).muteRate
    rw [engine_tick, tick_eq, hupkeep, (stirred_beforeUpkeep s.engine).muteRate,
      (time_beforeTracks s.engine).2.2]
    exact h
  | false =>
    by_cases hmute : ∃ ms, call = .setMuteRelease ms
    · obtain ⟨ms, rfl⟩ := hmute
      rfl
    · have hlimit : call.muteLimit limit = limit := by
        cases call with
        | setMuteRelease ms => exact absurd ⟨ms, rfl⟩ hmute
        | _ => rfl
      rw [(stirred_perform s htick fun ms h => hmute ⟨ms, h⟩).muteRate, hlimit, h]

theorem muteRate_run : ∀ (calls : List (Call σ)) {s : Session σ} {limit : UInt32},
    s.engine.muteRate = Voice.muteReleaseRate limit →
      (s.run calls).engine.muteRate = Voice.muteReleaseRate (calls.foldl Call.muteLimit limit)
  | [], _, _, h => h
  | call :: calls, _, _, h => muteRate_run calls (muteRate_perform h call)

end Session

theorem muteRate_make {σ : Type} [SoundChip σ] {module : SoundModule} {chip : σ} {e : Engine σ}
    (h : Engine.make module chip = .ok e) :
    e.muteRate = Voice.muteReleaseRate defaultMuteRelease := by
  unfold Engine.make at h
  split at h
  · cases h
  · cases h
    rfl

/-- The rate of a mute is the largest whose release fits, and grows with the time that mutes
may last. The search for it takes at most 31 rounds; in each the time at hand is that of the
rate at hand. Every mute in any call of any run keeps to what was last asked for. -/
theorem mute_release_exact {σ : Type} [SoundChip σ] {module : SoundModule} {chip : σ}
    {e : Engine σ} (hmake : Engine.make module chip = .ok e) :
    (∀ ms, IsGreatest {r : UInt8 | r.toNat ≤ 31 ∧ Voice.muteReleaseTime r ≤ ms}
      (Voice.muteReleaseRate ms)) ∧
    (∀ ms ms', ms ≤ ms' → Voice.muteReleaseRate ms ≤ Voice.muteReleaseRate ms') ∧
    (∀ ms, let states := Voice.searched ms 31 Voice.maxReleaseTime
      states.head? = some (31, Voice.maxReleaseTime) ∧ states.length ≤ 31 + 1 ∧
        (states.IsChain fun p q => Voice.round? ms p = some q) ∧
        (∃ last, states.getLast? = some last ∧ Voice.round? ms last = none ∧
          last.1 = (Voice.muteReleaseRate ms).toNat) ∧
        ∀ p ∈ states, p.2 = Voice.muteReleaseTime (UInt8.ofNat p.1)) ∧
    ∀ (calls : List (Call σ)) (call : Call σ),
      let s := ({ engine := e } : Session σ).run calls
      s.engine.muteRate = Voice.muteReleaseRate (muteLimit calls) ∧
        ∃ acts, Engine.History s.engine acts (s.perform call).engine ∧
          ∀ p ∈ acts, p.1.muteRate = s.engine.muteRate ∧
            Engine.MutesWithin (muteLimit calls) p.1 p.2 := by
  refine ⟨Voice.isGreatest_muteReleaseRate, fun _ _ => Voice.muteReleaseRate_mono,
    fun ms => ⟨Voice.head?_searched _ _ _, Voice.length_searched_le _ _ _,
      Voice.isChain_searched _ _ _, Voice.getLast?_searched ms _ (Nat.le_refl 31),
      Voice.time_of_mem_searched (Nat.le_refl 31)⟩, fun calls call => ?_⟩
  have hrate := Session.muteRate_run calls (s := { engine := e }) (muteRate_make hmake)
  refine ⟨hrate, ?_⟩
  obtain ⟨acts, hacts, -, hmutes⟩ :=
    @Session.exists_history_perform _ _ (({ engine := e } : Session σ).run calls) call [] trivial
  exact ⟨acts, hacts, fun p hp =>
    ⟨hmutes p hp, Engine.mutesWithin_of_muteRate ((hmutes p hp).trans hrate) p.2⟩⟩

/-- A stop while mutes may last a tenth of a second: the note fades for 64 milliseconds. -/
theorem mute_release_exact_stop : ∃ (e : Engine RecorderChip) (s : Session RecorderChip),
    Engine.make (solo [(0, .noteOn 60 100), (1000, .trackEnd)]) {} = .ok e ∧
      s = ({ engine := e } : Session RecorderChip).run
        [.setMuteRelease 100, .start 0 {}, .tick] ∧
      ((s.engine.voice 0).release = false ∧
        (s.perform (.stop 0)).engine.voice 0 =
          { (s.engine.voice 0) with releaseTime := 64 }.released s.engine.clock.ms) ∧
      ∃ acts, Engine.History s.engine acts (s.perform (.stop 0)).engine ∧
        ∀ p ∈ acts, p.1.muteRate = s.engine.muteRate ∧ Engine.MutesWithin 100 p.1 p.2 := by
  obtain ⟨e, hmake, hstop⟩ : ∃ e : Engine RecorderChip,
      Engine.make (solo [(0, .noteOn 60 100), (1000, .trackEnd)]) {} = .ok e ∧
        let s := ({ engine := e } : Session RecorderChip).run
          [.setMuteRelease 100, .start 0 {}, .tick]
        (s.engine.voice 0).release = false ∧
          (s.perform (.stop 0)).engine.voice 0 =
            { (s.engine.voice 0) with releaseTime := 64 }.released s.engine.clock.ms :=
    Engine.exists_make (by decide +kernel)
  exact ⟨e, _, hmake, rfl, hstop,
    ((mute_release_exact hmake).2.2.2 [.setMuteRelease 100, .start 0 {}, .tick] (.stop 0)).2⟩

end SoundSequencer
