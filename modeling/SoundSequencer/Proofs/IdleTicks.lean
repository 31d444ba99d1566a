/-
SoundSequencer.Proofs.IdleTicks — many ticks at once.

* A tick of an idle engine counts and moves the clock: `tick_of_isIdle`. The engine stays idle,
  so that `n` ticks make it `idleFor n`.
* `ticksFor_eq` says that `ticksFor` is what it should be, `run_replicate_tick` that a session
  may be taken over an idle time at once.
-/
import Mathlib.Logic.Function.Iterate
import SoundSequencer.Engine.Idle
import SoundSequencer.Proofs.Performance
import SoundSequencer.Proofs.Ownership

namespace SoundSequencer

namespace MsClock

theorem advanceBy_zero {c : MsClock} (h : c.frac < 65536) : c.advanceBy 0 = c := by
  have hms : (c.frac + 0 * tickLength) / 65536 = 0 := by omega
  have hfrac : (c.frac + 0 * tickLength) % 65536 = c.frac := by omega
  simp only [advanceBy, hms, hfrac]
  simp

theorem frac_advanceBy_lt (c : MsClock) (n : Nat) : (c.advanceBy n).frac < 65536 :=
  Nat.mod_lt _ (by decide)

/-- Time goes on from where it has got to. -/
theorem advanceBy_add (c : MsClock) (m n : Nat) :
    c.advanceBy (m + n) = (c.advanceBy m).advanceBy n := by
  have hms : (c.frac + (m + n) * tickLength) / 65536 =
      (c.frac + m * tickLength) / 65536 +
        ((c.frac + m * tickLength) % 65536 + n * tickLength) / 65536 := by
    unfold tickLength
    omega
  have hfrac : (c.frac + (m + n) * tickLength) % 65536 =
      ((c.frac + m * tickLength) % 65536 + n * tickLength) % 65536 := by
    unfold tickLength
    omega
  simp only [advanceBy, hms, hfrac, UInt32.ofNat_add, UInt32.add_assoc]

theorem advance_eq (c : MsClock) : c.advance = c.advanceBy 1 := by
  simp only [advance, advanceBy, Nat.one_mul]

end MsClock

namespace Engine

/-! ## Idle ticks -/

section Idle

variable {σ : Type} {e : Engine σ}

theorem isIdle_iff :
    e.isIdle = true ↔ (((((e.tracksActive = 0 ∧ e.masterFade.ticks = 0) ∧ e.cdFade.ticks = 0) ∧
      e.toRelease = 0) ∧ e.toMute = 0) ∧ ∀ v, (e.voice v).active = false) := by
  have hvoices : e.voices.voices.all (!·.active) = true ↔ ∀ v, (e.voice v).active = false := by
    simp only [Array.all_eq_true, Bool.not_eq_true']
    constructor
    · intro h v
      by_cases hv : v < e.voices.voices.size
      · simpa [voice, VoicePool.voice, Array.getD_eq_getD_getElem?, hv] using h v hv
      · simp [voice, VoicePool.voice, Array.getD_eq_getD_getElem?, hv]
    · intro h v hv
      simpa [voice, VoicePool.voice, Array.getD_eq_getD_getElem?, hv] using h v
  simp only [isIdle, Bool.and_eq_true, beq_iff_eq, hvoices]

/-- An idle engine stays so. -/
@[simp] theorem isIdle_idleFor (n : Nat) : (e.idleFor n).isIdle = e.isIdle := by
  cases e
  dsimp only [idleFor, isIdle]

@[simp] theorem tracksActive_idleFor (n : Nat) :
    (e.idleFor n).tracksActive = e.tracksActive := by
  cases e
  dsimp only [idleFor]

/-- Where no voice is in use, there is none to free. -/
theorem foldl_freeVoice_of_idle (h : ∀ v, (e.voice v).active = false) (q : Engine σ → Nat → Bool)
    (l : List Nat) : l.foldl (fun e v => if q e v then e.freeVoice v else e) e = e := by
  induction l with
  | nil => rfl
  | cons v l ih =>
    rw [List.foldl_cons, freeVoice_of_idle (h v), ite_self]
    exact ih

end Idle

section Recorder

variable {e : Engine RecorderChip}

/-- There is nothing to free and nothing to flush. -/
theorem serviceVoices_of_isIdle (h : e.isIdle = true) : e.serviceVoices = e := by
  obtain ⟨⟨⟨-, hrelease⟩, hmute⟩, hvoices⟩ := isIdle_iff.mp h
  have hexpired : e.freeExpired = e :=
    foldl_freeVoice_of_idle hvoices (fun d v => (d.voice v).expired e.clock.ms) _
  have hflushed : e.flushReleases = e := by
    have hnone : e.toRelease ||| e.toMute = 0 := by
      rw [hrelease, hmute]
      rfl
    unfold flushReleases
    dsimp only
    rw [if_pos hmute, if_pos hnone]
    cases e
    simp_all
  unfold serviceVoices
  rw [hexpired, hflushed]
  exact foldl_freeVoice_of_idle hvoices
    (fun d v => (SoundChip.pollKeys e.chip).1 v = .off && (d.voice v).active) _

/-- A tick only counts. -/
theorem tick_of_isIdle (h : e.isIdle = true) : e.tick = e.idleFor 1 := by
  obtain ⟨⟨⟨⟨⟨hnone, hmaster⟩, hcd⟩, -⟩, -⟩, -⟩ := isIdle_iff.mp h
  have hfades : ∀ f : Fade, f.ticks = 0 → f.step = (none, f) := by
    intro f hf
    unfold Fade.step Fade.step?
    rw [hf]
  have hstart : e.beforeTracks = e.idleFor 1 := by
    unfold beforeTracks fadeMaster fadeCd idleFor
    simp only [hfades _ hmaster, hfades _ hcd, MsClock.advance_eq]
  have hupkeep : (e.idleFor 1).serviceVoices = e.idleFor 1 :=
    serviceVoices_of_isIdle ((isIdle_idleFor 1).trans h)
  rw [tick_eq, beforeUpkeep_eq_beforeTracks, hstart, tracksActive_idleFor, if_pos hnone, hupkeep]

end Recorder

theorem idleFor_add {σ : Type} (e : Engine σ) (m n : Nat) :
    e.idleFor (m + n) = (e.idleFor m).idleFor n := by
  cases e
  simp only [idleFor, MsClock.advanceBy_add, Nat.add_assoc]

/-- So do many. -/
theorem iterate_tick_of_isIdle (n : Nat) :
    ∀ {e : Engine RecorderChip}, e.isIdle = true → Engine.tick^[n + 1] e = e.idleFor (n + 1) := by
  induction n with
  | zero =>
    intro e h
    rw [Nat.zero_add, Function.iterate_one, tick_of_isIdle h]
  | succ n ih =>
    intro e h
    rw [Function.iterate_succ_apply, tick_of_isIdle h, ih ((isIdle_idleFor 1).trans h),
      ← idleFor_add, Nat.add_comm 1]

/-- Many ticks at once are as many ticks. -/
theorem ticksFor_eq : ∀ (n : Nat) (e : Engine RecorderChip), e.ticksFor n = Engine.tick^[n] e
  | 0, _ => rfl
  | n + 1, e => by
    unfold ticksFor
    split
    · next h => exact (iterate_tick_of_isIdle n h).symm
    · rw [ticksFor_eq n, Function.iterate_succ_apply]

theorem ticksFor_of_isIdle {e : Engine RecorderChip} (h : e.isIdle = true) {n : Nat}
    (hn : n ≠ 0) : e.ticksFor n = e.idleFor n := by
  obtain ⟨n, rfl⟩ := Nat.exists_eq_succ_of_ne_zero hn
  rw [ticksFor, if_pos h]

end Engine

namespace Session

theorem run_replicate_tick (n : Nat) : ∀ s : Session RecorderChip,
    s.run (List.replicate n .tick) = s.withEngine (s.engine.ticksFor n) := by
  induction n with
  | zero => exact fun _ => rfl
  | succ n ih =>
    intro s
    have hsame : ∀ e, (s.perform .tick).withEngine e = s.withEngine e := fun _ => by
      simp only [perform, withEngine]
    rw [List.replicate_succ, run_cons, ih, hsame, engine_tick, Engine.ticksFor_eq,
      Engine.ticksFor_eq, Function.iterate_succ_apply]

end Session

end SoundSequencer
