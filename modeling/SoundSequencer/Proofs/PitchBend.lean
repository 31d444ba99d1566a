/-
SoundSequencer.Proofs.PitchBend — note registers under a bend.

* `registerSteps` reads a note register in 128ths of a semitone, `bendSteps` is how many of
  them a bend leads away from its note.
* `steps_bendUp` and `steps_bendDown` give the register of a bent note. A bend upward is exact;
  one downward is too, unless it leads to a whole semitone: then it reads one semitone low.
* `voiceNote_bend` says this of all notes, bends and patches, with what follows for bends of
  different width.
-/
import Mathlib.Algebra.GroupWithZero.Nat
import Mathlib.Algebra.Ring.Int.Defs
import Mathlib.Tactic.Common
import SoundSequencer.Proofs.Machine

namespace SoundSequencer.Voice

/-- What a note register says, in 128ths of a semitone: the high byte counts semitones. -/
def registerSteps (register : UInt16) : Nat :=
  128 * (register.toNat / 256) + register.toNat % 256

/-- How far a bend leads in 128ths of a semitone, rounded to the nearest. -/
def bendSteps (pitch : Int16) (step : UInt8) : Nat :=
  (32 + pitch.toInt.natAbs * step.toNat) / 64

/-! ## Registers -/

theorem registerSteps_noteRegister (semitone fine : UInt8) :
    registerSteps (noteRegister semitone fine) = 128 * semitone.toNat + fine.toNat := by
  have hfine := fine.toNat_lt
  rw [registerSteps, toNat_noteRegister]
  omega

/-- Registers with a low byte of seven bits are in the order of what they say. -/
theorem register_le {r s : UInt16} (hr : r.toNat % 256 < 128) (hs : s.toNat % 256 < 128)
    (h : registerSteps r ≤ registerSteps s) : r ≤ s := by
  unfold registerSteps at h
  rw [UInt16.le_iff_toNat_le]
  omega

/-! ## Bends -/

section Bend

variable {pitch : Int16} (note : UInt8) (patch : PatchVoice)

/-- A bend in 8192ths of a semitone, taken apart as one in 128ths. -/
theorem div_of_bend (bend : Nat) :
    bend / 8192 = bend / 64 / 128 ∧ bend % 8192 / 64 = bend / 64 % 128 := by
  omega

theorem voiceNote_up (h : 0 < pitch) :
    voiceNote note pitch patch =
      noteRegister (note + UInt8.ofNat (bendSteps pitch patch.bendUp / 128))
        (UInt8.ofNat (bendSteps pitch patch.bendUp % 128)) := by
  have hne : pitch ≠ 0 := by
    rintro rfl
    exact absurd h (by decide)
  obtain ⟨hsemitones, hfine⟩ := div_of_bend (32 + pitch.toInt.natAbs * patch.bendUp.toNat)
  unfold voiceNote
  dsimp only
  rw [if_neg hne, if_pos h, hsemitones, hfine]
  rfl

theorem voiceNote_down (h : pitch < 0) :
    voiceNote note pitch patch =
      noteRegister (note - UInt8.ofNat (bendSteps pitch patch.bendDown / 128 + 1))
        (UInt8.ofNat ((128 - bendSteps pitch patch.bendDown % 128) % 128)) := by
  have hne : pitch ≠ 0 := by
    rintro rfl
    exact absurd h (by decide)
  have hup : ¬ 0 < pitch := by
    rw [Int16.lt_iff_toInt_lt] at h ⊢
    omega
  obtain ⟨hsemitones, hfine⟩ := div_of_bend (32 + pitch.toInt.natAbs * patch.bendDown.toNat)
  unfold voiceNote
  dsimp only
  rw [if_neg hne, if_neg hup, hsemitones, hfine]
  rfl

/-- A bend upward adds its steps, the high byte wrapping. -/
theorem steps_bendUp (h : 0 < pitch) :
    registerSteps (voiceNote note pitch patch) =
      (128 * note.toNat + bendSteps pitch patch.bendUp) % 2 ^ 15 := by
  rw [voiceNote_up note patch h, registerSteps_noteRegister, UInt8.toNat_add, UInt8.toNat_ofNat',
    UInt8.toNat_ofNat']
  omega

/-- A bend downward takes its steps away, and another semitone when it leads to a whole one. -/
theorem steps_bendDown (h : pitch < 0) :
    (registerSteps (voiceNote note pitch patch) : Int) =
      (128 * note.toNat - bendSteps pitch patch.bendDown -
        (if 128 ∣ bendSteps pitch patch.bendDown then 128 else 0)) % 2 ^ 15 := by
  rw [voiceNote_down note patch h, registerSteps_noteRegister, UInt8.toNat_sub,
    UInt8.toNat_ofNat', UInt8.toNat_ofNat']
  have hnote := note.toNat_lt
  split <;> omega

/-- The low byte of a bent note has seven bits. -/
theorem low_of_bend (h : pitch ≠ 0) : (voiceNote note pitch patch).toNat % 256 < 128 := by
  by_cases hup : 0 < pitch
  · rw [voiceNote_up note patch hup, toNat_noteRegister, UInt8.toNat_ofNat']
    omega
  · have hdown : pitch < 0 := by
      rw [Int16.lt_iff_toInt_lt] at hup ⊢
      have hzero : pitch.toInt ≠ (0 : Int16).toInt := fun heq => h (Int16.toInt_inj.mp heq)
      omega
    rw [voiceNote_down note patch hdown, toNat_noteRegister, UInt8.toNat_ofNat']
    omega

end Bend

/-- A wider bend leads as far or further. -/
theorem bendSteps_le {pitch wider : Int16} (h : pitch.toInt.natAbs ≤ wider.toInt.natAbs)
    (step : UInt8) : bendSteps pitch step ≤ bendSteps wider step :=
  Nat.div_le_div_right (Nat.add_le_add_left (Nat.mul_le_mul_right _ h) 32)

theorem natAbs_le_of_up {pitch wider : Int16} (h : 0 < pitch) (hwider : pitch ≤ wider) :
    pitch.toInt.natAbs ≤ wider.toInt.natAbs := by
  rw [Int16.lt_iff_toInt_lt, Int16.toInt_zero] at h
  rw [Int16.le_iff_toInt_le] at hwider
  omega

theorem natAbs_le_of_down {pitch wider : Int16} (hwider : wider ≤ pitch) (h : pitch < 0) :
    pitch.toInt.natAbs ≤ wider.toInt.natAbs := by
  rw [Int16.lt_iff_toInt_lt, Int16.toInt_zero] at h
  rw [Int16.le_iff_toInt_le] at hwider
  omega

/-- Bent notes in 128ths of a semitone, as they are computed in words of 32 bits. A bend upward
adds its steps to the note and one downward takes them away; only a bend downward by whole
semitones reads a semitone lower than that. The fine part never spills over into the semitones,
so a wider bend leads further as long as the semitones do not wrap. -/
theorem voiceNote_bend (note : UInt8) (patch : PatchVoice) :
    (∀ pitch, Machine.voiceNote note pitch patch = .ok (voiceNote note pitch patch)) ∧
    (∀ pitch : Int16, 0 < pitch →
      registerSteps (voiceNote note pitch patch) =
        (128 * note.toNat + bendSteps pitch patch.bendUp) % 2 ^ 15) ∧
    (∀ pitch : Int16, pitch < 0 →
      (registerSteps (voiceNote note pitch patch) : Int) =
        (128 * note.toNat - bendSteps pitch patch.bendDown -
          (if 128 ∣ bendSteps pitch patch.bendDown then 128 else 0)) % 2 ^ 15) ∧
    (∀ pitch : Int16, pitch ≠ 0 → (voiceNote note pitch patch).toNat % 256 < 128) ∧
    (∀ pitch wider : Int16, 0 < pitch → pitch ≤ wider →
      128 * note.toNat + bendSteps wider patch.bendUp < 2 ^ 15 →
        voiceNote note pitch patch ≤ voiceNote note wider patch) ∧
    ∀ wider pitch : Int16, wider ≤ pitch → pitch < 0 →
      ¬ 128 ∣ bendSteps wider patch.bendDown → ¬ 128 ∣ bendSteps pitch patch.bendDown →
        bendSteps wider patch.bendDown ≤ 128 * note.toNat →
          voiceNote note wider patch ≤ voiceNote note pitch patch := by
  refine ⟨fun pitch => Machine.voiceNote_eq note pitch patch,
    fun pitch => steps_bendUp note patch, fun pitch => steps_bendDown note patch,
    fun pitch => low_of_bend note patch, ?_, ?_⟩
  · intro pitch wider hup hwider hfits
    have hwiderUp : 0 < wider := Int16.lt_of_lt_of_le hup hwider
    have hsteps := bendSteps_le (natAbs_le_of_up hup hwider) patch.bendUp
    refine register_le (low_of_bend note patch (Int16.ne_of_lt hup).symm)
      (low_of_bend note patch (Int16.ne_of_lt hwiderUp).symm) ?_
    rw [steps_bendUp note patch hup, steps_bendUp note patch hwiderUp]
    omega
  · intro wider pitch hwider hdown hwide hnarrow hfits
    have hwiderDown : wider < 0 := Int16.lt_of_le_of_lt hwider hdown
    have hsteps := bendSteps_le (natAbs_le_of_down hwider hdown) patch.bendDown
    have hpitch := steps_bendDown note patch hdown
    have hbound := steps_bendDown note patch hwiderDown
    rw [if_neg hnarrow] at hpitch
    rw [if_neg hwide] at hbound
    have hnote := note.toNat_lt
    refine register_le (low_of_bend note patch (Int16.ne_of_lt hwiderDown))
      (low_of_bend note patch (Int16.ne_of_lt hdown)) ?_
    omega

/-- Middle C under bends of four 8192ths of a semitone a step: upward, downward by a whole
semitone, and a wider bend beside a narrower one each way. -/
theorem voiceNote_bend_middleC :
    registerSteps (voiceNote 60 1000 { bendUp := 4 }) = 128 * 60 + 63 ∧
    (registerSteps (voiceNote 60 (-2048) { bendDown := 4 }) : Int) = 128 * 60 - 128 - 128 ∧
    (voiceNote 60 (-1000) { bendDown := 4 }).toNat % 256 < 128 ∧
    voiceNote 60 1000 { bendUp := 4 } ≤ voiceNote 60 4096 { bendUp := 4 } ∧
    voiceNote 60 (-1000) { bendDown := 4 } ≤ voiceNote 60 (-500) { bendDown := 4 } := by
  obtain ⟨-, hup, -, -, hrises, -⟩ := voiceNote_bend 60 { bendUp := 4 }
  obtain ⟨-, -, hdown, hlow, -, hfalls⟩ := voiceNote_bend 60 { bendDown := 4 }
  exact ⟨(hup 1000 (by decide)).trans (by decide), (hdown (-2048) (by decide)).trans (by decide),
    hlow (-1000) (by decide), hrises 1000 4096 (by decide) (by decide) (by decide),
    hfalls (-1000) (-500) (by decide) (by decide) (by decide) (by decide) (by decide)⟩

end SoundSequencer.Voice
