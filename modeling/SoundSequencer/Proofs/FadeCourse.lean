/-
SoundSequencer.Proofs.FadeCourse — the course of a fade.

* `Fade.after` is a fade some steps later: on its way it has gone as many strides as steps
  (`after_of_lt`), at its end it is at its target (`after_of_le`).
* `way_rises` and `way_falls` say that a fade goes straight on, `volume_near` that it keeps
  near the line from its first volume to its target.
* `start_linear` puts the course of a fade together, from its first volume to its end.
-/
import Mathlib.Algebra.Order.Field.Rat
import Mathlib.Algebra.Order.Field.Basic
import Mathlib.Algebra.Order.Ring.Abs
import Mathlib.Tactic.FieldSimp
import Mathlib.Tactic.LinearCombination
import Mathlib.Tactic.Ring
import SoundSequencer.Proofs.Machine

namespace SoundSequencer

namespace Fade

/-! ## Steps -/

/-- The fade `k` steps later. -/
def after (f : Fade) : (k : Nat) → Fade
  | 0 => f
  | k + 1 => (f.after k).step.2

/-- A fade without steps left stays as it is. -/
theorem step_of_over {f : Fade} (h : f.ticks = 0) : f.step = (none, f) := by
  unfold step step?
  rw [h]

/-- A step with more to come adds the stride. -/
theorem step_of_more {f : Fade} (h : 1 < f.ticks) :
    f.step.2 = { f with value := f.value + f.stride, ticks := f.ticks - 1 } := by
  obtain ⟨left, hleft⟩ := Nat.exists_eq_add_of_lt h
  have hticks : f.ticks = left + 2 := by omega
  unfold step step?
  simp only [hticks]
  rfl

/-- The last step lands on the target. -/
theorem step_of_last {f : Fade} (h : f.ticks = 1) :
    f.step.2 = { f with value := f.target, ticks := 0 } := by
  unfold step step?
  rw [h]

/-- As long as a fade goes on, every step tells the volume that it leads to. -/
theorem step_fst {f : Fade} (h : 0 < f.ticks) : f.step.1 = some f.step.2.volume := by
  obtain ⟨left, hleft⟩ := Nat.exists_eq_succ_of_ne_zero (Nat.ne_of_gt h)
  unfold step step?
  rw [hleft]
  cases left with
  | zero => rfl
  | succ left => rfl

/-- On its way a fade has gone as many strides as steps. -/
theorem after_of_lt {f : Fade} {k : Nat} (h : k < f.ticks) :
    f.after k = { f with value := f.value + k * f.stride, ticks := f.ticks - k } := by
  induction k with
  | zero => simp [after]
  | succ k ih =>
    have hbefore := ih (Nat.lt_of_succ_lt h)
    have hmore : 1 < (f.after k).ticks := by
      rw [hbefore]
      exact Nat.lt_sub_of_add_lt (Nat.add_comm k 1 ▸ h)
    have hvalue : f.value + k * f.stride + f.stride = f.value + (k + 1 : Nat) * f.stride := by
      push_cast
      ring
    rw [after, step_of_more hmore, hbefore]
    simp only [hvalue, Nat.sub_sub]

/-- At its end a fade is at its target, and there it stays. -/
theorem after_of_le {f : Fade} (hpos : 0 < f.ticks) {k : Nat} (h : f.ticks ≤ k) :
    f.after k = { f with value := f.target, ticks := 0 } := by
  induction k, h using Nat.le_induction with
  | base =>
    have hleft : f.ticks = (f.ticks - 1) + 1 := (Nat.sub_add_cancel hpos).symm
    have hway := after_of_lt (Nat.sub_lt hpos Nat.one_pos)
    have hlast : (f.after (f.ticks - 1)).ticks = 1 := by
      rw [hway]
      exact Nat.sub_sub_self hpos
    rw [hleft, after, step_of_last hlast, hway]
  | succ k _ ih => rw [after, step_of_over (by rw [ih]), ih]

theorem ticks_after {f : Fade} (hpos : 0 < f.ticks) (k : Nat) :
    (f.after k).ticks = f.ticks - k := by
  rcases Nat.lt_or_ge k f.ticks with h | h
  · rw [after_of_lt h]
  · rw [after_of_le hpos h]
    exact (Nat.sub_eq_zero_of_le h).symm

/-! ## The way of a fade -/

/-- Where equal steps, rounded toward zero, have led on the way from `a` to `b` after `k` of
`ticks`; the last is as long as it has to be. -/
def way (a b : Int) (ticks k : Nat) : Int :=
  if k < ticks then a + k * (b - a).tdiv ticks else b

theorem way_zero (a b : Int) {ticks : Nat} (hpos : 0 < ticks) : way a b ticks 0 = a := by
  rw [way, if_pos hpos]
  simp

theorem way_neg (a b : Int) (ticks k : Nat) : way (-a) (-b) ticks k = -way a b ticks k := by
  have hback : -b - -a = -(b - a) := by omega
  unfold way
  split
  · rw [hback, Int.neg_tdiv, Int.mul_neg]
    omega
  · rfl

/-- A way upward never leads down, nor past its end. -/
theorem way_rises {a b : Int} (hup : a ≤ b) (ticks : Nat) {j k : Nat} (hjk : j ≤ k) :
    way a b ticks j ≤ way a b ticks k ∧ way a b ticks k ≤ b := by
  have hway : 0 ≤ b - a := Int.sub_nonneg_of_le hup
  have hend : ∀ k, way a b ticks k ≤ b := by
    intro k
    unfold way
    split
    · next hk =>
      have hpart := steps_mem (Int.natCast_nonneg k) (Int.ofNat_le.mpr (Nat.le_of_lt hk)) hway
      omega
    · exact Int.le_refl b
  refine ⟨?_, hend k⟩
  by_cases hk : k < ticks
  · have hstride := Int.tdiv_nonneg hway (Int.natCast_nonneg ticks)
    have hmore := Int.mul_le_mul_of_nonneg_right (Int.ofNat_le.mpr hjk) hstride
    rw [way, way, if_pos hk, if_pos (Nat.lt_of_le_of_lt hjk hk)]
    omega
  · have hover : way a b ticks k = b := if_neg hk
    rw [hover]
    exact hend j

/-- A way downward is the mirror image of one upward. -/
theorem way_falls {a b : Int} (hdown : b ≤ a) (ticks : Nat) {j k : Nat} (hjk : j ≤ k) :
    b ≤ way a b ticks k ∧ way a b ticks k ≤ way a b ticks j := by
  have hmirror := way_rises (Int.neg_le_neg hdown) ticks hjk
  rw [way_neg, way_neg] at hmirror
  omega

/-- A way in equal steps leaves a rest of less than one unit a step. -/
theorem abs_tmod_lt (a : Int) {ticks : Nat} (hpos : 0 < ticks) : |a.tmod ticks| < ticks := by
  have hless : (a.tmod ticks).natAbs < ticks := by
    rw [Int.natAbs_tmod]
    exact Nat.mod_lt _ hpos
  rw [Int.abs_eq_natAbs]
  exact_mod_cast hless

/-- Each step on the way adds less than one unit to what lies between the way and a line. -/
theorem way_near (a b : Int) {ticks k : Nat} (hk : k < ticks) :
    |(ticks : Int) * (way a b ticks k - a) - k * (b - a)| ≤ k * ticks := by
  have hpos : 0 < ticks := Nat.zero_lt_of_lt hk
  have hsplit := Int.mul_tdiv_add_tmod (b - a) ticks
  have hoff : (ticks : Int) * (way a b ticks k - a) - k * (b - a) =
      -(k * (b - a).tmod ticks) := by
    rw [way, if_pos hk]
    linear_combination (k : Int) * hsplit
  rw [hoff, abs_neg, abs_mul, Nat.abs_cast]
  exact Int.mul_le_mul_of_nonneg_left (Int.le_of_lt (abs_tmod_lt _ hpos)) (Int.natCast_nonneg k)

/-! ## Volumes -/

theorem fadeTicks_pos (ms : UInt32) : 0 < fadeTicks ms := Nat.succ_pos _

theorem value_after_start (current dest : Int16) (ms : UInt32) (k : Nat) :
    ((start current ms dest).after k).value =
      way (current.toInt * scale) (dest.toInt * scale) (fadeTicks ms) k := by
  unfold way
  split
  · next hk =>
    rw [after_of_lt (f := start current ms dest) hk]
    rfl
  · next hk =>
    rw [after_of_le (f := start current ms dest) (fadeTicks_pos ms) (Nat.le_of_not_lt hk)]
    rfl

/-- Between volumes that are not negative, so are the values of a fade. -/
theorem way_mem {current dest : Int16} (hcurrent : 0 ≤ current.toInt) (hdest : 0 ≤ dest.toInt)
    (ms : UInt32) (k : Nat) :
    0 ≤ way (current.toInt * scale) (dest.toInt * scale) (fadeTicks ms) k ∧
      way (current.toInt * scale) (dest.toInt * scale) (fadeTicks ms) k < 2 ^ 31 := by
  have hc := current.toInt_lt
  have hd := dest.toInt_lt
  have hstart := way_zero (current.toInt * scale) (dest.toInt * scale) (fadeTicks_pos ms)
  unfold scale at *
  rcases Int.le_total current.toInt dest.toInt with hup | hdown
  · have hrises := way_rises (a := current.toInt * 65536) (b := dest.toInt * 65536) (by omega)
      (fadeTicks ms) (Nat.zero_le k)
    omega
  · have hfalls := way_falls (a := current.toInt * 65536) (b := dest.toInt * 65536) (by omega)
      (fadeTicks ms) (Nat.zero_le k)
    omega

/-- The volumes of a fade are its values in whole units. -/
theorem toInt_volume_after {current dest : Int16} (hcurrent : 0 ≤ current.toInt)
    (hdest : 0 ≤ dest.toInt) (ms : UInt32) (k : Nat) :
    ((start current ms dest).after k).volume.toInt =
      way (current.toInt * scale) (dest.toInt * scale) (fadeTicks ms) k / scale := by
  have hrange := way_mem hcurrent hdest ms k
  rw [volume, value_after_start]
  unfold scale at *
  exact Int16.toInt_ofInt_of_le (by omega) (by omega)

/-- A volume on the way is less than a unit away from the line, and a 65536th more for each
step. -/
theorem volume_near (a b : Int) {ticks k : Nat} (hk : k < ticks) :
    |((way (a * scale) (b * scale) ticks k / scale : Int) : Rat) - (a + k * (b - a) / ticks)| <
      1 + k / 65536 := by
  have hscale : scale = 65536 := rfl
  rw [hscale]
  generalize hw : way (a * 65536) (b * 65536) ticks k = w
  generalize hv : w / 65536 = v
  have hnear := abs_le.mp (hw ▸ way_near (a * 65536) (b * 65536) hk)
  have hticks : 0 < (ticks : Int) := by exact_mod_cast Nat.zero_lt_of_lt hk
  -- the same in whole numbers, times all that is divided by
  have hwhole : |(ticks : Int) * 65536 * (v - a) - 65536 * (k * (b - a))| <
      ticks * 65536 + k * ticks := by
    have hfloor : v * 65536 ≤ w ∧ w < v * 65536 + 65536 := by omega
    have hlow := Int.mul_le_mul_of_nonneg_left hfloor.1 (Int.le_of_lt hticks)
    have hhigh := Int.mul_lt_mul_of_pos_left hfloor.2 hticks
    rw [abs_lt]
    constructor <;> linarith
  have hpos : (0 : Rat) < ticks := by exact_mod_cast hticks
  have hoff : (v : Rat) - (a + k * (b - a) / ticks) =
      ((ticks : Int) * 65536 * (v - a) - 65536 * (k * (b - a)) : Int) / (ticks * 65536) := by
    push_cast
    field_simp
    ring
  have hbound : (1 : Rat) + k / 65536 = (ticks * 65536 + k * ticks : Int) / (ticks * 65536) := by
    push_cast
    field_simp
  rw [hoff, hbound, abs_div, abs_of_pos (by positivity : (0 : Rat) < ticks * 65536)]
  exact div_lt_div_of_pos_right (by exact_mod_cast hwhole) (by positivity)

/-! ## The course of a fade -/

/-- A fade that takes so many ticks straight from one volume to another. `after k` is where
its first `k` steps lead to. -/
structure Linear (f : Fade) (ticks : Nat) (current dest : Int16) : Prop where
  starts : (f.after 0).volume = current
  /-- As many steps as the fade has ticks tell the volume that they lead to. -/
  tells : ∀ k, (f.after k).step.1 = if k < ticks then some (f.after (k + 1)).volume else none
  lands : (f.after ticks).volume = dest
  rises : current.toInt ≤ dest.toInt → ∀ j k, j ≤ k → k ≤ ticks →
    current.toInt ≤ (f.after j).volume.toInt ∧
      (f.after j).volume.toInt ≤ (f.after k).volume.toInt ∧
        (f.after k).volume.toInt ≤ dest.toInt
  falls : dest.toInt ≤ current.toInt → ∀ j k, j ≤ k → k ≤ ticks →
    dest.toInt ≤ (f.after k).volume.toInt ∧
      (f.after k).volume.toInt ≤ (f.after j).volume.toInt ∧
        (f.after j).volume.toInt ≤ current.toInt
  near : ∀ k < ticks,
    |((f.after k).volume.toInt : Rat) -
      (current.toInt + k * (dest.toInt - current.toInt) / ticks)| < 1 + k / 65536
  active : ∀ k, (f.after k).isActive = true ↔ k + 1 < ticks

theorem fits_after {f : Fade} (h : f.Fits) (k : Nat) : (f.after k).Fits := by
  induction k with
  | zero => exact h
  | succ k ih => exact fits_step ih

/-- Between volumes that are not negative a fade is linear, and a machine of thirty-two bits
computes its start and all of its steps. -/
theorem start_linear {current dest : Int16} (hcurrent : 0 ≤ current.toInt)
    (hdest : 0 ≤ dest.toInt) (ms : UInt32) :
    (start current ms dest).Linear (fadeTicks ms) current dest ∧
      Machine.startFade current ms dest = .ok (start current ms dest) ∧
      ∀ k, Machine.stepFade ((start current ms dest).after k) =
        .ok ((start current ms dest).after k).step := by
  have hticks : (start current ms dest).ticks = fadeTicks ms := rfl
  have hpos : 0 < (start current ms dest).ticks := fadeTicks_pos ms
  have hvolume := toInt_volume_after hcurrent hdest ms
  have hscale : ∀ a : Int, a * scale / scale = a := fun a => Int.mul_ediv_cancel a (by decide)
  have hstarts : ((start current ms dest).after 0).volume.toInt = current.toInt := by
    rw [hvolume, way_zero _ _ (fadeTicks_pos ms), hscale]
  have hlands : ((start current ms dest).after (fadeTicks ms)).volume.toInt = dest.toInt := by
    rw [hvolume, way, if_neg (Nat.lt_irrefl _), hscale]
  have hup : current.toInt ≤ dest.toInt → ∀ {j k}, j ≤ k →
      ((start current ms dest).after j).volume.toInt ≤
        ((start current ms dest).after k).volume.toInt := by
    intro h j k hjk
    rw [hvolume, hvolume]
    exact Int.ediv_le_ediv (by decide)
      (way_rises (Int.mul_le_mul_of_nonneg_right h (by decide)) _ hjk).1
  have hdown : dest.toInt ≤ current.toInt → ∀ {j k}, j ≤ k →
      ((start current ms dest).after k).volume.toInt ≤
        ((start current ms dest).after j).volume.toInt := by
    intro h j k hjk
    rw [hvolume, hvolume]
    exact Int.ediv_le_ediv (by decide)
      (way_falls (Int.mul_le_mul_of_nonneg_right h (by decide)) _ hjk).2
  refine ⟨?_, Machine.startFade_eq hcurrent hdest ms,
    fun k => Machine.stepFade_eq (fits_after (fits_start hcurrent hdest ms) k)⟩
  constructor
  case starts => exact Int16.toInt_inj.mp hstarts
  case tells =>
    intro k
    split
    · next hk =>
      refine step_fst ?_
      rw [ticks_after hpos]
      exact Nat.sub_pos_of_lt hk
    · next hk =>
      rw [after_of_le hpos (Nat.le_of_not_lt hk), step_of_over rfl]
  case lands => exact Int16.toInt_inj.mp hlands
  case rises =>
    intro h j k hjk hk
    exact ⟨hstarts ▸ hup h (Nat.zero_le j), hup h hjk, hlands ▸ hup h hk⟩
  case falls =>
    intro h j k hjk hk
    exact ⟨hlands ▸ hdown h hk, hdown h hjk, hstarts ▸ hdown h (Nat.zero_le j)⟩
  case near =>
    intro k hk
    rw [hvolume]
    exact volume_near _ _ hk
  case active =>
    intro k
    rw [isActive, decide_eq_true_eq, ticks_after hpos, hticks]
    omega

/-- A fade down to silence in a tenth of a second. -/
theorem start_linear_down : 0 ≤ (1000 : Int16).toInt ∧ 0 ≤ (0 : Int16).toInt ∧
    (start 1000 100 0).Linear 13 1000 0 :=
  ⟨by decide, by decide, (start_linear (by decide) (by decide) 100).1⟩

end Fade

end SoundSequencer
