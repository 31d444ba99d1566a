/-
SoundSequencer.Proofs.StereoLevels — the two channels of a voice.

* A `Mix` is what the levels of a voice depend on: four levels and two pans. `Mix.levels` are
  its channels, `Mix.shares` the parts of its loudness that they get.
* `toInt_levels` says that nothing is lost on the way to sixteen bits.
* `levels_inRange` says what follows for a mix of levels of seven bits: how loud its channels
  are together and apart, and which way each goes when a level or a pan does.
-/
import SoundSequencer.Proofs.Machine

namespace SoundSequencer

namespace Voice

/-- What the levels of a voice depend on. -/
structure Mix where
  velocity : UInt8
  patchVolume : UInt8
  trackVolume : UInt8
  master : UInt8
  trackPan : UInt8
  patchPan : UInt8
  deriving Repr, DecidableEq

namespace Mix

/-- The loudness of a mix. -/
def volume (m : Mix) : UInt32 := voiceVolume m.velocity m.patchVolume m.trackVolume m.master

/-- The pan of a mix. -/
def pan (m : Mix) (mode : PanMode) : Int := voicePan m.trackPan m.patchPan mode

/-- The left and the right level of a mix. -/
def levels (m : Mix) (mode : PanMode) : Int16 × Int16 := stereoLevels m.volume (m.pan mode) mode

/-- What the left and the right level are times the loudness. -/
def shares (m : Mix) (mode : PanMode) : Int × Int :=
  match mode with
  | .off => (64, 64)
  | .on => (128 - m.pan .on, m.pan .on + 1)
  | .reversed => (m.pan .on + 1, 128 - m.pan .on)

/-- The four levels have seven bits. The pans may be any. -/
structure InRange (m : Mix) : Prop where
  velocity : m.velocity.toNat ≤ 127
  patchVolume : m.patchVolume.toNat ≤ 127
  trackVolume : m.trackVolume.toNat ≤ 127
  master : m.master.toNat ≤ 127

/-- None of the four levels is higher than in `m`, and the pans are the same. -/
structure Softer (soft m : Mix) : Prop where
  velocity : soft.velocity.toNat ≤ m.velocity.toNat
  patchVolume : soft.patchVolume.toNat ≤ m.patchVolume.toNat
  trackVolume : soft.trackVolume.toNat ≤ m.trackVolume.toNat
  master : soft.master.toNat ≤ m.master.toNat
  trackPan : soft.trackPan = m.trackPan
  patchPan : soft.patchPan = m.patchPan

/-- Neither pan is further left than in `m`, and the four levels are the same. -/
structure Righter (right m : Mix) : Prop where
  velocity : right.velocity = m.velocity
  patchVolume : right.patchVolume = m.patchVolume
  trackVolume : right.trackVolume = m.trackVolume
  master : right.master = m.master
  trackPan : m.trackPan.toNat ≤ right.trackPan.toNat
  patchPan : m.patchPan.toNat ≤ right.patchPan.toNat

/-! ## Loudness -/

/-- The product of the four levels. -/
def product (m : Mix) : Nat :=
  m.velocity.toNat * m.patchVolume.toNat * m.trackVolume.toNat * m.master.toNat

/-- The product fits into the thirty-two bits that it is computed in. -/
theorem toNat_volume (m : Mix) : m.volume.toNat = m.product / volumeScale := by
  have hvelocity := Nat.le_of_lt_succ m.velocity.toNat_lt
  have hproduct : m.product ≤ 255 * 255 * 255 * 255 :=
    Machine.mul_toNat_le (Machine.mul_toNat_le (Machine.mul_toNat_le hvelocity m.patchVolume)
      m.trackVolume) m.master
  show (UInt32.ofNat (m.product / volumeScale)).toNat = _
  rw [UInt32.toNat_ofNat']
  exact Nat.mod_eq_of_lt (Nat.lt_of_le_of_lt (Nat.div_le_self _ _)
    (Nat.lt_of_le_of_lt hproduct (by decide)))

theorem Softer.volume_le {soft m : Mix} (h : soft.Softer m) :
    soft.volume.toNat ≤ m.volume.toNat := by
  rw [toNat_volume, toNat_volume]
  refine Nat.div_le_div_right ?_
  exact Nat.mul_le_mul (Nat.mul_le_mul (Nat.mul_le_mul h.velocity h.patchVolume) h.trackVolume)
    h.master

theorem Softer.inRange {soft m : Mix} (h : soft.Softer m) (hm : m.InRange) : soft.InRange :=
  ⟨Nat.le_trans h.velocity hm.velocity, Nat.le_trans h.patchVolume hm.patchVolume,
    Nat.le_trans h.trackVolume hm.trackVolume, Nat.le_trans h.master hm.master⟩

theorem Righter.volume_eq {right m : Mix} (h : right.Righter m) : right.volume = m.volume := by
  unfold volume
  rw [h.velocity, h.patchVolume, h.trackVolume, h.master]

theorem Righter.inRange {right m : Mix} (h : right.Righter m) (hm : m.InRange) :
    right.InRange :=
  ⟨h.velocity ▸ hm.velocity, h.patchVolume ▸ hm.patchVolume, h.trackVolume ▸ hm.trackVolume,
    h.master ▸ hm.master⟩

theorem InRange.volume_le {m : Mix} (h : m.InRange) : m.volume.toNat ≤ 124 := by
  have hproduct : m.product ≤ 127 * 127 * 127 * 127 :=
    Nat.mul_le_mul (Nat.mul_le_mul (Nat.mul_le_mul h.velocity h.patchVolume) h.trackVolume)
      h.master
  rw [toNat_volume]
  exact Nat.div_le_div_right hproduct

/-! ## Channels -/

theorem shares_mem (m : Mix) (mode : PanMode) :
    (0 ≤ (m.shares mode).1 ∧ (m.shares mode).1 ≤ 128) ∧
      0 ≤ (m.shares mode).2 ∧ (m.shares mode).2 ≤ 128 := by
  have hpan := Machine.voicePan_mem m.trackPan m.patchPan .on
  cases mode <;> simp only [shares, pan] <;> omega

theorem Softer.shares_eq {soft m : Mix} (h : soft.Softer m) (mode : PanMode) :
    soft.shares mode = m.shares mode := by
  unfold shares pan
  rw [h.trackPan, h.patchPan]

theorem Righter.pan_le {right m : Mix} (h : right.Righter m) : m.pan .on ≤ right.pan .on := by
  have htrack := h.trackPan
  have hpatch := h.patchPan
  simp only [pan, voicePan]
  omega

/-- A share of the loudness fits into sixteen bits. -/
theorem toInt_share {volume : UInt32} (hvolume : volume.toNat ≤ 124) {share : Int}
    (hshare : 0 ≤ share ∧ share ≤ 128) :
    (Int16.ofInt (volume.toInt32.toInt * share)).toInt = volume.toNat * share ∧
      0 ≤ volume.toNat * share ∧ volume.toNat * share ≤ 15872 := by
  have hnonneg := Int.mul_nonneg (Int.natCast_nonneg volume.toNat) hshare.1
  have hmost : (volume.toNat : Int) * share ≤ 124 * 128 :=
    Int.mul_le_mul (by omega) hshare.2 hshare.1 (by decide)
  rw [Machine.toInt_volume (by omega)]
  exact ⟨Int16.toInt_ofInt_of_le (by omega) (by omega), hnonneg, hmost⟩

/-- With pans off a channel is computed in sixteen bits from the start. -/
theorem toInt_half {volume : UInt32} (hvolume : volume.toNat ≤ 124) :
    (volume.toUInt16.toInt16 * 64).toInt = volume.toNat * 64 := by
  have hlow : volume.toUInt16.toNat = volume.toNat := by
    rw [UInt32.toNat_toUInt16]
    exact Nat.mod_eq_of_lt (by omega)
  have hbmod : Int.bmod volume.toUInt16.toNat (2 ^ 16) = volume.toNat := by
    rw [hlow]
    exact Int.bmod_eq_of_le (by omega) (by omega)
  have hsigned : volume.toUInt16.toInt16.toInt = volume.toNat :=
    (BitVec.toInt_eq_toNat_bmod _).trans hbmod
  have hhalf : (64 : Int16).toInt = 64 := rfl
  rw [Int16.toInt_mul, hsigned, hhalf]
  exact Int.bmod_eq_of_le (by omega) (by omega)

/-- Nothing is lost on the way to sixteen bits. -/
theorem toInt_levels {m : Mix} (h : m.InRange) (mode : PanMode) :
    (m.levels mode).1.toInt = m.volume.toNat * (m.shares mode).1 ∧
      (m.levels mode).2.toInt = m.volume.toNat * (m.shares mode).2 := by
  obtain ⟨hleft, hright⟩ := m.shares_mem mode
  cases mode with
  | off => exact ⟨toInt_half h.volume_le, toInt_half h.volume_le⟩
  | on => exact ⟨(toInt_share h.volume_le hleft).1, (toInt_share h.volume_le hright).1⟩
  | reversed => exact ⟨(toInt_share h.volume_le hleft).1, (toInt_share h.volume_le hright).1⟩

/-- A mix of levels of seven bits has both its channels in range, computed without overflow.
With pans on, they add up to 129 times the loudness, and they change places when pans are
reversed; with pans off, they are the same whatever the pans are. No channel gets louder when
a level is lowered. Moved to the right, a sound gets no louder on the left and no softer on
the right. -/
theorem levels_inRange {m : Mix} (h : m.InRange) :
    (∀ mode, Machine.voicePan m.trackPan m.patchPan mode = .ok (m.pan mode) ∧
      Machine.voiceVolume m.velocity m.patchVolume m.trackVolume m.master = .ok m.volume ∧
      Machine.stereoLevels m.volume (m.pan mode) mode = .ok (m.levels mode)) ∧
    (∀ mode, (m.levels mode).1.toInt = m.volume.toNat * (m.shares mode).1 ∧
      (m.levels mode).2.toInt = m.volume.toNat * (m.shares mode).2) ∧
    (∀ mode, (0 ≤ (m.levels mode).1.toInt ∧ (m.levels mode).1.toInt ≤ 15872) ∧
      0 ≤ (m.levels mode).2.toInt ∧ (m.levels mode).2.toInt ≤ 15872) ∧
    (∀ mode, mode ≠ .off →
      (m.levels mode).1.toInt + (m.levels mode).2.toInt = 129 * m.volume.toNat) ∧
    m.levels .reversed = (m.levels .on).swap ∧
    ((m.levels .off).1 = (m.levels .off).2 ∧
      ∀ trackPan patchPan, { m with trackPan, patchPan }.levels .off = m.levels .off) ∧
    (∀ soft : Mix, soft.Softer m → ∀ mode,
      (soft.levels mode).1.toInt ≤ (m.levels mode).1.toInt ∧
        (soft.levels mode).2.toInt ≤ (m.levels mode).2.toInt) ∧
    ∀ right : Mix, right.Righter m →
      (right.levels .on).1.toInt ≤ (m.levels .on).1.toInt ∧
        (m.levels .on).2.toInt ≤ (right.levels .on).2.toInt := by
  have hexact := toInt_levels h
  have hloud := h.volume_le
  have hvolume := Int.natCast_nonneg m.volume.toNat
  refine ⟨fun mode => ⟨Machine.voicePan_eq _ _ mode, Machine.voiceVolume_eq _ _ _ _, ?_⟩, hexact,
    fun mode => ?_, fun mode hmode => ?_, rfl, ⟨rfl, fun _ _ => rfl⟩, fun soft hsoft mode => ?_,
    fun right hright => ?_⟩
  · exact Machine.stereoLevels_eq mode (by omega) (Machine.voicePan_mem _ _ mode)
  · obtain ⟨hleft, hright⟩ := m.shares_mem mode
    rw [(hexact mode).1, (hexact mode).2]
    exact ⟨(toInt_share hloud hleft).2, (toInt_share hloud hright).2⟩
  · have hshares : (m.shares mode).1 + (m.shares mode).2 = 129 := by
      cases mode with
      | off => exact absurd rfl hmode
      | on => simp only [shares]; omega
      | reversed => simp only [shares]; omega
    rw [(hexact mode).1, (hexact mode).2, ← Int.mul_add, hshares, Int.mul_comm]
  · obtain ⟨hleft, hright⟩ := m.shares_mem mode
    have hsofter := toInt_levels (hsoft.inRange h) mode
    have hle : (soft.volume.toNat : Int) ≤ m.volume.toNat := Int.ofNat_le.mpr hsoft.volume_le
    rw [(hexact mode).1, (hexact mode).2, hsofter.1, hsofter.2, hsoft.shares_eq]
    exact ⟨Int.mul_le_mul_of_nonneg_right hle hleft.1,
      Int.mul_le_mul_of_nonneg_right hle hright.1⟩
  · have hrighter := toInt_levels (hright.inRange h) .on
    have hpan := hright.pan_le
    rw [(hexact .on).1, (hexact .on).2, hrighter.1, hrighter.2, hright.volume_eq]
    exact ⟨Int.mul_le_mul_of_nonneg_left (Int.sub_le_sub_left hpan 128) hvolume,
      Int.mul_le_mul_of_nonneg_left (Int.add_le_add_right hpan 1) hvolume⟩

/-- The loudest sound of all, from the left alone. -/
def loudest : Mix := ⟨127, 127, 127, 127, 0, 0⟩

/-- The same with its velocity halved. -/
def loudest.halved : Mix := { loudest with velocity := 64 }

/-- The same from as far right as pans can say. -/
def loudest.right : Mix := { loudest with trackPan := 255, patchPan := 255 }

theorem levels_inRange_loudest :
    loudest.InRange ∧ loudest.halved.Softer loudest ∧ loudest.right.Righter loudest ∧
      PanMode.on ≠ .off ∧
      (loudest.levels .on).1.toInt = 15872 ∧
      (loudest.levels .on).1.toInt + (loudest.levels .on).2.toInt =
        129 * loudest.volume.toNat ∧
      (loudest.halved.levels .on).1.toInt ≤ (loudest.levels .on).1.toInt ∧
      (loudest.levels .on).2.toInt ≤ (loudest.right.levels .on).2.toInt := by
  have hrange : loudest.InRange := ⟨by decide, by decide, by decide, by decide⟩
  have hsofter : loudest.halved.Softer loudest :=
    ⟨by decide, by decide, by decide, by decide, rfl, rfl⟩
  have hrighter : loudest.right.Righter loudest := ⟨rfl, rfl, rfl, rfl, by decide, by decide⟩
  obtain ⟨-, -, -, hsum, -, -, hsoft, hright⟩ := levels_inRange hrange
  exact ⟨hrange, hsofter, hrighter, by decide, by decide, hsum .on (by decide),
    (hsoft _ hsofter .on).1, (hright _ hrighter).2⟩

end Mix

end Voice

namespace Engine

variable {σ : Type}

/-- What the levels of a note of track `i` depend on. -/
def mix (e : Engine σ) (i : Nat) (patch : PatchVoice) (velocity : UInt8) : Voice.Mix where
  velocity
  patchVolume := patch.volume
  trackVolume := (e.track i).volume
  master := e.classVolume (e.track i).soundClass
  trackPan := (e.track i).pan
  patchPan := patch.pan

/-- The levels that a note is given are those of its mix. -/
theorem levels_eq (e : Engine σ) (i : Nat) (patch : PatchVoice) (velocity : UInt8) :
    e.levels i patch velocity = (e.mix i patch velocity).levels e.panMode := rfl

end Engine

end SoundSequencer
