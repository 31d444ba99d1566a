/-
SoundSequencer.Proofs.Machine — what a machine computes, and where it stops.

* A `Fault` stops a machine: an index outside its table, a result that its number
  cannot hold, a division by zero. `unsigned`, `signed`, `minus`, `quotient`, `inside`
  and `get` are the operations that can end in one; sizes and offsets have 64 bits.
* Tempo, fades, clock, levels, notes, delta times and commands as a machine computes
  them, step by step, are `partsPerInterrupt` … `decodeAt`. An equation for each says
  under which bounds it ends in what the engine computes.
-/
import Mathlib.Tactic.Common
import Mathlib.Tactic.Linarith
import SoundSequencer.Engine.Tick

namespace SoundSequencer

/-- Why a machine stops. -/
inductive Fault where
  /-- An index outside its table. -/
  | index
  /-- A result that its number cannot hold. -/
  | overflow
  /-- A division by zero. -/
  | division
  deriving Repr, DecidableEq

/-- The byte code of every track is small enough to be held in memory: half of all
offsets are enough to number it. -/
def SoundModule.FitsMemory (m : SoundModule) : Prop :=
  ∀ tracks ∈ m.sequences, ∀ stream ∈ tracks, stream.bytes.size < 2 ^ 63

instance (m : SoundModule) : Decidable m.FitsMemory :=
  inferInstanceAs (Decidable (∀ tracks ∈ m.sequences, ∀ stream ∈ tracks, _))

/-! ## Fades -/

namespace Fade

/-- Whether every value that a fade comes to is a volume that a signed number holds. -/
def Fits (f : Fade) : Prop :=
  ∀ k : Nat, k < f.ticks → 0 ≤ f.value + k * f.stride ∧ f.value + k * f.stride < 2 ^ 31

/-- A fade that ends at once fits. -/
theorem fits_of_ticks_eq_zero {f : Fade} (h : f.ticks = 0) : f.Fits := by
  intro k hk
  omega

theorem fits_cancel (f : Fade) : f.cancel.Fits := fits_of_ticks_eq_zero rfl

/-- A few of the equal steps of a way upward go a part of it. -/
theorem steps_mem {way ticks k : Int} (hk : 0 ≤ k) (hticks : k ≤ ticks) (hway : 0 ≤ way) :
    0 ≤ k * way.tdiv ticks ∧ k * way.tdiv ticks ≤ way := by
  have hstride : 0 ≤ way.tdiv ticks := Int.tdiv_nonneg hway (Int.le_trans hk hticks)
  exact ⟨Int.mul_nonneg hk hstride,
    Int.le_trans (Int.mul_le_mul_of_nonneg_right hticks hstride) (Int.mul_tdiv_self_le hway)⟩

/-- A fade between volumes that are not negative stays between them. -/
theorem fits_start {current dest : Int16} (hcurrent : 0 ≤ current.toInt) (hdest : 0 ≤ dest.toInt)
    (ms : UInt32) : (Fade.start current ms dest).Fits := by
  intro k hk
  have hc := current.toInt_lt
  have hd := dest.toInt_lt
  have hticks : (k : Int) ≤ fadeTicks ms := by
    have hlt : k < fadeTicks ms := hk
    omega
  show 0 ≤ current.toInt * 65536 + k * (dest.toInt * 65536 - current.toInt * 65536).tdiv
      (fadeTicks ms) ∧ current.toInt * 65536 + k * (dest.toInt * 65536 -
        current.toInt * 65536).tdiv (fadeTicks ms) < 2 ^ 31
  rcases Int.le_total current.toInt dest.toInt with hup | hdown
  · have hway : 0 ≤ dest.toInt * 65536 - current.toInt * 65536 := by omega
    have hpart := steps_mem (Int.natCast_nonneg k) hticks hway
    omega
  · have hway : 0 ≤ current.toInt * 65536 - dest.toInt * 65536 := by omega
    have hpart := steps_mem (Int.natCast_nonneg k) hticks hway
    have hneg : dest.toInt * 65536 - current.toInt * 65536 =
        -(current.toInt * 65536 - dest.toInt * 65536) := by omega
    rw [hneg, Int.neg_tdiv, Int.mul_neg]
    omega

theorem fits_step {f : Fade} (h : f.Fits) : f.step.2.Fits := by
  unfold step step?
  cases hticks : f.ticks with
  | zero => exact h
  | succ left =>
    cases left with
    | zero => exact fits_of_ticks_eq_zero rfl
    | succ left =>
      intro k hk
      have hnext := h (k + 1) (by simp only [hticks] at hk ⊢; omega)
      have hvalue : f.value + (k + 1 : Nat) * f.stride = f.value + f.stride + k * f.stride := by
        push_cast
        rw [Int.add_mul]
        omega
      rwa [hvalue] at hnext

end Fade

namespace Machine

/-! ## Numbers and tables -/

section Numbers

variable {α β : Type}

/-- A number of so many unsigned bits. -/
def unsigned (bits n : Nat) : Except Fault Nat :=
  if n < 2 ^ bits then .ok n else .error .overflow

/-- A number of so many bits, the sign among them. -/
def signed (bits : Nat) (n : Int) : Except Fault Int :=
  if -2 ^ (bits - 1) ≤ n ∧ n < 2 ^ (bits - 1) then .ok n else .error .overflow

/-- A difference of unsigned numbers. -/
def minus (a b : Nat) : Except Fault Nat :=
  if b ≤ a then .ok (a - b) else .error .overflow

/-- A quotient, rounded toward zero. -/
def quotient (a b : Int) : Except Fault Int :=
  if b = 0 then .error .division else .ok (a.tdiv b)

/-- An index into a table of a given size. -/
def inside (size i : Nat) : Except Fault Unit :=
  if i < size then .ok () else .error .index

/-- The entry of a table at an index. -/
def get (table : Array α) (i : Nat) : Except Fault α :=
  match table[i]? with
  | none => .error .index
  | some entry => .ok entry

@[simp] theorem pure_eq (a : α) : (pure a : Except Fault α) = .ok a := rfl

@[simp] theorem ok_bind (a : α) (f : α → Except Fault β) : (Except.ok a >>= f) = f a := rfl

theorem unsigned_eq {bits n : Nat} (h : n < 2 ^ bits) : unsigned bits n = .ok n := if_pos h

theorem signed_eq {bits : Nat} {n : Int} (h : -2 ^ (bits - 1) ≤ n ∧ n < 2 ^ (bits - 1)) :
    signed bits n = .ok n := if_pos h

theorem minus_eq {a b : Nat} (h : b ≤ a) : minus a b = .ok (a - b) := if_pos h

theorem quotient_eq {a b : Int} (h : b ≠ 0) : quotient a b = .ok (a.tdiv b) := if_neg h

theorem inside_eq {size i : Nat} (h : i < size) : inside size i = .ok () := if_pos h

theorem get_eq {table : Array α} {i : Nat} {entry : α} (h : table[i]? = some entry) :
    get table i = .ok entry := by
  unfold get
  rw [h]

theorem get_getD {table : Array α} {i : Nat} (h : i < table.size) (default : α) :
    get table i = .ok (table.getD i default) := by
  refine get_eq ?_
  simp [Array.getD_eq_getD_getElem?, h]

/-- Work that a machine gets through, item by item. -/
theorem foldlM_eq {f : α → β → Except Fault α} {g : α → β → α} (good : List β → α → Prop)
    (hstep : ∀ b l a, good (b :: l) a → f a b = .ok (g a b) ∧ good l (g a b)) :
    ∀ (l : List β) (a : α), good l a →
      l.foldlM f a = .ok (l.foldl g a) ∧ good [] (l.foldl g a)
  | [], _, h => ⟨rfl, h⟩
  | b :: l, a, h => by
    obtain ⟨hfirst, hrest⟩ := hstep b l a h
    rw [List.foldlM_cons, hfirst, ok_bind, List.foldl_cons]
    exact foldlM_eq good hstep l (g a b) hrest

end Numbers

/-! ## Time -/

/-- The parts that a track advances in one tick. -/
def partsPerInterrupt (ppq qpm : UInt16) : Except Fault UInt32 := do
  let perMinute ← unsigned 32 (ticksPerSecond * 60)
  let half ← unsigned 32 (ticksPerSecond * 30)
  let rounding ← unsigned 32 (half + 30)
  let sum ← unsigned 32 (qpm.toNat * 65536 + rounding)
  let share ← quotient sum perMinute
  return UInt32.ofNat share.toNat * ppq.toUInt32

theorem partsPerInterrupt_eq (ppq qpm : UInt16) :
    partsPerInterrupt ppq qpm = .ok (SoundSequencer.partsPerInterrupt ticksPerSecond ppq qpm) := by
  have hsum : qpm.toNat * 65536 + (ticksPerSecond * 30 + 30) < 2 ^ 32 := by
    have hqpm := qpm.toNat_lt
    simp only [ticksPerSecond]
    omega
  unfold partsPerInterrupt
  rw [unsigned_eq (by decide), ok_bind, unsigned_eq (by decide), ok_bind, unsigned_eq (by decide),
    ok_bind, unsigned_eq hsum, ok_bind, quotient_eq (by decide), ok_bind]
  rfl

/-- The ticks that a fade lasts. -/
def fadeTicks (ms : UInt32) : Except Fault Nat := do
  let parts ← unsigned 64 (ms.toNat * ticksPerSecond)
  unsigned 32 (parts / 1000 % 2 ^ 32 + 1)

theorem fadeTicks_le (ms : UInt32) : SoundSequencer.fadeTicks ms < 2 ^ 30 := by
  have hms := ms.toNat_lt
  simp only [SoundSequencer.fadeTicks, ticksPerSecond]
  omega

theorem fadeTicks_eq (ms : UInt32) : fadeTicks ms = .ok (SoundSequencer.fadeTicks ms) := by
  have hms := ms.toNat_lt
  have hparts : ms.toNat * ticksPerSecond < 2 ^ 64 := by
    simp only [ticksPerSecond]
    omega
  have hcast : ms.toNat * ticksPerSecond / 1000 % 2 ^ 32 = ms.toNat * ticksPerSecond / 1000 := by
    simp only [ticksPerSecond]
    omega
  have hticks := fadeTicks_le ms
  unfold fadeTicks
  rw [unsigned_eq hparts, ok_bind, hcast]
  exact unsigned_eq (Nat.lt_trans hticks (by decide))

/-- A fade that starts. The number of its ticks is read as a signed number. -/
def startFade (current : Int16) (ms : UInt32) (dest : Int16) : Except Fault Fade := do
  let ticks ← fadeTicks ms
  let value := current.toInt * Fade.scale
  let target := dest.toInt * Fade.scale
  let distance ← signed 32 (target - value)
  let stride ← quotient distance (Int.bmod ticks (2 ^ 32))
  return { value, target, stride, ticks }

theorem startFade_eq {current dest : Int16} (hcurrent : 0 ≤ current.toInt)
    (hdest : 0 ≤ dest.toInt) (ms : UInt32) :
    startFade current ms dest = .ok (Fade.start current ms dest) := by
  have hticks := fadeTicks_le ms
  have hpositive : 0 < SoundSequencer.fadeTicks ms := Nat.succ_pos _
  have hcast : Int.bmod (SoundSequencer.fadeTicks ms) (2 ^ 32) = SoundSequencer.fadeTicks ms :=
    Int.bmod_eq_of_le (by omega) (by omega)
  have hdistance : -2 ^ (32 - 1) ≤ dest.toInt * Fade.scale - current.toInt * Fade.scale ∧
      dest.toInt * Fade.scale - current.toInt * Fade.scale < 2 ^ (32 - 1) := by
    have hd := dest.toInt_lt
    have hc := current.toInt_lt
    simp only [Fade.scale]
    omega
  unfold startFade
  rw [fadeTicks_eq, ok_bind]
  dsimp only
  rw [signed_eq hdistance, ok_bind, hcast, quotient_eq (by omega), ok_bind]
  rfl

/-- Between volumes of which one is negative the way may be too long. -/
example : startFade (-1) 0 32767 = .error .overflow := rfl

/-- One step of a fade. -/
def stepFade (f : Fade) : Except Fault (Option Int16 × Fade) :=
  if f.ticks = 0 then return (none, f)
  else do
    let ticks ← minus f.ticks 1
    let value ← if ticks = 0 then pure f.target else signed 32 (f.value + f.stride)
    let next := { f with ticks, value }
    return (some next.volume, next)

theorem stepFade_eq {f : Fade} (h : f.Fits) : stepFade f = .ok f.step := by
  unfold stepFade Fade.step Fade.step?
  cases hticks : f.ticks with
  | zero => rfl
  | succ left =>
    rw [if_neg (Nat.succ_ne_zero left), minus_eq (Nat.succ_pos left)]
    cases left with
    | zero => rfl
    | succ left =>
      -- a step that is not the last leads to where the fade still fits
      have hnext := h 1 (by omega)
      have hvalue : signed 32 (f.value + f.stride) = .ok (f.value + f.stride) :=
        signed_eq (by omega)
      simp only [Nat.add_one_sub_one, ok_bind, Nat.succ_ne_zero, if_false, hvalue]
      rfl

/-- The clock one tick later. -/
def advanceClock (c : MsClock) : Except Fault MsClock := do
  let passed ← unsigned 32 (c.frac + MsClock.tickLength)
  return { ms := c.ms + UInt32.ofNat (passed / 65536), frac := passed % 65536 }

theorem advanceClock_eq {c : MsClock} (h : c.frac < 65536) :
    advanceClock c = .ok c.advance := by
  have hpassed : c.frac + MsClock.tickLength < 2 ^ 32 := by
    simp only [MsClock.tickLength]
    omega
  unfold advanceClock
  rw [unsigned_eq hpassed, ok_bind]
  rfl

/-! ## Levels -/

/-- The pan of a voice. -/
def voicePan (trackPan patchPan : UInt8) : PanMode → Except Fault Int
  | .off => return panCenter.toNat
  | _ => do
    let sum ← signed 16 (trackPan.toNat + patchPan.toNat)
    let moved ← signed 16 (sum - panCenter.toNat)
    return max panLeft.toNat (min panRight.toNat moved)

theorem voicePan_eq (trackPan patchPan : UInt8) (mode : PanMode) :
    voicePan trackPan patchPan mode = .ok (Voice.voicePan trackPan patchPan mode) := by
  have htrack := trackPan.toNat_lt
  have hpatch := patchPan.toNat_lt
  have hsum : signed 16 (trackPan.toNat + patchPan.toNat) =
      .ok ((trackPan.toNat : Int) + patchPan.toNat) := signed_eq (by omega)
  have hmoved : signed 16 ((trackPan.toNat : Int) + patchPan.toNat - panCenter.toNat) =
      .ok ((trackPan.toNat : Int) + patchPan.toNat - panCenter.toNat) := by
    have hcenter : panCenter.toNat = 64 := rfl
    exact signed_eq (by omega)
  unfold voicePan Voice.voicePan
  cases mode with
  | off => rfl
  | on =>
    rw [hsum, ok_bind, hmoved, ok_bind]
    rfl
  | reversed =>
    rw [hsum, ok_bind, hmoved, ok_bind]
    rfl

/-- A pan keeps to the range of a level. -/
theorem voicePan_mem (trackPan patchPan : UInt8) (mode : PanMode) :
    0 ≤ Voice.voicePan trackPan patchPan mode ∧ Voice.voicePan trackPan patchPan mode ≤ 127 := by
  have hcenter : panCenter.toNat = 64 := rfl
  have hleft : panLeft.toNat = 0 := rfl
  have hright : panRight.toNat = 127 := rfl
  cases mode <;> simp only [Voice.voicePan] <;> omega

/-- The loudness of a voice before its pan. -/
def voiceVolume (velocity patchVolume trackVolume master : UInt8) : Except Fault UInt32 := do
  let product ← unsigned 32 (velocity.toNat * patchVolume.toNat)
  let product ← unsigned 32 (product * trackVolume.toNat)
  let product ← unsigned 32 (product * master.toNat)
  return UInt32.ofNat (product / Voice.volumeScale)

theorem mul_toNat_le {n bound : Nat} (h : n ≤ bound) (level : UInt8) :
    n * level.toNat ≤ bound * 255 := Nat.mul_le_mul h (Nat.le_of_lt_succ level.toNat_lt)

theorem voiceVolume_eq (velocity patchVolume trackVolume master : UInt8) :
    voiceVolume velocity patchVolume trackVolume master =
      .ok (Voice.voiceVolume velocity patchVolume trackVolume master) := by
  have hvelocity := Nat.le_of_lt_succ velocity.toNat_lt
  have htwo := mul_toNat_le hvelocity patchVolume
  have hthree := mul_toNat_le htwo trackVolume
  have hfour := mul_toNat_le hthree master
  unfold voiceVolume
  rw [unsigned_eq (Nat.lt_of_le_of_lt htwo (by decide)), ok_bind,
    unsigned_eq (Nat.lt_of_le_of_lt hthree (by decide)), ok_bind,
    unsigned_eq (Nat.lt_of_le_of_lt hfour (by decide)), ok_bind]
  rfl

theorem voiceVolume_le (velocity patchVolume trackVolume master : UInt8) :
    (Voice.voiceVolume velocity patchVolume trackVolume master).toNat ≤ 2016 := by
  have hvelocity := Nat.le_of_lt_succ velocity.toNat_lt
  have hfour := mul_toNat_le (mul_toNat_le (mul_toNat_le hvelocity patchVolume) trackVolume) master
  have hscaled := Nat.div_le_div_right (c := Voice.volumeScale) hfour
  unfold Voice.voiceVolume
  rw [UInt32.toNat_ofNat']
  exact Nat.le_trans (Nat.mod_le _ _) hscaled

/-- One channel: of the volume, the share that a distance from the other side gives. -/
def channel (volume distance : Int) : Except Fault Int16 := do
  let scaled ← signed 32 (volume * 128)
  let product ← signed 32 (scaled * distance)
  let level ← quotient product 128
  return Int16.ofInt level

theorem channel_eq {volume distance : Int} (hvolume : 0 ≤ volume ∧ volume ≤ 2016)
    (hdistance : 0 ≤ distance ∧ distance ≤ 128) :
    channel volume distance = .ok (Int16.ofInt (volume * distance)) := by
  have hnonneg := Int.mul_nonneg hvolume.1 hdistance.1
  have hproduct : volume * distance ≤ 2016 * 128 :=
    Int.mul_le_mul hvolume.2 hdistance.2 hdistance.1 (by decide)
  have hscale : volume * 128 * distance = volume * distance * 128 := Int.mul_right_comm _ _ _
  unfold channel
  rw [signed_eq (by omega), ok_bind, hscale, signed_eq (by omega), ok_bind,
    quotient_eq (by decide), ok_bind, Int.mul_tdiv_cancel _ (by decide), pure_eq]

/-- The left and the right level of a voice. -/
def stereoLevels (volume : UInt32) (pan : Int) (mode : PanMode) : Except Fault (Int16 × Int16) :=
  if mode = .off then return Voice.stereoLevels volume pan mode
  else do
    let away ← signed 32 (128 - pan)
    let near ← channel volume.toInt32.toInt away
    let toward ← signed 32 (pan + 1)
    let far ← channel volume.toInt32.toInt toward
    return if mode = .on then (near, far) else (far, near)

/-- The loudness of a voice is the same as a signed number. -/
theorem toInt_volume {volume : UInt32} (h : volume.toNat ≤ 2016) :
    volume.toInt32.toInt = volume.toNat := by
  have hbmod : Int.bmod volume.toNat (2 ^ 32) = volume.toNat :=
    Int.bmod_eq_of_le (by omega) (by omega)
  exact (BitVec.toInt_eq_toNat_bmod _).trans hbmod

theorem stereoLevels_eq {volume : UInt32} {pan : Int} (mode : PanMode)
    (hvolume : volume.toNat ≤ 2016) (hpan : 0 ≤ pan ∧ pan ≤ 127) :
    stereoLevels volume pan mode = .ok (Voice.stereoLevels volume pan mode) := by
  have hsigned := toInt_volume hvolume
  have hnear : channel volume.toNat (128 - pan) = .ok (Int16.ofInt (volume.toNat * (128 - pan))) :=
    channel_eq (by omega) (by omega)
  have hfar : channel volume.toNat (pan + 1) = .ok (Int16.ofInt (volume.toNat * (pan + 1))) :=
    channel_eq (by omega) (by omega)
  unfold stereoLevels Voice.stereoLevels
  cases mode with
  | off => rfl
  | on =>
    rw [if_neg (by decide), signed_eq (by omega), ok_bind, hsigned, hnear, ok_bind,
      signed_eq (by omega), ok_bind, hfar, ok_bind, if_pos rfl, pure_eq]
  | reversed =>
    rw [if_neg (by decide), signed_eq (by omega), ok_bind, hsigned, hnear, ok_bind,
      signed_eq (by omega), ok_bind, hfar, ok_bind, if_neg (by decide), pure_eq]

/-! ## Notes and releases -/

/-- A note register put together in words: the semitones are shifted up, and the low seven bits
of the fine part stand below them. -/
def register (semitones fine : UInt32) : UInt16 := (semitones <<< 8 ||| fine &&& 0x7F).toUInt16

/-- The note register of a note, computed in words of 32 bits that wrap. Only the product of a
bend downward, and the semitone that is added behind it, have to fit. -/
def voiceNote (note : UInt8) (pitch : Int16) (patch : PatchVoice) : Except Fault UInt16 :=
  let note := note.toUInt32
  if pitch = 0 then return (note <<< 8).toUInt16
  else if 0 < pitch then
    let bend := 32 + pitch.toInt32.toUInt32 * patch.bendUp.toUInt32
    let fine := (bend &&& 0x1FFF) >>> 6
    return register (note + bend >>> 13) fine
  else do
    let product ← signed 32 (pitch.toInt * patch.bendDown.toNat)
    let bend := 32 - UInt32.ofInt product
    let semitones ← unsigned 32 ((bend >>> 13).toNat + 1)
    let fine := (bend &&& 0x1FFF) >>> 6
    return register (note - UInt32.ofNat semitones) (128 - fine)

/-- Of the semitones the low eight bits count. -/
theorem register_eq {semitones fine : UInt32} {s : UInt8} {f : Nat}
    (hs : semitones.toNat % 256 = s.toNat) (hf : fine.toNat = f) :
    register semitones fine = Voice.noteRegister s (UInt8.ofNat (f % 128)) := by
  have hlow : fine.toNat &&& (0x7F : UInt32).toNat = fine.toNat % 128 :=
    Nat.and_two_pow_sub_one_eq_mod fine.toNat 7
  have hhigh : semitones.toNat <<< ((8 : UInt32).toNat % 32) % 2 ^ 32 =
      2 ^ 8 * (semitones.toNat % 2 ^ 24) := by
    rw [show (8 : UInt32).toNat % 32 = 8 from rfl, Nat.shiftLeft_eq]
    omega
  have hfine : fine.toNat % 128 < 2 ^ 8 := by omega
  refine UInt16.toNat_inj.mp ?_
  rw [register, UInt32.toNat_toUInt16, UInt32.toNat_or, UInt32.toNat_and, UInt32.toNat_shiftLeft,
    hlow, hhigh, ← Nat.two_pow_add_eq_or_of_lt hfine, Voice.toNat_noteRegister,
    UInt8.toNat_ofNat']
  omega

/-- A bend in 8192ths of a semitone: whole semitones, and the 128ths above them. -/
theorem parts_of_bend {bend : UInt32} {far : Nat} (h : bend.toNat = far) :
    (bend >>> 13).toNat = far / 8192 ∧ ((bend &&& 0x1FFF) >>> 6).toNat = far % 8192 / 64 := by
  have hlow : bend.toNat &&& (0x1FFF : UInt32).toNat = bend.toNat % 8192 :=
    Nat.and_two_pow_sub_one_eq_mod bend.toNat 13
  rw [UInt32.toNat_shiftRight, UInt32.toNat_shiftRight, UInt32.toNat_and, hlow, h,
    Nat.shiftRight_eq_div_pow, Nat.shiftRight_eq_div_pow]
  exact ⟨rfl, rfl⟩

/-- A bend upward is the same number as a word. -/
theorem toNat_toUInt32_of_pos {pitch : Int16} (h : 0 < pitch) :
    pitch.toInt32.toUInt32.toNat = pitch.toInt.natAbs := by
  rw [Int16.lt_iff_toInt_lt, Int16.toInt_zero] at h
  have hvalue : pitch.toInt32.toInt = Int.bmod pitch.toInt32.toUInt32.toNat (2 ^ 32) :=
    BitVec.toInt_eq_toNat_bmod _
  rw [Int16.toInt_toInt32, Int.bmod_def] at hvalue
  have hmost := pitch.toInt_lt
  have hword := pitch.toInt32.toUInt32.toNat_lt
  omega

theorem natAbs_mul_toNat_lt (pitch : Int16) (step : UInt8) :
    pitch.toInt.natAbs * step.toNat < 2 ^ 23 := by
  have hleast := pitch.le_toInt
  have hmost := pitch.toInt_lt
  have hpitch : pitch.toInt.natAbs ≤ 2 ^ 15 := by omega
  calc pitch.toInt.natAbs * step.toNat ≤ 2 ^ 15 * step.toNat := Nat.mul_le_mul_right _ hpitch
    _ < 2 ^ 15 * 2 ^ 8 := Nat.mul_lt_mul_of_pos_left step.toNat_lt (by decide)

/-- A bend upward, as a word. -/
theorem toNat_bendUp {pitch : Int16} (h : 0 < pitch) (step : UInt8) :
    (32 + pitch.toInt32.toUInt32 * step.toUInt32).toNat = 32 + pitch.toInt.natAbs * step.toNat := by
  have h32 : (32 : UInt32).toNat = 32 := rfl
  have hless := natAbs_mul_toNat_lt pitch step
  rw [UInt32.toNat_add, UInt32.toNat_mul, toNat_toUInt32_of_pos h, UInt8.toNat_toUInt32, h32]
  omega

/-- A bend downward, as a word: its product is taken away from below zero. -/
theorem toNat_bendDown {pitch : Int16} (h : ¬ 0 < pitch) (step : UInt8) :
    (32 - UInt32.ofInt (pitch.toInt * step.toNat)).toNat =
      32 + pitch.toInt.natAbs * step.toNat := by
  have h32 : (32 : UInt32).toNat = 32 := rfl
  have hless := natAbs_mul_toNat_lt pitch step
  have hproduct : pitch.toInt * step.toNat = -((pitch.toInt.natAbs * step.toNat : Nat) : Int) := by
    have hdown : pitch.toInt = -pitch.toInt.natAbs := by
      rw [Int16.lt_iff_toInt_lt, Int16.toInt_zero] at h
      omega
    rw [hdown, Int.natCast_mul, Int.neg_mul, Int.natAbs_neg, Int.natAbs_natCast]
  rw [hproduct, UInt32.toNat_sub, UInt32.ofInt, UInt32.toNat_ofNat', h32]
  omega

/-- The product of a bend downward fits a signed word. -/
theorem signed_bendDown (pitch : Int16) (step : UInt8) :
    signed 32 (pitch.toInt * step.toNat) = .ok (pitch.toInt * step.toNat) := by
  have hless := natAbs_mul_toNat_lt pitch step
  have hsize : (pitch.toInt * step.toNat).natAbs = pitch.toInt.natAbs * step.toNat := by
    rw [Int.natAbs_mul, Int.natAbs_natCast]
  exact signed_eq (by omega)

theorem toNat_add_semitones (note : UInt8) {semitones : UInt32} {n : Nat}
    (h : semitones.toNat = n) :
    (note.toUInt32 + semitones).toNat % 256 = (note + UInt8.ofNat n).toNat := by
  rw [UInt32.toNat_add, h, UInt8.toNat_toUInt32, UInt8.toNat_add, UInt8.toNat_ofNat']
  omega

theorem toNat_sub_semitones (note : UInt8) (n : Nat) :
    (note.toUInt32 - UInt32.ofNat n).toNat % 256 = (note - UInt8.ofNat n).toNat := by
  have hnote := note.toNat_lt
  rw [UInt32.toNat_sub, UInt8.toNat_toUInt32, UInt32.toNat_ofNat', UInt8.toNat_sub,
    UInt8.toNat_ofNat']
  omega

theorem voiceNote_eq (note : UInt8) (pitch : Int16) (patch : PatchVoice) :
    voiceNote note pitch patch = .ok (Voice.voiceNote note pitch patch) := by
  unfold voiceNote Voice.voiceNote
  dsimp only
  split
  case isTrue =>
    have hregister : (note.toUInt32 <<< 8).toUInt16 = register (note.toUInt32 + 0) 0 := by
      simp [register]
    rw [hregister, register_eq (toNat_add_semitones note rfl) rfl, pure_eq]
    simp
  case isFalse =>
    split
    case isTrue hup =>
      obtain ⟨hsemitones, hfine⟩ := parts_of_bend (toNat_bendUp hup patch.bendUp)
      rw [register_eq (toNat_add_semitones note hsemitones) hfine, Nat.mod_eq_of_lt (by omega),
        pure_eq]
    case isFalse hdown =>
      obtain ⟨hsemitones, hfine⟩ := parts_of_bend (toNat_bendDown hdown patch.bendDown)
      have hless := natAbs_mul_toNat_lt pitch patch.bendDown
      generalize hfar : 32 + pitch.toInt.natAbs * patch.bendDown.toNat = far at hsemitones hfine ⊢
      have hrest : ((128 : UInt32) -
          (32 - UInt32.ofInt (pitch.toInt * patch.bendDown.toNat) &&& 0x1FFF) >>> 6).toNat =
          128 - far % 8192 / 64 := by
        rw [UInt32.toNat_sub, hfine, show (128 : UInt32).toNat = 128 from rfl]
        omega
      rw [signed_bendDown, ok_bind, hsemitones, unsigned_eq (by omega), ok_bind,
        register_eq (toNat_sub_semitones note _) hrest, pure_eq]

/-- The length of a release at one of the thirty-two rates. -/
def releaseTime (longest rate : UInt32) : Except Fault UInt32 := do
  let halvings ← minus 31 rate.toNat
  return longest >>> UInt32.ofNat halvings

theorem releaseTime_eq (longest : UInt32) {rate : UInt32} (h : rate.toNat ≤ 31) :
    releaseTime longest rate = .ok (longest >>> (31 - rate)) := by
  have hhalvings : UInt32.ofNat (31 - rate.toNat) = 31 - rate := by
    refine UInt32.toNat_inj.mp ?_
    rw [UInt32.toNat_sub_of_le _ _ h, UInt32.toNat_ofNat']
    exact Nat.mod_eq_of_lt (by omega)
  unfold releaseTime
  rw [minus_eq h, ok_bind, hhalvings, pure_eq]

/-- The length of the release that the second word of an envelope asks for. -/
def envelopeRelease (adsr2 : UInt16) : Except Fault UInt32 :=
  releaseTime
    (if adsr2.toNat.testBit 5 then Voice.maxReleaseTime else Voice.maxLinearReleaseTime)
    (adsr2 % 32).toUInt32

theorem envelopeRelease_eq (adsr2 : UInt16) :
    envelopeRelease adsr2 = .ok (Voice.envelopeRelease adsr2) := by
  refine releaseTime_eq _ ?_
  rw [UInt16.toNat_toUInt32, UInt16.toNat_mod]
  exact Nat.le_of_lt_succ (Nat.mod_lt _ (by decide))

/-- The length of the release at which muted voices fade. -/
def muteReleaseTime (rate : UInt8) : Except Fault UInt32 :=
  releaseTime Voice.maxReleaseTime (rate % 32).toUInt32

theorem muteReleaseTime_eq (rate : UInt8) :
    muteReleaseTime rate = .ok (Voice.muteReleaseTime rate) := by
  refine releaseTime_eq _ ?_
  rw [UInt8.toNat_toUInt32, UInt8.toNat_mod]
  exact Nat.le_of_lt_succ (Nat.mod_lt _ (by decide))

/-! ## Streams -/

/-- The value after a byte of a written quantity. Bits that are shifted out are lost, the
sum is one of unsigned numbers. -/
def shiftIn (high : UInt32) (byte : UInt8) : Except Fault UInt32 := do
  let sum ← unsigned 32 ((high * 128).toNat + (byte % 128).toNat)
  return UInt32.ofNat sum

theorem shiftIn_eq (high : UInt32) (byte : UInt8) :
    shiftIn high byte = .ok (Vlq.shiftIn high byte) := by
  have hhigh : (high * 128).toNat = high.toNat * 128 % 2 ^ 32 := UInt32.toNat_mul _ _
  have hbyte : (byte % 128).toNat = byte.toNat % 128 := UInt8.toNat_mod _ _
  have hsum : (high * 128).toNat + (byte % 128).toNat < 2 ^ 32 := by omega
  have hvalue : UInt32.ofNat ((high * 128).toNat + (byte % 128).toNat) =
      high * 128 + (byte % 128).toUInt32 := by
    refine UInt32.toNat_inj.mp ?_
    rw [UInt32.toNat_ofNat', UInt32.toNat_add, UInt8.toNat_toUInt32]
  unfold shiftIn
  rw [unsigned_eq hsum, ok_bind, hvalue, pure_eq]
  rfl

/-- Reads a quantity on at `offset + count`, with at most `fuel` bytes left to look at. -/
def quantityFrom (stream : Array UInt8) (offset : Nat) :
    (fuel : Nat) → (high : UInt32) → (count : Nat) → Except Fault (Option (UInt32 × Nat))
  | 0, _, _ => return none
  | fuel + 1, high, count =>
    match stream[offset + count]? with
    | none => return none
    | some byte => do
      let _ ← unsigned 64 (offset + count + 1)
      let value ← shiftIn high byte
      if Vlq.continues byte then quantityFrom stream offset fuel value (count + 1)
      else return some (value, count + 1)

theorem quantityFrom_eq {stream : Array UInt8} (hsize : stream.size < 2 ^ 63) (offset : Nat) :
    ∀ (fuel : Nat) (high : UInt32) (count : Nat),
      quantityFrom stream offset fuel high count =
        .ok (Vlq.decodeAtFrom stream offset fuel high count)
  | 0, _, _ => rfl
  | fuel + 1, high, count => by
    unfold quantityFrom Vlq.decodeAtFrom
    cases hbyte : stream[offset + count]? with
    | none => rfl
    | some byte =>
      have hread := (Array.getElem?_eq_some_iff.mp hbyte).1
      dsimp only
      rw [unsigned_eq (by omega), ok_bind, shiftIn_eq, ok_bind]
      split
      · exact quantityFrom_eq hsize offset fuel _ _
      · rfl

/-- The delta time at an offset, with the offset of the command behind it. -/
def event (stream : TrackStream) (offset : Nat) : Except Fault (Option (UInt32 × Nat)) := do
  match ← quantityFrom stream.bytes offset (stream.bytes.size - offset) 0 0 with
  | none => return none
  | some (delta, consumed) =>
    let pc ← unsigned 64 (offset + consumed)
    return some (delta, pc)

/-- A quantity that is read from a stream ends in it. -/
theorem add_le_of_decodeAtFrom {stream : Array UInt8} {offset : Nat} {value : UInt32}
    {consumed : Nat} : ∀ {fuel : Nat} {high : UInt32} {count : Nat},
      Vlq.decodeAtFrom stream offset fuel high count = some (value, consumed) →
        offset + consumed ≤ stream.size
  | 0, _, _, h => by cases h
  | fuel + 1, high, count, h => by
    unfold Vlq.decodeAtFrom at h
    cases hbyte : stream[offset + count]? with
    | none => simp [hbyte] at h
    | some byte =>
      have hread := (Array.getElem?_eq_some_iff.mp hbyte).1
      simp only [hbyte] at h
      split at h
      · exact add_le_of_decodeAtFrom h
      · cases h
        exact hread

/-- Behind a delta time, the command starts within the stream or where it ends. -/
theorem pc_le_of_event? {stream : TrackStream} {offset pc : Nat} {delta : UInt32}
    (h : stream.event? offset = some (delta, pc)) : pc ≤ stream.bytes.size := by
  obtain ⟨⟨value, consumed⟩, hread, hevent⟩ := Option.map_eq_some_iff.mp h
  cases hevent
  exact add_le_of_decodeAtFrom hread

theorem event_eq {stream : TrackStream} (hsize : stream.bytes.size < 2 ^ 63) (offset : Nat) :
    event stream offset = .ok (stream.event? offset) := by
  unfold event TrackStream.event? Vlq.decodeAt
  rw [quantityFrom_eq hsize, ok_bind]
  cases hread : Vlq.decodeAtFrom stream.bytes offset (stream.bytes.size - offset) 0 0 with
  | none => rfl
  | some quantity =>
    have hend := add_le_of_decodeAtFrom hread
    dsimp only
    rw [unsigned_eq (by omega)]
    rfl

/-- The bytes that a command has room for. -/
def commandRoom : Nat := 5

/-- The command at an offset. Its bytes are copied to where it has room for them. -/
def decodeAt (stream : Array UInt8) (offset : Nat) : Except Fault (Option Command) :=
  match stream[offset]?.bind Opcode.ofByte? with
  | none => return none
  | some op => do
    let _ ← unsigned 64 (offset + max 1 op.byteLength)
    inside (commandRoom + 1) (max 1 op.byteLength)
    return Command.decodeAt stream offset

theorem byteLength_le (op : Opcode) : op.byteLength ≤ commandRoom := by
  cases op <;> decide

theorem decodeAt_eq {stream : Array UInt8} (hsize : stream.size < 2 ^ 63) (offset : Nat) :
    decodeAt stream offset = .ok (Command.decodeAt stream offset) := by
  unfold decodeAt
  cases hop : stream[offset]?.bind Opcode.ofByte? with
  | none =>
    have hnone : Command.decodeAt stream offset = none := by
      unfold Command.decodeAt
      cases hbyte : stream[offset]? with
      | none => rfl
      | some byte =>
        rw [hbyte, Option.bind_some] at hop
        simp [hop]
    rw [hnone]
    rfl
  | some op =>
    obtain ⟨byte, hbyte, -⟩ := Option.bind_eq_some_iff.mp hop
    have hread := (Array.getElem?_eq_some_iff.mp hbyte).1
    have hlength := byteLength_le op
    have hroom : max 1 op.byteLength ≤ commandRoom := Nat.max_le.mpr ⟨by decide, hlength⟩
    have hoffset : offset + max 1 op.byteLength < 2 ^ 64 := by
      simp only [commandRoom] at hroom
      omega
    dsimp only
    rw [unsigned_eq hoffset, ok_bind, inside_eq (Nat.lt_succ_of_le hroom), ok_bind, pure_eq]

end Machine

end SoundSequencer
