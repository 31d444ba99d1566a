/-
SoundSequencer.Voice.Params — what the registers of a voice are set to.

The levels of a voice come from the velocity of its note, its patch, its
track and a master volume; its note register from its note and the bend of
its track; the length of its release from its envelope.

* `voicePan`, `voiceVolume`, `stereoLevels` give the two channels.
* `voiceNote`, `sampleNote` give the note registers, in 128ths of a
  semitone. A downward bend by a whole number of semitones reads one
  semitone low.
* `envelopeRelease`, `muteReleaseTime`, `muteReleaseRate` relate release rates
  to milliseconds.
-/
import SoundSequencer.Levels
import SoundSequencer.PatchBank

namespace SoundSequencer.Voice

/-! ## Levels -/

/-- The pan of a voice: the pan of its track, moved by that of its patch, and
kept between the outermost pans. -/
def voicePan (trackPan patchPan : UInt8) : PanMode → Int
  | .off => panCenter.toNat
  | _ =>
    max panLeft.toNat (min panRight.toNat
      ((trackPan.toNat : Int) + patchPan.toNat - panCenter.toNat))

/-- What the product of four levels is divided by to be a level again: three
times the seven bits of a level. -/
def volumeScale : Nat := 0x200000

/-- The loudness of a voice before its pan. -/
def voiceVolume (velocity patchVolume trackVolume master : UInt8) : UInt32 :=
  UInt32.ofNat
    (velocity.toNat * patchVolume.toNat * trackVolume.toNat * master.toNat / volumeScale)

/-- The left and the right level of a voice. With panning on the two add up
to 129 times the volume; without, each is 64 times the volume. -/
def stereoLevels (volume : UInt32) (pan : Int) (mode : PanMode) : Int16 × Int16 :=
  let near := Int16.ofInt (volume.toInt32.toInt * (128 - pan))
  let far := Int16.ofInt (volume.toInt32.toInt * (pan + 1))
  match mode with
  | .off => let level := volume.toUInt16.toInt16 * 64; (level, level)
  | .on => (near, far)
  | .reversed => (far, near)

/-! ## Notes -/

/-- A note register from a semitone, of which the low eight bits count, and a
number of 128ths. -/
def noteRegister (semitone fine : UInt8) : UInt16 := semitone.toUInt16 * 256 + fine.toUInt16

theorem toNat_noteRegister (semitone fine : UInt8) :
    (noteRegister semitone fine).toNat = 256 * semitone.toNat + fine.toNat := by
  have hsemitone := semitone.toNat_lt
  have hfine := fine.toNat_lt
  have h256 : (256 : UInt16).toNat = 256 := rfl
  unfold noteRegister
  rw [UInt16.toNat_add, UInt16.toNat_mul, UInt8.toNat_toUInt16, UInt8.toNat_toUInt16, h256]
  omega

/-- The note register of `note` under the bend `pitch`. The bend is counted in
8192ths of a semitone and rounded to 128ths. -/
def voiceNote (note : UInt8) (pitch : Int16) (patch : PatchVoice) : UInt16 :=
  if pitch = 0 then noteRegister note 0
  else if 0 < pitch then
    let bend := 32 + pitch.toInt.natAbs * patch.bendUp.toNat
    noteRegister (note + UInt8.ofNat (bend / 8192)) (UInt8.ofNat (bend % 8192 / 64))
  else
    let bend := 32 + pitch.toInt.natAbs * patch.bendDown.toNat
    noteRegister (note - UInt8.ofNat (bend / 8192 + 1))
      (UInt8.ofNat ((128 - bend % 8192 / 64) % 128))

/-- The register of the note that a patch voice's sample was recorded at. -/
def sampleNote (patch : PatchVoice) : UInt16 := noteRegister patch.baseNote patch.baseNoteFrac

/-! ## Releases -/

/-- The longest release, in milliseconds. -/
def maxReleaseTime : UInt32 := 0x10000000

/-- The longest release along a line, in milliseconds. -/
def maxLinearReleaseTime : UInt32 := 0x05DC0000

/-- The length of the release that the second word of an envelope asks for.
Bit 5 asks for the exponential curve; the five bits below it are the rate,
and each rate less halves the time. -/
def envelopeRelease (adsr2 : UInt16) : UInt32 :=
  let longest := if adsr2.toNat.testBit 5 then maxReleaseTime else maxLinearReleaseTime
  longest >>> (31 - (adsr2 % 32).toUInt32)

/-- The length of the release at which muted voices fade, by its rate. -/
def muteReleaseTime (rate : UInt8) : UInt32 :=
  maxReleaseTime >>> (31 - (rate % 32).toUInt32)

/-- The search behind `muteReleaseRate`: from rate `rate`, whose release lasts
`time`, down to the first whose release fits into `ms`. -/
def fittingRate (ms : UInt32) : (rate : Nat) → (time : UInt32) → UInt8
  | 0, _ => 0
  | rate + 1, time =>
    if ms < time then fittingRate ms rate (time >>> 1) else UInt8.ofNat (rate + 1)

/-- The largest rate whose release lasts at most `ms`, or zero. -/
def muteReleaseRate (ms : UInt32) : UInt8 := fittingRate ms 31 maxReleaseTime

end SoundSequencer.Voice
