/-
SoundSequencer.Timing — fixed-point time.

Track time is counted in parts of a quarter note. At every tick a track
advances by its parts per interrupt, a number with sixteen fractional
bits that follows from tempo and resolution.

* `partsPerInterrupt` computes that number, rounding the tempo's share of
  a tick to the nearest.
* `fadeTicks` is the length of a fade.
* `MsClock` counts milliseconds; its count wraps at 2^32.
-/

namespace SoundSequencer

/-- The ticks in a second that tempos are calibrated for. -/
def ticksPerSecond : Nat := 120

/-- The parts that a track advances in one tick, with sixteen fractional
bits: the tempo `qpm` per tick, rounded, times the `ppq` parts of a
quarter. Zero without ticks. -/
def partsPerInterrupt (perSecond : Nat) (ppq qpm : UInt16) : UInt32 :=
  if perSecond = 0 then 0
  else
    UInt32.ofNat ((qpm.toNat * 65536 + (perSecond * 30 + 30)) / (perSecond * 60)) * ppq.toUInt32

/-- The ticks that a fade of `ms` milliseconds lasts, at least one. -/
def fadeTicks (ms : UInt32) : Nat := ms.toNat * ticksPerSecond / 1000 + 1

/-- A millisecond count with the fraction, in 65536ths, that it lags. -/
structure MsClock where
  ms : UInt32 := 0
  frac : Nat := 0
  deriving Repr, DecidableEq, Inhabited

namespace MsClock

/-- The length of a tick in 65536ths of a millisecond. -/
def tickLength : Nat := 0x85555

/-- The clock one tick later. -/
def advance (c : MsClock) : MsClock where
  ms := c.ms + UInt32.ofNat ((c.frac + tickLength) / 65536)
  frac := (c.frac + tickLength) % 65536

end MsClock

end SoundSequencer
