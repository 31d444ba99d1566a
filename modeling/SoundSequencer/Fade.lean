/-
SoundSequencer.Fade — a volume that moves toward a target in equal steps,
one a tick, in 65536ths.

* `start` begins a fade, `cancel` leaves the volume where it is.
* `step?` is the fade a tick later with the volume to apply; the last step
  lands on the target.
-/
import SoundSequencer.Timing

namespace SoundSequencer

/-- A volume on its way to a target, with the number of steps left. -/
structure Fade where
  value : Int := 0
  target : Int := 0
  stride : Int := 0
  ticks : Nat := 0
  deriving Repr, DecidableEq, Inhabited

namespace Fade

/-- The unit of a volume in the fade's own units. -/
def scale : Int := 65536

/-- A fade from `current` to `dest` within `ms` milliseconds. -/
def start (current : Int16) (ms : UInt32) (dest : Int16) : Fade :=
  let value := current.toInt * scale
  let target := dest.toInt * scale
  { value, target, stride := (target - value).tdiv (fadeTicks ms), ticks := fadeTicks ms }

/-- The fade without steps left. -/
def cancel (f : Fade) : Fade := { f with ticks := 0 }

/-- Whether more than one step is left. -/
def isActive (f : Fade) : Bool := 1 < f.ticks

/-- The volume that the fade has reached, rounded down. -/
def volume (f : Fade) : Int16 := Int16.ofInt (f.value / scale)

/-- The fade after its next step, if one is left. -/
def step? (f : Fade) : Option Fade :=
  match f.ticks with
  | 0 => none
  | 1 => some { f with ticks := 0, value := f.target }
  | left + 2 => some { f with ticks := left + 1, value := f.value + f.stride }

/-- The volume to apply in the next tick, if the fade still runs, and the fade
behind that tick. -/
def step (f : Fade) : Option Int16 × Fade :=
  match f.step? with
  | none => (none, f)
  | some next => (some next.volume, next)

end Fade

end SoundSequencer
