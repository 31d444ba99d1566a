/-
SoundSequencer.Engine.Idle — ticks in which nothing happens.

* `Engine.isIdle` says that nothing plays, fades or is to be keyed off.
* `Engine.idleFor` is an idle engine many ticks later: clock and count have
  gone on.
* `Engine.ticksFor` is any engine many ticks later, by ticks as long as
  something happens.
-/
import SoundSequencer.Chip.Recorder
import SoundSequencer.Engine.Tick

namespace SoundSequencer

/-- The clock `n` ticks later. -/
def MsClock.advanceBy (c : MsClock) (n : Nat) : MsClock where
  ms := c.ms + UInt32.ofNat ((c.frac + n * tickLength) / 65536)
  frac := (c.frac + n * tickLength) % 65536

namespace Engine

/-- Whether a tick has nothing to do but to count. -/
def isIdle {σ : Type} (e : Engine σ) : Bool :=
  e.tracksActive == 0 && e.masterFade.ticks == 0 && e.cdFade.ticks == 0 &&
    e.toRelease == 0 && e.toMute == 0 && e.voices.voices.all (!·.active)

/-- An idle engine `n` ticks later. -/
def idleFor {σ : Type} (e : Engine σ) (n : Nat) : Engine σ :=
  { e with ticks := e.ticks + n, clock := e.clock.advanceBy n }

/-- The engine `n` ticks later. -/
def ticksFor : (n : Nat) → Engine RecorderChip → Engine RecorderChip
  | 0, e => e
  | n + 1, e => if e.isIdle then e.idleFor (n + 1) else ticksFor n e.tick

end Engine

end SoundSequencer
