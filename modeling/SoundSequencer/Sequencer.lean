/-
SoundSequencer.Sequencer — an engine as a host runs it: started with the
user's settings, and with the rate at which the host is to tick it.
-/
import SoundSequencer.Settings

namespace SoundSequencer

/-- An engine with the rate at which it is to be ticked. -/
structure Sequencer (σ : Type) where
  engine : Engine σ
  /-- Ticks in a second. -/
  tickRate : UInt32

/-- An engine around `module`, with the user's settings in force. -/
def Sequencer.make {σ : Type} [SoundChip σ] (module : SoundModule) (chip : σ)
    (settings : Settings) : Except EngineError (Sequencer σ) := do
  let engine ← Engine.make module chip
  return { engine := settings.apply engine, tickRate := settings.tickRate }

end SoundSequencer
