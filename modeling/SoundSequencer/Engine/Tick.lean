/-
SoundSequencer.Engine.Tick — one tick of an engine: first the fades, then
the clock, then the tracks, then the upkeep of the voices.
-/
import SoundSequencer.Engine.Interpreter

namespace SoundSequencer.Engine

variable {σ : Type}

/-- One step of the fade of the chip's master volume. -/
def fadeMaster [SoundChip σ] (e : Engine σ) : Engine σ :=
  match e.masterFade.step with
  | (none, _) => e
  | (some volume, masterFade) =>
    { e with
      masterFade
      masterVolume := volume
      chip := SoundChip.setMasterVolume volume e.chip }

/-- One step of the fade of the disc input. -/
def fadeCd [SoundChip σ] (e : Engine σ) : Engine σ :=
  match e.cdFade.step with
  | (none, _) => e
  | (some volume, cdFade) =>
    { e with cdFade, cdVolume := volume, chip := SoundChip.setCdVolume volume e.chip }

/-- One tick, a 120th of a second. -/
def tick [SoundChip σ] (e : Engine σ) : Engine σ :=
  let e := { e with ticks := e.ticks + 1 }
  let e := e.fadeMaster.fadeCd
  let e := { e with clock := e.clock.advance }
  let e := if e.tracksActive = 0 then e else e.runTracks
  e.serviceVoices

end SoundSequencer.Engine
