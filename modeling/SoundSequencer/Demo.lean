/-
SoundSequencer.Demo — a module to try the sequencer with: a song of three
tracks that loops and a short rising effect.

* `Demo.soundModule` is the module, `Demo.song` and `Demo.effect` its
  sequences.
* `Demo.markKind` is the kind of the status mark at the top of each loop.
* `Demo.upload` fills the chip's memory with a square wave per sample.
-/
import SoundSequencer.Engine.Masters
import SoundSequencer.Track.Assembler

namespace SoundSequencer.Demo

/-- The song of bass, lead and drums. -/
def song : Nat := 0

/-- The rising effect. -/
def effect : Nat := 1

/-- The kind of the mark that the lead sets at the top of each loop. -/
def markKind : UInt8 := 1

/-- The key of the kick drum. -/
def kickKey : UInt8 := 36

/-- The key of the snare drum. -/
def snareKey : UInt8 := 38

/-- The parts of a beat. -/
def beat : UInt32 := 120

/-! ## Instruments -/

/-- The samples of bass, lead, kick and snare. -/
def samples : Array Sample := #[
  ⟨0x1010, 0x400⟩, ⟨0x1410, 0x400⟩, ⟨0x1810, 0x200⟩, ⟨0x1A10, 0x200⟩]

/-- The bass, which bends both ways. -/
def bassVoice : PatchVoice :=
  { sample := 0, baseNote := 36, bendUp := 2, bendDown := 2, adsr2 := 0x2E }

/-- The lead in the lower half of the keyboard. -/
def lowLeadVoice : PatchVoice := { sample := 1, noteMax := 71, volume := 110, adsr2 := 0x2A }

/-- The lead in the upper half of the keyboard. -/
def highLeadVoice : PatchVoice :=
  { sample := 1, noteMin := 72, baseNote := 72, volume := 100, reverb := 40, adsr2 := 0x2A }

/-- The kick drum. -/
def kickVoice : PatchVoice := { sample := 2, baseNote := kickKey, priority := 0x90 }

/-- The snare drum, a little to the right. -/
def snareVoice : PatchVoice := { sample := 3, baseNote := snareKey, pan := 70 }

/-- The voices of each patch. -/
def patchVoices : List (Array PatchVoice) :=
  [#[bassVoice], #[lowLeadVoice, highLeadVoice], #[kickVoice], #[snareVoice]]

/-- The patch of the bass. -/
def bassPatch : UInt16 := 0

/-- The patch of the lead. -/
def leadPatch : UInt16 := 1

/-- The patch of the kick drum. -/
def kickPatch : UInt16 := 2

/-- The patch of the snare drum. -/
def snarePatch : UInt16 := 3

/-- The drum map. Drums keep their keys, so that the end of a key finds them. -/
def drums : Array DrumKey :=
  ((Array.replicate (snareKey.toNat + 1) {}).setIfInBounds kickKey.toNat
    ⟨kickPatch, kickKey⟩).setIfInBounds snareKey.toNat ⟨snarePatch, snareKey⟩

/-- The instruments of the module. -/
def bank : PatchBank :=
  patchVoices.foldl (fun bank voices => (bank.addPatch voices).2) { samples, drums }

/-! ## Tracks -/

/-- The bass plays four roots in a loop. -/
def bassTrack : TrackStream :=
  let start : Assembler :=
    { header := { patch := bassPatch, volume := 100, pan := 56, maxVoices := 2 } }
  let (top, start) := start.label
  let notes := [36, 36, 41, 43].foldl (fun (a : Assembler) (root : UInt8) =>
    ((a.emit 0 (.noteOn root 110)).emit (beat * 2 - 10) (.noteOff root)).emit 0 (.pitchMod 0))
    start
  ((notes.emit 0 (.pitchMod 512)).emit 10 (.trackJump top)).build

/-- The lead plays its phrase three times in a loop. -/
def leadTrack : TrackStream :=
  let start : Assembler :=
    { header := { patch := leadPatch, pan := 72, maxVoices := 3, priority := 0xA0 } }
  let (top, start) := start.label
  let (phrase, start) := (start.emit 0 (.statusMark markKind 0)).label
  let notes := [67, 72, 76].foldl (fun (a : Assembler) (note : UInt8) =>
    (a.emit 0 (.noteOn note 96)).emit (beat - 20) (.noteOff note)) start
  ((((notes.emit 20 (.iterJump 0 1 phrase)).emit 0 (.resetIters 0)).emit 0 (.reverbMod 30)).emit 0
    (.trackJump top)).build

/-- The drums play kick and snare in turn. -/
def drumTrack : TrackStream :=
  let start : Assembler := { header := { soundClass := .drums, maxVoices := 4 } }
  let (top, start) := start.label
  let beats := [kickKey, snareKey, kickKey, snareKey].foldl (fun (a : Assembler) key =>
    (a.emit 0 (.noteOn key 120)).emit beat (.noteOff key)) start
  (beats.emit 0 (.trackJump top)).build

/-- The effect rises by eight equal bends. -/
def effectTrack : TrackStream :=
  let start : Assembler :=
    { header :=
        { soundClass := .effect, patch := leadPatch, priority := 0xC0, maxVoices := 1 } }
  let bends := [1, 2, 3, 4, 5, 6, 7, 8].foldl (fun (a : Assembler) (step : Int16) =>
    a.emit 6 (.pitchMod (step * 1024))) (start.emit 0 (.noteOn 72 127))
  ((bends.emit 6 (.noteOff 72)).emit 0 .trackEnd).build

/-- The demo module. -/
def soundModule : SoundModule where
  sequences := #[#[bassTrack, leadTrack, drumTrack], #[effectTrack]]
  patches := bank

/-! ## Samples -/

/-- The square wave of sample `index`, whose period doubles with each sample. -/
def squareWave (index size : Nat) : List UInt8 :=
  (List.range size).map fun n => if n / (16 <<< index) % 2 = 0 then 0x40 else 0xC0

/-- Fills the chip's memory with every sample. -/
def upload {σ : Type} [SoundChip σ] (e : Engine σ) : Engine σ :=
  samples.toList.zipIdx.foldl (fun e (sample, index) =>
    (e.upload sample.address (squareWave index sample.size.toNat)).2) e

end SoundSequencer.Demo
