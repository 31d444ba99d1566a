/-
SoundSequencer.PatchBank — the instrument tables of a sound module.

* `Patch` is an instrument: a run of entries in the table of patch voices.
* `PatchVoice` says how one range of keys sounds.
* `Sample` is a recording in the chip's memory.
* `DrumKey` says what a key of a drum track plays.
* `PatchBank` holds the four tables; `voiceRange` is the run of a patch.
-/

namespace SoundSequencer

/-- An instrument: `voiceCount` patch voices from `firstVoice` on. -/
structure Patch where
  firstVoice : UInt16 := 0
  voiceCount : UInt16 := 0
  deriving Repr, DecidableEq, Inhabited

/-- How an instrument sounds in a range of keys. -/
structure PatchVoice where
  priority : UInt8 := 0
  reverb : UInt8 := 0
  volume : UInt8 := 127
  pan : UInt8 := 64
  /-- The key that the sample was recorded at. -/
  baseNote : UInt8 := 60
  /-- Fine tuning of the base note, in 128ths of a semitone. -/
  baseNoteFrac : UInt8 := 0
  /-- The lowest key that sounds. -/
  noteMin : UInt8 := 0
  /-- The highest key that sounds. -/
  noteMax : UInt8 := 127
  /-- What a step of upward bend adds, in 8192ths of a semitone. -/
  bendUp : UInt8 := 0
  /-- What a step of downward bend takes away. -/
  bendDown : UInt8 := 0
  sample : UInt16 := 0
  adsr1 : UInt16 := 0
  adsr2 : UInt16 := 0
  deriving Repr, DecidableEq, Inhabited

/-- Whether `note` is in the range of the patch voice. -/
def PatchVoice.answers (p : PatchVoice) (note : UInt8) : Bool :=
  p.noteMin ≤ note && note ≤ p.noteMax

/-- A recording in the chip's memory. -/
structure Sample where
  /-- Zero for a sample that is not in memory. -/
  address : UInt32 := 0
  size : UInt32 := 0
  deriving Repr, DecidableEq, Inhabited

/-- Whether the sample is in memory. -/
def Sample.isLoaded (s : Sample) : Bool := s.address != 0

/-- What a key of a drum track plays. -/
structure DrumKey where
  patch : UInt16 := 0
  note : UInt8 := 0
  deriving Repr, DecidableEq, Inhabited

/-- The instrument tables of a module. -/
structure PatchBank where
  patches : Array Patch := #[]
  voices : Array PatchVoice := #[]
  samples : Array Sample := #[]
  drums : Array DrumKey := #[]
  deriving Repr, DecidableEq, Inhabited

namespace PatchBank

/-- The patch at an index. -/
def patch? (b : PatchBank) (index : UInt16) : Option Patch := b.patches[index.toNat]?

/-- The patch voice at an index. -/
def voice? (b : PatchBank) (index : Nat) : Option PatchVoice := b.voices[index]?

/-- The sample at an index. -/
def sample? (b : PatchBank) (index : UInt16) : Option Sample := b.samples[index.toNat]?

/-- What a drum key plays. -/
def drum? (b : PatchBank) (key : UInt8) : Option DrumKey := b.drums[key.toNat]?

/-- The first entry of a patch in the table of patch voices and the entry
behind its last. A patch that is missing or that runs past the table has
none. -/
def voiceRange (b : PatchBank) (patch : UInt16) : Nat × Nat :=
  match b.patch? patch with
  | none => (0, 0)
  | some p =>
    let first := p.firstVoice.toNat
    let last := first + p.voiceCount.toNat
    if last ≤ b.voices.size then (first, last) else (0, 0)

/-- The entries of a patch in the table of patch voices. -/
def voiceIndices (b : PatchBank) (patch : UInt16) : List Nat :=
  let (first, last) := b.voiceRange patch
  List.range' first (last - first)

/-- The bank with a sample more, and the sample's index. -/
def addSample (b : PatchBank) (s : Sample) : UInt16 × PatchBank :=
  (UInt16.ofNat b.samples.size, { b with samples := b.samples.push s })

/-- The bank with a patch of the given voices more, and the patch's index. -/
def addPatch (b : PatchBank) (voices : Array PatchVoice) : UInt16 × PatchBank :=
  let patch : Patch := ⟨UInt16.ofNat b.voices.size, UInt16.ofNat voices.size⟩
  (UInt16.ofNat b.patches.size,
    { b with patches := b.patches.push patch, voices := b.voices ++ voices })

end PatchBank

end SoundSequencer
