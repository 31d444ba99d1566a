/-
SoundSequencer.Chip.Recorder — a sound chip that makes no sound and
remembers what is asked of it.

* `ChipVoice` is a hardware voice: registers, the mask of those ever
  written, key status and reverb.
* `RecorderChip` holds the voices, the counts of key-ons and key-offs, the
  volumes, and a memory with one transfer.
* After key-off a voice is silent at once if `instantRelease` is set;
  otherwise it fades until `finishRelease`.
-/
import SoundSequencer.Chip

namespace SoundSequencer

/-- A hardware voice of the recording chip. -/
structure ChipVoice where
  registers : VoiceRegisters := {}
  /-- The registers written so far. -/
  written : RegisterMask := {}
  status : KeyStatus := .off
  reverb : Bool := false
  deriving Repr, DecidableEq, Inhabited

/-- A chip that remembers what is asked of it. -/
structure RecorderChip where
  voices : Array ChipVoice := Array.replicate hardwareVoices {}
  /-- Whether key-off silences a voice at once. -/
  instantRelease : Bool := true
  keyOns : Nat := 0
  keyOffs : Nat := 0
  masterVolume : Int16 := 0
  cdVolume : Int16 := 0
  /-- The byte at each address of the chip's memory. -/
  memory : Nat → UInt8 := fun _ => 0
  /-- Where the next byte of the transfer goes. -/
  transferAt : Nat := 0
  deriving Inhabited

namespace RecorderChip

/-- The size of the chip's memory. -/
def memorySize : Nat := 512 * 1024

/-! ## Voices -/

/-- Voice `v`; a voice that is not there is silent. -/
def voice (chip : RecorderChip) (v : Nat) : ChipVoice := chip.voices.getD v {}

/-- The chip with `f` applied to every voice of a set. -/
def mapVoices (chip : RecorderChip) (voices : VoiceSet) (f : ChipVoice → ChipVoice) :
    RecorderChip :=
  { chip with
    voices := chip.voices.mapIdx fun v voice => if voices.contains v then f voice else voice }

/-- The number of the chip's voices that are in a set. -/
def countVoices (chip : RecorderChip) (voices : VoiceSet) : Nat :=
  (List.range chip.voices.size).countP voices.contains

/-- Writes registers of every voice of a set and notes that they were written. -/
def writeRegisters (voices : VoiceSet) (mask : RegisterMask) (registers : VoiceRegisters)
    (chip : RecorderChip) : RecorderChip :=
  chip.mapVoices voices fun voice =>
    { voice with
      registers := voice.registers.write mask registers
      written := voice.written.union mask }

/-- Keys the voices of a set on or off and counts them. -/
def setKey (on : Bool) (voices : VoiceSet) (chip : RecorderChip) : RecorderChip :=
  let status := if on then .on else if chip.instantRelease then .off else .releasing
  let keyed := chip.mapVoices voices fun voice => { voice with status }
  let hit := chip.countVoices voices
  if on then { keyed with keyOns := keyed.keyOns + hit }
  else { keyed with keyOffs := keyed.keyOffs + hit }

/-- Sends the voices of a set to the reverb unit or takes them away from it. -/
def setReverb (on : Bool) (voices : VoiceSet) (chip : RecorderChip) : RecorderChip :=
  chip.mapVoices voices fun voice => { voice with reverb := on }

/-- Ends the fading of voice `v`, whatever its status. -/
def finishRelease (chip : RecorderChip) (v : Nat) : RecorderChip :=
  { chip with voices := chip.voices.modify v fun voice => { voice with status := .off } }

/-- Ends the fading of every voice. -/
def finishAllReleases (chip : RecorderChip) : RecorderChip :=
  { chip with
    voices := chip.voices.map fun voice =>
      if voice.status = .releasing then { voice with status := .off } else voice }

/-- The number of voices that are keyed on. -/
def keyedOn (chip : RecorderChip) : Nat := chip.voices.countP (·.status = .on)

/-! ## Memory -/

/-- Begins a transfer at an address. -/
def startTransfer (address : UInt32) (chip : RecorderChip) : RecorderChip :=
  { chip with transferAt := address.toNat }

/-- Stores as much of `data` as fits and says how many bytes that is. -/
def writeTransfer (data : List UInt8) (chip : RecorderChip) : Nat × RecorderChip :=
  let start := min chip.transferAt memorySize
  let stored := (data.take (memorySize - start)).toArray
  let memory := fun address =>
    if start ≤ address then stored.getD (address - start) (chip.memory address)
    else chip.memory address
  (stored.size, { chip with memory, transferAt := start + stored.size })

/-- Up to `count` bytes from `address` on, fewer at the end of the memory. -/
def readMemory (chip : RecorderChip) (address count : Nat) : List UInt8 :=
  (List.range' address (min count (memorySize - address))).map chip.memory

instance : SoundChip RecorderChip where
  writeRegisters := writeRegisters
  setKey := setKey
  pollKeys chip := (fun v => (chip.voice v).status, chip)
  setReverb := setReverb
  setMasterVolume volume chip := { chip with masterVolume := volume }
  setCdVolume volume chip := { chip with cdVolume := volume }
  startTransfer := startTransfer
  writeTransfer := writeTransfer
  transferComplete _ chip := (true, chip)

end RecorderChip

end SoundSequencer
