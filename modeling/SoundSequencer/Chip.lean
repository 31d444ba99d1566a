/-
SoundSequencer.Chip — the sound chip as an engine sees it.

* `VoiceSet` is a set of hardware voices, a bit for each.
* `RegisterMask` and `VoiceRegisters` say which registers of a voice to
  write and with what.
* `KeyStatus` is what the chip reports of a voice.
* `SoundChip` is what an engine asks of a chip. Every operation always
  succeeds; polling may change the chip.
-/

namespace SoundSequencer

/-- The number of hardware voices. -/
def hardwareVoices : Nat := 24

/-! ## Sets of voices -/

/-- A set of voices: bit `v` stands for voice `v`. -/
abbrev VoiceSet := BitVec 32

namespace VoiceSet

/-- No voice. -/
def empty : VoiceSet := 0

/-- The set of voice `v` alone; there are thirty-two bits. -/
def single (v : Nat) : VoiceSet := BitVec.twoPow 32 (v % 32)

/-- Whether voice `v` is in the set. -/
def contains (s : VoiceSet) (v : Nat) : Bool := s.getLsbD v

/-- The set with voice `v` as well. -/
def insert (s : VoiceSet) (v : Nat) : VoiceSet := s ||| single v

/-- The set without voice `v`. -/
def erase (s : VoiceSet) (v : Nat) : VoiceSet := s &&& ~~~ single v

/-- The set of the listed voices. -/
def ofList (vs : List Nat) : VoiceSet := vs.foldl insert empty

theorem contains_single {v w : Nat} (hv : v < 32) :
    (single v).contains w = decide (v = w) := by
  simp only [single, contains, Nat.mod_eq_of_lt hv, BitVec.getLsbD_twoPow]
  by_cases h : v = w <;> simp [h, hv]
  omega

theorem contains_insert {s : VoiceSet} {v w : Nat} (hv : v < 32) :
    (s.insert v).contains w = (s.contains w || decide (v = w)) := by
  rw [← contains_single hv]; simp [insert, contains]

end VoiceSet

/-! ## Registers -/

/-- Which registers of a voice to write. -/
structure RegisterMask where
  left : Bool := false
  right : Bool := false
  note : Bool := false
  sampleNote : Bool := false
  address : Bool := false
  adsr1 : Bool := false
  adsr2 : Bool := false
  releaseMode : Bool := false
  releaseRate : Bool := false
  deriving Repr, DecidableEq, Inhabited

namespace RegisterMask

/-- The levels of both channels. -/
def levels : RegisterMask := { left := true, right := true }

/-- Everything that a note needs to start. -/
def start : RegisterMask where
  left := true
  right := true
  note := true
  sampleNote := true
  address := true
  adsr1 := true
  adsr2 := true

/-- The curve and the rate of the release. -/
def release : RegisterMask := { releaseMode := true, releaseRate := true }

/-- The registers of either mask. -/
def union (m n : RegisterMask) : RegisterMask where
  left := m.left || n.left
  right := m.right || n.right
  note := m.note || n.note
  sampleNote := m.sampleNote || n.sampleNote
  address := m.address || n.address
  adsr1 := m.adsr1 || n.adsr1
  adsr2 := m.adsr2 || n.adsr2
  releaseMode := m.releaseMode || n.releaseMode
  releaseRate := m.releaseRate || n.releaseRate

/-- The mask as a number, the first register in the lowest bit. -/
def toBits (m : RegisterMask) : Nat :=
  [m.left, m.right, m.note, m.sampleNote, m.address, m.adsr1, m.adsr2, m.releaseMode,
    m.releaseRate].foldr (fun written bits => bits * 2 + written.toNat) 0

/-- The registers that a number marks; further bits mean nothing. -/
def ofBits (bits : Nat) : RegisterMask where
  left := bits.testBit 0
  right := bits.testBit 1
  note := bits.testBit 2
  sampleNote := bits.testBit 3
  address := bits.testBit 4
  adsr1 := bits.testBit 5
  adsr2 := bits.testBit 6
  releaseMode := bits.testBit 7
  releaseRate := bits.testBit 8

end RegisterMask

/-- The curve that a voice fades along after key-off. -/
inductive ReleaseMode where
  | linear | exponential
  deriving Repr, DecidableEq, Inhabited

/-- The registers of a voice. -/
structure VoiceRegisters where
  left : Int16 := 0
  right : Int16 := 0
  /-- The note to play: the semitone in the high byte, 128ths of it in the
  low byte. -/
  note : UInt16 := 0
  /-- The note that the sample was recorded at, written like `note`. -/
  sampleNote : UInt16 := 0
  /-- Where in memory the sample starts. -/
  address : UInt32 := 0
  adsr1 : UInt16 := 0
  adsr2 : UInt16 := 0
  releaseMode : ReleaseMode := .linear
  releaseRate : UInt8 := 0
  deriving Repr, DecidableEq, Inhabited

namespace VoiceRegisters

/-- The registers `old` after those in `mask` are written from `new`. -/
def write (old : VoiceRegisters) (mask : RegisterMask) (new : VoiceRegisters) :
    VoiceRegisters where
  left := if mask.left then new.left else old.left
  right := if mask.right then new.right else old.right
  note := if mask.note then new.note else old.note
  sampleNote := if mask.sampleNote then new.sampleNote else old.sampleNote
  address := if mask.address then new.address else old.address
  adsr1 := if mask.adsr1 then new.adsr1 else old.adsr1
  adsr2 := if mask.adsr2 then new.adsr2 else old.adsr2
  releaseMode := if mask.releaseMode then new.releaseMode else old.releaseMode
  releaseRate := if mask.releaseRate then new.releaseRate else old.releaseRate

end VoiceRegisters

/-- What the chip reports of a voice. -/
inductive KeyStatus where
  /-- Silent. -/
  | off
  | on
  /-- Keyed off, still fading. -/
  | releasing
  /-- Keyed on, already silent. -/
  | finished
  deriving Repr, DecidableEq, Inhabited

/-! ## The chip -/

/-- What an engine asks of a sound chip with the states `σ`. -/
class SoundChip (σ : Type) where
  /-- Writes the masked registers of every voice of a set. -/
  writeRegisters : VoiceSet → RegisterMask → VoiceRegisters → σ → σ
  /-- Keys voices on or off. -/
  setKey : Bool → VoiceSet → σ → σ
  /-- Writes registers, then keys on. -/
  keyOnWith : VoiceSet → RegisterMask → VoiceRegisters → σ → σ :=
    fun voices mask registers chip => setKey true voices (writeRegisters voices mask registers chip)
  /-- Reports the key status of every voice. -/
  pollKeys : σ → (Nat → KeyStatus) × σ
  /-- Sends voices to the reverb unit or takes them away from it. -/
  setReverb : Bool → VoiceSet → σ → σ
  setMasterVolume : Int16 → σ → σ
  setCdVolume : Int16 → σ → σ
  /-- Begins a transfer into the chip's memory at an address. -/
  startTransfer : UInt32 → σ → σ
  /-- Sends bytes to the transfer that has begun; says how many were taken. -/
  writeTransfer : List UInt8 → σ → Nat × σ
  /-- Asks whether the transfer is complete, or waits until it is. -/
  transferComplete : Bool → σ → Bool × σ

end SoundSequencer
