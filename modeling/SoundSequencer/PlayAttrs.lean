/-
SoundSequencer.PlayAttrs — settings that a caller gives to a sequence in
place of those in its track headers.

* `PlayMask` says which settings are given.
* `PlayAttrs` holds the mask and a value for every setting; the `with…`
  setters fill a value and mark it as given.
* `mutes` says whether a track of some mute groups starts muted.
-/

namespace SoundSequencer

/-- Which settings of a `PlayAttrs` are given. -/
structure PlayMask where
  volume : Bool := false
  pan : Bool := false
  patch : Bool := false
  pitch : Bool := false
  mute : Bool := false
  tempo : Bool := false
  timed : Bool := false
  looped : Bool := false
  reverb : Bool := false
  deriving Repr, DecidableEq, Inhabited

namespace PlayMask

/-- The mask as a number, the first setting in the lowest bit. -/
def toBits (m : PlayMask) : UInt32 :=
  [m.volume, m.pan, m.patch, m.pitch, m.mute, m.tempo, m.timed, m.looped, m.reverb].foldr
    (fun given bits => bits * 2 + given.toUInt32) 0

/-- The settings that a number marks; further bits mean nothing. -/
def ofBits (bits : UInt32) : PlayMask where
  volume := bits.toNat.testBit 0
  pan := bits.toNat.testBit 1
  patch := bits.toNat.testBit 2
  pitch := bits.toNat.testBit 3
  mute := bits.toNat.testBit 4
  tempo := bits.toNat.testBit 5
  timed := bits.toNat.testBit 6
  looped := bits.toNat.testBit 7
  reverb := bits.toNat.testBit 8

/-- Whether no setting is given. -/
def isEmpty (m : PlayMask) : Bool := m == {}

end PlayMask

/-- Settings in place of those in track headers. -/
structure PlayAttrs where
  mask : PlayMask := {}
  volume : UInt8 := 0
  pan : UInt8 := 0
  patch : UInt16 := 0
  pitch : Int16 := 0
  /-- The mute group whose tracks start muted. -/
  muteGroup : UInt8 := 0
  /-- Quarter notes per minute. -/
  tempo : UInt16 := 0
  /-- The parts after which a timed track turns itself off. -/
  playtime : UInt32 := 0
  reverb : UInt8 := 0
  deriving Repr, DecidableEq, Inhabited

namespace PlayAttrs

/-- The settings with a volume. -/
def withVolume (a : PlayAttrs) (volume : UInt8) : PlayAttrs :=
  { a with volume, mask := { a.mask with volume := true } }

/-- The settings with a pan. -/
def withPan (a : PlayAttrs) (pan : UInt8) : PlayAttrs :=
  { a with pan, mask := { a.mask with pan := true } }

/-- The settings with a patch. -/
def withPatch (a : PlayAttrs) (patch : UInt16) : PlayAttrs :=
  { a with patch, mask := { a.mask with patch := true } }

/-- The settings with a bend. -/
def withPitch (a : PlayAttrs) (pitch : Int16) : PlayAttrs :=
  { a with pitch, mask := { a.mask with pitch := true } }

/-- The settings with a mute group. -/
def withMuteGroup (a : PlayAttrs) (muteGroup : UInt8) : PlayAttrs :=
  { a with muteGroup, mask := { a.mask with mute := true } }

/-- The settings with a tempo. -/
def withTempo (a : PlayAttrs) (tempo : UInt16) : PlayAttrs :=
  { a with tempo, mask := { a.mask with tempo := true } }

/-- The settings with an end after some parts. -/
def withPlaytime (a : PlayAttrs) (playtime : UInt32) : PlayAttrs :=
  { a with playtime, mask := { a.mask with timed := true } }

/-- The settings with tracks that loop. -/
def asLooped (a : PlayAttrs) : PlayAttrs :=
  { a with mask := { a.mask with looped := true } }

/-- The settings with a depth of reverb. -/
def withReverb (a : PlayAttrs) (reverb : UInt8) : PlayAttrs :=
  { a with reverb, mask := { a.mask with reverb := true } }

/-- Whether a track of the given mute groups starts muted. There are
thirty-two groups. -/
def mutes (a : PlayAttrs) (groups : UInt32) : Bool :=
  a.mask.mute && groups.toNat.testBit a.muteGroup.toNat

end PlayAttrs

end SoundSequencer
