/-
SoundSequencer.Settings — the settings of an engine as a user keeps them.

* `Settings` holds volumes, pan mode, mute release and tick rate.
* `Settings.shape` declares them as a record with defaults.
* `Settings.write?` writes them as a text of a given format, `Settings.read`
  reads one. `Settings.toText` and `Settings.ofText` are in the plain format.
* `Settings.check` refuses volumes above 127 and a tick rate of zero.
* `Settings.apply` puts them into an engine.
-/
import SoundSequencer.Document.Plain
import SoundSequencer.Engine.Masters

namespace SoundSequencer

/-- The settings of an engine. -/
structure Settings where
  effectVolume : UInt8 := maxMasterVolume
  musicVolume : UInt8 := maxMasterVolume
  panMode : PanMode := .on
  /-- The milliseconds that a mute may take. -/
  muteRelease : UInt32 := defaultMuteRelease
  /-- The ticks in a second that a host is to run. Tempos are right at 120. -/
  tickRate : UInt32 := UInt32.ofNat ticksPerSecond
  deriving Repr, DecidableEq, Inhabited

/-- The settings with bounds of their own. -/
inductive BoundedSetting where
  | effectVolume | musicVolume | tickRate
  deriving Repr, DecidableEq

/-- The name of a bounded setting in a document. -/
def BoundedSetting.name : BoundedSetting → String
  | .effectVolume => "sfx_volume"
  | .musicVolume => "music_volume"
  | .tickRate => "tick_hz"

/-- Why settings are refused. -/
inductive SettingsError where
  /-- The document cannot be had. -/
  | unreadable (reason : String)
  /-- It is no document of settings. -/
  | malformed
  /-- A setting is out of bounds. -/
  | outOfRange (setting : BoundedSetting) (value : Nat)
  deriving Repr, DecidableEq

/-- The wording of a refusal. -/
def SettingsError.message : SettingsError → String
  | unreadable reason => "config I/O: " ++ reason
  | malformed => "config parse: not a document of settings"
  | outOfRange setting value => s!"config field {setting.name} out of range: {value}"

namespace PanMode

/-- The names of the pan modes in a document. -/
def names : List String := ["off", "on", "on_reversed"]

/-- The place of a pan mode among the names. -/
def place : PanMode → Fin names.length
  | off => ⟨0, by decide⟩
  | on => ⟨1, by decide⟩
  | reversed => ⟨2, by decide⟩

/-- The pan mode at a place. -/
def ofPlace (i : Fin names.length) : PanMode :=
  match i.val with
  | 0 => off
  | 1 => on
  | _ => reversed

/-- The name of a pan mode in a document. -/
def name (mode : PanMode) : String := names[mode.place]

/-- The pan mode of a name. -/
def ofName? (name : String) : Option PanMode := (names.finIdxOf? name).map ofPlace

end PanMode

namespace Settings

/-! ## Bounds -/

/-- The settings, if they keep their bounds; the first that does not is named. -/
def check (s : Settings) : Except SettingsError Settings :=
  if maxMasterVolume < s.effectVolume then .error (.outOfRange .effectVolume s.effectVolume.toNat)
  else if maxMasterVolume < s.musicVolume then
    .error (.outOfRange .musicVolume s.musicVolume.toNat)
  else if s.tickRate = 0 then .error (.outOfRange .tickRate 0)
  else .ok s

/-! ## Settings as a record -/

/-- The fields of settings in a document. -/
def fields : List Document.Field :=
  [⟨"sfx_volume", .byte⟩, ⟨"music_volume", .byte⟩,
    ⟨"pan_mode", .choice PanMode.names (by decide)⟩,
    ⟨"mute_release_ms", .word⟩, ⟨"tick_hz", .word⟩]

/-- The settings as a record. -/
def toRecord (s : Settings) : Document.Record fields :=
  (s.effectVolume, s.musicVolume, s.panMode.place, s.muteRelease, s.tickRate, ())

/-- The settings of a record. -/
def ofRecord : Document.Record fields → Settings
  | (effectVolume, musicVolume, place, muteRelease, tickRate, ()) =>
    { effectVolume, musicVolume, panMode := .ofPlace place, muteRelease, tickRate }

/-- A document of settings may leave any of them at its default, and gives nothing else. -/
def shape : Document.Shape where
  fields := fields
  distinct := by decide
  default := some ({} : Settings).toRecord
  closed := true

/-! ## Reading and writing -/

/-- Reads settings from a text. -/
def read (format : Document.Format) (text : String) : Except SettingsError Settings :=
  match (format.parse? text).bind (format.decode? shape) with
  | none => .error .malformed
  | some r => (ofRecord r).check

/-- Writes settings as a text that gives them all. -/
def write? (format : Document.Format) (s : Settings) : Option String :=
  format.write? shape s.toRecord

/-- Reads settings from a text in the plain format. -/
def ofText (text : String) : Except SettingsError Settings := read .plain text

/-- Writes settings as a text in the plain format. -/
def toText (s : Settings) : String := (s.write? .plain).getD ""

/-! ## Use -/

/-- Puts the settings of sound into an engine. -/
def apply {σ : Type} [SoundChip σ] (s : Settings) (e : Engine σ) : Engine σ :=
  (((e.setVolumeOf .effects s.effectVolume).setVolumeOf .music s.musicVolume).setPanMode
    s.panMode).setMuteRelease s.muteRelease

end Settings

end SoundSequencer
