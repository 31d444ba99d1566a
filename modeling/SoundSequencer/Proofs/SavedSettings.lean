/-
SoundSequencer.Proofs.SavedSettings — settings that are written and read again.

* Settings are the settings of their record (`ofRecord_toRecord`), and the record has no need of
  quoted names or escapes (`plain_scalars`).
* `Settings.offender?` is the first setting that is out of its bounds, and reading refuses
  settings just for that one: `check_eq`.
* `Settings.read_exact`: in every lawful format, settings within their bounds are read as they
  were written, and settings that are read from any text keep their bounds and have their
  defaults where the text says nothing. In the plain format: `ofText_toText`.
-/
import SoundSequencer.Proofs.RecordFormats
import SoundSequencer.Settings

namespace SoundSequencer

open Document

theorem PanMode.ofPlace_place (mode : PanMode) : ofPlace mode.place = mode := by
  cases mode <;> rfl

theorem PanMode.place_ofPlace : ∀ i : Fin names.length, (ofPlace i).place = i := by
  decide

namespace Settings

/-! ## Settings as a record -/

theorem ofRecord_toRecord (s : Settings) : ofRecord s.toRecord = s := by
  simp only [ofRecord, toRecord, PanMode.ofPlace_place]

theorem toRecord_ofRecord : ∀ r : Record fields, (ofRecord r).toRecord = r
  | (effectVolume, musicVolume, place, muteRelease, tickRate, ()) =>
    congrArg (fun i => (effectVolume, musicVolume, i, muteRelease, tickRate, ()))
      (PanMode.place_ofPlace place)

/-- What settings say in a document. -/
def scalars (s : Settings) : List (String × Scalar) := Record.scalars fields s.toRecord

theorem plain_scalars (s : Settings) : Plain s.scalars :=
  Record.plain_scalars (s := shape) (by decide) s.toRecord

/-! ## Bounds -/

/-- The value of a bounded setting. -/
def value (s : Settings) : BoundedSetting → Nat
  | .effectVolume => s.effectVolume.toNat
  | .musicVolume => s.musicVolume.toNat
  | .tickRate => s.tickRate.toNat

/-- Whether a bounded setting may have a value. -/
def Admits : BoundedSetting → Nat → Prop
  | .effectVolume, n | .musicVolume, n => n ≤ 127
  | .tickRate, n => n ≠ 0

instance : ∀ (f : BoundedSetting) (n : Nat), Decidable (Admits f n)
  | .effectVolume, n | .musicVolume, n => inferInstanceAs (Decidable (n ≤ 127))
  | .tickRate, n => inferInstanceAs (Decidable (n ≠ 0))

/-- Every setting keeps its bounds. -/
def InBounds (s : Settings) : Prop := ∀ f, Admits f (s.value f)

/-- The first setting that is out of its bounds. -/
def offender? (s : Settings) : Option BoundedSetting :=
  [.effectVolume, .musicVolume, .tickRate].find? fun f => decide ¬ Admits f (s.value f)

theorem offender?_eq_none_iff {s : Settings} : s.offender? = none ↔ s.InBounds := by
  have hall : s.offender? = none ↔ ∀ f ∈ [BoundedSetting.effectVolume, .musicVolume, .tickRate],
      Admits f (s.value f) := by
    simp only [offender?, List.find?_eq_none, decide_eq_true_eq, Classical.not_not]
  refine hall.trans ⟨fun h f => h f ?_, fun h f _ => h f⟩
  cases f <;> decide

theorem inBounds_iff (s : Settings) :
    s.InBounds ↔ s.effectVolume ≤ 127 ∧ s.musicVolume ≤ 127 ∧ s.tickRate ≠ 0 := by
  rw [UInt8.le_iff_toNat_le, UInt8.le_iff_toNat_le, ne_eq, ← UInt32.toNat_inj]
  refine ⟨fun h => ⟨h .effectVolume, h .musicVolume, h .tickRate⟩, fun h f => ?_⟩
  cases f with
  | effectVolume => exact h.1
  | musicVolume => exact h.2.1
  | tickRate => exact h.2.2

/-- Settings are refused for the first that is out of its bounds. -/
theorem check_eq (s : Settings) :
    s.check =
      match s.offender? with
      | none => .ok s
      | some f => .error (.outOfRange f (s.value f)) := by
  have hvolume : ∀ volume : UInt8, maxMasterVolume < volume ↔ ¬ volume.toNat ≤ 127 := by
    intro volume
    rw [UInt8.lt_iff_toNat_lt, Nat.not_le]
    rfl
  have hrate : s.tickRate = 0 ↔ ¬ s.tickRate.toNat ≠ 0 := by
    rw [Classical.not_not, ← UInt32.toNat_inj]
    rfl
  simp only [check, offender?, hvolume, hrate, List.find?_cons, Admits, value]
  by_cases heffects : s.effectVolume.toNat ≤ 127
  case neg => simp [heffects]
  by_cases hmusic : s.musicVolume.toNat ≤ 127
  case neg => simp [heffects, hmusic]
  by_cases hticks : s.tickRate.toNat = 0
  · simp [heffects, hmusic, hticks]
  · simp [heffects, hmusic, hticks]

/-! ## Reading and writing -/

section Lawful

variable {format : Format}

/-- Settings are read from the text that they are written as, if they keep their bounds. -/
theorem exists_write? (h : format.Lawful) (s : Settings) :
    ∃ text, s.write? format = some text ∧ read format text = s.check := by
  obtain ⟨text, hwrite, hread⟩ := h.exists_write? (s := shape) s.plain_scalars
  refine ⟨text, hwrite, ?_⟩
  rw [read, hread]
  exact congrArg check s.ofRecord_toRecord

/-- What is read from a text keeps its bounds, and is in the record that the text is read as. -/
theorem of_read_eq_ok {text : String} {s : Settings} (h : read format text = .ok s) :
    s.InBounds ∧ ∃ t, format.parse? text = some t ∧ format.decode? shape t = some s.toRecord := by
  unfold read at h
  split at h
  · cases h
  · next r hr =>
    obtain ⟨t, hparse, hdecode⟩ := Option.bind_eq_some_iff.mp hr
    rw [check_eq] at h
    split at h
    · next hnone =>
      cases h
      exact ⟨offender?_eq_none_iff.mp hnone, t, hparse,
        hdecode.trans (congrArg some (toRecord_ofRecord r).symm)⟩
    · cases h

/-- Under a name that a text does not give, the settings read from it say what the defaults
say. -/
theorem lookup_scalars_eq_default (h : format.Lawful) {t : format.Table} {s : Settings}
    (hdecode : format.decode? shape t = some s.toRecord) {name : String}
    (hname : format.get? t name = none) :
    s.scalars.lookup name = ({} : Settings).scalars.lookup name :=
  ((h.decode?_eq_some_iff shape t _).mp hdecode).2.lookup_eq_default hname

/-- In every lawful format, settings within their bounds are read as they were written, and others
are refused for the first that is out of its bounds. Settings that are read from any text keep
their bounds, and have their defaults where the text says nothing. -/
theorem read_exact (h : format.Lawful) :
    (∀ s : Settings, ∃ text, s.write? format = some text ∧
      read format text =
        match s.offender? with
        | none => .ok s
        | some f => .error (.outOfRange f (s.value f))) ∧
    (∀ s : Settings, s.offender? = none ↔
      s.effectVolume ≤ 127 ∧ s.musicVolume ≤ 127 ∧ s.tickRate ≠ 0) ∧
    ∀ (text : String) (s : Settings), read format text = .ok s →
      (s.effectVolume ≤ 127 ∧ s.musicVolume ≤ 127 ∧ s.tickRate ≠ 0) ∧
        ∃ t, format.parse? text = some t ∧
          ∀ name, format.get? t name = none →
            s.scalars.lookup name = ({} : Settings).scalars.lookup name := by
  refine ⟨fun s => ?_, fun s => offender?_eq_none_iff.trans s.inBounds_iff, fun text s hread => ?_⟩
  · obtain ⟨text, hwrite, hread⟩ := exists_write? h s
    exact ⟨text, hwrite, hread.trans s.check_eq⟩
  · obtain ⟨hin, t, hparse, hdecode⟩ := of_read_eq_ok hread
    exact ⟨s.inBounds_iff.mp hin, t, hparse, fun _ => lookup_scalars_eq_default h hdecode⟩

end Lawful

/-- Settings in the plain format are read as they were written, if they keep their bounds. -/
theorem ofText_toText (s : Settings) : ofText s.toText = s.check := by
  obtain ⟨text, hwrite, hread⟩ := exists_write? Format.lawful_plain s
  rw [ofText, toText, hwrite, Option.getD_some, hread]

/-- In the plain format: settings that are read as they were written, settings that are refused for
the first of two reasons, and a text that says two things and leaves the rest to the defaults. -/
theorem read_exact_plain :
    (∃ text, ({ musicVolume := 90, panMode := .off } : Settings).write? .plain = some text ∧
      read .plain text = .ok { musicVolume := 90, panMode := .off }) ∧
    (∃ text, ({ musicVolume := 200, tickRate := 0 } : Settings).write? .plain = some text ∧
      read .plain text = .error (.outOfRange .musicVolume 200)) ∧
    ∃ s, read .plain "music_volume = 90\npan_mode = \"off\"" = .ok s ∧
      s = { musicVolume := 90, panMode := .off } ∧
      (s.effectVolume ≤ 127 ∧ s.musicVolume ≤ 127 ∧ s.tickRate ≠ 0) ∧
      ∃ t, Format.plain.parse? "music_volume = 90\npan_mode = \"off\"" = some t ∧
        ∀ name, Format.plain.get? t name = none →
          s.scalars.lookup name = ({} : Settings).scalars.lookup name := by
  have hkept : offender? { musicVolume := 90, panMode := .off } = none := by decide
  have hfirst : offender? { musicVolume := 200, tickRate := 0 } = some .musicVolume := by decide
  have hread : (match read .plain "music_volume = 90\npan_mode = \"off\"" with
      | .ok s => decide (s = { musicVolume := 90, panMode := .off })
      | .error _ => false) = true := by decide +kernel
  refine ⟨?_, ?_, ?_⟩
  · have hwritten := (read_exact Format.lawful_plain).1 { musicVolume := 90, panMode := .off }
    rw [hkept] at hwritten
    exact hwritten
  · have hwritten := (read_exact Format.lawful_plain).1 { musicVolume := 200, tickRate := 0 }
    rw [hfirst] at hwritten
    exact hwritten
  · split at hread
    · next s hs =>
      exact ⟨s, hs, of_decide_eq_true hread, (read_exact Format.lawful_plain).2.2 _ s hs⟩
    · cases hread

end Settings

end SoundSequencer
