/-
SoundSequencer.Proofs.Session — an engine in the hands of its host.

* `Call` lists what a host may do: tick, start, stop, pause and so on, and
  use the chip directly.
* `Session` is an engine with the notes that its pauses have put aside.
  `Session.perform` makes one call, `Session.run` several.
* `Session.Allows` says of a run that every call is fit for the state in
  which it is made, `Session.Throughout` that every state on the way,
  first and last included, has a property.
-/
import SoundSequencer.Engine.Calls
import SoundSequencer.Engine.Masters
import SoundSequencer.Engine.Tick
import SoundSequencer.Track.Assembler

namespace SoundSequencer

/-! ## Calls -/

/-- What a host may do with an engine whose chip has states in `σ`. -/
inductive Call (σ : Type) where
  | tick
  | start (sequence : Nat) (options : StartOptions)
  | releaseHandle (slot : Nat)
  | stop (sequence : Nat)
  | stopAll
  | stopTagged (tag : UInt32)
  | pause (sequence : Nat) (mute : Bool)
  | pauseAll (mute : Bool) (saved : List SavedNote)
  | restart (sequence : Nat)
  | restartAll (saved : List SavedNote)
  | updateTagged (tag : UInt32) (attrs : PlayAttrs)
  | setVolumeOf (kind : MasterKind) (volume : UInt8)
  | setPanMode (panMode : PanMode)
  | setMuteRelease (ms : UInt32)
  | setMasterVolume (volume : Int16)
  | startMasterFade (ms : UInt32) (dest : Int16)
  | setCdVolume (volume : Int16)
  | startCdFade (ms : UInt32) (dest : Int16)
  | upload (address : UInt32) (data : List UInt8)
  | listen (kind : UInt8)
  | unlisten (kind : UInt8)
  | takeMarks
  /-- Whatever the host does to the chip behind the engine's back. -/
  | onChip (f : σ → σ)

namespace Call

variable {σ : Type}

/-- Whether a call is a tick. -/
def isTick : Call σ → Bool
  | .tick => true
  | _ => false

theorem eq_tick {call : Call σ} (h : call.isTick = true) : call = .tick := by
  cases call with
  | tick => rfl
  | _ => cases h

/-- Whether a call lets tracks go on. -/
def letsGoOn : Call σ → Bool
  | .restart _ | .restartAll _ => true
  | _ => false

/-- Whether a call starts a sequence that a handle holds. -/
def takesHandle : Call σ → Bool
  | .start _ options => options.handled
  | _ => false

/-- The notes that a call strikes again. -/
def struck : Call σ → List SavedNote
  | .restartAll saved => saved
  | _ => []

end Call

/-- An engine in use. -/
structure Session (σ : Type) where
  engine : Engine σ
  /-- Every note that a pause has put aside so far. -/
  noted : List SavedNote := []

namespace Session

variable {σ : Type} [SoundChip σ]

/-- The session with another engine. -/
def withEngine (s : Session σ) (engine : Engine σ) : Session σ := { s with engine }

/-- The session after a call. -/
def perform (s : Session σ) : Call σ → Session σ
  | .tick => s.withEngine s.engine.tick
  | .start sequence options => s.withEngine (s.engine.startSequence sequence options).2
  | .releaseHandle slot => s.withEngine (s.engine.releaseHandle slot)
  | .stop sequence => s.withEngine (s.engine.stop sequence)
  | .stopAll => s.withEngine s.engine.stopAll
  | .stopTagged tag => s.withEngine (s.engine.stopTagged tag)
  | .pause sequence mute => s.withEngine (s.engine.pause sequence mute)
  | .pauseAll mute saved =>
    let (saved, engine) := s.engine.pauseAll mute saved
    { engine, noted := s.noted ++ saved }
  | .restart sequence => s.withEngine (s.engine.restart sequence)
  | .restartAll saved => s.withEngine (s.engine.restartAll saved)
  | .updateTagged tag attrs => s.withEngine (s.engine.updateTagged tag attrs)
  | .setVolumeOf kind volume => s.withEngine (s.engine.setVolumeOf kind volume)
  | .setPanMode panMode => s.withEngine (s.engine.setPanMode panMode)
  | .setMuteRelease ms => s.withEngine (s.engine.setMuteRelease ms)
  | .setMasterVolume volume => s.withEngine (s.engine.setMasterVolume volume)
  | .startMasterFade ms dest => s.withEngine (s.engine.startMasterFade ms dest)
  | .setCdVolume volume => s.withEngine (s.engine.setCdVolume volume)
  | .startCdFade ms dest => s.withEngine (s.engine.startCdFade ms dest)
  | .upload address data => s.withEngine (s.engine.upload address data).2
  | .listen kind =>
    match s.engine.listen kind with
    | .ok engine => s.withEngine engine
    | .error _ => s
  | .unlisten kind => s.withEngine (s.engine.unlisten kind)
  | .takeMarks => s.withEngine s.engine.takeMarks.2
  | .onChip f => s.withEngine { s.engine with chip := f s.engine.chip }

/-- Left to unification, this makes Lean compute the tick. -/
theorem engine_tick (s : Session σ) : (s.perform .tick).engine = s.engine.tick := by
  simp only [perform, withEngine]

/-! ## Runs -/

/-- The session after a list of calls. -/
def run (s : Session σ) (calls : List (Call σ)) : Session σ := calls.foldl perform s

theorem run_cons (s : Session σ) (call : Call σ) (calls : List (Call σ)) :
    s.run (call :: calls) = (s.perform call).run calls := rfl

/-- Whether every call of a run is fit for the session in which it is made. -/
def Allows (fit : Session σ → Call σ → Prop) : Session σ → List (Call σ) → Prop
  | _, [] => True
  | s, call :: calls => fit s call ∧ Allows fit (s.perform call) calls

/-- Whether every session that a run passes through has a property. -/
def Throughout (good : Session σ → Prop) : Session σ → List (Call σ) → Prop
  | s, [] => good s
  | s, call :: calls => good s ∧ Throughout good (s.perform call) calls

instance decidableAllows {fit : Session σ → Call σ → Prop} [∀ s call, Decidable (fit s call)] :
    ∀ (s : Session σ) (calls : List (Call σ)), Decidable (s.Allows fit calls)
  | _, [] => .isTrue trivial
  | s, call :: calls =>
    have : Decidable ((s.perform call).Allows fit calls) := decidableAllows _ calls
    inferInstanceAs (Decidable (fit s call ∧ (s.perform call).Allows fit calls))

theorem allows_of_forall {fit : Session σ → Call σ → Prop} (hfit : ∀ s call, fit s call) :
    ∀ (calls : List (Call σ)) (s : Session σ), s.Allows fit calls
  | [], _ => trivial
  | call :: calls, s => ⟨hfit s call, allows_of_forall hfit calls (s.perform call)⟩

/-- What holds at first and is kept by every fit call holds throughout a run of
fit calls. -/
theorem Allows.throughout {fit : Session σ → Call σ → Prop} (good : Session σ → Prop)
    (keeps : ∀ s call, good s → fit s call → good (s.perform call)) :
    ∀ {calls : List (Call σ)} {s : Session σ}, s.Allows fit calls → good s →
      s.Throughout good calls
  | [], _, _, h => h
  | call :: _, s, ⟨hfit, hrest⟩, h => ⟨h, hrest.throughout good keeps (keeps s call h hfit)⟩

/-- Where fit calls, and no others, keep a property, it holds throughout the runs of
fit calls and no others. -/
theorem throughout_iff_allows {fit : Session σ → Call σ → Prop} {good : Session σ → Prop}
    (hfit : ∀ s call, good s → (good (s.perform call) ↔ fit s call)) :
    ∀ (calls : List (Call σ)) (s : Session σ), good s →
      (s.Throughout good calls ↔ s.Allows fit calls)
  | [], _, h => iff_of_true h trivial
  | call :: calls, s, h => by
    constructor
    · rintro ⟨-, hrest⟩
      have hnext : good (s.perform call) := by
        cases calls with
        | nil => exact hrest
        | cons => exact hrest.1
      exact ⟨(hfit s call h).mp hnext,
        (throughout_iff_allows hfit calls _ hnext).mp hrest⟩
    · rintro ⟨hcall, hrest⟩
      have hnext : good (s.perform call) := (hfit s call h).mpr hcall
      exact ⟨h, (throughout_iff_allows hfit calls _ hnext).mpr hrest⟩

/-- Two conditions on calls that come to the same wherever the calls so far were fit
allow the same runs. -/
theorem allows_iff_allows {permitted fit : Session σ → Call σ → Prop}
    (good : Session σ → Prop) (fine : Session σ → Call σ → Prop)
    (hiff : ∀ s call, good s → permitted s call → (fit s call ↔ fine s call))
    (hkeeps : ∀ s call, good s → permitted s call → fine s call → good (s.perform call)) :
    ∀ {calls : List (Call σ)} {s : Session σ}, s.Allows permitted calls → good s →
      (s.Allows fit calls ↔ s.Allows fine calls)
  | [], _, _, _ => Iff.rfl
  | call :: _, s, ⟨hcall, hrest⟩, h => by
    have hsame := hiff s call h hcall
    constructor
    · rintro ⟨hfit, hfits⟩
      have hnext := hkeeps s call h hcall (hsame.mp hfit)
      exact ⟨hsame.mp hfit, (allows_iff_allows good fine hiff hkeeps hrest hnext).mp hfits⟩
    · rintro ⟨hfine, hfines⟩
      have hnext := hkeeps s call h hcall hfine
      exact ⟨hsame.mpr hfine, (allows_iff_allows good fine hiff hkeeps hrest hnext).mpr hfines⟩

theorem throughout_and {good fine : Session σ → Prop} :
    ∀ (calls : List (Call σ)) (s : Session σ),
      s.Throughout (fun s => good s ∧ fine s) calls ↔
        s.Throughout good calls ∧ s.Throughout fine calls
  | [], _ => Iff.rfl
  | _ :: calls, s => by
    simp only [Throughout, throughout_and calls]
    constructor
    · rintro ⟨⟨hgood, hfine⟩, hgoods, hfines⟩
      exact ⟨⟨hgood, hgoods⟩, hfine, hfines⟩
    · rintro ⟨⟨hgood, hgoods⟩, hfine, hfines⟩
      exact ⟨⟨hgood, hfine⟩, hgoods, hfines⟩

theorem Throughout.last {good : Session σ → Prop} :
    ∀ {calls : List (Call σ)} {s : Session σ}, s.Throughout good calls → good (s.run calls)
  | [], _, h => h
  | _ :: _, _, ⟨_, hrest⟩ => hrest.last

theorem Throughout.imp {good fine : Session σ → Prop} (himp : ∀ s, good s → fine s) :
    ∀ {calls : List (Call σ)} {s : Session σ}, s.Throughout good calls →
      s.Throughout fine calls
  | [], s, h => himp s h
  | _ :: _, s, ⟨h, hrest⟩ => ⟨himp s h, hrest.imp himp⟩

end Session

/-! ## A new engine -/

namespace Engine

variable {σ : Type} [SoundChip σ] {module : SoundModule} {chip : σ}

theorem getD_replicate {α : Type} (n i : Nat) (a : α) : (Array.replicate n a).getD i a = a := by
  by_cases hi : i < n
  · simp [Array.getD_eq_getD_getElem?, hi]
  · simp [Array.getD_eq_getD_getElem?, hi]

theorem track_make {e : Engine σ} (h : Engine.make module chip = .ok e) (i : Nat) :
    e.track i = {} := by
  unfold Engine.make at h
  split at h
  · cases h
  · cases h
    exact getD_replicate _ _ _

theorem voice_make {e : Engine σ} (h : Engine.make module chip = .ok e) (v : Nat) :
    e.voice v = {} := by
  unfold Engine.make at h
  split at h
  · cases h
  · cases h
    exact getD_replicate _ _ _

/-- The slots of a new engine are empty and wide enough for every sequence. -/
theorem slot_make {e : Engine σ} (h : Engine.make module chip = .ok e) (s : Nat) :
    (e.slot s).active = false ∧ (∀ p, (e.slot s).tracks.getD p none = none) ∧
      (s < e.slots.size → (e.slot s).tracks.size = e.module.widestSequence) := by
  unfold Engine.make at h
  split at h
  · cases h
  · cases h
    by_cases hs : s < module.limits.sequences.toNat
    · simp [slot, Array.getD_eq_getD_getElem?, hs, Slot.ofSizes, Array.getElem?_replicate]
      intro p
      split <;> rfl
    · simp [slot, Array.getD_eq_getD_getElem?, hs]

theorem counts_make {e : Engine σ} (h : Engine.make module chip = .ok e) :
    e.tracksActive = 0 ∧ e.slotsActive = 0 := by
  unfold Engine.make at h
  split at h
  · cases h
  · cases h
    exact ⟨rfl, rfl⟩

/-- What can be computed of a new engine holds of it. -/
theorem exists_make {good : Engine σ → Prop} [DecidablePred good]
    (h : (match Engine.make module chip with
      | .ok e => decide (good e)
      | .error _ => false) = true) : ∃ e, Engine.make module chip = .ok e ∧ good e := by
  split at h
  · next e he => exact ⟨e, he, of_decide_eq_true h⟩
  · cases h

end Engine

/-! ## A module of one track -/

/-- A track with the given events. -/
def TrackHeader.plays (header : TrackHeader) (events : List (UInt32 × Command)) : TrackStream :=
  (events.foldl (fun a (delta, c) => a.emit delta c) ({ header } : Assembler)).build

/-- A module whose only sequence has one track, for an engine with one voice. -/
def solo (events : List (UInt32 × Command)) : SoundModule where
  limits := { sequences := 1, tracks := 1, voices := 1 }
  sequences := #[#[(events.foldl (fun a (delta, c) => a.emit delta c) ({} : Assembler)).build]]
  patches := {
    patches := #[{ voiceCount := 1 }]
    voices := #[{ adsr2 := 0x34 }]
    samples := #[{ address := 4096, size := 64 }] }

/-- The same, but the track plays drums: its first keys mean the given notes. -/
def drumSolo (notes : List UInt8) (events : List (UInt32 × Command)) : SoundModule :=
  { solo events with
    sequences := (solo events).sequences.map fun tracks =>
      tracks.map fun track => { track with header := { track.header with soundClass := .drums } }
    patches := { (solo events).patches with drums := (notes.map fun note => { note }).toArray } }

end SoundSequencer
