/-
SoundSequencer.Proofs.Accepted — what an accepted sound module is like.

* `findFlaw_eq_none` says that a table in which no flaw is found has none.
* `SoundModule.Accepted` lists what admission checks, as bounds that hold all over the
  module; `SoundModule.flaw?_eq_none_iff` says that admission checks just that.
* `Accepted.widestSequence_le` bounds the tracks of every slot.
* `Engine.exists_make_iff` and `Engine.make_eq_error_iff` say when an engine is made.
-/
import Mathlib.Tactic.Common
import SoundSequencer.Engine.State

namespace SoundSequencer

theorem findFlaw_eq_none {α : Type} {flaw : Nat → α → Option EngineError} :
    ∀ {l : List α} {index : Nat}, findFlaw flaw index l = none ↔
      ∀ (k : Nat) (a : α), l[k]? = some a → flaw (index + k) a = none
  | [], index => by simp [findFlaw]
  | a :: l, index => by
    rw [findFlaw, Option.or_eq_none_iff, findFlaw_eq_none]
    constructor
    · rintro ⟨hfirst, hrest⟩ k b hb
      cases k with
      | zero =>
        obtain rfl : a = b := by simpa using hb
        exact hfirst
      | succ k =>
        have hflaw := hrest k b (by simpa using hb)
        rwa [show index + (k + 1) = index + 1 + k by omega]
    · intro h
      refine ⟨h 0 a rfl, fun k b hb => ?_⟩
      have hflaw := h (k + 1) b (by simpa using hb)
      rwa [show index + 1 + k = index + (k + 1) by omega]

namespace Limits

theorem flaw?_eq_none_iff {l : Limits} :
    l.flaw? = none ↔
      l.sequences ≠ 0 ∧ l.tracks ≠ 0 ∧ l.voices ≠ 0 ∧ l.voices.toNat ≤ hardwareVoices := by
  unfold flaw?
  by_cases hsequences : l.sequences = 0
  · simp [hsequences]
  · by_cases htracks : l.tracks = 0
    · simp [hsequences, htracks]
    · by_cases hvoices : l.voices = 0
      · simp [hsequences, htracks, hvoices]
      · simp [hsequences, htracks, hvoices]

end Limits

namespace TrackStream

theorem flaw?_eq_none_iff {sequence track : Nat} {s : TrackStream} :
    s.flaw? sequence track = none ↔
      s.header.returnDepth.toNat ≤ maxReturnDepth ∧ ∀ place ∈ s.labels, place < s.bytes.size := by
  unfold flaw?
  split
  · next hdeep => exact iff_of_false nofun fun h => Nat.not_lt.mpr h.1 hdeep
  · next hdepth =>
    rw [Option.map_eq_none_iff, Array.findIdx?_eq_none_iff]
    simp only [decide_eq_false_iff_not, Nat.not_le]
    exact ⟨fun h => ⟨Nat.le_of_not_lt hdepth, h⟩, And.right⟩

end TrackStream

namespace PatchBank

theorem flaw?_eq_none_iff {b : PatchBank} :
    b.flaw? = none ↔
      (∀ p ∈ b.patches, p.firstVoice.toNat + p.voiceCount.toNat ≤ b.voices.size) ∧
        (∀ v ∈ b.voices, (b.sample? v.sample).isSome) ∧
        ∀ d ∈ b.drums, (b.patch? d.patch).isSome := by
  -- a table of which every entry passes
  have hall : ∀ {α : Type} {l : Array α} {p : α → Prop} [DecidablePred p]
      {error : Nat → α → EngineError},
      findFlaw (fun index a => if p a then some (error index a) else none) 0 l.toList = none ↔
        ∀ a ∈ l, ¬ p a := by
    intro α l p _ error
    rw [findFlaw_eq_none]
    simp only [ite_eq_right_iff, reduceCtorEq, imp_false, Array.getElem?_toList]
    exact ⟨fun h a ha => by
      obtain ⟨k, hk⟩ := Array.getElem?_of_mem ha
      exact h k a hk, fun h k a hk => h a (Array.mem_of_getElem? hk)⟩
  unfold flaw?
  dsimp only
  rw [Option.or_eq_none_iff, Option.or_eq_none_iff, hall, hall, hall]
  simp only [Nat.not_lt, Option.isNone_iff_eq_none, Option.ne_none_iff_isSome]

end PatchBank

namespace SoundModule

/-- What admission checks: pools that are not empty and no larger than the hardware,
sequences that are not too wide, stacks that are not too deep, labels within their
streams, and tables that refer to what is there. -/
structure Accepted (m : SoundModule) : Prop where
  pools : m.limits.sequences ≠ 0 ∧ m.limits.tracks ≠ 0 ∧ m.limits.voices ≠ 0
  voices_le : m.limits.voices.toNat ≤ hardwareVoices
  size_le : ∀ {sequence : Nat} {tracks : Array TrackStream},
    m.sequences[sequence]? = some tracks → tracks.size ≤ maxTracksPerSequence
  depth_le : ∀ {sequence position : Nat} {stream : TrackStream},
    m.track? sequence position = some stream →
      stream.header.returnDepth.toNat ≤ maxReturnDepth
  label_lt : ∀ {sequence position : Nat} {stream : TrackStream},
    m.track? sequence position = some stream → ∀ place ∈ stream.labels, place < stream.bytes.size
  patches : ∀ p ∈ m.patches.patches,
    p.firstVoice.toNat + p.voiceCount.toNat ≤ m.patches.voices.size
  samples : ∀ v ∈ m.patches.voices, (m.patches.sample? v.sample).isSome
  drums : ∀ d ∈ m.patches.drums, (m.patches.patch? d.patch).isSome

theorem sequenceFlaw?_eq_none_iff {sequence : Nat} {tracks : Array TrackStream} :
    sequenceFlaw? sequence tracks = none ↔ tracks.size ≤ maxTracksPerSequence ∧
      ∀ (position : Nat) (stream : TrackStream), tracks[position]? = some stream →
        stream.header.returnDepth.toNat ≤ maxReturnDepth ∧
          ∀ place ∈ stream.labels, place < stream.bytes.size := by
  unfold sequenceFlaw?
  split
  · next hwide => exact iff_of_false nofun fun h => Nat.not_lt.mpr h.1 hwide
  · next hsize =>
    rw [findFlaw_eq_none]
    simp only [Array.getElem?_toList, TrackStream.flaw?_eq_none_iff]
    exact ⟨fun h => ⟨Nat.le_of_not_lt hsize, h⟩, And.right⟩

/-- Admission accepts a module just if it keeps all bounds. -/
theorem flaw?_eq_none_iff {m : SoundModule} : m.flaw? = none ↔ m.Accepted := by
  unfold flaw?
  rw [Option.or_eq_none_iff, Option.or_eq_none_iff, Limits.flaw?_eq_none_iff, findFlaw_eq_none,
    PatchBank.flaw?_eq_none_iff]
  simp only [Array.getElem?_toList, Nat.zero_add, sequenceFlaw?_eq_none_iff]
  constructor
  · rintro ⟨⟨hsequences, htracks, hvoices, hlimit⟩, hall, hpatches, hsamples, hdrums⟩
    have hstream : ∀ {sequence position : Nat} {stream : TrackStream},
        m.track? sequence position = some stream →
          stream.header.returnDepth.toNat ≤ maxReturnDepth ∧
            ∀ place ∈ stream.labels, place < stream.bytes.size := by
      intro sequence position stream h
      obtain ⟨tracks, htracks, hposition⟩ := Option.bind_eq_some_iff.mp h
      exact (hall sequence tracks htracks).2 position stream hposition
    exact ⟨⟨hsequences, htracks, hvoices⟩, hlimit, fun h => (hall _ _ h).1,
      fun h => (hstream h).1, fun h => (hstream h).2, hpatches, hsamples, hdrums⟩
  · rintro ⟨⟨hsequences, htracks, hvoices⟩, hlimit, hsize, hdepth, hlabel, hpatches, hsamples,
      hdrums⟩
    refine ⟨⟨hsequences, htracks, hvoices, hlimit⟩, fun sequence tracks h => ⟨hsize h, ?_⟩,
      hpatches, hsamples, hdrums⟩
    intro position stream hposition
    have hstream : m.track? sequence position = some stream :=
      Option.bind_eq_some_iff.mpr ⟨tracks, h, hposition⟩
    exact ⟨hdepth hstream, hlabel hstream⟩

/-- No slot has more tracks than a command for its sequence reaches. -/
theorem Accepted.widestSequence_le {m : SoundModule} (h : m.Accepted) :
    m.widestSequence ≤ maxTracksPerSequence := by
  have hwidest : ∀ (l : List (Array TrackStream)) (widest : Nat),
      widest ≤ maxTracksPerSequence → (∀ tracks ∈ l, tracks.size ≤ maxTracksPerSequence) →
        l.foldl (fun widest tracks => max widest tracks.size) widest ≤ maxTracksPerSequence := by
    intro l
    induction l with
    | nil => exact fun _ hinit _ => hinit
    | cons tracks l ih =>
      intro widest hinit hall
      exact ih _ (Nat.max_le.mpr ⟨hinit, hall tracks List.mem_cons_self⟩)
        fun other hother => hall other (List.mem_cons_of_mem _ hother)
  unfold widestSequence
  rw [← Array.foldl_toList]
  refine hwidest _ 0 (Nat.zero_le _) fun tracks htracks => ?_
  obtain ⟨sequence, hsequence⟩ := Array.getElem?_of_mem (Array.mem_toList_iff.mp htracks)
  exact h.size_le hsequence

end SoundModule

/-! ## Engines -/

namespace Engine

variable {σ : Type} [SoundChip σ] {module : SoundModule} {chip : σ}

theorem make_eq_error_iff {flaw : EngineError} :
    Engine.make module chip = .error flaw ↔ module.flaw? = some flaw := by
  unfold Engine.make
  cases module.flaw? with
  | none => exact iff_of_false nofun nofun
  | some found => rw [Except.error.injEq, Option.some.injEq]

theorem exists_make_iff : (∃ e, Engine.make module chip = .ok e) ↔ module.flaw? = none := by
  unfold Engine.make
  cases module.flaw? with
  | none => exact iff_of_true ⟨_, rfl⟩ rfl
  | some found => exact iff_of_false nofun nofun

end Engine

end SoundSequencer
