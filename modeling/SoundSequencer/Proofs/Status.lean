/-
SoundSequencer.Proofs.Status — what the status of a sequence tells.

* `Engine.Serves` says that a slot is in use for a sequence, `Engine.GoesOn` that
  a slot has a track that is not paused; a sequence may have several slots.
* `Engine.StatusTells` says that the status of a sequence takes all of its slots
  together. It does unless the sequence is `Masked`: its first slot stands still
  and another goes on.
* `statusTells_throughout_iff` says so of every state that starts, ticks, stops
  and pauses lead to.
-/
import SoundSequencer.Proofs.WellFormed

namespace SoundSequencer

namespace Engine

variable {σ : Type}

/-! ## The slots of a sequence -/

/-- Slot `s` is in use for `sequence`. -/
def Serves (e : Engine σ) (s sequence : Nat) : Prop :=
  (e.slot s).active = true ∧ (e.slot s).sequence = sequence

instance (e : Engine σ) (s sequence : Nat) : Decidable (e.Serves s sequence) :=
  inferInstanceAs (Decidable (_ ∧ _))

/-- Slot `s` has a track that is not paused. -/
def GoesOn (e : Engine σ) (s : Nat) : Prop :=
  ∃ i ∈ (e.slot s).trackIds, (e.track i).isStopped = false

instance (e : Engine σ) (s : Nat) : Decidable (e.GoesOn s) :=
  inferInstanceAs (Decidable (∃ i ∈ _, _))

/-- The status of `sequence` says that it plays just if one of its slots goes on, and
that it is stopped just if it has slots and all their tracks are paused. -/
structure StatusTells (e : Engine σ) (sequence : Nat) : Prop where
  playing : e.status sequence = .playing ↔ ∃ s, e.Serves s sequence ∧ e.GoesOn s
  stopped : e.status sequence = .stopped ↔
    (∃ s, e.Serves s sequence) ∧
      ∀ s, e.Serves s sequence → ∀ i ∈ (e.slot s).trackIds, (e.track i).isStopped = true

/-- The first slot of `sequence` stands still, and a later one goes on. -/
def Masked (e : Engine σ) (sequence : Nat) : Prop :=
  ∃ s t, s < t ∧ (∀ r < s, ¬ e.Serves r sequence) ∧ e.Serves s sequence ∧ ¬ e.GoesOn s ∧
    e.Serves t sequence ∧ e.GoesOn t

theorem not_goesOn_iff {e : Engine σ} {s : Nat} :
    ¬ e.GoesOn s ↔ ∀ i ∈ (e.slot s).trackIds, (e.track i).isStopped = true := by
  simp [GoesOn]

/-- The slot that answers for `sequence` is the first that is in use for it. -/
theorem find?_slots (e : Engine σ) (sequence : Nat) :
    (e.slots.find? (fun s => s.active && s.sequence == sequence) = none ∧
        ∀ s, ¬ e.Serves s sequence) ∨
      ∃ s, e.slots.find? (fun s => s.active && s.sequence == sequence) = some (e.slot s) ∧
        e.Serves s sequence ∧ ∀ r < s, ¬ e.Serves r sequence := by
  have hslot : ∀ s (hs : s < e.slots.size), e.slots[s] = e.slot s := by
    intro s hs
    simp [slot, Array.getD_eq_getD_getElem?, hs]
  cases hfound : e.slots.find? fun s => s.active && s.sequence == sequence with
  | none =>
    left
    refine ⟨rfl, ?_⟩
    rintro s ⟨hactive, hsequence⟩
    have hs := lt_size_of_active hactive
    have hnot := Array.find?_eq_none.mp hfound (e.slot s) (hslot s hs ▸ Array.getElem_mem hs)
    simp [hactive, hsequence] at hnot
  | some found =>
    right
    obtain ⟨hserves, s, hs, hget, hfirst⟩ := Array.find?_eq_some_iff_getElem.mp hfound
    rw [hslot s hs] at hget
    subst hget
    refine ⟨s, rfl, ?_, ?_⟩
    · simpa [Serves] using hserves
    · rintro r hr ⟨hactive, hsequence⟩
      have hnot := hfirst r hr
      rw [hslot r (Nat.lt_trans hr hs), hactive, hsequence] at hnot
      simp at hnot

/-- The mode of a slot tells whether one of its tracks goes on. -/
theorem PoolsAgree.mode_iff {e : Engine σ} (h : e.PoolsAgree) {s : Nat}
    (hs : (e.slot s).active = true) : (e.slot s).mode = .playing ↔ e.GoesOn s := by
  rw [(h.lively s hs).2, h.playing s hs, playingOn, List.countP_pos_iff]
  constructor
  · rintro ⟨p, -, hp⟩
    cases hentry : (e.slot s).entry p with
    | none => simp [playsAt, hentry] at hp
    | some i =>
      refine ⟨i, Slot.mem_trackIds.mpr ⟨p, hentry⟩, ?_⟩
      simpa [playsAt, hentry] using hp
  · rintro ⟨i, hi, hrun⟩
    obtain ⟨p, hp⟩ := Slot.mem_trackIds.mp hi
    refine ⟨p, List.mem_range.mpr (Slot.lt_size_of_entry hp), ?_⟩
    simp [playsAt, hp, hrun]

/-- The status of a sequence that there is: that of the first slot in use for it. -/
theorem PoolsAgree.status_cases {e : Engine σ} (h : e.PoolsAgree) {sequence : Nat}
    (hsequence : sequence < e.module.sequences.size) :
    (e.status sequence = .inactive ∧ ∀ s, ¬ e.Serves s sequence) ∨
      ∃ s, e.Serves s sequence ∧ (∀ r < s, ¬ e.Serves r sequence) ∧
        (e.status sequence = .playing ∧ e.GoesOn s ∨
          e.status sequence = .stopped ∧ ¬ e.GoesOn s) := by
  unfold status
  rw [if_pos hsequence]
  rcases find?_slots e sequence with ⟨hnone, hidle⟩ | ⟨s, hfound, hserves, hfirst⟩
  · rw [hnone]
    exact .inl ⟨rfl, hidle⟩
  · rw [hfound]
    refine .inr ⟨s, hserves, hfirst, ?_⟩
    have hmode := h.mode_iff hserves.1
    cases hplays : (e.slot s).mode with
    | playing => exact .inl ⟨by simp [hplays], hmode.mp hplays⟩
    | stopped =>
      refine .inr ⟨by simp [hplays], fun hgoes => ?_⟩
      rw [hmode.mpr hgoes] at hplays
      cases hplays

theorem status_eq_invalid_iff (e : Engine σ) (sequence : Nat) :
    e.status sequence = .invalid ↔ e.module.sequences.size ≤ sequence := by
  unfold status
  split
  · next hsequence =>
    refine iff_of_false (fun h => ?_) (Nat.not_le.mpr hsequence)
    rcases find?_slots e sequence with ⟨hnone, -⟩ | ⟨s, hfound, -⟩
    · rw [hnone] at h
      cases h
    · rw [hfound] at h
      cases hmode : (e.slot s).mode <;> simp [hmode] at h
  · next hsequence => exact iff_of_true rfl (Nat.le_of_not_lt hsequence)

theorem PoolsAgree.status_eq_inactive_iff {e : Engine σ} (h : e.PoolsAgree) {sequence : Nat}
    (hsequence : sequence < e.module.sequences.size) :
    e.status sequence = .inactive ↔ ∀ s, ¬ e.Serves s sequence := by
  rcases h.status_cases hsequence with ⟨hstatus, hidle⟩ | ⟨s, hserves, -, hrest⟩
  · exact iff_of_true hstatus hidle
  · refine iff_of_false (fun hstatus => ?_) fun hidle => hidle s hserves
    rcases hrest with ⟨hplaying, -⟩ | ⟨hstopped, -⟩
    · exact nomatch hplaying.symm.trans hstatus
    · exact nomatch hstopped.symm.trans hstatus

/-- The status of a sequence takes all of its slots together unless the first of them
stands still while another goes on. -/
theorem PoolsAgree.statusTells_iff {e : Engine σ} (h : e.PoolsAgree) {sequence : Nat}
    (hsequence : sequence < e.module.sequences.size) :
    e.StatusTells sequence ↔ ¬ e.Masked sequence := by
  rcases h.status_cases hsequence with ⟨hstatus, hidle⟩ | ⟨s, hserves, hfirst, hrest⟩
  · refine iff_of_true ⟨?_, ?_⟩ fun ⟨s, _, _, _, hserves, _⟩ => hidle s hserves
    · rw [hstatus]
      exact iff_of_false nofun fun ⟨s, hserves, _⟩ => hidle s hserves
    · rw [hstatus]
      exact iff_of_false nofun fun ⟨⟨s, hserves⟩, _⟩ => hidle s hserves
  · rcases hrest with ⟨hstatus, hgoes⟩ | ⟨hstatus, hrests⟩
    · -- the first slot goes on, so it hides nothing
      refine iff_of_true ⟨?_, ?_⟩ ?_
      · rw [hstatus]
        exact iff_of_true rfl ⟨s, hserves, hgoes⟩
      · rw [hstatus]
        exact iff_of_false nofun fun hall => not_goesOn_iff.mpr (hall.2 s hserves) hgoes
      · rintro ⟨r, t, -, hr, hserves', hrests, -⟩
        rcases Nat.lt_trichotomy r s with hlt | rfl | hlt
        · exact hfirst r hlt hserves'
        · exact hrests hgoes
        · exact hr s hlt hserves
    · constructor
      · rintro htells ⟨-, t, -, -, -, -, hserves', hgoes⟩
        have hplaying := htells.playing.mpr ⟨t, hserves', hgoes⟩
        exact nomatch hstatus.symm.trans hplaying
      · intro hmasked
        have hall : ∀ t, e.Serves t sequence → ¬ e.GoesOn t := by
          intro t hserves' hgoes
          rcases Nat.lt_trichotomy t s with hlt | rfl | hlt
          · exact hfirst t hlt hserves'
          · exact hrests hgoes
          · exact hmasked ⟨s, t, hlt, hfirst, hserves, hrests, hserves', hgoes⟩
        refine ⟨?_, ?_⟩
        · rw [hstatus]
          exact iff_of_false nofun fun ⟨t, hserves', hgoes⟩ => hall t hserves' hgoes
        · rw [hstatus]
          exact iff_of_true rfl ⟨⟨s, hserves⟩, fun t hserves' =>
            not_goesOn_iff.mp (hall t hserves')⟩

end Engine

section Runs

variable {σ : Type} [SoundChip σ]

open Engine

/-- In every state that starts, ticks, stops and pauses lead to, a status is invalid just
for a sequence that the module does not have, inactive just for one without a slot, and it
takes all slots of a sequence together in exactly those states in which no slot that
goes on stands behind a first one that does not. -/
theorem statusTells_throughout_iff {module : SoundModule} {chip : σ} {e : Engine σ}
    (hmake : Engine.make module chip = .ok e) {calls : List (Call σ)}
    (hcalls : Session.Allows (fun _ call => call.Conducts) { engine := e } calls) :
    Session.Throughout (fun s => ∀ sequence,
      (s.engine.status sequence = .invalid ↔ s.engine.module.sequences.size ≤ sequence) ∧
      (sequence < s.engine.module.sequences.size →
        (s.engine.status sequence = .inactive ↔ ∀ slot, ¬ s.engine.Serves slot sequence) ∧
        (s.engine.StatusTells sequence ↔ ¬ s.engine.Masked sequence)))
      { engine := e } calls := by
  refine (wellFormed_throughout hmake hcalls).imp fun s hform sequence => ?_
  refine ⟨status_eq_invalid_iff s.engine sequence, fun hsequence => ?_⟩
  exact ⟨hform.agree.status_eq_inactive_iff hsequence, hform.agree.statusTells_iff hsequence⟩

end Runs

/-- A module of one sequence, for an engine that can play it twice at once. -/
def twice : SoundModule :=
  { solo [(0, .noteOn 60 100), (1000, .trackEnd)] with
    limits := { sequences := 2, tracks := 2, voices := 1 } }

/-- A sequence plays under a tag, is paused, and is readied a second time: no slot hides
another. -/
theorem statusTells_throughout_paused : ∃ e,
    Engine.make twice ({} : RecorderChip) = .ok e ∧
      (Session.run { engine := e } [.start 0 { tag := 7 }, .tick, .pause 0 false,
        .start 0 { handled := true }]).engine.status 0 = .stopped ∧
      Session.Throughout (fun s => ∀ sequence,
        (s.engine.status sequence = .invalid ↔ s.engine.module.sequences.size ≤ sequence) ∧
        (sequence < s.engine.module.sequences.size →
          (s.engine.status sequence = .inactive ↔ ∀ slot, ¬ s.engine.Serves slot sequence) ∧
          (s.engine.StatusTells sequence ↔ ¬ s.engine.Masked sequence)))
        { engine := e } [.start 0 { tag := 7 }, .tick, .pause 0 false,
          .start 0 { handled := true }] := by
  obtain ⟨e, hmake, hstatus⟩ : ∃ e, Engine.make twice ({} : RecorderChip) = .ok e ∧
      (Session.run { engine := e } [.start 0 { tag := 7 }, .tick, .pause 0 false,
        .start 0 { handled := true }]).engine.status 0 = .stopped :=
    Engine.exists_make (by decide +kernel)
  exact ⟨e, hmake, hstatus, statusTells_throughout_iff hmake
    ⟨trivial, trivial, trivial, trivial, trivial⟩⟩

/-- A sequence is readied and then started: it plays, and its status is stopped. -/
theorem not_statusTells_handled : ∃ e,
    Engine.make twice ({} : RecorderChip) = .ok e ∧
      Session.Allows (fun _ call => call.Conducts) { engine := e }
        [.start 0 { handled := true }, .start 0 {}, .tick] ∧
      ¬ Session.Throughout (fun s => s.engine.StatusTells 0) { engine := e }
        [.start 0 { handled := true }, .start 0 {}, .tick] := by
  obtain ⟨e, hmake, hstatus, hserves, hgoes⟩ : ∃ e,
      Engine.make twice ({} : RecorderChip) = .ok e ∧
        (Session.run { engine := e }
          [.start 0 { handled := true }, .start 0 {}, .tick]).engine.status 0 = .stopped ∧
        (Session.run { engine := e }
          [.start 0 { handled := true }, .start 0 {}, .tick]).engine.Serves 1 0 ∧
        (Session.run { engine := e }
          [.start 0 { handled := true }, .start 0 {}, .tick]).engine.GoesOn 1 :=
    Engine.exists_make (by decide +kernel)
  refine ⟨e, hmake, ⟨trivial, trivial, trivial, trivial⟩, fun hthroughout => ?_⟩
  have hplaying := hthroughout.last.playing.mpr ⟨1, hserves, hgoes⟩
  exact nomatch hstatus.symm.trans hplaying

end SoundSequencer
