/-
SoundSequencer.Proofs.Suspension — a sequence that is paused and goes on later.

* `restart_eq_foldl` says that a sequence goes on track by track, in any order.
* `foldl_resumeTrack_foldl_pauseTrack` says that tracks which run are as they were when they are
  paused and then let go on, the last one first.
* `leftAlone_resumeTrack` says that a track goes on from where it stands, whatever has become of
  the others.
* `pause_suspends` says that a restart undoes a pause, at once as a whole, and later as far as
  the slots that play the sequence go.
-/
import SoundSequencer.Proofs.Accepted
import SoundSequencer.Proofs.LeftAlone
import SoundSequencer.Proofs.SilentDriver

namespace SoundSequencer

namespace Engine

variable {σ : Type}

/-! ## One track -/

theorem resumeTrack_eq (e : Engine σ) (i : Nat) :
    e.resumeTrack i = (e.modifyTrack i Track.resumed).modifySlot (e.track i).slot fun s =>
      if (e.track i).isStopped then s.started else s := by
  unfold resumeTrack
  split
  · rfl
  · next hruns =>
    have hresumed : (e.track i).resumed = e.track i := by
      have hflag : (e.track i).flags.stopped = false := by simpa [Track.isStopped] using hruns
      simp [Track.resumed, ← hflag]
    rw [modifyTrack_of_eq hresumed, modifySlot_of_eq rfl]

theorem slot_pauseTrack (e : Engine σ) (i s : Nat) :
    (e.pauseTrack i).slot s =
      if (e.track i).slot = s ∧ s < e.slots.size then
        if (e.track i).isStopped then e.slot s else (e.slot s).stopped
      else e.slot s := by
  rw [pauseTrack_eq, slot_modifySlot]
  rfl

theorem slot_resumeTrack (e : Engine σ) (i s : Nat) :
    (e.resumeTrack i).slot s =
      if (e.track i).slot = s ∧ s < e.slots.size then
        if (e.track i).isStopped then (e.slot s).started else e.slot s
      else e.slot s := by
  rw [resumeTrack_eq, slot_modifySlot]
  rfl

theorem atHome_pauseTrack : AtHome fun (e : Engine σ) i => e.pauseTrack i where
  home e i j := (sameLinks_pauseTrack e i).home j
  slot e i r hr := by rw [slot_pauseTrack, if_neg fun hboth => hr hboth.1]

theorem atHome_resumeTrack : AtHome fun (e : Engine σ) i => e.resumeTrack i where
  home e i j := (sameLinks_resumeTrack e i).home j
  slot e i r hr := by rw [slot_resumeTrack, if_neg fun hboth => hr hboth.1]

/-- Tracks may go on in either order. -/
theorem resumeTrack_comm (e : Engine σ) (i j : Nat) :
    (e.resumeTrack i).resumeTrack j = (e.resumeTrack j).resumeTrack i := by
  by_cases hij : i = j
  · rw [hij]
  · have htracks := congrArg Engine.tracks (modifyTrack_comm e hij Track.resumed Track.resumed)
    have hslots := @modify_comm_slot e.slots (e.track i).slot (e.track j).slot
      (fun s => if (e.track i).isStopped then s.started else s)
      (fun s => if (e.track j).isStopped then s.started else s)
      fun _ s => by split <;> split <;> rfl
    have hother : ∀ i j, i ≠ j → (e.resumeTrack i).track j = e.track j := by
      intro i j hne
      rw [track_resumeTrack, if_neg fun hboth => hne hboth.1]
    rw [resumeTrack_eq (e.resumeTrack i) j, resumeTrack_eq (e.resumeTrack j) i,
      hother i j hij, hother j i (Ne.symm hij), resumeTrack_eq e i, resumeTrack_eq e j]
    simp only [modifyTrack, modifySlot] at htracks ⊢
    rw [htracks, hslots]

/-- A track that goes on may be let go on again. -/
theorem resumeTrack_resumeTrack (e : Engine σ) (i : Nat) :
    (e.resumeTrack i).resumeTrack i = e.resumeTrack i := by
  have hruns : ((e.resumeTrack i).track i).isStopped = false := by
    rw [track_resumeTrack]
    split
    · rfl
    · next hout => rw [track_of_size_le (Nat.le_of_not_lt fun hlt => hout ⟨rfl, hlt⟩)]; rfl
  exact if_neg (by rw [hruns]; exact Bool.false_ne_true)

/-- The count of playing tracks and the mode follow from which tracks run, so that both are as
they were. -/
theorem resumeTrack_pauseTrack {e : Engine σ} (h : e.PoolsAgree) {i : Nat}
    (hrun : (e.track i).isRunning = true) : (e.pauseTrack i).resumeTrack i = e := by
  obtain ⟨hactive, hgoes⟩ := Bool.and_eq_true_iff.mp hrun
  have hruns : (e.track i).isStopped = false := by simpa using hgoes
  have hplays := h.playing_pos hactive hruns
  have hmode := ((h.lively _ (h.home i hactive).1).2).mpr hplays
  have htrack : (e.pauseTrack i).track i = (e.track i).paused := by
    rw [track_pauseTrack, if_pos ⟨rfl, lt_size_of_isActive hactive⟩]
  have hsame : (e.track i).paused.resumed = e.track i := by
    have hflag : (e.track i).flags.stopped = false := hruns
    simp [Track.paused, Track.resumed, ← hflag]
  have hslot : (e.slot (e.track i).slot).stopped.started = e.slot (e.track i).slot := by
    have hcount : (e.slot (e.track i).slot).tracksPlaying - 1 + 1 =
        (e.slot (e.track i).slot).tracksPlaying := by omega
    simp only [Slot.stopped, Slot.started, hcount, ← hmode]
  rw [resumeTrack_eq, htrack, pauseTrack_eq, hruns]
  calc _ = (((e.modifyTrack i Track.paused).modifyTrack i Track.resumed).modifySlot
        (e.track i).slot Slot.stopped).modifySlot (e.track i).slot Slot.started := rfl
    _ = e := by
      rw [modifyTrack_modifyTrack, modifyTrack_of_eq hsame, modifySlot_modifySlot,
        modifySlot_of_eq hslot]

/-! ## Several tracks -/

/-- Tracks that run are paused and then let go on, the last one first. -/
theorem foldl_resumeTrack_foldl_pauseTrack {l : List Nat} {e : Engine σ} (h : e.PoolsAgree)
    (hnodup : l.Nodup) (hrun : ∀ i ∈ l, (e.track i).isRunning = true) :
    l.reverse.foldl resumeTrack (l.foldl pauseTrack e) = e := by
  induction l generalizing e with
  | nil => rfl
  | cons i l ih =>
    obtain ⟨hnot, hrest⟩ := List.nodup_cons.mp hnodup
    have hfirst := hrun i List.mem_cons_self
    have hpaused := h.pauseTrack (Bool.and_eq_true_iff.mp hfirst).1
    have hstill : ∀ j ∈ l, ((e.pauseTrack i).track j).isRunning = true := by
      intro j hj
      have hne : i ≠ j := fun heq => hnot (heq ▸ hj)
      rw [track_pauseTrack, if_neg fun hboth => hne hboth.1]
      exact hrun j (List.mem_cons_of_mem i hj)
    rw [List.foldl_cons, List.reverse_cons, List.foldl_append, ih hpaused hrest hstill]
    exact resumeTrack_pauseTrack h hfirst

theorem sameLinks_foldl_pauseTrack (l : List Nat) (e : Engine σ) :
    SameLinks e (l.foldl pauseTrack e) :=
  foldl_keeps (fun _ d => SameLinks e d)
    (fun i _ d hd => hd.trans (sameLinks_pauseTrack d i)) l e (.refl e)

theorem track_foldl_pauseTrack (l : List Nat) (e : Engine σ) (i : Nat) :
    (l.foldl pauseTrack e).track i =
      if i ∈ l ∧ i < e.tracks.size then (e.track i).paused else e.track i := by
  induction l generalizing e with
  | nil => simp
  | cons j l ih =>
    rw [List.foldl_cons, ih, track_pauseTrack, (sameSound_pauseTrack e j).tracks_size]
    by_cases hij : j = i
    · subst hij
      by_cases hlt : j < e.tracks.size <;> simp [hlt, Track.paused]
    · simp [hij, Ne.symm hij]

/-! ## The slots of a sequence -/

/-- Slot `s` plays `sequence`. -/
def PlaysIn (e : Engine σ) (sequence s : Nat) : Prop :=
  (e.slot s).active = true ∧ (e.slot s).sequence = sequence

instance (e : Engine σ) (sequence s : Nat) : Decidable (e.PlaysIn sequence s) :=
  inferInstanceAs (Decidable (_ ∧ _))

/-- Track `i` plays `sequence`. -/
def IsPlayer (e : Engine σ) (sequence i : Nat) : Prop :=
  (e.track i).isActive = true ∧ e.PlaysIn sequence (e.track i).slot

/-- The tracks that a call for a sequence reaches, in its order. -/
def players (e : Engine σ) (sequence : Nat) : List Nat := e.reach (·.sequence == sequence)

theorem Placed.mem_players {e : Engine σ} (h : e.Placed)
    (hwide : e.module.widestSequence ≤ maxTracksPerSequence) {sequence i : Nat} :
    i ∈ e.players sequence ↔ e.IsPlayer sequence i := by
  rw [players, h.mem_reach hwide, beq_iff_eq]
  exact ⟨fun ⟨hi, hs⟩ => ⟨hi, (h.home i hi).1, hs⟩, fun ⟨hi, _, hs⟩ => ⟨hi, hs⟩⟩

theorem SameLinks.playsIn {e e' : Engine σ} (h : SameLinks e e') (sequence s : Nat) :
    e'.PlaysIn sequence s ↔ e.PlaysIn sequence s := by
  have hsequence : (e'.slot s).sequence = (e.slot s).sequence := congrArg (·.2.1) (h.desk s)
  rw [PlaysIn, PlaysIn, h.active, hsequence]

theorem SameLinks.isPlayer {e e' : Engine σ} (h : SameLinks e e') (sequence i : Nat) :
    e'.IsPlayer sequence i ↔ e.IsPlayer sequence i := by
  rw [IsPlayer, IsPlayer, h.isActive, h.home, h.playsIn]

theorem pause_eq_foldl {e : Engine σ} (h : e.Placed) (sequence : Nat) :
    e.pause sequence false = (e.players sequence).foldl pauseTrack e :=
  atHome_pauseTrack.forTracksWhere_eq h _

/-- A sequence goes on track by track, in any order. -/
theorem restart_eq_foldl {e : Engine σ} (h : e.Placed)
    (hwide : e.module.widestSequence ≤ maxTracksPerSequence) {sequence : Nat} {l : List Nat}
    (hl : ∀ i, e.IsPlayer sequence i ↔ i ∈ l) : e.restart sequence = l.foldl resumeTrack e := by
  refine (atHome_resumeTrack.forTracksWhere_eq h _).trans ?_
  exact foldl_eq_of_mem_iff resumeTrack_comm resumeTrack_resumeTrack
    (fun i => (h.mem_players hwide).trans (hl i)) e

theorem sameLinks_pause {e : Engine σ} (h : e.Placed) (sequence : Nat) :
    SameLinks e (e.pause sequence false) :=
  pause_eq_foldl h sequence ▸ sameLinks_foldl_pauseTrack _ e

/-- The slots of a sequence whose tracks all run are asleep when it is paused. -/
theorem asleep_pause {e : Engine σ} (h : e.WellFormed)
    (hwide : e.module.widestSequence ≤ maxTracksPerSequence) {sequence : Nat}
    (hrun : ∀ i, e.IsPlayer sequence i → (e.track i).isRunning = true) :
    (e.pause sequence false).Asleep (e.PlaysIn sequence) := by
  have hlinks := sameLinks_pause h.agree.toPlaced sequence
  intro i hs hi
  rw [hlinks.home] at hs
  rw [hlinks.isActive] at hi
  have hmem := (h.agree.mem_players hwide).mpr ⟨hi, hs⟩
  have hgoes := (Bool.and_eq_true_iff.mp (hrun i ⟨hi, hs⟩)).2
  rw [pause_eq_foldl h.agree.toPlaced, track_foldl_pauseTrack,
    if_pos ⟨hmem, lt_size_of_isActive hi⟩]
  refine ⟨rfl, Bool.eq_false_iff.mpr fun hoff => ?_⟩
  -- a track that is turned off does not run
  rw [h.rests i hi hoff] at hgoes
  cases hgoes

/-! ## Going on later -/

variable {q : Nat → Prop}

/-- A track goes on from where it stands, whatever has become of the tracks of other slots. -/
theorem leftAlone_resumeTrack {e e' : Engine σ} (h : LeftAlone q e e') {i : Nat}
    (hq : q (e.track i).slot) (hi : (e.track i).isActive = true)
    (hs : (e.slot (e.track i).slot).active = true) :
    LeftAlone q (e.resumeTrack i) (e'.resumeTrack i) := by
  have hflags := h.flags hq
  have hi' : (e'.track i).isActive = true := by rwa [Track.isActive, hflags]
  have hstopped : (e'.track i).isStopped = (e.track i).isStopped := by
    rw [Track.isStopped, hflags]; rfl
  have hlt := lt_size_of_isActive hi
  have hlt' := lt_size_of_isActive hi'
  have hslot := lt_size_of_active hs
  have hslot' : (e.track i).slot < e'.slots.size := lt_size_of_active (by rwa [h.slot _ hq])
  refine ⟨fun s hqs => ?slot, fun j => ?home, fun j hj => ?track⟩
  case slot =>
    rw [slot_resumeTrack, slot_resumeTrack, h.home, hstopped, h.slot s hqs]
    by_cases hhome : (e.track i).slot = s
    · subst hhome
      simp only [hslot, hslot', and_self, if_true]
    · rw [if_neg fun hboth => hhome hboth.1, if_neg fun hboth => hhome hboth.1]
  case home =>
    rw [(sameLinks_resumeTrack e' i).home, (sameLinks_resumeTrack e i).home, h.home]
  case track =>
    rw [(sameLinks_resumeTrack e i).home] at hj
    rw [track_resumeTrack, track_resumeTrack]
    by_cases hij : i = j
    · subst hij
      rw [if_pos ⟨rfl, hlt'⟩, if_pos ⟨rfl, hlt⟩]
      exact congrArg Track.resumed (h.track i hj)
    · rw [if_neg fun hboth => hij hboth.1, if_neg fun hboth => hij hboth.1]
      exact h.track j hj

theorem leftAlone_foldl_resumeTrack {sequence : Nat} {l : List Nat} {e e' : Engine σ}
    (h : LeftAlone q e e') (hl : ∀ i ∈ l, q (e.track i).slot ∧ e.IsPlayer sequence i) :
    LeftAlone q (l.foldl resumeTrack e) (l.foldl resumeTrack e') := by
  induction l generalizing e e' with
  | nil => exact h
  | cons i l ih =>
    obtain ⟨hq, hi, hs, -⟩ := hl i List.mem_cons_self
    refine ih (leftAlone_resumeTrack h hq hi hs) fun j hj => ?_
    rw [(sameLinks_resumeTrack e i).home, (sameLinks_resumeTrack e i).isPlayer]
    exact hl j (List.mem_cons_of_mem i hj)

variable [SoundChip σ]

/-- While the slots of a sequence are asleep it keeps its tracks and gets no others. -/
theorem isPlayer_ticks {e : Engine σ} (h : e.WellFormed) {sequence : Nat}
    (hasleep : e.Asleep (e.PlaysIn sequence)) (n i : Nat) :
    (tick^[n] e).IsPlayer sequence i ↔ e.IsPlayer sequence i := by
  obtain ⟨-, hsheds, hsteps⟩ := wellFormed_ticks h n
  have hleft := leftAlone_ticks h hasleep n
  constructor
  · rintro ⟨hi, -, hsequence⟩
    have hactive := Track.Steps.isActive (hsteps i) hi
    rw [hleft.home, hsheds.sequence] at hsequence
    exact ⟨hactive, (h.agree.home i hactive).1, hsequence⟩
  · rintro ⟨hi, hplays⟩
    refine ⟨by rwa [Track.isActive, hleft.flags hplays], ?_⟩
    rwa [hleft.home, PlaysIn, hleft.slot _ hplays]

/-- What a pause of `sequence` leaves of it. -/
structure Suspends (e : Engine σ) (sequence : Nat) : Prop where
  /-- A restart at once undoes the pause: nothing in the engine or in its chip is different. -/
  undone : (e.pause sequence false).restart sequence = e
  /-- A restart after any number of ticks finds the slots that play the sequence as they were. -/
  slot : ∀ n s, e.PlaysIn sequence s →
    ((tick^[n] (e.pause sequence false)).restart sequence).slot s = e.slot s
  /-- It finds their tracks as they were, too, but for the number of their voices. -/
  track : ∀ n s, e.PlaysIn sequence s → ∀ i ∈ (e.slot s).trackIds,
    (((tick^[n] (e.pause sequence false)).restart sequence).track i).uncounted =
      (e.track i).uncounted

/-- A sequence all of whose tracks run may be paused, with its notes left to sound, and restarted
later: it goes on as if nothing had been, in all its slots, whatever other sequences have played
meanwhile and whosever voices they have taken. -/
theorem pause_suspends {e : Engine σ} (h : e.WellFormed) (haccepted : e.module.flaw? = none)
    {sequence : Nat}
    (hrun : ∀ s, e.PlaysIn sequence s → ∀ i ∈ (e.slot s).trackIds, (e.track i).isRunning = true) :
    e.Suspends sequence := by
  have hwide := (SoundModule.flaw?_eq_none_iff.mp haccepted).widestSequence_le
  have hrunning : ∀ i, e.IsPlayer sequence i → (e.track i).isRunning = true := fun i hi =>
    hrun _ hi.2 i (Slot.mem_trackIds.mpr ⟨_, (h.agree.home i hi.1).2.1⟩)
  have hmem : ∀ i, i ∈ (e.players sequence).reverse ↔ e.IsPlayer sequence i := fun i =>
    List.mem_reverse.trans (h.agree.mem_players hwide)
  have hback := foldl_resumeTrack_foldl_pauseTrack h.agree (h.agree.nodup_reach hwide _)
    fun i hi => hrunning i ((h.agree.mem_players hwide).mp hi)
  have hform : (e.pause sequence false).WellFormed :=
    (deeds_pause e sequence false).keeps lasting_wellFormed.deed h
  have hlinks := sameLinks_pause h.agree.toPlaced sequence
  have hasleep := asleep_pause h hwide hrunning
  have hsame : (e.pause sequence false).PlaysIn sequence = e.PlaysIn sequence :=
    funext fun s => propext (hlinks.playsIn sequence s)
  have hplayers : ∀ n i, (tick^[n] (e.pause sequence false)).IsPlayer sequence i ↔
      i ∈ (e.players sequence).reverse := fun n i => by
    rw [isPlayer_ticks hform (hsame ▸ hasleep), hlinks.isPlayer, hmem]
  have hrestart : ∀ n, (tick^[n] (e.pause sequence false)).restart sequence =
      (e.players sequence).reverse.foldl resumeTrack (tick^[n] (e.pause sequence false)) := by
    intro n
    obtain ⟨hticked, hsheds, -⟩ := wellFormed_ticks hform n
    exact restart_eq_foldl hticked.agree.toPlaced (by rwa [hsheds.module, hlinks.module])
      (hplayers n)
  have hundone : (e.players sequence).reverse.foldl resumeTrack (e.pause sequence false) = e :=
    pause_eq_foldl h.agree.toPlaced sequence ▸ hback
  have hleft : ∀ n, LeftAlone (e.PlaysIn sequence) e
      ((tick^[n] (e.pause sequence false)).restart sequence) := by
    intro n
    have hgoes := leftAlone_foldl_resumeTrack (leftAlone_ticks hform hasleep n)
      fun i hi => ⟨?_, (hplayers 0 i).mpr hi⟩
    · rwa [hundone, ← hrestart] at hgoes
    · rw [hlinks.home]
      exact ((hmem i).mp hi).2
  refine ⟨(hrestart 0).trans hundone, fun n s hs => (hleft n).slot s hs, fun n s hs i hi => ?_⟩
  refine (hleft n).track i ?_
  rwa [(h.agree.of_mem hi).2]

end Engine

open Engine

/-- A sequence that holds a note, and one that strikes two notes later on, for an engine with two
voices. -/
def crowded : SoundModule :=
  { solo [] with
    limits := { sequences := 3, tracks := 4, voices := 2 }
    sequences := #[#[TrackHeader.plays {} [(0, .noteOn 60 100), (1000, .trackEnd)]],
      #[TrackHeader.plays {} [(3, .noteOn 48 80), (1, .noteOn 50 80), (1000, .trackEnd)]]] }

/-- The engine in which a sequence plays twice, each time with a note, when another starts. -/
def Engine.twice (e : Engine RecorderChip) : Engine RecorderChip :=
  (Session.run { engine := e } [.start 0 {}, .start 0 {}, .tick, .start 1 {}]).engine

/-- While both instances of a sequence are paused another sequence takes both their voices. -/
theorem pause_suspends_crowded : ∃ e : Engine RecorderChip, Engine.make crowded {} = .ok e ∧
    (e.twice.voices.ownedBy 0).length = 1 ∧ (e.twice.voices.ownedBy 1).length = 1 ∧
      ((tick^[6] (e.twice.pause 0 false)).voices.ownedBy 2).length = 2 ∧
      e.twice.PlaysIn 0 0 ∧ e.twice.PlaysIn 0 1 ∧ e.twice.Suspends 0 := by
  obtain ⟨e, hmake, hfirst, hsecond, htaken, hplays, hplays', hruns, haccepted⟩ :
      ∃ e : Engine RecorderChip, Engine.make crowded {} = .ok e ∧
        (e.twice.voices.ownedBy 0).length = 1 ∧ (e.twice.voices.ownedBy 1).length = 1 ∧
        ((tick^[6] (e.twice.pause 0 false)).voices.ownedBy 2).length = 2 ∧
        e.twice.PlaysIn 0 0 ∧ e.twice.PlaysIn 0 1 ∧
        (∀ s < e.twice.slots.size, e.twice.PlaysIn 0 s →
          ∀ i ∈ (e.twice.slot s).trackIds, (e.twice.track i).isRunning = true) ∧
        e.twice.module.flaw? = none :=
    exists_make (by decide +kernel)
  have hform : e.twice.WellFormed := (@wellFormed_throughout _ _ _ _ _ hmake
    [.start 0 {}, .start 0 {}, .tick, .start 1 {}]
    ⟨trivial, trivial, trivial, trivial, trivial⟩).last
  exact ⟨e, hmake, hfirst, hsecond, htaken, hplays, hplays',
    pause_suspends hform haccepted fun s hs => hruns s (lt_size_of_active hs.1) hs⟩

end SoundSequencer
