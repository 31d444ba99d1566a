/-
SoundSequencer.Proofs.OwnedRuns — voices and their owners over whole runs.

* `voicesOwned_throughout_iff` says in which runs every voice in use is owned,
  throughout, by a track that plays, and every track counts its voices.
* `Session.Careful` is a condition on the calls of a run that is enough.
-/
import SoundSequencer.Proofs.Ownership
import SoundSequencer.Proofs.TurnedOff

namespace SoundSequencer

namespace Engine

variable {σ : Type} [SoundChip σ]

/-! ## A new engine -/

theorem voicesOwned_make {module : SoundModule} {chip : σ} {e : Engine σ}
    (h : Engine.make module chip = .ok e) : e.VoicesOwned where
  owner v hv := by
    rw [voice_make h] at hv
    cases hv
  count i := by
    have hnone : (e.voices.ownedBy i).length = 0 := by
      rw [List.length_eq_zero_iff, List.eq_nil_iff_forall_not_mem]
      intro v hv
      have hown := (VoicePool.mem_select.mp hv).2
      rw [show e.voices.voice v = {} from voice_make h v] at hown
      simp [Voice.ownedBy] at hown
    rw [track_make h, hnone]
  atMost i := by
    have hidle : e.track i = {} := track_make h i
    simp [hidle]

/-! ## Owners -/

theorem lasting_counted : Lasting fun e : Engine σ => e.Counted where
  deed _ _ hdeed he := (sameOwners_deed hdeed).counted he
  freeVoice _ v he := he.freeVoice v
  sound _ _ _ _ he := ⟨he.lt, he.count, he.atMost⟩

theorem lasting_voicesOwned : Lasting fun e : Engine σ => e.VoicesOwned where
  deed _ _ hdeed he := he.deed hdeed
  freeVoice _ v he := he.freeVoice v
  sound _ _ _ _ he := ⟨he.owner, he.count, he.atMost⟩

theorem Counted.restartAll {e : Engine σ} (h : e.Counted) (saved : List SavedNote) :
    (e.restartAll saved).Counted :=
  restartAll_keeps (fun e => e.Counted) saved (fun _ _ _ => True) (fun _ _ _ _ => trivial)
    (fun e _ i _ he => (sameOwners_resumeTrack e i).counted he) (fun _ _ _ _ _ => trivial)
    (fun _ n _ he => he.playNote n.track n.patchVoice n.note n.velocity)
    (fun _ _ _ _ _ _ _ => trivial) h

end Engine

/-! ## Runs in which voices are owned -/

/-- Whether a call can strike notes. -/
def Call.Strikes {σ : Type} : Call σ → Prop
  | .tick | .restartAll _ => True
  | _ => False

section Runs

variable {σ : Type} [SoundChip σ]

/-- Only a call that strikes notes can leave a voice without an owner, and nothing
else can go wrong. -/
theorem voicesOwned_perform_iff (s : Session σ) (call : Call σ) (h : s.engine.VoicesOwned) :
    (s.perform call).engine.VoicesOwned ↔
      (call.Strikes → ∀ v, (s.perform call).engine.OwnerPlays v) := by
  constructor
  · exact fun howned _ => howned.owner
  · intro hstrikes
    cases call with
    | tick =>
      have hcounted := Engine.lasting_counted.tick
        (fun _ i key velocity _ _ he => he.noteOn i key velocity) h.counted
      rw [Session.engine_tick] at hstrikes ⊢
      exact hcounted.owned (hstrikes trivial)
    | restartAll saved => exact (h.counted.restartAll saved).owned (hstrikes trivial)
    | start sequence options => exact h.startSequence sequence options
    | releaseHandle slot => exact h.releaseHandle slot
    | restart sequence => exact h.restart sequence
    | onChip f => exact Engine.lasting_voicesOwned.perform (.inr ⟨f, rfl⟩) h
    | _ => exact Engine.lasting_voicesOwned.perform (.inl trivial) h

/-- Lets tracks go on only while none of them waits, turned off, for its last voice,
and strikes notes again only for tracks that may play. -/
def Session.Careful (s : Session σ) (call : Call σ) : Prop :=
  s.Patient call ∧ ∀ n ∈ call.struck, (s.engine.track n.track).MayPlay

instance (t : Track) : Decidable t.MayPlay :=
  decidable_of_iff (t.isActive = true ∧ t.driver = .voices ∧ t.flags.off = false)
    ⟨fun h => ⟨h.1, h.2.1, h.2.2⟩, fun h => ⟨h.active, h.driver, h.on⟩⟩

instance (s : Session σ) (call : Call σ) : Decidable (s.Careful call) :=
  inferInstanceAs (Decidable (_ ∧ _))

open Engine

omit [SoundChip σ] in
/-- A track that runs, where those turned off are paused, is not one of them. -/
theorem mayPlay_of_isRunning {e : Engine σ} {i : Nat} (h : (e.track i).OffRests)
    (hrun : (e.track i).isRunning = true) (hdriver : (e.track i).driver = .voices) :
    (e.track i).MayPlay := by
  simp only [Track.isRunning, Bool.and_eq_true, Bool.not_eq_true'] at hrun
  obtain ⟨hactive, hstopped⟩ := hrun
  refine ⟨hactive, hdriver, ?_⟩
  cases hoff : (e.track i).flags.off with
  | false => rfl
  | true =>
    rw [h hactive hoff] at hstopped
    cases hstopped

/-- A tick leaves all voices owned if it finds every track that is turned off
paused. -/
theorem voicesOwned_tick {e : Engine σ} (h : e.VoicesOwned) (hoff : ∀ i, (e.track i).OffRests) :
    e.tick.VoicesOwned := by
  have hrests : Lasting fun e : Engine σ => ∀ i, (e.track i).OffRests :=
    lasting_tracks fun _ _ hstep => hstep.offRests
  have hlast : Lasting fun e : Engine σ => e.VoicesOwned ∧ ∀ i, (e.track i).OffRests :=
    lasting_voicesOwned.and hrests
  have htick := hlast.tick
    (fun e i key velocity hrun hdriver h => by
      have hplays := mayPlay_of_isRunning (h.2 i) hrun hdriver
      exact ⟨h.1.noteOn hplays key velocity,
        (steps_noteOn e i key velocity).keeps (fun _ _ hstep => hstep.offRests) h.2⟩)
    ⟨h, hoff⟩
  exact htick.1

/-- All voices are owned, and the notes put aside are those of tracks that may
play. -/
structure Engine.Takes (e : Engine σ) (saved : List SavedNote) : Prop where
  owned : e.VoicesOwned
  mayPlay : ∀ n ∈ saved, (e.track n.track).MayPlay

omit [SoundChip σ] in
theorem Engine.Takes.resumeTrack {e : Engine σ} {saved : List SavedNote} (h : e.Takes saved)
    (i : Nat) : (e.resumeTrack i).Takes saved := by
  refine ⟨h.owned.resumeTrack i, fun n hn => ?_⟩
  obtain ⟨hactive, hdriver, hon⟩ := h.mayPlay n hn
  rw [track_resumeTrack]
  split
  · exact ⟨hactive, hdriver, hon⟩
  · exact ⟨hactive, hdriver, hon⟩

theorem Engine.Takes.playNote {e : Engine σ} {saved : List SavedNote} (h : e.Takes saved)
    {n : SavedNote} (hn : n ∈ saved) :
    (e.playNote n.track n.patchVoice n.note n.velocity).Takes saved := by
  refine ⟨h.owned.playNote (h.mayPlay n hn) n.patchVoice n.note n.velocity, fun m hm => ?_⟩
  exact playNote_keeps Track.MayPlay.voiceFreed Track.MayPlay.withVoice (h.mayPlay m hm) n.track
    n.patchVoice n.note n.velocity

/-- Notes struck again for tracks that may play leave all voices owned. -/
theorem voicesOwned_restartAll {e : Engine σ} {saved : List SavedNote} (h : e.Takes saved) :
    (e.restartAll saved).VoicesOwned := by
  have hrestart := restartAll_keeps (fun e : Engine σ => e.Takes saved) saved
    (fun _ _ _ => True) (fun _ _ _ _ => trivial) (fun _ _ i _ h => h.resumeTrack i)
    (fun _ _ _ _ _ => trivial) (fun _ _ hn h => h.playNote hn) (fun _ _ _ _ _ _ _ => trivial) h
  exact hrestart.owned

/-- A careful call leaves all voices owned, and every track that is turned off
paused. -/
theorem careful_perform (s : Session σ) (call : Call σ)
    (h : s.engine.VoicesOwned ∧ ∀ i, (s.engine.track i).OffRests) (hcareful : s.Careful call) :
    (s.perform call).engine.VoicesOwned ∧ ∀ i, ((s.perform call).engine.track i).OffRests := by
  obtain ⟨howned, hoff⟩ := h
  obtain ⟨hpatient, hsaved⟩ := hcareful
  refine ⟨?_, offRests_of_patient s call hpatient hoff⟩
  by_cases hstrikes : call.Strikes
  · cases call with
    | tick =>
      rw [Session.engine_tick]
      exact voicesOwned_tick howned hoff
    | restartAll saved =>
      exact voicesOwned_restartAll ⟨howned, hsaved⟩
    | _ => exact hstrikes.elim
  · exact (voicesOwned_perform_iff s call howned).mpr fun h => absurd h hstrikes

/-- In exactly those runs is every voice in use owned, throughout, by a track that
plays, and counted by it, in which no tick and no striking of notes put aside leaves
a voice to a track that has left the pool or plays no notes. It is in every careful
run. -/
theorem voicesOwned_throughout_iff {module : SoundModule} {chip : σ} {e : Engine σ}
    (hmake : Engine.make module chip = .ok e) (calls : List (Call σ)) :
    (Session.Throughout (fun s => s.engine.VoicesOwned) { engine := e } calls ↔
      Session.Allows (fun s call => call.Strikes →
        ∀ v, (s.perform call).engine.OwnerPlays v) { engine := e } calls) ∧
    (Session.Allows Session.Careful { engine := e } calls →
      Session.Throughout (fun s => s.engine.VoicesOwned) { engine := e } calls) := by
  have hfresh : e.VoicesOwned := voicesOwned_make hmake
  refine ⟨Session.throughout_iff_allows voicesOwned_perform_iff calls _ hfresh, fun hfit => ?_⟩
  have hkept := hfit.throughout
    (fun s => s.engine.VoicesOwned ∧ ∀ i, (s.engine.track i).OffRests)
    (fun s call h hcareful => careful_perform s call h hcareful)
    ⟨hfresh, offRests_make hmake⟩
  exact hkept.imp fun _ h => h.1

end Runs

/-- A second note that takes the only voice from the first leaves it owned. -/
theorem voicesOwned_throughout_steal : ∃ e,
    Engine.make (solo [(0, .noteOn 60 100), (2, .noteOn 62 100), (1000, .trackEnd)])
        ({ instantRelease := false } : RecorderChip) = .ok e ∧
      Session.Throughout (fun s => s.engine.VoicesOwned) { engine := e }
        [.start 0 {}, .tick, .pause 0 false, .restart 0, .tick, .stop 0, .tick] := by
  obtain ⟨e, hmake, hcareful⟩ : ∃ e,
      Engine.make (solo [(0, .noteOn 60 100), (2, .noteOn 62 100), (1000, .trackEnd)])
          ({ instantRelease := false } : RecorderChip) = .ok e ∧
        Session.Allows Session.Careful { engine := e }
          [.start 0 {}, .tick, .pause 0 false, .restart 0, .tick, .stop 0, .tick] :=
    Engine.exists_make (by decide +kernel)
  exact ⟨e, hmake, (voicesOwned_throughout_iff hmake _).2 hcareful⟩

/-- A track that is stopped and let go on takes its last voice from itself for its next
note: it is at its end then, and plays the note all the same. -/
theorem not_voicesOwned_restart : ∃ e,
    Engine.make (solo [(0, .noteOn 60 100), (2, .noteOn 62 100), (1000, .trackEnd)])
        ({ instantRelease := false } : RecorderChip) = .ok e ∧
      ¬ Session.Throughout (fun s => s.engine.VoicesOwned) { engine := e }
        [.start 0 {}, .tick, .stop 0, .restart 0, .tick] := by
  obtain ⟨e, hmake, hunowned⟩ : ∃ e,
      Engine.make (solo [(0, .noteOn 60 100), (2, .noteOn 62 100), (1000, .trackEnd)])
          ({ instantRelease := false } : RecorderChip) = .ok e ∧
        ¬ (Session.run { engine := e }
          [.start 0 {}, .tick, .stop 0, .restart 0, .tick]).engine.OwnerPlays 0 :=
    Engine.exists_make (by decide +kernel)
  exact ⟨e, hmake, fun hthroughout => hunowned (hthroughout.last.owner 0)⟩

end SoundSequencer
