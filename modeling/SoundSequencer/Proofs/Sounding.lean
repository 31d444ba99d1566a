/-
SoundSequencer.Proofs.Sounding — whether pool and chip agree on which notes
sound.

* `Engine.KeysFollow` says that, apart from voices still to be keyed off, a
  voice that is keyed on sounds, and one that sounds is keyed on or silent.
  Every deed and every note keeps it.
* `Engine.Struck` says that a voice still to be keyed off plays a new note.
  The flush silences such a note, and no other.
* `agrees_afterTicks_iff` says in which runs pool and chip agree after every
  tick.
-/
import SoundSequencer.Proofs.Keying

namespace SoundSequencer

namespace Engine

/-! ## Agreement -/

/-- Pool and chip agree: the voices that sound are those that are keyed on. -/
def Agrees (e : Engine RecorderChip) : Prop :=
  ∀ v < e.voices.limit, ((e.voice v).sounding = true ↔ e.chip.status v = .on)

instance (e : Engine RecorderChip) : Decidable e.Agrees :=
  inferInstanceAs (Decidable (∀ v < _, _))

/-- Voice `v` sounds and is keyed on or already silent, or it is neither. -/
def Heard (e : Engine RecorderChip) (v : Nat) : Prop :=
  ((e.voice v).sounding = true → e.chip.status v = .on ∨ e.chip.status v = .off) ∧
    (e.chip.status v = .on → (e.voice v).sounding = true)

/-- Voice `v` is to be keyed off at the end of the tick but plays a note that was
struck since. -/
def Struck (e : Engine RecorderChip) (v : Nat) : Prop :=
  e.pending v = true ∧ (e.voice v).sounding = true

instance (e : Engine RecorderChip) (v : Nat) : Decidable (e.Struck v) :=
  inferInstanceAs (Decidable (_ ∧ _))

/-- No voice of the pool is struck. -/
def NoneStruck (e : Engine RecorderChip) : Prop := ∀ v < e.voices.limit, ¬ e.Struck v

instance (e : Engine RecorderChip) : Decidable e.NoneStruck :=
  inferInstanceAs (Decidable (∀ v < _, _))

/-- Whether a patch voice is in the bank. -/
def Plays (bank : PatchBank) (patchVoice : UInt16) : Prop :=
  (bank.voice? patchVoice.toNat).isSome = true

/-- All voices that are not to be keyed off are heard as they should be, every voice in
use plays what is in the bank, and the chip releases voices at once or not. -/
structure KeysFollow (bank : PatchBank) (instant : Bool) (e : Engine RecorderChip) : Prop where
  patches : e.module.patches = bank
  instant : e.chip.instantRelease = instant
  size : e.chip.voices.size = hardwareVoices
  limit : e.voices.limit ≤ hardwareVoices
  heard : ∀ v < e.voices.limit, e.pending v = false → e.Heard v
  plays : ∀ v, (e.voice v).active = true → Plays bank (e.voice v).patchVoice

theorem lt_of_lt_hardwareVoices {v : Nat} (h : v < hardwareVoices) : v < 32 :=
  Nat.lt_trans h (by decide)

section Keeping

variable {bank : PatchBank} {instant : Bool} {e : Engine RecorderChip}

namespace KeysFollow

theorem lt_size (h : KeysFollow bank instant e) {v : Nat} (hv : v < e.voices.limit) :
    v < e.chip.voices.size := by
  rw [h.size]
  exact Nat.lt_of_lt_of_le hv h.limit

theorem lt_width (h : KeysFollow bank instant e) {v : Nat} (hv : v < e.voices.limit) : v < 32 :=
  lt_of_lt_hardwareVoices (Nat.lt_of_lt_of_le hv h.limit)

theorem releases (h : KeysFollow bank instant e) {e' : Engine RecorderChip}
    (hstep : Releases e e') : KeysFollow bank instant e' where
  patches := by rw [hstep.module, h.patches]
  instant := by rw [hstep.chip.instantRelease, h.instant]
  size := by rw [hstep.chip.size, h.size]
  limit := by rw [hstep.limit]; exact h.limit
  heard v hv hrest := by
    rw [hstep.limit] at hv
    have hrest' : e.pending v = false := by
      cases hpending : e.pending v with
      | false => rfl
      | true =>
        rw [hstep.pending v hpending] at hrest
        cases hrest
    unfold Heard
    rw [hstep.voice v (h.lt_width hv) hrest, hstep.chip.status]
    exact h.heard v hv hrest'
  plays v hv := by
    rw [hstep.active] at hv
    rw [hstep.patchVoice]
    exact h.plays v hv

/-! ## Notes -/

/-- A voice may be freed once it is released or silent. -/
theorem freeVoice (h : KeysFollow bank instant e) {v : Nat}
    (hv : (e.voice v).sounding = false ∨ e.chip.status v = .off) :
    KeysFollow bank instant (e.freeVoice v) := by
  have hdue := sameDue_freeVoice e v
  refine ⟨by rw [hdue.module, h.patches], by rw [hdue.instantRelease, h.instant],
    by rw [hdue.size, h.size], by simpa using h.limit, fun w hw hrest => ?_, fun w hw => ?_⟩
  · rw [limit_freeVoice] at hw
    rw [hdue.pending] at hrest
    obtain ⟨hsounds, hon⟩ := h.heard w hw hrest
    unfold Heard
    rw [chip_freeVoice, voice_freeVoice]
    split
    · next hfreed =>
      obtain ⟨rfl, -⟩ := hfreed
      refine ⟨fun hidle => absurd hidle (by simp [Voice.sounding]), fun hkeyed => ?_⟩
      rcases hv with hreleased | hsilent
      · rw [hon hkeyed] at hreleased
        cases hreleased
      · rw [hkeyed] at hsilent
        cases hsilent
    · exact ⟨hsounds, hon⟩
  · rw [active_freeVoice, Bool.and_eq_true] at hw
    rw [voice_freeVoice]
    split
    · next hfreed => exact absurd hw.1 (by simp [hfreed.1])
    · exact h.plays w hw.2

/-- A note that starts takes its voice over, whatever it was about to do. -/
theorem playNote (h : KeysFollow bank instant e) {patchVoice : UInt16}
    (hplays : Plays bank patchVoice) (i : Nat) (note velocity : UInt8) :
    KeysFollow bank instant (e.playNote i patchVoice note velocity) := by
  rcases playNote_eq e i patchVoice note velocity with heq | ⟨-, v, hv, heq⟩
  · rw [heq]
    exact h
  · obtain ⟨patch, hpatch⟩ := Option.isSome_iff_exists.mp hplays
    have hfree := sameDue_freeVoice e v
    have hpatch' : (e.freeVoice v).module.patches.voice? patchVoice.toNat = some patch := by
      rw [hfree.module, h.patches, hpatch]
    obtain ⟨hstart, hstatus⟩ := status_startVoice i note velocity (h.lt_width hv)
      (by rw [hfree.size]; exact h.lt_size hv) hpatch'
    obtain ⟨voice, -, hvoice, hlimit, hread⟩ :=
      voice_startVoice i note velocity (by simpa using hv) hpatch'
    have hdue := hfree.trans hstart
    rw [heq]
    refine ⟨by rw [hdue.module, h.patches], by rw [hdue.instantRelease, h.instant],
      by rw [hdue.size, h.size], by rw [hlimit, limit_freeVoice]; exact h.limit,
      fun w hw hrest => ?_, fun w hw => ?_⟩
    · rw [hlimit, limit_freeVoice] at hw
      rw [hdue.pending] at hrest
      unfold Heard
      rw [hstatus, hread, chip_freeVoice]
      split
      · exact ⟨fun _ => .inl rfl, fun _ => rfl⟩
      · next hvw =>
        rw [voice_freeVoice, if_neg fun hp => hvw hp.1]
        exact h.heard w hw hrest
    · rw [hread] at hw ⊢
      split
      · exact hvoice ▸ hplays
      · next hvw =>
        rw [if_neg hvw, voice_freeVoice, if_neg fun hp => hvw hp.1] at hw
        rw [voice_freeVoice, if_neg fun hp => hvw hp.1]
        exact h.plays w hw

end KeysFollow

/-- A patch voice that a key sounds is in the bank, also where its number is cut to
sixteen bits. -/
theorem plays_of_mem_soundingVoices {patch : UInt16} {note : UInt8}
    {index : Nat} (h : index ∈ soundingVoices bank patch note) :
    Plays bank (UInt16.ofNat index) := by
  obtain ⟨-, hsounds⟩ := List.mem_filter.mp h
  have hin : index < bank.voices.size := by
    by_contra hout
    have hnone : bank.voice? index = none := by
      simpa [PatchBank.voice?] using hout
    rw [hnone] at hsounds
    cases hsounds
  have hcut : index % 65536 < bank.voices.size :=
    Nat.lt_of_le_of_lt (Nat.mod_le index 65536) hin
  simpa [Plays, PatchBank.voice?] using hcut

theorem KeysFollow.noteOn (h : KeysFollow bank instant e)
    (i : Nat) (key velocity : UInt8) : KeysFollow bank instant (e.noteOn i key velocity) := by
  unfold Engine.noteOn
  split
  · exact h
  · next patch note _ =>
    have hkeys := foldl_keeps
      (f := fun e index => e.playNote i (UInt16.ofNat index) note velocity)
      (fun l e => (∀ index ∈ l, Plays bank (UInt16.ofNat index)) ∧ KeysFollow bank instant e)
      (fun index l e he => by
        obtain ⟨hall, hfollow⟩ := he
        exact ⟨fun other hother => hall other (List.mem_cons_of_mem index hother),
          hfollow.playNote (hall index List.mem_cons_self) i note velocity⟩)
      (soundingVoices e.module.patches patch note) e
      ⟨fun index hindex => plays_of_mem_soundingVoices (h.patches ▸ hindex), h⟩
    exact hkeys.2

/-! ## The upkeep of the voices -/

/-- Voices are freed one after the other, and the chip and what is pending stay as they
are. -/
theorem sameDue_freeWhere (q : Engine RecorderChip → Nat → Bool)
    (l : List Nat) :
    SameDue e (l.foldl (fun e v => if q e v then e.freeVoice v else e) e) ∧
      (l.foldl (fun e v => if q e v then e.freeVoice v else e) e).chip = e.chip ∧
      (l.foldl (fun e v => if q e v then e.freeVoice v else e) e).voices.limit =
        e.voices.limit := by
  refine foldl_keeps (fun _ e' => SameDue e e' ∧ e'.chip = e.chip ∧
    e'.voices.limit = e.voices.limit) (fun v l e' h => ?_) l e
    ⟨⟨rfl, rfl, rfl, rfl, rfl⟩, rfl, rfl⟩
  obtain ⟨hdue, hchip, hlimit⟩ := h
  split
  · exact ⟨hdue.trans (sameDue_freeVoice e' v), (chip_freeVoice e' v).trans hchip,
      (limit_freeVoice e' v).trans hlimit⟩
  · exact ⟨hdue, hchip, hlimit⟩

/-- A voice that is never to be freed stays as it is. -/
theorem voice_freeWhere {q : Engine RecorderChip → Nat → Bool} {v : Nat}
    (hq : ∀ e', e'.voice v = e.voice v → e'.chip = e.chip → q e' v = false) (l : List Nat) :
    (l.foldl (fun e v => if q e v then e.freeVoice v else e) e).voice v = e.voice v := by
  have hstays := foldl_keeps (f := fun e v => if q e v then e.freeVoice v else e)
    (fun _ e' => e'.voice v = e.voice v ∧ e'.chip = e.chip) (fun w l e' h => by
      obtain ⟨hvoice, hchip⟩ := h
      split
      · next hw =>
        have hwv : w ≠ v := by
          rintro rfl
          rw [hq e' hvoice hchip] at hw
          cases hw
        refine ⟨?_, (chip_freeVoice e' w).trans hchip⟩
        rw [voice_freeVoice, if_neg fun hp => hwv hp.1, hvoice]
      · exact ⟨hvoice, hchip⟩) l e ⟨rfl, rfl⟩
  exact hstays.1

theorem KeysFollow.freeExpired (h : KeysFollow bank instant e) :
    KeysFollow bank instant e.freeExpired := by
  refine foldl_keeps (fun _ e => KeysFollow bank instant e) (fun v l e h => ?_) _ e h
  split
  · next hexpired =>
    refine h.freeVoice (.inl ?_)
    simp only [Voice.expired, Bool.and_eq_true] at hexpired
    simp [Voice.sounding, hexpired.1.2]
  · exact h

/-- The flush leaves voices as they should be heard unless it fades a note that was
struck. -/
theorem KeysFollow.flush (h : KeysFollow bank instant e)
    (hfit : instant = true ∨ e.NoneStruck) : KeysFollow bank instant e.flushReleases where
  patches := h.patches
  instant := by rw [instantRelease_flushReleases, h.instant]
  size := by rw [size_flushReleases, h.size]
  limit := h.limit
  heard v hv _ := by
    have hv' : v < e.voices.limit := hv
    unfold Heard
    rw [status_flushReleases, show e.flushReleases.voice v = e.voice v from rfl]
    cases hpending : e.pending v with
    | false =>
      rw [if_neg fun hp => Bool.false_ne_true hp.2]
      exact h.heard v hv' hpending
    | true =>
      rw [if_pos ⟨h.lt_size hv', rfl⟩, RecorderChip.keyedStatus, h.instant]
      rcases hfit with rfl | hnone
      · exact ⟨fun _ => .inr rfl, fun hon => by cases hon⟩
      · refine ⟨fun hsounds => absurd ⟨hpending, hsounds⟩ (hnone v hv'), fun hon => ?_⟩
        cases instant <;> cases hon
  plays v := h.plays v

/-- With nothing left to key off, freeing the silent voices makes pool and chip
agree. -/
theorem KeysFollow.freeSilent (h : KeysFollow bank instant e) (hrest : ∀ v, e.pending v = false) :
    KeysFollow bank instant e.freeSilent ∧ e.freeSilent.Agrees := by
  -- of the voices behind, none in use is silent
  have hwork := foldl_keeps
    (f := fun (e' : Engine RecorderChip) v =>
      if e.chip.status v = .off && (e'.voice v).active then e'.freeVoice v else e')
    (fun l e' => KeysFollow bank instant e' ∧ SameDue e e' ∧ e'.chip = e.chip ∧
      e'.voices.limit = e.voices.limit ∧ ∀ v < e.voices.limit, v ∉ l →
        e.chip.status v = .off → (e'.voice v).active = false)
    (fun v l e' h => by
      obtain ⟨hfollow, hdue, hchip, hlimit, hdone⟩ := h
      split
      · next hsilent =>
        simp only [Bool.and_eq_true, decide_eq_true_eq] at hsilent
        refine ⟨hfollow.freeVoice (.inr (by rw [hchip]; exact hsilent.1)),
          hdue.trans (sameDue_freeVoice e' v), (chip_freeVoice e' v).trans hchip,
          (limit_freeVoice e' v).trans hlimit, fun w hw hwl hoff => ?_⟩
        rw [active_freeVoice]
        by_cases hvw : v = w
        · simp [hvw]
        · rw [hdone w hw (List.not_mem_cons_of_ne_of_not_mem (Ne.symm hvw) hwl) hoff,
            Bool.and_false]
      · next hkept =>
        refine ⟨hfollow, hdue, hchip, hlimit, fun w hw hwl hoff => ?_⟩
        by_cases hvw : v = w
        · subst hvw
          cases hactive : (e'.voice v).active with
          | false => rfl
          | true => exact absurd (by simp [hoff, hactive]) hkept
        · exact hdone w hw (List.not_mem_cons_of_ne_of_not_mem (Ne.symm hvw) hwl) hoff)
    (List.range e.voices.limit) e
    ⟨h, ⟨rfl, rfl, rfl, rfl, rfl⟩, rfl, rfl, fun v hv hnot =>
      absurd (List.mem_range.mpr hv) hnot⟩
  obtain ⟨hfollow, hdue, hchip, hlimit, hdone⟩ := hwork
  refine ⟨hfollow, fun v hv => ?_⟩
  have hv' : v < e.voices.limit := hlimit ▸ hv
  obtain ⟨hsounds, hon⟩ := hfollow.heard v hv (by rw [hdue.pending, hrest])
  refine ⟨fun hsounding => ?_, hon⟩
  refine (hsounds hsounding).resolve_right fun hoff => ?_
  have hidle := hdone v hv' List.not_mem_nil (hchip ▸ hoff)
  simp only [Voice.sounding, Bool.and_eq_true] at hsounding
  exact Bool.false_ne_true (hidle.symm.trans hsounding.1)

/-- On a chip that fades, a note that was struck on a voice still to be keyed off goes on
in the pool but not on the chip. -/
theorem KeysFollow.not_agrees (h : KeysFollow bank false e) {v : Nat}
    (hv : v < e.voices.limit) (hstruck : e.Struck v) : ¬ e.flushReleases.freeSilent.Agrees := by
  obtain ⟨hpending, hsounds⟩ := hstruck
  have hstatus : e.flushReleases.chip.status v = .releasing := by
    rw [status_flushReleases, if_pos ⟨h.lt_size hv, hpending⟩, RecorderChip.keyedStatus,
      h.instant]
    rfl
  obtain ⟨-, hchip, hlimit⟩ := sameDue_freeWhere (e := e.flushReleases)
    (fun e' v => e.flushReleases.chip.status v = .off && (e'.voice v).active)
    (List.range e.voices.limit)
  have hvoice := voice_freeWhere (e := e.flushReleases) (v := v)
    (q := fun e' v => e.flushReleases.chip.status v = .off && (e'.voice v).active)
    (fun e' _ _ => by simp [hstatus]) (List.range e.voices.limit)
  intro hagrees
  have hkeyed := (hagrees v (hlimit.symm ▸ hv)).mp (by
    rw [show e.flushReleases.freeSilent.voice v = e.flushReleases.voice v from hvoice]
    exact hsounds)
  rw [show e.flushReleases.freeSilent.chip = e.flushReleases.chip from hchip, hstatus] at hkeyed
  cases hkeyed

/-! ## Ticks -/

/-- A tick up to the flush of what is still to be keyed off. -/
def beforeFlush (e : Engine RecorderChip) : Engine RecorderChip := e.beforeUpkeep.freeExpired

theorem tick_eq_flush (e : Engine RecorderChip) :
    e.tick = e.beforeFlush.flushReleases.freeSilent := by
  rw [tick_eq]
  rfl

theorem KeysFollow.beforeFlush (h : KeysFollow bank instant e) :
    KeysFollow bank instant e.beforeFlush := by
  refine KeysFollow.freeExpired ((moves_beforeUpkeep e).keeps (fun e e' hmove h => ?_) h)
  cases hmove with
  | deed hdeed => exact h.releases (releases_deed hdeed)
  | noteOn key velocity => exact h.noteOn _ key velocity

/-- A tick makes pool and chip agree unless its flush fades a note that was struck. -/
theorem KeysFollow.tick (h : KeysFollow bank instant e)
    (hfit : instant = true ∨ e.beforeFlush.NoneStruck) :
    KeysFollow bank instant e.tick ∧ e.tick.Agrees := by
  rw [tick_eq_flush]
  exact (h.beforeFlush.flush hfit).freeSilent fun v => pending_flushReleases _ v

theorem KeysFollow.agrees_tick_iff (h : KeysFollow bank instant e) :
    e.tick.Agrees ↔ instant = true ∨ e.beforeFlush.NoneStruck := by
  refine ⟨fun hagrees => ?_, fun hfit => (h.tick hfit).2⟩
  cases instant with
  | true => exact .inl rfl
  | false =>
    rw [tick_eq_flush] at hagrees
    exact .inr fun v hv hstruck => h.beforeFlush.not_agrees hv hstruck hagrees

/-! ## Notes put aside -/

theorem KeysFollow.plays_heldMusic (h : KeysFollow bank instant e) (i : Nat) :
    ∀ n ∈ e.heldMusic i, Plays bank n.patchVoice := by
  unfold heldMusic
  dsimp only
  split
  · exact nofun
  · intro n hn
    obtain ⟨v, hv, rfl⟩ := List.mem_map.mp hn
    obtain ⟨-, hheld⟩ := VoicePool.mem_select.mp hv
    simp only [Voice.ownedBy, Bool.and_eq_true] at hheld
    exact h.plays v hheld.1.1

/-- A pause puts aside only notes that can be struck again. -/
theorem KeysFollow.pauseAll (h : KeysFollow bank instant e) (mute : Bool)
    {saved : List SavedNote} (hsaved : ∀ n ∈ saved, Plays bank n.patchVoice) :
    KeysFollow bank instant (e.pauseAll mute saved).2 ∧
      ∀ n ∈ (e.pauseAll mute saved).1, Plays bank n.patchVoice := by
  let good (_ : List Nat) (p : List SavedNote × Engine RecorderChip) : Prop :=
    KeysFollow bank instant p.2 ∧ ∀ n ∈ p.1, Plays bank n.patchVoice
  refine foldl_keeps good (fun s l p hp => ?_) _ (saved, e) ⟨h, hsaved⟩
  obtain ⟨saved, e⟩ := p
  dsimp only
  split
  · refine foldl_keeps good (fun i l p hp => ?_) _ (saved, e) hp
    obtain ⟨saved, e⟩ := p
    obtain ⟨hfollow, hplays⟩ := hp
    split
    · refine ⟨(hfollow.releases (releases_muteTrack e i)).releases
        (sameSound_pauseTrack _ i).releases, fun n hn => ?_⟩
      rcases List.mem_append.mp (List.mem_of_mem_take hn) with hold | hheld
      · exact hplays n hold
      · exact hfollow.plays_heldMusic i n hheld
    · exact ⟨hfollow.releases (sameSound_pauseTrack e i).releases, hplays⟩
  · exact hp

/-! ## The other calls -/

theorem KeysFollow.startSequence (h : KeysFollow bank instant e) (sequence : Nat)
    (options : StartOptions) : KeysFollow bank instant (e.startSequence sequence options).2 := by
  refine startSequence_keeps (fun e s f h => h.releases (sameSound_modifySlot e s f).releases)
    (fun e slotsActive h => h.releases (releases_of_same rfl (.refl _) rfl rfl rfl))
    (fun e slot sequence i position _ h => h.releases ?_) sequence h
  unfold startTrack
  split
  · exact .refl e
  · exact releases_of_same rfl (.refl _) rfl rfl rfl

theorem KeysFollow.releaseHandle (h : KeysFollow bank instant e) (slot : Nat) :
    KeysFollow bank instant (e.releaseHandle slot) := by
  refine releaseHandle_keeps (fun e s f h => h.releases (sameSound_modifySlot e s f).releases)
    (fun e i h => ?_) slot h
  have hunhandled := (sameSound_modifyTrack e i Track.unhandled).releases
  exact h.releases (hunhandled.trans (releases_turnOff _ i))

theorem KeysFollow.restart (h : KeysFollow bank instant e) (sequence : Nat) :
    KeysFollow bank instant (e.restart sequence) :=
  restart_keeps (fun e => KeysFollow bank instant e)
    (fun e _ i _ h => h.releases (sameSound_resumeTrack e i).releases) sequence h

theorem KeysFollow.restartAll (h : KeysFollow bank instant e) {saved : List SavedNote}
    (hsaved : ∀ n ∈ saved, Plays bank n.patchVoice) :
    KeysFollow bank instant (e.restartAll saved) :=
  restartAll_keeps (fun e => KeysFollow bank instant e) saved (fun _ _ _ => True)
    (fun _ _ _ _ => trivial)
    (fun e _ i _ h => h.releases (sameSound_resumeTrack e i).releases) (fun _ _ _ _ _ => trivial)
    (fun _ n hn h => h.playNote (hsaved n hn) n.track n.note n.velocity)
    (fun _ _ _ _ _ _ _ => trivial) h

/-- The end of a release leaves voices as they should be heard: none starts. -/
theorem KeysFollow.finish (h : KeysFollow bank instant e) {chip : RecorderChip}
    (hsize : chip.voices.size = e.chip.voices.size)
    (hinstant : chip.instantRelease = e.chip.instantRelease)
    (hstatus : ∀ v, chip.status v = .off ∨ chip.status v = e.chip.status v) :
    KeysFollow bank instant { e with chip } where
  patches := h.patches
  instant := hinstant.trans h.instant
  size := hsize.trans h.size
  limit := h.limit
  heard v hv hrest := by
    obtain ⟨hsounds, hon⟩ := h.heard v hv hrest
    rcases hstatus v with hoff | hsame
    · exact ⟨fun _ => .inr hoff, fun hkeyed => by cases hoff.symm.trans hkeyed⟩
    · exact ⟨fun hsounding => by rw [hsame]; exact hsounds hsounding,
        fun hkeyed => hon (hsame.symm.trans hkeyed)⟩
  plays v := h.plays v

end Keeping

end Engine

/-! ## Runs -/

/-- Leaves the chip to the engine but for ends of releases, and has only notes of this
engine struck again. -/
def Session.Fair (s : Session RecorderChip) : Call RecorderChip → Prop
  | .onChip f =>
    f = RecorderChip.finishAllReleases ∨ ∃ v, f = fun chip => chip.finishRelease v
  | .pauseAll _ saved | .restartAll saved => ∀ n ∈ saved, n ∈ s.noted
  | _ => True

open Engine

/-- All is heard as it should be, and all notes put aside can be struck again. -/
structure Session.Sound (bank : PatchBank) (instant : Bool) (s : Session RecorderChip) : Prop where
  keys : KeysFollow bank instant s.engine
  noted : ∀ n ∈ s.noted, Plays bank n.patchVoice

theorem keysFollow_make {module : SoundModule} {instant : Bool} {e : Engine RecorderChip}
    (h : Engine.make module { instantRelease := instant } = .ok e) :
    KeysFollow module.patches instant e := by
  have hidle : ∀ v, (e.voice v).active = false := by
    intro v
    rw [voice_make h]
  unfold Engine.make at h
  split at h
  · cases h
  · cases h
    refine ⟨rfl, rfl, Array.size_replicate, ?_, fun v _ _ => ?_, fun v hv => ?_⟩
    · show (Array.replicate (min _ hardwareVoices) _).size ≤ hardwareVoices
      rw [Array.size_replicate]
      exact Nat.min_le_right _ _
    · have hsilent : ∀ chip : RecorderChip, chip.voices = Array.replicate hardwareVoices {} →
          chip.status v = .off := by
        intro chip hchip
        rw [RecorderChip.status, RecorderChip.voice, hchip, getD_replicate]
      constructor
      · intro hsounds
        simp only [Voice.sounding, Bool.and_eq_true] at hsounds
        exact absurd hsounds.1 (Bool.eq_false_iff.mp (hidle v))
      · intro hon
        cases (hsilent _ rfl).symm.trans hon
    · exact absurd hv (Bool.eq_false_iff.mp (hidle v))

/-- A fair call leaves all heard as it should be, unless it is a tick that fades a note
that was struck. -/
theorem Session.Sound.perform {bank : PatchBank} {instant : Bool} {s : Session RecorderChip}
    (h : s.Sound bank instant) {call : Call RecorderChip} (hfair : s.Fair call)
    (htick : call.isTick → instant = true ∨ s.engine.beforeFlush.NoneStruck) :
    (s.perform call).Sound bank instant := by
  have hnotes : ∀ saved : List SavedNote, (∀ n ∈ saved, n ∈ s.noted) →
      ∀ n ∈ saved, Plays bank n.patchVoice :=
    fun _ hall n hn => h.noted n (hall n hn)
  constructor
  case keys =>
    by_cases hplain : call.Plain
    · exact (deeds_perform s hplain).keeps
        (fun _ _ hdeed h => h.releases (releases_deed hdeed)) h.keys
    cases call with
    | tick =>
      rw [Session.engine_tick]
      exact (h.keys.tick (htick rfl)).1
    | start sequence options => exact h.keys.startSequence sequence options
    | releaseHandle slot => exact h.keys.releaseHandle slot
    | restart sequence => exact h.keys.restart sequence
    | restartAll saved => exact h.keys.restartAll (hnotes saved hfair)
    | onChip f =>
      rcases hfair with rfl | ⟨v, rfl⟩
      · refine h.keys.finish Array.size_map rfl fun w => ?_
        rw [RecorderChip.status_finishAllReleases]
        split
        · exact .inl rfl
        · exact .inr rfl
      · refine h.keys.finish Array.size_modify rfl fun w => ?_
        rw [RecorderChip.status_finishRelease]
        split
        · exact .inl rfl
        · exact .inr rfl
    | _ => exact absurd trivial hplain
  case noted =>
    cases call with
    | pauseAll mute saved =>
      intro n hn
      rcases List.mem_append.mp hn with hold | hnew
      · exact h.noted n hold
      · exact (h.keys.pauseAll mute (hnotes saved hfair)).2 n hnew
    | listen kind =>
      unfold Session.perform
      dsimp only
      split
      · exact h.noted
      · exact h.noted
    | _ => exact h.noted

/-- In exactly those fair runs do pool and chip agree after every tick in which no tick
comes to its flush with a note struck on a voice that is still to be keyed off; on a
chip that releases voices at once, they agree after every tick. -/
theorem agrees_afterTicks_iff {module : SoundModule} {instant : Bool} {e : Engine RecorderChip}
    (hmake : Engine.make module { instantRelease := instant } = .ok e)
    {calls : List (Call RecorderChip)}
    (hfair : Session.Allows Session.Fair { engine := e } calls) :
    Session.Allows (fun s call => call.isTick → (s.perform call).engine.Agrees)
        { engine := e } calls ↔
      instant = true ∨
        Session.Allows (fun s call => call.isTick → s.engine.beforeFlush.NoneStruck)
          { engine := e } calls := by
  have hfresh : Session.Sound module.patches instant { engine := e } :=
    ⟨keysFollow_make hmake, nofun⟩
  refine (Session.allows_iff_allows (fun s => s.Sound module.patches instant)
    (fun s call => call.isTick → instant = true ∨ s.engine.beforeFlush.NoneStruck)
    (fun s call h _ => ?_) (fun s call h hcall hfine => h.perform hcall hfine)
    hfair hfresh).trans ?_
  · refine imp_congr_right fun hcall => ?_
    cases call with
    | tick => rw [Session.engine_tick, h.keys.agrees_tick_iff]
    | _ => cases hcall
  cases instant with
  | true =>
    simp only [true_or, implies_true]
    exact iff_of_true (Session.allows_of_forall (fun _ _ => trivial) calls _) trivial
  | false => simp only [Bool.false_eq_true, false_or]

/-- A note is struck on a voice that was keyed off in the tick before. -/
theorem agrees_afterTicks_restrike : ∃ e,
    Engine.make (solo [(0, .noteOn 60 100), (2, .noteOff 60), (2, .noteOn 62 100),
        (1000, .trackEnd)]) { instantRelease := false } = .ok e ∧
      Session.Allows (fun s call => call.isTick → (s.perform call).engine.Agrees) { engine := e }
        [.start 0 {}, .tick, .tick, .tick, .stop 0, .onChip RecorderChip.finishAllReleases,
          .tick] := by
  obtain ⟨e, hmake, hrests⟩ : ∃ e,
      Engine.make (solo [(0, .noteOn 60 100), (2, .noteOff 60), (2, .noteOn 62 100),
          (1000, .trackEnd)]) { instantRelease := false } = .ok e ∧
        Session.Allows (fun s call => call.isTick → s.engine.beforeFlush.NoneStruck)
          { engine := e }
          [.start 0 {}, .tick, .tick, .tick, .stop 0, .onChip RecorderChip.finishAllReleases,
            .tick] :=
    Engine.exists_make (by decide +kernel)
  have hfair : Session.Allows Session.Fair { engine := e }
      [.start 0 {}, .tick, .tick, .tick, .stop 0, .onChip RecorderChip.finishAllReleases,
        .tick] :=
    ⟨trivial, trivial, trivial, trivial, trivial, .inl rfl, trivial, trivial⟩
  exact ⟨e, hmake, (agrees_afterTicks_iff hmake hfair).mpr (.inr hrests)⟩

/-- A note that is struck on the voice of another, in the tick in which that ends, fades
with it. -/
theorem not_agrees_restrike : ∃ e,
    Engine.make (solo [(0, .noteOn 60 100), (2, .noteOff 60), (0, .noteOn 62 100),
        (1000, .trackEnd)]) { instantRelease := false } = .ok e ∧
      ¬ Session.Allows (fun s call => call.isTick → (s.perform call).engine.Agrees)
        { engine := e } [.start 0 {}, .tick, .tick] :=
  Engine.exists_make (by decide +kernel)

end SoundSequencer
