/-
SoundSequencer.Proofs.NoteEnds — what the end of a key does with the voices that it started.

* `Engine.struckBy` are the voices that a key starts; `carries_noteOn` says that they play the
  note which the key means. `Engine.carries_of_history` follows them as long as nothing takes
  them and every upkeep keeps them.
* The end of a key looks for the key among the notes, so it finds these voices just if the key
  means a note of its own number: `ends_what_key_started`. For drums the map decides that.
-/
import SoundSequencer.Proofs.Histories
import SoundSequencer.Proofs.Seats

namespace SoundSequencer

namespace Engine

variable {σ : Type}

/-- Voice `v` carries the note `note` of track `i`, which may fade already. -/
structure Carries (e : Engine σ) (v i : Nat) (note : UInt8) : Prop where
  active : (e.voice v).active = true
  track : (e.voice v).track = i
  note : (e.voice v).note = note

theorem Carries.of_eq {e e' : Engine σ} {v i : Nat} {note : UInt8} (h : e.Carries v i note)
    (hactive : (e'.voice v).active = (e.voice v).active)
    (htrack : (e'.voice v).track = (e.voice v).track)
    (hnote : (e'.voice v).note = (e.voice v).note) : e'.Carries v i note :=
  ⟨hactive.trans h.active, htrack.trans h.track, hnote.trans h.note⟩

/-- An update that has to do neither with owners nor with notes. -/
theorem Carries.update {e e' : Engine σ} {v i : Nat} {note : UInt8} (h : e.Carries v i note)
    {q : Voice → Bool} {f : Voice → Voice} (hvoices : e'.voices = e.voices.update q f)
    (hf : ∀ voice, ((f voice).active, (f voice).track, (f voice).note) =
      (voice.active, voice.track, voice.note)) : e'.Carries v i note := by
  have hvoice : ((e'.voice v).active, (e'.voice v).track, (e'.voice v).note) =
      ((e.voice v).active, (e.voice v).track, (e.voice v).note) := by
    unfold voice
    rw [hvoices]
    exact VoicePool.voice_update_of (fun voice => (voice.active, voice.track, voice.note))
      e.voices q hf v
  simp only [Prod.mk.injEq] at hvoice
  exact h.of_eq hvoice.1 hvoice.2.1 hvoice.2.2

variable [SoundChip σ]

/-! ## Keys struck -/

/-- The voices that notes on the given patch voices start, one after the other. -/
def struckOn (i : Nat) (note velocity : UInt8) : List Nat → Engine σ → List Nat
  | [], _ => []
  | index :: l, e =>
    (e.taken? i).toList ++
      struckOn i note velocity l (e.playNote i (UInt16.ofNat index) note velocity)

/-- The voices that a key starts. -/
def struckBy (e : Engine σ) (i : Nat) (key velocity : UInt8) : List Nat :=
  match e.keyMeaning? i key with
  | none => []
  | some (patch, note) =>
    struckOn i note velocity (soundingVoices e.module.patches patch note) e

theorem module_playNote (e : Engine σ) (i : Nat) (patchVoice : UInt16) (note velocity : UInt8) :
    (e.playNote i patchVoice note velocity).module = e.module := by
  rcases playNote_eq e i patchVoice note velocity with heq | ⟨-, v, -, heq⟩
  · rw [heq]
  · rw [heq]
    cases hpatch : (e.freeVoice v).module.patches.voice? patchVoice.toNat with
    | none => rw [startVoice_of_none hpatch, module_freeVoice]
    | some patch =>
      obtain ⟨_, _, _, -, -, hstarted⟩ := startVoice_of_some v i note velocity hpatch
      rw [hstarted, ← module_freeVoice e v]
      rfl

/-- What a note that starts makes of its voice. -/
theorem voice_startVoice_self {e : Engine σ} {v i : Nat} {patchVoice : UInt16}
    {patch : PatchVoice} (hv : v < e.voices.limit)
    (hpatch : e.module.patches.voice? patchVoice.toNat = some patch) (note velocity : UInt8) :
    (e.startVoice v i patchVoice note velocity).voice v =
      e.noteVoice i patchVoice patch note velocity := by
  have hkeyOn : ∀ e : Engine σ, (e.keyOn v patch).voices = e.voices := by
    intro e
    unfold keyOn routeReverb
    dsimp only
    split <;> rfl
  unfold startVoice
  rw [hpatch]
  dsimp only
  unfold voice
  rw [hkeyOn]
  exact (VoicePool.voice_occupy e.voices v v _ hv).trans (if_pos rfl)

/-- A note plays on the voice that it takes, and is not released yet. -/
theorem carries_playNote_of_taken? {e : Engine σ} {i v : Nat} {patchVoice : UInt16}
    (htaken : e.taken? i = some v)
    (hpatch : (e.module.patches.voice? patchVoice.toNat).isSome) (note velocity : UInt8) :
    (e.playNote i patchVoice note velocity).Carries v i note ∧
      ((e.playNote i patchVoice note velocity).voice v).release = false := by
  obtain ⟨patch, hpatch⟩ := Option.isSome_iff_exists.mp hpatch
  have hstarted := voice_startVoice_self (e := e.freeVoice v) (v := v) (i := i)
    (by rw [limit_freeVoice]; exact lt_limit_of_taken? htaken)
    (by rw [module_freeVoice]; exact hpatch) note velocity
  rw [playNote_of_taken?, htaken]
  dsimp only
  refine ⟨⟨?_, ?_, ?_⟩, ?_⟩ <;> rw [hstarted] <;> rfl

/-- Every voice struck plays the note, and so does every voice that already did. -/
theorem carries_foldl_playNote {i v : Nat} {note velocity : UInt8} :
    ∀ {l : List Nat} {e : Engine σ},
      (∀ index ∈ l, (e.module.patches.voice? (UInt16.ofNat index).toNat).isSome) →
      v ∈ struckOn i note velocity l e ∨ (e.Carries v i note ∧ (e.voice v).release = false) →
        let e' := l.foldl (fun e index => e.playNote i (UInt16.ofNat index) note velocity) e
        e'.Carries v i note ∧ (e'.voice v).release = false
  | [], _, _, .inr h => h
  | index :: l, e, hpatch, h => by
    rw [List.foldl_cons]
    refine carries_foldl_playNote (fun index hindex => ?_) ?_
    · rw [module_playNote]
      exact hpatch index (List.mem_cons_of_mem _ hindex)
    · by_cases htaken : e.taken? i = some v
      · exact .inr (carries_playNote_of_taken? htaken (hpatch index List.mem_cons_self) _ _)
      · rcases h with hlater | hcarries
        · refine .inl ((List.mem_append.mp hlater).resolve_left fun hnow => htaken ?_)
          exact Option.mem_toList.mp hnow
        · have hkept := voice_act_of_spared (e := e)
            (x := .play i (UInt16.ofNat index) note velocity) (v := v) nofun htaken id
          have hvoice : (e.playNote i (UInt16.ofNat index) note velocity).voice v =
            e.voice v := hkept
          refine .inr ⟨hcarries.1.of_eq ?_ ?_ ?_, ?_⟩ <;> rw [hvoice]
          exact hcarries.2

omit [SoundChip σ] in
/-- A patch voice that sounds is there, whatever becomes of its number. -/
theorem isSome_voice?_of_mem {bank : PatchBank} {patch : UInt16} {note : UInt8} {index : Nat}
    (h : index ∈ soundingVoices bank patch note) :
    (bank.voice? (UInt16.ofNat index).toNat).isSome := by
  have hindex : (bank.voice? index).isSome := by
    have hsounds := (List.mem_filter.mp h).2
    cases hvoice : bank.voice? index with
    | none => simp [hvoice] at hsounds
    | some patch => rfl
  have hlt : index < bank.voices.size := by simpa [PatchBank.voice?] using hindex
  have hle : index % 2 ^ 16 ≤ index := Nat.mod_le index (2 ^ 16)
  simpa [PatchBank.voice?] using Nat.lt_of_le_of_lt hle hlt

/-- The voices that a key starts play the note that it means, and none of them fades yet. -/
theorem carries_noteOn {e : Engine σ} {i v : Nat} {key velocity : UInt8}
    (hv : v ∈ e.struckBy i key velocity) :
    ∃ patch note, e.keyMeaning? i key = some (patch, note) ∧
      (e.noteOn i key velocity).Carries v i note ∧
      ((e.noteOn i key velocity).voice v).release = false := by
  unfold struckBy at hv
  unfold noteOn
  cases hmeans : e.keyMeaning? i key with
  | none =>
    rw [hmeans] at hv
    cases hv
  | some meant =>
    obtain ⟨patch, note⟩ := meant
    rw [hmeans] at hv
    exact ⟨patch, note, rfl,
      carries_foldl_playNote (fun _ hindex => isSome_voice?_of_mem hindex) (.inl hv)⟩

/-! ## Notes that go on -/

/-- What plays a note plays it on after an act that does not take the voice, unless that is an
upkeep which frees it. -/
theorem carries_act {e : Engine σ} {x : Act} {v i : Nat} {note : UInt8} (h : e.Carries v i note)
    (htakes : ¬ x.Takes e v)
    (hkept : x = .upkeep → (e.serviceVoices.voice v).active = true) :
    (e.act x).Carries v i note := by
  have hspared : x ≠ .upkeep → ¬ x.Releases e v → (e.act x).Carries v i note := by
    intro hx hreleases
    have hvoice := voice_act_of_spared hx htakes hreleases
    exact h.of_eq (by rw [hvoice]) (by rw [hvoice]) (by rw [hvoice])
  cases x with
  | play | tick => exact hspared nofun id
  | endNote j ended => exact h.update rfl fun _ => rfl
  | fade j =>
    unfold act releaseVoices
    dsimp only
    split
    · exact h
    · exact h.update rfl fun _ => rfl
  | upkeep =>
    have hserviced := voice_serviceVoices e v
    have hactive := hkept rfl
    split at hserviced
    · rw [hserviced] at hactive
      cases hactive
    · exact h.of_eq (by rw [act, hserviced]) (by rw [act, hserviced]) (by rw [act, hserviced])

/-- So it does throughout a history. -/
theorem carries_of_history {a b : Engine σ} {l : List (Engine σ × Act)} {v i : Nat} {note : UInt8}
    (h : History a l b) (hcarries : a.Carries v i note) (htakes : ∀ p ∈ l, ¬ p.2.Takes p.1 v)
    (hkept : ∀ p ∈ l, p.2 = .upkeep → (p.1.serviceVoices.voice v).active = true) :
    b.Carries v i note := by
  have hcalm : ∀ {a b : Engine σ}, Calm a b → a.Carries v i note → b.Carries v i note :=
    fun hcalm hcarries => hcarries.of_eq (by rw [hcalm.voice]) (by rw [hcalm.voice])
      (by rw [hcalm.voice])
  induction h with
  | rest hrest => exact hcalm hrest hcarries
  | step hfirst _ ih =>
    refine ih (carries_act (hcalm hfirst hcarries) (htakes _ List.mem_cons_self)
      (hkept _ List.mem_cons_self)) (fun p hp => ?_) fun p hp => ?_
    · exact htakes p (List.mem_cons_of_mem _ hp)
    · exact hkept p (List.mem_cons_of_mem _ hp)

/-! ## Keys let go -/

theorem obey_noteOn {e : Engine σ} {i : Nat} {c : Command} (hc : e.command? i = some c)
    (hon : c.op = .noteOn) (hvoices : (e.track i).driver = .voices) :
    e.obey i = e.noteOn i (c.byte 1) (c.byte 2) := by
  simp only [obey, hc, driverCommand, hvoices, voiceCommand, hon]
  rfl

theorem obey_noteOff {e : Engine σ} {i : Nat} {c : Command} (hc : e.command? i = some c)
    (hoff : c.op = .noteOff) (hvoices : (e.track i).driver = .voices) :
    e.obey i = e.noteOff i (c.byte 1) := by
  simp only [obey, hc, driverCommand, hvoices, voiceCommand, hoff]
  rfl

omit [SoundChip σ] in
/-- The end of a key releases the voices of its track that play a note of its number; a voice
that fades already fades on. -/
theorem release_noteOff_iff {e : Engine σ} {v i : Nat} {note : UInt8} (h : e.Carries v i note)
    (key : UInt8) :
    ((e.noteOff i key).voice v).release = true ↔ note = key ∨ (e.voice v).release = true := by
  have hlt := VoicePool.lt_limit_of_active h.active
  have hread : (e.noteOff i key).voice v =
      if (e.voice v).ownedBy i && !(e.voice v).release && (e.voice v).note == key then
        (e.voice v).released e.clock.ms
      else e.voice v := VoicePool.voice_update e.voices _ _ v hlt
  rw [hread]
  simp only [Voice.ownedBy, h.active, h.track, h.note, beq_self_eq_true, Bool.and_self,
    Bool.true_and, Bool.and_eq_true, Bool.not_eq_true', beq_iff_eq]
  split
  · next hends => exact iff_of_true rfl (.inl hends.2)
  · next hstays =>
    refine ⟨.inr, fun hor => ?_⟩
    rcases hor with heq | hfades
    · by_contra hheld
      exact hstays ⟨Bool.eq_false_iff.mpr hheld, heq⟩
    · exact hfades

end Engine

namespace Session

open Engine

/-- If a track strikes a key and later lets it go, then of the voices that the key started, those
that nothing took in between and every upkeep kept still carry the note that the key means; they
fade just if that note has the number of the key or they did before. For a track that does not
play drums it has. -/
theorem ends_what_key_started {σ : Type} [SoundChip σ] {s : Session σ} {calls : List (Call σ)}
    {n m i : Nat} {d d' : Engine σ} {c c' : Command}
    (hn : (s.executions calls)[n]? = some (d, i)) (hm : (s.executions calls)[m]? = some (d', i))
    (hlt : n < m) (hc : d.command? i = some c) (hon : c.op = .noteOn)
    (hvoices : (d.track i).driver = .voices) (hc' : d'.command? i = some c')
    (hoff : c'.op = .noteOff) (hvoices' : (d'.track i).driver = .voices)
    (hkey : c'.byte 1 = c.byte 1) :
    (∃ l, History (d.obey i) l d') ∧
      ∀ v ∈ d.struckBy i (c.byte 1) (c.byte 2), ∃ patch note,
        d.keyMeaning? i (c.byte 1) = some (patch, note) ∧
        ((d.track i).soundClass.isDrums = false → note = c.byte 1) ∧
        ((d.obey i).Carries v i note ∧ ((d.obey i).voice v).release = false) ∧
        ∀ l, History (d.obey i) l d' → (∀ p ∈ l, ¬ p.2.Takes p.1 v) →
          (∀ p ∈ l, p.2 = .upkeep → (p.1.serviceVoices.voice v).active = true) →
            (d'.obey i).Carries v i note ∧
              (((d'.obey i).voice v).release = true ↔
                note = c.byte 1 ∨ (d'.voice v).release = true) := by
  refine ⟨exists_history_between hn hm hlt, fun v hv => ?_⟩
  obtain ⟨patch, note, hmeans, hcarries, hheld⟩ := carries_noteOn hv
  have hkeyed : (d.track i).soundClass.isDrums = false → note = c.byte 1 := by
    intro hdrums
    simp only [keyMeaning?, hdrums, Bool.false_eq_true, if_false, Option.some.injEq,
      Prod.mk.injEq] at hmeans
    exact hmeans.2.symm
  rw [obey_noteOn hc hon hvoices, obey_noteOff hc' hoff hvoices', hkey]
  refine ⟨patch, note, hmeans, hkeyed, ⟨hcarries, hheld⟩, fun l hl htakes hkept => ?_⟩
  have hlater := carries_of_history hl hcarries htakes hkept
  exact ⟨hlater.update rfl fun _ => rfl, release_noteOff_iff hlater _⟩

end Session

namespace Engine

/-- A session that has just started sequence 0. -/
def afterStart (e : Engine RecorderChip) : Session RecorderChip :=
  ({ engine := e } : Session RecorderChip).perform (.start 0 {})

end Engine

open Engine

/-- Drums of which the second key means `note`; a track strikes it and lets it go at once. -/
def drumroll (note : UInt8) : SoundModule :=
  drumSolo [0, note] [(0, .noteOn 1 100), (0, .noteOff 1), (1000, .trackEnd)]

/-- The first tick strikes the second key and lets it go, with nothing in between, and the key
starts voice 0. -/
def Engine.Drums (e : Engine RecorderChip) (d d' : Engine RecorderChip) : Prop :=
  (e.afterStart.executions [.tick])[0]? = some (d, 0) ∧
    (e.afterStart.executions [.tick])[1]? = some (d', 0) ∧
    (d.command? 0 = some (.noteOn 1 100) ∧ (d.track 0).driver = .voices) ∧
    (d'.command? 0 = some (.noteOff 1) ∧ (d'.track 0).driver = .voices) ∧
    0 ∈ d.struckBy 0 1 100 ∧ History (d.obey 0) [] d'

/-- What can be computed of the drums. -/
theorem exists_drums {note : UInt8} {good : Engine RecorderChip → Engine RecorderChip → Prop}
    [∀ d d', Decidable (good d d')]
    (h : (match Engine.make (drumroll note) {} with
      | .ok e => decide (∃ p ∈ (e.afterStart.executions [.tick])[0]?,
          ∃ q ∈ (e.afterStart.executions [.tick])[1]?, (p.2 = 0 ∧ q.2 = 0) ∧
            (p.1.command? 0 = some (.noteOn 1 100) ∧ (p.1.track 0).driver = .voices) ∧
            (q.1.command? 0 = some (.noteOff 1) ∧ (q.1.track 0).driver = .voices) ∧
            0 ∈ p.1.struckBy 0 1 100 ∧ Calm (p.1.obey 0) q.1 ∧ good p.1 q.1)
      | .error _ => false) = true) :
    ∃ e d d', Engine.make (drumroll note) {} = .ok e ∧ e.Drums d d' ∧ good d d' := by
  split at h
  · next e hmake =>
    obtain ⟨⟨d, i⟩, hn, ⟨d', i'⟩, hm, ⟨hi, hi'⟩, hon, hoff, hstruck, hcalm, hgood⟩ :=
      of_decide_eq_true h
    obtain rfl : i = 0 := hi
    obtain rfl : i' = 0 := hi'
    exact ⟨e, d, d', hmake, ⟨hn, hm, hon, hoff, hstruck, .rest hcalm⟩, hgood⟩
  · cases h

/-- A drum whose key means a note of its own number ends with its key. -/
theorem ends_what_key_started_drumroll : ∃ e d d', Engine.make (drumroll 1) {} = .ok e ∧
    e.Drums d d' ∧ (d'.obey 0).Carries 0 0 1 ∧ ((d'.obey 0).voice 0).release = true := by
  obtain ⟨e, d, d', hmake, hdrums, hmeans⟩ :=
    @exists_drums 1 (fun d _ => d.keyMeaning? 0 1 = some (0, 1)) _ (by decide +kernel)
  obtain ⟨hn, hm, ⟨hc, hvoices⟩, ⟨hc', hvoices'⟩, hstruck, hhistory⟩ := id hdrums
  obtain ⟨-, hends⟩ := Session.ends_what_key_started hn hm Nat.zero_lt_one hc rfl hvoices hc' rfl
    hvoices' rfl
  obtain ⟨patch, note, hmeans', -, -, hends⟩ := hends 0 hstruck
  have hnote : note = 1 := (Prod.mk.inj (Option.some.inj (hmeans'.symm.trans hmeans))).2
  obtain ⟨hcarries, hreleases⟩ := hends [] hhistory (fun _ hp => (List.not_mem_nil hp).elim)
    fun _ hp => (List.not_mem_nil hp).elim
  rw [hnote] at hcarries hreleases
  exact ⟨e, d, d', hmake, hdrums, hcarries, hreleases.mpr (.inl rfl)⟩

/-- A drum whose key means another note plays on. -/
theorem not_ends_drumroll : ∃ e d d', Engine.make (drumroll 48) {} = .ok e ∧
    e.Drums d d' ∧ (d'.obey 0).Carries 0 0 48 ∧ ((d'.obey 0).voice 0).release = false := by
  obtain ⟨e, d, d', hmake, hdrums, ⟨hactive, htrack, hnote⟩, hheld⟩ :=
    @exists_drums 48 (fun _ d' => (((d'.obey 0).voice 0).active = true ∧
      ((d'.obey 0).voice 0).track = 0 ∧ ((d'.obey 0).voice 0).note = 48) ∧
      ((d'.obey 0).voice 0).release = false) _ (by decide +kernel)
  exact ⟨e, d, d', hmake, hdrums, ⟨hactive, htrack, hnote⟩, hheld⟩

end SoundSequencer
