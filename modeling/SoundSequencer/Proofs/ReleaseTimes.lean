/-
SoundSequencer.Proofs.ReleaseTimes — how long a released voice stays in use.

* `Engine.elapsed` is the time that has passed between two states of a history, the wraps of the
  clock counted in.
* A voice whose release begins is to be freed by the first upkeep after its release time. The
  upkeep compares the clock with a deadline, both as they are after their last wrap, so this
  comes out right just if neither has wrapped without the other: `release_times`.
* `not_endsOnTime_longNote` is a release whose deadline lies behind the wrap of the clock: it is
  over at once.
-/
import SoundSequencer.Proofs.Histories
import SoundSequencer.Proofs.IdleTicks

namespace SoundSequencer

namespace Engine

variable {σ : Type}

/-! ## Time -/

/-- The milliseconds that have passed since `a`. -/
def elapsed (a e : Engine σ) : Nat :=
  (a.clock.frac + (e.ticks - a.ticks) * MsClock.tickLength) / 65536

/-- The clock of `e` shows the time that has passed since `a`. -/
structure Clocked (a e : Engine σ) : Prop where
  ticks : a.ticks ≤ e.ticks
  clock : e.clock = a.clock.advanceBy (e.ticks - a.ticks)

namespace Clocked

theorem refl {a : Engine σ} (h : a.clock.frac < 65536) : Clocked a a :=
  ⟨Nat.le_refl _, by rw [Nat.sub_self, MsClock.advanceBy_zero h]⟩

theorem frac_lt {a e : Engine σ} (h : Clocked a e) : e.clock.frac < 65536 := by
  rw [h.clock]
  exact MsClock.frac_advanceBy_lt _ _

theorem ms {a e : Engine σ} (h : Clocked a e) :
    e.clock.ms.toNat = (a.clock.ms.toNat + elapsed a e) % 2 ^ 32 := by
  rw [h.clock, MsClock.advanceBy, UInt32.toNat_add, UInt32.toNat_ofNat', Nat.add_mod_mod]
  rfl

theorem same {a e e' : Engine σ} (h : Clocked a e) (hclock : e'.clock = e.clock)
    (hticks : e'.ticks = e.ticks) : Clocked a e' :=
  ⟨hticks ▸ h.ticks, by rw [hclock, hticks, h.clock]⟩

theorem next {a e e' : Engine σ} (h : Clocked a e) (hclock : e'.clock = e.clock.advance)
    (hticks : e'.ticks = e.ticks + 1) : Clocked a e' := by
  refine ⟨by rw [hticks]; exact Nat.le_succ_of_le h.ticks, ?_⟩
  have hsub : e.ticks + 1 - a.ticks = e.ticks - a.ticks + 1 := Nat.sub_add_comm h.ticks
  rw [hclock, hticks, h.clock, MsClock.advance_eq, ← MsClock.advanceBy_add, hsub]

end Clocked

theorem elapsed_self {a : Engine σ} (h : a.clock.frac < 65536) : elapsed a a = 0 := by
  rw [elapsed, Nat.sub_self]
  omega

theorem elapsed_congr (a : Engine σ) {e e' : Engine σ} (hticks : e'.ticks = e.ticks) :
    elapsed a e' = elapsed a e := by
  unfold elapsed
  rw [hticks]

/-- A tick takes less than nine milliseconds. -/
theorem elapsed_succ_le {a e e' : Engine σ} (hticks : e'.ticks = e.ticks + 1) :
    elapsed a e' ≤ elapsed a e + 9 := by
  unfold elapsed MsClock.tickLength
  omega

variable [SoundChip σ]

theorem Clocked.act {a e : Engine σ} (h : Clocked a e) (x : Act) : Clocked a (e.act x) := by
  by_cases hx : x = .tick
  · subst hx
    obtain ⟨hclock, hticks, -⟩ := time_beforeTracks e
    exact h.next hclock hticks
  · have htimeless := timeless_act_of_ne_tick (e := e) hx
    exact h.same htimeless.clock htimeless.ticks

theorem Clocked.history {a e e' : Engine σ} {l : List (Engine σ × Act)} (h : Clocked a e)
    (hl : History e l e') : Clocked a e' := by
  induction hl with
  | rest hcalm => exact h.same hcalm.clock hcalm.ticks
  | step hcalm _ ih => exact ih ((h.same hcalm.clock hcalm.ticks).act _)

/-! ## Upkeeps until a time has passed -/

omit [SoundChip σ] in
/-- `good` holds at every upkeep up to the first that comes more than `r` milliseconds after
`a`. -/
def UpTo (a : Engine σ) (r : Nat) (good : Engine σ → Prop) (l : List (Engine σ × Act)) : Prop :=
  ∀ before u rest, l = before ++ (u, .upkeep) :: rest →
    (∀ p ∈ before, p.2 = .upkeep → elapsed a p.1 ≤ r) → good u

section UpTo

omit [SoundChip σ]

variable {a d : Engine σ} {r : Nat} {good : Engine σ → Prop} {l : List (Engine σ × Act)}

theorem upTo_nil : UpTo a r good [] := by
  intro before u rest hl
  cases before <;> cases hl

theorem upTo_cons_of_ne {x : Act} (hx : x ≠ .upkeep) :
    UpTo a r good ((d, x) :: l) ↔ UpTo a r good l := by
  constructor
  · intro h before u rest hl hbefore
    refine h ((d, x) :: before) u rest (by rw [hl]; rfl) fun p hp hupkeep => ?_
    rcases List.mem_cons.mp hp with rfl | hp
    · exact absurd hupkeep hx
    · exact hbefore p hp hupkeep
  · intro h before u rest hl hbefore
    cases before with
    | nil =>
      cases hl
      exact absurd rfl hx
    | cons p before =>
      obtain ⟨rfl, htail⟩ := List.cons.inj hl
      exact h before u rest htail fun p hp => hbefore p (List.mem_cons_of_mem _ hp)

theorem upTo_cons_tick : UpTo a r good ((d, .tick) :: l) ↔ UpTo a r good l :=
  upTo_cons_of_ne (x := .tick) nofun

theorem upTo_cons_upkeep :
    UpTo a r good ((d, .upkeep) :: l) ↔ good d ∧ (elapsed a d ≤ r → UpTo a r good l) := by
  constructor
  · intro h
    refine ⟨h [] d l (List.nil_append _).symm fun p hp => (List.not_mem_nil hp).elim,
      fun hd before u rest hl hbefore => ?_⟩
    refine h ((d, .upkeep) :: before) u rest (by rw [hl]; rfl) fun p hp hupkeep => ?_
    rcases List.mem_cons.mp hp with rfl | hp
    · exact hd
    · exact hbefore p hp hupkeep
  · rintro ⟨hd, hrest⟩ before u rest hl hbefore
    cases before with
    | nil =>
      cases hl
      exact hd
    | cons p before =>
      obtain ⟨rfl, htail⟩ := List.cons.inj hl
      exact hrest (hbefore (d, .upkeep) List.mem_cons_self rfl) before u rest htail
        fun p hp => hbefore p (List.mem_cons_of_mem _ hp)

end UpTo

/-- There is an upkeep in every tick, so the first that comes too late is not much too late. -/
theorem upTo_elapsed_le {a : Engine σ} {r : Nat} {e e' : Engine σ} {l : List (Engine σ × Act)}
    (hl : History e l e') : ∀ {due : Bool}, Orderly due l →
      elapsed a e ≤ r + (if due then 9 else 0) → UpTo a r (fun u => elapsed a u ≤ r + 9) l := by
  induction hl with
  | rest => exact fun _ _ => upTo_nil
  | @step e d e' x l hcalm _ ih =>
    intro due horderly hbound
    rw [← elapsed_congr a hcalm.ticks] at hbound
    have hlate : elapsed a d ≤ r + 9 := by
      cases due
      · exact Nat.le_add_right_of_le hbound
      · exact hbound
    have hinner : x ≠ .tick → x ≠ .upkeep → Orderly due l →
        UpTo a r (fun u => elapsed a u ≤ r + 9) ((d, x) :: l) := by
      intro htick hupkeep horderly
      rw [upTo_cons_of_ne hupkeep]
      exact ih horderly (by rwa [elapsed_congr a (timeless_act_of_ne_tick htick).ticks])
    cases x with
    | tick =>
      obtain ⟨rfl, horderly⟩ := horderly
      rw [upTo_cons_tick]
      refine ih horderly ?_
      exact (elapsed_succ_le (time_beforeTracks d).2.1).trans (Nat.add_le_add_right hbound 9)
    | upkeep =>
      rw [upTo_cons_upkeep]
      have hdone : Orderly false l := horderly
      refine ⟨hlate, fun hearly => ih hdone ?_⟩
      rwa [elapsed_congr a (timeless_act_of_ne_tick (x := .upkeep) nofun).ticks]
    | play | endNote | fade => exact hinner nofun nofun horderly

/-! ## Releases -/

omit [SoundChip σ] in
/-- Voice `v` fades until the clock is past a deadline. -/
structure FadesUntil (e : Engine σ) (v : Nat) (deadline : UInt32) : Prop where
  active : (e.voice v).active = true
  release : (e.voice v).release = true
  onOff : (e.voice v).onOff = deadline

omit [SoundChip σ] in
theorem FadesUntil.of_eq {e e' : Engine σ} {v : Nat} {deadline : UInt32}
    (h : e.FadesUntil v deadline) (hvoice : e'.voice v = e.voice v) : e'.FadesUntil v deadline :=
  ⟨by rw [hvoice, h.active], by rw [hvoice, h.release], by rw [hvoice, h.onOff]⟩

/-- A release that begins sets the deadline. -/
theorem fadesUntil_of_releases {e : Engine σ} {x : Act} {v : Nat} (h : x.Releases e v) :
    (e.act x).FadesUntil v ((e.act x).clock.ms + ((e.act x).voice v).releaseTime) := by
  have hactive : ∀ i, (e.voice v).ownedBy i = true → (e.voice v).active = true :=
    fun i h => (Bool.and_eq_true_iff.mp h).1
  cases x with
  | play | tick | upkeep => exact h.elim
  | endNote i note =>
    obtain ⟨howned, hheld, hnote⟩ := h
    have hvoice : (e.act (.endNote i note)).voice v = (e.voice v).released e.clock.ms := by
      refine (VoicePool.voice_update e.voices _ _ v
        (VoicePool.lt_limit_of_active (hactive i howned))).trans (if_pos ?_)
      have howned' : (e.voices.voice v).ownedBy i = true := howned
      have hheld' : (e.voices.voice v).release = false := hheld
      have hnote' : (e.voices.voice v).note = note := hnote
      simp [howned', hheld', hnote']
    exact ⟨by rw [hvoice]; exact hactive i howned, by rw [hvoice]; rfl, by rw [hvoice]; rfl⟩
  | fade i =>
    obtain ⟨hsounds, howned⟩ := h
    have hvoice : (e.act (.fade i)).voice v =
        { e.voice v with releaseTime := Voice.muteReleaseTime e.muteRate }.released
          e.clock.ms := by
      unfold act releaseVoices
      dsimp only
      rw [if_neg hsounds]
      exact (VoicePool.voice_update e.voices _ _ v
        (VoicePool.lt_limit_of_active (hactive i howned))).trans (if_pos howned)
    have hclock : (e.act (.fade i)).clock = e.clock :=
      (timeless_act_of_ne_tick (x := .fade i) nofun).clock
    exact ⟨by rw [hvoice]; exact hactive i howned, by rw [hvoice]; rfl,
      by rw [hvoice, hclock]; rfl⟩

/-- Unless the chip reports the voice silent, the upkeep frees it just if the clock shows more
than the deadline. -/
theorem FadesUntil.serviceVoices {e : Engine σ} {v : Nat} {deadline : UInt32}
    (h : e.FadesUntil v deadline) (hsilent : ¬ e.Silent v) :
    ((e.serviceVoices.voice v).active = true ↔ e.clock.ms.toNat ≤ deadline.toNat) ∧
      ((e.serviceVoices.voice v).active = true → e.serviceVoices.voice v = e.voice v) := by
  have hserviced := voice_serviceVoices e v
  have hexpired : (e.voice v).expired e.clock.ms = true ↔ ¬ e.clock.ms.toNat ≤ deadline.toNat := by
    simp [Voice.expired, h.active, h.release, h.onOff, UInt32.lt_iff_toNat_lt]
  by_cases hover : (e.voice v).expired e.clock.ms = true
  · rw [if_pos (.inl hover)] at hserviced
    have hidle : ¬ (e.serviceVoices.voice v).active = true := by simp [hserviced]
    exact ⟨iff_of_false hidle (hexpired.mp hover), fun hactive => absurd hactive hidle⟩
  · rw [if_neg fun hor => hor.elim hover fun hboth => hsilent hboth.2] at hserviced
    rw [hserviced]
    exact ⟨iff_of_true h.active (Classical.not_not.mp fun hlate => hover (hexpired.mpr hlate)),
      fun _ => rfl⟩

/-- Read off a clock that wraps, a time and a deadline are in their right order just if the clock
has wrapped as often at both. A time long past the deadline would look early again. -/
theorem wrapped_le_iff {c r t : Nat} (hr : r < 2 ^ 32) (ht : t ≤ r + 9) :
    ((c + t) % 2 ^ 32 ≤ (c + r) % 2 ^ 32 ↔ t ≤ r) ↔ (c + t) / 2 ^ 32 = (c + r) / 2 ^ 32 := by
  by_cases hearly : t ≤ r
  · simp only [hearly, iff_true]
    omega
  · simp only [hearly, iff_false]
    omega

/-- Nothing takes the voice, nothing releases it again, and the chip does not report it silent. -/
def Spared (l : List (Engine σ × Act)) (v : Nat) : Prop :=
  ∀ p ∈ l, ¬ p.2.Takes p.1 v ∧ ¬ p.2.Releases p.1 v ∧ (p.2 = .upkeep → ¬ p.1.Silent v)

/-- A voice that fades is freed in time at every upkeep just if the clock has wrapped as often at
each as at the deadline. -/
theorem upTo_kept_iff {a : Engine σ} {v r : Nat} {deadline : UInt32} (hr : r < 2 ^ 32)
    (hdeadline : deadline.toNat = (a.clock.ms.toNat + r) % 2 ^ 32) {e e' : Engine σ}
    {l : List (Engine σ × Act)} (hl : History e l e') : Clocked a e → e.FadesUntil v deadline →
      Spared l v → UpTo a r (fun u => elapsed a u ≤ r + 9) l →
        (UpTo a r (fun u => (u.serviceVoices.voice v).active = true ↔ elapsed a u ≤ r) l ↔
          UpTo a r (fun u => (a.clock.ms.toNat + elapsed a u) / 2 ^ 32 =
            (a.clock.ms.toNat + r) / 2 ^ 32) l) := by
  induction hl with
  | rest => exact fun _ _ _ _ => iff_of_true upTo_nil upTo_nil
  | @step e d e' x l hcalm _ ih =>
    intro htime hfades hspared hbound
    have htime' := htime.same hcalm.clock hcalm.ticks
    have hfades' := hfades.of_eq (hcalm.voice v)
    obtain ⟨htakes, hreleases, hsilent⟩ := hspared _ List.mem_cons_self
    have hrest : Spared l v := fun p hp => hspared p (List.mem_cons_of_mem _ hp)
    by_cases hx : x = .upkeep
    · subst hx
      rw [upTo_cons_upkeep] at hbound ⊢
      rw [upTo_cons_upkeep]
      -- what the upkeep compares, and what is to be compared
      obtain ⟨hkept, hsame⟩ := hfades'.serviceVoices (hsilent rfl)
      rw [htime'.ms, hdeadline] at hkept
      have hera := wrapped_le_iff (c := a.clock.ms.toNat) hr hbound.1
      rw [← hkept] at hera
      -- a voice that is rightly kept fades on until the same deadline
      have hlater := fun (hactive : (d.serviceVoices.voice v).active = true)
          (hearly : elapsed a d ≤ r) => ih (htime'.act .upkeep)
        (hfades'.of_eq (hsame hactive)) hrest (hbound.2 hearly)
      constructor
      · rintro ⟨hright, hrights⟩
        refine ⟨hera.mp hright, fun hearly => ?_⟩
        exact (hlater (hright.mpr hearly) hearly).mp (hrights hearly)
      · rintro ⟨hwraps, hwrapped⟩
        have hright := hera.mpr hwraps
        refine ⟨hright, fun hearly => ?_⟩
        exact (hlater (hright.mpr hearly) hearly).mpr (hwrapped hearly)
    · rw [upTo_cons_of_ne hx] at hbound ⊢
      rw [upTo_cons_of_ne hx]
      exact ih (htime'.act x) (hfades'.of_eq (voice_act_of_spared hx htakes hreleases)) hrest
        hbound

/-- Voice `v`, whose release begins at `a`, stays in use at every upkeep up to its release time,
and the first that comes later frees it. -/
def EndsOnTime (a : Engine σ) (v : Nat) (l : List (Engine σ × Act)) : Prop :=
  UpTo a (a.voice v).releaseTime.toNat (fun u => (u.serviceVoices.voice v).active = true ↔
    elapsed a u ≤ (a.voice v).releaseTime.toNat) l

omit [SoundChip σ] in
/-- At each of these upkeeps the clock has wrapped as often as it is to at the deadline. -/
def WrapsAlike (a : Engine σ) (v : Nat) (l : List (Engine σ × Act)) : Prop :=
  UpTo a (a.voice v).releaseTime.toNat (fun u =>
    (a.clock.ms.toNat + elapsed a u) / 2 ^ 32 =
      (a.clock.ms.toNat + (a.voice v).releaseTime.toNat) / 2 ^ 32) l

section Begins

variable {e e' d : Engine σ} {x : Act} {before after rest : List (Engine σ × Act)}

/-- What follows the beginning of a release in an orderly history: the voice fades, and no upkeep
is left out. -/
theorem history_of_releases {v : Nat} (hfrac : e.clock.frac < 65536)
    (hl : History e (before ++ (d, x) :: (after ++ rest)) e')
    (horderly : Orderly false (before ++ (d, x) :: (after ++ rest))) (hreleases : x.Releases d v) :
    (∃ c, History (d.act x) after c) ∧ (d.act x).clock.frac < 65536 ∧
      (d.act x).FadesUntil v ((d.act x).clock.ms + ((d.act x).voice v).releaseTime) ∧
      UpTo (d.act x) ((d.act x).voice v).releaseTime.toNat
        (fun u => elapsed (d.act x) u ≤ ((d.act x).voice v).releaseTime.toNat + 9) after := by
  obtain ⟨c, hbefore, hl⟩ := hl.split
  cases hl with
  | step hcalm hl =>
    obtain ⟨c', hafter, -⟩ := hl.split
    obtain ⟨-, due, horderly⟩ := horderly.split
    obtain ⟨-, due', horderly⟩ := Orderly.split (l := [(d, x)]) horderly
    have htime := (Clocked.refl hfrac).history hbefore
    have hfrac' := ((htime.same hcalm.clock hcalm.ticks).act x).frac_lt
    refine ⟨⟨c', hafter⟩, hfrac', fadesUntil_of_releases hreleases,
      upTo_elapsed_le hafter horderly.split.1 ?_⟩
    rw [elapsed_self hfrac']
    exact Nat.zero_le _

/-- The voice keeps its time just if the clock and the deadline wrap alike. -/
theorem endsOnTime_iff {v : Nat} (hfrac : e.clock.frac < 65536)
    (hl : History e (before ++ (d, x) :: (after ++ rest)) e')
    (horderly : Orderly false (before ++ (d, x) :: (after ++ rest))) (hreleases : x.Releases d v)
    (hspared : Spared after v) :
    EndsOnTime (d.act x) v after ↔ WrapsAlike (d.act x) v after := by
  obtain ⟨⟨c, hafter⟩, hfrac', hfades, hbound⟩ := history_of_releases hfrac hl horderly hreleases
  exact upTo_kept_iff (UInt32.toNat_lt _) (UInt32.toNat_add _ _) hafter (.refl hfrac') hfades
    hspared hbound

/-- They do if the clock stays clear of its end while the voice fades. -/
theorem wrapsAlike_of_lt {v : Nat} (hfrac : e.clock.frac < 65536)
    (hl : History e (before ++ (d, x) :: (after ++ rest)) e')
    (horderly : Orderly false (before ++ (d, x) :: (after ++ rest))) (hreleases : x.Releases d v)
    (hclear : (d.act x).clock.ms.toNat + ((d.act x).voice v).releaseTime.toNat + 9 < 2 ^ 32) :
    WrapsAlike (d.act x) v after := by
  obtain ⟨-, -, -, hbound⟩ := history_of_releases hfrac hl horderly hreleases
  intro before u rest hafter hbefore
  have hlate := hbound before u rest hafter hbefore
  dsimp only at hlate ⊢
  rw [Nat.div_eq_of_lt (by omega), Nat.div_eq_of_lt (by omega)]

end Begins

end Engine

namespace Session

open Engine

/-- A run has an orderly history, and whenever a release begins in such a history, the voice fades,
and while it is spared it keeps the time of its release just if at every upkeep the clock has
wrapped as often as it is to at the deadline. -/
theorem release_times {σ : Type} [SoundChip σ] (s : Session σ)
    (hfrac : s.engine.clock.frac < 65536) (calls : List (Call σ)) :
    (∃ l, History s.engine l (s.run calls).engine ∧ Orderly false l) ∧
      ∀ before d x after rest v,
        History s.engine (before ++ (d, x) :: (after ++ rest)) (s.run calls).engine →
        Orderly false (before ++ (d, x) :: (after ++ rest)) → x.Releases d v → Spared after v →
          (((d.act x).voice v).active = true ∧ ((d.act x).voice v).release = true) ∧
            (EndsOnTime (d.act x) v after ↔ WrapsAlike (d.act x) v after) := by
  refine ⟨exists_history calls s, fun before d x after rest v hl horderly hreleases hspared => ?_⟩
  have hfades := fadesUntil_of_releases hreleases
  exact ⟨⟨hfades.active, hfades.release⟩, endsOnTime_iff hfrac hl horderly hreleases hspared⟩

end Session

/-! ## A sequence that is stopped -/

namespace Engine

variable {e : Engine RecorderChip} {v : Nat}

/-- The acts of ticks in which the tracks do nothing. -/
def quietTicks : (n : Nat) → Engine RecorderChip → List (Engine RecorderChip × Act)
  | 0, _ => []
  | n + 1, e => (e, .tick) :: (e.beforeUpkeep, .upkeep) :: quietTicks n e.tick

/-- For `n` ticks the tracks do nothing to the voices, and the chip does not report voice `v`
silent. -/
def Quiet (v : Nat) : (n : Nat) → Engine RecorderChip → Prop
  | 0, _ => True
  | n + 1, e => Calm e.beforeTracks e.beforeUpkeep ∧ ¬ e.beforeUpkeep.Silent v ∧ Quiet v n e.tick

instance decidableQuiet (v : Nat) : ∀ (n : Nat) (e : Engine RecorderChip), Decidable (e.Quiet v n)
  | 0, _ => .isTrue trivial
  | n + 1, e =>
    have : Decidable (e.tick.Quiet v n) := decidableQuiet v n e.tick
    inferInstanceAs (Decidable (Calm _ _ ∧ ¬ e.beforeUpkeep.Silent v ∧ e.tick.Quiet v n))

theorem history_quietTicks : ∀ {n : Nat} {e : Engine RecorderChip}, e.Quiet v n →
    History e (e.quietTicks n) (e.ticksFor n)
  | 0, e, _ => .rest (.refl e)
  | n + 1, e, ⟨hcalm, _, hquiet⟩ => by
    have hrest := history_quietTicks hquiet
    rw [ticksFor_eq, ← Function.iterate_succ_apply, ← ticksFor_eq, tick_eq] at hrest
    unfold quietTicks
    rw [tick_eq]
    exact .step (.refl e) (.step hcalm hrest)

theorem orderly_quietTicks : ∀ (n : Nat) (e : Engine RecorderChip),
    Orderly false (e.quietTicks n)
  | 0, _ => trivial
  | n + 1, e => by
    have hrest := orderly_quietTicks n e.tick
    unfold quietTicks Orderly Orderly
    exact ⟨rfl, hrest⟩

theorem spared_quietTicks : ∀ {n : Nat} {e : Engine RecorderChip}, e.Quiet v n →
    Spared (e.quietTicks n) v
  | 0, _, _ => fun _ hp => (List.not_mem_nil hp).elim
  | n + 1, e, ⟨_, hsilent, hquiet⟩ => fun p hp => by
    have htick : ∀ x : Act, x = .tick ∨ x = .upkeep → ∀ d : Engine RecorderChip,
        ¬ x.Takes d v ∧ ¬ x.Releases d v := by
      rintro x (rfl | rfl) d <;> exact ⟨id, id⟩
    unfold quietTicks at hp
    rcases List.mem_cons.mp hp with rfl | hp
    · exact ⟨(htick _ (.inl rfl) _).1, (htick _ (.inl rfl) _).2, nofun⟩
    · rcases List.mem_cons.mp hp with rfl | hp
      · exact ⟨(htick _ (.inr rfl) _).1, (htick _ (.inr rfl) _).2, fun _ => hsilent⟩
      · exact spared_quietTicks hquiet p hp

end Engine

namespace Session

open Engine

variable {s : Session RecorderChip}

/-- Stopping a sequence releases the notes of track 0, and then some ticks go by. -/
theorem history_of_stop {v n : Nat}
    (hcalm : Calm (s.engine.act (.fade 0)) (s.perform (.stop 0)).engine)
    (hquiet : (s.perform (.stop 0)).engine.Quiet v n) :
    History s.engine ((s.engine, .fade 0) :: (s.perform (.stop 0)).engine.quietTicks n)
      (s.run (.stop 0 :: List.replicate n .tick)).engine := by
  rw [run_cons, run_replicate_tick]
  exact .step (.refl _) ((history_quietTicks hquiet).after hcalm)

/-- What can be computed of a stop: that it releases voice 0, and that nothing else becomes of
the voice in the next `n` ticks. -/
def StopsInPeace (s : Session RecorderChip) (n : Nat) : Prop :=
  ((s.engine.track 0).voicesActive ≠ 0 ∧ (s.engine.voice 0).ownedBy 0 = true) ∧
    Calm (s.engine.act (.fade 0)) (s.perform (.stop 0)).engine ∧
    (s.perform (.stop 0)).engine.Quiet 0 n

instance decidableStopsInPeace (n : Nat) : Decidable (s.StopsInPeace n) :=
  inferInstanceAs (Decidable (_ ∧ _ ∧ _))

end Session

/-- A note that is held for long. -/
def longNote : SoundModule := solo [(0, .noteOn 60 100), (1000, .trackEnd)]

open Engine

/-- The session in which a long note sounds after `n` idle ticks, to be muted within `ms`
milliseconds. -/
def Engine.soundsAfter (e : Engine RecorderChip) (n : Nat) (ms : UInt32) : Session RecorderChip :=
  ({ engine := e.idleFor n } : Session RecorderChip).run [.setMuteRelease ms, .start 0 {}, .tick]

/-- A release of eight milliseconds outlasts one tick and not two. -/
theorem release_times_longNote : ∃ (e : Engine RecorderChip) (s : Session RecorderChip),
    Engine.make longNote { instantRelease := false } = .ok e ∧ s = e.soundsAfter 0 10 ∧
      ((s.engine.act (.fade 0)).voice 0).releaseTime = 8 ∧
      History s.engine ((s.engine, .fade 0) :: (s.perform (.stop 0)).engine.quietTicks 2)
        (s.run (.stop 0 :: List.replicate 2 .tick)).engine ∧
      EndsOnTime (s.engine.act (.fade 0)) 0 ((s.perform (.stop 0)).engine.quietTicks 2) := by
  obtain ⟨e, hmake, hfacts⟩ : ∃ e : Engine RecorderChip,
      Engine.make longNote { instantRelease := false } = .ok e ∧
        (e.soundsAfter 0 10).engine.clock.frac < 65536 ∧ (e.soundsAfter 0 10).StopsInPeace 2 ∧
        (((e.soundsAfter 0 10).engine.act (.fade 0)).voice 0).releaseTime = 8 ∧
        ((e.soundsAfter 0 10).engine.act (.fade 0)).clock.ms.toNat +
          (((e.soundsAfter 0 10).engine.act (.fade 0)).voice 0).releaseTime.toNat + 9 < 2 ^ 32 :=
    exists_make (by decide +kernel)
  refine ⟨e, e.soundsAfter 0 10, hmake, rfl, ?_⟩
  generalize e.soundsAfter 0 10 = s at hfacts ⊢
  obtain ⟨hfrac, ⟨hreleases, hcalm, hquiet⟩, htime, hclear⟩ := hfacts
  have hl := Session.history_of_stop hcalm hquiet
  have hspared := spared_quietTicks hquiet
  have horderly := orderly_quietTicks 2 (s.perform (.stop 0)).engine
  refine ⟨htime, hl, ?_⟩
  generalize (s.perform (.stop 0)).engine.quietTicks 2 = l at hl hspared horderly ⊢
  have hhistory : History s.engine ([] ++ (s.engine, .fade 0) :: (l ++ []))
      (s.run (.stop 0 :: List.replicate 2 .tick)).engine := by rwa [List.append_nil]
  have horderly' : Orderly false ([] ++ (s.engine, .fade 0) :: (l ++ [])) := by
    rwa [List.append_nil]
  obtain ⟨-, hends⟩ := Session.release_times s hfrac (.stop 0 :: List.replicate 2 .tick)
  obtain ⟨-, honTime⟩ :=
    hends [] s.engine (.fade 0) l [] 0 hhistory horderly' hreleases hspared
  exact honTime.mpr (wrapsAlike_of_lt hfrac hhistory horderly' hreleases hclear)

/-- A release of 2^28 milliseconds that begins so long before the clock wraps is over in the next
tick. -/
theorem not_endsOnTime_longNote : ∃ (e : Engine RecorderChip) (s : Session RecorderChip),
    Engine.make longNote { instantRelease := false } = .ok e ∧
      (({ engine := e } : Session RecorderChip).run (List.replicate 483184116 .tick)).engine =
        e.idleFor 483184116 ∧ s = e.soundsAfter 483184116 0x10000000 ∧
      History s.engine ((s.engine, .fade 0) :: (s.perform (.stop 0)).engine.quietTicks 1)
        (s.run (.stop 0 :: List.replicate 1 .tick)).engine ∧
      Orderly false ((s.engine, .fade 0) :: (s.perform (.stop 0)).engine.quietTicks 1) ∧
      Act.Releases (.fade 0) s.engine 0 ∧
      Spared ((s.perform (.stop 0)).engine.quietTicks 1) 0 ∧
      ¬ EndsOnTime (s.engine.act (.fade 0)) 0 ((s.perform (.stop 0)).engine.quietTicks 1) := by
  obtain ⟨e, hmake, hidle, hfacts⟩ : ∃ e : Engine RecorderChip,
      Engine.make longNote { instantRelease := false } = .ok e ∧ e.isIdle = true ∧
        (e.soundsAfter 483184116 0x10000000).StopsInPeace 1 ∧
        (((e.soundsAfter 483184116 0x10000000).perform (.stop 0)).engine.tick.voice 0).active =
          false ∧
        elapsed ((e.soundsAfter 483184116 0x10000000).engine.act (.fade 0))
            ((e.soundsAfter 483184116 0x10000000).perform (.stop 0)).engine.beforeUpkeep ≤
          (((e.soundsAfter 483184116 0x10000000).engine.act (.fade 0)).voice
            0).releaseTime.toNat :=
    exists_make (by decide +kernel)
  refine ⟨e, e.soundsAfter 483184116 0x10000000, hmake, ?_, rfl, ?_⟩
  · rw [Session.run_replicate_tick, ticksFor_of_isIdle hidle (by decide), Session.withEngine]
  · generalize e.soundsAfter 483184116 0x10000000 = s at hfacts ⊢
    obtain ⟨⟨hreleases, hcalm, hquiet⟩, hfreed, hearly⟩ := hfacts
    refine ⟨Session.history_of_stop hcalm hquiet, orderly_quietTicks _ _, hreleases,
      spared_quietTicks hquiet, fun honTime => ?_⟩
    unfold quietTicks EndsOnTime at honTime
    rw [upTo_cons_tick, upTo_cons_upkeep, ← tick_eq, hfreed] at honTime
    exact Bool.false_ne_true (honTime.1.mpr hearly)

end SoundSequencer
