/-
SoundSequencer.Proofs.VoiceChoice — which voice a note gets.

* `Voice.Before` is the order in which voices are to be given up: a lower priority
  first, then one that fades, then the earlier time. The comparison of the scan is
  not that order: it lets a voice that is the sooner in fading and time win over one of
  lower priority (`cheaperThan_iff`). Such a win is a raise (`VoicePool.Raises`).
* `candidate?_spec` says what a scan has found after any number of voices: the first
  choice among those from its last raise on.
* `choose_spec` says what becomes of a note in any pool, and `steal_undominated_iff`
  when the voice that is given up is dominated by none that could have been.
-/
import SoundSequencer.Chip.Recorder
import SoundSequencer.Proofs.Ownership

namespace SoundSequencer

/-! ## What makes a voice the better victim -/

namespace Voice

/-- Of two voices of one priority `v` is to be given up first: it fades and `w` plays,
or they are alike in this and the time of `v` is the earlier. -/
def Sooner (v w : Voice) : Prop :=
  v.release = true ∧ w.release = false ∨ v.release = w.release ∧ v.onOff < w.onOff

/-- Of two voices `v` is to be given up first: its priority is lower, or it is the same
and `v` is the sooner. -/
def Before (v w : Voice) : Prop :=
  v.priority < w.priority ∨ v.priority = w.priority ∧ v.Sooner w

/-- To give up `v` is no worse than to give up `w` in priority, fading and time, and better
in one of them. -/
def Dominates (v w : Voice) : Prop :=
  (v.priority ≤ w.priority ∧ (v.release = true ∨ w.release = false) ∧ v.onOff ≤ w.onOff) ∧
    (v.priority < w.priority ∨ v.release = true ∧ w.release = false ∨ v.onOff < w.onOff)

instance (v w : Voice) : Decidable (v.Sooner w) := inferInstanceAs (Decidable (_ ∨ _))

instance (v w : Voice) : Decidable (v.Dominates w) := inferInstanceAs (Decidable (_ ∧ _))

/-- The scan takes a lower priority, and what is the sooner whatever its priority. -/
theorem cheaperThan_iff {v w : Voice} :
    v.cheaperThan w = true ↔ v.priority < w.priority ∨ v.Sooner w := by
  simp only [cheaperThan, Sooner, Bool.or_eq_true, decide_eq_true_iff]
  refine or_congr_right ?_
  cases v.release <;> cases w.release <;> simp

theorem not_before_self (v : Voice) : ¬ v.Before v := by
  simp [Before, Sooner]

theorem Before.trans {u v w : Voice} (huv : u.Before v) (hvw : v.Before w) : u.Before w := by
  unfold Before Sooner at *
  grind

/-- Voices that the order does not tell apart stand in the same place of it. -/
theorem Before.trans_not {u v w : Voice} (huv : u.Before v) (hwv : ¬ w.Before v) :
    u.Before w := by
  unfold Before Sooner at *
  grind

/-- What dominates a voice comes before it. -/
theorem Dominates.before {v w : Voice} (h : v.Dominates w) : v.Before w := by
  unfold Dominates at h
  unfold Before Sooner
  grind

end Voice

namespace VoicePool

/-! ## The scan -/

/-- Voice `v` may be given up for a note of the given priority. -/
def Eligible (p : VoicePool) (priority : UInt8) (v : Nat) : Prop :=
  v < p.limit ∧ (p.voice v).priority ≤ priority

instance (p : VoicePool) (priority : UInt8) (v : Nat) : Decidable (p.Eligible priority v) :=
  inferInstanceAs (Decidable (_ ∧ _))

/-- What the scan has found when it has passed the voices before `n`. -/
def candidate? (p : VoicePool) (priority : UInt8) (n : Nat) : Option Nat :=
  (List.range n).foldl (fun best v =>
    if priority < (p.voice v).priority then best
    else
      match best with
      | none => some v
      | some b => if (p.voice v).cheaperThan (p.voice b) then some v else best) none

theorem victim?_eq (p : VoicePool) (priority : UInt8) :
    p.victim? priority = p.candidate? priority p.limit := rfl

theorem candidate?_succ (p : VoicePool) (priority : UInt8) (n : Nat) :
    p.candidate? priority (n + 1) =
      if priority < (p.voice n).priority then p.candidate? priority n
      else
        match p.candidate? priority n with
        | none => some n
        | some b =>
          if (p.voice n).cheaperThan (p.voice b) then some n else p.candidate? priority n := by
  simp only [candidate?, List.range_succ, List.foldl_append, List.foldl_cons, List.foldl_nil]

/-- At voice `v` the scan gives up a candidate of lower priority: `v` is not before it, only
sooner. -/
def Raises (p : VoicePool) (priority : UInt8) (v : Nat) : Prop :=
  p.Eligible priority v ∧ ∃ b ∈ p.candidate? priority v,
    (p.voice b).priority < (p.voice v).priority ∧ (p.voice v).Sooner (p.voice b)

instance (p : VoicePool) (priority : UInt8) (v : Nat) : Decidable (p.Raises priority v) :=
  inferInstanceAs (Decidable (_ ∧ ∃ b ∈ p.candidate? priority v, _))

/-- Of the voices from `s` up to `n` that may be given up, voice `i` is the first in the
order, and among its equals the first in the pool. -/
structure FirstChoice (p : VoicePool) (priority : UInt8) (s n i : Nat) : Prop where
  ge : s ≤ i
  lt : i < n
  le : (p.voice i).priority ≤ priority
  least : ∀ j, s ≤ j → j < n → (p.voice j).priority ≤ priority →
    ¬ (p.voice j).Before (p.voice i)
  first : ∀ j, s ≤ j → j < i → (p.voice j).priority ≤ priority →
    (p.voice i).Before (p.voice j)

namespace FirstChoice

variable {p : VoicePool} {priority : UInt8} {s n i : Nat}

/-- A voice that may be given up is the first choice from itself on. -/
theorem self (h : (p.voice n).priority ≤ priority) : p.FirstChoice priority n (n + 1) n where
  ge := Nat.le_refl n
  lt := Nat.lt_succ_self n
  le := h
  least j hj hjn _ := by
    rw [Nat.le_antisymm (Nat.le_of_lt_succ hjn) hj]
    exact Voice.not_before_self _
  first j hj hjn _ := absurd hjn (Nat.not_lt.mpr hj)

/-- A voice behind that does not come before the choice leaves it. -/
theorem keep (h : p.FirstChoice priority s n i)
    (hn : (p.voice n).priority ≤ priority → ¬ (p.voice n).Before (p.voice i)) :
    p.FirstChoice priority s (n + 1) i where
  ge := h.ge
  lt := Nat.lt_succ_of_lt h.lt
  le := h.le
  least j hj hjn hle := by
    rcases Nat.lt_succ_iff_lt_or_eq.mp hjn with hlt | rfl
    · exact h.least j hj hlt hle
    · exact hn hle
  first := h.first

/-- A voice behind that comes before the choice takes its place. -/
theorem take (h : p.FirstChoice priority s n i) (hle : (p.voice n).priority ≤ priority)
    (hn : (p.voice n).Before (p.voice i)) : p.FirstChoice priority s (n + 1) n where
  ge := Nat.le_of_lt (Nat.lt_of_le_of_lt h.ge h.lt)
  lt := Nat.lt_succ_self n
  le := hle
  least j hj hjn hjle hbefore := by
    rcases Nat.lt_succ_iff_lt_or_eq.mp hjn with hlt | rfl
    · exact Voice.not_before_self _ ((hbefore.trans hn).trans_not (h.least j hj hlt hjle))
    · exact Voice.not_before_self _ hbefore
  first j hj hjn hjle := hn.trans_not (h.least j hj hjn hjle)

end FirstChoice

/-- As long as the scan has no candidate, no voice that it has passed may be given up. -/
theorem candidate?_eq_none_iff {p : VoicePool} {priority : UInt8} {n : Nat} :
    p.candidate? priority n = none ↔ ∀ v < n, priority < (p.voice v).priority := by
  induction n with
  | zero => exact iff_of_true rfl fun v hv => absurd hv (Nat.not_lt_zero v)
  | succ n ih =>
    rw [candidate?_succ]
    split
    · next hdear =>
      rw [ih]
      refine ⟨fun h v hv => ?_, fun h v hv => h v (Nat.lt_succ_of_lt hv)⟩
      rcases Nat.lt_succ_iff_lt_or_eq.mp hv with hlt | rfl
      · exact h v hlt
      · exact hdear
    · next hcheap =>
      refine iff_of_false ?_ fun h => hcheap (h n (Nat.lt_succ_self n))
      split
      · nofun
      · next b hb => split <;> simp [hb]

theorem raises_iff {p : VoicePool} {priority : UInt8} {v b : Nat}
    (h : p.candidate? priority v = some b) :
    p.Raises priority v ↔ p.Eligible priority v ∧
      (p.voice b).priority < (p.voice v).priority ∧ (p.voice v).Sooner (p.voice b) := by
  simp [Raises, h]

/-- The scan has passed the voices before `n`; voice `s` was its last raise, or it has
started there, and of the voices from there on `i` is the first choice. -/
structure Scanned (p : VoicePool) (priority : UInt8) (s n i : Nat) : Prop extends
    p.FirstChoice priority s n i where
  start : s = 0 ∨ p.Raises priority s
  last : ∀ v, s < v → v < n → ¬ p.Raises priority v

namespace Scanned

variable {p : VoicePool} {priority : UInt8} {s n i : Nat}

theorem last_succ (h : p.Scanned priority s n i) (hn : ¬ p.Raises priority n) :
    ∀ v, s < v → v < n + 1 → ¬ p.Raises priority v := by
  intro v hsv hvn
  rcases Nat.lt_succ_iff_lt_or_eq.mp hvn with hlt | rfl
  · exact h.last v hsv hlt
  · exact hn

theorem keep (h : p.Scanned priority s n i) (hn : ¬ p.Raises priority n)
    (hbefore : (p.voice n).priority ≤ priority → ¬ (p.voice n).Before (p.voice i)) :
    p.Scanned priority s (n + 1) i :=
  ⟨h.toFirstChoice.keep hbefore, h.start, h.last_succ hn⟩

theorem take (h : p.Scanned priority s n i) (hn : ¬ p.Raises priority n)
    (hle : (p.voice n).priority ≤ priority) (hbefore : (p.voice n).Before (p.voice i)) :
    p.Scanned priority s (n + 1) n :=
  ⟨h.toFirstChoice.take hle hbefore, h.start, h.last_succ hn⟩

/-- At a raise the scan is where it would be if it started there. -/
theorem raise (hn : p.Raises priority n) : p.Scanned priority n (n + 1) n :=
  ⟨.self hn.1.2, .inr hn, fun _ hnv hvn => absurd hvn (Nat.not_lt.mpr hnv)⟩

/-- The first voice that may be given up is the first choice so far. -/
theorem found (hfound : p.candidate? priority n = none)
    (hle : (p.voice n).priority ≤ priority) : p.Scanned priority 0 (n + 1) n := by
  have hdear := candidate?_eq_none_iff.mp hfound
  have hnone : ∀ v, v ≤ n → p.candidate? priority v = none :=
    fun v hv => candidate?_eq_none_iff.mpr fun w hw => hdear w (Nat.lt_of_lt_of_le hw hv)
  refine ⟨⟨Nat.zero_le n, Nat.lt_succ_self n, hle, fun j _ hj hjle => ?_,
    fun j _ hj hjle => absurd hjle (UInt8.not_le.mpr (hdear j hj))⟩, .inl rfl, fun v _ hv => ?_⟩
  · rcases Nat.lt_succ_iff_lt_or_eq.mp hj with hlt | rfl
    · exact absurd hjle (UInt8.not_le.mpr (hdear j hlt))
    · exact Voice.not_before_self _
  · rintro ⟨-, b, hb, -⟩
    rw [hnone v (Nat.le_of_lt_succ hv)] at hb
    cases hb

end Scanned

/-- What the scan has found is the first choice from its last raise on, or from the start
if there was none. -/
theorem candidate?_spec {p : VoicePool} {priority : UInt8} {n i : Nat} (hn : n ≤ p.limit)
    (h : p.candidate? priority n = some i) : ∃ s, p.Scanned priority s n i := by
  induction n generalizing i with
  | zero => cases h
  | succ n ih =>
    rw [candidate?_succ] at h
    split at h
    · next hdear =>
      have hnot : ¬ (p.voice n).priority ≤ priority := UInt8.not_le.mpr hdear
      obtain ⟨s, hs⟩ := ih (Nat.le_of_succ_le hn) h
      exact ⟨s, hs.keep (fun hraises => hnot hraises.1.2) fun hle => absurd hle hnot⟩
    · next hcheap =>
      have hle := UInt8.not_lt.mp hcheap
      cases hfound : p.candidate? priority n with
      | none =>
        simp only [hfound, Option.some.injEq] at h
        subst h
        exact ⟨0, .found hfound hle⟩
      | some b =>
        obtain ⟨s, hs⟩ := ih (Nat.le_of_succ_le hn) hfound
        have hraises := raises_iff hfound
        simp only [hfound, Voice.cheaperThan_iff] at h
        split at h
        · next hwins =>
          cases h
          by_cases hhigher : (p.voice b).priority < (p.voice n).priority
          · -- the voice wins by its time alone, and all that was passed before is lost
            have hsooner := hwins.resolve_left (UInt8.lt_asymm hhigher)
            exact ⟨n, .raise (hraises.mpr ⟨⟨hn, hle⟩, hhigher, hsooner⟩)⟩
          · refine ⟨s, hs.take (fun hr => hhigher (hraises.mp hr).2.1) hle ?_⟩
            rcases UInt8.lt_or_eq_of_le (UInt8.not_lt.mp hhigher) with hlower | hsame
            · exact .inl hlower
            · exact .inr ⟨hsame, hwins.resolve_left (hsame ▸ UInt8.lt_irrefl _)⟩
        · next hloses =>
          cases h
          refine ⟨s, hs.keep (fun hr => hloses (.inr (hraises.mp hr).2.2)) fun _ hbefore => ?_⟩
          exact hloses (hbefore.imp id And.right)

/-! ## What becomes of a note -/

/-- Every voice is in use. -/
def Full (p : VoicePool) : Prop := ∀ v < p.limit, (p.voice v).active = true

instance (p : VoicePool) : Decidable p.Full :=
  inferInstanceAs (Decidable (∀ v < p.limit, _))

theorem firstIdle?_eq_some_iff {p : VoicePool} {i : Nat} :
    p.firstIdle? = some i ↔
      i < p.limit ∧ (p.voice i).active = false ∧ ∀ j < i, (p.voice j).active = true := by
  have hvoice : ∀ v (hv : v < p.voices.size), p.voices[v] = p.voice v := by
    intro v hv
    simp [voice, Array.getD_eq_getD_getElem?, hv]
  rw [firstIdle?, Array.findIdx?_eq_some_iff_getElem]
  constructor
  · rintro ⟨hi, hidle, hfirst⟩
    refine ⟨hi, by simpa [hvoice i hi] using hidle, fun j hj => ?_⟩
    simpa [hvoice j (Nat.lt_trans hj hi)] using hfirst j hj
  · rintro ⟨hi, hidle, hfirst⟩
    have hi' : i < p.voices.size := hi
    refine ⟨hi', by simp [hvoice i hi', hidle], fun j hj => ?_⟩
    simp [hvoice j (Nat.lt_trans hj hi'), hfirst j hj]

theorem firstIdle?_eq_none_iff {p : VoicePool} : p.firstIdle? = none ↔ p.Full := by
  rw [firstIdle?, Array.findIdx?_eq_none_iff]
  constructor
  · intro h v hv
    have hmem : p.voice v ∈ p.voices := by
      rw [voice, Array.getD_eq_getD_getElem?, Array.getElem?_eq_getElem hv]
      exact Array.getElem_mem hv
    simpa using h _ hmem
  · intro h voice hmem
    obtain ⟨v, hv, rfl⟩ := Array.mem_iff_getElem.mp hmem
    have hbusy := h v hv
    simp only [VoicePool.voice, Array.getD_eq_getD_getElem?, Array.getElem?_eq_getElem hv,
      Option.getD_some] at hbusy
    simp [hbusy]

theorem choose_eq_free_iff {p : VoicePool} {priority : UInt8} {i : Nat} :
    p.choose priority = some (.free i) ↔
      i < p.limit ∧ (p.voice i).active = false ∧ ∀ j < i, (p.voice j).active = true := by
  rw [← firstIdle?_eq_some_iff, choose]
  cases p.firstIdle? with
  | none => simp
  | some v => simp

theorem choose_of_full {p : VoicePool} (h : p.Full) (priority : UInt8) :
    p.choose priority = (p.victim? priority).map .steal := by
  rw [choose, firstIdle?_eq_none_iff.mpr h]

theorem choose_eq_steal_iff {p : VoicePool} {priority : UInt8} {i : Nat} :
    p.choose priority = some (.steal i) ↔ p.Full ∧ p.victim? priority = some i := by
  rw [← firstIdle?_eq_none_iff, choose]
  cases p.firstIdle? with
  | none => simp
  | some v => simp

theorem choose_eq_none_iff {p : VoicePool} {priority : UInt8} :
    p.choose priority = none ↔
      ∀ v < p.limit, (p.voice v).active = true ∧ priority < (p.voice v).priority := by
  have hsplit : p.choose priority = none ↔ p.Full ∧ p.victim? priority = none := by
    rw [← firstIdle?_eq_none_iff, choose]
    cases p.firstIdle? with
    | none => simp
    | some v => simp
  rw [hsplit, victim?_eq, candidate?_eq_none_iff, Full]
  exact forall₂_and.symm

theorem exists_choose_free_iff {p : VoicePool} {priority : UInt8} :
    (∃ i, p.choose priority = some (.free i)) ↔ ∃ i < p.limit, (p.voice i).active = false := by
  constructor
  · rintro ⟨i, h⟩
    obtain ⟨hi, hidle, -⟩ := choose_eq_free_iff.mp h
    exact ⟨i, hi, hidle⟩
  · rintro ⟨i, hi, hidle⟩
    cases hfirst : p.firstIdle? with
    | none => exact absurd (firstIdle?_eq_none_iff.mp hfirst i hi) (by simp [hidle])
    | some v => exact ⟨v, choose_eq_free_iff.mpr (firstIdle?_eq_some_iff.mp hfirst)⟩

theorem exists_choose_steal_iff {p : VoicePool} {priority : UInt8} :
    (∃ i, p.choose priority = some (.steal i)) ↔ p.Full ∧ ∃ v, p.Eligible priority v := by
  simp only [choose_eq_steal_iff, exists_and_left, Eligible, ← UInt8.not_lt]
  refine and_congr_right fun _ => ?_
  rw [← Option.ne_none_iff_exists', victim?_eq, Ne, candidate?_eq_none_iff]
  simp only [not_forall, exists_prop]

/-- A voice that is given up is the first choice from the last raise of the scan on. -/
theorem choose_steal_spec {p : VoicePool} {priority : UInt8} {i : Nat}
    (h : p.choose priority = some (.steal i)) : ∃ s, p.Scanned priority s p.limit i :=
  candidate?_spec (Nat.le_refl _) (choose_eq_steal_iff.mp h).2

theorem eligible_of_choose {p : VoicePool} {priority : UInt8} {i : Nat}
    (h : p.choose priority = some (.steal i)) : p.Eligible priority i := by
  obtain ⟨s, hs⟩ := choose_steal_spec h
  exact ⟨hs.lt, hs.le⟩

/-- No voice that the scan still has in view at its end dominates the one it gives up. -/
theorem Scanned.undominated {p : VoicePool} {priority : UInt8} {s i : Nat}
    (h : p.Scanned priority s p.limit i) {j : Nat} (hj : p.Eligible priority j) (hsj : s ≤ j) :
    ¬ (p.voice j).Dominates (p.voice i) :=
  fun hdominates => h.least j hsj hj.1 hj.2 hdominates.before

/-- Where no voice that may be given up is sooner than one of lower priority ahead of it,
the scan never raises. -/
theorem not_raises {p : VoicePool} {priority : UInt8}
    (h : ∀ b v, b < v → p.Eligible priority b → p.Eligible priority v →
      (p.voice b).priority < (p.voice v).priority → ¬ (p.voice v).Sooner (p.voice b)) (v : Nat) :
    ¬ p.Raises priority v := by
  rintro ⟨hv, b, hb, hhigher, hsooner⟩
  obtain ⟨s, hs⟩ := candidate?_spec (Nat.le_of_lt hv.1) hb
  exact h b v hs.lt ⟨Nat.lt_trans hs.lt hv.1, hs.le⟩ hv hhigher hsooner

/-- A scan that never raises gives up the first choice of all voices. -/
theorem Scanned.of_not_raises {p : VoicePool} {priority : UInt8} {s n i : Nat}
    (h : p.Scanned priority s n i) (hnever : ∀ v, ¬ p.Raises priority v) :
    p.FirstChoice priority 0 n i := by
  obtain rfl := h.start.resolve_right (hnever s)
  exact h.toFirstChoice

/-- The voice that is given up for a note is dominated by no other that could have been if
and only if it is dominated by none that stands ahead of a raise. Where no voice is
sooner than one of lower priority ahead of it, none that could have been given up comes
before it at all. -/
theorem steal_undominated_iff {p : VoicePool} {priority : UInt8} {i : Nat}
    (h : p.choose priority = some (.steal i)) :
    ((∀ j, p.Eligible priority j → ¬ (p.voice j).Dominates (p.voice i)) ↔
      ∀ j v, j < v → p.Raises priority v → p.Eligible priority j →
        ¬ (p.voice j).Dominates (p.voice i)) ∧
    ((∀ b v, b < v → p.Eligible priority b → p.Eligible priority v →
        (p.voice b).priority < (p.voice v).priority → ¬ (p.voice v).Sooner (p.voice b)) →
      ∀ j, p.Eligible priority j → ¬ (p.voice j).Before (p.voice i)) := by
  obtain ⟨s, hs⟩ := choose_steal_spec h
  refine ⟨⟨fun hall j _ _ _ hj => hall j hj, fun hahead j hj => ?_⟩, fun hordered j hj => ?_⟩
  · by_cases hsj : s ≤ j
    · exact hs.undominated hj hsj
    · have hjs := Nat.lt_of_not_le hsj
      have hraises : p.Raises priority s :=
        hs.start.resolve_left (Nat.ne_of_gt (Nat.lt_of_le_of_lt (Nat.zero_le j) hjs))
      exact hahead j s hjs hraises hj
  · exact (hs.of_not_raises (not_raises hordered)).least j (Nat.zero_le j) hj.1 hj.2

/-- A voice plays, and one of higher priority behind it fades. -/
def fadingBehind : VoicePool where
  voices := #[{ active := true, priority := 1 },
    { active := true, release := true, priority := 6, onOff := 9 }]
  active := 2

/-- The voice that fades is given up, and neither dominates the other. -/
theorem steal_undominated_fading :
    fadingBehind.choose 8 = some (.steal 1) ∧ fadingBehind.Raises 8 1 ∧
      ((∀ j, fadingBehind.Eligible 8 j →
          ¬ (fadingBehind.voice j).Dominates (fadingBehind.voice 1)) ↔
        ∀ j v, j < v → fadingBehind.Raises 8 v → fadingBehind.Eligible 8 j →
          ¬ (fadingBehind.voice j).Dominates (fadingBehind.voice 1)) := by
  have hchoice : fadingBehind.choose 8 = some (.steal 1) := by decide +kernel
  exact ⟨hchoice, by decide, (steal_undominated_iff hchoice).1⟩

/-- A voice that fades between two that play, of which the first is the lower in priority
and the earlier. -/
def fadingBetween : VoicePool where
  voices := #[{ active := true, priority := 5, onOff := 5 },
    { active := true, release := true, priority := 9, onOff := 100 },
    { active := true, priority := 6, onOff := 50 }]
  active := 3

/-- The first voice dominates the third, and the third is given up: the second won over the
first because it fades, and lost to the third by its priority. -/
theorem not_undominated_fadingBetween :
    fadingBetween.Full ∧ fadingBetween.choose 10 = some (.steal 2) ∧
      fadingBetween.Eligible 10 0 ∧
      (fadingBetween.voice 0).Dominates (fadingBetween.voice 2) := by
  decide +kernel

/-! ## Voices of one priority -/

/-- Of the voices that may be given up, `i` is the first: it is sooner than any other, or
they are alike and it stands ahead. -/
def Soonest (p : VoicePool) (priority : UInt8) (i : Nat) : Prop :=
  p.Eligible priority i ∧ ∀ j, p.Eligible priority j → j ≠ i →
    (p.voice i).Sooner (p.voice j) ∨
      (p.voice i).release = (p.voice j).release ∧ (p.voice i).onOff = (p.voice j).onOff ∧ i < j

theorem Soonest.unique {p : VoicePool} {priority : UInt8} {i j : Nat}
    (hi : p.Soonest priority i) (hj : p.Soonest priority j) : i = j := by
  by_contra hij
  have hother := hi.2 j hj.1 (Ne.symm hij)
  have hself := hj.2 i hi.1 hij
  unfold Voice.Sooner at hother hself
  grind

/-- Among voices of one priority the first choice is the soonest. -/
theorem FirstChoice.soonest {p : VoicePool} {priority c : UInt8} {i : Nat}
    (h : p.FirstChoice priority 0 p.limit i)
    (hc : ∀ v, p.Eligible priority v → (p.voice v).priority = c) : p.Soonest priority i := by
  have hi : p.Eligible priority i := ⟨h.lt, h.le⟩
  refine ⟨hi, fun j hj hne => ?_⟩
  have hsame : (p.voice i).priority = (p.voice j).priority := (hc i hi).trans (hc j hj).symm
  have hleast := h.least j (Nat.zero_le j) hj.1 hj.2
  rcases Nat.lt_or_gt_of_ne hne with hlt | hgt
  · have hfirst := h.first j (Nat.zero_le j) hlt hj.2
    exact .inl ((hfirst.resolve_left (hsame ▸ UInt8.lt_irrefl _)).2)
  · unfold Voice.Before Voice.Sooner at *
    grind

theorem choose_steal_iff_soonest {p : VoicePool} {priority c : UInt8} (hfull : p.Full)
    (hc : ∀ v, p.Eligible priority v → (p.voice v).priority = c) (i : Nat) :
    p.choose priority = some (.steal i) ↔ p.Soonest priority i := by
  have hnever : ∀ v, ¬ p.Raises priority v := not_raises fun b v _ hb hv hhigher => by
    rw [hc b hb, hc v hv] at hhigher
    exact absurd hhigher (UInt8.lt_irrefl c)
  have hsteals : ∀ i, p.choose priority = some (.steal i) → p.Soonest priority i := by
    intro i h
    obtain ⟨s, hs⟩ := choose_steal_spec h
    exact (hs.of_not_raises hnever).soonest hc
  refine ⟨hsteals i, fun hi => ?_⟩
  rw [choose_of_full hfull]
  cases hvictim : p.victim? priority with
  | none =>
    have hdear := candidate?_eq_none_iff.mp hvictim i hi.1.1
    exact absurd hi.1.2 (UInt8.not_le.mpr hdear)
  | some j =>
    have hj := hsteals j (choose_eq_steal_iff.mpr ⟨hfull, hvictim⟩)
    rw [Option.map_some, hj.unique hi]

end VoicePool

/-! ## Voices of a higher priority -/

namespace Engine

variable {σ : Type} [SoundChip σ]

/-- A note of a track that may have another voice takes the one that is chosen, if there
is one, and from the note that it plays if need be. -/
theorem playNote_of_choose {e : Engine σ} {i : Nat}
    (hroom : (e.track i).voicesActive < (e.track i).maxVoices) (patchVoice : UInt16)
    (note velocity : UInt8) :
    (e.voices.choose (e.track i).priority = none ∧
        e.playNote i patchVoice note velocity = e) ∨
      ∃ v, (e.voices.choose (e.track i).priority = some (.free v) ∨
          e.voices.choose (e.track i).priority = some (.steal v)) ∧
        e.playNote i patchVoice note velocity =
          (e.freeVoice v).startVoice v i patchVoice note velocity := by
  unfold playNote
  dsimp only
  rw [if_neg (Nat.not_le.mpr hroom)]
  cases hchoice : e.voices.choose (e.track i).priority with
  | none => exact .inl ⟨rfl, rfl⟩
  | some choice =>
    cases choice with
    | free v =>
      have hidle : (e.voice v).active = false := (VoicePool.choose_free hchoice).2
      refine .inr ⟨v, .inl rfl, ?_⟩
      rw [freeVoice_of_idle hidle]
    | steal v => exact .inr ⟨v, .inr rfl, rfl⟩

/-- A note that takes voice `w` leaves every other voice as it is. -/
theorem voice_takeVoice {e : Engine σ} {v w : Nat} (hw : w < e.voices.limit) (hwv : w ≠ v)
    (i : Nat) (patchVoice : UInt16) (note velocity : UInt8) :
    ((e.freeVoice w).startVoice w i patchVoice note velocity).voice v = e.voice v := by
  have hfreed : (e.freeVoice w).voice v = e.voice v := by
    rw [voice_freeVoice, if_neg fun h => hwv h.1]
  cases hpatch : (e.freeVoice w).module.patches.voice? patchVoice.toNat with
  | none => rw [startVoice_of_none hpatch, hfreed]
  | some patch =>
    obtain ⟨voice, -, -, -, hread⟩ :=
      voice_startVoice i note velocity (by simpa using hw) hpatch
    rw [hread, if_neg hwv, hfreed]

/-- A note leaves a voice of higher priority than its track as it is. -/
theorem voice_playNote_of_lt {e : Engine σ} {i v : Nat} (hv : (e.voice v).active = true)
    (hhigher : (e.track i).priority < (e.voice v).priority) (patchVoice : UInt16)
    (note velocity : UInt8) :
    (e.playNote i patchVoice note velocity).voice v = e.voice v := by
  by_cases hroom : (e.track i).voicesActive < (e.track i).maxVoices
  · rcases playNote_of_choose hroom patchVoice note velocity with
      ⟨-, heq⟩ | ⟨w, hfree | hsteal, heq⟩
    · rw [heq]
    · obtain ⟨hw, hidle⟩ := VoicePool.choose_free hfree
      rw [heq]
      refine voice_takeVoice hw (fun hwv => ?_) i patchVoice note velocity
      rw [hwv] at hidle
      exact Bool.false_ne_true (hidle.symm.trans hv)
    · obtain ⟨hw, hle⟩ := VoicePool.eligible_of_choose hsteal
      rw [heq]
      refine voice_takeVoice hw (fun hwv => ?_) i patchVoice note velocity
      exact absurd hle (UInt8.not_le.mpr (hwv ▸ hhigher))
  · rw [show e.playNote i patchVoice note velocity = e from if_pos (Nat.le_of_not_lt hroom)]

theorem priority_playNote (e : Engine σ) (i j : Nat) (patchVoice : UInt16)
    (note velocity : UInt8) :
    ((e.playNote j patchVoice note velocity).track i).priority = (e.track i).priority :=
  @playNote_keeps _ _ (fun t => t.priority = (e.track i).priority)
    (fun t ht => by unfold Track.voiceFreed; split <;> exact ht) (fun _ ht => ht) e i rfl j
    patchVoice note velocity

/-- So does a key, whatever voices its patch has. -/
theorem voice_noteOn_of_lt {e : Engine σ} {i v : Nat} (hv : (e.voice v).active = true)
    (hhigher : (e.track i).priority < (e.voice v).priority) (key velocity : UInt8) :
    (e.noteOn i key velocity).voice v = e.voice v := by
  unfold noteOn
  split
  · rfl
  · next patch note _ =>
    have hkept := foldl_keeps
      (f := fun e index => e.playNote i (UInt16.ofNat index) note velocity)
      (fun _ e' => e'.voice v = e.voice v ∧ (e'.track i).priority = (e.track i).priority)
      (fun index _ e' he => by
        obtain ⟨hvoice, hpriority⟩ := he
        have hspared := voice_playNote_of_lt (by rw [hvoice]; exact hv)
          (by rw [hvoice, hpriority]; exact hhigher) (UInt16.ofNat index) note velocity
        refine ⟨hspared.trans hvoice, ?_⟩
        exact (priority_playNote e' i i (UInt16.ofNat index) note velocity).trans hpriority)
      (soundingVoices e.module.patches patch note) e ⟨rfl, rfl⟩
    exact hkept.1

end Engine

/-- A note gets the first idle voice. Where there is none, it is dropped if every voice has
a higher priority than its track, and else it gets a voice of no higher priority, which
is the soonest of these if they have all the same. No note, and no key of any number of
notes, touches a voice of higher priority than its track. -/
theorem choose_spec (p : VoicePool) (priority : UInt8) :
    (∀ i, p.choose priority = some (.free i) ↔
      i < p.limit ∧ (p.voice i).active = false ∧ ∀ j < i, (p.voice j).active = true) ∧
    ((∃ i, p.choose priority = some (.free i)) ↔ ∃ i < p.limit, (p.voice i).active = false) ∧
    (p.choose priority = none ↔
      ∀ v < p.limit, (p.voice v).active = true ∧ priority < (p.voice v).priority) ∧
    ((∃ i, p.choose priority = some (.steal i)) ↔ p.Full ∧ ∃ v, p.Eligible priority v) ∧
    (∀ i, p.choose priority = some (.steal i) → p.Eligible priority i) ∧
    (∀ c, p.Full → (∀ v, p.Eligible priority v → (p.voice v).priority = c) →
      ∀ i, p.choose priority = some (.steal i) ↔ p.Soonest priority i) ∧
    ∀ {σ : Type} [SoundChip σ] (e : Engine σ) (i v : Nat), (e.voice v).active = true →
      (e.track i).priority < (e.voice v).priority →
      (∀ patchVoice note velocity,
        (e.playNote i patchVoice note velocity).voice v = e.voice v) ∧
      ∀ key velocity, (e.noteOn i key velocity).voice v = e.voice v :=
  ⟨fun _ => VoicePool.choose_eq_free_iff, VoicePool.exists_choose_free_iff,
    VoicePool.choose_eq_none_iff, VoicePool.exists_choose_steal_iff,
    fun _ => VoicePool.eligible_of_choose,
    fun _ hfull hc => VoicePool.choose_steal_iff_soonest hfull hc,
    fun _ _ _ hv hhigher =>
      ⟨Engine.voice_playNote_of_lt hv hhigher, Engine.voice_noteOn_of_lt hv hhigher⟩⟩

/-- Two tracks take all voices there are. The one of a low priority has four, of which two fade
from the same moment on; the one of a high priority stands ahead of the last of them. The third
track stands between them and has no note yet. -/
def ranked : SoundModule :=
  { solo [] with
    limits := { sequences := 1, tracks := 3, voices := 5 }
    sequences := #[#[
      TrackHeader.plays { priority := 1 } [(0, .noteOn 60 100), (0, .noteOn 62 100),
        (0, .noteOn 64 100), (2, .noteOff 62), (0, .noteOff 64), (0, .noteOn 65 100),
        (1000, .trackEnd)],
      TrackHeader.plays { priority := 6 } [(0, .noteOn 67 100), (1000, .trackEnd)],
      TrackHeader.plays { priority := 3 } [(1000, .trackEnd)]]] }

/-- A note of the third track would get the first of the two voices that fade, which are alike
but for their place, and no key of it touches the voice of the second track. -/
theorem choose_spec_ranked : ∃ e e' : Engine RecorderChip,
    Engine.make ranked { instantRelease := false } = .ok e ∧
      (Session.run { engine := e } [.start 0 {}, .tick, .tick]).engine = e' ∧
      ([0, 1, 2, 3, 4].map fun v =>
          ((e'.voice v).priority, (e'.voice v).release, (e'.voice v).onOff)) =
        [(1, false, 8), (1, true, 131088), (1, true, 131088), (6, false, 8), (1, false, 16)] ∧
      e'.voices.Full ∧
      (List.range e'.voices.limit).filter (e'.voices.Eligible (e'.track 2).priority ·) =
        [0, 1, 2, 4] ∧
      e'.voices.choose (e'.track 2).priority = some (.steal 1) ∧
      e'.voices.Soonest (e'.track 2).priority 1 ∧
      ∀ key velocity, (e'.noteOn 2 key velocity).voice 3 = e'.voice 3 := by
  obtain ⟨e, hmake, hvoices, hfull, heligible, hchoice, hactive, hpriority⟩ :
      ∃ e : Engine RecorderChip, Engine.make ranked { instantRelease := false } = .ok e ∧
        let e' := (Session.run { engine := e } [.start 0 {}, .tick, .tick]).engine
        ([0, 1, 2, 3, 4].map fun v =>
            ((e'.voice v).priority, (e'.voice v).release, (e'.voice v).onOff)) =
          [(1, false, 8), (1, true, 131088), (1, true, 131088), (6, false, 8), (1, false, 16)] ∧
        e'.voices.Full ∧
        (List.range e'.voices.limit).filter (e'.voices.Eligible (e'.track 2).priority ·) =
          [0, 1, 2, 4] ∧
        e'.voices.choose (e'.track 2).priority = some (.steal 1) ∧
        (e'.voice 3).active = true ∧ (e'.track 2).priority = 3 :=
    Engine.exists_make (by decide +kernel)
  let e' := (Session.run { engine := e } [.start 0 {}, .tick, .tick]).engine
  obtain ⟨⟨h0, -⟩, ⟨h1, -⟩, ⟨h2, -⟩, ⟨h3, -⟩, h4, -⟩ : _ ∧ _ ∧ _ ∧ _ ∧ _ := by
    simpa only [List.map_cons, List.map_nil, List.cons.injEq, Prod.mk.injEq, and_true] using hvoices
  have hsame : ∀ v, e'.voices.Eligible (e'.track 2).priority v →
      (e'.voices.voice v).priority = 1 := by
    intro v hv
    have hin : v ∈ [0, 1, 2, 4] := heligible ▸ List.mem_filter.mpr
      ⟨List.mem_range.mpr hv.1, decide_eq_true hv⟩
    simp only [List.mem_cons, List.not_mem_nil, or_false] at hin
    rcases hin with rfl | rfl | rfl | rfl
    exacts [h0, h1, h2, h4]
  have hhigher : (e'.track 2).priority < (e'.voice 3).priority := by
    rw [hpriority, h3]
    decide
  obtain ⟨-, -, -, -, -, hsoonest, hspared⟩ := choose_spec e'.voices (e'.track 2).priority
  exact ⟨e, e', hmake, rfl, hvoices, hfull, heligible, hchoice,
    (hsoonest 1 hfull hsame 1).mp hchoice, (hspared e' 2 3 hactive hhigher).2⟩

end SoundSequencer
