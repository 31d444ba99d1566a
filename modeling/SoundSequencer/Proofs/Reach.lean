/-
SoundSequencer.Proofs.Reach — calls for some of the slots, track by track.

* `Engine.reach` are the tracks that a call for certain slots reaches, in its order; `mem_reach`
  says which they are.
* `Engine.AtHome` says of a turn that it changes no slot but that of its track.
  `AtHome.forTracksWhere_eq` says that a call of such turns is its turns over the reach.
* `foldl_eq_of_mem_iff` says of turns that commute, and of which a second changes nothing, that
  only the set of those whose turn it is matters.
-/
import Mathlib.Data.List.Flatten
import SoundSequencer.Proofs.Roster

namespace SoundSequencer

/-! ## Turns in any order -/

section Turns

variable {α β : Type} {f : α → β → α}

/-- A turn that was taken once may be taken again. -/
theorem foldl_absorbs (hcomm : ∀ a b c, f (f a b) c = f (f a c) b)
    (htwice : ∀ a b, f (f a b) b = f a b) {b : β} :
    ∀ {l : List β} (a : α), b ∈ l → f (l.foldl f a) b = l.foldl f a
  | c :: l, a, hb => by
    rw [List.foldl_cons]
    rcases List.mem_cons.mp hb with rfl | hmem
    · have hlast : f (l.foldl f (f a b)) b = l.foldl f (f (f a b) b) := by
        generalize f a b = start
        induction l generalizing start with
        | nil => rfl
        | cons c l ih =>
          rw [List.foldl_cons, List.foldl_cons, hcomm start b c]
          exact ih (List.mem_cons_self ..) (f start c)
      rw [hlast, htwice]
    · exact foldl_absorbs hcomm htwice (f a c) hmem

/-- Turns that commute, and of which a second changes nothing, may be taken in any order and
any number of times. -/
theorem foldl_eq_of_mem_iff (hcomm : ∀ a b c, f (f a b) c = f (f a c) b)
    (htwice : ∀ a b, f (f a b) b = f a b) {l l' : List β} (h : ∀ b, b ∈ l ↔ b ∈ l') (a : α) :
    l.foldl f a = l'.foldl f a := by
  have habsorb : ∀ m m' : List β, (∀ b ∈ m', b ∈ m) → (m ++ m').foldl f a = m.foldl f a := by
    intro m m' hsub
    rw [List.foldl_append]
    exact foldl_idle fun b hb => foldl_absorbs hcomm htwice a (hsub b hb)
  have hswap : (l ++ l').foldl f a = (l' ++ l).foldl f a :=
    List.perm_append_comm.foldl_eq' (fun b _ c _ a => hcomm a b c) a
  rw [← habsorb l l' fun b hb => (h b).mpr hb, hswap, habsorb l' l fun b hb => (h b).mp hb]

end Turns

namespace Engine

variable {σ : Type}

/-! ## Whom a call reaches -/

/-- The tracks of the slots in use that satisfy `q`, slot by slot. -/
def reach (e : Engine σ) (q : Slot → Bool) : List Nat :=
  (e.slotIds.filter fun s => q (e.slot s)).flatMap e.crew

theorem Placed.mem_reach {e : Engine σ} (h : e.Placed)
    (hwide : e.module.widestSequence ≤ maxTracksPerSequence) {q : Slot → Bool} {i : Nat} :
    i ∈ e.reach q ↔ (e.track i).isActive = true ∧ q (e.slot (e.track i).slot) = true := by
  simp only [reach, List.mem_flatMap, List.mem_filter]
  constructor
  · rintro ⟨s, ⟨-, hq⟩, hi⟩
    obtain ⟨hactive, rfl⟩ := h.home_of_mem_crew hi
    exact ⟨hactive, hq⟩
  · rintro ⟨hi, hq⟩
    obtain ⟨s, hs, hcrew⟩ := List.mem_flatMap.mp (((h.rostered hwide).mem i).mpr hi)
    obtain ⟨-, rfl⟩ := h.home_of_mem_crew hcrew
    exact ⟨_, ⟨hs, hq⟩, hcrew⟩

theorem Placed.nodup_reach {e : Engine σ} (h : e.Placed)
    (hwide : e.module.widestSequence ≤ maxTracksPerSequence) (q : Slot → Bool) :
    (e.reach q).Nodup :=
  (h.rostered hwide).nodup.sublist (List.filter_sublist.flatMap _)

/-! ## Calls as turns of tracks -/

/-- The turn of a track leaves every track on its slot, and all slots but its own alone. -/
structure AtHome (f : Engine σ → Nat → Engine σ) : Prop where
  home : ∀ e i j, ((f e i).track j).slot = (e.track j).slot
  slot : ∀ e i r, (e.track i).slot ≠ r → (f e i).slot r = e.slot r

namespace AtHome

variable {f : Engine σ → Nat → Engine σ}

/-- The turns of tracks of one slot. -/
theorem foldl (hf : AtHome f) {s : Nat} : ∀ {l : List Nat} {e : Engine σ},
    (∀ i ∈ l, (e.track i).slot = s) →
      (∀ j, ((l.foldl f e).track j).slot = (e.track j).slot) ∧
        ∀ r, s ≠ r → (l.foldl f e).slot r = e.slot r
  | [], _, _ => ⟨fun _ => rfl, fun _ _ => rfl⟩
  | i :: l, e, hl => by
    have hi := hl i List.mem_cons_self
    obtain ⟨hhome, hslot⟩ := hf.foldl (s := s) (l := l) (e := f e i) fun j hj => by
      rw [hf.home]
      exact hl j (List.mem_cons_of_mem i hj)
    refine ⟨fun j => (hhome j).trans (hf.home e i j), fun r hr => (hslot r hr).trans ?_⟩
    exact hf.slot e i r (hi.symm ▸ hr)

/-- A call takes its turns slot by slot, and no turn has a say in whose turns follow on other
slots. -/
theorem forTracksWhere_eq (hf : AtHome f) {e : Engine σ} (h : e.Placed) (q : Slot → Bool) :
    e.forTracksWhere q f = (e.reach q).foldl f e := by
  have hcalls : ∀ (l : List Nat) (e' : Engine σ), l.Nodup →
      (∀ s ∈ l, e'.slot s = e.slot s) → (∀ i, (e'.track i).slot = (e.track i).slot) →
        l.foldl (fun e s =>
          if (e.slot s).active && q (e.slot s) then e.forTracksOf s f else e) e' =
          ((l.filter fun s => q (e.slot s)).flatMap e.crew).foldl f e' := by
    intro l
    induction l with
    | nil => exact fun _ _ _ _ => rfl
    | cons s l ih =>
      intro e' hl hslots hhomes
      obtain ⟨hnot, hrest⟩ := List.nodup_cons.mp hl
      have hs := hslots s List.mem_cons_self
      have hslots' : ∀ r ∈ l, e'.slot r = e.slot r :=
        fun r hr => hslots r (List.mem_cons_of_mem s hr)
      rw [List.foldl_cons, hs]
      cases hq : q (e.slot s) with
      | false =>
        rw [Bool.and_false, if_neg Bool.false_ne_true, List.filter_cons_of_neg (by simpa using hq)]
        exact ih e' hrest hslots' hhomes
      | true =>
        rw [Bool.and_true, List.filter_cons_of_pos (by exact hq), List.flatMap_cons,
          List.foldl_append, crew]
        split
        · next hactive =>
          have hcrew : ∀ i ∈ (e.slot s).trackList, (e'.track i).slot = s := by
            intro i hi
            rw [hhomes]
            exact (h.of_lists (lists_of_mem_trackList hactive hi)).2
          obtain ⟨hhomes', hslots''⟩ := hf.foldl hcrew
          have hturn : e'.forTracksOf s f = (e.slot s).trackList.foldl f e' := by
            rw [forTracksOf, hs]
          rw [hturn]
          refine ih _ hrest (fun r hr => ?_) fun i => (hhomes' i).trans (hhomes i)
          exact (hslots'' r fun heq => hnot (heq ▸ hr)).trans (hslots' r hr)
        · exact ih e' hrest hslots' hhomes
  exact hcalls e.slotIds e List.nodup_range (fun _ _ => rfl) fun _ => rfl

end AtHome

end Engine

end SoundSequencer
