/-
SoundSequencer.Proofs.OneTrack — where a command leads one track.

* A `Course` says from a track and its stream where the track goes on and
  whether a command put it there. `Track.jumped`, `Track.gosubbed` and
  `Track.wentBack` are the three that there are.
* `Engine.move` leads a track of the pool on its course. `jump_eq`, `gosub_eq`
  and `goBack_eq` say that the interpreter does just that.
* `foldl_move` says that a command for a sequence leads each of its tracks on
  its own course, once.
-/
import SoundSequencer.Engine.Interpreter
import SoundSequencer.Proofs.Effects

namespace SoundSequencer

/-- Where a track with a stream goes on, and whether a command put it there. -/
abbrev Course := Option TrackStream → Track → Track × Flow

namespace Track

/-- The track behind the delta time at `offset`, if there is one. -/
def behindDelta? (t : Track) (stream : Option TrackStream) (offset : Nat) : Option Track :=
  (stream.bind (·.event? offset)).map fun event => { t with delta := event.1, pc := event.2 }

/-- A jump to a label. -/
def jumped (label : Int16) : Course := fun stream t =>
  match stream.bind (·.label? label.toInt) with
  | none => (t, .advance)
  | some pc => ({ t with pc }, .hold)

/-- A jump to a label that notes where to come back to. -/
def gosubbed (label : Int16) : Course := fun stream t =>
  match stream.bind (·.label? label.toInt) with
  | none => (t, .advance)
  | some pc =>
    match t.pushReturn? (t.pc + Opcode.trackGosub.byteLength) with
    | none => (t, .advance)
    | some t => ({ t with pc }, .hold)

/-- The way back from the last gosub. -/
def wentBack : Course := fun stream t =>
  match t.popReturn? with
  | none => (t, .advance)
  | some (address, t) =>
    match t.behindDelta? stream address with
    | none => (t, .advance)
    | some t => (t, .hold)

/-- The place of a track in its sequence. -/
def place (t : Track) := (t.slot, t.sequence, t.position)

theorem behindDelta?_eq_some {t t' : Track} {stream : Option TrackStream} {offset : Nat}
    (h : t.behindDelta? stream offset = some t') :
    ∃ delta pc, stream.bind (·.event? offset) = some (delta, pc) ∧ t' = { t with delta, pc } := by
  unfold behindDelta? at h
  obtain ⟨event, hevent, rfl⟩ := Option.map_eq_some_iff.mp h
  exact ⟨event.1, event.2, hevent, rfl⟩

theorem pushReturn?_eq_some {t t' : Track} {address : Nat} (h : t.pushReturn? address = some t') :
    t.returns.length < t.returnDepth ∧ t.returns.length < maxReturnDepth ∧
      t' = { t with returns := address :: t.returns } := by
  unfold pushReturn? at h
  split at h
  · next hroom => exact ⟨hroom.1, hroom.2, (Option.some.inj h).symm⟩
  · cases h

theorem popReturn?_eq_some {t t' : Track} {address : Nat}
    (h : t.popReturn? = some (address, t')) :
    t.returns = address :: t'.returns ∧ t' = { t with returns := t'.returns } := by
  unfold popReturn? at h
  split at h
  · cases h
  · next first rest hreturns =>
    cases h
    exact ⟨hreturns, rfl⟩

end Track

namespace Engine

variable {σ : Type}

/-! ## One track of the pool -/

/-- Leads track `i` on a course. -/
def move (e : Engine σ) (i : Nat) (course : Course) : Engine σ × Flow :=
  (e.modifyTrack i fun _ => (course (e.stream? i) (e.track i)).1,
    (course (e.stream? i) (e.track i)).2)

theorem modifyTrack_congr {e : Engine σ} {i : Nat} {f g : Track → Track}
    (h : f (e.track i) = g (e.track i)) : e.modifyTrack i f = e.modifyTrack i g := by
  have htracks : e.tracks.modify i f = e.tracks.modify i g := by
    refine Array.ext (by simp) fun j hj hj' => ?_
    rw [Array.getElem_modify, Array.getElem_modify]
    split
    · next hij =>
      subst hij
      have hi : i < e.tracks.size := by simpa using hj
      simpa [track, Array.getD_eq_getD_getElem?, hi] using h
    · rfl
  unfold modifyTrack
  rw [htracks]

theorem modifyTrack_self (e : Engine σ) (i : Nat) :
    (e.modifyTrack i fun _ => e.track i) = e := by
  have htracks : e.tracks.modify i (fun _ => e.track i) = e.tracks := by
    refine Array.ext (by simp) fun j hj hj' => ?_
    rw [Array.getElem_modify]
    split
    · next hij =>
      subst hij
      simp [track, Array.getD_eq_getD_getElem?, hj']
    · rfl
  unfold modifyTrack
  rw [htracks]

theorem modifyTrack_of_eq {e : Engine σ} {i : Nat} {f : Track → Track}
    (h : f (e.track i) = e.track i) : e.modifyTrack i f = e :=
  (modifyTrack_congr h).trans (modifyTrack_self e i)

theorem modifyTrack_modifyTrack (e : Engine σ) (i : Nat) (f g : Track → Track) :
    (e.modifyTrack i f).modifyTrack i g = e.modifyTrack i fun t => g (f t) := by
  have htracks : (e.tracks.modify i f).modify i g = e.tracks.modify i fun t => g (f t) := by
    refine Array.ext (by simp) fun j hj hj' => ?_
    simp only [Array.getElem_modify]
    split <;> rfl
  unfold modifyTrack
  dsimp only
  rw [htracks]

/-- Changes to different tracks may be made in either order. -/
theorem modifyTrack_comm (e : Engine σ) {i j : Nat} (hij : i ≠ j) (f g : Track → Track) :
    (e.modifyTrack i f).modifyTrack j g = (e.modifyTrack j g).modifyTrack i f := by
  have htracks : (e.tracks.modify i f).modify j g = (e.tracks.modify j g).modify i f := by
    refine Array.ext (by simp) fun k hk hk' => ?_
    simp only [Array.getElem_modify]
    grind
  unfold modifyTrack
  dsimp only
  rw [htracks]

/-- A change that leaves a track in its place leaves it its stream. -/
theorem stream?_modifyTrack (e : Engine σ) (i j : Nat) {f : Track → Track}
    (hf : (f (e.track i)).place = (e.track i).place) :
    (e.modifyTrack i f).stream? j = e.stream? j := by
  simp only [Track.place, Prod.mk.injEq] at hf
  unfold stream?
  rw [track_modifyTrack]
  split
  · next h =>
    rw [← h.1, hf.2.1, hf.2.2]
    rfl
  · rfl

theorem readDelta?_eq (e : Engine σ) (i offset : Nat) :
    e.readDelta? i offset =
      ((e.track i).behindDelta? (e.stream? i) offset).map fun t => e.modifyTrack i fun _ => t := by
  unfold readDelta? Track.behindDelta?
  cases e.stream? i with
  | none => rfl
  | some stream =>
    simp only [Option.bind_eq_bind, Option.bind_some]
    cases stream.event? offset with
    | none => rfl
    | some event =>
      simp only [Option.bind_some, Option.map_some, pure, Option.some.injEq]
      exact modifyTrack_congr rfl

theorem jump_eq (e : Engine σ) (i : Nat) (label : Int16) :
    e.jump i label = e.move i (Track.jumped label) := by
  have hlabel : e.label? i label = (e.stream? i).bind (·.label? label.toInt) := rfl
  unfold jump move Track.jumped
  rw [hlabel]
  cases (e.stream? i).bind (·.label? label.toInt) with
  | none => simp only [modifyTrack_self]
  | some pc => simp only [modifyTrack_congr (f := fun t => { t with pc })
      (g := fun _ => { e.track i with pc }) rfl]

theorem gosub_eq (e : Engine σ) (i : Nat) (label : Int16) :
    e.gosub i label = e.move i (Track.gosubbed label) := by
  have hlabel : e.label? i label = (e.stream? i).bind (·.label? label.toInt) := rfl
  unfold gosub move Track.gosubbed
  rw [hlabel]
  cases (e.stream? i).bind (·.label? label.toInt) with
  | none => simp only [modifyTrack_self]
  | some pc =>
    dsimp only
    cases (e.track i).pushReturn? ((e.track i).pc + Opcode.trackGosub.byteLength) with
    | none => simp only [modifyTrack_self]
    | some t => rfl

theorem goBack_eq (e : Engine σ) (i : Nat) : e.goBack i = e.move i Track.wentBack := by
  unfold goBack move Track.wentBack
  cases hpop : (e.track i).popReturn? with
  | none => simp only [modifyTrack_self]
  | some popped =>
    obtain ⟨address, t⟩ := popped
    obtain ⟨hreturns, ht⟩ := Track.popReturn?_eq_some hpop
    -- an idle track has nowhere to come back to
    have hi : i < e.tracks.size := by
      by_contra hout
      rw [track_of_size_le (Nat.le_of_not_lt hout)] at hreturns
      cases hreturns
    have hplace : t.place = (e.track i).place := by rw [ht]; rfl
    have hpopped : (e.modifyTrack i fun _ => t).track i = t := by
      rw [track_modifyTrack, if_pos ⟨rfl, hi⟩]
    have hread : (e.modifyTrack i fun _ => t).readDelta? i address =
        (t.behindDelta? (e.stream? i) address).map fun t' => e.modifyTrack i fun _ => t' := by
      rw [readDelta?_eq, stream?_modifyTrack e i i hplace, hpopped]
      simp only [modifyTrack_modifyTrack]
    dsimp only
    rw [hread]
    cases t.behindDelta? (e.stream? i) address with
    | none => rfl
    | some t' => rfl

/-! ## All tracks of a sequence -/

/-- A list of different tracks, each of which is led on its course once. -/
theorem foldl_move {course : Course} (hplace : ∀ stream t, (course stream t).1.place = t.place)
    (i : Nat) : ∀ (l : List Nat) (e : Engine σ) (flow : Flow), l.Nodup →
    let moved := l.foldl (fun (p : Engine σ × Flow) other =>
      ((p.1.move other course).1, if other = i then (p.1.move other course).2 else p.2)) (e, flow)
    moved.1.module = e.module ∧ moved.1.slots = e.slots ∧
      (∀ j, moved.1.track j = if j ∈ l ∧ j < e.tracks.size then
        (course (e.stream? j) (e.track j)).1 else e.track j) ∧
      moved.2 = if i ∈ l then (course (e.stream? i) (e.track i)).2 else flow
  | [], e, flow, _ => by simp
  | other :: l, e, flow, h => by
    obtain ⟨hnot, hrest⟩ := List.nodup_cons.mp h
    have hstream : ∀ j, (e.move other course).1.stream? j = e.stream? j := fun j =>
      stream?_modifyTrack e other j (hplace _ _)
    have htrack : ∀ j, (e.move other course).1.track j =
        if other = j ∧ j < e.tracks.size then (course (e.stream? j) (e.track j)).1
        else e.track j := by
      intro j
      refine (track_modifyTrack e other j _).trans ?_
      split
      · next hj => rw [hj.1]
      · rfl
    have hsize : (e.move other course).1.tracks.size = e.tracks.size := by
      simp [move, modifyTrack]
    obtain ⟨ihmodule, ihslots, ihtrack, ihflow⟩ := foldl_move hplace i l (e.move other course).1
      (if other = i then (e.move other course).2 else flow) hrest
    refine ⟨ihmodule, ihslots, fun j => ?_, ?_⟩
    · rw [List.foldl_cons, ihtrack j, hstream, hsize, htrack]
      by_cases hj : other = j
      · subst hj
        simp [hnot]
      · simp [hj, Ne.symm hj]
    · rw [List.foldl_cons, ihflow, hstream, htrack]
      by_cases hi : other = i
      · subst hi
        simp [hnot, move]
      · simp [hi, Ne.symm hi]

end Engine

end SoundSequencer
