/-
SoundSequencer.Proofs.Disassembly — reading a written track back.

* `TrackStream.eventsFrom?` reads delta times and commands in turn up to the end of a
  stream; `eventsFrom?_eventBytes` reads what events were written.
* A `Request` is a call of the assembler: a `Line`, or a label right before the next
  command. `assemble` is the track that requests write, `written` are its events.
* `Puts` is one placement of a label. `PlaceOf` is the offset of the first command behind
  the last placement with a command behind it, `Unplaced` that no placement has one.
* `Kept` ties the assembler to its requests: `Kept.ask` for one, `kept_foldl` for all.
* `ArgumentsKept` lists where the arguments of each command are read.
* `SoundModule.flaw?_of_bare` is what admission finds in a track's labels.
* `disassemble_assemble` has all of this for any requests.
-/
import SoundSequencer.Chip.Recorder
import SoundSequencer.Proofs.Accepted
import SoundSequencer.Proofs.Quantities

namespace SoundSequencer

/-! ## Reading a stream -/

theorem Vlq.decodeAt_bounds {stream : Array UInt8} {offset count : Nat} {value : UInt32}
    (h : decodeAt stream offset = some (value, count)) :
    0 < count ∧ offset + count ≤ stream.size := by
  rw [decodeAt_eq_decode, decode_eq_some_iff] at h
  obtain ⟨groups, last, rest, hbytes, -, -, rfl, -⟩ := h
  have hlength := congrArg List.length hbytes
  rw [List.length_drop, List.length_append, List.length_cons, Array.length_toList] at hlength
  omega

namespace TrackStream

/-- A delta time takes bytes, and they are in the stream. -/
theorem event?_bounds {s : TrackStream} {offset pc : Nat} {delta : UInt32}
    (h : s.event? offset = some (delta, pc)) : offset < pc ∧ pc ≤ s.bytes.size := by
  obtain ⟨⟨value, count⟩, hdecode, hevent⟩ := Option.map_eq_some_iff.mp h
  obtain ⟨rfl, rfl⟩ := Prod.mk.inj hevent
  obtain ⟨hcount, hend⟩ := Vlq.decodeAt_bounds hdecode
  omega

/-- The events from `offset` up to the end of the stream: delta times and commands in turn.
Nothing if one of them cannot be read, or if the last one does not end with the stream. -/
def eventsFrom? (s : TrackStream) (offset : Nat) : Option (List (UInt32 × Command)) :=
  if offset = s.bytes.size then some []
  else
    match _hevent : s.event? offset with
    | none => none
    | some (delta, pc) =>
      match Command.decodeAt s.bytes pc with
      | none => none
      | some c => (s.eventsFrom? (pc + c.toBytes.length)).map ((delta, c) :: ·)
termination_by s.bytes.size - offset
decreasing_by
  have := event?_bounds _hevent
  omega

/-- All events of a stream. -/
def disassemble (s : TrackStream) : Option (List (UInt32 × Command)) := s.eventsFrom? 0

theorem event?_append {s : TrackStream} {before rest : List UInt8} {delta : UInt32}
    (hbytes : s.bytes = (before ++ Vlq.encode delta ++ rest).toArray) :
    s.event? before.length = some (delta, before.length + (Vlq.encode delta).length) := by
  rw [event?, Vlq.decodeAt_eq_decode, hbytes, List.append_assoc, List.drop_left,
    Vlq.decode_encode]
  rfl

/-- Events that are written in a row are read back, each at its place. -/
theorem eventsFrom?_eventBytes {s : TrackStream} : ∀ {events : List (UInt32 × Command)}
    {before : List UInt8}, s.bytes = (before ++ eventBytes events).toArray →
      s.eventsFrom? before.length = some events
  | [], before, hbytes => by
    have hend : before.length = s.bytes.size := by
      rw [hbytes, List.size_toArray, List.length_append]
      rfl
    rw [eventsFrom?, if_pos hend]
  | (delta, c) :: events, before, hbytes => by
    have hrest : eventBytes ((delta, c) :: events) =
        Vlq.encode delta ++ (c.toBytes ++ eventBytes events) := List.append_assoc ..
    have hevent := event?_append (hbytes.trans (by rw [hrest, List.append_assoc]))
    have hcommand : Command.decodeAt s.bytes (before.length + (Vlq.encode delta).length) =
        some c := by
      rw [hbytes, hrest, ← List.append_assoc, ← List.append_assoc, ← List.length_append]
      exact Command.decodeAt_append _ _ c
    have hbehind := @eventsFrom?_eventBytes s events (before ++ Vlq.encode delta ++ c.toBytes)
      (hbytes.trans (by rw [hrest]; simp only [List.append_assoc]))
    rw [List.length_append, List.length_append] at hbehind
    have hmore : before.length ≠ s.bytes.size := by
      have hbounds := event?_bounds hevent
      omega
    rw [eventsFrom?, if_neg hmore]
    split
    · next hnone => rw [hevent] at hnone; cases hnone
    · next hsome =>
      rw [hevent] at hsome
      cases hsome
      rw [hcommand]
      show Option.map _ _ = _
      rw [hbehind]
      rfl

end TrackStream

/-! ## Requests -/

namespace Assembler

/-- A call of an assembler. -/
inductive Request where
  | line (line : Line)
  /-- A new label before the next command. -/
  | label
  deriving DecidableEq

namespace Request

/-- The event that a request writes. -/
def event? : Request → Option (UInt32 × Command)
  | line l => l.event?
  | label => none

/-- Whether a request makes a label. -/
def makes : Request → Bool
  | line .reserve | label => true
  | _ => false

/-- The label that a request puts before the next command, where `made` labels were made
before. A label has sixteen bits; one that was never made is not put anywhere. -/
def puts? (made : Nat) : Request → Option Nat
  | line (.place other) => if other.toNat < made then some other.toNat else none
  | label => some (UInt16.ofNat made).toNat
  | _ => none

theorem event?_of_puts? {r : Request} {made label : Nat} (h : r.puts? made = some label) :
    r.event? = none := by
  match r with
  | line .reserve | line (.event _ _) => cases h
  | line (.place _) | .label => rfl

theorem puts?_lt {r : Request} {made label : Nat} (h : r.puts? made = some label) :
    label < made + (if r.makes then 1 else 0) := by
  match r with
  | line .reserve | line (.event _ _) => cases h
  | line (.place other) =>
    unfold puts? at h
    obtain ⟨hless, hlabel⟩ := Option.ite_none_right_eq_some.mp h
    cases hlabel
    exact Nat.lt_add_right _ hless
  | .label =>
    cases h
    rw [UInt16.toNat_ofNat']
    exact Nat.lt_succ_of_le (Nat.mod_le _ _)

end Request

/-- Does what is requested. -/
def ask (a : Assembler) : Request → Assembler
  | .line l => a.write l
  | .label => a.label.2

/-- The track that requests write. -/
def assemble (header : TrackHeader) (requests : List Request) : TrackStream :=
  (requests.foldl ask { header }).build

/-- The events that requests write. -/
def written (requests : List Request) : List (UInt32 × Command) :=
  requests.filterMap Request.event?

/-- The number of labels that requests make. -/
def made (requests : List Request) : Nat := requests.countP Request.makes

theorem written_append (before after : List Request) :
    written (before ++ after) = written before ++ written after := List.filterMap_append

theorem written_singleton (r : Request) : written [r] = r.event?.toList := by
  unfold written
  cases h : r.event? <;> simp [h]

theorem made_append (before after : List Request) :
    made (before ++ after) = made before + made after := List.countP_append

theorem made_singleton (r : Request) : made [r] = if r.makes then 1 else 0 :=
  List.countP_singleton

/-! ## Placements -/

/-- Behind the requests `before`, one puts `label` before the next command; `after` are the
requests behind that. -/
def Puts (requests : List Request) (label : Nat) (before after : List Request) : Prop :=
  ∃ r, requests = before ++ r :: after ∧ r.puts? (made before) = some label

/-- No command was written after a placement of `label`. -/
def Unplaced (requests : List Request) (label : Nat) : Prop :=
  ∀ before after, Puts requests label before after → written after = []

/-- The first command written after the last placement of `label` that has a command after
it stands at `place`. -/
def PlaceOf (requests : List Request) (label place : Nat) : Prop :=
  ∃ before after delta c rest, Puts requests label before after ∧
    written after = (delta, c) :: rest ∧
      place = (eventBytes (written before)).length + (Vlq.encode delta).length ∧
        ∀ before' after', Puts requests label before' after' →
          before.length < before'.length → written after' = []

/-- A placement of `label` waits for its command. -/
def Waits (requests : List Request) (label : Nat) : Prop :=
  ∃ before after, Puts requests label before after ∧ written after = []

section Placements

variable {requests before after before' after' : List Request} {label place : Nat}

theorem Puts.lt_made (h : Puts requests label before after) : label < made requests := by
  obtain ⟨r, rfl, hputs⟩ := h
  have hless := Request.puts?_lt hputs
  rw [← List.singleton_append, made_append, made_append, made_singleton]
  omega

theorem Puts.after_eq (h : Puts requests label before after) :
    after = requests.drop (before.length + 1) := by
  obtain ⟨r, rfl, -⟩ := h
  simp

/-- A placement itself writes nothing. -/
theorem Puts.written_eq (h : Puts requests label before after) :
    written requests = written before ++ written after := by
  obtain ⟨r, rfl, hputs⟩ := h
  rw [← List.singleton_append, written_append, written_append, written_singleton,
    Request.event?_of_puts? hputs]
  rfl

/-- What is written after a later placement was written after an earlier one too. -/
theorem Puts.written_eq_nil (h : Puts requests label before after)
    (h' : Puts requests label before' after') (hle : before.length ≤ before'.length)
    (hnone : written after = []) : written after' = [] := by
  have hsuffix : after' <:+ after := by
    rw [h.after_eq, h'.after_eq]
    exact List.drop_suffix_drop_left requests (Nat.succ_le_succ hle)
  have hwritten : written after' <:+ written after := hsuffix.filterMap _
  rw [hnone] at hwritten
  exact List.suffix_nil.mp hwritten

/-- Of the placements of a label that have a property, one is the last. -/
theorem Puts.exists_last {p : List Request → Prop} (h : Puts requests label before after)
    (hp : p after) : ∃ before after, Puts requests label before after ∧ p after ∧
      ∀ before' after', Puts requests label before' after' → p after' →
        before'.length ≤ before.length := by
  classical
  let at' (k : Nat) := ∃ before after, Puts requests label before after ∧ p after ∧
    before.length = k
  have hbound : before.length ≤ requests.length := by
    obtain ⟨r, rfl, -⟩ := h
    simp
  obtain ⟨last, rest, hlast, hprop, hlength⟩ :=
    Nat.findGreatest_spec (P := at') hbound ⟨before, after, h, hp, rfl⟩
  refine ⟨last, rest, hlast, hprop, fun before' after' h' hp' => ?_⟩
  have hbound' : before'.length ≤ requests.length := by
    obtain ⟨r, rfl, -⟩ := h'
    simp
  rw [hlength]
  exact Nat.le_findGreatest hbound' ⟨before', after', h', hp', rfl⟩

/-- A label has a place unless nothing was written after its placements. -/
theorem exists_placeOf_iff :
    (∃ place, PlaceOf requests label place) ↔ ¬ Unplaced requests label := by
  constructor
  · rintro ⟨place, before, after, delta, c, rest, hputs, hwritten, -, -⟩ hnone
    rw [hnone before after hputs] at hwritten
    cases hwritten
  · intro hsome
    simp only [Unplaced, not_forall, exists_prop] at hsome
    obtain ⟨before, after, hputs, hne⟩ := hsome
    obtain ⟨before, after, hputs, hne, hlast⟩ := hputs.exists_last (p := (written · ≠ [])) hne
    obtain ⟨⟨delta, c⟩, rest, hwritten⟩ := List.exists_cons_of_ne_nil hne
    refine ⟨_, before, after, delta, c, rest, hputs, hwritten, rfl,
      fun before' after' h hlater => ?_⟩
    by_contra hmore
    exact Nat.not_lt.mpr (hlast before' after' h hmore) hlater

/-- A place is in the stream. -/
theorem PlaceOf.lt (h : PlaceOf requests label place) :
    place < (eventBytes (written requests)).length := by
  obtain ⟨before, after, delta, c, rest, hputs, hwritten, rfl, -⟩ := h
  have hcommand := c.length_toBytes
  rw [hputs.written_eq, hwritten, eventBytes_append, List.length_append]
  simp only [eventBytes, List.flatMap_cons, List.length_append]
  omega

/-- The placements of one more request. -/
theorem puts_append_singleton {r : Request} :
    Puts (requests ++ [r]) label before after ↔
      (∃ front, after = front ++ [r] ∧ Puts requests label before front) ∨
        before = requests ∧ after = [] ∧ r.puts? (made requests) = some label := by
  constructor
  · rintro ⟨put, hsplit, hputs⟩
    rcases List.eq_nil_or_concat after with rfl | ⟨front, last, rfl⟩
    · obtain ⟨rfl, hlast⟩ := List.append_inj' hsplit rfl
      cases hlast
      exact .inr ⟨rfl, rfl, hputs⟩
    · rw [List.concat_eq_append, ← List.cons_append, ← List.append_assoc] at hsplit
      obtain ⟨hfront, hlast⟩ := List.append_inj' hsplit rfl
      cases hlast
      exact .inl ⟨front, List.concat_eq_append, put, hfront, hputs⟩
  · rintro (⟨front, rfl, put, rfl, hputs⟩ | ⟨rfl, rfl, hputs⟩)
    · exact ⟨put, by simp, hputs⟩
    · exact ⟨r, rfl, hputs⟩

/-- Labels wait until the next event. -/
theorem waits_append_singleton {r : Request} :
    Waits (requests ++ [r]) label ↔
      r.puts? (made requests) = some label ∨ r.event? = none ∧ Waits requests label := by
  constructor
  · rintro ⟨before, after, hputs, hnone⟩
    rcases puts_append_singleton.mp hputs with ⟨front, rfl, hfront⟩ | ⟨-, -, hputs⟩
    · rw [written_append, written_singleton, List.append_eq_nil_iff, Option.toList_eq_nil_iff]
        at hnone
      exact .inr ⟨hnone.2, before, front, hfront, hnone.1⟩
    · exact .inl hputs
  · rintro (hputs | ⟨hevent, before, after, hputs, hnone⟩)
    · exact ⟨requests, [], puts_append_singleton.mpr (.inr ⟨rfl, rfl, hputs⟩), rfl⟩
    · refine ⟨before, after ++ [r], puts_append_singleton.mpr (.inl ⟨after, rfl, hputs⟩), ?_⟩
      rw [written_append, written_singleton, hnone, hevent]
      rfl

/-- Requests that write nothing leave all places alone. -/
theorem placeOf_append_singleton {r : Request} (hevent : r.event? = none) :
    PlaceOf (requests ++ [r]) label place ↔ PlaceOf requests label place := by
  have hsame : ∀ front, written (front ++ [r]) = written front := fun front => by
    rw [written_append, written_singleton, hevent]
    exact List.append_nil _
  constructor
  · rintro ⟨before, after, delta, c, rest, hputs, hwritten, hplace, hlast⟩
    rcases puts_append_singleton.mp hputs with ⟨front, rfl, hfront⟩ | ⟨-, rfl, -⟩
    · refine ⟨before, front, delta, c, rest, hfront, (hsame front).symm.trans hwritten, hplace,
        fun before' after' hputs' hlater => (hsame after').symm.trans ?_⟩
      exact hlast before' _ (puts_append_singleton.mpr (.inl ⟨after', rfl, hputs'⟩)) hlater
    · cases hwritten
  · rintro ⟨before, after, delta, c, rest, hputs, hwritten, hplace, hlast⟩
    refine ⟨before, after ++ [r], delta, c, rest,
      puts_append_singleton.mpr (.inl ⟨after, rfl, hputs⟩), (hsame after).trans hwritten, hplace,
      fun before' after' hputs' hlater => ?_⟩
    rcases puts_append_singleton.mp hputs' with ⟨front, rfl, hfront⟩ | ⟨-, rfl, -⟩
    · exact (hsame front).trans (hlast before' front hfront hlater)
    · rfl

section Event

variable {delta : UInt32} {c : Command}

theorem written_append_event (front : List Request) :
    written (front ++ [.line (.event delta c)]) = written front ++ [(delta, c)] :=
  written_append front _

theorem written_append_event_ne_nil (front : List Request) :
    written (front ++ [.line (.event delta c)]) ≠ [] := by
  rw [written_append_event]
  exact List.append_ne_nil_of_right_ne_nil _ (List.cons_ne_nil _ _)

/-- An event is no placement, and stands behind all there are. -/
theorem puts_append_event :
    Puts (requests ++ [.line (.event delta c)]) label before after ↔
      ∃ front, after = front ++ [.line (.event delta c)] ∧ Puts requests label before front := by
  refine puts_append_singleton.trans (or_iff_left ?_)
  rintro ⟨-, -, hputs⟩
  cases hputs

/-- With one more event, the last placement of all has its place. -/
theorem PlaceOf.last_of_append_event
    (h : PlaceOf (requests ++ [.line (.event delta c)]) label place) :
    ∃ before after wait first rest, Puts requests label before after ∧
      written after ++ [(delta, c)] = (wait, first) :: rest ∧
        place = (eventBytes (written before)).length + (Vlq.encode wait).length ∧
          ∀ before' after', Puts requests label before' after' →
            before'.length ≤ before.length := by
  obtain ⟨before, after, wait, first, rest, hputs, hwritten, hplace, hlast⟩ := h
  obtain ⟨front, rfl, hfront⟩ := puts_append_event.mp hputs
  rw [written_append_event] at hwritten
  refine ⟨before, front, wait, first, rest, hfront, hwritten, hplace, fun before' after' h' => ?_⟩
  by_contra hlater
  exact written_append_event_ne_nil after'
    (hlast before' _ (puts_append_event.mpr ⟨after', rfl, h'⟩) (Nat.lt_of_not_le hlater))

/-- Labels that wait have their place at the event. -/
theorem Waits.placeOf (h : Waits requests label) :
    PlaceOf (requests ++ [.line (.event delta c)]) label
      ((eventBytes (written requests)).length + (Vlq.encode delta).length) := by
  obtain ⟨before, after, hputs, hnone⟩ := h
  obtain ⟨before, after, hputs, hnone, hlast⟩ := hputs.exists_last (p := (written · = [])) hnone
  have hwritten := hputs.written_eq
  rw [hnone, List.append_nil] at hwritten
  refine ⟨before, after ++ [_], delta, c, [], puts_append_event.mpr ⟨after, rfl, hputs⟩,
    by rw [written_append_event, hnone]; rfl, by rw [hwritten], fun before' after' h' hlater => ?_⟩
  obtain ⟨front, rfl, hfront⟩ := puts_append_event.mp h'
  exact absurd (hlast before' front hfront (hputs.written_eq_nil hfront hlater.le hnone))
    (Nat.not_le.mpr hlater)

/-- All others keep theirs. -/
theorem PlaceOf.append_event (h : PlaceOf requests label place)
    (hwaits : ¬ Waits requests label) :
    PlaceOf (requests ++ [.line (.event delta c)]) label place := by
  obtain ⟨before, after, wait, first, rest, hputs, hwritten, hplace, hlast⟩ := h
  refine ⟨before, after ++ [_], wait, first, rest ++ [(delta, c)],
    puts_append_event.mpr ⟨after, rfl, hputs⟩, by rw [written_append_event, hwritten]; rfl, hplace,
    fun before' after' h' hlater => ?_⟩
  obtain ⟨front, rfl, hfront⟩ := puts_append_event.mp h'
  exact absurd ⟨before', front, hfront, hlast before' front hfront hlater⟩ hwaits

/-- An event is the place of all labels that wait for it, and of no other. -/
theorem placeOf_append_event :
    PlaceOf (requests ++ [.line (.event delta c)]) label place ↔
      Waits requests label ∧
          place = (eventBytes (written requests)).length + (Vlq.encode delta).length ∨
        ¬ Waits requests label ∧ PlaceOf requests label place := by
  constructor
  · intro h
    obtain ⟨before, after, wait, first, rest, hputs, hwritten, rfl, hlast⟩ :=
      h.last_of_append_event
    rcases hfirst : written after with _ | ⟨event, others⟩
    · rw [hfirst] at hwritten
      cases hwritten
      exact .inl ⟨⟨before, after, hputs, hfirst⟩,
        by rw [hputs.written_eq, hfirst, List.append_nil]⟩
    · rw [hfirst] at hwritten
      cases hwritten
      refine .inr ⟨?_, before, after, wait, first, others, hputs, hfirst, rfl,
        fun before' after' h' hlater =>
          absurd hlater (Nat.not_lt.mpr (hlast before' after' h'))⟩
      rintro ⟨before', after', h', hnone⟩
      have hnone := h'.written_eq_nil hputs (hlast before' after' h') hnone
      rw [hfirst] at hnone
      cases hnone
  · rintro (⟨hwaits, rfl⟩ | ⟨hwaits, hplace⟩)
    · exact hwaits.placeOf
    · exact hplace.append_event hwaits

end Event

end Placements

/-! ## The assembler -/

/-- What an assembler holds of the requests made to it: the events, the number of labels,
which of them wait and which have a place. -/
structure Kept (a : Assembler) (requests : List Request) : Prop where
  bytes : a.bytes = (eventBytes (written requests)).toArray
  size : a.labels.size = made requests
  waiting : ∀ label, (∃ w ∈ a.waiting, w.toNat = label) ↔ Waits requests label
  places : ∀ label place, a.labels[label]? = some (some place) ↔ PlaceOf requests label place

theorem kept_nil (header : TrackHeader) : Kept { header } [] where
  bytes := rfl
  size := rfl
  waiting _ := iff_of_false (by simp) fun ⟨_, _, ⟨_, h, _⟩, _⟩ => by simp at h
  places _ _ := iff_of_false (by simp) fun ⟨_, _, _, _, _, ⟨_, h, _⟩, _⟩ => by simp at h

/-- A request that writes nothing makes labels and lets labels wait. -/
theorem ask_of_event?_none {a : Assembler} {r : Request} (h : r.event? = none) :
    (a.ask r).bytes = a.bytes ∧
      (a.ask r).labels = a.labels ++ Array.replicate (if r.makes then 1 else 0) none ∧
        ∀ label, (∃ w ∈ (a.ask r).waiting, w.toNat = label) ↔
          r.puts? a.labels.size = some label ∨ ∃ w ∈ a.waiting, w.toNat = label := by
  match r with
  | .line .reserve => exact ⟨rfl, rfl, fun _ => (or_iff_right nofun).symm⟩
  | .line (.place l) =>
    show (a.place l).bytes = _ ∧ (a.place l).labels = _ ∧ ∀ label,
      (∃ w ∈ (a.place l).waiting, w.toNat = label) ↔ _
    unfold Assembler.place Request.puts?
    split
    · next hmade => exact ⟨rfl, rfl, by simp [hmade]⟩
    · next hmade => exact ⟨rfl, rfl, by simp [hmade]⟩
  | .label =>
    have hmade : a.label.2 = { a with
        labels := a.labels.push none
        waiting := UInt16.ofNat a.labels.size :: a.waiting } := by
      refine if_pos ?_
      show (UInt16.ofNat a.labels.size).toNat < (a.labels.push none).size
      rw [UInt16.toNat_ofNat', Array.size_push]
      exact Nat.lt_succ_of_le (Nat.mod_le _ _)
    show a.label.2.bytes = _ ∧ a.label.2.labels = _ ∧ ∀ label,
      (∃ w ∈ a.label.2.waiting, w.toNat = label) ↔ _
    rw [hmade]
    refine ⟨rfl, rfl, fun label => ?_⟩
    show (∃ w ∈ _ :: a.waiting, w.toNat = label) ↔ some _ = some label ∨ _
    rw [Option.some.injEq, List.exists_mem_cons_iff]

theorem size_foldl_setIfInBounds {place : Nat} : ∀ (waiting : List UInt16)
    {labels : Array (Option Nat)},
    (waiting.foldl (fun labels label => labels.setIfInBounds label.toNat (some place))
      labels).size = labels.size
  | [], _ => rfl
  | _ :: waiting, _ => (size_foldl_setIfInBounds waiting).trans Array.size_setIfInBounds

theorem made_append_singleton (requests : List Request) (r : Request) :
    made (requests ++ [r]) = made requests + if r.makes then 1 else 0 := by
  rw [made_append, made_singleton]

theorem Kept.ask_of_event?_none {a : Assembler} {requests : List Request} (h : a.Kept requests)
    {r : Request} (hevent : r.event? = none) : (a.ask r).Kept (requests ++ [r]) := by
  obtain ⟨hbytes, hlabels, hwaiting⟩ := Assembler.ask_of_event?_none (a := a) hevent
  refine ⟨?_, ?_, fun label => ?_, fun label place => ?_⟩
  · rw [hbytes, h.bytes, written_append, written_singleton, hevent]
    exact congrArg _ (congrArg _ (List.append_nil _).symm)
  · rw [hlabels, made_append_singleton, Array.size_append, Array.size_replicate, h.size]
  · rw [hwaiting, waits_append_singleton, h.waiting, h.size]
    exact or_congr_right (and_iff_right hevent).symm
  · rw [placeOf_append_singleton hevent, ← h.places, hlabels, Array.getElem?_append]
    split
    · rfl
    · next hnew =>
      rw [Array.getElem?_replicate, Array.getElem?_eq_none (Nat.le_of_not_lt hnew)]
      split <;> simp

theorem Kept.ask_event {a : Assembler} {requests : List Request} (h : a.Kept requests)
    (delta : UInt32) (c : Command) :
    (a.ask (.line (.event delta c))).Kept (requests ++ [.line (.event delta c)]) := by
  have hstart : a.bytes ++ Vlq.encode delta =
      (eventBytes (written requests) ++ Vlq.encode delta).toArray := by
    rw [h.bytes]
    simp
  have hsize : (a.bytes ++ Vlq.encode delta).size =
      (eventBytes (written requests)).length + (Vlq.encode delta).length := by
    rw [hstart, List.size_toArray, List.length_append]
  refine ⟨?_, ?_, fun label => ?_, fun label place => ?_⟩
  · show a.bytes ++ Vlq.encode delta ++ c.toBytes = _
    rw [hstart, written_append, eventBytes_append]
    simp [eventBytes, written, Request.event?, Line.event?]
  · show (a.waiting.foldl _ a.labels).size = _
    rw [size_foldl_setIfInBounds, made_append_singleton, ← h.size]
    rfl
  · rw [waits_append_singleton]
    refine iff_of_false ?_ ?_
    · rintro ⟨w, hw, -⟩
      cases hw
    · rintro (hputs | ⟨hnone, -⟩)
      · cases hputs
      · cases hnone
  · show (a.waiting.foldl _ a.labels)[label]? = _ ↔ _
    rw [getElem?_foldl_setIfInBounds, placeOf_append_event, ← h.waiting, ← h.places, ← hsize]
    split
    · next hwaits =>
      have hin : label < a.labels.size := by
        obtain ⟨before, after, hputs, -⟩ := (h.waiting label).mp hwaits
        exact h.size ▸ hputs.lt_made
      rw [Array.getElem?_eq_getElem hin, Option.map_some]
      simp only [hwaits, true_and, not_true_eq_false, false_and, or_false, Option.some.injEq]
      exact eq_comm
    · next hwaits =>
      simp only [hwaits, false_and, not_false_eq_true, true_and, false_or]

theorem Kept.ask {a : Assembler} {requests : List Request} (h : a.Kept requests) (r : Request) :
    (a.ask r).Kept (requests ++ [r]) := by
  match r with
  | .line (.event delta c) => exact h.ask_event delta c
  | .line .reserve | .line (.place _) | .label => exact h.ask_of_event?_none rfl

theorem kept_foldl (header : TrackHeader) (requests : List Request) :
    (requests.foldl ask { header }).Kept requests := by
  suffices ∀ (rest before : List Request) (a : Assembler), a.Kept before →
      (rest.foldl ask a).Kept (before ++ rest) from this requests [] _ (kept_nil header)
  intro rest
  induction rest with
  | nil => exact fun before a h => (List.append_nil before).symm ▸ h
  | cons r rest ih =>
    intro before a h
    have hrest := ih (before ++ [r]) (a.ask r) (h.ask r)
    rwa [List.append_assoc] at hrest

section Assembled

variable (header : TrackHeader) (requests : List Request)

theorem bytes_assemble :
    (assemble header requests).bytes = (eventBytes (written requests)).toArray :=
  (kept_foldl header requests).bytes

theorem size_labels_assemble : (assemble header requests).labels.size = made requests :=
  (Array.size_map ..).trans (kept_foldl header requests).size

/-- Every label has its place or stands for the end of the stream. -/
theorem label_assemble {label place : Nat} (h : label < made requests) :
    (assemble header requests).labels[label]? = some place ↔
      PlaceOf requests label place ∨
        Unplaced requests label ∧ place = (assemble header requests).bytes.size := by
  have hkept := kept_foldl header requests
  have hin : label < (requests.foldl ask { header }).labels.size := hkept.size ▸ h
  have hplaces := hkept.places label
  have hunplaced := @exists_placeOf_iff requests label
  simp only [← hplaces, Array.getElem?_eq_getElem hin, Option.some.injEq] at hunplaced ⊢
  show ((requests.foldl ask { header }).labels.map _)[label]? = _ ↔ _
  rw [Array.getElem?_map, Array.getElem?_eq_getElem hin, Option.map_some, Option.some.injEq]
  cases hlabel : (requests.foldl ask { header }).labels[label] with
  | none =>
    rw [hlabel] at hunplaced
    simp only [reduceCtorEq, exists_false, false_iff, not_not] at hunplaced
    simp [hunplaced, assemble, build, eq_comm]
  | some at' =>
    rw [hlabel] at hunplaced
    simp only [Option.some.injEq, exists_eq', true_iff] at hunplaced
    simp [hunplaced]

/-- A label stands for no place in the stream just if nothing was written after it was put
anywhere. -/
theorem size_le_label_iff {label : Nat} (h : label < (assemble header requests).labels.size) :
    (assemble header requests).bytes.size ≤ (assemble header requests).labels[label] ↔
      Unplaced requests label := by
  have hmade : label < made requests := size_labels_assemble header requests ▸ h
  have hlabel := (label_assemble header requests hmade).mp (Array.getElem?_eq_getElem h)
  constructor
  · intro hend
    rcases hlabel with hplace | ⟨hunplaced, -⟩
    · have hless := hplace.lt
      rw [bytes_assemble, List.size_toArray] at hend
      omega
    · exact hunplaced
  · intro hunplaced
    rcases hlabel with hplace | ⟨-, hsize⟩
    · exact absurd hunplaced (exists_placeOf_iff.mp ⟨_, hplace⟩)
    · exact hsize.ge

theorem findIdx?_labels_eq_none_iff :
    (assemble header requests).labels.findIdx? ((assemble header requests).bytes.size ≤ ·) = none ↔
      ∀ label < made requests, ¬ Unplaced requests label := by
  rw [Array.findIdx?_eq_none_iff, ← size_labels_assemble header requests]
  simp only [decide_eq_false_iff_not]
  constructor
  · intro h label hin hunplaced
    exact h _ (Array.getElem_mem hin) ((size_le_label_iff header requests hin).mpr hunplaced)
  · intro h place hplace hend
    obtain ⟨label, hin, rfl⟩ := Array.getElem_of_mem hplace
    exact h label hin ((size_le_label_iff header requests hin).mp hend)

theorem findIdx?_labels_eq_some_iff {label : Nat} :
    (assemble header requests).labels.findIdx? ((assemble header requests).bytes.size ≤ ·) =
        some label ↔
      label < made requests ∧ Unplaced requests label ∧
        ∀ other < label, ¬ Unplaced requests other := by
  rw [Array.findIdx?_eq_some_iff_getElem, ← size_labels_assemble header requests]
  simp only [decide_eq_true_eq]
  constructor
  · rintro ⟨hin, hend, hbefore⟩
    refine ⟨hin, (size_le_label_iff header requests hin).mp hend, fun other hless hunplaced => ?_⟩
    exact hbefore other hless
      ((size_le_label_iff header requests (hless.trans hin)).mpr hunplaced)
  · rintro ⟨hin, hunplaced, hbefore⟩
    refine ⟨hin, (size_le_label_iff header requests hin).mpr hunplaced, fun other hless hend => ?_⟩
    exact hbefore other hless ((size_le_label_iff header requests (hless.trans hin)).mp hend)

end Assembled

end Assembler

/-! ## Arguments -/

/-- A word is its two bytes, the low one first. -/
theorem word_wordBytes (word : UInt16) :
    word.toUInt8.toUInt16 + (256 : UInt16) * (word >>> 8).toUInt8.toUInt16 = word := by
  have hbound := word.toNat_lt
  have hhigh : (word >>> 8).toNat = word.toNat / 256 := by
    rw [UInt16.toNat_shiftRight]
    exact Nat.shiftRight_eq_div_pow _ 8
  refine UInt16.toNat_inj.mp ?_
  simp only [UInt16.toNat_add, UInt16.toNat_mul, UInt8.toNat_toUInt16, UInt16.toNat_toUInt8, hhigh,
    UInt16.reduceToNat]
  omega

namespace Command

/-- Every argument of a command is read at its place: a byte as it is, a word of either kind,
and a label as the word or the signed word that it is. The silent driver reads the low byte
of a patch. -/
structure ArgumentsKept : Prop where
  patchChange : ∀ patch, (patchChange patch).word 1 = patch ∧
    (Command.patchChange patch).byte 1 = patch.toUInt8
  pitchMod : ∀ pitch, (pitchMod pitch).signedWord 1 = pitch
  volumeMod : ∀ volume, (volumeMod volume).byte 1 = volume
  panMod : ∀ pan, (panMod pan).byte 1 = pan
  reverbMod : ∀ depth, (reverbMod depth).byte 1 = depth
  noteOn : ∀ note velocity, (noteOn note velocity).byte 1 = note ∧
    (Command.noteOn note velocity).byte 2 = velocity
  noteOff : ∀ note, (noteOff note).byte 1 = note
  statusMark : ∀ kind value, (statusMark kind value).byte 1 = kind ∧
    (Command.statusMark kind value).signedWord 2 = value
  gateJump : ∀ gate first label, (gateJump gate first label).byte 1 = gate ∧
    (Command.gateJump gate first label).byte 2 = first ∧
      (Command.gateJump gate first label).word 3 = label
  iterJump : ∀ counter first label, (iterJump counter first label).byte 1 = counter ∧
    (Command.iterJump counter first label).byte 2 = first ∧
      (Command.iterJump counter first label).word 3 = label
  resetGates : ∀ gate, (resetGates gate).byte 1 = gate
  resetIters : ∀ counter, (resetIters counter).byte 1 = counter
  writeIter : ∀ counter value, (writeIter counter value).byte 1 = counter ∧
    (Command.writeIter counter value).byte 2 = value
  tempo : ∀ qpm, (seqTempo qpm).word 1 = qpm ∧ (trackTempo qpm).word 1 = qpm
  gosub : ∀ label, (seqGosub label).word 1 = label ∧ (trackGosub label).word 1 = label
  jump : ∀ label, (seqJump label).word 1 = label ∧ (trackJump label).word 1 = label

theorem argumentsKept : ArgumentsKept where
  patchChange patch := ⟨word_wordBytes patch, rfl⟩
  pitchMod pitch := congrArg UInt16.toInt16 (word_wordBytes pitch.toUInt16)
  volumeMod _ := rfl
  panMod _ := rfl
  reverbMod _ := rfl
  noteOn _ _ := ⟨rfl, rfl⟩
  noteOff _ := rfl
  statusMark _ value := ⟨rfl, congrArg UInt16.toInt16 (word_wordBytes value.toUInt16)⟩
  gateJump _ _ label := ⟨rfl, rfl, word_wordBytes label⟩
  iterJump _ _ label := ⟨rfl, rfl, word_wordBytes label⟩
  resetGates _ := rfl
  resetIters _ := rfl
  writeIter _ _ := ⟨rfl, rfl⟩
  tempo qpm := ⟨word_wordBytes qpm, word_wordBytes qpm⟩
  gosub label := ⟨word_wordBytes label, word_wordBytes label⟩
  jump label := ⟨word_wordBytes label, word_wordBytes label⟩

end Command

/-! ## Admission of labels -/

/-- The only entry that may be flawed decides. -/
theorem findFlaw_eq_of_others {α : Type} {flaw : Nat → α → Option EngineError} :
    ∀ {l : List α} {index k : Nat} {a : α}, l[k]? = some a →
      (∀ j b, j ≠ k → l[j]? = some b → flaw (index + j) b = none) →
        findFlaw flaw index l = flaw (index + k) a
  | first :: rest, index, 0, a, hk, hothers => by
    obtain rfl : first = a := Option.some.inj hk
    have hrest : findFlaw flaw (index + 1) rest = none := findFlaw_eq_none.mpr fun j b hb => by
      have hnone := hothers (j + 1) b (Nat.succ_ne_zero j) hb
      rwa [show index + 1 + j = index + (j + 1) by omega]
    rw [findFlaw, hrest, Option.or_none, Nat.add_zero]
  | first :: rest, index, k + 1, a, hk, hothers => by
    have hrest : findFlaw flaw (index + 1) rest = flaw (index + 1 + k) a :=
      findFlaw_eq_of_others hk fun j b hj hb => by
        have hnone := hothers (j + 1) b (fun h => hj (Nat.succ.inj h)) hb
        rwa [show index + 1 + j = index + (j + 1) by omega]
    have hfirst : flaw index first = none := hothers 0 first (Nat.succ_ne_zero k).symm rfl
    rw [findFlaw, hfirst, Option.none_or, hrest, show index + 1 + k = index + (k + 1) by omega]

namespace SoundModule

/-- The module with the label table of one track emptied. -/
def bare (m : SoundModule) (sequence track : Nat) : SoundModule :=
  { m with
    sequences := m.sequences.modify sequence fun tracks =>
      tracks.modify track fun stream => { stream with labels := #[] } }

/-- Where nothing but the labels of one track is flawed, the first label that stands for no
place in its stream is the flaw. -/
theorem flaw?_of_bare {m : SoundModule} {sequence track : Nat} {stream : TrackStream}
    (htrack : m.track? sequence track = some stream)
    (hbare : (m.bare sequence track).flaw? = none) :
    m.flaw? = (stream.labels.findIdx? (stream.bytes.size ≤ ·)).map
      (EngineError.badLabel sequence track) := by
  obtain ⟨tracks, htracks, hstream⟩ := Option.bind_eq_some_iff.mp htrack
  unfold flaw? at hbare
  obtain ⟨hlimits, hrest⟩ := Option.or_eq_none_iff.mp hbare
  obtain ⟨hsequences, hpatches⟩ := Option.or_eq_none_iff.mp hrest
  have hlimits : m.limits.flaw? = none := hlimits
  have hpatches : m.patches.flaw? = none := hpatches
  rw [findFlaw_eq_none] at hsequences
  simp only [Array.getElem?_toList, Nat.zero_add, bare, Array.getElem?_modify] at hsequences
  have hsequence := hsequences sequence
  rw [if_pos rfl, htracks] at hsequence
  obtain ⟨hsize, hstreams⟩ := sequenceFlaw?_eq_none_iff.mp (hsequence _ rfl)
  simp only [Array.size_modify, Array.getElem?_modify] at hsize hstreams
  -- all sequences but one are as they were, and so are its tracks but one
  have hothers : findFlaw sequenceFlaw? 0 m.sequences.toList = sequenceFlaw? sequence tracks := by
    have hkept := @findFlaw_eq_of_others _ sequenceFlaw? m.sequences.toList 0 sequence tracks
      (by rwa [Array.getElem?_toList]) fun other tracks hother hat => by
        rw [Array.getElem?_toList] at hat
        have hnone := hsequences other tracks
        rw [if_neg (Ne.symm hother)] at hnone
        rw [Nat.zero_add]
        exact hnone hat
    rwa [Nat.zero_add] at hkept
  have hflaw : sequenceFlaw? sequence tracks = stream.flaw? sequence track := by
    have hkept := @findFlaw_eq_of_others _ (TrackStream.flaw? sequence) tracks.toList 0 track stream
      (by rwa [Array.getElem?_toList]) fun other stream hother hat => by
        rw [Array.getElem?_toList] at hat
        have hfine := hstreams other stream
        rw [if_neg (Ne.symm hother)] at hfine
        exact TrackStream.flaw?_eq_none_iff.mpr (hfine hat)
    rw [Nat.zero_add] at hkept
    exact (if_neg (Nat.not_lt.mpr hsize)).trans hkept
  have hdepth : stream.header.returnDepth.toNat ≤ maxReturnDepth := by
    have hfine := hstreams track
    rw [if_pos rfl, hstream] at hfine
    exact (hfine _ rfl).1
  rw [flaw?, hlimits, hpatches, hothers, hflaw, Option.none_or, Option.or_none]
  exact if_neg (Nat.not_lt.mpr hdepth)

end SoundModule

/-! ## The whole of it -/

namespace Assembler

/-- What requests write is read back as it was written, and ends with the stream; the
arguments of commands are read where they were written. Every label stands for the first
command behind the last of its placements that has one behind it, or for the end of the
stream if no placement has. An engine refuses a module, of which nothing else is flawed, for
the first label of that kind, and accepts it where there is none. -/
theorem disassemble_assemble (header : TrackHeader) (requests : List Request) :
    (assemble header requests).disassemble = some (written requests) ∧
    Command.ArgumentsKept ∧
    (assemble header requests).labels.size = made requests ∧
    (∀ label < made requests, ∀ place,
      (assemble header requests).labels[label]? = some place ↔
        PlaceOf requests label place ∨
          Unplaced requests label ∧ place = (assemble header requests).bytes.size) ∧
    (∀ label < made requests,
      (assemble header requests).labels[label]? = some (assemble header requests).bytes.size ↔
        Unplaced requests label) ∧
    ∀ {σ : Type} [SoundChip σ] (chip : σ) (m : SoundModule) (sequence track : Nat),
      m.track? sequence track = some (assemble header requests) →
      (m.bare sequence track).flaw? = none →
      (∀ label, Engine.make m chip = .error (.badLabel sequence track label) ↔
        label < made requests ∧ Unplaced requests label ∧
          ∀ other < label, ¬ Unplaced requests other) ∧
      ((∃ e, Engine.make m chip = .ok e) ↔ ∀ label < made requests, ¬ Unplaced requests label) := by
  have hsize := size_labels_assemble header requests
  refine ⟨?_, Command.argumentsKept, hsize,
    fun label hlabel place => label_assemble header requests hlabel, fun label hlabel => ?_, ?_⟩
  · exact @TrackStream.eventsFrom?_eventBytes _ _ [] (bytes_assemble header requests)
  · rw [label_assemble header requests hlabel]
    refine ⟨?_, fun hunplaced => .inr ⟨hunplaced, rfl⟩⟩
    rintro (hplace | ⟨hunplaced, -⟩)
    · have hless := hplace.lt
      rw [bytes_assemble, List.size_toArray] at hless
      exact absurd hless (Nat.lt_irrefl _)
    · exact hunplaced
  · intro σ _ chip m sequence track htrack hbare
    have hflaw := SoundModule.flaw?_of_bare htrack hbare
    refine ⟨fun label => ?_, ?_⟩
    · rw [Engine.make_eq_error_iff, hflaw, Option.map_eq_some_iff]
      simp only [EngineError.badLabel.injEq, true_and, exists_eq_right]
      exact findIdx?_labels_eq_some_iff header requests
    · rw [Engine.exists_make_iff, hflaw, Option.map_eq_none_iff]
      exact findIdx?_labels_eq_none_iff header requests

/-- A label before a note, and one that is reserved and never put anywhere. -/
def halfPlaced : List Request := [.label, .line (.event 5 (.noteOn 60 100)), .line .reserve]

/-- The note is read back, the first label stands for it behind its delta time, and the second
for nothing: an engine refuses the module for it. -/
theorem disassemble_assemble_halfPlaced :
    (assemble {} halfPlaced).disassemble = some [(5, .noteOn 60 100)] ∧
      PlaceOf halfPlaced 0 1 ∧ Unplaced halfPlaced 1 ∧
      Engine.make { sequences := #[#[assemble {} halfPlaced]] } ({} : RecorderChip) =
        .error (.badLabel 0 0 1) := by
  obtain ⟨hread, -, -, hplace, hend, hmake⟩ := disassemble_assemble {} halfPlaced
  have hplaced : ¬ Unplaced halfPlaced 0 := fun h =>
    absurd ((hend 0 (by decide)).mpr h) (by decide +kernel)
  have hfirst : PlaceOf halfPlaced 0 1 :=
    ((hplace 0 (by decide) 1).mp (by decide +kernel)).resolve_right fun h => hplaced h.1
  have hsecond : Unplaced halfPlaced 1 := (hend 1 (by decide)).mp (by decide +kernel)
  have hflaw := (hmake ({} : RecorderChip) { sequences := #[#[assemble {} halfPlaced]] } 0 0 rfl
    (by decide +kernel)).1 1
  refine ⟨hread, hfirst, hsecond, hflaw.mpr ⟨by decide, hsecond, fun other hother => ?_⟩⟩
  rwa [Nat.lt_one_iff.mp hother]

end Assembler

end SoundSequencer
