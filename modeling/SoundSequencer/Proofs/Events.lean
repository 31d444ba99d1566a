/-
SoundSequencer.Proofs.Events — where events and commands stand in a stream.

* `Vlq.decode_encode` reads a delta time back from in front of anything.
* A `Script` is what is asked of an assembler; `Script.stream` is what that
  builds and `Script.events` are the events written.
* `EventAt` and `CommandAt` say where events start and where commands stand.
  One follows the other: `EventAt.event?`, `CommandAt.next`.
* Every label of a script stands for a command: `Script.commandAt_of_label?`.
-/
import Mathlib.Algebra.Group.Nat.Defs
import Mathlib.Tactic.Common
import SoundSequencer.Track.Assembler

namespace SoundSequencer

/-! ## Delta times -/

namespace Vlq

theorem prependGroups_append (rest : List UInt8) : ∀ (groups r : Nat) (tail : List UInt8),
    prependGroups groups r tail ++ rest = prependGroups groups r (tail ++ rest)
  | 0, _, _ => rfl
  | groups + 1, r, tail => by
    unfold prependGroups
    split
    · rfl
    · rw [prependGroups_append rest groups, List.cons_append]

theorem div_lt_of_groups {groups r : Nat} (h : r < 128 ^ (groups + 1)) :
    r / 128 < 128 ^ groups := by
  rw [Nat.pow_succ] at h
  exact Nat.div_lt_of_lt_mul (by omega)

/-- All groups of a quantity but its last fit in front of that. -/
theorem toNat_div_lt (value : UInt32) : value.toNat / 128 < 128 ^ (maxLength - 1) := by
  have hbound := value.toNat_lt
  show _ < 128 ^ 4
  omega

/-- The groups in front of a quantity are read as the value that they hold. -/
theorem decodeFrom_prependGroups : ∀ (groups r : Nat), r < 128 ^ groups → ∃ count, ∀ tail,
    (prependGroups groups r tail).length = count + tail.length ∧
      decodeFrom 0 0 (prependGroups groups r tail) = decodeFrom (UInt32.ofNat r) count tail
  | 0, r, h => by
    obtain rfl : r = 0 := by simpa using h
    exact ⟨0, fun tail => ⟨(Nat.zero_add _).symm, rfl⟩⟩
  | groups + 1, r, h => by
    by_cases hr : r = 0
    · subst hr
      exact ⟨0, fun tail => ⟨(Nat.zero_add _).symm, rfl⟩⟩
    · have hless := div_lt_of_groups h
      obtain ⟨count, hcount⟩ := decodeFrom_prependGroups groups (r / 128) hless
      have hgoes : continues (UInt8.ofNat (r % 128 + 128)) = true := by
        have hbyte : r % 128 + 128 < 256 := by omega
        simp [continues, UInt8.le_iff_toNat_le, Nat.mod_eq_of_lt hbyte]
      have hvalue : shiftIn (UInt32.ofNat (r / 128)) (UInt8.ofNat (r % 128 + 128)) =
          UInt32.ofNat r := by
        have hgroup : (r % 128 + 128) % 256 % 128 = r % 128 := by omega
        refine UInt32.toNat_inj.mp ?_
        simp only [shiftIn, UInt32.toNat_add, UInt32.toNat_mul, UInt32.toNat_ofNat',
          UInt8.toNat_toUInt32, UInt8.toNat_mod, UInt8.toNat_ofNat', UInt32.reduceToNat,
          UInt8.reduceToNat, Nat.reducePow, hgroup]
        omega
      refine ⟨count + 1, fun tail => ?_⟩
      obtain ⟨hlength, hdecode⟩ := hcount (UInt8.ofNat (r % 128 + 128) :: tail)
      unfold prependGroups
      rw [if_neg hr, hlength, hdecode, decodeFrom, hgoes, hvalue, List.length_cons]
      exact ⟨by omega, rfl⟩

/-- A written quantity is read back, whatever stands behind it. -/
theorem decode_encode (value : UInt32) (rest : List UInt8) :
    decode (encode value ++ rest) = some (value, (encode value).length) := by
  have hbound := value.toNat_lt
  have hless := toNat_div_lt value
  obtain ⟨count, hcount⟩ := decodeFrom_prependGroups (maxLength - 1) (value.toNat / 128) hless
  have hlength := (hcount [UInt8.ofNat (value.toNat % 128)]).1
  have hends : continues (UInt8.ofNat (value.toNat % 128)) = false := by
    have hbyte : value.toNat % 128 % 256 < 128 := by omega
    simp [continues, UInt8.le_iff_toNat_le, hbyte]
  have hvalue : shiftIn (UInt32.ofNat (value.toNat / 128)) (UInt8.ofNat (value.toNat % 128)) =
      value := by
    refine UInt32.toNat_inj.mp ?_
    simp only [shiftIn, UInt32.toNat_add, UInt32.toNat_mul, UInt32.toNat_ofNat',
      UInt8.toNat_toUInt32, UInt8.toNat_mod, UInt8.toNat_ofNat', UInt32.reduceToNat,
      UInt8.reduceToNat, Nat.reducePow]
    omega
  unfold decode encode
  rw [prependGroups_append, (hcount _).2, hlength, List.singleton_append, decodeFrom, hends,
    hvalue]
  rfl

theorem encode_ne_nil (value : UInt32) : encode value ≠ [] := by
  intro h
  have hdecode := decode_encode value []
  rw [h] at hdecode
  cases hdecode

end Vlq

/-! ## Events in a stream -/

/-- The written form of events, one after the other. -/
def eventBytes (events : List (UInt32 × Command)) : List UInt8 :=
  events.flatMap fun event => Vlq.encode event.1 ++ event.2.toBytes

/-- One of the events starts at `offset`, or they end there. -/
def EventAt (events : List (UInt32 × Command)) (offset : Nat) : Prop :=
  ∃ before after, events = before ++ after ∧ offset = (eventBytes before).length

/-- The command of one of the events, `c`, stands at `offset`. -/
def CommandAt (events : List (UInt32 × Command)) (offset : Nat) (c : Command) : Prop :=
  ∃ before delta after, events = before ++ (delta, c) :: after ∧
    offset = (eventBytes before).length + (Vlq.encode delta).length

instance (events : List (UInt32 × Command)) (offset : Nat) : Decidable (EventAt events offset) :=
  decidable_of_iff (∃ n ≤ events.length, offset = (eventBytes (events.take n)).length)
    ⟨fun ⟨n, _, h⟩ => ⟨events.take n, events.drop n, (List.take_append_drop n events).symm, h⟩, by
      rintro ⟨before, after, rfl, rfl⟩
      exact ⟨before.length, by simp, by simp⟩⟩

instance (events : List (UInt32 × Command)) (offset : Nat) :
    Decidable (∃ c, CommandAt events offset c) :=
  decidable_of_iff (∃ n < events.length, events[n]?.any fun event =>
      offset == (eventBytes (events.take n)).length + (Vlq.encode event.1).length)
    ⟨fun ⟨n, hn, h⟩ => by
        rw [List.getElem?_eq_getElem hn, Option.any_some, beq_iff_eq] at h
        refine ⟨events[n].2, events.take n, events[n].1, events.drop (n + 1), ?_, h⟩
        have hsplit := congrArg (events.take n ++ ·) (List.getElem_cons_drop hn)
        exact (hsplit.trans (List.take_append_drop n events)).symm,
        by
      rintro ⟨c, before, delta, after, rfl, rfl⟩
      exact ⟨before.length, by simp, by simp⟩⟩

theorem eventBytes_append (before after : List (UInt32 × Command)) :
    eventBytes (before ++ after) = eventBytes before ++ eventBytes after := List.flatMap_append

theorem eventAt_zero (events : List (UInt32 × Command)) : EventAt events 0 :=
  ⟨[], events, rfl, rfl⟩

/-- Behind a command, the next event starts. -/
theorem CommandAt.next {events : List (UInt32 × Command)} {offset : Nat} {c : Command}
    (h : CommandAt events offset c) : EventAt events (offset + c.toBytes.length) := by
  obtain ⟨before, delta, after, rfl, rfl⟩ := h
  refine ⟨before ++ [(delta, c)], after, by simp, ?_⟩
  simp [eventBytes, Nat.add_assoc]

theorem CommandAt.append {events : List (UInt32 × Command)} {offset : Nat} {c : Command}
    (h : CommandAt events offset c) (more : List (UInt32 × Command)) :
    CommandAt (events ++ more) offset c := by
  obtain ⟨before, delta, after, rfl, hoffset⟩ := h
  exact ⟨before, delta, after ++ more, by simp, hoffset⟩

section Reading

variable {events : List (UInt32 × Command)} {s : TrackStream}

/-- A command is read where it stands. -/
theorem CommandAt.decodeAt {offset : Nat} {c : Command} (h : CommandAt events offset c)
    (hbytes : s.bytes = (eventBytes events).toArray) :
    Command.decodeAt s.bytes offset = some c := by
  obtain ⟨before, delta, after, rfl, rfl⟩ := h
  have hsplit : eventBytes (before ++ (delta, c) :: after) =
      (eventBytes before ++ Vlq.encode delta) ++ c.toBytes ++ eventBytes after := by
    simp [eventBytes]
  rw [hbytes, hsplit, ← List.length_append]
  exact Command.decodeAt_append _ _ c

/-- Behind a delta time, a command stands. -/
theorem EventAt.event? {offset pc : Nat} {delta : UInt32} (h : EventAt events offset)
    (hbytes : s.bytes = (eventBytes events).toArray) (hevent : s.event? offset = some (delta, pc)) :
    ∃ c, CommandAt events pc c := by
  obtain ⟨before, after, rfl, rfl⟩ := h
  have hrest : s.bytes.toList.drop (eventBytes before).length = eventBytes after := by
    simp [hbytes, eventBytes_append]
  rw [TrackStream.event?, Vlq.decodeAt_eq_decode, hrest] at hevent
  match after with
  | [] => cases hevent
  | (wait, c) :: after =>
    have hdecode : Vlq.decode (eventBytes ((wait, c) :: after)) =
        some (wait, (Vlq.encode wait).length) := by
      have h := Vlq.decode_encode wait (c.toBytes ++ eventBytes after)
      rwa [← List.append_assoc] at h
    rw [hdecode] at hevent
    cases hevent
    exact ⟨c, before, _, after, rfl, rfl⟩

theorem event?_zero (hne : events ≠ []) (hbytes : s.bytes = (eventBytes events).toArray) :
    (s.event? 0).isSome = true := by
  cases events with
  | nil => exact absurd rfl hne
  | cons event after =>
    have hdecode := Vlq.decode_encode event.1 (event.2.toBytes ++ eventBytes after)
    rw [← List.append_assoc] at hdecode
    rw [TrackStream.event?, Vlq.decodeAt_eq_decode, List.drop_zero, hbytes,
      show (eventBytes (event :: after)).toArray.toList = _ from rfl]
    unfold eventBytes at hdecode ⊢
    rw [List.flatMap_cons, hdecode]
    rfl

end Reading

/-! ## Scripts -/

namespace Assembler

/-- What is asked of an assembler. -/
inductive Line where
  | reserve
  | place (label : UInt16)
  | event (delta : UInt32) (c : Command)
  deriving DecidableEq

/-- The event that a line writes. -/
def Line.event? : Line → Option (UInt32 × Command)
  | .event delta c => some (delta, c)
  | _ => none

/-- Does what a line asks. -/
def write (a : Assembler) : Line → Assembler
  | .reserve => a.reserve.2
  | .place label => a.place label
  | .event delta c => a.emit delta c

/-- The events stand in the stream, and labels with a place stand for their
commands. -/
structure Holds (a : Assembler) (events : List (UInt32 × Command)) : Prop where
  bytes : a.bytes = (eventBytes events).toArray
  labels : ∀ (i place : Nat), a.labels[i]? = some (some place) → ∃ c, CommandAt events place c

/-- A waiting label gets its place, any other keeps what it has. -/
theorem getElem?_foldl_setIfInBounds {place i : Nat} : ∀ (waiting : List UInt16)
    {labels : Array (Option Nat)},
    (waiting.foldl (fun labels label => labels.setIfInBounds label.toNat (some place))
      labels)[i]? =
        if ∃ label ∈ waiting, label.toNat = i then labels[i]?.map fun _ => some place
        else labels[i]?
  | [], _ => by simp
  | label :: waiting, labels => by
    rw [List.foldl_cons, getElem?_foldl_setIfInBounds waiting, Array.getElem?_setIfInBounds]
    by_cases hlabel : label.toNat = i
    · subst hlabel
      by_cases hsize : label.toNat < labels.size <;> simp [hsize]
    · simp [hlabel]

theorem Holds.write {a : Assembler} {events : List (UInt32 × Command)} (h : a.Holds events)
    (line : Line) : (a.write line).Holds (events ++ line.event?.toList) := by
  cases line with
  | reserve =>
    have hevents : events ++ Line.reserve.event?.toList = events := List.append_nil events
    rw [hevents]
    refine ⟨h.bytes, fun i place hi => ?_⟩
    have hold : a.labels[i]? = some (some place) := by
      have hi : (a.labels.push none)[i]? = some (some place) := hi
      rw [Array.getElem?_push] at hi
      split at hi
      · cases hi
      · exact hi
    exact h.labels i place hold
  | place label =>
    have hevents : events ++ (Line.place label).event?.toList = events := List.append_nil events
    rw [hevents]
    have hsame : (a.place label).bytes = a.bytes ∧ (a.place label).labels = a.labels := by
      unfold Assembler.place
      split <;> exact ⟨rfl, rfl⟩
    refine ⟨?_, fun i place hi => ?_⟩
    · show (a.place label).bytes = _
      rw [hsame.1, h.bytes]
    · have hi : (a.place label).labels[i]? = some (some place) := hi
      rw [hsame.2] at hi
      exact h.labels i place hi
  | event delta c =>
    have hbytes : a.bytes ++ Vlq.encode delta =
        (eventBytes events ++ Vlq.encode delta).toArray := by
      rw [h.bytes]
      simp
    refine ⟨?_, fun i place hi => ?_⟩
    · show a.bytes ++ Vlq.encode delta ++ c.toBytes = _
      rw [hbytes]
      simp [Line.event?, eventBytes]
    · have hi := (getElem?_foldl_setIfInBounds _).symm.trans hi
      split at hi
      · obtain ⟨-, -, hplace⟩ := Option.map_eq_some_iff.mp hi
        cases hplace
        refine ⟨c, events, delta, [], by simp [Line.event?], ?_⟩
        rw [hbytes]
        simp
      · obtain ⟨c', hc'⟩ := h.labels i place hi
        exact ⟨c', hc'.append _⟩

theorem Holds.foldl : ∀ (lines : List Line) {a : Assembler} {events : List (UInt32 × Command)},
    a.Holds events → (lines.foldl Assembler.write a).Holds (events ++ lines.filterMap Line.event?)
  | [], _, _, h => by simpa using h
  | line :: lines, a, events, h => by
    have hrest := Holds.foldl lines (h.write line)
    have hevents : events ++ line.event?.toList ++ lines.filterMap Line.event? =
        events ++ (line :: lines).filterMap Line.event? := by
      cases hline : line.event? <;> simp [hline]
    rwa [hevents] at hrest

end Assembler

/-- A track as it is written: its header and what is asked of the assembler. -/
structure Script where
  header : TrackHeader := {}
  lines : List Assembler.Line
  deriving DecidableEq

namespace Script

/-- The track that the assembler builds. -/
def stream (s : Script) : TrackStream :=
  (s.lines.foldl Assembler.write { header := s.header }).build

/-- The events that are written. -/
def events (s : Script) : List (UInt32 × Command) := s.lines.filterMap Assembler.Line.event?

theorem holds (s : Script) :
    (s.lines.foldl Assembler.write { header := s.header }).Holds s.events :=
  @Assembler.Holds.foldl s.lines _ [] ⟨rfl, fun _ _ h => by simp at h⟩

theorem bytes_stream (s : Script) : s.stream.bytes = (eventBytes s.events).toArray :=
  s.holds.bytes

/-- A label of an assembled track stands for a command. -/
theorem commandAt_of_label? {s : Script} {label : Int} {pc : Nat}
    (h : s.stream.label? label = some pc) : ∃ c, CommandAt s.events pc c := by
  unfold TrackStream.label? at h
  split at h
  · next i =>
    obtain ⟨hlabel, hpc⟩ := Option.filter_eq_some_iff.mp h
    have hplace : ∃ place, (s.lines.foldl Assembler.write { header := s.header }).labels[i]? =
        some place ∧ place.getD s.stream.bytes.size = pc := by
      simpa [stream, Assembler.build] using hlabel
    obtain ⟨place, hplace, rfl⟩ := hplace
    cases place with
    | none => simp at hpc
    | some place => exact s.holds.labels i place hplace
  · cases h

end Script

end SoundSequencer
