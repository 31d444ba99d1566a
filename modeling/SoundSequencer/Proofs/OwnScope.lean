/-
SoundSequencer.Proofs.OwnScope — commands for a sequence on a track that is alone in it.

* `Opcode.own` takes each command for a whole sequence to its sibling for the track alone.
  The two have the same arguments.
* `Engine.withByte` has another byte at one place of a stream. A track that does not read
  that place goes on as it does without: `nextEvent_withByte`.
* `stepTrack_withOwn` says what the sibling of a command leaves. `stepTrack_withOwn_iff` says
  in which states that is what the command leaves, and how the two differ in all others: a
  jump of the track ends its wait, and a way back may read the opcode as a delta time.
-/
import SoundSequencer.Proofs.Allocation
import SoundSequencer.Proofs.Executions
import SoundSequencer.Proofs.Stops

namespace SoundSequencer

/-! ## Siblings -/

/-- The command that does for the track at hand what `op` does for all tracks of its
sequence. -/
def Opcode.own : Opcode → Opcode
  | seqTempo => trackTempo
  | seqGosub => trackGosub
  | seqJump => trackJump
  | seqReturn => trackReturn
  | seqEnd => trackEnd
  | op => op

/-- Whether a command is for all tracks of a sequence. -/
def Opcode.isShared (op : Opcode) : Bool := op.own != op

theorem Opcode.isShared_iff {op : Opcode} : op.isShared = true ↔
    op = .seqTempo ∨ op = .seqGosub ∨ op = .seqJump ∨ op = .seqReturn ∨ op = .seqEnd := by
  cases op <;> decide

/-- No opcode looks like a byte of a delta time with more to come. -/
theorem Opcode.continues_toByte (op : Opcode) : Vlq.continues op.toByte = false := by
  cases op <;> rfl

theorem Opcode.byteLength_own (op : Opcode) : op.own.byteLength = op.byteLength := by
  cases op <;> rfl

/-- The sibling of a command, with the same arguments. -/
def Command.own (c : Command) : Command :=
  ⟨c.op.own, c.args, by rw [c.args_length, Opcode.argCount, Opcode.argCount, c.op.byteLength_own]⟩

theorem Command.op_own (c : Command) : c.own.op = c.op.own := rfl

theorem Command.length_own (c : Command) : c.own.length = c.length := c.op.byteLength_own

/-- Behind the opcode the two are the same. -/
theorem Command.byte_own (c : Command) (n : Nat) : c.own.byte (n + 1) = c.byte (n + 1) := by
  unfold Command.byte
  rw [c.length_own]
  rfl

theorem Command.word_own (c : Command) (n : Nat) : c.own.word (n + 1) = c.word (n + 1) := by
  unfold Command.word
  rw [c.byte_own, c.byte_own]

theorem Command.signedWord_own (c : Command) (n : Nat) :
    c.own.signedWord (n + 1) = c.signedWord (n + 1) := by
  unfold Command.signedWord
  rw [c.word_own]

/-- The number of a command that is read is the byte that stands there. -/
theorem Opcode.toByte_of_ofByte? {byte : UInt8} {op : Opcode} (h : ofByte? byte = some op) :
    op.toByte = byte := by
  have hlisted : ∀ n (hn : n < all.size), (all[n]).ctorIdx = n := by decide
  obtain ⟨hn, rfl⟩ := Array.getElem?_eq_some_iff.mp h
  unfold toByte
  rw [hlisted _ hn, UInt8.ofNat_toNat]

/-- A command is read from its opcode and from the bytes behind that. -/
theorem Command.decodeAt_eq_some {bytes : Array UInt8} {offset : Nat} {c : Command} :
    decodeAt bytes offset = some c ↔ bytes[offset]? = some c.op.toByte ∧
      (bytes.extract (offset + 1) (offset + 1 + c.op.argCount)).toList = c.args := by
  obtain ⟨op, args, hargs⟩ := c
  simp only [decodeAt, Option.bind_eq_bind]
  cases hbyte : bytes[offset]? with
  | none => simp
  | some byte =>
    simp only [Option.bind_some, Option.some.injEq]
    cases hop : Opcode.ofByte? byte with
    | none =>
      have hother : byte ≠ op.toByte := by
        rintro rfl
        rw [Opcode.ofByte?_toByte] at hop
        cases hop
      simp [hother]
    | some op' =>
      have hbyte' := Opcode.toByte_of_ofByte? hop
      have hsame : byte = op.toByte ↔ op' = op := by
        refine ⟨fun heq => ?_, fun heq => heq ▸ hbyte'.symm⟩
        rw [heq, Opcode.ofByte?_toByte] at hop
        exact (Option.some.inj hop).symm
      simp only [Option.bind_some, hsame]
      grind

/-- Where a command stands, its sibling comes to stand with the other opcode. -/
theorem Command.decodeAt_own {bytes : Array UInt8} {offset : Nat} {c : Command}
    (h : decodeAt bytes offset = some c) :
    decodeAt (bytes.setIfInBounds offset c.own.op.toByte) offset = some c.own := by
  rw [decodeAt_eq_some] at h ⊢
  have hin := (Array.getElem?_eq_some_iff.mp h.1).1
  have hbehind : ∀ last, (bytes.setIfInBounds offset c.own.op.toByte).extract (offset + 1) last =
      bytes.extract (offset + 1) last := by
    intro last
    refine Array.ext (by simp) fun n _ _ => ?_
    simp only [Array.getElem_extract]
    exact Array.getElem_setIfInBounds_ne _ (by omega)
  have hcount : c.own.op.argCount = c.op.argCount := by
    rw [Opcode.argCount, Opcode.argCount]
    exact congrArg (· - 1) c.op.byteLength_own
  exact ⟨by simp [hin], by rw [hbehind, hcount]; exact h.2⟩

/-! ## Delta times beside another byte -/

namespace Vlq

/-- A quantity whose last byte is exchanged. -/
theorem shiftIn_exchange {old new : UInt8} (hold : continues old = false)
    (hnew : continues new = false) (high : UInt32) :
    shiftIn high new = shiftIn high old - old.toUInt32 + new.toUInt32 := by
  simp only [continues, decide_eq_false_iff_not, UInt8.not_le] at hold hnew
  have hself : ∀ byte : UInt8, byte < 128 → byte % 128 = byte := by
    intro byte hbyte
    rw [UInt8.lt_iff_toNat_lt] at hbyte
    exact UInt8.toNat_inj.mp (by simpa using Nat.mod_eq_of_lt hbyte)
  unfold shiftIn
  rw [hself old hold, hself new hnew, UInt32.add_sub_cancel]

/-- A last byte that is exchanged changes the quantities that end with it, and no others. -/
theorem decodeAtFrom_setIfInBounds {bytes : Array UInt8} {place : Nat} {old new : UInt8}
    (hold : bytes[place]? = some old) (hends : continues old = false)
    (hends' : continues new = false) (offset fuel : Nat) (high : UInt32) (count : Nat) :
    decodeAtFrom (bytes.setIfInBounds place new) offset fuel high count =
      (decodeAtFrom bytes offset fuel high count).map fun (value, consumed) =>
        (if offset + consumed = place + 1 then value - old.toUInt32 + new.toUInt32 else value,
          consumed) := by
  have hin := (Array.getElem?_eq_some_iff.mp hold).1
  induction fuel generalizing high count with
  | zero => rfl
  | succ fuel ih =>
    unfold decodeAtFrom
    by_cases hplace : offset + count = place
    · have hend : offset + (count + 1) = place + 1 := by omega
      simp only [hplace, hold, Array.getElem?_setIfInBounds_self, hin, if_true, hends, hends',
        Bool.false_eq_true, if_false, Option.map_some, hend, shiftIn_exchange hends hends']
    · rw [Array.getElem?_setIfInBounds_ne (Ne.symm hplace)]
      cases bytes[offset + count]? with
      | none => rfl
      | some byte =>
        dsimp only
        split
        · exact ih _ _
        · rw [Option.map_some, if_neg (by omega)]

end Vlq

/-! ## Streams and modules with another byte -/

namespace TrackStream

/-- The stream with another byte at `place`. -/
def withByte (s : TrackStream) (place : Nat) (byte : UInt8) : TrackStream :=
  { s with bytes := s.bytes.setIfInBounds place byte }

@[simp] theorem label?_withByte (s : TrackStream) (place : Nat) (byte : UInt8) (label : Int) :
    (s.withByte place byte).label? label = s.label? label := by
  simp [label?, withByte]

/-- A last byte that is exchanged changes the events whose delta time ends with it. -/
theorem event?_withByte {s : TrackStream} {place : Nat} {old byte : UInt8}
    (hold : s.bytes[place]? = some old) (hends : Vlq.continues old = false)
    (hends' : Vlq.continues byte = false) (offset : Nat) :
    (s.withByte place byte).event? offset = (s.event? offset).map fun event =>
      (if event.2 = place + 1 then event.1 - old.toUInt32 + byte.toUInt32 else event.1,
        event.2) := by
  simp only [event?, withByte, Vlq.decodeAt, Array.size_setIfInBounds,
    Vlq.decodeAtFrom_setIfInBounds hold hends hends', Option.map_map]
  rfl

/-- What stands in front of an event does not matter to it. -/
theorem event?_withByte_of_lt {s : TrackStream} {place offset : Nat} {old byte : UInt8}
    (hold : s.bytes[place]? = some old) (hends : Vlq.continues old = false)
    (hends' : Vlq.continues byte = false) (hplace : place < offset) :
    (s.withByte place byte).event? offset = s.event? offset := by
  rw [event?_withByte hold hends hends']
  cases hevent : s.event? offset with
  | none => rfl
  | some event =>
    have hbehind : offset < event.2 := by
      obtain ⟨⟨value, count⟩, hread, rfl⟩ := Option.map_eq_some_iff.mp hevent
      exact Nat.lt_add_of_pos_right (Vlq.decodeAt_bounds hread).1
    rw [Option.map_some, if_neg (by omega)]

end TrackStream

/-- A place in the stream of a track of a module. -/
structure CodePlace where
  sequence : Nat
  position : Nat
  offset : Nat

namespace SoundModule

/-- The byte at a place. -/
def byteAt? (m : SoundModule) (place : CodePlace) : Option UInt8 :=
  (m.track? place.sequence place.position).bind (·.bytes[place.offset]?)

/-- The module with another byte at a place. -/
def withByte (m : SoundModule) (place : CodePlace) (byte : UInt8) : SoundModule :=
  { m with
    sequences := m.sequences.modify place.sequence fun tracks =>
      tracks.modify place.position (·.withByte place.offset byte) }

theorem track?_withByte (m : SoundModule) (place : CodePlace) (byte : UInt8)
    (sequence position : Nat) :
    (m.withByte place byte).track? sequence position =
      if place.sequence = sequence ∧ place.position = position then
        (m.track? sequence position).map (·.withByte place.offset byte)
      else m.track? sequence position := by
  simp only [track?, withByte, Option.bind_eq_bind, Array.getElem?_modify]
  by_cases hs : place.sequence = sequence
  · cases hseq : m.sequences[sequence]? with
    | none => simp
    | some tracks => simp [hs, Array.getElem?_modify]
  · simp [hs]

end SoundModule

namespace Engine

variable {σ : Type}

/-- The place that track `i` is at. -/
def codePlace (e : Engine σ) (i : Nat) : CodePlace :=
  ⟨(e.track i).sequence, (e.track i).position, (e.track i).pc⟩

/-- The engine with another byte in its module. -/
def withByte (e : Engine σ) (place : CodePlace) (byte : UInt8) : Engine σ :=
  { e with module := e.module.withByte place byte }

@[simp] theorem track_withByte (e : Engine σ) (place : CodePlace) (byte : UInt8) (i : Nat) :
    (e.withByte place byte).track i = e.track i := rfl

theorem stream?_withByte (e : Engine σ) (place : CodePlace) (byte : UInt8) (i : Nat) :
    (e.withByte place byte).stream? i =
      if place.sequence = (e.track i).sequence ∧ place.position = (e.track i).position then
        (e.stream? i).map (·.withByte place.offset byte)
      else e.stream? i :=
  e.module.track?_withByte place byte _ _

/-! ## What does not read the byte -/

section Blind

variable (e : Engine σ) (place : CodePlace) (byte : UInt8) (i : Nat)

theorem turnOff_withByte :
    (e.withByte place byte).turnOff i = (e.turnOff i).withByte place byte := by
  rw [turnOff_eq_fields, turnOff_eq_fields]
  rfl

theorem endSequence_withByte (slot : Nat) :
    (e.withByte place byte).endSequence slot = (e.endSequence slot).withByte place byte := by
  have hlist : ∀ (l : List Nat) (e : Engine σ), l.foldl turnOff (e.withByte place byte) =
      (l.foldl turnOff e).withByte place byte := by
    intro l
    induction l with
    | nil => exact fun _ => rfl
    | cons i l ih =>
      intro e
      rw [List.foldl_cons, turnOff_withByte, ih, List.foldl_cons]
  exact hlist _ e

theorem label_withByte (label : Int16) :
    ((e.withByte place byte).stream? i).bind (·.label? label.toInt) =
      (e.stream? i).bind (·.label? label.toInt) := by
  rw [stream?_withByte]
  split
  · rw [Option.bind_map]
    simp only [Function.comp_def, TrackStream.label?_withByte]
  · rfl

/-- A track whose course leads it to the same place does not notice the byte. -/
theorem move_withByte {course : Course}
    (hcourse : course ((e.withByte place byte).stream? i) (e.track i) =
      course (e.stream? i) (e.track i)) :
    (e.withByte place byte).move i course =
      ((e.move i course).1.withByte place byte, (e.move i course).2) := by
  unfold move
  rw [track_withByte, hcourse]
  rfl

theorem jump_withByte (label : Int16) :
    (e.withByte place byte).jump i label =
      ((e.jump i label).1.withByte place byte, (e.jump i label).2) := by
  rw [jump_eq, jump_eq, move_withByte]
  simp only [Track.jumped, label_withByte]

theorem gosub_withByte (label : Int16) :
    (e.withByte place byte).gosub i label =
      ((e.gosub i label).1.withByte place byte, (e.gosub i label).2) := by
  rw [gosub_eq, gosub_eq, move_withByte]
  simp only [Track.gosubbed, label_withByte]

end Blind

/-! ## What may read it -/

section Readers

variable {e : Engine σ} {place : CodePlace} {old byte : UInt8}
  (hold : e.module.byteAt? place = some old) (hends : Vlq.continues old = false)
  (hends' : Vlq.continues byte = false)

include hold hends hends'

/-- Delta times are read as before, but for those of the stream that end with the byte. -/
theorem event_withByte (i offset : Nat) :
    ((e.withByte place byte).stream? i).bind (·.event? offset) =
      ((e.stream? i).bind (·.event? offset)).map fun event =>
        (if (place.sequence = (e.track i).sequence ∧ place.position = (e.track i).position) ∧
            event.2 = place.offset + 1 then
          event.1 - old.toUInt32 + byte.toUInt32 else event.1, event.2) := by
  rw [stream?_withByte]
  split
  case isTrue hplace =>
    obtain ⟨s, hs, hbyte⟩ := Option.bind_eq_some_iff.mp hold
    have hstream : e.stream? i = some s := by
      rw [← hs, hplace.1, hplace.2]
      rfl
    simp only [hstream, Option.map_some, Option.bind_some, hplace, true_and, and_self]
    exact TrackStream.event?_withByte hbyte hends hends' offset
  case isFalse hplace =>
    simp [hplace]

/-- Whoever reads behind the byte does not notice it. -/
theorem event_withByte_of_lt (i : Nat) {offset : Nat} (hbehind : place.offset < offset) :
    ((e.withByte place byte).stream? i).bind (·.event? offset) =
      (e.stream? i).bind (·.event? offset) := by
  rw [stream?_withByte]
  split
  case isTrue hplace =>
    obtain ⟨s, hs, hbyte⟩ := Option.bind_eq_some_iff.mp hold
    have hstream : e.stream? i = some s := by
      rw [← hs, hplace.1, hplace.2]
      rfl
    rw [hstream]
    exact TrackStream.event?_withByte_of_lt hbyte hends hends' hbehind
  case isFalse => rfl

theorem nextEvent_withByte (i : Nat) {offset : Nat} (hbehind : place.offset < offset) :
    (e.withByte place byte).nextEvent i offset =
      (e.nextEvent i offset).withByte place byte := by
  have hevent := event_withByte_of_lt hold hends hends' i hbehind
  unfold nextEvent
  simp only [readDelta?_eq, Track.behindDelta?, hevent, track_withByte]
  cases (e.stream? i).bind (·.event? offset) with
  | some event => rfl
  | none =>
    dsimp only [Option.map_none]
    rw [endSequence_withByte]
    exact (apply_ite (withByte · place byte) _ _ _).symm

end Readers

/-- A track that comes back to an event. -/
theorem goBack_of_event {e : Engine σ} {i address pc : Nat} {rest : List Nat} {delta : UInt32}
    (hreturns : (e.track i).returns = address :: rest)
    (hevent : (e.stream? i).bind (·.event? address) = some (delta, pc)) :
    e.goBack i = (e.modifyTrack i fun t => { t with returns := rest, delta, pc }, .hold) := by
  rw [goBack_eq]
  simp only [move, Track.wentBack, Track.popReturn?, hreturns, Track.behindDelta?, hevent,
    Option.map_some]
  exact Prod.ext (modifyTrack_congr rfl) rfl

/-! ## The two siblings -/

theorem forSequence_of_alone {e : Engine σ} {i : Nat}
    (halone : (e.slot (e.track i).slot).trackList = [i])
    (move : Engine σ → Nat → Engine σ × Flow) : e.forSequence i move = move e i := by
  simp [forSequence, halone]

/-- The track that a command put in its place has nothing to wait for. -/
def settled (i : Nat) : Engine σ × Flow → Engine σ × Flow
  | (e, .hold) => (e.modifyTrack i fun t => { t with delta := 0 }, .hold)
  | (e, .advance) => (e, .advance)

/-- Where a label leads nowhere, a jump changes nothing. -/
theorem jump_of_no_label {e : Engine σ} {i : Nat} {label : Int16}
    (hlabel : e.label? i label = none) : e.jump i label = (e, .advance) := by
  rw [jump, hlabel]

theorem gosub_of_no_label {e : Engine σ} {i : Nat} {label : Int16}
    (hlabel : e.label? i label = none) : e.gosub i label = (e, .advance) := by
  rw [gosub, hlabel]

/-- On a track that is alone the two siblings do the same, but that a jump of the track ends
its wait. -/
theorem command_own {e : Engine σ} {i : Nat} {c : Command}
    (halone : (e.slot (e.track i).slot).trackList = [i])
    (hend : c.op = .seqEnd → (e.track i).flags.looped = false) (hshared : c.op.isShared = true) :
    e.command i c.own =
      if c.op = .seqJump then settled i (e.command i c) else e.command i c := by
  have hword : c.own.word 1 = c.word 1 := c.word_own 0
  have hlabel : c.own.signedWord 1 = c.signedWord 1 := c.signedWord_own 0
  rcases Opcode.isShared_iff.mp hshared with hop | hop | hop | hop | hop <;>
    have hown := c.op_own <;> rw [hop] at hown <;>
    simp only [command, hop, hown, Opcode.own, hword, hlabel, reduceCtorEq, if_true, if_false,
      forSequence_of_alone halone]
  case inl =>
    simp [forTracksOf, halone]
  case inr.inl =>
    -- a gosub
    cases hto : e.label? i (c.signedWord 1) with
    | none => exact gosub_of_no_label hto
    | some pc => rfl
  case inr.inr.inl =>
    -- a jump
    cases hto : e.label? i (c.signedWord 1) with
    | none => rw [jump_of_no_label hto]; rfl
    | some pc => simp only [jump, hto, settled, Option.isNone_some, Bool.false_eq_true, if_false]
  case inr.inr.inr.inr =>
    -- an end
    have hlast : e.endSequence (e.track i).slot = e.turnOff i := by
      simp [endSequence, forTracksOf, halone]
    simp only [endTrack, hend hop, Bool.false_and, Bool.false_eq_true, if_false, hlast]

/-- How a track goes on that has executed a command of the sequencer. -/
def goOn (p : Engine σ × Flow) (i offset : Nat) : Engine σ :=
  if p.2 = .advance && (p.1.track i).isActive then p.1.nextEvent i offset else p.1

/-- A track that was put in its place stays there. -/
theorem goOn_hold (e : Engine σ) (i offset : Nat) : goOn (e, .hold) i offset = e := rfl

theorem stepTrack_of_engine [SoundChip σ] {e : Engine σ} {i : Nat} {c : Command}
    (hc : e.command? i = some c) (hdriver : c.op.isDriver = false)
    (hengine : c.op.isEngine = true) :
    e.stepTrack i = goOn (e.command i c) i ((e.track i).pc + c.length) := by
  have hread : ((e.stream? i).bind fun s => Command.decodeAt s.bytes (e.track i).pc) = some c := hc
  simp only [stepTrack, hread, hdriver, hengine, Bool.false_eq_true, if_false, if_true]
  rfl

/-- Of the commands for one track only the way back may read the byte, in the delta time at
the return address. -/
theorem command_own_withByte {e : Engine σ} {place : CodePlace} {byte : UInt8} {i : Nat}
    {c : Command} (hend : c.op = .seqEnd → (e.track i).flags.looped = false)
    (hshared : c.op.isShared = true)
    (hreturn : c.op = .seqReturn → ∀ address ∈ (e.track i).returns.head?,
      ((e.withByte place byte).stream? i).bind (·.event? address) =
        (e.stream? i).bind (·.event? address)) :
    (e.withByte place byte).command i c.own =
        ((e.command i c.own).1.withByte place byte, (e.command i c.own).2) ∧
      (e.command i c.own).1.module = e.module := by
  rcases Opcode.isShared_iff.mp hshared with hop | hop | hop | hop | hop <;>
    have hown := c.op_own <;> rw [hop] at hown <;>
    simp only [command, hown, Opcode.own]
  case inl => exact ⟨rfl, rfl⟩
  case inr.inl =>
    exact ⟨gosub_withByte .., by rw [gosub_eq]; rfl⟩
  case inr.inr.inl =>
    have hmodule : (e.jump i (c.own.signedWord 1)).1.module = e.module := by rw [jump_eq]; rfl
    rw [jump_withByte]
    generalize e.jump i (c.own.signedWord 1) = p at hmodule ⊢
    obtain ⟨e', flow⟩ := p
    cases flow with
    | advance => exact ⟨rfl, hmodule⟩
    | hold => exact ⟨rfl, hmodule⟩
  case inr.inr.inr.inl =>
    refine ⟨?_, by rw [goBack_eq]; rfl⟩
    rw [goBack_eq, goBack_eq, move_withByte]
    cases hreturns : (e.track i).returns with
    | nil => simp only [Track.wentBack, Track.popReturn?, hreturns]
    | cons address rest =>
      have hread := hreturn hop address (by rw [hreturns]; rfl)
      simp only [Track.wentBack, Track.popReturn?, hreturns, Track.behindDelta?, hread]
  case inr.inr.inr.inr =>
    have hlooped : ((e.withByte place byte).track i).flags.looped = false := hend hop
    simp only [endTrack, hlooped, hend hop, Bool.false_and, Bool.false_eq_true, if_false,
      turnOff_withByte]
    exact ⟨rfl, module_turnOff e i⟩

section Sibling

variable {e : Engine σ} {i : Nat} {c : Command}

/-- The engine in which the sibling stands where track `i` has `c` to execute. -/
def withOwn (e : Engine σ) (i : Nat) (c : Command) : Engine σ :=
  e.withByte (e.codePlace i) c.own.op.toByte

/-- A command of the track stands at its place. -/
theorem byteAt?_codePlace (hc : e.command? i = some c) :
    e.module.byteAt? (e.codePlace i) = some c.op.toByte := by
  obtain ⟨s, hs, hread⟩ := Option.bind_eq_some_iff.mp hc
  have hbyte := (Command.decodeAt_eq_some.mp hread).1
  have hstream : e.module.track? (e.track i).sequence (e.track i).position = some s := hs
  simpa [SoundModule.byteAt?, codePlace, hstream] using hbyte

theorem command?_withOwn (hc : e.command? i = some c) :
    (e.withOwn i c).command? i = some c.own := by
  obtain ⟨s, hs, hread⟩ := Option.bind_eq_some_iff.mp hc
  have hstream := e.stream?_withByte (e.codePlace i) c.own.op.toByte i
  rw [if_pos ⟨rfl, rfl⟩, hs, Option.map_some] at hstream
  unfold command? withOwn
  rw [hstream]
  exact Command.decodeAt_own hread

theorem goOn_withByte {p : Engine σ × Flow} {place : CodePlace} {old byte : UInt8} {offset : Nat}
    (hold : p.1.module.byteAt? place = some old) (hends : Vlq.continues old = false)
    (hends' : Vlq.continues byte = false) (hbehind : place.offset < offset) :
    goOn (p.1.withByte place byte, p.2) i offset = (goOn p i offset).withByte place byte := by
  unfold goOn
  dsimp only
  rw [track_withByte]
  split
  · exact nextEvent_withByte hold hends hends' i hbehind
  · rfl

/-- Beside the sibling, delta times are read as before but for those that end with the
opcode: the numbers of siblings are five apart. -/
theorem event_withOwn (hc : e.command? i = some c) (hshared : c.op.isShared = true)
    (offset : Nat) :
    ((e.withOwn i c).stream? i).bind (·.event? offset) =
      ((e.stream? i).bind (·.event? offset)).map fun event =>
        (if event.2 = (e.track i).pc + 1 then event.1 + 5 else event.1, event.2) := by
  have hnumber : c.own.op.toByte.toUInt32 = c.op.toByte.toUInt32 + 5 := by
    rcases Opcode.isShared_iff.mp hshared with hop | hop | hop | hop | hop <;>
      rw [Command.op_own, hop] <;> rfl
  have hread := event_withByte (byteAt?_codePlace hc) c.op.continues_toByte
    c.own.op.continues_toByte i offset
  refine hread.trans (congrArg (Option.map · _) (funext fun event => ?_))
  have hfive : event.1 - c.op.toByte.toUInt32 + (c.op.toByte.toUInt32 + 5) = event.1 + 5 := by
    rw [← UInt32.add_assoc, UInt32.sub_add_cancel]
  simp only [codePlace, and_self, true_and, hnumber, hfive]

/-- What a command for a sequence is to a track that is alone in it. -/
theorem stepTrack_of_shared [SoundChip σ] (hc : e.command? i = some c)
    (hshared : c.op.isShared = true) :
    e.stepTrack i = goOn (e.command i c) i ((e.track i).pc + c.length) := by
  have hkind : c.op.isDriver = false ∧ c.op.isEngine = true := by
    rcases Opcode.isShared_iff.mp hshared with hop | hop | hop | hop | hop <;> rw [hop] <;> decide
  exact stepTrack_of_engine hc hkind.1 hkind.2

/-- What the sibling of a command leaves, where the way back does not read the opcode. -/
theorem stepTrack_withOwn [SoundChip σ] (hc : e.command? i = some c)
    (hshared : c.op.isShared = true)
    (hend : c.op = .seqEnd → (e.track i).flags.looped = false)
    (hreturn : c.op = .seqReturn → ∀ address ∈ (e.track i).returns.head?,
      ((e.withOwn i c).stream? i).bind (·.event? address) =
        (e.stream? i).bind (·.event? address)) :
    (e.withOwn i c).stepTrack i =
      (goOn (e.command i c.own) i ((e.track i).pc + c.length)).withByte (e.codePlace i)
        c.own.op.toByte := by
  have hkind : c.own.op.isDriver = false ∧ c.own.op.isEngine = true ∧ 0 < c.length := by
    rcases Opcode.isShared_iff.mp hshared with hop | hop | hop | hop | hop <;>
      simp only [Command.op_own, Command.length, hop] <;> decide
  obtain ⟨hcommand, hmodule⟩ := command_own_withByte hend hshared hreturn
  have htrack : (e.withOwn i c).track i = e.track i := rfl
  rw [stepTrack_of_engine (command?_withOwn hc) hkind.1 hkind.2.1, htrack, c.length_own]
  unfold withOwn
  rw [hcommand]
  refine goOn_withByte (hmodule ▸ byteAt?_codePlace hc) c.op.continues_toByte
    c.own.op.continues_toByte ?_
  exact Nat.lt_add_of_pos_right hkind.2.2

/-- A jump of the sequence on a track that is alone in it. -/
theorem command_seqJump {pc : Nat} (halone : (e.slot (e.track i).slot).trackList = [i])
    (hop : c.op = .seqJump) (hlabel : e.label? i (c.signedWord 1) = some pc) :
    e.command i c = (e.modifyTrack i fun t => { t with pc }, .hold) := by
  simp [command, hop, forSequence_of_alone halone, jump, hlabel]

/-- A way back of the sequence on a track that is alone in it. -/
theorem command_seqReturn {address pc : Nat} {rest : List Nat} {delta : UInt32}
    (halone : (e.slot (e.track i).slot).trackList = [i]) (hop : c.op = .seqReturn)
    (hreturns : (e.track i).returns = address :: rest)
    (hevent : (e.stream? i).bind (·.event? address) = some (delta, pc)) :
    e.command i c = (e.modifyTrack i fun t => { t with returns := rest, delta, pc }, .hold) := by
  rw [← goBack_of_event hreturns hevent]
  simp [command, hop, forSequence_of_alone halone]

/-- The sibling of a jump leads to the same place, where the wait is over. -/
theorem stepTrack_withOwn_jump [SoundChip σ]
    (halone : (e.slot (e.track i).slot).trackList = [i]) (hc : e.command? i = some c)
    (hop : c.op = .seqJump) (hlabel : (e.label? i (c.signedWord 1)).isSome = true) :
    (e.withOwn i c).stepTrack i =
      ((e.stepTrack i).modifyTrack i fun t => { t with delta := 0 }).withByte (e.codePlace i)
        c.own.op.toByte := by
  have hshared : c.op.isShared = true := by rw [hop]; rfl
  have hend : c.op = .seqEnd → (e.track i).flags.looped = false := by rw [hop]; nofun
  obtain ⟨pc, hpc⟩ := Option.isSome_iff_exists.mp hlabel
  rw [stepTrack_withOwn hc hshared hend (by rw [hop]; nofun), command_own halone hend hshared,
    if_pos hop, stepTrack_of_shared hc hshared, command_seqJump halone hop hpc]
  rfl

/-- The sibling of a way back to a delta time that the opcode ends leads to the same place,
where the wait is longer. -/
theorem stepTrack_withOwn_return [SoundChip σ]
    (halone : (e.slot (e.track i).slot).trackList = [i]) (hc : e.command? i = some c)
    (hop : c.op = .seqReturn) {address : Nat} {rest : List Nat} {delta : UInt32}
    (hreturns : (e.track i).returns = address :: rest)
    (hevent : (e.stream? i).bind (·.event? address) = some (delta, (e.track i).pc + 1)) :
    (e.withOwn i c).stepTrack i =
      ((e.stepTrack i).modifyTrack i fun t => { t with delta := t.delta + 5 }).withByte
        (e.codePlace i) c.own.op.toByte := by
  have hshared : c.op.isShared = true := by rw [hop]; rfl
  have hop' : c.own.op = .trackReturn := by rw [Command.op_own, hop]; rfl
  have hevent' : ((e.withOwn i c).stream? i).bind (·.event? address) =
      some (delta + 5, (e.track i).pc + 1) := by
    rw [event_withOwn hc hshared, hevent, Option.map_some, if_pos rfl]
  have hcommand : (e.withOwn i c).command i c.own = (e.withOwn i c).goBack i := by
    simp [command, hop']
  rw [stepTrack_of_engine (command?_withOwn hc) (by rw [hop']; rfl) (by rw [hop']; rfl),
    hcommand, goBack_of_event (e := e.withOwn i c) hreturns hevent',
    stepTrack_of_shared hc hshared, command_seqReturn halone hop hreturns hevent, goOn_hold,
    goOn_hold, modifyTrack_modifyTrack]
  rfl

/-- A track that is changed beside another byte is noticed. -/
theorem modifyTrack_withByte_iff {place : CodePlace} {byte : UInt8} {f : Track → Track}
    (hi : i < e.tracks.size) :
    (e.modifyTrack i f).withByte place byte = e.withByte place byte ↔
      f (e.track i) = e.track i := by
  constructor
  · intro hsame
    have htrack := congrArg (fun e => Engine.track e i) hsame
    have hleft : ((e.modifyTrack i f).withByte place byte).track i = f (e.track i) := by
      refine (track_modifyTrack e i i f).trans ?_
      rw [if_pos ⟨rfl, hi⟩]
    exact hleft.symm.trans htrack
  · intro hsame
    rw [modifyTrack_of_eq hsame]

theorem lt_size_of_isRunning (hrun : (e.track i).isRunning = true) : i < e.tracks.size := by
  simp only [Track.isRunning, Bool.and_eq_true] at hrun
  exact lt_size_of_isActive hrun.1

section Compare

variable [SoundChip σ] (hrun : (e.track i).isRunning = true)
  (halone : (e.slot (e.track i).slot).trackList = [i]) (hc : e.command? i = some c)

include hrun halone hc

theorem withOwn_jump_iff (hop : c.op = .seqJump)
    (hlabel : (e.label? i (c.signedWord 1)).isSome = true) :
    (e.withOwn i c).stepTrack i = (e.stepTrack i).withByte (e.codePlace i) c.own.op.toByte ↔
      (e.track i).delta = 0 := by
  have hi := lt_size_of_isRunning hrun
  obtain ⟨pc, hpc⟩ := Option.isSome_iff_exists.mp hlabel
  have hstep : e.stepTrack i = e.modifyTrack i fun t => { t with pc } := by
    rw [stepTrack_of_shared hc (by rw [hop]; rfl), command_seqJump halone hop hpc]
    rfl
  have hsize : (e.stepTrack i).tracks.size = e.tracks.size := by simp [hstep, modifyTrack]
  rw [stepTrack_withOwn_jump halone hc hop hlabel, modifyTrack_withByte_iff (hsize ▸ hi), hstep,
    track_modifyTrack, if_pos ⟨rfl, hi⟩]
  simp only [Track.mk.injEq, true_and, and_true, eq_comm]

theorem withOwn_return_ne (hop : c.op = .seqReturn) {address : Nat} {delta : UInt32}
    (haddress : address ∈ (e.track i).returns.head?)
    (hevent : (e.stream? i).bind (·.event? address) = some (delta, (e.track i).pc + 1)) :
    (e.withOwn i c).stepTrack i ≠
      (e.stepTrack i).withByte (e.codePlace i) c.own.op.toByte := by
  have hi := lt_size_of_isRunning hrun
  obtain ⟨rest, hreturns⟩ := List.head?_eq_some_iff.mp haddress
  have hstep : e.stepTrack i = e.modifyTrack i fun t =>
      { t with returns := rest, delta, pc := (e.track i).pc + 1 } := by
    rw [stepTrack_of_shared hc (by rw [hop]; rfl),
      command_seqReturn halone hop hreturns hevent]
    rfl
  have hsize : (e.stepTrack i).tracks.size = e.tracks.size := by simp [hstep, modifyTrack]
  rw [stepTrack_withOwn_return halone hc hop hreturns hevent, ne_eq,
    modifyTrack_withByte_iff (hsize ▸ hi), hstep, track_modifyTrack, if_pos ⟨rfl, hi⟩]
  intro hsame
  have hdelta := congrArg Track.delta hsame
  dsimp only at hdelta
  grind

omit hrun in
/-- Where no jump is made and the opcode is not read, the siblings leave the same. -/
theorem withOwn_eq (hshared : c.op.isShared = true)
    (hend : c.op = .seqEnd → (e.track i).flags.looped = false)
    (hjump : ¬ (c.op = .seqJump ∧ (e.label? i (c.signedWord 1)).isSome = true))
    (hreads : c.op = .seqReturn → ∀ address ∈ (e.track i).returns.head?, ∀ delta,
      (e.stream? i).bind (·.event? address) ≠ some (delta, (e.track i).pc + 1)) :
    (e.withOwn i c).stepTrack i =
      (e.stepTrack i).withByte (e.codePlace i) c.own.op.toByte := by
  have hsame : c.op = .seqReturn → ∀ address ∈ (e.track i).returns.head?,
      ((e.withOwn i c).stream? i).bind (·.event? address) =
        (e.stream? i).bind (·.event? address) := by
    intro hop address haddress
    rw [event_withOwn hc hshared]
    cases hevent : (e.stream? i).bind (·.event? address) with
    | none => rfl
    | some event =>
      have hother : event.2 ≠ (e.track i).pc + 1 := fun hpc =>
        hreads hop address haddress event.1 (hpc ▸ hevent)
      rw [Option.map_some, if_neg hother]
  rw [stepTrack_withOwn hc hshared hend hsame, command_own halone hend hshared,
    stepTrack_of_shared hc hshared]
  split
  case isFalse => rfl
  case isTrue hop =>
    have hnone : e.label? i (c.signedWord 1) = none :=
      Option.not_isSome_iff_eq_none.mp fun hlabel => hjump ⟨hop, hlabel⟩
    have hcommand : e.command i c = (e, .advance) := by simp [command, hop, hnone]
    rw [hcommand]
    rfl

end Compare

/-- The siblings leave the same just if neither a jump finds a wait that the one for the
track ends, nor a return address leads to a delta time that the opcode itself ends. Jumps differ
in no more than that wait, and ways back to such a delta time in no more than the five by which
the opcodes do. -/
theorem stepTrack_withOwn_iff [SoundChip σ] (hrun : (e.track i).isRunning = true)
    (halone : (e.slot (e.track i).slot).trackList = [i]) (hc : e.command? i = some c)
    (hshared : c.op.isShared = true)
    (hend : c.op = .seqEnd → (e.track i).flags.looped = false) :
    ((e.withOwn i c).stepTrack i =
        (e.stepTrack i).withByte (e.codePlace i) c.own.op.toByte ↔
      (c.op = .seqJump → (e.label? i (c.signedWord 1)).isSome = true → (e.track i).delta = 0) ∧
      (c.op = .seqReturn → ∀ address ∈ (e.track i).returns.head?, ∀ delta,
        (e.stream? i).bind (·.event? address) ≠ some (delta, (e.track i).pc + 1))) ∧
    (c.op = .seqJump → (e.label? i (c.signedWord 1)).isSome = true →
      (e.withOwn i c).stepTrack i =
        ((e.stepTrack i).modifyTrack i fun t => { t with delta := 0 }).withByte (e.codePlace i)
          c.own.op.toByte) ∧
    (c.op = .seqReturn → ∀ address ∈ (e.track i).returns.head?, ∀ delta,
      (e.stream? i).bind (·.event? address) = some (delta, (e.track i).pc + 1) →
      (e.withOwn i c).stepTrack i =
        ((e.stepTrack i).modifyTrack i fun t => { t with delta := t.delta + 5 }).withByte
          (e.codePlace i) c.own.op.toByte) := by
  refine ⟨⟨?_, ?_⟩, stepTrack_withOwn_jump halone hc, fun hop address haddress delta hevent => ?_⟩
  · intro hsame
    refine ⟨fun hop hlabel => (withOwn_jump_iff hrun halone hc hop hlabel).mp hsame, ?_⟩
    intro hop address haddress delta hevent
    exact withOwn_return_ne hrun halone hc hop haddress hevent hsame
  · rintro ⟨hwait, hreads⟩
    by_cases hjump : c.op = .seqJump ∧ (e.label? i (c.signedWord 1)).isSome = true
    · exact (withOwn_jump_iff hrun halone hc hjump.1 hjump.2).mpr (hwait hjump.1 hjump.2)
    · exact withOwn_eq halone hc hshared hend hjump hreads
  · obtain ⟨rest, hreturns⟩ := List.head?_eq_some_iff.mp haddress
    exact stepTrack_withOwn_return halone hc hop hreturns hevent

end Sibling

end Engine

open Engine

/-- A sequence of one track that calls a place within the delta time behind the call: the byte
there is the opcode of a way back, which leads to the delta time that it ends. -/
def turnsBack : SoundModule :=
  let delta := Opcode.seqReturn.toByte.toUInt32
  { solo [] with
    sequences := #[#[{ TrackHeader.plays {}
        [(2, .seqGosub 0), (delta, .noteOn 60 100), (1000, .trackEnd)] with labels := #[4] }]] }

/-- The gosub is the same to the track and to the sequence that it is alone in. The way back is
not: the track would wait five parts longer. -/
theorem stepTrack_withOwn_turnsBack : ∃ e : Engine RecorderChip,
    Engine.make turnsBack {} = .ok e ∧
      (∃ c, e.underWay.command? 0 = some c ∧ c.op = .seqGosub ∧
        (e.underWay.track 0).delta = 2 ∧
        ((e.underWay.withOwn 0 c).stepTrack 0).track 0 ≠ e.underWay.track 0 ∧
        (e.underWay.withOwn 0 c).stepTrack 0 =
          (e.underWay.stepTrack 0).withByte (e.underWay.codePlace 0) c.own.op.toByte) ∧
      ∃ c, e.underWay.tick.command? 0 = some c ∧ c.op = .seqReturn ∧
        (e.underWay.tick.track 0).returns = [(e.underWay.tick.track 0).pc] ∧
        (e.underWay.tick.withOwn 0 c).stepTrack 0 ≠
          (e.underWay.tick.stepTrack 0).withByte (e.underWay.tick.codePlace 0) c.own.op.toByte ∧
        (e.underWay.tick.withOwn 0 c).stepTrack 0 =
          ((e.underWay.tick.stepTrack 0).modifyTrack 0 fun t =>
            { t with delta := t.delta + 5 }).withByte (e.underWay.tick.codePlace 0)
              c.own.op.toByte := by
  obtain ⟨e, hmake, hgosub, hback⟩ : ∃ e : Engine RecorderChip,
      Engine.make turnsBack {} = .ok e ∧
        (e.underWay.command? 0 = some (.seqGosub 0) ∧ (e.underWay.track 0).delta = 2 ∧
          ((e.underWay.withOwn 0 (.seqGosub 0)).stepTrack 0).track 0 ≠ e.underWay.track 0 ∧
          (e.underWay.track 0).isRunning = true ∧
          (e.underWay.slot (e.underWay.track 0).slot).trackList = [0]) ∧
        e.underWay.tick.command? 0 = some .seqReturn ∧
          (e.underWay.tick.track 0).isRunning = true ∧
          (e.underWay.tick.slot (e.underWay.tick.track 0).slot).trackList = [0] ∧
          (e.underWay.tick.track 0).returns = [(e.underWay.tick.track 0).pc] ∧
          (e.underWay.tick.stream? 0).bind (·.event? (e.underWay.tick.track 0).pc) =
            some (28, (e.underWay.tick.track 0).pc + 1) :=
    exists_make (by decide +kernel)
  obtain ⟨hc, hdelta, hmoves, hrun, halone⟩ := hgosub
  obtain ⟨hc', hrun', halone', hreturns, hevent⟩ := hback
  have hhead : (e.underWay.tick.track 0).pc ∈ (e.underWay.tick.track 0).returns.head? := by
    rw [hreturns]
    rfl
  obtain ⟨hsame, -, hfive⟩ := stepTrack_withOwn_iff hrun' halone' hc' rfl nofun
  refine ⟨e, hmake, ⟨_, hc, rfl, hdelta, hmoves, ?_⟩, _, hc', rfl, hreturns, fun heq => ?_,
    hfive rfl _ hhead _ hevent⟩
  · exact (stepTrack_withOwn_iff hrun halone hc rfl nofun).1.mpr ⟨nofun, nofun⟩
  · exact (hsame.mp heq).2 rfl _ hhead _ hevent

/-- A sequence of one track that executes a command first and has a label behind it. -/
def labelled (c : Command) : SoundModule :=
  { solo [] with
    sequences := #[#[{ TrackHeader.plays {} [(2, c), (5, .noteOn 60 100), (1000, .trackEnd)] with
      labels := #[5] }]] }

/-- A jump is not the same, where the track has something to wait for. -/
theorem not_withOwn_jump : ∃ (e : Engine RecorderChip) (c : Command),
    Engine.make (labelled (.seqJump 0)) {} = .ok e ∧ e.underWay.WellFormed ∧
      (e.underWay.track 0).isRunning = true ∧
      (e.underWay.slot (e.underWay.track 0).slot).trackList = [0] ∧
      e.underWay.command? 0 = some c ∧ c.op = .seqJump ∧
      (e.underWay.withOwn 0 c).stepTrack 0 ≠
        (e.underWay.stepTrack 0).withByte (e.underWay.codePlace 0) c.own.op.toByte := by
  obtain ⟨e, hmake, hrun, halone, hc, hwaits, hgoes⟩ : ∃ e : Engine RecorderChip,
      Engine.make (labelled (.seqJump 0)) {} = .ok e ∧
        (e.underWay.track 0).isRunning = true ∧
        (e.underWay.slot (e.underWay.track 0).slot).trackList = [0] ∧
        e.underWay.command? 0 = some (.seqJump 0) ∧
        ((e.underWay.stepTrack 0).track 0).delta = 2 ∧
        (((e.underWay.withOwn 0 (.seqJump 0)).stepTrack 0).track 0).delta = 0 :=
    exists_make (by decide +kernel)
  have hform : e.underWay.WellFormed := (@wellFormed_throughout _ _ _ _ _ hmake
    [.start 0 {}, .tick] ⟨trivial, trivial, trivial⟩).last
  refine ⟨e, _, hmake, hform, hrun, halone, hc, rfl, fun hsame => ?_⟩
  have hdelta := congrArg (fun e => (Engine.track e 0).delta) hsame
  simp only [track_withByte, hgoes, hwaits] at hdelta
  exact absurd hdelta (by decide)

end SoundSequencer
