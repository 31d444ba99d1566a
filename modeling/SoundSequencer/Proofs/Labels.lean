/-
SoundSequencer.Proofs.Labels — where a label leads.

* `Branch` lists the commands that lead their track to a label. `Branch.Permits` is the
  condition of a branch of its own, `Branch.Reaches` says that it moves the track that
  executes it: a branch of the sequence moves the tracks that the slot lists.
* `label?_toInt16` is what a label of a written track stands for. Labels are numbered without
  a sign and read with one, so that those of the upper half stand for nothing.
* `Lands` says where a command leaves its track. `lands_branch` is one command,
  `branch_lands` all those of a run.
* `crowded` is a track with many labels before its first command, and `placeOf_crowded` is
  their place.
-/
import SoundSequencer.Proofs.Boundaries
import SoundSequencer.Proofs.Disassembly
import SoundSequencer.Proofs.OwnScope
import SoundSequencer.Proofs.PoolRuns

namespace SoundSequencer

/-! ## Branches -/

/-- A command that leads its track to a label. -/
inductive Branch where
  | trackJump | trackGosub
  | seqJump | seqGosub
  | gateJump (gate first : UInt8)
  | iterJump (counter first : UInt8)
  deriving Repr, DecidableEq

namespace Branch

/-- The command that an assembler writes for a branch to `label`. -/
def command : Branch → UInt16 → Command
  | trackJump, label => .trackJump label
  | trackGosub, label => .trackGosub label
  | seqJump, label => .seqJump label
  | seqGosub, label => .seqGosub label
  | gateJump gate first, label => .gateJump gate first label
  | iterJump counter first, label => .iterJump counter first label

/-- The opcode of a branch. -/
def op : Branch → Opcode
  | trackJump => .trackJump
  | trackGosub => .trackGosub
  | seqJump => .seqJump
  | seqGosub => .seqGosub
  | gateJump _ _ => .gateJump
  | iterJump _ _ => .iterJump

/-- Where a branch has its label. -/
def labelAt : Branch → Nat
  | gateJump _ _ | iterJump _ _ => 3
  | _ => 1

theorem op_command (k : Branch) (label : UInt16) : (k.command label).op = k.op := by
  cases k <;> rfl

theorem isEngine_op (k : Branch) : k.op.isDriver = false ∧ k.op.isEngine = true := by
  cases k <;> exact ⟨rfl, rfl⟩

/-- The label of a branch is read with a sign. -/
theorem signedWord_command (k : Branch) (label : UInt16) :
    (k.command label).signedWord k.labelAt = label.toInt16 := by
  have hargs := Command.argumentsKept
  refine congrArg UInt16.toInt16 ?_
  cases k with
  | trackJump => exact (hargs.jump label).2
  | trackGosub => exact (hargs.gosub label).2
  | seqJump => exact (hargs.jump label).1
  | seqGosub => exact (hargs.gosub label).1
  | gateJump gate first => exact (hargs.gateJump gate first label).2.2
  | iterJump counter first => exact (hargs.iterJump counter first label).2.2

variable {σ : Type}

/-- The condition of a branch: room for a return address, or a gate or a counter that is
not at zero. -/
def Permits (e : Engine σ) (i : Nat) : Branch → Prop
  | trackJump | seqJump => True
  | trackGosub | seqGosub =>
    (e.track i).returns.length < (e.track i).returnDepth ∧
      (e.track i).returns.length < maxReturnDepth
  | gateJump gate _ => ∃ value ∈ (e.slot (e.track i).slot).gates[gate.toNat]?, value ≠ 0
  | iterJump counter _ => ∃ value ∈ (e.slot (e.track i).slot).iters[counter.toNat]?, value ≠ 0

/-- Whether a branch of track `i` moves that track. -/
def Reaches (e : Engine σ) (i : Nat) : Branch → Prop
  | seqJump | seqGosub => i ∈ (e.slot (e.track i).slot).trackList
  | _ => True

instance (e : Engine σ) (i : Nat) : (k : Branch) → Decidable (k.Reaches e i)
  | seqJump | seqGosub => inferInstanceAs (Decidable (i ∈ _))
  | trackJump | trackGosub | gateJump _ _ | iterJump _ _ => inferInstanceAs (Decidable True)

end Branch

/-- A gate that is not at zero is open. -/
theorem Slot.passGate_open {s : Slot} {gate value : UInt8} (h : s.gates[gate.toNat]? = some value)
    (hvalue : value ≠ 0) (first : UInt8) : (s.passGate gate first).2 = true := by
  rw [passGate, h]
  dsimp only
  rw [if_neg hvalue]
  split <;> rfl

/-- A counter that is not at zero counts down. -/
theorem Slot.countDown_taken {s : Slot} {counter value : UInt8}
    (h : s.iters[counter.toNat]? = some value) (hvalue : value ≠ 0) (first : UInt8) :
    (s.countDown counter first).2 = true := by
  rw [countDown, h]
  dsimp only
  rw [if_neg hvalue]

/-! ## What a label stands for -/

/-- The upper half of the words are negative numbers. -/
theorem toInt_toInt16 (word : UInt16) :
    word.toInt16.toInt =
      if word.toNat < 2 ^ 15 then (word.toNat : Int) else word.toNat - 2 ^ 16 := by
  have hvalue : word.toInt16.toInt = word.toBitVec.toInt := rfl
  have hword : word.toBitVec.toNat = word.toNat := rfl
  rw [hvalue, BitVec.toInt_eq_toNat_cond, hword]
  split <;> split <;> omega

namespace Engine

variable {σ : Type}

open Assembler

/-- Of the labels of a written track, those of the lower half lead to their places, and
the others lead nowhere. -/
theorem label?_toInt16 {e : Engine σ} {i : Nat} {header : TrackHeader} {requests : List Request}
    (hstream : e.stream? i = some (assemble header requests)) {label : UInt16} {place : Nat}
    (hplace : PlaceOf requests label.toNat place) :
    e.label? i label.toInt16 = if label.toNat < 2 ^ 15 then some place else none := by
  have hread : e.label? i label.toInt16 =
      (assemble header requests).label? label.toInt16.toInt := by
    simp [label?, hstream]
  rw [hread, toInt_toInt16]
  split
  case isTrue =>
    have hmade : label.toNat < made requests := by
      obtain ⟨_, _, _, _, _, hputs, -⟩ := hplace
      exact hputs.lt_made
    have htable := (label_assemble header requests hmade).mpr (.inl hplace)
    have hinside : place < (assemble header requests).bytes.size := by
      rw [bytes_assemble]
      exact hplace.lt
    show Option.filter _ _ = _
    rw [htable, Option.filter_some, if_pos (decide_eq_true hinside)]
  case isFalse hhigh =>
    obtain ⟨n, hn⟩ : ∃ n, (label.toNat : Int) - 2 ^ 16 = .negSucc n :=
      Int.eq_negSucc_of_lt_zero (by have := label.toNat_lt; omega)
    rw [hn]
    rfl

/-! ## One branch -/

/-- The command leaves track `i` at `target`; if there is none, the track stays as it was
and goes on behind the command. -/
structure Lands (e : Engine σ) (i : Nat) (target : Option Nat) (p : Engine σ × Flow) : Prop where
  module : p.1.module = e.module
  led : ∀ pc ∈ target, p.2 = .hold ∧ (p.1.track i).pc = pc
  stays : target = none → p.2 = .advance ∧ p.1.track i = e.track i

/-- Where track `i` is when it goes on behind a command: at the next one, or still at
this one if the stream ends here. -/
def pcBehind (e : Engine σ) (i : Nat) (c : Command) : Nat :=
  ((e.stream? i).bind (·.event? ((e.track i).pc + c.length))).elim (e.track i).pc Prod.snd

section One

variable {e : Engine σ} {i : Nat}

theorem pc_nextEvent (hi : i < e.tracks.size) (offset : Nat) :
    ((e.nextEvent i offset).track i).pc =
      ((e.stream? i).bind (·.event? offset)).elim (e.track i).pc Prod.snd := by
  unfold nextEvent
  rw [readDelta?_eq, Track.behindDelta?]
  cases (e.stream? i).bind (·.event? offset) with
  | some event =>
    show ((e.modifyTrack i _).track i).pc = event.2
    rw [track_modifyTrack, if_pos ⟨rfl, hi⟩]
  | none =>
    dsimp only [Option.map_none, Option.elim_none]
    split
    · have hspot := (unmoved_endSequence e (e.track i).slot).spot i
      simp only [Track.spot, Prod.mk.injEq] at hspot
      exact hspot.2.2.1
    · rfl

/-- Where a track is that has executed a command of the sequencer. -/
theorem Lands.pc_goOn {target : Option Nat} {p : Engine σ × Flow} (h : Lands e i target p)
    (hi : (e.track i).isActive = true) (c : Command) :
    ((goOn p i ((e.track i).pc + c.length)).track i).pc = target.getD (e.pcBehind i c) := by
  obtain ⟨e', flow⟩ := p
  cases target with
  | some pc =>
    obtain ⟨rfl, hpc⟩ := h.led pc rfl
    exact hpc
  | none =>
    obtain ⟨rfl, htrack⟩ := h.stays rfl
    have hactive : (e'.track i).isActive = true := by rwa [htrack]
    have hstream : e'.stream? i = e.stream? i := by
      unfold stream?
      rw [htrack, h.module]
    have hnext := pc_nextEvent (lt_size_of_isActive hactive) ((e.track i).pc + c.length)
    rw [hstream, htrack] at hnext
    have hgoes : goOn (e', .advance) i ((e.track i).pc + c.length) =
        e'.nextEvent i ((e.track i).pc + c.length) := by
      simp only [goOn, hactive, decide_true, Bool.and_self, if_true]
    rw [hgoes, hnext]
    rfl

theorem lands_jump (hi : i < e.tracks.size) (label : Int16) :
    Lands e i (e.label? i label) (e.jump i label) := by
  unfold jump
  cases e.label? i label with
  | none => exact ⟨rfl, nofun, fun _ => ⟨rfl, rfl⟩⟩
  | some pc =>
    refine ⟨rfl, fun target htarget => ⟨rfl, ?_⟩, nofun⟩
    rw [track_modifyTrack, if_pos ⟨rfl, hi⟩]
    exact Option.some.inj htarget

/-- No jump looks at gates and counters. -/
theorem lands_jump_modifySlot (hi : i < e.tracks.size) (s : Nat) (f : Slot → Slot)
    (label : Int16) : Lands e i (e.label? i label) ((e.modifySlot s f).jump i label) := by
  have hjump := @lands_jump _ (e.modifySlot s f) i hi label
  exact ⟨hjump.module, hjump.led, hjump.stays⟩

theorem lands_gosub (hi : i < e.tracks.size) (label : Int16)
    (hroom : (e.track i).returns.length < (e.track i).returnDepth ∧
      (e.track i).returns.length < maxReturnDepth) :
    Lands e i (e.label? i label) (e.gosub i label) := by
  unfold gosub
  cases e.label? i label with
  | none => exact ⟨rfl, nofun, fun _ => ⟨rfl, rfl⟩⟩
  | some pc =>
    dsimp only
    rw [Track.pushReturn?, if_pos hroom]
    refine ⟨rfl, fun target htarget => ⟨rfl, ?_⟩, nofun⟩
    rw [track_modifyTrack, if_pos ⟨rfl, hi⟩]
    exact Option.some.inj htarget

/-- A command for the sequence leads a track of the slot's as a command of its own does,
and no other track. -/
theorem Lands.forSequence {target : Option Nat} {course : Course}
    (h : Lands e i target (e.move i course)) (hseated : e.Seated)
    (hplace : ∀ stream t, (course stream t).1.place = t.place)
    {move : Engine σ → Nat → Engine σ × Flow} (hmove : ∀ e j, move e j = e.move j course) :
    Lands e i (if i ∈ (e.slot (e.track i).slot).trackList then target else none)
      (e.forSequence i move) := by
  obtain rfl : move = fun e j => e.move j course := funext fun e => funext fun j => hmove e j
  obtain ⟨hmodule, -, htrack, hflow⟩ :=
    foldl_move hplace i _ e .advance (hseated.nodup_trackList (e.track i).slot)
  by_cases hlisted : i ∈ (e.slot (e.track i).slot).trackList
  · have hi : i < e.tracks.size := hseated.lt_size (List.mem_of_mem_take hlisted)
    have hmoved : (e.move i course).1.track i = (e.forSequence i (·.move · course)).1.track i := by
      refine ((track_modifyTrack e i i _).trans (if_pos ⟨rfl, hi⟩)).trans ?_
      exact ((htrack i).trans (if_pos ⟨hlisted, hi⟩)).symm
    have hsame : (e.forSequence i (·.move · course)).2 = (e.move i course).2 :=
      hflow.trans (if_pos hlisted)
    rw [if_pos hlisted]
    refine ⟨hmodule, fun pc hpc => ?_, fun hnone => ?_⟩
    · rw [hsame, ← hmoved]
      exact h.led pc hpc
    · rw [hsame, ← hmoved]
      exact h.stays hnone
  · rw [if_neg hlisted]
    refine ⟨hmodule, nofun, fun _ => ⟨hflow.trans (if_neg hlisted), ?_⟩⟩
    exact (htrack i).trans (if_neg fun h => hlisted h.1)

/-- A command for the sequence whose label leads nowhere does nothing at all. -/
theorem Lands.unless_nowhere {label : Int16} {listed : Prop} [Decidable listed]
    {p : Engine σ × Flow} (h : Lands e i (if listed then e.label? i label else none) p) :
    Lands e i (if listed then e.label? i label else none)
      (if (e.label? i label).isNone then (e, .advance) else p) := by
  cases hlabel : e.label? i label with
  | none =>
    rw [ite_self]
    exact ⟨rfl, nofun, fun _ => ⟨rfl, rfl⟩⟩
  | some pc =>
    rw [hlabel] at h
    exact h

/-- A branch whose condition holds leaves a track that it reaches at its label. -/
theorem lands_branch (hseated : e.Seated) (hi : i < e.tracks.size) (k : Branch) (label : UInt16)
    (hpermits : k.Permits e i) :
    Lands e i (if k.Reaches e i then e.label? i label.toInt16 else none)
      (e.command i (k.command label)) := by
  have hop := k.op_command label
  have hargs := Command.argumentsKept
  cases k with
  | trackJump =>
    have hlabel := Branch.trackJump.signedWord_command label
    have hjump := lands_jump hi label.toInt16
    simp only [Branch.labelAt] at hlabel
    simp only [Branch.Reaches, command, hop, Branch.op, hlabel]
    -- the wait is over, the place stays
    generalize e.jump i label.toInt16 = p at hjump ⊢
    obtain ⟨e', flow⟩ := p
    cases flow with
    | advance => exact hjump
    | hold =>
      refine ⟨hjump.module, fun pc hpc => ⟨rfl, ?_⟩, fun hnone => ?_⟩
      · rw [track_modifyTrack]
        split <;> exact (hjump.led pc hpc).2
      · cases (hjump.stays hnone).1
  | trackGosub =>
    have hlabel := Branch.trackGosub.signedWord_command label
    simp only [Branch.labelAt] at hlabel
    simp only [Branch.Reaches, command, hop, Branch.op, hlabel]
    exact lands_gosub hi label.toInt16 hpermits
  | seqJump =>
    have hlabel := Branch.seqJump.signedWord_command label
    have hjump := lands_jump hi label.toInt16
    rw [jump_eq] at hjump
    simp only [Branch.labelAt] at hlabel
    simp only [command, hop, Branch.op, hlabel]
    exact (hjump.forSequence hseated (Track.ofControl_jumped _).place
      (jump_eq · · _)).unless_nowhere
  | seqGosub =>
    have hlabel := Branch.seqGosub.signedWord_command label
    have hgosub := lands_gosub hi label.toInt16 hpermits
    rw [gosub_eq] at hgosub
    simp only [Branch.labelAt] at hlabel
    simp only [command, hop, Branch.op, hlabel]
    exact (hgosub.forSequence hseated (Track.ofControl_gosubbed _).place
      (gosub_eq · · _)).unless_nowhere
  | gateJump gate first =>
    have hlabel := (Branch.gateJump gate first).signedWord_command label
    obtain ⟨hgate, hfirst, -⟩ := hargs.gateJump gate first label
    obtain ⟨value, hvalue, hopen⟩ := hpermits
    have hpass := Slot.passGate_open hvalue hopen first
    simp only [Branch.labelAt, Branch.command] at hlabel hop
    simp only [Branch.Reaches, if_true, Branch.command, command, hop, Branch.op, hlabel, hgate,
      hfirst, hpass]
    exact lands_jump_modifySlot hi _ _ _
  | iterJump counter first =>
    have hlabel := (Branch.iterJump counter first).signedWord_command label
    obtain ⟨hcounter, hfirst, -⟩ := hargs.iterJump counter first label
    obtain ⟨value, hvalue, hcounts⟩ := hpermits
    have htaken := Slot.countDown_taken hvalue hcounts first
    simp only [Branch.labelAt, Branch.command] at hlabel hop
    simp only [Branch.Reaches, if_true, Branch.command, command, hop, Branch.op, hlabel, hcounter,
      hfirst, htaken]
    exact lands_jump_modifySlot hi _ _ _

/-- A branch of a written track leads to its label's place just if the label is read as it
is numbered and the branch reaches its own track. -/
theorem pc_stepTrack_branch [SoundChip σ] (hseated : e.Seated)
    (hrun : (e.track i).isRunning = true) {header : TrackHeader} {requests : List Request}
    (hstream : e.stream? i = some (assemble header requests)) {k : Branch} {label : UInt16}
    (hc : e.command? i = some (k.command label)) (hpermits : k.Permits e i) {place : Nat}
    (hplace : PlaceOf requests label.toNat place) :
    ((e.stepTrack i).track i).pc =
      if label.toNat < 2 ^ 15 ∧ k.Reaches e i then place
      else e.pcBehind i (k.command label) := by
  have hi : (e.track i).isActive = true := (Bool.and_eq_true_iff.mp hrun).1
  obtain ⟨hdriver, hengine⟩ := k.isEngine_op
  rw [← k.op_command label] at hdriver hengine
  have hlands := lands_branch hseated (lt_size_of_isActive hi) k label hpermits
  rw [stepTrack_of_engine hc hdriver hengine, hlands.pc_goOn hi, label?_toInt16 hstream hplace]
  by_cases hlow : label.toNat < 2 ^ 15 <;> by_cases hreaches : k.Reaches e i <;>
    simp only [hlow, hreaches, and_self, and_true, and_false, if_true, if_false, Option.getD_some,
      Option.getD_none]

end One

/-! ## Runs -/

/-- Where tracks and slots agree, every branch reaches its own track. -/
theorem PoolsAgree.reaches {e : Engine σ} (h : e.PoolsAgree)
    (hwide : e.module.widestSequence ≤ maxTracksPerSequence) {i : Nat}
    (hi : (e.track i).isActive = true) (k : Branch) : k.Reaches e i := by
  obtain ⟨hactive, hentry, -⟩ := h.home i hi
  have hlisted : i ∈ (e.slot (e.track i).slot).trackList := by
    rw [h.trackList_eq hwide hactive]
    exact Slot.mem_trackIds.mpr ⟨_, hentry⟩
  cases k with
  | seqJump | seqGosub => exact hlisted
  | _ => trivial

theorem InOrder.moves [SoundChip σ] {e e' : Engine σ} (h : e.InOrder) (hmoves : Moves e e') :
    e'.InOrder := by
  refine hmoves.keeps (fun a b hmove ha => ?_) h
  cases hmove with
  | deed hdeed => exact lasting_inOrder.deed a b hdeed ha
  | noteOn key velocity hrun hdriver => exact ha.noteOn_of_isRunning hrun hdriver key velocity

end Engine

open Engine Assembler in
/-- In every run, a branch whose condition holds leads the track that executes it to the
command behind the last placement of its label, if the label is in the lower half and the
branch reaches the track; otherwise the track goes on as if there were no branch. In careful
runs, branches always reach their tracks. -/
theorem branch_lands {σ : Type} [SoundChip σ] {module : SoundModule} {chip : σ} {e : Engine σ}
    (hmake : Engine.make module chip = .ok e) (calls : List (Call σ)) {p : Engine σ × Nat}
    (hp : p ∈ (Session.run { engine := e } calls).engine.executions) {header : TrackHeader}
    {requests : List Request} (hstream : p.1.stream? p.2 = some (assemble header requests))
    {k : Branch} {label : UInt16} (hc : p.1.command? p.2 = some (k.command label))
    (hpermits : k.Permits p.1 p.2) {place : Nat} (hplace : PlaceOf requests label.toNat place) :
    ((p.1.stepTrack p.2).track p.2).pc =
        (if label.toNat < 2 ^ 15 ∧ k.Reaches p.1 p.2 then place
        else p.1.pcBehind p.2 (k.command label)) ∧
      (Session.Allows Session.Careful { engine := e } calls → k.Reaches p.1 p.2) := by
  obtain ⟨hseated, hmodule⟩ := module_run hmake calls
  obtain ⟨hmoves, hrun⟩ := moves_of_mem_executions hp
  have hkept := (enduring_module e.module).moves hmoves ⟨hseated, hmodule⟩
  refine ⟨pc_stepTrack_branch hkept.1 hrun hstream hc hpermits hplace, fun hcareful => ?_⟩
  have horder := (hcareful.throughout (fun s => s.engine.InOrder)
    (fun s call h hcareful => inOrder_perform s call h hcareful) (inOrder_make hmake)).last
  refine (horder.moves hmoves).agree.reaches ?_ (Bool.and_eq_true_iff.mp hrun).1 k
  rw [hkept.2]
  exact (accepted_make hmake).1.widestSequence_le

/-! ## Many labels -/

namespace Assembler

/-- An assembler of which `n` labels wait for the first command. -/
def waitingFor (header : TrackHeader) (n : Nat) : Assembler where
  header := header
  labels := Array.replicate n none
  waiting := ((List.range n).map UInt16.ofNat).reverse

/-- Labels that are made in a row wait together. -/
theorem foldl_ask_label (header : TrackHeader) : ∀ {n : Nat}, n ≤ 2 ^ 16 →
    (List.replicate n Request.label).foldl ask { header } = waitingFor header n
  | 0, _ => rfl
  | n + 1, hn => by
    have hlabel : (UInt16.ofNat n).toNat = n := by
      rw [UInt16.toNat_ofNat']
      exact Nat.mod_eq_of_lt hn
    rw [List.replicate_succ', List.foldl_append, foldl_ask_label header (Nat.le_of_succ_le hn)]
    simp [waitingFor, ask, Assembler.label, reserve, Assembler.place, hlabel,
      Array.replicate_succ, List.range_succ]

/-- The first command is the place of all labels that wait for it. -/
theorem labels_emit_waitingFor (header : TrackHeader) {n : Nat} (hn : n ≤ 2 ^ 16)
    (delta : UInt32) (c : Command) : ((waitingFor header n).emit delta c).labels =
      Array.replicate n (some (Vlq.encode delta).length) := by
  have hwaits : ∀ i, (∃ label ∈ (waitingFor header n).waiting, label.toNat = i) ↔ i < n := by
    intro i
    simp only [waitingFor, List.mem_reverse, List.mem_map, List.mem_range,
      exists_exists_and_eq_and]
    constructor
    · rintro ⟨j, hj, rfl⟩
      exact (UInt16.toNat_ofNat' ▸ Nat.mod_le j _).trans_lt hj
    · intro hi
      refine ⟨i, hi, ?_⟩
      rw [UInt16.toNat_ofNat']
      exact Nat.mod_eq_of_lt (hi.trans_le hn)
  have hlabels : (waitingFor header n).labels = Array.replicate n none := rfl
  refine Array.ext_getElem? fun i => (getElem?_foldl_setIfInBounds _).trans ?_
  simp only [hwaits, hlabels, Array.getElem?_replicate]
  split <;> simp [waitingFor]

/-- Events write no label where none waits. -/
theorem foldl_ask_event : ∀ (events : List (UInt32 × Command)) {a : Assembler},
    a.waiting = [] →
      ((events.map fun p => Request.line (.event p.1 p.2)).foldl ask a).header = a.header ∧
        ((events.map fun p => Request.line (.event p.1 p.2)).foldl ask a).labels = a.labels
  | [], _, _ => ⟨rfl, rfl⟩
  | (delta, c) :: events, a, hnone => by
    have hlabels : (a.emit delta c).labels = a.labels := by
      simp [emit, hnone]
    obtain ⟨hheader, hrest⟩ := @foldl_ask_event events (a.emit delta c) rfl
    exact ⟨hheader, hrest.trans hlabels⟩

/-- The requests for a track with `n` labels before its first command. -/
def crowded (n : Nat) (events : List (UInt32 × Command)) : List Request :=
  List.replicate n .label ++ events.map fun p => .line (.event p.1 p.2)

theorem written_crowded (n : Nat) (events : List (UInt32 × Command)) :
    written (crowded n events) = events := by
  have hlabels : written (List.replicate n .label) = [] :=
    List.filterMap_eq_nil_iff.mpr fun r hr => by rw [List.eq_of_mem_replicate hr]; rfl
  have hevents : written (events.map fun p => .line (.event p.1 p.2)) = events := by
    unfold written
    rw [List.filterMap_map]
    exact List.filterMap_some
  rw [crowded, written_append, hlabels, hevents, List.nil_append]

/-- All of its labels stand for that command. -/
theorem assemble_crowded (header : TrackHeader) {n : Nat} (hn : n ≤ 2 ^ 16) (delta : UInt32)
    (c : Command) (events : List (UInt32 × Command)) :
    assemble header (crowded n ((delta, c) :: events)) =
      { header, labels := Array.replicate n (Vlq.encode delta).length,
        bytes := (eventBytes ((delta, c) :: events)).toArray } := by
  obtain ⟨hheader, hlabels⟩ := @foldl_ask_event events ((waitingFor header n).emit delta c) rfl
  have hasked : (crowded n ((delta, c) :: events)).foldl ask { header } =
      (events.map fun p => Request.line (.event p.1 p.2)).foldl ask
        ((waitingFor header n).emit delta c) := by
    rw [crowded, List.foldl_append, foldl_ask_label header hn]
    rfl
  have hbytes := bytes_assemble header (crowded n ((delta, c) :: events))
  rw [written_crowded] at hbytes
  rw [labels_emit_waitingFor header hn] at hlabels
  unfold assemble at hbytes ⊢
  rw [hasked] at hbytes ⊢
  unfold build at hbytes ⊢
  rw [TrackStream.mk.injEq]
  refine ⟨hheader, ?_, hbytes⟩
  rw [hlabels]
  simp

theorem placeOf_crowded {n : Nat} (hn : n ≤ 2 ^ 16) (delta : UInt32) (c : Command)
    (events : List (UInt32 × Command)) {label : Nat} (hlabel : label < n) :
    PlaceOf (crowded n ((delta, c) :: events)) label (Vlq.encode delta).length := by
  have hmade : made (crowded n ((delta, c) :: events)) = n := by
    rw [← size_labels_assemble {}, assemble_crowded {} hn, Array.size_replicate]
  have htable := @label_assemble {} (crowded n ((delta, c) :: events)) _ (Vlq.encode delta).length
    (hmade ▸ hlabel)
  rw [assemble_crowded {} hn] at htable
  rcases htable.mp (by simp [hlabel]) with hplace | ⟨-, hend⟩
  · exact hplace
  · -- the command itself takes a byte
    have hbyte := c.length_toBytes
    rw [List.size_toArray, eventBytes, List.flatMap_cons, List.length_append,
      List.length_append] at hend
    dsimp only at hend
    omega

end Assembler

/-- A module whose only track is what requests write. -/
def ofRequests (requests : List Assembler.Request) : SoundModule :=
  { solo [] with sequences := #[#[Assembler.assemble {} requests]] }

/-- A note, and three parts later a branch. -/
def refrain (branch : Command) : List (UInt32 × Command) :=
  [(0, .noteOn 60 100), (3, branch), (1000, .trackEnd)]

open Engine Assembler

/-- A jump of the sequence leads back to the note. -/
theorem branch_lands_refrain : ∃ e,
    Engine.make (ofRequests (crowded 1 (refrain (.seqJump 0)))) ({} : RecorderChip) = .ok e ∧
      ∃ p ∈ (Session.run { engine := e } [.start 0 {}, .tick]).engine.executions,
        p.1.command? p.2 = some (.seqJump 0) ∧ ((p.1.stepTrack p.2).track p.2).pc = 1 := by
  obtain ⟨e, hmake, p, hp, hstream, hc, hreaches⟩ : ∃ e,
      Engine.make (ofRequests (crowded 1 (refrain (.seqJump 0)))) ({} : RecorderChip) = .ok e ∧
        ∃ p ∈ (Session.run { engine := e } [.start 0 {}, .tick]).engine.executions,
          p.1.stream? p.2 = some (assemble {} (crowded 1 (refrain (.seqJump 0)))) ∧
            p.1.command? p.2 = some (.seqJump 0) ∧ Branch.seqJump.Reaches p.1 p.2 :=
    exists_make (by decide +kernel)
  have hplace : PlaceOf (crowded 1 (refrain (.seqJump 0))) (0 : UInt16).toNat 1 :=
    placeOf_crowded (by decide) 0 _ _ Nat.zero_lt_one
  have hlands := (branch_lands hmake [.start 0 {}, .tick] hp hstream (k := .seqJump) hc trivial
    hplace).1
  rw [if_pos ⟨by decide, hreaches⟩] at hlands
  exact ⟨e, hmake, p, hp, hc, hlands⟩

theorem sizes_ofRequests (requests : List Request) (events : List (UInt32 × Command)) :
    (ofRequests requests).limits = (solo events).limits ∧
      (ofRequests requests).widestSequence = (solo events).widestSequence := ⟨rfl, rfl⟩

theorem ofRequests_crowded {n : Nat} (hn : n ≤ 2 ^ 16) (branch : Command) :
    ofRequests (crowded n (refrain branch)) =
      { solo [] with
        sequences := #[#[{
          labels := Array.replicate n 1
          bytes := (eventBytes (refrain branch)).toArray }]] } := by
  rw [ofRequests, refrain, assemble_crowded {} hn]
  rfl

/-- However many labels there are, the module is accepted. -/
theorem accepted_crowded {n : Nat} (hn : n ≤ 2 ^ 16) (branch : Command) :
    (ofRequests (crowded n (refrain branch))).Accepted := by
  have hsolo : (solo []).Accepted := SoundModule.flaw?_eq_none_iff.mp (by decide +kernel)
  have hsequence : ∀ {sequence : Nat} {tracks : Array TrackStream},
      (ofRequests (crowded n (refrain branch))).sequences[sequence]? = some tracks →
        tracks = #[assemble {} (crowded n (refrain branch))] := by
    intro sequence tracks h
    simpa using (Array.mem_of_getElem? h : tracks ∈ #[_])
  have htrack : ∀ {sequence position : Nat} {stream : TrackStream},
      (ofRequests (crowded n (refrain branch))).track? sequence position = some stream →
        stream = assemble {} (crowded n (refrain branch)) := by
    intro sequence position stream h
    obtain ⟨tracks, htracks, hstream⟩ := Option.bind_eq_some_iff.mp h
    obtain rfl := hsequence htracks
    simpa using Array.mem_of_getElem? hstream
  rw [refrain, assemble_crowded {} hn] at hsequence htrack
  refine { hsolo with size_le := fun h => ?_, depth_le := fun h => ?_, label_lt := fun h => ?_ }
  · rw [hsequence h]
    exact (by decide : 1 ≤ maxTracksPerSequence)
  · rw [htrack h]
    exact (by decide : (4 : UInt8).toNat ≤ maxReturnDepth)
  · rw [htrack h]
    intro place hplace
    rw [(Array.mem_replicate.mp hplace).2]
    simp [eventBytes, Command.length_toBytes]

/-- At first, an engine knows nothing of its module but the sizes. -/
theorem Engine.make_of_sizes {σ : Type} [SoundChip σ] {m m' : SoundModule} {chip : σ}
    (haccepted : m'.Accepted) (hlimits : m'.limits = m.limits)
    (hwidest : m'.widestSequence = m.widestSequence) {e : Engine σ}
    (hmake : Engine.make m chip = .ok e) :
    Engine.make m' chip = .ok { e with module := m' } := by
  unfold Engine.make at hmake ⊢
  split at hmake
  · cases hmake
  · cases hmake
    rw [SoundModule.flaw?_eq_none_iff.mpr haccepted, hlimits, hwidest]

/-- The first label of the upper half has its place in a track that is accepted, but a jump
to it goes on behind the jump. -/
theorem not_branch_lands_upper : ∃ e,
    Engine.make (ofRequests (crowded 32769 (refrain (.trackJump 32768)))) ({} : RecorderChip) =
        .ok e ∧
      ∃ p ∈ (Session.run { engine := e } [.start 0 {}, .tick]).engine.executions,
        p.1.stream? p.2 = some (assemble {} (crowded 32769 (refrain (.trackJump 32768)))) ∧
          p.1.command? p.2 = some (Branch.trackJump.command 32768) ∧
          Branch.trackJump.Permits p.1 p.2 ∧
          PlaceOf (crowded 32769 (refrain (.trackJump 32768))) (32768 : UInt16).toNat 1 ∧
          ((p.1.stepTrack p.2).track p.2).pc ≠ 1 := by
  have hn : 32769 ≤ 2 ^ 16 := by decide
  -- the run is computed beside a table of labels that is not written out
  obtain ⟨e, hmake, p, hp, ⟨hsequence, hposition⟩, hc, hpc⟩ : ∃ e,
      Engine.make (solo (refrain (.trackJump 32768))) ({} : RecorderChip) = .ok e ∧
        ∃ p ∈ (Session.run { engine := { e with module := { solo [] with
            sequences := #[#[{
              labels := Array.replicate 32769 1
              bytes := (eventBytes (refrain (.trackJump 32768))).toArray }]] } } }
            [.start 0 {}, .tick]).engine.executions,
          ((p.1.track p.2).sequence = 0 ∧ (p.1.track p.2).position = 0) ∧
            p.1.command? p.2 = some (Branch.trackJump.command 32768) ∧
            ((p.1.stepTrack p.2).track p.2).pc ≠ 1 := exists_make (by decide +kernel)
  rw [← ofRequests_crowded hn] at hp
  obtain ⟨hlimits, hwidest⟩ := sizes_ofRequests (crowded 32769 (refrain (.trackJump 32768)))
    (refrain (.trackJump 32768))
  have hmake' := make_of_sizes (accepted_crowded hn _) hlimits hwidest hmake
  obtain ⟨hseated, hmodule⟩ := module_run hmake' [.start 0 {}, .tick]
  have hkept := (enduring_module _).moves (moves_of_mem_executions hp).1 ⟨hseated, hmodule⟩
  have hstream : p.1.stream? p.2 =
      some (assemble {} (crowded 32769 (refrain (.trackJump 32768)))) := by
    rw [stream?, hkept.2, hsequence, hposition]
    rfl
  exact ⟨_, hmake', p, hp, hstream, hc, trivial, placeOf_crowded hn 0 _ _ (by decide), hpc⟩

end SoundSequencer
