/-
SoundSequencer.Proofs.Boxes — gates and counters while all tracks of a sequence use them.

* `BoxKind` are the two kinds of boxes, with the jumps at them and the commands that set them
  otherwise. `BoxKind.next` is what a jump leaves in its box, `BoxKind.after` what several leave in
  one that is unset at first.
* `command_of_jumpOp` and `command_of_isFor` say what a command does with a box and without one,
  `getElem?_obey` what any command leaves in a box.
* `Session.executions` are the commands of a run; a `Passage` through them says that nothing else
  changes the boxes of a slot.
* `boxes_guard` says which jumps at a box go ahead, however the tracks of the slot take turns.
-/
import SoundSequencer.Proofs.Allocation
import SoundSequencer.Proofs.Executions
import SoundSequencer.Proofs.SameBoxes

namespace SoundSequencer

/-! ## Two kinds of boxes -/

/-- The kinds of boxes that a slot has. -/
inductive BoxKind where
  | gate | counter
  deriving Repr, DecidableEq

namespace BoxKind

/-- The boxes of a kind. -/
def boxes : BoxKind → Slot → Array UInt8
  | gate, s => s.gates
  | counter, s => s.iters

/-- The slot with another value in a box. -/
def write (kind : BoxKind) (box value : UInt8) (s : Slot) : Slot :=
  match kind with
  | gate => { s with gates := s.gates.setIfInBounds box.toNat value }
  | counter => { s with iters := s.iters.setIfInBounds box.toNat value }

/-- The jump that a box guards. -/
def jumpOp : BoxKind → Opcode
  | gate => .gateJump
  | counter => .iterJump

/-- The command that makes boxes unset. -/
def resetOp : BoxKind → Opcode
  | gate => .resetGates
  | counter => .resetIters

/-- Whether a command is a jump at a box. -/
def jumpsAt (kind : BoxKind) (box : UInt8) (c : Command) : Bool :=
  c.op == kind.jumpOp && c.byte 1 == box

/-- Whether a command makes a box unset or writes it. -/
def sets (kind : BoxKind) (box : UInt8) (c : Command) : Bool :=
  (c.op == kind.resetOp && (c.byte 1 == box || c.byte 1 == everyIndex)) ||
    (kind == counter && c.op == .writeIter && c.byte 1 == box)

/-- Whether a command is one for a single box of the kind. -/
def isFor (kind : BoxKind) (c : Command) : Bool :=
  c.op == kind.jumpOp || (c.op == kind.resetOp && c.byte 1 != everyIndex) ||
    (kind == counter && c.op == .writeIter)

/-! ### What jumps leave in a box -/

/-- What a jump that carries `first` leaves in its box. -/
def next (kind : BoxKind) (value first : UInt8) : UInt8 :=
  if value = 0 then 0
  else if value = unset then first
  else
    match kind with
    | gate => value
    | counter => value - 1

/-- What is in a box after `k` jumps at it, if it was unset at first and the first jump carries
`first`: a gate keeps that, a counter is counted down from it. -/
def after (kind : BoxKind) (first : UInt8) (k : Nat) : UInt8 :=
  if k = 0 then unset
  else
    match kind with
    | gate => first
    | counter => UInt8.ofNat (first.toNat - (k - 1))

/-- Whether a jump with `k` others before it goes ahead: at a gate the first does, and the others
unless the gate is at zero; at a counter as many do after the first as it carries. -/
def goesAhead (kind : BoxKind) (first : UInt8) (k : Nat) : Bool :=
  match kind with
  | gate => k == 0 || first != 0
  | counter => k ≤ first.toNat

theorem toNat_after_counter (first : UInt8) {k : Nat} (hk : k ≠ 0) :
    (counter.after first k).toNat = first.toNat - (k - 1) := by
  have hlt := UInt8.toNat_lt first
  simp only [after, if_neg hk, UInt8.toNat_ofNat']
  omega

/-- A box that was written does not become unset again. -/
theorem after_ne_unset {kind : BoxKind} {first : UInt8} (hfirst : first ≠ unset) {k : Nat}
    (hk : k ≠ 0) : kind.after first k ≠ unset := by
  cases kind with
  | gate => simpa [after, hk] using hfirst
  | counter =>
    have hvalue := toNat_after_counter first hk
    intro hback
    rw [hback] at hvalue
    refine hfirst (UInt8.toNat_inj.mp ?_)
    have hlt := UInt8.toNat_lt first
    have hunset : unset.toNat = 255 := rfl
    omega

theorem goesAhead_iff (kind : BoxKind) (first : UInt8) (k : Nat) :
    kind.goesAhead first k = true ↔ kind.after first k ≠ 0 := by
  by_cases hk : k = 0
  · subst hk
    cases kind <;> simp [goesAhead, after, unset]
  · cases kind with
    | gate => simp [goesAhead, after, hk]
    | counter =>
      have hvalue := toNat_after_counter first hk
      rw [ne_eq, ← UInt8.toNat_inj, hvalue]
      simp only [goesAhead, decide_eq_true_eq, UInt8.toNat_zero]
      omega

/-- One jump more. -/
theorem next_after {kind : BoxKind} {first carried : UInt8} {k : Nat}
    (hfirst : k = 0 → carried = first) (hset : k ≠ 0 → first ≠ unset) :
    kind.next (kind.after first k) carried = kind.after first (k + 1) := by
  by_cases hk : k = 0
  · subst hk
    rw [hfirst rfl]
    cases kind <;> simp [next, after, unset]
  · have hunset : kind.after first k ≠ unset := after_ne_unset (hset hk) hk
    cases kind with
    | gate =>
      have hkeeps : ∀ l, l ≠ 0 → gate.after first l = first := fun l hl => by simp [after, hl]
      rw [hkeeps k hk] at hunset ⊢
      rw [hkeeps (k + 1) (by omega), next, if_neg hunset]
      split
      · next hzero => exact hzero.symm
      · rfl
    | counter =>
      have hvalue := toNat_after_counter first hk
      have hvalue' := toNat_after_counter first (Nat.succ_ne_zero k)
      rw [next, if_neg hunset]
      rw [← UInt8.toNat_inj, hvalue']
      split
      · next hzero =>
        rw [hzero] at hvalue
        simp only [UInt8.toNat_zero] at hvalue ⊢
        omega
      · next hzero =>
        have hle : (1 : UInt8) ≤ counter.after first k := by
          rw [UInt8.le_iff_toNat_le]
          rw [← UInt8.toNat_inj] at hzero
          simp only [UInt8.toNat_zero, UInt8.toNat_one] at hzero ⊢
          omega
        rw [UInt8.toNat_sub_of_le _ _ hle, hvalue, UInt8.toNat_one]
        omega

/-! ### Boxes of a slot -/

theorem getElem?_write (kind : BoxKind) (s : Slot) (box value : UInt8) (other : UInt8) :
    (kind.boxes (kind.write box value s))[other.toNat]? =
      if box = other then (kind.boxes s)[other.toNat]?.map fun _ => value
      else (kind.boxes s)[other.toNat]? := by
  have hread : ∀ boxes : Array UInt8, (boxes.setIfInBounds box.toNat value)[other.toNat]? =
      if box = other then boxes[other.toNat]?.map fun _ => value else boxes[other.toNat]? := by
    intro boxes
    rw [Array.getElem?_setIfInBounds]
    by_cases hbox : box = other
    · subst hbox
      by_cases hlt : box.toNat < boxes.size
      · simp [hlt]
      · simp [hlt]
    · rw [if_neg fun heq => hbox (UInt8.toNat_inj.mp heq), if_neg hbox]
  cases kind <;> exact hread _

/-- What a jump does with its box: the slot after it, and whether it goes ahead. -/
def pass (kind : BoxKind) (s : Slot) (box first : UInt8) : Slot × Bool :=
  match kind with
  | gate => s.passGate box first
  | counter => s.countDown box first

theorem pass_of_none {kind : BoxKind} {s : Slot} {box : UInt8}
    (h : (kind.boxes s)[box.toNat]? = none) (first : UInt8) :
    kind.pass s box first = (s, false) := by
  cases kind with
  | gate =>
    unfold pass Slot.passGate
    rw [show s.gates[box.toNat]? = none from h]
  | counter =>
    unfold pass Slot.countDown
    rw [show s.iters[box.toNat]? = none from h]

theorem pass_of_some {kind : BoxKind} {s : Slot} {box value : UInt8}
    (h : (kind.boxes s)[box.toNat]? = some value) (first : UInt8) :
    kind.pass s box first =
      if value = 0 then (s, false) else (kind.write box (kind.next value first) s, true) := by
  cases kind with
  | gate =>
    have hgate : s.gates[box.toNat]? = some value := h
    unfold pass Slot.passGate write next
    rw [hgate]
    dsimp only
    split
    · rfl
    · split
      · rfl
      · have hsame : s.gates.setIfInBounds box.toNat value = s.gates := by
          obtain ⟨hlt, rfl⟩ := Array.getElem?_eq_some_iff.mp hgate
          simp [Array.setIfInBounds, hlt]
        rw [hsame]
  | counter =>
    unfold pass Slot.countDown write next
    rw [show s.iters[box.toNat]? = some value from h]
    dsimp only
    split <;> rfl

/-- A jump writes its box, or does nothing and does not go ahead. -/
theorem pass_cases (kind : BoxKind) (s : Slot) (box first : UInt8) :
    kind.pass s box first = (s, false) ∨
      ∃ value, kind.pass s box first = (kind.write box value s, true) := by
  cases hbox : (kind.boxes s)[box.toNat]? with
  | none => exact .inl (pass_of_none hbox first)
  | some value =>
    rw [pass_of_some hbox]
    split
    · exact .inl rfl
    · exact .inr ⟨_, rfl⟩

/-- A box after a jump at another box of the slot, or at itself. -/
theorem getElem?_pass {kind : BoxKind} {s : Slot} {box value : UInt8}
    (h : (kind.boxes s)[box.toNat]? = some value) (other first : UInt8) :
    (kind.boxes (kind.pass s other first).1)[box.toNat]? =
      some (if other = box then kind.next value first else value) := by
  cases hother : (kind.boxes s)[other.toNat]? with
  | none =>
    have hne : other ≠ box := by
      rintro rfl
      rw [h] at hother
      cases hother
    rw [pass_of_none hother, if_neg hne, h]
  | some found =>
    rw [pass_of_some hother]
    by_cases hbox : other = box
    · subst hbox
      have hfound : found = value := Option.some.inj (hother.symm.trans h)
      subst hfound
      rw [if_pos rfl]
      split
      · next hzero =>
        have hshut : kind.next 0 first = 0 := if_pos rfl
        rw [h, hzero, hshut]
      · rw [getElem?_write, if_pos rfl, h, Option.map_some]
    · rw [if_neg hbox]
      split
      · exact h
      · rw [getElem?_write, if_neg hbox, h]

end BoxKind

theorem getElem?_resetBoxes {boxes : Array UInt8} {index box : UInt8} (hbox : index ≠ box)
    (hevery : index ≠ everyIndex) :
    (Slot.resetBoxes boxes index)[box.toNat]? = boxes[box.toNat]? := by
  rw [Slot.resetBoxes, if_neg hevery, Array.getElem?_setIfInBounds,
    if_neg fun heq => hbox (UInt8.toNat_inj.mp heq)]

/-- What a command makes of the boxes of its track's slot. -/
def Command.onBoxes (c : Command) (s : Slot) : Slot :=
  match c.op with
  | .gateJump => (s.passGate (c.byte 1) (c.byte 2)).1
  | .iterJump => (s.countDown (c.byte 1) (c.byte 2)).1
  | .resetGates => s.resetGates (c.byte 1)
  | .resetIters => s.resetIters (c.byte 1)
  | .writeIter => s.writeIter (c.byte 1) (c.byte 2)
  | _ => s

theorem BoxKind.onBoxes_of_jumpOp {kind : BoxKind} {c : Command} (h : c.op = kind.jumpOp)
    (s : Slot) : c.onBoxes s = (kind.pass s (c.byte 1) (c.byte 2)).1 := by
  unfold Command.onBoxes
  rw [h]
  cases kind <;> rfl

/-- A box that a command does not set changes only with a jump at it. -/
theorem BoxKind.getElem?_onBoxes {kind : BoxKind} {s : Slot} {box value : UInt8} {c : Command}
    (h : (kind.boxes s)[box.toNat]? = some value) (hsets : kind.sets box c = false) :
    (kind.boxes (c.onBoxes s))[box.toNat]? =
      some (if kind.jumpsAt box c then kind.next value (c.byte 2) else value) := by
  by_cases hop : c.op = kind.jumpOp
  · rw [onBoxes_of_jumpOp hop, getElem?_pass h]
    simp [jumpsAt, hop]
  · have hother : kind.jumpsAt box c = false := by simp [jumpsAt, hop]
    rw [hother, if_neg Bool.false_ne_true, ← h]
    unfold Command.onBoxes
    cases kind with
    | gate =>
      split
      case h_1 hgate => exact absurd hgate hop
      case h_2 =>
        rcases counter.pass_cases s (c.byte 1) (c.byte 2) with hshut | ⟨value, hopen⟩
        · exact congrArg (·.1.gates[box.toNat]?) hshut
        · exact congrArg (·.1.gates[box.toNat]?) hopen
      case h_3 hreset =>
        simp only [sets, hreset, resetOp, beq_self_eq_true, Bool.true_and, Bool.or_eq_false_iff,
          beq_eq_false_iff_ne] at hsets
        exact getElem?_resetBoxes hsets.1.1 hsets.1.2
      all_goals rfl
    | counter =>
      split
      case h_1 =>
        rcases gate.pass_cases s (c.byte 1) (c.byte 2) with hshut | ⟨value, hopen⟩
        · exact congrArg (·.1.iters[box.toNat]?) hshut
        · exact congrArg (·.1.iters[box.toNat]?) hopen
      case h_2 hcounter => exact absurd hcounter hop
      case h_4 hreset =>
        simp only [sets, hreset, resetOp, beq_self_eq_true, Bool.true_and, Bool.or_eq_false_iff,
          beq_eq_false_iff_ne] at hsets
        exact getElem?_resetBoxes hsets.1.1 hsets.1.2
      case h_5 hwrite =>
        simp only [sets, hwrite, beq_self_eq_true, Bool.true_and, Bool.or_eq_false_iff,
          beq_eq_false_iff_ne] at hsets
        refine Array.getElem?_setIfInBounds_ne fun heq => ?_
        exact hsets.2 (UInt8.toNat_inj.mp heq)
      all_goals rfl

/-- Whether a command is one for boxes. -/
def Command.isForBoxes (c : Command) : Bool :=
  c.op matches .gateJump | .iterJump | .resetGates | .resetIters | .writeIter

theorem Command.onBoxes_of_not_isForBoxes {c : Command} (h : c.isForBoxes = false) (s : Slot) :
    c.onBoxes s = s := by
  unfold isForBoxes at h
  unfold onBoxes
  split <;> simp_all

theorem Command.active_onBoxes (c : Command) (s : Slot) : (c.onBoxes s).active = s.active := by
  have hpass : ∀ kind : BoxKind, (kind.pass s (c.byte 1) (c.byte 2)).1.active = s.active := by
    intro kind
    rcases kind.pass_cases s (c.byte 1) (c.byte 2) with hshut | ⟨value, hopen⟩
    · rw [hshut]
    · rw [hopen]
      cases kind <;> rfl
  unfold onBoxes
  split
  · exact hpass .gate
  · exact hpass .counter
  all_goals rfl

/-- The sequencer executes the commands for boxes itself. -/
theorem Command.isEngine_of_isForBoxes {c : Command} (h : c.isForBoxes = true) :
    c.op.isEngine = true ∧ c.op.isDriver = false := by
  unfold isForBoxes at h
  revert h
  cases c.op <;> decide

namespace Engine

variable {σ : Type}

/-! ## Commands -/

theorem command_eq_pass {kind : BoxKind} {c : Command} (hop : c.op = kind.jumpOp) (e : Engine σ)
    (i : Nat) :
    e.command i c =
      if (kind.pass (e.slot (e.track i).slot) (c.byte 1) (c.byte 2)).2 then
        (e.modifySlot (e.track i).slot fun _ =>
          (kind.pass (e.slot (e.track i).slot) (c.byte 1) (c.byte 2)).1).jump i (c.signedWord 3)
      else (e, .advance) := by
  unfold command
  rw [hop]
  cases kind <;> rfl

/-- A jump at a box: the box changes first, and then the track looks for its label. -/
theorem command_of_jumpOp {kind : BoxKind} {e : Engine σ} {i : Nat} {c : Command}
    (hop : c.op = kind.jumpOp) {value : UInt8}
    (h : (kind.boxes (e.slot (e.track i).slot))[(c.byte 1).toNat]? = some value) :
    e.command i c =
      if value = 0 then (e, .advance)
      else (e.modifySlot (e.track i).slot
        (kind.write (c.byte 1) (kind.next value (c.byte 2)))).jump i (c.signedWord 3) := by
  rw [command_eq_pass hop, BoxKind.pass_of_some h]
  by_cases hzero : value = 0
  · rw [if_pos hzero, if_pos hzero, if_neg Bool.false_ne_true]
  · rw [if_neg hzero, if_neg hzero, if_pos rfl]
    have hwritten : (e.modifySlot (e.track i).slot fun _ =>
        kind.write (c.byte 1) (kind.next value (c.byte 2)) (e.slot (e.track i).slot)) =
          e.modifySlot (e.track i).slot (kind.write (c.byte 1) (kind.next value (c.byte 2))) :=
      modifySlot_congr rfl
    rw [hwritten]

/-- A command for a box that the slot does not have does nothing. -/
theorem command_of_isFor {kind : BoxKind} {e : Engine σ} {i : Nat} {c : Command}
    (hfor : kind.isFor c = true)
    (h : (kind.boxes (e.slot (e.track i).slot)).size ≤ (c.byte 1).toNat) :
    e.command i c = (e, .advance) := by
  by_cases hop : c.op = kind.jumpOp
  · rw [command_eq_pass hop, BoxKind.pass_of_none (Array.getElem?_eq_none h),
      if_neg Bool.false_ne_true]
  · have hsame : ∀ value, (kind.boxes (e.slot (e.track i).slot)).setIfInBounds (c.byte 1).toNat
        value = kind.boxes (e.slot (e.track i).slot) := fun value =>
      Array.setIfInBounds_eq_of_size_le h
    simp only [BoxKind.isFor, beq_eq_false_iff_ne.mpr hop, Bool.false_or, Bool.or_eq_true,
      Bool.and_eq_true, beq_iff_eq, bne_iff_ne] at hfor
    rcases hfor with ⟨hreset, hone⟩ | ⟨rfl, hwrite⟩
    · have hboxes : Slot.resetBoxes (kind.boxes (e.slot (e.track i).slot)) (c.byte 1) =
          kind.boxes (e.slot (e.track i).slot) := (if_neg hone).trans (hsame unset)
      unfold command
      rw [hreset]
      cases kind with
      | gate =>
        have hidle : e.modifySlot (e.track i).slot (·.resetGates (c.byte 1)) = e :=
          modifySlot_of_eq (congrArg (fun gates => { e.slot (e.track i).slot with gates }) hboxes)
        exact congrArg (·, Flow.advance) hidle
      | counter =>
        have hidle : e.modifySlot (e.track i).slot (·.resetIters (c.byte 1)) = e :=
          modifySlot_of_eq (congrArg (fun iters => { e.slot (e.track i).slot with iters }) hboxes)
        exact congrArg (·, Flow.advance) hidle
    · have hidle : e.modifySlot (e.track i).slot (·.writeIter (c.byte 1) (c.byte 2)) = e :=
        modifySlot_of_eq
          (congrArg (fun iters => { e.slot (e.track i).slot with iters }) (hsame (c.byte 2)))
      unfold command
      rw [hwrite]
      exact congrArg (·, Flow.advance) hidle

/-- A jump at a box changes the box and nothing else in the boxes. -/
theorem sameBoxes_command_of_jumpOp {kind : BoxKind} {e : Engine σ} {i : Nat} {c : Command}
    (hop : c.op = kind.jumpOp) :
    SameBoxes (e.modifySlot (e.track i).slot c.onBoxes) (e.command i c).1 := by
  have hslot : c.onBoxes (e.slot (e.track i).slot) =
      (kind.pass (e.slot (e.track i).slot) (c.byte 1) (c.byte 2)).1 :=
    BoxKind.onBoxes_of_jumpOp hop _
  rw [command_eq_pass hop]
  split
  · have hpassed : e.modifySlot (e.track i).slot c.onBoxes =
        e.modifySlot (e.track i).slot fun _ =>
          (kind.pass (e.slot (e.track i).slot) (c.byte 1) (c.byte 2)).1 := modifySlot_congr hslot
    rw [hpassed]
    exact sameBoxes_jump _ i _
  · next hshut =>
    have hsame : c.onBoxes (e.slot (e.track i).slot) = e.slot (e.track i).slot := by
      rcases kind.pass_cases (e.slot (e.track i).slot) (c.byte 1) (c.byte 2) with
        heq | ⟨value, hopen⟩
      · rw [hslot, heq]
      · rw [hopen] at hshut
        exact absurd rfl hshut
    rw [modifySlot_of_eq hsame]
    exact .refl e

/-- A command that is not for boxes leaves them alone. -/
theorem sameBoxes_command_of_not_isForBoxes {e : Engine σ} {i : Nat} {c : Command}
    (hfor : c.isForBoxes = false) : SameBoxes e (e.command i c).1 := by
  unfold command
  dsimp only
  split
  case h_1 =>
    unfold hearMark
    split <;> exact .of_slots rfl
  case h_2 hop | h_3 hop | h_4 hop | h_5 hop | h_6 hop =>
    simp [Command.isForBoxes, hop] at hfor
  case h_7 => exact sameBoxes_foldl (fun e other => sameBoxes_modifyTrack e other _) _ e
  case h_8 =>
    split
    · exact .refl e
    · exact sameBoxes_forSequence (fun e other => sameBoxes_gosub e other _) e i
  case h_9 =>
    split
    · exact .refl e
    · exact sameBoxes_forSequence (fun e other => sameBoxes_jump e other _) e i
  case h_10 => exact sameBoxes_forSequence sameBoxes_goBack e i
  case h_11 => exact sameBoxes_endSequence e _
  case h_12 => exact sameBoxes_modifyTrack e i _
  case h_13 => exact sameBoxes_gosub e i _
  case h_14 =>
    have hjumped := sameBoxes_jump e i (c.signedWord 1)
    split
    · next e' heq =>
      rw [heq] at hjumped
      exact hjumped.trans (sameBoxes_modifyTrack e' i _)
    · next e' heq =>
      rw [heq] at hjumped
      exact hjumped
  case h_15 => exact sameBoxes_goBack e i
  case h_16 => exact sameBoxes_endTrack e i
  case h_17 => exact .refl e

theorem sameBoxes_command (e : Engine σ) (i : Nat) (c : Command) :
    SameBoxes (e.modifySlot (e.track i).slot c.onBoxes) (e.command i c).1 := by
  cases hfor : c.isForBoxes with
  | false =>
    have hidle : e.modifySlot (e.track i).slot c.onBoxes = e :=
      modifySlot_of_eq (c.onBoxes_of_not_isForBoxes hfor _)
    rw [hidle]
    exact sameBoxes_command_of_not_isForBoxes hfor
  | true =>
    cases hop : c.op with
    | gateJump => exact @sameBoxes_command_of_jumpOp _ .gate e i c hop
    | iterJump => exact @sameBoxes_command_of_jumpOp _ .counter e i c hop
    | resetGates | resetIters | writeIter =>
      unfold command Command.onBoxes
      rw [hop]
      exact .refl _
    | _ => simp [Command.isForBoxes, hop] at hfor

/-! ## Executions on a slot -/

/-- The command at the place of track `i`, if that is a track of slot `home` and the slot is in
use. -/
def commandOn? (e : Engine σ) (home i : Nat) : Option Command :=
  if (e.slot home).active ∧ (e.track i).slot = home then e.command? i else none

/-- Whether a command that is executed is a jump of the slot at a box. -/
def jumpsOn (kind : BoxKind) (home : Nat) (box : UInt8) (p : Engine σ × Nat) : Bool :=
  (p.1.commandOn? home p.2).any (kind.jumpsAt box)

/-- Whether a command that is executed sets a box of the slot. -/
def setsOn (kind : BoxKind) (home : Nat) (box : UInt8) (p : Engine σ × Nat) : Bool :=
  (p.1.commandOn? home p.2).any (kind.sets box)

/-- The number that a jump which is executed carries for its box. -/
def carried (p : Engine σ × Nat) : UInt8 := (p.1.command? p.2).elim 0 (·.byte 2)

theorem commandOn?_eq_some {e : Engine σ} {home i : Nat} {c : Command} :
    e.commandOn? home i = some c ↔
      (e.slot home).active = true ∧ (e.track i).slot = home ∧ e.command? i = some c := by
  unfold commandOn?
  split
  · next h => exact ⟨fun hc => ⟨h.1, h.2, hc⟩, fun hc => hc.2.2⟩
  · next h => exact ⟨nofun, fun hc => absurd ⟨hc.1, hc.2.1⟩ h⟩

/-- A slot that is in use was so before and has the boxes that it had. -/
def KeptBoxes (home : Nat) (e e' : Engine σ) : Prop :=
  (e'.slot home).active = true →
    (e.slot home).active = true ∧ (e'.slot home).boxes = (e.slot home).boxes

theorem KeptBoxes.trans {home : Nat} {a b c : Engine σ} (hab : KeptBoxes home a b)
    (hbc : KeptBoxes home b c) : KeptBoxes home a c := by
  intro hc
  obtain ⟨hb, hboxes⟩ := hbc hc
  exact ⟨(hab hb).1, hboxes.trans (hab hb).2⟩

theorem SameBoxes.kept {e e' : Engine σ} (h : SameBoxes e e') (home : Nat) :
    KeptBoxes home e e' := fun hactive => ⟨h.active home hactive, h.boxes home⟩

theorem KeptBoxes.getElem? {home : Nat} {e e' : Engine σ} (h : KeptBoxes home e e')
    (hactive : (e'.slot home).active = true) (kind : BoxKind) (box : Nat) :
    (kind.boxes (e'.slot home))[box]? = (kind.boxes (e.slot home))[box]? := by
  have hboxes := (h hactive).2
  have hgates : (e'.slot home).gates = (e.slot home).gates := (congrArg Slot.gates hboxes :)
  have hiters : (e'.slot home).iters = (e.slot home).iters := (congrArg Slot.iters hboxes :)
  cases kind with
  | gate => exact congrArg (·[box]?) hgates
  | counter => exact congrArg (·[box]?) hiters

variable [SoundChip σ]

/-- What a track obeys changes its slot's boxes as the command says, and no others. -/
theorem sameBoxes_obey {e : Engine σ} {i : Nat} {c : Command} (h : e.command? i = some c) :
    SameBoxes (e.modifySlot (e.track i).slot c.onBoxes) (e.obey i) := by
  have hidle : (c.isForBoxes = true → ¬ (c.op.isEngine = true ∧ c.op.isDriver = false)) →
      e.modifySlot (e.track i).slot c.onBoxes = e := by
    intro hother
    refine modifySlot_of_eq (c.onBoxes_of_not_isForBoxes (Bool.eq_false_iff.mpr fun hfor => ?_) _)
    exact hother hfor (Command.isEngine_of_isForBoxes hfor)
  unfold obey
  rw [h]
  dsimp only
  split
  · next hdriver =>
    rw [hidle fun _ hop => Bool.false_ne_true (hop.2.symm.trans hdriver)]
    exact sameBoxes_driverCommand e i c
  · split
    · exact sameBoxes_command e i c
    · next hengine =>
      rw [hidle fun _ hop => hengine hop.1]
      exact .refl e

theorem sameBoxes_stepTrack (e : Engine σ) (i : Nat) : SameBoxes (e.obey i) (e.stepTrack i) := by
  have hcommand : ((e.stream? i).bind fun s => Command.decodeAt s.bytes (e.track i).pc) =
      e.command? i := rfl
  unfold obey stepTrack
  dsimp only
  rw [hcommand]
  cases e.command? i with
  | none => exact sameBoxes_endSequence e _
  | some c =>
    dsimp only
    split
    · exact sameBoxes_nextEvent _ i _
    · split
      · split
        · exact sameBoxes_nextEvent _ i _
        · exact .refl _
      · exact sameBoxes_endSequence e _

/-- No command brings a slot into use. -/
theorem active_of_obey {home : Nat} {e : Engine σ} {i : Nat}
    (hactive : ((e.obey i).slot home).active = true) : (e.slot home).active = true := by
  cases hc : e.command? i with
  | none => simpa [obey, hc] using hactive
  | some c =>
    have hused := ((sameBoxes_obey hc).kept home hactive).1
    rw [slot_modifySlot] at hused
    split at hused
    · rwa [c.active_onBoxes] at hused
    · exact hused

/-- What a command leaves in a box of a slot in use that it does not set: what was there, unless it
is a jump at the box. -/
theorem getElem?_obey {kind : BoxKind} {home : Nat} {box value : UInt8} {e : Engine σ} {i : Nat}
    (hactive : ((e.obey i).slot home).active = true)
    (h : (kind.boxes (e.slot home))[box.toNat]? = some value)
    (hsets : setsOn kind home box (e, i) = false) :
    (kind.boxes ((e.obey i).slot home))[box.toNat]? =
      some (if jumpsOn kind home box (e, i) then kind.next value (carried (e, i)) else value) := by
  have hused := active_of_obey hactive
  cases hc : e.command? i with
  | none =>
    have hobey : e.obey i = e := by
      unfold obey
      rw [hc]
    have hjumps : jumpsOn kind home box (e, i) = false := by
      simp [jumpsOn, commandOn?, hc]
    rw [hobey, hjumps, if_neg Bool.false_ne_true, h]
  | some c =>
    rw [((sameBoxes_obey hc).kept home).getElem? hactive, slot_modifySlot]
    by_cases hhome : (e.track i).slot = home
    · have hon : e.commandOn? home i = some c := commandOn?_eq_some.mpr ⟨hused, hhome, hc⟩
      have hcarried : carried (e, i) = c.byte 2 := by simp [carried, hc]
      simp only [setsOn, hon, Option.any_some] at hsets
      simp only [jumpsOn, hon, Option.any_some, hcarried]
      rw [if_pos ⟨hhome, lt_size_of_active hused⟩]
      exact BoxKind.getElem?_onBoxes h hsets
    · have hon : e.commandOn? home i = none := if_neg fun hboth => hhome hboth.2
      simp only [jumpsOn, hon, Option.any_none, Bool.false_eq_true, if_false]
      rw [if_neg fun hboth => hhome hboth.1, h]

/-! ## Runs -/

/-- A way from `e` to `e'` through the commands in a list, between which the boxes of a slot in use
stay as they are. -/
inductive Passage (home : Nat) : Engine σ → List (Engine σ × Nat) → Engine σ → Prop
  | rest {e e' : Engine σ} : KeptBoxes home e e' → Passage home e [] e'
  | step {e d e' : Engine σ} {i : Nat} {l : List (Engine σ × Nat)} :
    KeptBoxes home e d → Passage home (d.obey i) l e' → Passage home e ((d, i) :: l) e'

namespace Passage

variable {home : Nat} {a b c d : Engine σ} {l l' : List (Engine σ × Nat)}

theorem after (hkept : KeptBoxes home a b) (h : Passage home b l c) : Passage home a l c := by
  cases h with
  | rest hrest => exact .rest (hkept.trans hrest)
  | step hfirst hrest => exact .step (hkept.trans hfirst) hrest

theorem append (h : Passage home a l b) (h' : Passage home b l' c) :
    Passage home a (l ++ l') c := by
  induction h with
  | rest hkept => exact h'.after hkept
  | step hkept _ ih => exact .step hkept (ih h')

/-- The way to a command on the way. -/
theorem upTo {i : Nat} : ∀ {l : List (Engine σ × Nat)} {a : Engine σ},
    Passage home a (l ++ (d, i) :: l') b → Passage home a l d
  | [], _, .step hkept _ => .rest hkept
  | _ :: _, _, .step hkept hrest => .step hkept hrest.upTo

/-- A slot that is in use at the end was so at the start. -/
theorem active (h : Passage home a l b) (hactive : (b.slot home).active = true) :
    (a.slot home).active = true := by
  induction h with
  | rest hkept => exact (hkept hactive).1
  | step hkept _ ih => exact (hkept (active_of_obey (ih hactive))).1

/-- What the jumps on the way leave in a box that nothing sets and in which `k` jumps before left
what they do. -/
theorem getElem? {kind : BoxKind} {box first : UInt8} (h : Passage home a l b) :
    ∀ {k : Nat}, (kind.boxes (a.slot home))[box.toNat]? = some (kind.after first k) →
      (k = 0 → ∀ p ∈ l.find? (jumpsOn kind home box), carried p = first) →
      (∀ p ∈ l, setsOn kind home box p = false) →
      first ≠ unset ∨ k + l.countP (jumpsOn kind home box) ≤ 1 →
      (b.slot home).active = true →
        (kind.boxes (b.slot home))[box.toNat]? =
          some (kind.after first (k + l.countP (jumpsOn kind home box))) := by
  induction h with
  | rest hkept =>
    intro k hbox _ _ _ hactive
    rw [hkept.getElem? hactive, hbox]
    rfl
  | @step a d b i l hkept hrest ih =>
    intro k hbox hfirst hsets hfew hactive
    have hobeyed := hrest.active hactive
    have hset := hsets _ List.mem_cons_self
    have hrest' : ∀ p ∈ l, setsOn kind home box p = false :=
      fun p hp => hsets p (List.mem_cons_of_mem _ hp)
    rw [← hkept.getElem? (active_of_obey hobeyed)] at hbox
    have hleft := getElem?_obey hobeyed hbox hset
    cases hjump : jumpsOn kind home box (d, i) with
    | true =>
      have hcount : ((d, i) :: l).countP (jumpsOn kind home box) =
          l.countP (jumpsOn kind home box) + 1 := List.countP_cons_of_pos hjump
      rw [hcount] at hfew ⊢
      rw [hjump, if_pos rfl, BoxKind.next_after (fun hk => hfirst hk _ (by simp [hjump]))
        fun hk => hfew.resolve_right (by omega)] at hleft
      rw [← Nat.add_assoc, Nat.add_right_comm]
      exact ih hleft (fun hk => absurd hk (Nat.succ_ne_zero k)) hrest'
        (hfew.imp_right (by omega)) hactive
    | false =>
      have hcount : ((d, i) :: l).countP (jumpsOn kind home box) =
          l.countP (jumpsOn kind home box) := List.countP_cons_of_neg (by simp [hjump])
      rw [hjump, if_neg Bool.false_ne_true] at hleft
      rw [hcount] at hfew ⊢
      refine ih hleft (fun hk p hp => hfirst hk p ?_) hrest' hfew hactive
      rw [List.find?_cons_of_neg (by simp [hjump])]
      exact hp

end Passage

section Ticks

variable (home : Nat)

theorem passage_runDue (i : Nat) : ∀ (budget : Nat) (e : Engine σ),
    Passage home e ((dueSteps i budget e).map (·, i)) (runDue budget e i)
  | 0, e => by
    refine .rest ?_
    unfold runDue
    split
    · exact (sameBoxes_turnOff e i).kept home
    · exact (SameBoxes.refl e).kept home
  | budget + 1, e => by
    unfold dueSteps runDue
    split
    · exact .step ((sameBoxes_modifyTrack e i _).kept home)
        ((passage_runDue i budget _).after ((sameBoxes_stepTrack _ i).kept home))
    · exact .rest ((SameBoxes.refl e).kept home)

theorem passage_runTrack (e : Engine σ) (i : Nat) :
    Passage home e ((e.turnSteps i).map (·, i)) (e.runTrack i) := by
  have hadvanced := (sameBoxes_modifyTrack e i Track.advance).kept home
  unfold turnSteps runTrack
  dsimp only
  split
  · exact .rest (hadvanced.trans ((sameBoxes_turnOff _ i).kept home))
  · exact (passage_runDue home i _ _).after hadvanced

theorem passage_runPool : ∀ (l : List Nat) (e : Engine σ),
    Passage home e (poolSteps l e) (e.runPool l)
  | [], e => .rest ((SameBoxes.refl e).kept home)
  | i :: l, e => by
    unfold poolSteps runPool
    rw [List.foldl_cons]
    split
    · exact (passage_runTrack home e i).append (passage_runPool l _)
    · exact passage_runPool l e

theorem passage_tick (e : Engine σ) : Passage home e e.executions e.tick := by
  have hstart : SameBoxes e e.beforeTracks := .of_slots (by
    have hpools := pools_beforeTracks e
    simp only [pools, Prod.mk.injEq] at hpools
    exact hpools.2.2.1)
  have htracks : Passage home e e.executions e.beforeUpkeep := by
    rw [beforeUpkeep_eq_beforeTracks]
    unfold executions
    split
    · exact .rest (hstart.kept home)
    · exact (passage_runPool home _ _).after (hstart.kept home)
  rw [tick_eq, ← List.append_nil e.executions]
  exact htracks.append (.rest ((sameBoxes_serviceVoices _).kept home))

end Ticks

omit [SoundChip σ] in
/-- A start keeps the boxes of every slot in use but its own. -/
theorem kept_startSequence {e : Engine σ} {home sequence : Nat} {options : StartOptions}
    (h : (e.startSequence sequence options).1 ≠ .ok home) :
    KeptBoxes home e (e.startSequence sequence options).2 := by
  rcases startSequence_cases e sequence with
    ⟨flaw, heq⟩ | ⟨streams, s, -, hlt, hfree, ⟨flaw, heq⟩ | ⟨-, heq⟩⟩
  · rw [heq]
    exact (SameBoxes.refl e).kept home
  · rw [heq]
    intro hactive
    have hother : s ≠ home := by
      rintro rfl
      rw [slot_clearSlot hlt, if_pos rfl] at hactive
      exact Bool.false_ne_true (hfree.symm.trans hactive)
    rw [slot_clearSlot hlt, if_neg hother] at hactive ⊢
    exact ⟨hactive, rfl⟩
  · rw [heq] at h ⊢
    have hother : s ≠ home := fun hs => h (hs ▸ rfl)
    have hslot : ∀ (l : List (Nat × Nat)) (e : Engine σ),
        (l.foldl (fun e p => e.startTrack s sequence options p.1 p.2) e).slot home =
          e.slot home := by
      refine foldl_relates (r := fun e e' : Engine σ => e'.slot home = e.slot home)
        (fun _ => rfl) (fun _ _ _ h h' => h'.trans h) fun e p => ?_
      cases hstream : e.module.track? sequence p.2 with
      | none =>
        unfold startTrack
        rw [hstream]
      | some stream =>
        rw [slot_startTrack (by rw [hstream]; rfl), if_neg fun hboth => hother hboth.1]
    intro hactive
    rw [hslot, slot_openSlot hlt, if_neg hother] at hactive ⊢
    exact ⟨hactive, rfl⟩

end Engine

namespace Session

variable {σ : Type} [SoundChip σ]

/-- The slot in which a call starts a sequence, if it does. -/
def slotTaken? (s : Session σ) : Call σ → Option Nat
  | .start sequence options => (s.engine.startSequence sequence options).1.toOption
  | _ => none

/-- The states in which a run executes commands, each with the track that does so. -/
def executions : Session σ → List (Call σ) → List (Engine σ × Nat)
  | _, [] => []
  | s, call :: calls =>
    (if call.isTick then s.engine.executions else []) ++ executions (s.perform call) calls

open Engine

theorem passage_perform {home : Nat} {s : Session σ} {call : Call σ}
    (h : s.slotTaken? call ≠ some home) :
    Passage home s.engine (if call.isTick then s.engine.executions else [])
      (s.perform call).engine := by
  cases call with
  | tick =>
    rw [engine_tick]
    exact passage_tick home s.engine
  | start sequence options =>
    refine .rest (kept_startSequence fun hstart => h ?_)
    rw [slotTaken?, hstart]
    rfl
  | _ =>
    refine .rest ((sameBoxes_perform s ?_).kept home)
    exact id

theorem passage_run {home : Nat} : ∀ {calls : List (Call σ)} {s : Session σ},
    s.Allows (fun s call => s.slotTaken? call ≠ some home) calls →
      Passage home s.engine (s.executions calls) (s.run calls).engine
  | [], s, _ => .rest ((SameBoxes.refl s.engine).kept home)
  | _ :: _, _, ⟨hcall, hcalls⟩ => (passage_perform hcall).append (passage_run hcalls)

/-- The number of jumps of a slot at a box among the first `n` commands of a run. -/
def jumpsAmong (kind : BoxKind) (home : Nat) (box : UInt8) (s : Session σ)
    (calls : List (Call σ)) (n : Nat) : Nat :=
  ((s.executions calls).take n).countP (jumpsOn kind home box)

/-- A run up to one of its commands. -/
theorem executions_split {s : Session σ} {calls : List (Call σ)} {n : Nat} {p : Engine σ × Nat}
    (h : (s.executions calls)[n]? = some p) :
    s.executions calls = (s.executions calls).take n ++ p :: (s.executions calls).drop (n + 1) := by
  obtain ⟨hlt, hget⟩ := List.getElem?_eq_some_iff.mp h
  rw [← hget, List.getElem_cons_drop, List.take_append_drop]

section Jumps

variable {kind : BoxKind} {home : Nat} {box first : UInt8} {s : Session σ}
  {calls : List (Call σ)} {n i : Nat} {d : Engine σ}

/-- What a box holds at one of the commands of a run. -/
theorem getElem?_at (hbox : (kind.boxes (s.engine.slot home))[box.toNat]? = some unset)
    (hfirst : ∀ p ∈ (s.executions calls).find? (jumpsOn kind home box), carried p = first)
    (hsets : ∀ p ∈ s.executions calls, setsOn kind home box p = false)
    (hrun : Passage home s.engine (s.executions calls) (s.run calls).engine)
    (hn : (s.executions calls)[n]? = some (d, i)) (hactive : (d.slot home).active = true)
    (hfew : first ≠ unset ∨ s.jumpsAmong kind home box calls n ≤ 1) :
    (kind.boxes (d.slot home))[box.toNat]? =
      some (kind.after first (s.jumpsAmong kind home box calls n)) := by
  have hway : Passage home s.engine ((s.executions calls).take n) d := by
    rw [executions_split hn] at hrun
    exact hrun.upTo
  have htaken : (s.executions calls).take n <+: s.executions calls := List.take_prefix n _
  have hleft := hway.getElem? (k := 0) hbox (fun _ p hp => hfirst p (htaken.find?_eq_some hp))
    (fun p hp => hsets p (htaken.subset hp)) (by rwa [Nat.zero_add]) hactive
  rwa [Nat.zero_add] at hleft

variable {c : Command}

/-- A jump with no jump before it is the first. -/
theorem byte_of_jumpsAmong_eq_zero
    (hfirst : ∀ p ∈ (s.executions calls).find? (jumpsOn kind home box), carried p = first)
    (hn : (s.executions calls)[n]? = some (d, i)) (hc : d.commandOn? home i = some c)
    (hat : kind.jumpsAt box c = true) (hnone : s.jumpsAmong kind home box calls n = 0) :
    c.byte 2 = first := by
  have hfound : (s.executions calls).find? (jumpsOn kind home box) = some (d, i) := by
    rw [executions_split hn, List.find?_append,
      List.find?_eq_none.mpr (List.countP_eq_zero.mp hnone), Option.none_or,
      List.find?_cons_of_pos (by simp [jumpsOn, hc, hat])]
  have hcarried := hfirst (d, i) hfound
  rwa [carried, (commandOn?_eq_some.mp hc).2.2] at hcarried

/-- A jump finds what the jumps before it have left, and decides by that. -/
theorem command_of_jumpsAt
    (hfirst : ∀ p ∈ (s.executions calls).find? (jumpsOn kind home box), carried p = first)
    (hn : (s.executions calls)[n]? = some (d, i)) (hc : d.commandOn? home i = some c)
    (hat : kind.jumpsAt box c = true)
    (hfew : first ≠ unset ∨ s.jumpsAmong kind home box calls n = 0)
    (hheld : (kind.boxes (d.slot home))[box.toNat]? =
      some (kind.after first (s.jumpsAmong kind home box calls n))) :
    d.command i c =
      if kind.goesAhead first (s.jumpsAmong kind home box calls n) = false then (d, .advance)
      else (d.modifySlot home (kind.write box
        (kind.after first (s.jumpsAmong kind home box calls n + 1)))).jump i
          (c.signedWord 3) := by
  have hcarried := byte_of_jumpsAmong_eq_zero hfirst hn hc hat
  obtain ⟨-, hhome, -⟩ := commandOn?_eq_some.mp hc
  obtain ⟨hop, hbyte⟩ := Bool.and_eq_true_iff.mp hat
  rw [beq_iff_eq] at hop hbyte
  subst hhome hbyte
  generalize s.jumpsAmong kind (d.track i).slot (c.byte 1) calls n = k at *
  rw [command_of_jumpOp hop hheld, BoxKind.next_after hcarried fun hk => hfew.resolve_right hk]
  by_cases hzero : kind.after first k = 0
  · have hshut : kind.goesAhead first k = false :=
      Bool.eq_false_iff.mpr fun h => (kind.goesAhead_iff first k).mp h hzero
    rw [if_pos hzero, if_pos hshut]
  · have hahead : kind.goesAhead first k = true := (kind.goesAhead_iff first k).mpr hzero
    rw [if_neg hzero, if_neg (by rw [hahead]; exact Bool.true_eq_false.mp)]

end Jumps

/-- A box of slot `home` guards the jumps at it throughout a run, as one does that was unset when
the first jump, which carries `first`, came to it. If that makes it unset again, only the first
jump is followed. -/
structure Guards (kind : BoxKind) (home : Nat) (box first : UInt8) (s : Session σ)
    (calls : List (Call σ)) : Prop where
  /-- While the slot is in use, the box holds at every command what the jumps before it leave. -/
  value : ∀ n d i, (s.executions calls)[n]? = some (d, i) → (d.slot home).active = true →
    first ≠ unset ∨ s.jumpsAmong kind home box calls n ≤ 1 →
      (kind.boxes (d.slot home))[box.toNat]? =
        some (kind.after first (s.jumpsAmong kind home box calls n))
  /-- So it does in the end. -/
  last : ((s.run calls).engine.slot home).active = true →
    first ≠ unset ∨ (s.executions calls).countP (jumpsOn kind home box) ≤ 1 →
      (kind.boxes ((s.run calls).engine.slot home))[box.toNat]? =
        some (kind.after first ((s.executions calls).countP (jumpsOn kind home box)))
  /-- Once it is written, it does not become unset again. -/
  written : first ≠ unset → ∀ k, k ≠ 0 → kind.after first k ≠ unset
  /-- Whichever track makes a jump that is to go ahead, and whatever it carries, the jump writes
  the box and then, if it has a label, leads the track there; nothing else changes. -/
  ahead : ∀ n d i c, (s.executions calls)[n]? = some (d, i) → d.commandOn? home i = some c →
    kind.jumpsAt box c = true →
      first ≠ unset ∨ s.jumpsAmong kind home box calls n = 0 →
      kind.goesAhead first (s.jumpsAmong kind home box calls n) = true →
        let written := d.modifySlot home
          (kind.write box (kind.after first (s.jumpsAmong kind home box calls n + 1)))
        d.command i c =
          match d.label? i (c.signedWord 3) with
          | none => (written, .advance)
          | some pc => (written.modifyTrack i fun t => { t with pc }, .hold)
  /-- Any other jump leaves everything alone and the track goes on behind it. -/
  shut : ∀ n d i c, (s.executions calls)[n]? = some (d, i) → d.commandOn? home i = some c →
    kind.jumpsAt box c = true → first ≠ unset ∨ s.jumpsAmong kind home box calls n = 0 →
      kind.goesAhead first (s.jumpsAmong kind home box calls n) = false →
        d.command i c = (d, .advance)
  /-- A command for a box that its slot does not have does nothing. -/
  outside : ∀ p ∈ s.executions calls, ∀ c ∈ p.1.command? p.2, kind.isFor c = true →
    (kind.boxes (p.1.slot (p.1.track p.2).slot)).size ≤ (c.byte 1).toNat →
      p.1.command p.2 c = (p.1, .advance)

/-- Gates and counters do their work however the tracks of a slot take turns: in a run in which no
sequence starts in the slot and nothing sets the box, which is unset at first, the box guards the
jumps at it. -/
theorem boxes_guard {kind : BoxKind} {home : Nat} {box first : UInt8} {s : Session σ}
    {calls : List (Call σ)}
    (hbox : (kind.boxes (s.engine.slot home))[box.toNat]? = some unset)
    (hfirst : ∀ p ∈ (s.executions calls).find? (jumpsOn kind home box), carried p = first)
    (hsets : ∀ p ∈ s.executions calls, setsOn kind home box p = false)
    (hcalls : s.Allows (fun s call => s.slotTaken? call ≠ some home) calls) :
    s.Guards kind home box first calls := by
  have hrun := passage_run hcalls
  have hvalue : ∀ n d i, (s.executions calls)[n]? = some (d, i) → (d.slot home).active = true →
      first ≠ unset ∨ s.jumpsAmong kind home box calls n ≤ 1 →
        (kind.boxes (d.slot home))[box.toNat]? =
          some (kind.after first (s.jumpsAmong kind home box calls n)) :=
    fun n d i hn => getElem?_at hbox hfirst hsets hrun hn
  have hheld : ∀ n d i c, (s.executions calls)[n]? = some (d, i) → d.commandOn? home i = some c →
      first ≠ unset ∨ s.jumpsAmong kind home box calls n = 0 →
        (kind.boxes (d.slot home))[box.toNat]? =
          some (kind.after first (s.jumpsAmong kind home box calls n)) :=
    fun n d i c hn hc hfew =>
      hvalue n d i hn (commandOn?_eq_some.mp hc).1 (hfew.imp_right (by omega))
  refine ⟨hvalue, fun hactive hfew => ?last, fun hset k hk => BoxKind.after_ne_unset hset hk,
    fun n d i c hn hc hat hfew hahead => ?ahead, fun n d i c hn hc hat hfew hshut => ?shut,
    fun p _ c _ hfor hout => command_of_isFor hfor hout⟩
  case last =>
    have hleft := hrun.getElem? (k := 0) hbox (fun _ => hfirst) hsets (by rwa [Nat.zero_add])
      hactive
    rwa [Nat.zero_add] at hleft
  case ahead =>
    rw [command_of_jumpsAt hfirst hn hc hat hfew (hheld n d i c hn hc hfew),
      if_neg (by rw [hahead]; exact nofun)]
    rfl
  case shut =>
    rw [command_of_jumpsAt hfirst hn hc hat hfew (hheld n d i c hn hc hfew), if_pos hshut]

end Session

/-- A module whose tracks share gate 1 and counter 0 of their sequence; the second track has no
label to jump to. -/
def sharing : SoundModule :=
  { solo [] with
    limits := { sequences := 2, tracks := 4, voices := 1, gates := 2, iters := 1 }
    sequences := #[#[
      { TrackHeader.plays {} [(2, .iterJump 0 2 0), (2, .gateJump 1 0 0), (1000, .trackEnd)] with
        labels := #[1] },
      TrackHeader.plays {} [(2, .iterJump 0 9 0), (2, .gateJump 1 5 0), (2, .iterJump 3 1 0),
        (1000, .trackEnd)]]] }

open Engine Session in
/-- Two tracks jump at a counter and at a gate while the same sequence starts in another slot. -/
theorem boxes_guard_sharing : ∃ e : Engine RecorderChip, Engine.make sharing {} = .ok e ∧
    let s := ({ engine := e } : Session RecorderChip).perform (.start 0 {})
    let calls := [.tick, .start 0 {}, .tick, .tick, .tick, .tick]
    (s.executions calls).countP (jumpsOn .counter 0 0) = 4 ∧
      (s.executions calls).countP (jumpsOn .gate 0 1) = 2 ∧
      s.Guards .counter 0 0 2 calls ∧ s.Guards .gate 0 1 5 calls := by
  obtain ⟨e, hmake, hfacts⟩ : ∃ e : Engine RecorderChip, Engine.make sharing {} = .ok e ∧
      let s := ({ engine := e } : Session RecorderChip).perform (.start 0 {})
      let calls : List (Call RecorderChip) := [.tick, .start 0 {}, .tick, .tick, .tick, .tick]
      (s.executions calls).countP (jumpsOn .counter 0 0) = 4 ∧
        (s.executions calls).countP (jumpsOn .gate 0 1) = 2 ∧
        ((BoxKind.counter.boxes (s.engine.slot 0))[(0 : UInt8).toNat]? = some unset ∧
          (∀ p ∈ (s.executions calls).find? (jumpsOn .counter 0 0), carried p = 2) ∧
          ∀ p ∈ s.executions calls, setsOn .counter 0 0 p = false) ∧
        ((BoxKind.gate.boxes (s.engine.slot 0))[(1 : UInt8).toNat]? = some unset ∧
          (∀ p ∈ (s.executions calls).find? (jumpsOn .gate 0 1), carried p = 5) ∧
          ∀ p ∈ s.executions calls, setsOn .gate 0 1 p = false) ∧
        s.Allows (fun s call => s.slotTaken? call ≠ some 0) calls :=
    exists_make (by decide +kernel)
  obtain ⟨hjumps, hgates, ⟨hiter, hfirst, hsets⟩, ⟨hgate, hfirst', hsets'⟩, hcalls⟩ := hfacts
  exact ⟨e, hmake, hjumps, hgates, boxes_guard hiter hfirst hsets hcalls,
    boxes_guard hgate hfirst' hsets' hcalls⟩

end SoundSequencer
