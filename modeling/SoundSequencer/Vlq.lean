/-
SoundSequencer.Vlq — variable-length quantities, the delta times of a
track stream.

A quantity is written in groups of seven bits, the most significant
group first. Every byte but the last has its top bit set.

* `encode` writes the shortest form of a 32-bit quantity.
* `encodedLength` is the size of that form, read off the value alone.
* `decode` reads a quantity from the front of a byte list.
* `decodeAt` reads one at an offset of a stream without copying it;
  `decodeAt_eq_decode` says that it is `decode` of what stands there.
-/

namespace SoundSequencer.Vlq

/-- The longest written form of a 32-bit quantity, in bytes. -/
def maxLength : Nat := 5

/-! ## Writing -/

/-- Puts the groups of `rest` in front of `tail`, each marked as having a
successor. A 32-bit quantity has at most four groups before its last. -/
def prependGroups : (groups rest : Nat) → List UInt8 → List UInt8
  | 0, _, tail => tail
  | groups + 1, rest, tail =>
    if rest = 0 then tail
    else prependGroups groups (rest / 128) (UInt8.ofNat (rest % 128 + 128) :: tail)

/-- The shortest written form of `value`. -/
def encode (value : UInt32) : List UInt8 :=
  prependGroups (maxLength - 1) (value.toNat / 128) [UInt8.ofNat (value.toNat % 128)]

theorem toNat_shiftRight_seven (value : UInt32) : (value >>> 7).toNat = value.toNat / 128 := by
  rw [UInt32.toNat_shiftRight, Nat.shiftRight_eq_div_pow]
  rfl

/-- The number of groups that `rest` has, counted by taking one after the other off. -/
def groupCount (rest : UInt32) : Nat :=
  if rest = 0 then 0 else groupCount (rest >>> 7) + 1
termination_by rest.toNat
decreasing_by
  next hrest =>
  have hne : rest.toNat ≠ 0 := fun hzero => hrest (UInt32.toNat_inj.mp hzero)
  rw [toNat_shiftRight_seven]
  omega

/-- The number of bytes that `encode value` has: its last group, and the groups before it. -/
def encodedLength (value : UInt32) : Nat := groupCount (value >>> 7) + 1

/-! ## Reading -/

/-- Whether another byte follows `byte` in a written quantity. -/
def continues (byte : UInt8) : Bool := 128 ≤ byte

/-- The value after `byte` is read behind the groups in `high`; bits past
the thirty-second are lost. -/
def shiftIn (high : UInt32) (byte : UInt8) : UInt32 :=
  high * 128 + (byte % 128).toUInt32

/-- Reads on from the front of a byte list, with `high` gathered so far and
`count` bytes consumed. -/
def decodeFrom (high : UInt32) (count : Nat) : List UInt8 → Option (UInt32 × Nat)
  | [] => none
  | byte :: rest =>
    let value := shiftIn high byte
    if continues byte then decodeFrom value (count + 1) rest
    else some (value, count + 1)

/-- The quantity at the front of `bytes` with the number of bytes it takes;
nothing if the bytes end before its last one. -/
def decode (bytes : List UInt8) : Option (UInt32 × Nat) := decodeFrom 0 0 bytes

/-- Reads on at `offset + count`, with at most `fuel` bytes left to look at. -/
def decodeAtFrom (stream : Array UInt8) (offset : Nat) :
    (fuel : Nat) → (high : UInt32) → (count : Nat) → Option (UInt32 × Nat)
  | 0, _, _ => none
  | fuel + 1, high, count =>
    match stream[offset + count]? with
    | none => none
    | some byte =>
      let value := shiftIn high byte
      if continues byte then decodeAtFrom stream offset fuel value (count + 1)
      else some (value, count + 1)

/-- The quantity at `offset` of `stream` with the number of bytes it takes. -/
def decodeAt (stream : Array UInt8) (offset : Nat) : Option (UInt32 × Nat) :=
  decodeAtFrom stream offset (stream.size - offset) 0 0

theorem decodeAtFrom_eq_decodeFrom (stream : Array UInt8) (offset : Nat) :
    ∀ (fuel : Nat) (high : UInt32) (count : Nat), stream.size - (offset + count) ≤ fuel →
      decodeAtFrom stream offset fuel high count =
        decodeFrom high count (stream.toList.drop (offset + count)) := by
  intro fuel
  induction fuel with
  | zero =>
    intro high count h
    have hend : stream.toList.length ≤ offset + count := by
      simp only [Array.length_toList]; omega
    simp [decodeAtFrom, decodeFrom, List.drop_eq_nil_of_le hend]
  | succ fuel ih =>
    intro high count h
    by_cases hin : offset + count < stream.size
    · have hlist : offset + count < stream.toList.length := by
        simpa only [Array.length_toList] using hin
      rw [List.drop_eq_getElem_cons hlist]
      simp only [decodeAtFrom, decodeFrom, Array.getElem?_eq_getElem hin, Array.getElem_toList]
      rw [ih _ _ (by omega), Nat.add_assoc]
    · have hend : stream.toList.length ≤ offset + count := by
        simp only [Array.length_toList]; omega
      have hnone : stream[offset + count]? = none := Array.getElem?_eq_none (by omega)
      simp [decodeAtFrom, decodeFrom, hnone, List.drop_eq_nil_of_le hend]

/-- Reading in place is reading what stands behind the offset. -/
theorem decodeAt_eq_decode (stream : Array UInt8) (offset : Nat) :
    decodeAt stream offset = decode (stream.toList.drop offset) := by
  simpa [decodeAt, decode] using
    decodeAtFrom_eq_decodeFrom stream offset (stream.size - offset) 0 0 (by simp)

end SoundSequencer.Vlq
