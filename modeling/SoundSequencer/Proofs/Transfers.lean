/-
SoundSequencer.Proofs.Transfers — what reaches the memory of the chip.

* `RecorderChip.Received` says of two states of a chip that from one to the other a number of
  bytes of some data came to lie at an address and beyond, and nothing else changed.
* Data written in two parts is data written at once: `writeTransfer_append`. A transfer takes
  what fits between its address and the end of the memory: `received_writeTransfer`.
* Uploads that continue each other are one upload: `upload_upload`, `uploads_eq_upload`.
-/
import Mathlib.Data.List.Chain
import Mathlib.Data.List.GetD
import SoundSequencer.Chip.Recorder
import SoundSequencer.Engine.Masters

namespace SoundSequencer

namespace RecorderChip

/-! ## Bytes at an address -/

/-- The memory with `data` at `start` and beyond. -/
def overwritten (memory : Nat → UInt8) (start : Nat) (data : List UInt8) : Nat → UInt8 :=
  fun address =>
    if start ≤ address then data.getD (address - start) (memory address) else memory address

section Overwritten

variable {memory : Nat → UInt8} {start address : Nat} {data : List UInt8}

theorem overwritten_of_lt (h : address < start) :
    overwritten memory start data address = memory address :=
  if_neg (Nat.not_le.mpr h)

theorem overwritten_of_le (h : start + data.length ≤ address) :
    overwritten memory start data address = memory address := by
  have hbehind : data.length ≤ address - start := by omega
  rw [overwritten, if_pos (by omega), List.getD_eq_default _ _ hbehind]

theorem overwritten_add {k : Nat} (h : k < data.length) :
    overwritten memory start data (start + k) = data[k] := by
  rw [overwritten, if_pos (Nat.le_add_right start k), Nat.add_sub_cancel_left,
    List.getD_eq_getElem _ _ h]

/-- Bytes and, right behind them, further bytes are all of them in a row. -/
theorem overwritten_append (memory : Nat → UInt8) (start : Nat) (data more : List UInt8) :
    overwritten (overwritten memory start data) (start + data.length) more =
      overwritten memory start (data ++ more) := by
  funext address
  rcases Nat.lt_or_ge address start with hbefore | hfrom
  · rw [overwritten_of_lt (by omega), overwritten_of_lt hbefore, overwritten_of_lt hbefore]
  obtain ⟨k, rfl⟩ := Nat.exists_eq_add_of_le hfrom
  rcases Nat.lt_or_ge k data.length with hdata | hbehind
  · have hboth : k < (data ++ more).length := by simp only [List.length_append]; omega
    rw [overwritten_of_lt (by omega), overwritten_add hdata, overwritten_add hboth,
      List.getElem_append_left hdata]
  · simp only [overwritten, Nat.add_sub_cancel_left, Nat.add_sub_add_left, Nat.le_add_right,
      if_true, Nat.add_le_add_iff_left, hbehind, List.getD_eq_getElem?_getD,
      List.getElem?_append_right hbehind, List.getElem?_eq_none hbehind, Option.getD_none]

end Overwritten

/-! ## One transfer -/

/-- From `before` to `after`, the first `count` bytes of `data` came to lie at `address` and
beyond, the transfer moved behind them, and nothing else changed. -/
structure Received (before : RecorderChip) (address : Nat) (data : List UInt8) (count : Nat)
    (after : RecorderChip) : Prop where
  landed : ∀ k, k < count → data[k]? = some (after.memory (address + k))
  kept : ∀ other, other < address ∨ address + count ≤ other →
    after.memory other = before.memory other
  transferAt : after.transferAt = min address memorySize + count
  rest : after = { before with memory := after.memory, transferAt := after.transferAt }

/-- The part of `data` that fits between a place and the end of the memory. -/
def fitting (start : Nat) (data : List UInt8) : List UInt8 :=
  data.take (memorySize - start)

theorem writeTransfer_eq (data : List UInt8) (chip : RecorderChip) :
    chip.writeTransfer data =
      let start := min chip.transferAt memorySize
      ((fitting start data).length,
        { chip with
          memory := overwritten chip.memory start (fitting start data)
          transferAt := start + (fitting start data).length }) := by
  simp only [writeTransfer, fitting, List.size_toArray, Array.getD_eq_getD_getElem?,
    List.getElem?_toArray, ← List.getD_eq_getElem?_getD]
  rfl

/-- What fits of data and more data, cut behind the data. -/
theorem fitting_append (start : Nat) (data more : List UInt8) :
    fitting start (data ++ more) =
      fitting start data ++ fitting (start + (fitting start data).length) more := by
  have hroom : memorySize - (start + min (memorySize - start) data.length) =
      memorySize - start - data.length := by omega
  simp only [fitting, List.take_append, List.length_take, hroom]

/-- A transfer does not end beyond the memory. -/
theorem min_transferAt_writeTransfer (data : List UInt8) (chip : RecorderChip) :
    min (chip.writeTransfer data).2.transferAt memorySize =
      (chip.writeTransfer data).2.transferAt := by
  simp only [writeTransfer_eq, fitting, List.length_take]
  omega

/-- Data written in two parts is data written at once. -/
theorem writeTransfer_append (chip : RecorderChip) (data more : List UInt8) :
    chip.writeTransfer (data ++ more) =
      let first := chip.writeTransfer data
      let second := first.2.writeTransfer more
      (first.1 + second.1, second.2) := by
  have hbehind := min_transferAt_writeTransfer data chip
  rw [writeTransfer_eq] at hbehind
  simp only at hbehind
  simp only [writeTransfer_eq, hbehind, fitting_append _ data more, overwritten_append,
    List.length_append, Nat.add_assoc]

theorem length_fitting_min (address : Nat) (data : List UInt8) :
    (fitting (min address memorySize) data).length =
      min data.length (memorySize - address) := by
  simp only [fitting, List.length_take]
  omega

/-- A transfer takes what fits between its address and the end of the memory. -/
theorem count_writeTransfer (chip : RecorderChip) (address : UInt32) (data : List UInt8) :
    ((chip.startTransfer address).writeTransfer data).1 =
      min data.length (memorySize - address.toNat) := by
  rw [writeTransfer_eq]
  exact length_fitting_min address.toNat data

/-- What a transfer takes lies at its address and beyond, and nothing else changes. -/
theorem received_writeTransfer (chip : RecorderChip) (address : UInt32) (data : List UInt8) :
    Received chip address.toNat data (min data.length (memorySize - address.toNat))
      ((chip.startTransfer address).writeTransfer data).2 := by
  have hlength := length_fitting_min address.toNat data
  rw [writeTransfer_eq]
  refine ⟨fun k hk => ?_, fun other hother => ?_, ?_, rfl⟩
  · -- a byte is taken, so the address lies in the memory
    have hstart : min address.toNat memorySize = address.toNat := by omega
    rw [hstart] at hlength
    have hfits : k < (fitting address.toNat data).length := by omega
    simp only [startTransfer, hstart, overwritten_add hfits]
    rw [← List.getElem?_eq_getElem hfits, fitting, List.getElem?_take_of_lt (by omega)]
  · simp only [startTransfer]
    rcases Nat.lt_or_ge other (min address.toNat memorySize) with hbefore | hfrom
    · rw [overwritten_of_lt hbefore]
    · rw [overwritten_of_le (by omega)]
  · simp only [startTransfer, hlength]

end RecorderChip

/-! ## Uploads -/

namespace Engine

open RecorderChip

/-- Uploads each piece of data to its address, in order, and counts the bytes written. -/
def uploads (e : Engine RecorderChip) : List (UInt32 × List UInt8) → Nat × Engine RecorderChip
  | [] => (0, e)
  | (address, data) :: pieces =>
    let (written, e) := e.upload address data
    let (further, e) := uploads e pieces
    (written + further, e)

/-- Whether one piece of data is for the addresses right behind those of another. Addresses do
not wrap at 2^32: nothing continues a piece that reaches that far. -/
def Continues (piece next : UInt32 × List UInt8) : Prop :=
  next.1.toNat = piece.1.toNat + piece.2.length

instance (piece next : UInt32 × List UInt8) : Decidable (Continues piece next) :=
  inferInstanceAs (Decidable (_ = _))

/-- An upload is a transfer to its address, and counts the bytes of it that are written. -/
theorem upload_eq (e : Engine RecorderChip) (address : UInt32) (data : List UInt8) :
    e.upload address data =
      (((e.chip.startTransfer address).writeTransfer data).1,
        { e with chip := ((e.chip.startTransfer address).writeTransfer data).2 }) :=
  rfl

/-- A transfer that begins where the last one was to end goes on with it, also when that one
was cut off by the end of the memory. -/
theorem writeTransfer_continued {address next : UInt32} {data : List UInt8} (more : List UInt8)
    (chip : RecorderChip) (h : Continues (address, data) (next, more)) :
    let first := (chip.startTransfer address).writeTransfer data
    (first.2.startTransfer next).writeTransfer more = first.2.writeTransfer more := by
  have hat := (received_writeTransfer chip address data).transferAt
  have hplace : min next.toNat memorySize =
      min ((chip.startTransfer address).writeTransfer data).2.transferAt memorySize := by
    simp only [Continues] at h
    omega
  simp only [writeTransfer_eq more, startTransfer, hplace]

/-- Two uploads, the second of which continues the first, are one. -/
theorem upload_upload {address next : UInt32} {data more : List UInt8} (e : Engine RecorderChip)
    (h : Continues (address, data) (next, more)) :
    let first := e.upload address data
    let second := first.2.upload next more
    (first.1 + second.1, second.2) = e.upload address (data ++ more) := by
  simp only [upload_eq, writeTransfer_continued more e.chip h, writeTransfer_append]

/-- Uploads that continue each other are one upload. -/
theorem uploads_eq_upload (first : UInt32 × List UInt8) (pieces : List (UInt32 × List UInt8))
    (e : Engine RecorderChip) (h : (first :: pieces).IsChain Continues) :
    e.uploads (first :: pieces) =
      e.upload first.1 ((first :: pieces).flatMap Prod.snd) := by
  induction pieces generalizing first with
  | nil => simp [uploads, upload_eq]
  | cons next pieces ih =>
    obtain ⟨hnext, hpieces⟩ := List.isChain_cons_cons.mp h
    -- the first two pieces are one, which the others continue
    have hjoined : ((first.1, first.2 ++ next.2) :: pieces).IsChain Continues := by
      cases pieces with
      | nil => exact .singleton _
      | cons last pieces =>
        obtain ⟨hlast, hrest⟩ := List.isChain_cons_cons.mp hpieces
        refine .cons_cons ?_ hrest
        simp only [Continues, List.length_append] at hnext hlast ⊢
        omega
    have hboth := upload_upload e hnext
    have hwhole := ih (first.1, first.2 ++ next.2) hjoined
    simp only [uploads, ← hboth, List.flatMap_cons, List.append_assoc] at hwhole ⊢
    rw [← hwhole]
    simp only [Nat.add_assoc]

/-- Transfers compose: data written in two parts leaves the chip as data written at once, with
the same bytes counted. The bytes that fit are written at the address and beyond and nothing
else changes. An upload is one transfer, and any number of uploads that continue each other is
one upload. -/
theorem transfers_compose :
    (∀ (chip : RecorderChip) (address : UInt32) (data more : List UInt8),
      let begun := chip.startTransfer address
      let first := begun.writeTransfer data
      let second := first.2.writeTransfer more
      let once := begun.writeTransfer (data ++ more)
      second.2 = once.2 ∧ first.1 + second.1 = once.1 ∧
        once.1 = min (data ++ more).length (memorySize - address.toNat) ∧
        Received chip address.toNat (data ++ more) once.1 once.2) ∧
    (∀ (e : Engine RecorderChip) (address : UInt32) (data : List UInt8),
      let sent := (e.chip.startTransfer address).writeTransfer data
      e.upload address data = (sent.1, { e with chip := sent.2 })) ∧
    ∀ (e : Engine RecorderChip) (first : UInt32 × List UInt8)
      (pieces : List (UInt32 × List UInt8)), (first :: pieces).IsChain Continues →
      e.uploads (first :: pieces) = e.upload first.1 ((first :: pieces).flatMap Prod.snd) := by
  refine ⟨fun chip address data more => ?_, upload_eq,
    fun e first pieces => uploads_eq_upload first pieces e⟩
  have hcount := count_writeTransfer chip address (data ++ more)
  refine ⟨?_, ?_, hcount, hcount ▸ received_writeTransfer chip address (data ++ more)⟩
  · simp only [writeTransfer_append]
  · simp only [writeTransfer_append]

/-- Three pieces of which the second crosses the end of the memory: two bytes are written. -/
theorem uploads_across_end :
    ∃ e : Engine RecorderChip, make {} ({} : RecorderChip) = .ok e ∧
      [(524286, [1]), (524287, [2, 3]), (524289, [4])].IsChain Continues ∧
      e.uploads [(524286, [1]), (524287, [2, 3]), (524289, [4])] = e.upload 524286 [1, 2, 3, 4] ∧
      (e.upload 524286 [1, 2, 3, 4]).1 = 2 := by
  have hchain : [((524286 : UInt32), ([1] : List UInt8)), (524287, [2, 3]), (524289, [4])].IsChain
      Continues := by decide
  refine ⟨_, rfl, hchain, transfers_compose.2.2 _ _ _ hchain, ?_⟩
  rw [upload_eq, count_writeTransfer]
  rfl

end Engine

end SoundSequencer
