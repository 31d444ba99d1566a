/-
SoundSequencer.Proofs.Quantities — what a written quantity is worth, and which byte
strings are the written form of one.

* `Vlq.groupsValue` is the number that the low seven bits of some bytes make up, the
  first byte the most significant.
* `decode_eq_none_iff` and `decode_eq_some_iff` say what is read from any bytes at all:
  the bytes up to the first that has no successor, at their value modulo 2^32.
* `groupsValue_encode` and `length_encode` are value and size of a written form.
* `decodeAt_encode_unique` is the codec as a whole: what is written is read back in
  place, and nothing else of that size is read as the same quantity, five bytes with
  bits past the thirty-second apart.
-/
import Mathlib.Data.Nat.Digits.Lemmas
import SoundSequencer.Proofs.Events

namespace SoundSequencer.Vlq

/-! ## The value of bytes -/

/-- The low seven bits of every byte as the digits of a number to the base 128, the
first the most significant. -/
def groupsValue (bytes : List UInt8) : Nat :=
  Nat.ofDigits 128 ((bytes.map fun byte => byte.toNat % 128).reverse)

theorem groupsValue_append (high low : List UInt8) :
    groupsValue (high ++ low) = groupsValue high * 128 ^ low.length + groupsValue low := by
  unfold groupsValue
  rw [List.map_append, List.reverse_append, Nat.ofDigits_append, List.length_reverse,
    List.length_map, Nat.add_comm, Nat.mul_comm]

theorem groupsValue_singleton (byte : UInt8) : groupsValue [byte] = byte.toNat % 128 :=
  Nat.ofDigits_singleton

theorem groupsValue_cons (byte : UInt8) (low : List UInt8) :
    groupsValue (byte :: low) = byte.toNat % 128 * 128 ^ low.length + groupsValue low := by
  rw [← List.singleton_append, groupsValue_append, groupsValue_singleton]

theorem low_lt (bytes : List UInt8) :
    ∀ digit ∈ (bytes.map fun byte => byte.toNat % 128).reverse, digit < 128 := by
  intro digit hdigit
  obtain ⟨byte, -, rfl⟩ := List.mem_map.mp (List.mem_reverse.mp hdigit)
  exact Nat.mod_lt _ (by decide)

theorem groupsValue_lt (bytes : List UInt8) : groupsValue bytes < 128 ^ bytes.length := by
  have hlt := Nat.ofDigits_lt_base_pow_length (by decide) (low_lt bytes)
  rwa [List.length_reverse, List.length_map] at hlt

/-! ## Reading -/

theorem shiftIn_ofNat (high : Nat) (byte : UInt8) :
    shiftIn (UInt32.ofNat high) byte = UInt32.ofNat (high * 128 + byte.toNat % 128) := by
  refine UInt32.toNat_inj.mp ?_
  simp only [shiftIn, UInt32.toNat_add, UInt32.toNat_mul, UInt32.toNat_ofNat',
    UInt8.toNat_toUInt32, UInt8.toNat_mod, UInt32.reduceToNat, UInt8.reduceToNat]
  omega

/-- Bytes that all have a successor are not the whole of a quantity. -/
theorem decodeFrom_of_continues : ∀ {bytes : List UInt8} {high : UInt32} {count : Nat},
    (∀ byte ∈ bytes, continues byte = true) → decodeFrom high count bytes = none
  | [], _, _, _ => rfl
  | byte :: bytes, high, count, h => by
    rw [decodeFrom, h byte List.mem_cons_self]
    exact decodeFrom_of_continues fun other hother => h other (List.mem_cons_of_mem byte hother)

/-- The first byte without a successor ends a quantity. -/
theorem decodeFrom_groups {last : UInt8} (hlast : continues last = false) (rest : List UInt8) :
    ∀ (groups : List UInt8) (high count : Nat), (∀ byte ∈ groups, continues byte = true) →
      decodeFrom (UInt32.ofNat high) count (groups ++ last :: rest) =
        some (UInt32.ofNat (high * 128 ^ (groups.length + 1) + groupsValue (groups ++ [last])),
          count + (groups.length + 1))
  | [], high, count, _ => by
    rw [List.nil_append, decodeFrom, hlast, shiftIn_ofNat, List.nil_append, groupsValue_singleton]
    simp
  | byte :: groups, high, count, h => by
    have hrest := decodeFrom_groups hlast rest groups (high * 128 + byte.toNat % 128) (count + 1)
      fun other hother => h other (List.mem_cons_of_mem byte hother)
    rw [List.cons_append, decodeFrom, h byte List.mem_cons_self, shiftIn_ofNat, if_pos rfl, hrest,
      List.cons_append, groupsValue_cons, List.length_append, List.length_cons, List.length_cons,
      List.length_nil]
    refine congrArg some (Prod.ext (congrArg UInt32.ofNat ?_) ?_)
    · ring
    · show count + 1 + (groups.length + 1) = count + (groups.length + 1 + 1)
      omega

/-- Any bytes all have a successor, or there is a first one that has none. -/
theorem continues_or_ends (bytes : List UInt8) :
    (∀ byte ∈ bytes, continues byte = true) ∨ ∃ groups last rest,
      bytes = groups ++ last :: rest ∧ (∀ byte ∈ groups, continues byte = true) ∧
        continues last = false := by
  induction bytes with
  | nil => exact .inl nofun
  | cons byte bytes ih =>
    cases hbyte : continues byte with
    | false => exact .inr ⟨[], byte, bytes, rfl, nofun, hbyte⟩
    | true =>
      rcases ih with hall | ⟨groups, last, rest, rfl, hgroups, hlast⟩
      · exact .inl (List.forall_mem_cons.mpr ⟨hbyte, hall⟩)
      · exact .inr ⟨byte :: groups, last, rest, rfl, List.forall_mem_cons.mpr ⟨hbyte, hgroups⟩,
          hlast⟩

theorem decode_groups {groups : List UInt8} {last : UInt8}
    (hgroups : ∀ byte ∈ groups, continues byte = true) (hlast : continues last = false)
    (rest : List UInt8) : decode (groups ++ last :: rest) =
      some (UInt32.ofNat (groupsValue (groups ++ [last])), groups.length + 1) := by
  have hread := decodeFrom_groups hlast rest groups 0 0 hgroups
  rwa [Nat.zero_mul, Nat.zero_add, Nat.zero_add] at hread

theorem decode_eq_none_iff {bytes : List UInt8} :
    decode bytes = none ↔ ∀ byte ∈ bytes, continues byte = true := by
  constructor
  · intro hnone
    rcases continues_or_ends bytes with hall | ⟨groups, last, rest, rfl, hgroups, hlast⟩
    · exact hall
    · rw [decode_groups hgroups hlast] at hnone
      cases hnone
  · exact decodeFrom_of_continues

theorem decode_eq_some_iff {bytes : List UInt8} {value : UInt32} {count : Nat} :
    decode bytes = some (value, count) ↔ ∃ groups last rest,
      bytes = groups ++ last :: rest ∧ (∀ byte ∈ groups, continues byte = true) ∧
        continues last = false ∧ count = groups.length + 1 ∧
          value = UInt32.ofNat (groupsValue (groups ++ [last])) := by
  constructor
  · intro hsome
    rcases continues_or_ends bytes with hall | ⟨groups, last, rest, rfl, hgroups, hlast⟩
    · rw [decode_eq_none_iff.mpr hall] at hsome
      cases hsome
    · rw [decode_groups hgroups hlast] at hsome
      cases hsome
      exact ⟨groups, last, rest, rfl, hgroups, hlast, rfl, rfl⟩
  · rintro ⟨groups, last, rest, rfl, hgroups, hlast, rfl, rfl⟩
    exact decode_groups hgroups hlast rest

/-! ## Written forms -/

/-- So many groups are enough for what is to be taken off. -/
theorem groupCount_le_iff {rest : UInt32} {k : Nat} :
    groupCount rest ≤ k ↔ rest.toNat < 128 ^ k := by
  induction k generalizing rest with
  | zero =>
    have hzero : rest.toNat < 1 ↔ rest = 0 := by
      rw [← UInt32.toNat_inj, Nat.lt_one_iff]
      rfl
    rw [groupCount, Nat.pow_zero, hzero, Nat.le_zero_eq]
    split
    · next hrest => exact iff_of_true rfl hrest
    · next hrest => exact iff_of_false (Nat.succ_ne_zero _) hrest
  | succ k ih =>
    rw [groupCount]
    split
    · next hrest =>
      subst hrest
      exact iff_of_true (Nat.zero_le _) (Nat.pow_pos (by decide))
    · rw [Nat.add_le_add_iff_right, ih, toNat_shiftRight_seven,
        Nat.div_lt_iff_lt_mul (by decide), Nat.pow_succ]

/-- The size of a written form is the least in which its value fits. -/
theorem encodedLength_le_iff {value : UInt32} {n : Nat} (hn : 1 ≤ n) :
    encodedLength value ≤ n ↔ value.toNat < 128 ^ n := by
  obtain ⟨k, rfl⟩ := Nat.exists_eq_add_of_le' hn
  rw [encodedLength, Nat.add_le_add_iff_right, groupCount_le_iff, toNat_shiftRight_seven,
    Nat.div_lt_iff_lt_mul (by decide), Nat.pow_succ]

/-- The sizes of all quantities. -/
theorem encodedLength_eq (value : UInt32) :
    encodedLength value =
      if value < 0x80 then 1
      else if value < 0x4000 then 2
      else if value < 0x200000 then 3
      else if value < 0x10000000 then 4
      else 5 := by
  have hsizes : ∀ k, encodedLength value ≤ k + 1 ↔ value.toNat < 128 ^ (k + 1) := fun k =>
    encodedLength_le_iff (Nat.succ_pos k)
  have hone := hsizes 0
  have htwo := hsizes 1
  have hthree := hsizes 2
  have hfour := hsizes 3
  have hfive := (hsizes 4).mpr (Nat.lt_of_lt_of_le value.toNat_lt (by decide))
  have hleast : 1 ≤ encodedLength value := Nat.succ_pos _
  simp only [UInt32.lt_iff_toNat_lt, UInt32.reduceToNat]
  split_ifs <;> omega

theorem encodedLength_mem (value : UInt32) :
    1 ≤ encodedLength value ∧ encodedLength value ≤ maxLength := by
  rw [encodedLength_eq]
  unfold maxLength
  split_ifs <;> decide

/-- As many groups are put in front as the rest of a value takes. -/
theorem length_prependGroups_le_iff : ∀ {groups rest k : Nat} {tail : List UInt8},
    rest < 128 ^ groups →
      ((prependGroups groups rest tail).length ≤ tail.length + k ↔ rest < 128 ^ k)
  | 0, rest, k, tail, h => by
    obtain rfl : rest = 0 := by simpa using h
    exact iff_of_true (Nat.le_add_right _ k) (Nat.pow_pos (by decide))
  | groups + 1, rest, k, tail, h => by
    unfold prependGroups
    split
    · next hrest =>
      subst hrest
      exact iff_of_true (Nat.le_add_right _ k) (Nat.pow_pos (by decide))
    · next hrest =>
      have hless := div_lt_of_groups h
      cases k with
      | zero =>
        -- one group at least is put in front
        obtain ⟨count, hcount⟩ := decodeFrom_prependGroups groups (rest / 128) hless
        rw [(hcount _).1, List.length_cons, Nat.pow_zero]
        omega
      | succ k =>
        have hgroups := @length_prependGroups_le_iff groups (rest / 128) k
          (UInt8.ofNat (rest % 128 + 128) :: tail) hless
        rw [List.length_cons, Nat.add_right_comm] at hgroups
        rw [← Nat.add_assoc, hgroups, Nat.div_lt_iff_lt_mul (by decide), Nat.pow_succ]

theorem length_encode (value : UInt32) : (encode value).length = encodedLength value := by
  have hless := toNat_div_lt value
  have hfits : ∀ k, (encode value).length ≤ k + 1 ↔ encodedLength value ≤ k + 1 := by
    intro k
    have hgroups := @length_prependGroups_le_iff _ _ k [UInt8.ofNat (value.toNat % 128)] hless
    rw [List.length_singleton, Nat.div_lt_iff_lt_mul (by decide), ← Nat.pow_succ,
      Nat.add_comm] at hgroups
    rw [encodedLength_le_iff (Nat.succ_pos k)]
    exact hgroups
  have hsize := List.length_pos_iff.mpr (encode_ne_nil value)
  have hlength := (encodedLength_mem value).1
  have hupper := hfits (encodedLength value - 1)
  have hlower := hfits ((encode value).length - 1)
  omega

theorem groupsValue_prependGroups : ∀ {groups rest : Nat} {tail : List UInt8},
    rest < 128 ^ groups → groupsValue (prependGroups groups rest tail) =
      rest * 128 ^ tail.length + groupsValue tail
  | 0, rest, tail, h => by
    obtain rfl : rest = 0 := by simpa using h
    rw [Nat.zero_mul, Nat.zero_add]
    rfl
  | groups + 1, rest, tail, h => by
    unfold prependGroups
    split
    · next hrest => rw [hrest, Nat.zero_mul, Nat.zero_add]
    · have hless := div_lt_of_groups h
      have hgroup : (UInt8.ofNat (rest % 128 + 128)).toNat % 128 = rest % 128 := by
        rw [UInt8.toNat_ofNat']
        omega
      rw [groupsValue_prependGroups hless, groupsValue_cons, hgroup, List.length_cons,
        Nat.pow_succ, Nat.mul_comm (128 ^ tail.length), ← Nat.mul_assoc, ← Nat.add_assoc,
        ← Nat.add_mul, Nat.mul_comm (rest / 128), Nat.div_add_mod]

/-- The bytes of a written form are worth the quantity, not only modulo 2^32. -/
theorem groupsValue_encode (value : UInt32) : groupsValue (encode value) = value.toNat := by
  have hbound := value.toNat_lt
  have hless := toNat_div_lt value
  have hlast : (UInt8.ofNat (value.toNat % 128)).toNat % 128 = value.toNat % 128 := by
    rw [UInt8.toNat_ofNat']
    omega
  unfold encode
  rw [groupsValue_prependGroups hless, groupsValue_singleton, hlast, List.length_singleton]
  omega

/-! ## The only written form -/

/-- Some bytes are one quantity as a whole: all but the last have a successor. -/
def Whole (bytes : List UInt8) : Prop :=
  ∃ groups last, bytes = groups ++ [last] ∧ (∀ byte ∈ groups, continues byte = true) ∧
    continues last = false

theorem decode_eq_some_length_iff {bytes : List UInt8} {value : UInt32} :
    decode bytes = some (value, bytes.length) ↔
      Whole bytes ∧ value = UInt32.ofNat (groupsValue bytes) := by
  rw [decode_eq_some_iff]
  constructor
  · rintro ⟨groups, last, rest, rfl, hgroups, hlast, hlength, hvalue⟩
    obtain rfl : rest = [] := by
      rw [List.length_append, List.length_cons] at hlength
      exact List.length_eq_zero_iff.mp (by omega)
    exact ⟨⟨groups, last, rfl, hgroups, hlast⟩, hvalue⟩
  · rintro ⟨⟨groups, last, rfl, hgroups, hlast⟩, hvalue⟩
    exact ⟨groups, last, [], rfl, hgroups, hlast, List.length_append, hvalue⟩

/-- A byte is its low seven bits and whether it has a successor. -/
theorem eq_of_low_eq {a b : UInt8} (hlow : a.toNat % 128 = b.toNat % 128)
    (hcontinues : continues a = continues b) : a = b := by
  have ha := a.toNat_lt
  have hb := b.toNat_lt
  have hmark : 128 ≤ a.toNat ↔ 128 ≤ b.toNat := by
    simpa [continues, UInt8.le_iff_toNat_le] using hcontinues
  exact UInt8.toNat_inj.mp (by omega)

/-- Bytes of the same number and the same value have the same low bits. -/
theorem map_low_eq {a b : List UInt8} (hlength : a.length = b.length)
    (hvalue : groupsValue a = groupsValue b) :
    a.map (fun byte => byte.toNat % 128) = b.map fun byte => byte.toNat % 128 := by
  refine List.reverse_injective
    (Nat.ofDigits_inj_of_len_eq (by decide) ?_ (low_lt a) (low_lt b) hvalue)
  simpa using hlength

/-- Whole quantities of the same size and value are the same bytes. -/
theorem Whole.eq_of_groupsValue_eq {a b : List UInt8} (ha : Whole a) (hb : Whole b)
    (hlength : a.length = b.length) (hvalue : groupsValue a = groupsValue b) : a = b := by
  have hlow := map_low_eq hlength hvalue
  obtain ⟨groups, last, rfl, hgroups, hlast⟩ := ha
  obtain ⟨groups', last', rfl, hgroups', hlast'⟩ := hb
  refine List.ext_getElem hlength fun k hk hk' => eq_of_low_eq ?_ ?_
  · have hat := congrArg (·[k]?) hlow
    rwa [List.getElem?_map, List.getElem?_map, List.getElem?_eq_getElem hk,
      List.getElem?_eq_getElem hk', Option.map_some, Option.map_some, Option.some.injEq] at hat
  · have hsize : groups.length = groups'.length := by simpa using hlength
    rw [List.getElem_append, List.getElem_append]
    split
    · next hless =>
      rw [dif_pos (by omega), hgroups _ (List.getElem_mem hless),
        hgroups' _ (List.getElem_mem (by omega))]
    · rw [dif_neg (by omega), List.getElem_singleton, List.getElem_singleton, hlast, hlast']

theorem whole_encode (value : UInt32) : Whole (encode value) := by
  have hread := decode_encode value []
  rw [List.append_nil] at hread
  exact (decode_eq_some_length_iff.mp hread).1

/-- Quantities past twenty-eight bits take five bytes. -/
theorem encodedLength_eq_five_iff {value : UInt32} :
    encodedLength value = 5 ↔ 2 ^ 28 ≤ value.toNat := by
  rw [encodedLength_eq]
  simp only [UInt32.lt_iff_toNat_lt, UInt32.reduceToNat]
  split_ifs <;> omega

/-- Of the bytes that are one quantity as a whole, the written form is the one whose size is
least and that has no bits past the thirty-second. -/
theorem eq_encode_iff {value : UInt32} {bytes : List UInt8} :
    (bytes.length = encodedLength value ∧ decode bytes = some (value, bytes.length) ∧
      (2 ^ 28 ≤ value.toNat → ∀ first ∈ bytes.head?, first ≤ 0x8F)) ↔ bytes = encode value := by
  have hbound := value.toNat_lt
  constructor
  · rintro ⟨hlength, hread, hfirst⟩
    obtain ⟨hwhole, hvalue⟩ := decode_eq_some_length_iff.mp hread
    refine hwhole.eq_of_groupsValue_eq (whole_encode value)
      (hlength.trans (length_encode value).symm) (Eq.trans ?_ (groupsValue_encode value).symm)
    have hsmall : groupsValue bytes < 2 ^ 32 := by
      have hless := groupsValue_lt bytes
      by_cases hlong : 2 ^ 28 ≤ value.toNat
      · rw [hlength, encodedLength_eq_five_iff.mpr hlong] at hless
        obtain ⟨groups, last, rfl, hgroups, hlast⟩ := hwhole
        rw [encodedLength_eq_five_iff.mpr hlong, List.length_append, List.length_singleton]
          at hlength
        cases groups with
        | nil => cases hlength
        | cons first groups =>
          -- the first byte has a successor, so only its low four bits count
          have hle := hfirst hlong first rfl
          have hmark := hgroups first List.mem_cons_self
          have hlow := groupsValue_lt (groups ++ [last])
          rw [List.length_cons] at hlength
          rw [List.length_append, List.length_singleton, show groups.length + 1 = 4 by omega]
            at hlow
          rw [List.cons_append, groupsValue_cons, List.length_append, List.length_singleton,
            show groups.length + 1 = 4 by omega]
          simp only [continues, decide_eq_true_eq, UInt8.le_iff_toNat_le, UInt8.reduceToNat]
            at hle hmark
          omega
      · have hfour : bytes.length ≤ 4 := by
          rw [hlength, encodedLength_le_iff (by decide)]
          omega
        have hmost : 128 ^ bytes.length ≤ 128 ^ 4 := Nat.pow_le_pow_right (by decide) hfour
        omega
    rw [hvalue, UInt32.toNat_ofNat', Nat.mod_eq_of_lt hsmall]
  · rintro rfl
    have hread := decode_encode value []
    rw [List.append_nil] at hread
    refine ⟨length_encode value, hread, fun hlong first hfirst => ?_⟩
    obtain ⟨low, hbytes⟩ := List.head?_eq_some_iff.mp hfirst
    have hlength := length_encode value
    have hvalue := groupsValue_encode value
    rw [encodedLength_eq_five_iff.mpr hlong, hbytes, List.length_cons] at hlength
    rw [hbytes, groupsValue_cons, show low.length = 4 by omega] at hvalue
    have hbyte := first.toNat_lt
    rw [UInt8.le_iff_toNat_le]
    show first.toNat ≤ 143
    omega

/-- What is written is read back in place, whatever stands around it, in as many bytes as
the value takes. Bytes of any kind are read up to the first that has no successor, at
their value modulo 2^32, and not at all where there is none. So no form of a quantity is
shorter than the written one, and no other form of its size has the same value, if bits past
the thirty-second count. -/
theorem decodeAt_encode_unique :
    (∀ (value : UInt32) (before after : List UInt8),
      decodeAt (before ++ encode value ++ after).toArray before.length =
        some (value, (encode value).length)) ∧
    (∀ value, (encode value).length = encodedLength value ∧
      1 ≤ encodedLength value ∧ encodedLength value ≤ 5) ∧
    (∀ stream offset, decodeAt stream offset = none ↔
      ∀ byte ∈ stream.toList.drop offset, continues byte = true) ∧
    (∀ stream offset value count, decodeAt stream offset = some (value, count) ↔
      ∃ groups last rest, stream.toList.drop offset = groups ++ last :: rest ∧
        (∀ byte ∈ groups, continues byte = true) ∧ continues last = false ∧
          count = groups.length + 1 ∧ value = UInt32.ofNat (groupsValue (groups ++ [last]))) ∧
    (∀ stream offset value count, decodeAt stream offset = some (value, count) →
      encodedLength value ≤ count) ∧
    ∀ (value : UInt32) (bytes : List UInt8),
      (bytes.length = encodedLength value ∧
        decodeAt bytes.toArray 0 = some (value, bytes.length) ∧
          (2 ^ 28 ≤ value.toNat → ∀ first ∈ bytes.head?, first ≤ 0x8F)) ↔
        bytes = encode value := by
  refine ⟨fun value before after => ?_, fun value => ⟨length_encode value, encodedLength_mem value⟩,
    fun stream offset => ?_, fun stream offset value count => ?_, ?_, ?_⟩
  · rw [decodeAt_eq_decode, List.append_assoc, List.drop_left, decode_encode]
  · rw [decodeAt_eq_decode, decode_eq_none_iff]
  · rw [decodeAt_eq_decode, decode_eq_some_iff]
  · intro stream offset value count hread
    rw [decodeAt_eq_decode, decode_eq_some_iff] at hread
    obtain ⟨groups, last, rest, -, -, -, rfl, rfl⟩ := hread
    have hless := groupsValue_lt (groups ++ [last])
    rw [List.length_append, List.length_singleton] at hless
    rw [encodedLength_le_iff (Nat.succ_pos _), UInt32.toNat_ofNat']
    exact Nat.lt_of_le_of_lt (Nat.mod_le _ _) hless
  · intro value bytes
    rw [decodeAt_eq_decode, List.drop_zero]
    exact eq_encode_iff

/-- Five bytes have room for bits past the thirty-second: the greatest quantity is read from a
form as long as the written one, and only the written one begins with at most 0x8F. -/
theorem decodeAt_encode_unique_greatest :
    decodeAt #[0x9F, 0xFF, 0xFF, 0xFF, 0x7F] 0 = some (0xFFFFFFFF, 5) ∧
      encodedLength 0xFFFFFFFF ≤ 5 ∧ [0x9F, 0xFF, 0xFF, 0xFF, 0x7F] ≠ encode 0xFFFFFFFF ∧
      [0x8F, 0xFF, 0xFF, 0xFF, 0x7F] = encode 0xFFFFFFFF := by
  obtain ⟨-, -, -, -, hleast, hunique⟩ := decodeAt_encode_unique
  have hother : decodeAt #[0x9F, 0xFF, 0xFF, 0xFF, 0x7F] 0 = some (0xFFFFFFFF, 5) := by
    decide +kernel
  have hread : decodeAt #[0x8F, 0xFF, 0xFF, 0xFF, 0x7F] 0 = some (0xFFFFFFFF, 5) := by
    decide +kernel
  refine ⟨hother, hleast _ _ _ _ hother, fun hform => ?_,
    (hunique _ _).mp ⟨by decide +kernel, hread, fun _ first hfirst => ?_⟩⟩
  · obtain ⟨-, -, hfirst⟩ := (hunique _ _).mpr hform
    exact absurd (hfirst (by decide) 0x9F rfl) (by decide)
  · cases hfirst
    decide

end SoundSequencer.Vlq
