import LinboxRescue.Lib.Bits

/-!
# Setting and clearing bits

`bm[i >> 3] |= mask[i & 7]` and `bm[i >> 3] &= ~mask[i & 7]`, which have no result when the byte is
outside the bitmap. Setting bits one after the other adds them to the set ones
(`foldlM_setBit_eq_some`), and clearing them takes them away (`foldlM_clearBit_eq_some`).
-/

namespace LinboxRescue

/-- `bm[i >> 3] |= mask[i & 7]`. -/
def setBit (bm : Bytes) (i : ℕ) : Option Bytes :=
  bm[i >>> 3]?.map fun b => bm.set (i >>> 3) (b ||| UInt8.ofNat (1 <<< (i &&& 7)))

/-- `bm[i >> 3] &= ~mask[i & 7]`. -/
def clearBit (bm : Bytes) (i : ℕ) : Option Bytes :=
  bm[i >>> 3]?.map fun b => bm.set (i >>> 3) (b &&& ~~~UInt8.ofNat (1 <<< (i &&& 7)))

theorem testBit_or_mask {k m : ℕ} (hk : k < 8) (b : UInt8) :
    (b ||| UInt8.ofNat (1 <<< k)).toNat.testBit m = (b.toNat.testBit m || decide (k = m)) := by
  have hmask : (UInt8.ofNat (1 <<< k)).toNat = 2 ^ k := by
    rw [UInt8.toNat_ofNat', Nat.one_shiftLeft, Nat.mod_eq_of_lt]
    exact Nat.pow_lt_pow_right (by decide) hk
  rw [UInt8.toNat_or, hmask, Nat.testBit_or, Nat.testBit_two_pow]

theorem testBit_mask_compl {k m : ℕ} (hk : k < 8) (hm : m < 8) :
    (~~~UInt8.ofNat (1 <<< k)).toNat.testBit m = !decide (k = m) := by
  interval_cases k <;> interval_cases m <;> rfl

theorem testBit_and_mask {k m : ℕ} (hk : k < 8) (hm : m < 8) (b : UInt8) :
    (b &&& (~~~UInt8.ofNat (1 <<< k))).toNat.testBit m = (b.toNat.testBit m && !decide (k = m)) := by
  rw [UInt8.toNat_and, Nat.testBit_and, testBit_mask_compl hk hm]

theorem shiftRight_three (i : ℕ) : i >>> 3 = i / 8 := Nat.shiftRight_eq_div_pow i 3

theorem and_seven_eq (i : ℕ) : i &&& 7 = i % 8 := Nat.and_two_pow_sub_one_eq_mod i 3

theorem eq_of_div_mod {i j : ℕ} (hd : i / 8 = j / 8) (hm : i % 8 = j % 8) : i = j := by omega

/-- The bits of a bitmap in which one byte is replaced. -/
theorem bitAt_set {bm : Bytes} {n : ℕ} {b : UInt8} (hn : n < bm.length) (j : ℕ) :
    bitAt (bm.set n b) j =
      if j / 8 = n then some (b.toNat.testBit (j % 8)) else bitAt bm j := by
  rw [bitAt_eq, bitAt_eq, getElem?_bits, getElem?_bits]
  split_ifs with h
  · rw [h, List.getElem?_set_self hn]
    rfl
  · rw [List.getElem?_set_ne (Ne.symm h)]

theorem setBit_eq_none {bm : Bytes} {i : ℕ} : setBit bm i = none ↔ bm.length ≤ i / 8 := by
  unfold setBit
  rw [Option.map_eq_none_iff, List.getElem?_eq_none_iff, shiftRight_three]

/-- Setting a bit sets it and leaves the others alone. -/
theorem setBit_eq_some {bm : Bytes} {i : ℕ} (hi : i / 8 < bm.length) : ∃ bm', setBit bm i = some bm' ∧
    bm'.length = bm.length ∧ ∀ j, bitAt bm' j = some true ↔ bitAt bm j = some true ∨ j = i := by
  refine ⟨_, by rw [setBit, shiftRight_three, List.getElem?_eq_getElem hi]; rfl, List.length_set,
    fun j => ?_⟩
  rw [bitAt_set hi, and_seven_eq]
  split_ifs with h
  · rw [testBit_or_mask (Nat.mod_lt _ (by decide)), bitAt_eq, getElem?_bits, h,
      List.getElem?_eq_getElem hi]
    simp only [Option.map_some, Option.some.injEq, Bool.or_eq_true, decide_eq_true_eq]
    exact or_congr_right ⟨fun hm => eq_of_div_mod h hm.symm, fun hj => by rw [hj]⟩
  · exact (or_iff_left fun hj => h (by rw [hj])).symm

/-- Clearing a bit clears it and leaves the others alone. -/
theorem clearBit_eq_some {bm : Bytes} {i : ℕ} (hi : i / 8 < bm.length) :
    ∃ bm', clearBit bm i = some bm' ∧ bm'.length = bm.length ∧
      ∀ j, bitAt bm' j = some true ↔ bitAt bm j = some true ∧ j ≠ i := by
  refine ⟨_, by rw [clearBit, shiftRight_three, List.getElem?_eq_getElem hi]; rfl, List.length_set,
    fun j => ?_⟩
  rw [bitAt_set hi, and_seven_eq]
  split_ifs with h
  · rw [testBit_and_mask (Nat.mod_lt _ (by decide)) (Nat.mod_lt _ (by decide)), bitAt_eq,
      getElem?_bits, h, List.getElem?_eq_getElem hi]
    simp only [Option.map_some, Option.some.injEq, Bool.and_eq_true, Bool.not_eq_true',
      decide_eq_false_iff_not]
    exact and_congr_right fun _ => ⟨fun hm hj => hm (by rw [hj]), fun hj hm => hj (eq_of_div_mod h hm.symm)⟩
  · exact (and_iff_left fun hj => h (by rw [hj])).symm

/-! ## Many bits -/

theorem foldlM_setBit_eq_some {is : List ℕ} : ∀ {bm : Bytes}, (∀ i ∈ is, i / 8 < bm.length) →
    ∃ bm', is.foldlM setBit bm = some bm' ∧ bm'.length = bm.length ∧
      ∀ j, bitAt bm' j = some true ↔ bitAt bm j = some true ∨ j ∈ is := by
  induction is with
  | nil =>
    intro bm _
    exact ⟨bm, rfl, rfl, fun j => (or_iff_left List.not_mem_nil).symm⟩
  | cons i is ih =>
    intro bm h
    obtain ⟨hi, his⟩ := List.forall_mem_cons.mp h
    obtain ⟨bm1, h1, hlen1, hbits1⟩ := setBit_eq_some hi
    rw [← hlen1] at his
    obtain ⟨bm2, h2, hlen2, hbits2⟩ := ih his
    refine ⟨bm2, by rw [List.foldlM_cons, h1]; exact h2, hlen2.trans hlen1, fun j => ?_⟩
    rw [hbits2, hbits1, List.mem_cons, or_assoc]

theorem foldlM_clearBit_eq_some {is : List ℕ} : ∀ {bm : Bytes}, (∀ i ∈ is, i / 8 < bm.length) →
    ∃ bm', is.foldlM clearBit bm = some bm' ∧ bm'.length = bm.length ∧
      ∀ j, bitAt bm' j = some true ↔ bitAt bm j = some true ∧ j ∉ is := by
  induction is with
  | nil =>
    intro bm _
    exact ⟨bm, rfl, rfl, fun j => (and_iff_left List.not_mem_nil).symm⟩
  | cons i is ih =>
    intro bm h
    obtain ⟨hi, his⟩ := List.forall_mem_cons.mp h
    obtain ⟨bm1, h1, hlen1, hbits1⟩ := clearBit_eq_some hi
    rw [← hlen1] at his
    obtain ⟨bm2, h2, hlen2, hbits2⟩ := ih his
    refine ⟨bm2, by rw [List.foldlM_cons, h1]; exact h2, hlen2.trans hlen1, fun j => ?_⟩
    rw [hbits2, hbits1, List.mem_cons, not_or, and_assoc]

/-- A bit inside the bitmap is set or not. -/
theorem isSome_bitAt {bm : Bytes} {i : ℕ} (h : i / 8 < bm.length) : (bitAt bm i).isSome := by
  rw [bitAt_eq, getElem?_bits, List.getElem?_eq_getElem h]
  rfl

/-- Bits inside two bitmaps are equal when both or none of them is set. -/
theorem bitAt_congr {bm bm' : Bytes} {i j : ℕ} (hi : i / 8 < bm.length) (hj : j / 8 < bm'.length)
    (h : bitAt bm i = some true ↔ bitAt bm' j = some true) : bitAt bm i = bitAt bm' j := by
  obtain ⟨b, hb⟩ := Option.isSome_iff_exists.mp (isSome_bitAt hi)
  obtain ⟨b', hb'⟩ := Option.isSome_iff_exists.mp (isSome_bitAt hj)
  rw [hb, hb', Option.some.injEq, Option.some.injEq, ← Bool.eq_iff_iff] at h
  rw [hb, hb', h]

theorem bitAt_zeros (n j : ℕ) : bitAt (List.replicate n 0) j ≠ some true := by
  rw [bitAt_eq, bits_replicate_zero, List.getElem?_replicate]
  split_ifs <;> simp

end LinboxRescue
