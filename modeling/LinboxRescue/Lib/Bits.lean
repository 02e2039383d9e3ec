import Mathlib.Data.Nat.Bitwise
import LinboxRescue.Lib.Bytes

/-!
# Bitmaps

A bitmap is a byte string whose bits are numbered from the low bit of the first byte on. `bits` is
the list of them, `bitAt` the test `bm[i >> 3] & mask[i & 7]` of the C code, and `ones p` the
positions of the set bits when the first bit stands at position `p`.
-/

namespace LinboxRescue

/-- The bits of a byte, low bit first. -/
def byteBits (b : UInt8) : List Bool := (List.range 8).map fun k => b.toNat.testBit k

/-- The bits of a bitmap. -/
def bits (bm : Bytes) : List Bool := bm.flatMap byteBits

/-- `bm[i >> 3] & mask[i & 7]`, or `none` when the byte is outside the bitmap. -/
def bitAt (bm : Bytes) (i : ℕ) : Option Bool :=
  bm[i >>> 3]?.map fun b => b.toNat &&& (1 <<< (i &&& 7)) != 0

@[simp] theorem bits_nil : bits [] = [] := rfl

theorem bits_cons (b : UInt8) (bm : Bytes) : bits (b :: bm) = byteBits b ++ bits bm := rfl

@[simp] theorem bits_append (a b : Bytes) : bits (a ++ b) = bits a ++ bits b := by
  simp [bits]

@[simp] theorem length_byteBits (b : UInt8) : (byteBits b).length = 8 := by simp [byteBits]

@[simp] theorem length_bits (bm : Bytes) : (bits bm).length = 8 * bm.length := by
  induction bm with
  | nil => rfl
  | cons b bm ih => rw [bits_cons, List.length_append, length_byteBits, ih, List.length_cons]; ring

theorem bits_take (bm : Bytes) (n : ℕ) : bits (bm.take n) = (bits bm).take (8 * n) := by
  have h : bits bm = bits (bm.take n) ++ bits (bm.drop n) := by
    rw [← bits_append, List.take_append_drop]
  rcases Nat.le_total n bm.length with hn | hn
  · rw [h, List.take_left' (by rw [length_bits, List.length_take, Nat.min_eq_left hn])]
  · rw [List.take_of_length_le hn, List.take_of_length_le (by rw [length_bits]; omega)]

theorem bits_replicate_zero (n : ℕ) : bits (List.replicate n 0) = List.replicate (8 * n) false := by
  induction n with
  | zero => rfl
  | succ n ih =>
    rw [List.replicate_succ, bits_cons, ih, show 8 * (n + 1) = 8 + 8 * n by ring,
      List.replicate_add]
    rfl

theorem and_mask_ne_zero (n k : ℕ) : (n &&& (1 <<< k) != 0) = n.testBit k := by
  rw [Nat.one_shiftLeft, Nat.and_two_pow]
  cases n.testBit k <;> simp

theorem getElem?_bits (bm : Bytes) (i : ℕ) :
    (bits bm)[i]? = bm[i / 8]?.map fun b => b.toNat.testBit (i % 8) := by
  induction bm generalizing i with
  | nil => simp
  | cons b bm ih =>
    rw [bits_cons]
    by_cases h : i < 8
    · rw [List.getElem?_append_left (by simpa using h), Nat.div_eq_of_lt h, Nat.mod_eq_of_lt h]
      simp [byteBits, h]
    · rw [List.getElem?_append_right (by simpa using h), length_byteBits, ih,
        show i / 8 = (i - 8) / 8 + 1 by omega, show (i - 8) % 8 = i % 8 by omega]
      rfl

/-- The C bit test reads the list of bits. -/
theorem bitAt_eq (bm : Bytes) (i : ℕ) : bitAt bm i = (bits bm)[i]? := by
  unfold bitAt
  rw [getElem?_bits, Nat.shiftRight_eq_div_pow, show i &&& 7 = i % 8 from Nat.and_two_pow_sub_one_eq_mod i 3]
  simp only [and_mask_ne_zero]

/-! ## Positions of the set bits -/

/-- The positions of the set bits, the first bit being at position `p`. -/
def ones (p : ℕ) : List Bool → List ℕ
  | [] => []
  | false :: bs => ones (p + 1) bs
  | true :: bs => p :: ones (p + 1) bs

@[simp] theorem ones_nil (p : ℕ) : ones p [] = [] := rfl
@[simp] theorem ones_false (p : ℕ) (bs : List Bool) : ones p (false :: bs) = ones (p + 1) bs := rfl
@[simp] theorem ones_true (p : ℕ) (bs : List Bool) :
    ones p (true :: bs) = p :: ones (p + 1) bs := rfl

theorem ones_append (p : ℕ) (as bs : List Bool) :
    ones p (as ++ bs) = ones p as ++ ones (p + as.length) bs := by
  induction as generalizing p with
  | nil => rfl
  | cons a as ih =>
    have h := ih (p + 1)
    rw [show p + 1 + as.length = p + (as.length + 1) by ring] at h
    cases a <;> simp [h]

@[simp] theorem length_ones (p : ℕ) (bs : List Bool) : (ones p bs).length = bs.count true := by
  induction bs generalizing p with
  | nil => rfl
  | cons b bs ih => cases b <;> simp [ih]

theorem mem_ones {p : ℕ} {bs : List Bool} {q : ℕ} :
    q ∈ ones p bs ↔ p ≤ q ∧ bs[q - p]? = some true := by
  induction bs generalizing p with
  | nil => simp
  | cons b bs ih =>
    by_cases hq : q = p
    · subst hq
      cases b
      · simp [ih]
      · simp
    · have hs : p ≤ q → (b :: bs)[q - p]? = bs[q - (p + 1)]? := by
        intro hp
        rw [show q - p = q - (p + 1) + 1 by omega, List.getElem?_cons_succ]
      have hr : p + 1 ≤ q ↔ p ≤ q := by omega
      cases b
      · rw [ones_false, ih, hr]
        exact and_congr_right fun hp => by rw [hs hp]
      · rw [ones_true, List.mem_cons, or_iff_right hq, ih, hr]
        exact and_congr_right fun hp => by rw [hs hp]

theorem le_of_mem_ones {p : ℕ} {bs : List Bool} {q : ℕ} (h : q ∈ ones p bs) : p ≤ q :=
  (mem_ones.mp h).1

theorem lt_of_mem_ones {p : ℕ} {bs : List Bool} {q : ℕ} (h : q ∈ ones p bs) :
    q < p + bs.length := by
  have h2 := (List.getElem?_eq_some_iff.mp (mem_ones.mp h).2).1
  have := le_of_mem_ones h
  omega

theorem ones_replicate_false (p n : ℕ) : ones p (List.replicate n false) = [] := by
  induction n generalizing p with
  | zero => rfl
  | succ n ih => simpa [List.replicate_succ] using ih (p + 1)

/-- Moving the first bit moves all positions. -/
theorem ones_add (p d : ℕ) (bs : List Bool) : ones (p + d) bs = (ones p bs).map (· + d) := by
  induction bs generalizing p with
  | nil => rfl
  | cons b bs ih =>
    have h := ih (p + 1)
    rw [show p + 1 + d = p + d + 1 by ring] at h
    cases b <;> simp [h]

/-- The list around a set bit. -/
theorem eq_append_of_getElem? {bs : List Bool} {i : ℕ} (h : bs[i]? = some true) :
    bs = bs.take i ++ true :: bs.drop (i + 1) ∧ (bs.take i).length = i := by
  obtain ⟨hlt, hget⟩ := List.getElem?_eq_some_iff.mp h
  refine ⟨?_, by rw [List.length_take]; omega⟩
  conv_lhs => rw [← List.take_append_drop i bs, List.drop_eq_getElem_cons hlt, hget]

/-- The place of a set bit among the set bits. -/
theorem getElem?_ones_append (p : ℕ) (as bs : List Bool) :
    (ones p (as ++ true :: bs))[as.count true]? = some (p + as.length) := by
  rw [ones_append, ones_true, List.getElem?_append_right (by rw [length_ones]), length_ones,
    Nat.sub_self]
  rfl

end LinboxRescue
