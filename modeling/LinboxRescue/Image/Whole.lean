import LinboxRescue.Image.RoundTrip
import LinboxRescue.Lib.CString

/-!
# Devices saved whole

`image_raw` and `image_jfs` do not look for free blocks: `allocated_sectors` fills the bitmap with
0xFF, except for the last byte, which it only touches when it is not full.

1. `bits_wholeBitmap`: the bits of that bitmap.
2. `savesWhole_iff`: every sector is marked, and so saved and restored, exactly when the number of
   sectors is no multiple of 8, and for `image_jfs` small enough to be rounded up in an `int`.
-/

namespace LinboxRescue

/-! ## `allocated_sectors` -/

/-- The bitmap of `bytes` bytes for a device of `size` sectors, a size other than 0. -/
def wholeBitmap (bytes size : ℕ) : Bytes :=
  let bitmap := (List.range (bytes - 1)).foldl (fun bm i => bm.set i 0xFF) (List.replicate bytes 0)
  if size &&& 7 ≠ 0 then bitmap.set (bytes - 1) (UInt8.ofNat ((0xFF >>> (8 - (size &&& 7))) &&& 0xFF))
  else bitmap

/-- `allocated_sectors`, when the length of the bitmap computes to `bytes`. A negative length is
more than `calloc` can give. -/
def allocatedSectors (bytes : ℤ) (size : ℕ) : Option Bytes :=
  if size = 0 ∨ bytes < 0 then none else some (wholeBitmap bytes.toNat size)

/-- `allocated_sectors` of `image_raw`, where the size is an `unsigned int`. -/
def rawAllocatedSectors (size : ℕ) : Option Bytes :=
  allocatedSectors (((size + 7) % 2 ^ 32 / 8 : ℕ) : ℤ) size

/-- `allocated_sectors` of `image_jfs`, where the size is an `int`. -/
def jfsAllocatedSectors (size : ℕ) : Option Bytes :=
  allocatedSectors ((wrapInt (size + 7)).tdiv 8) size

/-! ## The bits -/

theorem foldl_set (v : UInt8) (k : ℕ) : ∀ n, k ≤ n →
    (List.range k).foldl (fun bm i => bm.set i v) (List.replicate n 0) =
      List.replicate k v ++ List.replicate (n - k) 0 := by
  induction k with
  | zero => exact fun _ _ => rfl
  | succ k ih =>
    intro n hk
    have hrest : List.replicate (n - k) (0 : UInt8) = 0 :: List.replicate (n - (k + 1)) 0 := by
      rw [show n - k = n - (k + 1) + 1 by omega, List.replicate_succ]
    rw [List.range_succ, List.foldl_append, ih n (by omega), List.foldl_cons, List.foldl_nil, hrest,
      List.set_append_right _ _ (by rw [List.length_replicate]), List.length_replicate, Nat.sub_self,
      List.set_cons_zero, List.replicate_succ', List.append_assoc]
    rfl

theorem bits_replicate_ones (n : ℕ) : bits (List.replicate n 0xFF) = List.replicate (8 * n) true := by
  induction n with
  | zero => rfl
  | succ n ih =>
    rw [List.replicate_succ, bits_cons, ih, show 8 * (n + 1) = 8 + 8 * n by ring, List.replicate_add]
    rfl

/-- The mask for the sectors of a last byte. -/
theorem byteBits_mask {r : ℕ} (hr : 0 < r) (hr8 : r < 8) :
    byteBits (UInt8.ofNat ((0xFF >>> (8 - r)) &&& 0xFF)) =
      List.replicate r true ++ List.replicate (8 - r) false := by
  interval_cases r <;> decide

theorem and_seven (size : ℕ) : size &&& 7 = size % 8 := Nat.and_two_pow_sub_one_eq_mod size 3

/-- All sectors are marked, but not those of a full last byte. -/
theorem bits_wholeBitmap {bytes size : ℕ} (h0 : 0 < size) (hb : bytes = (size + 7) / 8) :
    bits (wholeBitmap bytes size) =
      List.replicate (if size % 8 = 0 then size - 8 else size) true ++
        List.replicate (if size % 8 = 0 then 8 else 8 - size % 8) false := by
  have hlast : bytes - (bytes - 1) = 1 := by omega
  unfold wholeBitmap
  rw [and_seven, foldl_set 0xFF (bytes - 1) bytes (by omega), hlast]
  by_cases hr : size % 8 = 0
  · rw [if_neg (not_not.mpr hr), if_pos hr, if_pos hr, bits_append, bits_replicate_ones,
      bits_replicate_zero, show 8 * (bytes - 1) = size - 8 by omega]
  · rw [if_pos hr, if_neg hr, if_neg hr, List.set_append_right _ _ (by rw [List.length_replicate]),
      List.length_replicate, Nat.sub_self, List.replicate_one, List.set_cons_zero, bits_append,
      bits_replicate_ones, bits_cons, bits_nil, List.append_nil,
      byteBits_mask (by omega) (Nat.mod_lt _ (by omega)), ← List.append_assoc, ← List.replicate_add,
      show 8 * (bytes - 1) + size % 8 = size by omega]

theorem used_wholeBitmap {bytes size : ℕ} (h0 : 0 < size) (hb : bytes = (size + 7) / 8) (i : ℕ) :
    Used (wholeBitmap bytes size) i ↔ i < if size % 8 = 0 then size - 8 else size := by
  rw [Used, bitAt_eq, bits_wholeBitmap h0 hb]
  obtain ⟨n, hn⟩ : ∃ n, n = if size % 8 = 0 then size - 8 else size := ⟨_, rfl⟩
  rw [← hn]
  rcases Nat.lt_or_ge i n with hlt | hge
  · rw [List.getElem?_append_left (by rwa [List.length_replicate]), List.getElem?_replicate,
      if_pos hlt]
    exact iff_of_true rfl hlt
  · rw [List.getElem?_append_right (by rwa [List.length_replicate]), List.getElem?_replicate]
    refine iff_of_false ?_ (Nat.not_lt.mpr hge)
    split_ifs <;> simp

/-! ## Saving and restoring every sector -/

/-- The bitmap marks the sectors below `n` and no other bit, and a device of `n` sectors saved with it
is restored sector by sector to any disk that has room for it, nothing else of which changes. -/
def SavesWhole (z : Zlib) (im : Imager) (bitmap : Option Bytes) (n : ℕ) : Prop :=
  ∃ p : Params, bitmap = some p.bitmap ∧ p.nbSect = n ∧ (∀ i, Used p.bitmap i ↔ i < n) ∧
    ∀ (D : List Sector) (name buffer : Bytes) (mem : Memory) (T : ℕ → Sector) (disk s : ℕ),
      D.length = n → buffer.length = 24064 → s + n ≤ disk →
      ∃ v st, Returns (fun fuel => compressVolume z fuel name none im p
          (openSource D fun _ => false) buffer Dir.empty) v ∧
        Returns (fun fuel => restore z.inflate fuel v.dir.fetch mem (openTarget T (endsAt disk)) s name)
          (fetchedNames name p.nb, st) ∧
        (∀ i < n, D[i]? = some (st.fo.cells (s + i))) ∧
        ∀ q, (q < s ∨ s + n ≤ q) → st.fo.cells q = T q

/-- Nothing seizes a disk that has room for all used sectors. -/
theorem seized_endsAt {bs : List Bool} {s disk : ℕ} (h : ∀ i, bs[i]? = some true → s + i < disk) :
    Seized (endsAt disk) bs s := by
  intro i j hi _ _ hbad _
  have := h i hi
  exact absurd hbad (by simp [endsAt]; omega)

section Whole

variable {z : Zlib} (hz : z.Contract) {im : Imager} {n bytes : ℕ}

include hz in
theorem savesWhole_of (h0 : 0 < n) (hn : n < 2 ^ 31) (hb : bytes = (n + 7) / 8) (hr : n % 8 ≠ 0) :
    SavesWhole z im (some (wholeBitmap bytes n)) n := by
  have hlen : (wholeBitmap bytes n).length = bytes := by
    have h8 := length_bits (wholeBitmap bytes n)
    rw [bits_wholeBitmap h0 hb, if_neg hr, if_neg hr, List.length_append, List.length_replicate,
      List.length_replicate] at h8
    omega
  have hused : ∀ i, Used (wholeBitmap bytes n) i ↔ i < n := fun i => by
    rw [used_wholeBitmap h0 hb, if_neg hr]
  obtain ⟨p, hp⟩ : ∃ p : Params, p.bitmap = wholeBitmap bytes n ∧ p.nbSect = n :=
    ⟨{ bitmap := wholeBitmap bytes n, nbSect := n, bitmap_lt := by omega, nbSect_lt := by omega },
      rfl, rfl⟩
  rw [← hp.1] at hused ⊢
  refine ⟨p, rfl, hp.2, hused, fun D name buffer mem T disk s hD hbuf hroom => ?_⟩
  have hplace : ∀ i, (bits p.bitmap)[i]? = some true → endsAt disk (s + i) = false := by
    intro i hi
    have := (hused i).mp (by rwa [Used, bitAt_eq])
    exact decide_eq_false (by omega)
  have hseized : Seized (endsAt disk) (bits p.bitmap) s := seized_endsAt fun i hi => by
    have := (hused i).mp (by rwa [Used, bitAt_eq])
    omega
  obtain ⟨v, st, hv, hst, hin, hout⟩ := restoresWritable_of hz hseized D name im buffer mem T
    (fun i hi => by rw [hD]; exact (hused i).mp hi) hbuf
  refine ⟨v, st, hv, hst, fun i hi => ?_, fun q hq => hout q fun i hi _ hqi => ?_⟩
  · have hi' := (hused i).mpr hi
    exact hin i hi' (hplace i (by rwa [Used, bitAt_eq] at hi'))
  · have := (hused i).mp hi
    omega

/-- A last byte that is full stays empty. -/
theorem not_savesWhole (h0 : 0 < n) (hb : bytes = (n + 7) / 8) (hr : n % 8 = 0) :
    ¬ SavesWhole z im (some (wholeBitmap bytes n)) n := by
  rintro ⟨p, hp, -, hused, -⟩
  have hlast := (hused (n - 1)).mpr (by omega)
  rw [← Option.some.inj hp, used_wholeBitmap h0 hb, if_pos hr] at hlast
  omega

include hz in
theorem savesWhole_wholeBitmap (h0 : 0 < n) (hn : n < 2 ^ 31) (hb : bytes = (n + 7) / 8) :
    SavesWhole z im (some (wholeBitmap bytes n)) n ↔ n % 8 ≠ 0 :=
  ⟨fun h hr => not_savesWhole h0 hb hr h, savesWhole_of hz h0 hn hb⟩

theorem rawAllocatedSectors_eq (h0 : 0 < n) (hn : n < 2 ^ 31) :
    rawAllocatedSectors n = some (wholeBitmap ((n + 7) / 8) n) := by
  unfold rawAllocatedSectors allocatedSectors
  rw [if_neg (by omega), Int.toNat_natCast, Nat.mod_eq_of_lt (by omega)]

theorem jfsAllocatedSectors_eq (h0 : 0 < n) (hn : n < 2 ^ 31) :
    jfsAllocatedSectors n = if n + 7 < 2 ^ 31 then some (wholeBitmap ((n + 7) / 8) n) else none := by
  unfold jfsAllocatedSectors allocatedSectors
  by_cases hfit : n + 7 < 2 ^ 31
  · have hdiv : ((n : ℤ) + 7).tdiv 8 = ((n + 7) / 8 : ℕ) := by
      rw [Int.tdiv_eq_ediv_of_nonneg (by omega)]
      omega
    rw [wrapInt_of_range (by omega) (by omega), hdiv, if_pos hfit, if_neg (by omega),
      Int.toNat_natCast]
  · have hwrap : wrapInt (n + 7) = -(2 ^ 32 - 7 - n : ℕ) := by
      unfold wrapInt
      omega
    have hdiv : (-((2 ^ 32 - 7 - n : ℕ) : ℤ)).tdiv 8 = -((2 ^ 32 - 7 - n) / 8 : ℕ) := by
      rw [Int.neg_tdiv, Int.tdiv_eq_ediv_of_nonneg (by omega)]
      omega
    rw [hwrap, hdiv, if_neg hfit, if_pos (.inr (by omega))]

include hz in
/-- **A device is saved whole** by `image_raw` exactly when its number of sectors is no multiple of
8, and by `image_jfs` when moreover the number plus 7 fits an `int`. -/
theorem savesWhole_iff (h0 : 1 ≤ n) (hn : n < 2 ^ 31) :
    (SavesWhole z .raw (rawAllocatedSectors n) n ↔ n % 8 ≠ 0) ∧
    (SavesWhole z .jfs (jfsAllocatedSectors n) n ↔ n % 8 ≠ 0 ∧ n + 7 < 2 ^ 31) := by
  rw [rawAllocatedSectors_eq h0 hn, jfsAllocatedSectors_eq h0 hn]
  refine ⟨savesWhole_wholeBitmap hz h0 hn rfl, ?_⟩
  split_ifs with hfit
  · rw [savesWhole_wholeBitmap hz h0 hn rfl]
    exact ⟨fun h => ⟨h, hfit⟩, And.left⟩
  · exact iff_of_false (fun ⟨p, hp, _⟩ => by cases hp) fun h => hfit h.2

end Whole

theorem savesWhole_iff_nine :
    (SavesWhole storedZlib .raw (rawAllocatedSectors 9) 9 ↔ 9 % 8 ≠ 0) ∧
    (SavesWhole storedZlib .jfs (jfsAllocatedSectors 9) 9 ↔ 9 % 8 ≠ 0 ∧ 9 + 7 < 2 ^ 31) :=
  savesWhole_iff storedZlib_contract (by decide) (by decide)

/-- The sectors 8 to 15 are not marked. -/
theorem not_savesWhole_sixteen : rawAllocatedSectors 16 = some [0xFF, 0] ∧
    ¬ SavesWhole storedZlib .raw (rawAllocatedSectors 16) 16 := by
  refine ⟨by decide, ?_⟩
  rw [rawAllocatedSectors_eq (by decide) (by decide)]
  exact not_savesWhole (by decide) rfl (by decide)

end LinboxRescue
