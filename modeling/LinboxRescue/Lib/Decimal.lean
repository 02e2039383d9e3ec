import LinboxRescue.Lib.Bytes

/-!
# Decimal numerals

`dec` is what `%d` and `%u` print for a natural number and `pad3` what `%03d` prints. `digitsVal`
reads both back, so both are injective. `pad3_eq_append_pad3` says when a numeral printed with
`%03d` ends in another one: exactly when the digits before it are a numeral of their own.
-/

namespace LinboxRescue

/-- The character of a decimal digit. -/
def digit (d : ℕ) : UInt8 := UInt8.ofNat (48 + d)

def isDigit (b : UInt8) : Bool := 48 ≤ b.toNat && b.toNat ≤ 57

/-- `%d` of a natural number. -/
def dec (n : ℕ) : Bytes := (Nat.toDigits 10 n).map fun c => UInt8.ofNat c.toNat

/-- The value of a digit string. -/
def digitsVal (bs : Bytes) : ℕ := bs.foldl (fun v b => 10 * v + (b.toNat - 48)) 0

theorem digit_toNat {d : ℕ} (h : d < 10) : (digit d).toNat = 48 + d := by
  unfold digit
  rw [UInt8.toNat_ofNat', Nat.mod_eq_of_lt (by omega)]

theorem isDigit_digit {d : ℕ} (h : d < 10) : isDigit (digit d) = true := by
  unfold isDigit
  rw [digit_toNat h]
  simp; omega

/-- A digit is the character of its value. -/
theorem digit_of_isDigit {b : UInt8} (h : isDigit b = true) : digit (b.toNat - 48) = b := by
  simp only [isDigit, Bool.and_eq_true, decide_eq_true_eq] at h
  apply UInt8.toNat_inj.mp
  rw [digit_toNat (by omega)]
  omega

theorem isDigit_val_lt {b : UInt8} (h : isDigit b = true) : b.toNat - 48 < 10 := by
  simp only [isDigit, Bool.and_eq_true, decide_eq_true_eq] at h
  omega

theorem dec_eq (n : ℕ) : dec n = if n < 10 then [digit n] else dec (n / 10) ++ [digit (n % 10)] := by
  unfold dec
  rw [Nat.toDigits_eq_if (by omega)]
  split_ifs with h
  · simp [digit, Nat.toNat_digitChar_of_lt_ten h]
  · simp [digit, Nat.toNat_digitChar_of_lt_ten (Nat.mod_lt n (by omega : 0 < 10))]

theorem dec_of_lt {n : ℕ} (h : n < 10) : dec n = [digit n] := by rw [dec_eq, if_pos h]

/-- Appending a digit to a nonzero numeral. -/
theorem dec_snoc {n d : ℕ} (hn : 0 < n) (hd : d < 10) : dec (10 * n + d) = dec n ++ [digit d] := by
  rw [dec_eq, if_neg (by omega), show (10 * n + d) / 10 = n by omega,
    show (10 * n + d) % 10 = d by omega]

theorem dec_ne_nil (n : ℕ) : dec n ≠ [] := by
  rw [dec_eq]; split_ifs <;> simp

theorem isDigit_of_mem_dec {n : ℕ} : ∀ b ∈ dec n, isDigit b = true := by
  induction n using Nat.strong_induction_on with
  | _ n ih =>
    intro b hb
    rw [dec_eq] at hb
    split_ifs at hb with h
    · rw [List.mem_singleton.mp hb]; exact isDigit_digit h
    · rcases List.mem_append.mp hb with hb | hb
      · exact ih (n / 10) (by omega) b hb
      · rw [List.mem_singleton.mp hb]; exact isDigit_digit (Nat.mod_lt n (by omega))

theorem isDigit_ne {b c : UInt8} (h : isDigit b = true) (hc : isDigit c = false) : b ≠ c := by
  rintro rfl; rw [h] at hc; cases hc

theorem dec_ne {n : ℕ} {c : UInt8} (hc : isDigit c = false) : ∀ b ∈ dec n, b ≠ c :=
  fun b hb => isDigit_ne (isDigit_of_mem_dec b hb) hc

theorem length_dec_le {n k : ℕ} (hk : 0 < k) (h : n < 10 ^ k) : (dec n).length ≤ k := by
  unfold dec
  rw [List.length_map]
  exact (Nat.length_toDigits_le_iff (by omega) hk).mpr h

/-! ## Reading numerals back -/

theorem digitsVal_snoc (g : Bytes) (b : UInt8) :
    digitsVal (g ++ [b]) = 10 * digitsVal g + (b.toNat - 48) := by
  simp [digitsVal]

theorem digitsVal_append (g h : Bytes) :
    digitsVal (g ++ h) = digitsVal g * 10 ^ h.length + digitsVal h := by
  induction h using List.reverseRecOn with
  | nil => simp [digitsVal]
  | append_singleton h b ih =>
    rw [← List.append_assoc, digitsVal_snoc, ih, digitsVal_snoc, List.length_append,
      List.length_singleton, pow_succ]
    ring

theorem digitsVal_dec (n : ℕ) : digitsVal (dec n) = n := by
  induction n using Nat.strong_induction_on with
  | _ n ih =>
    rw [dec_eq]
    split_ifs with h
    · simp [digitsVal, digit_toNat h]
    · rw [digitsVal_snoc, ih (n / 10) (by omega), digit_toNat (Nat.mod_lt n (by omega))]
      omega

theorem dec_injective : Function.Injective dec := by
  intro m n h
  rw [← digitsVal_dec m, h, digitsVal_dec]

/-- Digits after a nonzero numeral continue it. -/
theorem dec_append_digits {w : ℕ} (hw : 0 < w) {g : Bytes} (hg : ∀ b ∈ g, isDigit b = true) :
    dec (w * 10 ^ g.length + digitsVal g) = dec w ++ g := by
  induction g using List.reverseRecOn with
  | nil => simp [digitsVal]
  | append_singleton g b ih =>
    have hb : isDigit b = true := hg b (by simp)
    have hpos : 0 < w * 10 ^ g.length + digitsVal g := by positivity
    have hval : w * 10 ^ (g ++ [b]).length + digitsVal (g ++ [b]) =
        10 * (w * 10 ^ g.length + digitsVal g) + (b.toNat - 48) := by
      rw [digitsVal_snoc, List.length_append, List.length_singleton, pow_succ]
      ring
    rw [hval, dec_snoc hpos (isDigit_val_lt hb), ih fun x hx => hg x (by simp [hx]),
      digit_of_isDigit hb, List.append_assoc]

theorem dec_head_ne_zero {n : ℕ} (hn : 0 < n) : (dec n).head? ≠ some 48 := by
  induction n using Nat.strong_induction_on with
  | _ n ih =>
    rw [dec_eq]
    split_ifs with h
    · intro e
      have e' := congrArg UInt8.toNat (Option.some.inj e)
      rw [digit_toNat h] at e'
      simp at e'
      omega
    · rw [List.head?_append_of_ne_nil _ (dec_ne_nil _)]
      exact ih (n / 10) (by omega) (by omega)

/-- A digit string without leading zero is the numeral of its value. -/
theorem dec_digitsVal {b : UInt8} {g : Bytes} (hd : ∀ x ∈ b :: g, isDigit x = true) (hb : b ≠ 48) :
    dec (digitsVal (b :: g)) = b :: g := by
  have hbd : isDigit b = true := hd b (by simp)
  have hpos : 0 < b.toNat - 48 := by
    by_contra h0
    apply hb
    rw [← digit_of_isDigit hbd, show b.toNat - 48 = 0 by omega]
    rfl
  have hval : digitsVal (b :: g) = (b.toNat - 48) * 10 ^ g.length + digitsVal g := by
    rw [show b :: g = [b] ++ g from rfl, digitsVal_append]
    simp [digitsVal]
  rw [hval, dec_append_digits hpos fun x hx => hd x (by simp [hx]),
    dec_of_lt (isDigit_val_lt hbd), digit_of_isDigit hbd]
  rfl

/-! ## Three-digit numerals -/

/-- `%03d` of a natural number. -/
def pad3 (n : ℕ) : Bytes := List.replicate (3 - (dec n).length) 48 ++ dec n

theorem isDigit_of_mem_pad3 {n : ℕ} : ∀ b ∈ pad3 n, isDigit b = true := by
  intro b hb
  rcases List.mem_append.mp hb with hb | hb
  · rw [List.eq_of_mem_replicate hb]; decide
  · exact isDigit_of_mem_dec b hb

theorem digitsVal_pad3 (n : ℕ) : digitsVal (pad3 n) = n := by
  unfold pad3
  have hz : ∀ k, digitsVal (List.replicate k 48) = 0 := by
    intro k
    induction k with
    | zero => rfl
    | succ k ih => rw [List.replicate_succ', digitsVal_snoc, ih]; rfl
  rw [digitsVal_append, hz, digitsVal_dec]
  omega

theorem pad3_injective : Function.Injective pad3 := by
  intro m n h
  rw [← digitsVal_pad3 m, h, digitsVal_pad3]

theorem three_le_length_pad3 (n : ℕ) : 3 ≤ (pad3 n).length := by
  unfold pad3; simp; omega

theorem pad3_eq_dec {n : ℕ} (h : 3 ≤ (dec n).length) : pad3 n = dec n := by
  unfold pad3
  rw [Nat.sub_eq_zero_of_le h]
  rfl

/-- A numeral followed by a three-digit numeral is again one. -/
theorem pad3_append {w : ℕ} (hw : 0 < w) (n : ℕ) :
    pad3 (w * 10 ^ (pad3 n).length + n) = dec w ++ pad3 n := by
  have h := dec_append_digits hw (g := pad3 n) isDigit_of_mem_pad3
  rw [digitsVal_pad3] at h
  rw [pad3_eq_dec, h]
  rw [h, List.length_append]
  exact Nat.le_add_left_of_le (three_le_length_pad3 n)

/-- **Cutting a three-digit numeral.** If `pad3 m` is a nonempty string followed by `pad3 n`, then
that string is the numeral of a nonzero number. -/
theorem pad3_eq_append_pad3 {m n : ℕ} {w : Bytes} (hw : w ≠ []) :
    pad3 m = w ++ pad3 n ↔ ∃ k, 0 < k ∧ w = dec k ∧ m = k * 10 ^ (pad3 n).length + n := by
  constructor
  · intro h
    have hlen : 3 < (pad3 m).length := by
      have := three_le_length_pad3 n
      have := List.length_pos_of_ne_nil hw
      rw [h, List.length_append]; omega
    have hdec : pad3 m = dec m := by
      apply pad3_eq_dec
      by_contra hs
      unfold pad3 at hlen
      simp only [List.length_append, List.length_replicate] at hlen
      omega
    obtain ⟨b, g, rfl⟩ := List.exists_cons_of_ne_nil hw
    have hmpos : 0 < m := by
      by_contra h0
      rw [hdec, show m = 0 by omega, dec_of_lt (by omega)] at hlen
      simp at hlen
    have hb : b ≠ 48 := by
      intro e
      apply dec_head_ne_zero hmpos
      rw [← hdec, h, e]
      rfl
    have hdig : ∀ x ∈ b :: g, isDigit x = true := fun x hx =>
      isDigit_of_mem_pad3 (n := m) x (by rw [h]; exact List.mem_append_left _ hx)
    have hk := dec_digitsVal hdig hb
    refine ⟨digitsVal (b :: g), ?_, hk.symm, ?_⟩
    · by_contra h0
      rw [show digitsVal (b :: g) = 0 by omega, dec_of_lt (by omega)] at hk
      exact hb (List.cons.inj hk).1.symm
    · rw [← digitsVal_pad3 m, h, digitsVal_append, digitsVal_pad3]
  · rintro ⟨k, hk, rfl, rfl⟩
    exact pad3_append hk n

/-! ## Other numbers -/

/-- `%d` of a number that may be negative. -/
def decInt : ℤ → Bytes
  | .ofNat n => dec n
  | .negSucc n => 45 :: dec (n + 1)

/-- A digit of `%x`. -/
def hexLower (d : ℕ) : UInt8 := UInt8.ofNat (if d % 16 < 10 then 48 + d % 16 else 87 + d % 16)

/-- `%x`. -/
def hex (n : ℕ) : Bytes := if n = 0 then [48] else (Nat.digits 16 n).reverse.map hexLower

/-- A digit of `%X`. -/
def hexDigit (d : ℕ) : UInt8 := UInt8.ofNat (if d < 10 then 48 + d else 55 + d)

/-- `%02X` of a byte. -/
def hex2 (n : ℕ) : Bytes := [hexDigit (n / 16), hexDigit (n % 16)]

theorem decInt_ne {n : ℤ} {c : UInt8} (hc : isDigit c = false) (hm : c ≠ 45) :
    ∀ b ∈ decInt n, b ≠ c := by
  cases n with
  | ofNat n => exact dec_ne hc
  | negSucc n => exact List.forall_mem_cons.mpr ⟨hm.symm, dec_ne hc⟩

theorem hex_ne_newline (n : ℕ) : ∀ b ∈ hex n, b ≠ 10 := by
  unfold hex
  split_ifs
  · decide
  · intro b hb h10
    obtain ⟨d, -, rfl⟩ := List.mem_map.mp hb
    have h := congrArg UInt8.toNat h10
    rw [hexLower, UInt8.toNat_ofNat'] at h
    change _ = 10 at h
    split_ifs at h <;> omega

theorem hexDigit_injective {a b : ℕ} (ha : a < 16) (hb : b < 16) (h : hexDigit a = hexDigit b) :
    a = b := by
  have h' := congrArg UInt8.toNat h
  unfold hexDigit at h'
  rw [UInt8.toNat_ofNat', UInt8.toNat_ofNat'] at h'
  split_ifs at h' <;> omega

theorem hex2_injective {a b : ℕ} (ha : a < 256) (hb : b < 256) (h : hex2 a = hex2 b) : a = b := by
  obtain ⟨h1, h2⟩ := List.cons.inj h
  have hhi := hexDigit_injective (by omega) (by omega) h1
  have hlo := hexDigit_injective (by omega) (by omega) (List.cons.inj h2).1
  omega

end LinboxRescue
