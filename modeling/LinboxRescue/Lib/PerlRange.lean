import LinboxRescue.Lib.Decimal

/-!
# The range operator of Perl

`$min..$max` counts integers, unless both are texts and the first one begins with a zero: then it is
incremented as a text, where a leading zero stays, until it is the second one or longer than it.

1. `magicInc_dec`: the increment of a numeral is the next numeral.
2. `perlRange_counts_iff`: the texts between which the range is the numerals of the integers.
-/

namespace LinboxRescue

/-- A text that is an integer of Perl. -/
structure IntText where
  sign : Bytes
  digits : Bytes
  sign_ok : sign = [] ∨ sign = [43] ∨ sign = [45]
  digits_ne : digits ≠ []
  digits_ok : ∀ b ∈ digits, isDigit b = true
  digits_lt : digitsVal digits < 2 ^ 63

namespace IntText

def text (t : IntText) : Bytes := t.sign ++ t.digits

def val (t : IntText) : ℤ := if t.sign = [45] then -digitsVal t.digits else digitsVal t.digits

end IntText

/-- The increment of a string of digits, the lowest one first. -/
def incDigits : Bytes → Bytes
  | [] => [49]
  | d :: ds => if d < 57 then (d + 1) :: ds else 48 :: incDigits ds

/-- The "magical" increment of a string of digits. -/
def magicInc (s : Bytes) : Bytes := (incDigits s.reverse).reverse

/-- The texts from `s` on. There are no more than fuel. -/
def magicFrom (max : Bytes) : ℕ → Bytes → List Bytes
  | 0, _ => []
  | fuel + 1, s =>
    if max.length < s.length then [] else if s = max then [s] else s :: magicFrom max fuel (magicInc s)

/-- The numerals of the integers between two. -/
def decInts (a b : ℤ) : List Bytes := (List.range (b + 1 - a).toNat).map fun k : ℕ => decInt (a + k)

/-- `$min..$max`, as texts. -/
def perlRange (min max : IntText) : List Bytes :=
  if min.text.head? = some 48 then magicFrom max.text (10 ^ max.text.length + 1) min.text
  else decInts min.val max.val

/-! ## Texts of integers -/

namespace IntText

variable {t : IntText}

/-- A text that begins with a digit has no sign. -/
theorem sign_eq_nil (h : ∀ b ∈ t.text.head?, isDigit b = true) : t.sign = [] := by
  rcases t.sign_ok with hsign | hsign | hsign
  · exact hsign
  · rw [text, hsign] at h
    exact absurd (h 43 rfl) (by decide)
  · rw [text, hsign] at h
    exact absurd (h 45 rfl) (by decide)

theorem text_of_sign (h : t.sign = []) : t.text = t.digits ∧ t.val = digitsVal t.digits := by
  refine ⟨by rw [text, h, List.nil_append], if_neg ?_⟩
  rw [h]
  exact (List.cons_ne_nil _ _).symm

end IntText

theorem digitsVal_lt {g : Bytes} (h : ∀ b ∈ g, isDigit b = true) : digitsVal g < 10 ^ g.length := by
  induction g using List.reverseRecOn with
  | nil => decide
  | append_singleton g b ih =>
    obtain ⟨hg, hb⟩ := List.forall_mem_append.mp h
    have := ih hg
    have := isDigit_val_lt (hb b (List.mem_singleton_self b))
    rw [digitsVal_snoc, List.length_append, List.length_singleton, pow_succ]
    omega

theorem decInt_eq_dec {i : ℤ} {n : ℕ} (h : decInt i = dec n) : i = n := by
  cases i with
  | ofNat m => exact congrArg Int.ofNat (dec_injective h)
  | negSucc m =>
    have hminus : (45 : UInt8) ∈ dec n := h ▸ List.mem_cons_self
    exact absurd rfl (dec_ne (show isDigit 45 = false by decide) 45 hminus)

theorem mem_decInts {a b : ℤ} {s : Bytes} :
    s ∈ decInts a b ↔ ∃ i : ℤ, (a ≤ i ∧ i ≤ b) ∧ s = decInt i := by
  unfold decInts
  rw [List.mem_map]
  constructor
  · rintro ⟨k, hk, rfl⟩
    have := List.mem_range.mp hk
    exact ⟨a + k, ⟨by omega, by omega⟩, rfl⟩
  · rintro ⟨i, ⟨h1, h2⟩, rfl⟩
    have hplace : a + ((i - a).toNat : ℕ) = i := by omega
    exact ⟨(i - a).toNat, List.mem_range.mpr (by omega), by rw [hplace]⟩

theorem decInt_bytes (i : ℤ) : ∀ b ∈ decInt i, isDigit b = true ∨ b = 45 := by
  intro b hb
  by_contra h
  rw [not_or, Bool.not_eq_true] at h
  exact decInt_ne h.1 h.2 b hb rfl

/-! ## The increment -/

theorem magicInc_snoc (s : Bytes) {d : ℕ} (hd : d < 10) : magicInc (s ++ [digit d]) =
    if d < 9 then s ++ [digit (d + 1)] else magicInc s ++ [48] := by
  have hlt : digit d < 57 ↔ d < 9 := by
    rw [UInt8.lt_iff_toNat_lt, digit_toNat hd]
    show 48 + d < 57 ↔ d < 9
    omega
  have hnext : d < 9 → digit d + 1 = digit (d + 1) := by
    intro h
    apply UInt8.toNat_inj.mp
    rw [UInt8.toNat_add, digit_toNat hd, digit_toNat (by omega)]
    show (48 + d + 1) % 256 = 48 + (d + 1)
    omega
  unfold magicInc
  rw [List.reverse_append, List.reverse_singleton, List.singleton_append, incDigits]
  by_cases h : d < 9
  · rw [if_pos (hlt.mpr h), if_pos h, List.reverse_cons, List.reverse_reverse, hnext h]
  · rw [if_neg (mt hlt.mp h), if_neg h, List.reverse_cons]

/-- **The increment of a numeral** is the next one. -/
theorem magicInc_dec (n : ℕ) : magicInc (dec n) = dec (n + 1) := by
  induction n using Nat.strong_induction_on with
  | _ n ih =>
    by_cases hn : n < 10
    · rw [dec_of_lt hn]
      have hone := magicInc_snoc [] hn
      rw [List.nil_append, List.nil_append] at hone
      rw [hone]
      by_cases h9 : n < 9
      · rw [if_pos h9, dec_of_lt (by omega)]
      · obtain rfl : n = 9 := by omega
        rfl
    · have hmod := Nat.mod_lt n (show 0 < 10 by omega)
      rw [dec_eq, if_neg hn, magicInc_snoc _ hmod]
      by_cases h9 : n % 10 < 9
      · rw [if_pos h9, ← dec_snoc (by omega) (by omega)]
        congr 1
        omega
      · rw [if_neg h9, ih (n / 10) (by omega), show (48 : UInt8) = digit 0 from rfl,
          ← dec_snoc (by omega) (by omega)]
        congr 1
        omega

theorem isDigit_magicInc {s : Bytes} (h : ∀ b ∈ s, isDigit b = true) :
    ∀ b ∈ magicInc s, isDigit b = true := by
  induction s using List.reverseRecOn with
  | nil => decide
  | append_singleton s c ih =>
    obtain ⟨hs, hc⟩ := List.forall_mem_append.mp h
    have hc := hc c (List.mem_singleton_self c)
    rw [← digit_of_isDigit hc, magicInc_snoc s (isDigit_val_lt hc)]
    split_ifs with h9
    · refine List.forall_mem_append.mpr ⟨hs, fun b hb => ?_⟩
      rw [List.mem_singleton.mp hb]
      exact isDigit_digit (by omega)
    · refine List.forall_mem_append.mpr ⟨ih hs, fun b hb => ?_⟩
      rw [List.mem_singleton.mp hb]
      decide

/-! ## Ranges of texts -/

theorem isDigit_of_mem_magicFrom {max : Bytes} {fuel : ℕ} : ∀ {s : Bytes}, (∀ b ∈ s, isDigit b = true) →
    ∀ t ∈ magicFrom max fuel s, ∀ b ∈ t, isDigit b = true := by
  induction fuel with
  | zero => exact fun _ t ht => absurd ht List.not_mem_nil
  | succ fuel ih =>
    intro s hs t ht
    rw [magicFrom] at ht
    split_ifs at ht
    · exact absurd ht List.not_mem_nil
    · rwa [List.mem_singleton.mp ht]
    · rcases List.mem_cons.mp ht with rfl | ht
      · exact hs
      · exact ih (isDigit_magicInc hs) t ht

theorem length_dec_mono {m n : ℕ} (h : m ≤ n) : (dec m).length ≤ (dec n).length := by
  have hpos := List.length_pos_of_ne_nil (dec_ne_nil n)
  refine length_dec_le hpos (h.trans_lt ?_)
  unfold dec at hpos ⊢
  rw [List.length_map] at hpos ⊢
  exact (Nat.length_toDigits_le_iff (by omega) hpos).mp le_rfl

/-- Up to a numeral. -/
theorem magicFrom_dec {m : ℕ} (fuel : ℕ) : ∀ {k : ℕ}, k ≤ m → m - k < fuel →
    magicFrom (dec m) fuel (dec k) = (List.range' k (m + 1 - k)).map dec := by
  induction fuel with
  | zero => exact fun _ h => absurd h (Nat.not_lt_zero _)
  | succ fuel ih =>
    intro k hk hfuel
    rw [magicFrom, if_neg (not_lt.mpr (length_dec_mono hk))]
    by_cases heq : dec k = dec m
    · obtain rfl := dec_injective heq
      rw [if_pos rfl, Nat.add_sub_cancel_left]
      rfl
    · have hlt : k < m := lt_of_le_of_ne hk fun h => heq (congrArg dec h)
      rw [if_neg heq, magicInc_dec, ih hlt (by omega), show m + 1 - k = m + 1 - (k + 1) + 1 by omega,
        List.range'_succ, List.map_cons]

/-- Up to a text that is no numeral, all of its length are counted. -/
theorem mem_magicFrom_dec {max : Bytes} (hmax : ∀ m, max ≠ dec m) {j : ℕ}
    (hj : (dec j).length ≤ max.length) (fuel : ℕ) : ∀ {k : ℕ}, k ≤ j → j - k < fuel →
      dec j ∈ magicFrom max fuel (dec k) := by
  induction fuel with
  | zero => exact fun _ h => absurd h (Nat.not_lt_zero _)
  | succ fuel ih =>
    intro k hk hfuel
    rw [magicFrom, if_neg (not_lt.mpr ((length_dec_mono hk).trans hj)), if_neg (hmax k).symm]
    rcases hk.eq_or_lt with rfl | hlt
    · exact List.mem_cons_self
    · rw [magicInc_dec]
      exact List.mem_cons_of_mem _ (ih hlt (by omega))

/-! ## The range -/

section Range

variable {min max : IntText}

/-- A first text that begins with a zero is a text of digits. -/
theorem digits_of_zero (h : min.text.head? = some 48) :
    min.text = min.digits ∧ min.val = digitsVal min.digits :=
  IntText.text_of_sign (IntText.sign_eq_nil fun b hb => by
    rw [h] at hb
    rw [← Option.some.inj hb]
    rfl)

/-- What is in a range is digits with a sign. -/
theorem perlRange_bytes {s : Bytes} (h : s ∈ perlRange min max) :
    ∀ b ∈ s, isDigit b = true ∨ b = 45 := by
  unfold perlRange at h
  split_ifs at h with hzero
  · refine fun b hb => .inl (isDigit_of_mem_magicFrom ?_ s h b hb)
    rw [(digits_of_zero hzero).1]
    exact min.digits_ok
  · obtain ⟨i, -, rfl⟩ := mem_decInts.mp h
    exact decInt_bytes i

/-- The texts between which `..` counts as between integers. -/
def CountsIntegers (min max : IntText) : Prop :=
  min.text.head? ≠ some 48 ∨ (min.text = [48] ∧ ∃ m : ℕ, max.text = dec m) ∨
    (max.text.length < min.text.length ∧ max.val < min.val)

theorem mem_perlRange (h : CountsIntegers min max) (s : Bytes) : s ∈ perlRange min max ↔
    ∃ i : ℤ, (min.val ≤ i ∧ i ≤ max.val) ∧ s = decInt i := by
  by_cases hzero : min.text.head? = some 48
  · have hrange : perlRange min max = magicFrom max.text (10 ^ max.text.length + 1) min.text :=
      if_pos hzero
    obtain ⟨hmin, hminval⟩ := digits_of_zero hzero
    rw [hrange]
    rcases h.resolve_left (not_not.mpr hzero) with ⟨hone, m, hm⟩ | ⟨hlen, hempty⟩
    · have hmaxval : max.val = m := by
        have hsign : max.sign = [] := IntText.sign_eq_nil fun b hb =>
          isDigit_of_mem_dec (n := m) b (hm ▸ List.mem_of_mem_head? hb)
        rw [(IntText.text_of_sign hsign).2, ← (IntText.text_of_sign hsign).1, hm, digitsVal_dec]
      have hfuel : m - 0 < 10 ^ max.text.length + 1 := by
        have := digitsVal_lt (isDigit_of_mem_dec (n := m))
        rw [digitsVal_dec] at this
        rw [hm]
        omega
      rw [hminval, ← hmin, hone, hmaxval, hm, show ([48] : Bytes) = dec 0 from rfl,
        magicFrom_dec _ (Nat.zero_le m) (hm ▸ hfuel), List.mem_map]
      constructor
      · rintro ⟨k, hk, rfl⟩
        have := List.mem_range'_1.mp hk
        exact ⟨k, ⟨by rw [digitsVal_dec]; omega, by omega⟩, rfl⟩
      · rintro ⟨i, ⟨h0, hi⟩, rfl⟩
        rw [digitsVal_dec] at h0
        obtain ⟨k, rfl⟩ := Int.eq_ofNat_of_zero_le (show 0 ≤ i from h0)
        exact ⟨k, List.mem_range'_1.mpr ⟨by omega, by omega⟩, rfl⟩
    · rw [magicFrom, if_pos hlen]
      exact iff_of_false List.not_mem_nil fun ⟨i, ⟨h1, h2⟩, _⟩ => by omega
  · rw [show perlRange min max = decInts min.val max.val from if_neg hzero]
    exact mem_decInts

/-- A text that is no numeral is longer than the numeral of its value. -/
theorem val_lt_of_not_dec (h : ∀ m, max.text ≠ dec m) :
    2 ≤ max.text.length ∧ max.val < (10 ^ (max.text.length - 1) : ℕ) := by
  obtain ⟨b, g, hbg⟩ := List.exists_cons_of_ne_nil max.digits_ne
  have hdig := max.digits_ok
  rw [hbg] at hdig
  have hlen : max.digits.length = g.length + 1 := by rw [hbg, List.length_cons]
  have hbound := digitsVal_lt max.digits_ok
  rcases max.sign_ok with hsign | hsign | hsign
  · obtain ⟨htext, hval⟩ := IntText.text_of_sign hsign
    have hb : b = 48 := by
      by_contra hne
      refine h (digitsVal max.digits) ?_
      rw [htext, hbg, dec_digitsVal hdig hne]
    have hg : g ≠ [] := by
      rintro rfl
      refine h 0 ?_
      rw [htext, hbg, hb]
      rfl
    have hsame : digitsVal max.digits = digitsVal g := by
      rw [hbg, hb]
      rfl
    have hrest := digitsVal_lt fun x hx => hdig x (List.mem_cons_of_mem _ hx)
    have hpos := List.length_pos_of_ne_nil hg
    rw [htext, hval, hsame, hlen, Nat.add_sub_cancel]
    exact ⟨by omega, by exact_mod_cast hrest⟩
  · have htext : max.text.length = max.digits.length + 1 := by rw [IntText.text, hsign]; rfl
    have hval : max.val = digitsVal max.digits := if_neg (by rw [hsign]; decide)
    rw [htext, hval, Nat.add_sub_cancel]
    exact ⟨by omega, by exact_mod_cast hbound⟩
  · have htext : max.text.length = max.digits.length + 1 := by rw [IntText.text, hsign]; rfl
    have hval : max.val = -digitsVal max.digits := if_pos hsign
    have hpos : 0 < 10 ^ max.digits.length := by positivity
    rw [htext, hval, Nat.add_sub_cancel]
    exact ⟨by omega, by omega⟩

/-- **`..` counts as between integers** exactly when the first text does not begin with a zero, or is
zero and the second one a numeral, or no text comes and no integer is there. -/
theorem perlRange_counts_iff : (∀ s, s ∈ perlRange min max ↔
    ∃ i : ℤ, (min.val ≤ i ∧ i ≤ max.val) ∧ s = decInt i) ↔ CountsIntegers min max := by
  refine ⟨fun h => ?_, mem_perlRange⟩
  by_cases hzero : min.text.head? = some 48
  · have hrange : perlRange min max = magicFrom max.text (10 ^ max.text.length + 1) min.text :=
      if_pos hzero
    obtain ⟨hmin, hminval⟩ := digits_of_zero hzero
    right
    by_cases hlen : max.text.length < min.text.length
    · refine .inr ⟨hlen, not_le.mp fun hle => ?_⟩
      have hmem := (h _).mpr ⟨min.val, ⟨le_rfl, hle⟩, rfl⟩
      rw [hrange, magicFrom, if_pos hlen] at hmem
      exact List.not_mem_nil hmem
    · have hfirst : min.text ∈ perlRange min max := by
        rw [hrange, magicFrom, if_neg hlen]
        split_ifs with heq
        · exact List.mem_singleton.mpr rfl
        · exact List.mem_cons_self
      -- the first text is a numeral that begins with a zero
      have hone : min.text = dec 0 := by
        obtain ⟨i, ⟨hi, -⟩, heq⟩ := (h _).mp hfirst
        obtain ⟨n, rfl⟩ := Int.eq_ofNat_of_zero_le (show 0 ≤ i by omega)
        have heq : min.text = dec n := heq
        rcases Nat.eq_zero_or_pos n with rfl | hpos
        · exact heq
        · exact absurd (heq ▸ hzero) (dec_head_ne_zero hpos)
      refine .inl ⟨hone, not_forall_not.mp fun hno => ?_⟩
      obtain ⟨htwo, hval⟩ := val_lt_of_not_dec hno
      have hpow : 10 ^ (max.text.length - 1) < 10 ^ max.text.length :=
        Nat.pow_lt_pow_right (by omega) (by omega)
      have hmem : dec (10 ^ (max.text.length - 1)) ∈ perlRange min max := by
        rw [hrange, hone]
        exact mem_magicFrom_dec hno (length_dec_le (by omega) hpow) _ (Nat.zero_le _)
          (Nat.lt_succ_of_lt hpow)
      obtain ⟨i, ⟨-, hi⟩, heq⟩ := (h _).mp hmem
      rw [decInt_eq_dec heq.symm] at hi
      omega
  · exact .inl hzero

end Range

end LinboxRescue
