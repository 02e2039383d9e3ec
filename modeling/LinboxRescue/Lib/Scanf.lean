import LinboxRescue.Lib.Decimal

/-!
# `sscanf`

Formats are given as in C (`fmt`): blanks skip white space, `%d`, `%u` and `%s` convert, a star
after `%` converts without storing, anything else has to match. `sscanf` returns the values stored
before the first failure, so that C's return value is the length of the list.

`%u` accepts a sign and stores modulo `2 ^ 32`; `%d` keeps the value that was written, C giving no
meaning to numbers that do not fit an `int`.

The lemmas step over one directive each: literals (`sscanf_lits`), blanks (`sscanf_white_conv`), numbers
printed by `dec` (`scanConv_u_dec`) and words (`scanConv_s_word`).
-/

namespace LinboxRescue

/-- `isspace` in the C locale. -/
def isSpace (b : UInt8) : Bool := b == 32 || (9 ≤ b.toNat && b.toNat ≤ 13)

inductive Conv
  | d | u | s
  deriving DecidableEq, Repr

inductive Directive
  | white
  | lit (b : UInt8)
  | conv (c : Conv) (store : Bool)
  deriving DecidableEq, Repr

/-- The directives of a format. -/
def fmtChars : List Char → List Directive
  | [] => []
  | '%' :: '*' :: 'd' :: cs => .conv .d false :: fmtChars cs
  | '%' :: '*' :: 'u' :: cs => .conv .u false :: fmtChars cs
  | '%' :: '*' :: 's' :: cs => .conv .s false :: fmtChars cs
  | '%' :: 'd' :: cs => .conv .d true :: fmtChars cs
  | '%' :: 'u' :: cs => .conv .u true :: fmtChars cs
  | '%' :: 's' :: cs => .conv .s true :: fmtChars cs
  | c :: cs =>
    (if isSpace (UInt8.ofNat c.toNat) then .white else .lit (UInt8.ofNat c.toNat)) :: fmtChars cs

def fmt (s : String) : List Directive := fmtChars s.toList

/-- A stored value. -/
inductive Arg
  | int (n : ℤ)
  | str (s : Bytes)
  deriving DecidableEq, Repr

/-- Skip white space. -/
def skipSpace (t : Bytes) : Bytes := t.dropWhile isSpace

/-- The value of `%d`. -/
def strtol (negative : Bool) (v : ℕ) : ℤ := if negative then -v else v

/-- The value of `%u`: a minus sign negates in the type. -/
def strtoul (negative : Bool) (v : ℕ) : ℤ := strtol negative v % 2 ^ 32

/-- An optional sign. -/
def scanSign : Bytes → Bool × Bytes
  | 45 :: t => (true, t)
  | 43 :: t => (false, t)
  | t => (false, t)

/-- A number after white space. -/
def scanNumber (conv : Bool → ℕ → ℤ) (t : Bytes) : Option (Arg × Bytes) :=
  let (negative, t) := scanSign (skipSpace t)
  let ds := t.takeWhile isDigit
  if ds = [] then none else some (.int (conv negative (digitsVal ds)), t.dropWhile isDigit)

/-- A conversion: the value and the rest of the text. -/
def scanConv : Conv → Bytes → Option (Arg × Bytes)
  | .d, t => scanNumber strtol t
  | .u, t => scanNumber strtoul t
  | .s, t =>
    let w := (skipSpace t).takeWhile fun b => !isSpace b
    if w = [] then none else some (.str w, (skipSpace t).dropWhile fun b => !isSpace b)

/-- The values stored before the first failure. -/
def sscanf : List Directive → Bytes → List Arg
  | [], _ => []
  | .white :: ds, t => sscanf ds (skipSpace t)
  | .lit b :: ds, c :: t => if c = b then sscanf ds t else []
  | .lit _ :: _, [] => []
  | .conv c store :: ds, t =>
    match scanConv c t with
    | none => []
    | some (v, t) => if store then v :: sscanf ds t else sscanf ds t

/-! ## Stepping over one directive -/

/-- The directives that match a text without blanks or conversions. -/
def lits (bs : Bytes) : List Directive := bs.map .lit

theorem sscanf_lits (bs : Bytes) (ds : List Directive) (t : Bytes) :
    sscanf (lits bs ++ ds) (bs ++ t) = sscanf ds t := by
  induction bs with
  | nil => rfl
  | cons b bs ih => simpa [lits, sscanf] using ih

theorem skipSpace_of_head {b : UInt8} {t : Bytes} (h : isSpace b = false) :
    skipSpace (b :: t) = b :: t := by
  simp [skipSpace, h]

theorem skipSpace_cons {b : UInt8} {t : Bytes} (h : isSpace b = true) :
    skipSpace (b :: t) = skipSpace t := by
  simp [skipSpace, h]

theorem isSpace_of_isDigit {b : UInt8} (h : isDigit b = true) : isSpace b = false := by
  simp only [isDigit, Bool.and_eq_true, decide_eq_true_eq] at h
  have hb : b ≠ 32 := by rintro rfl; simp at h
  simp only [isSpace, Bool.or_eq_false_iff, beq_eq_false_iff_ne, ne_eq, hb, not_false_eq_true,
    Bool.and_eq_false_iff, decide_eq_false_iff_not, true_and]
  omega

theorem takeWhile_append_stop {p : UInt8 → Bool} {w r : Bytes} (hw : ∀ b ∈ w, p b = true)
    (hr : ∀ b ∈ r.head?, p b = false) : (w ++ r).takeWhile p = w := by
  rw [List.takeWhile_append_of_pos hw]
  cases r with
  | nil => simp
  | cons b r => simp [hr b (by simp)]

theorem dropWhile_append_stop {p : UInt8 → Bool} {w r : Bytes} (hw : ∀ b ∈ w, p b = true)
    (hr : ∀ b ∈ r.head?, p b = false) : (w ++ r).dropWhile p = r := by
  rw [List.dropWhile_append_of_pos hw]
  cases r with
  | nil => rfl
  | cons b r => simp [hr b (by simp)]

theorem skipSpace_dec (n : ℕ) (r : Bytes) : skipSpace (dec n ++ r) = dec n ++ r := by
  obtain ⟨b, g, hg⟩ := List.exists_cons_of_ne_nil (dec_ne_nil n)
  have hb : isDigit b = true := isDigit_of_mem_dec b (by rw [hg]; simp)
  rw [hg]
  exact skipSpace_of_head (isSpace_of_isDigit hb)

theorem scanSign_dec (n : ℕ) (r : Bytes) : scanSign (dec n ++ r) = (false, dec n ++ r) := by
  obtain ⟨b, g, hg⟩ := List.exists_cons_of_ne_nil (dec_ne_nil n)
  have hb : isDigit b = true := isDigit_of_mem_dec b (by rw [hg]; simp)
  rw [hg, List.cons_append]
  unfold scanSign
  split
  · rename_i h; rw [(List.cons.inj h).1] at hb; exact absurd hb (by decide)
  · rename_i h; rw [(List.cons.inj h).1] at hb; exact absurd hb (by decide)
  · rfl

theorem scanNumber_dec (conv : Bool → ℕ → ℤ) (n : ℕ) {r : Bytes}
    (hr : ∀ b ∈ r.head?, isDigit b = false) :
    scanNumber conv (dec n ++ r) = some (.int (conv false n), r) := by
  unfold scanNumber
  rw [skipSpace_dec, scanSign_dec]
  simp only [takeWhile_append_stop isDigit_of_mem_dec hr, dropWhile_append_stop isDigit_of_mem_dec hr,
    if_neg (dec_ne_nil n), digitsVal_dec]

theorem scanNumber_neg_dec (conv : Bool → ℕ → ℤ) (n : ℕ) {r : Bytes}
    (hr : ∀ b ∈ r.head?, isDigit b = false) :
    scanNumber conv (45 :: dec n ++ r) = some (.int (conv true n), r) := by
  unfold scanNumber
  rw [List.cons_append, skipSpace_of_head (by decide)]
  simp only [scanSign, takeWhile_append_stop isDigit_of_mem_dec hr,
    dropWhile_append_stop isDigit_of_mem_dec hr, if_neg (dec_ne_nil n), digitsVal_dec]

theorem scanConv_u_dec {n : ℕ} (hn : n < 2 ^ 32) {r : Bytes}
    (hr : ∀ b ∈ r.head?, isDigit b = false) : scanConv .u (dec n ++ r) = some (.int n, r) := by
  have hv : strtoul false n = n := by
    show (n : ℤ) % 2 ^ 32 = n
    omega
  rw [scanConv, scanNumber_dec strtoul n hr, hv]

theorem scanConv_d_dec (n : ℕ) {r : Bytes} (hr : ∀ b ∈ r.head?, isDigit b = false) :
    scanConv .d (dec n ++ r) = some (.int n, r) := by
  rw [scanConv, scanNumber_dec strtol n hr]
  rfl

/-- A word followed by white space or the end. -/
theorem scanConv_s_word {w r : Bytes} (hw : ∀ b ∈ w, isSpace b = false) (hne : w ≠ [])
    (hr : ∀ b ∈ r.head?, isSpace b = true) : scanConv .s (w ++ r) = some (.str w, r) := by
  obtain ⟨b, g, rfl⟩ := List.exists_cons_of_ne_nil hne
  have hw' : ∀ x ∈ b :: g, (!isSpace x) = true := fun x hx => by simp [hw x hx]
  have hr' : ∀ x ∈ r.head?, (!isSpace x) = false := fun x hx => by simp [hr x hx]
  have hs : skipSpace (b :: g ++ r) = b :: g ++ r := skipSpace_of_head (hw b (by simp))
  simp only [scanConv, hs, takeWhile_append_stop hw' hr', dropWhile_append_stop hw' hr', if_neg hne]

/-! ## Blanks -/

/-- `k` blanks. -/
def blanks (k : ℕ) : Bytes := List.replicate k 32

theorem skipSpace_blanks (k : ℕ) (t : Bytes) : skipSpace (blanks k ++ t) = skipSpace t := by
  induction k with
  | zero => rfl
  | succ k ih => exact (skipSpace_cons (by decide)).trans ih

theorem skipSpace_idem (t : Bytes) : skipSpace (skipSpace t) = skipSpace t := by
  induction t with
  | nil => rfl
  | cons b t ih =>
    cases h : isSpace b with
    | true => rw [skipSpace_cons h, ih]
    | false => rw [skipSpace_of_head h, skipSpace_of_head h]

/-- A conversion skips white space by itself. -/
theorem scanConv_skipSpace (c : Conv) (t : Bytes) : scanConv c (skipSpace t) = scanConv c t := by
  cases c <;> simp only [scanConv, scanNumber, skipSpace_idem]

theorem sscanf_white_conv (c : Conv) (store : Bool) (ds : List Directive) (t : Bytes) :
    sscanf (.white :: .conv c store :: ds) t = sscanf (.conv c store :: ds) t := by
  rw [sscanf, sscanf, sscanf, scanConv_skipSpace]

theorem scanConv_blanks (c : Conv) (k : ℕ) (t : Bytes) : scanConv c (blanks k ++ t) = scanConv c t := by
  rw [← scanConv_skipSpace, skipSpace_blanks, scanConv_skipSpace]

/-- A conversion that succeeds. -/
theorem sscanf_conv {c : Conv} {store : Bool} {t r : Bytes} {v : Arg} (ds : List Directive)
    (h : scanConv c t = some (v, r)) :
    sscanf (.conv c store :: ds) t = if store then v :: sscanf ds r else sscanf ds r := by
  rw [sscanf, h]

/-- The rest of a text after a number, when a blank follows. -/
theorem head_blanks {k : ℕ} (hk : 0 < k) (t : Bytes) :
    ∀ b ∈ (blanks k ++ t).head?, isDigit b = false := by
  obtain ⟨j, rfl⟩ : ∃ j, k = j + 1 := ⟨k - 1, by omega⟩
  intro b hb
  obtain rfl : 32 = b := by simpa [blanks, List.replicate_succ] using hb
  rfl

end LinboxRescue
