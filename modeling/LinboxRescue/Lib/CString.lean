import LinboxRescue.Lib.Scanf
import Mathlib.Data.List.GetD
import Mathlib.Data.List.TakeWhile

/-!
# More of the C library

Bytes of an area, `strrchr`, comparisons without case, the conversions of `sscanf` that have a width
or store an `int`, and what can be used as a format.
-/

namespace LinboxRescue

/-- A byte of an area. -/
def byteAt (mem : Bytes) (i : ℕ) : UInt8 := mem.getD i 0

/-- `strrchr`: what is before and after the last occurrence of `c`. -/
def strrchr (s : Bytes) (c : UInt8) : Option (Bytes × Bytes) :=
  match s with
  | [] => none
  | b :: t =>
    match strrchr t c with
    | some (u, v) => some (b :: u, v)
    | none => if b = c then some ([], t) else none

/-- `tolower` in the C locale. -/
def toLower (b : UInt8) : UInt8 := if 65 ≤ b.toNat ∧ b.toNat ≤ 90 then b + 32 else b

/-- `strncasecmp(s, t, n) == 0`. -/
def strncaseeq (n : ℕ) (s t : Bytes) : Bool := (s.take n).map toLower == (t.take n).map toLower

/-- `%ns`: a word of at most `n` bytes, and the rest. -/
def scanWord (n : ℕ) (t : Bytes) : Option (Bytes × Bytes) :=
  let w := ((skipSpace t).takeWhile fun b => !isSpace b).take n
  if w = [] then none else some (w, (skipSpace t).drop w.length)

/-- A text that has to be there. -/
def scanText (s : Bytes) (t : Bytes) : Option Bytes :=
  if s.isPrefixOf t then some (t.drop s.length) else none

/-- The `int` that `%d` stores: values out of range end at the last one in range. -/
def clampInt (n : ℤ) : ℤ := max (-2 ^ 31) (min n (2 ^ 31 - 1))

/-- The `int` with the same low 32 bits. -/
def wrapInt (n : ℤ) : ℤ := (n + 2 ^ 31) % 2 ^ 32 - 2 ^ 31

/-- `%d`. -/
def scanInt (t : Bytes) : Option (ℤ × Bytes) :=
  match scanConv .d t with
  | some (.int n, t) => some (clampInt n, t)
  | _ => none

/-- A printed text can be used as a format without arguments: `%%` and `%m` need none. -/
def formatSafe : Bytes → Bool
  | [] => true
  | [37] => false
  | 37 :: b :: t => (b == 37 || b == 109) && formatSafe t
  | _ :: t => formatSafe t

/-- What a text prints as a format that converts nothing: `%%` is a per cent sign. -/
def plainFormat : Bytes → Option Bytes
  | [] => some []
  | 37 :: 37 :: t => (plainFormat t).map (37 :: ·)
  | 37 :: _ => none
  | b :: t => (plainFormat t).map (b :: ·)

/-! ## C strings -/

theorem plainFormat_eq_self {s : Bytes} (h : ∀ b ∈ s, b ≠ 37) : plainFormat s = some s := by
  induction s with
  | nil => rfl
  | cons b t ih =>
    obtain ⟨hb, ht⟩ := List.forall_mem_cons.mp h
    have hcons : plainFormat (b :: t) = (plainFormat t).map (b :: ·) := by
      rw [plainFormat]
      · exact fun _ hc _ => hb hc
      · exact fun hc => hb hc
    rw [hcons, ih ht]
    rfl

theorem cstr_append_of_zero {s t : Bytes} (h : 0 ∈ s) : cstr (s ++ t) = cstr s := by
  unfold cstr
  obtain ⟨u, v, rfl, hu⟩ := List.eq_append_cons_of_mem h
  have hu' : ∀ b ∈ u, decide (b ≠ 0) = true := fun b hb => by
    have : b ≠ 0 := fun e => hu (e ▸ hb)
    simpa using this
  rw [List.append_assoc, List.takeWhile_append_of_pos hu', List.takeWhile_append_of_pos hu']
  simp

theorem cstr_eq_self {s : Bytes} (h : ∀ b ∈ s, b ≠ 0) : cstr s = s :=
  List.takeWhile_eq_self_iff.mpr fun b hb => by simpa using h b hb

/-- A NUL ends the string. -/
theorem cstr_append_cons_zero (s t : Bytes) : cstr (s ++ 0 :: t) = cstr s := by
  induction s with
  | nil => rfl
  | cons b s ih =>
    unfold cstr at *
    rw [List.cons_append, List.takeWhile_cons, List.takeWhile_cons, ih]

theorem byteAt_append_left {s : Bytes} {i : ℕ} (h : i < s.length) (t : Bytes) :
    byteAt (s ++ t) i = byteAt s i := by
  unfold byteAt
  rw [List.getD_eq_getElem?_getD, List.getElem?_append_left h, ← List.getD_eq_getElem?_getD]

theorem byteAt_append_right (s t : Bytes) (i : ℕ) : byteAt (s ++ t) (s.length + i) = byteAt t i := by
  unfold byteAt
  rw [List.getD_append_right _ _ _ _ (Nat.le_add_right _ _), Nat.add_sub_cancel_left]

theorem cstr_ne_zero {s : Bytes} : ∀ b ∈ cstr s, b ≠ 0 := fun b hb => by
  simpa using List.mem_takeWhile_imp hb

/-- An area starts with its C string, which is followed by a NUL or the end. -/
theorem byteAt_ne_zero {s : Bytes} {i : ℕ} (h : i < (cstr s).length) : byteAt s i ∈ cstr s := by
  have hs : byteAt (cstr s ++ s.dropWhile (· ≠ 0)) i = byteAt (cstr s) i := byteAt_append_left h _
  rw [show cstr s ++ s.dropWhile (· ≠ 0) = s from List.takeWhile_append_dropWhile] at hs
  rw [hs]
  unfold byteAt
  rw [List.getD_eq_getElem _ _ h]
  exact List.getElem_mem h

/-- What holds of all bytes of a C string, by their places. -/
theorem forall_cstr_iff {s : Bytes} {p : UInt8 → Prop} :
    (∀ b ∈ cstr s, p b) ↔ ∀ i < (cstr s).length, p (byteAt s i) := by
  constructor
  · intro h i hi
    exact h _ (byteAt_ne_zero hi)
  · intro h b hb
    obtain ⟨i, hi, rfl⟩ := List.getElem_of_mem hb
    have hs : byteAt (cstr s ++ s.dropWhile (· ≠ 0)) i = byteAt (cstr s) i := byteAt_append_left hi _
    rw [show cstr s ++ s.dropWhile (· ≠ 0) = s from List.takeWhile_append_dropWhile] at hs
    have := h i hi
    rw [hs] at this
    unfold byteAt at this
    rwa [List.getD_eq_getElem _ _ hi] at this

/-- A string picked from an area that is zero from some place on. -/
theorem cstr_pick {f : ℕ → UInt8} {n : ℕ} (hf : ∀ i, f i ≠ 0 ↔ i < n) {is : List ℕ}
    (his : is.Pairwise (· < ·)) : cstr (is.map f) = (is.filter (· < n)).map f := by
  induction is with
  | nil => rfl
  | cons i is ih =>
    obtain ⟨hi, his⟩ := List.pairwise_cons.mp his
    unfold cstr at *
    rw [List.map_cons, List.takeWhile_cons, List.filter_cons]
    by_cases h : i < n
    · have := (hf i).mpr h
      simp only [ne_eq, this, not_false_eq_true, decide_true, h, if_true, List.map_cons]
      rw [← ih his]
    · have h0 : f i = 0 := by
        by_contra h0
        exact h ((hf i).mp h0)
      have hnil : is.filter (· < n) = [] := by
        rw [List.filter_eq_nil_iff]
        intro j hj
        have := hi j hj
        simp
        omega
      simp [h0, h, hnil]

/-! ## `strrchr` -/

theorem strrchr_eq_none {s : Bytes} {c : UInt8} : strrchr s c = none ↔ c ∉ s := by
  induction s with
  | nil => simp [strrchr]
  | cons b t ih =>
    rw [strrchr, List.mem_cons, not_or, ← ih]
    cases strrchr t c with
    | some p => simp
    | none => simp [eq_comm]

/-- What `strrchr` finds. -/
theorem strrchr_eq_some {s : Bytes} {c : UInt8} {u v : Bytes} :
    strrchr s c = some (u, v) ↔ s = u ++ c :: v ∧ c ∉ v := by
  induction s generalizing u with
  | nil => simp [strrchr]
  | cons b t ih =>
    rw [strrchr]
    cases u with
    | nil =>
      cases ht : strrchr t c with
      | some p =>
        have hc : c ∈ t := by
          by_contra hc
          rw [strrchr_eq_none.mpr hc] at ht
          cases ht
        simp only [Option.some.injEq, Prod.mk.injEq, reduceCtorEq, false_and, List.nil_append,
          List.cons.injEq, false_iff, not_and, not_not]
        rintro ⟨-, rfl⟩
        exact hc
      | none =>
        have hc := strrchr_eq_none.mp ht
        constructor
        · intro h
          dsimp only at h
          split_ifs at h with hb
          obtain ⟨-, rfl⟩ := Prod.mk.inj (Option.some.inj h)
          exact ⟨by rw [hb]; rfl, hc⟩
        · rintro ⟨h, -⟩
          obtain ⟨rfl, rfl⟩ := List.cons.inj h
          exact if_pos rfl
    | cons a u =>
      rw [List.cons_append, List.cons.injEq, and_assoc, ← ih]
      cases strrchr t c with
      | some p => simp [and_assoc, Prod.ext_iff]
      | none => simp

/-! ## Conversions -/

/-- A word that is not too long, after blanks. -/
theorem scanWord_word {n k : ℕ} {w r : Bytes} (hw : ∀ b ∈ w, isSpace b = false) (hne : w ≠ [])
    (hn : w.length ≤ n) (hr : ∀ b ∈ r.head?, isSpace b = true) :
    scanWord n (blanks k ++ (w ++ r)) = some (w, r) := by
  have hw' : ∀ b ∈ w, (!isSpace b) = true := fun b hb => by simp [hw b hb]
  have hr' : ∀ b ∈ r.head?, (!isSpace b) = false := fun b hb => by simp [hr b hb]
  have hs : skipSpace (blanks k ++ (w ++ r)) = w ++ r := by
    rw [skipSpace_blanks]
    obtain ⟨b, g, rfl⟩ := List.exists_cons_of_ne_nil hne
    exact skipSpace_of_head (hw b (by simp))
  unfold scanWord
  rw [hs, takeWhile_append_stop hw' hr', List.take_of_length_le hn]
  simp only [if_neg hne, List.drop_left]

theorem length_scanWord {n : ℕ} {t w r : Bytes} (h : scanWord n t = some (w, r)) : w.length ≤ n := by
  unfold scanWord at h
  dsimp only at h
  split_ifs at h
  obtain ⟨rfl, -⟩ := Prod.mk.inj (Option.some.inj h)
  rw [List.length_take]
  exact Nat.min_le_left _ _

theorem wrapInt_range (n : ℤ) : -2 ^ 31 ≤ wrapInt n ∧ wrapInt n < 2 ^ 31 := by
  unfold wrapInt
  omega

theorem wrapInt_of_range {n : ℤ} (h1 : -2 ^ 31 ≤ n) (h2 : n < 2 ^ 31) : wrapInt n = n := by
  unfold wrapInt
  omega

theorem length_decInt {n : ℤ} (h1 : -2 ^ 31 ≤ n) (h2 : n < 2 ^ 31) : (decInt n).length ≤ 11 := by
  cases n with
  | ofNat n =>
    have := @length_dec_le n 10 (by omega) (by simp at h2; omega)
    exact le_trans this (by omega)
  | negSucc n =>
    have := @length_dec_le (n + 1) 10 (by omega) (by omega)
    show (dec (n + 1)).length + 1 ≤ 11
    omega

end LinboxRescue
