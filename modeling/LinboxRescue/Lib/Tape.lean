import LinboxRescue.Lib.Bits

/-!
# Tapes driven by a bitmap

A head moves over a tape by relative moves. Unset bits move it one cell on, set bits read or write
the cell under it and move on; an access that fails leaves the head where it was, so that every
later access lands that many cells too early.

* `gather` reads: it lists the outcomes of the accesses.
* `flush` writes a list of values to the cells of the next set bits and returns the bits not used
  yet; it is `none` when the bits run out before the values.
* `scatter` writes all values and then skips the rest of the bits.

Without failures `gather` lists the cells at the set bits (`gather_of_ok`) and `scatter` changes
exactly these cells (`scatter_cells_of_ok`, `scatter_cells_of_not_mem`). With failures the head
only ever falls behind (`gatherEnd_le`, `scatter_pos_le`).
-/

namespace LinboxRescue

variable {α : Type*}

/-! ## Reading -/

/-- The outcomes of the reads at the set bits, the head starting at `p`. -/
def gather (read : ℕ → Option α) (p : ℕ) : List Bool → List (Option α)
  | [] => []
  | false :: bs => gather read (p + 1) bs
  | true :: bs =>
    match read p with
    | some x => some x :: gather read (p + 1) bs
    | none => none :: gather read p bs

/-- Where the head stands after `gather`. -/
def gatherEnd (read : ℕ → Option α) (p : ℕ) : List Bool → ℕ
  | [] => p
  | false :: bs => gatherEnd read (p + 1) bs
  | true :: bs =>
    match read p with
    | some _ => gatherEnd read (p + 1) bs
    | none => gatherEnd read p bs

variable {read : ℕ → Option α}

theorem gather_append (p : ℕ) (as bs : List Bool) :
    gather read p (as ++ bs) = gather read p as ++ gather read (gatherEnd read p as) bs := by
  induction as generalizing p with
  | nil => rfl
  | cons a as ih =>
    cases a
    · exact ih (p + 1)
    · cases h : read p <;> simp [gather, gatherEnd, h, ih]

theorem length_gather (p : ℕ) (bs : List Bool) : (gather read p bs).length = bs.count true := by
  induction bs generalizing p with
  | nil => rfl
  | cons b bs ih =>
    cases b
    · simpa [gather] using ih (p + 1)
    · cases h : read p <;> simp [gather, h, ih]

theorem gatherEnd_le (p : ℕ) (bs : List Bool) : gatherEnd read p bs ≤ p + bs.length := by
  induction bs generalizing p with
  | nil => simp [gatherEnd]
  | cons b bs ih =>
    have h1 := ih (p + 1)
    have h0 := ih p
    cases b
    · simp only [gatherEnd, List.length_cons]; omega
    · cases h : read p <;> simp only [gatherEnd, h, List.length_cons] <;> omega

/-- Without failed reads the outcomes are the cells at the set bits. -/
theorem gather_of_ok {p : ℕ} {bs : List Bool} {f : ℕ → α} (h : ∀ q ∈ ones p bs, read q = some (f q)) :
    gather read p bs = (ones p bs).map fun q => some (f q) := by
  induction bs generalizing p with
  | nil => rfl
  | cons b bs ih =>
    cases b
    · exact ih h
    · rw [ones_true, List.forall_mem_cons] at h
      simp only [gather, h.1, ones_true, List.map_cons, ih h.2]

/-- Every outcome is that of a read before the end of the bits. -/
theorem exists_of_mem_gather {p : ℕ} {bs : List Bool} {r : Option α} (h : r ∈ gather read p bs) :
    ∃ q < p + bs.length, r = read q := by
  induction bs generalizing p with
  | nil => cases h
  | cons b bs ih =>
    have hrest : ∀ p' ≤ p + 1, r ∈ gather read p' bs → ∃ q < p + (bs.length + 1), r = read q := by
      intro p' hp' hr
      obtain ⟨q, hq, e⟩ := ih hr
      exact ⟨q, by omega, e⟩
    rw [List.length_cons]
    cases b
    · exact hrest (p + 1) le_rfl h
    · cases hp : read p with
      | some x =>
        simp only [gather, hp, List.mem_cons] at h
        rcases h with rfl | h
        · exact ⟨p, by omega, hp.symm⟩
        · exact hrest (p + 1) le_rfl h
      | none =>
        simp only [gather, hp, List.mem_cons] at h
        rcases h with rfl | h
        · exact ⟨p, by omega, hp.symm⟩
        · exact hrest p (by omega) h

/-- A head that has not fallen behind has read everything. -/
theorem isSome_of_gatherEnd_eq {p : ℕ} {bs : List Bool} (h : gatherEnd read p bs = p + bs.length) :
    ∀ q ∈ ones p bs, (read q).isSome = true := by
  induction bs generalizing p with
  | nil => simp
  | cons b bs ih =>
    rw [List.length_cons] at h
    cases b
    · exact ih (by rw [gatherEnd] at h; omega)
    · rw [ones_true, List.forall_mem_cons]
      cases hp : read p with
      | some x =>
        simp only [gatherEnd, hp] at h
        exact ⟨rfl, ih (by omega)⟩
      | none =>
        simp only [gatherEnd, hp] at h
        have := @gatherEnd_le _ read p bs
        omega

/-! ## Writing -/

/-- A tape and its head. -/
structure Tape (α : Type*) where
  pos : ℕ
  cells : ℕ → α

/-- Move the head `n` cells on. -/
def Tape.skip (t : Tape α) (n : ℕ) : Tape α := { t with pos := t.pos + n }

/-- Write under the head and move on; at a bad cell nothing happens. -/
def Tape.put (bad : ℕ → Bool) (t : Tape α) (x : α) : Tape α :=
  if bad t.pos then t else { pos := t.pos + 1, cells := Function.update t.cells t.pos x }

@[simp] theorem Tape.skip_pos (t : Tape α) (n : ℕ) : (t.skip n).pos = t.pos + n := rfl
@[simp] theorem Tape.skip_cells (t : Tape α) (n : ℕ) : (t.skip n).cells = t.cells := rfl
@[simp] theorem Tape.skip_skip (t : Tape α) (m n : ℕ) : (t.skip m).skip n = t.skip (m + n) := by
  simp [Tape.skip, Nat.add_assoc]
@[simp] theorem Tape.skip_zero (t : Tape α) : t.skip 0 = t := rfl

theorem Tape.put_of_bad {bad : ℕ → Bool} {t : Tape α} (h : bad t.pos = true) (x : α) :
    t.put bad x = t := by
  rw [Tape.put, if_pos h]

theorem Tape.put_of_not_bad {bad : ℕ → Bool} {t : Tape α} (h : bad t.pos = false) (x : α) :
    t.put bad x = { pos := t.pos + 1, cells := Function.update t.cells t.pos x } := by
  rw [Tape.put, if_neg (by simp [h])]

variable {bad : ℕ → Bool}

/-- Write `xs` at the next set bits. -/
def flush (bad : ℕ → Bool) : List Bool → List α → Tape α → Option (List Bool × Tape α)
  | bs, [], t => some (bs, t)
  | [], _ :: _, _ => none
  | false :: bs, x :: xs, t => flush bad bs (x :: xs) (t.skip 1)
  | true :: bs, x :: xs, t => flush bad bs xs (t.put bad x)

/-- Write `xs` at the set bits and move past all bits. -/
def scatter (bad : ℕ → Bool) : List Bool → List α → Tape α → Tape α
  | [], _, t => t
  | false :: bs, xs, t => scatter bad bs xs (t.skip 1)
  | true :: bs, [], t => scatter bad bs [] (t.skip 1)
  | true :: bs, x :: xs, t => scatter bad bs xs (t.put bad x)

@[simp] theorem flush_nil (bs : List Bool) (t : Tape α) : flush bad bs [] t = some (bs, t) := by
  cases bs <;> rfl

theorem scatter_nil (bs : List Bool) (t : Tape α) : scatter bad bs [] t = t.skip bs.length := by
  induction bs generalizing t with
  | nil => rfl
  | cons b bs ih => cases b <;> simp [scatter, ih, Nat.add_comm]

/-- Writing in two goes. -/
theorem flush_append (bs : List Bool) (xs ys : List α) (t : Tape α) :
    flush bad bs (xs ++ ys) t = (flush bad bs xs t).bind fun r => flush bad r.1 ys r.2 := by
  induction bs generalizing xs t with
  | nil => cases xs <;> simp [flush]
  | cons b bs ih =>
    cases xs with
    | nil => simp
    | cons x xs =>
      cases b
      · exact ih (x :: xs) (t.skip 1)
      · exact ih xs (t.put bad x)

theorem flush_eq_some {bs : List Bool} {xs : List α} (h : xs.length ≤ bs.count true) (t : Tape α) :
    ∃ bs' t', flush bad bs xs t = some (bs', t') := by
  induction bs generalizing xs t with
  | nil =>
    rw [List.count_nil, Nat.le_zero, List.length_eq_zero_iff] at h
    exact ⟨[], t, by rw [h, flush_nil]⟩
  | cons b bs ih =>
    cases xs with
    | nil => exact ⟨b :: bs, t, flush_nil _ _⟩
    | cons x xs =>
      cases b
      · exact ih (by simpa using h) _
      · exact ih (by simpa using h) _

theorem flush_eq_none {bs : List Bool} {xs : List α} (h : bs.count true < xs.length) (t : Tape α) :
    flush bad bs xs t = none := by
  induction bs generalizing xs t with
  | nil =>
    obtain ⟨x, xs, rfl⟩ := List.exists_cons_of_length_pos (by omega : 0 < xs.length)
    rfl
  | cons b bs ih =>
    cases xs with
    | nil => simp at h
    | cons x xs =>
      cases b
      · exact ih (by simpa using h) _
      · exact ih (by simpa using h) _

/-- What `flush` leaves of the bits. -/
theorem flush_suffix {bs bs' : List Bool} {xs : List α} {t t' : Tape α}
    (h : flush bad bs xs t = some (bs', t')) :
    ∃ used, bs = used ++ bs' ∧ used.count true = xs.length := by
  induction bs generalizing xs t with
  | nil =>
    cases xs with
    | nil => cases h; exact ⟨[], rfl, rfl⟩
    | cons x xs => cases h
  | cons b bs ih =>
    cases xs with
    | nil => rw [flush_nil] at h; cases h; exact ⟨[], rfl, rfl⟩
    | cons x xs =>
      cases b
      · obtain ⟨used, e, hc⟩ := ih h
        exact ⟨false :: used, by rw [e]; rfl, by simpa using hc⟩
      · obtain ⟨used, e, hc⟩ := ih h
        exact ⟨true :: used, by rw [e]; rfl, by simpa using hc⟩

/-- Bits that are not reached do not matter. -/
theorem flush_append_bits {as as' : List Bool} {xs : List α} {t t' : Tape α}
    (h : flush bad as xs t = some (as', t')) (bs : List Bool) :
    flush bad (as ++ bs) xs t = some (as' ++ bs, t') := by
  induction as generalizing xs t with
  | nil =>
    cases xs with
    | nil => cases h; exact flush_nil _ _
    | cons x xs => cases h
  | cons a as ih =>
    cases xs with
    | nil => rw [flush_nil] at h; cases h; exact flush_nil _ _
    | cons x xs => cases a <;> exact ih h

theorem Tape.put_pos_le (bad : ℕ → Bool) (t : Tape α) (x : α) : (t.put bad x).pos ≤ t.pos + 1 := by
  unfold Tape.put; split_ifs <;> simp

/-- The head never gets ahead of the bits. -/
theorem flush_pos_le {bs bs' : List Bool} {xs : List α} {t t' : Tape α}
    (h : flush bad bs xs t = some (bs', t')) : t'.pos + bs'.length ≤ t.pos + bs.length := by
  induction bs generalizing xs t with
  | nil =>
    cases xs with
    | nil => cases h; exact le_rfl
    | cons x xs => cases h
  | cons b bs ih =>
    cases xs with
    | nil => rw [flush_nil] at h; cases h; exact le_rfl
    | cons x xs =>
      cases b
      · have := ih h
        rw [Tape.skip_pos] at this
        rw [List.length_cons]; omega
      · have := ih h
        have := Tape.put_pos_le bad t x
        rw [List.length_cons]; omega

/-- Writing and then moving past the remaining bits is `scatter`. -/
theorem scatter_of_flush {bs bs' : List Bool} {xs : List α} {t t' : Tape α}
    (h : flush bad bs xs t = some (bs', t')) : scatter bad bs xs t = t'.skip bs'.length := by
  induction bs generalizing xs t with
  | nil =>
    cases xs with
    | nil => cases h; rfl
    | cons x xs => cases h
  | cons b bs ih =>
    cases xs with
    | nil => rw [flush_nil] at h; cases h; exact scatter_nil _ _
    | cons x xs => cases b <;> exact ih h

/-- Without set bits the place of the head does not matter. -/
theorem scatter_cells_congr {bs : List Bool} {xs : List α} {t : Tape α} {p : ℕ}
    (hx : xs.length = bs.count true) (hp : ones t.pos bs ≠ [] → p = t.pos) :
    (scatter bad bs xs { t with pos := p }).cells = (scatter bad bs xs t).cells := by
  by_cases h : ones t.pos bs = []
  · have hnil : xs = [] := by
      rw [← List.length_eq_zero_iff, hx, ← length_ones t.pos, h]; rfl
    rw [hnil, scatter_nil, scatter_nil]
    rfl
  · rw [hp h]

theorem scatter_append {as bs : List Bool} {xs ys : List α} (h : xs.length = as.count true)
    (t : Tape α) :
    scatter bad (as ++ bs) (xs ++ ys) t = scatter bad bs ys (scatter bad as xs t) := by
  induction as generalizing xs t with
  | nil =>
    rw [List.count_nil, List.length_eq_zero_iff] at h
    subst h; rfl
  | cons a as ih =>
    cases a
    · exact ih (by simpa using h) _
    · cases xs with
      | nil => simp at h
      | cons x xs => exact ih (by simpa using h) _

/-- Cells behind the head are never written again. -/
theorem scatter_cells_of_lt {bs : List Bool} {xs : List α} {t : Tape α} {q : ℕ} (h : q < t.pos) :
    (scatter bad bs xs t).cells q = t.cells q := by
  induction bs generalizing xs t with
  | nil => rfl
  | cons b bs ih =>
    cases b
    · exact ih (Nat.lt_succ_of_lt h)
    · cases xs with
      | nil => exact ih (t := t.skip 1) (Nat.lt_succ_of_lt h)
      | cons x xs =>
        by_cases hb : bad t.pos = true
        · simp only [scatter, Tape.put_of_bad hb]; exact ih h
        · rw [Bool.not_eq_true] at hb
          simp only [scatter, Tape.put_of_not_bad hb]
          rw [ih (Nat.lt_succ_of_lt h)]
          exact Function.update_of_ne (Nat.ne_of_lt h) _ _

theorem scatter_pos_le (bs : List Bool) (xs : List α) (t : Tape α) :
    (scatter bad bs xs t).pos ≤ t.pos + bs.length := by
  induction bs generalizing xs t with
  | nil => simp [scatter]
  | cons b bs ih =>
    cases b
    · have := ih xs (t.skip 1)
      simp only [scatter, List.length_cons, Tape.skip_pos] at this ⊢; omega
    · cases xs with
      | nil =>
        have := ih [] (t.skip 1)
        simp only [scatter, List.length_cons, Tape.skip_pos] at this ⊢; omega
      | cons x xs =>
        have := ih xs (t.put bad x)
        have := Tape.put_pos_le bad t x
        simp only [scatter, List.length_cons] at *; omega

/-! ### Without failures -/

theorem scatter_pos_of_ok {bs : List Bool} {xs : List α} {t : Tape α}
    (h : ∀ q ∈ ones t.pos bs, bad q = false) :
    (scatter bad bs xs t).pos = t.pos + bs.length := by
  induction bs generalizing xs t with
  | nil => rfl
  | cons b bs ih =>
    cases b
    · rw [scatter, ih h, Tape.skip_pos, List.length_cons]; ring
    · rw [ones_true, List.forall_mem_cons] at h
      cases xs with
      | nil => rw [scatter, ih h.2, Tape.skip_pos, List.length_cons]; ring
      | cons x xs =>
        rw [scatter, Tape.put_of_not_bad h.1, ih (t := ⟨t.pos + 1, _⟩) h.2, List.length_cons]
        show t.pos + 1 + _ = _
        ring

theorem scatter_cells_of_ok {bs : List Bool} {xs : List α} {t : Tape α} {q : ℕ} {x : α} {k : ℕ}
    (h : ∀ q ∈ ones t.pos bs, bad q = false) (hq : (ones t.pos bs)[k]? = some q)
    (hx : xs[k]? = some x) : (scatter bad bs xs t).cells q = x := by
  induction bs generalizing xs t k with
  | nil => simp at hq
  | cons b bs ih =>
    cases b
    · exact ih h hq hx
    · rw [ones_true, List.forall_mem_cons] at h
      cases xs with
      | nil => simp at hx
      | cons y xs =>
        rw [scatter, Tape.put_of_not_bad h.1]
        cases k with
        | zero =>
          simp only [ones_true, List.getElem?_cons_zero, Option.some.injEq] at hq hx
          subst hq hx
          rw [scatter_cells_of_lt (t := ⟨t.pos + 1, _⟩) (Nat.lt_succ_self _)]
          exact Function.update_self _ _ _
        | succ k =>
          exact ih (t := ⟨t.pos + 1, _⟩) h.2 (by simpa using hq) (by simpa using hx)

/-- Only the cells of the first `xs.length` set bits are written. -/
theorem scatter_cells_of_not_mem_take {bs : List Bool} {xs : List α} {t : Tape α} {q : ℕ}
    (h : ∀ q ∈ ones t.pos bs, bad q = false) (hq : q ∉ (ones t.pos bs).take xs.length) :
    (scatter bad bs xs t).cells q = t.cells q := by
  induction bs generalizing xs t with
  | nil => rfl
  | cons b bs ih =>
    cases b
    · exact ih h hq
    · cases xs with
      | nil => rw [scatter_nil]; rfl
      | cons x xs =>
        rw [ones_true, List.forall_mem_cons] at h
        rw [ones_true, List.length_cons, List.take_succ_cons, List.mem_cons, not_or] at hq
        rw [scatter, Tape.put_of_not_bad h.1, ih (t := ⟨t.pos + 1, _⟩) h.2 hq.2]
        exact Function.update_of_ne hq.1 _ _

theorem scatter_cells_of_not_mem {bs : List Bool} {xs : List α} {t : Tape α} {q : ℕ}
    (h : ∀ q ∈ ones t.pos bs, bad q = false) (hq : q ∉ ones t.pos bs) :
    (scatter bad bs xs t).cells q = t.cells q :=
  scatter_cells_of_not_mem_take h fun hm => hq (List.mem_of_mem_take hm)

/-- What the written cells held before does not matter. -/
theorem scatter_cells_eq {bs : List Bool} {xs : List α} {p : ℕ} {c c' : ℕ → α} {q : ℕ}
    (h : ∀ q ∈ ones p bs, bad q = false)
    (hc : q ∉ (ones p bs).take xs.length → c q = c' q) :
    (scatter bad bs xs ⟨p, c⟩).cells q = (scatter bad bs xs ⟨p, c'⟩).cells q := by
  by_cases hq : q ∈ (ones p bs).take xs.length
  · obtain ⟨k, hk⟩ := List.mem_iff_getElem?.mp hq
    rw [List.getElem?_take] at hk
    split_ifs at hk with hlt
    rw [scatter_cells_of_ok (t := ⟨p, c⟩) h hk (List.getElem?_eq_getElem hlt),
      scatter_cells_of_ok (t := ⟨p, c'⟩) h hk (List.getElem?_eq_getElem hlt)]
  · rw [scatter_cells_of_not_mem_take (t := ⟨p, c⟩) h hq,
      scatter_cells_of_not_mem_take (t := ⟨p, c'⟩) h hq]
    exact hc hq

/-- Values listed by position arrive at these positions, counted from the head. -/
theorem scatter_map_of_ok {f : ℕ → α} {bs : List Bool} {t : Tape α} {i : ℕ}
    (h : ∀ q ∈ ones t.pos bs, bad q = false) (hi : i ∈ ones 0 bs) :
    (scatter bad bs ((ones 0 bs).map f) t).cells (t.pos + i) = f i := by
  obtain ⟨k, hk⟩ := List.mem_iff_getElem?.mp hi
  have hpos : (ones t.pos bs)[k]? = some (t.pos + i) := by
    have h0 := ones_add 0 t.pos bs
    rw [Nat.zero_add] at h0
    rw [h0, List.getElem?_map, hk, Option.map_some, Nat.add_comm]
  exact scatter_cells_of_ok h hpos (by rw [List.getElem?_map, hk]; rfl)

/-! ### With failures -/

/-- When every write fails the head only moves over the unset bits. -/
theorem scatter_of_stuck {bs : List Bool} {xs : List α} {t : Tape α} (hx : xs.length = bs.count true)
    (h : ∀ m, bs[m]? = some true → bad (t.pos + (bs.take m).count false) = true) :
    scatter bad bs xs t = t.skip (bs.count false) := by
  induction bs generalizing xs t with
  | nil => rfl
  | cons b bs ih =>
    cases b with
    | false =>
      rw [scatter, ih (by simpa using hx) fun m hm => ?_, Tape.skip_skip, List.count_cons_self,
        Nat.add_comm]
      have := h (m + 1) hm
      rw [List.take_succ_cons, List.count_cons_self] at this
      rw [Tape.skip_pos, Nat.add_assoc, Nat.add_comm 1]
      exact this
    | true =>
      cases xs with
      | nil => simp at hx
      | cons x xs =>
        have h0 : bad t.pos = true := h 0 rfl
        rw [scatter, Tape.put_of_bad h0, ih (by simpa using hx) fun m hm => ?_,
          List.count_cons_of_ne (by decide)]
        have := h (m + 1) hm
        rwa [List.take_succ_cons, List.count_cons_of_ne (by decide)] at this

/-- Writing `a` only, on a tape of `a`s. -/
theorem scatter_const {bs : List Bool} {xs : List α} {t : Tape α} {a : α} (hx : ∀ x ∈ xs, x = a)
    (ht : ∀ q, t.cells q = a) (q : ℕ) : (scatter bad bs xs t).cells q = a := by
  induction bs generalizing xs t with
  | nil => exact ht q
  | cons b bs ih =>
    cases b with
    | false => exact ih hx ht
    | true =>
      cases xs with
      | nil => exact ih (t := t.skip 1) hx ht
      | cons x xs =>
        rw [List.forall_mem_cons] at hx
        refine ih hx.2 fun q => ?_
        unfold Tape.put
        split_ifs
        · exact ht q
        · show Function.update t.cells t.pos x q = a
          rw [hx.1, ← ht t.pos, Function.update_eq_self, ht q, ht t.pos]

/-- The tape `c` got the values `f` at the set bits with good cells, counted from `s`, and nothing
else. -/
def InPlace (bad : ℕ → Bool) (bs : List Bool) (s : ℕ) (f T c : ℕ → α) : Prop :=
  (∀ i, bs[i]? = some true → bad (s + i) = false → c (s + i) = f i) ∧
  ∀ q, (∀ i, bs[i]? = some true → bad (s + i) = false → q ≠ s + i) → c q = T q

/-- After the first set bit with a bad cell no cell of a set bit is good, nor is any cell at which a
head that fell behind tries to write. -/
def Seized (bad : ℕ → Bool) (bs : List Bool) (s : ℕ) : Prop :=
  ∀ i j, bs[i]? = some true → bs[j]? = some true → i < j → bad (s + i) = true →
    (∀ k < i, bs[k]? = some true → bad (s + k) = false) →
    bad (s + j) = true ∧ bad (s + i + ((bs.drop i).take (j - i)).count false) = true

section Failures

variable {bs : List Bool} {s : ℕ}

theorem mem_ones_zero {i : ℕ} : i ∈ ones 0 bs ↔ bs[i]? = some true := by
  rw [mem_ones, Nat.sub_zero]
  exact ⟨fun h => h.2, fun h => ⟨Nat.zero_le _, h⟩⟩

theorem mem_ones_iff_add {q : ℕ} : q ∈ ones s bs ↔ ∃ i, bs[i]? = some true ∧ q = s + i := by
  rw [mem_ones]
  constructor
  · rintro ⟨hle, h⟩; exact ⟨q - s, h, by omega⟩
  · rintro ⟨i, h, rfl⟩; exact ⟨by omega, by rwa [Nat.add_sub_cancel_left]⟩

/-- Up to the first bad cell of a set bit all is well; there the write fails. -/
theorem scatter_first_bad {as ms : List Bool} {f : ℕ → α} {T : ℕ → α}
    (hgood : ∀ q ∈ ones s as, bad q = false) (hbad : bad (s + as.length) = true) :
    scatter bad (as ++ true :: ms) ((ones 0 (as ++ true :: ms)).map f) ⟨s, T⟩ =
      scatter bad ms ((ones (as.length + 1) ms).map f)
        ⟨s + as.length, (scatter bad as ((ones 0 as).map f) ⟨s, T⟩).cells⟩ := by
  have hpos : (scatter bad as ((ones 0 as).map f) ⟨s, T⟩).pos = s + as.length :=
    scatter_pos_of_ok hgood
  rw [ones_append, ones_true, List.map_append, List.map_cons, scatter_append (by simp), scatter,
    Tape.put_of_bad (by rw [hpos]; exact hbad), ← hpos, Nat.zero_add]

section First

variable {i : ℕ} (hi : bs[i]? = some true) (hbad : bad (s + i) = true)
  (hmin : ∀ k < i, bs[k]? = some true → bad (s + k) = false)

include hmin in
theorem good_take : ∀ q ∈ ones s (bs.take i), bad q = false := by
  intro q hq
  obtain ⟨k, hk, rfl⟩ := mem_ones_iff_add.mp hq
  rw [List.getElem?_take] at hk
  split_ifs at hk with hlt
  exact hmin k hlt hk

include hi in
theorem take_drop_succ (m : ℕ) :
    (bs.drop i).take (m + 1) = true :: (bs.drop (i + 1)).take m := by
  obtain ⟨hlt, hget⟩ := List.getElem?_eq_some_iff.mp hi
  rw [List.drop_eq_getElem_cons hlt, hget, List.take_succ_cons]

include hi hbad hmin in
/-- Where the head stands before bit `j`, when every write since the first bad cell of a set bit
failed; nothing was written since. -/
theorem scatter_take_of_stuck {j : ℕ} {f T : ℕ → α} (hij : i < j)
    (hstuck : ∀ m, i < m → m < j → bs[m]? = some true →
      bad (s + i + ((bs.drop i).take (m - i)).count false) = true) :
    scatter bad (bs.take j) ((ones 0 (bs.take j)).map f) ⟨s, T⟩ =
      ⟨s + i + ((bs.drop i).take (j - i)).count false,
        (scatter bad (bs.take i) ((ones 0 (bs.take i)).map f) ⟨s, T⟩).cells⟩ := by
  have hlen := (eq_append_of_getElem? hi).2
  obtain ⟨n, rfl⟩ : ∃ n, j = i + (n + 1) := ⟨j - i - 1, by omega⟩
  rw [List.take_add, take_drop_succ hi, scatter_first_bad (good_take hmin) (by rwa [hlen]), hlen,
    scatter_of_stuck (by simp) fun m hm => ?_, Nat.add_sub_cancel_left, take_drop_succ hi,
    List.count_cons_of_ne (by decide)]
  · rfl
  · rw [List.getElem?_take] at hm
    split_ifs at hm with hmn
    rw [List.getElem?_drop] at hm
    have := hstuck (i + 1 + m) (by omega) (by omega) hm
    rw [show i + 1 + m - i = m + 1 by omega, take_drop_succ hi, List.count_cons_of_ne (by decide)]
      at this
    rw [List.take_take, Nat.min_eq_left (by omega)]
    exact this

end First

theorem inPlace_of_good {f T : ℕ → α} (hgood : ∀ q ∈ ones s bs, bad q = false) :
    InPlace bad bs s f T (scatter bad bs ((ones 0 bs).map f) ⟨s, T⟩).cells := by
  refine ⟨fun i hi _ => scatter_map_of_ok (t := ⟨s, T⟩) hgood (mem_ones_zero.mpr hi), fun q hq => ?_⟩
  refine scatter_cells_of_not_mem (t := ⟨s, T⟩) hgood fun hmem => ?_
  obtain ⟨i, hi, rfl⟩ := mem_ones_iff_add.mp hmem
  exact hq i hi (hgood _ hmem) rfl

theorem inPlace_of_seized (h : Seized bad bs s) (f T : ℕ → α) :
    InPlace bad bs s f T (scatter bad bs ((ones 0 bs).map f) ⟨s, T⟩).cells := by
  by_cases hex : ∃ i, bs[i]? = some true ∧ bad (s + i) = true
  · classical
    obtain ⟨i, hfind⟩ : ∃ i, i = Nat.find hex := ⟨_, rfl⟩
    obtain ⟨hi, hbad⟩ := Nat.find_spec hex
    have hmin : ∀ k < i, bs[k]? = some true → bad (s + k) = false := by
      intro k hk hbit
      have := Nat.find_min hex (hfind ▸ hk)
      simpa [hbit] using this
    rw [← hfind] at hi hbad
    have hlt := (List.getElem?_eq_some_iff.mp hi).1
    have hcells := congrArg Tape.cells (scatter_take_of_stuck (f := f) (T := T) hi hbad hmin hlt
      fun m him _ hm => (h i m hi hm him hbad hmin).2)
    rw [List.take_length] at hcells
    rw [hcells]
    obtain ⟨hin, hout⟩ := inPlace_of_good (f := f) (T := T) (good_take hmin)
    refine ⟨fun k hk hb => ?_, fun q hq => hout q fun k hk hb => ?_⟩
    · have hki : k < i := by
        by_contra hge
        rcases Nat.lt_or_eq_of_le (Nat.le_of_not_lt hge) with hik | rfl
        · rw [(h i k hi hk hik hbad hmin).1] at hb; cases hb
        · rw [hbad] at hb; cases hb
      exact hin k (by rw [List.getElem?_take, if_pos hki]; exact hk) hb
    · rw [List.getElem?_take] at hk
      split_ifs at hk
      exact hq k hk hb
  · refine inPlace_of_good fun q hq => ?_
    obtain ⟨i, hi, rfl⟩ := mem_ones_iff_add.mp hq
    by_contra hb
    exact hex ⟨i, hi, by simpa using hb⟩

/-- The value `b` at `j`, `a` elsewhere. -/
def marked (j : ℕ) (a b : α) (q : ℕ) : α := if q = j then b else a

theorem marked_map {j n : ℕ} {a b : α} {bs : List Bool} (h : ∀ q ∈ ones n bs, q ≠ j) :
    ∀ x ∈ (ones n bs).map (marked j a b), x = a := by
  intro x hx
  obtain ⟨q, hq, rfl⟩ := List.mem_map.mp hx
  exact if_neg (h q hq)

/-- Writing one marked value: before its bit the tape has only `a`s, then the value is put under the
head, wherever that is. -/
theorem scatter_marked {j : ℕ} {a b : α} (hj : bs[j]? = some true) :
    ∃ t : Tape α, t = scatter bad (bs.take j) ((ones 0 (bs.take j)).map (marked j a b)) ⟨s, fun _ => a⟩ ∧
      (∀ q, t.cells q = a) ∧
      scatter bad bs ((ones 0 bs).map (marked j a b)) ⟨s, fun _ => a⟩ =
        scatter bad (bs.drop (j + 1)) ((ones (j + 1) (bs.drop (j + 1))).map (marked j a b))
          (t.put bad b) := by
  obtain ⟨hsplit, hlen⟩ := eq_append_of_getElem? hj
  refine ⟨_, rfl, fun q => ?_, ?_⟩
  · refine scatter_const (t := ⟨s, fun _ => a⟩) (marked_map fun q hq => ?_) (fun _ => rfl) q
    have := lt_of_mem_ones hq
    omega
  · conv_lhs => rw [hsplit]
    rw [ones_append, ones_true, List.map_append, List.map_cons, scatter_append (by simp), scatter,
      hlen, Nat.zero_add, marked, if_pos rfl]

theorem seized_of_inPlace {a b : α} (hab : a ≠ b)
    (h : ∀ f T : ℕ → α, InPlace bad bs s f T (scatter bad bs ((ones 0 bs).map f) ⟨s, T⟩).cells) :
    Seized bad bs s := by
  intro i j
  induction j using Nat.strong_induction_on with
  | _ j ih =>
    intro hi hj hij hbad hmin
    -- one marked value among equal ones shows where the value of bit `j` goes
    obtain ⟨hin, hout⟩ := h (marked j a b) fun _ => a
    obtain ⟨t, ht, hcells, hwhole⟩ := @scatter_marked _ bad bs s j a b hj
    rw [hwhole] at hin hout
    obtain ⟨p, hp⟩ : ∃ p, p = s + i + ((bs.drop i).take (j - i)).count false := ⟨_, rfl⟩
    have hpos : t.pos = p := by
      rw [ht, scatter_take_of_stuck hi hbad hmin hij fun m him hmj hm =>
        (ih m hmj hi hm him hbad hmin).2, hp]
    have hpj : p < s + j := by
      obtain ⟨n, rfl⟩ : ∃ n, j = i + (n + 1) := ⟨j - i - 1, by omega⟩
      have hc := List.count_le_length (a := false) (l := (bs.drop (i + 1)).take n)
      have hl : ((bs.drop (i + 1)).take n).length ≤ n := List.length_take_le _ _
      rw [hp, Nat.add_sub_cancel_left, take_drop_succ hi, List.count_cons_of_ne (by decide)]
      omega
    have hputbad : bad p = true := by
      by_contra hb
      rw [Bool.not_eq_true] at hb
      rw [Tape.put_of_not_bad (by rwa [hpos]), hpos] at hin hout
      have hcell : ∀ xs, (scatter bad (bs.drop (j + 1)) xs
          ⟨p + 1, Function.update t.cells p b⟩).cells p = b := by
        intro xs
        rw [scatter_cells_of_lt (t := ⟨p + 1, _⟩) (Nat.lt_succ_self p)]
        exact Function.update_self _ _ _
      by_cases hex : ∃ k, bs[k]? = some true ∧ bad (s + k) = false ∧ p = s + k
      · obtain ⟨k, hk, hkb, hpk⟩ := hex
        have := hin k hk hkb
        rw [← hpk, hcell, marked, if_neg (by omega)] at this
        exact hab this.symm
      · push Not at hex
        exact hab ((hout p hex).symm.trans (hcell _))
    refine ⟨?_, by rw [← hp]; exact hputbad⟩
    by_contra hb
    rw [Bool.not_eq_true] at hb
    have := hin j hj hb
    rw [Tape.put_of_bad (by rwa [hpos]), marked, if_pos rfl,
      scatter_const (marked_map fun q hq => by have := le_of_mem_ones hq; omega) hcells] at this
    exact hab this

/-- **When failures do not displace**: whatever is written on whatever tape, the values arrive in
their places exactly when the tape seizes at the first bad cell. -/
theorem inPlace_iff_seized [Nontrivial α] : (∀ f T : ℕ → α,
    InPlace bad bs s f T (scatter bad bs ((ones 0 bs).map f) ⟨s, T⟩).cells) ↔ Seized bad bs s := by
  obtain ⟨a, b, hab⟩ := exists_pair_ne α
  exact ⟨seized_of_inPlace hab, inPlace_of_seized⟩

end Failures

end LinboxRescue
