import LinboxRescue.Boot.NewGet
import LinboxRescue.Image.CompressSpec

/-!
# What `new_get` writes

1. `val_of_strstr`: `val` reads the numbers of a header as `restore` does.
2. The cursor walks over the bits of the table (`Cursor.inc_ofBit`, `Cursor.test_ofBit`).
3. `placement s bs xs` lists the sectors of a chunk with their places on the disk. While the writing
   is in step with the table (`InStep`), a turn of the loop writes the next ones of the list
   (`writeRun_spec`); at the end of the disk it stops writing for good (`PastEnd`).
4. `writeRuns_spec`: so does the loop over a buffer.
-/

namespace LinboxRescue

/-! ## The numbers in the header -/

theorem afterKey_eq (key t : Bytes) :
    afterKey key t = (strstr t (key ++ ascii "=")).map (List.drop (key.length + 1)) := by
  induction t with
  | nil =>
    rw [afterKey, strstr, if_neg (by cases key <;> simp [ascii])]
    rfl
  | cons b t ih =>
    rw [afterKey, strstr]
    split_ifs
    · rfl
    · exact ih

theorem parseDigit_of_isDigit {b : UInt8} (h : isDigit b = true) :
    parseDigit 10 b = some (b.toNat - 48) := by
  simp only [isDigit, Bool.and_eq_true, decide_eq_true_eq] at h
  have hl : tolower b = b.toNat := if_neg (by omega)
  rw [parseDigit, hl, if_pos h]

theorem parseDigit_of_not {b : UInt8} (h : isDigit b = false) : parseDigit 10 b = none := by
  have hb : ¬ (48 ≤ b.toNat ∧ b.toNat ≤ 57) := by
    simpa only [isDigit, Bool.and_eq_false_iff, decide_eq_false_iff_not, not_and_or] using h
  have hl : ¬ (48 ≤ tolower b ∧ tolower b ≤ 57) := by unfold tolower; split_ifs <;> omega
  rw [parseDigit, if_neg hl, if_pos rfl]

theorem parseDigits_append {r : Bytes} (hr : ∀ b ∈ r.head?, isDigit b = false) (g : Bytes) :
    ∀ {v : ℕ} {found : Bool}, (∀ b ∈ g, isDigit b = true) → (g = [] → found = true) →
      g.foldl (fun v b => 10 * v + (b.toNat - 48)) v ≤ 2147483647 →
      parseDigits 10 (g ++ r) v found = some (g.foldl (fun v b => 10 * v + (b.toNat - 48)) v) := by
  induction g with
  | nil =>
    intro v found _ hf _
    rw [List.nil_append]
    cases r with
    | nil => rw [parseDigits, hf rfl]; rfl
    | cons b r => rw [parseDigits, parseDigit_of_not (hr b rfl), hf rfl]; rfl
  | cons b g ih =>
    intro v found hg _ hle
    rw [List.forall_mem_cons] at hg
    rw [List.foldl_cons] at hle ⊢
    have hmono : ∀ (g : Bytes) (w : ℕ), w ≤ g.foldl (fun v b => 10 * v + (b.toNat - 48)) w := by
      intro g
      induction g with
      | nil => exact fun w => le_rfl
      | cons c g ih => exact fun w => le_trans (show w ≤ 10 * w + (c.toNat - 48) by omega) (ih _)
    have hv := (hmono g _).trans hle
    rw [List.cons_append, parseDigits, parseDigit_of_isDigit hg.1]
    simp only
    rw [if_neg (by omega), Nat.mul_comm v 10]
    exact ih hg.2 (fun _ => rfl) hle

/-- A printed number is read back. -/
theorem safeParseMaxint_dec {n : ℕ} (hn : n ≤ 2147483647) {r : Bytes}
    (hr : ∀ b ∈ r.head?, isDigit b = false ∧ tolower b ≠ 120) :
    safeParseMaxint (dec n ++ r) = some n := by
  have hdec : parseDigits 10 (dec n ++ r) 0 false = some n := by
    have hval : (dec n).foldl (fun v b => 10 * v + (b.toNat - 48)) 0 = n := digitsVal_dec n
    have h := @parseDigits_append r (fun b hb => (hr b hb).1) (dec n) 0 false
      isDigit_of_mem_dec (fun h => absurd h (dec_ne_nil n)) (by rw [hval]; exact hn)
    rw [h, hval]
  -- a leading zero is the whole number, and no `x` follows it
  rw [← hdec]
  have hcases : n = 0 ∨ (dec n).head? ≠ some 48 := by
    rcases Nat.eq_zero_or_pos n with h | h
    · exact .inl h
    · exact .inr (dec_head_ne_zero h)
  rcases hcases with rfl | hne
  · rw [dec_of_lt (by omega)]
    cases r with
    | nil => rfl
    | cons c r =>
      show (if _ ∧ tolower c = 120 then _ else _) = _
      rw [if_neg fun h => (hr c rfl).2 h.2]
      rfl
  · obtain ⟨b, g, hg⟩ := List.exists_cons_of_ne_nil (dec_ne_nil n)
    rw [hg] at hne ⊢
    have hb : b ≠ 48 := fun e => hne (by rw [e]; rfl)
    rw [List.cons_append]
    cases g ++ r with
    | nil => rfl
    | cons c t =>
      show (if b = 48 ∧ _ then _ else _) = _
      rw [if_neg fun h => hb h.1]

/-- `val` finds the number that stands after its key. -/
theorem val_of_strstr (key : Bytes) {buffer r : Bytes} {n : ℕ} (hn : n ≤ 2147483647)
    (h : strstr (cstr buffer) (key ++ ascii "=") = some (key ++ ascii "=" ++ (dec n ++ r)))
    (hr : ∀ b ∈ r.head?, isDigit b = false ∧ tolower b ≠ 120) :
    val key buffer = n ∧ exist key buffer = true := by
  have hk : afterKey key (cstr buffer) = some (dec n ++ r) := by
    have hlen : (key ++ ascii "=").length = key.length + 1 := by simp [ascii]
    rw [afterKey_eq, h, Option.map_some, ← hlen, List.drop_left]
  exact ⟨by rw [val, hk]; simp only [safeParseMaxint_dec hn hr, Option.getD_some], by rw [exist, hk]; rfl⟩

theorem exist_of_strstr (key : Bytes) {buffer : Bytes} (h : strstr (cstr buffer) (key ++ ascii "=") = none) :
    exist key buffer = false := by
  rw [exist, afterKey_eq, h]; rfl

/-! ## The cursor -/

/-- The cursor at bit `n`. -/
def Cursor.ofBit (n : ℕ) : Cursor := ⟨n / 8, 2 ^ (n % 8)⟩

theorem Cursor.inc_ofBit (n : ℕ) : (Cursor.ofBit n).inc = Cursor.ofBit (n + 1) := by
  have hshift : 2 ^ (n % 8) <<< 1 = 2 ^ (n % 8 + 1) := by rw [Nat.shiftLeft_eq, pow_one, pow_succ]
  unfold Cursor.inc Cursor.ofBit
  simp only [hshift]
  by_cases h7 : n % 8 = 7
  · rw [h7, if_pos (by norm_num), show (n + 1) / 8 = n / 8 + 1 by omega, show (n + 1) % 8 = 0 by omega]
    rfl
  · have hne : 2 ^ (n % 8 + 1) ≠ 256 := fun e => by
      have := Nat.pow_right_injective (le_refl 2) (show 2 ^ (n % 8 + 1) = 2 ^ 8 from e)
      omega
    rw [if_neg hne, show (n + 1) / 8 = n / 8 by omega, show (n + 1) % 8 = n % 8 + 1 by omega]

theorem Cursor.test_ofBit (alloc : Bytes) (n : ℕ) :
    (Cursor.ofBit n).test alloc = (bits alloc)[n]? := by
  unfold Cursor.test Cursor.ofBit
  rw [getElem?_bits]
  simp only [← Nat.one_shiftLeft, and_mask_ne_zero]

/-! ## Runs of sectors -/

/-- The sectors of a chunk with their places on the disk. -/
def placement (s : ℕ) (bs : List Bool) (xs : List Sector) : List (ℕ × Sector) := (ones s bs).zip xs

theorem take_add_of_getElem? {α : Type} {l : List α} {k n : ℕ} {f : ℕ → α}
    (h : ∀ j < n, l[k + j]? = some (f j)) : l.take (k + n) = l.take k ++ (List.range n).map f := by
  induction n with
  | zero => simp
  | succ n ih =>
    rw [← Nat.add_assoc, List.take_add_one, ih fun j hj => h j (by omega), h n (by omega),
      List.range_succ, List.map_append, List.append_assoc]
    rfl

/-- The next used sector. -/
theorem exists_first_true {bs : List Bool} (h : 0 < bs.count true) :
    ∃ j rest, bs = List.replicate j false ++ true :: rest := by
  induction bs with
  | nil => simp at h
  | cons b bs ih =>
    cases b with
    | true => exact ⟨0, bs, rfl⟩
    | false =>
      obtain ⟨j, rest, hj⟩ := ih (by simpa using h)
      exact ⟨j + 1, rest, by rw [hj]; rfl⟩

section Runs

variable {alloc : Bytes} {bs more : List Bool} (hal : bits alloc = bs ++ more) (hmore : more ≠ [])

include hal in
theorem test_of_drop {n : ℕ} {b : Bool} {rest : List Bool} (h : bs.drop n = b :: rest) :
    (Cursor.ofBit n).test alloc = some b := by
  rw [Cursor.test_ofBit, hal]
  have hb : bs[n]? = some b := by
    have h0 := congrArg (fun l => l[0]?) h
    rwa [List.getElem?_drop, Nat.add_zero] at h0
  rw [List.getElem?_append_left (List.getElem?_eq_some_iff.mp hb).1, hb]

include hal in
theorem skipFree_spec (j : ℕ) : ∀ {n steps sect : ℕ} {rest : List Bool},
    bs.drop n = List.replicate j false ++ true :: rest → j < steps →
    skipFree alloc steps sect (.ofBit n) = some (sect + j, .ofBit (n + j)) := by
  induction j with
  | zero =>
    intro n steps sect rest h hs
    obtain ⟨steps, rfl⟩ : ∃ k, steps = k + 1 := ⟨steps - 1, by omega⟩
    rw [skipFree, test_of_drop hal h]
    rfl
  | succ j ih =>
    intro n steps sect rest h hs
    obtain ⟨steps, rfl⟩ : ∃ k, steps = k + 1 := ⟨steps - 1, by omega⟩
    rw [List.replicate_succ, List.cons_append] at h
    have hnext : bs.drop (n + 1) = List.replicate j false ++ true :: rest := by
      rw [← List.drop_drop, h]; rfl
    rw [skipFree, test_of_drop hal h]
    simp only
    rw [Cursor.inc_ofBit, ih hnext (by omega), Nat.add_assoc, Nat.add_assoc, Nat.add_comm 1 j]

include hal hmore in
theorem countRun_spec (room : ℕ) : ∀ {n : ℕ}, room ≤ (bs.drop n).count true → n ≤ bs.length →
    ∃ nb rest, countRun alloc room (.ofBit n) = some (nb, .ofBit (n + nb)) ∧ nb ≤ room ∧
      bs.drop n = List.replicate nb true ++ rest ∧
      (0 < room → (bs.drop n).head? = some true → 0 < nb) := by
  induction room with
  | zero =>
    intro n _ hn
    have hlt : n < (bits alloc).length := by
      have := List.length_pos_iff.mpr hmore
      rw [hal, List.length_append]; omega
    refine ⟨0, bs.drop n, ?_, le_rfl, rfl, fun h => absurd h (lt_irrefl 0)⟩
    rw [countRun, Cursor.test_ofBit, List.getElem?_eq_getElem hlt]
    rfl
  | succ room ih =>
    intro n hroom hn
    cases hd : bs.drop n with
    | nil => rw [hd] at hroom; simp at hroom
    | cons b rest =>
      rw [countRun, test_of_drop hal hd]
      cases b with
      | false => exact ⟨0, false :: rest, rfl, Nat.zero_le _, rfl, fun _ h => by simp at h⟩
      | true =>
        have hnext : bs.drop (n + 1) = rest := by rw [← List.drop_drop, hd]; rfl
        have hlen : n < bs.length := by
          by_contra hge
          rw [List.drop_of_length_le (by omega)] at hd
          cases hd
        rw [hd, List.count_cons_self] at hroom
        obtain ⟨nb, rest', h1, h2, h3, -⟩ := @ih (n + 1) (by rw [hnext]; omega) hlen
        refine ⟨nb + 1, rest', ?_, by omega, ?_, fun _ _ => Nat.succ_pos nb⟩
        · simp only [Cursor.inc_ofBit, h1, Option.map_some, Option.some.injEq, Prod.mk.injEq,
            true_and]
          exact congrArg Cursor.ofBit (by omega)
        · rw [← hnext, h3]; rfl

end Runs

theorem skipFree_le {alloc : Bytes} (steps : ℕ) : ∀ {sect : ℕ} {c : Cursor} {r : ℕ × Cursor},
    skipFree alloc steps sect c = some r → sect ≤ r.1 := by
  induction steps with
  | zero => intro sect c r h; cases h
  | succ steps ih =>
    intro sect c r h
    rw [skipFree] at h
    split at h
    · cases h
    · cases h; exact le_rfl
    · exact le_trans (Nat.le_succ _) (ih h)

/-! ## In step with the table -/

/-- The first `k` sectors of the chunk are written, and the cursor is at bit `n`. -/
structure InStep (s : ℕ) (bs : List Bool) (xs : List Sector) (T : ℕ → Sector) (n k : ℕ)
    (h : DiskHead) : Prop where
  le : n ≤ bs.length
  cursor : h.cursor = .ofBit n
  sect : h.sect = s + n
  count : (bs.take n).count true = k
  writes : h.writes = (placement s bs xs).take k
  disk : h.disk = putAll T h.writes

/-- Some sector of the chunk has its place behind the end of the disk. -/
def TooLong (total s : ℕ) (bs : List Bool) : Prop := ∃ q ∈ ones s bs, total ≤ q

/-- The end of the disk was passed, after the first sectors of the chunk were written. -/
structure PastEnd (total s : ℕ) (bs : List Bool) (xs : List Sector) (h : DiskHead) : Prop where
  sect : total ≤ h.sect
  tooLong : TooLong total s bs
  writes : ∃ k, h.writes = (placement s bs xs).take k

section Step

variable {s total : ℕ} {bs : List Bool} {xs : List Sector} {T : ℕ → Sector}

/-- The place of the sector of a set bit. -/
theorem getElem?_placement {n k : ℕ} {x : Sector} (hbit : bs[n]? = some true)
    (hk : (bs.take n).count true = k) (hx : xs[k]? = some x) :
    (placement s bs xs)[k]? = some (s + n, x) := by
  obtain ⟨hsplit, hlen⟩ := eq_append_of_getElem? hbit
  have hq : (ones s bs)[k]? = some (s + n) := by
    have h := getElem?_ones_append s (bs.take n) (bs.drop (n + 1))
    rwa [← hsplit, hk, hlen] at h
  unfold placement
  rw [List.getElem?_zip_eq_some]
  exact ⟨hq, hx⟩

theorem count_take_add {n j : ℕ} {b : Bool} {rest : List Bool}
    (h : bs.drop n = List.replicate j b ++ rest) :
    (bs.take (n + j)).count true = (bs.take n).count true + if b then j else 0 := by
  rw [List.take_add, h, List.take_left' List.length_replicate, List.count_append, List.count_replicate]
  cases b <;> rfl

theorem drop_add_of_replicate {n j : ℕ} {b : Bool} {rest : List Bool}
    (h : bs.drop n = List.replicate j b ++ rest) : bs.drop (n + j) = rest := by
  rw [← List.drop_drop, h, List.drop_left' List.length_replicate]

theorem getElem?_of_replicate {n j i : ℕ} {b : Bool} {rest : List Bool}
    (h : bs.drop n = List.replicate j b ++ rest) (hi : i < j) : bs[n + i]? = some b := by
  have h1 := congrArg (fun l => l[i]?) h
  simp only [List.getElem?_drop] at h1
  rw [h1, List.getElem?_append_left (by simpa using hi), List.getElem?_replicate, if_pos hi]

variable {alloc buffer : Bytes} {more : List Bool} (hal : bits alloc = bs ++ more) (hmore : more ≠ [])
  {k N : ℕ} (hxs : xs.length = bs.count true)
  (hbuf : ∀ j < N, xs[k + j]? = some (Sector.ofMem buffer (512 * j)))

variable (total) in
include hal hmore hxs hbuf in
/-- **One turn of the loop**, in step with the table. -/
theorem writeRun_spec {i n : ℕ} {h : DiskHead} (hi : i < N)
    (hstep : InStep s bs xs T n (k + i) h) :
    ∃ r, writeRun total alloc buffer N i h = some r ∧ i < r.1 ∧
      ((r.1 ≤ N ∧ ∃ n', InStep s bs xs T n' (k + r.1) r.2) ∨ PastEnd total s bs xs r.2) := by
  have hlen : k + N ≤ bs.count true := by
    have := (List.getElem?_eq_some_iff.mp (hbuf (N - 1) (by omega))).1
    omega
  have hcount : (bs.take n).count true + (bs.drop n).count true = bs.count true := by
    rw [← List.count_append, List.take_append_drop]
  rw [hstep.count] at hcount
  obtain ⟨j, rest, hj⟩ := exists_first_true (show 0 < (bs.drop n).count true by omega)
  have hcj : (bs.take (n + j)).count true = k + i := by
    rw [count_take_add hj, hstep.count]; rfl
  have hdj : bs.drop (n + j) = true :: rest := drop_add_of_replicate hj
  have hjlen : n + j < bs.length := by
    by_contra hge
    rw [List.drop_of_length_le (by omega)] at hdj
    cases hdj
  have hskip : skipFree alloc (8 * alloc.length + 1) h.sect h.cursor =
      some (s + (n + j), .ofBit (n + j)) := by
    have hbits : (bits alloc).length = bs.length + more.length := by rw [hal, List.length_append]
    rw [length_bits] at hbits
    rw [hstep.sect, hstep.cursor, skipFree_spec hal j hj (by omega), Nat.add_assoc]
  have hroom : N - i ≤ (bs.drop (n + j)).count true := by
    have h2 : (bs.take (n + j)).count true + (bs.drop (n + j)).count true = bs.count true := by
      rw [← List.count_append, List.take_append_drop]
    omega
  obtain ⟨nb, rest', hrun, hle, hrep, hpos⟩ := countRun_spec hal hmore (N - i) hroom hjlen.le
  have hnb : 0 < nb := hpos (by omega) (by rw [hdj]; rfl)
  -- the sectors of the run are the next ones of the list
  have hnext : ∀ l < nb, (placement s bs xs)[k + i + l]? =
      some (s + (n + j) + l, Sector.ofMem buffer (512 * (i + l))) := by
    intro l hl
    rw [Nat.add_assoc s]
    refine getElem?_placement (getElem?_of_replicate hrep hl) ?_ ?_
    · have htake : bs.drop (n + j) = List.replicate l true ++ (List.replicate (nb - l) true ++ rest') := by
        rw [hrep, ← List.append_assoc, ← List.replicate_add, Nat.add_sub_cancel' hl.le]
      rw [count_take_add htake, hcj]; rfl
    · rw [Nat.add_assoc k i l]; exact hbuf (i + l) (by omega)
  have hwrites : ∀ l ≤ nb, h.writes ++ biosdiskWrite buffer (s + (n + j)) l i =
      (placement s bs xs).take (k + i + l) := by
    intro l hl
    rw [hstep.writes, take_add_of_getElem?
      (f := fun l => (s + (n + j) + l, Sector.ofMem buffer (512 * (i + l))))
      fun l' hl' => hnext l' (by omega)]
    rfl
  have hmem : ∀ l < nb, s + (n + j) + l ∈ ones s bs := by
    intro l hl
    have h1 := List.mem_of_getElem? (hnext l hl)
    exact (List.of_mem_zip h1).1
  unfold writeRun
  rw [hskip]
  simp only [Option.bind_eq_bind, Option.bind_some, hrun]
  by_cases hlt : s + (n + j) < total
  · rw [if_pos hlt]
    by_cases hend : total < s + (n + j) + nb
    · -- the run reaches over the end of the disk
      rw [if_pos hend]
      refine ⟨_, rfl, by show i < i + _; omega,
        .inr ⟨?_, ⟨_, hmem (total - (s + (n + j))) (by omega), ?_⟩, ?_⟩⟩
      · show total ≤ _ + _; omega
      · omega
      · exact ⟨_, hwrites (total - (s + (n + j))) (by omega)⟩
    · rw [if_neg hend]
      refine ⟨_, rfl, by show i < i + _; omega, .inl ⟨by show i + nb ≤ N; omega, n + j + nb, ?_⟩⟩
      refine ⟨?_, rfl, by show _ + _ = _; omega, ?_, ?_, ?_⟩
      · have h3 := congrArg List.length hrep
        rw [List.length_drop, List.length_append, List.length_replicate] at h3
        omega
      · rw [count_take_add hrep, hcj, Nat.add_assoc]; rfl
      · show h.writes ++ _ = _
        rw [hwrites nb le_rfl, Nat.add_assoc]
      · show putAll h.disk _ = putAll T (h.writes ++ _)
        rw [hstep.disk, putAll, putAll, putAll, List.foldl_append]
  · rw [if_neg hlt]
    refine ⟨_, rfl, by show i < i + _; omega,
      .inr ⟨by show total ≤ _ + _; omega, ⟨_, hmem 0 hnb, by omega⟩, ?_⟩⟩
    exact ⟨_, hstep.writes⟩

/-- Past the end of the disk nothing is written any more. -/
theorem PastEnd.writeRun {i : ℕ} {h : DiskHead} {r : ℕ × DiskHead} (hp : PastEnd total s bs xs h)
    (hr : writeRun total alloc buffer N i h = some r) : PastEnd total s bs xs r.2 := by
  unfold LinboxRescue.writeRun at hr
  obtain ⟨free, hfree, hr⟩ := Option.bind_eq_some_iff.mp hr
  obtain ⟨run, -, hr⟩ := Option.bind_eq_some_iff.mp hr
  have hle := skipFree_le _ hfree
  have hsect := hp.sect
  simp only at hr
  rw [if_neg (by omega)] at hr
  cases hr
  exact ⟨by show total ≤ _ + _; omega, hp.tooLong, hp.writes⟩

theorem PastEnd.writeRuns {steps : ℕ} : ∀ {i : ℕ} {h h' : DiskHead}, PastEnd total s bs xs h →
    writeRuns total alloc buffer N steps i h = .ok h' → PastEnd total s bs xs h' := by
  induction steps with
  | zero => intro i h h' _ hr; cases hr
  | succ steps ih =>
    intro i h h' hp hr
    rw [LinboxRescue.writeRuns] at hr
    split_ifs at hr
    · split at hr
      · cases hr
      · next r hrun => exact ih (hp.writeRun hrun) hr
    · cases hr; exact hp

variable (total) in
include hal hmore hxs hbuf in
/-- **The loop over a buffer**: all its sectors are written, unless the disk is too short. -/
theorem writeRuns_spec {steps : ℕ} : ∀ {i n : ℕ} {h : DiskHead}, i ≤ N → N - i < steps →
    InStep s bs xs T n (k + i) h →
    (∃ h' n', writeRuns total alloc buffer N steps i h = .ok h' ∧ InStep s bs xs T n' (k + N) h') ∨
    (TooLong total s bs ∧ ∀ h', writeRuns total alloc buffer N steps i h = .ok h' →
      PastEnd total s bs xs h') := by
  induction steps with
  | zero => intro i n h _ hs; omega
  | succ steps ih =>
    intro i n h hi hs hstep
    rw [writeRuns]
    split_ifs with hlt
    · obtain ⟨r, hr, hadv, hcase⟩ := writeRun_spec total hal hmore hxs hbuf hlt hstep
      simp only [hr]
      rcases hcase with ⟨hle, n', hstep'⟩ | hpast
      · exact ih hle (by omega) hstep'
      · exact .inr ⟨hpast.tooLong, fun h' hr' => hpast.writeRuns hr'⟩
    · rw [show i = N by omega] at hstep
      exact .inl ⟨h, n, rfl, hstep⟩

end Step

end LinboxRescue
