import LinboxRescue.Lib.Bytes

/-!
# Reading a text with `fgets`

`fgets(buf, n, f)` reads up to the end of the line, but at most `n - 1` bytes. `feofLoop` is the loop

    while (!feof(f)) { fgets(buf, n, f); body }

whose last turn finds the buffer as the turn before left it, unless the text ends in the middle of a
line: `feof` only holds once a read has run into the end. `readLoop_lines` says so for a text of
whole lines.
-/

namespace LinboxRescue

/-- What `fgets(buf, n, f)` reads of a text. -/
def fgets : ℕ → Bytes → Bytes
  | 0, _ | 1, _ | _, [] => []
  | n + 2, b :: t => if b = 10 then [b] else b :: fgets (n + 1) t

/-- The read has stopped before the end of the file was noticed. -/
def stopsShort (n : ℕ) (l : Bytes) : Bool := l.getLast? == some 10 || l.length == n - 1

/-- The lines read by `while (fgets(buf, n, f))`. -/
def fgetsAll (n : ℕ) : ℕ → Bytes → List Bytes
  | 0, _ => []
  | fuel + 1, t => if fgets n t = [] then [] else fgets n t :: fgetsAll n fuel (t.drop (fgets n t).length)

/-- Every read but the last one takes a byte at least. -/
def lines (n : ℕ) (t : Bytes) : List Bytes := fgetsAll n (t.length + 1) t

section Loop

variable {σ : Type} (n : ℕ) (body : σ → Bytes → σ × Bytes)

/-- The loop on the text `t`, with `buf` in the buffer; the body may change the buffer. -/
def feofLoop : ℕ → σ → Bytes → Bytes → σ
  | 0, s, _, _ => s
  | fuel + 1, s, buf, t =>
    if t = [] then (body s buf).1
    else
      let l := fgets n t
      let r := body s l
      if t.length = l.length ∧ stopsShort n l = false then r.1
      else feofLoop fuel r.1 r.2 (t.drop l.length)

/-- Every turn reads a byte at least. -/
def readLoop (s : σ) (buf t : Bytes) : σ := feofLoop n body (t.length + 1) s buf t

end Loop

/-- A line of less than `n` bytes. -/
structure IsLine (n : ℕ) (l : Bytes) : Prop where
  ends : ∃ w, l = w ++ [10] ∧ ∀ b ∈ w, b ≠ 10
  short : l.length < n

theorem isLine_append {n : ℕ} {w : Bytes} (hw : ∀ b ∈ w, b ≠ 10) (hn : w.length + 1 < n) :
    IsLine n (w ++ [10]) :=
  ⟨⟨w, rfl, hw⟩, by rwa [List.length_append]⟩

theorem fgets_append {n : ℕ} {w : Bytes} (hw : ∀ b ∈ w, b ≠ 10) (t : Bytes) :
    (w ++ [10]).length < n → fgets n (w ++ 10 :: t) = w ++ [10] := by
  induction w generalizing n with
  | nil =>
    intro hn
    obtain ⟨k, rfl⟩ : ∃ k, n = k + 2 := ⟨n - 2, by simp at hn; omega⟩
    rw [List.nil_append, fgets, if_pos rfl]
    rfl
  | cons b w ih =>
    intro hn
    rw [List.forall_mem_cons] at hw
    obtain ⟨k, rfl⟩ : ∃ k, n = k + 2 := ⟨n - 2, by simp at hn; omega⟩
    rw [List.cons_append, fgets, if_neg hw.1, ih hw.2 (by simp at hn ⊢; omega)]
    rfl

/-- A read reaches beyond what comes before the end of the line. -/
theorem fgets_beyond {n : ℕ} {u : Bytes} (hu : ∀ b ∈ u, b ≠ 10) (c : UInt8) (t : Bytes) :
    u.length + 1 < n → ∃ r, fgets n (u ++ c :: t) = u ++ c :: r := by
  induction u generalizing n with
  | nil =>
    intro hn
    obtain ⟨k, rfl⟩ : ∃ k, n = k + 2 := ⟨n - 2, by simp at hn; omega⟩
    rw [List.nil_append, fgets]
    split_ifs
    · exact ⟨[], rfl⟩
    · exact ⟨_, rfl⟩
  | cons b u ih =>
    intro hn
    rw [List.forall_mem_cons] at hu
    obtain ⟨k, rfl⟩ : ∃ k, n = k + 2 := ⟨n - 2, by simp at hn; omega⟩
    obtain ⟨r, hr⟩ := @ih (k + 1) hu.2 (by simp at hn; omega)
    exact ⟨r, by rw [List.cons_append, fgets, if_neg hu.1, hr]; rfl⟩

theorem IsLine.fgets {n : ℕ} {l : Bytes} (h : IsLine n l) (t : Bytes) : fgets n (l ++ t) = l := by
  obtain ⟨⟨w, rfl, hw⟩, hn⟩ := h
  rw [List.append_assoc]
  exact fgets_append hw t hn

theorem IsLine.stopsShort {n : ℕ} {l : Bytes} (h : IsLine n l) : stopsShort n l = true := by
  obtain ⟨⟨w, rfl, -⟩, -⟩ := h
  simp [LinboxRescue.stopsShort]

theorem IsLine.ne_nil {n : ℕ} {l : Bytes} (h : IsLine n l) : l ≠ [] := by
  obtain ⟨⟨w, rfl, -⟩, -⟩ := h
  simp

/-- What one call reads, whatever follows: a line, or all that the buffer has room for. -/
structure IsRead (n : ℕ) (l : Bytes) : Prop where
  fgets : ∀ t, fgets n (l ++ t) = l
  ne_nil : l ≠ []

theorem IsLine.isRead {n : ℕ} {l : Bytes} (h : IsLine n l) : IsRead n l := ⟨h.fgets, h.ne_nil⟩

theorem isRead_full {w : Bytes} (hw : ∀ b ∈ w, b ≠ 10) (hne : w ≠ []) : IsRead (w.length + 1) w := by
  refine ⟨fun t => ?_, hne⟩
  clear hne
  induction w with
  | nil => rfl
  | cons b w ih =>
    obtain ⟨hb, hw⟩ := List.forall_mem_cons.mp hw
    rw [List.cons_append, List.length_cons, LinboxRescue.fgets, if_neg hb, ih hw]

theorem fgetsAll_reads {n : ℕ} {ls : List Bytes} (h : ∀ l ∈ ls, IsRead n l) :
    ∀ fuel, ls.length < fuel → fgetsAll n fuel ls.flatten = ls := by
  induction ls with
  | nil =>
    rintro (_ | fuel) hf
    · cases hf
    · cases n with
      | zero => rfl
      | succ n => cases n <;> rfl
  | cons l ls ih =>
    rw [List.forall_mem_cons] at h
    rintro (_ | fuel) hf
    · cases hf
    rw [List.flatten_cons, fgetsAll, h.1.fgets, if_neg h.1.ne_nil, List.drop_left,
      ih h.2 fuel (Nat.lt_of_succ_lt_succ hf)]

theorem length_le_flatten {ls : List Bytes} (h : ∀ l ∈ ls, l ≠ []) : ls.length ≤ ls.flatten.length := by
  induction ls with
  | nil => exact le_rfl
  | cons l ls ih =>
    rw [List.forall_mem_cons] at h
    have := List.length_pos_iff.mpr h.1
    have := ih h.2
    rw [List.flatten_cons, List.length_append, List.length_cons]
    omega

theorem lines_reads {n : ℕ} {ls : List Bytes} (h : ∀ l ∈ ls, IsRead n l) : lines n ls.flatten = ls :=
  fgetsAll_reads h _ (Nat.lt_succ_of_le (length_le_flatten fun l hl => (h l hl).ne_nil))

theorem lines_flatten {n : ℕ} {ls : List Bytes} (h : ∀ l ∈ ls, IsLine n l) :
    lines n ls.flatten = ls :=
  lines_reads fun l hl => (h l hl).isRead

theorem length_fgets_lt {n : ℕ} (hn : 0 < n) (t : Bytes) : (fgets n t).length < n := by
  induction t generalizing n with
  | nil => cases n with
    | zero => omega
    | succ n => cases n <;> simp [fgets]
  | cons b t ih =>
    match n with
    | 1 => simp [fgets]
    | n + 2 =>
      rw [fgets]
      split_ifs
      · simp
      · have := @ih (n + 1) (by omega)
        rw [List.length_cons]
        omega

theorem length_lt_of_mem_lines {n : ℕ} (hn : 0 < n) {t l : Bytes} (h : l ∈ lines n t) :
    l.length < n := by
  unfold lines at h
  generalize t.length + 1 = fuel at h
  induction fuel generalizing t with
  | zero => cases h
  | succ fuel ih =>
    rw [fgetsAll] at h
    split_ifs at h
    · cases h
    · rcases List.mem_cons.mp h with rfl | h
      · exact length_fgets_lt hn t
      · exact ih h

section Lines

variable {σ : Type} {n : ℕ} {body : σ → Bytes → σ × Bytes}

theorem feofLoop_line {l : Bytes} (h : IsLine n l) (fuel : ℕ) (s : σ) (buf t : Bytes) :
    feofLoop n body (fuel + 1) s buf (l ++ t) = feofLoop n body fuel (body s l).1 (body s l).2 t := by
  have hne : l ++ t ≠ [] := by simp [h.ne_nil]
  rw [feofLoop, if_neg hne, h.fgets t, if_neg (by simp [h.stopsShort]), List.drop_left]

theorem length_fgets_pos (hn : 1 < n) {t : Bytes} (ht : t ≠ []) : 0 < (fgets n t).length := by
  obtain ⟨k, rfl⟩ : ∃ k, n = k + 2 := ⟨n - 2, by omega⟩
  obtain ⟨b, t, rfl⟩ := List.exists_cons_of_ne_nil ht
  rw [fgets]
  split_ifs <;> simp

theorem fgets_nil (n : ℕ) : fgets n [] = [] := by
  rcases n with _ | _ | n <;> rfl

theorem fgetsAll_fuel : ∀ (fuel fuel' : ℕ) (t : Bytes), t.length < fuel → t.length < fuel' →
    fgetsAll n fuel t = fgetsAll n fuel' t := by
  intro fuel
  induction fuel with
  | zero => intro _ _ h; omega
  | succ fuel ih =>
    rintro (_ | fuel') t h h'
    · omega
    rw [fgetsAll, fgetsAll]
    split_ifs with hnil
    · rfl
    · have := List.length_pos_iff.mpr hnil
      have : 0 < t.length := List.length_pos_iff.mpr fun ht => hnil (by rw [ht, fgets_nil])
      rw [ih fuel' _ (by rw [List.length_drop]; omega) (by rw [List.length_drop]; omega)]

/-- The first line, and the others. -/
theorem lines_eq_cons (hn : 1 < n) {t : Bytes} (ht : t ≠ []) :
    lines n t = fgets n t :: lines n (t.drop (fgets n t).length) := by
  have hpos := length_fgets_pos hn ht
  have hlen := List.length_pos_iff.mpr ht
  unfold lines
  rw [fgetsAll, if_neg (List.length_pos_iff.mp hpos)]
  congr 1
  exact fgetsAll_fuel _ _ _ (by rw [List.length_drop]; omega) (by omega)

/-- More fuel than there are bytes makes no difference. -/
theorem feofLoop_fuel (hn : 1 < n) : ∀ (fuel fuel' : ℕ) (s : σ) (buf t : Bytes), t.length < fuel →
    t.length < fuel' → feofLoop n body fuel s buf t = feofLoop n body fuel' s buf t := by
  intro fuel
  induction fuel with
  | zero => intro _ _ _ _ h; omega
  | succ fuel ih =>
    rintro (_ | fuel') s buf t h h'
    · omega
    rw [feofLoop, feofLoop]
    split_ifs with ht
    · rfl
    · dsimp only
      split_ifs
      · rfl
      · have := length_fgets_pos hn ht
        have := List.length_pos_iff.mpr ht
        exact ih _ _ _ _ (by rw [List.length_drop]; omega) (by rw [List.length_drop]; omega)

theorem readLoop_line (hn : 1 < n) {l : Bytes} (h : IsLine n l) (s : σ) (buf t : Bytes) :
    readLoop n body s buf (l ++ t) = readLoop n body (body s l).1 (body s l).2 t := by
  have := List.length_pos_iff.mpr h.ne_nil
  unfold readLoop
  rw [feofLoop_line h]
  exact feofLoop_fuel hn _ _ _ _ _ (by rw [List.length_append]; omega) (by omega)

theorem readLoop_nil (s : σ) (buf : Bytes) : readLoop n body s buf [] = (body s buf).1 := rfl

/-- The turns of the loop on whole lines. -/
def turns (body : σ → Bytes → σ × Bytes) (r : σ × Bytes) (ls : List Bytes) : σ × Bytes :=
  ls.foldl (fun r l => body r.1 l) r

theorem readLoop_append (hn : 1 < n) {ls : List Bytes} (h : ∀ l ∈ ls, IsLine n l) (s : σ)
    (buf t : Bytes) : readLoop n body s buf (ls.flatten ++ t) =
      readLoop n body (turns body (s, buf) ls).1 (turns body (s, buf) ls).2 t := by
  induction ls generalizing s buf with
  | nil => rfl
  | cons l ls ih =>
    rw [List.forall_mem_cons] at h
    rw [List.flatten_cons, List.append_assoc, readLoop_line hn h.1, ih h.2]
    rfl

/-- A text of whole lines: after the last one its buffer is dealt with once more. -/
theorem readLoop_lines (hn : 1 < n) {ls : List Bytes} (h : ∀ l ∈ ls, IsLine n l) (s : σ)
    (buf : Bytes) : readLoop n body s buf ls.flatten =
      (body (turns body (s, buf) ls).1 (turns body (s, buf) ls).2).1 := by
  have := @readLoop_append σ n body hn ls h s buf []
  rwa [List.append_nil, readLoop_nil] at this

/-- What every turn keeps, the loop keeps. -/
theorem feofLoop_invariant {P : σ → Prop} (hP : ∀ s l, P s → P (body s l).1) (fuel : ℕ) {s : σ}
    (hs : P s) (buf t : Bytes) : P (feofLoop n body fuel s buf t) := by
  induction fuel generalizing s buf t with
  | zero => exact hs
  | succ fuel ih =>
    rw [feofLoop]
    split_ifs
    · exact hP s buf hs
    · dsimp only
      split_ifs
      · exact hP s _ hs
      · exact ih (hP s _ hs) _ _

/-- What the first turn makes true and every turn keeps. -/
theorem readLoop_first {P : σ → Prop} (hP : ∀ s l, P s → P (body s l).1) {s : σ} {t : Bytes}
    (ht : t ≠ []) (h : P (body s (fgets n t)).1) (buf : Bytes) : P (readLoop n body s buf t) := by
  rw [readLoop, feofLoop, if_neg ht]
  dsimp only
  split_ifs
  · exact h
  · exact feofLoop_invariant hP _ h _ _

end Lines

end LinboxRescue
