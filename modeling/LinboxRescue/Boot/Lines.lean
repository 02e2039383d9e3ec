import LinboxRescue.Boot.Menu

/-!
# Lines of a configuration file that is put together

1. `lineStep`: one byte of `get_line_from_config`.
2. `configLines_eq`: the lines that `cmain` reads one by one, as one pass through the file.
3. `configLines_append`: an empty line ends whatever stands before it, also a comment or a line that a
   backslash continues. So the lines of texts that end with one are the lines of each text.
4. `configLines_line`: without a backslash, one newline is enough.
-/

namespace LinboxRescue

/-- What a byte does to the line, the backslash and the comment: `none` if it ends the line. -/
def lineStep (maxlen : ℕ) (c : UInt8) (cmdline : Bytes) (literal comment : Bool) :
    Option (Bytes × Bool × Bool) :=
  if c = 92 ∧ literal = false then some (cmdline, true, comment)
  else if c = 13 then some (cmdline, literal, comment)
  else
    let c := if c = 9 ∨ (literal = true ∧ c = 10) then 32 else c
    if comment then some (cmdline, false, c ≠ 10)
    else if cmdline = [] then
      if c = 35 then some (cmdline, false, true)
      else if c ≠ 32 ∧ c ≠ 10 then some ([c], false, false)
      else some (cmdline, false, false)
    else if c = 10 then none
    else if cmdline.length < maxlen then some (cmdline ++ [c], false, false)
    else some (cmdline, false, false)

variable {maxlen : ℕ}

theorem getLine_cons (c : UInt8) (t cmdline : Bytes) (literal comment : Bool) :
    getLine maxlen (c :: t) cmdline literal comment =
      match lineStep maxlen c cmdline literal comment with
      | none => (cmdline, t)
      | some s => getLine maxlen t s.1 s.2.1 s.2.2 := by
  rw [getLine]
  unfold lineStep
  dsimp only
  generalize (if c = 9 ∨ literal = true ∧ c = 10 then 32 else c) = d
  split_ifs <;> rfl

/-- Only a line that has begun can end. -/
theorem ne_nil_of_lineStep {c : UInt8} {cmdline : Bytes} {literal comment : Bool}
    (h : lineStep maxlen c cmdline literal comment = none) : cmdline ≠ [] := by
  rintro rfl
  unfold lineStep at h
  dsimp only at h
  rw [if_pos (rfl : ([] : Bytes) = [])] at h
  split_ifs at h

/-- The lines from a place in the middle of one. -/
def scanLines (maxlen : ℕ) : Bytes → Bytes → Bool → Bool → List Bytes
  | [], cmdline, _, _ => if cmdline = [] then [] else [cmdline]
  | c :: t, cmdline, literal, comment =>
    match lineStep maxlen c cmdline literal comment with
    | none => cmdline :: scanLines maxlen t [] false false
    | some s => scanLines maxlen t s.1 s.2.1 s.2.2

/-- `get_line_from_config` gives the first of them. -/
theorem scanLines_getLine (t cmdline : Bytes) (literal comment : Bool) :
    scanLines maxlen t cmdline literal comment =
      if (getLine maxlen t cmdline literal comment).1 = [] then []
      else (getLine maxlen t cmdline literal comment).1 ::
        scanLines maxlen (getLine maxlen t cmdline literal comment).2 [] false false := by
  induction t generalizing cmdline literal comment with
  | nil =>
    rw [scanLines, getLine]
    rfl
  | cons c t ih =>
    rw [scanLines, getLine_cons]
    cases h : lineStep maxlen c cmdline literal comment with
    | none => exact (if_neg (ne_nil_of_lineStep h)).symm
    | some s => exact ih s.1 s.2.1 s.2.2

/-- A line takes at least one byte. -/
theorem length_getLine (t cmdline : Bytes) (literal comment : Bool) :
    (getLine maxlen t cmdline literal comment).2.length ≤ t.length - 1 := by
  induction t generalizing cmdline literal comment with
  | nil => rw [getLine]; exact Nat.le_refl 0
  | cons c t ih =>
    rw [getLine_cons]
    cases lineStep maxlen c cmdline literal comment with
    | none => exact Nat.le_refl _
    | some s =>
      have := ih s.1 s.2.1 s.2.2
      rw [List.length_cons]
      exact this.trans (by omega)

theorem configLinesAux_eq (fuel : ℕ) (t : Bytes) (h : t.length < fuel) :
    configLinesAux fuel t = (scanLines 1500 t [] false false).map cstr := by
  induction fuel generalizing t with
  | zero => exact absurd h (Nat.not_lt_zero _)
  | succ fuel ih =>
    rw [configLinesAux, scanLines_getLine]
    split_ifs with hr
    · rfl
    · have hlen : (getLine 1500 t [] false false).2.length < fuel := by
        have := @length_getLine 1500 t [] false false
        cases t with
        | nil => exact absurd rfl hr
        | cons c t =>
          simp only [List.length_cons] at *
          omega
      rw [List.map_cons, ih _ hlen]

/-- **The lines of a file** in one pass. -/
theorem configLines_eq (t : Bytes) : configLines t = (scanLines 1500 t [] false false).map cstr :=
  configLinesAux_eq _ t (Nat.lt_succ_self _)

/-! ## Texts one after the other -/

/-- A comment stands between lines. -/
theorem lineStep_comment {c : UInt8} {cmdline : Bytes} {literal comment : Bool}
    (hinv : comment = true → cmdline = []) {s : Bytes × Bool × Bool}
    (h : lineStep maxlen c cmdline literal comment = some s) : s.2.2 = true → s.1 = [] := by
  have hplain : ∀ line : Bytes, (false : Bool) = true → line = [] :=
    fun _ hf => absurd hf Bool.false_ne_true
  unfold lineStep at h
  dsimp only at h
  -- which byte a tabulator or a continued newline becomes does not matter
  generalize (if c = 9 ∨ literal = true ∧ c = 10 then 32 else c) = d at h
  split_ifs at h with hslash hreturn hcom hnil hhash hfirst hnewline hroom
  · exact Option.some.inj h ▸ hinv
  · exact Option.some.inj h ▸ hinv
  · exact Option.some.inj h ▸ fun _ => hinv hcom
  · exact Option.some.inj h ▸ fun _ => hnil
  · exact Option.some.inj h ▸ hplain _
  · exact Option.some.inj h ▸ hplain _
  · exact Option.some.inj h ▸ hplain _
  · exact Option.some.inj h ▸ hplain _

/-- A newline that no backslash stands before ends the line. -/
theorem scanLines_newline (t : Bytes) {cmdline : Bytes} {comment : Bool}
    (hinv : comment = true → cmdline = []) :
    scanLines maxlen (10 :: t) cmdline false comment =
      (if cmdline = [] then [] else [cmdline]) ++ scanLines maxlen t [] false false := by
  rw [scanLines]
  by_cases hc : cmdline = []
  · have h10 : lineStep maxlen 10 cmdline false comment = some ([], false, false) := by
      unfold lineStep
      cases comment <;> simp [hc]
    rw [h10, if_pos hc]
    rfl
  · have hcom : comment = false := by
      rw [Bool.eq_false_iff]
      exact fun h => hc (hinv h)
    have h10 : lineStep maxlen 10 cmdline false comment = none := by
      unfold lineStep
      simp [hc, hcom]
    rw [h10, if_neg hc]
    rfl

/-- After a backslash it does not, but the next one does. -/
theorem scanLines_newlines (t : Bytes) {cmdline : Bytes} {literal comment : Bool}
    (hinv : comment = true → cmdline = []) :
    scanLines maxlen (10 :: 10 :: t) cmdline literal comment =
      scanLines maxlen [10, 10] cmdline literal comment ++ scanLines maxlen t [] false false := by
  cases literal with
  | false =>
    have hnil : (false : Bool) = true → ([] : Bytes) = [] := fun _ => rfl
    rw [scanLines_newline _ hinv, scanLines_newline _ hnil, scanLines_newline _ hinv,
      scanLines_newline _ hnil]
    simp [scanLines]
  | true =>
    have hstep : ∃ cmdline' comment', lineStep maxlen 10 cmdline true comment =
        some (cmdline', false, comment') := by
      have hblank : ((10 : UInt8) = 9 ∨ (true : Bool) = true ∧ (10 : UInt8) = 10) := by decide
      unfold lineStep
      rw [if_neg (by decide), if_neg (by decide)]
      dsimp only
      rw [if_pos hblank]
      -- the newline counts as a blank, which ends nothing
      cases comment with
      | true => exact ⟨_, _, if_pos rfl⟩
      | false =>
        rw [if_neg Bool.false_ne_true, if_neg (show ¬(32 : UInt8) = 10 by decide),
          if_neg (show ¬(32 : UInt8) = 35 by decide),
          if_neg (show ¬((32 : UInt8) ≠ 32 ∧ (32 : UInt8) ≠ 10) by decide)]
        split_ifs
        · exact ⟨_, _, rfl⟩
        · exact ⟨_, _, rfl⟩
        · exact ⟨_, _, rfl⟩
    obtain ⟨cmdline', comment', h10⟩ := hstep
    have hinv' := lineStep_comment hinv h10
    rw [scanLines, h10]
    dsimp only
    rw [scanLines_newline _ hinv']
    rw [scanLines, h10]
    dsimp only
    rw [scanLines_newline _ hinv', List.append_assoc]
    simp [scanLines]

theorem scanLines_append (v u : Bytes) {cmdline : Bytes} {literal comment : Bool}
    (hinv : comment = true → cmdline = []) :
    scanLines maxlen (v ++ 10 :: 10 :: u) cmdline literal comment =
      scanLines maxlen (v ++ [10, 10]) cmdline literal comment ++ scanLines maxlen u [] false false := by
  induction v generalizing cmdline literal comment with
  | nil => exact scanLines_newlines u hinv
  | cons c v ih =>
    rw [List.cons_append, List.cons_append, scanLines, scanLines]
    cases h : lineStep maxlen c cmdline literal comment with
    | none =>
      dsimp only
      rw [ih fun _ => rfl]
      rfl
    | some s => exact ih (lineStep_comment hinv h)

/-- **An empty line** separates texts. -/
theorem configLines_append {t : Bytes} (ht : ∃ v, t = v ++ [10, 10]) (u : Bytes) :
    configLines (t ++ u) = configLines t ++ configLines u := by
  obtain ⟨v, rfl⟩ := ht
  have hnil : (false : Bool) = true → ([] : Bytes) = [] := fun _ => rfl
  rw [configLines_eq, configLines_eq, configLines_eq, List.append_assoc, ← List.map_append]
  exact congrArg _ (scanLines_append v u hnil)

theorem scanLines_line {v : Bytes} (hv : 92 ∉ v) (u : Bytes) {cmdline : Bytes} {comment : Bool}
    (hinv : comment = true → cmdline = []) :
    scanLines maxlen (v ++ 10 :: u) cmdline false comment =
      scanLines maxlen (v ++ [10]) cmdline false comment ++ scanLines maxlen u [] false false := by
  induction v generalizing cmdline comment with
  | nil =>
    rw [List.nil_append, List.nil_append, scanLines_newline _ hinv, scanLines_newline _ hinv,
      List.append_assoc]
    simp [scanLines]
  | cons c v ih =>
    rw [List.mem_cons, not_or] at hv
    rw [List.cons_append, List.cons_append, scanLines, scanLines]
    cases h : lineStep maxlen c cmdline false comment with
    | none =>
      dsimp only
      rw [ih hv.2 fun _ => rfl]
      rfl
    | some s =>
      have hlit : s.2.1 = false := by
        unfold lineStep at h
        dsimp only at h
        rw [if_neg fun hc => hv.1 hc.1.symm] at h
        split_ifs at h <;> obtain rfl := Option.some.inj h <;> rfl
      dsimp only
      rw [hlit]
      exact ih hv.2 (lineStep_comment hinv h)

/-- Without a backslash, a newline does. -/
theorem configLines_line {v : Bytes} (hv : 92 ∉ v) (u : Bytes) :
    configLines (v ++ 10 :: u) = configLines (v ++ [10]) ++ configLines u := by
  have hnil : (false : Bool) = true → ([] : Bytes) = [] := fun _ => rfl
  rw [configLines_eq, configLines_eq, configLines_eq, ← List.map_append]
  exact congrArg _ (scanLines_line hv u hnil)

end LinboxRescue
