import LinboxRescue.Lib.CString
import Mathlib.Data.List.DropRight

/-!
# Lines and fields of text, as the scripts read them

`perlLines` are the lines of `while (<FILE>)` after `chomp`, `perlRawLines` the lines themselves.
`perlSplit` is `split` at blanks into a bounded number of fields, `splitCapture` is `split` at the matches
of a pattern that captures them, `perlTrim` removes the blanks around a text.
-/

namespace LinboxRescue

/-- `[ \t]`. -/
def isBlank (b : UInt8) : Bool := b == 32 || b == 9

/-- `\w`. -/
def isPerlWord (b : UInt8) : Bool :=
  isDigit b || (65 ≤ b.toNat && b.toNat ≤ 90) || (97 ≤ b.toNat && b.toNat ≤ 122) || b == 95

/-- The lines of a file, without their ends. -/
def perlLines : Bytes → List Bytes
  | [] => []
  | b :: t =>
    if b = 10 then [] :: perlLines t
    else match perlLines t with
      | [] => [[b]]
      | l :: ls => (b :: l) :: ls

/-- The lines of a file. The last one may have no newline. -/
def perlRawLines : Bytes → List Bytes
  | [] => []
  | b :: t =>
    if b = 10 then [10] :: perlRawLines t
    else match perlRawLines t with
      | [] => [[b]]
      | l :: ls => (b :: l) :: ls

/-- `split(m/[ \t]+/, $_, n)` of a text that starts with no blank. -/
def perlSplit : ℕ → Bytes → List Bytes
  | 0, s | 1, s => [s]
  | n + 2, s =>
    let r := s.dropWhile fun b => !isBlank b
    if r = [] then [s] else (s.takeWhile fun b => !isBlank b) :: perlSplit (n + 1) (r.dropWhile isBlank)

/-- `s/^[ \t]+//; s/[ \t]+$//`. -/
def perlTrim (s : Bytes) : Bytes := (s.dropWhile isBlank).rdropWhile isBlank

/-- `\s`. -/
def isPerlSpace (b : UInt8) : Bool := b == 32 || b == 9 || b == 10 || b == 12 || b == 13

/-- `split ' ', $s, 2`: the first word, and the rest of the line. -/
def perlSplitSpace (s : Bytes) : Bytes × Bytes :=
  let t := s.dropWhile isPerlSpace
  (t.takeWhile fun b => !isPerlSpace b, (t.dropWhile fun b => !isPerlSpace b).dropWhile isPerlSpace)

/-- The first match of a pattern: what is in front of it, the match, and the rest. `len` is the length
of a match at the start of a text. -/
def findMatch (len : Bytes → Option ℕ) : Bytes → Option (Bytes × Bytes × Bytes)
  | [] => none
  | b :: t =>
    match len (b :: t) with
    | some n => some ([], (b :: t).take n, (b :: t).drop n)
    | none => (findMatch len t).map fun r => (b :: r.1, r.2)

/-- `split(m/(…)/, $s)`: the fields and the matches between them, of which there are at most `n`. -/
def splitCapture (len : Bytes → Option ℕ) : ℕ → Bytes → List Bytes
  | 0, s => [s]
  | n + 1, s =>
    match findMatch len s with
    | none => [s]
    | some (field, m, rest) => field :: m :: splitCapture len n rest

theorem perlLines_line {l : Bytes} (hl : ∀ b ∈ l, b ≠ 10) (t : Bytes) :
    perlLines (l ++ 10 :: t) = l :: perlLines t := by
  induction l with
  | nil => rw [List.nil_append, perlLines, if_pos rfl]
  | cons b l ih =>
    obtain ⟨hb, hl⟩ := List.forall_mem_cons.mp hl
    rw [List.cons_append, perlLines, if_neg hb, ih hl]

/-- The lines of a text of whole lines. -/
theorem perlLines_flatMap {ls : List Bytes} (h : ∀ l ∈ ls, ∀ b ∈ l, b ≠ 10) :
    perlLines (ls.flatMap (· ++ [10])) = ls := by
  induction ls with
  | nil => rfl
  | cons l ls ih =>
    obtain ⟨hl, h⟩ := List.forall_mem_cons.mp h
    rw [List.flatMap_cons, List.append_assoc, List.singleton_append, perlLines_line hl, ih h]

theorem perlRawLines_line {l : Bytes} (hl : 10 ∉ l) (t : Bytes) :
    perlRawLines (l ++ 10 :: t) = (l ++ [10]) :: perlRawLines t := by
  induction l with
  | nil => rw [List.nil_append, perlRawLines, if_pos rfl, List.nil_append]
  | cons b l ih =>
    rw [List.mem_cons, not_or] at hl
    rw [List.cons_append, perlRawLines, if_neg (Ne.symm hl.1), ih hl.2]
    rfl

theorem perlRawLines_flatMap {ls : List Bytes} (h : ∀ l ∈ ls, 10 ∉ l) :
    perlRawLines (ls.flatMap (· ++ [10])) = ls.map (· ++ [10]) := by
  induction ls with
  | nil => rfl
  | cons l ls ih =>
    obtain ⟨hl, h⟩ := List.forall_mem_cons.mp h
    rw [List.flatMap_cons, List.append_assoc, List.singleton_append, perlRawLines_line hl, ih h]
    rfl

section Matches

variable {len : Bytes → Option ℕ}

theorem findMatch_eq_none {s : Bytes} (h : ∀ y, y <:+ s → y ≠ [] → len y = none) :
    findMatch len s = none := by
  induction s with
  | nil => rfl
  | cons b s ih =>
    rw [findMatch, h (b :: s) List.suffix_rfl (List.cons_ne_nil _ _)]
    simp only [ih fun y hy => h y (hy.trans (List.suffix_cons _ _)), Option.map_none]

/-- A text in which no match starts, followed by a match. -/
theorem findMatch_append {f s : Bytes} {n : ℕ} (h : ∀ y, y <:+ f → y ≠ [] → len (y ++ s) = none)
    (hne : s ≠ []) (hs : len s = some n) : findMatch len (f ++ s) = some (f, s.take n, s.drop n) := by
  induction f with
  | nil =>
    obtain ⟨b, t, rfl⟩ := List.exists_cons_of_ne_nil hne
    rw [List.nil_append, findMatch, hs]
  | cons b f ih =>
    have hb : len (b :: (f ++ s)) = none := h (b :: f) List.suffix_rfl (List.cons_ne_nil _ _)
    rw [List.cons_append, findMatch, hb, ih fun y hy => h y (hy.trans (List.suffix_cons _ _))]
    rfl

end Matches

/-- A field that ends at a blank. -/
theorem perlSplit_field {w : Bytes} (hw : ∀ b ∈ w, isBlank b = false) (n : ℕ) {r : Bytes}
    (hr : ∀ b ∈ r.head?, isBlank b = false) :
    perlSplit (n + 2) (w ++ 32 :: r) = w :: perlSplit (n + 1) r := by
  have hw' : ∀ b ∈ w, (!isBlank b) = true := fun b hb => by simp [hw b hb]
  have hstop : ∀ b ∈ (32 :: r).head?, (!isBlank b) = false := by
    intro b hb
    obtain rfl := Option.some.inj hb
    rfl
  have hr' : (32 :: r).dropWhile isBlank = r := by
    rw [List.dropWhile_cons_of_pos rfl]
    cases r with
    | nil => rfl
    | cons c r => exact List.dropWhile_cons_of_neg (by simp [hr c (by simp)])
  rw [perlSplit, dropWhile_append_stop hw' hstop, takeWhile_append_stop hw' hstop]
  rw [if_neg (by simp), hr']

theorem perlTrim_eq_self {s : Bytes} (h1 : ∀ b ∈ s.head?, isBlank b = false)
    (h2 : ∀ b ∈ s.getLast?, isBlank b = false) : perlTrim s = s := by
  unfold perlTrim
  have hd : s.dropWhile isBlank = s := by
    cases s with
    | nil => rfl
    | cons b s => exact List.dropWhile_cons_of_neg (by simp [h1 b (by simp)])
  rw [hd, List.rdropWhile_eq_self_iff]
  intro hne hb
  rw [h2 _ (List.getLast?_eq_some_getLast hne)] at hb
  cases hb

theorem mem_perlLines {l s : Bytes} (h : l ∈ perlLines s) : 10 ∉ l := by
  induction s generalizing l with
  | nil => cases h
  | cons b s ih =>
    rw [perlLines] at h
    split_ifs at h with hb
    · rcases List.mem_cons.mp h with rfl | h
      · exact List.not_mem_nil
      · exact ih h
    · cases hs : perlLines s with
      | nil =>
        rw [hs] at h
        rw [List.mem_singleton.mp h, List.mem_singleton]
        exact fun e => hb e.symm
      | cons l' ls =>
        rw [hs] at h ih
        rcases List.mem_cons.mp h with rfl | h
        · rw [List.mem_cons, not_or]
          exact ⟨fun e => hb e.symm, ih List.mem_cons_self⟩
        · exact ih (List.mem_cons_of_mem l' h)

/-- A field between separators. -/
theorem of_mem_splitOn {x : UInt8} {s c : Bytes} (h : c ∈ s.splitOn x) : x ∉ c ∧ c ⊆ s := by
  induction s generalizing c with
  | nil =>
    rw [List.mem_singleton.mp h]
    exact ⟨List.not_mem_nil, List.Subset.refl _⟩
  | cons b s ih =>
    rw [List.splitOn_cons_eq_if_modifyHead] at h
    by_cases hb : b = x
    · rw [hb, if_pos (beq_self_eq_true x)] at h
      rcases List.mem_cons.mp h with rfl | h
      · exact ⟨List.not_mem_nil, List.nil_subset _⟩
      · exact ⟨(ih h).1, List.subset_cons_of_subset b (ih h).2⟩
    · rw [if_neg (by simpa using hb)] at h
      obtain ⟨d, ds, hd⟩ := List.exists_cons_of_ne_nil (List.splitOn_ne_nil x s)
      rw [hd, List.modifyHead_cons] at h
      rcases List.mem_cons.mp h with rfl | h
      · obtain ⟨h1, h2⟩ := ih (hd ▸ List.mem_cons_self)
        rw [List.mem_cons, not_or]
        exact ⟨⟨fun e => hb e.symm, h1⟩, List.cons_subset_cons b h2⟩
      · obtain ⟨h1, h2⟩ := ih (hd ▸ List.mem_cons_of_mem d h)
        exact ⟨h1, List.subset_cons_of_subset b h2⟩

/-! ## Hashes -/

section Hash

variable {α β : Type*} (key : β → Bytes) (g : α → β)

/-- A hash that is filled line by line, with no key twice. -/
theorem mem_hash (es : List α) (acc : List β)
    (hinj : ∀ x y, (x ∈ acc ∨ ∃ e ∈ es, x = g e) → (y ∈ acc ∨ ∃ e ∈ es, y = g e) → key x = key y → x = y)
    (x : β) : x ∈ es.foldl (fun acc e => acc.filter (fun y => key y ≠ key (g e)) ++ [g e]) acc ↔
      x ∈ acc ∨ ∃ e ∈ es, x = g e := by
  induction es generalizing acc with
  | nil => simp
  | cons e es ih =>
    have hacc : ∀ y, y ∈ acc.filter (fun y => key y ≠ key (g e)) ++ [g e] ↔ y ∈ acc ∨ y = g e := by
      intro y
      rw [List.mem_append, List.mem_filter, List.mem_singleton, decide_eq_true_iff]
      refine ⟨fun h => h.imp_left And.left, fun h => ?_⟩
      by_cases hk : key y = key (g e)
      · refine .inr (h.elim (fun hy => ?_) id)
        exact hinj y (g e) (.inl hy) (.inr ⟨e, List.mem_cons_self, rfl⟩) hk
      · exact h.imp_left fun hy => ⟨hy, hk⟩
    have hsub : ∀ y, (y ∈ acc.filter (fun y => key y ≠ key (g e)) ++ [g e] ∨ ∃ e' ∈ es, y = g e') ↔
        y ∈ acc ∨ ∃ e' ∈ e :: es, y = g e' := by
      intro y
      rw [hacc, or_assoc]
      simp only [List.mem_cons, exists_eq_or_imp]
    rw [List.foldl_cons, ih _ fun a b ha hb => hinj a b ((hsub a).mp ha) ((hsub b).mp hb)]
    exact hsub x

/-- A hash that is filled from entries with different keys has them all, in order. -/
theorem hash_of_nodup {es : List α} (hn : (es.map fun e => key (g e)).Nodup) :
    es.foldl (fun acc e => acc.filter (fun y => key y ≠ key (g e)) ++ [g e]) [] = es.map g := by
  suffices h : ∀ acc : List β, (∀ x ∈ acc, key x ∉ es.map fun e => key (g e)) →
      es.foldl (fun acc e => acc.filter (fun y => key y ≠ key (g e)) ++ [g e]) acc = acc ++ es.map g from
    h [] fun x hx => absurd hx List.not_mem_nil
  induction es with
  | nil => exact fun acc _ => (List.append_nil acc).symm
  | cons e es ih =>
    intro acc hacc
    rw [List.map_cons, List.nodup_cons] at hn
    have hkeep : acc.filter (fun y => key y ≠ key (g e)) = acc :=
      List.filter_eq_self.mpr fun x hx => decide_eq_true fun he => hacc x hx (he ▸ List.mem_cons_self)
    rw [List.foldl_cons, hkeep, ih hn.2, List.append_assoc]
    · rfl
    · intro x hx
      rcases List.mem_append.mp hx with hx | hx
      · exact fun hm => hacc x hx (List.mem_cons_of_mem _ hm)
      · rw [List.mem_singleton.mp hx]
        exact hn.1

/-- No key is there twice, and nothing is there that was not filled in. -/
theorem hash_spec (es : List α) : ∀ acc : List β, (acc.map key).Nodup →
    ((es.foldl (fun acc e => acc.filter (fun y => key y ≠ key (g e)) ++ [g e]) acc).map key).Nodup ∧
    ∀ x ∈ es.foldl (fun acc e => acc.filter (fun y => key y ≠ key (g e)) ++ [g e]) acc,
      x ∈ acc ∨ ∃ e ∈ es, x = g e := by
  induction es with
  | nil => exact fun acc h => ⟨h, fun x hx => .inl hx⟩
  | cons e es ih =>
    intro acc h
    have hn : ((acc.filter (fun y => key y ≠ key (g e)) ++ [g e]).map key).Nodup := by
      rw [List.map_append]
      refine List.nodup_append.mpr ⟨h.sublist (List.filter_sublist.map _), List.nodup_singleton _, ?_⟩
      rintro a ha b hb rfl
      obtain ⟨x, hx, rfl⟩ := List.mem_map.mp ha
      exact of_decide_eq_true (List.mem_filter.mp hx).2 (List.mem_singleton.mp hb)
    obtain ⟨h1, h2⟩ := ih _ hn
    refine ⟨h1, fun x hx => ?_⟩
    rcases h2 x hx with hx | ⟨e', he', rfl⟩
    · rcases List.mem_append.mp hx with hx | hx
      · exact .inl (List.mem_of_mem_filter hx)
      · exact .inr ⟨e, List.mem_cons_self, List.mem_singleton.mp hx⟩
    · exact .inr ⟨e', List.mem_cons_of_mem e he', rfl⟩

end Hash

end LinboxRescue
