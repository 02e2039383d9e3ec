import LinboxRescue.Admin.IniSections

/-!
# The items of a menu (`hdrGetMenuItem`, `hdrSetMenuItem` of `src/server/admin/perl/lbs-lib.pl`)

The items of a menu are lines of its keys `item` and of the files of its keys `include`.
`hdrFindMenuItem` looks for a line that starts with the key of an item, `hdrGetMenuItem` for one whose
first word it is, and `hdrSetMenuItem` writes to where the first of them has found it.

1. `findItem_spec`: no line in front of the place that is found has the key.
2. `setsItem_iff_item`, `setsItem_iff_nowhere`: what is read after a pair of the section was replaced.
3. `setsItem_iff_inc`: what is read after an included text was changed.
4. `hdrSetMenuItem_iff`: so exactly when the item is changed and nothing else.
-/

namespace LinboxRescue

namespace IniText

/-! ## Lines of items -/

/-- `s/^[ \t]+//; split(m/ +/, $l, 2)`. -/
def itemSplit (l : Bytes) : Bytes × Option Bytes :=
  let l := l.dropWhile isBlank
  (l.takeWhile (· ≠ 32),
    match l.dropWhile (· ≠ 32) with
    | [] => none
    | _ :: b => some (b.dropWhile (· == 32)))

/-- A line with the item `itemkey`. -/
def isItemLine (itemkey l : Bytes) : Bool := l ≠ [] && (itemSplit l).1 == itemkey

/-- `itemHasKey`, for a key that `m/^$ikey/` takes literally. -/
def itemHasKey (text ikey : Bytes) : Bool :=
  (splitLines text).any fun l => l ≠ [] && ikey.isPrefixOf (l.dropWhile isBlank)

def itemGetVal (text itemkey : Bytes) : Option Bytes :=
  match (splitLines text).find? (isItemLine itemkey) with
  | none => none
  | some l => (itemSplit l).2

/-- `"$itemkey $itemval"`. -/
def itemLine (itemkey itemval : Bytes) : Bytes := itemkey ++ 32 :: itemval

def itemChangeVal (text itemkey itemval : Bytes) : Bytes :=
  joinLines ((splitLines text).map fun l =>
    if isItemLine itemkey l then itemLine itemkey itemval else l)

/-! ## The header -/

/-- `%hdr`: the ini file and the texts of the included files. -/
structure Hdr where
  ini : Conf
  inc : Bytes → Option Bytes

/-- What `iniGet` returns for a pair. -/
def iniGet : Option Bytes × Option Bytes → Bytes × Bytes
  | (k, some v) => (k.getD [], v)
  | (_, none) => ([], [])

/-- The pairs of a section, as the loops over them see them. -/
def entries (conf : Conf) (s : Bytes) : List (Bytes × Bytes) := ((conf.data s).getD []).map iniGet

/-- A section with other pairs. -/
def Conf.setPairs (conf : Conf) (s : Bytes) (pairs : List (Option Bytes × Option Bytes)) : Conf :=
  { conf with data := Function.update conf.data s (some pairs) }

/-- `iniSet`. -/
def iniSet (conf : Conf) (s : Bytes) (pos : ℕ) (key val : Bytes) : Conf :=
  match conf.data s with
  | none => conf
  | some pairs =>
    match pairs[pos]? with
    | some (_, some _) => conf.setPairs s (pairs.set pos (some key, some val))
    | _ => conf

def itemName : Bytes := ascii "item"

def includeName : Bytes := ascii "include"

/-- What `hdrFindMenuItem` returns. -/
inductive Found
  | nowhere
  | item (pos : ℕ)
  | inc (v : Bytes)
  deriving DecidableEq

/-- The loop of `hdrFindMenuItem`, from the pair number `i` on. -/
def findItem (inc : Bytes → Option Bytes) (itemkey : Bytes) : ℕ → List (Bytes × Bytes) → Found
  | _, [] => .nowhere
  | i, (k, v) :: es =>
    if k = itemName then
      if itemHasKey v itemkey then .item i else findItem inc itemkey (i + 1) es
    else if k = includeName then
      if (inc v).any fun text => itemHasKey text itemkey then .inc v
      else findItem inc itemkey (i + 1) es
    else findItem inc itemkey (i + 1) es

def hdrFindMenuItem (hdr : Hdr) (s itemkey : Bytes) : Found :=
  if iniHasSection hdr.ini s then findItem hdr.inc itemkey 0 (entries hdr.ini s) else .nowhere

/-- The value of an item in one pair of a section. -/
def entryVal (inc : Bytes → Option Bytes) (item : Bytes) (e : Bytes × Bytes) : Option Bytes :=
  if e.1 = itemName then itemGetVal e.2 item
  else if e.1 = includeName then (inc e.2).bind fun text => itemGetVal text item
  else none

def hdrGetMenuItem (hdr : Hdr) (s item : Bytes) : Option Bytes :=
  if iniHasSection hdr.ini s then (entries hdr.ini s).findSome? (entryVal hdr.inc (lc item)) else none

def hdrSetMenuItem (hdr : Hdr) (s itemkey itemval : Bytes) : Hdr :=
  match hdrFindMenuItem hdr s itemkey with
  | .nowhere => { hdr with ini := iniSetVal hdr.ini s itemName (itemLine itemkey itemval) }
  | .item pos => { hdr with ini := iniSet hdr.ini s pos itemName (itemLine itemkey itemval) }
  | .inc v =>
    { hdr with
      inc := Function.update hdr.inc v ((hdr.inc v).map fun buf => itemChangeVal buf itemkey itemval) }

/-! ## What a change of an item is to keep, and the headers in which it does -/

/-- A character of a key: no blank, no capital letter, and none that has a meaning in a pattern. -/
def isKeyChar (b : UInt8) : Bool :=
  !isBlank b && b != 10 && toLower b == b && !(ascii "\\|()[\x7b^$*+?.").contains b

/-- The key of an item, in lower case. -/
def ItemKey (k : Bytes) : Prop := k ≠ [] ∧ ∀ b ∈ k, isKeyChar b = true

instance : DecidablePred ItemKey := fun k =>
  inferInstanceAs (Decidable (k ≠ [] ∧ ∀ b ∈ k, isKeyChar b = true))

/-- The item has its new value, and every other item of the section and of the other sections has the
value that it had. -/
structure SetsItem (hdr : Hdr) (s k v : Bytes) : Prop where
  value : hdrGetMenuItem (hdrSetMenuItem hdr s k v) s k = some v
  items : ∀ k', lc k' ≠ k → hdrGetMenuItem (hdrSetMenuItem hdr s k v) s k' = hdrGetMenuItem hdr s k'
  sections : ∀ s', s' ≠ s → ∀ k',
    hdrGetMenuItem (hdrSetMenuItem hdr s k v) s' k' = hdrGetMenuItem hdr s' k'

/-- No item but `k` needs pair number `i` of the section: what the pair gives another one a value for
has a value in front of it, or the same value behind it. -/
def Spare (hdr : Hdr) (s k : Bytes) (i : ℕ) : Prop :=
  ∀ k' b, k' ≠ k → lc k' = k' → (entries hdr.ini s)[i]?.bind (entryVal hdr.inc k') = some b →
    ((entries hdr.ini s).take i).findSome? (entryVal hdr.inc k') ≠ none ∨
      ((entries hdr.ini s).drop (i + 1)).findSome? (entryVal hdr.inc k') = some b

/-- The first key `item` of a section, in any case. -/
def firstItem (pairs : List (Option Bytes × Option Bytes)) : Option ℕ :=
  pairs.findIdx? fun p => lc (p.1.getD []) == itemName

/-- The included text `f` can be changed for section `s`: where another section reads the item `k` from
it, the value is `v` already. -/
def Unshared (hdr : Hdr) (s f k v : Bytes) : Prop :=
  ∀ s', s' ≠ s → ∀ i, (entries hdr.ini s')[i]? = some (includeName, f) →
    ((entries hdr.ini s').take i).findSome? (entryVal hdr.inc k) ≠ none ∨
      hdrGetMenuItem hdr s' k = some v

/-- When `hdrSetMenuItem` can set the item. -/
def Settable (hdr : Hdr) (s k v : Bytes) : Prop :=
  match hdrFindMenuItem hdr s k with
  | .nowhere => v.head? ≠ some 32 ∧ ∃ pairs, hdr.ini.data s = some pairs ∧
      ∀ i p, firstItem pairs = some i → pairs[i]? = some p → p.1.getD [] = itemName ∧ Spare hdr s k i
  | .item i => v.head? ≠ some 32 ∧ Spare hdr s k i
  | .inc f =>
    if (hdr.inc f).any fun text => (splitLines text).any (isItemLine k) then
      v.head? ≠ some 32 ∧ Unshared hdr s f k v
    else hdrGetMenuItem hdr s k = some v

/-! ## Reading lines -/

/-- The spaces in front of a value are lost. -/
def strip (v : Bytes) : Bytes := v.dropWhile (· == 32)

theorem strip_eq_self {v : Bytes} : strip v = v ↔ v.head? ≠ some 32 := by
  unfold strip
  cases v with
  | nil => simp
  | cons b v =>
    by_cases hb : b = 32
    · subst hb
      rw [List.dropWhile_cons_of_pos rfl]
      refine ⟨fun h => ?_, fun h => absurd rfl h⟩
      have := (List.dropWhile_suffix (l := v) (· == (32 : UInt8))).length_le
      rw [h, List.length_cons] at this
      omega
    · rw [List.dropWhile_cons_of_neg (by simpa using hb)]
      simpa using hb

section Keys

variable {k v : Bytes} (hk : ItemKey k)

include hk

theorem ItemKey.blank {b : UInt8} (hb : b ∈ k) : isBlank b = false := by
  have := hk.2 b hb
  rw [isKeyChar] at this
  simp only [Bool.and_eq_true, Bool.not_eq_true'] at this
  exact this.1.1.1

theorem ItemKey.line : 10 ∉ k := by
  intro hb
  have := hk.2 10 hb
  revert this
  decide

theorem ItemKey.lc_eq : lc k = k := by
  have hall : ∀ b ∈ k, toLower b = b := by
    intro b hb
    have := hk.2 b hb
    rw [isKeyChar] at this
    simp only [Bool.and_eq_true, beq_iff_eq] at this
    exact this.1.2
  exact (List.map_congr_left hall).trans (List.map_id _)

theorem itemSplit_itemLine : itemSplit (itemLine k v) = (k, some (strip v)) := by
  obtain ⟨c, t, hct⟩ := List.exists_cons_of_ne_nil hk.1
  have hdrop : (itemLine k v).dropWhile isBlank = itemLine k v := by
    rw [itemLine, hct]
    have hc : isBlank c = false := hk.blank (by rw [hct]; exact List.mem_cons_self)
    exact List.dropWhile_cons_of_neg (by simp [hc])
  have hk' : ∀ b ∈ k, (decide (b ≠ 32)) = true := by
    intro b hb
    have : b ≠ 32 := by
      rintro rfl
      exact absurd (hk.blank hb) (by decide)
    simpa using this
  unfold itemSplit
  dsimp only
  rw [hdrop, itemLine, takeWhile_append_stop hk' (by simp), dropWhile_append_stop hk' (by simp)]
  rfl

theorem isItemLine_itemLine (k' : Bytes) : isItemLine k' (itemLine k v) = decide (k = k') := by
  rw [isItemLine, itemSplit_itemLine hk]
  have hne : itemLine k v ≠ [] := by simp [itemLine]
  simp [hne, beq_eq_decide]

theorem itemLine_line (hv : 10 ∉ v) : 10 ∉ itemLine k v := by
  simp [itemLine, hk.line, hv]

/-- A pair with one line. -/
theorem entryVal_itemLine (hv : 10 ∉ v) (inc : Bytes → Option Bytes) (k' : Bytes) :
    entryVal inc k' (itemName, itemLine k v) = if k = k' then some (strip v) else none := by
  have hline : splitLines (itemLine k v) = [itemLine k v] :=
    splitLines_line (by simp [itemLine]) (itemLine_line hk hv)
  rw [entryVal, if_pos rfl, itemGetVal, hline, List.find?_cons, isItemLine_itemLine hk]
  by_cases h : k = k'
  · rw [if_pos h, decide_eq_true h]
    show (itemSplit (itemLine k v)).2 = _
    rw [itemSplit_itemLine hk]
  · rw [if_neg h, decide_eq_false h]
    rfl

end Keys

/-- A line whose first word is the key starts with it. -/
theorem itemHasKey_of_isItemLine {k text l : Bytes} (hl : l ∈ splitLines text)
    (h : isItemLine k l = true) : itemHasKey text k = true := by
  rw [isItemLine, Bool.and_eq_true, beq_iff_eq] at h
  refine List.any_eq_true.mpr ⟨l, hl, ?_⟩
  rw [Bool.and_eq_true]
  refine ⟨h.1, List.isPrefixOf_iff_prefix.mpr ?_⟩
  rw [← h.2]
  exact List.takeWhile_prefix _

theorem itemGetVal_eq_none {k text : Bytes} (h : itemHasKey text k = false) :
    itemGetVal text k = none := by
  have hfind : (splitLines text).find? (isItemLine k) = none := by
    rw [List.find?_eq_none]
    intro l hl hline
    rw [itemHasKey_of_isItemLine hl hline] at h
    cases h
  rw [itemGetVal, hfind]

/-! ## Changing a text -/

section Change

variable {k v : Bytes} (hk : ItemKey k) (hv : 10 ∉ v) (text : Bytes)

include hk hv

/-- The lines of a changed text. -/
theorem splitLines_itemChangeVal : splitLines (itemChangeVal text k v) =
    (splitLines text).map fun l => if isItemLine k l then itemLine k v else l := by
  refine splitLines_joinLines (fun l hl => ?_) fun hne => ?_
  · obtain ⟨l', hl', rfl⟩ := List.mem_map.mp hl
    split_ifs
    · exact itemLine_line hk hv
    · exact not_mem_of_mem_splitLines hl'
  · rw [List.getLast_map]
    split_ifs
    · simp [itemLine]
    · have := List.rdropWhile_last_not (fun l : Bytes => decide (l = [])) (lineFields text)
        (by simpa [splitLines] using hne)
      simpa [splitLines] using this

/-- Another item keeps its value. -/
theorem itemGetVal_change_of_ne {k' : Bytes} (h : k ≠ k') :
    itemGetVal (itemChangeVal text k v) k' = itemGetVal text k' := by
  have hfind : ∀ ls : List Bytes,
      (ls.map fun l => if isItemLine k l then itemLine k v else l).find? (isItemLine k') =
        ls.find? (isItemLine k') := by
    intro ls
    induction ls with
    | nil => rfl
    | cons l ls ih =>
      rw [List.map_cons, List.find?_cons, List.find?_cons, ih]
      by_cases hl : isItemLine k l = true
      · have hl' : isItemLine k' l = false := by
          rw [isItemLine, Bool.and_eq_true, beq_iff_eq] at hl
          rw [isItemLine, hl.2]
          simp [h]
        rw [if_pos hl, isItemLine_itemLine hk, decide_eq_false h, hl']
      · rw [if_neg hl]
  rw [itemGetVal, itemGetVal, splitLines_itemChangeVal hk hv, hfind]

/-- The item has the new value, if there was a line with it. -/
theorem itemGetVal_change : itemGetVal (itemChangeVal text k v) k =
    if (splitLines text).any (isItemLine k) then some (strip v) else itemGetVal text k := by
  have hfind : ∀ ls : List Bytes,
      (ls.map fun l => if isItemLine k l then itemLine k v else l).find? (isItemLine k) =
        if ls.any (isItemLine k) then some (itemLine k v) else none := by
    intro ls
    induction ls with
    | nil => rfl
    | cons l ls ih =>
      rw [List.map_cons, List.find?_cons, ih, List.any_cons]
      by_cases hl : isItemLine k l = true
      · rw [if_pos hl, isItemLine_itemLine hk, decide_eq_true rfl, hl]
        rfl
      · rw [if_neg hl, Bool.eq_false_iff.mpr hl, Bool.false_or]
  rw [itemGetVal, splitLines_itemChangeVal hk hv, hfind]
  split_ifs with h
  · show (itemSplit (itemLine k v)).2 = _
    rw [itemSplit_itemLine hk]
  · have hnone : (splitLines text).find? (isItemLine k) = none := by
      rw [List.find?_eq_none]
      exact fun l hl hline => h (List.any_eq_true.mpr ⟨l, hl, hline⟩)
    rw [itemGetVal, hnone]

end Change

/-! ## Finding an item -/

/-- What `hdrFindMenuItem` looks for in a pair. -/
def holdsKey (inc : Bytes → Option Bytes) (itemkey : Bytes) (e : Bytes × Bytes) : Bool :=
  if e.1 = itemName then itemHasKey e.2 itemkey
  else if e.1 = includeName then (inc e.2).any fun text => itemHasKey text itemkey
  else false

theorem entryVal_eq_none {inc : Bytes → Option Bytes} {k : Bytes} {e : Bytes × Bytes}
    (h : holdsKey inc k e = false) : entryVal inc k e = none := by
  unfold holdsKey at h
  unfold entryVal
  split_ifs at h ⊢
  · exact itemGetVal_eq_none h
  · cases hi : inc e.2 with
    | none => rfl
    | some text =>
      rw [hi] at h
      exact itemGetVal_eq_none h
  · rfl

theorem findSome?_eq_none {inc : Bytes → Option Bytes} {k : Bytes} {es : List (Bytes × Bytes)}
    (h : ∀ e ∈ es, holdsKey inc k e = false) : es.findSome? (entryVal inc k) = none :=
  List.findSome?_eq_none_iff.mpr fun e he => entryVal_eq_none (h e he)

theorem findItem_cons (inc : Bytes → Option Bytes) (k : Bytes) (i : ℕ) (e : Bytes × Bytes)
    (es : List (Bytes × Bytes)) : findItem inc k i (e :: es) =
      if holdsKey inc k e then (if e.1 = itemName then .item i else .inc e.2)
      else findItem inc k (i + 1) es := by
  obtain ⟨a, v⟩ := e
  rw [findItem, holdsKey]
  split_ifs <;> simp_all

/-- The first pair that holds the key, if there is one. -/
theorem findItem_spec (inc : Bytes → Option Bytes) (k : Bytes) (es : List (Bytes × Bytes)) : ∀ i : ℕ,
    (findItem inc k i es = .nowhere ∧ ∀ e ∈ es, holdsKey inc k e = false) ∨
    ∃ A e B, es = A ++ e :: B ∧ (∀ a ∈ A, holdsKey inc k a = false) ∧ holdsKey inc k e = true ∧
      findItem inc k i es = if e.1 = itemName then .item (i + A.length) else .inc e.2 := by
  induction es with
  | nil => exact fun i => .inl ⟨rfl, fun e he => absurd he List.not_mem_nil⟩
  | cons e es ih =>
    intro i
    by_cases h : holdsKey inc k e = true
    · refine .inr ⟨[], e, es, rfl, fun a ha => absurd ha List.not_mem_nil, h, ?_⟩
      rw [findItem_cons, if_pos h]
      rfl
    · rw [findItem_cons, if_neg h]
      rw [Bool.not_eq_true] at h
      rcases ih (i + 1) with ⟨h1, h2⟩ | ⟨A, e', B, rfl, hA, he', hf⟩
      · exact .inl ⟨h1, List.forall_mem_cons.mpr ⟨h, h2⟩⟩
      · refine .inr ⟨e :: A, e', B, rfl, List.forall_mem_cons.mpr ⟨h, hA⟩, he', ?_⟩
        rw [hf, List.length_cons, Nat.add_assoc, Nat.add_comm 1]

section Sections

variable (hdr : Hdr) (s : Bytes)

theorem entries_eq_nil (h : iniHasSection hdr.ini s = false) : entries hdr.ini s = [] := by
  unfold iniHasSection at h
  unfold entries
  cases hd : hdr.ini.data s with
  | none => rfl
  | some pairs =>
    rw [hd] at h
    cases h

theorem hdrFindMenuItem_eq (k : Bytes) :
    hdrFindMenuItem hdr s k = findItem hdr.inc k 0 (entries hdr.ini s) := by
  unfold hdrFindMenuItem
  split_ifs with h
  · rfl
  · rw [entries_eq_nil hdr s (by simpa using h), findItem]

theorem hdrGetMenuItem_eq (k : Bytes) :
    hdrGetMenuItem hdr s k = (entries hdr.ini s).findSome? (entryVal hdr.inc (lc k)) := by
  unfold hdrGetMenuItem
  split_ifs with h
  · rfl
  · rw [entries_eq_nil hdr s (by simpa using h)]
    rfl

end Sections

/-! ## Changing a pair of the section -/

/-- What `e` gives an item other than `k` is given in front of it, or behind it. -/
def Covered (inc : Bytes → Option Bytes) (k : Bytes) (A : List (Bytes × Bytes)) (e : Bytes × Bytes)
    (B : List (Bytes × Bytes)) : Prop :=
  ∀ k' b, k' ≠ k → lc k' = k' → entryVal inc k' e = some b →
    A.findSome? (entryVal inc k') ≠ none ∨ B.findSome? (entryVal inc k') = some b

theorem findSome?_split {α β : Type} (A B : List α) (e : α) (g : α → Option β) :
    (A ++ e :: B).findSome? g = (A.findSome? g).or ((g e).or (B.findSome? g)) := by
  rw [List.findSome?_append, List.findSome?_cons]
  cases g e <;> rfl

theorem spare_iff {hdr : Hdr} {s k : Bytes} {A B : List (Bytes × Bytes)} {e : Bytes × Bytes}
    (h : entries hdr.ini s = A ++ e :: B) : Spare hdr s k A.length ↔ Covered hdr.inc k A e B := by
  have hget : (A ++ e :: B)[A.length]? = some e := by simp
  have hdrop : (A ++ e :: B).drop (A.length + 1) = B := by simp
  unfold Spare Covered
  rw [h, hget, List.take_left, hdrop]
  rfl

/-- The items are the same after `e` was replaced, if they do not need it. -/
theorem covered_iff {inc : Bytes → Option Bytes} {k : Bytes} {A B : List (Bytes × Bytes)}
    {e e' : Bytes × Bytes} (he' : ∀ k', k' ≠ k → entryVal inc k' e' = none) :
    (∀ k', lc k' ≠ k → (A ++ e' :: B).findSome? (entryVal inc (lc k')) =
      (A ++ e :: B).findSome? (entryVal inc (lc k'))) ↔ Covered inc k A e B := by
  have hone : ∀ k', k' ≠ k → ((A ++ e' :: B).findSome? (entryVal inc k') =
      (A ++ e :: B).findSome? (entryVal inc k') ↔ ∀ b, entryVal inc k' e = some b →
        A.findSome? (entryVal inc k') ≠ none ∨ B.findSome? (entryVal inc k') = some b) := by
    intro k' hk'
    rw [findSome?_split, findSome?_split, he' k' hk', Option.none_or]
    cases A.findSome? (entryVal inc k') with
    | some a => simp
    | none =>
      cases entryVal inc k' e with
      | none => simp
      | some b => simp
  constructor
  · intro h k' b hk' hlc hb
    have := h k' (by rwa [hlc])
    rw [hlc] at this
    exact (hone k' hk').mp this b hb
  · intro h k' hk'
    exact (hone _ hk').mpr fun b hb => h _ b hk' (lc_lc k') hb

section Set

variable {hdr : Hdr} {s k v : Bytes} (hk : ItemKey k) (hv : 10 ∉ v)

/-- `hdrSetMenuItem` replaces one pair of the section. Instead of `e` it may be none. -/
theorem setsItem_iff_of_entry {conf : Conf} {A B : List (Bytes × Bytes)} {e e' : Bytes × Bytes}
    (hset : hdrSetMenuItem hdr s k v = { hdr with ini := conf })
    (hother : ∀ s', s' ≠ s → entries conf s' = entries hdr.ini s')
    (hold : ∀ k', (entries hdr.ini s).findSome? (entryVal hdr.inc k') =
      (A ++ e :: B).findSome? (entryVal hdr.inc k'))
    (hnew : entries conf s = A ++ e' :: B) (hA : ∀ a ∈ A, holdsKey hdr.inc k a = false)
    (hlc : lc k = k)
    (he' : ∀ k', entryVal hdr.inc k' e' = if k = k' then some (strip v) else none) :
    SetsItem hdr s k v ↔ v.head? ≠ some 32 ∧ Covered hdr.inc k A e B := by
  have hget : ∀ s' k', hdrGetMenuItem (hdrSetMenuItem hdr s k v) s' k' =
      (entries conf s').findSome? (entryVal hdr.inc (lc k')) := by
    intro s' k'
    rw [hset, hdrGetMenuItem_eq]
  have hval : hdrGetMenuItem (hdrSetMenuItem hdr s k v) s k = some (strip v) := by
    rw [hget, hnew, hlc, findSome?_split, findSome?_eq_none hA, he', if_pos rfl]
    rfl
  have hitems := @covered_iff hdr.inc k A B e e' fun k' hk' => by rw [he', if_neg (Ne.symm hk')]
  constructor
  · intro h
    refine ⟨strip_eq_self.mp (Option.some.inj (hval.symm.trans h.value)), hitems.mp fun k' hk' => ?_⟩
    have := h.items k' hk'
    rwa [hget, hdrGetMenuItem_eq, hnew, hold] at this
  · rintro ⟨hhead, hcov⟩
    refine ⟨by rw [hval, strip_eq_self.mpr hhead], fun k' hk' => ?_, fun s' hs' k' => ?_⟩
    · rw [hget, hdrGetMenuItem_eq, hnew, hold]
      exact hitems.mpr hcov k' hk'
    · rw [hget, hdrGetMenuItem_eq, hother s' hs']

theorem entries_setPairs_of_ne {conf : Conf} {s' : Bytes} (h : s' ≠ s)
    (pairs : List (Option Bytes × Option Bytes)) :
    entries (conf.setPairs s pairs) s' = entries conf s' := by
  show ((Function.update conf.data s (some pairs) s').getD []).map iniGet = _
  rw [Function.update_of_ne h, entries]

theorem entries_setPairs (conf : Conf) (pairs : List (Option Bytes × Option Bytes)) :
    entries (conf.setPairs s pairs) s = pairs.map iniGet := by
  show ((Function.update conf.data s (some pairs) s).getD []).map iniGet = _
  rw [Function.update_self, Option.getD_some]

theorem data_of_entries {conf : Conf} {A B : List (Bytes × Bytes)} {e : Bytes × Bytes}
    (h : entries conf s = A ++ e :: B) : ∃ PA p PB, conf.data s = some (PA ++ p :: PB) ∧
      PA.map iniGet = A ∧ iniGet p = e ∧ PB.map iniGet = B := by
  unfold entries at h
  cases hd : conf.data s with
  | none =>
    rw [hd] at h
    exact absurd (congrArg List.length h) (by simp)
  | some pairs =>
    rw [hd, Option.getD_some] at h
    obtain ⟨PA, rest, rfl, hA, hrest⟩ := List.map_eq_append_iff.mp h
    obtain ⟨p, PB, rfl, hp, hB⟩ := List.map_eq_cons_iff.mp hrest
    exact ⟨PA, p, PB, rfl, hA, hp, hB⟩

theorem entries_of_data {conf : Conf} {PA PB : List (Option Bytes × Option Bytes)}
    {p : Option Bytes × Option Bytes} (h : conf.data s = some (PA ++ p :: PB)) :
    entries conf s = PA.map iniGet ++ iniGet p :: PB.map iniGet := by
  rw [entries, h, Option.getD_some, List.map_append, List.map_cons]

/-- What `iniSetVal` does to the key `item`. -/
theorem setPair_item (val : Bytes) (pairs : List (Option Bytes × Option Bytes)) :
    (firstItem pairs = none ∧ setPair itemName val pairs = pairs ++ [(some itemName, some val)]) ∨
    ∃ PA p PB, pairs = PA ++ p :: PB ∧ firstItem pairs = some PA.length ∧
      lc (p.1.getD []) = itemName ∧ setPair itemName val pairs = PA ++ (p.1, some val) :: PB := by
  have hlc : lc itemName = itemName := by decide
  induction pairs with
  | nil => exact .inl ⟨rfl, by rw [setPair, hlc]; rfl⟩
  | cons p pairs ih =>
    obtain ⟨key, o⟩ := p
    by_cases hp : lc (key.getD []) = itemName
    · refine .inr ⟨[], (key, o), pairs, rfl, ?_, hp, ?_⟩
      · simp [firstItem, List.findIdx?_cons, hp]
      · rw [setPair, hlc, if_pos hp]
        rfl
    · have hfirst : firstItem ((key, o) :: pairs) = (firstItem pairs).map (· + 1) := by
        simp [firstItem, List.findIdx?_cons, hp]
      rw [setPair, hlc, if_neg hp, hfirst]
      rcases ih with ⟨h1, h2⟩ | ⟨PA, p, PB, rfl, h1, h2, h3⟩
      · exact .inl ⟨by rw [h1]; rfl, by rw [h2]; rfl⟩
      · exact .inr ⟨(key, o) :: PA, p, PB, rfl, by rw [h1]; rfl, h2, by rw [h3]; rfl⟩

/-- An item that was not found is written with `iniSetVal`. -/
theorem hdrSetMenuItem_nowhere {pairs : List (Option Bytes × Option Bytes)}
    (hfind : hdrFindMenuItem hdr s k = .nowhere) (hdata : hdr.ini.data s = some pairs) :
    hdrSetMenuItem hdr s k v =
      { hdr with ini := hdr.ini.setPairs s (setPair itemName (itemLine k v) pairs) } := by
  unfold hdrSetMenuItem
  rw [hfind]
  dsimp only
  rw [iniSetVal, hdata]
  rfl

include hk hv

section Pairs

variable {PA PB : List (Option Bytes × Option Bytes)} {p : Option Bytes × Option Bytes}

/-- A pair of the section becomes a pair with the item. -/
theorem setsItem_iff_replaced (key : Option Bytes) (hkey : key.getD [] = itemName)
    (hdata : hdr.ini.data s = some (PA ++ p :: PB))
    (hset : hdrSetMenuItem hdr s k v =
      { hdr with ini := hdr.ini.setPairs s (PA ++ (key, some (itemLine k v)) :: PB) })
    (hA : ∀ a ∈ PA.map iniGet, holdsKey hdr.inc k a = false) :
    SetsItem hdr s k v ↔ v.head? ≠ some 32 ∧ Spare hdr s k PA.length := by
  have hent := entries_of_data hdata
  have hnew : entries (hdr.ini.setPairs s (PA ++ (key, some (itemLine k v)) :: PB)) s =
      PA.map iniGet ++ (itemName, itemLine k v) :: PB.map iniGet := by
    rw [entries_setPairs, List.map_append, List.map_cons, iniGet, hkey]
  have hspare := spare_iff (k := k) hent
  rw [List.length_map] at hspare
  rw [hspare]
  exact setsItem_iff_of_entry hset (fun s' hs' => entries_setPairs_of_ne hs' _) (fun k' => by rw [hent])
    hnew hA hk.lc_eq (entryVal_itemLine hk hv hdr.inc)

/-- The item becomes a new pair behind the others. -/
theorem setsItem_iff_added {pairs : List (Option Bytes × Option Bytes)}
    (hdata : hdr.ini.data s = some pairs)
    (hset : hdrSetMenuItem hdr s k v =
      { hdr with ini := hdr.ini.setPairs s (pairs ++ [(some itemName, some (itemLine k v))]) })
    (hnone : ∀ e ∈ entries hdr.ini s, holdsKey hdr.inc k e = false) :
    SetsItem hdr s k v ↔ v.head? ≠ some 32 := by
  have hent : entries hdr.ini s = pairs.map iniGet := by rw [entries, hdata, Option.getD_some]
  rw [hent] at hnone
  -- a pair without a name has stood there before
  rw [setsItem_iff_of_entry (e := ([], [])) (B := []) hset (fun s' hs' => entries_setPairs_of_ne hs' _)
    (fun k' => by
      rw [hent, findSome?_split]
      exact (Option.or_none).symm)
    (by rw [entries_setPairs, List.map_append]; rfl) hnone hk.lc_eq (entryVal_itemLine hk hv hdr.inc)]
  exact and_iff_left fun k' b _ _ hb => by cases hb

omit hv in
/-- `hdrGetMenuItem` does not find an item under a key that is spelled in another way. -/
theorem not_setsItem_of_spelled (hdata : hdr.ini.data s = some (PA ++ p :: PB))
    (hset : hdrSetMenuItem hdr s k v =
      { hdr with ini := hdr.ini.setPairs s (PA ++ (p.1, some (itemLine k v)) :: PB) })
    (hnone : ∀ e ∈ entries hdr.ini s, holdsKey hdr.inc k e = false)
    (hp : lc (p.1.getD []) = itemName) (hname : p.1.getD [] ≠ itemName) : ¬ SetsItem hdr s k v := by
  rw [entries_of_data hdata, List.forall_mem_append, List.forall_mem_cons] at hnone
  obtain ⟨hA, -, hB⟩ := hnone
  have hother : entryVal hdr.inc k (p.1.getD [], itemLine k v) = none := by
    have hinc : p.1.getD [] ≠ includeName := by
      intro e
      rw [e] at hp
      exact absurd hp (by decide)
    rw [entryVal, if_neg hname, if_neg hinc]
  have hval : hdrGetMenuItem (hdrSetMenuItem hdr s k v) s k = none := by
    rw [hset, hdrGetMenuItem_eq, entries_setPairs, List.map_append, List.map_cons, hk.lc_eq,
      findSome?_split, findSome?_eq_none hA, findSome?_eq_none hB]
    exact congrArg (fun o => Option.or none (Option.or o none)) hother
  intro h
  cases hval.symm.trans h.value

end Pairs

/-- The item was found in a pair of the section. -/
theorem setsItem_iff_item {A B : List (Bytes × Bytes)} {x : Bytes}
    (hent : entries hdr.ini s = A ++ (itemName, x) :: B)
    (hA : ∀ a ∈ A, holdsKey hdr.inc k a = false)
    (hfind : hdrFindMenuItem hdr s k = .item A.length) :
    SetsItem hdr s k v ↔ v.head? ≠ some 32 ∧ Spare hdr s k A.length := by
  obtain ⟨PA, p, PB, hdata, rfl, hp, rfl⟩ := data_of_entries hent
  -- the pair has a value, since `iniGet` has returned one
  obtain ⟨key, y, rfl⟩ : ∃ key y, p = (key, some y) := by
    obtain ⟨key, o⟩ := p
    cases o with
    | some y => exact ⟨key, y, rfl⟩
    | none => exact absurd (congrArg Prod.fst hp) (show ([] : Bytes) ≠ itemName by decide)
  rw [List.length_map] at hfind ⊢
  refine setsItem_iff_replaced hk hv (some itemName) rfl hdata ?_ hA
  have hat : (PA ++ (key, some y) :: PB)[PA.length]? = some (key, some y) := by simp
  have hnew : (PA ++ (key, some y) :: PB).set PA.length (some itemName, some (itemLine k v)) =
      PA ++ (some itemName, some (itemLine k v)) :: PB := by simp
  unfold hdrSetMenuItem
  rw [hfind]
  dsimp only
  rw [iniSet, hdata]
  dsimp only
  rw [hat]
  dsimp only
  rw [hnew]

/-- The item was not found. -/
theorem setsItem_iff_nowhere (hnone : ∀ e ∈ entries hdr.ini s, holdsKey hdr.inc k e = false)
    (hfind : hdrFindMenuItem hdr s k = .nowhere) :
    SetsItem hdr s k v ↔ v.head? ≠ some 32 ∧ ∃ pairs, hdr.ini.data s = some pairs ∧
      ∀ i p, firstItem pairs = some i → pairs[i]? = some p →
        p.1.getD [] = itemName ∧ Spare hdr s k i := by
  cases hdata : hdr.ini.data s with
  | none =>
    -- there is no such section
    have hval : hdrGetMenuItem (hdrSetMenuItem hdr s k v) s k = none := by
      unfold hdrSetMenuItem
      rw [hfind]
      dsimp only
      rw [hdrGetMenuItem_eq, iniSetVal, hdata]
      dsimp only
      rw [entries, hdata]
      rfl
    constructor
    · intro h
      cases hval.symm.trans h.value
    · rintro ⟨-, pairs, h, -⟩
      cases h
  | some pairs =>
    have hset := hdrSetMenuItem_nowhere (v := v) hfind hdata
    simp only [Option.some.injEq, exists_eq_left']
    rcases setPair_item (itemLine k v) pairs with ⟨hfirst, hpair⟩ | ⟨PA, p, PB, rfl, hfirst, hp, hpair⟩
    · rw [hpair] at hset
      rw [setsItem_iff_added hk hv hdata hset hnone, hfirst]
      exact (and_iff_left fun i p hi => by cases hi).symm
    · rw [hpair] at hset
      have hat : (PA ++ p :: PB)[PA.length]? = some p := by simp
      have hcond : (∀ i q, firstItem (PA ++ p :: PB) = some i → (PA ++ p :: PB)[i]? = some q →
          q.1.getD [] = itemName ∧ Spare hdr s k i) ↔
          p.1.getD [] = itemName ∧ Spare hdr s k PA.length := by
        constructor
        · exact fun h => h _ _ hfirst hat
        · rintro h i q hi hq
          rw [hfirst] at hi
          cases hi
          rw [hat] at hq
          cases hq
          exact h
      rw [hcond]
      by_cases hname : p.1.getD [] = itemName
      · have hA : ∀ a ∈ PA.map iniGet, holdsKey hdr.inc k a = false := by
          rw [entries_of_data hdata, List.forall_mem_append] at hnone
          exact hnone.1
        rw [setsItem_iff_replaced hk hv _ hname hdata hset hA, and_iff_right hname]
      · refine iff_of_false (not_setsItem_of_spelled hk hdata hset hnone hp hname) ?_
        exact fun h => hname h.2.1

end Set

/-! ## Changing an included text -/

theorem findSome?_update_of_not_mem {α β : Type} [DecidableEq α] (g : α → Option β) {e : α}
    (o : Option β) {es : List α} (h : e ∉ es) :
    es.findSome? (Function.update g e o) = es.findSome? g := by
  induction es with
  | nil => rfl
  | cons a es ih =>
    rw [List.mem_cons, not_or] at h
    rw [List.findSome?_cons, List.findSome?_cons, Function.update_of_ne (Ne.symm h.1), ih h.2]

/-- One value of `g` is replaced: the first value in a list stays if there is one in front of the
change, or if it is the new one. -/
theorem findSome?_update_iff {α β : Type} [DecidableEq α] (g : α → Option β) (e : α) (v : β)
    (es : List α) : es.findSome? (Function.update g e (some v)) = es.findSome? g ↔
      ∀ i, es[i]? = some e → (es.take i).findSome? g ≠ none ∨ es.findSome? g = some v := by
  by_cases he : e ∈ es
  · -- the first place where the value is replaced decides
    obtain ⟨A, B, rfl, hA⟩ := List.eq_append_cons_of_mem he
    have hat : (A ++ e :: B)[A.length]? = some e := by simp
    rw [findSome?_split A B e (Function.update g e (some v)), findSome?_update_of_not_mem g _ hA,
      Function.update_self]
    cases hg : A.findSome? g with
    | some a =>
      refine iff_of_true (by rw [findSome?_split, hg]; rfl) fun i hi => .inl ?_
      have hlen : A.length ≤ i := by
        by_contra hlt
        rw [List.getElem?_append_left (Nat.lt_of_not_le hlt)] at hi
        exact hA (List.mem_of_getElem? hi)
      rw [List.take_append, List.take_of_length_le hlen, List.findSome?_append, hg]
      exact Option.some_ne_none a
    | none =>
      constructor
      · exact fun h i _ => .inr h.symm
      · intro h
        rcases h A.length hat with h | h
        · rw [List.take_left] at h
          exact absurd hg h
        · exact h.symm
  · refine iff_of_true (findSome?_update_of_not_mem g _ he) ?_
    exact fun i hi => absurd (List.mem_of_getElem? hi) he

section Include

variable {hdr : Hdr} {s k v f text : Bytes} (hk : ItemKey k) (hv : 10 ∉ v)

/-- The header with the included text `f` changed. -/
def changed (inc : Bytes → Option Bytes) (f text k v : Bytes) : Bytes → Option Bytes :=
  Function.update inc f (some (itemChangeVal text k v))

include hk hv

theorem entryVal_changed_of_ne {inc : Bytes → Option Bytes} (htext : inc f = some text) {k' : Bytes}
    (h : k' ≠ k) : entryVal (changed inc f text k v) k' = entryVal inc k' := by
  funext e
  unfold entryVal changed
  by_cases hf : e.2 = f
  · rw [hf, Function.update_self, htext, Option.bind_some, Option.bind_some,
      itemGetVal_change_of_ne hk hv text (Ne.symm h)]
  · rw [Function.update_of_ne hf]

theorem entryVal_changed {inc : Bytes → Option Bytes} (htext : inc f = some text) :
    entryVal (changed inc f text k v) k =
      if (splitLines text).any (isItemLine k) then
        Function.update (entryVal inc k) (includeName, f) (some (strip v))
      else entryVal inc k := by
  have hne : includeName ≠ itemName := by decide
  have hval := itemGetVal_change hk hv text
  have hof : ∀ e, e ≠ (includeName, f) → entryVal (changed inc f text k v) k e = entryVal inc k e := by
    intro e he
    unfold entryVal changed
    by_cases hf : e.2 = f
    · have : e.1 ≠ includeName := fun h => he (Prod.ext h hf)
      rw [if_neg this, if_neg this]
    · rw [Function.update_of_ne hf]
  have hself : entryVal (changed inc f text k v) k (includeName, f) =
      itemGetVal (itemChangeVal text k v) k := by
    rw [entryVal, if_neg hne, if_pos rfl, changed, Function.update_self]
    rfl
  funext e
  by_cases he : e = (includeName, f)
  · subst he
    rw [hself, hval]
    split_ifs
    · rw [Function.update_self]
    · rw [entryVal, if_neg hne, if_pos rfl, htext]
      rfl
  · rw [hof e he]
    split_ifs
    · rw [Function.update_of_ne he]
    · rfl

/-- The item was found in an included text. -/
theorem setsItem_iff_inc {A B : List (Bytes × Bytes)}
    (hent : entries hdr.ini s = A ++ (includeName, f) :: B)
    (hA : ∀ a ∈ A, holdsKey hdr.inc k a = false) (htext : hdr.inc f = some text)
    (hfind : hdrFindMenuItem hdr s k = .inc f) :
    SetsItem hdr s k v ↔
      if (splitLines text).any (isItemLine k) then v.head? ≠ some 32 ∧ Unshared hdr s f k v
      else hdrGetMenuItem hdr s k = some v := by
  have hget : ∀ s' k', hdrGetMenuItem (hdrSetMenuItem hdr s k v) s' k' =
      (entries hdr.ini s').findSome? (entryVal (changed hdr.inc f text k v) (lc k')) := by
    intro s' k'
    rw [hdrGetMenuItem_eq]
    unfold hdrSetMenuItem
    rw [hfind]
    dsimp only
    rw [htext]
    rfl
  have hitems : ∀ s' k', lc k' ≠ k →
      hdrGetMenuItem (hdrSetMenuItem hdr s k v) s' k' = hdrGetMenuItem hdr s' k' := by
    intro s' k' hk'
    rw [hget, hdrGetMenuItem_eq, entryVal_changed_of_ne hk hv htext hk']
  have hchanged := entryVal_changed hk hv htext
  have hlc := hk.lc_eq
  have hne : includeName ≠ itemName := by decide
  by_cases hline : (splitLines text).any (isItemLine k) = true
  · rw [if_pos hline] at hchanged ⊢
    have hvalue : hdrGetMenuItem (hdrSetMenuItem hdr s k v) s k = some (strip v) := by
      have hnot : (includeName, f) ∉ A := by
        intro ha
        obtain ⟨l, hl, hl'⟩ := List.any_eq_true.mp hline
        have := hA _ ha
        rw [holdsKey, if_neg hne, if_pos rfl, htext] at this
        exact absurd (itemHasKey_of_isItemLine hl hl') (by simpa using this)
      rw [hget, hlc, hchanged, hent, findSome?_split, findSome?_update_of_not_mem _ _ hnot,
        findSome?_eq_none hA, Function.update_self]
      rfl
    constructor
    · intro h
      have hstrip : strip v = v := Option.some.inj (hvalue.symm.trans h.value)
      refine ⟨strip_eq_self.mp hstrip, fun s' hs' => ?_⟩
      have := h.sections s' hs' k
      rw [hget, hlc, hchanged, hstrip, hdrGetMenuItem_eq, hlc, findSome?_update_iff] at this
      rwa [hdrGetMenuItem_eq, hlc]
    · rintro ⟨hhead, hshared⟩
      have hstrip : strip v = v := strip_eq_self.mpr hhead
      refine ⟨by rw [hvalue, hstrip], hitems s, fun s' hs' k' => ?_⟩
      by_cases hk' : lc k' = k
      · rw [hget, hdrGetMenuItem_eq, hk', hchanged, hstrip, findSome?_update_iff]
        have := hshared s' hs'
        rwa [hdrGetMenuItem_eq, hlc] at this
      · exact hitems s' k' hk'
  · -- no line has the word, and nothing is changed
    rw [if_neg hline] at hchanged ⊢
    have hsame : ∀ s' k',
        hdrGetMenuItem (hdrSetMenuItem hdr s k v) s' k' = hdrGetMenuItem hdr s' k' := by
      intro s' k'
      by_cases hk' : lc k' = k
      · rw [hget, hdrGetMenuItem_eq, hk', hchanged]
      · exact hitems s' k' hk'
    constructor
    · exact fun h => (hsame s k).symm.trans h.value
    · exact fun h => ⟨(hsame s k).trans h, fun k' _ => hsame s k', fun s' _ k' => hsame s' k'⟩

end Include

/-! ## Setting an item -/

/-- `hdrSetMenuItem` sets the item and changes no other one exactly when the place that
`hdrFindMenuItem` has found can be written. -/
theorem hdrSetMenuItem_iff (hdr : Hdr) (s : Bytes) {k v : Bytes} (hk : ItemKey k) (hv : 10 ∉ v) :
    SetsItem hdr s k v ↔ Settable hdr s k v := by
  have hfind := hdrFindMenuItem_eq hdr s k
  unfold Settable
  rcases findItem_spec hdr.inc k (entries hdr.ini s) 0 with ⟨h, hnone⟩ | ⟨A, e, B, hent, hA, he, h⟩
  · rw [h] at hfind
    rw [hfind]
    exact setsItem_iff_nowhere hk hv hnone hfind
  · rw [h, Nat.zero_add] at hfind
    obtain ⟨name, x⟩ := e
    by_cases hname : name = itemName
    · subst hname
      rw [if_pos rfl] at hfind
      rw [hfind]
      exact setsItem_iff_item hk hv hent hA hfind
    · rw [if_neg hname] at hfind
      rw [hfind]
      rw [holdsKey, if_neg hname] at he
      split_ifs at he with hinc
      obtain rfl : name = includeName := hinc
      cases htext : hdr.inc x with
      | none =>
        rw [htext] at he
        cases he
      | some text =>
        have := setsItem_iff_inc hk hv hent hA htext hfind
        dsimp only
        rw [htext, Option.any_some]
        exact this

/-- A header with a menu of two items. -/
def twoItems : Hdr := ⟨iniLoad (ascii "[menu1]\nitem=title Linux\nitem=desc Boot\n"), fun _ => none⟩

theorem setsItem_desc : SetsItem twoItems (ascii "menu1") (ascii "desc") (ascii "Rescue") := by
  have hk : ItemKey (ascii "desc") := by decide
  have hfind : hdrFindMenuItem twoItems (ascii "menu1") (ascii "desc") = .item 1 := by decide +kernel
  have hat : (entries twoItems.ini (ascii "menu1"))[1]? =
      some (itemName, itemLine (ascii "desc") (ascii "Boot")) := by decide +kernel
  refine (hdrSetMenuItem_iff twoItems (ascii "menu1") hk (by decide)).mpr ?_
  unfold Settable
  rw [hfind]
  refine ⟨by decide, fun k' b hk' _ hb => ?_⟩
  rw [hat, Option.bind_some, entryVal_itemLine hk (by decide), if_neg (Ne.symm hk')] at hb
  cases hb

/-- An item that the menu does not have is written over the first one. -/
theorem not_setsItem : ¬ ∀ (text s k v : Bytes), iniHasSection (iniLoad text) s = true → ItemKey k →
    10 ∉ v → SetsItem ⟨iniLoad text, fun _ => none⟩ s k v := by
  intro h
  have hset := h (ascii "[menu1]\nitem=title Linux\n") (ascii "menu1") (ascii "desc") (ascii "x")
    (by decide +kernel) (by decide) (by decide)
  exact absurd (hset.items (ascii "title") (by decide)) (by decide +kernel)

end IniText

end LinboxRescue
