import LinboxRescue.Lib.Perl
import LinboxRescue.Lib.CString

/-!
# Ini files (`src/server/admin/perl/inifile.pl`)

A file is the list of its sections, each with its lines `key=value`. `iniLoad` turns it into a list of
names and a hash of the lines of each section; a section without lines is in the list, but not in the
hash.

`iniVals_load_save`: what a key has after `iniSave` and `iniLoad`.
-/

namespace LinboxRescue

/-- The lines of a section. -/
abbrev Pairs := List (Bytes × Bytes)

abbrev IniFile := List (Bytes × Pairs)

/-- `%conf`. -/
structure Ini where
  order : List Bytes
  data : Bytes → Option Pairs

def lc (s : Bytes) : Bytes := s.map toLower

/-- The hash of a file: of two sections of one name, the last one with lines counts. -/
def iniData : IniFile → Bytes → Option Pairs
  | [], _ => none
  | (name, pairs) :: file, s =>
    (iniData file s).or (if name = s ∧ pairs ≠ [] then some pairs else none)

def iniLoad (file : IniFile) : Ini := ⟨file.map Prod.fst, iniData file⟩

def iniHasSection (conf : Ini) (s : Bytes) : Bool := (conf.data s).isSome

def iniGetSections (conf : Ini) : List Bytes := conf.order

def iniDeleteSection (conf : Ini) (s : Bytes) : Ini :=
  if iniHasSection conf s then
    ⟨conf.order.filter (· ≠ s), Function.update conf.data s none⟩
  else conf

/-- `iniAddSection` fails if the section exists. -/
def iniAddSection (conf : Ini) (s : Bytes) : Option Ini :=
  if iniHasSection conf s then none
  else some ⟨conf.order ++ [s], Function.update conf.data s (some [])⟩

/-- All values of a key. -/
def pairVals (key : Bytes) (pairs : Pairs) : List Bytes :=
  (pairs.filter fun p => lc p.1 = lc key).map Prod.snd

def iniVals (conf : Ini) (s key : Bytes) : List Bytes :=
  match conf.data s with
  | none => []
  | some pairs => pairVals key pairs

def iniHasKey (conf : Ini) (s key : Bytes) : Bool := iniVals conf s key ≠ []

/-- `iniGetVal`: the first value of the key, or an empty string. -/
def iniGetVal (conf : Ini) (s key : Bytes) : Bytes := (iniVals conf s key).headD []

/-- The first value of the key is replaced. -/
def setPair (key val : Bytes) : Pairs → Pairs
  | [] => [(lc key, val)]
  | (k, v) :: pairs => if lc k = lc key then (k, val) :: pairs else (k, v) :: setPair key val pairs

def iniSetVal (conf : Ini) (s key val : Bytes) : Ini :=
  match conf.data s with
  | none => conf
  | some pairs => { conf with data := Function.update conf.data s (some (setPair key val pairs)) }

/-- The fields between newlines. -/
def lineFields : Bytes → List Bytes
  | [] => [[]]
  | b :: t =>
    match lineFields t with
    | [] => [[b]]
    | l :: ls => if b = 10 then [] :: l :: ls else (b :: l) :: ls

/-- `split(m/\n/, …)`, where the empty fields at the end are left out. -/
def splitLines (s : Bytes) : List Bytes := (lineFields s).rdropWhile fun l => l = []

/-- `join("\n", …)`. -/
def joinLines : List Bytes → Bytes
  | [] => []
  | [l] => l
  | l :: ls => l ++ 10 :: joinLines ls

/-- A value is written as one line for each of its own. -/
def savedPairs (pairs : Pairs) : Pairs := pairs.flatMap fun p => (splitLines p.2).map (Prod.mk p.1)

def iniSave (conf : Ini) : IniFile :=
  conf.order.map fun s => (s, savedPairs ((conf.data s).getD []))

/-! ## Lemmas -/

theorem lc_lc (s : Bytes) : lc (lc s) = lc s := by
  have hidem : ∀ b, toLower (toLower b) = toLower b := by
    intro b
    unfold toLower
    split_ifs with h1 h2
    · have hadd : (b + 32).toNat = (b.toNat + 32) % 256 := UInt8.toNat_add b 32
      omega
    · rfl
    · rfl
  unfold lc
  rw [List.map_map]
  exact List.map_congr_left fun b _ => hidem b

section Vals

variable (key : Bytes) (conf : Ini)

theorem pairVals_savedPairs (pairs : Pairs) :
    pairVals key (savedPairs pairs) = (pairVals key pairs).flatMap splitLines := by
  induction pairs with
  | nil => rfl
  | cons p pairs ih =>
    have hrec : savedPairs (p :: pairs) = (splitLines p.2).map (Prod.mk p.1) ++ savedPairs pairs := rfl
    unfold pairVals at *
    rw [hrec, List.filter_append, List.map_append, ih, List.filter_cons]
    by_cases h : lc p.1 = lc key
    · simp [h, List.filter_map, Function.comp_def]
    · simp [h, List.filter_map, Function.comp_def]

theorem pairVals_setPair (val : Bytes) (pairs : Pairs) :
    pairVals key (setPair key val pairs) = val :: (pairVals key pairs).tail := by
  induction pairs with
  | nil =>
    simp [setPair, pairVals, lc_lc]
  | cons p pairs ih =>
    unfold setPair
    unfold pairVals at *
    by_cases h : lc p.1 = lc key
    · simp [h]
    · simp [h, ih]

/-- A key that is not the one that is set keeps its values. -/
theorem pairVals_setPair_ne {key' : Bytes} (h : lc key' ≠ lc key) (val : Bytes) (pairs : Pairs) :
    pairVals key (setPair key' val pairs) = pairVals key pairs := by
  induction pairs with
  | nil =>
    simp [setPair, pairVals, lc_lc, h]
  | cons p pairs ih =>
    unfold setPair
    unfold pairVals at *
    by_cases hp : lc p.1 = lc key'
    · simp [hp, h]
    · rw [if_neg hp, List.filter_cons, List.filter_cons]
      split_ifs
      · rw [List.map_cons, List.map_cons, ih]
      · exact ih

theorem iniData_eq_none {file : IniFile} {s : Bytes} (h : s ∉ file.map Prod.fst) :
    iniData file s = none := by
  induction file with
  | nil => rfl
  | cons x file ih =>
    rw [List.map_cons, List.mem_cons, not_or] at h
    rw [iniData, ih h.2, if_neg fun e => h.1 e.1.symm]
    rfl

theorem iniData_map {order : List Bytes} (f : Bytes → Pairs) (s : Bytes) :
    iniData (order.map fun s => (s, f s)) s = if s ∈ order ∧ f s ≠ [] then some (f s) else none := by
  induction order with
  | nil => simp [iniData]
  | cons n order ih =>
    rw [List.map_cons, iniData, ih]
    by_cases hn : n = s
    · subst hn
      by_cases hf : f n = [] <;> by_cases ho : n ∈ order <;> simp [hf, ho]
    · have hs : s ∈ n :: order ↔ s ∈ order := by simp [Ne.symm hn]
      simp [hn, hs]

/-- **After `iniSave` and `iniLoad`** a value that has several lines is several values. -/
theorem iniVals_load_save {s : Bytes} (hs : s ∈ conf.order) :
    iniVals (iniLoad (iniSave conf)) s key = (iniVals conf s key).flatMap splitLines := by
  unfold iniVals
  have hdata : (iniLoad (iniSave conf)).data s = if s ∈ conf.order ∧
      savedPairs ((conf.data s).getD []) ≠ [] then some (savedPairs ((conf.data s).getD []))
      else none := iniData_map (fun s => savedPairs ((conf.data s).getD [])) s
  have hvals := pairVals_savedPairs key ((conf.data s).getD [])
  rw [hdata]
  by_cases hp : savedPairs ((conf.data s).getD []) = []
  · rw [if_neg fun e => e.2 hp]
    rw [hp] at hvals
    cases hd : conf.data s with
    | none => rfl
    | some pairs =>
      rw [hd] at hvals
      exact hvals
  · rw [if_pos ⟨hs, hp⟩]
    cases hd : conf.data s with
    | none => rfl
    | some pairs =>
      rw [hd] at hvals
      exact hvals

theorem order_load_save : (iniLoad (iniSave conf)).order = conf.order := by
  unfold iniLoad iniSave
  rw [List.map_map]
  exact List.map_id _

/-- A section that is not in the list has no values. -/
theorem iniVals_eq_nil {file : IniFile} {s : Bytes} (h : s ∉ (iniLoad file).order) :
    iniVals (iniLoad file) s key = [] := by
  unfold iniVals
  have : (iniLoad file).data s = none := iniData_eq_none h
  rw [this]

theorem iniHasSection_eq_false {file : IniFile} {s : Bytes} (h : s ∉ (iniLoad file).order) :
    iniHasSection (iniLoad file) s = false := by
  unfold iniHasSection
  have : (iniLoad file).data s = none := iniData_eq_none h
  rw [this]
  rfl

theorem iniHasSection_of_iniVals {s : Bytes} (h : iniVals conf s key ≠ []) :
    iniHasSection conf s = true := by
  unfold iniVals at h
  unfold iniHasSection
  cases hd : conf.data s with
  | none =>
    rw [hd] at h
    exact absurd rfl h
  | some pairs => rfl

end Vals

/-! ## Lines -/

theorem lineFields_ne_nil (t : Bytes) : lineFields t ≠ [] := by
  cases t with
  | nil => exact List.cons_ne_nil _ _
  | cons b t =>
    rw [lineFields]
    split
    · exact List.cons_ne_nil _ _
    · split_ifs <;> exact List.cons_ne_nil _ _

theorem lineFields_append (v t : Bytes) :
    lineFields (v ++ 10 :: t) = lineFields v ++ lineFields t := by
  induction v with
  | nil =>
    cases h : lineFields t with
    | nil => exact absurd h (lineFields_ne_nil t)
    | cons l ls => simp [lineFields, h]
  | cons b v ih =>
    rw [List.cons_append, lineFields, lineFields, ih]
    cases h : lineFields v with
    | nil => exact absurd h (lineFields_ne_nil v)
    | cons l ls =>
      rw [List.cons_append]
      dsimp only
      split_ifs <;> rfl

theorem joinLines_append {ls rs : List Bytes} (hl : ls ≠ []) (hr : rs ≠ []) :
    joinLines (ls ++ rs) = joinLines ls ++ 10 :: joinLines rs := by
  induction ls with
  | nil => exact absurd rfl hl
  | cons l ls ih =>
    cases ls with
    | nil =>
      obtain ⟨r, rs, rfl⟩ := List.exists_cons_of_ne_nil hr
      rfl
    | cons l' ls =>
      have hrec : ∀ xs, joinLines (l :: l' :: xs) = l ++ 10 :: joinLines (l' :: xs) := fun _ => rfl
      have hls := ih (List.cons_ne_nil _ _)
      rw [List.cons_append, List.cons_append, hrec, ← List.cons_append, hls, hrec, List.append_assoc]
      rfl

theorem lineFields_of_line {v : Bytes} (hv : 10 ∉ v) : lineFields v = [v] := by
  induction v with
  | nil => rfl
  | cons b v ih =>
    rw [List.mem_cons, not_or] at hv
    rw [lineFields, ih hv.2]
    exact if_neg (Ne.symm hv.1)

theorem not_mem_of_mem_lineFields {s l : Bytes} (h : l ∈ lineFields s) : 10 ∉ l := by
  induction s generalizing l with
  | nil =>
    rw [List.mem_singleton.mp h]
    exact List.not_mem_nil
  | cons b s ih =>
    obtain ⟨m, ms, hs⟩ := List.exists_cons_of_ne_nil (lineFields_ne_nil s)
    rw [hs] at ih
    rw [lineFields, hs] at h
    dsimp only at h
    split_ifs at h with hb
    · rcases List.mem_cons.mp h with rfl | h
      · exact List.not_mem_nil
      · exact ih h
    · rcases List.mem_cons.mp h with rfl | h
      · rw [List.mem_cons, not_or]
        exact ⟨Ne.symm hb, ih List.mem_cons_self⟩
      · exact ih (List.mem_cons_of_mem _ h)

theorem not_mem_of_mem_splitLines {s l : Bytes} (h : l ∈ splitLines s) : 10 ∉ l :=
  not_mem_of_mem_lineFields ((List.rdropWhile_prefix _ _).subset h)

theorem lineFields_flatMap {ls : List Bytes} (h : ∀ l ∈ ls, 10 ∉ l) :
    lineFields (ls.flatMap (· ++ [10])) = ls ++ [[]] := by
  induction ls with
  | nil => rfl
  | cons l ls ih =>
    obtain ⟨hl, h⟩ := List.forall_mem_cons.mp h
    rw [List.flatMap_cons, List.append_assoc, List.singleton_append, lineFields_append,
      lineFields_of_line hl, ih h]
    rfl

theorem lineFields_joinLines {ls : List Bytes} (hne : ls ≠ []) (h : ∀ l ∈ ls, 10 ∉ l) :
    lineFields (joinLines ls) = ls := by
  induction ls with
  | nil => exact absurd rfl hne
  | cons l ls ih =>
    obtain ⟨hl, h⟩ := List.forall_mem_cons.mp h
    cases ls with
    | nil => exact lineFields_of_line hl
    | cons l' ls =>
      show lineFields (l ++ 10 :: joinLines (l' :: ls)) = _
      rw [lineFields_append, lineFields_of_line hl, ih (List.cons_ne_nil _ _) h]
      rfl

/-- `split` takes nothing away when the last field is not empty. -/
theorem rdropWhile_empty {ls : List Bytes} (h : ∀ hne : ls ≠ [], ls.getLast hne ≠ []) :
    ls.rdropWhile (fun l => l = []) = ls := by
  rw [List.rdropWhile_eq_self_iff]
  intro hne he
  exact h hne (by simpa using he)

theorem splitLines_flatMap {ls : List Bytes} (h : ∀ l ∈ ls, l ≠ [] ∧ 10 ∉ l) :
    splitLines (ls.flatMap (· ++ [10])) = ls := by
  unfold splitLines
  rw [lineFields_flatMap fun l hl => (h l hl).2, List.rdropWhile_concat_pos _ _ _ (by simp)]
  exact rdropWhile_empty fun hne => (h _ (List.getLast_mem hne)).1

/-- Lines that are joined are split again. -/
theorem splitLines_joinLines {ls : List Bytes} (h : ∀ l ∈ ls, 10 ∉ l)
    (hlast : ∀ hne : ls ≠ [], ls.getLast hne ≠ []) : splitLines (joinLines ls) = ls := by
  by_cases hne : ls = []
  · subst hne
    rfl
  · rw [splitLines, lineFields_joinLines hne h]
    exact rdropWhile_empty hlast

/-- A value of one line is written as it is. -/
theorem splitLines_line {v : Bytes} (hne : v ≠ []) (hv : 10 ∉ v) : splitLines v = [v] := by
  unfold splitLines
  rw [lineFields_of_line hv, List.rdropWhile_singleton, if_neg (by simpa using hne)]

end LinboxRescue
