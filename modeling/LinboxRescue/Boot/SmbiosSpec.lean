import LinboxRescue.Boot.Smbios
import Mathlib.Data.List.Chain
import Mathlib.Data.List.Forall2

/-!
# The order of the SMBIOS structures

1. `nextStructure_eq` and `smbiosScan_eq`: a search goes from structure to structure, and finds the next
   one of its type.
2. `smbiosString_eq` and `ReadsTable`: what is read from a structure leaves all places as they are,
   although `smbios_string` writes into the table.
3. `inventory_eq` and `usesAll_iff`: the inventory uses all structures exactly when the types come in
   the order in which they are asked for.
-/

namespace LinboxRescue

/-! ## The strings of a structure -/

/-- Not both bytes are NULs. -/
def NotBothZero (a b : UInt8) : Prop := a ≠ 0 ∨ b ≠ 0

theorem isChain_name {s : Bytes} (h : ∀ b ∈ s, b ≠ 0) : List.IsChain NotBothZero (s ++ [0]) := by
  induction s with
  | nil => exact .singleton 0
  | cons b s ih =>
    obtain ⟨hb, h⟩ := List.forall_mem_cons.mp h
    exact (ih h).cons fun _ _ => .inl hb

theorem isChain_names {strings : List Bytes} (h : ∀ s ∈ strings, s ≠ [] ∧ ∀ b ∈ s, b ≠ 0) :
    List.IsChain NotBothZero (namesText strings) := by
  unfold namesText
  split_ifs with hnil
  · exact .singleton 0
  · clear hnil
    induction strings with
    | nil => exact .nil
    | cons s strings ih =>
      obtain ⟨hs, h⟩ := List.forall_mem_cons.mp h
      refine (isChain_name hs.2).append (ih h) fun _ _ y hy => .inr ?_
      -- the next string is not empty
      cases strings with
      | nil => exact nomatch hy
      | cons t strings =>
        obtain ⟨⟨hne, ht⟩, -⟩ := List.forall_mem_cons.mp h
        obtain ⟨b, t, rfl⟩ := List.exists_cons_of_ne_nil hne
        obtain rfl := Option.some.inj hy
        exact ht _ (List.mem_cons_self ..)

/-- The search passes over bytes of which no two neighbours are NULs. -/
theorem stringsEnd_eq {u : Bytes} (hu : List.IsChain NotBothZero (u ++ [0])) (post : Bytes) :
    ∀ {pre : Bytes} {len fuel : ℕ}, pre.length + u.length + 1 < len → u.length ≤ fuel →
      stringsEnd (pre ++ (u ++ 0 :: 0 :: post)) len fuel pre.length = pre.length + u.length := by
  induction u with
  | nil =>
    intro pre len fuel _ _
    have h0 := byteAt_append_right pre (0 :: 0 :: post) 0
    have h1 := byteAt_append_right pre (0 :: 0 :: post) 1
    cases fuel with
    | zero => rfl
    | succ fuel =>
      rw [stringsEnd, if_neg]
      · rfl
      · rintro ⟨-, h | h⟩
        · exact h h0
        · exact h h1
  | cons b u ih =>
    intro pre len fuel hlen hfuel
    obtain ⟨fuel, rfl⟩ : ∃ k, fuel = k + 1 := ⟨fuel - 1, by simp at hfuel; omega⟩
    have hb : byteAt (pre ++ (b :: u ++ 0 :: 0 :: post)) pre.length = b :=
      byteAt_append_right pre (b :: u ++ 0 :: 0 :: post) 0
    have hne : byteAt (pre ++ (b :: u ++ 0 :: 0 :: post)) pre.length ≠ 0 ∨
        byteAt (pre ++ (b :: u ++ 0 :: 0 :: post)) (pre.length + 1) ≠ 0 := by
      rw [hb, byteAt_append_right]
      cases u with
      | nil => exact (List.isChain_cons_cons.mp hu).1
      | cons c u => exact (List.isChain_cons_cons.mp hu).1
    have hnext := @ih (List.isChain_cons.mp hu).2 (pre ++ [b]) len fuel
    rw [List.append_assoc, List.length_append] at hnext
    rw [List.length_cons] at hlen hfuel
    rw [stringsEnd, if_pos ⟨by omega, hne⟩]
    refine (hnext ?_ (by omega)).trans ?_
    · rw [List.length_singleton]
      omega
    · rw [List.length_singleton, List.length_cons]
      omega

theorem namesText_eq (strings : List Bytes) : ∃ u, namesText strings = u ++ [0] := by
  unfold namesText
  split_ifs with hnil
  · exact ⟨[], rfl⟩
  · obtain ⟨ss, s, rfl⟩ := List.eq_nil_or_concat' strings |>.resolve_left hnil
    exact ⟨ss.flatMap (· ++ [0]) ++ s, by simp⟩

theorem length_formatted (x : SmbiosStructure) : x.formatted.length = x.body.length + 2 := rfl

/-- The length that the structure gives. -/
theorem byteAt_length (x : SmbiosStructure) (pre post : Bytes) :
    (byteAt (pre ++ (x.encode ++ post)) (pre.length + 1)).toNat = x.formatted.length := by
  rw [byteAt_append_right]
  exact UInt8.toNat_ofNat_of_lt' x.length_body.2

theorem byteAt_type (x : SmbiosStructure) (pre post : Bytes) :
    byteAt (pre ++ (x.encode ++ post)) pre.length = x.type :=
  byteAt_append_right pre (x.encode ++ post) 0

/-- Behind a structure the next one begins. -/
theorem nextStructure_eq (x : SmbiosStructure) (pre post : Bytes) :
    nextStructure (pre ++ (x.encode ++ post)) (pre ++ (x.encode ++ post)).length pre.length =
      pre.length + x.encode.length := by
  obtain ⟨u, hu⟩ := namesText_eq x.strings
  have hchain := isChain_names x.strings_ne
  rw [hu] at hchain
  have henc : x.encode = x.formatted ++ (u ++ [0, 0]) := by
    unfold SmbiosStructure.encode
    rw [hu, List.append_assoc]
    rfl
  have hmem : pre ++ (x.encode ++ post) = pre ++ x.formatted ++ (u ++ 0 :: 0 :: post) := by
    rw [henc]
    simp only [List.append_assoc, List.cons_append, List.nil_append]
  have hlen : (pre ++ (x.encode ++ post)).length =
      (pre ++ x.formatted).length + u.length + 2 + post.length := by
    rw [hmem]
    simp only [List.length_append, List.length_cons]
    omega
  have hscan := @stringsEnd_eq u hchain post (pre ++ x.formatted) (pre ++ (x.encode ++ post)).length
    (pre ++ (x.encode ++ post)).length (by omega) (by omega)
  have hpre : (pre ++ x.formatted).length = pre.length + x.formatted.length := List.length_append
  rw [← hmem, hpre] at hscan
  unfold nextStructure
  rw [byteAt_length, hscan, henc]
  simp only [List.length_append, List.length_cons, List.length_nil]
  omega

theorem skipNames_eq {strings : List Bytes} (h : ∀ s ∈ strings, s ≠ [] ∧ ∀ b ∈ s, b ≠ 0)
    (post : Bytes) :
    ∀ {pre : Bytes} (n : ℕ), skipNames (pre ++ (strings.flatMap (· ++ [0]) ++ 0 :: post)) n pre.length =
      pre.length + ((strings.take n).flatMap (· ++ [0])).length := by
  induction strings with
  | nil =>
    intro pre n
    have hzero : byteAt (pre ++ (List.flatMap (· ++ [0]) [] ++ 0 :: post)) pre.length = 0 :=
      byteAt_append_right pre (0 :: post) 0
    rw [List.take_nil]
    cases n with
    | zero => rfl
    | succ n => rw [skipNames, if_pos hzero]; rfl
  | cons s strings ih =>
    intro pre n
    obtain ⟨⟨hne, hs⟩, htail⟩ := List.forall_mem_cons.mp h
    cases n with
    | zero => rfl
    | succ n =>
      obtain ⟨b, s, rfl⟩ := List.exists_cons_of_ne_nil hne
      have hflat : pre ++ (((b :: s) :: strings).flatMap (· ++ [0]) ++ 0 :: post) =
          pre ++ (b :: s) ++ 0 :: (strings.flatMap (· ++ [0]) ++ 0 :: post) := by
        simp [List.append_assoc]
      have hb :
          byteAt (pre ++ (b :: s) ++ 0 :: (strings.flatMap (· ++ [0]) ++ 0 :: post)) pre.length = b := by
        rw [List.append_assoc]
        exact byteAt_append_right pre _ 0
      have hcstr :
          cstr ((pre ++ (b :: s) ++ 0 :: (strings.flatMap (· ++ [0]) ++ 0 :: post)).drop pre.length) =
          b :: s := by
        rw [List.append_assoc, List.drop_left]
        exact cstr_append_zero hs _
      have hrest := @ih htail (pre ++ (b :: s ++ [0])) n
      have hlen : (pre ++ (b :: s ++ [0])).length = pre.length + (b :: s).length + 1 := by
        simp only [List.length_append, List.length_cons, List.length_nil]
        omega
      have hsplit : pre ++ (b :: s ++ [0]) ++ (strings.flatMap (· ++ [0]) ++ 0 :: post) =
          pre ++ (b :: s) ++ 0 :: (strings.flatMap (· ++ [0]) ++ 0 :: post) := by
        simp [List.append_assoc]
      rw [hsplit, hlen] at hrest
      rw [hflat, skipNames, if_neg (by rw [hb]; exact hs b (List.mem_cons_self ..)), hcstr, hrest,
        List.take_succ_cons, List.flatMap_cons, List.length_append, List.length_append]
      simp only [List.length_cons, List.length_nil]
      omega

theorem dotted_ne_zero {b : UInt8} (h : b ≠ 0) : dotted b ≠ 0 := by
  unfold dotted
  split_ifs
  · decide
  · exact h

/-- The structures differ at most in characters of their strings. -/
structure SameForm (x y : SmbiosStructure) : Prop where
  type : x.type = y.type
  body : x.body = y.body
  strings : x.strings.map List.length = y.strings.map List.length

theorem SameForm.refl (x : SmbiosStructure) : SameForm x x := ⟨rfl, rfl, rfl⟩

theorem SameForm.trans {x y z : SmbiosStructure} (h : SameForm x y) (h' : SameForm y z) :
    SameForm x z :=
  ⟨h.type.trans h'.type, h.body.trans h'.body, h.strings.trans h'.strings⟩

theorem SameForm.length_encode {x y : SmbiosStructure} (h : SameForm x y) :
    x.encode.length = y.encode.length := by
  have hnil : x.strings = [] ↔ y.strings = [] := by
    rw [← List.map_eq_nil_iff (f := List.length), h.strings, List.map_eq_nil_iff]
  have hsum : ∀ ss : List Bytes, (ss.flatMap (· ++ [0])).length = ((ss.map List.length).map (· + 1)).sum := by
    intro ss
    rw [List.length_flatMap, List.map_map]
    exact congrArg List.sum (List.map_congr_left fun s _ => List.length_append)
  have hnames : (namesText x.strings).length = (namesText y.strings).length := by
    unfold namesText
    by_cases hx : x.strings = []
    · rw [if_pos hx, if_pos (hnil.mp hx)]
    · rw [if_neg hx, if_neg fun hy => hx (hnil.mpr hy), hsum, hsum, h.strings]
  unfold SmbiosStructure.encode
  rw [List.length_append, List.length_append, length_formatted, List.length_append, List.length_append,
    length_formatted, h.body, hnames]

/-- The strings of a structure, up to the NUL that ends the set. -/
theorem encode_append (x : SmbiosStructure) (post : Bytes) : x.encode ++ post = x.formatted ++
    (x.strings.flatMap (· ++ [0]) ++ 0 :: if x.strings = [] then 0 :: post else post) := by
  unfold SmbiosStructure.encode namesText
  split_ifs with hnil
  · rw [hnil]
    simp [List.append_assoc]
  · simp [List.append_assoc]

/-- Where the string with index `idx` is looked for. -/
def stringPlace (mem : Bytes) (dm : ℕ) (idx : UInt8) : ℕ :=
  skipNames mem (idx.toNat - 1) (dm + (byteAt mem (dm + 1)).toNat)

theorem smbiosString_none {dm : ℕ} {idx : UInt8} {st : Smbios}
    (h : idx = 0 ∨ byteAt st.mem (stringPlace st.mem dm idx) = 0) :
    (smbiosString dm idx st).2 = st := by
  unfold smbiosString
  by_cases hidx : idx = 0
  · rw [if_pos hidx]
  · have hzero := h.resolve_left hidx
    unfold stringPlace at hzero
    dsimp only
    rw [if_neg hidx, if_pos hzero]

theorem smbiosString_some {dm : ℕ} {idx : UInt8} {st : Smbios} (hidx : idx ≠ 0)
    (h : byteAt st.mem (stringPlace st.mem dm idx) ≠ 0) : (smbiosString dm idx st).2 =
      { st with
        mem := overwrite st.mem (stringPlace st.mem dm idx)
          ((cstr (st.mem.drop (stringPlace st.mem dm idx))).map dotted) } := by
  unfold stringPlace at *
  unfold smbiosString
  dsimp only
  rw [if_neg hidx, if_neg h]

theorem stringPlace_eq (x : SmbiosStructure) (pre post : Bytes) (idx : UInt8) :
    stringPlace (pre ++ (x.encode ++ post)) pre.length idx =
      (pre ++ x.formatted ++ (x.strings.take (idx.toNat - 1)).flatMap (· ++ [0])).length := by
  unfold stringPlace
  rw [byteAt_length, ← List.length_append, encode_append, ← List.append_assoc,
    skipNames_eq x.strings_ne, List.length_append, List.length_append, List.length_append]

/-- The bytes around one of the strings. -/
theorem encode_split {x : SmbiosStructure} {ss ts : List Bytes} {s : Bytes}
    (h : x.strings = ss ++ s :: ts) (pre post : Bytes) : pre ++ (x.encode ++ post) =
      (pre ++ x.formatted ++ ss.flatMap (· ++ [0])) ++
        (s ++ 0 :: (ts.flatMap (· ++ [0]) ++ 0 :: post)) := by
  have hne : x.strings ≠ [] := by simp [h]
  rw [encode_append, if_neg hne, h]
  simp [List.append_assoc]

/-- The structure when the string between `ss` and `ts` is made fit to be shown. -/
def SmbiosStructure.shown (x : SmbiosStructure) {ss ts : List Bytes} {s : Bytes}
    (h : x.strings = ss ++ s :: ts) : SmbiosStructure where
  type := x.type
  body := x.body
  strings := ss ++ s.map dotted :: ts
  length_body := x.length_body
  strings_ne := by
    have hall := x.strings_ne
    rw [h] at hall
    obtain ⟨hss, hs, hts⟩ := by simpa only [List.forall_mem_append, List.forall_mem_cons] using hall
    simp only [List.forall_mem_append, List.forall_mem_cons]
    refine ⟨hss, ⟨by simpa using hs.1, fun b hb => ?_⟩, hts⟩
    obtain ⟨c, hc, rfl⟩ := List.mem_map.mp hb
    exact dotted_ne_zero (hs.2 c hc)

theorem sameForm_shown (x : SmbiosStructure) {ss ts : List Bytes} {s : Bytes}
    (h : x.strings = ss ++ s :: ts) : SameForm x (x.shown h) := by
  refine ⟨rfl, rfl, ?_⟩
  rw [h]
  simp [SmbiosStructure.shown]

/-- **`smbios_string`** changes no more than the characters of a string of the structure. -/
theorem smbiosString_eq (x : SmbiosStructure) (pre post : Bytes) (idx : UInt8) {st : Smbios}
    (hst : st.mem = pre ++ (x.encode ++ post)) :
    ∃ y, SameForm x y ∧
      (smbiosString pre.length idx st).2 = { st with mem := pre ++ (y.encode ++ post) } := by
  have hsame : st = { st with mem := pre ++ (x.encode ++ post) } := by rw [← hst]
  by_cases hnone : idx = 0 ∨ byteAt st.mem (stringPlace st.mem pre.length idx) = 0
  · exact ⟨x, SameForm.refl x, (smbiosString_none hnone).trans hsame⟩
  obtain ⟨hidx, hne⟩ := not_or.mp hnone
  rw [smbiosString_some hidx hne]
  rw [hst, stringPlace_eq] at hne ⊢
  set n := idx.toNat - 1
  by_cases hn : n < x.strings.length
  · -- string `n` is replaced
    have hsplit : x.strings = x.strings.take n ++ x.strings[n] :: x.strings.drop (n + 1) := by simp
    have hs := x.strings_ne _ (List.getElem_mem hn)
    refine ⟨x.shown hsplit, sameForm_shown x hsplit, ?_⟩
    rw [encode_split hsplit, List.drop_left, cstr_append_zero hs.2,
      overwrite_append _ _ (List.length_map _)]
    rw [encode_split (x := x.shown hsplit) (s := (x.strings[n]).map dotted) rfl]
    rfl
  · -- there is none: the place is that of the last NUL
    rw [List.take_of_length_le (by omega), encode_append] at hne
    refine absurd ?_ hne
    have hflat := byteAt_append_right (pre ++ x.formatted ++ x.strings.flatMap (· ++ [0]))
      (0 :: if x.strings = [] then 0 :: post else post) 0
    simp only [List.append_assoc] at hflat ⊢
    exact hflat

/-! ## Places -/

theorem encode_pos (x : SmbiosStructure) : 0 < x.encode.length := Nat.succ_pos _

theorem structureAt_succ {xs : List SmbiosStructure} {k : ℕ} (hk : k < xs.length) :
    structureAt xs (k + 1) = structureAt xs k + xs[k].encode.length := by
  unfold structureAt encodeTable
  rw [List.take_succ_eq_append_getElem hk, List.flatMap_append, List.length_append, List.flatMap_singleton]

theorem structureAt_lt {xs : List SmbiosStructure} {j k : ℕ} (hjk : j < k) (hk : k ≤ xs.length) :
    structureAt xs j < structureAt xs k := by
  induction k, hjk using Nat.le_induction with
  | base =>
    rw [structureAt_succ (by omega)]
    exact Nat.lt_add_of_pos_right (encode_pos _)
  | succ k _ ih =>
    rw [structureAt_succ (by omega)]
    exact (ih (by omega)).trans_le (Nat.le_add_right _ _)

/-- The tables differ at most in characters of their strings. -/
def SameTable (xs ys : List SmbiosStructure) : Prop := List.Forall₂ SameForm xs ys

theorem SameTable.refl (xs : List SmbiosStructure) : SameTable xs xs :=
  List.forall₂_same.mpr fun x _ => SameForm.refl x

theorem SameTable.length_encode {xs ys : List SmbiosStructure} (h : SameTable xs ys) :
    (encodeTable xs).length = (encodeTable ys).length := by
  induction h with
  | nil => rfl
  | cons hxy _ ih =>
    show (_ ++ encodeTable _).length = (_ ++ encodeTable _).length
    rw [List.length_append, List.length_append, hxy.length_encode, ih]

theorem SameTable.structureAt {xs ys : List SmbiosStructure} (h : SameTable xs ys) (k : ℕ) :
    structureAt xs k = LinboxRescue.structureAt ys k :=
  SameTable.length_encode (List.forall₂_take k h)

/-- The bytes around structure `k`. -/
theorem encodeTable_split {ys : List SmbiosStructure} {k : ℕ} (hk : k < ys.length) :
    encodeTable ys = encodeTable (ys.take k) ++ (ys[k].encode ++ encodeTable (ys.drop (k + 1))) := by
  conv_lhs => rw [← List.take_append_drop k ys, List.drop_eq_getElem_cons hk]
  unfold encodeTable
  rw [List.flatMap_append, List.flatMap_cons]

/-- The memory holds a table like `xs`. -/
structure HoldsTable (xs : List SmbiosStructure) (s : Smbios) : Prop where
  mem : ∃ ys, SameTable xs ys ∧ s.mem = encodeTable ys
  len : s.len = (encodeTable xs).length
  num : s.num = xs.length

section Table

variable {xs : List SmbiosStructure} {s : Smbios} {k : ℕ}

theorem HoldsTable.type (h : HoldsTable xs s) (hk : k < xs.length) :
    byteAt s.mem (structureAt xs k) = xs[k].type := by
  obtain ⟨ys, hys, hmem⟩ := h.mem
  have hk' : k < ys.length := hys.length_eq ▸ hk
  have hform : SameForm xs[k] ys[k] := List.Forall₂.get hys hk hk'
  rw [hmem, hys.structureAt, encodeTable_split hk', hform.type]
  exact byteAt_type _ _ _

theorem HoldsTable.next (h : HoldsTable xs s) (hk : k < xs.length) :
    nextStructure s.mem s.len (structureAt xs k) = structureAt xs (k + 1) := by
  obtain ⟨ys, hys, hmem⟩ := h.mem
  have hk' : k < ys.length := hys.length_eq ▸ hk
  have hnext := nextStructure_eq ys[k] (encodeTable (ys.take k)) (encodeTable (ys.drop (k + 1)))
  rw [← encodeTable_split hk'] at hnext
  rw [h.len, hys.length_encode, hmem, hys.structureAt, hys.structureAt, structureAt_succ hk']
  exact hnext

/-- A string of structure `k` is read. -/
theorem HoldsTable.string (h : HoldsTable xs s) (hk : k < xs.length) (idx : UInt8) :
    ∃ mem, (smbiosString (structureAt xs k) idx s).2 = { s with mem } ∧ HoldsTable xs { s with mem } := by
  obtain ⟨ys, hys, hmem⟩ := h.mem
  have hk' : k < ys.length := hys.length_eq ▸ hk
  have hform : SameForm xs[k] ys[k] := List.Forall₂.get hys hk hk'
  have hsplit := encodeTable_split hk'
  obtain ⟨y, hy, hrun⟩ := smbiosString_eq ys[k] (encodeTable (ys.take k))
    (encodeTable (ys.drop (k + 1))) idx (hmem.trans hsplit)
  refine ⟨encodeTable (ys.take k) ++ (y.encode ++ encodeTable (ys.drop (k + 1))), ?_,
    ⟨⟨ys.take k ++ y :: ys.drop (k + 1), ?_, ?_⟩, h.len, h.num⟩⟩
  · rw [hys.structureAt]
    exact hrun
  · rw [← List.take_append_drop k xs, List.drop_eq_getElem_cons hk]
    exact List.rel_append (List.forall₂_take k hys)
      (.cons (hform.trans hy) (List.forall₂_drop (k + 1) hys))
  · unfold encodeTable
    rw [List.flatMap_append, List.flatMap_cons]

end Table

/-! ## ReadsTable a structure -/

/-- What is read from the table leaves its structures where they are, and the place of the search. -/
def ReadsTable {α : Type} (xs : List SmbiosStructure) (m : StateM Smbios α) : Prop :=
  ∀ s, HoldsTable xs s → HoldsTable xs (m s).2 ∧ (m s).2.i = s.i ∧ (m s).2.ptr = s.ptr

section ReadsTable

variable {α β : Type} {xs : List SmbiosStructure} {k : ℕ}

theorem ReadsTable.pure (a : α) : ReadsTable xs (Pure.pure a : StateM Smbios α) :=
  fun _ h => ⟨h, rfl, rfl⟩

theorem ReadsTable.bind {m : StateM Smbios α} {f : α → StateM Smbios β} (hm : ReadsTable xs m)
    (hf : ∀ a, ReadsTable xs (f a)) : ReadsTable xs (m >>= f) := by
  intro s h
  obtain ⟨h1, hi1, hp1⟩ := hm s h
  obtain ⟨h2, hi2, hp2⟩ := hf (m s).1 (m s).2 h1
  exact ⟨h2, hi2.trans hi1, hp2.trans hp1⟩

theorem reading_get : ReadsTable xs (get : StateM Smbios Smbios) := fun _ h => ⟨h, rfl, rfl⟩

theorem reading_byte (p : ℕ) : ReadsTable xs (readByte p) := fun _ h => ⟨h, rfl, rfl⟩

theorem reading_word (p : ℕ) : ReadsTable xs (readWord p) := fun _ h => ⟨h, rfl, rfl⟩

theorem reading_string (hk : k < xs.length) (off : ℕ) : ReadsTable xs
    (stringField (structureAt xs k) off) := by
  refine (reading_byte _).bind fun idx s h => ?_
  obtain ⟨mem, hrun, hmem⟩ := h.string hk idx
  rw [hrun]
  exact ⟨hmem, rfl, rfl⟩

theorem reading_mapM {ps : List ℕ} {f : ℕ → StateM Smbios β} (hf : ∀ p, ReadsTable xs (f p)) :
    ReadsTable xs (ps.mapM f) := by
  induction ps with
  | nil => exact ReadsTable.pure []
  | cons p ps ih =>
    rw [List.mapM_cons]
    exact (hf p).bind fun _ => ih.bind fun _ => ReadsTable.pure _

variable (hk : k < xs.length)

include hk

theorem reading_bios : ReadsTable xs (readBios (structureAt xs k)) :=
  (reading_string hk _).bind fun _ => (reading_string hk _).bind fun _ =>
    (reading_string hk _).bind fun _ => ReadsTable.pure _

theorem reading_system : ReadsTable xs (readSystem (structureAt xs k)) :=
  (reading_string hk _).bind fun _ => (reading_string hk _).bind fun _ =>
    (reading_string hk _).bind fun _ => (reading_string hk _).bind fun _ =>
      (reading_mapM fun _ => reading_byte _).bind fun _ => ReadsTable.pure _

theorem reading_enclosure : ReadsTable xs (readEnclosure (structureAt xs k)) :=
  (reading_string hk _).bind fun _ => (reading_byte _).bind fun _ => ReadsTable.pure _

theorem reading_memory : ReadsTable xs (readMemory (structureAt xs k)) :=
  (reading_word _).bind fun _ => (reading_byte _).bind fun _ => (reading_string hk _).bind fun _ =>
    (reading_byte _).bind fun _ => (reading_byte _).bind fun _ => (reading_byte _).bind fun _ =>
      (reading_word _).bind fun _ => reading_get.bind fun _ => ReadsTable.pure _

end ReadsTable

/-! ## Searches -/

/-- The structures of type `t` from number `c` on. -/
def indexesFrom (xs : List SmbiosStructure) (t : UInt8) (c : ℕ) : List ℕ :=
  (List.range' c (xs.length - c)).filter fun k => (xs.map SmbiosStructure.type)[k]? = some t

section Search

variable {xs : List SmbiosStructure} {t : UInt8} {c : ℕ}

theorem structuresOf_eq (xs : List SmbiosStructure) (t : UInt8) :
    structuresOf xs t = (indexesFrom xs t 0).map (structureAt xs) := by
  unfold structuresOf indexesFrom
  rw [List.range_eq_range', Nat.sub_zero]

theorem indexesFrom_of_le (h : xs.length ≤ c) : indexesFrom xs t c = [] := by
  unfold indexesFrom
  rw [Nat.sub_eq_zero_of_le h]
  rfl

theorem indexesFrom_eq (hc : c < xs.length) : indexesFrom xs t c =
    if xs[c].type = t then c :: indexesFrom xs t (c + 1) else indexesFrom xs t (c + 1) := by
  have htype : (xs.map SmbiosStructure.type)[c]? = some xs[c].type := by
    rw [List.getElem?_map, List.getElem?_eq_getElem hc]
    rfl
  have hlen : xs.length - c = xs.length - (c + 1) + 1 := by omega
  unfold indexesFrom
  rw [hlen, List.range'_succ, List.filter_cons, htype]
  simp only [Option.some.injEq, decide_eq_true_eq]

theorem mem_indexesFrom {k : ℕ} (h : k ∈ indexesFrom xs t c) : c ≤ k ∧ k < xs.length := by
  have hk := List.mem_range'_1.mp (List.mem_filter.mp h).1
  omega

/-- Behind the first structure that is found come the others. -/
theorem indexesFrom_cons {k : ℕ} {ks : List ℕ} (h : indexesFrom xs t c = k :: ks) :
    ks = indexesFrom xs t (k + 1) := by
  induction hn : xs.length - c generalizing c with
  | zero =>
    rw [indexesFrom_of_le (by omega)] at h
    cases h
  | succ n ih =>
    rw [indexesFrom_eq (by omega)] at h
    split_ifs at h with htype
    · obtain ⟨rfl, rfl⟩ := List.cons.inj h
      rfl
    · exact ih h (by omega)

/-- **A search** finds the next structure of its type. -/
theorem smbiosScan_eq {s : Smbios} (h : HoldsTable xs s) :
    smbiosScan s.mem s.len t (xs.length - c) c (structureAt xs c) =
      match (indexesFrom xs t c).head? with
      | some k => (some (structureAt xs k), k + 1, some (structureAt xs (k + 1)))
      | none => (none, max c xs.length, none) := by
  induction hn : xs.length - c generalizing c with
  | zero =>
    rw [indexesFrom_of_le (by omega), max_eq_left (by omega)]
    rfl
  | succ n ih =>
    have hc : c < xs.length := by omega
    rw [smbiosScan, h.type hc, h.next hc, indexesFrom_eq hc]
    split_ifs with htype
    · rfl
    · rw [ih (by omega)]
      have hmax : max (c + 1) xs.length = max c xs.length := by omega
      rw [hmax]

/-- The next search starts at number `c`. -/
def StartsAt (xs : List SmbiosStructure) (s : Smbios) (c : ℕ) : Prop :=
  (s.ptr = none ∧ c = 0) ∨ (s.ptr = some (structureAt xs c) ∧ s.i = c)

theorem StartsAt.congr {s s' : Smbios} (h : StartsAt xs s c) (hi : s'.i = s.i) (hp : s'.ptr = s.ptr) :
    StartsAt xs s' c := by
  unfold StartsAt
  rw [hi, hp]
  exact h

/-- Where the search after this one starts. -/
def startAfter : List ℕ → ℕ
  | [] => 0
  | k :: _ => k + 1

theorem smbiosGet_eq {s : Smbios} (h : HoldsTable xs s) (hs : StartsAt xs s c) :
    (smbiosGet t s).1 = (indexesFrom xs t c).head?.map (structureAt xs) ∧
      HoldsTable xs (smbiosGet t s).2 ∧ StartsAt xs (smbiosGet t s).2 (startAfter (indexesFrom xs t c)) := by
  have hstart : s.ptr.getD 0 = structureAt xs c ∧ (if s.ptr = none then 0 else s.i) = c := by
    rcases hs with ⟨hp, rfl⟩ | ⟨hp, rfl⟩
    · rw [hp]
      exact ⟨rfl, rfl⟩
    · rw [hp]
      exact ⟨rfl, rfl⟩
  have hscan := smbiosScan_eq (t := t) (c := c) h
  have hrun : smbiosGet t s = ((smbiosScan s.mem s.len t (s.num - c) c (structureAt xs c)).1,
      { s with
        i := (smbiosScan s.mem s.len t (s.num - c) c (structureAt xs c)).2.1
        ptr := (smbiosScan s.mem s.len t (s.num - c) c (structureAt xs c)).2.2 }) := by
    unfold smbiosGet
    dsimp only
    rw [hstart.1, hstart.2]
  rw [← h.num] at hscan
  rw [hrun, hscan]
  cases indexesFrom xs t c with
  | nil => exact ⟨rfl, ⟨h.mem, h.len, h.num⟩, .inl ⟨rfl, rfl⟩⟩
  | cons k ks => exact ⟨rfl, ⟨h.mem, h.len, h.num⟩, .inr ⟨rfl, rfl⟩⟩

/-- A search, with what is read from the structure. -/
theorem smbiosQuery_eq {α : Type} {read : ℕ → StateM Smbios α} {s : Smbios} (h : HoldsTable xs s)
    (hs : StartsAt xs s c) (hread : ∀ k < xs.length, ReadsTable xs (read (structureAt xs k))) :
    ((smbiosQuery t read s).1).map Prod.fst = (indexesFrom xs t c).head?.map (structureAt xs) ∧
      HoldsTable xs (smbiosQuery t read s).2 ∧
      StartsAt xs (smbiosQuery t read s).2 (startAfter (indexesFrom xs t c)) := by
  obtain ⟨hfound, hin, hat⟩ := smbiosGet_eq (t := t) h hs
  have hrun : smbiosQuery t read s = (smbiosGet t s).1.elim (none, (smbiosGet t s).2) fun ptr =>
      (some (ptr, (read ptr (smbiosGet t s).2).1), (read ptr (smbiosGet t s).2).2) := by
    have hbind : ∀ f : Option ℕ → StateM Smbios (Option (ℕ × α)),
        (smbiosGet t >>= f) s = f (smbiosGet t s).1 (smbiosGet t s).2 := fun _ => rfl
    unfold smbiosQuery
    rw [hbind]
    cases (smbiosGet t s).1 <;> rfl
  rw [hrun, hfound]
  cases hix : indexesFrom xs t c with
  | nil =>
    rw [hix] at hat
    exact ⟨rfl, hin, hat⟩
  | cons k ks =>
    rw [hix] at hat
    have hk : k < xs.length := (mem_indexesFrom (hix ▸ List.mem_cons_self ..)).2
    obtain ⟨hin', hi, hp⟩ := hread k hk _ hin
    exact ⟨rfl, hin', hat.congr hi hp⟩

/-- A loop of searches finds all the structures that are left. -/
theorem queryLoop_eq {α : Type} {query : StateM Smbios (Option α)} (place : α → ℕ)
    (hq : ∀ s c, HoldsTable xs s → StartsAt xs s c →
      (query s).1.map place = (indexesFrom xs t c).head?.map (structureAt xs) ∧
        HoldsTable xs (query s).2 ∧ StartsAt xs (query s).2 (startAfter (indexesFrom xs t c)))
    {s : Smbios} (h : HoldsTable xs s) (hs : StartsAt xs s c) :
    ∃ r, Returns (fun fuel => queryLoop query fuel s) r ∧
      r.1.map place = (indexesFrom xs t c).map (structureAt xs) ∧ HoldsTable xs r.2 ∧ StartsAt xs r.2 0 := by
  induction hix : indexesFrom xs t c generalizing c s with
  | nil =>
    obtain ⟨hfound, hin, hat⟩ := hq s c h hs
    rw [hix] at hfound hat
    have hnone : (query s).1 = none := Option.map_eq_none_iff.mp hfound
    have hquery : query.run s = (none, (query s).2) := Prod.ext hnone rfl
    refine ⟨([], (query s).2), Returns.last fun fuel => ?_, rfl, hin, hat⟩
    rw [queryLoop, hquery]
  | cons k ks ih =>
    obtain ⟨hfound, hin, hat⟩ := hq s c h hs
    rw [hix] at hfound hat
    obtain ⟨x, hx, hplace⟩ := Option.map_eq_some_iff.mp hfound
    obtain ⟨r, hrun, hall, hin', hat'⟩ := ih hin hat (indexesFrom_cons hix).symm
    refine ⟨(x :: r.1, r.2), ?_, ?_, hin', hat'⟩
    · refine Returns.step (g := fun fuel => queryLoop query fuel (query s).2 >>= fun r =>
        .ok (x :: r.1, r.2)) (fun fuel => ?_) (hrun.bind (Returns.pure _))
      have hquery : query.run s = (some x, (query s).2) := Prod.ext hx rfl
      rw [queryLoop, hquery]
    · rw [List.map_cons, List.map_cons, hplace, hall]

end Search

/-! ## The inventory -/

section Inventory

variable {xs : List SmbiosStructure} {ver : ℕ}

theorem inTable_ofTable (xs : List SmbiosStructure) (ver : ℕ) : HoldsTable xs (Smbios.ofTable xs ver) :=
  ⟨⟨xs, SameTable.refl xs, rfl⟩, rfl, rfl⟩

/-- **The inventory** is read from these structures. -/
theorem inventory_eq (xs : List SmbiosStructure) (ver : ℕ) :
    ∃ inv, Returns (fun fuel => inventory fuel (Smbios.ofTable xs ver)) inv ∧
      inv.bios.map Prod.fst = (indexesFrom xs 0 0).head?.map (structureAt xs) ∧
      ∃ c₁ c₂ c₃, c₁ = startAfter (indexesFrom xs 0 0) ∧
        inv.system.map Prod.fst = (indexesFrom xs 1 c₁).head?.map (structureAt xs) ∧
        c₂ = startAfter (indexesFrom xs 1 c₁) ∧
        inv.enclosure.map Prod.fst = (indexesFrom xs 3 c₂).head?.map (structureAt xs) ∧
        c₃ = startAfter (indexesFrom xs 3 c₂) ∧
        inv.memory.map Prod.fst = (indexesFrom xs 17 c₃).map (structureAt xs) ∧
        inv.cpus = max 1 (indexesFrom xs 4 0).length := by
  obtain ⟨h1, hin1, hat1⟩ := smbiosQuery_eq (t := 0) (inTable_ofTable xs ver) (.inl ⟨rfl, rfl⟩)
    fun _ => reading_bios
  obtain ⟨h2, hin2, hat2⟩ := smbiosQuery_eq (t := 1) hin1 hat1 fun _ => reading_system
  obtain ⟨h3, hin3, hat3⟩ := smbiosQuery_eq (t := 3) hin2 hat2 fun _ => reading_enclosure
  obtain ⟨r, hmem, h4, hin4, -⟩ := queryLoop_eq (t := 17) Prod.fst
    (fun s c h hs => smbiosQuery_eq h hs fun _ => reading_memory) hin3 hat3
  -- `smbios_get_numcpu` starts anew
  have hin5 : HoldsTable xs { r.2 with ptr := none } := ⟨hin4.mem, hin4.len, hin4.num⟩
  have hget : ∀ s c, HoldsTable xs s → StartsAt xs s c →
      ((smbiosGet 4 s).1).map id = (indexesFrom xs 4 c).head?.map (structureAt xs) ∧
        HoldsTable xs (smbiosGet 4 s).2 ∧
          StartsAt xs (smbiosGet 4 s).2 (startAfter (indexesFrom xs 4 c)) := by
    intro s c h hs
    rw [Option.map_id]
    exact smbiosGet_eq h hs
  obtain ⟨r', hcpu, h5, -⟩ := queryLoop_eq id hget hin5 (.inl ⟨rfl, rfl⟩)
  have hnum : Returns (fun fuel => smbiosGetNumcpu fuel r.2)
      (if r'.1.length = 0 then 1 else r'.1.length) := hcpu.bind (Returns.pure _)
  refine ⟨_, hmem.bind (hnum.bind (Returns.pure _)), h1, _, _, _, rfl, h2, rfl, h3, rfl, h4, ?_⟩
  have hlen := congrArg List.length h5
  rw [List.map_id, List.length_map] at hlen
  show (if r'.1.length = 0 then 1 else r'.1.length) = _
  rw [hlen]
  split_ifs <;> omega

theorem structureAt_inj {j k : ℕ} (hj : j < xs.length) (hk : k < xs.length)
    (h : structureAt xs j = structureAt xs k) : j = k := by
  rcases Nat.lt_trichotomy j k with hlt | heq | hlt
  · exact absurd h (structureAt_lt hlt hk.le).ne
  · exact heq
  · exact absurd h.symm (structureAt_lt hlt hj.le).ne

variable {t u : UInt8} {c : ℕ}

/-- Nothing is missed by a search that starts in front of all structures of its type. -/
theorem indexesFrom_of_forall (h : ∀ q ∈ indexesFrom xs t 0, c ≤ q) :
    indexesFrom xs t c = indexesFrom xs t 0 := by
  induction c with
  | zero => rfl
  | succ c ih =>
    have hc := ih fun q hq => (Nat.le_succ c).trans (h q hq)
    rcases Nat.lt_or_ge c xs.length with hlt | hge
    · rw [indexesFrom_eq hlt] at hc
      split_ifs at hc with htype
      · have hmem := h c (hc ▸ List.mem_cons_self ..)
        omega
      · exact hc
    · rw [indexesFrom_of_le (by omega), ← hc, indexesFrom_of_le hge]

theorem head_structuresOf_iff : (indexesFrom xs t c).head?.map (structureAt xs) =
    (structuresOf xs t).head? ↔
    ∀ q ∈ indexesFrom xs t 0, c ≤ q := by
  rw [structuresOf_eq, List.head?_map]
  constructor
  · intro h
    cases h0 : indexesFrom xs t 0 with
    | nil => exact fun q hq => absurd hq List.not_mem_nil
    | cons k ks =>
      have hk : k ∈ indexesFrom xs t 0 := h0 ▸ List.mem_cons_self ..
      rw [h0] at h
      obtain ⟨k', hk', hat⟩ := Option.map_eq_some_iff.mp h
      have hmem := mem_indexesFrom (List.mem_of_mem_head? hk')
      obtain rfl := structureAt_inj hmem.2 (mem_indexesFrom hk).2 hat
      refine List.forall_mem_cons.mpr ⟨hmem.1, fun q hq => ?_⟩
      rw [indexesFrom_cons h0] at hq
      have hq := mem_indexesFrom hq
      omega
  · intro h
    rw [indexesFrom_of_forall h]

theorem structuresOf_iff : (indexesFrom xs t c).map (structureAt xs) = structuresOf xs t ↔
    ∀ q ∈ indexesFrom xs t 0, c ≤ q := by
  rw [structuresOf_eq]
  constructor
  · intro h q hq
    obtain ⟨q', hq', hat⟩ := List.mem_map.mp (h ▸ List.mem_map_of_mem hq)
    have hmem := mem_indexesFrom hq'
    obtain rfl := structureAt_inj hmem.2 (mem_indexesFrom hq).2 hat
    exact hmem.1
  · intro h
    rw [indexesFrom_of_forall h]

theorem firstOf_iff : FirstOf xs t u ↔ ∀ q ∈ indexesFrom xs u 0, startAfter
    (indexesFrom xs t 0) ≤ q := by
  unfold FirstOf
  rw [structuresOf_eq, structuresOf_eq, List.head?_map]
  simp only [List.forall_mem_map]
  cases ht : indexesFrom xs t 0 with
  | nil => exact ⟨fun _ _ _ => Nat.zero_le _, fun _ _ hp => nomatch hp⟩
  | cons k ks =>
    have hk := (mem_indexesFrom (ht ▸ List.mem_cons_self .. : k ∈ indexesFrom xs t 0)).2
    constructor
    · intro h q hq
      by_contra hlt
      have hle : structureAt xs q ≤ structureAt xs k := by
        rcases (Nat.le_of_lt_succ (Nat.lt_of_not_le hlt)).lt_or_eq with hqk | rfl
        · exact (structureAt_lt hqk hk.le).le
        · exact le_rfl
      exact absurd (h _ rfl q hq) hle.not_gt
    · rintro h p hp q hq
      obtain rfl := Option.some.inj hp
      exact structureAt_lt (h q hq) (mem_indexesFrom hq).2.le

/-- **The inventory uses all structures** exactly when the first one of type 0 is in front of those of
type 1, the first of these in front of those of type 3, and the first of these in front of the memory
devices. -/
theorem usesAll_iff (xs : List SmbiosStructure) (ver : ℕ) :
    (∃ inv, Returns (fun fuel => inventory fuel (Smbios.ofTable xs ver)) inv ∧ UsesAll xs inv) ↔
      FirstOf xs 0 1 ∧ FirstOf xs 1 3 ∧ FirstOf xs 3 17 := by
  obtain ⟨inv, hrun, h0, c₁, c₂, c₃, hc₁, h1, hc₂, h3, hc₃, h17, h4⟩ := inventory_eq xs ver
  have hcpus : (structuresOf xs 4).length = (indexesFrom xs 4 0).length := by
    rw [structuresOf_eq, List.length_map]
  simp only [firstOf_iff]
  constructor
  · rintro ⟨inv', hrun', huses⟩
    obtain rfl := hrun.unique hrun'
    have hall1 := head_structuresOf_iff.mp (h1.symm.trans huses.system)
    rw [indexesFrom_of_forall hall1] at hc₂
    have hall3 := head_structuresOf_iff.mp (h3.symm.trans huses.enclosure)
    rw [indexesFrom_of_forall hall3] at hc₃
    have hall17 := structuresOf_iff.mp (h17.symm.trans huses.memory)
    exact ⟨hc₁ ▸ hall1, hc₂ ▸ hall3, hc₃ ▸ hall17⟩
  · rintro ⟨hall1, hall3, hall17⟩
    rw [← hc₁] at hall1
    rw [indexesFrom_of_forall hall1] at hc₂
    rw [← hc₂] at hall3
    rw [indexesFrom_of_forall hall3] at hc₃
    rw [← hc₃] at hall17
    refine ⟨inv, hrun, ⟨h0.trans (head_structuresOf_iff.mpr fun _ _ => Nat.zero_le _),
      h1.trans (head_structuresOf_iff.mpr hall1), h3.trans (head_structuresOf_iff.mpr hall3),
      h17.trans (structuresOf_iff.mpr hall17), h4.trans (by rw [hcpus])⟩⟩

end Inventory

/-- The machine in front of its firmware. -/
def systemFirst : List SmbiosStructure :=
  [⟨1, List.replicate 22 0, [], by decide, by decide⟩, ⟨0, List.replicate 22 0, [], by decide, by decide⟩]

/-- The machine is not found. -/
theorem not_usesAll_systemFirst :
    ¬ ∃ inv, Returns (fun fuel => inventory fuel (Smbios.ofTable systemFirst 24)) inv ∧
      UsesAll systemFirst inv := by
  rintro ⟨inv, hrun, huses⟩
  obtain ⟨inv', hrun', -, c₁, c₂, c₃, hc₁, h1, -⟩ := inventory_eq systemFirst 24
  obtain rfl := hrun.unique hrun'
  have hc : c₁ = 2 := hc₁.trans (by decide)
  rw [hc] at h1
  exact absurd (h1.symm.trans huses.system) (by decide)

end LinboxRescue
