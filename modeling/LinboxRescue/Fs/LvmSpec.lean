import LinboxRescue.Fs.Lvm
import LinboxRescue.Image.Format

/-!
# The volume that `lvm_check` finds

LVM2 writes its metadata as text: a section for the volume group with its fields, among them
`extent_size`, then the section `physical_volumes` with a section for every physical volume, whose
uuid, start and size are the fields `id`, `pe_start` and `pe_count`. `Metadata` is such a text up to
the section of one physical volume.

1. `run_ownSection`: from state 1 on, the loop ends with the fields of the section that has the uuid.
2. `volumeFound_iff`: the result is right exactly when the start fits the type of the offset and no
   line before `extent_size` has the text `physical_volumes` in it, or the volume has no extents.
-/

namespace LinboxRescue

/-! ## Lines -/

/-- A line of text that one call of `fgets` reads. -/
def TextLine (l : Bytes) : Prop := (∀ b ∈ l, b ≠ 0 ∧ b ≠ 10) ∧ l.length < 126

/-- A line without braces. -/
structure SimpleLine (l : Bytes) : Prop where
  text : TextLine l
  plain : 123 ∉ l ∧ 125 ∉ l

/-- The line that opens a section. -/
structure OpenLine (l : Bytes) : Prop where
  text : TextLine l
  brace : 123 ∈ l ∧ 125 ∉ l
  no_field : 61 ∉ l

/-- The line that closes a section. -/
structure CloseLine (l : Bytes) : Prop where
  text : TextLine l
  brace : 125 ∈ l ∧ 123 ∉ l
  no_field : 61 ∉ l

/-- What is before the first white space or `=`. -/
def lineKey (l : Bytes) : Bytes := l.takeWhile fun b => !isSpace b && b != 61

/-- White space within a line. -/
def IsBlank (ws : Bytes) : Prop := ∀ b ∈ ws, isSpace b = true

/-- `key = n`. -/
structure NumberLine (key : Bytes) (n : ℕ) (l : Bytes) : Prop extends SimpleLine l where
  field : ∃ ws ws' rest, IsBlank ws ∧ IsBlank ws' ∧ (∀ b ∈ rest.head?, isDigit b = false) ∧
    l = key ++ (ws ++ 61 :: (ws' ++ (dec n ++ rest)))

/-- `id` is the uuid `u`, with dashes between some of its characters. -/
structure IsUuid (u id : Bytes) : Prop where
  chars : id.filter (· ≠ 45) = u
  apart : id.IsChain fun a b => ¬ (a = 45 ∧ b = 45)
  short : id.length ≤ 38
  word : ∀ b ∈ id, isSpace b = false

/-- `id = "..."` with the uuid `u`. -/
structure IdLine (u l : Bytes) : Prop extends SimpleLine l where
  field : ∃ ws ws' id rest, IsBlank ws ∧ IsBlank ws' ∧ IsUuid u id ∧
    l = ascii "id" ++ (ws ++ 61 :: (ws' ++ 34 :: (id ++ 34 :: rest)))

/-- The bytes of lines. -/
def lineBytes (ls : List Bytes) : Bytes := ls.flatMap (· ++ [10])

/-! ## Metadata -/

/-- A key that the section of a physical volume has once. -/
def volumeKeys : List Bytes := [ascii "id", ascii "pe_start", ascii "pe_count"]

/-- The section of a physical volume, with the blank lines before it. -/
structure PvSection where
  uuid : Bytes
  peStart : ℕ
  peCount : ℕ
  gap : List Bytes
  header : Bytes
  id : Bytes
  start : Bytes
  count : Bytes
  close : Bytes
  /-- The other fields: before the uuid, up to the start, up to the count and behind. -/
  fields₁ : List Bytes
  fields₂ : List Bytes
  fields₃ : List Bytes
  fields₄ : List Bytes
  size : uuid.length = 32
  header_open : OpenLine header
  id_line : IdLine uuid id
  start_line : NumberLine (ascii "pe_start") peStart start
  count_line : NumberLine (ascii "pe_count") peCount count
  close_line : CloseLine close
  plain : ∀ l ∈ gap ++ fields₁ ++ fields₂ ++ fields₃ ++ fields₄, SimpleLine l
  keys : ∀ l ∈ gap ++ fields₁ ++ fields₂ ++ fields₃ ++ fields₄, lineKey l ∉ volumeKeys

def PvSection.lines (s : PvSection) : List Bytes :=
  s.gap ++ s.header :: (s.fields₁ ++ s.id :: (s.fields₂ ++ s.start :: (s.fields₃ ++
    s.count :: (s.fields₄ ++ [s.close]))))

/-- The metadata up to the section `own` of one of the physical volumes. -/
structure Metadata where
  extentSize : ℕ
  vg : Bytes
  /-- The fields of the volume group before and after the size of an extent. -/
  fields₁ : List Bytes
  extent : Bytes
  fields₂ : List Bytes
  volumes : Bytes
  before : List PvSection
  own : PvSection
  vg_open : OpenLine vg
  extent_line : NumberLine (ascii "extent_size") extentSize extent
  volumes_open : OpenLine volumes
  volumes_name : ascii "physical_volumes" <+: volumes
  plain : ∀ l ∈ fields₁ ++ fields₂, SimpleLine l
  keys : ∀ l ∈ fields₁ ++ fields₂, lineKey l ≠ ascii "extent_size"
  /-- The volume group has another uuid. -/
  ids : ∀ l ∈ fields₁ ++ fields₂, lineKey l = ascii "id" → ∃ u, u.length = 32 ∧ IdLine u l ∧ u ≠ own.uuid
  uuids : ∀ s ∈ before, s.uuid ≠ own.uuid
  extents_lt : extentSize * own.peCount < 2 ^ 31

/-- The lines before the size of an extent. -/
def Metadata.preamble (M : Metadata) : List Bytes := M.vg :: M.fields₁

def Metadata.lines (M : Metadata) : List Bytes :=
  M.preamble ++ M.extent :: (M.fields₂ ++ M.volumes :: (M.before.flatMap PvSection.lines ++ M.own.lines))

/-- A device whose label leads to a text that begins with the metadata. -/
def Metadata.On (M : Metadata) (dev buf : Bytes) : Prop :=
  word (readAt dev 0 1024 buf) 0 ≠ 0x00014d48 ∧
    ∃ tail, lvm2Header dev (readAt dev 0 1024 buf) = .found M.own.uuid (lineBytes M.lines ++ tail)

/-- `lvm_check` finds the start of the physical volume and the size of its extents. -/
def Metadata.Found (M : Metadata) (dev buf b : Bytes) (sect : ℕ) : Prop :=
  Returns (fun fuel => lvmCheck fuel dev buf b sect)
    ((512 * M.own.peStart : ℕ), M.extentSize * M.own.peCount)

/-! ## Scanning a line -/

theorem skipSpace_blank {ws : Bytes} (h : IsBlank ws) (t : Bytes) : skipSpace (ws ++ t) = skipSpace t :=
  List.dropWhile_append_of_pos h

theorem scanText_append (s t : Bytes) : scanText s (s ++ t) = some t := by
  unfold scanText
  rw [if_pos (by simp), List.drop_left]

theorem scanText_eq_some {s t r : Bytes} (h : scanText s t = some r) : t = s ++ r := by
  unfold scanText at h
  split_ifs at h with hp
  obtain ⟨r', rfl⟩ := List.isPrefixOf_iff_prefix.mp hp
  rw [List.drop_left] at h
  rw [Option.some.inj h]

/-- A byte that can be in a key. -/
def isKeyByte (b : UInt8) : Bool := !isSpace b && b != 61

/-- A format for one key matches only lines with this key, and an `=`. -/
theorem lineKey_of_scanKey {key t r : Bytes} (hkey : ∀ b ∈ key, isKeyByte b = true)
    (h : scanKey key t = some r) : lineKey t = key ∧ 61 ∈ t := by
  obtain ⟨t', ht', h⟩ := Option.bind_eq_some_iff.mp h
  obtain ⟨t'', ht'', -⟩ := Option.map_eq_some_iff.mp h
  have hsplit := scanText_eq_some ht''
  obtain rfl := scanText_eq_some ht'
  have hmem : 61 ∈ t' := by
    apply (List.dropWhile_sublist isSpace).mem
    show 61 ∈ skipSpace t'
    rw [hsplit]
    exact List.mem_cons_self
  refine ⟨takeWhile_append_stop hkey fun b hb => ?_, List.mem_append_right _ hmem⟩
  -- the key is followed by white space or the `=`
  cases t' with
  | nil => cases hb
  | cons c t' =>
    obtain rfl : c = b := by simpa using hb
    cases hc : isSpace c with
    | true => simp
    | false =>
      rw [skipSpace_of_head hc] at hsplit
      simp [(List.cons.inj hsplit).1]

theorem scanKey_field {key ws ws' x : Bytes} (hws : IsBlank ws) (hws' : IsBlank ws')
    (hx : skipSpace x = x) : scanKey key (key ++ (ws ++ 61 :: (ws' ++ x))) = some x := by
  unfold scanKey
  rw [scanText_append, Option.bind_some, skipSpace_blank hws, skipSpace_of_head (by decide),
    show 61 :: (ws' ++ x) = [61] ++ (ws' ++ x) from rfl, scanText_append, Option.map_some,
    skipSpace_blank hws', hx]

theorem lineKey_newline (l : Bytes) : lineKey (l ++ [10]) = lineKey l := by
  unfold lineKey
  induction l with
  | nil => rfl
  | cons b l ih => rw [List.cons_append, List.takeWhile_cons, List.takeWhile_cons, ih]

/-- Other lines, and lines without an `=`, do not match. -/
theorem scanKey_eq_none {key l : Bytes} (hkey : ∀ b ∈ key, isKeyByte b = true)
    (h : lineKey l ≠ key ∨ 61 ∉ l) : scanKey key (l ++ [10]) = none := by
  by_contra hne
  obtain ⟨r, hr⟩ := Option.ne_none_iff_exists'.mp hne
  obtain ⟨h1, h2⟩ := lineKey_of_scanKey hkey hr
  rw [lineKey_newline] at h1
  rcases h with h | h
  · exact h h1
  · exact h ((List.mem_append.mp h2).resolve_right (by decide))

theorem scanField_eq_none {key l : Bytes} (hkey : ∀ b ∈ key, isKeyByte b = true)
    (h : lineKey l ≠ key ∨ 61 ∉ l) : scanField key (l ++ [10]) = none := by
  unfold scanField
  rw [scanKey_eq_none hkey h, Option.bind_none]

theorem scanId_eq_none {l : Bytes} (h : lineKey l ≠ ascii "id" ∨ 61 ∉ l) : scanId (l ++ [10]) = none := by
  unfold scanId
  rw [scanKey_eq_none (by decide) h, Option.bind_none]

theorem scanField_number {key l : Bytes} {n : ℕ} (h : NumberLine key n l) :
    scanField key (l ++ [10]) = some (n : ℤ) := by
  obtain ⟨ws, ws', rest, hws, hws', hrest, rfl⟩ := h.field
  have hstop : ∀ b ∈ (rest ++ [10]).head?, isDigit b = false := by
    intro b hb
    cases rest with
    | nil =>
      obtain rfl : 10 = b := by simpa using hb
      rfl
    | cons c rest => exact hrest b hb
  have hassoc : key ++ (ws ++ 61 :: (ws' ++ (dec n ++ rest))) ++ [10] =
      key ++ (ws ++ 61 :: (ws' ++ (dec n ++ (rest ++ [10])))) := by simp
  unfold scanField
  rw [hassoc, scanKey_field hws hws' (skipSpace_dec n _), Option.bind_some, scanConv_d_dec n hstop]

theorem lineKey_number {key l : Bytes} {n : ℕ} (hkey : ∀ b ∈ key, isKeyByte b = true)
    (h : NumberLine key n l) : lineKey l = key := by
  have hf := scanField_number h
  by_contra hne
  rw [scanField_eq_none hkey (.inl hne)] at hf
  cases hf

/-- The word that `%38s` reads starts with the uuid. -/
theorem scanId_line {u l : Bytes} (hu : u ≠ []) (h : IdLine u l) :
    ∃ id w, IsUuid u id ∧ scanId (l ++ [10]) = some (id ++ w) := by
  obtain ⟨ws, ws', id, rest, hws, hws', hid, rfl⟩ := h.field
  have hne : id ≠ [] := by
    rintro rfl
    exact hu hid.chars.symm
  obtain ⟨b, id', hcons⟩ := List.exists_cons_of_ne_nil hne
  have hb : isSpace b = false := hid.word b (by rw [hcons]; exact List.mem_cons_self)
  have hassoc : ascii "id" ++ (ws ++ 61 :: (ws' ++ 34 :: (id ++ 34 :: rest))) ++ [10] =
      ascii "id" ++ (ws ++ 61 :: (ws' ++ 34 :: (id ++ (34 :: rest ++ [10])))) := by simp
  have hskip : skipSpace (id ++ (34 :: rest ++ [10])) = id ++ (34 :: rest ++ [10]) := by
    rw [hcons]
    exact skipSpace_of_head hb
  have hword : ∀ b ∈ id, (!isSpace b) = true := fun b hb => by simp [hid.word b hb]
  obtain ⟨w, hw⟩ : ∃ w, ((id ++ (34 :: rest ++ [10])).takeWhile fun b => !isSpace b).take 38 = id ++ w := by
    rw [List.takeWhile_append_of_pos hword, List.take_append, List.take_of_length_le hid.short]
    exact ⟨_, rfl⟩
  refine ⟨id, w, hid, ?_⟩
  unfold scanId
  rw [hassoc, scanKey_field hws hws' (skipSpace_of_head (by decide)), Option.bind_some,
    show 34 :: (id ++ (34 :: rest ++ [10])) = [34] ++ (id ++ (34 :: rest ++ [10])) from rfl,
    scanText_append, Option.bind_some]
  unfold scanWord
  dsimp only
  rw [hskip, hw, if_neg (by simp [hne])]
  rfl

/-- The first character of a uuid, behind a dash or not. -/
theorem uuid_cons {id : Bytes} {c : UInt8} {v : Bytes} (hid : id.filter (· ≠ 45) = c :: v)
    (hapart : id.IsChain fun a b => ¬ (a = 45 ∧ b = 45)) :
    c ≠ 45 ∧ ∃ id', (id = c :: id' ∨ id = 45 :: c :: id') ∧ id'.filter (· ≠ 45) = v ∧
      id'.IsChain fun a b => ¬ (a = 45 ∧ b = 45) := by
  have hc : c ≠ 45 := by
    have hmem : c ∈ id.filter (· ≠ 45) := by rw [hid]; exact List.mem_cons_self
    simpa using (List.mem_filter.mp hmem).2
  refine ⟨hc, ?_⟩
  cases id with
  | nil => cases hid
  | cons a id =>
    by_cases ha : a = 45
    · subst ha
      rw [List.filter_cons_of_neg (by simp)] at hid
      cases id with
      | nil => cases hid
      | cons b id =>
        have hb : b ≠ 45 := fun hb => (List.isChain_cons_cons.mp hapart).1 ⟨rfl, hb⟩
        rw [List.filter_cons_of_pos (by simpa using hb)] at hid
        obtain ⟨rfl, hrest⟩ := List.cons.inj hid
        exact ⟨id, .inr rfl, hrest, hapart.tail.tail⟩
    · rw [List.filter_cons_of_pos (by simpa using ha)] at hid
      obtain ⟨rfl, hrest⟩ := List.cons.inj hid
      exact ⟨id, .inl rfl, hrest, hapart.tail⟩

/-- Comparing with a text that has single dashes between the characters. -/
theorem uuidCompare_eq (u : Bytes) : ∀ {v id : Bytes} (w : Bytes), v.length = u.length →
    id.filter (· ≠ 45) = v → id.IsChain (fun a b => ¬ (a = 45 ∧ b = 45)) →
    uuidCompare u.length u (id ++ w) = decide (v = u) := by
  induction u with
  | nil =>
    intro v id w hlen _ _
    rw [List.length_eq_zero_iff.mp hlen]
    rfl
  | cons a u ih =>
    intro v id w hlen hid hapart
    obtain ⟨c, v, rfl⟩ := List.exists_cons_of_length_eq_add_one hlen
    obtain ⟨hc, id', hsplit, hid', hapart'⟩ := uuid_cons hid hapart
    have hstrip : (if (id ++ w).head? = some 45 then (id ++ w).tail else id ++ w) = c :: (id' ++ w) := by
      rcases hsplit with rfl | rfl
      · rw [if_neg (by simpa using hc)]
        rfl
      · rfl
    rw [List.length_cons, uuidCompare, hstrip]
    show (a == c && uuidCompare u.length u (id' ++ w)) = _
    rw [ih w (Nat.succ.inj hlen) hid' hapart']
    by_cases hac : c = a
    · simp [hac]
    · simp [hac, Ne.symm hac]

theorem uuidCompare_line {u v l : Bytes} (hu : u.length = 32) (hv : v.length = 32) (h : IdLine v l) :
    ∃ word, scanId (l ++ [10]) = some word ∧ uuidCompare 32 u word = decide (v = u) := by
  have hne : v ≠ [] := fun h0 => by
    rw [h0] at hv
    cases hv
  obtain ⟨id, w, hid, hscan⟩ := scanId_line hne h
  refine ⟨_, hscan, ?_⟩
  rw [← hu]
  exact uuidCompare_eq u w (hv.trans hu.symm) hid.chars hid.apart

/-! ## Looking for a text -/

theorem contains_iff (s : Bytes) : ∀ b : Bytes, contains b s = true ↔ s <:+: b := by
  intro b
  unfold contains
  induction b with
  | nil =>
    rw [strstr]
    cases s with
    | nil => simp
    | cons a s => simp
  | cons c b ih =>
    rw [strstr, List.infix_cons_iff, ← ih]
    by_cases hp : s.isPrefixOf (c :: b) = true
    · rw [if_pos hp]
      exact ⟨fun _ => .inl (List.isPrefixOf_iff_prefix.mp hp), fun _ => rfl⟩
    · rw [if_neg hp]
      exact ⟨.inr, fun h => h.resolve_left fun h => hp (List.isPrefixOf_iff_prefix.mpr h)⟩

theorem contains_byte (c : UInt8) (b : Bytes) : contains b [c] = true ↔ c ∈ b := by
  rw [contains_iff]
  constructor
  · intro h
    exact h.subset List.mem_cons_self
  · intro h
    obtain ⟨s, t, rfl⟩ := List.append_of_mem h
    exact ⟨s, t, by simp⟩

/-- The newline is not part of a text looked for. -/
theorem contains_newline {s : Bytes} (hs : s ≠ []) (h10 : 10 ∉ s) (l : Bytes) :
    contains (l ++ [10]) s = contains l s := by
  rw [Bool.eq_iff_iff, contains_iff, contains_iff]
  constructor
  · rintro ⟨u, v, huv⟩
    rcases List.eq_nil_or_concat v with rfl | ⟨v', b, rfl⟩
    · rw [List.append_nil] at huv
      have hlast := congrArg List.getLast? huv
      rw [List.getLast?_append_of_ne_nil u hs, List.getLast?_concat] at hlast
      exact absurd (List.mem_of_getLast? hlast) h10
    · rw [List.concat_eq_append, ← List.append_assoc] at huv
      exact ⟨u, v', List.append_inj_left' huv rfl⟩
  · intro h
    exact h.trans (List.infix_append' [] l [10])

/-! ## One turn -/

section Turn

variable {u l : Bytes} {p : LvmParse}

/-- A turn of the loop on a line. -/
def LvmParse.read (u : Bytes) (p : LvmParse) (l : Bytes) : LvmParse := p.turn u (l ++ [10])

theorem brace_newline (c : UInt8) (hc : 10 ≠ c) : contains (l ++ [10]) [c] = decide (c ∈ l) := by
  rw [contains_newline (List.cons_ne_nil c []) (by simpa using hc), Bool.eq_iff_iff, contains_byte,
    decide_eq_true_eq]

theorem braces_newline (p : LvmParse) : p.braces (l ++ [10]) =
    { p with lev := p.lev + (if 123 ∈ l then 1 else 0) - if 125 ∈ l then 1 else 0 } := by
  unfold LvmParse.braces
  rw [brace_newline 123 (by decide), brace_newline 125 (by decide)]
  simp only [decide_eq_true_eq]

theorem SimpleLine.braces (h : SimpleLine l) (p : LvmParse) : p.braces (l ++ [10]) = p := by
  rw [braces_newline, if_neg h.plain.1, if_neg h.plain.2, add_zero, sub_zero]

theorem OpenLine.braces (h : OpenLine l) (p : LvmParse) :
    p.braces (l ++ [10]) = { p with lev := p.lev + 1 } := by
  rw [braces_newline, if_pos h.brace.1, if_neg h.brace.2, sub_zero]

theorem CloseLine.braces (h : CloseLine l) (p : LvmParse) :
    p.braces (l ++ [10]) = { p with lev := p.lev - 1 } := by
  rw [braces_newline, if_neg h.brace.2, if_pos h.brace.1, add_zero]

/-- Only a closing brace ends the loop. -/
theorem ends_of_not_mem (h : 125 ∉ l) (p : LvmParse) : p.ends (l ++ [10]) = false := by
  unfold LvmParse.ends
  rw [brace_newline 125 (by decide), decide_eq_false h]
  rfl

theorem CloseLine.read (h : CloseLine l) (p : LvmParse) :
    p.read u l = LvmParse.fields u { p with lev := p.lev - 1 } (l ++ [10]) := by
  unfold LvmParse.read LvmParse.turn
  rw [h.braces]

/-- The line shows the text `physical_volumes`. -/
def ShowsVolumes (l : Bytes) : Prop := ascii "physical_volumes" <:+: l

theorem showsVolumes_iff : contains (l ++ [10]) (ascii "physical_volumes") = true ↔ ShowsVolumes l := by
  rw [contains_newline (by decide) (by decide), contains_iff]
  rfl

/-- In state 0. -/
theorem fields_header (hs : p.state = .header) (hx : scanField (ascii "extent_size") (l ++ [10]) = none) :
    (¬ ShowsVolumes l → p.fields u (l ++ [10]) = p) ∧
      (ShowsVolumes l → p.fields u (l ++ [10]) = { p with state := .volumes }) := by
  unfold LvmParse.fields
  rw [hs, hx]
  constructor
  · intro h
    rw [← showsVolumes_iff, Bool.not_eq_true] at h
    dsimp only
    rw [h, if_neg (by decide), ← hs]
    rfl
  · intro h
    dsimp only
    rw [showsVolumes_iff.mpr h, if_pos rfl]
    rfl

/-- In state 1, a line that does not hold the uuid. -/
theorem fields_volumes (hs : p.state = .volumes)
    (hid : ∀ w, scanId (l ++ [10]) = some w → uuidCompare 32 u w = false) :
    p.fields u (l ++ [10]) = p := by
  unfold LvmParse.fields
  rw [hs]
  dsimp only
  cases h : scanId (l ++ [10]) with
  | none => rfl
  | some w =>
    dsimp only
    rw [hid w h]
    rfl

theorem fields_volume (hs : p.state = .volume) (hkey : scanField (ascii "pe_start") (l ++ [10]) = none) :
    p.fields u (l ++ [10]) = p := by
  unfold LvmParse.fields
  rw [hs, hkey]

theorem fields_count (hs : p.state = .count) (hkey : scanField (ascii "pe_count") (l ++ [10]) = none) :
    p.fields u (l ++ [10]) = p := by
  obtain ⟨state, peCount, extent, lev, offset⟩ := p
  obtain rfl : state = .count := hs
  show LvmParse.mk .count (((scanField (ascii "pe_count") (l ++ [10])).map clampInt).getD peCount) _ _ _ = _
  rw [hkey]
  rfl

end Turn

/-! ## Reading lines -/

/-- From `p` the loop reads the lines and goes on with `p'`. -/
def ReadsLines (u : Bytes) (p : LvmParse) (ls : List Bytes) (p' : LvmParse) : Prop :=
  ∀ buffer tail, ∃ buffer', Leads (fun fuel => parseLoop u fuel p buffer (lineBytes ls ++ tail))
    fun fuel => parseLoop u fuel p' buffer' tail

section ReadsLines

variable {u : Bytes} {p p' p'' : LvmParse} {l : Bytes} {ls ls' : List Bytes}

theorem lineBytes_singleton (l : Bytes) : lineBytes [l] = l ++ [10] := List.flatMap_singleton _ _

theorem ReadsLines.nil : ReadsLines u p [] p := fun buffer _ => ⟨buffer, Leads.refl _⟩

theorem ReadsLines.append (h : ReadsLines u p ls p') (h' : ReadsLines u p' ls' p'') :
    ReadsLines u p (ls ++ ls') p'' := by
  intro buffer tail
  obtain ⟨buffer', h1⟩ := h buffer (lineBytes ls' ++ tail)
  obtain ⟨buffer'', h2⟩ := h' buffer' tail
  refine ⟨buffer'', ?_⟩
  have hassoc : lineBytes (ls ++ ls') ++ tail = lineBytes ls ++ (lineBytes ls' ++ tail) := by
    unfold lineBytes
    rw [List.flatMap_append, List.append_assoc]
  rw [hassoc]
  exact h1.trans h2

theorem TextLine.isLine (h : TextLine l) : IsLine 127 (l ++ [10]) :=
  isLine_append (fun b hb => (h.1 b hb).2) (by have := h.2; omega)

/-- The buffer after the read of a line. -/
theorem TextLine.read (h : TextLine l) (rest : Bytes) : fgets 127 ((l ++ [10]) ++ rest) = l ++ [10] ∧
    cstr (l ++ [10] ++ [0]) = l ++ [10] := by
  refine ⟨h.isLine.fgets rest, cstr_append_zero (fun b hb => ?_) []⟩
  rcases List.mem_append.mp hb with hb | hb
  · exact (h.1 b hb).1
  · obtain rfl := List.mem_singleton.mp hb
    decide

theorem parseLoop_line (h : TextLine l) (fuel : ℕ) (buffer rest : Bytes) :
    parseLoop u (fuel + 1) p buffer ((l ++ [10]) ++ rest) =
      if (p.read u l).ends (l ++ [10]) then .ok (p.read u l)
      else parseLoop u fuel (p.read u l) (l ++ [10] ++ [0]) rest := by
  obtain ⟨hread, hbuf⟩ := h.read rest
  have hne : (l ++ [10]) ++ rest ≠ [] := by simp
  rw [parseLoop, if_neg hne, hread, hbuf, List.drop_left]
  rfl

/-- One line, that does not end the loop. -/
theorem ReadsLines.line (h : TextLine l) (hp : p.read u l = p') (hends : p'.ends (l ++ [10]) = false) :
    ReadsLines u p [l] p' := by
  intro buffer tail
  refine ⟨l ++ [10] ++ [0], Leads.step fun fuel => ?_⟩
  rw [lineBytes_singleton, parseLoop_line h, hp, hends, if_neg (by decide)]

theorem ReadsLines.cons (h : ReadsLines u p [l] p') (h' : ReadsLines u p' ls p'') :
    ReadsLines u p (l :: ls) p'' :=
  h.append h'

/-- A plain line with a field. -/
theorem ReadsLines.field (hl : SimpleLine l) (hp : p.fields u (l ++ [10]) = p') : ReadsLines u p [l] p' := by
  refine ReadsLines.line hl.text ?_ (ends_of_not_mem hl.plain.2 p')
  show (p.braces (l ++ [10])).fields u (l ++ [10]) = p'
  rw [hl.braces, hp]

/-- Lines that change nothing. -/
theorem ReadsLines.still (h : ∀ l ∈ ls, SimpleLine l ∧ p.fields u (l ++ [10]) = p) : ReadsLines u p ls p := by
  induction ls with
  | nil => exact ReadsLines.nil
  | cons l ls ih =>
    obtain ⟨⟨hl, hp⟩, hls⟩ := List.forall_mem_cons.mp h
    exact (ReadsLines.field hl hp).cons (ih hls)

/-- The line that opens a section. -/
theorem ReadsLines.openLine (hl : OpenLine l)
    (hp : LvmParse.fields u { p with lev := p.lev + 1 } (l ++ [10]) = p') :
    ReadsLines u p [l] p' := by
  refine ReadsLines.line hl.text ?_ (ends_of_not_mem hl.brace.2 p')
  show (p.braces (l ++ [10])).fields u (l ++ [10]) = p'
  rw [hl.braces, hp]

/-- The line that ends the loop. -/
theorem ReadsLines.ends (h : ReadsLines u p ls p') (hl : TextLine l) (hp : p'.read u l = p'')
    (hends : p''.ends (l ++ [10]) = true) (buffer tail : Bytes) :
    Returns (fun fuel => parseLoop u fuel p buffer (lineBytes (ls ++ [l]) ++ tail)) p'' := by
  obtain ⟨buffer', hlead⟩ := h buffer (lineBytes [l] ++ tail)
  have hassoc : lineBytes (ls ++ [l]) ++ tail = lineBytes ls ++ (lineBytes [l] ++ tail) := by
    unfold lineBytes
    rw [List.flatMap_append, List.append_assoc]
  rw [hassoc]
  refine hlead.returns (Returns.last fun fuel => ?_)
  rw [lineBytes_singleton, parseLoop_line hl, hp, if_pos hends]

end ReadsLines

/-! ## Sections -/

section Sections

variable {u : Bytes}

/-- The line does not hold the uuid `u`. -/
def OtherId (u l : Bytes) : Prop := ∀ w, scanId (l ++ [10]) = some w → uuidCompare 32 u w = false

theorem otherId_of_key {l : Bytes} (h : lineKey l ≠ ascii "id" ∨ 61 ∉ l) : OtherId u l := fun w hw => by
  rw [scanId_eq_none h] at hw
  cases hw

theorem otherId_of_uuid {v l : Bytes} (hu : u.length = 32) (hv : v.length = 32) (h : IdLine v l)
    (hne : v ≠ u) : OtherId u l := by
  obtain ⟨word, hscan, hcmp⟩ := uuidCompare_line hu hv h
  intro w hw
  rw [hscan] at hw
  rw [← Option.some.inj hw, hcmp, decide_eq_false hne]

/-- The lines between the first one and the last one of a section. -/
def PvSection.body (s : PvSection) : List Bytes :=
  s.fields₁ ++ s.id :: (s.fields₂ ++ s.start :: (s.fields₃ ++ s.count :: s.fields₄))

theorem PvSection.lines_eq (s : PvSection) : s.lines = s.gap ++ s.header :: (s.body ++ [s.close]) := by
  simp [PvSection.lines, PvSection.body]

theorem PvSection.key_ne {s : PvSection} {l key : Bytes}
    (hl : l ∈ s.gap ++ s.fields₁ ++ s.fields₂ ++ s.fields₃ ++ s.fields₄) (hkey : key ∈ volumeKeys) :
    lineKey l ≠ key := fun h => s.keys l hl (h ▸ hkey)

/-- Fields that the state does not look for are passed over. -/
theorem PvSection.reads_fields (s : PvSection) {p : LvmParse} {ls : List Bytes}
    (hls : ∀ l ∈ ls, l ∈ s.gap ++ s.fields₁ ++ s.fields₂ ++ s.fields₃ ++ s.fields₄)
    (hp : ∀ l, (∀ key ∈ volumeKeys, lineKey l ≠ key) → p.fields u (l ++ [10]) = p) :
    ReadsLines u p ls p :=
  ReadsLines.still fun l hl => ⟨s.plain l (hls l hl), hp l fun _ hkey => s.key_ne (hls l hl) hkey⟩

theorem PvSection.start_key (s : PvSection) : lineKey s.start = ascii "pe_start" :=
  lineKey_number (by decide) s.start_line

theorem PvSection.count_key (s : PvSection) : lineKey s.count = ascii "pe_count" :=
  lineKey_number (by decide) s.count_line

/-- Another section is passed over. -/
theorem reads_other {s : PvSection} (hu : u.length = 32) (hs : s.uuid ≠ u) {p : LvmParse}
    (hp : p.state = .volumes) : ReadsLines u p s.lines p := by
  have hgap : ReadsLines u p s.gap p := s.reads_fields (fun l hl => by simp [hl]) fun l hkey =>
    fields_volumes hp (otherId_of_key (.inl (hkey _ (by decide))))
  have hbody : ∀ l ∈ s.body, SimpleLine l ∧ OtherId u l := by
    have hfield : ∀ l ∈ s.gap ++ s.fields₁ ++ s.fields₂ ++ s.fields₃ ++ s.fields₄,
        SimpleLine l ∧ OtherId u l := fun l hl =>
      ⟨s.plain l hl, otherId_of_key (.inl (s.key_ne hl (by decide)))⟩
    intro l hl
    simp only [PvSection.body, List.mem_append, List.mem_cons] at hl
    rcases hl with hl | rfl | hl | rfl | hl | rfl | hl
    · exact hfield l (by simp [hl])
    · exact ⟨s.id_line.toSimpleLine, otherId_of_uuid hu s.size s.id_line hs⟩
    · exact hfield l (by simp [hl])
    · exact ⟨s.start_line.toSimpleLine, otherId_of_key (.inl (by rw [s.start_key]; decide))⟩
    · exact hfield l (by simp [hl])
    · exact ⟨s.count_line.toSimpleLine, otherId_of_key (.inl (by rw [s.count_key]; decide))⟩
    · exact hfield l (by simp [hl])
  have hclose : ReadsLines u { p with lev := p.lev + 1 } [s.close] p := by
    refine ReadsLines.line s.close_line.text ?_ ?_
    · rw [s.close_line.read]
      dsimp only
      rw [add_sub_cancel_right]
      exact fields_volumes hp (otherId_of_key (.inr s.close_line.no_field))
    · unfold LvmParse.ends
      rw [hp]
      exact Bool.and_false _
  rw [s.lines_eq]
  have hopen : ReadsLines u p [s.header] { p with lev := p.lev + 1 } :=
    ReadsLines.openLine s.header_open (fields_volumes hp (otherId_of_key (.inr s.header_open.no_field)))
  have hstill : ReadsLines u { p with lev := p.lev + 1 } s.body { p with lev := p.lev + 1 } :=
    ReadsLines.still fun l hl => ⟨(hbody l hl).1, fields_volumes hp (hbody l hl).2⟩
  exact hgap.append (hopen.cons (hstill.append hclose))

theorem reads_others {ss : List PvSection} (hu : u.length = 32) (hss : ∀ s ∈ ss, s.uuid ≠ u) {p : LvmParse}
    (hp : p.state = .volumes) : ReadsLines u p (ss.flatMap PvSection.lines) p := by
  induction ss with
  | nil => exact ReadsLines.nil
  | cons s ss ih =>
    obtain ⟨hs, hss⟩ := List.forall_mem_cons.mp hss
    exact (reads_other hu hs hp).append (ih hss)

/-- The fields of the section with the uuid are read, and the loop ends. -/
theorem run_ownSection {s : PvSection} (e : ℤ) (buffer tail : Bytes) :
    Returns (fun fuel => parseLoop s.uuid fuel ⟨.volumes, 0, e, 2, 0⟩ buffer (lineBytes s.lines ++ tail))
      ⟨.count, clampInt s.peCount, e, 2, clampLong s.peStart⟩ := by
  have hvolumes : ∀ ls, (∀ l ∈ ls, l ∈ s.gap ++ s.fields₁ ++ s.fields₂ ++ s.fields₃ ++ s.fields₄) →
      ∀ lev, ReadsLines s.uuid ⟨.volumes, 0, e, lev, 0⟩ ls ⟨.volumes, 0, e, lev, 0⟩ := fun ls hls lev =>
    s.reads_fields hls fun l hkey => fields_volumes rfl (otherId_of_key (.inl (hkey _ (by decide))))
  have hvolume : ∀ ls, (∀ l ∈ ls, l ∈ s.gap ++ s.fields₁ ++ s.fields₂ ++ s.fields₃ ++ s.fields₄) →
      ReadsLines s.uuid ⟨.volume, 0, e, 3, 0⟩ ls ⟨.volume, 0, e, 3, 0⟩ := fun ls hls =>
    s.reads_fields hls fun l hkey =>
      fields_volume rfl (scanField_eq_none (by decide) (.inl (hkey _ (by decide))))
  have hcount : ∀ ls, (∀ l ∈ ls, l ∈ s.gap ++ s.fields₁ ++ s.fields₂ ++ s.fields₃ ++ s.fields₄) →
      ∀ c, ReadsLines s.uuid ⟨.count, c, e, 3, clampLong s.peStart⟩ ls
        ⟨.count, c, e, 3, clampLong s.peStart⟩ :=
    fun ls hls c => s.reads_fields hls fun l hkey =>
      fields_count rfl (scanField_eq_none (by decide) (.inl (hkey _ (by decide))))
  have hopen : ReadsLines s.uuid ⟨.volumes, 0, e, 2, 0⟩ [s.header] ⟨.volumes, 0, e, 3, 0⟩ :=
    ReadsLines.openLine s.header_open (fields_volumes rfl (otherId_of_key (.inr s.header_open.no_field)))
  have hid : ReadsLines s.uuid ⟨.volumes, 0, e, 3, 0⟩ [s.id] ⟨.volume, 0, e, 3, 0⟩ := by
    obtain ⟨w, hscan, hcmp⟩ := uuidCompare_line s.size s.size s.id_line
    refine ReadsLines.field s.id_line.toSimpleLine ?_
    unfold LvmParse.fields
    dsimp only
    rw [hscan]
    dsimp only
    rw [hcmp, decide_eq_true rfl, if_pos rfl]
  have hstart : ReadsLines s.uuid ⟨.volume, 0, e, 3, 0⟩ [s.start] ⟨.count, 0, e, 3, clampLong s.peStart⟩ := by
    refine ReadsLines.field s.start_line.toSimpleLine ?_
    unfold LvmParse.fields
    dsimp only
    rw [scanField_number s.start_line]
  have hsize : ReadsLines s.uuid ⟨.count, 0, e, 3, clampLong s.peStart⟩ [s.count]
      ⟨.count, clampInt s.peCount, e, 3, clampLong s.peStart⟩ := by
    refine ReadsLines.field s.count_line.toSimpleLine ?_
    unfold LvmParse.fields
    dsimp only
    rw [scanField_number s.count_line]
    rfl
  have hall := (hvolumes s.gap (fun l hl => by simp [hl]) 2).append
    (hopen.cons ((hvolumes s.fields₁ (fun l hl => by simp [hl]) 3).append
      (hid.cons ((hvolume s.fields₂ fun l hl => by simp [hl]).append
        (hstart.cons ((hcount s.fields₃ (fun l hl => by simp [hl]) 0).append
          (hsize.cons (hcount s.fields₄ (fun l hl => by simp [hl]) (clampInt s.peCount)))))))))
  have hlines : s.lines = (s.gap ++ s.header :: (s.fields₁ ++ s.id :: (s.fields₂ ++ s.start ::
      (s.fields₃ ++ s.count :: s.fields₄)))) ++ [s.close] := by
    simp [PvSection.lines]
  rw [hlines]
  refine hall.ends s.close_line.text ?_ ?_ buffer tail
  · rw [s.close_line.read]
    exact fields_count rfl (scanField_eq_none (by decide) (.inr s.close_line.no_field))
  · unfold LvmParse.ends
    rw [brace_newline 125 (by decide), decide_eq_true s.close_line.brace.1]
    rfl

end Sections

/-! ## The fields of the volume group -/

section Group

variable {u : Bytes} {ls : List Bytes} {p : LvmParse}

/-- A field of the volume group other than the size of an extent. -/
structure GroupLine (u l : Bytes) : Prop where
  plain : SimpleLine l
  key : lineKey l ≠ ascii "extent_size"
  other : OtherId u l

theorem reads_group_volumes (h : ∀ l ∈ ls, GroupLine u l) (hp : p.state = .volumes) : ReadsLines u p ls p :=
  ReadsLines.still fun l hl => ⟨(h l hl).plain, fields_volumes hp (h l hl).other⟩

theorem reads_group_header (h : ∀ l ∈ ls, GroupLine u l) (hp : p.state = .header)
    (hshow : ∀ l ∈ ls, ¬ ShowsVolumes l) : ReadsLines u p ls p :=
  ReadsLines.still fun l hl => ⟨(h l hl).plain,
    (fields_header hp (scanField_eq_none (by decide) (.inl (h l hl).key))).1 (hshow l hl)⟩

/-- A line that shows `physical_volumes` leads to state 1. -/
theorem reads_group_shows (hp : p.state = .header) : (∀ l ∈ ls, GroupLine u l) →
    (∃ l ∈ ls, ShowsVolumes l) → ReadsLines u p ls { p with state := .volumes } := by
  induction ls with
  | nil =>
    rintro - ⟨l, hl, -⟩
    exact absurd hl List.not_mem_nil
  | cons l ls ih =>
    intro h hshow
    obtain ⟨hl, hls⟩ := List.forall_mem_cons.mp h
    have hfields := @fields_header u l p hp (scanField_eq_none (by decide) (.inl hl.key))
    by_cases hs : ShowsVolumes l
    · exact (ReadsLines.field hl.plain (hfields.2 hs)).cons (reads_group_volumes hls rfl)
    · obtain ⟨l', hmem, hs'⟩ := hshow
      have hrest : ∃ l ∈ ls, ShowsVolumes l := by
        rcases List.mem_cons.mp hmem with rfl | hmem
        · exact absurd hs' hs
        · exact ⟨l', hmem, hs'⟩
      exact (ReadsLines.field hl.plain (hfields.1 hs)).cons (ih hls hrest)

end Group

/-- A line before `extent_size` shows the text `physical_volumes`. -/
def Metadata.Early (M : Metadata) : Prop := ∃ l ∈ M.preamble, ShowsVolumes l

section Preamble

variable (M : Metadata)

theorem Metadata.groupLine {l : Bytes} (hl : l ∈ M.fields₁ ++ M.fields₂) : GroupLine M.own.uuid l := by
  refine ⟨M.plain l hl, M.keys l hl, ?_⟩
  by_cases hkey : lineKey l = ascii "id"
  · obtain ⟨v, hv, hline, hne⟩ := M.ids l hl hkey
    exact otherId_of_uuid M.own.size hv hline hne
  · exact otherId_of_key (.inl hkey)

/-- From the size of an extent on, in state 1. -/
theorem Metadata.reads_rest (lev e : ℤ) : ReadsLines M.own.uuid ⟨.volumes, 0, e, lev, 0⟩
    (M.fields₂ ++ [M.volumes]) ⟨.volumes, 0, e, lev + 1, 0⟩ := by
  have hfields : ReadsLines M.own.uuid ⟨.volumes, 0, e, lev, 0⟩ M.fields₂ ⟨.volumes, 0, e, lev, 0⟩ :=
    reads_group_volumes (fun l hl => M.groupLine (List.mem_append_right _ hl)) rfl
  exact hfields.append (ReadsLines.openLine M.volumes_open
    (fields_volumes rfl (otherId_of_key (.inr M.volumes_open.no_field))))

theorem Metadata.reads_early (h : M.Early) : ReadsLines M.own.uuid ⟨.header, 0, 0, 0, 0⟩
    (M.preamble ++ M.extent :: (M.fields₂ ++ [M.volumes])) ⟨.volumes, 0, 0, 2, 0⟩ := by
  have hgroup : ∀ l ∈ M.fields₁, GroupLine M.own.uuid l := fun l hl =>
    M.groupLine (List.mem_append_left _ hl)
  have hx : scanField (ascii "extent_size") (M.vg ++ [10]) = none :=
    scanField_eq_none (by decide) (.inr M.vg_open.no_field)
  have hpre : ReadsLines M.own.uuid ⟨.header, 0, 0, 0, 0⟩ M.preamble ⟨.volumes, 0, 0, 1, 0⟩ := by
    by_cases hs : ShowsVolumes M.vg
    · have hvg : ReadsLines M.own.uuid ⟨.header, 0, 0, 0, 0⟩ [M.vg] ⟨.volumes, 0, 0, 1, 0⟩ :=
        ReadsLines.openLine M.vg_open ((fields_header rfl hx).2 hs)
      exact hvg.cons (reads_group_volumes hgroup rfl)
    · have hvg : ReadsLines M.own.uuid ⟨.header, 0, 0, 0, 0⟩ [M.vg] ⟨.header, 0, 0, 1, 0⟩ :=
        ReadsLines.openLine M.vg_open ((fields_header rfl hx).1 hs)
      obtain ⟨l, hl, hshow⟩ := h
      have hfields : ∃ l ∈ M.fields₁, ShowsVolumes l := by
        rcases List.mem_cons.mp hl with rfl | hl
        · exact absurd hshow hs
        · exact ⟨l, hl, hshow⟩
      exact hvg.cons (reads_group_shows rfl hgroup hfields)
  -- in state 1 the size of an extent is not read any more
  have hextent : ReadsLines M.own.uuid ⟨.volumes, 0, 0, 1, 0⟩ [M.extent] ⟨.volumes, 0, 0, 1, 0⟩ :=
    ReadsLines.field M.extent_line.toSimpleLine (fields_volumes rfl (otherId_of_key (.inl (by
      rw [lineKey_number (by decide) M.extent_line]
      decide))))
  exact hpre.append (hextent.cons (M.reads_rest 1 0))

theorem Metadata.reads_late (h : ¬ M.Early) : ReadsLines M.own.uuid ⟨.header, 0, 0, 0, 0⟩
    (M.preamble ++ M.extent :: (M.fields₂ ++ [M.volumes]))
    ⟨.volumes, 0, clampInt M.extentSize, 2, 0⟩ := by
  have hshow : ∀ l ∈ M.preamble, ¬ ShowsVolumes l := fun l hl hs => h ⟨l, hl, hs⟩
  obtain ⟨hvgshow, hfieldshow⟩ := List.forall_mem_cons.mp hshow
  have hvg : ReadsLines M.own.uuid ⟨.header, 0, 0, 0, 0⟩ [M.vg] ⟨.header, 0, 0, 1, 0⟩ :=
    ReadsLines.openLine M.vg_open ((fields_header rfl
      (scanField_eq_none (by decide) (.inr M.vg_open.no_field))).1 hvgshow)
  have hfields : ReadsLines M.own.uuid ⟨.header, 0, 0, 1, 0⟩ M.fields₁ ⟨.header, 0, 0, 1, 0⟩ :=
    reads_group_header (fun l hl => M.groupLine (List.mem_append_left _ hl)) rfl hfieldshow
  have hgroup : ∀ l ∈ M.fields₂, GroupLine M.own.uuid l := fun l hl =>
    M.groupLine (List.mem_append_right _ hl)
  have hrest : ReadsLines M.own.uuid ⟨.header, 0, 0, 1, 0⟩ (M.extent :: (M.fields₂ ++ [M.volumes]))
      ⟨.volumes, 0, clampInt M.extentSize, 2, 0⟩ := by
    have hline : ∀ s, (if contains (M.extent ++ [10]) (ascii "physical_volumes") then LvmState.volumes
        else .header) = s → ReadsLines M.own.uuid ⟨.header, 0, 0, 1, 0⟩ [M.extent]
          ⟨s, 0, clampInt M.extentSize, 1, 0⟩ := by
      rintro s rfl
      refine ReadsLines.field M.extent_line.toSimpleLine ?_
      unfold LvmParse.fields
      dsimp only
      rw [scanField_number M.extent_line]
      rfl
    have hopen : ShowsVolumes M.volumes := M.volumes_name.isInfix
    by_cases hs : contains (M.extent ++ [10]) (ascii "physical_volumes") = true
    · exact (hline .volumes (if_pos hs)).cons (M.reads_rest 1 _)
    · refine (hline .header (if_neg hs)).cons ?_
      have hlast : ∀ st : LvmState, st = .header ∨ st = .volumes →
          ReadsLines M.own.uuid ⟨st, 0, clampInt M.extentSize, 1, 0⟩ [M.volumes]
            ⟨.volumes, 0, clampInt M.extentSize, 2, 0⟩ := by
        rintro st (rfl | rfl)
        · exact ReadsLines.openLine M.volumes_open ((fields_header rfl
            (scanField_eq_none (by decide) (.inr M.volumes_open.no_field))).2 hopen)
        · exact ReadsLines.openLine M.volumes_open
            (fields_volumes rfl (otherId_of_key (.inr M.volumes_open.no_field)))
      by_cases hany : ∃ l ∈ M.fields₂, ShowsVolumes l
      · exact (reads_group_shows rfl hgroup hany).append (hlast .volumes (.inr rfl))
      · exact (reads_group_header hgroup rfl fun l hl hs => hany ⟨l, hl, hs⟩).append
          (hlast .header (.inl rfl))
  exact (hvg.cons hfields).append hrest

/-- The size of an extent when the loop ends. -/
def Metadata.Extent (e : ℤ) : Prop := (M.Early → e = 0) ∧ (¬ M.Early → e = clampInt M.extentSize)

/-- The result for a device with the metadata. -/
theorem Metadata.lvmCheck_returns {dev buf : Bytes} (h : M.On dev buf) (b : Bytes) (sect : ℕ) :
    ∃ e, M.Extent e ∧ Returns (fun fuel => lvmCheck fuel dev buf b sect)
      (wrapLong (clampLong M.own.peStart * 512), (e * clampInt M.own.peCount % 2 ^ 32).toNat) := by
  obtain ⟨hlvm2, tail, hheader⟩ := h
  obtain ⟨e, he, hreads⟩ : ∃ e, M.Extent e ∧ ReadsLines M.own.uuid ⟨.header, 0, 0, 0, 0⟩
      (M.preamble ++ M.extent :: (M.fields₂ ++ [M.volumes])) ⟨.volumes, 0, e, 2, 0⟩ := by
    by_cases hearly : M.Early
    · exact ⟨0, ⟨fun _ => rfl, fun hn => absurd hearly hn⟩, M.reads_early hearly⟩
    · exact ⟨_, ⟨fun hy => absurd hy hearly, fun _ => rfl⟩, M.reads_late hearly⟩
  refine ⟨e, he, ?_⟩
  have hlines : lineBytes M.lines ++ tail =
      lineBytes ((M.preamble ++ M.extent :: (M.fields₂ ++ [M.volumes])) ++
        M.before.flatMap PvSection.lines) ++ (lineBytes M.own.lines ++ tail) := by
    simp [Metadata.lines, lineBytes]
  obtain ⟨b', hlead⟩ :=
    (hreads.append (reads_others M.own.size M.uuids rfl)) b (lineBytes M.own.lines ++ tail)
  have hloop := hlead.returns (run_ownSection e b' tail)
  rw [← hlines] at hloop
  have hresult : Returns (fun fuel => parseLoop M.own.uuid fuel ⟨.header, 0, 0, 0, 0⟩ b
      (lineBytes M.lines ++ tail) >>= fun p =>
        .ok (wrapLong (p.offset * 512), (p.extent * p.peCount % 2 ^ 32).toNat))
      (wrapLong (clampLong M.own.peStart * 512), (e * clampInt M.own.peCount % 2 ^ 32).toNat) :=
    hloop.bind (Returns.pure _)
  refine Returns.congr (fun fuel => ?_) hresult
  unfold lvmCheck
  dsimp only
  rw [if_neg hlvm2, hheader]

end Preamble

theorem wrapLong_clampLong_iff (n : ℕ) : wrapLong (clampLong n * 512) = (512 * n : ℕ) ↔ n < 2 ^ 54 := by
  unfold wrapLong clampLong
  omega

/-- Factors of a product that fits an `int` fit it themselves, unless the product is 0. -/
theorem clampInt_mul {m n : ℕ} (h : m * n < 2 ^ 31) : (clampInt m * clampInt n % 2 ^ 32).toNat = m * n := by
  rcases Nat.eq_zero_or_pos m with rfl | hm
  · have h0 : clampInt (0 : ℕ) = 0 := rfl
    rw [h0, Int.zero_mul, Nat.zero_mul]
    rfl
  rcases Nat.eq_zero_or_pos n with rfl | hn
  · have h0 : clampInt (0 : ℕ) = 0 := rfl
    rw [h0, Int.mul_zero, Nat.mul_zero]
    rfl
  have hm' : clampInt m = m := by
    have := Nat.le_mul_of_pos_right m hn
    unfold clampInt
    omega
  have hn' : clampInt n = n := by
    have := Nat.le_mul_of_pos_left n hm
    unfold clampInt
    omega
  rw [hm', hn', ← Int.natCast_mul]
  omega

section Found

variable {M : Metadata} {dev buf b : Bytes} {sect : ℕ} (hon : M.On dev buf)

include hon in
theorem Metadata.Found.fits (h : M.Found dev buf b sect) :
    M.own.peStart < 2 ^ 54 ∧ (¬ M.Early ∨ M.extentSize * M.own.peCount = 0) := by
  obtain ⟨e, ⟨he, -⟩, hret⟩ := M.lvmCheck_returns hon b sect
  obtain ⟨hstart, hsect⟩ := Prod.mk.inj (hret.unique h)
  refine ⟨(wrapLong_clampLong_iff _).mp hstart, ?_⟩
  by_cases hearly : M.Early
  · rw [he hearly, Int.zero_mul] at hsect
    exact .inr hsect.symm
  · exact .inl hearly

include hon in
/-- **The volume is found** exactly when its start fits the type of the offset and no line before
`extent_size` shows the text `physical_volumes`, unless the volume has no extents. -/
theorem volumeFound_iff : M.Found dev buf b sect ↔
    M.own.peStart < 2 ^ 54 ∧ (¬ M.Early ∨ M.extentSize * M.own.peCount = 0) := by
  refine ⟨Metadata.Found.fits hon, fun ⟨hstart, hearly⟩ => ?_⟩
  obtain ⟨e, ⟨he, he'⟩, hret⟩ := M.lvmCheck_returns hon b sect
  have hsect : (e * clampInt M.own.peCount % 2 ^ 32).toNat = M.extentSize * M.own.peCount := by
    by_cases h : M.Early
    · rw [he h, Int.zero_mul, hearly.resolve_left (not_not.mpr h)]
      rfl
    · rw [he' h]
      exact clampInt_mul M.extents_lt
  rw [(wrapLong_clampLong_iff _).mpr hstart, hsect] at hret
  exact hret

end Found

/-! ## A volume group on two disks -/

instance (l : Bytes) : Decidable (TextLine l) := inferInstanceAs (Decidable (_ ∧ _))

instance (ws : Bytes) : Decidable (IsBlank ws) := inferInstanceAs (Decidable (∀ b ∈ ws, isSpace b = true))

/-- A field with a number, as LVM2 writes it. -/
def numberText (key : Bytes) (n : ℕ) : Bytes := key ++ ascii " = " ++ dec n

theorem numberLine_text {key : Bytes} {n : ℕ} (h : SimpleLine (numberText key n)) :
    NumberLine key n (numberText key n) where
  toSimpleLine := h
  field := ⟨[32], [32], [], by decide, by decide, by decide, by simp [numberText, ascii]⟩

/-- `id` with the text `id`. -/
def idText (id : Bytes) : Bytes := ascii "id = " ++ 34 :: (id ++ [34])

theorem idLine_text {u id : Bytes} (h : SimpleLine (idText id)) (hid : IsUuid u id) :
    IdLine u (idText id) where
  toSimpleLine := h
  field := ⟨[32], [32], id, [], by decide, by decide, hid, rfl⟩

/-- The volume `a` starts at sector 384 and has 100 extents. -/
def pvA : PvSection where
  uuid := List.replicate 32 97
  peStart := 384
  peCount := 100
  gap := [[]]
  header := ascii "pv0 \x7b"
  id := idText (ascii "aaaaaa-aaaa-aaaa-aaaa-aaaa-aaaa-aaaaaa")
  start := numberText (ascii "pe_start") 384
  count := numberText (ascii "pe_count") 100
  close := ascii "\x7d"
  fields₁ := []
  fields₂ := [ascii "status = [allocatable]"]
  fields₃ := []
  fields₄ := []
  size := by decide
  header_open := ⟨by decide, by decide, by decide⟩
  id_line := idLine_text ⟨by decide, by decide⟩ ⟨by decide, by decide, by decide, by decide⟩
  start_line := numberLine_text ⟨by decide, by decide⟩
  count_line := numberLine_text ⟨by decide, by decide⟩
  close_line := ⟨by decide, by decide, by decide⟩
  plain := by
    intro l hl
    have h : l ∈ [[], ascii "status = [allocatable]"] := hl
    rcases List.mem_pair.mp h with rfl | rfl
    · exact ⟨by decide, by decide⟩
    · exact ⟨by decide, by decide⟩
  keys := by decide

/-- The volume `b`. -/
def pvB : PvSection where
  uuid := List.replicate 32 98
  peStart := 2048
  peCount := 7
  gap := [[]]
  header := ascii "pv1 \x7b"
  id := idText (ascii "bbbbbb-bbbb-bbbb-bbbb-bbbb-bbbb-bbbbbb")
  start := numberText (ascii "pe_start") 2048
  count := numberText (ascii "pe_count") 7
  close := ascii "\x7d"
  fields₁ := []
  fields₂ := []
  fields₃ := []
  fields₄ := []
  size := by decide
  header_open := ⟨by decide, by decide, by decide⟩
  id_line := idLine_text ⟨by decide, by decide⟩ ⟨by decide, by decide, by decide, by decide⟩
  start_line := numberLine_text ⟨by decide, by decide⟩
  count_line := numberLine_text ⟨by decide, by decide⟩
  close_line := ⟨by decide, by decide, by decide⟩
  plain := by
    intro l hl
    obtain rfl := List.mem_singleton.mp hl
    exact ⟨by decide, by decide⟩
  keys := by decide

/-- The metadata of a group with the first line `vg`, up to the volume `b`. -/
def twoVolumes (vg : Bytes) (hvg : OpenLine vg) : Metadata where
  extentSize := 8192
  vg := vg
  fields₁ := [idText (ascii "cccccc-cccc-cccc-cccc-cccc-cccc-cccccc")]
  extent := numberText (ascii "extent_size") 8192
  fields₂ := []
  volumes := ascii "physical_volumes \x7b"
  before := [pvA]
  own := pvB
  vg_open := hvg
  extent_line := numberLine_text ⟨by decide, by decide⟩
  volumes_open := ⟨by decide, by decide, by decide⟩
  volumes_name := by decide
  plain := by
    intro l hl
    obtain rfl := List.mem_singleton.mp hl
    exact ⟨by decide, by decide⟩
  keys := by decide
  ids := by
    intro l hl _
    obtain rfl := List.mem_singleton.mp hl
    exact ⟨List.replicate 32 99, by decide,
      idLine_text ⟨by decide, by decide⟩ ⟨by decide, by decide, by decide, by decide⟩, by decide⟩
  uuids := by
    intro s hs
    obtain rfl := List.mem_singleton.mp hs
    decide
  extents_lt := by decide

/-- The first two sectors of the volume `b`: the label, with the header of the metadata at byte 1024. -/
def labelB : Bytes :=
  List.replicate 512 0 ++ padTo 512 (ascii "LABELONE" ++ List.replicate 12 0 ++ leBytes 4 32 ++
    ascii "LVM2 001" ++ List.replicate 32 98 ++ List.replicate 8 0 ++ leBytes 8 1048576 ++
    List.replicate 24 0 ++ leBytes 8 1024)

/-- The header, with the text 512 bytes behind it. -/
def mdaHeader : Bytes := padTo 512 (List.replicate 4 0 ++ fmttMagic ++ List.replicate 20 0 ++ leBytes 8 512)

theorem length_labelB : labelB.length = 1024 := by
  unfold labelB
  rw [List.length_append, List.length_replicate, length_padTo]

theorem length_mdaHeader : mdaHeader.length = 512 := length_padTo _ _

/-- The label leads to the text behind the header. -/
theorem lvm2Header_labelB (text : Bytes) :
    lvm2Header (labelB ++ (mdaHeader ++ text)) labelB = .found (List.replicate 32 98) text := by
  have hread : readAt (labelB ++ (mdaHeader ++ text)) 1024 512 labelB = overwrite labelB 0 mdaHeader := by
    unfold readAt
    rw [List.drop_left' length_labelB, List.take_left' length_mdaHeader]
  have hdrop : (labelB ++ (mdaHeader ++ text)).drop 1536 = text := by
    rw [← List.append_assoc]
    exact List.drop_left' (by rw [List.length_append, length_labelB, length_mdaHeader])
  have hareas : skipAreas labelB labelB.length (512 + word labelB 133 + 40) = some 616 := by decide +kernel
  have hmdh : fseek 1024 (longWord labelB 616) = 1024 := by decide +kernel
  unfold lvm2Header
  rw [if_neg (by decide +kernel), if_neg (by decide +kernel)]
  dsimp only
  rw [hareas]
  dsimp only
  rw [hmdh, hread, length_labelB, if_neg (by decide), if_neg (by decide +kernel), if_neg (by decide +kernel)]
  have huuid : ((overwrite labelB 0 mdaHeader).drop (512 + word labelB 133)).take 32 =
      List.replicate 32 98 := by
    decide +kernel
  have hoff : (word (overwrite labelB 0 mdaHeader) 10 + word (overwrite labelB 0 mdaHeader) 11 * 2 ^ 32 +
      longWord labelB 616) % 2 ^ 64 = 1536 := by decide +kernel
  have hseek : ∀ off, fseek off 1536 = 1536 := fun _ => rfl
  rw [huuid, hoff, hseek, hdrop]

/-- The device of the volume `b` with some metadata. -/
def deviceB (M : Metadata) : Bytes := labelB ++ (mdaHeader ++ (lineBytes M.lines ++ [0]))

theorem on_deviceB (M : Metadata) (h : M.own.uuid = List.replicate 32 98) : M.On (deviceB M) [] := by
  have hread : readAt (deviceB M) 0 1024 [] = labelB := by
    unfold readAt deviceB overwrite
    rw [List.drop_zero, List.take_left' length_labelB]
    simp
  refine ⟨?_, [0], ?_⟩
  · rw [hread]
    decide +kernel
  · rw [hread, h]
    exact lvm2Header_labelB _

/-- A group with a harmless name. -/
def plainGroup : Metadata := twoVolumes (ascii "vg0 \x7b") ⟨by decide, by decide, by decide⟩

theorem volumeFound_iff_plainGroup : plainGroup.Found (deviceB plainGroup) [] [] 0 := by
  refine (volumeFound_iff (on_deviceB plainGroup rfl)).mpr ⟨by decide, .inl ?_⟩
  rintro ⟨l, hl, hshow⟩
  rcases List.mem_pair.mp hl with rfl | rfl
  · exact absurd hshow (by unfold ShowsVolumes; decide)
  · exact absurd hshow (by unfold ShowsVolumes; decide)

/-- A group with the name `physical_volumes`. -/
def oddGroup : Metadata :=
  twoVolumes (ascii "physical_volumes \x7b") ⟨by decide, by decide, by decide⟩

/-- The size of an extent is not read. -/
theorem not_volumeFound_oddGroup :
    oddGroup.On (deviceB oddGroup) [] ∧ ¬ oddGroup.Found (deviceB oddGroup) [] [] 0 := by
  have hon := on_deviceB oddGroup rfl
  refine ⟨hon, fun h => ?_⟩
  have hearly : oddGroup.Early :=
    ⟨oddGroup.vg, List.mem_cons_self, by unfold ShowsVolumes; decide⟩
  exact (h.fits hon).2.elim (fun hn => hn hearly) (by decide)

end LinboxRescue
