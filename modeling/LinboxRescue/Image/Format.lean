import LinboxRescue.Lib.Scanf
import LinboxRescue.Lib.Bits

/-!
# The image format

A partition image is a sequence of chunk files `<prefix>000`, `<prefix>001`, ... Uncompressed, a
chunk is a header of `TOTALLG` = 24064 bytes (`HEADERLG` = 2048 bytes of
text, `ALLOCLG` = 22016 bytes of allocation bitmap) followed
by the sectors of the set bits. The text of the first chunk carries the number of chunks, every text
carries the number of bitmap bytes in use.

`headerInt` is how `restore` finds a number in the text; `headerInt_blocks`,
`headerInt_blocks_later` and `headerInt_alloc` say that it finds what `compress_volume` printed.
-/

namespace LinboxRescue

/-! ## Sectors -/

/-- A sector: 512 bytes. -/
structure Sector where
  bytes : Bytes
  size : bytes.length = 512
  deriving DecidableEq

/-- The first `n` bytes of `bs`, filled up with zeros. -/
def padTo (n : ℕ) (bs : Bytes) : Bytes := (bs ++ List.replicate n 0).take n

@[simp] theorem length_padTo (n : ℕ) (bs : Bytes) : (padTo n bs).length = n := by
  simp [padTo]

theorem padTo_of_le {n : ℕ} {bs : Bytes} (h : bs.length ≤ n) :
    padTo n bs = bs ++ List.replicate (n - bs.length) 0 := by
  unfold padTo
  rw [List.take_append, List.take_of_length_le h, List.take_replicate,
    Nat.min_eq_left (Nat.sub_le _ _)]

theorem bits_padTo {n : ℕ} {bm : Bytes} (h : bm.length ≤ n) :
    bits (padTo n bm) = bits bm ++ List.replicate (8 * (n - bm.length)) false := by
  rw [padTo_of_le h, bits_append, bits_replicate_zero]

/-- The 512 bytes at offset `off` of a memory area. -/
def Sector.ofMem (mem : Bytes) (off : ℕ) : Sector :=
  ⟨padTo 512 ((mem.drop off).take 512), length_padTo _ _⟩

/-- A sector filled with one byte. -/
def Sector.fill (b : UInt8) : Sector := ⟨List.replicate 512 b, List.length_replicate⟩

instance : Inhabited Sector := ⟨Sector.fill 0⟩

theorem Sector.ext {s t : Sector} (h : s.bytes = t.bytes) : s = t := by
  cases s; cases t; cases h; rfl

theorem Sector.fill_injective : Function.Injective Sector.fill := by
  intro a b h
  have h1 := congrArg Sector.bytes h
  exact List.replicate_right_injective (by omega : (512 : ℕ) ≠ 0) h1

/-- The bytes of a list of sectors. -/
def sectorBytes (xs : List Sector) : Bytes := xs.flatMap Sector.bytes

@[simp] theorem sectorBytes_nil : sectorBytes [] = [] := rfl

theorem sectorBytes_cons (s : Sector) (xs : List Sector) :
    sectorBytes (s :: xs) = s.bytes ++ sectorBytes xs := rfl

@[simp] theorem sectorBytes_append (xs ys : List Sector) :
    sectorBytes (xs ++ ys) = sectorBytes xs ++ sectorBytes ys := by
  simp [sectorBytes]

@[simp] theorem length_sectorBytes (xs : List Sector) :
    (sectorBytes xs).length = 512 * xs.length := by
  induction xs with
  | nil => rfl
  | cons s xs ih => rw [sectorBytes_cons, List.length_append, s.size, ih, List.length_cons]; ring

theorem Sector.ofMem_bytes {pre : Bytes} (s : Sector) (post : Bytes) :
    Sector.ofMem (pre ++ (s.bytes ++ post)) pre.length = s := by
  apply Sector.ext
  show padTo 512 _ = s.bytes
  rw [List.drop_left, List.take_append_of_le_length (by rw [s.size]),
    List.take_of_length_le (by rw [s.size]), padTo_of_le (by rw [s.size]), s.size]
  simp

theorem Sector.ofMem_replicate {n off : ℕ} (b : UInt8) (h : off + 512 ≤ n) :
    Sector.ofMem (List.replicate n b) off = Sector.fill b := by
  apply Sector.ext
  show padTo 512 _ = List.replicate 512 b
  have hlen : min 512 (n - off) = 512 := by omega
  rw [List.drop_replicate, List.take_replicate, hlen, padTo_of_le (by rw [List.length_replicate]),
    List.length_replicate, Nat.sub_self, List.replicate_zero, List.append_nil]

/-- Reading an area beyond an offset that was not touched. -/
theorem Sector.ofMem_congr {m m' : Bytes} {off n : ℕ} (h : m.take n = m'.take n)
    (hn : off + 512 ≤ n) : Sector.ofMem m off = Sector.ofMem m' off := by
  have h1 : ∀ x : Bytes, (x.drop off).take 512 = ((x.take n).drop off).take 512 := by
    intro x
    rw [List.drop_take, List.take_take, Nat.min_eq_left (by omega)]
  apply Sector.ext
  show padTo 512 _ = padTo 512 _
  rw [h1 m, h1 m', h]

/-- Sector `k` of an area that starts with the bytes of `xs`. -/
theorem Sector.ofMem_sectorBytes {m : Bytes} {xs : List Sector} {k : ℕ} {s : Sector}
    (hm : m.take (512 * xs.length) = sectorBytes xs) (hk : xs[k]? = some s) :
    Sector.ofMem m (512 * k) = s := by
  obtain ⟨hlt, rfl⟩ := List.getElem?_eq_some_iff.mp hk
  have hsplit : xs = xs.take k ++ xs[k] :: xs.drop (k + 1) := by simp
  have hlen : (sectorBytes (xs.take k)).length = 512 * k := by
    rw [length_sectorBytes, List.length_take, Nat.min_eq_left hlt.le]
  have h1 : Sector.ofMem m (512 * k) = Sector.ofMem (sectorBytes xs) (512 * k) := by
    apply Sector.ofMem_congr (n := 512 * xs.length) _ (by omega)
    rw [hm, List.take_of_length_le (by simp)]
  rw [h1, ← hlen]
  conv_lhs => rw [hsplit, sectorBytes_append, sectorBytes_cons]
  rw [← hsplit]
  exact Sector.ofMem_bytes _ _

/-! ## Files -/

/-- The files of a directory. -/
abbrev Dir := Bytes → Option Bytes

/-- `"%s%03d"`. -/
def chunkName (name : Bytes) (i : ℕ) : Bytes := name ++ pad3 i

theorem chunkName_injective (name : Bytes) : Function.Injective (chunkName name) :=
  fun _ _ h => pad3_injective (List.append_cancel_left h)

/-- The programs that call `compress_volume`. -/
inductive Imager
  | xfs | lvmreiserfs | lvm | jfs | swap | e2fs | raw
  deriving DecidableEq, Repr

/-- The text each of them passes as `info`. -/
def Imager.info : Imager → Bytes
  | .xfs => ascii "XFS"
  | .lvmreiserfs => ascii "RFS3"
  | .lvm => ascii "LVM"
  | .jfs => ascii ""
  | .swap => ascii "SWAP=1"
  | .e2fs => ascii "E2FS=1|TYPE=131"
  | .raw => ascii ""

/-! ## Headers -/

/-- `"SECTORS=%llu|BLOCKS=%d|%s"`. -/
def firstString (nbSect nb : ℕ) (info : Bytes) : Bytes :=
  ascii "SECTORS=" ++ dec nbSect ++ ascii "|BLOCKS=" ++ dec nb ++ ascii "|" ++ info

/-- `"%s%sALLOCTABLELG=%d\n"`. -/
def headerText (first filestring : Bytes) (lg : ℕ) : Bytes :=
  first ++ filestring ++ ascii "ALLOCTABLELG=" ++ dec lg ++ ascii "\n"

/-- An `IMAGE_HEADER`. -/
def imageHeader (text bitmap : Bytes) : Bytes := padTo 2048 text ++ padTo 22016 bitmap

@[simp] theorem length_imageHeader (text bitmap : Bytes) :
    (imageHeader text bitmap).length = 24064 := by
  rw [imageHeader, List.length_append, length_padTo, length_padTo]

theorem drop_imageHeader (text bitmap : Bytes) :
    (imageHeader text bitmap).drop 2048 = padTo 22016 bitmap := by
  unfold imageHeader
  rw [List.drop_append, length_padTo, List.drop_of_length_le (by rw [length_padTo])]
  simp

/-- `strstr(BUFFER, key)` and `sscanf("%d")` after it. -/
def headerInt (key : Bytes) (buffer : Bytes) : Option ℤ :=
  match strstr (cstr buffer) key with
  | none => none
  | some p =>
    match sscanf (fmt "%d") (p.drop key.length) with
    | [.int n] => some n
    | _ => none

theorem cstr_imageHeader {text : Bytes} (h : ∀ b ∈ text, b ≠ 0) (hl : text.length < 2048)
    (bitmap : Bytes) : cstr (imageHeader text bitmap) = text := by
  unfold imageHeader
  obtain ⟨k, hk⟩ : ∃ k, 2048 - text.length = k + 1 := ⟨2048 - text.length - 1, by omega⟩
  rw [padTo_of_le hl.le, hk, List.replicate_succ, List.append_assoc, List.cons_append]
  exact cstr_append_zero h _

theorem headerInt_of_strstr {key buffer r : Bytes} {n : ℕ}
    (h : strstr (cstr buffer) key = some (key ++ (dec n ++ r)))
    (hr : ∀ b ∈ r.head?, isDigit b = false) : headerInt key buffer = some (n : ℤ) := by
  unfold headerInt
  rw [h, show fmt "%d" = [.conv .d true] from rfl]
  simp only [List.drop_left, sscanf, scanConv_d_dec n hr, if_true]

/-- The key of the table length is found after any `info` text. -/
theorem strstr_info_alloc (im : Imager) (rest : Bytes) :
    strstr (im.info ++ (ascii "ALLOCTABLELG=" ++ rest)) (ascii "ALLOCTABLELG=") =
      some (ascii "ALLOCTABLELG=" ++ rest) := by
  have hself := strstr_self (ascii "ALLOCTABLELG=") rest
  have hskip : ∀ skip : Bytes, (∀ x ∈ skip, x ≠ 65) → ∀ r : Bytes,
      strstr (skip ++ r) (ascii "ALLOCTABLELG=") = strstr r (ascii "ALLOCTABLELG=") :=
    fun skip hs r => strstr_append_of_head hs r
  cases im with
  | swap =>
    -- the only text with the key's first letter in it
    have h2 : strstr (65 :: (ascii "P=1" ++ (ascii "ALLOCTABLELG=" ++ rest)))
        (ascii "ALLOCTABLELG=") =
          strstr (ascii "P=1" ++ (ascii "ALLOCTABLELG=" ++ rest)) (ascii "ALLOCTABLELG=") := by
      rw [strstr]; rfl
    calc strstr (ascii "SWAP=1" ++ (ascii "ALLOCTABLELG=" ++ rest)) (ascii "ALLOCTABLELG=")
        = strstr (65 :: (ascii "P=1" ++ (ascii "ALLOCTABLELG=" ++ rest)))
            (ascii "ALLOCTABLELG=") := hskip (ascii "SW") (by decide) _
      _ = _ := by rw [h2, hskip (ascii "P=1") (by decide), hself]
  | xfs => rw [hskip _ (by decide), hself]
  | lvmreiserfs => rw [hskip _ (by decide), hself]
  | lvm => rw [hskip _ (by decide), hself]
  | jfs => exact hself
  | e2fs => rw [hskip _ (by decide), hself]
  | raw => exact hself

section Text

variable {nbSect nb lg : ℕ} {im : Imager}

/-- The text of the first chunk. -/
abbrev text₀ (nbSect nb : ℕ) (im : Imager) (lg : ℕ) : Bytes :=
  headerText (firstString nbSect nb im.info) [] lg

theorem text₀_eq : text₀ nbSect nb im lg =
    ascii "SECTORS=" ++ (dec nbSect ++ (ascii "|" ++ (ascii "BLOCKS=" ++ (dec nb ++ (ascii "|" ++
      (im.info ++ (ascii "ALLOCTABLELG=" ++ (dec lg ++ ascii "\n")))))))) := by
  simp only [headerText, firstString, List.append_assoc, List.nil_append]
  rfl

theorem text₀_ne_zero : ∀ b ∈ text₀ nbSect nb im lg, b ≠ 0 := by
  have hinfo : ∀ b ∈ im.info, b ≠ 0 := by cases im <;> decide
  have h0 : ∀ {n : ℕ}, ∀ b ∈ dec n, b ≠ 0 := fun b hb => dec_ne (by decide) b hb
  rw [text₀_eq]
  simp only [List.forall_mem_append]
  exact ⟨by decide, h0, by decide, by decide, h0, by decide, hinfo, by decide, h0, by decide⟩

/-- The text of a later chunk. -/
abbrev textₛ (lg : ℕ) : Bytes := headerText [] [] lg

theorem textₛ_eq : textₛ lg = ascii "ALLOCTABLELG=" ++ (dec lg ++ ascii "\n") := by
  simp only [headerText, List.append_assoc, List.nil_append]

theorem textₛ_ne_zero : ∀ b ∈ textₛ lg, b ≠ 0 := by
  have h0 : ∀ b ∈ dec lg, b ≠ 0 := fun b hb => dec_ne (by decide) b hb
  rw [textₛ_eq]
  simp only [List.forall_mem_append]
  exact ⟨by decide, h0, by decide⟩

theorem length_textₛ_lt (hlg : lg ≤ 22016) : (textₛ lg).length < 2048 := by
  have h := length_dec_le (n := lg) (k := 5) (by omega) (by omega)
  rw [textₛ_eq, List.length_append, List.length_append, show (ascii "ALLOCTABLELG=").length = 13
    from rfl, show (ascii "\n").length = 1 from rfl]
  omega

theorem length_text₀_lt (hs : nbSect < 2 ^ 64) (hnb : nb < 2 ^ 32) (hlg : lg ≤ 22016) :
    (text₀ nbSect nb im lg).length < 2048 := by
  have h1 := length_dec_le (n := nbSect) (k := 20) (by omega) (by omega)
  have h2 := length_dec_le (n := nb) (k := 10) (by omega) (by omega)
  have h3 := length_dec_le (n := lg) (k := 5) (by omega) (by omega)
  have h4 : im.info.length ≤ 15 := by cases im <;> decide
  rw [text₀_eq]
  simp only [List.length_append, show (ascii "SECTORS=").length = 8 from rfl,
    show (ascii "|").length = 1 from rfl, show (ascii "BLOCKS=").length = 7 from rfl,
    show (ascii "ALLOCTABLELG=").length = 13 from rfl, show (ascii "\n").length = 1 from rfl]
  omega

variable (bitmap : Bytes)

/-- The first chunk says how many there are. -/
theorem strstr_blocks (hs : nbSect < 2 ^ 64) (hnb : nb < 2 ^ 32) (hlg : lg ≤ 22016) :
    strstr (cstr (imageHeader (text₀ nbSect nb im lg) bitmap)) (ascii "BLOCKS=") =
      some (ascii "BLOCKS=" ++ (dec nb ++ (ascii "|" ++
        (im.info ++ (ascii "ALLOCTABLELG=" ++ (dec lg ++ ascii "\n")))))) := by
  have hd : ∀ b ∈ dec nbSect, b ≠ 66 := dec_ne (by decide)
  rw [cstr_imageHeader text₀_ne_zero (length_text₀_lt hs hnb hlg), text₀_eq]
  rw [show ascii "BLOCKS=" = 66 :: ascii "LOCKS=" from rfl]
  rw [strstr_append_of_head (by decide), strstr_append_of_head hd,
    strstr_append_of_head (by decide)]
  exact strstr_self _ _

/-- The later chunks do not. -/
theorem strstr_blocks_later (hlg : lg ≤ 22016) :
    strstr (cstr (imageHeader (textₛ lg) bitmap)) (ascii "BLOCKS=") = none := by
  have hd : ∀ b ∈ dec lg ++ ascii "\n", b ≠ 66 :=
    List.forall_mem_append.mpr ⟨dec_ne (by decide), by decide⟩
  -- the key starts with the `B` of `TABLE` only
  have h2 : strstr (66 :: (ascii "LELG=" ++ (dec lg ++ ascii "\n"))) (ascii "BLOCKS=") =
      strstr (ascii "LELG=" ++ (dec lg ++ ascii "\n")) (ascii "BLOCKS=") := by
    rw [strstr]; rfl
  rw [cstr_imageHeader textₛ_ne_zero (length_textₛ_lt hlg), textₛ_eq]
  calc strstr (ascii "ALLOCTABLELG=" ++ (dec lg ++ ascii "\n")) (ascii "BLOCKS=")
      = strstr (66 :: (ascii "LELG=" ++ (dec lg ++ ascii "\n"))) (ascii "BLOCKS=") :=
        strstr_append_of_head (s := ascii "ALLOCTA") (by decide) _
    _ = strstr (dec lg ++ ascii "\n") (ascii "BLOCKS=") := by
        rw [h2]; exact strstr_append_of_head (by decide) _
    _ = none := strstr_none_of_head hd

/-- Every chunk gives the length of its table. -/
theorem strstr_alloc (hs : nbSect < 2 ^ 64) (hnb : nb < 2 ^ 32) (hlg : lg ≤ 22016) :
    strstr (cstr (imageHeader (text₀ nbSect nb im lg) bitmap)) (ascii "ALLOCTABLELG=") =
      some (ascii "ALLOCTABLELG=" ++ (dec lg ++ ascii "\n")) := by
  have hd : ∀ {n : ℕ}, ∀ b ∈ dec n, b ≠ 65 := fun b hb => dec_ne (by decide) b hb
  rw [cstr_imageHeader text₀_ne_zero (length_text₀_lt hs hnb hlg), text₀_eq]
  rw [show ascii "ALLOCTABLELG=" = 65 :: ascii "LLOCTABLELG=" from rfl]
  rw [strstr_append_of_head (by decide), strstr_append_of_head hd,
    strstr_append_of_head (by decide), strstr_append_of_head (by decide),
    strstr_append_of_head hd, strstr_append_of_head (by decide)]
  exact strstr_info_alloc im _

theorem strstr_alloc_later (hlg : lg ≤ 22016) :
    strstr (cstr (imageHeader (textₛ lg) bitmap)) (ascii "ALLOCTABLELG=") =
      some (ascii "ALLOCTABLELG=" ++ (dec lg ++ ascii "\n")) := by
  rw [cstr_imageHeader textₛ_ne_zero (length_textₛ_lt hlg), textₛ_eq]
  exact strstr_self _ _

theorem headerInt_blocks (hs : nbSect < 2 ^ 64) (hnb : nb < 2 ^ 32) (hlg : lg ≤ 22016) :
    headerInt (ascii "BLOCKS=") (imageHeader (text₀ nbSect nb im lg) bitmap) = some (nb : ℤ) := by
  refine headerInt_of_strstr (strstr_blocks bitmap hs hnb hlg) fun b hb => ?_
  cases hb
  decide

theorem headerInt_blocks_later (hlg : lg ≤ 22016) :
    headerInt (ascii "BLOCKS=") (imageHeader (textₛ lg) bitmap) = none := by
  rw [headerInt, strstr_blocks_later bitmap hlg]

theorem headerInt_alloc (hs : nbSect < 2 ^ 64) (hnb : nb < 2 ^ 32) (hlg : lg ≤ 22016) :
    headerInt (ascii "ALLOCTABLELG=") (imageHeader (text₀ nbSect nb im lg) bitmap) =
      some (lg : ℤ) := by
  refine headerInt_of_strstr (strstr_alloc bitmap hs hnb hlg) fun b hb => ?_
  cases hb
  decide

theorem headerInt_alloc_later (hlg : lg ≤ 22016) :
    headerInt (ascii "ALLOCTABLELG=") (imageHeader (textₛ lg) bitmap) = some (lg : ℤ) := by
  refine headerInt_of_strstr (strstr_alloc_later bitmap hlg) fun b hb => ?_
  cases hb
  decide

end Text

end LinboxRescue
