import LinboxRescue.Image.ImageFiles
import LinboxRescue.Lib.StoredZlib

/-!
# Saving and restoring a volume

`restore_volume`: restoring what `compress_volume` wrote is one `scatter` of the saved sectors over
the bits of the table, whatever reads and writes fail. What is saved is `gather`ed from the source;
`imageSectors_append` says that the first sectors of the image are known as soon as the first reads
are.

* Without failures the two cancel (`restore_compressVolume`).
* A failed read leaves the head of the source where it was, and every later used sector is taken
  from a place before its own (`savesReadable_iff`).
* A failed write does the same to the target (`restoresWritable_iff`).
-/

namespace LinboxRescue

/-! ## The saved sectors -/

section Saved

/-- How an outcome of a read determines the saved sector: `I` is kept by the buffer, and from an
outcome related to `s` by `K` the slot holds `s`. -/
structure SlotRule (I : Bytes → Prop) (K : Option Sector → Sector → Prop) : Prop where
  store : ∀ buf j r s, buf.length = 24064 → j < 47 → I buf → K r s →
    I (store buf j r) ∧ Sector.ofMem (store buf j r) (512 * j) = s

variable {I : Bytes → Prop} {K : Option Sector → Sector → Prop} (hK : SlotRule I K)

include hK in
theorem SlotRule.fills {buf : Bytes} {j : ℕ} {rs : List (Option Sector)} {ys : List Sector}
    (hbuf : buf.length = 24064) (hj : j < 47) (hI : I buf) (h : List.Forall₂ K rs ys) :
    fills buf j rs = ys ∧ I (stored buf j rs) := by
  induction h generalizing buf j with
  | nil => exact ⟨rfl, hI⟩
  | @cons r y rs ys hr _ ih =>
    obtain ⟨hI', hy⟩ := hK.store buf j r y hbuf hj hI hr
    obtain ⟨h1, h2⟩ := ih (length_store hbuf hj r) (Nat.mod_lt _ (by omega)) hI'
    exact ⟨by rw [LinboxRescue.fills, hy, h1], h2⟩

variable {d : Source}

include hK in
/-- The first sectors of an image follow from the outcomes of the first reads. -/
theorem imageSectors_append (n : ℕ) : ∀ (first : Bytes) {rest buffer : Bytes} {q : ℕ}
    {rs rs' : List (Option Sector)} {ys : List Sector}, rest.length ≤ 22016 * n →
    buffer.length = 24064 → I buffer → gather d.sector q (bits rest) = rs ++ rs' →
    List.Forall₂ K rs ys → ∃ zs, imageSectors (savedChunks d n first rest buffer q) = ys ++ zs := by
  induction n with
  | zero =>
    intro first rest buffer q rs rs' ys hlen _ _ hg hys
    rw [Nat.mul_zero, Nat.le_zero, List.length_eq_zero_iff] at hlen
    rw [hlen] at hg
    obtain ⟨rfl, -⟩ := List.append_eq_nil_iff.mp hg.symm
    cases hys
    exact ⟨[], rfl⟩
  | succ n ih =>
    intro first rest buffer q rs rs' ys hlen hbuf hI hg hys
    rw [savedChunks, imageSectors_cons]
    show ∃ zs, savedSectors d buffer q (rest.take 22016) ++ _ = _
    rw [savedSectors]
    rw [← List.take_append_drop 22016 rest, bits_append, gather_append] at hg
    obtain ⟨g, hgdef⟩ : ∃ g, g = gather d.sector q (bits (rest.take 22016)) := ⟨_, rfl⟩
    rw [← hgdef] at hg ⊢
    rcases List.append_eq_append_iff.mp hg with ⟨more, hrs, hrest⟩ | ⟨more, hg', -⟩
    · -- the whole chunk is known
      rw [hrs] at hys
      have h1 := List.forall₂_take g.length hys
      have h2 := List.forall₂_drop g.length hys
      rw [List.take_left] at h1
      rw [List.drop_left] at h2
      obtain ⟨hf, hI'⟩ := hK.fills hbuf (show 0 < 47 by omega) hI h1
      obtain ⟨zs, hzs⟩ := ih [] (by rw [List.length_drop]; omega)
        (length_stored hbuf (show 0 < 47 by omega) g) hI'
        hrest h2
      exact ⟨zs, by rw [hf, hzs, ← List.append_assoc, List.take_append_drop]⟩
    · rw [hg', fills_append buffer (show 0 < 47 by omega),
        (hK.fills hbuf (show 0 < 47 by omega) hI hys).1, List.append_assoc]
      exact ⟨_, rfl⟩

/-- A sector that is read is saved. -/
theorem slotRule_some : SlotRule (fun _ => True) fun r s => r = some s where
  store buf j r s hbuf hj _ hr := ⟨trivial, by rw [hr]; exact ofMem_store_some hbuf hj s⟩

/-- Without read errors the image holds the used sectors. -/
theorem imageSectors_of_ok {im : Imager} {p : Params} {buffer : Bytes}
    (hbuf : buffer.length = 24064) {f : ℕ → Sector}
    (h : ∀ q ∈ ones 0 (bits p.bitmap), d.sector q = some (f q)) :
    imageSectors (volumeChunks d im p buffer) = (ones 0 (bits p.bitmap)).map f := by
  have hg := gather_of_ok h
  rw [← List.append_nil (List.map _ _)] at hg
  have hall : List.Forall₂ (fun r s => r = some s) ((ones 0 (bits p.bitmap)).map fun q => some (f q))
      ((ones 0 (bits p.bitmap)).map f) := by
    rw [List.forall₂_map_left_iff, List.forall₂_map_right_iff, List.forall₂_same]
    exact fun _ _ => rfl
  obtain ⟨zs, hzs⟩ := imageSectors_append slotRule_some p.nb
    (firstString p.nbSect p.nb im.info) p.length_bitmap_le hbuf trivial hg hall
  have hlen := length_imageSectors (volumeChunks d im p buffer)
  rw [imageBits_volumeChunks, volumeChunks, hzs, List.length_append, List.length_map, length_ones]
    at hlen
  rw [volumeChunks, hzs, List.length_eq_zero_iff.mp (by omega : zs.length = 0), List.append_nil]

end Saved

/-! ## Restoring what was saved -/

/-- A directory without files. -/
def Dir.empty : Dir := fun _ => none

section Restore

variable {z : Zlib} (hz : z.Contract)

/-- The names asked for when `nb` chunks are restored; without chunks the first file is missed. -/
def fetchedNames (name : Bytes) (nb : ℕ) : List Bytes :=
  if nb = 0 then [chunkName name 0] else (List.range nb).map (chunkName name)

include hz in
/-- **Restoring a saved volume** is one `scatter` over the bits of the table. -/
theorem restore_volume {d : Source} (hseek : ∀ o, d.seekable o = true) (name : Bytes) (im : Imager)
    (p : Params) {buffer : Bytes} (hbuf : buffer.length = 24064) (mem : Memory) {t : Target}
    (hoff : t.off = 0) {s : ℕ} (hr : Reaches t s (bits p.bitmap)) :
    ∃ v st, Returns (fun fuel =>
        compressVolume z fuel name none im p (d.seekTo 0) buffer Dir.empty) v ∧
      Returns (fun fuel => restore z.inflate fuel v.dir.fetch mem t s name)
        (fetchedNames name p.nb, st) ∧
      st.fo.cells = (scatter t.bad (bits p.bitmap) (imageSectors (volumeChunks d im p buffer))
        ⟨s, t.cells⟩).cells := by
  obtain ⟨v, hret, hfiles, hkeep⟩ := compressVolume_files hz hseek name im p hbuf Dir.empty
  have hlen : (volumeChunks d im p buffer).length = p.nb := length_savedChunks _ _ _ _ _
  have hbits := imageBits_volumeChunks (d := d) im p buffer
  have hnil : volumeChunks d im p buffer = [] ↔ p.nb = 0 := by
    rw [← hlen, List.length_eq_zero_iff]
  have hnone : volumeChunks d im p buffer = [] → v.dir (chunkName name 0) = none := by
    intro h
    rw [hkeep _ (chunkName_ne_idx name 0).symm fun j hj => by rw [hnil.mp h] at hj; omega]
    rfl
  obtain ⟨st, hret', hcells⟩ := restore_files hz hfiles hnone mem hoff (by rwa [hbits])
  refine ⟨v, st, hret, ?_, by rw [hcells, hbits]⟩
  simp only [hnil, hlen] at hret'
  exact hret'

end Restore

/-! ## Without failures -/

/-- Sector `i` is used. -/
abbrev Used (bitmap : Bytes) (i : ℕ) : Prop := bitAt bitmap i = some true

theorem used_iff {bm : Bytes} {i : ℕ} : Used bm i ↔ i ∈ ones 0 (bits bm) := by
  rw [Used, bitAt_eq, mem_ones, Nat.sub_zero]
  exact ⟨fun h => ⟨Nat.zero_le _, h⟩, fun h => h.2⟩

theorem used_iff_add {bm : Bytes} {s q : ℕ} : q ∈ ones s (bits bm) ↔ ∃ i, Used bm i ∧ q = s + i := by
  have h0 := ones_add 0 s (bits bm)
  rw [Nat.zero_add] at h0
  rw [h0, List.mem_map]
  constructor
  · rintro ⟨i, hi, rfl⟩; exact ⟨i, used_iff.mpr hi, Nat.add_comm _ _⟩
  · rintro ⟨i, hi, rfl⟩; exact ⟨i, used_iff.mp hi, Nat.add_comm _ _⟩

/-- A device just opened, of which the sectors in `bad` cannot be read. -/
def openSource (D : List Sector) (bad : ℕ → Bool) : Source :=
  { data := D, bad, seekable := fun _ => true, off := 0 }

/-- A disk just opened, of which the sectors in `bad` cannot be written. -/
def openTarget (T : ℕ → Sector) (bad : ℕ → Bool) : Target :=
  { cells := T, bad, seekable := fun _ => true, off := 0 }

/-- The disk ends before sector `n`. -/
def endsAt (n : ℕ) : ℕ → Bool := fun q => decide (n ≤ q)

theorem reaches_openTarget (T : ℕ → Sector) (bad : ℕ → Bool) (s : ℕ) (bs : List Bool) :
    Reaches (openTarget T bad) s bs := fun _ _ _ _ => rfl

theorem sector_openSource {D : List Sector} {bad : ℕ → Bool} {i : ℕ} (hi : i < D.length)
    (hb : bad i = false) : (openSource D bad).sector i = some (D.getD i default) := by
  show (if bad i then none else D[i]?) = _
  rw [if_neg (by simp [hb]), List.getElem?_eq_getElem hi, List.getD_eq_getElem _ _ hi]

/-- A zeroed buffer. -/
def zeros : Bytes := List.replicate 24064 0

theorem length_zeros : zeros.length = 24064 := List.length_replicate

/-- Zeroed memory. -/
def Memory.zero : Memory :=
  { buffer := zeros, bitmap := List.replicate 22016 0, length_buffer := length_zeros
    length_bitmap := List.length_replicate }

/-- With every sector readable, `restore` scatters the used sectors of the device. -/
theorem restore_readable {z : Zlib} (hz : z.Contract) {p : Params} (bad : ℕ → Bool) (s : ℕ)
    {D : List Sector} (hD : ∀ i, Used p.bitmap i → i < D.length) (name : Bytes)
    (im : Imager) {buffer : Bytes} (hbuf : buffer.length = 24064) (mem : Memory) (T : ℕ → Sector) :
    ∃ v st, Returns (fun fuel => compressVolume z fuel name none im p
        (openSource D fun _ => false) buffer Dir.empty) v ∧
      Returns (fun fuel => restore z.inflate fuel v.dir.fetch mem (openTarget T bad) s name)
        (fetchedNames name p.nb, st) ∧
      st.fo.cells = (scatter bad (bits p.bitmap)
        ((ones 0 (bits p.bitmap)).map fun i => D.getD i default) ⟨s, T⟩).cells := by
  obtain ⟨v, st, hv, hst, hcells⟩ := restore_volume hz (d := openSource D fun _ => false)
    (fun _ => rfl) name im p hbuf mem (t := openTarget T bad) rfl (reaches_openTarget T _ s _)
  refine ⟨v, st, hv, hst, ?_⟩
  rw [hcells, imageSectors_of_ok hbuf fun q hq => sector_openSource (hD q (used_iff.mpr hq)) rfl]
  rfl

/-- **The round trip.** -/
theorem restore_compressVolume {z : Zlib} (hz : z.Contract) (D : List Sector) (p : Params)
    (hB : ∀ i, Used p.bitmap i → i < D.length) (name : Bytes) (im : Imager) (buffer : Bytes)
    (hbuf : buffer.length = 24064) (mem : Memory) (T : ℕ → Sector) (n s : ℕ)
    (hT : ∀ i, Used p.bitmap i → s + i < n) :
    ∃ v st, Returns (fun fuel => compressVolume z fuel name none im p
        (openSource D fun _ => false) buffer Dir.empty) v ∧
      Returns (fun fuel => restore z.inflate fuel v.dir.fetch mem (openTarget T (endsAt n)) s name)
        (fetchedNames name p.nb, st) ∧
      (∀ i, Used p.bitmap i → D[i]? = some (st.fo.cells (s + i))) ∧
      ∀ q, (∀ i, Used p.bitmap i → q ≠ s + i) → st.fo.cells q = T q := by
  obtain ⟨v, st, hv, hst, hcells⟩ := restore_readable hz (endsAt n) s hB name im hbuf mem T
  have hgood : ∀ q ∈ ones s (bits p.bitmap), endsAt n q = false := by
    intro q hq
    obtain ⟨i, hi, rfl⟩ := used_iff_add.mp hq
    exact decide_eq_false (by have := hT i hi; omega)
  refine ⟨v, st, hv, hst, fun i hi => ?_, fun q hq => ?_⟩
  · have h := scatter_map_of_ok (f := fun i => D.getD i default) (t := ⟨s, T⟩) hgood (used_iff.mp hi)
    have hlt := hB i hi
    rw [List.getElem?_eq_getElem hlt, ← List.getD_eq_getElem D default hlt, ← h]
    exact congrArg (fun c : ℕ → Sector => some (c (s + i))) hcells.symm
  · rw [hcells]
    refine scatter_cells_of_not_mem (t := ⟨s, T⟩) hgood fun hmem => ?_
    obtain ⟨i, hi, e⟩ := used_iff_add.mp hmem
    exact hq i hi e

/-- The parameters of a volume with the bitmap `bm`, too small to need more than one chunk. -/
def smallParams (bm : Bytes) (h : bm.length < 22016) : Params :=
  { bitmap := bm, nbSect := 8 * bm.length, bitmap_lt := by omega, nbSect_lt := by omega }

theorem restore_compressVolume_three : ∃ v st,
    Returns (fun fuel => compressVolume storedZlib fuel (ascii "P1") none .raw
      (smallParams [5] (by decide)) (openSource [.fill 7, .fill 8, .fill 9] fun _ => false) zeros
      Dir.empty) v ∧
    Returns (fun fuel => restore storedZlib.inflate fuel v.dir.fetch Memory.zero
      (openTarget (fun _ => .fill 0) (endsAt 66)) 63 (ascii "P1"))
      (fetchedNames (ascii "P1") (smallParams [5] (by decide)).nb, st) ∧
    (∀ i, Used [5] i → [Sector.fill 7, .fill 8, .fill 9][i]? = some (st.fo.cells (63 + i))) ∧
    ∀ q, (∀ i, Used [5] i → q ≠ 63 + i) → st.fo.cells q = .fill 0 :=
  restore_compressVolume storedZlib_contract [.fill 7, .fill 8, .fill 9]
    (smallParams [5] (by decide))
    (fun _ hi => (show ∀ i ∈ ones 0 (bits [5]), i < 3 by decide) _ (used_iff.mp hi)) _ _ zeros
    length_zeros _ _ 66 63
    fun _ hi => (show ∀ i ∈ ones 0 (bits [5]), 63 + i < 66 by decide) _ (used_iff.mp hi)

/-! ## Unreadable sectors -/

/-- The device whose sector `i` is `f i`. -/
def deviceOf (p : Params) (f : ℕ → Sector) : List Sector := (List.range (8 * p.bitmap.length)).map f

theorem getElem?_deviceOf {p : Params} (f : ℕ → Sector) {i : ℕ} (hi : Used p.bitmap i) :
    (deviceOf p f)[i]? = some (f i) := by
  rw [Used, bitAt_eq] at hi
  have hlt := (List.getElem?_eq_some_iff.mp hi).1
  rw [length_bits] at hlt
  rw [deviceOf, List.getElem?_map, List.getElem?_range hlt, Option.map_some]

theorem lt_length_deviceOf {p : Params} (f : ℕ → Sector) {i : ℕ} (hi : Used p.bitmap i) :
    i < (deviceOf p f).length :=
  (List.getElem?_eq_some_iff.mp (getElem?_deviceOf f hi)).1

theorem store_zeros {j : ℕ} (hj : j < 47) {r : Option Sector}
    (hr : r = none ∨ r = some (Sector.fill 0)) : store zeros j r = zeros := by
  rcases hr with rfl | rfl
  · rfl
  · exact overwrite_replicate 0 (by omega)

/-- As long as nothing but zeros is read, zeros are saved. -/
theorem slotRule_zero : SlotRule (· = zeros)
    fun r s => (r = none ∨ r = some (Sector.fill 0)) ∧ s = Sector.fill 0 where
  store buf j r s _ hj hI hr := by
    subst hI
    rw [store_zeros hj hr.1, hr.2]
    exact ⟨rfl, Sector.ofMem_replicate 0 (by omega)⟩

/-- Every readable used sector is saved so that `restore` puts it back in its place, whatever the
device and the disk hold. -/
def SavesReadable (z : Zlib) (p : Params) (bad : ℕ → Bool) : Prop :=
  ∀ (D : List Sector) (name : Bytes) (im : Imager) (buffer : Bytes) (mem : Memory) (T : ℕ → Sector)
    (s : ℕ), (∀ i, Used p.bitmap i → i < D.length) → buffer.length = 24064 →
    ∃ v st, Returns (fun fuel => compressVolume z fuel name none im p
        (openSource D bad) buffer Dir.empty) v ∧
      Returns (fun fuel =>
        restore z.inflate fuel v.dir.fetch mem (openTarget T fun _ => false) s name)
        (fetchedNames name p.nb, st) ∧
      ∀ i, Used p.bitmap i → bad i = false → D[i]? = some (st.fo.cells (s + i))

section Unreadable

variable {z : Zlib} (hz : z.Contract) {p : Params} {bad : ℕ → Bool}

/-- The sector restored for the used sector `i`, when the saved ones start with `ys`. -/
theorem scatter_cells_used {T : ℕ → Sector} {s i : ℕ} {bs : List Bool} {ys zs : List Sector}
    {x : Sector} (hi : bs[i]? = some true) (hx : ys[(bs.take i).count true]? = some x) :
    (scatter (fun _ => false) bs (ys ++ zs) ⟨s, T⟩).cells (s + i) = x := by
  obtain ⟨hsplit, hlen⟩ := eq_append_of_getElem? hi
  refine scatter_cells_of_ok (t := ⟨s, T⟩) (k := (bs.take i).count true) (fun _ _ => rfl) ?_ ?_
  · have h := getElem?_ones_append s (bs.take i) (bs.drop (i + 1))
    rwa [← hsplit, hlen] at h
  · rw [List.getElem?_append_left (List.getElem?_eq_some_iff.mp hx).1, hx]

/-- The outcomes of the reads up to the used sector `i`. -/
theorem gather_split {read : ℕ → Option Sector} {bs : List Bool} {i : ℕ} (hi : bs[i]? = some true) :
    ∃ rs', gather read 0 bs = gather read 0 (bs.take i ++ [true]) ++ rs' := by
  obtain ⟨hsplit, -⟩ := eq_append_of_getElem? hi
  refine ⟨gather read (gatherEnd read 0 (bs.take i ++ [true])) (bs.drop (i + 1)), ?_⟩
  rw [← gather_append, List.append_assoc, List.singleton_append, ← hsplit]

include hz in
/-- As long as no unreadable used sector has been met, sectors are saved in their places. -/
theorem savesReadable_of (h : ∀ i j, i < j → Used p.bitmap i → Used p.bitmap j → bad i = true →
    bad j = true) : SavesReadable z p bad := by
  intro D name im buffer mem T s hD hbuf
  obtain ⟨v, st, hv, hst, hcells⟩ := restore_volume hz (d := openSource D bad)
    (fun _ => rfl) name im p hbuf mem (t := openTarget T fun _ => false) rfl
    (reaches_openTarget T _ s _)
  refine ⟨v, st, hv, hst, fun i hi hgood => ?_⟩
  rw [Used, bitAt_eq] at hi
  obtain ⟨hsplit, hlen⟩ := eq_append_of_getElem? hi
  have hsec : ∀ q ∈ ones 0 ((bits p.bitmap).take i ++ [true]),
      (openSource D bad).sector q = some (D.getD q default) := by
    intro q hq
    have hle := lt_of_mem_ones hq
    rw [List.length_append, hlen, List.length_singleton] at hle
    have hq' : Used p.bitmap q := by
      rw [used_iff, hsplit, ← List.singleton_append, ← List.append_assoc, ones_append]
      exact List.mem_append_left _ hq
    refine sector_openSource (hD q hq') ?_
    by_contra hb
    rcases Nat.lt_or_ge q i with hlt | hge
    · rw [h q i hlt hq' (by rw [Used, bitAt_eq]; exact hi) (by simpa using hb)] at hgood
      cases hgood
    · rw [show q = i by omega] at hb
      exact hb hgood
  obtain ⟨rs', hrs⟩ := @gather_split (openSource D bad).sector _ _ hi
  rw [gather_of_ok hsec] at hrs
  have hall : List.Forall₂ (fun r s => r = some s)
      ((ones 0 ((bits p.bitmap).take i ++ [true])).map fun q => some (D.getD q default))
      ((ones 0 ((bits p.bitmap).take i ++ [true])).map fun q => D.getD q default) := by
    rw [List.forall₂_map_left_iff, List.forall₂_map_right_iff, List.forall₂_same]
    exact fun _ _ => rfl
  obtain ⟨zs, hzs⟩ := imageSectors_append slotRule_some p.nb (firstString p.nbSect p.nb im.info)
    p.length_bitmap_le hbuf trivial hrs hall
  have hx : ((ones 0 ((bits p.bitmap).take i ++ [true])).map fun q => D.getD q default)[
      ((bits p.bitmap).take i).count true]? = some (D.getD i default) := by
    rw [List.getElem?_map, getElem?_ones_append, hlen, Nat.zero_add]; rfl
  have hlt : i < D.length := hD i (by rw [Used, bitAt_eq]; exact hi)
  rw [hcells, volumeChunks, hzs, List.getElem?_eq_getElem hlt, ← List.getD_eq_getElem D default hlt]
  exact congrArg some (scatter_cells_used hi hx).symm

/-- A device with one marked sector, the rest of it being zero. -/
def markedDevice (p : Params) (j : ℕ) : List Sector :=
  deviceOf p fun q => if q = j then .fill 1 else .fill 0

/-- Before the marked sector nothing but zeros is read. -/
theorem sector_markedDevice {j q : ℕ} (hj : Used p.bitmap j) (hq : q < j) :
    (openSource (markedDevice p j) bad).sector q = none ∨
    (openSource (markedDevice p j) bad).sector q = some (.fill 0) := by
  by_cases hb : bad q = true
  · exact .inl (if_pos hb)
  · refine .inr ?_
    have hlt := lt_length_deviceOf (fun _ => .fill 0) hj
    rw [deviceOf, List.length_map, List.length_range] at hlt
    show (if bad q then none else (markedDevice p j)[q]?) = _
    rw [if_neg hb, markedDevice, deviceOf, List.getElem?_map, List.getElem?_range (by omega),
      Option.map_some, if_neg (by omega)]

/-- Behind an unreadable sector the reads lag, so that the marked sector is not reached in time. -/
theorem gather_markedDevice {i j : ℕ} (hij : i < j) (hi : Used p.bitmap i) (hj : Used p.bitmap j)
    (hbi : bad i = true) :
    ∀ r ∈ gather (openSource (markedDevice p j) bad).sector 0 ((bits p.bitmap).take j ++ [true]),
      r = none ∨ r = some (.fill 0) := by
  have hzero := fun q (hq : q < j) => @sector_markedDevice p bad j q hj hq
  have hbroken : (openSource (markedDevice p j) bad).sector i = none := if_pos hbi
  obtain ⟨read, hread⟩ : ∃ read, read = (openSource (markedDevice p j) bad).sector := ⟨_, rfl⟩
  rw [← hread] at hzero hbroken ⊢
  rw [Used, bitAt_eq] at hi hj
  have hlen := (eq_append_of_getElem? hj).2
  have hle := @gatherEnd_le _ read 0 ((bits p.bitmap).take j)
  have hbehind : gatherEnd read 0 ((bits p.bitmap).take j) < j := by
    refine lt_of_le_of_ne (by omega) fun heq => ?_
    have hsome := isSome_of_gatherEnd_eq (p := 0) (by rw [heq, hlen, Nat.zero_add]) i
      (mem_ones_zero.mpr (by rw [List.getElem?_take, if_pos hij, hi]))
    rw [hbroken] at hsome
    cases hsome
  intro r hr
  rw [gather_append] at hr
  rcases List.mem_append.mp hr with hr | hr
  · obtain ⟨q, hq, rfl⟩ := exists_of_mem_gather hr
    exact hzero q (by omega)
  · obtain rfl : r = read (gatherEnd read 0 ((bits p.bitmap).take j)) := by
      cases hs : read (gatherEnd read 0 ((bits p.bitmap).take j)) <;> simpa [gather, hs] using hr
    exact hzero _ hbehind

include hz in
/-- A readable sector after an unreadable one is saved from a place before its own. -/
theorem not_savesReadable {i j : ℕ} (hij : i < j) (hi : Used p.bitmap i) (hj : Used p.bitmap j)
    (hbi : bad i = true) (hbj : bad j = false) : ¬ SavesReadable z p bad := by
  intro h
  have hlt : ∀ q, Used p.bitmap q → q < (markedDevice p j).length :=
    fun q hq => lt_length_deviceOf _ hq
  have hkind := gather_markedDevice hij hi hj hbi
  have hbit : (bits p.bitmap)[j]? = some true := by rwa [Used, bitAt_eq] at hj
  obtain ⟨rs', hrs⟩ := @gather_split (openSource (markedDevice p j) bad).sector _ _ hbit
  obtain ⟨rs, hrsdef⟩ : ∃ rs, rs =
    gather (openSource (markedDevice p j) bad).sector 0 ((bits p.bitmap).take j ++ [true]) := ⟨_, rfl⟩
  rw [← hrsdef] at hrs hkind
  have hall : List.Forall₂ (fun r s => (r = none ∨ r = some (Sector.fill 0)) ∧ s = Sector.fill 0) rs
      (rs.map fun _ => Sector.fill 0) := by
    rw [List.forall₂_map_right_iff, List.forall₂_same]
    exact fun r hr => ⟨hkind r hr, rfl⟩
  have hx : (rs.map fun _ => Sector.fill 0)[((bits p.bitmap).take j).count true]? =
      some (Sector.fill 0) := by
    rw [List.getElem?_map, List.getElem?_eq_getElem (by
      rw [hrsdef, length_gather, List.count_append]; simp)]
    rfl
  obtain ⟨v, st, hv, hst, hcells⟩ := restore_volume hz (d := openSource (markedDevice p j) bad)
    (fun _ => rfl) [] .raw p length_zeros Memory.zero
    (t := openTarget (fun _ => Sector.fill 0) fun _ => false) rfl
    (reaches_openTarget (fun _ => Sector.fill 0) _ 0 _)
  obtain ⟨v', st', hv', hst', hprop⟩ := h (markedDevice p j) [] .raw zeros Memory.zero
    (fun _ => Sector.fill 0) 0 hlt length_zeros
  obtain rfl : v = v' := hv.unique hv'
  obtain rfl : st = st' := congrArg Prod.snd (hst.unique hst')
  obtain ⟨zs, hzs⟩ := imageSectors_append slotRule_zero p.nb
    (firstString p.nbSect p.nb (Imager.raw).info) p.length_bitmap_le length_zeros rfl hrs hall
  have hres := hprop j hj hbj
  rw [markedDevice, getElem?_deviceOf _ hj, if_pos rfl, hcells, volumeChunks, hzs,
    Option.some.injEq] at hres
  have hcell : (scatter (fun _ => false) (bits p.bitmap) ((rs.map fun _ => Sector.fill 0) ++ zs)
    ⟨0, fun _ => Sector.fill 0⟩).cells (0 + j) = Sector.fill 0 := scatter_cells_used hbit hx
  exact absurd (Sector.fill_injective (hres.trans hcell)) (by decide)

include hz in
/-- **An unreadable used sector displaces every used sector after it**: the readable ones are
restored in their places exactly when none of them follows an unreadable one. -/
theorem savesReadable_iff : SavesReadable z p bad ↔
    ∀ i j, i < j → Used p.bitmap i → Used p.bitmap j → bad i = true → bad j = true := by
  constructor
  · intro h i j hij hi hj hbi
    by_contra hbj
    exact not_savesReadable hz hij hi hj hbi (by simpa using hbj) h
  · exact savesReadable_of hz

end Unreadable

/-- Only the last used sector is unreadable. -/
theorem savesReadable_last : SavesReadable storedZlib (smallParams [7] (by decide)) fun i => i == 2 :=
  (savesReadable_iff storedZlib_contract).mpr fun i j hij hi hj hb => by
    have hlt : ∀ i ∈ ones 0 (bits [7]), i < 3 := by decide
    have := hlt j (used_iff.mp hj)
    simp only [beq_iff_eq] at hb
    omega

theorem not_savesReadable_first :
    ¬ SavesReadable storedZlib (smallParams [3] (by decide)) fun i => i == 0 :=
  not_savesReadable storedZlib_contract (show 0 < 1 by decide) (by decide) (by decide) rfl rfl

/-! ## Unwritable sectors -/

/-- Every used sector whose place can be written is restored to it and nothing else changes, whatever
the device and the disk hold. -/
def RestoresWritable (z : Zlib) (p : Params) (bad : ℕ → Bool) (s : ℕ) : Prop :=
  ∀ (D : List Sector) (name : Bytes) (im : Imager) (buffer : Bytes) (mem : Memory) (T : ℕ → Sector),
    (∀ i, Used p.bitmap i → i < D.length) → buffer.length = 24064 →
    ∃ v st, Returns (fun fuel => compressVolume z fuel name none im p
        (openSource D fun _ => false) buffer Dir.empty) v ∧
      Returns (fun fuel => restore z.inflate fuel v.dir.fetch mem (openTarget T bad) s name)
        (fetchedNames name p.nb, st) ∧
      (∀ i, Used p.bitmap i → bad (s + i) = false → D[i]? = some (st.fo.cells (s + i))) ∧
      ∀ q, (∀ i, Used p.bitmap i → bad (s + i) = false → q ≠ s + i) → st.fo.cells q = T q

section Unwritable

variable {z : Zlib} (hz : z.Contract) {p : Params} {bad : ℕ → Bool} {s : ℕ}

instance : Nontrivial Sector :=
  ⟨Sector.fill 0, Sector.fill 1, fun h => absurd (Sector.fill_injective h) (by decide)⟩

include hz in
theorem restoresWritable_of (h : Seized bad (bits p.bitmap) s) : RestoresWritable z p bad s := by
  intro D name im buffer mem T hD hbuf
  obtain ⟨v, st, hv, hst, hcells⟩ := restore_readable hz bad s hD name im hbuf mem T
  obtain ⟨hin, hout⟩ := inPlace_of_seized h (fun i => D.getD i default) T
  simp only [Used, bitAt_eq] at hD ⊢
  refine ⟨v, st, hv, hst, fun i hi hb => ?_, fun q hq => by rw [hcells]; exact hout q hq⟩
  rw [hcells, hin i hi hb, List.getElem?_eq_getElem (hD i hi)]
  exact congrArg some (List.getD_eq_getElem _ _ (hD i hi)).symm

include hz in
theorem RestoresWritable.seized (h : RestoresWritable z p bad s) : Seized bad (bits p.bitmap) s := by
  rw [← @inPlace_iff_seized Sector]
  intro f T
  have hlt : ∀ i, Used p.bitmap i → i < (deviceOf p f).length := fun i hi => lt_length_deviceOf f hi
  obtain ⟨v, st, hv, hst, hin, hout⟩ := h (deviceOf p f) [] .raw zeros Memory.zero T hlt length_zeros
  obtain ⟨v', st', hv', hst', hcells⟩ := restore_readable hz bad s hlt [] .raw length_zeros
    Memory.zero T
  obtain rfl : v = v' := hv.unique hv'
  obtain rfl : st = st' := congrArg Prod.snd (hst.unique hst')
  have hmap : (ones 0 (bits p.bitmap)).map (fun i => (deviceOf p f).getD i default) =
      (ones 0 (bits p.bitmap)).map f := by
    refine List.map_congr_left fun i hi => ?_
    rw [List.getD_eq_getElem?_getD, getElem?_deviceOf f (used_iff.mpr hi), Option.getD_some]
  rw [hmap] at hcells
  simp only [Used, bitAt_eq] at hin hout
  rw [← hcells]
  refine ⟨fun i hi hb => ?_, hout⟩
  have := hin i hi hb
  rw [getElem?_deviceOf f (by rwa [Used, bitAt_eq]), Option.some.injEq] at this
  exact this.symm

include hz in
/-- **A failed write displaces what is written after it**: the other sectors are restored in their
places exactly when nothing can be written any more after the first failure, neither at the place
of a used sector nor at the place where `restore` tries to write it. -/
theorem restoresWritable_iff : RestoresWritable z p bad s ↔ Seized bad (bits p.bitmap) s :=
  ⟨fun h => h.seized hz, restoresWritable_of hz⟩

end Unwritable

/-- The disk ends before the last used sector. -/
theorem restoresWritable_last :
    RestoresWritable storedZlib (smallParams [7] (by decide)) (endsAt 65) 63 :=
  (restoresWritable_iff storedZlib_contract).mpr fun i j hi hj hij hb hmin => by
    have hlt : ∀ i ∈ ones 0 (bits [7]), i < 3 := by decide
    have := hlt j (mem_ones_zero.mpr hj)
    simp only [endsAt, decide_eq_true_eq] at hb
    omega

theorem not_restoresWritable_first :
    ¬ RestoresWritable storedZlib (smallParams [3] (by decide)) (fun q => q == 63) 63 := fun h =>
  absurd (h.seized storedZlib_contract 0 1 (by decide) (by decide) (by decide) rfl nofun).1
    (by decide)

end LinboxRescue
