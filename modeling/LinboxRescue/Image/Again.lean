import LinboxRescue.Image.RoundTrip
import LinboxRescue.Lib.Device

/-!
# Saving a restored volume

1. `compressVolume_congr`: the files of an image are determined by the bitmap and by the sectors that
   are marked in it, down to the byte. What else is on the device, and what the buffer holds before the
   first read, is nowhere in them.
2. `restore_marked`: `restore` writes the marked sectors of an image, among whatever other files it is.
3. `image_restored`: so the image of a restored volume is the image that it was restored from, once its
   bitmap is the same.
-/

namespace LinboxRescue

/-! ## Reads from two devices -/

section Twins

variable {m : ZMachine} {d d' : Source} {q : ℕ} {st st' : ReadState m}

/-- The sector loops of two devices are at the same place and have read the same. -/
structure Twins (d d' : Source) (q : ℕ) (st st' : ReadState m) : Prop where
  source : st.fi = { d with off := st.fi.off }
  source' : st'.fi = { d' with off := st.fi.off }
  head : st.fi.off + st.skip = 512 * q
  skip : st'.skip = st.skip
  datalg : st'.datalg = st.datalg
  slot : ∃ j < 47, st.datalg = 512 * j
  taken : st'.buffer.take st.datalg = st.buffer.take st.datalg
  length_buffer : st.buffer.length = 24064
  length_buffer' : st'.buffer.length = 24064
  c : st'.c = st.c

/-- The two heads, after the sectors that were skipped. -/
theorem Twins.seek (hseek : ∀ o, d.seekable o = true) (hseek' : ∀ o, d'.seekable o = true)
    (h : Twins d d' q st st') :
    (if st.skip ≠ 0 then st.fi.lseek st.skip else st.fi) = d.seekTo q ∧
      (if st'.skip ≠ 0 then st'.fi.lseek st'.skip else st'.fi) = d'.seekTo q := by
  have hhead := h.head
  rw [h.skip, h.source']
  have hsource := h.source
  split_ifs with h0
  · unfold Source.lseek
    rw [hsource, if_pos (hseek _), if_pos (hseek' _)]
    unfold Source.seekTo
    rw [← hhead]
    exact ⟨rfl, rfl⟩
  · rw [hsource]
    unfold Source.seekTo
    rw [← hhead, show st.skip = 0 by omega]
    exact ⟨rfl, rfl⟩

/-- A sector of the loop. -/
theorem Twins.readBit (hseek : ∀ o, d.seekable o = true) (hseek' : ∀ o, d'.seekable o = true)
    (h : Twins d d' q st st') {b : Bool} (hsame : b = true → ∃ s, d.sector q = some s ∧
      d'.sector q = some s) {fuel : ℕ} {r : ReadState m} (hr : readBit m fuel st b = .ok r) :
    ∃ r', LinboxRescue.readBit m fuel st' b = .ok r' ∧ Twins d d' (q + 1) r r' := by
  cases b with
  | false =>
    obtain rfl := Except.ok.inj hr
    refine ⟨{ st' with skip := st'.skip + 512 }, rfl, { h with head := ?_, skip := ?_ }⟩
    · have := h.head
      show st.fi.off + (st.skip + 512) = _
      omega
    · show st'.skip + 512 = st.skip + 512
      rw [h.skip]
  | true =>
    obtain ⟨s, hs, hs'⟩ := hsame rfl
    obtain ⟨hfi, hfi'⟩ := h.seek hseek hseek'
    obtain ⟨j, hj, hslot⟩ := h.slot
    have hread : (d.seekTo q).read = (some s, d.seekTo (q + 1)) := by
      rw [Source.read_seekTo, hs]
      rfl
    have hread' : (d'.seekTo q).read = (some s, d'.seekTo (q + 1)) := by
      rw [Source.read_seekTo, hs']
      rfl
    -- the slot is filled with the same sector
    have htake : (overwrite st'.buffer st.datalg s.bytes).take (st.datalg + 512)
        = (overwrite st.buffer st.datalg s.bytes).take (st.datalg + 512) := by
      have hle : st.datalg ≤ st.buffer.length := by have := h.length_buffer; omega
      have hle' : st.datalg ≤ st'.buffer.length := by have := h.length_buffer'; omega
      rw [← s.size, take_overwrite hle, take_overwrite hle', h.taken]
    have hlen : (overwrite st.buffer st.datalg s.bytes).length = 24064 := by
      rw [length_overwrite (by rw [s.size, h.length_buffer]; omega), h.length_buffer]
    have hlen' : (overwrite st'.buffer st.datalg s.bytes).length = 24064 := by
      rw [length_overwrite (by rw [s.size, h.length_buffer']; omega), h.length_buffer']
    unfold LinboxRescue.readBit at hr ⊢
    rw [if_neg (by decide)] at hr ⊢
    simp only [hfi, hread, readInto] at hr
    simp only [hfi', hread', readInto]
    simp only [h.datalg, h.skip, h.c]
    by_cases hfull : st.datalg + 512 = 24064
    · rw [if_pos hfull] at hr
      obtain ⟨c, hc, hr⟩ := bind_eq_ok hr
      obtain rfl := Except.ok.inj hr
      have hbuf : overwrite st'.buffer st.datalg s.bytes = overwrite st.buffer st.datalg s.bytes := by
        rwa [List.take_of_length_le (by omega), List.take_of_length_le (by omega)] at htake
      rw [if_pos hfull, hbuf, hc]
      exact ⟨_, rfl, ⟨rfl, rfl, rfl, rfl, rfl, ⟨0, by omega, rfl⟩, rfl, hlen, hlen, rfl⟩⟩
    · rw [if_neg hfull] at hr
      obtain rfl := Except.ok.inj hr
      rw [if_neg hfull]
      exact ⟨_, rfl, ⟨rfl, rfl, rfl, rfl, rfl, ⟨j + 1, by omega, by rw [hslot]; ring⟩, htake, hlen,
        hlen', rfl⟩⟩

/-- **The sector loop** makes the same of the same sectors. -/
theorem Twins.readBits (hseek : ∀ o, d.seekable o = true) (hseek' : ∀ o, d'.seekable o = true)
    {fuel : ℕ} (bs : List Bool) : ∀ {q : ℕ} {st st' r : ReadState m}, Twins d d' q st st' →
      (∀ i ∈ ones q bs, ∃ s, d.sector i = some s ∧ d'.sector i = some s) →
      bs.foldlM (LinboxRescue.readBit m fuel) st = .ok r →
      ∃ r', bs.foldlM (LinboxRescue.readBit m fuel) st' = .ok r' ∧
        Twins d d' (q + bs.length) r r' := by
  induction bs with
  | nil =>
    intro q st st' r h _ hr
    obtain rfl := Except.ok.inj hr
    exact ⟨st', rfl, h⟩
  | cons b bs ih =>
    intro q st st' r h hsame hr
    rw [List.foldlM_cons] at hr
    obtain ⟨st₁, h₁, hr⟩ := bind_eq_ok hr
    have hfirst : b = true → ∃ s, d.sector q = some s ∧ d'.sector q = some s := by
      rintro rfl
      exact hsame q (by rw [ones]; exact List.mem_cons_self)
    obtain ⟨st₁', h₁', htwins⟩ := h.readBit hseek hseek' hfirst h₁
    obtain ⟨r', hr', hend⟩ := ih htwins (fun i hi => hsame i (by
      cases b with
      | true => rw [ones]; exact List.mem_cons_of_mem _ hi
      | false => rw [ones]; exact hi)) hr
    refine ⟨r', ?_, ?_⟩
    · rw [List.foldlM_cons, h₁', ok_bind]
      exact hr'
    · rw [List.length_cons, ← Nat.add_assoc, Nat.add_right_comm]
      exact hend

theorem Twins.closeChunk (h : Twins d d' q st st') (fuel : ℕ) :
    closeChunk m fuel st' = LinboxRescue.closeChunk m fuel st := by
  unfold LinboxRescue.closeChunk
  simp only [h.datalg, h.taken, h.skip, h.c]

end Twins

/-! ## Chunks -/

/-- Two runs of the chunk loop have made the same files. -/
structure TwinVolumes (d d' : Source) (q : ℕ) (v v' : Volume) : Prop where
  fi : v.fi = d.seekTo q
  fi' : v'.fi = d'.seekTo q
  length_buffer : v.buffer.length = 24064
  length_buffer' : v'.buffer.length = 24064
  dir : v'.dir = v.dir
  bytes : v'.bytes = v.bytes

section Chunks

variable {z : Zlib} {d d' : Source} (hseek : ∀ o, d.seekable o = true)
  (hseek' : ∀ o, d'.seekable o = true) {fuel : ℕ} {name : Bytes} {options : Options}

include hseek hseek'

theorem TwinVolumes.compressChunk {q : ℕ} {v v' r : Volume} (h : TwinVolumes d d' q v v') (i : ℕ)
    (first slice : Bytes)
    (hsame : ∀ i ∈ ones q (bits slice), ∃ s, d.sector i = some s ∧ d'.sector i = some s)
    (hr : compressChunk z fuel name options i first slice v = .ok r) :
    ∃ r', LinboxRescue.compressChunk z fuel name options i first slice v' = .ok r' ∧
      TwinVolumes d d' (q + 8 * slice.length) r r' := by
  unfold LinboxRescue.compressChunk at hr ⊢
  obtain ⟨c, hc, hr⟩ := bind_eq_ok hr
  obtain ⟨st, hst, hr⟩ := bind_eq_ok hr
  obtain ⟨c', hc', hr⟩ := bind_eq_ok hr
  obtain rfl := Except.ok.inj hr
  have htwins : Twins d d' q (m := z.deflate)
      { fi := v.fi, skip := 0, buffer := v.buffer, datalg := 0, c }
      { fi := v'.fi, skip := 0, buffer := v'.buffer, datalg := 0, c } := by
    refine ⟨?_, ?_, ?_, rfl, rfl, ⟨0, by omega, rfl⟩, ?_, h.length_buffer, h.length_buffer', rfl⟩
    · rw [h.fi]
      rfl
    · rw [h.fi, h.fi']
      rfl
    · rw [h.fi]
      rfl
    · rw [List.take_zero, List.take_zero]
  obtain ⟨st', hst', hend⟩ := htwins.readBits hseek hseek' (bits slice) hsame hst
  obtain ⟨hfi, hfi'⟩ := hend.seek hseek hseek'
  dsimp only
  rw [h.bytes, hc, ok_bind, hst', ok_bind, hend.closeChunk, hc', ok_bind]
  rw [length_bits] at hfi hfi'
  exact ⟨_, rfl, ⟨hfi, hfi', hend.length_buffer, hend.length_buffer',
    congrArg (Function.update · _ _) h.dir, rfl⟩⟩

theorem TwinVolumes.compressLoop (n : ℕ) : ∀ {i q : ℕ} {first rest : Bytes} {v v' r : Volume},
    TwinVolumes d d' q v v' →
    (∀ i ∈ ones q (bits rest), ∃ s, d.sector i = some s ∧ d'.sector i = some s) →
    compressLoop z fuel name options n i first rest v = .ok r →
    ∃ r', LinboxRescue.compressLoop z fuel name options n i first rest v' = .ok r' ∧
      r'.dir = r.dir := by
  induction n with
  | zero =>
    intro i q first rest v v' r h _ hr
    obtain rfl := Except.ok.inj hr
    exact ⟨v', rfl, h.dir⟩
  | succ n ih =>
    intro i q first rest v v' r h hsame hr
    unfold LinboxRescue.compressLoop at hr ⊢
    obtain ⟨lg, hlg⟩ : ∃ lg, lg = if 22016 < rest.length then 22016 else rest.length := ⟨_, rfl⟩
    rw [← hlg] at hr ⊢
    have hle : (rest.take lg).length = lg := by
      rw [List.length_take]
      split_ifs at hlg <;> omega
    obtain ⟨v₁, h₁, hr⟩ := bind_eq_ok hr
    have hbits : ones q (bits rest) = ones q (bits (rest.take lg))
        ++ ones (q + 8 * lg) (bits (rest.drop lg)) := by
      conv_lhs => rw [← List.take_append_drop lg rest, bits_append, ones_append, length_bits, hle]
    rw [hbits] at hsame
    obtain ⟨v₁', h₁', htwins⟩ := h.compressChunk hseek hseek' i first (rest.take lg)
      (fun i hi => hsame i (List.mem_append_left _ hi)) h₁
    rw [hle] at htwins
    obtain ⟨r', hr', hdir⟩ := ih htwins (fun i hi => hsame i (List.mem_append_right _ hi)) hr
    refine ⟨r', ?_, hdir⟩
    dsimp only
    rw [h₁', ok_bind]
    exact hr'

end Chunks

/-! ## Volumes -/

section Volumes

variable {z : Zlib} {p : Params}

/-- **The files of an image are determined by the marked sectors.** -/
theorem compressVolume_congr {d d' : Source} (hseek : ∀ o, d.seekable o = true)
    (hseek' : ∀ o, d'.seekable o = true)
    (hsame : ∀ i, Used p.bitmap i → ∃ s, d.sector i = some s ∧ d'.sector i = some s)
    {buffer buffer' : Bytes} (hbuf : buffer.length = 24064) (hbuf' : buffer'.length = 24064)
    {fuel : ℕ} {name : Bytes} {options : Options} {im : Imager} {dir : Dir} {v : Volume}
    (hv : compressVolume z fuel name options im p (d.seekTo 0) buffer dir = .ok v) :
    ∃ v', compressVolume z fuel name options im p (d'.seekTo 0) buffer' dir = .ok v' ∧
      v'.dir = v.dir := by
  unfold compressVolume at hv ⊢
  have htwins : TwinVolumes d d' 0
      ⟨Function.update dir (name ++ ascii "idx") (some []), d.seekTo 0, buffer, 0⟩
      ⟨Function.update dir (name ++ ascii "idx") (some []), d'.seekTo 0, buffer', 0⟩ :=
    ⟨rfl, rfl, hbuf, hbuf', rfl, rfl⟩
  exact htwins.compressLoop hseek hseek' p.nb (fun i hi => hsame i (used_iff.mpr hi)) hv

variable (hz : z.Contract) {D : List Sector} (hD : ∀ i, Used p.bitmap i → i < D.length) {name : Bytes}
  {im : Imager} {buffer : Bytes} (hbuf : buffer.length = 24064) {dir : Dir} {v : Volume}
  (hv : Returns (fun fuel => compressVolume z fuel name none im p
    (openSource D fun _ => false) buffer dir) v)

include hz hD hbuf hv

/-- **`restore` writes the marked sectors** of an image that lies among other files. -/
theorem restore_marked (hne : p.nb ≠ 0) (mem : Memory) (T : ℕ → Sector) {n s : ℕ}
    (hT : ∀ i, Used p.bitmap i → s + i < n) :
    ∃ st, Returns (fun fuel => restore z.inflate fuel v.dir.fetch mem (openTarget T (endsAt n)) s name)
        ((List.range p.nb).map (chunkName name), st) ∧
      (∀ i, Used p.bitmap i → D[i]? = some (st.fo.cells (s + i))) ∧
      ∀ q, (∀ i, Used p.bitmap i → q ≠ s + i) → st.fo.cells q = T q := by
  obtain ⟨v', hv', hfiles, -⟩ := compressVolume_files hz (d := openSource D fun _ => false)
    (fun _ => rfl) name im p hbuf dir
  obtain rfl : v = v' := hv.unique hv'
  have hlen : (volumeChunks (openSource D fun _ => false) im p buffer).length = p.nb :=
    length_savedChunks _ _ _ _ _
  have hcs : volumeChunks (openSource D fun _ => false) im p buffer ≠ [] := by
    intro hnil
    rw [hnil] at hlen
    exact hne hlen.symm
  obtain ⟨st, hst, hcells⟩ := restore_files hz hfiles (fun h => absurd h hcs) mem
    (t := openTarget T (endsAt n)) rfl (reaches_openTarget T (endsAt n) s _)
  rw [if_neg hcs, hlen] at hst
  rw [imageBits_volumeChunks, imageSectors_of_ok hbuf fun q hq =>
    sector_openSource (hD q (used_iff.mpr hq)) rfl] at hcells
  have hgood : ∀ q ∈ ones s (bits p.bitmap), endsAt n q = false := by
    intro q hq
    obtain ⟨i, hi, rfl⟩ := used_iff_add.mp hq
    exact decide_eq_false (by have := hT i hi; omega)
  refine ⟨st, hst, fun i hi => ?_, fun q hq => ?_⟩
  · have hcell := scatter_map_of_ok (f := fun i => D.getD i default) (t := ⟨s, T⟩) hgood
      (used_iff.mp hi)
    rw [hcells, List.getElem?_eq_getElem (hD i hi), ← List.getD_eq_getElem D default (hD i hi)]
    exact congrArg some hcell.symm
  · rw [hcells]
    refine scatter_cells_of_not_mem (t := ⟨s, T⟩) hgood fun hmem => ?_
    obtain ⟨i, hi, e⟩ := used_iff_add.mp hmem
    exact hq i hi e

/-- **The image of a restored volume** is the image again, if the bitmap is. -/
theorem image_restored {D' : List Sector} (hsame : ∀ i, Used p.bitmap i → D'[i]? = D[i]?)
    {buffer' : Bytes} (hbuf' : buffer'.length = 24064) :
    ∃ v', Returns (fun fuel => compressVolume z fuel name none im p
      (openSource D' fun _ => false) buffer' dir) v' ∧ v'.dir = v.dir := by
  obtain ⟨v', hv', -⟩ := compressVolume_files hz (d := openSource D' fun _ => false)
    (fun _ => rfl) name im p hbuf' dir
  refine ⟨v', hv', ?_⟩
  obtain ⟨n, hn⟩ := hv
  obtain ⟨n', hn'⟩ := hv'
  have hread : ∀ i, Used p.bitmap i → ∃ s, (openSource D fun _ => false).sector i = some s ∧
      (openSource D' fun _ => false).sector i = some s := by
    intro i hi
    have hget := (hsame i hi).trans (List.getElem?_eq_getElem (hD i hi))
    have hlt : i < D'.length := (List.getElem?_eq_some_iff.mp hget).1
    refine ⟨_, sector_openSource (hD i hi) rfl, ?_⟩
    rw [sector_openSource hlt rfl, List.getD_eq_getElem?_getD, hsame i hi,
      ← List.getD_eq_getElem?_getD]
  obtain ⟨v'', hv'', hdir⟩ := compressVolume_congr (fun _ => rfl) (fun _ => rfl) hread hbuf hbuf'
    (hn (max n n') (le_max_left _ _))
  obtain rfl := Except.ok.inj ((hn' (max n n') (le_max_right _ _)).symm.trans hv'')
  exact hdir

end Volumes

/-! ## The programs that make images -/

/-- Why there is no image. -/
inductive ImagerHalt (ε : Type)
  | scan (h : ε)
  /-- The bitmap is not the one of the volume. -/
  | refused
  /-- Only the number of sectors was asked for. -/
  | query
  /-- The bitmap does not fit in the memory. -/
  | memory
  | volume (h : Halt)
  deriving DecidableEq, Repr

/-- The parameters with this bitmap. -/
def paramsOf (bitmap : Bytes) (nbSect : ℕ) : Option Params :=
  if h : bitmap.length + 22015 < 2 ^ 32 ∧ nbSect < 2 ^ 64 then some ⟨bitmap, nbSect, h.1, h.2⟩ else none

/-- The end of `main` of an imager, after the bitmap was made. -/
def saveVolume (ε : Type) (z : Zlib) (fuel : ℕ) (name : Bytes) (options : Options) (im : Imager)
    (D : List Sector) (buffer : Bytes) (dir : Dir) (bitmap : Bytes) (nbSect : ℕ) (refused : Bool) :
    Except (ImagerHalt ε) Volume :=
  if refused then .error .refused
  else if name.head? = some 63 then .error .query
  else match paramsOf bitmap nbSect with
    | none => .error .memory
    | some p =>
      (compressVolume z fuel name options im p (openSource D fun _ => false) buffer
        dir).mapError .volume

theorem bitmap_paramsOf {bitmap : Bytes} {nbSect : ℕ} {p : Params}
    (h : paramsOf bitmap nbSect = some p) : p.bitmap = bitmap := by
  unfold paramsOf at h
  split_ifs at h
  rw [← Option.some.inj h]

theorem mapError_eq_ok {α ε ε' : Type} {f : ε → ε'} {x : Except ε α} {a : α} :
    x.mapError f = .ok a ↔ x = .ok a := by
  cases x with
  | error e => exact iff_of_false (fun h => by cases h) fun h => by cases h
  | ok b =>
    exact ⟨fun h => congrArg Except.ok (Except.ok.inj h),
      fun h => congrArg Except.ok (Except.ok.inj h)⟩

/-- The image is the one that `compress_volume` makes of the bitmap. -/
theorem saveVolume_eq_ok {ε : Type} {z : Zlib} {fuel : ℕ} {name : Bytes} {options : Options}
    {im : Imager} {D : List Sector} {buffer : Bytes} {dir : Dir} {bitmap : Bytes} {nbSect : ℕ}
    {refused : Bool} {v : Volume} :
    saveVolume ε z fuel name options im D buffer dir bitmap nbSect refused = .ok v ↔
      refused = false ∧ name.head? ≠ some 63 ∧ ∃ p, paramsOf bitmap nbSect = some p ∧
        compressVolume z fuel name options im p (openSource D fun _ => false) buffer dir = .ok v := by
  unfold saveVolume
  cases refused with
  | true => exact iff_of_false (fun h => by cases h) fun h => by cases h.1
  | false =>
    rw [if_neg Bool.false_ne_true]
    by_cases hname : name.head? = some 63
    · rw [if_pos hname]
      exact iff_of_false (fun h => by cases h) fun h => h.2.1 hname
    · rw [if_neg hname]
      cases hp : paramsOf bitmap nbSect with
      | none => exact iff_of_false (fun h => by cases h) fun ⟨_, _, _, h, _⟩ => by cases h
      | some p =>
        refine mapError_eq_ok.trans ⟨fun h => ⟨rfl, hname, p, rfl, h⟩, ?_⟩
        rintro ⟨-, -, p', hp', h⟩
        rwa [Option.some.inj hp']

/-- The program makes the image of the bitmap that its scan has returned. -/
theorem returns_imager {ε σ : Type} {scan : ℕ → Except ε σ} {r : σ} (hscan : Returns scan r)
    (bitmap : σ → Bytes) (nbSect : σ → ℕ) (refused : σ → Bool) {z : Zlib} {name : Bytes}
    {options : Options} {im : Imager} {D : List Sector} {buffer : Bytes} {dir : Dir} {v : Volume} :
    Returns (fun fuel => (scan fuel).mapError ImagerHalt.scan >>= fun r =>
        saveVolume ε z fuel name options im D buffer dir (bitmap r) (nbSect r) (refused r)) v ↔
      refused r = false ∧ name.head? ≠ some 63 ∧ ∃ p, paramsOf (bitmap r) (nbSect r) = some p ∧
        Returns (fun fuel => compressVolume z fuel name options im p
          (openSource D fun _ => false) buffer dir) v := by
  obtain ⟨n, hn⟩ := hscan
  have hrun : ∀ fuel, n ≤ fuel → ((scan fuel).mapError ImagerHalt.scan >>= fun r =>
      saveVolume ε z fuel name options im D buffer dir (bitmap r) (nbSect r) (refused r)) =
        saveVolume ε z fuel name options im D buffer dir (bitmap r) (nbSect r) (refused r) := by
    intro fuel hfuel
    rw [hn fuel hfuel]
    rfl
  constructor
  · rintro ⟨k, hk⟩
    have hfirst := (hrun _ (le_max_left n k)).symm.trans (hk _ (le_max_right n k))
    obtain ⟨hrefused, hname, p, hp, -⟩ := saveVolume_eq_ok.mp hfirst
    refine ⟨hrefused, hname, p, hp, max n k, fun fuel hfuel => ?_⟩
    have h := (hrun fuel ((le_max_left n k).trans hfuel)).symm.trans
      (hk fuel ((le_max_right n k).trans hfuel))
    obtain ⟨-, -, p', hp', hv⟩ := saveVolume_eq_ok.mp h
    obtain rfl := Option.some.inj (hp.symm.trans hp')
    exact hv
  · rintro ⟨hrefused, hname, p, hp, k, hk⟩
    refine ⟨max n k, fun fuel hfuel => ?_⟩
    have hv := hk fuel ((le_max_right n k).trans hfuel)
    exact (hrun fuel ((le_max_left n k).trans hfuel)).trans
      (saveVolume_eq_ok.mpr ⟨hrefused, hname, p, hp, hv⟩)

/-! ## The bytes of a volume -/

/-- The device with these sectors. -/
def Device.ofSectors (D : List Sector) : Device := fun o =>
  (D[o / 512]?).map fun s => s.bytes.getD (o % 512) 0

/-- The `n` sectors from sector `s` on. -/
def sectorsAt (cells : ℕ → Sector) (s n : ℕ) : List Sector :=
  (List.range n).map fun i => cells (s + i)

theorem getElem?_sectorsAt (cells : ℕ → Sector) (s : ℕ) {n i : ℕ} (h : i < n) :
    (sectorsAt cells s n)[i]? = some (cells (s + i)) := by
  unfold sectorsAt
  rw [List.getElem?_map, List.getElem?_range h]
  rfl

/-- The bytes of a sector are the same on both devices. -/
theorem Device.ofSectors_congr {D D' : List Sector} {o : ℕ} (h : D'[o / 512]? = D[o / 512]?) :
    Device.ofSectors D' o = Device.ofSectors D o := by
  unfold Device.ofSectors
  rw [h]

/-- The bytes of sector `i`. -/
def bytesAt (dev : Device) (i : ℕ) : Bytes := (List.range 512).map fun k => (dev (512 * i + k)).getD 0

theorem length_bytesAt (dev : Device) (i : ℕ) : (bytesAt dev i).length = 512 :=
  (List.length_map _).trans List.length_range

/-- The first sectors of a device. -/
def sectorsOf (dev : Device) (n : ℕ) : List Sector :=
  (List.range n).map fun i => ⟨bytesAt dev i, length_bytesAt dev i⟩

theorem sameBytes_sectorsOf {dev : Device} {n : ℕ} (h : ∀ o < 512 * n, (dev o).isSome) :
    SameBytes dev (Device.ofSectors (sectorsOf dev n)) 0 (512 * n) := by
  intro o _ ho
  obtain ⟨b, hb⟩ := Option.isSome_iff_exists.mp (h o ho)
  have hplace : 512 * (o / 512) + o % 512 = o := Nat.div_add_mod o 512
  unfold Device.ofSectors sectorsOf
  rw [List.getElem?_map, List.getElem?_range (by omega), Option.map_some, Option.map_some, hb]
  unfold bytesAt
  rw [List.getD_eq_getElem?_getD, List.getElem?_map,
    List.getElem?_range (Nat.mod_lt o (by omega)), Option.map_some, hplace, hb]
  rfl

end LinboxRescue
