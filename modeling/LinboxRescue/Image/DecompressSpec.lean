import LinboxRescue.Image.Decompress
import LinboxRescue.Image.RoundTrip

/-!
# What `decompress` leaves in its file

Every run starts at the end of the file, so that `fill` always writes zeros, and the file is a tape cut
off at its head (`OutFile.upTo`), which is blank from there on.

1. `Laid.flush`: `flushToDisk` is `flush` on this tape.
2. `decompressAttempt_of_decodes`, `decompress_spec`: a run is a `scatter` over the bits of its chunk.
3. `decompress_compressVolume`: so the file becomes the volume, with zeros at the unused sectors.
-/

namespace LinboxRescue

/-! ## A file at its end -/

/-- A disk without bad sectors. -/
abbrev sound : ℕ → Bool := fun _ => false

/-- A tape cut off at its head. -/
def OutFile.upTo (tp : Tape Sector) : OutFile :=
  { bytes := sectorBytes ((List.range tp.pos).map tp.cells), pos := 512 * tp.pos }

/-- Nothing has been written from the head on. -/
def Unwritten (tp : Tape Sector) : Prop := ∀ q, tp.pos ≤ q → tp.cells q = Sector.fill 0

section File

variable {f : OutFile} (h : f.bytes.length = f.pos)

include h

theorem OutFile.write_of_end (b : Bytes) : f.write b = ⟨f.bytes ++ b, f.pos + b.length⟩ := by
  unfold OutFile.write overwrite
  rw [← h, Nat.sub_self, List.replicate_zero, List.append_nil, List.take_length,
    List.drop_of_length_le (by omega), List.append_nil]

theorem OutFile.writeZeros_of_end (n : ℕ) :
    f.writeZeros n = ⟨f.bytes ++ List.replicate n 0, f.pos + n⟩ := by
  induction n using Nat.strong_induction_on generalizing f with
  | _ n ih =>
    rw [OutFile.writeZeros]
    split_ifs with hn
    · have h' : (f.bytes ++ List.replicate 512 (0 : UInt8)).length = f.pos + 512 := by
        rw [List.length_append, h, List.length_replicate]
      rw [OutFile.write_of_end h, List.length_replicate]
      rw [ih (n - 512) (by omega) (f := ⟨f.bytes ++ List.replicate 512 0, f.pos + 512⟩) h']
      show OutFile.mk _ _ = OutFile.mk _ _
      rw [List.append_assoc, List.replicate_append_replicate, Nat.add_assoc,
        Nat.add_sub_cancel' hn.le]
    · rw [OutFile.write_of_end h, List.length_replicate]

theorem OutFile.fill_of_end (n : ℕ) : f.fill n = ⟨f.bytes ++ List.replicate n 0, f.pos + n⟩ := by
  unfold OutFile.fill OutFile.eof
  rw [if_pos (by simpa using h), OutFile.writeZeros_of_end h]

end File

section Tapes

variable {tp : Tape Sector}

theorem OutFile.length_upTo (tp : Tape Sector) : (OutFile.upTo tp).bytes.length =
    (OutFile.upTo tp).pos := by
  show (sectorBytes _).length = 512 * tp.pos
  rw [length_sectorBytes, List.length_map, List.length_range]

theorem Unwritten.put (h : Unwritten tp) (s : Sector) : Unwritten (tp.put sound s) := by
  intro q hq
  rw [Tape.put_of_not_bad rfl] at hq ⊢
  have hlt : tp.pos < q := hq
  show Function.update tp.cells tp.pos s q = _
  rw [Function.update_of_ne hlt.ne']
  exact h q hlt.le

theorem Unwritten.skip (h : Unwritten tp) (n : ℕ) : Unwritten (tp.skip n) := fun q hq =>
  h q (le_trans (Nat.le_add_right _ _) hq)

theorem OutFile.write_upTo (tp : Tape Sector) (s : Sector) :
    (OutFile.upTo tp).write s.bytes = OutFile.upTo (tp.put sound s) := by
  rw [OutFile.write_of_end (OutFile.length_upTo tp), s.size, Tape.put_of_not_bad rfl]
  have hold : (List.range tp.pos).map (Function.update tp.cells tp.pos s) =
      (List.range tp.pos).map tp.cells :=
    List.map_congr_left fun q hq => Function.update_of_ne (List.mem_range.mp hq).ne _ _
  show OutFile.mk (sectorBytes _ ++ s.bytes) (512 * tp.pos + 512) = OutFile.mk (sectorBytes
    ((List.range (tp.pos + 1)).map (Function.update tp.cells tp.pos s))) (512 * (tp.pos + 1))
  rw [List.range_succ, List.map_append, hold, sectorBytes_append, List.map_singleton,
    Function.update_self, sectorBytes_cons, sectorBytes_nil, List.append_nil]
  rfl

theorem sectorBytes_replicate (n : ℕ) :
    sectorBytes (List.replicate n (Sector.fill 0)) = List.replicate (512 * n) 0 := by
  induction n with
  | zero => rfl
  | succ n ih =>
    rw [List.replicate_succ, sectorBytes_cons, ih]
    show List.replicate 512 0 ++ _ = _
    rw [List.replicate_append_replicate, Nat.mul_succ, Nat.add_comm]

theorem OutFile.fill_upTo (h : Unwritten tp) (n : ℕ) :
    (OutFile.upTo tp).fill (512 * n) = OutFile.upTo (tp.skip n) := by
  have hnew : ((List.range n).map (tp.pos + ·)).map tp.cells = List.replicate n (Sector.fill 0) := by
    refine List.eq_replicate_iff.mpr ⟨by simp, fun s hs => ?_⟩
    obtain ⟨q, hq, rfl⟩ := List.mem_map.mp hs
    obtain ⟨k, -, rfl⟩ := List.mem_map.mp hq
    exact h _ (Nat.le_add_right _ _)
  rw [OutFile.fill_of_end (OutFile.length_upTo tp)]
  show OutFile.mk (sectorBytes _ ++ _) (512 * tp.pos + 512 * n) =
    OutFile.mk (sectorBytes ((List.range (tp.pos + n)).map tp.cells)) (512 * (tp.pos + n))
  rw [List.range_add, List.map_append, hnew, sectorBytes_append, sectorBytes_replicate, Nat.mul_add]

end Tapes

/-! ## Sectors in the file -/

/-- A chunk is being written: of its bitmap `bm` the bits `bs` are left, and the file is at `tp`. -/
structure Laid (fp : Bool) (lg : ℤ) (bm : Bytes) (bs : List Bool) (tp : Tape Sector)
    (st : Decompress) : Prop where
  firstpass : st.firstpass = fp
  bitmaplg : st.bitmaplg = lg
  bitmap : st.bitmap = bm
  left : (bits bm).drop st.bitindex = bs
  bitindex_le : st.bitindex ≤ 8 * bm.length
  fo : st.fo = OutFile.upTo tp
  offset : st.offset = 512 * tp.pos
  blank : Unwritten tp

section Laid

variable {fp : Bool} {lg : ℤ} {bm : Bytes} {bs bs' : List Bool} {tp tp' : Tape Sector} {st : Decompress}

theorem Laid.length_left (h : Laid fp lg bm bs tp st) : st.bitindex + bs.length = 8 * bm.length := by
  rw [← h.left, List.length_drop, length_bits]
  have := h.bitindex_le
  omega

theorem Laid.bitAt (h : Laid fp lg bm bs tp st) : bitAt st.bitmap st.bitindex = bs[0]? := by
  rw [bitAt_eq, h.bitmap, ← h.left, List.getElem?_drop, Nat.add_zero]

/-- One bit further. -/
theorem Laid.next {b : Bool} {fo : OutFile} (h : Laid fp lg bm (b :: bs) tp st)
    (hfo : fo = OutFile.upTo tp') (hpos : tp'.pos = tp.pos + 1) (hblank : Unwritten tp') :
    Laid fp lg bm bs tp'
      { st with bitindex := st.bitindex + 1, offset := st.offset + 512, fo := fo } := by
  have hlen := h.length_left
  rw [List.length_cons] at hlen
  refine ⟨h.firstpass, h.bitmaplg, h.bitmap, ?_, ?_, hfo, ?_, hblank⟩
  · show (bits bm).drop (st.bitindex + 1) = bs
    rw [← List.drop_drop, h.left]
    rfl
  · show st.bitindex + 1 ≤ 8 * bm.length
    omega
  · show st.offset + 512 = 512 * tp'.pos
    rw [h.offset, hpos]
    ring

theorem Laid.skipUnused (n : ℕ) : ∀ {steps : ℕ} {tp : Tape Sector} {st : Decompress}, n < steps →
    Laid fp lg bm (List.replicate n false ++ true :: bs) tp st →
    ∃ st', st.skipUnused steps = .ok st' ∧ Laid fp lg bm (true :: bs) (tp.skip n) st' := by
  induction n with
  | zero =>
    intro steps tp st hs h
    obtain ⟨k, rfl⟩ : ∃ k, steps = k + 1 := ⟨steps - 1, by omega⟩
    have hat := h.bitAt
    refine ⟨st, ?_, h⟩
    rw [Decompress.skipUnused, hat]
    rfl
  | succ n ih =>
    intro steps tp st hs h
    obtain ⟨k, rfl⟩ : ∃ k, steps = k + 1 := ⟨steps - 1, by omega⟩
    have hat := h.bitAt
    have hfill : st.fo.fill 512 = OutFile.upTo (tp.skip 1) := by
      rw [h.fo]; exact OutFile.fill_upTo h.blank 1
    obtain ⟨st', h1, h2⟩ := ih (show n < k by omega) (h.next hfill rfl (h.blank.skip 1))
    rw [Tape.skip_skip, Nat.add_comm 1 n] at h2
    refine ⟨st', ?_, h2⟩
    rw [Decompress.skipUnused, hat]
    exact h1

/-- Up to the next used sector. -/
theorem flush_cons_eq_some {x : Sector} {xs : List Sector} {r : List Bool × Tape Sector} :
    ∀ {bs : List Bool} {tp : Tape Sector}, flush sound bs (x :: xs) tp = some r →
    ∃ n bs', bs = List.replicate n false ++ true :: bs' ∧
      flush sound bs' xs ((tp.skip n).put sound x) = some r := by
  intro bs
  induction bs with
  | nil => intro tp h; cases h
  | cons b bs ih =>
    intro tp h
    cases b with
    | true => exact ⟨0, bs, rfl, h⟩
    | false =>
      obtain ⟨n, bs', h1, h2⟩ := ih h
      rw [Tape.skip_skip, Nat.add_comm] at h2
      exact ⟨n + 1, bs', by rw [h1, List.replicate_succ, List.cons_append], h2⟩

theorem Laid.flush (xs : List Sector) : ∀ {bs : List Bool} {tp : Tape Sector} {st : Decompress},
    Laid fp lg bm bs tp st → flush sound bs xs tp = some (bs', tp') →
    ∃ st', xs.foldlM Decompress.flushSector st = .ok st' ∧ Laid fp lg bm bs' tp' st' := by
  induction xs with
  | nil =>
    intro bs tp st h hf
    rw [flush_nil] at hf
    cases hf
    exact ⟨st, rfl, h⟩
  | cons x xs ih =>
    intro bs tp st h hf
    obtain ⟨n, bs₁, rfl, hf₁⟩ := flush_cons_eq_some hf
    have hlen := h.length_left
    rw [List.length_append, List.length_replicate] at hlen
    obtain ⟨st₁, hskip, h₁⟩ := Laid.skipUnused n (show n < 8 * st.bitmap.length + 1 by
      rw [h.bitmap]; omega) h
    have hwrite : st₁.fo.write x.bytes = OutFile.upTo ((tp.skip n).put sound x) := by
      rw [h₁.fo]; exact OutFile.write_upTo _ x
    obtain ⟨st₂, hfold, h₂⟩ := ih (h₁.next hwrite rfl (h₁.blank.put x)) hf₁
    refine ⟨st₂, ?_, h₂⟩
    rw [List.foldlM_cons, Decompress.flushSector, hskip]
    exact hfold

/-- Full buffers after the header. -/
theorem Laid.drain (ds : List Bytes) : ∀ {bs : List Bool} {tp : Tape Sector} {st : Decompress},
    Laid false lg bm bs tp st → LinboxRescue.flush sound bs (dataSectors ds) tp = some (bs', tp') →
    ∃ st', ds.foldlM Decompress.drain st = .ok st' ∧ Laid false lg bm bs' tp' st' := by
  induction ds with
  | nil =>
    intro bs tp st h hf
    rw [dataSectors, List.flatMap_nil, flush_nil] at hf
    cases hf
    exact ⟨st, rfl, h⟩
  | cons b ds ih =>
    intro bs tp st h hf
    rw [dataSectors, List.flatMap_cons, flush_append] at hf
    obtain ⟨⟨bs₁, tp₁⟩, hf₁, hf₂⟩ := Option.bind_eq_some_iff.mp hf
    obtain ⟨st₁, hb, h₁⟩ := h.flush _ hf₁
    obtain ⟨st₂, hds, h₂⟩ := ih h₁ hf₂
    refine ⟨st₂, ?_, h₂⟩
    rw [List.foldlM_cons, Decompress.drain, if_neg (by simp [h.firstpass])]
    show (bufferSectors b 24064).foldlM Decompress.flushSector st >>= _ = _
    rw [hb]
    exact hds

end Laid

/-! ## A chunk -/

theorem scanOffset_dec (n : ℕ) : scanOffset (dec n ++ ascii "\n") = n := by
  have hr : ∀ b ∈ (ascii "\n").head?, isDigit b = false := by
    intro b hb
    cases hb
    decide
  unfold scanOffset
  rw [show fmt "%d" = [.conv .d true] from rfl]
  simp only [sscanf, scanConv_d_dec n hr, if_true, Int.toNat_natCast]

section Chunks

variable {m : ZMachine} {c : Chunk} {F : Bytes} {tp : Tape Sector} {st : Decompress}

/-- The header of a chunk in the buffer. -/
theorem Decompress.start_laid {argv3 : Bytes} (hblank : Unwritten tp)
    (hfo : st.fo.bytes = (OutFile.upTo tp).bytes) (hoff : scanOffset argv3 = 512 * tp.pos)
    (halloc : headerInt (ascii "ALLOCTABLELG=") c.header = some (c.slice.length : ℤ)) (fp : Bool) :
    Laid fp c.slice.length (padTo 22016 c.slice) (bits (padTo 22016 c.slice)) tp
      { (st.start argv3).readHeader c.header with bitindex := 0, firstpass := fp } := by
  have hhdr : c.header.length = 24064 := length_imageHeader _ _
  have hbm : c.header.drop 2048 = padTo 22016 c.slice := drop_imageHeader _ _
  refine ⟨rfl, ?_, ?_, rfl, Nat.zero_le _, ?_, hoff, hblank⟩
  · show (headerInt (ascii "ALLOCTABLELG=") c.header).getD _ = _
    rw [halloc, Option.getD_some]
  · show (c.header.drop 2048).take 22016 = _
    rw [hbm, List.take_of_length_le (by rw [length_padTo])]
  · show OutFile.mk st.fo.bytes (scanOffset argv3) = _
    rw [hfo, hoff]
    rfl

/-- **An attempt at a chunk whose file decodes.** -/
theorem decompressAttempt_of_decodes {argv3 buffer : Bytes} (hdec : Decodes m F c.payload)
    (halloc : headerInt (ascii "ALLOCTABLELG=") c.header = some (c.slice.length : ℤ))
    (hblank : Unwritten tp) (hfo : st.fo.bytes = (OutFile.upTo tp).bytes)
    (hoff : scanOffset argv3 = 512 * tp.pos) (hbuf : buffer.length = 24064) :
    ∃ buf' st' fp bs' tp', Returns (fun fuel => decompressAttempt m fuel F argv3 buffer st)
        (.streamEnd, buf', st') ∧
      flush sound (bits (padTo 22016 c.slice)) c.sectors tp = some (bs', tp') ∧
      Laid fp c.slice.length (padTo 22016 c.slice) bs' tp' st' := by
  have hcount : c.sectors.length ≤ (bits (padTo 22016 c.slice)).count true := by
    rw [bits_padTo c.slice_le, List.count_append, c.length_sectors]; omega
  obtain ⟨bs', tp', hflush⟩ := @flush_eq_some _ sound _ _ hcount tp
  have hhdr : c.header.length = 24064 := length_imageHeader _ _
  have hstart := @Decompress.start_laid c tp st argv3 hblank hfo hoff halloc
  obtain ⟨w, ⟨n, hn⟩, hbuffers, hret, hfin⟩ := inflated_chunk hdec
  have hw := hn n le_rfl
  -- once the buffers are dealt with, the run goes through
  have hrun : ∀ st₁ : Decompress, w.full.foldlM Decompress.drain (st.start argv3) = .ok st₁ →
      ∃ buf, buf.length = 24064 ∧ buf.take w.last.length = w.last ∧
        ∀ st₂, st₁.streamEnd buf w.last.length = .ok st₂ →
          ∃ buf', Returns (fun fuel => decompressAttempt m fuel F argv3 buffer st)
            (.streamEnd, buf', st₂) := by
    intro st₁ hfold
    rcases @bufferLoop_spec m _ Decompress.drain n _ [] buffer (st.start argv3) w hw hbuf
      (Nat.zero_le _) rfl rfl with ⟨e, h1, -⟩ | ⟨st', i', buf, h1, hend, h3⟩
    · rw [hfold] at h1; cases h1
    rw [hfold] at h1
    cases h1
    refine ⟨buf, hend.length_buf, hend.take_buf, fun st₂ h₂ => ?_⟩
    have hcall : (m.call i'.z .finish i'.inp 24064).ret = .streamEnd := by
      have := hend.fin
      rw [if_pos hret, hfin] at this
      exact this.symm
    refine ⟨overwrite buf 0 (m.call i'.z .finish i'.inp 24064).out, ?_⟩
    have hsteady := (steady_bufferLoop Decompress.drain (Inflater.start m F) buffer
      (st.start argv3)).returns h3
    refine Returns.bind hsteady (Returns.congr (fun _ => ?_) (Returns.pure _))
    show (if w.ret = .streamEnd then _ else _) = _
    rw [if_pos hret, hend.out, h₂, ← hcall]
    rfl
  cases hbuffers with
  | alone hfull hlast hnil =>
    -- a header alone, its end found in the call that fills the buffer
    rw [hnil, flush_nil] at hflush
    cases hflush
    obtain ⟨buf, hbl, htake, hend⟩ := hrun (st.start argv3) (by rw [hfull]; rfl)
    have hbh : buf = c.header := by
      rw [hlast, hhdr, List.take_of_length_le hbl.le] at htake; exact htake
    obtain ⟨buf', hatt⟩ := hend ((st.start argv3).readHeader c.header) (by rw [hbh, hlast]; rfl)
    exact ⟨buf', _, true, _, _, hatt, by rw [hnil, flush_nil], hstart true⟩
  | more ds hfull hlen hrest =>
    obtain ⟨bs₁, tp₁, hf₁, hf₂⟩ := flush_buffers hlen hrest hflush
    obtain ⟨st₁, hd₁, h₁⟩ := (hstart false).drain ds hf₁
    obtain ⟨buf, hbl, htake, hend⟩ := hrun st₁ (by
      rw [hfull, List.foldlM_cons]; exact hd₁)
    obtain ⟨st₂, hd₂, h₂⟩ := h₁.flush _ (hf₂ buf htake)
    obtain ⟨buf', hatt⟩ := hend st₂ (by
      rw [Decompress.streamEnd, if_neg (by simp [h₁.firstpass]), Decompress.flushToDisk]
      exact hd₂)
    exact ⟨buf', st₂, false, bs', tp', hatt, hflush, h₂⟩

/-- After the unused sectors at the end of the chunk the run is a `scatter`. -/
theorem Laid.fillRest {fp : Bool} {bs' : List Bool} {tp' : Tape Sector}
    (h : Laid fp c.slice.length (padTo 22016 c.slice) bs' tp' st)
    (hf : LinboxRescue.flush sound (bits (padTo 22016 c.slice)) c.sectors tp = some (bs', tp')) :
    st.fillRest.fo = OutFile.upTo (scatter sound (bits c.slice) c.sectors tp) ∧
      st.fillRest.offset = 512 * (scatter sound (bits c.slice) c.sectors tp).pos ∧
      Unwritten (scatter sound (bits c.slice) c.sectors tp) := by
  obtain ⟨n, hscatter, hleft⟩ := scatter_of_flush_padTo hf h.length_left
  rw [hscatter]
  unfold Decompress.fillRest
  rw [h.bitmaplg]
  split_ifs with hcond
  · have hn : ((c.slice.length : ℤ) * 8 - st.bitindex).toNat = n := by omega
    simp only [hn]
    refine ⟨?_, ?_, h.blank.skip _⟩
    · rw [h.fo]; exact OutFile.fill_upTo h.blank _
    · rw [h.offset, Tape.skip_pos, Nat.mul_add]
  · have hnil : n = 0 := by omega
    rw [hnil, Tape.skip_zero]
    exact ⟨h.fo, h.offset, h.blank⟩

/-! ## The image -/

/-- The files hold the part of the volume in front of the head. -/
structure Extracted.At (x : Extracted) (tp : Tape Sector) : Prop where
  out : x.out = (OutFile.upTo tp).bytes
  offset : x.offset = dec (512 * tp.pos) ++ ascii "\n"
  blank : Unwritten tp

/-- **A run.** -/
theorem decompress_spec {x : Extracted} (hdec : Decodes m F c.payload)
    (halloc : headerInt (ascii "ALLOCTABLELG=") c.header = some (c.slice.length : ℤ)) (hx : x.At tp) :
    ∃ x', Returns (fun fuel => decompress m fuel (some F) x.offset x) x' ∧
      x'.At (scatter sound (bits c.slice) c.sectors tp) := by
  obtain ⟨buf', st', fp, bs', tp', hatt, hf, hlaid⟩ := @decompressAttempt_of_decodes m c F tp
    (Decompress.load x) x.offset (List.replicate 24064 0) hdec halloc hx.blank hx.out
    (by rw [hx.offset, scanOffset_dec]) List.length_replicate
  obtain ⟨hfo, hoff, hblank⟩ := hlaid.fillRest hf
  refine ⟨st'.fillRest.save, ?_, ?_, ?_, hblank⟩
  · have hloop : Returns (fun fuel => decompressLoop m F x.offset fuel (List.replicate 24064 0)
        (Decompress.load x)) st' :=
      Returns.step (fun _ => rfl) (Returns.bind hatt (Returns.pure _))
    exact Returns.bind hloop (Returns.pure _)
  · show st'.fillRest.fo.bytes = _
    rw [hfo]
  · show dec st'.fillRest.offset ++ _ = _
    rw [hoff]

theorem decompressFrom_spec {dir : Dir} {name : Bytes} (cs : List Chunk) : ∀ {i : ℕ}
    {tp : Tape Sector} {x : Extracted},
    (∀ j c, cs[j]? = some c → (∃ F, dir (chunkName name (i + j)) = some F ∧ Decodes m F c.payload) ∧
      headerInt (ascii "ALLOCTABLELG=") c.header = some (c.slice.length : ℤ)) → x.At tp →
    ∃ x', Returns (fun fuel => decompressFrom m fuel dir name i cs.length x) x' ∧
      x'.At (scatter sound (imageBits cs) (imageSectors cs) tp) := by
  induction cs with
  | nil => exact fun _ hx => ⟨_, Returns.pure _, hx⟩
  | cons c cs ih =>
    intro i tp x hfiles hx
    obtain ⟨⟨F, hF, hdec⟩, halloc⟩ := hfiles 0 c rfl
    obtain ⟨x₁, hrun, hx₁⟩ := decompress_spec hdec halloc hx
    obtain ⟨x₂, hrest, hx₂⟩ := @ih (i + 1) _ x₁ (fun j c' hj => by
      rw [show i + 1 + j = i + (j + 1) by ring]; exact hfiles (j + 1) c' hj) hx₁
    refine ⟨x₂, ?_, ?_⟩
    · refine Returns.congr (fun fuel => ?_) (Returns.bind hrun hrest)
      rw [decompressFrom, List.length_cons, List.range'_succ, List.foldlM_cons]
      show decompress m fuel (dir (chunkName name (i + 0))) x.offset x >>= _ = _
      rw [hF]
      rfl
    · rw [imageBits_cons, imageSectors_cons, scatter_append c.length_sectors]
      exact hx₂

end Chunks

/-- An empty file, and the offset 0. -/
def Extracted.empty : Extracted where
  out := []
  offset := ascii "0\n"
  blocks := none

theorem Extracted.empty_at : Extracted.empty.At ⟨0, fun _ => Sector.fill 0⟩ :=
    ⟨rfl, rfl, fun _ _ => rfl⟩

/-- **The volume as a file**, when it was saved without a file `options`. -/
theorem decompress_compressVolume {z : Zlib} (hz : z.Contract) (D : List Sector) (p : Params)
    (hB : ∀ i, Used p.bitmap i → i < D.length) (name : Bytes) (im : Imager) (buffer : Bytes)
    (hbuf : buffer.length = 24064) :
    ∃ v x, Returns (fun fuel => compressVolume z fuel name none im p
        (openSource D fun _ => false) buffer Dir.empty) v ∧
      Returns (fun fuel => decompressFrom z.inflate fuel v.dir name 0 p.nb Extracted.empty) x ∧
      x.out.length = 4096 * p.bitmap.length ∧
      (∀ i, Used p.bitmap i → D[i]? = some (Sector.ofMem x.out (512 * i))) ∧
      (∀ i < 8 * p.bitmap.length, ¬ Used p.bitmap i → Sector.ofMem x.out (512 * i) = Sector.fill 0) ∧
      x.offset = dec (4096 * p.bitmap.length) ++ ascii "\n" := by
  obtain ⟨v, hv, hholds, -⟩ := compressVolume_spec hz (d := openSource D fun _ => false)
    (fun _ => rfl) name im p hbuf Dir.empty
  have hlen : (volumeChunks (openSource D fun _ => false) im p buffer).length = p.nb :=
    length_savedChunks _ _ _ _ _
  obtain ⟨x, hx, hat⟩ := @decompressFrom_spec z.inflate v.dir name
    (volumeChunks (openSource D fun _ => false) im p buffer) 0 _ _ (fun j c hj => by
      obtain ⟨F, hF, hfile⟩ := hholds j c hj
      exact ⟨⟨F, hF, hfile.decodes hz⟩, headerInt_alloc_volumeChunks hj⟩) Extracted.empty_at
  rw [hlen] at hx
  rw [imageBits_volumeChunks,
    imageSectors_of_ok hbuf fun q hq => sector_openSource (hB q (used_iff.mpr hq)) rfl] at hat
  obtain ⟨tp, htp⟩ : ∃ tp, tp = scatter sound (bits p.bitmap)
    ((ones 0 (bits p.bitmap)).map fun i => D.getD i default) ⟨0, fun _ => Sector.fill 0⟩ := ⟨_, rfl⟩
  rw [← htp] at hat
  have hpos : tp.pos = 8 * p.bitmap.length := by
    rw [htp, scatter_pos_of_ok fun _ _ => rfl, length_bits, Nat.zero_add]
  have hsec : ∀ i < 8 * p.bitmap.length, Sector.ofMem x.out (512 * i) = tp.cells i := by
    intro i hi
    have hout : x.out.take (512 * ((List.range tp.pos).map tp.cells).length) =
        sectorBytes ((List.range tp.pos).map tp.cells) := by
      rw [hat.out]
      exact List.take_of_length_le (length_sectorBytes _).le
    refine Sector.ofMem_sectorBytes hout ?_
    rw [List.getElem?_map, List.getElem?_range (by omega), Option.map_some]
  refine ⟨v, x, hv, hx, ?_, fun i hi => ?_, fun i hi hu => ?_, ?_⟩
  · rw [hat.out, OutFile.length_upTo]
    show 512 * tp.pos = _
    omega
  · have hlt := hB i hi
    have hi8 : i < 8 * p.bitmap.length := by
      have := lt_of_mem_ones (used_iff.mp hi)
      rwa [length_bits, Nat.zero_add] at this
    have hcell : tp.cells (0 + i) = D.getD i default := by
      rw [htp]
      exact scatter_map_of_ok (f := fun i => D.getD i default) (fun _ _ => rfl) (used_iff.mp hi)
    rw [Nat.zero_add] at hcell
    rw [hsec i hi8, hcell, List.getElem?_eq_getElem hlt, ← List.getD_eq_getElem D default hlt]
  · rw [hsec i hi, htp]
    exact scatter_cells_of_not_mem (t := ⟨0, fun _ => Sector.fill 0⟩) (fun _ _ => rfl)
      fun hmem => hu (used_iff.mpr hmem)
  · rw [hat.offset, hpos, show 512 * (8 * p.bitmap.length) = 4096 * p.bitmap.length by ring]

theorem decompress_compressVolume_three : ∃ v x,
    Returns (fun fuel => compressVolume storedZlib fuel (ascii "P1") none .raw
      (smallParams [5] (by decide)) (openSource [.fill 7, .fill 8, .fill 9] fun _ => false) zeros
      Dir.empty) v ∧
    Returns (fun fuel => decompressFrom storedZlib.inflate fuel v.dir (ascii "P1") 0
      (smallParams [5] (by decide)).nb Extracted.empty) x ∧
    x.out.length = 4096 ∧
    (∀ i, Used [5] i → [Sector.fill 7, .fill 8, .fill 9][i]? = some (Sector.ofMem x.out (512 * i))) ∧
    (∀ i < 8, ¬ Used [5] i → Sector.ofMem x.out (512 * i) = Sector.fill 0) ∧
    x.offset = ascii "4096\n" :=
  decompress_compressVolume storedZlib_contract [.fill 7, .fill 8, .fill 9]
    (smallParams [5] (by decide))
    (fun _ hi => (show ∀ i ∈ ones 0 (bits [5]), i < 3 by decide) _ (used_iff.mp hi)) _ _ zeros
    length_zeros

end LinboxRescue
