import LinboxRescue.Image.CompressSpec
import LinboxRescue.Image.Restore

/-!
# What `restore` writes

1. `flushSectors_spec`: the loop of `flushToDisk` is `flush` on the tape of the target's sectors, and
   overruns the bitmap exactly when there are more sectors than set bits left.
2. `inflateLoop_eq`: the loop of `restore` is a `bufferLoop`. For the file of a chunk it deals with
   the header and the sectors, cut at every 47th (`sectors_of_buffers`).
3. `attempt_of_decodes`, `restoreChunk_spec`: a chunk whose file decodes is written by `scatter`.
4. `restoreLoop_spec`: so is the whole image.
-/

namespace LinboxRescue

/-! ## `flushToDisk` -/

/-- The target with the sectors and the head of a tape. -/
def Target.load (t : Target) (tp : Tape Sector) : Target :=
  { t with cells := tp.cells, off := 512 * tp.pos }

@[simp] theorem Target.load_cells (t : Target) (tp : Tape Sector) : (t.load tp).cells = tp.cells := rfl
@[simp] theorem Target.load_off (t : Target) (tp : Tape Sector) : (t.load tp).off = 512 * tp.pos := rfl

variable {t : Target}

theorem Target.write_load (tp : Tape Sector) (s : Sector) :
    (t.load tp).write s = t.load (tp.put t.bad s) := by
  have hpos : (t.load tp).off / 512 = tp.pos := Nat.mul_div_cancel_left _ (by omega)
  unfold Target.write Tape.put
  rw [hpos]
  show (if t.bad tp.pos then _ else _) = _
  split_ifs
  · rfl
  · show Target.mk _ _ _ _ = Target.mk _ _ _ _
    congr 1

theorem Target.lseekSet_load {p : ℕ} (tp : Tape Sector) (h : t.seekable (512 * p) = true) :
    (t.load tp).lseekSet (512 * p) = t.load { tp with pos := p } := by
  unfold Target.lseekSet
  rw [if_pos (show (t.load tp).seekable (512 * p) = true from h)]
  rfl

theorem Target.lseekCur_load {n : ℕ} (tp : Tape Sector)
    (h : t.seekable (512 * (tp.pos + n)) = true) :
    (t.load tp).lseekCur (512 * n) = t.load (tp.skip n) := by
  unfold Target.lseekCur
  rw [Target.load_off, ← Nat.mul_add]
  exact Target.lseekSet_load tp h

/-- The scan finds the first set bit of what is left of the bitmap. -/
theorem nextUsed_spec {bit : Bytes} (steps : ℕ) {indx : ℕ} {bs : List Bool}
    (hbs : (bits bit).drop indx = bs) (hsteps : bs.length < steps) :
    (nextUsed bit steps indx = none ∧ bs = List.replicate bs.length false) ∨
    ∃ n bs', bs = List.replicate n false ++ true :: bs' ∧
      nextUsed bit steps indx = some (indx + n) := by
  induction steps generalizing indx bs with
  | zero => omega
  | succ steps ih =>
    have hat : bitAt bit indx = bs[0]? := by
      rw [bitAt_eq, ← hbs, List.getElem?_drop, Nat.add_zero]
    cases bs with
    | nil => exact .inl ⟨by rw [nextUsed, hat]; rfl, rfl⟩
    | cons b bs =>
      have hnext : (bits bit).drop (indx + 1) = bs := by
        rw [← List.drop_drop, hbs]; rfl
      cases b with
      | true => exact .inr ⟨0, bs, rfl, by rw [nextUsed, hat]; rfl⟩
      | false =>
        have hstep : nextUsed bit (steps + 1) indx = nextUsed bit steps (indx + 1) := by
          rw [nextUsed, hat]; rfl
        rw [hstep]
        rcases ih hnext (by simpa using hsteps) with ⟨h1, h2⟩ | ⟨n, bs', h1, h2⟩
        · refine .inl ⟨h1, ?_⟩
          rw [List.length_cons, List.replicate_succ, ← h2]
        · refine .inr ⟨n + 1, bs', ?_, ?_⟩
          · rw [h1, List.replicate_succ]; rfl
          · rw [h2]; congr 1; omega

theorem flush_replicate_false {bad : ℕ → Bool} (n : ℕ) (bs : List Bool) (x : Sector)
    (xs : List Sector) (tp : Tape Sector) :
    flush bad (List.replicate n false ++ bs) (x :: xs) tp = flush bad bs (x :: xs) (tp.skip n) := by
  induction n generalizing tp with
  | zero => rfl
  | succ n ih =>
    rw [List.replicate_succ, List.cons_append, flush, ih, Tape.skip_skip, Nat.add_comm]

/-- Every offset up to a used sector can be sought to. -/
def Reaches (t : Target) (p : ℕ) (bs : List Bool) : Prop :=
  ∀ q ∈ ones p bs, ∀ o ≤ 512 * q, t.seekable o = true

theorem Reaches.of_le {p p' : ℕ} (as : List Bool) {bs : List Bool} (h : Reaches t p (as ++ bs))
    (hp : p' ≤ p + as.length) : Reaches t p' bs := by
  intro q hq o ho
  obtain ⟨hle, hbit⟩ := mem_ones.mp hq
  refine h (q - p' + (p + as.length)) ?_ o (by omega)
  rw [ones_append]
  refine List.mem_append_right _ (mem_ones.mpr ⟨by omega, ?_⟩)
  rw [Nat.add_sub_cancel]; exact hbit

theorem Reaches.congr {p q : ℕ} {bs : List Bool} (h : Reaches t p bs) (hq : ones p bs ≠ [] → q = p) :
    Reaches t q bs := by
  by_cases hnil : ones p bs = []
  · have hlen : (ones q bs).length = 0 := by rw [length_ones, ← length_ones p, hnil]; rfl
    intro i hi
    rw [List.length_eq_zero_iff.mp hlen] at hi
    cases hi
  · rw [hq hnil]; exact h

theorem flushSectors_spec {bit : Bytes} (xs : List Sector) : ∀ {indx : ℕ} {tp : Tape Sector},
    Reaches t tp.pos ((bits bit).drop indx) → indx ≤ 8 * bit.length →
    xs.foldlM (flushSector bit) (indx, t.load tp) =
      match flush t.bad ((bits bit).drop indx) xs tp with
      | none => .error .bitmapOverrun
      | some (bs', tp') => .ok (8 * bit.length - bs'.length, t.load tp') := by
  induction xs with
  | nil =>
    intro indx tp _ hi
    rw [flush_nil]
    show Except.ok _ = Except.ok _
    rw [List.length_drop, length_bits, Nat.sub_sub_self hi]
  | cons x xs ih =>
    intro indx tp hr hi
    obtain ⟨bs, hbs⟩ : ∃ bs, (bits bit).drop indx = bs := ⟨_, rfl⟩
    have hlen : bs.length = 8 * bit.length - indx := by rw [← hbs, List.length_drop, length_bits]
    rw [List.foldlM_cons, hbs]
    rcases nextUsed_spec (8 * bit.length + 1) hbs (by omega) with
      ⟨hnone, hrep⟩ | ⟨n, bs', happ, hsome⟩
    · rw [flush_eq_none (by rw [hrep, List.count_replicate]; simp), flushSector]
      simp only [hnone]
      rfl
    · have hn : n + 1 + bs'.length = bs.length := by
        rw [happ]; simp only [List.length_append, List.length_replicate, List.length_cons]; omega
      have hnext : (bits bit).drop (indx + n + 1) = bs' := by
        rw [show indx + n + 1 = indx + (n + 1) by ring, ← List.drop_drop, hbs, happ,
          List.drop_append, List.length_replicate, List.drop_of_length_le (by simp)]
        simp
      have hmem : tp.pos + n ∈ ones tp.pos bs := by
        rw [happ, ones_append, ones_true]; simp
      have hseek : ∀ o ≤ 512 * (tp.pos + n), t.seekable o = true := by
        rw [hbs] at hr; exact hr _ hmem
      have hfo : (if indx + n ≠ indx then (t.load tp).lseekCur (512 * (indx + n - indx))
          else t.load tp) = t.load (tp.skip n) := by
        split_ifs with h0
        · rw [Nat.add_sub_cancel_left]; exact Target.lseekCur_load tp (hseek _ le_rfl)
        · rw [show n = 0 by omega]; rfl
      have hstep : flushSector bit (indx, t.load tp) x =
          .ok (indx + n + 1, t.load ((tp.skip n).put t.bad x)) := by
        unfold flushSector
        simp only [hsome, hfo, Target.write_load]
      rw [hstep]
      show xs.foldlM (flushSector bit) (indx + n + 1, _) = _
      have hput : ((tp.skip n).put t.bad x).pos ≤ tp.pos + (n + 1) := by
        unfold Tape.put; split_ifs <;> simp [Nat.add_assoc]
      have hr' : Reaches t ((tp.skip n).put t.bad x).pos ((bits bit).drop (indx + n + 1)) := by
        rw [hnext]
        rw [hbs, happ] at hr
        exact Reaches.of_le (List.replicate n false ++ [true]) (by simpa using hr)
          (by simpa using hput)
      rw [ih hr' (by omega), hnext, happ, flush_replicate_false, flush]

/-- `lg` bytes of a buffer that starts with the sectors `xs`. -/
theorem bufferSectors_eq {buff : Bytes} {xs : List Sector}
    (h : buff.take (512 * xs.length) = sectorBytes xs) :
    bufferSectors buff (512 * xs.length) = xs := by
  apply List.ext_getElem?
  intro k
  rw [bufferSectors, show (512 * xs.length + 511) / 512 = xs.length by omega, List.getElem?_map]
  by_cases hk : k < xs.length
  · rw [List.getElem?_range hk, List.getElem?_eq_getElem hk]
    exact congrArg some (Sector.ofMem_sectorBytes h (List.getElem?_eq_getElem hk))
  · rw [List.getElem?_eq_none (by simpa using hk), List.getElem?_eq_none (by omega)]
    rfl

/-! ## The loop -/

/-- A full buffer with the bytes `b` is dealt with. -/
def drainWith (st : RestoreState) (b : Bytes) : Except Halt RestoreState :=
  { st with buffer := b }.drain

theorem buffer_drain {st st' : RestoreState} (h : st.drain = .ok st') : st'.buffer = st.buffer := by
  unfold RestoreState.drain at h
  split_ifs at h
  · cases h; rfl
  · unfold RestoreState.flush at h
    obtain ⟨r, -, h⟩ := bind_eq_ok h
    cases h; rfl

section Loop

variable {m : ZMachine}

/-- The loop of `restore` keeps the buffer in its state. -/
theorem inflateLoop_eq (fuel : ℕ) : ∀ (i : Inflater m) (buf : Bytes) (st : RestoreState),
    inflateLoop m fuel i { st with buffer := buf } =
      bufferLoop m drainWith fuel i buf st >>= fun (ret, i, buf, st) =>
        .ok (ret, i, { st with buffer := buf }) := by
  induction fuel with
  | zero => intro i buf st; rfl
  | succ fuel ih =>
    intro i buf st
    obtain ⟨r, hr⟩ : ∃ r, r = m.call i.z .syncFlush i.inp (24064 - i.out) := ⟨_, rfl⟩
    obtain ⟨buf', hb⟩ : ∃ buf', buf' = overwrite buf i.out r.out := ⟨_, rfl⟩
    rw [inflateLoop, bufferLoop, ← hr]
    simp only [← hb]
    by_cases hret : r.ret ≠ .ok
    · rw [if_pos hret, if_pos hret]
      rfl
    rw [if_neg hret, if_neg hret]
    by_cases hfull : (i.after r).out = 24064
    · rw [if_pos hfull, if_pos hfull]
      show ({ st with buffer := buf' } : RestoreState).drain >>= _ = (drainWith st buf' >>= _) >>= _
      rw [drainWith]
      cases hd : ({ st with buffer := buf' } : RestoreState).drain with
      | error e => rfl
      | ok st₁ =>
        have hst : { st₁ with buffer := buf' } = st₁ := by
          rw [← show st₁.buffer = buf' from buffer_drain hd]
        show inflateLoop m fuel _ st₁ = bufferLoop m drainWith fuel _ buf' st₁ >>= _
        rw [← ih, hst]
    · rw [if_neg hfull, if_neg hfull]
      exact ih _ buf' st

theorem steady_attempt (file : Bytes) (st : RestoreState) :
    Steady fun fuel => attempt m fuel file st := by
  have hloop : Steady fun fuel => inflateLoop m fuel (Inflater.start m file)
      { st with firstpass := true, bitmaplg := 0, bitindex := 0 } := by
    rw [show (fun fuel => inflateLoop m fuel _ _) = _ from funext fun fuel =>
      inflateLoop_eq fuel (Inflater.start m file) st.buffer
        { st with firstpass := true, bitmaplg := 0, bitindex := 0 }]
    exact (steady_bufferLoop drainWith _ st.buffer _).bind _
  exact hloop.bind _

/-- The state in which an attempt begins. -/
def RestoreState.begin (st : RestoreState) : RestoreState :=
  { st with firstpass := true, bitmaplg := 0, bitindex := 0 }

section Attempt

variable {fuel : ℕ} {file : Bytes} {st st' : RestoreState} {w : Inflated}
  (hw : inflated m fuel (Inflater.start m file) [] = .ok w) (hbuf : st.buffer.length = 24064)

include hw hbuf

/-- An attempt in which a flush overruns the bitmap. -/
theorem attempt_of_error {e : Halt} (he : w.full.foldlM drainWith st.begin = .error e) :
    attempt m fuel file st = .error e := by
  have hloop := inflateLoop_eq fuel (Inflater.start m file) st.buffer st.begin
  rcases @bufferLoop_spec m _ drainWith fuel _ [] st.buffer st.begin w hw hbuf (Nat.zero_le _) rfl rfl
    with ⟨e', h1, h2⟩ | ⟨st', i', buf, h1, -⟩
  · rw [he] at h1
    cases h1
    rw [h2] at hloop
    exact congrArg (· >>= _) hloop
  · rw [he] at h1; cases h1

theorem inflateLoop_of_ok (hfold : w.full.foldlM drainWith st.begin = .ok st') :
    ∃ i' buf, LoopEnd w i' buf ∧ inflateLoop m fuel (Inflater.start m file) st.begin =
      .ok (w.ret, i', { st' with buffer := buf }) := by
  have hloop := inflateLoop_eq fuel (Inflater.start m file) st.buffer st.begin
  rcases @bufferLoop_spec m _ drainWith fuel _ [] st.buffer st.begin w hw hbuf (Nat.zero_le _) rfl rfl
    with ⟨e', h1, h2⟩ | ⟨st'', i', buf, h1, h2, h3⟩
  · rw [hfold] at h1; cases h1
  · rw [hfold] at h1
    cases h1
    rw [h3] at hloop
    exact ⟨i', buf, h2, hloop⟩

/-- An attempt in which `inflate` fails. -/
theorem attempt_of_fails (hfold : w.full.foldlM drainWith st.begin = .ok st')
    (hret : w.ret ≠ .streamEnd) :
    ∃ buf, buf.length = 24064 ∧ attempt m fuel file st = .ok (w.fin, { st' with buffer := buf }) := by
  obtain ⟨i', buf, hend, hloop⟩ := inflateLoop_of_ok hw hbuf hfold
  have hout := m.out_le i'.z .finish i'.inp (24064 - i'.out)
  have hi := hend.out
  have hlast := congrArg List.length hend.take_buf
  rw [List.length_take, hend.length_buf] at hlast
  refine ⟨overwrite buf i'.out (m.call i'.z .finish i'.inp (24064 - i'.out)).out, ?_, ?_⟩
  · rw [length_overwrite (by have := hend.length_buf; omega), hend.length_buf]
  · refine (congrArg (· >>= _) hloop).trans ?_
    show (if w.ret = .streamEnd then _ else _) = _
    rw [if_neg hret, hend.fin, if_neg hret]
    rfl

/-- An attempt in which the stream ends; what is left in the buffer is still to be dealt with. -/
theorem attempt_of_ends (hfold : w.full.foldlM drainWith st.begin = .ok st')
    (hret : w.ret = .streamEnd) :
    ∃ buf, buf.length = 24064 ∧ buf.take w.last.length = w.last ∧
      ∀ st'', (if st'.firstpass then { st' with buffer := buf }.readHeader.flush 0
          else { st' with buffer := buf }.flush w.last.length) = .ok st'' →
        st''.buffer.length = 24064 →
        ∃ buf', buf'.length = 24064 ∧
          attempt m fuel file st = .ok (w.fin, { st'' with buffer := buf' }) := by
  obtain ⟨i', buf, hend, hloop⟩ := inflateLoop_of_ok hw hbuf hfold
  refine ⟨buf, hend.length_buf, hend.take_buf, fun st'' hst hlen => ?_⟩
  have hout := m.out_le i'.z .finish i'.inp 24064
  refine ⟨overwrite st''.buffer 0 (m.call i'.z .finish i'.inp 24064).out, ?_, ?_⟩
  · rw [length_overwrite (by omega), hlen]
  · refine (congrArg (· >>= _) hloop).trans ?_
    show (if w.ret = .streamEnd then _ else _) = _
    rw [if_pos hret, hend.fin, if_pos hret]
    rw [← hend.out] at hst
    show ((if st'.firstpass then { st' with buffer := buf }.readHeader.flush 0
      else { st' with buffer := buf }.flush i'.out) >>= _) = _
    rw [hst]
    rfl

end Attempt

end Loop

/-! ## Full buffers on the disk -/

/-- The sectors of full buffers. -/
def dataSectors (ds : List Bytes) : List Sector := ds.flatMap fun b => bufferSectors b 24064

/-- A chunk is being written: `f` and `lg` were found in the header, of its bitmap `bm` the bits
`bs` are left, and the target is at `tp`. -/
structure Placed (t : Target) (f lg : ℤ) (bm : Bytes) (bs : List Bool) (tp : Tape Sector)
    (st : RestoreState) : Prop where
  fmax : st.fmax = f
  bitmaplg : st.bitmaplg = lg
  bitmap : st.bitmap = bm
  fo : st.fo = t.load tp
  left : (bits bm).drop st.bitindex = bs
  bitindex_le : st.bitindex ≤ 8 * bm.length

section Placed

variable {f lg : ℤ} {bm : Bytes} {bs bs' : List Bool} {tp tp' : Tape Sector} {st : RestoreState}

theorem Placed.length_left (h : Placed t f lg bm bs tp st) :
    st.bitindex + bs.length = 8 * bm.length := by
  rw [← h.left, List.length_drop, length_bits]
  have := h.bitindex_le
  omega

theorem Placed.flush_eq (h : Placed t f lg bm bs tp st) (hr : Reaches t tp.pos bs) (n : ℕ) :
    st.flush n = (match flush t.bad bs (bufferSectors st.buffer n) tp with
      | none => .error .bitmapOverrun
      | some (bs', tp') =>
        .ok { st with bitindex := 8 * bm.length - bs'.length, fo := t.load tp' }) := by
  rw [RestoreState.flush, flushToDisk, h.fo, h.bitmap,
    flushSectors_spec _ (by rw [h.left]; exact hr) h.bitindex_le, h.left]
  cases flush t.bad bs (bufferSectors st.buffer n) tp with
  | none => rfl
  | some r => rfl

theorem Placed.after_flush (h : Placed t f lg bm bs tp st) {xs : List Sector}
    (hf : flush t.bad bs xs tp = some (bs', tp')) :
    Placed t f lg bm bs' tp'
      { st with bitindex := 8 * bm.length - bs'.length, fo := t.load tp' } := by
  obtain ⟨used, hused, -⟩ := flush_suffix hf
  have hsuf : bs' <:+ bits bm := by
    refine List.IsSuffix.trans ⟨used, hused.symm⟩ ?_
    rw [← h.left]; exact List.drop_suffix _ _
  refine ⟨h.fmax, h.bitmaplg, h.bitmap, rfl, ?_, Nat.sub_le _ _⟩
  rw [← length_bits]
  exact (List.suffix_iff_eq_drop.mp hsuf).symm

theorem Reaches.after_flush (hr : Reaches t tp.pos bs) {xs : List Sector}
    (hf : flush t.bad bs xs tp = some (bs', tp')) : Reaches t tp'.pos bs' := by
  obtain ⟨used, hused, -⟩ := flush_suffix hf
  have hpos := flush_pos_le hf
  rw [hused] at hr
  rw [hused, List.length_append] at hpos
  exact hr.of_le used (by omega)

/-- One full buffer after the header. -/
theorem Placed.drainWith_eq (h : Placed t f lg bm bs tp st) (hfp : st.firstpass = false)
    (hr : Reaches t tp.pos bs) (b : Bytes) :
    drainWith st b = (match flush t.bad bs (bufferSectors b 24064) tp with
      | none => .error .bitmapOverrun
      | some (bs', tp') =>
        .ok { st with buffer := b, bitindex := 8 * bm.length - bs'.length, fo := t.load tp' }) := by
  have hb : Placed t f lg bm bs tp { st with buffer := b } := ⟨h.1, h.2, h.3, h.4, h.5, h.6⟩
  rw [drainWith, RestoreState.drain, if_neg (by simp [hfp]), hb.flush_eq hr]

/-- The full buffers after the header. -/
theorem Placed.drain_ok (ds : List Bytes) : ∀ {bs : List Bool} {tp : Tape Sector} {st : RestoreState},
    Placed t f lg bm bs tp st → st.firstpass = false → Reaches t tp.pos bs →
    flush t.bad bs (dataSectors ds) tp = some (bs', tp') →
    ∃ st', ds.foldlM drainWith st = .ok st' ∧ st'.firstpass = false ∧
      Placed t f lg bm bs' tp' st' := by
  induction ds with
  | nil =>
    intro bs tp st h hfp _ hf
    rw [dataSectors, List.flatMap_nil, flush_nil] at hf
    cases hf
    exact ⟨st, rfl, hfp, h⟩
  | cons b ds ih =>
    intro bs tp st h hfp hr hf
    rw [dataSectors, List.flatMap_cons, flush_append] at hf
    obtain ⟨⟨bs₁, tp₁⟩, hf₁, hf₂⟩ := Option.bind_eq_some_iff.mp hf
    have hb := h.after_flush hf₁
    rw [List.foldlM_cons, h.drainWith_eq hfp hr, hf₁]
    exact ih ⟨hb.1, hb.2, hb.3, hb.4, hb.5, hb.6⟩ hfp (hr.after_flush hf₁) hf₂

theorem Placed.drain_error (ds : List Bytes) : ∀ {bs : List Bool} {tp : Tape Sector}
    {st : RestoreState}, Placed t f lg bm bs tp st → st.firstpass = false → Reaches t tp.pos bs →
    flush t.bad bs (dataSectors ds) tp = none →
    ds.foldlM drainWith st = .error .bitmapOverrun := by
  induction ds with
  | nil =>
    intro bs tp st h hfp _ hf
    rw [dataSectors, List.flatMap_nil, flush_nil] at hf
    cases hf
  | cons b ds ih =>
    intro bs tp st h hfp hr hf
    rw [dataSectors, List.flatMap_cons, flush_append] at hf
    rw [List.foldlM_cons, h.drainWith_eq hfp hr]
    cases hf₁ : flush t.bad bs (bufferSectors b 24064) tp with
    | none => rfl
    | some r =>
      rw [hf₁] at hf
      have hb := h.after_flush hf₁
      exact ih ⟨hb.1, hb.2, hb.3, hb.4, hb.5, hb.6⟩ hfp (hr.after_flush hf₁) hf

/-- The header buffer. -/
theorem drainWith_begin (hfo : st.fo = t.load tp) {h : Bytes} (hlen : h.length = 24064) :
    ∃ st', drainWith st.begin h = .ok st' ∧ st'.firstpass = false ∧
      Placed t ((headerInt (ascii "BLOCKS=") h).getD st.fmax)
        ((headerInt (ascii "ALLOCTABLELG=") h).getD 0) (h.drop 2048) (bits (h.drop 2048)) tp st' := by
  refine ⟨{ ({ st.begin with buffer := h } : RestoreState).readHeader with
    bitindex := 0, firstpass := false }, rfl, rfl, ⟨rfl, rfl, ?_, hfo, rfl, Nat.zero_le _⟩⟩
  show (h.drop 2048).take 22016 = h.drop 2048
  exact List.take_of_length_le (by rw [List.length_drop]; omega)

/-- The sectors in the buffers of a chunk. -/
theorem sectors_of_buffers {buf last : Bytes} (hlast : buf.take last.length = last) (ds : List Bytes) :
    ∀ {xs : List Sector}, (∀ b ∈ ds, b.length = 24064) → ds.flatten ++ last = sectorBytes xs →
      dataSectors ds ++ bufferSectors buf last.length = xs := by
  induction ds with
  | nil =>
    intro xs _ h
    rw [List.flatten_nil, List.nil_append] at h
    have hlen : last.length = 512 * xs.length := by rw [h, length_sectorBytes]
    rw [hlen, h] at hlast
    rw [hlen]
    exact bufferSectors_eq hlast
  | cons b ds ih =>
    intro xs hds h
    rw [List.forall_mem_cons] at hds
    rw [List.flatten_cons, List.append_assoc] at h
    have hlen : 47 ≤ xs.length := by
      have := congrArg List.length h
      rw [List.length_append, length_sectorBytes, hds.1] at this
      omega
    have htake : (xs.take 47).length = 47 := by rw [List.length_take]; omega
    have hsplit : b ++ (ds.flatten ++ last) = sectorBytes (xs.take 47) ++ sectorBytes (xs.drop 47) := by
      rw [h, ← sectorBytes_append, List.take_append_drop]
    obtain ⟨hb, hrest⟩ := List.append_inj hsplit (by rw [hds.1, length_sectorBytes, htake])
    have hsec := @bufferSectors_eq b (xs.take 47)
      (by rw [List.take_of_length_le (by rw [hds.1, htake]), hb])
    rw [htake] at hsec
    show bufferSectors b 24064 ++ dataSectors ds ++ _ = _
    rw [List.append_assoc, ih hds.2 hrest]
    calc bufferSectors b 24064 ++ xs.drop 47 = xs.take 47 ++ xs.drop 47 := by rw [← hsec]
      _ = xs := List.take_append_drop _ _

/-- Flushing the sectors of a chunk is flushing those of its full buffers, then those of the last. -/
theorem flush_buffers {bad : ℕ → Bool} {ds : List Bytes} {last : Bytes} {xs : List Sector}
    {bs bs' : List Bool} {tp tp' : Tape Sector} (hds : ∀ b ∈ ds, b.length = 24064)
    (h : ds.flatten ++ last = sectorBytes xs) (hf : flush bad bs xs tp = some (bs', tp')) :
    ∃ bs₁ tp₁, flush bad bs (dataSectors ds) tp = some (bs₁, tp₁) ∧
      ∀ buf : Bytes, buf.take last.length = last →
        flush bad bs₁ (bufferSectors buf last.length) tp₁ = some (bs', tp') := by
  have hsec : ∀ buf : Bytes, buf.take last.length = last →
      dataSectors ds ++ bufferSectors buf last.length = xs :=
    fun buf hbuf => sectors_of_buffers hbuf ds hds h
  rw [← hsec last List.take_length, flush_append] at hf
  obtain ⟨⟨bs₁, tp₁⟩, hf₁, hf₂⟩ := Option.bind_eq_some_iff.mp hf
  refine ⟨bs₁, tp₁, hf₁, fun buf hbuf => ?_⟩
  have hsame : bufferSectors buf last.length = bufferSectors last last.length :=
    List.append_cancel_left ((hsec buf hbuf).trans (hsec last List.take_length).symm)
  rw [hsame]
  exact hf₂

/-- What `inflate` makes of a chunk: the header alone, or the header and the sectors behind it. -/
inductive ChunkBuffers (c : Chunk) (w : Inflated) : Prop
  | alone (hfull : w.full = []) (hlast : w.last = c.header) (hnil : c.sectors = [])
  | more (ds : List Bytes) (hfull : w.full = c.header :: ds) (hlen : ∀ b ∈ ds, b.length = 24064)
    (hrest : ds.flatten ++ w.last = sectorBytes c.sectors)

theorem inflated_chunk {m : ZMachine} {c : Chunk} {F : Bytes} (hdec : Decodes m F c.payload) :
    ∃ w, Returns (fun fuel => inflated m fuel (Inflater.start m F) []) w ∧ ChunkBuffers c w ∧
      w.ret = .streamEnd ∧ w.fin = .streamEnd := by
  obtain ⟨w, hw, happ, hlen, hlast, hret, hfin⟩ := inflated_start hdec
  have hhdr : c.header.length = 24064 := length_imageHeader _ _
  rw [Chunk.payload] at happ
  refine ⟨w, hw, ?_, hret, hfin⟩
  cases hfull : w.full with
  | nil =>
    rw [hfull, List.flatten_nil, List.nil_append] at happ
    have hnil : c.sectors = [] := by
      rw [happ, List.length_append, hhdr, length_sectorBytes] at hlast
      exact List.length_eq_zero_iff.mp (by omega)
    rw [hnil, sectorBytes_nil, List.append_nil] at happ
    exact .alone hfull happ hnil
  | cons b ds =>
    rw [hfull, List.flatten_cons, List.append_assoc] at happ
    rw [hfull, List.forall_mem_cons] at hlen
    obtain ⟨rfl, hrest⟩ := List.append_inj happ (by rw [hlen.1, hhdr])
    exact .more ds hfull hlen.2 hrest

theorem Reaches.append_replicate {p n : ℕ} (h : Reaches t p bs) :
    Reaches t p (bs ++ List.replicate n false) := by
  intro q hq
  rw [ones_append, ones_replicate_false, List.append_nil] at hq
  exact h q hq

section Chunks

variable {m : ZMachine} {c : Chunk} {F : Bytes}

/-- **An attempt at a chunk whose file decodes.** -/
theorem attempt_of_decodes (hdec : Decodes m F c.payload) (hfo : st.fo = t.load tp)
    (hbuf : st.buffer.length = 24064) (hr : Reaches t tp.pos (bits c.slice)) :
    ∃ st' bs' tp', Returns (fun fuel => attempt m fuel F st) (.streamEnd, st') ∧
      st'.buffer.length = 24064 ∧
      flush t.bad (bits (padTo 22016 c.slice)) c.sectors tp = some (bs', tp') ∧
      Placed t ((headerInt (ascii "BLOCKS=") c.header).getD st.fmax)
        ((headerInt (ascii "ALLOCTABLELG=") c.header).getD 0) (padTo 22016 c.slice) bs' tp' st' := by
  have hr' : Reaches t tp.pos (bits (padTo 22016 c.slice)) := by
    rw [bits_padTo c.slice_le]; exact hr.append_replicate
  have hcount : c.sectors.length ≤ (bits (padTo 22016 c.slice)).count true := by
    rw [bits_padTo c.slice_le, List.count_append, c.length_sectors]; omega
  obtain ⟨bs', tp', hflush⟩ := @flush_eq_some _ t.bad _ _ hcount tp
  have hhdr : c.header.length = 24064 := length_imageHeader _ _
  have hbm : c.header.drop 2048 = padTo 22016 c.slice := drop_imageHeader _ _
  obtain ⟨w, ⟨n, hn⟩, hbuffers, hret, hfin⟩ := inflated_chunk hdec
  have hw := hn n le_rfl
  cases hbuffers with
  | alone hfull hlast hnil =>
    -- a header alone, its end found in the call that fills the buffer
    rw [hnil, flush_nil] at hflush
    cases hflush
    have hfold : w.full.foldlM drainWith st.begin = .ok st.begin := by rw [hfull]; rfl
    obtain ⟨buf, hbl, htake, hend⟩ := attempt_of_ends hw hbuf hfold hret
    have hbh : buf = c.header := by
      rw [hlast, hhdr, List.take_of_length_le hbl.le] at htake; exact htake
    obtain ⟨buf', hbl', hatt⟩ := hend ({ st.begin with buffer := buf } : RestoreState).readHeader
      (by rw [hlast]; rfl) hbl
    rw [hfin] at hatt
    refine ⟨_, _, _, (steady_attempt F st).returns hatt, hbl', by rw [hnil, flush_nil], ?_⟩
    refine ⟨by rw [← hbh]; rfl, by rw [← hbh]; rfl, ?_, hfo, rfl, Nat.zero_le _⟩
    show (buf.drop 2048).take 22016 = _
    rw [hbh, hbm]
    exact List.take_of_length_le (by rw [length_padTo])
  | more ds hfull hlen hrest =>
    obtain ⟨bs₁, tp₁, hf₁, hf₂⟩ := flush_buffers hlen hrest hflush
    obtain ⟨st₀, hd₀, hfp₀, hp₀⟩ := drainWith_begin hfo hhdr
    rw [hbm] at hp₀
    obtain ⟨st₁, hd₁, hfp₁, hp₁⟩ := Placed.drain_ok ds hp₀ hfp₀ hr' hf₁
    have hfold : w.full.foldlM drainWith st.begin = .ok st₁ := by
      rw [hfull, List.foldlM_cons, hd₀]; exact hd₁
    obtain ⟨buf, hbl, htake, hend⟩ := attempt_of_ends hw hbuf hfold hret
    have hpb : Placed t _ _ _ bs₁ tp₁ ({ st₁ with buffer := buf } : RestoreState) :=
      ⟨hp₁.1, hp₁.2, hp₁.3, hp₁.4, hp₁.5, hp₁.6⟩
    have hlastflush := hpb.flush_eq (hr'.after_flush hf₁) w.last.length
    simp only [hf₂ buf htake] at hlastflush
    obtain ⟨buf', hbl', hatt⟩ := hend _ (by rw [if_neg (by simp [hfp₁]), hlastflush]) hbl
    rw [hfin] at hatt
    have hp₂ := hpb.after_flush (hf₂ buf htake)
    exact ⟨_, bs', tp', (steady_attempt F st).returns hatt, hbl', hflush,
      ⟨hp₂.1, hp₂.2, hp₂.3, hp₂.4, hp₂.5, hp₂.6⟩⟩

/-- The bits of the chunk that are left after the last used sector, of those up to the padding. -/
theorem scatter_of_flush_padTo {bad : ℕ → Bool} {bs' : List Bool} {tp tp' : Tape Sector} {b : ℕ}
    (hf : flush bad (bits (padTo 22016 c.slice)) c.sectors tp = some (bs', tp'))
    (hleft : b + bs'.length = 8 * (padTo 22016 c.slice).length) :
    ∃ n, scatter bad (bits c.slice) c.sectors tp = tp'.skip n ∧ b + n = 8 * c.slice.length := by
  obtain ⟨bs₂, tp₂, hf₂⟩ := @flush_eq_some _ bad (bits c.slice) c.sectors c.length_sectors.le tp
  have happ := flush_append_bits hf₂ (List.replicate (8 * (22016 - c.slice.length)) false)
  rw [← bits_padTo c.slice_le, hf] at happ
  simp only [Option.some.injEq, Prod.mk.injEq] at happ
  obtain ⟨hbs, rfl⟩ := happ
  rw [hbs, List.length_append, List.length_replicate, length_padTo] at hleft
  have hle := c.slice_le
  exact ⟨bs₂.length, scatter_of_flush hf₂, by omega⟩

/-- What the seek over the sectors after the last used one leads to: the target is as after
`scatter`, with the head where it should be unless the seek fails. -/
theorem Placed.skipRest {bs' : List Bool} {tp' : Tape Sector}
    (h : Placed t f c.slice.length (padTo 22016 c.slice) bs' tp' st)
    (hf : flush t.bad (bits (padTo 22016 c.slice)) c.sectors tp = some (bs', tp')) :
    ∃ p, st.skipRest.fo = t.load ⟨p, (scatter t.bad (bits c.slice) c.sectors tp).cells⟩ ∧
      (t.seekable (512 * (scatter t.bad (bits c.slice) c.sectors tp).pos) = true →
        p = (scatter t.bad (bits c.slice) c.sectors tp).pos) := by
  obtain ⟨n, hscatter, hleft⟩ := scatter_of_flush_padTo hf h.length_left
  rw [hscatter, Tape.skip_pos, Tape.skip_cells]
  unfold RestoreState.skipRest
  rw [h.bitmaplg]
  split_ifs with hcond
  · have hn : ((c.slice.length : ℤ) * 8 - st.bitindex).toNat = n := by omega
    simp only [hn, h.fo]
    by_cases hs : t.seekable (512 * (tp'.pos + n)) = true
    · exact ⟨tp'.pos + n, Target.lseekCur_load tp' hs, fun _ => rfl⟩
    · refine ⟨tp'.pos, ?_, fun h => absurd h hs⟩
      unfold Target.lseekCur Target.lseekSet
      rw [Target.load_off, ← Nat.mul_add]
      exact if_neg hs
  · refine ⟨tp'.pos, h.fo, fun _ => ?_⟩
    have : n = 0 := by omega
    omega

/-- The file number `k` holds chunk `c` of an image of `nb` chunks. -/
structure Served (m : ZMachine) (fetch : Fetch) (name : Bytes) (nb k : ℕ) (c : Chunk) : Prop where
  file : ∃ F, fetch (chunkName name k) 0 = some F ∧ Decodes m F c.payload
  blocks : headerInt (ascii "BLOCKS=") c.header = if k = 0 then some (nb : ℤ) else none
  alloc : headerInt (ascii "ALLOCTABLELG=") c.header = some (c.slice.length : ℤ)

variable {fetch : Fetch} {name : Bytes} {k nb : ℕ}

/-- **A chunk**, from the attempt whose file decodes on. -/
theorem restoreChunk_spec {n : ℕ} (hfile : fetch (chunkName name k) n = some F)
    (hdec : Decodes m F c.payload)
    (halloc : headerInt (ascii "ALLOCTABLELG=") c.header = some (c.slice.length : ℤ))
    (hfo : st.fo = t.load tp) (hbuf : st.buffer.length = 24064)
    (hr : Reaches t tp.pos (bits c.slice)) :
    ∃ st' p, Returns (fun fuel => restoreChunk m fetch name k fuel n st) st' ∧
      st'.buffer.length = 24064 ∧
      st'.fmax = (headerInt (ascii "BLOCKS=") c.header).getD st.fmax ∧
      st'.fo = t.load ⟨p, (scatter t.bad (bits c.slice) c.sectors tp).cells⟩ ∧
      (t.seekable (512 * (scatter t.bad (bits c.slice) c.sectors tp).pos) = true →
        p = (scatter t.bad (bits c.slice) c.sectors tp).pos) := by
  obtain ⟨st', bs', tp', hret, hbl, hf, hp⟩ := attempt_of_decodes hdec hfo hbuf hr
  rw [halloc, Option.getD_some] at hp
  obtain ⟨p, hp1, hp2⟩ := hp.skipRest hf
  have hkeep : st'.skipRest.buffer = st'.buffer ∧ st'.skipRest.fmax = st'.fmax := by
    unfold RestoreState.skipRest; split_ifs <;> exact ⟨rfl, rfl⟩
  refine ⟨st'.skipRest, p, ?_, by rw [hkeep.1, hbl], by rw [hkeep.2, hp.fmax], hp1, hp2⟩
  refine Returns.step (g := fun fuel => attempt m fuel F st >>= fun r =>
      if r.1.neg then
        restoreChunk m fetch name k fuel (n + 1) { r.2 with fo := r.2.fo.lseekSet st.fo.off }
      else .ok r.2.skipRest) (fun fuel => ?_) (Returns.bind hret (Returns.pure _))
  rw [restoreChunk, hfile]

/-- One turn of the chunk loop. -/
theorem restoreLoop_turn {i : ℕ} (hfile : fetch (chunkName name i) 0 = some F) (log : List Bytes)
    (st : RestoreState) (fuel : ℕ) : restoreLoop m fetch name (fuel + 1) i log st =
      restoreChunk m fetch name i fuel 0 st >>= fun st =>
        if st.fmax ≠ -1 ∧ st.fmax ≤ (i + 1 : ℕ) then .ok (log ++ [chunkName name i], st)
        else restoreLoop m fetch name fuel (i + 1) (log ++ [chunkName name i]) st := by
  rw [restoreLoop]
  simp only [hfile]

/-- The loop goes on from what `restoreChunk` has returned. -/
theorem restoreLoop_chunk {i : ℕ} (hfile : fetch (chunkName name i) 0 = some F) (log : List Bytes)
    {st st₁ : RestoreState} (hret : Returns (fun fuel => restoreChunk m fetch name i fuel 0 st) st₁) :
    Leads (fun fuel => restoreLoop m fetch name fuel i log st) fun fuel =>
      if st₁.fmax ≠ -1 ∧ st₁.fmax ≤ (i + 1 : ℕ) then .ok (log ++ [chunkName name i], st₁)
      else restoreLoop m fetch name fuel (i + 1) (log ++ [chunkName name i]) st₁ :=
  (Leads.step (restoreLoop_turn hfile log st)).trans (Leads.bind (g := fun fuel (st : RestoreState) =>
    if st.fmax ≠ -1 ∧ st.fmax ≤ (i + 1 : ℕ) then .ok (log ++ [chunkName name i], st)
    else restoreLoop m fetch name fuel (i + 1) (log ++ [chunkName name i]) st) hret)

/-- **The chunk loop** writes the sectors of the image with `scatter`. -/
theorem restoreLoop_spec (cs : List Chunk) : ∀ {i : ℕ} {tp : Tape Sector} {st : RestoreState}
    (log : List Bytes), cs ≠ [] → (∀ j c, cs[j]? = some c → Served m fetch name nb (i + j) c) →
    i + cs.length = nb → (i ≠ 0 → st.fmax = nb) → st.fo = t.load tp → st.buffer.length = 24064 →
    Reaches t tp.pos (imageBits cs) →
    ∃ st', Returns (fun fuel => restoreLoop m fetch name fuel i log st)
        (log ++ (List.range' i cs.length).map (chunkName name), st') ∧
      st'.fo.cells = (scatter t.bad (imageBits cs) (imageSectors cs) tp).cells := by
  induction cs with
  | nil => intro i tp st log h; exact absurd rfl h
  | cons c cs ih =>
    intro i tp st log _ hserved hnb hfmax hfo hbuf hr
    have hc : Served m fetch name nb i c := hserved 0 c rfl
    obtain ⟨F, hfile, hdec⟩ := hc.file
    have hr₀ : Reaches t tp.pos (bits c.slice) := by
      intro q hq
      refine hr q ?_
      rw [imageBits_cons, ones_append]
      exact List.mem_append_left _ hq
    obtain ⟨st₁, p, hret₁, hbuf₁, hfmax₁, hfo₁, hp⟩ :=
      restoreChunk_spec hfile hdec hc.alloc hfo hbuf hr₀
    have hfm : st₁.fmax = nb := by
      rw [hfmax₁, hc.blocks]
      split_ifs with h0
      · rfl
      · exact hfmax h0
    rw [imageBits_cons, imageSectors_cons, scatter_append c.length_sectors]
    obtain ⟨tp₁, htp₁⟩ : ∃ tp₁, tp₁ = scatter t.bad (bits c.slice) c.sectors tp := ⟨_, rfl⟩
    rw [← htp₁] at hfo₁ hp ⊢
    have hpos : tp₁.pos ≤ tp.pos + (bits c.slice).length := by
      rw [htp₁]; exact scatter_pos_le _ _ _
    rw [imageBits_cons] at hr
    have hr₁ : Reaches t tp₁.pos (imageBits cs) := hr.of_le _ hpos
    have hhead : ones tp₁.pos (imageBits cs) ≠ [] → p = tp₁.pos := by
      intro hne
      obtain ⟨q, hq⟩ := List.exists_mem_of_ne_nil _ hne
      exact hp (hr₁ q hq _ (Nat.mul_le_mul_left _ (le_of_mem_ones hq)))
    have hlead := restoreLoop_chunk hfile log hret₁
    rw [List.length_cons] at hnb
    by_cases hlast : cs = []
    · subst hlast
      have hstop : st₁.fmax ≠ -1 ∧ st₁.fmax ≤ (i + 1 : ℕ) :=
        ⟨by rw [hfm]; omega, by rw [hfm, ← hnb]; rfl⟩
      refine ⟨st₁, (hlead.congr fun fuel => if_pos hstop).returns (Returns.pure _), ?_⟩
      rw [hfo₁]; rfl
    · have hcs : 0 < cs.length := List.length_pos_iff.mpr hlast
      obtain ⟨st', hret, hcells⟩ := @ih (i + 1) ⟨p, tp₁.cells⟩ st₁ (log ++ [chunkName name i]) hlast
        (fun j c hj => by
          rw [show i + 1 + j = i + (j + 1) by ring]; exact hserved (j + 1) c hj)
        (by omega) (fun _ => hfm) hfo₁ hbuf₁ (hr₁.congr hhead)
      refine ⟨st', (hlead.congr fun fuel => if_neg (by rw [hfm]; omega)).returns ?_, ?_⟩
      · rw [List.length_cons, List.range'_succ, List.map_cons]
        rw [List.append_assoc, List.singleton_append] at hret
        exact hret
      · rw [hcells]
        exact scatter_cells_congr (length_imageSectors cs) hhead

end Chunks

end Placed

end LinboxRescue
