import LinboxRescue.Image.RoundTrip

/-!
# Restoring after corrupted chunks

`restore` writes every full buffer to the disk as soon as it has it. When `inflate` then fails, the
file is fetched again and the chunk is written once more from its first sector, but what the
corrupted version wrote, where its own bitmap put it, is not taken back, and the number of chunks
read from its header stays.

1. `attempt_of_fails'`: the buffers a version delivers before the error are scattered over its own
   bitmap; with more sectors than set bits the scan runs off the bitmap.
2. `restoreChunk_fails`: a list of versions does so in turn, always from the same sector.
3. `restore_retry`: the rest of the image follows, up to the number of chunks believed.
4. `cleanRetry_iff`: what a version may deliver for this to leave no trace.
-/

namespace LinboxRescue

/-! ## A version on which `inflate` fails -/

/-- Reading the file `V`, `inflate` delivers `w` and reports an error. -/
structure Fails (m : ZMachine) (V : Bytes) (w : Inflated) : Prop where
  returns : Returns (fun fuel => inflated m fuel (Inflater.start m V) []) w
  ret : w.ret.neg = true
  fin : w.fin.neg = true

/-- The number of chunks given in the header, when one was delivered. -/
def Inflated.blocks (w : Inflated) : Option ℤ :=
  match w.full with
  | [] => none
  | h :: _ => headerInt (ascii "BLOCKS=") h

/-- The bitmap in the header. -/
def Inflated.table (w : Inflated) : List Bool :=
  match w.full with
  | [] => []
  | h :: _ => bits (h.drop 2048)

/-- The sectors in the full buffers after the header. -/
def Inflated.data (w : Inflated) : List Sector := dataSectors w.full.tail

/-- No sector is bad. -/
def noBad : ℕ → Bool := fun _ => false

theorem noBad_good (qs : List ℕ) : ∀ q ∈ qs, noBad q = false := fun _ _ => rfl

/-- What a version leaves on the disk, the head being back where it was. -/
def spoil (tp : Tape Sector) (w : Inflated) : Tape Sector :=
  { tp with cells := (scatter noBad w.table w.data tp).cells }

/-- The bitmap of a version has room for its sectors. -/
def Inflated.Fits (w : Inflated) : Prop := w.data.length ≤ w.table.count true

instance (w : Inflated) : Decidable w.Fits := inferInstanceAs (Decidable (_ ≤ _))

theorem length_dataSectors (ds : List Bytes) : (dataSectors ds).length = 47 * ds.length := by
  induction ds with
  | nil => rfl
  | cons b ds ih =>
    rw [dataSectors, List.flatMap_cons, List.length_append]
    change _ + (dataSectors ds).length = _
    rw [ih, bufferSectors, List.length_map, List.length_range, List.length_cons]
    ring

section Versions

variable {t : Target} (hbad : t.bad = noBad) (hseek : ∀ o, t.seekable o = true)
  {m : ZMachine} {V : Bytes} {w : Inflated} {tp : Tape Sector} {st : RestoreState}

theorem reaches_of_seekable (hseek : ∀ o, t.seekable o = true) (p : ℕ) (bs : List Bool) :
    Reaches t p bs := fun _ _ o _ => hseek o

include hbad hseek in
/-- The buffers of a version whose bitmap has room for them. -/
theorem fold_of_fits (hlen : ∀ b ∈ w.full, b.length = 24064) (hfo : st.fo = t.load tp) (hfit : w.Fits) :
    ∃ st' p, w.full.foldlM drainWith st.begin = .ok st' ∧
      st'.fmax = w.blocks.getD st.fmax ∧ st'.fo = t.load ⟨p, (spoil tp w).cells⟩ := by
  cases hfull : w.full with
  | nil =>
    refine ⟨st.begin, tp.pos, rfl, ?_, ?_⟩
    · rw [Inflated.blocks, hfull]; rfl
    · rw [spoil, Inflated.table, Inflated.data, hfull]
      exact hfo
  | cons h ds =>
    have htable : w.table = bits (h.drop 2048) := by rw [Inflated.table, hfull]
    have hdata : w.data = dataSectors ds := by rw [Inflated.data, hfull]; rfl
    rw [hfull, List.forall_mem_cons] at hlen
    obtain ⟨st₀, hd₀, hfp₀, hp₀⟩ := drainWith_begin hfo hlen.1
    obtain ⟨bs', tp', hflush⟩ := @flush_eq_some _ t.bad w.table w.data hfit tp
    rw [htable, hdata] at hflush
    obtain ⟨st₁, hd₁, -, hp₁⟩ := Placed.drain_ok ds hp₀ hfp₀ (reaches_of_seekable hseek _ _) hflush
    refine ⟨st₁, tp'.pos, ?_, ?_, ?_⟩
    · rw [List.foldlM_cons, hd₀]; exact hd₁
    · rw [hp₁.fmax, Inflated.blocks, hfull]
    · rw [hp₁.fo, spoil, htable, hdata, ← hbad, scatter_of_flush hflush]
      rfl

include hseek in
/-- The buffers of a version whose bitmap has no room for them. -/
theorem fold_of_not_fits (hlen : ∀ b ∈ w.full, b.length = 24064) (hfo : st.fo = t.load tp)
    (hfit : ¬ w.Fits) : w.full.foldlM drainWith st.begin = .error .bitmapOverrun := by
  cases hfull : w.full with
  | nil =>
    refine absurd ?_ hfit
    rw [Inflated.Fits, Inflated.data, hfull]
    exact Nat.zero_le _
  | cons h ds =>
    have htable : w.table = bits (h.drop 2048) := by rw [Inflated.table, hfull]
    have hdata : w.data = dataSectors ds := by rw [Inflated.data, hfull]; rfl
    rw [hfull, List.forall_mem_cons] at hlen
    obtain ⟨st₀, hd₀, hfp₀, hp₀⟩ := drainWith_begin hfo hlen.1
    rw [Inflated.Fits, htable, hdata, Nat.not_le] at hfit
    rw [List.foldlM_cons, hd₀]
    exact Placed.drain_error ds hp₀ hfp₀ (reaches_of_seekable hseek _ _) (flush_eq_none hfit tp)

include hbad hseek in
/-- **A failing attempt.** -/
theorem attempt_of_fails' (hV : Fails m V w) (hfo : st.fo = t.load tp)
    (hbuf : st.buffer.length = 24064) (hfit : w.Fits) :
    ∃ st' p, Returns (fun fuel => attempt m fuel V st) (w.fin, st') ∧ st'.buffer.length = 24064 ∧
      st'.fmax = w.blocks.getD st.fmax ∧ st'.fo = t.load ⟨p, (spoil tp w).cells⟩ := by
  obtain ⟨n, hn⟩ := hV.returns
  obtain ⟨st', p, hfold, hfmax, hfo'⟩ :=
    fold_of_fits hbad hseek (length_of_mem_full (hn n le_rfl) rfl) hfo hfit
  have hret : w.ret ≠ .streamEnd := fun h => by have := hV.ret; rw [h] at this; cases this
  obtain ⟨buf, hbl, hatt⟩ := attempt_of_fails (hn n le_rfl) hbuf hfold hret
  exact ⟨_, p, (steady_attempt V st).returns hatt, hbl, hfmax, hfo'⟩

include hseek in
/-- An attempt that runs off the bitmap. -/
theorem attempt_overrun (hV : Fails m V w) (hfo : st.fo = t.load tp)
    (hbuf : st.buffer.length = 24064) (hfit : ¬ w.Fits) :
    Stops (fun fuel => attempt m fuel V st) .bitmapOverrun := by
  obtain ⟨n, hn⟩ := hV.returns
  refine ⟨n, fun fuel hf => attempt_of_error (hn fuel hf) hbuf ?_⟩
  exact fold_of_not_fits hseek (length_of_mem_full (hn n le_rfl) rfl) hfo hfit

variable {fetch : Fetch} {name : Bytes} {k : ℕ}

/-- One failing attempt at a chunk. -/
theorem restoreChunk_turn {n : ℕ} (hfile : fetch (chunkName name k) n = some V) (fuel : ℕ) :
    restoreChunk m fetch name k (fuel + 1) n st = attempt m fuel V st >>= fun (ret, st') =>
      if ret.neg then restoreChunk m fetch name k fuel (n + 1) { st' with fo := st'.fo.lseekSet st.fo.off }
      else .ok st'.skipRest := by
  rw [restoreChunk, hfile]

include hbad hseek in
/-- A failing attempt leads to the next one. -/
theorem restoreChunk_retry {n : ℕ} (hfile : fetch (chunkName name k) n = some V) (hV : Fails m V w)
    (hfo : st.fo = t.load tp) (hbuf : st.buffer.length = 24064) (hfit : w.Fits) :
    ∃ st', Leads (fun fuel => restoreChunk m fetch name k fuel n st)
        (fun fuel => restoreChunk m fetch name k fuel (n + 1) st') ∧
      st'.buffer.length = 24064 ∧ st'.fmax = w.blocks.getD st.fmax ∧ st'.fo = t.load (spoil tp w) := by
  obtain ⟨st₁, p, hret₁, hbuf₁, hfmax₁, hfo₁⟩ := attempt_of_fails' hbad hseek hV hfo hbuf hfit
  refine ⟨{ st₁ with fo := st₁.fo.lseekSet st.fo.off }, ?_, hbuf₁, hfmax₁, ?_⟩
  · refine (Leads.step (restoreChunk_turn hfile)).trans ((Leads.bind hret₁).congr fun fuel => ?_)
    exact if_pos hV.fin
  · show st₁.fo.lseekSet st.fo.off = _
    rw [hfo₁, hfo]
    exact Target.lseekSet_load _ (hseek _)

include hbad hseek in
/-- **Failing versions in turn.** -/
theorem restoreChunk_fails {Vs : List Bytes} {ws : List Inflated} (hVs : List.Forall₂ (Fails m) Vs ws) :
    ∀ {n : ℕ} {tp : Tape Sector} {st : RestoreState},
      (∀ a V, Vs[a]? = some V → fetch (chunkName name k) (n + a) = some V) → st.fo = t.load tp →
      st.buffer.length = 24064 → (∀ w ∈ ws, w.Fits) →
      ∃ st', Leads (fun fuel => restoreChunk m fetch name k fuel n st)
          (fun fuel => restoreChunk m fetch name k fuel (n + Vs.length) st') ∧
        st'.buffer.length = 24064 ∧ st'.fmax = ws.foldl (fun f w => w.blocks.getD f) st.fmax ∧
        st'.fo = t.load (ws.foldl spoil tp) := by
  induction hVs with
  | nil => intro n tp st _ hfo hbuf _; exact ⟨st, Leads.refl _, hbuf, rfl, hfo⟩
  | @cons V w Vs ws hV _ ih =>
    intro n tp st hfile hfo hbuf hfit
    rw [List.forall_mem_cons] at hfit
    obtain ⟨st₁, hlead₁, hbuf₁, hfmax₁, hfo₁⟩ :=
      restoreChunk_retry hbad hseek (hfile 0 V rfl) hV hfo hbuf hfit.1
    obtain ⟨st', hlead, hbuf', hfmax', hfo'⟩ := @ih (n + 1) (spoil tp w) st₁
      (fun a V' h => by rw [show n + 1 + a = n + (a + 1) by ring]; exact hfile (a + 1) V' h)
      hfo₁ hbuf₁ hfit.2
    refine ⟨st', ?_, hbuf', ?_, hfo'⟩
    · rw [List.length_cons, show n + (Vs.length + 1) = n + 1 + Vs.length by ring]
      exact hlead₁.trans hlead
    · rw [hfmax', List.foldl_cons, ← hfmax₁]

include hbad hseek in
/-- The first version without room stops `restore`. -/
theorem restoreChunk_overrun {Vs : List Bytes} {ws : List Inflated}
    (hVs : List.Forall₂ (Fails m) Vs ws) : ∀ {n : ℕ} {tp : Tape Sector} {st : RestoreState},
      (∀ a V, Vs[a]? = some V → fetch (chunkName name k) (n + a) = some V) → st.fo = t.load tp →
      st.buffer.length = 24064 → (¬ ∀ w ∈ ws, w.Fits) →
      Stops (fun fuel => restoreChunk m fetch name k fuel n st) .bitmapOverrun := by
  induction hVs with
  | nil => intro n tp st _ _ _ h; exact absurd (by simp) h
  | @cons V w Vs ws hV _ ih =>
    intro n tp st hfile hfo hbuf hfit
    by_cases hw : w.Fits
    · obtain ⟨st₁, hlead₁, hbuf₁, -, hfo₁⟩ :=
        restoreChunk_retry hbad hseek (hfile 0 V rfl) hV hfo hbuf hw
      refine hlead₁.stops (ih (fun a V' h => ?_) hfo₁ hbuf₁ fun h => ?_)
      · rw [show n + 1 + a = n + (a + 1) by ring]; exact hfile (a + 1) V' h
      · exact hfit (List.forall_mem_cons.mpr ⟨hw, h⟩)
    · exact (Leads.step (restoreChunk_turn (hfile 0 V rfl))).stops
        ((attempt_overrun hseek hV hfo hbuf hw).bind _)

end Versions

/-! ## The chunks around it -/

section Loop

variable {t : Target} (hbad : t.bad = noBad) (hseek : ∀ o, t.seekable o = true)
  {m : ZMachine} {fetch : Fetch} {name : Bytes} {nb : ℕ}

include hbad hseek in
/-- A chunk, on a disk without errors. -/
theorem restoreChunk_ok {k n : ℕ} {c : Chunk} {F : Bytes} {tp : Tape Sector} {st : RestoreState}
    (hfile : fetch (chunkName name k) n = some F) (hdec : Decodes m F c.payload)
    (halloc : headerInt (ascii "ALLOCTABLELG=") c.header = some (c.slice.length : ℤ))
    (hfo : st.fo = t.load tp) (hbuf : st.buffer.length = 24064) :
    ∃ st', Returns (fun fuel => restoreChunk m fetch name k fuel n st) st' ∧
      st'.buffer.length = 24064 ∧
      st'.fmax = (headerInt (ascii "BLOCKS=") c.header).getD st.fmax ∧
      st'.fo = t.load (scatter noBad (bits c.slice) c.sectors tp) := by
  obtain ⟨st', p, hret, hbl, hfmax, hfo', hp⟩ :=
    restoreChunk_spec hfile hdec halloc hfo hbuf (reaches_of_seekable hseek _ _)
  rw [hp (hseek _), hbad] at hfo'
  exact ⟨st', hret, hbl, hfmax, hfo'⟩

include hbad hseek in
/-- The chunks before one that is not the first left out. -/
theorem restoreLoop_leads (cs : List Chunk) : ∀ {i : ℕ} {tp : Tape Sector} {st : RestoreState}
    (log : List Bytes), (∀ j c, cs[j]? = some c → Served m fetch name nb (i + j) c) →
    i + cs.length < nb → (i ≠ 0 → st.fmax = nb) → st.fo = t.load tp → st.buffer.length = 24064 →
    ∃ log' st', Leads (fun fuel => restoreLoop m fetch name fuel i log st)
        (fun fuel => restoreLoop m fetch name fuel (i + cs.length) log' st') ∧
      st'.buffer.length = 24064 ∧ st'.fmax = (if i + cs.length = 0 then st.fmax else (nb : ℤ)) ∧
      st'.fo = t.load (scatter noBad (imageBits cs) (imageSectors cs) tp) := by
  induction cs with
  | nil =>
    intro i tp st log _ _ hfmax hfo hbuf
    refine ⟨log, st, Leads.refl _, hbuf, ?_, hfo⟩
    split_ifs with h
    · rfl
    · exact hfmax h
  | cons c cs ih =>
    intro i tp st log hserved hnb hfmax hfo hbuf
    rw [List.length_cons] at hnb
    have hc : Served m fetch name nb i c := hserved 0 c rfl
    obtain ⟨F, hfile, hdec⟩ := hc.file
    obtain ⟨st₁, hret₁, hbuf₁, hfmax₁, hfo₁⟩ :=
      restoreChunk_ok hbad hseek hfile hdec hc.alloc hfo hbuf
    have hfm : st₁.fmax = nb := by
      rw [hfmax₁, hc.blocks]
      split_ifs with h0
      · rfl
      · exact hfmax h0
    obtain ⟨log', st', hlead, hbuf', hfmax', hfo'⟩ := ih (log ++ [chunkName name i])
      (fun j c hj => by rw [show i + 1 + j = i + (j + 1) by ring]; exact hserved (j + 1) c hj)
      (by omega) (fun _ => hfm) hfo₁ hbuf₁
    refine ⟨log', st', ?_, hbuf', ?_, ?_⟩
    · rw [List.length_cons, show i + (cs.length + 1) = i + 1 + cs.length by ring]
      refine Leads.trans ?_ hlead
      exact (restoreLoop_chunk hfile log hret₁).congr fun fuel => if_neg (by rw [hfm]; omega)
    · rw [hfmax', if_neg (by omega), if_neg (by simp)]
    · rw [hfo', imageBits_cons, imageSectors_cons, scatter_append c.length_sectors]

/-- How many of the chunks from number `i` on are restored when `f` is the number of chunks
believed in. -/
def chunksLeft (f : ℤ) (i n : ℕ) : ℕ := if f = -1 then n else (f - i).toNat

include hbad hseek in
/-- The chunks after the first one: they are restored up to the number believed in, or until a file
is missing. -/
theorem restoreLoop_rest {f : ℤ} (cs : List Chunk) : ∀ {i : ℕ} {tp : Tape Sector} {st : RestoreState}
    (log : List Bytes), (∀ j c, cs[j]? = some c → Served m fetch name nb (i + j) c) →
    fetch (chunkName name (i + cs.length)) 0 = none → i ≠ 0 → st.fmax = f → (f = -1 ∨ (i : ℤ) < f) →
    st.fo = t.load tp → st.buffer.length = 24064 →
    ∃ log' st', Returns (fun fuel => restoreLoop m fetch name fuel i log st) (log', st') ∧
      st'.fo = t.load (scatter noBad (imageBits (cs.take (chunksLeft f i cs.length)))
        (imageSectors (cs.take (chunksLeft f i cs.length))) tp) := by
  induction cs with
  | nil =>
    intro i tp st log _ hnone _ _ _ hfo _
    refine ⟨log ++ [chunkName name i], st, Returns.last fun fuel => ?_, ?_⟩
    · rw [List.length_nil, Nat.add_zero] at hnone
      rw [restoreLoop]
      simp only [hnone]
    · rw [List.take_nil]; exact hfo
  | cons c cs ih =>
    intro i tp st log hserved hnone hi hfmax hf hfo hbuf
    have hc : Served m fetch name nb i c := hserved 0 c rfl
    obtain ⟨F, hfile, hdec⟩ := hc.file
    obtain ⟨st₁, hret₁, hbuf₁, hfmax₁, hfo₁⟩ :=
      restoreChunk_ok hbad hseek hfile hdec hc.alloc hfo hbuf
    have hfm : st₁.fmax = f := by
      rw [hfmax₁, hc.blocks, if_neg hi]; exact hfmax
    have hlead := restoreLoop_chunk hfile log hret₁
    have hleft : chunksLeft f i (cs.length + 1) = chunksLeft f (i + 1) cs.length + 1 := by
      unfold chunksLeft
      split_ifs <;> omega
    rw [List.length_cons, hleft, List.take_succ_cons, imageBits_cons, imageSectors_cons,
      scatter_append c.length_sectors]
    by_cases hstop : st₁.fmax ≠ -1 ∧ st₁.fmax ≤ (i + 1 : ℕ)
    · refine ⟨_, st₁, (hlead.congr fun fuel => if_pos hstop).returns (Returns.pure _), ?_⟩
      rw [hfm] at hstop
      rw [show chunksLeft f (i + 1) cs.length = 0 by
        unfold chunksLeft; rw [if_neg hstop.1]; omega]
      exact hfo₁
    · obtain ⟨log', st', hret, hfo'⟩ := ih (log ++ [chunkName name i])
        (fun j c hj => by rw [show i + 1 + j = i + (j + 1) by ring]; exact hserved (j + 1) c hj)
        (by rw [show i + 1 + cs.length = i + (cs.length + 1) by ring]; exact hnone) (by omega) hfm
        (by rw [hfm] at hstop; omega) hfo₁ hbuf₁
      exact ⟨log', st', (hlead.congr fun fuel => if_neg hstop).returns hret, hfo'⟩

end Loop

/-! ## The whole image -/

/-- The files of a directory, of which `f` is read in the versions `Vs` before the right one. -/
def Dir.retry (dir : Dir) (f : Bytes) (Vs : List Bytes) : Fetch :=
  fun g n => if g = f then Vs[n]?.or (dir g) else dir g

/-- The number of chunks believed in once chunk `k` is restored. -/
def believed (nb k : ℕ) (ws : List Inflated) : ℤ :=
  if k = 0 then nb else ws.foldl (fun f w => w.blocks.getD f) (nb : ℤ)

/-- The number of the first chunk that is not restored. -/
def stopsAt (nb k : ℕ) (ws : List Inflated) : ℕ :=
  if believed nb k ws = -1 then nb else max (k + 1) (believed nb k ws).toNat

theorem stopsAt_eq {nb k : ℕ} (hk : k < nb) (ws : List Inflated) :
    stopsAt nb k ws = k + (1 + chunksLeft (believed nb k ws) (k + 1) (nb - (k + 1))) := by
  unfold stopsAt chunksLeft
  split_ifs <;> omega

section Retried

variable {dir : Dir} {f F : Bytes} {Vs : List Bytes}

theorem Dir.retry_version {a : ℕ} {V : Bytes} (h : Vs[a]? = some V) : dir.retry f Vs f a = some V := by
  rw [Dir.retry, if_pos rfl, h]
  rfl

theorem Dir.retry_right (h : dir f = some F) : dir.retry f Vs f Vs.length = some F := by
  rw [Dir.retry, if_pos rfl, List.getElem?_eq_none le_rfl, h]
  rfl

theorem Dir.retry_of_ne {g : Bytes} (h : g ≠ f) (n : ℕ) : dir.retry f Vs g n = dir g := if_neg h

theorem Dir.exists_retry_zero (Vs : List Bytes) (h : dir f = some F) :
    ∃ F₀, dir.retry f Vs f 0 = some F₀ := by
  cases Vs with
  | nil => exact ⟨F, Dir.retry_right h⟩
  | cons V Vs => exact ⟨V, Dir.retry_version rfl⟩

end Retried

section Image

variable {z : Zlib} (hz : z.Contract) {d : Source} (hseek : ∀ o, d.seekable o = true)
  {im : Imager} {p : Params} {buffer name : Bytes} {k : ℕ} {Vs : List Bytes} {ws : List Inflated}

theorem served_retry {dir : Dir} (hz : z.Contract)
    (hholds : Holds z dir name 0 (volumeChunks d im p buffer)) {j : ℕ} {c : Chunk}
    (hc : (volumeChunks d im p buffer)[j]? = some c) (hj : j ≠ k) :
    Served z.inflate (dir.retry (chunkName name k) Vs) name p.nb j c := by
  obtain ⟨F, hF, hfile⟩ := hholds j c hc
  rw [Nat.zero_add] at hF
  refine ⟨⟨F, ?_, hfile.decodes hz⟩, headerInt_blocks_volumeChunks hc, headerInt_alloc_volumeChunks hc⟩
  rw [Dir.retry_of_ne fun e => hj (chunkName_injective name e), hF]

/-- The disk when chunk `k` has been read in the versions `ws`. -/
def spoiled (d : Source) (im : Imager) (p : Params) (buffer : Bytes) (k : ℕ) (ws : List Inflated)
    (tp : Tape Sector) : Tape Sector :=
  ws.foldl spoil (scatter noBad (imageBits ((volumeChunks d im p buffer).take k))
    (imageSectors ((volumeChunks d im p buffer).take k)) tp)

/-- The chunks restored after that. -/
def remaining (d : Source) (im : Imager) (p : Params) (buffer : Bytes) (k : ℕ) (ws : List Inflated) :
    List Chunk :=
  ((volumeChunks d im p buffer).take (stopsAt p.nb k ws)).drop k

/-- Chunk `k` is the first of them. -/
theorem remaining_eq_cons (hk : k < p.nb) {c : Chunk} (hc : (volumeChunks d im p buffer)[k]? = some c) :
    remaining d im p buffer k ws = c :: ((volumeChunks d im p buffer).drop (k + 1)).take
      (chunksLeft (believed p.nb k ws) (k + 1) ((volumeChunks d im p buffer).drop (k + 1)).length) := by
  have hlen : (volumeChunks d im p buffer).length = p.nb := length_savedChunks _ _ _ _ _
  obtain ⟨hlt, hget⟩ := List.getElem?_eq_some_iff.mp hc
  rw [remaining, stopsAt_eq hk, List.drop_take, Nat.add_sub_cancel_left, List.drop_eq_getElem_cons hlt,
    hget, Nat.add_comm 1, List.take_succ_cons, List.length_drop, hlen]

include hz hseek in
/-- **Restoring with corrupted versions of chunk `k`.** -/
theorem restore_retry (hbuf : buffer.length = 24064) (hk : k < p.nb)
    (hVs : List.Forall₂ (Fails z.inflate) Vs ws) (mem : Memory) (T : ℕ → Sector) (s : ℕ) :
    ∃ v, Returns (fun fuel => compressVolume z fuel name none im p (d.seekTo 0) buffer Dir.empty) v ∧
      ((¬ ∀ w ∈ ws, w.Fits) → Stops (fun fuel => restore z.inflate fuel
        (v.dir.retry (chunkName name k) Vs) mem (openTarget T noBad) s name) .bitmapOverrun) ∧
      ((∀ w ∈ ws, w.Fits) → ∃ log st, Returns (fun fuel => restore z.inflate fuel
          (v.dir.retry (chunkName name k) Vs) mem (openTarget T noBad) s name) (log, st) ∧
        st.fo.cells = (scatter noBad (imageBits (remaining d im p buffer k ws))
          (imageSectors (remaining d im p buffer k ws))
          (spoiled d im p buffer k ws ⟨s, T⟩)).cells) := by
  obtain ⟨v, hret, hholds, hkeep⟩ := compressVolume_spec hz hseek name im p hbuf Dir.empty
  refine ⟨v, hret, ?_⟩
  obtain ⟨cs, hcs⟩ : ∃ cs, cs = volumeChunks d im p buffer := ⟨_, rfl⟩
  have hlen : cs.length = p.nb := by rw [hcs]; exact length_savedChunks _ _ _ _ _
  have hserved : ∀ j c, cs[j]? = some c → j ≠ k →
      Served z.inflate (v.dir.retry (chunkName name k) Vs) name p.nb j c := by
    intro j c hc hj
    rw [hcs] at hc
    exact served_retry hz hholds hc hj
  obtain ⟨c, hc⟩ : ∃ c, cs[k]? = some c := ⟨_, List.getElem?_eq_getElem (by rw [hlen]; exact hk)⟩
  obtain ⟨F, hF, hfile⟩ := hholds k c (by rw [← hcs]; exact hc)
  rw [Nat.zero_add] at hF
  have hblocks : headerInt (ascii "BLOCKS=") c.header = if k = 0 then some (p.nb : ℤ) else none :=
    headerInt_blocks_volumeChunks (by rw [← hcs]; exact hc)
  have halloc : headerInt (ascii "ALLOCTABLELG=") c.header = some (c.slice.length : ℤ) :=
    headerInt_alloc_volumeChunks (by rw [← hcs]; exact hc)
  have hfetch : ∀ a V, Vs[a]? = some V →
      v.dir.retry (chunkName name k) Vs (chunkName name k) (0 + a) = some V := by
    intro a V h
    rw [Nat.zero_add]
    exact Dir.retry_version h
  have hfetchF : v.dir.retry (chunkName name k) Vs (chunkName name k) (0 + Vs.length) = some F := by
    rw [Nat.zero_add]
    exact Dir.retry_right hF
  obtain ⟨F₀, hF₀⟩ := Dir.exists_retry_zero Vs hF
  have htake : (cs.take k).length = k := by rw [List.length_take]; omega
  -- the chunks before number `k`
  obtain ⟨log₁, st₁, hlead₁, hbuf₁, hfmax₁, hfo₁⟩ := @restoreLoop_leads (openTarget T noBad) rfl
    (fun _ => rfl) z.inflate (v.dir.retry (chunkName name k) Vs) name p.nb (cs.take k) 0 ⟨s, T⟩
    { firstpass := true, fmax := -1, bitmaplg := 0, bitmap := mem.bitmap, bitindex := 0
      buffer := mem.buffer, fo := (openTarget T noBad).lseekSet (512 * s) } []
    (fun j c hj => by
      rw [List.getElem?_take] at hj
      split_ifs at hj with hjk
      rw [Nat.zero_add]
      exact hserved j c hj (by omega))
    (by omega) (fun h => absurd rfl h) rfl mem.length_buffer
  rw [Nat.zero_add, htake] at hlead₁ hfmax₁
  constructor
  · intro hfit
    have hover := @restoreChunk_overrun (openTarget T noBad) rfl (fun _ => rfl) z.inflate
      (v.dir.retry (chunkName name k) Vs) name k Vs ws hVs 0 _ st₁ hfetch hfo₁ hbuf₁ hfit
    exact (hlead₁.trans (Leads.step (restoreLoop_turn hF₀ log₁ st₁))).stops (hover.bind _)
  · intro hfit
    obtain ⟨st₂, hlead₂, hbuf₂, hfmax₂, hfo₂⟩ := @restoreChunk_fails (openTarget T noBad) rfl
      (fun _ => rfl) z.inflate (v.dir.retry (chunkName name k) Vs) name k Vs ws hVs 0 _ st₁ hfetch
      hfo₁ hbuf₁ hfit
    obtain ⟨st₃, hret₃, hbuf₃, hfmax₃, hfo₃⟩ := restoreChunk_ok (t := openTarget T noBad) rfl
      (fun _ => rfl) hfetchF (hfile.decodes hz) halloc hfo₂ hbuf₂
    have hfm : st₃.fmax = believed p.nb k ws := by
      rw [hfmax₃, hblocks, believed]
      split_ifs with h0
      · rfl
      · rw [Option.getD_none, hfmax₂, hfmax₁, if_neg h0]
    rw [remaining_eq_cons hk (by rw [← hcs]; exact hc), imageBits_cons, imageSectors_cons,
      scatter_append c.length_sectors, spoiled, ← hcs]
    have hlead := hlead₁.trans (restoreLoop_chunk hF₀ log₁ (hlead₂.returns hret₃))
    by_cases hstop : st₃.fmax ≠ -1 ∧ st₃.fmax ≤ (k + 1 : ℕ)
    · refine ⟨_, st₃, (hlead.congr fun fuel => if_pos hstop).returns (Returns.pure _), ?_⟩
      rw [hfm] at hstop
      rw [show chunksLeft (believed p.nb k ws) (k + 1) (cs.drop (k + 1)).length = 0 by
        unfold chunksLeft; rw [if_neg hstop.1]; omega, hfo₃]
      rfl
    · have hlast : k + 1 + (cs.drop (k + 1)).length = p.nb := by rw [List.length_drop]; omega
      obtain ⟨log', st', hret', hfo'⟩ := @restoreLoop_rest (openTarget T noBad) rfl (fun _ => rfl)
        z.inflate (v.dir.retry (chunkName name k) Vs) name p.nb (believed p.nb k ws) (cs.drop (k + 1))
        (k + 1) _ st₃ (log₁ ++ [chunkName name k])
        (fun j c hj => by rw [List.getElem?_drop] at hj; exact hserved _ c hj (by omega))
        (by
          rw [hlast, Dir.retry_of_ne fun e => by have := chunkName_injective name e; omega,
            hkeep _ (chunkName_ne_idx name _).symm fun j hj e => by
              have := chunkName_injective name e; omega]
          rfl)
        (by omega) hfm (by rw [hfm] at hstop; omega) hfo₃ hbuf₃
      exact ⟨log', st', (hlead.congr fun fuel => if_neg hstop).returns hret', by rw [hfo']; rfl⟩

end Image

/-! ## When it leaves no trace -/

/-- The sectors of the volume to which a version of chunk `k` is written. -/
def Inflated.places (k : ℕ) (w : Inflated) : List ℕ := (ones (176128 * k) w.table).take w.data.length

section Places

variable {k s : ℕ} {w : Inflated} {ws : List Inflated} {tp : Tape Sector}

theorem mem_places_add (htp : tp.pos = s + 176128 * k) {q : ℕ} :
    q ∈ (ones tp.pos w.table).take w.data.length ↔ ∃ i ∈ w.places k, q = s + i := by
  rw [htp, Nat.add_comm s, ones_add, ← List.map_take, List.mem_map]
  exact exists_congr fun i => and_congr_right fun _ => ⟨fun h => by omega, fun h => by omega⟩

/-- A bitmap covers one chunk. -/
theorem mem_places_window (hlen : w.table.length ≤ 176128) {i : ℕ} (hi : i ∈ w.places k) :
    176128 * k ≤ i ∧ i < 176128 * (k + 1) := by
  have hmem := List.mem_of_mem_take hi
  have h1 := le_of_mem_ones hmem
  have h2 := lt_of_mem_ones hmem
  omega

theorem Fails.length_table {m : ZMachine} {V : Bytes} (h : Fails m V w) : w.table.length ≤ 176128 := by
  obtain ⟨n, hn⟩ := h.returns
  have hfull := length_of_mem_full (hn n le_rfl) rfl
  unfold Inflated.table
  cases hw : w.full with
  | nil => exact Nat.zero_le _
  | cons b ds =>
    rw [hw, List.forall_mem_cons] at hfull
    show (bits (b.drop 2048)).length ≤ _
    rw [length_bits, List.length_drop, hfull.1]

@[simp] theorem foldl_spoil_pos : (ws.foldl spoil tp).pos = tp.pos := by
  induction ws generalizing tp with
  | nil => rfl
  | cons w ws ih => rw [List.foldl_cons, ih]; rfl

/-- Outside the places of the versions nothing changes. -/
theorem foldl_spoil_of_not_mem (htp : tp.pos = s + 176128 * k) {q : ℕ}
    (hq : ∀ w ∈ ws, ∀ i ∈ w.places k, q ≠ s + i) : (ws.foldl spoil tp).cells q = tp.cells q := by
  induction ws generalizing tp with
  | nil => rfl
  | cons w ws ih =>
    rw [List.forall_mem_cons] at hq
    rw [List.foldl_cons, @ih (spoil tp w) htp hq.2]
    refine scatter_cells_of_not_mem_take (fun _ _ => rfl) fun hmem => ?_
    obtain ⟨i, hi, e⟩ := (mem_places_add htp).mp hmem
    exact hq.1 i hi e

/-- At the place of a version what was there before is lost. -/
theorem foldl_spoil_congr {tp' : Tape Sector} (htp : tp.pos = s + 176128 * k) (hpos : tp'.pos = tp.pos)
    {i : ℕ} (h : tp.cells (s + i) = tp'.cells (s + i) ∨ ∃ w ∈ ws, i ∈ w.places k) :
    (ws.foldl spoil tp).cells (s + i) = (ws.foldl spoil tp').cells (s + i) := by
  induction ws generalizing tp tp' with
  | nil =>
    rcases h with h | ⟨w, hw, -⟩
    · exact h
    · cases hw
  | cons w ws ih =>
    rw [List.foldl_cons, List.foldl_cons]
    have hcell : i ∈ w.places k ∨ tp.cells (s + i) = tp'.cells (s + i) →
        (spoil tp w).cells (s + i) = (spoil tp' w).cells (s + i) := by
      intro hi
      have := @scatter_cells_eq _ noBad w.table w.data tp.pos tp.cells tp'.cells (s + i)
        (fun _ _ => rfl) fun hnot => ?_
      · rw [spoil, spoil, show tp' = ⟨tp.pos, tp'.cells⟩ by rw [← hpos]]
        exact this
      · rcases hi with hi | hi
        · exact absurd ((mem_places_add htp).mpr ⟨i, hi, rfl⟩) hnot
        · exact hi
    refine ih htp hpos ?_
    rcases h with h | ⟨w', hw', hi⟩
    · exact .inl (hcell (.inr h))
    · rcases List.mem_cons.mp hw' with rfl | hw'
      · exact .inl (hcell (.inl hi))
      · exact .inr ⟨w', hw', hi⟩

end Places

section Chunks

variable {d : Source}

theorem imageBits_append (as bs : List Chunk) : imageBits (as ++ bs) = imageBits as ++ imageBits bs := by
  simp [imageBits]

theorem imageSectors_append_chunks (as bs : List Chunk) :
    imageSectors (as ++ bs) = imageSectors as ++ imageSectors bs := by
  simp [imageSectors]

theorem imageBits_take_savedChunks {n : ℕ} {rest : Bytes} (h : rest.length ≤ 22016 * n)
    (first buffer : Bytes) (q k : ℕ) :
    imageBits ((savedChunks d n first rest buffer q).take k) = bits (rest.take (22016 * k)) := by
  induction n generalizing rest first buffer q k with
  | zero =>
    rw [Nat.mul_zero, Nat.le_zero, List.length_eq_zero_iff] at h
    rw [h, savedChunks, List.take_nil, List.take_nil]
    rfl
  | succ n ih =>
    cases k with
    | zero => rw [List.take_zero, Nat.mul_zero, List.take_zero]; rfl
    | succ k =>
      rw [savedChunks, List.take_succ_cons, imageBits_cons, ih (by rw [List.length_drop]; omega),
        ← bits_append, show 22016 * (k + 1) = 22016 + 22016 * k by ring, List.take_add]

variable {im : Imager} {p : Params} {buffer : Bytes}

theorem imageBits_take (k : ℕ) :
    imageBits ((volumeChunks d im p buffer).take k) = (bits p.bitmap).take (176128 * k) := by
  rw [volumeChunks, imageBits_take_savedChunks p.length_bitmap_le, bits_take]
  congr 1
  ring

/-- The bits and sectors of the chunks up to number `n`, in two parts. -/
theorem image_split {k n : ℕ} (hkn : k ≤ n) (cs : List Chunk) :
    imageBits (cs.take n) = imageBits (cs.take k) ++ imageBits ((cs.take n).drop k) ∧
    imageSectors (cs.take n) = imageSectors (cs.take k) ++ imageSectors ((cs.take n).drop k) := by
  have h : cs.take n = cs.take k ++ (cs.take n).drop k := by
    conv_lhs => rw [← List.take_append_drop k (cs.take n), List.take_take, Nat.min_eq_left hkn]
  exact ⟨by rw [← imageBits_append, ← h], by rw [← imageSectors_append_chunks, ← h]⟩

end Chunks

/-- When chunk `k` has been read in the versions `Vs` before the right one, every used sector holds
its data, nothing else has changed and `Bitmap` was never overrun, whatever the device and the disk
held. -/
def CleanRetry (z : Zlib) (p : Params) (k : ℕ) (Vs : List Bytes) : Prop :=
  ∀ (D : List Sector) (name : Bytes) (im : Imager) (buffer : Bytes) (mem : Memory) (T : ℕ → Sector)
    (s : ℕ), (∀ i, Used p.bitmap i → i < D.length) → buffer.length = 24064 →
    ∃ v log st, Returns (fun fuel => compressVolume z fuel name none im p
        (openSource D fun _ => false) buffer Dir.empty) v ∧
      Returns (fun fuel => restore z.inflate fuel (v.dir.retry (chunkName name k) Vs) mem
        (openTarget T fun _ => false) s name) (log, st) ∧
      (∀ i, Used p.bitmap i → D[i]? = some (st.fo.cells (s + i))) ∧
      ∀ q, (∀ i, Used p.bitmap i → q ≠ s + i) → st.fo.cells q = T q

section Clean

variable {z : Zlib} (hz : z.Contract) {p : Params} {k : ℕ} (hk : k < p.nb) {Vs : List Bytes}
  {ws : List Inflated} (hVs : List.Forall₂ (Fails z.inflate) Vs ws)

theorem lt_stopsAt (ws : List Inflated) (hk : k < p.nb) : k < stopsAt p.nb k ws := by
  rw [stopsAt_eq hk]; omega

theorem length_take_bits (hk : k < p.nb) : ((bits p.bitmap).take (176128 * k)).length = 176128 * k := by
  rw [List.length_take, length_bits]
  unfold Params.nb at hk
  omega

section Tapes

variable {d : Source} {im : Imager} {buffer : Bytes} {s : ℕ} {T : ℕ → Sector}

/-- The disk before chunk `k`. -/
def beforeChunk (d : Source) (im : Imager) (p : Params) (buffer : Bytes) (k : ℕ) (tp : Tape Sector) :
    Tape Sector :=
  scatter noBad (imageBits ((volumeChunks d im p buffer).take k))
    (imageSectors ((volumeChunks d im p buffer).take k)) tp

theorem beforeChunk_pos (hk : k < p.nb) : (beforeChunk d im p buffer k ⟨s, T⟩).pos = s + 176128 * k := by
  refine (scatter_pos_of_ok (t := ⟨s, T⟩) fun _ _ => rfl).trans ?_
  rw [imageBits_take, length_take_bits hk]

/-- Beyond the chunks before number `k` the disk is as it was. -/
theorem beforeChunk_cells {q : ℕ} (hk : k < p.nb) (hq : s + 176128 * k ≤ q) :
    (beforeChunk d im p buffer k ⟨s, T⟩).cells q = T q := by
  refine scatter_cells_of_not_mem (t := ⟨s, T⟩) (fun _ _ => rfl) fun hmem => ?_
  have := lt_of_mem_ones hmem
  rw [imageBits_take, length_take_bits hk] at this
  exact absurd hq (Nat.not_le.mpr this)

theorem imageBits_remaining (hk : k < p.nb) : imageBits (remaining d im p buffer k ws) =
    ((bits p.bitmap).take (176128 * stopsAt p.nb k ws)).drop (176128 * k) := by
  have h := (image_split (lt_stopsAt ws hk).le (volumeChunks d im p buffer)).1
  rw [imageBits_take, imageBits_take] at h
  rw [h, List.drop_left' (length_take_bits hk)]
  rfl

/-- A used sector of the chunks still to be restored. -/
theorem mem_remaining (hk : k < p.nb) {i : ℕ} (hki : 176128 * k ≤ i)
    (him : i < 176128 * stopsAt p.nb k ws) (hi : Used p.bitmap i) :
    s + i ∈ ones (s + 176128 * k) (imageBits (remaining d im p buffer k ws)) := by
  rw [Used, bitAt_eq] at hi
  refine mem_ones.mpr ⟨by omega, ?_⟩
  rw [imageBits_remaining hk, List.getElem?_drop,
    show 176128 * k + (s + i - (s + 176128 * k)) = i by omega, List.getElem?_take, if_pos him, hi]

/-- Versions that stay within the used sectors of their chunk are written over. -/
theorem retried_cells (hk : k < p.nb) (hwin : ∀ w ∈ ws, w.table.length ≤ 176128)
    (hplaces : ∀ w ∈ ws, ∀ i ∈ w.places k, Used p.bitmap i) :
    (scatter noBad (imageBits (remaining d im p buffer k ws))
      (imageSectors (remaining d im p buffer k ws)) (spoiled d im p buffer k ws ⟨s, T⟩)).cells =
    (scatter noBad (imageBits (remaining d im p buffer k ws))
      (imageSectors (remaining d im p buffer k ws)) (beforeChunk d im p buffer k ⟨s, T⟩)).cells := by
  funext q
  have hpos : (beforeChunk d im p buffer k ⟨s, T⟩).pos = s + 176128 * k := beforeChunk_pos hk
  have hsp : (spoiled d im p buffer k ws ⟨s, T⟩).pos = s + 176128 * k := by
    rw [← hpos]; exact foldl_spoil_pos
  have h := @scatter_cells_eq _ noBad (imageBits (remaining d im p buffer k ws))
    (imageSectors (remaining d im p buffer k ws)) (s + 176128 * k)
    (spoiled d im p buffer k ws ⟨s, T⟩).cells (beforeChunk d im p buffer k ⟨s, T⟩).cells q
    (fun _ _ => rfl) fun hq => ?_
  · rw [← hsp] at h
    refine h.trans ?_
    rw [hsp, ← hpos]
  · rw [length_imageSectors, List.take_of_length_le (by rw [length_ones])] at hq
    refine foldl_spoil_of_not_mem hpos fun w hw i hi e => hq ?_
    obtain ⟨h1, h2⟩ := mem_places_window (hwin w hw) hi
    rw [e]
    refine mem_remaining hk h1 (lt_of_lt_of_le h2 ?_) (hplaces w hw i hi)
    exact Nat.mul_le_mul_left _ (lt_stopsAt ws hk)

/-- The chunks that are restored hold all the used sectors. -/
theorem restored_cells (hk : k < p.nb) (hstop : ∀ i, Used p.bitmap i → i / 176128 < stopsAt p.nb k ws) :
    (scatter noBad (imageBits (remaining d im p buffer k ws))
      (imageSectors (remaining d im p buffer k ws)) (beforeChunk d im p buffer k ⟨s, T⟩)).cells =
    (scatter noBad (bits p.bitmap) (imageSectors (volumeChunks d im p buffer)) ⟨s, T⟩).cells := by
  obtain ⟨cs, hcs⟩ : ∃ cs, cs = volumeChunks d im p buffer := ⟨_, rfl⟩
  obtain ⟨m, hm⟩ : ∃ m, m = stopsAt p.nb k ws := ⟨_, rfl⟩
  obtain ⟨hb, hs⟩ := image_split (hm ▸ (lt_stopsAt ws hk).le : k ≤ m) cs
  have hrest : (imageBits (cs.drop m)).count true = 0 := by
    rw [List.count_eq_zero]
    intro hmem
    obtain ⟨j, hj⟩ := List.mem_iff_getElem?.mp hmem
    have hall : bits p.bitmap = (bits p.bitmap).take (176128 * m) ++ imageBits (cs.drop m) := by
      rw [← imageBits_volumeChunks (d := d) im p buffer, ← hcs]
      conv_lhs => rw [← List.take_append_drop m cs, imageBits_append]
      rw [hcs, imageBits_take, imageBits_volumeChunks]
    have hlen : ((bits p.bitmap).take (176128 * m)).length = 176128 * m := by
      by_contra hne
      rw [List.length_take] at hne
      have hnil : imageBits (cs.drop m) = [] := by
        have := congrArg List.length hall
        rw [List.length_append, List.length_take] at this
        exact List.length_eq_zero_iff.mp (by omega)
      rw [hnil] at hj
      simp at hj
    have hused : Used p.bitmap (176128 * m + j) := by
      rw [Used, bitAt_eq, hall, List.getElem?_append_right (by rw [hlen]; omega), hlen,
        Nat.add_sub_cancel_left, hj]
    have := hstop _ hused
    omega
  have hnil : imageSectors (cs.drop m) = [] := by
    rw [← List.length_eq_zero_iff, length_imageSectors, hrest]
  rw [← imageBits_volumeChunks (d := d) im p buffer, ← hcs, ← List.take_append_drop m cs,
    imageBits_append, imageSectors_append_chunks, scatter_append (length_imageSectors _), hnil,
    scatter_nil, Tape.skip_cells, hb, hs, scatter_append (length_imageSectors _)]
  rw [remaining, beforeChunk, ← hcs, ← hm]

end Tapes

theorem length_table_of_fails (hVs : List.Forall₂ (Fails z.inflate) Vs ws) :
    ∀ w ∈ ws, w.table.length ≤ 176128 := by
  induction hVs with
  | nil => simp
  | cons hV _ ih => exact List.forall_mem_cons.mpr ⟨hV.length_table, ih⟩

include hz hk hVs in
theorem cleanRetry_of (hfit : ∀ w ∈ ws, w.Fits) (hplaces : ∀ w ∈ ws, ∀ i ∈ w.places k, Used p.bitmap i)
    (hstop : ∀ i, Used p.bitmap i → i / 176128 < stopsAt p.nb k ws) : CleanRetry z p k Vs := by
  intro D name im buffer mem T s hD hbuf
  obtain ⟨v, hv, -, hrun⟩ := @restore_retry z hz (openSource D fun _ => false) (fun _ => rfl) im p
    buffer name k Vs ws hbuf hk hVs mem T s
  obtain ⟨log, st, hst, hcells⟩ := hrun hfit
  rw [retried_cells hk (length_table_of_fails hVs) hplaces, restored_cells hk hstop,
    imageSectors_of_ok hbuf fun q hq => sector_openSource (hD q (used_iff.mpr hq)) rfl] at hcells
  obtain ⟨hin, hout⟩ := @inPlace_of_good _ noBad (bits p.bitmap) s (fun i => D.getD i default) T
    fun _ _ => rfl
  refine ⟨v, log, st, hv, hst, fun i hi => ?_, fun q hq => ?_⟩
  · have hlt := hD i hi
    rw [Used, bitAt_eq] at hi
    rw [hcells, hin i hi rfl, List.getElem?_eq_getElem hlt]
    exact congrArg some (List.getD_eq_getElem _ _ hlt).symm
  · rw [hcells]
    exact hout q fun i hi _ => hq i (by rw [Used, bitAt_eq]; exact hi)

/-- A device of zeros. -/
def blank (p : Params) : List Sector := List.replicate (8 * p.bitmap.length) (Sector.fill 0)

theorem lt_length_blank {i : ℕ} (hi : Used p.bitmap i) : i < (blank p).length := by
  rw [Used, bitAt_eq] at hi
  rw [blank, List.length_replicate, ← length_bits]
  exact (List.getElem?_eq_some_iff.mp hi).1

/-- The disk after a clean retry with a device of zeros. -/
structure CleanRun (z : Zlib) (p : Params) (k : ℕ) (ws : List Inflated) (b : UInt8) (c : ℕ → Sector) :
    Prop where
  cells : c = (scatter noBad (imageBits (remaining (openSource (blank p) fun _ => false) .raw p zeros k ws))
    (imageSectors (remaining (openSource (blank p) fun _ => false) .raw p zeros k ws))
    (spoiled (openSource (blank p) fun _ => false) .raw p zeros k ws ⟨0, fun _ => Sector.fill b⟩)).cells
  used : ∀ i, Used p.bitmap i → c i = Sector.fill 0
  unused : ∀ q, ¬ Used p.bitmap q → c q = Sector.fill b

include hz hk hVs in
/-- A clean retry in particular on a disk filled with the byte `b`. -/
theorem CleanRetry.run (h : CleanRetry z p k Vs) (b : UInt8) :
    (∀ w ∈ ws, w.Fits) ∧ ∃ c, CleanRun z p k ws b c := by
  obtain ⟨v, log, st, hv, hst, hused, hunused⟩ := h (blank p) [] .raw zeros Memory.zero
    (fun _ => Sector.fill b) 0 (fun i hi => lt_length_blank hi) length_zeros
  obtain ⟨v', hv', hover, hrun⟩ := @restore_retry z hz (openSource (blank p) fun _ => false)
    (fun _ => rfl) .raw p zeros [] k Vs ws length_zeros hk hVs Memory.zero (fun _ => Sector.fill b) 0
  obtain rfl : v = v' := hv.unique hv'
  have hfit : ∀ w ∈ ws, w.Fits := by
    by_contra hfit
    exact (hover hfit).not_returns _ hst
  obtain ⟨log', st', hst', hcells⟩ := hrun hfit
  obtain rfl : st = st' := congrArg Prod.snd (hst.unique hst')
  refine ⟨hfit, st.fo.cells, hcells, fun i hi => ?_, fun q hq => ?_⟩
  · have := hused i hi
    rw [blank, List.getElem?_replicate, if_pos (by
      have := lt_length_blank hi; rwa [blank, List.length_replicate] at this), Nat.zero_add] at this
    exact (Option.some.inj this).symm
  · exact hunused q fun i hi e => hq (by rw [e, Nat.zero_add]; exact hi)

theorem fill_zero_ne_one : Sector.fill 0 ≠ Sector.fill 1 :=
  fun h => absurd (Sector.fill_injective h) (by decide)

/-- Two disks agree at the places of a version, whatever they held. -/
theorem CleanRun.agree (hk : k < p.nb) {b b' : UInt8} {c c' : ℕ → Sector} (h : CleanRun z p k ws b c)
    (h' : CleanRun z p k ws b' c') {w : Inflated} (hw : w ∈ ws) {i : ℕ} (hi : i ∈ w.places k) :
    c i = c' i := by
  obtain ⟨d, hd⟩ : ∃ d, d = openSource (blank p) fun _ => false := ⟨_, rfl⟩
  have hpos : ∀ b, (beforeChunk d .raw p zeros k ⟨0, fun _ => Sector.fill b⟩).pos = 0 + 176128 * k :=
    fun b => beforeChunk_pos hk
  have hsp : ∀ b, (spoiled d .raw p zeros k ws ⟨0, fun _ => Sector.fill b⟩).pos = 176128 * k := by
    intro b
    refine (foldl_spoil_pos.trans (hpos b)).trans (Nat.zero_add _)
  have hagree := @foldl_spoil_congr k 0 ws _ _ (hpos b) ((hpos b').trans (hpos b).symm) i
    (.inr ⟨w, hw, hi⟩)
  rw [Nat.zero_add] at hagree
  rw [h.cells, h'.cells, ← hd]
  have heq := @scatter_cells_eq _ noBad (imageBits (remaining d .raw p zeros k ws))
    (imageSectors (remaining d .raw p zeros k ws)) (176128 * k)
    (spoiled d .raw p zeros k ws ⟨0, fun _ => Sector.fill b⟩).cells
    (spoiled d .raw p zeros k ws ⟨0, fun _ => Sector.fill b'⟩).cells i (fun _ _ => rfl) fun _ => hagree
  conv at heq => lhs; rw [← hsp b]
  conv at heq => rhs; rw [← hsp b']
  exact heq

/-- A chunk that is not restored keeps what the disk held. -/
theorem CleanRun.kept (hk : k < p.nb) (hwin : ∀ w ∈ ws, w.table.length ≤ 176128) {b : UInt8}
    {c : ℕ → Sector} (h : CleanRun z p k ws b c) {i : ℕ} (hi : stopsAt p.nb k ws ≤ i / 176128) :
    c i = Sector.fill b := by
  obtain ⟨d, hd⟩ : ∃ d, d = openSource (blank p) fun _ => false := ⟨_, rfl⟩
  have hlt := lt_stopsAt ws hk
  have hpos : (beforeChunk d .raw p zeros k ⟨0, fun _ => Sector.fill b⟩).pos = 0 + 176128 * k :=
    beforeChunk_pos hk
  rw [h.cells, ← hd, scatter_cells_of_not_mem (noBad_good _) fun hmem => ?_]
  · refine (foldl_spoil_of_not_mem hpos fun w hw j hj e => ?_).trans
      (beforeChunk_cells hk (by omega))
    have := mem_places_window (hwin w hw) hj
    omega
  · have h1 := lt_of_mem_ones hmem
    rw [imageBits_remaining hk, List.length_drop, List.length_take] at h1
    have h2 : (spoiled d .raw p zeros k ws ⟨0, fun _ => Sector.fill b⟩).pos = 0 + 176128 * k := by
      rw [← hpos]; exact foldl_spoil_pos
    rw [h2] at h1
    omega

include hz hk hVs in
/-- **When corrupted versions leave no trace**: exactly when each has set bits enough for the full
buffers it delivers, these are written to used sectors only, and the number of chunks last read
from a corrupted header does not cut off a chunk with used sectors. -/
theorem cleanRetry_iff : CleanRetry z p k Vs ↔
    (∀ w ∈ ws, w.Fits ∧ ∀ i ∈ w.places k, Used p.bitmap i) ∧
    ∀ i, Used p.bitmap i → i / 176128 < stopsAt p.nb k ws := by
  constructor
  · intro h
    obtain ⟨hfit, c₀, h₀⟩ := h.run hz hk hVs 0
    obtain ⟨-, c₁, h₁⟩ := h.run hz hk hVs 1
    refine ⟨fun w hw => ⟨hfit w hw, fun i hi => ?_⟩, fun i hi => ?_⟩
    · by_contra hun
      have := h₀.agree hk h₁ hw hi
      rw [h₀.unused i hun, h₁.unused i hun] at this
      exact fill_zero_ne_one this
    · by_contra hge
      have := h₁.kept hk (length_table_of_fails hVs) (Nat.le_of_not_lt hge)
      rw [h₁.used i hi] at this
      exact fill_zero_ne_one this
  · rintro ⟨h, hstop⟩
    exact cleanRetry_of hz hk hVs (fun w hw => (h w hw).1) (fun w hw => (h w hw).2) hstop

end Clean

/-- A file that does not even start as a stream delivers nothing. -/
theorem fails_garbage : Fails storedZlib.inflate [0] ⟨[], [], .dataError, .dataError⟩ :=
  ⟨Returns.last fun _ => rfl, rfl, rfl⟩

theorem cleanRetry_garbage : CleanRetry storedZlib (smallParams [1] (by decide)) 0 [[0], [0]] := by
  refine (cleanRetry_iff storedZlib_contract (by decide)
    (.cons fails_garbage (.cons fails_garbage .nil))).mpr ⟨fun w hw => ?_, fun i hi => ?_⟩
  · obtain rfl : w = ⟨[], [], .dataError, .dataError⟩ := by simpa using hw
    exact ⟨by decide, nofun⟩
  · have hlt : ∀ i ∈ ones 0 (bits [1]), i < 1 := by decide
    have := hlt i (used_iff.mp hi)
    rw [show i / 176128 = 0 by omega]
    decide

/-! ## Truncated versions -/

theorem Inflater.refill_spec {m : ZMachine} (i : Inflater m) :
    i.refill.z = i.z ∧ i.refill.inp ++ i.refill.file = i.inp ++ i.file ∧
    (i.refill.inp = [] → i.refill.file = []) := by
  unfold Inflater.refill
  split_ifs with h
  · refine ⟨rfl, ?_, fun hnil => ?_⟩
    · rw [h]; exact List.take_append_drop 2048 i.file
    · obtain hf : i.file = [] := by simpa [Inflater.fread] using hnil
      rw [Inflater.fread, hf]; rfl
  · exact ⟨rfl, rfl, fun hnil => absurd hnil h⟩

/-- A file that ends too early: its data is delivered, then `inflate` finds no more input. -/
theorem inflated_truncated {B : ByteMachine} (N : ℕ) : ∀ {i : Inflater B.machine} {acc : Bytes},
    (i.inp ++ i.file).length ≤ N → (i.inp = [] → i.file = []) → acc.length = i.out → i.out < 24064 →
    B.Live i.z (i.inp ++ i.file) → B.code (B.run i.z (i.inp ++ i.file)).2 = none →
    ∃ w, Returns (fun fuel => inflated B.machine fuel i acc) w ∧
      w.full.flatten ++ w.last = acc ++ (B.run i.z (i.inp ++ i.file)).1 ∧
      (∀ b ∈ w.full, b.length = 24064) ∧ w.last.length < 24064 ∧ w.ret = .bufError ∧
      w.fin = .bufError := by
  induction N with
  | zero =>
    intro i acc hN _ hacc hroom hlive hend
    obtain ⟨hinp, hfile⟩ :=
      List.append_eq_nil_iff.mp (List.length_eq_zero_iff.mp (Nat.le_zero.mp hN))
    rw [hinp, hfile] at hend ⊢
    have hcall : ∀ fl n, B.machine.call i.z fl [] n = ⟨.bufError, 0, [], i.z⟩ := by
      intro fl n
      have hret : B.ret fl [] n i.z = .bufError := by
        show (B.code i.z).getD _ = _
        rw [show B.code i.z = none from hend, Option.getD_none, if_pos (.inr (.inl rfl))]
      exact congrArg (fun c => ZCall.mk c 0 [] i.z) hret
    refine ⟨⟨[], acc, .bufError, .bufError⟩, Returns.last fun fuel => ?_, (List.append_nil acc).symm,
      by simp, by rw [hacc]; exact hroom, rfl, rfl⟩
    rw [inflated, hinp, hcall]
    simp only [Inflater.after, hinp, List.drop_nil, hcall, List.append_nil]
    rfl
  | succ N ih =>
    intro i acc hN hfill hacc hroom hlive hend
    by_cases hinp : i.inp = []
    · exact ih (by rw [hinp, hfill hinp]; exact Nat.zero_le _) hfill hacc hroom hlive hend
    obtain ⟨r, hr⟩ : ∃ r, r = B.machine.call i.z .syncFlush i.inp (24064 - i.out) := ⟨_, rfl⟩
    obtain ⟨hstop, hlive', hout, hlast⟩ := ByteMachine.call_spec hlive hr
    have hused : 0 < r.used := by
      rw [hr]
      exact ByteMachine.feed_pos (ByteMachine.code_of_live hlive hend) hinp (by omega)
    rw [hlast] at hend
    have hok : r.ret = .ok := by
      have hret : r.ret = B.ret .syncFlush i.inp (24064 - i.out) r.next := by rw [hr]; rfl
      rw [hret]
      show (B.code r.next).getD _ = _
      rw [ByteMachine.code_of_live hlive' hend, Option.getD_none, if_neg (by simp [hinp]; omega)]
    obtain ⟨acc', hd, hacc', happ', hhd, hstep⟩ := inflated_after hr hok hacc hroom
    obtain ⟨j, hj⟩ : ∃ j : Inflater B.machine, j = { i.after r with out := acc'.length } := ⟨_, rfl⟩
    rw [← hj] at hstep
    obtain ⟨hz, hf, hne⟩ := j.refill_spec
    have hjz : j.z = r.next := by rw [hj]; rfl
    have hjf : j.inp ++ j.file = i.inp.drop r.used ++ i.file := by rw [hj]; rfl
    obtain ⟨w, hret, happ, hlen, hw⟩ := @ih j.refill acc'
      (by
        have := List.length_pos_iff.mpr hinp
        rw [List.length_append] at hN
        rw [hf, hjf, List.length_append, List.length_drop]
        omega)
      hne (by rw [Inflater.refill_out, hj]) (by rw [Inflater.refill_out, hj]; exact hacc')
      (by rw [hz, hf, hjz, hjf]; exact hlive') (by rw [hz, hf, hjz, hjf]; exact hend)
    refine ⟨_, hstep w hret, ?_, fun b hb => (List.mem_append.mp hb).elim (hhd b) (hlen b), hw⟩
    show (hd ++ w.full).flatten ++ w.last = _
    rw [List.flatten_append, List.append_assoc, happ, hz, hf, hjz, hjf, ← List.append_assoc, happ',
      hout, List.append_assoc]

/-- A stream cut short after its first block. -/
def cutShort (X : Bytes) : Bytes := zlibHeader ++ storedBlock false X

theorem fails_cutShort {X : Bytes} (hX : X.length ≤ 65535) :
    ∃ w, Fails storedZlib.inflate (cutShort X) w ∧ w.full.flatten ++ w.last = X ∧
      (∀ b ∈ w.full, b.length = 24064) ∧ w.last.length < 24064 := by
  obtain ⟨hlive, hrun⟩ := reads_zlibHeader.trans (reads_block Adler.init false hX)
  have hfile : (Inflater.start storedReader.machine (cutShort X)).inp ++
      (Inflater.start storedReader.machine (cutShort X)).file = zlibHeader ++ storedBlock false X :=
    List.take_append_drop 2048 _
  obtain ⟨w, hret, happ, hlen, hlast, hend, hfin⟩ := @inflated_truncated storedReader _
    (Inflater.start storedReader.machine (cutShort X)) [] le_rfl
    (fun h => absurd h (List.cons_ne_nil _ _)) rfl (show 0 < 24064 by decide)
    (by rw [hfile]; exact hlive)
    (by rw [hfile]; exact (congrArg (storedReader.code ·.2) hrun).trans rfl)
  rw [hfile] at happ
  refine ⟨w, ⟨hret, by rw [hend]; rfl, by rw [hfin]; rfl⟩, ?_, hlen, hlast⟩
  exact happ.trans (congrArg Prod.fst hrun)

/-- Two buffers of zeros: a header without set bits, and data. -/
theorem not_fits_zero {w : Inflated} (happ : w.full.flatten ++ w.last = List.replicate 48128 0)
    (hlen : ∀ b ∈ w.full, b.length = 24064) (hlast : w.last.length < 24064) : ¬ w.Fits := by
  have hsum := congrArg List.length happ
  rw [List.length_append, List.length_flatten, List.map_congr_left hlen, List.map_const',
    List.sum_replicate, smul_eq_mul, List.length_replicate] at hsum
  have htwo : w.full.length = 2 := by omega
  obtain ⟨h, d, hfull⟩ := List.length_eq_two.mp htwo
  rw [hfull] at happ hlen
  have hzero : h = List.replicate 24064 0 := by
    rw [List.eq_replicate_iff]
    refine ⟨hlen h (by simp), fun b hb => ?_⟩
    have hmem : b ∈ List.replicate 48128 0 := by rw [← happ]; simp [hb]
    exact (List.mem_replicate.mp hmem).2
  have htable : w.table.count true = 0 := by
    rw [Inflated.table, hfull]
    show (bits (h.drop 2048)).count true = 0
    rw [hzero, List.drop_replicate, bits_replicate_zero, List.count_replicate]
    rfl
  rw [Inflated.Fits, htable, Inflated.data, hfull, length_dataSectors]
  exact Nat.not_succ_le_zero 46

/-- `Bitmap` is overrun while the first sector of the second buffer is written. -/
theorem not_cleanRetry_zero :
    ¬ CleanRetry storedZlib (smallParams [1] (by decide)) 0 [cutShort (List.replicate 48128 0)] := by
  intro h
  obtain ⟨w, hw, happ, hlen, hlast⟩ := @fails_cutShort (List.replicate 48128 0)
    (by rw [List.length_replicate]; omega)
  have hfit := (h.run storedZlib_contract (by decide) (.cons hw .nil) 0).1
  exact not_fits_zero happ hlen hlast (hfit w (List.mem_singleton_self w))

end LinboxRescue
