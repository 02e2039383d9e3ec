import LinboxRescue.Boot.Transfer
import LinboxRescue.Boot.Writing

/-!
# Downloads are safe

`F` is the file of the chunk `c`. `Good` is what holds in every turn of a call of `new_get` that gets
packets of the server of `F` only:

* the packets accepted are the first ones of the server, and the pool keeps the order of their bytes;
* what was moved out of the pool is what was handed to `inflate` and what waits in `compressed`;
* from here `inflate` decodes the rest of `F`, and what it delivered, in the buffers dealt with and in
  the present one, is the beginning of the chunk;
* the writing is in step with the allocation table, or past the end of the disk.

`flush_spec`, `Good.inflate` and `Good.refill` keep it (`work_spec`), receiving does (`fine_listen`), and
a restart finds it again (`good_begin`). When `new_get` returns 0 all of `F` was handed to `inflate`.
-/

namespace LinboxRescue

/-! ## The disk side -/

/-- The memory areas have their sizes; something lies behind `alloc`. -/
structure DiskSide.Sized (d : DiskSide) : Prop where
  buffer : d.buffer.length = 24064
  alloc : 22016 < d.alloc.length

/-- The header is not read yet. -/
structure Untouched (s : ℕ) (T : ℕ → Sector) (files : ℤ) (d : DiskSide) : Prop where
  firstblock : d.firstblock = true
  saveSect : d.saveSect = s
  files : d.files = files
  sect : d.head.sect = s
  writes : d.head.writes = []
  disk : d.head.disk = T

/-- The header is read and `k` sectors are dealt with. -/
structure Placing (c : Chunk) (total s : ℕ) (T : ℕ → Sector) (files : ℤ) (k : ℕ) (d : DiskSide) :
    Prop where
  firstblock : d.firstblock = false
  saveSect : d.saveSect = s + val (ascii "ALLOCTABLELG") c.header * 8
  files : d.files = if exist (ascii "BLOCKS") c.header then val (ascii "BLOCKS") c.header else files
  alloc : ∃ more, more ≠ [] ∧ bits d.alloc = bits c.slice ++ more
  le : k ≤ c.sectors.length
  head : (∃ n, InStep s (bits c.slice) c.sectors T n k d.head) ∨
    PastEnd total s (bits c.slice) c.sectors d.head

/-- The bytes `done` of the chunk are dealt with. -/
structure OnDisk (c : Chunk) (total s : ℕ) (T : ℕ → Sector) (files : ℤ) (d : DiskSide)
    (done : Bytes) : Prop where
  sized : d.Sized
  out_le : d.out ≤ 24064
  stage : (done = [] ∧ Untouched s T files d) ∨
    ∃ k, done = c.header ++ sectorBytes (c.sectors.take k) ∧ Placing c total s T files k d

section Disk

variable {c : Chunk} {total s : ℕ} {T : ℕ → Sector} {files : ℤ} {d : DiskSide} {done X : Bytes}

/-- Every write is of a sector of the chunk at its place. -/
theorem OnDisk.writes (h : OnDisk c total s T files d done) :
    ∀ w ∈ d.head.writes, w ∈ placement s (bits c.slice) c.sectors := by
  intro w hw
  rcases h.stage with ⟨-, hu⟩ | ⟨k, -, hp⟩
  · rw [hu.writes] at hw; cases hw
  · rcases hp.head with ⟨n, hn⟩ | hn
    · rw [hn.writes] at hw; exact List.mem_of_mem_take hw
    · obtain ⟨j, hj⟩ := hn.writes
      rw [hj] at hw; exact List.mem_of_mem_take hw

/-- The table in memory is the table of the chunk with something behind it. -/
theorem bits_overwrite_alloc (c : Chunk) {alloc : Bytes} (h : 22016 < alloc.length) :
    ∃ more, more ≠ [] ∧ bits (overwrite alloc 0 ((c.header.drop 2048).take 22016)) =
      bits c.slice ++ more := by
  have hbm : (c.header.drop 2048).take 22016 = padTo 22016 c.slice := by
    rw [Chunk.header, drop_imageHeader, List.take_of_length_le (by rw [length_padTo])]
  refine ⟨List.replicate (8 * (22016 - c.slice.length)) false ++ bits (alloc.drop 22016), ?_, ?_⟩
  · rw [ne_eq, List.append_eq_nil_iff, not_and_or]
    right
    rw [← List.length_eq_zero_iff, length_bits, List.length_drop]
    omega
  · rw [hbm, overwrite, length_padTo, List.take_zero, List.nil_append, Nat.zero_add, bits_append,
      bits_padTo c.slice_le, List.append_assoc]

variable (total) in
/-- The first buffer is the header. -/
theorem flush_header (hs : d.Sized) (hu : Untouched s T files d) (hb : d.buffer = c.header) :
    ∃ d', d.flush total = .ok d' ∧ d'.Sized ∧ d'.out = 0 ∧ d'.full = false ∧
      Placing c total s T files 0 d' := by
  unfold DiskSide.flush
  rw [if_pos hu.firstblock]
  refine ⟨_, rfl, ⟨hs.buffer, ?_⟩, rfl, rfl, rfl, ?_, ?_, ?_, Nat.zero_le _, .inl ⟨0, ?_⟩⟩
  · show 22016 < (overwrite _ _ _).length
    rw [length_overwrite]
    · exact hs.alloc
    · rw [Nat.zero_add, List.length_take, List.length_drop, hs.buffer]
      have := hs.alloc
      omega
  · show d.saveSect + val _ d.buffer * 8 = _
    rw [hu.saveSect, hb]
  · show (if exist _ d.buffer then val _ d.buffer else d.files) = _
    rw [hu.files, hb]
  · show ∃ more, _ ∧ bits (overwrite d.alloc 0 ((d.buffer.drop 2048).take 22016)) = _
    rw [hb]
    exact bits_overwrite_alloc c hs.alloc
  · exact ⟨Nat.zero_le _, rfl, hu.sect, rfl, hu.writes, by
      show d.head.disk = putAll T d.head.writes
      rw [hu.disk, hu.writes]; rfl⟩

/-- The bytes in a buffer are the next sectors of the chunk. -/
theorem next_sectors {xs : List Sector} {bs : Bytes} (h : bs ++ X = sectorBytes xs)
    (hfull : bs.length = 24064 ∨ X = []) :
    ∃ N, N ≤ xs.length ∧ bs.length = 512 * N ∧ bs = sectorBytes (xs.take N) := by
  have hlen := congrArg List.length h
  rw [List.length_append, length_sectorBytes] at hlen
  obtain ⟨N, hN⟩ : ∃ N, bs.length = 512 * N := by
    rcases hfull with h24 | hnil
    · exact ⟨47, by omega⟩
    · rw [hnil, List.length_nil] at hlen
      exact ⟨xs.length, by omega⟩
  have hle : N ≤ xs.length := by omega
  refine ⟨N, hle, hN, ?_⟩
  have hsplit : bs ++ X = sectorBytes (xs.take N) ++ sectorBytes (xs.drop N) := by
    rw [h, ← sectorBytes_append, List.take_append_drop]
  refine (List.append_inj hsplit ?_).1
  rw [hN, length_sectorBytes, List.length_take, Nat.min_eq_left hle]

/-- Later buffers are sectors. -/
theorem flush_sectors {k N : ℕ} (hs : d.Sized) (hp : Placing c total s T files k d)
    (hsize : d.size = 512 * N) (hN : N ≤ c.sectors.length - k)
    (hb : d.buffer.take (512 * N) = sectorBytes ((c.sectors.drop k).take N)) :
    (∃ d', d.flush total = .ok d' ∧ d'.Sized ∧ d'.out = 0 ∧ d'.full = false ∧
      Placing c total s T files (k + N) d') ∨
    (TooLong total s (bits c.slice) ∧ ∀ d', d.flush total = .ok d' → d'.Sized ∧ d'.out = 0 ∧
      d'.full = false ∧ Placing c total s T files (k + N) d') := by
  obtain ⟨more, hmore, hal⟩ := hp.alloc
  have hle := hp.le
  have hdiv : d.size / 512 = N := by omega
  have hNlen : ((c.sectors.drop k).take N).length = N := by
    rw [List.length_take, List.length_drop]; omega
  have hbuf : ∀ j < N, c.sectors[k + j]? = some (Sector.ofMem d.buffer (512 * j)) := by
    intro j hj
    have hget : ((c.sectors.drop k).take N)[j]? = some c.sectors[k + j] := by
      rw [List.getElem?_take_of_lt hj, List.getElem?_drop, List.getElem?_eq_getElem]
    have h1 := @Sector.ofMem_sectorBytes d.buffer ((c.sectors.drop k).take N) j _
      (by rw [hNlen, hb]) hget
    rw [h1, List.getElem?_eq_getElem]
  have hplace : ∀ h, ((∃ n, InStep s (bits c.slice) c.sectors T n (k + N) h) ∨
      PastEnd total s (bits c.slice) c.sectors h) →
      Placing c total s T files (k + N) { d with head := h, out := 0, full := false } := fun h hh =>
    ⟨hp.firstblock, hp.saveSect, hp.files, hp.alloc, by omega, hh⟩
  have hflush : d.flush total = (writeRuns total d.alloc d.buffer N (N + 1) 0 d.head >>= fun h =>
      .ok { d with head := h, out := 0, full := false }) := by
    unfold DiskSide.flush DiskSide.writeSectors
    rw [if_neg (by rw [hp.firstblock]; simp), hdiv]
    cases writeRuns total d.alloc d.buffer N (N + 1) 0 d.head <;> rfl
  rw [hflush]
  rcases hp.head with ⟨n, hn⟩ | hpast
  · rcases writeRuns_spec total hal hmore c.length_sectors hbuf (Nat.zero_le N)
      (show N - 0 < N + 1 by omega) (show InStep s (bits c.slice) c.sectors T n (k + 0) d.head from hn) with
      ⟨h', n', hok, hin⟩ | ⟨hlong, hall⟩
    · exact .inl ⟨{ d with head := h', out := 0, full := false }, by rw [hok]; rfl,
        ⟨hs.buffer, hs.alloc⟩, rfl, rfl, hplace h' (.inl ⟨n', hin⟩)⟩
    · refine .inr ⟨hlong, fun d' hd' => ?_⟩
      obtain ⟨h', hok, hd'⟩ := bind_eq_ok hd'
      cases hd'
      exact ⟨⟨hs.buffer, hs.alloc⟩, rfl, rfl, hplace h' (.inr (hall h' hok))⟩
  · refine .inr ⟨hpast.tooLong, fun d' hd' => ?_⟩
    obtain ⟨h', hok, hd'⟩ := bind_eq_ok hd'
    cases hd'
    exact ⟨⟨hs.buffer, hs.alloc⟩, rfl, rfl, hplace h' (.inr (hpast.writeRuns hok))⟩

/-- What is known after a full buffer was dealt with. -/
structure Flushed (c : Chunk) (total s : ℕ) (T : ℕ → Sector) (files : ℤ) (done : Bytes) (d : DiskSide) :
    Prop where
  onDisk : OnDisk c total s T files d done
  out : d.out = 0
  full : d.full = false

/-- **A full buffer** is dealt with, unless the disk is too short. -/
theorem flush_spec (h : OnDisk c total s T files d done) (hsize : d.size = d.out)
    (hX : done ++ d.buffer.take d.out ++ X = c.payload) (hfull : d.out = 24064 ∨ X = []) :
    (∃ d', d.flush total = .ok d' ∧ Flushed c total s T files (done ++ d.buffer.take d.out) d') ∨
    (TooLong total s (bits c.slice) ∧ ∀ d', d.flush total = .ok d' →
      Flushed c total s T files (done ++ d.buffer.take d.out) d') := by
  have hbl : (d.buffer.take d.out).length = d.out := by
    rw [List.length_take, h.sized.buffer, Nat.min_eq_left h.out_le]
  rcases h.stage with ⟨rfl, hu⟩ | ⟨k, hdone, hp⟩
  · have hlen := congrArg List.length hX
    rw [List.nil_append, List.length_append, hbl, c.length_payload] at hlen
    have hout : d.out = 24064 := by
      have := h.out_le
      rcases hfull with h1 | h1
      · exact h1
      · rw [h1, List.length_nil] at hlen; omega
    have htake : d.buffer.take d.out = d.buffer :=
      List.take_of_length_le (by rw [hout, h.sized.buffer])
    rw [htake, List.nil_append] at hX ⊢
    have hb : d.buffer = c.header := by
      refine (List.append_inj (hX.trans rfl : d.buffer ++ X = c.header ++ sectorBytes c.sectors) ?_).1
      rw [h.sized.buffer, Chunk.header, length_imageHeader]
    obtain ⟨d', hok, hs', ho', hf', hp'⟩ := flush_header total h.sized hu hb
    refine .inl ⟨d', hok, ⟨hs', by omega, .inr ⟨0, ?_, hp'⟩⟩, ho', hf'⟩
    rw [hb, List.take_zero, sectorBytes_nil, List.append_nil]
  · have hsec : d.buffer.take d.out ++ X = sectorBytes (c.sectors.drop k) := by
      rw [hdone, Chunk.payload, List.append_assoc, List.append_assoc] at hX
      have h1 := List.append_cancel_left hX
      conv_rhs at h1 => rw [← List.take_append_drop k c.sectors, sectorBytes_append]
      exact List.append_cancel_left h1
    obtain ⟨N, hN, hlen, hb⟩ := next_sectors hsec (by rw [hbl]; exact hfull)
    rw [hbl] at hlen
    rw [List.length_drop] at hN
    have hnew : done ++ d.buffer.take d.out = c.header ++ sectorBytes (c.sectors.take (k + N)) := by
      rw [hdone, hb, List.take_add, sectorBytes_append, List.append_assoc]
    rw [hlen] at hb
    rcases flush_sectors h.sized hp (by rw [hsize, hlen]) hN hb with
      ⟨d', hok, hs', ho', hf', hp'⟩ | ⟨hlong, hall⟩
    · exact .inl ⟨d', hok, ⟨hs', by omega, .inr ⟨k + N, hnew, hp'⟩⟩, ho', hf'⟩
    · refine .inr ⟨hlong, fun d' hok => ?_⟩
      obtain ⟨hs', ho', hf', hp'⟩ := hall d' hok
      exact ⟨⟨hs', by omega, .inr ⟨k + N, hnew, hp'⟩⟩, ho', hf'⟩

/-- The parts of the disk side that `inflate` does not touch. -/
theorem OnDisk.congr {d' : DiskSide} (h : OnDisk c total s T files d done) (hb : d'.buffer.length = 24064)
    (ho : d'.out ≤ 24064) (hfb : d'.firstblock = d.firstblock) (ha : d'.alloc = d.alloc)
    (hss : d'.saveSect = d.saveSect) (hf : d'.files = d.files) (hh : d'.head = d.head) :
    OnDisk c total s T files d' done := by
  refine ⟨⟨hb, by rw [ha]; exact h.sized.alloc⟩, ho, ?_⟩
  rcases h.stage with ⟨hd, hu⟩ | ⟨k, hd, hp⟩
  · exact .inl ⟨hd, hfb.trans hu.firstblock, hss.trans hu.saveSect, hf.trans hu.files, by rw [hh, hu.sect],
      by rw [hh, hu.writes], by rw [hh, hu.disk]⟩
  · exact .inr ⟨k, hd, hfb.trans hp.firstblock, hss.trans hp.saveSect, hf.trans hp.files,
      by rw [ha]; exact hp.alloc, hp.le, by rw [hh]; exact hp.head⟩

end Disk

/-! ## The whole state -/

/-- The bytes in `compressed` that were not handed to `inflate` yet. -/
def ZlibSide.pending {m : ZMachine} (zp : ZlibSide m) : Bytes :=
  if zp.ended = .no ∧ zp.compressedFull ∧ zp.inp = [] then zp.compressed else []

/-- What holds in every turn: the bytes `done` of the chunk are dealt with, and `inflate` still has to
deliver `X`. -/
structure Good {m : ZMachine} (F : Bytes) (c : Chunk) (total s : ℕ) (T : ℕ → Sector) (files : ℤ)
    (st : GetState m) (done X : Bytes) : Prop where
  transfer : ∃ k, Transfer F k st.net
  pooled : Pooled st.net
  moved : st.net.moved = st.zip.handed ++ st.zip.pending
  compressed : st.zip.compressedFull = true → st.zip.compressed ≠ []
  onDisk : OnDisk c total s T files st.dsk done
  payload : done ++ st.dsk.buffer.take st.dsk.out ++ X = c.payload
  size : st.dsk.full = true → st.dsk.size = st.dsk.out
  running : st.zip.ended = .no → st.zip.state = .syncFlush ∧
    DecodesFrom m st.zip.z (st.zip.inp ++ F.drop st.zip.handed.length) X ∧
    (st.dsk.full = true ↔ st.dsk.out = 24064)
  ended : st.zip.ended ≠ .no → st.zip.inp = [] ∧ st.zip.handed = F ∧ X = []
  stream : st.zip.ended = .stream → st.dsk.full = true
  written : st.zip.ended = .written → st.dsk.full = false ∧ st.dsk.out = 0

section State

variable {m : ZMachine} {F : Bytes} {c : Chunk} {total s : ℕ} {T : ℕ → Sector} {files : ℤ}
  {st : GetState m} {done X : Bytes}

/-- The state after `restart:`. -/
theorem good_begin (hF : Decodes m F c.payload) {d : DiskSide} (hd : d.Sized) :
    Good F c total s d.head.disk d.files (GetState.begin m s d) [] c.payload where
  transfer := ⟨0, ⟨Nat.zero_le _, rfl, rfl, (decide_eq_false (by omega)).symm⟩⟩
  pooled := ⟨[], LinkedQueue.chain_empty, rfl, fun _ _ h => (by cases h), fun _ _ h => (by cases h)⟩
  moved := rfl
  compressed h := by cases h
  onDisk := ⟨⟨hd.buffer, hd.alloc⟩, Nat.zero_le _, .inl ⟨rfl, rfl, rfl, rfl, rfl, rfl, rfl⟩⟩
  payload := rfl
  size h := by cases h
  running _ := ⟨rfl, hF, by constructor <;> intro h <;> cases h⟩
  ended h := absurd rfl h
  stream h := by cases h
  written h := by cases h

theorem Good.moved_prefix (h : Good F c total s T files st done X) : st.net.moved <+: F := by
  obtain ⟨k, hk⟩ := h.transfer
  exact (List.prefix_append _ _).trans (h.pooled.received ▸ hk.prefix)

theorem Good.handed_prefix (h : Good F c total s T files st done X) : st.zip.handed <+: F :=
  (List.prefix_append _ _).trans (h.moved ▸ h.moved_prefix)

/-- The amount of work left: bytes to be used and to be delivered, and whether a buffer is waiting. -/
def GetState.left (F : Bytes) (st : GetState m) (X : Bytes) : ℕ :=
  4 * (st.zip.inp.length + (F.length - st.zip.handed.length) + X.length) +
    (if st.dsk.full then 1 else 0) + (if st.zip.compressedFull then 0 else 1)

/-! ### Handing over -/

theorem Good.hand (h : Good F c total s T files st done X) :
    Good F c total s T files { st with zip := st.zip.hand } done X ∧
      GetState.left F { st with zip := st.zip.hand } X = st.left F X ∧
      (st.zip.ended = .no → st.zip.compressedFull = true → st.zip.hand.inp ≠ []) := by
  unfold ZlibSide.hand
  by_cases hc : st.zip.ended = .no ∧ st.zip.compressedFull ∧ st.zip.inp = []
  · rw [if_pos hc]
    obtain ⟨hno, hcf, hnil⟩ := hc
    have hne := h.compressed hcf
    have hpend : st.zip.pending = st.zip.compressed := if_pos ⟨hno, hcf, hnil⟩
    have hpre : st.zip.handed ++ st.zip.compressed <+: F := by
      rw [← hpend, ← h.moved]; exact h.moved_prefix
    obtain ⟨rest, hrest⟩ := hpre
    have hdrop : st.zip.compressed ++ F.drop (st.zip.handed ++ st.zip.compressed).length =
        F.drop st.zip.handed.length := by
      rw [← hrest, List.drop_left, List.append_assoc, List.drop_left]
    refine ⟨⟨h.transfer, h.pooled, ?_, h.compressed, h.onDisk, h.payload, h.size, fun _ => ?_,
      fun he => absurd hno he, h.stream, h.written⟩, ?_, fun _ _ => hne⟩
    · have hp' : ZlibSide.pending { st.zip with inp := st.zip.compressed
                                                handed := st.zip.handed ++ st.zip.compressed } = [] :=
        if_neg fun hh => hne hh.2.2
      rw [hp', List.append_nil, ← hpend]
      exact h.moved
    · obtain ⟨h1, h2, h3⟩ := h.running hno
      rw [hnil, List.nil_append] at h2
      exact ⟨h1, by rw [hdrop]; exact h2, h3⟩
    · have hlen := congrArg List.length hrest
      simp only [List.length_append] at hlen
      simp only [GetState.left, hnil, List.length_append, List.length_nil]
      omega
  · rw [if_neg hc]
    exact ⟨h, rfl, fun h1 h2 h3 => hc ⟨h1, h2, h3⟩⟩

/-! ### Inflating -/

theorem Good.buffer_store (h : Good F c total s T files st done X) {r : ZCall m.σ}
    (hr : r.out.length ≤ 24064 - st.dsk.out) :
    (st.dsk.store r.out).buffer.length = 24064 ∧ (st.dsk.store r.out).out ≤ 24064 ∧
      (st.dsk.store r.out).buffer.take (st.dsk.store r.out).out = st.dsk.buffer.take st.dsk.out ++ r.out := by
  have hb := h.onDisk.sized.buffer
  have ho := h.onDisk.out_le
  refine ⟨?_, by show _ + _ ≤ _; omega, take_overwrite (by omega)⟩
  show (overwrite _ _ _).length = _
  rw [length_overwrite (by omega), hb]

/-- **A call of `inflate`** goes on with the chunk or ends it. -/
theorem Good.inflate (h : Good F c total s T files st done X) (hout : st.dsk.out < 24064)
    (hinp : st.zip.inp ≠ []) : ∃ st' X', st.inflate = .next st' ∧ Good F c total s T files st' done X' ∧
      st'.net = st.net ∧ st'.left F X' < st.left F X := by
  have hno : st.zip.ended = .no := by
    by_contra he; exact hinp (h.ended he).1
  obtain ⟨hstate, hdec, hfull⟩ := h.running hno
  obtain ⟨r, hr⟩ : ∃ r, r = m.call st.zip.z .syncFlush st.zip.inp (24064 - st.dsk.out) := ⟨_, rfl⟩
  have hrout : r.out.length ≤ 24064 - st.dsk.out := by rw [hr]; exact m.out_le _ _ _ _
  have hrused : r.used ≤ st.zip.inp.length := by rw [hr]; exact m.used_le _ _ _ _
  have hpos : 0 < st.zip.inp.length := List.length_pos_iff.mpr hinp
  obtain ⟨hbl, hol, htake⟩ := h.buffer_store hrout
  have hnotfull : st.dsk.full = false := by
    rw [Bool.eq_false_iff, ne_eq, hfull]; omega
  have hpend : st.zip.pending = [] := if_neg fun hh => hinp hh.2.2
  have hmoved : st.net.moved = st.zip.handed := by rw [h.moved, hpend, List.append_nil]
  obtain ⟨X', hX, hcase⟩ := hdec.call hinp (show 0 < 24064 - st.dsk.out by omega)
  rw [← hr] at hX hcase
  have hpay : done ++ (st.dsk.store r.out).buffer.take (st.dsk.store r.out).out ++ X' = c.payload := by
    rw [htake, ← h.payload, hX]; simp only [List.append_assoc]
  unfold GetState.inflate
  rw [hstate, ← hr]
  rcases hcase with ⟨hok, hprog, hnext⟩ | ⟨hend, hrest, hnil, -⟩
  · simp only [hok, reduceCtorEq, false_and, if_false, ne_eq, not_true_eq_false]
    refine ⟨_, X', rfl, ⟨h.transfer, h.pooled, ?_, ?_, ?_, ?_, ?_, fun _ => ?_,
      fun he => absurd hno he, fun he => ?_, fun he => ?_⟩, rfl, ?_⟩
    · have hp' : (st.zip.after r).release.pending = [] := by
        refine if_neg fun hh => ?_
        have h1 : (st.zip.after r).inp = [] := hh.2.2
        have h2 := hh.2.1
        unfold ZlibSide.release at h2
        rw [if_pos h1] at h2
        cases h2
      rw [hp', List.append_nil]
      exact hmoved
    · intro hcf
      refine h.compressed ?_
      have h2 : (st.zip.after r).release.compressedFull = true := hcf
      unfold ZlibSide.release at h2
      simp only at h2
      split_ifs at h2
      exact h2
    · split_ifs <;> exact h.onDisk.congr hbl hol rfl rfl rfl rfl rfl
    · split_ifs <;> exact hpay
    · intro hf
      split_ifs at hf ⊢
      · rfl
      · exact absurd hf (by rw [show (st.dsk.store r.out).full = st.dsk.full from rfl, hnotfull]; simp)
    · refine ⟨hstate, hnext, ?_⟩
      split_ifs with h24
      · exact ⟨fun _ => h24, fun _ => rfl⟩
      · exact ⟨fun hf => absurd hf (by
          rw [show (st.dsk.store r.out).full = st.dsk.full from rfl, hnotfull]; simp),
        fun ho => absurd ho h24⟩
    · exact absurd (hno.symm.trans he) (by decide)
    · exact absurd (hno.symm.trans he) (by decide)
    · have hXlen := congrArg List.length hX
      rw [List.length_append] at hXlen
      have hi' : (st.zip.after r).release.inp.length = st.zip.inp.length - r.used := List.length_drop
      have hh' : (st.zip.after r).release.handed = st.zip.handed := rfl
      unfold GetState.left
      simp only [hi', hh', hnotfull]
      split_ifs <;> omega
  · simp only [hend, reduceCtorEq, false_and, if_false, if_true]
    have hinp' : (st.zip.after r).inp = [] := (List.append_eq_nil_iff.mp hrest).1
    have hdropF : F.drop st.zip.handed.length = [] := (List.append_eq_nil_iff.mp hrest).2
    have hhanded : st.zip.handed = F := by
      refine h.handed_prefix.eq_of_length_le ?_
      simpa using hdropF
    refine ⟨_, X', rfl, ⟨h.transfer, h.pooled, ?_, h.compressed, h.onDisk.congr hbl hol rfl rfl rfl rfl rfl,
      hpay, fun _ => rfl, fun he => (by cases he), fun _ => ⟨hinp', hhanded, hnil⟩, fun _ => rfl,
      fun he => (by cases he)⟩, rfl, ?_⟩
    · have hp' : ZlibSide.pending { st.zip.after r with state := .finish, ended := .stream } = [] :=
        if_neg fun hh => by cases hh.1
      rw [hp', List.append_nil]
      exact hmoved
    · have hcf : (st.zip.after r).compressedFull = st.zip.compressedFull := rfl
      have hh' : (st.zip.after r).handed = st.zip.handed := rfl
      unfold GetState.left
      simp only [hinp', hnil, hcf, hh', hnotfull, List.length_nil, DiskSide.fill]
      simp only [if_true, Bool.false_eq_true, if_false]
      omega

/-! ### Refilling -/

theorem Good.contents_of_ended (h : Good F c total s T files st done X) (he : st.zip.ended ≠ .no) :
    st.net.pool.contents = [] := by
  obtain ⟨k, hk⟩ := h.transfer
  have h1 := h.pooled.received
  have hm : st.net.moved = F ++ st.zip.pending := by rw [h.moved, (h.ended he).2.1]
  have hlen := hk.prefix.length_le
  rw [h1, hm, List.length_append, List.length_append] at hlen
  exact List.length_eq_zero_iff.mp (by omega)

/-- **Refilling `compressed`.** -/
theorem Good.refill (h : Good F c total s T files st done X)
    (hinp : st.zip.inp = []) : (¬ st.Due ∧ st.refill = st) ∨
      (Good F c total s T files st.refill done X ∧
        (∃ pool moved, st.refill.net = { st.net with pool, moved }) ∧
        st.refill.left F X < st.left F X) := by
  rcases refill_spec h.pooled with hno | ⟨hdue, pool, bs, hne, heq, hpool⟩
  · exact .inl hno
  · right
    have hno : st.zip.ended = .no := by
      by_contra he
      have := hdue.1
      rw [h.contents_of_ended he] at this
      simp at this
    have hcf := hdue.2
    have hpend : st.zip.pending = [] := if_neg fun hh => by rw [hcf] at hh; cases hh.2.1
    obtain ⟨k, hk⟩ := h.transfer
    rw [heq]
    refine ⟨⟨⟨k, hk.le, hk.lastblk, hk.received, hk.tftpend⟩, hpool, ?_, fun _ => hne, h.onDisk,
      h.payload, h.size, h.running, h.ended, h.stream, h.written⟩, ⟨_, _, rfl⟩, ?_⟩
    · have hp' : ZlibSide.pending { st.zip with compressed := bs, compressedFull := true } = bs :=
        if_pos ⟨hno, rfl, hinp⟩
      rw [hp']
      show st.net.moved ++ bs = st.zip.handed ++ bs
      rw [h.moved, hpend, List.append_nil]
    · unfold GetState.left
      rw [hcf]
      simp

/-! ### A turn -/

/-- Nothing can be done before more of the file comes. -/
structure GetState.Idle (st : GetState m) : Prop where
  full : st.dsk.full = false
  inp : st.zip.inp = []
  waits : st.zip.ended = .no → st.zip.compressedFull = false
  notDue : ¬ st.Due

/-- The last buffer, or another one, is dealt with. -/
theorem Good.flush (h : Good F c total s T files st done X) (hf : st.dsk.full = true) {d : DiskSide}
    (hd : Flushed c total s T files (done ++ st.dsk.buffer.take st.dsk.out) d) :
    ∃ zp, zp = { st.zip with ended := if st.zip.ended = .stream then .written else st.zip.ended } ∧
      Good F c total s T files { st with dsk := d, zip := zp }
        (done ++ st.dsk.buffer.take st.dsk.out) X ∧
      GetState.left F { st with dsk := d, zip := zp } X < st.left F X := by
  have hno : ∀ {e : End}, (if e = .stream then End.written else e) = .no ↔ e = .no := by
    intro e; cases e <;> simp
  refine ⟨_, rfl, ⟨h.transfer, h.pooled, ?_, h.compressed, hd.onDisk, ?_, fun hf' => ?_, fun he => ?_,
    fun he => ?_, fun he => ?_, fun _ => ⟨hd.full, hd.out⟩⟩, ?_⟩
  · rw [h.moved]
    unfold ZlibSide.pending
    simp only [hno]
  · rw [hd.out, List.take_zero, List.append_nil]
    exact h.payload
  · rw [hd.full] at hf'; cases hf'
  · obtain ⟨h1, h2, -⟩ := h.running (hno.mp he)
    refine ⟨h1, h2, ?_⟩
    rw [hd.full, hd.out]
    constructor <;> intro h <;> cases h
  · exact h.ended fun e => he (hno.mpr e)
  · exfalso
    have hns : ∀ {e : End}, (if e = .stream then End.written else e) ≠ .stream := by
      intro e; cases e <;> simp
    exact hns he
  · unfold GetState.left
    rw [hd.full, hf]
    simp

/-- **What a turn does up to `endturn`**: it gets on with the work or has nothing to do, unless the
disk is too short. -/
theorem work_spec (h : Good F c total s T files st done X) :
    (∃ st' done' X', st.work total = .ok (.next st') ∧ Good F c total s T files st' done' X' ∧
      (∃ pool moved, st'.net = { st.net with pool, moved }) ∧
      (st'.left F X' < st.left F X ∨ (st' = st ∧ X' = X ∧ st.Idle))) ∨
    (TooLong total s (bits c.slice) ∧ ∀ o, st.work total = .ok o →
      ∃ st' done' X', o = .next st' ∧ Good F c total s T files st' done' X') := by
  unfold GetState.work
  by_cases hf : st.dsk.full = true
  · rw [if_pos hf]
    have hcond : st.dsk.out = 24064 ∨ X = [] := by
      by_cases he : st.zip.ended = .no
      · exact .inl ((h.running he).2.2.mp hf)
      · exact .inr (h.ended he).2.2
    rcases flush_spec h.onDisk (h.size hf) h.payload hcond with ⟨d, hok, hd⟩ | ⟨hlong, hall⟩
    · obtain ⟨zp, rfl, hgood, hless⟩ := h.flush hf hd
      exact .inl ⟨_, _, X, by rw [hok]; rfl, hgood, ⟨_, _, rfl⟩, .inl hless⟩
    · refine .inr ⟨hlong, fun o ho => ?_⟩
      obtain ⟨d, hok, ho⟩ := bind_eq_ok ho
      cases ho
      obtain ⟨zp, rfl, hgood, -⟩ := h.flush hf (hall d hok)
      exact ⟨_, _, X, rfl, hgood⟩
  · rw [if_neg hf]
    left
    obtain ⟨hhand, hleft, hready⟩ := h.hand
    have hroom : st.zip.ended = .no → st.dsk.out < 24064 := fun he => by
      have h1 := (h.running he).2.2
      have h2 := h.onDisk.out_le
      have h3 : st.dsk.out ≠ 24064 := fun e => hf (h1.mpr e)
      omega
    by_cases hcond : st.dsk.out < 24064 ∧ st.zip.hand.inp ≠ []
    · obtain ⟨st', X', hok, hgood, hnet, hless⟩ := hhand.inflate hcond.1 hcond.2
      refine ⟨st', done, X', by rw [if_pos hcond, hok], hgood, ⟨_, _, hnet⟩, .inl ?_⟩
      rw [← hleft]
      exact hless
    · have hinp : st.zip.hand.inp = [] := by
        by_cases he : st.zip.ended = .no
        · by_contra hne
          exact hcond ⟨hroom he, hne⟩
        · have hid : st.zip.hand = st.zip := if_neg fun hh => he hh.1
          rw [hid]
          exact (h.ended he).1
      have hid : st.zip.hand = st.zip := by
        unfold ZlibSide.hand
        refine if_neg fun hh => ?_
        exact hready hh.1 hh.2.1 hinp
      rw [if_neg hcond]
      rw [hid] at hinp
      have hst : ({ st with zip := st.zip.hand } : GetState m) = st := by rw [hid]
      rw [hst]
      rcases h.refill hinp with ⟨hnd, heq⟩ | ⟨hgood, hnet, hless⟩
      · refine ⟨st, done, X, by rw [heq], h, ⟨_, _, rfl⟩, .inr ⟨rfl, rfl, ?_⟩⟩
        refine ⟨Bool.eq_false_iff.mpr hf, hinp, fun he => ?_, hnd⟩
        rw [Bool.eq_false_iff]
        intro hcf
        exact hready he hcf (by rw [hid]; exact hinp)
      · exact ⟨_, done, X, rfl, hgood, hnet, .inl hless⟩

/-- Only the clock and the counters of the session change. -/
theorem Good.congr_net (h : Good F c total s T files st done X) {n : NetSide} (hp : n.pool = st.net.pool)
    (hl : n.lastblk = st.net.lastblk) (ht : n.tftpend = st.net.tftpend)
    (hr : n.received = st.net.received) (hm : n.moved = st.net.moved) :
    Good F c total s T files { st with net := n } done X := by
  obtain ⟨k, hk⟩ := h.transfer
  obtain ⟨q, hq⟩ := h.pooled
  exact ⟨⟨k, hk.le, hl.trans hk.lastblk, hr.trans hk.received, ht.trans hk.tftpend⟩,
    ⟨q, by rw [hp]; exact hq.chain, by rw [hr, hm, hp]; exact hq.received,
      by rw [hp, ht]; exact hq.solid, by rw [hp, ht]; exact hq.whole⟩,
    hm.trans h.moved, h.compressed, h.onDisk, h.payload, h.size, h.running, h.ended, h.stream, h.written⟩

end State

/-! ## Whole calls -/

section Calls

variable {m : ZMachine} {F : Bytes} {c : Chunk} {total s : ℕ}

/-- What a part of a turn may lead to. -/
def Outcome.Fine (F : Bytes) (c : Chunk) (total s : ℕ) : Outcome m → Prop
  | .next st => ∃ T files done X, Good F c total s T files st done X
  | .restart _ d => d.Sized
  | .ret code st => code = 0 ∧ st.zip.ended = .written ∧
      ∃ T files done X, Good F c total s T files st done X

theorem Outcome.Fine.andThen {o : Outcome m} {f : GetState m → Outcome m} (ho : o.Fine F c total s)
    (hf : ∀ st, (Outcome.next st).Fine F c total s → (f st).Fine F c total s) :
    (o.andThen f).Fine F c total s := by
  cases o with
  | next st => exact hf st ho
  | restart why d => exact ho
  | ret code st => exact ho

theorem fine_clock {st : GetState m} (ses : Session) (h : (Outcome.next st).Fine F c total s) :
    (st.clock ses).Fine F c total s := by
  obtain ⟨T, files, done, X, h⟩ := h
  unfold GetState.clock
  simp only
  generalize (if ses.tick st.net.got st.net.idle = true then st.net.timeout + 1 else st.net.timeout) = t
  split_ifs
  · exact h.onDisk.sized
  · exact ⟨T, files, done, X, h.congr_net rfl rfl rfl rfl rfl⟩

theorem fine_leave {st : GetState m} (h : (Outcome.next st).Fine F c total s) :
    st.leave.Fine F c total s := by
  unfold GetState.leave
  split_ifs with he
  · exact ⟨rfl, he, h⟩
  · exact h

/-- The session finds packets of the server of `F` only. -/
def Session.Serves (ses : Session) (F : Bytes) : Prop :=
  ∀ n b, ses.poll n = some b → b ∈ serverPackets F

theorem fine_listen (hF : F.length < 1456 * 65535) {ses : Session} (hses : ses.Serves F)
    {st : GetState m} (h : (Outcome.next st).Fine F c total s) : (st.listen ses).Fine F c total s := by
  obtain ⟨T, files, done, X, hg⟩ := id h
  unfold GetState.listen
  by_cases hf : st.dsk.full = true
  · rw [if_pos hf]; exact h
  · rw [if_neg hf]
    cases hi : getEmpty st.net.pool with
    | none => exact h
    | some i =>
      simp only
      split_ifs with hend
      · exact fine_leave h
      · have hpoll : Good F c total s T files { st with net := { st.net with polls := st.net.polls + 1 } }
            done X := hg.congr_net rfl rfl rfl rfl rfl
        cases hp : ses.poll st.net.polls with
        | none => exact ⟨T, files, done, X, hpoll⟩
        | some b =>
          obtain ⟨j, hj⟩ := List.mem_iff_getElem?.mp (hses _ b hp)
          obtain ⟨k, hk⟩ := hpoll.transfer
          refine Outcome.Fine.andThen ?_ fun st' => fine_leave
          rcases receive_server hF hk hpoll.pooled (Bool.eq_false_iff.mpr hend) hi hj with
            ⟨-, n, heq, ht, hpool, -, -, -, -, hmv⟩ | ⟨-, why, heq⟩
          · rw [heq]
            exact ⟨T, files, done, X, ⟨k + 1, ht⟩, hpool, hmv.trans hpoll.moved, hpoll.compressed,
              hpoll.onDisk, hpoll.payload, hpoll.size, hpoll.running, hpoll.ended, hpoll.stream,
              hpoll.written⟩
          · rw [heq]
            exact hpoll.onDisk.sized

/-- **A turn.** -/
theorem fine_turn (hF : F.length < 1456 * 65535) {ses : Session} (hses : ses.Serves F)
    {st : GetState m} (h : (Outcome.next st).Fine F c total s) {o : Outcome m}
    (ho : st.turn total ses = .ok o) : o.Fine F c total s := by
  obtain ⟨T, files, done, X, hg⟩ := h
  obtain ⟨o', hwork, ho⟩ := bind_eq_ok ho
  cases ho
  have hfine : o'.Fine F c total s := by
    rcases work_spec hg with ⟨st', done', X', hok, hgood, -⟩ | ⟨-, hall⟩
    · rw [hwork] at hok
      cases hok
      exact ⟨T, files, done', X', hgood⟩
    · obtain ⟨st', done', X', rfl, hgood⟩ := hall o' hwork
      exact ⟨T, files, done', X', hgood⟩
  exact hfine.andThen fun st' h' => (fine_clock ses h').andThen fun st'' => fine_listen hF hses

/-- What holds after any number of turns. -/
def Call.Fine (F : Bytes) (c : Chunk) (total s : ℕ) : Call m → Prop
  | .running _ st => ∃ T files done X, Good F c total s T files st done X
  | .returned code st => (Outcome.ret code st).Fine F c total s

/-- **A whole call**: what holds after every number of turns, whatever the network does. -/
theorem fine_after (hF : F.length < 1456 * 65535) (hdec : Decodes m F c.payload) {net : ℕ → Session}
    (hnet : ∀ k, (net k).Serves F) {d : DiskSide} (hd : d.Sized) (n : ℕ) :
    ∀ {r : Call m}, Call.after m total s net d n = .ok r → r.Fine F c total s := by
  induction n with
  | zero =>
    intro r hr
    cases hr
    exact ⟨_, _, _, _, good_begin hdec hd⟩
  | succ n ih =>
    intro r hr
    obtain ⟨r', hr', hstep⟩ := bind_eq_ok hr
    have hfine := ih hr'
    cases r' with
    | returned code st => cases hstep; exact hfine
    | running k st =>
      obtain ⟨o, ho, hstep⟩ := bind_eq_ok hstep
      have hturn := fine_turn hF (hnet k) hfine ho
      cases o with
      | next st' => cases hstep; exact hturn
      | restart why d' => cases hstep; exact ⟨_, _, _, _, good_begin hdec hturn⟩
      | ret code st' => cases hstep; exact hturn

end Calls

/-- **Download safety.** In every session, at every time, the bytes received are those moved out of
the pool and those linked in it, in order; and when `new_get` returns 0, exactly the file was handed to
`inflate`, which used all of it, and every write was of a sector of the chunk at its place. -/
theorem newGet_safe {z : Zlib} (hz : z.Contract) (hg : z.Growth) {c : Chunk} {F : Bytes}
    (hF : ChunkFile z c F) (total s : ℕ) (net : ℕ → Session)
    (hnet : ∀ k n b, (net k).poll n = some b → b ∈ serverPackets F) (d : DiskSide) (hd : d.Sized) :
    (∀ n k st, Call.after z.inflate total s net d n = .ok (.running k st) →
      st.net.received = st.net.moved ++ st.net.pool.contents ∧ st.net.received <+: F) ∧
    ∀ fuel st, newGet z.inflate total net s d fuel = .ok (0, st) →
      st.net.received = st.net.moved ++ st.net.pool.contents ∧
      st.zip.handed = F ∧ st.zip.inp = [] ∧
      ∀ w ∈ st.dsk.head.writes, w ∈ placement s (bits c.slice) c.sectors := by
  have hall := @fine_after z.inflate F c total s (hF.length_lt hg) (hF.decodes hz) net hnet d hd
  refine ⟨fun n k st hst => ?_, fun fuel st hst => ?_⟩
  · obtain ⟨T, files, done, X, h⟩ := hall n hst
    obtain ⟨j, hj⟩ := h.transfer
    exact ⟨h.pooled.received, hj.prefix⟩
  · obtain ⟨r, hr, hret⟩ := bind_eq_ok hst
    cases r with
    | running k st' => cases hret
    | returned code st' =>
      cases hret
      obtain ⟨-, he, T, files, done, X, h⟩ := hall fuel hr
      have hne : st.zip.ended ≠ .no := by rw [he]; decide
      exact ⟨h.pooled.received, (h.ended hne).2.1, (h.ended hne).1, h.onDisk.writes⟩

end LinboxRescue
