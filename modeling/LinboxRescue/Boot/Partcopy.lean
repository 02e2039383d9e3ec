import LinboxRescue.Boot.ErrorFree
import LinboxRescue.Image.RoundTrip

/-!
# `partcopy` and `restore` agree

`partcopy_func` calls `new_get` for one chunk after the other, with names built from three counters.

1. `Digits.name_ofNat`: the counters print what `%03d` prints, also past chunk 999.
2. `partcopyLoop_spec`: in error-free sessions the chunk loop asks for the chunks of the image and puts
   every sector at its place, each chunk starting where the table of the last one ends.
3. `putAll_placement`: that is what `scatter`, hence `restore`, leaves on the disk.
-/

namespace LinboxRescue

/-! ## The chunk loop -/

/-- `l1`, `l2` and `l3`. -/
structure Digits where
  l1 : ℕ
  l2 : ℕ
  l3 : ℕ

def Digits.start : Digits := ⟨0, 48, 48⟩

/-- Counting on. -/
def Digits.next (l : Digits) : Digits :=
  if 57 < l.l3 + 1 then
    if 57 < l.l2 + 1 then ⟨l.l1 + 1, 48, 48⟩ else ⟨l.l1, l.l2 + 1, 48⟩
  else ⟨l.l1, l.l2, l.l3 + 1⟩

/-- `"%s%d%c%c"`. -/
def Digits.name (path : Bytes) (l : Digits) : Bytes :=
  path ++ dec l.l1 ++ [UInt8.ofNat l.l2, UInt8.ofNat l.l3]

/-- The loop over the chunks, from number `i` and sector `curr` on: the value returned, the names of
the files asked for, and what is left in memory and on the disk. `net i` are the sessions of call
`i`. -/
def partcopyLoop (m : ZMachine) (total : ℕ) (net : ℕ → ℕ → Session) (path : Bytes) :
    ℕ → ℕ → ℤ → Digits → List Bytes → DiskSide → Except Halt (ℕ × List Bytes × DiskSide)
  | 0, _, _, _, _, _ => .error .outOfFuel
  | fuel + 1, i, curr, l, log, d =>
    if (i : ℤ) < d.files then
      newGet m total (net i) curr.toNat d fuel >>= fun r =>
        if r.1 ≠ 0 then .ok (1, log ++ [l.name path], r.2.dsk)
        else partcopyLoop m total net path fuel (i + 1) r.2.dsk.saveSect l.next
          (log ++ [l.name path]) r.2.dsk
    else .ok (0, log, d)

/-- `partcopy_func`, once its arguments are read: the target has `total` sectors, the image starts at
sector `newStart` and its name is `path`. -/
def partcopyFunc (m : ZMachine) (total : ℕ) (net : ℕ → ℕ → Session) (path : Bytes) (newStart : ℕ)
    (d : DiskSide) (fuel : ℕ) : Except Halt (ℕ × List Bytes × DiskSide) :=
  partcopyLoop m total net path fuel 0 newStart .start [] { d with files := 1 }

/-! ## Names -/

/-- The counters of chunk `i`. -/
def Digits.ofNat (i : ℕ) : Digits := ⟨i / 100, 48 + i / 10 % 10, 48 + i % 10⟩

theorem Digits.next_ofNat (i : ℕ) : (Digits.ofNat i).next = Digits.ofNat (i + 1) := by
  unfold Digits.next Digits.ofNat
  simp only
  split_ifs with h1 h2
  · rw [show (i + 1) / 100 = i / 100 + 1 by omega, show (i + 1) / 10 % 10 = 0 by omega,
      show (i + 1) % 10 = 0 by omega]
  · rw [show (i + 1) / 100 = i / 100 by omega, show (i + 1) / 10 % 10 = i / 10 % 10 + 1 by omega,
      show (i + 1) % 10 = 0 by omega, Nat.add_assoc]
  · rw [show (i + 1) / 100 = i / 100 by omega, show (i + 1) / 10 % 10 = i / 10 % 10 by omega,
      show (i + 1) % 10 = i % 10 + 1 by omega, Nat.add_assoc]

theorem pad3_eq_digits (i : ℕ) : pad3 i = dec (i / 100) ++ [digit (i / 10 % 10), digit (i % 10)] := by
  have h10 : ¬ i < 10 → dec i = dec (i / 10) ++ [digit (i % 10)] := fun h => by rw [dec_eq, if_neg h]
  rcases Nat.lt_or_ge i 10 with h | h
  · rw [pad3, dec_of_lt h, show i / 100 = 0 by omega, show i / 10 % 10 = 0 by omega,
      show i % 10 = i by omega, dec_of_lt (by omega)]
    rfl
  rcases Nat.lt_or_ge i 100 with h' | h'
  · rw [pad3, h10 (by omega), dec_of_lt (show i / 10 < 10 by omega), show i / 100 = 0 by omega,
      show i / 10 % 10 = i / 10 by omega, dec_of_lt (by omega)]
    rfl
  · have hd : dec i = dec (i / 100) ++ [digit (i / 10 % 10), digit (i % 10)] := by
      rw [h10 (by omega), dec_eq (i / 10), if_neg (by omega), Nat.div_div_eq_div_mul, List.append_assoc]
      rfl
    rw [pad3_eq_dec, hd]
    rw [hd, List.length_append]
    have := List.length_pos_of_ne_nil (dec_ne_nil (i / 100))
    show 3 ≤ _ + 2
    omega

/-- The counters print the number of the chunk as `%03d` does. -/
theorem Digits.name_ofNat (path : Bytes) (i : ℕ) : (Digits.ofNat i).name path = chunkName path i := by
  rw [chunkName, pad3_eq_digits, ← List.append_assoc]
  rfl

/-! ## Places -/

theorem placement_append {as bs : List Bool} {xs ys : List Sector} (h : xs.length = as.count true)
    (s : ℕ) : placement s (as ++ bs) (xs ++ ys) = placement s as xs ++ placement (s + as.length) bs ys := by
  unfold placement
  rw [ones_append, List.zip_append (by rw [length_ones, h])]

theorem putAll_append (T : ℕ → Sector) (v w : List (ℕ × Sector)) :
    putAll T (v ++ w) = putAll (putAll T v) w := by
  unfold putAll
  rw [List.foldl_append]

/-- Writing every sector at its place is what `scatter` does on a disk without bad sectors. -/
theorem putAll_placement {bad : ℕ → Bool} (bs : List Bool) : ∀ {xs : List Sector} {s : ℕ} {T : ℕ → Sector},
    xs.length = bs.count true → (∀ q ∈ ones s bs, bad q = false) →
    putAll T (placement s bs xs) = (scatter bad bs xs ⟨s, T⟩).cells := by
  induction bs with
  | nil => intro xs s T _ _; rfl
  | cons b bs ih =>
    intro xs s T hlen hgood
    cases b with
    | false => exact ih hlen hgood
    | true =>
      rw [ones_true, List.forall_mem_cons] at hgood
      cases xs with
      | nil => simp at hlen
      | cons x xs =>
        rw [scatter, Tape.put_of_not_bad hgood.1]
        exact ih (by simpa using hlen) hgood.2

/-! ## The image -/

/-- File `k` of the directory holds chunk `c` of an image of `nb` chunks, as `new_get` reads it. -/
structure Offered (m : ZMachine) (dir : Dir) (name : Bytes) (nb k : ℕ) (c : Chunk) : Prop where
  file : ∃ F, dir (chunkName name k) = some F ∧ Decodes m F c.payload ∧ F.length < 1456 * 65535
  blocks : (if exist (ascii "BLOCKS") c.header then some (val (ascii "BLOCKS") c.header) else none) =
    if k = 0 then some (nb : ℤ) else none
  alloc : val (ascii "ALLOCTABLELG") c.header = c.slice.length

section Image

variable {m : ZMachine} {total : ℕ} {net : ℕ → ℕ → Session} {dir : Dir} {name : Bytes} {nb : ℕ}

/-- **The chunk loop** in error-free sessions. -/
theorem partcopyLoop_spec (cs : List Chunk) : ∀ {i s : ℕ} {d : DiskSide} (log : List Bytes),
    (∀ j c, cs[j]? = some c → Offered m dir name nb (i + j) c) → i + cs.length = nb →
    (∀ j < cs.length, (net (i + j) 0).ErrorFree (serverAnswer (dir (chunkName name (i + j))))) →
    (d.files = if i = 0 then 1 else (nb : ℤ)) → (i = 0 → cs ≠ []) → d.Sized →
    (∀ q ∈ ones s (imageBits cs), q < total) →
    ∃ d', Returns (fun fuel => partcopyLoop m total net name fuel i s (.ofNat i) log d)
        (0, log ++ (List.range' i cs.length).map (chunkName name), d') ∧
      d'.head.disk = putAll d.head.disk (placement s (imageBits cs) (imageSectors cs)) := by
  induction cs with
  | nil =>
    intro i s d log _ hnb _ hfiles hne _ _
    have hi : i ≠ 0 := fun h => hne h rfl
    refine ⟨d, Returns.last fun fuel => ?_, rfl⟩
    rw [partcopyLoop, if_neg (by rw [hfiles, if_neg hi, ← hnb]; simp)]
    simp
  | cons c cs ih =>
    intro i s d log hoff hnb hnet hfiles _ hd hshort
    rw [List.length_cons] at hnb
    have hc : Offered m dir name nb i c := hoff 0 c rfl
    obtain ⟨F, hfile, hdec, hlen⟩ := hc.file
    have hses := hnet 0 (by simp)
    rw [Nat.add_zero, hfile] at hses
    rw [imageBits_cons, ones_append] at hshort
    have hc' : ¬ TooLong total s (bits c.slice) := by
      rintro ⟨q, hq, hle⟩
      have := hshort q (List.mem_append_left _ hq)
      omega
    obtain ⟨st, hret, hres⟩ := newGet_returns hlen hdec hses hc' hd
    have hsave : st.dsk.saveSect = ((s + (bits c.slice).length : ℕ) : ℤ) := by
      rw [hres.saveSect, hc.alloc, length_bits]
      push_cast
      ring
    have hfiles' : st.dsk.files = nb := by
      have hb := hc.blocks
      rw [hres.files]
      by_cases hex : exist (ascii "BLOCKS") c.header = true
      · rw [if_pos hex] at hb ⊢
        by_cases h0 : i = 0
        · rw [if_pos h0] at hb; exact Option.some.inj hb
        · rw [if_neg h0] at hb; cases hb
      · rw [if_neg hex] at hb ⊢
        by_cases h0 : i = 0
        · rw [if_pos h0] at hb; cases hb
        · exact hfiles.trans (if_neg h0)
    obtain ⟨d', hret', hdisk⟩ := @ih (i + 1) (s + (bits c.slice).length) st.dsk (log ++ [chunkName name i])
      (fun j c hj => by rw [show i + 1 + j = i + (j + 1) by ring]; exact hoff (j + 1) c hj)
      (by omega)
      (fun j hj => by
        rw [show i + 1 + j = i + (j + 1) by ring]
        exact hnet (j + 1) (by rw [List.length_cons]; omega))
      (hfiles'.trans (if_neg (by omega)).symm) (fun h => absurd h (by omega)) hres.sized
      (fun q hq => hshort q (List.mem_append_right _ hq))
    refine ⟨d', ?_, ?_⟩
    · refine Returns.step (g := fun fuel => newGet m total (net i) s d fuel >>= fun r =>
          if r.1 ≠ 0 then .ok (1, log ++ [chunkName name i], r.2.dsk)
          else partcopyLoop m total net name fuel (i + 1) r.2.dsk.saveSect (.ofNat (i + 1))
            (log ++ [chunkName name i]) r.2.dsk) (fun fuel => ?_) (Returns.bind hret ?_)
      · have hlt : (i : ℤ) < d.files := by
          rw [hfiles]
          split_ifs <;> omega
        rw [partcopyLoop, if_pos hlt, Int.toNat_natCast, Digits.name_ofNat, Digits.next_ofNat]
      · rw [List.append_assoc, List.singleton_append] at hret'
        rw [List.length_cons, List.range'_succ, List.map_cons]
        refine Returns.congr (fun fuel => ?_) hret'
        rw [if_neg (by simp), hsave]
    · rw [hdisk, hres.disk, imageBits_cons, imageSectors_cons, placement_append c.length_sectors,
        putAll_append]

end Image

section Volumes

variable {d : Source} {im : Imager} {p : Params} {buffer : Bytes} {j : ℕ} {c : Chunk}

/-- The boot loader reads in the headers of a volume what `restore` reads. -/
theorem val_volumeChunks (h : (volumeChunks d im p buffer)[j]? = some c) :
    (if exist (ascii "BLOCKS") c.header then some (val (ascii "BLOCKS") c.header) else none) =
        (if j = 0 then some (p.nb : ℤ) else none) ∧
      val (ascii "ALLOCTABLELG") c.header = c.slice.length := by
  have hnb : p.nb ≤ 2147483647 := by
    have := p.bitmap_lt
    unfold Params.nb
    omega
  have hlg : c.slice.length ≤ 2147483647 := c.slice_le.trans (by omega)
  have hbar : ∀ t : Bytes, ∀ b ∈ (ascii "|" ++ t).head?, isDigit b = false ∧ tolower b ≠ 120 := by
    intro t b hb
    cases hb
    decide
  have hnl : ∀ b ∈ (ascii "\n").head?, isDigit b = false ∧ tolower b ≠ 120 := by
    intro b hb
    cases hb
    decide
  rw [Chunk.header, text_volumeChunks h]
  split_ifs with h1 h2 h2
  · obtain ⟨hv, -⟩ := val_of_strstr (ascii "BLOCKS") hnb
      (@strstr_blocks _ _ _ im c.slice p.nbSect_lt p.nb_lt c.slice_le) (hbar _)
    exact ⟨congrArg some hv, (val_of_strstr (ascii "ALLOCTABLELG") hlg
      (strstr_alloc c.slice p.nbSect_lt p.nb_lt c.slice_le) hnl).1⟩
  · obtain ⟨-, he⟩ := val_of_strstr (ascii "BLOCKS") hnb
      (@strstr_blocks _ _ _ im c.slice p.nbSect_lt p.nb_lt c.slice_le) (hbar _)
    exact absurd he h2
  · have he := exist_of_strstr (ascii "BLOCKS") (strstr_blocks_later c.slice c.slice_le)
    rw [he] at h2
    cases h2
  · exact ⟨rfl, (val_of_strstr (ascii "ALLOCTABLELG") hlg
      (strstr_alloc_later c.slice c.slice_le) hnl).1⟩

end Volumes

/-- **The two restorers agree** on a volume that was saved without a file `options`, whose lines would
stand in the headers that both search. Over error-free sessions `partcopy_func` asks for the same files
as `restore` and leaves the same disk. -/
theorem partcopyFunc_restore {z : Zlib} (hz : z.Contract) (hg : z.Growth) (d : Source)
    (hseek : ∀ o, d.seekable o = true) (name : Bytes) (im : Imager) (p : Params) (buffer : Bytes)
    (hbuf : buffer.length = 24064) (total s : ℕ) (hB : ∀ i, Used p.bitmap i → s + i < total)
    (mem : Memory) (t : Target) (hoff : t.off = 0) (hbad : ∀ q < total, t.bad q = false)
    (hreach : ∀ o ≤ 512 * total, t.seekable o = true) (b : DiskSide) (hb : b.Sized)
    (hdisk : b.head.disk = t.cells) :
    ∃ v st, Returns (fun fuel =>
        compressVolume z fuel name none im p (d.seekTo 0) buffer Dir.empty) v ∧
      Returns (fun fuel => restore z.inflate fuel v.dir.fetch mem t s name)
        (fetchedNames name p.nb, st) ∧
      ∀ net : ℕ → ℕ → Session,
        (∀ i, (net i 0).ErrorFree (serverAnswer (v.dir (chunkName name i)))) →
        ∃ code b', Returns (fun fuel => partcopyFunc z.inflate total net name s b fuel)
            (code, fetchedNames name p.nb, b') ∧
          b'.head.disk = st.fo.cells := by
  have hused : ∀ q ∈ ones s (bits p.bitmap), q < total := by
    intro q hq
    obtain ⟨i, hi, rfl⟩ := used_iff_add.mp hq
    exact hB i hi
  have hr : Reaches t s (bits p.bitmap) := fun q hq o ho => hreach o (by have := hused q hq; omega)
  obtain ⟨v, st, hv, hst, hcells⟩ := restore_volume hz hseek name im p hbuf mem hoff hr
  obtain ⟨v', hv', hholds, hkeep⟩ := compressVolume_spec hz hseek name im p hbuf Dir.empty
  obtain rfl := hv.unique hv'
  refine ⟨v, st, hv, hst, fun net hnet => ?_⟩
  have hbits := imageBits_volumeChunks (d := d) im p buffer
  have hlen : (volumeChunks d im p buffer).length = p.nb := length_savedChunks _ _ _ _ _
  have hb' : ({ b with files := 1 } : DiskSide).Sized := ⟨hb.buffer, hb.alloc⟩
  by_cases hnb : p.nb = 0
  · -- no chunk was written, and the first file is missed
    have hnone : v.dir (chunkName name 0) = none := by
      rw [hkeep _ (chunkName_ne_idx name 0).symm fun j hj => by omega]; rfl
    have hses := hnet 0
    rw [hnone] at hses
    obtain ⟨g, hret, hg'⟩ := @newGet_missing z.inflate total s { b with files := 1 } (net 0) hses
    refine ⟨1, g.dsk, ?_, ?_⟩
    · refine Returns.step (g := fun fuel => newGet z.inflate total (net 0) s { b with files := 1 } fuel >>=
          fun r => if r.1 ≠ 0 then .ok (1, [chunkName name 0], r.2.dsk)
            else partcopyLoop z.inflate total net name fuel 1 r.2.dsk.saveSect (.ofNat 1)
              [chunkName name 0] r.2.dsk) (fun fuel => ?_) (Returns.bind hret ?_)
      · rw [partcopyFunc, partcopyLoop, if_pos (by simp), Int.toNat_natCast,
          show Digits.start = Digits.ofNat 0 from rfl, Digits.name_ofNat, Digits.next_ofNat]
        rfl
      · rw [fetchedNames, if_pos hnb]
        exact Returns.congr (fun fuel => if_pos (by simp)) (Returns.pure _)
    · have hbm : p.bitmap = [] := by
        have := p.length_bitmap_le
        rw [hnb, Nat.mul_zero, Nat.le_zero] at this
        exact List.length_eq_zero_iff.mp this
      rw [hg', hcells, hbm]
      exact hdisk
  · have hoffer : ∀ j c, (volumeChunks d im p buffer)[j]? = some c →
        Offered z.inflate v.dir name p.nb (0 + j) c := by
      intro j c hj
      obtain ⟨F, hF, hfile⟩ := hholds j c hj
      rw [Nat.zero_add] at hF ⊢
      exact ⟨⟨F, hF, hfile.decodes hz, hfile.length_lt hg⟩, (val_volumeChunks hj).1,
        (val_volumeChunks hj).2⟩
    have hne : volumeChunks d im p buffer ≠ [] := by
      intro h; rw [h] at hlen; exact hnb hlen.symm
    obtain ⟨b', hret, hb''⟩ := @partcopyLoop_spec z.inflate total net v.dir name p.nb
      (volumeChunks d im p buffer) 0 s { b with files := 1 } [] hoffer (by omega)
      (fun j _ => hnet (0 + j)) (if_pos rfl).symm
      (fun _ => hne) hb' (by rw [hbits]; exact hused)
    refine ⟨0, b', ?_, ?_⟩
    · rw [hlen, List.nil_append, ← List.range_eq_range'] at hret
      rw [fetchedNames, if_neg hnb]
      exact hret
    · have hlen' := length_imageSectors (volumeChunks d im p buffer)
      rw [hb'', hcells, hbits, ← hdisk]
      rw [hbits] at hlen'
      exact putAll_placement (bits p.bitmap) hlen' fun q hq => hbad q (hused q hq)

/-- Zeroed memory of the boot loader and a disk. -/
def DiskSide.zero (disk : ℕ → Sector) : DiskSide :=
  { buffer := zeros, out := 0, full := false, size := 0, firstblock := true
    alloc := List.replicate 22017 0, saveSect := 0, files := 1
    head := { cursor := ⟨0, 1⟩, sect := 0, disk, writes := [] } }

theorem DiskSide.sized_zero (disk : ℕ → Sector) : (DiskSide.zero disk).Sized :=
  ⟨length_zeros, by show 22016 < (List.replicate 22017 (0 : UInt8)).length; rw [List.length_replicate]; omega⟩

theorem partcopyFunc_restore_three : ∃ v st net code b',
    Returns (fun fuel => compressVolume storedZlib fuel (ascii "P1") none .raw
      (smallParams [5] (by decide))
      ((openSource [.fill 7, .fill 8, .fill 9] fun _ => false).seekTo 0) zeros Dir.empty) v ∧
    Returns (fun fuel => restore storedZlib.inflate fuel v.dir.fetch Memory.zero
      (openTarget (fun _ => .fill 0) (endsAt 66)) 63 (ascii "P1"))
      (fetchedNames (ascii "P1") (smallParams [5] (by decide)).nb, st) ∧
    (∀ i : ℕ, Session.ErrorFree (net i 0) (serverAnswer (v.dir (chunkName (ascii "P1") i)))) ∧
    Returns (fun fuel => partcopyFunc storedZlib.inflate 66 net (ascii "P1") 63
      (DiskSide.zero fun _ => .fill 0) fuel)
      (code, fetchedNames (ascii "P1") (smallParams [5] (by decide)).nb, b') ∧
    b'.head.disk = st.fo.cells := by
  obtain ⟨v, st, hv, hst, hall⟩ := partcopyFunc_restore storedZlib_contract storedZlib_growth
    (openSource [.fill 7, .fill 8, .fill 9] fun _ => false) (fun _ => rfl) (ascii "P1") .raw
    (smallParams [5] (by decide)) zeros length_zeros 66 63
    (fun _ hi => (show ∀ i ∈ ones 0 (bits [5]), 63 + i < 66 by decide) _ (used_iff.mp hi))
    Memory.zero (openTarget (fun _ => .fill 0) (endsAt 66)) rfl
    (fun q hq => decide_eq_false (by omega)) (fun _ _ => rfl) (DiskSide.zero fun _ => .fill 0)
    (DiskSide.sized_zero _) rfl
  have hnet := fun i => errorFree_prompt (serverAnswer (v.dir (chunkName (ascii "P1") i)))
  obtain ⟨code, b', hret, hdisk⟩ := hall
    (fun i _ => .prompt (serverAnswer (v.dir (chunkName (ascii "P1") i)))) hnet
  exact ⟨v, st, _, code, b', hv, hst, hnet, hret, hdisk⟩

/-! ## A session -/

theorem newGet_safe_three : ∃ c F, ChunkFile storedZlib c F ∧
    (∀ n k st, Call.after storedZlib.inflate 66 63 (fun _ => .prompt (serverPackets F))
        (DiskSide.zero fun _ => .fill 0) n = .ok (.running k st) →
      st.net.received = st.net.moved ++ st.net.pool.contents ∧ st.net.received <+: F) ∧
    ∀ fuel st, newGet storedZlib.inflate 66 (fun _ => .prompt (serverPackets F)) 63
        (DiskSide.zero fun _ => .fill 0) fuel = .ok (0, st) →
      st.net.received = st.net.moved ++ st.net.pool.contents ∧
      st.zip.handed = F ∧ st.zip.inp = [] ∧
      ∀ w ∈ st.dsk.head.writes, w ∈ placement 63 (bits c.slice) c.sectors := by
  obtain ⟨v, -, hholds, -⟩ := compressVolume_spec storedZlib_contract
    (d := openSource [.fill 7, .fill 8, .fill 9] fun _ => false) (fun _ => rfl) (ascii "P1") .raw
    (smallParams [5] (by decide)) length_zeros Dir.empty
  obtain ⟨c, hc⟩ : ∃ c, (volumeChunks (openSource [.fill 7, .fill 8, .fill 9] fun _ => false) .raw
      (smallParams [5] (by decide)) zeros)[0]? = some c := ⟨_, rfl⟩
  obtain ⟨F, -, hF⟩ := hholds 0 c hc
  exact ⟨c, F, hF, newGet_safe storedZlib_contract storedZlib_growth hF 66 63 _
    (fun _ n b hb => List.mem_of_getElem? hb) _ (DiskSide.sized_zero _)⟩

end LinboxRescue
