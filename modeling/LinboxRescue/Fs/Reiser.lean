import LinboxRescue.Lib.Bitmap
import LinboxRescue.Lib.CString
import LinboxRescue.Lib.Device
import LinboxRescue.Lib.Fuel
import LinboxRescue.Lib.Loop
import LinboxRescue.Lib.Stream

/-!
# The used sectors of a ReiserFS volume

`image_lvmreiserfs.c` reads the bitmap blocks of a ReiserFS volume that starts at an offset of its
device, puts them together, and sets the bits of the sectors in front of the volume and of the blocks
in use. `lvm_check` stores the offset as a `long long`, but `myreiserfs_open` takes a `long`.

1. `myreiserfsOpen_eq`: the superblock is found, and the bitmap blocks are read where they are.
2. `fetchDiskBitmap_eq`: the pieces of the bitmap blocks, without the padding, are one bitmap.
3. `bitAt_allocatedSectors`: the bits that are set for a bitmap of blocks.
4. `mapsUsed_iff`: when the bitmap is the one of the volume.
-/

namespace LinboxRescue

/-! ## `myreiserfs_open` -/

/-- Why there is no bitmap. -/
inductive ReiserHalt
  /-- No superblock, which is the error 666. -/
  | notFound
  /-- The block size is not 4096. -/
  | blocksize
  /-- An index is outside its array, or an assertion fails. -/
  | outside
  deriving DecidableEq, Repr

/-- The `unsigned long` with the same low 32 bits. -/
def ulong (n : ℤ) : ℕ := (n % 2 ^ 32).toNat

/-- `bread(fd, block, size)`. The buffers are looked up in a table at `block % 4096`, where `block` is
an `int`. -/
def bread (dev : Device) (block size : ℕ) : Except ReiserHalt (Option Bytes) :=
  if wrapInt block < 0 ∧ block % 4096 ≠ 0 then .error .outside
  else .ok (dev.read (size * block) size)

def rsBlockCount (rs : Bytes) : ℕ := leVal (rs.take 4)

def rsBlocksize (rs : Bytes) : ℕ := leVal ((rs.drop 44).take 2)

def rsBmapNr (rs : Bytes) : ℕ := leVal ((rs.drop 70).take 2)

def isReiserfsMagicString (rs : Bytes) : Bool := (rs.drop 52).take 8 == ascii "ReIsErFs"

def isReiser2fsMagicString (rs : Bytes) : Bool := (rs.drop 52).take 9 == ascii "ReIsEr2Fs"

/-- The signature of either format. -/
def isMagic (rs : Bytes) : Bool := isReiser2fsMagicString rs || isReiserfsMagicString rs

/-- The number and the data of block `i` behind the offset, when there is a signature. -/
def probe (dev : Device) (offset : ℤ) (i : ℕ) : Except ReiserHalt (Option (ℕ × Bytes)) :=
  let block := ulong (i + offset.tdiv 4096)
  (bread dev block 4096).map fun bh => (bh.filter isMagic).map (block, ·)

/-- `fs`, with `b_blocknr` of the buffer of the superblock. -/
structure Reiserfs where
  blocknr : ℕ
  rs : Bytes
  bitmaps : List Bytes

/-- `myreiserfs_read_bitmap_blocks(fs, offset)`. A block that cannot be read is all in use. -/
def readBitmapBlocks (dev : Device) (blocknr : ℕ) (rs : Bytes) (offset : ℤ) :
    Except ReiserHalt Reiserfs :=
  let blocknr := ulong (blocknr - offset.tdiv 4096)
  let turn (st : List Bytes × ℕ) (i : ℕ) : Except ReiserHalt (List Bytes × ℕ) :=
    (bread dev (ulong (st.2 + offset.tdiv 4096)) (rsBlocksize rs)).map fun bh =>
      (st.1 ++ [bh.getD (List.replicate (rsBlocksize rs) 0xFF)],
        if blocknr = 16 then (i + 1) * rsBlocksize rs * 8 % 2 ^ 32 else (st.2 + 1) % 2 ^ 32)
  ((List.range (rsBmapNr rs)).foldlM turn ([], (blocknr + 1) % 2 ^ 32)).map fun st =>
    ⟨blocknr, rs, st.1⟩

/-- `myreiserfs_open(filename, flags, error, vp, offset)`, where `offset` is a `long`. -/
def myreiserfsOpen (dev : Device) (offset : ℤ) : Except ReiserHalt Reiserfs :=
  probe dev offset 16 >>= fun
    | some (blocknr, rs) => readBitmapBlocks dev blocknr rs offset
    | none => probe dev offset 2 >>= fun
      | some (blocknr, rs) => readBitmapBlocks dev blocknr rs offset
      | none => .error .notFound

/-! ## `myreiserfs_fetch_disk_bitmap` -/

/-- `bm->bm_byte_size`. -/
def bmByteSize (bitSize : ℕ) : ℕ := (bitSize + 7) % 2 ^ 32 / 8

/-- `memcpy(p, piece, bytes); p += bytes`, where the state is the area and `p`. -/
def memcpyNext (st : Bytes × ℕ) (piece : Bytes) : Option (Bytes × ℕ) :=
  if st.2 + piece.length ≤ st.1.length then
    some (overwrite st.1 st.2 piece, st.2 + piece.length)
  else none

/-- `bytes` for bitmap block `i`. -/
def Reiserfs.bytes (fs : Reiserfs) (i : ℕ) : ℕ :=
  let byteSize := bmByteSize (rsBlockCount fs.rs)
  if i + 1 = rsBmapNr fs.rs ∧ byteSize % rsBlocksize fs.rs ≠ 0 then byteSize % rsBlocksize fs.rs
  else rsBlocksize fs.rs

/-- `myreiserfs_fetch_disk_bitmap(bm, fs)`: `bm->bm_map`, unless something is outside it. -/
def Reiserfs.fetchDiskBitmap (fs : Reiserfs) : Option Bytes :=
  let bitSize := rsBlockCount fs.rs
  let byteSize := bmByteSize bitSize
  (fs.bitmaps.zipIdx.foldlM (fun st b => memcpyNext st (b.1.take (fs.bytes b.2)))
      (List.replicate byteSize 0, 0)).bind fun st =>
    -- the bits behind the last block are set on the disk
    (List.range (byteSize * 8 - bitSize)).foldlM (fun map i => clearBit map (bitSize + i)) st.1

/-! ## `allocated_sectors` -/

/-- `reiserfs_bitmap_test_bit(bm, bit_number)`, unless its assertion fails. -/
def reiserfsBitmapTestBit (map : Bytes) (bitSize n : ℕ) : Option Bool :=
  if n < bitSize then bitAt map n else none

/-- `p`, with the number of sectors in use and whether the program ends because the volume has not the
size that `lvm_check` has found. -/
structure SectorMap where
  bitmap : Bytes
  nbSect : ℕ
  used : ℕ
  refused : Bool

/-- A turn of the loop over the sectors of the volume. -/
def sectorTurn (map : Bytes) (blocks off : ℕ) (st : Bytes × ℕ) (i : ℕ) : Option (Bytes × ℕ) :=
  (reiserfsBitmapTestBit map blocks (i / 8)).bind fun bit =>
    if bit then (setBit st.1 ((i + off) % 2 ^ 32)).map (·, st.2 + 1) else some st

/-- `allocated_sectors(p, cp)`, with `lvm_sect`. -/
def Reiserfs.allocatedSectors (map : Bytes) (blocks offset lvmSect : ℕ) : Option SectorMap :=
  let nbSect := blocks * 8 % 2 ^ 32
  let off := offset / 512
  ((List.range off).foldlM setBit (List.replicate ((nbSect + off + 7) / 8) 0)).bind fun p =>
    ((List.range nbSect).foldlM (sectorTurn map blocks off) (p, 0)).map fun st =>
      ⟨st.1, nbSect + off, st.2 + off, nbSect != lvmSect && lvmSect != 0⟩

/-- `main` up to `allocated_sectors`, when `lvm_check` has stored `offset` and `lvmSect`. -/
def imageReiserfs (dev : Device) (offset : ℤ) (lvmSect : ℕ) : Except ReiserHalt SectorMap :=
  myreiserfsOpen dev (wrapInt offset) >>= fun fs =>
    if rsBlocksize fs.rs ≠ 4096 then .error .blocksize
    else
      match fs.fetchDiskBitmap.bind fun map =>
          Reiserfs.allocatedSectors map (rsBlockCount fs.rs) (ulong offset) lvmSect with
      | some p => .ok p
      | none => .error .outside

/-! ## The volume -/

/-- The new format has the superblock in block 16 and a bitmap block in front of every 32768 blocks,
the old one has the superblock in block 2 and the bitmap blocks one after the other. -/
inductive ReiserFormat
  | new | old
  deriving DecidableEq, Repr

/-- The block with the superblock. -/
def ReiserFormat.base : ReiserFormat → ℕ
  | .new => 16
  | .old => 2

/-- The block with the marks of the blocks from `32768 * i` on. -/
def ReiserFormat.bitmapBlock : ReiserFormat → ℕ → ℕ
  | .new, 0 => 17
  | .new, i + 1 => 32768 * (i + 1)
  | .old, i => 3 + i

/-- The number of bitmap blocks. -/
def bmapNr (count : ℕ) : ℕ := (count + 32767) / 32768

/-- There is a signature in the block at `off`. -/
def SignatureAt (dev : Device) (off : ℕ) : Prop :=
  ∃ rs, dev.read off 4096 = some rs ∧ isMagic rs = true

/-- A volume of `count` blocks at an offset of the device, whose bitmap blocks can be read. A volume in
the old format may have something that looks like a superblock in its block 16, for example in its
journal; `copy` says whether it has. -/
structure ReiserVolume (dev : Device) (offset : ℕ) (fmt : ReiserFormat) (count : ℕ) (copy : Bool) :
    Prop where
  superblock : ∃ rs, dev.read (offset + 4096 * fmt.base) 4096 = some rs ∧ isMagic rs = true ∧
    rsBlocksize rs = 4096 ∧ rsBlockCount rs = count ∧ rsBmapNr rs = bmapNr count
  bitmaps : ∀ i < bmapNr count, ∃ map, dev.read (offset + 4096 * fmt.bitmapBlock i) 4096 = some map
  copy_iff : fmt = .old → (SignatureAt dev (offset + 4096 * 16) ↔ copy = true)

/-- Block `b` is marked in its bitmap block. -/
def MarkedUsed (dev : Device) (offset : ℕ) (fmt : ReiserFormat) (b : ℕ) : Prop :=
  ∃ map, dev.read (offset + 4096 * fmt.bitmapBlock (b / 32768)) 4096 = some map ∧
    bitAt map (b % 32768) = some true

/-- The bits that are set are those of the sectors in front of the volume and of the blocks marked
used. -/
def MapsUsed (dev : Device) (offset : ℕ) (fmt : ReiserFormat) (count lvmSect : ℕ) : Prop :=
  ∃ p, imageReiserfs dev offset lvmSect = .ok p ∧ ∀ i, bitAt p.bitmap i = some true ↔
    i < offset / 512 ∨ (offset / 512 ≤ i ∧ (i - offset / 512) / 8 < count ∧
      MarkedUsed dev offset fmt ((i - offset / 512) / 8))

/-! ## The superblock and the bitmap blocks -/

theorem ulong_natCast {n : ℕ} (h : n < 2 ^ 32) : ulong n = n := by
  unfold ulong
  omega

theorem bread_of_lt {dev : Device} {block : ℕ} (h : block < 2 ^ 31) (size : ℕ) :
    bread dev block size = .ok (dev.read (size * block) size) := by
  have hwrap : wrapInt block = block := wrapInt_of_range (by omega) (by omega)
  unfold bread
  rw [if_neg (by rw [hwrap]; omega)]

/-- The block number that an offset of `k` blocks gives. -/
theorem tdiv_block (k : ℕ) : ((4096 * k : ℕ) : ℤ).tdiv 4096 = k := by
  rw [Int.tdiv_eq_ediv_of_nonneg (by omega)]
  omega

theorem probe_of_lt {dev : Device} {i k : ℕ} (h : i + k < 2 ^ 31) :
    probe dev (4096 * k : ℕ) i =
      .ok (((dev.read (4096 * (i + k)) 4096).filter isMagic).map (i + k, ·)) := by
  have hblock : ulong (i + ((4096 * k : ℕ) : ℤ).tdiv 4096) = i + k := by
    rw [tdiv_block, ← Nat.cast_add, ulong_natCast (by omega)]
  unfold probe
  dsimp only
  rw [hblock, bread_of_lt h]
  rfl

theorem bitmapBlock_lt {fmt : ReiserFormat} {count i : ℕ} (h : i < bmapNr count) :
    fmt.bitmapBlock i < count + 18 := by
  unfold bmapNr at h
  cases fmt with
  | new =>
    cases i with
    | zero =>
      show 17 < count + 18
      omega
    | succ i =>
      show 32768 * (i + 1) < count + 18
      omega
  | old =>
    show 3 + i < count + 18
    omega

/-- `block` at the end of a turn. -/
theorem ReiserFormat.next_block (fmt : ReiserFormat) {i : ℕ} (h : i < 2 ^ 13) :
    (if fmt.base = 16 then (i + 1) * 4096 * 8 % 2 ^ 32 else (fmt.bitmapBlock i + 1) % 2 ^ 32) =
      fmt.bitmapBlock (i + 1) := by
  cases fmt with
  | new =>
    rw [if_pos (show ReiserFormat.base .new = 16 from rfl), Nat.mod_eq_of_lt (by omega)]
    show _ = 32768 * (i + 1)
    omega
  | old =>
    rw [if_neg (by decide)]
    show (3 + i + 1) % 2 ^ 32 = 3 + (i + 1)
    omega

/-- The bitmap blocks are read where they are. -/
theorem readBitmapBlocks_eq {dev : Device} {k : ℕ} {fmt : ReiserFormat} {count : ℕ} {rs : Bytes}
    {data : ℕ → Bytes} (hk : k < 2 ^ 19) (hcount : count < 2 ^ 28) (hsize : rsBlocksize rs = 4096)
    (hnr : rsBmapNr rs = bmapNr count)
    (hdata : ∀ i < bmapNr count, dev.read (4096 * k + 4096 * fmt.bitmapBlock i) 4096 = some (data i)) :
    readBitmapBlocks dev (fmt.base + k) rs (4096 * k : ℕ) =
      .ok ⟨fmt.base, rs, (List.range (bmapNr count)).map data⟩ := by
  have hbase : fmt.base ≤ 16 := by cases fmt <;> decide
  have hlast : bmapNr count ≤ 2 ^ 13 := by
    unfold bmapNr
    omega
  have hblocknr : ulong ((fmt.base + k : ℕ) - (k : ℤ)) = fmt.base := by
    rw [Nat.cast_add, add_sub_cancel_right, ulong_natCast (by omega)]
  have hfirst : (fmt.base + 1) % 2 ^ 32 = fmt.bitmapBlock 0 := by cases fmt <;> rfl
  unfold readBitmapBlocks
  dsimp only
  rw [tdiv_block, hblocknr, hfirst, hsize, hnr]
  -- the turns for the blocks before `m`
  have hloop : ∀ m ≤ bmapNr count, (List.range m).foldlM (fun (st : List Bytes × ℕ) i =>
      (bread dev (ulong (st.2 + (k : ℤ))) 4096).map fun bh =>
        (st.1 ++ [bh.getD (List.replicate 4096 0xFF)],
          if fmt.base = 16 then (i + 1) * 4096 * 8 % 2 ^ 32 else (st.2 + 1) % 2 ^ 32))
      ([], fmt.bitmapBlock 0) = .ok ((List.range m).map data, fmt.bitmapBlock m) := by
    intro m
    induction m with
    | zero => exact fun _ => rfl
    | succ m ih =>
      intro hm
      have hb := @bitmapBlock_lt fmt count m hm
      rw [foldlM_range_succ, ih (by omega), ok_bind, List.range_succ, List.map_append]
      dsimp only
      rw [← Nat.cast_add, ulong_natCast (by omega), bread_of_lt (by omega), Nat.add_comm _ k,
        Nat.mul_add, hdata m hm, fmt.next_block (by omega), map_ok]
      rfl
  rw [hloop _ le_rfl]
  rfl

/-- The superblock of the volume is found, and its bitmap blocks are read. -/
theorem myreiserfsOpen_eq {dev : Device} {k count : ℕ} {fmt : ReiserFormat} {copy : Bool}
    (hk : k < 2 ^ 19) (hcount : count < 2 ^ 28) (hvol : ReiserVolume dev (4096 * k) fmt count copy)
    (hcopy : ¬ (fmt = .old ∧ copy = true)) {data : ℕ → Bytes} (hdata : ∀ i < bmapNr count,
      dev.read (4096 * k + 4096 * fmt.bitmapBlock i) 4096 = some (data i)) :
    ∃ rs, rsBlocksize rs = 4096 ∧ rsBlockCount rs = count ∧ rsBmapNr rs = bmapNr count ∧
      myreiserfsOpen dev (4096 * k : ℕ) =
        .ok ⟨fmt.base, rs, (List.range (bmapNr count)).map data⟩ := by
  obtain ⟨rs, hrs, hmagic, hsize, hbc, hnr⟩ := hvol.superblock
  have hread := readBitmapBlocks_eq hk hcount hsize hnr hdata
  have hat : ∀ i, 4096 * k + 4096 * i = 4096 * (i + k) := fun i => by ring
  have hfound : ((dev.read (4096 * (fmt.base + k)) 4096).filter isMagic).map (fmt.base + k, ·) =
      some (fmt.base + k, rs) := by
    rw [← hat, hrs, Option.filter_some_pos hmagic]
    rfl
  refine ⟨rs, hsize, hbc, hnr, ?_⟩
  unfold myreiserfsOpen
  rw [probe_of_lt (by omega)]
  cases fmt with
  | new =>
    have hfound : ((dev.read (4096 * (16 + k)) 4096).filter isMagic).map (16 + k, ·) = _ := hfound
    rw [hfound]
    exact hread
  | old =>
    -- there is no signature in block 16
    have hnone : (dev.read (4096 * (16 + k)) 4096).filter isMagic = none := by
      rw [Option.filter_eq_none_iff]
      intro rs' hrs' hmagic'
      exact hcopy ⟨rfl, (hvol.copy_iff rfl).mp ⟨rs', by rw [hat, hrs'], hmagic'⟩⟩
    have hfound : ((dev.read (4096 * (2 + k)) 4096).filter isMagic).map (2 + k, ·) = _ := hfound
    rw [hnone, Option.map_none, ok_bind]
    dsimp only
    rw [probe_of_lt (by omega), hfound]
    exact hread

/-! ## The bitmap of the blocks -/

/-- Byte `p` of the bitmap blocks, one behind the other. -/
def blockByte (data : ℕ → Bytes) (p : ℕ) : UInt8 := byteAt (data (p / 4096)) (p % 4096)

theorem take_eq_blockByte {data : ℕ → Bytes} {i n : ℕ} (hlen : (data i).length = 4096)
    (hn : n ≤ 4096) :
    (data i).take n = (List.range n).map fun r => blockByte data (4096 * i + r) := by
  apply List.ext_getElem
  · rw [List.length_take, List.length_map, List.length_range, hlen, Nat.min_eq_left hn]
  · intro r h1 h2
    have hr : r < n := by rwa [List.length_map, List.length_range] at h2
    have hdiv : (4096 * i + r) / 4096 = i := by omega
    have hmod : (4096 * i + r) % 4096 = r := by omega
    rw [List.getElem_take, List.getElem_map, List.getElem_range]
    unfold blockByte byteAt
    rw [hdiv, hmod, List.getD_eq_getElem _ _ (by omega)]

theorem bitAt_blockBytes {data : ℕ → Bytes} {n b : ℕ} (hlen : (data (b / 32768)).length = 4096)
    (hb : b / 8 < n) : bitAt ((List.range n).map (blockByte data)) b =
      bitAt (data (b / 32768)) (b % 32768) := by
  have hdiv : b / 8 / 4096 = b / 32768 := by omega
  have hmod : b / 8 % 4096 = b % 32768 / 8 := by omega
  have hbit : b % 32768 % 8 = b % 8 := by omega
  rw [bitAt_eq, bitAt_eq, getElem?_bits, getElem?_bits, hbit, List.getElem?_map,
    List.getElem?_range hb, Option.map_some, Option.map_some]
  unfold blockByte byteAt
  rw [hdiv, hmod, List.getD_eq_getElem _ _ (by omega), List.getElem?_eq_getElem (by omega),
    Option.map_some]

theorem zipIdx_map_range {α : Type} (f : ℕ → α) (n : ℕ) :
    ((List.range n).map f).zipIdx = (List.range n).map fun i => (f i, i) := by
  apply List.ext_getElem
  · rw [List.length_zipIdx, List.length_map, List.length_map]
  · intro i h1 h2
    rw [List.getElem_zipIdx, List.getElem_map, List.getElem_map, List.getElem_range, Nat.zero_add]

theorem memcpyNext_append {done piece : Bytes} {room : ℕ} (h : piece.length ≤ room) :
    memcpyNext (done ++ List.replicate room 0, done.length) piece =
      some (done ++ piece ++ List.replicate (room - piece.length) 0, done.length + piece.length) := by
  unfold memcpyNext overwrite
  dsimp only
  rw [if_pos (by rw [List.length_append, List.length_replicate]; omega), List.take_left,
    List.drop_length_add_append, List.drop_replicate]

section Fetch

variable {fs : Reiserfs} {count : ℕ} {data : ℕ → Bytes} (hcount : count < 2 ^ 28)
  (hsize : rsBlocksize fs.rs = 4096) (hbc : rsBlockCount fs.rs = count)
  (hnr : rsBmapNr fs.rs = bmapNr count) (hlen : ∀ i < bmapNr count, (data i).length = 4096)

theorem bmByteSize_eq (hcount : count < 2 ^ 28) : bmByteSize count = (count + 7) / 8 := by
  unfold bmByteSize
  omega

include hcount hsize hbc hnr

/-- All pieces are whole blocks, but the last one ends with the bitmap. -/
theorem Reiserfs.bytes_eq {m : ℕ} (hm : m < bmapNr count) :
    fs.bytes m = min (4096 * (m + 1)) ((count + 7) / 8) - min (4096 * m) ((count + 7) / 8) := by
  unfold bmapNr at hm hnr
  unfold Reiserfs.bytes
  dsimp only
  rw [hsize, hbc, hnr, bmByteSize_eq hcount]
  split_ifs with h <;> omega

include hlen

/-- The pieces that are copied make the bitmap. -/
theorem foldlM_memcpyNext {m : ℕ} (hm : m ≤ bmapNr count) :
    (List.range m).foldlM (fun st i => memcpyNext st ((data i).take (fs.bytes i)))
        (List.replicate ((count + 7) / 8) 0, 0) =
      some ((List.range (min (4096 * m) ((count + 7) / 8))).map (blockByte data) ++
        List.replicate ((count + 7) / 8 - min (4096 * m) ((count + 7) / 8)) 0,
          min (4096 * m) ((count + 7) / 8)) := by
  induction m with
  | zero =>
    rw [Nat.mul_zero, Nat.zero_min]
    rfl
  | succ m ih =>
    have hbytes := Reiserfs.bytes_eq hcount hsize hbc hnr hm
    have hlt : 4096 * m < (count + 7) / 8 := by
      unfold bmapNr at hm
      omega
    rw [Nat.min_eq_left hlt.le] at ih hbytes
    obtain ⟨c, hc⟩ : ∃ c, c = min (4096 * (m + 1)) ((count + 7) / 8) := ⟨_, rfl⟩
    rw [← hc] at hbytes ⊢
    have hpiece : (data m).take (fs.bytes m) =
        (List.range (c - 4096 * m)).map fun r => blockByte data (4096 * m + r) := by
      rw [hbytes]
      exact take_eq_blockByte (hlen m hm) (by omega)
    have hdone : ((List.range (4096 * m)).map (blockByte data)).length = 4096 * m := by
      rw [List.length_map, List.length_range]
    have hnext := @memcpyNext_append ((List.range (4096 * m)).map (blockByte data))
      ((data m).take (fs.bytes m)) ((count + 7) / 8 - 4096 * m) (by
        rw [hpiece, List.length_map, List.length_range]
        omega)
    rw [foldlM_range_succ, ih (by omega)]
    show memcpyNext _ _ = _
    rw [hdone] at hnext
    rw [hnext, hpiece, List.length_map, List.length_range]
    have hsplit : (List.range c).map (blockByte data) = (List.range (4096 * m)).map (blockByte data) ++
        (List.range (c - 4096 * m)).map fun r => blockByte data (4096 * m + r) := by
      have hadd : c = 4096 * m + (c - 4096 * m) := by omega
      conv_lhs => rw [hadd, List.range_add, List.map_append, List.map_map]
      rfl
    rw [hsplit]
    have hroom : (count + 7) / 8 - 4096 * m - (c - 4096 * m) = (count + 7) / 8 - c := by omega
    have hp : 4096 * m + (c - 4096 * m) = c := by omega
    rw [hroom, hp]

/-- The bitmap that is fetched has the bits of the bitmap blocks. -/
theorem fetchDiskBitmap_eq (hmaps : fs.bitmaps = (List.range (bmapNr count)).map data) :
    ∃ map, fs.fetchDiskBitmap = some map ∧ ∀ b < count,
      bitAt map b = bitAt (data (b / 32768)) (b % 32768) := by
  have hloop := foldlM_memcpyNext hcount hsize hbc hnr hlen le_rfl
  have hall : min (4096 * bmapNr count) ((count + 7) / 8) = (count + 7) / 8 := by
    unfold bmapNr
    omega
  rw [hall, Nat.sub_self, List.replicate_zero, List.append_nil] at hloop
  have hmap : ((List.range ((count + 7) / 8)).map (blockByte data)).length = (count + 7) / 8 := by
    rw [List.length_map, List.length_range]
  -- the bits behind the last block
  obtain ⟨map, hclear, hlenmap, hbits⟩ := @foldlM_clearBit_eq_some
    ((List.range ((count + 7) / 8 * 8 - count)).map (count + ·))
    ((List.range ((count + 7) / 8)).map (blockByte data)) (by
      intro i hi
      obtain ⟨j, hj, rfl⟩ := List.mem_map.mp hi
      have hj := List.mem_range.mp hj
      omega)
  rw [List.foldlM_map] at hclear
  refine ⟨map, ?_, fun b hb => ?_⟩
  · unfold Reiserfs.fetchDiskBitmap
    dsimp only
    rw [hbc, bmByteSize_eq hcount, hmaps, zipIdx_map_range, List.foldlM_map, hloop]
    exact hclear
  · have hblock : b / 32768 < bmapNr count := by
      unfold bmapNr
      omega
    have hnot : b ∉ (List.range ((count + 7) / 8 * 8 - count)).map (count + ·) := by
      intro hmem
      obtain ⟨j, -, hj⟩ := List.mem_map.mp hmem
      omega
    rw [← bitAt_blockBytes (hlen _ hblock) (show b / 8 < (count + 7) / 8 by omega)]
    exact bitAt_congr (by omega) (by omega) ((hbits b).trans (and_iff_left hnot))

end Fetch

/-! ## The bits that are set -/

theorem mem_flatMap_sectors {count off j : ℕ} {used : ℕ → Bool} :
    j ∈ ((List.range (count * 8)).flatMap fun i => if used (i / 8) then [i + off] else []) ↔
      off ≤ j ∧ (j - off) / 8 < count ∧ used ((j - off) / 8) = true := by
  rw [List.mem_flatMap]
  constructor
  · rintro ⟨i, hi, hj⟩
    have hi := List.mem_range.mp hi
    split_ifs at hj with hused
    · obtain rfl := List.mem_singleton.mp hj
      rw [Nat.add_sub_cancel]
      exact ⟨Nat.le_add_left _ _, by omega, hused⟩
    · exact absurd hj List.not_mem_nil
  · rintro ⟨hoff, hlt, hused⟩
    refine ⟨j - off, List.mem_range.mpr (by omega), ?_⟩
    rw [if_pos hused, Nat.sub_add_cancel hoff]
    exact List.mem_singleton_self j

/-- The bits of the sectors in front of the volume are set, and those of the blocks in use. -/
theorem bitAt_allocatedSectors {map : Bytes} {count offset : ℕ}
    (hmap : ∀ b < count, (bitAt map b).isSome) (hsect : offset / 512 + 8 * count < 2 ^ 31)
    (lvmSect : ℕ) : ∃ p, Reiserfs.allocatedSectors map count offset lvmSect = some p ∧
      ∀ i, bitAt p.bitmap i = some true ↔ i < offset / 512 ∨ (offset / 512 ≤ i ∧
        (i - offset / 512) / 8 < count ∧ bitAt map ((i - offset / 512) / 8) = some true) := by
  obtain ⟨off, hoff⟩ : ∃ off, off = offset / 512 := ⟨_, rfl⟩
  rw [← hoff] at hsect ⊢
  obtain ⟨used, hused⟩ : ∃ used : ℕ → Bool, used = fun b => (bitAt map b).getD false := ⟨_, rfl⟩
  have hbit : ∀ b < count, bitAt map b = some (used b) := by
    intro b hb
    obtain ⟨x, hx⟩ := Option.isSome_iff_exists.mp (hmap b hb)
    rw [hused]
    dsimp only
    rw [hx]
    rfl
  have hlg : (count * 8 + off + 7) / 8 * 8 ≥ count * 8 + off := by omega
  -- the sectors in front of the volume
  obtain ⟨p1, hp1, hlen1, hbits1⟩ := @foldlM_setBit_eq_some (List.range off)
    (List.replicate ((count * 8 + off + 7) / 8) 0) (by
      intro i hi
      have hi := List.mem_range.mp hi
      rw [List.length_replicate]
      omega)
  -- the sectors of the blocks in use
  obtain ⟨p2, hp2, -, hbits2⟩ := @foldlM_setBit_eq_some
    ((List.range (count * 8)).flatMap fun i => if used (i / 8) then [i + off] else []) p1 (by
      intro i hi
      obtain ⟨h1, h2, -⟩ := mem_flatMap_sectors.mp hi
      rw [hlen1, List.length_replicate]
      omega)
  have hturn : ∀ i ∈ List.range (count * 8), ∀ p n, sectorTurn map count off (p, n) i =
      ((if used (i / 8) then [i + off] else []).foldlM setBit p).map
        (·, if used (i / 8) then n + 1 else n) := by
    intro i hi p n
    have hi := List.mem_range.mp hi
    unfold sectorTurn reiserfsBitmapTestBit
    rw [if_pos (by omega), hbit _ (by omega), Option.bind_some, Nat.mod_eq_of_lt (by omega)]
    split_ifs
    · rw [List.foldlM_cons]
      cases setBit p (i + off) <;> rfl
    · rfl
  have hloop := foldlM_outputs hturn p1 0
  rw [outputs_eq_flatMap _ (fun i => if used (i / 8) then [i + off] else []), hp2] at hloop
  obtain ⟨n, u, r, hval⟩ :
      ∃ n u r, Reiserfs.allocatedSectors map count offset lvmSect = some ⟨p2, n, u, r⟩ := by
    unfold Reiserfs.allocatedSectors
    dsimp only
    rw [Nat.mod_eq_of_lt (by omega), ← hoff, hp1, Option.bind_some, hloop]
    exact ⟨_, _, _, rfl⟩
  refine ⟨_, hval, fun i => ?_⟩
  show bitAt p2 i = some true ↔ _
  rw [hbits2, hbits1, or_iff_right (bitAt_zeros _ i), List.mem_range, mem_flatMap_sectors]
  refine or_congr_right (and_congr_right fun _ => and_congr_right fun hlt => ?_)
  rw [hbit _ hlt, Option.some.injEq]

/-! ## The volumes that are saved right -/

/-- The offset of the volume is a `long`, and no other block is taken for its superblock. -/
theorem mapsUsed_of_near {dev : Device} {k count : ℕ} {fmt : ReiserFormat} {copy : Bool}
    (hk : k < 2 ^ 19) (hsect : 4096 * k / 512 + 8 * count < 2 ^ 31)
    (hvol : ReiserVolume dev (4096 * k) fmt count copy) (hcopy : ¬ (fmt = .old ∧ copy = true))
    (lvmSect : ℕ) : MapsUsed dev (4096 * k) fmt count lvmSect := by
  have hcount : count < 2 ^ 28 := by omega
  obtain ⟨data, hdata⟩ : ∃ data : ℕ → Bytes, ∀ i < bmapNr count,
      dev.read (4096 * k + 4096 * fmt.bitmapBlock i) 4096 = some (data i) := by
    refine ⟨fun i => (dev.read (4096 * k + 4096 * fmt.bitmapBlock i) 4096).getD [], fun i hi => ?_⟩
    obtain ⟨map, hmap⟩ := hvol.bitmaps i hi
    dsimp only
    rw [hmap]
    rfl
  obtain ⟨rs, hsize, hbc, hnr, hopen⟩ := myreiserfsOpen_eq hk hcount hvol hcopy hdata
  obtain ⟨fs, hfs⟩ : ∃ fs, fs = Reiserfs.mk fmt.base rs ((List.range (bmapNr count)).map data) :=
    ⟨_, rfl⟩
  have hrs : fs.rs = rs := by rw [hfs]
  have hlen : ∀ i < bmapNr count, (data i).length = 4096 := fun i hi =>
    Device.length_of_read (hdata i hi)
  rw [← hrs] at hsize hbc hnr
  obtain ⟨map, hmap, hbits⟩ := fetchDiskBitmap_eq hcount hsize hbc hnr hlen (by rw [hfs])
  have hblock : ∀ b < count, b / 32768 < bmapNr count := by
    intro b hb
    unfold bmapNr
    omega
  obtain ⟨p, hp, hset⟩ := bitAt_allocatedSectors (fun b hb => by
    rw [hbits b hb]
    have := hlen _ (hblock b hb)
    exact isSome_bitAt (by omega)) hsect lvmSect
  have hwrap : wrapInt (4096 * k : ℕ) = (4096 * k : ℕ) := wrapInt_of_range (by omega) (by omega)
  refine ⟨p, ?_, fun i => (hset i).trans (or_congr_right (and_congr_right fun _ =>
    and_congr_right fun hlt => ?_))⟩
  · unfold imageReiserfs
    rw [hwrap, hopen, ok_bind, ← hfs, if_neg (not_not.mpr hsize), hmap, Option.bind_some, hbc,
      ulong_natCast (by omega), hp]
  · unfold MarkedUsed
    rw [hbits _ hlt, hdata _ (hblock _ hlt)]
    constructor
    · exact fun h => ⟨_, rfl, h⟩
    · rintro ⟨map', hmap', h⟩
      rwa [Option.some.inj hmap']

/-! ## The ones that are not -/

/-- The first bytes of a superblock. -/
def reiserSuperblock (blocksize count nr : ℕ) : Bytes :=
  leBytes 4 count ++ List.replicate 40 0 ++ leBytes 2 blocksize ++ List.replicate 6 0 ++
    ascii "ReIsEr2Fs" ++ List.replicate 9 0 ++ leBytes 2 nr

theorem reiserSuperblock_fields {blocksize count nr : ℕ} (hsize : blocksize < 256 ^ 2)
    (hcount : count < 256 ^ 4) (hnr : nr < 256 ^ 2) (rest : Bytes) :
    isMagic (reiserSuperblock blocksize count nr ++ rest) = true ∧
      rsBlocksize (reiserSuperblock blocksize count nr ++ rest) = blocksize ∧
      rsBlockCount (reiserSuperblock blocksize count nr ++ rest) = count ∧
      rsBmapNr (reiserSuperblock blocksize count nr ++ rest) = nr := by
  refine ⟨?_, ?_, ?_, ?_⟩
  · unfold isMagic
    rw [show isReiser2fsMagicString (reiserSuperblock blocksize count nr ++ rest) = true from rfl,
      Bool.true_or]
  · exact leVal_leBytes hsize
  · exact leVal_leBytes hcount
  · exact leVal_leBytes hnr

/-- A signature starts with an `R`. -/
theorem getElem?_of_isMagic {rs : Bytes} (h : isMagic rs = true) : rs[52]? = some 82 := by
  have hfirst : ∀ n t, (rs.drop 52).take (n + 1) = 82 :: t → rs[52]? = some 82 := by
    intro n t ht
    have h0 : ((rs.drop 52).take (n + 1))[0]? = some 82 := by rw [ht]; rfl
    rwa [List.getElem?_take_of_lt (Nat.succ_pos n), List.getElem?_drop] at h0
  unfold isMagic isReiser2fsMagicString isReiserfsMagicString at h
  rw [Bool.or_eq_true, beq_iff_eq, beq_iff_eq] at h
  exact h.elim (hfirst 8 _) (hfirst 7 _)

/-- There is no `R` where a signature would start. -/
theorem filter_isMagic_eq_none {dev : Device} {off : ℕ} (h : dev (off + 52) ≠ some 82) :
    (dev.read off 4096).filter isMagic = none := by
  rw [Option.filter_eq_none_iff]
  intro rs hrs hmagic
  apply h
  rw [← Device.getElem?_of_read hrs (by omega), getElem?_of_isMagic hmagic]

/-- A device that holds a volume from block `k` on and nothing else, in which no block is in use. -/
def bareDevice (k : ℕ) (fmt : ReiserFormat) (count : ℕ) (copy : Bool) : Device := fun p =>
  if k + count + 18 ≤ p / 4096 then none
  else if p / 4096 = k + fmt.base then
    some (byteAt (reiserSuperblock 4096 count (bmapNr count)) (p % 4096))
  else if copy ∧ p / 4096 = k + 16 then some (byteAt (reiserSuperblock 1024 0 0) (p % 4096))
  else some 0

section Bare

variable {k count : ℕ} {fmt : ReiserFormat} {copy : Bool}

/-- A block that starts with some bytes and goes on with zeros. -/
theorem read_block {dev : Device} {n : ℕ} {bs : Bytes} (hlen : bs.length ≤ 4096)
    (h : ∀ r < 4096, dev (4096 * n + r) = some (byteAt bs r)) :
    ∃ rest, dev.read (4096 * n) 4096 = some (bs ++ rest) := by
  refine ⟨List.replicate (4096 - bs.length) 0, ?_⟩
  rw [Device.read_of_eq_some h, Option.some.injEq]
  apply List.ext_getElem
  · rw [List.length_map, List.length_range, List.length_append, List.length_replicate]
    omega
  · intro r h1 h2
    rw [List.getElem_map, List.getElem_range, List.getElem_append]
    unfold byteAt
    split_ifs with hr
    · rw [List.getD_eq_getElem _ _ hr]
    · rw [List.getD_eq_default _ _ (by omega), List.getElem_replicate]

theorem bareDevice_block (n : ℕ) {r : ℕ} (hr : r < 4096) : bareDevice k fmt count copy (4096 * n + r) =
    if k + count + 18 ≤ n then none
    else if n = k + fmt.base then some (byteAt (reiserSuperblock 4096 count (bmapNr count)) r)
    else if copy ∧ n = k + 16 then some (byteAt (reiserSuperblock 1024 0 0) r)
    else some 0 := by
  have hdiv : (4096 * n + r) / 4096 = n := by omega
  have hmod : (4096 * n + r) % 4096 = r := by omega
  unfold bareDevice
  rw [hdiv, hmod]

theorem length_reiserSuperblock (blocksize count nr : ℕ) :
    (reiserSuperblock blocksize count nr).length = 72 := rfl

/-- The superblock of the volume. -/
theorem bareDevice_superblock : ∃ rest, (bareDevice k fmt count copy).read (4096 * (k + fmt.base)) 4096 =
    some (reiserSuperblock 4096 count (bmapNr count) ++ rest) := by
  have hbase : fmt.base ≤ 16 := by cases fmt <;> decide
  apply read_block
  · rw [length_reiserSuperblock]
    omega
  · intro r hr
    rw [bareDevice_block _ hr, if_neg (by omega), if_pos rfl]

/-- What looks like a superblock in the journal. -/
theorem bareDevice_copy : ∃ rest, (bareDevice k .old count true).read (4096 * (k + 16)) 4096 =
    some (reiserSuperblock 1024 0 0 ++ rest) := by
  apply read_block
  · rw [length_reiserSuperblock]
    omega
  · intro r hr
    have hne : ¬ k + 16 = k + ReiserFormat.base .old := by
      show ¬ k + 16 = k + 2
      omega
    rw [bareDevice_block _ hr, if_neg (by omega), if_neg hne, if_pos ⟨rfl, rfl⟩]

/-- There is no other signature. -/
theorem bareDevice_other {n : ℕ} (h1 : n ≠ k + fmt.base) (h2 : ¬ (copy = true ∧ n = k + 16)) :
    ((bareDevice k fmt count copy).read (4096 * n) 4096).filter isMagic = none := by
  apply filter_isMagic_eq_none
  rw [bareDevice_block _ (by omega), if_neg h1, if_neg h2]
  split_ifs <;> decide

theorem reiserVolume_bareDevice (hcount : count < 2 ^ 28) :
    ReiserVolume (bareDevice k fmt count copy) (4096 * k) fmt count copy := by
  have hnr : bmapNr count < 256 ^ 2 := by
    unfold bmapNr
    omega
  constructor
  · obtain ⟨rest, hrest⟩ := @bareDevice_superblock k count fmt copy
    rw [Nat.mul_add] at hrest
    exact ⟨_, hrest, reiserSuperblock_fields (by omega) (by omega) hnr rest⟩
  · intro i hi
    have hblock := @bitmapBlock_lt fmt count i hi
    rw [← Nat.mul_add]
    obtain ⟨g, hg⟩ : ∃ g : ℕ → UInt8, ∀ r < 4096, bareDevice k fmt count copy
        (4096 * (k + fmt.bitmapBlock i) + r) = some (g r) := by
      refine ⟨fun r => (bareDevice k fmt count copy (4096 * (k + fmt.bitmapBlock i) + r)).getD 0,
        fun r hr => ?_⟩
      dsimp only
      rw [bareDevice_block _ hr, if_neg (by omega)]
      split_ifs <;> rfl
    exact ⟨_, Device.read_of_eq_some hg⟩
  · rintro rfl
    rw [← Nat.mul_add]
    constructor
    · rintro ⟨rs, hrs, hmagic⟩
      by_contra hcopy
      have hnone := @bareDevice_other k count .old copy (k + 16) (by
        show k + 16 ≠ k + 2
        omega) fun h => hcopy h.1
      rw [hrs, Option.filter_eq_none_iff] at hnone
      exact hnone rs rfl hmagic
    · rintro rfl
      obtain ⟨rest, hrest⟩ := @bareDevice_copy k count
      exact ⟨_, hrest, (reiserSuperblock_fields (by omega) (by omega) (by omega) rest).1⟩

/-- The copy is found, and refused. -/
theorem not_mapsUsed_of_copy (hk : k < 2 ^ 19) (lvmSect : ℕ) :
    ¬ MapsUsed (bareDevice k .old count true) (4096 * k) .old count lvmSect := by
  rintro ⟨p, hp, -⟩
  obtain ⟨rest, hrest⟩ := @bareDevice_copy k count
  obtain ⟨hmagic, hsize, -, hnr⟩ := @reiserSuperblock_fields 1024 0 0 (by omega) (by omega) (by omega) rest
  have hwrap : wrapInt (4096 * k : ℕ) = (4096 * k : ℕ) := wrapInt_of_range (by omega) (by omega)
  have hfound : (some (reiserSuperblock 1024 0 0 ++ rest)).filter isMagic =
      some (reiserSuperblock 1024 0 0 ++ rest) := Option.filter_some_pos hmagic
  unfold imageReiserfs myreiserfsOpen at hp
  rw [hwrap, probe_of_lt (by omega), Nat.add_comm 16 k, hrest, hfound, Option.map_some, ok_bind] at hp
  unfold readBitmapBlocks at hp
  dsimp only at hp
  rw [hnr, List.range_zero, List.foldlM_nil] at hp
  -- no bitmap block is read, and the block size is another one
  obtain ⟨fs, hfs, hp⟩ := bind_eq_ok hp
  obtain rfl := Except.ok.inj hfs
  rw [if_pos (by rw [hsize]; decide)] at hp
  cases hp

/-- An offset that is no `long` leads to a place in front of the volume, or behind the device. -/
theorem not_mapsUsed_of_far (hk : 2 ^ 19 ≤ k) (hsect : 4096 * k / 512 + 8 * count < 2 ^ 31)
    (lvmSect : ℕ) : ¬ MapsUsed (bareDevice k fmt count copy) (4096 * k) fmt count lvmSect := by
  have hbase : fmt.base ≤ 16 := by cases fmt <;> decide
  have hprobe : ∀ i ≤ 16, ∀ r, probe (bareDevice k fmt count copy) (wrapInt (4096 * k : ℕ)) i = .ok r →
      r = none := by
    intro i hi r hr
    obtain ⟨m, hm⟩ : ∃ m : ℤ, wrapInt (4096 * k : ℕ) = 4096 * m :=
      ⟨wrapInt (4096 * k : ℕ) / 4096, by unfold wrapInt; omega⟩
    have hplace : ulong (i + m) + 16 < k ∨ k + count + 18 ≤ ulong (i + m) := by
      unfold wrapInt at hm
      unfold ulong
      omega
    unfold probe at hr
    rw [hm, Int.mul_tdiv_cancel_left m (by decide)] at hr
    dsimp only at hr
    unfold bread at hr
    split_ifs at hr
    · cases hr
    · rw [map_ok, bareDevice_other (by omega) (by omega)] at hr
      exact (Except.ok.inj hr).symm
  rintro ⟨p, hp, -⟩
  unfold imageReiserfs myreiserfsOpen at hp
  obtain ⟨fs, hfs, -⟩ := bind_eq_ok hp
  obtain ⟨r16, h16, hfs⟩ := bind_eq_ok hfs
  obtain rfl := hprobe 16 le_rfl _ h16
  obtain ⟨r2, h2, hfs⟩ := bind_eq_ok hfs
  obtain rfl := hprobe 2 (by omega) _ h2
  cases hfs

end Bare

/-- **The bitmap is the one of the volume** exactly when its offset is a `long` and it has no other
superblock where the new format has one. -/
theorem mapsUsed_iff {offset count : ℕ} (hal : 4096 ∣ offset)
    (hsect : offset / 512 + 8 * count < 2 ^ 31) (fmt : ReiserFormat) (copy : Bool) :
    (∀ dev lvmSect, ReiserVolume dev offset fmt count copy →
        MapsUsed dev offset fmt count lvmSect) ↔
      offset < 2 ^ 31 ∧ ¬ (fmt = .old ∧ copy = true) := by
  obtain ⟨k, rfl⟩ := hal
  have hvol := @reiserVolume_bareDevice k count fmt copy (by omega)
  constructor
  · intro h
    have hmaps := h _ 0 hvol
    constructor
    · by_contra hfar
      exact not_mapsUsed_of_far (by omega) hsect 0 hmaps
    · rintro ⟨rfl, rfl⟩
      by_cases hk : k < 2 ^ 19
      · exact not_mapsUsed_of_copy hk 0 hmaps
      · exact not_mapsUsed_of_far (by omega) hsect 0 hmaps
  · rintro ⟨hoff, hcopy⟩ dev lvmSect hdev
    exact mapsUsed_of_near (by omega) hsect hdev hcopy lvmSect

/-- A volume of two bitmap blocks behind a metadata area of one megabyte. -/
theorem mapsUsed_iff_twoBitmaps : MapsUsed (bareDevice 256 .new 40000 false) 1048576 .new 40000 0 :=
  (mapsUsed_iff (by decide) (by decide) .new false).mpr ⟨by decide, by decide⟩ _ 0
    (reiserVolume_bareDevice (by decide))

/-- The offset of a volume at four gigabytes is lost, and a superblock in the journal of a volume in the
old format is taken for the one of the volume. -/
theorem not_mapsUsed :
    (ReiserVolume (bareDevice 1048576 .new 40000 false) (2 ^ 32) .new 40000 false ∧
      ¬ MapsUsed (bareDevice 1048576 .new 40000 false) (2 ^ 32) .new 40000 0) ∧
    (ReiserVolume (bareDevice 0 .old 40000 true) 0 .old 40000 true ∧
      ¬ MapsUsed (bareDevice 0 .old 40000 true) 0 .old 40000 0) :=
  ⟨⟨reiserVolume_bareDevice (by decide), not_mapsUsed_of_far (by decide) (by decide) 0⟩,
    reiserVolume_bareDevice (by decide), not_mapsUsed_of_copy (by decide) 0⟩

end LinboxRescue
