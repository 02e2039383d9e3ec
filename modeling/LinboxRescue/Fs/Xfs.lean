import LinboxRescue.Lib.Bits
import LinboxRescue.Lib.Device
import LinboxRescue.Lib.Fuel
import LinboxRescue.Lib.Loop
import LinboxRescue.Lib.Stream

/-!
# Scanning an XFS file system

`image_xfs.c` keeps one byte for each block of an XFS file system. It clears the bytes of the blocks
that an allocation group lists as free, in the records of a tree and in a circular list. Indices, counts,
pointers and the height of the tree all come from the device, and nothing in the buffers that a read
has not filled is known. Memory and stack are those of the process: `calloc` has a largest size, and each
call of `scanSbtree` takes a buffer of 64 KiB.

1. `scanFreelist_eq`, `scanSbtree_eq`: the bytes that a group clears, as a list.
2. `mem_treeBytes`: they are those of the records in the leaves of the tree.
3. `scansSafely_iff`: on which devices the scan comes to its end.
-/

namespace LinboxRescue

/-! ## `readsb` -/

/-- The buffers on the stack, each of which is filled by one read: the header of group `i`, its free
list, and the block of its tree that is reached through the pointers with the indices `path`. -/
inductive XfsBuffer
  | agf (i : ℕ)
  | agfl (i : ℕ)
  | node (i : ℕ) (path : List ℕ)
  deriving DecidableEq

/-- The limits of the process: the most bytes that `calloc` gives, and the number of calls of `scanSbtree`
that the stack has room for at once. -/
structure XfsLimits where
  heap : ℕ
  stack : ℕ
  heap_lt : heap < 2 ^ 32

/-- A device, and the memory at the buffers before they are filled. -/
structure XfsInput extends XfsLimits where
  dev : Device
  stale : XfsBuffer → ℕ → UInt8

/-- Why the scan does not come to its end. -/
inductive XfsHalt
  /-- `exit(1)`. -/
  | exit
  | outOfFuel
  /-- An index is outside its array. -/
  | outside
  /-- `memset` fills what `calloc` did not give. -/
  | noMemory
  | stackOverflow
  deriving DecidableEq, Repr

/-- `ntohs`, `ntohl` and `ntohll` of the `w` bytes at `off`. -/
def beVal (buf : ℕ → UInt8) (off : ℕ) : ℕ → ℕ
  | 0 => 0
  | w + 1 => 256 * beVal buf off w + (buf (off + w)).toNat

/-- `p->bitmap[i] = 0`. -/
def clearByte (bm : Bytes) (i : ℕ) : Except XfsHalt Bytes :=
  if i < bm.length then .ok (bm.set i 0) else .error .outside

/-- The number of bits in a byte, from the table for half bytes. -/
def usedBits (b : UInt8) : ℕ :=
  let bits := [0, 1, 1, 2, 1, 2, 2, 3, 1, 2, 2, 3, 2, 3, 3, 4]
  bits.getD (b >>> 4).toNat 0 + bits.getD (b &&& 15).toNat 0

/-- `checkit(dev)`: the signature and the block size. -/
def checkit (dev : Device) : Bool :=
  match dev.read 0 256 with
  | some buf => buf.take 4 == ascii "XFSB" && beVal (fun k => (dev k).getD 0) 4 4 == 4096
  | none => false

namespace XfsInput

variable (x : XfsInput)

/-- The superblock `sb`. -/
def sb (k : ℕ) : UInt8 := (x.dev k).getD 0

def blocks : ℕ := beVal x.sb 8 8

def agblocks : ℕ := beVal x.sb 84 4

def agcount : ℕ := beVal x.sb 88 4

def fblocks : ℕ := beVal x.sb 144 8

/-- `convertAgbToDaddr(agno, Agblockno)`. -/
def convertAgbToDaddr (agno agblockno : ℕ) : ℕ :=
  (agno * x.agblocks + agblockno) * 4096 % 2 ^ 64

/-- `convertAgToDaddr(agno, Offset)`. -/
def convertAgToDaddr (agno offset : ℕ) : ℕ := (x.convertAgbToDaddr agno 0 + offset * 512) % 2 ^ 64

/-- The header of group `i`. -/
def agf (i : ℕ) : ℕ → UInt8 := x.dev.fill (x.convertAgToDaddr i 1) 60 (x.stale (.agf i))

def agfSeqno (i : ℕ) : ℕ := beVal (x.agf i) 8 4

def agfRoot (i : ℕ) : ℕ := beVal (x.agf i) 16 4

def agfLevels (i : ℕ) : ℕ := beVal (x.agf i) 28 4

def agfFlfirst (i : ℕ) : ℕ := beVal (x.agf i) 40 4

def agfFllast (i : ℕ) : ℕ := beVal (x.agf i) 44 4

def agfFlcount (i : ℕ) : ℕ := beVal (x.agf i) 48 4

/-- `agfl_bno[j]` of group `i`. -/
def agflBno (i j : ℕ) : ℕ :=
  beVal (x.dev.fill (x.convertAgToDaddr (x.agfSeqno i) 3) 512 (x.stale (.agfl i))) (4 * j) 4

/-- A block of the tree of group `i`. -/
def node (i : ℕ) (path : List ℕ) (root : ℕ) : ℕ → UInt8 :=
  x.dev.fill (x.convertAgbToDaddr (x.agfSeqno i) root) 4096 (x.stale (.node i path))

/-- `addtohist(p, agno, Agblockno, Len)`. -/
def addtohist (bm : Bytes) (agno agblockno len : ℕ) : Except XfsHalt Bytes :=
  (List.range len).foldlM (fun bm k => clearByte bm (agno * x.agblocks + agblockno + k)) bm

/-- The loop of `scanFreelist`, at index `j`. -/
def freelistLoop (i : ℕ) : ℕ → ℕ → Bytes → Except XfsHalt Bytes
  | 0, _, _ => .error .outOfFuel
  | fuel + 1, j, bm =>
    if 128 ≤ j then .error .outside
    else
      x.addtohist bm (x.agfSeqno i) (x.agflBno i j) 1 >>= fun bm =>
        if j = x.agfFllast i then .ok bm
        else freelistLoop i fuel (if j + 1 = 128 then 0 else j + 1) bm

/-- `scanFreelist(fd, p, agf)`. -/
def scanFreelist (fuel i : ℕ) (bm : Bytes) : Except XfsHalt Bytes :=
  if x.agfFlcount i = 0 then .ok bm else x.freelistLoop i fuel (x.agfFlfirst i) bm

end XfsInput

/-- `bb_numrecs`. -/
def bbNumrecs (ablock : ℕ → UInt8) : ℕ := beVal ablock 6 2

/-- `rp[k]`: the start and the length of an extent. -/
def allocRec (ablock : ℕ → UInt8) (k : ℕ) : ℕ × ℕ :=
  (beVal ablock (16 + 8 * k) 4, beVal ablock (16 + 8 * k + 4) 4)

/-- `XFS_AGF_MAGIC`. -/
def agfMagic : ℕ := 0x58414746

/-- `mxr`. -/
def maxRecs : ℕ := (4096 - 16) / (8 + 4)

/-- `pp[k]`. -/
def allocPtr (ablock : ℕ → UInt8) (k : ℕ) : ℕ := beVal ablock (16 + maxRecs * 8 + 4 * k) 4

namespace XfsInput

variable (x : XfsInput)

/-- A call of `scanSbtree` takes `char buf[MAX_XFSBLOCKSIZE]` off the stack; the calls that are under way
are those for the blocks above `path`. -/
def onStack (path : List ℕ) (call : Except XfsHalt Bytes) : Except XfsHalt Bytes :=
  if path.length < x.stack then call else .error .stackOverflow

/-- `scanfuncBno(fd, p, ablock, level, agf)`, with `scanSbtree` for each pointer. -/
def scanfuncBno (i : ℕ) : ℕ → List ℕ → (ℕ → UInt8) → Bytes → Except XfsHalt Bytes
  | 0, _, ablock, bm =>
    (List.range (bbNumrecs ablock)).foldlM (fun bm k =>
      x.addtohist bm (x.agfSeqno i) (allocRec ablock k).1 (allocRec ablock k).2) bm
  | level + 1, path, ablock, bm =>
    (List.range (bbNumrecs ablock)).foldlM (fun bm k =>
      x.onStack (path ++ [k])
        (scanfuncBno i level (path ++ [k]) (x.node i (path ++ [k]) (allocPtr ablock k)) bm)) bm

/-- `scanSbtree(fd, p, agf, root, levels)`, where `levels` is unsigned. -/
def scanSbtree (i root levels : ℕ) (bm : Bytes) : Except XfsHalt Bytes :=
  x.onStack [] (x.scanfuncBno i ((levels + (2 ^ 32 - 1)) % 2 ^ 32) [] (x.node i [] root) bm)

/-- A turn of the loop over the groups. -/
def group (fuel : ℕ) (bm : Bytes) (i : ℕ) : Except XfsHalt Bytes :=
  if beVal (x.agf i) 0 4 ≠ agfMagic then .error .exit
  else
    x.scanFreelist fuel i bm >>= fun bm => x.scanSbtree i (x.agfRoot i) (x.agfLevels i) bm

end XfsInput

/-- `p`, with the number of used sectors and whether the program ends because it is smaller than the
superblock says. -/
structure XfsMap where
  bitmap : Bytes
  nbSect : ℕ
  used : ℕ
  refused : Bool

/-- The count at the end of `readsb`. -/
def XfsInput.verify (x : XfsInput) (bm : Bytes) : XfsMap :=
  let used := (bm.map usedBits).sum
  ⟨bm, x.blocks * 8 % 2 ^ 64, used,
    used < ((x.blocks + (2 ^ 64 - x.fblocks)) % 2 ^ 64) * 8 % 2 ^ 64⟩

/-- `readsb(p, dev)`. The argument of `calloc` has 32 bits. -/
def XfsInput.readsb (x : XfsInput) (fuel : ℕ) : Except XfsHalt XfsMap :=
  if (x.dev.read 0 200).isNone then .error .exit
  else if x.heap < x.blocks % 2 ^ 32 then .error .noMemory
  else
    (List.range x.agcount).foldlM (x.group fuel) (List.replicate (x.blocks % 2 ^ 32) 0xFF) >>= fun bm =>
      .ok (x.verify bm)

/-! ## Clearing bytes -/

/-- The bytes of a bitmap, when those at `is` are cleared. -/
def cleared (bm : Bytes) (is : List ℕ) : Bytes := bm.mapIdx fun k b => if k ∈ is then 0 else b

theorem length_cleared (bm : Bytes) (is : List ℕ) : (cleared bm is).length = bm.length := by
  unfold cleared
  rw [List.length_mapIdx]

theorem foldlM_clearByte {is : List ℕ} : ∀ {bm : Bytes}, (∀ i ∈ is, i < bm.length) →
    is.foldlM clearByte bm = .ok (cleared bm is) := by
  induction is with
  | nil =>
    intro bm _
    have hnone : cleared bm [] = bm := by
      unfold cleared
      apply List.ext_getElem
      · rw [List.length_mapIdx]
      · intro k h1 h2
        rw [List.getElem_mapIdx, if_neg List.not_mem_nil]
    rw [hnone]
    rfl
  | cons i is ih =>
    intro bm h
    obtain ⟨hi, his⟩ := List.forall_mem_cons.mp h
    have hclear : clearByte bm i = .ok (bm.set i 0) := by rw [clearByte, if_pos hi]
    rw [List.foldlM_cons, hclear, ok_bind, ih (by rwa [List.length_set])]
    congr 1
    unfold cleared
    apply List.ext_getElem
    · rw [List.length_mapIdx, List.length_mapIdx, List.length_set]
    · intro k h1 h2
      rw [List.getElem_mapIdx, List.getElem_mapIdx, List.getElem_set]
      by_cases hk : i = k
      · rw [if_pos hk, if_pos (List.mem_cons.mpr (.inl hk.symm)), ite_self]
      · rw [if_neg hk]
        exact if_congr (by rw [List.mem_cons, or_iff_right (Ne.symm hk)]) rfl rfl

/-- A byte of a bitmap that was filled first. -/
theorem getElem?_cleared {n b : ℕ} (hb : b < n) (is : List ℕ) :
    (cleared (List.replicate n 0xFF) is)[b]? = some (if b ∈ is then 0 else 0xFF) := by
  unfold cleared
  rw [List.getElem?_mapIdx, List.getElem?_replicate_of_lt hb]
  rfl

theorem lt_of_foldlM_clearByte {is : List ℕ} : ∀ {bm bm' : Bytes}, is.foldlM clearByte bm = .ok bm' →
    ∀ i ∈ is, i < bm.length := by
  induction is with
  | nil => exact fun _ _ hi => absurd hi List.not_mem_nil
  | cons i is ih =>
    intro bm bm' h
    rw [List.foldlM_cons] at h
    obtain ⟨bm1, h1, h2⟩ := bind_eq_ok h
    unfold clearByte at h1
    split_ifs at h1 with hi
    obtain rfl := Except.ok.inj h1
    refine List.forall_mem_cons.mpr ⟨hi, fun j hj => ?_⟩
    have := ih h2 j hj
    rwa [List.length_set] at this

/-! ## The free list -/

/-- The places of a circular list of 128 places that are in use. -/
def ActiveSlot (first last j : ℕ) : Prop :=
  j < 128 ∧ if first ≤ last then first ≤ j ∧ j ≤ last else first ≤ j ∨ j ≤ last

/-- The places from `first` on, in the order of the loop. -/
def activeSlots (first last : ℕ) : List ℕ :=
  (List.range ((last + 128 - first) % 128 + 1)).map fun t => (first + t) % 128

theorem mem_activeSlots {first last j : ℕ} (h1 : first < 128) (h2 : last < 128) :
    j ∈ activeSlots first last ↔ ActiveSlot first last j := by
  unfold activeSlots ActiveSlot
  rw [List.mem_map]
  constructor
  · rintro ⟨t, ht, rfl⟩
    have ht := List.mem_range.mp ht
    split_ifs <;> omega
  · rintro ⟨hj, h⟩
    refine ⟨(j + 128 - first) % 128, List.mem_range.mpr ?_, by omega⟩
    split_ifs at h <;> omega

namespace XfsInput

variable (x : XfsInput)

/-- The bytes of an extent. -/
def extentBytes (i : ℕ) (e : ℕ × ℕ) : List ℕ :=
  (List.range e.2).map fun k => x.agfSeqno i * x.agblocks + e.1 + k

theorem mem_extentBytes {i b : ℕ} {e : ℕ × ℕ} : b ∈ x.extentBytes i e ↔
    x.agfSeqno i * x.agblocks + e.1 ≤ b ∧ b < x.agfSeqno i * x.agblocks + e.1 + e.2 := by
  unfold extentBytes
  rw [List.mem_map]
  constructor
  · rintro ⟨k, hk, rfl⟩
    have := List.mem_range.mp hk
    omega
  · rintro ⟨h1, h2⟩
    exact ⟨b - (x.agfSeqno i * x.agblocks + e.1), List.mem_range.mpr (by omega), by omega⟩

theorem addtohist_eq (bm : Bytes) (i : ℕ) (e : ℕ × ℕ) :
    x.addtohist bm (x.agfSeqno i) e.1 e.2 = (x.extentBytes i e).foldlM clearByte bm := by
  unfold addtohist extentBytes
  rw [List.foldlM_map]

/-- The bytes that the loop clears in `d + 1` turns from index `j` on. -/
theorem freelistLoop_eq {i d : ℕ} : ∀ {j fuel : ℕ} (bm : Bytes), j < 128 → x.agfFllast i < 128 →
    (x.agfFllast i + 128 - j) % 128 = d → d < fuel → x.freelistLoop i fuel j bm =
      (((List.range (d + 1)).map fun t => (j + t) % 128).flatMap fun j =>
        x.extentBytes i (x.agflBno i j, 1)).foldlM clearByte bm := by
  induction d with
  | zero =>
    intro j fuel bm hj hlast hd hfuel
    obtain ⟨fuel, rfl⟩ : ∃ k, fuel = k + 1 := ⟨fuel - 1, by omega⟩
    have hmod : (j + 0) % 128 = j := by omega
    rw [freelistLoop, if_neg (by omega), x.addtohist_eq bm i (x.agflBno i j, 1), List.range_one,
      List.map_singleton, List.flatMap_singleton, hmod]
    simp only [if_pos (show j = x.agfFllast i by omega)]
    exact bind_pure _
  | succ d ih =>
    intro j fuel bm hj hlast hd hfuel
    obtain ⟨fuel, rfl⟩ : ∃ k, fuel = k + 1 := ⟨fuel - 1, by omega⟩
    have hmod : (j + 0) % 128 = j := by omega
    have hrest : (List.range (d + 1)).map ((fun t => (j + t) % 128) ∘ Nat.succ) =
        (List.range (d + 1)).map fun t => ((if j + 1 = 128 then 0 else j + 1) + t) % 128 := by
      apply List.map_congr_left
      intro t _
      show (j + (t + 1)) % 128 = _
      split_ifs <;> omega
    rw [freelistLoop, if_neg (by omega), x.addtohist_eq bm i (x.agflBno i j, 1),
      List.range_succ_eq_map, List.map_cons, List.map_map, hmod, hrest, List.flatMap_cons,
      List.foldlM_append]
    congr 1
    funext bm'
    rw [if_neg (by omega)]
    exact ih bm' (by split_ifs <;> omega) hlast (by split_ifs <;> omega) (by omega)

/-- The loop has no result when it starts outside the array, or never gets to its end. -/
theorem freelistLoop_ok {i : ℕ} : ∀ {fuel j : ℕ} {bm bm' : Bytes},
    x.freelistLoop i fuel j bm = .ok bm' → j < 128 ∧ x.agfFllast i < 128 := by
  intro fuel
  induction fuel with
  | zero => exact fun h => by cases h
  | succ fuel ih =>
    intro j bm bm' h
    rw [freelistLoop] at h
    by_cases hj : 128 ≤ j
    · rw [if_pos hj] at h
      cases h
    · rw [if_neg hj] at h
      obtain ⟨bm1, -, h2⟩ := bind_eq_ok h
      by_cases hlast : j = x.agfFllast i
      · exact ⟨by omega, by omega⟩
      · rw [if_neg hlast] at h2
        exact ⟨by omega, (ih h2).2⟩

/-- The indices of the free list of group `i` are inside the array. -/
def FreelistOk (i : ℕ) : Prop :=
  x.agfFlcount i = 0 ∨ x.agfFlfirst i < 128 ∧ x.agfFllast i < 128

/-- The bytes of the blocks in the free list. -/
def freelistBytes (i : ℕ) : List ℕ :=
  if x.agfFlcount i = 0 then []
  else (activeSlots (x.agfFlfirst i) (x.agfFllast i)).flatMap fun j =>
    x.extentBytes i (x.agflBno i j, 1)

theorem scanFreelist_eq {fuel i : ℕ} (h : x.FreelistOk i) (hfuel : 128 ≤ fuel) (bm : Bytes) :
    x.scanFreelist fuel i bm = (x.freelistBytes i).foldlM clearByte bm := by
  unfold scanFreelist freelistBytes
  split_ifs with hcount
  · rfl
  · obtain ⟨h1, h2⟩ := h.resolve_left hcount
    exact x.freelistLoop_eq bm h1 h2 rfl (by omega)

theorem freelistOk_of_ok {fuel i : ℕ} {bm bm' : Bytes} (h : x.scanFreelist fuel i bm = .ok bm') :
    x.FreelistOk i := by
  unfold scanFreelist at h
  split_ifs at h with hcount
  · exact .inl hcount
  · exact .inr (x.freelistLoop_ok h)

theorem mem_freelistBytes {i b : ℕ} (h : x.FreelistOk i) : b ∈ x.freelistBytes i ↔
    x.agfFlcount i ≠ 0 ∧ ∃ j, ActiveSlot (x.agfFlfirst i) (x.agfFllast i) j ∧
      b = x.agfSeqno i * x.agblocks + x.agflBno i j := by
  unfold freelistBytes
  split_ifs with hcount
  · exact ⟨fun hb => absurd hb List.not_mem_nil, fun hb => absurd hcount hb.1⟩
  · obtain ⟨h1, h2⟩ := h.resolve_left hcount
    rw [List.mem_flatMap, and_iff_right hcount]
    apply exists_congr
    intro j
    rw [mem_activeSlots h1 h2, x.mem_extentBytes]
    refine and_congr_right fun _ => ?_
    dsimp only
    omega

/-! ## The tree -/

/-- The bytes of the records in the leaves under a block. -/
def treeBytes (i : ℕ) : ℕ → List ℕ → ℕ → List ℕ
  | 0, path, root =>
    (List.range (bbNumrecs (x.node i path root))).flatMap fun k =>
      x.extentBytes i (allocRec (x.node i path root) k)
  | level + 1, path, root =>
    (List.range (bbNumrecs (x.node i path root))).flatMap fun k =>
      treeBytes i level (path ++ [k]) (allocPtr (x.node i path root) k)

/-- The pointers lead from a block to one that is `h` levels below it. -/
def HasLevel (i : ℕ) : ℕ → List ℕ → ℕ → ℕ → Prop
  | _, _, _, 0 => True
  | 0, _, _, _ + 1 => False
  | level + 1, path, root, h + 1 => ∃ k < bbNumrecs (x.node i path root),
    HasLevel i level (path ++ [k]) (allocPtr (x.node i path root) k) h

theorem scanfuncBno_eq {i level : ℕ} : ∀ {path root},
    (∀ h, x.HasLevel i level path root h → path.length + h < x.stack) → ∀ bm,
      x.scanfuncBno i level path (x.node i path root) bm =
        (x.treeBytes i level path root).foldlM clearByte bm := by
  induction level with
  | zero =>
    intro path root _ bm
    exact foldlM_writes (fun k _ bm => x.addtohist_eq bm i (allocRec (x.node i path root) k)) bm
  | succ level ih =>
    intro path root hstack bm
    refine foldlM_writes (fun k hk bm => ?_) bm
    have hdeep : ∀ h, x.HasLevel i level (path ++ [k]) (allocPtr (x.node i path root) k) h →
        (path ++ [k]).length + h < x.stack := by
      intro h hh
      have := hstack (h + 1) ⟨k, List.mem_range.mp hk, hh⟩
      rw [List.length_append, List.length_singleton]
      omega
    have hcall : (path ++ [k]).length < x.stack := hdeep 0 (by unfold HasLevel; trivial)
    rw [onStack, if_pos hcall]
    exact ih hdeep bm

/-- A walk that comes to its end has had room on the stack for every level. -/
theorem lt_stack_of_scanfuncBno {i level : ℕ} : ∀ {path : List ℕ} {root : ℕ} {bm bm' : Bytes},
    x.scanfuncBno i level path (x.node i path root) bm = .ok bm' → path.length < x.stack →
      ∀ h, x.HasLevel i level path root h → path.length + h < x.stack := by
  induction level with
  | zero =>
    rintro path root bm bm' - hroot (_ | h) hh
    · exact hroot
    · exact hh.elim
  | succ level ih =>
    rintro path root bm bm' hrun hroot (_ | h) hh
    · exact hroot
    · obtain ⟨k, hk, hh⟩ := hh
      obtain ⟨bm1, bm2, hcall⟩ := foldlM_eq_ok hrun k (List.mem_range.mpr hk)
      unfold onStack at hcall
      split_ifs at hcall with hroom
      have := ih hcall hroom h hh
      rw [List.length_append, List.length_singleton] at this
      omega

/-- `level` of the root. -/
def rootLevel (i : ℕ) : ℕ := (x.agfLevels i + (2 ^ 32 - 1)) % 2 ^ 32

/-- The stack has room for every level of the tree. -/
def FitsStack (i : ℕ) : Prop :=
  ∀ h, x.HasLevel i (x.rootLevel i) [] (x.agfRoot i) h → h < x.stack

theorem scanSbtree_eq {i : ℕ} (h : x.FitsStack i) (bm : Bytes) :
    x.scanSbtree i (x.agfRoot i) (x.agfLevels i) bm =
      (x.treeBytes i (x.rootLevel i) [] (x.agfRoot i)).foldlM clearByte bm := by
  have hroot : ([] : List ℕ).length < x.stack := h 0 (by unfold HasLevel; trivial)
  unfold scanSbtree onStack
  rw [if_pos hroot]
  exact x.scanfuncBno_eq (fun n hn => (Nat.zero_add n).trans_lt (h n hn)) bm

theorem fitsStack_of_ok {i : ℕ} {bm bm' : Bytes}
    (h : x.scanSbtree i (x.agfRoot i) (x.agfLevels i) bm = .ok bm') : x.FitsStack i := by
  unfold scanSbtree onStack at h
  split_ifs at h with hroot
  intro n hn
  have := x.lt_stack_of_scanfuncBno h hroot n hn
  rwa [List.length_nil, Nat.zero_add] at this

/-- A record in a leaf of the tree under a block. -/
inductive LeafRec (i : ℕ) : ℕ → List ℕ → ℕ → ℕ × ℕ → Prop
  | leaf {path : List ℕ} {root k : ℕ} (h : k < bbNumrecs (x.node i path root)) :
    LeafRec i 0 path root (allocRec (x.node i path root) k)
  | node {level : ℕ} {path : List ℕ} {root k : ℕ} {e : ℕ × ℕ}
    (h : k < bbNumrecs (x.node i path root))
    (he : LeafRec i level (path ++ [k]) (allocPtr (x.node i path root) k) e) :
    LeafRec i (level + 1) path root e

theorem mem_treeBytes {i level b : ℕ} : ∀ {path root},
    b ∈ x.treeBytes i level path root ↔ ∃ e, x.LeafRec i level path root e ∧ b ∈ x.extentBytes i e := by
  induction level with
  | zero =>
    intro path root
    rw [treeBytes, List.mem_flatMap]
    constructor
    · rintro ⟨k, hk, hb⟩
      exact ⟨_, .leaf (List.mem_range.mp hk), hb⟩
    · rintro ⟨e, he, hb⟩
      cases he with
      | leaf h => exact ⟨_, List.mem_range.mpr h, hb⟩
  | succ level ih =>
    intro path root
    rw [treeBytes, List.mem_flatMap]
    constructor
    · rintro ⟨k, hk, hb⟩
      obtain ⟨e, he, hbe⟩ := ih.mp hb
      exact ⟨e, .node (List.mem_range.mp hk) he, hbe⟩
    · rintro ⟨e, he, hbe⟩
      cases he with
      | node h he => exact ⟨_, List.mem_range.mpr h, ih.mpr ⟨e, he, hbe⟩⟩

/-! ## The whole scan -/

/-- The bytes that group `i` clears. -/
def groupBytes (i : ℕ) : List ℕ :=
  x.freelistBytes i ++ x.treeBytes i (x.rootLevel i) [] (x.agfRoot i)

/-- The device passes the checks: those of `checkit`, and the signature of each group. -/
structure Passes : Prop where
  checkit : LinboxRescue.checkit x.dev = true
  magic : ∀ i < x.agcount, beVal (x.agf i) 0 4 = agfMagic

/-- The bitmap is that of the groups. -/
theorem readsb_eq {x : XfsInput} (h : x.Passes) (hheap : x.blocks % 2 ^ 32 ≤ x.heap)
    (hgroups : ∀ i < x.agcount, x.FreelistOk i ∧ x.FitsStack i) {fuel : ℕ} (hfuel : 128 ≤ fuel) :
    x.readsb fuel =
      (((List.range x.agcount).flatMap x.groupBytes).foldlM clearByte
        (List.replicate (x.blocks % 2 ^ 32) 0xFF) >>= fun bm => .ok (x.verify bm)) := by
  have hread : (x.dev.read 0 200).isNone = false := by
    have hcheck := h.checkit
    unfold LinboxRescue.checkit at hcheck
    cases hbuf : x.dev.read 0 256 with
    | none =>
      rw [hbuf] at hcheck
      cases hcheck
    | some buf =>
      have hlen := Device.length_of_read hbuf
      have hbyte : ∀ k < 200, x.dev (0 + k) = some (buf.getD k 0) := by
        intro k hk
        rw [← Device.getElem?_of_read hbuf (by omega), List.getElem?_eq_getElem (by omega),
          List.getD_eq_getElem _ _ (by omega)]
      rw [Device.read_of_eq_some hbyte]
      rfl
  have hgroup : ∀ i ∈ List.range x.agcount, ∀ bm,
      x.group fuel bm i = (x.groupBytes i).foldlM clearByte bm := by
    intro i hi bm
    have hi := List.mem_range.mp hi
    unfold group groupBytes
    rw [if_neg (not_not.mpr (h.magic i hi)), x.scanFreelist_eq (hgroups i hi).1 hfuel,
      List.foldlM_append]
    exact bind_congr fun bm' => x.scanSbtree_eq (hgroups i hi).2 bm'
  unfold readsb
  rw [if_neg (by rw [hread]; decide), if_neg (by omega), foldlM_writes hgroup]

/-- All blocks that group `i` lists are inside the bitmap, the indices of its list are inside the array,
and the stack has room for its tree. -/
def GroupInside (i : ℕ) : Prop :=
  (x.agfFlcount i = 0 ∨ x.agfFlfirst i < 128 ∧ x.agfFllast i < 128 ∧
    ∀ j, ActiveSlot (x.agfFlfirst i) (x.agfFllast i) j →
      x.agfSeqno i * x.agblocks + x.agflBno i j < x.blocks % 2 ^ 32) ∧
  (∀ e, x.LeafRec i (x.rootLevel i) [] (x.agfRoot i) e →
    e.2 = 0 ∨ x.agfSeqno i * x.agblocks + e.1 + e.2 ≤ x.blocks % 2 ^ 32) ∧
  x.FitsStack i

theorem groupInside_iff (i : ℕ) : x.GroupInside i ↔
    (x.FreelistOk i ∧ x.FitsStack i) ∧ ∀ b ∈ x.groupBytes i, b < x.blocks % 2 ^ 32 := by
  have htree : (∀ b ∈ x.treeBytes i (x.rootLevel i) [] (x.agfRoot i), b < x.blocks % 2 ^ 32) ↔
      ∀ e, x.LeafRec i (x.rootLevel i) [] (x.agfRoot i) e →
        e.2 = 0 ∨ x.agfSeqno i * x.agblocks + e.1 + e.2 ≤ x.blocks % 2 ^ 32 := by
    constructor
    · intro h e he
      by_contra hne
      have hlast := h (x.agfSeqno i * x.agblocks + e.1 + (e.2 - 1))
        (x.mem_treeBytes.mpr ⟨e, he, x.mem_extentBytes.mpr ⟨by omega, by omega⟩⟩)
      omega
    · intro h b hb
      obtain ⟨e, he, hbe⟩ := x.mem_treeBytes.mp hb
      have hb := x.mem_extentBytes.mp hbe
      have := h e he
      omega
  unfold GroupInside groupBytes
  rw [List.forall_mem_append, htree]
  constructor
  · rintro ⟨h, hrecs, hstack⟩
    have hok : x.FreelistOk i := h.imp_right fun h => ⟨h.1, h.2.1⟩
    refine ⟨⟨hok, hstack⟩, fun b hb => ?_, hrecs⟩
    obtain ⟨hcount, j, hj, rfl⟩ := (x.mem_freelistBytes hok).mp hb
    exact (h.resolve_left hcount).2.2 j hj
  · rintro ⟨⟨hok, hstack⟩, hlist, hrecs⟩
    refine ⟨?_, hrecs, hstack⟩
    by_cases hcount : x.agfFlcount i = 0
    · exact .inl hcount
    · obtain ⟨h1, h2⟩ := hok.resolve_left hcount
      exact .inr ⟨h1, h2, fun j hj => hlist _ ((x.mem_freelistBytes hok).mpr ⟨hcount, j, hj, rfl⟩)⟩

/-- The scan comes to its end, and every index is inside its array. -/
def ScansSafely : Prop := ∃ p, Returns x.readsb p

/-- When the scan has a result, `calloc` gave the bitmap. -/
theorem heap_of_readsb {fuel : ℕ} {p : XfsMap} (h : x.readsb fuel = .ok p) :
    x.blocks % 2 ^ 32 ≤ x.heap := by
  unfold readsb at h
  split_ifs at h with _ hheap
  exact not_lt.mp hheap

/-- When the scan has a result, every group has its signature, a proper free list and a tree for which the
stack has room. -/
theorem group_of_readsb {fuel i : ℕ} {p : XfsMap} (h : x.readsb fuel = .ok p) (hi : i < x.agcount) :
    beVal (x.agf i) 0 4 = agfMagic ∧ x.FreelistOk i ∧ x.FitsStack i := by
  unfold readsb at h
  split_ifs at h
  obtain ⟨bm, hscan, -⟩ := bind_eq_ok h
  obtain ⟨bm1, bm2, hgroup⟩ := foldlM_eq_ok hscan i (List.mem_range.mpr hi)
  unfold group at hgroup
  split_ifs at hgroup with hmagic
  obtain ⟨bm3, hlist, htree⟩ := bind_eq_ok hgroup
  exact ⟨not_not.mp hmagic, x.freelistOk_of_ok hlist, x.fitsStack_of_ok htree⟩

/-- More fuel than the free list has places changes nothing. -/
theorem returns_of_readsb {x : XfsInput} (hcheck : LinboxRescue.checkit x.dev = true) {fuel : ℕ}
    (hfuel : 128 ≤ fuel) {p : XfsMap} (h : x.readsb fuel = .ok p) : Returns x.readsb p := by
  have hgroups := fun i (hi : i < x.agcount) => (x.group_of_readsb h hi).2
  have hpasses : x.Passes := ⟨hcheck, fun i hi => (x.group_of_readsb h hi).1⟩
  refine ⟨128, fun fuel' hfuel' => ?_⟩
  rw [readsb_eq hpasses (x.heap_of_readsb h) hgroups hfuel']
  rwa [readsb_eq hpasses (x.heap_of_readsb h) hgroups hfuel] at h

/-- When the scan ends, `calloc` gave the bitmap and all groups are inside. -/
theorem inside_of_scansSafely {x : XfsInput} (h : x.Passes) (hsafe : x.ScansSafely) :
    x.blocks % 2 ^ 32 ≤ x.heap ∧ ∀ i < x.agcount, x.GroupInside i := by
  obtain ⟨p, n, hp⟩ := hsafe
  have hheap := x.heap_of_readsb (hp n le_rfl)
  have hgroups : ∀ i < x.agcount, x.FreelistOk i ∧ x.FitsStack i := fun i hi =>
    (x.group_of_readsb (hp n le_rfl) hi).2
  have hrun := hp (max n 128) (le_max_left _ _)
  rw [readsb_eq h hheap hgroups (le_max_right _ _)] at hrun
  obtain ⟨bm, hbm, -⟩ := bind_eq_ok hrun
  refine ⟨hheap, fun i hi => ?_⟩
  rw [groupInside_iff]
  refine ⟨hgroups i hi, fun b hb => ?_⟩
  have hlt := lt_of_foldlM_clearByte hbm b (List.mem_flatMap.mpr ⟨i, List.mem_range.mpr hi, hb⟩)
  rwa [List.length_replicate] at hlt

/-- When all groups are inside, the bytes of the listed blocks are cleared. -/
theorem returns_readsb {x : XfsInput} (h : x.Passes) (hheap : x.blocks % 2 ^ 32 ≤ x.heap)
    (hin : ∀ i < x.agcount, x.GroupInside i) :
    ∃ p, Returns x.readsb p ∧ p.bitmap = cleared (List.replicate (x.blocks % 2 ^ 32) 0xFF)
      ((List.range x.agcount).flatMap x.groupBytes) := by
  have hgroups : ∀ i < x.agcount, x.FreelistOk i ∧ x.FitsStack i := fun i hi =>
    ((x.groupInside_iff i).mp (hin i hi)).1
  have hall : ∀ b ∈ (List.range x.agcount).flatMap x.groupBytes,
      b < (List.replicate (x.blocks % 2 ^ 32) (0xFF : UInt8)).length := by
    intro b hb
    obtain ⟨i, hi, hbi⟩ := List.mem_flatMap.mp hb
    rw [List.length_replicate]
    exact ((x.groupInside_iff i).mp (hin i (List.mem_range.mp hi))).2 b hbi
  refine ⟨x.verify (cleared _ _), ⟨128, fun fuel hfuel => ?_⟩, rfl⟩
  rw [readsb_eq h hheap hgroups hfuel, foldlM_clearByte hall, ok_bind]

end XfsInput

/-! ## Small file systems -/

/-- The `w` bytes of a number, the highest one first. -/
def beBytes (w n : ℕ) : Bytes := (leBytes w n).reverse

def xfsSuperblock (agblocks agcount : ℕ) : Bytes :=
  ascii "XFSB" ++ beBytes 4 4096 ++ beBytes 8 (agblocks * agcount) ++ List.replicate 68 0 ++
    beBytes 4 agblocks ++ beBytes 4 agcount

/-- A group with a tree of one block, block 1. -/
def xfsAgf (agno first last count : ℕ) : Bytes :=
  beBytes 4 agfMagic ++ List.replicate 4 0 ++ beBytes 4 agno ++ List.replicate 4 0 ++ beBytes 4 1 ++
    List.replicate 8 0 ++ beBytes 4 1 ++ List.replicate 8 0 ++ beBytes 4 first ++ beBytes 4 last ++
    beBytes 4 count

/-- A leaf with one record. -/
def xfsLeaf (e : ℕ × ℕ) : Bytes :=
  List.replicate 6 0 ++ beBytes 2 1 ++ List.replicate 8 0 ++ beBytes 4 e.1 ++ beBytes 4 e.2

/-- A file system of groups that are alike; place `j` of the free list holds block `(j + 4) % 128`. -/
def xfsSample (agblocks agcount first last count : ℕ) (e : ℕ × ℕ) : Device := fun p =>
  let r := p % (4096 * agblocks)
  if 4096 * agblocks * agcount ≤ p then none
  else if r < 512 then some ((xfsSuperblock agblocks agcount).getD r 0)
  else if r < 1024 then
    some ((xfsAgf (p / (4096 * agblocks)) first last count).getD (r - 512) 0)
  else if 1536 ≤ r ∧ r < 2048 then some (if r % 4 = 3 then UInt8.ofNat (((r - 1536) / 4 + 4) % 128) else 0)
  else if 4096 ≤ r ∧ r < 8192 then some ((xfsLeaf e).getD (r - 4096) 0)
  else some 0

/-- The buffers are zero before they are filled. -/
def zeroBuffers : XfsBuffer → ℕ → UInt8 := fun _ _ => 0

/-- The limits of a Linux process with 32-bit addresses: three of the four gigabytes, and eight megabytes of
stack. -/
def usualLimits : XfsLimits := ⟨3 * 2 ^ 30, 127, by decide⟩

/-- Two groups of sixteen blocks. -/
def twoGroups (first last count : ℕ) (e : ℕ × ℕ) : XfsInput :=
  ⟨usualLimits, xfsSample 16 2 first last count e, zeroBuffers⟩

/-- The tree of the first group has 140 levels; its blocks point to block 0, which has pointers too. -/
def deepGroups : XfsInput :=
  { twoGroups 126 1 4 (10, 6) with
    dev := fun o => if o = 512 + 31 then some 140 else xfsSample 16 2 126 1 4 (10, 6) o }

namespace XfsInput

/-- A tree of one block needs one call. -/
theorem fitsStack_of_leaf {x : XfsInput} {i : ℕ} (hlevel : x.rootLevel i = 0) (hstack : 0 < x.stack) :
    x.FitsStack i := by
  unfold FitsStack
  rw [hlevel]
  rintro (_ | h) hh
  · exact hstack
  · exact hh.elim

/-- In block 0 of `deepGroups` every pointer leads to block 0. -/
theorem hasLevel_deepGroups {level : ℕ} : ∀ {path : List ℕ} {h : ℕ}, h ≤ level →
    deepGroups.HasLevel 0 level path 0 h := by
  have hnum : 0 < bbNumrecs (deepGroups.node 0 [] 0) := by decide +kernel
  have hptr : allocPtr (deepGroups.node 0 [] 0) 0 = 0 := by decide +kernel
  induction level with
  | zero =>
    intro path h hh
    obtain rfl := Nat.le_zero.mp hh
    unfold HasLevel
    trivial
  | succ level ih =>
    rintro path (_ | h) hh
    · unfold HasLevel
      trivial
    · refine ⟨0, hnum, ?_⟩
      have hzero : allocPtr (deepGroups.node 0 path 0) 0 = 0 := hptr
      rw [hzero]
      exact ih (by omega)

end XfsInput

end LinboxRescue
