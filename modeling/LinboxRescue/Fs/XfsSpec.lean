import LinboxRescue.Fs.Xfs

/-!
# The free blocks of an XFS volume

A volume has an allocation group after the other. Each lists its free blocks in a B+tree whose leaves
hold extents, and in a circular list. `BnoTree` is a tree of a given depth, `TreeOnDisk` says that it is
stored from a block on, and `XfsVolume` that a device holds the groups.

1. `leafRec_iff`, `hasLevel_iff`: the walk over the blocks finds the extents of the tree, on its levels.
2. `mem_groupBytes`: the bytes that are cleared for a group are those of its free blocks.
3. `mapsFree_iff`: the bitmap tells the free blocks from the others, when memory and stack suffice.
-/

namespace LinboxRescue

/-! ## Volumes -/

/-- A tree whose leaves are all under `d` levels of nodes. -/
inductive BnoTree : ℕ → Type
  | leaf (recs : List (ℕ × ℕ)) : BnoTree 0
  | node {d : ℕ} (n : ℕ) (ptr : Fin n → ℕ) (child : Fin n → BnoTree d) : BnoTree (d + 1)

/-- The extent is in a leaf. -/
def BnoTree.Lists (e : ℕ × ℕ) : {d : ℕ} → BnoTree d → Prop
  | _, .leaf recs => e ∈ recs
  | _, .node _ _ child => ∃ k, (child k).Lists e

/-- The tree has blocks `h` levels below its root. -/
def BnoTree.HasLevel : {d : ℕ} → BnoTree d → ℕ → Prop
  | _, _, 0 => True
  | _, .leaf _, _ + 1 => False
  | _, .node _ _ child, h + 1 => ∃ k, (child k).HasLevel h

/-- The device holds the number `v` in the `w` bytes at `off`. -/
def Device.Holds (dev : Device) (off w v : ℕ) : Prop :=
  (∀ k < w, (dev (off + k)).isSome) ∧ beVal (fun k => (dev k).getD 0) off w = v

instance (dev : Device) (off w v : ℕ) : Decidable (dev.Holds off w v) :=
  inferInstanceAs (Decidable (_ ∧ _))

/-- The tree is stored from block `root` of the group that starts at block `start`; there are at most
510 records in a leaf and 340 pointers in a node. -/
def TreeOnDisk (dev : Device) (start dblocks : ℕ) : {d : ℕ} → BnoTree d → ℕ → Prop
  | _, .leaf recs, root =>
    start + root < dblocks ∧ recs.length ≤ 510 ∧
      dev.Holds ((start + root) * 4096 + 6) 2 recs.length ∧
      ∀ k (h : k < recs.length), dev.Holds ((start + root) * 4096 + (16 + 8 * k)) 4 recs[k].1 ∧
        dev.Holds ((start + root) * 4096 + (16 + 8 * k + 4)) 4 recs[k].2
  | _, .node n ptr child, root =>
    start + root < dblocks ∧ n ≤ 340 ∧ dev.Holds ((start + root) * 4096 + 6) 2 n ∧
      ∀ k, dev.Holds ((start + root) * 4096 + (2736 + 4 * k.val)) 4 (ptr k) ∧
        TreeOnDisk dev start dblocks (child k) (ptr k)

/-- What an allocation group says about its free blocks. -/
structure AllocGroup where
  depth : ℕ
  tree : BnoTree depth
  root : ℕ
  flfirst : ℕ
  fllast : ℕ
  flcount : ℕ
  agfl : ℕ → ℕ

/-- Block `b` is free in the group that starts at block `start`. -/
def AllocGroup.Free (g : AllocGroup) (start b : ℕ) : Prop :=
  (∃ e, g.tree.Lists e ∧ start + e.1 ≤ b ∧ b < start + e.1 + e.2) ∨
    (g.flcount ≠ 0 ∧ ∃ j, ActiveSlot g.flfirst g.fllast j ∧ b = start + g.agfl j)

/-- The device holds group `agno`, with its header in sector 1 and its free list in sector 3, and all
its extents are inside the volume. -/
structure OnGroup (dev : Device) (agblocks dblocks agno : ℕ) (g : AllocGroup) : Prop where
  start : agno * agblocks < dblocks
  magic : dev.Holds (agno * agblocks * 4096 + 512) 4 agfMagic
  seqno : dev.Holds (agno * agblocks * 4096 + 512 + 8) 4 agno
  root : dev.Holds (agno * agblocks * 4096 + 512 + 16) 4 g.root
  levels : dev.Holds (agno * agblocks * 4096 + 512 + 28) 4 (g.depth + 1)
  flfirst : dev.Holds (agno * agblocks * 4096 + 512 + 40) 4 g.flfirst
  fllast : dev.Holds (agno * agblocks * 4096 + 512 + 44) 4 g.fllast
  flcount : dev.Holds (agno * agblocks * 4096 + 512 + 48) 4 g.flcount
  flfirst_lt : g.flfirst < 128
  fllast_lt : g.fllast < 128
  agfl : ∀ j < 128, dev.Holds (agno * agblocks * 4096 + 1536 + 4 * j) 4 (g.agfl j)
  tree : TreeOnDisk dev (agno * agblocks) dblocks g.tree g.root
  inside : ∀ b, g.Free (agno * agblocks) b → b < dblocks

/-- The device holds a volume of `dblocks` blocks with these groups. -/
structure XfsVolume (dev : Device) (dblocks agblocks : ℕ) (groups : List AllocGroup) : Prop where
  checkit : checkit dev = true
  sbDblocks : dev.Holds 8 8 dblocks
  sbAgblocks : dev.Holds 84 4 agblocks
  sbAgcount : dev.Holds 88 4 groups.length
  group : ∀ agno (h : agno < groups.length), OnGroup dev agblocks dblocks agno groups[agno]

/-- Block `b` is free in one of the groups. -/
def FreeIn (agblocks : ℕ) (groups : List AllocGroup) (b : ℕ) : Prop :=
  ∃ agno, ∃ h : agno < groups.length, groups[agno].Free (agno * agblocks) b

/-- The byte of a block is zero exactly when the block is free, and else 255. -/
def XfsInput.MapsFree (x : XfsInput) (dblocks agblocks : ℕ) (groups : List AllocGroup) : Prop :=
  ∃ p, Returns x.readsb p ∧ ∀ b < dblocks,
    (FreeIn agblocks groups b → p.bitmap[b]? = some 0) ∧
      (¬ FreeIn agblocks groups b → p.bitmap[b]? = some 0xFF)

/-! ## The numbers in the buffers -/

theorem beVal_congr {buf buf' : ℕ → UInt8} {off off' w : ℕ}
    (h : ∀ k < w, buf (off + k) = buf' (off' + k)) : beVal buf off w = beVal buf' off' w := by
  induction w with
  | zero => rfl
  | succ w ih => rw [beVal, beVal, ih fun k hk => h k (by omega), h w (by omega)]

/-- A number that is read is the one on the device. -/
theorem beVal_fill {dev : Device} {a n off w v : ℕ} (buf : ℕ → UInt8) (h : dev.Holds (a + off) w v)
    (hn : off + w ≤ n) : beVal (dev.fill a n buf) off w = v := by
  rw [← h.2]
  apply beVal_congr
  intro k hk
  obtain ⟨b, hb⟩ := Option.isSome_iff_exists.mp (h.1 k hk)
  have hadd : a + (off + k) = a + off + k := by omega
  unfold Device.fill
  rw [if_pos (by omega), hadd, hb]
  rfl

theorem beVal_lt (buf : ℕ → UInt8) (off w : ℕ) : beVal buf off w < 256 ^ w := by
  induction w with
  | zero => exact Nat.one_pos
  | succ w ih =>
    have := (buf (off + w)).toNat_lt
    rw [beVal, pow_succ]
    omega

section Group

variable {x : XfsInput} {dblocks agno : ℕ} {g : AllocGroup} (hlt : dblocks < 2 ^ 32)
  (hg : OnGroup x.dev x.agblocks dblocks agno g)

namespace XfsInput

include hlt in
/-- Blocks of a small volume have their own address. -/
theorem convertAgbToDaddr_eq {b : ℕ} (hb : agno * x.agblocks + b < dblocks) :
    x.convertAgbToDaddr agno b = (agno * x.agblocks + b) * 4096 := by
  unfold convertAgbToDaddr
  exact Nat.mod_eq_of_lt (by omega)

include hlt hg

theorem convertAgToDaddr_eq {s : ℕ} (hs : s < 8) :
    x.convertAgToDaddr agno s = agno * x.agblocks * 4096 + s * 512 := by
  have hstart := hg.start
  unfold convertAgToDaddr
  rw [convertAgbToDaddr_eq hlt (show agno * x.agblocks + 0 < dblocks from hstart), Nat.add_zero]
  exact Nat.mod_eq_of_lt (by omega)

/-- A field of the header. -/
theorem beVal_agf {off w v : ℕ} (h : x.dev.Holds (agno * x.agblocks * 4096 + 512 + off) w v)
    (hn : off + w ≤ 60) : beVal (x.agf agno) off w = v := by
  have haddr := convertAgToDaddr_eq hlt hg (show 1 < 8 by omega)
  unfold agf
  rw [haddr, Nat.one_mul]
  exact beVal_fill _ h hn

theorem agfSeqno_eq : x.agfSeqno agno = agno := beVal_agf hlt hg hg.seqno (by omega)

theorem agfRoot_eq : x.agfRoot agno = g.root := beVal_agf hlt hg hg.root (by omega)

theorem agfFlfirst_eq : x.agfFlfirst agno = g.flfirst := beVal_agf hlt hg hg.flfirst (by omega)

theorem agfFllast_eq : x.agfFllast agno = g.fllast := beVal_agf hlt hg hg.fllast (by omega)

theorem agfFlcount_eq : x.agfFlcount agno = g.flcount := beVal_agf hlt hg hg.flcount (by omega)

theorem agflBno_eq {j : ℕ} (hj : j < 128) : x.agflBno agno j = g.agfl j := by
  have haddr := convertAgToDaddr_eq hlt hg (show 3 < 8 by omega)
  unfold agflBno
  rw [agfSeqno_eq hlt hg, haddr]
  exact beVal_fill _ (hg.agfl j hj) (by omega)

theorem rootLevel_eq : x.rootLevel agno = g.depth := by
  have hlevels : x.agfLevels agno = g.depth + 1 := beVal_agf hlt hg hg.levels (by omega)
  have hbound : x.agfLevels agno < 256 ^ 4 := beVal_lt _ _ _
  unfold rootLevel
  omega

/-! ## The free blocks -/

/-- A number in a block of the tree. -/
theorem beVal_node {path : List ℕ} {root off w v : ℕ} (hroot : agno * x.agblocks + root < dblocks)
    (h : x.dev.Holds ((agno * x.agblocks + root) * 4096 + off) w v) (hn : off + w ≤ 4096) :
    beVal (x.node agno path root) off w = v := by
  unfold node
  rw [agfSeqno_eq hlt hg, convertAgbToDaddr_eq hlt hroot]
  exact beVal_fill _ h hn

/-- The number of pointers of a node, and the pointers. -/
theorem node_fields (path : List ℕ) {d n root : ℕ} {ptr : Fin n → ℕ} {child : Fin n → BnoTree d}
    (hdisk : TreeOnDisk x.dev (agno * x.agblocks) dblocks (.node n ptr child) root) :
    bbNumrecs (x.node agno path root) = n ∧
      ∀ k : Fin n, allocPtr (x.node agno path root) k = ptr k := by
  obtain ⟨hroot, hmax, hnum, hchild⟩ := hdisk
  refine ⟨beVal_node hlt hg hroot hnum (by omega), fun k => ?_⟩
  apply beVal_node hlt hg hroot (hchild k).1
  show 2736 + 4 * k.val + 4 ≤ 4096
  omega

/-- The records in the leaves are the extents of the tree. -/
theorem leafRec_iff {d : ℕ} {t : BnoTree d} {e : ℕ × ℕ} : ∀ {path root},
    TreeOnDisk x.dev (agno * x.agblocks) dblocks t root →
      (x.LeafRec agno d path root e ↔ t.Lists e) := by
  induction t with
  | leaf recs =>
    intro path root hdisk
    obtain ⟨hroot, hmax, hnum, hrecs⟩ := hdisk
    have hnumrecs : bbNumrecs (x.node agno path root) = recs.length :=
      beVal_node hlt hg hroot hnum (by omega)
    have hrec : ∀ k (h : k < recs.length), allocRec (x.node agno path root) k = recs[k] := by
      intro k h
      apply Prod.ext
      · exact beVal_node hlt hg hroot (hrecs k h).1 (by omega)
      · exact beVal_node hlt hg hroot (hrecs k h).2 (by omega)
    constructor
    · intro h
      cases h with
      | @leaf _ _ k h =>
        rw [hnumrecs] at h
        show _ ∈ recs
        rw [hrec k h]
        exact List.getElem_mem h
    · intro h
      obtain ⟨k, hk, rfl⟩ := List.mem_iff_getElem.mp h
      rw [← hrec k hk]
      exact .leaf (by rwa [hnumrecs])
  | node n ptr child ih =>
    intro path root hdisk
    obtain ⟨hnumrecs, hptr⟩ := node_fields hlt hg path hdisk
    obtain ⟨-, -, -, hchild⟩ := hdisk
    constructor
    · intro h
      cases h with
      | @node _ _ _ k _ h he =>
        rw [hnumrecs] at h
        rw [hptr ⟨k, h⟩] at he
        exact ⟨⟨k, h⟩, (ih ⟨k, h⟩ (hchild ⟨k, h⟩).2).mp he⟩
    · rintro ⟨k, hk⟩
      refine .node (k := k) (by rw [hnumrecs]; exact k.isLt) ?_
      rw [hptr k]
      exact (ih k (hchild k).2).mpr hk

/-- The pointers lead to the levels of the tree. -/
theorem hasLevel_iff {d : ℕ} {t : BnoTree d} : ∀ {path root h},
    TreeOnDisk x.dev (agno * x.agblocks) dblocks t root →
      (x.HasLevel agno d path root h ↔ t.HasLevel h) := by
  induction t with
  | leaf recs =>
    rintro path root (_ | h) -
    · exact Iff.rfl
    · exact Iff.rfl
  | node n ptr child ih =>
    rintro path root (_ | h) hdisk
    · exact Iff.rfl
    obtain ⟨hnumrecs, hptr⟩ := node_fields hlt hg path hdisk
    obtain ⟨-, -, -, hchild⟩ := hdisk
    constructor
    · rintro ⟨k, hk, hh⟩
      rw [hnumrecs] at hk
      rw [hptr ⟨k, hk⟩] at hh
      exact ⟨⟨k, hk⟩, (ih ⟨k, hk⟩ (hchild ⟨k, hk⟩).2).mp hh⟩
    · rintro ⟨k, hh⟩
      refine ⟨k, by rw [hnumrecs]; exact k.isLt, ?_⟩
      rw [hptr k]
      exact (ih k (hchild k).2).mpr hh

theorem fitsStack_iff : x.FitsStack agno ↔ ∀ h, g.tree.HasLevel h → h < x.stack := by
  unfold FitsStack
  rw [rootLevel_eq hlt hg, agfRoot_eq hlt hg]
  exact forall_congr' fun h => imp_congr_left (hasLevel_iff hlt hg hg.tree)

theorem freelistOk_of_onGroup : x.FreelistOk agno := by
  right
  rw [agfFlfirst_eq hlt hg, agfFllast_eq hlt hg]
  exact ⟨hg.flfirst_lt, hg.fllast_lt⟩

/-- The bytes that are cleared for a group are those of its free blocks. -/
theorem mem_groupBytes {b : ℕ} : b ∈ x.groupBytes agno ↔ g.Free (agno * x.agblocks) b := by
  have hlist : b ∈ x.freelistBytes agno ↔ g.flcount ≠ 0 ∧
      ∃ j, ActiveSlot g.flfirst g.fllast j ∧ b = agno * x.agblocks + g.agfl j := by
    rw [x.mem_freelistBytes (freelistOk_of_onGroup hlt hg), agfFlcount_eq hlt hg,
      agfFlfirst_eq hlt hg, agfFllast_eq hlt hg, agfSeqno_eq hlt hg]
    refine and_congr_right fun _ => exists_congr fun j => and_congr_right fun hj => ?_
    rw [agflBno_eq hlt hg hj.1]
  have htree : b ∈ x.treeBytes agno (x.rootLevel agno) [] (x.agfRoot agno) ↔
      ∃ e, g.tree.Lists e ∧ agno * x.agblocks + e.1 ≤ b ∧ b < agno * x.agblocks + e.1 + e.2 := by
    rw [x.mem_treeBytes, rootLevel_eq hlt hg, agfRoot_eq hlt hg]
    apply exists_congr
    intro e
    rw [leafRec_iff hlt hg hg.tree, x.mem_extentBytes, agfSeqno_eq hlt hg]
  unfold groupBytes AllocGroup.Free
  rw [List.mem_append, hlist, htree, or_comm]

end XfsInput

end Group

namespace XfsInput

variable {x : XfsInput} {dblocks agblocks : ℕ} {groups : List AllocGroup}

/-- The superblock of a volume. -/
theorem sb_eq (hvol : XfsVolume x.dev dblocks agblocks groups) :
    x.blocks = dblocks ∧ x.agblocks = agblocks ∧ x.agcount = groups.length :=
  ⟨hvol.sbDblocks.2, hvol.sbAgblocks.2, hvol.sbAgcount.2⟩

/-- The loop over the groups gets to those of the volume. -/
theorem onGroup_of_lt (hvol : XfsVolume x.dev dblocks agblocks groups) {i : ℕ} (hi : i < x.agcount) :
    ∃ h : i < groups.length, OnGroup x.dev x.agblocks dblocks i groups[i] := by
  obtain ⟨-, hagblocks, hagcount⟩ := sb_eq hvol
  rw [hagcount] at hi
  rw [hagblocks]
  exact ⟨hi, hvol.group i hi⟩

theorem passes_of_volume (hvol : XfsVolume x.dev dblocks agblocks groups) (hlt : dblocks < 2 ^ 32) :
    x.Passes := by
  refine ⟨hvol.checkit, fun i hi => ?_⟩
  obtain ⟨_, hg⟩ := onGroup_of_lt hvol hi
  exact beVal_agf hlt hg hg.magic (by omega)

/-- `calloc` gives a byte for each block, and the stack has room for the trees. -/
def Suffices (x : XfsInput) (dblocks : ℕ) (groups : List AllocGroup) : Prop :=
  dblocks ≤ x.heap ∧ ∀ g ∈ groups, ∀ h, g.tree.HasLevel h → h < x.stack

theorem mapsFree_of_suffices (hvol : XfsVolume x.dev dblocks agblocks groups)
    (hsuff : x.Suffices dblocks groups) : x.MapsFree dblocks agblocks groups := by
  have hlt : dblocks < 2 ^ 32 := hsuff.1.trans_lt x.heap_lt
  obtain ⟨hblocks, hagblocks, hagcount⟩ := sb_eq hvol
  have hmod : x.blocks % 2 ^ 32 = dblocks := by rw [hblocks, Nat.mod_eq_of_lt hlt]
  have hinside : ∀ i < x.agcount, x.GroupInside i := by
    intro i hi
    obtain ⟨hlen, hg⟩ := onGroup_of_lt hvol hi
    rw [groupInside_iff, hmod]
    exact ⟨⟨freelistOk_of_onGroup hlt hg,
      (fitsStack_iff hlt hg).mpr (hsuff.2 _ (List.getElem_mem hlen))⟩,
      fun b hb => hg.inside b ((mem_groupBytes hlt hg).mp hb)⟩
  obtain ⟨p, hp, hbitmap⟩ :=
    returns_readsb (passes_of_volume hvol hlt) (by rw [hmod]; exact hsuff.1) hinside
  have hfree : ∀ b, b ∈ (List.range x.agcount).flatMap x.groupBytes ↔ FreeIn x.agblocks groups b := by
    intro b
    rw [List.mem_flatMap]
    constructor
    · rintro ⟨i, hi, hb⟩
      obtain ⟨hlen, hg⟩ := onGroup_of_lt hvol (List.mem_range.mp hi)
      exact ⟨i, hlen, (mem_groupBytes hlt hg).mp hb⟩
    · rintro ⟨i, hi, hb⟩
      rw [← hagcount] at hi
      obtain ⟨_, hg⟩ := onGroup_of_lt hvol hi
      exact ⟨i, List.mem_range.mpr hi, (mem_groupBytes hlt hg).mpr hb⟩
  rw [← hagblocks]
  refine ⟨p, hp, fun b hb => ?_⟩
  rw [hbitmap, getElem?_cleared (by rwa [hmod])]
  constructor
  · intro h
    rw [if_pos ((hfree b).mpr h)]
  · intro h
    rw [if_neg fun hmem => h ((hfree b).mp hmem)]

/-- The bitmap that the scan leaves has the bytes that were asked of `calloc`. -/
theorem length_bitmap_of_returns (hvol : XfsVolume x.dev dblocks agblocks groups) {p : XfsMap}
    (hp : Returns x.readsb p) : p.bitmap.length = x.blocks % 2 ^ 32 := by
  have hpasses : x.Passes := by
    obtain ⟨n, hn⟩ := hp
    exact ⟨hvol.checkit, fun i hi => (x.group_of_readsb (hn n le_rfl) hi).1⟩
  obtain ⟨hheap, hin⟩ := inside_of_scansSafely hpasses ⟨p, hp⟩
  obtain ⟨p', hp', hbitmap⟩ := returns_readsb hpasses hheap hin
  obtain rfl := hp.unique hp'
  rw [hbitmap, length_cleared, List.length_replicate]

/-- There is no byte for the last blocks of a volume of `2 ^ 32` blocks or more. -/
theorem lt_of_mapsFree (hvol : XfsVolume x.dev dblocks agblocks groups)
    (hmaps : x.MapsFree dblocks agblocks groups) : dblocks < 2 ^ 32 := by
  obtain ⟨p, hp, hbytes⟩ := hmaps
  by_contra hge
  obtain ⟨v, hv⟩ : ∃ v, p.bitmap[dblocks - 1]? = some v := by
    obtain ⟨h0, h255⟩ := hbytes (dblocks - 1) (by omega)
    by_cases hfree : FreeIn agblocks groups (dblocks - 1)
    · exact ⟨_, h0 hfree⟩
    · exact ⟨_, h255 hfree⟩
  have hlast := (List.getElem?_eq_some_iff.mp hv).1
  rw [length_bitmap_of_returns hvol hp, (sb_eq hvol).1] at hlast
  omega

/-- The scan of a volume that is not too large comes to its end when memory and stack suffice only. -/
theorem suffices_of_returns (hvol : XfsVolume x.dev dblocks agblocks groups) (hlt : dblocks < 2 ^ 32)
    {p : XfsMap} (hp : Returns x.readsb p) : x.Suffices dblocks groups := by
  obtain ⟨hheap, hin⟩ := inside_of_scansSafely (passes_of_volume hvol hlt) ⟨p, hp⟩
  rw [(sb_eq hvol).1, Nat.mod_eq_of_lt hlt] at hheap
  refine ⟨hheap, fun g hg => ?_⟩
  obtain ⟨i, hi, rfl⟩ := List.mem_iff_getElem.mp hg
  rw [← (sb_eq hvol).2.2] at hi
  obtain ⟨_, hgroup⟩ := onGroup_of_lt hvol hi
  exact (fitsStack_iff hlt hgroup).mp (hin i hi).2.2

end XfsInput

/-- What the groups of `xfsSample` say: six free blocks in the tree, and four in the list, which goes on
at its beginning. -/
def sampleGroup : AllocGroup := ⟨0, .leaf [(10, 6)], 1, 126, 1, 4, fun j => (j + 4) % 128⟩

/-- The device with such groups. -/
def sampleDevice (agblocks agcount : ℕ) : Device := xfsSample agblocks agcount 126 1 4 (10, 6)

/-- The fields of a group that starts at byte `a`. -/
def HoldsSample (dev : Device) (a agno : ℕ) : Prop :=
  dev.Holds (a + 512) 4 agfMagic ∧ dev.Holds (a + 512 + 8) 4 agno ∧ dev.Holds (a + 512 + 16) 4 1 ∧
    dev.Holds (a + 512 + 28) 4 1 ∧ dev.Holds (a + 512 + 40) 4 126 ∧ dev.Holds (a + 512 + 44) 4 1 ∧
    dev.Holds (a + 512 + 48) 4 4 ∧ dev.Holds (a + 4096 + 6) 2 1 ∧ dev.Holds (a + 4096 + 16) 4 10 ∧
    dev.Holds (a + 4096 + 20) 4 6

instance (dev : Device) (a agno : ℕ) : Decidable (HoldsSample dev a agno) :=
  inferInstanceAs (Decidable (_ ∧ _))

theorem sampleGroup_free {start b : ℕ} (h : sampleGroup.Free start b) : b < start + 16 := by
  rcases h with ⟨e, he, -, hb⟩ | ⟨-, j, ⟨hj, hactive⟩, rfl⟩
  · obtain rfl := List.mem_singleton.mp he
    exact hb
  · rw [if_neg (by decide)] at hactive
    have hactive : 126 ≤ j ∨ j ≤ 1 := hactive
    show start + (j + 4) % 128 < start + 16
    omega

/-- The places of the free lists. -/
theorem sampleDevice_agfl {agblocks agcount agno j : ℕ} (h16 : 16 ≤ agblocks) (h : agno < agcount)
    (hj : j < 128) : (sampleDevice agblocks agcount).Holds (agno * agblocks * 4096 + 1536 + 4 * j) 4
      ((j + 4) % 128) := by
  have hbyte : ∀ k < 4, sampleDevice agblocks agcount (agno * agblocks * 4096 + 1536 + 4 * j + k) =
      some (if k = 3 then UInt8.ofNat ((j + 4) % 128) else 0) := by
    intro k hk
    have hplace : agno * agblocks * 4096 + 1536 + 4 * j + k =
        (1536 + 4 * j + k) + 4096 * agblocks * agno := by ring
    have hmod : (agno * agblocks * 4096 + 1536 + 4 * j + k) % (4096 * agblocks) = 1536 + 4 * j + k := by
      rw [hplace, Nat.add_mul_mod_self_left, Nat.mod_eq_of_lt (by omega)]
    have hle : 4096 * agblocks * (agno + 1) ≤ 4096 * agblocks * agcount := Nat.mul_le_mul_left _ h
    have hslot : (1536 + 4 * j + k - 1536) / 4 = j := by omega
    rw [Nat.mul_succ] at hle
    unfold sampleDevice xfsSample
    dsimp only
    rw [hmod, if_neg (by omega), if_neg (by omega), if_neg (by omega), if_pos (by omega), hslot]
    congr 1
    exact if_congr (by omega) rfl rfl
  constructor
  · intro k hk
    rw [hbyte k hk]
    rfl
  · simp only [beVal]
    rw [hbyte 0 (by omega), hbyte 1 (by omega), hbyte 2 (by omega), hbyte 3 (by omega)]
    show 256 * 0 + (UInt8.ofNat ((j + 4) % 128)).toNat = _
    rw [UInt8.toNat_ofNat']
    omega

theorem xfsVolume_sampleDevice {agblocks agcount : ℕ} (h16 : 16 ≤ agblocks)
    (hcheck : checkit (sampleDevice agblocks agcount) = true)
    (hblocks : (sampleDevice agblocks agcount).Holds 8 8 (agcount * agblocks))
    (hagblocks : (sampleDevice agblocks agcount).Holds 84 4 agblocks)
    (hagcount : (sampleDevice agblocks agcount).Holds 88 4 agcount)
    (hfields : ∀ agno < agcount,
      HoldsSample (sampleDevice agblocks agcount) (agno * agblocks * 4096) agno) :
    XfsVolume (sampleDevice agblocks agcount) (agcount * agblocks) agblocks
      (List.replicate agcount sampleGroup) := by
  refine ⟨hcheck, hblocks, hagblocks, by rwa [List.length_replicate], fun agno h => ?_⟩
  rw [List.length_replicate] at h
  rw [List.getElem_replicate]
  obtain ⟨hmagic, hseqno, hroot, hlevels, hfirst, hlast, hcount, hnum, hstart, hlen⟩ :=
    hfields agno h
  have hle : (agno + 1) * agblocks ≤ agcount * agblocks := Nat.mul_le_mul_right _ h
  rw [Nat.succ_mul] at hle
  have haddr : (agno * agblocks + 1) * 4096 = agno * agblocks * 4096 + 4096 := by ring
  refine ⟨by omega, hmagic, hseqno, hroot, hlevels, hfirst, hlast, hcount, by decide, by decide,
    fun j hj => sampleDevice_agfl h16 h hj, ⟨?_, by decide, ?_, fun k hk => ?_⟩, fun b hb => ?_⟩
  · show agno * agblocks + 1 < _
    omega
  · show Device.Holds _ ((agno * agblocks + 1) * 4096 + 6) 2 1
    rw [haddr]
    exact hnum
  · obtain rfl : k = 0 := Nat.lt_one_iff.mp hk
    show Device.Holds _ ((agno * agblocks + 1) * 4096 + 16) 4 10 ∧
      Device.Holds _ ((agno * agblocks + 1) * 4096 + 20) 4 6
    rw [haddr]
    exact ⟨hstart, hlen⟩
  · have := sampleGroup_free hb
    omega

namespace XfsInput

variable {x : XfsInput} {dblocks agblocks : ℕ} {groups : List AllocGroup}

/-- **The bitmap tells the free blocks from the others** exactly when `calloc` gives a byte for each
block and the stack has room for the trees. -/
theorem mapsFree_iff (hvol : XfsVolume x.dev dblocks agblocks groups) :
    x.MapsFree dblocks agblocks groups ↔ x.Suffices dblocks groups := by
  constructor
  · intro hmaps
    obtain ⟨p, hp, -⟩ := id hmaps
    exact suffices_of_returns hvol (lt_of_mapsFree hvol hmaps) hp
  · exact mapsFree_of_suffices hvol

/-- A tree of one leaf has one level. -/
theorem suffices_sampleGroups {x : XfsInput} {dblocks n : ℕ} (hheap : dblocks ≤ x.heap)
    (hstack : 0 < x.stack) : x.Suffices dblocks (List.replicate n sampleGroup) := by
  refine ⟨hheap, fun g hg => ?_⟩
  obtain rfl := List.eq_of_mem_replicate hg
  rintro (_ | h) hh
  · exact hstack
  · exact hh.elim

theorem mapsFree_iff_twoGroups :
    (⟨usualLimits, sampleDevice 16 2, zeroBuffers⟩ : XfsInput).MapsFree 32 16
      (List.replicate 2 sampleGroup) :=
  (mapsFree_iff (xfsVolume_sampleDevice (by decide) (by decide +kernel) (by decide +kernel)
    (by decide +kernel) (by decide +kernel) (by decide +kernel))).mpr
    (suffices_sampleGroups (show 32 ≤ 3 * 2 ^ 30 by decide) (show 0 < 127 by decide))

/-- Sixteen groups of one terabyte have `2 ^ 32` blocks, and no bitmap. -/
theorem not_mapsFree_sixteenTerabytes :
    XfsVolume (sampleDevice (2 ^ 28) 16) (2 ^ 32) (2 ^ 28) (List.replicate 16 sampleGroup) ∧
      ¬ (⟨usualLimits, sampleDevice (2 ^ 28) 16, zeroBuffers⟩ : XfsInput).MapsFree (2 ^ 32) (2 ^ 28)
        (List.replicate 16 sampleGroup) := by
  have hvol : XfsVolume (sampleDevice (2 ^ 28) 16) (16 * 2 ^ 28) (2 ^ 28)
      (List.replicate 16 sampleGroup) :=
    xfsVolume_sampleDevice (by decide) (by decide +kernel) (by decide +kernel) (by decide +kernel)
      (by decide +kernel) (by decide +kernel)
  refine ⟨hvol, fun h => ?_⟩
  exact absurd (@lt_of_mapsFree ⟨usualLimits, sampleDevice (2 ^ 28) 16, zeroBuffers⟩ _ _ _ hvol h)
    (by decide)

end XfsInput

end LinboxRescue
