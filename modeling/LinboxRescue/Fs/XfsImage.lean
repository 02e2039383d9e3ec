import LinboxRescue.Fs.XfsSpec
import LinboxRescue.Image.Again

/-!
# The image of an XFS volume

`image_xfs` scans a volume and saves the blocks that are not free. A block that is free is not in the
image, and the restored volume has there what the disk had before; nevertheless it is the same volume,
since the scan itself looks only at blocks that are in use.

1. `XfsVolume.congr`: a device with the same blocks in use holds the same volume.
2. `imageXfs_restored`: the image of a restored volume is, down to the byte, the image that it was
   restored from.
-/

namespace LinboxRescue

/-! ## `main` -/

/-- `image_xfs [device] [image prefix name]`. -/
def imageXfs (z : Zlib) (fuel : ℕ) (limits : XfsLimits) (stale : XfsBuffer → ℕ → UInt8) (name : Bytes)
    (options : Options) (D : List Sector) (buffer : Bytes) (dir : Dir) :
    Except (ImagerHalt XfsHalt) Volume :=
  let x : XfsInput := ⟨limits, Device.ofSectors D, stale⟩
  if checkit x.dev = false then .error (.scan .exit)
  else
    (x.readsb fuel).mapError .scan >>= fun p =>
      saveVolume XfsHalt z fuel name options .xfs D buffer dir p.bitmap p.nbSect p.refused

/-! ## The blocks that are looked at -/

/-- Block `b` of the group is in the tree that is stored from block `root` on. -/
def BnoTree.Stored (b : ℕ) : {d : ℕ} → BnoTree d → ℕ → Prop
  | _, .leaf _, root => b = root
  | _, .node _ ptr child, root => b = root ∨ ∃ k, (child k).Stored b (ptr k)

/-- The blocks of the headers and of the trees are not free. -/
structure MetadataUsed (agblocks : ℕ) (groups : List AllocGroup) : Prop where
  ne : groups ≠ []
  header : ∀ agno < groups.length, ¬ FreeIn agblocks groups (agno * agblocks)
  tree : ∀ agno (h : agno < groups.length) (b : ℕ), groups[agno].tree.Stored b groups[agno].root →
    ¬ FreeIn agblocks groups (agno * agblocks + b)

section Devices

variable {dev dev' : Device}

theorem Device.Holds.congr {off w v lo hi : ℕ} (h : dev.Holds off w v)
    (hsame : SameBytes dev dev' lo hi) (hlo : lo ≤ off) (hhi : off + w ≤ hi) : dev'.Holds off w v := by
  have hbyte : ∀ k < w, dev' (off + k) = dev (off + k) := fun k hk => hsame _ (by omega) (by omega)
  refine ⟨fun k hk => ?_, ?_⟩
  · rw [hbyte k hk]
    exact h.1 k hk
  · rw [← h.2]
    apply beVal_congr
    intro k hk
    rw [hbyte k hk]

/-- A tree is looked for in its own blocks only. -/
theorem TreeOnDisk.congr {start dblocks : ℕ} {d : ℕ} {t : BnoTree d} : ∀ {root : ℕ},
    TreeOnDisk dev start dblocks t root →
    (∀ b, t.Stored b root → SameBytes dev dev' ((start + b) * 4096) ((start + b) * 4096 + 4096)) →
    TreeOnDisk dev' start dblocks t root := by
  induction t with
  | leaf recs =>
    rintro root ⟨hlt, hlen, hnum, hrecs⟩ hsame
    have hblock := hsame root rfl
    refine ⟨hlt, hlen, hnum.congr hblock (by omega) (by omega), fun k hk => ?_⟩
    obtain ⟨hfirst, hcount⟩ := hrecs k hk
    exact ⟨hfirst.congr hblock (by omega) (by omega), hcount.congr hblock (by omega) (by omega)⟩
  | node n ptr child ih =>
    rintro root ⟨hlt, hlen, hnum, hptrs⟩ hsame
    have hblock := hsame root (.inl rfl)
    refine ⟨hlt, hlen, hnum.congr hblock (by omega) (by omega), fun k => ?_⟩
    obtain ⟨hptr, hchild⟩ := hptrs k
    have hk := k.isLt
    exact ⟨hptr.congr hblock (by omega) (by omega),
      ih k hchild fun b hb => hsame b (.inr ⟨k, hb⟩)⟩

theorem OnGroup.congr {agblocks dblocks agno : ℕ} {g : AllocGroup}
    (h : OnGroup dev agblocks dblocks agno g)
    (hheader : SameBytes dev dev' (agno * agblocks * 4096 + 512) (agno * agblocks * 4096 + 2048))
    (htree : ∀ b, g.tree.Stored b g.root → SameBytes dev dev' ((agno * agblocks + b) * 4096)
      ((agno * agblocks + b) * 4096 + 4096)) : OnGroup dev' agblocks dblocks agno g :=
  { h with
    magic := h.magic.congr hheader (by omega) (by omega)
    seqno := h.seqno.congr hheader (by omega) (by omega)
    root := h.root.congr hheader (by omega) (by omega)
    levels := h.levels.congr hheader (by omega) (by omega)
    flfirst := h.flfirst.congr hheader (by omega) (by omega)
    fllast := h.fllast.congr hheader (by omega) (by omega)
    flcount := h.flcount.congr hheader (by omega) (by omega)
    agfl := fun j hj => (h.agfl j hj).congr hheader (by omega) (by omega)
    tree := h.tree.congr htree }

theorem checkit_congr (h : SameBytes dev dev' 0 256) : checkit dev' = checkit dev := by
  have hread : dev'.read 0 256 = dev.read 0 256 := h.read (by omega) (by omega)
  have hsize : beVal (fun k => (dev' k).getD 0) 4 4 = beVal (fun k => (dev k).getD 0) 4 4 := by
    apply beVal_congr
    intro k hk
    rw [h (4 + k) (by omega) (by omega)]
  unfold checkit
  rw [hread, hsize]

variable {dblocks agblocks : ℕ} {groups : List AllocGroup}

/-- The trees and the headers are in front of the end of the volume. -/
theorem TreeOnDisk.stored_lt {start dblocks : ℕ} {d : ℕ} {t : BnoTree d} {b : ℕ} : ∀ {root : ℕ},
    TreeOnDisk dev start dblocks t root → t.Stored b root → start + b < dblocks := by
  induction t with
  | leaf recs =>
    rintro root ⟨hlt, -⟩ rfl
    exact hlt
  | node n ptr child ih =>
    rintro root ⟨hlt, -, -, hptrs⟩ (rfl | ⟨k, hk⟩)
    · exact hlt
    · exact ih k (hptrs k).2 hk

/-- **A device with the same blocks in use holds the same volume.** -/
theorem XfsVolume.congr (h : XfsVolume dev dblocks agblocks groups)
    (hmeta : MetadataUsed agblocks groups)
    (hsame : ∀ b < dblocks, ¬ FreeIn agblocks groups b →
      SameBytes dev dev' (b * 4096) (b * 4096 + 4096)) :
    XfsVolume dev' dblocks agblocks groups ∧ SameBytes dev dev' 0 4096 := by
  have hheader : ∀ agno (h' : agno < groups.length),
      SameBytes dev dev' (agno * agblocks * 4096) (agno * agblocks * 4096 + 4096) := fun agno hagno =>
    hsame _ (h.group agno hagno).start (hmeta.header agno hagno)
  have hsuper : SameBytes dev dev' 0 4096 :=
    (hheader 0 (List.length_pos_iff.mpr hmeta.ne)).mono (by omega) (by omega)
  refine ⟨⟨?_, h.sbDblocks.congr hsuper (by omega) (by omega),
    h.sbAgblocks.congr hsuper (by omega) (by omega), h.sbAgcount.congr hsuper (by omega) (by omega),
    fun agno hagno => ?_⟩, hsuper⟩
  · rw [checkit_congr (hsuper.mono le_rfl (by omega))]
    exact h.checkit
  · refine (h.group agno hagno).congr ((hheader agno hagno).mono (by omega) (by omega)) fun b hb => ?_
    exact hsame _ ((h.group agno hagno).tree.stored_lt hb) (hmeta.tree agno hagno b hb)

end Devices

/-! ## The scan -/

namespace XfsInput

variable {x x' : XfsInput} {dblocks agblocks : ℕ} {groups : List AllocGroup}

/-- What the scan returns, with its length. -/
theorem readsb_verify (hvol : XfsVolume x.dev dblocks agblocks groups) {p : XfsMap}
    (hp : Returns x.readsb p) :
    p = x.verify p.bitmap ∧ p.bitmap.length = x.blocks % 2 ^ 32 := by
  refine ⟨?_, length_bitmap_of_returns hvol hp⟩
  obtain ⟨n, hn⟩ := hp
  have h := hn n le_rfl
  unfold readsb at h
  split_ifs at h
  obtain ⟨bm, -, h⟩ := bind_eq_ok h
  obtain rfl := Except.ok.inj h
  rfl

/-- **The scan gives the same for the same volume**, with at least the same limits. -/
theorem readsb_congr (hvol : XfsVolume x.dev dblocks agblocks groups)
    (hvol' : XfsVolume x'.dev dblocks agblocks groups) (hlt : dblocks < 2 ^ 32)
    (hheap : x.heap ≤ x'.heap) (hstack : x.stack ≤ x'.stack) (hfree : x'.fblocks = x.fblocks)
    {p : XfsMap} (hp : Returns x.readsb p) : Returns x'.readsb p := by
  have hsuff := suffices_of_returns hvol hlt hp
  obtain ⟨p₁, hp₁, hmap⟩ := mapsFree_of_suffices hvol hsuff
  obtain ⟨p', hp', hmap'⟩ := mapsFree_of_suffices hvol'
    ⟨hsuff.1.trans hheap, fun g hg h hh => (hsuff.2 g hg h hh).trans_le hstack⟩
  obtain rfl := hp.unique hp₁
  obtain ⟨hverify, hlen⟩ := readsb_verify hvol hp
  obtain ⟨hverify', hlen'⟩ := readsb_verify hvol' hp'
  have hblocks : x'.blocks = x.blocks := (sb_eq hvol').1.trans (sb_eq hvol).1.symm
  rw [(sb_eq hvol).1, Nat.mod_eq_of_lt hlt] at hlen
  rw [(sb_eq hvol').1, Nat.mod_eq_of_lt hlt] at hlen'
  have hbitmap : p'.bitmap = p.bitmap := by
    apply List.ext_getElem?
    intro b
    by_cases hb : b < dblocks
    · by_cases hf : FreeIn agblocks groups b
      · rw [(hmap b hb).1 hf, (hmap' b hb).1 hf]
      · rw [(hmap b hb).2 hf, (hmap' b hb).2 hf]
    · rw [List.getElem?_eq_none (by omega), List.getElem?_eq_none (by omega)]
  have hsame : p' = p := by
    rw [hverify', hverify, hbitmap]
    unfold verify
    rw [hblocks, hfree]
  rwa [hsame] at hp'

end XfsInput

/-! ## The image -/

section Image

variable {z : Zlib} {D : List Sector} {limits : XfsLimits} {stale : XfsBuffer → ℕ → UInt8}
  {name : Bytes} {options : Options} {buffer : Bytes} {dir : Dir} {p : XfsMap}

theorem returns_imageXfs (hcheck : checkit (Device.ofSectors D) = true)
    (hp : Returns (XfsInput.readsb ⟨limits, Device.ofSectors D, stale⟩) p) {v : Volume} :
    Returns (fun fuel => imageXfs z fuel limits stale name options D buffer dir) v ↔
      p.refused = false ∧ name.head? ≠ some 63 ∧ ∃ params, paramsOf p.bitmap p.nbSect = some params ∧
        Returns (fun fuel => compressVolume z fuel name options .xfs params
          (openSource D fun _ => false) buffer dir) v := by
  rw [← returns_imager hp (·.bitmap) (·.nbSect) (·.refused)]
  have hrun : ∀ fuel, imageXfs z fuel limits stale name options D buffer dir =
      (XfsInput.readsb ⟨limits, Device.ofSectors D, stale⟩ fuel).mapError ImagerHalt.scan >>= fun p =>
        saveVolume XfsHalt z fuel name options .xfs D buffer dir p.bitmap p.nbSect p.refused :=
    fun fuel => if_neg (by rw [hcheck]; decide)
  exact ⟨Returns.congr fun fuel => (hrun fuel).symm, Returns.congr hrun⟩

/-- An image that was made was made of a scan. -/
theorem readsb_of_imageXfs {v : Volume}
    (hv : Returns (fun fuel => imageXfs z fuel limits stale name options D buffer dir) v) :
    checkit (Device.ofSectors D) = true ∧
      ∃ p, Returns (XfsInput.readsb ⟨limits, Device.ofSectors D, stale⟩) p := by
  obtain ⟨n, hn⟩ := hv
  have h : imageXfs z (max n 128) limits stale name options D buffer dir = .ok v :=
    hn _ (le_max_left _ _)
  unfold imageXfs at h
  dsimp only at h
  split_ifs at h with hcheck
  have hcheck := (Bool.not_eq_false _).mp hcheck
  obtain ⟨p, hp, -⟩ := bind_eq_ok h
  exact ⟨hcheck, p, XfsInput.returns_of_readsb hcheck (le_max_right _ _) (mapError_eq_ok.mp hp)⟩

/-- Block `b` has eight bits. -/
theorem used_of_byte {bm : Bytes} {i : ℕ} : (bm[i / 8]? = some 0xFF → Used bm i) ∧
    (bm[i / 8]? = some 0 → ¬ Used bm i) := by
  have hbit : ∀ k < 8, (0xFF : UInt8).toNat.testBit k = true := by decide
  constructor
  · intro h
    rw [Used, bitAt_eq, getElem?_bits, h]
    exact congrArg some (hbit _ (Nat.mod_lt _ (by omega)))
  · intro h hused
    rw [Used, bitAt_eq, getElem?_bits, h] at hused
    exact Bool.false_ne_true ((Nat.zero_testBit (i % 8)).symm.trans (Option.some.inj hused))

/-- **A restored XFS volume is the volume that was saved**: it has the blocks in use of the one and the
free blocks of the disk, and its image is the same image. -/
theorem imageXfs_restored (hz : z.Contract) {dblocks agblocks : ℕ} {groups : List AllocGroup}
    (hvol : XfsVolume (Device.ofSectors D) dblocks agblocks groups)
    (hmeta : MetadataUsed agblocks groups) (hlt : dblocks < 2 ^ 32) (hsize : 8 * dblocks ≤ D.length)
    (hbuf : buffer.length = 24064) {v : Volume}
    (hv : Returns (fun fuel => imageXfs z fuel limits stale name none D buffer dir) v) (mem : Memory)
    (T : ℕ → Sector) {n s L : ℕ} (hn : s + 8 * dblocks ≤ n) (hL : 8 * dblocks ≤ L) :
    ∃ names st,
      Returns (fun fuel => restore z.inflate fuel v.dir.fetch mem (openTarget T (endsAt n)) s name)
        (names, st) ∧
      (∀ i < 8 * dblocks, ¬ FreeIn agblocks groups (i / 8) → D[i]? = some (st.fo.cells (s + i))) ∧
      (∀ q, (∀ i < 8 * dblocks, ¬ FreeIn agblocks groups (i / 8) → q ≠ s + i) →
        st.fo.cells q = T q) ∧
      XfsVolume (Device.ofSectors (sectorsAt st.fo.cells s L)) dblocks agblocks groups ∧
      ∀ (limits' : XfsLimits) (stale' : XfsBuffer → ℕ → UInt8) (buffer' : Bytes),
        limits.heap ≤ limits'.heap → limits.stack ≤ limits'.stack → buffer'.length = 24064 →
          ∃ v', Returns (fun fuel => imageXfs z fuel limits' stale' name none
            (sectorsAt st.fo.cells s L) buffer' dir) v' ∧ v'.dir = v.dir := by
  obtain ⟨-, p, hp⟩ := readsb_of_imageXfs hv
  obtain ⟨p', hp', hmap⟩ := @XfsInput.mapsFree_of_suffices ⟨limits, Device.ofSectors D, stale⟩ _ _ _
    hvol (@XfsInput.suffices_of_returns ⟨limits, Device.ofSectors D, stale⟩ _ _ _ hvol hlt p hp)
  obtain rfl := hp.unique hp'
  obtain ⟨hrefused, hname, params, hparams, hcopy⟩ := (returns_imageXfs hvol.checkit hp).mp hv
  have hbitmap := bitmap_paramsOf hparams
  obtain ⟨-, hlen⟩ := @XfsInput.readsb_verify ⟨limits, Device.ofSectors D, stale⟩ _ _ _ hvol p hp
  rw [(XfsInput.sb_eq hvol).1, Nat.mod_eq_of_lt hlt] at hlen
  -- the bits are those of the blocks in use
  have hused : ∀ i, Used params.bitmap i ↔ i < 8 * dblocks ∧ ¬ FreeIn agblocks groups (i / 8) := by
    intro i
    rw [hbitmap]
    by_cases hi : i < 8 * dblocks
    · by_cases hf : FreeIn agblocks groups (i / 8)
      · exact iff_of_false (used_of_byte.2 ((hmap (i / 8) (by omega)).1 hf)) fun h => h.2 hf
      · exact iff_of_true (used_of_byte.1 ((hmap (i / 8) (by omega)).2 hf)) ⟨hi, hf⟩
    · refine iff_of_false (fun h => ?_) fun h => hi h.1
      have hbound := lt_of_mem_ones (used_iff.mp h)
      rw [length_bits, hlen] at hbound
      omega
  have hpos : 0 < dblocks := by
    have := (hvol.group 0 (List.length_pos_iff.mpr hmeta.ne)).start
    omega
  have hnb : params.nb ≠ 0 := by
    have : params.bitmap.length = dblocks := by rw [hbitmap, hlen]
    unfold Params.nb
    omega
  have hD : ∀ i, Used params.bitmap i → i < D.length := fun i hi =>
    ((hused i).mp hi).1.trans_le hsize
  obtain ⟨st, hst, hcells, hother⟩ := restore_marked hz hD hbuf hcopy hnb mem T (n := n) (s := s)
    fun i hi => by have := ((hused i).mp hi).1; omega
  -- the restored sectors
  have hsame : ∀ i, Used params.bitmap i → (sectorsAt st.fo.cells s L)[i]? = D[i]? := by
    intro i hi
    rw [getElem?_sectorsAt _ _ (((hused i).mp hi).1.trans_le hL), hcells i hi]
  have hblocks : ∀ b < dblocks, ¬ FreeIn agblocks groups b →
      SameBytes (Device.ofSectors D) (Device.ofSectors (sectorsAt st.fo.cells s L)) (b * 4096)
        (b * 4096 + 4096) := by
    intro b hb hf o ho1 ho2
    refine Device.ofSectors_congr (hsame _ ((hused _).mpr ⟨by omega, ?_⟩))
    rwa [show o / 512 / 8 = b by omega]
  obtain ⟨hvol', hsuper⟩ := hvol.congr hmeta hblocks
  refine ⟨_, st, hst, fun i hi hf => hcells i ((hused i).mpr ⟨hi, hf⟩), fun q hq => ?_, hvol',
    fun limits' stale' buffer' hheap hstack hbuf' => ?_⟩
  · exact hother q fun i hi => hq i ((hused i).mp hi).1 ((hused i).mp hi).2
  · have hfblocks : XfsInput.fblocks ⟨limits', Device.ofSectors (sectorsAt st.fo.cells s L), stale'⟩
        = XfsInput.fblocks ⟨limits, Device.ofSectors D, stale⟩ := by
      apply beVal_congr
      intro k hk
      show (Device.ofSectors _ (144 + k)).getD 0 = (Device.ofSectors D (144 + k)).getD 0
      rw [hsuper (144 + k) (by omega) (by omega)]
    have hp' := @XfsInput.readsb_congr ⟨limits, Device.ofSectors D, stale⟩
      ⟨limits', Device.ofSectors (sectorsAt st.fo.cells s L), stale'⟩ _ _ _ hvol hvol' hlt hheap hstack
      hfblocks p hp
    obtain ⟨v', hv', hdir⟩ := image_restored hz hD hbuf hcopy hsame hbuf'
    exact ⟨v', (returns_imageXfs hvol'.checkit hp').mpr
      ⟨hrefused, hname, params, hparams, hv'⟩, hdir⟩

end Image

/-! ## A small volume -/

/-- The groups of `sampleDevice`, with the number of free blocks in the superblock. -/
def countedDevice : Device := fun o => if o = 151 then some 20 else sampleDevice 16 2 o

theorem xfsVolume_countedDevice :
    XfsVolume countedDevice 32 16 (List.replicate 2 sampleGroup) := by
  have hsample : XfsVolume (sampleDevice 16 2) 32 16 (List.replicate 2 sampleGroup) :=
    xfsVolume_sampleDevice (by decide) (by decide +kernel) (by decide +kernel) (by decide +kernel)
      (by decide +kernel) (by decide +kernel)
  have hsame : ∀ lo hi, 512 ≤ lo → SameBytes (sampleDevice 16 2) countedDevice lo hi :=
    fun lo hi hlo o ho _ => if_neg (by omega)
  refine ⟨by decide +kernel, by decide +kernel, by decide +kernel, by decide +kernel,
    fun agno hagno => (hsample.group agno hagno).congr (hsame _ _ (by omega)) fun b hb => ?_⟩
  rw [List.getElem_replicate] at hb
  obtain rfl : b = 1 := hb
  exact hsame _ _ (by omega)

theorem metadataUsed_twoGroups : MetadataUsed 16 (List.replicate 2 sampleGroup) := by
  have hfree : ∀ {b}, FreeIn 16 (List.replicate 2 sampleGroup) b → 2 ≤ b % 16 := by
    rintro b ⟨agno, hagno, hb⟩
    rw [List.getElem_replicate] at hb
    have hlt := sampleGroup_free hb
    rcases hb with ⟨e, he, hlo, -⟩ | ⟨-, j, ⟨hj, hactive⟩, rfl⟩
    · obtain rfl := List.mem_singleton.mp he
      have : agno * 16 + 10 ≤ b := hlo
      omega
    · rw [if_neg (by decide)] at hactive
      have hactive : 126 ≤ j ∨ j ≤ 1 := hactive
      show 2 ≤ (agno * 16 + (j + 4) % 128) % 16
      omega
  refine ⟨by decide, fun agno _ h => ?_, fun agno hagno b hb h => ?_⟩
  · have := hfree h
    omega
  · rw [List.getElem_replicate] at hb
    obtain rfl : b = 1 := hb
    have := hfree h
    omega

/-- A volume of two groups is restored behind a partition table. -/
theorem imageXfs_restored_twoGroups : ∃ (v : Volume) (names : List Bytes) (st : RestoreState),
    Returns (fun fuel => restore storedZlib.inflate fuel v.dir.fetch Memory.zero
      (openTarget (fun _ => Sector.fill 7) (endsAt 319)) 63 []) (names, st) ∧
    XfsVolume (Device.ofSectors (sectorsAt st.fo.cells 63 256)) 32 16 (List.replicate 2 sampleGroup) ∧
    ∃ v', Returns (fun fuel => imageXfs storedZlib fuel usualLimits zeroBuffers [] none
      (sectorsAt st.fo.cells 63 256) zeros Dir.empty) v' ∧ v'.dir = v.dir := by
  have hsome : ∀ o < 512 * 256, (countedDevice o).isSome := by
    intro o ho
    unfold countedDevice sampleDevice xfsSample
    dsimp only
    split_ifs <;> first | rfl | omega
  have hsame := sameBytes_sectorsOf hsome
  obtain ⟨hvol, -⟩ := xfsVolume_countedDevice.congr metadataUsed_twoGroups
    fun b hb _ => hsame.mono (by omega) (by omega)
  -- the scan counts as many sectors as the superblock says
  obtain ⟨p, hp, hbitmap⟩ := @XfsInput.returns_readsb ⟨usualLimits, countedDevice, zeroBuffers⟩
    ⟨by decide +kernel, by decide +kernel⟩ (by decide +kernel) fun i hi => by
      rw [XfsInput.groupInside_iff]
      exact ⟨⟨.inr ⟨by revert i; decide +kernel, by revert i; decide +kernel⟩,
        XfsInput.fitsStack_of_leaf (by revert i; decide +kernel) (by decide)⟩,
        by revert i; decide +kernel⟩
  obtain ⟨hverify, hlen⟩ := @XfsInput.readsb_verify ⟨usualLimits, countedDevice, zeroBuffers⟩ _ _ _
    xfsVolume_countedDevice p hp
  have hrefused : p.refused = false := by
    rw [hverify, hbitmap]
    decide +kernel
  have hfits : p.bitmap.length + 22015 < 2 ^ 32 ∧ p.nbSect < 2 ^ 64 := by
    constructor
    · rw [hlen]
      decide +kernel
    · rw [hverify]
      exact Nat.mod_lt _ (by decide)
  have hparams : paramsOf p.bitmap p.nbSect = some ⟨p.bitmap, p.nbSect, hfits.1, hfits.2⟩ :=
    dif_pos hfits
  have hp' := @XfsInput.readsb_congr ⟨usualLimits, countedDevice, zeroBuffers⟩
    ⟨usualLimits, Device.ofSectors (sectorsOf countedDevice 256), zeroBuffers⟩ _ _ _
    xfsVolume_countedDevice hvol (by decide) le_rfl le_rfl (by
      apply beVal_congr
      intro k hk
      exact congrArg (·.getD 0) (hsame (144 + k) (by omega) (by omega))) p hp
  obtain ⟨v, hv, -⟩ := compressVolume_files storedZlib_contract
    (d := openSource (sectorsOf countedDevice 256) fun _ => false) (fun _ => rfl) [] .xfs _
    length_zeros Dir.empty
  obtain ⟨names, st, hst, -, -, hvol', hagain⟩ := imageXfs_restored storedZlib_contract hvol
    metadataUsed_twoGroups (by decide) (by unfold sectorsOf; decide +kernel) length_zeros
    ((returns_imageXfs hvol.checkit hp').mpr ⟨hrefused, by decide, _, hparams, hv⟩) Memory.zero
    (fun _ => Sector.fill 7) (n := 319) (s := 63) (L := 256) (by decide) (by decide)
  exact ⟨v, names, st, hst, hvol', hagain usualLimits zeroBuffers zeros le_rfl le_rfl length_zeros⟩

end LinboxRescue
