import LinboxRescue.Image.CompressSpec
import LinboxRescue.Image.RestoreSpec

/-!
# The files of an image

`ImageFiles` says what `restore` asks of the files of an image: file `i` holds chunk `i`, the first
chunk tells how many there are, and every chunk how long its table is. Any other files may lie beside
them.

1. `compressVolume_files`: `compress_volume` makes such files, whatever the directory holds.
2. `restore_files`: `restore` writes the sectors of the chunks at the set bits of their tables.
-/

namespace LinboxRescue

/-- The chunks `cs` are in the files of the image `name`. -/
structure ImageFiles (z : Zlib) (dir : Dir) (name : Bytes) (cs : List Chunk) : Prop where
  holds : Holds z dir name 0 cs
  blocks : ∀ (j : ℕ) (c : Chunk), cs[j]? = some c →
    headerInt (ascii "BLOCKS=") c.header = if j = 0 then some (cs.length : ℤ) else none
  alloc : ∀ c ∈ cs, headerInt (ascii "ALLOCTABLELG=") c.header = some (c.slice.length : ℤ)

/-- Only the files of the chunks matter. -/
theorem ImageFiles.congr {z : Zlib} {dir dir' : Dir} {name : Bytes} {cs : List Chunk}
    (h : ImageFiles z dir name cs)
    (hdir : ∀ j < cs.length, dir' (chunkName name j) = dir (chunkName name j)) :
    ImageFiles z dir' name cs := by
  refine ⟨fun j c hj => ?_, h.blocks, h.alloc⟩
  obtain ⟨F, hF, hfile⟩ := h.holds j c hj
  have hlt : j < cs.length := (List.getElem?_eq_some_iff.mp hj).1
  refine ⟨F, ?_, hfile⟩
  rw [Nat.zero_add] at hF ⊢
  rw [hdir j hlt, hF]

section Files

variable {z : Zlib} (hz : z.Contract)

include hz in
/-- `compress_volume` makes the files of an image and changes no other file but the index. -/
theorem compressVolume_files {d : Source} (hseek : ∀ o, d.seekable o = true) (name : Bytes)
    (im : Imager) (p : Params) {buffer : Bytes} (hbuf : buffer.length = 24064) (dir : Dir) :
    ∃ v, Returns (fun fuel => compressVolume z fuel name none im p (d.seekTo 0) buffer dir) v ∧
      ImageFiles z v.dir name (volumeChunks d im p buffer) ∧
      ∀ f, f ≠ name ++ ascii "idx" → (∀ j < p.nb, f ≠ chunkName name j) → v.dir f = dir f := by
  obtain ⟨v, hret, hholds, hkeep⟩ := compressVolume_spec hz hseek name im p hbuf dir
  have hlen : (volumeChunks d im p buffer).length = p.nb := length_savedChunks _ _ _ _ _
  refine ⟨v, hret, ⟨hholds, fun j c hj => ?_, fun c hc => ?_⟩, hkeep⟩
  · rw [hlen]
    exact headerInt_blocks_volumeChunks hj
  · obtain ⟨j, hj⟩ := List.mem_iff_getElem?.mp hc
    exact headerInt_alloc_volumeChunks hj

include hz in
/-- **Restoring the files of an image** is one `scatter` over the bits of its tables. An image
without chunks has no file number 0 either. -/
theorem restore_files {dir : Dir} {name : Bytes} {cs : List Chunk} (h : ImageFiles z dir name cs)
    (hnone : cs = [] → dir (chunkName name 0) = none) (mem : Memory) {t : Target} (hoff : t.off = 0)
    {s : ℕ} (hr : Reaches t s (imageBits cs)) :
    ∃ st, Returns (fun fuel => restore z.inflate fuel dir.fetch mem t s name)
        (if cs = [] then [chunkName name 0] else (List.range cs.length).map (chunkName name), st) ∧
      st.fo.cells = (scatter t.bad (imageBits cs) (imageSectors cs) ⟨s, t.cells⟩).cells := by
  obtain ⟨q, hq, hqs⟩ : ∃ q, t.lseekSet (512 * s) = t.load ⟨q, t.cells⟩ ∧
      (ones s (imageBits cs) ≠ [] → q = s) := by
    by_cases hs : t.seekable (512 * s) = true
    · exact ⟨s, by rw [Target.lseekSet, if_pos hs]; rfl, fun _ => rfl⟩
    · refine ⟨0, ?_, fun hne => ?_⟩
      · rw [Target.lseekSet, if_neg hs, Target.load]
        show t = ⟨t.cells, t.bad, t.seekable, 0⟩
        rw [← hoff]
      · obtain ⟨i, hi⟩ := List.exists_mem_of_ne_nil _ hne
        exact absurd (hr i hi _ (Nat.mul_le_mul_left _ (le_of_mem_ones hi))) hs
  by_cases hcs : cs = []
  · have hfetch : dir.fetch (chunkName name 0) 0 = none := hnone hcs
    refine ⟨{ firstpass := true, fmax := -1, bitmaplg := 0, bitmap := mem.bitmap, bitindex := 0
              buffer := mem.buffer, fo := t.lseekSet (512 * s) }, Returns.last fun fuel => ?_, ?_⟩
    · rw [restore, restoreLoop, if_pos hcs]
      simp only [hfetch, List.nil_append]
    · subst hcs
      show (t.lseekSet (512 * s)).cells = t.cells
      rw [hq]; rfl
  · have hserved : ∀ j c, cs[j]? = some c →
        Served z.inflate dir.fetch name cs.length (0 + j) c := by
      intro j c hj
      obtain ⟨F, hF, hfile⟩ := h.holds j c hj
      rw [Nat.zero_add] at hF ⊢
      exact ⟨⟨F, hF, hfile.decodes hz⟩, h.blocks j c hj, h.alloc c (List.mem_of_getElem? hj)⟩
    obtain ⟨st, hret, hcells⟩ := @restoreLoop_spec t z.inflate dir.fetch name cs.length cs 0
      ⟨q, t.cells⟩
      { firstpass := true, fmax := -1, bitmaplg := 0, bitmap := mem.bitmap, bitindex := 0
        buffer := mem.buffer, fo := t.lseekSet (512 * s) } [] hcs hserved (by omega)
      (fun h => absurd rfl h) hq mem.length_buffer (hr.congr hqs)
    refine ⟨st, ?_, ?_⟩
    · rw [List.nil_append, ← List.range_eq_range'] at hret
      rw [if_neg hcs]
      exact hret
    · rw [hcells]
      exact scatter_cells_congr (t := ⟨s, t.cells⟩) (length_imageSectors _) hqs

end Files

end LinboxRescue
