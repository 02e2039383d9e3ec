import LinboxRescue.Boot.NewGet

/-!
# The transfer of a chunk file

`serverPackets F` is what a TFTP server sends for the file `F`: one OACK, then blocks of 1456 bytes
with a shorter last one, which may be empty.

1. `Transfer F k`: the first `k` of these packets were accepted, so the bytes received are a prefix
   of `F`. `receive_server`: of all packets of the server only the next one is accepted, any other
   makes `new_get` start again.
2. `Pooled`: the bytes received are those moved out of the pool followed by those linked in it, and
   until the last block came no linked buffer is empty, which is how `get_empty` tells the free ones.
   Receiving a block and refilling `compressed` keep this (`receive_server`, `refill_spec`).
-/

namespace LinboxRescue

/-! ## The server -/

/-- Block `n` of a file, counted from 1. -/
def fileBlock (F : Bytes) (n : ℕ) : Bytes := (F.drop (1456 * (n - 1))).take 1456

/-- The number of blocks; the last one is shorter than the others. -/
def blockCount (F : Bytes) : ℕ := F.length / 1456 + 1

def dataPacket (F : Bytes) (n : ℕ) : Bytes :=
  [0, 3, UInt8.ofNat (n / 256), UInt8.ofNat (n % 256)] ++ fileBlock F n

def oackPacket (F : Bytes) : Bytes :=
  [0, 6] ++ ascii "tsize" ++ [0] ++ dec F.length ++ [0] ++ ascii "blksize" ++ [0] ++ ascii "1456" ++ [0]

/-- What the server sends for the file `F`. -/
def serverPackets (F : Bytes) : List Bytes :=
  oackPacket F :: (List.range (blockCount F)).map fun n => dataPacket F (n + 1)

theorem length_serverPackets (F : Bytes) : (serverPackets F).length = blockCount F + 1 := by
  simp [serverPackets]

theorem getElem?_serverPackets_succ {F : Bytes} {j : ℕ} {b : Bytes}
    (h : (serverPackets F)[j + 1]? = some b) : j < blockCount F ∧ b = dataPacket F (j + 1) := by
  rw [serverPackets, List.getElem?_cons_succ, List.getElem?_map] at h
  obtain ⟨n, hn, rfl⟩ := Option.map_eq_some_iff.mp h
  obtain ⟨hlt, hget⟩ := List.getElem?_eq_some_iff.mp hn
  rw [List.getElem_range] at hget
  rw [List.length_range] at hlt
  exact ⟨hlt, by rw [hget]⟩

/-! ## The pool -/

/-- The bytes received are those moved on and those in the pool. While more blocks are to come no
linked buffer is empty, and all but the first hold a whole block. -/
structure PooledAs (n : NetSide) (q : List (Fin 10)) : Prop where
  chain : n.pool.Chain q
  received : n.received = n.moved ++ n.pool.dataOf q
  solid : n.tftpend = false → ∀ i ∈ q, (n.pool.slot i).data ≠ []
  whole : n.tftpend = false → ∀ i ∈ q.tail, (n.pool.slot i).data.length = 1456

def Pooled (n : NetSide) : Prop := ∃ q, PooledAs n q

theorem PooledAs.contents {n : NetSide} {q : List (Fin 10)} (h : PooledAs n q) :
    n.pool.contents = n.pool.dataOf q :=
  h.chain.dataFrom (by simpa using h.chain.length_le)

/-- Nothing received is lost, doubled or out of order. -/
theorem Pooled.received {n : NetSide} (h : Pooled n) : n.received = n.moved ++ n.pool.contents := by
  obtain ⟨q, hq⟩ := h
  rw [hq.contents]
  exact hq.received

theorem getEmpty_some {p : Pool} {i : Fin 10} (h : getEmpty p = some i) : (p.slot i).data = [] := by
  have h1 := List.find?_some h
  simpa using h1

theorem getEmpty_none {p : Pool} (h : getEmpty p = none) (i : Fin 10) : (p.slot i).data ≠ [] := by
  have h1 := List.find?_eq_none.mp h i (List.mem_finRange i)
  simpa using h1

theorem le_length_dataOf {p : Pool} {n : ℕ} {q : List (Fin 10)}
    (h : ∀ i ∈ q, (p.slot i).data.length = n) : (p.dataOf q).length = n * q.length := by
  induction q with
  | nil => rfl
  | cons i q ih =>
    rw [List.forall_mem_cons] at h
    rw [LinkedQueue.dataOf_cons, List.length_append, h.1, ih h.2, List.length_cons]
    ring

/-- A full pool has enough for `compressed`. -/
theorem Pooled.of_full {n : NetSide} (h : Pooled n) (hend : n.tftpend = false)
    (hfull : getEmpty n.pool = none) : 8192 ≤ n.pool.contents.length := by
  obtain ⟨q, hq⟩ := h
  have hall : ∀ i, i ∈ q := by
    intro i
    by_contra hi
    have := hq.chain.free i hi
    exact getEmpty_none hfull i (by rw [this])
  have hlen : q.length = 10 := by
    have h1 := List.toFinset_card_of_nodup hq.chain.nodup
    rw [Finset.eq_univ_of_forall fun i => List.mem_toFinset.mpr (hall i), Finset.card_fin] at h1
    exact h1.symm
  rw [hq.contents]
  obtain ⟨i, q', rfl⟩ := List.exists_cons_of_length_eq_add_one hlen
  have htail := le_length_dataOf (hq.whole hend)
  rw [List.tail_cons] at htail
  rw [List.length_cons] at hlen
  rw [LinkedQueue.dataOf_cons, List.length_append, htail]
  omega

/-- A block is appended. -/
theorem PooledAs.push {n : NetSide} {q : List (Fin 10)} (h : PooledAs n q) (hend : n.tftpend = false)
    {i : Fin 10} (hi : (n.pool.slot i).data = []) {n' : NetSide} {data : Bytes}
    (hpool : n'.pool = n.pool.push i data) (hrec : n'.received = n.received ++ data)
    (hmov : n'.moved = n.moved) (hdata : n'.tftpend = false → data.length = 1456) :
    PooledAs n' (q ++ [i]) := by
  have hnot : i ∉ q := LinkedQueue.Chain.not_mem (h.solid hend) hi
  obtain ⟨hkeep, hself, -⟩ := h.chain.push_slot hnot data
  refine ⟨by rw [hpool]; exact h.chain.push hnot data, ?_, fun he j hj => ?_, fun he j hj => ?_⟩
  · rw [hrec, hmov, hpool, h.chain.dataOf_push hnot, h.received, List.append_assoc]
  · rw [hpool]
    rcases List.mem_append.mp hj with hj | hj
    · rw [hkeep j hj]; exact h.solid hend j hj
    · rw [List.mem_singleton.mp hj, hself]
      intro hnil
      have := hdata he
      rw [show data = [] from hnil] at this
      simp at this
  · rw [hpool]
    cases q with
    | nil => simp at hj
    | cons l q =>
      rw [List.cons_append, List.tail_cons] at hj
      rcases List.mem_append.mp hj with hj | hj
      · rw [hkeep j (List.mem_cons_of_mem l hj)]; exact h.whole hend j hj
      · rw [List.mem_singleton.mp hj, hself]; exact hdata he

/-- Bytes are moved on. -/
theorem Pooled.move {n : NetSide} (h : Pooled n) {k : ℕ} (hk : k ≤ n.pool.contents.length) :
    (LinkedQueue.takeFront 11 k n.pool).1.length = k ∧
      Pooled { n with pool := (LinkedQueue.takeFront 11 k n.pool).2
                      moved := n.moved ++ (LinkedQueue.takeFront 11 k n.pool).1 } := by
  obtain ⟨q, hq⟩ := h
  rw [hq.contents] at hk
  have hlen : q.length ≤ 10 := by simpa using hq.chain.length_le
  obtain ⟨q', hrest, htake, hdrop⟩ := hq.chain.takeFront 11 (by omega) hk
  refine ⟨by rw [htake, List.length_take]; omega, q', hrest.chain, ?_, fun he => hrest.solid (hq.solid he),
    fun he i hi => ?_⟩
  · show n.received = n.moved ++ _ ++ _
    rw [htake, hdrop, hq.received, List.append_assoc, List.take_append_drop]
  · -- what was behind the first buffer still is behind the first buffer
    show ((LinkedQueue.takeFront 11 k n.pool).2.slot i).data.length = _
    rw [hrest.keep i hi]
    refine hq.whole he i ?_
    obtain ⟨pre, hpre⟩ := hrest.suffix
    cases hq' : q' with
    | nil => rw [hq'] at hi; cases hi
    | cons l t =>
      rw [hq', List.tail_cons] at hi
      rw [← hpre, hq']
      cases pre with
      | nil => exact hi
      | cons a pre => exact List.mem_append_right _ (List.mem_cons_of_mem l hi)

section States

variable {m : ZMachine} {st : GetState m}

/-- There is enough in the pool and room in `compressed`. -/
def GetState.Due (st : GetState m) : Prop :=
  (8192 ≤ st.net.pool.contents.length ∨ (st.net.tftpend = true ∧ 0 < st.net.pool.contents.length)) ∧
    st.zip.compressedFull = false

/-- **Refilling `compressed`** takes bytes off the front of the pool. -/
theorem refill_spec (h : Pooled st.net) :
    (¬ st.Due ∧ st.refill = st) ∨
    (st.Due ∧ ∃ pool bs, bs ≠ [] ∧
      st.refill = { st with net := { st.net with pool, moved := st.net.moved ++ bs }
                            zip := { st.zip with compressed := bs, compressedFull := true } } ∧
      Pooled { st.net with pool, moved := st.net.moved ++ bs }) := by
  obtain ⟨q, hq⟩ := id h
  have hlen : q.length ≤ 10 := by simpa using hq.chain.length_le
  unfold GetState.refill GetState.Due
  cases hfirst : st.net.pool.first with
  | none =>
    have hnil : st.net.pool.contents = [] := by rw [Pool.contents, hfirst]; rfl
    exact .inl ⟨by rw [hnil]; simp, rfl⟩
  | some i =>
    have hlg : totLg st.net.pool i = st.net.pool.contents.length := by
      rw [hq.contents, totLg, hq.chain.totalFrom hfirst (by omega)]
    simp only [hlg]
    by_cases hc : 8192 ≤ st.net.pool.contents.length ∨
        (st.net.tftpend = true ∧ 0 < st.net.pool.contents.length)
    · rw [if_pos hc]
      by_cases hf : st.zip.compressedFull = true
      · rw [if_pos hf]
        exact .inl ⟨fun h => Bool.eq_false_iff.mp h.2 hf, rfl⟩
      · rw [if_neg hf]
        obtain ⟨k, hkdef⟩ : ∃ k, k = min (if st.net.tftpend = true then st.net.pool.contents.length
          else 8192) 8192 := ⟨_, rfl⟩
        have hk : k ≤ st.net.pool.contents.length ∧ 0 < k := by
          rw [hkdef]; split_ifs with he
          · omega
          · rcases hc with hc | ⟨he', -⟩
            · omega
            · exact absurd he' he
        obtain ⟨h1, h2⟩ := h.move hk.1
        refine .inr ⟨⟨hc, Bool.eq_false_iff.mpr hf⟩, _, _, ?_, by rw [← hkdef]; rfl, h2⟩
        intro hnil
        rw [hnil] at h1
        simp at h1
        omega
    · rw [if_neg hc]
      exact .inl ⟨fun h => hc h.1, rfl⟩

/-! ## Receiving -/

/-- The first `k` packets of the server were accepted. -/
structure Transfer (F : Bytes) (k : ℕ) (n : NetSide) : Prop where
  le : k ≤ blockCount F + 1
  lastblk : n.lastblk = (k : ℤ) - 1
  received : n.received = F.take (1456 * (k - 1))
  tftpend : n.tftpend = decide (k = blockCount F + 1)

variable {F : Bytes} {k : ℕ}

theorem Transfer.prefix (h : Transfer F k st.net) : st.net.received <+: F := by
  rw [h.received]; exact List.take_prefix _ _

/-- The last block is the only short one. -/
theorem length_fileBlock {n : ℕ} (hn : n < blockCount F) :
    (fileBlock F (n + 1)).length < 1456 ↔ n + 1 = blockCount F := by
  unfold blockCount at hn ⊢
  unfold fileBlock
  rw [List.length_take, List.length_drop, Nat.add_sub_cancel]
  omega

/-- **Receiving a packet of the server**: the next one is accepted, after any other the transfer
starts again. -/
theorem receive_server (hF : F.length < 1456 * 65535) (ht : Transfer F k st.net) (hp : Pooled st.net)
    (hend : st.net.tftpend = false) {i : Fin 10} (hi : getEmpty st.net.pool = some i) {j : ℕ} {b : Bytes}
    (hb : (serverPackets F)[j]? = some b) :
    (j = k ∧ ∃ n, st.receive i b = .next { st with net := n } ∧ Transfer F (k + 1) n ∧ Pooled n ∧
      n.timeout = 0 ∧ n.got = st.net.got + 1 ∧ n.idle = 0 ∧ n.polls = st.net.polls ∧
      n.moved = st.net.moved) ∨
    (j ≠ k ∧ ∃ why, st.receive i b = .restart why st.dsk) := by
  obtain ⟨q, hq⟩ := hp
  have hempty := getEmpty_some hi
  have hk : k ≠ blockCount F + 1 := by
    have := ht.tftpend
    rw [hend] at this
    exact of_decide_eq_false this.symm
  have hle := ht.le
  have hlast := ht.lastblk
  cases j with
  | zero =>
    obtain rfl : oackPacket F = b := Option.some.inj hb
    have hop : ((oackPacket F).getD 1 0).toNat + 256 * ((oackPacket F).getD 0 0).toNat = 6 := rfl
    unfold GetState.receive
    simp only [hop, reduceIte]
    by_cases hk0 : k = 0
    · rw [if_neg (by rw [hlast, hk0]; simp)]
      refine .inl ⟨hk0.symm, _, rfl, ⟨by omega, by rw [hk0]; rfl, ?_, ?_⟩,
        ⟨q, hq.chain, hq.received, hq.solid, hq.whole⟩, rfl, rfl, rfl, rfl, rfl⟩
      · show st.net.received = _
        rw [ht.received, hk0]
      · show st.net.tftpend = _
        rw [hend, hk0]
        exact (decide_eq_false (by unfold blockCount; omega)).symm
    · rw [if_pos (by rw [hlast]; omega)]
      exact .inr ⟨fun e => hk0 e.symm, _, rfl⟩
  | succ j =>
    obtain ⟨hj, rfl⟩ := getElem?_serverPackets_succ hb
    have hj' : j + 1 ≤ 65535 := by unfold blockCount at hj; omega
    have hblock : ((dataPacket F (j + 1)).getD 3 0).toNat + 256 * ((dataPacket F (j + 1)).getD 2 0).toNat =
        j + 1 := by
      show (UInt8.ofNat ((j + 1) % 256)).toNat + 256 * (UInt8.ofNat ((j + 1) / 256)).toNat = j + 1
      rw [UInt8.toNat_ofNat', UInt8.toNat_ofNat']
      omega
    have hop : ((dataPacket F (j + 1)).getD 1 0).toNat + 256 * ((dataPacket F (j + 1)).getD 0 0).toNat = 3 :=
      rfl
    have hdrop : (dataPacket F (j + 1)).drop 4 = fileBlock F (j + 1) := rfl
    have hlen4 : (dataPacket F (j + 1)).length - 4 = (fileBlock F (j + 1)).length := by
      simp [dataPacket]
    have htake : (fileBlock F (j + 1)).take 1456 = fileBlock F (j + 1) :=
      List.take_of_length_le (List.length_take_le _ _)
    unfold GetState.receive
    simp only [hop, hblock, hdrop, hlen4, htake]
    rw [if_neg (by omega), if_pos trivial]
    by_cases hjk : j + 1 = k
    · subst hjk
      rw [if_neg (by rw [hlast]; push_cast; omega), if_neg (by rw [hlast]; push_cast; omega)]
      refine .inl ⟨rfl, _, rfl, ⟨by omega, by push_cast; ring, ?_, ?_⟩, ⟨q ++ [i], ?_⟩, rfl, rfl, rfl, rfl,
        rfl⟩
      · show st.net.received ++ fileBlock F (j + 1) = _
        rw [ht.received, fileBlock, Nat.add_sub_cancel, Nat.add_sub_cancel, Nat.mul_succ, List.take_add]
      · exact decide_eq_decide.mpr ((length_fileBlock hj).trans (by omega))
      · refine hq.push hend hempty rfl rfl rfl fun he => ?_
        have hshort := of_decide_eq_false he
        have := List.length_take_le 1456 (F.drop (1456 * (j + 1 - 1)))
        unfold fileBlock at hshort ⊢
        omega
    · refine .inr ⟨hjk, ?_⟩
      split_ifs with h1 h2
      · exact ⟨_, rfl⟩
      · exact ⟨_, rfl⟩
      · exfalso
        rw [hlast, not_not] at h2
        omega

end States

end LinboxRescue
