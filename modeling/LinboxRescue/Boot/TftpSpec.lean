import LinboxRescue.Boot.Tftp

/-!
# What `tftp_read` reads

1. `tftpget_spec`: in front of window `k` of the file `tftpget` fails or leaves that window in the
   buffer (`Tftp.Loaded`).
2. `TftpRead.Filling`: a call that has copied the bytes up to `f` and needs the next window.
   `TftpRead.Filling.step`: it goes on so, or returns what it should, unless `tftpget` fails.
3. `tftpRead_plain`: the reads are those of a file as long as none goes back to a window that has
   passed, except to the start, and none leaves a gap behind the window.
4. `tftpRead_recovers`: failures do no harm in a call that has not copied a byte and starts in the
   first window or at its end.
-/

namespace LinboxRescue

/-! ## Windows -/

/-- The stream stands in front of window `k`. -/
structure Tftp.Ready (file : Bytes) (k : ℕ) (t : Tftp) : Prop where
  inFile : 30720 * k ≤ file.length
  endoffile : t.endoffile = false
  nextpacket : t.nextpacket = 60 * k

/-- Window `k` is in the buffer. -/
structure Tftp.Loaded (file : Bytes) (k : ℕ) (t : Tftp) : Prop where
  inFile : 30720 * k ≤ file.length
  basepos : t.basepos = 30720 * k
  bufferend : t.bufferend = min 30720 ((file.length : ℤ) - 30720 * k)
  endoffile : t.endoffile = decide (file.length < 30720 * (k + 1))
  nextpacket : t.endoffile = false → t.nextpacket = 60 * (k + 1)
  mem : ∀ j : ℕ, (j : ℤ) < t.bufferend → t.mem j = byteAt file (30720 * k + j)

section Get

variable {file : Bytes} {t : Tftp} {k n siz : ℕ} {first : Bool} {len : ℤ} {arrivals : List Arrival}

theorem toUlong_of_range {n : ℤ} (h1 : 0 ≤ n) (h2 : n < 2 ^ 32) : toUlong n = n :=
    Int.emod_eq_of_lt h1 h2

theorem byteAt_storeAt (mem : ℤ → UInt8) (i : ℕ) (data : Bytes) (j : ℕ) :
    storeAt mem i data j = if i ≤ j ∧ j < i + data.length then byteAt data (j - i) else mem j := by
  unfold storeAt
  have hsub : ((j : ℤ) - i).toNat = j - i := by omega
  rw [hsub]
  norm_cast

theorem length_tftpBlock (file : Bytes) (n : ℕ) :
    (tftpBlock file n).length = min 512 (file.length - 512 * (n - 1)) := by
  unfold tftpBlock
  rw [List.length_take, List.length_drop]

theorem byteAt_tftpBlock {j : ℕ} (h : j < (tftpBlock file (n + 1)).length) :
    byteAt (tftpBlock file (n + 1)) j = byteAt file (512 * n + j) := by
  have hlt : j < 512 := by
    rw [length_tftpBlock] at h
    omega
  unfold byteAt tftpBlock
  rw [List.getD_eq_getElem?_getD, List.getD_eq_getElem?_getD, List.getElem?_take_of_lt hlt,
    List.getElem?_drop, Nat.add_sub_cancel]

/-- The number in a packet. -/
theorem number_tftpData {m : ℕ} (h : m < 65536) (data : Bytes) :
    256 * (byteAt (tftpData m data) 2).toNat + (byteAt (tftpData m data) 3).toNat = m := by
  show 256 * (UInt8.ofNat (m / 256)).toNat + (UInt8.ofNat (m % 256)).toNat = m
  rw [UInt8.toNat_ofNat', UInt8.toNat_ofNat']
  omega

theorem isData_tftpData (m : ℕ) (data : Bytes) :
    ¬ (byteAt (tftpData m data) 0 ≠ 0 ∨ byteAt (tftpData m data) 1 ≠ 3) :=
  fun h => h.elim (fun h => h rfl) fun h => h rfl

/-- What is stored with block `nextpacket + 1`. -/
def Tftp.accept (file : Bytes) (t : Tftp) (siz : ℕ) (first : Bool) : Tftp :=
  { t with
    nextpacket := t.nextpacket + 1
    mem := storeAt t.mem siz (tftpBlock file (t.nextpacket + 1))
    basepos := if first then 512 * t.nextpacket else t.basepos }

/-- The next block comes. -/
theorem tftpget_next (hin : 512 * t.nextpacket ≤ file.length) (hnum : t.nextpacket < 65535)
    (hlen : 0 < len) :
    tftpget file (.next :: arrivals) t siz first len =
      if file.length < 512 * (t.nextpacket + 1) then
        ((siz : ℤ) + (file.length - 512 * t.nextpacket), { t.accept file siz first with endoffile := true })
      else tftpget file arrivals (t.accept file siz first) (siz + 512) false (len - 512) := by
  have hdata : ((tftpData (t.nextpacket + 1) (tftpBlock file (t.nextpacket + 1))).drop 4).take 512 =
      tftpBlock file (t.nextpacket + 1) := by
    show (tftpBlock file (t.nextpacket + 1)).take 512 = _
    rw [List.take_of_length_le]
    rw [length_tftpBlock]
    exact Nat.min_le_left _ _
  have hbase : toUlong (512 * ((t.nextpacket + 1 : ℕ) - 1 : ℤ)) = 512 * t.nextpacket := by
    rw [toUlong_of_range] <;> push_cast <;> omega
  have hblock := length_tftpBlock file (t.nextpacket + 1)
  rw [Nat.add_sub_cancel] at hblock
  rw [tftpget, if_neg (not_le.mpr hlen)]
  simp only [Arrival.packet, if_pos hin]
  rw [if_neg (isData_tftpData _ _), number_tftpData (by omega), if_neg (by omega), if_neg (by simp),
    hdata, hbase]
  by_cases heof : file.length < 512 * (t.nextpacket + 1)
  · rw [if_pos heof, if_pos (by omega), hblock, Nat.min_eq_right (by omega)]
    push_cast [Nat.cast_sub hin]
    rfl
  · rw [if_neg heof, if_neg (by omega), hblock, Nat.min_eq_left (by omega)]
    rfl

/-- A duplicate changes nothing. -/
theorem tftpget_again (hnum : t.nextpacket < 65536) (hlen : 0 < len) :
    tftpget file (.again :: arrivals) t siz first len = tftpget file arrivals t siz first len := by
  rw [tftpget, if_neg (not_le.mpr hlen)]
  simp only [Arrival.packet]
  rw [if_neg (isData_tftpData _ _), number_tftpData hnum, if_pos rfl]

theorem tftpget_other {packet : Bytes} {h : ¬ IsData packet} (hlen : 0 < len) :
    tftpget file (.other packet h :: arrivals) t siz first len = (-1, t) := by
  rw [tftpget, if_neg (not_le.mpr hlen)]
  simp only [Arrival.packet]
  exact if_pos (not_and_or.mp h)

theorem tftpget_stray {i : Fin 65534} {data : Bytes} (hlen : 0 < len) :
    tftpget file (.stray i data :: arrivals) t siz first len = (-1, t) := by
  have hlt : (t.nextpacket + 2 + i) % 65536 < 65536 := Nat.mod_lt _ (by decide)
  rw [tftpget, if_neg (not_le.mpr hlen)]
  simp only [Arrival.packet]
  rw [if_neg (isData_tftpData _ _), number_tftpData hlt, if_neg (by omega), if_pos (by omega)]

theorem tftpget_done (hlen : len ≤ 0) : tftpget file arrivals t siz first len = ((siz : ℤ), t) := by
  cases arrivals with
  | nil => exact if_pos hlen
  | cons a arrivals => exact if_pos hlen

/-- `j` blocks of window `k` have been read. -/
structure Tftp.Partial (file : Bytes) (k j : ℕ) (first : Bool) (t : Tftp) : Prop where
  le : j ≤ 60
  inFile : 512 * (60 * k + j) ≤ file.length
  endoffile : t.endoffile = false
  nextpacket : t.nextpacket = 60 * k + j
  first : first = decide (j = 0)
  basepos : 0 < j → t.basepos = 30720 * k
  mem : ∀ i < 512 * j, t.mem i = byteAt file (30720 * k + i)

theorem Tftp.Ready.partial (h : t.Ready file k) : t.Partial file k 0 true where
  le := Nat.zero_le _
  inFile := by have := h.inFile; omega
  endoffile := h.endoffile
  nextpacket := h.nextpacket
  first := rfl
  basepos h := absurd h (Nat.lt_irrefl 0)
  mem i hi := absurd hi (by omega)

section Partial

variable {j : ℕ}

theorem Tftp.Partial.accept_basepos (siz : ℕ) (h : t.Partial file k j first) :
    (t.accept file siz first).basepos = 30720 * k := by
  show (if first then 512 * (t.nextpacket : ℤ) else t.basepos) = _
  rw [h.first, h.nextpacket]
  rcases Nat.eq_zero_or_pos j with rfl | hj
  · rw [decide_eq_true rfl, if_pos rfl]
    push_cast
    ring
  · rw [decide_eq_false (by omega), if_neg Bool.false_ne_true]
    exact h.basepos hj

/-- The memory behind the next block. -/
theorem Tftp.Partial.accept_mem (h : t.Partial file k j first) {i : ℕ}
    (hi : i < 512 * j + (tftpBlock file (t.nextpacket + 1)).length) :
    (t.accept file (512 * j) first).mem i = byteAt file (30720 * k + i) := by
  show storeAt t.mem (512 * j : ℕ) (tftpBlock file (t.nextpacket + 1)) i = _
  rw [byteAt_storeAt]
  by_cases hlt : i < 512 * j
  · rw [if_neg (by omega)]
    exact h.mem i hlt
  · rw [if_pos ⟨by omega, hi⟩, byteAt_tftpBlock (by omega), h.nextpacket]
    congr 1
    omega

theorem Tftp.Partial.next (h : t.Partial file k j first) (hlt : j < 60)
    (hin : 512 * (t.nextpacket + 1) ≤ file.length) :
    (t.accept file (512 * j) first).Partial file k (j + 1) false where
  le := hlt
  inFile := by rw [h.nextpacket] at hin; omega
  endoffile := h.endoffile
  nextpacket := by
    show t.nextpacket + 1 = _
    rw [h.nextpacket, Nat.add_assoc]
  first := (decide_eq_false (Nat.succ_ne_zero j)).symm
  basepos _ := Tftp.Partial.accept_basepos _ h
  mem i hi := h.accept_mem (by
    rw [length_tftpBlock, Nat.add_sub_cancel]
    omega)

/-- Sixty blocks are a window. -/
theorem Tftp.Partial.full (h : t.Partial file k j first) (hj : j = 60) :
    ({ t with bufferend := 30720 } : Tftp).Loaded file k := by
  subst hj
  have hin := h.inFile
  exact {
    inFile := by omega
    basepos := h.basepos (by decide)
    bufferend := by
      show (30720 : ℤ) = _
      omega
    endoffile := by
      show t.endoffile = _
      rw [h.endoffile, decide_eq_false (by omega)]
    nextpacket := fun _ => by
      show t.nextpacket = _
      rw [h.nextpacket, Nat.mul_succ]
    mem := fun i hi => h.mem i (by
      have hi' : (i : ℤ) < 30720 := hi
      omega) }

/-- The last block ends the last window. -/
theorem Tftp.Partial.last (h : t.Partial file k j first) (hlt : j < 60)
    (hin : file.length < 512 * (t.nextpacket + 1)) :
    ({ t.accept file (512 * j) first with
      endoffile := true
      bufferend := (512 * j : ℤ) + (file.length - 512 * t.nextpacket) } : Tftp).Loaded file k := by
  have hle := h.inFile
  have hnext := h.nextpacket
  exact {
    inFile := by omega
    basepos := Tftp.Partial.accept_basepos (512 * j) h
    bufferend := by
      show (512 * j : ℤ) + _ = _
      omega
    endoffile := (decide_eq_true (by omega)).symm
    nextpacket := fun heof => absurd heof Bool.true_eq_false_eq_False
    mem := fun i hi => h.accept_mem (by
      have hi' : (i : ℤ) < 512 * j + (file.length - 512 * t.nextpacket) := hi
      rw [length_tftpBlock]
      omega) }

/-- What a call of `tftpget` that does not fail leaves. -/
def Got (file : Bytes) (k : ℕ) (t : Tftp) (r : ℤ × Tftp) : Prop :=
  ({ r.2 with bufferend := r.1 } : Tftp).Loaded file k ∧ r.2.savedpos = t.savedpos

theorem Tftp.Partial.get (hL : file.length < 65535 * 512) (arrivals : List Arrival) :
    ∀ {t : Tftp} {j : ℕ} {first : Bool}, t.Partial file k j first →
      (tftpget file arrivals t (512 * j) first (30720 - 512 * j)).1 = -1 ∨
        Got file k t (tftpget file arrivals t (512 * j) first (30720 - 512 * j)) := by
  have hfull : ∀ (as : List Arrival) {t : Tftp} {j : ℕ} {first : Bool}, t.Partial file k j first → j = 60 →
      Got file k t (tftpget file as t (512 * j) first (30720 - 512 * j)) := by
    intro as t j first h hj
    rw [tftpget_done (by omega)]
    refine ⟨?_, rfl⟩
    subst hj
    exact h.full rfl
  induction arrivals with
  | nil =>
    intro t j first h
    rcases Nat.lt_or_eq_of_le h.le with hlt | hj
    · rw [tftpget, if_neg (by omega)]
      exact .inl rfl
    · exact .inr (hfull _ h hj)
  | cons a arrivals ih =>
    intro t j first h
    rcases Nat.lt_or_eq_of_le h.le with hlt | hj
    · have hlen : 0 < (30720 : ℤ) - 512 * j := by omega
      have hle := h.inFile
      rw [← h.nextpacket] at hle
      cases a with
      | next =>
        rw [tftpget_next hle (by omega) hlen]
        by_cases hin : file.length < 512 * (t.nextpacket + 1)
        · rw [if_pos hin]
          refine .inr ⟨?_, rfl⟩
          have hlast := h.last hlt hin
          push_cast at hlast ⊢
          exact hlast
        · rw [if_neg hin, show 512 * j + 512 = 512 * (j + 1) from rfl,
            show (30720 : ℤ) - 512 * j - 512 = 30720 - 512 * (j + 1 : ℕ) by push_cast; ring]
          exact ih (h.next hlt (not_lt.mp hin))
      | again =>
        rw [tftpget_again (by omega) hlen]
        exact ih h
      | other packet hp =>
        rw [tftpget_other hlen]
        exact .inl rfl
      | stray i data =>
        rw [tftpget_stray hlen]
        exact .inl rfl
    · exact .inr (hfull _ h hj)

/-- **The next window** is in the buffer when `tftpget` does not fail. -/
theorem tftpget_spec (hL : file.length < 65535 * 512) (h : t.Ready file k) (arrivals : List Arrival) :
    (tftpget file arrivals t 0 true 30720).1 = -1 ∨
      Got file k t (tftpget file arrivals t 0 true 30720) :=
  h.partial.get hL arrivals

theorem Tftp.Partial.answers_ne (hL : file.length < 65535 * 512) (m : ℕ) :
    ∀ {t : Tftp} {j : ℕ} {first : Bool}, t.Partial file k j first → j + m = 60 →
      (tftpget file (List.replicate m .next) t (512 * j) first (30720 - 512 * j)).1 ≠ -1 := by
  induction m with
  | zero =>
    intro t j first _ hj
    rw [tftpget_done (by omega)]
    omega
  | succ m ih =>
    intro t j first h hj
    have hle := h.inFile
    rw [← h.nextpacket] at hle
    rw [List.replicate_succ, tftpget_next hle (by omega) (by omega)]
    by_cases hin : file.length < 512 * (t.nextpacket + 1)
    · rw [if_pos hin]
      push_cast
      omega
    · rw [if_neg hin, show 512 * j + 512 = 512 * (j + 1) from rfl,
        show (30720 : ℤ) - 512 * j - 512 = 30720 - 512 * (j + 1 : ℕ) by push_cast; ring]
      exact ih (h.next (by omega) (not_lt.mp hin)) (by omega)

/-- A server that answers makes no call fail. -/
theorem tftpget_answers (hL : file.length < 65535 * 512) (h : t.Ready file k) :
    (tftpget file answers t 0 true 30720).1 ≠ -1 :=
  h.partial.answers_ne hL 60 (Nat.zero_add 60)

end Partial

end Get

/-! ## Calls -/

/-- What has been copied, up to `f`, is right: the call is for `n` bytes from `s` on. -/
structure TftpRead.Copied (file : Bytes) (s n f : ℕ) (c : TftpRead) : Prop where
  savePos : c.savePos = s
  saveSize : c.saveSize = n
  savedpos : c.t.savedpos = s + n
  filepos : c.filepos = f
  start : s ≤ f
  stop : f ≤ s + n
  inFile : f ≤ file.length
  out : c.out = (file.drop s).take (f - s)
  size : c.size = (s + n : ℤ) - f
  len : c.len = (f : ℤ) - s

/-- The call needs window `k`. -/
structure TftpRead.Filling (file : Bytes) (s n k f : ℕ) (c : TftpRead) :
    Prop extends TftpRead.Copied file s n f c where
  place : c.place = .filling
  ready : c.t.Ready file k
  lower : 30720 * k ≤ f
  upper : f ≤ 30720 * (k + 1)
  begins : (f = 30720 * k ∧ f < s + n) ∨ (k = 0 ∧ f = s)
  asked : 0 < s + n

/-- What a call returns. At the end of a file of whole windows it returns 0, whatever it has copied. -/
def plainRet (file : Bytes) (s n : ℕ) : ℕ :=
  if s + n ≤ file.length then n else if 30720 ∣ file.length then 0 else file.length - s

/-- The call has returned what it should. -/
structure TftpRead.Done (file : Bytes) (s n : ℕ) (c : TftpRead) : Prop where
  place : c.place = .returned (plainRet file s n)
  filepos : c.filepos = (min (s + n) file.length : ℕ)
  out : c.out = (file.drop s).take n
  savedpos : c.t.savedpos = s + n
  loaded : ∃ k, c.t.Loaded file k ∧ 30720 * k ≤ min (s + n) file.length ∧
    min (s + n) file.length ≤ 30720 * (k + 1)

section Calls

variable {file : Bytes} {t : Tftp} {s n k f m : ℕ} {c : TftpRead}

theorem copyFrom_loaded (h : t.Loaded file k) (hk : 30720 * k ≤ f) (hm : f + m ≤ file.length)
    (hw : f + m ≤ 30720 * (k + 1)) :
    copyFrom t.mem ((f : ℤ) - 30720 * k) m = (file.drop f).take m := by
  have hlen : ((file.drop f).take m).length = m := by
    rw [List.length_take, List.length_drop]
    omega
  unfold copyFrom
  rw [Int.toNat_natCast]
  refine List.ext_getElem (by rw [List.length_map, List.length_range, hlen]) fun i hi _ => ?_
  rw [List.length_map, List.length_range] at hi
  have hend := h.bufferend
  have hmem := h.mem (f - 30720 * k + i) (by omega)
  rw [List.getElem_map, List.getElem_range, List.getElem_take, List.getElem_drop]
  have hidx : (f : ℤ) - 30720 * k + i = ((f - 30720 * k + i : ℕ) : ℤ) := by omega
  rw [hidx, hmem, show 30720 * k + (f - 30720 * k + i) = f + i by omega]
  unfold byteAt
  rw [List.getD_eq_getElem _ _ (by omega)]

theorem TftpRead.Copied.pos (hL : file.length < 65535 * 512) (h : c.Copied file s n f)
    (hl : c.t.Loaded file k)
    (hk : 30720 * k ≤ f) : wrapInt (c.filepos - c.t.basepos) = (f : ℤ) - 30720 * k := by
  have hf := h.inFile
  rw [h.filepos, hl.basepos]
  exact wrapInt_of_range (by omega) (by omega)

theorem TftpRead.Copied.remain (hL : file.length < 65535 * 512) (h : c.Copied file s n f)
    (hl : c.t.Loaded file k) (hk : 30720 * k ≤ f) :
    wrapInt (c.t.bufferend - (c.filepos - c.t.basepos)) =
      (min (30720 * (k + 1)) file.length : ℕ) - (f : ℤ) := by
  have hf := h.inFile
  rw [h.filepos, hl.basepos, hl.bufferend, wrapInt_of_range] <;> omega

/-- The bytes that follow are copied. -/
theorem TftpRead.Copied.append (h : c.Copied file s n f) (hl : c.t.Loaded file k) (hk : 30720 * k ≤ f)
    (hm : f + m ≤ file.length) (hw : f + m ≤ 30720 * (k + 1)) :
    (c.copy ((f : ℤ) - 30720 * k) m).out = (file.drop s).take (f + m - s) := by
  have hs := h.start
  show c.out ++ copyFrom c.t.mem _ m = _
  rw [copyFrom_loaded hl hk hm hw, h.out, show f + m - s = f - s + m by omega, List.take_add, List.drop_drop,
    Nat.add_sub_cancel' hs]

theorem TftpRead.Copied.filling (h : c.Copied file s n (30720 * (k + 1))) (hl : c.t.Loaded file k)
    (hfull : 30720 * (k + 1) ≤ file.length) (hlt : 30720 * (k + 1) < s + n) :
    TftpRead.Filling file s n (k + 1) (30720 * (k + 1)) { c with place := .filling } :=
  have heof : c.t.endoffile = false := hl.endoffile.trans (decide_eq_false (not_lt.mpr hfull))
  { savePos := h.savePos, saveSize := h.saveSize, savedpos := h.savedpos, filepos := h.filepos
    start := h.start, stop := h.stop, inFile := h.inFile, out := h.out, size := h.size, len := h.len
    place := rfl
    ready := ⟨hfull, heof, hl.nextpacket heof⟩
    lower := le_rfl
    upper := Nat.mul_le_mul_left _ (Nat.le_succ _)
    begins := .inl ⟨rfl, hlt⟩
    asked := Nat.zero_lt_of_lt hlt }

/-- The window is not the last one. -/
theorem TftpRead.Copied.fill (hL : file.length < 65535 * 512) (h : c.Copied file s n f)
    (hl : c.t.Loaded file k)
    (hfull : 30720 * (k + 1) ≤ file.length) (hk : 30720 * k ≤ f) (hk' : f ≤ 30720 * (k + 1)) :
    c.fill.Done file s n ∨ c.fill.Filling file s n (k + 1) (30720 * (k + 1)) := by
  have hs := h.start
  have hstop := h.stop
  unfold TftpRead.fill
  simp only [h.remain hL hl hk, h.pos hL hl hk, h.size, Nat.min_eq_left hfull]
  rw [if_neg (by omega)]
  by_cases hend : s + n ≤ 30720 * (k + 1)
  · rw [if_pos (by push_cast; omega)]
    have hsize : (s + n : ℤ) - f = (s + n - f : ℕ) := by omega
    have hout := h.append hl hk (m := s + n - f) (by omega) (by omega)
    rw [hsize]
    refine .inl ⟨?_, ?_, ?_, h.savedpos, k, hl, by omega, by omega⟩
    · show TftpPlace.returned _ = _
      rw [h.len]
      unfold plainRet
      rw [if_pos (by omega)]
      congr 1
      omega
    · show c.filepos + _ = _
      rw [h.filepos]
      omega
    · rw [show f + (s + n - f) - s = n by omega] at hout
      exact hout
  · rw [if_neg (by push_cast; omega)]
    refine .inr ?_
    by_cases hrem : f = 30720 * (k + 1)
    · subst hrem
      rw [if_neg (by push_cast; omega), ← h.size]
      exact h.filling hl hfull (by omega)
    · rw [if_pos (by push_cast; omega)]
      have hsize : ((30720 * (k + 1) : ℕ) : ℤ) - f = (30720 * (k + 1) - f : ℕ) := by omega
      have hout := h.append hl hk (m := 30720 * (k + 1) - f) (by omega) (by omega)
      rw [show f + (30720 * (k + 1) - f) = 30720 * (k + 1) by omega] at hout
      rw [hsize, ← h.size]
      refine TftpRead.Copied.filling (c := { c.copy ((f : ℤ) - 30720 * k) (30720 * (k + 1) - f : ℕ) with
        size := c.size - (30720 * (k + 1) - f : ℕ) }) ?_ hl hfull (by omega)
      exact {
        savePos := h.savePos
        saveSize := h.saveSize
        savedpos := h.savedpos
        filepos := by
          show c.filepos + _ = _
          rw [h.filepos]
          omega
        start := by omega
        stop := by omega
        inFile := hfull
        out := hout
        size := by
          show c.size - _ = _
          rw [h.size]
          omega
        len := by
          show c.len + _ = _
          rw [h.len]
          omega }

/-- The window is the last one. -/
theorem TftpRead.Copied.finish (hL : file.length < 65535 * 512) (h : c.Copied file s n f)
    (hl : c.t.Loaded file k) (hlast : file.length < 30720 * (k + 1)) (hk : 30720 * k ≤ f)
    (hbegins : (f = 30720 * k ∧ f < s + n) ∨ f = s) : c.finish.Done file s n := by
  have hs := h.start
  have hstop := h.stop
  have hf := h.inFile
  have hdvd : 30720 ∣ file.length ↔ file.length = 30720 * k := by
    constructor
    · rintro ⟨q, hq⟩
      rw [hq] at hlast hf ⊢
      have hlt : q < k + 1 := by omega
      have hge : k ≤ q := by omega
      rw [show q = k by omega]
    · exact fun hq => ⟨k, hq⟩
  unfold TftpRead.finish
  simp only [h.remain hL hl hk, h.pos hL hl hk, h.size, Nat.min_eq_right hlast.le]
  have hsize : (if (file.length : ℤ) - f < (s + n : ℤ) - f then (file.length : ℤ) - f else (s + n : ℤ) - f) =
      (min (s + n) file.length - f : ℕ) := by
    split_ifs <;> omega
  rw [hsize]
  by_cases hrem : f = file.length
  · rw [if_neg (by omega)]
    refine ⟨?_, ?_, ?_, h.savedpos, k, hl, by omega, by omega⟩
    · show TftpPlace.returned 0 = _
      unfold plainRet
      split_ifs with hfit hd
      · rw [show n = 0 by omega]
        rfl
      · rfl
      · have hne : file.length ≠ 30720 * k := fun heq => hd (hdvd.mpr heq)
        rw [show file.length - s = 0 by omega]
        rfl
    · show c.filepos = _
      rw [h.filepos]
      omega
    · show c.out = _
      rw [h.out, hrem, List.take_of_length_le (by rw [List.length_drop]),
        List.take_of_length_le (by rw [List.length_drop]; omega)]
  · rw [if_pos (by omega)]
    have hout := h.append hl hk (m := min (s + n) file.length - f) (by omega) (by omega)
    refine ⟨?_, ?_, ?_, h.savedpos, k, hl, by omega, by omega⟩
    · show TftpPlace.returned _ = _
      rw [h.len]
      congr 1
      unfold plainRet
      have hne : ¬ 30720 ∣ file.length := fun hd => hrem (by have := hdvd.mp hd; omega)
      rw [if_neg hne]
      split_ifs <;> omega
    · show c.filepos + _ = _
      rw [h.filepos]
      omega
    · refine hout.trans ?_
      rcases le_total (s + n) file.length with hle | hle
      · rw [show f + (min (s + n) file.length - f) - s = n by omega]
      · rw [List.take_of_length_le (by rw [List.length_drop]; omega),
          List.take_of_length_le (by rw [List.length_drop]; omega)]

/-- The failure of a `tftpget` makes the call begin again. -/
theorem TftpRead.step_fail {arrivals : List Arrival} (hp : c.place = .filling)
    (hr : (c.get file arrivals).1 = -1) :
    c.step file arrivals =
      TftpRead.retransmit { c with t := (c.get file arrivals).2.tftpClose.tftpopen } := by
  unfold TftpRead.step
  rw [hp]
  dsimp only
  rw [if_pos hr]
  rfl

/-- When `tftpget` does not fail, the call goes on to the next window or returns. -/
theorem TftpRead.Filling.step (hL : file.length < 65535 * 512) (h : c.Filling file s n k f)
    {arrivals : List Arrival} (hr : (c.get file arrivals).1 ≠ -1) :
    (c.step file arrivals).Done file s n ∨
      (c.step file arrivals).Filling file s n (k + 1) (30720 * (k + 1)) := by
  obtain ⟨hl, hsaved⟩ := (tftpget_spec hL h.ready arrivals).resolve_left hr
  have hend := hl.bufferend
  have hle := hl.inFile
  unfold TftpRead.step
  rw [h.place]
  dsimp only
  rw [if_neg hr]
  have hcopied : TftpRead.Copied file s n f { c with
      t := { (c.get file arrivals).2 with bufferend := (c.get file arrivals).1 }
      place := .filling } :=
    { savePos := h.savePos, saveSize := h.saveSize, savedpos := hsaved.trans h.savedpos
      filepos := h.filepos, start := h.start, stop := h.stop, inFile := h.inFile, out := h.out
      size := h.size, len := h.len }
  by_cases hfull : 30720 * (k + 1) ≤ file.length
  · have hret : (c.get file arrivals).1 = 30720 := by
      refine hend.trans ?_
      omega
    rw [if_pos hret]
    exact hcopied.fill hL hl hfull h.lower h.upper
  · have hret : (c.get file arrivals).1 ≠ 30720 := by
      refine ne_of_eq_of_ne hend ?_
      omega
    rw [if_neg hret]
    exact .inl (hcopied.finish hL hl (by omega) h.lower (h.begins.imp_right And.right))

/-! ## The beginning of a call -/

/-- The call begins, from the first time or again. -/
structure TftpRead.Begun (s n : ℕ) (c : TftpRead) : Prop where
  savePos : c.savePos = s
  saveSize : c.saveSize = n
  filepos : c.filepos = s
  size : c.size = n
  len : c.len = 0
  out : c.out = []

/-- The file has just been opened. -/
structure Tftp.Fresh (t : Tftp) : Prop where
  basepos : t.basepos = 0
  bufferend : t.bufferend = 0
  endoffile : t.endoffile = false
  nextpacket : t.nextpacket = 0

theorem Tftp.fresh_open (t : Tftp) : t.tftpopen.Fresh := ⟨rfl, rfl, rfl, rfl⟩

/-- The call has returned without a look at the file. -/
structure TftpRead.Idle (t : Tftp) (s : ℕ) (c : TftpRead) : Prop where
  place : c.place = .returned 0
  filepos : c.filepos = s
  out : c.out = []
  t : c.t = { t with savedpos := s }

theorem Tftp.Loaded.save (h : t.Loaded file k) (p : ℤ) :
    Tftp.Loaded file k { t with savedpos := p } :=
  ⟨h.inFile, h.basepos, h.bufferend, h.endoffile, h.nextpacket, h.mem⟩

theorem TftpRead.Begun.savedpos (h : c.Begun s n) (hn : s + n < 2 ^ 32) : toUlong
    (c.filepos + c.size) = s + n := by
  rw [h.filepos, h.size]
  exact toUlong_of_range (by omega) (by omega)

theorem TftpRead.Begun.copied (h : c.Begun s n) (hs : s ≤ file.length) (hn : s + n < 2 ^ 32) :
    TftpRead.Copied file s n s { c with t := { c.t with savedpos := toUlong (c.filepos + c.size) } } where
  savePos := h.savePos
  saveSize := h.saveSize
  savedpos := h.savedpos hn
  filepos := h.filepos
  start := le_rfl
  stop := Nat.le_add_right _ _
  inFile := hs
  out := by rw [Nat.sub_self, List.take_zero]; exact h.out
  size := by rw [add_sub_cancel_left]; exact h.size
  len := by rw [sub_self]; exact h.len

/-- The start is in the window. -/
theorem TftpRead.Begun.next_loaded (hL : file.length < 65535 * 512) (h : c.Begun s n)
    (hs : s ≤ file.length)
    (hn : s + n < 2 ^ 32) (hl : c.t.Loaded file k) (hk : 30720 * k ≤ s)
    (hk' : c.t.endoffile = true ∨ s ≤ 30720 * (k + 1)) :
    c.next.Done file s n ∨ c.next.Filling file s n (k + 1) (30720 * (k + 1)) := by
  have hcopied := h.copied hs hn
  have hl' := hl.save (toUlong (c.filepos + c.size))
  have heof := hl.endoffile
  unfold TftpRead.next
  dsimp only
  by_cases hlast : file.length < 30720 * (k + 1)
  · rw [decide_eq_true hlast] at heof
    rw [if_pos heof]
    exact .inl (hcopied.finish hL hl' hlast hk (.inr rfl))
  · rw [decide_eq_false hlast] at heof
    rw [if_neg (by rw [heof]; exact Bool.false_ne_true)]
    refine hcopied.fill hL hl' (not_lt.mp hlast) hk (hk'.resolve_left ?_)
    rw [heof]
    exact Bool.false_ne_true

/-- Nothing has been read. -/
theorem TftpRead.Begun.next_fresh (h : c.Begun s n) (hs : s ≤ file.length)
    (hn : s + n < 2 ^ 32) (ht : c.t.Fresh) (hw : s ≤ 30720) :
    c.next.Filling file s n 0 s ∨ (n = 0 ∧ s = 0 ∧ c.next.Idle c.t s) := by
  have hcopied := h.copied hs hn
  have hremain : wrapInt (c.t.bufferend - (c.filepos - c.t.basepos)) = -s := by
    rw [ht.bufferend, ht.basepos, h.filepos, wrapInt_of_range] <;> omega
  have hpos : wrapInt (c.filepos - c.t.basepos) = s := by
    rw [ht.basepos, h.filepos, wrapInt_of_range] <;> omega
  unfold TftpRead.next
  dsimp only
  rw [if_neg (by rw [ht.endoffile]; exact Bool.false_ne_true)]
  unfold TftpRead.fill
  simp only [hremain, hpos, h.size]
  rw [if_neg (by omega)]
  by_cases hzero : s + n = 0
  · obtain ⟨rfl, rfl⟩ := Nat.add_eq_zero_iff.mp hzero
    rw [if_pos (by simp)]
    refine .inr ⟨rfl, rfl, ?_, ?_, ?_, ?_⟩
    · show TftpPlace.returned (c.len + 0) = _
      rw [h.len, add_zero]
    · show c.filepos + 0 = _
      rw [h.filepos, add_zero]
    · show c.out ++ [] = _
      rw [h.out, List.append_nil]
    · show ({ c.t with savedpos := _ } : Tftp) = _
      rw [h.filepos]
      rfl
  · rw [if_neg (by omega), if_neg (by omega), ← h.size]
    exact .inl
      { hcopied with
        place := rfl
        ready := ⟨Nat.zero_le _, ht.endoffile, ht.nextpacket⟩
        lower := Nat.zero_le _
        upper := hw
        begins := .inr ⟨rfl, rfl⟩
        asked := Nat.pos_of_ne_zero hzero }

/-! ## Runs -/

theorem TftpRead.start_begun (t : Tftp) (s n : ℕ) :
    ∃ c, TftpRead.Begun s n c ∧ c.t = t ∧ TftpRead.start t s n = c.seek :=
  ⟨_, ⟨rfl, rfl, rfl, rfl, rfl, rfl⟩, rfl, rfl⟩

/-- A call that fails before it has copied a byte begins again. -/
theorem TftpRead.Filling.fail (h : c.Filling file s n k f) (hn : s + n < 2 ^ 32)
    {arrivals : List Arrival}
    (hr : (c.get file arrivals).1 = -1) (hs : c.savePos ≤ 30720) (hlen : c.len = 0) :
    (c.step file arrivals).Filling file s n 0 s := by
  rw [TftpRead.step_fail h.place hr]
  unfold TftpRead.retransmit
  set c' : TftpRead := { c with
    t := (c.get file arrivals).2.tftpClose.tftpopen
    out := []
    size := c.saveSize
    filepos := c.savePos } with hc'
  have hbegun : c'.Begun s n := ⟨h.savePos, h.saveSize, h.savePos, h.saveSize, hlen, rfl⟩
  have hfresh : c'.t.Fresh := Tftp.fresh_open _
  have hseek : c'.seek = c'.next := by
    refine if_neg (not_lt.mpr ?_)
    exact Int.emod_nonneg _ (by decide)
  have hle := h.start
  have hin := h.inFile
  rw [h.savePos] at hs
  show c'.seek.Filling file s n 0 s
  rw [hseek]
  rcases hbegun.next_fresh (hle.trans hin) hn hfresh (by omega) with hfill | ⟨rfl, rfl, -⟩
  · exact hfill
  · exact absurd h.asked (Nat.lt_irrefl _)

theorem TftpRead.step_returned {r : ℤ} (hp : c.place = .returned r) (arrivals : List Arrival) :
    c.step file arrivals = c := by
  unfold TftpRead.step
  rw [hp]

theorem TftpRead.after_returned {r : ℤ} (hp : c.place = .returned r) (j : ℕ) :
    ∀ net, c.after file net j = c := by
  induction j with
  | zero => exact fun _ => rfl
  | succ j ih =>
    intro net
    rw [TftpRead.after, TftpRead.step_returned hp, ih]

theorem TftpRead.after_add (i j : ℕ) : ∀ (c : TftpRead) (net : List (List Arrival)),
    c.after file net (i + j) = (c.after file net i).after file (net.drop i) j := by
  induction i with
  | zero => exact fun c net => by rw [Nat.zero_add]; rfl
  | succ i ih =>
    intro c net
    rw [Nat.succ_add, TftpRead.after, ih, TftpRead.after, List.drop_tail]

theorem TftpRead.ends_of_returned {r : ℤ} (hp : c.place = .returned r) (net : List (List Arrival)) :
    c.Ends file net c :=
  ⟨⟨0, rfl⟩, r, hp⟩

theorem TftpRead.Ends.of_step {c' : TftpRead} {net : List (List Arrival)}
    (h : (c.step file (net.headD answers)).Ends file net.tail c') : c.Ends file net c' := by
  obtain ⟨⟨j, hj⟩, hr⟩ := h
  exact ⟨⟨j + 1, hj⟩, hr⟩

/-- A call has one end. -/
theorem TftpRead.Ends.unique {c₁ c₂ : TftpRead} {net : List (List Arrival)} (h₁ : c.Ends file net c₁)
    (h₂ : c.Ends file net c₂) : c₁ = c₂ := by
  obtain ⟨⟨i, hi⟩, r₁, hr₁⟩ := h₁
  obtain ⟨⟨j, hj⟩, r₂, hr₂⟩ := h₂
  have h1 : c.after file net (i + j) = _ := TftpRead.after_add i j c net
  have h2 : c.after file net (j + i) = _ := TftpRead.after_add j i c net
  rw [hi, TftpRead.after_returned hr₁] at h1
  rw [hj, TftpRead.after_returned hr₂, Nat.add_comm] at h2
  exact h1.symm.trans h2

/-- What has been asked for comes when nothing goes wrong. -/
theorem TftpRead.Filling.ends (hL : file.length < 65535 * 512) (h : c.Filling file s n k f) :
    ∃ c', c.Ends file [] c' ∧ c'.Done file s n := by
  obtain ⟨m, hm⟩ : ∃ m, file.length < 30720 * (k + m) :=
    ⟨file.length + 1, by nlinarith [Nat.zero_le k]⟩
  induction m generalizing c k f with
  | zero => exact absurd h.ready.inFile (by omega)
  | succ m ih =>
    rcases h.step hL (tftpget_answers hL h.ready) with hdone | hfill
    · exact ⟨_, .of_step (TftpRead.ends_of_returned hdone.place _), hdone⟩
    · obtain ⟨c', hends, hdone⟩ := ih hfill (by rwa [Nat.add_assoc, Nat.add_comm 1 m])
      exact ⟨c', .of_step hends, hdone⟩

theorem TftpRead.Begun.seek_next (h : c.Begun s n) (hs : s < 2 ^ 32) (hb : c.t.basepos ≤ s) :
    c.seek = c.next := by
  unfold TftpRead.seek
  rw [h.filepos, toUlong_of_range (by omega) (by omega), if_pos hb, ite_self]

theorem TftpRead.Begun.seek_zero (h : c.Begun 0 n) (hb : 0 < c.t.basepos) (hp : 0 < c.t.savedpos) :
    c.seek = c.reopen.next := by
  unfold TftpRead.seek
  rw [h.filepos, Nat.cast_zero, show toUlong 0 = 0 from rfl, if_pos hp, if_neg (not_le.mpr hb)]
  exact if_neg (lt_irrefl _)

end Calls

/-! ## Reads at any positions -/

/-- What is known between two calls. -/
def Tftp.Good (file : Bytes) (t : Tftp) : Prop :=
  t.Fresh ∨ ∃ k, t.Loaded file k ∧ (30720 * k : ℤ) ≤ t.savedpos

/-- A read of `n` bytes at `s` starts at 0 or does not go back from the window, and it leaves no gap
behind the window while the file goes on. -/
def Tftp.Reaches (t : Tftp) (s n : ℕ) : Prop :=
  s = 0 ∨ (t.basepos ≤ s ∧ (t.endoffile = true ∨ s ≤ t.basepos + 30720 ∨ n = 0))

/-- All reads do so. -/
def Tftp.AllReach (file : Bytes) : Tftp → List (ℕ × ℕ) → Prop
  | _, [] => True
  | t, (s, n) :: reads => t.Reaches s n ∧
    ∀ c, (TftpRead.start t s n).Ends file [] c → c.t.AllReach file reads

/-- Each read gives what is in the file. -/
def Tftp.ReadsPlainly (file : Bytes) : Tftp → List (ℕ × ℕ) → Prop
  | _, [] => True
  | t, (s, n) :: reads => ∃ c, (TftpRead.start t s n).Ends file [] c ∧ c.ret = n ∧
    c.out = (file.drop s).take n ∧ c.filepos = s + n ∧ c.t.ReadsPlainly file reads

section Reads

variable {file : Bytes} {t : Tftp} {s n : ℕ}

/-- A call has read what is in the file. -/
structure TftpRead.Plain (file : Bytes) (s n : ℕ) (c : TftpRead) : Prop where
  ret : c.ret = n
  out : c.out = (file.drop s).take n
  filepos : c.filepos = s + n
  good : c.t.Good file

theorem TftpRead.Done.plain {c : TftpRead} (h : c.Done file s n) (hs : s + n ≤ file.length) :
    c.Plain file s n where
  ret := by
    unfold TftpRead.ret
    rw [h.place]
    show (plainRet file s n : ℤ) = n
    unfold plainRet
    rw [if_pos hs]
  out := h.out
  filepos := by
    rw [h.filepos, Nat.min_eq_left hs]
    exact Nat.cast_add ..
  good := by
    obtain ⟨k, hl, hk, -⟩ := h.loaded
    refine .inr ⟨k, hl, ?_⟩
    rw [h.savedpos]
    omega

theorem TftpRead.Idle.plain {c : TftpRead} (h : c.Idle t s) (ht : t.Good file) (hb : t.basepos ≤ s) :
    c.Plain file s 0 where
  ret := by
    unfold TftpRead.ret
    rw [h.place]
    rfl
  out := by rw [List.take_zero]; exact h.out
  filepos := by rw [h.filepos, Nat.cast_zero, add_zero]
  good := by
    rw [h.t]
    rcases ht with hfresh | ⟨k, hl, -⟩
    · exact .inl ⟨hfresh.basepos, hfresh.bufferend, hfresh.endoffile, hfresh.nextpacket⟩
    · exact .inr ⟨k, hl.save s, by rw [← hl.basepos]; exact hb⟩

theorem TftpRead.Begun.plain_of_fresh (hL : file.length < 65535 * 512) {c : TftpRead} (h : c.Begun s n)
    (ht : c.t.Fresh) (hs : s + n ≤ file.length) (hw : s ≤ 30720) :
    ∃ c', c.next.Ends file [] c' ∧ c'.Plain file s n := by
  rcases h.next_fresh (by omega : s ≤ file.length) (by omega) ht hw with hfill | ⟨rfl, rfl, hidle⟩
  · obtain ⟨c', hends, hdone⟩ := hfill.ends hL
    exact ⟨c', hends, hdone.plain hs⟩
  · exact ⟨_, TftpRead.ends_of_returned hidle.place _, hidle.plain (.inl ht) (by rw [ht.basepos]; rfl)⟩

theorem TftpRead.Begun.plain_of_loaded (hL : file.length < 65535 * 512) {c : TftpRead} {k : ℕ}
    (h : c.Begun s n)
    (hl : c.t.Loaded file k) (hs : s + n ≤ file.length) (hk : 30720 * k ≤ s)
    (hw : c.t.endoffile = true ∨ s ≤ 30720 * (k + 1)) : ∃ c', c.next.Ends file
    [] c' ∧ c'.Plain file s n := by
  rcases h.next_loaded hL (by omega) (by omega) hl hk hw with hdone | hfill
  · exact ⟨_, TftpRead.ends_of_returned hdone.place _, hdone.plain hs⟩
  · obtain ⟨c', hends, hdone⟩ := hfill.ends hL
    exact ⟨c', hends, hdone.plain hs⟩

/-- Behind the window nothing is read. -/
theorem TftpRead.Begun.next_far {c : TftpRead} (h : c.Begun s 0) (hs : s < 2 ^ 31)
    (hb0 : 0 ≤ c.t.basepos)
    (hb : c.t.basepos + 30720 < s) (heof : c.t.endoffile = false) : c.next.Idle c.t s := by
  have hpos : wrapInt (c.filepos - c.t.basepos) = s - c.t.basepos := by
    rw [h.filepos, wrapInt_of_range] <;> omega
  have hsaved := h.savedpos (n := 0) (by omega)
  have hnext : c.next = { c with
      t := { c.t with savedpos := toUlong (c.filepos + c.size) }
      place := .returned 0 } := by
    unfold TftpRead.next
    dsimp only
    rw [if_neg (by rw [heof]; exact Bool.false_ne_true)]
    unfold TftpRead.fill
    simp only [hpos]
    exact if_pos (by omega)
  rw [hnext]
  refine ⟨rfl, h.filepos, h.out, ?_⟩
  show ({ c.t with savedpos := _ } : Tftp) = _
  rw [hsaved, Nat.cast_zero, add_zero]

/-- One read. -/
theorem Tftp.Good.read (hL : file.length < 65535 * 512) (ht : t.Good file) (hs : s + n ≤ file.length)
    (hreach : t.Reaches s n) : ∃ c, (TftpRead.start t s n).Ends file [] c ∧ c.Plain file s n := by
  obtain ⟨c, hbegun, rfl, hstart⟩ := TftpRead.start_begun t s n
  rw [hstart]
  by_cases hback : (s : ℤ) < c.t.basepos
  · -- back to the start
    obtain rfl : s = 0 := hreach.resolve_right fun h => absurd h.1 (not_le.mpr hback)
    have hsaved : 0 < c.t.savedpos := by
      rcases ht with hfresh | ⟨k, hl, hk⟩
      · rw [hfresh.basepos] at hback
        omega
      · rw [hl.basepos] at hback
        omega
    rw [hbegun.seek_zero (by exact_mod_cast hback) hsaved]
    have hreopen : c.reopen.Begun 0 n :=
      ⟨hbegun.savePos, hbegun.saveSize, hbegun.filepos, hbegun.size, hbegun.len, hbegun.out⟩
    exact hreopen.plain_of_fresh hL (Tftp.fresh_open _) hs (by omega)
  · have hb := not_lt.mp hback
    rw [hbegun.seek_next (by omega) hb]
    by_cases hfar : c.t.endoffile = false ∧ c.t.basepos + 30720 < s
    · -- only an empty read may start there
      obtain ⟨heof, hfar⟩ := hfar
      have hb0 : 0 ≤ c.t.basepos := by
        rcases ht with hfresh | ⟨k, hl, -⟩
        · rw [hfresh.basepos]
        · rw [hl.basepos]
          omega
      obtain rfl : n = 0 := by
        rcases hreach with rfl | ⟨-, hend | hnear | hn⟩
        · omega
        · rw [heof] at hend
          cases hend
        · omega
        · exact hn
      have hidle := hbegun.next_far (by omega) hb0 hfar heof
      exact ⟨_, TftpRead.ends_of_returned hidle.place _, hidle.plain ht hb⟩
    · rcases ht with hfresh | ⟨k, hl, -⟩
      · rw [hfresh.basepos, hfresh.endoffile] at hfar
        have hnear := not_and.mp hfar rfl
        exact hbegun.plain_of_fresh hL hfresh hs (by omega)
      · rw [hl.basepos] at hfar hb
        refine hbegun.plain_of_loaded hL hl hs (by omega) ?_
        cases heof : c.t.endoffile with
        | true => exact .inl rfl
        | false =>
          have hnear := not_and.mp hfar heof
          exact .inr (by omega)

theorem Tftp.Good.readsPlainly (hL : file.length < 65535 * 512) (reads : List (ℕ × ℕ)) :
    ∀ {t : Tftp}, t.Good file → (∀ r ∈ reads, r.1 + r.2 ≤ file.length) → t.AllReach file reads →
      t.ReadsPlainly file reads := by
  induction reads with
  | nil => exact fun _ _ _ => trivial
  | cons r reads ih =>
    intro t ht hin hreach
    obtain ⟨hr, hin⟩ := List.forall_mem_cons.mp hin
    obtain ⟨hfirst, hrest⟩ := hreach
    obtain ⟨c, hends, hplain⟩ := ht.read hL hr hfirst
    exact ⟨c, hends, hplain.ret, hplain.out, hplain.filepos, ih hplain.good hin (hrest c hends)⟩

end Reads

/-- **`tftp_read` is a plain file read** in every run whose reads do not go back from the window, other
than to the start of the file, and leave no gap behind it. -/
theorem tftpRead_plain {file : Bytes} (hL : file.length < 65535 * 512) (t : Tftp) {reads : List (ℕ × ℕ)}
    (hin : ∀ r ∈ reads, r.1 + r.2 ≤ file.length) (hreach : t.tftpopen.AllReach file reads) :
    t.tftpopen.ReadsPlainly file reads :=
  Tftp.Good.readsPlainly hL reads (.inl t.fresh_open) hin hreach

/-- No file has been opened. -/
def unopened : Tftp := ⟨fun _ => 0, 0, true, 0, 0, 0⟩

theorem tftpRead_plain_twice : unopened.tftpopen.ReadsPlainly [1, 2, 3] [(1, 2), (0, 3)] :=
  tftpRead_plain (by decide) unopened (by decide)
    ⟨.inr ⟨by decide, .inr (.inl (by decide))⟩, fun _ _ => ⟨.inl rfl, fun _ _ => trivial⟩⟩

/-- A read behind the first window returns nothing. -/
theorem not_readsPlainly : ¬ unopened.tftpopen.ReadsPlainly (List.replicate 30722 0) [(30721, 1)] := by
  rintro ⟨c, hends, hret, -⟩
  have hplace : (TftpRead.start unopened.tftpopen (30721 : ℕ) (1 : ℕ)).place = .returned 0 := by decide
  obtain rfl := hends.unique (TftpRead.ends_of_returned hplace _)
  unfold TftpRead.ret at hret
  rw [hplace] at hret
  cases hret

/-! ## Failures -/

/-- Failures come only when no byte has been copied, in calls that start in the first window or at its
end. -/
def TftpRead.Recovers (file : Bytes) : TftpRead → List (List Arrival) → Prop
  | _, [] => True
  | c, arrivals :: net =>
    (c.place = .filling → (c.get file arrivals).1 = -1 → c.savePos ≤ 30720 ∧ c.len = 0) ∧
      (c.step file arrivals).Recovers file net

/-- Reads of `n` bytes, one behind the other, with what arrives in the calls of `tftpget`. -/
def AllRecover (file : Bytes) : Tftp → ℤ → List (ℕ × List (List Arrival)) → Prop
  | _, _, [] => True
  | t, filepos, (n, net) :: reads => (TftpRead.start t filepos n).Recovers file net ∧
    ∀ c, (TftpRead.start t filepos n).Ends file net c → AllRecover file c.t c.filepos reads

/-- Each read returns the same as with a server that never fails. -/
def SameReads (file : Bytes) : Tftp → ℤ → Tftp → ℤ → List (ℕ × List (List Arrival)) → Prop
  | _, _, _, _, [] => True
  | t, filepos, t', filepos', (n, net) :: reads =>
    ∃ c c', (TftpRead.start t filepos n).Ends file net c ∧ (TftpRead.start t' filepos' n).Ends file [] c' ∧
      c.ret = c'.ret ∧ c.out.take c.ret.toNat = c'.out.take c'.ret.toNat ∧
      SameReads file c.t c.filepos c'.t c'.filepos reads

section Failures

variable {file : Bytes} {t t' : Tftp} {s n k f : ℕ} {c : TftpRead}

theorem TftpRead.Filling.recovers (hL : file.length < 65535 * 512) (hn : s + n < 2 ^ 32)
    (net : List (List Arrival)) : ∀ {c : TftpRead} {k f : ℕ}, c.Filling file s n k f → c.Recovers file net →
      ∃ c', c.Ends file net c' ∧ c'.Done file s n := by
  induction net with
  | nil => exact fun h _ => h.ends hL
  | cons arrivals net ih =>
    intro c k f h hrec
    obtain ⟨hfirst, hrest⟩ := hrec
    by_cases hr : (c.get file arrivals).1 = -1
    · obtain ⟨hs, hlen⟩ := hfirst h.place hr
      obtain ⟨c', hends, hdone⟩ := ih (h.fail hn hr hs hlen) hrest
      exact ⟨c', .of_step hends, hdone⟩
    · rcases h.step hL hr with hdone | hfill
      · exact ⟨_, .of_step (TftpRead.ends_of_returned hdone.place _), hdone⟩
      · obtain ⟨c', hends, hdone⟩ := ih hfill hrest
        exact ⟨c', .of_step hends, hdone⟩

/-- What is known between two reads that follow each other, the next one being at `s`. -/
def Tftp.At (file : Bytes) (t : Tftp) (s : ℕ) : Prop :=
  s ≤ file.length ∧ ((t.Fresh ∧ s = 0) ∨ ∃ k, t.Loaded file k ∧ 30720 * k ≤ s ∧ s ≤ 30720 * (k + 1))

/-- The same result, whatever fails. -/
structure TftpRead.Result (file : Bytes) (s n : ℕ) (c : TftpRead) : Prop where
  ret : c.ret = plainRet file s n
  out : c.out = (file.drop s).take n
  filepos : c.filepos = (min (s + n) file.length : ℕ)
  between : c.t.At file (min (s + n) file.length)

theorem TftpRead.Done.result (h : c.Done file s n) : c.Result file s n where
  ret := by
    unfold TftpRead.ret
    rw [h.place]
  out := h.out
  filepos := h.filepos
  between := ⟨Nat.min_le_right _ _, .inr h.loaded⟩

/-- One read, with failures. -/
theorem Tftp.At.read (hL : file.length < 65535 * 512) (ht : t.At file s) (hn : n < 2 ^ 31)
    (net : List (List Arrival)) (hrec : (TftpRead.start t s n).Recovers file net) :
    ∃ c, (TftpRead.start t s n).Ends file net c ∧ c.Result file s n := by
  obtain ⟨c, hbegun, rfl, hstart⟩ := TftpRead.start_begun t s n
  rw [hstart] at hrec ⊢
  obtain ⟨hs, ⟨hfresh, rfl⟩ | ⟨k, hl, hk, hk'⟩⟩ := ht
  · rw [hbegun.seek_next (by omega) (by rw [hfresh.basepos]; rfl)] at hrec ⊢
    rcases hbegun.next_fresh hs (by omega) hfresh (by omega) with hfill | ⟨rfl, -, hidle⟩
    · obtain ⟨c', hends, hdone⟩ := hfill.recovers hL (by omega) net hrec
      exact ⟨c', hends, hdone.result⟩
    · refine ⟨_, TftpRead.ends_of_returned hidle.place _, ?_, ?_, ?_, ?_⟩
      · unfold TftpRead.ret plainRet
        rw [hidle.place, if_pos hs]
        rfl
      · rw [List.take_zero]
        exact hidle.out
      · rw [hidle.filepos, Nat.add_zero, Nat.zero_min]
      · rw [hidle.t, Nat.add_zero, Nat.zero_min]
        exact ⟨hs, .inl ⟨⟨hfresh.basepos, hfresh.bufferend, hfresh.endoffile, hfresh.nextpacket⟩, rfl⟩⟩
  · rw [hbegun.seek_next (by omega) (by rw [hl.basepos]; omega)] at hrec ⊢
    rcases hbegun.next_loaded hL hs (by omega) hl hk (.inr hk') with hdone | hfill
    · exact ⟨_, TftpRead.ends_of_returned hdone.place _, hdone.result⟩
    · obtain ⟨c', hends, hdone⟩ := hfill.recovers hL (by omega) net hrec
      exact ⟨c', hends, hdone.result⟩

theorem Tftp.At.sameReads (hL : file.length < 65535 * 512) (reads : List (ℕ × List (List Arrival))) :
    ∀ {t t' : Tftp} {s : ℕ}, t.At file s → t'.At file s → (∀ r ∈ reads, r.1 < 2 ^ 31) →
      AllRecover file t s reads → SameReads file t s t' s reads := by
  induction reads with
  | nil => exact fun _ _ _ _ => trivial
  | cons r reads ih =>
    intro t t' s ht ht' hin hrec
    obtain ⟨n, net⟩ := r
    obtain ⟨hn, hin⟩ := List.forall_mem_cons.mp hin
    obtain ⟨hfirst, hrest⟩ := hrec
    obtain ⟨c, hends, h⟩ := ht.read hL hn net hfirst
    obtain ⟨c', hends', h'⟩ := ht'.read hL hn [] trivial
    refine ⟨c, c', hends, hends', h.ret.trans h'.ret.symm, by rw [h.ret, h'.ret, h.out, h'.out], ?_⟩
    have hrest := hrest c hends
    rw [h.filepos] at hrest ⊢
    rw [h'.filepos]
    exact ih h.between h'.between hin hrest

/-- A failure makes a call return nothing when it starts further on. -/
theorem TftpRead.Filling.fail_far (h : c.Filling file s n k f) (hn : s < 2 ^ 31)
    {arrivals : List Arrival}
    (hr : (c.get file arrivals).1 = -1) (hs : 30720 < s) :
    (c.step file arrivals).place = .returned 0 := by
  rw [TftpRead.step_fail h.place hr]
  have hpos : wrapInt (c.savePos - 0) = s := by
    rw [h.savePos, wrapInt_of_range] <;> omega
  have hseek : ¬ toUlong c.savePos < 0 := not_lt.mpr (Int.emod_nonneg _ (by decide))
  unfold TftpRead.retransmit TftpRead.seek TftpRead.next TftpRead.fill Tftp.tftpopen
  simp only [hpos]
  rw [if_neg hseek, if_neg Bool.false_ne_true, if_pos (by omega)]

theorem TftpRead.next_basepos (c : TftpRead) : c.next.t.basepos = c.t.basepos := by
  unfold TftpRead.next TftpRead.finish TftpRead.fill
  dsimp only
  split_ifs <;> rfl

end Failures

/-- **`tftp_read` recovers** in every run of reads one behind the other whose failures come when no byte
of the call has been copied, in calls that start in the first window or at its end. -/
theorem tftpRead_recovers {file : Bytes} (hL : file.length < 65535 * 512) (t t' : Tftp)
    {reads : List (ℕ × List (List Arrival))} (hn : ∀ r ∈ reads, r.1 < 2 ^ 31)
    (hrec : AllRecover file t.tftpopen 0 reads) : SameReads file t.tftpopen 0 t'.tftpopen 0 reads :=
  Tftp.At.sameReads hL reads (s := 0) ⟨Nat.zero_le _, .inl ⟨t.fresh_open, rfl⟩⟩
    ⟨Nat.zero_le _, .inl ⟨t'.fresh_open, rfl⟩⟩ hn hrec

theorem tftpRead_recovers_timeout :
    SameReads [1, 2, 3] unopened.tftpopen 0 unopened.tftpopen 0 [(2, [[]]), (1, [])] :=
  tftpRead_recovers (by decide) unopened unopened (by decide)
    ⟨⟨fun _ _ => ⟨by decide, by decide⟩, trivial⟩, fun _ _ => ⟨trivial, fun _ _ => trivial⟩⟩

/-- The third window does not come, in a call that starts in the second one. -/
theorem not_sameReads : ¬ SameReads (List.replicate 61441 0) unopened.tftpopen 0 unopened.tftpopen 0
    [(30721, []), (30720, [[]])] := by
  have hlen : (List.replicate 61441 (0 : UInt8)).length = 61441 := List.length_replicate
  generalize List.replicate 61441 (0 : UInt8) = file at hlen
  have hL : file.length < 65535 * 512 := by omega
  rintro ⟨c, c', hends, hends', -, -, d, d', hd, hd', hret, -⟩
  have hopen : unopened.tftpopen.At file 0 := ⟨Nat.zero_le _, .inl ⟨Tftp.fresh_open _, rfl⟩⟩
  have hfirst : ∀ e : TftpRead, (TftpRead.start unopened.tftpopen (0 : ℕ) (30721 : ℕ)).Ends file [] e →
      e.filepos = (30721 : ℕ) ∧ e.t.At file 30721 := by
    intro e he
    obtain ⟨e', he', hres⟩ := hopen.read hL (by norm_num : 30721 < 2 ^ 31) [] trivial
    obtain rfl := he.unique he'
    have hmin : min (0 + 30721) file.length = 30721 := by omega
    have hpos := hres.filepos
    have hat := hres.between
    rw [hmin] at hpos hat
    exact ⟨hpos, hat⟩
  obtain ⟨hpos, hat⟩ := hfirst c hends
  obtain ⟨hpos', hat'⟩ := hfirst c' hends'
  rw [hpos] at hd
  rw [hpos'] at hd'
  -- with a server that never fails
  have hgood : d'.ret = 30720 := by
    obtain ⟨e, he, hres⟩ := hat'.read hL (by norm_num : 30720 < 2 ^ 31) [] trivial
    obtain rfl := hd'.unique he
    rw [hres.ret]
    unfold plainRet
    rw [if_pos (by omega)]
    rfl
  have hbad : d.ret = 0 := by
    obtain ⟨b, hbegun, hb, hstart⟩ := TftpRead.start_begun c.t 30721 30720
    rw [hstart] at hd
    obtain ⟨hs, ⟨-, hzero⟩ | ⟨k, hl, hk, hk'⟩⟩ := hat
    · cases hzero
    obtain rfl : k = 1 := by omega
    rw [← hb] at hl
    rw [hbegun.seek_next (by norm_num) (by rw [hl.basepos]; norm_num)] at hd
    rcases hbegun.next_loaded hL hs (by norm_num) hl hk (.inr hk') with hdone | hfill
    · obtain ⟨j, hj, hj1, hj2⟩ := hdone.loaded
      have hbase := hj.basepos
      rw [TftpRead.next_basepos, hl.basepos] at hbase
      omega
    · have hsilent : (b.next.get file []).1 = -1 := rfl
      have hfail := hfill.fail_far (by norm_num) hsilent (by norm_num)
      have hend : b.next.Ends file [[]] (b.next.step file []) := .of_step (TftpRead.ends_of_returned hfail _)
      obtain rfl := hd.unique hend
      unfold TftpRead.ret
      rw [hfail]
  rw [hbad, hgood] at hret
  cases hret

end LinboxRescue
