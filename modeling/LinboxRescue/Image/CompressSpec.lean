import LinboxRescue.Lib.Fuel
import LinboxRescue.Lib.Tape
import LinboxRescue.Image.Compress

/-!
# What `compress_volume` writes

1. `compressData_more`: the drain loop ends, gives `deflate` exactly the data and writes exactly what
   it puts out; `compressData_fin` closes the stream.
2. `readBits_spec`: over the bits of a slice the sector loop appends to the stream the sectors
   `gather` reads, an unreadable one being replaced by what the buffer held in its slot (`fills`).
3. `compressChunk_spec`, `compressVolume_spec`: chunk `i` is a stream of the header and the sectors
   of slice `i`, and the head of the source moves on as `gatherEnd` says.
-/

namespace LinboxRescue

/-! ## The drain loop -/

section Deflate

variable {m : ZMachine} {S : DeflateStates m} {P : m.σ → Prop}

/-- `c` is writing a stream that has taken in `X`, with `k` flush requests so far. -/
structure Writing (P : m.σ → Prop) (c : Compress m) (X : Bytes) (k : ℕ) : Prop where
  emits : Emits m X (c.file ++ c.outbuff) k c.z
  state : P c.z
  room : c.outbuff.length < 8192
  state_ne : c.state ≠ .finish

/-- The fields the drain loop does not touch. -/
structure Compress.SameCounters (c c' : Compress m) : Prop where
  ended : c'.ended = c.ended
  header : c'.header = c.header
  compressedBlocks : c'.compressedBlocks = c.compressedBlocks
  cbytes : c'.cbytes = c.cbytes

theorem Emits.call_le {X F : Bytes} {k : ℕ} {s : m.σ} (h : Emits m X F k s) (fl : ZFlush)
    (inp : Bytes) (n : ℕ) : ∃ k' ≤ k + 1,
      Emits m (X ++ inp.take (m.call s fl inp n).used) (F ++ (m.call s fl inp n).out) k'
        (m.call s fl inp n).next :=
  ⟨_, by split_ifs <;> omega, h.call fl inp n⟩

/-- `c` after a call that returned `r`, its output still in `outbuff`. -/
def Compress.after (c : Compress m) (r : ZCall m.σ) : Compress m :=
  { c with z := r.next, outbuff := c.outbuff ++ r.out }

/-- `c` with the full output buffer written to the file. -/
def Compress.spill (c : Compress m) : Compress m :=
  { c with file := c.file ++ c.outbuff, outbuff := [] }

theorem deflateLoop_full {fin : Bool} {c : Compress m} {inp : Bytes} {r : ZCall m.σ}
    (hr : r = m.call c.z (if fin then .finish else c.state) inp (8192 - c.outbuff.length))
    (h : (c.outbuff ++ r.out).length = 8192) (fuel : ℕ) :
    deflateLoop m fin (fuel + 1) c inp = deflateLoop m fin fuel (c.after r).spill (inp.drop r.used) := by
  subst hr
  rw [deflateLoop]
  simp only [h, if_true]
  rfl

/-- A call that leaves room, takes all the input and is not the last. -/
theorem deflateLoop_stop {c : Compress m} {inp : Bytes} {r : ZCall m.σ}
    (hr : r = m.call c.z c.state inp (8192 - c.outbuff.length))
    (h : (c.outbuff ++ r.out).length ≠ 8192) (hu : r.used = inp.length) (hok : r.ret = .ok)
    (fuel : ℕ) :
    deflateLoop m false (fuel + 1) c inp = .ok { c.after r with state := .noFlush } := by
  subst hr
  rw [deflateLoop]
  simp only [Bool.false_eq_true, if_false, h, hu, List.drop_length, hok, ne_eq, not_true_eq_false,
    or_self, and_true]
  by_cases hs : c.state = .noFlush
  · simp only [hs, not_true_eq_false, if_false]
    rw [← hs]
    rfl
  · simp only [hs, not_false_eq_true, if_true]
    rfl

theorem deflateLoop_end {c : Compress m} {inp : Bytes} {r : ZCall m.σ}
    (hr : r = m.call c.z .finish inp (8192 - c.outbuff.length))
    (h : (c.outbuff ++ r.out).length ≠ 8192) (hend : r.ret = .streamEnd) :
    ∃ st, ∀ fuel,
      deflateLoop m true (fuel + 1) c inp = .ok { (c.after r).spill with state := st } := by
  subst hr
  by_cases hs : c.state ≠ .noFlush ∧ inp.drop (m.call c.z .finish inp (8192 - c.outbuff.length)).used = []
  · refine ⟨.noFlush, fun fuel => ?_⟩
    rw [deflateLoop]
    simp only [if_true, h, if_false, hend, if_pos hs]
    rfl
  · refine ⟨c.state, fun fuel => ?_⟩
    rw [deflateLoop]
    simp only [if_true, h, if_false, hend, if_neg hs]
    rfl

variable (hm : DeflateContract m S)

theorem Writing.pos_room {c : Compress m} {X : Bytes} {k : ℕ} (hw : Writing P c X k) :
    0 < 8192 - c.outbuff.length := by
  have := hw.room; omega

/-- The stream after a call that filled the buffer. -/
theorem Writing.spill {c : Compress m} {X inp : Bytes} {k : ℕ} (hw : Writing P c X k)
    {Q : m.σ → Prop} {fl : ZFlush} {r : ZCall m.σ}
    (hr : r = m.call c.z fl inp (8192 - c.outbuff.length)) (ho : Q r.next) :
    ∃ k' ≤ k + 1, Writing Q (c.after r).spill (X ++ inp.take r.used) k' := by
  obtain ⟨k', hk, he⟩ := hw.emits.call_le fl inp (8192 - c.outbuff.length)
  subst hr
  refine ⟨k', hk, ?_, ho, by simp [Compress.spill], hw.state_ne⟩
  simpa only [Compress.spill, Compress.after, List.append_nil, List.append_assoc] using he

theorem Writing.length_full {c : Compress m} {X : Bytes} {k : ℕ} (hw : Writing P c X k)
    {r : ZCall m.σ} (hout : r.out.length = 8192 - c.outbuff.length) :
    (c.outbuff ++ r.out).length = 8192 := by
  rw [List.length_append, hout]; have := hw.room; omega

theorem Writing.length_room {c : Compress m} {X : Bytes} {k : ℕ} (hw : Writing P c X k)
    {r : ZCall m.σ} (hout : r.out.length < 8192 - c.outbuff.length) :
    (c.outbuff ++ r.out).length < 8192 := by
  rw [List.length_append]; have := hw.room; omega

theorem Compress.length_file_spill {c : Compress m} {r : ZCall m.σ}
    (h : (c.outbuff ++ r.out).length = 8192) :
    (c.after r).spill.file.length = c.file.length + 8192 := by
  show (c.file ++ (c.outbuff ++ r.out)).length = _
  rw [List.length_append, h]

/-- The loop without `end` takes in all of `inp`. Flush requests beyond the first are paid for by
the buffers written. -/
def Takes (P : m.σ → Prop) (c : Compress m) (inp X : Bytes) (k : ℕ) : Prop :=
  ∃ c' k', Returns (fun fuel => deflateLoop m false fuel c inp) c' ∧ Writing P c' (X ++ inp) k' ∧
    c.SameCounters c' ∧ 8192 * k' + c.file.length ≤ 8192 * (k + 1) + c'.file.length

theorem Takes.of_full {c : Compress m} {inp X : Bytes} {k k₁ : ℕ} {r : ZCall m.σ}
    (hr : r = m.call c.z c.state inp (8192 - c.outbuff.length))
    (hlen : (c.outbuff ++ r.out).length = 8192) (hk : k₁ ≤ k + 1)
    (h : Takes P (c.after r).spill (inp.drop r.used) (X ++ inp.take r.used) k₁) :
    Takes P c inp X k := by
  obtain ⟨c', k', hret, hw', hsame, hbound⟩ := h
  refine ⟨c', k', Returns.step (deflateLoop_full hr hlen) hret, ?_,
    ⟨hsame.1, hsame.2, hsame.3, hsame.4⟩, ?_⟩
  · rwa [List.append_assoc, List.take_append_drop] at hw'
  · have := Compress.length_file_spill hlen
    omega

theorem Takes.of_room {c : Compress m} {inp X : Bytes} {k : ℕ} (hw : Writing P c X k)
    {r : ZCall m.σ} (hr : r = m.call c.z c.state inp (8192 - c.outbuff.length))
    (hok : r.ret = .ok) (ho : P r.next) (hout : r.out.length < 8192 - c.outbuff.length)
    (hused : r.used = inp.length) : Takes P c inp X k := by
  have hroom := hw.length_room hout
  obtain ⟨k₁, hk₁, he⟩ := hw.emits.call_le c.state inp (8192 - c.outbuff.length)
  rw [← hr, hused, List.take_length] at he
  refine ⟨_, k₁, Returns.last (deflateLoop_stop hr hroom.ne hused hok), ⟨?_, ho, hroom, ?_⟩,
    ⟨rfl, rfl, rfl, rfl⟩, ?_⟩
  · simpa only [Compress.after, List.append_assoc] using he
  · exact fun h => by cases h
  · show 8192 * k₁ + c.file.length ≤ 8192 * (k + 1) + c.file.length
    omega

include hm in
/-- The induction is on the output still due: a call that fills the empty buffer makes it
smaller. -/
theorem takes_of_empty (N : ℕ) : ∀ {c : Compress m} {inp X : Bytes} {k : ℕ},
    S.left c.z c.state inp.length ≤ N → c.outbuff = [] → Writing S.isOpen c X k →
      (inp ≠ [] ∨ S.full c.z) → Takes S.isOpen c inp X k := by
  induction N using Nat.strong_induction_on with
  | _ N ih =>
    intro c inp X k hN hempty hw hin
    obtain ⟨r, hr⟩ : ∃ r, r = m.call c.z c.state inp (8192 - c.outbuff.length) := ⟨_, rfl⟩
    have hstep := hm.more c.z c.state inp _ hw.state hw.state_ne hw.pos_room hin
    rw [← hr] at hstep
    obtain ⟨⟨hok, ho, hcase⟩, hdrain⟩ := hstep
    rcases hcase with ⟨hfull, hout⟩ | ⟨hout, hused⟩
    · obtain ⟨k₁, hk₁, hw₁⟩ := hw.spill hr ho
      have hless : S.left r.next c.state (inp.drop r.used).length < N := by
        rw [List.length_drop]
        exact lt_of_lt_of_le (hdrain (by rw [hempty]; simp) hout hok) hN
      exact Takes.of_full hr (hw.length_full hout) hk₁ (ih _ hless le_rfl rfl hw₁ (.inr hfull))
    · exact Takes.of_room hw hr hok ho hout hused

include hm in
theorem takes {c : Compress m} {inp X : Bytes} {k : ℕ} (hw : Writing S.isOpen c X k)
    (hin : inp ≠ []) : Takes S.isOpen c inp X k := by
  obtain ⟨r, hr⟩ : ∃ r, r = m.call c.z c.state inp (8192 - c.outbuff.length) := ⟨_, rfl⟩
  have hstep := (hm.more c.z c.state inp _ hw.state hw.state_ne hw.pos_room (.inl hin)).1
  rw [← hr] at hstep
  obtain ⟨hok, ho, ⟨hfull, hout⟩ | ⟨hout, hused⟩⟩ := hstep
  · obtain ⟨k₁, hk₁, hw₁⟩ := hw.spill hr ho
    exact Takes.of_full hr (hw.length_full hout) hk₁
      (takes_of_empty hm _ le_rfl rfl hw₁ (.inr hfull))
  · exact Takes.of_room hw hr hok ho hout hused

/-- The loop with `end` takes in all of `inp` and finishes the stream. -/
def Finishes (c : Compress m) (inp X : Bytes) (k : ℕ) : Prop :=
  ∃ c' k', Returns (fun fuel => deflateLoop m true fuel c inp) c' ∧ Stream m (X ++ inp) c'.file k' ∧
    c'.outbuff = [] ∧ c.SameCounters c' ∧
      8192 * k' + c.file.length ≤ 8192 * (k + 1) + c'.file.length

theorem Finishes.of_full {c : Compress m} {inp X : Bytes} {k k₁ : ℕ} {r : ZCall m.σ}
    (hr : r = m.call c.z .finish inp (8192 - c.outbuff.length))
    (hlen : (c.outbuff ++ r.out).length = 8192) (hk : k₁ ≤ k + 1)
    (h : Finishes (c.after r).spill (inp.drop r.used) (X ++ inp.take r.used) k₁) :
    Finishes c inp X k := by
  obtain ⟨c', k', hret, hs, hempty, hsame, hbound⟩ := h
  refine ⟨c', k', Returns.step (deflateLoop_full hr hlen) hret, ?_, hempty,
    ⟨hsame.1, hsame.2, hsame.3, hsame.4⟩, ?_⟩
  · rwa [List.append_assoc, List.take_append_drop] at hs
  · have := Compress.length_file_spill hlen
    omega

include hm in
/-- The stream ends in a call that takes the rest of the input. When its output just fills the
buffer, `deflate` is asked once more and has nothing to add. -/
theorem Finishes.of_end {c : Compress m} {inp X : Bytes} {k : ℕ} (hw : Writing P c X k)
    {r : ZCall m.σ} (hr : r = m.call c.z .finish inp (8192 - c.outbuff.length))
    (hend : r.ret = .streamEnd) (he : S.ended r.next) (hused : r.used = inp.length) :
    Finishes c inp X k := by
  have hout : r.out.length ≤ 8192 - c.outbuff.length := by rw [hr]; exact m.out_le _ _ _ _
  have hs := Stream.mk hw.emits inp (8192 - c.outbuff.length) (by rw [← hr]; exact hend)
  rw [← hr, hused, List.take_length, List.append_assoc] at hs
  rcases hout.lt_or_eq with hlt | heq
  · obtain ⟨st, hst⟩ := deflateLoop_end hr (hw.length_room hlt).ne hend
    refine ⟨_, k + 1, Returns.last hst, hs, rfl, ⟨rfl, rfl, rfl, rfl⟩, ?_⟩
    show _ ≤ 8192 * (k + 1) + (c.file ++ (c.outbuff ++ r.out)).length
    rw [List.length_append]; omega
  · have hlen := hw.length_full heq
    obtain ⟨r₂, hr₂⟩ : ∃ r₂, r₂ = m.call r.next .finish (inp.drop r.used) 8192 := ⟨_, rfl⟩
    obtain ⟨hret₂, hout₂⟩ : r₂.ret = .streamEnd ∧ r₂.out = [] := by
      rw [hr₂, hused, List.drop_length]; exact hm.ended r.next 8192 he (by omega)
    obtain ⟨st, hst⟩ := deflateLoop_end (c := (c.after r).spill) hr₂
      (by rw [hout₂]; simp [Compress.spill]) hret₂
    have hfile : ((c.after r).spill.after r₂).spill.file = c.file ++ (c.outbuff ++ r.out) := by
      simp [Compress.spill, Compress.after, hout₂]
    refine ⟨_, k + 1, Returns.step (deflateLoop_full hr hlen) (Returns.last hst), ?_, rfl,
      ⟨rfl, rfl, rfl, rfl⟩, ?_⟩
    · rw [← hfile] at hs; exact hs
    · show _ ≤ _ + ((c.after r).spill.after r₂).spill.file.length
      rw [hfile, List.length_append]; omega

include hm in
theorem finishes_of_empty (N : ℕ) : ∀ {c : Compress m} {inp X : Bytes} {k : ℕ},
    S.left c.z .finish inp.length ≤ N → c.outbuff = [] →
    Writing (S.closing · inp.length) c X k → Finishes c inp X k := by
  induction N using Nat.strong_induction_on with
  | _ N ih =>
    intro c inp X k hN hempty hw
    obtain ⟨r, hr⟩ : ∃ r, r = m.call c.z .finish inp (8192 - c.outbuff.length) := ⟨_, rfl⟩
    have hstep := hm.finish c.z inp _ (.inr hw.state) hw.pos_room
    rw [← hr] at hstep
    obtain ⟨⟨hok, hcl, hout⟩ | ⟨hend, he, hused⟩, hdrain⟩ := hstep
    · rw [← List.length_drop] at hcl
      obtain ⟨k₁, hk₁, hw₁⟩ := hw.spill (Q := (S.closing · (inp.drop r.used).length)) hr hcl
      have hless : S.left r.next .finish (inp.drop r.used).length < N := by
        rw [List.length_drop]
        exact lt_of_lt_of_le (hdrain (by rw [hempty]; simp) hout hok) hN
      exact Finishes.of_full hr (hw.length_full hout) hk₁ (ih _ hless le_rfl rfl hw₁)
    · exact Finishes.of_end hm hw hr hend he hused

include hm in
theorem finishes {c : Compress m} {X : Bytes} {k : ℕ} (hw : Writing S.isOpen c X k) (inp : Bytes) :
    Finishes c inp X k := by
  obtain ⟨r, hr⟩ : ∃ r, r = m.call c.z .finish inp (8192 - c.outbuff.length) := ⟨_, rfl⟩
  have hstep := (hm.finish c.z inp _ (.inl hw.state) hw.pos_room).1
  rw [← hr] at hstep
  rcases hstep with ⟨hok, hcl, hout⟩ | ⟨hend, he, hused⟩
  · rw [← List.length_drop] at hcl
    obtain ⟨k₁, hk₁, hw₁⟩ := hw.spill (Q := (S.closing · (inp.drop r.used).length)) hr hcl
    exact Finishes.of_full hr (hw.length_full hout) hk₁ (finishes_of_empty hm _ le_rfl rfl hw₁)
  · exact Finishes.of_end hm hw hr hend he hused

/-! ## `compress_data` and `compress_end` -/

theorem Writing.prepare {c : Compress m} {X : Bytes} {k : ℕ} (hw : Writing P c X k) (lg : ℕ)
    (fin : Bool) : Writing P (c.prepare lg fin) X k := by
  refine ⟨hw.emits, hw.state, hw.room, ?_⟩
  show (if _ then ZFlush.fullFlush else c.state) ≠ _
  split_ifs
  · exact fun h => by cases h
  · exact hw.state_ne

theorem writing_compressInit (hm : DeflateContract m S) (bytes : ℕ) :
    Writing S.isOpen (compressInit m bytes) [] 0 :=
  ⟨Emits.start, hm.start, by simp [compressInit], fun h => by cases h⟩

include hm in
/-- `compress_data` in the middle of a chunk. -/
theorem compressData_more {c : Compress m} {X data : Bytes} {k : ℕ} (hw : Writing S.isOpen c X k)
    (hd : data ≠ []) :
    ∃ c' k', Returns (fun fuel => compressData m fuel c data false) c' ∧
      Writing S.isOpen c' (X ++ data) k' ∧ c'.ended = c.ended ∧ c'.header = false ∧
      c'.cbytes = (if c.header then c.cbytes else c.cbytes + data.length) ∧
      8192 * k' + c.file.length ≤ 8192 * (k + 1) + c'.file.length := by
  obtain ⟨c', k', hret, hw', hsame, hb⟩ := takes hm (hw.prepare data.length false) hd
  refine ⟨c', k', hret, hw', ?_, hsame.header, hsame.cbytes, hb⟩
  rw [hsame.ended]; exact Bool.or_false _

include hm in
/-- `compress_data` with the last piece of a chunk. -/
theorem compressData_fin {c : Compress m} {X : Bytes} {k : ℕ} (hw : Writing S.isOpen c X k)
    (data : Bytes) :
    ∃ c' k', Returns (fun fuel => compressData m fuel c data true) c' ∧
      Stream m (X ++ data) c'.file k' ∧ c'.outbuff = [] ∧ c'.ended = true ∧
      c'.cbytes = (if c.header then c.cbytes else c.cbytes + data.length) ∧
      8192 * k' + c.file.length ≤ 8192 * (k + 1) + c'.file.length := by
  obtain ⟨c', k', hret, hs, hempty, hsame, hb⟩ := finishes hm (hw.prepare data.length true) data
  refine ⟨c', k', hret, hs, hempty, ?_, hsame.cbytes, hb⟩
  rw [hsame.ended]; exact Bool.or_true _

end Deflate

/-! ## The sector loop -/

/-- The buffer after a read into slot `j`. -/
def store (buf : Bytes) (j : ℕ) (r : Option Sector) : Bytes := readInto buf (512 * j) r

/-- The sectors that reads with the outcomes `rs` leave in the slots of the buffer, the first read
going to slot `j`. -/
def fills (buf : Bytes) (j : ℕ) : List (Option Sector) → List Sector
  | [] => []
  | r :: rs => Sector.ofMem (store buf j r) (512 * j) :: fills (store buf j r) ((j + 1) % 47) rs

/-- The buffer after these reads. -/
def stored (buf : Bytes) (j : ℕ) : List (Option Sector) → Bytes
  | [] => buf
  | r :: rs => stored (store buf j r) ((j + 1) % 47) rs

@[simp] theorem length_fills (buf : Bytes) (j : ℕ) (rs : List (Option Sector)) :
    (fills buf j rs).length = rs.length := by
  induction rs generalizing buf j with
  | nil => rfl
  | cons r rs ih => simp [fills, ih]

theorem fills_append (buf : Bytes) {j : ℕ} (hj : j < 47) (rs rs' : List (Option Sector)) :
    fills buf j (rs ++ rs') =
      fills buf j rs ++ fills (stored buf j rs) ((j + rs.length) % 47) rs' := by
  induction rs generalizing buf j with
  | nil => simp [fills, stored, Nat.mod_eq_of_lt hj]
  | cons r rs ih =>
    have hmod : ((j + 1) % 47 + rs.length) % 47 = (j + (rs.length + 1)) % 47 := by omega
    simp only [List.cons_append, fills, stored, List.length_cons, ih _ (Nat.mod_lt _ (by omega)),
      hmod]

theorem length_store {buf : Bytes} {j : ℕ} (hb : buf.length = 24064) (hj : j < 47)
    (r : Option Sector) : (store buf j r).length = 24064 := by
  cases r with
  | none => exact hb
  | some s => rw [store, readInto, length_overwrite (by rw [s.size]; omega), hb]

theorem ofMem_store_some {buf : Bytes} {j : ℕ} (hb : buf.length = 24064) (hj : j < 47) (s : Sector) :
    Sector.ofMem (store buf j (some s)) (512 * j) = s := by
  have hlen : (buf.take (512 * j)).length = 512 * j := by rw [List.length_take]; omega
  have h := @Sector.ofMem_bytes (buf.take (512 * j)) s (buf.drop (512 * j + s.bytes.length))
  rw [hlen] at h
  rw [store, readInto, overwrite, List.append_assoc]
  exact h

theorem length_stored {buf : Bytes} {j : ℕ} (hb : buf.length = 24064) (hj : j < 47)
    (rs : List (Option Sector)) : (stored buf j rs).length = 24064 := by
  induction rs generalizing buf j with
  | nil => exact hb
  | cons r rs ih => exact ih (length_store hb hj r) (Nat.mod_lt _ (by omega))

/-- The part of the buffer in use grows by the slot just filled. -/
theorem take_store {buf : Bytes} {j : ℕ} (hb : buf.length = 24064) (hj : j < 47)
    (r : Option Sector) :
    (store buf j r).take (512 * j + 512) =
      buf.take (512 * j) ++ (Sector.ofMem (store buf j r) (512 * j)).bytes := by
  have hkeep : (store buf j r).take (512 * j) = buf.take (512 * j) := by
    cases r with
    | none => rfl
    | some s => exact take_overwrite_of_le (by omega) le_rfl
  have hlen : (((store buf j r).drop (512 * j)).take 512).length = 512 := by
    rw [List.length_take, List.length_drop, length_store hb hj]; omega
  rw [List.take_add, hkeep]
  congr 1
  show _ = padTo 512 _
  rw [padTo_of_le hlen.le, hlen]
  simp

/-- The source with its head at sector `q`. -/
def Source.seekTo (d : Source) (q : ℕ) : Source := { d with off := 512 * q }

section Sectors

variable {m : ZMachine} {S : DeflateStates m} (hm : DeflateContract m S) (d : Source)

/-- The sector loop has saved the sectors `xs` after the header `hdr`, `n` bits are behind it and
the head of the source is due at sector `q`. -/
structure Reading (S : DeflateStates m) (d : Source) (hdr : Bytes) (bytes n q : ℕ) (xs : List Sector)
    (st : ReadState m) : Prop where
  source : st.fi = { d with off := st.fi.off }
  head : st.fi.off + st.skip = 512 * q
  length_buffer : st.buffer.length = 24064
  datalg : st.datalg = 512 * (xs.length % 47)
  stream : ∃ given k, Writing S.isOpen st.c (hdr ++ given) k ∧
    given ++ st.buffer.take st.datalg = sectorBytes xs ∧
    8192 * k ≤ 8192 * (1 + xs.length / 47) + st.c.file.length
  started : st.c.header = false
  open_ended : st.c.ended = false
  count : st.c.cbytes + st.skip + st.datalg = bytes + 512 * n

/-- Where a read with outcome `r` leaves the head. -/
def headAfter (q : ℕ) : Option Sector → ℕ
  | some _ => q + 1
  | none => q

theorem Source.read_seekTo (q : ℕ) :
    (d.seekTo q).read = (d.sector q, d.seekTo (headAfter q (d.sector q))) := by
  have hq : (d.seekTo q).sector ((d.seekTo q).off / 512) = d.sector q := by
    show (d.seekTo q).sector (512 * q / 512) = _
    rw [Nat.mul_div_cancel_left q (by omega)]
    rfl
  rw [Source.read, hq]
  cases d.sector q <;> rfl

variable {d} {hdr : Bytes} {bytes n q : ℕ} {xs : List Sector} {st : ReadState m}

theorem Reading.seek (hseek : ∀ o, d.seekable o = true) (h : Reading S d hdr bytes n q xs st) :
    (if st.skip ≠ 0 then st.fi.lseek st.skip else st.fi) = d.seekTo q := by
  have hoff := h.head
  have hs := h.source
  split_ifs with h0
  · rw [Source.lseek, hs, if_pos (hseek _)]
    show ({ d with off := st.fi.off + st.skip } : Source) = _
    rw [hoff]; rfl
  · rw [hs, Source.seekTo, show st.fi.off = 512 * q by omega]

theorem Reading.slot_lt : xs.length % 47 < 47 := Nat.mod_lt _ (by omega)

/-- The state after a read, before a full buffer is compressed. -/
def ReadState.readAt (st : ReadState m) (d : Source) (q j : ℕ) : ReadState m where
  fi := d.seekTo (headAfter q (d.sector q))
  skip := 0
  buffer := store st.buffer j (d.sector q)
  datalg := st.datalg + 512
  c := { st.c with cbytes := st.c.cbytes + st.skip }

theorem readBit_true (hseek : ∀ o, d.seekable o = true) (h : Reading S d hdr bytes n q xs st)
    (fuel : ℕ) :
    readBit m fuel st true =
      if st.datalg + 512 = 24064 then
        compressData m fuel (st.readAt d q (xs.length % 47)).c
            (st.readAt d q (xs.length % 47)).buffer false >>= fun c =>
          .ok { st.readAt d q (xs.length % 47) with datalg := 0, c }
      else .ok (st.readAt d q (xs.length % 47)) := by
  have hbuf : ∀ r, readInto st.buffer st.datalg r = store st.buffer (xs.length % 47) r := by
    intro r
    rw [store, h.datalg]
  rw [readBit, if_neg (by simp), h.seek hseek]
  simp only [Source.read_seekTo, hbuf]
  rfl

theorem Reading.skipBit (h : Reading S d hdr bytes n q xs st) :
    Reading S d hdr bytes (n + 1) (q + 1) xs { st with skip := st.skip + 512 } where
  source := h.source
  head := by have := h.head; show st.fi.off + (st.skip + 512) = _; omega
  length_buffer := h.length_buffer
  datalg := h.datalg
  stream := h.stream
  started := h.started
  open_ended := h.open_ended
  count := by have := h.count; show st.c.cbytes + (st.skip + 512) + st.datalg = _; omega

/-- The bytes saved by a read: those of the slot. -/
theorem Reading.take_readAt (h : Reading S d hdr bytes n q xs st) {given : Bytes}
    (hg : given ++ st.buffer.take st.datalg = sectorBytes xs) :
    given ++ (st.readAt d q (xs.length % 47)).buffer.take (st.datalg + 512) =
      sectorBytes (xs ++ fills st.buffer (xs.length % 47) [d.sector q]) := by
  show given ++ (store st.buffer _ _).take _ = _
  rw [sectorBytes_append, ← hg, h.datalg, take_store h.length_buffer Reading.slot_lt]
  simp [fills, sectorBytes]

include hm in
/-- A used sector: it is read into the next slot, and a full buffer is compressed. -/
theorem Reading.readBit_true (hseek : ∀ o, d.seekable o = true)
    (h : Reading S d hdr bytes n q xs st) :
    ∃ st', Returns (fun fuel => readBit m fuel st true) st' ∧
      Reading S d hdr bytes (n + 1) (headAfter q (d.sector q))
        (xs ++ fills st.buffer (xs.length % 47) [d.sector q]) st' ∧
      st'.buffer = store st.buffer (xs.length % 47) (d.sector q) := by
  obtain ⟨given, k, hw, hg, hk⟩ := h.stream
  have hg' := h.take_readAt hg
  have hlen : (xs ++ fills st.buffer (xs.length % 47) [d.sector q]).length = xs.length + 1 := by
    simp
  have hbuf : (st.readAt d q (xs.length % 47)).buffer.length = 24064 :=
    length_store h.length_buffer Reading.slot_lt _
  have hw₁ : Writing S.isOpen (st.readAt d q (xs.length % 47)).c (hdr ++ given) k :=
    ⟨hw.1, hw.2, hw.3, hw.4⟩
  have hcount := h.count
  have hdl := h.datalg
  have hslot : xs.length % 47 < 47 := Reading.slot_lt
  by_cases hfull : st.datalg + 512 = 24064
  · have hne : (st.readAt d q (xs.length % 47)).buffer ≠ [] := by
      intro e; rw [e] at hbuf; simp at hbuf
    obtain ⟨c', k', hret, hw', hend, hhd, hcb, hb⟩ := compressData_more hm hw₁ hne
    refine ⟨{ st.readAt d q (xs.length % 47) with datalg := 0, c := c' }, ?_, ?_, rfl⟩
    · refine Returns.congr (fun fuel => ?_) (Returns.bind hret
        (g := fun _ c => .ok { st.readAt d q (xs.length % 47) with datalg := 0, c })
        (Returns.pure _))
      rw [LinboxRescue.readBit_true hseek h, if_pos hfull]
    · refine ⟨rfl, rfl, hbuf, ?_, ⟨given ++ (st.readAt d q (xs.length % 47)).buffer, k', ?_, ?_, ?_⟩,
        hhd, hend.trans h.open_ended, ?_⟩
      · show 0 = _
        rw [hlen]; omega
      · rwa [List.append_assoc] at hw'
      · rw [hfull, List.take_of_length_le hbuf.le] at hg'
        simpa using hg'
      · have hb' : 8192 * k' + st.c.file.length ≤ 8192 * (k + 1) + c'.file.length := hb
        show 8192 * k' ≤ 8192 * (1 + _ / 47) + c'.file.length
        rw [hlen]; omega
      · have hcb' : c'.cbytes = st.c.cbytes + st.skip + 24064 := by
          rw [hcb, show (st.readAt d q (xs.length % 47)).c.header = false from h.started, hbuf]
          simp only [Bool.false_eq_true, if_false, ReadState.readAt]
        simp only [ReadState.readAt]
        linarith only [hcb', hcount, hfull]
  · refine ⟨st.readAt d q (xs.length % 47), ?_, ?_, rfl⟩
    · refine Returns.congr (fun fuel => ?_) (Returns.pure _)
      rw [LinboxRescue.readBit_true hseek h, if_neg hfull]
    · refine ⟨rfl, rfl, hbuf, ?_, ⟨given, k, hw₁, hg', ?_⟩, h.started, h.open_ended, ?_⟩
      · show st.datalg + 512 = _
        rw [hlen]; omega
      · show 8192 * k ≤ 8192 * (1 + _ / 47) + st.c.file.length
        rw [hlen]; omega
      · show st.c.cbytes + st.skip + 0 + (st.datalg + 512) = _
        omega

include hm in
/-- **The sector loop.** -/
theorem readBits_spec (hseek : ∀ o, d.seekable o = true) (bs : List Bool) :
    ∀ {n q : ℕ} {xs : List Sector} {st : ReadState m}, Reading S d hdr bytes n q xs st →
      ∃ st', Returns (fun fuel => bs.foldlM (readBit m fuel) st) st' ∧
        Reading S d hdr bytes (n + bs.length) (gatherEnd d.sector q bs)
          (xs ++ fills st.buffer (xs.length % 47) (gather d.sector q bs)) st' ∧
        st'.buffer = stored st.buffer (xs.length % 47) (gather d.sector q bs) := by
  induction bs with
  | nil =>
    intro n q xs st h
    exact ⟨st, Returns.pure st, by simpa [gather, gatherEnd, fills] using h, rfl⟩
  | cons b bs ih =>
    intro n q xs st h
    cases b with
    | false =>
      obtain ⟨st', hret, hr, hb⟩ := ih h.skipBit
      refine ⟨st', Returns.congr (fun fuel => ?_) hret, ?_, hb⟩
      · rw [List.foldlM_cons, readBit, if_pos rfl]; rfl
      · rw [List.length_cons, show n + (bs.length + 1) = n + 1 + bs.length by ring]; exact hr
    | true =>
      obtain ⟨st₁, hret₁, hr₁, hb₁⟩ := h.readBit_true hm hseek
      obtain ⟨st', hret, hr, hb⟩ := ih hr₁
      have hmod : (xs ++ fills st.buffer (xs.length % 47) [d.sector q]).length % 47 =
          (xs.length % 47 + 1) % 47 := by
        simp
      rw [hmod, hb₁] at hr hb
      have hg : gather d.sector q (true :: bs) =
          d.sector q :: gather d.sector (headAfter q (d.sector q)) bs := by
        cases hs : d.sector q <;> simp [gather, headAfter, hs]
      have hge : gatherEnd d.sector q (true :: bs) =
          gatherEnd d.sector (headAfter q (d.sector q)) bs := by
        cases hs : d.sector q <;> simp [gatherEnd, headAfter, hs]
      refine ⟨st', Returns.congr (fun fuel => List.foldlM_cons) (Returns.bind hret₁ hret), ?_, ?_⟩
      · rw [hg, hge, List.length_cons, show n + (bs.length + 1) = n + 1 + bs.length by ring]
        rw [List.append_assoc] at hr
        exact hr
      · rw [hb, hg]; rfl

include hm in
/-- The end of a chunk: the sectors left in the buffer are compressed and the stream is closed,
once. -/
theorem Reading.close (h : Reading S d hdr bytes n q xs st) :
    ∃ c' k', Returns (fun fuel => closeChunk m fuel st) c' ∧
      Stream m (hdr ++ sectorBytes xs) c'.file k' ∧ c'.cbytes = bytes + 512 * n ∧
      8192 * k' ≤ 8192 * (2 + xs.length / 47) + c'.file.length := by
  obtain ⟨given, k, hw, hg, hk⟩ := h.stream
  have hcount := h.count
  have hslot : xs.length % 47 < 47 := Reading.slot_lt
  by_cases hd : 0 < st.datalg
  · obtain ⟨c', k', hret, hs, hempty, hend, hcb, hb⟩ :=
      compressData_fin hm hw (st.buffer.take st.datalg)
    refine ⟨{ c' with cbytes := c'.cbytes + st.skip }, k', ?_, ?_, ?_, ?_⟩
    · simp only [closeChunk, hd, if_true]
      refine Returns.bind hret (Returns.congr (fun fuel => ?_) (Returns.pure _))
      rw [compressEnd, if_neg (by simp [hempty, hend])]
    · rwa [List.append_assoc, hg] at hs
    · have hlen : (st.buffer.take st.datalg).length = st.datalg := by
        have hdl := h.datalg
        rw [List.length_take, h.length_buffer]; omega
      rw [h.started, hlen] at hcb
      show c'.cbytes + st.skip = _
      simp only [Bool.false_eq_true, if_false] at hcb
      omega
    · show 8192 * k' ≤ 8192 * (2 + xs.length / 47) + c'.file.length
      omega
  · have hw₁ : Writing S.isOpen { st.c with cbytes := st.c.cbytes + st.skip } (hdr ++ given) k :=
      ⟨hw.1, hw.2, hw.3, hw.4⟩
    obtain ⟨c', k', hret, hs, -, -, hcb, hb⟩ := compressData_fin hm hw₁ []
    refine ⟨c', k', ?_, ?_, ?_, ?_⟩
    · simp only [closeChunk, hd, if_false]
      refine Returns.congr (fun fuel => ?_) hret
      show compressEnd m fuel { st.c with cbytes := st.c.cbytes + st.skip } = _
      rw [compressEnd, if_pos (.inr h.open_ended)]
    · rw [show st.datalg = 0 by omega, List.take_zero, List.append_nil] at hg
      rwa [List.append_nil, hg] at hs
    · rw [hcb]
      simp only [h.started, Bool.false_eq_true, if_false, List.length_nil]
      omega
    · have hb' : 8192 * k' + st.c.file.length ≤ 8192 * (k + 1) + c'.file.length := hb
      omega

end Sectors

/-! ## Chunks and volumes -/

section Volumes

variable {z : Zlib} (hz : z.Contract) {d : Source} (hseek : ∀ o, d.seekable o = true)

/-- The sectors saved for a table slice when the source stands at sector `q`. -/
def savedSectors (d : Source) (buffer : Bytes) (q : ℕ) (slice : Bytes) : List Sector :=
  fills buffer 0 (gather d.sector q (bits slice))

theorem length_savedSectors (buffer : Bytes) (q : ℕ) (slice : Bytes) :
    (savedSectors d buffer q slice).length = (bits slice).count true := by
  rw [savedSectors, length_fills, length_gather]

include hz hseek in
/-- **One chunk**: a stream of the header and of the saved sectors. -/
theorem compressChunk_spec (name : Bytes) (options : Options) (i : ℕ) (first slice : Bytes)
    {v : Volume} {q : ℕ} (hfi : v.fi = d.seekTo q) (hbuf : v.buffer.length = 24064) :
    ∃ F k v', Returns (fun fuel => compressChunk z fuel name options i first slice v) v' ∧
      v'.dir = Function.update v.dir (chunkName name i) (some F) ∧
      v'.fi = d.seekTo (gatherEnd d.sector q (bits slice)) ∧
      v'.buffer = stored v.buffer 0 (gather d.sector q (bits slice)) ∧
      v'.bytes = v.bytes + 4096 * slice.length ∧
      Stream z.deflate
        (imageHeader (headerText first (filestring options i) slice.length) slice ++
          sectorBytes (savedSectors d v.buffer q slice)) F k ∧
      8192 * k ≤ 8192 * (2 + (bits slice).count true / 47) + F.length := by
  obtain ⟨S, hm⟩ := hz.deflates
  obtain ⟨hdr, hhdr⟩ :
    ∃ hdr, hdr = imageHeader (headerText first (filestring options i) slice.length) slice := ⟨_, rfl⟩
  have hne : hdr ≠ [] := by
    intro e
    have := length_imageHeader (headerText first (filestring options i) slice.length) slice
    rw [← hhdr, e] at this; simp at this
  obtain ⟨c₀, k₀, hret₀, hw₀, hend₀, hhd₀, hcb₀, hb₀⟩ :=
    compressData_more hm (writing_compressInit hm v.bytes) hne
  have hread : Reading S d hdr v.bytes 0 q []
      { fi := v.fi, skip := 0, buffer := v.buffer, datalg := 0, c := c₀ } := by
    refine ⟨by rw [hfi]; rfl, by rw [hfi]; rfl, hbuf, rfl, ⟨[], k₀, ?_, rfl, ?_⟩, hhd₀, hend₀, ?_⟩
    · simpa using hw₀
    · simpa [compressInit] using hb₀
    · simpa [compressInit] using hcb₀
  obtain ⟨st, hret₁, hr₁, hst⟩ := readBits_spec hm hseek (bits slice) hread
  obtain ⟨c', k', hret₂, hs, hcb, hk⟩ := hr₁.close hm
  rw [List.nil_append] at hs hk
  have hseek' := hr₁.seek hseek
  refine ⟨c'.file, k', ⟨Function.update v.dir (chunkName name i) (some c'.file),
    d.seekTo (gatherEnd d.sector q (bits slice)), st.buffer, c'.cbytes⟩, ?_, rfl, rfl, hst, ?_, ?_, ?_⟩
  · refine Returns.bind (by rw [← hhdr]; exact hret₀) (Returns.bind hret₁ ?_)
    refine Returns.bind hret₂ ?_
    simp only [hseek']
    exact Returns.pure _
  · show c'.cbytes = _
    rw [hcb, length_bits]; ring
  · rw [← hhdr]; exact hs
  · rw [List.length_nil, Nat.zero_mod] at hk
    change 8192 * k' ≤ 8192 * (2 + (savedSectors d v.buffer q slice).length / 47) + _ at hk
    rwa [length_savedSectors] at hk

/-! ### Images -/

/-- A chunk before compression. -/
structure Chunk where
  text : Bytes
  slice : Bytes
  sectors : List Sector
  slice_le : slice.length ≤ 22016
  length_sectors : sectors.length = (bits slice).count true

def Chunk.header (c : Chunk) : Bytes := imageHeader c.text c.slice

/-- What is compressed. -/
def Chunk.payload (c : Chunk) : Bytes := c.header ++ sectorBytes c.sectors

/-- The bitmap of an image. -/
def imageBits (cs : List Chunk) : List Bool := cs.flatMap fun c => bits c.slice

/-- The sectors of an image. -/
def imageSectors (cs : List Chunk) : List Sector := cs.flatMap Chunk.sectors

theorem imageBits_cons (c : Chunk) (cs : List Chunk) :
    imageBits (c :: cs) = bits c.slice ++ imageBits cs := rfl

theorem imageSectors_cons (c : Chunk) (cs : List Chunk) :
    imageSectors (c :: cs) = c.sectors ++ imageSectors cs := rfl

theorem length_imageSectors (cs : List Chunk) :
    (imageSectors cs).length = (imageBits cs).count true := by
  induction cs with
  | nil => rfl
  | cons c cs ih =>
    rw [imageSectors_cons, imageBits_cons, List.length_append, List.count_append, ih,
      c.length_sectors]

/-- The chunks written for a table when the source stands at sector `q` and the read buffer holds
`buffer`. -/
def savedChunks (d : Source) : ℕ → Bytes → Bytes → Bytes → ℕ → List Chunk
  | 0, _, _, _, _ => []
  | n + 1, first, rest, buffer, q =>
    { text := headerText first [] (rest.take 22016).length
      slice := rest.take 22016
      sectors := savedSectors d buffer q (rest.take 22016)
      slice_le := List.length_take_le _ _
      length_sectors := length_savedSectors _ _ _ } ::
    savedChunks d n [] (rest.drop 22016) (stored buffer 0 (gather d.sector q (bits (rest.take 22016))))
      (gatherEnd d.sector q (bits (rest.take 22016)))

@[simp] theorem length_savedChunks (n : ℕ) (first rest buffer : Bytes) (q : ℕ) :
    (savedChunks d n first rest buffer q).length = n := by
  induction n generalizing first rest buffer q with
  | zero => rfl
  | succ n ih => rw [savedChunks, List.length_cons, ih]

/-- Enough chunks cover the whole table. -/
theorem imageBits_savedChunks {n : ℕ} {rest : Bytes} (h : rest.length ≤ 22016 * n)
    (first buffer : Bytes) (q : ℕ) : imageBits (savedChunks d n first rest buffer q) = bits rest := by
  induction n generalizing rest first buffer q with
  | zero =>
    rw [Nat.mul_zero, Nat.le_zero, List.length_eq_zero_iff] at h
    rw [h]; rfl
  | succ n ih =>
    rw [savedChunks, imageBits_cons, ih (by rw [List.length_drop]; omega), ← bits_append,
      List.take_append_drop]

/-- `F` is the file of chunk `c`: a stream of its bytes, written with not too many flushes. -/
def ChunkFile (z : Zlib) (c : Chunk) (F : Bytes) : Prop :=
  ∃ k, Stream z.deflate c.payload F k ∧
    8192 * k ≤ 8192 * (2 + (bits c.slice).count true / 47) + F.length

theorem ChunkFile.decodes {c : Chunk} {F : Bytes} (h : ChunkFile z c F) (hz : z.Contract) :
    Decodes z.inflate F c.payload := by
  obtain ⟨k, hs, -⟩ := h
  exact hz.undoes _ _ _ hs

theorem Chunk.length_payload (c : Chunk) :
    c.payload.length = 24064 + 512 * (bits c.slice).count true := by
  rw [Chunk.payload, List.length_append, Chunk.header, length_imageHeader, length_sectorBytes,
    c.length_sectors]

/-- A chunk file has fewer than 65535 blocks of 1456 bytes. -/
theorem ChunkFile.length_lt {c : Chunk} {F : Bytes} (h : ChunkFile z c F) (hg : z.Growth) :
    F.length < 1456 * 65535 := by
  obtain ⟨k, hs, hk⟩ := h
  have hF := hg _ _ _ hs
  have hcount : (bits c.slice).count true ≤ 176128 := by
    have h1 := List.count_le_length (a := true) (l := bits c.slice)
    rw [length_bits] at h1
    have := c.slice_le
    omega
  rw [c.length_payload] at hF
  omega

/-- The files `compress_volume` wrote for the chunks `cs`, the first of them having number `i`. -/
def Holds (z : Zlib) (dir : Dir) (name : Bytes) (i : ℕ) (cs : List Chunk) : Prop :=
  ∀ j c, cs[j]? = some c → ∃ F, dir (chunkName name (i + j)) = some F ∧ ChunkFile z c F

include hz hseek in
/-- **The chunk loop.** -/
theorem compressLoop_spec (name : Bytes) (n : ℕ) : ∀ {i : ℕ} {first rest : Bytes} {v : Volume} {q : ℕ},
    v.fi = d.seekTo q → v.buffer.length = 24064 →
    ∃ v', Returns (fun fuel => compressLoop z fuel name none n i first rest v) v' ∧
      Holds z v'.dir name i (savedChunks d n first rest v.buffer q) ∧
      ∀ f, (∀ j, f = chunkName name j → j < i ∨ i + n ≤ j) → v'.dir f = v.dir f := by
  induction n with
  | zero =>
    intro i first rest v q _ _
    exact ⟨v, Returns.pure v, fun j c h => by simp [savedChunks] at h, fun f _ => rfl⟩
  | succ n ih =>
    intro i first rest v q hfi hbuf
    obtain ⟨F, k, v₁, hret₁, hdir₁, hfi₁, hbuf₁, -, hs, hk⟩ :=
      compressChunk_spec hz hseek name none i first (rest.take 22016) hfi hbuf
    obtain ⟨v', hret, hholds, hkeep⟩ := @ih (i + 1) [] (rest.drop 22016) v₁ _ hfi₁
      (by rw [hbuf₁]; exact length_stored hbuf (by omega) _)
    rw [hbuf₁] at hholds
    have hlg : (if 22016 < rest.length then 22016 else rest.length) = min 22016 rest.length := by
      split_ifs <;> omega
    refine ⟨v', ?_, ?_, ?_⟩
    · refine Returns.congr (fun fuel => ?_) (Returns.bind hret₁ hret)
      rw [compressLoop]
      simp only [hlg, ← List.take_eq_take_min, ← List.drop_eq_drop_min]
    · intro j c hc
      cases j with
      | zero =>
        simp only [savedChunks, List.getElem?_cons_zero, Option.some.injEq] at hc
        subst hc
        refine ⟨F, ?_, ⟨k, hs, hk⟩⟩
        rw [hkeep _ fun j hj => ?_, hdir₁, Nat.add_zero, Function.update_self]
        left
        rw [← chunkName_injective name hj]; omega
      | succ j =>
        rw [show i + (j + 1) = i + 1 + j by ring]
        exact hholds j c hc
    · intro f hf
      rw [hkeep f fun j hj => by have := hf j hj; omega, hdir₁]
      refine Function.update_of_ne (fun e => ?_) _ _
      have := hf i e
      omega

theorem text_savedChunks {n : ℕ} {first rest buffer : Bytes} {q j : ℕ} {c : Chunk}
    (h : (savedChunks d n first rest buffer q)[j]? = some c) :
    c.text = headerText (if j = 0 then first else []) [] c.slice.length := by
  induction n generalizing first rest buffer q j with
  | zero => simp [savedChunks] at h
  | succ n ih =>
    cases j with
    | zero =>
      simp only [savedChunks, List.getElem?_cons_zero, Option.some.injEq] at h
      rw [← h, if_pos rfl]
    | succ j =>
      rw [if_neg (by omega), ih h, ite_self]

/-- The chunks `compress_volume` writes. -/
def volumeChunks (d : Source) (im : Imager) (p : Params) (buffer : Bytes) : List Chunk :=
  savedChunks d p.nb (firstString p.nbSect p.nb im.info) p.bitmap buffer 0

theorem Params.length_bitmap_le (p : Params) : p.bitmap.length ≤ 22016 * p.nb := by
  unfold Params.nb; omega

theorem Params.nb_lt (p : Params) : p.nb < 2 ^ 32 := by
  have := p.bitmap_lt
  unfold Params.nb; omega

theorem imageBits_volumeChunks (im : Imager) (p : Params) (buffer : Bytes) :
    imageBits (volumeChunks d im p buffer) = bits p.bitmap :=
  imageBits_savedChunks p.length_bitmap_le _ _ _

section Headers

variable {im : Imager} {p : Params} {buffer : Bytes} {j : ℕ} {c : Chunk}
  (h : (volumeChunks d im p buffer)[j]? = some c)

include h

theorem text_volumeChunks : c.text =
    if j = 0 then text₀ p.nbSect p.nb im c.slice.length else textₛ c.slice.length := by
  rw [text_savedChunks h]
  split_ifs <;> rfl

theorem headerInt_blocks_volumeChunks :
    headerInt (ascii "BLOCKS=") c.header = if j = 0 then some (p.nb : ℤ) else none := by
  rw [Chunk.header, text_volumeChunks h]
  split_ifs
  · exact headerInt_blocks _ p.nbSect_lt p.nb_lt c.slice_le
  · exact headerInt_blocks_later _ c.slice_le

theorem headerInt_alloc_volumeChunks :
    headerInt (ascii "ALLOCTABLELG=") c.header = some (c.slice.length : ℤ) := by
  rw [Chunk.header, text_volumeChunks h]
  split_ifs
  · exact headerInt_alloc _ p.nbSect_lt p.nb_lt c.slice_le
  · exact headerInt_alloc_later _ c.slice_le

end Headers

theorem chunkName_ne_idx (name : Bytes) (j : ℕ) : name ++ ascii "idx" ≠ chunkName name j := by
  intro h
  have h1 : ascii "idx" = pad3 j := List.append_cancel_left h
  have h2 : isDigit 105 = true := isDigit_of_mem_pad3 105 (by rw [← h1]; decide)
  exact absurd h2 (by decide)

include hz hseek in
/-- **A whole volume**: chunk `i` of `volumeChunks` is in the file number `i`; all other files but
the index are as before. -/
theorem compressVolume_spec (name : Bytes) (im : Imager) (p : Params) {buffer : Bytes}
    (hbuf : buffer.length = 24064) (dir : Dir) :
    ∃ v, Returns (fun fuel => compressVolume z fuel name none im p (d.seekTo 0) buffer dir) v ∧
      Holds z v.dir name 0 (volumeChunks d im p buffer) ∧
      ∀ f, f ≠ name ++ ascii "idx" → (∀ j < p.nb, f ≠ chunkName name j) → v.dir f = dir f := by
  obtain ⟨v, hret, hholds, hkeep⟩ := @compressLoop_spec z hz d hseek name p.nb 0
    (firstString p.nbSect p.nb im.info) p.bitmap
    ⟨Function.update dir (name ++ ascii "idx") (some []), d.seekTo 0, buffer, 0⟩ 0 rfl hbuf
  refine ⟨v, hret, hholds, fun f hf hj => ?_⟩
  rw [hkeep f fun j e => ?_]
  · exact Function.update_of_ne hf _ _
  · by_contra hlt
    exact hj j (by omega) e

end Volumes

end LinboxRescue
