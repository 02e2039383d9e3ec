import LinboxRescue.Lib.Fuel
import LinboxRescue.Lib.Zlib
import LinboxRescue.Image.Compress

/-!
# The calls of `inflate`

`restore` and `decompress` read a chunk file in the same way: `inflate` fills a buffer of 24064 bytes,
which is dealt with each time it is full. `bufferLoop` is this loop for any treatment of a full buffer.

1. `inflated`: what `inflate` alone makes of a file, as a list of full buffers and a last one.
2. `bufferLoop_spec`: the loop deals with these buffers in turn.
3. `inflated_of_decodes`: for a file that decodes they are its content, cut at every 24064th byte.
-/

namespace LinboxRescue

/-- The decompressor: its state, the unused bytes of `IN`, the unread part of the file
and the number of bytes put into `BUFFER`. -/
structure Inflater (m : ZMachine) where
  z : m.σ
  inp : Bytes
  file : Bytes
  out : ℕ

/-- `fread(IN, 1, INSIZE, fi)`. -/
def Inflater.fread {m : ZMachine} (i : Inflater m) : Inflater m :=
  { i with inp := i.file.take 2048, file := i.file.drop 2048 }

/-- The decompressor of a file just opened. -/
def Inflater.start (m : ZMachine) (file : Bytes) : Inflater m :=
  { z := m.init, inp := [], file, out := 0 : Inflater m }.fread

/-- The decompressor after a call that returned `r`. -/
def Inflater.after {m : ZMachine} (i : Inflater m) (r : ZCall m.σ) : Inflater m :=
  { i with z := r.next, inp := i.inp.drop r.used, out := i.out + r.out.length }

/-- More input is read when the old one is used up. -/
def Inflater.refill {m : ZMachine} (i : Inflater m) : Inflater m :=
  if i.inp = [] then i.fread else i

/-- The loop `do ... while (ret == Z_OK)`, where `drain` deals with a full `BUFFER`. -/
def bufferLoop (m : ZMachine) {σ : Type} (drain : σ → Bytes → Except Halt σ) :
    ℕ → Inflater m → Bytes → σ → Except Halt (ZRet × Inflater m × Bytes × σ)
  | 0, _, _, _ => .error .outOfFuel
  | fuel + 1, i, buffer, st =>
    let r := m.call i.z .syncFlush i.inp (24064 - i.out)
    let buffer := overwrite buffer i.out r.out
    let i := i.after r
    if r.ret ≠ .ok then .ok (r.ret, i, buffer, st)
    else if i.out = 24064 then
      drain st buffer >>= fun st => bufferLoop m drain fuel { i with out := 0 }.refill buffer st
    else bufferLoop m drain fuel i.refill buffer st

/-! ## What `inflate` delivers -/

/-- The full buffers, the bytes in the last buffer, the code that ends the loop and the code of the
last call. -/
structure Inflated where
  full : List Bytes
  last : Bytes
  ret : ZRet
  fin : ZRet

/-- The calls of the loop and the one after it; `acc` is in the buffer already. -/
def inflated (m : ZMachine) : ℕ → Inflater m → Bytes → Except Halt Inflated
  | 0, _, _ => .error .outOfFuel
  | fuel + 1, i, acc =>
    let r := m.call i.z .syncFlush i.inp (24064 - i.out)
    let acc := acc ++ r.out
    let i := i.after r
    if r.ret ≠ .ok then
      .ok { full := [], last := acc, ret := r.ret
            fin := (m.call i.z .finish i.inp (if r.ret = .streamEnd then 24064 else 24064 - i.out)).ret }
    else if i.out = 24064 then
      inflated m fuel { i with out := 0 }.refill [] >>= fun w => .ok { w with full := acc :: w.full }
    else inflated m fuel i.refill acc

section Loop

variable {m : ZMachine}

@[simp] theorem Inflater.refill_out (i : Inflater m) : i.refill.out = i.out := by
  unfold Inflater.refill; split_ifs <;> rfl

/-- How the loop ends when `inflate` delivers `w`: it has dealt with the full buffers,
and the last one starts the memory `buf`. -/
structure LoopEnd (w : Inflated) (i : Inflater m) (buf : Bytes) : Prop where
  length_buf : buf.length = 24064
  out : i.out = w.last.length
  take_buf : buf.take w.last.length = w.last
  fin : w.fin = (m.call i.z .finish i.inp (if w.ret = .streamEnd then 24064 else 24064 - i.out)).ret

theorem bufferLoop_spec {σ : Type} {drain : σ → Bytes → Except Halt σ} {fuel : ℕ} :
    ∀ {i : Inflater m} {acc buf : Bytes} {st : σ} {w : Inflated}, inflated m fuel i acc = .ok w →
    buf.length = 24064 → i.out ≤ 24064 → acc.length = i.out → buf.take i.out = acc →
    (∃ e, w.full.foldlM drain st = .error e ∧ bufferLoop m drain fuel i buf st = .error e) ∨
    ∃ st' i' buf', w.full.foldlM drain st = .ok st' ∧ LoopEnd w i' buf' ∧
      bufferLoop m drain fuel i buf st = .ok (w.ret, i', buf', st') := by
  induction fuel with
  | zero => intro i acc buf st w hw; cases hw
  | succ fuel ih =>
    intro i acc buf st w hw hbuf hi hlen hacc
    obtain ⟨r, hr⟩ : ∃ r, r = m.call i.z .syncFlush i.inp (24064 - i.out) := ⟨_, rfl⟩
    have hout : r.out.length ≤ 24064 - i.out := by rw [hr]; exact m.out_le _ _ _ _
    obtain ⟨buf', hb⟩ : ∃ buf', buf' = overwrite buf i.out r.out := ⟨_, rfl⟩
    have hbuf' : buf'.length = 24064 := by rw [hb, length_overwrite (by omega), hbuf]
    have hnew : (i.after r).out = (acc ++ r.out).length := by
      rw [List.length_append, hlen]; rfl
    have hle : (i.after r).out ≤ 24064 := by show i.out + r.out.length ≤ _; omega
    have htake : buf'.take (i.after r).out = acc ++ r.out := by
      rw [hb, ← hacc]; exact take_overwrite (by omega)
    rw [inflated, ← hr] at hw
    rw [bufferLoop, ← hr]
    simp only [← hb]
    by_cases hret : r.ret = .ok
    · simp only [hret, ne_eq, not_true_eq_false, if_false] at hw ⊢
      by_cases hfull : (i.after r).out = 24064
      · simp only [hfull, if_true] at hw ⊢
        rw [hfull, List.take_of_length_le hbuf'.le] at htake
        obtain ⟨w', hw', hw⟩ := bind_eq_ok hw
        cases hw
        rw [htake, List.foldlM_cons]
        cases drain st (acc ++ r.out) with
        | error e => exact .inl ⟨e, rfl, rfl⟩
        | ok st₁ =>
          have h0 : (acc ++ r.out).length = 24064 := by rw [← htake, hbuf']
          rcases @ih _ [] (acc ++ r.out) st₁ w' hw' h0 (by simp) (by simp) (by simp) with
            ⟨e, h1, h2⟩ | ⟨st', i', buf₂, h1, h2, h3⟩
          · exact .inl ⟨e, h1, h2⟩
          · exact .inr ⟨st', i', buf₂, h1, ⟨h2.1, h2.2, h2.3, h2.4⟩, h3⟩
      · simp only [hfull, if_false] at hw ⊢
        exact ih hw hbuf' (by rw [Inflater.refill_out]; exact hle)
          (by rw [Inflater.refill_out, hnew]) (by rw [Inflater.refill_out]; exact htake)
    · simp only [hret, ne_eq, not_false_eq_true, if_true] at hw ⊢
      cases hw
      refine .inr ⟨st, i.after r, buf', rfl, ⟨hbuf', hnew, ?_, rfl⟩, rfl⟩
      rw [← hnew]; exact htake

theorem steady_bufferLoop {σ : Type} (drain : σ → Bytes → Except Halt σ) (i : Inflater m) (buf : Bytes)
    (st : σ) : Steady fun fuel => bufferLoop m drain fuel i buf st := by
  intro fuel
  induction fuel generalizing i buf st with
  | zero => intro a h; cases h
  | succ fuel ih =>
    intro a h
    change bufferLoop m drain (fuel + 1) i buf st = _ at h
    show bufferLoop m drain (fuel + 1 + 1) i buf st = _
    rw [bufferLoop] at h ⊢
    split_ifs at h ⊢ with h1 h2
    · exact h
    · exact bind_ok_mono h fun st' => ih _ _ st' a
    · exact ih _ _ _ a h

/-- The full buffers are full. -/
theorem length_of_mem_full {fuel : ℕ} : ∀ {i : Inflater m} {acc : Bytes} {w : Inflated},
    inflated m fuel i acc = .ok w → acc.length = i.out → ∀ b ∈ w.full, b.length = 24064 := by
  induction fuel with
  | zero => intro i acc w hw; cases hw
  | succ fuel ih =>
    intro i acc w hw hacc
    rw [inflated] at hw
    by_cases h1 : (m.call i.z .syncFlush i.inp (24064 - i.out)).ret ≠ .ok
    · rw [if_pos h1] at hw; cases hw; simp
    rw [if_neg h1] at hw
    by_cases h2 : (i.after (m.call i.z .syncFlush i.inp (24064 - i.out))).out = 24064
    · rw [if_pos h2] at hw
      obtain ⟨w', hw', hw⟩ := bind_eq_ok hw
      cases hw
      refine List.forall_mem_cons.mpr ⟨?_, ih hw' (by simp)⟩
      rw [List.length_append, hacc]; exact h2
    · rw [if_neg h2] at hw
      refine ih hw ?_
      rw [Inflater.refill_out, List.length_append, hacc]; rfl

end Loop

/-! ## The file of a chunk -/

section Decode

variable {m : ZMachine}

/-- What is left to decode when the input at hand is used up. -/
theorem DecodesFrom.refill {i : Inflater m} {X : Bytes} (h : DecodesFrom m i.z (i.inp ++ i.file) X) :
    i.refill.z = i.z ∧ i.refill.inp ++ i.refill.file = i.inp ++ i.file ∧ i.refill.inp ≠ [] := by
  unfold Inflater.refill
  split_ifs with hi
  · refine ⟨rfl, ?_, ?_⟩
    · rw [hi]; exact List.take_append_drop _ _
    · have := h.ne_nil
      rw [hi, List.nil_append] at this
      show i.file.take 2048 ≠ []
      rw [ne_eq, List.take_eq_nil_iff]
      rintro (h | h)
      · omega
      · exact this h
  · exact ⟨rfl, rfl, hi⟩

/-- A call that returns `Z_OK` completes the buffer or not; either way the loop goes on. -/
theorem inflated_after {i : Inflater m} {acc : Bytes} {r : ZCall m.σ}
    (hr : r = m.call i.z .syncFlush i.inp (24064 - i.out)) (hok : r.ret = .ok)
    (hacc : acc.length = i.out) (hroom : i.out < 24064) :
    ∃ (acc' : Bytes) (hd : List Bytes), acc'.length < 24064 ∧ hd.flatten ++ acc' = acc ++ r.out ∧
      (∀ b ∈ hd, b.length = 24064) ∧
      ∀ w, Returns (fun fuel => inflated m fuel { i.after r with out := acc'.length }.refill acc') w →
        Returns (fun fuel => inflated m fuel i acc) { w with full := hd ++ w.full } := by
  have hout : r.out.length ≤ 24064 - i.out := by rw [hr]; exact m.out_le _ _ _ _
  have hlen : (acc ++ r.out).length = (i.after r).out := by
    rw [List.length_append, hacc]; rfl
  have hstep : ∀ fuel, inflated m (fuel + 1) i acc =
      if (i.after r).out = 24064 then
        inflated m fuel { i.after r with out := 0 }.refill [] >>= fun w =>
          .ok { w with full := (acc ++ r.out) :: w.full }
      else inflated m fuel (i.after r).refill (acc ++ r.out) := by
    intro fuel
    rw [inflated, ← hr]
    simp only [hok, ne_eq, not_true_eq_false, if_false]
  by_cases hfull : (i.after r).out = 24064
  · refine ⟨[], [acc ++ r.out], by decide, by simp, ?_, fun w hw => ?_⟩
    · rw [List.forall_mem_singleton, hlen, hfull]
    · refine Returns.step (fun fuel => (hstep fuel).trans (if_pos hfull)) ?_
      exact Returns.bind hw (Returns.pure _)
  · refine ⟨acc ++ r.out, [], ?_, rfl, by simp, fun w hw => ?_⟩
    · rw [List.length_append]
      change i.out + r.out.length ≠ 24064 at hfull
      omega
    · rw [hlen] at hw
      exact Returns.step (fun fuel => (hstep fuel).trans (if_neg hfull)) hw

/-- `inflate` delivers `X`, cut at every 24064th byte. The induction is on what is still to be read
and to be put out. -/
theorem inflated_of_decodes (N : ℕ) : ∀ {i : Inflater m} {acc X : Bytes},
    (i.inp ++ i.file).length + X.length ≤ N → DecodesFrom m i.z (i.inp ++ i.file) X → i.inp ≠ [] →
    acc.length = i.out → i.out < 24064 →
    ∃ w, Returns (fun fuel => inflated m fuel i acc) w ∧ w.full.flatten ++ w.last = acc ++ X ∧
      (∀ b ∈ w.full, b.length = 24064) ∧ w.last.length ≤ 24064 ∧ w.ret = .streamEnd ∧
      w.fin = .streamEnd := by
  induction N with
  | zero =>
    intro i acc X hN hdec
    have := List.length_pos_iff.mpr hdec.ne_nil
    omega
  | succ N ih =>
    intro i acc X hN hdec hinp hacc hroom
    obtain ⟨r, hr⟩ : ∃ r, r = m.call i.z .syncFlush i.inp (24064 - i.out) := ⟨_, rfl⟩
    have hout : r.out.length ≤ 24064 - i.out := by rw [hr]; exact m.out_le _ _ _ _
    have hused : r.used ≤ i.inp.length := by rw [hr]; exact m.used_le _ _ _ _
    have hinp' := List.length_pos_iff.mpr hinp
    obtain ⟨X', hX, hc⟩ := hdec.call hinp (show 0 < 24064 - i.out by omega)
    rw [← hr] at hX hc
    rcases hc with ⟨hok, hprog, hnext⟩ | ⟨hend, hrest, hX', hfin⟩
    · have hless : ((i.after r).inp ++ (i.after r).file).length + X'.length ≤ N := by
        rw [hX] at hN
        simp only [List.length_append, Inflater.after, List.length_drop] at hN ⊢
        omega
      obtain ⟨acc', hd, hacc', happ', hhd, hstep⟩ := inflated_after hr hok hacc hroom
      have hdec' : DecodesFrom m { i.after r with out := acc'.length }.z
          ({ i.after r with out := acc'.length }.inp ++ { i.after r with out := acc'.length }.file) X' :=
        hnext
      obtain ⟨hz, hf, hne⟩ := hdec'.refill
      obtain ⟨w, hret, happ, hlen, hlast, h1, h2⟩ :=
        @ih { i.after r with out := acc'.length }.refill acc' X' (by rw [hf]; exact hless)
          (by rw [hz, hf]; exact hdec') hne (by rw [Inflater.refill_out])
          (by rw [Inflater.refill_out]; exact hacc')
      refine ⟨_, hstep w hret, ?_, ?_, hlast, h1, h2⟩
      · show (hd ++ w.full).flatten ++ w.last = _
        rw [List.flatten_append, List.append_assoc, happ, ← List.append_assoc, happ', hX,
          List.append_assoc]
      · exact fun b hb => (List.mem_append.mp hb).elim (hhd b) (hlen b)
    · refine ⟨⟨[], acc ++ r.out, .streamEnd, .streamEnd⟩, Returns.last fun fuel => ?_, ?_, ?_, ?_, rfl,
        rfl⟩
      · rw [inflated, ← hr]
        have hnil : i.inp.drop r.used = [] := (List.append_eq_nil_iff.mp hrest).1
        simp only [hend, Inflater.after, hnil, hfin]
        rfl
      · rw [hX, hX']; simp
      · simp
      · show (acc ++ r.out).length ≤ _
        rw [List.length_append, hacc]; omega

theorem inflated_start {F X : Bytes} (hdec : Decodes m F X) :
    ∃ w, Returns (fun fuel => inflated m fuel (Inflater.start m F) []) w ∧
      w.full.flatten ++ w.last = X ∧ (∀ b ∈ w.full, b.length = 24064) ∧ w.last.length ≤ 24064 ∧
      w.ret = .streamEnd ∧ w.fin = .streamEnd := by
  have happ : (Inflater.start m F).inp ++ (Inflater.start m F).file = F := List.take_append_drop _ _
  have hdec' : DecodesFrom m (Inflater.start m F).z
      ((Inflater.start m F).inp ++ (Inflater.start m F).file) X := by rw [happ]; exact hdec
  have hne : (Inflater.start m F).inp ≠ [] := by
    show F.take 2048 ≠ []
    rw [ne_eq, List.take_eq_nil_iff]
    rintro (h | h)
    · omega
    · exact DecodesFrom.ne_nil hdec h
  exact @inflated_of_decodes m _ (Inflater.start m F) [] X le_rfl hdec' hne rfl (Nat.zero_lt_succ _)

end Decode

end LinboxRescue
