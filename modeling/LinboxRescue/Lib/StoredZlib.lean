import LinboxRescue.Lib.ByteMachine

/-!
# zlib streams of stored blocks

The smallest zlib there is: `deflate` never compresses. It writes the two header bytes, stored blocks
of up to 65535 bytes, and the Adler-32 checksum, in the format of every other zlib; input is held
back until a block is full or a flush is asked for. `inflate` reads such streams and rejects
everything else.

`storedZlib_contract` and `storedZlib_growth`: it keeps what the contract asks of a zlib, so that
results about any zlib can be applied.
-/

namespace LinboxRescue

/-! ## The format -/

/-- The two sums of Adler-32. -/
structure Adler where
  a : ℕ
  b : ℕ
  deriving DecidableEq, Repr

def Adler.init : Adler := ⟨1, 0⟩

def Adler.add (s : Adler) (x : UInt8) : Adler :=
  ⟨(s.a + x.toNat) % 65521, (s.b + (s.a + x.toNat)) % 65521⟩

/-- The checksum of the bytes `xs` after `s`. -/
def Adler.feed (s : Adler) (xs : Bytes) : Adler := xs.foldl Adler.add s

theorem Adler.feed_append (s : Adler) (xs ys : Bytes) : s.feed (xs ++ ys) = (s.feed xs).feed ys :=
  List.foldl_append

def Adler.bytes (s : Adler) : Bytes :=
  [UInt8.ofNat (s.b / 256), UInt8.ofNat (s.b % 256), UInt8.ofNat (s.a / 256), UInt8.ofNat (s.a % 256)]

/-- The header of a zlib stream. -/
def zlibHeader : Bytes := [0x78, 0x01]

/-- A stored block. -/
def storedBlock (last : Bool) (data : Bytes) : Bytes :=
  [if last then 1 else 0, UInt8.ofNat (data.length % 256), UInt8.ofNat (data.length / 256),
    UInt8.ofNat (255 - data.length % 256), UInt8.ofNat (255 - data.length / 256)] ++ data

/-! ## Reading -/

/-- The states of the reader: `last` tells whether the block is the last one. -/
inductive StoredState
  | cmf
  | flg
  | block (sum : Adler)
  | len0 (sum : Adler) (last : Bool)
  | len1 (sum : Adler) (last : Bool) (lo : UInt8)
  | nlen0 (sum : Adler) (last : Bool) (lo hi : UInt8)
  | nlen1 (sum : Adler) (last : Bool) (lo hi : UInt8)
  | data (sum : Adler) (last : Bool) (left : ℕ)
  | check (due : Bytes)
  | done
  | bad
  deriving DecidableEq, Repr

/-- The state in front of a block's data, or behind the block when there is none. -/
def StoredState.enter (sum : Adler) (last : Bool) : ℕ → StoredState
  | 0 => if last then .check sum.bytes else .block sum
  | n + 1 => .data sum last (n + 1)

open StoredState in
def storedStep : StoredState → UInt8 → StoredState × Option UInt8
  | cmf, x => (if x = 0x78 then flg else bad, none)
  | flg, x => (if x = 0x01 then block .init else bad, none)
  | block sum, x => (if x = 0 then len0 sum false else if x = 1 then len0 sum true else bad, none)
  | len0 sum last, x => (len1 sum last x, none)
  | len1 sum last lo, x => (nlen0 sum last lo x, none)
  | nlen0 sum last lo hi, x => (if x.toNat = 255 - lo.toNat then nlen1 sum last lo hi else bad, none)
  | nlen1 sum last lo hi, x =>
    (if x.toNat = 255 - hi.toNat then enter sum last (lo.toNat + 256 * hi.toNat) else bad, none)
  | data sum last n, x => (enter (sum.add x) last (n - 1), some x)
  | check [], _ => (bad, none)
  | check (y :: ys), x => (if x = y then (if ys = [] then done else check ys) else bad, none)
  | done, _ => (done, none)
  | bad, _ => (bad, none)

def storedReader : ByteMachine where
  σ := StoredState
  init := .cmf
  step := storedStep
  code
    | .done => some .streamEnd
    | .bad => some .dataError
    | _ => none

/-- Reading `F` from `s` puts out `X` and leads to `s'`, with no code before. -/
def Reads (s : storedReader.σ) (F X : Bytes) (s' : storedReader.σ) : Prop :=
  storedReader.Live s F ∧ storedReader.run s F = (X, s')

theorem Reads.trans {s s' s'' : storedReader.σ} {F X G Y : Bytes} (h : Reads s F X s')
    (h' : Reads s' G Y s'') : Reads s (F ++ G) (X ++ Y) s'' := by
  obtain ⟨h1, h2⟩ := h
  obtain ⟨h3, h4⟩ := h'
  refine ⟨ByteMachine.live_append.mpr ⟨h1, by rw [h2]; exact h3⟩, ?_⟩
  rw [ByteMachine.run_append, h2, h4]

theorem reads_nil (s : storedReader.σ) : Reads s [] [] s := ⟨trivial, rfl⟩

theorem Reads.cons {s : storedReader.σ} (s' : storedReader.σ) (o : Option UInt8)
    {s'' : storedReader.σ} {x : UInt8} {F X : Bytes} (hs : storedReader.step s x = (s', o))
    (hc : storedReader.code s = none) (h : Reads s' F X s'') :
    Reads s (x :: F) (o.toList ++ X) s'' := by
  refine ⟨⟨hc, by rw [hs]; exact h.1⟩, ?_⟩
  rw [ByteMachine.run, hs, h.2]

theorem reads_data (last : Bool) (xs : Bytes) : ∀ sum : Adler,
    Reads (StoredState.enter sum last xs.length) xs xs
      (StoredState.enter (sum.feed xs) last 0) := by
  induction xs with
  | nil => intro sum; exact reads_nil _
  | cons x xs ih =>
    intro sum
    exact Reads.cons (s := StoredState.data sum last (xs.length + 1))
      (StoredState.enter (sum.add x) last xs.length) (some x) rfl rfl (ih (sum.add x))

theorem reads_block (sum : Adler) (last : Bool) {xs : Bytes} (hlen : xs.length ≤ 65535) :
    Reads (StoredState.block sum) (storedBlock last xs) xs
      (StoredState.enter (sum.feed xs) last 0) := by
  obtain ⟨lo, hlo⟩ : ∃ lo, lo = UInt8.ofNat (xs.length % 256) := ⟨_, rfl⟩
  obtain ⟨hi, hhi⟩ : ∃ hi, hi = UInt8.ofNat (xs.length / 256) := ⟨_, rfl⟩
  have hlo' : lo.toNat = xs.length % 256 := by rw [hlo, UInt8.toNat_ofNat']; omega
  have hhi' : hi.toNat = xs.length / 256 := by rw [hhi, UInt8.toNat_ofNat']; omega
  have hnlo : (UInt8.ofNat (255 - xs.length % 256)).toNat = 255 - lo.toNat := by
    rw [hlo', UInt8.toNat_ofNat']; omega
  have hnhi : (UInt8.ofNat (255 - xs.length / 256)).toNat = 255 - hi.toNat := by
    rw [hhi', UInt8.toNat_ofNat']; omega
  have hdata := reads_data last xs sum
  rw [show xs.length = lo.toNat + 256 * hi.toNat by rw [hlo', hhi']; omega] at hdata
  unfold storedBlock
  rw [← hlo, ← hhi]
  refine Reads.cons (StoredState.len0 sum last) none ?_ rfl
    (Reads.cons (StoredState.len1 sum last lo) none rfl rfl
      (Reads.cons (StoredState.nlen0 sum last lo hi) none rfl rfl
        (Reads.cons (StoredState.nlen1 sum last lo hi) none ?_ rfl
          (Reads.cons _ none ?_ rfl hdata))))
  · cases last <;> rfl
  · exact congrArg (·, none) (if_pos hnlo)
  · exact congrArg (·, none) (if_pos hnhi)

theorem reads_zlibHeader : Reads StoredState.cmf zlibHeader [] (StoredState.block .init) :=
  ⟨⟨rfl, rfl, trivial⟩, rfl⟩

theorem reads_check (y : UInt8) (ys : Bytes) :
    Reads (StoredState.check (y :: ys)) (y :: ys) [] StoredState.done := by
  induction ys generalizing y with
  | nil => exact Reads.cons StoredState.done none (congrArg (·, none) (if_pos rfl)) rfl (reads_nil _)
  | cons z ys ih =>
    exact Reads.cons (StoredState.check (z :: ys)) none (congrArg (·, none) (if_pos rfl)) rfl (ih z)

/-! ## Writing -/

/-- What the writer keeps: the input held back, the checksum so far, whether the header is out and
whether the last block is. -/
structure StoredWriter where
  hold : Bytes
  sum : Adler
  started : Bool
  fin : Bool

namespace StoredWriter

/-- The header, until it is out. -/
def header (w : StoredWriter) : Bytes := if w.started then [] else zlibHeader

/-- The first `k` full blocks of `xs`. -/
def fullBlocks : ℕ → Bytes → Bytes
  | 0, _ => []
  | k + 1, xs => storedBlock false (xs.take 65535) ++ fullBlocks k (xs.drop 65535)

/-- Take input: what is put out for it and what is kept. -/
def feed (w : StoredWriter) (inp : Bytes) : Bytes × StoredWriter :=
  let xs := w.hold ++ inp
  let k := xs.length / 65535
  (w.header ++ fullBlocks k xs,
    { hold := xs.drop (65535 * k), sum := w.sum.feed inp, started := true, fin := false })

/-- Write out the input held back, and an empty block after it. -/
def flush (w : StoredWriter) : Bytes × StoredWriter :=
  (storedBlock false w.hold ++ storedBlock false [], { w with hold := [] })

/-- Write the last block and the checksum. -/
def close (w : StoredWriter) : Bytes × StoredWriter :=
  (storedBlock true w.hold ++ w.sum.bytes, { w with hold := [], fin := true })

/-- Two writes, one after the other. -/
def andThen (r : Bytes × StoredWriter) (f : StoredWriter → Bytes × StoredWriter) :
    Bytes × StoredWriter :=
  (r.1 ++ (f r.2).1, (f r.2).2)

def absorb (w : StoredWriter) (fl : ZFlush) (inp : Bytes) : Bytes × StoredWriter :=
  if w.fin then ([], w)
  else match fl with
    | .noFlush => w.feed inp
    | .finish => andThen (w.feed inp) close
    | _ => if inp = [] then w.feed inp else andThen (w.feed inp) flush

/-! ### What is written can be read -/

/-- `G` is what a writer in state `w` has put out for the input `X`: a stream that reads back as `X`
without what is held back, of which at most the header is missing. -/
structure Wrote (X G : Bytes) (w : StoredWriter) : Prop where
  reads : w.fin = false → ∃ Y, X = Y ++ w.hold ∧
    Reads StoredState.cmf (G ++ w.header) Y (StoredState.block (Adler.init.feed Y))
  sum : w.fin = false → w.sum = Adler.init.feed X
  hold : w.hold.length < 65535
  ends : w.fin = true → Reads StoredState.cmf G X StoredState.done

theorem length_storedBlock (last : Bool) (xs : Bytes) :
    (storedBlock last xs).length = xs.length + 5 := by
  rw [storedBlock, List.length_append, Nat.add_comm]
  rfl

theorem reads_fullBlocks (k : ℕ) (xs : Bytes) (sum : Adler) :
    65535 * k ≤ xs.length → Reads (StoredState.block sum) (fullBlocks k xs) (xs.take (65535 * k))
      (StoredState.block (sum.feed (xs.take (65535 * k)))) := by
  induction k generalizing xs sum with
  | zero => intro _; exact reads_nil _
  | succ k ih =>
    intro hk
    have hlen : (xs.take 65535).length ≤ 65535 := by rw [List.length_take]; omega
    have hblock := reads_block sum false hlen
    have hrest := ih (xs.drop 65535) (sum.feed (xs.take 65535)) (by rw [List.length_drop]; omega)
    rw [show 65535 * (k + 1) = 65535 + 65535 * k by omega, List.take_add, Adler.feed_append]
    exact hblock.trans hrest

theorem wrote_feed {X G : Bytes} {w : StoredWriter} (h : Wrote X G w) (hfin : w.fin = false)
    (inp : Bytes) : Wrote (X ++ inp) (G ++ (w.feed inp).1) (w.feed inp).2 := by
  obtain ⟨Y, rfl, hY⟩ := h.reads hfin
  obtain ⟨k, hk⟩ : ∃ k, k = (w.hold ++ inp).length / 65535 := ⟨_, rfl⟩
  have hfeed : w.feed inp = (w.header ++ fullBlocks k (w.hold ++ inp),
      ⟨(w.hold ++ inp).drop (65535 * k), w.sum.feed inp, true, false⟩) := by rw [hk]; rfl
  rw [hfeed]
  refine ⟨fun _ => ⟨Y ++ (w.hold ++ inp).take (65535 * k), ?_, ?_⟩, fun _ => ?_, ?_, fun h => ?_⟩
  · rw [List.append_assoc, List.append_assoc, List.take_append_drop]
  · have := hY.trans (reads_fullBlocks k (w.hold ++ inp) _ (by omega))
    rw [← Adler.feed_append] at this
    rw [List.append_assoc] at this ⊢
    show Reads _ (G ++ (w.header ++ fullBlocks k (w.hold ++ inp) ++ [])) _ _
    rwa [List.append_nil]
  · rw [Adler.feed_append, ← h.sum hfin]
  · show ((w.hold ++ inp).drop _).length < _
    rw [List.length_drop]
    omega
  · cases h

theorem wrote_flush {X G : Bytes} {w : StoredWriter} (h : Wrote X G w) (hfin : w.fin = false)
    (hstart : w.started = true) : Wrote X (G ++ w.flush.1) w.flush.2 := by
  obtain ⟨Y, rfl, hY⟩ := h.reads hfin
  have hhead : w.header = [] := if_pos hstart
  rw [hhead, List.append_nil] at hY
  refine ⟨fun _ => ⟨Y ++ w.hold, (List.append_nil _).symm, ?_⟩, h.sum, Nat.zero_lt_succ _,
    fun h => ?_⟩
  · have h1 := hY.trans (reads_block (Adler.init.feed Y) false h.hold.le)
    rw [← Adler.feed_append] at h1
    have h2 := h1.trans (reads_block (Adler.init.feed (Y ++ w.hold)) false
      (show ([] : Bytes).length ≤ 65535 from Nat.zero_le _))
    rw [List.append_nil, List.append_assoc] at h2
    rw [show w.flush.2.header = [] from hhead, List.append_nil]
    exact h2
  · exact absurd (hfin.symm.trans h) Bool.false_ne_true

theorem wrote_close {X G : Bytes} {w : StoredWriter} (h : Wrote X G w) (hfin : w.fin = false)
    (hstart : w.started = true) : Wrote X (G ++ w.close.1) w.close.2 := by
  obtain ⟨Y, rfl, hY⟩ := h.reads hfin
  have hhead : w.header = [] := if_pos hstart
  rw [hhead, List.append_nil] at hY
  refine ⟨fun h => ?_, fun h => ?_, Nat.zero_lt_succ _, fun _ => ?_⟩
  · cases h
  · cases h
  · have h1 := hY.trans (reads_block (Adler.init.feed Y) true h.hold.le)
    rw [← Adler.feed_append] at h1
    have h2 := h1.trans (reads_check _ _)
    rw [← h.sum hfin, List.append_nil, List.append_assoc] at h2
    exact h2

theorem absorb_of_fin {w : StoredWriter} (hfin : w.fin = true) (fl : ZFlush) (inp : Bytes) :
    w.absorb fl inp = ([], w) := by
  cases fl <;> exact if_pos hfin

/-- What a step before the end can be. -/
theorem absorb_cases {w : StoredWriter} (hfin : w.fin = false) (fl : ZFlush) (inp : Bytes) :
    (fl ≠ .finish ∧ w.absorb fl inp = w.feed inp) ∨
    (fl = .finish ∧ w.absorb fl inp = andThen (w.feed inp) close) ∨
    (fl ≠ .finish ∧ fl ≠ .noFlush ∧ inp ≠ [] ∧ w.absorb fl inp = andThen (w.feed inp) flush) := by
  have hopen : ¬w.fin = true := by rw [hfin]; exact Bool.false_ne_true
  cases fl with
  | noFlush => exact .inl ⟨nofun, if_neg hopen⟩
  | finish => exact .inr (.inl ⟨rfl, if_neg hopen⟩)
  | syncFlush =>
    by_cases hinp : inp = []
    · exact .inl ⟨nofun, (if_neg hopen).trans (if_pos hinp)⟩
    · exact .inr (.inr ⟨nofun, nofun, hinp, (if_neg hopen).trans (if_neg hinp)⟩)
  | fullFlush =>
    by_cases hinp : inp = []
    · exact .inl ⟨nofun, (if_neg hopen).trans (if_pos hinp)⟩
    · exact .inr (.inr ⟨nofun, nofun, hinp, (if_neg hopen).trans (if_neg hinp)⟩)

/-- The part of the input that a step uses. -/
def used (w : StoredWriter) (inp : Bytes) : ℕ := if w.fin then 0 else inp.length

theorem wrote_absorb {X G : Bytes} {w : StoredWriter} (h : Wrote X G w) (fl : ZFlush)
    (inp : Bytes) : Wrote (X ++ inp.take (w.used inp)) (G ++ (w.absorb fl inp).1)
      (w.absorb fl inp).2 := by
  unfold used
  cases hfin : w.fin with
  | true =>
    rw [absorb_of_fin hfin, if_pos rfl, List.take_zero, List.append_nil, List.append_nil]
    exact h
  | false =>
    have hfeed := wrote_feed h hfin inp
    rw [if_neg Bool.false_ne_true, List.take_length]
    obtain ⟨-, heq⟩ | ⟨-, heq⟩ | ⟨-, -, -, heq⟩ := absorb_cases hfin fl inp
    · rw [heq]
      exact hfeed
    · rw [heq, andThen, ← List.append_assoc]
      exact wrote_close hfeed rfl rfl
    · rw [heq, andThen, ← List.append_assoc]
      exact wrote_flush hfeed rfl rfl

/-! ### How much is written -/

theorem length_fullBlocks (k : ℕ) (xs : Bytes) :
    65535 * k ≤ xs.length → (fullBlocks k xs).length = 65540 * k := by
  induction k generalizing xs with
  | zero => intro _; rfl
  | succ k ih =>
    intro hk
    rw [fullBlocks, List.length_append, length_storedBlock, List.length_take,
      ih _ (by rw [List.length_drop]; omega)]
    omega

/-- The number of full blocks that `feed` writes. -/
theorem feed_sizes (w : StoredWriter) (inp : Bytes) : ∃ k,
    (w.feed inp).1.length = w.header.length + 65540 * k ∧
    65535 * k + (w.feed inp).2.hold.length = w.hold.length + inp.length ∧
    (w.feed inp).2.header = [] ∧ (w.feed inp).2.fin = false := by
  obtain ⟨k, hk⟩ : ∃ k, k = (w.hold ++ inp).length / 65535 := ⟨_, rfl⟩
  have hfeed : w.feed inp = (w.header ++ fullBlocks k (w.hold ++ inp),
      ⟨(w.hold ++ inp).drop (65535 * k), w.sum.feed inp, true, false⟩) := by rw [hk]; rfl
  have hle : 65535 * k ≤ (w.hold ++ inp).length := by omega
  rw [hfeed]
  refine ⟨k, ?_, ?_, rfl, rfl⟩
  · rw [List.length_append, length_fullBlocks k _ hle]
  · show 65535 * k + ((w.hold ++ inp).drop _).length = _
    rw [List.length_drop, ← List.length_append]
    omega

theorem length_flush (w : StoredWriter) : w.flush.1.length = w.hold.length + 10 := by
  rw [flush, List.length_append, length_storedBlock, length_storedBlock]
  rfl

theorem length_close (w : StoredWriter) : w.close.1.length = w.hold.length + 9 := by
  rw [close, List.length_append, length_storedBlock]
  rfl

/-- The output due besides the data for a request: a finished stream takes nine bytes more, a flush
of new input ten. -/
def due (fl : ZFlush) (n : ℕ) : ℕ := if fl = .finish then 9 else if fl = .noFlush ∨ n = 0 then 0 else 10

theorem due_le (fl : ZFlush) (n : ℕ) : due fl n ≤ if fl = .noFlush then 0 else 10 := by
  unfold due
  cases fl <;> simp
  all_goals split_ifs <;> omega

/-- The sizes of one step: `k` full blocks are written, and what is due for the request. -/
theorem absorb_sizes {w : StoredWriter} (hfin : w.fin = false) (fl : ZFlush) (inp : Bytes) :
    ∃ k extra, (w.absorb fl inp).1.length + (w.absorb fl inp).2.hold.length
        = w.header.length + w.hold.length + inp.length + 5 * k + extra ∧
      65535 * k + (w.absorb fl inp).2.hold.length ≤ w.hold.length + inp.length ∧
      (w.absorb fl inp).2.header = [] ∧ ((w.absorb fl inp).2.fin = true ↔ fl = .finish) ∧
      extra ≤ due fl inp.length := by
  obtain ⟨k, hout, hhold, hhead, hopen⟩ := feed_sizes w inp
  have hflush := length_flush (w.feed inp).2
  have hclose := length_close (w.feed inp).2
  unfold due
  obtain ⟨hfl, heq⟩ | ⟨hfl, heq⟩ | ⟨hfl, hfl', hinp, heq⟩ := absorb_cases hfin fl inp
  · rw [heq]
    exact ⟨k, 0, by omega, by omega, hhead, by rw [hopen]; simp [hfl], Nat.zero_le _⟩
  · rw [heq, if_pos hfl]
    refine ⟨k, 9, ?_, ?_, hhead, ⟨fun _ => hfl, fun _ => rfl⟩, le_rfl⟩
    · show ((w.feed inp).1 ++ (w.feed inp).2.close.1).length + 0 = _
      rw [List.length_append]
      omega
    · show 65535 * k + 0 ≤ _
      omega
  · have hne : inp.length ≠ 0 := fun h => hinp (List.length_eq_zero_iff.mp h)
    rw [heq, if_neg hfl, if_neg (by simp [hfl', hne])]
    refine ⟨k, 10, ?_, ?_, hhead, ⟨fun h => ?_, fun h => absurd h hfl⟩, le_rfl⟩
    · show ((w.feed inp).1 ++ (w.feed inp).2.flush.1).length + 0 = _
      rw [List.length_append]
      omega
    · show 65535 * k + 0 ≤ _
      omega
    · exact absurd (hopen.symm.trans h) Bool.false_ne_true

end StoredWriter

/-! ## The machines -/

/-- `deflate`: the writer, and the output there was no room for. -/
def storedDeflate : ZMachine where
  σ := Bytes × StoredWriter
  init := ([], ⟨[], .init, false, false⟩)
  call s fl inp n :=
    let pend := s.1 ++ (s.2.absorb fl inp).1
    let w := (s.2.absorb fl inp).2
    { ret := if w.fin ∧ pend.length ≤ n then .streamEnd else .ok
      used := s.2.used inp
      out := pend.take n
      next := (pend.drop n, w) }
  used_le s _ inp _ := by
    show StoredWriter.used s.2 inp ≤ _
    unfold StoredWriter.used
    split_ifs
    exacts [Nat.zero_le _, le_rfl]
  out_le s _ _ n := List.length_take_le n _

def storedZlib : Zlib where
  deflate := storedDeflate
  inflate := storedReader.machine

/-- Every run of `deflate` has written what it was given. -/
theorem emits_wrote {X F : Bytes} {k : ℕ} {s : storedDeflate.σ} (h : Emits storedDeflate X F k s) :
    StoredWriter.Wrote X (F ++ s.1) s.2 := by
  induction h with
  | start =>
    exact ⟨fun _ => ⟨[], rfl, reads_zlibHeader⟩, fun _ => rfl, Nat.zero_lt_succ _, nofun⟩
  | @call X F k s h fl inp n ih =>
    have hstep := StoredWriter.wrote_absorb ih fl inp
    rw [List.append_assoc] at hstep
    show StoredWriter.Wrote _ (F ++ (s.1 ++ (s.2.absorb fl inp).1).take n ++
      (s.1 ++ (s.2.absorb fl inp).1).drop n) _
    rw [List.append_assoc, List.take_append_drop]
    exact hstep

/-- A finished stream reads back. -/
theorem stream_reads {X F : Bytes} {k : ℕ} (h : Stream storedDeflate X F k) :
    Reads StoredState.cmf F X StoredState.done := by
  obtain ⟨h, inp, n, hr⟩ := h
  have hwrote := emits_wrote (h.call .finish inp n)
  change (if _ then ZRet.streamEnd else ZRet.ok) = _ at hr
  split_ifs at hr with hend
  have hall := hwrote.ends hend.1
  rwa [show (storedDeflate.call _ .finish inp n).next.1 = [] from
    List.drop_eq_nil_of_le hend.2, List.append_nil] at hall

/-- The output still due, counting twice what has not been put into a block yet. -/
def storedLeft (s : storedDeflate.σ) (fl : ZFlush) (n : ℕ) : ℕ :=
  s.1.length + s.2.header.length + 2 * (s.2.hold.length + n) +
    if s.2.fin then 0 else StoredWriter.due fl n

/-- The states of `deflate`: the whole input is always taken. -/
def storedStates : DeflateStates storedDeflate where
  isOpen s := s.2.fin = false
  full _ := True
  closing s n := s.2.fin = true ∧ n = 0
  ended s := s.2.fin = true ∧ s.1 = []
  left := storedLeft

/-- A call that fills its room leaves less to do. -/
theorem storedLeft_call {s : storedDeflate.σ} {fl : ZFlush} {inp : Bytes} {n : ℕ} (hn : 0 < n)
    (hused : s.2.fin = true → inp = [])
    (hfull : (storedDeflate.call s fl inp n).out.length = n) :
    storedLeft (storedDeflate.call s fl inp n).next fl
      (inp.length - (storedDeflate.call s fl inp n).used) < storedLeft s fl inp.length := by
  change ((s.1 ++ (s.2.absorb fl inp).1).take n).length = n at hfull
  rw [List.length_take, List.length_append] at hfull
  show ((s.1 ++ (s.2.absorb fl inp).1).drop n).length + (s.2.absorb fl inp).2.header.length +
    2 * ((s.2.absorb fl inp).2.hold.length + (inp.length - s.2.used inp)) +
    (if (s.2.absorb fl inp).2.fin then 0 else StoredWriter.due fl (inp.length - s.2.used inp)) < _
  rw [List.length_drop, List.length_append, StoredWriter.used, storedLeft]
  cases hfin : s.2.fin with
  | true =>
    rw [StoredWriter.absorb_of_fin hfin, hused hfin] at *
    simp only [hfin, List.length_nil, if_true] at *
    omega
  | false =>
    obtain ⟨k, extra, h1, h2, h3, h4, h5⟩ := StoredWriter.absorb_sizes hfin fl inp
    have hdue : (if (s.2.absorb fl inp).2.fin then 0 else
        StoredWriter.due fl (inp.length - inp.length)) = 0 := by
      split_ifs with h
      · rfl
      · unfold StoredWriter.due
        rw [if_neg (fun hf => h (h4.mpr hf)), if_pos (.inr (Nat.sub_self _))]
    rw [if_neg Bool.false_ne_true, if_neg Bool.false_ne_true, hdue, h3, List.length_nil]
    omega

theorem storedDeflate_contract : DeflateContract storedDeflate storedStates where
  start := rfl
  more s fl inp n hs hfl hn _ := by
    obtain ⟨k, extra, -, -, -, hfin, -⟩ := StoredWriter.absorb_sizes hs fl inp
    have hopen : (s.2.absorb fl inp).2.fin = false :=
      Bool.eq_false_iff.mpr fun h => hfl (hfin.mp h)
    refine ⟨⟨?_, hopen, ?_⟩, fun _ hfull _ => ?_⟩
    · exact if_neg (by rw [hopen]; exact fun h => Bool.false_ne_true h.1)
    · rcases Nat.lt_or_ge (storedDeflate.call s fl inp n).out.length n with hlt | hge
      · exact .inr ⟨hlt, if_neg (by rw [hs]; exact Bool.false_ne_true)⟩
      · exact .inl ⟨trivial, le_antisymm (storedDeflate.out_le s fl inp n) hge⟩
    · exact storedLeft_call hn (fun h => absurd (hs.symm.trans h) Bool.false_ne_true) hfull
  finish s inp n hs hn := by
    have hfin : (s.2.absorb .finish inp).2.fin = true := by
      cases h : s.2.fin with
      | true => rw [StoredWriter.absorb_of_fin h]; exact h
      | false =>
        obtain ⟨-, -, -, -, -, hfin, -⟩ := StoredWriter.absorb_sizes h .finish inp
        exact hfin.mpr rfl
    have hinp : s.2.fin = true → inp = [] := by
      intro h
      rcases hs with hs | ⟨-, hs⟩
      · exact absurd (hs.symm.trans h) Bool.false_ne_true
      · exact List.length_eq_zero_iff.mp hs
    have hused : (storedDeflate.call s .finish inp n).used = inp.length := by
      show s.2.used inp = _
      unfold StoredWriter.used
      split_ifs with h
      · rw [hinp h]; rfl
      · rfl
    refine ⟨?_, fun _ hfull _ => storedLeft_call hn hinp hfull⟩
    rcases Nat.lt_or_ge n (s.1 ++ (s.2.absorb .finish inp).1).length with hlt | hge
    · refine .inl ⟨if_neg (by omega), ⟨hfin, by rw [hused, Nat.sub_self]⟩, ?_⟩
      show ((s.1 ++ (s.2.absorb .finish inp).1).take n).length = n
      rw [List.length_take]
      omega
    · exact .inr ⟨if_pos ⟨hfin, hge⟩, ⟨hfin, List.drop_eq_nil_of_le hge⟩, hused⟩
  ended s n hs hn := by
    obtain ⟨hfin, hnil⟩ := hs
    have hcall := StoredWriter.absorb_of_fin hfin .finish []
    refine ⟨if_pos ?_, ?_⟩
    · rw [hcall, hnil]
      exact ⟨hfin, Nat.zero_le _⟩
    · show (s.1 ++ (s.2.absorb .finish []).1).take n = []
      rw [hcall, hnil]
      exact List.take_nil

theorem storedZlib_contract : storedZlib.Contract where
  deflates := ⟨storedStates, storedDeflate_contract⟩
  undoes X F k h := by
    obtain ⟨hlive, hrun⟩ := stream_reads h
    exact ByteMachine.decodes_of_run ⟨hlive, congrArg Prod.fst hrun,
      congrArg (storedReader.code ·.2) hrun, rfl⟩

/-- The output of a run: `nb` full blocks, the header, and at most ten bytes for a request. -/
theorem emits_sizes {X F : Bytes} {k : ℕ} {s : storedDeflate.σ} (h : Emits storedDeflate X F k s) :
    ∃ nb, 65535 * nb + s.2.hold.length ≤ X.length ∧
      F.length + s.1.length + s.2.header.length + s.2.hold.length ≤ X.length + 2 + 5 * nb + 10 * k := by
  induction h with
  | start => exact ⟨0, Nat.le_refl _, by decide⟩
  | @call X F k s h fl inp n ih =>
    obtain ⟨nb, h1, h2⟩ := ih
    have hout : (storedDeflate.call s fl inp n).out.length +
        (storedDeflate.call s fl inp n).next.1.length
          = s.1.length + (s.2.absorb fl inp).1.length := by
      show ((s.1 ++ (s.2.absorb fl inp).1).take n).length +
        ((s.1 ++ (s.2.absorb fl inp).1).drop n).length = _
      rw [← List.length_append, List.take_append_drop, List.length_append]
    rw [List.length_append, List.length_append]
    show ∃ nb, 65535 * nb + (s.2.absorb fl inp).2.hold.length ≤ X.length + (inp.take (s.2.used inp)).length ∧
      F.length + _ + _ + (s.2.absorb fl inp).2.header.length + (s.2.absorb fl inp).2.hold.length ≤
        X.length + (inp.take (s.2.used inp)).length + 2 + 5 * nb + 10 * _
    rw [Nat.add_assoc F.length, hout, StoredWriter.used]
    cases hfin : s.2.fin with
    | true =>
      rw [StoredWriter.absorb_of_fin hfin, if_pos rfl, List.take_zero]
      exact ⟨nb, by simpa using h1, by simp only [List.length_nil]; split_ifs <;> omega⟩
    | false =>
      obtain ⟨j, extra, h3, h4, h5, -, h6⟩ := StoredWriter.absorb_sizes hfin fl inp
      rw [if_neg Bool.false_ne_true, List.take_length, h5, List.length_nil]
      refine ⟨nb + j, by omega, ?_⟩
      have hdue := StoredWriter.due_le fl inp.length
      split_ifs at hdue ⊢ <;> omega

theorem storedZlib_growth : storedZlib.Growth := by
  rintro X F k ⟨h, inp, n, -⟩
  obtain ⟨nb, h1, h2⟩ := emits_sizes (h.call .finish inp n)
  rw [if_neg (by decide)] at h2
  omega

end LinboxRescue
