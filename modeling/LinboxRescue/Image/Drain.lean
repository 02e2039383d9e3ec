import LinboxRescue.Image.RoundTrip

/-!
# What a chunk file holds (`compress_data`, `compress_end`)

A machine that keeps a record of its calls (`ZMachine.logged`) is compared with what is written.

1. `deflateLoop_log`: the file and the buffer are what was put out so far.
2. `deflateLoop_finished`: the last calls end the stream once.
3. `writtenOut`: the file of a chunk, for blocks that are not empty.
4. `emptyBlock_stops`: an empty block may stop the program.
5. `compressLoop_count`: the counter of bytes after each chunk, also if seeks and reads fail.
-/

namespace LinboxRescue

/-! ## Calls on record -/

/-- A call: the input that was taken, the code and the output. -/
structure ZRecord where
  taken : Bytes
  ret : ZRet
  out : Bytes
  deriving DecidableEq, Repr

/-- The machine with a record of its calls. -/
def ZMachine.logged (m : ZMachine) : ZMachine where
  σ := m.σ × List ZRecord
  init := (m.init, [])
  call s fl inp n :=
    let r := m.call s.1 fl inp n
    { ret := r.ret
      used := r.used
      out := r.out
      next := (r.next, s.2 ++ [⟨inp.take r.used, r.ret, r.out⟩]) }
  used_le s := m.used_le s.1
  out_le s := m.out_le s.1

def taken (log : List ZRecord) : Bytes := log.flatMap ZRecord.taken

def putOut (log : List ZRecord) : Bytes := log.flatMap ZRecord.out

/-- No call returned anything but `Z_OK`. -/
def AllOk (log : List ZRecord) : Prop := ∀ x ∈ log, x.ret = .ok

/-- One call ended the stream; those before it returned `Z_OK`, and those after it had no output. -/
def FinishedOnce (log : List ZRecord) : Prop :=
  ∃ before last after, log = before ++ last :: after ∧ AllOk before ∧ last.ret = .streamEnd ∧
    ∀ x ∈ after, x.ret = .streamEnd ∧ x.out = []

variable {m : ZMachine} {S : DeflateStates m}

/-- The states, with what the record says of them. -/
def DeflateStates.logged (S : DeflateStates m) : DeflateStates m.logged where
  isOpen s := S.isOpen s.1 ∧ AllOk s.2
  full s := S.full s.1
  closing s n := S.closing s.1 n ∧ AllOk s.2
  ended s := S.ended s.1 ∧ FinishedOnce s.2
  left s := S.left s.1

theorem AllOk.snoc {log : List ZRecord} (h : AllOk log) {x : ZRecord} (hx : x.ret = .ok) :
    AllOk (log ++ [x]) := by
  intro y hy
  rcases List.mem_append.mp hy with hy | hy
  · exact h y hy
  · rw [List.mem_singleton.mp hy]
    exact hx

theorem AllOk.finished {log : List ZRecord} (h : AllOk log) {x : ZRecord} (hx : x.ret = .streamEnd) :
    FinishedOnce (log ++ [x]) :=
  ⟨log, x, [], rfl, h, hx, List.forall_mem_nil _⟩

theorem FinishedOnce.snoc {log : List ZRecord} (h : FinishedOnce log) {x : ZRecord}
    (hx : x.ret = .streamEnd) (hout : x.out = []) : FinishedOnce (log ++ [x]) := by
  obtain ⟨before, last, after, rfl, hok, hlast, hafter⟩ := h
  refine ⟨before, last, after ++ [x], by simp, hok, hlast, fun y hy => ?_⟩
  rcases List.mem_append.mp hy with hy | hy
  · exact hafter y hy
  · rw [List.mem_singleton.mp hy]
    exact ⟨hx, hout⟩

/-- Keeping a record changes nothing. -/
theorem DeflateContract.logged (h : DeflateContract m S) : DeflateContract m.logged S.logged where
  start := ⟨h.start, List.forall_mem_nil _⟩
  more s fl inp n hs hfl hn hin := by
    obtain ⟨⟨hret, ho, hcase⟩, hdrain⟩ := h.more s.1 fl inp n hs.1 hfl hn hin
    exact ⟨⟨hret, ⟨ho, hs.2.snoc hret⟩, hcase⟩, hdrain⟩
  finish s inp n hs hn := by
    have hok : AllOk s.2 := hs.elim And.right And.right
    obtain ⟨hcase, hdrain⟩ := h.finish s.1 inp n (hs.imp And.left And.left) hn
    refine ⟨?_, hdrain⟩
    obtain ⟨hret, hcl, hout⟩ | ⟨hret, he, hused⟩ := hcase
    · exact .inl ⟨hret, ⟨hcl, hok.snoc hret⟩, hout⟩
    · exact .inr ⟨hret, ⟨he, hok.finished hret⟩, hused⟩
  ended s n hs hn := h.ended s.1 n hs.1 hn

/-! ## The drain loop -/

/-- What was put out is in the file and in the buffer. -/
def Recorded (c : Compress m.logged) : Prop := c.file ++ c.outbuff = putOut c.z.2

theorem putOut_snoc (log : List ZRecord) (x : ZRecord) : putOut (log ++ [x]) = putOut log ++ x.out := by
  unfold putOut
  rw [List.flatMap_append, List.flatMap_singleton]

theorem taken_snoc (log : List ZRecord) (x : ZRecord) : taken (log ++ [x]) = taken log ++ x.taken := by
  unfold taken
  rw [List.flatMap_append, List.flatMap_singleton]

theorem Recorded.after {c : Compress m.logged} (h : Recorded c) (fl : ZFlush) (inp : Bytes) (n : ℕ) :
    Recorded (c.after (m.logged.call c.z fl inp n)) := by
  show c.file ++ (c.outbuff ++ (m.call c.z.1 fl inp n).out) = putOut (c.z.2 ++ [_])
  rw [putOut_snoc, ← List.append_assoc, h]

theorem Recorded.spill {c : Compress m.logged} (h : Recorded c) : Recorded c.spill :=
  (List.append_nil _).trans h

/-- One turn of the loop: the buffer is full and is written; or the stream has ended; or the loop goes
on, or is left. -/
theorem deflateLoop_cases {m : ZMachine} {fin : Bool} {fuel : ℕ} {c c' : Compress m} {inp : Bytes}
    {r : ZCall m.σ}
    (hr : r = m.call c.z (if fin then .finish else c.state) inp (8192 - c.outbuff.length))
    (h : deflateLoop m fin (fuel + 1) c inp = .ok c') :
    ((c.outbuff ++ r.out).length = 8192 ∧
      deflateLoop m fin fuel (c.after r).spill (inp.drop r.used) = .ok c') ∨
    ((c.outbuff ++ r.out).length ≠ 8192 ∧ ∃ st,
      (r.ret = .streamEnd ∧ c' = { (c.after r).spill with state := st }) ∨
      (r.ret = .ok ∧ deflateLoop m fin fuel { c.after r with state := st } (inp.drop r.used) = .ok c') ∨
      (r.ret = .ok ∧ fin = false ∧ c' = { c.after r with state := st })) := by
  rw [deflateLoop] at h
  simp only [← hr] at h
  by_cases hfull : (c.outbuff ++ r.out).length = 8192
  · rw [if_pos hfull] at h
    exact .inl ⟨hfull, h⟩
  rw [if_neg hfull] at h
  -- the flush that was asked for is over if all input was taken
  obtain ⟨st, hst⟩ : ∃ st, (if c.state ≠ .noFlush ∧ inp.drop r.used = [] then
      { c.after r with state := .noFlush } else c.after r) = { c.after r with state := st } := by
    split_ifs
    · exact ⟨_, rfl⟩
    · exact ⟨c.state, rfl⟩
  unfold Compress.after at hst
  rw [hst] at h
  refine .inr ⟨hfull, st, ?_⟩
  split_ifs at h with hend hok hmore
  · exact .inl ⟨hend, (Except.ok.inj h).symm⟩
  · exact .inr (.inl ⟨not_not.mp hok, h⟩)
  · refine .inr (.inr ⟨not_not.mp hok, ?_, (Except.ok.inj h).symm⟩)
    exact Bool.eq_false_iff.mpr fun hf => hmore (.inr hf)

theorem deflateLoop_log {fin : Bool} (fuel : ℕ) : ∀ {c c' : Compress m.logged} {inp : Bytes},
    Recorded c → deflateLoop m.logged fin fuel c inp = .ok c' → Recorded c' := by
  induction fuel with
  | zero => exact fun _ h => by cases h
  | succ fuel ih =>
    intro c c' inp hc h
    have hafter := hc.after (if fin then .finish else c.state) inp (8192 - c.outbuff.length)
    obtain ⟨-, h⟩ | ⟨-, st, ⟨-, rfl⟩ | ⟨-, h⟩ | ⟨-, -, rfl⟩⟩ := deflateLoop_cases rfl h
    · exact ih hafter.spill h
    · exact hafter.spill
    · exact ih (c := { c.after _ with state := st }) hafter h
    · exact hafter

/-- While the stream is being finished: some input is left, or it has ended. -/
def Finishing (S : DeflateStates m) (s : m.logged.σ) (inp : Bytes) : Prop :=
  S.logged.isOpen s ∨ S.logged.closing s inp.length ∨ (S.logged.ended s ∧ inp = [])

/-- With `end`, all of the input is taken and the stream is ended once. -/
theorem deflateLoop_finished (hm : DeflateContract m S) (fuel : ℕ) :
    ∀ {c c' : Compress m.logged} {inp : Bytes}, c.outbuff.length < 8192 → Finishing S c.z inp →
      deflateLoop m.logged true fuel c inp = .ok c' →
        FinishedOnce c'.z.2 ∧ taken c'.z.2 = taken c.z.2 ++ inp := by
  induction fuel with
  | zero => exact fun _ _ h => by cases h
  | succ fuel ih =>
    intro c c' inp hroom hs h
    obtain ⟨r, hr⟩ : ∃ r, r = m.logged.call c.z .finish inp (8192 - c.outbuff.length) := ⟨_, rfl⟩
    have htaken : taken r.next.2 = taken c.z.2 ++ inp.take r.used := by
      rw [hr]
      exact taken_snoc _ _
    have hspill : (c.after r).spill.outbuff.length < 8192 := by
      show ([] : Bytes).length < 8192
      decide
    have hcall : (r.ret = .ok ∧ S.logged.closing r.next (inp.drop r.used).length ∧
        r.out.length = 8192 - c.outbuff.length) ∨
        (r.ret = .streamEnd ∧ inp.drop r.used = [] ∧ FinishedOnce r.next.2 ∧
          (S.logged.ended r.next ∨ r.out = [])) := by
      have hpos : 0 < 8192 - c.outbuff.length := by omega
      have hfinish : S.logged.isOpen c.z ∨ S.logged.closing c.z inp.length → _ := fun hs =>
        (hm.logged.finish c.z inp _ hs hpos).1
      rw [← hr] at hfinish
      rcases hs with hs | hs | ⟨hs, rfl⟩
      · exact (hfinish (.inl hs)).imp (fun h => ⟨h.1, List.length_drop ▸ h.2.1, h.2.2⟩)
          fun h => ⟨h.1, List.drop_eq_nil_of_le h.2.2.ge, h.2.1.2, .inl h.2.1⟩
      · exact (hfinish (.inr hs)).imp (fun h => ⟨h.1, List.length_drop ▸ h.2.1, h.2.2⟩)
          fun h => ⟨h.1, List.drop_eq_nil_of_le h.2.2.ge, h.2.1.2, .inl h.2.1⟩
      · obtain ⟨hret, hout⟩ := hm.logged.ended c.z _ hs hpos
        rw [← hr] at hret hout
        refine .inr ⟨hret, List.drop_nil, ?_, .inr hout⟩
        rw [hr] at hret hout ⊢
        exact hs.2.snoc hret hout
    obtain ⟨hfull, h⟩ | ⟨hfull, st, hturn⟩ := deflateLoop_cases hr h
    · -- the buffer is written, and `deflate` is called again
      have hnext : Finishing S r.next (inp.drop r.used) := by
        obtain ⟨-, hcl, -⟩ | ⟨-, hdrop, -, he | hout⟩ := hcall
        · exact .inr (.inl hcl)
        · exact .inr (.inr ⟨he, hdrop⟩)
        · rw [hout, List.append_nil] at hfull
          omega
      obtain ⟨hfin, hall⟩ := ih hspill hnext h
      refine ⟨hfin, ?_⟩
      rw [hall]
      show taken r.next.2 ++ inp.drop r.used = _
      rw [htaken, List.append_assoc, List.take_append_drop]
    · have hend : r.ret = .streamEnd ∧ inp.drop r.used = [] ∧ FinishedOnce r.next.2 := by
        obtain ⟨-, -, hout⟩ | ⟨hret, hdrop, hfin, -⟩ := hcall
        · rw [List.length_append, hout] at hfull
          omega
        · exact ⟨hret, hdrop, hfin⟩
      obtain ⟨-, rfl⟩ | ⟨hok, -⟩ | ⟨-, hfin, -⟩ := hturn
      · refine ⟨hend.2.2, ?_⟩
        show taken r.next.2 = _
        rw [htaken, ← List.append_nil (inp.take r.used), ← hend.2.1, List.take_append_drop]
      · rw [hend.1] at hok
        cases hok
      · cases hfin

/-! ## A chunk -/

/-- The calls for a chunk: blocks without `end`, perhaps a last one with it, and `compress_end`. -/
def chunkFile (m : ZMachine) (fuel bytes : ℕ) (blocks : List Bytes) (last : Option Bytes) :
    Except Halt (Compress m) := do
  let c ← blocks.foldlM (fun c data => compressData m fuel c data false) (compressInit m bytes)
  let c ← match last with
    | some data => compressData m fuel c data true
    | none => .ok c
  compressEnd m fuel c

/-- The file is what `deflate` put out for these data, in a stream that was ended once. -/
def WrittenOut (m : ZMachine) (bytes : ℕ) (blocks : List Bytes) (last : Option Bytes) : Prop :=
  ∃ c, Returns (fun fuel => chunkFile m.logged fuel bytes blocks last) c ∧ c.file = putOut c.z.2 ∧
    taken c.z.2 = blocks.flatten ++ last.getD [] ∧ FinishedOnce c.z.2

/-- While blocks are given. -/
structure Open (S : DeflateStates m) (c : Compress m.logged) (X : Bytes) : Prop where
  writing : ∃ k, Writing S.logged.isOpen c X k
  recorded : Recorded c
  all : taken c.z.2 = X
  notEnded : c.ended = false

/-- The record of a run is what `Emits` says of it. -/
theorem emits_logged {X F : Bytes} {k : ℕ} {s : m.logged.σ} (h : Emits m.logged X F k s) :
    taken s.2 = X := by
  induction h with
  | start => rfl
  | @call X F k s h fl inp n ih =>
    show taken (s.2 ++ [_]) = _
    rw [taken_snoc, ih]
    rfl

/-- A block that is not empty. -/
theorem Open.block (hm : DeflateContract m S) {c : Compress m.logged} {X : Bytes} (h : Open S c X)
    {data : Bytes} (hd : data ≠ []) :
    ∃ c', Returns (fun fuel => compressData m.logged fuel c data false) c' ∧ Open S c' (X ++ data) := by
  obtain ⟨k, hw⟩ := h.writing
  obtain ⟨c', k', hret, hw', hended, -⟩ := compressData_more hm.logged hw hd
  refine ⟨c', hret, ⟨k', hw'⟩, ?_, emits_logged hw'.emits, hended.trans h.notEnded⟩
  obtain ⟨n, hn⟩ := hret
  exact deflateLoop_log n (c := c.prepare data.length false) h.recorded (hn n le_rfl)

theorem Open.blocks (hm : DeflateContract m S) {blocks : List Bytes} (hne : ∀ b ∈ blocks, b ≠ []) :
    ∀ {c : Compress m.logged} {X : Bytes}, Open S c X →
      ∃ c', Returns (fun fuel =>
        blocks.foldlM (fun c data => compressData m.logged fuel c data false) c) c' ∧
          Open S c' (X ++ blocks.flatten) := by
  induction blocks with
  | nil => exact fun {c X} h => ⟨c, Returns.pure c, by rwa [List.flatten_nil, List.append_nil]⟩
  | cons b blocks ih =>
    intro c X h
    obtain ⟨hb, hbs⟩ := List.forall_mem_cons.mp hne
    obtain ⟨c₁, hret₁, h₁⟩ := h.block hm hb
    obtain ⟨c', hret, h'⟩ := ih hbs h₁
    refine ⟨c', Returns.congr (fun fuel => List.foldlM_cons) (Returns.bind hret₁ hret), ?_⟩
    rwa [List.flatten_cons, ← List.append_assoc]

/-- The last block, which may be empty. -/
theorem Open.last (hm : DeflateContract m S) {c : Compress m.logged} {X : Bytes} (h : Open S c X)
    (data : Bytes) : ∃ c', Returns (fun fuel => compressData m.logged fuel c data true) c' ∧
      c'.file = putOut c'.z.2 ∧ taken c'.z.2 = X ++ data ∧ FinishedOnce c'.z.2 ∧ c'.outbuff = [] ∧
      c'.ended = true := by
  obtain ⟨k, hw⟩ := h.writing
  obtain ⟨c', k', hret, -, hempty, hended, -⟩ := compressData_fin hm.logged hw data
  refine ⟨c', hret, ?_⟩
  obtain ⟨n, hn⟩ := hret
  have hrun : deflateLoop m.logged true n (c.prepare data.length true) data = .ok c' := hn n le_rfl
  have hrec : c'.file ++ c'.outbuff = putOut c'.z.2 :=
    deflateLoop_log n (c := c.prepare data.length true) h.recorded hrun
  obtain ⟨hfin, hall⟩ := deflateLoop_finished hm n (c := c.prepare data.length true) hw.room
    (.inl hw.state) hrun
  rw [hempty, List.append_nil] at hrec
  refine ⟨hrec, ?_, hfin, hempty, hended⟩
  rw [hall]
  exact congrArg (· ++ data) h.all

theorem writtenOut (hm : DeflateContract m S) (bytes : ℕ) {blocks : List Bytes}
    (hne : ∀ b ∈ blocks, b ≠ []) (last : Option Bytes) : WrittenOut m bytes blocks last := by
  have hinit : Open S (compressInit m.logged bytes) [] :=
    ⟨⟨0, writing_compressInit hm.logged bytes⟩, rfl, rfl, rfl⟩
  obtain ⟨c₁, hret₁, h₁⟩ := hinit.blocks hm hne
  rw [List.nil_append] at h₁
  cases last with
  | some data =>
    obtain ⟨c, hret, hfile, htaken, hfin, hempty, hended⟩ := h₁.last hm data
    refine ⟨c, Returns.bind hret₁ (Returns.bind hret ?_), hfile, htaken, hfin⟩
    -- nothing is left for `compress_end`
    refine Returns.congr (fun fuel => ?_) (Returns.pure c)
    show compressEnd m.logged fuel c = _
    rw [compressEnd, if_neg]
    simp [hempty, hended]
  | none =>
    obtain ⟨c, hret, hfile, htaken, hfin, -, -⟩ := h₁.last hm []
    refine ⟨c, Returns.bind hret₁ (Returns.bind (Returns.pure c₁) ?_), hfile, htaken, hfin⟩
    refine Returns.congr (fun fuel => ?_) hret
    show compressEnd m.logged fuel c₁ = _
    rw [compressEnd, if_pos (.inr h₁.notEnded)]

/-! ## Empty blocks -/

/-- The check for progress of `deflate`: without input a call returns `Z_BUF_ERROR`, unless the call
before it has filled its room. -/
def ZMachine.strict (m : ZMachine) : ZMachine where
  σ := m.σ × Bool
  init := (m.init, false)
  call s fl inp n :=
    if fl ≠ .finish ∧ inp = [] ∧ s.2 = false then { ret := .bufError, used := 0, out := [], next := s }
    else
      let r := m.call s.1 fl inp n
      { ret := r.ret, used := r.used, out := r.out, next := (r.next, decide (r.out.length = n)) }
  used_le s fl inp n := by
    split_ifs
    exacts [Nat.zero_le _, m.used_le s.1 fl inp n]
  out_le s fl inp n := by
    split_ifs
    exacts [Nat.zero_le _, m.out_le s.1 fl inp n]

def DeflateStates.strict (S : DeflateStates m) : DeflateStates m.strict where
  isOpen s := S.isOpen s.1
  full s := S.full s.1 ∧ s.2 = true
  closing s n := S.closing s.1 n
  ended s := S.ended s.1
  left s := S.left s.1

theorem strict_call {s : m.strict.σ} {fl : ZFlush} {inp : Bytes} (n : ℕ)
    (h : fl = .finish ∨ inp ≠ [] ∨ s.2 = true) :
    m.strict.call s fl inp n =
      { ret := (m.call s.1 fl inp n).ret, used := (m.call s.1 fl inp n).used,
        out := (m.call s.1 fl inp n).out,
        next := ((m.call s.1 fl inp n).next, decide ((m.call s.1 fl inp n).out.length = n)) } := by
  refine if_neg fun ⟨hfl, hinp, hs⟩ => ?_
  rcases h with h | h | h
  · exact hfl h
  · exact h hinp
  · rw [hs] at h
    cases h

/-- The check is within the contract. -/
theorem DeflateContract.strict (h : DeflateContract m S) : DeflateContract m.strict S.strict where
  start := h.start
  more s fl inp n hs hfl hn hin := by
    rw [strict_call n (.inr (hin.imp id And.right))]
    obtain ⟨⟨hret, ho, hcase⟩, hdrain⟩ := h.more s.1 fl inp n hs hfl hn (hin.imp id And.left)
    exact ⟨⟨hret, ho, hcase.imp (fun hf => ⟨⟨hf.1, decide_eq_true hf.2⟩, hf.2⟩) id⟩, hdrain⟩
  finish s inp n hs hn := by
    rw [strict_call n (.inl rfl)]
    exact h.finish s.1 inp n hs hn
  ended s n hs hn := by
    rw [strict_call n (.inl rfl)]
    exact h.ended s.1 n hs hn

/-- **An empty block** behind another one: there is nothing for `deflate` to do, and the program stops
with an error. -/
theorem emptyBlock_stops : (∃ S, DeflateContract storedDeflate.strict S) ∧
    Stops (fun fuel => chunkFile storedDeflate.strict fuel 0 [[1], []] none) .zlibError ∧
    ¬ WrittenOut storedDeflate.strict 0 [[1], []] none := by
  have hstop : ∀ m : ZMachine, m = storedDeflate.strict ∨ m = storedDeflate.strict.logged →
      Stops (fun fuel => chunkFile m fuel 0 [[1], []] none) .zlibError := by
    rintro m (rfl | rfl)
    · refine ⟨1, fun fuel hf => ?_⟩
      obtain ⟨k, rfl⟩ : ∃ k, fuel = k + 1 := ⟨fuel - 1, by omega⟩
      rfl
    · refine ⟨1, fun fuel hf => ?_⟩
      obtain ⟨k, rfl⟩ : ∃ k, fuel = k + 1 := ⟨fuel - 1, by omega⟩
      rfl
  refine ⟨⟨_, storedDeflate_contract.strict⟩, hstop _ (.inl rfl), fun ⟨c, hret, _⟩ => ?_⟩
  exact (hstop _ (.inr rfl)).not_returns c hret

/-! ## The counter of bytes -/

section Counter

variable {z : Zlib} {S : DeflateStates z.deflate} (hm : DeflateContract z.deflate S)

/-- The sector loop with `n` bits behind it, whatever seeks and reads do. -/
structure Counting {m : ZMachine} (S : DeflateStates m) (bytes n : ℕ) (st : ReadState m) : Prop where
  writing : ∃ X k, Writing S.isOpen st.c X k
  length_buffer : st.buffer.length = 24064
  slot : ∃ j < 47, st.datalg = 512 * j
  started : st.c.header = false
  notEnded : st.c.ended = false
  count : st.c.cbytes + st.skip + st.datalg = bytes + 512 * n

include hm in
theorem Counting.bit {bytes n : ℕ} {st : ReadState z.deflate} (h : Counting S bytes n st) (b : Bool) :
    ∃ st', Returns (fun fuel => readBit z.deflate fuel st b) st' ∧ Counting S bytes (n + 1) st' := by
  obtain ⟨⟨X, k, hw⟩, hbuf, ⟨j, hj, hslot⟩, hstart, hended, hcount⟩ := h
  cases b with
  | false =>
    refine ⟨{ st with skip := st.skip + 512 }, Returns.congr (fun fuel => ?_) (Returns.pure _),
      ⟨⟨X, k, hw⟩, hbuf, ⟨j, hj, hslot⟩, hstart, hended, ?_⟩⟩
    · rw [readBit, if_pos rfl]
    · show st.c.cbytes + (st.skip + 512) + st.datalg = _
      omega
  | true =>
    obtain ⟨r, fi, hread⟩ : ∃ r fi,
        (if st.skip ≠ 0 then st.fi.lseek st.skip else st.fi).read = (r, fi) :=
      ⟨_, _, rfl⟩
    have hlen : (readInto st.buffer st.datalg r).length = 24064 := by
      rw [hslot]
      exact length_store hbuf hj r
    have hw₁ : Writing S.isOpen { st.c with cbytes := st.c.cbytes + st.skip } X k :=
      ⟨hw.1, hw.2, hw.3, hw.4⟩
    have hturn : ∀ fuel, readBit z.deflate fuel st true =
        if st.datalg + 512 = 24064 then
          compressData z.deflate fuel { st.c with cbytes := st.c.cbytes + st.skip }
            (readInto st.buffer st.datalg r) false >>= fun c =>
          .ok ⟨fi, 0, readInto st.buffer st.datalg r, 0, c⟩
        else .ok ⟨fi, 0, readInto st.buffer st.datalg r, st.datalg + 512,
          { st.c with cbytes := st.c.cbytes + st.skip }⟩ := by
      intro fuel
      rw [readBit, if_neg (by simp)]
      simp only [hread]
      rfl
    by_cases hfull : st.datalg + 512 = 24064
    · have hne : readInto st.buffer st.datalg r ≠ [] := by
        intro e
        rw [e] at hlen
        cases hlen
      obtain ⟨c', k', hret, hw', hend', hhd, hcb, -⟩ := compressData_more hm hw₁ hne
      refine ⟨⟨fi, 0, readInto st.buffer st.datalg r, 0, c'⟩, ?_,
        ⟨⟨_, k', hw'⟩, hlen, ⟨0, by omega, rfl⟩, hhd, hend'.trans hended, ?_⟩⟩
      · refine Returns.congr (fun fuel => ?_) (Returns.bind hret
          (g := fun _ c => .ok ⟨fi, 0, readInto st.buffer st.datalg r, 0, c⟩) (Returns.pure _))
        rw [hturn, if_pos hfull]
      · show c'.cbytes + 0 + 0 = _
        rw [hcb, show st.c.header = false from hstart, if_neg Bool.false_ne_true, hlen]
        show st.c.cbytes + st.skip + 24064 + 0 + 0 = _
        omega
    · refine ⟨⟨fi, 0, readInto st.buffer st.datalg r, st.datalg + 512,
        { st.c with cbytes := st.c.cbytes + st.skip }⟩, Returns.congr (fun fuel => ?_) (Returns.pure _),
        ⟨⟨X, k, hw₁⟩, hlen, ⟨j + 1, by omega, ?_⟩, hstart, hended, ?_⟩⟩
      · rw [hturn, if_neg hfull]
      · show st.datalg + 512 = _
        omega
      · show st.c.cbytes + st.skip + 0 + (st.datalg + 512) = _
        omega

include hm in
theorem Counting.bits {bytes : ℕ} (bs : List Bool) : ∀ {n : ℕ} {st : ReadState z.deflate},
    Counting S bytes n st → ∃ st', Returns (fun fuel => bs.foldlM (readBit z.deflate fuel) st) st' ∧
      Counting S bytes (n + bs.length) st' := by
  induction bs with
  | nil => exact fun {n st} h => ⟨st, Returns.pure st, h⟩
  | cons b bs ih =>
    intro n st h
    obtain ⟨st₁, hret₁, h₁⟩ := h.bit hm b
    obtain ⟨st', hret, h'⟩ := ih h₁
    refine ⟨st', Returns.congr (fun fuel => List.foldlM_cons) (Returns.bind hret₁ hret), ?_⟩
    rw [List.length_cons, show n + (bs.length + 1) = n + 1 + bs.length by ring]
    exact h'

include hm in
theorem Counting.close {bytes n : ℕ} {st : ReadState z.deflate} (h : Counting S bytes n st) :
    ∃ c, Returns (fun fuel => closeChunk z.deflate fuel st) c ∧ c.cbytes = bytes + 512 * n := by
  obtain ⟨⟨X, k, hw⟩, hbuf, ⟨j, hj, hslot⟩, hstart, hended, hcount⟩ := h
  by_cases hd : 0 < st.datalg
  · obtain ⟨c, k', hret, -, hempty, hend, hcb, -⟩ := compressData_fin hm hw (st.buffer.take st.datalg)
    refine ⟨{ c with cbytes := c.cbytes + st.skip }, ?_, ?_⟩
    · simp only [closeChunk, hd, if_true]
      refine Returns.bind hret (Returns.congr (fun fuel => ?_) (Returns.pure _))
      rw [compressEnd, if_neg (by simp [hempty, hend])]
    · have hlen : (st.buffer.take st.datalg).length = st.datalg := by
        rw [List.length_take, hbuf]
        omega
      rw [hstart, if_neg Bool.false_ne_true, hlen] at hcb
      show c.cbytes + st.skip = _
      omega
  · have hw₁ : Writing S.isOpen { st.c with cbytes := st.c.cbytes + st.skip } X k :=
      ⟨hw.1, hw.2, hw.3, hw.4⟩
    obtain ⟨c, k', hret, -, -, -, hcb, -⟩ := compressData_fin hm hw₁ []
    refine ⟨c, ?_, ?_⟩
    · simp only [closeChunk, hd, if_false]
      refine Returns.congr (fun fuel => ?_) hret
      show compressEnd z.deflate fuel { st.c with cbytes := st.c.cbytes + st.skip } = _
      rw [compressEnd, if_pos (.inr hended)]
    · rw [hcb]
      simp only [hstart, Bool.false_eq_true, if_false, List.length_nil]
      omega

include hm in
/-- **One chunk** adds the bytes that its slice of the bitmap stands for. -/
theorem compressChunk_count (name : Bytes) (options : Options) (i : ℕ) (first slice : Bytes)
    {v : Volume} (hbuf : v.buffer.length = 24064) :
    ∃ v', Returns (fun fuel => compressChunk z fuel name options i first slice v) v' ∧
      v'.bytes = v.bytes + 4096 * slice.length ∧ v'.buffer.length = 24064 := by
  obtain ⟨hdr, hhdr⟩ :
    ∃ hdr, hdr = imageHeader (headerText first (filestring options i) slice.length) slice := ⟨_, rfl⟩
  have hne : hdr ≠ [] := by
    intro e
    have hlen := length_imageHeader (headerText first (filestring options i) slice.length) slice
    rw [← hhdr, e] at hlen
    cases hlen
  obtain ⟨c₀, k₀, hret₀, hw₀, hend₀, hhd₀, hcb₀, -⟩ :=
    compressData_more hm (writing_compressInit hm v.bytes) hne
  have hinit : Counting S v.bytes 0 ⟨v.fi, 0, v.buffer, 0, c₀⟩ :=
    ⟨⟨_, k₀, hw₀⟩, hbuf, ⟨0, by omega, rfl⟩, hhd₀, hend₀, hcb₀⟩
  obtain ⟨st, hret₁, h₁⟩ := hinit.bits hm (LinboxRescue.bits slice)
  obtain ⟨c, hret₂, hcb⟩ := h₁.close hm
  refine ⟨⟨Function.update v.dir (chunkName name i) (some c.file),
    if st.skip ≠ 0 then st.fi.lseek st.skip else st.fi, st.buffer, c.cbytes⟩, ?_, ?_, h₁.length_buffer⟩
  · refine Returns.bind (by rw [← hhdr]; exact hret₀) (Returns.bind hret₁ ?_)
    exact Returns.bind hret₂ (Returns.pure _)
  · show c.cbytes = _
    rw [hcb, length_bits]
    ring

include hm in
/-- **The first chunks** of a volume. -/
theorem compressLoop_count (name : Bytes) (options : Options) (n : ℕ) :
    ∀ (i : ℕ) (first rest : Bytes) {v : Volume}, v.buffer.length = 24064 →
      ∃ v', Returns (fun fuel => compressLoop z fuel name options n i first rest v) v' ∧
        v'.bytes = v.bytes + 4096 * min (22016 * n) rest.length := by
  induction n with
  | zero => exact fun i first rest v _ => ⟨v, Returns.pure v, by simp⟩
  | succ n ih =>
    intro i first rest v hbuf
    obtain ⟨v₁, hret₁, hbytes₁, hbuf₁⟩ := compressChunk_count hm name options i first
      (rest.take (if 22016 < rest.length then 22016 else rest.length)) hbuf
    obtain ⟨v', hret, hbytes⟩ := ih (i + 1) [] (rest.drop (if 22016 < rest.length then 22016 else
      rest.length)) hbuf₁
    refine ⟨v', Returns.congr (fun fuel => rfl) (Returns.bind hret₁ hret), ?_⟩
    rw [hbytes, hbytes₁, List.length_take, List.length_drop]
    split_ifs <;> omega

end Counter

/-- `compress_volume` after `n` chunks. It ends after `p.nb`. -/
def volumeAfter (z : Zlib) (fuel : ℕ) (name : Bytes) (options : Options) (im : Imager) (p : Params)
    (fi : Source) (buffer : Bytes) (dir : Dir) (n : ℕ) : Except Halt Volume :=
  compressLoop z fuel name options n 0 (firstString p.nbSect p.nb im.info) p.bitmap
    { dir := Function.update dir (name ++ ascii "idx") (some []), fi, buffer, bytes := 0 }

/-- **The stream of a chunk is written out**, if no block but the last is empty, and the counter of
`compress_volume` follows the bitmap. -/
theorem stream_written {z : Zlib} {S : DeflateStates z.deflate} (hm : DeflateContract z.deflate S) :
    (∀ (bytes : ℕ) (blocks : List Bytes) (last : Option Bytes), (∀ b ∈ blocks, b ≠ []) →
      WrittenOut z.deflate bytes blocks last) ∧
    ∀ (name : Bytes) (options : Options) (im : Imager) (p : Params) (fi : Source) (buffer : Bytes)
      (dir : Dir) (n : ℕ), buffer.length = 24064 →
        ∃ v, Returns (fun fuel => volumeAfter z fuel name options im p fi buffer dir n) v ∧
          v.bytes = 4096 * min (22016 * n) p.bitmap.length := by
  refine ⟨fun bytes blocks last hne => writtenOut hm bytes hne last, ?_⟩
  intro name options im p fi buffer dir n hbuf
  obtain ⟨v, hret, hbytes⟩ := @compressLoop_count z S hm name options n 0
    (firstString p.nbSect p.nb im.info) p.bitmap
    ⟨Function.update dir (name ++ ascii "idx") (some []), fi, buffer, 0⟩ hbuf
  exact ⟨v, hret, hbytes.trans (Nat.zero_add _)⟩

theorem stream_written_stored : WrittenOut storedDeflate 0 [[1], [2, 3]] (some []) ∧
    ∃ v, Returns (fun fuel => volumeAfter storedZlib fuel (ascii "P1") none .raw
      (smallParams [5] (by decide)) (openSource [.fill 7, .fill 8] fun _ => false) zeros
      Dir.empty 1) v ∧
      v.bytes = 4096 * min (22016 * 1) [5].length :=
  have h := stream_written (z := storedZlib) storedDeflate_contract
  ⟨h.1 0 [[1], [2, 3]] (some []) (by decide),
    h.2 (ascii "P1") none .raw (smallParams [5] (by decide))
      (openSource [.fill 7, .fill 8] fun _ => false) zeros Dir.empty 1 length_zeros⟩

end LinboxRescue
