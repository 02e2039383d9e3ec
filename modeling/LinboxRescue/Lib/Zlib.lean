import LinboxRescue.Lib.Bytes

/-!
# Stream machines with zlib's calling convention

A machine is called with a flush mode, the input at hand and the room for output; it says how much
input it used, what it put out and with which code it returns. `deflate` and `inflate` are such
machines; nothing is said about how they keep their state.

* `Emits` follows the calls made to a compressor, `Stream` the calls up to its first `Z_STREAM_END`.
* `DeflateContract` is what zlib documents about `deflate`: it stops when the input is used up or
  the room is full, output it cannot place is kept for the next call, `Z_FINISH` ends in
  `Z_STREAM_END`, and asking again after that yields nothing more.
* `DecodesFrom m s F X`: fed with `F` in pieces of any size, `inflate` puts out `X` in pieces of any
  size and reports `Z_STREAM_END` with the last byte of `F`.
* `Zlib.Contract`: `deflate` keeps its contract and `inflate` undoes it. `Zlib.Growth` bounds the
  size of a stream by the size of the data and the number of flush requests.
-/

namespace LinboxRescue

/-- Return codes of zlib. -/
inductive ZRet
  | ok | streamEnd | needDict | errno | streamError | dataError | memError | bufError | versionError
  deriving DecidableEq, Repr

/-- The codes below zero. -/
def ZRet.neg : ZRet → Bool
  | .ok | .streamEnd | .needDict => false
  | _ => true

/-- Flush modes of zlib. -/
inductive ZFlush
  | noFlush | syncFlush | fullFlush | finish
  deriving DecidableEq, Repr

/-- The outcome of one call. -/
structure ZCall (σ : Type) where
  ret : ZRet
  used : ℕ
  out : Bytes
  next : σ

/-- A machine never uses more than it is given nor puts out more than there is room for. -/
structure ZMachine where
  σ : Type
  init : σ
  call : σ → ZFlush → Bytes → ℕ → ZCall σ
  used_le : ∀ s fl inp n, (call s fl inp n).used ≤ inp.length
  out_le : ∀ s fl inp n, (call s fl inp n).out.length ≤ n

/-! ## Compressors -/

/-- `Emits m X F k s`: calls from the start have used `X`, put out `F` and led to `s`; `k` of them
asked for a flush. -/
inductive Emits (m : ZMachine) : Bytes → Bytes → ℕ → m.σ → Prop
  | start : Emits m [] [] 0 m.init
  | call {X F : Bytes} {k : ℕ} {s : m.σ} (h : Emits m X F k s) (fl : ZFlush) (inp : Bytes) (n : ℕ) :
      Emits m (X ++ inp.take (m.call s fl inp n).used) (F ++ (m.call s fl inp n).out)
        (if fl = .noFlush then k else k + 1) (m.call s fl inp n).next

/-- A finished stream: the calls up to the first one that returns `Z_STREAM_END`. -/
inductive Stream (m : ZMachine) : Bytes → Bytes → ℕ → Prop
  | mk {X F : Bytes} {k : ℕ} {s : m.σ} (h : Emits m X F k s) (inp : Bytes) (n : ℕ)
      (hr : (m.call s .finish inp n).ret = .streamEnd) :
      Stream m (X ++ inp.take (m.call s .finish inp n).used) (F ++ (m.call s .finish inp n).out)
        (k + 1)

/-- The states of a compressor: `isOpen` while the stream is being written, `full` after a call that
ran out of room, `closing` while it is being finished with some bytes of input not taken yet, `ended`
after `Z_STREAM_END`. `left` measures the output still due for a given amount of input. -/
structure DeflateStates (m : ZMachine) where
  isOpen : m.σ → Prop
  full : m.σ → Prop
  closing : m.σ → ℕ → Prop
  ended : m.σ → Prop
  left : m.σ → ZFlush → ℕ → ℕ

variable {m : ZMachine}

/-- What a call other than the finishing ones may do: stop for lack of room, or take all the
input. -/
def DeflateStates.More (S : DeflateStates m) (inp : Bytes) (n : ℕ) (r : ZCall m.σ) : Prop :=
  r.ret = .ok ∧ S.isOpen r.next ∧
    ((S.full r.next ∧ r.out.length = n) ∨ (r.out.length < n ∧ r.used = inp.length))

/-- What a finishing call may do: stop for lack of room, or end the stream. -/
def DeflateStates.Finish (S : DeflateStates m) (inp : Bytes) (n : ℕ) (r : ZCall m.σ) : Prop :=
  (r.ret = .ok ∧ S.closing r.next (inp.length - r.used) ∧ r.out.length = n) ∨
    (r.ret = .streamEnd ∧ S.ended r.next ∧ r.used = inp.length)

/-- A call that stopped for lack of room, though it had more than a few bytes, made progress. -/
def DeflateStates.Drains (S : DeflateStates m) (s : m.σ) (fl : ZFlush) (inp : Bytes) (n : ℕ)
    (r : ZCall m.σ) : Prop :=
  6 < n → r.out.length = n → r.ret = .ok → S.left r.next fl (inp.length - r.used) < S.left s fl inp.length

/-- What zlib documents about `deflate`. -/
structure DeflateContract (m : ZMachine) (S : DeflateStates m) : Prop where
  start : S.isOpen m.init
  more : ∀ s fl inp n, S.isOpen s → fl ≠ .finish → 0 < n → (inp ≠ [] ∨ S.full s) →
    S.More inp n (m.call s fl inp n) ∧ S.Drains s fl inp n (m.call s fl inp n)
  finish : ∀ s inp n, S.isOpen s ∨ S.closing s inp.length → 0 < n →
    S.Finish inp n (m.call s .finish inp n) ∧ S.Drains s .finish inp n (m.call s .finish inp n)
  ended : ∀ s n, S.ended s → 0 < n → (m.call s .finish [] n).ret = .streamEnd ∧
    (m.call s .finish [] n).out = []

/-! ## Decompressors -/

/-- What a call of `inflate` may do while `inp ++ more` is still to come and `X` still due, `R`
relating a state to what is to come and what is due after it. -/
structure InflateStep (m : ZMachine) (R : m.σ → Bytes → Bytes → Prop) (inp more X : Bytes) (n : ℕ)
    (r : ZCall m.σ) : Prop where
  outcome : ∃ X', X = r.out ++ X' ∧
    ((r.ret = .ok ∧ (r.used = inp.length ∨ r.out.length = n) ∧
        R r.next (inp.drop r.used ++ more) X') ∨
      (r.ret = .streamEnd ∧ inp.drop r.used ++ more = [] ∧ X' = [] ∧
        ∀ n', (m.call r.next .finish [] n').ret = .streamEnd))

/-- A relation that every call with input and room keeps. -/
structure InflateInvariant (m : ZMachine) (R : m.σ → Bytes → Bytes → Prop) : Prop where
  nonempty : ∀ s F X, R s F X → F ≠ []
  call : ∀ s inp more X n, R s (inp ++ more) X → inp ≠ [] → 0 < n →
    InflateStep m R inp more X n (m.call s .syncFlush inp n)

/-- From state `s` the machine decodes `F` to `X`. -/
def DecodesFrom (m : ZMachine) (s : m.σ) (F X : Bytes) : Prop :=
  ∃ R, InflateInvariant m R ∧ R s F X

/-- The machine decodes `F` to `X`. -/
def Decodes (m : ZMachine) (F X : Bytes) : Prop := DecodesFrom m m.init F X

theorem DecodesFrom.ne_nil {s : m.σ} {F X : Bytes} (h : DecodesFrom m s F X) :
    F ≠ [] := by
  obtain ⟨R, hR, hs⟩ := h
  exact hR.nonempty s F X hs

/-- One call of a decoding machine. -/
theorem DecodesFrom.call {s : m.σ} {inp more X : Bytes} {n : ℕ}
    (h : DecodesFrom m s (inp ++ more) X) (hi : inp ≠ []) (hn : 0 < n) :
    InflateStep m (DecodesFrom m) inp more X n (m.call s .syncFlush inp n) := by
  obtain ⟨R, hR, hs⟩ := h
  obtain ⟨X', hX, hc⟩ := hR.call s inp more X n hs hi hn
  refine ⟨X', hX, ?_⟩
  rcases hc with ⟨hr, hp, hnext⟩ | hend
  · exact .inl ⟨hr, hp, R, hR, hnext⟩
  · exact .inr hend

/-! ## Both together -/

structure Zlib where
  deflate : ZMachine
  inflate : ZMachine

/-- `deflate` behaves as documented and `inflate` undoes it. -/
structure Zlib.Contract (z : Zlib) : Prop where
  deflates : ∃ S, DeflateContract z.deflate S
  undoes : ∀ X F k, Stream z.deflate X F k → Decodes z.inflate F X

/-- The documented growth of incompressible data: 0.1 % and twelve bytes, and a few bytes for every
flush. -/
def Zlib.Growth (z : Zlib) : Prop :=
  ∀ X F k, Stream z.deflate X F k → F.length ≤ X.length + X.length / 1000 + 12 + 16 * k

end LinboxRescue
