import LinboxRescue.Lib.Zlib

/-!
# Decompressors that read byte by byte

An automaton takes one byte at a time and puts out at most one byte for it, until it reaches a state
with a return code. `feed` runs it over the input at hand while there is room, `machine` gives it
zlib's calling convention: it goes on as far as input and room allow, and reports `Z_BUF_ERROR` when
it can do nothing.

`run` is the automaton on a whole file. `decodes_of_run`: a file that leads to `Z_STREAM_END` with
its last byte is decoded to what the automaton puts out.
-/

namespace LinboxRescue

structure ByteMachine where
  σ : Type
  init : σ
  step : σ → UInt8 → σ × Option UInt8
  code : σ → Option ZRet

namespace ByteMachine

variable (B : ByteMachine)

/-- The bytes used, the output and the new state, with room for `n` bytes. -/
def feed : B.σ → Bytes → ℕ → ℕ × Bytes × B.σ
  | s, [], _ => (0, [], s)
  | s, b :: bs, n =>
    if n = 0 ∨ (B.code s).isSome then (0, [], s)
    else
      match B.step s b with
      | (s', none) => let r := feed s' bs n; (r.1 + 1, r.2.1, r.2.2)
      | (s', some x) => let r := feed s' bs (n - 1); (r.1 + 1, x :: r.2.1, r.2.2)

/-- The output and the last state over a whole file. -/
def run : B.σ → Bytes → Bytes × B.σ
  | s, [] => ([], s)
  | s, b :: bs =>
    ((B.step s b).2.toList ++ (run (B.step s b).1 bs).1, (run (B.step s b).1 bs).2)

/-- No code is reached before the last byte. -/
def Live : B.σ → Bytes → Prop
  | _, [] => True
  | s, b :: bs => B.code s = none ∧ Live (B.step s b).1 bs

variable {B}

theorem feed_le (s : B.σ) (inp : Bytes) (n : ℕ) :
    (B.feed s inp n).1 ≤ inp.length ∧ (B.feed s inp n).2.1.length ≤ n := by
  induction inp generalizing s n with
  | nil => exact ⟨le_rfl, Nat.zero_le _⟩
  | cons b bs ih =>
    rw [feed]
    split_ifs with h
    · exact ⟨Nat.zero_le _, Nat.zero_le _⟩
    · rw [not_or] at h
      rcases hs : B.step s b with ⟨s', _ | x⟩
      · have := ih s' n
        exact ⟨by simpa using this.1, this.2⟩
      · have := ih s' (n - 1)
        refine ⟨by simpa using this.1, ?_⟩
        have h2 := this.2
        show (_ :: _ : Bytes).length ≤ n
        rw [List.length_cons]
        omega

theorem run_append (s : B.σ) (F G : Bytes) :
    B.run s (F ++ G) = ((B.run s F).1 ++ (B.run (B.run s F).2 G).1, (B.run (B.run s F).2 G).2) := by
  induction F generalizing s with
  | nil => rfl
  | cons b F ih => rw [List.cons_append, run, ih, run, List.append_assoc]

theorem live_append {s : B.σ} {F G : Bytes} :
    B.Live s (F ++ G) ↔ B.Live s F ∧ B.Live (B.run s F).2 G := by
  induction F generalizing s with
  | nil => exact ⟨fun h => ⟨trivial, h⟩, fun h => h.2⟩
  | cons b F ih =>
    rw [List.cons_append, Live, Live, run, ih, and_assoc]

/-- `feed` is `run` on the bytes used, and stops only for lack of input or room. -/
theorem feed_spec {s : B.σ} {inp : Bytes} {n : ℕ} (h : B.Live s inp) :
    B.run s (inp.take (B.feed s inp n).1) = ((B.feed s inp n).2.1, (B.feed s inp n).2.2) ∧
    ((B.feed s inp n).1 = inp.length ∨ (B.feed s inp n).2.1.length = n) := by
  induction inp generalizing s n with
  | nil => exact ⟨rfl, .inl rfl⟩
  | cons b bs ih =>
    obtain ⟨hcode, hlive⟩ := h
    rw [feed]
    split_ifs with h0
    · have hn : n = 0 := by simpa [hcode] using h0
      exact ⟨rfl, .inr hn.symm⟩
    · rw [not_or] at h0
      rcases hs : B.step s b with ⟨s', _ | x⟩
      · rw [hs] at hlive
        obtain ⟨h1, h2⟩ := @ih s' n hlive
        refine ⟨?_, ?_⟩
        · show B.run s ((b :: bs).take ((B.feed s' bs n).1 + 1)) = _
          rw [List.take_succ_cons, run, hs, h1]
          rfl
        · rcases h2 with h2 | h2
          · exact .inl (by show (B.feed s' bs n).1 + 1 = _; rw [h2, List.length_cons])
          · exact .inr h2
      · rw [hs] at hlive
        obtain ⟨h1, h2⟩ := @ih s' (n - 1) hlive
        refine ⟨?_, ?_⟩
        · show B.run s ((b :: bs).take ((B.feed s' bs (n - 1)).1 + 1)) = _
          rw [List.take_succ_cons, run, hs, h1]
          rfl
        · rcases h2 with h2 | h2
          · exact .inl (by show (B.feed s' bs (n - 1)).1 + 1 = _; rw [h2, List.length_cons])
          · refine .inr ?_
            show (_ :: _ : Bytes).length = n
            rw [List.length_cons, h2]
            omega

theorem feed_pos {s : B.σ} {inp : Bytes} {n : ℕ} (hs : B.code s = none) (hinp : inp ≠ [])
    (hn : 0 < n) : 0 < (B.feed s inp n).1 := by
  obtain ⟨b, bs, rfl⟩ := List.exists_cons_of_ne_nil hinp
  rw [feed, if_neg (by simp [hs]; omega)]
  rcases B.step s b with ⟨s', _ | x⟩ <;> exact Nat.succ_pos _

/-- A run that ends without a code started without one. -/
theorem code_of_live {s : B.σ} {F : Bytes} (h : B.Live s F) (hend : B.code (B.run s F).2 = none) :
    B.code s = none := by
  cases F with
  | nil => exact hend
  | cons b F => exact h.1

variable (B)

/-- The return code of a call. -/
def ret (fl : ZFlush) (inp : Bytes) (n : ℕ) (s : B.σ) : ZRet :=
  (B.code s).getD (if fl = .finish ∨ inp = [] ∨ n = 0 then .bufError else .ok)

/-- The automaton with zlib's calling convention. -/
def machine : ZMachine where
  σ := B.σ
  init := B.init
  call s fl inp n :=
    { ret := B.ret fl inp n (B.feed s inp n).2.2
      used := (B.feed s inp n).1
      out := (B.feed s inp n).2.1
      next := (B.feed s inp n).2.2 }
  used_le s _ inp n := (feed_le s inp n).1
  out_le s _ inp n := (feed_le s inp n).2

variable {B}

/-- A call in the middle of a file. -/
theorem call_spec {s : B.σ} {inp more : Bytes} {n : ℕ} {fl : ZFlush} (h : B.Live s (inp ++ more))
    {r : ZCall B.σ} (hr : r = B.machine.call s fl inp n) :
    (r.used = inp.length ∨ r.out.length = n) ∧ B.Live r.next (inp.drop r.used ++ more) ∧
    (B.run s (inp ++ more)).1 = r.out ++ (B.run r.next (inp.drop r.used ++ more)).1 ∧
    (B.run s (inp ++ more)).2 = (B.run r.next (inp.drop r.used ++ more)).2 := by
  subst hr
  obtain ⟨hrun, hstop⟩ := feed_spec (n := n) (live_append.mp h).1
  have hsplit : inp ++ more =
      inp.take (B.feed s inp n).1 ++ (inp.drop (B.feed s inp n).1 ++ more) := by
    rw [← List.append_assoc, List.take_append_drop]
  have hwhole := run_append s (inp.take (B.feed s inp n).1) (inp.drop (B.feed s inp n).1 ++ more)
  rw [hsplit] at h
  have hlive := (live_append.mp h).2
  rw [← hsplit, hrun] at hwhole
  rw [hrun] at hlive
  exact ⟨hstop, hlive, by rw [hwhole]; rfl, by rw [hwhole]; rfl⟩

/-- A file that ends the stream with its last byte. -/
def Whole (s : B.σ) (F X : Bytes) : Prop :=
  B.Live s F ∧ (B.run s F).1 = X ∧ B.code (B.run s F).2 = some .streamEnd ∧ B.code s = none

theorem invariant_whole : InflateInvariant B.machine Whole where
  nonempty s F X h := by
    rintro rfl
    obtain ⟨-, -, hend, hs⟩ := h
    change B.code s = some .streamEnd at hend
    rw [hs] at hend
    cases hend
  call s inp more X n h hinp hn := by
    obtain ⟨hlive, hX, hend, hs⟩ := h
    obtain ⟨r, hr⟩ : ∃ r, r = B.machine.call s .syncFlush inp n := ⟨_, rfl⟩
    obtain ⟨hstop, hlive', hout, hlast⟩ := call_spec hlive hr
    have hret : r.ret = B.ret .syncFlush inp n r.next := by rw [hr]; rfl
    rw [← hr]
    refine ⟨_, hX.symm.trans hout, ?_⟩
    cases hc : B.code r.next with
    | none =>
      refine .inl ⟨?_, hstop, hlive', rfl, ?_, hc⟩
      · rw [hret]
        show (B.code r.next).getD _ = _
        rw [hc, Option.getD_none, if_neg (by simp [hinp]; omega)]
      · rw [← hlast]; exact hend
    | some code =>
      -- a code is only reached with the last byte
      have hnil : inp.drop r.used ++ more = [] := by
        cases hrest : inp.drop r.used ++ more with
        | nil => rfl
        | cons b bs =>
          rw [hrest, Live, hc] at hlive'
          cases hlive'.1
      rw [hnil, run] at hlast
      rw [hlast, hc] at hend
      cases hend
      refine .inr ⟨?_, hnil, by rw [hnil]; rfl, fun n' => ?_⟩
      · rw [hret]
        show (B.code r.next).getD _ = _
        rw [hc]; rfl
      · show (B.code r.next).getD _ = _
        rw [hc]; rfl

theorem decodes_of_run {F X : Bytes} (h : Whole B.init F X) : Decodes B.machine F X :=
  ⟨Whole, invariant_whole, h⟩

end ByteMachine

end LinboxRescue
