import LinboxRescue.Lib.CString
import LinboxRescue.Lib.Fuel
import LinboxRescue.Lib.Stream

/-!
# The calls of the user interface

`revimage` shows its progress in another program: `ui_send` (`src/client/revimage/client.c`) connects to
it and writes a command and its arguments, and `server_loop` (`server.c`) reads them and calls the
function of that name. Strings are written after their length, which is a `size_t` of `w` bytes
(`easy_sock.c`).

Every field is read with one call of `read()`, which may return less than was asked for. What then stands
in the rest of the variable is whatever the memory held before (`junk`).

1. `readString_whole`, `readString_inv`, `readInt_whole`, `readInt_inv`: when a field is read right.
2. `serveRequest_iff`: a request is decoded right, whatever the memory held, exactly when its strings are
   not empty and no field is cut.
3. `serverLoop_iff`: so it is for any number of requests, one after the other.
-/

namespace LinboxRescue

/-! ## `ui_send` -/

/-- `write_string`. -/
def writeString (w : ℕ) (s : Bytes) : Bytes := leBytes w s.length ++ s

/-- `ui_send`: what is written to the connection. -/
def uiSend (w : ℕ) (command : Bytes) (args : List Bytes) : Bytes :=
  writeString w command ++ (leBytes 4 args.length ++ args.flatMap (writeString w))

/-! ## `server_loop` -/

/-- The server waits for bytes that do not come, or does what C does not define. -/
inductive Stuck
  | blocked | crash
  deriving DecidableEq, Repr

/-- What an uninitialised variable holds, at each point of the stream. -/
abbrev Junk := List Bytes → ℕ → UInt8

/-- A variable of `w` bytes after a read. -/
def fillWord (w : ℕ) (got : Bytes) (junk : ℕ → UInt8) : Bytes :=
  got ++ (List.range' got.length (w - got.length)).map junk

variable (w : ℕ) (junk : Junk)

/-- `read_string`. An empty string is not told from an error. -/
def readString (chunks : List Bytes) : Except Stuck (Option Bytes × List Bytes) :=
  match readSome w chunks with
  | none => .error .blocked
  | some (got, cs) =>
    let len := leVal (fillWord w got (junk chunks))
    if len = 0 then .ok (none, cs)
    -- `malloc` gives no more than `PTRDIFF_MAX` bytes, and its result is not looked at
    else if 256 ^ w / 2 ≤ len + 1 then .error .crash
    else match readSome len cs with
      | none => .error .blocked
      | some (s, cs) => .ok (some (cstr s), cs)

/-- The `int` of four bytes. -/
def leInt (bs : Bytes) : ℤ := if leVal bs < 2 ^ 31 then leVal bs else leVal bs - 2 ^ 32

/-- `read_int`. -/
def readInt (chunks : List Bytes) : Except Stuck (ℤ × List Bytes) :=
  match readSome 4 chunks with
  | none => .error .blocked
  | some (got, cs) => .ok (leInt (fillWord 4 got (junk chunks)), cs)

/-- The arguments, in their order. -/
def readArgs : ℕ → List Bytes → Except Stuck (List (Option Bytes) × List Bytes)
  | 0, chunks => .ok ([], chunks)
  | n + 1, chunks =>
    readString w junk chunks >>= fun a => readArgs n a.2 >>= fun as => .ok (a.1 :: as.1, as.2)

/-- A call of a function of the table. -/
structure RpcCall where
  name : Bytes
  args : ℤ
  arg : List (Option Bytes)
  deriving DecidableEq, Repr

/-- One connection: the function that is called, if it is in the table. There is room for 255
arguments. -/
def serveRequest (commands : List Bytes) (chunks : List Bytes) : Except Stuck (Option RpcCall) :=
  readString w junk chunks >>= fun cmd =>
    readInt junk cmd.2 >>= fun args =>
      if 255 < args.1 then .error .crash
      else readArgs w junk args.1.toNat args.2 >>= fun arg =>
        match cmd.1 with
        | none => .error .crash
        | some name => .ok (if name ∈ commands then some ⟨name, args.1, arg.1⟩ else none)

/-- The connections one after the other. The memory may hold something else at each of them. -/
def serverLoop (junk : ℕ → Junk) (commands : List Bytes) :
    List (List Bytes) → List (Except Stuck (Option RpcCall))
  | [] => []
  | chunks :: conns =>
    match serveRequest w (junk conns.length) commands chunks with
    | .ok call => .ok call :: serverLoop junk commands conns
    | .error e => [.error e]

/-! ## Reading one field -/

variable {w : ℕ} {junk : Junk}

theorem fillWord_full {got : Bytes} (h : got.length = w) (j : ℕ → UInt8) : fillWord w got j = got := by
  unfold fillWord
  rw [h, Nat.sub_self]
  simp

/-- The memory that holds only ones. -/
def ones255 : Junk := fun _ _ => 255

theorem leVal_replicate (n : ℕ) : leVal (List.replicate n 255) + 1 = 256 ^ n := by
  induction n with
  | zero => rfl
  | succ n ih =>
    rw [List.replicate_succ, leVal, pow_succ, ← ih]
    show 255 + _ + 1 = _
    ring

/-- A number whose last bytes are not read is large. -/
theorem leVal_fillWord_short {got : Bytes} (h : got.length < w) (chunks : List Bytes) :
    255 * 256 ^ (w - 1) ≤ leVal (fillWord w got (ones255 chunks)) := by
  have hrep : (List.range' got.length (w - got.length)).map (ones255 chunks) =
      List.replicate (w - got.length) 255 := by
    rw [List.eq_replicate_iff]
    refine ⟨by simp, fun b hb => ?_⟩
    obtain ⟨i, -, rfl⟩ := List.mem_map.mp hb
    rfl
  have hval := leVal_replicate (w - got.length)
  have hpow : 256 ^ got.length * 256 ^ (w - got.length) = 256 ^ w := by
    rw [← pow_add]
    congr 1
    omega
  have hle : 256 ^ got.length ≤ 256 ^ (w - 1) := Nat.pow_le_pow_right (by omega) (by omega)
  have hw : 256 ^ w = 256 ^ (w - 1) * 256 := by
    rw [← pow_succ]
    congr 1
    omega
  unfold fillWord
  rw [leVal_append, hrep]
  have : 256 ^ got.length * leVal (List.replicate (w - got.length) 255) + 256 ^ got.length = 256 ^ w := by
    rw [← hpow, ← hval]
    ring
  omega

/-- A string that is read whole. -/
theorem readString_whole {s : Bytes} {chunks c₁ c₂ : List Bytes} (hs : s ≠ []) (h0 : ∀ b ∈ s, b ≠ 0)
    (hlen : s.length + 1 < 256 ^ w / 2) (h1 : readSome w chunks = some (leBytes w s.length, c₁))
    (h2 : readSome s.length c₁ = some (s, c₂)) : readString w junk chunks = .ok (some s, c₂) := by
  have hpos := List.length_pos_iff.mpr hs
  have hval : leVal (fillWord w (leBytes w s.length) (junk chunks)) = s.length := by
    rw [fillWord_full (length_leBytes w _), leVal_leBytes (by omega)]
  unfold readString
  rw [h1]
  simp only [hval]
  rw [if_neg (by omega), if_neg (by omega), h2]
  simp only [cstr_eq_self h0]

/-- A string that is read right, whatever the memory held, is not empty and was read whole. -/
theorem readString_inv (hw : 0 < w) {s rest : Bytes} {chunks cs : List Bytes} (h0 : ∀ b ∈ s, b ≠ 0)
    (hlen : s.length + 1 < 256 ^ w / 2) (hne : ∀ c ∈ chunks, c ≠ [])
    (hflat : chunks.flatten = writeString w s ++ rest)
    (h : readString w ones255 chunks = .ok (some s, cs)) :
    s ≠ [] ∧ (∃ c₁, readSome w chunks = some (leBytes w s.length, c₁) ∧
      readSome s.length c₁ = some (s, cs)) ∧ cs.flatten = rest ∧ ∀ c ∈ cs, c ≠ [] := by
  unfold writeString at hflat
  rw [List.append_assoc] at hflat
  unfold readString at h
  cases h1 : readSome w chunks with
  | none => rw [h1] at h; cases h
  | some p =>
    obtain ⟨got, c₁⟩ := p
    rw [h1] at h
    dsimp only at h
    obtain ⟨-, hpre, hsplit, hc₁⟩ := readSome_inv (length_leBytes w s.length) hw hne hflat h1
    have hpow : 256 ^ w = 256 ^ (w - 1) * 256 := by
      rw [← pow_succ]
      congr 1
      omega
    -- the length was read whole, or it is too large
    have hfull : got = leBytes w s.length := by
      refine hpre.eq_of_length ?_
      by_contra hshort
      have hlt : got.length < w := by
        have := hpre.length_le
        rw [length_leBytes] at this hshort
        omega
      have := leVal_fillWord_short hlt chunks
      have : 0 < 256 ^ (w - 1) := Nat.pow_pos (by omega)
      rw [if_neg (by omega), if_pos (by omega)] at h
      cases h
    subst hfull
    rw [List.append_cancel_left_eq] at hsplit
    rw [fillWord_full (length_leBytes w _), leVal_leBytes (by omega)] at h
    by_cases hs : s.length = 0
    · rw [if_pos hs] at h
      cases h
    · rw [if_neg hs, if_neg (by omega)] at h
      cases h2 : readSome s.length c₁ with
      | none => rw [h2] at h; cases h
      | some p =>
        obtain ⟨got', c₂⟩ := p
        rw [h2] at h
        dsimp only at h
        obtain ⟨hstr, rfl⟩ := Prod.mk.inj (Except.ok.inj h)
        obtain ⟨-, hpre', hsplit', hc₂⟩ := readSome_inv rfl (by omega) hc₁ hsplit h2
        have hgot : got' = s := by
          have h0' : ∀ b ∈ got', b ≠ 0 := fun b hb => h0 b (hpre'.subset hb)
          rw [cstr_eq_self h0'] at hstr
          exact Option.some.inj hstr
        subst hgot
        rw [List.append_cancel_left_eq] at hsplit'
        exact ⟨fun e => hs (by rw [e]; rfl), ⟨c₁, rfl, h2⟩, hsplit', hc₂⟩

theorem leInt_leBytes {n : ℕ} (h : n < 2 ^ 31) : leInt (leBytes 4 n) = n := by
  have hval : leVal (leBytes 4 n) = n := leVal_leBytes (by omega)
  unfold leInt
  rw [hval, if_pos h]

theorem readInt_whole {n : ℕ} {chunks cs : List Bytes} (hn : n < 2 ^ 31)
    (h : readSome 4 chunks = some (leBytes 4 n, cs)) : readInt junk chunks = .ok ((n : ℤ), cs) := by
  unfold readInt
  rw [h]
  simp only [fillWord_full (length_leBytes 4 n), leInt_leBytes hn]

/-- A number that is read right, whatever the memory held, was read whole. -/
theorem readInt_inv {n : ℕ} {rest : Bytes} {chunks cs : List Bytes} (hn : n < 2 ^ 31)
    (hne : ∀ c ∈ chunks, c ≠ []) (hflat : chunks.flatten = leBytes 4 n ++ rest)
    (h : readInt ones255 chunks = .ok ((n : ℤ), cs)) :
    readSome 4 chunks = some (leBytes 4 n, cs) ∧ cs.flatten = rest ∧ ∀ c ∈ cs, c ≠ [] := by
  unfold readInt at h
  cases h1 : readSome 4 chunks with
  | none => rw [h1] at h; cases h
  | some p =>
    obtain ⟨got, c₁⟩ := p
    rw [h1] at h
    dsimp only at h
    obtain ⟨hval, rfl⟩ := Prod.mk.inj (Except.ok.inj h)
    obtain ⟨-, hpre, hsplit, hc₁⟩ := readSome_inv (length_leBytes 4 n) (by omega) hne hflat h1
    have hfull : got = leBytes 4 n := by
      refine hpre.eq_of_length ?_
      by_contra hshort
      have hlt : got.length < 4 := by
        have := hpre.length_le
        rw [length_leBytes] at this hshort
        omega
      have hlarge := leVal_fillWord_short hlt chunks
      have hbound : leVal (fillWord 4 got (ones255 chunks)) < 2 ^ 32 := by
        have hlen : (fillWord 4 got (ones255 chunks)).length = 4 := by
          unfold fillWord
          simp only [List.length_append, List.length_map, List.length_range']
          omega
        have := leVal_lt (fillWord 4 got (ones255 chunks))
        rwa [hlen] at this
      unfold leInt at hval
      rw [if_neg (by omega)] at hval
      omega
    subst hfull
    rw [List.append_cancel_left_eq] at hsplit
    exact ⟨rfl, hsplit, hc₁⟩

/-! ## Requests -/

/-- The fields of a string. -/
def stringFields (w : ℕ) (s : Bytes) : List Bytes := leBytes w s.length :: if s = [] then [] else [s]

/-- The fields of a request. -/
def requestFields (w : ℕ) (command : Bytes) (args : List Bytes) : List Bytes :=
  stringFields w command ++ leBytes 4 args.length :: args.flatMap (stringFields w)

/-- A string that can be passed: C strings have no NUL, and fit into the memory. -/
def Passable (w : ℕ) (s : Bytes) : Prop := (∀ b ∈ s, b ≠ 0) ∧ s.length + 1 < 256 ^ w / 2

theorem readArgs_whole {args : List Bytes} : ∀ {chunks : List Bytes},
    (∀ a ∈ args, a ≠ [] ∧ Passable w a) → ReadsWhole (args.flatMap (stringFields w)) chunks →
      readArgs w junk args.length chunks = .ok (args.map some, []) := by
  induction args with
  | nil =>
    intro chunks _ h
    rw [show chunks = [] from h]
    rfl
  | cons a args ih =>
    intro chunks ha h
    obtain ⟨⟨hne, h0, hlen⟩, ha⟩ := List.forall_mem_cons.mp ha
    rw [List.flatMap_cons, stringFields, if_neg hne] at h
    obtain ⟨c₁, h1, c₂, h2, h⟩ := h
    rw [length_leBytes] at h1
    rw [List.length_cons, readArgs, readString_whole hne h0 hlen h1 h2]
    show (readArgs w junk args.length c₂ >>= _) = _
    rw [ih ha h]
    rfl

theorem readArgs_inv (hw : 0 < w) {args : List Bytes} : ∀ {chunks cs : List Bytes},
    (∀ a ∈ args, Passable w a) → (∀ c ∈ chunks, c ≠ []) →
      chunks.flatten = args.flatMap (writeString w) →
      readArgs w ones255 args.length chunks = .ok (args.map some, cs) →
      (∀ a ∈ args, a ≠ []) ∧ ReadsWhole (args.flatMap (stringFields w)) chunks := by
  induction args with
  | nil =>
    intro chunks cs _ hne hflat _
    refine ⟨fun a ha => (by cases ha), ?_⟩
    cases chunks with
    | nil => rfl
    | cons c cs =>
      rw [List.flatten_cons, List.flatMap_nil, List.append_eq_nil_iff] at hflat
      exact absurd hflat.1 (hne c (by simp))
  | cons a args ih =>
    intro chunks cs ha hne hflat h
    obtain ⟨⟨h0, hlen⟩, ha⟩ := List.forall_mem_cons.mp ha
    rw [List.length_cons, readArgs] at h
    obtain ⟨⟨a', c₂⟩, hstr, h⟩ := bind_eq_ok h
    obtain ⟨⟨as, c₃⟩, hargs, h⟩ := bind_eq_ok h
    obtain ⟨hlist, rfl⟩ := Prod.mk.inj (Except.ok.inj h)
    rw [List.map_cons] at hlist
    obtain ⟨rfl, rfl⟩ := List.cons.inj hlist
    rw [List.flatMap_cons] at hflat
    obtain ⟨hs, ⟨c₁, h1, h2⟩, hflat₂, hne₂⟩ := readString_inv hw h0 hlen hne hflat hstr
    obtain ⟨hall, hwhole⟩ := ih ha hne₂ hflat₂ hargs
    refine ⟨List.forall_mem_cons.mpr ⟨hs, hall⟩, ?_⟩
    rw [List.flatMap_cons, stringFields, if_neg hs]
    exact ⟨c₁, by rw [length_leBytes]; exact h1, c₂, h2, hwhole⟩

/-- A request as it arrives: the command is in the table, and the pieces make up what `ui_send` has
written. -/
structure Connection (w : ℕ) (commands : List Bytes) where
  cmd : Bytes
  args : List Bytes
  chunks : List Bytes
  known : cmd ∈ commands
  passable : ∀ s ∈ cmd :: args, Passable w s
  few : args.length < 255
  nonempty : ∀ c ∈ chunks, c ≠ []
  sent : chunks.flatten = uiSend w cmd args

variable {commands : List Bytes} (c : Connection w commands)

/-- The call that `ui_send` asked for. -/
def Connection.call : RpcCall := ⟨c.cmd, c.args.length, c.args.map some⟩

/-- The strings are not empty, and no field is cut. -/
def Connection.Intact : Prop :=
  c.cmd ≠ [] ∧ (∀ a ∈ c.args, a ≠ []) ∧ Uncut (requestFields w c.cmd c.args) c.chunks

theorem leBytes_ne_nil {w : ℕ} (hw : 0 < w) (n : ℕ) : leBytes w n ≠ [] := by
  intro h
  have := congrArg List.length h
  rw [length_leBytes] at this
  exact hw.ne' this

theorem stringFields_ne_nil (hw : 0 < w) (s : Bytes) : ∀ f ∈ stringFields w s, f ≠ [] := by
  unfold stringFields
  refine List.forall_mem_cons.mpr ⟨leBytes_ne_nil hw _, ?_⟩
  split_ifs with hs
  · intro f hf
    cases hf
  · exact List.forall_mem_singleton.mpr hs

theorem requestFields_ne_nil (hw : 0 < w) (cmd : Bytes) (args : List Bytes) :
    ∀ f ∈ requestFields w cmd args, f ≠ [] := by
  unfold requestFields
  refine List.forall_mem_append.mpr ⟨stringFields_ne_nil hw cmd, ?_⟩
  refine List.forall_mem_cons.mpr ⟨leBytes_ne_nil (by omega) _, fun f hf => ?_⟩
  obtain ⟨a, -, hf⟩ := List.mem_flatMap.mp hf
  exact stringFields_ne_nil hw a f hf

theorem serveRequest_of_intact (hw : 0 < w) (h : c.Intact) (junk : Junk) :
    serveRequest w junk commands c.chunks = .ok (some c.call) := by
  obtain ⟨hcmd, hargs, hu⟩ := h
  obtain ⟨⟨h0, hlen⟩, hpass⟩ := List.forall_mem_cons.mp c.passable
  have hfew := c.few
  have hwhole := (readsWhole_iff (requestFields_ne_nil hw c.cmd c.args) c.nonempty).mpr hu
  unfold requestFields stringFields at hwhole
  rw [if_neg hcmd] at hwhole
  obtain ⟨c₁, h1, c₂, h2, c₃, h3, hwhole⟩ := hwhole
  rw [length_leBytes] at h1 h3
  unfold serveRequest
  rw [readString_whole hcmd h0 hlen h1 h2]
  show (readInt junk c₂ >>= _) = _
  rw [readInt_whole (by omega) h3]
  show (if (255 : ℤ) < c.args.length then _ else _) = _
  rw [if_neg (by omega), Int.toNat_natCast,
    readArgs_whole (fun a ha => ⟨hargs a ha, hpass a ha⟩) hwhole]
  show Except.ok (if c.cmd ∈ commands then _ else _) = _
  rw [if_pos c.known]
  rfl

/-- What was decoded right with the memory full of ones was read whole. -/
theorem intact_of_serveRequest (hw : 0 < w)
    (h : serveRequest w ones255 commands c.chunks = .ok (some c.call)) : c.Intact := by
  obtain ⟨⟨h0, hlen⟩, hpass⟩ := List.forall_mem_cons.mp c.passable
  have hfew := c.few
  unfold serveRequest at h
  obtain ⟨⟨cmd, c₂⟩, hcmd, h⟩ := bind_eq_ok h
  obtain ⟨⟨n, c₃⟩, hint, h⟩ := bind_eq_ok h
  dsimp only at hint h
  split_ifs at h
  obtain ⟨⟨arg, c₄⟩, hargs, h⟩ := bind_eq_ok h
  -- what was called is what was asked for
  have hcall : cmd = some c.cmd ∧ n = (c.args.length : ℤ) ∧ arg = c.args.map some := by
    cases cmd with
    | none => cases h
    | some name =>
      have h := Except.ok.inj h
      split_ifs at h
      have h := Option.some.inj h
      exact ⟨congrArg some (congrArg RpcCall.name h), congrArg RpcCall.args h, congrArg RpcCall.arg h⟩
  obtain ⟨rfl, rfl, rfl⟩ := hcall
  obtain ⟨hs, ⟨c₁, h1, h2⟩, hflat₂, hne₂⟩ := readString_inv hw h0 hlen c.nonempty c.sent hcmd
  obtain ⟨h3, hflat₃, hne₃⟩ := readInt_inv (by omega) hne₂ hflat₂ hint
  rw [Int.toNat_natCast] at hargs
  obtain ⟨hall, hwhole⟩ := readArgs_inv hw hpass hne₃ hflat₃ hargs
  refine ⟨hs, hall, (readsWhole_iff (requestFields_ne_nil hw c.cmd c.args) c.nonempty).mp ?_⟩
  unfold requestFields stringFields
  rw [if_neg hs]
  exact ⟨c₁, by rw [length_leBytes]; exact h1, c₂, h2, c₃, by rw [length_leBytes]; exact h3, hwhole⟩

/-- **One request** is decoded right, whatever the memory held before, exactly when it is intact. -/
theorem serveRequest_iff (hw : 0 < w) :
    (∀ junk, serveRequest w junk commands c.chunks = .ok (some c.call)) ↔ c.Intact :=
  ⟨fun h => intact_of_serveRequest c hw (h ones255), serveRequest_of_intact c hw⟩

/-- **The calls of the user interface.** Any sequence of requests leads to the calls that `ui_send` asked
for, in their order and whatever the memory held, exactly when all of them are intact. -/
theorem serverLoop_iff (hw : 0 < w) (conns : List (Connection w commands)) :
    (∀ junk, serverLoop w junk commands (conns.map Connection.chunks) =
      conns.map fun c => .ok (some c.call)) ↔ ∀ c ∈ conns, c.Intact := by
  constructor
  · intro h
    replace h := h fun _ => ones255
    induction conns with
    | nil => intro c hc; cases hc
    | cons c conns ih =>
      rw [List.map_cons, List.map_cons, serverLoop] at h
      split at h
      · rename_i call hcall
        obtain ⟨hc, h⟩ := List.cons.inj h
        rw [hc] at hcall
        exact List.forall_mem_cons.mpr ⟨intact_of_serveRequest c hw hcall, ih h⟩
      · cases (List.cons.inj h).1
  · intro h junk
    induction conns with
    | nil => rfl
    | cons c conns ih =>
      obtain ⟨hc, h⟩ := List.forall_mem_cons.mp h
      rw [List.map_cons, List.map_cons, serverLoop, serveRequest_of_intact c hw hc]
      exact congrArg _ (ih h)

/-- Two commands of the user interface. -/
def uiCommands : List Bytes := [ascii "misc_error", ascii "close"]

/-- `ui_send("misc_error", 2, "Error", "")`, which arrives in one piece. -/
def emptyArgument : Connection 4 uiCommands where
  cmd := ascii "misc_error"
  args := [ascii "Error", []]
  chunks := [uiSend 4 (ascii "misc_error") [ascii "Error", []]]
  known := by decide
  passable := by unfold Passable; decide
  few := by decide
  nonempty := by decide
  sent := by simp

/-- `ui_send("close", 0)`, of which the first byte arrives alone. -/
def cutClose : Connection 4 uiCommands where
  cmd := ascii "close"
  args := []
  chunks := [[5], ascii "\x00\x00\x00close\x00\x00\x00\x00"]
  known := by decide
  passable := by unfold Passable; decide
  few := by decide
  nonempty := by decide
  sent := by decide

/-- `ui_send("misc_error", 1, "Disk full")`, whose last string arrives alone. -/
def wholeError : Connection 4 uiCommands where
  cmd := ascii "misc_error"
  args := [ascii "Disk full"]
  chunks := [leBytes 4 10 ++ ascii "misc_error" ++ leBytes 4 1 ++ leBytes 4 9, ascii "Disk full"]
  known := by decide
  passable := by unfold Passable; decide
  few := by decide
  nonempty := by decide
  sent := by decide

/-- The first request is decoded with a null pointer for its second argument, the second one not at
all. -/
theorem serverLoop_wrong :
    ¬ (∀ junk, serverLoop 4 junk uiCommands [emptyArgument.chunks] =
      [.ok (some emptyArgument.call)]) ∧
    ¬ (∀ junk, serverLoop 4 junk uiCommands [cutClose.chunks] = [.ok (some cutClose.call)]) := by
  constructor
  · intro h
    exact absurd (h fun _ _ _ => 0) (by decide)
  · intro h
    exact absurd (h fun _ _ _ => 0) (by decide)

theorem serverLoop_iff_close : 0 < 4 ∧
    ((∀ junk, serverLoop 4 junk uiCommands ([wholeError].map Connection.chunks) =
      [wholeError].map fun c => .ok (some c.call)) ↔ ∀ c ∈ [wholeError], c.Intact) ∧
    ((∀ junk, serverLoop 4 junk uiCommands ([wholeError, cutClose].map Connection.chunks) =
      [wholeError, cutClose].map fun c => .ok (some c.call)) ↔
        ∀ c ∈ [wholeError, cutClose], c.Intact) ∧
    wholeError.Intact :=
  ⟨by decide, serverLoop_iff (by decide) [wholeError], serverLoop_iff (by decide) [wholeError, cutClose],
    by decide, by decide,
    [[leBytes 4 10, ascii "misc_error", leBytes 4 1, leBytes 4 9], [ascii "Disk full"]], by decide, by decide⟩

end LinboxRescue
