import LinboxRescue.Server.Survival

/-!
# What reaches the shell

`process_packet` inserts the MAC address of the client, its short form, and parts of the packet into
command lines and file names.

1. `clean_iff_trusted`: what the MAC of a packet is made of, from its trailer.
2. `sanitised_processPacket`: what every request inserts.
3. `serve_sanitised_iff`: nothing dangerous is inserted exactly when the packet is `Plain`.
-/

namespace LinboxRescue

variable {env : Env} {d : Daemon} {pkt : Bytes}

/-- The characters with a meaning to the shell, and the slash. -/
def shellSpecial : Bytes := ascii "|&;<>()$`\\\"'*?[]#~=%!^/\x7b\x7d"

/-- A byte that does not end a word, is no metacharacter and does not leave the directory. -/
def wordByte (b : UInt8) : Bool := 32 < b.toNat && b.toNat ≠ 127 && !(shellSpecial.contains b)

def hexOrColon (b : UInt8) : Bool := isHex b || b == 58

/-- A single word. -/
def ShellWord (s : Bytes) : Prop := s ≠ [] ∧ ∀ b ∈ s, wordByte b = true

/-- What may be inserted into a command line or a file name. A host name or a password that does not fit
into its array leaves other bytes in their place. -/
def Clean : Role × Bytes → Prop
  | (.smac, s) => ∀ b ∈ s, isHex b = true
  | (.mac, s) => ∀ b ∈ s, hexOrColon b = true
  | (.host, s) | (.pass, s) => ShellWord s ∧ s.length ≤ 255
  | (.char, s) => ∀ b ∈ s, wordByte b = true
  | (.num, s) => ∀ b ∈ s, isDigit b = true ∨ b = 45

/-- Nothing else is inserted. -/
def Sanitised (es : List Effect) : Prop := ∀ e ∈ es, ∀ p ∈ e.inserts, Clean p

theorem sanitised_nil : Sanitised [] := fun e h => by cases h

theorem sanitised_cons {e : Effect} {es : List Effect} :
    Sanitised (e :: es) ↔ (∀ p ∈ e.inserts, Clean p) ∧ Sanitised es := List.forall_mem_cons

theorem sanitised_append {es fs : List Effect} :
    Sanitised (es ++ fs) ↔ Sanitised es ∧ Sanitised fs := List.forall_mem_append

/-! ## The requests -/

theorem clean_dec (n : ℕ) : Clean (.num, dec n) := fun b hb => .inl (isDigit_of_mem_dec b hb)

theorem clean_decInt (n : ℤ) : Clean (.num, decInt n) := by
  cases n with
  | ofNat n => exact clean_dec n
  | negSucc n => exact List.forall_mem_cons.mpr ⟨.inr rfl, clean_dec _⟩

/-- The log of a client is named after it, whether or not it can be opened. -/
theorem sanitised_mysyslog {smac text : Bytes} :
    Sanitised (mysyslog env smac text) ↔ Clean (.smac, smac) := by
  unfold mysyslog
  cases formatSafe (text.take 1022) <;> dsimp only <;> split_ifs <;>
    simp_all [Sanitised, Effect.inserts]

theorem sanitised_backupCompleted {smac what : Bytes} (h : Clean (.smac, smac)) :
    Sanitised (backupCompleted env smac what) := by
  unfold backupCompleted
  split
  · rename_i bn _
    refine sanitised_cons.mpr ⟨?_, sanitised_nil⟩
    show ∀ p ∈ [(Role.smac, smac), (Role.num, decInt bn)], Clean p
    exact List.forall_mem_cons.mpr ⟨h, List.forall_mem_singleton.mpr (clean_decInt bn)⟩
  · split
    · rename_i bn _
      refine sanitised_cons.mpr ⟨?_, sanitised_nil⟩
      exact List.forall_mem_singleton.mpr (clean_decInt bn)
    · exact sanitised_nil

theorem sanitised_logRequest {buf mac smac what : Bytes} :
    Sanitised (logRequest env buf mac smac what) ↔
      ((logText buf mac what).isSome → Clean (.smac, smac)) := by
  unfold logRequest
  cases ht : logText buf mac what with
  | none => exact iff_of_true sanitised_nil fun h => by cases h
  | some text =>
    simp only [Option.isSome_some, forall_const]
    rw [sanitised_append, sanitised_mysyslog]
    refine ⟨And.left, fun h => ⟨h, ?_⟩⟩
    split_ifs
    · exact sanitised_backupCompleted h
    · exact sanitised_nil

theorem sanitised_hardwareRequest {mac smac s : Bytes} :
    Sanitised (hardwareRequest env mac smac s) ↔ Clean (.smac, smac) := by
  unfold hardwareRequest
  split_ifs <;> simp [Sanitised, Effect.inserts, infFile]

theorem sanitised_idRequest {mac s id : Bytes} : Sanitised (idRequest env mac s id) ↔
    (env.opens (snprintf 255 (idFile env)) = true → ∀ hostname pass, id = hostname ++ 58 :: pass →
      58 ∉ pass → Clean (.mac, mac) ∧ Clean (.host, hostname) ∧ Clean (.pass, pass)) := by
  have happend : Sanitised [Effect.append (idFile env) (report env mac s)] := by
    simp [Sanitised, Effect.inserts, idFile]
  unfold idRequest
  split_ifs with ho
  · simp only [ho, true_imp_iff]
    cases hs : strrchr id 58 with
    | none =>
      refine iff_of_true (by simp [Sanitised, Effect.inserts, idFile]) ?_
      rintro u v rfl -
      exact absurd (strrchr_eq_none.mp hs) (by simp)
    | some p =>
      obtain ⟨u, v⟩ := p
      have hspec := strrchr_eq_some.mp hs
      have huniq : (∀ u' v', id = u' ++ 58 :: v' → 58 ∉ v' →
          Clean (.mac, mac) ∧ Clean (.host, u') ∧ Clean (.pass, v')) ↔
          Clean (.mac, mac) ∧ Clean (.host, u) ∧ Clean (.pass, v) := by
        constructor
        · intro h
          exact h u v hspec.1 hspec.2
        · intro h u' v' h1 h2
          rw [strrchr_eq_some.mpr ⟨h1, h2⟩] at hs
          obtain ⟨rfl, rfl⟩ := Prod.mk.inj (Option.some.inj hs)
          exact h
      have hfault : ∀ (c : Prop) [Decidable c] (f : Fault),
          Sanitised (if c then [Effect.fault f] else []) := by
        intro c _ f
        split_ifs
        · exact sanitised_cons.mpr ⟨fun p hp => (by cases hp), sanitised_nil⟩
        · exact sanitised_nil
      rw [huniq]
      dsimp only
      rw [← List.singleton_append, sanitised_append, sanitised_append, sanitised_append]
      simp only [happend, hfault, true_and]
      rw [sanitised_cons, and_iff_left sanitised_nil]
      show (∀ p ∈ [(Role.mac, mac), (Role.host, u), (Role.pass, v)], Clean p) ↔ _
      rw [List.forall_mem_cons, List.forall_mem_cons, List.forall_mem_singleton]
  · refine iff_of_true (by simp [Sanitised, Effect.inserts, idFile]) fun h => absurd h ho

/-! ## The MAC address of a packet -/

/-- The MAC address is made of bytes that are `ok`: the digits of the trailer are, up to a NUL, or
there is no trailer and the client is in the ARP table. -/
def Trusted (env : Env) (ok : UInt8 → Bool) (buf : Bytes) (plen : ℕ) : Prop :=
  match getmacfrompkt buf plen with
  | some m => ∀ i < 17, i % 3 ≠ 2 → i < (cstr m).length → ok (byteAt m i) = true
  | none => inArp env = true

/-- The packet inserts nothing dangerous. -/
def Plain (env : Env) (buf : Bytes) (plen : ℕ) : Prop :=
  match command (byteAt buf 0) with
  | .hardware | .default => Trusted env isHex buf plen
  | .id => env.opens (snprintf 255 (idFile env)) = true → ∀ hostname pass,
      strAt env buf 3 = hostname ++ 58 :: pass → 58 ∉ pass →
        Trusted env hexOrColon buf plen ∧ (ShellWord hostname ∧ hostname.length ≤ 255) ∧
          ShellWord pass ∧ pass.length ≤ 255
  | .save => Trusted env isHex buf plen ∧ (byteAt buf 1 = 0 ∨ wordByte (byteAt buf 1) = true)
  | .log => 48 ≤ (byteAt buf 1).toNat ∧ (byteAt buf 1).toNat ≤ 56 → Trusted env isHex buf plen
  | _ => True

theorem isSome_logText {buf mac what : Bytes} : (logText buf mac what).isSome ↔
    48 ≤ (byteAt buf 1).toNat ∧ (byteAt buf 1).toNat ≤ 56 := by
  unfold logText
  dsimp only
  split
  case h_10 =>
    simp only [Option.isSome_none, Bool.false_eq_true, false_iff]
    rintro ⟨h1, h2⟩
    generalize (byteAt buf 1).toNat = n at *
    interval_cases n <;> simp_all
  all_goals
    rename_i h
    simp [h]

/-- The bytes that `getmacfrompkt` copies: a C string of at most 17 bytes, then NULs. -/
theorem getmacfrompkt_spec {buf m : Bytes} {l : ℕ} (h : getmacfrompkt buf l = some m) :
    0 ∈ m ∧ (cstr m).length ≤ 17 ∧ (∀ i, byteAt m i ≠ 0 ↔ i < (cstr m).length) ∧
      ∀ i < (cstr m).length, i % 3 = 2 → byteAt m i = 58 := by
  unfold getmacfrompkt at h
  split_ifs at h with hl hc
  obtain ⟨-, -, -, h2, h5, h8, h11, h14⟩ := hc
  set t := (buf.drop (l - 17)).take 17 with ht
  obtain rfl := Option.some.inj h
  have hlen : (cstr t).length ≤ 17 := by
    refine le_trans (List.takeWhile_sublist _).length_le ?_
    rw [List.length_take]
    exact Nat.min_le_left _ _
  obtain ⟨k, hk⟩ : ∃ k, 18 - (cstr t).length = k + 1 := ⟨17 - (cstr t).length, by omega⟩
  have hm : cstr (cstr t ++ List.replicate (18 - (cstr t).length) 0) = cstr t := by
    rw [hk, List.replicate_succ]
    exact cstr_append_zero cstr_ne_zero _
  rw [hm]
  have hbyte : ∀ i < (cstr t).length, byteAt (cstr t ++ List.replicate (18 - (cstr t).length) 0) i =
      byteAt t i := by
    intro i hi
    have hs : byteAt (cstr t ++ t.dropWhile (· ≠ 0)) i = byteAt (cstr t) i := byteAt_append_left hi _
    rw [show cstr t ++ t.dropWhile (· ≠ 0) = t from List.takeWhile_append_dropWhile] at hs
    rw [byteAt_append_left hi, hs]
  refine ⟨by rw [hk, List.replicate_succ]; simp, hlen, fun i => ⟨fun hne => ?_, fun hi => ?_⟩,
    fun i hi hmod => ?_⟩
  · by_contra hi
    refine hne ?_
    unfold byteAt
    rw [List.getD_append_right _ _ _ _ (by omega)]
    rw [List.getD_eq_getElem?_getD, List.getElem?_replicate]
    split_ifs <;> rfl
  · rw [hbyte i hi]
    exact cstr_ne_zero _ (byteAt_ne_zero hi)
  · rw [hbyte i hi, ht]
    have hbuf : byteAt ((buf.drop (l - 17)).take 17) i = byteAt buf (l - 17 + i) := by
      unfold byteAt
      rw [List.getD_eq_getElem?_getD, List.getElem?_take_of_lt (by omega), List.getElem?_drop,
        ← List.getD_eq_getElem?_getD]
    rw [hbuf]
    have h17 : i < 17 := by omega
    interval_cases i <;> first
      | omega
      | (rw [show l - 17 + 2 = l - 15 by omega]; exact h2)
      | (rw [show l - 17 + 5 = l - 12 by omega]; exact h5)
      | (rw [show l - 17 + 8 = l - 9 by omega]; exact h8)
      | (rw [show l - 17 + 11 = l - 6 by omega]; exact h11)
      | (rw [show l - 17 + 14 = l - 3 by omega]; exact h14)

/-- The places of the digits in a MAC address. -/
def digitPlaces : List ℕ := [0, 1, 3, 4, 6, 7, 9, 10, 12, 13, 15, 16]

theorem mem_digitPlaces {i : ℕ} : i ∈ digitPlaces ↔ i < 17 ∧ i % 3 ≠ 2 := by
  constructor
  · intro h
    have : ∀ i ∈ digitPlaces, i < 17 ∧ i % 3 ≠ 2 := by decide
    exact this i h
  · rintro ⟨h, h'⟩
    revert h'
    revert i
    decide

/-- The short name of a client, by the digits of its MAC. -/
theorem forall_shortMac {m : Bytes} (h : ∀ i, byteAt m i ≠ 0 ↔ i < (cstr m).length) {p : UInt8 → Prop} :
    (∀ b ∈ shortMac m, p b) ↔ ∀ i < 17, i % 3 ≠ 2 → i < (cstr m).length → p (byteAt m i) := by
  have hpick : shortMac m = (digitPlaces.filter (· < (cstr m).length)).map (byteAt m) :=
    cstr_pick h (show digitPlaces.Pairwise (· < ·) by decide)
  rw [hpick, List.forall_mem_map]
  constructor
  · intro hp i h1 h2 h3
    exact hp i (List.mem_filter.mpr ⟨mem_digitPlaces.mpr ⟨h1, h2⟩, by simpa using h3⟩)
  · intro hp i hi
    obtain ⟨h1, h2⟩ := List.mem_filter.mp hi
    obtain ⟨h3, h4⟩ := mem_digitPlaces.mp h1
    exact hp i h3 h4 (by simpa using h2)

theorem shortMac_append {m : Bytes} (h : 17 ≤ m.length) (t : Bytes) : shortMac (m ++ t) = shortMac m := by
  unfold shortMac
  congr 1
  refine List.map_congr_left fun i hi => byteAt_append_left ?_ t
  have := (mem_digitPlaces.mp (show i ∈ digitPlaces from hi)).1
  omega

theorem IsMac.mem {m : Bytes} (h : IsMac m) : ∀ b ∈ m, hexOrColon b = true := by
  intro b hb
  obtain ⟨i, hi, rfl⟩ := List.getElem_of_mem hb
  have hbyte : byteAt m i = m[i] := List.getD_eq_getElem _ _ hi
  have := h.2 i (by rw [← h.1]; exact hi)
  rw [hbyte] at this
  unfold hexOrColon
  split_ifs at this with hmod
  · simp [this]
  · simp [this]

theorem IsMac.cstr {m : Bytes} (h : IsMac m) (rest : Bytes) : cstr (m ++ 0 :: rest) = m := by
  refine cstr_append_zero (fun b hb e => ?_) rest
  have := h.mem b hb
  rw [e] at this
  exact absurd this (by decide)

theorem IsMac.shortMac_hex {m : Bytes} (h : IsMac m) (rest : Bytes) :
    ∀ b ∈ shortMac (m ++ rest), isHex b = true := by
  rw [shortMac_append h.1.ge]
  intro b hb
  have hb := (List.takeWhile_sublist _).subset hb
  obtain ⟨i, hi, rfl⟩ := List.mem_map.mp hb
  obtain ⟨h1, h2⟩ := mem_digitPlaces.mp (show i ∈ digitPlaces from hi)
  have := h.2 i h1
  rwa [if_neg h2] at this

/-- The MAC of a packet and its short form are made of what `Trusted` says. -/
theorem clean_iff_trusted (harp : ArpTable env) {buf gBuff : Bytes} (hg : gBuff.length = 80)
    {plen : ℕ} {g : Bytes} {off : ℕ} (h : findMac env buf gBuff plen = .ok (g, off)) :
    (Clean (.smac, shortMac (g.drop off)) ↔ Trusted env isHex buf plen) ∧
    (Clean (.mac, cstr (g.drop off)) ↔ Trusted env hexOrColon buf plen) := by
  obtain ⟨g', off', hf, -, hcases⟩ := @findMac_ok env harp buf gBuff hg plen
  obtain ⟨rfl, rfl⟩ := Prod.mk.inj (Except.ok.inj (hf.symm.trans h))
  unfold Trusted
  rcases hcases with ⟨m, rest, hm, hd⟩ | ⟨hm, ⟨hin, m, rest, hmac, hd⟩ | ⟨hin, rest, hd⟩⟩
  · obtain ⟨h0, h17, hpos, hcolon⟩ := getmacfrompkt_spec hm
    have hlen := length_getmacfrompkt hm
    rw [hm, hd, shortMac_append (by omega), cstr_append_of_zero h0]
    refine ⟨forall_shortMac hpos, ?_⟩
    show (∀ b ∈ cstr m, hexOrColon b = true) ↔ _
    rw [forall_cstr_iff]
    constructor
    · intro h i _ _ hi
      exact h i hi
    · intro h i hi
      by_cases hmod : i % 3 = 2
      · rw [hcolon i hi hmod]; rfl
      · exact h i (by omega) hmod hi
  · rw [hm, hd, hmac.cstr rest]
    exact ⟨iff_of_true (hmac.shortMac_hex _) hin, iff_of_true hmac.mem hin⟩
  · have hsmac : shortMac (63 :: 0 :: rest) = [63] := rfl
    have hcstr : cstr (63 :: 0 :: rest) = [63] := rfl
    rw [hm, hd, hsmac, hcstr]
    have hn : ¬ inArp env = true := by rw [hin]; decide
    exact ⟨iff_of_false (fun h => absurd (h 63 (by simp)) (by decide)) hn,
      iff_of_false (fun h => absurd (h 63 (by simp)) (by decide)) hn⟩

/-- **What every request inserts.** -/
theorem sanitised_processPacket (d : Daemon) (mac smac : Bytes) {plen : ℕ}
    (hs : Clean (.smac, smac) ↔ Trusted env isHex d.buf plen)
    (hm : Clean (.mac, mac) ↔ Trusted env hexOrColon d.buf plen) :
    Sanitised (processPacket env d mac smac).1 ↔ Plain env d.buf plen := by
  unfold processPacket Plain
  cases command (byteAt d.buf 0) with
  | hardware => exact sanitised_hardwareRequest.trans hs
  | id =>
    dsimp only
    rw [sanitised_idRequest, hm]
    exact Iff.rfl
  | save =>
    dsimp only
    rw [← hs, sanitised_cons]
    simp only [sanitised_nil, and_true]
    show (∀ p ∈ [(Role.smac, smac), (Role.char, cstr [byteAt d.buf 1])], Clean p) ↔ _
    rw [List.forall_mem_cons, List.forall_mem_singleton]
    refine and_congr Iff.rfl ?_
    show (∀ b ∈ cstr [byteAt d.buf 1], wordByte b = true) ↔ _
    by_cases h0 : byteAt d.buf 1 = 0 <;> simp [cstr, h0]
  | default =>
    dsimp only
    rw [sanitised_cons, sanitised_mysyslog, ← hs]
    refine ⟨And.right, fun h => ⟨?_, h⟩⟩
    show ∀ p ∈ [(Role.smac, smac), (Role.num, dec (byteAt d.buf 1).toNat)], Clean p
    exact List.forall_mem_cons.mpr ⟨h, List.forall_mem_singleton.mpr (clean_dec _)⟩
  | log =>
    dsimp only
    rw [sanitised_logRequest, isSome_logText, hs]
  | name =>
    dsimp only
    refine iff_of_true ?_ trivial
    split
    · split_ifs <;> simp [Sanitised, Effect.inserts]
    · exact sanitised_nil
  | time =>
    dsimp only
    refine iff_of_true ?_ trivial
    split
    · simp [Sanitised, Effect.inserts]
    · exact sanitised_nil
  | other => exact iff_of_true sanitised_nil trivial

/-- **What a packet can insert into command lines and file names.** Nothing else than digits, colons
and single words, exactly when the packet is plain. -/
theorem serve_sanitised_iff (h : d.Valid) (ha : Arrives (env, pkt)) :
    Sanitised (serve env d pkt).1 ↔ Plain env (receive pkt d.buf) pkt.length := by
  obtain ⟨g, off, hf, -⟩ := @findMac_ok env ha.arp (receive pkt d.buf) d.gBuff h.gBuff pkt.length
  obtain ⟨hs, hm⟩ := clean_iff_trusted ha.arp h.gBuff hf
  rw [serve_eq ha hf]
  exact sanitised_processPacket _ _ _ hs hm

/-- A packet whose trailer has the colons of a MAC address, and a command between them. -/
def rebootPacket : Bytes := ascii "\xAA\x00Mc:;r:eb:oo:t;:00:00"

theorem not_sanitised_reboot : ¬ Sanitised (serve lanEnv freshDaemon rebootPacket).1 := by
  intro h
  have := h (.mysystem [.text lanEnv.basedir, .text (ascii "/bin/update_menu "),
    .ins .smac (ascii ";reboot;0000")]) (by decide) (.smac, ascii ";reboot;0000") (by decide)
  exact absurd (this 59 (by decide)) (by decide)

theorem serve_sanitised_iff_lan : freshDaemon.Valid ∧ Arrives (lanEnv, rebootPacket) ∧
    (Sanitised (serve lanEnv freshDaemon rebootPacket).1 ↔
      Plain lanEnv (receive rebootPacket freshDaemon.buf) rebootPacket.length) :=
  ⟨freshDaemon_valid, arrives_lan (by decide),
    serve_sanitised_iff freshDaemon_valid (arrives_lan (by decide))⟩

end LinboxRescue
