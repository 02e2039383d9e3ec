import LinboxRescue.Server.Injection

/-!
# The requests of the boot loader

The boot loader sends its requests with `udp_send_withmac` (`src/client/src_revoboot/udp.c`), which
puts a NUL and the MAC address of the card after the payload.

1. `getmacfrompkt_trailer`, `shortMac_trailer`: the daemon finds that address at the end of the packet.
2. `strAt_payload`: a string that starts in the payload ends in it, or at the NUL.
3. `processPacket_congr`: the strings that each request reads.
4. `udpSendWithmac_iff`: the request does not depend on what was in the buffer before, unless it is an
   identification so short that the string at offset 3 is the trailer, which no NUL follows, or what it
   logs has conversions, for which `syslog` takes what it finds on the stack.
-/

namespace LinboxRescue

/-- The address of a network card. -/
structure Mac where
  (a b c d e f : UInt8)
  deriving DecidableEq, Repr

/-- `XX:XX:XX:XX:XX:XX`. -/
def macText (m : Mac) : Bytes :=
  hex2 m.a.toNat ++ [58] ++ hex2 m.b.toNat ++ [58] ++ hex2 m.c.toNat ++ [58] ++ hex2 m.d.toNat ++ [58] ++
    hex2 m.e.toNat ++ [58] ++ hex2 m.f.toNat

/-- The twelve digits alone. -/
def macDigits (m : Mac) : Bytes :=
  hex2 m.a.toNat ++ hex2 m.b.toNat ++ hex2 m.c.toNat ++ hex2 m.d.toNat ++ hex2 m.e.toNat ++ hex2 m.f.toNat

/-- `udp_send_withmac`: the packet that is sent. Long payloads are sent as they are. -/
def udpSendWithmac (payload : Bytes) (m : Mac) : Bytes :=
  if 1500 - 21 < payload.length then payload else payload ++ 0 :: (ascii "Mc:" ++ macText m)

variable {payload : Bytes} {m : Mac} {env : Env} {d d' : Daemon}

/-! ## The trailer -/

theorem isHex_hexDigit {n : ℕ} (h : n < 16) : isHex (hexDigit n) = true := by
  revert n
  decide

theorem isHex_hex2 (b : UInt8) : ∀ x ∈ hex2 b.toNat, isHex x = true := by
  have := b.toNat_lt
  unfold hex2
  simp only [List.mem_cons, List.not_mem_nil, or_false, forall_eq_or_imp, forall_eq]
  exact ⟨isHex_hexDigit (by omega), isHex_hexDigit (by omega)⟩

theorem isHex_macDigits (m : Mac) : ∀ x ∈ macDigits m, isHex x = true := by
  unfold macDigits
  simp only [List.forall_mem_append]
  exact ⟨⟨⟨⟨⟨isHex_hex2 _, isHex_hex2 _⟩, isHex_hex2 _⟩, isHex_hex2 _⟩, isHex_hex2 _⟩, isHex_hex2 _⟩

theorem map_byteAt_macText (m : Mac) : digitPlaces.map (byteAt (macText m)) = macDigits m := by
  simp [digitPlaces, macText, macDigits, hex2, byteAt]

theorem byteAt_macText (m : Mac) {i : ℕ} (hi : i ∈ digitPlaces) : byteAt (macText m) i ∈ macDigits m := by
  rw [← map_byteAt_macText]
  exact List.mem_map_of_mem hi

theorem isMac_macText (m : Mac) : IsMac (macText m) := by
  refine ⟨rfl, fun i hi => ?_⟩
  split_ifs with h
  · have : i = 2 ∨ i = 5 ∨ i = 8 ∨ i = 11 ∨ i = 14 := by omega
    obtain rfl | rfl | rfl | rfl | rfl := this <;> simp [macText, hex2, byteAt]
  · exact isHex_macDigits m _ (byteAt_macText m (mem_digitPlaces.mpr ⟨hi, h⟩))

theorem shortMac_trailer (m : Mac) (rest : Bytes) : shortMac (macText m ++ rest) = macDigits m := by
  rw [shortMac_append (isMac_macText m).1.ge]
  have h : shortMac (macText m) = cstr (macDigits m) := congrArg cstr (map_byteAt_macText m)
  rw [h]
  refine cstr_eq_self fun x hx => ?_
  rintro rfl
  exact absurd (isHex_macDigits m 0 hx) (by decide)

theorem udpSendWithmac_eq (h : payload.length ≤ 1479) :
    udpSendWithmac payload m = payload ++ 0 :: (ascii "Mc:" ++ macText m) := if_neg (by omega)

theorem length_udpSendWithmac (h : payload.length ≤ 1479) :
    (udpSendWithmac payload m).length = payload.length + 21 := by
  rw [udpSendWithmac_eq h, List.length_append, List.length_cons, List.length_append,
    (isMac_macText m).1]
  rfl

/-- The buffer of the daemon when the packet has arrived. -/
theorem receive_trailer (h : payload.length ≤ 1479) (buf : Bytes) : ∃ rest,
    receive (udpSendWithmac payload m) buf = payload ++ 0 :: (ascii "Mc:" ++ macText m) ++ rest := by
  unfold receive overwrite
  rw [udpSendWithmac_eq h]
  exact ⟨_, by simp only [List.take_zero, List.nil_append]; rfl⟩

/-- The letters and the colons of the trailer. -/
theorem map_byteAt_trailer (m : Mac) :
    [0, 1, 2, 5, 8, 11, 14, 17].map (byteAt (ascii "Mc:" ++ macText m)) =
      [77, 99, 58, 58, 58, 58, 58, 58] := by
  simp [ascii, macText, hex2, byteAt]

/-- **The daemon finds the address.** -/
theorem getmacfrompkt_trailer (h : payload.length ≤ 1479) (buf : Bytes) :
    getmacfrompkt (receive (udpSendWithmac payload m) buf) (udpSendWithmac payload m).length =
      some (macText m ++ [0]) := by
  obtain ⟨rest, hrest⟩ := @receive_trailer payload m h buf
  have hm := isMac_macText m
  rw [hrest, length_udpSendWithmac h]
  -- the places of the trailer, from the end of the packet
  have hb : ∀ i < 20, byteAt (payload ++ 0 :: (ascii "Mc:" ++ macText m) ++ rest)
      (payload.length + 1 + i) = byteAt (ascii "Mc:" ++ macText m) i := by
    intro i hi
    have h20 : i < (ascii "Mc:" ++ macText m).length := by
      rw [List.length_append, hm.1]
      exact hi
    rw [List.append_assoc]
    unfold byteAt
    rw [List.getD_append_right _ _ _ _ (by omega)]
    rw [show payload.length + 1 + i - payload.length = i + 1 by omega, List.cons_append,
      List.getD_cons_succ, List.getD_append _ _ _ _ h20]
  have hsub : ∀ k ≤ 20, payload.length + 21 - k = payload.length + 1 + (20 - k) := fun k hk => by omega
  unfold getmacfrompkt
  rw [if_neg (by omega), if_pos]
  · rw [hsub 17 (by omega)]
    have htake : ((payload ++ 0 :: (ascii "Mc:" ++ macText m) ++ rest).drop
        (payload.length + 1 + (20 - 17))).take 17 = macText m := by
      rw [show payload ++ 0 :: (ascii "Mc:" ++ macText m) ++ rest =
        (payload ++ [0] ++ ascii "Mc:") ++ (macText m ++ rest) by simp]
      rw [List.drop_left' (by simp [ascii]), List.take_left' hm.1]
    rw [htake]
    have hc : cstr (macText m) = macText m := by
      refine cstr_eq_self fun x hx => ?_
      rintro rfl
      exact absurd (hm.mem 0 hx) (by decide)
    dsimp only
    rw [hc, hm.1]
    rfl
  · rw [hsub 20 (by omega), hsub 19 (by omega), hsub 18 (by omega), hsub 15 (by omega),
      hsub 12 (by omega), hsub 9 (by omega), hsub 6 (by omega), hsub 3 (by omega)]
    rw [hb _ (by omega), hb _ (by omega), hb _ (by omega), hb _ (by omega), hb _ (by omega),
      hb _ (by omega), hb _ (by omega), hb _ (by omega)]
    have hat := map_byteAt_trailer m
    simp only [List.map_cons, List.map_nil, List.cons.injEq, and_true] at hat
    exact hat

/-! ## What the requests read -/

/-- The offsets at which `process_packet` reads strings. -/
def ReadsAt (buf : Bytes) (off : ℕ) : Prop :=
  off = 0 ∨ off = 1 ∧ command (byteAt buf 0) = .hardware ∨
    off = 3 ∧ (command (byteAt buf 0) = .id ∨ byteAt buf 2 = 45)

theorem logRequest_congr {buf buf' mac smac what what' : Bytes} (h1 : byteAt buf 1 = byteAt buf' 1)
    (h2 : byteAt buf 2 = byteAt buf' 2) (hw : byteAt buf 2 = 45 → what = what') :
    logRequest env buf mac smac what = logRequest env buf' mac smac what' := by
  by_cases h : byteAt buf 2 = 45
  · have : logText buf mac what = logText buf' mac what' := by
      unfold logText
      rw [h1, h2, hw h]
    unfold logRequest
    rw [this, h1, h2, hw h]
  · have hn : ¬ byteAt buf' 2 = 45 := h2 ▸ h
    have : logText buf mac what = logText buf' mac what' := by
      unfold logText
      simp only [if_neg hn, h1, h2]
    unfold logRequest
    rw [this]
    split
    · rfl
    · rw [if_neg (fun hc => h hc.2), if_neg (fun hc => hn hc.2)]

/-- The same client, with other memory behind the buffer and on the stack. -/
def Env.moved (env : Env) (after : Bytes) (printed : Bytes → Bytes) : Env :=
  { env with after := after, printed := printed }

theorem mysyslog_moved {after text : Bytes} {printed : Bytes → Bytes} (smac : Bytes)
    (h : (plainFormat (text.take 1022)).isSome) :
    mysyslog env smac text = mysyslog (env.moved after printed) smac text := by
  obtain ⟨line, hline⟩ := Option.isSome_iff_exists.mp h
  unfold mysyslog
  dsimp only
  rw [hline]
  rfl

theorem logRequest_moved {after : Bytes} {printed : Bytes → Bytes} {buf mac what : Bytes} (smac : Bytes)
    (h : ∀ text ∈ logText buf mac what, (plainFormat (text.take 1022)).isSome) :
    logRequest env buf mac smac what = logRequest (env.moved after printed) buf mac smac what := by
  unfold logRequest
  cases ht : logText buf mac what with
  | none => rfl
  | some text =>
    dsimp only
    rw [mysyslog_moved smac (h text ht)]
    rfl

theorem plainFormat_default {mac : Bytes} (h : ∀ b ∈ mac, b ≠ 37) (n : ℕ) :
    (plainFormat ((mac ++ ascii " default set to " ++ dec n).take 1022)).isSome := by
  rw [plainFormat_eq_self fun b hb => ?_]
  · rfl
  · rcases List.mem_append.mp (List.mem_of_mem_take hb) with hb | hb
    · rcases List.mem_append.mp hb with hb | hb
      · exact h b hb
      · exact (show ∀ b ∈ ascii " default set to ", b ≠ 37 by decide) b hb
    · rintro rfl
      exact absurd (isDigit_of_mem_dec _ hb) (by decide)

/-- The effects of a request depend on the first three bytes and on the strings that it reads, if what it
logs converts nothing. -/
theorem processPacket_congr {after : Bytes} {printed : Bytes → Bytes} {mac : Bytes} (smac : Bytes)
    (hmac : ∀ b ∈ mac, b ≠ 37) (hb : ∀ i < 3, byteAt d.buf i = byteAt d'.buf i)
    (hbar : d.barrier = d'.barrier)
    (hs : ∀ off, ReadsAt d.buf off → strAt env d.buf off = strAt (env.moved after printed) d'.buf off)
    (hlog : command (byteAt d.buf 0) = .log →
      ∀ text ∈ logText d.buf mac (strAt env d.buf 3), (plainFormat (text.take 1022)).isSome) :
    (processPacket env d mac smac).1 =
      (processPacket (env.moved after printed) d' mac smac).1 := by
  have h0 := hb 0 (by omega)
  have h1 := hb 1 (by omega)
  have h2 := hb 2 (by omega)
  have hs0 := hs 0 (.inl rfl)
  unfold processPacket
  rw [← h0, ← h1]
  cases hc : command (byteAt d.buf 0) with
  | hardware =>
    dsimp only
    rw [hs 1 (.inr (.inl ⟨rfl, hc⟩))]
    rfl
  | id =>
    dsimp only
    rw [hs0, hs 3 (.inr (.inr ⟨rfl, .inl hc⟩))]
    rfl
  | save => rfl
  | default =>
    dsimp only
    rw [mysyslog_moved smac (plainFormat_default hmac _)]
    rfl
  | log =>
    dsimp only
    rw [logRequest_moved smac (hlog hc)]
    exact logRequest_congr h1 h2 fun h => hs 3 (.inr (.inr ⟨rfl, .inr h⟩))
  | name =>
    dsimp only
    rw [show (env.moved after printed).ether = env.ether from rfl]
    cases getentry env.ether mac with
    | none => rfl
    | some name =>
      dsimp only
      split_ifs <;> rfl
  | time =>
    dsimp only
    rw [hs0]
    split
    · dsimp only
      rw [hbar]
      rfl
    · rfl
  | other => rfl

/-- A string that starts in the payload ends in it, or at the NUL after it. -/
theorem strAt_payload (h : payload.length ≤ 1479) {off : ℕ} (ho : off ≤ payload.length) (buf : Bytes) :
    strAt env (receive (udpSendWithmac payload m) buf) off = cstr (payload.drop off) := by
  obtain ⟨rest, hrest⟩ := @receive_trailer payload m h buf
  unfold strAt
  rw [hrest, List.append_assoc, List.drop_append_of_le_length ho, List.append_assoc, List.cons_append,
    List.cons_append, cstr_append_cons_zero]

theorem byteAt_payload (h : payload.length ≤ 1479) {i : ℕ} (hi : i < 21) (buf : Bytes) :
    byteAt (receive (udpSendWithmac payload m) buf) i = byteAt (udpSendWithmac payload m) i := by
  have hlen := @length_udpSendWithmac payload m h
  unfold receive overwrite
  rw [List.take_zero, List.nil_append]
  exact byteAt_append_left (by omega) _

/-! ## The action of the daemon -/

/-- The daemon finds the address of the card, and what it does is the same whatever the packets before
have left in its buffers, after them and on the stack. -/
structure PacketRoundTrips (payload : Bytes) (m : Mac) : Prop where
  mac : ∀ env d, Daemon.Valid d → ∃ g,
    findMac env (receive (udpSendWithmac payload m) d.buf) d.gBuff (udpSendWithmac payload m).length =
      .ok (g, 0) ∧ cstr g = macText m ∧ shortMac g = macDigits m
  action : ∀ env d d' after printed, Daemon.Valid d → Daemon.Valid d' → d.barrier = d'.barrier →
    (serve env d (udpSendWithmac payload m)).1 =
      (serve (Env.moved env after printed) d' (udpSendWithmac payload m)).1

theorem findMac_trailer (h : payload.length ≤ 1479) (buf gBuff : Bytes) : ∃ g,
    findMac env (receive (udpSendWithmac payload m) buf) gBuff (udpSendWithmac payload m).length =
      .ok (g, 0) ∧ cstr g = macText m ∧ shortMac g = macDigits m := by
  have hg : overwrite gBuff 0 (macText m ++ [0]) =
      macText m ++ 0 :: gBuff.drop (0 + (macText m ++ [0]).length) := by
    unfold overwrite
    simp
  refine ⟨overwrite gBuff 0 (macText m ++ [0]), ?_, ?_, ?_⟩
  · unfold findMac
    rw [getmacfrompkt_trailer h]
  · rw [hg]
    exact (isMac_macText m).cstr _
  · rw [hg]
    exact shortMac_trailer m _

/-- `main` calls `process_packet` with the address and its digits. -/
theorem serve_trailer (h : payload.length ≤ 1479) (d : Daemon) : ∃ g,
    serve env d (udpSendWithmac payload m) = if env.port ≠ 1001 then
      ([], { d with buf := receive (udpSendWithmac payload m) d.buf, gBuff := g })
    else processPacket env { d with buf := receive (udpSendWithmac payload m) d.buf, gBuff := g }
      (macText m) (macDigits m) := by
  obtain ⟨g, hf, hm, hs⟩ := @findMac_trailer payload m env h d.buf d.gBuff
  refine ⟨g, ?_⟩
  unfold serve
  dsimp only
  rw [hf]
  dsimp only
  rw [List.drop_zero, hm, hs]

/-- The strings that a request reads start in the payload. -/
theorem ReadsAt.le (h : payload.length ≤ 1479) {buf : Bytes} {off : ℕ}
    (hid : payload.head? = some 0xAD → 3 ≤ payload.length)
    (hr : ReadsAt (receive (udpSendWithmac payload m) buf) off) : off ≤ payload.length := by
  unfold ReadsAt at hr
  rw [byteAt_payload h (by omega), byteAt_payload h (by omega), udpSendWithmac_eq h] at hr
  match payload, hid with
  | [], _ =>
    rcases hr with rfl | ⟨rfl, hc⟩ | ⟨rfl, hc | hc⟩
    · omega
    · exact absurd (show command 0 = .hardware from hc) (by decide)
    · exact absurd (show command 0 = .id from hc) (by decide)
    · exact absurd (show (99 : UInt8) = 45 from hc) (by decide)
  | [a], hid =>
    rcases hr with rfl | ⟨rfl, hc⟩ | ⟨rfl, hc | hc⟩
    · omega
    · exact le_rfl
    · have ha : a = 0xAD := by
        unfold command at hc
        split_ifs at hc with h1 h2
        exact h2
      exact absurd (hid (by rw [ha]; rfl)) (by simp)
    · exact absurd (show (77 : UInt8) = 45 from hc) (by decide)
  | [a, b], hid =>
    rcases hr with rfl | ⟨rfl, hc⟩ | ⟨rfl, hc | hc⟩
    · omega
    · simp
    · have ha : a = 0xAD := by
        unfold command at hc
        split_ifs at hc with h1 h2
        exact h2
      exact absurd (hid (by rw [ha]; rfl)) (by simp)
    · exact absurd (show (0 : UInt8) = 45 from hc) (by decide)
  | a :: b :: c :: t, _ =>
    rcases hr with rfl | ⟨rfl, -⟩ | ⟨rfl, -⟩
    · omega
    · simp
    · simp

/-- What a log request logs is a format that converts nothing: a `%` is followed by a second one. -/
def LogsPlainly (payload : Bytes) (m : Mac) : Prop :=
  payload.head? = some 76 → ∀ text ∈ logText payload (macText m) (cstr (payload.drop 3)),
    (plainFormat (text.take 1022)).isSome

/-- The text of a log request is that of its payload. -/
theorem logText_payload (h : payload.length ≤ 1479) (hhead : payload.head? = some 76) (mac buf : Bytes) :
    logText (receive (udpSendWithmac payload m) buf) mac
      (strAt env (receive (udpSendWithmac payload m) buf) 3) =
        logText payload mac (cstr (payload.drop 3)) := by
  have hbytes : ∀ i < 3, byteAt (receive (udpSendWithmac payload m) buf) i =
      byteAt (payload ++ 0 :: (ascii "Mc:" ++ macText m)) i := fun i hi => by
    rw [byteAt_payload h (by omega), udpSendWithmac_eq h]
  have h1 := hbytes 1 (by omega)
  have h2 := hbytes 2 (by omega)
  match payload, hhead with
  | [a], _ =>
    unfold logText
    rw [h1]
    rfl
  | [a, b], _ =>
    unfold logText
    rw [h1, h2]
    rfl
  | a :: b :: c :: t, _ =>
    rw [strAt_payload h (by simp)]
    unfold logText
    rw [h1, h2]
    rfl

theorem head_of_log (h : payload.length ≤ 1479) {buf : Bytes}
    (hc : command (byteAt (receive (udpSendWithmac payload m) buf) 0) = .log) :
    payload.head? = some 76 := by
  rw [byteAt_payload h (by omega), udpSendWithmac_eq h] at hc
  match payload with
  | [] => exact absurd (show command 0 = .log from hc) (by decide)
  | a :: t =>
    have ha : command a = .log := hc
    unfold command at ha
    split_ifs at ha with h1 h2 h3 h4 h5
    exact congrArg some h5

theorem packetRoundTrips_of_long (h : payload.length ≤ 1479)
    (hid : payload.head? = some 0xAD → 3 ≤ payload.length) (hlog : LogsPlainly payload m) :
    PacketRoundTrips payload m := by
  refine ⟨fun env d _ => findMac_trailer h d.buf d.gBuff, fun env d d' after printed _ _ hbar => ?_⟩
  obtain ⟨g, hs⟩ := @serve_trailer payload m env h d
  obtain ⟨g', hs'⟩ := @serve_trailer payload m (env.moved after printed) h d'
  rw [hs, hs', show (env.moved after printed).port = env.port from rfl]
  split_ifs
  · rfl
  · refine processPacket_congr _ (fun b hb => ?_) (fun i hi => ?_) hbar (fun off hr => ?_) fun hc => ?_
    · rintro rfl
      exact absurd ((isMac_macText m).mem _ hb) (by decide)
    · dsimp only
      rw [byteAt_payload h (by omega), byteAt_payload h (by omega)]
    · have hle := ReadsAt.le h hid hr
      dsimp only
      rw [strAt_payload h hle, strAt_payload h hle]
    · have hhead := head_of_log h hc
      dsimp only
      rw [logText_payload h hhead]
      exact hlog hhead

/-! ## Short identifications -/

/-- The last colon of the trailer. -/
theorem macText_snoc (m : Mac) : ∃ u, macText m = u ++ 58 :: hex2 m.f.toNat ∧ u.length = 14 :=
  ⟨hex2 m.a.toNat ++ [58] ++ hex2 m.b.toNat ++ [58] ++ hex2 m.c.toNat ++ [58] ++ hex2 m.d.toNat ++ [58] ++
    hex2 m.e.toNat, by unfold macText; simp, rfl⟩

/-- The string at offset 3 of a short identification: the trailer, and what was in the buffer. -/
theorem strAt_short (hlen : payload.length < 3) (hne : payload ≠ []) (buf : Bytes) :
    ∃ u, u.length ≤ 17 ∧ (∀ b ∈ u, b ≠ 0) ∧
      strAt env (receive (udpSendWithmac payload m) buf) 3 =
        cstr (u ++ 58 :: (hex2 m.f.toNat ++ buf.drop (payload.length + 21) ++ env.after)) := by
  obtain ⟨u, hu, hul⟩ := macText_snoc m
  have hmem : ∀ b ∈ u, b ≠ 0 := by
    intro b hb
    rintro rfl
    have := (isMac_macText m).mem 0 (by rw [hu]; simp [hb])
    exact absurd this (by decide)
  have hl : (udpSendWithmac payload m).length = payload.length + 21 := length_udpSendWithmac (by omega)
  have hrec : receive (udpSendWithmac payload m) buf = payload ++ 0 :: (ascii "Mc:" ++ macText m) ++
      buf.drop (payload.length + 21) := by
    unfold receive overwrite
    rw [hl, Nat.zero_add, List.take_zero, List.nil_append, udpSendWithmac_eq (by omega)]
  unfold strAt
  rw [hrec, hu]
  match payload, hlen, hne with
  | [a], _, _ =>
    refine ⟨ascii "c:" ++ u, by simp [hul, ascii], ?_, by simp [ascii]⟩
    exact List.forall_mem_append.mpr ⟨by decide, hmem⟩
  | [a, b], _, _ =>
    refine ⟨ascii "Mc:" ++ u, by simp [hul, ascii], ?_, by simp [ascii]⟩
    exact List.forall_mem_append.mpr ⟨by decide, hmem⟩

theorem hex2_byte (b : UInt8) : ∀ x ∈ hex2 b.toNat, x ≠ 0 ∧ x ≠ 58 := by
  intro x hx
  have h := isHex_hex2 b x hx
  exact ⟨by rintro rfl; exact absurd h (by decide), isHex_ne_colon h⟩

/-- A daemon whose buffer is full of letters. -/
def fullDaemon : Daemon := ⟨List.replicate 1532 65, List.replicate 80 0, ⟨0, 0⟩⟩

theorem fullDaemon_valid : fullDaemon.Valid := ⟨List.length_replicate, List.length_replicate⟩

theorem command_short (hhead : payload.head? = some 0xAD) (hle : payload.length ≤ 1479) (buf : Bytes) :
    command (byteAt (receive (udpSendWithmac payload m) buf) 0) = .id := by
  rw [byteAt_payload hle (by omega), udpSendWithmac_eq hle]
  match payload, hhead with
  | a :: t, hhead =>
    obtain rfl := Option.some.inj hhead
    rfl

/-- A clear buffer ends the string after the trailer. -/
theorem harmless_short (hlen : payload.length < 3) (hhead : payload.head? = some 0xAD) :
    Harmless lanEnv (receive (udpSendWithmac payload m) freshDaemon.buf) (macText m) (macDigits m) := by
  obtain ⟨u, hul, hu, hstr⟩ := @strAt_short payload m lanEnv hlen (by rintro rfl; cases hhead)
    freshDaemon.buf
  have hdrop : freshDaemon.buf.drop (payload.length + 21) =
      0 :: List.replicate (1510 - payload.length) 0 := by
    show (List.replicate 1532 0).drop _ = _
    rw [List.drop_replicate, ← List.replicate_succ]
    congr 1
    omega
  have happ : u ++ 58 :: (hex2 m.f.toNat ++ 0 :: List.replicate (1510 - payload.length) 0 ++ lanEnv.after) =
      (u ++ 58 :: hex2 m.f.toNat) ++ 0 :: (List.replicate (1510 - payload.length) 0 ++ lanEnv.after) := by
    simp
  unfold Harmless
  rw [command_short hhead (by omega)]
  refine ⟨rfl, u, hex2 m.f.toNat, ?_, fun hc => (hex2_byte _ _ hc).2 rfl, by omega, by simp [hex2]⟩
  rw [hstr, hdrop, happ]
  refine cstr_append_zero ?_ _
  rw [List.forall_mem_append, List.forall_mem_cons]
  exact ⟨hu, by decide, fun b hb => (hex2_byte _ b hb).1⟩

/-- In a full buffer the password goes on to its end. -/
theorem not_harmless_short (hlen : payload.length < 3) (hhead : payload.head? = some 0xAD) :
    ¬ Harmless lanEnv (receive (udpSendWithmac payload m) fullDaemon.buf) (macText m) (macDigits m) := by
  obtain ⟨u, -, hu, hstr⟩ := @strAt_short payload m lanEnv hlen (by rintro rfl; cases hhead) fullDaemon.buf
  have hdrop : fullDaemon.buf.drop (payload.length + 21) = List.replicate (1511 - payload.length) 65 := by
    show (List.replicate 1532 65).drop _ = _
    rw [List.drop_replicate]
    congr 1
    omega
  have happ : u ++ 58 :: (hex2 m.f.toNat ++ List.replicate (1511 - payload.length) 65 ++ [0]) =
      (u ++ 58 :: (hex2 m.f.toNat ++ List.replicate (1511 - payload.length) 65)) ++ 0 :: [] := by
    simp
  have hbytes : ∀ b ∈ hex2 m.f.toNat ++ List.replicate (1511 - payload.length) 65, b ≠ 0 ∧ b ≠ 58 := by
    rw [List.forall_mem_append]
    refine ⟨hex2_byte _, fun b hb => ?_⟩
    rw [List.eq_of_mem_replicate hb]
    decide
  rw [hdrop, show lanEnv.after = [0] from rfl, happ, cstr_append_zero (by
    rw [List.forall_mem_append, List.forall_mem_cons]
    exact ⟨hu, by decide, fun b hb => (hbytes b hb).1⟩)] at hstr
  intro h
  unfold Harmless at h
  rw [command_short hhead (by omega)] at h
  obtain ⟨-, host, pass, hsplit, hpass, -, hlong⟩ := h
  have h1 := strrchr_eq_some.mpr ⟨hstr, fun hc => (hbytes _ hc).2 rfl⟩
  have h2 := strrchr_eq_some.mpr ⟨hsplit, hpass⟩
  obtain ⟨-, rfl⟩ := Prod.mk.inj (Option.some.inj (h1.symm.trans h2))
  rw [List.length_append, List.length_replicate] at hlong
  omega

/-- The daemon survives a short identification when its buffer was clear, but not when it was full. -/
theorem not_packetRoundTrips_of_short (hlen : payload.length < 3) (hhead : payload.head? = some 0xAD) :
    ¬ PacketRoundTrips payload m := by
  intro h
  have hle : payload.length ≤ 1479 := by omega
  have heq := h.action lanEnv freshDaemon fullDaemon lanEnv.after lanEnv.printed freshDaemon_valid
    fullDaemon_valid rfl
  obtain ⟨g, hs⟩ := @serve_trailer payload m lanEnv hle freshDaemon
  obtain ⟨g', hs'⟩ := @serve_trailer payload m lanEnv hle fullDaemon
  rw [show lanEnv.moved lanEnv.after lanEnv.printed = lanEnv from rfl, hs, hs', if_neg (by decide),
    if_neg (by decide)] at heq
  have hgood := (@faults_processPacket lanEnv { freshDaemon with
    buf := receive (udpSendWithmac payload m) freshDaemon.buf, gBuff := g } (macText m)
    (macDigits m)).mpr (harmless_short hlen hhead)
  rw [heq, faults_processPacket] at hgood
  exact not_harmless_short hlen hhead hgood

/-! ## Lines with conversions -/

/-- The lines given to `syslog`. -/
def syslogLines (es : List Effect) : List Bytes :=
  es.filterMap fun
    | .syslog line => some line
    | _ => none

theorem syslogLines_append (es fs : List Effect) :
    syslogLines (es ++ fs) = syslogLines es ++ syslogLines fs := List.filterMap_append

theorem syslogLines_mysyslog (smac text : Bytes) : syslogLines (mysyslog env smac text) =
    [(plainFormat (text.take 1022)).getD (env.printed (text.take 1022))] := by
  unfold mysyslog
  cases formatSafe (text.take 1022) <;> dsimp only <;> split_ifs <;> simp [syslogLines]

theorem syslogLines_logRequest {buf mac what text : Bytes} (smac : Bytes)
    (h : logText buf mac what = some text) : syslogLines (logRequest env buf mac smac what) =
      [(plainFormat (text.take 1022)).getD (env.printed (text.take 1022))] := by
  have hbackup : syslogLines (backupCompleted env smac what) = [] := by
    unfold backupCompleted
    split
    · rfl
    · split <;> rfl
  unfold logRequest
  rw [h]
  dsimp only
  rw [syslogLines_append, syslogLines_mysyslog]
  split_ifs
  · rw [hbackup, List.append_nil]
  · rfl

/-- What is printed for a conversion is not in the packet. -/
theorem logsPlainly_of_packetRoundTrips (hle : payload.length ≤ 1479) (h : PacketRoundTrips payload m) :
    LogsPlainly payload m := by
  intro hhead text htext
  by_contra hnone
  have heq := h.action (lanEnv.moved [0] fun _ => []) freshDaemon freshDaemon [0] (fun _ => [1])
    freshDaemon_valid freshDaemon_valid rfl
  obtain ⟨g, hs⟩ := @serve_trailer payload m (lanEnv.moved [0] fun _ => []) hle freshDaemon
  obtain ⟨g', hs'⟩ := @serve_trailer payload m (lanEnv.moved [0] fun _ => [1]) hle freshDaemon
  have hcommand : command (byteAt (receive (udpSendWithmac payload m) freshDaemon.buf) 0) = .log := by
    rw [byteAt_payload hle (by omega), udpSendWithmac_eq hle]
    match payload, hhead with
    | a :: t, hhead =>
      obtain rfl := Option.some.inj hhead
      rfl
  have hlines : ∀ (printed : Bytes → Bytes) g, syslogLines (processPacket (lanEnv.moved [0] printed)
      { freshDaemon with buf := receive (udpSendWithmac payload m) freshDaemon.buf, gBuff := g }
      (macText m) (macDigits m)).1 = [printed (text.take 1022)] := by
    intro printed g
    unfold processPacket
    rw [hcommand]
    dsimp only
    rw [syslogLines_logRequest _ ((logText_payload hle hhead _ _).trans htext),
      Option.not_isSome_iff_eq_none.mp hnone]
    rfl
  rw [show (lanEnv.moved [0] fun _ => []).moved [0] (fun _ => [1]) = lanEnv.moved [0] fun _ => [1] from rfl,
    hs, hs', if_neg (by decide), if_neg (by decide)] at heq
  have hline := congrArg syslogLines heq
  rw [hlines, hlines] at hline
  exact absurd hline (by simp)

/-- **Client request and MAC trailer.** -/
theorem udpSendWithmac_iff (h : payload.length ≤ 1479) : PacketRoundTrips payload m ↔
    (payload.head? = some 0xAD → 3 ≤ payload.length) ∧ LogsPlainly payload m := by
  refine ⟨fun hr => ⟨fun hhead => ?_, logsPlainly_of_packetRoundTrips h hr⟩,
    fun hok => packetRoundTrips_of_long h hok.1 hok.2⟩
  by_contra hlen
  exact not_packetRoundTrips_of_short (by omega) hhead hr

/-- The shortest identification. -/
theorem not_packetRoundTrips_id : ¬ PacketRoundTrips [0xAD] ⟨0, 1, 2, 3, 4, 5⟩ :=
  not_packetRoundTrips_of_short (by decide) rfl

/-- The end of a restoration is logged with its image; a per cent sign in the name is a conversion. -/
theorem udpSendWithmac_iff_restored :
    PacketRoundTrips (ascii "L3-Local-1") ⟨0, 1, 2, 3, 4, 5⟩ ∧
      ¬ PacketRoundTrips (ascii "L3-%400$x") ⟨0, 1, 2, 3, 4, 5⟩ :=
  ⟨(udpSendWithmac_iff (by decide)).mpr ⟨by decide, fun _ => by decide⟩,
    fun h => absurd (((udpSendWithmac_iff (by decide)).mp h).2 rfl) (by decide)⟩

end LinboxRescue
