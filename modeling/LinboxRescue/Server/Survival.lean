import LinboxRescue.Server.Lrsd

/-!
# Which packets the daemon survives

1. `findMac_ok`: the MAC is found without leaving `gBuff`, whatever the packet is.
2. `processPacket_valid`: both buffers keep their sizes, so that nothing is written past their ends.
3. `faults_processPacket`: a request is handled without a fault exactly when it is `Harmless`.
4. `serveAll_survives_iff`: a run is served to its end exactly when all its packets are.
-/

namespace LinboxRescue

variable {env : Env} {d : Daemon} {pkt : Bytes}

/-! ## The buffers keep their sizes -/

/-- The sizes of the two buffers. -/
structure Daemon.Valid (d : Daemon) : Prop where
  buf : d.buf.length = 1532
  gBuff : d.gBuff.length = 80

/-- A hexadecimal digit. -/
def isHex (b : UInt8) : Bool :=
  isDigit b || (65 ≤ b.toNat && b.toNat ≤ 70) || (97 ≤ b.toNat && b.toNat ≤ 102)

/-- Six pairs of hexadecimal digits, with colons between them. -/
def IsMac (m : Bytes) : Prop :=
  m.length = 17 ∧ ∀ i < 17, if i % 3 = 2 then byteAt m i = 58 else isHex (byteAt m i) = true

instance (m : Bytes) : Decidable (IsMac m) := inferInstanceAs (Decidable (_ ∧ _))

/-- The lines of `/proc/net/arp`: in one that has an IP address, the first colon is the first one of
a MAC address. -/
def ArpTable (env : Env) : Prop :=
  ∀ l ∈ lines 80 env.arp, (strstr (cstr l) (env.addr ++ [32])).isSome →
    ∃ pre mac post, cstr l = pre ++ mac ++ post ∧ (∀ b ∈ pre, b ≠ 58) ∧ IsMac mac

theorem length_getmacfrompkt {buf : Bytes} {l : ℕ} {m : Bytes} (h : getmacfrompkt buf l = some m) :
    m.length = 18 := by
  unfold getmacfrompkt at h
  split_ifs at h
  have hlen : (cstr ((buf.drop (l - 17)).take 17)).length ≤ 17 := by
    refine le_trans (List.takeWhile_sublist _).length_le ?_
    rw [List.length_take]
    exact Nat.min_le_left _ _
  rw [← Option.some.inj h, List.length_append, List.length_replicate]
  omega

theorem length_arpScan {straddr : Bytes} {ls : List Bytes} (hls : ∀ l ∈ ls, l.length < 80) :
    ∀ {g : Bytes}, g.length = 80 → (arpScan straddr g ls).1.length = 80 := by
  induction ls with
  | nil => intro g hg; exact hg
  | cons l ls ih =>
    intro g hg
    have hl : l.length < 80 := hls l (by simp)
    have hlen : (overwrite g 0 (l ++ [0])).length = 80 := by
      rw [length_overwrite (by simp; omega), hg]
    rw [arpScan]
    split_ifs
    · exact hlen
    · exact ih (fun l hl => hls l (by simp [hl])) hlen

/-- The line at which the scan stops, at the start of `gBuff`. -/
theorem arpScan_some {straddr : Bytes} {ls : List Bytes} {g g' l : Bytes}
    (h : arpScan straddr g ls = (g', some l)) : ∃ l' ∈ ls, l = cstr l' ∧ (strstr l straddr).isSome ∧
      ∃ g₀, g' = overwrite g₀ 0 (l' ++ [0]) := by
  induction ls generalizing g with
  | nil => cases h
  | cons l' ls ih =>
    rw [arpScan] at h
    split_ifs at h with hs
    · cases h
      exact ⟨l', by simp, rfl, hs, g, rfl⟩
    · obtain ⟨x, hx, h⟩ := ih h
      exact ⟨x, by simp [hx], h⟩

/-- The client is in the ARP table. -/
def inArp (env : Env) : Bool := (lines 80 env.arp).any fun l => (strstr (cstr l) (env.addr ++ [32])).isSome

theorem arpScan_isSome (straddr g : Bytes) (ls : List Bytes) : (arpScan straddr g ls).2.isSome =
    ls.any fun l => (strstr (cstr l) straddr).isSome := by
  induction ls generalizing g with
  | nil => rfl
  | cons l ls ih =>
    rw [arpScan, List.any_cons, ← ih (overwrite g 0 (l ++ [0]))]
    split_ifs with h
    · rw [h]; rfl
    · rw [Bool.eq_false_iff.mpr h, Bool.false_or]

theorem IsMac.cases {m : Bytes} (h : IsMac m) : ∃ a b t, m = a :: b :: 58 :: t ∧
    isHex a = true ∧ isHex b = true ∧ t.length = 14 := by
  obtain ⟨hlen, hm⟩ := h
  match m, hlen with
  | a :: b :: c :: t, hlen =>
    have h0 := hm 0 (by omega)
    have h1 := hm 1 (by omega)
    have h2 : c = 58 := hm 2 (by omega)
    exact ⟨a, b, t, by rw [h2], h0, h1, by simpa using hlen⟩

theorem isHex_ne_colon {b : UInt8} (h : isHex b = true) : b ≠ 58 := by
  rintro rfl
  exact absurd h (by decide)

/-- The first colon of a line of the ARP table. -/
theorem findIdx_colon {pre m : Bytes} (hpre : ∀ b ∈ pre, b ≠ 58) (hm : IsMac m) (post : Bytes) :
    (pre ++ m ++ post).findIdx? (· == 58) = some (pre.length + 2) := by
  obtain ⟨a, b, t, rfl, ha, hb, -⟩ := hm.cases
  have ha := isHex_ne_colon ha
  have hb := isHex_ne_colon hb
  induction pre with
  | nil => simp [List.findIdx?_cons, ha, hb]
  | cons c pre ih =>
    obtain ⟨hc, hpre⟩ := List.forall_mem_cons.mp hpre
    have := ih hpre
    rw [List.append_assoc] at this ⊢
    rw [List.cons_append, List.findIdx?_cons, this]
    simp [hc]

/-- `getmac` stays inside `gBuff`. -/
theorem getmac_spec (harp : ArpTable env) {g : Bytes} (hg : g.length = 80) :
    ∃ g', g'.length = 80 ∧ (inArp env = false ∧ getmac env g = .ok (g', none) ∨
      inArp env = true ∧
        ∃ off m rest, getmac env g = .ok (g', some off) ∧ IsMac m ∧ g'.drop off = m ++ 0 :: rest) := by
  have harpScan := arpScan_isSome (env.addr ++ [32]) g (lines 80 env.arp)
  have hlines : ∀ l ∈ lines 80 env.arp, l.length < 80 :=
    fun l hl => length_lt_of_mem_lines (by omega) hl
  have hlen := @length_arpScan (env.addr ++ [32]) _ hlines g hg
  unfold getmac
  cases hs : arpScan (env.addr ++ [32]) g (lines 80 env.arp) with
  | mk g' o =>
    rw [hs] at hlen harpScan
    cases o with
    | none => exact ⟨g', hlen, .inl ⟨harpScan.symm, rfl⟩⟩
    | some l =>
      obtain ⟨l', hl', rfl, hstr, g₀, rfl⟩ := arpScan_some hs
      obtain ⟨pre, m, post, hl, hpre, hm⟩ := harp l' hl' hstr
      have hm17 := hm.1
      -- the line starts with its C string
      obtain ⟨tl, htl⟩ : ∃ tl, l' = pre ++ m ++ post ++ tl :=
        ⟨_, by rw [← hl]; exact (List.takeWhile_append_dropWhile).symm⟩
      have hbound : pre.length + 17 < 80 := by
        have := hlines l' hl'
        rw [htl] at this
        simp only [List.length_append] at this
        omega
      dsimp only at hlen ⊢
      rw [hl, findIdx_colon hpre hm]
      dsimp only
      rw [if_neg (by omega)]
      have hstart : ∃ r, overwrite g₀ 0 (l' ++ [0]) = pre ++ m ++ r := by
        unfold overwrite
        rw [htl]
        exact ⟨_, by simp only [List.take_zero, List.nil_append, List.append_assoc]; rfl⟩
      obtain ⟨r, hr⟩ := hstart
      refine ⟨overwrite (overwrite g₀ 0 (l' ++ [0])) (pre.length + 2 + 15) [0], ?_,
        .inr ⟨harpScan.symm, pre.length + 2 - 2, m, r.drop 1, rfl, hm, ?_⟩⟩
      · rw [length_overwrite (by rw [hlen]; simp; omega), hlen]
      · have h1 : (pre ++ m ++ r).take (pre.length + 2 + 15) = pre ++ m :=
          List.take_left' (by rw [List.length_append]; omega)
        have h2 : (pre ++ m ++ r).drop (pre.length + 2 + 15 + [(0 : UInt8)].length) = r.drop 1 := by
          rw [List.drop_append, List.drop_eq_nil_of_le (by simp; omega), List.nil_append]
          congr 1
          simp
          omega
        unfold overwrite at hr ⊢
        rw [hr, h1, h2]
        simp

/-- The MAC of a request: from the packet, from the ARP table, or `?`. -/
theorem findMac_ok (harp : ArpTable env) {buf g : Bytes} (hg : g.length = 80) (plen : ℕ) :
    ∃ g' off, findMac env buf g plen = .ok (g', off) ∧ g'.length = 80 ∧
      ((∃ m rest, getmacfrompkt buf plen = some m ∧ g'.drop off = m ++ rest) ∨
       getmacfrompkt buf plen = none ∧
        (inArp env = true ∧ (∃ m rest, IsMac m ∧ g'.drop off = m ++ 0 :: rest) ∨
         inArp env = false ∧ ∃ rest, g'.drop off = 63 :: 0 :: rest)) := by
  unfold findMac
  cases hm : getmacfrompkt buf plen with
  | some m =>
    have hlen := length_getmacfrompkt hm
    refine ⟨_, 0, rfl, by rw [length_overwrite (by omega), hg], .inl ⟨m, g.drop (0 + m.length), rfl, ?_⟩⟩
    unfold overwrite
    simp
  | none =>
    obtain ⟨g', hg', ⟨hin, h⟩ | ⟨hin, off, m, rest, h, hmac, hr⟩⟩ := getmac_spec harp hg
    · rw [h]
      refine ⟨_, 0, rfl, by rw [length_overwrite (by simp; omega), hg'],
        .inr ⟨rfl, .inr ⟨hin, g'.drop 2, ?_⟩⟩⟩
      unfold overwrite
      simp
    · rw [h]
      exact ⟨g', off, rfl, hg', .inr ⟨rfl, .inl ⟨hin, m, rest, hmac, hr⟩⟩⟩

/-! ## Faults of the requests -/

theorem faults_append (es fs : List Effect) : faults (es ++ fs) = faults es ++ faults fs :=
  List.filterMap_append

/-- Logging goes wrong exactly when the line is not a format. -/
theorem faults_mysyslog {smac text : Bytes} :
    faults (mysyslog env smac text) = [] ↔ formatSafe (text.take 1022) = true := by
  unfold mysyslog
  cases hf : formatSafe (text.take 1022) <;> dsimp only <;> split_ifs <;>
    simp_all [faults]

theorem faults_backupCompleted {smac what : Bytes} : faults (backupCompleted env smac what) = [] := by
  unfold backupCompleted
  split
  · rfl
  · split <;> rfl

/-- The request is one that `process_packet` can deal with: the file it writes can be opened, an
identification has a colon with at most 255 bytes before the last one and after it, and what is
logged can be used as a format. -/
def Harmless (env : Env) (buf mac smac : Bytes) : Prop :=
  match command (byteAt buf 0) with
  | .hardware => env.opens (snprintf 255 (infFile env smac)) = true
  | .id => env.opens (snprintf 255 (idFile env)) = true ∧
      ∃ hostname pass, strAt env buf 3 = hostname ++ 58 :: pass ∧ 58 ∉ pass ∧
        hostname.length ≤ 255 ∧ pass.length ≤ 255
  | .default =>
    formatSafe ((mac ++ ascii " default set to " ++ dec (byteAt buf 1).toNat).take 1022) = true
  | .log => ∀ text ∈ logText buf mac (strAt env buf 3), formatSafe (text.take 1022) = true
  | _ => True

theorem length_etherName {mac l name : Bytes} (h : etherName mac l = some name) : name.length ≤ 32 := by
  unfold etherName scanEther at h
  split_ifs at h
  split at h
  · rename_i hs
    split_ifs at h
    obtain rfl := Option.some.inj h
    split at hs
    · cases hs
    split at hs
    · cases hs
    obtain ⟨w, hw, hwn⟩ := Option.map_eq_some_iff.mp hs
    rw [← (Prod.mk.inj hwn).2]
    exact length_scanWord hw
  · cases h

theorem length_getentry {file : Option Bytes} {mac name : Bytes} (h : getentry file mac = some name) :
    name.length ≤ 32 := by
  unfold getentry at h
  split at h
  · cases h
  · obtain ⟨l, -, hl⟩ := List.exists_of_findSome?_eq_some h
    exact length_etherName hl

theorem faults_idRequest {mac s id : Bytes} : faults (idRequest env mac s id) = [] ↔
    env.opens (snprintf 255 (idFile env)) = true ∧ ∃ hostname pass, id = hostname ++ 58 :: pass ∧
      58 ∉ pass ∧ hostname.length ≤ 255 ∧ pass.length ≤ 255 := by
  unfold idRequest
  split_ifs with ho
  · simp only [ho, true_and]
    cases hs : strrchr id 58 with
    | none =>
      refine ⟨fun h => by simp [faults] at h, ?_⟩
      rintro ⟨u, v, rfl, -⟩
      exact absurd (strrchr_eq_none.mp hs) (by simp)
    | some p =>
      obtain ⟨u, v⟩ := p
      have hspec := strrchr_eq_some.mp hs
      have huniq : (∃ u' v', id = u' ++ 58 :: v' ∧ 58 ∉ v' ∧ u'.length ≤ 255 ∧ v'.length ≤ 255) ↔
          u.length ≤ 255 ∧ v.length ≤ 255 := by
        constructor
        · rintro ⟨u', v', h1, h2, h3⟩
          rw [strrchr_eq_some.mpr ⟨h1, h2⟩] at hs
          obtain ⟨rfl, rfl⟩ := Prod.mk.inj (Option.some.inj hs)
          exact h3
        · intro h
          exact ⟨u, v, hspec.1, hspec.2, h⟩
      rw [huniq]
      by_cases hv : 256 ≤ v.length
      · simp [faults, hv]
        omega
      · by_cases hu : 256 ≤ u.length
        · simp [faults, hu, hv]
          omega
        · simp [faults, hu, hv]
          omega
  · simp [faults, ho]

theorem faults_hardwareRequest {mac smac s : Bytes} :
    faults (hardwareRequest env mac smac s) = [] ↔ env.opens (snprintf 255 (infFile env smac)) = true := by
  unfold hardwareRequest
  split_ifs with h <;> simp [faults, h]

theorem faults_logRequest {buf mac smac what : Bytes} : faults (logRequest env buf mac smac what) = [] ↔
    ∀ text ∈ logText buf mac what, formatSafe (text.take 1022) = true := by
  unfold logRequest
  cases ht : logText buf mac what with
  | none => simp [faults]
  | some text =>
    have hrest : faults (if byteAt buf 1 = 53 ∧ byteAt buf 2 = 45 then backupCompleted env smac what
        else []) = [] := by
      split_ifs
      · exact faults_backupCompleted
      · rfl
    simp only [faults_append, List.append_eq_nil_iff, faults_mysyslog, hrest, and_true,
      Option.mem_some_iff, forall_eq']

/-- **A request is handled without a fault exactly when it is harmless.** -/
theorem faults_processPacket (d : Daemon) (mac smac : Bytes) :
    faults (processPacket env d mac smac).1 = [] ↔ Harmless env d.buf mac smac := by
  unfold processPacket Harmless
  cases command (byteAt d.buf 0) with
  | hardware => exact faults_hardwareRequest
  | id => exact faults_idRequest
  | save => exact iff_of_true rfl trivial
  | default =>
    dsimp only
    rw [← @faults_mysyslog env smac]
    exact Iff.rfl
  | log => exact faults_logRequest
  | name =>
    dsimp only
    cases hn : getentry env.ether mac with
    | none => exact iff_of_true rfl trivial
    | some name =>
      have := length_getentry hn
      dsimp only
      rw [if_neg (by omega)]
      exact iff_of_true rfl trivial
  | time =>
    dsimp only
    split <;> exact iff_of_true rfl trivial
  | other => exact iff_of_true rfl trivial

/-! ## Runs -/

theorem wait_range (b : Barrier) (now file : ℕ) (timeout : ℤ) :
    -2 ^ 31 ≤ (b.wait now file timeout).1 ∧ (b.wait now file timeout).1 < 2 ^ 31 := by
  unfold Barrier.wait
  dsimp only
  split_ifs
  all_goals first
    | exact wrapInt_range _
    | norm_num

theorem processPacket_valid (h : d.Valid) (mac smac : Bytes) :
    (processPacket env d mac smac).2.Valid := by
  obtain ⟨h1, h2⟩ := h
  unfold processPacket
  cases command (byteAt d.buf 0) with
  | id =>
    dsimp only
    split
    · exact ⟨by rw [List.length_set, h1], h2⟩
    · exact ⟨h1, h2⟩
  | log =>
    dsimp only
    split_ifs
    · exact ⟨h1, h2⟩
    · exact ⟨h1, h2⟩
  | name =>
    dsimp only
    split
    · rename_i hn
      have := length_getentry hn
      split_ifs
      · exact ⟨h1, h2⟩
      · exact ⟨h1, by rw [length_overwrite (by simp; omega), h2]⟩
    · exact ⟨h1, h2⟩
  | time =>
    dsimp only
    split
    · rename_i file timeout _
      have hr := wait_range d.barrier env.now file timeout
      have := length_decInt hr.1 hr.2
      exact ⟨by dsimp only; rw [length_overwrite (by simp; omega), h1], h2⟩
    · exact ⟨h1, h2⟩
  | _ => exact ⟨h1, h2⟩

/-- The packet is harmless for the daemon in the state it is in. -/
def HarmlessFor (env : Env) (d : Daemon) (pkt : Bytes) : Prop :=
  ∀ g off, findMac env (receive pkt d.buf) d.gBuff pkt.length = .ok (g, off) →
    Harmless env (receive pkt d.buf) (cstr (g.drop off)) (shortMac (g.drop off))

/-- A packet that `main` gives to `process_packet`. -/
structure Arrives (p : Env × Bytes) : Prop where
  length : p.2.length ≤ 1532
  port : p.1.port = 1001
  arp : ArpTable p.1

theorem length_receive (h : d.Valid) (hp : pkt.length ≤ 1532) : (receive pkt d.buf).length = 1532 := by
  unfold receive
  rw [length_overwrite (by rw [h.buf]; omega), h.buf]

theorem serve_eq (ha : Arrives (env, pkt)) {g : Bytes} {off : ℕ}
    (hf : findMac env (receive pkt d.buf) d.gBuff pkt.length = .ok (g, off)) :
    serve env d pkt = processPacket env { d with buf := receive pkt d.buf, gBuff := g }
      (cstr (g.drop off)) (shortMac (g.drop off)) := by
  unfold serve
  dsimp only
  rw [hf]
  exact if_neg (not_not.mpr ha.port)

/-- One turn of the loop: a fault or not, the buffers keep their sizes. -/
theorem serve_spec (h : d.Valid) (ha : Arrives (env, pkt)) : (serve env d pkt).2.Valid ∧
    (faults (serve env d pkt).1 = [] ↔ HarmlessFor env d pkt) := by
  obtain ⟨g, off, hf, hg, -⟩ := @findMac_ok env ha.arp (receive pkt d.buf) d.gBuff h.gBuff pkt.length
  rw [serve_eq ha hf, faults_processPacket]
  refine ⟨processPacket_valid ⟨length_receive h ha.length, hg⟩ _ _, ?_, ?_⟩
  · intro hh g' off' hf'
    obtain ⟨rfl, rfl⟩ := Prod.mk.inj (Except.ok.inj (hf.symm.trans hf'))
    exact hh
  · intro hh
    exact hh g off hf

/-- Every packet of the run is harmless when it arrives. -/
def HarmlessRun : Daemon → List (Env × Bytes) → Prop
  | _, [] => True
  | d, (env, pkt) :: ps => HarmlessFor env d pkt ∧ HarmlessRun (serve env d pkt).2 ps

/-- The daemon has served all packets, without a fault. -/
def Survives (d : Daemon) (ps : List (Env × Bytes)) : Prop :=
  (serveAll d ps).1.length = ps.length ∧ (∀ es ∈ (serveAll d ps).1, faults es = []) ∧
    (serveAll d ps).2.Valid

/-- **The packets that the daemon survives.** -/
theorem serveAll_survives_iff {ps : List (Env × Bytes)} : ∀ {d : Daemon}, d.Valid →
    (∀ p ∈ ps, Arrives p) → (Survives d ps ↔ HarmlessRun d ps) := by
  induction ps with
  | nil =>
    intro d hd _
    exact iff_of_true ⟨rfl, (fun es h => by cases h), hd⟩ trivial
  | cons p ps ih =>
    obtain ⟨env, pkt⟩ := p
    intro d hd hps
    obtain ⟨hp, hps⟩ := List.forall_mem_cons.mp hps
    obtain ⟨hv, hf⟩ := serve_spec hd hp
    have hrest := ih hv hps
    unfold Survives at hrest ⊢
    rw [serveAll, HarmlessRun]
    dsimp only
    by_cases hfault : faults (serve env d pkt).1 = []
    · rw [if_pos hfault]
      have hh := hf.mp hfault
      simp only [List.length_cons, Nat.add_right_cancel_iff, List.forall_mem_cons, hfault, true_and, hh]
      exact hrest
    · rw [if_neg hfault]
      refine iff_of_false ?_ fun h => hfault (hf.mpr h.1)
      rintro ⟨-, h, -⟩
      exact hfault (h _ (by simp))

/-- A daemon that has just been started, on a client that is not in the ARP table. -/
def freshDaemon : Daemon := ⟨List.replicate 1532 0, List.replicate 80 0, ⟨0, 0⟩⟩

def lanEnv : Env where
  basedir := ascii "/tftpboot/revoboot"
  now := 1100000000
  ctime := ascii "Tue Nov  9 11:33:20 2004"
  opens := fun _ => true
  ether := none
  arp := []
  addr := ascii "10.0.0.2"
  port := 1001
  after := [0]
  printed := id

theorem freshDaemon_valid : freshDaemon.Valid := ⟨List.length_replicate, List.length_replicate⟩

theorem arrives_lan {pkt : Bytes} (h : pkt.length ≤ 1532) : Arrives (lanEnv, pkt) :=
  ⟨h, rfl, fun l hl => by cases hl⟩

/-- An identification without a colon. -/
theorem not_survives_id : ¬ Survives freshDaemon [(lanEnv, ascii "\xAD00pc\x00")] := by
  rintro ⟨-, h, -⟩
  have := h (serve lanEnv freshDaemon (ascii "\xAD00pc\x00")).1 (by
    rw [serveAll]
    dsimp only
    split_ifs <;> simp)
  exact absurd this (by decide)

theorem serveAll_survives_iff_lan : freshDaemon.Valid ∧ Arrives (lanEnv, ascii "\xAD00pc:pw\x00") ∧
    (Survives freshDaemon [(lanEnv, ascii "\xAD00pc:pw\x00")] ↔
      HarmlessRun freshDaemon [(lanEnv, ascii "\xAD00pc:pw\x00")]) := by
  have ha : Arrives (lanEnv, ascii "\xAD00pc:pw\x00") := arrives_lan (by decide)
  refine ⟨freshDaemon_valid, ha, serveAll_survives_iff freshDaemon_valid fun p hp => ?_⟩
  rw [List.mem_singleton.mp hp]
  exact ha

end LinboxRescue
