import LinboxRescue.Lib.Fuel
import LinboxRescue.Boot.NewGetSpec

/-!
# Error-free sessions

In an error-free session every packet of the server arrives, in order and after any delay, and never
more than ten seconds pass between a datagram and the next or the end. Then `new_get` returns:

1. `turn_live`: every turn either returns or makes `GetState.left` or the number of calls of
   `udp_get` still to be made smaller. A turn that finds nothing to do has a free buffer and looks
   for a datagram (`Good.idle`), and while the file is not complete there is one to come.
2. `newGet_returns`: for the file of a chunk it returns 0 with the chunk on the disk.
3. `newGet_missing`: without a file it returns 1 and has not written anything.
-/

namespace LinboxRescue

/-- The datagrams found by the first `n` calls of `udp_get`. -/
def Session.delivered (ses : Session) (n : ℕ) : List Bytes := (List.range n).filterMap ses.poll

/-- All of `ps` arrives, in order, and in time. -/
structure Session.ErrorFree (ses : Session) (ps : List Bytes) : Prop where
  inOrder : ∀ n, ses.delivered n <+: ps
  complete : ∃ n, ses.delivered n = ps
  inTime : ∀ k n, (List.range n).countP (ses.tick k) ≤ 10

section Session

variable {ses : Session} {ps : List Bytes}

theorem delivered_succ (ses : Session) (n : ℕ) :
    ses.delivered (n + 1) = ses.delivered n ++ (ses.poll n).toList := by
  unfold Session.delivered
  rw [List.range_succ, List.filterMap_append]
  cases h : ses.poll n <;> simp [List.filterMap, h]

theorem delivered_mono (ses : Session) {n n' : ℕ} (h : n ≤ n') : ses.delivered n <+: ses.delivered n' := by
  induction n', h using Nat.le_induction with
  | base => exact List.prefix_rfl
  | succ k _ ih => rw [delivered_succ]; exact ih.trans (List.prefix_append _ _)

/-- The next datagram is the next packet. -/
theorem Session.ErrorFree.next (h : ses.ErrorFree ps) {n k : ℕ} (hn : ses.delivered n = ps.take k)
    (hk : k ≤ ps.length) {b : Bytes} (hb : ses.poll n = some b) :
    ps[k]? = some b ∧ ses.delivered (n + 1) = ps.take (k + 1) := by
  have h1 := h.inOrder (n + 1)
  rw [delivered_succ, hn, hb, Option.toList_some] at h1
  obtain ⟨rest, hrest⟩ := h1
  have hget : ps[k]? = some b := by
    rw [← hrest, List.append_assoc, List.getElem?_append_right (by rw [List.length_take]; omega),
      List.length_take, Nat.min_eq_left hk, Nat.sub_self]
    rfl
  refine ⟨hget, ?_⟩
  rw [delivered_succ, hn, hb, Option.toList_some, List.take_add_one, hget, Option.toList_some]

/-- While packets are missing there are calls to come. -/
theorem lt_of_delivered {n k N : ℕ} (hN : ses.delivered N = ps)
    (hn : ses.delivered n = ps.take k) (hk : k < ps.length) : n < N := by
  by_contra hge
  have h1 := (delivered_mono ses (Nat.le_of_not_lt hge)).length_le
  rw [hN, hn, List.length_take] at h1
  omega

/-- Every datagram arrives at once. -/
def Session.prompt (ps : List Bytes) : Session := { tick := fun _ _ => false, poll := fun n => ps[n]? }

theorem errorFree_prompt (ps : List Bytes) : (Session.prompt ps).ErrorFree ps := by
  have hdel : ∀ n, (Session.prompt ps).delivered n = ps.take n := by
    intro n
    induction n with
    | zero => rfl
    | succ n ih => rw [delivered_succ, ih, List.take_add_one]; rfl
  exact ⟨fun n => by rw [hdel]; exact List.take_prefix n ps, ⟨ps.length, by rw [hdel, List.take_length]⟩,
    fun k n => by simp [Session.prompt]⟩

theorem countP_succ (f : ℕ → Bool) (n : ℕ) : (List.range (n + 1)).countP f =
    if f n = true then (List.range n).countP f + 1 else (List.range n).countP f := by
  rw [List.range_succ, List.countP_append]
  split_ifs with h <;> simp [h]

variable {m : ZMachine}

/-- The state of the clock. -/
def GetState.OnTime (ses : Session) (st : GetState m) : Prop :=
  st.net.timeout = (List.range st.net.idle).countP (ses.tick st.net.got)

theorem clock_of_inTime (h : ∀ k n, (List.range n).countP (ses.tick k) ≤ 10) {st : GetState m}
    (ht : st.OnTime ses) : ∃ t, st.clock ses =
      .next { st with net := { st.net with timeout := t, idle := st.net.idle + 1 } } ∧
      t = (List.range (st.net.idle + 1)).countP (ses.tick st.net.got) := by
  have hle := h st.net.got (st.net.idle + 1)
  unfold GetState.OnTime at ht
  refine ⟨_, ?_, rfl⟩
  rw [countP_succ, ← ht] at hle ⊢
  unfold GetState.clock
  exact if_neg fun hh => by omega

end Session

/-! ## Turns that find nothing to do -/

section Idle

variable {m : ZMachine} {F : Bytes} {c : Chunk} {total s : ℕ} {T : ℕ → Sector} {files : ℤ}
  {st : GetState m} {done X : Bytes}

theorem contents_ne_nil {n : NetSide} (h : Pooled n) (hfull : getEmpty n.pool = none) :
    n.pool.contents ≠ [] := by
  obtain ⟨q, hq⟩ := h
  have hmem : (0 : Fin 10) ∈ q := by
    by_contra hi
    exact getEmpty_none hfull 0 (by rw [hq.chain.free 0 hi])
  rw [hq.contents]
  intro hnil
  have := List.flatMap_eq_nil_iff.mp hnil 0 hmem
  exact getEmpty_none hfull 0 this

/-- A turn that finds nothing to do waits for more of the file: there is a free buffer, and if all of
the file is there everything is done. -/
theorem Good.idle (h : Good F c total s T files st done X) (hi : st.Idle) :
    (∃ i, getEmpty st.net.pool = some i) ∧ (st.net.tftpend = true → st.zip.ended = .written) := by
  have hlow : st.net.pool.contents.length < 8192 ∧
      (st.net.tftpend = true → st.net.pool.contents = []) := by
    by_cases he : st.zip.ended = .no
    · have hnd := hi.notDue
      unfold GetState.Due at hnd
      rw [hi.waits he] at hnd
      simp only [and_true, not_or, not_and, not_le, not_lt, Nat.le_zero, List.length_eq_zero_iff] at hnd
      exact hnd
    · rw [h.contents_of_ended he]
      exact ⟨by simp, fun _ => rfl⟩
  refine ⟨?_, fun hend => ?_⟩
  · cases hg : getEmpty st.net.pool with
    | some i => exact ⟨i, rfl⟩
    | none =>
      exfalso
      by_cases hend : st.net.tftpend = true
      · exact contents_ne_nil h.pooled hg (hlow.2 hend)
      · have := h.pooled.of_full (Bool.eq_false_iff.mpr hend) hg
        omega
  · cases he : st.zip.ended with
    | written => rfl
    | stream => exact absurd (h.stream he) (Bool.eq_false_iff.mp hi.full)
    | no =>
      exfalso
      obtain ⟨k, hk⟩ := h.transfer
      have hk' : k = blockCount F + 1 := by
        have := hk.tftpend
        rw [hend] at this
        exact of_decide_eq_true this.symm
      have hrec : st.net.received = F := by
        rw [hk.received, hk', Nat.add_sub_cancel]
        exact List.take_of_length_le (by unfold blockCount; omega)
      have hpend : st.zip.pending = [] := if_neg fun hh => by
        rw [hi.waits he] at hh; cases hh.2.1
      have hhanded : st.zip.handed = F := by
        have h1 := h.pooled.received
        rw [hrec, hlow.2 hend, List.append_nil, h.moved, hpend, List.append_nil] at h1
        exact h1.symm
      have hdec := (h.running he).2.1
      rw [hi.inp, hhanded, List.drop_length] at hdec
      exact hdec.ne_nil rfl

end Idle

/-! ## Every turn gets on -/

/-- What holds in every turn of an error-free session. -/
structure Live {m : ZMachine} (F : Bytes) (c : Chunk) (total s : ℕ) (T : ℕ → Sector) (files : ℤ)
    (ses : Session) (st : GetState m) (done X : Bytes) : Prop where
  good : Good F c total s T files st done X
  ahead : ∃ k, Transfer F k st.net ∧ ses.delivered st.net.polls = (serverPackets F).take k
  onTime : st.OnTime ses

section Live

variable {m : ZMachine} {F : Bytes} {c : Chunk} {total s : ℕ} {T : ℕ → Sector} {files : ℤ}
  {ses : Session} {N : ℕ}

/-- A turn ends the call, or leaves less to do than `n`. -/
def Ends (F : Bytes) (c : Chunk) (total s : ℕ) (T : ℕ → Sector) (files : ℤ) (ses : Session) (N n : ℕ)
    (o : Outcome m) : Prop :=
  (∃ st done X, o = .next st ∧ Live F c total s T files ses st done X ∧
    st.left F X + (N - st.net.polls) < n) ∨
  ∃ st done X, o = .ret 0 st ∧ Good F c total s T files st done X ∧ st.zip.ended = .written

theorem ends_leave {st : GetState m} {done X : Bytes} {n : ℕ}
    (h : Live F c total s T files ses st done X)
    (hn : st.zip.ended ≠ .written → st.left F X + (N - st.net.polls) < n) :
    Ends F c total s T files ses N n st.leave := by
  unfold GetState.leave
  split_ifs with he
  · exact .inr ⟨st, done, X, rfl, h.good, he⟩
  · exact .inl ⟨st, done, X, rfl, h, hn he⟩

/-- Looking for a datagram. -/
theorem ends_listen (hF : F.length < 1456 * 65535) (hses : ses.ErrorFree (serverPackets F))
    (hN : ses.delivered N = serverPackets F) {st : GetState m} {done X : Bytes} {n : ℕ}
    (h : Live F c total s T files ses st done X) (hn : st.left F X + (N - st.net.polls) ≤ n)
    (hidle : st.left F X + (N - st.net.polls) = n → st.Idle) :
    Ends F c total s T files ses N n (st.listen ses) := by
  have hless : ¬ st.Idle → st.left F X + (N - st.net.polls) < n := fun hi =>
    lt_of_le_of_ne hn fun e => hi (hidle e)
  unfold GetState.listen
  by_cases hf : st.dsk.full = true
  · rw [if_pos hf]
    exact .inl ⟨st, done, X, rfl, h, hless fun hi => by rw [hi.full] at hf; cases hf⟩
  rw [if_neg hf]
  cases hi : getEmpty st.net.pool with
  | none =>
    refine .inl ⟨st, done, X, rfl, h, hless fun hidle => ?_⟩
    obtain ⟨i, hi'⟩ := (h.good.idle hidle).1
    rw [hi] at hi'
    cases hi'
  | some i =>
    simp only
    by_cases hend : st.net.tftpend = true
    · rw [if_pos hend]
      exact ends_leave h fun he => hless fun hidle => he ((h.good.idle hidle).2 hend)
    rw [if_neg hend]
    obtain ⟨k, hk, hdel⟩ := h.ahead
    have hmore : k < (serverPackets F).length := by
      have h1 := hk.tftpend
      rw [Bool.eq_false_iff.mpr hend] at h1
      have h2 := of_decide_eq_false h1.symm
      have := hk.le
      rw [length_serverPackets]
      omega
    have hlt := lt_of_delivered hN hdel hmore
    have hg : Good F c total s T files { st with net := { st.net with polls := st.net.polls + 1 } } done X :=
      h.good.congr_net rfl rfl rfl rfl rfl
    cases hp : ses.poll st.net.polls with
    | none =>
      refine .inl ⟨_, done, X, rfl, ⟨hg, ⟨k, ⟨hk.le, hk.lastblk, hk.received, hk.tftpend⟩, ?_⟩, h.onTime⟩, ?_⟩
      · show ses.delivered (st.net.polls + 1) = _
        rw [delivered_succ, hp, Option.toList_none, List.append_nil, hdel]
      · show st.left F X + (N - (st.net.polls + 1)) < n
        omega
    | some b =>
      obtain ⟨hb, hdel'⟩ := hses.next hdel hmore.le hp
      rcases @receive_server m { st with net := { st.net with polls := st.net.polls + 1 } } F k hF
        ⟨hk.le, hk.lastblk, hk.received, hk.tftpend⟩ hg.pooled (Bool.eq_false_iff.mpr hend) i hi k b hb with
        ⟨-, n', heq, ht, hpool, htime, -, hzero, hpolls, hmv⟩ | ⟨hne, -⟩
      · have hpolls' : n'.polls = st.net.polls + 1 := hpolls
        show Ends F c total s T files ses N n ((GetState.receive i b
          { st with net := { st.net with polls := st.net.polls + 1 } }).andThen GetState.leave)
        rw [heq]
        have hlive : Live F c total s T files ses { st with net := n' } done X := by
          refine ⟨⟨⟨k + 1, ht⟩, hpool, hmv.trans hg.moved, hg.compressed, hg.onDisk, hg.payload, hg.size,
            hg.running, hg.ended, hg.stream, hg.written⟩, ⟨k + 1, ht, ?_⟩, ?_⟩
          · show ses.delivered n'.polls = _
            rw [hpolls', hdel']
          · show n'.timeout = _
            rw [show ({ st with net := n' } : GetState m).net = n' from rfl, hzero, htime]
            rfl
        refine ends_leave hlive fun _ => ?_
        · show st.left F X + (N - n'.polls) < n
          rw [hpolls']
          omega
      · exact absurd rfl hne

/-- **A turn** of an error-free session ends the call or leaves less to do. -/
theorem turn_live (hF : F.length < 1456 * 65535) (hses : ses.ErrorFree (serverPackets F))
    (hN : ses.delivered N = serverPackets F) (hshort : ¬ TooLong total s (bits c.slice))
    {st : GetState m} {done X : Bytes} (h : Live F c total s T files ses st done X) :
    ∃ o, st.turn total ses = .ok o ∧
      Ends F c total s T files ses N (st.left F X + (N - st.net.polls)) o := by
  rcases work_spec h.good with ⟨st', done', X', hok, hgood, ⟨pool, moved, hnet⟩, hless⟩ | ⟨hlong, -⟩
  · obtain ⟨k, hk, hdel⟩ := h.ahead
    have honTime : st'.OnTime ses := by
      unfold GetState.OnTime
      rw [hnet]
      exact h.onTime
    obtain ⟨t, hclock, ht⟩ := clock_of_inTime hses.inTime honTime
    refine ⟨_, by rw [GetState.turn, hok]; rfl, ?_⟩
    show Ends F c total s T files ses N _ ((st'.clock ses).andThen _)
    rw [hclock]
    have hpolls : st'.net.polls = st.net.polls := by rw [hnet]
    have hlive : Live F c total s T files ses
        { st' with net := { st'.net with timeout := t, idle := st'.net.idle + 1 } } done' X' := by
      refine ⟨hgood.congr_net rfl rfl rfl rfl rfl, ⟨k, ⟨hk.le, ?_, ?_, ?_⟩, ?_⟩, ht⟩
      · show st'.net.lastblk = _
        rw [hnet]; exact hk.lastblk
      · show st'.net.received = _
        rw [hnet]; exact hk.received
      · show st'.net.tftpend = _
        rw [hnet]; exact hk.tftpend
      · show ses.delivered st'.net.polls = _
        rw [hpolls]; exact hdel
    refine ends_listen hF hses hN hlive ?_ fun heq => ?_
    · show st'.left F X' + (N - st'.net.polls) ≤ _
      rw [hpolls]
      rcases hless with hlt | ⟨rfl, rfl, -⟩
      · omega
      · exact le_rfl
    · have heq' : st'.left F X' + (N - st'.net.polls) = st.left F X + (N - st.net.polls) := heq
      rw [hpolls] at heq'
      rcases hless with hlt | ⟨rfl, rfl, hi⟩
      · omega
      · exact ⟨hi.full, hi.inp, hi.waits, hi.notDue⟩
  · exact absurd hlong hshort

/-- Calls that have returned stay as they are. -/
theorem after_of_returned {net : ℕ → Session} {d : DiskSide} {n code : ℕ} {st : GetState m}
    (h : Call.after m total s net d n = .ok (.returned code st)) :
    Returns (fun fuel => newGet m total net s d fuel) (code, st) := by
  refine ⟨n, fun fuel hn => ?_⟩
  have hafter : Call.after m total s net d fuel = .ok (.returned code st) := by
    induction fuel, hn using Nat.le_induction with
    | base => exact h
    | succ k _ ih => rw [Call.after, ih]; rfl
  show newGet m total net s d fuel = _
  rw [newGet, hafter]
  rfl

/-- **Error-free sessions end.** -/
theorem newGet_ends (hF : F.length < 1456 * 65535) (hdec : Decodes m F c.payload) {net : ℕ → Session}
    (hnet : (net 0).ErrorFree (serverPackets F)) (hshort : ¬ TooLong total s (bits c.slice))
    {d : DiskSide} (hd : d.Sized) : ∃ st done X,
      Returns (fun fuel => newGet m total net s d fuel) (0, st) ∧
      Good F c total s d.head.disk d.files st done X ∧ st.zip.ended = .written := by
  obtain ⟨N, hN⟩ := hnet.complete
  have hrun : ∀ (left n : ℕ) (st : GetState m) (done X : Bytes),
      Call.after m total s net d n = .ok (.running 0 st) →
      Live F c total s d.head.disk d.files (net 0) st done X → st.left F X + (N - st.net.polls) = left →
      ∃ n' st' done' X', Call.after m total s net d n' = .ok (.returned 0 st') ∧
        Good F c total s d.head.disk d.files st' done' X' ∧ st'.zip.ended = .written := by
    intro left
    induction left using Nat.strong_induction_on with
    | _ left ih =>
      rintro n st done X hafter hlive rfl
      obtain ⟨o, ho, hends⟩ := turn_live hF hnet hN hshort hlive
      have hnext : Call.after m total s net d (n + 1) = Call.step total s net (.running 0 st) := by
        rw [Call.after, hafter]; rfl
      rcases hends with ⟨st', done', X', rfl, hlive', hlt⟩ | ⟨st', done', X', rfl, hgood, he⟩
      · exact ih _ hlt (n + 1) st' done' X' (by rw [hnext, Call.step, ho]; rfl) hlive' rfl
      · exact ⟨n + 1, st', done', X', by rw [hnext, Call.step, ho]; rfl, hgood, he⟩
  obtain ⟨n', st', done', X', hafter, hgood, he⟩ := hrun _ 0 _ _ _ rfl
    ⟨good_begin hdec hd, ⟨0, ⟨Nat.zero_le _, rfl, rfl, (decide_eq_false (by omega)).symm⟩, rfl⟩, rfl⟩ rfl
  exact ⟨st', done', X', after_of_returned hafter, hgood, he⟩

end Live

/-- What `new_get` leaves behind when it has restored the chunk `c`. -/
structure Restored (c : Chunk) (s : ℕ) (d d' : DiskSide) : Prop where
  sized : d'.Sized
  disk : d'.head.disk = putAll d.head.disk (placement s (bits c.slice) c.sectors)
  saveSect : d'.saveSect = s + val (ascii "ALLOCTABLELG") c.header * 8
  files : d'.files = if exist (ascii "BLOCKS") c.header then val (ascii "BLOCKS") c.header else d.files

/-- **`new_get` in an error-free session** restores the chunk. -/
theorem newGet_returns {m : ZMachine} {F : Bytes} {c : Chunk} {total s : ℕ}
    (hF : F.length < 1456 * 65535) (hdec : Decodes m F c.payload) {net : ℕ → Session}
    (hnet : (net 0).ErrorFree (serverPackets F)) (hshort : ¬ TooLong total s (bits c.slice))
    {d : DiskSide} (hd : d.Sized) : ∃ st,
      Returns (fun fuel => newGet m total net s d fuel) (0, st) ∧ Restored c s d st.dsk := by
  obtain ⟨st, done, X, hret, hg, he⟩ := newGet_ends hF hdec hnet hshort hd
  have hX : X = [] := (hg.ended (by rw [he]; decide)).2.2
  have hdone : done = c.payload := by
    have h1 := hg.payload
    rw [(hg.written he).2, hX, List.take_zero, List.append_nil, List.append_nil] at h1
    exact h1
  refine ⟨st, hret, ?_⟩
  have hlen := congrArg List.length hdone
  rw [c.length_payload, ← c.length_sectors] at hlen
  rcases hg.onDisk.stage with ⟨hnil, -⟩ | ⟨k, hk, hp⟩
  · rw [hnil, List.length_nil] at hlen
    omega
  · rw [hk, List.length_append, length_sectorBytes, List.length_take, Chunk.header,
      length_imageHeader] at hlen
    have hkl : k = c.sectors.length := by
      have := hp.le
      omega
    rcases hp.head with ⟨n, hn⟩ | hpast
    · refine ⟨hg.onDisk.sized, ?_, hp.saveSect, hp.files⟩
      have hall : (placement s (bits c.slice) c.sectors).take k = placement s (bits c.slice) c.sectors := by
        refine List.take_of_length_le ?_
        unfold placement
        rw [List.length_zip, length_ones, hkl, ← c.length_sectors]
        omega
      rw [hn.disk, hn.writes, hall]
    · exact absurd hpast.tooLong hshort

/-! ## A file that does not exist -/

/-- The server's answer for a missing file. -/
def errorPacket : Bytes := [0, 5, 0, 1] ++ ascii "File not found" ++ [0]

/-- What the server sends for a file. -/
def serverAnswer : Option Bytes → List Bytes
  | some F => serverPackets F
  | none => [errorPacket]

section Missing

variable {m : ZMachine} {total s : ℕ} {d : DiskSide} {ses : Session}

/-- Nothing has come yet. -/
structure Waiting (s : ℕ) (d : DiskSide) (ses : Session) (st : GetState m) : Prop where
  pool : st.net.pool = .empty
  tftpend : st.net.tftpend = false
  zip : st.zip = (GetState.begin m s d).zip
  dsk : st.dsk = (GetState.begin m s d).dsk
  delivered : ses.delivered st.net.polls = []
  onTime : st.OnTime ses

theorem Waiting.work {st : GetState m} (h : Waiting s d ses st) : st.work total = .ok (.next st) := by
  have hf : st.dsk.full = false := by rw [h.dsk]; rfl
  have hhand : st.zip.hand = st.zip := by rw [h.zip]; rfl
  have hinp : st.zip.inp = [] := by rw [h.zip]; rfl
  have hfirst : st.net.pool.first = none := by rw [h.pool]; rfl
  unfold GetState.work
  rw [if_neg (by rw [hf]; simp), hhand]
  simp only [hinp, ne_eq, not_true_eq_false, and_false, if_false]
  unfold GetState.refill
  rw [hfirst]

theorem turn_missing (hses : ses.ErrorFree [errorPacket]) {N : ℕ} (hN : ses.delivered N = [errorPacket])
    {st : GetState m} (h : Waiting s d ses st) :
    ∃ st', st'.dsk = (GetState.begin m s d).dsk ∧ (st.turn total ses = .ok (.ret 1 st') ∨
      (st.turn total ses = .ok (.next st') ∧ Waiting s d ses st' ∧
        N - st'.net.polls < N - st.net.polls)) := by
  obtain ⟨t, hclock, ht⟩ := clock_of_inTime hses.inTime h.onTime
  have hlt : st.net.polls < N := lt_of_delivered (k := 0) hN h.delivered (by simp)
  have hf : st.dsk.full = false := by rw [h.dsk]; rfl
  have hempty : getEmpty st.net.pool = some 0 := by rw [h.pool]; rfl
  have hlisten : st.turn total ses = .ok (GetState.listen ses
      { st with net := { st.net with timeout := t, idle := st.net.idle + 1 } }) := by
    rw [GetState.turn, h.work]
    show Except.ok ((st.clock ses).andThen _) = _
    rw [hclock]
    rfl
  rw [hlisten]
  unfold GetState.listen
  simp only [hf, hempty, h.tftpend, Bool.false_eq_true, if_false]
  cases hp : ses.poll st.net.polls with
  | none =>
    refine ⟨_, ?_, .inr ⟨rfl, ⟨h.pool, rfl, h.zip, h.dsk, ?_, ht⟩, ?_⟩⟩
    · exact h.dsk
    · show ses.delivered (st.net.polls + 1) = _
      rw [delivered_succ, h.delivered, hp]
      rfl
    · show N - (st.net.polls + 1) < _
      omega
  | some b =>
    have hb := (hses.next (k := 0) h.delivered (by simp) hp).1
    obtain rfl : errorPacket = b := Option.some.inj hb
    refine ⟨_, ?_, .inl rfl⟩
    exact h.dsk

/-- **Without a file** `new_get` returns 1 and the disk is as it was. -/
theorem newGet_missing {net : ℕ → Session} (hnet : (net 0).ErrorFree [errorPacket]) : ∃ st : GetState m,
    Returns (fun fuel => newGet m total net s d fuel) (1, st) ∧ st.dsk.head.disk = d.head.disk := by
  obtain ⟨N, hN⟩ := hnet.complete
  have hrun : ∀ (left n : ℕ) (st : GetState m), Call.after m total s net d n = .ok (.running 0 st) →
      Waiting s d (net 0) st → N - st.net.polls = left →
      ∃ n' st', Call.after m total s net d n' = .ok (.returned 1 st') ∧
        st'.dsk = (GetState.begin m s d).dsk := by
    intro left
    induction left using Nat.strong_induction_on with
    | _ left ih =>
      rintro n st hafter hw rfl
      have hnext : Call.after m total s net d (n + 1) = Call.step total s net (.running 0 st) := by
        rw [Call.after, hafter]; rfl
      obtain ⟨st', hdsk, hret | ⟨hgo, hw', hlt⟩⟩ := @turn_missing m total s d (net 0) hnet N hN st hw
      · exact ⟨n + 1, st', by rw [hnext, Call.step, hret]; rfl, hdsk⟩
      · exact ih _ hlt (n + 1) st' (by rw [hnext, Call.step, hgo]; rfl) hw' rfl
  obtain ⟨n', st', hafter, hdsk⟩ := hrun _ 0 _ rfl ⟨rfl, rfl, rfl, rfl, rfl, rfl⟩ rfl
  exact ⟨st', after_of_returned hafter, by rw [hdsk]; rfl⟩

end Missing

end LinboxRescue
