import LinboxRescue.Save.Turns

/-!
# The numbers of the disks

`save` numbers the whole disks by `gethdbios`, which looks their sizes up in the file `hdmap`;
`makehdmap` of `autorestore.c` counts the lines of `/proc/partitions` (its comment says that it should
use the file as well). The last line is counted twice, its loop being controlled by `feof`.

1. `run_disks`: the numbers that `save` gives are those of `gethdbios`, called for the devices taken
   for whole disks.
2. `makehdmap_listing`: what `makehdmap` makes of a listing.
3. `sameNumbers_iff`: when both agree.
-/

namespace LinboxRescue

/-! ## `makehdmap` -/

/-- The counter and the table, while no disk is too small for the image. -/
structure HdMap where
  d : ℕ
  hdmap : ℕ → Option Bytes
  stuck : Bool

/-- The disk is large enough, or the check is disabled. -/
def checkhdspace (nospc : Bool) (sizes : ℕ × ℕ → Option ℕ) (major minor sec : ℕ) : Bool :=
  nospc || decide ((sizes (major, minor)).getD 0 ≤ sec)

/-- One turn, with `line` in the buffer; `dir` is `/dev` or the directory given by the user. -/
def HdMap.turn (nospc : Bool) (sizes : ℕ × ℕ → Option ℕ) (dir : Bytes) (s : HdMap) (line : Bytes) :
    HdMap × Bytes :=
  match sscanf (fmt " %u %u %u %s\n") line with
  | [.int major, .int minor, .int sec, .str buf] =>
    if s.stuck || !isDisk major.toNat minor.toNat then (s, line)
    else if !checkhdspace nospc sizes major.toNat minor.toNat sec.toNat then
      ({ s with stuck := true }, line)
    else
      ({ s with d := s.d + 1, hdmap := Function.update s.hdmap s.d (some (dir ++ ascii "/" ++ buf)) },
        line)
  | _ => (s, line)

/-- The table, unless a disk is too small; `garbage` is in the buffer at first. -/
def makehdmap (nospc : Bool) (sizes : ℕ × ℕ → Option ℕ) (dir proc garbage : Bytes) :
    Option (ℕ → Option Bytes) :=
  let s := readLoop 255 (HdMap.turn nospc sizes dir) ⟨0, fun _ => none, false⟩ garbage proc
  if s.stuck then none else some s.hdmap

/-! ## The numbers that `save` gives -/

/-- A device that is taken for a whole disk. -/
def Machine.takes (E : Machine) (p : Part) : Bool :=
  !p.isdm && E.opens p.path && (E.geo p.path).any fun start => isDisk p.major p.minor || start == 0

theorem isDisk_dm (minor : ℕ) : isDisk 254 minor = false := rfl

theorem fate_disk_iff (E : Machine) (st : SaveState) (p : Part) :
    (∃ start, E.fate st p = .disk start) ↔ E.takes p = true := by
  unfold Machine.fate Machine.takes Machine.start Part.dontsave
  cases hdm : p.isdm with
  | true =>
    have hmaj : p.major = 254 := by simpa [Part.isdm] using hdm
    rw [hmaj, isDisk_dm]
    simp only [Bool.not_true, Bool.false_and, Bool.and_false, Bool.or_false, Bool.false_eq_true,
      if_false, if_true, iff_false]
    rintro ⟨start, h⟩
    split_ifs at h
  | false =>
    simp only [Bool.not_false, Bool.false_and, Bool.true_and, Bool.and_true, Bool.false_eq_true,
      if_false]
    cases hopen : E.opens p.path with
    | false => simp
    | true =>
      cases hgeo : E.geo p.path with
      | none => simp
      | some start =>
        simp only [Bool.not_true, Bool.false_eq_true, if_false, Option.any_some, Bool.true_and]
        by_cases hd : (isDisk p.major p.minor || start == 0) = true
        · rw [if_pos hd]
          exact ⟨fun _ => hd, fun _ => ⟨start, rfl⟩⟩
        · rw [if_neg hd]
          refine ⟨?_, fun h => absurd h hd⟩
          rintro ⟨s, h⟩
          split_ifs at h

theorem not_takes {E : Machine} {st : SaveState} {p : Part} {f : Fate} (hf : E.fate st p = f)
    (hne : ∀ start, f ≠ .disk start) : ¬E.takes p = true := by
  intro h
  obtain ⟨start, hs⟩ := (fate_disk_iff E st p).mpr h
  exact hne start (hf.symm.trans hs)

/-- Only the turn of a disk changes what is known of the disks. -/
theorem step_disk_or (E : Machine) (st : SaveState) (p : Part) :
    (E.takes p = true ∧ ∃ start, st.step E p = ((st.look p).major p start).newDisk E p) ∨
    (¬E.takes p = true ∧ (st.step E p).bios = st.bios ∧ (st.step E p).sizes = st.sizes) := by
  rw [step_eq]
  cases hf : E.fate st p with
  | skip => exact .inr ⟨not_takes hf nofun, rfl, rfl⟩
  | disk start => exact .inl ⟨(fate_disk_iff E st p).mp ⟨start, hf⟩, start, rfl⟩
  | copy tmin ttype =>
    refine .inr ⟨not_takes hf nofun, ?_⟩
    dsimp only
    unfold SaveState.copy
    cases E.tool p.path ttype <;> exact ⟨rfl, rfl⟩

theorem bios_step (E : Machine) (st : SaveState) (p : Part) : (st.step E p).bios =
    if E.takes p then (gethdbios E.hdmap.isSome st.bios (E.size p.path)).2 else st.bios := by
  rcases step_disk_or E st p with ⟨ht, start, hstep⟩ | ⟨ht, hbios, -⟩
  · rw [if_pos ht, hstep]
    rfl
  · rw [if_neg ht, hbios]

theorem disk_eq (E : Machine) (st : SaveState) (p : Part) : E.disk st p =
    if E.takes p then [((gethdbios E.hdmap.isSome st.bios (E.size p.path)).1 - 128, p.device)]
    else [] := by
  unfold Machine.disk
  cases hf : E.fate st p with
  | disk start => rw [if_pos ((fate_disk_iff E st p).mp ⟨start, hf⟩)]
  | skip => rw [if_neg (not_takes hf nofun)]
  | copy tmin ttype => rw [if_neg (not_takes hf nofun)]

/-- The numbers that `gethdbios` gives to the disks `ps`. -/
def Machine.numbers (E : Machine) : Bios → List Part → List (ℤ × Bytes)
  | _, [] => []
  | b, p :: ps =>
    ((gethdbios E.hdmap.isSome b (E.size p.path)).1 - 128, p.device) ::
      E.numbers (gethdbios E.hdmap.isSome b (E.size p.path)).2 ps

theorem run_disks (E : Machine) (st : SaveState) (ps : List Part) :
    (ps.foldl (SaveState.step E) st).disks = st.disks ++ E.numbers st.bios (ps.filter E.takes) := by
  induction ps generalizing st with
  | nil => exact (List.append_nil _).symm
  | cons p ps ih =>
    rw [List.foldl_cons, ih, disks_step, disk_eq, bios_step, List.append_assoc]
    cases ht : E.takes p with
    | false =>
      rw [List.filter_cons_of_neg (by rw [ht]; exact Bool.false_ne_true)]
      rfl
    | true =>
      rw [List.filter_cons_of_pos ht]
      rfl

/-! ## Listings -/

/-- A line of `/proc/partitions`. -/
structure ProcEntry where
  major : ℕ
  minor : ℕ
  blocks : ℕ
  name : Bytes
  major_lt : major < 2 ^ 31
  minor_lt : minor < 2 ^ 31
  blocks_lt : blocks < 2 ^ 32
  name_ne : name ≠ []
  name_word : ∀ b ∈ name, isSpace b = false
  name_short : name.length ≤ 200

/-- A number right-aligned to a width of `k`. -/
def alignRight (k n : ℕ) : Bytes := blanks (k - (dec n).length) ++ dec n

/-- The kernel's format `"%4d  %4d %10llu %s\n"`. -/
def ProcEntry.line (e : ProcEntry) : Bytes :=
  alignRight 4 e.major ++ (blanks 2 ++ (alignRight 4 e.minor ++ (blanks 1 ++
    (alignRight 10 e.blocks ++ (blanks 1 ++ (e.name ++ [10]))))))

/-- The two lines above the entries. -/
def procHeader : List Bytes := [ascii "major minor  #blocks  name\n", [10]]

/-- The text of `/proc/partitions`. -/
def procText (es : List ProcEntry) : Bytes := (procHeader ++ es.map ProcEntry.line).flatten

def ProcEntry.part (e : ProcEntry) : Part := ⟨e.name, e.major, e.minor, e.minor_lt⟩

theorem scanConv_d_align (k n : ℕ) {j : ℕ} (hj : 0 < j) (t : Bytes) :
    scanConv .d (alignRight k n ++ (blanks j ++ t)) = some (.int n, blanks j ++ t) := by
  rw [alignRight, List.append_assoc, scanConv_blanks, scanConv_d_dec n (head_blanks hj t)]

theorem scanConv_u_align (k : ℕ) {n : ℕ} (hn : n < 2 ^ 32) {j : ℕ} (hj : 0 < j) (t : Bytes) :
    scanConv .u (alignRight k n ++ (blanks j ++ t)) = some (.int n, blanks j ++ t) := by
  rw [alignRight, List.append_assoc, scanConv_blanks, scanConv_u_dec hn (head_blanks hj t)]

theorem scanConv_name (e : ProcEntry) (k : ℕ) :
    scanConv .s (blanks k ++ (e.name ++ [10])) = some (.str e.name, [10]) := by
  rw [scanConv_blanks]
  exact scanConv_s_word e.name_word e.name_ne (by simp [isSpace])

theorem sscanf_d_line (e : ProcEntry) : sscanf (fmt "%d %d %*d %s") e.line =
    [.int e.major, .int e.minor, .str e.name] := by
  rw [show fmt "%d %d %*d %s" = [.conv .d true, .white, .conv .d true, .white, .conv .d false, .white,
    .conv .s true] from rfl, ProcEntry.line, sscanf_conv _ (scanConv_d_align 4 _ (by decide) _),
    if_pos rfl, sscanf_white_conv,
    sscanf_conv _ ((scanConv_blanks _ _ _).trans (scanConv_d_align 4 _ (by decide) _)), if_pos rfl,
    sscanf_white_conv,
    sscanf_conv _ ((scanConv_blanks _ _ _).trans (scanConv_d_align 10 _ (by decide) _)),
    if_neg Bool.false_ne_true, sscanf_white_conv, sscanf_conv _ (scanConv_name e 1), if_pos rfl]
  rfl

theorem sscanf_u_line (e : ProcEntry) : sscanf (fmt " %u %u %u %s\n") e.line =
    [.int e.major, .int e.minor, .int e.blocks, .str e.name] := by
  have hM : e.major < 2 ^ 32 := by have := e.major_lt; omega
  have hm : e.minor < 2 ^ 32 := by have := e.minor_lt; omega
  rw [show fmt " %u %u %u %s\n" = [.white, .conv .u true, .white, .conv .u true, .white, .conv .u true,
    .white, .conv .s true, .white] from rfl, ProcEntry.line, sscanf_white_conv,
    sscanf_conv _ (scanConv_u_align 4 hM (by decide) _), if_pos rfl, sscanf_white_conv,
    sscanf_conv _ ((scanConv_blanks _ _ _).trans (scanConv_u_align 4 hm (by decide) _)), if_pos rfl,
    sscanf_white_conv,
    sscanf_conv _ ((scanConv_blanks _ _ _).trans (scanConv_u_align 10 e.blocks_lt (by decide) _)),
    if_pos rfl, sscanf_white_conv, sscanf_conv _ (scanConv_name e 1), if_pos rfl]
  rfl

theorem scanPart_line (e : ProcEntry) : scanPart e.line = some e.part := by
  unfold scanPart
  rw [sscanf_d_line]
  have := e.minor_lt
  simp only [ProcEntry.part, Int.toNat_natCast, Nat.mod_eq_of_lt this]

theorem alignRight_ne (k n : ℕ) : ∀ b ∈ alignRight k n, b ≠ 10 := by
  intro b hb
  rcases List.mem_append.mp hb with h | h
  · rw [List.eq_of_mem_replicate h]; decide
  · exact dec_ne (by decide) b h

theorem length_alignRight_le {k n : ℕ} (hk : k ≤ 10) (hn : n < 2 ^ 32) :
    (alignRight k n).length ≤ 10 := by
  have := length_dec_le (show 0 < 10 by decide) (show n < 10 ^ 10 by omega)
  rw [alignRight, List.length_append, blanks, List.length_replicate]
  omega

theorem isLine_entry (e : ProcEntry) : IsLine 255 e.line := by
  have hline : e.line = (alignRight 4 e.major ++ (blanks 2 ++ (alignRight 4 e.minor ++ (blanks 1 ++
      (alignRight 10 e.blocks ++ (blanks 1 ++ e.name)))))) ++ [10] := by
    simp only [ProcEntry.line, List.append_assoc]
  rw [hline]
  refine isLine_append ?_ ?_
  · have hb : ∀ k, ∀ b ∈ blanks k, b ≠ 10 := fun k b h => by
      rw [List.eq_of_mem_replicate h]; decide
    have hn : ∀ b ∈ e.name, b ≠ 10 := fun b h => by
      rintro rfl
      exact absurd (e.name_word _ h) (by decide)
    simp only [List.forall_mem_append]
    exact ⟨alignRight_ne _ _, hb _, alignRight_ne _ _, hb _, alignRight_ne _ _, hb _, hn⟩
  · have h1 := length_alignRight_le (show 4 ≤ 10 by decide) (lt_trans e.major_lt (by decide))
    have h2 := length_alignRight_le (show 4 ≤ 10 by decide) (lt_trans e.minor_lt (by decide))
    have h3 := length_alignRight_le (show 10 ≤ 10 by decide) e.blocks_lt
    have h4 := e.name_short
    simp only [List.length_append, blanks, List.length_replicate]
    omega

theorem isLine_procHeader : ∀ l ∈ procHeader, IsLine 255 l := by
  rw [procHeader, List.forall_mem_cons, List.forall_mem_singleton]
  exact ⟨isLine_append (w := ascii "major minor  #blocks  name") (by decide) (by decide),
    isLine_append (w := []) (by decide) (by decide)⟩

theorem isLine_procText (es : List ProcEntry) :
    ∀ l ∈ procHeader ++ es.map ProcEntry.line, IsLine 255 l := by
  rw [List.forall_mem_append]
  refine ⟨isLine_procHeader, fun l hl => ?_⟩
  obtain ⟨e, -, rfl⟩ := List.mem_map.mp hl
  exact isLine_entry e

/-- The devices that `get_nextpart` finds in a listing. -/
theorem getParts_procText (es : List ProcEntry) (mapper : List MapperEntry) :
    getParts (procText es) mapper =
      (es.map ProcEntry.part).filter (fun p => !p.isdm) ++ mapper.filterMap MapperEntry.part := by
  have hscan : (es.map ProcEntry.line).filterMap scanPart = es.map ProcEntry.part := by
    rw [List.filterMap_map, show scanPart ∘ ProcEntry.line = some ∘ ProcEntry.part from
      funext scanPart_line, List.filterMap_eq_map]
  rw [getParts, procText, lines_flatten (isLine_procText es), List.filterMap_append, hscan]
  rfl

/-! ## What `makehdmap` makes of a listing -/

section Listing

variable {nospc : Bool} {sizes : ℕ × ℕ → Option ℕ} {dir : Bytes}

/-- The entry of a disk in the table. -/
def ProcEntry.path (dir : Bytes) (e : ProcEntry) : Bytes := dir ++ ascii "/" ++ e.name

def ProcEntry.isDisk (e : ProcEntry) : Bool := LinboxRescue.isDisk e.major e.minor

/-- The table of the entries `ds`. -/
def tableOf (dir : Bytes) (ds : List ProcEntry) : ℕ → Option Bytes := fun n => (ds[n]?).map (·.path dir)

theorem update_tableOf (ds : List ProcEntry) (e : ProcEntry) :
    Function.update (tableOf dir ds) ds.length (some (e.path dir)) = tableOf dir (ds ++ [e]) := by
  funext n
  unfold tableOf
  rcases Nat.lt_trichotomy n ds.length with h | rfl | h
  · rw [Function.update_of_ne h.ne, List.getElem?_append_left h]
  · rw [Function.update_self, List.getElem?_append_right le_rfl, Nat.sub_self]; rfl
  · rw [Function.update_of_ne h.ne', List.getElem?_eq_none h.le,
      List.getElem?_eq_none (by rw [List.length_append]; exact h)]

theorem turn_line (e : ProcEntry)
    (hfit : e.isDisk = true → checkhdspace nospc sizes e.major e.minor e.blocks = true)
    (ds : List ProcEntry) :
    HdMap.turn nospc sizes dir ⟨ds.length, tableOf dir ds, false⟩ e.line =
      (⟨(ds ++ [e].filter (·.isDisk)).length, tableOf dir (ds ++ [e].filter (·.isDisk)), false⟩,
        e.line) := by
  unfold HdMap.turn
  rw [sscanf_u_line]
  simp only [Int.toNat_natCast, Bool.false_or]
  cases hd : e.isDisk with
  | false =>
    rw [if_pos (by rw [show LinboxRescue.isDisk e.major e.minor = false from hd]; rfl),
      List.filter_cons_of_neg (by rw [hd]; exact Bool.false_ne_true), List.filter_nil,
      List.append_nil]
  | true =>
    rw [if_neg (by rw [show LinboxRescue.isDisk e.major e.minor = true from hd]; decide),
      if_neg (by rw [hfit hd]; decide), List.filter_cons_of_pos hd, List.filter_nil, ← update_tableOf,
      List.length_append]
    rfl

/-- Every disk has room for the image. -/
def Fits (nospc : Bool) (sizes : ℕ × ℕ → Option ℕ) (es : List ProcEntry) : Prop :=
  ∀ e ∈ es, e.isDisk = true → checkhdspace nospc sizes e.major e.minor e.blocks = true

/-- The state and the buffer after the entries `es`. -/
theorem turns_lines {es : List ProcEntry} (hfit : Fits nospc sizes es) (ds : List ProcEntry)
    (buf : Bytes) :
    turns (HdMap.turn nospc sizes dir) (⟨ds.length, tableOf dir ds, false⟩, buf)
        (es.map ProcEntry.line) =
      (⟨(ds ++ es.filter (·.isDisk)).length, tableOf dir (ds ++ es.filter (·.isDisk)), false⟩,
        (es.getLast?.map ProcEntry.line).getD buf) := by
  induction es generalizing ds buf with
  | nil => rw [List.filter_nil, List.append_nil]; rfl
  | cons e es ih =>
    rw [Fits, List.forall_mem_cons] at hfit
    rw [List.map_cons, turns, List.foldl_cons, turn_line e hfit.1 ds]
    refine (ih hfit.2 _ _).trans ?_
    rw [List.append_assoc, ← List.filter_append, List.singleton_append, List.getLast?_cons]
    cases es.getLast? <;> rfl

/-- The table holds the disks of the listing, and once more the one on the last line. -/
theorem makehdmap_listing {es : List ProcEntry} (hfit : Fits nospc sizes es) (garbage : Bytes) :
    makehdmap nospc sizes dir (procText es) garbage =
      some (tableOf dir ((es ++ es.getLast?.toList).filter (·.isDisk))) := by
  have hhead : turns (HdMap.turn nospc sizes dir) (⟨0, fun _ => none, false⟩, garbage) procHeader =
      (⟨0, tableOf dir [], false⟩, [10]) := rfl
  have hturns := @turns_lines nospc sizes dir es hfit [] [10]
  have hloop := @readLoop_lines _ 255 (HdMap.turn nospc sizes dir) (by decide) _
    (isLine_procText es) ⟨0, fun _ => none, false⟩ garbage
  rw [turns, List.foldl_append] at hloop
  change readLoop 255 _ _ _ _ = (HdMap.turn nospc sizes dir
    (turns _ (turns _ _ procHeader) _).1 (turns _ (turns _ _ procHeader) _).2).1 at hloop
  rw [hhead, show (0 : ℕ) = ([] : List ProcEntry).length from rfl, hturns, List.nil_append] at hloop
  have hend : readLoop 255 (HdMap.turn nospc sizes dir) ⟨0, fun _ => none, false⟩ garbage (procText es) =
      ⟨((es ++ es.getLast?.toList).filter (·.isDisk)).length,
        tableOf dir ((es ++ es.getLast?.toList).filter (·.isDisk)), false⟩ := by
    refine hloop.trans ?_
    cases hlast : es.getLast? with
    | none => rw [Option.toList_none, List.append_nil]; rfl
    | some e =>
      have hmem : e ∈ es := List.mem_of_getLast? hlast
      rw [Option.toList_some, List.filter_append]
      exact congrArg Prod.fst (turn_line e (hfit e hmem) _)
  unfold makehdmap
  rw [hend]
  rfl

end Listing

/-! ## Disks in their places -/

/-- The table without the entry of a disk of `sect` sectors. -/
def strike (hdmap : ℕ → UInt32) (sect : UInt32) : ℕ → UInt32 :=
  (gethdbios true ⟨0, hdmap⟩ sect).2.hdmap

/-- The disks of the given sizes, the first of which is disk `k`, are not found in the part of `hdmap`
that is left, or found under their own numbers; `last` tells that the last one is on the last line,
where the number after its own does as well. -/
def InOrder (last : Bool) : (ℕ → UInt32) → ℕ → List UInt32 → Prop
  | _, _, [] => True
  | hdmap, k, s :: ss =>
    (findhd hdmap s = none ∨ findhd hdmap s = some k ∨
      (ss = [] ∧ last = true ∧ findhd hdmap s = some (k + 1))) ∧
    InOrder last (strike hdmap s) (k + 1) ss

/-- The disk on the last line, once more. -/
def again (last : Bool) (ds : List ProcEntry) : List ProcEntry := if last then ds.getLast?.toList else []

theorem gethdbios_of_none {b : Bios} {s : UInt32} : gethdbios false b s =
    (b.lastnum + 1 + 128, { b with lastnum := b.lastnum + 1 }) := rfl

theorem gethdbios_of_find {b : Bios} {s : UInt32} : (gethdbios true b s).1 - 128 =
    ((findhd b.hdmap s).map fun i : ℕ => (i : ℤ)).getD (b.lastnum + 1) ∧
    (gethdbios true b s).2.lastnum = (gethdbios true b s).1 - 128 ∧
    (gethdbios true b s).2.hdmap = strike b.hdmap s := by
  unfold strike gethdbios
  cases findhd b.hdmap s with
  | none => exact ⟨by simp, by simp, rfl⟩
  | some i => exact ⟨by simp, by simp, rfl⟩

section Places

variable {dir : Bytes} {ds : List ProcEntry} (hnames : (ds.map ProcEntry.name).Nodup) (last : Bool)

theorem path_injective {e e' : ProcEntry} (h : e.path dir = e'.path dir) : e.name = e'.name :=
  List.append_cancel_left h

include hnames in
/-- Where the table has the disk `e`. -/
theorem tableOf_eq_iff {pre rest : List ProcEntry} {e : ProcEntry} (hds : ds = pre ++ e :: rest)
    (n : ℤ) : (0 ≤ n ∧ tableOf dir (ds ++ again last ds) n.toNat = some (e.path dir)) ↔
      n = pre.length ∨ (rest = [] ∧ last = true ∧ n = pre.length + 1) := by
  have hnd : ds.Nodup := List.Nodup.of_map _ hnames
  have hinj : ∀ e' ∈ ds, e'.path dir = e.path dir → e' = e := fun e' he' h =>
    List.inj_on_of_nodup_map hnames he' (by rw [hds]; simp) (path_injective h)
  have hlen : ds.length = pre.length + 1 + rest.length := by
    rw [hds, List.length_append, List.length_cons]; omega
  have hk : ds[pre.length]? = some e := by rw [hds]; simp
  constructor
  · rintro ⟨h0, h⟩
    obtain ⟨e', he', hp⟩ := Option.map_eq_some_iff.mp h
    rcases Nat.lt_or_ge n.toNat ds.length with hlt | hge
    · rw [List.getElem?_append_left hlt] at he'
      obtain rfl := hinj e' (List.mem_of_getElem? he') hp
      have := (List.getElem?_inj hlt hnd).mp (he'.trans hk.symm)
      exact .inl (by omega)
    · rw [List.getElem?_append_right hge] at he'
      unfold again at he'
      split_ifs at he' with hl
      · cases hlast : ds.getLast? with
        | none =>
          rw [hlast] at he'
          cases he'
        | some e₁ =>
          rw [hlast] at he'
          have hn : n.toNat - ds.length = 0 := by
            by_contra hne
            rw [List.getElem?_eq_none (by simp; omega)] at he'
            cases he'
          rw [hn] at he'
          obtain rfl : e₁ = e' := Option.some.inj he'
          obtain rfl := hinj e₁ (List.mem_of_getLast? hlast) hp
          rw [List.getLast?_eq_getElem?] at hlast
          have hidx := (List.getElem?_inj (by omega) hnd).mp (hlast.trans hk.symm)
          exact .inr ⟨List.length_eq_zero_iff.mp (by omega), hl, by omega⟩
      · cases he'
  · rintro (rfl | ⟨hrest, hl, rfl⟩)
    · refine ⟨by omega, ?_⟩
      rw [tableOf, Int.toNat_natCast, List.getElem?_append_left (by omega), hk]
      rfl
    · have hn : ((pre.length : ℤ) + 1).toNat = ds.length := by rw [hlen, hrest]; simp
      refine ⟨by omega, ?_⟩
      rw [tableOf, hn, List.getElem?_append_right le_rfl, Nat.sub_self, again, if_pos hl, hds, hrest,
        List.getLast?_concat]
      rfl

/-- Each of the disks `nds` is where the table has it. -/
def InTable (table : ℕ → Option Bytes) (nds : List (ℤ × Bytes)) : Prop :=
  ∀ nd ∈ nds, 0 ≤ nd.1 ∧ table nd.1.toNat = some (ascii "/dev/" ++ nd.2)

/-- The sizes of disks. -/
def Machine.sizesOf (E : Machine) (ds : List ProcEntry) : List UInt32 :=
  ds.map fun e => E.size (e.path (ascii "/dev"))

include hnames in
/-- The disks after `pre`, numbered by `gethdbios` from the state it has then. -/
theorem inTable_iff (E : Machine) (rest : List ProcEntry) : ∀ (pre : List ProcEntry) (b : Bios),
    ds = pre ++ rest → b.lastnum + 1 = pre.length →
    (InTable (tableOf (ascii "/dev") (ds ++ again last ds)) (E.numbers b (rest.map ProcEntry.part)) ↔
      (E.hdmap.isSome = true → InOrder last b.hdmap pre.length (E.sizesOf rest))) := by
  induction rest with
  | nil => exact fun pre b _ _ => ⟨fun _ _ => trivial, fun _ nd h => absurd h (List.not_mem_nil)⟩
  | cons e rest ih =>
    intro pre b hds hb
    have hplace := @tableOf_eq_iff (ascii "/dev") ds hnames last pre rest e hds
    have hnext := fun b' => ih (pre ++ [e]) b' (by rw [hds, List.append_assoc]; rfl)
    rw [List.length_append, List.length_singleton] at hnext
    obtain ⟨s, hs⟩ : ∃ s, s = E.size e.part.path := ⟨_, rfl⟩
    have hsizes : E.sizesOf (e :: rest) = s :: E.sizesOf rest := by rw [hs]; rfl
    rw [InTable, List.map_cons, Machine.numbers, List.forall_mem_cons, ← hs, hsizes]
    refine Iff.trans (and_congr_left' (hplace _)) ?_
    cases hhas : E.hdmap.isSome with
    | false =>
      rw [gethdbios_of_none]
      have := hnext ⟨b.lastnum + 1, b.hdmap⟩ (by push_cast; omega)
      rw [hhas] at this
      simp only [Bool.false_eq_true, IsEmpty.forall_iff, iff_true] at this ⊢
      exact ⟨.inl (by omega), this⟩
    | true =>
      obtain ⟨h1, h2, h3⟩ := @gethdbios_of_find b s
      have hrest : rest = [] ↔ E.sizesOf rest = [] := List.map_eq_nil_iff.symm
      have hnum : ((gethdbios true b s).1 - 128 = pre.length ∨
          (rest = [] ∧ last = true ∧ (gethdbios true b s).1 - 128 = pre.length + 1)) ↔
          (findhd b.hdmap s = none ∨ findhd b.hdmap s = some pre.length ∨
            (rest = [] ∧ last = true ∧ findhd b.hdmap s = some (pre.length + 1))) := by
        rw [h1, hb]
        cases findhd b.hdmap s with
        | none => simp
        | some i =>
          simp only [Option.map_some, Option.getD_some, reduceCtorEq, false_or, Option.some.injEq]
          norm_cast
      rw [imp_iff_right rfl, InOrder, ← hrest, hnum]
      refine and_congr_right fun hfound => ?_
      by_cases hnil : rest = []
      · rw [hnil]
        exact ⟨fun _ => trivial, fun _ nd h => absurd h List.not_mem_nil⟩
      · have hk : (gethdbios true b s).1 - 128 = pre.length :=
          (hnum.mpr hfound).resolve_right fun h => hnil h.1
        have := hnext (gethdbios true b s).2 (by rw [h2, hk]; rfl)
        rwa [hhas, imp_iff_right rfl, h3] at this

end Places

/-! ## The size files -/

theorem sizes_step (E : Machine) (st : SaveState) (p : Part) : (st.step E p).sizes =
    if E.takes p then
      Function.update st.sizes (p.major, p.minor) (some ((E.size p.path).toNat / 2))
    else st.sizes := by
  rcases step_disk_or E st p with ⟨ht, start, hstep⟩ | ⟨ht, -, hsizes⟩
  · rw [if_pos ht, hstep]
    rfl
  · rw [if_neg ht, hsizes]

/-- After the run the size file of a disk holds its size. -/
theorem run_sizes (E : Machine) {key : ℕ × ℕ} {v : ℕ} (ps : List Part) (st : SaveState)
    (hv : ∀ p ∈ ps, E.takes p = true → (p.major, p.minor) = key → (E.size p.path).toNat / 2 = v)
    (hex : st.sizes key = some v ∨ ∃ p ∈ ps, E.takes p = true ∧ (p.major, p.minor) = key) :
    (ps.foldl (SaveState.step E) st).sizes key = some v := by
  induction ps generalizing st with
  | nil => exact hex.resolve_right fun ⟨p, hp, _⟩ => absurd hp List.not_mem_nil
  | cons p ps ih =>
    rw [List.forall_mem_cons] at hv
    refine ih _ hv.2 ?_
    rw [sizes_step]
    by_cases hp : E.takes p = true ∧ (p.major, p.minor) = key
    · refine .inl ?_
      rw [if_pos hp.1, ← hp.2, Function.update_self, hv.1 hp.1 hp.2]
    · rcases hex with h | ⟨q, hq, ht, hk⟩
      · refine .inl ?_
        split_ifs with ht
        · rw [Function.update_of_ne fun e => hp ⟨ht, e.symm⟩]
          exact h
        · exact h
      · rcases List.mem_cons.mp hq with rfl | hq
        · exact absurd ⟨ht, hk⟩ hp
        · exact .inr ⟨q, hq, ht, hk⟩

/-! ## Both programs on one machine -/

/-- The majors of the supported disks. -/
def supported (major : ℕ) : Bool :=
  major == 3 || major == 22 || major == 33 || major == 34 || major == 8 || major == 65 ||
    (72 ≤ major && major ≤ 79) || (104 ≤ major && major ≤ 111)

/-- The machine lists the disks and partitions `es`, which all open and answer; the kernel gives them
different names and numbers and counts two sectors for a block. -/
structure Listing (E : Machine) (es : List ProcEntry) : Prop where
  proc : E.proc = procText es
  mapper : ∀ e ∈ E.mapper, ∀ n ∈ e.rdev, n.1 = 254
  majors : ∀ e ∈ es, supported e.major = true
  names : (es.map ProcEntry.name).Nodup
  numbers : (es.map fun e => (e.major, e.minor)).Nodup
  opens : ∀ e ∈ es, E.opens (e.path (ascii "/dev")) = true
  answers : ∀ e ∈ es, (E.geo (e.path (ascii "/dev"))).isSome = true
  blocks : ∀ e ∈ es, (E.size (e.path (ascii "/dev"))).toNat / 2 = e.blocks

/-- Every disk that `save` recorded is the one that `makehdmap` stores under its number. -/
def SameNumbers (E : Machine) (majorn : Bytes) (sizes : ℕ × ℕ → Option ℕ) (nospc : Bool)
    (garbage : Bytes) : Prop :=
  ∃ table, makehdmap nospc (save E majorn sizes).sizes (ascii "/dev") E.proc garbage = some table ∧
    InTable table (save E majorn sizes).disks

section Machine

variable {E : Machine} {es : List ProcEntry} (h : Listing E es)

theorem path_part (e : ProcEntry) : e.part.path = e.path (ascii "/dev") := rfl

theorem isdm_of_supported {e : ProcEntry} (he : supported e.major = true) : e.part.isdm = false := by
  cases hdm : e.part.isdm with
  | false => rfl
  | true =>
    rw [show e.major = 254 from beq_iff_eq.mp hdm] at he
    exact absurd he (by decide)

include h in
/-- The devices taken for whole disks. -/
theorem takes_part {e : ProcEntry} (he : e ∈ es) :
    E.takes e.part = (e.isDisk || E.geo (e.path (ascii "/dev")) == some 0) := by
  obtain ⟨start, hstart⟩ := Option.isSome_iff_exists.mp (h.answers e he)
  unfold Machine.takes
  rw [isdm_of_supported (h.majors e he), path_part, h.opens e he, hstart]
  show (true && true && (isDisk e.major e.minor || start == 0)) = _
  rw [Bool.true_and, Bool.true_and]
  rfl

include h in
theorem takes_parts : E.parts.filter E.takes =
    (es.filter fun e => e.isDisk || E.geo (e.path (ascii "/dev")) == some 0).map ProcEntry.part := by
  have hproc : (es.map ProcEntry.part).filter (fun p => !p.isdm) = es.map ProcEntry.part := by
    rw [List.filter_eq_self]
    intro p hp
    obtain ⟨e, he, rfl⟩ := List.mem_map.mp hp
    rw [isdm_of_supported (h.majors e he)]
    rfl
  have hmapper : (E.mapper.filterMap MapperEntry.part).filter E.takes = [] := by
    rw [List.filter_eq_nil_iff]
    intro p hp
    obtain ⟨e, he, hpart⟩ := List.mem_filterMap.mp hp
    unfold MapperEntry.part at hpart
    split_ifs at hpart
    obtain ⟨n, hn, rfl⟩ := Option.map_eq_some_iff.mp hpart
    have hdm : Part.isdm ⟨(ascii "mapper/" ++ e.name).take 254, n.1, n.2 % 2 ^ 31,
        Nat.mod_lt _ (by decide)⟩ = true := by
      show (n.1 == 254) = true
      rw [h.mapper e he n hn]
      rfl
    show ¬(!Part.isdm _ && _ && _) = true
    rw [hdm]
    simp
  rw [Machine.parts, h.proc, getParts_procText, hproc, List.filter_append, hmapper, List.append_nil,
    List.filter_map]
  exact congrArg (List.map ProcEntry.part) (List.filter_congr fun e he => takes_part h he)

include h in
theorem fits_save (majorn : Bytes) (sizes : ℕ × ℕ → Option ℕ) (nospc : Bool) :
    Fits nospc (save E majorn sizes).sizes es := by
  intro e he hd
  have hmem : ∀ e' ∈ es, E.takes e'.part = true → e'.part ∈ E.parts := fun e' he' ht => by
    have : e'.part ∈ E.parts.filter E.takes := by
      rw [takes_parts h]
      exact List.mem_map_of_mem (List.mem_filter.mpr ⟨he', by rw [← takes_part h he']; exact ht⟩)
    exact (List.mem_filter.mp this).1
  have ht : E.takes e.part = true := by rw [takes_part h he, hd]; rfl
  have hsize : (save E majorn sizes).sizes (e.major, e.minor) = some e.blocks := by
    refine run_sizes E E.parts _ (fun p hp htp hk => ?_) (.inr ⟨e.part, hmem e he ht, ht, rfl⟩)
    have hin : p ∈ E.parts.filter E.takes := List.mem_filter.mpr ⟨hp, htp⟩
    rw [takes_parts h] at hin
    obtain ⟨e', he', rfl⟩ := List.mem_map.mp hin
    have he'' : e' ∈ es := (List.mem_filter.mp he').1
    obtain rfl : e' = e := List.inj_on_of_nodup_map h.numbers he'' he hk
    exact h.blocks e' he''
  unfold checkhdspace
  rw [hsize]
  simp

/-- The disk on the last line of the listing is counted again. -/
theorem again_eq (es : List ProcEntry) : es.getLast?.toList.filter (·.isDisk) =
    again (es.getLast?.any (·.isDisk)) (es.filter (·.isDisk)) := by
  cases hl : es.getLast? with
  | none => rfl
  | some e =>
    obtain ⟨init, rfl⟩ : ∃ init, es = init ++ [e] := List.getLast?_eq_some_iff.mp hl
    rw [Option.toList_some, Option.any_some, again]
    cases hd : e.isDisk with
    | false => rw [List.filter_cons_of_neg (by rw [hd]; exact Bool.false_ne_true)]; rfl
    | true =>
      rw [List.filter_cons_of_pos hd, List.filter_append, List.filter_cons_of_pos hd, if_pos rfl,
        List.filter_nil, List.getLast?_concat]
      rfl

theorem exists_mem_numbers {p : Part} {ps : List Part} (hp : p ∈ ps) (b : Bios) :
    ∃ n, (n, p.device) ∈ E.numbers b ps := by
  induction ps generalizing b with
  | nil => cases hp
  | cons q ps ih =>
    rcases List.mem_cons.mp hp with rfl | hp
    · exact ⟨_, List.mem_cons_self⟩
    · obtain ⟨n, hn⟩ := ih hp (gethdbios E.hdmap.isSome b (E.size q.path)).2
      exact ⟨n, List.mem_cons_of_mem _ hn⟩

/-- A partition taken for a disk is not in the table. -/
theorem not_inTable_of_partition (hnames : (es.map ProcEntry.name).Nodup) {e : ProcEntry} (he : e ∈ es)
    (hd : e.isDisk = false) {last : Bool} {ps : List Part} (hp : e.part ∈ ps) {b : Bios} :
    ¬ InTable (tableOf (ascii "/dev") (es.filter (·.isDisk) ++ again last (es.filter (·.isDisk))))
      (E.numbers b ps) := by
  intro hin
  obtain ⟨n, hn⟩ := @exists_mem_numbers E _ _ hp b
  obtain ⟨-, htable⟩ := hin _ hn
  obtain ⟨e', he', hpath⟩ := Option.map_eq_some_iff.mp htable
  have hmem : e' ∈ es.filter (·.isDisk) := by
    rcases List.mem_append.mp (List.mem_of_getElem? he') with hm | hm
    · exact hm
    · unfold again at hm
      split_ifs at hm
      · exact List.mem_of_getLast? (Option.mem_toList.mp hm)
      · cases hm
  obtain ⟨hmem, hd'⟩ := List.mem_filter.mp hmem
  obtain rfl : e' = e := List.inj_on_of_nodup_map hnames hmem he
    (@path_injective (ascii "/dev") _ _ hpath)
  rw [hd] at hd'
  cases hd'

/-- No partition starts at sector 0. -/
def NoneAtZero (E : Machine) (es : List ProcEntry) : Prop :=
  ∀ e ∈ es, e.isDisk = false → E.geo (e.path (ascii "/dev")) ≠ some 0

include h in
/-- **Both programs number the disks alike**: exactly when no partition starts at sector 0, so that
it would be taken for a disk, and every disk is found in `hdmap` under its own number or not at
all. -/
theorem sameNumbers_iff (majorn : Bytes) (sizes : ℕ × ℕ → Option ℕ) (nospc : Bool)
    (garbage : Bytes) : SameNumbers E majorn sizes nospc garbage ↔ NoneAtZero E es ∧
      ∀ file ∈ E.hdmap, InOrder (es.getLast?.any (·.isDisk)) (loadhdmap file) 0
        (E.sizesOf (es.filter (·.isDisk))) := by
  have hnames : ((es.filter (·.isDisk)).map ProcEntry.name).Nodup :=
    h.names.sublist (List.filter_sublist.map _)
  have hdisks : (save E majorn sizes).disks = E.numbers (E.init majorn sizes).bios
      (E.parts.filter E.takes) := run_disks E _ _
  rw [SameNumbers, h.proc, makehdmap_listing (fits_save h majorn sizes nospc), List.filter_append,
    again_eq, hdisks, takes_parts h]
  simp only [Option.some.injEq, exists_eq_left']
  by_cases hzero : NoneAtZero E es
  · have hsame : (es.filter fun e => e.isDisk || E.geo (e.path (ascii "/dev")) == some 0) =
        es.filter (·.isDisk) := by
      refine List.filter_congr fun e he => ?_
      cases hd : e.isDisk with
      | true => rfl
      | false => exact beq_eq_false_iff_ne.mpr (hzero e he hd)
    rw [hsame, inTable_iff hnames _ E _ [] (E.init majorn sizes).bios rfl rfl]
    show (_ → InOrder _ (loadhdmap (E.hdmap.getD [])) 0 _) ↔ _
    cases E.hdmap with
    | none => exact ⟨fun _ => ⟨hzero, nofun⟩, fun _ => nofun⟩
    | some file =>
      exact ⟨fun hin => ⟨hzero, fun f hf => by cases hf; exact hin rfl⟩, fun hin _ => hin.2 file rfl⟩
  · refine ⟨fun hin => absurd hin ?_, fun hin => absurd hin.1 hzero⟩
    unfold NoneAtZero at hzero
    push Not at hzero
    obtain ⟨e, he, hd, hgeo⟩ := hzero
    refine not_inTable_of_partition h.names he hd ?_
    exact List.mem_map_of_mem (List.mem_filter.mpr ⟨he, by rw [hgeo, hd]; rfl⟩)

end Machine

/-! ## Two disks -/

/-- A disk with one partition, and a larger disk without any. -/
def twoDisks : List ProcEntry :=
  [⟨8, 0, 500, ascii "sda", by decide, by decide, by decide, by decide, by decide, by decide⟩,
    ⟨8, 1, 400, ascii "sda1", by decide, by decide, by decide, by decide, by decide, by decide⟩,
    ⟨8, 16, 1000, ascii "sdb", by decide, by decide, by decide, by decide, by decide, by decide⟩]

/-- Their sizes in sectors. -/
def twoSizes (d : Bytes) : UInt32 :=
  if d = ascii "/dev/sda" then 1000 else if d = ascii "/dev/sdb" then 2000 else 800

/-- A machine with these disks. -/
def twoDiskMachine (hdmap : List (ℕ × UInt32)) : Machine where
  proc := procText twoDisks
  mapper := []
  opens _ := true
  geo d := some (if d = ascii "/dev/sda1" then 63 else 0)
  size := twoSizes
  sfdisk _ _ := 0x83
  accepts t _ := t == .e2fs
  hdmap := some hdmap
  exclude _ := 0
  revoraw := false

theorem listing_twoDisks (hdmap : List (ℕ × UInt32)) : Listing (twoDiskMachine hdmap) twoDisks where
  proc := rfl
  mapper _ he := absurd he List.not_mem_nil
  majors := by decide
  names := by decide
  numbers := by decide
  opens _ _ := rfl
  answers _ _ := rfl
  blocks := show ∀ e ∈ twoDisks, (twoSizes (e.path (ascii "/dev"))).toNat / 2 = e.blocks by decide

/-- `hdmap` lists the disks in the order of the kernel. -/
theorem sameNumbers_twoDisks :
    SameNumbers (twoDiskMachine [(0, 1000), (1, 2000)]) [] (fun _ => none) false [] := by
  refine (sameNumbers_iff (listing_twoDisks _) _ _ _ _).mpr ⟨by unfold NoneAtZero; decide, fun f hf => ?_⟩
  obtain rfl : [(0, 1000), (1, 2000)] = f := Option.some.inj hf
  exact ⟨.inr (.inl rfl), .inr (.inl rfl), trivial⟩

/-- The BIOS counts the second disk first. -/
theorem not_sameNumbers_twoDisks : Listing (twoDiskMachine [(0, 2000), (1, 1000)]) twoDisks ∧
    ¬ SameNumbers (twoDiskMachine [(0, 2000), (1, 1000)]) [] (fun _ => none) false [] := by
  have hlist := listing_twoDisks [(0, 2000), (1, 1000)]
  refine ⟨hlist, ?_⟩
  rintro ⟨table, htable, hin⟩
  have hdisks : (save (twoDiskMachine [(0, 2000), (1, 1000)]) [] fun _ => none).disks =
      [(1, ascii "sda"), (0, ascii "sdb")] := by
    rw [save, run_disks, takes_parts hlist]
    rfl
  rw [hlist.proc, makehdmap_listing (fits_save hlist _ _ _)] at htable
  obtain rfl := Option.some.inj htable
  rw [hdisks] at hin
  exact absurd (hin (1, ascii "sda") (by simp)).2 (by decide)

end LinboxRescue
