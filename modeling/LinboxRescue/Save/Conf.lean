import LinboxRescue.Save.RestoreImage

/-!
# `conf.txt`, written and read

The lines that `saveimage` and `save` write for a machine are read back by `restoreimage`. All of them
are plain, except that a volume's name may have a white space in it (`plain_or_cut`).

`roundTrips_iff`: the restorations made are those written, each once and in this order, exactly when
no volume that is copied has such a name.
-/

namespace LinboxRescue

/-! ## Names -/

theorem space_letter {n : ℤ} (h0 : 0 ≤ n) (h48 : n < 48) : ∀ b ∈ dnum2pre (n + 128), isSpace b = false := by
  intro b hb
  rw [dnum2pre, if_neg (by omega)] at hb
  obtain rfl : b = UInt8.ofNat ((80 + (n + 128 - 128)) % 256).toNat :=
    List.mem_singleton.mp (List.takeWhile_subset _ hb)
  have hval : (UInt8.ofNat ((80 + (n + 128 - 128)) % 256).toNat).toNat = 80 + n.toNat := by
    rw [UInt8.toNat_ofNat']
    omega
  simp only [isSpace, Bool.or_eq_false_iff, beq_eq_false_iff_ne, ne_eq, Bool.and_eq_false_iff,
    decide_eq_false_iff_not]
  refine ⟨fun h => ?_, .inr (by omega)⟩
  have := congrArg UInt8.toNat h
  rw [hval] at this
  change _ = 32 at this
  omega

theorem space_dec (n : ℕ) : ∀ b ∈ dec n, isSpace b = false :=
  fun b hb => isSpace_of_isDigit (isDigit_of_mem_dec b hb)

theorem space_hexDigit (d : ℕ) (hd : d < 16) : isSpace (hexDigit d) = false := by
  unfold hexDigit
  interval_cases d <;> rfl

theorem isWord_volume {dnum : ℤ} (h : 0xFFF ≤ dnum) : IsWord (dnum2pre dnum) := by
  rw [dnum2pre, if_pos h]
  refine IsWord.append (isWord_ascii (by decide)) ?_
  rw [hex2, List.forall_mem_cons, List.forall_mem_singleton]
  exact ⟨space_hexDigit _ (by omega), space_hexDigit _ (by omega)⟩

theorem isWord_partition {n : ℤ} (h0 : 0 ≤ n) (h48 : n < 48) (poff : ℕ) :
    IsWord (dnum2pre (n + 128) ++ dec poff) :=
  ⟨by simp [dec_ne_nil], List.forall_mem_append.mpr ⟨space_letter h0 h48, space_dec poff⟩⟩

/-! ## Lines -/

/-- The disk of a line is below 48. -/
def ConfLine.DiskIndex : ConfLine → Prop
  | .ptabs disk _ => 0 ≤ disk ∧ disk < 48
  | .partcopy disk _ _ _ none => 0 ≤ disk ∧ disk < 48
  | _ => True

/-- The line of a volume with a white space in its name. -/
inductive ConfLine.Cut : ConfLine → Prop
  | mk {disk : ℤ} (h1 : 3968 ≤ disk) (h2 : disk < 2 ^ 32) (tmin : UInt32) {file w d : Bytes} {c : UInt8}
      (hfile : IsWord file) (hw : IsWord w) (hc : isSpace c = true) :
      Cut (.partcopy disk (-1) tmin file (some (w ++ c :: d)))

/-- A text that starts with a letter is a word or has a white space in it. -/
theorem isWord_or_cut {b : UInt8} (hb : isSpace b = false) (t : Bytes) :
    IsWord (b :: t) ∨ ∃ w c d, b :: t = w ++ c :: d ∧ IsWord w ∧ isSpace c = true := by
  have hone : ∀ {w : Bytes}, (∀ x ∈ w, isSpace x = false) → IsWord (b :: w) := fun hw =>
    ⟨List.cons_ne_nil _ _, List.forall_mem_cons.mpr ⟨hb, hw⟩⟩
  induction t generalizing b with
  | nil => exact .inl (hone (by simp))
  | cons c t ih =>
    cases hc : isSpace c with
    | true => exact .inr ⟨[b], c, t, rfl, hone (by simp), hc⟩
    | false =>
      rcases ih hc (fun hw => ⟨List.cons_ne_nil _ _, List.forall_mem_cons.mpr ⟨hc, hw⟩⟩) with
        hword | ⟨w, c', d, heq, hw, hc'⟩
      · exact .inl (hone hword.space)
      · exact .inr ⟨b :: w, c', d, by rw [heq]; rfl, hone hw.space, hc'⟩

/-- A volume comes from `/dev/mapper`. -/
theorem device_volume {E : Machine} {p : Part} (hp : p ∈ E.parts) (hdm : p.isdm = true) :
    ∃ t, p.device = 109 :: t := by
  rcases List.mem_append.mp hp with h | h
  · have := (List.mem_filter.mp h).2
    rw [hdm] at this
    cases this
  · obtain ⟨e, -, he⟩ := List.mem_filterMap.mp h
    unfold MapperEntry.part at he
    split_ifs at he
    obtain ⟨n, -, rfl⟩ := Option.map_eq_some_iff.mp he
    exact ⟨_, rfl⟩

/-- The line of a device that is copied. -/
theorem partcopy_plain_or_cut {E : Machine} {st : SaveState} {p : Part} (hp : p ∈ E.parts)
    (tmin : UInt32) {l : ConfLine} (hl : l = .partcopy ((st.look p).dnum - 128) (p.poff - 1) tmin
      (p.file (st.look p).dnum) (if p.isdm then some p.device else none))
    (hdisk : l.DiskIndex) :
    l.Plain ∨ (l.Cut ∧ p.isdm = true ∧ ∃ b ∈ p.device, isSpace b = true) := by
  subst hl
  change ConfLine.DiskIndex (.partcopy (st.numberFor p - 128) _ _ _ _) at hdisk
  show ConfLine.Plain (.partcopy (st.numberFor p - 128) (p.poff - 1) tmin
      (p.file (st.numberFor p)) (if p.isdm then some p.device else none)) ∨
    (ConfLine.Cut (.partcopy (st.numberFor p - 128) (p.poff - 1) tmin (p.file (st.numberFor p))
      (if p.isdm then some p.device else none)) ∧ _)
  unfold SaveState.numberFor Part.poff Part.file at hdisk ⊢
  cases hdm : p.isdm with
  | false =>
    simp only [hdm, Bool.false_eq_true, if_false] at hdisk ⊢
    refine .inl ⟨hdisk.1, hdisk.2, ?_⟩
    have := isWord_partition hdisk.1 hdisk.2 p.poff
    rwa [Int.sub_add_cancel] at this
  | true =>
    simp only [if_true]
    have hlt := p.minor_lt
    have hfile : IsWord (dnum2pre (0x1000 + p.minor)) := isWord_volume (by omega)
    obtain ⟨t, ht⟩ := device_volume hp hdm
    rw [ht]
    rcases isWord_or_cut (show isSpace 109 = false from rfl) t with hword | ⟨w, c, d, heq, hw, hc⟩
    · exact .inl ⟨by omega, by omega, rfl, hfile, hword⟩
    · rw [heq]
      exact .inr ⟨.mk (by omega) (by omega) tmin hfile hw hc, trivial, c, by simp, hc⟩

/-- A device that is copied although its name has a white space. -/
def Machine.CopiesCut (E : Machine) (st : SaveState) (p : Part) : Prop :=
  (∃ tmin ttype, E.fate st p = .copy tmin ttype) ∧ p.isdm = true ∧ ∃ b ∈ p.device, isSpace b = true

theorem lines_plain_or_cut {E : Machine} {st : SaveState} {p : Part} (hp : p ∈ E.parts) {l : ConfLine}
    (hl : l ∈ E.lines st p) (hdisk : l.DiskIndex) : l.Plain ∨ (l.Cut ∧ E.CopiesCut st p) := by
  unfold Machine.lines at hl
  cases hf : E.fate st p with
  | skip =>
    rw [hf] at hl
    cases hl
  | disk start =>
    rw [hf] at hl
    rcases List.mem_cons.mp hl with rfl | hl
    · exact .inl trivial
    · obtain rfl := List.mem_singleton.mp hl
      refine .inl ⟨hdisk.1, hdisk.2, ?_⟩
      have := space_letter hdisk.1 hdisk.2
      rwa [Int.sub_add_cancel] at this
  | copy tmin ttype =>
    rw [hf] at hl
    rcases List.mem_append.mp hl with hl | hl
    · rcases List.mem_cons.mp hl with rfl | hl
      · exact .inl trivial
      · exact (partcopy_plain_or_cut hp _ (List.mem_singleton.mp hl) hdisk).imp_right
          fun h => ⟨h.1, ⟨tmin, ttype, hf⟩, h.2⟩
    · split_ifs at hl
      · cases hl
      · obtain rfl := List.mem_singleton.mp hl
        exact .inl trivial

/-! ## The round trip -/

section RoundTrip

variable (E : Machine) (hostname date majorn : Bytes) (sizes : ℕ × ℕ → Option ℕ)

/-- The lines of `conf.txt` for a machine. -/
def Machine.confLines : List ConfLine := saveimage hostname date (save E majorn sizes)

/-- `restoreimage` makes the restorations that are written in `conf.txt`. -/
def RoundTrips (revontblfix nolrs : Bool) (garbage : Bytes) : Prop :=
  (restoreimage revontblfix nolrs garbage
    (confText (E.confLines hostname date majorn sizes))).filter (·.isRestore) =
      (E.confLines hostname date majorn sizes).filterMap ConfLine.call

/-- The volumes that are copied have no white space in their names. -/
def NamesAreWords : Prop :=
  ∀ t ∈ E.turns (E.init majorn sizes) E.parts, ∀ tmin ttype, E.fate t.1 t.2 = .copy tmin ttype →
    t.2.isdm = true → ∀ b ∈ t.2.device, isSpace b = false

variable {E hostname date majorn sizes}

theorem confLines_eq : E.confLines hostname date majorn sizes =
    [.title hostname, .desc date, .partcopyComment] ++
      (E.turns (E.init majorn sizes) E.parts).flatMap (fun t => E.lines t.1 t.2) ++
      [.bootComment 0, .root, .chainloader, .blank] := by
  rw [Machine.confLines, saveimage, save, run_conf]
  rfl

variable (hhost : ∀ b ∈ hostname, isSpace b = false) (hdate : ∀ b ∈ date, b ≠ 10)
  (hdisk : ∀ l ∈ E.confLines hostname date majorn sizes, l.DiskIndex)
  (hlen : ∀ l ∈ E.confLines hostname date majorn sizes, l.text.length < 250)

include hhost hdate hdisk in
theorem plain_or_cut {l : ConfLine} (hl : l ∈ E.confLines hostname date majorn sizes) :
    l.Plain ∨ (l.Cut ∧ ∃ t ∈ E.turns (E.init majorn sizes) E.parts, E.CopiesCut t.1 t.2) := by
  have hd := hdisk l hl
  rw [confLines_eq, List.mem_append, List.mem_append] at hl
  rcases hl with (hl | hl) | hl
  · simp only [List.mem_cons, List.not_mem_nil, or_false] at hl
    rcases hl with rfl | rfl | rfl
    exacts [.inl hhost, .inl hdate, .inl trivial]
  · obtain ⟨t, ht, hl⟩ := List.mem_flatMap.mp hl
    exact (lines_plain_or_cut (mem_turns ht) hl hd).imp_right fun h => ⟨h.1, t, ht, h.2⟩
  · simp only [List.mem_cons, List.not_mem_nil, or_false] at hl
    rcases hl with rfl | rfl | rfl | rfl <;> exact .inl trivial

/-- The first line that is not plain. -/
theorem exists_first_cut {ls : List ConfLine} (h : ∀ l ∈ ls, l.Plain ∨ l.Cut)
    (hnot : ¬ ∀ l ∈ ls, l.Plain) :
    ∃ pre l post, ls = pre ++ l :: post ∧ (∀ l ∈ pre, l.Plain) ∧ l.Cut := by
  induction ls with
  | nil => exact absurd (by simp) hnot
  | cons l ls ih =>
    rw [List.forall_mem_cons] at h
    by_cases hl : l.Plain
    · obtain ⟨pre, l', post, rfl, hpre, hcut⟩ := ih h.2 fun hall =>
        hnot (List.forall_mem_cons.mpr ⟨hl, hall⟩)
      exact ⟨l :: pre, l', post, rfl, List.forall_mem_cons.mpr ⟨hl, hpre⟩, hcut⟩
    · exact ⟨[], l, ls, rfl, by simp, h.1.resolve_left hl⟩

/-- A name that is cut is read as another one. -/
theorem not_roundTrip_of_cut {pre post : List ConfLine} {l : ConfLine} (hpre : ∀ l ∈ pre, l.Plain)
    (hlen : ∀ l' ∈ pre ++ l :: post, l'.text.length < 250) (hcut : l.Cut) {revontblfix nolrs : Bool}
    {garbage : Bytes} :
    (restoreimage revontblfix nolrs garbage (confText (pre ++ l :: post))).filter (·.isRestore) ≠
      (pre ++ l :: post).filterMap ConfLine.call := by
  intro heq
  rw [List.forall_mem_append, List.forall_mem_cons] at hlen
  obtain @⟨disk, h1, h2, tmin, file, w, d, c, hfile, hw, hc⟩ := hcut
  have hprefix := @restoreimage_cut revontblfix nolrs pre post hpre hlen.1 disk h1 h2 tmin file w d c
    hfile hw hc hlen.2.1 garbage
  rw [heq, List.filterMap_append, List.prefix_append_right_inj] at hprefix
  change [_] <+: Action.restore (.device (ascii "/dev/" ++ (w ++ c :: d))) tmin.toNat file ::
    post.filterMap ConfLine.call at hprefix
  rw [List.cons_prefix_cons] at hprefix
  injection hprefix.1 with hdest
  injection hdest with hpath
  have := congrArg List.length hpath
  simp at this

include hhost hdate hdisk hlen in
/-- **`conf.txt` is read back as it was written** exactly when the names of the volumes that are
copied have no white space. -/
theorem roundTrips_iff (revontblfix nolrs : Bool) (garbage : Bytes) :
    RoundTrips E hostname date majorn sizes revontblfix nolrs garbage ↔
      NamesAreWords E majorn sizes := by
  constructor
  · intro h
    have hall : ∀ l ∈ E.confLines hostname date majorn sizes, l.Plain := by
      by_contra hnot
      obtain ⟨pre, l, post, hls, hpre, hcut⟩ :=
        exists_first_cut (fun l hl => (plain_or_cut hhost hdate hdisk hl).imp_right And.left) hnot
      unfold RoundTrips at h
      rw [hls] at h hlen
      exact not_roundTrip_of_cut hpre hlen hcut h
    intro t ht tmin ttype hfate hdm
    have hplain := hall (.partcopy ((t.1.look t.2).dnum - 128) (t.2.poff - 1) tmin
      (t.2.file (t.1.look t.2).dnum) (if t.2.isdm then some t.2.device else none)) (by
        rw [confLines_eq]
        refine List.mem_append_left _ (List.mem_append_right _ (List.mem_flatMap.mpr ⟨t, ht, ?_⟩))
        rw [Machine.lines, hfate]
        simp [partLines])
    rw [if_pos hdm] at hplain
    exact hplain.2.2.2.2.space
  · intro h
    refine restoreimage_plain (fun l hl => ?_) hlen ?_ garbage
    · refine (plain_or_cut hhost hdate hdisk hl).resolve_right ?_
      rintro ⟨-, t, ht, ⟨tmin, ttype, hfate⟩, hdm, b, hb, hspace⟩
      rw [h t ht tmin ttype hfate hdm b hb] at hspace
      cases hspace
    · rw [confLines_eq, List.getLast?_append]
      rfl

end RoundTrip

/-! ## A volume -/

/-- A machine with a physical volume and a logical one called `name`. -/
def lvmMachine (name : Bytes) : Machine where
  proc := ascii "   8     0       1000 sda\n   8     1        900 sda1\n"
  mapper := [⟨ascii "control", none⟩, ⟨name, some (254, 0)⟩]
  opens _ := true
  geo d := some (if d = ascii "/dev/sda" then 0 else 63)
  size _ := 1800
  sfdisk _ _ := 0x8e
  accepts t d := if d = ascii "/dev/sda1" then t == .lvm else t == .e2fs
  hdmap := none
  exclude _ := 0
  revoraw := false

/-- The lines for it. -/
def lvmLines (name : Bytes) : List ConfLine :=
  [.title (ascii "host"), .desc (ascii "today"), .partcopyComment, .ptabsComment, .ptabs 0 (ascii "P"),
    .extent 0 0 63 1862 0x8e, .partcopy 0 0 63 (ascii "P1") none,
    .extent 3968 (-1) 0 1799 0xFFFFFFFF,
    .partcopy 3968 (-1) 0 (ascii "Lvm00") (some (ascii "mapper/" ++ name)),
    .bootComment 0, .root, .chainloader, .blank]

theorem confLines_root : (lvmMachine (ascii "vg-root")).confLines (ascii "host") (ascii "today") []
    (fun _ => none) = lvmLines (ascii "vg-root") := rfl

theorem confLines_space : (lvmMachine (ascii "my vol")).confLines (ascii "host") (ascii "today") []
    (fun _ => none) = lvmLines (ascii "my vol") := rfl

theorem diskIndex_lvmLines (name : Bytes) : ∀ l ∈ lvmLines name, l.DiskIndex := by
  simp [lvmLines, ConfLine.DiskIndex]

theorem roundTrips_root : RoundTrips (lvmMachine (ascii "vg-root")) (ascii "host") (ascii "today") []
    (fun _ => none) false false [] := by
  refine (roundTrips_iff (by decide) (by decide) ?_ ?_ _ _ _).mpr fun t ht _ _ _ => ?_
  · rw [confLines_root]
    exact diskIndex_lvmLines _
  · rw [confLines_root]
    decide
  · have hparts : ∀ p ∈ (lvmMachine (ascii "vg-root")).parts, p.isdm = true →
        ∀ b ∈ p.device, isSpace b = false := by decide
    exact hparts t.2 (mem_turns ht)

/-- Of the name with a blank only the first word is read. -/
theorem not_roundTrips_space :
    (∀ l ∈ (lvmMachine (ascii "my vol")).confLines (ascii "host") (ascii "today") [] (fun _ => none),
      l.DiskIndex ∧ l.text.length < 250) ∧
    ¬ RoundTrips (lvmMachine (ascii "my vol")) (ascii "host") (ascii "today") [] (fun _ => none)
      false false [] := by
  have hlen : ∀ l ∈ lvmLines (ascii "my vol"), l.text.length < 250 := by decide
  unfold RoundTrips
  rw [confLines_space]
  refine ⟨fun l hl => ⟨diskIndex_lvmLines _ l hl, hlen l hl⟩, ?_⟩
  have hpre : ∀ l ∈ (lvmLines (ascii "my vol")).take 8, l.Plain := by
    simp only [lvmLines, List.take, List.forall_mem_cons]
    exact ⟨by unfold ConfLine.Plain; decide, by unfold ConfLine.Plain; decide, trivial, trivial,
      ⟨by decide, by decide, by decide⟩, trivial, ⟨by decide, by decide, isWord_ascii (by decide)⟩,
      trivial, by simp⟩
  exact not_roundTrip_of_cut hpre hlen
    (.mk (w := ascii "mapper/my") (d := ascii "vol") (c := 32) (by decide) (by decide) 0
      (isWord_ascii (by decide)) (isWord_ascii (by decide)) rfl)

end LinboxRescue
