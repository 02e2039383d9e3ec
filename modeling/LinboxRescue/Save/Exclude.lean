import LinboxRescue.Save.Conf
import LinboxRescue.Save.Prefixes

/-!
# Excluded partitions (`loadexcludemap`, `isexcluded`, `autosave.c`)

The file `exclude` has lines `disk:partition`, in which partition 0 stands for the whole disk. A disk
has a mask of 32 bits in a table of 65536 entries, where volumes have theirs too.

1. `excludePairs_excludeText`: the lines are read one by one.
2. `testBit_loadexcludemap`: the bits of a disk after the file was read.
3. `beside_turns`: a run with the file, device by device beside the one without it.
4. `exclusion_obeyed`: which devices of a run are skipped, and where the table is looked at.
-/

namespace LinboxRescue

/-! ## Loading -/

/-- `%d:%d` and what follows up to the next line. -/
def scanExclude (t : Bytes) : Option (ℕ × ℕ) × Bytes :=
  match scanConv .d t with
  | some (.int d, 58 :: t) =>
    match scanConv .d t with
    | some (.int n, t) => (some ((d % 2 ^ 32).toNat, (n % 2 ^ 32).toNat), skipSpace t)
    | _ => (none, skipSpace t)
  | some (_, t) => (none, t)
  | none => (none, skipSpace t)

/-- The loop up to the end of the file. -/
def excludePairs : ℕ → Bytes → List (ℕ × ℕ)
  | _, [] => []
  | 0, _ => []
  | fuel + 1, t => (scanExclude t).1.toList ++ excludePairs fuel (scanExclude t).2

/-- A mask after a line: everything, or one more bit, shifts being modulo 32. -/
def excludeBits (n mask : ℕ) : ℕ := if n = 0 then 0xFFFFFFFF else mask ||| 2 ^ ((n - 1) % 32)

/-- The table before the file is read; what is around it is not known. -/
def excludeTable (mem : ℤ → ℕ) (i : ℤ) : ℕ := if 0 ≤ i ∧ i < 65536 then 0 else mem i

/-- `loadexcludemap`. -/
def loadexcludemap (mem : ℤ → ℕ) (file : Bytes) : ℤ → ℕ :=
  (excludePairs (file.length + 1) file).foldl
    (fun table x => Function.update table x.1 (excludeBits x.2 (table x.1))) (excludeTable mem)

/-- A file of lines `d:n`. -/
def excludeText (ls : List (ℕ × ℕ)) : Bytes := ls.flatMap fun x => dec x.1 ++ 58 :: (dec x.2 ++ [10])

theorem scanExclude_line {x : ℕ × ℕ} (h1 : x.1 < 2 ^ 32) (h2 : x.2 < 2 ^ 32) {t : Bytes}
    (ht : skipSpace t = t) : scanExclude (dec x.1 ++ 58 :: (dec x.2 ++ [10]) ++ t) = (some x, t) := by
  have hd : scanConv .d (dec x.1 ++ 58 :: (dec x.2 ++ [10]) ++ t) =
      some (.int x.1, 58 :: (dec x.2 ++ (10 :: t))) := by
    rw [List.append_assoc, scanConv_d_dec x.1 (by simp; decide)]
    simp
  have hn : scanConv .d (dec x.2 ++ (10 :: t)) = some (.int x.2, 10 :: t) :=
    scanConv_d_dec x.2 (by simp; decide)
  have hskip : skipSpace (10 :: t) = t := (skipSpace_cons (by decide)).trans ht
  unfold scanExclude
  rw [hd]
  simp only [hn, hskip]
  congr 2
  obtain ⟨d, n⟩ := x
  simp only [Prod.mk.injEq]
  dsimp only at h1 h2
  omega

theorem skipSpace_excludeText (ls : List (ℕ × ℕ)) : skipSpace (excludeText ls) = excludeText ls := by
  cases ls with
  | nil => rfl
  | cons x ls =>
    unfold excludeText
    rw [List.flatMap_cons, List.append_assoc]
    exact skipSpace_dec x.1 _

/-- The lines are read back. -/
theorem excludePairs_excludeText {ls : List (ℕ × ℕ)} (h : ∀ x ∈ ls, x.1 < 2 ^ 32 ∧ x.2 < 2 ^ 32)
    {fuel : ℕ} (hf : ls.length ≤ fuel) : excludePairs fuel (excludeText ls) = ls := by
  induction ls generalizing fuel with
  | nil => cases fuel <;> rfl
  | cons x ls ih =>
    obtain ⟨⟨h1, h2⟩, hls⟩ := List.forall_mem_cons.mp h
    obtain ⟨fuel, rfl⟩ : ∃ k, fuel = k + 1 := ⟨fuel - 1, by simp only [List.length_cons] at hf; omega⟩
    have hscan := scanExclude_line h1 h2 (skipSpace_excludeText ls)
    have htext : excludeText (x :: ls) = dec x.1 ++ 58 :: (dec x.2 ++ [10]) ++ excludeText ls := rfl
    have hne : excludeText (x :: ls) ≠ [] := by
      rw [htext]
      simp
    obtain ⟨b, t, hbt⟩ := List.exists_cons_of_ne_nil hne
    have hstep : excludePairs (fuel + 1) (excludeText (x :: ls)) =
        (scanExclude (excludeText (x :: ls))).1.toList ++
          excludePairs fuel (scanExclude (excludeText (x :: ls))).2 := by
      rw [hbt]
      rfl
    rw [hstep, htext, hscan]
    show x :: excludePairs fuel (excludeText ls) = _
    rw [ih hls (Nat.le_of_succ_le_succ hf)]

theorem length_le_excludeText (ls : List (ℕ × ℕ)) : ls.length ≤ (excludeText ls).length := by
  induction ls with
  | nil => exact Nat.le_refl 0
  | cons x ls ih =>
    have htext : excludeText (x :: ls) = dec x.1 ++ 58 :: (dec x.2 ++ [10]) ++ excludeText ls := rfl
    rw [htext, List.length_append, List.length_append, List.length_cons, List.length_cons]
    omega

/-! ## The bits of a disk -/

theorem testBit_excludeBits {n mask b : ℕ} (hb : b < 32) : (excludeBits n mask).testBit b = true ↔
    mask.testBit b = true ∨ n = 0 ∨ (n - 1) % 32 = b := by
  unfold excludeBits
  split_ifs with h
  · have hall : (0xFFFFFFFF : ℕ).testBit b = true := by
      rw [show (0xFFFFFFFF : ℕ) = 2 ^ 32 - 1 from rfl, Nat.testBit_two_pow_sub_one]
      exact decide_eq_true hb
    exact iff_of_true hall (.inr (.inl h))
  · rw [Nat.testBit_or, Nat.testBit_two_pow, Bool.or_eq_true, decide_eq_true_eq, or_iff_right h]

theorem testBit_loadexcludemap (mem : ℤ → ℕ) {ls : List (ℕ × ℕ)}
    (h : ∀ x ∈ ls, x.1 < 2 ^ 32 ∧ x.2 < 2 ^ 32) {i : ℤ} (hi : 0 ≤ i ∧ i < 65536) {b : ℕ} (hb : b < 32) :
    (loadexcludemap mem (excludeText ls) i).testBit b = true ↔
      ∃ x ∈ ls, (x.1 : ℤ) = i ∧ (x.2 = 0 ∨ (x.2 - 1) % 32 = b) := by
  unfold loadexcludemap
  rw [excludePairs_excludeText h ((length_le_excludeText ls).trans (Nat.le_succ _))]
  clear h
  induction ls using List.reverseRecOn with
  | nil =>
    show (excludeTable mem i).testBit b = true ↔ _
    unfold excludeTable
    rw [if_pos hi, Nat.zero_testBit]
    simp
  | append_singleton ls x ih =>
    rw [List.foldl_append]
    show Nat.testBit (Function.update (β := fun _ => ℕ) _ (x.1 : ℤ) _ i) b = true ↔ _
    by_cases hx : (x.1 : ℤ) = i
    · subst hx
      rw [Function.update_self, testBit_excludeBits hb, ih]
      simp only [List.mem_append, List.mem_singleton]
      constructor
      · rintro (⟨y, hy, hyi⟩ | hn)
        · exact ⟨y, .inl hy, hyi⟩
        · exact ⟨x, .inr rfl, rfl, hn⟩
      · rintro ⟨y, hy | rfl, hyi⟩
        · exact .inl ⟨y, hy, hyi⟩
        · exact .inr hyi.2
    · rw [Function.update_of_ne (Ne.symm hx), ih]
      simp only [List.mem_append, List.mem_singleton]
      constructor
      · rintro ⟨y, hy, hyi⟩
        exact ⟨y, .inl hy, hyi⟩
      · rintro ⟨y, hy | rfl, hyi⟩
        · exact ⟨y, hy, hyi⟩
        · exact absurd hyi.1 hx

/-! ## Lookups -/

section Lookups

variable (E : Machine) (st : SaveState) (p : Part)

/-- The entry of the table that is looked at for a device. -/
def Machine.lookup : Option ℤ :=
  if p.isdm && !st.shouldBackupLvm then none
  else if !E.opens p.path then none
  else
    match E.start p with
    | none => none
    | some start =>
      if p.dontsave start then none
      else if E.size p.path ≤ 63 || isExtended (E.ttype st p start) then none
      else some (st.numberFor p - 128)

/-- The number of a partition on its disk: the kernel gives an IDE disk 64 numbers, and the others that
are supported 16. -/
def Part.kernelNumber : ℕ :=
  if p.major = 3 ∨ p.major = 22 ∨ p.major = 33 ∨ p.major = 34 then p.minor % 64 else p.minor % 16

variable {E st p}

/-- What is looked up is the number in force. -/
theorem lookup_eq {i : ℤ} (h : E.lookup st p = some i) : i = st.numberFor p - 128 := by
  unfold Machine.lookup at h
  split_ifs at h
  cases hs : E.start p with
  | none =>
    rw [hs] at h
    cases h
  | some start =>
    rw [hs] at h
    dsimp only at h
    split_ifs at h
    exact (Option.some.inj h).symm

end Lookups

/-! ## Beside a run without the file -/

/-- The machine without the file. -/
def Machine.unexcluded (E : Machine) : Machine := { E with exclude := fun _ => 0 }

/-- A device that would be copied, if it is excluded or not. -/
def Fate.unless (f : Fate) (excluded : Bool) : Fate :=
  match f with
  | .skip => .skip
  | .disk start => .disk start
  | .copy tmin ttype => if excluded then .skip else .copy tmin ttype

/-- The states of two runs over the same devices, in which the same disks were found. -/
structure Beside (st st₀ : SaveState) : Prop where
  dnum : st.dnum = st₀.dnum
  bios : st.bios = st₀.bios
  majorn : st.majorn = st₀.majorn
  disks : st.disks = st₀.disks
  lvm : st.shouldBackupLvm = true → st₀.shouldBackupLvm = true

theorem fate_volume {E : Machine} {st : SaveState} {p : Part} (hdm : p.isdm = true) (start : UInt32) :
    E.fate st p ≠ .disk start := by
  intro hf
  unfold Machine.fate at hf
  split_ifs at hf
  cases hs : E.start p with
  | none =>
    rw [hs] at hf
    cases hf
  | some s =>
    rw [hs] at hf
    dsimp only at hf
    rw [if_neg (by rw [dontsave_volume hdm]; exact Bool.false_ne_true)] at hf
    split_ifs at hf

section Beside

variable {E : Machine} {st st₀ : SaveState} (h : Beside st st₀) (p : Part)
include h

theorem Beside.numberFor : st.numberFor p = st₀.numberFor p := by
  unfold SaveState.numberFor
  rw [h.dnum]

/-- **What becomes of a device** is what would become of it without the file, unless it is a volume and
nothing was copied by `image_lvm`, or it is excluded. -/
theorem Beside.fate_eq : E.fate st p = if p.isdm && !st.shouldBackupLvm then .skip
    else (E.unexcluded.fate st₀ p).unless (E.isexcluded (st.numberFor p - 128) p.poff) := by
  unfold Machine.fate
  by_cases hlvm : (p.isdm && !st.shouldBackupLvm) = true
  · rw [if_pos hlvm, if_pos hlvm]
  have hlvm₀ : ¬(p.isdm && !st₀.shouldBackupLvm) = true := by
    intro hc
    rw [Bool.and_eq_true, Bool.not_eq_true'] at hc
    refine hlvm (Bool.and_eq_true_iff.mpr ⟨hc.1, ?_⟩)
    rw [Bool.not_eq_true', ← Bool.not_eq_true]
    exact fun hst => absurd (h.lvm hst) (by rw [hc.2]; exact Bool.false_ne_true)
  rw [if_neg hlvm, if_neg hlvm, if_neg hlvm₀]
  by_cases hopen : (!E.opens p.path) = true
  · rw [if_pos hopen, if_pos (show (!E.unexcluded.opens p.path) = true from hopen)]
    rfl
  rw [if_neg hopen, if_neg (show ¬(!E.unexcluded.opens p.path) = true from hopen)]
  rw [show E.unexcluded.start p = E.start p from rfl]
  cases hs : E.start p with
  | none => rfl
  | some start =>
    have htype : E.unexcluded.ttype st₀ p start = E.ttype st p start := by
      unfold Machine.ttype
      rw [h.majorn]
      rfl
    have hnone : ∀ i n, E.unexcluded.isexcluded i n = false := fun _ _ => Nat.zero_testBit _
    dsimp only
    rw [show E.unexcluded.size p.path = E.size p.path from rfl, htype, hnone, Bool.or_false]
    by_cases hdisk : p.dontsave start = true
    · rw [if_pos hdisk, if_pos hdisk]
      rfl
    rw [if_neg hdisk, if_neg hdisk]
    by_cases hsmall : (decide (E.size p.path ≤ 63) || isExtended (E.ttype st p start)) = true
    · rw [if_pos hsmall, hsmall, Bool.true_or, if_pos rfl]
      rfl
    · rw [if_neg hsmall, Bool.eq_false_iff.mpr hsmall, Bool.false_or]
      rfl

theorem Beside.look : Beside (st.look p) (st₀.look p) :=
  ⟨h.numberFor p, h.bios, h.majorn, h.disks, h.lvm⟩

theorem Beside.newDisk (start : UInt32) : Beside (((st.look p).major p start).newDisk E p)
    (((st₀.look p).major p start).newDisk E.unexcluded p) := by
  have hbios : gethdbios E.hdmap.isSome st.bios (E.size p.path) =
      gethdbios E.unexcluded.hdmap.isSome st₀.bios (E.unexcluded.size p.path) := by
    rw [h.bios]
    rfl
  have hmajor : ((st.look p).major p start).majorn = ((st₀.look p).major p start).majorn := by
    show (if _ then p.path else st.majorn) = if _ then p.path else st₀.majorn
    rw [h.majorn]
  refine ⟨congrArg Prod.fst hbios, congrArg Prod.snd hbios, hmajor, ?_, h.lvm⟩
  show st.disks ++ [((gethdbios _ st.bios _).1 - 128, _)] =
    st₀.disks ++ [((gethdbios _ st₀.bios _).1 - 128, _)]
  rw [h.disks, h.bios]
  rfl

/-- A device is copied in the second run, whatever becomes of it in the first one. -/
theorem Beside.copy (x : Bool) (tmin ttype : UInt32) :
    Beside (if x then st else st.copy E p tmin ttype) (st₀.copy E.unexcluded p tmin ttype) := by
  unfold SaveState.copy
  rw [show E.unexcluded.tool p.path ttype = E.tool p.path ttype from rfl]
  cases E.tool p.path ttype with
  | none => cases x <;> exact ⟨h.dnum, h.bios, h.majorn, h.disks, h.lvm⟩
  | some tool =>
    cases x with
    | true =>
      exact ⟨h.dnum, h.bios, h.majorn, h.disks, fun hl => Bool.or_eq_true_iff.mpr (.inl (h.lvm hl))⟩
    | false =>
      refine ⟨h.dnum, h.bios, h.majorn, h.disks, fun hl => Bool.or_eq_true_iff.mpr ?_⟩
      exact (Bool.or_eq_true_iff.mp hl).imp_left h.lvm

/-- A device that would be copied is skipped for one of two reasons. -/
theorem Beside.fate_of_copy {tmin ttype : UInt32} (hf : E.unexcluded.fate st₀ p = .copy tmin ttype) :
    E.fate st p = if p.isdm && !st.shouldBackupLvm || E.isexcluded (st.numberFor p - 128) p.poff then
      .skip else .copy tmin ttype := by
  rw [h.fate_eq p, hf]
  cases p.isdm && !st.shouldBackupLvm <;> rfl

/-- Nothing else changes. -/
theorem Beside.fate_others (hno : ∀ tmin ttype, E.unexcluded.fate st₀ p ≠ .copy tmin ttype) :
    E.fate st p = E.unexcluded.fate st₀ p := by
  cases hf : E.unexcluded.fate st₀ p with
  | skip => exact (h.fate_eq p).trans (by rw [hf]; exact ite_self _)
  | disk start =>
    have hdm : p.isdm = false := Bool.eq_false_iff.mpr fun hdm => fate_volume hdm start hf
    exact (h.fate_eq p).trans (by rw [hf, hdm]; rfl)
  | copy tmin ttype => exact absurd hf (hno tmin ttype)

/-- **One device** beside. -/
theorem Beside.step : Beside (st.step E p) (st₀.step E.unexcluded p) := by
  rw [step_eq, step_eq]
  cases hf : E.unexcluded.fate st₀ p with
  | skip =>
    rw [h.fate_others p (by rw [hf]; simp), hf]
    exact h.look p
  | disk start =>
    rw [h.fate_others p (by rw [hf]; simp), hf]
    exact h.newDisk p start
  | copy tmin ttype =>
    rw [h.fate_of_copy p hf]
    cases p.isdm && !st.shouldBackupLvm || E.isexcluded (st.numberFor p - 128) p.poff with
    | true => exact (h.look p).copy p true tmin ttype
    | false => exact (h.look p).copy p false tmin ttype

theorem Beside.skip_iff {tmin ttype : UInt32} (hf : E.unexcluded.fate st₀ p = .copy tmin ttype) :
    E.fate st p = .skip ↔ (p.isdm && !st.shouldBackupLvm ||
      E.isexcluded (st.numberFor p - 128) p.poff) = true := by
  rw [h.fate_of_copy p hf]
  split_ifs with hx
  · exact iff_of_true rfl hx
  · exact iff_of_false (fun hc => by cases hc) hx

end Beside

/-- Volumes are looked at once `image_lvm` has copied something. -/
def LvmMarked (st : SaveState) : Prop := st.shouldBackupLvm = true ↔ ∃ im ∈ st.images, im.tool = .lvm

theorem LvmMarked.step {E : Machine} {st : SaveState} (h : LvmMarked st) (p : Part) :
    LvmMarked (st.step E p) := by
  rw [step_eq]
  cases E.fate st p with
  | skip => exact h
  | disk start => exact h
  | copy tmin ttype =>
    dsimp only
    unfold SaveState.copy
    cases E.tool p.path ttype with
    | none => exact h
    | some tool =>
      unfold LvmMarked at h ⊢
      dsimp only
      simp only [Bool.or_eq_true, beq_iff_eq, List.mem_append, List.mem_singleton, or_and_right,
        exists_or, exists_eq_left]
      exact or_congr_left h

/-- **All devices**, in both runs. -/
theorem beside_turns {E : Machine} {st st₀ : SaveState} {ps : List Part} (h : Beside st st₀)
    (hlvm : LvmMarked st) {t : (SaveState × Part) × (SaveState × Part)}
    (ht : t ∈ (E.turns st ps).zip (E.unexcluded.turns st₀ ps)) :
    Beside t.1.1 t.2.1 ∧ t.1.2 = t.2.2 ∧ LvmMarked t.1.1 := by
  induction ps generalizing st st₀ with
  | nil => cases ht
  | cons p ps ih =>
    obtain rfl | ht := List.mem_cons.mp ht
    · exact ⟨h, rfl, hlvm⟩
    · exact ih (h.step p) (hlvm.step p) ht

/-! ## Disk numbers -/

/-- The number of the last disk, and the number in force, with `k` devices still to come. -/
structure NumbersFit (k : ℕ) (st : SaveState) : Prop where
  found : st.disks ≠ [] → 128 ≤ st.dnum
  high : st.dnum - 128 < 65536
  last : -1 ≤ st.bios.lastnum
  room : st.bios.lastnum + k ≤ 65535
  few : k ≤ 65280

theorem gethdbios_spec (has : Bool) {b : Bios} (h : -1 ≤ b.lastnum) (sect : UInt32) :
    (gethdbios has b sect).1 = (gethdbios has b sect).2.lastnum + 128 ∧
      0 ≤ (gethdbios has b sect).2.lastnum ∧
      ((gethdbios has b sect).2.lastnum < 256 ∨
        (gethdbios has b sect).2.lastnum = b.lastnum + 1) := by
  unfold gethdbios
  split_ifs
  · exact ⟨rfl, by dsimp only; omega, .inr rfl⟩
  · cases hf : findhd b.hdmap sect with
    | some i =>
      have hi : i < 256 := List.mem_range.mp (List.mem_of_find?_eq_some hf)
      exact ⟨rfl, by dsimp only; omega, .inl (by dsimp only; omega)⟩
    | none => exact ⟨rfl, by dsimp only; omega, .inr rfl⟩

/-- A volume that the table has an entry for. -/
def Part.InTable (p : Part) : Prop := p.isdm = true → p.minor < 61568

theorem NumbersFit.look {k : ℕ} {st : SaveState} (h : NumbersFit k st) {p : Part} (hp : p.InTable) :
    NumbersFit k (st.look p) := by
  have hnum : (st.look p).dnum = st.numberFor p := rfl
  obtain ⟨h1, h2, h3, h4, h5⟩ := h
  refine ⟨fun hd => ?_, ?_, h3, h4, h5⟩
  · rw [hnum]
    unfold SaveState.numberFor
    split_ifs
    · omega
    · exact h1 hd
  · rw [hnum]
    unfold SaveState.numberFor
    split_ifs with hdm
    · have := hp hdm
      omega
    · exact h2

/-- **One device**. -/
theorem NumbersFit.step {E : Machine} {k : ℕ} {st : SaveState} (h : NumbersFit (k + 1) st) {p : Part}
    (hp : p.InTable) : NumbersFit k (st.step E p) := by
  have hlook : NumbersFit k (st.look p) := by
    obtain ⟨h1, h2, h3, h4, h5⟩ := h.look hp
    exact ⟨h1, h2, h3, by push_cast at h4; omega, by omega⟩
  rw [step_eq]
  cases E.fate st p with
  | skip => exact hlook
  | disk start =>
    obtain ⟨hnum, hpos, hlast⟩ := gethdbios_spec E.hdmap.isSome h.last (E.size p.path)
    have hroom := h.room
    have hfew := h.few
    have hbound : (gethdbios E.hdmap.isSome st.bios (E.size p.path)).2.lastnum + k ≤ 65535 := by
      push_cast at hroom
      omega
    constructor
    · intro _
      show 128 ≤ (gethdbios E.hdmap.isSome st.bios (E.size p.path)).1
      omega
    · show (gethdbios E.hdmap.isSome st.bios (E.size p.path)).1 - 128 < 65536
      omega
    · show -1 ≤ (gethdbios E.hdmap.isSome st.bios (E.size p.path)).2.lastnum
      omega
    · exact hbound
    · omega
  | copy tmin ttype =>
    dsimp only
    unfold SaveState.copy
    cases E.tool p.path ttype with
    | none => exact ⟨hlook.found, hlook.high, hlook.last, hlook.room, hlook.few⟩
    | some tool => exact ⟨hlook.found, hlook.high, hlook.last, hlook.room, hlook.few⟩

/-- **All devices**. -/
theorem numbersFit_turns {E : Machine} {st : SaveState} {ps : List Part} (h : NumbersFit ps.length st)
    (hps : ∀ p ∈ ps, p.InTable) {t : SaveState × Part} (ht : t ∈ E.turns st ps) :
    ∃ k, NumbersFit k t.1 := by
  induction ps generalizing st with
  | nil => cases ht
  | cons p ps ih =>
    obtain ⟨hp, hps⟩ := List.forall_mem_cons.mp hps
    obtain rfl | ht := List.mem_cons.mp ht
    · exact ⟨_, h⟩
    · exact ih (h.step hp) hps ht

/-! ## Runs -/

/-- What the file says of a device, which is met in one state, and in another one without the file. -/
structure ExclusionObeyed (E : Machine) (ls : List (ℕ × ℕ)) (st st₀ : SaveState) (p : Part) :
    Prop where
  inside : (p.isdm = false → st.disks ≠ []) → ∀ i, E.lookup st p = some i → 0 ≤ i ∧ i < 65536
  others : (∀ tmin ttype, E.unexcluded.fate st₀ p ≠ .copy tmin ttype) →
    E.fate st p = E.unexcluded.fate st₀ p
  copied : E.fate st p = .skip ∨ E.fate st p = E.unexcluded.fate st₀ p
  partition : p.isdm = false → st.disks ≠ [] → 1 ≤ p.kernelNumber → p.kernelNumber < 16 →
    ∀ tmin ttype, E.unexcluded.fate st₀ p = .copy tmin ttype → (E.fate st p = .skip ↔
      ∃ x ∈ ls, (x.1 : ℤ) = st.dnum - 128 ∧ (x.2 = 0 ∨ x.2 = p.kernelNumber))
  volume : p.isdm = true → ∀ tmin ttype, E.unexcluded.fate st₀ p = .copy tmin ttype →
    (E.fate st p = .skip ↔ ∀ im ∈ st.images, im.tool ≠ .lvm)

theorem poff_kernelNumber {p : Part} (hdm : p.isdm = false) (h : p.kernelNumber < 16) :
    p.poff = p.kernelNumber := by
  rw [poff_eq hdm]
  unfold Part.kernelNumber at h ⊢
  split_ifs at h ⊢ <;> omega

/-- **The list is obeyed** on the partitions whose number the code gets from the kernel's, for the 32
partitions of a disk that the table is made for. A volume is left out if everything that `image_lvm`
would have copied before it is, and no entry outside of the table is looked at once a disk was found. -/
theorem exclusion_obeyed {E : Machine} (mem : ℤ → ℕ) {ls : List (ℕ × ℕ)}
    (hls : ∀ x ∈ ls, x.1 < 256 ∧ x.2 ≤ 32) (hE : E.exclude = loadexcludemap mem (excludeText ls))
    (hparts : E.parts.length ≤ 65280) (hvol : ∀ p ∈ E.parts, p.InTable) (majorn : Bytes)
    (sizes : ℕ × ℕ → Option ℕ) :
    ∀ t ∈ (E.turns (E.init majorn sizes) E.parts).zip
        (E.unexcluded.turns (E.init majorn sizes) E.parts),
      ExclusionObeyed E ls t.1.1 t.2.1 t.1.2 := by
  rintro ⟨⟨st, p⟩, ⟨st₀, p₀⟩⟩ ht
  show ExclusionObeyed E ls st st₀ p
  have hinit : NumbersFit E.parts.length (E.init majorn sizes) := by
    refine ⟨fun h => absurd rfl h, ?_, ?_, ?_, hparts⟩
    · show (127 : ℤ) - 128 < 65536
      decide
    · show (-1 : ℤ) ≤ -1
      decide
    · show (-1 : ℤ) + E.parts.length ≤ 65535
      omega
  obtain ⟨hbeside, -, hlvm⟩ := beside_turns ⟨rfl, rfl, rfl, rfl, id⟩
    (iff_of_false Bool.false_ne_true fun ⟨_, hmem, _⟩ => List.not_mem_nil hmem) ht
  have hbeside : Beside st st₀ := hbeside
  have hlvm : LvmMarked st := hlvm
  have ht := (List.of_mem_zip ht).1
  obtain ⟨k, hfit⟩ : ∃ k, NumbersFit k st := numbersFit_turns hinit hvol ht
  have hp : p.InTable := hvol p (mem_turns ht)
  have hhigh : st.numberFor p - 128 < 65536 := (hfit.look hp).high
  have hbits : ∀ {i : ℤ} {b : ℕ}, 0 ≤ i ∧ i < 65536 → b < 32 → ((E.exclude i).testBit b = true ↔
      ∃ x ∈ ls, (x.1 : ℤ) = i ∧ (x.2 = 0 ∨ (x.2 - 1) % 32 = b)) := fun hi hb => by
    rw [hE]
    exact testBit_loadexcludemap mem (fun x hx => ⟨by have := (hls x hx).1; omega,
      by have := (hls x hx).2; omega⟩) hi hb
  constructor
  · intro hfound i hi
    rw [lookup_eq hi]
    refine ⟨?_, hhigh⟩
    unfold SaveState.numberFor
    split_ifs with hdm
    · omega
    · have := hfit.found (hfound (Bool.eq_false_iff.mpr hdm))
      omega
  · exact hbeside.fate_others p
  · by_cases hcopy : ∃ tmin ttype, E.unexcluded.fate st₀ p = .copy tmin ttype
    · obtain ⟨tmin, ttype, hcopy⟩ := hcopy
      rw [hbeside.fate_of_copy p hcopy, hcopy]
      exact ite_eq_or_eq _ _ _
    · exact .inr (hbeside.fate_others p fun tmin ttype hc => hcopy ⟨tmin, ttype, hc⟩)
  · intro hdm hfound h1 h16 tmin ttype hcopy
    have hnum : st.numberFor p = st.dnum := if_neg (by rw [hdm]; exact Bool.false_ne_true)
    have hlow := hfit.found hfound
    rw [hbeside.skip_iff p hcopy, hdm, Bool.false_and, Bool.false_or]
    unfold Machine.isexcluded
    rw [hnum, poff_kernelNumber hdm h16, hbits ⟨by omega, hnum ▸ hhigh⟩ (Nat.mod_lt _ (by decide))]
    refine exists_congr fun x => and_congr_right fun hx => and_congr_right fun _ => ?_
    have := (hls x hx).2
    omega
  · intro hdm tmin ttype hcopy
    have hnum : st.numberFor p = 0x1000 + p.minor := if_pos hdm
    have hno : E.isexcluded (st.numberFor p - 128) p.poff = false := by
      rw [← Bool.not_eq_true]
      unfold Machine.isexcluded
      rw [hbits ⟨by omega, hhigh⟩ (Nat.mod_lt _ (by decide))]
      -- the lines are about disks below 256
      rintro ⟨x, hx, hi, -⟩
      have := (hls x hx).1
      omega
    rw [hbeside.skip_iff p hcopy, hdm, hno, Bool.true_and, Bool.or_false, Bool.not_eq_true',
      ← Bool.not_eq_true]
    refine (not_congr hlvm).trans ?_
    simp only [not_exists, not_and]

/-- The first partition of the first disk is excluded. -/
def excludingMachine : Machine :=
  { lvmMachine (ascii "vg-root") with exclude := loadexcludemap (fun _ => 7) (excludeText [(0, 1)]) }

theorem exclusion_obeyed_excludingMachine : (∀ p ∈ excludingMachine.parts, p.InTable) ∧
    ∀ t ∈ (excludingMachine.turns (excludingMachine.init [] fun _ => none) excludingMachine.parts).zip
        (excludingMachine.unexcluded.turns (excludingMachine.init [] fun _ => none)
          excludingMachine.parts),
      ExclusionObeyed excludingMachine [(0, 1)] t.1.1 t.2.1 t.1.2 := by
  have hvol : ∀ p ∈ excludingMachine.parts, p.isdm = true → p.minor < 61568 := by decide +kernel
  exact ⟨hvol, exclusion_obeyed (fun _ => 7) (by decide) rfl (by decide +kernel) hvol [] fun _ => none⟩

/-- The fates of the devices of a run. -/
def Machine.fates (E : Machine) : List Fate :=
  (E.turns (E.init [] fun _ => none) E.parts).map fun t => E.fate t.1 t.2

/-- The entry of a volume is not one of the first 256, and the volume is left out with the partition
that it is on. -/
theorem volume_lookup :
    (excludingMachine.unexcluded.turns (excludingMachine.init [] fun _ => none)
        excludingMachine.parts).filterMap
          (fun t => excludingMachine.unexcluded.lookup t.1 t.2) = [0, 3968] ∧
      (¬ ∀ t ∈ excludingMachine.unexcluded.turns (excludingMachine.init [] fun _ => none)
        excludingMachine.parts, ∀ i ∈ excludingMachine.unexcluded.lookup t.1 t.2, i < 256) ∧
      excludingMachine.unexcluded.fates = [.disk 0, .copy 63 0x8e, .copy 0 0xFFFFFFFF] ∧
      excludingMachine.fates = [.disk 0, .skip, .skip] := by
  refine ⟨by decide +kernel, by decide +kernel, by decide +kernel, by decide +kernel⟩

end LinboxRescue
