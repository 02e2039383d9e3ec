import LinboxRescue.Save.Turns
import LinboxRescue.Image.Compress

/-!
# The names of the saved files

The files of a partition are named by a letter for its disk, its number and the number of the chunk,
those of a volume by the device mapper's minor.

1. `file_eq_iff`: when two devices get the same name.
2. `prefixesApart_iff`: when the images of a run have different names.
3. `namesApart_iff`: when their chunks have.
-/

namespace LinboxRescue

/-! ## Equal names -/

theorem poff_eq {p : Part} (h : p.isdm = false) : p.poff = p.minor % 16 := by
  rw [Part.poff, h, if_neg Bool.false_ne_true]
  exact Nat.and_two_pow_sub_one_eq_mod p.minor 4

theorem dnum2pre_lvm {a : ℤ} (h : 0xFFF ≤ a) : dnum2pre a = ascii "Lvm" ++ hex2 (a % 256).toNat :=
  if_pos h

/-- The letter of disk `a`, 0 standing for none. -/
def letter (a : ℤ) : UInt8 := UInt8.ofNat ((80 + (a - 128)) % 256).toNat

theorem toNat_letter (a : ℤ) : ((letter a).toNat : ℤ) = (a - 48) % 256 := by
  rw [letter, UInt8.toNat_ofNat']
  omega

theorem letter_eq_iff {a b : ℤ} : letter a = letter b ↔ a % 256 = b % 256 := by
  rw [← UInt8.toNat_inj]
  have ha := toNat_letter a
  have hb := toNat_letter b
  constructor <;> intro h <;> omega

theorem dnum2pre_letter {a : ℤ} (h : a < 0xFFF) :
    dnum2pre a = if letter a = 0 then [] else [letter a] := by
  rw [dnum2pre, if_neg (by omega)]
  show cstr [letter a] = _
  unfold cstr
  split_ifs with h0
  · rw [h0]; rfl
  · rw [List.takeWhile_cons_of_pos (by simpa using h0)]; rfl

theorem dec_of_teen {x : ℕ} (h10 : 10 ≤ x) (h : x < 20) : dec x = [49, digit (x - 10)] := by
  rw [dec_eq, if_neg (by omega), show x / 10 = 1 by omega, show x % 10 = x - 10 by omega]
  rfl

/-- A number below 16 starts with a byte that another such number follows. -/
theorem dec_eq_cons_dec {x y : ℕ} {c : UInt8} (hx : x < 16) (hy : y < 16) :
    dec x = c :: dec y ↔ c = 49 ∧ x = 10 + y := by
  constructor
  · intro h
    rcases Nat.lt_or_ge x 10 with hlt | hge
    · rw [dec_of_lt hlt] at h
      exact absurd (List.cons.inj h).2.symm (dec_ne_nil y)
    · rw [dec_of_teen hge (by omega)] at h
      obtain ⟨hc, hd⟩ := List.cons.inj h
      rw [← dec_of_lt (show x - 10 < 10 by omega)] at hd
      have := dec_injective hd
      exact ⟨hc.symm, by omega⟩
  · rintro ⟨rfl, rfl⟩
    rw [dec_of_teen (by omega) (by omega), Nat.add_sub_cancel_left, ← dec_of_lt (by omega)]

/-- A disk without letter and one whose letter is a digit. -/
def Shifted (a b : ℤ) (x y : ℕ) : Prop := a % 256 = 48 ∧ b % 256 = 97 ∧ x = 10 + y

/-- Partitions `x` and `y` of disks `a` and `b` get the same name: as a rule they have the same
number on disks whose numbers are equal modulo 256. -/
def SameName (a b : ℤ) (x y : ℕ) : Prop :=
  (x = y ∧ a % 256 = b % 256 ∧ (0xFFF ≤ a ↔ 0xFFF ≤ b)) ∨
  (a < 0xFFF ∧ b < 0xFFF ∧ (Shifted a b x y ∨ Shifted b a y x))

theorem letter_eq_zero {a : ℤ} : letter a = 0 ↔ a % 256 = 48 := by
  rw [← UInt8.toNat_inj]
  have ha := toNat_letter a
  show (letter a).toNat = 0 ↔ _
  constructor <;> intro h <;> omega

theorem letter_eq_one {a : ℤ} : letter a = 49 ↔ a % 256 = 97 := by
  rw [← UInt8.toNat_inj]
  have ha := toNat_letter a
  show (letter a).toNat = 49 ↔ _
  constructor <;> intro h <;> omega

theorem letters_eq_iff {a b : ℤ} {x y : ℕ} (ha : a < 0xFFF) (hb : b < 0xFFF) (hx : x < 16)
    (hy : y < 16) : dnum2pre a ++ dec x = dnum2pre b ++ dec y ↔ SameName a b x y := by
  have hcross : SameName a b x y ↔ (x = y ∧ letter a = letter b) ∨
      (letter a = 0 ∧ letter b = 49 ∧ x = 10 + y) ∨ (letter b = 0 ∧ letter a = 49 ∧ y = 10 + x) := by
    rw [SameName, Shifted, Shifted, letter_eq_iff, letter_eq_zero, letter_eq_zero, letter_eq_one,
      letter_eq_one]
    constructor <;> intro h <;> omega
  rw [hcross, dnum2pre_letter ha, dnum2pre_letter hb]
  split_ifs with h0 h1 h1
  · rw [List.nil_append, List.nil_append, h0, h1]
    constructor
    · intro h
      exact .inl ⟨dec_injective h, rfl⟩
    · rintro (⟨rfl, -⟩ | ⟨-, h, -⟩ | ⟨-, h, -⟩)
      · rfl
      · exact absurd h (by decide)
      · exact absurd h (by decide)
  · rw [List.nil_append, List.singleton_append, dec_eq_cons_dec hx hy, h0]
    constructor
    · intro h
      exact .inr (.inl ⟨rfl, h⟩)
    · rintro (⟨-, h⟩ | ⟨-, h⟩ | ⟨h, -⟩)
      · exact absurd h.symm h1
      · exact h
      · exact absurd h h1
  · rw [List.nil_append, List.singleton_append, eq_comm, dec_eq_cons_dec hy hx, h1]
    constructor
    · intro h
      exact .inr (.inr ⟨rfl, h⟩)
    · rintro (⟨-, h⟩ | ⟨h, -⟩ | ⟨-, h⟩)
      · exact absurd h h0
      · exact absurd h h0
      · exact h
  · rw [List.singleton_append, List.singleton_append, List.cons.injEq]
    constructor
    · rintro ⟨hl, hd⟩
      exact .inl ⟨dec_injective hd, hl⟩
    · rintro (⟨rfl, h⟩ | ⟨h, -⟩ | ⟨h, -⟩)
      · exact ⟨h, rfl⟩
      · exact absurd h h0
      · exact absurd h h1

theorem lvm_ne_letter {a b : ℤ} (ha : 0xFFF ≤ a) (hb : b < 0xFFF) (r : Bytes) (y : ℕ) :
    dnum2pre a ++ r ≠ dnum2pre b ++ dec y := by
  rw [dnum2pre_lvm ha, dnum2pre_letter hb]
  intro h
  split_ifs at h
  · have hmem : (76 : UInt8) ∈ dec y := by rw [← List.nil_append (dec y), ← h]; simp [ascii]
    exact absurd (isDigit_of_mem_dec _ hmem) (by decide)
  · have hmem : (118 : UInt8) ∈ dec y := by
      rw [show dec y = _ from (List.cons.inj h).2.symm]
      exact List.mem_cons_self
    exact absurd (isDigit_of_mem_dec _ hmem) (by decide)

theorem lvm_inj {a b : ℤ} (ha : 0xFFF ≤ a) (hb : 0xFFF ≤ b) {r r' : Bytes} :
    dnum2pre a ++ r = dnum2pre b ++ r' ↔ a % 256 = b % 256 ∧ r = r' := by
  rw [dnum2pre_lvm ha, dnum2pre_lvm hb]
  constructor
  · intro h
    obtain ⟨hp, hr⟩ := List.append_inj h rfl
    have := hex2_injective (by omega) (by omega) (List.append_cancel_left hp)
    exact ⟨by omega, hr⟩
  · rintro ⟨h, rfl⟩
    rw [h]

theorem partition_eq_iff {a b : ℤ} {x y : ℕ} (hx : x < 16) (hy : y < 16) :
    dnum2pre a ++ dec x = dnum2pre b ++ dec y ↔ SameName a b x y := by
  rcases lt_or_ge a 0xFFF with ha | ha <;> rcases lt_or_ge b 0xFFF with hb | hb
  · exact letters_eq_iff ha hb hx hy
  · refine ⟨fun h => absurd h.symm (lvm_ne_letter hb ha _ _), ?_⟩
    rintro (⟨-, -, h⟩ | ⟨-, h, -⟩) <;> omega
  · refine ⟨fun h => absurd h (lvm_ne_letter ha hb _ _), ?_⟩
    rintro (⟨-, -, h⟩ | ⟨h, -⟩) <;> omega
  · rw [lvm_inj ha hb]
    constructor
    · rintro ⟨h, hd⟩
      exact .inl ⟨dec_injective hd, h, by omega⟩
    · rintro (⟨rfl, h, -⟩ | ⟨h, -⟩)
      · exact ⟨h, rfl⟩
      · omega

/-- Two devices on disks `a` and `b` get the same name: partitions as `SameName` says, volumes when
their minors are equal modulo 256. -/
def Clash (a b : ℤ) (p q : Part) : Prop :=
  (p.isdm = true ∧ q.isdm = true ∧ p.minor % 256 = q.minor % 256) ∨
  (p.isdm = false ∧ q.isdm = false ∧ SameName a b (p.minor % 16) (q.minor % 16))

theorem file_volume {p : Part} (h : p.isdm = true) (st : SaveState) :
    p.file (st.numberFor p) = dnum2pre (0x1000 + p.minor) := by
  rw [Part.file, if_pos h, SaveState.numberFor, if_pos h]

theorem file_partition {p : Part} (h : p.isdm = false) (st : SaveState) :
    p.file (st.numberFor p) = dnum2pre st.dnum ++ dec (p.minor % 16) := by
  have h' : ¬p.isdm = true := by rw [h]; exact Bool.false_ne_true
  rw [Part.file, if_neg h', SaveState.numberFor, if_neg h', poff_eq h]

theorem volume_ne_partition (a b : ℤ) (ha : 0xFFF ≤ a) (y : ℕ) : dnum2pre a ≠ dnum2pre b ++ dec y := by
  intro h
  rcases lt_or_ge b 0xFFF with hb | hb
  · exact lvm_ne_letter ha hb [] y (by rw [List.append_nil]; exact h)
  · rw [← List.append_nil (dnum2pre a), lvm_inj ha hb] at h
    exact dec_ne_nil y h.2.symm

theorem file_eq_iff (st st' : SaveState) (p q : Part) :
    p.file (st.numberFor p) = q.file (st'.numberFor q) ↔ Clash st.dnum st'.dnum p q := by
  cases hp : p.isdm <;> cases hq : q.isdm
  · rw [file_partition hp, file_partition hq, partition_eq_iff (by omega) (by omega)]
    simp [Clash, hp, hq]
  · rw [file_partition hp, file_volume hq]
    refine ⟨fun h => absurd h.symm (volume_ne_partition _ _ (by omega) _), ?_⟩
    simp [Clash, hp, hq]
  · rw [file_volume hp, file_partition hq]
    refine ⟨fun h => absurd h (volume_ne_partition _ _ (by omega) _), ?_⟩
    simp [Clash, hp, hq]
  · rw [file_volume hp, file_volume hq, ← List.append_nil (dnum2pre _),
      ← List.append_nil (dnum2pre (_ + (q.minor : ℤ))), lvm_inj (by omega) (by omega)]
    simp only [Clash, hp, hq, Bool.true_eq_false, false_and, or_false, true_and, and_true]
    omega

/-! ## The images of a run -/

/-- A device is backed up. -/
def Machine.backsUp (E : Machine) (st : SaveState) (p : Part) : Prop := (E.image st p).isSome = true

theorem image_of_mem {E : Machine} {st : SaveState} {p : Part} {im : Image} (h : im ∈ E.image st p) :
    im.device = p.path ∧ im.file = p.file (st.numberFor p) := by
  unfold Machine.image at h
  split at h
  · simp only [Option.mem_def, Option.map_eq_some_iff] at h
    obtain ⟨tool, -, rfl⟩ := h
    exact ⟨rfl, rfl⟩
  · cases h

/-- A relation between the images of a run, in terms of its turns. -/
theorem pairwise_images (E : Machine) (R : Bytes → Bytes → Bytes → Bytes → Prop) (st : SaveState)
    (ps : List Part) :
    ((E.turns st ps).filterMap fun t => E.image t.1 t.2).Pairwise
      (fun a b => R a.device a.file b.device b.file) ↔
    (E.turns st ps).Pairwise fun t u => E.backsUp t.1 t.2 → E.backsUp u.1 u.2 →
      R t.2.path (t.2.file (t.1.numberFor t.2)) u.2.path (u.2.file (u.1.numberFor u.2)) := by
  rw [List.pairwise_filterMap]
  refine List.Pairwise.iff fun t u => ⟨fun h ht hu => ?_, fun h a ha b hb => ?_⟩
  · obtain ⟨a, ha⟩ := Option.isSome_iff_exists.mp ht
    obtain ⟨b, hb⟩ := Option.isSome_iff_exists.mp hu
    have := h a ha b hb
    rwa [(image_of_mem ha).1, (image_of_mem ha).2, (image_of_mem hb).1, (image_of_mem hb).2] at this
  · rw [(image_of_mem ha).1, (image_of_mem ha).2, (image_of_mem hb).1, (image_of_mem hb).2]
    exact h (Option.isSome_iff_exists.mpr ⟨a, ha⟩) (Option.isSome_iff_exists.mpr ⟨b, hb⟩)

section Run

variable (E : Machine) (majorn : Bytes) (sizes : ℕ × ℕ → Option ℕ)

theorem save_images : (save E majorn sizes).images =
    (E.turns (E.init majorn sizes) E.parts).filterMap fun t => E.image t.1 t.2 :=
  run_images E _ _

/-- The images of different devices have different names. -/
def PrefixesApart : Prop :=
  (save E majorn sizes).images.Pairwise fun a b => a.device ≠ b.device → a.file ≠ b.file

/-- **Different names for different devices**: exactly when no two of the devices that are backed up
clash, by the disk numbers in force when they are met and their minors. -/
theorem prefixesApart_iff : PrefixesApart E majorn sizes ↔
    (E.turns (E.init majorn sizes) E.parts).Pairwise fun t u =>
      E.backsUp t.1 t.2 → E.backsUp u.1 u.2 → t.2.path ≠ u.2.path →
        ¬ Clash t.1.dnum u.1.dnum t.2 u.2 := by
  rw [PrefixesApart, save_images, pairwise_images E fun d f d' f' => d ≠ d' → f ≠ f']
  simp only [ne_eq, file_eq_iff]

/-! ## The chunks of a run -/

/-- The names of `m` chunks under `f` and `n` chunks under `g` can be told apart. -/
structure Separate (f : Bytes) (m : ℕ) (g : Bytes) (n : ℕ) : Prop where
  ne : f ≠ g
  left : ∀ w, 0 < w → g = f ++ dec w → m ≤ 1000 * w
  right : ∀ w, 0 < w → f = g ++ dec w → n ≤ 1000 * w

theorem chunkName_ne_of_longer {f g r : Bytes} {m i j : ℕ} (hne : f ≠ g) (hg : g = f ++ r) (hi : i < m)
    (h : ∀ w, 0 < w → g = f ++ dec w → m ≤ 1000 * w) : pad3 i ≠ r ++ pad3 j := by
  intro heq
  have hr : r ≠ [] := by
    rintro rfl
    exact hne (by rw [hg, List.append_nil])
  obtain ⟨w, hw, rfl, rfl⟩ := (pad3_eq_append_pad3 hr).mp heq
  have hpow : 10 ^ 3 ≤ 10 ^ (pad3 j).length := Nat.pow_le_pow_right (by decide) (three_le_length_pad3 j)
  have := h w hw hg
  have := Nat.mul_le_mul_left w hpow
  omega

/-- Chunk 0 of the longer name is chunk `1000 * w` of the shorter one. -/
theorem chunkName_longer (f : Bytes) {w : ℕ} (hw : 0 < w) :
    chunkName f (1000 * w) = chunkName (f ++ dec w) 0 := by
  have h := pad3_append hw 0
  rw [show (pad3 0).length = 3 from rfl] at h
  rw [chunkName, chunkName, List.append_assoc, ← h]
  congr 2
  omega

theorem chunkNames_apart_iff {f g : Bytes} {m n : ℕ} (hm : 0 < m) (hn : 0 < n) :
    (∀ i < m, ∀ j < n, chunkName f i ≠ chunkName g j) ↔ Separate f m g n := by
  constructor
  · intro h
    refine ⟨?_, fun w hw hg => ?_, fun w hw hf => ?_⟩
    · rintro rfl
      exact h 0 hm 0 hn rfl
    · by_contra hlt
      exact h _ (Nat.lt_of_not_le hlt) 0 hn (by rw [hg]; exact chunkName_longer f hw)
    · by_contra hlt
      exact h 0 hm _ (Nat.lt_of_not_le hlt) (by rw [hf]; exact (chunkName_longer g hw).symm)
  · rintro ⟨hne, hl, hr⟩ i hi j hj heq
    rcases List.append_eq_append_iff.mp heq with ⟨r, hg, hi'⟩ | ⟨r, hf, hj'⟩
    · exact chunkName_ne_of_longer hne hg hi hl hi'
    · exact chunkName_ne_of_longer hne.symm hf hj hr hj'

/-- The chunks written for the devices, `chunks` giving their numbers, all have different names. -/
structure NamesApart (chunks : Bytes → ℕ) : Prop where
  devices : (save E majorn sizes).images.Pairwise fun a b => a.device ≠ b.device →
    ∀ i < chunks a.device, ∀ j < chunks b.device, chunkName a.file i ≠ chunkName b.file j
  chunks : ∀ a ∈ (save E majorn sizes).images, ∀ i < chunks a.device, ∀ j < chunks a.device, i ≠ j →
    chunkName a.file i ≠ chunkName a.file j

/-- **Different names for different chunks**: exactly when the names of any two devices with chunks
are different, and where one name is the other one with the digits of a number `w` added, the
device with the shorter name has at most `1000 * w` chunks. -/
theorem namesApart_iff (chunks : Bytes → ℕ) : NamesApart E majorn sizes chunks ↔
    (E.turns (E.init majorn sizes) E.parts).Pairwise fun t u =>
      E.backsUp t.1 t.2 → E.backsUp u.1 u.2 → t.2.path ≠ u.2.path →
        0 < chunks t.2.path → 0 < chunks u.2.path →
          Separate (t.2.file (t.1.numberFor t.2)) (chunks t.2.path)
            (u.2.file (u.1.numberFor u.2)) (chunks u.2.path) := by
  rw [← pairwise_images E fun d f d' f' => d ≠ d' → 0 < chunks d → 0 < chunks d' →
    Separate f (chunks d) f' (chunks d'), ← save_images]
  constructor
  · rintro ⟨h, -⟩
    exact h.imp fun hab hd hm hn => (chunkNames_apart_iff hm hn).mp (hab hd)
  · intro h
    refine ⟨h.imp fun hab hd i hi j hj => ?_, fun a _ i _ j _ hij heq =>
      hij (chunkName_injective a.file heq)⟩
    exact (chunkNames_apart_iff (by omega) (by omega)).mpr (hab hd (by omega) (by omega)) i hi j hj

end Run

/-! ## Two machines -/

/-- A machine on which every device opens, starts at sector 63 unless it is `disk`, has a thousand
sectors and an ext2 file system. -/
def plainMachine (disk proc : Bytes) : Machine where
  proc
  mapper := []
  opens _ := true
  geo d := some (if d = ascii "/dev/" ++ disk then 0 else 63)
  size _ := 1000
  sfdisk _ _ := 0x83
  accepts t _ := t == .e2fs
  hdmap := none
  exclude _ := 0
  revoraw := false

/-- The first and the seventeenth partition of an IDE disk. -/
def ideMachine : Machine :=
  plainMachine (ascii "hda")
    (ascii "   3     0        500 hda\n   3     1        500 hda1\n   3    17        500 hda17\n")

theorem not_prefixesApart_ide : ¬ PrefixesApart ideMachine [] fun _ => none := by
  unfold PrefixesApart
  decide

/-- The first and the eleventh partition of a SCSI disk. -/
def scsiMachine : Machine :=
  plainMachine (ascii "sda")
    (ascii "   8     0        500 sda\n   8     1        500 sda1\n   8    11        500 sda11\n")

theorem not_namesApart_scsi : ¬ NamesApart scsiMachine [] (fun _ => none)
    fun d => if d = ascii "/dev/sda1" then 1001 else 1 := by
  rintro ⟨h, -⟩
  have himages : (save scsiMachine [] fun _ => none).images =
      [⟨.e2fs, ascii "/dev/sda1", ascii "P1"⟩, ⟨.e2fs, ascii "/dev/sda11", ascii "P11"⟩] := rfl
  rw [himages, List.pairwise_pair] at h
  exact h (by decide) 1000 (by decide) 0 (by decide) (by decide)

end LinboxRescue
