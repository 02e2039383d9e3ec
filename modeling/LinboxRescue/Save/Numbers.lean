import LinboxRescue.Save.HdMap

/-!
# Different numbers for different disks

`gethdbios` gives a disk listed in `hdmap` the index of its entry, and any other disk the number after
the last one given, which may belong to another disk. So the numbers come in runs: a listed disk and
the unlisted disks up to the next listed one.

1. `biosNumbers_runs`: the numbers are those of the runs, one run after the other.
2. `numbersDiffer_iff`: they are different exactly when no two runs overlap.
-/

namespace LinboxRescue

/-! ## Runs of numbers -/

/-- Two runs, each given by its first number and its length, have no number in common. -/
def RunsApart (r r' : ℕ × ℕ) : Prop :=
  r.1 + r.2 ≤ r'.1 ∨ r'.1 + r'.2 ≤ r.1 ∨ r.2 = 0 ∨ r'.2 = 0

instance : DecidableRel RunsApart := fun _ _ => by unfold RunsApart; infer_instance

/-- The numbers of a run. -/
def runNumbers (r : ℕ × ℕ) : List ℕ := List.range' r.1 r.2

theorem disjoint_runNumbers {r r' : ℕ × ℕ} :
    (runNumbers r).Disjoint (runNumbers r') ↔ RunsApart r r' := by
  obtain ⟨a, m⟩ := r
  obtain ⟨b, n⟩ := r'
  unfold RunsApart runNumbers List.Disjoint
  simp only [List.mem_range'_1]
  constructor
  · intro h
    by_contra hne
    -- the larger one of the first numbers would be in both
    exact @h (max a b) (by omega) (by omega)
  · intro h x
    omega

theorem nodup_runNumbers_iff {rs : List (ℕ × ℕ)} :
    (rs.flatMap runNumbers).Nodup ↔ rs.Pairwise RunsApart := by
  rw [List.nodup_flatMap]
  constructor
  · rintro ⟨-, h⟩
    exact h.imp disjoint_runNumbers.mp
  · intro h
    exact ⟨fun r _ => List.nodup_range', h.imp disjoint_runNumbers.mpr⟩

/-! ## The numbers of a run of `save` -/

/-- The numbers that `gethdbios` gives to disks of the given sizes, called for one after the other. -/
def biosNumbers (hasHdmap : Bool) : Bios → List UInt32 → List ℤ
  | _, [] => []
  | b, s :: ss => (gethdbios hasHdmap b s).1 :: biosNumbers hasHdmap (gethdbios hasHdmap b s).2 ss

/-- The runs for disks of the given sizes, when the last run starts at `a` and has `c` numbers. -/
def diskRuns : (ℕ → UInt32) → ℕ → ℕ → List UInt32 → List (ℕ × ℕ)
  | _, a, c, [] => [(a, c)]
  | hdmap, a, c, s :: ss =>
    match findhd hdmap s with
    | some i => (a, c) :: diskRuns (strike hdmap s) i 1 ss
    | none => diskRuns (strike hdmap s) a (c + 1) ss

/-- The BIOS number of disk `n`. -/
def biosNumber (n : ℕ) : ℤ := n + 128

theorem biosNumber_injective : Function.Injective biosNumber := fun m n h => by
  unfold biosNumber at h
  omega

/-- The state of `gethdbios` when the last run starts at `a` and has `c` numbers. -/
def Bios.within (hdmap : ℕ → UInt32) (a c : ℕ) : Bios := ⟨a + c - 1, hdmap⟩

theorem gethdbios_some {hdmap : ℕ → UInt32} {a c i : ℕ} {s : UInt32} (h : findhd hdmap s = some i) :
    gethdbios true (Bios.within hdmap a c) s = (biosNumber i, Bios.within (strike hdmap s) i 1) := by
  unfold Bios.within strike gethdbios
  simp [h, biosNumber]

theorem gethdbios_none {hdmap : ℕ → UInt32} {a c : ℕ} {s : UInt32} (h : findhd hdmap s = none) :
    gethdbios true (Bios.within hdmap a c) s =
      (biosNumber (a + c), Bios.within (strike hdmap s) a (c + 1)) := by
  unfold Bios.within strike gethdbios
  simp only [h, biosNumber, Bool.not_true, Bool.false_eq_true, if_false]
  congr 1
  · push_cast; ring
  · congr 1; push_cast; ring

/-- The numbers are those of the runs. -/
theorem biosNumbers_runs (ss : List UInt32) : ∀ (hdmap : ℕ → UInt32) (a c : ℕ),
    (runNumbers (a, c)).map biosNumber ++ biosNumbers true (Bios.within hdmap a c) ss =
      ((diskRuns hdmap a c ss).flatMap runNumbers).map biosNumber := by
  induction ss with
  | nil =>
    intro hdmap a c
    rw [diskRuns, List.flatMap_singleton, biosNumbers, List.append_nil]
  | cons s ss ih =>
    intro hdmap a c
    rw [biosNumbers, diskRuns]
    cases h : findhd hdmap s with
    | some i =>
      have hi := ih (strike hdmap s) i 1
      rw [gethdbios_some h, List.flatMap_cons, List.map_append, ← hi]
      rfl
    | none =>
      have hnext : runNumbers (a, c + 1) = runNumbers (a, c) ++ [a + c] := by
        unfold runNumbers
        rw [List.range'_concat, Nat.one_mul]
      rw [gethdbios_none h, ← ih, hnext, List.map_append, List.append_assoc]
      rfl

/-- Without `hdmap` the disks are counted. -/
theorem biosNumbers_counted (ss : List UInt32) : ∀ (hdmap : ℕ → UInt32) (c : ℕ),
    biosNumbers false (Bios.within hdmap 0 c) ss = (runNumbers (c, ss.length)).map biosNumber := by
  induction ss with
  | nil => exact fun _ _ => rfl
  | cons s ss ih =>
    intro hdmap c
    have hstep : gethdbios false (Bios.within hdmap 0 c) s =
        (biosNumber c, Bios.within hdmap 0 (c + 1)) := by
      rw [gethdbios_of_none]
      unfold Bios.within biosNumber
      congr 1
      · push_cast; ring
      · congr 1; push_cast; ring
    rw [biosNumbers, hstep, ih]
    rfl

/-! ## Different numbers -/

/-- The numbers that one run of `save` gives are pairwise different. -/
def NumbersDiffer (hdmap : Option (List (ℕ × UInt32))) (sizes : List UInt32) : Prop :=
  (biosNumbers hdmap.isSome ⟨-1, loadhdmap (hdmap.getD [])⟩ sizes).Nodup

/-- **The numbers are different** exactly when there is no file `hdmap` or no two runs overlap. -/
theorem numbersDiffer_iff (hdmap : Option (List (ℕ × UInt32))) (sizes : List UInt32) :
    NumbersDiffer hdmap sizes ↔
      ∀ file ∈ hdmap, (diskRuns (loadhdmap file) 0 0 sizes).Pairwise RunsApart := by
  unfold NumbersDiffer
  cases hdmap with
  | none =>
    have hstart := biosNumbers_counted sizes (loadhdmap []) 0
    refine ⟨fun _ file h => (Option.not_mem_none file h).elim, fun _ => ?_⟩
    show (biosNumbers false (Bios.within (loadhdmap []) 0 0) sizes).Nodup
    rw [hstart]
    exact List.Nodup.map biosNumber_injective List.nodup_range'
  | some file =>
    have hstart := biosNumbers_runs sizes (loadhdmap file) 0 0
    have hall : (∀ f ∈ some file, (diskRuns (loadhdmap f) 0 0 sizes).Pairwise RunsApart) ↔
        (diskRuns (loadhdmap file) 0 0 sizes).Pairwise RunsApart :=
      ⟨fun h => h file rfl, fun h f hf => by cases hf; exact h⟩
    rw [hall, ← nodup_runNumbers_iff, ← List.nodup_map_iff biosNumber_injective, ← hstart]
    rfl

/-- The third disk is not listed and comes after the one with number 0. -/
theorem not_numbersDiffer_third : ¬ NumbersDiffer (some [(0, 50), (1, 100)]) [100, 50, 70] := by
  unfold NumbersDiffer
  decide

end LinboxRescue
