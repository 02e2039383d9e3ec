import LinboxRescue.Lib.Bytes

/-!
# Byte streams that arrive in pieces

A stream is the list of the pieces in which it arrives. `readSome n` is one `read()`: it returns at
most `n` bytes and never goes past the end of a piece, so that the pieces are all the ways in which a
stream can be cut into the results of reads. Without a piece it blocks.

`ReadsWhole fields chunks` says that reads of the sizes of the fields return the fields, and
`readsWhole_iff` that this is so exactly when every piece is made of whole fields.

Numbers are in the order of the machine, the lowest byte first (`leBytes`, `leVal`).
-/

namespace LinboxRescue

/-- One `read()`. -/
def readSome (n : ℕ) : List Bytes → Option (Bytes × List Bytes)
  | [] => none
  | c :: cs => some (c.take n, if c.length ≤ n then cs else c.drop n :: cs)

/-- Every piece is made of whole fields. -/
def Uncut (fields chunks : List Bytes) : Prop :=
  ∃ groups : List (List Bytes), groups.flatten = fields ∧ chunks = groups.map List.flatten

/-- Reads of the sizes of the fields return the fields, and nothing is left. -/
def ReadsWhole : List Bytes → List Bytes → Prop
  | [], chunks => chunks = []
  | f :: fs, chunks => ∃ chunks', readSome f.length chunks = some (f, chunks') ∧ ReadsWhole fs chunks'

theorem readSome_append {f c : Bytes} (cs : List Bytes) :
    readSome f.length ((f ++ c) :: cs) = some (f, if c = [] then cs else c :: cs) := by
  rw [readSome, List.take_left, List.drop_left]
  by_cases hc : c = []
  · simp [hc]
  · have := List.length_pos_iff.mpr hc
    rw [if_neg (by rw [List.length_append]; omega), if_neg hc]

/-- What a read returns of a stream that starts with a field. -/
theorem readSome_inv {n : ℕ} {f rest got : Bytes} {chunks cs : List Bytes} (hn : f.length = n)
    (hpos : 0 < n) (hne : ∀ c ∈ chunks, c ≠ []) (hflat : chunks.flatten = f ++ rest)
    (h : readSome n chunks = some (got, cs)) :
    got ≠ [] ∧ got <+: f ∧ got ++ cs.flatten = f ++ rest ∧ ∀ c ∈ cs, c ≠ [] := by
  cases chunks with
  | nil => cases h
  | cons c ch =>
    obtain ⟨hc, hch⟩ := List.forall_mem_cons.mp hne
    obtain ⟨rfl, rfl⟩ := Prod.mk.inj (Option.some.inj h)
    rw [List.flatten_cons] at hflat
    have hsplit : c.take n ++ (if c.length ≤ n then ch else c.drop n :: ch).flatten = f ++ rest := by
      rw [← hflat]
      split_ifs with hle
      · rw [List.take_of_length_le hle]
      · rw [List.flatten_cons, ← List.append_assoc, List.take_append_drop]
    refine ⟨?_, ?_, hsplit, ?_⟩
    · have := List.length_pos_iff.mpr hc
      rw [ne_eq, List.take_eq_nil_iff, not_or]
      exact ⟨by omega, hc⟩
    · refine List.prefix_of_prefix_length_le (List.prefix_append _ _) (hsplit ▸ List.prefix_append f rest) ?_
      rw [List.length_take, hn]
      exact Nat.min_le_left _ _
    · split_ifs with hle
      · exact hch
      · refine List.forall_mem_cons.mpr ⟨?_, hch⟩
        rw [ne_eq, List.drop_eq_nil_iff]
        omega

/-- Groups whose texts are not empty and have no fields are none. -/
theorem groups_eq_nil {gs : List (List Bytes)} (h : gs.flatten = [])
    (hne : ∀ c ∈ gs.map List.flatten, c ≠ []) : gs = [] := by
  cases gs with
  | nil => rfl
  | cons g gs =>
    rw [List.flatten_cons, List.append_eq_nil_iff] at h
    refine absurd ?_ (hne g.flatten (by simp))
    rw [h.1]
    rfl

/-- A field that was read whole belongs to the piece it was read from. -/
theorem Uncut.cons {f : Bytes} {fs chunks chunks' : List Bytes}
    (h : readSome f.length chunks = some (f, chunks')) (hu : Uncut fs chunks') : Uncut (f :: fs) chunks := by
  obtain ⟨gs, rfl, rfl⟩ := hu
  cases chunks with
  | nil => cases h
  | cons c cs =>
    obtain ⟨htake, hrest⟩ := Prod.mk.inj (Option.some.inj h)
    obtain ⟨c', rfl⟩ : ∃ c', c = f ++ c' :=
      ⟨c.drop f.length, by conv_lhs => rw [← List.take_append_drop f.length c, htake]⟩
    rw [List.drop_left] at hrest
    by_cases hc : c' = []
    · rw [if_pos (by simp [hc])] at hrest
      exact ⟨[f] :: gs, by simp, by simp [hc, hrest]⟩
    · have := List.length_pos_iff.mpr hc
      rw [if_neg (by rw [List.length_append]; omega)] at hrest
      cases gs with
      | nil => cases hrest
      | cons g gs =>
        obtain ⟨rfl, rfl⟩ := List.cons.inj hrest
        exact ⟨(f :: g) :: gs, by simp, by simp⟩

/-- **Reads return whole fields exactly when no field is cut.** -/
theorem readsWhole_iff {fields : List Bytes} (hf : ∀ f ∈ fields, f ≠ []) : ∀ {chunks : List Bytes},
    (∀ c ∈ chunks, c ≠ []) → (ReadsWhole fields chunks ↔ Uncut fields chunks) := by
  induction fields with
  | nil =>
    intro chunks hc
    constructor
    · intro h
      exact ⟨[], rfl, h⟩
    · rintro ⟨gs, hgs, rfl⟩
      rw [groups_eq_nil hgs hc]
      rfl
  | cons f fs ih =>
    intro chunks hc
    obtain ⟨hf1, hfs⟩ := List.forall_mem_cons.mp hf
    constructor
    · rintro ⟨chunks', hread, hw⟩
      have hc' : ∀ c ∈ chunks', c ≠ [] := by
        cases chunks with
        | nil => cases hread
        | cons c cs =>
          have hlen := List.length_pos_iff.mpr hf1
          have := (Prod.mk.inj (Option.some.inj hread)).1
          have hflat : (c :: cs).flatten = f ++ (c.drop f.length ++ cs.flatten) := by
            rw [List.flatten_cons, ← List.append_assoc]
            congr 1
            conv_lhs => rw [← List.take_append_drop f.length c, this]
          exact (readSome_inv rfl hlen hc hflat hread).2.2.2
      exact Uncut.cons hread ((ih hfs hc').mp hw)
    · rintro ⟨gs, hgs, rfl⟩
      cases gs with
      | nil => cases hgs
      | cons g gs =>
        cases g with
        | nil => exact absurd rfl (hc [] (by simp))
        | cons f' g =>
          rw [List.flatten_cons, List.cons_append] at hgs
          obtain ⟨rfl, rfl⟩ := List.cons.inj hgs
          rw [List.map_cons, List.forall_mem_cons] at hc
          refine ⟨_, readSome_append _, ?_⟩
          split_ifs with hg
          · have : g = [] := by
              cases g with
              | nil => rfl
              | cons x g =>
                rw [List.flatten_cons, List.append_eq_nil_iff] at hg
                exact absurd hg.1 (hfs x (by simp))
            subst this
            exact (ih hfs hc.2).mpr ⟨gs, by simp, rfl⟩
          · exact (ih hfs (List.forall_mem_cons.mpr ⟨hg, hc.2⟩)).mpr ⟨g :: gs, by simp, by simp⟩

/-! ## Numbers -/

/-- The `w` bytes of a number, the lowest one first. -/
def leBytes : ℕ → ℕ → Bytes
  | 0, _ => []
  | w + 1, n => UInt8.ofNat (n % 256) :: leBytes w (n / 256)

def leVal : Bytes → ℕ
  | [] => 0
  | b :: t => b.toNat + 256 * leVal t

@[simp] theorem length_leBytes (w n : ℕ) : (leBytes w n).length = w := by
  induction w generalizing n with
  | zero => rfl
  | succ w ih => rw [leBytes, List.length_cons, ih]

theorem leVal_leBytes {w n : ℕ} (h : n < 256 ^ w) : leVal (leBytes w n) = n := by
  induction w generalizing n with
  | zero =>
    have : n = 0 := by simpa using h
    rw [this]
    rfl
  | succ w ih =>
    have h1 : n / 256 < 256 ^ w := by
      rw [Nat.div_lt_iff_lt_mul (by omega)]
      rwa [pow_succ] at h
    have h2 : (UInt8.ofNat (n % 256)).toNat = n % 256 := by simp
    rw [leBytes, leVal, ih h1, h2]
    omega

theorem leVal_lt (bs : Bytes) : leVal bs < 256 ^ bs.length := by
  induction bs with
  | nil => exact Nat.one_pos
  | cons b bs ih =>
    have := b.toNat_lt
    rw [leVal, List.length_cons, pow_succ]
    omega

theorem leVal_append (s t : Bytes) : leVal (s ++ t) = leVal s + 256 ^ s.length * leVal t := by
  induction s with
  | nil => simp [leVal]
  | cons b s ih =>
    rw [List.cons_append, leVal, leVal, ih, List.length_cons, pow_succ]
    ring

end LinboxRescue
