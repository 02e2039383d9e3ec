import Mathlib.Tactic

/-!
# Byte strings and memory areas

C text and C memory are both `Bytes`. A memory area is written with `overwrite`, which keeps what
lies around the written range; a C string is the part of an area before its first NUL.
-/

namespace LinboxRescue

abbrev Bytes := List UInt8

/-- What holds of all bytes of a string is decided along the string, not over all bytes. -/
instance (priority := high) decidableAllBytes {p : UInt8 → Prop} [DecidablePred p] (bs : Bytes) :
    Decidable (∀ b ∈ bs, p b) :=
  List.decidableBAll p bs

instance (priority := high) decidableAllByte {p : UInt8 → Prop} [DecidablePred p] (o : Option UInt8) :
    Decidable (∀ b ∈ o, p b) :=
  Option.decidableForallMem o

/-- The bytes of an ASCII literal. -/
def ascii (s : String) : Bytes := s.toList.map fun c => UInt8.ofNat c.toNat

/-! ## Memory areas -/

/-- The area `mem` after `bs` was stored at offset `off`. -/
def overwrite (mem : Bytes) (off : ℕ) (bs : Bytes) : Bytes :=
  mem.take off ++ bs ++ mem.drop (off + bs.length)

theorem length_overwrite {mem : Bytes} {off : ℕ} {bs : Bytes} (h : off + bs.length ≤ mem.length) :
    (overwrite mem off bs).length = mem.length := by
  unfold overwrite
  simp only [List.length_append, List.length_take, List.length_drop]
  omega

theorem take_overwrite {mem : Bytes} {off : ℕ} {bs : Bytes} (h : off ≤ mem.length) :
    (overwrite mem off bs).take (off + bs.length) = mem.take off ++ bs := by
  unfold overwrite
  rw [List.take_append_of_le_length (by simp [h])]
  exact List.take_of_length_le (by simp)

theorem take_overwrite_of_le {mem : Bytes} {off n : ℕ} {bs : Bytes} (h : off ≤ mem.length)
    (hn : n ≤ off) : (overwrite mem off bs).take n = mem.take n := by
  have h1 := congrArg (List.take n) (@take_overwrite mem off bs h)
  rw [List.take_take, Nat.min_eq_left (by omega)] at h1
  rw [h1, List.take_append_of_le_length (by simp; omega), List.take_take, Nat.min_eq_left hn]

theorem overwrite_replicate {n off k : ℕ} (b : UInt8) (h : off + k ≤ n) :
    overwrite (List.replicate n b) off (List.replicate k b) = List.replicate n b := by
  unfold overwrite
  rw [List.take_replicate, List.length_replicate, List.drop_replicate, ← List.replicate_add,
    ← List.replicate_add]
  exact congrArg (List.replicate · b) (by omega)

/-- A part in the middle of an area is replaced. -/
theorem overwrite_append (pre post : Bytes) {s t : Bytes} (h : t.length = s.length) :
    overwrite (pre ++ (s ++ post)) pre.length t = pre ++ (t ++ post) := by
  unfold overwrite
  rw [List.take_left, h, ← List.drop_drop, List.drop_left, List.drop_left, List.append_assoc]

/-- The C string that starts an area: everything before the first NUL. -/
def cstr (mem : Bytes) : Bytes := mem.takeWhile (· ≠ 0)

theorem cstr_append_zero {text : Bytes} (h : ∀ b ∈ text, b ≠ 0) (rest : Bytes) :
    cstr (text ++ 0 :: rest) = text := by
  unfold cstr
  rw [List.takeWhile_append_of_pos (by simpa using h)]
  simp

/-- `strstr`: the rest of `hay` from the first occurrence of `needle` on. -/
def strstr (hay needle : Bytes) : Option Bytes :=
  if needle.isPrefixOf hay then some hay
  else match hay with
    | [] => none
    | _ :: t => strstr t needle

theorem strstr_self (needle rest : Bytes) : strstr (needle ++ rest) needle = some (needle ++ rest) := by
  unfold strstr
  rw [if_pos (by simp)]

/-- Bytes that do not start the needle are passed over. -/
theorem strstr_append_of_head {s : Bytes} {b : UInt8} {needle : Bytes}
    (h : ∀ x ∈ s, x ≠ b) (rest : Bytes) :
    strstr (s ++ rest) (b :: needle) = strstr rest (b :: needle) := by
  induction s with
  | nil => rfl
  | cons x s ih =>
    have hx : x ≠ b := h x (by simp)
    rw [List.cons_append, strstr, if_neg (by simpa using fun e => absurd e.symm hx)]
    exact ih fun y hy => h y (by simp [hy])

theorem strstr_none_of_head {hay : Bytes} {b : UInt8} {needle : Bytes} (h : ∀ x ∈ hay, x ≠ b) :
    strstr hay (b :: needle) = none := by
  have h1 := @strstr_append_of_head hay b needle h []
  rw [List.append_nil] at h1
  rw [h1, strstr]
  simp

end LinboxRescue
