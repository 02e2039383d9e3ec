import LinboxRescue.Lib.Decimal
import Mathlib.Data.List.TakeWhile

/-!
# Literals of a query

`addslashes` puts a backslash before the characters that end or change a literal; `readLiteral` is how
the database reads a literal up to its quote. `sqlValue` is the value of a literal that is written
between quotes, if it ends at the second one.

`intval` is the number a text begins with.
-/

namespace LinboxRescue

/-! ## Texts -/

def backslashed (b : UInt8) : Bytes :=
  if b = 0 then [92, 48] else if b = 34 ∨ b = 39 ∨ b = 92 then [92, b] else [b]

/-- `addslashes`. -/
def addslashes (v : Bytes) : Bytes := v.flatMap backslashed

/-- What a character stands for after a backslash. -/
def unbackslashed (b : UInt8) : Bytes :=
  if b = 48 then [0] else if b = 98 then [8] else if b = 110 then [10] else if b = 114 then [13]
  else if b = 116 then [9] else if b = 90 then [26] else if b = 37 ∨ b = 95 then [92, b] else [b]

/-- The value of a literal after its first quote, and what follows it. Two quotes are a quote. -/
def readLiteral : Bytes → Option (Bytes × Bytes)
  | [] => none
  | [39] => some ([], [])
  | 39 :: 39 :: t => (readLiteral t).map fun p => (39 :: p.1, p.2)
  | 39 :: b :: t => some ([], b :: t)
  | [92] => none
  | 92 :: b :: t => (readLiteral t).map fun p => (unbackslashed b ++ p.1, p.2)
  | b :: t => (readLiteral t).map fun p => (b :: p.1, p.2)

/-- The value of `'arg'`, if the second quote ends it. -/
def sqlValue (arg : Bytes) : Option Bytes :=
  match readLiteral (arg ++ [39]) with
  | some (v, []) => some v
  | _ => none

theorem readLiteral_cons {b : UInt8} (hq : b ≠ 39) (hb : b ≠ 92) (t : Bytes) :
    readLiteral (b :: t) = (readLiteral t).map fun p => (b :: p.1, p.2) := by
  rw [readLiteral]
  all_goals simp_all

theorem readLiteral_backslashed (b : UInt8) (t : Bytes) :
    readLiteral (backslashed b ++ t) = (readLiteral t).map fun p => (b :: p.1, p.2) := by
  unfold backslashed
  split_ifs with h0 hs
  · subst h0
    rfl
  · obtain rfl | rfl | rfl := hs <;> rfl
  · exact readLiteral_cons (fun h => hs (.inr (.inl h))) (fun h => hs (.inr (.inr h))) t

/-- A text is read back up to the quote that was put behind it. -/
theorem readLiteral_addslashes (v : Bytes) : readLiteral (addslashes v ++ [39]) = some (v, []) := by
  induction v with
  | nil => rfl
  | cons b v ih =>
    unfold addslashes at ih ⊢
    rw [List.flatMap_cons, List.append_assoc, readLiteral_backslashed, ih]
    rfl

theorem sqlValue_addslashes (v : Bytes) : sqlValue (addslashes v) = some v := by
  unfold sqlValue
  rw [readLiteral_addslashes]

/-- So is one that needs no backslash. -/
theorem sqlValue_plain {v : Bytes} (h : ∀ b ∈ v, b ≠ 39 ∧ b ≠ 92) : sqlValue v = some v := by
  have hread : readLiteral (v ++ [39]) = some (v, []) := by
    induction v with
    | nil => rfl
    | cons b v ih =>
      obtain ⟨⟨hq, hb⟩, hv⟩ := List.forall_mem_cons.mp h
      rw [List.cons_append, readLiteral_cons hq hb, ih hv]
      rfl
  unfold sqlValue
  rw [hread]

/-! ## Numbers -/

/-- The number a text begins with. -/
def intval : Bytes → ℤ
  | 45 :: t => -(digitsVal (t.takeWhile isDigit) : ℤ)
  | t => (digitsVal (t.takeWhile isDigit) : ℤ)

theorem takeWhile_dec (n : ℕ) : (dec n).takeWhile isDigit = dec n :=
  List.takeWhile_eq_self_iff.mpr isDigit_of_mem_dec

theorem intval_decInt (n : ℤ) : intval (decInt n) = n := by
  cases n with
  | ofNat n =>
    have hne : ∀ t, dec n ≠ 45 :: t := fun t h =>
      dec_ne (c := 45) (by decide) 45 (h ▸ List.mem_cons_self) rfl
    show intval (dec n) = _
    rw [intval, takeWhile_dec, digitsVal_dec]
    · rfl
    · exact hne
  | negSucc n =>
    show -(digitsVal ((dec (n + 1)).takeWhile isDigit) : ℤ) = _
    rw [takeWhile_dec, digitsVal_dec, Int.negSucc_eq]
    push_cast
    rfl

end LinboxRescue
