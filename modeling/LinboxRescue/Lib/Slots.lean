import Mathlib.Tactic
import Mathlib.Data.Set.Card

/-!
# Tables of slots

A map kept in a list of slots, each free or taken by a key and its value. A key that is there gets its
new value in its own slot, a new one goes to the first free slot, and a table without free slots is
doubled before.

`Slots.find_put` and `Slots.find_free`: a table is a map, as long as no key has two slots, which
both operations see to. `Slots.ncard_eq`: the taken slots count the keys.
-/

namespace LinboxRescue

variable {α β : Type}

abbrev Slots (α β : Type) := List (Option (α × β))

/-- The keys of the slots, in their order. -/
def Slots.keys (s : Slots α β) : List α := s.filterMap fun x => x.map Prod.fst

/-- Twice as many slots. -/
def Slots.double (s : Slots α β) : Slots α β := s ++ List.replicate s.length none

/-- A table without free slots is doubled. -/
def Slots.grow (s : Slots α β) : Slots α β := if s.keys.length = s.length then s.double else s

/-- The first free slot is taken. -/
def Slots.take (a : α) (v : β) : Slots α β → Slots α β
  | [] => []
  | none :: s => some (a, v) :: s
  | some x :: s => some x :: Slots.take a v s

@[simp] theorem Slots.keys_nil : Slots.keys ([] : Slots α β) = [] := rfl

@[simp] theorem Slots.keys_none (s : Slots α β) : Slots.keys (none :: s) = s.keys := rfl

@[simp] theorem Slots.keys_some (x : α × β) (s : Slots α β) :
    Slots.keys (some x :: s) = x.1 :: s.keys := rfl

/-- Induction over the slots. -/
theorem Slots.rec' {motive : Slots α β → Prop} (nil : motive [])
    (free : ∀ s, motive s → motive (none :: s))
    (taken : ∀ k v s, motive s → motive (some (k, v) :: s)) (s : Slots α β) : motive s := by
  induction s with
  | nil => exact nil
  | cons x s ih =>
    cases x with
    | none => exact free s ih
    | some x => exact taken x.1 x.2 s ih

theorem Slots.keys_append_free (s : Slots α β) (n : ℕ) :
    Slots.keys (s ++ List.replicate n none) = s.keys := by
  unfold Slots.keys
  rw [List.filterMap_append, List.filterMap_replicate]
  simp

@[simp] theorem Slots.keys_grow (s : Slots α β) : s.grow.keys = s.keys := by
  unfold Slots.grow Slots.double
  split_ifs
  · exact Slots.keys_append_free s _
  · rfl

theorem Slots.length_keys_le (s : Slots α β) : s.keys.length ≤ s.length :=
  List.length_filterMap_le _ _

/-- A free slot. -/
theorem Slots.none_mem_iff {s : Slots α β} : none ∈ s ↔ s.keys.length < s.length := by
  induction s using Slots.rec' with
  | nil => simp
  | free s ih =>
    have := s.length_keys_le
    simp only [List.mem_cons, true_or, Slots.keys_none, List.length_cons, true_iff]
    omega
  | taken k v s ih => simp [ih]

/-- A table that is not empty has a free slot after it was grown. -/
theorem Slots.none_mem_grow {s : Slots α β} (hs : s ≠ []) : none ∈ s.grow := by
  have hle := s.length_keys_le
  have hpos := List.length_pos_iff.mpr hs
  unfold Slots.grow
  split_ifs with h
  · refine List.mem_append_right _ (List.mem_replicate.mpr ⟨by omega, rfl⟩)
  · exact Slots.none_mem_iff.mpr (by omega)

theorem Slots.keys_take (a : α) (v : β) {s : Slots α β} (hfree : none ∈ s) :
    (s.take a v).keys.Perm (a :: s.keys) := by
  induction s using Slots.rec' with
  | nil => simp at hfree
  | free s ih => exact .refl _
  | taken k w s ih =>
    unfold Slots.take
    rw [Slots.keys_some, Slots.keys_some]
    exact ((ih (by simpa using hfree)).cons k).trans (.swap _ _ _)

theorem Slots.length_take (a : α) (v : β) (s : Slots α β) : (s.take a v).length = s.length := by
  induction s using Slots.rec' with
  | nil => rfl
  | free s ih => rfl
  | taken k w s ih =>
    unfold Slots.take
    rw [List.length_cons, ih, List.length_cons]

variable [DecidableEq α]

/-- The value in the first slot of a key. -/
def Slots.find (a : α) : Slots α β → Option β
  | [] => none
  | none :: s => Slots.find a s
  | some (k, v) :: s => if k = a then some v else Slots.find a s

/-- The first slot of a key gets a new value. -/
def Slots.replace (a : α) (v : β) : Slots α β → Slots α β
  | [] => []
  | none :: s => none :: Slots.replace a v s
  | some (k, w) :: s => if k = a then some (k, v) :: s else some (k, w) :: Slots.replace a v s

/-- The first slot of a key becomes free. -/
def Slots.free (a : α) : Slots α β → Slots α β
  | [] => []
  | none :: s => none :: Slots.free a s
  | some (k, w) :: s => if k = a then none :: s else some (k, w) :: Slots.free a s

/-- A key gets a value. -/
def Slots.put (a : α) (v : β) (s : Slots α β) : Slots α β :=
  if (s.find a).isSome then s.replace a v else s.grow.take a v

@[simp] theorem Slots.find_nil (a : α) : Slots.find a ([] : Slots α β) = none := rfl

@[simp] theorem Slots.find_none_cons (a : α) (s : Slots α β) :
    Slots.find a (none :: s) = s.find a := rfl

@[simp] theorem Slots.find_some_cons (a : α) (x : α × β) (s : Slots α β) :
    Slots.find a (some x :: s) = if x.1 = a then some x.2 else s.find a := rfl

/-! ## Looking up -/

theorem Slots.find_eq_none {a : α} {s : Slots α β} : s.find a = none ↔ a ∉ s.keys := by
  induction s using Slots.rec' with
  | nil => simp
  | free s ih => simpa using ih
  | taken k v s ih =>
    by_cases hk : k = a
    · simp [hk]
    · simp [hk, ih, Ne.symm hk]

theorem Slots.isSome_find {a : α} {s : Slots α β} : (s.find a).isSome = true ↔ a ∈ s.keys := by
  rw [Option.isSome_iff_ne_none, ne_eq, Slots.find_eq_none, not_not]

theorem Slots.find_append_free (a : α) (s : Slots α β) (n : ℕ) :
    Slots.find a (s ++ List.replicate n none) = s.find a := by
  induction s using Slots.rec' with
  | nil =>
    induction n with
    | zero => rfl
    | succ n ih => exact ih
  | free s ih => exact ih
  | taken k v s ih =>
    rw [List.cons_append, Slots.find_some_cons, Slots.find_some_cons, ih]

@[simp] theorem Slots.find_grow (a : α) (s : Slots α β) : s.grow.find a = s.find a := by
  unfold Slots.grow Slots.double
  split_ifs
  · exact Slots.find_append_free a s _
  · rfl

/-! ## Replacing -/

theorem Slots.find_replace {a : α} (v : β) {s : Slots α β} (ha : a ∈ s.keys) (b : α) :
    (s.replace a v).find b = if b = a then some v else s.find b := by
  induction s using Slots.rec' with
  | nil => simp at ha
  | free s ih => exact ih ha
  | taken k w s ih =>
    unfold Slots.replace
    by_cases hk : k = a
    · subst hk
      simp only [if_true, Slots.find_some_cons, @eq_comm _ k b]
      split_ifs <;> rfl
    · have ha' : a ∈ s.keys := by simpa [Ne.symm hk] using ha
      rw [if_neg hk, Slots.find_some_cons, Slots.find_some_cons, ih ha']
      by_cases hb : k = b
      · subst hb
        simp [hk]
      · simp [hb]

theorem Slots.keys_replace (a : α) (v : β) (s : Slots α β) : (s.replace a v).keys = s.keys := by
  induction s using Slots.rec' with
  | nil => rfl
  | free s ih => exact ih
  | taken k w s ih =>
    unfold Slots.replace
    split_ifs
    · rfl
    · rw [Slots.keys_some, Slots.keys_some, ih]

/-! ## Taking a free slot -/

theorem Slots.find_take {a : α} (v : β) {s : Slots α β} (ha : a ∉ s.keys) (hfree : none ∈ s) (b : α) :
    (s.take a v).find b = if b = a then some v else s.find b := by
  induction s using Slots.rec' with
  | nil => simp at hfree
  | free s ih =>
    unfold Slots.take
    rw [Slots.find_some_cons, Slots.find_none_cons]
    exact if_congr eq_comm rfl rfl
  | taken k w s ih =>
    rw [Slots.keys_some, List.mem_cons, not_or] at ha
    unfold Slots.take
    rw [Slots.find_some_cons, Slots.find_some_cons, ih ha.2 (by simpa using hfree)]
    by_cases hb : k = b
    · subst hb
      simp [Ne.symm ha.1]
    · simp [hb]

/-! ## Freeing a slot -/

theorem Slots.find_free {a : α} {s : Slots α β} (hs : s.keys.Nodup) (b : α) :
    (s.free a).find b = if b = a then none else s.find b := by
  induction s using Slots.rec' with
  | nil => simp [Slots.free]
  | free s ih => exact ih hs
  | taken k w s ih =>
    rw [Slots.keys_some, List.nodup_cons] at hs
    unfold Slots.free
    by_cases hk : k = a
    · subst hk
      rw [if_pos rfl, Slots.find_none_cons, Slots.find_some_cons]
      by_cases hb : b = k
      · subst hb
        rw [if_pos rfl, Slots.find_eq_none]
        exact hs.1
      · rw [if_neg hb, if_neg (Ne.symm hb)]
    · rw [if_neg hk, Slots.find_some_cons, Slots.find_some_cons, ih hs.2]
      by_cases hb : k = b
      · subst hb
        simp [hk]
      · simp [hb]

theorem Slots.keys_free (a : α) (s : Slots α β) : (s.free a).keys = s.keys.erase a := by
  induction s using Slots.rec' with
  | nil => rfl
  | free s ih => exact ih
  | taken k w s ih =>
    unfold Slots.free
    split_ifs with hk
    · rw [Slots.keys_none, Slots.keys_some, hk, List.erase_cons_head]
    · rw [Slots.keys_some, Slots.keys_some, ih, List.erase_cons_tail (by simpa using hk)]

theorem Slots.length_keys_free {a : α} {s : Slots α β} (ha : a ∈ s.keys) :
    (s.free a).keys.length = s.keys.length - 1 := by
  rw [Slots.keys_free, List.length_erase_of_mem ha]

theorem Slots.free_of_not_mem {a : α} {s : Slots α β} (ha : a ∉ s.keys) : s.free a = s := by
  induction s using Slots.rec' with
  | nil => rfl
  | free s ih => exact congrArg (none :: ·) (ih ha)
  | taken k w s ih =>
    rw [Slots.keys_some, List.mem_cons, not_or] at ha
    unfold Slots.free
    rw [if_neg (Ne.symm ha.1), ih ha.2]

/-! ## A table is a map -/

/-- No key has two slots. -/
def Slots.Single (s : Slots α β) : Prop := s.keys.Nodup

theorem Slots.find_put {a : α} (v : β) {s : Slots α β} (hs : s ≠ []) (b : α) :
    (s.put a v).find b = if b = a then some v else s.find b := by
  unfold Slots.put
  simp only [Slots.isSome_find]
  split_ifs with ha hb hb
  · rw [Slots.find_replace v ha, if_pos hb]
  · rw [Slots.find_replace v ha, if_neg hb]
  · rw [Slots.find_take v (by simpa using ha) (Slots.none_mem_grow hs), if_pos hb]
  · rw [Slots.find_take v (by simpa using ha) (Slots.none_mem_grow hs), if_neg hb, Slots.find_grow]

theorem Slots.Single.put {s : Slots α β} (h : s.Single) (hs : s ≠ []) (a : α) (v : β) :
    (s.put a v).Single := by
  unfold Slots.put
  simp only [Slots.isSome_find]
  split_ifs with ha
  · show (s.replace a v).keys.Nodup
    rw [Slots.keys_replace]
    exact h
  · show (s.grow.take a v).keys.Nodup
    rw [(Slots.keys_take a v (Slots.none_mem_grow hs)).nodup_iff, Slots.keys_grow]
    exact List.nodup_cons.mpr ⟨ha, h⟩

theorem Slots.Single.free {s : Slots α β} (h : s.Single) (a : α) : (s.free a).Single := by
  show (s.free a).keys.Nodup
  rw [Slots.keys_free]
  exact h.erase a

/-- The taken slots count the keys of the map. -/
theorem Slots.ncard_eq {s : Slots α β} (h : s.Single) :
    {a | s.find a ≠ none}.ncard = s.keys.length := by
  have hset : {a | s.find a ≠ none} = ↑s.keys.toFinset := by
    ext a
    simp [Slots.find_eq_none]
  rw [hset, Set.ncard_coe_finset, List.toFinset_card_of_nodup h]

end LinboxRescue
