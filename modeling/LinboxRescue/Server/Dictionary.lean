import LinboxRescue.Lib.Bytes
import LinboxRescue.Lib.Slots

/-!
# The dictionary of the ini parser (server/admin/dictionary.c)

`lrsd` keeps what it reads of `/etc/lbs.conf` in a dictionary: three arrays of `size` slots, of keys,
values and hashes, where a free slot has no key. The dictionary refines a table of slots
(`dictionarySet_spec`, `dictionaryUnset_spec`) and this is a map: `dictionary_run`.

`dictionary_get` means to skip the free slots, but looks at the array and not at the slot. As a free
slot has the hash 0, a key whose hash is 0 is compared with a `NULL` there: `dictionaryGet_spec` says
when this happens.
-/

namespace LinboxRescue

/-! ## The code -/

/-- `key[i]`, `val[i]` and `hash[i]`; `none` is `NULL`. -/
structure DictSlot where
  key : Option Bytes
  val : Option Bytes
  hash : UInt32
  deriving DecidableEq, Repr

/-- A dictionary with its arrays, which have `size` slots. Its strings come without their NUL. -/
structure Dictionary where
  n : ℕ
  slots : List DictSlot

def Dictionary.size (d : Dictionary) : ℕ := d.slots.length

/-- `(unsigned)key[i]`: a `char` is signed. -/
def unsignedOfChar (c : UInt8) : UInt32 :=
  if c.toNat < 128 then c.toUInt32 else c.toUInt32 + 0xffffff00

/-- A turn of the loop of `dictionary_hash`. -/
def hashStep (hash : UInt32) (c : UInt8) : UInt32 :=
  let hash := hash + unsignedOfChar c
  let hash := hash + (hash <<< 10)
  hash ^^^ (hash >>> 6)

def dictionaryHash (key : Bytes) : UInt32 :=
  let hash := key.foldl hashStep 0
  let hash := hash + (hash <<< 3)
  let hash := hash ^^^ (hash >>> 11)
  hash + (hash <<< 15)

/-- A slot that `calloc` has cleared. -/
def freeSlot : DictSlot := ⟨none, none, 0⟩

def dictionaryNew (size : ℕ) : Dictionary :=
  ⟨0, List.replicate (if size < 128 then 128 else size) freeSlot⟩

/-- The loop of `dictionary_get`. There is no result when a key is compared with a `NULL`. -/
def dictionaryGetLoop (key : Bytes) (hash : UInt32) (dflt : Option Bytes) :
    List DictSlot → Option (Option Bytes)
  | [] => some dflt
  | s :: rest =>
    if hash = s.hash then
      match s.key with
      | none => none
      | some k => if key = k then some s.val else dictionaryGetLoop key hash dflt rest
    else dictionaryGetLoop key hash dflt rest

def dictionaryGet (d : Dictionary) (key : Bytes) (dflt : Option Bytes) : Option (Option Bytes) :=
  dictionaryGetLoop key (dictionaryHash key) dflt d.slots

/-- What the loops of `dictionary_set` and `dictionary_unset` look for. -/
def DictSlot.found (key : Bytes) (hash : UInt32) (s : DictSlot) : Bool :=
  match s.key with
  | none => false
  | some k => hash == s.hash && key == k

/-- There is no result when the new key would be written beyond the arrays. -/
def dictionarySet (d : Dictionary) (key : Option Bytes) (val : Option Bytes) : Option Dictionary :=
  match key with
  | none => some d
  | some key =>
    let hash := dictionaryHash key
    match if 0 < d.n then d.slots.findIdx? (·.found key hash) else none with
    | some i => some { d with slots := d.slots.modify i fun s => { s with val := val } }
    | none =>
      let slots :=
        if d.n = d.size then d.slots ++ List.replicate d.size freeSlot else d.slots
      let i := slots.findIdx (·.key.isNone)
      if i < slots.length then some ⟨d.n + 1, slots.set i ⟨some key, val, hash⟩⟩ else none

def dictionaryUnset (d : Dictionary) (key : Bytes) : Dictionary :=
  match d.slots.findIdx? (·.found key (dictionaryHash key)) with
  | none => d
  | some i => ⟨d.n - 1, d.slots.set i freeSlot⟩

/-! ## The dictionary as a table of slots -/

/-- The key and the value of a slot. -/
def DictSlot.entry (s : DictSlot) : Option (Bytes × Option Bytes) := s.key.map fun k => (k, s.val)

def dictTable (l : List DictSlot) : Slots Bytes (Option Bytes) := l.map DictSlot.entry

/-- The hash of a slot is the one of its key. -/
def DictSlot.Hashed (s : DictSlot) : Prop := s.hash = s.key.elim 0 dictionaryHash

/-- What every dictionary keeps to. -/
structure Dictionary.Sound (d : Dictionary) : Prop where
  hashed : ∀ s ∈ d.slots, s.Hashed
  count : d.n = (dictTable d.slots).keys.length
  single : (dictTable d.slots).Single
  some_slot : d.slots ≠ []

@[simp] theorem dictTable_nil : dictTable [] = [] := rfl

@[simp] theorem dictTable_cons (s : DictSlot) (l : List DictSlot) :
    dictTable (s :: l) = s.entry :: dictTable l := rfl

@[simp] theorem length_dictTable (l : List DictSlot) : (dictTable l).length = l.length :=
  List.length_map _

theorem dictTable_free (n : ℕ) : dictTable (List.replicate n freeSlot) = List.replicate n none := by
  unfold dictTable
  rw [List.map_replicate]
  rfl

theorem dictTable_append_free (l : List DictSlot) (n : ℕ) :
    dictTable (l ++ List.replicate n freeSlot) = dictTable l ++ List.replicate n none := by
  rw [← dictTable_free]
  exact List.map_append

theorem hashed_freeSlot : freeSlot.Hashed := rfl

theorem hashed_append_free {l : List DictSlot} (h : ∀ s ∈ l, s.Hashed) (n : ℕ) :
    ∀ s ∈ l ++ List.replicate n freeSlot, s.Hashed := by
  intro s hs
  rcases List.mem_append.mp hs with hs | hs
  · exact h s hs
  · rw [List.eq_of_mem_replicate hs]
    exact hashed_freeSlot

/-- A search stops at the slot of the key, and goes on at a free slot and at one of another key. -/
theorem DictSlot.Hashed.found_cases {s : DictSlot} (h : s.Hashed) (key : Bytes) :
    (s.found key (dictionaryHash key) = true ∧ s.key = some key ∧ s.entry = some (key, s.val)) ∨
    (s.found key (dictionaryHash key) = false ∧ s.entry = none) ∨
    ∃ k, k ≠ key ∧ s.found key (dictionaryHash key) = false ∧ s.entry = some (k, s.val) := by
  unfold DictSlot.found DictSlot.entry
  unfold DictSlot.Hashed at h
  cases hk : s.key with
  | none => exact .inr (.inl ⟨rfl, rfl⟩)
  | some k =>
    rw [hk] at h
    by_cases he : k = key
    · subst he
      exact .inl ⟨by simp [h], rfl, rfl⟩
    · refine .inr (.inr ⟨k, he, ?_, rfl⟩)
      simp [Ne.symm he]

section Search

variable {l : List DictSlot} (h : ∀ s ∈ l, s.Hashed) {key : Bytes}

include h in
theorem findIdx?_found :
    (l.findIdx? (·.found key (dictionaryHash key))).isSome = ((dictTable l).find key).isSome := by
  induction l with
  | nil => rfl
  | cons s l ih =>
    rw [List.forall_mem_cons] at h
    rw [List.findIdx?_cons, dictTable_cons]
    rcases h.1.found_cases key with ⟨hf, -, he⟩ | ⟨hf, he⟩ | ⟨k, hk, hf, he⟩
    · rw [hf, he, Slots.find_some_cons]
      simp
    · rw [hf, he, Slots.find_none_cons, ← ih h.2]
      simp
    · rw [hf, he, Slots.find_some_cons, if_neg hk, ← ih h.2]
      simp

/-- How the slot that a search has found is changed. -/
theorem dictTable_at {f : DictSlot → DictSlot}
    {g : Slots Bytes (Option Bytes) → Slots Bytes (Option Bytes)}
    (hnone : ∀ t, g (none :: t) = none :: g t)
    (hother : ∀ k v t, k ≠ key → g (some (k, v) :: t) = some (k, v) :: g t)
    (hkey : ∀ s : DictSlot, s.key = some key → ∀ t, g (some (key, s.val) :: t) = (f s).entry :: t)
    (h : ∀ s ∈ l, s.Hashed) {i : ℕ} (hi : l.findIdx? (·.found key (dictionaryHash key)) = some i) :
    dictTable (l.modify i f) = g (dictTable l) := by
  induction l generalizing i with
  | nil => cases hi
  | cons s l ih =>
    rw [List.forall_mem_cons] at h
    rw [List.findIdx?_cons] at hi
    rcases h.1.found_cases key with ⟨hf, hk, he⟩ | ⟨hf, he⟩ | ⟨k, hk, hf, he⟩
    · rw [hf, if_pos rfl] at hi
      obtain rfl := Option.some.inj hi
      rw [List.modify_zero_cons, dictTable_cons, dictTable_cons, he, hkey s hk]
    all_goals
      rw [hf, if_neg Bool.false_ne_true] at hi
      obtain ⟨j, hj, rfl⟩ := Option.map_eq_some_iff.mp hi
      rw [List.modify_succ_cons, dictTable_cons, dictTable_cons, ih h.2 hj, he]
    · rw [hnone]
    · rw [hother k _ _ hk]

theorem hashed_modify {f : DictSlot → DictSlot} (h : ∀ s ∈ l, s.Hashed)
    (hf : ∀ s, s.Hashed → (f s).Hashed) (i : ℕ) : ∀ s ∈ l.modify i f, s.Hashed := by
  induction l generalizing i with
  | nil =>
    rw [List.modify_nil]
    exact h
  | cons s l ih =>
    rw [List.forall_mem_cons] at h
    cases i with
    | zero => exact List.forall_mem_cons.mpr ⟨hf s h.1, h.2⟩
    | succ i => exact List.forall_mem_cons.mpr ⟨h.1, ih h.2 i⟩

end Search

/-- The new key is written to the first free slot. -/
theorem dictTable_set (l : List DictSlot) (key : Bytes) (val : Option Bytes) (hash : UInt32) :
    dictTable (l.set (l.findIdx (·.key.isNone)) ⟨some key, val, hash⟩)
      = (dictTable l).take key val := by
  induction l with
  | nil => rfl
  | cons s l ih =>
    rw [List.findIdx_cons, dictTable_cons]
    unfold DictSlot.entry
    cases hk : s.key with
    | none => rfl
    | some k =>
      show s.entry :: dictTable (l.set _ _) = some (k, s.val) :: (dictTable l).take key val
      rw [ih, DictSlot.entry, hk]
      rfl

/-! ## Each operation -/

theorem dictionaryNew_sound (size : ℕ) : (dictionaryNew size).Sound := by
  refine ⟨fun s hs => ?_, ?_, ?_, ?_⟩
  · rw [List.eq_of_mem_replicate hs]
    exact hashed_freeSlot
  · unfold dictionaryNew
    rw [dictTable_free]
    simp [Slots.keys]
  · unfold dictionaryNew Slots.Single
    rw [dictTable_free]
    simp [Slots.keys]
  · unfold dictionaryNew
    rw [← List.length_pos_iff, List.length_replicate]
    split_ifs with h
    · decide
    · exact Nat.pos_of_ne_zero fun e => h (e ▸ by decide)

/-- **`dictionary_set` puts the key into the table.** It never writes beyond the arrays. -/
theorem dictionarySet_spec {d : Dictionary} (h : d.Sound) (key : Bytes) (val : Option Bytes) :
    ∃ d', dictionarySet d (some key) val = some d' ∧ d'.Sound ∧
      dictTable d'.slots = (dictTable d.slots).put key val ∧
      (d'.size = d.size ∨ d'.size = 2 * d.size) := by
  have hne : dictTable d.slots ≠ [] := by
    rw [← List.length_pos_iff, length_dictTable]
    exact List.length_pos_iff.mpr h.some_slot
  have hsearch : (if 0 < d.n then d.slots.findIdx? (·.found key (dictionaryHash key)) else none)
      = d.slots.findIdx? (·.found key (dictionaryHash key)) := by
    split_ifs with hn
    · rfl
    · have hkeys : (dictTable d.slots).keys = [] := by
        rw [← List.length_eq_zero_iff, ← h.count]
        omega
      have hnone : ((dictTable d.slots).find key).isSome = false := by
        rw [Slots.find_eq_none.mpr (hkeys ▸ List.not_mem_nil)]
        rfl
      rw [← findIdx?_found h.hashed, Option.isSome_eq_false_iff, Option.isNone_iff_eq_none] at hnone
      exact hnone.symm
  unfold dictionarySet
  simp only [hsearch]
  have hfound := @findIdx?_found d.slots h.hashed key
  cases hi : d.slots.findIdx? (·.found key (dictionaryHash key)) with
  | some i =>
    rw [hi] at hfound
    obtain ⟨f, hf⟩ : ∃ f : DictSlot → DictSlot, f = fun s => { s with val := val } := ⟨_, rfl⟩
    have htable : dictTable (d.slots.modify i f) = (dictTable d.slots).replace key val := by
      refine dictTable_at (g := Slots.replace key val) (fun t => rfl) (fun k v t hk => ?_)
        (fun s hs t => ?_) h.hashed hi
      · exact if_neg hk
      · rw [hf, DictSlot.entry, hs]
        exact if_pos rfl
    have hput : (dictTable d.slots).put key val = (dictTable d.slots).replace key val :=
      if_pos hfound.symm
    simp only [← hf]
    refine ⟨_, rfl, ⟨hashed_modify h.hashed (fun s hs => ?_) i, ?_, ?_, ?_⟩, ?_, ?_⟩
    · rw [hf]
      exact hs
    · show d.n = (dictTable (d.slots.modify i f)).keys.length
      rw [htable, Slots.keys_replace]
      exact h.count
    · show (dictTable (d.slots.modify i f)).Single
      rw [htable, ← hput]
      exact h.single.put hne key val
    · exact fun e => h.some_slot (List.modify_eq_nil_iff.mp e)
    · rw [htable, hput]
    · exact .inl (List.length_modify _ _ _)
  | none =>
    rw [hi] at hfound
    obtain ⟨slots, hslots⟩ : ∃ slots, slots = (if d.n = d.size then
        d.slots ++ List.replicate d.size freeSlot else d.slots) := ⟨_, rfl⟩
    have hgrow : dictTable slots = (dictTable d.slots).grow := by
      unfold Slots.grow Slots.double
      rw [hslots, ← h.count, length_dictTable]
      unfold Dictionary.size
      split_ifs
      · rw [dictTable_append_free]
      · rfl
    have hfree : none ∈ dictTable slots := by
      rw [hgrow]
      exact Slots.none_mem_grow hne
    have hlt : slots.findIdx (·.key.isNone) < slots.length := by
      obtain ⟨s, hs, he⟩ := List.mem_map.mp hfree
      refine List.findIdx_lt_length_of_exists ⟨s, hs, ?_⟩
      simpa [DictSlot.entry] using he
    have hput : (dictTable slots).take key val = (dictTable d.slots).put key val := by
      rw [hgrow]
      exact (if_neg (by rw [← hfound]; exact Bool.false_ne_true)).symm
    simp only [← hslots]
    rw [if_pos hlt]
    refine ⟨_, rfl, ⟨fun s hs => ?_, ?_, ?_, ?_⟩, ?_, ?_⟩
    · rcases List.mem_or_eq_of_mem_set hs with hs | rfl
      · rw [hslots] at hs
        split_ifs at hs
        · exact hashed_append_free h.hashed _ s hs
        · exact h.hashed s hs
      · rfl
    · rw [dictTable_set, (Slots.keys_take key val hfree).length_eq, hgrow, Slots.keys_grow,
        List.length_cons, ← h.count]
    · rw [dictTable_set, hput]
      exact h.single.put hne key val
    · intro e
      rw [List.set_eq_nil_iff] at e
      rw [e] at hlt
      exact absurd hlt (Nat.not_lt_zero _)
    · rw [dictTable_set, hput]
    · unfold Dictionary.size
      rw [List.length_set, hslots]
      split_ifs with hn
      · right
        rw [List.length_append, List.length_replicate]
        exact (Nat.two_mul _).symm
      · exact .inl rfl

theorem dictionaryUnset_spec {d : Dictionary} (h : d.Sound) (key : Bytes) :
    (dictionaryUnset d key).Sound ∧
      dictTable (dictionaryUnset d key).slots = (dictTable d.slots).free key ∧
      (dictionaryUnset d key).size = d.size := by
  have hfound := @findIdx?_found d.slots h.hashed key
  unfold dictionaryUnset
  cases hi : d.slots.findIdx? (·.found key (dictionaryHash key)) with
  | none =>
    rw [hi] at hfound
    have hkey : key ∉ (dictTable d.slots).keys := by
      rw [← Slots.isSome_find, ← hfound]
      exact Bool.false_ne_true
    exact ⟨h, (Slots.free_of_not_mem hkey).symm, rfl⟩
  | some i =>
    rw [hi] at hfound
    have hkey : key ∈ (dictTable d.slots).keys := Slots.isSome_find.mp hfound.symm
    have htable : dictTable (d.slots.set i freeSlot) = (dictTable d.slots).free key := by
      rw [List.set_eq_modify]
      refine dictTable_at (f := fun _ => freeSlot) (g := Slots.free key) (fun t => rfl)
        (fun k v t hk => if_neg hk) (fun s _ t => ?_) h.hashed hi
      exact if_pos rfl
    refine ⟨⟨fun s hs => ?_, ?_, ?_, ?_⟩, htable, List.length_set⟩
    · rcases List.mem_or_eq_of_mem_set hs with hs | rfl
      · exact h.hashed s hs
      · exact hashed_freeSlot
    · show d.n - 1 = (dictTable (d.slots.set i freeSlot)).keys.length
      rw [htable, Slots.length_keys_free hkey, h.count]
    · show (dictTable (d.slots.set i freeSlot)).Single
      rw [htable]
      exact h.single.free key
    · exact fun e => h.some_slot (by simpa using e)

/-- A free slot comes before the one of the key. -/
def FreeBefore (key : Bytes) (l : List DictSlot) : Prop :=
  ∃ s ∈ l.takeWhile fun s => s.key ≠ some key, s.key = none

theorem freeBefore_cons (key : Bytes) (s : DictSlot) (l : List DictSlot) :
    FreeBefore key (s :: l) ↔ s.key ≠ some key ∧ (s.key = none ∨ FreeBefore key l) := by
  unfold FreeBefore
  rw [List.takeWhile_cons]
  by_cases hk : s.key = some key <;> simp [hk]

/-- **`dictionary_get` reads the table**, but dereferences a `NULL` for a key of the hash 0 that it
does not find before a free slot. -/
theorem dictionaryGet_spec {d : Dictionary} (h : ∀ s ∈ d.slots, s.Hashed) (key : Bytes)
    (dflt : Option Bytes) :
    (dictionaryHash key = 0 ∧ FreeBefore key d.slots → dictionaryGet d key dflt = none) ∧
    (¬(dictionaryHash key = 0 ∧ FreeBefore key d.slots) →
      dictionaryGet d key dflt = some (((dictTable d.slots).find key).getD dflt)) := by
  unfold dictionaryGet
  generalize d.slots = l at h
  induction l with
  | nil => simp [FreeBefore, dictionaryGetLoop]
  | cons s l ih =>
    rw [List.forall_mem_cons] at h
    rw [freeBefore_cons, dictionaryGetLoop, dictTable_cons]
    have hs : s.hash = s.key.elim 0 dictionaryHash := h.1
    have hrest := ih h.2
    unfold DictSlot.entry
    cases hk : s.key with
    | none =>
      rw [hk] at hs
      rw [hs]
      by_cases hz : dictionaryHash key = 0
      · simp [hz]
      · simpa [hz] using hrest
    | some k =>
      rw [hk] at hs
      rw [hs, Option.map_some, Slots.find_some_cons]
      by_cases he : k = key
      · subst he
        simp
      · have hne : some k ≠ some key := fun e => he (Option.some.inj e)
        simpa [he, Ne.symm he] using hrest

/-! ## Runs -/

/-- A call that changes a dictionary. -/
inductive DictOp
  | set (key val : Option Bytes)
  | unset (key : Bytes)

def DictOp.run (d : Dictionary) : DictOp → Option Dictionary
  | .set key val => dictionarySet d key val
  | .unset key => some (dictionaryUnset d key)

/-- What a call does to the map that the dictionary stands for. -/
def DictOp.update (m : Bytes → Option (Option Bytes)) : DictOp → Bytes → Option (Option Bytes)
  | .set (some key) val => Function.update m key (some val)
  | .set none _ => m
  | .unset key => Function.update m key none

/-- The map after some calls. -/
def dictMap (ops : List DictOp) : Bytes → Option (Option Bytes) := ops.foldl DictOp.update fun _ => none

/-- The dictionary stands for a map, and its arrays are those of a new one, doubled some times. -/
structure Dictionary.Maps (size : ℕ) (m : Bytes → Option (Option Bytes)) (d : Dictionary) : Prop where
  sound : d.Sound
  find : ∀ key, (dictTable d.slots).find key = m key
  doubled : ∃ j, d.size = max 128 size * 2 ^ j

theorem dictionaryNew_maps (size : ℕ) : (dictionaryNew size).Maps size fun _ => none := by
  refine ⟨dictionaryNew_sound size, fun key => ?_, 0, ?_⟩
  · unfold dictionaryNew
    rw [dictTable_free]
    exact Slots.find_append_free key [] _
  · unfold dictionaryNew Dictionary.size
    rw [List.length_replicate, pow_zero, mul_one]
    split_ifs <;> omega

theorem Dictionary.Maps.step {size : ℕ} {m : Bytes → Option (Option Bytes)} {d : Dictionary}
    (h : d.Maps size m) (op : DictOp) : ∃ d', op.run d = some d' ∧ d'.Maps size (op.update m) := by
  obtain ⟨j, hj⟩ := h.doubled
  cases op with
  | set key val =>
    cases key with
    | none => exact ⟨d, rfl, h⟩
    | some key =>
      obtain ⟨d', hd', hsound, htable, hsize⟩ := dictionarySet_spec h.sound key val
      refine ⟨d', hd', hsound, fun b => ?_, ?_⟩
      · have hne : dictTable d.slots ≠ [] := fun e => h.sound.some_slot (List.map_eq_nil_iff.mp e)
        rw [htable, Slots.find_put val hne, h.find]
        exact (Function.update_apply m key (some val) b).symm
      · rcases hsize with hsize | hsize
        · exact ⟨j, hsize.trans hj⟩
        · exact ⟨j + 1, by rw [hsize, hj, pow_succ]; ring⟩
  | unset key =>
    obtain ⟨hsound, htable, hsize⟩ := dictionaryUnset_spec h.sound key
    refine ⟨_, rfl, hsound, fun b => ?_, j, hsize.trans hj⟩
    rw [htable, Slots.find_free h.sound.single, h.find]
    exact (Function.update_apply m key none b).symm

theorem Dictionary.Maps.run {size : ℕ} (ops : List DictOp) {m : Bytes → Option (Option Bytes)}
    {d : Dictionary} (h : d.Maps size m) :
    ∃ d', ops.foldlM DictOp.run d = some d' ∧ d'.Maps size (ops.foldl DictOp.update m) := by
  induction ops generalizing m d with
  | nil => exact ⟨d, rfl, h⟩
  | cons op ops ih =>
    obtain ⟨d₁, hd₁, h₁⟩ := h.step op
    obtain ⟨d', hd', h'⟩ := ih h₁
    exact ⟨d', by rw [List.foldlM_cons, hd₁]; exact hd', h'⟩

/-- **A dictionary is a map**, whatever was set and unset: no call writes beyond the arrays, `n`
counts the keys and `dictionary_get` finds what was set last. Only for a key of the hash 0 it goes
wrong at a free slot. -/
theorem dictionary_run (size : ℕ) (ops : List DictOp) :
    ∃ d, ops.foldlM DictOp.run (dictionaryNew size) = some d ∧
      d.n = {key | dictMap ops key ≠ none}.ncard ∧ d.n ≤ d.size ∧
      (∃ j, d.size = max 128 size * 2 ^ j) ∧
      ∀ key dflt,
        (dictionaryHash key = 0 ∧ FreeBefore key d.slots → dictionaryGet d key dflt = none) ∧
        (¬(dictionaryHash key = 0 ∧ FreeBefore key d.slots) →
          dictionaryGet d key dflt = some ((dictMap ops key).getD dflt)) := by
  obtain ⟨d, hd, h⟩ := (dictionaryNew_maps size).run ops
  refine ⟨d, hd, ?_, ?_, h.doubled, fun key dflt => ?_⟩
  · rw [h.sound.count, ← Slots.ncard_eq h.sound.single]
    simp only [h.find]
    rfl
  · rw [h.sound.count, Dictionary.size, ← length_dictTable]
    exact Slots.length_keys_le _
  · have hget := dictionaryGet_spec h.sound.hashed key dflt
    rw [h.find] at hget
    exact hget

/-- The empty key has the hash 0, and a new dictionary free slots. -/
example : dictionaryGet (dictionaryNew 0) [] none = none := rfl

end LinboxRescue
