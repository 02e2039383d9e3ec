import LinboxRescue.Lib.Bytes

/-!
# Devices

A device holds a byte at each offset, but none behind its end or where it is damaged. `Device.read`
is a read that is of use only when it delivers all bytes, `Device.fill` one after which nobody looks
how many there were.
-/

namespace LinboxRescue

abbrev Device := ℕ → Option UInt8

/-- The `n` bytes from `off` on, when all of them are delivered. -/
def Device.read (dev : Device) (off n : ℕ) : Option Bytes :=
  (List.range n).mapM fun k => dev (off + k)

/-- The memory at a buffer after a read of `n` bytes from `off` on. -/
def Device.fill (dev : Device) (off n : ℕ) (buf : ℕ → UInt8) : ℕ → UInt8 := fun k =>
  if k < n then (dev (off + k)).getD (buf k) else buf k

theorem Device.read_succ (dev : Device) (off n : ℕ) : dev.read off (n + 1) =
    (dev.read off n).bind fun bs => (dev (off + n)).map fun b => bs ++ [b] := by
  unfold Device.read
  rw [List.range_succ, List.mapM_append, List.mapM_cons, List.mapM_nil]
  show Option.bind _ _ = _
  congr 1
  funext bs
  cases dev (off + n) <;> rfl

/-- Bytes that are all there are read. -/
theorem Device.read_of_eq_some {dev : Device} {off n : ℕ} {g : ℕ → UInt8}
    (h : ∀ k < n, dev (off + k) = some (g k)) : dev.read off n = some ((List.range n).map g) := by
  induction n with
  | zero => rfl
  | succ n ih =>
    rw [Device.read_succ, ih fun k hk => h k (by omega), h n (by omega), List.range_succ,
      List.map_append]
    rfl

theorem Device.length_of_read {dev : Device} {off n : ℕ} {bs : Bytes} (h : dev.read off n = some bs) :
    bs.length = n := by
  induction n generalizing bs with
  | zero =>
    obtain rfl := Option.some.inj h
    rfl
  | succ n ih =>
    rw [Device.read_succ] at h
    obtain ⟨bs', h', hbs⟩ := Option.bind_eq_some_iff.mp h
    obtain ⟨b, -, rfl⟩ := Option.map_eq_some_iff.mp hbs
    rw [List.length_append, ih h']
    rfl

/-- The bytes read are those of the device. -/
theorem Device.getElem?_of_read {dev : Device} {off n : ℕ} {bs : Bytes}
    (h : dev.read off n = some bs) {k : ℕ} (hk : k < n) : bs[k]? = dev (off + k) := by
  induction n generalizing bs with
  | zero => omega
  | succ n ih =>
    rw [Device.read_succ] at h
    obtain ⟨bs', h', hbs⟩ := Option.bind_eq_some_iff.mp h
    obtain ⟨b, hb, rfl⟩ := Option.map_eq_some_iff.mp hbs
    have hlen := Device.length_of_read h'
    by_cases hkn : k < n
    · rw [List.getElem?_append_left (by omega), ih h' hkn]
    · obtain rfl : k = n := by omega
      rw [hb, ← hlen, List.getElem?_concat_length]

/-- The devices have the same bytes from `lo` up to `hi`. -/
def SameBytes (dev dev' : Device) (lo hi : ℕ) : Prop := ∀ o, lo ≤ o → o < hi → dev' o = dev o

theorem SameBytes.mono {dev dev' : Device} {lo hi lo' hi' : ℕ} (h : SameBytes dev dev' lo hi)
    (hlo : lo ≤ lo') (hhi : hi' ≤ hi) : SameBytes dev dev' lo' hi' :=
  fun o ho1 ho2 => h o (hlo.trans ho1) (ho2.trans_le hhi)

theorem SameBytes.read {dev dev' : Device} {lo hi off n : ℕ} (h : SameBytes dev dev' lo hi)
    (hlo : lo ≤ off) (hhi : off + n ≤ hi) : dev'.read off n = dev.read off n := by
  induction n with
  | zero => rfl
  | succ n ih =>
    rw [Device.read_succ, Device.read_succ, ih (by omega), h (off + n) (by omega) (by omega)]

end LinboxRescue
