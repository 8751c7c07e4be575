import Mathlib.Tactic

set_option autoImplicit false

/-! # Byte memory

A byte memory is a function from offsets to bytes. It stands for whatever a C pointer
points into: a disk block, a local buffer, the heap. An object of `n` bytes is the part
below `n`; what lies above belongs to other objects, and an operation on the object leaves
it alone. The file gives the little-endian fields of such a memory (`load`, `store`), the
two block operations (`copy`, `fill`) and the rules by which they commute.
-/

namespace Mcsos

/-- A byte memory: the byte at every offset. -/
abbrev Bytes := Nat → UInt8

namespace Bytes

/-- Two memories agree on the offsets `lo ≤ i < hi`. -/
def AgreeOn (a b : Bytes) (lo hi : Nat) : Prop := ∀ i, lo ≤ i → i < hi → a i = b i

/-- The little-endian value of the `w` bytes from offset `off` on. -/
def load (b : Bytes) (off : Nat) : Nat → Nat
  | 0 => 0
  | w + 1 => (b off).toNat + 256 * load b (off + 1) w

/-- Store the low `w` bytes of `v`, little-endian, from offset `off` on. -/
def store (b : Bytes) (off w v : Nat) : Bytes := fun i =>
  if off ≤ i ∧ i < off + w then UInt8.ofNat (v / 256 ^ (i - off)) else b i

/-- `memcpy`: the `n` bytes of `src` from `soff` on replace those of `dst` from `doff` on. -/
def copy (dst : Bytes) (doff : Nat) (src : Bytes) (soff n : Nat) : Bytes := fun i =>
  if doff ≤ i ∧ i < doff + n then src (soff + (i - doff)) else dst i

/-- `memset`: the `n` bytes of `dst` from `off` on become `v`. -/
def fill (dst : Bytes) (off n : Nat) (v : UInt8) : Bytes := fun i =>
  if off ≤ i ∧ i < off + n then v else dst i

/-- The `n` bytes from offset `off` on, as a list. -/
def slice (b : Bytes) (off n : Nat) : List UInt8 := (List.range n).map (fun k => b (off + k))

/-- The first `n` bytes, and zeros after them: an object of `n` bytes on its own. -/
def clip (n : Nat) (b : Bytes) : Bytes := fun i => if i < n then b i else 0

/-- All bytes zero. -/
def zero : Bytes := fun _ => 0

/-! ## Agreement -/

theorem AgreeOn.refl (a : Bytes) (lo hi : Nat) : AgreeOn a a lo hi := fun _ _ _ => rfl

theorem AgreeOn.symm {a b : Bytes} {lo hi : Nat} (h : AgreeOn a b lo hi) :
    AgreeOn b a lo hi := fun i h1 h2 => (h i h1 h2).symm

theorem AgreeOn.trans {a b c : Bytes} {lo hi : Nat} (h : AgreeOn a b lo hi)
    (h' : AgreeOn b c lo hi) : AgreeOn a c lo hi :=
  fun i h1 h2 => (h i h1 h2).trans (h' i h1 h2)

theorem AgreeOn.mono {a b : Bytes} {lo hi lo' hi' : Nat} (h : AgreeOn a b lo hi)
    (hlo : lo ≤ lo') (hhi : hi' ≤ hi) : AgreeOn a b lo' hi' :=
  fun i h1 h2 => h i (by omega) (by omega)

/-! ## Loads -/

@[simp] theorem load_zero_width (b : Bytes) (off : Nat) : b.load off 0 = 0 := rfl

theorem load_succ (b : Bytes) (off w : Nat) :
    b.load off (w + 1) = (b off).toNat + 256 * b.load (off + 1) w := rfl

theorem load_lt (b : Bytes) (off w : Nat) : b.load off w < 256 ^ w := by
  induction w generalizing off with
  | zero => simp
  | succ w ih =>
      have hb : (b off).toNat < 256 := (b off).toNat_lt
      have h := ih (off + 1)
      rw [load_succ, pow_succ]
      omega

/-- A load only depends on the bytes it covers, wherever they are. -/
theorem load_shift_congr {a b : Bytes} {off off' : Nat} (w : Nat)
    (h : ∀ k, k < w → a (off + k) = b (off' + k)) : a.load off w = b.load off' w := by
  induction w generalizing off off' with
  | zero => rfl
  | succ w ih =>
      have h0 : a off = b off' := by simpa using h 0 (by omega)
      have hs : a.load (off + 1) w = b.load (off' + 1) w := by
        apply ih
        intro k hk
        have hk' := h (k + 1) (by omega)
        rwa [show off + (k + 1) = off + 1 + k by omega,
          show off' + (k + 1) = off' + 1 + k by omega] at hk'
      rw [load_succ, load_succ, h0, hs]

theorem load_congr {a b : Bytes} {off w : Nat} (h : AgreeOn a b off (off + w)) :
    a.load off w = b.load off w :=
  load_shift_congr w (fun k hk => h (off + k) (by omega) (by omega))

theorem load_eq_zero {b : Bytes} {off w : Nat} (h : ∀ k, k < w → b (off + k) = 0) :
    b.load off w = 0 := by
  induction w generalizing off with
  | zero => rfl
  | succ w ih =>
      have h0 : b off = 0 := by simpa using h 0 (by omega)
      have hs : b.load (off + 1) w = 0 := by
        apply ih
        intro k hk
        rw [show off + 1 + k = off + (k + 1) by omega]
        exact h (k + 1) (by omega)
      rw [load_succ, h0, hs]
      rfl

/-- Equal loads come from equal bytes. -/
theorem bytes_eq_of_load_eq {a b : Bytes} {off off' w : Nat}
    (h : a.load off w = b.load off' w) : ∀ k, k < w → a (off + k) = b (off' + k) := by
  induction w generalizing off off' with
  | zero => intro k hk; omega
  | succ w ih =>
      have ha : (a off).toNat < 256 := (a off).toNat_lt
      have hb : (b off').toNat < 256 := (b off').toNat_lt
      rw [load_succ, load_succ] at h
      intro k hk
      cases k with
      | zero =>
          rw [Nat.add_zero, Nat.add_zero]
          exact UInt8.toNat_inj.mp (by omega)
      | succ k =>
          have hrest : a.load (off + 1) w = b.load (off' + 1) w := by omega
          have hk := ih hrest k (by omega)
          rwa [show off + (k + 1) = off + 1 + k by omega,
            show off' + (k + 1) = off' + 1 + k by omega]

/-- A byte of a field counts with its weight. -/
theorem byte_le_load (b : Bytes) (off : Nat) {k w : Nat} (h : k < w) :
    256 ^ k * (b (off + k)).toNat ≤ b.load off w := by
  induction w generalizing off k with
  | zero => omega
  | succ w ih =>
      rw [load_succ]
      cases k with
      | zero =>
          rw [pow_zero, Nat.one_mul, Nat.add_zero]
          exact Nat.le_add_right _ _
      | succ k =>
          have hk := ih (off + 1) (show k < w by omega)
          rw [show off + (k + 1) = off + 1 + k by omega, pow_succ', Nat.mul_assoc]
          omega

/-- A field with nothing above its lowest byte. -/
theorem load_of_high_zero {b : Bytes} {off w : Nat} (h : ∀ k, 0 < k → k < w + 1 → b (off + k) = 0) :
    b.load off (w + 1) = (b off).toNat := by
  have hrest : b.load (off + 1) w = 0 := load_eq_zero fun k hk => by
    rw [show off + 1 + k = off + (k + 1) by omega]
    exact h (k + 1) (Nat.succ_pos k) (by omega)
  rw [load_succ, hrest]
  omega

/-! ## Stores -/

theorem store_agreeOn {b : Bytes} {off w v lo hi : Nat} (h : hi ≤ off ∨ off + w ≤ lo) :
    AgreeOn (b.store off w v) b lo hi := by
  intro i h1 h2
  rw [store, if_neg (by omega)]

theorem load_store_ne {b : Bytes} {off w v off' w' : Nat}
    (h : off' + w' ≤ off ∨ off + w ≤ off') :
    (b.store off w v).load off' w' = b.load off' w' :=
  load_congr (store_agreeOn h)

theorem toNat_ofNat_div (v k : Nat) :
    (UInt8.ofNat (v / 256 ^ k)).toNat = v / 256 ^ k % 256 := by
  rw [UInt8.toNat_ofNat']

/-- Loading inside a stored field gives the corresponding digits of the value. -/
theorem load_store_within (b : Bytes) (off w v : Nat) :
    ∀ n k, k + n ≤ w → (b.store off w v).load (off + k) n = v / 256 ^ k % 256 ^ n := by
  intro n
  induction n with
  | zero => intro k _; simp [Nat.mod_one]
  | succ n ih =>
      intro k hk
      have hbyte : (b.store off w v (off + k)).toNat = v / 256 ^ k % 256 := by
        rw [store, if_pos (by omega), Nat.add_sub_cancel_left, toNat_ofNat_div]
      have htail := ih (k + 1) (by omega)
      rw [load_succ, hbyte, show off + k + 1 = off + (k + 1) by omega, htail, pow_succ' 256 n,
        Nat.mod_mul, pow_succ, Nat.div_div_eq_div_mul]

/-- A field keeps as much of a value as it has room for. -/
theorem load_store_mod (b : Bytes) (off w v : Nat) :
    (b.store off w v).load off w = v % 256 ^ w := by
  have := load_store_within b off w v w 0 (by omega)
  rwa [Nat.add_zero, pow_zero, Nat.div_one] at this

theorem load_store_same {b : Bytes} {off w v : Nat} (h : v < 256 ^ w) :
    (b.store off w v).load off w = v := by
  rw [load_store_mod, Nat.mod_eq_of_lt h]

/-! ## Copies and fills -/

theorem copy_apply_of_mem {dst src : Bytes} {doff soff n i : Nat} (h : doff ≤ i)
    (h' : i < doff + n) : dst.copy doff src soff n i = src (soff + (i - doff)) := by
  rw [copy, if_pos ⟨h, h'⟩]

theorem copy_apply_of_ge {dst src : Bytes} {doff soff n i : Nat} (h : doff + n ≤ i) :
    dst.copy doff src soff n i = dst i := by
  rw [copy, if_neg (by omega)]

theorem copy_agreeOn {dst src : Bytes} {doff soff n lo hi : Nat}
    (h : hi ≤ doff ∨ doff + n ≤ lo) : AgreeOn (dst.copy doff src soff n) dst lo hi := by
  intro i h1 h2
  rw [copy, if_neg (by omega)]

theorem load_copy_ne {dst src : Bytes} {doff soff n off w : Nat}
    (h : off + w ≤ doff ∨ doff + n ≤ off) :
    (dst.copy doff src soff n).load off w = dst.load off w :=
  load_congr (copy_agreeOn h)

theorem fill_apply_of_mem {dst : Bytes} {off n i : Nat} {v : UInt8} (h : off ≤ i)
    (h' : i < off + n) : dst.fill off n v i = v := by
  rw [fill, if_pos ⟨h, h'⟩]

theorem fill_agreeOn {dst : Bytes} {off n lo hi : Nat} {v : UInt8}
    (h : hi ≤ off ∨ off + n ≤ lo) : AgreeOn (dst.fill off n v) dst lo hi := by
  intro i h1 h2
  rw [fill, if_neg (by omega)]

theorem load_fill_ne {dst : Bytes} {off n off' w : Nat} {v : UInt8}
    (h : off' + w ≤ off ∨ off + n ≤ off') :
    (dst.fill off n v).load off' w = dst.load off' w :=
  load_congr (fill_agreeOn h)

theorem load_fill_zero {dst : Bytes} {off n off' w : Nat} (h : off ≤ off')
    (h' : off' + w ≤ off + n) : (dst.fill off n 0).load off' w = 0 :=
  load_eq_zero (fun k hk => fill_apply_of_mem (by omega) (by omega))

/-! ## Clipping -/

theorem clip_agreeOn (n : Nat) (b : Bytes) : AgreeOn (clip n b) b 0 n := by
  intro i _ hi
  rw [clip, if_pos hi]

theorem clip_eq_iff {n : Nat} {a b : Bytes} : clip n a = clip n b ↔ AgreeOn a b 0 n := by
  constructor
  · intro h i _ hi
    have := congrFun h i
    rwa [clip, clip, if_pos hi, if_pos hi] at this
  · intro h
    funext i
    unfold clip
    split
    · exact h i (Nat.zero_le i) (by assumption)
    · rfl

theorem load_clip {n off w : Nat} {b : Bytes} (h : off + w ≤ n) :
    (clip n b).load off w = b.load off w :=
  load_congr ((clip_agreeOn n b).mono (Nat.zero_le off) h)

@[simp] theorem clip_clip (n : Nat) (b : Bytes) : clip n (clip n b) = clip n b :=
  clip_eq_iff.mpr (clip_agreeOn n b)

@[simp] theorem clip_zero (n : Nat) : clip n zero = zero := by
  funext i
  unfold clip zero
  split <;> rfl

/-! ## Slices -/

@[simp] theorem slice_length (b : Bytes) (off n : Nat) : (b.slice off n).length = n := by
  unfold slice
  rw [List.length_map, List.length_range]

theorem slice_eq_iff {a b : Bytes} {off off' n : Nat} :
    a.slice off n = b.slice off' n ↔ ∀ k, k < n → a (off + k) = b (off' + k) := by
  unfold slice
  rw [List.map_inj_left]
  constructor
  · intro h k hk
    exact h k (List.mem_range.mpr hk)
  · intro h k hk
    exact h k (List.mem_range.mp hk)

/-- The destination of a copy reads as its source. -/
theorem slice_copy_same {dst src : Bytes} {doff soff n : Nat} :
    (dst.copy doff src soff n).slice doff n = src.slice soff n := by
  rw [slice_eq_iff]
  intro k hk
  rw [copy_apply_of_mem (by omega) (by omega), Nat.add_sub_cancel_left]

@[simp] theorem load_zero (off w : Nat) : zero.load off w = 0 :=
  load_eq_zero (fun _ _ => rfl)

end Bytes

end Mcsos
