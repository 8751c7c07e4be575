import Mcsos.Mm.KmemRuns

set_option autoImplicit false

/-! # What `kmem_alloc` hands out

`KMEM_ALIGN` is an `unsigned int`, so `~(KMEM_ALIGN - 1)` is a 32-bit mask and `kmem_alloc`
rounds its request modulo `2 ^ 32` (`kmem_init` casts to `uintptr_t` before it inverts). A
request above `2 ^ 32 - 64` that still finds a block gets less than it asked for, or a header
whose size runs past the heap. Below that, or when no block is found, all is well.
-/

namespace Mcsos.Kmem

open BlockList

variable {base bytes : UInt64} {s s' : KmemState} {live live' : List Nat} {bs : List Blk}

/-- The block behind `p` lies in the heap and has at least `n` bytes. -/
def RoomFor (s : KmemState) (p n : Nat) : Prop :=
  n ≤ blockSize s p ∧ p + blockSize s p ≤ s.heapBase + s.heapBytes

/-- A pointer that `kmem_alloc` returns has room for the request. -/
def AllocEnough (s : KmemState) (n : UInt64) : Prop :=
  ∀ p s', kmemAlloc n s = some (p, s') → p ≠ 0 → RoomFor s' p n.toNat

/-- A pointer that `kmem_calloc` returns has room for the bytes it has zeroed. -/
def CallocEnough (s : KmemState) (c n : UInt64) : Prop :=
  ∀ p s', kmemCalloc c n s = some (p, s') → p ≠ 0 → RoomFor s' p (c.toNat * n.toNat)

/-! ## Safe requests have room -/

theorem Good.roomFor (hg : Good base bytes s live bs) {b : Blk} (hb : b ∈ bs) {n : Nat}
    (hn : n ≤ b.size) : RoomFor s (b.addr + 40) n := by
  have hin := tiles_mem hg.inv.tiles hb
  unfold RoomFor
  rw [hg.inv.blockSize_eq hb]
  omega

theorem Good.allocEnough (hg : Good base bytes s live bs) {n : UInt64}
    (hsafe : SafeRequest s n.toNat) : AllocEnough s n := by
  intro p s' hcall hp
  obtain ⟨q, s1, bs', hcall', hg', hblock⟩ := hg.alloc_safe hsafe
  obtain ⟨rfl, rfl⟩ := Prod.mk.inj (Option.some.inj (hcall.symm.trans hcall'))
  obtain ⟨b, hb, -, rfl, hsize⟩ := hblock hp
  exact hg'.roomFor hb hsize

theorem Good.callocEnough (hg : Good base bytes s live bs) {c n : UInt64}
    (hsafe : SafeCalloc s c.toNat n.toNat) : CallocEnough s c n := by
  intro p s' hcall hp
  obtain ⟨q, s1, bs', hcall', hg', hblock⟩ := hg.calloc hsafe
  obtain ⟨rfl, rfl⟩ := Prod.mk.inj (Option.some.inj (hcall.symm.trans hcall'))
  obtain ⟨b, hb, -, rfl, hsize⟩ := hblock hp
  exact hg'.roomFor hb hsize

/-! ## Unsafe requests have not -/

/-- The size that a split leaves in the old header, whatever the arithmetic came to. -/
theorem takeBlock_size {mem : Bytes} {n curr : Nat}
    (hsplit : (neededSpace n + headerSize + kmemAlign) % 2 ^ 64 ≤ size mem curr) :
    size (takeBlock n curr mem) curr = (neededSpace n + 2 ^ 64 - headerSize) % 2 ^ 64 := by
  have hlt : (neededSpace n + 2 ^ 64 - headerSize) % 2 ^ 64 < 256 ^ 8 := by
    rw [show (256 : Nat) ^ 8 = 2 ^ 64 by norm_num]
    omega
  unfold takeBlock
  simp only [if_pos hsplit]
  unfold size setIsFree setNext setSize
  simp (disch := omega) only [Bytes.load_store_ne, Bytes.load_store_same]

/-- The call on a request that is not safe: some block is found, and it has no room. -/
theorem Good.alloc_unsafe (hg : Good base bytes s live bs) {n : UInt64}
    (hdanger : ¬SafeRequest s n.toNat) :
    ∃ p s', kmemAlloc n s = some (p, s') ∧ 40 ≤ p ∧ s'.heapBase = s.heapBase ∧
      s'.heapBytes = s.heapBytes ∧ ¬RoomFor s' p n.toNat := by
  have hbig : 2 ^ 32 - 64 < n.toNat := by
    by_contra hle
    exact hdanger (Or.inl (by omega))
  have hn : n ≠ 0 := by
    rintro rfl
    simp at hbig
  rw [kmemAlloc_eq hg.inv hn]
  cases hfirst : firstFit (roundUp n.toNat) bs with
  | none =>
      -- a request that nothing fits is safe
      have hnone := firstFit_none_iff.mp hfirst
      exact absurd (Or.inr (by rw [hg.inv.blocks_eq]; exact hnone)) hdanger
  | some b =>
      refine ⟨_, _, rfl, by omega, rfl, rfl, ?_⟩
      obtain ⟨hfree, hsize, pre, post, rfl, -⟩ := firstFit_some hfirst
      have hb : b ∈ pre ++ b :: post := by simp
      have hlt := n.toNat_lt
      have hround := roundUp_eq n.toNat
      by_cases hsmall : roundUp n.toNat + 64 ≤ 2 ^ 32
      · -- the request has wrapped to a small one, which is what is handed out
        obtain ⟨d, ds, htake, hda, hdf⟩ := take_head (roundUp n.toNat) b
        have hd : d ∈ take (roundUp n.toNat) b := by simp [htake]
        have hinv := hg.inv.takeBlock (roundUp_mod n.toNat) hsmall
        have hds := (take_used hsize hd hdf).2.2
        have hread := hinv.blockSize_eq (b := d) (by simp [hd])
        rw [hda] at hread
        rintro ⟨hroom, -⟩
        rw [hread] at hroom
        omega
      · -- only `needed_space` has wrapped: the size left behind is close to `2 ^ 64`
        have hneeded : neededSpace (roundUp n.toNat) < 40 := by
          unfold neededSpace headerSize
          rw [roundUp_eq]
          omega
        have hheader := hg.inv.header_of_mem hb
        have hnew : size (takeBlock (roundUp n.toNat) b.addr s.mem) b.addr =
            neededSpace (roundUp n.toNat) + 2 ^ 64 - 40 := by
          rw [takeBlock_size (by rw [hheader.size_eq]; unfold headerSize kmemAlign; omega)]
          unfold headerSize
          omega
        rintro ⟨-, hend⟩
        have hin := hg.inv.top_le
        have hpos := hg.inv.addr_ne_zero b hb
        have hread : blockSize { s with mem := takeBlock (roundUp n.toNat) b.addr s.mem }
            (b.addr + 40) = neededSpace (roundUp n.toNat) + 2 ^ 64 - 40 := hnew
        rw [hread] at hend
        simp only at hend
        omega

/-- Zeroing from `p` on leaves the header before `p` alone. -/
theorem roomFor_fill {p n k : Nat} (hp : 40 ≤ p) :
    RoomFor { s with mem := s.mem.fill p k 0 } p n ↔ RoomFor s p n := by
  have hread : blockSize { s with mem := s.mem.fill p k 0 } p = blockSize s p := by
    unfold blockSize size headerSize
    exact Bytes.load_fill_ne (by omega)
  unfold RoomFor
  rw [hread]

theorem Good.calloc_unsafe (hg : Good base bytes s live bs) {c n : UInt64}
    (hdanger : ¬SafeCalloc s c.toNat n.toNat) :
    ∃ p s', kmemCalloc c n s = some (p, s') ∧ p ≠ 0 ∧ ¬RoomFor s' p (c.toNat * n.toNat) := by
  have hfits : c.toNat * n.toNat < 2 ^ 64 := by
    by_contra hbig
    exact hdanger (Or.inl (by omega))
  have hreq : ¬SafeRequest s (c.toNat * n.toNat) := fun h => hdanger (Or.inr h)
  have hzero : ¬(c = 0 ∨ n = 0) := by
    rintro (rfl | rfl) <;> exact hreq (Or.inl (by simp))
  have hcheck : ¬0xffffffffffffffff / n < c := by
    have hn0 : n.toNat ≠ 0 := fun h0 => hzero (Or.inr (UInt64.toNat_inj.mp h0))
    rw [UInt64.not_lt, UInt64.le_iff_toNat_le, UInt64.toNat_div,
      Nat.le_div_iff_mul_le (Nat.pos_of_ne_zero hn0)]
    exact Nat.le_sub_one_of_lt hfits
  have htotal := calloc_total (fun h => hzero (Or.inr h)) hcheck
  rw [← htotal] at hreq ⊢
  obtain ⟨p, s1, hcall, hp, -, -, hroom⟩ := hg.alloc_unsafe hreq
  have hp0 : p ≠ 0 := by omega
  refine ⟨p, { s1 with mem := s1.mem.fill p (c * n).toNat 0 }, ?_, hp0, ?_⟩
  · rw [kmemCalloc, if_neg hzero, if_neg hcheck, hcall, Option.map_some, if_pos hp0]
  · rwa [roomFor_fill hp]

/-! ## Runs -/

/-- Every request of the operation is safe. -/
def SafeOp (s : KmemState) : KmemOp → Prop
  | .alloc n => SafeRequest s n.toNat
  | .calloc c n => SafeCalloc s c.toNat n.toNat
  | .free _ => True
  | .client _ => True

theorem SafeOp.fits {op : KmemOp} (hop : SafeOp s op) (hi : HeapInv s bs) : OpFits s op := by
  cases op with
  | alloc n =>
      have hsafe : SafeRequest s n.toNat := hop
      show Fits (kmemBlocks s) n.toNat
      rw [hi.blocks_eq]
      exact hsafe.fits hi
  | calloc c n => exact hop
  | free p => trivial
  | client mem => trivial

/-- After any run of safe requests, the calls return, and what they hand out has room for what
was asked exactly when the request is safe. -/
theorem kmemRun_room_iff (hwrap : base.toNat + bytes.toNat ≤ 2 ^ 64)
    (hrun : KmemRun SafeOp base bytes s live) :
    (∀ n : UInt64, (kmemAlloc n s).isSome ∧ (AllocEnough s n ↔ SafeRequest s n.toNat)) ∧
    ∀ c n : UInt64, (kmemCalloc c n s).isSome ∧
      (CallocEnough s c n ↔ SafeCalloc s c.toNat n.toNat) := by
  obtain ⟨bs, hg⟩ := hrun.good hwrap (fun _ _ _ _ _ hg hop => hop.fits hg.inv)
  constructor
  · intro n
    by_cases hsafe : SafeRequest s n.toNat
    · obtain ⟨p, s', bs', hcall, -⟩ := hg.alloc_safe hsafe
      exact ⟨by rw [hcall]; rfl, fun _ => hsafe, fun _ => hg.allocEnough hsafe⟩
    · obtain ⟨p, s', hcall, hp, -, -, hroom⟩ := hg.alloc_unsafe hsafe
      refine ⟨by rw [hcall]; rfl, fun henough => ?_, fun h => absurd h hsafe⟩
      exact absurd (henough p s' hcall (by omega)) hroom
  · intro c n
    by_cases hsafe : SafeCalloc s c.toNat n.toNat
    · obtain ⟨p, s', bs', hcall, -⟩ := hg.calloc hsafe
      exact ⟨by rw [hcall]; rfl, fun _ => hsafe, fun _ => hg.callocEnough hsafe⟩
    · obtain ⟨p, s', hcall, hp, hroom⟩ := hg.calloc_unsafe hsafe
      refine ⟨by rw [hcall]; rfl, fun henough => ?_, fun h => absurd h hsafe⟩
      exact absurd (henough p s' hcall hp) hroom

/-- A run that asks the plain heap for 100 bytes, and then for `2 ^ 32`. -/
theorem kmemRun_room_plain :
    ∃ s live, KmemRun SafeOp 0x1003 0x1000 s live ∧ live = [0x1030] ∧
      (AllocEnough s 0x100000000 ↔ SafeRequest s 0x100000000) := by
  have hptr : (kmemAlloc 100 plainHeap).map (fun r => r.1) = some 0x1030 := by decide +kernel
  obtain ⟨⟨p, s⟩, hcall, rfl⟩ := Option.map_eq_some_iff.mp hptr
  have hop : SafeOp plainHeap (.alloc 100) := Or.inl (by decide)
  have hstep : KmemStep plainHeap [] (.alloc 100) s [0x1030] := .alloc hcall
  have hrun : KmemRun SafeOp 0x1003 0x1000 s [0x1030] := .step (.init plainHeap_init) hop hstep
  exact ⟨s, [0x1030], hrun, rfl, ((kmemRun_room_iff (by decide) hrun).1 0x100000000).2⟩

/-- `kmem_alloc(2 ^ 32)` on a fresh heap of 4 KiB returns a block of 8 bytes, and
`kmem_calloc(2 ^ 16, 2 ^ 16)` zeroes `2 ^ 32` bytes from there on. -/
theorem kmemAlloc_hands_out_less :
    KmemRun (fun _ _ => True) 0x1003 0x1000 plainHeap [] ∧
    (∃ p s', kmemAlloc 0x100000000 plainHeap = some (p, s') ∧ p ≠ 0 ∧
      blockSize s' p < 0x100000000) ∧
    ∃ p s', kmemCalloc 0x10000 0x10000 plainHeap = some (p, s') ∧ p ≠ 0 ∧
      blockSize s' p < 0x10000 * 0x10000 := by
  have halloc : (kmemAlloc 0x100000000 plainHeap).map (fun r => (r.1, blockSize r.2 r.1)) =
      some (0x1030, 8) := by decide +kernel
  have hcalloc : (kmemCalloc 0x10000 0x10000 plainHeap).map (fun r => (r.1, blockSize r.2 r.1)) =
      some (0x1030, 8) := by decide +kernel
  refine ⟨.init plainHeap_init, ?_, ?_⟩
  · obtain ⟨⟨p, s'⟩, hcall, heq⟩ := Option.map_eq_some_iff.mp halloc
    obtain ⟨hp, hsize⟩ := Prod.mk.inj heq
    simp only at hp hsize
    exact ⟨p, s', hcall, by omega, by omega⟩
  · obtain ⟨⟨p, s'⟩, hcall, heq⟩ := Option.map_eq_some_iff.mp hcalloc
    obtain ⟨hp, hsize⟩ := Prod.mk.inj heq
    simp only at hp hsize
    exact ⟨p, s', hcall, by omega, by omega⟩

end Mcsos.Kmem
