import Mcsos.Mm.KmemHeap

set_option autoImplicit false

/-! # The heap invariant

`HeapInv s bs` ties the heap state to a block list: following `next` from `g_heap_base` reads
`bs`, and `bs` tiles the heap. `Owned live bs` says that the used blocks are exactly those whose
payload the clients hold. Every operation is described by the new block list.
-/

namespace Mcsos.Kmem

open BlockList

structure HeapInv (s : KmemState) (bs : List Blk) : Prop where
  ready : s.ready = true
  seg : Seg s.mem s.heapBase bs 0
  tiles : Tiles 40 s.heapBase bs (s.heapBase + s.heapBytes)
  base_pos : 0 < s.heapBase
  top_le : s.heapBase + s.heapBytes ≤ 2 ^ 64
  aligned : ∀ b ∈ bs, b.addr % 16 = 8 ∧ 0 < b.size

namespace HeapInv

variable {s : KmemState} {bs : List Blk}

theorem addr_ne_zero (hi : HeapInv s bs) : ∀ b ∈ bs, b.addr ≠ 0 := by
  intro b hb
  have h1 := (tiles_mem hi.tiles hb).1
  have h2 := hi.base_pos
  omega

theorem length_le (hi : HeapInv s bs) : bs.length ≤ s.heapBytes := by
  have hlength := tiles_length hi.tiles
  omega

theorem blocks_eq (hi : HeapInv s bs) : kmemBlocks s = bs :=
  walk_eq hi.seg hi.addr_ne_zero (Nat.lt_succ_of_le hi.length_le)

/-- Writes that spare the headers do not touch the invariant. -/
theorem congr (hi : HeapInv s bs) {mem' : Bytes}
    (h : ∀ b ∈ bs, Bytes.AgreeOn mem' s.mem b.addr (b.addr + headerSize)) :
    HeapInv { s with mem := mem' } bs :=
  ⟨hi.ready, hi.seg.congr h, hi.tiles, hi.base_pos, hi.top_le, hi.aligned⟩

end HeapInv

/-! ## Initialisation -/

theorem kmemInit_inv {base bytes : UInt64} {s0 s : KmemState}
    (hwrap : base.toNat + bytes.toNat ≤ 2 ^ 64) (hinit : kmemInit base bytes s0 = (0, s)) :
    HeapInv s [⟨s.heapBase, s.heapBytes - 40, true⟩] ∧
      s.heapBase = (base.toNat + 55) / 16 * 16 - 40 ∧
      s.heapBase + s.heapBytes = base.toNat + bytes.toNat := by
  unfold kmemInit headerSize kmemAlign at hinit
  by_cases hready : s0.ready = true
  · rw [if_pos hready] at hinit
    cases hinit
  rw [if_neg hready] at hinit
  by_cases hargs : base = 0 ∨ bytes.toNat < 40 + 16
  · rw [if_pos hargs] at hinit
    cases hinit
  rw [if_neg hargs] at hinit
  have hlen : 56 ≤ bytes.toNat := by omega
  -- the first payload is aligned, and the first header stands before it
  have hround : ((base.toNat + 40) % 2 ^ 64 + 15) % 2 ^ 64 &&& 0xfffffffffffffff0 =
      (base.toNat + 55) / 16 * 16 := by
    rw [and_high_mask (by omega)]
    omega
  simp only [show 16 - 1 = 15 by norm_num, hround] at hinit
  obtain ⟨hdr, hhdr⟩ : ∃ hdr, hdr = (base.toNat + 55) / 16 * 16 - 40 := ⟨_, rfl⟩
  rw [show ((base.toNat + 55) / 16 * 16 + 2 ^ 64 - 40) % 2 ^ 64 = hdr by omega,
    show (hdr + 2 ^ 64 - base.toNat) % 2 ^ 64 = hdr - base.toNat by omega,
    show (hdr - base.toNat + 40) % 2 ^ 64 = hdr - base.toNat + 40 by omega] at hinit
  by_cases hroom : bytes.toNat ≤ hdr - base.toNat + 40
  · rw [if_pos hroom] at hinit
    cases hinit
  rw [if_neg hroom, show (bytes.toNat + 2 ^ 64 - (hdr - base.toNat)) % 2 ^ 64 =
    bytes.toNat - (hdr - base.toNat) by omega] at hinit
  -- what is left of the memory is one free block; none of the subtractions has wrapped
  obtain ⟨len, hlen⟩ : ∃ len, len = bytes.toNat - (hdr - base.toNat) := ⟨_, rfl⟩
  rw [← hlen, show (len + 2 ^ 64 - 40) % 2 ^ 64 = len - 40 by omega] at hinit
  obtain ⟨-, rfl⟩ := Prod.mk.inj hinit
  have hpow : (256 : Nat) ^ 8 = 2 ^ 64 := by norm_num
  have hbase : 0 < hdr := by
    have hb : base.toNat ≠ 0 := fun h0 => hargs (Or.inl (UInt64.toNat_inj.mp h0))
    omega
  refine ⟨⟨rfl, ⟨rfl, ⟨?_, ?_, ?_⟩, ?_⟩, ⟨rfl, ?_⟩, hbase, ?_, ?_⟩, hhdr, ?_⟩
  · simp only [magic, setMagic, setSize, setNext, setIsFree]
    simp (disch := omega) only [Bytes.load_store_ne]
    exact Bytes.load_store_same (by decide)
  · simp only [size, setSize, setNext, setIsFree]
    simp (disch := omega) only [Bytes.load_store_ne, Bytes.load_store_same]
  · simp only [isFree, setIsFree]
    rw [Bytes.load_store_same (by norm_num)]
    simp
  · show next _ _ = 0
    simp only [next, setNext, setIsFree]
    simp (disch := omega) only [Bytes.load_store_ne, Bytes.load_store_same]
  · show hdr + 40 + (len - 40) = hdr + len
    omega
  · show hdr + len ≤ 2 ^ 64
    omega
  · intro b hb
    rw [List.mem_singleton.mp hb]
    show hdr % 16 = 8 ∧ 0 < len - 40
    omega
  · show hdr + len = base.toNat + bytes.toNat
    omega

/-! ## `kmem_alloc` -/

/-- The call in terms of the block list. -/
theorem kmemAlloc_eq {s : KmemState} {bs : List Blk} (hi : HeapInv s bs) {n : UInt64}
    (hn : n ≠ 0) :
    kmemAlloc n s = match firstFit (roundUp n.toNat) bs with
      | none => some (0, s)
      | some b =>
          some (b.addr + 40, { s with mem := takeBlock (roundUp n.toNat) b.addr s.mem }) := by
  unfold kmemAlloc
  rw [if_neg (by simp [hi.ready, hn]), allocLoop_eq hi.seg hi.addr_ne_zero
    (Nat.lt_succ_of_le hi.length_le)]
  cases hfit : firstFit (roundUp n.toNat) bs with
  | none => rfl
  | some b =>
      obtain ⟨-, -, pre, post, hbs, -⟩ := firstFit_some hfit
      have hb : b ∈ bs := by simp [hbs]
      have hend := (tiles_mem hi.tiles hb).2
      have hpos := (hi.aligned b hb).2
      have htop := hi.top_le
      have hp : (b.addr + headerSize) % 2 ^ 64 = b.addr + 40 := by
        unfold headerSize
        omega
      simp only [Option.map_some, hp]

theorem roundUp_mod (n : Nat) : roundUp n % 16 = 0 := by
  rw [roundUp_eq]
  omega

/-- Taking a block that the 32-bit arithmetic is good for keeps the invariant. -/
theorem HeapInv.takeBlock {s : KmemState} {pre post : List Blk} {b : Blk} {n : Nat}
    (hi : HeapInv s (pre ++ b :: post)) (hn : n % 16 = 0) (hn' : n + 64 ≤ 2 ^ 32) :
    HeapInv { s with mem := Kmem.takeBlock n b.addr s.mem } (pre ++ take n b ++ post) := by
  refine ⟨hi.ready, takeBlock_seg hi.seg hi.tiles hi.top_le hn hn', tiles_take hi.tiles,
    hi.base_pos, hi.top_le, fun c hc => ?_⟩
  have hb := hi.aligned b (by simp)
  rw [List.append_assoc] at hc
  rcases List.mem_append.mp hc with hc | hc
  · exact hi.aligned c (by simp [hc])
  rcases List.mem_append.mp hc with hc | hc
  · unfold take at hc
    split_ifs at hc
    · simp only [List.mem_cons, List.not_mem_nil, or_false] at hc
      rcases hc with rfl | rfl <;> simp only <;> omega
    · rw [List.mem_singleton.mp hc]
      exact hb
  · exact hi.aligned c (by simp [hc])

/-! ## `kmem_free_checked` -/

theorem HeapInv.setFree {s : KmemState} {pre post : List Blk} {b : Blk}
    (hi : HeapInv s (pre ++ b :: post)) :
    HeapInv { s with mem := setIsFree s.mem b.addr 1 }
      (pre ++ { b with free := true } :: post) := by
  refine ⟨hi.ready, setIsFree_seg hi.seg hi.tiles, tiles_set_free hi.tiles, hi.base_pos,
    hi.top_le, fun c hc => ?_⟩
  rcases List.mem_append.mp hc with hc | hc
  · exact hi.aligned c (by simp [hc])
  rcases List.mem_cons.mp hc with rfl | hc
  · exact hi.aligned b (by simp)
  · exact hi.aligned c (by simp [hc])

theorem HeapInv.coalesce {s : KmemState} {bs : List Blk} (hi : HeapInv s bs) :
    ∃ mem', coalesceLoop (s.heapBytes + 1) (s.heapBytes + 1) s.heapBase s.mem = some (0, mem') ∧
      HeapInv { s with mem := mem' } (BlockList.coalesce 40 bs) := by
  have hlen := hi.length_le
  obtain ⟨mem', hrun, hseg, -⟩ := coalesceLoop_spec hi.seg hi.tiles hi.top_le hi.addr_ne_zero
    (by omega : bs.length ≤ s.heapBytes + 1) (by omega : bs.length < s.heapBytes + 1)
  refine ⟨mem', hrun, hi.ready, hseg, tiles_coalesce hi.tiles, hi.base_pos, hi.top_le, ?_⟩
  refine coalesce_forall (fun b c hb hc => ?_) hi.aligned
  show b.addr % 16 = 8 ∧ 0 < b.size + 40 + c.size
  omega

/-- The pointer fails the range check. -/
def OutOfRange (ptr : UInt64) (s : KmemState) : Prop :=
  ptr.toNat ≤ s.heapBase ∨ (s.heapBase + s.heapBytes) % 2 ^ 64 ≤ ptr.toNat

theorem HeapInv.kmemFree_outOfRange {s : KmemState} {bs : List Blk} (hi : HeapInv s bs)
    {ptr : UInt64} (hp0 : ptr ≠ 0) (hout : OutOfRange ptr s) :
    kmemFreeChecked ptr s = some (-3, s) := by
  unfold OutOfRange at hout
  rw [kmemFreeChecked, if_neg (by simp [hi.ready]), if_neg hp0, if_pos hout]

/-- A payload pointer of a used block that passes the range check is taken back. -/
theorem kmemFree_inRange {s : KmemState} {pre post : List Blk} {b : Blk} {p : UInt64}
    (hi : HeapInv s (pre ++ b :: post)) (hu : b.free = false) (hp : p.toNat = b.addr + 40)
    (hrange : ¬OutOfRange p s) :
    ∃ s', kmemFreeChecked p s = some (0, s') ∧ s'.heapBase = s.heapBase ∧
      s'.heapBytes = s.heapBytes ∧
      HeapInv s' (BlockList.coalesce 40 (pre ++ { b with free := true } :: post)) := by
  obtain ⟨m, -, -, hh, -⟩ := seg_append.mp hi.seg
  have hused : ¬isFree s.mem b.addr ≠ 0 := by
    rw [hh.free_iff, hu]
    exact Bool.false_ne_true
  have hp0 : p ≠ 0 := by
    rintro rfl
    simp at hp
  obtain ⟨mem', hrun, hinv⟩ := hi.setFree.coalesce
  have hblock : (p.toNat + 2 ^ 64 - headerSize) % 2 ^ 64 = b.addr := by
    have hbound := p.toNat_lt
    unfold headerSize
    omega
  refine ⟨{ s with mem := mem' }, ?_, rfl, rfl, hinv⟩
  unfold OutOfRange at hrange
  unfold kmemFreeChecked
  simp only at hrun
  rw [if_neg (by simp [hi.ready]), if_neg hp0, if_neg hrange]
  simp only [hblock]
  rw [if_neg (not_not.mpr hh.magic_eq), if_neg hused, hrun]
  rfl

/-- A payload pointer of a used block is taken back, unless the heap ends at the very top of
the address space, where the range check refuses every pointer. -/
theorem kmemFree_eq {s : KmemState} {pre post : List Blk} {b : Blk} {p : UInt64}
    (hi : HeapInv s (pre ++ b :: post)) (hu : b.free = false) (hp : p.toNat = b.addr + 40) :
    kmemFreeChecked p s = some (-3, s) ∨
    ∃ s', kmemFreeChecked p s = some (0, s') ∧ s'.heapBase = s.heapBase ∧
      s'.heapBytes = s.heapBytes ∧
      HeapInv s' (BlockList.coalesce 40 (pre ++ { b with free := true } :: post)) := by
  by_cases hrange : OutOfRange p s
  · left
    have hp0 : p ≠ 0 := by
      rintro rfl
      simp at hp
    exact hi.kmemFree_outOfRange hp0 hrange
  · exact Or.inr (kmemFree_inRange hi hu hp hrange)

end Mcsos.Kmem
